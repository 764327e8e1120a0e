/-
# Live routes (`internal/pkg/tablemgr/live_route_wrapper.go`)

A `LiveRouteWrapper` is a running route: its configuration, the number of route ids that
share it, and the plugins it holds.  `Register` takes the filters in order, then the
sender, then the receiver, and gives back what it has taken when one of them fails.

`register_spec` says what the plugin manager looks like afterwards: with the plugins of
the wrapper added, or as before.
-/
import Ears.PluginManager
import Ears.Route

open Plugin

/-- `LiveRouteWrapper`.  The plugins are the ids of their wrappers in the plugin manager.
`RefCnt` is an `int32` in the source; it counts route ids held in memory and is taken as an
integer here. -/
structure LiveRouteWrapper where
  config : Route.Config
  refCnt : ℤ
  receiver : Option ℕ := none
  sender : Option ℕ := none
  filterChain : List ℕ := []

namespace LiveRouteWrapper

/-- `NewLiveRouteWrapper`. -/
def newLiveRouteWrapper (routeConfig : Route.Config) : LiveRouteWrapper :=
  { config := routeConfig, refCnt := 1 }

/-- `AddRouteReference`. -/
def addRouteReference (lrw : LiveRouteWrapper) : LiveRouteWrapper :=
  { lrw with refCnt := lrw.refCnt + 1 }

/-- `RemoveRouteReference`. -/
def removeRouteReference (lrw : LiveRouteWrapper) : LiveRouteWrapper :=
  { lrw with refCnt := lrw.refCnt - 1 }

/-- Keep the last error: `if err != nil { e = err }`. -/
def lastError (e : Option RegistrationError) : Except RegistrationError Unit →
    Option RegistrationError
  | .ok () => e
  | .error err => some err

/-- The loop of `Unregister` over the filter chain. -/
def unregisterFilters (m : Manager) (e : Option RegistrationError) :
    List ℕ → Manager × Option RegistrationError
  | [] => (m, e)
  | f :: fs => unregisterFilters (m.unregisterFilter f).1 (lastError e (m.unregisterFilter f).2) fs

/-- The first part of `Unregister`: give back the receiver, if there is one. -/
def releaseReceiver (m : Manager) (e : Option RegistrationError) :
    Option ℕ → Manager × Option RegistrationError
  | none => (m, e)
  | some id => ((m.unregisterReceiver id).1, lastError e (m.unregisterReceiver id).2)

/-- The second part of `Unregister`: give back the sender, if there is one. -/
def releaseSender (m : Manager) (e : Option RegistrationError) :
    Option ℕ → Manager × Option RegistrationError
  | none => (m, e)
  | some id => ((m.unregisterSender id).1, lastError e (m.unregisterSender id).2)

/-- `Unregister`: the receiver, the sender and the filters, whatever fails on the way. -/
def unregister (lrw : LiveRouteWrapper) (m : Manager) : Manager × Option RegistrationError :=
  let r := releaseReceiver m none lrw.receiver
  let s := releaseSender r.1 r.2 lrw.sender
  unregisterFilters s.1 s.2 lrw.filterChain

/-- The loop of `Register` over the filters; `i` is the position in the chain. -/
def registerFilters (answers : ℕ → Answers) (tid : Tenant.Id) (m : Manager) (chain : List ℕ) :
    ℕ → List Route.PluginConfig → Manager × List ℕ × Option RegistrationError
  | _, [] => (m, chain, none)
  | i, f :: fs =>
      match m.registerFilter f.plugin f.name (Route.stringify f.config) tid (answers i) with
      | (m, .error err) => (m, chain, some err)
      | (m, .ok id) => registerFilters answers tid m (chain ++ [id]) (i + 1) fs

/-- `Register`.  The answer number `i` is for the filter at position `i`, the next ones are
for the sender and the receiver. -/
def register (lrw : LiveRouteWrapper) (m : Manager) (answers : ℕ → Answers) :
    Manager × LiveRouteWrapper × Option RegistrationError :=
  let c := lrw.config
  let n := c.filterChain.length
  match registerFilters answers c.tenantId m [] 0 c.filterChain with
  | (m, chain, some err) =>
      let lrw := { lrw with filterChain := chain }
      ((lrw.unregister m).1, lrw, some err)
  | (m, chain, none) =>
  let lrw := { lrw with filterChain := chain }
  match m.registerSender c.sender.plugin c.sender.name (Route.stringify c.sender.config)
      c.tenantId (answers n) with
  | (m, .error err) => ((lrw.unregister m).1, lrw, some err)
  | (m, .ok sid) =>
  let lrw := { lrw with sender := some sid }
  match m.registerReceiver c.receiver.plugin c.receiver.name (Route.stringify c.receiver.config)
      c.tenantId (answers (n + 1)) with
  | (m, .error err) => ((lrw.unregister m).1, lrw, some err)
  | (m, .ok rid) => (m, { lrw with receiver := some rid }, none)

/-! ## The plugin manager around a registration -/

/-- The three registries are sound. -/
structure ManagerSound (m : Manager) : Prop where
  receivers : m.receivers.Sound
  filters : m.filters.Sound
  senders : m.senders.Sound

/-- No registry has an instance without a wrapper. -/
structure ManagerTight (m : Manager) : Prop where
  receivers : m.receivers.Tight
  filters : m.filters.Tight
  senders : m.senders.Tight

/-- The three registries have the same content. -/
structure ManagerSame (m m' : Manager) : Prop where
  receivers : m.receivers.Same m'.receivers
  filters : m.filters.Same m'.filters
  senders : m.senders.Same m'.senders

/-- `m'` is `m` with the plugins of the route added. -/
structure Adds (lrw : LiveRouteWrapper) (m m' : Manager) : Prop where
  receivers : m.receivers.Extends m'.receivers lrw.receiver.toList
  filters : m.filters.Extends m'.filters lrw.filterChain
  senders : m.senders.Extends m'.senders lrw.sender.toList

/-- `m'` is `m` without the plugins of the route. -/
structure Removes (lrw : LiveRouteWrapper) (m m' : Manager) : Prop where
  receivers : m.receivers.Drops m'.receivers lrw.receiver.toList
  filters : m.filters.Drops m'.filters lrw.filterChain
  senders : m.senders.Drops m'.senders lrw.sender.toList

/-- The plugins of the route are registered. -/
structure Held (lrw : LiveRouteWrapper) (m : Manager) : Prop where
  receivers : ∀ id ∈ lrw.receiver.toList, id ∈ m.receivers.wrapped
  filters : ∀ id ∈ lrw.filterChain, id ∈ m.filters.wrapped
  senders : ∀ id ∈ lrw.sender.toList, id ∈ m.senders.wrapped
  nodup : lrw.filterChain.Nodup

variable {lrw : LiveRouteWrapper} {m m₀ m' : Manager} {answers : ℕ → Answers}

theorem mem_of_extends {reg reg' : Registry} {ids : List ℕ} (h : reg.Extends reg' ids) {id : ℕ}
    (hid : id ∈ ids) : id ∈ reg'.wrapped := by
  rw [h.wrapped]
  simp [hid]

theorem Adds.held (h : lrw.Adds m m') : lrw.Held m' where
  receivers := fun _ hid => mem_of_extends h.receivers hid
  filters := fun _ hid => mem_of_extends h.filters hid
  senders := fun _ hid => mem_of_extends h.senders hid
  nodup := h.filters.nodup

theorem Adds.sound (h : lrw.Adds m m') : ManagerSound m' :=
  ⟨h.receivers.sound, h.filters.sound, h.senders.sound⟩

theorem Removes.sound (h : lrw.Removes m m') : ManagerSound m' :=
  ⟨h.receivers.sound, h.filters.sound, h.senders.sound⟩

theorem Removes.tight (h : lrw.Removes m m') (ht : ManagerTight m) : ManagerTight m' :=
  ⟨h.receivers.tight ht.receivers, h.filters.tight ht.filters, h.senders.tight ht.senders⟩

/-- Adding the plugins of a route and removing them again changes nothing. -/
theorem Adds.removes_same (h : lrw.Adds m₀ m) (hr : lrw.Removes m m') (hs : ManagerSound m₀)
    (ht : ManagerTight m₀) (ht₁ : ManagerTight m) : ManagerSame m₀ m' where
  receivers := h.receivers.drops_same hr.receivers hs.receivers ht.receivers ht₁.receivers
  filters := h.filters.drops_same hr.filters hs.filters ht.filters ht₁.filters
  senders := h.senders.drops_same hr.senders hs.senders ht.senders ht₁.senders

/-! ## Unregister -/

/-- The filters are unregistered one after the other, and none fails. -/
theorem unregisterFilters_spec {reg : Registry} (m : Manager) (dropped fs : List ℕ)
    (h : reg.Drops m.filters dropped) (hfs : ∀ f ∈ fs, f ∈ m.filters.wrapped) (hnodup : fs.Nodup)
    (e : Option RegistrationError) :
    (unregisterFilters m e fs).2 = e ∧
      reg.Drops (unregisterFilters m e fs).1.filters (dropped ++ fs) ∧
      (unregisterFilters m e fs).1.receivers = m.receivers ∧
      (unregisterFilters m e fs).1.senders = m.senders := by
  induction fs generalizing m dropped with
  | nil =>
      rw [List.append_nil]
      exact ⟨rfl, h, rfl, rfl⟩
  | cons f fs ih =>
      have hf := hfs f List.mem_cons_self
      obtain ⟨hnot, hnodup⟩ := List.nodup_cons.mp hnodup
      have hok : (m.unregisterFilter f).2 = .ok () := Registry.unregister_ok h.sound hf
      have hrest : ∀ g ∈ fs, g ∈ (m.unregisterFilter f).1.filters.wrapped := by
        intro g hg
        show g ∈ (m.filters.unregister filterTexts f).1.wrapped
        rw [Registry.unregister_wrapped h.sound hf, Finset.mem_erase]
        exact ⟨fun heq => hnot (heq ▸ hg), hfs g (List.mem_cons_of_mem _ hg)⟩
      have hstep := ih (m.unregisterFilter f).1 _ (h.unregister hf filterTexts) hrest hnodup
      rw [List.append_assoc, List.singleton_append] at hstep
      rw [unregisterFilters, hok]
      exact hstep

theorem releaseReceiver_spec {o : Option ℕ} (hs : m.receivers.Sound)
    (ho : ∀ id ∈ o.toList, id ∈ m.receivers.wrapped) (e : Option RegistrationError) :
    (releaseReceiver m e o).2 = e ∧
      m.receivers.Drops (releaseReceiver m e o).1.receivers o.toList ∧
      (releaseReceiver m e o).1.filters = m.filters ∧
      (releaseReceiver m e o).1.senders = m.senders := by
  cases o with
  | none => exact ⟨rfl, Registry.Drops.refl hs, rfl, rfl⟩
  | some id =>
      have hid := ho id (by simp)
      have hok : (m.unregisterReceiver id).2 = .ok () := Registry.unregister_ok hs hid
      rw [releaseReceiver, hok]
      exact ⟨rfl, (Registry.Drops.refl hs).unregister hid receiverTexts, rfl, rfl⟩

theorem releaseSender_spec {o : Option ℕ} (hs : m.senders.Sound)
    (ho : ∀ id ∈ o.toList, id ∈ m.senders.wrapped) (e : Option RegistrationError) :
    (releaseSender m e o).2 = e ∧
      m.senders.Drops (releaseSender m e o).1.senders o.toList ∧
      (releaseSender m e o).1.filters = m.filters ∧
      (releaseSender m e o).1.receivers = m.receivers := by
  cases o with
  | none => exact ⟨rfl, Registry.Drops.refl hs, rfl, rfl⟩
  | some id =>
      have hid := ho id (by simp)
      have hok : (m.unregisterSender id).2 = .ok () := Registry.unregister_ok hs hid
      rw [releaseSender, hok]
      exact ⟨rfl, (Registry.Drops.refl hs).unregister hid senderTexts, rfl, rfl⟩

/-- Unregistering a route whose plugins are registered removes them, without an error. -/
theorem unregister_spec (hs : ManagerSound m) (h : lrw.Held m) :
    (lrw.unregister m).2 = none ∧ lrw.Removes m (lrw.unregister m).1 := by
  obtain ⟨hre, hrdrop, hrf, hrs⟩ := releaseReceiver_spec hs.receivers h.receivers none
  have hsend := releaseSender_spec (m := (releaseReceiver m none lrw.receiver).1) (o := lrw.sender)
    (by rw [hrs]; exact hs.senders) (by rw [hrs]; exact h.senders)
    (releaseReceiver m none lrw.receiver).2
  rw [hrs, hrf, hre] at hsend
  obtain ⟨hse, hsdrop, hsf, hsr⟩ := hsend
  have hfilters := unregisterFilters_spec
    (releaseSender (releaseReceiver m none lrw.receiver).1 none lrw.sender).1 [] lrw.filterChain
    (Registry.Drops.refl (by rw [hsf]; exact hs.filters)) (by rw [hsf]; exact h.filters)
    h.nodup none
  rw [hsf] at hfilters
  obtain ⟨hfe, hfdrop, hfr, hfs⟩ := hfilters
  have heq : lrw.unregister m = unregisterFilters
      (releaseSender (releaseReceiver m none lrw.receiver).1 none lrw.sender).1 none
      lrw.filterChain := by
    unfold unregister
    dsimp only
    rw [hre, hse]
  rw [heq]
  refine ⟨hfe, ?_, hfdrop, ?_⟩
  · rw [hfr, hsr]
    exact hrdrop
  · rw [hfs]
    exact hsdrop

/-! ## Register -/

/-- The loop over the filters adds the filters it has registered. -/
theorem registerFilters_spec {reg : Registry} (answers : ℕ → Answers) (tid : Tenant.Id)
    (m : Manager) (chain : List ℕ)
    (i : ℕ) (fs : List Route.PluginConfig) (h : reg.Extends m.filters chain) :
    reg.Extends (registerFilters answers tid m chain i fs).1.filters
        (registerFilters answers tid m chain i fs).2.1 ∧
      (registerFilters answers tid m chain i fs).1.receivers = m.receivers ∧
      (registerFilters answers tid m chain i fs).1.senders = m.senders ∧
      ((registerFilters answers tid m chain i fs).2.2 = none →
        (registerFilters answers tid m chain i fs).2.1.length = chain.length + fs.length) ∧
      (m.filters.Tight → (∀ i, (answers i).uuid = none) →
        (registerFilters answers tid m chain i fs).1.filters.Tight) := by
  induction fs generalizing m chain i with
  | nil => exact ⟨h, rfl, rfl, fun _ => rfl, fun ht _ => ht⟩
  | cons f fs ih =>
      have hreg := h.register filterTexts f.plugin f.name (Route.stringify f.config) tid (answers i)
      have htight : m.filters.Tight → (∀ i, (answers i).uuid = none) → _ := fun ht huuid =>
        ht.register h.sound filterTexts f.plugin f.name (Route.stringify f.config) tid (huuid i)
      unfold registerFilters
      rcases hreg with ⟨err, herr, hext⟩ | ⟨id, hok, hext⟩
      · have heq : m.registerFilter f.plugin f.name (Route.stringify f.config) tid (answers i) =
            ({ m with filters := _ }, .error err) := Prod.ext rfl herr
        rw [heq]
        exact ⟨hext, rfl, rfl, fun hnone => by simp at hnone, htight⟩
      · have heq : m.registerFilter f.plugin f.name (Route.stringify f.config) tid (answers i) =
            ({ m with filters := _ }, .ok id) := Prod.ext rfl hok
        rw [heq]
        obtain ⟨hfilters, hrecv, hsend, hlen, hrest⟩ :=
          ih { m with filters := _ } (chain ++ [id]) (i + 1) hext
        refine ⟨hfilters, hrecv, hsend, fun hnone => ?_, fun ht huuid => hrest (htight ht huuid) huuid⟩
        rw [hlen hnone, List.length_append, List.length_cons]
        simp only [List.length_cons, List.length_nil]
        omega

/-- Registering a sender adds one sender or none. -/
theorem registerSender_spec {reg : Registry} (m : Manager) (h : reg.Extends m.senders [])
    (pc : Route.PluginConfig) (tid : Tenant.Id) (a : Answers) :
    ∃ m', m'.receivers = m.receivers ∧ m'.filters = m.filters ∧
      ((∃ err, m.registerSender pc.plugin pc.name (Route.stringify pc.config) tid a =
          (m', .error err) ∧ reg.Extends m'.senders []) ∨
        (∃ id, m.registerSender pc.plugin pc.name (Route.stringify pc.config) tid a =
          (m', .ok id) ∧ reg.Extends m'.senders [id])) ∧
      (m.senders.Tight → a.uuid = none → m'.senders.Tight) := by
  refine ⟨(m.registerSender pc.plugin pc.name (Route.stringify pc.config) tid a).1, rfl, rfl, ?_,
    fun ht huuid => ht.register h.sound senderTexts _ _ _ tid huuid⟩
  rcases h.register senderTexts pc.plugin pc.name (Route.stringify pc.config) tid a with
    ⟨err, herr, hext⟩ | ⟨id, hok, hext⟩
  · exact Or.inl ⟨err, Prod.ext rfl herr, hext⟩
  · exact Or.inr ⟨id, Prod.ext rfl hok, hext⟩

/-- Registering a receiver adds one receiver or none. -/
theorem registerReceiver_spec {reg : Registry} (m : Manager) (h : reg.Extends m.receivers [])
    (pc : Route.PluginConfig) (tid : Tenant.Id) (a : Answers) :
    ∃ m', m'.senders = m.senders ∧ m'.filters = m.filters ∧
      ((∃ err, m.registerReceiver pc.plugin pc.name (Route.stringify pc.config) tid a =
          (m', .error err) ∧ reg.Extends m'.receivers []) ∨
        (∃ id, m.registerReceiver pc.plugin pc.name (Route.stringify pc.config) tid a =
          (m', .ok id) ∧ reg.Extends m'.receivers [id])) ∧
      (m.receivers.Tight → a.uuid = none → m'.receivers.Tight) := by
  refine ⟨(m.registerReceiver pc.plugin pc.name (Route.stringify pc.config) tid a).1, rfl, rfl, ?_,
    fun ht huuid => ht.register h.sound receiverTexts _ _ _ tid huuid⟩
  rcases h.register receiverTexts pc.plugin pc.name (Route.stringify pc.config) tid a with
    ⟨err, herr, hext⟩ | ⟨id, hok, hext⟩
  · exact Or.inl ⟨err, Prod.ext rfl herr, hext⟩
  · exact Or.inr ⟨id, Prod.ext rfl hok, hext⟩

/-- A wrapper that holds no plugins, as `NewLiveRouteWrapper` makes it. -/
def Fresh (lrw : LiveRouteWrapper) : Prop :=
  lrw.receiver = none ∧ lrw.sender = none ∧ lrw.filterChain = []

/-- The wrapper holds a receiver, a sender and all its filters. -/
def Complete (lrw : LiveRouteWrapper) : Prop :=
  lrw.receiver.isSome ∧ lrw.sender.isSome ∧
    lrw.filterChain.length = lrw.config.filterChain.length

/-- `Register` adds all plugins of the route, or fails and leaves none of them. -/
theorem register_spec (lrw : LiveRouteWrapper) (hs : ManagerSound m) (hfresh : lrw.Fresh)
    (answers : ℕ → Answers) :
    (lrw.register m answers).2.1.config = lrw.config ∧
    (lrw.register m answers).2.1.refCnt = lrw.refCnt ∧
    (((lrw.register m answers).2.2 = none ∧
        (lrw.register m answers).2.1.Adds m (lrw.register m answers).1 ∧
        (lrw.register m answers).2.1.Complete) ∨
      ((lrw.register m answers).2.2.isSome ∧
        ∃ m₁, (lrw.register m answers).2.1.Adds m m₁ ∧
          (lrw.register m answers).2.1.Removes m₁ (lrw.register m answers).1 ∧
          (ManagerTight m → (∀ i, (answers i).uuid = none) → ManagerTight m₁))) ∧
    (ManagerTight m → (∀ i, (answers i).uuid = none) →
      ManagerTight (lrw.register m answers).1) := by
  obtain ⟨hrecv, hsend, -⟩ := hfresh
  have hfilters := registerFilters_spec answers lrw.config.tenantId m [] 0 lrw.config.filterChain
    (Registry.Extends.refl hs.filters)
  unfold register
  dsimp only
  rcases hres : registerFilters answers lrw.config.tenantId m [] 0 lrw.config.filterChain with
    ⟨m₁, chain, err⟩
  rw [hres] at hfilters
  dsimp only at hfilters
  obtain ⟨hext, hr₁, hs₁, hlen, htight₁⟩ := hfilters
  have hrext : m.receivers.Extends m₁.receivers [] := by
    rw [hr₁]
    exact Registry.Extends.refl hs.receivers
  have hsext : m.senders.Extends m₁.senders [] := by
    rw [hs₁]
    exact Registry.Extends.refl hs.senders
  have ht₁ : ManagerTight m → (∀ i, (answers i).uuid = none) → ManagerTight m₁ :=
    fun ht huuid => ⟨hr₁ ▸ ht.receivers, htight₁ ht.filters huuid, hs₁ ▸ ht.senders⟩
  cases err with
  | some err =>
      -- a filter failed: the filters before it are given back
      have hadds : ({ lrw with filterChain := chain } : LiveRouteWrapper).Adds m m₁ :=
        ⟨by simpa [hrecv] using hrext, hext, by simpa [hsend] using hsext⟩
      have hrem := (unregister_spec hadds.sound hadds.held).2
      exact ⟨rfl, rfl, Or.inr ⟨rfl, m₁, hadds, hrem, ht₁⟩,
        fun ht huuid => hrem.tight (ht₁ ht huuid)⟩
  | none =>
  dsimp only
  obtain ⟨m₂, hr₂, hf₂, hres₂, htight₂⟩ := registerSender_spec m₁ hsext lrw.config.sender
    lrw.config.tenantId (answers lrw.config.filterChain.length)
  have ht₂ : ManagerTight m → (∀ i, (answers i).uuid = none) → ManagerTight m₂ :=
    fun ht huuid => ⟨hr₂ ▸ (ht₁ ht huuid).receivers, hf₂ ▸ (ht₁ ht huuid).filters,
      htight₂ (ht₁ ht huuid).senders (huuid _)⟩
  rw [← hr₂] at hrext
  rw [← hf₂] at hext
  rcases hres₂ with ⟨err, heq, hsext⟩ | ⟨sid, heq, hsext⟩
  · -- the sender failed: the filters are given back
    rw [heq]
    have hadds : ({ lrw with filterChain := chain } : LiveRouteWrapper).Adds m m₂ :=
      ⟨by simpa [hrecv] using hrext, hext, by simpa [hsend] using hsext⟩
    have hrem := (unregister_spec hadds.sound hadds.held).2
    exact ⟨rfl, rfl, Or.inr ⟨rfl, m₂, hadds, hrem, ht₂⟩,
      fun ht huuid => hrem.tight (ht₂ ht huuid)⟩
  · rw [heq]
    dsimp only
    obtain ⟨m₃, hs₃, hf₃, hres₃, htight₃⟩ := registerReceiver_spec m₂ hrext lrw.config.receiver
      lrw.config.tenantId (answers (lrw.config.filterChain.length + 1))
    have ht₃ : ManagerTight m → (∀ i, (answers i).uuid = none) → ManagerTight m₃ :=
      fun ht huuid => ⟨htight₃ (ht₂ ht huuid).receivers (huuid _), hf₃ ▸ (ht₂ ht huuid).filters,
        hs₃ ▸ (ht₂ ht huuid).senders⟩
    rw [← hs₃] at hsext
    rw [← hf₃] at hext
    rcases hres₃ with ⟨err, heq, hrext⟩ | ⟨rid, heq, hrext⟩
    · -- the receiver failed: the filters and the sender are given back
      rw [heq]
      have hadds : ({ lrw with filterChain := chain, sender := some sid } :
          LiveRouteWrapper).Adds m m₃ :=
        ⟨by simpa [hrecv] using hrext, hext, hsext⟩
      have hrem := (unregister_spec hadds.sound hadds.held).2
      exact ⟨rfl, rfl, Or.inr ⟨rfl, m₃, hadds, hrem, ht₃⟩,
        fun ht huuid => hrem.tight (ht₃ ht huuid)⟩
    · rw [heq]
      refine ⟨rfl, rfl, Or.inl ⟨rfl, ⟨hrext, hext, hsext⟩, rfl, rfl, ?_⟩, ht₃⟩
      simpa using hlen rfl

theorem registerFilters_succeeds (hok : ∀ i, (answers i).Succeeds) (tid : Tenant.Id) (m : Manager)
    (chain : List ℕ) (i : ℕ) (fs : List Route.PluginConfig) :
    (registerFilters answers tid m chain i fs).2.2 = none := by
  induction fs generalizing m chain i with
  | nil => rfl
  | cons f fs ih =>
      obtain ⟨id, hid⟩ := Registry.register_succeeds filterTexts m.filters f.plugin f.name
        (Route.stringify f.config) tid (hok i)
      have heq : m.registerFilter f.plugin f.name (Route.stringify f.config) tid (answers i) =
          ({ m with filters := _ }, .ok id) := Prod.ext rfl hid
      unfold registerFilters
      rw [heq]
      exact ih _ _ _

theorem registerSender_succeeds (m : Manager) (pc : Route.PluginConfig) (tid : Tenant.Id)
    {a : Answers} (h : a.Succeeds) :
    ∃ m' id, m.registerSender pc.plugin pc.name (Route.stringify pc.config) tid a = (m', .ok id) := by
  obtain ⟨id, hid⟩ := Registry.register_succeeds senderTexts m.senders pc.plugin pc.name
    (Route.stringify pc.config) tid h
  exact ⟨_, id, Prod.ext rfl hid⟩

theorem registerReceiver_succeeds (m : Manager) (pc : Route.PluginConfig) (tid : Tenant.Id)
    {a : Answers} (h : a.Succeeds) :
    ∃ m' id, m.registerReceiver pc.plugin pc.name (Route.stringify pc.config) tid a =
      (m', .ok id) := by
  obtain ⟨id, hid⟩ := Registry.register_succeeds receiverTexts m.receivers pc.plugin pc.name
    (Route.stringify pc.config) tid h
  exact ⟨_, id, Prod.ext rfl hid⟩

/-- `Register` succeeds when the plugin manager does. -/
theorem register_succeeds (lrw : LiveRouteWrapper) (m : Manager)
    (hok : ∀ i, (answers i).Succeeds) : (lrw.register m answers).2.2 = none := by
  have hfilters := registerFilters_succeeds hok lrw.config.tenantId m [] 0 lrw.config.filterChain
  unfold register
  dsimp only
  rcases hres : registerFilters answers lrw.config.tenantId m [] 0 lrw.config.filterChain with
    ⟨m₁, chain, err⟩
  rw [hres] at hfilters
  obtain rfl : err = none := hfilters
  dsimp only
  obtain ⟨m₂, sid, hsend⟩ := registerSender_succeeds m₁ lrw.config.sender lrw.config.tenantId
    (hok lrw.config.filterChain.length)
  rw [hsend]
  dsimp only
  obtain ⟨m₃, rid, hrecv⟩ := registerReceiver_succeeds m₂ lrw.config.receiver lrw.config.tenantId
    (hok (lrw.config.filterChain.length + 1))
  rw [hrecv]

end LiveRouteWrapper
