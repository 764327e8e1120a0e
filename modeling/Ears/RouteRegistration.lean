/-
# Registering a route is all or nothing

`LiveRouteWrapper.Register` takes the plugins of a route one after the other and, when one of
them fails, gives those it has back with `Unregister`.  The plugin manager may be in any state
that its methods lead to, also with receiver wrappers that were stopped and are kept in the
tables (`StopReceiving`), so nothing is said here about which wrappers are active.  What is needed is
little: every instance has a positive count (`Steady`), and the new wrappers are owed: each adds
one to the count of its key (`Owes`).  Giving back what is owed leaves the tables as they were.
-/
import Ears.LiveRoute
import Ears.PluginCalls

namespace Plugin

/-! ## The states of the plugin manager -/

/-- A call of one of the methods of the manager, or of `Receive` or `StopReceiving` of a receiver
wrapper. -/
inductive ManagerCall (ν : Type) where
  | call (c : Call)
  | receive (id : ℕ) (next : ν)
  | stopReceiving (id : ℕ)

/-- `uuid.NewRandom` has an id for the call. -/
def ManagerCall.HasId {ν : Type} : ManagerCall ν → Prop
  | .call c => c.HasId
  | _ => True

namespace PluginTables

variable {ν : Type}

/-- One call after the other. -/
def managerStep (s : PluginTables ν) : ManagerCall ν → Option (PluginTables ν)
  | .call c => some (s.call c).1
  | .receive id next => some { s with receivers := (s.receivers.receive id next).1 }
  | .stopReceiving id => some { s with receivers := (s.receivers.stopReceiving id).1 }

/-- The instances, the counts and the wrappers. -/
def manager (s : PluginTables ν) : Manager := ⟨s.receivers.reg, s.filters, s.senders⟩

end PluginTables

namespace Registry

variable {reg reg₀ : Registry} {id : ℕ} {ids : List ℕ} {key : String}

/-- An instance has a positive count, and there are no other counts; the ids of the wrappers were
handed out. -/
structure Steady (reg : Registry) : Prop where
  counted : ∀ key, (reg.instances.lookup key = none ∧ reg.count.lookup key = none) ∨
    ∃ inst n, reg.instances.lookup key = some inst ∧ reg.count.lookup key = some n ∧ 1 ≤ n
  lt_next : ∀ id ∈ reg.wrapped, id < reg.next

theorem steady_empty : empty.Steady where
  counted := fun _ => .inl ⟨rfl, rfl⟩
  lt_next := fun id hid => by simp [empty] at hid

theorem Steady.count_nonneg (h : reg.Steady) (key : String) :
    0 ≤ (reg.count.lookup key).getD 0 := by
  rcases h.counted key with ⟨-, hnone⟩ | ⟨-, n, -, hsome, hpos⟩
  · simp [hnone]
  · rw [hsome, Option.getD_some]
    omega

/-- A wrapper of the instance that is there. -/
theorem Steady.addWrapper (h : reg.Steady) {w : Wrapper} {inst : Instance}
    (hw : reg.instances.lookup w.key = some inst) : (reg.addWrapper w).Steady where
  counted := by
    intro k
    simp only [Registry.addWrapper]
    by_cases hk : k = w.key
    · subst hk
      rcases h.counted w.key with ⟨hnone, -⟩ | ⟨inst', n, hinst, hn, hpos⟩
      · rw [hnone] at hw
        cases hw
      · refine .inr ⟨inst', n + 1, hinst, ?_, by omega⟩
        rw [Finmap.lookup_insert, hn]
        rfl
    · rw [Finmap.lookup_insert_of_ne _ hk]
      exact h.counted k
  lt_next := by
    intro id hid
    rcases Finset.mem_insert.mp hid with rfl | hid
    · exact Nat.lt_succ_self _
    · exact Nat.lt_succ_of_lt (h.lt_next id hid)

/-- A new instance and its first wrapper. -/
theorem Steady.addFirst (h : reg.Steady) {w : Wrapper} :
    ((reg.addInstance w.key w.inst).addWrapper w).Steady where
  counted := by
    intro k
    simp only [Registry.addWrapper, Registry.addInstance]
    by_cases hk : k = w.key
    · subst hk
      exact .inr ⟨w.inst, 1, by rw [Finmap.lookup_insert], by simp, le_rfl⟩
    · rw [Finmap.lookup_insert_of_ne _ hk, Finmap.lookup_insert_of_ne _ hk,
        Finmap.lookup_insert_of_ne _ hk]
      exact h.counted k
  lt_next := by
    intro id hid
    simp only [Registry.addWrapper, Registry.addInstance] at hid ⊢
    rcases Finset.mem_insert.mp hid with rfl | hid
    · omega
    · have := h.lt_next id hid
      omega

theorem Steady.register (h : reg.Steady) (texts : Texts) (plugin name config : String)
    (tid : Tenant.Id) {a : Answers} (huuid : a.uuid = none) :
    (reg.register texts plugin name config tid a).1.Steady := by
  rcases register_cases texts reg plugin name config tid a with
    ⟨err, heq⟩ | ⟨err, key, inst, hsome, -, -⟩ | ⟨w, -, hw, heq⟩ | ⟨w, -, -, heq⟩
  · rwa [heq]
  · simp [huuid] at hsome
  · rw [heq]
    exact h.addWrapper hw
  · rw [heq]
    exact h.addFirst

theorem Steady.unregister (h : reg.Steady) (texts : Texts) (id : ℕ) :
    (reg.unregister texts id).1.Steady := by
  rw [unregister_eq_release]
  split
  · refine ⟨fun k => ?_, fun j hj => h.lt_next j (Finset.mem_of_mem_erase hj)⟩
    by_cases hk : k = (reg.objects id).key
    · subst hk
      rcases Int.lt_or_le 1 ((reg.count.lookup (reg.objects id).key).getD 0) with hmore | hlast
      · obtain ⟨hi, hc⟩ := reg.release_lookup_more id hmore
        rcases h.counted (reg.objects id).key with ⟨-, hnone⟩ | ⟨inst, n, hinst, -, -⟩
        · rw [hnone] at hmore
          simp at hmore
        · exact .inr ⟨inst, _, hi.trans hinst, hc, by omega⟩
      · exact .inl (reg.release_lookup_last id hlast)
    · obtain ⟨hi, hc⟩ := reg.release_lookup_of_ne id hk
      rw [hi, hc]
      exact h.counted k
  · exact h

theorem Steady.deactivate (h : reg.Steady) (id : ℕ) : (reg.deactivate id).Steady :=
  ⟨h.counted, h.lt_next⟩

theorem Steady.call (h : reg.Steady) {c : Call} (hid : c.HasId) : (reg.call c).1.Steady := by
  cases c with
  | register k plugin name config tid a => exact h.register k.texts plugin name config tid hid
  | unregister k wrapper =>
      cases wrapper with
      | none => exact h
      | some id => exact h.unregister k.texts id

end Registry

namespace PluginTables

variable {ν : Type} {s s' : PluginTables ν}

/-- Every call keeps the tables steady. -/
theorem steady_step {c : ManagerCall ν} (h : ∀ k, (s.registry k).Steady) (hid : c.HasId)
    (hs : s.managerStep c = some s') : ∀ k, (s'.registry k).Steady := by
  cases c with
  | call c =>
      obtain rfl := Option.some.inj hs
      intro k
      rw [registry_call]
      split
      · exact (h k).call hid
      · exact h k
  | receive id next =>
      obtain rfl := Option.some.inj hs
      intro k
      cases k with
      | receiver =>
          show (s.receivers.receive id next).1.reg.Steady
          unfold Receivers.receive
          split
          · rw [Receivers.addFn_reg, Receivers.makeDone_reg]
            exact h .receiver
          · exact h .receiver
      | filter => exact h .filter
      | sender => exact h .sender
  | stopReceiving id =>
      obtain rfl := Option.some.inj hs
      intro k
      cases k with
      | receiver =>
          show (s.receivers.stopReceiving id).1.reg.Steady
          rcases Receivers.stopReceiving_reg s.receivers id with heq | heq
          · rw [heq]
            exact h .receiver
          · rw [heq]
            exact (h .receiver).deactivate id
      | filter => exact h .filter
      | sender => exact h .sender

theorem steady_of_run {calls : List (ManagerCall ν)} (hids : ∀ c ∈ calls, c.HasId)
    (hrun : Runs.run managerStep new calls = some s) : ∀ k, (s.registry k).Steady := by
  apply Runs.run_induction_along (G := fun _ c => c.HasId)
    (fun s c s' h hid hs => steady_step h hid hs) _ (Runs.along_of_forall hids) hrun
  intro k
  cases k <;> exact Registry.steady_empty

end PluginTables

/-! ## Wrappers that are to be given back -/

namespace Registry

variable {reg reg₀ : Registry} {id : ℕ} {ids : List ℕ} {key : String}

/-- How many of the wrappers have the key. -/
def owed (reg : Registry) (ids : List ℕ) (key : String) : ℕ :=
  ids.countP fun id => decide ((reg.objects id).key = key)

/-- `reg` is `reg₀` with the new wrappers `ids`. -/
structure Owes (reg₀ reg : Registry) (ids : List ℕ) : Prop where
  nodup : ids.Nodup
  new : ∀ id ∈ ids, reg₀.next ≤ id ∧ id < reg.next
  active : ∀ id ∈ ids, (reg.objects id).active = true
  wrapped : reg.wrapped = reg₀.wrapped ∪ ids.toFinset
  objects : ∀ id, id < reg₀.next → reg.objects id = reg₀.objects id
  next : reg₀.next ≤ reg.next
  same : ∀ key, reg.owed ids key = 0 → reg.instances.lookup key = reg₀.instances.lookup key ∧
    reg.count.lookup key = reg₀.count.lookup key
  more : ∀ key, 0 < reg.owed ids key →
    (∃ inst, reg.instances.lookup key = some inst ∧
      ∀ i, reg₀.instances.lookup key = some i → i = inst) ∧
    reg.count.lookup key = some ((reg₀.count.lookup key).getD 0 + reg.owed ids key)

theorem Owes.refl (reg : Registry) : reg.Owes reg [] where
  nodup := List.nodup_nil
  new := by simp
  active := by simp
  wrapped := by simp
  objects := fun _ _ => rfl
  next := le_rfl
  same := fun _ _ => ⟨rfl, rfl⟩
  more := fun key h => by simp [owed] at h

/-- Nothing is owed: the tables are what they were. -/
theorem Owes.same_of_nil (h : reg₀.Owes reg []) (hs : reg₀.Steady) : reg₀.Same reg where
  instances := Finmap.ext_lookup fun key => (h.same key rfl).1
  count := Finmap.ext_lookup fun key => (h.same key rfl).2
  wrapped := by simpa using h.wrapped
  objects := fun id hid => h.objects id (hs.lt_next id hid)

theorem owed_congr {reg' : Registry} (h : ∀ id ∈ ids, (reg'.objects id).key = (reg.objects id).key)
    (key : String) : reg'.owed ids key = reg.owed ids key := by
  unfold owed
  apply List.countP_congr
  intro id hid
  rw [h id hid]

/-- The number of owed wrappers when one is added at the end. -/
theorem owed_concat (reg : Registry) (ids : List ℕ) (id : ℕ) (key : String) :
    reg.owed (ids ++ [id]) key = reg.owed ids key + if key = (reg.objects id).key then 1 else 0 := by
  unfold owed
  rw [List.countP_append, List.countP_singleton]
  congr 1
  simp [eq_comm]

/-- A new wrapper is owed. -/
theorem Owes.addWrapper (reg' : Registry) {w : Wrapper} (h : reg₀.Owes reg ids)
    (hactive : w.active = true) (hnext : reg.next ≤ reg'.next)
    (hwrapped : reg'.wrapped = reg.wrapped) (hobjects : reg'.objects = reg.objects)
    (hold : ∀ k, k ≠ w.key → reg'.instances.lookup k = reg.instances.lookup k ∧
      reg'.count.lookup k = reg.count.lookup k)
    (hinst : ∃ inst, reg'.instances.lookup w.key = some inst ∧
      ∀ i, reg₀.instances.lookup w.key = some i → i = inst)
    (hcount : (reg'.count.lookup w.key).getD 0 =
      (reg₀.count.lookup w.key).getD 0 + reg.owed ids w.key) :
    reg₀.Owes (reg'.addWrapper w) (ids ++ [reg'.next]) := by
  have hlt : ∀ id ∈ ids, id < reg'.next := fun id hid => (h.new id hid).2.trans_le hnext
  have hobj : ∀ id, id < reg'.next → (reg'.addWrapper w).objects id = reg.objects id := by
    intro id hid
    show Function.update reg'.objects reg'.next w id = _
    rw [Function.update_of_ne hid.ne, hobjects]
  have hself : (reg'.addWrapper w).objects reg'.next = w := Function.update_self ..
  have howed : ∀ k, (reg'.addWrapper w).owed (ids ++ [reg'.next]) k =
      reg.owed ids k + if k = w.key then 1 else 0 := by
    intro k
    rw [owed_concat, hself]
    congr 1
    exact owed_congr (fun id hid => by rw [hobj id (hlt id hid)]) k
  refine ⟨?_, ?_, ?_, ?_, ?_, ?_, ?_, ?_⟩
  · refine List.nodup_append.mpr ⟨h.nodup, List.nodup_singleton _, fun a ha b hb => ?_⟩
    rw [List.mem_singleton.mp hb]
    exact (hlt a ha).ne
  · intro id hid
    show _ ∧ id < reg'.next + 1
    rcases List.mem_append.mp hid with hid | hid
    · exact ⟨(h.new id hid).1, (hlt id hid).trans (Nat.lt_succ_self _)⟩
    · rw [List.mem_singleton.mp hid]
      exact ⟨h.next.trans hnext, Nat.lt_succ_self _⟩
  · intro id hid
    rcases List.mem_append.mp hid with hid | hid
    · rw [hobj id (hlt id hid)]
      exact h.active id hid
    · rw [List.mem_singleton.mp hid, hself]
      exact hactive
  · show insert reg'.next reg'.wrapped = _
    rw [hwrapped, h.wrapped, List.toFinset_append, ← Finset.union_assoc]
    simp [Finset.union_comm]
  · intro id hid
    rw [hobj id (hid.trans_le (h.next.trans hnext)), h.objects id hid]
  · exact (h.next.trans hnext).trans (Nat.le_succ _)
  · intro k hk
    rw [howed] at hk
    have hne : k ≠ w.key := fun heq => by simp [heq] at hk
    obtain ⟨hi, hc⟩ := hold k hne
    show reg'.instances.lookup k = _ ∧ (reg'.count.insert _ _).lookup k = _
    rw [Finmap.lookup_insert_of_ne _ hne, hi, hc]
    exact h.same k (by simpa [hne] using hk)
  · intro k hk
    rw [howed] at hk ⊢
    show (∃ inst, reg'.instances.lookup k = _ ∧ _) ∧ (reg'.count.insert _ _).lookup k = _
    by_cases hkey : k = w.key
    · subst hkey
      refine ⟨hinst, ?_⟩
      rw [Finmap.lookup_insert, hcount, if_pos rfl]
      push_cast
      ring_nf
    · obtain ⟨hi, hc⟩ := hold k hkey
      rw [Finmap.lookup_insert_of_ne _ hkey, hi, hc, if_neg hkey]
      exact h.more k (by simpa [hkey] using hk)

/-- A registration for which there is an id adds the wrapper it returns to what is owed, and
changes nothing when it fails. -/
theorem Owes.register (h : reg₀.Owes reg ids) (hs : reg₀.Steady) (texts : Texts)
    (plugin name config : String) (tid : Tenant.Id) {a : Answers} (huuid : a.uuid = none) :
    (∃ err, (reg.register texts plugin name config tid a).2 = .error err ∧
      reg₀.Owes (reg.register texts plugin name config tid a).1 ids) ∨
    (∃ id, (reg.register texts plugin name config tid a).2 = .ok id ∧
      reg₀.Owes (reg.register texts plugin name config tid a).1 (ids ++ [id])) := by
  rcases register_cases texts reg plugin name config tid a with
    ⟨err, heq⟩ | ⟨err, key, inst, hsome, -, -⟩ | ⟨w, hactive, hw, heq⟩ | ⟨w, hactive, hw, heq⟩
  · exact .inl ⟨err, by rw [heq], by rwa [heq]⟩
  · simp [huuid] at hsome
  · refine .inr ⟨reg.next, by rw [heq], ?_⟩
    rw [heq]
    apply Owes.addWrapper reg h hactive le_rfl rfl rfl (fun _ _ => ⟨rfl, rfl⟩)
    · rcases Nat.eq_zero_or_pos (reg.owed ids w.key) with hzero | hpos
      · refine ⟨w.inst, hw, fun i hi => ?_⟩
        rw [← (h.same w.key hzero).1, hw] at hi
        exact (Option.some.inj hi).symm
      · exact (h.more w.key hpos).1
    · rcases Nat.eq_zero_or_pos (reg.owed ids w.key) with hzero | hpos
      · rw [(h.same w.key hzero).2, hzero]
        simp
      · rw [(h.more w.key hpos).2]
        rfl
  · -- there is no instance, so nothing is owed under the key, and there was no instance before
    have hzero : reg.owed ids w.key = 0 := by
      by_contra hne
      obtain ⟨⟨inst, hinst, -⟩, -⟩ := h.more w.key (by omega)
      rw [hw] at hinst
      cases hinst
    have hbefore : reg₀.instances.lookup w.key = none := by rw [← (h.same w.key hzero).1, hw]
    have hcount : reg₀.count.lookup w.key = none := by
      rcases hs.counted w.key with ⟨-, hnone⟩ | ⟨inst, n, hinst, -⟩
      · exact hnone
      · rw [hbefore] at hinst
        cases hinst
    refine .inr ⟨reg.next + 1, by rw [heq], ?_⟩
    rw [heq]
    apply Owes.addWrapper (reg.addInstance w.key w.inst) h hactive (Nat.le_succ _) rfl rfl
    · intro k hk
      exact ⟨Finmap.lookup_insert_of_ne _ hk, Finmap.lookup_insert_of_ne _ hk⟩
    · exact ⟨w.inst, Finmap.lookup_insert _, fun i hi => by rw [hbefore] at hi; cases hi⟩
    · show ((reg.count.insert w.key 0).lookup w.key).getD 0 = _
      rw [Finmap.lookup_insert, hcount, hzero]
      rfl

/-- The number of owed wrappers when one of them is given back. -/
theorem owed_erase (hid : id ∈ ids) (key : String) : reg.owed ids key =
    reg.owed (ids.erase id) key + if key = (reg.objects id).key then 1 else 0 := by
  unfold owed
  rw [(List.perm_cons_erase hid).countP_eq, List.countP_cons]
  congr 1
  simp [eq_comm]

/-- Giving back a wrapper that is owed succeeds, and the others are owed still. -/
theorem Owes.unregister (h : reg₀.Owes reg ids) (hs : reg₀.Steady) (texts : Texts)
    (hid : id ∈ ids) : (reg.unregister texts id).2 = .ok () ∧
      reg₀.Owes (reg.unregister texts id).1 (ids.erase id) := by
  have hactive := h.active id hid
  rw [unregister_eq_release, if_pos hactive]
  refine ⟨rfl, ?_⟩
  show reg₀.Owes (reg.release id) (ids.erase id)
  have hmem : ∀ j ∈ ids.erase id, j ∈ ids ∧ j ≠ id := fun j hj =>
    ⟨List.mem_of_mem_erase hj, (h.nodup.mem_erase_iff.mp hj).1⟩
  have hobj : ∀ j, j ≠ id → (reg.release id).objects j = reg.objects j := fun j hj =>
    Function.update_of_ne hj _ _
  have howed : ∀ k, reg.owed ids k =
      (reg.release id).owed (ids.erase id) k + if k = (reg.objects id).key then 1 else 0 := by
    intro k
    rw [owed_erase hid k]
    congr 1
    exact (owed_congr (fun j hj => by rw [hobj j (hmem j hj).2]) k).symm
  have hself := howed (reg.objects id).key
  rw [if_pos rfl] at hself
  obtain ⟨⟨inst, hinst, hbefore⟩, hcount⟩ := h.more (reg.objects id).key (by omega)
  have hn : (reg.count.lookup (reg.objects id).key).getD 0 =
      (reg₀.count.lookup (reg.objects id).key).getD 0 +
        ((reg.release id).owed (ids.erase id) (reg.objects id).key : ℤ) + 1 := by
    rw [hcount, hself]
    simp only [Option.getD_some]
    push_cast
    ring
  refine ⟨h.nodup.erase id, fun j hj => h.new j (hmem j hj).1, ?_, ?_, ?_, h.next, ?_, ?_⟩
  · intro j hj
    rw [hobj j (hmem j hj).2]
    exact h.active j (hmem j hj).1
  · show reg.wrapped.erase id = _
    have hnew : id ∉ reg₀.wrapped := fun hw => by
      have hlt := hs.lt_next id hw
      have hle := (h.new id hid).1
      omega
    rw [h.wrapped]
    ext j
    simp only [Finset.mem_erase, Finset.mem_union, List.mem_toFinset, h.nodup.mem_erase_iff]
    constructor
    · rintro ⟨hne, hj | hj⟩
      · exact .inl hj
      · exact .inr ⟨hne, hj⟩
    · rintro (hj | ⟨hne, hj⟩)
      · exact ⟨fun heq => hnew (heq ▸ hj), .inl hj⟩
      · exact ⟨hne, .inr hj⟩
  · intro j hj
    have hne : j ≠ id := fun heq => by
      have hle := (h.new id hid).1
      omega
    rw [hobj j hne, h.objects j hj]
  · intro k hk
    by_cases hkey : k = (reg.objects id).key
    · -- the last owed wrapper of the key: the instance stays if it was there before
      subst hkey
      rw [hk] at hn
      rcases hs.counted (reg.objects id).key with ⟨hnone, hcnone⟩ | ⟨inst', n, hsome, hcsome, hpos⟩
      · rw [hcnone, hnone]
        exact reg.release_lookup_last id (by simp [hn, hcnone])
      · rw [hcsome] at hn ⊢
        simp only [Option.getD_some, Nat.cast_zero, add_zero] at hn
        obtain ⟨hi, hc⟩ := reg.release_lookup_more id (by omega)
        rw [hi, hc, hinst, hsome, hbefore inst' hsome, hn, add_sub_cancel_right]
        exact ⟨rfl, rfl⟩
    · have hzero : reg.owed ids k = 0 := by rw [howed, hk, if_neg hkey]
      obtain ⟨hi, hc⟩ := reg.release_lookup_of_ne id hkey
      rw [hi, hc]
      exact h.same k hzero
  · intro k hk
    by_cases hkey : k = (reg.objects id).key
    · -- one of several: the instance stays with one wrapper less
      subst hkey
      have hpos := hs.count_nonneg (reg.objects id).key
      obtain ⟨hi, hc⟩ := reg.release_lookup_more id (by omega)
      rw [hi, hc, hn, add_sub_cancel_right]
      exact ⟨⟨inst, hinst, hbefore⟩, rfl⟩
    · have hsame : reg.owed ids k = (reg.release id).owed (ids.erase id) k := by
        rw [howed, if_neg hkey, Nat.add_zero]
      obtain ⟨hi, hc⟩ := reg.release_lookup_of_ne id hkey
      rw [hi, hc, ← hsame]
      exact h.more k (by rw [hsame]; exact hk)

end Registry

end Plugin

/-! ## `Register` and `Unregister` of a route -/

open Plugin

namespace LiveRouteWrapper

variable {lrw : LiveRouteWrapper} {m m₀ : Manager} {answers : ℕ → Answers}

/-- The three registries are steady. -/
structure ManagerSteady (m : Manager) : Prop where
  receivers : m.receivers.Steady
  filters : m.filters.Steady
  senders : m.senders.Steady

/-- `m` is `m₀` with the plugins of the route, which are to be given back. -/
structure Owes (lrw : LiveRouteWrapper) (m₀ m : Manager) : Prop where
  receivers : m₀.receivers.Owes m.receivers lrw.receiver.toList
  filters : m₀.filters.Owes m.filters lrw.filterChain
  senders : m₀.senders.Owes m.senders lrw.sender.toList

/-- The loop of `Unregister` gives all filters back. -/
theorem unregisterFilters_owes {reg₀ : Registry} (hs : reg₀.Steady) (fs : List ℕ) (m : Manager)
    (e : Option RegistrationError) (h : reg₀.Owes m.filters fs) :
    (unregisterFilters m e fs).2 = e ∧ reg₀.Owes (unregisterFilters m e fs).1.filters [] ∧
      (unregisterFilters m e fs).1.receivers = m.receivers ∧
      (unregisterFilters m e fs).1.senders = m.senders := by
  induction fs generalizing m with
  | nil => exact ⟨rfl, h, rfl, rfl⟩
  | cons f fs ih =>
      obtain ⟨hok, howes⟩ := h.unregister hs filterTexts List.mem_cons_self
      rw [List.erase_cons_head] at howes
      have hstep := ih (m.unregisterFilter f).1 howes
      rw [unregisterFilters, show (m.unregisterFilter f).2 = .ok () from hok]
      exact hstep

/-- `Unregister` of a wrapper whose plugins are owed succeeds and leaves the tables as they were,
however much of the wrapper was filled. -/
theorem unregister_owes (hs : ManagerSteady m₀) (h : lrw.Owes m₀ m) :
    (lrw.unregister m).2 = none ∧ ManagerSame m₀ (lrw.unregister m).1 := by
  obtain ⟨hre, hrowes, hrf, hrs⟩ : (releaseReceiver m none lrw.receiver).2 = none ∧
      m₀.receivers.Owes (releaseReceiver m none lrw.receiver).1.receivers [] ∧
      (releaseReceiver m none lrw.receiver).1.filters = m.filters ∧
      (releaseReceiver m none lrw.receiver).1.senders = m.senders := by
    cases hr : lrw.receiver with
    | none =>
        refine ⟨rfl, ?_, rfl, rfl⟩
        show m₀.receivers.Owes m.receivers []
        simpa [hr] using h.receivers
    | some id =>
        have howes := h.receivers
        rw [hr, Option.toList_some] at howes
        obtain ⟨hok, howes⟩ := howes.unregister hs.receivers receiverTexts (List.mem_singleton_self id)
        rw [List.erase_cons_head] at howes
        rw [releaseReceiver, show (m.unregisterReceiver id).2 = .ok () from hok]
        exact ⟨rfl, howes, rfl, rfl⟩
  generalize hm₁ : (releaseReceiver m none lrw.receiver).1 = m₁ at hrowes hrf hrs
  obtain ⟨hse, hsowes, hsf, hsr⟩ : (releaseSender m₁ none lrw.sender).2 = none ∧
      m₀.senders.Owes (releaseSender m₁ none lrw.sender).1.senders [] ∧
      (releaseSender m₁ none lrw.sender).1.filters = m.filters ∧
      (releaseSender m₁ none lrw.sender).1.receivers = m₁.receivers := by
    cases hsend : lrw.sender with
    | none =>
        refine ⟨rfl, ?_, hrf, rfl⟩
        show m₀.senders.Owes m₁.senders []
        rw [hrs]
        simpa [hsend] using h.senders
    | some id =>
        have howes := h.senders
        rw [hsend, Option.toList_some, ← hrs] at howes
        obtain ⟨hok, howes⟩ := howes.unregister hs.senders senderTexts (List.mem_singleton_self id)
        rw [List.erase_cons_head] at howes
        rw [releaseSender, show (m₁.unregisterSender id).2 = .ok () from hok]
        exact ⟨rfl, howes, hrf, rfl⟩
  have hfowes := h.filters
  rw [← hsf] at hfowes
  obtain ⟨hfe, hfowes, hfr, hfs⟩ := unregisterFilters_owes hs.filters lrw.filterChain
    (releaseSender m₁ none lrw.sender).1 none hfowes
  have heq : lrw.unregister m =
      unregisterFilters (releaseSender m₁ none lrw.sender).1 none lrw.filterChain := by
    unfold unregister
    dsimp only
    rw [hre, hm₁, hse]
  rw [heq]
  refine ⟨hfe, ⟨?_, hfowes.same_of_nil hs.filters, ?_⟩⟩
  · rw [hfr, hsr]
    exact hrowes.same_of_nil hs.receivers
  · rw [hfs]
    exact hsowes.same_of_nil hs.senders

/-- The filters that the loop of `Register` has taken are owed. -/
theorem registerFilters_owes {reg₀ : Registry} (hs : reg₀.Steady)
    (huuid : ∀ i, (answers i).uuid = none) (tid : Tenant.Id) (m : Manager) (chain : List ℕ) (i : ℕ)
    (fs : List Route.PluginConfig) (h : reg₀.Owes m.filters chain) :
    reg₀.Owes (registerFilters answers tid m chain i fs).1.filters
        (registerFilters answers tid m chain i fs).2.1 ∧
      (registerFilters answers tid m chain i fs).1.receivers = m.receivers ∧
      (registerFilters answers tid m chain i fs).1.senders = m.senders := by
  induction fs generalizing m chain i with
  | nil => exact ⟨h, rfl, rfl⟩
  | cons f fs ih =>
      unfold registerFilters
      rcases h.register hs filterTexts f.plugin f.name (Route.stringify f.config) tid (huuid i) with
        ⟨err, herr, howes⟩ | ⟨id, hok, howes⟩
      · have heq : m.registerFilter f.plugin f.name (Route.stringify f.config) tid (answers i) =
            ({ m with filters := _ }, .error err) := Prod.ext rfl herr
        rw [heq]
        exact ⟨howes, rfl, rfl⟩
      · have heq : m.registerFilter f.plugin f.name (Route.stringify f.config) tid (answers i) =
            ({ m with filters := _ }, .ok id) := Prod.ext rfl hok
        rw [heq]
        exact ih { m with filters := _ } (chain ++ [id]) (i + 1) howes

/-- `Register` of a new wrapper succeeds and owes the plugins that the wrapper holds, or fails and
leaves the tables as they were. -/
theorem register_owes (hs : ManagerSteady m) (huuid : ∀ i, (answers i).uuid = none)
    (c : Route.Config) :
    (((newLiveRouteWrapper c).register m answers).2.2 = none ∧
      ((newLiveRouteWrapper c).register m answers).2.1.Owes m
        ((newLiveRouteWrapper c).register m answers).1) ∨
    (((newLiveRouteWrapper c).register m answers).2.2.isSome ∧
      ManagerSame m ((newLiveRouteWrapper c).register m answers).1) := by
  have hfilters := registerFilters_owes hs.filters huuid c.tenantId m [] 0 c.filterChain
    (Registry.Owes.refl m.filters)
  unfold register newLiveRouteWrapper
  dsimp only
  rcases hres : registerFilters answers c.tenantId m [] 0 c.filterChain with ⟨m₁, chain, err⟩
  rw [hres] at hfilters
  dsimp only at hfilters
  obtain ⟨hfowes, hfr, hfs⟩ := hfilters
  have hrowes : m.receivers.Owes m₁.receivers [] := hfr ▸ Registry.Owes.refl _
  have hsowes : m.senders.Owes m₁.senders [] := hfs ▸ Registry.Owes.refl _
  cases err with
  | some err =>
      -- a filter failed: those before it are given back
      exact .inr ⟨rfl, (unregister_owes hs ⟨hrowes, hfowes, hsowes⟩).2⟩
  | none =>
  dsimp only
  rcases hsowes.register hs.senders senderTexts c.sender.plugin c.sender.name
    (Route.stringify c.sender.config) c.tenantId (huuid c.filterChain.length) with
    ⟨err, herr, hsowes⟩ | ⟨sid, hok, hsowes⟩
  · have heq : m₁.registerSender c.sender.plugin c.sender.name (Route.stringify c.sender.config)
        c.tenantId (answers c.filterChain.length) = ({ m₁ with senders := _ }, .error err) :=
      Prod.ext rfl herr
    rw [heq]
    exact .inr ⟨rfl, (unregister_owes hs ⟨hrowes, hfowes, hsowes⟩).2⟩
  · have heq : m₁.registerSender c.sender.plugin c.sender.name (Route.stringify c.sender.config)
        c.tenantId (answers c.filterChain.length) = ({ m₁ with senders := _ }, .ok sid) :=
      Prod.ext rfl hok
    rw [heq]
    dsimp only
    generalize hm₂ : ({ m₁ with senders := _ } : Manager) = m₂
    have hrowes₂ : m.receivers.Owes m₂.receivers [] := by rw [← hm₂]; exact hrowes
    have hfowes₂ : m.filters.Owes m₂.filters chain := by rw [← hm₂]; exact hfowes
    have hsowes₂ : m.senders.Owes m₂.senders [sid] := by rw [← hm₂]; exact hsowes
    rcases hrowes₂.register hs.receivers receiverTexts c.receiver.plugin c.receiver.name
      (Route.stringify c.receiver.config) c.tenantId (huuid (c.filterChain.length + 1)) with
      ⟨err, herr, hrowes₃⟩ | ⟨rid, hok, hrowes₃⟩
    · have heq : m₂.registerReceiver c.receiver.plugin c.receiver.name
          (Route.stringify c.receiver.config) c.tenantId (answers (c.filterChain.length + 1)) =
          ({ m₂ with receivers := _ }, .error err) := Prod.ext rfl herr
      rw [heq]
      exact .inr ⟨rfl, (unregister_owes hs ⟨hrowes₃, hfowes₂, hsowes₂⟩).2⟩
    · have heq : m₂.registerReceiver c.receiver.plugin c.receiver.name
          (Route.stringify c.receiver.config) c.tenantId (answers (c.filterChain.length + 1)) =
          ({ m₂ with receivers := _ }, .ok rid) := Prod.ext rfl hok
      rw [heq]
      exact .inl ⟨rfl, hrowes₃, hfowes₂, hsowes₂⟩

/-- **All or nothing.**  In every state that the plugin manager can get to, whichever of the
plugins of a route fails, `Register` returns an error and leaves the counts, the instances and the
wrappers as they were; and after a `Register` that succeeds, `Unregister` succeeds and restores
them. -/
theorem register_allOrNothing {ν : Type} (calls : List (ManagerCall ν))
    (hids : ∀ c ∈ calls, c.HasId) (s : PluginTables ν)
    (hrun : Runs.run PluginTables.managerStep PluginTables.new calls = some s) (c : Route.Config)
    (answers : ℕ → Answers) (huuid : ∀ i, (answers i).uuid = none) :
    let r := (newLiveRouteWrapper c).register s.manager answers
    (∀ err, r.2.2 = some err → ManagerSame s.manager r.1) ∧
      (r.2.2 = none → (r.2.1.unregister r.1).2 = none ∧
        ManagerSame s.manager (r.2.1.unregister r.1).1) := by
  intro r
  have hsteady := PluginTables.steady_of_run hids hrun
  have hs : ManagerSteady s.manager := ⟨hsteady .receiver, hsteady .filter, hsteady .sender⟩
  rcases register_owes hs huuid c with ⟨hnone, howes⟩ | ⟨hsome, hsame⟩
  · exact ⟨fun err herr => absurd (hnone.symm.trans herr) (by simp),
      fun _ => unregister_owes hs howes⟩
  · refine ⟨fun _ _ => hsame, fun hnone => ?_⟩
    have hfalse : (none : Option RegistrationError).isSome := hnone ▸ hsome
    cases hfalse

/-- A receiver wrapper that has received and was stopped stays in the tables, and so do the filter
of another route and the sender. -/
def sampleManagerCalls : List (ManagerCall Unit) :=
  [.call (.register .receiver "http" "in" "c" ⟨"acme", "tv"⟩ { hash := .ok "h" }),
    .receive 1 (), .stopReceiving 1,
    .call (.register .filter "match" "ma" "c" ⟨"acme", "tv"⟩ { hash := .ok "h" }),
    .call (.register .sender "http" "out" "c" ⟨"acme", "tv"⟩ { hash := .ok "h" })]

/-- A route with the filter twice, whose receiver cannot be constructed. -/
def sampleConfig : Route.Config where
  id := "r1"
  tenantId := ⟨"acme", "tv"⟩
  userId := "u1"
  receiver := { plugin := "kafka", name := "other" }
  sender := { plugin := "http", name := "out" }
  filterChain := [{ plugin := "match", name := "ma" }, { plugin := "js", name := "js" },
    { plugin := "match", name := "ma" }]

/-- The answers to the registrations of the route. -/
def sampleAnswersAt (i : ℕ) : Answers :=
  { hash := .ok "h", build := if i = 4 then some "no broker" else none }

/-- The receiver fails after three filters and the sender have been registered. -/
theorem register_allOrNothing_sample : ∃ s : PluginTables Unit,
    Runs.run PluginTables.managerStep PluginTables.new sampleManagerCalls = some s ∧
      ((newLiveRouteWrapper sampleConfig).register s.manager sampleAnswersAt).2.2.isSome ∧
      ManagerSame s.manager
        ((newLiveRouteWrapper sampleConfig).register s.manager sampleAnswersAt).1 := by
  have hids : ∀ c ∈ sampleManagerCalls, c.HasId := by
    simp [sampleManagerCalls, ManagerCall.HasId, Call.HasId]
  have hfails : (Runs.run PluginTables.managerStep PluginTables.new sampleManagerCalls).any (fun s =>
      ((newLiveRouteWrapper sampleConfig).register s.manager sampleAnswersAt).2.2.isSome) := by
    decide +kernel
  obtain ⟨s, hs, hsome⟩ := (Option.any_eq_true _ _).mp hfails
  obtain ⟨err, herr⟩ := Option.isSome_iff_exists.mp hsome
  exact ⟨s, hs, hsome, (register_allOrNothing sampleManagerCalls hids s hs sampleConfig
    sampleAnswersAt (fun _ => rfl)).1 err herr⟩

end LiveRouteWrapper
