/-
# The plugin manager (`internal/pkg/plugin/manager.go`)

Receivers, filters and senders are shared: plugins of one tenant with the same label and
the same configuration hash are one instance, and each registration hands out a wrapper
of its own.  The manager keeps, for each of the three kinds, the instances by their key,
the number of wrappers for each key, and the wrappers by their id.  Registering makes an
instance if there is none and a wrapper; unregistering the last wrapper of a key removes
the instance.

The three kinds run the same code, with different error texts, so one `Registry` stands
for each of them.  What the plugins and the random generator answer during a registration
is an argument (`Answers`): looking up the plugin, hashing the configuration, building the
instance (a build that takes too long counts as failed) and making an id can each fail.
-/
import Ears.Fiber
import Ears.Tenant

namespace Plugin

/-- `RegistrationError`. -/
structure RegistrationError where
  message : String
  plugin : String := ""
  name : String := ""
  err : String := ""
  deriving DecidableEq, Repr

/-- A plugin instance and what it was built from; `serial` tells instances apart. -/
structure Instance where
  serial : ℕ
  plugin : String
  name : String
  config : String
  tid : Tenant.Id
  deriving DecidableEq, Repr

/-- A wrapper: the types `receiver`, `filter` and `sender` of the source. -/
structure Wrapper where
  tid : Tenant.Id
  name : String
  plugin : String
  hash : String
  inst : Instance
  active : Bool
  deriving DecidableEq, Repr

/-- The answers to one registration: an error of the lookup, the hash or its error, an
error of the construction, an error of `uuid.NewRandom`. -/
structure Answers where
  lookup : Option String := none
  hash : Except String String
  build : Option String := none
  uuid : Option String := none

/-- The error texts in which the three kinds differ. -/
structure Texts where
  hash : String
  create : String
  unregistered : String

/-- `mapkey`. -/
def mapkey (tid : Tenant.Id) (name hash : String) : String :=
  tid.orgId ++ "/" ++ tid.appId ++ "/" ++ name ++ "/" ++ hash

/-- The key of the instance behind a wrapper. -/
def Wrapper.key (w : Wrapper) : String := mapkey w.tid w.name w.hash

/-- The tables for one kind of plugin.  A wrapper is named by its id; `objects` holds the
fields of every wrapper ever made, and ids from `next` on are unused. -/
structure Registry where
  instances : Finmap fun _ : String => Instance
  count : Finmap fun _ : String => ℤ
  wrapped : Finset ℕ
  objects : ℕ → Wrapper
  next : ℕ

namespace Registry

/-- The tables of a new manager. -/
def empty : Registry where
  instances := ∅
  count := ∅
  wrapped := ∅
  objects := fun _ => ⟨⟨"", ""⟩, "", "", "", ⟨0, "", "", "", ⟨"", ""⟩⟩, false⟩
  next := 0

/-- Put a new instance under a key, with no wrapper yet. -/
def addInstance (reg : Registry) (key : String) (inst : Instance) : Registry :=
  { reg with
    instances := reg.instances.insert key inst
    count := reg.count.insert key 0
    next := reg.next + 1 }

/-- Hand out a new wrapper of the instance under its key. -/
def addWrapper (reg : Registry) (w : Wrapper) : Registry :=
  { reg with
    count := reg.count.insert w.key ((reg.count.lookup w.key).getD 0 + 1)
    wrapped := insert reg.next reg.wrapped
    objects := Function.update reg.objects reg.next w
    next := reg.next + 1 }

/-- `RegisterReceiver`, `RegisterFilter` and `RegisterSender`: the id of the new wrapper. -/
def register (texts : Texts) (reg : Registry) (plugin name config : String) (tid : Tenant.Id)
    (a : Answers) : Registry × Except RegistrationError ℕ :=
  match a.lookup with
  | some err => (reg, .error ⟨"could not get plugin", plugin, name, err⟩)
  | none =>
  match a.hash with
  | .error err => (reg, .error ⟨texts.hash, plugin, name, err⟩)
  | .ok hash =>
  let key := mapkey tid name hash
  let finish (reg : Registry) (inst : Instance) : Registry × Except RegistrationError ℕ :=
    match a.uuid with
    | some err => (reg, .error ⟨"could not generate unique id", plugin, name, err⟩)
    | none => (reg.addWrapper ⟨tid, name, plugin, hash, inst, true⟩, .ok reg.next)
  match reg.instances.lookup key with
  | some inst => finish reg inst
  | none =>
      match a.build with
      | some err => (reg, .error ⟨texts.create, plugin, name, err⟩)
      | none =>
          let inst : Instance := ⟨reg.next, plugin, name, config, tid⟩
          finish (reg.addInstance key inst) inst

/-- `UnregisterReceiver`, `UnregisterFilter` and `UnregisterSender`. -/
def unregister (texts : Texts) (reg : Registry) (id : ℕ) :
    Registry × Except RegistrationError Unit :=
  let w := reg.objects id
  if w.active = false then (reg, .error { message := texts.unregistered })
  else
    let n := (reg.count.lookup w.key).getD 0 - 1
    ({ reg with
        instances := if n ≤ 0 then reg.instances.erase w.key else reg.instances
        count := if n ≤ 0 then reg.count.erase w.key else reg.count.insert w.key n
        wrapped := reg.wrapped.erase id
        objects := Function.update reg.objects id { w with active := false } }, .ok ())

end Registry

/-- The texts of the receivers. -/
def receiverTexts : Texts :=
  ⟨"could not generate hash", "could not create new receiver", "receiver not registered true"⟩

/-- The texts of the filters. -/
def filterTexts : Texts :=
  ⟨"could not generate filterer hash", "could not create new filterer", "filter not registered true"⟩

/-- The texts of the senders. -/
def senderTexts : Texts :=
  ⟨"could not generate hash", "could not create sender", "sender not registered"⟩

/-- The plugin manager. -/
structure Manager where
  receivers : Registry
  filters : Registry
  senders : Registry

/-- `NewManager`. -/
def newManager : Manager := ⟨.empty, .empty, .empty⟩

namespace Manager

variable (m : Manager) (plugin name config : String) (tid : Tenant.Id) (a : Answers) (id : ℕ)

/-- `RegisterReceiver`. -/
def registerReceiver : Manager × Except RegistrationError ℕ :=
  let r := m.receivers.register receiverTexts plugin name config tid a
  ({ m with receivers := r.1 }, r.2)

/-- `RegisterFilter`. -/
def registerFilter : Manager × Except RegistrationError ℕ :=
  let r := m.filters.register filterTexts plugin name config tid a
  ({ m with filters := r.1 }, r.2)

/-- `RegisterSender`. -/
def registerSender : Manager × Except RegistrationError ℕ :=
  let r := m.senders.register senderTexts plugin name config tid a
  ({ m with senders := r.1 }, r.2)

/-- `UnregisterReceiver`. -/
def unregisterReceiver : Manager × Except RegistrationError Unit :=
  let r := m.receivers.unregister receiverTexts id
  ({ m with receivers := r.1 }, r.2)

/-- `UnregisterFilter`. -/
def unregisterFilter : Manager × Except RegistrationError Unit :=
  let r := m.filters.unregister filterTexts id
  ({ m with filters := r.1 }, r.2)

/-- `UnregisterSender`. -/
def unregisterSender : Manager × Except RegistrationError Unit :=
  let r := m.senders.unregister senderTexts id
  ({ m with senders := r.1 }, r.2)

end Manager

/-! ## What a registration can do -/

namespace Registry

variable {texts : Texts} {reg reg' : Registry} {id : ℕ} {ids : List ℕ} {key : String}

/-- A registration fails and changes nothing, fails after it has made an instance because
there is no id, hands out a wrapper of an instance that was there, or makes the instance
and the wrapper. -/
theorem register_cases (texts : Texts) (reg : Registry) (plugin name config : String)
    (tid : Tenant.Id) (a : Answers) :
    (∃ err, register texts reg plugin name config tid a = (reg, .error err)) ∨
    (∃ err key inst, a.uuid.isSome ∧ reg.instances.lookup key = none ∧
      register texts reg plugin name config tid a = (reg.addInstance key inst, .error err)) ∨
    (∃ w, w.active = true ∧ reg.instances.lookup w.key = some w.inst ∧
      register texts reg plugin name config tid a = (reg.addWrapper w, .ok reg.next)) ∨
    (∃ w, w.active = true ∧ reg.instances.lookup w.key = none ∧
      register texts reg plugin name config tid a =
        ((reg.addInstance w.key w.inst).addWrapper w, .ok (reg.next + 1))) := by
  unfold register
  cases a.lookup with
  | some err => exact Or.inl ⟨_, rfl⟩
  | none =>
  cases a.hash with
  | error err => exact Or.inl ⟨_, rfl⟩
  | ok hash =>
  dsimp only
  cases hinst : reg.instances.lookup (mapkey tid name hash) with
  | some inst =>
      cases a.uuid with
      | some err => exact Or.inl ⟨_, rfl⟩
      | none => exact Or.inr (Or.inr (Or.inl ⟨⟨tid, name, plugin, hash, inst, true⟩, rfl, hinst, rfl⟩))
  | none =>
      cases a.build with
      | some err => exact Or.inl ⟨_, rfl⟩
      | none =>
          cases a.uuid with
          | some err => exact Or.inr (Or.inl ⟨_, _, _, rfl, hinst, rfl⟩)
          | none =>
              exact Or.inr (Or.inr (Or.inr
                ⟨⟨tid, name, plugin, hash, ⟨reg.next, plugin, name, config, tid⟩, true⟩,
                  rfl, hinst, rfl⟩))

end Registry

/-- Nothing fails. -/
structure Answers.Succeeds (a : Answers) : Prop where
  lookup : a.lookup = none
  hash : ∃ hash, a.hash = .ok hash
  build : a.build = none
  uuid : a.uuid = none

namespace Registry

variable {texts : Texts} {reg reg' : Registry} {id : ℕ} {ids : List ℕ} {key : String}

/-- Where everything answers the registration succeeds. -/
theorem register_succeeds (texts : Texts) (reg : Registry) (plugin name config : String)
    (tid : Tenant.Id) {a : Answers} (h : a.Succeeds) :
    ∃ id, (register texts reg plugin name config tid a).2 = .ok id := by
  obtain ⟨hash, hhash⟩ := h.hash
  unfold register
  rw [h.lookup, hhash, h.build, h.uuid]
  dsimp only
  split
  · exact ⟨_, rfl⟩
  · exact ⟨_, rfl⟩

/-! ## The counts follow the wrappers -/

/-- The number of wrappers of a key. -/
def uses (reg : Registry) (key : String) : ℕ :=
  (reg.wrapped.filter fun id => (reg.objects id).key = key).card

/-- The three tables agree: the wrappers in the table are the active ones, each has an
instance, and the count of an instance is the number of its wrappers. -/
structure Sound (reg : Registry) : Prop where
  unused : ∀ id, reg.next ≤ id → (reg.objects id).active = false
  active : ∀ id, id ∈ reg.wrapped ↔ (reg.objects id).active = true
  count : ∀ key, reg.count.lookup key = (reg.instances.lookup key).map fun _ => (reg.uses key : ℤ)
  present : ∀ key, 0 < reg.uses key → (reg.instances.lookup key).isSome

/-- Every instance has a wrapper. -/
def Tight (reg : Registry) : Prop :=
  ∀ key, (reg.instances.lookup key).isSome → 0 < reg.uses key

/-- The empty registry is sound. -/
theorem Sound.empty : empty.Sound where
  unused := fun _ _ => rfl
  active := fun id => by simp [Registry.empty]
  count := fun _ => rfl
  present := fun key h => by
    have hzero : Registry.empty.uses key = 0 := rfl
    omega

theorem Tight.empty : empty.Tight := fun key h => by simp [Registry.empty] at h

/-- Wrappers in use were made. -/
theorem Sound.lt_next (h : reg.Sound) (hid : id ∈ reg.wrapped) : id < reg.next := by
  by_contra hle
  have hact := (h.active id).mp hid
  rw [h.unused id (by omega)] at hact
  exact Bool.false_ne_true hact

theorem Sound.next_not_mem (h : reg.Sound) : reg.next ∉ reg.wrapped :=
  fun hmem => lt_irrefl _ (h.lt_next hmem)

/-- The key of two wrappers is used twice. -/
theorem two_le_uses {j : ℕ} (hid : id ∈ reg.wrapped) (hj : j ∈ reg.wrapped) (hne : j ≠ id)
    (hkey : (reg.objects j).key = (reg.objects id).key) : 2 ≤ reg.uses (reg.objects id).key := by
  have hpair : {id, j} ⊆ reg.wrapped.filter fun i => (reg.objects i).key = (reg.objects id).key := by
    intro i hi
    rcases Finset.mem_insert.mp hi with rfl | hi
    · exact Finset.mem_filter.mpr ⟨hid, rfl⟩
    · rw [Finset.mem_singleton.mp hi]
      exact Finset.mem_filter.mpr ⟨hj, hkey⟩
  have hcard := Finset.card_le_card hpair
  rwa [Finset.card_pair hne.symm] at hcard

/-- A key that is used twice has another wrapper. -/
theorem exists_ne_of_two_le_uses (huses : 2 ≤ reg.uses (reg.objects id).key) :
    ∃ j ∈ reg.wrapped, j ≠ id ∧ (reg.objects j).key = (reg.objects id).key := by
  obtain ⟨j, hj, hne⟩ := Finset.exists_mem_ne huses id
  obtain ⟨hmem, hkey⟩ := Finset.mem_filter.mp hj
  exact ⟨j, hmem, hne, hkey⟩

/-- A wrapper that is added is one more use of its key. -/
theorem uses_addWrapper (h : reg.Sound) (w : Wrapper) (key : String) :
    (reg.addWrapper w).uses key = reg.uses key + if key = w.key then 1 else 0 := by
  have hobj : ∀ id ∈ reg.wrapped,
      (Function.update reg.objects reg.next w id).key = (reg.objects id).key := by
    intro id hid
    rw [Function.update_of_ne (h.lt_next hid).ne]
  have hfilter : (reg.wrapped.filter fun id =>
      (Function.update reg.objects reg.next w id).key = key) =
      reg.wrapped.filter fun id => (reg.objects id).key = key :=
    Finset.filter_congr fun id hid => by rw [hobj id hid]
  unfold uses
  show ((insert reg.next reg.wrapped).filter fun id =>
    (Function.update reg.objects reg.next w id).key = key).card = _
  rw [Finset.filter_insert, hfilter, Function.update_self]
  by_cases hkey : w.key = key
  · rw [if_pos hkey, if_pos hkey.symm,
      Finset.card_insert_of_notMem fun hm => h.next_not_mem (Finset.mem_of_mem_filter _ hm)]
  · rw [if_neg hkey, if_neg (Ne.symm hkey), add_zero]

/-- An instance may be added under a new key. -/
theorem Sound.addInstance (h : reg.Sound) (hkey : reg.instances.lookup key = none)
    (inst : Instance) : (reg.addInstance key inst).Sound where
  unused := fun id hid => h.unused id (by have : reg.next + 1 ≤ id := hid; omega)
  active := h.active
  count := by
    intro k
    show (reg.count.insert key 0).lookup k = ((reg.instances.insert key inst).lookup k).map _
    rw [Finmap.lookup_insert_eq, Finmap.lookup_insert_eq]
    split
    · rename_i hk
      subst hk
      have hzero : reg.uses k = 0 := by
        by_contra hne
        have := h.present k (by omega)
        rw [hkey] at this
        simp at this
      show some (0 : ℤ) = some (reg.uses k : ℤ)
      rw [hzero]
      rfl
    · exact h.count k
  present := by
    intro k hk
    show ((reg.instances.insert key inst).lookup k).isSome
    rw [Finmap.lookup_insert_eq]
    split
    · rfl
    · exact h.present k hk

/-- An active wrapper may be added where its instance is. -/
theorem Sound.addWrapper (h : reg.Sound) {w : Wrapper} (hactive : w.active = true)
    (hkey : (reg.instances.lookup w.key).isSome) : (reg.addWrapper w).Sound where
  unused := by
    intro id hid
    have hlt : reg.next + 1 ≤ id := hid
    show (Function.update reg.objects reg.next w id).active = false
    rw [Function.update_of_ne (by omega)]
    exact h.unused id (by omega)
  active := by
    intro id
    show id ∈ insert reg.next reg.wrapped ↔
      (Function.update reg.objects reg.next w id).active = true
    rw [Finset.mem_insert, h.active]
    rcases eq_or_ne id reg.next with rfl | hne
    · simp [hactive]
    · simp [hne]
  count := by
    intro k
    rw [uses_addWrapper h]
    show (reg.count.insert w.key ((reg.count.lookup w.key).getD 0 + 1)).lookup k = _
    rw [Finmap.lookup_insert_eq]
    split
    · rename_i hk
      subst hk
      obtain ⟨inst, hinst⟩ := Option.isSome_iff_exists.mp hkey
      show some _ = (reg.instances.lookup w.key).map _
      rw [h.count, hinst]
      simp
    · show reg.count.lookup k = (reg.instances.lookup k).map _
      rw [h.count k, add_zero]
  present := by
    intro k hk
    rw [uses_addWrapper h] at hk
    show (reg.instances.lookup k).isSome
    split at hk
    · rename_i heq
      rwa [heq]
    · exact h.present k hk

/-! ## What unregistering does -/

/-- Unregistering a wrapper that is registered succeeds. -/
theorem unregister_eq (texts : Texts) (h : reg.Sound) (hid : id ∈ reg.wrapped) :
    reg.unregister texts id =
      ({ reg with
          instances := if reg.uses (reg.objects id).key ≤ 1
            then reg.instances.erase (reg.objects id).key else reg.instances
          count := if reg.uses (reg.objects id).key ≤ 1
            then reg.count.erase (reg.objects id).key
            else reg.count.insert (reg.objects id).key (reg.uses (reg.objects id).key - 1)
          wrapped := reg.wrapped.erase id
          objects := Function.update reg.objects id { reg.objects id with active := false } },
        .ok ()) := by
  have huse : 0 < reg.uses (reg.objects id).key :=
    Finset.card_pos.mpr ⟨id, by simp [hid]⟩
  obtain ⟨inst, hinst⟩ := Option.isSome_iff_exists.mp (h.present _ huse)
  have hcount : (reg.count.lookup (reg.objects id).key).getD 0 = reg.uses (reg.objects id).key := by
    rw [h.count, hinst]
    rfl
  have hle : (reg.uses (reg.objects id).key : ℤ) - 1 ≤ 0 ↔ reg.uses (reg.objects id).key ≤ 1 := by
    omega
  unfold unregister
  dsimp only
  rw [if_neg (by simp [(h.active id).mp hid])]
  simp only [hcount, hle]

/-- A wrapper in use can be unregistered. -/
theorem unregister_ok (h : reg.Sound) (hid : id ∈ reg.wrapped) :
    (reg.unregister texts id).2 = .ok () := by
  rw [unregister_eq texts h hid]

/-- Unregistering takes the wrapper out of use. -/
theorem unregister_wrapped (h : reg.Sound) (hid : id ∈ reg.wrapped) :
    (reg.unregister texts id).1.wrapped = reg.wrapped.erase id := by
  rw [unregister_eq texts h hid]

theorem unregister_next (h : reg.Sound) (hid : id ∈ reg.wrapped) :
    (reg.unregister texts id).1.next = reg.next := by
  rw [unregister_eq texts h hid]

/-- Unregistering leaves the other wrappers. -/
theorem unregister_objects (h : reg.Sound) (hid : id ∈ reg.wrapped) {j : ℕ} (hj : j ≠ id) :
    (reg.unregister texts id).1.objects j = reg.objects j := by
  rw [unregister_eq texts h hid]
  exact Function.update_of_ne hj _ _

/-- Unregistering is one use less of the key. -/
theorem unregister_uses (texts : Texts) (h : reg.Sound) (hid : id ∈ reg.wrapped) (key : String) :
    (reg.unregister texts id).1.uses key + (if key = (reg.objects id).key then 1 else 0) =
      reg.uses key := by
  have hfilter : ((reg.wrapped.erase id).filter fun j =>
      ((reg.unregister texts id).1.objects j).key = key) =
      (reg.wrapped.filter fun j => (reg.objects j).key = key).erase id := by
    ext j
    simp only [Finset.mem_filter, Finset.mem_erase]
    constructor
    · rintro ⟨⟨hne, hmem⟩, hkey⟩
      rw [unregister_objects h hid hne] at hkey
      exact ⟨hne, hmem, hkey⟩
    · rintro ⟨hne, hmem, hkey⟩
      rw [unregister_objects h hid hne]
      exact ⟨⟨hne, hmem⟩, hkey⟩
  unfold uses
  rw [unregister_wrapped h hid, hfilter]
  split
  · rename_i hkey
    exact Finset.card_erase_add_one (by simp [hid, hkey])
  · rename_i hkey
    rw [Finset.erase_eq_of_notMem, add_zero]
    simp only [Finset.mem_filter, not_and]
    exact fun _ he => hkey he.symm

/-- The last use of a key takes its instance away. -/
theorem unregister_instances (h : reg.Sound) (hid : id ∈ reg.wrapped) (key : String) :
    (reg.unregister texts id).1.instances.lookup key =
      if key = (reg.objects id).key ∧ reg.uses key ≤ 1 then none
      else reg.instances.lookup key := by
  have heq := congrArg (fun r => r.1.instances.lookup key) (unregister_eq texts h hid)
  rw [heq]
  dsimp only
  rcases eq_or_ne key (reg.objects id).key with rfl | hkey
  · split
    · rw [Finmap.lookup_erase, if_pos ⟨rfl, by assumption⟩]
    · rw [if_neg (by simp_all)]
  · have hnot : ¬ (key = (reg.objects id).key ∧ reg.uses key ≤ 1) := fun hand => hkey hand.1
    rw [if_neg hnot]
    split
    · rw [Finmap.lookup_erase_ne hkey]
    · rfl

/-- The counter goes with the last use, and counts the others down. -/
theorem unregister_count (h : reg.Sound) (hid : id ∈ reg.wrapped) (key : String) :
    (reg.unregister texts id).1.count.lookup key =
      if key = (reg.objects id).key then
        if reg.uses key ≤ 1 then none else some (reg.uses key - 1 : ℤ)
      else reg.count.lookup key := by
  have heq := congrArg (fun r => r.1.count.lookup key) (unregister_eq texts h hid)
  rw [heq]
  dsimp only
  rcases eq_or_ne key (reg.objects id).key with rfl | hkey
  · rw [if_pos rfl]
    split
    · rw [Finmap.lookup_erase]
    · rw [Finmap.lookup_insert]
  · rw [if_neg hkey]
    split
    · rw [Finmap.lookup_erase_ne hkey]
    · rw [Finmap.lookup_insert_of_ne _ hkey]

/-- Unregistering keeps the registry sound. -/
theorem Sound.unregister (h : reg.Sound) (hid : id ∈ reg.wrapped) :
    (reg.unregister texts id).1.Sound where
  unused := by
    intro j hj
    rw [unregister_next h hid] at hj
    have hne : j ≠ id := by
      rintro rfl
      exact absurd (h.lt_next hid) (by omega)
    rw [unregister_objects h hid hne]
    exact h.unused j hj
  active := by
    intro j
    rw [unregister_wrapped h hid, Finset.mem_erase]
    rcases eq_or_ne j id with rfl | hne
    · rw [unregister_eq texts h hid]
      simp
    · rw [unregister_objects h hid hne, h.active]
      simp [hne]
  count := by
    intro k
    have huses := unregister_uses texts h hid k
    rw [unregister_instances h hid, unregister_count h hid]
    split
    · rename_i hk
      rw [if_pos hk] at huses
      split
      · rw [if_pos ⟨hk, by assumption⟩]
        rfl
      · -- there is another wrapper, so the instance stays
        rename_i hgt
        obtain ⟨inst, hinst⟩ := Option.isSome_iff_exists.mp (h.present k (by omega))
        rw [if_neg (by simp [hgt]), hinst, Option.map_some, Option.some.injEq]
        omega
    · rename_i hk
      rw [if_neg hk, add_zero] at huses
      rw [if_neg (by simp [hk]), huses, h.count]
  present := by
    intro k hk
    have huses := unregister_uses texts h hid k
    rw [unregister_instances h hid, if_neg]
    · exact h.present k (by omega)
    · rintro ⟨hkey, hle⟩
      rw [if_pos hkey] at huses
      omega

/-- Unregistering leaves no instance that is not used. -/
theorem Tight.unregister (ht : reg.Tight) (h : reg.Sound) (hid : id ∈ reg.wrapped) :
    (reg.unregister texts id).1.Tight := by
  intro k hk
  have huses := unregister_uses texts h hid k
  rw [unregister_instances h hid] at hk
  split at hk
  · simp at hk
  · rename_i hne
    have hpos := ht k hk
    split at huses
    · rename_i heq
      have hgt : ¬ reg.uses k ≤ 1 := fun hle => hne ⟨heq, hle⟩
      omega
    · omega

/-! ## Registering some wrappers and taking them back -/

/-- `reg'` is `reg` with the new wrappers `ids`; what `reg` had is still there. -/
structure Extends (reg reg' : Registry) (ids : List ℕ) : Prop where
  sound : reg'.Sound
  wrapped : reg'.wrapped = reg.wrapped ∪ ids.toFinset
  new : ∀ id ∈ ids, reg.next ≤ id
  nodup : ids.Nodup
  objects : ∀ id, id < reg.next → reg'.objects id = reg.objects id
  instances : ∀ key inst, reg.instances.lookup key = some inst →
    reg'.instances.lookup key = some inst
  next : reg.next ≤ reg'.next

theorem Extends.refl (h : reg.Sound) : reg.Extends reg [] where
  sound := h
  wrapped := by simp
  new := by simp
  nodup := List.nodup_nil
  objects := fun _ _ => rfl
  instances := fun _ _ h => h
  next := le_rfl

/-- A new instance is an extension. -/
theorem Extends.addInstance (h : reg.Extends reg' ids) (hkey : reg'.instances.lookup key = none)
    (inst : Instance) : reg.Extends (reg'.addInstance key inst) ids where
  sound := h.sound.addInstance hkey inst
  wrapped := h.wrapped
  new := h.new
  nodup := h.nodup
  objects := h.objects
  instances := by
    intro k v hk
    have hk' := h.instances k v hk
    show (reg'.instances.insert key inst).lookup k = some v
    rw [Finmap.lookup_insert_of_ne, hk']
    rintro rfl
    rw [hkey] at hk'
    simp at hk'
  next := le_trans h.next (Nat.le_succ _)

/-- A new wrapper extends the registry by its id. -/
theorem Extends.addWrapper (h : reg.Extends reg' ids) {w : Wrapper} (hactive : w.active = true)
    (hkey : (reg'.instances.lookup w.key).isSome) :
    reg.Extends (reg'.addWrapper w) (ids ++ [reg'.next]) where
  sound := h.sound.addWrapper hactive hkey
  wrapped := by
    show insert reg'.next reg'.wrapped = _
    rw [h.wrapped, List.toFinset_append, ← Finset.union_assoc]
    simp [Finset.union_comm]
  new := by
    intro id hid
    rcases List.mem_append.mp hid with hid | hid
    · exact h.new id hid
    · rw [List.mem_singleton.mp hid]
      exact h.next
  nodup := by
    refine List.nodup_append.mpr ⟨h.nodup, List.nodup_singleton _, ?_⟩
    intro a ha b hb
    rw [List.mem_singleton.mp hb]
    have hmem : a ∈ reg'.wrapped := by
      rw [h.wrapped]
      simp [ha]
    exact (h.sound.lt_next hmem).ne
  objects := by
    intro id hid
    show Function.update reg'.objects reg'.next w id = reg.objects id
    rw [Function.update_of_ne (hid.trans_le h.next).ne, h.objects id hid]
  instances := h.instances
  next := le_trans h.next (Nat.le_succ _)

/-- A registration adds the wrapper it returns, and nothing when it fails. -/
theorem Extends.register (h : reg.Extends reg' ids) (texts : Texts)
    (plugin name config : String) (tid : Tenant.Id) (a : Answers) :
    (∃ err, (reg'.register texts plugin name config tid a).2 = .error err ∧
      reg.Extends (reg'.register texts plugin name config tid a).1 ids) ∨
    (∃ id, (reg'.register texts plugin name config tid a).2 = .ok id ∧
      reg.Extends (reg'.register texts plugin name config tid a).1 (ids ++ [id])) := by
  rcases register_cases texts reg' plugin name config tid a with
    ⟨err, heq⟩ | ⟨err, key, inst, -, hkey, heq⟩ | ⟨w, hactive, hkey, heq⟩ | ⟨w, hactive, hkey, heq⟩
  · exact Or.inl ⟨err, by rw [heq], by rwa [heq]⟩
  · exact Or.inl ⟨err, by rw [heq], by rw [heq]; exact h.addInstance hkey inst⟩
  · refine Or.inr ⟨reg'.next, by rw [heq], ?_⟩
    rw [heq]
    exact h.addWrapper hactive (by rw [hkey]; rfl)
  · refine Or.inr ⟨reg'.next + 1, by rw [heq], ?_⟩
    rw [heq]
    refine (h.addInstance hkey w.inst).addWrapper hactive ?_
    show ((reg'.instances.insert w.key w.inst).lookup w.key).isSome
    rw [Finmap.lookup_insert]
    rfl

/-- Every instance still has a wrapper after a registration for which there was an id. -/
theorem Tight.register (ht : reg.Tight) (h : reg.Sound) (texts : Texts)
    (plugin name config : String) (tid : Tenant.Id) {a : Answers} (huuid : a.uuid = none) :
    (reg.register texts plugin name config tid a).1.Tight := by
  rcases register_cases texts reg plugin name config tid a with
    ⟨err, heq⟩ | ⟨err, key, inst, hsome, -, -⟩ | ⟨w, -, -, heq⟩ | ⟨w, hactive, hkey, heq⟩
  · rwa [heq]
  · rw [huuid] at hsome
    simp at hsome
  · rw [heq]
    intro k hk
    rw [uses_addWrapper h]
    exact Nat.lt_of_lt_of_le (ht k hk) (Nat.le_add_right _ _)
  · rw [heq]
    intro k hk
    rw [uses_addWrapper (h.addInstance hkey w.inst)]
    split
    · omega
    · rename_i hne
      have hk' : ((reg.instances.insert w.key w.inst).lookup k).isSome := hk
      rw [Finmap.lookup_insert_of_ne _ hne] at hk'
      exact ht k hk'

/-- `reg'` is `reg` without the wrappers `ids`, and with no instance that `reg` did not have. -/
structure Drops (reg reg' : Registry) (ids : List ℕ) : Prop where
  sound : reg'.Sound
  wrapped : reg'.wrapped = reg.wrapped \ ids.toFinset
  objects : ∀ id, id ∉ ids → reg'.objects id = reg.objects id
  instances : ∀ key inst, reg'.instances.lookup key = some inst →
    reg.instances.lookup key = some inst
  next : reg'.next = reg.next
  tight : reg.Tight → reg'.Tight

theorem Drops.refl (h : reg.Sound) : reg.Drops reg [] where
  sound := h
  wrapped := by simp
  objects := fun _ _ => rfl
  instances := fun _ _ h => h
  next := rfl
  tight := id

/-- Unregistering drops one more wrapper. -/
theorem Drops.unregister (h : reg.Drops reg' ids) (hid : id ∈ reg'.wrapped) (texts : Texts) :
    reg.Drops (reg'.unregister texts id).1 (ids ++ [id]) where
  sound := h.sound.unregister hid
  wrapped := by
    rw [unregister_wrapped h.sound hid, h.wrapped]
    ext j
    simp only [Finset.mem_erase, Finset.mem_sdiff, List.mem_toFinset, List.mem_append,
      List.mem_singleton]
    tauto
  objects := by
    intro j hj
    simp only [List.mem_append, List.mem_singleton, not_or] at hj
    rw [unregister_objects h.sound hid hj.2, h.objects j hj.1]
  instances := by
    intro k v hk
    rw [unregister_instances h.sound hid] at hk
    split at hk
    · simp at hk
    · exact h.instances k v hk
  next := by rw [unregister_next h.sound hid, h.next]
  tight := fun ht => (h.tight ht).unregister h.sound hid

/-- Two registries with the same instances, counts and wrappers. -/
structure Same (reg reg' : Registry) : Prop where
  instances : reg'.instances = reg.instances
  count : reg'.count = reg.count
  wrapped : reg'.wrapped = reg.wrapped
  objects : ∀ id ∈ reg.wrapped, reg'.objects id = reg.objects id

/-- When all new wrappers have been taken back, the wrappers are what they were. -/
theorem Extends.drops_wrapped {reg'' : Registry} (h : reg.Extends reg' ids)
    (hd : reg'.Drops reg'' ids) (hs : reg.Sound) : reg''.wrapped = reg.wrapped := by
  have hdisj : Disjoint reg.wrapped ids.toFinset := by
    rw [Finset.disjoint_left]
    intro id hid hmem
    have hlt := hs.lt_next hid
    have hle := h.new id (List.mem_toFinset.mp hmem)
    omega
  rw [hd.wrapped, h.wrapped, Finset.union_sdiff_cancel_right hdisj]

/-- What is added and dropped again leaves the wrappers that were there. -/
theorem Extends.drops_objects {reg'' : Registry} (h : reg.Extends reg' ids)
    (hd : reg'.Drops reg'' ids) : ∀ id, id < reg.next → reg''.objects id = reg.objects id := by
  intro id hid
  rw [hd.objects id fun hmem => absurd (h.new id hmem) (by omega), h.objects id hid]

/-- If moreover no instance is without wrappers, then all tables are what they were. -/
theorem Extends.drops_same {reg'' : Registry} (h : reg.Extends reg' ids)
    (hd : reg'.Drops reg'' ids) (hs : reg.Sound) (ht : reg.Tight) (ht' : reg'.Tight) :
    reg.Same reg'' := by
  have ht'' := hd.tight ht'
  have hwrapped := h.drops_wrapped hd hs
  have hobj : ∀ id ∈ reg.wrapped, reg''.objects id = reg.objects id :=
    fun id hid => h.drops_objects hd id (hs.lt_next hid)
  have huses : ∀ key, reg''.uses key = reg.uses key := by
    intro key
    unfold uses
    rw [hwrapped]
    congr 1
    exact Finset.filter_congr fun id hid => by rw [hobj id hid]
  have hinst : reg''.instances = reg.instances := by
    apply Finmap.ext_lookup
    intro key
    cases hkey : reg.instances.lookup key with
    | some inst =>
        have hpos := ht key (by rw [hkey]; rfl)
        obtain ⟨inst'', hinst''⟩ :=
          Option.isSome_iff_exists.mp (hd.sound.present key (by rwa [huses]))
        rw [hinst'', ← h.instances key inst hkey, hd.instances key inst'' hinst'']
    | none =>
        -- an instance would have a wrapper, and the wrappers are the old ones
        by_contra hne
        have hsome : (reg''.instances.lookup key).isSome := Option.isSome_iff_ne_none.mpr hne
        have hpos := hs.present key (by rw [← huses]; exact ht'' key hsome)
        rw [hkey] at hpos
        simp at hpos
  refine ⟨hinst, ?_, hwrapped, hobj⟩
  apply Finmap.ext_lookup
  intro key
  rw [hd.sound.count, hs.count, hinst, huses]

end Registry

end Plugin
