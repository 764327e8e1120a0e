/-
# Receiver wrappers (`internal/pkg/plugin/receiver.go`, `manager.go`)

What the manager does for receivers beyond counting them.  `receiversFn` holds, for the key
of each underlying receiver, the functions that the wrappers have given to `Receive`;
`next` hands every event of that receiver to each of them.  `StopReceiving` and
`UnregisterReceiver` take the function out again.

`Receive`, `StopReceiving` and `UnregisterReceiver` each take several locks one after the
other.  What they do under one lock is a function here; the calls put these together.
-/
import Ears.PluginManager

namespace Plugin

/-- The channel `done` of a wrapper: nil until the first `Receive` makes it, and closed by
`StopReceiving`. -/
inductive Done where
  | unset
  | made
  | closed
  deriving DecidableEq, Repr

/-- `NotRegisteredError`. -/
inductive NotRegisteredError where
  | notRegisteredError
  deriving DecidableEq, Repr

/-- The tables for receivers; `ν` is the type of the functions given to `Receive`.  `stops`
lists the underlying receivers whose `StopReceiving` the manager has called. -/
structure Receivers (ν : Type) where
  reg : Registry
  receiversFn : Finmap fun _ : String => Finmap fun _ : ℕ => ν
  done : ℕ → Done
  stops : List Instance

/-- The instance that a registration constructs, with its key: there is none yet under the
key, and nothing fails on the way. -/
def Registry.constructed (reg : Registry) (plugin name config : String) (tid : Tenant.Id)
    (a : Answers) : Option (String × Instance) :=
  match a.lookup, a.hash, a.build with
  | none, .ok hash, none =>
      match reg.instances.lookup (mapkey tid name hash) with
      | some _ => none
      | none => some (mapkey tid name hash, ⟨reg.next, plugin, name, config, tid⟩)
  | _, _, _ => none

/-- The part of the `Unregister` methods under the lock of the manager: one wrapper less, and
no instance without a wrapper. -/
def Registry.release (reg : Registry) (id : ℕ) : Registry :=
  let w := reg.objects id
  let n := (reg.count.lookup w.key).getD 0 - 1
  { reg with
    instances := if n ≤ 0 then reg.instances.erase w.key else reg.instances
    count := if n ≤ 0 then reg.count.erase w.key else reg.count.insert w.key n
    wrapped := reg.wrapped.erase id
    objects := Function.update reg.objects id { w with active := false } }

/-- The tables under the other keys stay. -/
theorem Registry.release_lookup_of_ne (reg : Registry) (id : ℕ) {key : String}
    (h : key ≠ (reg.objects id).key) :
    (reg.release id).instances.lookup key = reg.instances.lookup key ∧
      (reg.release id).count.lookup key = reg.count.lookup key := by
  unfold release
  dsimp only
  split
  · exact ⟨Finmap.lookup_erase_ne h, Finmap.lookup_erase_ne h⟩
  · exact ⟨rfl, Finmap.lookup_insert_of_ne _ h⟩

/-- The last wrapper takes the instance and its count with it. -/
theorem Registry.release_lookup_last (reg : Registry) (id : ℕ)
    (h : (reg.count.lookup (reg.objects id).key).getD 0 ≤ 1) :
    (reg.release id).instances.lookup (reg.objects id).key = none ∧
      (reg.release id).count.lookup (reg.objects id).key = none := by
  unfold release
  dsimp only
  rw [if_pos (by omega), if_pos (by omega)]
  exact ⟨Finmap.lookup_erase _ _, Finmap.lookup_erase _ _⟩

/-- Otherwise there is one wrapper less. -/
theorem Registry.release_lookup_more (reg : Registry) (id : ℕ)
    (h : 1 < (reg.count.lookup (reg.objects id).key).getD 0) :
    (reg.release id).instances.lookup (reg.objects id).key =
        reg.instances.lookup (reg.objects id).key ∧
      (reg.release id).count.lookup (reg.objects id).key =
        some ((reg.count.lookup (reg.objects id).key).getD 0 - 1) := by
  unfold release
  dsimp only
  rw [if_neg (by omega), if_neg (by omega)]
  exact ⟨rfl, Finmap.lookup_insert _⟩

/-- `r.active = false`. -/
def Registry.deactivate (reg : Registry) (id : ℕ) : Registry :=
  { reg with objects := Function.update reg.objects id { reg.objects id with active := false } }

namespace Receivers

variable {ν : Type}

/-- The tables of a new manager. -/
def empty : Receivers ν where
  reg := .empty
  receiversFn := ∅
  done := fun _ => .unset
  stops := []

/-- `RegisterReceiver`: a new instance starts with no functions. -/
def registerReceiver (s : Receivers ν) (plugin name config : String) (tid : Tenant.Id)
    (a : Answers) : Receivers ν × Except RegistrationError ℕ :=
  let r := s.reg.register receiverTexts plugin name config tid a
  ({ s with
      reg := r.1
      receiversFn :=
        match s.reg.constructed plugin name config tid a with
        | none => s.receiversFn
        | some (key, _) => s.receiversFn.insert key ∅ }, r.2)

/-! ## Sections -/

/-- The key under which the functions of a wrapper are. -/
def key (s : Receivers ν) (id : ℕ) : String := (s.reg.objects id).key

/-- `r.active`. -/
def active (s : Receivers ν) (id : ℕ) : Bool := (s.reg.objects id).active

/-- `r.done = make(chan struct{})`. -/
def makeDone (s : Receivers ν) (id : ℕ) : Receivers ν :=
  { s with done := Function.update s.done id .made }

/-- `m.receiversFn[key][r.id] = nextFn`.  Without a map under the key the write panics. -/
def addFn (s : Receivers ν) (id : ℕ) (nextFn : ν) : Receivers ν :=
  match s.receiversFn.lookup (s.key id) with
  | none => s
  | some fns => { s with receiversFn := s.receiversFn.insert (s.key id) (fns.insert id nextFn) }

/-- `delete(m.receiversFn[key], r.id)`. -/
def deleteFn (s : Receivers ν) (id : ℕ) : Receivers ν :=
  match s.receiversFn.lookup (s.key id) with
  | none => s
  | some fns => { s with receiversFn := s.receiversFn.insert (s.key id) (fns.erase id) }

/-- The last section of `stopReceiving`. -/
def closeDone (s : Receivers ν) (id : ℕ) : Receivers ν × Option NotRegisteredError :=
  if s.done id = .unset then (s, some .notRegisteredError)
  else if s.active id then
    ({ s with reg := s.reg.deactivate id, done := Function.update s.done id .closed }, none)
  else (s, none)

/-- The last section of `UnregisterReceiver`: without another wrapper the underlying receiver
is stopped. -/
def release (s : Receivers ν) (id : ℕ) : Receivers ν :=
  { s with
    reg := s.reg.release id
    stops :=
      if (s.reg.count.lookup (s.key id)).getD 0 - 1 ≤ 0 then s.stops ++ [(s.reg.objects id).inst]
      else s.stops }

/-- The wrappers whose functions `next` hands an event of the receiver under the key to. -/
def recipients (s : Receivers ν) (key : String) : Set ℕ :=
  { id | ∃ fns fn, s.receiversFn.lookup key = some fns ∧ fns.lookup id = some fn }

/-! ## Whole calls -/

/-- `Receive(next)`, up to the wait for the channel `done`. -/
def receive (s : Receivers ν) (id : ℕ) (next : ν) : Receivers ν × Option NotRegisteredError :=
  if s.active id then ((s.makeDone id).addFn id next, none) else (s, some .notRegisteredError)

/-- `StopReceiving()`. -/
def stopReceiving (s : Receivers ν) (id : ℕ) : Receivers ν × Option NotRegisteredError :=
  if s.active id then (s.deleteFn id).closeDone id else (s, some .notRegisteredError)

/-- `UnregisterReceiver(r)`; `none` is a receiver that is no wrapper of a manager.  An error of
`StopReceiving` is only logged. -/
def unregisterReceiver (s : Receivers ν) : Option ℕ → Receivers ν × Except RegistrationError Unit
  | none => (s, .error { message := "receiver not registered false" })
  | some id =>
      if s.active id then ((s.stopReceiving id).1.release id, .ok ())
      else (s, .error { message := "receiver not registered true" })

/-! ## What the sections leave alone -/

section Frame

variable (s : Receivers ν) (id : ℕ)

@[simp] theorem makeDone_reg : (s.makeDone id).reg = s.reg := rfl

@[simp] theorem makeDone_receiversFn : (s.makeDone id).receiversFn = s.receiversFn := rfl

@[simp] theorem addFn_reg (fn : ν) : (s.addFn id fn).reg = s.reg := by
  unfold addFn
  split <;> rfl

@[simp] theorem addFn_done (fn : ν) : (s.addFn id fn).done = s.done := by
  unfold addFn
  split <;> rfl

@[simp] theorem addFn_stops (fn : ν) : (s.addFn id fn).stops = s.stops := by
  unfold addFn
  split <;> rfl

@[simp] theorem deleteFn_reg : (s.deleteFn id).reg = s.reg := by
  unfold deleteFn
  split <;> rfl

@[simp] theorem deleteFn_done : (s.deleteFn id).done = s.done := by
  unfold deleteFn
  split <;> rfl

@[simp] theorem deleteFn_stops : (s.deleteFn id).stops = s.stops := by
  unfold deleteFn
  split <;> rfl

@[simp] theorem closeDone_receiversFn : (s.closeDone id).1.receiversFn = s.receiversFn := by
  unfold closeDone
  split
  · rfl
  · split <;> rfl

@[simp] theorem closeDone_stops : (s.closeDone id).1.stops = s.stops := by
  unfold closeDone
  split
  · rfl
  · split <;> rfl

end Frame

end Receivers

/-! ## Unregistering, seen from the registry -/

/-- The `Unregister` methods check the flag and release the wrapper. -/
theorem Registry.unregister_eq_release (texts : Texts) (reg : Registry) (id : ℕ) :
    reg.unregister texts id =
      if (reg.objects id).active then (reg.release id, .ok ())
      else (reg, .error { message := texts.unregistered }) := by
  unfold Registry.unregister Registry.release
  dsimp only
  cases (reg.objects id).active
  · rfl
  · rfl

/-- What `StopReceiving` does before it makes no difference. -/
theorem Registry.release_deactivate (reg : Registry) (id : ℕ) :
    (reg.deactivate id).release id = reg.release id := by
  have hobj : (reg.deactivate id).objects id = { reg.objects id with active := false } :=
    Function.update_self ..
  have hkey : ((reg.deactivate id).objects id).key = (reg.objects id).key := by
    rw [hobj]
    rfl
  unfold Registry.release
  dsimp only
  rw [hkey, hobj]
  unfold Registry.deactivate
  simp only [Function.update_idem]

/-- A registration changes no wrapper that was there before. -/
theorem Registry.register_frame (texts : Texts) (reg : Registry) (plugin name config : String)
    (tid : Tenant.Id) (a : Answers) :
    reg.next ≤ (reg.register texts plugin name config tid a).1.next ∧
      (∀ id, id < reg.next →
        (reg.register texts plugin name config tid a).1.objects id = reg.objects id) ∧
      ((∀ id, reg.next ≤ id → (reg.objects id).active = false) →
        ∀ id, (reg.register texts plugin name config tid a).1.next ≤ id →
          ((reg.register texts plugin name config tid a).1.objects id).active = false) := by
  have hadd : ∀ (r : Registry) (w : Wrapper), (∀ id, id < r.next →
      (r.addWrapper w).objects id = r.objects id) ∧
      ((∀ id, r.next ≤ id → (r.objects id).active = false) →
        ∀ id, r.next + 1 ≤ id → ((r.addWrapper w).objects id).active = false) := by
    intro r w
    constructor
    · intro id hid
      exact Function.update_of_ne hid.ne _ _
    · intro h id hid
      show (Function.update r.objects r.next w id).active = false
      rw [Function.update_of_ne (by omega)]
      exact h id (by omega)
  rcases register_cases texts reg plugin name config tid a with
    ⟨err, heq⟩ | ⟨err, key, inst, -, -, heq⟩ | ⟨w, -, -, heq⟩ | ⟨w, -, -, heq⟩
  · rw [heq]
    exact ⟨le_rfl, fun _ _ => rfl, fun h => h⟩
  · rw [heq]
    exact ⟨Nat.le_succ _, fun _ _ => rfl, fun h id hid => h id (Nat.le_of_succ_le hid)⟩
  · rw [heq]
    exact ⟨Nat.le_succ _, (hadd reg w).1, (hadd reg w).2⟩
  · rw [heq]
    refine ⟨Nat.le_add_right reg.next 2, ?_, ?_⟩
    · intro id hid
      exact (hadd (reg.addInstance w.key w.inst) w).1 id (Nat.lt_succ_of_lt hid)
    · intro h
      exact (hadd (reg.addInstance w.key w.inst) w).2 fun id hid => h id (Nat.le_of_succ_le hid)

namespace Receivers

variable {ν : Type} (s : Receivers ν) (id : ℕ)

theorem closeDone_reg : (s.closeDone id).1.reg = s.reg ∨
    (s.closeDone id).1.reg = s.reg.deactivate id := by
  unfold closeDone
  split
  · exact Or.inl rfl
  · split
    · exact Or.inr rfl
    · exact Or.inl rfl

theorem stopReceiving_reg : (s.stopReceiving id).1.reg = s.reg ∨
    (s.stopReceiving id).1.reg = s.reg.deactivate id := by
  unfold stopReceiving
  split
  · rcases closeDone_reg (s.deleteFn id) id with heq | heq
    · exact Or.inl (by rw [heq, deleteFn_reg])
    · exact Or.inr (by rw [heq, deleteFn_reg])
  · exact Or.inl rfl

/-- Seen from the registry, `UnregisterReceiver` is what it is for filters and senders. -/
theorem unregisterReceiver_reg :
    (s.unregisterReceiver (some id)).1.reg = (s.reg.unregister receiverTexts id).1 ∧
      (s.unregisterReceiver (some id)).2 = (s.reg.unregister receiverTexts id).2 := by
  rw [Registry.unregister_eq_release]
  cases hactive : (s.reg.objects id).active with
  | false => simp [unregisterReceiver, active, hactive, receiverTexts]
  | true =>
      simp only [unregisterReceiver, active, hactive, if_true, and_true]
      show (s.stopReceiving id).1.reg.release id = s.reg.release id
      rcases stopReceiving_reg s id with heq | heq
      · rw [heq]
      · rw [heq, Registry.release_deactivate]

/-! ## Who gets events -/

theorem mem_recipients {key : String} {j : ℕ} : j ∈ s.recipients key ↔
    ∃ fns, s.receiversFn.lookup key = some fns ∧ fns.lookup j ≠ none := by
  constructor
  · rintro ⟨fns, fn, hfns, hfn⟩
    exact ⟨fns, hfns, by rw [hfn]; simp⟩
  · rintro ⟨fns, hfns, hfn⟩
    obtain ⟨fn, hfn⟩ := Option.ne_none_iff_exists'.mp hfn
    exact ⟨fns, fn, hfns, hfn⟩

theorem recipients_congr {s' : Receivers ν} (h : s'.receiversFn = s.receiversFn) (key : String) :
    s'.recipients key = s.recipients key := by
  unfold recipients
  rw [h]

/-- `addFn` adds the wrapper to those of its key at most. -/
theorem mem_recipients_addFn {fn : ν} {key : String} {j : ℕ}
    (hj : j ∈ (s.addFn id fn).recipients key) : j ∈ s.recipients key ∨ j = id ∧ key = s.key id := by
  unfold addFn at hj
  split at hj
  · exact Or.inl hj
  · rename_i fns hfns
    rw [mem_recipients] at hj
    obtain ⟨fns', hfns', hfn⟩ := hj
    rw [Finmap.lookup_insert_eq] at hfns'
    split at hfns'
    · rename_i hkey
      rw [← Option.some.inj hfns', Finmap.lookup_insert_eq] at hfn
      split at hfn
      · rename_i hid
        exact Or.inr ⟨hid, hkey⟩
      · rw [hkey]
        exact Or.inl ((mem_recipients s).mpr ⟨fns, hfns, hfn⟩)
    · exact Or.inl ((mem_recipients s).mpr ⟨fns', hfns', hfn⟩)

/-- `deleteFn` takes the wrapper away from those of its key. -/
theorem mem_recipients_deleteFn {key : String} {j : ℕ} (hj : j ∈ (s.deleteFn id).recipients key) :
    j ∈ s.recipients key ∧ ¬ (j = id ∧ key = s.key id) := by
  unfold deleteFn at hj
  split at hj
  · rename_i hnone
    refine ⟨hj, ?_⟩
    rintro ⟨-, rfl⟩
    obtain ⟨fns, hfns, -⟩ := (mem_recipients s).mp hj
    rw [hnone] at hfns
    simp at hfns
  · rename_i fns hfns
    rw [mem_recipients] at hj
    obtain ⟨fns', hfns', hfn⟩ := hj
    rw [Finmap.lookup_insert_eq] at hfns'
    split at hfns'
    · rename_i hkey
      rw [← Option.some.inj hfns', Finmap.lookup_erase_eq] at hfn
      split at hfn
      · simp at hfn
      · rename_i hid
        rw [hkey]
        exact ⟨(mem_recipients s).mpr ⟨fns, hfns, hfn⟩, fun hand => hid hand.1⟩
    · rename_i hkey
      exact ⟨(mem_recipients s).mpr ⟨fns', hfns', hfn⟩, fun hand => hkey hand.2⟩

/-- A registration gives no wrapper any events. -/
theorem mem_recipients_register {plugin name config : String} {tid : Tenant.Id} {a : Answers}
    {key : String} {j : ℕ}
    (hj : j ∈ (s.registerReceiver plugin name config tid a).1.recipients key) :
    j ∈ s.recipients key := by
  rw [mem_recipients] at hj
  obtain ⟨fns, hfns, hfn⟩ := hj
  simp only [registerReceiver] at hfns
  split at hfns
  · exact (mem_recipients s).mpr ⟨fns, hfns, hfn⟩
  · rw [Finmap.lookup_insert_eq] at hfns
    split at hfns
    · rw [← Option.some.inj hfns] at hfn
      simp at hfn
    · exact (mem_recipients s).mpr ⟨fns, hfns, hfn⟩

end Receivers

end Plugin
