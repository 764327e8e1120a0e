/-
# `Receive` against `UnregisterReceiver`

A route runs `Receive` of its receiver wrapper in a goroutine of its own, so its sections
interleave with those of `UnregisterReceiver` and `StopReceiving`, on this wrapper and on
others that share the underlying receiver.  A call is modelled by the section it runs next
(`Phase`).

`Receive` looks at the flag `active` in its first section and puts the function into
`receiversFn` in its last one, and does not look again.  So the function of a wrapper that is
unregistered meanwhile stays in the table.  As long as every last section of `Receive` finds
its wrapper active, with no call about it past its delete section, no wrapper gets an event
once `UnregisterReceiver` has returned (`not_mem_recipients_of_gone`).
-/
import Ears.Receivers
import Ears.Runs

namespace Plugin

/-- The section that a call runs next.  The sections of `StopReceiving` are those of
`UnregisterReceiver` too (`unregister`). -/
inductive ReceiverPhase (ν : Type) where
  | checkReceive (id : ℕ) (next : ν)
  | makeDone (id : ℕ) (next : ν)
  | addFn (id : ℕ) (next : ν)
  | wait (id : ℕ)
  | checkUnregister (id : ℕ)
  | checkStop (id : ℕ) (unregister : Bool)
  | deleteFn (id : ℕ) (unregister : Bool)
  | closeDone (id : ℕ) (unregister : Bool)
  | release (id : ℕ)

/-- The tables, the calls on their way, and the wrappers for which `UnregisterReceiver` has
returned nil. -/
structure ReceiverPool (ν : Type) where
  tables : Receivers ν
  calls : ℕ → Option (ReceiverPhase ν)
  gone : Finset ℕ

/-- A whole `RegisterReceiver`, a new call in a free slot, or the next section of a call. -/
inductive ReceiverAction (ν : Type) where
  | registerReceiver (plugin name config : String) (tid : Tenant.Id) (a : Answers)
  | receive (n id : ℕ) (next : ν)
  | stopReceiving (n id : ℕ)
  | unregisterReceiver (n id : ℕ)
  | proceed (n : ℕ)

namespace ReceiverPool

variable {ν : Type}

/-- A new manager. -/
def start : ReceiverPool ν := ⟨.empty, fun _ => none, ∅⟩

/-- Change the phase of a call. -/
def setCall (s : ReceiverPool ν) (n : ℕ) (p : Option (ReceiverPhase ν)) : ReceiverPool ν :=
  { s with calls := Function.update s.calls n p }

/-- Change the tables. -/
def setTables (s : ReceiverPool ν) (t : Receivers ν) : ReceiverPool ν := { s with tables := t }

/-- What follows the sections of `StopReceiving`. -/
def afterStop (id : ℕ) (unregister : Bool) : Option (ReceiverPhase ν) :=
  if unregister then some (.release id) else none

/-- One section of the call in slot `n`.  A call waits for its channel to be closed. -/
def advance (s : ReceiverPool ν) (n : ℕ) : ReceiverPhase ν → Option (ReceiverPool ν)
  | .checkReceive id next =>
      some (s.setCall n (if s.tables.active id then some (.makeDone id next) else none))
  | .makeDone id next =>
      some ((s.setTables (s.tables.makeDone id)).setCall n (some (.addFn id next)))
  | .addFn id next => some ((s.setTables (s.tables.addFn id next)).setCall n (some (.wait id)))
  | .wait id => if s.tables.done id = .closed then some (s.setCall n none) else none
  | .checkUnregister id =>
      some (s.setCall n (if s.tables.active id then some (.checkStop id true) else none))
  | .checkStop id unregister =>
      some (s.setCall n (if s.tables.active id then some (.deleteFn id unregister)
        else afterStop id unregister))
  | .deleteFn id unregister =>
      some ((s.setTables (s.tables.deleteFn id)).setCall n (some (.closeDone id unregister)))
  | .closeDone id unregister =>
      some ((s.setTables (s.tables.closeDone id).1).setCall n (afterStop id unregister))
  | .release id =>
      some { (s.setTables (s.tables.release id)).setCall n none with gone := insert id s.gone }

/-- One step. -/
def step (s : ReceiverPool ν) : ReceiverAction ν → Option (ReceiverPool ν)
  | .registerReceiver plugin name config tid a =>
      some (s.setTables (s.tables.registerReceiver plugin name config tid a).1)
  | .receive n id next =>
      if s.calls n = none then some (s.setCall n (some (.checkReceive id next))) else none
  | .stopReceiving n id =>
      if s.calls n = none then some (s.setCall n (some (.checkStop id false))) else none
  | .unregisterReceiver n id =>
      if s.calls n = none then some (s.setCall n (some (.checkUnregister id))) else none
  | .proceed n =>
      match s.calls n with
      | none => none
      | some p => s.advance n p

/-- The call has taken the function of the wrapper away and will not do so again. -/
def Deleted : ReceiverPhase ν → ℕ → Prop
  | .closeDone i _, id => i = id
  | .release i, id => i = id
  | _, _ => False

/-- The last section of `Receive` finds its wrapper active, and no call about the wrapper is
past its delete section. -/
def Guarded (s : ReceiverPool ν) : ReceiverAction ν → Prop
  | .proceed n => ∀ id next, s.calls n = some (.addFn id next) →
      s.tables.active id = true ∧ ∀ m p, s.calls m = some p → ¬ Deleted p id
  | _ => True

/-! ## The invariant -/

/-- The call has seen its wrapper active. -/
def Checked : ReceiverPhase ν → ℕ → Prop
  | .makeDone i _, id => i = id
  | .addFn i _, id => i = id
  | .checkStop i unregister, id => i = id ∧ unregister = true
  | .deleteFn i _, id => i = id
  | .closeDone i _, id => i = id
  | .release i, id => i = id
  | _, _ => False

/-- Functions are under the key of their wrapper, only active wrappers have one, and none whose
function a call has just taken away; and a wrapper that is gone stays inactive. -/
structure Inv (s : ReceiverPool ν) : Prop where
  unused : ∀ id, s.tables.reg.next ≤ id → s.tables.active id = false
  checked : ∀ n p id, s.calls n = some p → Checked p id → id < s.tables.reg.next
  under : ∀ key, ∀ id ∈ s.tables.recipients key, s.tables.key id = key
  inactive : ∀ key, ∀ id ∈ s.tables.recipients key, s.tables.active id = true
  deleted : ∀ n p id, s.calls n = some p → Deleted p id → ∀ key, id ∉ s.tables.recipients key
  gone : ∀ id ∈ s.gone, id < s.tables.reg.next ∧ s.tables.active id = false

variable {s s' : ReceiverPool ν} {n id : ℕ}

theorem inv_start : Inv (start : ReceiverPool ν) where
  unused := fun _ _ => rfl
  checked := fun n p id h => by simp [start] at h
  under := fun key id h => by
    obtain ⟨fns, fn, hfns, -⟩ := h
    simp [start, Receivers.empty] at hfns
  inactive := fun key id h => by
    obtain ⟨fns, fn, hfns, -⟩ := h
    simp [start, Receivers.empty] at hfns
  deleted := fun n p id h => by simp [start] at h
  gone := fun id h => by simp [start] at h

theorem Inv.lt_next (h : Inv s) (hid : s.tables.active id = true) : id < s.tables.reg.next := by
  by_contra hle
  rw [h.unused id (by omega)] at hid
  exact Bool.false_ne_true hid

/-- The calls after one of them has changed. -/
theorem setCall_calls {m : ℕ} {p : Option (ReceiverPhase ν)} {q : ReceiverPhase ν}
    (hq : (s.setCall n p).calls m = some q) : (m = n ∧ p = some q) ∨ (m ≠ n ∧ s.calls m = some q) := by
  change Function.update s.calls n p m = some q at hq
  rcases eq_or_ne m n with rfl | hne
  · rw [Function.update_self] at hq
    exact Or.inl ⟨rfl, hq⟩
  · rw [Function.update_of_ne hne] at hq
    exact Or.inr ⟨hne, hq⟩

/-- A new phase of a call. -/
theorem Inv.setCall (h : Inv s) {p : Option (ReceiverPhase ν)}
    (hchecked : ∀ q, p = some q → ∀ id, Checked q id → id < s.tables.reg.next)
    (hdeleted : ∀ q, p = some q → ∀ id, Deleted q id → ∀ key, id ∉ s.tables.recipients key) :
    Inv (s.setCall n p) where
  unused := h.unused
  checked := by
    intro m q id hq hid
    rcases setCall_calls hq with ⟨-, hp⟩ | ⟨-, hq⟩
    · exact hchecked q hp id hid
    · exact h.checked m q id hq hid
  under := h.under
  inactive := h.inactive
  deleted := by
    intro m q id hq hid
    rcases setCall_calls hq with ⟨-, hp⟩ | ⟨-, hq⟩
    · exact hdeleted q hp id hid
    · exact h.deleted m q id hq hid
  gone := h.gone

/-- New tables in which no wrapper gets events that did not get them before, and no wrapper
that gets events is deactivated. -/
theorem Inv.setTables (h : Inv s) {t : Receivers ν} (hnext : s.tables.reg.next ≤ t.reg.next)
    (hkey : ∀ id, id < s.tables.reg.next → t.key id = s.tables.key id)
    (hunused : ∀ id, t.reg.next ≤ id → t.active id = false)
    (hrec : ∀ key, ∀ id ∈ t.recipients key, id ∈ s.tables.recipients key)
    (hactive : ∀ key, ∀ id ∈ t.recipients key, s.tables.active id = true → t.active id = true)
    (hold : ∀ id, id < s.tables.reg.next → s.tables.active id = false → t.active id = false) :
    Inv (s.setTables t) where
  unused := hunused
  checked := fun m q id hq hid => lt_of_lt_of_le (h.checked m q id hq hid) hnext
  under := by
    intro key id hid
    have hmem := hrec key id hid
    show t.key id = key
    rw [hkey id (h.lt_next (h.inactive key id hmem)), h.under key id hmem]
  inactive := fun key id hid => hactive key id hid (h.inactive key id (hrec key id hid))
  deleted := fun m q id hq hid key hmem => h.deleted m q id hq hid key (hrec key id hmem)
  gone := fun id hid =>
    ⟨lt_of_lt_of_le (h.gone id hid).1 hnext, hold id (h.gone id hid).1 (h.gone id hid).2⟩

/-- New tables with the same wrappers, in which no wrapper gets events that did not before. -/
theorem Inv.setTables_same (h : Inv s) {t : Receivers ν} (hreg : t.reg = s.tables.reg)
    (hrec : ∀ key, ∀ id ∈ t.recipients key, id ∈ s.tables.recipients key) :
    Inv (s.setTables t) := by
  have hactive : ∀ id, t.active id = s.tables.active id := fun id => by
    unfold Receivers.active
    rw [hreg]
  refine h.setTables (by rw [hreg]) (fun id _ => ?_) (fun id hid => ?_) hrec (fun key id _ ha => ?_)
    (fun id _ ha => ?_)
  · unfold Receivers.key
    rw [hreg]
  · rw [hactive]
    exact h.unused id (by rwa [hreg] at hid)
  · rw [hactive, ha]
  · rw [hactive, ha]

/-- New tables in which one wrapper that gets no events is deactivated. -/
theorem Inv.setTables_deactivate (h : Inv s) {t : Receivers ν} (hnext : t.reg.next = s.tables.reg.next)
    (hobjects : t.reg.objects = Function.update s.tables.reg.objects id
      { s.tables.reg.objects id with active := false })
    (hrec : t.receiversFn = s.tables.receiversFn) (hid : ∀ key, id ∉ s.tables.recipients key) :
    Inv (s.setTables t) := by
  have hactive : ∀ j, t.active j = if j = id then false else s.tables.active j := by
    intro j
    unfold Receivers.active
    rw [hobjects]
    rcases eq_or_ne j id with rfl | hne
    · rw [Function.update_self, if_pos rfl]
    · rw [Function.update_of_ne hne, if_neg hne]
  -- the recipients are as before, so none of them is the deactivated wrapper
  have hmem : ∀ key, ∀ j ∈ t.recipients key, j ∈ s.tables.recipients key := fun key j hj => by
    rwa [Receivers.recipients_congr s.tables hrec] at hj
  refine h.setTables hnext.ge (fun j _ => ?_) (fun j hj => ?_) hmem (fun key j hj ha => ?_)
    (fun j _ ha => ?_)
  · unfold Receivers.key
    rw [hobjects]
    rcases eq_or_ne j id with rfl | hne
    · rw [Function.update_self]
      rfl
    · rw [Function.update_of_ne hne]
  · rw [hactive]
    split
    · rfl
    · exact h.unused j (by rwa [hnext] at hj)
  · rw [hactive, if_neg, ha]
    rintro rfl
    exact hid key (hmem key j hj)
  · rw [hactive]
    split
    · rfl
    · exact ha

/-- The last section of `Receive`, for an active wrapper that no call is past deleting. -/
theorem Inv.addFn (h : Inv s) {next : ν} (hactive : s.tables.active id = true)
    (hcalls : ∀ m p, s.calls m = some p → ¬ Deleted p id) :
    Inv (s.setTables (s.tables.addFn id next)) where
  unused := fun j hj => by
    change (s.tables.addFn id next).reg.next ≤ j at hj
    rw [Receivers.addFn_reg] at hj
    have hsame := h.unused j hj
    rwa [Receivers.active, ← Receivers.addFn_reg s.tables id next] at hsame
  checked := fun m q j hq hj => by
    have hlt := h.checked m q j hq hj
    rwa [← Receivers.addFn_reg s.tables id next] at hlt
  under := fun key j hj => by
    show (s.tables.addFn id next).key j = key
    rw [Receivers.key, Receivers.addFn_reg]
    rcases Receivers.mem_recipients_addFn s.tables id hj with hj | ⟨rfl, rfl⟩
    · exact h.under key j hj
    · rfl
  inactive := fun key j hj => by
    show (s.tables.addFn id next).active j = true
    rw [Receivers.active, Receivers.addFn_reg]
    rcases Receivers.mem_recipients_addFn s.tables id hj with hj | ⟨rfl, rfl⟩
    · exact h.inactive key j hj
    · exact hactive
  deleted := fun m q j hq hj key hmem => by
    rcases Receivers.mem_recipients_addFn s.tables id hmem with hmem | ⟨rfl, -⟩
    · exact h.deleted m q j hq hj key hmem
    · exact hcalls m q hq hj
  gone := fun j hj => by
    have hgone := h.gone j hj
    rwa [Receivers.active, ← Receivers.addFn_reg s.tables id next] at hgone

/-- The section of `UnregisterReceiver` under the lock of the manager. -/
theorem Inv.release (h : Inv s) (hlt : id < s.tables.reg.next)
    (hid : ∀ key, id ∉ s.tables.recipients key) :
    Inv { s.setTables (s.tables.release id) with gone := insert id s.gone } := by
  have hdeact : Inv (s.setTables (s.tables.release id)) := h.setTables_deactivate rfl rfl rfl hid
  refine { hdeact with gone := ?_ }
  intro j hj
  rcases Finset.mem_insert.mp hj with rfl | hj
  · refine ⟨hlt, ?_⟩
    show (Function.update s.tables.reg.objects j
      { s.tables.reg.objects j with active := false } j).active = false
    rw [Function.update_self]
  · exact hdeact.gone j hj

/-- Going on after the sections of `StopReceiving`, once the wrapper gets no events. -/
theorem Inv.setCall_afterStop (h : Inv s) {unregister : Bool}
    (hlt : unregister = true → id < s.tables.reg.next)
    (hid : ∀ key, id ∉ s.tables.recipients key) : Inv (s.setCall n (afterStop id unregister)) := by
  cases unregister with
  | false =>
      exact h.setCall (fun q hq => by simp [afterStop] at hq) (fun q hq => by simp [afterStop] at hq)
  | true =>
      refine h.setCall ?_ ?_
      · rintro q hq j hj
        obtain rfl : .release id = q := by simpa [afterStop] using hq
        obtain rfl : id = j := hj
        exact hlt rfl
      · rintro q hq j hj
        obtain rfl : .release id = q := by simpa [afterStop] using hq
        obtain rfl : id = j := hj
        exact hid

/-- Going on after a look at the flag. -/
theorem Inv.setCall_ite (h : Inv s) {p : ReceiverPhase ν} (hp : ∀ j, Checked p j → j = id)
    (hdel : ∀ j, ¬ Deleted p j) :
    Inv (s.setCall n (if s.tables.active id then some p else none)) := by
  cases hactive : s.tables.active id with
  | false => exact h.setCall (fun q hq => by simp at hq) (fun q hq => by simp at hq)
  | true =>
      refine h.setCall ?_ ?_
      · rintro q hq j hj
        obtain rfl : p = q := by simpa using hq
        rw [hp j hj]
        exact h.lt_next hactive
      · rintro q hq j hj
        obtain rfl : p = q := by simpa using hq
        exact absurd hj (hdel j)

/-! ## One section -/

theorem inv_advance {p : ReceiverPhase ν} (h : Inv s) (hcall : s.calls n = some p)
    (hguard : Guarded s (.proceed n)) (hs : s.advance n p = some s') : Inv s' := by
  cases p with
  | checkReceive id next =>
      obtain rfl := Option.some.inj hs
      exact h.setCall_ite (fun j hj => Eq.symm hj) (fun j hj => hj)
  | makeDone id next =>
      obtain rfl := Option.some.inj hs
      have hlt := h.checked n _ id hcall rfl
      have hdone : Inv (s.setTables (s.tables.makeDone id)) := h.setTables_same rfl fun key j hj => hj
      refine hdone.setCall ?_ ?_
      · rintro q hq j hj
        obtain rfl := Option.some.inj hq
        obtain rfl : id = j := hj
        exact hlt
      · rintro q hq j hj
        obtain rfl := Option.some.inj hq
        exact hj.elim
  | addFn id next =>
      obtain rfl := Option.some.inj hs
      obtain ⟨hactive, hcalls⟩ := hguard id next hcall
      refine (h.addFn hactive hcalls).setCall ?_ ?_ <;>
      · rintro q hq j hj
        obtain rfl := Option.some.inj hq
        exact hj.elim
  | wait id =>
      rw [advance] at hs
      split at hs
      · obtain rfl := Option.some.inj hs
        exact h.setCall (fun q hq => by simp at hq) (fun q hq => by simp at hq)
      · simp at hs
  | checkUnregister id =>
      obtain rfl := Option.some.inj hs
      exact h.setCall_ite (fun j hj => hj.1.symm) (fun j hj => hj)
  | checkStop id unregister =>
      obtain rfl := Option.some.inj hs
      cases hactive : s.tables.active id with
      | true =>
          refine h.setCall ?_ ?_
          · rintro q hq j hj
            obtain rfl := Option.some.inj hq
            obtain rfl : id = j := hj
            exact h.lt_next hactive
          · rintro q hq j hj
            obtain rfl := Option.some.inj hq
            exact hj.elim
      | false =>
          -- `UnregisterReceiver` goes on although `StopReceiving` has returned an error
          refine h.setCall_afterStop (fun hun => h.checked n _ id hcall ⟨rfl, hun⟩) ?_
          intro key hmem
          rw [h.inactive key id hmem] at hactive
          exact Bool.false_ne_true hactive.symm
  | deleteFn id unregister =>
      obtain rfl := Option.some.inj hs
      have hlt := h.checked n _ id hcall rfl
      have hrec : ∀ key, id ∉ (s.tables.deleteFn id).recipients key := by
        intro key hmem
        obtain ⟨hmem, hnot⟩ := Receivers.mem_recipients_deleteFn s.tables id hmem
        exact hnot ⟨rfl, (h.under key id hmem).symm⟩
      refine (h.setTables_same (Receivers.deleteFn_reg ..) fun key j hj =>
        (Receivers.mem_recipients_deleteFn s.tables id hj).1).setCall ?_ ?_
      · rintro q hq j hj
        obtain rfl := Option.some.inj hq
        obtain rfl : id = j := hj
        show id < (s.tables.deleteFn id).reg.next
        rwa [Receivers.deleteFn_reg]
      · rintro q hq j hj
        obtain rfl := Option.some.inj hq
        obtain rfl : id = j := hj
        exact hrec
  | closeDone id unregister =>
      obtain rfl := Option.some.inj hs
      have hlt := h.checked n _ id hcall rfl
      have hid := h.deleted n _ id hcall rfl
      have hrec : ∀ key, id ∉ (s.tables.closeDone id).1.recipients key := fun key => by
        rw [Receivers.recipients_congr s.tables (Receivers.closeDone_receiversFn s.tables id)]
        exact hid key
      rcases Receivers.closeDone_reg s.tables id with hreg | hreg
      · refine (h.setTables_same hreg fun key j hj => ?_).setCall_afterStop (fun _ => ?_) hrec
        · rwa [Receivers.recipients_congr s.tables (Receivers.closeDone_receiversFn s.tables id)] at hj
        · show id < (s.tables.closeDone id).1.reg.next
          rwa [hreg]
      · refine (h.setTables_deactivate ?_ ?_ (Receivers.closeDone_receiversFn s.tables id)
          hid).setCall_afterStop (fun _ => ?_) hrec
        · rw [hreg]
          rfl
        · rw [hreg]
          rfl
        · show id < (s.tables.closeDone id).1.reg.next
          rwa [hreg]
  | release id =>
      obtain rfl := Option.some.inj hs
      have hrel := h.release (h.checked n _ id hcall rfl) (h.deleted n _ id hcall rfl)
      exact hrel.setCall (fun q hq => by simp at hq) (fun q hq => by simp at hq)

/-- A registration. -/
theorem Inv.registerReceiver (h : Inv s) (plugin name config : String) (tid : Tenant.Id)
    (a : Answers) :
    Inv (s.setTables (s.tables.registerReceiver plugin name config tid a).1) := by
  obtain ⟨hnext, hobjects, hunused⟩ :=
    Registry.register_frame receiverTexts s.tables.reg plugin name config tid a
  have hrec : ∀ key, ∀ j ∈ (s.tables.registerReceiver plugin name config tid a).1.recipients key,
      j ∈ s.tables.recipients key := fun key j hj => Receivers.mem_recipients_register s.tables hj
  refine h.setTables hnext (fun j hj => ?_) (hunused h.unused) hrec (fun key j hj ha => ?_)
    (fun j hj ha => ?_)
  · exact congrArg Wrapper.key (hobjects j hj)
  · rw [← ha]
    exact congrArg Wrapper.active (hobjects j (h.lt_next ha))
  · rw [← ha]
    exact congrArg Wrapper.active (hobjects j hj)

/-- One step that meets the guard. -/
theorem inv_step {a : ReceiverAction ν} (h : Inv s) (hguard : Guarded s a)
    (hs : s.step a = some s') : Inv s' := by
  cases a with
  | registerReceiver plugin name config tid a =>
      obtain rfl := Option.some.inj hs
      exact h.registerReceiver plugin name config tid a
  | receive n id next =>
      obtain ⟨-, rfl⟩ := by simpa [step] using hs
      refine h.setCall ?_ ?_ <;>
      · rintro q hq j hj
        obtain rfl := Option.some.inj hq
        exact hj.elim
  | stopReceiving n id =>
      obtain ⟨-, rfl⟩ := by simpa [step] using hs
      refine h.setCall ?_ ?_
      · rintro q hq j hj
        obtain rfl := Option.some.inj hq
        exact absurd hj.2 Bool.false_ne_true
      · rintro q hq j hj
        obtain rfl := Option.some.inj hq
        exact hj.elim
  | unregisterReceiver n id =>
      obtain ⟨-, rfl⟩ := by simpa [step] using hs
      refine h.setCall ?_ ?_ <;>
      · rintro q hq j hj
        obtain rfl := Option.some.inj hq
        exact hj.elim
  | proceed n =>
      rw [step] at hs
      cases hcall : s.calls n with
      | none => simp [hcall] at hs
      | some p =>
          rw [hcall] at hs
          exact inv_advance h hcall hguard hs

/-! ## Whole runs -/

/-- As long as every last section of `Receive` finds its wrapper active, and no call about it
past its delete section, a wrapper for which `UnregisterReceiver` has returned nil gets no
events, whatever else runs in between. -/
theorem not_mem_recipients_of_gone {as : List (ReceiverAction ν)}
    (hguard : Runs.Along step Guarded start as) (hrun : Runs.run step start as = some s) :
    ∀ id ∈ s.gone, ∀ key, id ∉ s.tables.recipients key := by
  have h : Inv s := Runs.run_induction_along (fun _ _ _ h hg hs => inv_step h hg hs)
    inv_start hguard hrun
  intro id hid key hmem
  have hactive := h.inactive key id hmem
  rw [(h.gone id hid).2] at hactive
  exact Bool.false_ne_true hactive

/-- A receiver is registered and receives, and is then unregistered. -/
def sampleActions : List (ReceiverAction Unit) :=
  [.registerReceiver "sqs" "r" "c" ⟨"acme", "tv"⟩ { hash := .ok "h" },
    .receive 0 1 (), .proceed 0, .proceed 0, .proceed 0,
    .unregisterReceiver 1 1, .proceed 1, .proceed 1, .proceed 1, .proceed 1, .proceed 1]

theorem guarded_sampleActions : Runs.Along step Guarded start sampleActions := by
  have hnot : ∀ (s : ReceiverPool Unit) n, (∀ id next, s.calls n ≠ some (.addFn id next)) →
      Guarded s (.proceed n) := fun s n h id next hcall => absurd hcall (h id next)
  refine .cons trivial rfl <| .cons trivial rfl <| .cons (hnot _ _ ?_) rfl <|
    .cons (hnot _ _ ?_) rfl <| .cons ?_ rfl <| .cons trivial rfl <| .cons (hnot _ _ ?_) rfl <|
    .cons (hnot _ _ ?_) rfl <| .cons (hnot _ _ ?_) rfl <| .cons (hnot _ _ ?_) rfl <|
    .cons (hnot _ _ ?_) rfl trivial
  case refine_3 =>
    intro id next hcall
    refine ⟨?_, fun m p hp => ?_⟩
    · obtain ⟨rfl, rfl⟩ := ReceiverPhase.addFn.inj (Option.some.inj hcall)
      decide +kernel
    · rcases setCall_calls hp with ⟨-, hp⟩ | ⟨hne, hp⟩
      · obtain rfl := Option.some.inj hp
        exact fun h => h
      · -- the other slots are free
        rcases setCall_calls hp with ⟨h0, -⟩ | ⟨-, hp⟩
        · exact absurd h0 hne
        · rcases setCall_calls hp with ⟨h0, -⟩ | ⟨-, hp⟩
          · exact absurd h0 hne
          · cases hp
  all_goals
    intro id next hcall
    cases Option.some.inj hcall

theorem not_mem_recipients_of_gone_sample : ∃ s : ReceiverPool Unit,
    Runs.run step start sampleActions = some s ∧ 1 ∈ s.gone ∧
      ∀ key, 1 ∉ s.tables.recipients key :=
  ⟨_, rfl, by decide +kernel,
    not_mem_recipients_of_gone guarded_sampleActions rfl 1 (by decide +kernel)⟩

/-- `Receive` has seen its wrapper active when the wrapper is unregistered, and goes on: the
function of the wrapper is in the table for good. -/
theorem receive_after_unregister : ∃ s : ReceiverPool Unit,
    Runs.run step start
        [.registerReceiver "sqs" "r" "c" ⟨"acme", "tv"⟩ { hash := .ok "h" },
          .receive 0 1 (), .proceed 0,
          .unregisterReceiver 1 1, .proceed 1, .proceed 1, .proceed 1, .proceed 1, .proceed 1,
          .proceed 0, .proceed 0] = some s ∧
      1 ∈ s.gone ∧ 1 ∈ s.tables.recipients "acme/tv/r/h" := by
  refine ⟨_, rfl, by decide +kernel, (Receivers.mem_recipients _).mpr ⟨_, rfl, ?_⟩⟩
  decide +kernel

end ReceiverPool

end Plugin
