/-
# Stopping what is released

When the last wrapper of a plugin instance is unregistered the instance has to be stopped,
once and not before.  This module follows the calls of the two kinds of plugins that can be
stopped, one after the other: `Register` and `Unregister` of both kinds, `Receive` and
`StopReceiving` of receivers, `StopSending` of senders.

For receivers, `StopReceiving` clears the flag `active` of a wrapper that has received, and
`UnregisterReceiver` then takes the wrapper for unregistered and keeps the reference.  For
senders, `UnregisterSender` drops the instance without stopping it, and `StopSending` of a
wrapper goes straight to the instance.  `released_iff` says that nothing else goes wrong.
-/
import Ears.PluginCalls

namespace Plugin

/-! ## Senders (`internal/pkg/plugin/sender.go`) -/

/-- Who calls `StopSending` of an underlying sender. -/
inductive Caller where
  | manager
  | wrapper (id : ℕ)
  deriving DecidableEq, Repr

/-- The tables for senders, and the calls of `StopSending` that underlying senders got. -/
structure Senders where
  reg : Registry
  stops : List (Caller × Instance)

namespace Senders

/-- The tables of a new manager. -/
def empty : Senders := ⟨.empty, []⟩

/-- `RegisterSender`. -/
def registerSender (s : Senders) (plugin name config : String) (tid : Tenant.Id) (a : Answers) :
    Senders × Except RegistrationError ℕ :=
  let r := s.reg.register senderTexts plugin name config tid a
  ({ s with reg := r.1 }, r.2)

/-- `StopSending` of a wrapper: no check, and no look at the other wrappers. -/
def stopSending (s : Senders) (id : ℕ) : Senders :=
  { s with stops := s.stops ++ [(.wrapper id, (s.reg.objects id).inst)] }

/-- `UnregisterSender`. -/
def unregisterSender (s : Senders) (id : ℕ) : Senders × Except RegistrationError Unit :=
  let r := s.reg.unregister senderTexts id
  ({ s with reg := r.1 }, r.2)

/-- The instances whose `StopSending` the manager has called. -/
def stopped (s : Senders) : List Instance :=
  s.stops.filterMap fun c => if c.1 = .manager then some c.2 else none

end Senders

/-! ## Calls -/

/-- The wrappers that `Register` has handed out, and those given to `Unregister` since. -/
structure Ledger where
  made : Finset ℕ := ∅
  gone : Finset ℕ := ∅

namespace Ledger

/-- After a `Register`. -/
def registered (l : Ledger) : Except RegistrationError ℕ → Ledger
  | .ok id => { l with made := insert id l.made }
  | .error _ => l

/-- After an `Unregister`. -/
def unregistered (l : Ledger) (id : ℕ) : Ledger := { l with gone := insert id l.gone }

/-- The wrapper is out and has not been given back. -/
def Held (l : Ledger) (id : ℕ) : Prop := id ∈ l.made ∧ id ∉ l.gone

end Ledger

/-- The tables of receivers and senders, with a ledger for each. -/
structure StopTables (ν : Type) where
  receivers : Receivers ν
  senders : Senders
  receiverLedger : Ledger
  senderLedger : Ledger

/-- The calls on receivers and senders. -/
inductive StopCall (ν : Type) where
  | registerReceiver (plugin name config : String) (tid : Tenant.Id) (a : Answers)
  | receive (id : ℕ) (next : ν)
  | stopReceiving (id : ℕ)
  | unregisterReceiver (id : ℕ)
  | registerSender (plugin name config : String) (tid : Tenant.Id) (a : Answers)
  | stopSending (id : ℕ)
  | unregisterSender (id : ℕ)

namespace StopTables

variable {ν : Type}

/-- A new manager. -/
def start : StopTables ν := ⟨.empty, .empty, {}, {}⟩

/-- One call.  The methods of a wrapper can only be called once it has been handed out. -/
def step (s : StopTables ν) : StopCall ν → Option (StopTables ν)
  | .registerReceiver plugin name config tid a =>
      let r := s.receivers.registerReceiver plugin name config tid a
      some { s with receivers := r.1, receiverLedger := s.receiverLedger.registered r.2 }
  | .receive id next =>
      if id ∈ s.receiverLedger.made then
        some { s with receivers := (s.receivers.receive id next).1 }
      else none
  | .stopReceiving id =>
      if id ∈ s.receiverLedger.made then
        some { s with receivers := (s.receivers.stopReceiving id).1 }
      else none
  | .unregisterReceiver id =>
      if id ∈ s.receiverLedger.made then
        some { s with
          receivers := (s.receivers.unregisterReceiver (some id)).1
          receiverLedger := s.receiverLedger.unregistered id }
      else none
  | .registerSender plugin name config tid a =>
      let r := s.senders.registerSender plugin name config tid a
      some { s with senders := r.1, senderLedger := s.senderLedger.registered r.2 }
  | .stopSending id =>
      if id ∈ s.senderLedger.made then some { s with senders := s.senders.stopSending id } else none
  | .unregisterSender id =>
      if id ∈ s.senderLedger.made then
        some { s with
          senders := (s.senders.unregisterSender id).1
          senderLedger := s.senderLedger.unregistered id }
      else none

end StopTables

/-! ## What is asked for -/

/-- Unregistering the wrapper succeeded and gave its reference back: `reg` before, `reg'`
after. -/
structure Registry.Released (reg reg' : Registry) (id : ℕ) (result : Except RegistrationError Unit) :
    Prop where
  ok : result = .ok ()
  wrapped : id ∉ reg'.wrapped
  count : (reg'.count.lookup (reg.objects id).key).getD 0 =
    (reg.count.lookup (reg.objects id).key).getD 0 - 1

/-- The instance of which all wrappers have been unregistered was stopped once, and an instance
to which a wrapper still refers was not. -/
structure Registry.StoppedOnce (reg : Registry) (l : Ledger) (stops : List Instance) : Prop where
  once : ∀ id ∈ l.made, (∀ j ∈ l.made, (reg.objects j).inst = (reg.objects id).inst → j ∈ l.gone) →
    stops.count (reg.objects id).inst = 1
  not_before : ∀ id, l.Held id → stops.count (reg.objects id).inst = 0

namespace StopTables

variable {ν : Type}

/-- Every wrapper that is out can be given back, and what has been given back is stopped. -/
structure Stopped (s : StopTables ν) : Prop where
  receiver : ∀ id, s.receiverLedger.Held id → s.receivers.reg.Released
    (s.receivers.unregisterReceiver (some id)).1.reg id (s.receivers.unregisterReceiver (some id)).2
  sender : ∀ id, s.senderLedger.Held id → s.senders.reg.Released
    (s.senders.unregisterSender id).1.reg id (s.senders.unregisterSender id).2
  receivers : s.receivers.reg.StoppedOnce s.receiverLedger s.receivers.stops
  senders : s.senders.reg.StoppedOnce s.senderLedger s.senders.stopped

/-- A receiver wrapper that is out is not stopped after `Receive`, and of a sender the last
wrapper is not given back. -/
def Spared (s : StopTables ν) : StopCall ν → Prop
  | .stopReceiving id => s.receiverLedger.Held id → s.receivers.done id = .unset
  | .unregisterSender id => s.senderLedger.Held id →
      ∃ j, s.senderLedger.Held j ∧ j ≠ id ∧
        (s.senders.reg.objects j).inst = (s.senders.reg.objects id).inst
  | _ => True

end StopTables

/-! ## One registry and its ledger -/

namespace Registry

variable {reg : Registry} {l : Ledger} {stops : List Instance} {id : ℕ}

/-- The wrappers that are out are the active ones and hold the instance under their key; the
instances of different keys are different; and an instance has been stopped once if it had
wrappers and has none left. -/
structure Ledgered (reg : Registry) (l : Ledger) (stops : List Instance) : Prop where
  sound : reg.Sound
  wrapped : ∀ id, id ∈ reg.wrapped ↔ l.Held id
  subset : l.gone ⊆ l.made
  lt_next : ∀ id ∈ l.made, id < reg.next
  holds : ∀ id ∈ reg.wrapped, reg.instances.lookup (reg.objects id).key = some (reg.objects id).inst
  serial : ∀ key inst, reg.instances.lookup key = some inst → inst.serial < reg.next
  key_unique : ∀ key key' inst, reg.instances.lookup key = some inst →
    reg.instances.lookup key' = some inst → key = key'
  nodup : stops.Nodup
  stop_serial : ∀ inst ∈ stops, inst.serial < reg.next
  stopped : ∀ inst ∈ stops, ∀ key, reg.instances.lookup key ≠ some inst
  released : ∀ id ∈ l.gone, (reg.objects id).inst ∈ stops ∨
    ∃ j ∈ reg.wrapped, (reg.objects j).inst = (reg.objects id).inst

theorem ledgered_empty : Ledgered empty {} [] where
  sound := Sound.empty
  wrapped := fun id => by simp [Registry.empty, Ledger.Held]
  subset := Finset.Subset.refl _
  lt_next := fun id hid => by simp at hid
  holds := fun id hid => by simp [Registry.empty] at hid
  serial := fun key inst h => by simp [Registry.empty] at h
  key_unique := fun key key' inst h => by simp [Registry.empty] at h
  nodup := List.nodup_nil
  stop_serial := fun inst h => by simp at h
  stopped := fun inst h => by simp at h
  released := fun id hid => by simp at hid

/-- An instance is stopped exactly once when its wrappers are gone, and not before. -/
theorem Ledgered.stoppedOnce (h : reg.Ledgered l stops) : reg.StoppedOnce l stops where
  once := by
    intro id hid hall
    refine List.count_eq_one_of_mem h.nodup ?_
    rcases h.released id (hall id hid rfl) with hmem | ⟨j, hj, heq⟩
    · exact hmem
    · obtain ⟨hmade, hnot⟩ := (h.wrapped j).mp hj
      exact absurd (hall j hmade heq) hnot
  not_before := by
    intro id hid
    refine List.count_eq_zero_of_not_mem fun hmem => ?_
    exact h.stopped _ hmem _ (h.holds id ((h.wrapped id).mpr hid))

theorem Ledgered.released_unregister (h : reg.Ledgered l stops) (texts : Texts) (hid : l.Held id) :
    reg.Released (reg.unregister texts id).1 id (reg.unregister texts id).2 := by
  have hmem := (h.wrapped id).mpr hid
  refine ⟨unregister_ok h.sound hmem, ?_, ?_⟩
  · rw [unregister_wrapped h.sound hmem]
    exact Finset.notMem_erase id reg.wrapped
  · have hinst := h.holds id hmem
    have huse : 0 < reg.uses (reg.objects id).key := Finset.card_pos.mpr ⟨id, by simp [hmem]⟩
    rw [unregister_count h.sound hmem, if_pos rfl, h.sound.count, hinst]
    simp only [Option.map_some, Option.getD_some]
    split
    · simp only [Option.getD_none]
      omega
    · rfl

/-- A new instance, with no wrapper yet. -/
theorem Ledgered.addInstance (h : reg.Ledgered l stops) {key : String} {inst : Instance}
    (hkey : reg.instances.lookup key = none) (hserial : inst.serial = reg.next) :
    (reg.addInstance key inst).Ledgered l stops := by
  -- the new instance differs from all others by its serial number
  have hnew : ∀ k, reg.instances.lookup k ≠ some inst := fun k hk => by
    have hlt := h.serial k inst hk
    omega
  have hlookup : ∀ k i, (reg.addInstance key inst).instances.lookup k = some i →
      (k = key ∧ i = inst) ∨ reg.instances.lookup k = some i := by
    intro k i hi
    change (reg.instances.insert key inst).lookup k = some i at hi
    rw [Finmap.lookup_insert_eq] at hi
    split at hi
    · rename_i hk
      exact Or.inl ⟨hk, (Option.some.inj hi).symm⟩
    · exact Or.inr hi
  refine ⟨h.sound.addInstance hkey inst, h.wrapped, h.subset, ?_, ?_, ?_, ?_, h.nodup, ?_, ?_,
    h.released⟩
  · intro id hid
    exact Nat.lt_succ_of_lt (h.lt_next id hid)
  · exact holds_addInstance h.holds hkey inst
  · intro k i hi
    show i.serial < reg.next + 1
    rcases hlookup k i hi with ⟨-, rfl⟩ | hi
    · omega
    · have hlt := h.serial k i hi
      omega
  · intro k k' i hi hi'
    rcases hlookup k i hi with ⟨hk, rfl⟩ | hold
    · rcases hlookup k' i hi' with ⟨hk', -⟩ | hold'
      · rw [hk, hk']
      · exact absurd hold' (hnew k')
    · rcases hlookup k' i hi' with ⟨-, rfl⟩ | hold'
      · exact absurd hold (hnew k)
      · exact h.key_unique k k' i hold hold'
  · intro i hi
    exact Nat.lt_succ_of_lt (h.stop_serial i hi)
  · intro i hi k hk
    rcases hlookup k i hk with ⟨-, rfl⟩ | hk
    · have hlt := h.stop_serial i hi
      omega
    · exact h.stopped i hi k hk

/-- A new wrapper of the instance under its key. -/
theorem Ledgered.addWrapper (h : reg.Ledgered l stops) {w : Wrapper} (hactive : w.active = true)
    (hw : reg.instances.lookup w.key = some w.inst) :
    (reg.addWrapper w).Ledgered (l.registered (.ok reg.next)) stops := by
  have hold : ∀ id ∈ l.made, (reg.addWrapper w).objects id = reg.objects id := fun id hid =>
    Function.update_of_ne (h.lt_next id hid).ne _ _
  have hheld : ∀ id, id ∈ reg.wrapped → id ∈ l.made := fun id hid => ((h.wrapped id).mp hid).1
  refine ⟨h.sound.addWrapper hactive (by rw [hw]; rfl), ?_, ?_, ?_, ?_, ?_, h.key_unique, h.nodup,
    ?_, h.stopped, ?_⟩
  · intro id
    show id ∈ insert reg.next reg.wrapped ↔ id ∈ insert reg.next l.made ∧ id ∉ l.gone
    rw [Finset.mem_insert, Finset.mem_insert, h.wrapped, Ledger.Held]
    constructor
    · rintro (rfl | ⟨hmade, hgone⟩)
      · exact ⟨Or.inl rfl, fun hgone => lt_irrefl _ (h.lt_next _ (h.subset hgone))⟩
      · exact ⟨Or.inr hmade, hgone⟩
    · rintro ⟨rfl | hmade, hgone⟩
      · exact Or.inl rfl
      · exact Or.inr ⟨hmade, hgone⟩
  · exact h.subset.trans (Finset.subset_insert _ _)
  · intro id hid
    rcases Finset.mem_insert.mp hid with rfl | hid
    · exact Nat.lt_succ_self _
    · exact Nat.lt_succ_of_lt (h.lt_next id hid)
  · exact holds_addWrapper h.sound h.holds hw
  · intro key inst hinst
    exact Nat.lt_succ_of_lt (h.serial key inst hinst)
  · intro inst hinst
    exact Nat.lt_succ_of_lt (h.stop_serial inst hinst)
  · intro id hid
    rw [hold id (h.subset hid)]
    rcases h.released id hid with hmem | ⟨j, hj, heq⟩
    · exact Or.inl hmem
    · exact Or.inr ⟨j, Finset.mem_insert_of_mem hj, by rw [hold j (hheld j hj), heq]⟩

/-- Only the instance that a registration makes is new, and it has the next serial number. -/
theorem register_serial (texts : Texts) (reg : Registry) (plugin name config : String)
    (tid : Tenant.Id) (a : Answers) {key : String} {inst : Instance}
    (hinst : (reg.register texts plugin name config tid a).1.instances.lookup key = some inst) :
    reg.instances.lookup key = some inst ∨ inst.serial = reg.next := by
  unfold register at hinst
  cases hlookup : a.lookup with
  | some err =>
      rw [hlookup] at hinst
      exact Or.inl hinst
  | none =>
  cases hhash : a.hash with
  | error err =>
      rw [hlookup, hhash] at hinst
      exact Or.inl hinst
  | ok hash =>
  rw [hlookup, hhash] at hinst
  dsimp only at hinst
  split at hinst
  · split at hinst <;> exact Or.inl hinst
  · split at hinst
    · exact Or.inl hinst
    · have hadded : (reg.instances.insert (mapkey tid name hash)
          ⟨reg.next, plugin, name, config, tid⟩).lookup key = some inst := by
        split at hinst <;> exact hinst
      rw [Finmap.lookup_insert_eq] at hadded
      split at hadded
      · exact Or.inr (by rw [← Option.some.inj hadded])
      · exact Or.inl hadded

theorem Ledgered.register (h : reg.Ledgered l stops) (texts : Texts) (plugin name config : String)
    (tid : Tenant.Id) (a : Answers) :
    (reg.register texts plugin name config tid a).1.Ledgered
      (l.registered (reg.register texts plugin name config tid a).2) stops := by
  have hserial : ∀ key inst,
      (reg.register texts plugin name config tid a).1.instances.lookup key = some inst →
        reg.instances.lookup key = some inst ∨ inst.serial = reg.next :=
    fun _ _ hinst => register_serial texts reg plugin name config tid a hinst
  rcases register_cases texts reg plugin name config tid a with
    ⟨err, heq⟩ | ⟨err, key, inst, -, hnone, heq⟩ | ⟨w, hactive, hw, heq⟩ | ⟨w, hactive, hnone, heq⟩
  · rw [heq]
    exact h
  · rw [heq] at hserial ⊢
    refine h.addInstance hnone ?_
    rcases hserial key inst (Finmap.lookup_insert _) with hold | hnew
    · rw [hnone] at hold
      simp at hold
    · exact hnew
  · rw [heq]
    exact h.addWrapper hactive hw
  · rw [heq] at hserial ⊢
    have hins : (reg.addInstance w.key w.inst).instances.lookup w.key = some w.inst :=
      Finmap.lookup_insert _
    refine (h.addInstance hnone ?_).addWrapper hactive hins
    rcases hserial w.key w.inst hins with hold | hnew
    · rw [hnone] at hold
      simp at hold
    · exact hnew

/-- The instance of a wrapper stays what it is. -/
theorem unregister_inst (texts : Texts) (reg : Registry) (id j : ℕ) :
    ((reg.unregister texts id).1.objects j).inst = (reg.objects j).inst := by
  rw [unregister_eq_release]
  split
  · show (Function.update reg.objects id { reg.objects id with active := false } j).inst = _
    rcases eq_or_ne j id with rfl | hne
    · rw [Function.update_self]
    · rw [Function.update_of_ne hne]
  · rfl

/-- Giving a wrapper back: its instance is stopped if that was the last one. -/
theorem Ledgered.unregister (h : reg.Ledgered l stops) (texts : Texts) (hid : l.Held id)
    {stops' : List Instance}
    (hlast : reg.uses (reg.objects id).key ≤ 1 → stops' = stops ++ [(reg.objects id).inst])
    (hmore : 2 ≤ reg.uses (reg.objects id).key → stops' = stops) :
    (reg.unregister texts id).1.Ledgered (l.unregistered id) stops' := by
  have hmem := (h.wrapped id).mpr hid
  have hsub : ∀ key inst, (reg.unregister texts id).1.instances.lookup key = some inst →
      reg.instances.lookup key = some inst ∧
        ¬ (key = (reg.objects id).key ∧ reg.uses key ≤ 1) := by
    intro key inst hlookup
    rw [unregister_instances h.sound hmem] at hlookup
    split at hlookup
    · simp at hlookup
    · rename_i hnot
      exact ⟨hlookup, hnot⟩
  have hnext : (reg.unregister texts id).1.next = reg.next := unregister_next h.sound hmem
  have hstop : ∀ inst ∈ stops', inst ∈ stops ∨
      inst = (reg.objects id).inst ∧ reg.uses (reg.objects id).key ≤ 1 := by
    intro inst hi
    rcases Nat.lt_or_ge 1 (reg.uses (reg.objects id).key) with hlt | hle
    · exact Or.inl (hmore hlt ▸ hi)
    · rw [hlast hle, List.mem_append, List.mem_singleton] at hi
      exact hi.imp_right fun heq => ⟨heq, hle⟩
  have hkept : ∀ inst ∈ stops, inst ∈ stops' := by
    intro inst hi
    rcases Nat.lt_or_ge 1 (reg.uses (reg.objects id).key) with hlt | hle
    · rwa [hmore hlt]
    · rw [hlast hle]
      exact List.mem_append_left _ hi
  refine ⟨h.sound.unregister hmem, ?_, ?_, ?_, holds_unregister h.sound h.holds texts hmem, ?_, ?_,
    ?_, ?_, ?_, ?_⟩
  · intro j
    show _ ↔ j ∈ l.made ∧ j ∉ insert id l.gone
    rw [unregister_wrapped h.sound hmem, Finset.mem_erase, h.wrapped, Ledger.Held,
      Finset.mem_insert, not_or]
    tauto
  · exact Finset.insert_subset hid.1 h.subset
  · rw [hnext]
    exact h.lt_next
  · intro key inst hlookup
    rw [hnext]
    exact h.serial key inst (hsub key inst hlookup).1
  · intro key key' inst hlookup hlookup'
    exact h.key_unique key key' inst (hsub key inst hlookup).1 (hsub key' inst hlookup').1
  · rcases Nat.lt_or_ge 1 (reg.uses (reg.objects id).key) with hlt | hle
    · rw [hmore hlt]
      exact h.nodup
    · rw [hlast hle, List.nodup_append]
      refine ⟨h.nodup, List.nodup_singleton _, ?_⟩
      rintro a ha b hb rfl
      rw [List.mem_singleton.mp hb] at ha
      exact h.stopped _ ha _ (h.holds id hmem)
  · intro inst hi
    rw [hnext]
    rcases hstop inst hi with hi | ⟨rfl, -⟩
    · exact h.stop_serial inst hi
    · exact h.serial _ _ (h.holds id hmem)
  · intro inst hi key hlookup
    obtain ⟨hlookup, hnot⟩ := hsub key inst hlookup
    rcases hstop inst hi with hi | ⟨rfl, hle⟩
    · exact h.stopped inst hi key hlookup
    · -- the instance was under the key of the wrapper only
      have hkey := h.key_unique _ _ _ hlookup (h.holds id hmem)
      exact hnot ⟨hkey, hkey ▸ hle⟩
  · intro j hj
    simp only [unregister_inst, unregister_wrapped h.sound hmem]
    have hid' : (reg.objects id).inst ∈ stops' ∨
        ∃ i ∈ reg.wrapped.erase id, (reg.objects i).inst = (reg.objects id).inst := by
      rcases Nat.lt_or_ge 1 (reg.uses (reg.objects id).key) with hlt | hle
      · obtain ⟨i, hi, hne, hkey⟩ := exists_ne_of_two_le_uses hlt
        refine Or.inr ⟨i, Finset.mem_erase.mpr ⟨hne, hi⟩, ?_⟩
        have hheld := h.holds i hi
        rw [hkey, h.holds id hmem] at hheld
        exact (Option.some.inj hheld).symm
      · rw [hlast hle]
        exact Or.inl (List.mem_append_right _ (List.mem_singleton_self _))
    rcases Finset.mem_insert.mp hj with rfl | hj
    · exact hid'
    · rcases h.released j hj with hmem' | ⟨i, hi, heq⟩
      · exact Or.inl (hkept _ hmem')
      · rcases eq_or_ne i id with rfl | hne
        · rwa [← heq]
        · exact Or.inr ⟨i, Finset.mem_erase.mpr ⟨hne, hi⟩, heq⟩

/-- A wrapper that has been given back is inactive, and nothing happens. -/
theorem Ledgered.unregister_gone (h : reg.Ledgered l stops) (texts : Texts) (hgone : id ∈ l.gone) :
    (reg.unregister texts id).1 = reg ∧ l.unregistered id = l := by
  have hinactive : (reg.objects id).active = false := by
    by_contra hne
    have hmem := (h.sound.active id).mpr (by simpa using hne)
    exact ((h.wrapped id).mp hmem).2 hgone
  refine ⟨?_, ?_⟩
  · rw [unregister_eq_release, hinactive]
    rfl
  · unfold Ledger.unregistered
    rw [Finset.insert_eq_of_mem hgone]

end Registry

/-! ## The calls on receivers -/

namespace Receivers

variable {ν : Type} (s : Receivers ν) (id : ℕ)

theorem receive_reg (next : ν) : (s.receive id next).1.reg = s.reg := by
  unfold receive
  split
  · rw [addFn_reg, makeDone_reg]
  · rfl

theorem receive_stops (next : ν) : (s.receive id next).1.stops = s.stops := by
  unfold receive
  split
  · rw [addFn_stops]
    rfl
  · rfl

theorem stopReceiving_stops : (s.stopReceiving id).1.stops = s.stops := by
  unfold stopReceiving
  split
  · rw [closeDone_stops, deleteFn_stops]
  · rfl

/-- A wrapper that has not received, or is not active, is not changed by `StopReceiving`. -/
theorem stopReceiving_reg_eq (h : s.active id = true → s.done id = .unset) :
    (s.stopReceiving id).1.reg = s.reg := by
  unfold stopReceiving
  split
  · rename_i hactive
    unfold closeDone
    rw [deleteFn_done, if_pos (h hactive), deleteFn_reg]
  · rfl

/-- A wrapper that has received is inactive after `StopReceiving`. -/
theorem stopReceiving_active (hactive : s.active id = true) (hdone : s.done id ≠ .unset) :
    (s.stopReceiving id).1.active id = false := by
  have hdel : (s.deleteFn id).active id = true := by
    unfold active
    rw [deleteFn_reg]
    exact hactive
  unfold stopReceiving closeDone
  rw [if_pos hactive, deleteFn_done, if_neg hdone, if_pos hdel]
  show (Function.update (s.deleteFn id).reg.objects id
    { (s.deleteFn id).reg.objects id with active := false } id).active = false
  rw [Function.update_self]

/-- `UnregisterReceiver` stops the underlying receiver if there is no other wrapper. -/
theorem unregisterReceiver_stops (hactive : s.active id = true) :
    (s.unregisterReceiver (some id)).1.stops =
      if (s.reg.count.lookup (s.key id)).getD 0 - 1 ≤ 0 then s.stops ++ [(s.reg.objects id).inst]
      else s.stops := by
  have hobj : (s.reg.deactivate id).objects id = { s.reg.objects id with active := false } :=
    Function.update_self ..
  unfold unregisterReceiver
  dsimp only
  rw [if_pos hactive]
  unfold release
  dsimp only
  rw [stopReceiving_stops]
  unfold key
  rcases stopReceiving_reg s id with hreg | hreg
  · rw [hreg]
  · rw [hreg, hobj]
    rfl

end Receivers

/-! ## Runs -/

namespace StopTables

variable {ν : Type} {s s' : StopTables ν}

/-- What holds in every state that a run of spared calls reaches: of both kinds the ledger is
right, and no sender has lost its last wrapper. -/
structure Inv (s : StopTables ν) : Prop where
  receivers : s.receivers.reg.Ledgered s.receiverLedger s.receivers.stops
  senders : s.senders.reg.Ledgered s.senderLedger []
  quiet : s.senders.stopped = []

theorem inv_start : Inv (start : StopTables ν) :=
  ⟨Registry.ledgered_empty, Registry.ledgered_empty, rfl⟩

theorem Inv.stopped (h : Inv s) : s.Stopped where
  receiver := by
    intro id hid
    have heq := Receivers.unregisterReceiver_reg s.receivers id
    rw [heq.1, heq.2]
    exact h.receivers.released_unregister receiverTexts hid
  sender := fun id hid => h.senders.released_unregister senderTexts hid
  receivers := h.receivers.stoppedOnce
  senders := by
    rw [h.quiet]
    exact h.senders.stoppedOnce

/-- The wrappers that are out are the active ones. -/
theorem Inv.active_iff (h : Inv s) (id : ℕ) :
    s.receivers.active id = true ↔ s.receiverLedger.Held id := by
  rw [← h.receivers.wrapped, h.receivers.sound.active]
  rfl

theorem Inv.unregisterReceiver (h : Inv s) {id : ℕ} (hmade : id ∈ s.receiverLedger.made) :
    (s.receivers.unregisterReceiver (some id)).1.reg.Ledgered (s.receiverLedger.unregistered id)
      (s.receivers.unregisterReceiver (some id)).1.stops := by
  rw [(Receivers.unregisterReceiver_reg s.receivers id).1]
  by_cases hgone : id ∈ s.receiverLedger.gone
  · obtain ⟨hreg, hledger⟩ := h.receivers.unregister_gone receiverTexts hgone
    have hinactive : s.receivers.active id = false := by
      by_contra hne
      exact ((h.active_iff id).mp (by simpa using hne)).2 hgone
    have hsame : (s.receivers.unregisterReceiver (some id)).1 = s.receivers := by
      simp [Receivers.unregisterReceiver, hinactive]
    rw [hreg, hledger, hsame]
    exact h.receivers
  · have hheld : s.receiverLedger.Held id := ⟨hmade, hgone⟩
    have hmem := (h.receivers.wrapped id).mpr hheld
    have hcount : (s.receivers.reg.count.lookup (s.receivers.key id)).getD 0 =
        s.receivers.reg.uses (s.receivers.key id) := by
      rw [h.receivers.sound.count, Receivers.key, h.receivers.holds id hmem]
      rfl
    have hstops := Receivers.unregisterReceiver_stops s.receivers id ((h.active_iff id).mpr hheld)
    rw [hcount] at hstops
    refine h.receivers.unregister receiverTexts hheld (fun hle => ?_) (fun hge => ?_)
    · rw [hstops, if_pos]
      have hle' : s.receivers.reg.uses (s.receivers.key id) ≤ 1 := hle
      omega
    · rw [hstops, if_neg]
      have hge' : 2 ≤ s.receivers.reg.uses (s.receivers.key id) := hge
      omega

theorem Inv.unregisterSender (h : Inv s) {id : ℕ} (hmade : id ∈ s.senderLedger.made)
    (hspared : s.Spared (.unregisterSender id)) :
    (s.senders.unregisterSender id).1.reg.Ledgered (s.senderLedger.unregistered id) [] := by
  show (s.senders.reg.unregister senderTexts id).1.Ledgered _ _
  by_cases hgone : id ∈ s.senderLedger.gone
  · obtain ⟨hreg, hledger⟩ := h.senders.unregister_gone senderTexts hgone
    rw [hreg, hledger]
    exact h.senders
  · have hheld : s.senderLedger.Held id := ⟨hmade, hgone⟩
    obtain ⟨j, hj, hne, hinst⟩ := hspared hheld
    have hmem := (h.senders.wrapped id).mpr hheld
    have hmem' := (h.senders.wrapped j).mpr hj
    have hkey := h.senders.key_unique _ _ _ (hinst ▸ h.senders.holds j hmem')
      (h.senders.holds id hmem)
    have htwo := Registry.two_le_uses hmem hmem' hne hkey
    exact h.senders.unregister senderTexts hheld (fun hle => by omega) (fun _ => rfl)

/-- A spared call. -/
theorem inv_step {c : StopCall ν} (h : Inv s) (hspared : s.Spared c) (hs : s.step c = some s') :
    Inv s' := by
  cases c with
  | registerReceiver plugin name config tid a =>
      obtain rfl := Option.some.inj hs
      exact ⟨h.receivers.register receiverTexts plugin name config tid a, h.senders, h.quiet⟩
  | receive id next =>
      obtain ⟨-, rfl⟩ := by simpa [step] using hs
      refine ⟨?_, h.senders, h.quiet⟩
      dsimp only
      rw [Receivers.receive_reg, Receivers.receive_stops]
      exact h.receivers
  | stopReceiving id =>
      obtain ⟨-, rfl⟩ := by simpa [step] using hs
      refine ⟨?_, h.senders, h.quiet⟩
      dsimp only
      rw [Receivers.stopReceiving_reg_eq, Receivers.stopReceiving_stops]
      · exact h.receivers
      · intro hactive
        exact hspared ((h.active_iff id).mp hactive)
  | unregisterReceiver id =>
      obtain ⟨hmade, rfl⟩ := by simpa [step] using hs
      exact ⟨h.unregisterReceiver hmade, h.senders, h.quiet⟩
  | registerSender plugin name config tid a =>
      obtain rfl := Option.some.inj hs
      exact ⟨h.receivers, h.senders.register senderTexts plugin name config tid a, h.quiet⟩
  | stopSending id =>
      obtain ⟨-, rfl⟩ := by simpa [step] using hs
      refine ⟨h.receivers, h.senders, ?_⟩
      have hquiet := h.quiet
      unfold Senders.stopped at hquiet
      simp [Senders.stopped, Senders.stopSending, hquiet]
  | unregisterSender id =>
      obtain ⟨hmade, rfl⟩ := by simpa [step] using hs
      exact ⟨h.receivers, h.unregisterSender hmade hspared, h.quiet⟩

/-- A call that is not spared leaves a wrapper that cannot be given back, or a sender without
wrappers that nobody has stopped. -/
theorem spared_of_stopped {c : StopCall ν} (h : Inv s) (hs : s.step c = some s')
    (hstopped : s'.Stopped) : s.Spared c := by
  cases c with
  | stopReceiving id =>
      -- a wrapper that is out and has been made inactive cannot be unregistered
      obtain ⟨-, rfl⟩ := by simpa [step] using hs
      intro hheld
      by_contra hdone
      have hinactive := Receivers.stopReceiving_active s.receivers id ((h.active_iff id).mpr hheld)
        hdone
      have hok := (hstopped.receiver id hheld).ok
      simp [Receivers.unregisterReceiver, hinactive] at hok
  | unregisterSender id =>
      obtain ⟨hmade, rfl⟩ := by simpa [step] using hs
      intro hheld
      by_contra hnone
      have hinst : ∀ j, ((s.senders.unregisterSender id).1.reg.objects j).inst =
          (s.senders.reg.objects j).inst := Registry.unregister_inst senderTexts s.senders.reg id
      have honce := hstopped.senders.once id hmade ?_
      · change s.senders.stopped.count _ = 1 at honce
        rw [h.quiet] at honce
        simp at honce
      · intro j hj heq
        rw [hinst, hinst] at heq
        by_contra hgone
        obtain ⟨hne, hout⟩ := not_or.mp fun hor => hgone (Finset.mem_insert.mpr hor)
        exact hnone ⟨j, ⟨hj, hout⟩, hne, heq⟩
  | _ => trivial

/-- A call on a wrapper that has not been handed out. -/
theorem spared_of_none {c : StopCall ν} (hs : s.step c = none) : s.Spared c := by
  cases c with
  | stopReceiving id =>
      intro hheld
      simp [step, hheld.1] at hs
  | unregisterSender id =>
      intro hheld
      simp [step, hheld.1] at hs
  | _ => trivial

/-- **What is released is stopped.**  All along a run of calls, every wrapper that is out can be
given back and every instance without wrappers has been stopped once and not before, exactly if
no receiver wrapper is stopped after `Receive` and no sender loses its last wrapper. -/
theorem released_iff {calls : List (StopCall ν)} :
    (∀ cs, cs <+: calls → ∀ s, Runs.run step start cs = some s → s.Stopped) ↔
      Runs.Along step Spared (start : StopTables ν) calls :=
  Runs.always_iff_along (P := Inv) (fun _ h => h.stopped) (fun _ _ _ h hg hs => inv_step h hg hs)
    (fun _ _ _ h hs hq => spared_of_stopped h hs hq) (fun _ _ hs => spared_of_none hs) inv_start

/-- A receiver wrapper that is stopped before it is unregistered keeps its reference, and a
sender whose only wrapper is unregistered is not stopped. -/
theorem not_released :
    (∃ s : StopTables Unit,
      Runs.run step start
          [.registerReceiver "sqs" "r" "c" ⟨"acme", "tv"⟩ { hash := .ok "h" }, .receive 1 (),
            .stopReceiving 1, .unregisterReceiver 1] = some s ∧
        s.receiverLedger.made = {1} ∧ s.receiverLedger.gone = {1} ∧
        s.receivers.reg.count.lookup "acme/tv/r/h" = some 1 ∧ s.receivers.stops = []) ∧
      ∃ s : StopTables Unit,
        Runs.run step start
            [.registerSender "sqs" "s" "c" ⟨"acme", "tv"⟩ { hash := .ok "h" },
              .unregisterSender 1] = some s ∧
          s.senderLedger.made = {1} ∧ s.senderLedger.gone = {1} ∧ s.senders.stopped = [] := by
  refine ⟨⟨_, rfl, ?_, ?_, ?_, ?_⟩, ⟨_, rfl, ?_, ?_, ?_⟩⟩ <;> decide +kernel

end StopTables

end Plugin
