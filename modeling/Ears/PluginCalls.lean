/-
# Sequences of plugin registrations

Calls of the six `Register` and `Unregister` methods, one after the other, with anything
failing on the way except `uuid.NewRandom`.  The counts follow the wrappers, an instance is
there as long as it has a wrapper, and all wrappers of a key hold the one instance that was
constructed for it since the key was last without wrappers (`counts_of_run`).

The three kinds keep separate tables, and seen from the tables of one kind a call is a call
on these tables or nothing (`registry_call`), so the invariant is about one `Registry`.
-/
import Ears.Receivers
import Ears.Runs

namespace Plugin

/-- The kinds of plugins. -/
inductive Kind where
  | receiver
  | filter
  | sender
  deriving DecidableEq, Repr

/-- The texts of a kind. -/
def Kind.texts : Kind → Texts
  | .receiver => receiverTexts
  | .filter => filterTexts
  | .sender => senderTexts

/-- The error of the `Unregister` methods for a value that is no wrapper of a manager. -/
def Kind.foreign : Kind → RegistrationError
  | .receiver => { message := "receiver not registered false" }
  | .filter => { message := "filter not registered false" }
  | .sender => { message := "sender not registered" }

/-- All tables of the manager. -/
structure PluginTables (ν : Type) where
  receivers : Receivers ν
  filters : Registry
  senders : Registry

/-- A call of a `Register` method with the answers it gets, or of an `Unregister` method with
the id of a wrapper, or without one for a value that is no wrapper. -/
inductive Call where
  | register (kind : Kind) (plugin name config : String) (tid : Tenant.Id) (a : Answers)
  | unregister (kind : Kind) (wrapper : Option ℕ)

/-- The kind whose method is called. -/
def Call.kind : Call → Kind
  | .register k _ _ _ _ _ | .unregister k _ => k

/-- `uuid.NewRandom` has an id for the call. -/
def Call.HasId : Call → Prop
  | .register _ _ _ _ _ a => a.uuid = none
  | .unregister _ _ => True

/-- The call, on the tables of its kind. -/
def Registry.call (reg : Registry) : Call → Registry × Except RegistrationError (Option ℕ)
  | .register k plugin name config tid a =>
      let r := reg.register k.texts plugin name config tid a
      (r.1, r.2.map some)
  | .unregister k none => (reg, .error k.foreign)
  | .unregister k (some id) =>
      let r := reg.unregister k.texts id
      (r.1, r.2.map fun _ => none)

/-- The instance that the call constructs, with its key. -/
def Registry.constructs (reg : Registry) : Call → Option (String × Instance)
  | .register _ plugin name config tid a => reg.constructed plugin name config tid a
  | .unregister _ _ => none

namespace PluginTables

variable {ν : Type}

/-- `NewManager`. -/
def new : PluginTables ν := ⟨.empty, .empty, .empty⟩

/-- The tables of one kind. -/
def registry (s : PluginTables ν) : Kind → Registry
  | .receiver => s.receivers.reg
  | .filter => s.filters
  | .sender => s.senders

/-- One call: the new tables, and the id of the new wrapper or an error. -/
def call (s : PluginTables ν) : Call → PluginTables ν × Except RegistrationError (Option ℕ)
  | .register .receiver plugin name config tid a =>
      let r := s.receivers.registerReceiver plugin name config tid a
      ({ s with receivers := r.1 }, r.2.map some)
  | .unregister .receiver wrapper =>
      let r := s.receivers.unregisterReceiver wrapper
      ({ s with receivers := r.1 }, r.2.map fun _ => none)
  | .register .filter plugin name config tid a =>
      let r := s.filters.call (.register .filter plugin name config tid a)
      ({ s with filters := r.1 }, r.2)
  | .unregister .filter wrapper =>
      let r := s.filters.call (.unregister .filter wrapper)
      ({ s with filters := r.1 }, r.2)
  | .register .sender plugin name config tid a =>
      let r := s.senders.call (.register .sender plugin name config tid a)
      ({ s with senders := r.1 }, r.2)
  | .unregister .sender wrapper =>
      let r := s.senders.call (.unregister .sender wrapper)
      ({ s with senders := r.1 }, r.2)

/-- Seen from one kind, a call is a call on the tables of that kind or nothing. -/
theorem registry_call (s : PluginTables ν) (c : Call) (k : Kind) :
    (s.call c).1.registry k = if c.kind = k then ((s.registry k).call c).1 else s.registry k := by
  cases c with
  | register k' plugin name config tid a => cases k' <;> cases k <;> rfl
  | unregister k' wrapper =>
      cases k' <;> cases k <;> try rfl
      cases wrapper with
      | none => rfl
      | some id => exact (Receivers.unregisterReceiver_reg s.receivers id).1

theorem result_call (s : PluginTables ν) (c : Call) :
    (s.call c).2 = ((s.registry c.kind).call c).2 := by
  cases c with
  | register k plugin name config tid a => cases k <;> rfl
  | unregister k wrapper =>
      cases k <;> try rfl
      cases wrapper with
      | none => rfl
      | some id =>
          show (s.receivers.unregisterReceiver (some id)).2.map _ = _
          rw [(Receivers.unregisterReceiver_reg s.receivers id).2]
          rfl

end PluginTables

/-! ## What a call constructs -/

namespace Registry

variable {reg : Registry} {id : ℕ}

/-- With an id at hand a registration fails and changes nothing, hands out a wrapper of the
instance that is there, or constructs the instance and hands out a wrapper of it. -/
theorem register_constructed (texts : Texts) (reg : Registry) (plugin name config : String)
    (tid : Tenant.Id) {a : Answers} (hid : a.uuid = none) :
    (reg.constructed plugin name config tid a = none ∧
      ((∃ err, reg.register texts plugin name config tid a = (reg, .error err)) ∨
        ∃ hash inst, a.hash = .ok hash ∧ reg.instances.lookup (mapkey tid name hash) = some inst ∧
          reg.register texts plugin name config tid a =
            (reg.addWrapper ⟨tid, name, plugin, hash, inst, true⟩, .ok reg.next))) ∨
      ∃ hash, a.hash = .ok hash ∧ reg.instances.lookup (mapkey tid name hash) = none ∧
        reg.constructed plugin name config tid a =
          some (mapkey tid name hash, ⟨reg.next, plugin, name, config, tid⟩) ∧
        reg.register texts plugin name config tid a =
          ((reg.addInstance (mapkey tid name hash) ⟨reg.next, plugin, name, config, tid⟩).addWrapper
            ⟨tid, name, plugin, hash, ⟨reg.next, plugin, name, config, tid⟩, true⟩,
            .ok (reg.next + 1)) := by
  unfold register constructed
  rw [hid]
  cases a.lookup with
  | some err => exact Or.inl ⟨rfl, Or.inl ⟨_, rfl⟩⟩
  | none =>
  cases a.hash with
  | error err => exact Or.inl ⟨rfl, Or.inl ⟨_, rfl⟩⟩
  | ok hash =>
  dsimp only
  cases hinst : reg.instances.lookup (mapkey tid name hash) with
  | some inst =>
      refine Or.inl ⟨?_, Or.inr ⟨hash, inst, rfl, hinst, rfl⟩⟩
      cases a.build with
      | none => simp only [hinst]
      | some err => rfl
  | none =>
      cases a.build with
      | some err => exact Or.inl ⟨rfl, Or.inl ⟨_, rfl⟩⟩
      | none => exact Or.inr ⟨hash, rfl, hinst, by simp only [hinst], rfl⟩

/-! ## The history of one kind -/

/-- The instances that have been constructed for each key since its count last was 0, after
one more call.  A call of another kind constructs nothing here. -/
def record (reg' : Registry) (built : Option (String × Instance))
    (since : String → List Instance) : String → List Instance := fun key =>
  if (reg'.count.lookup key).getD 0 = 0 then []
  else
    match built with
    | some (key', inst) => if key = key' then since key ++ [inst] else since key
    | none => since key

/-- The tables agree, every instance has a wrapper, the wrappers hold the instance under their
key, and that is the only one constructed since there last was none. -/
structure Traced (reg : Registry) (since : String → List Instance) : Prop where
  sound : reg.Sound
  tight : reg.Tight
  holds : ∀ id ∈ reg.wrapped, reg.instances.lookup (reg.objects id).key = some (reg.objects id).inst
  built : ∀ key, since key = (reg.instances.lookup key).toList

variable {since : String → List Instance}

theorem traced_empty : Traced empty fun _ => [] where
  sound := Sound.empty
  tight := Tight.empty
  holds := fun id hid => absurd hid (by simp [Registry.empty])
  built := fun _ => rfl

/-- A count is 0 exactly when there is no instance. -/
theorem count_eq_zero (hs : reg.Sound) (ht : reg.Tight) (key : String) :
    (reg.count.lookup key).getD 0 = 0 ↔ reg.instances.lookup key = none := by
  rw [hs.count]
  cases hinst : reg.instances.lookup key with
  | none => simp
  | some inst =>
      have hpos := ht key (by rw [hinst]; rfl)
      simp only [Option.map_some, Option.getD_some, reduceCtorEq, iff_false]
      omega

/-- The history is right after a call if what was constructed is what is new. -/
theorem record_eq {reg' : Registry} {built : Option (String × Instance)}
    (h : ∀ key, since key = (reg.instances.lookup key).toList) (hs : reg'.Sound) (ht : reg'.Tight)
    (hold : ∀ key inst, reg'.instances.lookup key = some inst →
      (built = some (key, inst) ∧ reg.instances.lookup key = none) ∨
        ((∀ inst', built ≠ some (key, inst')) ∧ reg.instances.lookup key = some inst)) (key : String) :
    record reg' built since key = (reg'.instances.lookup key).toList := by
  unfold record
  cases hinst : reg'.instances.lookup key with
  | none =>
      rw [if_pos ((count_eq_zero hs ht key).mpr hinst)]
      rfl
  | some inst =>
      have hne : ¬ (reg'.count.lookup key).getD 0 = 0 := by
        rw [count_eq_zero hs ht, hinst]
        simp
      rw [if_neg hne]
      rcases hold key inst hinst with ⟨hbuilt, hnone⟩ | ⟨hother, hsome⟩
      · rw [hbuilt]
        simp [h, hnone]
      · cases hb : built with
        | none => rw [h, hsome]
        | some b =>
            have hkey : key ≠ b.1 := by
              rintro rfl
              exact hother b.2 hb
            show (if key = b.1 then _ else since key) = _
            rw [if_neg hkey, h, hsome]

theorem Traced.idle (h : reg.Traced since) : reg.Traced (record reg none since) :=
  ⟨h.sound, h.tight, h.holds, record_eq h.built h.sound h.tight fun key inst hinst =>
    Or.inr ⟨fun _ => by simp, hinst⟩⟩

/-- The wrappers still hold their instances when one more gets the instance under its key. -/
theorem holds_addWrapper (hs : reg.Sound) (h : ∀ id ∈ reg.wrapped,
      reg.instances.lookup (reg.objects id).key = some (reg.objects id).inst) {w : Wrapper}
    (hw : reg.instances.lookup w.key = some w.inst) :
    ∀ id ∈ (reg.addWrapper w).wrapped, (reg.addWrapper w).instances.lookup
      ((reg.addWrapper w).objects id).key = some ((reg.addWrapper w).objects id).inst := by
  intro id hid
  rcases Finset.mem_insert.mp hid with rfl | hid
  · show reg.instances.lookup (Function.update reg.objects reg.next w reg.next).key =
      some (Function.update reg.objects reg.next w reg.next).inst
    rw [Function.update_self, hw]
  · show reg.instances.lookup (Function.update reg.objects reg.next w id).key =
      some (Function.update reg.objects reg.next w id).inst
    rw [Function.update_of_ne (hs.lt_next hid).ne, h id hid]

theorem holds_addInstance (h : ∀ id ∈ reg.wrapped,
      reg.instances.lookup (reg.objects id).key = some (reg.objects id).inst) {key : String}
    (hkey : reg.instances.lookup key = none) (inst : Instance) :
    ∀ id ∈ (reg.addInstance key inst).wrapped, (reg.addInstance key inst).instances.lookup
      ((reg.addInstance key inst).objects id).key =
        some ((reg.addInstance key inst).objects id).inst := by
  intro id hid
  have hold := h id hid
  show (reg.instances.insert key inst).lookup (reg.objects id).key = some (reg.objects id).inst
  rw [Finmap.lookup_insert_of_ne, hold]
  intro heq
  rw [heq, hkey] at hold
  simp at hold

theorem holds_unregister (hs : reg.Sound) (h : ∀ id ∈ reg.wrapped,
      reg.instances.lookup (reg.objects id).key = some (reg.objects id).inst) (texts : Texts)
    (hid : id ∈ reg.wrapped) : ∀ j ∈ (reg.unregister texts id).1.wrapped,
      (reg.unregister texts id).1.instances.lookup ((reg.unregister texts id).1.objects j).key =
        some ((reg.unregister texts id).1.objects j).inst := by
  intro j hj
  rw [unregister_wrapped hs hid, Finset.mem_erase] at hj
  rw [unregister_objects hs hid hj.1, unregister_instances hs hid, if_neg]
  · exact h j hj.2
  · rintro ⟨hkey, hle⟩
    have htwo := two_le_uses hid hj.2 hj.1 hkey
    rw [← hkey] at htwo
    omega

theorem Traced.register (h : reg.Traced since) (texts : Texts) (plugin name config : String)
    (tid : Tenant.Id) {a : Answers} (hid : a.uuid = none) :
    (reg.register texts plugin name config tid a).1.Traced
      (record (reg.register texts plugin name config tid a).1
        (reg.constructed plugin name config tid a) since) := by
  have htight := h.tight.register h.sound texts plugin name config tid hid
  rcases register_constructed texts reg plugin name config tid hid with
    ⟨hnone, ⟨err, heq⟩ | ⟨hash, inst, -, hinst, heq⟩⟩ | ⟨hash, -, hinst, hbuilt, heq⟩
  · rw [heq, hnone]
    exact h.idle
  · rw [heq] at htight ⊢
    have hsound : (reg.addWrapper ⟨tid, name, plugin, hash, inst, true⟩).Sound :=
      h.sound.addWrapper rfl (by rw [Wrapper.key, hinst]; rfl)
    refine ⟨hsound, htight, holds_addWrapper h.sound h.holds hinst, ?_⟩
    rw [hnone]
    exact record_eq h.built hsound htight fun key i hi => Or.inr ⟨fun _ => by simp, hi⟩
  · rw [heq] at htight ⊢
    have hnew := h.sound.addInstance hinst ⟨reg.next, plugin, name, config, tid⟩
    have hlookup : (reg.addInstance (mapkey tid name hash)
        ⟨reg.next, plugin, name, config, tid⟩).instances.lookup (mapkey tid name hash) =
          some ⟨reg.next, plugin, name, config, tid⟩ := Finmap.lookup_insert _
    have hsound := hnew.addWrapper (w := ⟨tid, name, plugin, hash,
      ⟨reg.next, plugin, name, config, tid⟩, true⟩) rfl (by rw [Wrapper.key, hlookup]; rfl)
    refine ⟨hsound, htight, holds_addWrapper hnew (holds_addInstance h.holds hinst _) hlookup, ?_⟩
    rw [hbuilt]
    -- the new instance is the first of its key, the other keys keep theirs
    refine record_eq h.built hsound htight fun key i hi => ?_
    have hi' : (reg.instances.insert (mapkey tid name hash)
      ⟨reg.next, plugin, name, config, tid⟩).lookup key = some i := hi
    rw [Finmap.lookup_insert_eq] at hi'
    split at hi'
    · rename_i hkey
      left
      rw [hkey, hinst, ← Option.some.inj hi']
      exact ⟨rfl, rfl⟩
    · rename_i hkey
      right
      refine ⟨fun i' heq' => ?_, hi'⟩
      simp only [Option.some.injEq, Prod.mk.injEq] at heq'
      exact hkey heq'.1.symm

theorem Traced.unregister (h : reg.Traced since) (texts : Texts) (id : ℕ) :
    (reg.unregister texts id).1.Traced (record (reg.unregister texts id).1 none since) := by
  by_cases hid : id ∈ reg.wrapped
  · have hsound : (reg.unregister texts id).1.Sound := h.sound.unregister hid
    have htight : (reg.unregister texts id).1.Tight := h.tight.unregister h.sound hid
    refine ⟨hsound, htight, ?_, ?_⟩
    · exact holds_unregister h.sound h.holds texts hid
    · refine record_eq h.built hsound htight fun key inst hinst => Or.inr ⟨fun _ => by simp, ?_⟩
      rw [unregister_instances h.sound hid] at hinst
      split at hinst
      · simp at hinst
      · exact hinst
  · have hinactive : (reg.objects id).active = false := by
      rw [h.sound.active] at hid
      simpa using hid
    rw [unregister_eq_release, hinactive]
    exact h.idle

/-- A call keeps the tables of its kind and their history together. -/
theorem Traced.call (h : reg.Traced since) {c : Call} (hid : c.HasId) :
    (reg.call c).1.Traced (record (reg.call c).1 (reg.constructs c) since) := by
  cases c with
  | register k plugin name config tid a => exact h.register k.texts plugin name config tid hid
  | unregister k wrapper =>
      cases wrapper with
      | none => exact h.idle
      | some id => exact h.unregister k.texts id

/-- A call that returns an error leaves the tables of its kind alone and constructs nothing. -/
theorem call_error {c : Call} (hid : c.HasId) {err : RegistrationError}
    (herr : (reg.call c).2 = .error err) : (reg.call c).1 = reg ∧ reg.constructs c = none := by
  cases c with
  | register k plugin name config tid a =>
      rcases register_constructed k.texts reg plugin name config tid hid with
        ⟨hnone, ⟨err', heq⟩ | ⟨hash, inst, -, -, heq⟩⟩ | ⟨hash, -, -, -, heq⟩
      · exact ⟨by simp [call, heq], hnone⟩
      · simp [call, heq, Except.map] at herr
      · simp [call, heq, Except.map] at herr
  | unregister k wrapper =>
      refine ⟨?_, rfl⟩
      cases wrapper with
      | none => rfl
      | some id =>
          show (reg.unregister k.texts id).1 = reg
          have herr' : (reg.unregister k.texts id).2.map (fun _ => (none : Option ℕ)) =
            .error err := herr
          rw [unregister_eq_release] at herr' ⊢
          split at herr'
          · simp [Except.map] at herr'
          · rename_i hinactive
            rw [if_neg hinactive]

end Registry

/-! ## All kinds -/

/-- The count of a key is the number of its wrappers, there is an instance exactly if that is
positive, and all wrappers of a key hold one instance, the only one that was constructed since
the count last was 0. -/
structure Registry.Counted (reg : Registry) (since : String → List Instance) : Prop where
  count : ∀ key, (reg.count.lookup key).getD 0 = reg.uses key
  present : ∀ key, (reg.instances.lookup key).isSome ↔ 1 ≤ (reg.count.lookup key).getD 0
  same : ∀ id ∈ reg.wrapped,
    reg.instances.lookup (reg.objects id).key = some (reg.objects id).inst ∧
      since (reg.objects id).key = [(reg.objects id).inst]

theorem Registry.Traced.counted {reg : Registry} {since : String → List Instance}
    (h : reg.Traced since) : reg.Counted since where
  count := by
    intro key
    rw [h.sound.count]
    cases hinst : reg.instances.lookup key with
    | some inst => rfl
    | none =>
        have hzero : reg.uses key = 0 := by
          by_contra hne
          have hsome := h.sound.present key (by omega)
          rw [hinst] at hsome
          simp at hsome
        rw [hzero]
        rfl
  present := by
    intro key
    have hzero := Registry.count_eq_zero h.sound h.tight key
    rw [h.sound.count] at hzero ⊢
    cases hinst : reg.instances.lookup key with
    | none => simp
    | some inst =>
        rw [hinst] at hzero
        simp only [Option.map_some, Option.getD_some, reduceCtorEq, iff_false] at hzero ⊢
        simp only [Option.isSome_some, true_iff]
        omega
  same := by
    intro id hid
    refine ⟨h.holds id hid, ?_⟩
    rw [h.built, h.holds id hid]
    rfl

namespace PluginTables

variable {ν : Type}

/-- For each kind and key, the instances constructed since the count of the key last was 0. -/
abbrev History := Kind → String → List Instance

/-- One call, and what it adds to the history. -/
def tracedStep (s : PluginTables ν × History) (c : Call) : Option (PluginTables ν × History) :=
  some ((s.1.call c).1, fun k => Registry.record ((s.1.call c).1.registry k)
    (if c.kind = k then (s.1.registry k).constructs c else none) (s.2 k))

theorem traced_step {s s' : PluginTables ν × History} {c : Call}
    (h : ∀ k, (s.1.registry k).Traced (s.2 k)) (hid : c.HasId) (hs : tracedStep s c = some s') :
    ∀ k, (s'.1.registry k).Traced (s'.2 k) := by
  obtain rfl := Option.some.inj hs
  intro k
  dsimp only
  rw [registry_call]
  split
  · exact (h k).call hid
  · exact (h k).idle

/-- A call that returns an error leaves all tables as they were. -/
theorem call_eq_of_error (s : PluginTables ν) {c : Call} (hid : c.HasId) {err : RegistrationError}
    (herr : (s.call c).2 = .error err) : (s.call c).1 = s := by
  rw [result_call] at herr
  obtain ⟨hreg, hnone⟩ := Registry.call_error hid herr
  cases c with
  | register k plugin name config tid a =>
      cases k with
      | receiver =>
          have hreg' : (s.receivers.reg.register receiverTexts plugin name config tid a).1 =
            s.receivers.reg := hreg
          have hnone' : s.receivers.reg.constructed plugin name config tid a = none := hnone
          simp only [call, Receivers.registerReceiver, hreg', hnone']
      | filter => exact congrArg (fun reg => { s with filters := reg }) hreg
      | sender => exact congrArg (fun reg => { s with senders := reg }) hreg
  | unregister k wrapper =>
      cases k with
      | receiver =>
          cases wrapper with
          | none => rfl
          | some id =>
              have herr' : (s.receivers.reg.unregister receiverTexts id).2.map
                (fun _ => (none : Option ℕ)) = .error err := herr
              rw [Registry.unregister_eq_release] at herr'
              split at herr'
              · simp [Except.map] at herr'
              · rename_i hinactive
                simp [call, Receivers.unregisterReceiver, Receivers.active, hinactive]
      | filter => exact congrArg (fun reg => { s with filters := reg }) hreg
      | sender => exact congrArg (fun reg => { s with senders := reg }) hreg

/-- **The counts follow the wrappers.**  After every sequence of `Register` and `Unregister`
calls that get an id, for each kind of plugins; and a call that returns an error then changes
nothing. -/
theorem counts_of_run {calls : List Call} {s : PluginTables ν × History}
    (hids : ∀ c ∈ calls, c.HasId)
    (hrun : Runs.run tracedStep (new, fun _ _ => []) calls = some s) :
    (∀ k, (s.1.registry k).Counted (s.2 k)) ∧
      ∀ c, c.HasId → ∀ err, (s.1.call c).2 = .error err → (s.1.call c).1 = s.1 := by
  have htraced : ∀ k, (s.1.registry k).Traced (s.2 k) := by
    refine Runs.run_induction_along
      (P := fun s : PluginTables ν × History => ∀ k, (s.1.registry k).Traced (s.2 k))
      (G := fun _ c => c.HasId) (fun _ _ _ h hid hs => traced_step h hid hs) ?_
      (Runs.along_of_forall hids) hrun
    intro k
    cases k <;> exact Registry.traced_empty
  exact ⟨fun k => (htraced k).counted, fun c hid err herr => call_eq_of_error s.1 hid herr⟩

/-- The answers when nothing fails and the configuration has the given hash. -/
def sampleAnswers (hash : String) : Answers := { hash := .ok hash }

/-- A filter is registered twice, unregistered twice and registered again; in between the
construction of another one fails. -/
def sampleCalls : List Call :=
  [.register .filter "match" "f" "c" ⟨"acme", "tv"⟩ (sampleAnswers "h"),
    .register .filter "match" "f" "c" ⟨"acme", "tv"⟩ (sampleAnswers "h"),
    .register .filter "js" "g" "c" ⟨"acme", "tv"⟩ { hash := .ok "h", build := some "no source" },
    .unregister .filter (some 1), .unregister .filter (some 1), .unregister .filter (some 2),
    .register .filter "match" "f" "c" ⟨"acme", "tv"⟩ (sampleAnswers "h")]

theorem counts_of_run_sample :
    ∃ s : PluginTables Unit × History,
      Runs.run tracedStep (new, fun _ _ => []) sampleCalls = some s ∧
        (s.1.registry .filter).uses "acme/tv/f/h" = 1 ∧
        (s.1.registry .filter).Counted (s.2 .filter) := by
  have hids : ∀ c ∈ sampleCalls, c.HasId := by
    simp [sampleCalls, sampleAnswers, Call.HasId]
  refine ⟨_, rfl, ?_, (counts_of_run hids rfl).1 .filter⟩
  decide +kernel

end PluginTables

end Plugin
