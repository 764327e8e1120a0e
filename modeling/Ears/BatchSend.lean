/-
# Sending a batch (`pkg/plugins/sqs/sender.go`, `pkg/plugins/kinesis/sender.go`)

`send` turns the events of a batch into one request, leaving out those whose payload cannot be
marshalled, and acks or nacks the events by the answer.  What it does on the way is a list of
effects; an event is named by its position in the batch.

The sender for SQS finds the event of an answer by its id, which clones of an event share, and
nacks only the first event when the call fails.  The sender for Kinesis takes the answers to be
in the order of the events, of which some may have been left out.  `Sqs.settles_by_id_iff` and
`Kinesis.Sender.settles_by_position_iff` say when each event is settled once, as its own answer says.
-/
import Ears.Event

open GoLib

variable {κ : Type}

/-! ## Effects -/

/-- What `send` does, in order: calls of the metrics, and acks and nacks of events.  An index out
of range panics. -/
inductive SendEffect where
  | logSuccess
  | logError
  | ack (i : ℕ)
  | nack (i : ℕ) (err : Option String)
  | panic
  deriving DecidableEq, Repr

namespace SendEffect

/-- The event that an effect settles. -/
def settled : SendEffect → Option ℕ
  | .ack i => some i
  | .nack i _ => some i
  | _ => none

/-- Each event of a batch is settled once, and acked if and only if it was accepted. -/
def SettlesOnce (events : List (Event κ)) (accepted : ℕ → Prop) (effects : List SendEffect) :
    Prop :=
  ∀ i < events.length, (effects.filterMap settled).count i = 1 ∧ (.ack i ∈ effects ↔ accepted i)

end SendEffect

open SendEffect

/-- The positions of the events whose payload can be marshalled. -/
def sentEvents (marshal : Value → Except String String) (events : List (Event κ)) : List ℕ :=
  (List.range events.length).filter fun i => events[i]?.any fun evt => (marshal evt.payload).isOk

section Sent

variable {marshal : Value → Except String String} {events : List (Event κ)} {i : ℕ}

theorem mem_sentEvents : i ∈ sentEvents marshal events ↔
    ∃ h : i < events.length, (marshal (events.get ⟨i, h⟩).payload).isOk = true := by
  unfold sentEvents
  rw [List.mem_filter, List.mem_range, Option.any_eq_true]
  constructor
  · rintro ⟨hi, evt, hevt, hok⟩
    rw [List.getElem?_eq_getElem hi, Option.some.injEq] at hevt
    exact ⟨hi, by rw [List.get_eq_getElem, hevt]; exact hok⟩
  · rintro ⟨hi, hok⟩
    exact ⟨hi, _, List.getElem?_eq_getElem hi, hok⟩

/-- Every event is sent when all payloads can be marshalled. -/
theorem sentEvents_eq_range : sentEvents marshal events = List.range events.length ↔
    ∀ evt ∈ events, (marshal evt.payload).isOk = true := by
  unfold sentEvents
  rw [List.filter_eq_self]
  constructor
  · intro hall evt hevt
    obtain ⟨i, hi, rfl⟩ := List.mem_iff_getElem.mp hevt
    have h := hall i (List.mem_range.mpr hi)
    rwa [List.getElem?_eq_getElem hi] at h
  · intro hall i hi
    rw [List.getElem?_eq_getElem (List.mem_range.mp hi)]
    exact hall _ (List.getElem_mem _)

end Sent

/-! ## SQS -/

namespace Sqs

/-- The fields of `SenderConfig` that `send` reads. -/
structure SendConfig where
  delaySeconds : ℤ

/-- `sqs.SendMessageBatchRequestEntry`. -/
structure Entry where
  id : String
  messageBody : String
  delaySeconds : Option ℤ
  deriving DecidableEq, Repr

/-- `sqs.SendMessageBatchOutput`: the ids that failed, with a message, and the others. -/
structure Output where
  failed : List (String × String)
  successful : List String
  deriving DecidableEq, Repr

/-- The first loop of `send`: the entries, and the errors that are logged. -/
def addEntries (config : SendConfig) (marshal : Value → Except String String) :
    List (Event κ) → List SendEffect × List Entry
  | [] => ([], [])
  | evt :: events =>
      let (effects, entries) := addEntries config marshal events
      match marshal evt.payload with
      | .error _ => (.logError :: effects, entries)
      | .ok buf =>
          let delaySeconds := if config.delaySeconds > 0 then some config.delaySeconds else none
          (effects, ⟨evt.eid, buf, delaySeconds⟩ :: entries)

/-- The first event with an id. -/
def withId (events : List (Event κ)) (id : String) : Option ℕ :=
  events.findIdx? fun evt => evt.eid == id

/-- The rest of `send`, when the answer is there. -/
def settle (events : List (Event κ)) : Except String Output → List SendEffect
  | .error err =>
      -- the loop over the events ends after its first round
      match events with
      | [] => []
      | _ :: _ => [.logError, .nack 0 (some err)]
  | .ok output =>
      output.failed.flatMap (fun failEvent =>
        (withId events failEvent.1).elim [] fun i => [.logError, .nack i (some failEvent.2)]) ++
      output.successful.flatMap fun id =>
        (withId events id).elim [] fun i => [.logSuccess, .ack i]

/-- `send`, with the answer of `SendMessageBatch`. -/
def send (config : SendConfig) (marshal : Value → Except String String)
    (events : List (Event κ)) (answer : Except String Output) : List SendEffect :=
  if events = [] then [] else (addEntries config marshal events).1 ++ settle events answer

/-- An outcome of the call: an error, or a split of the events that were sent. -/
inductive Outcome (sent : List ℕ) where
  | callError (err : String)
  | split (failed : List (ℕ × String)) (successful : List ℕ)
      (perm : (failed.map Prod.fst ++ successful).Perm sent)

/-- The id of the event at a position. -/
def idAt (events : List (Event κ)) (i : ℕ) : String := (events[i]?.map Event.eid).getD ""

namespace Outcome

variable {sent : List ℕ}

/-- The answer that reports an outcome. -/
def answer (events : List (Event κ)) : Outcome sent → Except String Output
  | callError err => .error err
  | split failed successful _ =>
      .ok ⟨failed.map fun f => (idAt events f.1, f.2), successful.map (idAt events)⟩

/-- The events whose entries were reported successful. -/
def Accepted : Outcome sent → ℕ → Prop
  | callError _, _ => False
  | split _ successful _, i => i ∈ successful

/-- When every event is settled: after an error, when there is one event only; else when all
payloads can be marshalled and no two events share an id. -/
def Settled (marshal : Value → Except String String) (events : List (Event κ)) :
    Outcome sent → Prop
  | callError _ => events.length = 1
  | split _ _ _ =>
      (∀ evt ∈ events, (marshal evt.payload).isOk = true) ∧ (events.map Event.eid).Nodup

end Outcome

section Send

variable {config : SendConfig} {marshal : Value → Except String String} {events : List (Event κ)}
  {i j : ℕ}

/-- The first loop settles nothing. -/
theorem addEntries_settled (config : SendConfig) (marshal : Value → Except String String)
    (events : List (Event κ)) : (addEntries config marshal events).1.filterMap settled = [] ∧
      ∀ i, .ack i ∉ (addEntries config marshal events).1 := by
  induction events with
  | nil => exact ⟨rfl, fun i => List.not_mem_nil⟩
  | cons evt events ih =>
      rw [addEntries]
      cases marshal evt.payload with
      | error err =>
          refine ⟨ih.1, fun i hi => ?_⟩
          rcases List.mem_cons.mp hi with heq | hi
          · cases heq
          · exact ih.2 i hi
      | ok buf => exact ih

theorem send_settled (hne : events ≠ []) (answer : Except String Output) :
    (send config marshal events answer).filterMap settled =
      (settle events answer).filterMap settled := by
  rw [send, if_neg hne, List.filterMap_append, (addEntries_settled ..).1, List.nil_append]

theorem ack_mem_send (hne : events ≠ []) {answer : Except String Output} :
    .ack i ∈ send config marshal events answer ↔ .ack i ∈ settle events answer := by
  rw [send, if_neg hne, List.mem_append]
  exact or_iff_right ((addEntries_settled ..).2 i)

theorem idAt_eq (hi : i < events.length) : idAt events i = (events.get ⟨i, hi⟩).eid := by
  rw [idAt, List.getElem?_eq_getElem hi]
  rfl

/-- The event that an id is taken for. -/
theorem withId_eq_some : withId events (idAt events j) = some i ↔
    i < events.length ∧ idAt events i = idAt events j ∧
      ∀ i' < i, idAt events i' ≠ idAt events j := by
  rw [withId, List.findIdx?_eq_some_iff_getElem]
  constructor
  · rintro ⟨hi, heq, hfirst⟩
    refine ⟨hi, ?_, fun i' hi' => ?_⟩
    · rw [idAt_eq hi]
      exact beq_iff_eq.mp heq
    · rw [idAt_eq (hi'.trans hi)]
      exact fun h => hfirst i' hi' (beq_iff_eq.mpr h)
  · rintro ⟨hi, heq, hfirst⟩
    refine ⟨hi, ?_, fun i' hi' => ?_⟩
    · rw [idAt_eq hi] at heq
      exact beq_iff_eq.mpr heq
    · have hne := hfirst i' hi'
      rw [idAt_eq (hi'.trans hi)] at hne
      exact fun h => hne (beq_iff_eq.mp h)

/-- Ids that are not shared are found. -/
theorem withId_self (hnodup : (events.map Event.eid).Nodup) (hi : i < events.length) :
    withId events (idAt events i) = some i := by
  refine withId_eq_some.mpr ⟨hi, rfl, fun i' hi' heq => ?_⟩
  rw [idAt_eq (hi'.trans hi), idAt_eq hi] at heq
  have hlen : i < (events.map Event.eid).length := by simpa using hi
  have hlen' : i' < (events.map Event.eid).length := hi'.trans hlen
  have hget : (events.map Event.eid)[i'] = (events.map Event.eid)[i] := by
    simpa using heq
  exact hi'.ne ((List.Nodup.getElem_inj_iff hnodup).mp hget)

/-- When every id finds its own event, no id is shared. -/
theorem nodup_of_withId (h : ∀ i < events.length, withId events (idAt events i) = some i) :
    (events.map Event.eid).Nodup := by
  rw [List.nodup_iff_injective_get]
  intro a b hab
  have ha : (a : ℕ) < events.length := by simpa using a.isLt
  have hb : (b : ℕ) < events.length := by simpa using b.isLt
  have hid : idAt events a = idAt events b := by
    rw [idAt_eq ha, idAt_eq hb]
    simpa using hab
  have hsome := (h a ha).symm.trans ((congrArg (withId events) hid).trans (h b hb))
  exact Fin.ext (Option.some.inj hsome)

/-- What is settled after an answer, in order. -/
theorem settle_settled (events : List (Event κ)) (failed : List (ℕ × String))
    (successful : List ℕ) :
    (settle events (.ok ⟨failed.map fun f => (idAt events f.1, f.2),
      successful.map (idAt events)⟩)).filterMap settled =
      (failed.map Prod.fst ++ successful).filterMap fun i => withId events (idAt events i) := by
  rw [settle, List.filterMap_append, List.filterMap_append, List.flatMap_map, List.flatMap_map,
    List.filterMap_flatMap, List.filterMap_flatMap, List.filterMap_map]
  congr 1
  · induction failed with
    | nil => rfl
    | cons f failed ih =>
        rw [List.flatMap_cons, ih, List.filterMap_cons, Function.comp_apply]
        cases withId events (idAt events f.1) <;> rfl
  · induction successful with
    | nil => rfl
    | cons i successful ih =>
        rw [List.flatMap_cons, ih, List.filterMap_cons]
        cases withId events (idAt events i) <;> rfl

/-- What is acked after an answer. -/
theorem ack_mem_settle {failed : List (ℕ × String)} {successful : List ℕ} :
    .ack i ∈ settle events (.ok ⟨failed.map fun f => (idAt events f.1, f.2),
      successful.map (idAt events)⟩) ↔
      ∃ j ∈ successful, withId events (idAt events j) = some i := by
  rw [settle, List.mem_append, List.flatMap_map, List.flatMap_map, List.mem_flatMap,
    List.mem_flatMap]
  constructor
  · rintro (⟨f, -, hf⟩ | ⟨j, hj, hmem⟩)
    · cases hid : withId events (idAt events f.1) with
      | none => simp [hid] at hf
      | some k => simp [hid] at hf
    · cases hid : withId events (idAt events j) with
      | none => simp [hid] at hmem
      | some k =>
          simp only [hid, Option.elim_some, List.mem_cons, reduceCtorEq, SendEffect.ack.injEq,
            List.not_mem_nil, or_false, false_or] at hmem
          exact ⟨j, hj, hid.trans (congrArg some hmem.symm)⟩
  · rintro ⟨j, hj, hid⟩
    exact Or.inr ⟨j, hj, by simp [hid]⟩

/-- After a split of the events that were sent. -/
theorem settlesOnce_split_iff (hne : events ≠ []) {failed : List (ℕ × String)}
    {successful : List ℕ}
    (hperm : (failed.map Prod.fst ++ successful).Perm (sentEvents marshal events)) :
    SettlesOnce events (· ∈ successful) (send config marshal events
      (.ok ⟨failed.map fun f => (idAt events f.1, f.2), successful.map (idAt events)⟩)) ↔
      (∀ evt ∈ events, (marshal evt.payload).isOk = true) ∧ (events.map Event.eid).Nodup := by
  have hlt : ∀ i ∈ failed.map Prod.fst ++ successful, i < events.length := by
    intro i hi
    obtain ⟨h, -⟩ := mem_sentEvents.mp (hperm.mem_iff.mp hi)
    exact h
  unfold SettlesOnce
  rw [send_settled hne, settle_settled]
  constructor
  · intro hall
    -- an event that is settled is the first one with its id
    have hown : ∀ i < events.length, withId events (idAt events i) = some i := by
      intro i hi
      have hmem := List.count_pos_iff.mp (by rw [(hall i hi).1]; exact Nat.one_pos)
      obtain ⟨j, -, hj⟩ := List.mem_filterMap.mp hmem
      obtain ⟨-, heq, -⟩ := withId_eq_some.mp hj
      rw [heq, hj]
    refine ⟨fun evt hevt => ?_, nodup_of_withId hown⟩
    obtain ⟨i, hi, rfl⟩ := List.mem_iff_getElem.mp hevt
    have hmem := List.count_pos_iff.mp (by rw [(hall i hi).1]; exact Nat.one_pos)
    obtain ⟨j, hj, hid⟩ := List.mem_filterMap.mp hmem
    obtain rfl := Option.some.inj ((hown j (hlt j hj)).symm.trans hid)
    obtain ⟨h, hok⟩ := mem_sentEvents.mp (hperm.mem_iff.mp hj)
    exact hok
  · rintro ⟨hmarshal, hnodup⟩ i hi
    have hsame : (failed.map Prod.fst ++ successful).filterMap
        (fun i => withId events (idAt events i)) = failed.map Prod.fst ++ successful := by
      rw [List.filterMap_congr (g := some) fun j hj => withId_self hnodup (hlt j hj)]
      exact List.filterMap_some
    refine ⟨?_, ?_⟩
    · rw [hsame, hperm.count_eq, sentEvents_eq_range.mpr hmarshal]
      exact List.count_eq_one_of_mem List.nodup_range (List.mem_range.mpr hi)
    · rw [ack_mem_send hne, ack_mem_settle]
      constructor
      · rintro ⟨j, hj, hid⟩
        rw [withId_self hnodup (hlt j (List.mem_append_right _ hj))] at hid
        exact Option.some.inj hid ▸ hj
      · intro hmem
        exact ⟨i, hmem, withId_self hnodup hi⟩

/-- After an error of the call. -/
theorem settlesOnce_callError_iff (hne : events ≠ []) (err : String) :
    SettlesOnce events (fun _ => False) (send config marshal events (.error err)) ↔
      events.length = 1 := by
  unfold SettlesOnce
  rw [send_settled hne]
  obtain ⟨evt, rest, rfl⟩ := List.exists_cons_of_ne_nil hne
  constructor
  · intro hall
    by_contra hlength
    have hone : 1 < (evt :: rest).length := by
      rw [List.length_cons] at hlength ⊢
      omega
    have hfirst : (settle (evt :: rest) (.error err)).filterMap settled = [0] := rfl
    have hcount := (hall 1 hone).1
    rw [hfirst] at hcount
    exact absurd hcount (by decide)
  · intro hlength i hi
    obtain rfl : i = 0 := by omega
    refine ⟨rfl, ?_⟩
    rw [ack_mem_send hne]
    simp [settle]

/-- **SQS batches settle every event** exactly when, after an error of the call, there is one event
only, and else when all payloads can be marshalled and no two events share an id. -/
theorem settles_by_id_iff (config : SendConfig) (marshal : Value → Except String String)
    (events : List (Event κ)) (hne : events ≠ []) (outcome : Outcome (sentEvents marshal events)) :
    SettlesOnce events outcome.Accepted (send config marshal events (outcome.answer events)) ↔
      outcome.Settled marshal events := by
  cases outcome with
  | callError err => exact settlesOnce_callError_iff hne err
  | split failed successful hperm => exact settlesOnce_split_iff hne hperm

end Send

/-- An event with an id. -/
def sampleEvent (id : String) : Event Unit where
  metadata := none
  payload := .str id
  ctx := ()
  subTree := none
  tid := ⟨"acme", "tv"⟩
  eid := id
  userTraceId := ""
  created := 0
  response := 0
  responseStatus := 0

/-- Texts can be marshalled, but for the blank one. -/
def sampleMarshal : Value → Except String String
  | .str "" => .error "unsupported value"
  | .str s => .ok s
  | _ => .ok ""

/-- Of two events with ids of their own, one fails. -/
theorem settles_by_id_two :
    SettlesOnce [sampleEvent "a", sampleEvent "b"] (· ∈ [0])
      (send ⟨0⟩ sampleMarshal [sampleEvent "a", sampleEvent "b"]
        (.ok ⟨[("b", "too long")], ["a"]⟩)) :=
  (settles_by_id_iff ⟨0⟩ sampleMarshal [sampleEvent "a", sampleEvent "b"] (by simp)
    (.split [(1, "too long")] [0] (List.Perm.swap 0 1 []))).mpr
      ⟨by simp [sampleMarshal, sampleEvent, Except.isOk, Except.toBool], by decide⟩

/-- An event and its clone: the event is acked twice, and the clone is not settled.  Neither is an
event that cannot be marshalled, nor the second one when the call fails. -/
theorem clones_unsettled :
    (∃ clone, (Event.clone (AckTree.newAckTree : AckTree EventError) (sampleEvent "a") ()).2 =
        .ok clone ∧
      ∃ outcome : Outcome (sentEvents sampleMarshal [sampleEvent "a", clone]),
        ¬ SettlesOnce [sampleEvent "a", clone] outcome.Accepted
          (send ⟨0⟩ sampleMarshal [sampleEvent "a", clone]
            (outcome.answer [sampleEvent "a", clone]))) ∧
    (∃ outcome : Outcome (sentEvents sampleMarshal [sampleEvent "a", sampleEvent ""]),
      ¬ SettlesOnce [sampleEvent "a", sampleEvent ""] outcome.Accepted
        (send ⟨0⟩ sampleMarshal [sampleEvent "a", sampleEvent ""]
          (outcome.answer [sampleEvent "a", sampleEvent ""]))) ∧
    ∃ outcome : Outcome (sentEvents sampleMarshal [sampleEvent "a", sampleEvent "b"]),
      ¬ SettlesOnce [sampleEvent "a", sampleEvent "b"] outcome.Accepted
        (send ⟨0⟩ sampleMarshal [sampleEvent "a", sampleEvent "b"]
          (outcome.answer [sampleEvent "a", sampleEvent "b"])) := by
  refine ⟨⟨_, rfl, .split [] [0, 1] (.refl _), fun h => ?_⟩, ⟨.split [] [0] (.refl _), fun h => ?_⟩,
    ⟨.callError "timeout", fun h => ?_⟩⟩
  · exact absurd (h 1 (by decide)).1 (by decide +kernel)
  · exact absurd (h 1 (by decide)).1 (by decide +kernel)
  · exact absurd (h 1 (by decide)).1 (by decide +kernel)

end Sqs

/-! ## Kinesis -/

namespace Kinesis

namespace Sender

/-- The fields of `SenderConfig` that `send` reads. -/
structure SendConfig where
  partitionKey : String
  partitionKeyPath : String

/-- `kinesis.PutRecordsRequestEntry`. -/
structure Record where
  data : String
  partitionKey : String
  deriving DecidableEq, Repr

/-- The partition key of an event; `textAt` is the text that the event has at a path, if any. -/
def partitionKey (config : SendConfig) (textAt : Event κ → String → Option String)
    (uuid : String) (evt : Event κ) : String :=
  let partitionKey :=
    if config.partitionKeyPath ≠ "" then
      match textAt evt config.partitionKeyPath with
      | some pvstr => if pvstr ≠ "" then pvstr else config.partitionKey
      | none => config.partitionKey
    else config.partitionKey
  if partitionKey = "" then uuid else partitionKey

/-- The first loop of `send`: the records, and the errors that are logged.  `uuids` are the texts
that `uuid.New()` gives. -/
def addRecords (config : SendConfig) (marshal : Value → Except String String)
    (textAt : Event κ → String → Option String) (uuids : ℕ → String) :
    List (Event κ) → List SendEffect × List Record
  | [] => ([], [])
  | evt :: events =>
      let (effects, records) :=
        addRecords config marshal textAt (fun n => uuids (n + 1)) events
      match marshal evt.payload with
      | .error _ => (.logError :: effects, records)
      | .ok buf => (effects, ⟨buf, partitionKey config textAt (uuids 0) evt⟩ :: records)

/-- The loop over the results, each an error code or none, from the given index on. -/
def settleResults (events : List (Event κ)) : ℕ → List (Option String) → List SendEffect
  | _, [] => []
  | idx, errorCode :: results =>
      if idx < events.length then
        -- the error of the call, which is nil here, is the reason of the nack
        (if errorCode = none then [.logSuccess, .ack idx] else [.logError, .nack idx none]) ++
          settleResults events (idx + 1) results
      else [.panic]

/-- The rest of `send`, when the answer is there. -/
def settle (events : List (Event κ)) : Except String (List (Option String)) → List SendEffect
  | .error err => (List.range events.length).flatMap fun idx => [.logError, .nack idx (some err)]
  | .ok results => settleResults events 0 results

/-- `send`, with the answer of `PutRecords`. -/
def send (config : SendConfig) (marshal : Value → Except String String)
    (textAt : Event κ → String → Option String) (uuids : ℕ → String) (events : List (Event κ))
    (answer : Except String (List (Option String))) : List SendEffect :=
  if events = [] then []
  else (addRecords config marshal textAt uuids events).1 ++ settle events answer

/-- The record of an event was stored: the result at the position of its record has no error
code. -/
def Stored (sent : List ℕ) (answer : Except String (List (Option String))) (i : ℕ) : Prop :=
  ∃ (results : List (Option String)) (j : ℕ),
    answer = .ok results ∧ sent[j]? = some i ∧ results[j]? = some none

/-- One result for each record, unless the call fails. -/
def Answers (sent : List ℕ) (answer : Except String (List (Option String))) : Prop :=
  ∀ results, answer = .ok results → results.length = sent.length

section Send

variable {config : SendConfig} {marshal : Value → Except String String}
  {textAt : Event κ → String → Option String} {uuids : ℕ → String} {events : List (Event κ)}
  {answer : Except String (List (Option String))} {results : List (Option String)} {i idx : ℕ}

/-- The first loop settles nothing. -/
theorem addRecords_settled (config : SendConfig) (marshal : Value → Except String String)
    (textAt : Event κ → String → Option String) (uuids : ℕ → String) (events : List (Event κ)) :
    (addRecords config marshal textAt uuids events).1.filterMap settled = [] ∧
      ∀ i, .ack i ∉ (addRecords config marshal textAt uuids events).1 := by
  induction events generalizing uuids with
  | nil => exact ⟨rfl, fun i => List.not_mem_nil⟩
  | cons evt events ih =>
      rw [addRecords]
      cases marshal evt.payload with
      | error err =>
          refine ⟨(ih _).1, fun i hi => ?_⟩
          rcases List.mem_cons.mp hi with heq | hi
          · cases heq
          · exact (ih _).2 i hi
      | ok buf => exact ih _

theorem send_settled (hne : events ≠ []) :
    (send config marshal textAt uuids events answer).filterMap settled =
      (settle events answer).filterMap settled := by
  rw [send, if_neg hne, List.filterMap_append, (addRecords_settled ..).1, List.nil_append]

theorem ack_mem_send (hne : events ≠ []) :
    .ack i ∈ send config marshal textAt uuids events answer ↔ .ack i ∈ settle events answer := by
  rw [send, if_neg hne, List.mem_append]
  exact or_iff_right ((addRecords_settled ..).2 i)

/-- The events are settled in the order of the results. -/
theorem settleResults_settled (hlength : idx + results.length ≤ events.length) :
    (settleResults events idx results).filterMap settled = List.range' idx results.length := by
  induction results generalizing idx with
  | nil => rfl
  | cons errorCode results ih =>
      rw [List.length_cons] at hlength
      rw [settleResults, if_pos (by omega), List.filterMap_append, ih (by omega), List.length_cons,
        List.range'_succ]
      by_cases hcode : errorCode = none
      · rw [if_pos hcode]
        rfl
      · rw [if_neg hcode]
        rfl

/-- The event of a result without an error code is acked. -/
theorem ack_mem_settleResults (hlength : idx + results.length ≤ events.length) :
    .ack i ∈ settleResults events idx results ↔ ∃ j, i = idx + j ∧ results[j]? = some none := by
  induction results generalizing idx with
  | nil => simp [settleResults]
  | cons errorCode results ih =>
      rw [List.length_cons] at hlength
      rw [settleResults, if_pos (by omega), List.mem_append, ih (by omega)]
      constructor
      · rintro (hhead | ⟨j, rfl, hj⟩)
        · refine ⟨0, ?_⟩
          by_cases hcode : errorCode = none
          · rw [if_pos hcode] at hhead
            simpa [hcode] using hhead
          · rw [if_neg hcode] at hhead
            simp at hhead
        · exact ⟨j + 1, by omega, hj⟩
      · rintro ⟨j, rfl, hj⟩
        cases j with
        | zero =>
            rw [List.getElem?_cons_zero, Option.some.injEq] at hj
            exact Or.inl (by simp [hj])
        | succ j => exact Or.inr ⟨j, by omega, hj⟩

/-- After an error of the call every event is nacked. -/
theorem settlesOnce_callError (hne : events ≠ []) (sent : List ℕ) (err : String) :
    SettlesOnce events (Stored sent (.error err))
      (send config marshal textAt uuids events (.error err)) := by
  have hsettled : (settle events (.error err)).filterMap settled = List.range events.length := by
    rw [settle, List.filterMap_flatMap]
    exact List.flatMap_singleton' _
  intro i hi
  rw [send_settled hne, hsettled]
  refine ⟨List.count_eq_one_of_mem List.nodup_range (List.mem_range.mpr hi), ?_⟩
  rw [ack_mem_send hne]
  refine iff_of_false ?_ ?_
  · simp [settle]
  · rintro ⟨results, j, heq, -⟩
    cases heq

/-- After an answer with a result for each record, every event is settled exactly when there is a
record for each event. -/
theorem settlesOnce_results_iff (hne : events ≠ [])
    (hanswers : results.length = (sentEvents marshal events).length) :
    SettlesOnce events (Stored (sentEvents marshal events) (.ok results))
      (send config marshal textAt uuids events (.ok results)) ↔
      ∀ evt ∈ events, (marshal evt.payload).isOk = true := by
  have hle : (sentEvents marshal events).length ≤ events.length := by
    refine (List.length_filter_le _ _).trans ?_
    rw [List.length_range]
  have hlength : 0 + results.length ≤ events.length := by omega
  unfold SettlesOnce
  rw [send_settled hne, settle, settleResults_settled hlength]
  constructor
  · intro hall
    refine sentEvents_eq_range.mp ?_
    -- the last event has a result, so there are as many results as events
    have hpos : 0 < events.length := List.length_pos_iff.mpr hne
    have hmem := List.count_pos_iff.mp
      (by rw [(hall (events.length - 1) (by omega)).1]; exact Nat.one_pos)
    rw [List.mem_range'_1] at hmem
    refine List.Sublist.eq_of_length List.filter_sublist ?_
    have hsent : (sentEvents marshal events).length = events.length := by omega
    rw [List.length_range]
    exact hsent
  · intro hmarshal i hi
    have hsent := sentEvents_eq_range.mpr hmarshal
    rw [hsent, List.length_range] at hanswers
    refine ⟨List.count_eq_one_of_mem (List.nodup_range' ..) (by rw [List.mem_range'_1]; omega), ?_⟩
    rw [ack_mem_send hne, settle, ack_mem_settleResults hlength, hsent]
    constructor
    · rintro ⟨j, rfl, hj⟩
      exact ⟨results, j, rfl, by rw [List.getElem?_range (by omega), Nat.zero_add], hj⟩
    · rintro ⟨results', j, heq, hj, hcode⟩
      obtain rfl := Except.ok.inj heq
      obtain ⟨hlt, hget⟩ := List.getElem?_eq_some_iff.mp hj
      rw [List.getElem_range] at hget
      exact ⟨j, by omega, hcode⟩

/-- **Kinesis batches settle every event** exactly when the call fails or all payloads can be
marshalled. -/
theorem settles_by_position_iff (config : SendConfig) (marshal : Value → Except String String)
    (textAt : Event κ → String → Option String) (uuids : ℕ → String) (events : List (Event κ))
    (hne : events ≠ []) (hanswers : Answers (sentEvents marshal events) answer) :
    SettlesOnce events (Stored (sentEvents marshal events) answer)
        (send config marshal textAt uuids events answer) ↔
      (∃ err, answer = .error err) ∨ ∀ evt ∈ events, (marshal evt.payload).isOk = true := by
  cases answer with
  | error err =>
      exact iff_of_true (settlesOnce_callError hne _ err) (Or.inl ⟨err, rfl⟩)
  | ok results =>
      rw [settlesOnce_results_iff hne (hanswers results rfl)]
      refine ⟨Or.inr, fun h => ?_⟩
      rcases h with ⟨err, heq⟩ | hmarshal
      · cases heq
      · exact hmarshal

end Send

open Sqs (sampleEvent sampleMarshal)

/-- Of two records, the second is not stored. -/
theorem settles_by_position_two :
    SettlesOnce [sampleEvent "a", sampleEvent "b"] (Stored [0, 1] (.ok [none, some "throttled"]))
      (send ⟨"", ""⟩ sampleMarshal (fun _ _ => none) (fun _ => "key")
        [sampleEvent "a", sampleEvent "b"] (.ok [none, some "throttled"])) :=
  (settles_by_position_iff ⟨"", ""⟩ sampleMarshal (fun _ _ => none) (fun _ => "key")
    [sampleEvent "a", sampleEvent "b"] (by simp) (fun results h => by
      obtain rfl := Except.ok.inj h
      rfl)).mpr (Or.inr (by simp [sampleMarshal, sampleEvent, Except.isOk, Except.toBool]))

/-- The first of two payloads cannot be marshalled: its event is acked for the record of the
second, whose event is not settled. -/
theorem shifted_unsettled :
    ¬ SettlesOnce [sampleEvent "", sampleEvent "b"]
      (Stored (sentEvents sampleMarshal [sampleEvent "", sampleEvent "b"]) (.ok [none]))
      (send ⟨"", ""⟩ sampleMarshal (fun _ _ => none) (fun _ => "key")
        [sampleEvent "", sampleEvent "b"] (.ok [none])) := by
  intro h
  exact absurd (h 1 (by decide)).1 (by decide +kernel)

end Sender

end Kinesis
