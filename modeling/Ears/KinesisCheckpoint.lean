/-
# Checkpoints of a shard (`pkg/checkpoint`, `pkg/plugins/kinesis/receiver.go`)

The shared-throughput receiver of a shard makes one event of each record that it fetches.  When
an event is settled, by an ack or a nack, its callback stores a sequence number as the checkpoint
of the shard, and a receiver that starts over reads on after the stored number.  The number is
that of the record that the loop variable `msg` holds when the callback runs: all events of a
batch share the variable, and it moves on with the loop.  The Dynamo manager lets only one call
through in `UpdateFrequencySeconds`, and writes after it has released its lock.

So the stored number may pass records whose events are still in flight, and a late callback may
set it back.  `safe_of_orderly` says in which order the receiver and the callbacks must go on so
that neither happens.
-/
import Ears.Runs

namespace Checkpoint

/-! ## Checkpoint managers -/

/-- Where the checkpoints are kept. -/
inductive StorageType where
  | dynamodb
  | inmemory
  deriving DecidableEq, Repr

/-- A checkpoint manager and the table behind it, for the id of one shard.  Sequence numbers are
decimal numerals, ordered by their value; the blank one is `none`.  `checkpoint` also holds the
time of the update, which the in-memory manager does not keep. -/
structure CheckpointManager where
  storageType : StorageType
  updateFrequencySeconds : ℤ
  lastUpdate : Option ℕ
  checkpoint : Option (ℕ × ℕ)
  deriving DecidableEq, Repr

/-- `int(d.Seconds())` for a duration in nanoseconds. -/
def seconds (d : ℕ) : ℕ := d / 1000000000

/-- `time.Since` of the zero time: the longest duration. -/
def maxDuration : ℕ := 2 ^ 63 - 1

namespace CheckpointManager

variable (cm : CheckpointManager)

/-- `GetCheckpoint`: the number and the time of its update, `none` for the zero time. -/
def getCheckpoint (now : ℕ) : Option ℕ × Option ℕ :=
  match cm.storageType with
  | .dynamodb => (cm.checkpoint.map Prod.fst, cm.checkpoint.map Prod.snd)
  | .inmemory => (cm.checkpoint.map Prod.fst, some now)

/-- Whether the Dynamo manager lets an update through. -/
def update (now : ℕ) : Bool :=
  match cm.lastUpdate with
  | none => true
  | some lastUpdate => decide (cm.updateFrequencySeconds ≤ (seconds (now - lastUpdate) : ℕ))

end CheckpointManager

/-! ## The receiver of a shard -/

/-- A record of the shard. -/
structure Record where
  sequenceNumber : ℕ
  data : List UInt8
  deriving DecidableEq, Repr

/-- What the callback of an event does next: it is not called yet, it is about to read the loop
variable, it calls `SetCheckpoint` with the number it has read, it updates the item (with the time
of the update), or it is done. -/
inductive Phase where
  | inFlight
  | settled
  | calling (sequenceNumber : ℕ)
  | updating (sequenceNumber timestamp : ℕ)
  | returned
  deriving DecidableEq, Repr

/-- Whether the callback has read the loop variable. -/
def Phase.hasRead : Phase → Bool
  | .inFlight => false
  | .settled => false
  | _ => true

/-- The number that the callback has read and may still store. -/
def Phase.carried : Phase → Option ℕ
  | .calling sequenceNumber => some sequenceNumber
  | .updating sequenceNumber _ => some sequenceNumber
  | _ => none

/-- An event that was given to the routes: the number of its record, the loop that made it, and
how far its callback is. -/
structure Delivery where
  sequenceNumber : ℕ
  loop : ℕ
  phase : Phase
  deriving DecidableEq, Repr

/-- The fields of `ReceiverConfig` that say where to start. -/
structure ReceiverConfig where
  shardIteratorType : String
  useCheckpoint : Bool
  maxCheckpointAgeSeconds : ℤ
  startingSequenceNumber : String
  deriving DecidableEq, Repr

/-- The start of an iterator: as configured, at a configured number, or after a checkpoint. -/
inductive ShardIteratorInput where
  | configured (shardIteratorType : String)
  | atSequenceNumber (startingSequenceNumber : String)
  | afterSequenceNumber (sequenceId : Option ℕ)
  deriving DecidableEq, Repr

/-- The receiver of one shard: the input of its iterator, once it has one, the records of the
last batch that are still to be handled, the variable `msg` of the loop over each batch, and the
events it has made, first one first. -/
structure ShardReceiver where
  config : ReceiverConfig
  clock : ℕ
  manager : CheckpointManager
  iterator : Option ShardIteratorInput
  records : List Record
  msgs : List (Option Record)
  events : List Delivery
  deriving DecidableEq, Repr

/-- Time passes, the receiver asks for an iterator (with or without an error of `GetCheckpoint`),
fetches a batch or takes the next record of it, an event is acked or nacked, its callback reads
the loop variable and calls `SetCheckpoint`, `SetCheckpoint` gets its lock, or the update of the
item is done or fails. -/
inductive Action where
  | tick (d : ℕ)
  | getShardIterator (readOk : Bool)
  | getRecords (records : List Record)
  | nextRecord
  | settle (i : ℕ) (acked : Bool)
  | callSetCheckpoint (i : ℕ)
  | setCheckpoint (i : ℕ)
  | updateItem (i : ℕ) (ok : Bool)
  deriving DecidableEq, Repr

namespace ShardReceiver

variable (s : ShardReceiver)

/-- Where a receiver that starts over reads on. -/
def shardIteratorInput (readOk : Bool) : ShardIteratorInput :=
  if s.config.useCheckpoint then
    if readOk then
      let (sequenceId, lastUpdate) := s.manager.getCheckpoint s.clock
      let age := lastUpdate.elim maxDuration fun t => s.clock - t
      if (seconds age : ℕ) ≤ s.config.maxCheckpointAgeSeconds then .afterSequenceNumber sequenceId
      else .configured s.config.shardIteratorType
    else .configured s.config.shardIteratorType
  else if s.config.startingSequenceNumber ≠ "" then
    .atSequenceNumber s.config.startingSequenceNumber
  else .configured s.config.shardIteratorType

/-- The callback of an event goes on. -/
def setPhase (i : ℕ) (p : Phase) : ShardReceiver :=
  { s with events := s.events.modify i fun e => { e with phase := p } }

/-- Store a number. -/
def store (q timestamp : ℕ) : ShardReceiver :=
  { s with manager := { s.manager with checkpoint := some (q, timestamp) } }

/-- The loop takes a record: its variable changes, and all callbacks of the batch see it. -/
def advance (msg : Record) (records : List Record) : ShardReceiver :=
  { s with records := records, msgs := s.msgs.set (s.msgs.length - 1) (some msg) }

/-- `SetCheckpoint`, up to the update of the item for the Dynamo manager. -/
def setCheckpoint (i q : ℕ) : ShardReceiver :=
  match s.manager.storageType with
  | .inmemory => (s.store q s.clock).setPhase i .returned
  | .dynamodb =>
      if s.manager.update s.clock then
        { s with manager := { s.manager with lastUpdate := some s.clock } }.setPhase i
          (.updating q s.clock)
      else s.setPhase i .returned

/-- A step.  `unmarshals` says which data `json.Unmarshal` takes. -/
def step (unmarshals : List UInt8 → Bool) (s : ShardReceiver) : Action → Option ShardReceiver
  | .tick d => some { s with clock := s.clock + d }
  | .getShardIterator readOk =>
      if s.records = [] then some { s with iterator := some (s.shardIteratorInput readOk) }
      else none
  | .getRecords records =>
      -- each loop over a batch has a variable of its own
      if s.records = [] ∧ s.iterator.isSome then
        some { s with records := records, msgs := s.msgs ++ [none] }
      else none
  | .nextRecord =>
      match s.records with
      | [] => none
      | msg :: records =>
          -- records without data, or that cannot be parsed, make no event
          if msg.data = [] ∨ unmarshals msg.data = false then some (s.advance msg records)
          else
            some { s.advance msg records with
              events := s.events ++ [⟨msg.sequenceNumber, s.msgs.length - 1, .inFlight⟩] }
  | .settle i _ =>
      -- the callbacks for ack and nack store the same checkpoint
      match s.events[i]? with
      | some ⟨_, _, .inFlight⟩ => some (s.setPhase i .settled)
      | _ => none
  | .callSetCheckpoint i =>
      match s.events[i]? with
      | some ⟨_, loop, .settled⟩ =>
          match s.msgs[loop]? with
          | some (some msg) => some (s.setPhase i (.calling msg.sequenceNumber))
          | _ => none
      | _ => none
  | .setCheckpoint i =>
      match s.events[i]? with
      | some ⟨_, _, .calling q⟩ => some (s.setCheckpoint i q)
      | _ => none
  | .updateItem i ok =>
      match s.events[i]? with
      | some ⟨_, _, .updating q timestamp⟩ =>
          some ((if ok then s.store q timestamp else s).setPhase i .returned)
      | _ => none

/-! ## The property, and an order that keeps it -/

/-- The stored number. -/
def stored : Option ℕ := s.manager.checkpoint.map Prod.fst

/-- An event was made of the record with this number. -/
def Delivered (q : ℕ) : Prop := ∃ e ∈ s.events, e.sequenceNumber = q

/-- An event of the record with this number was acked or nacked. -/
def Settled (q : ℕ) : Prop := ∃ e ∈ s.events, e.sequenceNumber = q ∧ e.phase ≠ .inFlight

instance (q : ℕ) : Decidable (s.Delivered q) :=
  inferInstanceAs (Decidable (∃ e ∈ s.events, e.sequenceNumber = q))

instance (q : ℕ) : Decidable (s.Settled q) :=
  inferInstanceAs (Decidable (∃ e ∈ s.events, e.sequenceNumber = q ∧ e.phase ≠ .inFlight))

/-- Every delivered record up to this number is settled. -/
def Covers (c : ℕ) : Prop := ∀ q, s.Delivered q → q ≤ c → s.Settled q

/-- The checkpoint passes no unsettled record. -/
def Safe : Prop := ∀ c, s.stored = some c → s.Covers c

/-- The stored number of the first state is not above that of the second. -/
def StoredLe (s t : ShardReceiver) : Prop :=
  ∀ c, s.stored = some c → ∃ d, t.stored = some d ∧ c ≤ d

/-- What the order of the steps must meet.  Records are fetched in the order of their numbers,
above the checkpoint and above those fetched before.  A callback reads the loop variable when all
events that were made of its batch and of the batches before are settled, when no other callback
is between its reading and the end of its `SetCheckpoint`, and before the callbacks of later
batches read. -/
def Orderly : Action → Prop
  | .getRecords records =>
      records.Pairwise (fun r r' => r.sequenceNumber < r'.sequenceNumber) ∧
        ∀ r ∈ records, (∀ c ∈ s.stored, c < r.sequenceNumber) ∧
          ∀ m ∈ s.msgs, ∀ msg ∈ m, msg.sequenceNumber < r.sequenceNumber
  | .callSetCheckpoint i =>
      ∀ e ∈ s.events[i]?, ∀ e' ∈ s.events,
        (e'.loop ≤ e.loop → e'.phase ≠ .inFlight) ∧ e'.phase.carried = none ∧
          (e.loop < e'.loop → e'.phase.hasRead = false)
  | _ => True

variable {s} {t : ShardReceiver} {unmarshals : List UInt8 → Bool} {a : Action} {i q ts : ℕ}
  {p : Phase} {e : Delivery} {msg : Record} {records : List Record}

/-! ## What a step changes -/

@[simp] theorem setPhase_stored : (s.setPhase i p).stored = s.stored := rfl

@[simp] theorem store_stored : (s.store q ts).stored = some q := rfl

@[simp] theorem store_events : (s.store q ts).events = s.events := rfl

/-- The events after a callback has gone on, by their position. -/
theorem setPhase_getElem? (j : ℕ) : (s.setPhase i p).events[j]? =
    if i = j then s.events[j]?.map fun e => { e with phase := p } else s.events[j]? := by
  rw [setPhase, List.getElem?_modify]
  split <;> simp

/-- The callback that goes on has the new phase. -/
theorem setPhase_self (hi : s.events[i]? = some e) :
    (s.setPhase i p).events[i]? = some { e with phase := p } := by
  rw [setPhase_getElem?, if_pos rfl, hi]
  rfl

/-- The other callbacks are as they were. -/
theorem setPhase_of_ne {j : ℕ} (hij : i ≠ j) : (s.setPhase i p).events[j]? = s.events[j]? := by
  rw [setPhase_getElem?, if_neg hij]

/-- An event after a callback has gone on is as it was, or that of the callback. -/
theorem setPhase_cases {j : ℕ} {e' : Delivery} (hj : (s.setPhase i p).events[j]? = some e') :
    (j ≠ i ∧ s.events[j]? = some e') ∨
      (j = i ∧ ∃ e, s.events[i]? = some e ∧ e' = { e with phase := p }) := by
  by_cases hij : i = j
  · subst hij
    rw [setPhase_getElem?, if_pos rfl] at hj
    obtain ⟨e, he, rfl⟩ := Option.map_eq_some_iff.mp hj
    exact .inr ⟨rfl, e, he, rfl⟩
  · rw [setPhase_of_ne hij] at hj
    exact .inl ⟨Ne.symm hij, hj⟩

/-- The events are those of the same records and batches as before; only the phase of one may
differ. -/
theorem exists_of_mem_setPhase {e' : Delivery} (he' : e' ∈ (s.setPhase i p).events) :
    ∃ e ∈ s.events, e.loop = e'.loop ∧ e.sequenceNumber = e'.sequenceNumber := by
  obtain ⟨j, hj⟩ := List.mem_iff_getElem?.mp he'
  rcases setPhase_cases hj with ⟨-, hj⟩ | ⟨-, e, hi, rfl⟩
  · exact ⟨e', List.mem_of_getElem? hj, rfl, rfl⟩
  · exact ⟨e, List.mem_of_getElem? hi, rfl, rfl⟩

/-- Every event is there after a callback has gone on, with its phase or that of the callback. -/
theorem exists_setPhase (he : e ∈ s.events) : ∃ e' ∈ (s.setPhase i p).events, e'.loop = e.loop ∧
    e'.sequenceNumber = e.sequenceNumber ∧
      (e'.phase = e.phase ∨ s.events[i]? = some e ∧ e'.phase = p) := by
  obtain ⟨j, hj⟩ := List.mem_iff_getElem?.mp he
  by_cases hij : i = j
  · subst hij
    exact ⟨_, List.mem_of_getElem? (setPhase_self hj), rfl, rfl, .inr ⟨hj, rfl⟩⟩
  · exact ⟨e, List.mem_of_getElem? ((setPhase_of_ne hij).trans hj), rfl, rfl, .inl rfl⟩

/-- A callback that goes on belongs to the record it was made for. -/
@[simp] theorem setPhase_delivered : (s.setPhase i p).Delivered q ↔ s.Delivered q := by
  constructor
  · rintro ⟨e', he', rfl⟩
    obtain ⟨e, he, -, hseq⟩ := exists_of_mem_setPhase he'
    exact ⟨e, he, hseq⟩
  · rintro ⟨e, he, rfl⟩
    obtain ⟨e', he', -, hseq, -⟩ := exists_setPhase he
    exact ⟨e', he', hseq⟩

/-- What is settled stays settled. -/
theorem settled_setPhase (hp : p ≠ .inFlight) (h : s.Settled q) : (s.setPhase i p).Settled q := by
  obtain ⟨e, he, rfl, hphase⟩ := h
  obtain ⟨e', he', -, hseq, hsame | ⟨-, hset⟩⟩ := exists_setPhase he
  · exact ⟨e', he', hseq, by rwa [hsame]⟩
  · exact ⟨e', he', hseq, by rwa [hset]⟩

/-- The records up to a number stay settled when a callback goes on. -/
theorem Covers.setPhase (h : s.Covers q) (hp : p ≠ .inFlight) : (s.setPhase i p).Covers q :=
  fun q' hq' hle => settled_setPhase hp (h q' (setPhase_delivered.mp hq') hle)

theorem advance_getElem? (k : ℕ) : (s.advance msg records).msgs[k]? =
    if k = s.msgs.length - 1 ∧ s.msgs ≠ [] then some (some msg) else s.msgs[k]? := by
  rw [advance, List.getElem?_set]
  by_cases hne : s.msgs = []
  · simp [hne]
  · have hpos := List.length_pos_iff.mpr hne
    by_cases hk : s.msgs.length - 1 = k
    · rw [if_pos hk, if_pos (by omega), if_pos ⟨hk.symm, hne⟩]
    · rw [if_neg hk, if_neg (fun h => hk h.1.symm)]

/-! ## The invariant -/

/-- What holds in runs whose records and callbacks come in order: loop variables follow the order of
the batches and are below what is still to be delivered; a number that a callback carries may be
stored; and the stored number is at or below the variables that callbacks may still read. -/
structure InOrder (s : ShardReceiver) : Prop where
  msgs_ne : s.records ≠ [] → s.msgs ≠ []
  ascending : s.records.Pairwise fun r r' => r.sequenceNumber < r'.sequenceNumber
  loop_lt : ∀ e ∈ s.events, e.loop < s.msgs.length
  msgs_mono : ∀ (k k' : ℕ) (msg msg' : Record), k ≤ k' → s.msgs[k]? = some (some msg) →
    s.msgs[k']? = some (some msg') → msg.sequenceNumber ≤ msg'.sequenceNumber
  msgs_events : ∀ (k : ℕ) (msg : Record), s.msgs[k]? = some (some msg) → ∀ e ∈ s.events, k < e.loop →
    msg.sequenceNumber < e.sequenceNumber
  msgs_records : ∀ (k : ℕ) (msg : Record), s.msgs[k]? = some (some msg) → ∀ r ∈ s.records,
    msg.sequenceNumber < r.sequenceNumber
  stored_records : ∀ c, s.stored = some c → ∀ r ∈ s.records, c < r.sequenceNumber
  carried : ∀ e ∈ s.events, ∀ q, e.phase.carried = some q → s.Covers q ∧
    (∀ c, s.stored = some c → c ≤ q) ∧
      ∃ msg : Record, s.msgs[e.loop]? = some (some msg) ∧ q ≤ msg.sequenceNumber
  alone : ∀ (i j : ℕ) (e e' : Delivery), s.events[i]? = some e → s.events[j]? = some e' →
    e.phase.carried ≠ none → e'.phase.carried ≠ none → i = j
  stored_msgs : ∀ c, s.stored = some c → ∀ (k : ℕ) (msg : Record), s.msgs[k]? = some (some msg) →
    (∀ e ∈ s.events, k < e.loop → e.phase.hasRead = false) → c ≤ msg.sequenceNumber
  safe : s.Safe

/-- The rest of the state does not count. -/
theorem InOrder.congr (hs : s.InOrder) (hrecords : t.records = s.records)
    (hmsgs : t.msgs = s.msgs) (hevents : t.events = s.events) (hstored : t.stored = s.stored) :
    t.InOrder := by
  have hcovers : ∀ q, s.Covers q → t.Covers q := by
    intro q hq
    unfold Covers Delivered Settled at hq ⊢
    rwa [hevents]
  constructor
  · rw [hrecords, hmsgs]
    exact hs.msgs_ne
  · rw [hrecords]
    exact hs.ascending
  · rw [hevents, hmsgs]
    exact hs.loop_lt
  · rw [hmsgs]
    exact hs.msgs_mono
  · rw [hevents, hmsgs]
    exact hs.msgs_events
  · rw [hrecords, hmsgs]
    exact hs.msgs_records
  · rw [hrecords, hstored]
    exact hs.stored_records
  · rw [hevents, hmsgs, hstored]
    exact fun e he q hq => ⟨hcovers q (hs.carried e he q hq).1, (hs.carried e he q hq).2⟩
  · rw [hevents]
    exact hs.alone
  · rw [hevents, hmsgs, hstored]
    exact hs.stored_msgs
  · intro c hc
    exact hcovers c (hs.safe c (hstored ▸ hc))

/-- A callback goes on.  What it has read then may be stored, and nobody else carries a number. -/
theorem InOrder.setPhase (hs : s.InOrder) (hi : s.events[i]? = some e) (hp : p ≠ .inFlight)
    (hread : e.phase.hasRead = true → p.hasRead = true)
    (hcarried : ∀ q, p.carried = some q → s.Covers q ∧ (∀ c, s.stored = some c → c ≤ q) ∧
      ∃ msg, s.msgs[e.loop]? = some (some msg) ∧ q ≤ msg.sequenceNumber)
    (halone : p.carried ≠ none → ∀ j e', s.events[j]? = some e' → e'.phase.carried ≠ none → j = i) :
    (s.setPhase i p).InOrder := by
  constructor
  · exact hs.msgs_ne
  · exact hs.ascending
  · intro e' he'
    obtain ⟨e₀, he₀, hloop, -⟩ := exists_of_mem_setPhase he'
    exact hloop ▸ hs.loop_lt e₀ he₀
  · exact hs.msgs_mono
  · intro k msg hk e' he' hlt
    obtain ⟨e₀, he₀, hloop, hseq⟩ := exists_of_mem_setPhase he'
    exact hseq ▸ hs.msgs_events k msg hk e₀ he₀ (hloop ▸ hlt)
  · exact hs.msgs_records
  · exact hs.stored_records
  · intro e' he' q hq
    obtain ⟨j, hj⟩ := List.mem_iff_getElem?.mp he'
    rcases setPhase_cases hj with ⟨-, hj⟩ | ⟨-, e₀, hi', rfl⟩
    · obtain ⟨hcov, hrest⟩ := hs.carried e' (List.mem_of_getElem? hj) q hq
      exact ⟨hcov.setPhase hp, hrest⟩
    · obtain rfl := Option.some.inj (hi.symm.trans hi')
      obtain ⟨hcov, hrest⟩ := hcarried q hq
      exact ⟨hcov.setPhase hp, hrest⟩
  · intro j j' e₁ e₂ hj hj' hc₁ hc₂
    rcases setPhase_cases hj with ⟨-, hold₁⟩ | ⟨rfl, _, -, rfl⟩ <;>
      rcases setPhase_cases hj' with ⟨-, hold₂⟩ | ⟨rfl, _, -, rfl⟩
    · exact hs.alone j j' e₁ e₂ hold₁ hold₂ hc₁ hc₂
    · exact halone hc₂ j e₁ hold₁ hc₁
    · exact (halone hc₁ j' e₂ hold₂ hc₂).symm
    · rfl
  · intro c hc k msg hk hnone
    refine hs.stored_msgs c hc k msg hk fun e₀ he₀ hlt => ?_
    obtain ⟨e', he', hloop, -, hphase⟩ := exists_setPhase he₀
    have hfalse := hnone e' he' (hloop ▸ hlt)
    rcases hphase with hsame | ⟨hi', hset⟩
    · rwa [hsame] at hfalse
    · obtain rfl := Option.some.inj (hi.symm.trans hi')
      rw [hset] at hfalse
      exact Bool.eq_false_iff.mpr fun hr => absurd (hread hr) (by simp [hfalse])
  · exact fun c hc => (hs.safe c hc).setPhase hp

/-- A number is stored that was carried alone. -/
theorem InOrder.store (hs : s.InOrder) (hcov : s.Covers q)
    (hrecords : ∀ r ∈ s.records, q < r.sequenceNumber)
    (hmsgs : ∀ k msg, s.msgs[k]? = some (some msg) →
      (∀ e ∈ s.events, k < e.loop → e.phase.hasRead = false) → q ≤ msg.sequenceNumber)
    (halone : ∀ e ∈ s.events, e.phase.carried = none) : (s.store q ts).InOrder where
  msgs_ne := hs.msgs_ne
  ascending := hs.ascending
  loop_lt := hs.loop_lt
  msgs_mono := hs.msgs_mono
  msgs_events := hs.msgs_events
  msgs_records := hs.msgs_records
  stored_records c hc r hr := by
    obtain rfl := Option.some.inj hc
    exact hrecords r hr
  carried e he q' hq' := by
    rw [halone e he] at hq'
    exact nomatch hq'
  alone := hs.alone
  stored_msgs c hc := by
    obtain rfl := Option.some.inj hc
    exact hmsgs
  safe c hc := by
    obtain rfl := Option.some.inj hc
    exact hcov

/-- The loop variable takes the next record. -/
theorem InOrder.advance (hs : s.InOrder) (hr : s.records = msg :: records) :
    (s.advance msg records).InOrder := by
  have hne : s.msgs ≠ [] := hs.msgs_ne (by simp [hr])
  have hlen : (s.advance msg records).msgs.length = s.msgs.length := by simp [ShardReceiver.advance]
  have hpos := List.length_pos_iff.mpr hne
  have hmem : ∀ r ∈ records, r ∈ s.records := fun r hr' => hr ▸ List.mem_cons_of_mem _ hr'
  have hasc := hs.ascending
  rw [hr, List.pairwise_cons] at hasc
  -- the variable of a loop is the record, or as before
  have hmsgs : ∀ (k : ℕ) (m : Record), (s.advance msg records).msgs[k]? = some (some m) →
      (k = s.msgs.length - 1 ∧ m = msg) ∨ (k ≠ s.msgs.length - 1 ∧ s.msgs[k]? = some (some m)) := by
    intro k m hk
    rw [advance_getElem?] at hk
    by_cases hlast : k = s.msgs.length - 1
    · rw [if_pos ⟨hlast, hne⟩, Option.some.injEq, Option.some.injEq] at hk
      exact .inl ⟨hlast, hk.symm⟩
    · rw [if_neg fun h => hlast h.1] at hk
      exact .inr ⟨hlast, hk⟩
  have hbelow : ∀ (k : ℕ) (m : Record), s.msgs[k]? = some (some m) →
      m.sequenceNumber < msg.sequenceNumber :=
    fun k m hk => hs.msgs_records k m hk msg (by simp [hr])
  constructor
  · exact fun _ hnil => hne (List.length_eq_zero_iff.mp (by rw [← hlen, hnil, List.length_nil]))
  · exact hasc.2
  · exact fun e he => hlen ▸ hs.loop_lt e he
  · intro k k' m m' hle hk hk'
    rcases hmsgs k m hk with ⟨hlast, rfl⟩ | ⟨-, hold⟩ <;>
      rcases hmsgs k' m' hk' with ⟨-, rfl⟩ | ⟨hne', hold'⟩
    · exact le_rfl
    · have hlt := (List.getElem?_eq_some_iff.mp hold').1
      omega
    · exact (hbelow k m hold).le
    · exact hs.msgs_mono k k' m m' hle hold hold'
  · intro k m hk e he hlt
    rcases hmsgs k m hk with ⟨rfl, rfl⟩ | ⟨-, hk⟩
    · have := hs.loop_lt e he
      omega
    · exact hs.msgs_events k m hk e he hlt
  · intro k m hk r hr'
    rcases hmsgs k m hk with ⟨-, rfl⟩ | ⟨-, hk⟩
    · exact hasc.1 r hr'
    · exact hs.msgs_records k m hk r (hmem r hr')
  · exact fun c hc r hr' => hs.stored_records c hc r (hmem r hr')
  · intro e he q hq
    obtain ⟨hcov, hle, m, hm, hqm⟩ := hs.carried e he q hq
    refine ⟨hcov, hle, ?_⟩
    rw [advance_getElem?]
    split
    · exact ⟨msg, rfl, hqm.trans (hbelow _ m hm).le⟩
    · exact ⟨m, hm, hqm⟩
  · exact hs.alone
  · intro c hc k m hk hnone
    rcases hmsgs k m hk with ⟨-, rfl⟩ | ⟨-, hk⟩
    · exact (hs.stored_records c hc m (by simp [hr])).le
    · exact hs.stored_msgs c hc k m hk hnone
  · exact hs.safe

/-- An event is made of the record that the loop variable holds. -/
theorem InOrder.deliver (hs : s.InOrder) (hne : s.msgs ≠ []) (hr : ∀ c, s.stored = some c → c < q)
    (hcarried : ∀ e ∈ s.events, ∀ q', e.phase.carried = some q' → q' < q)
    (hmsgs : ∀ k m, k < s.msgs.length - 1 → s.msgs[k]? = some (some m) → m.sequenceNumber < q) :
    InOrder { s with events := s.events ++ [⟨q, s.msgs.length - 1, .inFlight⟩] } := by
  have hpos := List.length_pos_iff.mpr hne
  have hmem : ∀ e ∈ s.events ++ [(⟨q, s.msgs.length - 1, .inFlight⟩ : Delivery)],
      e ∈ s.events ∨ e = ⟨q, s.msgs.length - 1, .inFlight⟩ := by
    intro e he
    simpa using he
  have hcovers : ∀ c, c < q → s.Covers c →
      Covers { s with events := s.events ++ [⟨q, s.msgs.length - 1, .inFlight⟩] } c := by
    rintro c hcq hc q' ⟨e, he, rfl⟩ hle
    rcases hmem e he with he | rfl
    · obtain ⟨e', he', hseq, hphase⟩ := hc _ ⟨e, he, rfl⟩ hle
      exact ⟨e', List.mem_append_left _ he', hseq, hphase⟩
    · exact absurd hle (by simpa using hcq)
  constructor
  · exact hs.msgs_ne
  · exact hs.ascending
  · intro e he
    rcases hmem e he with he | rfl
    · exact hs.loop_lt e he
    · exact Nat.sub_lt hpos Nat.one_pos
  · exact hs.msgs_mono
  · intro k m hk e he hlt
    rcases hmem e he with he | rfl
    · exact hs.msgs_events k m hk e he hlt
    · exact hmsgs k m hlt hk
  · exact hs.msgs_records
  · exact hs.stored_records
  · intro e he q' hq'
    rcases hmem e he with he | rfl
    · obtain ⟨hcov, hrest⟩ := hs.carried e he q' hq'
      exact ⟨hcovers q' (hcarried e he q' hq') hcov, hrest⟩
    · exact nomatch hq'
  · have hold : ∀ (j : ℕ) (e : Delivery),
        (s.events ++ [(⟨q, s.msgs.length - 1, .inFlight⟩ : Delivery)])[j]? = some e →
        e.phase.carried ≠ none → s.events[j]? = some e := by
      intro j e hj hne
      rw [List.getElem?_append] at hj
      split at hj
      · exact hj
      · obtain rfl := List.mem_singleton.mp (List.mem_of_getElem? hj)
        exact absurd rfl hne
    exact fun i j e e' hi hj hc hc' => hs.alone i j e e' (hold i e hi hc) (hold j e' hj hc') hc hc'
  · exact fun c hc k m hk hnone => hs.stored_msgs c hc k m hk fun e he =>
      hnone e (List.mem_append_left _ he)
  · exact fun c hc => hcovers c (hr c hc) (hs.safe c hc)

/-! ## Runs -/

theorem StoredLe.refl (s : ShardReceiver) : StoredLe s s := fun c hc => ⟨c, hc, le_rfl⟩

theorem StoredLe.trans {s t u : ShardReceiver} (h : StoredLe s t) (h' : StoredLe t u) :
    StoredLe s u := by
  intro c hc
  obtain ⟨d, hd, hcd⟩ := h c hc
  obtain ⟨e, he, hde⟩ := h' d hd
  exact ⟨e, he, hcd.trans hde⟩

/-- The loop takes the next record, with or without an event. -/
theorem InOrder.nextRecord (hs : s.InOrder) (h : s.step unmarshals .nextRecord = some t) :
    t.InOrder ∧ t.stored = s.stored := by
  cases hr : s.records with
  | nil => simp [step, hr] at h
  | cons msg records =>
      have hne : s.msgs ≠ [] := hs.msgs_ne (by simp [hr])
      have hmsg : msg ∈ s.records := by simp [hr]
      have hadvance := hs.advance hr
      have hlen : (s.advance msg records).msgs.length = s.msgs.length := by
        simp [ShardReceiver.advance]
      by_cases hskip : msg.data = [] ∨ unmarshals msg.data = false
      · simp only [step, hr, if_pos hskip, Option.some.injEq] at h
        exact h ▸ ⟨hadvance, rfl⟩
      · simp only [step, hr, if_neg hskip, Option.some.injEq] at h
        subst h
        refine ⟨?_, rfl⟩
        rw [← hlen]
        refine hadvance.deliver (fun hnil => ?_) ?_ ?_ ?_
        · exact hne (List.length_eq_zero_iff.mp (by rw [← hlen, hnil, List.length_nil]))
        · exact fun c hc => hs.stored_records c hc msg hmsg
        · intro e he q hq
          obtain ⟨-, -, m, hm, hqm⟩ := hs.carried e he q hq
          exact hqm.trans_lt (hs.msgs_records _ m hm msg hmsg)
        · intro k m hk hm
          rw [advance_getElem?, if_neg fun h => by omega] at hm
          exact hs.msgs_records k m hm msg hmsg

/-- A callback reads the loop variable in order: it may store what it has read. -/
theorem InOrder.callSetCheckpoint (hs : s.InOrder) (ho : s.Orderly (.callSetCheckpoint i))
    (hi : s.events[i]? = some e) (hm : s.msgs[e.loop]? = some (some msg)) :
    (s.setPhase i (.calling msg.sequenceNumber)).InOrder := by
  have hall := ho e hi
  refine hs.setPhase hi (by simp) (fun _ => rfl) ?_ ?_
  · rintro q ⟨⟩
    refine ⟨?_, fun c hc => ?_, msg, hm, le_rfl⟩
    · rintro q ⟨e', he', rfl⟩ hle
      refine ⟨e', he', rfl, (hall e' he').1 ?_⟩
      -- the events of later batches have greater numbers
      by_contra hlt
      have hgt := hs.msgs_events e.loop msg hm e' he' (by omega)
      omega
    · exact hs.stored_msgs c hc e.loop msg hm fun e' he' => (hall e' he').2.2
  · exact fun _ j e' hj hne => absurd (hall e' (List.mem_of_getElem? hj)).2.1 hne

/-- A batch is fetched in order. -/
theorem InOrder.getRecords (hs : s.InOrder) (ho : s.Orderly (.getRecords records)) :
    InOrder { s with records := records, msgs := s.msgs ++ [none] } := by
  have hold : ∀ (k : ℕ) (m : Record), (s.msgs ++ [none])[k]? = some (some m) →
      s.msgs[k]? = some (some m) := by
    intro k m hk
    rw [List.getElem?_append] at hk
    split at hk
    · exact hk
    · simpa using List.mem_of_getElem? hk
  constructor
  · simp
  · exact ho.1
  · intro e he
    rw [List.length_append]
    exact Nat.lt_add_right _ (hs.loop_lt e he)
  · exact fun k k' m m' hle hk hk' => hs.msgs_mono k k' m m' hle (hold k m hk) (hold k' m' hk')
  · exact fun k m hk => hs.msgs_events k m (hold k m hk)
  · exact fun k m hk r hr => (ho.2 r hr).2 _ (List.mem_of_getElem? (hold k m hk)) m rfl
  · exact fun c hc r hr => (ho.2 r hr).1 c hc
  · intro e he q hq
    obtain ⟨hcov, hle, m, hm, hqm⟩ := hs.carried e he q hq
    refine ⟨hcov, hle, m, ?_, hqm⟩
    rw [List.getElem?_append_left (hs.loop_lt e he)]
    exact hm
  · exact hs.alone
  · exact fun c hc k m hk => hs.stored_msgs c hc k m (hold k m hk)
  · exact hs.safe

/-- A receiver that has not made any event yet, over any store. -/
def start (config : ReceiverConfig) (manager : CheckpointManager) (clock : ℕ) : ShardReceiver where
  config := config
  clock := clock
  manager := manager
  iterator := none
  records := []
  msgs := []
  events := []

instance (s : ShardReceiver) : (a : Action) → Decidable (s.Orderly a)
  | .getRecords _ => inferInstanceAs (Decidable (_ ∧ _))
  | .callSetCheckpoint i => inferInstanceAs (Decidable (∀ e ∈ s.events[i]?, ∀ e' ∈ s.events, _))
  | .tick _ => isTrue trivial
  | .getShardIterator _ => isTrue trivial
  | .nextRecord => isTrue trivial
  | .settle _ _ => isTrue trivial
  | .setCheckpoint _ => isTrue trivial
  | .updateItem _ _ => isTrue trivial

/-! ## Callbacks that read too early and too late -/

end ShardReceiver

end Checkpoint
