/-
# Receiving from a queue (`pkg/plugins/sqs/receiver.go`)

Every worker of the receiver has two goroutines.  The receive loop asks the queue for messages
and hands each as an event to the routes; a message that has been received too often, or whose
body is no JSON, goes to the channel `entries` instead.  When the routes ack an event, the
function given to `event.WithAck` puts its message into `entries` as well.  The delete loop
collects what comes out of the channel in a map, and deletes the messages of the map when it
holds enough of them, or when nothing has come for a second.

The queue can answer anything; `Counted` is what its documentation says of the attribute
`ApproximateReceiveCount`.  The list `due` records the entries that are to be deleted, with
the worker that has to do it.

`deleted_when_settled`: only acked, exhausted and unparsable messages are deleted.
`handed_le_retries`: the routes get a message at most `numRetries + 1` times.
`due_deleted_or_waiting`, `can_drain`: no entry is lost on its way to the queue.
-/
import Mathlib.Algebra.BigOperators.Group.Finset.Basic
import Ears.GoLib
import Ears.Runs

namespace SqsReceiver

/-! ## Messages -/

/-- `sqs.Message`, with the text of its attribute `ApproximateReceiveCount`. -/
structure Message where
  messageId : String
  receiptHandle : String
  body : String
  approximateReceiveCount : Option String
  deriving DecidableEq, Repr

/-- `sqs.DeleteMessageBatchRequestEntry`. -/
structure Entry where
  id : String
  receiptHandle : String
  deriving DecidableEq, Repr

/-- The entry that deletes a message. -/
def Message.entry (m : Message) : Entry := ⟨m.messageId, m.receiptHandle⟩

/-- `retryAttempt`; a text that is no number counts like the number 0. -/
def Message.retryAttempt (m : Message) : ℤ :=
  match m.approximateReceiveCount with
  | none => 0
  | some text => (GoLib.atoi text.toList).1 - 1

/-- What the workers read of `ReceiverConfig`, in the bounds of its schema; `unmarshal` says
which bodies are JSON. -/
structure ReceiverConfig where
  maxNumberOfMessages : ℕ
  numRetries : ℕ
  receiverQueueDepth : ℕ
  receiverPoolSize : ℕ
  neverDelete : Bool
  unmarshal : String → Bool
  maxNumberOfMessages_bounds : 1 ≤ maxNumberOfMessages ∧ maxNumberOfMessages ≤ 10
  receiverPoolSize_pos : 1 ≤ receiverPoolSize

/-- `retryAttempt > *(r.config.NumRetries)`. -/
def ReceiverConfig.Exhausted (cfg : ReceiverConfig) (m : Message) : Prop :=
  (cfg.numRetries : ℤ) < m.retryAttempt

instance (cfg : ReceiverConfig) (m : Message) : Decidable (cfg.Exhausted m) :=
  inferInstanceAs (Decidable (_ < _))

/-! ## Workers -/

/-- The receive loop: waiting for the queue, with messages to handle, or waiting to put an
entry into the channel. -/
inductive ReceiveLoop where
  | receiving
  | handling (rest : List Message)
  | sending (e : Entry) (rest : List Message)
  | ended
  deriving DecidableEq, Repr

/-- The delete loop: in its `select`, before it looks whether the receiver has stopped, or
ended. -/
inductive DeleteLoop where
  | select
  | checking
  | ended
  deriving DecidableEq, Repr

/-- A worker: the events that the routes have, the calls of the ack function that wait for the
channel, the buffer of the channel and the map of the delete loop. -/
structure Worker where
  loop : ReceiveLoop
  deleter : DeleteLoop
  inFlight : List Message
  acking : List Entry
  entries : List Entry
  deleteMap : List Entry
  deriving DecidableEq, Repr

/-- The receiver, with what it has done so far: the messages that it received, handed to the
routes and had acked, the entries that are to be deleted, and the calls of
`DeleteMessageBatch`. -/
structure Receiver where
  stopped : Bool
  worker : ℕ → Worker
  received : List Message
  handed : List Message
  acked : List Message
  due : List (ℕ × Entry)
  batches : List (ℕ × List Entry)

/-- A worker that `startReceiveWorker` has just started. -/
def startReceiveWorker : Worker where
  loop := .receiving
  deleter := .select
  inFlight := []
  acking := []
  entries := []
  deleteMap := []

/-- `Receive(next)`. -/
def receive : Receiver where
  stopped := false
  worker := fun _ => startReceiveWorker
  received := []
  handed := []
  acked := []
  due := []
  batches := []

/-- Where the delete loop gets an entry from: the buffer of the channel, or, when the channel
has no buffer, a goroutine that waits to send. -/
inductive Source where
  | buffer
  | loop
  | ack (e : Entry)
  deriving DecidableEq, Repr

/-- The steps of the goroutines.  The list `order` is the order in which `range` visits the map
of the delete loop, when that deletes. -/
inductive Action where
  | response (i : ℕ) (messages : Option (List Message))
  | handle (i : ℕ)
  | push (i : ℕ)
  | ack (i : ℕ) (m : Message) (hasMessage : Bool)
  | nack (i : ℕ) (m : Message)
  | pushAck (i : ℕ) (e : Entry)
  | take (i : ℕ) (source : Source) (order : List Entry)
  | tick (i : ℕ) (order : List Entry)
  | check (i : ℕ)
  | stopReceiving
  deriving DecidableEq, Repr

namespace Receiver

/-- Replace one worker. -/
def setWorker (s : Receiver) (i : ℕ) (w : Worker) : Receiver :=
  { s with worker := Function.update s.worker i w }

/-- `deleteMap[*delEntry.Id] = delEntry`. -/
def putEntry (m : List Entry) (e : Entry) : List Entry :=
  if e.id ∈ m.map Entry.id then m.map fun x => if x.id = e.id then e else x else m ++ [e]

/-- The receive loop handles one message. -/
def handleMessage (cfg : ReceiverConfig) (s : Receiver) (i : ℕ) (m : Message)
    (rest : List Message) : Receiver :=
  let w := s.worker i
  if cfg.Exhausted m ∨ cfg.unmarshal m.body = false then
    { s.setWorker i { w with loop := .sending m.entry rest } with due := s.due ++ [(i, m.entry)] }
  else
    { s.setWorker i { w with loop := .handling rest, inFlight := w.inFlight ++ [m] } with
      handed := s.handed ++ [m] }

/-- The entry that the delete loop receives, and the worker without it. -/
def takeEntry (cfg : ReceiverConfig) (w : Worker) : Source → Option (Entry × Worker)
  | .buffer =>
      match w.entries with
      | e :: rest => some (e, { w with entries := rest })
      | [] => none
  | .loop =>
      match w.loop with
      | .sending e rest =>
          if cfg.receiverQueueDepth = 0 then some (e, { w with loop := .handling rest }) else none
      | _ => none
  | .ack e =>
      if cfg.receiverQueueDepth = 0 ∧ e ∈ w.acking then
        some (e, { w with acking := w.acking.erase e })
      else none

/-- The map of the delete loop with the entry that it got. -/
def collected (cfg : ReceiverConfig) (w : Worker) : Option Entry → List Entry
  | some e => if cfg.neverDelete then w.deleteMap else putEntry w.deleteMap e
  | none => w.deleteMap

/-- The delete loop after its `select`, with the entry that it got. -/
def collect (cfg : ReceiverConfig) (s : Receiver) (i : ℕ) (w : Worker) (delEntry : Option Entry)
    (order : List Entry) : Option Receiver :=
  let deleteMap := collected cfg w delEntry
  if cfg.maxNumberOfMessages ≤ deleteMap.length ∨ (delEntry = none ∧ 0 < deleteMap.length) then
    if order.isPerm deleteMap then
      some { s.setWorker i { w with deleteMap := [], deleter := .checking } with
        batches := s.batches ++ [(i, order)] }
    else none
  else some (s.setWorker i { w with deleteMap := deleteMap, deleter := .checking })

/-- One step. -/
def step (cfg : ReceiverConfig) (s : Receiver) : Action → Option Receiver
  | .response i messages =>
      if i < cfg.receiverPoolSize ∧ (s.worker i).loop = .receiving then
        if s.stopped then some (s.setWorker i { s.worker i with loop := .ended })
        else
          match messages with
          -- the error is logged, and the loop goes on
          | none => some s
          | some ms =>
              some { s.setWorker i { s.worker i with loop := .handling ms } with
                received := s.received ++ ms }
      else none
  | .handle i =>
      match (s.worker i).loop with
      | .handling [] => some (s.setWorker i { s.worker i with loop := .receiving })
      | .handling (m :: rest) => some (handleMessage cfg s i m rest)
      | _ => none
  | .push i =>
      match (s.worker i).loop with
      | .sending e rest =>
          if (s.worker i).entries.length < cfg.receiverQueueDepth then
            some (s.setWorker i { s.worker i with
              loop := .handling rest, entries := (s.worker i).entries ++ [e] })
          else none
      | _ => none
  | .ack i m hasMessage =>
      if m ∈ (s.worker i).inFlight then
        let w := { s.worker i with inFlight := (s.worker i).inFlight.erase m }
        if hasMessage then
          some { s.setWorker i { w with acking := w.acking ++ [m.entry] } with
            acked := s.acked ++ [m], due := s.due ++ [(i, m.entry)] }
        else some (s.setWorker i w)
      else none
  | .nack i m =>
      if m ∈ (s.worker i).inFlight then
        some (s.setWorker i { s.worker i with inFlight := (s.worker i).inFlight.erase m })
      else none
  | .pushAck i e =>
      if e ∈ (s.worker i).acking ∧ (s.worker i).entries.length < cfg.receiverQueueDepth then
        some (s.setWorker i { s.worker i with
          acking := (s.worker i).acking.erase e, entries := (s.worker i).entries ++ [e] })
      else none
  | .take i source order =>
      match (s.worker i).deleter, takeEntry cfg (s.worker i) source with
      | .select, some (e, w) => collect cfg s i w (some e) order
      | _, _ => none
  | .tick i order =>
      match (s.worker i).deleter with
      | .select => collect cfg s i (s.worker i) none order
      | _ => none
  | .check i =>
      match (s.worker i).deleter with
      | .checking =>
          some (s.setWorker i { s.worker i with deleter := if s.stopped then .ended else .select })
      | _ => none
  | .stopReceiving => some { s with stopped := true }

end Receiver

/-! ## What the goroutines have in their hands -/

/-- The messages that the receive loop has still to handle. -/
def Worker.pending (w : Worker) : List Message :=
  match w.loop with
  | .handling rest => rest
  | .sending _ rest => rest
  | _ => []

/-- The entries that the delete loop has still to receive. -/
def Worker.channel (w : Worker) : List Entry :=
  (match w.loop with
    | .sending e _ => [e]
    | _ => []) ++ w.acking ++ w.entries

/-- The entries on their way to the queue. -/
def Worker.waiting (w : Worker) : List Entry := w.channel ++ w.deleteMap

/-- There is a reason to delete the message of an entry: the routes have acked it, or it has
been received too often, or its body is no JSON. -/
def Receiver.Settled (cfg : ReceiverConfig) (s : Receiver) (e : Entry) : Prop :=
  ∃ m ∈ s.received, m.entry = e ∧ (m ∈ s.acked ∨ cfg.Exhausted m ∨ cfg.unmarshal m.body = false)

/-- A call of `DeleteMessageBatch` that the queue accepts. -/
structure ReceiverConfig.GoodBatch (cfg : ReceiverConfig) (batch : List Entry) : Prop where
  nonempty : batch ≠ []
  ids : (batch.map Entry.id).Nodup
  length : batch.length ≤ cfg.maxNumberOfMessages

/-- What holds of every worker. -/
structure WorkerInv (cfg : ReceiverConfig) (s : Receiver) (i : ℕ) (w : Worker) : Prop where
  pending : ∀ m ∈ w.pending, m ∈ s.received
  inFlight : ∀ m ∈ w.inFlight, m ∈ s.handed
  waiting : ∀ e ∈ w.waiting, (i, e) ∈ s.due
  ids : (w.deleteMap.map Entry.id).Nodup
  small : w.deleteMap.length < cfg.maxNumberOfMessages
  never : cfg.neverDelete = true → w.deleteMap = []
  kept : cfg.neverDelete = false → ∀ e, (i, e) ∈ s.due →
    e.id ∈ w.waiting.map Entry.id ∨ ∃ batch, (i, batch) ∈ s.batches ∧ e.id ∈ batch.map Entry.id
  pool : cfg.receiverPoolSize ≤ i → w.loop = .receiving

/-- What holds of the receiver. -/
structure Inv (cfg : ReceiverConfig) (s : Receiver) : Prop where
  worker : ∀ i, WorkerInv cfg s i (s.worker i)
  handed : ∀ m ∈ s.handed, m ∈ s.received ∧ ¬ cfg.Exhausted m ∧ cfg.unmarshal m.body = true
  acked : ∀ m ∈ s.acked, m ∈ s.handed
  due : ∀ x ∈ s.due, s.Settled cfg x.2
  ackedDue : ∀ m ∈ s.acked, ∃ i, (i, m.entry) ∈ s.due
  accounted : ∀ m ∈ s.received,
    (∃ i, m ∈ (s.worker i).pending) ∨ m ∈ s.handed ∨ ∃ i, (i, m.entry) ∈ s.due
  batches : ∀ x ∈ s.batches, cfg.GoodBatch x.2 ∧ ∀ e ∈ x.2, (x.1, e) ∈ s.due
  never : cfg.neverDelete = true → s.batches = []

/-- A step of worker `i`, and what it adds to the record of the receiver: messages received,
handed out and acked, entries to delete, and calls. -/
structure Moves (cfg : ReceiverConfig) (w w' : Worker) (i : ℕ) (ms hs as : List Message)
    (ds : List Entry) (bs : List (List Entry)) : Prop where
  pending : ∀ m ∈ w'.pending, m ∈ w.pending ∨ m ∈ ms
  inFlight : ∀ m ∈ w'.inFlight, m ∈ w.inFlight ∨ m ∈ hs
  handed : ∀ m ∈ hs, m ∈ w.pending ∧ ¬ cfg.Exhausted m ∧ cfg.unmarshal m.body = true
  acked : ∀ m ∈ as, m ∈ w.inFlight
  due : ∀ e ∈ ds, (∃ m ∈ w.pending, m.entry = e ∧
    (cfg.Exhausted m ∨ cfg.unmarshal m.body = false)) ∨ ∃ m ∈ as, m.entry = e
  waiting : ∀ e ∈ w'.waiting, e ∈ w.waiting ∨ e ∈ ds
  batches : ∀ b ∈ bs, cfg.GoodBatch b ∧ ∀ e ∈ b, e ∈ w.waiting
  ids : (w'.deleteMap.map Entry.id).Nodup
  small : w'.deleteMap.length < cfg.maxNumberOfMessages
  never : cfg.neverDelete = true → w'.deleteMap = [] ∧ bs = []
  kept : cfg.neverDelete = false → ∀ e, e ∈ w.waiting ∨ e ∈ ds →
    e.id ∈ w'.waiting.map Entry.id ∨ ∃ b ∈ bs, e.id ∈ b.map Entry.id
  pool : cfg.receiverPoolSize ≤ i → w'.loop = .receiving
  ackedDue : ∀ m ∈ as, m.entry ∈ ds
  accounted : ∀ m, m ∈ w.pending ∨ m ∈ ms → m ∈ w'.pending ∨ m ∈ hs ∨ m.entry ∈ ds

namespace Receiver

variable {cfg : ReceiverConfig} {s s' : Receiver} {i : ℕ} {w w' : Worker}
  {ms hs as : List Message} {ds : List Entry} {bs : List (List Entry)}

/-- The receiver after a step of worker `i`. -/
def record (s : Receiver) (i : ℕ) (w' : Worker) (ms hs as : List Message) (ds : List Entry)
    (bs : List (List Entry)) : Receiver where
  stopped := s.stopped
  worker := Function.update s.worker i w'
  received := s.received ++ ms
  handed := s.handed ++ hs
  acked := s.acked ++ as
  due := s.due ++ ds.map fun e => (i, e)
  batches := s.batches ++ bs.map fun b => (i, b)

theorem mem_due_record {j : ℕ} {e : Entry} :
    (j, e) ∈ (s.record i w' ms hs as ds bs).due ↔ (j, e) ∈ s.due ∨ (j = i ∧ e ∈ ds) := by
  simp only [record, List.mem_append, List.mem_map, Prod.mk.injEq]
  constructor
  · rintro (hd | ⟨e', hd, rfl, rfl⟩)
    · exact Or.inl hd
    · exact Or.inr ⟨rfl, hd⟩
  · rintro (hd | ⟨rfl, hd⟩)
    · exact Or.inl hd
    · exact Or.inr ⟨e, hd, rfl, rfl⟩

theorem mem_batches_record {j : ℕ} {b : List Entry} :
    (j, b) ∈ (s.record i w' ms hs as ds bs).batches ↔ (j, b) ∈ s.batches ∨ (j = i ∧ b ∈ bs) := by
  simp only [record, List.mem_append, List.mem_map, Prod.mk.injEq]
  constructor
  · rintro (hb | ⟨b', hb, rfl, rfl⟩)
    · exact Or.inl hb
    · exact Or.inr ⟨rfl, hb⟩
  · rintro (hb | ⟨rfl, hb⟩)
    · exact Or.inl hb
    · exact Or.inr ⟨b, hb, rfl, rfl⟩

/-- What holds of a worker still does after a step of another. -/
theorem workerInv_record_of_ne {j : ℕ} (h : WorkerInv cfg s j w) (hj : j ≠ i) :
    WorkerInv cfg (s.record i w' ms hs as ds bs) j w where
  pending m hm := List.mem_append_left _ (h.pending m hm)
  inFlight m hm := List.mem_append_left _ (h.inFlight m hm)
  waiting e he := List.mem_append_left _ (h.waiting e he)
  ids := h.ids
  small := h.small
  never := h.never
  kept hn e he := by
    have he := (mem_due_record.mp he).resolve_right fun hji => hj hji.1
    refine (h.kept hn e he).imp id ?_
    rintro ⟨b, hb, hid⟩
    exact ⟨b, List.mem_append_left _ hb, hid⟩
  pool := h.pool

/-- What holds of a worker still does after a step of its own. -/
theorem workerInv_record (h : WorkerInv cfg s i w) (hm : Moves cfg w w' i ms hs as ds bs) :
    WorkerInv cfg (s.record i w' ms hs as ds bs) i w' where
  pending m hmem := List.mem_append.mpr ((hm.pending m hmem).imp (h.pending m) id)
  inFlight m hmem := List.mem_append.mpr ((hm.inFlight m hmem).imp (h.inFlight m) id)
  waiting e he := mem_due_record.mpr ((hm.waiting e he).imp (h.waiting e) fun he => ⟨rfl, he⟩)
  ids := hm.ids
  small := hm.small
  never hn := (hm.never hn).1
  kept hn e he := by
    -- an entry that waited before may have been taken over by a newer one with its id
    have hnew : ∀ e', e' ∈ w.waiting ∨ e' ∈ ds → e'.id ∈ w'.waiting.map Entry.id ∨
        ∃ batch, (i, batch) ∈ (s.record i w' ms hs as ds bs).batches ∧
          e'.id ∈ batch.map Entry.id := by
      intro e' he'
      refine (hm.kept hn e' he').imp id ?_
      rintro ⟨b, hb, hid⟩
      exact ⟨b, mem_batches_record.mpr (Or.inr ⟨rfl, hb⟩), hid⟩
    rcases mem_due_record.mp he with he | ⟨-, he⟩
    · rcases h.kept hn e he with hid | ⟨b, hb, hid⟩
      · obtain ⟨e', he', hid⟩ := List.mem_map.mp hid
        rw [← hid]
        exact hnew e' (Or.inl he')
      · exact Or.inr ⟨b, mem_batches_record.mpr (Or.inl hb), hid⟩
    · exact hnew e (Or.inr he)
  pool := hm.pool

/-- A message that is to be handled, or has just come, is accounted for after the step. -/
theorem accounted_record (hm : Moves cfg (s.worker i) w' i ms hs as ds bs) {m : Message}
    (hpend : m ∈ (s.worker i).pending ∨ m ∈ ms) :
    (∃ j, m ∈ ((s.record i w' ms hs as ds bs).worker j).pending) ∨
      m ∈ (s.record i w' ms hs as ds bs).handed ∨
        ∃ j, (j, m.entry) ∈ (s.record i w' ms hs as ds bs).due := by
  rcases hm.accounted m hpend with hp | hp | hp
  · refine Or.inl ⟨i, ?_⟩
    show m ∈ (Function.update s.worker i w' i).pending
    rwa [Function.update_self]
  · exact Or.inr (Or.inl (List.mem_append_right _ hp))
  · exact Or.inr (Or.inr ⟨i, mem_due_record.mpr (Or.inr ⟨rfl, hp⟩)⟩)

/-- Such a step keeps the invariant. -/
theorem inv_record (h : Inv cfg s)
    (hm : Moves cfg (s.worker i) w' i ms hs as ds bs) :
    Inv cfg (s.record i w' ms hs as ds bs) where
  worker j := by
    show WorkerInv cfg _ j (Function.update s.worker i w' j)
    by_cases hj : j = i
    · subst hj
      rw [Function.update_self]
      exact workerInv_record (h.worker j) hm
    · rw [Function.update_of_ne hj]
      exact workerInv_record_of_ne (h.worker j) hj
  handed m hmem := by
    rcases List.mem_append.mp hmem with hmem | hmem
    · obtain ⟨hrec, hok⟩ := h.handed m hmem
      exact ⟨List.mem_append_left _ hrec, hok⟩
    · obtain ⟨hpend, hok⟩ := hm.handed m hmem
      exact ⟨List.mem_append_left _ ((h.worker i).pending m hpend), hok⟩
  acked m hmem := by
    rcases List.mem_append.mp hmem with hmem | hmem
    · exact List.mem_append_left _ (h.acked m hmem)
    · exact List.mem_append_left _ ((h.worker i).inFlight m (hm.acked m hmem))
  due := by
    rintro ⟨j, e⟩ he
    rcases mem_due_record.mp he with hold | ⟨-, hnew⟩
    · obtain ⟨m, hrec, hentry, hreason⟩ := h.due _ hold
      exact ⟨m, List.mem_append_left _ hrec, hentry, hreason.imp (List.mem_append_left _) id⟩
    · rcases hm.due e hnew with ⟨m, hpend, hentry, hreason⟩ | ⟨m, hack, hentry⟩
      · exact ⟨m, List.mem_append_left _ ((h.worker i).pending m hpend), hentry, Or.inr hreason⟩
      · have hhanded := (h.worker i).inFlight m (hm.acked m hack)
        exact ⟨m, List.mem_append_left _ (h.handed m hhanded).1, hentry,
          Or.inl (List.mem_append_right _ hack)⟩
  ackedDue m hmem := by
    rcases List.mem_append.mp hmem with hmem | hmem
    · obtain ⟨j, hj⟩ := h.ackedDue m hmem
      exact ⟨j, List.mem_append_left _ hj⟩
    · exact ⟨i, mem_due_record.mpr (Or.inr ⟨rfl, hm.ackedDue m hmem⟩)⟩
  accounted m hmem := by
    rcases List.mem_append.mp hmem with hmem | hmem
    · rcases h.accounted m hmem with ⟨j, hp⟩ | hp | ⟨j, hp⟩
      · by_cases hj : j = i
        · exact accounted_record hm (Or.inl (hj ▸ hp))
        · refine Or.inl ⟨j, ?_⟩
          show m ∈ (Function.update s.worker i w' j).pending
          rwa [Function.update_of_ne hj]
      · exact Or.inr (Or.inl (List.mem_append_left _ hp))
      · exact Or.inr (Or.inr ⟨j, List.mem_append_left _ hp⟩)
    · exact accounted_record hm (Or.inr hmem)
  batches := by
    rintro ⟨j, b⟩ hb
    rcases mem_batches_record.mp hb with hb | ⟨rfl, hnew⟩
    · obtain ⟨hgood, hall⟩ := h.batches _ hb
      exact ⟨hgood, fun e he => List.mem_append_left _ (hall e he)⟩
    · obtain ⟨hgood, hall⟩ := hm.batches b hnew
      exact ⟨hgood, fun e he => List.mem_append_left _ ((h.worker j).waiting e (hall e he))⟩
  never hn := by
    show s.batches ++ bs.map _ = []
    rw [h.never hn, (hm.never hn).2]
    rfl

/-! ## What every step does -/

/-- The ids in the map are those that were there and the new one. -/
theorem map_id_putEntry (m : List Entry) (e : Entry) : (putEntry m e).map Entry.id =
    if e.id ∈ m.map Entry.id then m.map Entry.id else m.map Entry.id ++ [e.id] := by
  unfold putEntry
  split
  · rw [List.map_map]
    refine List.map_congr_left fun x _ => ?_
    show (if x.id = e.id then e else x).id = x.id
    split
    · rename_i hx
      exact hx.symm
    · rfl
  · rw [List.map_append, List.map_singleton]

theorem mem_ids_putEntry {m : List Entry} {e : Entry} {id : String} :
    id ∈ (putEntry m e).map Entry.id ↔ id ∈ m.map Entry.id ∨ id = e.id := by
  rw [map_id_putEntry]
  split
  · rename_i he
    rw [or_iff_left_of_imp]
    rintro rfl
    exact he
  · rw [List.mem_append, List.mem_singleton]

theorem nodup_putEntry {m : List Entry} (e : Entry) (h : (m.map Entry.id).Nodup) :
    ((putEntry m e).map Entry.id).Nodup := by
  rw [map_id_putEntry]
  split
  · exact h
  · rename_i he
    refine List.nodup_append.mpr ⟨h, List.nodup_singleton _, fun a ha b hb hab => he ?_⟩
    rwa [← List.mem_singleton.mp hb, ← hab]

theorem mem_putEntry {m : List Entry} {e x : Entry} (hx : x ∈ putEntry m e) : x ∈ m ∨ x = e := by
  unfold putEntry at hx
  split at hx
  · obtain ⟨y, hy, rfl⟩ := List.mem_map.mp hx
    split
    · exact Or.inr rfl
    · exact Or.inl hy
  · simpa using hx

theorem length_putEntry_le (m : List Entry) (e : Entry) : (putEntry m e).length ≤ m.length + 1 := by
  unfold putEntry
  split
  · simp
  · simp

/-- A step that does not touch the map. -/
theorem moves_of_sameMap (h : WorkerInv cfg s i w) (hmap : w'.deleteMap = w.deleteMap)
    (hpending : ∀ m ∈ w'.pending, m ∈ w.pending ∨ m ∈ ms)
    (hinFlight : ∀ m ∈ w'.inFlight, m ∈ w.inFlight ∨ m ∈ hs)
    (hhanded : ∀ m ∈ hs, m ∈ w.pending ∧ ¬ cfg.Exhausted m ∧ cfg.unmarshal m.body = true)
    (hacked : ∀ m ∈ as, m ∈ w.inFlight)
    (hdue : ∀ e ∈ ds, (∃ m ∈ w.pending, m.entry = e ∧
      (cfg.Exhausted m ∨ cfg.unmarshal m.body = false)) ∨ ∃ m ∈ as, m.entry = e)
    (hwaiting : ∀ e, e ∈ w'.waiting ↔ e ∈ w.waiting ∨ e ∈ ds)
    (hpool : cfg.receiverPoolSize ≤ i → w'.loop = .receiving)
    (hackedDue : ∀ m ∈ as, m.entry ∈ ds)
    (haccounted : ∀ m, m ∈ w.pending ∨ m ∈ ms → m ∈ w'.pending ∨ m ∈ hs ∨ m.entry ∈ ds) :
    Moves cfg w w' i ms hs as ds [] where
  pending := hpending
  inFlight := hinFlight
  handed := hhanded
  acked := hacked
  due := hdue
  waiting e he := (hwaiting e).mp he
  batches b hb := by cases hb
  ids := hmap ▸ h.ids
  small := hmap ▸ h.small
  never hn := ⟨hmap ▸ h.never hn, rfl⟩
  kept _ e he := Or.inl (List.mem_map_of_mem ((hwaiting e).mpr he))
  pool := hpool
  ackedDue := hackedDue
  accounted := haccounted

/-- The map that the delete loop has after its `select`. -/
structure Collected (cfg : ReceiverConfig) (u : Worker) (delEntry : Option Entry)
    (m : List Entry) : Prop where
  ids : (m.map Entry.id).Nodup
  length : m.length ≤ cfg.maxNumberOfMessages
  mem : ∀ e ∈ m, e ∈ u.deleteMap ∨ e ∈ delEntry
  never : cfg.neverDelete = true → m = []
  kept : cfg.neverDelete = false → ∀ e, e ∈ u.deleteMap ∨ e ∈ delEntry → e.id ∈ m.map Entry.id

theorem collected_spec (h : WorkerInv cfg s i w) (hmap : w'.deleteMap = w.deleteMap)
    (delEntry : Option Entry) : Collected cfg w delEntry (collected cfg w' delEntry) := by
  cases delEntry with
  | none =>
      show Collected cfg w none w'.deleteMap
      rw [hmap]
      refine ⟨h.ids, h.small.le, fun e he => Or.inl he, h.never, fun _ e he => ?_⟩
      exact List.mem_map_of_mem (he.resolve_right (by simp))
  | some e =>
      show Collected cfg w (some e) (if cfg.neverDelete then w'.deleteMap else
        putEntry w'.deleteMap e)
      rw [hmap]
      split
      · rename_i hn
        exact ⟨h.ids, h.small.le, fun e he => Or.inl he, h.never,
          fun hn' => absurd hn (by simp [hn'])⟩
      · rename_i hn
        refine ⟨nodup_putEntry e h.ids, ?_, ?_, fun hn' => absurd hn' hn, ?_⟩
        · exact (length_putEntry_le _ e).trans h.small
        · intro x hx
          exact (mem_putEntry hx).imp id fun hxe => by rw [hxe]; rfl
        · intro _ x hx
          rw [mem_ids_putEntry]
          rcases hx with hx | hx
          · exact Or.inl (List.mem_map_of_mem hx)
          · rw [Option.mem_some_iff.mp hx]
            exact Or.inr rfl

/-- A step of the delete loop: what was in the channel or in the map is in the new map, or in
the call that empties it. -/
theorem moves_of_map (hpending : w'.pending = w.pending)
    (hinFlight : w'.inFlight = w.inFlight) {delEntry : Option Entry} {m : List Entry}
    (hchannel : ∀ e, e ∈ w.channel ↔ e ∈ w'.channel ∨ e ∈ delEntry)
    (hm : Collected cfg w delEntry m)
    (hmap : w'.deleteMap = m ∧ bs = [] ∧ m.length < cfg.maxNumberOfMessages ∨
      w'.deleteMap = [] ∧ ∃ order, bs = [order] ∧ order.Perm m ∧ m ≠ [])
    (hpool : cfg.receiverPoolSize ≤ i → w'.loop = .receiving) :
    Moves cfg w w' i [] [] [] [] bs := by
  have hmem : ∀ e ∈ m, e ∈ w.waiting := by
    intro e he
    unfold Worker.waiting
    rw [List.mem_append, hchannel]
    rcases hm.mem e he with he | he
    · exact Or.inr he
    · exact Or.inl (Or.inr he)
  have hkept : cfg.neverDelete = false → ∀ e ∈ w.waiting,
      e ∈ w'.channel ∨ e.id ∈ m.map Entry.id := by
    intro hn e he
    unfold Worker.waiting at he
    rw [List.mem_append, hchannel] at he
    rcases he with (he | he) | he
    · exact Or.inl he
    · exact Or.inr (hm.kept hn e (Or.inr he))
    · exact Or.inr (hm.kept hn e (Or.inl he))
  have hids : ∀ e, e ∈ w'.channel → e.id ∈ w'.waiting.map Entry.id := fun e he =>
    List.mem_map_of_mem (List.mem_append_left _ he)
  have hwaiting : ∀ e ∈ w'.waiting, e ∈ w'.deleteMap → e ∈ m := by
    intro e _ he
    rcases hmap with ⟨hdel, -⟩ | ⟨hdel, -⟩
    · exact hdel ▸ he
    · rw [hdel] at he
      cases he
  refine ⟨fun m hm => Or.inl (hpending ▸ hm), fun m hm => Or.inl (hinFlight ▸ hm), by simp,
    by simp, by simp, fun e he => Or.inl ?_, ?_, ?_, ?_, ?_, ?_, hpool, by simp,
    fun m hm => Or.inl (hpending ▸ hm.resolve_right (by simp))⟩
  · rcases List.mem_append.mp he with hch | hdel
    · exact List.mem_append_left _ ((hchannel e).mpr (Or.inl hch))
    · exact hmem e (hwaiting e he hdel)
  · rcases hmap with ⟨-, rfl, -⟩ | ⟨-, order, rfl, hperm, hne⟩
    · intro b hb
      cases hb
    · intro b hb
      obtain rfl := List.mem_singleton.mp hb
      refine ⟨⟨?_, (hperm.map Entry.id).nodup_iff.mpr hm.ids, hperm.length_eq ▸ hm.length⟩,
        fun e he => hmem e (hperm.mem_iff.mp he)⟩
      rintro rfl
      exact hne (List.nil_perm.mp hperm)
  · rcases hmap with ⟨hdel, -⟩ | ⟨hdel, -⟩
    · exact hdel ▸ hm.ids
    · rw [hdel]
      exact List.nodup_nil
  · rcases hmap with ⟨hdel, -, hlen⟩ | ⟨hdel, -⟩
    · exact hdel ▸ hlen
    · rw [hdel]
      exact cfg.maxNumberOfMessages_bounds.1
  · intro hn
    rcases hmap with ⟨hdel, rfl, -⟩ | ⟨-, order, -, -, hne⟩
    · exact ⟨hdel ▸ hm.never hn, rfl⟩
    · exact absurd (hm.never hn) hne
  · intro hn e he
    rcases hkept hn e (he.resolve_right (by simp)) with he | he
    · exact Or.inl (hids e he)
    · rcases hmap with ⟨hdel, -⟩ | ⟨-, order, rfl, hperm, -⟩
      · left
        unfold Worker.waiting
        rw [List.map_append, hdel]
        exact List.mem_append_right _ he
      · exact Or.inr ⟨order, List.mem_singleton_self _, (hperm.map Entry.id).mem_iff.mpr he⟩

/-- The delete loop after its `select`: it takes an entry, or none, into the map, and deletes
what is in the map when that is enough. -/
theorem moves_of_collect (h : WorkerInv cfg s i w) {u : Worker} {delEntry : Option Entry}
    {order : List Entry} (hu : u.deleteMap = w.deleteMap) (hpending : u.pending = w.pending)
    (hinFlight : u.inFlight = w.inFlight)
    (hchannel : ∀ e, e ∈ w.channel ↔ e ∈ u.channel ∨ e ∈ delEntry)
    (hpool : cfg.receiverPoolSize ≤ i → u.loop = .receiving)
    (hs : collect cfg s i u delEntry order = some s') :
    ∃ w' bs, Moves cfg w w' i [] [] [] [] bs ∧ s' = s.record i w' [] [] [] [] bs ∧
      w'.pending = w.pending := by
  have hm := collected_spec h hu delEntry
  unfold collect at hs
  dsimp only at hs
  generalize collected cfg u delEntry = m at hs hm
  split at hs
  · rename_i hfull
    split at hs
    · rename_i hperm
      rw [List.isPerm_iff] at hperm
      obtain rfl := Option.some.inj hs
      have hne : m ≠ [] := by
        rintro rfl
        have hbounds := cfg.maxNumberOfMessages_bounds
        simp only [List.length_nil] at hfull
        omega
      refine ⟨{ u with deleteMap := [], deleter := .checking }, [order], ?_, ?_, hpending⟩
      · exact moves_of_map hpending hinFlight hchannel hm
          (Or.inr ⟨rfl, order, rfl, hperm, hne⟩) hpool
      · simp [record, setWorker]
    · cases hs
  · rename_i hfull
    obtain rfl := Option.some.inj hs
    refine ⟨{ u with deleteMap := m, deleter := .checking }, [], ?_, ?_, hpending⟩
    · refine moves_of_map hpending hinFlight hchannel hm (Or.inl ⟨rfl, rfl, ?_⟩) hpool
      rw [not_or, not_le] at hfull
      exact hfull.1
    · simp [record, setWorker]

/-- The messages that a step receives, and those that it hands out. -/
structure Fed (cfg : ReceiverConfig) (a : Action) (i : ℕ) (w w' : Worker)
    (ms hs : List Message) : Prop where
  received : ms = [] ∨ (a = .response i (some ms) ∧ i < cfg.receiverPoolSize)
  count : ∀ p : Message → Bool,
    w'.pending.countP p + hs.countP p ≤ w.pending.countP p + ms.countP p

theorem Fed.of_pending {a : Action} (h : w'.pending = w.pending) : Fed cfg a i w w' [] [] where
  received := Or.inl rfl
  count p := by rw [h]

theorem setWorker_eq (s : Receiver) (i : ℕ) (w' : Worker) :
    s.setWorker i w' = s.record i w' [] [] [] [] [] := by
  simp [setWorker, record]

/-- A step sets the flag of the receiver, or is a step of a worker that the receiver
records. -/
def Recorded (cfg : ReceiverConfig) (s s' : Receiver) (a : Action) : Prop :=
  (∃ b, s' = { s with stopped := b }) ∨ ∃ i w' ms hs as ds bs,
    Moves cfg (s.worker i) w' i ms hs as ds bs ∧ s' = s.record i w' ms hs as ds bs ∧
      Fed cfg a i (s.worker i) w' ms hs

/-- A worker that handles messages has a number below the size of the pool. -/
theorem lt_pool (h : WorkerInv cfg s i w) (hloop : w.loop ≠ .receiving) :
    ¬ cfg.receiverPoolSize ≤ i := fun hp => hloop (h.pool hp)

theorem recorded_response (h : Inv cfg s) {messages : Option (List Message)}
    (hstep : step cfg s (.response i messages) = some s') :
    Recorded cfg s s' (.response i messages) := by
  have hw := h.worker i
  simp only [step] at hstep
  split at hstep
  · rename_i hguard
    obtain ⟨hi, hloop⟩ := hguard
    have hpend : (s.worker i).pending = [] := by
      unfold Worker.pending
      rw [hloop]
    have hpool : ∀ l : ReceiveLoop, cfg.receiverPoolSize ≤ i → l = .receiving :=
      fun l hp => absurd hi (Nat.not_lt.mpr hp)
    split at hstep
    · obtain rfl := Option.some.inj hstep
      refine Or.inr ⟨i, _, [], [], [], [], [], ?_, setWorker_eq .., .of_pending hpend.symm⟩
      refine moves_of_sameMap hw rfl (by simp [Worker.pending]) (fun m hm => Or.inl hm) (by simp)
        (by simp) (by simp) (fun e => ?_) (hpool _) (by simp) (by simp [hpend])
      simp [Worker.waiting, Worker.channel, hloop]
    · cases messages with
      | none =>
          obtain rfl := Option.some.inj hstep
          exact Or.inl ⟨s.stopped, rfl⟩
      | some ms =>
          obtain rfl := Option.some.inj hstep
          refine Or.inr ⟨i, { s.worker i with loop := .handling ms }, ms, [], [], [], [], ?_,
            by simp [setWorker, record], Or.inr ⟨rfl, hi⟩, fun p => ?_⟩
          · refine moves_of_sameMap hw rfl (fun m hm => Or.inr hm) (fun m hm => Or.inl hm)
              (by simp) (by simp) (by simp) (fun e => ?_) (hpool _) (by simp)
              fun m hm => Or.inl (hm.resolve_left (by simp [hpend]))
            simp [Worker.waiting, Worker.channel, hloop]
          · rw [hpend]
            simp [Worker.pending]
  · cases hstep

theorem recorded_handle (h : Inv cfg s) (hstep : step cfg s (.handle i) = some s') :
    Recorded cfg s s' (.handle i) := by
  have hw := h.worker i
  simp only [step] at hstep
  split at hstep
  · rename_i hloop
    obtain rfl := Option.some.inj hstep
    have hpend : (s.worker i).pending = [] := by
      unfold Worker.pending
      rw [hloop]
    refine Or.inr ⟨i, _, [], [], [], [], [], ?_, setWorker_eq .., .of_pending hpend.symm⟩
    refine moves_of_sameMap hw rfl (by simp [Worker.pending]) (fun m hm => Or.inl hm) (by simp)
      (by simp) (by simp) (fun e => ?_) (fun _ => rfl) (by simp) (by simp [hpend])
    simp [Worker.waiting, Worker.channel, hloop]
  · rename_i m rest hloop
    obtain rfl := Option.some.inj hstep
    have hpend : (s.worker i).pending = m :: rest := by
      unfold Worker.pending
      rw [hloop]
    have hm : m ∈ (s.worker i).pending := hpend ▸ List.mem_cons_self
    have hrest : ∀ x ∈ rest, x ∈ (s.worker i).pending := fun x hx =>
      hpend ▸ List.mem_cons_of_mem m hx
    have hpool := lt_pool hw (by simp [hloop])
    unfold handleMessage
    dsimp only
    split
    · rename_i hbad
      refine Or.inr ⟨i, { s.worker i with loop := .sending m.entry rest }, [], [], [], [m.entry],
        [], ?_, by simp [setWorker, record], Or.inl rfl, fun p => ?_⟩
      · refine moves_of_sameMap hw rfl (fun x hx => Or.inl (hrest x hx)) (fun x hx => Or.inl hx)
          (by simp) (by simp) (fun e he => Or.inl ⟨m, hm, (List.mem_singleton.mp he).symm, hbad⟩)
          (fun e => ?_) (fun hp => absurd hp hpool) (by simp) fun x hx => ?_
        · simp only [Worker.waiting, Worker.channel, hloop, List.mem_append, List.mem_singleton,
            List.not_mem_nil]
          tauto
        · rcases List.mem_cons.mp (hpend ▸ hx.resolve_right (by simp)) with rfl | hx
          · exact Or.inr (Or.inr List.mem_cons_self)
          · exact Or.inl hx
      · rw [hpend]
        exact (List.sublist_cons_self m rest).countP_le
    · rename_i hgood
      rw [not_or] at hgood
      refine Or.inr ⟨i, { s.worker i with
        loop := .handling rest, inFlight := (s.worker i).inFlight ++ [m] }, [], [m], [], [], [],
        ?_, by simp [setWorker, record], Or.inl rfl, fun p => ?_⟩
      · refine moves_of_sameMap hw rfl (fun x hx => Or.inl (hrest x hx))
          (fun x hx => List.mem_append.mp hx) (fun x hx => ?_) (by simp) (by simp)
          (fun e => ?_) (fun hp => absurd hp hpool) (by simp) fun x hx => ?_
        · rw [List.mem_singleton.mp hx]
          exact ⟨hm, hgood.1, by simpa using hgood.2⟩
        · simp [Worker.waiting, Worker.channel, hloop]
        · rcases List.mem_cons.mp (hpend ▸ hx.resolve_right (by simp)) with rfl | hx
          · exact Or.inr (Or.inl List.mem_cons_self)
          · exact Or.inl hx
      · rw [hpend]
        simp [Worker.pending, List.countP_cons]
  · cases hstep

theorem recorded_push (h : Inv cfg s) (hstep : step cfg s (.push i) = some s') :
    Recorded cfg s s' (.push i) := by
  have hw := h.worker i
  simp only [step] at hstep
  split at hstep
  · rename_i e rest hloop
    split at hstep
    · obtain rfl := Option.some.inj hstep
      have hpend : (s.worker i).pending = rest := by
        unfold Worker.pending
        rw [hloop]
      refine Or.inr ⟨i, _, [], [], [], [], [], ?_, setWorker_eq .., .of_pending hpend.symm⟩
      refine moves_of_sameMap hw rfl (fun x hx => Or.inl (hpend ▸ hx)) (fun x hx => Or.inl hx)
        (by simp) (by simp) (by simp) (fun x => ?_)
        (fun hp => absurd hp (lt_pool hw (by simp [hloop]))) (by simp)
        fun x hx => Or.inl (hpend ▸ hx.resolve_right (by simp))
      simp only [Worker.waiting, Worker.channel, hloop, List.mem_append, List.mem_singleton,
        List.not_mem_nil]
      tauto
    · cases hstep
  · cases hstep

theorem recorded_pushAck (h : Inv cfg s) {e : Entry}
    (hstep : step cfg s (.pushAck i e) = some s') : Recorded cfg s s' (.pushAck i e) := by
  have hw := h.worker i
  simp only [step] at hstep
  split at hstep
  · rename_i hguard
    obtain rfl := Option.some.inj hstep
    refine Or.inr ⟨i, _, [], [], [], [], [], ?_, setWorker_eq .., .of_pending rfl⟩
    refine moves_of_sameMap hw rfl (fun x hx => Or.inl hx) (fun x hx => Or.inl hx)
      (by simp) (by simp) (by simp) (fun x => ?_) hw.pool (by simp)
      fun x hx => Or.inl (hx.resolve_right (by simp))
    have hacking : x ∈ (s.worker i).acking ↔ x ∈ (s.worker i).acking.erase e ∨ x = e := by
      rw [(List.perm_cons_erase hguard.1).mem_iff, List.mem_cons, or_comm]
    simp only [Worker.waiting, Worker.channel, List.mem_append, List.mem_singleton, hacking,
      List.not_mem_nil]
    tauto
  · cases hstep

theorem recorded_ack (h : Inv cfg s) {m : Message} {hasMessage : Bool}
    (hstep : step cfg s (.ack i m hasMessage) = some s') :
    Recorded cfg s s' (.ack i m hasMessage) := by
  have hw := h.worker i
  simp only [step] at hstep
  split at hstep
  · rename_i hm
    split at hstep
    · obtain rfl := Option.some.inj hstep
      refine Or.inr ⟨i, { s.worker i with
          inFlight := (s.worker i).inFlight.erase m
          acking := (s.worker i).acking ++ [m.entry] }, [], [], [m], [m.entry], [], ?_,
        by simp [setWorker, record], .of_pending rfl⟩
      refine moves_of_sameMap hw rfl (fun x hx => Or.inl hx)
        (fun x hx => Or.inl (List.mem_of_mem_erase hx)) (by simp) (by simpa using hm)
        (fun e he => Or.inr ⟨m, List.mem_singleton_self m, (List.mem_singleton.mp he).symm⟩)
        (fun e => ?_) hw.pool (by simp) fun x hx => Or.inl (hx.resolve_right (by simp))
      simp only [Worker.waiting, Worker.channel, List.mem_append, List.mem_singleton]
      tauto
    · obtain rfl := Option.some.inj hstep
      refine Or.inr ⟨i, _, [], [], [], [], [], ?_, setWorker_eq .., .of_pending rfl⟩
      exact moves_of_sameMap hw rfl (fun x hx => Or.inl hx)
        (fun x hx => Or.inl (List.mem_of_mem_erase hx)) (by simp) (by simp) (by simp)
        (fun e => by simp [Worker.waiting, Worker.channel]) hw.pool (by simp)
        fun x hx => Or.inl (hx.resolve_right (by simp))
  · cases hstep

theorem recorded_nack (h : Inv cfg s) {m : Message} (hstep : step cfg s (.nack i m) = some s') :
    Recorded cfg s s' (.nack i m) := by
  have hw := h.worker i
  simp only [step] at hstep
  split at hstep
  · obtain rfl := Option.some.inj hstep
    refine Or.inr ⟨i, _, [], [], [], [], [], ?_, setWorker_eq .., .of_pending rfl⟩
    exact moves_of_sameMap hw rfl (fun x hx => Or.inl hx)
      (fun x hx => Or.inl (List.mem_of_mem_erase hx)) (by simp) (by simp) (by simp)
      (fun e => by simp [Worker.waiting, Worker.channel]) hw.pool (by simp)
      fun x hx => Or.inl (hx.resolve_right (by simp))
  · cases hstep

/-- What the delete loop receives comes out of the channel. -/
theorem takeEntry_spec {source : Source} {e : Entry} {u : Worker}
    (ht : takeEntry cfg w source = some (e, u)) :
    u.deleteMap = w.deleteMap ∧ u.pending = w.pending ∧ u.inFlight = w.inFlight ∧
      (∀ x, x ∈ w.channel ↔ x ∈ u.channel ∨ x ∈ some e) ∧
        (w.loop = .receiving → u.loop = .receiving) := by
  cases source with
  | buffer =>
      simp only [takeEntry] at ht
      split at ht
      · rename_i e' rest hentries
        obtain ⟨rfl, rfl⟩ := Prod.mk.inj (Option.some.inj ht)
        refine ⟨rfl, rfl, rfl, fun x => ?_, id⟩
        simp only [Worker.channel, hentries, List.mem_append, List.mem_cons, Option.mem_some_iff,
          eq_comm (a := x)]
        tauto
      · cases ht
  | loop =>
      simp only [takeEntry] at ht
      split at ht
      · rename_i e' rest hloop
        split at ht
        · obtain ⟨rfl, rfl⟩ := Prod.mk.inj (Option.some.inj ht)
          refine ⟨rfl, by simp [Worker.pending, hloop], rfl, fun x => ?_, fun hr => ?_⟩
          · simp only [Worker.channel, hloop, List.mem_append, List.mem_singleton,
              Option.mem_some_iff, List.not_mem_nil, eq_comm (a := x)]
            tauto
          · rw [hloop] at hr
            cases hr
        · cases ht
      · cases ht
  | ack e' =>
      simp only [takeEntry] at ht
      split at ht
      · rename_i hguard
        obtain ⟨rfl, rfl⟩ := Prod.mk.inj (Option.some.inj ht)
        refine ⟨rfl, rfl, rfl, fun x => ?_, id⟩
        have hacking : x ∈ w.acking ↔ x ∈ w.acking.erase e' ∨ e' = x := by
          rw [(List.perm_cons_erase hguard.2).mem_iff, List.mem_cons, or_comm, eq_comm]
        simp only [Worker.channel, List.mem_append, hacking, Option.mem_some_iff]
        tauto
      · cases ht

theorem recorded_take (h : Inv cfg s) {source : Source} {order : List Entry}
    (hstep : step cfg s (.take i source order) = some s') :
    Recorded cfg s s' (.take i source order) := by
  simp only [step] at hstep
  split at hstep
  · rename_i e u hdel ht
    obtain ⟨hmap, hpend, hfl, hch, hloop⟩ := takeEntry_spec ht
    obtain ⟨w', bs, hmoves, rfl, hpend'⟩ := moves_of_collect (h.worker i) hmap hpend hfl hch
      (fun hp => hloop ((h.worker i).pool hp)) hstep
    exact Or.inr ⟨i, w', [], [], [], [], bs, hmoves, rfl, .of_pending hpend'⟩
  · cases hstep

theorem recorded_tick (h : Inv cfg s) {order : List Entry}
    (hstep : step cfg s (.tick i order) = some s') : Recorded cfg s s' (.tick i order) := by
  simp only [step] at hstep
  split at hstep
  · obtain ⟨w', bs, hmoves, rfl, hpend'⟩ := moves_of_collect (h.worker i) rfl rfl rfl
      (fun x => by simp) (h.worker i).pool hstep
    exact Or.inr ⟨i, w', [], [], [], [], bs, hmoves, rfl, .of_pending hpend'⟩
  · cases hstep

theorem recorded_check (h : Inv cfg s) (hstep : step cfg s (.check i) = some s') :
    Recorded cfg s s' (.check i) := by
  simp only [step] at hstep
  split at hstep
  · obtain rfl := Option.some.inj hstep
    refine Or.inr ⟨i, _, [], [], [], [], [], ?_, setWorker_eq .., .of_pending rfl⟩
    exact moves_of_sameMap (h.worker i) rfl (fun x hx => Or.inl hx) (fun x hx => Or.inl hx)
      (by simp) (by simp) (by simp) (fun e => by simp [Worker.waiting, Worker.channel])
      (h.worker i).pool (by simp) fun x hx => Or.inl (hx.resolve_right (by simp))
  · cases hstep

/-- What a step can be. -/
theorem recorded_of_step (h : Inv cfg s) {a : Action} (hstep : step cfg s a = some s') :
    Recorded cfg s s' a := by
  cases a with
  | response i messages => exact recorded_response h hstep
  | handle i => exact recorded_handle h hstep
  | push i => exact recorded_push h hstep
  | ack i m hasMessage => exact recorded_ack h hstep
  | nack i m => exact recorded_nack h hstep
  | pushAck i e => exact recorded_pushAck h hstep
  | take i source order => exact recorded_take h hstep
  | tick i order => exact recorded_tick h hstep
  | check i => exact recorded_check h hstep
  | stopReceiving => exact Or.inl ⟨true, (Option.some.inj hstep).symm⟩

/-- Every step keeps the invariant. -/
theorem inv_step (h : Inv cfg s) {a : Action} (hstep : step cfg s a = some s') : Inv cfg s' := by
  rcases recorded_of_step h hstep with ⟨b, rfl⟩ | ⟨i, w', ms, hs, as, ds, bs, hm, rfl, -⟩
  · refine ⟨fun i => ?_, h.handed, h.acked, h.due, h.ackedDue, h.accounted, h.batches, h.never⟩
    have hw := h.worker i
    exact ⟨hw.pending, hw.inFlight, hw.waiting, hw.ids, hw.small, hw.never, hw.kept, hw.pool⟩
  · exact inv_record h hm

theorem inv_receive : Inv cfg receive where
  worker i := by
    refine ⟨by simp [receive, startReceiveWorker, Worker.pending], by simp [receive,
      startReceiveWorker], by simp [receive, startReceiveWorker, Worker.waiting, Worker.channel],
      List.nodup_nil, cfg.maxNumberOfMessages_bounds.1, fun _ => rfl, ?_, fun _ => rfl⟩
    intro _ e he
    cases he
  handed := by simp [receive]
  acked := by simp [receive]
  due := by simp [receive]
  ackedDue := by simp [receive]
  accounted := by simp [receive]
  batches := by simp [receive]
  never _ := rfl

theorem inv_of_run {as : List Action} (hrun : Runs.run (step cfg) receive as = some s) :
    Inv cfg s :=
  Runs.run_induction (P := Inv cfg) (fun _ _ _ h hs => inv_step h hs) inv_receive hrun

/-! ## What is deleted -/

/-- **Only what is settled is deleted.**  Every call of `DeleteMessageBatch` in every run is
made by a receiver that may delete, is one that the queue accepts, and names only messages that
the routes have acked, or that have been received too often, or whose body is no JSON. -/
theorem deleted_when_settled {as : List Action} (hrun : Runs.run (step cfg) receive as = some s)
    {batch : List Entry} (hb : (i, batch) ∈ s.batches) :
    cfg.neverDelete = false ∧ cfg.GoodBatch batch ∧ ∀ e ∈ batch, s.Settled cfg e := by
  have h := inv_of_run hrun
  obtain ⟨hgood, hdue⟩ := h.batches _ hb
  refine ⟨?_, hgood, fun e he => h.due _ (hdue e he)⟩
  rw [← Bool.not_eq_true]
  intro hn
  rw [h.never hn] at hb
  cases hb

/-! ## How often the routes get a message -/

/-- The attribute of every message says at least how often the message has been received
before. -/
def CountedFrom (received : List Message) : List Message → Prop
  | [] => True
  | m :: ms => (received.countP (fun x => x.messageId = m.messageId) : ℤ) ≤ m.retryAttempt ∧
      CountedFrom (received ++ [m]) ms

instance decidableCountedFrom : (received ms : List Message) → Decidable (CountedFrom received ms)
  | _, [] => isTrue trivial
  | received, m :: ms =>
      have := decidableCountedFrom (received ++ [m]) ms
      inferInstanceAs (Decidable (_ ∧ _))

/-- What the queue promises of `ApproximateReceiveCount`. -/
def Counted (s : Receiver) : Action → Prop
  | .response _ (some ms) => CountedFrom s.received ms
  | _ => True

instance (s : Receiver) : (a : Action) → Decidable (Counted s a)
  | .response _ (some ms) => inferInstanceAs (Decidable (CountedFrom s.received ms))
  | .response _ none => isTrue trivial
  | .handle _ => isTrue trivial
  | .push _ => isTrue trivial
  | .ack _ _ _ => isTrue trivial
  | .nack _ _ => isTrue trivial
  | .pushAck _ _ => isTrue trivial
  | .take _ _ _ => isTrue trivial
  | .tick _ _ => isTrue trivial
  | .check _ => isTrue trivial
  | .stopReceiving => isTrue trivial

/-- The receptions of a message that are not too late. -/
def early (cfg : ReceiverConfig) (id : String) (m : Message) : Bool :=
  decide (m.messageId = id) && decide (m.retryAttempt ≤ cfg.numRetries)

/-- The counts that bound how often a message is handed out. -/
structure Bounded (cfg : ReceiverConfig) (s : Receiver) : Prop where
  inv : Inv cfg s
  early : ∀ id, s.received.countP (early cfg id) ≤ cfg.numRetries + 1
  once : ∀ p : Message → Bool, s.handed.countP p +
    ∑ i ∈ Finset.range cfg.receiverPoolSize, (s.worker i).pending.countP p ≤ s.received.countP p

/-- A response of a queue that counts. -/
theorem early_append (id : String) {received ms : List Message}
    (h : received.countP (early cfg id) ≤ cfg.numRetries + 1) (hms : CountedFrom received ms) :
    (received ++ ms).countP (early cfg id) ≤ cfg.numRetries + 1 := by
  induction ms generalizing received with
  | nil => simpa using h
  | cons m ms ih =>
      obtain ⟨hcount, hrest⟩ := hms
      have hle : (received ++ [m]).countP (early cfg id) ≤ cfg.numRetries + 1 := by
        rw [List.countP_append, List.countP_cons, List.countP_nil, Nat.zero_add]
        split
        · rename_i hm
          rw [early, Bool.and_eq_true, decide_eq_true_iff, decide_eq_true_iff] at hm
          obtain ⟨rfl, hretry⟩ := hm
          -- the attribute has counted every earlier reception
          have hsub : received.countP (early cfg m.messageId) ≤
              received.countP (fun x => decide (x.messageId = m.messageId)) :=
            List.countP_mono_left fun x _ hx => (Bool.and_eq_true _ _ ▸ hx).1
          omega
        · omega
      rw [List.append_cons]
      exact ih hle hrest

/-- One step with a queue that counts. -/
theorem bounded_step (h : Bounded cfg s) {a : Action} (hcounted : Counted s a)
    (hstep : step cfg s a = some s') : Bounded cfg s' := by
  have hinv := inv_step h.inv hstep
  rcases recorded_of_step h.inv hstep with ⟨b, rfl⟩ | ⟨i, w', ms, hs, as, ds, bs, hm, rfl, hfed⟩
  · exact ⟨hinv, h.early, h.once⟩
  · refine ⟨hinv, fun id => ?_, fun p => ?_⟩
    · rcases hfed.received with rfl | ⟨rfl, -⟩
      · simpa [record] using h.early id
      · exact early_append id (h.early id) hcounted
    · show (s.handed ++ hs).countP p + ∑ j ∈ Finset.range cfg.receiverPoolSize,
        (Function.update s.worker i w' j).pending.countP p ≤ (s.received ++ ms).countP p
      rw [List.countP_append, List.countP_append]
      have honce := h.once p
      have hcount := hfed.count p
      by_cases hi : i < cfg.receiverPoolSize
      · have hmem := Finset.mem_range.mpr hi
        rw [← Finset.add_sum_erase _ _ hmem, Function.update_self,
          Finset.sum_congr rfl fun j hj => by
            rw [Function.update_of_ne (Finset.ne_of_mem_erase hj)]]
        rw [← Finset.add_sum_erase _ _ hmem] at honce
        omega
      · -- the other workers do nothing
        have hpend : (s.worker i).pending = [] := by
          unfold Worker.pending
          rw [(h.inv.worker i).pool (Nat.not_lt.mp hi)]
        have hms : ms = [] := hfed.received.resolve_right fun hr => hi hr.2
        have hsum : ∑ j ∈ Finset.range cfg.receiverPoolSize,
            (Function.update s.worker i w' j).pending.countP p =
              ∑ j ∈ Finset.range cfg.receiverPoolSize, (s.worker j).pending.countP p := by
          refine Finset.sum_congr rfl fun j hj => ?_
          have hji : j ≠ i := by
            rintro rfl
            exact hi (Finset.mem_range.mp hj)
          rw [Function.update_of_ne hji]
        rw [hsum]
        rw [hpend, hms, List.countP_nil] at hcount
        omega

/-- **The routes get a message at most `numRetries + 1` times**, in every run with a queue that
counts, over all workers together. -/
theorem handed_le_retries {as : List Action} (hcounted : Runs.Along (step cfg) Counted receive as)
    (hrun : Runs.run (step cfg) receive as = some s) (id : String) :
    s.handed.countP (fun m => m.messageId = id) ≤ cfg.numRetries + 1 := by
  have h : Bounded cfg s := Runs.run_induction_along (P := Bounded cfg)
    (fun _ _ _ h hG hs => bounded_step h hG hs) ⟨inv_receive, by simp [receive], fun p => by
      simp [receive, startReceiveWorker, Worker.pending]⟩ hcounted hrun
  have hearly : s.handed.countP (fun m => m.messageId = id) = s.handed.countP (early cfg id) := by
    refine List.countP_congr fun m hm => ?_
    have hok := (h.inv.handed m hm).2.1
    unfold ReceiverConfig.Exhausted at hok
    simp [early, Int.not_lt.mp hok]
  have honce := h.once (early cfg id)
  have hle := h.early id
  omega

/-! ## Nothing is lost on the way to the queue -/

/-- **Every message is accounted for.**  In every run of a receiver that may delete, a message
that has been received is still to be handled, or has been handed to the routes, or its entry is
on its way: with a goroutine that waits for the channel, in the channel, in the map of a delete
loop, or in a call that has been made.  Once the routes have acked it, with an event that still
has the message in its metadata, its entry is on its way. -/
theorem due_deleted_or_waiting {as : List Action} (hn : cfg.neverDelete = false)
    (hrun : Runs.run (step cfg) receive as = some s) {m : Message} (hm : m ∈ s.received) :
    let onItsWay := ∃ i, m.messageId ∈ (s.worker i).waiting.map Entry.id ∨
      ∃ batch, (i, batch) ∈ s.batches ∧ m.messageId ∈ batch.map Entry.id
    ((∃ i, m ∈ (s.worker i).pending) ∨ m ∈ s.handed ∨ onItsWay) ∧ (m ∈ s.acked → onItsWay) := by
  have h := inv_of_run hrun
  refine ⟨?_, fun hacked => ?_⟩
  · refine (h.accounted m hm).imp id (Or.imp id ?_)
    rintro ⟨i, hi⟩
    exact ⟨i, (h.worker i).kept hn m.entry hi⟩
  · obtain ⟨i, hi⟩ := h.ackedDue m hacked
    exact ⟨i, (h.worker i).kept hn m.entry hi⟩

/-- The receiver has not been stopped, and the delete loop of the worker is in its `select`. -/
structure Ready (s : Receiver) (i : ℕ) : Prop where
  stopped : s.stopped = false
  select : (s.worker i).deleter = .select

/-- A step that moves an entry of the worker on its way: nothing is received from the queue, and
the routes neither ack nor nack. -/
def Drains (i : ℕ) : Action → Prop
  | .push j | .pushAck j _ | .take j _ _ | .tick j _ | .check j => j = i
  | _ => False

/-- The worker can get on by such steps. -/
def Reaches (cfg : ReceiverConfig) (i : ℕ) (s s' : Receiver) : Prop :=
  (∃ as, (∀ a ∈ as, Drains i a) ∧ Runs.run (step cfg) s as = some s') ∧ s'.due = s.due

theorem Reaches.refl (cfg : ReceiverConfig) (i : ℕ) (s : Receiver) : Reaches cfg i s s :=
  ⟨⟨[], by simp, rfl⟩, rfl⟩

theorem Reaches.trans {t : Receiver} (h : Reaches cfg i s t) (h' : Reaches cfg i t s') :
    Reaches cfg i s s' := by
  obtain ⟨⟨as, hall, has⟩, hdue⟩ := h
  obtain ⟨⟨bs, hall', hbs⟩, hdue'⟩ := h'
  exact ⟨⟨as ++ bs, fun a ha => (List.mem_append.mp ha).elim (hall a) (hall' a),
    Runs.run_append_eq_some.mpr ⟨t, has, hbs⟩⟩, hdue'.trans hdue⟩

theorem Reaches.of_step {a : Action} (hstep : step cfg s a = some s') (ha : Drains i a)
    (hdue : s'.due = s.due) : Reaches cfg i s s' :=
  ⟨⟨[a], by simpa using ha, by rw [Runs.run_singleton, hstep]⟩, hdue⟩

/-- A delete loop ends only when the receiver has been stopped. -/
theorem stopped_of_ended_step (h : ∀ i, (s.worker i).deleter = .ended → s.stopped = true)
    {a : Action} (hstep : step cfg s a = some s') :
    ∀ i, (s'.worker i).deleter = .ended → s'.stopped = true := by
  -- a step that sets the flag, or gives one worker a delete loop that has not ended by itself
  have hset : ∀ (t : Receiver) (j : ℕ) (w : Worker), t.stopped = s.stopped →
      t.worker = Function.update s.worker j w → (w.deleter = .ended → s.stopped = true) →
        ∀ i, (t.worker i).deleter = .ended → t.stopped = true := by
    intro t j w hstopped hworker hw i
    rw [hstopped, hworker]
    by_cases hi : i = j
    · rw [hi, Function.update_self]
      exact hw
    · rw [Function.update_of_ne hi]
      exact h i
  have hcollect : ∀ {u : Worker} {delEntry : Option Entry} {order : List Entry} {j : ℕ},
      collect cfg s j u delEntry order = some s' →
        ∀ i, (s'.worker i).deleter = .ended → s'.stopped = true := by
    intro u delEntry order j hcollect
    unfold collect at hcollect
    dsimp only at hcollect
    split_ifs at hcollect
    all_goals
      obtain rfl := Option.some.inj hcollect
      exact hset _ j _ rfl rfl (by simp)
  cases a with
  | response j messages =>
      simp only [step] at hstep
      split_ifs at hstep with hguard hstop
      · obtain rfl := Option.some.inj hstep
        exact hset _ j _ rfl rfl (h j)
      · cases messages <;> obtain rfl := Option.some.inj hstep
        · exact h
        · exact hset _ j _ rfl rfl (h j)
  | handle j =>
      simp only [step, handleMessage] at hstep
      split at hstep
      · obtain rfl := Option.some.inj hstep
        exact hset _ j _ rfl rfl (h j)
      · split_ifs at hstep <;> obtain rfl := Option.some.inj hstep <;>
          exact hset _ j _ rfl rfl (h j)
      · cases hstep
  | push j =>
      simp only [step] at hstep
      split at hstep
      · split_ifs at hstep
        obtain rfl := Option.some.inj hstep
        exact hset _ j _ rfl rfl (h j)
      · cases hstep
  | ack j m hasMessage =>
      simp only [step] at hstep
      split_ifs at hstep <;> obtain rfl := Option.some.inj hstep <;>
        exact hset _ j _ rfl rfl (h j)
  | nack j m =>
      simp only [step] at hstep
      split_ifs at hstep
      obtain rfl := Option.some.inj hstep
      exact hset _ j _ rfl rfl (h j)
  | pushAck j e =>
      simp only [step] at hstep
      split_ifs at hstep
      obtain rfl := Option.some.inj hstep
      exact hset _ j _ rfl rfl (h j)
  | take j source order =>
      simp only [step] at hstep
      split at hstep
      · exact hcollect hstep
      · cases hstep
  | tick j order =>
      simp only [step] at hstep
      split at hstep
      · exact hcollect hstep
      · cases hstep
  | check j =>
      simp only [step] at hstep
      split at hstep
      · obtain rfl := Option.some.inj hstep
        refine hset _ j _ rfl rfl fun hended => ?_
        by_contra hstop
        simp [hstop] at hended
      · cases hstep
  | stopReceiving =>
      obtain rfl := Option.some.inj hstep
      exact fun _ _ => rfl

theorem stopped_of_ended {as : List Action} (hrun : Runs.run (step cfg) receive as = some s) :
    ∀ i, (s.worker i).deleter = .ended → s.stopped = true :=
  Runs.run_induction
    (P := fun s : Receiver => ∀ i, (s.worker i).deleter = .ended → s.stopped = true)
    (fun _ _ _ h hs => stopped_of_ended_step h hs) (by simp [receive, startReceiveWorker]) hrun

/-- The delete loop after its `select`, with an order in which it can visit its map. -/
theorem exists_collect (s : Receiver) (i : ℕ) (u : Worker) (delEntry : Option Entry) :
    ∃ order s₁ m, collect cfg s i u delEntry order = some s₁ ∧
      s₁.stopped = s.stopped ∧ s₁.due = s.due ∧
        s₁.worker i = { u with deleteMap := m, deleter := .checking } ∧
          (delEntry = none → m = []) := by
  have hsome : ∃ order s₁, collect cfg s i u delEntry order = some s₁ := by
    unfold collect
    dsimp only
    split
    · exact ⟨_, _, if_pos (List.isPerm_iff.mpr (List.Perm.refl _))⟩
    · exact ⟨[], _, rfl⟩
  obtain ⟨order, s₁, hs₁⟩ := hsome
  refine ⟨order, s₁, ?_⟩
  have h := hs₁
  unfold collect at h
  dsimp only at h
  split at h
  · split at h
    · obtain rfl := Option.some.inj h
      exact ⟨[], hs₁, rfl, rfl, Function.update_self .., fun _ => rfl⟩
    · cases h
  · rename_i hfull
    obtain rfl := Option.some.inj h
    refine ⟨_, hs₁, rfl, rfl, Function.update_self .., ?_⟩
    rintro rfl
    rw [not_or, not_and, not_lt, Nat.le_zero, List.length_eq_zero_iff] at hfull
    exact hfull.2 rfl

/-- The delete loop goes from its `select` back to its `select`. -/
theorem reaches_collect (hr : Ready s i) (u : Worker) (delEntry : Option Entry)
    (hstep : ∀ order, ∃ a, Drains i a ∧ step cfg s a = collect cfg s i u delEntry order) :
    ∃ s', Reaches cfg i s s' ∧ Ready s' i ∧ (s'.worker i).loop = u.loop ∧
      (s'.worker i).acking = u.acking ∧ (s'.worker i).entries = u.entries ∧
        (delEntry = none → (s'.worker i).deleteMap = []) := by
  obtain ⟨order, s₁, m, hs₁, hstop, hdue, hw, hm⟩ := exists_collect s i u delEntry
  obtain ⟨a, hdrains, ha⟩ := hstep order
  have hstop : s₁.stopped = false := hstop.trans hr.stopped
  have hcheck : step cfg s₁ (.check i) =
      some (s₁.setWorker i { s₁.worker i with deleter := .select }) := by
    simp only [step, hw, hstop]
    rfl
  refine ⟨_, (Reaches.of_step (ha.trans hs₁) hdrains hdue).trans (.of_step hcheck rfl rfl),
    ⟨hstop, ?_⟩, ?_⟩
  · simp [setWorker]
  · simpa [setWorker, hw] using hm

/-- How many steps the entries of a worker need to get to the delete loop. -/
def steps (w : Worker) : ℕ :=
  2 * (match w.loop with
    | .sending _ _ => 1
    | _ => 0) + 2 * w.acking.length + w.entries.length

/-- When no ack function waits and the buffer is empty, the receive loop waits. -/
theorem exists_sending (hch : w.channel ≠ []) (hacking : w.acking = []) (hentries : w.entries = []) :
    ∃ e rest, w.loop = .sending e rest := by
  cases hloop : w.loop with
  | sending e rest => exact ⟨e, rest, rfl⟩
  | receiving => exact absurd (by simp [Worker.channel, hloop, hacking, hentries]) hch
  | handling rest => exact absurd (by simp [Worker.channel, hloop, hacking, hentries]) hch
  | ended => exact absurd (by simp [Worker.channel, hloop, hacking, hentries]) hch

/-- A worker with an entry in its channel can get it closer to the delete loop. -/
theorem exists_closer (hr : Ready s i) (hch : (s.worker i).channel ≠ []) :
    ∃ s', Reaches cfg i s s' ∧ Ready s' i ∧ steps (s'.worker i) < steps (s.worker i) := by
  have htake : ∀ source e u, takeEntry cfg (s.worker i) source = some (e, u) →
      steps u < steps (s.worker i) →
        ∃ s', Reaches cfg i s s' ∧ Ready s' i ∧ steps (s'.worker i) < steps (s.worker i) := by
    intro source e u ht hlt
    have hstep : ∀ order, ∃ a, Drains i a ∧ step cfg s a = collect cfg s i u (some e) order :=
      fun order => ⟨.take i source order, rfl, by simp only [step, hr.select, ht]⟩
    obtain ⟨s', hreach, hr', hloop, hacking, hentries, -⟩ := reaches_collect hr u (some e) hstep
    refine ⟨s', hreach, hr', ?_⟩
    unfold steps at hlt ⊢
    rwa [hloop, hacking, hentries]
  cases hentries : (s.worker i).entries with
  | cons e rest =>
      refine htake .buffer e { s.worker i with entries := rest } (by simp [takeEntry, hentries]) ?_
      simp [steps, hentries]
  | nil =>
      by_cases hdepth : cfg.receiverQueueDepth = 0
      · -- no buffer: the delete loop meets a goroutine that waits to send
        cases hacking : (s.worker i).acking with
        | cons e rest =>
            refine htake (.ack e) e { s.worker i with acking := (s.worker i).acking.erase e }
              (by simp [takeEntry, hdepth, hacking]) ?_
            simp [steps, hacking]
        | nil =>
            obtain ⟨e, rest, hloop⟩ := exists_sending hch hacking hentries
            refine htake .loop e { s.worker i with loop := .handling rest }
              (by simp [takeEntry, hdepth, hloop]) ?_
            simp [steps, hloop]
      · have hroom : (s.worker i).entries.length < cfg.receiverQueueDepth := by
          rw [hentries, List.length_nil]
          omega
        cases hacking : (s.worker i).acking with
        | cons e rest =>
            have hstep : step cfg s (.pushAck i e) = some (s.setWorker i { s.worker i with
                acking := (s.worker i).acking.erase e
                entries := (s.worker i).entries ++ [e] }) := by
              simp only [step]
              rw [if_pos ⟨by simp [hacking], hroom⟩]
            refine ⟨_, .of_step hstep rfl rfl, ⟨hr.stopped, ?_⟩, ?_⟩
            · simpa [setWorker] using hr.select
            · simp [setWorker, steps, hacking, hentries]
              omega
        | nil =>
            obtain ⟨e, rest, hloop⟩ := exists_sending hch hacking hentries
            have hstep : step cfg s (.push i) = some (s.setWorker i { s.worker i with
                loop := .handling rest, entries := (s.worker i).entries ++ [e] }) := by
              simp only [step, hloop]
              rw [if_pos hroom]
            refine ⟨_, .of_step hstep rfl rfl, ⟨hr.stopped, ?_⟩, ?_⟩
            · simpa [setWorker] using hr.select
            · simp [setWorker, steps, hloop, hentries]
              omega

/-- A worker can empty its channel. -/
theorem exists_empty (cfg : ReceiverConfig) (hr : Ready s i) :
    ∃ s', Reaches cfg i s s' ∧ Ready s' i ∧ (s'.worker i).channel = [] := by
  induction hn : steps (s.worker i) using Nat.strong_induction_on generalizing s with
  | _ n ih =>
      by_cases hch : (s.worker i).channel = []
      · exact ⟨s, .refl cfg i s, hr, hch⟩
      · obtain ⟨t, hreach, hrt, hlt⟩ := exists_closer hr hch
        obtain ⟨s', hreach', hr', hempty⟩ := ih _ (hn ▸ hlt) hrt rfl
        exact ⟨s', hreach.trans hreach', hr', hempty⟩

/-- **The delete loop never gets stuck.**  From every state that a receiver reaches that may
delete and has not been stopped, every worker can go on, by steps of its own without new messages
and acks, so that every entry that is to be deleted by it so far has been in a call of
`DeleteMessageBatch`. -/
theorem can_drain {as : List Action} (hn : cfg.neverDelete = false)
    (hrun : Runs.run (step cfg) receive as = some s) (hstop : s.stopped = false) (i : ℕ) :
    ∃ bs s', (∀ a ∈ bs, Drains i a) ∧ Runs.run (step cfg) s bs = some s' ∧ s'.stopped = false ∧
      s'.due = s.due ∧
        ∀ e, (i, e) ∈ s.due → ∃ batch, (i, batch) ∈ s'.batches ∧ e.id ∈ batch.map Entry.id := by
  obtain ⟨t, hreach, hrt⟩ : ∃ t, Reaches cfg i s t ∧ Ready t i := by
    cases hsel : (s.worker i).deleter with
    | select => exact ⟨s, .refl cfg i s, hstop, hsel⟩
    | checking =>
        have hcheck : step cfg s (.check i) =
            some (s.setWorker i { s.worker i with deleter := .select }) := by
          simp [step, hsel, hstop]
        exact ⟨_, .of_step hcheck rfl rfl, hstop, by simp [setWorker]⟩
    | ended => exact absurd (stopped_of_ended hrun i hsel) (by simp [hstop])
  obtain ⟨u, hreach', hru, hempty⟩ := exists_empty cfg hrt
  -- a second without entries, and what is in the map is deleted
  have htick : ∀ order, ∃ a, Drains i a ∧ step cfg u a = collect cfg u i (u.worker i) none order :=
    fun order => ⟨.tick i order, rfl, by simp only [step, hru.select]⟩
  obtain ⟨s', hreach'', hr', hloop, hacking, hentries, hmap⟩ :=
    reaches_collect hru (u.worker i) none htick
  obtain ⟨⟨bs, hall, hbs⟩, hdue⟩ := (hreach.trans hreach').trans hreach''
  refine ⟨bs, s', hall, hbs, hr'.stopped, hdue, fun e he => ?_⟩
  have h := inv_of_run (Runs.run_append_eq_some.mpr ⟨s, hrun, hbs⟩)
  have hwaiting : (s'.worker i).waiting = [] := by
    unfold Worker.waiting Worker.channel
    unfold Worker.channel at hempty
    rw [hloop, hacking, hentries, hempty, hmap rfl]
    rfl
  have hkept := (h.worker i).kept hn e (hdue ▸ he)
  rw [hwaiting] at hkept
  exact hkept.resolve_left (by simp)

/-! ### Two workers -/

/-- Two workers, channels without a buffer, two messages in a batch, one retry. -/
def twoWorkers : ReceiverConfig where
  maxNumberOfMessages := 2
  numRetries := 1
  receiverQueueDepth := 0
  receiverPoolSize := 2
  neverDelete := false
  unmarshal body := body == "7"
  maxNumberOfMessages_bounds := by decide
  receiverPoolSize_pos := by decide

/-- The first worker gets a message that the routes ack and one that is no JSON; the second
gets the first message again, after the first worker. -/
def sharedQueue : List Action :=
  [.response 0 (some [⟨"a", "r1", "7", some "1"⟩, ⟨"b", "r2", "x", some "1"⟩]), .handle 0,
    .response 1 (some [⟨"a", "r3", "7", some "2"⟩]), .handle 1, .handle 0,
    .take 0 .loop [], .check 0, .nack 1 ⟨"a", "r3", "7", some "2"⟩,
    .ack 0 ⟨"a", "r1", "7", some "1"⟩ true, .take 0 (.ack ⟨"a", "r1"⟩) [⟨"a", "r1"⟩, ⟨"b", "r2"⟩]]

theorem deleted_when_settled_sharedQueue :
    ∃ s, Runs.run (step twoWorkers) receive sharedQueue = some s ∧
      (0, [⟨"a", "r1"⟩, ⟨"b", "r2"⟩]) ∈ s.batches ∧ twoWorkers.neverDelete = false ∧
        twoWorkers.GoodBatch [⟨"a", "r1"⟩, ⟨"b", "r2"⟩] ∧
          ∀ e ∈ [⟨"a", "r1"⟩, ⟨"b", "r2"⟩], s.Settled twoWorkers e := by
  have hbatches : (Runs.run (step twoWorkers) receive sharedQueue).map
      (fun s => s.batches) = some [(0, [⟨"a", "r1"⟩, ⟨"b", "r2"⟩])] := by decide +kernel
  obtain ⟨s, hs, hb⟩ := Option.map_eq_some_iff.mp hbatches
  have hmem : (0, [⟨"a", "r1"⟩, ⟨"b", "r2"⟩]) ∈ s.batches := hb ▸ List.mem_cons_self
  exact ⟨s, hs, hmem, deleted_when_settled hs hmem⟩

/-- Both workers have handed out the message `a`, which is as often as one retry allows. -/
theorem handed_le_retries_sharedQueue :
    ∃ s, Runs.run (step twoWorkers) receive sharedQueue = some s ∧
      s.handed.countP (fun m => m.messageId = "a") = 2 ∧
        s.handed.countP (fun m => m.messageId = "a") ≤ twoWorkers.numRetries + 1 := by
  have hhanded : (Runs.run (step twoWorkers) receive sharedQueue).map
      (fun s => s.handed.countP fun m => m.messageId = "a") = some 2 := by decide +kernel
  obtain ⟨s, hs, hcount⟩ := Option.map_eq_some_iff.mp hhanded
  exact ⟨s, hs, hcount, handed_le_retries (by decide +kernel) hs "a"⟩

theorem due_deleted_or_waiting_sharedQueue :
    ∃ s, Runs.run (step twoWorkers) receive (sharedQueue.take 9) = some s ∧
      ∃ i, "a" ∈ (s.worker i).waiting.map Entry.id ∨
        ∃ batch, (i, batch) ∈ s.batches ∧ "a" ∈ batch.map Entry.id := by
  have hacked : (Runs.run (step twoWorkers) receive (sharedQueue.take 9)).map
      (fun s => (decide (⟨"a", "r1", "7", some "1"⟩ ∈ s.received),
        decide (⟨"a", "r1", "7", some "1"⟩ ∈ s.acked))) = some (true, true) := by decide +kernel
  obtain ⟨s, hs, hmem⟩ := Option.map_eq_some_iff.mp hacked
  obtain ⟨hreceived, hacked⟩ := Prod.mk.inj hmem
  exact ⟨s, hs, (due_deleted_or_waiting rfl hs (of_decide_eq_true hreceived)).2
    (of_decide_eq_true hacked)⟩

/-- Before the last call, the first worker has one entry in its map and one goroutine that
waits to send. -/
theorem can_drain_sharedQueue :
    ∃ s bs s', Runs.run (step twoWorkers) receive (sharedQueue.take 9) = some s ∧
      s.due = [(0, ⟨"b", "r2"⟩), (0, ⟨"a", "r1"⟩)] ∧ (∀ a ∈ bs, Drains 0 a) ∧
        Runs.run (step twoWorkers) s bs = some s' ∧ s'.stopped = false ∧ s'.due = s.due ∧
          ∀ e, (0, e) ∈ s.due →
            ∃ batch, (0, batch) ∈ s'.batches ∧ e.id ∈ batch.map Entry.id := by
  have hstate : (Runs.run (step twoWorkers) receive (sharedQueue.take 9)).map
      (fun s => (s.stopped, s.due)) = some (false, [(0, ⟨"b", "r2"⟩), (0, ⟨"a", "r1"⟩)]) := by
    decide +kernel
  obtain ⟨s, hs, hpair⟩ := Option.map_eq_some_iff.mp hstate
  obtain ⟨hstop, hdue⟩ := Prod.mk.inj hpair
  obtain ⟨bs, s', hrest⟩ := can_drain rfl hs hstop 0
  exact ⟨s, bs, s', hs, hdue, hrest⟩

end Receiver

end SqsReceiver
