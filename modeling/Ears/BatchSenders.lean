/-
# Batching senders (`pkg/plugins/sqs/sender.go`, `pkg/plugins/kinesis/sender.go`)

The senders for SQS and Kinesis gather events in `eventBatch`.  `Send` appends an event and sends
the batch when it is full, a timer goroutine sends what there is at every tick, and
`StopSending` ends the timer goroutine by a value on the channel `done`.  The two senders
differ in `send` only, which is a field here.

All three use one mutex, the one of the embedded `MetricPlugin`, and so do the calls of
`LogSuccess` and `LogError` in `send`.  A step is what a goroutine does between two points at which
it can wait: taking the mutex, a locked section, an ack or nack, the rendezvous on `done`.

`drops_nothing_iff`: every event that was sent is in one batch or still in `eventBatch`, in order,
and no batch is too long; but what is in `eventBatch` when the timer goroutine ends stays there
unless later events fill the batch.
-/
import Ears.BatchSend
import Ears.Runs

open GoLib

namespace BatchSender

/-! ## Goroutines -/

/-- What a sender is configured with: the schemas want at least one message in a batch.  `ρ` are
the answers of the service. -/
structure SenderConfig (E ρ : Type) where
  maxNumberOfMessages : ℕ
  positive : 0 < maxNumberOfMessages
  send : List E → ρ → List SendEffect

/-- The calls of `LogSuccess` and `LogError` lock the mutex. -/
def locks : SendEffect → Bool
  | .logSuccess => true
  | .logError => true
  | _ => false

/-- A goroutine in `send`: before the next effect, in the locked section of a log call, before
reading the metrics that it is to write, and in the locked section that reads them. -/
inductive Sending where
  | next (effects : List SendEffect)
  | logging (effects : List SendEffect)
  | metric (effects : List SendEffect)
  | reading (effects : List SendEffect)
  deriving DecidableEq, Repr

namespace Sending

/-- It waits for the mutex, unless that is free. -/
def atLock : Sending → Bool
  | next (effect :: _) => locks effect
  | metric _ => true
  | _ => false

/-- It holds the mutex. -/
def holds : Sending → Bool
  | logging _ => true
  | reading _ => true
  | _ => false

/-- Once it has the mutex. -/
def locked : Sending → Option Sending
  | next (effect :: effects) => if locks effect then some (.logging effects) else none
  | metric effects => some (.reading effects)
  | _ => none

/-- Once its locked section is over; a log call may go on to write the metrics. -/
def unlocked (writes : Bool) : Sending → Option Sending
  | logging effects => some (if writes then .metric effects else .next effects)
  | reading effects => some (.next effects)
  | _ => none

/-- After an ack or a nack. -/
def settled : Sending → Option Sending
  | next (.ack _ :: effects) => some (.next effects)
  | next (.nack _ _ :: effects) => some (.next effects)
  | _ => none

end Sending

/-- The timer goroutine: in its `select`, before and in its locked section, in `send`, or at its
end. -/
inductive TimerPhase where
  | select
  | lock
  | swap
  | send (p : Sending)
  | returned
  deriving DecidableEq, Repr

/-- A call of `Send`: not made yet, before and in its locked section, in `send`, or at its end. -/
inductive SendPhase (E : Type) where
  | idle
  | lock (e : E)
  | append (e : E)
  | send (e : E) (p : Sending)
  | returned (e : E)
  deriving DecidableEq, Repr

/-- A call of `StopSending`: not made yet, before the mutex, with the mutex, sending on `done`,
after that, and at its end. -/
inductive StopPhase where
  | idle
  | lock
  | stop
  | signal
  | signalled
  | returned
  deriving DecidableEq, Repr

namespace TimerPhase

/-- It waits for the mutex, unless that is free. -/
def atLock : TimerPhase → Bool
  | lock => true
  | send p => p.atLock
  | _ => false

/-- It holds the mutex. -/
def holds : TimerPhase → Bool
  | swap => true
  | send p => p.holds
  | _ => false

/-- Once it has the mutex. -/
def locked : TimerPhase → Option TimerPhase
  | lock => some .swap
  | send p => p.locked.map .send
  | _ => none

end TimerPhase

namespace SendPhase

variable {E : Type}

/-- It holds the mutex. -/
def holds : SendPhase E → Bool
  | append _ => true
  | send _ p => p.holds
  | _ => false

/-- Once it has the mutex. -/
def locked : SendPhase E → Option (SendPhase E)
  | lock e => some (.append e)
  | send e p => p.locked.map (.send e)
  | _ => none

/-- The event that the call has appended. -/
def appended : SendPhase E → Option E
  | send e _ => some e
  | returned e => some e
  | _ => none

/-- The call was not made, or has returned. -/
def Over : SendPhase E → Prop
  | idle => True
  | returned _ => True
  | _ => False

end SendPhase

namespace StopPhase

/-- It holds the mutex. -/
def holds : StopPhase → Bool
  | stop => true
  | signal => true
  | signalled => true
  | _ => false

end StopPhase

/-- A goroutine. -/
inductive Actor where
  | timer
  | send (i : ℕ)
  | stop (i : ℕ)
  deriving DecidableEq, Repr

variable {κ : Type}

/-- The sender for SQS. -/
def sqsSender (maxNumberOfMessages : ℕ) (h : 1 ≤ maxNumberOfMessages ∧ maxNumberOfMessages ≤ 10)
    (config : Sqs.SendConfig) (marshal : Value → Except String String) :
    SenderConfig (Event κ) (Except String Sqs.Output) where
  maxNumberOfMessages := maxNumberOfMessages
  positive := h.1
  send := Sqs.send config marshal

/-- The sender for Kinesis; an answer comes with the partition keys that are made up. -/
def kinesisSender (maxNumberOfMessages : ℕ)
    (h : 1 ≤ maxNumberOfMessages ∧ maxNumberOfMessages ≤ 500) (config : Kinesis.Sender.SendConfig)
    (marshal : Value → Except String String) (textAt : Event κ → String → Option String) :
    SenderConfig (Event κ) ((ℕ → String) × Except String (List (Option String))) where
  maxNumberOfMessages := maxNumberOfMessages
  positive := h.1
  send events answer := Kinesis.Sender.send config marshal textAt answer.1 events answer.2

/-! ## A sender -/

/-- A sender with the goroutines in it.  The events of the batch come with the calls that have
appended them.  `appended` and `batches` list the events appended and the batches handed to `send`
so far, and `sinceStop` counts the events that were in the batch when the timer goroutine ended or
were appended since. -/
structure Sender (E : Type) where
  eventBatch : List (ℕ × E)
  done : Bool
  mutex : Option Actor
  timer : TimerPhase
  sends : ℕ → SendPhase E
  stops : ℕ → StopPhase
  appended : List (ℕ × E)
  batches : List (List (ℕ × E))
  sinceStop : Option ℕ

/-- The steps: new calls, a tick, taking the mutex, the locked sections, the effects of `send`, and
the rendezvous.  A step that starts a `send` comes with the answer of the service. -/
inductive Action (E ρ : Type) where
  | callSend (i : ℕ) (e : E)
  | callStop (i : ℕ)
  | tick
  | lock (a : Actor)
  | swap (answer : ρ)
  | append (i : ℕ) (answer : ρ)
  | unlock (a : Actor) (writes : Bool)
  | settle (a : Actor)
  | finish (a : Actor)
  | stop (i : ℕ)
  | signal (i : ℕ)
  | endStop (i : ℕ)

namespace Sender

variable {E ρ : Type}

/-- `startTimedSender`. -/
def start : Sender E where
  eventBatch := []
  done := true
  mutex := none
  timer := .select
  sends := fun _ => .idle
  stops := fun _ => .idle
  appended := []
  batches := []
  sinceStop := none

/-- Move the timer goroutine. -/
def setTimer (s : Sender E) (p : TimerPhase) : Sender E := { s with timer := p }

/-- Move a call of `Send`. -/
def setSend (s : Sender E) (i : ℕ) (p : SendPhase E) : Sender E :=
  { s with sends := Function.update s.sends i p }

/-- Move a call of `StopSending`. -/
def setStop (s : Sender E) (i : ℕ) (p : StopPhase) : Sender E :=
  { s with stops := Function.update s.stops i p }

/-- Hand over the mutex. -/
def setMutex (s : Sender E) (m : Option Actor) : Sender E := { s with mutex := m }

/-- Take the batch. -/
def handOver (s : Sender E) (batch : List (ℕ × E)) : Sender E :=
  { s with eventBatch := [], batches := s.batches ++ [batch] }

/-- Append an event to what was appended. -/
def record (s : Sender E) (i : ℕ) (e : E) : Sender E :=
  { s with appended := s.appended ++ [(i, e)], sinceStop := s.sinceStop.map (· + 1) }

/-- The `send` of a goroutine. -/
def sending (s : Sender E) : Actor → Option Sending
  | .timer =>
      match s.timer with
      | .send p => some p
      | _ => none
  | .send i =>
      match s.sends i with
      | .send _ p => some p
      | _ => none
  | .stop _ => none

/-- Move a goroutine within `send`. -/
def setSending (s : Sender E) (p : Sending) : Actor → Sender E
  | .timer => s.setTimer (.send p)
  | .send i =>
      match s.sends i with
      | .send e _ => s.setSend i (.send e p)
      | _ => s
  | .stop _ => s

/-- The goroutine leaves `send`. -/
def leave (s : Sender E) : Actor → Sender E
  | .timer => s.setTimer .select
  | .send i =>
      match s.sends i with
      | .send e _ => s.setSend i (.returned e)
      | _ => s
  | .stop _ => s

/-- A goroutine gets the mutex. -/
def enter (s : Sender E) : Actor → Option (Sender E)
  | .timer => s.timer.locked.map s.setTimer
  | .send i => (s.sends i).locked.map (s.setSend i)
  | .stop i =>
      match s.stops i with
      | .lock => some (s.setStop i .stop)
      | _ => none

/-- The locked section of `Send`. -/
def appendEvent (cfg : SenderConfig E ρ) (s : Sender E) (i : ℕ) (e : E) (answer : ρ) : Sender E :=
  let batch := s.eventBatch ++ [(i, e)]
  let s := (s.record i e).setMutex none
  if batch.length ≥ cfg.maxNumberOfMessages then
    (s.handOver batch).setSend i (.send e (.next (cfg.send (batch.map Prod.snd) answer)))
  else { s with eventBatch := batch }.setSend i (.returned e)

/-- The locked section of the timer goroutine. -/
def swapBatch (cfg : SenderConfig E ρ) (s : Sender E) (answer : ρ) : Sender E :=
  let batch := s.eventBatch
  if batch = [] then (s.setMutex none).setTimer .select
  else
    ((s.handOver batch).setMutex none).setTimer
      (.send (.next (cfg.send (batch.map Prod.snd) answer)))

/-- One step. -/
def step (cfg : SenderConfig E ρ) (s : Sender E) : Action E ρ → Option (Sender E)
  | .callSend i e =>
      match s.sends i with
      | .idle => some (s.setSend i (.lock e))
      | _ => none
  | .callStop i =>
      match s.stops i with
      | .idle => some (s.setStop i .lock)
      | _ => none
  | .tick =>
      match s.timer with
      | .select => some (s.setTimer .lock)
      | _ => none
  | .lock a =>
      match s.mutex with
      | none => (s.enter a).map fun s => s.setMutex (some a)
      | some _ => none
  | .swap answer =>
      match s.timer with
      | .swap => some (s.swapBatch cfg answer)
      | _ => none
  | .append i answer =>
      match s.sends i with
      | .append e => some (s.appendEvent cfg i e answer)
      | _ => none
  | .unlock a writes =>
      match (s.sending a).bind fun p => p.unlocked writes with
      | some p => some ((s.setSending p a).setMutex none)
      | none => none
  | .settle a =>
      match (s.sending a).bind Sending.settled with
      | some p => some (s.setSending p a)
      | none => none
  | .finish a =>
      match s.sending a with
      | some (.next []) => some (s.leave a)
      | _ => none
  | .stop i =>
      match s.stops i with
      | .stop =>
          if s.done then some (s.setStop i .signal)
          else some ((s.setStop i .returned).setMutex none)
      | _ => none
  | .signal i =>
      -- the timer goroutine receives in its `select`
      match s.stops i, s.timer with
      | .signal, .select =>
          some { (s.setStop i .signalled).setTimer .returned with
            sinceStop := some s.eventBatch.length }
      | _, _ => none
  | .endStop i =>
      match s.stops i with
      | .signalled => some { (s.setStop i .returned).setMutex none with done := false }
      | _ => none

/-! ## The property -/

variable {cfg : SenderConfig E ρ} {s s' t : Sender E} {a : Actor} {act : Action E ρ} {i : ℕ} {e : E}

/-- A call of `StopSending` has returned, and all calls have ended. -/
def Ended (s : Sender E) : Prop :=
  (∃ i, s.stops i = .returned) ∧ (∀ i, s.stops i = .idle ∨ s.stops i = .returned) ∧
    ∀ i, (s.sends i).Over

/-- The events that were appended are in the batches handed to `send` and in `eventBatch`, in the
order in which they were appended, each call's event once, and no batch is empty or too
long. -/
structure Conserved (cfg : SenderConfig E ρ) (s : Sender E) : Prop where
  order : s.batches.flatten ++ s.eventBatch = s.appended
  once : (s.appended.map Prod.fst).Nodup
  mem : ∀ i e, (i, e) ∈ s.appended ↔ (s.sends i).appended = some e
  size : ∀ batch ∈ s.batches, 1 ≤ batch.length ∧ batch.length ≤ cfg.maxNumberOfMessages

/-- No event is lost, and none remains in the end. -/
def DropsNothing (cfg : SenderConfig E ρ) (s : Sender E) : Prop :=
  Conserved cfg s ∧ (s.Ended → s.eventBatch = [])

/-- The batch is never full, and `sinceStop` says how many events are in it at the end. -/
structure Inv (cfg : SenderConfig E ρ) (s : Sender E) : Prop where
  conserved : Conserved cfg s
  short : s.eventBatch.length < cfg.maxNumberOfMessages
  since : ∀ n, s.sinceStop = some n →
    s.timer = .returned ∧ s.eventBatch.length = n % cfg.maxNumberOfMessages
  signalled : ∀ i, s.stops i = .signalled → s.sinceStop ≠ none
  done : s.done = false → s.sinceStop ≠ none
  returned : ∀ i, s.stops i = .returned → s.done = false

theorem inv_start : Inv cfg (start : Sender E) where
  conserved := ⟨rfl, List.nodup_nil, fun _ _ => by simp [start, SendPhase.appended], by simp [start]⟩
  short := cfg.positive
  since := fun _ h => by simp [start] at h
  signalled := fun _ h => by simp [start] at h
  done := fun h => by simp [start] at h
  returned := fun _ h => by simp [start] at h

@[simp] theorem setSend_self (p : SendPhase E) : (s.setSend i p).sends i = p :=
  Function.update_self ..

theorem setSend_of_ne {j : ℕ} (h : j ≠ i) (p : SendPhase E) :
    (s.setSend i p).sends j = s.sends j := Function.update_of_ne h ..

@[simp] theorem setStop_self (p : StopPhase) : (s.setStop i p).stops i = p :=
  Function.update_self ..

theorem setStop_of_ne {j : ℕ} (h : j ≠ i) (p : StopPhase) :
    (s.setStop i p).stops j = s.stops j := Function.update_of_ne h ..

/-! ## What a step can do -/

/-- The steps with what they ask for and what they do. -/
inductive Stepped (cfg : SenderConfig E ρ) (s : Sender E) : Action E ρ → Sender E → Prop where
  | callSend (i : ℕ) (e : E) (h : s.sends i = .idle) :
      Stepped cfg s (.callSend i e) (s.setSend i (.lock e))
  | callStop (i : ℕ) (h : s.stops i = .idle) : Stepped cfg s (.callStop i) (s.setStop i .lock)
  | tick (h : s.timer = .select) : Stepped cfg s .tick (s.setTimer .lock)
  | lockTimer {p : TimerPhase} (hfree : s.mutex = none) (h : s.timer.locked = some p) :
      Stepped cfg s (.lock .timer) ((s.setTimer p).setMutex (some .timer))
  | lockSend {i : ℕ} {p : SendPhase E} (hfree : s.mutex = none) (h : (s.sends i).locked = some p) :
      Stepped cfg s (.lock (.send i)) ((s.setSend i p).setMutex (some (.send i)))
  | lockStop {i : ℕ} (hfree : s.mutex = none) (h : s.stops i = .lock) :
      Stepped cfg s (.lock (.stop i)) ((s.setStop i .stop).setMutex (some (.stop i)))
  | swap (answer : ρ) (h : s.timer = .swap) :
      Stepped cfg s (.swap answer) (s.swapBatch cfg answer)
  | append {i : ℕ} {e : E} (answer : ρ) (h : s.sends i = .append e) :
      Stepped cfg s (.append i answer) (s.appendEvent cfg i e answer)
  | unlockTimer {p q : Sending} {writes : Bool} (h : s.timer = .send p)
      (hq : p.unlocked writes = some q) :
      Stepped cfg s (.unlock .timer writes) ((s.setTimer (.send q)).setMutex none)
  | unlockSend {i : ℕ} {e : E} {p q : Sending} {writes : Bool} (h : s.sends i = .send e p)
      (hq : p.unlocked writes = some q) :
      Stepped cfg s (.unlock (.send i) writes) ((s.setSend i (.send e q)).setMutex none)
  | settleTimer {p q : Sending} (h : s.timer = .send p) (hq : p.settled = some q) :
      Stepped cfg s (.settle .timer) (s.setTimer (.send q))
  | settleSend {i : ℕ} {e : E} {p q : Sending} (h : s.sends i = .send e p)
      (hq : p.settled = some q) : Stepped cfg s (.settle (.send i)) (s.setSend i (.send e q))
  | finishTimer (h : s.timer = .send (.next [])) :
      Stepped cfg s (.finish .timer) (s.setTimer .select)
  | finishSend {i : ℕ} {e : E} (h : s.sends i = .send e (.next [])) :
      Stepped cfg s (.finish (.send i)) (s.setSend i (.returned e))
  | stop {i : ℕ} (h : s.stops i = .stop) (hdone : s.done = true) :
      Stepped cfg s (.stop i) (s.setStop i .signal)
  | gone {i : ℕ} (h : s.stops i = .stop) (hdone : s.done = false) :
      Stepped cfg s (.stop i) ((s.setStop i .returned).setMutex none)
  | signal {i : ℕ} (h : s.stops i = .signal) (hselect : s.timer = .select) :
      Stepped cfg s (.signal i) { (s.setStop i .signalled).setTimer .returned with
        sinceStop := some s.eventBatch.length }
  | endStop {i : ℕ} (h : s.stops i = .signalled) :
      Stepped cfg s (.endStop i) { (s.setStop i .returned).setMutex none with done := false }

/-- A goroutine in `send` is the timer goroutine or a call. -/
theorem sending_eq_some {p : Sending} (h : s.sending a = some p) :
    (a = .timer ∧ s.timer = .send p) ∨ ∃ i e, a = .send i ∧ s.sends i = .send e p := by
  cases a with
  | timer =>
      dsimp only [sending] at h
      split at h
      · rename_i htimer
        obtain rfl := Option.some.inj h
        exact Or.inl ⟨rfl, htimer⟩
      · cases h
  | send i =>
      dsimp only [sending] at h
      split at h
      · rename_i e _ hsend
        obtain rfl := Option.some.inj h
        exact Or.inr ⟨i, e, rfl, hsend⟩
      · cases h
  | stop i => cases h

theorem setSending_send {p q : Sending} (h : s.sends i = .send e p) :
    s.setSending q (.send i) = s.setSend i (.send e q) := by
  unfold setSending
  dsimp only
  rw [h]

theorem leave_send {p : Sending} (h : s.sends i = .send e p) :
    s.leave (.send i) = s.setSend i (.returned e) := by
  unfold leave
  dsimp only
  rw [h]

/-- The steps, read off once. -/
theorem step_cases (hs : step cfg s act = some s') : Stepped cfg s act s' := by
  unfold step at hs
  cases act with
  | callSend i e =>
      dsimp only at hs
      split at hs
      · rename_i hidle
        exact Option.some.inj hs ▸ .callSend i e hidle
      · cases hs
  | callStop i =>
      dsimp only at hs
      split at hs
      · rename_i hidle
        exact Option.some.inj hs ▸ .callStop i hidle
      · cases hs
  | tick =>
      dsimp only at hs
      split at hs
      · rename_i hselect
        exact Option.some.inj hs ▸ .tick hselect
      · cases hs
  | lock a =>
      dsimp only at hs
      split at hs
      · rename_i hfree
        obtain ⟨t, ht, rfl⟩ := Option.map_eq_some_iff.mp hs
        cases a with
        | timer =>
            obtain ⟨p, hp, rfl⟩ := Option.map_eq_some_iff.mp ht
            exact .lockTimer hfree hp
        | send i =>
            obtain ⟨p, hp, rfl⟩ := Option.map_eq_some_iff.mp ht
            exact .lockSend hfree hp
        | stop i =>
            dsimp only [enter] at ht
            split at ht
            · rename_i hlock
              exact Option.some.inj ht ▸ .lockStop hfree hlock
            · cases ht
      · cases hs
  | swap answer =>
      dsimp only at hs
      split at hs
      · rename_i hswap
        exact Option.some.inj hs ▸ .swap answer hswap
      · cases hs
  | append i answer =>
      dsimp only at hs
      split at hs
      · rename_i e happend
        exact Option.some.inj hs ▸ .append answer happend
      · cases hs
  | unlock a writes =>
      dsimp only at hs
      split at hs
      · rename_i q hq
        obtain ⟨p, hp, hpq⟩ := Option.bind_eq_some_iff.mp hq
        obtain rfl := Option.some.inj hs
        rcases sending_eq_some hp with ⟨rfl, htimer⟩ | ⟨i, e, rfl, hsend⟩
        · exact .unlockTimer htimer hpq
        · exact setSending_send hsend ▸ .unlockSend hsend hpq
      · cases hs
  | settle a =>
      dsimp only at hs
      split at hs
      · rename_i q hq
        obtain ⟨p, hp, hpq⟩ := Option.bind_eq_some_iff.mp hq
        obtain rfl := Option.some.inj hs
        rcases sending_eq_some hp with ⟨rfl, htimer⟩ | ⟨i, e, rfl, hsend⟩
        · exact .settleTimer htimer hpq
        · exact setSending_send hsend ▸ .settleSend hsend hpq
      · cases hs
  | finish a =>
      dsimp only at hs
      split at hs
      · rename_i hp
        obtain rfl := Option.some.inj hs
        rcases sending_eq_some hp with ⟨rfl, htimer⟩ | ⟨i, e, rfl, hsend⟩
        · exact .finishTimer htimer
        · exact leave_send hsend ▸ .finishSend hsend
      · cases hs
  | stop i =>
      dsimp only at hs
      split at hs
      · rename_i hstop
        split at hs
        · rename_i hdone
          exact Option.some.inj hs ▸ .stop hstop hdone
        · rename_i hdone
          exact Option.some.inj hs ▸ .gone hstop (Bool.eq_false_iff.mpr hdone)
      · cases hs
  | signal i =>
      dsimp only at hs
      split at hs
      · rename_i hsignal hselect
        exact Option.some.inj hs ▸ .signal hsignal hselect
      · cases hs
  | endStop i =>
      dsimp only at hs
      split at hs
      · rename_i hsignalled
        exact Option.some.inj hs ▸ .endStop hsignalled
      · cases hs

/-! ## Steps that leave the events alone -/

/-- The batch and the channel are as before, and no call has come to a point that matters. -/
structure Frame (s s' : Sender E) : Prop where
  eventBatch : s'.eventBatch = s.eventBatch
  done : s'.done = s.done
  appended : s'.appended = s.appended
  batches : s'.batches = s.batches
  sinceStop : s'.sinceStop = s.sinceStop
  sends : ∀ i, (s'.sends i).appended = (s.sends i).appended
  timer : s.timer = .returned → s'.timer = .returned
  signalled : ∀ i, s'.stops i = .signalled → s.stops i = .signalled
  returned : ∀ i, s'.stops i = .returned → s.stops i = .returned ∨ s.done = false

theorem Frame.trans (h : Frame s s') (h' : Frame s' t) : Frame s t where
  eventBatch := h'.eventBatch.trans h.eventBatch
  done := h'.done.trans h.done
  appended := h'.appended.trans h.appended
  batches := h'.batches.trans h.batches
  sinceStop := h'.sinceStop.trans h.sinceStop
  sends := fun i => (h'.sends i).trans (h.sends i)
  timer := fun hs => h'.timer (h.timer hs)
  signalled := fun i hi => h.signalled i (h'.signalled i hi)
  returned := fun i hi => by
    rcases h'.returned i hi with hi | hdone
    · exact h.returned i hi
    · exact Or.inr (h.done ▸ hdone)

theorem frame_setMutex (s : Sender E) (m : Option Actor) : Frame s (s.setMutex m) :=
  ⟨rfl, rfl, rfl, rfl, rfl, fun _ => rfl, id, fun _ => id, fun _ => Or.inl⟩

theorem frame_setTimer {p : TimerPhase} (h : s.timer ≠ .returned) : Frame s (s.setTimer p) :=
  ⟨rfl, rfl, rfl, rfl, rfl, fun _ => rfl, fun hs => absurd hs h, fun _ => id, fun _ => Or.inl⟩

theorem frame_setSend {p : SendPhase E} (h : p.appended = (s.sends i).appended) :
    Frame s (s.setSend i p) := by
  refine ⟨rfl, rfl, rfl, rfl, rfl, fun j => ?_, id, fun _ => id, fun _ => Or.inl⟩
  by_cases hj : j = i
  · rw [hj, setSend_self, h]
  · rw [setSend_of_ne hj]

theorem frame_setStop {p : StopPhase} (hsignalled : p ≠ .signalled)
    (hreturned : p = .returned → s.done = false) : Frame s (s.setStop i p) := by
  refine ⟨rfl, rfl, rfl, rfl, rfl, fun _ => rfl, id, fun j hj => ?_, fun j hj => ?_⟩
  · by_cases h : j = i
    · rw [h, setStop_self] at hj
      exact absurd hj hsignalled
    · rwa [setStop_of_ne h] at hj
  · by_cases h : j = i
    · rw [h, setStop_self] at hj
      exact Or.inr (hreturned hj)
    · rw [setStop_of_ne h] at hj
      exact Or.inl hj

/-- Taking the mutex appends nothing. -/
theorem appended_of_locked {p q : SendPhase E} (h : p.locked = some q) : q.appended = p.appended := by
  cases p with
  | lock e =>
      obtain rfl := Option.some.inj h
      rfl
  | send e r =>
      obtain ⟨r', -, rfl⟩ := Option.map_eq_some_iff.mp h
      rfl
  | _ => cases h

/-- The invariant depends on the events and the channel only. -/
theorem Inv.frame (h : Inv cfg s) (hf : Frame s s') : Inv cfg s' where
  conserved := by
    refine ⟨?_, ?_, ?_, ?_⟩
    · rw [hf.batches, hf.eventBatch, hf.appended]
      exact h.conserved.order
    · rw [hf.appended]
      exact h.conserved.once
    · intro i e
      rw [hf.appended, hf.sends]
      exact h.conserved.mem i e
    · rw [hf.batches]
      exact h.conserved.size
  short := by
    rw [hf.eventBatch]
    exact h.short
  since := by
    intro n hn
    rw [hf.sinceStop] at hn
    obtain ⟨htimer, hlength⟩ := h.since n hn
    rw [hf.eventBatch]
    exact ⟨hf.timer htimer, hlength⟩
  signalled := by
    intro i hi
    rw [hf.sinceStop]
    exact h.signalled i (hf.signalled i hi)
  done := by
    intro hdone
    rw [hf.sinceStop]
    exact h.done (hf.done ▸ hdone)
  returned := by
    intro i hi
    rw [hf.done]
    rcases hf.returned i hi with hi | hdone
    · exact h.returned i hi
    · exact hdone

/-- Every step leaves the events alone but for the two sections that append or take events, and
the two that end the timer goroutine. -/
theorem frame_of_step (hs : step cfg s act = some s') :
    Frame s s' ∨
    (∃ i e answer, act = .append i answer ∧ s.sends i = .append e ∧
      s' = s.appendEvent cfg i e answer) ∨
    (∃ answer, act = .swap answer ∧ s.timer = .swap ∧ s' = s.swapBatch cfg answer) ∨
    (∃ i, act = .signal i ∧ s.stops i = .signal ∧ s.timer = .select ∧
      s' = { (s.setStop i .signalled).setTimer .returned with
        sinceStop := some s.eventBatch.length }) ∨
    ∃ i, act = .endStop i ∧ s.stops i = .signalled ∧
      s' = { (s.setStop i .returned).setMutex none with done := false } := by
  cases step_cases hs with
  | callSend i e hidle => exact Or.inl (frame_setSend (by rw [hidle]; rfl))
  | callStop i hidle => exact Or.inl (frame_setStop (by decide) (by simp))
  | tick hselect => exact Or.inl (frame_setTimer (by simp [hselect]))
  | lockTimer hfree hlocked =>
      refine Or.inl ((frame_setTimer fun htimer => ?_).trans (frame_setMutex ..))
      rw [htimer] at hlocked
      cases hlocked
  | lockSend hfree hlocked =>
      exact Or.inl ((frame_setSend (appended_of_locked hlocked)).trans (frame_setMutex ..))
  | lockStop hfree hlock =>
      exact Or.inl ((frame_setStop (p := .stop) (by decide) (by simp)).trans (frame_setMutex ..))
  | append answer happend => exact Or.inr (Or.inl ⟨_, _, answer, rfl, happend, rfl⟩)
  | swap answer hswap => exact Or.inr (Or.inr (Or.inl ⟨answer, rfl, hswap, rfl⟩))
  | unlockTimer htimer hunlocked =>
      exact Or.inl ((frame_setTimer (by simp [htimer])).trans (frame_setMutex ..))
  | unlockSend hsend hunlocked =>
      exact Or.inl ((frame_setSend (by rw [hsend]; rfl)).trans (frame_setMutex ..))
  | settleTimer htimer hsettled => exact Or.inl (frame_setTimer (by simp [htimer]))
  | settleSend hsend hsettled => exact Or.inl (frame_setSend (by rw [hsend]; rfl))
  | finishTimer htimer => exact Or.inl (frame_setTimer (by simp [htimer]))
  | finishSend hsend => exact Or.inl (frame_setSend (by rw [hsend]; rfl))
  | stop hstop hdone => exact Or.inl (frame_setStop (by decide) (by simp))
  | gone hstop hdone =>
      exact Or.inl ((frame_setStop (p := .returned) (by decide) fun _ => hdone).trans
        (frame_setMutex ..))
  | signal hsignal hselect =>
      exact Or.inr (Or.inr (Or.inr (Or.inl ⟨_, rfl, hsignal, hselect, rfl⟩)))
  | endStop hsignalled => exact Or.inr (Or.inr (Or.inr (Or.inr ⟨_, rfl, hsignalled, rfl⟩)))

/-! ## Steps that move events -/

/-- A call that has not appended its event is not among those that have. -/
theorem Inv.not_mem_once (h : Inv cfg s) (happended : (s.sends i).appended = none) :
    i ∉ s.appended.map Prod.fst := by
  intro hmem
  obtain ⟨⟨j, e⟩, hje, rfl⟩ := List.mem_map.mp hmem
  have hsome := (h.conserved.mem j e).mp hje
  dsimp only at happended
  rw [happended] at hsome
  cases hsome

/-- The calls after one of them has appended its event. -/
theorem Inv.mem_record (h : Inv cfg s) {p : SendPhase E} (happended : (s.sends i).appended = none)
    (hp : p.appended = some e) (j : ℕ) (e' : E) :
    (j, e') ∈ s.appended ++ [(i, e)] ↔ ((s.setSend i p).sends j).appended = some e' := by
  rw [List.mem_append, List.mem_singleton]
  by_cases hj : j = i
  · subst hj
    rw [setSend_self, hp]
    constructor
    · rintro (hmem | heq)
      · exact absurd (List.mem_map_of_mem hmem) (h.not_mem_once happended)
      · rw [(Prod.mk.inj heq).2]
    · intro heq
      exact Or.inr (by rw [Option.some.inj heq])
  · rw [setSend_of_ne hj, h.conserved.mem]
    exact or_iff_left fun heq => hj (Prod.mk.inj heq).1

theorem succ_mod_of_eq {n m : ℕ} (h : n % m + 1 = m) : (n + 1) % m = 0 := by
  rw [← Nat.mod_add_mod, h, Nat.mod_self]

theorem succ_mod_of_lt {n m : ℕ} (h : n % m + 1 < m) : (n + 1) % m = n % m + 1 := by
  rw [← Nat.mod_add_mod, Nat.mod_eq_of_lt h]

/-- `Send` appends its event, and takes the batch when it is full. -/
theorem Inv.appendEvent (h : Inv cfg s) (happend : s.sends i = .append e) (answer : ρ) :
    Inv cfg (s.appendEvent cfg i e answer) := by
  have happended : (s.sends i).appended = none := by
    rw [happend]
    rfl
  have honce : ((s.appended ++ [(i, e)]).map Prod.fst).Nodup := by
    rw [List.map_append, List.nodup_append_comm]
    exact List.nodup_cons.mpr ⟨h.not_mem_once happended, h.conserved.once⟩
  have hshort := h.short
  have hsince : ∀ n, s.sinceStop.map (· + 1) = some n → ∃ m, n = m + 1 ∧ s.timer = .returned ∧
      s.eventBatch.length = m % cfg.maxNumberOfMessages := by
    intro n hn
    obtain ⟨m, hm, rfl⟩ := Option.map_eq_some_iff.mp hn
    exact ⟨m, rfl, h.since m hm⟩
  have hnone : s.sinceStop ≠ none → s.sinceStop.map (· + 1) ≠ none := by
    rw [ne_eq, ne_eq, Option.map_eq_none_iff]
    exact id
  unfold Sender.appendEvent
  dsimp only
  rw [List.length_append, List.length_singleton]
  split
  · -- the batch is full, and becomes empty
    rename_i hfull
    refine ⟨⟨?_, honce, h.mem_record happended rfl, ?_⟩, cfg.positive, ?_, ?_, ?_, h.returned⟩
    · show (s.batches ++ [s.eventBatch ++ [(i, e)]]).flatten ++ [] = s.appended ++ [(i, e)]
      rw [List.append_nil, List.flatten_append, List.flatten_singleton, ← List.append_assoc,
        h.conserved.order]
    · intro batch hbatch
      rcases List.mem_append.mp hbatch with hold | hnew
      · exact h.conserved.size batch hold
      · rw [List.mem_singleton.mp hnew, List.length_append, List.length_singleton]
        omega
    · intro n hn
      obtain ⟨m, rfl, htimer, hlength⟩ := hsince n hn
      exact ⟨htimer, (succ_mod_of_eq (by omega)).symm⟩
    · exact fun j hj => hnone (h.signalled j hj)
    · exact fun hdone => hnone (h.done hdone)
  · -- there is room for more
    rename_i hroom
    refine ⟨⟨?_, honce, h.mem_record happended rfl, h.conserved.size⟩, ?_, ?_, ?_, ?_, h.returned⟩
    · show s.batches.flatten ++ (s.eventBatch ++ [(i, e)]) = s.appended ++ [(i, e)]
      rw [← List.append_assoc, h.conserved.order]
    · show (s.eventBatch ++ [(i, e)]).length < cfg.maxNumberOfMessages
      rw [List.length_append, List.length_singleton]
      omega
    · intro n hn
      obtain ⟨m, rfl, htimer, hlength⟩ := hsince n hn
      refine ⟨htimer, ?_⟩
      show (s.eventBatch ++ [(i, e)]).length = (m + 1) % cfg.maxNumberOfMessages
      rw [succ_mod_of_lt (by omega), List.length_append, List.length_singleton, hlength]
    · exact fun j hj => hnone (h.signalled j hj)
    · exact fun hdone => hnone (h.done hdone)

/-- The timer goroutine takes the batch. -/
theorem Inv.swapBatch (h : Inv cfg s) (hswap : s.timer = .swap) (answer : ρ) :
    Inv cfg (s.swapBatch cfg answer) := by
  have hrunning : s.timer ≠ .returned := by simp [hswap]
  unfold Sender.swapBatch
  dsimp only
  split
  · exact h.frame ((frame_setMutex s none).trans (frame_setTimer hrunning))
  · rename_i hne
    have hpos := List.length_pos_iff.mpr hne
    have hshort := h.short
    refine ⟨⟨?_, h.conserved.once, h.conserved.mem, ?_⟩, cfg.positive, ?_, h.signalled, h.done,
      h.returned⟩
    · show (s.batches ++ [s.eventBatch]).flatten ++ [] = s.appended
      rw [List.append_nil, List.flatten_append, List.flatten_singleton, h.conserved.order]
    · intro batch hbatch
      rcases List.mem_append.mp hbatch with hold | hnew
      · exact h.conserved.size batch hold
      · rw [List.mem_singleton.mp hnew]
        omega
    · exact fun n hn => absurd (h.since n hn).1 hrunning

/-- The timer goroutine ends. -/
theorem Inv.signal (h : Inv cfg s) (i : ℕ) :
    Inv cfg { (s.setStop i .signalled).setTimer .returned with
      sinceStop := some s.eventBatch.length } := by
  have hc := h.conserved
  refine ⟨⟨hc.order, hc.once, hc.mem, hc.size⟩, h.short, ?_, ?_, ?_, ?_⟩
  · intro n hn
    obtain rfl := Option.some.inj hn
    exact ⟨rfl, (Nat.mod_eq_of_lt h.short).symm⟩
  · exact fun _ _ => Option.some_ne_none _
  · exact fun _ => Option.some_ne_none _
  · intro j hj
    refine h.returned j ?_
    by_cases hji : j = i
    · rw [hji] at hj
      exact absurd ((setStop_self (s := s) _).symm.trans hj) (by decide)
    · exact (setStop_of_ne hji _).symm.trans hj

/-- `StopSending` ends. -/
theorem Inv.endStop (h : Inv cfg s) (hsignalled : s.stops i = .signalled) :
    Inv cfg { (s.setStop i .returned).setMutex none with done := false } := by
  have hc := h.conserved
  refine ⟨⟨hc.order, hc.once, hc.mem, hc.size⟩, h.short, h.since, ?_,
    fun _ => h.signalled i hsignalled, fun _ _ => rfl⟩
  intro j hj
  by_cases hji : j = i
  · exact h.signalled i hsignalled
  · exact h.signalled j ((setStop_of_ne hji _).symm.trans hj)

theorem Inv.step (h : Inv cfg s) (hs : step cfg s act = some s') : Inv cfg s' := by
  rcases frame_of_step hs with hframe | ⟨i, e, answer, -, happend, rfl⟩ | ⟨answer, -, hswap, rfl⟩ |
    ⟨i, -, -, -, rfl⟩ | ⟨i, -, hsignalled, rfl⟩
  · exact h.frame hframe
  · exact h.appendEvent happend answer
  · exact h.swapBatch hswap answer
  · exact h.signal i
  · exact h.endStop hsignalled

/-! ## Whole runs -/

variable {acts : List (Action E ρ)}

theorem inv_of_run (hrun : Runs.run (step cfg) start acts = some s) : Inv cfg s :=
  Runs.run_induction (fun _ _ _ h hs => h.step hs) inv_start hrun

/-- In every run, every event that was appended is in one batch or in `eventBatch`. -/
theorem conserved_of_run (hrun : Runs.run (step cfg) start acts = some s) : Conserved cfg s :=
  (inv_of_run hrun).conserved

/-- **Batching senders drop nothing** exactly when, once a `StopSending` has returned and all calls
have ended, the events that were in `eventBatch` when the timer goroutine ended and the events that
were appended since make whole batches. -/
theorem drops_nothing_iff (cfg : SenderConfig E ρ)
    (hrun : Runs.run (step cfg) start acts = some s) :
    s.DropsNothing cfg ↔ (s.Ended → cfg.maxNumberOfMessages ∣ s.sinceStop.getD 0) := by
  have h := inv_of_run hrun
  have hempty : s.Ended → (s.eventBatch = [] ↔ cfg.maxNumberOfMessages ∣ s.sinceStop.getD 0) := by
    rintro ⟨⟨i, hi⟩, -⟩
    obtain ⟨n, hn⟩ := Option.ne_none_iff_exists'.mp (h.done (h.returned i hi))
    rw [hn, Option.getD_some, Nat.dvd_iff_mod_eq_zero, ← (h.since n hn).2, List.length_eq_zero_iff]
  unfold DropsNothing
  rw [and_iff_right h.conserved]
  exact forall_congr' hempty

/-- `Send` and `StopSending`, one after the other, with the given end of `Send`. -/
def sampleRun (e : E) (answer : ρ) (rest : List (Action E ρ)) : List (Action E ρ) :=
  [.callSend 0 e, .lock (.send 0), .append 0 answer] ++ rest ++
    [.callStop 0, .lock (.stop 0), .stop 0, .signal 0, .endStop 0]

/-- Two events fill a batch, a third one is sent at the next tick, and then the sender is
stopped. -/
def tickedRun : List (Action (Event Unit) (Except String Sqs.Output)) :=
  [.callSend 0 (Sqs.sampleEvent "a"), .lock (.send 0), .append 0 (.ok ⟨[], []⟩),
    .callSend 1 (Sqs.sampleEvent "b"), .lock (.send 1), .append 1 (.ok ⟨[], ["a", "b"]⟩),
    .lock (.send 1), .unlock (.send 1) false, .settle (.send 1), .lock (.send 1),
    .unlock (.send 1) false, .settle (.send 1), .finish (.send 1),
    .callSend 2 (Sqs.sampleEvent "c"), .lock (.send 2), .append 2 (.ok ⟨[], []⟩),
    .tick, .lock .timer, .swap (.ok ⟨[], ["c"]⟩), .lock .timer, .unlock .timer false,
    .settle .timer, .finish .timer,
    .callStop 0, .lock (.stop 0), .stop 0, .signal 0, .endStop 0]

/-- Nothing is left when the timer goroutine ends. -/
theorem drops_nothing_iff_ticked : ∃ s : Sender (Event Unit),
    Runs.run (step (sqsSender 2 (by decide) ⟨0⟩ Sqs.sampleMarshal)) start tickedRun = some s ∧
      s.batches.map (fun batch => batch.map Prod.fst) = [[0, 1], [2]] ∧
      s.DropsNothing (sqsSender 2 (by decide) ⟨0⟩ Sqs.sampleMarshal) := by
  have hrun : (Runs.run (step (sqsSender 2 (by decide) ⟨0⟩ Sqs.sampleMarshal)) start
      tickedRun).map (fun s => (s.batches.map (fun batch => batch.map Prod.fst), s.sinceStop)) =
      some ([[0, 1], [2]], some 0) := by
    decide +kernel
  obtain ⟨s, hs, heq⟩ := Option.map_eq_some_iff.mp hrun
  obtain ⟨hbatches, hsince⟩ := Prod.mk.inj heq
  refine ⟨s, hs, hbatches, (drops_nothing_iff _ hs).mpr fun _ => ?_⟩
  rw [hsince]
  exact Nat.dvd_zero _

/-- An event that does not fill the batch is appended. -/
theorem appendEvent_of_short (answer : ρ)
    (h : (s.eventBatch ++ [(i, e)]).length < cfg.maxNumberOfMessages) :
    s.appendEvent cfg i e answer =
      { (s.record i e).setMutex none with
        eventBatch := s.eventBatch ++ [(i, e)] }.setSend i (.returned e) :=
  if_neg (Nat.not_le.mpr h)

/-- With room for two, a batch of one event stays behind. -/
theorem not_dropsNothing_of_room (h : 1 < cfg.maxNumberOfMessages) (e : E) (answer : ρ) :
    ∃ s, Runs.run (step cfg) start (sampleRun e answer []) = some s ∧ ¬ s.DropsNothing cfg := by
  have hsend : Runs.run (step cfg) start ([.callSend 0 e, .lock (.send 0), .append 0 answer] ++ []) =
      some (({ (((start.setSend 0 (.lock e)).setSend 0 (.append e)).record 0 e).setMutex none with
        eventBatch := [(0, e)] } : Sender E).setSend 0 (.returned e)) :=
    congrArg some (appendEvent_of_short answer h)
  refine ⟨_, Runs.run_append_eq_some.mpr ⟨_, hsend, rfl⟩, fun hdrops => ?_⟩
  have hempty := hdrops.2 ⟨⟨0, rfl⟩, fun i => ?_, fun i => ?_⟩
  · cases hempty
  · by_cases hi : i = 0
    · rw [hi]
      exact Or.inr rfl
    · exact Or.inl (by simp [setStop, setTimer, setMutex, setSend, record, start, hi])
  · by_cases hi : i = 0
    · rw [hi]
      trivial
    · simp [setStop, setTimer, setMutex, setSend, record, start, hi, SendPhase.Over]

/-- Both senders leave a partial batch behind. -/
theorem stop_leaves_batch :
    (∃ s : Sender (Event Unit),
      Runs.run (step (sqsSender 2 (by decide) ⟨0⟩ Sqs.sampleMarshal)) start
        (sampleRun (Sqs.sampleEvent "a") (.ok ⟨[], []⟩) []) = some s ∧
      ¬ s.DropsNothing (sqsSender 2 (by decide) ⟨0⟩ Sqs.sampleMarshal)) ∧
    ∃ s : Sender (Event Unit),
      Runs.run (step (kinesisSender 2 (by decide) ⟨"", ""⟩ Sqs.sampleMarshal fun _ _ => none)) start
        (sampleRun (Sqs.sampleEvent "a") (fun _ => "", .ok []) []) = some s ∧
      ¬ s.DropsNothing
        (kinesisSender 2 (by decide) ⟨"", ""⟩ Sqs.sampleMarshal fun _ _ => none) :=
  ⟨not_dropsNothing_of_room (by decide) _ _, not_dropsNothing_of_room (by decide) _ _⟩

end Sender

end BatchSender
