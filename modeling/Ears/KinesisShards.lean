/-
# Shard workers of the Kinesis receiver (`pkg/plugins/kinesis/receiver.go`)

The listener of a Kinesis receiver takes shard configurations from the distributor, one after
the other, and `updateShards` stops the workers of the shards that are not owned any more and
starts workers for those that are new.  A worker is a goroutine: it registers a stop channel
under its shard, polls the channel that is under its shard, and closes and removes the channel
under its shard when it is told to stop.

The workers register late and look their channel up by shard, so the listener may find no
channel to stop a worker that has just been started, and may start a worker while its
predecessor is about to remove the channel under their shard.  As long as neither happens
(`Guarded`), there is one worker for each owned shard and each closes its own channel
(`followed_of_run`).
-/
import Ears.Fiber
import Ears.Sharder

open GoLib

namespace Kinesis

/-- What a worker does next. -/
inductive Phase where
  | starting
  | polling
  | selecting (stopChan : Option ℕ)
  | closing
  | done
  deriving DecidableEq, Repr

/-- A goroutine of `startShardReceiver` or `startShardReceiverEFO`; `own` is the channel that it
has registered. -/
structure Worker where
  shardIdx : ℤ
  own : Option ℕ
  phase : Phase
  deriving DecidableEq, Repr

/-- What the listener does next in `updateShards`: go through the rest of the old shards or of the
new ones, or wait for a worker to take the stop message.  A panic ends it. -/
inductive Listener where
  | idle
  | stopping (newShards rest : List String)
  | sending (stopChan : ℕ) (newShards rest : List String)
  | starting (newShards rest : List String)
  | dead
  deriving DecidableEq, Repr

/-- The receiver, its listener and its workers.  `last` is the last configuration that was given
to `updateShards`, `senders` are the goroutines of `stopShardReceiver` that wait to send,
`closes` lists which worker has closed which channel, and `stuck` says that the lock was not
released.  Workers and channels are numbered; numbers from `next` on are free. -/
structure Receiver where
  ownedShards : List String
  last : List String
  listener : Listener
  stopChannelMap : Finmap fun _ : ℤ => ℕ
  workers : ℕ → Worker
  next : ℕ
  closed : Finset ℕ
  senders : Multiset ℕ
  closes : List (ℕ × ℕ)
  stuck : Bool

/-- Why a `select` of a worker goes on: it takes the stop message of the listener or of another
goroutine, its channel is closed, or there is nothing on the channel. -/
inductive Source where
  | listener
  | sender
  | closed
  | none
  deriving DecidableEq, Repr

/-- A configuration reaches the idle listener, the listener or a worker takes its next step, the
`select` of a worker goes on, or a worker returns on an error or panics between two polls. -/
inductive Action where
  | update (newShards : Sharder.ShardConfig)
  | listen
  | proceed (w : ℕ)
  | select (w : ℕ) (source : Source)
  | exit (w : ℕ)

namespace Receiver

/-- A receiver that owns no shards. -/
def start : Receiver where
  ownedShards := []
  last := []
  listener := .idle
  stopChannelMap := ∅
  workers := fun _ => ⟨0, none, .done⟩
  next := 0
  closed := ∅
  senders := 0
  closes := []
  stuck := false

variable (s : Receiver)

/-- Change a worker. -/
def setWorker (w : ℕ) (k : Worker) : Receiver := { s with workers := Function.update s.workers w k }

/-- Change the phase of a worker. -/
def setPhase (w : ℕ) (p : Phase) : Receiver := s.setWorker w { s.workers w with phase := p }

/-- `stopShardReceiver`, up to the message to the worker. -/
def stopShardReceiver (shardIdx : ℤ) (newShards rest : List String) : Receiver :=
  if shardIdx < 0 then
    { s with
      senders := s.senders + s.stopChannelMap.entries.map Sigma.snd
      listener := .stopping newShards rest }
  else
    match s.stopChannelMap.lookup shardIdx with
    | none => { s with listener := .stopping newShards rest }
    | some stopChan => { s with listener := .sending stopChan newShards rest }

/-- `startShardReceiver`: a new goroutine. -/
def startShardReceiver (shardIdx : ℤ) : Receiver :=
  { s.setWorker s.next ⟨shardIdx, none, .starting⟩ with next := s.next + 1 }

/-- The next step of the listener. -/
def listen : Option Receiver :=
  match s.listener with
  | .idle => none
  | .stopping newShards [] => some { s with listener := .starting newShards newShards }
  | .stopping newShards (oldShard :: rest) =>
      if oldShard ∈ newShards then some { s with listener := .stopping newShards rest }
      else
        match atoi oldShard.toList with
        | (_, some _) => some { s with listener := .stopping newShards rest }
        | (shardIdx, none) =>
            if s.stuck then none else some (s.stopShardReceiver shardIdx newShards rest)
  | .sending stopChan _ _ =>
      -- a message on a closed channel is a panic
      if stopChan ∈ s.closed then some { s with listener := .dead } else none
  | .starting newShards [] => some { s with listener := .idle, ownedShards := newShards }
  | .starting newShards (newShard :: rest) =>
      if newShard ∈ s.ownedShards then some { s with listener := .starting newShards rest }
      else
        match atoi newShard.toList with
        | (_, some _) => some { s with listener := .starting newShards rest }
        | (shardIdx, none) =>
            some { s.startShardReceiver shardIdx with listener := .starting newShards rest }
  | .dead => none

/-- `stopChannelMap[shardIdx] = make(chan bool)`. -/
def register (w : ℕ) : Receiver :=
  { s.setWorker w { s.workers w with own := some s.next, phase := .polling } with
    stopChannelMap := s.stopChannelMap.insert (s.workers w).shardIdx s.next
    next := s.next + 1 }

/-- `close(stopChannelMap[shardIdx])` and `delete(stopChannelMap, shardIdx)`.  To close no channel,
or a closed one, is a panic, which leaves the lock taken. -/
def closeChannel (w : ℕ) : Receiver :=
  match s.stopChannelMap.lookup (s.workers w).shardIdx with
  | none => { s.setPhase w .done with stuck := true }
  | some stopChan =>
      if stopChan ∈ s.closed then { s.setPhase w .done with stuck := true }
      else
        { s.setPhase w .done with
          stopChannelMap := s.stopChannelMap.erase (s.workers w).shardIdx
          closed := insert stopChan s.closed
          closes := s.closes ++ [(w, stopChan)] }

/-- The next step of a worker, which takes the lock. -/
def proceed (w : ℕ) : Option Receiver :=
  if s.stuck then none
  else
    match (s.workers w).phase with
    | .starting => some (s.register w)
    | .polling =>
        some (s.setPhase w (.selecting (s.stopChannelMap.lookup (s.workers w).shardIdx)))
    | .closing => some (s.closeChannel w)
    | .selecting _ | .done => none

/-- The `select` of a worker on the channel that it has looked up. -/
def select (w : ℕ) : Source → Option Receiver
  | .listener =>
      match (s.workers w).phase, s.listener with
      | .selecting (some c), .sending stopChan newShards rest =>
          if c = stopChan then
            some { s.setPhase w .closing with listener := .stopping newShards rest }
          else none
      | _, _ => none
  | .sender =>
      match (s.workers w).phase with
      | .selecting (some c) =>
          if c ∈ s.senders then some { s.setPhase w .closing with senders := s.senders.erase c }
          else none
      | _ => none
  | .closed =>
      match (s.workers w).phase with
      | .selecting (some c) => if c ∈ s.closed then some (s.setPhase w .closing) else none
      | _ => none
  | .none =>
      match (s.workers w).phase with
      | .selecting _ => some (s.setPhase w .polling)
      | _ => none

/-- One step. -/
def step : Action → Option Receiver
  | .update newShards =>
      if s.listener = .idle then
        some { s with
          last := newShards.ownedShards
          listener := .stopping newShards.ownedShards s.ownedShards }
      else none
  | .listen => s.listen
  | .proceed w => s.proceed w
  | .select w source => s.select w source
  | .exit w => if (s.workers w).phase = .polling then some (s.setPhase w .done) else none

/-! ## What is asked for -/

/-- The worker has been started and has not returned. -/
def Running (w : ℕ) : Prop := (s.workers w).phase ≠ .done

/-- No step is pending: the listener and the goroutines that send are done, the workers are
registered, and no stop message is on its way. -/
structure Quiet (s : Receiver) : Prop where
  listener : s.listener = .idle
  senders : s.senders = 0
  workers : ∀ w, s.Running w → (s.workers w).phase = .polling ∨
    ∃ c, (s.workers w).phase = .selecting c ∧ ∀ stopChan ∈ c, stopChan ∉ s.closed

/-- The number that a shard of a configuration stands for. -/
def shardIdx (shard : String) : ℤ := (atoi shard.toList).1

/-- The shards of the list stand for shards of the stream. -/
def Parsed (shards : List String) : Prop :=
  ∀ shard ∈ shards, (atoi shard.toList).2 = none ∧ 0 ≤ shardIdx shard

/-- There are no two workers for one shard, every worker that has closed a channel has closed its
own, and when nothing is pending the workers are those of the shards of the last
configuration. -/
structure Followed (s : Receiver) : Prop where
  unique : ∀ w w', s.Running w → s.Running w' → (s.workers w).shardIdx = (s.workers w').shardIdx →
    w = w'
  closes : ∀ w stopChan, (w, stopChan) ∈ s.closes → (s.workers w).own = some stopChan
  owned : s.Quiet → Parsed s.last ∧
    ∀ i, (∃ w, s.Running w ∧ (s.workers w).shardIdx = i) ↔ ∃ shard ∈ s.last, shardIdx shard = i

/-- A shard is stopped when its worker, if it has one, is polling; it is started when it has no
worker; the configurations are about shards of the stream; and workers return only when they are
told to. -/
def Guarded : Action → Prop
  | .update newShards => Parsed newShards.ownedShards
  | .listen =>
      (∀ newShards oldShard rest, s.listener = .stopping newShards (oldShard :: rest) →
        oldShard ∉ newShards → ∀ w, s.Running w → (s.workers w).shardIdx = shardIdx oldShard →
          (s.workers w).phase = .polling ∨ ∃ c, (s.workers w).phase = .selecting c) ∧
      ∀ newShards newShard rest, s.listener = .starting newShards (newShard :: rest) →
        newShard ∉ s.ownedShards → ∀ w, s.Running w →
          (s.workers w).shardIdx ≠ shardIdx newShard
  | .exit _ => False
  | .proceed _ | .select _ _ => True

/-! ## The workers -/

variable {s}

/-- Each shard has one worker at most, and the channel under a shard is that of its worker. -/
structure WorkersInv (s : Receiver) : Prop where
  unique : ∀ w w', s.Running w → s.Running w' → (s.workers w).shardIdx = (s.workers w').shardIdx →
    w = w'
  running_lt : ∀ w, s.Running w → w < s.next
  own_lt : ∀ w c, (s.workers w).own = some c → w < s.next ∧ c < s.next
  own_inj : ∀ w w' c, (s.workers w).own = some c → (s.workers w').own = some c → w = w'
  starting : ∀ w, (s.workers w).phase = .starting → (s.workers w).own = none
  registered : ∀ w, s.Running w → (s.workers w).phase ≠ .starting → (s.workers w).own ≠ none
  selecting : ∀ w c, (s.workers w).phase = .selecting c → c = (s.workers w).own
  lookup : ∀ i c, s.stopChannelMap.lookup i = some c ↔
    ∃ w, s.Running w ∧ (s.workers w).shardIdx = i ∧ (s.workers w).own = some c
  closed : ∀ c ∈ s.closed, c < s.next ∧ ∀ w, (s.workers w).own = some c → ¬ s.Running w
  closes : ∀ w c, (w, c) ∈ s.closes → (s.workers w).own = some c
  senders : s.senders = 0
  stuck : s.stuck = false

theorem workersInv_start : WorkersInv start where
  unique := fun w w' h => absurd rfl h
  running_lt := fun w h => absurd rfl h
  own_lt := fun w c h => by simp [start] at h
  own_inj := fun w w' c h => by simp [start] at h
  starting := fun w h => by simp [start] at h
  registered := fun w h => absurd rfl h
  selecting := fun w c h => by simp [start] at h
  lookup := fun i c => by simp [start, Running]
  closed := fun c h => by simp [start] at h
  closes := fun w c h => by simp [start] at h
  senders := rfl
  stuck := rfl

theorem running_of_phase {w : ℕ} {p : Phase} (h : (s.workers w).phase = p) (hp : p ≠ .done) :
    s.Running w := h.trans_ne hp

@[simp] theorem setWorker_workers (w : ℕ) (k : Worker) :
    (s.setWorker w k).workers = Function.update s.workers w k := rfl

theorem setPhase_shardIdx (w j : ℕ) (p : Phase) :
    ((s.setPhase w p).workers j).shardIdx = (s.workers j).shardIdx := by
  unfold setPhase
  rcases eq_or_ne j w with rfl | hne
  · simp
  · simp [hne]

theorem setPhase_own (w j : ℕ) (p : Phase) :
    ((s.setPhase w p).workers j).own = (s.workers j).own := by
  unfold setPhase
  rcases eq_or_ne j w with rfl | hne
  · simp
  · simp [hne]

theorem setPhase_phase (w j : ℕ) (p : Phase) :
    ((s.setPhase w p).workers j).phase = if j = w then p else (s.workers j).phase := by
  unfold setPhase
  rcases eq_or_ne j w with rfl | hne
  · simp
  · simp [hne]

/-- The worker that a channel under a shard belongs to. -/
theorem WorkersInv.lookup_own (h : WorkersInv s) {w : ℕ} (hw : s.Running w)
    (hphase : (s.workers w).phase ≠ .starting) :
    s.stopChannelMap.lookup (s.workers w).shardIdx = (s.workers w).own := by
  obtain ⟨c, hc⟩ := Option.ne_none_iff_exists'.mp (h.registered w hw hphase)
  rw [hc]
  exact (h.lookup _ _).mpr ⟨w, hw, rfl, hc⟩

/-- The channel under a shard is that of one worker, or of another one. -/
theorem WorkersInv.lookup_iff (h : WorkersInv s) (w : ℕ) (i : ℤ) (c : ℕ) :
    s.stopChannelMap.lookup i = some c ↔
      (s.Running w ∧ (s.workers w).shardIdx = i ∧ (s.workers w).own = some c) ∨
        ∃ j, j ≠ w ∧ s.Running j ∧ (s.workers j).shardIdx = i ∧ (s.workers j).own = some c := by
  rw [h.lookup]
  constructor
  · rintro ⟨j, hj⟩
    rcases eq_or_ne j w with rfl | hne
    · exact Or.inl hj
    · exact Or.inr ⟨j, hne, hj⟩
  · rintro (hw | ⟨j, -, hj⟩)
    · exact ⟨w, hw⟩
    · exact ⟨j, hj⟩

/-- What is asked of a step that changes worker `w` to `k` and no other worker: of the worker that
it is apart from the others, of the tables that they say about the worker what they should, and
about the others what they said. -/
structure Replaces (s s' : Receiver) (w : ℕ) (k : Worker) : Prop where
  workers : s'.workers = Function.update s.workers w k
  next : s.next ≤ s'.next
  running : k.phase ≠ .done →
    w < s'.next ∧ ∀ j, j ≠ w → s.Running j → (s.workers j).shardIdx ≠ k.shardIdx
  own : ∀ c, k.own = some c → w < s'.next ∧ c < s'.next ∧ ∀ j, j ≠ w → (s.workers j).own ≠ some c
  starting : k.phase = .starting → k.own = none
  registered : k.phase ≠ .done → k.phase ≠ .starting → k.own ≠ none
  selecting : ∀ c, k.phase = .selecting c → c = k.own
  lookup : ∀ i c, s'.stopChannelMap.lookup i = some c ↔
    (k.phase ≠ .done ∧ k.shardIdx = i ∧ k.own = some c) ∨
      ∃ j, j ≠ w ∧ s.Running j ∧ (s.workers j).shardIdx = i ∧ (s.workers j).own = some c
  closed : ∀ c ∈ s'.closed, c < s'.next ∧ (k.own = some c → k.phase = .done) ∧
    ∀ j, j ≠ w → (s.workers j).own = some c → ¬ s.Running j
  closes : ∀ j c, (j, c) ∈ s'.closes → if j = w then k.own = some c else (s.workers j).own = some c
  senders : s'.senders = 0
  stuck : s'.stuck = false

namespace Replaces

variable {s' : Receiver} {w : ℕ} {k : Worker}

theorem worker (hr : Replaces s s' w k) : s'.workers w = k := by
  rw [hr.workers]
  exact Function.update_self ..

/-- The other workers are as they were. -/
theorem of_ne (hr : Replaces s s' w k) {j : ℕ} (hj : j ≠ w) : s'.workers j = s.workers j := by
  rw [hr.workers]
  exact Function.update_of_ne hj _ _

theorem running_iff (hr : Replaces s s' w k) : s'.Running w ↔ k.phase ≠ .done := by
  unfold Running
  rw [hr.worker]

/-- The other workers run as they did. -/
theorem running_of_ne (hr : Replaces s s' w k) {j : ℕ} (hj : j ≠ w) :
    s'.Running j ↔ s.Running j := by
  unfold Running
  rw [hr.of_ne hj]

/-- No two running workers have one shard. -/
theorem unique (hr : Replaces s s' w k) (h : WorkersInv s) {j j' : ℕ} (hj : s'.Running j)
    (hj' : s'.Running j') (hidx : (s'.workers j).shardIdx = (s'.workers j').shardIdx) : j = j' := by
  rcases eq_or_ne j w with hjw | hne
  · rcases eq_or_ne j' w with hjw' | hne'
    · rw [hjw, hjw']
    · rw [hjw, hr.worker, hr.of_ne hne'] at hidx
      rw [hjw, hr.running_iff] at hj
      exact absurd hidx.symm ((hr.running hj).2 j' hne' ((hr.running_of_ne hne').mp hj'))
  · rcases eq_or_ne j' w with hjw' | hne'
    · rw [hjw', hr.worker, hr.of_ne hne] at hidx
      rw [hjw', hr.running_iff] at hj'
      exact absurd hidx ((hr.running hj').2 j hne ((hr.running_of_ne hne).mp hj))
    · rw [hr.of_ne hne, hr.of_ne hne'] at hidx
      exact h.unique j j' ((hr.running_of_ne hne).mp hj) ((hr.running_of_ne hne').mp hj') hidx

/-- No two workers own one channel. -/
theorem own_inj (hr : Replaces s s' w k) (h : WorkersInv s) {j j' c : ℕ}
    (hc : (s'.workers j).own = some c) (hc' : (s'.workers j').own = some c) : j = j' := by
  rcases eq_or_ne j w with hjw | hne
  · rcases eq_or_ne j' w with hjw' | hne'
    · rw [hjw, hjw']
    · rw [hjw, hr.worker] at hc
      rw [hr.of_ne hne'] at hc'
      exact absurd hc' ((hr.own c hc).2.2 j' hne')
  · rcases eq_or_ne j' w with hjw' | hne'
    · rw [hjw', hr.worker] at hc'
      rw [hr.of_ne hne] at hc
      exact absurd hc ((hr.own c hc').2.2 j hne)
    · rw [hr.of_ne hne] at hc
      rw [hr.of_ne hne'] at hc'
      exact h.own_inj j j' c hc hc'

/-- The table holds the channels of the running workers. -/
theorem lookup_iff_running (hr : Replaces s s' w k) : ∀ i c,
    s'.stopChannelMap.lookup i = some c ↔
      ∃ j, s'.Running j ∧ (s'.workers j).shardIdx = i ∧ (s'.workers j).own = some c := by
  intro i c
  rw [hr.lookup]
  constructor
  · rintro (⟨hdone, hidx, hc⟩ | ⟨j, hne, hj, hidx, hc⟩)
    · exact ⟨w, hr.running_iff.mpr hdone, by rw [hr.worker, hidx], by rw [hr.worker, hc]⟩
    · exact ⟨j, (hr.running_of_ne hne).mpr hj, by rw [hr.of_ne hne, hidx], by rw [hr.of_ne hne, hc]⟩
  · rintro ⟨j, hj, hidx, hc⟩
    rcases eq_or_ne j w with rfl | hne
    · rw [hr.worker] at hidx hc
      exact Or.inl ⟨hr.running_iff.mp hj, hidx, hc⟩
    · rw [hr.of_ne hne] at hidx hc
      exact Or.inr ⟨j, hne, (hr.running_of_ne hne).mp hj, hidx, hc⟩

end Replaces

/-- The other workers are as they were, and so is what holds of them. -/
theorem WorkersInv.replace {s' : Receiver} {w : ℕ} {k : Worker} (h : WorkersInv s)
    (hr : Replaces s s' w k) : WorkersInv s' := by
  constructor
  case unique => exact fun j j' hj hj' hidx => hr.unique h hj hj' hidx
  case running_lt =>
    intro j hj
    rcases eq_or_ne j w with rfl | hne
    · exact (hr.running (hr.running_iff.mp hj)).1
    · exact (h.running_lt j ((hr.running_of_ne hne).mp hj)).trans_le hr.next
  case own_lt =>
    intro j c hc
    rcases eq_or_ne j w with rfl | hne
    · rw [hr.worker] at hc
      exact ⟨(hr.own c hc).1, (hr.own c hc).2.1⟩
    · rw [hr.of_ne hne] at hc
      exact ⟨(h.own_lt j c hc).1.trans_le hr.next, (h.own_lt j c hc).2.trans_le hr.next⟩
  case own_inj => exact fun j j' c hc hc' => hr.own_inj h hc hc'
  case starting =>
    intro j hj
    rcases eq_or_ne j w with rfl | hne
    · rw [hr.worker] at hj ⊢
      exact hr.starting hj
    · rw [hr.of_ne hne] at hj ⊢
      exact h.starting j hj
  case registered =>
    intro j hj hphase
    rcases eq_or_ne j w with rfl | hne
    · rw [hr.worker] at hphase ⊢
      exact hr.registered (hr.running_iff.mp hj) hphase
    · rw [hr.of_ne hne] at hphase ⊢
      exact h.registered j ((hr.running_of_ne hne).mp hj) hphase
  case selecting =>
    intro j c hj
    rcases eq_or_ne j w with rfl | hne
    · rw [hr.worker] at hj ⊢
      exact hr.selecting c hj
    · rw [hr.of_ne hne] at hj ⊢
      exact h.selecting j c hj
  case lookup => exact hr.lookup_iff_running
  case closed =>
    intro c hc
    obtain ⟨hlt, hself, hothers⟩ := hr.closed c hc
    refine ⟨hlt, fun j hj hrunj => ?_⟩
    rcases eq_or_ne j w with rfl | hne
    · rw [hr.worker] at hj
      exact hr.running_iff.mp hrunj (hself hj)
    · rw [hr.of_ne hne] at hj
      exact hothers j hne hj ((hr.running_of_ne hne).mp hrunj)
  case closes =>
    intro j c hj
    have hcase := hr.closes j c hj
    rcases eq_or_ne j w with rfl | hne
    · rw [hr.worker]
      rwa [if_pos rfl] at hcase
    · rw [hr.of_ne hne]
      rwa [if_neg hne] at hcase
  case senders => exact hr.senders
  case stuck => exact hr.stuck

/-- What was closed before belongs to no running worker. -/
theorem WorkersInv.closes_ite (h : WorkersInv s) {w : ℕ} {k : Worker}
    (hown : ∀ c, (s.workers w).own = some c → k.own = some c) {j c : ℕ}
    (hj : (j, c) ∈ s.closes) :
    if j = w then k.own = some c else (s.workers j).own = some c := by
  have hc := h.closes j c hj
  split
  · rename_i heq
    exact hown c (heq ▸ hc)
  · exact hc

/-- A new phase of a registered worker that goes on. -/
theorem WorkersInv.setPhase (h : WorkersInv s) {w : ℕ} {p : Phase} (hw : s.Running w)
    (hphase : (s.workers w).phase ≠ .starting) (hdone : p ≠ .done) (hstart : p ≠ .starting)
    (hsel : ∀ c, p = .selecting c → c = (s.workers w).own) : WorkersInv (s.setPhase w p) := by
  refine h.replace (w := w) (k := { s.workers w with phase := p })
    { workers := rfl
      next := le_rfl
      running := fun _ => ⟨h.running_lt w hw, fun j hne hj hidx => hne (h.unique j w hj hw hidx)⟩
      own := fun c hc => ⟨(h.own_lt w c hc).1, (h.own_lt w c hc).2,
        fun j hne hj => hne (h.own_inj j w c hj hc)⟩
      starting := fun he => absurd he hstart
      registered := fun _ _ => h.registered w hw hphase
      selecting := hsel
      lookup := fun i c => ?_
      closed := fun c hc => ?_
      closes := fun j c hj => h.closes_ite (fun _ hc => hc) hj
      senders := h.senders
      stuck := h.stuck }
  · refine (h.lookup_iff w i c).trans (or_congr_left (and_congr_left fun _ => ?_))
    exact iff_of_true hw hdone
  · exact ⟨(h.closed c hc).1, fun hown => absurd hw ((h.closed c hc).2 w hown),
      fun j _ => (h.closed c hc).2 j⟩

/-- A new worker, for a shard that has none. -/
theorem WorkersInv.startShardReceiver (h : WorkersInv s) {i : ℤ}
    (hnone : ∀ w, s.Running w → (s.workers w).shardIdx ≠ i) :
    WorkersInv (s.startShardReceiver i) := by
  have hfree : ¬ s.Running s.next := fun hrun => lt_irrefl _ (h.running_lt _ hrun)
  have hnoown : ∀ c, (s.workers s.next).own ≠ some c :=
    fun c hc => lt_irrefl _ (h.own_lt _ c hc).1
  refine h.replace (w := s.next) (k := ⟨i, none, .starting⟩)
    { workers := rfl
      next := Nat.le_succ _
      running := fun _ => ⟨Nat.lt_succ_self _, fun j _ hj => hnone j hj⟩
      own := fun c hc => by cases hc
      starting := fun _ => rfl
      registered := fun _ hne => absurd rfl hne
      selecting := fun c hc => by cases hc
      lookup := fun k c => ?_
      closed := fun c hc => ?_
      closes := fun j c hj => h.closes_ite (fun c hc => absurd hc (hnoown c)) hj
      senders := h.senders
      stuck := h.stuck }
  · refine (h.lookup_iff s.next k c).trans (or_congr_left (iff_of_false ?_ ?_))
    · exact fun hold => hfree hold.1
    · rintro ⟨-, -, hc⟩
      cases hc
  · exact ⟨Nat.lt_succ_of_lt (h.closed c hc).1, fun hown => (by cases hown),
      fun j _ => (h.closed c hc).2 j⟩

/-- A worker registers its channel. -/
theorem WorkersInv.register (h : WorkersInv s) {w : ℕ} (hw : (s.workers w).phase = .starting) :
    WorkersInv (s.register w) := by
  have hrunw : s.Running w := running_of_phase hw (by simp)
  have hnoown : ∀ c, (s.workers w).own ≠ some c := by
    intro c
    rw [h.starting w hw]
    simp
  refine h.replace (w := w) (k := { s.workers w with own := some s.next, phase := .polling })
    { workers := rfl
      next := Nat.le_succ _
      running := fun _ => ⟨Nat.lt_succ_of_lt (h.running_lt w hrunw),
        fun j hne hj hidx => hne (h.unique j w hj hrunw hidx)⟩
      own := fun c hc => ?_
      starting := fun he => by cases he
      registered := fun _ _ => by simp
      selecting := fun c hc => by cases hc
      lookup := fun i c => ?_
      closed := fun c hc => ?_
      closes := fun j c hj => h.closes_ite (fun c hc => absurd hc (hnoown c)) hj
      senders := h.senders
      stuck := h.stuck }
  · -- the channel is new
    obtain rfl := Option.some.inj hc
    exact ⟨Nat.lt_succ_of_lt (h.running_lt w hrunw), Nat.lt_succ_self _,
      fun j _ hj => lt_irrefl _ (h.own_lt j _ hj).2⟩
  · show (s.stopChannelMap.insert (s.workers w).shardIdx s.next).lookup i = some c ↔ _
    rw [Finmap.lookup_insert_eq]
    split
    · rename_i hi
      constructor
      · exact fun hc => Or.inl ⟨by simp, hi.symm, hc⟩
      · rintro (⟨-, -, hc⟩ | ⟨j, hne, hj, hji, -⟩)
        · exact hc
        · exact absurd (h.unique j w hj hrunw (hji.trans hi)) hne
    · rename_i hi
      refine (h.lookup_iff w i c).trans (or_congr_left (iff_of_false ?_ ?_))
      · exact fun hold => hi hold.2.1.symm
      · exact fun hnew => hi hnew.2.1.symm
  · refine ⟨Nat.lt_succ_of_lt (h.closed c hc).1, fun hown => ?_, fun j _ => (h.closed c hc).2 j⟩
    obtain rfl := Option.some.inj hown
    exact absurd (h.closed _ hc).1 (lt_irrefl _)

/-- A worker that has been told to stop closes its own channel. -/
theorem WorkersInv.closeChannel (h : WorkersInv s) {w : ℕ} (hw : (s.workers w).phase = .closing) :
    WorkersInv (s.closeChannel w) ∧
      (s.closeChannel w).workers = (s.setPhase w .done).workers ∧
      (s.closeChannel w).listener = s.listener ∧
      (s.closeChannel w).ownedShards = s.ownedShards ∧ (s.closeChannel w).last = s.last := by
  have hrunw : s.Running w := running_of_phase hw (by simp)
  have hphase : (s.workers w).phase ≠ .starting := by
    rw [hw]
    simp
  -- the table has the worker's own channel, which nobody has closed
  obtain ⟨c, hc⟩ := Option.ne_none_iff_exists'.mp (h.registered w hrunw hphase)
  have hlookup := h.lookup_own hrunw hphase
  have hopen : c ∉ s.closed := fun hmem => (h.closed c hmem).2 w hc hrunw
  have heq : s.closeChannel w = { s.setPhase w .done with
      stopChannelMap := s.stopChannelMap.erase (s.workers w).shardIdx
      closed := insert c s.closed
      closes := s.closes ++ [(w, c)] } := by
    unfold Receiver.closeChannel
    rw [hlookup, hc]
    dsimp only
    rw [if_neg hopen]
  refine ⟨?_, by rw [heq], by rw [heq]; rfl, by rw [heq]; rfl, by rw [heq]; rfl⟩
  rw [heq]
  refine h.replace (w := w) (k := { s.workers w with phase := .done })
    { workers := rfl
      next := le_rfl
      running := fun hdone => absurd rfl hdone
      own := fun d hd => ⟨(h.own_lt w d hd).1, (h.own_lt w d hd).2,
        fun j hne hj => hne (h.own_inj j w d hj hd)⟩
      starting := fun he => by cases he
      registered := fun hdone => absurd rfl hdone
      selecting := fun d hd => by cases hd
      lookup := fun i d => ?_
      closed := fun d hd => ?_
      closes := fun j d hj => ?_
      senders := h.senders
      stuck := h.stuck }
  · show (s.stopChannelMap.erase (s.workers w).shardIdx).lookup i = some d ↔ _
    rw [Finmap.lookup_erase_eq]
    split
    · rename_i hi
      refine iff_of_false (by simp) ?_
      rintro (⟨hdone, -⟩ | ⟨j, hne, hj, hji, -⟩)
      · exact hdone rfl
      · exact hne (h.unique j w hj hrunw (hji.trans hi))
    · rename_i hi
      refine (h.lookup_iff w i d).trans (or_congr_left (iff_of_false ?_ ?_))
      · exact fun hold => hi hold.2.1.symm
      · exact fun hnew => hnew.1 rfl
  · refine ⟨?_, fun _ => rfl, fun j hne hj => ?_⟩
    · rcases Finset.mem_insert.mp hd with rfl | hd
      · exact (h.own_lt w d hc).2
      · exact (h.closed d hd).1
    · rcases Finset.mem_insert.mp hd with rfl | hd
      · exact absurd (h.own_inj j w d hj hc) hne
      · exact (h.closed d hd).2 j hj
  · rcases List.mem_append.mp hj with hj | hj
    · exact h.closes_ite (fun _ hd => hd) hj
    · obtain ⟨rfl, rfl⟩ := Prod.mk.inj (List.mem_singleton.mp hj)
      rw [if_pos rfl]
      exact hc

end Receiver

/-! ## The listener -/

/-- The worker has not been told to stop. -/
def Phase.Serving : Phase → Prop
  | .starting | .polling | .selecting _ => True
  | .closing | .done => False

theorem Phase.Serving.ne_done {p : Phase} (h : p.Serving) : p ≠ .done := by
  rintro rfl
  exact h

namespace Receiver

variable {s s' : Receiver}

/-- A worker of the shard has not been told to stop. -/
def Served (s : Receiver) (i : ℤ) : Prop :=
  ∃ w, (s.workers w).shardIdx = i ∧ Phase.Serving (s.workers w).phase

/-- Different shards of the list stand for different shards of the stream. -/
def Distinct (shards : List String) : Prop :=
  ∀ x ∈ shards, ∀ y ∈ shards, shardIdx x = shardIdx y → x = y

/-- While the listener goes through the old shards, `rest` being left: those that stay owned are
served, and what is served stays owned, is left, or is about to be stopped. -/
structure Stopping (s : Receiver) (newShards rest : List String) (leaving : ℤ → Prop) : Prop where
  last : s.last = newShards
  parsed : Parsed newShards
  old_parsed : Parsed s.ownedShards
  distinct : Distinct s.ownedShards
  left : ∀ x ∈ rest, x ∈ s.ownedShards
  served : ∀ x ∈ s.ownedShards, x ∈ newShards → s.Served (shardIdx x)
  only : ∀ i, s.Served i → leaving i ∨
    ∃ x ∈ s.ownedShards, shardIdx x = i ∧ (x ∈ newShards ∨ x ∈ rest)

/-- While the listener goes through the new shards, `rest` being left: those that were owned
before and those that have been started are served. -/
structure Starting (s : Receiver) (newShards before rest : List String) : Prop where
  last : s.last = newShards
  parsed : Parsed newShards
  split : newShards = before ++ rest
  distinct : Distinct (newShards.filter fun x => x ∈ s.ownedShards ∨ x ∈ before)
  served : ∀ i, s.Served i ↔
    ∃ x ∈ newShards, shardIdx x = i ∧ (x ∈ s.ownedShards ∨ x ∈ before)

/-- What holds at each point of the listener. -/
def Listening (s : Receiver) : Prop :=
  match s.listener with
  | .idle => s.last = s.ownedShards ∧ Parsed s.ownedShards ∧ Distinct s.ownedShards ∧
      ∀ i, s.Served i ↔ ∃ x ∈ s.ownedShards, shardIdx x = i
  | .stopping newShards rest => Stopping s newShards rest fun _ => False
  | .sending stopChan newShards rest => ∃ w, (s.workers w).own = some stopChan ∧
      Phase.Serving (s.workers w).phase ∧
      (∀ x ∈ s.ownedShards, x ∈ newShards → shardIdx x ≠ (s.workers w).shardIdx) ∧
      Stopping s newShards rest fun i => i = (s.workers w).shardIdx
  | .starting newShards rest => ∃ before, Starting s newShards before rest
  | .dead => False

theorem Stopping.congr {newShards rest : List String} {leaving : ℤ → Prop}
    (h : Stopping s newShards rest leaving) (howned : s'.ownedShards = s.ownedShards)
    (hlast : s'.last = s.last) (hserved : ∀ i, s'.Served i ↔ s.Served i) :
    Stopping s' newShards rest leaving := by
  constructor
  case last =>
    rw [hlast, h.last]
  case parsed =>
    exact h.parsed
  case old_parsed =>
    rw [howned]
    exact h.old_parsed
  case distinct =>
    rw [howned]
    exact h.distinct
  case left =>
    rw [howned]
    exact h.left
  case served =>
    intro x hx hnew
    rw [howned] at hx
    exact (hserved _).mpr (h.served x hx hnew)
  case only =>
    intro i hi
    rw [howned]
    exact h.only i ((hserved i).mp hi)

/-- A step of a worker that does not change who is served. -/
theorem Listening.congr (h : Listening s) (hlistener : s'.listener = s.listener)
    (howned : s'.ownedShards = s.ownedShards) (hlast : s'.last = s.last)
    (hserved : ∀ i, s'.Served i ↔ s.Served i)
    (hkept : ∀ w c, (s.workers w).own = some c → Phase.Serving (s.workers w).phase →
      (s'.workers w).own = some c ∧ Phase.Serving (s'.workers w).phase ∧
        (s'.workers w).shardIdx = (s.workers w).shardIdx) : Listening s' := by
  unfold Listening at h ⊢
  rw [hlistener]
  cases hl : s.listener with
  | idle =>
      rw [hl] at h
      dsimp only at h ⊢
      simp only [howned, hlast, hserved]
      exact h
  | stopping newShards rest =>
      rw [hl] at h
      exact Stopping.congr h howned hlast hserved
  | sending stopChan newShards rest =>
      rw [hl] at h
      obtain ⟨w, hown, hserving, hne, hstop⟩ := h
      obtain ⟨hown', hserving', hidx⟩ := hkept w stopChan hown hserving
      refine ⟨w, hown', hserving', ?_, ?_⟩
      · rw [howned, hidx]
        exact hne
      · rw [hidx]
        exact hstop.congr howned hlast hserved
  | starting newShards rest =>
      rw [hl] at h
      obtain ⟨before, hstart⟩ := h
      refine ⟨before, ⟨by rw [hlast, hstart.last], hstart.parsed, hstart.split, ?_, ?_⟩⟩
      · simp only [howned]
        exact hstart.distinct
      · intro i
        simp only [hserved, howned]
        exact hstart.served i
  | dead =>
      rw [hl] at h
      exact h

/-- The invariant. -/
structure Inv (s : Receiver) : Prop where
  workers : WorkersInv s
  listening : Listening s

theorem inv_start : Inv start where
  workers := workersInv_start
  listening := by
    refine ⟨rfl, fun x hx => ?_, fun x hx => ?_, fun i => ?_⟩
    · simp [start] at hx
    · simp [start] at hx
    · simp [start, Served, Phase.Serving]

/-- Who is served after the phase of a worker has changed. -/
theorem served_setPhase_iff {w : ℕ} {p : Phase} (hp : p.Serving ↔ Phase.Serving (s.workers w).phase)
    (i : ℤ) : (s.setPhase w p).Served i ↔ s.Served i := by
  unfold Served
  simp only [setPhase_shardIdx, setPhase_phase]
  refine exists_congr fun j => and_congr_right fun _ => ?_
  split
  · rename_i hj
    rw [hj, hp]
  · rfl

/-- A worker goes on and nothing changes for the listener. -/
theorem Inv.setPhase (h : Inv s) {w : ℕ} {p : Phase} (hw : s.Running w)
    (hphase : (s.workers w).phase ≠ .starting) (hstart : p ≠ .starting)
    (hserving : p.Serving) (hold : Phase.Serving (s.workers w).phase)
    (hsel : ∀ c, p = .selecting c → c = (s.workers w).own) : Inv (s.setPhase w p) where
  workers := h.workers.setPhase hw hphase hserving.ne_done hstart hsel
  listening := by
    refine h.listening.congr rfl rfl rfl
      (served_setPhase_iff ⟨fun _ => hold, fun _ => hserving⟩) fun j c hj hservingj => ?_
    rw [setPhase_own, setPhase_shardIdx, setPhase_phase]
    refine ⟨hj, ?_, rfl⟩
    split
    · exact hserving
    · exact hservingj

/-- The next step of a worker. -/
theorem inv_proceed (h : Inv s) {w : ℕ} (hs : s.proceed w = some s') : Inv s' := by
  unfold proceed at hs
  rw [h.workers.stuck] at hs
  cases hphase : (s.workers w).phase with
  | starting =>
      rw [hphase] at hs
      obtain rfl := Option.some.inj hs
      have hworker : ∀ j, ((s.register w).workers j).shardIdx = (s.workers j).shardIdx ∧
          (Phase.Serving ((s.register w).workers j).phase ↔ Phase.Serving (s.workers j).phase) := by
        intro j
        rcases eq_or_ne j w with rfl | hne
        · unfold register
          simp [hphase, Phase.Serving]
        · unfold register
          simp [hne]
      refine ⟨h.workers.register hphase, h.listening.congr rfl rfl rfl ?_ ?_⟩
      · intro i
        unfold Served
        simp only [(hworker _).1, (hworker _).2]
      · intro j c hj hserving
        -- a worker that starts has no channel yet
        have hne : j ≠ w := by
          rintro rfl
          rw [h.workers.starting j hphase] at hj
          simp at hj
        refine ⟨?_, (hworker j).2.mpr hserving, (hworker j).1⟩
        rw [← hj]
        exact congrArg Worker.own (Function.update_of_ne hne _ _)
  | polling =>
      rw [hphase] at hs
      obtain rfl := Option.some.inj hs
      have hw : s.Running w := running_of_phase hphase (by simp)
      have hne : (s.workers w).phase ≠ .starting := by
        rw [hphase]
        simp
      refine h.setPhase hw hne (by simp) trivial (by rw [hphase]; trivial) ?_
      rintro c ⟨⟩
      exact h.workers.lookup_own hw hne
  | closing =>
      rw [hphase] at hs
      obtain rfl := Option.some.inj hs
      obtain ⟨hinv, hworkers, hlistener, howned, hlast⟩ := h.workers.closeChannel hphase
      refine ⟨hinv, h.listening.congr hlistener howned hlast ?_ ?_⟩
      · intro i
        unfold Served
        rw [hworkers]
        exact served_setPhase_iff (by rw [hphase]; exact Iff.rfl) i
      · intro j c hj hserving
        have hne : j ≠ w := by
          rintro rfl
          rw [hphase] at hserving
          exact hserving
        rw [hworkers, setPhase_own, setPhase_shardIdx, setPhase_phase, if_neg hne]
        exact ⟨hj, hserving, rfl⟩
  | selecting c =>
      rw [hphase] at hs
      simp at hs
  | done =>
      rw [hphase] at hs
      simp at hs

/-- What the listener writes does not concern the workers. -/
theorem WorkersInv.setListener (h : WorkersInv s) (l : Listener) (owned last : List String) :
    WorkersInv { s with listener := l, ownedShards := owned, last := last } :=
  ⟨h.unique, h.running_lt, h.own_lt, h.own_inj, h.starting, h.registered, h.selecting, h.lookup,
    h.closed, h.closes, h.senders, h.stuck⟩

/-- A worker takes the stop message of the listener. -/
theorem inv_stopped (h : Inv s) {w c : ℕ} {newShards rest : List String}
    (hphase : (s.workers w).phase = .selecting (some c))
    (hlistener : s.listener = .sending c newShards rest) :
    Inv { s.setPhase w .closing with listener := .stopping newShards rest } := by
  have hw : s.Running w := running_of_phase hphase (by simp)
  have hl := h.listening
  unfold Listening at hl
  rw [hlistener] at hl
  obtain ⟨w', hown', hserving, hkeep, hstop⟩ := hl
  obtain rfl : w' = w := h.workers.own_inj w' w c hown' (h.workers.selecting w _ hphase).symm
  -- the shard of the worker has no other worker
  have hserved : ∀ i,
      (s.setPhase w' .closing).Served i ↔ s.Served i ∧ i ≠ (s.workers w').shardIdx := by
    intro i
    unfold Served
    simp only [setPhase_shardIdx, setPhase_phase]
    constructor
    · rintro ⟨j, hidx, hj⟩
      split at hj
      · exact hj.elim
      · rename_i hne
        refine ⟨⟨j, hidx, hj⟩, ?_⟩
        rintro rfl
        exact hne (h.workers.unique j w' hj.ne_done hw hidx)
    · rintro ⟨⟨j, hidx, hj⟩, hne⟩
      refine ⟨j, hidx, ?_⟩
      rw [if_neg]
      · exact hj
      · rintro rfl
        exact hne hidx.symm
  refine ⟨WorkersInv.setListener (h.workers.setPhase hw (by rw [hphase]; simp) (by simp) (by simp)
    (by simp)) _ _ _, ?_⟩
  exact {
    last := hstop.last
    parsed := hstop.parsed
    old_parsed := hstop.old_parsed
    distinct := hstop.distinct
    left := hstop.left
    served := fun x hx hnew => (hserved _).mpr ⟨hstop.served x hx hnew, hkeep x hx hnew⟩
    only := fun i hi => by
      obtain ⟨hold, hne⟩ := (hserved i).mp hi
      exact Or.inr ((hstop.only i hold).resolve_left hne) }

/-- The `select` of a worker. -/
theorem inv_select (h : Inv s) {w : ℕ} {source : Source} (hs : s.select w source = some s') :
    Inv s' := by
  cases hphase : (s.workers w).phase with
  | selecting d =>
      have hw : s.Running w := running_of_phase hphase (by simp)
      have hown : ∀ c, d = some c → (s.workers w).own = some c := fun c hd =>
        hd ▸ (h.workers.selecting w d hphase).symm
      cases source with
      | listener =>
          rw [select, hphase] at hs
          cases d with
          | none => simp at hs
          | some c =>
              cases hl : s.listener with
              | sending stopChan newShards rest =>
                  rw [hl] at hs
                  obtain ⟨rfl, rfl⟩ := by simpa using hs
                  exact inv_stopped h hphase hl
              | idle => simp [hl] at hs
              | stopping newShards rest => simp [hl] at hs
              | starting newShards rest => simp [hl] at hs
              | dead => simp [hl] at hs
      | sender =>
          rw [select, hphase] at hs
          cases d with
          | none => simp at hs
          | some c => simp [h.workers.senders] at hs
      | closed =>
          rw [select, hphase] at hs
          cases d with
          | none => simp at hs
          | some c =>
              -- the channel of a worker that runs is open
              obtain ⟨hc, -⟩ := by simpa using hs
              exact absurd hw ((h.workers.closed c hc).2 w (hown c rfl))
      | none =>
          rw [select, hphase] at hs
          obtain rfl := Option.some.inj hs
          exact h.setPhase hw (by rw [hphase]; simp) (by simp) trivial (by rw [hphase]; trivial)
            (by simp)
  | starting => cases source <;> simp [select, hphase] at hs
  | polling => cases source <;> simp [select, hphase] at hs
  | closing => cases source <;> simp [select, hphase] at hs
  | done => cases source <;> simp [select, hphase] at hs

/-- A shard that is left alone by the loop over the old shards. -/
theorem Stopping.skip {newShards rest : List String} {oldShard : String}
    (h : Stopping s newShards (oldShard :: rest) fun _ => False)
    (hskip : oldShard ∈ newShards ∨ ¬ s.Served (shardIdx oldShard)) :
    Stopping s newShards rest fun _ => False where
  last := h.last
  parsed := h.parsed
  old_parsed := h.old_parsed
  distinct := h.distinct
  left := fun x hx => h.left x (List.mem_cons_of_mem _ hx)
  served := h.served
  only := by
    intro i hi
    obtain ⟨x, hx, rfl, hor⟩ := (h.only i hi).resolve_left id
    refine Or.inr ⟨x, hx, rfl, ?_⟩
    rcases hor with hnew | hrest
    · exact Or.inl hnew
    · rcases List.mem_cons.mp hrest with rfl | hrest
      · exact Or.inl (hskip.resolve_right fun hnot => hnot hi)
      · exact Or.inr hrest

/-- The listener comes to a shard that is not owned any more. -/
theorem inv_stopShardReceiver (h : Inv s) {newShards rest : List String} {oldShard : String}
    (hlistener : s.listener = .stopping newShards (oldShard :: rest)) (hout : oldShard ∉ newShards)
    (hguard : ∀ w, s.Running w → (s.workers w).shardIdx = shardIdx oldShard →
      (s.workers w).phase = .polling ∨ ∃ c, (s.workers w).phase = .selecting c) :
    Inv (s.stopShardReceiver (shardIdx oldShard) newShards rest) := by
  have hl := h.listening
  unfold Listening at hl
  rw [hlistener] at hl
  have hstop : Stopping s newShards (oldShard :: rest) fun _ => False := hl
  have hmem : oldShard ∈ s.ownedShards := hstop.left oldShard List.mem_cons_self
  have hpos : ¬ shardIdx oldShard < 0 := not_lt.mpr (hstop.old_parsed oldShard hmem).2
  unfold stopShardReceiver
  rw [if_neg hpos]
  cases hlookup : s.stopChannelMap.lookup (shardIdx oldShard) with
  | none =>
      refine ⟨h.workers.setListener _ _ _, ?_⟩
      refine Stopping.congr (s := s) (hstop.skip (Or.inr ?_)) rfl rfl fun _ => Iff.rfl
      -- a worker of the shard would be registered
      rintro ⟨w, hidx, hserving⟩
      have hphase : (s.workers w).phase ≠ .starting := by
        rcases hguard w hserving.ne_done hidx with hp | ⟨c, hp⟩ <;> simp [hp]
      have hown := h.workers.lookup_own hserving.ne_done hphase
      rw [hidx, hlookup] at hown
      exact h.workers.registered w hserving.ne_done hphase hown.symm
  | some c =>
      obtain ⟨w, hw, hidx, hown⟩ := (h.workers.lookup _ _).mp hlookup
      refine ⟨h.workers.setListener _ _ _, ⟨w, hown, ?_, ?_, ?_⟩⟩
      · show Phase.Serving (s.workers w).phase
        rcases hguard w hw hidx with hp | ⟨d, hp⟩ <;> rw [hp] <;> trivial
      · intro x hx hnew heq
        obtain rfl : x = oldShard := hstop.distinct x hx oldShard hmem (heq.trans hidx)
        exact hout hnew
      · exact {
          last := hstop.last
          parsed := hstop.parsed
          old_parsed := hstop.old_parsed
          distinct := hstop.distinct
          left := fun x hx => hstop.left x (List.mem_cons_of_mem _ hx)
          served := hstop.served
          only := fun i hi => by
            obtain ⟨x, hx, rfl, hor⟩ := (hstop.only i hi).resolve_left id
            rcases hor with hnew | hrest
            · exact Or.inr ⟨x, hx, rfl, Or.inl hnew⟩
            · rcases List.mem_cons.mp hrest with rfl | hrest
              · exact Or.inl hidx.symm
              · exact Or.inr ⟨x, hx, rfl, Or.inr hrest⟩ }

/-- The listener comes to a shard that is new. -/
theorem inv_startShardReceiver (h : Inv s) {newShards rest : List String} {newShard : String}
    (hlistener : s.listener = .starting newShards (newShard :: rest))
    (hguard : ∀ w, s.Running w → (s.workers w).shardIdx ≠ shardIdx newShard) :
    Inv { s.startShardReceiver (shardIdx newShard) with listener := .starting newShards rest } := by
  have hl := h.listening
  unfold Listening at hl
  rw [hlistener] at hl
  obtain ⟨before, hstart⟩ := hl
  have hserved : ∀ i, (s.startShardReceiver (shardIdx newShard)).Served i ↔
      s.Served i ∨ i = shardIdx newShard := by
    intro i
    constructor
    · rintro ⟨w, hidx, hw⟩
      rcases eq_or_ne w s.next with rfl | hne
      · have hnew : (s.startShardReceiver (shardIdx newShard)).workers s.next =
          ⟨shardIdx newShard, none, .starting⟩ := Function.update_self ..
        rw [hnew] at hidx
        exact Or.inr hidx.symm
      · have hold : (s.startShardReceiver (shardIdx newShard)).workers w = s.workers w :=
          Function.update_of_ne hne _ _
        rw [hold] at hidx hw
        exact Or.inl ⟨w, hidx, hw⟩
    · rintro (⟨w, hidx, hw⟩ | rfl)
      · have hold : (s.startShardReceiver (shardIdx newShard)).workers w = s.workers w :=
          Function.update_of_ne (h.workers.running_lt w hw.ne_done).ne _ _
        exact ⟨w, by rw [hold, hidx], by rw [hold]; exact hw⟩
      · refine ⟨s.next, ?_, ?_⟩ <;>
        · unfold startShardReceiver
          simp [Phase.Serving]
  -- the shards that are served so far are other shards of the stream
  have hother : ∀ x ∈ newShards, x ∈ s.ownedShards ∨ x ∈ before → shardIdx x ≠ shardIdx newShard := by
    intro x hx hor heq
    obtain ⟨w, hidx, hw⟩ := (hstart.served (shardIdx x)).mpr ⟨x, hx, rfl, hor⟩
    exact hguard w hw.ne_done (hidx.trans heq)
  have hin : newShard ∈ newShards := by
    rw [hstart.split]
    simp
  refine ⟨WorkersInv.setListener (h.workers.startShardReceiver hguard) _ _ _,
    ⟨before ++ [newShard], ?_⟩⟩
  refine ⟨hstart.last, hstart.parsed, by rw [hstart.split]; simp, ?_, ?_⟩
  · intro x hx y hy heq
    simp only [List.mem_filter, List.mem_append, List.mem_singleton, decide_eq_true_eq] at hx hy
    have hsplit : ∀ z ∈ newShards, (z ∈ s.ownedShards ∨ z ∈ before ∨ z = newShard) →
        (z ∈ s.ownedShards ∨ z ∈ before) ∨ z = newShard := fun z _ hz => by tauto
    rcases hsplit x hx.1 hx.2 with hx' | rfl
    · rcases hsplit y hy.1 hy.2 with hy' | rfl
      · refine hstart.distinct x ?_ y ?_ heq
        · simp [hx.1, hx']
        · simp [hy.1, hy']
      · exact absurd heq (hother x hx.1 hx')
    · rcases hsplit y hy.1 hy.2 with hy' | rfl
      · exact absurd heq.symm (hother y hy.1 hy')
      · rfl
  · intro i
    refine (hserved i).trans ?_
    rw [hstart.served]
    constructor
    · rintro (⟨x, hx, hidx, hor⟩ | rfl)
      · exact ⟨x, hx, hidx, hor.imp_right (List.mem_append_left _)⟩
      · exact ⟨newShard, hin, rfl, Or.inr (by simp)⟩
    · rintro ⟨x, hx, hidx, hor | hor⟩
      · exact Or.inl ⟨x, hx, hidx, Or.inl hor⟩
      · rcases List.mem_append.mp hor with hor | hor
        · exact Or.inl ⟨x, hx, hidx, Or.inr hor⟩
        · rw [List.mem_singleton.mp hor] at hidx
          exact Or.inr hidx.symm

/-- All old shards have been looked at: those that are served are owned and stay. -/
theorem Stopping.starting {newShards : List String} (h : Stopping s newShards [] fun _ => False) :
    Starting s newShards [] newShards := by
  refine ⟨h.last, h.parsed, rfl, ?_, fun i => ⟨fun hi => ?_, ?_⟩⟩
  · intro x hx y hy heq
    simp only [List.mem_filter, List.not_mem_nil, or_false, decide_eq_true_eq] at hx hy
    exact h.distinct x hx.2 y hy.2 heq
  · obtain ⟨x, hx, hidx, hor⟩ := (h.only i hi).resolve_left id
    exact ⟨x, hor.resolve_right List.not_mem_nil, hidx, Or.inl hx⟩
  · rintro ⟨x, hx, rfl, hor⟩
    exact h.served x (hor.resolve_right List.not_mem_nil) hx

/-- All new shards have been looked at: they are distinct, and they are served. -/
theorem Starting.ended {newShards before : List String} (h : Starting s newShards before []) :
    Distinct newShards ∧ ∀ i, s.Served i ↔ ∃ x ∈ newShards, shardIdx x = i := by
  obtain rfl : newShards = before := by rw [h.split, List.append_nil]
  refine ⟨fun x hx y hy heq => ?_, fun i => (h.served i).trans ⟨?_, ?_⟩⟩
  · exact h.distinct x (by simp [show x ∈ newShards from hx]) y
      (by simp [show y ∈ newShards from hy]) heq
  · rintro ⟨x, hx, hidx, -⟩
    exact ⟨x, hx, hidx⟩
  · rintro ⟨x, hx, hidx⟩
    exact ⟨x, hx, hidx, Or.inr hx⟩

/-- An owned shard is served already. -/
theorem Starting.skip {newShards before rest : List String} {newShard : String}
    (h : Starting s newShards before (newShard :: rest)) (hold : newShard ∈ s.ownedShards) :
    Starting s newShards (before ++ [newShard]) rest := by
  have hsame : ∀ x, (x ∈ s.ownedShards ∨ x ∈ before ++ [newShard]) ↔
      (x ∈ s.ownedShards ∨ x ∈ before) := by
    intro x
    rw [List.mem_append, List.mem_singleton]
    constructor
    · rintro (hx | hx | rfl)
      · exact Or.inl hx
      · exact Or.inr hx
      · exact Or.inl hold
    · rintro (hx | hx)
      · exact Or.inl hx
      · exact Or.inr (Or.inl hx)
  refine ⟨h.last, h.parsed, by rw [h.split]; simp, ?_, fun i => ?_⟩
  · simp only [hsame]
    exact h.distinct
  · simp only [hsame]
    exact h.served i

/-- The next step of the listener. -/
theorem inv_listen (h : Inv s) (hguard : s.Guarded .listen) (hs : s.listen = some s') : Inv s' := by
  have hl := h.listening
  unfold Listening at hl
  unfold listen at hs
  cases hlistener : s.listener with
  | idle =>
      rw [hlistener] at hs
      simp at hs
  | stopping newShards rest =>
      rw [hlistener] at hs hl
      have hstop : Stopping s newShards rest fun _ => False := hl
      cases rest with
      | nil =>
          obtain rfl := Option.some.inj hs
          exact ⟨h.workers.setListener _ _ _, [], { hstop.starting with }⟩
      | cons oldShard rest =>
          dsimp only at hs
          by_cases hnew : oldShard ∈ newShards
          · rw [if_pos hnew] at hs
            obtain rfl := Option.some.inj hs
            refine ⟨h.workers.setListener _ _ _, ?_⟩
            exact Stopping.congr (s := s) (hstop.skip (Or.inl hnew)) rfl rfl fun _ => Iff.rfl
          · have hparse := (hstop.old_parsed oldShard (hstop.left _ List.mem_cons_self)).1
            have hatoi : atoi oldShard.toList = (shardIdx oldShard, none) := Prod.ext rfl hparse
            rw [if_neg hnew, hatoi, h.workers.stuck] at hs
            obtain rfl := Option.some.inj hs
            exact inv_stopShardReceiver h hlistener hnew (hguard.1 _ _ _ hlistener hnew)
  | sending stopChan newShards rest =>
      -- only a closed channel ends the sending here, and a serving worker's channel is open
      rw [hlistener] at hs hl
      obtain ⟨w, hown, hserving, -⟩ := hl
      obtain ⟨hclosed, -⟩ := by simpa using hs
      exact absurd hserving.ne_done ((h.workers.closed stopChan hclosed).2 w hown)
  | starting newShards rest =>
      rw [hlistener] at hs hl
      obtain ⟨before, hstart⟩ := hl
      cases rest with
      | nil =>
          obtain rfl := Option.some.inj hs
          exact ⟨h.workers.setListener _ _ _, hstart.last, hstart.parsed, hstart.ended⟩
      | cons newShard rest =>
          dsimp only at hs
          by_cases hold : newShard ∈ s.ownedShards
          · rw [if_pos hold] at hs
            obtain rfl := Option.some.inj hs
            exact ⟨h.workers.setListener _ _ _, before ++ [newShard], { hstart.skip hold with }⟩
          · have hin : newShard ∈ newShards := by
              rw [hstart.split]
              simp
            have hatoi : atoi newShard.toList = (shardIdx newShard, none) :=
              Prod.ext rfl (hstart.parsed newShard hin).1
            rw [if_neg hold, hatoi] at hs
            obtain rfl := Option.some.inj hs
            exact inv_startShardReceiver h hlistener (hguard.2 _ _ _ hlistener hold)
  | dead =>
      rw [hlistener] at hl
      exact hl.elim

/-- A configuration reaches the listener. -/
theorem inv_update (h : Inv s) {newShards : Sharder.ShardConfig} (hidle : s.listener = .idle)
    (hparsed : Parsed newShards.ownedShards) :
    Inv { s with
      last := newShards.ownedShards
      listener := .stopping newShards.ownedShards s.ownedShards } := by
  have hl := h.listening
  unfold Listening at hl
  rw [hidle] at hl
  obtain ⟨-, hold, hdistinct, hserved⟩ := hl
  refine ⟨h.workers.setListener _ _ _, ?_⟩
  exact {
    last := rfl
    parsed := hparsed
    old_parsed := hold
    distinct := hdistinct
    left := fun x hx => hx
    served := fun x hx _ => (hserved _).mpr ⟨x, hx, rfl⟩
    only := fun i hi => by
      obtain ⟨x, hx, hidx⟩ := (hserved i).mp hi
      exact Or.inr ⟨x, hx, hidx, Or.inr hx⟩ }

/-- One step that meets the guard. -/
theorem inv_step {a : Action} (h : Inv s) (hguard : s.Guarded a) (hs : s.step a = some s') :
    Inv s' := by
  cases a with
  | update newShards =>
      obtain ⟨hidle, rfl⟩ := by simpa [step] using hs
      exact inv_update h hidle hguard
  | listen => exact inv_listen h hguard hs
  | proceed w => exact inv_proceed h hs
  | select w source => exact inv_select h hs
  | exit w => exact hguard.elim

theorem Inv.followed (h : Inv s) : s.Followed where
  unique := h.workers.unique
  closes := h.workers.closes
  owned := by
    intro hquiet
    have hl := h.listening
    unfold Listening at hl
    rw [hquiet.listener] at hl
    obtain ⟨hlast, hparsed, -, hserved⟩ := hl
    rw [hlast]
    refine ⟨hparsed, fun i => (Iff.trans ?_ (hserved i))⟩
    constructor
    · rintro ⟨w, hw, hidx⟩
      refine ⟨w, hidx, ?_⟩
      rcases hquiet.workers w hw with hp | ⟨c, hp, -⟩ <;> rw [hp] <;> trivial
    · rintro ⟨w, hidx, hw⟩
      exact ⟨w, hw.ne_done, hidx⟩

/-- **The workers follow the configurations.**  In every run in which a shard is stopped when its
worker is polling and started when it has no worker, there is one worker for a shard at most,
every worker closes its own channel, and when nothing is pending the workers are those of the
last configuration. -/
theorem followed_of_run {as : List Action} (hguard : Runs.Along step Guarded start as)
    (hrun : Runs.run step start as = some s) : s.Followed := by
  have h : Inv s := Runs.run_induction_along (fun _ _ _ h hg hs => inv_step h hg hs) inv_start
    hguard hrun
  exact h.followed

/-- A configuration with the given shards. -/
def sampleConfig (shards : List String) : Sharder.ShardConfig := ⟨"node", 1, shards⟩

/-- Shard 0 is given to the receiver, and taken away when its worker polls. -/
def sampleActions : List Action :=
  [.update (sampleConfig ["0"]), .listen, .listen, .listen, .proceed 0, .proceed 0,
    .update (sampleConfig []), .listen, .select 0 .listener, .listen, .listen, .proceed 0]

theorem guarded_sampleActions : Runs.Along step Guarded start sampleActions := by
  have hquiet : ∀ s : Receiver, (∀ newShards x rest, s.listener ≠ .stopping newShards (x :: rest)) →
      (∀ newShards x rest, s.listener ≠ .starting newShards (x :: rest)) → s.Guarded .listen :=
    fun s hstop hstart =>
      ⟨fun n x r h => absurd h (hstop n x r), fun n x r h => absurd h (hstart n x r)⟩
  refine .cons ?_ rfl <| .cons (hquiet _ ?_ ?_) rfl <| .cons ⟨?_, ?_⟩ rfl <|
    .cons (hquiet _ ?_ ?_) rfl <| .cons trivial rfl <| .cons trivial rfl <| .cons ?_ rfl <|
    .cons ⟨?_, ?_⟩ rfl <| .cons trivial rfl <| .cons (hquiet _ ?_ ?_) rfl <|
    .cons (hquiet _ ?_ ?_) rfl <| .cons trivial rfl trivial
  case refine_1 =>
    intro x hx
    rw [List.mem_singleton.mp hx]
    decide
  case refine_5 =>
    -- there is no worker yet
    intro newShards x rest _ _ w hw
    exact absurd rfl hw
  case refine_8 =>
    intro x hx
    cases hx
  case refine_9 =>
    intro newShards x rest _ _ w hw _
    rcases eq_or_ne w 0 with rfl | hne
    · exact Or.inr ⟨_, rfl⟩
    · change (Function.update (Function.update (Function.update start.workers 0 _) 0 _) 0 _ w).phase
        ≠ .done at hw
      rw [Function.update_of_ne hne, Function.update_of_ne hne, Function.update_of_ne hne] at hw
      exact absurd rfl hw
  all_goals
    intro newShards x rest h
    cases h

theorem followed_of_run_sample : ∃ s : Receiver, Runs.run step start sampleActions = some s ∧
    s.closes = [(0, 1)] ∧ s.Followed :=
  ⟨_, rfl, by decide +kernel, followed_of_run guarded_sampleActions rfl⟩

/-- A shard that is taken away before its worker has registered keeps its worker, and gets a
second one when it comes back; and a worker that has been told to stop closes the channel of the
next worker of its shard. -/
theorem not_followed :
    (∃ s : Receiver, Runs.run step start
        [.update (sampleConfig ["0"]), .listen, .listen, .listen,
          .update (sampleConfig []), .listen, .listen, .listen, .proceed 0] = some s ∧
      s.Quiet ∧ s.Running 0 ∧ s.last = []) ∧
    (∃ s : Receiver, Runs.run step start
        [.update (sampleConfig ["0"]), .listen, .listen, .listen,
          .update (sampleConfig []), .listen, .listen, .listen,
          .update (sampleConfig ["0"]), .listen, .listen, .proceed 0, .proceed 1] = some s ∧
      s.Running 0 ∧ s.Running 1 ∧ (s.workers 0).shardIdx = (s.workers 1).shardIdx) ∧
    ∃ s : Receiver, Runs.run step start
        [.update (sampleConfig ["0"]), .listen, .listen, .listen, .proceed 0, .proceed 0,
          .update (sampleConfig []), .listen, .select 0 .listener, .listen, .listen,
          .update (sampleConfig ["0"]), .listen, .listen, .listen, .proceed 2, .proceed 0] = some s ∧
      (0, 3) ∈ s.closes ∧ (s.workers 0).own = some 1 ∧ (s.workers 2).own = some 3 := by
  refine ⟨⟨_, rfl, ⟨rfl, rfl, fun w hw => ?_⟩, ?_, ?_⟩, ⟨_, rfl, ?_, ?_, ?_⟩, ⟨_, rfl, ?_, ?_, ?_⟩⟩
  · rcases eq_or_ne w 0 with rfl | hne
    · exact Or.inl rfl
    · change (Function.update (Function.update start.workers 0 _) 0 _ w).phase ≠ .done at hw
      rw [Function.update_of_ne hne, Function.update_of_ne hne] at hw
      exact absurd rfl hw
  · unfold Running
    decide +kernel
  · rfl
  · unfold Running
    decide +kernel
  · unfold Running
    decide +kernel
  · rfl
  · decide +kernel
  · rfl
  · rfl

end Receiver

end Kinesis
