/-
# Where a shard receiver starts (`pkg/checkpoint`, `pkg/plugins/kinesis/receiver.go`)

A receiver that uses checkpoints asks the manager for the one of its shard, and starts there if it
is not too old, or as configured.  A manager has no word for the absence of a checkpoint: it
answers with a blank number, and the receiver looks at the age only.  The Dynamo manager gives the
zero time with it, which is older than any age; the one in memory gives the present time.

`starts_right_iff`: a checkpoint that was stored and is not too old is where both loops start;
without one they start as configured exactly when the time that the manager gives for it is too
old.
-/
import Ears.ActiveNodes
import Ears.KinesisCheckpoint

open Sharder (second sub intSeconds)

namespace Checkpoint

/-! ## The managers -/

/-- `time.Time{}`, in nanoseconds from the start of 1970. -/
def zeroTime : ℤ := -62135596800 * second

/-- `InMemoryCheckpointManager`. -/
structure InMemoryCheckpointManager where
  checkpoints : String → Option String

namespace InMemoryCheckpointManager

/-- `GetCheckpoint`. -/
def getCheckpoint (cm : InMemoryCheckpointManager) (id : String) (now : ℤ) :
    Except String (String × ℤ) :=
  .ok ((cm.checkpoints id).getD "", now)

/-- `SetCheckpoint`. -/
def setCheckpoint (cm : InMemoryCheckpointManager) (id sequenceNumber : String) :
    Except String InMemoryCheckpointManager :=
  if sequenceNumber = "" then .error "cannot pass blank sequence number as checkpoint"
  else .ok ⟨Function.update cm.checkpoints id (some sequenceNumber)⟩

end InMemoryCheckpointManager

/-- `DynamoCheckpointManager` with its table, which has one item for an id: the number and the time
of its update. -/
structure DynamoCheckpointManager where
  updateFrequencySeconds : ℤ
  lastUpdate : String → Option ℤ
  table : String → Option (String × ℤ)

namespace DynamoCheckpointManager

/-- `GetCheckpoint`, with the error of the query if it fails. -/
def getCheckpoint (cm : DynamoCheckpointManager) (id : String) (query : Option String) :
    Except String (String × ℤ) :=
  match query with
  | some err => .error err
  | none =>
      match cm.table id with
      | none => .ok ("", zeroTime)
      | some (sequenceId, updateTime) => .ok (sequenceId, updateTime)

/-- Whether `SetCheckpoint` updates the item. -/
def updates (cm : DynamoCheckpointManager) (id : String) (now : ℤ) : Bool :=
  match cm.lastUpdate id with
  | none => true
  | some lastUpdate => decide (cm.updateFrequencySeconds ≤ intSeconds (sub now lastUpdate))

/-- `SetCheckpoint` when it updates the item, with the error of the update if it fails. -/
def updateItem (cm : DynamoCheckpointManager) (id sequenceNumber : String) (updated stamped : ℤ)
    (err : Option String) : DynamoCheckpointManager :=
  let cm := { cm with lastUpdate := Function.update cm.lastUpdate id (some updated) }
  match err with
  | some _ => cm
  | none => { cm with table := Function.update cm.table id (some (sequenceNumber, stamped)) }

end DynamoCheckpointManager

/-- `CheckpointManager`: one of the two. -/
inductive Manager where
  | inmemory (cm : InMemoryCheckpointManager)
  | dynamodb (cm : DynamoCheckpointManager)

/-- `GetCheckpoint`. -/
def Manager.getCheckpoint : Manager → String → ℤ → Option String → Except String (String × ℤ)
  | .inmemory cm, id, now, _ => cm.getCheckpoint id now
  | .dynamodb cm, id, _, query => cm.getCheckpoint id query

/-! ## The receiver loops -/

/-- The two receiver loops: `startShardReceiver` and `startShardReceiverEFO`. -/
inductive Loop where
  | shared
  | enhancedFanOut
  deriving DecidableEq, Repr

/-- What a loop starts with: `StartingPosition` of the subscription or the fields of
`GetShardIteratorInput`. -/
structure StartingPosition where
  type : String
  sequenceNumber : Option String
  deriving DecidableEq, Repr

/-- As configured. -/
def ReceiverConfig.configured (cfg : ReceiverConfig) : StartingPosition :=
  ⟨cfg.shardIteratorType, none⟩

/-- The position of `startShardReceiverEFO`, from the answer of `GetCheckpoint` and the time of the
test. -/
def startingPositionEFO (cfg : ReceiverConfig) (checkpoint : Except String (String × ℤ)) (now : ℤ) :
    StartingPosition :=
  if cfg.useCheckpoint then
    match checkpoint with
    | .ok (sequenceId, lastUpdate) =>
        if intSeconds (sub now lastUpdate) ≤ cfg.maxCheckpointAgeSeconds then
          ⟨"AT_SEQUENCE_NUMBER", some sequenceId⟩
        else cfg.configured
    | .error _ => cfg.configured
  else if cfg.startingSequenceNumber ≠ "" then
    ⟨"AT_SEQUENCE_NUMBER", some cfg.startingSequenceNumber⟩
  else cfg.configured

/-- The position of `startShardReceiver`. -/
def startingPositionShared (cfg : ReceiverConfig) (checkpoint : Except String (String × ℤ))
    (now : ℤ) : StartingPosition :=
  if cfg.useCheckpoint then
    match checkpoint with
    | .ok (sequenceId, lastUpdate) =>
        if intSeconds (sub now lastUpdate) ≤ cfg.maxCheckpointAgeSeconds then
          ⟨"AFTER_SEQUENCE_NUMBER", some sequenceId⟩
        else cfg.configured
    | .error _ => cfg.configured
  else if cfg.startingSequenceNumber ≠ "" then
    ⟨"AT_SEQUENCE_NUMBER", some cfg.startingSequenceNumber⟩
  else cfg.configured

/-- The position of a loop. -/
def Loop.startingPosition : Loop → ReceiverConfig → Except String (String × ℤ) → ℤ →
    StartingPosition
  | .shared => startingPositionShared
  | .enhancedFanOut => startingPositionEFO

/-- A checkpoint as a position. -/
def Loop.fromCheckpoint : Loop → String → StartingPosition
  | .shared, sequenceId => ⟨"AFTER_SEQUENCE_NUMBER", some sequenceId⟩
  | .enhancedFanOut, sequenceId => ⟨"AT_SEQUENCE_NUMBER", some sequenceId⟩

/-! ## Histories -/

/-- A checkpoint that was stored. -/
structure Entry where
  id : String
  sequenceNumber : String
  time : ℤ
  deriving DecidableEq, Repr

/-- A manager, the clock, and the checkpoints that were stored. -/
structure Checkpoints where
  clock : ℤ
  manager : Manager
  history : List Entry

/-- Time passes, or `SetCheckpoint` is called, which for Dynamo comes with the times that pass up to
its other two readings of the clock and with the error of the update. -/
inductive Call where
  | tick (d : ℕ)
  | setCheckpoint (id sequenceNumber : String) (toUpdated toStamped : ℕ) (err : Option String)

namespace Checkpoints

/-- A new manager. -/
def start (storageType : StorageType) (updateFrequencySeconds clock : ℤ) : Checkpoints where
  clock := clock
  manager :=
    match storageType with
    | .inmemory => .inmemory ⟨fun _ => none⟩
    | .dynamodb => .dynamodb ⟨updateFrequencySeconds, fun _ => none, fun _ => none⟩
  history := []

/-- `SetCheckpoint`. -/
def setCheckpoint (s : Checkpoints) (id sequenceNumber : String) (toUpdated toStamped : ℕ)
    (err : Option String) : Checkpoints :=
  match s.manager with
  | .inmemory cm =>
      match cm.setCheckpoint id sequenceNumber with
      | .error _ => s
      | .ok cm =>
          { s with
            manager := .inmemory cm
            history := s.history ++ [⟨id, sequenceNumber, s.clock⟩] }
  | .dynamodb cm =>
      if cm.updates id s.clock then
        let updated := s.clock + toUpdated
        let stamped := updated + toStamped
        let history :=
          match err with
          | some _ => s.history
          | none => s.history ++ [⟨id, sequenceNumber, stamped⟩]
        ⟨stamped, .dynamodb (cm.updateItem id sequenceNumber updated stamped err), history⟩
      else s

/-- One step. -/
def step (s : Checkpoints) : Call → Option Checkpoints
  | .tick d => some { s with clock := s.clock + d }
  | .setCheckpoint id sequenceNumber toUpdated toStamped err =>
      some (s.setCheckpoint id sequenceNumber toUpdated toStamped err)

/-- Where a loop starts that asks for the checkpoint now and looks at its age after a time `d`. -/
def startingPosition (loop : Loop) (cfg : ReceiverConfig) (s : Checkpoints) (id : String) (d : ℕ)
    (query : Option String) : StartingPosition :=
  loop.startingPosition cfg (s.manager.getCheckpoint id s.clock query) (s.clock + d)

/-- A checkpoint was stored for the id. -/
def WasSet (s : Checkpoints) (id : String) : Prop := ∃ e ∈ s.history, e.id = id

/-- The manager answers. -/
def Answers (s : Checkpoints) (query : Option String) : Prop :=
  match s.manager with
  | .inmemory _ => True
  | .dynamodb _ => query = none

/-- Without a checkpoint the loop starts as configured, and with one that is not too old it starts
from a number that was stored for the id. -/
structure StartsRight (loop : Loop) (cfg : ReceiverConfig) (s : Checkpoints) (id : String) (d : ℕ)
    (query : Option String) : Prop where
  configured : ¬ s.WasSet id → s.startingPosition loop cfg id d query = cfg.configured
  fromStored : s.Answers query → ∀ e ∈ s.history, e.id = id →
    s.clock + d - e.time ≤ cfg.maxCheckpointAgeSeconds * second →
    ∃ e' ∈ s.history, e'.id = id ∧
      s.startingPosition loop cfg id d query = loop.fromCheckpoint e'.sequenceNumber

/-- The time that the manager gives for a checkpoint that is not there. -/
def absentTime (s : Checkpoints) : ℤ :=
  match s.manager with
  | .inmemory _ => s.clock
  | .dynamodb _ => zeroTime

/-- What the manager has is what was stored last. -/
structure Inv (s : Checkpoints) : Prop where
  clock : ∀ e ∈ s.history, e.time ≤ s.clock
  inmemory : ∀ cm, s.manager = .inmemory cm → ∀ id,
    (cm.checkpoints id = none ∧ ¬ s.WasSet id) ∨
      ∃ e ∈ s.history, e.id = id ∧ cm.checkpoints id = some e.sequenceNumber
  dynamodb : ∀ cm, s.manager = .dynamodb cm → ∀ id,
    (cm.table id = none ∧ ¬ s.WasSet id) ∨
      ∃ e ∈ s.history, e.id = id ∧ cm.table id = some (e.sequenceNumber, e.time) ∧
        ∀ e' ∈ s.history, e'.id = id → e'.time ≤ e.time

variable {s s' : Checkpoints} {a : Call} {cfg : ReceiverConfig} {loop : Loop} {id : String} {d : ℕ}
  {query : Option String}

theorem inv_start (storageType : StorageType) (updateFrequencySeconds clock : ℤ) :
    Inv (start storageType updateFrequencySeconds clock) where
  clock := fun e he => by cases he
  inmemory := by
    intro cm hcm id
    cases storageType with
    | dynamodb => cases hcm
    | inmemory =>
        obtain rfl := Manager.inmemory.inj hcm
        refine Or.inl ⟨rfl, ?_⟩
        rintro ⟨e, he, -⟩
        cases he
  dynamodb := by
    intro cm hcm id
    cases storageType with
    | inmemory => cases hcm
    | dynamodb =>
        obtain rfl := Manager.dynamodb.inj hcm
        refine Or.inl ⟨rfl, ?_⟩
        rintro ⟨e, he, -⟩
        cases he

/-- In memory, a call stores its number unless that is blank. -/
theorem Inv.setCheckpoint_inmemory (h : Inv s) {cm : InMemoryCheckpointManager}
    (hcm : s.manager = .inmemory cm) (id sequenceNumber : String) :
    Inv { s with
      manager := .inmemory ⟨Function.update cm.checkpoints id (some sequenceNumber)⟩
      history := s.history ++ [⟨id, sequenceNumber, s.clock⟩] } where
  clock := by
    intro e he
    rcases List.mem_append.mp he with he | he
    · exact h.clock e he
    · rw [List.mem_singleton.mp he]
  inmemory := by
    intro cm' hcm' id'
    obtain rfl := Manager.inmemory.inj hcm'
    dsimp only
    by_cases hid : id' = id
    · rw [hid, Function.update_self]
      exact Or.inr ⟨_, List.mem_append_right _ List.mem_cons_self, rfl, rfl⟩
    · rw [Function.update_of_ne hid]
      rcases h.inmemory cm hcm id' with ⟨hnone, hunset⟩ | ⟨e, he, heid, hsome⟩
      · refine Or.inl ⟨hnone, ?_⟩
        rintro ⟨e, he, heid⟩
        rcases List.mem_append.mp he with he | he
        · exact hunset ⟨e, he, heid⟩
        · rw [List.mem_singleton.mp he] at heid
          exact hid heid.symm
      · exact Or.inr ⟨e, List.mem_append_left _ he, heid, hsome⟩
  dynamodb := by
    intro cm' hcm'
    cases hcm'

/-- An update of the item stores the number, at a later time. -/
theorem Inv.setCheckpoint_dynamodb (h : Inv s) {cm : DynamoCheckpointManager}
    (hcm : s.manager = .dynamodb cm) (id sequenceNumber : String) (updated stamped : ℤ)
    (hclock : s.clock ≤ stamped) :
    Inv ⟨stamped, .dynamodb (cm.updateItem id sequenceNumber updated stamped none),
      s.history ++ [⟨id, sequenceNumber, stamped⟩]⟩ where
  clock := by
    intro e he
    rcases List.mem_append.mp he with he | he
    · exact (h.clock e he).trans hclock
    · rw [List.mem_singleton.mp he]
  inmemory := by
    intro cm' hcm'
    cases hcm'
  dynamodb := by
    intro cm' hcm' id'
    obtain rfl := Manager.dynamodb.inj hcm'
    show (Function.update cm.table id (some (sequenceNumber, stamped)) id' = none ∧ _) ∨ _
    by_cases hid : id' = id
    · subst hid
      refine Or.inr ⟨⟨id', sequenceNumber, stamped⟩, List.mem_append_right _ List.mem_cons_self,
        rfl, Function.update_self .., ?_⟩
      intro e he _
      rcases List.mem_append.mp he with he | he
      · exact (h.clock e he).trans hclock
      · rw [List.mem_singleton.mp he]
    · rw [Function.update_of_ne hid]
      rcases h.dynamodb cm hcm id' with ⟨hnone, hunset⟩ | ⟨e, he, heid, hsome, hlast⟩
      · refine Or.inl ⟨hnone, ?_⟩
        rintro ⟨e, he, heid⟩
        rcases List.mem_append.mp he with he | he
        · exact hunset ⟨e, he, heid⟩
        · rw [List.mem_singleton.mp he] at heid
          exact hid heid.symm
      · refine Or.inr ⟨e, List.mem_append_left _ he, heid,
          (Function.update_of_ne hid ..).trans hsome, fun e' he' heid' => ?_⟩
        rcases List.mem_append.mp he' with he' | he'
        · exact hlast e' he' heid'
        · rw [List.mem_singleton.mp he'] at heid'
          exact absurd heid'.symm hid

/-- A failed update changes nothing in the table. -/
theorem Inv.setCheckpoint_failed (h : Inv s) {cm : DynamoCheckpointManager}
    (hcm : s.manager = .dynamodb cm) (id sequenceNumber : String) (updated stamped : ℤ)
    (err : String) (hclock : s.clock ≤ stamped) :
    Inv ⟨stamped, .dynamodb (cm.updateItem id sequenceNumber updated stamped (some err)),
      s.history⟩ where
  clock := fun e he => (h.clock e he).trans hclock
  inmemory := by
    intro cm' hcm'
    cases hcm'
  dynamodb := by
    intro cm' hcm' id'
    obtain rfl := Manager.dynamodb.inj hcm'
    exact h.dynamodb cm hcm id'

/-- Every step keeps the invariant. -/
theorem Inv.step (h : Inv s) (hs : step s a = some s') : Inv s' := by
  cases a with
  | tick d =>
      obtain rfl := Option.some.inj hs
      exact ⟨fun e he => (h.clock e he).trans (by show s.clock ≤ s.clock + d; omega), h.inmemory,
        h.dynamodb⟩
  | setCheckpoint id sequenceNumber toUpdated toStamped err =>
      obtain rfl := Option.some.inj hs
      unfold setCheckpoint
      split
      · rename_i cm hcm
        unfold InMemoryCheckpointManager.setCheckpoint
        by_cases hblank : sequenceNumber = ""
        · rw [if_pos hblank]
          exact h
        · rw [if_neg hblank]
          exact h.setCheckpoint_inmemory hcm id sequenceNumber
      · rename_i cm hcm
        split
        · cases err with
          | none => exact h.setCheckpoint_dynamodb hcm id sequenceNumber _ _ (by omega)
          | some err => exact h.setCheckpoint_failed hcm id sequenceNumber _ _ err (by omega)
        · exact h

theorem inv_of_run {storageType : StorageType} {updateFrequencySeconds clock : ℤ} {as : List Call}
    (hrun : Runs.run step (start storageType updateFrequencySeconds clock) as = some s) : Inv s :=
  Runs.run_induction (fun _ _ _ h hs => Inv.step h hs)
    (inv_start storageType updateFrequencySeconds clock) hrun

/-! ## Where the loops start -/

/-- With checkpoints on, both loops test the age only. -/
theorem startingPosition_ok (hcheckpoint : cfg.useCheckpoint = true) (loop : Loop)
    (sequenceId : String) (lastUpdate now : ℤ) :
    loop.startingPosition cfg (.ok (sequenceId, lastUpdate)) now =
      if intSeconds (sub now lastUpdate) ≤ cfg.maxCheckpointAgeSeconds then
        loop.fromCheckpoint sequenceId
      else cfg.configured := by
  cases loop with
  | shared =>
      unfold Loop.startingPosition
      dsimp only
      unfold startingPositionShared
      rw [if_pos hcheckpoint]
      rfl
  | enhancedFanOut =>
      unfold Loop.startingPosition
      dsimp only
      unfold startingPositionEFO
      rw [if_pos hcheckpoint]
      rfl

theorem startingPosition_error (hcheckpoint : cfg.useCheckpoint = true) (loop : Loop) (err : String)
    (now : ℤ) : loop.startingPosition cfg (.error err) now = cfg.configured := by
  cases loop with
  | shared =>
      unfold Loop.startingPosition
      dsimp only
      unfold startingPositionShared
      rw [if_pos hcheckpoint]
  | enhancedFanOut =>
      unfold Loop.startingPosition
      dsimp only
      unfold startingPositionEFO
      rw [if_pos hcheckpoint]

/-- A checkpoint, also a blank one, is not what is configured. -/
theorem fromCheckpoint_ne_configured (loop : Loop) (cfg : ReceiverConfig) (sequenceId : String) :
    loop.fromCheckpoint sequenceId ≠ cfg.configured := by
  intro h
  have hnumber := congrArg StartingPosition.sequenceNumber h
  cases loop with
  | shared => cases hnumber
  | enhancedFanOut => cases hnumber

/-- The answer without a checkpoint. -/
theorem Inv.getCheckpoint_of_unset (h : Inv s) (hunset : ¬ s.WasSet id) (hanswers : s.Answers query) :
    s.manager.getCheckpoint id s.clock query = .ok ("", s.absentTime) := by
  unfold Answers at hanswers
  unfold absentTime
  cases hm : s.manager with
  | inmemory cm =>
      rcases h.inmemory cm hm id with ⟨hnone, -⟩ | ⟨e, he, heid, -⟩
      · show Except.ok ((cm.checkpoints id).getD "", s.clock) = _
        rw [hnone]
        rfl
      · exact absurd ⟨e, he, heid⟩ hunset
  | dynamodb cm =>
      rw [hm] at hanswers
      obtain rfl : query = none := hanswers
      rcases h.dynamodb cm hm id with ⟨hnone, -⟩ | ⟨e, he, heid, -⟩
      · show cm.getCheckpoint id none = _
        unfold DynamoCheckpointManager.getCheckpoint
        rw [hnone]
      · exact absurd ⟨e, he, heid⟩ hunset

/-- The answer with a checkpoint: a number that was stored for the id, and a time that is not before
any of its updates. -/
theorem Inv.getCheckpoint_of_set (h : Inv s) {e : Entry} (he : e ∈ s.history) (heid : e.id = id)
    (hanswers : s.Answers query) :
    ∃ e' ∈ s.history, e'.id = id ∧ ∃ t, e.time ≤ t ∧ t ≤ s.clock ∧
      s.manager.getCheckpoint id s.clock query = .ok (e'.sequenceNumber, t) := by
  unfold Answers at hanswers
  cases hm : s.manager with
  | inmemory cm =>
      rcases h.inmemory cm hm id with ⟨-, hunset⟩ | ⟨e', he', heid', hsome⟩
      · exact absurd ⟨e, he, heid⟩ hunset
      · refine ⟨e', he', heid', s.clock, h.clock e he, le_rfl, ?_⟩
        show Except.ok ((cm.checkpoints id).getD "", s.clock) = _
        rw [hsome]
        rfl
  | dynamodb cm =>
      rw [hm] at hanswers
      obtain rfl : query = none := hanswers
      rcases h.dynamodb cm hm id with ⟨-, hunset⟩ | ⟨e', he', heid', hsome, hlast⟩
      · exact absurd ⟨e, he, heid⟩ hunset
      · refine ⟨e', he', heid', e'.time, hlast e he heid, h.clock e' he', ?_⟩
        show cm.getCheckpoint id none = _
        unfold DynamoCheckpointManager.getCheckpoint
        rw [hsome]

/-- No answer. -/
theorem getCheckpoint_of_not_answers (hanswers : ¬ s.Answers query) :
    ∃ err, s.manager.getCheckpoint id s.clock query = .error err := by
  unfold Answers at hanswers
  cases hm : s.manager with
  | inmemory cm =>
      rw [hm] at hanswers
      exact absurd trivial hanswers
  | dynamodb cm =>
      rw [hm] at hanswers
      obtain ⟨err, rfl⟩ := Option.ne_none_iff_exists'.mp hanswers
      exact ⟨err, rfl⟩

/-- A checkpoint that is not too old passes the test of its age. -/
theorem age_le {now t time maxAge : ℤ} (htime : time ≤ t) (ht : t ≤ now)
    (hfresh : now - time ≤ maxAge * second) : intSeconds (sub now t) ≤ maxAge := by
  apply Sharder.intSeconds_sub_le
  unfold sub
  omega

theorem Inv.startsRight_iff (h : Inv s) (hcheckpoint : cfg.useCheckpoint = true) :
    StartsRight loop cfg s id d query ↔
      (¬ s.WasSet id → s.Answers query →
        cfg.maxCheckpointAgeSeconds < intSeconds (sub (s.clock + d) s.absentTime)) := by
  constructor
  · rintro ⟨hconfigured, -⟩ hunset hanswers
    have hstart := hconfigured hunset
    unfold startingPosition at hstart
    rw [h.getCheckpoint_of_unset hunset hanswers, startingPosition_ok hcheckpoint] at hstart
    by_contra hage
    rw [if_pos (not_lt.mp hage)] at hstart
    exact fromCheckpoint_ne_configured loop cfg "" hstart
  · intro hage
    refine ⟨fun hunset => ?_, fun hanswers e he heid hfresh => ?_⟩
    · unfold startingPosition
      by_cases hanswers : s.Answers query
      · rw [h.getCheckpoint_of_unset hunset hanswers, startingPosition_ok hcheckpoint,
          if_neg (not_le.mpr (hage hunset hanswers))]
      · obtain ⟨err, herr⟩ : ∃ err, s.manager.getCheckpoint id s.clock query = .error err :=
          getCheckpoint_of_not_answers hanswers
        rw [herr, startingPosition_error hcheckpoint]
    · obtain ⟨e', he', heid', t, htime, ht, hget⟩ := h.getCheckpoint_of_set he heid hanswers
      refine ⟨e', he', heid', ?_⟩
      unfold startingPosition
      rw [hget, startingPosition_ok hcheckpoint, if_pos (age_le htime (by omega) hfresh)]

/-- **Receivers start where they should** after every history of calls, in both loops and with both
managers, exactly when a checkpoint that is not there is too old by the time that the manager gives
for it. -/
theorem starts_right_iff (storageType : StorageType) (updateFrequencySeconds clock : ℤ)
    (as : List Call)
    (hrun : Runs.run step (start storageType updateFrequencySeconds clock) as = some s)
    (hcheckpoint : cfg.useCheckpoint = true) (loop : Loop) (id : String) (d : ℕ)
    (query : Option String) :
    StartsRight loop cfg s id d query ↔
      (¬ s.WasSet id → s.Answers query →
        cfg.maxCheckpointAgeSeconds < intSeconds (sub (s.clock + d) s.absentTime)) :=
  (inv_of_run hrun).startsRight_iff hcheckpoint

/-- The default configuration. -/
def sampleConfig : ReceiverConfig where
  shardIteratorType := "LATEST"
  useCheckpoint := true
  maxCheckpointAgeSeconds := 86400
  startingSequenceNumber := ""

/-- One checkpoint, stored in the year 2020. -/
def sampleCalls : List Call := [.setCheckpoint "a" "100" 0 0 none, .tick 1000000000]

theorem starts_right_iff_sample : ∃ s,
    Runs.run step (start .dynamodb 60 (1600000000 * second)) sampleCalls = some s ∧
    (StartsRight .shared sampleConfig s "b" 0 none ↔ (¬ s.WasSet "b" → s.Answers none →
      sampleConfig.maxCheckpointAgeSeconds < intSeconds (sub (s.clock + (0 : ℕ)) s.absentTime))) :=
  ⟨_, rfl, starts_right_iff .dynamodb 60 (1600000000 * second) sampleCalls rfl rfl .shared "b" 0 none⟩

/-- A new manager in memory: both loops start at a blank sequence number. -/
theorem starts_blank :
    (start .inmemory 60 (1600000000 * second)).startingPosition .shared sampleConfig "a" 0 none =
      ⟨"AFTER_SEQUENCE_NUMBER", some ""⟩ ∧
    (start .inmemory 60 (1600000000 * second)).startingPosition .enhancedFanOut sampleConfig "a" 0
      none = ⟨"AT_SEQUENCE_NUMBER", some ""⟩ ∧
    ∀ loop, ¬ StartsRight loop sampleConfig (start .inmemory 60 (1600000000 * second)) "a" 0 none := by
  refine ⟨by decide +kernel, by decide +kernel, fun loop h => ?_⟩
  have hage :=
    (Inv.startsRight_iff (inv_start _ _ _) rfl).mp h (by rintro ⟨e, he, -⟩; cases he) trivial
  exact absurd hage (by decide +kernel)

end Checkpoints

end Checkpoint
