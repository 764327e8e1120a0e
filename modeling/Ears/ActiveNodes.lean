/-
# The active nodes (`pkg/sharder/dynamo.go`)

Every node of the cluster writes the time of its last heartbeat into a table of DynamoDB, under
the tag of the cluster and its own address.  `GetActiveNodes` reads the records of the tag,
deletes those that are too old, and returns the addresses, which the distributors deal the
shards out to.

A record that is deleted stays in the list that is returned: the branch that deletes it does not
go on to the next record.  `intended_iff` says that the list and the deletions are the
intended ones exactly when every record has a heartbeat that is fresh.
-/
import Ears.Floats
import Ears.Sharder

open GoLib

namespace Sharder

/-! ## Durations -/

/-- The nanoseconds of a second. -/
def second : ℤ := 1000000000

/-- `now.Sub(t)`: a duration is a number of 64 bits, and one that does not fit is cut off. -/
def sub (now t : ℤ) : ℤ := max (-2 ^ 63) (min (2 ^ 63 - 1) (now - t))

/-- `Duration.Seconds()` of a duration that is not negative: the whole seconds and the rest are
converted one after the other. -/
def seconds (d : ℕ) : ℚ :=
  nearest 53 ((d / 1000000000 : ℕ) + nearest 53 ((d % 1000000000 : ℕ) / 1000000000))

/-- `int(d.Seconds())`: towards zero. -/
def intSeconds (d : ℤ) : ℤ := d.sign * ⌊seconds d.natAbs⌋

/-! ## The table -/

/-- `StorageConfig`, as far as the node manager reads it after its start. -/
structure StorageConfig where
  storageTable : String
  storageTag : String
  updateFrequencySeconds : ℤ
  updateTtlSeconds : ℤ
  deriving DecidableEq, Repr

/-- `dynamodb.AttributeValue`; only its text is read. -/
structure AttributeValue where
  s : Option String
  deriving DecidableEq, Repr

/-- `aws.StringValue`. -/
def stringValue (s : Option String) : String := s.getD ""

/-- A record of the answer: the attributes under `sortKeyName` and `valueName`. -/
structure Record where
  ip : Option AttributeValue
  lastUpdated : Option AttributeValue
  deriving DecidableEq, Repr

/-- `dynamodb.DeleteItemInput`. -/
structure DeleteItemInput where
  tableName : String
  key : String
  ip : String
  deriving DecidableEq, Repr

/-- `dynamoDBNodeManager`: the cached nodes and the time they are from. -/
structure DynamoDBNodeManager where
  activeNodes : List String
  lastUpdateTime : ℤ
  config : StorageConfig
  deriving DecidableEq, Repr

/-- Why there is no list: the query failed, or a heartbeat is no time. -/
inductive NodesError where
  | query
  | parse
  deriving DecidableEq, Repr

/-- `sort.Strings`. -/
def sortStrings (l : List String) : List String := l.insertionSort (· ≤ ·)

namespace DynamoDBNodeManager

variable (parse : String → Option ℤ) (now : ℤ) (d : DynamoDBNodeManager)

/-- `deleteRecord`. -/
def deleteRecord (ip : String) : DeleteItemInput := ⟨d.config.storageTable, d.config.storageTag, ip⟩

/-- The loop of `GetActiveNodes`: the addresses, unless a heartbeat does not parse, and the
records that are deleted. -/
def collect : List Record → Option (List String) × List DeleteItemInput
  | [] => (some [], [])
  | record :: records =>
      match record.ip with
      | none => collect records
      | some ipAttr =>
          match record.lastUpdated with
          | none => collect records
          | some lastUpdatedAttr =>
              match parse (stringValue lastUpdatedAttr.s) with
              | none => (none, [])
              | some updateTime =>
                  let rest := collect records
                  let ip := stringValue ipAttr.s
                  (rest.1.map (ip :: ·),
                    if intSeconds (sub now updateTime) > d.config.updateTtlSeconds then
                      d.deleteRecord ip :: rest.2
                    else rest.2)

/-- The cached list is used. -/
def Cached : Prop :=
  intSeconds (sub now d.lastUpdateTime) < d.config.updateFrequencySeconds ∧ d.activeNodes ≠ []

instance : Decidable (d.Cached now) := inferInstanceAs (Decidable (_ ∧ _))

/-- A call of `GetActiveNodes`: its result, the node manager after it, and the records that it
deletes. -/
structure Outcome where
  result : Except NodesError (List String)
  manager : DynamoDBNodeManager
  deleted : List DeleteItemInput

/-- `GetActiveNodes` at one time, with the answer to its query, if it is answered.  The times in
the records are read by `time.Parse`, a parameter. -/
def getActiveNodes (answer : Option (List Record)) : Outcome :=
  if d.Cached now then ⟨.ok d.activeNodes, d, []⟩
  else
    match answer with
    | none => ⟨.error .query, d, []⟩
    | some records =>
        match d.collect parse now records with
        | (none, deleted) => ⟨.error .parse, d, deleted⟩
        | (some nodes, deleted) =>
            let activeNodes := sortStrings nodes
            ⟨.ok activeNodes, { d with activeNodes := activeNodes, lastUpdateTime := now }, deleted⟩

end DynamoDBNodeManager

/-! ## Fresh records -/

namespace Record

variable (parse : String → Option ℤ) (now ttl : ℤ) (r : Record)

/-- The address in a record. -/
def address : String := stringValue (r.ip.bind AttributeValue.s)

/-- A heartbeat that parses, if there is one. -/
def Parseable : Prop := ∀ a ∈ r.lastUpdated, (parse (stringValue a.s)).isSome

instance : Decidable (r.Parseable parse) := inferInstanceAs (Decidable (∀ a ∈ r.lastUpdated, _))

/-- The record has an address and a heartbeat, not more than `ttl` seconds old. -/
def fresh : Bool :=
  r.ip.isSome && (r.lastUpdated.bind fun a => parse (stringValue a.s)).any
    fun t => decide (sub now t ≤ ttl * second)

/-- The record has an address and a heartbeat. -/
def complete : Bool := r.ip.isSome && r.lastUpdated.isSome

/-- The record has an address and a heartbeat, which the code takes to be too old. -/
def overdue : Bool :=
  r.ip.isSome && (r.lastUpdated.bind fun a => parse (stringValue a.s)).any
    fun t => decide (intSeconds (sub now t) > ttl)

end Record

/-! ## Whole seconds -/

theorem nearest_rest_nonneg (d : ℕ) :
    (0 : ℚ) ≤ nearest 53 ((d % 1000000000 : ℕ) / 1000000000 : ℚ) := by
  have h : ((0 : ℤ) : ℚ) ≤ nearest 53 ((d % 1000000000 : ℕ) / 1000000000 : ℚ) :=
    intCast_le_nearest (by decide) (by positivity) (by push_cast; positivity) (by norm_num)
  exact_mod_cast h

theorem seconds_le {d : ℕ} {n : ℤ} (h : d ≤ n * second) (hn : n < 2 ^ 53) : seconds d ≤ n := by
  have hrest : nearest 53 ((d % 1000000000 : ℕ) / 1000000000 : ℚ) ≤ (1 : ℤ) := by
    apply nearest_le_intCast (by decide) (by positivity) _ (by norm_num)
    have hlt : ((d % 1000000000 : ℕ) : ℚ) ≤ 1000000000 := by
      exact_mod_cast (Nat.mod_lt d (by decide)).le
    push_cast
    linarith
  have hpos := nearest_rest_nonneg d
  have hcast : ((d / 1000000000 : ℕ) : ℚ) = (((d / 1000000000 : ℕ) : ℤ) : ℚ) :=
    (Int.cast_natCast _).symm
  unfold second at h
  apply nearest_le_intCast (by decide) (by positivity) _ hn
  by_cases hlt : ((d / 1000000000 : ℕ) : ℤ) + 1 ≤ n
  · have hle : ((((d / 1000000000 : ℕ) : ℤ) + 1 : ℤ) : ℚ) ≤ n := Int.cast_le.mpr hlt
    rw [hcast]
    push_cast at hrest hle ⊢
    linarith
  · -- a whole number of seconds
    have hzero : d % 1000000000 = 0 := by omega
    have hdiv : ((d / 1000000000 : ℕ) : ℤ) ≤ n := by omega
    have hnearest : nearest 53 0 = 0 := by simp [nearest]
    rw [hzero, Nat.cast_zero, zero_div, hnearest, add_zero, hcast]
    exact Int.cast_le.mpr hdiv

theorem le_seconds {d : ℕ} {n : ℤ} (h : n * second ≤ d) (hn : n < 2 ^ 53) : n ≤ seconds d := by
  have hpos := nearest_rest_nonneg d
  unfold second at h
  have hle : n ≤ ((d / 1000000000 : ℕ) : ℤ) := by omega
  have hle' : (n : ℚ) ≤ ((d / 1000000000 : ℕ) : ℚ) := by
    rw [← Int.cast_natCast]
    exact Int.cast_le.mpr hle
  apply intCast_le_nearest (by decide) (by positivity) _ hn
  linarith

/-- A duration of at most `n` seconds has at most `n` whole seconds. -/
theorem intSeconds_le {d n : ℤ} (hd : -2 ^ 63 ≤ d) (hd' : d < 2 ^ 63) (h : d ≤ n * second) :
    intSeconds d ≤ n := by
  unfold intSeconds
  rcases lt_trichotomy d 0 with hneg | rfl | hpos
  · -- a negative duration is longer the other way
    have hn : -n * second ≤ d.natAbs ∧ -n < 2 ^ 53 := by
      unfold second at h ⊢
      omega
    have hfloor : -n ≤ ⌊seconds d.natAbs⌋ := Int.le_floor.mpr (by exact_mod_cast le_seconds hn.1 hn.2)
    rw [Int.sign_eq_neg_one_of_neg hneg]
    omega
  · rw [Int.sign_zero, zero_mul]
    unfold second at h
    omega
  · -- the longest duration has fewer than `2 ^ 34` seconds
    have hn : (d.natAbs : ℤ) ≤ min n (2 ^ 34) * second ∧ min n (2 ^ 34) < 2 ^ 53 := by
      unfold second at h ⊢
      omega
    have hfloor : ⌊seconds d.natAbs⌋ ≤ min n (2 ^ 34) := by
      have hle := seconds_le hn.1 hn.2
      exact_mod_cast (Int.floor_le _).trans hle
    rw [Int.sign_eq_one_of_pos hpos]
    omega

theorem intSeconds_sub_le {now t ttl : ℤ} (h : sub now t ≤ ttl * second) :
    intSeconds (sub now t) ≤ ttl := by
  apply intSeconds_le _ _ h
  · exact le_max_left _ _
  · unfold sub
    omega

/-! ## The list and the deletions -/

section Collect

variable {parse : String → Option ℤ} {now ttl : ℤ} {d : DynamoDBNodeManager} {r : Record}
  {records : List Record}

theorem Record.complete_of_fresh (h : r.fresh parse now ttl) : r.complete := by
  unfold Record.fresh at h
  unfold Record.complete
  rw [Bool.and_eq_true] at h ⊢
  refine ⟨h.1, ?_⟩
  cases hr : r.lastUpdated with
  | none => simp [hr] at h
  | some a => rfl

theorem Record.not_overdue_of_fresh (h : r.fresh parse now ttl) : r.overdue parse now ttl = false := by
  unfold Record.fresh at h
  unfold Record.overdue
  rw [Bool.and_eq_true] at h
  rw [h.1, Bool.true_and]
  cases ht : r.lastUpdated.bind fun a => parse (stringValue a.s) with
  | none => rfl
  | some t =>
      have hle := intSeconds_sub_le (by simpa [ht] using h.2)
      simpa using hle

/-- Every complete record is in the list, also one that is deleted. -/
theorem DynamoDBNodeManager.collect_eq (hparse : ∀ r ∈ records, r.Parseable parse) :
    d.collect parse now records =
      (some ((records.filter Record.complete).map Record.address),
        (records.filter (Record.overdue parse now d.config.updateTtlSeconds)).map
          fun r => d.deleteRecord r.address) := by
  induction records with
  | nil => rfl
  | cons r records ih =>
      have ih := ih fun r hr => hparse r (List.mem_cons_of_mem _ hr)
      obtain ⟨ip, lastUpdated⟩ := r
      cases ip with
      | none => simpa [collect, Record.complete, Record.overdue] using ih
      | some ipAttr =>
          cases lastUpdated with
          | none => simpa [collect, Record.complete, Record.overdue] using ih
          | some a =>
              obtain ⟨t, ht⟩ := Option.isSome_iff_exists.mp (hparse _ (List.mem_cons_self ..) a rfl)
              by_cases hold : intSeconds (sub now t) > d.config.updateTtlSeconds
              · simp [collect, Record.complete, Record.overdue, Record.address, ht, ih, hold]
              · simp [collect, Record.complete, Record.overdue, Record.address, ht, ih, hold]

/-- What a call does that does not use the cached list. -/
theorem DynamoDBNodeManager.getActiveNodes_eq (hcache : ¬ d.Cached now)
    (hparse : ∀ r ∈ records, r.Parseable parse) :
    (d.getActiveNodes parse now (some records)).result =
        .ok (sortStrings ((records.filter Record.complete).map Record.address)) ∧
      (d.getActiveNodes parse now (some records)).deleted =
        (records.filter (Record.overdue parse now d.config.updateTtlSeconds)).map
          fun r => d.deleteRecord r.address := by
  unfold getActiveNodes
  rw [if_neg hcache]
  simp only [d.collect_eq hparse, and_self]

/-- What is overdue has an address and a heartbeat. -/
theorem Record.complete_of_overdue (h : r.overdue parse now ttl) : r.complete := by
  unfold Record.overdue at h
  unfold Record.complete
  rw [Bool.and_eq_true] at h ⊢
  refine ⟨h.1, ?_⟩
  cases hr : r.lastUpdated with
  | none => simp [hr] at h
  | some a => rfl

/-- As many fresh records as complete ones: all complete records are fresh. -/
theorem fresh_of_length_eq
    (h : (records.filter Record.complete).length =
      (records.filter (Record.fresh parse now ttl)).length) :
    ∀ r ∈ records, r.complete → r.fresh parse now ttl := by
  have hsub : (records.filter (Record.fresh parse now ttl)).Sublist
      (records.filter Record.complete) :=
    List.monotone_filter_right _ fun r hr => Record.complete_of_fresh hr
  have heq := hsub.eq_of_length h.symm
  intro r hr hcomplete
  have hmem : r ∈ records.filter (Record.fresh parse now ttl) := by
    rw [heq]
    exact List.mem_filter.mpr ⟨hr, hcomplete⟩
  exact (List.mem_filter.mp hmem).2

end Collect

namespace DynamoDBNodeManager

variable {parse : String → Option ℤ} {now : ℤ} {d : DynamoDBNodeManager} {records : List Record}

/-- The list and the deletions are the intended ones: the addresses of the fresh records in
order, and all other records. -/
def Intended (parse : String → Option ℤ) (now : ℤ) (d : DynamoDBNodeManager)
    (records : List Record) : Prop :=
  let fresh := Record.fresh parse now d.config.updateTtlSeconds
  (d.getActiveNodes parse now (some records)).result =
      .ok (sortStrings ((records.filter fresh).map Record.address)) ∧
    (d.getActiveNodes parse now (some records)).deleted =
      (records.filter fun r => !fresh r).map fun r => d.deleteRecord r.address

/-- **The active nodes.**  When the cached list is not used and all heartbeats parse, the call
returns the fresh nodes in order and deletes all other records exactly when there are no other
records: an overdue record is deleted, but its node is in the list. -/
theorem intended_iff (hcache : ¬ d.Cached now) (hparse : ∀ r ∈ records, r.Parseable parse) :
    d.Intended parse now records ↔
      ∀ r ∈ records, r.fresh parse now d.config.updateTtlSeconds := by
  obtain ⟨hresult, hdeleted⟩ := getActiveNodes_eq (d := d) hcache hparse
  unfold Intended
  rw [hresult, hdeleted]
  constructor
  · rintro ⟨hlist, hdel⟩
    have hsort := Except.ok.inj hlist
    have hlength : (records.filter Record.complete).length =
        (records.filter (Record.fresh parse now d.config.updateTtlSeconds)).length := by
      have h := congrArg List.length hsort
      simpa only [sortStrings, List.length_insertionSort, List.length_map] using h
    have hfresh := fresh_of_length_eq hlength
    -- nothing is overdue then, so nothing is deleted
    have hnone : records.filter (Record.overdue parse now d.config.updateTtlSeconds) = [] := by
      apply List.filter_eq_nil_iff.mpr
      intro r hr hover
      rw [Record.not_overdue_of_fresh (hfresh r hr (Record.complete_of_overdue hover))] at hover
      exact Bool.false_ne_true hover
    rw [hnone, List.map_nil] at hdel
    have hothers := List.filter_eq_nil_iff.mp (List.map_eq_nil_iff.mp hdel.symm)
    intro r hr
    simpa using hothers r hr
  · -- all records are listed and none is overdue
    intro hfresh
    have hcomplete : records.filter Record.complete =
        records.filter (Record.fresh parse now d.config.updateTtlSeconds) := by
      apply List.filter_congr
      intro r hr
      rw [hfresh r hr, Record.complete_of_fresh (hfresh r hr)]
    have hover : records.filter (Record.overdue parse now d.config.updateTtlSeconds) = [] := by
      apply List.filter_eq_nil_iff.mpr
      intro r hr
      simp [Record.not_overdue_of_fresh (hfresh r hr)]
    rw [hcomplete, hover]
    refine ⟨rfl, congrArg _ (List.filter_eq_nil_iff.mpr ?_).symm⟩
    intro r hr
    simp [hfresh r hr]

/-- Two heartbeats of one minute and of two minutes after the start of time. -/
def clockTimes (s : String) : Option ℤ :=
  if s = "1970-01-01T00:01:00.000000000Z" then some 60000000000
  else if s = "1970-01-01T00:02:00.000000000Z" then some 120000000000
  else none

/-- A node manager that has just started, with the default times. -/
def fresher : DynamoDBNodeManager := ⟨[], 0, ⟨"ears-peers", "local", 10, 60⟩⟩

/-- The record of a node. -/
def heartbeat (ip lastUpdated : String) : Record := ⟨some ⟨some ip⟩, some ⟨some lastUpdated⟩⟩

/-- Two nodes, the second of which was heard of a minute before the first. -/
def twoNodes : List Record :=
  [heartbeat "10.0.0.2" "1970-01-01T00:02:00.000000000Z",
    heartbeat "10.0.0.1" "1970-01-01T00:01:00.000000000Z"]

/-- A node that was last heard of ninety seconds ago is deleted, and is in the list. -/
theorem stale_node_returned :
    (fresher.getActiveNodes clockTimes 150000000000 (some twoNodes)).deleted =
        [⟨"ears-peers", "local", "10.0.0.1"⟩] ∧
      (fresher.getActiveNodes clockTimes 150000000000 (some twoNodes)).result =
        .ok ["10.0.0.1", "10.0.0.2"] ∧
      ¬ fresher.Intended clockTimes 150000000000 twoNodes := by
  have hcache : ¬ fresher.Cached 150000000000 := fun h => h.2 rfl
  have hparse : ∀ r ∈ twoNodes, r.Parseable clockTimes := by decide
  obtain ⟨hresult, hdeleted⟩ := getActiveNodes_eq hcache hparse
  refine ⟨?_, ?_, ?_⟩
  · rw [hdeleted]
    decide +kernel
  · rw [hresult]
    exact congrArg _ (by decide +kernel)
  · rintro ⟨hlist, -⟩
    rw [hresult] at hlist
    exact absurd (Except.ok.inj hlist) (by decide +kernel)

/-- The list and the deletions for two nodes that were heard of in the last minute. -/
theorem intended_iff_two : fresher.Intended clockTimes 120000000000 twoNodes :=
  (intended_iff (fun h => h.2 rfl) (by decide)).mpr (by decide)

end DynamoDBNodeManager

end Sharder
