/-
# Timestamps (`pkg/sharder/dynamo.go`, `pkg/checkpoint/dynamo.go`)

The records of the two tables hold times as texts that should sort as the times do.  `Format` drops
the zeros at the end of the fraction, and `timestamp` puts them back only when nothing of the
fraction is left.  Behind a shorter fraction stands the `Z`, which is greater than all digits.

`sorts_iff` says for which pairs of times the texts sort as the times do; they are always read back.
-/
import Ears.ActiveNodes
import Ears.CheckpointStart
import Ears.GoTime

open Decimals GoTime

namespace Timestamps

/-- The body of both copies. -/
def timestamp (t : ℤ) : String :=
  let ts := format t
  if GoLib.contains ts '.' then ts else String.ofList ts.toList.dropLast ++ ".000000000Z"

end Timestamps

/-- `timestamp` of the node manager; the receiver is not read. -/
def Sharder.DynamoDBNodeManager.timestamp (t : ℤ) : String := Timestamps.timestamp t

/-- `timestamp` of the checkpoint manager; the receiver is not read. -/
def Checkpoint.DynamoCheckpointManager.timestamp (t : ℤ) : String := Timestamps.timestamp t

namespace Timestamps

variable {t u : ℤ} {a b n : ℕ}

/-- The digits of the fraction: all nine of a whole second, else without zeros at the end. -/
def fraction (n : ℕ) : List Char := if n = 0 then digits 9 0 else trimmed 9 n

theorem dot_mem_dateTime_iff (t : ℤ) (rest : List Char) : '.' ∈ dateTime t rest ↔ '.' ∈ rest := by
  have hdot : ∀ width n, '.' ∉ digits width n := by
    intro width n h
    exact absurd (isDigit_of_mem_digits h) (by decide)
  simp [dateTime, hdot]

theorem toList_timestamp (h : FourDigitYear t) :
    (timestamp t).toList = dateTime t ('.' :: (fraction (nanosecond t) ++ ['Z'])) := by
  have hformat := toList_format h
  rw [timestamp, GoLib.contains, fraction]
  by_cases hzero : nanosecond t = 0
  · rw [hzero, formatNano_zero, List.nil_append] at hformat
    have hdot : '.' ∉ (format t).toList := by
      rw [hformat, dot_mem_dateTime_iff]
      decide
    have hdrop : (dateTime t ['Z']).dropLast = dateTime t [] := by
      rw [← List.nil_append ['Z'], dateTime_append, List.dropLast_concat]
    rw [if_neg (by rwa [List.contains_iff_mem]), if_pos hzero, String.toList_append,
      String.toList_ofList, hformat, hdrop, ← dateTime_append]
    rfl
  · rw [formatNano_of_ne_zero (nanosecond_lt t) hzero, List.cons_append] at hformat
    have hdot : '.' ∈ (format t).toList := by
      rw [hformat, dot_mem_dateTime_iff]
      exact List.mem_cons_self
    rw [if_pos (List.contains_iff_mem.mpr hdot), if_neg hzero, hformat]

/-- The fraction is read back, whether its zeros were dropped or not. -/
theorem fracSecond_fraction (h : n < 10 ^ 9) :
    fracSecond ('.' :: (fraction n ++ ['Z'])) = (n, ['Z']) := by
  have hZ : ('Z' : Char).isDigit = false := rfl
  rw [fraction]
  split_ifs with hzero
  · rw [hzero]
    rfl
  · have hlen := (trimmed_prefix_digits 9 n).length_le
    rw [length_digits] at hlen
    rw [fracSecond_cons (fun x hx => isDigit_of_mem_digits ((trimmed_prefix_digits 9 n).mem hx))
      (trimmed_nine_ne_nil h hzero) hlen hZ, ofDigitChars_trimmed h]

/-- Timestamps are read back. -/
theorem parse_timestamp (h : FourDigitYear t) : parse (timestamp t) = some t := by
  rw [← String.ofList_toList (s := timestamp t), toList_timestamp h,
    parse_dateTime h (fracSecond_fraction (nanosecond_lt t)), Int.sub_add_cancel]

/-! ## Sorting -/

/-- Fractions of different lengths sort by the `Z` where the shorter one ends. -/
theorem fraction_lt_iff (ha : a < 10 ^ 9) (hb : b < 10 ^ 9) :
    fraction a ++ ['Z'] < fraction b ++ ['Z'] ↔
      a < b ∧ ¬ (a ≠ 0 ∧ Begins a b) ∨ b < a ∧ b ≠ 0 ∧ Begins b a := by
  have hZ : ∀ c : Char, c.isDigit = true → c < 'Z' := by
    intro c hc
    have hrange : '0' ≤ c ∧ c ≤ '9' := by
      simpa [Char.isDigit, Char.le_def, UInt32.le_iff_toNat_le] using hc
    exact hrange.2.trans_lt (by decide)
  rw [fraction, fraction]
  rcases Nat.eq_zero_or_pos a with rfl | hapos
  · rw [if_pos rfl]
    rcases Nat.eq_zero_or_pos b with rfl | hbpos
    · simp
    · rw [if_neg hbpos.ne']
      exact iff_of_true (digits_zero_append_lt hbpos hb) (Or.inl ⟨hbpos, by simp⟩)
  · rw [if_neg hapos.ne']
    rcases Nat.eq_zero_or_pos b with rfl | hbpos
    · rw [if_pos rfl]
      exact iff_of_false (digits_zero_append_lt hapos ha).asymm (by simp)
    · rw [if_neg hbpos.ne', trimmed_concat_lt_iff hZ ha hb]
      simp [hapos.ne', hbpos.ne']

/-- The timestamp of `t` hides that `u` is later: `t` is no whole second, and `u` differs from it
only in digits that `t` has no place for. -/
def Hides (t u : ℤ) : Prop :=
  ¬ (1000000000 ∣ t) ∧ t < u ∧ ∃ z < 9, (10 ^ z : ℤ) ∣ t ∧ u < t + 10 ^ z

instance : Decidable (Hides t u) :=
  inferInstanceAs (Decidable (¬ _ ∧ _ ∧ ∃ z < 9, (10 ^ z : ℤ) ∣ t ∧ _))

theorem eq_second_add_nanosecond (t : ℤ) : t = 10 ^ 9 * (t / 1000000000) + nanosecond t := by
  unfold nanosecond
  omega

/-- Two times of which one hides the other are in one second. -/
theorem hides_iff (t u : ℤ) : Hides t u ↔ t / 1000000000 = u / 1000000000 ∧
    nanosecond t < nanosecond u ∧ nanosecond t ≠ 0 ∧ Begins (nanosecond t) (nanosecond u) := by
  have ht := eq_second_add_nanosecond t
  have hu := eq_second_add_nanosecond u
  constructor
  · rintro ⟨hwhole, hlt, z, hz, hdvd, hlt'⟩
    have hpow : (10 ^ z : ℤ) ∣ 10 ^ 9 := pow_dvd_pow 10 hz.le
    have hsame : t / 1000000000 = u / 1000000000 :=
      ediv_eq_ediv_of_lt_add hdvd hpow (by decide) hlt.le hlt'
    have hnano : (10 ^ z : ℤ) ∣ nanosecond t := by
      rw [ht] at hdvd
      exact (dvd_add_right (hpow.mul_right _)).mp hdvd
    rw [← hsame] at hu
    refine ⟨hsame, by omega, by omega, z, by exact_mod_cast hnano, by omega, ?_⟩
    zify
    omega
  · rintro ⟨hsame, hlt, hne, z, hdvd, -, hlt'⟩
    have hz : z < 9 := (Nat.pow_lt_pow_iff_right (by decide)).mp
      ((Nat.le_of_dvd (Nat.pos_of_ne_zero hne) hdvd).trans_lt (nanosecond_lt t))
    have hnano := nanosecond_lt t
    rw [← hsame] at hu
    refine ⟨by omega, by omega, z, hz, ?_, ?_⟩
    · rw [ht]
      exact dvd_add ((pow_dvd_pow 10 hz.le).mul_right _) (by exact_mod_cast hdvd)
    · zify at hlt'
      omega

/-- Where the timestamps sort in another order than the times, one hides the other. -/
theorem timestamp_lt_iff (ht : FourDigitYear t) (hu : FourDigitYear u) :
    timestamp t < timestamp u ↔ t < u ∧ ¬ Hides t u ∨ Hides u t := by
  have hlt : t < u ↔ t / 1000000000 < u / 1000000000 ∨
      t / 1000000000 = u / 1000000000 ∧ nanosecond t < nanosecond u := by
    unfold nanosecond
    omega
  rw [String.lt_iff_toList_lt, toList_timestamp ht, toList_timestamp hu, dateTime_lt_iff ht hu,
    List.cons_lt_cons_iff, fraction_lt_iff (nanosecond_lt t) (nanosecond_lt u), hides_iff,
    hides_iff, hlt]
  rcases lt_trichotomy (t / 1000000000) (u / 1000000000) with h | h | h
  · simp [h, h.ne]
  · simp only [h, lt_irrefl, true_and, false_or]
    tauto
  · simp [h.not_gt, h.ne, h.ne']

theorem Hides.lt (h : Hides t u) : t < u := h.2.1

/-- Two times sort as their texts, and the first is read back from its text. -/
def SortsAndParses (timestamp : ℤ → String) (t u : ℤ) : Prop :=
  (timestamp t < timestamp u ↔ t < u) ∧ parse (timestamp t) = some t

theorem sortsAndParses_iff (ht : FourDigitYear t) (hu : FourDigitYear u) :
    SortsAndParses timestamp t u ↔ ¬ Hides t u ∧ ¬ Hides u t := by
  rw [SortsAndParses, timestamp_lt_iff ht hu, parse_timestamp ht]
  constructor
  · rintro ⟨hsort, -⟩
    refine ⟨fun h => ?_, fun h => ?_⟩
    · rcases hsort.mpr h.lt with h' | h'
      · exact h'.2 h
      · exact absurd h'.lt h.lt.asymm
    · exact absurd (hsort.mp (Or.inr h)) h.lt.asymm
  · rintro ⟨h, h'⟩
    exact ⟨by simp [h, h'], rfl⟩

/-- **Timestamps sort as the times do**, in both tables, exactly when neither of two times hides
the other. -/
theorem sorts_iff (ht : FourDigitYear t) (hu : FourDigitYear u) :
    SortsAndParses Sharder.DynamoDBNodeManager.timestamp t u ∧
      SortsAndParses Checkpoint.DynamoCheckpointManager.timestamp t u ↔
        ¬ Hides t u ∧ ¬ Hides u t := by
  rw [← sortsAndParses_iff ht hu]
  exact and_self_iff

/-- A tenth and two tenths of a second after 1970. -/
theorem sorts_iff_sample :
    SortsAndParses Sharder.DynamoDBNodeManager.timestamp 100000000 200000000 ∧
      SortsAndParses Checkpoint.DynamoCheckpointManager.timestamp 100000000 200000000 := by
  have ht : FourDigitYear 100000000 := by decide
  have hu : FourDigitYear 200000000 := by decide
  exact (sorts_iff ht hu).mpr (by decide)

/-- `.1Z` sorts behind `.12Z`. -/
theorem not_sorts :
    ¬ ∀ t u, FourDigitYear t → FourDigitYear u →
      SortsAndParses Sharder.DynamoDBNodeManager.timestamp t u ∧
        SortsAndParses Checkpoint.DynamoCheckpointManager.timestamp t u := by
  intro h
  have hsort := (h 100000000 120000000 (by decide) (by decide)).1.1
  exact absurd (hsort.mpr (by decide)) (by decide)

/-! ## Heartbeats -/

/-- A heartbeat that a node wrote parses. -/
theorem parseable_timestamp (h : FourDigitYear t) {r : Sharder.Record}
    (hr : r.lastUpdated = some ⟨some (Sharder.DynamoDBNodeManager.timestamp t)⟩) :
    r.Parseable parse := by
  rw [Sharder.Record.Parseable, hr]
  rintro a ⟨⟩
  rw [Sharder.stringValue, Option.getD_some, Sharder.DynamoDBNodeManager.timestamp,
    parse_timestamp h, Option.isSome_some]

end Timestamps
