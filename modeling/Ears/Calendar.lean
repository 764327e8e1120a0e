/-
# The calendar

Days and dates of the proleptic Gregorian calendar.  Days are counted from the first day of year 1.
Both directions walk over blocks: years, and the months of a year.  The block of a day is found
by cutting off whole cycles (`yearOf`) or by a walk along the list of lengths (`locate`).

`toDay_ofDay` says that a date determines its day, and `lt_iff` that the order of days is the
order of dates.
-/
import Mathlib

namespace Calendar

/-! ## Blocks of given lengths -/

/-- The block that a position lies in, and the position in this block. -/
def locate : List ℕ → ℕ → ℕ × ℕ
  | [], n => (0, n)
  | length :: lengths, n =>
      if n < length then (0, n)
      else ((locate lengths (n - length)).1 + 1, (locate lengths (n - length)).2)

variable {length n m : ℕ} {lengths : List ℕ}

theorem locate_cons_of_lt (h : n < length) : locate (length :: lengths) n = (0, n) := if_pos h

theorem locate_cons_of_le (h : length ≤ n) : locate (length :: lengths) n =
    ((locate lengths (n - length)).1 + 1, (locate lengths (n - length)).2) :=
  if_neg (Nat.not_lt.mpr h)

/-- The position is read back from the lengths of the blocks before it. -/
theorem sum_take_locate (lengths : List ℕ) (n : ℕ) :
    (lengths.take (locate lengths n).1).sum + (locate lengths n).2 = n := by
  induction lengths generalizing n with
  | nil => simp [locate]
  | cons length lengths ih =>
      rcases Nat.lt_or_ge n length with h | h
      · simp [locate_cons_of_lt h]
      · rw [locate_cons_of_le h, List.take_succ_cons, List.sum_cons, Nat.add_assoc, ih]
        omega

/-- A position that is in the blocks is in the one that is found. -/
theorem locate_bounds (h : n < lengths.sum) : (locate lengths n).1 < lengths.length ∧
    (locate lengths n).2 < lengths.getD (locate lengths n).1 0 := by
  induction lengths generalizing n with
  | nil => simp at h
  | cons length lengths ih =>
      rw [List.sum_cons] at h
      rcases Nat.lt_or_ge n length with hlt | hle
      · simp [locate_cons_of_lt hlt, hlt]
      · obtain ⟨hblock, hrest⟩ := ih (show n - length < lengths.sum by omega)
        rw [locate_cons_of_le hle]
        exact ⟨Nat.succ_lt_succ hblock, by rwa [List.getD_cons_succ]⟩

/-- The order of positions: first the blocks, then the positions in the block. -/
theorem locate_lt_iff (lengths : List ℕ) (n m : ℕ) :
    n < m ↔ (locate lengths n).1 < (locate lengths m).1 ∨
      (locate lengths n).1 = (locate lengths m).1 ∧
        (locate lengths n).2 < (locate lengths m).2 := by
  induction lengths generalizing n m with
  | nil => simp [locate]
  | cons length lengths ih =>
      have ih := ih (n - length) (m - length)
      rcases Nat.lt_or_ge n length with hn | hn <;> rcases Nat.lt_or_ge m length with hm | hm
      · simp [locate_cons_of_lt hn, locate_cons_of_lt hm]
      · rw [locate_cons_of_lt hn, locate_cons_of_le hm]
        dsimp only
        omega
      · rw [locate_cons_of_le hn, locate_cons_of_lt hm]
        dsimp only
        omega
      · rw [locate_cons_of_le hn, locate_cons_of_le hm]
        dsimp only
        omega

/-! ## Years -/

def isLeap (year : ℤ) : Bool := year % 4 = 0 ∧ (year % 100 ≠ 0 ∨ year % 400 = 0)

/-- The lengths of the months of a year. -/
def monthLengths (year : ℤ) : List ℕ :=
  [31, if isLeap year then 29 else 28, 31, 30, 31, 30, 31, 31, 30, 31, 30, 31]

/-- The days before the first day of a year. -/
def daysBeforeYear (year : ℤ) : ℤ :=
  365 * (year - 1) + (year - 1) / 4 - (year - 1) / 100 + (year - 1) / 400

theorem daysBeforeYear_succ (year : ℤ) :
    daysBeforeYear (year + 1) = daysBeforeYear year + (monthLengths year).sum := by
  have hsum : ((monthLengths year).sum : ℤ) = if isLeap year then 366 else 365 := by
    rw [monthLengths]
    split <;> rfl
  rw [hsum]
  unfold daysBeforeYear isLeap
  split <;> rename_i h <;> simp only [decide_eq_true_eq] at h <;> omega

theorem daysBeforeYear_strictMono : StrictMono daysBeforeYear := by
  apply strictMono_int_of_lt_succ
  intro year
  have hpos : 0 < (monthLengths year).sum := by simp [monthLengths]
  rw [daysBeforeYear_succ]
  omega

/-- The year of a day: cycles of 400 years, of 100 and of 4 are cut off one after the other.  The
last century of a cycle and the last year of four may have one day more. -/
def yearOf (day : ℤ) : ℤ :=
  let century := min (day % 146097 / 36524) 3
  let rest := day % 146097 - 36524 * century
  let year := min (rest % 1461 / 365) 3
  400 * (day / 146097) + 100 * century + 4 * (rest / 1461) + year + 1

theorem daysBeforeYear_cycles (cycle : ℤ) {century four year : ℤ} (h₁ : 0 ≤ century)
    (h₂ : century ≤ 3) (h₃ : 0 ≤ four) (h₄ : four ≤ 24) (h₅ : 0 ≤ year) (h₆ : year ≤ 3) :
    daysBeforeYear (400 * cycle + 100 * century + 4 * four + year + 1) =
      146097 * cycle + 36524 * century + 1461 * four + 365 * year := by
  unfold daysBeforeYear
  omega

theorem yearOf_bounds (day : ℤ) :
    daysBeforeYear (yearOf day) ≤ day ∧ day < daysBeforeYear (yearOf day + 1) := by
  unfold yearOf
  dsimp only
  generalize hcentury : min (day % 146097 / 36524) 3 = century
  generalize hrest : day % 146097 - 36524 * century = rest
  generalize hyear : min (rest % 1461 / 365) 3 = year
  generalize hcycle : day / 146097 = cycle
  generalize hfour : rest / 1461 = four
  have hcentury' : 0 ≤ century ∧ century ≤ 3 := by omega
  have hrest' : 0 ≤ rest ∧ rest ≤ 36524 ∧ (rest = 36524 → century = 3) := by omega
  have hfour' : 0 ≤ four ∧ four ≤ 24 := by omega
  have hyear' : 0 ≤ year ∧ year ≤ 3 := by omega
  constructor
  · rw [daysBeforeYear_cycles cycle hcentury'.1 hcentury'.2 hfour'.1 hfour'.2 hyear'.1 hyear'.2]
    omega
  -- the next year is the next of the four, or the first of the next four, century or cycle
  · rcases lt_or_eq_of_le hyear'.2 with hlt | rfl
    · rw [add_assoc _ year 1, daysBeforeYear_cycles cycle hcentury'.1 hcentury'.2 hfour'.1 hfour'.2
        (by omega) hlt]
      omega
    · rcases lt_or_eq_of_le hfour'.2 with hlt | rfl
      · rw [show 400 * cycle + 100 * century + 4 * four + 3 + 1 + 1 =
            400 * cycle + 100 * century + 4 * (four + 1) + 0 + 1 by ring,
          daysBeforeYear_cycles cycle hcentury'.1 hcentury'.2 (by omega) hlt le_rfl (by decide)]
        omega
      · rcases lt_or_eq_of_le hcentury'.2 with hlt | rfl
        · rw [show 400 * cycle + 100 * century + 4 * 24 + 3 + 1 + 1 =
              400 * cycle + 100 * (century + 1) + 4 * 0 + 0 + 1 by ring,
            daysBeforeYear_cycles cycle (by omega) hlt le_rfl (by decide) le_rfl (by decide)]
          omega
        · rw [show 400 * cycle + 100 * 3 + 4 * 24 + 3 + 1 + 1 =
              400 * (cycle + 1) + 100 * 0 + 4 * 0 + 0 + 1 by ring,
            daysBeforeYear_cycles (cycle + 1) le_rfl (by decide) le_rfl (by decide) le_rfl
              (by decide)]
          omega

/-- The order of days: first the years, then the days in the year. -/
theorem yearOf_lt_iff (day day' : ℤ) :
    day < day' ↔ yearOf day < yearOf day' ∨ yearOf day = yearOf day' ∧
      day - daysBeforeYear (yearOf day) < day' - daysBeforeYear (yearOf day') := by
  have hbounds := yearOf_bounds day
  have hbounds' := yearOf_bounds day'
  rcases lt_trichotomy (yearOf day) (yearOf day') with hlt | heq | hgt
  · have hle := daysBeforeYear_strictMono.monotone (Int.add_one_le_of_lt hlt)
    omega
  · rw [heq] at hbounds ⊢
    omega
  · have hle := daysBeforeYear_strictMono.monotone (Int.add_one_le_of_lt hgt)
    omega

/-! ## Dates -/

/-- The days of a month. -/
def daysIn (month : ℕ) (year : ℤ) : ℕ := (monthLengths year).getD (month - 1) 0

theorem daysIn_le (month : ℕ) (year : ℤ) : daysIn month year ≤ 31 := by
  have hall : ∀ length ∈ monthLengths year, length ≤ 31 := by
    unfold monthLengths
    split <;> decide
  rw [daysIn]
  rcases Nat.lt_or_ge (month - 1) (monthLengths year).length with h | h
  · rw [List.getD_eq_getElem _ _ h]
    exact hall _ (List.getElem_mem h)
  · rw [List.getD_eq_default _ _ h]
    exact Nat.zero_le 31

/-- Months and days are counted from 1. -/
structure Date where
  year : ℤ
  month : ℕ
  day : ℕ
  month_mem : 1 ≤ month ∧ month ≤ 12
  day_mem : 1 ≤ day ∧ day ≤ daysIn month year
  deriving DecidableEq

/-- The day in its year, from 0. -/
def dayOfYear (day : ℤ) : ℕ := (day - daysBeforeYear (yearOf day)).toNat

theorem dayOfYear_eq (day : ℤ) : (dayOfYear day : ℤ) = day - daysBeforeYear (yearOf day) :=
  Int.toNat_of_nonneg (Int.sub_nonneg_of_le (yearOf_bounds day).1)

theorem dayOfYear_lt (day : ℤ) : dayOfYear day < (monthLengths (yearOf day)).sum := by
  have hnext := (yearOf_bounds day).2
  rw [daysBeforeYear_succ] at hnext
  have heq := dayOfYear_eq day
  omega

/-- The month of a day and the day in it, both from 0. -/
def monthOf (day : ℤ) : ℕ × ℕ := locate (monthLengths (yearOf day)) (dayOfYear day)

/-- The date of a day. -/
def ofDay (day : ℤ) : Date where
  year := yearOf day
  month := (monthOf day).1 + 1
  day := (monthOf day).2 + 1
  month_mem := ⟨Nat.succ_pos _, Nat.succ_le_of_lt (locate_bounds (dayOfYear_lt day)).1⟩
  day_mem := ⟨Nat.succ_pos _, Nat.succ_le_of_lt (locate_bounds (dayOfYear_lt day)).2⟩

/-- The day of a date. -/
def toDay (date : Date) : ℤ :=
  daysBeforeYear date.year + ((monthLengths date.year).take (date.month - 1)).sum + (date.day - 1)

theorem toDay_ofDay (day : ℤ) : toDay (ofDay day) = day := by
  have hsum := sum_take_locate (monthLengths (yearOf day)) (dayOfYear day)
  have heq := dayOfYear_eq day
  simp only [toDay, ofDay, monthOf, Nat.add_sub_cancel]
  omega

/-- The order of days is the order of dates. -/
theorem lt_iff (day day' : ℤ) :
    day < day' ↔ (ofDay day).year < (ofDay day').year ∨
      (ofDay day).year = (ofDay day').year ∧ ((ofDay day).month < (ofDay day').month ∨
        (ofDay day).month = (ofDay day').month ∧ (ofDay day).day < (ofDay day').day) := by
  rw [yearOf_lt_iff, ← dayOfYear_eq, ← dayOfYear_eq, Nat.cast_lt]
  refine or_congr_right (and_congr_right fun hyear => ?_)
  rw [locate_lt_iff (monthLengths (yearOf day)) (dayOfYear day) (dayOfYear day')]
  simp only [ofDay, monthOf, hyear, Nat.add_lt_add_iff_right, Nat.add_right_cancel_iff]

end Calendar
