/-
# Floating-point numbers

Numbers of the formats `float32` and `float64` are rational numbers, and an operation rounds
its exact result to the nearest number with as many significant bits as the format has, ties to
even.  Rounding does not cross an integer that the format has (`nearest_le_intCast` and
`intCast_le_nearest`).
-/
import Mathlib

namespace GoLib

/-- The nearest number with `p` significant bits, ties to even: a floating-point number, for
numbers in the range of the format. -/
def nearest (p : ℕ) (q : ℚ) : ℚ :=
  let e : ℤ := Int.log 2 q + 1 - p
  let m := q / 2 ^ e
  let r := m - ⌊m⌋
  let n := if r < 1 / 2 ∨ (r = 1 / 2 ∧ ⌊m⌋ % 2 = 0) then ⌊m⌋ else ⌊m⌋ + 1
  n * 2 ^ e

/-- The nearest integer, ties to even. -/
def roundEven (m : ℚ) : ℤ :=
  if m - ⌊m⌋ < 1 / 2 ∨ (m - ⌊m⌋ = 1 / 2 ∧ ⌊m⌋ % 2 = 0) then ⌊m⌋ else ⌊m⌋ + 1

/-- The exponent of the last bit of a number with `p` significant bits. -/
def exponent (p : ℕ) (q : ℚ) : ℤ := Int.log 2 q + 1 - p

theorem nearest_eq (p : ℕ) (q : ℚ) :
    nearest p q = roundEven (q / 2 ^ exponent p q) * 2 ^ exponent p q := rfl

theorem roundEven_le {m : ℚ} {k : ℤ} (h : m ≤ k) : roundEven m ≤ k := by
  have hfloor : ⌊m⌋ ≤ k := Int.floor_le_iff.mpr (by linarith)
  unfold roundEven
  split <;> rename_i hr
  · exact hfloor
  · -- a number that is rounded up is no integer
    rw [not_or, not_lt] at hr
    have hlt : (⌊m⌋ : ℚ) < k := by linarith [hr.1]
    exact Int.add_one_le_iff.mpr (by exact_mod_cast hlt)

theorem le_roundEven {m : ℚ} {k : ℤ} (h : (k : ℚ) ≤ m) : k ≤ roundEven m := by
  have hfloor : k ≤ ⌊m⌋ := Int.le_floor.mpr h
  unfold roundEven
  split <;> omega

variable {p : ℕ} {q : ℚ}

/-- The last bit of a small number is not above the units. -/
theorem exponent_nonpos (hp : 0 < p) (hq : 0 ≤ q) (h : q < 2 ^ p) : exponent p q ≤ 0 := by
  unfold exponent
  rcases hq.eq_or_lt with rfl | hq
  · rw [Int.log_zero_right]
    omega
  · have hlog : Int.log 2 q < p := by
      apply (Int.lt_zpow_iff_log_lt (by norm_num) hq).mp
      exact_mod_cast h
    omega

/-- An integer in units of the last bit. -/
theorem intCast_div_zpow (n : ℤ) {e : ℤ} (he : e ≤ 0) : ∃ k : ℤ, (k : ℚ) = n / 2 ^ e := by
  obtain ⟨j, rfl⟩ : ∃ j : ℕ, e = -j := ⟨(-e).toNat, by omega⟩
  refine ⟨n * 2 ^ j, ?_⟩
  rw [zpow_neg, zpow_natCast, div_inv_eq_mul]
  push_cast
  rfl

/-- Rounding does not go above an integer with at most `p` bits. -/
theorem nearest_le_intCast {n : ℤ} (hp : 0 < p) (hq : 0 ≤ q) (h : q ≤ n) (hn : n < 2 ^ p) :
    nearest p q ≤ n := by
  have hn' : (n : ℚ) < 2 ^ p := by exact_mod_cast hn
  have hpos : (0 : ℚ) < 2 ^ exponent p q := by positivity
  obtain ⟨k, hk⟩ := intCast_div_zpow n (exponent_nonpos hp hq (h.trans_lt hn'))
  have hround : roundEven (q / 2 ^ exponent p q) ≤ k := by
    apply roundEven_le
    rw [hk]
    gcongr
  calc nearest p q = roundEven (q / 2 ^ exponent p q) * 2 ^ exponent p q := nearest_eq p q
    _ ≤ k * 2 ^ exponent p q := by gcongr
    _ = n := by rw [hk, div_mul_cancel₀ _ hpos.ne']

/-- Rounding does not go below an integer with at most `p` bits. -/
theorem intCast_le_nearest {n : ℤ} (hp : 0 < p) (hq : 0 ≤ q) (h : (n : ℚ) ≤ q) (hn : n < 2 ^ p) :
    n ≤ nearest p q := by
  have hpos : (0 : ℚ) < 2 ^ exponent p q := by positivity
  rw [nearest_eq]
  by_cases he : exponent p q ≤ 0
  · obtain ⟨k, hk⟩ := intCast_div_zpow n he
    have hround : k ≤ roundEven (q / 2 ^ exponent p q) := by
      apply le_roundEven
      rw [hk]
      gcongr
    calc (n : ℚ) = k * 2 ^ exponent p q := by rw [hk, div_mul_cancel₀ _ hpos.ne']
      _ ≤ roundEven (q / 2 ^ exponent p q) * 2 ^ exponent p q := by gcongr
  · -- a large number is at least `2 ^ p`, also after rounding
    have hlarge : (2 : ℚ) ^ p ≤ q := by
      by_contra hlt
      exact he (exponent_nonpos hp hq (not_le.mp hlt))
    have hq' : 0 < q := lt_of_lt_of_le (by positivity) hlarge
    have hexp : (p - 1 : ℤ) + exponent p q = Int.log 2 q := by
      unfold exponent
      ring
    have hround : (2 : ℤ) ^ (p - 1) ≤ roundEven (q / 2 ^ exponent p q) := by
      apply le_roundEven
      rw [le_div_iff₀ hpos]
      have hcast : ((2 ^ (p - 1) : ℤ) : ℚ) = 2 ^ (p - 1 : ℤ) := by
        rw [show (p - 1 : ℤ) = ((p - 1 : ℕ) : ℤ) by omega, zpow_natCast]
        push_cast
        rfl
      rw [hcast, ← zpow_add₀ (by norm_num), hexp]
      exact Int.zpow_log_le_self (by norm_num) hq'
    have hle : (n : ℚ) ≤ 2 ^ (p - 1) * 2 ^ exponent p q := by
      have htwo : (2 : ℚ) ≤ 2 ^ exponent p q := by
        calc (2 : ℚ) = 2 ^ (1 : ℤ) := by norm_num
          _ ≤ 2 ^ exponent p q := zpow_le_zpow_right₀ (by norm_num) (by omega)
      calc (n : ℚ) ≤ 2 ^ p := by exact_mod_cast hn.le
        _ = 2 ^ (p - 1) * 2 := by rw [← pow_succ, Nat.sub_add_cancel hp]
        _ ≤ 2 ^ (p - 1) * 2 ^ exponent p q := by gcongr
    refine hle.trans ?_
    have hround' : (2 : ℚ) ^ (p - 1) ≤ roundEven (q / 2 ^ exponent p q) := by exact_mod_cast hround
    gcongr

end GoLib
