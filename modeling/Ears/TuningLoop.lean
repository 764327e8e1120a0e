/-
# The retry loop of `tuneRqs` ends (`pkg/ratelimit/adaptive_limiter.go`)

`tuneRqs` asks the backend for a target, and as long as that is too much for half way down to
a floor; a target that has come down to the floor starts over from the floor, down to zero.  The
target can go up on the way, once, when it is below the floor, so neither of the two numbers
measures the loop alone: `rounds` adds the sizes of the gap between them and of the floor.

The loop runs in the integers of the machine.  Where the sum of target and floor does not fit,
half of it is a negative target, which is below the floor (`half_overflow`).
-/
import Ears.AdaptiveLimiter

namespace AdaptiveLimiter

/-! ## The loop -/

/-- The most calls that the loop makes. -/
def rounds (target floor : Int64) : ℕ :=
  Nat.size (target.toInt - floor.toInt).toNat + Nat.size floor.toInt.toNat + 1

/-! ## One round -/

section Round

variable {target floor : Int64}

theorem half_of_le (h : target ≤ floor) : half target floor = (floor / 2, 0) := by
  unfold half
  rw [if_pos h]
  simp

theorem half_of_lt (h : floor < target) :
    half target floor = ((target + floor) / 2, floor) := by
  unfold half
  rw [if_neg (Int64.not_le.mpr h)]

theorem toInt_half (a : Int64) : (a / 2).toInt = a.toInt.tdiv 2 := by
  rw [Int64.toInt_div_of_ne_right a 2 (by decide)]
  rfl

/-- A sum that fits is halved. -/
theorem half_fits (hpos : 0 ≤ target.toInt + floor.toInt)
    (hsum : target.toInt + floor.toInt < 2 ^ 63) :
    ((target + floor) / 2).toInt = (target.toInt + floor.toInt) / 2 := by
  rw [toInt_half, Int64.toInt_add, Int.bmod_eq_of_le (by omega) (by omega)]
  exact Int.tdiv_eq_ediv_of_nonneg (by omega)

/-- A sum that does not fit leads to a negative target. -/
theorem half_overflow (hsum : 2 ^ 63 ≤ target.toInt + floor.toInt) :
    ((target + floor) / 2).toInt < 0 := by
  have htarget := target.toInt_lt
  have hfloor := floor.toInt_lt
  have hwrap : (target + floor).toInt = target.toInt + floor.toInt - 2 ^ 64 := by
    rw [Int64.toInt_add, Int.bmod_def]
    omega
  have hneg : target.toInt + floor.toInt - 2 ^ 64 = -(2 ^ 64 - (target.toInt + floor.toInt)) := by
    omega
  rw [toInt_half, hwrap, hneg, Int.neg_tdiv, Int.tdiv_eq_ediv_of_nonneg (by omega)]
  omega

theorem size_half_lt {n : ℕ} (h : 0 < n) : Nat.size (n / 2) < Nat.size n := by
  have hpos : 0 < Nat.size n := Nat.size_pos.mpr h
  have hle : Nat.size (n / 2) ≤ Nat.size n - 1 := by
    rw [Nat.size_le]
    have hn : n < 2 ^ (Nat.size n - 1 + 1) := by
      rw [Nat.sub_add_cancel hpos]
      exact Nat.lt_size_self n
    rw [Nat.pow_succ] at hn
    omega
  omega

/-- The floor does not become negative. -/
theorem half_floor (hfloor : 0 ≤ floor.toInt) : 0 ≤ (half target floor).2.toInt := by
  by_cases hle : target ≤ floor
  · rw [half_of_le hle]
    exact le_refl 0
  · rw [half_of_lt (Int64.not_le.mp hle)]
    exact hfloor

/-- A round that is not the last one leaves fewer rounds. -/
theorem rounds_half (hfloor : 0 ≤ floor.toInt) (hne : (half target floor).1 ≠ 0) :
    rounds (half target floor).1 (half target floor).2 < rounds target floor := by
  unfold rounds
  by_cases hle : target ≤ floor
  · -- start over from the floor
    rw [half_of_le hle] at hne ⊢
    have hhalf : (floor / 2).toInt = floor.toInt / 2 := by
      rw [toInt_half]
      exact Int.tdiv_eq_ediv_of_nonneg hfloor
    have hpos : 0 < floor.toInt / 2 := by
      have hne' : (floor / 2).toInt ≠ 0 := fun h => hne (Int64.toInt_inj.mp h)
      omega
    have hnat : ((floor / 2).toInt - (0 : Int64).toInt).toNat = floor.toInt.toNat / 2 := by
      rw [hhalf, Int64.toInt_zero]
      omega
    have hsize := size_half_lt (n := floor.toInt.toNat) (by omega)
    show Nat.size ((floor / 2).toInt - (0 : Int64).toInt).toNat +
      Nat.size (0 : Int64).toInt.toNat + 1 < _
    rw [hnat, Int64.toInt_zero, Int.toNat_zero, Nat.size_zero]
    omega
  · -- half way down to the floor
    have hlt := Int64.not_le.mp hle
    have hlt' := Int64.lt_iff_toInt_lt.mp hlt
    rw [half_of_lt hlt]
    dsimp only
    have hgap : 0 < (target.toInt - floor.toInt).toNat := by omega
    have hsize : Nat.size (((target + floor) / 2).toInt - floor.toInt).toNat <
        Nat.size (target.toInt - floor.toInt).toNat := by
      by_cases hsum : target.toInt + floor.toInt < 2 ^ 63
      · have hnat : (((target + floor) / 2).toInt - floor.toInt).toNat =
            (target.toInt - floor.toInt).toNat / 2 := by
          rw [half_fits (by omega) hsum]
          omega
        rw [hnat]
        exact size_half_lt hgap
      · have hneg := half_overflow (not_lt.mp hsum)
        have hnat : (((target + floor) / 2).toInt - floor.toInt).toNat = 0 := by omega
        rw [hnat, Nat.size_zero]
        exact Nat.size_pos.mpr hgap
    omega

theorem rounds_le (target floor : Int64) (hfloor : 0 ≤ floor.toInt) : rounds target floor ≤ 127 := by
  have hgap : Nat.size (target.toInt - floor.toInt).toNat ≤ 63 := by
    have htarget := target.toInt_lt
    rw [Nat.size_le]
    omega
  have hsize : Nat.size floor.toInt.toNat ≤ 63 := by
    have hlt := floor.toInt_lt
    rw [Nat.size_le]
    omega
  unfold rounds
  omega

end Round

/-! ## The whole loop -/

section Loop

variable {β : Type} {take : β → Int64 → Reply × β} {backend : β} {target floor : Int64}

/-- What the loop does in a round. -/
theorem retry_succ (calls : ℕ) :
    (∃ b, take backend target = (.ok, b) ∧
      retry take (calls + 1) backend target floor = some (.ok target, b)) ∨
    (∃ b, retry take (calls + 1) backend target floor = some (.error .backendError, b)) ∨
    ∃ b, take backend target = (.limitReached, b) ∧ (half target floor).1 ≠ 0 ∧
      retry take (calls + 1) backend target floor =
        retry take calls b (half target floor).1 (half target floor).2 := by
  rw [retry]
  cases htake : take backend target with
  | mk reply b =>
      cases reply with
      | ok => exact Or.inl ⟨b, rfl, rfl⟩
      | failed => exact Or.inr (Or.inl ⟨b, rfl⟩)
      | limitReached =>
          by_cases hzero : (half target floor).1 = 0
          · exact Or.inr (Or.inl ⟨b, if_pos hzero⟩)
          · exact Or.inr (Or.inr ⟨b, rfl, hzero, if_neg hzero⟩)

/-- What the loop may return: a quota that the backend has granted, or a backend error. -/
def Ends (take : β → Int64 → Reply × β) (r : Except TakeError Int64) : Prop :=
  (∃ quota b, r = .ok quota ∧ (take b quota).1 = .ok) ∨ r = .error .backendError

/-- The loop ends within its rounds. -/
theorem retry_rounds (hfloor : 0 ≤ floor.toInt) {calls : ℕ} (hcalls : rounds target floor ≤ calls) :
    ∃ r b, retry take calls backend target floor = some (r, b) ∧ Ends take r := by
  induction calls generalizing backend target floor with
  | zero => exact absurd hcalls (Nat.not_succ_le_zero _)
  | succ calls ih =>
      rcases retry_succ calls with ⟨b, htake, heq⟩ | ⟨b, heq⟩ | ⟨b, -, hne, heq⟩
      · exact ⟨_, b, heq, Or.inl ⟨target, backend, rfl, by rw [htake]⟩⟩
      · exact ⟨_, b, heq, Or.inr rfl⟩
      · have hlt := rounds_half hfloor hne
        rw [heq]
        exact ih (half_floor hfloor) (by omega)

/-- **The tuning loop terminates**, after 127 calls at most, with a quota that the backend has
granted or with a backend error. -/
theorem retry_terminates (take : β → Int64 → Reply × β) (backend : β) (target floor : Int64)
    (hfloor : 0 ≤ floor) :
    ∃ calls ≤ 127, ∃ r b, retry take calls backend target floor = some (r, b) ∧ Ends take r := by
  have hfloor' := Int64.le_iff_toInt_le.mp hfloor
  exact ⟨rounds target floor, rounds_le target floor hfloor', retry_rounds hfloor' le_rfl⟩

/-- A backend that never grants anything, and a target below the floor. -/
theorem retry_terminates_refused :
    ∃ calls ≤ 127, ∃ r b, retry (fun (n : ℕ) _ => (.limitReached, n + 1)) calls 0 3 10 =
      some (r, b) ∧ Ends (fun (n : ℕ) _ => (.limitReached, n + 1)) r :=
  retry_terminates _ 0 3 10 (by decide)

/-- Enough answers end the search of `tuneRqs`. -/
theorem search_returns {replies : List Reply} (hlength : 127 ≤ replies.length)
    (hfloor : 0 ≤ floor.toInt) :
    ∃ r s, AdaptiveRateLimiter.search replies target floor = some (r, s) ∧ Ends answer r :=
  retry_rounds hfloor ((rounds_le target floor hfloor).trans hlength)

end Loop

end AdaptiveLimiter
