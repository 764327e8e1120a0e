/-
# Token buckets

A bucket holds an allowance of at most `cap`, which grows by `rate` for each unit of time; a
grant of `u` at time `t` is paid from the allowance at `t`.  Whoever hands out grants this way
hands out at most `cap + rate * d` in any interval of length `d`.

`Bounded` is the potential argument: the grants since `a`, together with what is left in the
bucket, are paid by a full bucket at `a` and the growth since then.
-/
import Mathlib

namespace TokenBucket

variable {K : Type*} [Field K] [LinearOrder K]

/-- The units of the grants, given by their time and their units, in an interval. -/
def granted (gs : List (K × K)) (a b : K) : K :=
  ((gs.filter fun g => decide (a ≤ g.1 ∧ g.1 ≤ b)).map Prod.snd).sum

variable {gs : List (K × K)} {cap rate allowance ts a b t u : K}

theorem granted_cons_of_mem (h : a ≤ t ∧ t ≤ b) :
    granted ((t, u) :: gs) a b = u + granted gs a b := by
  rw [granted, List.filter_cons_of_pos (by simpa using h), List.map_cons, List.sum_cons, granted]

theorem granted_cons_of_notMem (h : ¬ (a ≤ t ∧ t ≤ b)) :
    granted ((t, u) :: gs) a b = granted gs a b := by
  rw [granted, List.filter_cons_of_neg (by simpa using h), granted]

/-- Nothing is granted where there are no grants. -/
theorem granted_eq_zero (h : ∀ g ∈ gs, ¬ (a ≤ g.1 ∧ g.1 ≤ b)) : granted gs a b = 0 := by
  have hnil : gs.filter (fun g => decide (a ≤ g.1 ∧ g.1 ≤ b)) = [] := by
    rw [List.filter_eq_nil_iff]
    intro g hg
    simpa using h g hg
  rw [granted, hnil, List.map_nil, List.sum_nil]

/-- The end of an interval does not matter once it is past all grants. -/
theorem granted_congr_end {c : K} (hb : ∀ g ∈ gs, g.1 ≤ b) (hc : ∀ g ∈ gs, g.1 ≤ c) :
    granted gs a b = granted gs a c := by
  unfold granted
  congr 2
  apply List.filter_congr
  intro g hg
  simp [hb g hg, hc g hg]

/-- The allowance at time `t` of a bucket that held `allowance` at time `ts`. -/
def refill (cap rate allowance ts t : K) : K := min cap (allowance + rate * (t - ts))

/-- The grants so far and the bucket that was left at `ts`. -/
structure Bounded (cap rate : K) (gs : List (K × K)) (allowance ts : K) : Prop where
  nonneg : 0 ≤ allowance
  le_cap : allowance ≤ cap
  latest : ∀ g ∈ gs, g.1 ≤ ts
  paid : ∀ a, a ≤ ts → granted gs a ts + allowance ≤ cap + rate * (ts - a)
  windows : ∀ a b, a ≤ b → granted gs a b ≤ cap + rate * (b - a)

variable [IsStrictOrderedRing K]

/-- A bucket that is refilled on the way holds the same at the end. -/
theorem refill_refill (hrate : 0 ≤ rate) {t' : K} (h : t ≤ t') :
    refill cap rate (refill cap rate allowance ts t) t t' = refill cap rate allowance ts t' := by
  have hgrow : 0 ≤ rate * (t' - t) := mul_nonneg hrate (by linarith)
  have hsplit : allowance + rate * (t - ts) + rate * (t' - t) = allowance + rate * (t' - ts) := by
    ring
  have hcap : cap ≤ cap + rate * (t' - t) := by linarith
  unfold refill
  rw [← min_add_add_right, hsplit, ← min_assoc, min_eq_left hcap]

/-- A full bucket stays full. -/
theorem refill_full (hrate : 0 ≤ rate) (h : ts ≤ t) : refill cap rate cap ts t = cap := by
  have hgrow : 0 ≤ rate * (t - ts) := mul_nonneg hrate (by linarith)
  have hcap : cap ≤ cap + rate * (t - ts) := by linarith
  exact min_eq_left hcap

/-- A bucket from which nothing was granted. -/
theorem Bounded.start (hrate : 0 ≤ rate) (h0 : 0 ≤ allowance) (hcap : allowance ≤ cap) :
    Bounded cap rate [] allowance ts where
  nonneg := h0
  le_cap := hcap
  latest := by simp
  paid := by
    intro a ha
    have hgrow : 0 ≤ rate * (ts - a) := mul_nonneg hrate (by linarith)
    rw [granted_eq_zero (by simp)]
    linarith
  windows := by
    intro a b hab
    have hgrow : 0 ≤ rate * (b - a) := mul_nonneg hrate (by linarith)
    rw [granted_eq_zero (by simp)]
    linarith

/-- The bucket pays for a grant. -/
theorem Bounded.take (hrate : 0 ≤ rate) (h : Bounded cap rate gs allowance ts) (ht : ts ≤ t)
    (hu : 0 ≤ u) (hpay : u ≤ refill cap rate allowance ts t) :
    Bounded cap rate ((t, u) :: gs) (refill cap rate allowance ts t - u) t := by
  have hcap : refill cap rate allowance ts t ≤ cap := min_le_left _ _
  have hgrow : refill cap rate allowance ts t ≤ allowance + rate * (t - ts) := min_le_right _ _
  have hlatest : ∀ g ∈ gs, g.1 ≤ t := fun g hg => (h.latest g hg).trans ht
  have hpaid : ∀ a, a ≤ t →
      granted ((t, u) :: gs) a t + (refill cap rate allowance ts t - u) ≤ cap + rate * (t - a) := by
    intro a ha
    rw [granted_cons_of_mem ⟨ha, le_rfl⟩]
    by_cases hats : a ≤ ts
    · -- the grants since `a` were paid before, and the refill pays for the rest
      have hold := h.paid a hats
      rw [granted_congr_end h.latest hlatest] at hold
      have hsplit : rate * (t - a) = rate * (t - ts) + rate * (ts - a) := by ring
      linarith
    · -- nothing was granted since `a`, and the bucket is not above its capacity
      have hnone : granted gs a t = 0 := by
        apply granted_eq_zero
        rintro g hg ⟨hag, -⟩
        exact hats (hag.trans (h.latest g hg))
      have hpos : 0 ≤ rate * (t - a) := mul_nonneg hrate (by linarith)
      linarith
  refine ⟨by linarith, by linarith, ?_, hpaid, ?_⟩
  · intro g hg
    rcases List.mem_cons.mp hg with rfl | hg
    · exact le_rfl
    · exact hlatest g hg
  · intro a b hab
    by_cases hin : a ≤ t ∧ t ≤ b
    · have hp := hpaid a hin.1
      have hend : granted ((t, u) :: gs) a b = granted ((t, u) :: gs) a t := by
        rw [granted_cons_of_mem hin, granted_cons_of_mem ⟨hin.1, le_rfl⟩,
          granted_congr_end (fun g hg => (hlatest g hg).trans hin.2) hlatest]
      have hmono : rate * (t - a) ≤ rate * (b - a) :=
        mul_le_mul_of_nonneg_left (by linarith [hin.2]) hrate
      linarith
    · rw [granted_cons_of_notMem hin]
      exact h.windows a b hab

/-- A grant that is paid for but does not arrive. -/
theorem Bounded.lose (hu : 0 ≤ u) (h : Bounded cap rate ((t, u) :: gs) allowance ts) :
    Bounded cap rate gs allowance ts := by
  have hle : ∀ a b, granted gs a b ≤ granted ((t, u) :: gs) a b := by
    intro a b
    by_cases hin : a ≤ t ∧ t ≤ b
    · rw [granted_cons_of_mem hin]
      linarith
    · rw [granted_cons_of_notMem hin]
  exact ⟨h.nonneg, h.le_cap, fun g hg => h.latest g (List.mem_cons_of_mem _ hg),
    fun a ha => by linarith [h.paid a ha, hle a ts],
    fun a b hab => (hle a b).trans (h.windows a b hab)⟩

end TokenBucket
