/-
# The tuning of the adaptive rate limiter (`pkg/ratelimit/adaptive_limiter.go`)

One instance of the limiter, with `Take` of any number of units, and every quota that `tuneRqs`
asks its backend for.

`quota_of_run`: with a backend that grants only what its limit allows, the quota is between 1
and the limit after each grant, and the local limiter has it as its rate and burst.  The
invariant is that something was counted since the last tuning, so that the quota does not fall
to 0.

The search for a quota should only go down.  It does from a quota above the current one; but
when the quota is tuned down and refused, the search goes on from half of the current quota,
which may be above the one that was refused, and above the limit; and twice a large quota, or its
sum with another, wraps to a negative one.  `backsOff_iff_along` says when it goes down.
-/
import Ears.TuningLoop

open GoLib

namespace AdaptiveLimiter

namespace AdaptiveRateLimiter

/-! ## The search -/

/-- The quotas are between 1 and the limit, and each one is less than the ones before it. -/
structure BacksOff (total : Int64) (quotas : List Int64) : Prop where
  within : ∀ quota ∈ quotas, 1 ≤ quota ∧ quota ≤ total
  decreasing : quotas.Pairwise fun quota next => next < quota

/-- Whatever the backend answers, the quotas that the search asks it for back off. -/
def SearchesDown (total target floor : Int64) : Prop :=
  ∀ replies result rest quotas, search replies target floor = some (result, rest, quotas) →
    BacksOff total quotas

/-- The quotas that the loop asks for, the last of which may still be unanswered. -/
def asked : List Reply → (target floor : Int64) → List Int64
  | .limitReached :: replies, target, floor =>
      target :: if (half target floor).1 = 0 then []
        else asked replies (half target floor).1 (half target floor).2
  | _, target, _ => [target]

variable {replies rest : List Reply} {target floor total : Int64} {quotas quotas' : List Int64}
  {result : Except TakeError Int64}

/-- What the backend has noted when the loop ends. -/
theorem noted_of_retry {calls : ℕ}
    (h : retry answer calls (replies, quotas) target floor = some (result, rest, quotas')) :
    quotas' = quotas ++ asked replies target floor := by
  induction calls generalizing replies quotas target floor with
  | zero => cases h
  | succ calls ih =>
      cases replies with
      | nil =>
          simp only [retry, answer, Option.some.injEq, Prod.mk.injEq] at h
          exact h.2.2.symm
      | cons reply replies =>
          cases reply with
          | ok | failed =>
              simp only [retry, answer, Option.some.injEq, Prod.mk.injEq] at h
              exact h.2.2.symm
          | limitReached =>
              simp only [retry, answer] at h
              unfold asked
              by_cases hnext : (half target floor).1 = 0
              · rw [if_pos hnext] at h ⊢
                simp only [Option.some.injEq, Prod.mk.injEq] at h
                exact h.2.2.symm
              · rw [if_neg hnext] at h ⊢
                rw [ih h, List.append_assoc]
                rfl

/-- The search asks for these quotas. -/
theorem eq_asked_of_search (h : search replies target floor = some (result, rest, quotas)) :
    quotas = asked replies target floor := noted_of_retry h

/-- A refusal and an error are enough to see the second quota. -/
theorem search_refused (hnext : (half target floor).1 ≠ 0) :
    search [.limitReached, .failed] target floor =
      some (.error .backendError, [], [target, (half target floor).1]) := by
  simp [search, retry, answer, hnext]

/-- After a refusal the search is between the new floor and the quota that was refused, when the
sum of the two does not wrap. -/
theorem half_bounds (hfloor : 0 ≤ floor.toInt) (hle : floor.toInt ≤ target.toInt)
    (h1 : 1 ≤ target.toInt)
    (hfits : target.toInt ≤ floor.toInt ∨ target.toInt + floor.toInt < 2 ^ 63) :
    0 ≤ (half target floor).2.toInt ∧
      (half target floor).2.toInt ≤ (half target floor).1.toInt ∧
      (half target floor).1.toInt < target.toInt ∧
      (half target floor).1.toInt + (half target floor).2.toInt < 2 ^ 63 := by
  by_cases hlow : target ≤ floor
  · have hhalf : (floor / 2).toInt = floor.toInt / 2 := by
      rw [toInt_half]
      exact Int.tdiv_eq_ediv_of_nonneg hfloor
    have hlow' := Int64.le_iff_toInt_le.mp hlow
    have hlt := floor.toInt_lt
    rw [half_of_le hlow]
    dsimp only
    rw [hhalf, Int64.toInt_zero]
    omega
  · have hlt := Int64.lt_iff_toInt_lt.mp (Int64.not_le.mp hlow)
    have hsum := hfits.resolve_left (not_le.mpr hlt)
    rw [half_of_lt (Int64.not_le.mp hlow)]
    dsimp only
    rw [half_fits (by omega) hsum]
    omega

/-- A search that goes on below the quota that was refused. -/
theorem BacksOff.cons {next : Int64} (h : BacksOff next quotas) (h1 : 1 ≤ target)
    (htotal : target ≤ total) (hlt : next < target) : BacksOff total (target :: quotas) := by
  rw [Int64.lt_iff_toInt_lt] at hlt
  refine ⟨fun quota hquota => ?_, List.pairwise_cons.mpr ⟨fun quota hquota => ?_, h.decreasing⟩⟩
  · rcases List.mem_cons.mp hquota with rfl | hquota
    · exact ⟨h1, htotal⟩
    · obtain ⟨hq1, hq⟩ := h.within quota hquota
      refine ⟨hq1, ?_⟩
      rw [Int64.le_iff_toInt_le] at hq htotal ⊢
      omega
  · have hq := (h.within quota hquota).2
    rw [Int64.le_iff_toInt_le] at hq
    rw [Int64.lt_iff_toInt_lt]
    omega

theorem BacksOff.singleton (h1 : 1 ≤ target) (htotal : target ≤ total) : BacksOff total [target] :=
  ⟨by simpa using ⟨h1, htotal⟩, List.pairwise_singleton _ _⟩

theorem one_le_iff : 1 ≤ target ↔ 1 ≤ target.toInt := Int64.le_iff_toInt_le

/-- The search goes down from a quota that is not below the floor. -/
theorem asked_of_le (replies : List Reply) (hfloor : 0 ≤ floor.toInt)
    (hle : floor.toInt ≤ target.toInt) (h1 : 1 ≤ target.toInt)
    (hfits : target.toInt ≤ floor.toInt ∨ target.toInt + floor.toInt < 2 ^ 63) :
    BacksOff target (asked replies target floor) := by
  have h1' := one_le_iff.mpr h1
  have hrefl : target ≤ target := Int64.le_iff_toInt_le.mpr le_rfl
  induction replies generalizing target floor with
  | nil => exact .singleton h1' hrefl
  | cons reply replies ih =>
      cases reply with
      | ok | failed => exact .singleton h1' hrefl
      | limitReached =>
          obtain ⟨hfloor', hle', hlt, hsum⟩ := half_bounds hfloor hle h1 hfits
          unfold asked
          by_cases hnext : (half target floor).1 = 0
          · rw [if_pos hnext]
            exact .singleton h1' hrefl
          · rw [if_neg hnext]
            have hne : (half target floor).1.toInt ≠ 0 := fun h => hnext (Int64.toInt_inj.mp h)
            have hone : 1 ≤ (half target floor).1.toInt := by omega
            exact (ih hfloor' hle' hone (.inr hsum) (one_le_iff.mpr hone)
              (Int64.le_iff_toInt_le.mpr le_rfl)).cons h1' hrefl (Int64.lt_iff_toInt_lt.mpr hlt)

theorem BacksOff.mono {total' : Int64} (h : BacksOff total quotas)
    (hle : total.toInt ≤ total'.toInt) : BacksOff total' quotas := by
  refine ⟨fun quota hquota => ?_, h.decreasing⟩
  obtain ⟨h1, hq⟩ := h.within quota hquota
  rw [Int64.le_iff_toInt_le] at hq
  exact ⟨h1, Int64.le_iff_toInt_le.mpr (by omega)⟩

/-- The search goes down exactly when it does from the first quota to the second one: the first
quota is within the limit, half of the floor is less, and half way down to the floor does not
wrap. -/
theorem searchesDown_iff (hfloor : 0 ≤ floor.toInt) :
    SearchesDown total target floor ↔ 1 ≤ target.toInt ∧ target.toInt ≤ total.toInt ∧
      floor.toInt / 2 < target.toInt ∧
        (target.toInt ≤ floor.toInt ∨ target.toInt + floor.toInt < 2 ^ 63) := by
  have hhalf : (floor / 2).toInt = floor.toInt / 2 := by
    rw [toInt_half]
    exact Int.tdiv_eq_ediv_of_nonneg hfloor
  constructor
  · intro h
    obtain ⟨h1, htotal⟩ := (h [.failed] _ _ _ rfl).within target (List.mem_singleton_self _)
    rw [one_le_iff] at h1
    rw [Int64.le_iff_toInt_le] at htotal
    -- the second quota, if there is one, is below the first and not negative
    have hnext : ∀ next, (half target floor).1 = next → next.toInt ≠ 0 →
        1 ≤ next.toInt ∧ next.toInt < target.toInt := by
      rintro next rfl hne
      have hoff := h _ _ _ _ (search_refused fun h0 => hne (by rw [h0]; rfl))
      refine ⟨one_le_iff.mp (hoff.within _ (by simp)).1, ?_⟩
      exact Int64.lt_iff_toInt_lt.mp ((List.pairwise_cons.mp hoff.decreasing).1 _ (by simp))
    refine ⟨h1, htotal, ?_, ?_⟩
    · by_contra hhigh
      have hlow : target ≤ floor := Int64.le_iff_toInt_le.mpr (by omega)
      have hlt := (hnext (floor / 2) (by rw [half_of_le hlow]) (by rw [hhalf]; omega)).2
      rw [hhalf] at hlt
      omega
    · by_contra hwraps
      rw [not_or, not_le, not_lt] at hwraps
      have hneg := half_overflow hwraps.2
      have hlt : floor < target := Int64.lt_iff_toInt_lt.mpr hwraps.1
      have hpos := (hnext ((target + floor) / 2) (by rw [half_of_lt hlt]) (by omega)).1
      omega
  · rintro ⟨h1, htotal, hlow, hfits⟩ replies result rest quotas hsearch
    rw [eq_asked_of_search hsearch]
    have h1' := one_le_iff.mpr h1
    have htotal' : target ≤ total := Int64.le_iff_toInt_le.mpr htotal
    by_cases hle : floor.toInt ≤ target.toInt
    · exact (asked_of_le replies hfloor hle h1 hfits).mono htotal
    · -- tuning down: one step to half of the floor, and down from there
      have hnext : half target floor = (floor / 2, 0) :=
        half_of_le (Int64.le_iff_toInt_le.mpr (by omega))
      have hne : floor / 2 ≠ 0 := by
        intro h0
        rw [h0, Int64.toInt_zero] at hhalf
        omega
      have hfloor2 := floor.toInt_lt
      cases replies with
      | nil => exact .singleton h1' htotal'
      | cons reply replies =>
          cases reply with
          | ok | failed => exact .singleton h1' htotal'
          | limitReached =>
              simp only [asked, hnext, if_neg hne]
              refine (asked_of_le replies le_rfl ?_ ?_ ?_).cons h1' htotal' ?_
              · rw [hhalf, Int64.toInt_zero]
                omega
              · rw [hhalf]
                omega
              · right
                rw [hhalf, Int64.toInt_zero]
                omega
              · rw [Int64.lt_iff_toInt_lt, hhalf]
                exact hlow

/-! ## The first quota -/

section First

variable {L : Type} (r : AdaptiveRateLimiter L)

/-- The states from which the search goes down.  There are a limit and a quota.  After a refusal
the next quota, and half way from it to the current one, do not wrap, and the quota and the limit
are not 2 and 1.  Without one the limiter is used to its quota, or nearly, or so much that the
next quota is above half of the current one or above the limit, and does not wrap either. -/
def Settled : Prop :=
  let current := r.currentRqs.toInt
  let total := r.totalRqs.toInt
  let next := (scaled r.takeCount).toInt
  1 ≤ total ∧ 1 ≤ current ∧
    if r.limitCount > 0 then
      current < 2 ^ 62 ∧ current + min (2 * current) total < 2 ^ 63 ∧ ¬ (current = 2 ∧ total = 1)
    else current ≤ r.takeCount ∨ notMuchDifference (scaled r.takeCount) r.currentRqs ∨
      min (current / 2) total < next ∧ (total < next ∨ next ≤ current ∨ next + current < 2 ^ 63)

instance : Decidable r.Settled := inferInstanceAs (Decidable (_ ∧ _ ∧ _))

variable {r}

theorem toInt_double (a : Int64) (h : 1 ≤ a.toInt) :
    (a * 2).toInt = if a.toInt < 2 ^ 62 then 2 * a.toInt else 2 * a.toInt - 2 ^ 64 := by
  have hlt := a.toInt_lt
  rw [Int64.toInt_mul, show (2 : Int64).toInt = 2 from rfl]
  split
  · rw [Int.bmod_eq_of_le (by omega) (by omega)]
    omega
  · rw [Int.bmod_def]
    omega

/-- The next quota after a refusal: twice the current one, or half way to the limit, unless that
wraps. -/
theorem newRqs_limited (hlimit : r.limitCount > 0) (hcur : 1 ≤ r.currentRqs.toInt)
    (htotal : 1 ≤ r.totalRqs.toInt) :
    (r.currentRqs.toInt < 2 ^ 62 ∧ 2 * r.currentRqs.toInt < r.totalRqs.toInt ∧
      r.newRqs.toInt = 2 * r.currentRqs.toInt) ∨
    (r.currentRqs.toInt < 2 ^ 62 ∧ r.totalRqs.toInt ≤ 2 * r.currentRqs.toInt ∧
      r.currentRqs.toInt + r.totalRqs.toInt < 2 ^ 63 ∧
      r.newRqs.toInt = (r.currentRqs.toInt + r.totalRqs.toInt) / 2) ∨
    (2 ^ 62 ≤ r.currentRqs.toInt ∨ r.totalRqs.toInt ≤ 2 * r.currentRqs.toInt ∧
      2 ^ 63 ≤ r.currentRqs.toInt + r.totalRqs.toInt) ∧ r.newRqs.toInt < 0 := by
  have hdouble := toInt_double r.currentRqs hcur
  have hlt := r.currentRqs.toInt_lt
  unfold newRqs
  rw [if_pos hlimit]
  by_cases hroom : r.currentRqs * 2 < r.totalRqs
  · rw [if_pos hroom]
    rw [Int64.lt_iff_toInt_lt] at hroom
    split at hdouble
    · exact .inl ⟨by omega, by omega, hdouble⟩
    · exact .inr (.inr ⟨.inl (by omega), by omega⟩)
  · rw [if_neg hroom]
    rw [Int64.lt_iff_toInt_lt, not_lt] at hroom
    have hsmall : r.currentRqs.toInt < 2 ^ 62 := by
      split at hdouble <;> omega
    rw [if_pos hsmall] at hdouble
    by_cases hsum : r.currentRqs.toInt + r.totalRqs.toInt < 2 ^ 63
    · exact .inr (.inl ⟨hsmall, by omega, hsum, half_fits (by omega) hsum⟩)
    · exact .inr (.inr ⟨.inr ⟨by omega, not_lt.mp hsum⟩, half_overflow (not_lt.mp hsum)⟩)

/-- The next quota without a refusal. -/
theorem newRqs_unlimited (hlimit : ¬ r.limitCount > 0) :
    ((r.currentRqs.toInt ≤ r.takeCount ∨ notMuchDifference (scaled r.takeCount) r.currentRqs) ∧
      r.newRqs = r.currentRqs) ∨
    (¬ (r.currentRqs.toInt ≤ r.takeCount ∨
      notMuchDifference (scaled r.takeCount) r.currentRqs) ∧ r.newRqs = scaled r.takeCount) := by
  unfold newRqs
  rw [if_neg hlimit]
  by_cases hused : (r.takeCount : ℤ) < r.currentRqs.toInt
  · rw [if_pos hused]
    dsimp only
    cases hnear : notMuchDifference (scaled r.takeCount) r.currentRqs with
    | true => exact .inl ⟨.inr rfl, rfl⟩
    | false => exact .inr ⟨by simp [hused], rfl⟩
  · rw [if_neg hused]
    exact .inl ⟨.inl (not_lt.mp hused), rfl⟩

/-- Above the limit the search starts in the lower half. -/
theorem targetAndFloor_of_gt (h : r.totalRqs.toInt < r.newRqs.toInt) :
    r.targetAndFloor = (if r.totalRqs / 2 = 0 then 1 else r.totalRqs / 2, 0) :=
  if_pos (Int64.lt_iff_toInt_lt.mpr h)

theorem targetAndFloor_of_le (h : r.newRqs.toInt ≤ r.totalRqs.toInt) :
    r.targetAndFloor = (r.newRqs, r.currentRqs) :=
  if_neg (Int64.not_lt.mpr (Int64.le_iff_toInt_le.mpr h))

/-- A quota within the limit is one to search down from exactly in a settled state. -/
theorem settled_iff_of_le (hcur : 1 ≤ r.currentRqs.toInt) (htotal : 1 ≤ r.totalRqs.toInt)
    (hle : r.newRqs.toInt ≤ r.totalRqs.toInt) :
    r.Settled ↔ 1 ≤ r.newRqs.toInt ∧ r.currentRqs.toInt / 2 < r.newRqs.toInt ∧
      (r.newRqs.toInt ≤ r.currentRqs.toInt ∨
        r.newRqs.toInt + r.currentRqs.toInt < 2 ^ 63) := by
  unfold Settled
  dsimp only
  by_cases hlimit : r.limitCount > 0
  · rw [if_pos hlimit]
    have hnew := newRqs_limited hlimit hcur htotal
    omega
  · rw [if_neg hlimit]
    rcases newRqs_unlimited hlimit with ⟨hsame, hnew⟩ | ⟨hdiffers, hnew⟩
    · rw [hnew]
      exact iff_of_true ⟨htotal, hcur, hsame.imp id Or.inl⟩ (by omega)
    · rw [not_or, Bool.not_eq_true] at hdiffers
      rw [hnew] at hle ⊢
      simp only [hdiffers.1, hdiffers.2, Bool.false_eq_true, false_or]
      omega

/-- Every state with a quota above the limit is settled. -/
theorem settled_of_gt (htotal : 1 ≤ r.totalRqs.toInt) (hcur : 1 ≤ r.currentRqs.toInt)
    (hgt : r.totalRqs.toInt < r.newRqs.toInt) : r.Settled := by
  unfold Settled
  dsimp only
  refine ⟨htotal, hcur, ?_⟩
  by_cases hlimit : r.limitCount > 0
  · rw [if_pos hlimit]
    have hnew := newRqs_limited hlimit hcur htotal
    omega
  · rw [if_neg hlimit]
    rcases newRqs_unlimited hlimit with ⟨hsame, -⟩ | ⟨-, hnew⟩
    · exact hsame.imp id Or.inl
    · rw [hnew] at hgt
      exact .inr (.inr ⟨by omega, .inl hgt⟩)

/-- **One search.**  From a state with a quota, whatever the backend answers, the quotas that are
asked for are between 1 and the limit and go down, exactly when the state is settled. -/
theorem searchesDown_iff_settled (hcur : 1 ≤ r.currentRqs.toInt) :
    SearchesDown r.totalRqs r.targetAndFloor.1 r.targetAndFloor.2 ↔ r.Settled := by
  by_cases htotal : 1 ≤ r.totalRqs.toInt
  · rcases lt_or_ge r.totalRqs.toInt r.newRqs.toInt with hgt | hle
    · -- half of the limit is between 1 and the limit
      have hhalf : (r.totalRqs / 2).toInt = r.totalRqs.toInt / 2 := by
        rw [toInt_half]
        exact Int.tdiv_eq_ediv_of_nonneg (by omega)
      have hlt := r.totalRqs.toInt_lt
      rw [targetAndFloor_of_gt hgt, searchesDown_iff le_rfl]
      refine iff_of_true ?_ (settled_of_gt htotal hcur hgt)
      by_cases hzero : r.totalRqs / 2 = 0
      · rw [if_pos hzero]
        dsimp only
        rw [Int64.toInt_zero, show (1 : Int64).toInt = 1 from rfl]
        omega
      · have hne : (r.totalRqs / 2).toInt ≠ 0 := fun h => hzero (Int64.toInt_inj.mp h)
        rw [if_neg hzero]
        dsimp only
        rw [Int64.toInt_zero]
        omega
    · rw [targetAndFloor_of_le hle, searchesDown_iff (show 0 ≤ r.currentRqs.toInt by omega),
        settled_iff_of_le hcur htotal hle]
      exact ⟨fun h => ⟨h.1, h.2.2⟩, fun h => ⟨h.1, hle, h.2⟩⟩
  · refine iff_of_false (fun h => htotal ?_) fun h => htotal h.1
    obtain ⟨h1, hle⟩ := (h [.failed] _ _ _ rfl).within _ (List.mem_singleton_self _)
    rw [one_le_iff] at h1
    rw [Int64.le_iff_toInt_le] at hle
    omega

end First

end AdaptiveRateLimiter

/-! ## Runs -/

/-- One limiter and its clock. -/
structure Clocked (L : Type) where
  clock : ℤ
  limiter : AdaptiveRateLimiter L
  deriving Repr

/-- Time passes, `Take` is called, which asks the backend and gets the answers, or `SetLimit`. -/
inductive Call where
  | tick (d : ℕ)
  | take (unit : ℤ) (replies : List Reply)
  | setLimit (newLimit : Int64)
  deriving DecidableEq, Repr

namespace Clocked

variable {L : Type} (R : Rate L)

/-- A step of the limiter. -/
def step (s : Clocked L) : Call → Option (Clocked L)
  | .tick d => some { s with clock := s.clock + d }
  | .take unit replies =>
      (s.limiter.take R s.clock unit replies).map fun (_, r, _) => { s with limiter := r }
  | .setLimit newLimit => some { s with limiter := s.limiter.setLimit newLimit }

/-- `NewAdaptiveRateLimiter`. -/
def start (clock : ℤ) (initialRqs totalRqs : Int64) : Clocked L :=
  ⟨clock, newAdaptiveRateLimiter clock initialRqs totalRqs⟩

/-- `Take` would tune the limiter. -/
def Due (s : Clocked L) : Prop :=
  s.limiter.totalRqs ≠ 0 ∧ s.limiter.limiter.isSome ∧ s.limiter.lastTune + second ≤ s.clock

/-- The search of a call of `Take` in this state goes down, whatever the backend answers. -/
def TunesDown (s : Clocked L) : Call → Prop
  | .take _ _ => s.Due → AdaptiveRateLimiter.SearchesDown s.limiter.totalRqs
      s.limiter.targetAndFloor.1 s.limiter.targetAndFloor.2
  | _ => True

/-- The limiter is settled whenever it is tuned. -/
def TunesSettled (s : Clocked L) : Call → Prop
  | .take _ _ => s.Due → s.limiter.Settled
  | _ => True

/-- The limiter has a quota whenever it is tuned. -/
def TunesQuota (s : Clocked L) : Call → Prop
  | .take _ _ => s.Due → 1 ≤ s.limiter.currentRqs
  | _ => True

/-- **Backing off.**  In every run of a limiter, from any first quota and limit, the limiter is
settled each time it is tuned exactly when it has a quota each time, and the search asks for quotas
between 1 and the limit that go down, whatever the backend answers. -/
theorem backsOff_iff_along (clock : ℤ) (initialRqs totalRqs : Int64) (calls : List Call) :
    Runs.Along (step R) (fun s a => s.TunesQuota a ∧ s.TunesDown a)
        (start clock initialRqs totalRqs) calls ↔
      Runs.Along (step R) TunesSettled (start clock initialRqs totalRqs) calls := by
  apply Runs.along_congr
  intro s a
  cases a with
  | tick d => exact ⟨fun _ => trivial, fun _ => ⟨trivial, trivial⟩⟩
  | setLimit newLimit => exact ⟨fun _ => trivial, fun _ => ⟨trivial, trivial⟩⟩
  | take unit replies =>
      have hiff : 1 ≤ s.limiter.currentRqs → (AdaptiveRateLimiter.SearchesDown
          s.limiter.totalRqs s.limiter.targetAndFloor.1 s.limiter.targetAndFloor.2 ↔
            s.limiter.Settled) := fun h =>
        AdaptiveRateLimiter.searchesDown_iff_settled (AdaptiveRateLimiter.one_le_iff.mp h)
      constructor
      · rintro ⟨hquota, hdown⟩ hdue
        exact (hiff (hquota hdue)).mp (hdown hdue)
      · intro hsettled
        have hquota : s.TunesQuota (.take unit replies) := fun hdue =>
          AdaptiveRateLimiter.one_le_iff.mpr (hsettled hdue).2.1
        exact ⟨hquota, fun hdue => (hiff (hquota hdue)).mpr (hsettled hdue)⟩

/-- A limiter of quota 100, of which one unit was used in the last second before the limit was
changed to 10: it asks for one unit, and when that is refused, for 50. -/
def idle : List Call := [.take 1 [.ok], .setLimit 10, .tick 1000000000]

theorem idle_asks_fifty :
    ¬ Runs.Along (step Rate.tokens) TunesDown (start 0 100 100) (idle ++ [.take 1 []]) := by
  have hrun : (Runs.run (step Rate.tokens) (start 0 100 100) idle).map
      (fun s => ((AdaptiveRateLimiter.search [.limitReached, .failed] s.limiter.targetAndFloor.1
          s.limiter.targetAndFloor.2).map fun x => x.2.2,
        s.limiter.totalRqs, s.limiter.limiter.isSome, s.limiter.lastTune, s.clock)) =
      some (some [1, 50], 10, true, 0, 1000000000) := by
    decide +kernel
  obtain ⟨s, hs, heq⟩ := Option.map_eq_some_iff.mp hrun
  simp only [Prod.mk.injEq] at heq
  obtain ⟨hasked, htotal, hsome, htune, hclock⟩ := heq
  obtain ⟨⟨result, rest, quotas⟩, hsearch, rfl⟩ := Option.map_eq_some_iff.mp hasked
  intro h
  have hdue : s.Due := by
    refine ⟨by rw [htotal]; decide, hsome, ?_⟩
    rw [htune, hclock]
    decide
  have hwithin := ((h.tail hs).1 hdue _ _ _ _ hsearch).within 50 (by decide)
  rw [htotal] at hwithin
  exact absurd hwithin.2 (by decide)

/-- A unit more than the quota is refused, and the double of the quota wraps. -/
example : (Runs.run (step Rate.tokens) (start 0 5000000000000000000 9000000000000000000)
    [.take 6000000000000000000 [.ok], .tick 1000000000]).map (fun s =>
      (s.limiter.targetAndFloor.1, decide s.limiter.Settled)) =
    some (-8446744073709551616, false) := by decide +kernel

end Clocked

/-! ## The quota between the tunings -/

/-- What is used of the settings of a limiter of `x/time/rate`.  An event takes from the burst only
when the limit is 0. -/
structure Rate.Settings {L : Type} (R : Rate L) : Prop where
  limit_newLimiter : ∀ r b, R.limit (R.newLimiter r b) = r
  burst_newLimiter : ∀ r b, R.burst (R.newLimiter r b) = b
  limit_setLimit : ∀ t r l, R.limit (R.setLimit t r l) = r
  limit_setBurst : ∀ t b l, R.limit (R.setBurst t b l) = R.limit l
  burst_setBurst : ∀ t b l, R.burst (R.setBurst t b l) = b
  limit_allowN : ∀ t n l, R.limit (R.allowN t n l).2 = R.limit l
  burst_allowN : ∀ t n l, R.limit l ≠ 0 → R.burst (R.allowN t n l).2 = R.burst l

theorem Rate.tokens_settings : Rate.tokens.Settings where
  limit_newLimiter _ _ := rfl
  burst_newLimiter _ _ := rfl
  limit_setLimit _ _ _ := rfl
  limit_setBurst _ _ _ := rfl
  burst_setBurst _ _ _ := rfl
  limit_allowN := Rate.tokens_lawful.limit_allowN
  burst_allowN t n l h := by
    have h0 : l.limit ≠ 0 := h
    simp only [Rate.tokens, Tokens.allowN, if_neg h0]
    split <;> rfl

/-- What was taken rounds down to something. -/
theorem scaled_ne_zero {takeCount : ℕ} (h : 1 ≤ takeCount) : scaled takeCount ≠ 0 := by
  have htakes : ((1 : ℤ) : ℚ) ≤ nearest 24 takeCount :=
    intCast_le_nearest (by decide) (by positivity) (by exact_mod_cast h) (by norm_num)
  have hfactor : ((1 : ℤ) : ℚ) ≤ nearest 24 (6 / 5) :=
    intCast_le_nearest (by decide) (by norm_num) (by norm_num) (by norm_num)
  push_cast at htakes hfactor
  have hproduct : (1 : ℚ) ≤ nearest 24 takeCount * nearest 24 (6 / 5) :=
    one_le_mul_of_one_le_of_one_le htakes hfactor
  have hfloor : 1 ≤ ⌊nearest 24 (nearest 24 takeCount * nearest 24 (6 / 5))⌋ := by
    apply Int.le_floor.mpr
    apply intCast_le_nearest (by decide) (by linarith) _ (by norm_num)
    exact_mod_cast hproduct
  unfold scaled truncate
  split <;> rename_i hfits
  · intro hzero
    have htoInt := congrArg Int64.toInt hzero
    rw [Int64.toInt_ofInt_of_le (by omega) (by omega), Int64.toInt_zero] at htoInt
    omega
  · decide

namespace AdaptiveRateLimiter

variable {L : Type} {R : Rate L} {r r' : AdaptiveRateLimiter L} {l : L} {now unit g : ℤ}
  {replies : List Reply}

/-- The local limiter has the quota. -/
structure Tracks (R : Rate L) (r : AdaptiveRateLimiter L) (l : L) : Prop where
  one_le : 1 ≤ r.currentRqs
  limit : R.limit l = r.currentRqs.toInt
  burst : R.burst l = r.currentRqs.toInt

/-- The quota is between 1 and the limit, and it is the rate and the burst of the local limiter. -/
def Quota (R : Rate L) (r : AdaptiveRateLimiter L) : Prop :=
  ∃ l, r.limiter = some l ∧ 1 ≤ r.currentRqs ∧ r.currentRqs ≤ r.totalRqs ∧
    R.limit l = r.currentRqs.toInt ∧ R.burst l = r.currentRqs.toInt

/-- The backend, whose limit is the limit of the limiter, grants only what is between 1 and its
limit, when it is asked for the first quota or for the next one. -/
structure Granted (r : AdaptiveRateLimiter L) (now : ℤ) (replies : List Reply) : Prop where
  first : r.totalRqs ≠ 0 → r.limiter = none → replies.head? = some .ok →
    1 ≤ r.initialRqs ∧ r.initialRqs ≤ r.totalRqs
  next : r.totalRqs ≠ 0 → r.limiter.isSome → r.lastTune + second ≤ now →
    ∀ quota rest, search replies r.targetAndFloor.1 r.targetAndFloor.2 = some (.ok quota, rest) →
      1 ≤ quota ∧ quota ≤ r.totalRqs

/-- A search that ends with a grant of a quota that has the property. -/
instance decidableGrant {σ : Type} (p : Int64 → Prop) [DecidablePred p] :
    (o : Option (Except TakeError Int64 × σ)) →
      Decidable (∀ quota rest, o = some (.ok quota, rest) → p quota)
  | none => isTrue fun _ _ h => nomatch h
  | some (.error _, _) => isTrue fun _ _ h => nomatch h
  | some (.ok quota, _) => decidable_of_iff (p quota) (by simp)

instance (r : AdaptiveRateLimiter L) (now : ℤ) (replies : List Reply) :
    Decidable (r.Granted now replies) :=
  decidable_of_iff (_ ∧ _) ⟨fun h => ⟨h.1, h.2⟩, fun h => ⟨h.first, h.next⟩⟩

/-- The invariant: something was counted since the last tuning. -/
structure Counted (R : Rate L) (r : AdaptiveRateLimiter L) : Prop where
  initialRqs : 1 ≤ r.initialRqs
  totalRqs : r.limiter.isSome → 0 ≤ r.totalRqs
  tracks : ∀ l, r.limiter = some l → Tracks R r l
  counted : r.limiter.isSome → 1 ≤ r.takeCount + r.limitCount

/-- `initLimiter` with a grant. -/
theorem quota_initLimiter (hR : R.Settings) (hgrant : r.Granted now replies)
    (htotal : r.totalRqs ≠ 0) (hnone : r.limiter = none)
    (hs : r.initLimiter R now replies = some (.ok (), r', g)) : Quota R r' := by
  cases replies with
  | nil => cases hs
  | cons reply replies =>
      cases reply with
      | ok =>
          obtain ⟨h1, hle⟩ := hgrant.first htotal hnone rfl
          simp only [initLimiter, Option.some.injEq, Prod.mk.injEq, true_and] at hs
          obtain ⟨rfl, -⟩ := hs
          exact ⟨_, rfl, h1, hle, hR.limit_newLimiter _ _, hR.burst_newLimiter _ _⟩
      | limitReached => simp [initLimiter] at hs
      | failed => simp [initLimiter] at hs

/-- `tuneRqs` with a grant. -/
theorem quota_tuneRqs (hR : R.Settings) (hgrant : r.Granted now replies)
    (htotal : r.totalRqs ≠ 0) (hl : r.limiter = some l) (htracks : Tracks R r l)
    (hdue : r.lastTune + second ≤ now)
    (hs : r.tuneRqs R now l replies = some (.ok (), r', g)) : Quota R r' := by
  unfold tuneRqs at hs
  rw [if_neg (not_lt.mpr hdue)] at hs
  split at hs
  · cases hs
  · simp at hs
  · rename_i newRqs rest hsearch
    obtain ⟨h1, hle⟩ := hgrant.next htotal (by rw [hl]; rfl) hdue _ _ hsearch
    split at hs <;> rename_i hsame
    · -- the local limiter stays as it is
      simp only [Option.some.injEq, Prod.mk.injEq, true_and] at hs
      obtain ⟨rfl, -⟩ := hs
      exact ⟨l, hl, htracks.one_le, hsame ▸ hle, htracks.limit, htracks.burst⟩
    · simp only [Option.some.injEq, Prod.mk.injEq, true_and] at hs
      obtain ⟨rfl, -⟩ := hs
      refine ⟨_, rfl, h1, hle, ?_, hR.burst_setBurst _ _ _⟩
      rw [hR.limit_setBurst, hR.limit_setLimit]

/-- The first quota that is asked for is not 0, also when it wraps. -/
theorem target_ne_zero (h : Counted R r) (hsome : r.limiter.isSome) (htotal : r.totalRqs ≠ 0) :
    r.targetAndFloor.1 ≠ 0 := by
  obtain ⟨l, hl⟩ := Option.isSome_iff_exists.mp hsome
  have hcur := one_le_iff.mp (h.tracks l hl).one_le
  have hpos := Int64.le_iff_toInt_le.mp (h.totalRqs hsome)
  have hne : r.totalRqs.toInt ≠ 0 := fun h0 => htotal (Int64.toInt_inj.mp h0)
  rw [Int64.toInt_zero] at hpos
  have hcounted := h.counted hsome
  have hnew : r.newRqs ≠ 0 := by
    intro hzero
    have hzero' : r.newRqs.toInt = 0 := by rw [hzero]; rfl
    by_cases hlimit : r.limitCount > 0
    · have hcases := newRqs_limited hlimit hcur (by omega)
      omega
    · rcases newRqs_unlimited hlimit with ⟨-, hnew⟩ | ⟨-, hnew⟩
      · rw [hnew] at hzero'
        omega
      · -- nothing was refused, so something was taken
        rw [hnew] at hzero
        exact scaled_ne_zero (by omega) hzero
  rcases lt_or_ge r.totalRqs.toInt r.newRqs.toInt with hgt | hle
  · rw [targetAndFloor_of_gt hgt]
    dsimp only
    split
    · decide
    · assumption
  · rw [targetAndFloor_of_le hle]
    exact hnew

/-- An event is counted, and the settings of the local limiter stay as they are. -/
theorem counted_allow (hR : R.Settings) (hinit : 1 ≤ r.initialRqs) (htotal : 0 ≤ r.totalRqs)
    (hl : r.limiter = some l) (h : Tracks R r l) : Counted R (r.allow R now unit).2 := by
  have hcur := h.one_le
  have hne := one_le_iff.mp hcur
  have hlimit : R.limit (R.allowN now unit l).2 = r.currentRqs.toInt :=
    (hR.limit_allowN now unit l).trans h.limit
  have hburst : R.burst (R.allowN now unit l).2 = r.currentRqs.toInt :=
    (hR.burst_allowN now unit l (by rw [h.limit]; omega)).trans h.burst
  unfold allow
  simp only [hl]
  split
  · refine ⟨hinit, fun _ => htotal, fun l' hl' => ?_, fun _ => by simp only; omega⟩
    obtain rfl := Option.some.inj hl'
    exact ⟨hcur, hlimit, hburst⟩
  · refine ⟨hinit, fun _ => htotal, fun l' hl' => ?_, fun _ => by simp only; omega⟩
    obtain rfl := Option.some.inj hl'
    exact ⟨hcur, hlimit, hburst⟩

theorem Quota.counted_allow (hR : R.Settings) (h : Quota R r) (hinit : 1 ≤ r.initialRqs) :
    Counted R (r.allow R now unit).2 := by
  obtain ⟨l, hl, h1, hle, hlimit, hburst⟩ := h
  have htotal : 0 ≤ r.totalRqs := by
    rw [one_le_iff] at h1
    rw [Int64.le_iff_toInt_le] at hle ⊢
    rw [Int64.toInt_zero]
    omega
  exact AdaptiveRateLimiter.counted_allow hR hinit htotal hl ⟨h1, hlimit, hburst⟩

/-- What a first request leaves of the limiter. -/
theorem initLimiter_cases {result : Except TakeError Unit}
    (hs : r.initLimiter R now replies = some (result, r', g)) :
    (result = .ok () ∧ r'.initialRqs = r.initialRqs) ∨
      (∃ err, result = .error err) ∧ r'.limiter = r.limiter ∧
        r'.initialRqs = if r.initialRqs / 2 = 0 then 1 else r.initialRqs / 2 := by
  cases replies with
  | nil => cases hs
  | cons reply replies =>
      cases reply with
      | ok =>
          simp only [initLimiter, Option.some.injEq, Prod.mk.injEq] at hs
          obtain ⟨rfl, rfl, -⟩ := hs
          exact .inl ⟨rfl, rfl⟩
      | limitReached | failed =>
          simp only [initLimiter, Option.some.injEq, Prod.mk.injEq] at hs
          obtain ⟨rfl, rfl, -⟩ := hs
          exact .inr ⟨⟨_, rfl⟩, rfl, rfl⟩

/-- A tuning leaves the limiter as it was, or got a grant when it was due. -/
theorem tuneRqs_cases {result : Except TakeError Unit}
    (hs : r.tuneRqs R now l replies = some (result, r', g)) :
    r' = r ∨ result = .ok () ∧ r.lastTune + second ≤ now ∧ r'.initialRqs = r.initialRqs := by
  unfold tuneRqs at hs
  split at hs <;> rename_i hdue
  · simp only [Option.some.injEq, Prod.mk.injEq] at hs
    exact .inl hs.2.1.symm
  · split at hs
    · cases hs
    · simp only [Option.some.injEq, Prod.mk.injEq] at hs
      exact .inl hs.2.1.symm
    · split at hs
      · simp only [Option.some.injEq, Prod.mk.injEq] at hs
        obtain ⟨rfl, rfl, -⟩ := hs
        exact .inr ⟨rfl, not_lt.mp hdue, rfl⟩
      · simp only [Option.some.injEq, Prod.mk.injEq] at hs
        obtain ⟨rfl, rfl, -⟩ := hs
        exact .inr ⟨rfl, not_lt.mp hdue, rfl⟩

/-- A `Take`, taken apart: there is no limit, or the first quota or the tuning fails, or the local
limiter decides. -/
theorem take_cases {result : Except TakeError Unit}
    (hs : r.take R now unit replies = some (result, r', g)) :
    (r.totalRqs = 0 ∧ r' = r) ∨ r.totalRqs ≠ 0 ∧ ∃ tuned result' g',
      ((r.limiter = none ∧ r.initLimiter R now replies = some (result', tuned, g')) ∨
        ∃ l, r.limiter = some l ∧ r.tuneRqs R now l replies = some (result', tuned, g')) ∧
      ((∃ err, result' = .error err ∧ r' = tuned) ∨
        result' = .ok () ∧ r' = (tuned.allow R now unit).2) := by
  unfold take at hs
  by_cases h0 : r.totalRqs = 0
  · simp only [if_pos h0, Option.some.injEq, Prod.mk.injEq] at hs
    exact .inl ⟨h0, hs.2.1.symm⟩
  · rw [if_neg h0] at hs
    refine .inr ⟨h0, ?_⟩
    cases hl : r.limiter with
    | none =>
        simp only [hl] at hs
        split at hs
        · cases hs
        · rename_i err tuned g' htuned
          simp only [Option.some.injEq, Prod.mk.injEq] at hs
          exact ⟨tuned, _, g', .inl ⟨rfl, htuned⟩, .inl ⟨err, rfl, hs.2.1.symm⟩⟩
        · rename_i tuned g' htuned
          simp only [Option.some.injEq, Prod.mk.injEq] at hs
          exact ⟨tuned, _, g', .inl ⟨rfl, htuned⟩, .inr ⟨rfl, hs.2.1.symm⟩⟩
    | some l =>
        simp only [hl] at hs
        split at hs
        · cases hs
        · rename_i err tuned g' htuned
          simp only [Option.some.injEq, Prod.mk.injEq] at hs
          exact ⟨tuned, _, g', .inr ⟨l, rfl, htuned⟩, .inl ⟨err, rfl, hs.2.1.symm⟩⟩
        · rename_i tuned g' htuned
          simp only [Option.some.injEq, Prod.mk.injEq] at hs
          exact ⟨tuned, _, g', .inr ⟨l, rfl, htuned⟩, .inr ⟨rfl, hs.2.1.symm⟩⟩

/-- `Take` keeps the invariant. -/
theorem Counted.take (hR : R.Settings) (h : Counted R r) (hgrant : r.Granted now replies)
    {result : Except TakeError Unit} (hs : r.take R now unit replies = some (result, r', g)) :
    Counted R r' := by
  have hinit := h.initialRqs
  rcases take_cases hs with ⟨-, rfl⟩ | ⟨htotal, tuned, result', g', hbackend, hend⟩
  · exact h
  · rcases hbackend with ⟨hnone, hfirst⟩ | ⟨l, hl, htune⟩
    · rcases initLimiter_cases hfirst with ⟨rfl, heq⟩ | ⟨⟨err, rfl⟩, hlimiter, heq⟩
      · obtain ⟨err, herr, -⟩ | ⟨-, rfl⟩ := hend
        · cases herr
        · exact (quota_initLimiter hR hgrant htotal hnone hfirst).counted_allow hR (heq ▸ hinit)
      · -- half of the first quota, and at least 1
        obtain ⟨-, -, rfl⟩ | ⟨herr, -⟩ := hend
        · rw [hnone] at hlimiter
          have hone := one_le_iff.mp hinit
          have hhalf : (r.initialRqs / 2).toInt = r.initialRqs.toInt / 2 := by
            rw [toInt_half]
            exact Int.tdiv_eq_ediv_of_nonneg (by omega)
          refine ⟨?_, by simp [hlimiter], by simp [hlimiter], by simp [hlimiter]⟩
          rw [heq, one_le_iff]
          split <;> rename_i hzero
          · exact le_rfl
          · have hne : (r.initialRqs / 2).toInt ≠ 0 := fun h0 => hzero (Int64.toInt_inj.mp h0)
            omega
        · cases herr
    · have hsome : r.limiter.isSome := by rw [hl]; rfl
      rcases tuneRqs_cases htune with rfl | ⟨rfl, hdue, heq⟩
      · obtain ⟨-, -, rfl⟩ | ⟨-, rfl⟩ := hend
        · exact h
        · exact counted_allow hR hinit (h.totalRqs hsome) hl (h.tracks l hl)
      · obtain ⟨err, herr, -⟩ | ⟨-, rfl⟩ := hend
        · cases herr
        · exact (quota_tuneRqs hR hgrant htotal hl (h.tracks l hl) hdue htune).counted_allow hR
            (heq ▸ hinit)

/-- `SetLimit` keeps the invariant. -/
theorem Counted.setLimit (h : Counted R r) (newLimit : Int64) : Counted R (r.setLimit newLimit) := by
  unfold AdaptiveRateLimiter.setLimit
  split <;> rename_i hneg
  · exact h
  · exact ⟨h.initialRqs, fun _ => Int64.not_lt.mp hneg, fun l hl => ⟨(h.tracks l hl).one_le,
      (h.tracks l hl).limit, (h.tracks l hl).burst⟩, h.counted⟩

end AdaptiveRateLimiter

namespace Clocked

variable {L : Type} {R : Rate L} {s t : Clocked L}

/-- The backend grants only what is between 1 and its limit. -/
def Honest (s : Clocked L) : Call → Prop
  | .take _ replies => s.limiter.Granted s.clock replies
  | _ => True

instance (s : Clocked L) : (a : Call) → Decidable (s.Honest a)
  | .take _ replies => inferInstanceAs (Decidable (s.limiter.Granted s.clock replies))
  | .tick _ => isTrue trivial
  | .setLimit _ => isTrue trivial

theorem counted_step (hR : R.Settings) {a : Call} (h : AdaptiveRateLimiter.Counted R s.limiter)
    (hhonest : s.Honest a) (hs : s.step R a = some t) :
    AdaptiveRateLimiter.Counted R t.limiter := by
  cases a with
  | tick d =>
      obtain rfl := Option.some.inj hs
      exact h
  | take unit replies =>
      obtain ⟨⟨result, r', g⟩, htake, rfl⟩ := Option.map_eq_some_iff.mp hs
      exact h.take hR hhonest htake
  | setLimit newLimit =>
      obtain rfl := Option.some.inj hs
      exact h.setLimit newLimit

/-- **The quota.**  In every run of a limiter with a backend that grants only what its limit allows,
however `Take` and `SetLimit` follow each other: the quota is between 1 and the limit after the
first grant and after each tuning that gets one, the local limiter has it as its rate and burst,
and no tuning starts with a request for nothing. -/
theorem quota_of_run (R : Rate L) (hR : R.Settings) (clock : ℤ) (initialRqs totalRqs : Int64)
    (hinit : 1 ≤ initialRqs) (calls : List Call)
    (hhonest : Runs.Along (step R) Honest (start clock initialRqs totalRqs) calls)
    (hrun : Runs.run (step R) (start clock initialRqs totalRqs) calls = some s)
    (htotal : s.limiter.totalRqs ≠ 0) (replies : List Reply)
    (hgrant : s.limiter.Granted s.clock replies) :
    (s.limiter.limiter = none → ∀ r g,
      s.limiter.initLimiter R s.clock replies = some (.ok (), r, g) →
      AdaptiveRateLimiter.Quota R r) ∧
    ∀ l, s.limiter.limiter = some l → s.limiter.lastTune + second ≤ s.clock →
      s.limiter.targetAndFloor.1 ≠ 0 ∧
      ∀ r g, s.limiter.tuneRqs R s.clock l replies = some (.ok (), r, g) →
        AdaptiveRateLimiter.Quota R r := by
  have h : AdaptiveRateLimiter.Counted R s.limiter := by
    apply Runs.run_induction_along (P := fun s => AdaptiveRateLimiter.Counted R s.limiter)
      (fun s a t h hG hs => counted_step hR h hG hs) _ hhonest hrun
    exact ⟨hinit, fun h => (nomatch h), fun l hl => (nomatch hl), fun h => (nomatch h)⟩
  constructor
  · intro hnone r g hs
    exact AdaptiveRateLimiter.quota_initLimiter hR hgrant htotal hnone hs
  · intro l hl hdue
    have hsome : s.limiter.limiter.isSome := by rw [hl]; rfl
    exact ⟨AdaptiveRateLimiter.target_ne_zero h hsome htotal, fun r g hs =>
      AdaptiveRateLimiter.quota_tuneRqs hR hgrant htotal hl (h.tracks l hl) hdue hs⟩

/-- A first quota of 2, a unit taken, and a higher limit. -/
def raised : List Call := [.take 1 [.ok], .setLimit 8, .tick 1000000000]

/-- Both grants of a run: the first quota of 2, and 1 after a tuning to 1. -/
theorem quota_of_run_raised : ∃ s l r, Runs.run (step Rate.tokens) (start 0 2 4) raised = some s ∧
    s.limiter.tuneRqs Rate.tokens s.clock l [.ok] = some (.ok (), r, 1) ∧
    AdaptiveRateLimiter.Quota Rate.tokens r := by
  have hrun : (Runs.run (step Rate.tokens) (start 0 2 4) raised).isSome := by decide +kernel
  obtain ⟨s, hs⟩ := Option.isSome_iff_exists.mp hrun
  have hstate : (Runs.run (step Rate.tokens) (start 0 2 4) raised).map (fun s =>
      (s.limiter.totalRqs, decide (s.limiter.Granted s.clock [.ok]),
        decide (s.limiter.lastTune + second ≤ s.clock))) = some (8, true, true) := by
    decide +kernel
  have htune : (Runs.run (step Rate.tokens) (start 0 2 4) raised).map (fun s =>
      s.limiter.limiter.map fun l => (s.limiter.tuneRqs Rate.tokens s.clock l [.ok]).map
        fun t => (t.1.isOk, t.2.2)) = some (some (some (true, 1))) := by
    decide +kernel
  rw [hs] at hstate htune
  simp only [Option.map_some, Option.some.injEq, Prod.mk.injEq, decide_eq_true_eq] at hstate
  obtain ⟨htotal, hgrant, hdue⟩ := hstate
  rw [Option.map_some, Option.some.injEq, Option.map_eq_some_iff] at htune
  obtain ⟨l, hl, htune⟩ := htune
  obtain ⟨⟨result, r, g⟩, htune, heq⟩ := Option.map_eq_some_iff.mp htune
  obtain ⟨hok, rfl⟩ := Prod.mk.inj heq
  cases result with
  | error err => cases hok
  | ok u =>
      have hquota := quota_of_run Rate.tokens Rate.tokens_settings 0 2 4 (by decide) raised
        (by decide +kernel) hs (by rw [htotal]; decide) [.ok] hgrant
      exact ⟨s, l, r, hs, htune, (hquota.2 l hl hdue).2 r 1 htune⟩

end Clocked

end AdaptiveLimiter
