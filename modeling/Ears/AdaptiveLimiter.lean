/-
# The adaptive rate limiter (`pkg/ratelimit/adaptive_limiter.go`)

Each instance admits events by a local limiter of `golang.org/x/time/rate`, whose rate and burst
it asks from a backend that all instances share: once at its first event, and again when the
last answer is a second old.  `Take` fails when the backend does not answer with a quota, so
every second in which an instance admits events is paid for by one grant of the backend, and so
is the burst at its start: all instances together admit at most twice what the backend has
granted (`admitted_le_twice_granted`).

The limiter of `x/time/rate` is a parameter, `Rate`, and `Rate.Lawful` says what is used of it.
`Rate.tokens` is such a limiter.
-/
import Ears.Floats
import Ears.Runs

open GoLib

namespace AdaptiveLimiter

/-! ## The limiter of `x/time/rate` -/

/-- The operations of `rate.Limiter`; times are in nanoseconds. -/
structure Rate (L : Type) where
  newLimiter : (limit burst : ℤ) → L
  allowN : (now n : ℤ) → L → Bool × L
  setLimit : (now limit : ℤ) → L → L
  setBurst : (now burst : ℤ) → L → L
  limit : L → ℤ
  burst : L → ℤ

/-- The nanoseconds of a second. -/
def second : ℤ := 1000000000

/-- A limiter has some tokens available at each time, at most its burst, which grow with its rate;
it admits only what is available, and takes that away. -/
structure Rate.Lawful {L : Type} (R : Rate L) (available : L → ℤ → ℚ) : Prop where
  limit_newLimiter : ∀ r b, R.limit (R.newLimiter r b) = r
  burst_newLimiter : ∀ r b, R.burst (R.newLimiter r b) = b
  limit_setLimit : ∀ t r l, R.limit (R.setLimit t r l) = r
  limit_setBurst : ∀ t b l, R.limit (R.setBurst t b l) = R.limit l
  burst_setBurst : ∀ t b l, R.burst (R.setBurst t b l) = b
  limit_allowN : ∀ t n l, R.limit (R.allowN t n l).2 = R.limit l
  burst_allowN : ∀ t n l, 0 ≤ n → R.burst (R.allowN t n l).2 ≤ R.burst l
  nonneg : ∀ l t, 0 ≤ available l t
  capped : ∀ l t, available l t ≤ (max (R.burst l) 0 : ℤ)
  growth : ∀ l t t', t ≤ t' →
    available l t' ≤ available l t + (max (R.limit l) 0 : ℤ) * ((t' - t : ℤ) / second)
  allowed : ∀ t n l, 0 ≤ n → (R.allowN t n l).1 = true →
    available (R.allowN t n l).2 t + n ≤ available l t
  refused : ∀ t n l, (R.allowN t n l).1 = false →
    available (R.allowN t n l).2 t ≤ available l t

/-- A limiter that keeps its tokens at the time of the last event. -/
structure Tokens where
  limit : ℤ
  burst : ℤ
  tokens : ℚ
  last : ℤ
  deriving DecidableEq, Repr

/-- The tokens at a time, not more than the burst. -/
def Tokens.advance (l : Tokens) (t : ℤ) : ℚ :=
  let last := min l.last t
  let delta : ℚ := if l.limit ≤ 0 then 0 else l.limit * ((t - last : ℤ) / second)
  min l.burst (l.tokens + delta)

/-- Whether the units are admitted; without a rate they are taken from the burst. -/
def Tokens.allowN (t n : ℤ) (l : Tokens) : Bool × Tokens :=
  if l.limit = 0 then
    if n ≤ l.burst then (true, { l with burst := l.burst - n }) else (false, l)
  else if n ≤ l.burst ∧ (n : ℚ) ≤ l.advance t then
    (true, { l with tokens := l.advance t - n, last := t })
  else (false, l)

/-- The limiter of `x/time/rate`, in exact arithmetic.  A new one was last used so long ago that
it is full. -/
def Rate.tokens : Rate Tokens where
  newLimiter limit burst := ⟨limit, burst, 0, -9223372036854775807⟩
  allowN := Tokens.allowN
  setLimit t limit l := { l with tokens := l.advance t, last := t, limit := limit }
  setBurst t burst l := { l with tokens := l.advance t, last := t, burst := burst }
  limit := Tokens.limit
  burst := Tokens.burst

/-- What the limiter can admit at a time. -/
def Tokens.available (l : Tokens) (t : ℤ) : ℚ :=
  if l.limit = 0 then (max l.burst 0 : ℤ) else max (l.advance t) 0

/-- The tokens grow with the rate. -/
theorem Tokens.advance_le (l : Tokens) {t t' : ℤ} (h : t ≤ t') :
    l.advance t' ≤ l.advance t + (max l.limit 0 : ℤ) * ((t' - t : ℤ) / second) := by
  unfold advance
  by_cases hlimit : l.limit ≤ 0
  · simp [if_pos hlimit, max_eq_right hlimit]
  · have hpos : (0 : ℚ) ≤ l.limit := by exact_mod_cast (by omega : 0 ≤ l.limit)
    have htime : ((t' - min l.last t' : ℤ) : ℚ) ≤ (t - min l.last t : ℤ) + (t' - t : ℤ) := by
      exact_mod_cast by omega
    have hgrow : (0 : ℚ) ≤ l.limit * ((t' - t : ℤ) / second) := by
      have hdiff : (0 : ℚ) ≤ (t' - t : ℤ) := by exact_mod_cast by omega
      exact mul_nonneg hpos (div_nonneg hdiff (by simp [second]))
    have hdelta : (l.limit : ℚ) * ((t' - min l.last t' : ℤ) / second) ≤
        l.limit * ((t - min l.last t : ℤ) / second) + l.limit * ((t' - t : ℤ) / second) := by
      rw [← mul_add, ← add_div]
      have hsec : (0 : ℚ) ≤ second := by simp [second]
      gcongr
    simp only [if_neg hlimit]
    rw [max_eq_left (by omega : (0 : ℤ) ≤ l.limit), ← min_add_add_right]
    apply min_le_min
    · linarith
    · linarith

/-- The limiter of `x/time/rate` keeps to the law. -/
theorem Rate.tokens_lawful : Rate.tokens.Lawful Tokens.available where
  limit_newLimiter _ _ := rfl
  burst_newLimiter _ _ := rfl
  limit_setLimit _ _ _ := rfl
  limit_setBurst _ _ _ := rfl
  burst_setBurst _ _ _ := rfl
  limit_allowN t n l := by
    simp only [Rate.tokens, Tokens.allowN]
    split <;> split <;> rfl
  burst_allowN t n l hn := by
    simp only [Rate.tokens, Tokens.allowN]
    split <;> split <;> simp only <;> omega
  nonneg l t := by
    unfold Tokens.available
    split
    · exact_mod_cast le_max_right _ _
    · exact le_max_right _ _
  capped l t := by
    unfold Tokens.available
    split
    · exact le_rfl
    · push_cast
      exact max_le_max_right 0 (min_le_left _ _)
  growth l t t' h := by
    have hgrow : (0 : ℚ) ≤ (max l.limit 0 : ℤ) * ((t' - t : ℤ) / second) := by
      have hlimit : (0 : ℚ) ≤ (max l.limit 0 : ℤ) := by exact_mod_cast le_max_right _ _
      have hdiff : (0 : ℚ) ≤ (t' - t : ℤ) := by exact_mod_cast by omega
      exact mul_nonneg hlimit (div_nonneg hdiff (by simp [second]))
    simp only [Rate.tokens, Tokens.available]
    split
    · linarith
    · rw [← max_add_add_right, zero_add]
      exact max_le_max (l.advance_le h) hgrow
  allowed t n l hn hallow := by
    have hn' : (0 : ℚ) ≤ n := by exact_mod_cast hn
    simp only [Rate.tokens, Tokens.allowN] at hallow ⊢
    by_cases hlimit : l.limit = 0
    · -- the burst is used up
      rw [if_pos hlimit] at hallow ⊢
      split at hallow <;> rename_i hle
      · simp only [if_pos hle, Tokens.available, if_pos hlimit]
        exact_mod_cast by omega
      · simp at hallow
    · rw [if_neg hlimit] at hallow ⊢
      split at hallow <;> rename_i hle
      · have hadvance : Tokens.advance { l with tokens := l.advance t - n, last := t } t ≤
            l.advance t - n := by
          refine (min_le_right _ _).trans ?_
          simp
        simp only [if_pos hle, Tokens.available, if_neg hlimit]
        rw [max_eq_left (hn'.trans hle.2), ← le_sub_iff_add_le]
        exact max_le hadvance (by linarith [hle.2])
      · simp at hallow
  refused t n l hallow := by
    simp only [Rate.tokens, Tokens.allowN] at hallow ⊢
    split at hallow <;> rename_i hlimit
    · split at hallow <;> rename_i hle
      · simp at hallow
      · rw [if_pos hlimit, if_neg hle]
    · split at hallow <;> rename_i hle
      · simp at hallow
      · rw [if_neg hlimit, if_neg hle]

/-! ## Tuning -/

/-- The answers of the backend to a `Take`. -/
inductive Reply where
  | ok
  | limitReached
  | failed
  deriving DecidableEq, Repr

/-- Why a `Take` fails. -/
inductive TakeError where
  | limitReached
  | backendError
  deriving DecidableEq, Repr

/-- An instance of the limiter.  The two counts are of calls within about a second, so they do not
reach the end of the integers of the machine. -/
structure AdaptiveRateLimiter (L : Type) where
  initialRqs : Int64
  totalRqs : Int64
  currentRqs : Int64
  limiter : Option L
  lastTune : ℤ
  takeCount : ℕ
  limitCount : ℕ
  deriving Repr

/-- `int(x)` for a number of single precision that is not negative; one that is too large becomes
the least integer, as on amd64. -/
def truncate (x : ℚ) : Int64 := if ⌊x⌋ < 2 ^ 63 then Int64.ofInt ⌊x⌋ else Int64.minValue

/-- `int(takeCount * 1.2)` in single precision. -/
def scaled (takeCount : ℕ) : Int64 :=
  truncate (nearest 24 (nearest 24 takeCount * nearest 24 (6 / 5)))

/-- `diffPercentage < 0.05`; the quotient is infinite or not a number when `newRqs` is 0. -/
def notMuchDifference (newRqs currentRqs : Int64) : Bool :=
  decide (newRqs ≠ 0 ∧ nearest 53 (nearest 53 |(newRqs - currentRqs).toInt| /
    nearest 53 newRqs.toInt) < nearest 53 (1 / 20))

/-- The end of a round that the backend refused: the next target and floor. -/
def half (target floor : Int64) : Int64 × Int64 :=
  let (target, floor) := if target ≤ floor then (floor, 0) else (target, floor)
  ((target + floor) / 2, floor)

/-- Ask the backend until it grants a quota, with a backend that may remember what it was asked.
`none` when the loop does not end within the given number of calls. -/
def retry {β : Type} (take : β → Int64 → Reply × β) :
    ℕ → β → (target floor : Int64) → Option (Except TakeError Int64 × β)
  | 0, _, _, _ => none
  | calls + 1, backend, target, floor =>
      match take backend target with
      | (.ok, backend) => some (.ok target, backend)
      | (.failed, backend) => some (.error .backendError, backend)
      | (.limitReached, backend) =>
          if (half target floor).1 = 0 then some (.error .backendError, backend)
          else retry take calls backend (half target floor).1 (half target floor).2

/-- A backend that gives its answers in order, and notes the quotas that it is asked for. -/
def answer : List Reply × List Int64 → Int64 → Reply × List Reply × List Int64
  | ([], asked), quota => (.failed, [], asked ++ [quota])
  | (reply :: replies, asked), quota => (reply, replies, asked ++ [quota])

namespace AdaptiveRateLimiter

variable {L : Type} (R : Rate L) (r : AdaptiveRateLimiter L)

/-- The quota that the history of the last second suggests. -/
def newRqs : Int64 :=
  if r.limitCount > 0 then
    if r.currentRqs * 2 < r.totalRqs then r.currentRqs * 2
    else (r.currentRqs + r.totalRqs) / 2
  else if (r.takeCount : ℤ) < r.currentRqs.toInt then
    let newRqs := scaled r.takeCount
    if notMuchDifference newRqs r.currentRqs then r.currentRqs else newRqs
  else r.currentRqs

/-- The first quota to ask for, and the quota below which there is no need to search. -/
def targetAndFloor : Int64 × Int64 :=
  if r.newRqs > r.totalRqs then
    let target := r.totalRqs / 2
    (if target = 0 then 1 else target, 0)
  else (r.newRqs, r.currentRqs)

/-- The search for a quota, with the answers that are left and the quotas that were asked for.
`none` when the answers end before the search. -/
def search (replies : List Reply) (target floor : Int64) :
    Option (Except TakeError Int64 × List Reply × List Int64) :=
  retry answer replies.length (replies, []) target floor

/-- An instance after a part of a `Take`, with the units that the backend has granted. -/
abbrev Tuned (L : Type) := AdaptiveRateLimiter L × ℤ

/-- `initLimiter`. -/
def initLimiter (now : ℤ) : List Reply → Option (Except TakeError Unit × Tuned L)
  | [] => none
  | .ok :: _ =>
      some (.ok (), { r with
        limiter := some (R.newLimiter r.initialRqs.toInt r.initialRqs.toInt)
        currentRqs := r.initialRqs
        lastTune := now }, r.initialRqs.toInt)
  | _ =>
      let initialRqs := r.initialRqs / 2
      some (.error .backendError,
        { r with initialRqs := if initialRqs = 0 then 1 else initialRqs }, 0)

/-- `tuneRqs`. -/
def tuneRqs (now : ℤ) (l : L) (replies : List Reply) : Option (Except TakeError Unit × Tuned L) :=
  if r.lastTune + second > now then some (.ok (), r, 0)
  else
    match search replies r.targetAndFloor.1 r.targetAndFloor.2 with
    | none => none
    | some (.error err, _) => some (.error err, r, 0)
    | some (.ok newRqs, _) =>
        let tuned := { r with lastTune := now, takeCount := 0, limitCount := 0 }
        if newRqs = r.currentRqs then some (.ok (), tuned, newRqs.toInt)
        else
          some (.ok (), { tuned with
            limiter := some (R.setBurst now newRqs.toInt (R.setLimit now newRqs.toInt l))
            currentRqs := newRqs }, newRqs.toInt)

/-- The end of `Take`: whether the local limiter admits the units. -/
def allow (now unit : ℤ) : Except TakeError Unit × AdaptiveRateLimiter L :=
  match r.limiter with
  | none => (.error .limitReached, r)
  | some l =>
      let (allowed, l) := R.allowN now unit l
      if allowed then (.ok (), { r with limiter := some l, takeCount := r.takeCount + 1 })
      else
        (.error .limitReached, { r with limiter := some l, limitCount := r.limitCount + 1 })

/-- `Take` at one instant, with the answers of the backend.  `none` when there are too few. -/
def take (now unit : ℤ) (replies : List Reply) : Option (Except TakeError Unit × Tuned L) :=
  if r.totalRqs = 0 then some (.error .limitReached, r, 0)
  else
    let tuned := match r.limiter with
      | none => r.initLimiter R now replies
      | some l => r.tuneRqs R now l replies
    match tuned with
    | none => none
    | some (.error err, r, granted) => some (.error err, r, granted)
    | some (.ok (), r, granted) =>
        let (result, r) := r.allow R now unit
        some (result, r, granted)

/-- `SetLimit`; what it does to the backend is part of the answers of the backend. -/
def setLimit (newLimit : Int64) : AdaptiveRateLimiter L :=
  if newLimit < 0 then r else { r with totalRqs := newLimit }

end AdaptiveRateLimiter

/-! ## Instances on one backend -/

/-- An instance, with the units that it has been granted and that it has admitted. -/
structure Instance (L : Type) where
  limiter : AdaptiveRateLimiter L
  granted : ℤ
  admitted : ℤ
  deriving Repr

/-- The instances on one backend. -/
structure Instances (L : Type) where
  clock : ℤ
  instances : List (Instance L)
  deriving Repr

/-- Time passes, an instance is made, `Take(1)` is called on one, which asks the backend and gets
the answers, or `SetLimit`. -/
inductive Action where
  | tick (d : ℕ)
  | new (initialRqs totalRqs : Int64)
  | take (i : ℕ) (replies : List Reply)
  | setLimit (i : ℕ) (newLimit : Int64)
  deriving DecidableEq, Repr

/-- `NewAdaptiveRateLimiter`. -/
def newAdaptiveRateLimiter {L : Type} (now : ℤ) (initialRqs totalRqs : Int64) :
    AdaptiveRateLimiter L where
  initialRqs := initialRqs
  totalRqs := totalRqs
  currentRqs := -1
  limiter := none
  lastTune := now
  takeCount := 0
  limitCount := 0

/-- One event comes to an instance.  A backend that is asked for less than nothing grants
nothing. -/
def Instance.take {L : Type} (R : Rate L) (k : Instance L) (now : ℤ) (replies : List Reply) :
    Option (Instance L) :=
  (k.limiter.take R now 1 replies).map fun (result, r, granted) =>
    { limiter := r
      granted := k.granted + max granted 0
      admitted := match result with
        | .ok () => k.admitted + 1
        | .error _ => k.admitted }

namespace Instances

variable {L : Type} (R : Rate L)

/-- A step of the instances. -/
def step (s : Instances L) : Action → Option (Instances L)
  | .tick d => some { s with clock := s.clock + d }
  | .new initialRqs totalRqs =>
      some { s with
        instances := s.instances ++ [⟨newAdaptiveRateLimiter s.clock initialRqs totalRqs, 0, 0⟩] }
  | .take i replies =>
      match s.instances[i]? with
      | none => none
      | some k => (k.take R s.clock replies).map fun k' =>
          { s with instances := s.instances.set i k' }
  | .setLimit i newLimit =>
      match s.instances[i]? with
      | none => none
      | some k => some { s with
          instances := s.instances.set i { k with limiter := k.limiter.setLimit newLimit } }

/-- No instances yet. -/
def start (clock : ℤ) : Instances L := ⟨clock, []⟩

/-- The units admitted by all instances. -/
def admitted (s : Instances L) : ℤ := (s.instances.map Instance.admitted).sum

/-- The units that the backend has granted to all instances. -/
def granted (s : Instances L) : ℤ := (s.instances.map Instance.granted).sum

end Instances

/-! ## What the grants have paid for -/

section Accounting

variable {L : Type} {R : Rate L} {available : L → ℤ → ℚ} {r r' : AdaptiveRateLimiter L}
  {now granted admitted g : ℤ} {replies : List Reply} {result : Except TakeError Unit}

/-- The grants pay for what was admitted, for what is available, and for the growth up to the next
tuning. -/
def Funded (R : Rate L) (available : L → ℤ → ℚ) (r : AdaptiveRateLimiter L) (l : L)
    (granted admitted now : ℤ) : Prop :=
  R.limit l = r.currentRqs.toInt ∧ R.burst l ≤ r.currentRqs.toInt ∧
    (now ≤ r.lastTune + second → (admitted : ℚ) + available l now +
      (max r.currentRqs.toInt 0 : ℤ) * ((r.lastTune + second - now : ℤ) / second) ≤ 2 * granted)

/-- The account of an instance: its grants pay for what it has admitted, and for what it will
admit before it asks again. -/
structure Account (R : Rate L) (available : L → ℤ → ℚ) (r : AdaptiveRateLimiter L)
    (granted admitted now : ℤ) : Prop where
  covered : admitted ≤ 2 * granted
  funded : ∀ l, r.limiter = some l → Funded R available r l granted admitted now

/-- What is funded until the next tuning is covered. -/
theorem Funded.covered (hR : R.Lawful available) {l : L}
    (h : Funded R available r l granted admitted now) (hnow : now ≤ r.lastTune + second) :
    admitted ≤ 2 * granted := by
  have hsum := h.2.2 hnow
  have havail := hR.nonneg l now
  have hcur : (0 : ℚ) ≤ (max r.currentRqs.toInt 0 : ℤ) := by exact_mod_cast le_max_right _ _
  have hleft : (0 : ℚ) ≤ (r.lastTune + second - now : ℤ) := by exact_mod_cast by omega
  have hgrow : (0 : ℚ) ≤
      (max r.currentRqs.toInt 0 : ℤ) * ((r.lastTune + second - now : ℤ) / second) :=
    mul_nonneg hcur (div_nonneg hleft (by simp [second]))
  have hle : (admitted : ℚ) ≤ 2 * granted := by linarith
  exact_mod_cast hle

/-- A grant of `rqs` pays for the burst and for the second that starts now. -/
theorem funded_of_grant (hR : R.Lawful available) {l : L} {rqs : ℤ}
    (hcov : admitted ≤ 2 * granted) (hlimit : R.limit l = rqs) (hburst : R.burst l ≤ rqs)
    (hcur : r.currentRqs.toInt = rqs) (htune : r.lastTune = now) :
    Funded R available r l (granted + max rqs 0) admitted now := by
  refine ⟨hlimit.trans hcur.symm, hburst.trans hcur.ge, fun _ => ?_⟩
  have hcap : available l now ≤ (max rqs 0 : ℤ) :=
    (hR.capped l now).trans (by exact_mod_cast max_le_max_right 0 hburst)
  have hsecond : ((r.lastTune + second - now : ℤ) : ℚ) / second = 1 := by
    rw [htune, show now + second - now = second by ring]
    exact div_self (by simp [second])
  have hcov' : (admitted : ℚ) ≤ 2 * granted := by exact_mod_cast hcov
  rw [hsecond, hcur]
  push_cast at hcap ⊢
  linarith

/-- Time passes: what becomes available was funded. -/
theorem Account.tick (hR : R.Lawful available) {now' : ℤ}
    (h : Account R available r granted admitted now) (hle : now ≤ now') :
    Account R available r granted admitted now' := by
  refine ⟨h.covered, fun l hl => ?_⟩
  obtain ⟨hlimit, hburst, hsum⟩ := h.funded l hl
  refine ⟨hlimit, hburst, fun hnow' => ?_⟩
  have hold := hsum (by omega)
  have hgrow := hR.growth l now now' hle
  rw [hlimit] at hgrow
  have hsplit : ((r.lastTune + second - now : ℤ) : ℚ) / second =
      (r.lastTune + second - now' : ℤ) / second + (now' - now : ℤ) / second := by
    push_cast
    ring
  rw [hsplit, mul_add] at hold
  linarith

/-- An instance that has just got its first quota is funded. -/
theorem Account.initLimiter (hR : R.Lawful available)
    (h : Account R available r granted admitted now)
    (hs : r.initLimiter R now replies = some (.ok (), r', g)) :
    ∃ l, r'.limiter = some l ∧ now ≤ r'.lastTune + second ∧
      Funded R available r' l (granted + max g 0) admitted now := by
  cases replies with
  | nil => cases hs
  | cons reply replies =>
      cases reply with
      | ok =>
          simp only [AdaptiveRateLimiter.initLimiter, Option.some.injEq, Prod.mk.injEq,
            true_and] at hs
          obtain ⟨rfl, rfl⟩ := hs
          exact ⟨_, rfl, by simp [second],
            funded_of_grant hR h.covered (hR.limit_newLimiter _ _) (hR.burst_newLimiter _ _).le
              rfl rfl⟩
      | limitReached => simp [AdaptiveRateLimiter.initLimiter] at hs
      | failed => simp [AdaptiveRateLimiter.initLimiter] at hs

/-- An instance whose tuning is not due yet, or has just succeeded, is funded. -/
theorem Account.tuneRqs (hR : R.Lawful available)
    (h : Account R available r granted admitted now) {l : L} (hl : r.limiter = some l)
    (hs : r.tuneRqs R now l replies = some (.ok (), r', g)) :
    ∃ l, r'.limiter = some l ∧ now ≤ r'.lastTune + second ∧
      Funded R available r' l (granted + max g 0) admitted now := by
  obtain ⟨hlimit, hburst, hsum⟩ := h.funded l hl
  unfold AdaptiveRateLimiter.tuneRqs at hs
  split at hs <;> rename_i hdue
  · simp only [Option.some.injEq, Prod.mk.injEq, true_and] at hs
    obtain ⟨rfl, rfl⟩ := hs
    refine ⟨l, hl, by omega, ?_⟩
    rw [max_self, add_zero]
    exact ⟨hlimit, hburst, hsum⟩
  · split at hs
    · cases hs
    · simp at hs
    · rename_i newRqs hsearch
      split at hs <;> rename_i hsame
      · -- the local limiter stays as it is
        simp only [Option.some.injEq, Prod.mk.injEq, true_and] at hs
        obtain ⟨rfl, rfl⟩ := hs
        rw [hsame]
        exact ⟨l, hl, by simp [second], funded_of_grant hR h.covered hlimit hburst rfl rfl⟩
      · simp only [Option.some.injEq, Prod.mk.injEq, true_and] at hs
        obtain ⟨rfl, rfl⟩ := hs
        refine ⟨_, rfl, by simp [second], funded_of_grant hR h.covered ?_ ?_ rfl rfl⟩
        · rw [hR.limit_setBurst, hR.limit_setLimit]
        · rw [hR.burst_setBurst]

/-- Only what an account looks at. -/
theorem Account.congr (h : Account R available r granted admitted now)
    (hl : r'.limiter = r.limiter) (hcur : r'.currentRqs = r.currentRqs)
    (htune : r'.lastTune = r.lastTune) : Account R available r' granted admitted now := by
  refine ⟨h.covered, fun l hl' => ?_⟩
  have hf := h.funded l (hl ▸ hl')
  unfold Funded at hf ⊢
  rwa [hcur, htune]

/-- A first quota that is not granted changes nothing in the account. -/
theorem Account.initLimiter_error (h : Account R available r granted admitted now)
    {err : TakeError} (hs : r.initLimiter R now replies = some (.error err, r', g)) :
    Account R available r' (granted + max g 0) admitted now := by
  cases replies with
  | nil => cases hs
  | cons reply replies =>
      cases reply with
      | ok => simp [AdaptiveRateLimiter.initLimiter] at hs
      | limitReached | failed =>
          simp only [AdaptiveRateLimiter.initLimiter, Option.some.injEq, Prod.mk.injEq] at hs
          obtain ⟨-, rfl, rfl⟩ := hs
          rw [max_self, add_zero]
          exact h.congr rfl rfl rfl

/-- A tuning that fails changes nothing. -/
theorem Account.tuneRqs_error (h : Account R available r granted admitted now) {l : L}
    {err : TakeError} (hs : r.tuneRqs R now l replies = some (.error err, r', g)) :
    Account R available r' (granted + max g 0) admitted now := by
  unfold AdaptiveRateLimiter.tuneRqs at hs
  split at hs
  · simp at hs
  · split at hs
    · cases hs
    · simp only [Option.some.injEq, Prod.mk.injEq] at hs
      obtain ⟨-, rfl, rfl⟩ := hs
      rw [max_self, add_zero]
      exact h
    · split at hs <;> simp at hs

/-- What the local limiter admits is paid from what is available. -/
theorem Funded.allow (hR : R.Lawful available) {l : L} (hl : r.limiter = some l)
    (hnow : now ≤ r.lastTune + second) (h : Funded R available r l granted admitted now) :
    Account R available (r.allow R now 1).2 granted
      (match (r.allow R now 1).1 with
        | .ok () => admitted + 1
        | .error _ => admitted) now := by
  obtain ⟨hlimit, hburst, hsum⟩ := h
  have hlimit' := (hR.limit_allowN now 1 l).trans hlimit
  have hburst' := (hR.burst_allowN now 1 l (by decide)).trans hburst
  cases hallow : (R.allowN now 1 l).1 with
  | true =>
      -- one unit more is admitted, and one less is available
      have hpay := hR.allowed now 1 l (by decide) hallow
      have hfund : Funded R available r (R.allowN now 1 l).2 granted (admitted + 1) now := by
        refine ⟨hlimit', hburst', fun hnow => ?_⟩
        have hold := hsum hnow
        push_cast at hpay ⊢
        push_cast at hold
        linarith
      simp only [AdaptiveRateLimiter.allow, hl, hallow, if_true]
      refine ⟨hfund.covered hR hnow, fun l' hl' => ?_⟩
      obtain rfl := Option.some.inj hl'
      exact hfund
  | false =>
      have hpay := hR.refused now 1 l hallow
      have hfund : Funded R available r (R.allowN now 1 l).2 granted admitted now :=
        ⟨hlimit', hburst', fun hnow => by linarith [hsum hnow]⟩
      simp only [AdaptiveRateLimiter.allow, hl, hallow, Bool.false_eq_true, if_false]
      refine ⟨hfund.covered hR hnow, fun l' hl' => ?_⟩
      obtain rfl := Option.some.inj hl'
      exact hfund

/-- `Take` keeps the account. -/
theorem Account.take (hR : R.Lawful available) {k k' : Instance L}
    (h : Account R available k.limiter k.granted k.admitted now)
    (hs : k.take R now replies = some k') :
    Account R available k'.limiter k'.granted k'.admitted now := by
  obtain ⟨⟨result, r', g⟩, htake, rfl⟩ := Option.map_eq_some_iff.mp hs
  unfold AdaptiveRateLimiter.take at htake
  split at htake
  · simp only [Option.some.injEq, Prod.mk.injEq] at htake
    obtain ⟨rfl, rfl, rfl⟩ := htake
    simpa using h
  · -- the tuning, or the first quota, and then the local limiter
    cases hl : k.limiter.limiter with
    | none =>
        simp only [hl] at htake
        split at htake
        · cases htake
        · rename_i err r₁ g₁ htuned
          simp only [Option.some.injEq, Prod.mk.injEq] at htake
          obtain ⟨rfl, rfl, rfl⟩ := htake
          exact h.initLimiter_error htuned
        · rename_i r₁ g₁ htuned
          simp only [Option.some.injEq, Prod.mk.injEq] at htake
          obtain ⟨rfl, rfl, rfl⟩ := htake
          obtain ⟨l, hl₁, hnow, hfund⟩ := h.initLimiter hR htuned
          exact hfund.allow hR hl₁ hnow
    | some l =>
        simp only [hl] at htake
        split at htake
        · cases htake
        · rename_i err r₁ g₁ htuned
          simp only [Option.some.injEq, Prod.mk.injEq] at htake
          obtain ⟨rfl, rfl, rfl⟩ := htake
          exact h.tuneRqs_error htuned
        · rename_i r₁ g₁ htuned
          simp only [Option.some.injEq, Prod.mk.injEq] at htake
          obtain ⟨rfl, rfl, rfl⟩ := htake
          obtain ⟨l, hl₁, hnow, hfund⟩ := h.tuneRqs hR hl htuned
          exact hfund.allow hR hl₁ hnow

end Accounting

namespace Instances

variable {L : Type} {R : Rate L} {available : L → ℤ → ℚ} {s t : Instances L} {a : Action}

/-- Every instance has its account in order. -/
def Sound (R : Rate L) (available : L → ℤ → ℚ) (s : Instances L) : Prop :=
  ∀ k ∈ s.instances, Account R available k.limiter k.granted k.admitted s.clock

/-- One instance changes. -/
theorem Sound.set {i : ℕ} {k : Instance L} (h : Sound R available s)
    (hk : Account R available k.limiter k.granted k.admitted s.clock) :
    Sound R available { s with instances := s.instances.set i k } := by
  intro k' hk'
  rcases List.mem_or_eq_of_mem_set hk' with hk' | rfl
  · exact h k' hk'
  · exact hk

/-- Every step keeps the accounts in order. -/
theorem Sound.step (hR : R.Lawful available) (h : Sound R available s)
    (hs : s.step R a = some t) : Sound R available t := by
  cases a with
  | tick d =>
      obtain rfl := Option.some.inj hs
      exact fun k hk => (h k hk).tick hR (by simp)
  | new initialRqs totalRqs =>
      obtain rfl := Option.some.inj hs
      intro k hk
      rcases List.mem_append.mp hk with hk | hk
      · exact h k hk
      · rw [List.mem_singleton.mp hk]
        exact ⟨by simp, fun l hl => by simp [newAdaptiveRateLimiter] at hl⟩
  | take i replies =>
      simp only [Instances.step] at hs
      split at hs
      · cases hs
      · rename_i k hi
        obtain ⟨k', hk', rfl⟩ := Option.map_eq_some_iff.mp hs
        exact h.set ((h k (List.mem_of_getElem? hi)).take hR hk')
  | setLimit i newLimit =>
      simp only [Instances.step] at hs
      split at hs
      · cases hs
      · rename_i k hi
        obtain rfl := Option.some.inj hs
        apply h.set
        have hk := h k (List.mem_of_getElem? hi)
        unfold AdaptiveRateLimiter.setLimit
        split
        · exact hk
        · exact hk.congr rfl rfl rfl

/-- **Twice the granted quota.**  However many instances share a backend, whatever it answers, in
every sequence of their `Take(1)` and `SetLimit` calls, they have at each point admitted at most
twice the units that the backend has granted to them. -/
theorem admitted_le_twice_granted (R : Rate L) (available : L → ℤ → ℚ) (hR : R.Lawful available)
    (clock : ℤ) (as : List Action) (s : Instances L)
    (hrun : Runs.run (step R) (start clock) as = some s) : s.admitted ≤ 2 * s.granted := by
  have h : Sound R available s := by
    apply Runs.run_induction (fun s a t h hs => Sound.step hR h hs) _ hrun
    simp [Sound, start]
  unfold admitted granted
  rw [← List.sum_map_mul_left]
  exact List.sum_le_sum fun k hk => (h k hk).covered

/-- Two instances of a tenant with 4 events a second.  The first one admits its burst of 2, the
quota of 3 that it then asks for is refused and 2 are granted; the other one is refused once. -/
def busy : List Action :=
  [.new 2 4, .new 2 4, .take 0 [.ok], .take 0 [], .take 0 [], .tick 1000000000,
    .take 0 [.limitReached, .ok], .take 1 [.limitReached], .setLimit 1 2, .take 1 [.ok]]

/-- The bound at a run of two instances with the limiter of `x/time/rate`. -/
theorem admitted_le_twice_granted_busy :
    ∃ s, Runs.run (step Rate.tokens) (start 0) busy = some s ∧
      s.instances.map (fun k => (k.admitted, k.granted)) = [(3, 4), (1, 1)] ∧
      s.admitted ≤ 2 * s.granted := by
  have hrun : (Runs.run (step Rate.tokens) (start 0) busy).map
      (fun s => s.instances.map fun k => (k.admitted, k.granted)) = some [(3, 4), (1, 1)] := by
    decide +kernel
  obtain ⟨s, hs, hcounts⟩ := Option.map_eq_some_iff.mp hrun
  exact ⟨s, hs, hcounts, admitted_le_twice_granted _ _ Rate.tokens_lawful 0 busy s hs⟩

end Instances

end AdaptiveLimiter
