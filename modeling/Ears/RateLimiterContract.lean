/-
# The contract of a rate limiter (`pkg/ratelimit/types.go`)

`RateLimiter` says what its implementations return: no limit when the limit is 0, an
`InvalidUnitError` for units that are not positive or above the limit, and one for a negative
limit.  Only the limiter on Redis does what it says: the limiter in memory and the adaptive one
refuse everything when the limit is 0, and neither looks at the units.

`contract_iff` is exact: a call of one of these two meets the contract when the contract says
nothing about it.
-/
import Ears.AdaptiveLimiter
import Ears.QuotaBackends
import Ears.Runs

open RedisLimiter (TakeError)
open AdaptiveLimiter (AdaptiveRateLimiter Rate)

namespace RateLimit

/-- What a limiter answers; `backendError` wraps the error of another limiter, and `failed`
stands for the errors of Redis and of the context. -/
inductive Answer where
  | ok
  | limitReached
  | invalidUnit (badUnit : ℤ)
  | backendError
  | failed
  deriving DecidableEq, Repr

/-- The answer of one of the two backends. -/
def Answer.ofBackend : Option TakeError → Answer
  | none => .ok
  | some .limitReached => .limitReached
  | some (.invalidUnit badUnit) => .invalidUnit badUnit
  | some .contextCancelled => .failed
  | some .failed => .failed

/-- The answer of the adaptive limiter. -/
def Answer.ofAdaptive : Except AdaptiveLimiter.TakeError Unit → Answer
  | .ok () => .ok
  | .error .limitReached => .limitReached
  | .error .backendError => .backendError

/-- `RateLimiter`: one of its implementations. -/
inductive RateLimiter (L : Type) where
  | redis (r : RedisRateLimiter)
  | inMemory (r : InMemoryBackendLimiter)
  | adaptive (r : AdaptiveRateLimiter L)

/-- What a call meets: the time, the answers of Redis, and the answers of the backend of an
adaptive limiter. -/
structure Environment where
  now : ℤ
  redis : ℕ → RedisLimiter.Reply
  backend : List AdaptiveLimiter.Reply

/-- A call of a limiter. -/
inductive Call where
  | take (unit : ℤ)
  | setLimit (newLimit : ℤ)
  deriving DecidableEq, Repr

namespace RateLimiter

variable {L : Type} (R : Rate L)

/-- `Limit`. -/
def limit : RateLimiter L → ℤ
  | redis r => r.rqs
  | inMemory r => r.rqs
  | adaptive r => r.totalRqs.toInt

/-- `Take`; `none` when the backend of an adaptive limiter does not answer. -/
def take (env : Environment) (unit : ℤ) : RateLimiter L → Option (Answer × RateLimiter L)
  | redis r => (r.take env.now unit env.redis).map fun (err, r) => (.ofBackend err, redis r)
  | inMemory r =>
      let (err, r) := r.take env.now unit
      some (.ofBackend err, inMemory r)
  | adaptive r =>
      (r.take R env.now unit env.backend).map fun (result, r, _) => (.ofAdaptive result, adaptive r)

/-- `SetLimit`. -/
def setLimit (newLimit : ℤ) : RateLimiter L → Answer × RateLimiter L
  | redis r =>
      let (err, r) := r.setLimit newLimit
      (.ofBackend err, redis r)
  | inMemory r =>
      let (err, r) := r.setLimit newLimit
      (.ofBackend err, inMemory r)
  | adaptive r =>
      if newLimit < 0 then (.invalidUnit newLimit, adaptive r)
      else (.ok, adaptive (r.setLimit (.ofInt newLimit)))

/-- A call of the limiter. -/
def call (s : RateLimiter L) (env : Environment) : Call → Option (Answer × RateLimiter L)
  | .take unit => s.take R env unit
  | .setLimit newLimit => some (s.setLimit newLimit)

/-- A step of a run of calls. -/
def step (s : RateLimiter L) (a : Environment × Call) : Option (RateLimiter L) :=
  (s.call R a.1 a.2).map Prod.snd

/-- The answers to a list of calls; they end where a call does not return. -/
def answers (s : RateLimiter L) : List (Environment × Call) → List Answer
  | [] => []
  | (env, c) :: calls =>
      match s.call R env c with
      | none => []
      | some (a, s) => a :: answers s calls

/-- No later answer tells the two limiters apart. -/
def SameAnswers (s t : RateLimiter L) : Prop := ∀ calls, s.answers R calls = t.answers R calls

/-- What the interface says about a call. -/
def Contract (s : RateLimiter L) (env : Environment) : Call → Prop
  | .take unit =>
      (s.limit = 0 → 0 < unit → ∃ t, s.take R env unit = some (.ok, t)) ∧
        (0 < s.limit → unit ≤ 0 ∨ unit > s.limit →
          ∃ t, s.take R env unit = some (.invalidUnit unit, t) ∧ t.SameAnswers R s)
  | .setLimit newLimit => newLimit < 0 → s.setLimit newLimit = (.invalidUnit newLimit, s)

/-- The interface says nothing about a `Take`. -/
def Free (s : RateLimiter L) (unit : ℤ) : Prop :=
  (s.limit = 0 → unit ≤ 0) ∧ (0 < s.limit → 1 ≤ unit ∧ unit ≤ s.limit)

/-- A call that the contract holds for: any call of a limiter on Redis, any `SetLimit`, and a
`Take` that the interface says nothing about. -/
def Meets : RateLimiter L → Call → Prop
  | redis _, _ => True
  | _, .setLimit _ => True
  | s, .take unit => s.Free unit

end RateLimiter

/-! ## The limiter on Redis -/

section Redis

variable {r : RedisRateLimiter} {unit : ℤ}

/-- Without a limit everything is granted, and Redis is not asked. -/
theorem RedisRateLimiter.take_unlimited (h : r.rqs = 0) (now unit : ℤ)
    (replies : ℕ → RedisLimiter.Reply) : r.take now unit replies = some (none, r) := by
  have hcalled : (r.called now unit).calls = [⟨unit, RedisLimiter.numRedisRetry, .returned none⟩] ∧
      (r.called now unit).store = r.store := by
    simp [called, RedisLimiter.Limiters.step, h, RedisLimiter.Limiters.grant]
  unfold take
  simp only [settle_returned hcalled.1 rfl, returned, hcalled.1, hcalled.2]
  rfl

/-- Units that are not positive or above the limit are refused, and Redis is not asked. -/
theorem RedisRateLimiter.take_invalid (h : 0 < r.rqs) (hunit : unit ≤ 0 ∨ unit > r.rqs) (now : ℤ)
    (replies : ℕ → RedisLimiter.Reply) :
    r.take now unit replies = some (some (.invalidUnit unit), r) := by
  have h0 : r.rqs ≠ 0 := by omega
  have hcalled : r.called now unit = alone r.store now unit .take := by
    simp [called, RedisLimiter.Limiters.step, h0, alone]
  have hproceed : (alone r.store now unit .take).proceed r.rqs 0
      ⟨unit, RedisLimiter.numRedisRetry, .take⟩ (replies 22) =
      some (alone r.store now unit (.returned (some (.invalidUnit unit)))) := if_pos hunit
  have hsettle : settle r.rqs replies maxCommands (alone r.store now unit .take) =
      alone r.store now unit (.returned (some (.invalidUnit unit))) :=
    (settle_proceed rfl hproceed).trans (settle_returned rfl rfl)
  unfold take
  simp only [hcalled, hsettle]
  rfl

end Redis

namespace RateLimiter

variable {L : Type} {R : Rate L} {s : RateLimiter L} {env : Environment} {unit : ℤ}

/-- A negative limit is refused by all limiters. -/
theorem setLimit_of_neg {newLimit : ℤ} (h : newLimit < 0) :
    s.setLimit newLimit = (.invalidUnit newLimit, s) := by
  cases s with
  | redis r => simp [setLimit, RedisRateLimiter.setLimit, h, Answer.ofBackend]
  | inMemory r => simp [setLimit, InMemoryBackendLimiter.setLimit, h, Answer.ofBackend]
  | adaptive r => simp [setLimit, h]

/-- The limiter on Redis keeps the contract. -/
theorem contract_redis (r : RedisRateLimiter) (c : Call) : (redis r).Contract R env c := by
  cases c with
  | setLimit newLimit => exact setLimit_of_neg
  | take unit =>
      refine ⟨fun h0 _ => ⟨redis r, ?_⟩, fun hpos hunit => ⟨redis r, ?_, fun _ => rfl⟩⟩
      · simp [take, RedisRateLimiter.take_unlimited h0, Answer.ofBackend]
      · simp [take, RedisRateLimiter.take_invalid hpos hunit, Answer.ofBackend]

/-- The two other limiters grant nothing without a limit, and never complain about the units. -/
theorem take_of_not_redis (hs : ∀ r, s ≠ redis r) {a : Answer} {t : RateLimiter L}
    (h : s.take R env unit = some (a, t)) :
    (s.limit = 0 → a ≠ .ok) ∧ ∀ badUnit, a ≠ .invalidUnit badUnit := by
  cases s with
  | redis r => exact absurd rfl (hs r)
  | inMemory r =>
      simp only [take, Option.some.injEq, Prod.mk.injEq] at h
      obtain ⟨rfl, -⟩ := h
      constructor
      · intro h0
        rw [show r.take env.now unit = (some .limitReached, r) from if_pos h0]
        exact Answer.noConfusion
      · intro badUnit
        rcases r.take_answer env.now unit with hr | hr
        · rw [hr]
          exact Answer.noConfusion
        · rw [hr]
          exact Answer.noConfusion
  | adaptive r =>
      obtain ⟨⟨result, r', granted⟩, htake, heq⟩ := Option.map_eq_some_iff.mp h
      obtain ⟨rfl, -⟩ := Prod.mk.inj heq
      constructor
      · intro h0
        have hzero : r.totalRqs.toInt = (0 : Int64).toInt := h0
        have hlimit : r.take R env.now unit env.backend = some (.error .limitReached, r, 0) :=
          if_pos (Int64.toInt_inj.mp hzero)
        rw [hlimit] at htake
        obtain ⟨rfl, -⟩ := Prod.mk.inj (Option.some.inj htake)
        exact Answer.noConfusion
      · intro badUnit
        cases result with
        | ok u => exact Answer.noConfusion
        | error err => cases err <;> exact Answer.noConfusion

/-- The two other limiters keep the contract of a `Take` only when it says nothing. -/
theorem contract_take_iff_free (hs : ∀ r, s ≠ redis r) :
    s.Contract R env (.take unit) ↔ s.Free unit := by
  constructor
  · rintro ⟨hzero, hlimit⟩
    constructor
    · intro h0
      by_contra hpos
      obtain ⟨t, ht⟩ := hzero h0 (not_le.mp hpos)
      exact (take_of_not_redis hs ht).1 h0 rfl
    · intro hpos
      by_contra hfree
      obtain ⟨t, ht, -⟩ := hlimit hpos (by omega)
      exact (take_of_not_redis hs ht).2 unit rfl
  · rintro ⟨hzero, hlimit⟩
    constructor
    · intro h0 hpos
      have hle := hzero h0
      omega
    · intro hpos hunit
      have hle := hlimit hpos
      omega

/-- In every state and whatever happens around it, a call meets the contract exactly when the
limiter is the one on Redis, or the contract says nothing about the call. -/
theorem contract_iff (R : Rate L) (s : RateLimiter L) (env : Environment) (c : Call) :
    s.Contract R env c ↔ s.Meets c := by
  cases c with
  | setLimit newLimit =>
      have hmeets : s.Meets (.setLimit newLimit) := by cases s <;> exact trivial
      exact ⟨fun _ => hmeets, fun _ => setLimit_of_neg⟩
  | take unit =>
      cases s with
      | redis r => exact ⟨fun _ => trivial, fun _ => contract_redis r _⟩
      | inMemory r => exact contract_take_iff_free fun _ h => nomatch h
      | adaptive r => exact contract_take_iff_free fun _ h => nomatch h

/-- **The contract.**  In a run of `Take` and `SetLimit` calls, from any state of a limiter and
whatever happens around it, every call meets the contract of the interface exactly when the
limiter is the one on Redis, or each call is a `SetLimit` or a `Take` about which the contract says
nothing. -/
theorem contracts_iff (R : Rate L) (s : RateLimiter L) (calls : List (Environment × Call)) :
    Runs.Along (step R) (fun s a => s.Contract R a.1 a.2) s calls ↔
      Runs.Along (step R) (fun s a => s.Meets a.2) s calls :=
  Runs.along_congr fun s a => contract_iff R s a.1 a.2

/-- No limit. -/
def unlimited : RateLimiter AdaptiveLimiter.Tokens := inMemory (.new 0 0)

/-- A limit of five. -/
def five : RateLimiter AdaptiveLimiter.Tokens := inMemory (.new 5 0)

/-- Nothing fails, and no time passes. -/
def quiet : Environment := ⟨0, fun _ => .ok, []⟩

/-- Without a limit the limiter in memory refuses everything; with one it grants nothing to a
`Take` of nothing, and calls six units of five too many for now. -/
theorem unlimited_refuses :
    unlimited.take Rate.tokens quiet 1 = some (.limitReached, unlimited) ∧
      five.take Rate.tokens quiet 0 = some (.ok, five) ∧
      (five.take Rate.tokens quiet 6).map Prod.fst = some .limitReached ∧
      ¬ Runs.Along (step Rate.tokens) (fun s a => s.Contract Rate.tokens a.1 a.2) unlimited
        [(quiet, .take 1)] := by
  have hrefused : unlimited.take Rate.tokens quiet 1 = some (.limitReached, unlimited) := rfl
  refine ⟨hrefused, ?_, ?_, ?_⟩
  · norm_num [take, five, quiet, InMemoryBackendLimiter.take, InMemoryBackendLimiter.new,
      Answer.ofBackend]
  · norm_num [take, five, quiet, InMemoryBackendLimiter.take, InMemoryBackendLimiter.new,
      Answer.ofBackend]
  · rintro ⟨⟨hzero, -⟩, -⟩
    obtain ⟨t, ht⟩ := hzero rfl (by decide)
    rw [hrefused] at ht
    simp at ht

end RateLimiter

end RateLimit
