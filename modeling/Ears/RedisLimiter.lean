/-
# The rate limiter on Redis (`pkg/ratelimit/redis/redis_limiter.go`)

Any number of limiters of one tenant, all with the limit `rqs`, share a bucket of tokens in
Redis: the allowance and the time of its last refill are under two keys.  `take` watches the
keys, reads them, and writes both in a transaction that is only committed when neither has
changed since; a call is repeated when its transaction is not committed or Redis fails.

The calls go on in any order, one command at a time.  `granted_le` bounds the units that are
granted in an interval by the potential argument of `TokenBucket`.
-/
import Ears.Runs
import Ears.TokenBucket

namespace RedisLimiter

/-- Why a `Take` fails; `failed` stands for the errors of Redis, a transaction that was not
committed among them. -/
inductive TakeError where
  | invalidUnit (badUnit : ℤ)
  | limitReached
  | contextCancelled
  | failed
  deriving DecidableEq, Repr

/-- The two keys of the tenant.  `version` counts the transactions that have written them. -/
structure Store where
  bucket : Option ℚ
  refillTs : Option ℤ
  version : ℕ
  deriving DecidableEq, Repr

/-- What a call does next: start an attempt, read the two keys it watches since `version`, decide,
commit, or wait for the next attempt. -/
inductive Phase where
  | take
  | getBucket (version : ℕ)
  | getTs (version : ℕ) (allowance : ℚ)
  | decide (version : ℕ) (allowance : ℚ) (refillTs : ℤ)
  | exec (version : ℕ) (allowance : ℚ) (currTs : ℤ)
  | sleeping
  | returned (err : Option TakeError)
  deriving DecidableEq, Repr

/-- A call of `Take` on one of the limiters. -/
structure Call where
  unit : ℤ
  retry : ℕ
  phase : Phase
  deriving DecidableEq, Repr

/-- The limiters of a tenant.  The clock is in nanoseconds, and `grants` holds the units of the
calls that have returned without an error, with the time that their last attempt has read. -/
structure Limiters where
  clock : ℤ
  store : Store
  calls : List Call
  grants : List (ℤ × ℤ)
  deriving DecidableEq, Repr

/-- How Redis answers a command: it fails, or it is done, and then the answer may be lost. -/
inductive Reply where
  | ok
  | failed
  | lost
  deriving DecidableEq, Repr

/-- Time passes, `Take` is called on a limiter, a call goes on, or the context of a waiting call
is cancelled. -/
inductive Action where
  | tick (d : ℕ)
  | call (unit : ℤ)
  | proceed (i : ℕ) (reply : Reply)
  | cancel (i : ℕ)
  deriving DecidableEq, Repr

/-- `NUM_REDIS_RETRY`. -/
def numRedisRetry : ℕ := 3

/-- `int(allowance)`: towards zero. -/
def int (allowance : ℚ) : ℤ := if 0 ≤ allowance then ⌊allowance⌋ else ⌈allowance⌉

/-- The allowance at `currTs`, not bigger than the quota. -/
def newAllowance (rqs : ℤ) (allowance : ℚ) (refillTs currTs : ℤ) : ℚ :=
  let elapsed := currTs - refillTs
  let allowance := allowance + elapsed * rqs / 1000000000
  if allowance > rqs then rqs else allowance

/-- An attempt has failed: wait for the next one, if there is one left. -/
def Call.again (c : Call) : Call :=
  if c.retry = 0 then { c with phase := .returned (some .failed) }
  else { c with retry := c.retry - 1, phase := .sleeping }

namespace Limiters

variable (s : Limiters)

/-- A call goes on. -/
def setCall (i : ℕ) (c : Call) : Limiters := { s with calls := s.calls.set i c }

/-- `EXEC`: both keys are written when neither has changed since the `WATCH`. -/
def commit (allowance : ℚ) (currTs : ℤ) : Limiters :=
  { s with store := ⟨some allowance, some currTs, s.store.version + 1⟩ }

/-- The call returns without an error. -/
def grant (currTs : ℤ) (unit : ℤ) : Limiters := { s with grants := (currTs, unit) :: s.grants }

/-- The next command of a call of `Take`. -/
def proceed (rqs : ℤ) (i : ℕ) (c : Call) (reply : Reply) : Option Limiters :=
  match c.phase with
  | .take =>
      if c.unit ≤ 0 ∨ c.unit > rqs then
        some (s.setCall i { c with phase := .returned (some (.invalidUnit c.unit)) })
      else if reply = .ok then some (s.setCall i { c with phase := .getBucket s.store.version })
      else some (s.setCall i c.again)
  | .getBucket version =>
      if reply = .ok then
        some (s.setCall i { c with phase := .getTs version (s.store.bucket.getD rqs) })
      else some (s.setCall i c.again)
  | .getTs version allowance =>
      if reply = .ok then
        some (s.setCall i
          { c with phase := .decide version allowance (s.store.refillTs.getD s.clock) })
      else some (s.setCall i c.again)
  | .decide version allowance refillTs =>
      let allowance := newAllowance rqs allowance refillTs s.clock
      -- without commands in it the transaction is not sent
      if int allowance < c.unit then
        some (s.setCall i { c with phase := .returned (some .limitReached) })
      else some (s.setCall i { c with phase := .exec version (allowance - c.unit) s.clock })
  | .exec version allowance currTs =>
      if version = s.store.version then
        match reply with
        | .ok => some (((s.commit allowance currTs).grant currTs c.unit).setCall i
            { c with phase := .returned none })
        | .failed => some (s.setCall i c.again)
        | .lost => some ((s.commit allowance currTs).setCall i c.again)
      else some (s.setCall i c.again)
  | .sleeping => some (s.setCall i { c with phase := .take })
  | .returned _ => none

/-- A step of the limiters. -/
def step (rqs : ℤ) (s : Limiters) : Action → Option Limiters
  | .tick d => some { s with clock := s.clock + d }
  | .call unit =>
      if rqs = 0 then
        some { s.grant s.clock unit with calls := s.calls ++ [⟨unit, numRedisRetry, .returned none⟩] }
      else some { s with calls := s.calls ++ [⟨unit, numRedisRetry, .take⟩] }
  | .proceed i reply =>
      match s.calls[i]? with
      | some c => s.proceed rqs i c reply
      | none => none
  | .cancel i =>
      match s.calls[i]? with
      | some c =>
          if c.phase = .sleeping then
            some (s.setCall i { c with phase := .returned (some .contextCancelled) })
          else none
      | none => none

/-- No calls yet, and neither key is set. -/
def start (clock : ℤ) : Limiters where
  clock := clock
  store := ⟨none, none, 0⟩
  calls := []
  grants := []

/-! ## The bucket -/

/-- A time in seconds. -/
def seconds (t : ℤ) : ℚ := t / 1000000000

/-- The grants, with their times in seconds. -/
def grantsAt : List (ℚ × ℚ) := s.grants.map fun g => (seconds g.1, (g.2 : ℚ))

/-- The units granted from time `a` to time `b`, both in seconds. -/
def granted (a b : ℚ) : ℚ := TokenBucket.granted s.grantsAt a b

/-- What a call has read still holds while its version is the current one. -/
def Fits (rqs : ℤ) (store : Store) (clock : ℤ) (c : Call) : Prop :=
  match c.phase with
  | .getBucket version => 0 < c.unit ∧ version ≤ store.version
  | .getTs version allowance =>
      0 < c.unit ∧ version ≤ store.version ∧
        (version = store.version → allowance = store.bucket.getD rqs)
  | .decide version allowance refillTs =>
      0 < c.unit ∧ version ≤ store.version ∧
        (version = store.version → allowance = store.bucket.getD rqs ∧
          refillTs ≤ clock ∧ ∀ ts, store.refillTs = some ts → refillTs = ts)
  | .exec version allowance currTs =>
      0 < c.unit ∧ version ≤ store.version ∧
        (version = store.version → currTs ≤ clock ∧ ∃ refillTs, refillTs ≤ currTs ∧
          (∀ ts, store.refillTs = some ts → refillTs = ts) ∧
          c.unit ≤ newAllowance rqs (store.bucket.getD rqs) refillTs currTs ∧
          allowance = newAllowance rqs (store.bucket.getD rqs) refillTs currTs - c.unit)
  | _ => True

/-- The keys are both missing and nothing was granted, or the bucket has paid for all grants. -/
def Paid (rqs : ℤ) : Prop :=
  (s.store.bucket = none ∧ s.store.refillTs = none ∧ s.grants = []) ∨
  ∃ allowance ts, s.store.bucket = some allowance ∧ s.store.refillTs = some ts ∧ ts ≤ s.clock ∧
    TokenBucket.Bounded (rqs : ℚ) rqs s.grantsAt allowance (seconds ts)

/-- The invariant of the limiters. -/
structure Inv (rqs : ℤ) : Prop where
  paid : s.Paid rqs
  fits : ∀ c ∈ s.calls, Fits rqs s.store s.clock c

variable {s} {rqs : ℤ} {c : Call} {i : ℕ} {store : Store} {clock : ℤ}

theorem seconds_mono {t u : ℤ} (h : t ≤ u) : seconds t ≤ seconds u := by
  unfold seconds
  gcongr

/-- The allowance is the refill of a bucket of `rqs` tokens that gets `rqs` tokens a second. -/
theorem newAllowance_eq (allowance : ℚ) (refillTs currTs : ℤ) :
    newAllowance rqs allowance refillTs currTs =
      TokenBucket.refill (rqs : ℚ) rqs allowance (seconds refillTs) (seconds currTs) := by
  have hgrow : ((currTs - refillTs : ℤ) : ℚ) * rqs / 1000000000 =
      rqs * (seconds currTs - seconds refillTs) := by
    unfold seconds
    push_cast
    ring
  simp only [newAllowance, TokenBucket.refill, hgrow]
  split <;> rename_i h
  · exact (min_eq_left (le_of_lt h)).symm
  · exact (min_eq_right (not_lt.mp h)).symm

/-- A unit that the integer part of the allowance covers is covered by the allowance. -/
theorem le_of_le_int {allowance : ℚ} {unit : ℤ} (hpos : 0 < unit) (h : unit ≤ int allowance) :
    (unit : ℚ) ≤ allowance := by
  unfold int at h
  split at h <;> rename_i hneg
  · exact (Int.cast_le.mpr h).trans (Int.floor_le allowance)
  · have hceil : ⌈allowance⌉ ≤ 0 := Int.ceil_le.mpr (by simpa using le_of_lt (not_le.mp hneg))
    omega

/-- Time may pass. -/
theorem Fits.tick {clock' : ℤ} (h : Fits rqs store clock c) (hc : clock ≤ clock') :
    Fits rqs store clock' c := by
  obtain ⟨unit, retry, phase⟩ := c
  cases phase with
  | decide version allowance refillTs =>
      refine ⟨h.1, h.2.1, fun hv => ?_⟩
      obtain ⟨ha, hle, hts⟩ := h.2.2 hv
      exact ⟨ha, hle.trans hc, hts⟩
  | exec version allowance currTs =>
      refine ⟨h.1, h.2.1, fun hv => ?_⟩
      obtain ⟨hle, hr⟩ := h.2.2 hv
      exact ⟨hle.trans hc, hr⟩
  | _ => exact h

/-- A transaction makes the readings of the other calls stale. -/
theorem Fits.commit {store' : Store} (h : Fits rqs store clock c)
    (hv : store'.version = store.version + 1) : Fits rqs store' clock c := by
  obtain ⟨unit, retry, phase⟩ := c
  cases phase with
  | getBucket version =>
      have hle := h.2
      exact ⟨h.1, by omega⟩
  | getTs version allowance =>
      have hle := h.2.1
      exact ⟨h.1, by omega, fun heq => by omega⟩
  | decide version allowance refillTs =>
      have hle := h.2.1
      exact ⟨h.1, by omega, fun heq => by omega⟩
  | exec version allowance currTs =>
      have hle := h.2.1
      exact ⟨h.1, by omega, fun heq => by omega⟩
  | _ => trivial

/-- A call that is repeated or has failed has read nothing. -/
theorem fits_again : Fits rqs store clock c.again := by
  unfold Call.again
  split <;> trivial

/-- The invariant when one call goes on and the keys stay as they are. -/
theorem Inv.setCall (h : s.Inv rqs) (hc : Fits rqs s.store s.clock c) : (s.setCall i c).Inv rqs := by
  refine ⟨h.paid, fun d hd => ?_⟩
  rcases List.mem_or_eq_of_mem_set hd with hd | rfl
  · exact h.fits d hd
  · exact hc

/-- The bucket pays for a transaction that is committed, whether its answer arrives or not. -/
theorem Paid.commit (hrqs : 1 ≤ rqs) (h : s.Paid rqs) {allowance : ℚ} {unit currTs : ℤ} {retry : ℕ}
    (hfit : Fits rqs s.store s.clock ⟨unit, retry, .exec s.store.version allowance currTs⟩) :
    ((s.commit allowance currTs).grant currTs unit).Paid rqs ∧
      (s.commit allowance currTs).Paid rqs := by
  simp only [Fits] at hfit
  obtain ⟨hpos, -, hread⟩ := hfit
  obtain ⟨hclock, refillTs, hle, hts, hpay, rfl⟩ := hread trivial
  have hrate : (0 : ℚ) ≤ rqs := by exact_mod_cast (by omega : (0 : ℤ) ≤ rqs)
  have hunit : (0 : ℚ) ≤ unit := by exact_mod_cast hpos.le
  -- the bucket before the transaction, also when the keys were missing
  have hold : TokenBucket.Bounded (rqs : ℚ) rqs s.grantsAt (s.store.bucket.getD rqs)
      (seconds refillTs) := by
    rcases h with ⟨hb, hr, hg⟩ | ⟨old, ts, hb, hr, -, hbound⟩
    · rw [grantsAt, hg, hb]
      exact TokenBucket.Bounded.start hrate hrate le_rfl
    · rw [hts ts hr, hb]
      exact hbound
  rw [newAllowance_eq] at hpay ⊢
  have hnew := hold.take hrate (seconds_mono hle) hunit hpay
  exact ⟨.inr ⟨_, _, rfl, rfl, hclock, hnew⟩, .inr ⟨_, _, rfl, rfl, hclock, hnew.lose hunit⟩⟩

/-! ## Steps -/

/-- The next command of a call keeps the invariant. -/
theorem Inv.proceed (hrqs : 1 ≤ rqs) (h : s.Inv rqs) {reply : Reply} {t : Limiters}
    (hc : Fits rqs s.store s.clock c) (hs : s.proceed rqs i c reply = some t) : t.Inv rqs := by
  obtain ⟨unit, retry, phase⟩ := c
  cases phase with
  | take =>
      -- a unit that is too large is refused, so the others are positive and at most `rqs`
      simp only [Limiters.proceed] at hs
      split at hs <;> rename_i hunit
      · obtain rfl := Option.some.inj hs
        exact h.setCall trivial
      · split at hs
        · obtain rfl := Option.some.inj hs
          exact h.setCall ⟨by simp only; omega, le_rfl⟩
        · obtain rfl := Option.some.inj hs
          exact h.setCall fits_again
  | getBucket version =>
      simp only [Limiters.proceed] at hs
      split at hs
      · obtain rfl := Option.some.inj hs
        exact h.setCall ⟨hc.1, hc.2, fun _ => rfl⟩
      · obtain rfl := Option.some.inj hs
        exact h.setCall fits_again
  | getTs version allowance =>
      simp only [Limiters.proceed] at hs
      split at hs
      · obtain rfl := Option.some.inj hs
        -- no one has committed since the allowance was read, so the time belongs to it
        refine h.setCall ⟨hc.1, hc.2.1, fun hv => ⟨hc.2.2 hv, ?_, fun ts hts => by simp [hts]⟩⟩
        rcases h.paid with ⟨-, hr, -⟩ | ⟨old, ts, -, hr, hle, -⟩
        · simp [hr]
        · simpa [hr] using hle
      · obtain rfl := Option.some.inj hs
        exact h.setCall fits_again
  | decide version allowance refillTs =>
      simp only [Limiters.proceed] at hs
      split at hs <;> rename_i hlt
      · obtain rfl := Option.some.inj hs
        exact h.setCall trivial
      · obtain rfl := Option.some.inj hs
        refine h.setCall ⟨hc.1, hc.2.1, fun hv => ⟨le_rfl, refillTs, ?_⟩⟩
        obtain ⟨ha, hle, hts⟩ := hc.2.2 hv
        refine ⟨hle, hts, ?_, ?_⟩
        · rw [← ha]
          exact le_of_le_int hc.1 (not_lt.mp hlt)
        · rw [ha]
  | exec version allowance currTs =>
      simp only [Limiters.proceed] at hs
      split at hs <;> rename_i hv
      · -- the watched keys are as they were read; what other calls have read is outdated now
        subst hv
        obtain ⟨hgranted, hlost⟩ := h.paid.commit hrqs hc
        have hothers : ∀ d ∈ s.calls, Fits rqs (s.commit allowance currTs).store s.clock d :=
          fun d hd => (h.fits d hd).commit rfl
        cases reply with
        | ok =>
            obtain rfl := Option.some.inj hs
            have hinv : ((s.commit allowance currTs).grant currTs unit).Inv rqs :=
              ⟨hgranted, hothers⟩
            exact hinv.setCall trivial
        | failed =>
            obtain rfl := Option.some.inj hs
            exact h.setCall fits_again
        | lost =>
            -- committed, but not granted: the units are taken and the call tries again
            obtain rfl := Option.some.inj hs
            have hinv : (s.commit allowance currTs).Inv rqs := ⟨hlost, hothers⟩
            exact hinv.setCall fits_again
      · obtain rfl := Option.some.inj hs
        exact h.setCall fits_again
  | sleeping =>
      obtain rfl := Option.some.inj hs
      exact h.setCall trivial
  | returned err => cases hs

/-- Every step keeps the invariant. -/
theorem Inv.step (hrqs : 1 ≤ rqs) (h : s.Inv rqs) {a : Action} {t : Limiters}
    (hs : s.step rqs a = some t) : t.Inv rqs := by
  cases a with
  | tick d =>
      obtain rfl := Option.some.inj hs
      refine ⟨?_, fun c hc => (h.fits c hc).tick (by simp)⟩
      rcases h.paid with hnone | ⟨old, ts, hb, hr, hle, hbound⟩
      · exact .inl hnone
      · exact .inr ⟨old, ts, hb, hr, by simp only; omega, hbound⟩
  | call unit =>
      rw [Limiters.step, if_neg (by omega), Option.some.injEq] at hs
      subst hs
      refine ⟨h.paid, fun c hc => ?_⟩
      rcases List.mem_append.mp hc with hc | hc
      · exact h.fits c hc
      · rw [List.mem_singleton.mp hc]
        trivial
  | proceed i reply =>
      simp only [Limiters.step] at hs
      split at hs <;> rename_i hi
      · exact h.proceed hrqs (h.fits _ (List.mem_of_getElem? hi)) hs
      · cases hs
  | cancel i =>
      simp only [Limiters.step] at hs
      split at hs
      · split at hs
        · obtain rfl := Option.some.inj hs
          exact h.setCall trivial
        · cases hs
      · cases hs

/-- **The bound.**  However many limiters of a tenant take from the bucket, in every order of
their commands and retries, they grant at most `rqs + rqs * d` units in an interval of `d`
seconds, and the stored allowance is between 0 and `rqs`. -/
theorem granted_le (rqs : ℤ) (hrqs : 1 ≤ rqs) (clock : ℤ) (as : List Action) (s : Limiters)
    (hrun : Runs.run (step rqs) (start clock) as = some s) :
    (∀ a d, 0 ≤ d → s.granted a (a + d) ≤ rqs + rqs * d) ∧
      ∀ allowance, s.store.bucket = some allowance → 0 ≤ allowance ∧ allowance ≤ rqs := by
  have h : s.Inv rqs := by
    apply Runs.run_induction (fun s a t h hs => Inv.step hrqs h hs) _ hrun
    exact ⟨.inl ⟨rfl, rfl, rfl⟩, by simp [start]⟩
  rcases h.paid with ⟨hb, -, hg⟩ | ⟨old, ts, hb, -, -, hbound⟩
  · refine ⟨fun a d hd => ?_, fun allowance hal => by simp [hb] at hal⟩
    have hrate : (0 : ℚ) ≤ rqs := by exact_mod_cast (by omega : (0 : ℤ) ≤ rqs)
    have hpos : 0 ≤ rqs * d := mul_nonneg hrate hd
    rw [granted, grantsAt, hg, TokenBucket.granted_eq_zero (by simp)]
    linarith
  · constructor
    · intro a d hd
      have hw := hbound.windows a (a + d) (by linarith)
      rwa [add_sub_cancel_left] at hw
    · intro allowance hal
      obtain rfl : old = allowance := Option.some.inj (hb.symm.trans hal)
      exact ⟨hbound.nonneg, hbound.le_cap⟩

/-- Two limiters with limit 2 take one unit and two units at once.  Both read before the first
one commits, so the transaction of the other is not committed; its next attempt is half a second
later. -/
def racing : List Action :=
  [.call 1, .call 2] ++
    [0, 1, 0, 1, 0, 1, 0, 1, 0, 1, 1].map (fun i => .proceed i .ok) ++
    [.tick 500000000] ++ [1, 1, 1, 1, 1].map (fun i => .proceed i .ok)

/-- The bound at a run in which a transaction is not committed and repeated. -/
theorem granted_le_racing : ∃ s, Runs.run (step 2) (start 0) racing = some s ∧
    s.grants = [(500000000, 2), (0, 1)] ∧
    (∀ a d, 0 ≤ d → s.granted a (a + d) ≤ (2 : ℤ) + (2 : ℤ) * d) ∧
      ∀ allowance, s.store.bucket = some allowance → 0 ≤ allowance ∧ allowance ≤ (2 : ℤ) := by
  have hrun : (Runs.run (step 2) (start 0) racing).map grants =
      some [(500000000, 2), (0, 1)] := by decide +kernel
  obtain ⟨s, hs, hgrants⟩ := Option.map_eq_some_iff.mp hrun
  exact ⟨s, hs, hgrants, granted_le 2 (by decide) 0 racing s hs⟩

end Limiters

end RedisLimiter
