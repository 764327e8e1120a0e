/-
# The backends of a quota (`pkg/ratelimit/inmemory_backend_limiter.go`, `pkg/ratelimit/redis`)

The quota of a tenant is kept by one of two backends: a bucket in the memory of the instance, or
a bucket in Redis.  The first one refills its bucket and moves its time at each call; the second
one writes only when it grants, and rounds the allowance down before it compares.

`backends_agree` says that nobody can tell them apart: the two buckets hold the same allowance at
all later times, whatever was granted or refused before, and a number of units that is covered by
the allowance is covered by its integer part.
-/
import Ears.RedisLimiter

open RedisLimiter

namespace RateLimit

/-! ## The limiter in memory -/

/-- `InMemoryBackendLimiter`; the time is in nanoseconds. -/
structure InMemoryBackendLimiter where
  rqs : ℤ
  last : ℤ
  allowance : ℚ
  deriving DecidableEq, Repr

namespace InMemoryBackendLimiter

/-- `NewInMemoryBackendLimiter` for a tenant that has none yet. -/
def new (rqs now : ℤ) : InMemoryBackendLimiter := ⟨rqs, now, rqs⟩

variable (r : InMemoryBackendLimiter)

/-- `Take`, in exact arithmetic. -/
def take (now unit : ℤ) : Option TakeError × InMemoryBackendLimiter :=
  if r.rqs = 0 then (some .limitReached, r)
  else
    let elapsed := now - r.last
    let allowance := r.allowance + elapsed / 1000000000 * r.rqs
    let allowance := if allowance > r.rqs then (r.rqs : ℚ) else allowance
    if allowance < unit then (some .limitReached, { r with last := now, allowance := allowance })
    else (none, { r with last := now, allowance := allowance - unit })

/-- `SetLimit`. -/
def setLimit (newLimit : ℤ) : Option TakeError × InMemoryBackendLimiter :=
  if newLimit < 0 then (some (.invalidUnit newLimit), r) else (none, { r with rqs := newLimit })

/-- The answers to calls, each given by the time since the last one and its units. -/
def answers (r : InMemoryBackendLimiter) : ℤ → List (ℕ × ℤ) → List (Option TakeError)
  | _, [] => []
  | clock, (d, unit) :: calls =>
      let result := r.take (clock + d) unit
      result.1 :: answers result.2 (clock + d) calls

end InMemoryBackendLimiter

/-! ## The limiter on Redis -/

/-- `RedisRateLimiter`, with the keys of its tenant. -/
structure RedisRateLimiter where
  rqs : ℤ
  store : RedisLimiter.Store
  deriving DecidableEq, Repr

/-- The commands of a call of `Take` at most: four attempts of five steps, and the waits between
them. -/
def maxCommands : ℕ := 23

/-- A call goes on alone, as far as it goes in `n` steps.  `replies` are the answers of Redis,
the last one is `replies 0`. -/
def settle (rqs : ℤ) (replies : ℕ → Reply) : ℕ → Limiters → Limiters
  | 0, s => s
  | n + 1, s =>
      match s.step rqs (.proceed 0 (replies n)) with
      | none => s
      | some t => settle rqs replies n t

/-- What the call has returned. -/
def returned (s : Limiters) : Option (Option TakeError) :=
  match s.calls.map Call.phase with
  | [.returned err] => some err
  | _ => none

namespace RedisRateLimiter

variable (r : RedisRateLimiter)

/-- The start of a call of `Take` at one time, when no other call goes on. -/
def called (now unit : ℤ) : Limiters :=
  let s : Limiters := ⟨now, r.store, [], []⟩
  (s.step r.rqs (.call unit)).getD s

/-- A call of `Take` at one time, when no other call goes on; `none` when it does not return. -/
def take (now unit : ℤ) (replies : ℕ → Reply) : Option (Option TakeError × RedisRateLimiter) :=
  let s := settle r.rqs replies maxCommands (r.called now unit)
  (returned s).map fun err => (err, { r with store := s.store })

/-- `SetLimit`. -/
def setLimit (newLimit : ℤ) : Option TakeError × RedisRateLimiter :=
  if newLimit < 0 then (some (.invalidUnit newLimit), r) else (none, { r with rqs := newLimit })

/-- The answers to calls, each given by the time since the last one and its units, when Redis
does not fail.  They end where a call does not return. -/
def answers (r : RedisRateLimiter) : ℤ → List (ℕ × ℤ) → List (Option TakeError)
  | _, [] => []
  | clock, (d, unit) :: calls =>
      match r.take (clock + d) unit fun _ => .ok with
      | none => []
      | some (err, r) => err :: answers r (clock + d) calls

end RedisRateLimiter

/-! ## A call returns -/

/-- The steps that a call still makes at most. -/
def remaining (c : Call) : ℕ :=
  match c.phase with
  | .sleeping => 6 * c.retry + 6
  | .take => 6 * c.retry + 5
  | .getBucket _ => 6 * c.retry + 4
  | .getTs _ _ => 6 * c.retry + 3
  | .decide _ _ _ => 6 * c.retry + 2
  | .exec _ _ _ => 6 * c.retry + 1
  | .returned _ => 0

theorem remaining_again_le (c : Call) : remaining c.again ≤ 6 * c.retry := by
  unfold Call.again
  split <;> simp only [remaining] <;> omega

/-- Every step of a call brings it nearer to its end. -/
theorem remaining_proceed {rqs : ℤ} {s t : Limiters} {c : Call} {reply : Reply}
    (hs : s.proceed rqs 0 c reply = some t) (hcalls : s.calls = [c]) :
    ∃ c', t.calls = [c'] ∧ remaining c' < remaining c := by
  obtain ⟨unit, retry, phase⟩ := c
  have hagain := remaining_again_le ⟨unit, retry, phase⟩
  have hset : ∀ (u : Limiters) (c' : Call), u.calls = s.calls → (u.setCall 0 c').calls = [c'] := by
    intro u c' hu
    simp [Limiters.setCall, hu, hcalls]
  cases phase with
  | take =>
      simp only [Limiters.proceed] at hs
      split at hs
      · obtain rfl := Option.some.inj hs
        exact ⟨_, hset _ _ rfl, by simp [remaining]⟩
      · split at hs <;> obtain rfl := Option.some.inj hs
        · exact ⟨_, hset _ _ rfl, by simp [remaining]⟩
        · exact ⟨_, hset _ _ rfl, by simp only [remaining] at hagain ⊢; omega⟩
  | getBucket version =>
      simp only [Limiters.proceed] at hs
      split at hs <;> obtain rfl := Option.some.inj hs
      · exact ⟨_, hset _ _ rfl, by simp [remaining]⟩
      · exact ⟨_, hset _ _ rfl, by simp only [remaining] at hagain ⊢; omega⟩
  | getTs version allowance =>
      simp only [Limiters.proceed] at hs
      split at hs <;> obtain rfl := Option.some.inj hs
      · exact ⟨_, hset _ _ rfl, by simp [remaining]⟩
      · exact ⟨_, hset _ _ rfl, by simp only [remaining] at hagain ⊢; omega⟩
  | decide version allowance refillTs =>
      simp only [Limiters.proceed] at hs
      split at hs <;> obtain rfl := Option.some.inj hs
      · exact ⟨_, hset _ _ rfl, by simp [remaining]⟩
      · exact ⟨_, hset _ _ rfl, by simp [remaining]⟩
  | exec version allowance currTs =>
      have hend : remaining (Call.again ⟨unit, retry, .exec version allowance currTs⟩) <
          remaining ⟨unit, retry, .exec version allowance currTs⟩ := by
        simp only [remaining] at hagain ⊢
        omega
      simp only [Limiters.proceed] at hs
      split at hs
      · cases reply with
        | ok =>
            obtain rfl := Option.some.inj hs
            exact ⟨_, hset _ _ rfl, by simp [remaining]⟩
        | failed =>
            obtain rfl := Option.some.inj hs
            exact ⟨_, hset _ _ rfl, hend⟩
        | lost =>
            obtain rfl := Option.some.inj hs
            exact ⟨_, hset _ _ rfl, hend⟩
      · obtain rfl := Option.some.inj hs
        exact ⟨_, hset _ _ rfl, hend⟩
  | sleeping =>
      obtain rfl := Option.some.inj hs
      exact ⟨_, hset _ _ rfl, by simp [remaining]⟩
  | returned err => cases hs

/-- Only a call that has returned makes no step. -/
theorem returned_of_proceed_eq_none {rqs : ℤ} {s : Limiters} {c : Call} {reply : Reply}
    (hs : s.proceed rqs 0 c reply = none) : ∃ err, c.phase = .returned err := by
  obtain ⟨unit, retry, phase⟩ := c
  cases phase with
  | returned err => exact ⟨err, rfl⟩
  | sleeping => cases hs
  | exec version allowance currTs =>
      simp only [Limiters.proceed] at hs
      split at hs
      · cases reply <;> cases hs
      · cases hs
  | take =>
      simp only [Limiters.proceed] at hs
      split at hs
      · cases hs
      · split at hs <;> cases hs
  | _ =>
      simp only [Limiters.proceed] at hs
      split at hs <;> cases hs

/-- A call that is alone returns. -/
theorem returned_settle {rqs : ℤ} {replies : ℕ → Reply} {n : ℕ} {s : Limiters} {c : Call}
    (hcalls : s.calls = [c]) (hn : remaining c ≤ n) :
    (returned (settle rqs replies n s)).isSome := by
  induction n generalizing s c with
  | zero =>
      obtain ⟨unit, retry, phase⟩ := c
      cases phase with
      | returned err => simp [settle, returned, hcalls]
      | _ => simp [remaining] at hn
  | succ n ih =>
      unfold settle
      have hstep : ∀ reply, s.step rqs (.proceed 0 reply) = s.proceed rqs 0 c reply := by
        intro reply
        simp [Limiters.step, hcalls]
      rw [hstep]
      cases ht : s.proceed rqs 0 c (replies n) with
      | some t =>
          obtain ⟨c', hcalls', hlt⟩ := remaining_proceed ht hcalls
          exact ih hcalls' (by omega)
      | none =>
          obtain ⟨err, herr⟩ := returned_of_proceed_eq_none ht
          simp [returned, hcalls, herr]

/-- Whatever Redis answers, `Take` returns. -/
theorem RedisRateLimiter.take_isSome (r : RedisRateLimiter) (now unit : ℤ) (replies : ℕ → Reply) :
    (r.take now unit replies).isSome := by
  have hcalled : ∃ c, (r.called now unit).calls = [c] ∧ remaining c ≤ maxCommands := by
    unfold called
    by_cases h0 : r.rqs = 0
    · exact ⟨⟨unit, numRedisRetry, .returned none⟩, by simp [Limiters.step, h0, Limiters.grant],
        Nat.zero_le _⟩
    · exact ⟨⟨unit, numRedisRetry, .take⟩, by simp [Limiters.step, h0],
        by simp [remaining, numRedisRetry, maxCommands]⟩
  obtain ⟨c, hcalls, hle⟩ := hcalled
  unfold take
  rw [Option.isSome_map]
  exact returned_settle hcalls hle

/-! ## The same bucket -/

/-- What the bucket in memory holds at a time. -/
def InMemoryBackendLimiter.allowanceAt (r : InMemoryBackendLimiter) (t : ℤ) : ℚ :=
  newAllowance r.rqs r.allowance r.last t

/-- What the bucket in Redis holds at a time. -/
def RedisRateLimiter.allowanceAt (r : RedisRateLimiter) (t : ℤ) : ℚ :=
  newAllowance r.rqs (r.store.bucket.getD r.rqs) (r.store.refillTs.getD t) t

/-- The bucket in Redis is full: nobody has written it, or it holds the limit. -/
def RedisRateLimiter.Full (r : RedisRateLimiter) (clock : ℤ) : Prop :=
  r.store.bucket.getD r.rqs = r.rqs ∧ ∀ ts, r.store.refillTs = some ts → ts ≤ clock

/-- The two buckets hold the same from now on. -/
structure SameBucket (m : InMemoryBackendLimiter) (r : RedisRateLimiter) (clock : ℤ) : Prop where
  rqs : m.rqs = r.rqs
  allowance : ∀ t, clock ≤ t → m.allowanceAt t = r.allowanceAt t

section Bucket

variable {rqs now unit t t' : ℤ} {allowance : ℚ} {m : InMemoryBackendLimiter}
  {r : RedisRateLimiter}

/-- A bucket that is refilled on the way holds the same at the end. -/
theorem newAllowance_newAllowance (hrqs : 0 ≤ rqs) {refillTs : ℤ} (h : t ≤ t') :
    newAllowance rqs (newAllowance rqs allowance refillTs t) t t' =
      newAllowance rqs allowance refillTs t' := by
  have hrate : (0 : ℚ) ≤ rqs := by exact_mod_cast hrqs
  simp only [Limiters.newAllowance_eq]
  exact TokenBucket.refill_refill hrate (Limiters.seconds_mono h)

theorem newAllowance_full (hrqs : 0 ≤ rqs) {refillTs : ℤ} (h : refillTs ≤ t) :
    newAllowance rqs rqs refillTs t = rqs := by
  have hrate : (0 : ℚ) ≤ rqs := by exact_mod_cast hrqs
  rw [Limiters.newAllowance_eq]
  exact TokenBucket.refill_full hrate (Limiters.seconds_mono h)

/-- A unit is covered by the allowance when its integer part covers it. -/
theorem int_lt_iff (hunit : 1 ≤ unit) : int allowance < unit ↔ allowance < unit := by
  rw [← not_iff_not, not_lt, not_lt]
  constructor
  · exact Limiters.le_of_le_int (by omega)
  · intro h
    have hpos : (0 : ℚ) ≤ allowance := le_trans (by exact_mod_cast by omega) h
    unfold int
    rw [if_pos hpos]
    exact Int.le_floor.mpr h

/-- `Take` of the limiter in memory. -/
theorem InMemoryBackendLimiter.take_eq (h0 : m.rqs ≠ 0) (now unit : ℤ) :
    m.take now unit =
      if m.allowanceAt now < unit then
        (some .limitReached, { m with last := now, allowance := m.allowanceAt now })
      else (none, { m with last := now, allowance := m.allowanceAt now - unit }) := by
  have hgrow : m.allowance + ((now - m.last : ℤ) : ℚ) / 1000000000 * m.rqs =
      m.allowance + ((now - m.last : ℤ) : ℚ) * m.rqs / 1000000000 := by ring
  unfold take allowanceAt newAllowance
  simp only [if_neg h0, hgrow]

/-- The only call of a limiter. -/
def alone (store : RedisLimiter.Store) (now unit : ℤ) (phase : Phase) : Limiters :=
  ⟨now, store, [⟨unit, numRedisRetry, phase⟩], []⟩

/-- A call that goes on alone makes its next step. -/
theorem settle_proceed {replies : ℕ → Reply} {n : ℕ} {s t : Limiters} {c : Call}
    (hcalls : s.calls = [c]) (hs : s.proceed rqs 0 c (replies n) = some t) :
    settle rqs replies (n + 1) s = settle rqs replies n t := by
  have hstep : s.step rqs (.proceed 0 (replies n)) = some t := by
    rw [← hs]
    simp [Limiters.step, hcalls]
  rw [settle, hstep]

/-- A call that has returned makes no step. -/
theorem settle_returned {replies : ℕ → Reply} {n : ℕ} {s : Limiters} {c : Call}
    {err : Option TakeError} (hcalls : s.calls = [c]) (hphase : c.phase = .returned err) :
    settle rqs replies n s = s := by
  cases n with
  | zero => rfl
  | succ n =>
      have hstep : s.step rqs (.proceed 0 (replies n)) = none := by
        simp [Limiters.step, hcalls, Limiters.proceed, hphase]
      rw [settle, hstep]

/-- `Take` of the limiter on Redis, when Redis does not fail. -/
theorem RedisRateLimiter.take_eq (h1 : 1 ≤ unit) (h2 : unit ≤ r.rqs) (now : ℤ) :
    r.take now unit (fun _ => .ok) = some
      (if r.allowanceAt now < unit then (some .limitReached, r)
      else (none, { r with
        store := ⟨some (r.allowanceAt now - unit), some now, r.store.version + 1⟩ })) := by
  have h0 : r.rqs ≠ 0 := by omega
  have hvalid : ¬ (unit ≤ 0 ∨ unit > r.rqs) := by omega
  have hint : int (r.allowanceAt now) < unit ↔ r.allowanceAt now < unit := int_lt_iff h1
  have hcalled : r.called now unit = alone r.store now unit .take := by
    simp [called, Limiters.step, h0, alone]
  -- up to the decision
  have hread : settle r.rqs (fun _ => .ok) maxCommands (r.called now unit) =
      settle r.rqs (fun _ => .ok) 20 (alone r.store now unit
        (.decide r.store.version (r.store.bucket.getD r.rqs) (r.store.refillTs.getD now))) := by
    calc settle r.rqs (fun _ => .ok) maxCommands (r.called now unit)
        = settle r.rqs (fun _ => .ok) 23 (alone r.store now unit .take) := by rw [hcalled, maxCommands]
      _ = settle r.rqs (fun _ => .ok) 22 (alone r.store now unit (.getBucket r.store.version)) :=
          settle_proceed rfl ((if_neg hvalid).trans (if_pos rfl))
      _ = settle r.rqs (fun _ => .ok) 21 (alone r.store now unit
            (.getTs r.store.version (r.store.bucket.getD r.rqs))) := settle_proceed rfl rfl
      _ = settle r.rqs (fun _ => .ok) 20 (alone r.store now unit
            (.decide r.store.version (r.store.bucket.getD r.rqs) (r.store.refillTs.getD now))) :=
          settle_proceed rfl rfl
  unfold take
  simp only [hread]
  by_cases hlt : r.allowanceAt now < unit
  · have hdecide : (alone r.store now unit (.decide r.store.version
        (r.store.bucket.getD r.rqs) (r.store.refillTs.getD now))).proceed r.rqs 0
        ⟨unit, numRedisRetry, .decide r.store.version (r.store.bucket.getD r.rqs)
          (r.store.refillTs.getD now)⟩ .ok =
        some (alone r.store now unit (.returned (some .limitReached))) := if_pos (hint.mpr hlt)
    rw [if_pos hlt, settle_proceed rfl hdecide, settle_returned rfl rfl]
    rfl
  · have hdecide : (alone r.store now unit (.decide r.store.version
        (r.store.bucket.getD r.rqs) (r.store.refillTs.getD now))).proceed r.rqs 0
        ⟨unit, numRedisRetry, .decide r.store.version (r.store.bucket.getD r.rqs)
          (r.store.refillTs.getD now)⟩ .ok =
        some (alone r.store now unit (.exec r.store.version (r.allowanceAt now - unit) now)) :=
      if_neg (mt hint.mp hlt)
    have hexec : (alone r.store now unit
        (.exec r.store.version (r.allowanceAt now - unit) now)).proceed r.rqs 0
        ⟨unit, numRedisRetry, .exec r.store.version (r.allowanceAt now - unit) now⟩ .ok =
        some ((((alone r.store now unit
          (.exec r.store.version (r.allowanceAt now - unit) now)).commit
          (r.allowanceAt now - unit) now).grant now unit).setCall 0
            ⟨unit, numRedisRetry, .returned none⟩) := if_pos rfl
    rw [if_neg hlt, settle_proceed rfl hdecide, settle_proceed rfl hexec, settle_returned rfl rfl]
    rfl

/-- The two buckets answer the same, and hold the same after it. -/
theorem SameBucket.take {clock : ℤ} (h : SameBucket m r clock) (hle : clock ≤ now)
    (h1 : 1 ≤ unit) (h2 : unit ≤ r.rqs) :
    ∃ r', r.take now unit (fun _ => .ok) = some ((m.take now unit).1, r') ∧ r'.rqs = r.rqs ∧
      SameBucket (m.take now unit).2 r' now := by
  have hm := h.rqs
  have hnow := h.allowance now hle
  rw [m.take_eq (by omega), RedisRateLimiter.take_eq h1 h2, hnow]
  by_cases hlt : r.allowanceAt now < unit
  · -- only the bucket in memory is written
    rw [if_pos hlt, if_pos hlt]
    refine ⟨r, rfl, rfl, hm, fun t ht => ?_⟩
    calc newAllowance m.rqs (r.allowanceAt now) now t
        = newAllowance m.rqs (m.allowanceAt now) now t := by rw [hnow]
      _ = m.allowanceAt t := newAllowance_newAllowance (by omega) ht
      _ = r.allowanceAt t := h.allowance t (hle.trans ht)
  · rw [if_neg hlt, if_neg hlt]
    refine ⟨_, rfl, rfl, hm, fun t ht => ?_⟩
    simp only [InMemoryBackendLimiter.allowanceAt, RedisRateLimiter.allowanceAt, hm,
      Option.getD_some]

/-- Two full buckets hold the same. -/
theorem SameBucket.start {clock : ℤ} (h1 : 1 ≤ r.rqs) (h : r.Full clock) :
    SameBucket (InMemoryBackendLimiter.new r.rqs clock) r clock := by
  refine ⟨rfl, fun t ht => ?_⟩
  have hts : r.store.refillTs.getD t ≤ t := by
    cases hts : r.store.refillTs with
    | none => exact le_rfl
    | some ts => exact (h.2 ts hts).trans ht
  unfold InMemoryBackendLimiter.allowanceAt RedisRateLimiter.allowanceAt
  rw [h.1, newAllowance_full (by omega) hts]
  exact newAllowance_full (by simp only [InMemoryBackendLimiter.new]; omega) ht

/-- A run of calls with units between 1 and the limit. -/
theorem SameBucket.answers {clock : ℤ} {calls : List (ℕ × ℤ)} (h : SameBucket m r clock)
    (hunits : ∀ c ∈ calls, 1 ≤ c.2 ∧ c.2 ≤ r.rqs) : r.answers clock calls = m.answers clock calls := by
  induction calls generalizing m r clock with
  | nil => rfl
  | cons c calls ih =>
      obtain ⟨d, unit⟩ := c
      obtain ⟨hc, hcalls⟩ := List.forall_mem_cons.mp hunits
      have hle : clock ≤ clock + d := by omega
      obtain ⟨r', htake, hrqs, hsame⟩ := h.take hle hc.1 hc.2
      have hrest := ih hsame fun c hc => hrqs ▸ hcalls c hc
      simp only [RedisRateLimiter.answers, InMemoryBackendLimiter.answers, htake, hrest]

theorem InMemoryBackendLimiter.length_answers {clock : ℤ} {calls : List (ℕ × ℤ)} :
    (m.answers clock calls).length = calls.length := by
  induction calls generalizing m clock with
  | nil => rfl
  | cons c calls ih => simp only [answers, List.length_cons, ih]

/-- The limiter in memory grants or says that the limit is reached. -/
theorem InMemoryBackendLimiter.take_answer (m : InMemoryBackendLimiter) (now unit : ℤ) :
    (m.take now unit).1 = none ∨ (m.take now unit).1 = some .limitReached := by
  by_cases h0 : m.rqs = 0
  · exact .inr (congrArg Prod.fst (if_pos h0))
  · rw [m.take_eq h0]
    split
    · exact .inr rfl
    · exact .inl rfl

theorem InMemoryBackendLimiter.mem_answers {clock : ℤ} {calls : List (ℕ × ℤ)} {a : Option TakeError}
    (h : a ∈ m.answers clock calls) : a = none ∨ a = some .limitReached := by
  induction calls generalizing m clock with
  | nil => cases h
  | cons c calls ih =>
      rcases List.mem_cons.mp h with rfl | h
      · exact m.take_answer _ _
      · exact ih h

/-- **The two backends.**  A limiter on Redis whose bucket is full and a new limiter in memory
with the same limit give the same answers to all calls with units between 1 and the limit, and
each answer is a grant or that the limit is reached. -/
theorem backends_agree (r : RedisRateLimiter) (clock : ℤ) (hrqs : 1 ≤ r.rqs) (hfull : r.Full clock)
    (calls : List (ℕ × ℤ)) (hunits : ∀ c ∈ calls, 1 ≤ c.2 ∧ c.2 ≤ r.rqs) :
    r.answers clock calls = (InMemoryBackendLimiter.new r.rqs clock).answers clock calls ∧
      (r.answers clock calls).length = calls.length ∧
      ∀ a ∈ r.answers clock calls, a = none ∨ a = some .limitReached := by
  have heq := (SameBucket.start hrqs hfull).answers hunits
  refine ⟨heq, ?_, fun a ha => ?_⟩
  · rw [heq, InMemoryBackendLimiter.length_answers]
  · rw [heq] at ha
    exact InMemoryBackendLimiter.mem_answers ha

/-- Two units of two are taken, then one is refused, and granted half a second later. -/
theorem backends_agree_sample :
    (⟨2, ⟨none, none, 0⟩⟩ : RedisRateLimiter).answers 7
      [(0, 2), (0, 1), (250000000, 1), (250000000, 1)] =
        (InMemoryBackendLimiter.new 2 7).answers 7
          [(0, 2), (0, 1), (250000000, 1), (250000000, 1)] ∧
    (InMemoryBackendLimiter.new 2 7).answers 7 [(0, 2), (0, 1), (250000000, 1), (250000000, 1)] =
      [none, some .limitReached, some .limitReached, none] :=
  ⟨(backends_agree ⟨2, ⟨none, none, 0⟩⟩ 7 (by decide) ⟨rfl, by simp⟩ _ (by decide)).1,
    by decide +kernel⟩

end Bucket

end RateLimit
