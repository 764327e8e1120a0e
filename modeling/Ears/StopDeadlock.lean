/-
# Stopping a batching sender (`pkg/plugins/sqs/sender.go`, `pkg/plugins/kinesis/sender.go`)

`StopSending` takes the mutex of the sender and then sends on the unbuffered channel `done`,
where the timer goroutine receives in its `select`.  When the timer goroutine is past its
`select` at that moment and on its way to the mutex, each of the two waits for the other.

`deadlock_free_iff`: a run stays clear of such a state exactly when the timer does not tick, and the
timer goroutine comes to no further log call, while `StopSending` waits on `done`, and
`StopSending` does not come to `done` while the timer goroutine waits for the mutex.
`deadlocked_of_run`: otherwise the two wait for good.
-/
import Ears.BatchSenders

namespace BatchSender

namespace Sender

variable {E ρ : Type} {cfg : SenderConfig E ρ} {s s' t : Sender E} {a b : Actor}
  {act : Action E ρ} {i : ℕ}

/-! ## The mutex -/

/-- The goroutine is in a section that the mutex protects. -/
def holds (s : Sender E) : Actor → Bool
  | .timer => s.timer.holds
  | .send i => (s.sends i).holds
  | .stop i => (s.stops i).holds

/-- Whoever is in a protected section has the mutex. -/
def Exclusive (s : Sender E) : Prop := ∀ a, s.holds a = true → s.mutex = some a

/-- What a step does with the mutex: one goroutine takes it, gives it back, or moves without
touching it. -/
structure Moves (s s' : Sender E) (a : Actor) : Prop where
  others : ∀ b, b ≠ a → s'.holds b = s.holds b
  mutex : s'.mutex = s.mutex ∧ s'.holds a = s.holds a ∨
    s.mutex = none ∧ s'.mutex = some a ∨
    s.holds a = true ∧ s'.holds a = false ∧ s'.mutex = none

theorem exclusive_start : Exclusive (start : Sender E) := by
  intro a ha
  cases a <;> simp [holds, start, TimerPhase.holds, SendPhase.holds, StopPhase.holds] at ha

/-- The step lemma of mutual exclusion. -/
theorem Exclusive.moves (h : Exclusive s) (hm : Moves s s' a) : Exclusive s' := by
  intro b hb
  rcases hm.mutex with ⟨hmutex, hsame⟩ | ⟨hfree, htaken⟩ | ⟨hheld, hleft, -⟩
  · rw [hmutex]
    refine h b ?_
    by_cases hba : b = a
    · rw [hba, ← hsame, ← hba, hb]
    · rw [← hm.others b hba, hb]
  · by_cases hba : b = a
    · rw [hba, htaken]
    · -- nobody else was in a protected section
      have hbs := h b (by rw [← hm.others b hba, hb])
      rw [hfree] at hbs
      cases hbs
  · by_cases hba : b = a
    · rw [hba, hleft] at hb
      cases hb
    · have hbs := h b (by rw [← hm.others b hba, hb])
      rw [h a hheld] at hbs
      exact absurd (Option.some.inj hbs).symm hba

/-- Who is in a protected section depends on the goroutines only. -/
theorem holds_congr (htimer : s'.timer = s.timer) (hsends : s'.sends = s.sends)
    (hstops : s'.stops = s.stops) (b : Actor) : s'.holds b = s.holds b := by
  unfold holds
  rw [htimer, hsends, hstops]

theorem holds_setTimer {p : TimerPhase} (h : b ≠ .timer) : (s.setTimer p).holds b = s.holds b := by
  cases b with
  | timer => exact absurd rfl h
  | send j => rfl
  | stop j => rfl

theorem holds_setSend {p : SendPhase E} (h : b ≠ .send i) :
    (s.setSend i p).holds b = s.holds b := by
  cases b with
  | timer => rfl
  | send j =>
      have hj : j ≠ i := fun hj => h (by rw [hj])
      unfold holds
      dsimp only
      rw [setSend_of_ne hj]
  | stop j => rfl

theorem holds_setStop {p : StopPhase} (h : b ≠ .stop i) : (s.setStop i p).holds b = s.holds b := by
  cases b with
  | timer => rfl
  | send j => rfl
  | stop j =>
      have hj : j ≠ i := fun hj => h (by rw [hj])
      unfold holds
      dsimp only
      rw [setStop_of_ne hj]

@[simp] theorem holds_setSend_self (p : SendPhase E) :
    (s.setSend i p).holds (.send i) = p.holds := by
  unfold holds
  dsimp only
  rw [setSend_self]

@[simp] theorem holds_setStop_self (p : StopPhase) : (s.setStop i p).holds (.stop i) = p.holds := by
  unfold holds
  dsimp only
  rw [setStop_self]

theorem holds_locked {p q : Sending} (h : p.locked = some q) : q.holds = true ∧ q.atLock = false := by
  unfold Sending.locked at h
  split at h
  · split at h
    · obtain rfl := Option.some.inj h
      exact ⟨rfl, rfl⟩
    · cases h
  · obtain rfl := Option.some.inj h
    exact ⟨rfl, rfl⟩
  · cases h

theorem holds_unlocked {p q : Sending} {writes : Bool} (h : p.unlocked writes = some q) :
    p.holds = true ∧ q.holds = false := by
  unfold Sending.unlocked at h
  split at h
  · obtain rfl := Option.some.inj h
    cases writes <;> exact ⟨rfl, rfl⟩
  · obtain rfl := Option.some.inj h
    exact ⟨rfl, rfl⟩
  · cases h

theorem holds_settled {p q : Sending} (h : p.settled = some q) :
    p.holds = false ∧ q.holds = false := by
  unfold Sending.settled at h
  split at h
  · obtain rfl := Option.some.inj h
    exact ⟨rfl, rfl⟩
  · obtain rfl := Option.some.inj h
    exact ⟨rfl, rfl⟩
  · cases h

theorem holds_timer {p : TimerPhase} (h : s.timer = p) : s.holds .timer = p.holds := by
  rw [← h]
  rfl

theorem holds_send {p : SendPhase E} (h : s.sends i = p) : s.holds (.send i) = p.holds := by
  rw [← h]
  rfl

theorem holds_stop {p : StopPhase} (h : s.stops i = p) : s.holds (.stop i) = p.holds := by
  rw [← h]
  rfl

/-! A goroutine that moves leaves the others where they are. -/

theorem moves_setTimer {p : TimerPhase} (h : p.holds = s.timer.holds) :
    Moves s (s.setTimer p) .timer :=
  ⟨fun _ hb => holds_setTimer hb, Or.inl ⟨rfl, h⟩⟩

theorem moves_setSend {p : SendPhase E} (h : p.holds = (s.sends i).holds) :
    Moves s (s.setSend i p) (.send i) :=
  ⟨fun _ hb => holds_setSend hb, Or.inl ⟨rfl, (holds_setSend_self p).trans h⟩⟩

theorem moves_setStop {p : StopPhase} (h : p.holds = (s.stops i).holds) :
    Moves s (s.setStop i p) (.stop i) :=
  ⟨fun _ hb => holds_setStop hb, Or.inl ⟨rfl, (holds_setStop_self p).trans h⟩⟩

/-- A goroutine that takes the mutex. -/
theorem moves_take (hothers : ∀ b, b ≠ a → t.holds b = s.holds b) (hfree : s.mutex = none) :
    Moves s (t.setMutex (some a)) a :=
  ⟨fun b hb => (holds_congr (s := t) rfl rfl rfl b).trans (hothers b hb),
    Or.inr (Or.inl ⟨hfree, rfl⟩)⟩

/-- A goroutine that leaves a protected section gives the mutex back. -/
theorem moves_give (hothers : ∀ b, b ≠ a → s'.holds b = s.holds b) (hheld : s.holds a = true)
    (hleft : s'.holds a = false) (hfree : s'.mutex = none) : Moves s s' a :=
  ⟨hothers, Or.inr (Or.inr ⟨hheld, hleft, hfree⟩)⟩

theorem moves_release (hothers : ∀ b, b ≠ a → t.holds b = s.holds b) (hheld : s.holds a = true)
    (hleft : t.holds a = false) : Moves s (t.setMutex none) a :=
  moves_give (fun b hb => (holds_congr (s := t) rfl rfl rfl b).trans (hothers b hb)) hheld
    ((holds_congr (s := t) rfl rfl rfl a).trans hleft) rfl

theorem moves_swapBatch (hswap : s.timer = .swap) (answer : ρ) :
    Moves s (s.swapBatch cfg answer) .timer := by
  have hheld : s.holds .timer = true := holds_timer hswap
  unfold swapBatch
  dsimp only
  split
  · exact moves_give (fun b hb => (holds_setTimer hb).trans (holds_congr rfl rfl rfl b)) hheld rfl rfl
  · exact moves_give (fun b hb => (holds_setTimer hb).trans (holds_congr rfl rfl rfl b)) hheld rfl rfl

theorem moves_appendEvent {e : E} (happend : s.sends i = .append e) (answer : ρ) :
    Moves s (s.appendEvent cfg i e answer) (.send i) := by
  have hheld : s.holds (.send i) = true := holds_send happend
  unfold appendEvent
  dsimp only
  split
  · exact moves_give (fun b hb => (holds_setSend hb).trans (holds_congr rfl rfl rfl b)) hheld
      (holds_setSend_self _) rfl
  · exact moves_give (fun b hb => (holds_setSend hb).trans (holds_congr rfl rfl rfl b)) hheld
      (holds_setSend_self _) rfl

/-- Every step is a move of one goroutine. -/
theorem step_moves (hs : step cfg s act = some s') : ∃ a, Moves s s' a := by
  cases step_cases hs with
  | callSend i e hidle => exact ⟨_, moves_setSend (by rw [hidle]; rfl)⟩
  | callStop i hidle => exact ⟨_, moves_setStop (by rw [hidle]; rfl)⟩
  | tick hselect => exact ⟨_, moves_setTimer (by rw [hselect]; rfl)⟩
  | lockTimer hfree hlocked => exact ⟨_, moves_take (fun _ hb => holds_setTimer hb) hfree⟩
  | lockSend hfree hlocked => exact ⟨_, moves_take (fun _ hb => holds_setSend hb) hfree⟩
  | lockStop hfree hlock => exact ⟨_, moves_take (fun _ hb => holds_setStop hb) hfree⟩
  | swap answer hswap => exact ⟨_, moves_swapBatch hswap answer⟩
  | append answer happend => exact ⟨_, moves_appendEvent happend answer⟩
  | unlockTimer htimer hunlocked =>
      obtain ⟨hheld, hleft⟩ := holds_unlocked hunlocked
      exact ⟨_, moves_release (fun _ hb => holds_setTimer hb) ((holds_timer htimer).trans hheld) hleft⟩
  | unlockSend hsend hunlocked =>
      obtain ⟨hheld, hleft⟩ := holds_unlocked hunlocked
      exact ⟨_, moves_release (fun _ hb => holds_setSend hb) ((holds_send hsend).trans hheld)
        ((holds_setSend_self _).trans hleft)⟩
  | settleTimer htimer hsettled =>
      obtain ⟨hbefore, hafter⟩ := holds_settled hsettled
      exact ⟨_, moves_setTimer (by rw [htimer]; exact hafter.trans hbefore.symm)⟩
  | settleSend hsend hsettled =>
      obtain ⟨hbefore, hafter⟩ := holds_settled hsettled
      exact ⟨_, moves_setSend (by rw [hsend]; exact hafter.trans hbefore.symm)⟩
  | finishTimer htimer => exact ⟨_, moves_setTimer (by rw [htimer]; rfl)⟩
  | finishSend hsend => exact ⟨_, moves_setSend (by rw [hsend]; rfl)⟩
  | stop hstop hdone => exact ⟨_, moves_setStop (by rw [hstop]; rfl)⟩
  | gone hstop hdone =>
      exact ⟨_, moves_release (fun _ hb => holds_setStop hb) (holds_stop hstop)
        (holds_setStop_self _)⟩
  | @signal i hsignal hselect =>
      -- two goroutines move, and neither of them gives the mutex to the other
      refine ⟨.stop i, fun b hb => ?_, Or.inl ⟨rfl, ?_⟩⟩
      · cases b with
        | timer => exact (holds_timer hselect).symm
        | send j => rfl
        | stop j => exact holds_setStop hb
      · exact (holds_setStop_self (s := s) _).trans (holds_stop hsignal).symm
  | @endStop i hsignalled =>
      exact ⟨_, moves_release (t := { s.setStop i .returned with done := false })
        (fun b hb => (holds_congr (s := s.setStop i .returned) rfl rfl rfl b).trans
          (holds_setStop hb)) (holds_stop hsignalled) (holds_setStop_self (s := s) _)⟩

theorem Exclusive.step (h : Exclusive s) (hs : step cfg s act = some s') : Exclusive s' := by
  obtain ⟨a, hm⟩ := step_moves hs
  exact h.moves hm

/-! ## What a step does to the two goroutines -/

/-- The steps of a call of `StopSending`. -/
inductive StopMove (s : Sender E) (i : ℕ) : Action E ρ → StopPhase → StopPhase → Prop where
  | call : StopMove s i (.callStop i) .idle .lock
  | lock : StopMove s i (.lock (.stop i)) .lock .stop
  | stop (h : s.done = true) : StopMove s i (.stop i) .stop .signal
  | gone (h : s.done = false) : StopMove s i (.stop i) .stop .returned
  | signal (h : s.timer = .select) : StopMove s i (.signal i) .signal .signalled
  | endStop : StopMove s i (.endStop i) .signalled .returned

/-- The steps of the timer goroutine. -/
inductive TimerMove (s : Sender E) : Action E ρ → TimerPhase → TimerPhase → Prop where
  | tick : TimerMove s .tick .select .lock
  | lock {p q : TimerPhase} (hfree : s.mutex = none) (h : p.locked = some q) :
      TimerMove s (.lock .timer) p q
  | swap {q : TimerPhase} (answer : ρ) : TimerMove s (.swap answer) .swap q
  | unlock {p q : Sending} {writes : Bool} (h : p.unlocked writes = some q) :
      TimerMove s (.unlock .timer writes) (.send p) (.send q)
  | settle {p q : Sending} (h : p.settled = some q) :
      TimerMove s (.settle .timer) (.send p) (.send q)
  | finish : TimerMove s (.finish .timer) (.send (.next [])) .select
  | signal (i : ℕ) : TimerMove s (.signal i) .select .returned

/-- A call of `StopSending` that is moved. -/
theorem stopMove_setStop {j : ℕ} {p : StopPhase} (h : StopMove s j act (s.stops j) p) :
    (s.setStop j p).stops i = s.stops i ∨
      StopMove s i act (s.stops i) ((s.setStop j p).stops i) := by
  by_cases hij : i = j
  · rw [hij, setStop_self]
    exact Or.inr h
  · exact Or.inl (setStop_of_ne hij p)

theorem stops_swapBatch (answer : ρ) : (s.swapBatch cfg answer).stops = s.stops := by
  unfold swapBatch
  dsimp only
  split <;> rfl

theorem stops_appendEvent (e : E) (answer : ρ) :
    (s.appendEvent cfg i e answer).stops = s.stops := by
  unfold appendEvent
  dsimp only
  split <;> rfl

theorem timer_appendEvent (e : E) (answer : ρ) :
    (s.appendEvent cfg i e answer).timer = s.timer := by
  unfold appendEvent
  dsimp only
  split <;> rfl

/-- A step leaves a call of `StopSending` where it is, or moves it. -/
theorem stops_of_step (hs : step cfg s act = some s') (i : ℕ) :
    s'.stops i = s.stops i ∨ StopMove s i act (s.stops i) (s'.stops i) := by
  cases step_cases hs with
  | callStop j hidle => exact stopMove_setStop (hidle ▸ .call)
  | lockStop hfree hlock => exact stopMove_setStop (hlock ▸ .lock)
  | stop hstop hdone => exact stopMove_setStop (hstop ▸ .stop hdone)
  | gone hstop hdone => exact stopMove_setStop (hstop ▸ .gone hdone)
  | signal hsignal hselect => exact stopMove_setStop (hsignal ▸ .signal hselect)
  | endStop hsignalled => exact stopMove_setStop (hsignalled ▸ .endStop)
  | swap answer hswap => exact Or.inl (congrFun (stops_swapBatch answer) i)
  | append answer happend => exact Or.inl (congrFun (stops_appendEvent _ answer) i)
  | _ => exact Or.inl rfl

/-- A step leaves the timer goroutine where it is, or moves it. -/
theorem timer_of_step (hs : step cfg s act = some s') :
    s'.timer = s.timer ∨ TimerMove s act s.timer s'.timer := by
  cases step_cases hs with
  | tick hselect => exact Or.inr (hselect ▸ .tick)
  | lockTimer hfree hlocked => exact Or.inr (.lock hfree hlocked)
  | swap answer hswap => exact Or.inr (hswap ▸ .swap answer)
  | unlockTimer htimer hunlocked => exact Or.inr (htimer ▸ .unlock hunlocked)
  | settleTimer htimer hsettled => exact Or.inr (htimer ▸ .settle hsettled)
  | finishTimer htimer => exact Or.inr (htimer ▸ .finish)
  | signal hsignal hselect => exact Or.inr (hselect ▸ .signal _)
  | append answer happend => exact Or.inl (timer_appendEvent _ answer)
  | _ => exact Or.inl rfl

/-! ## Deadlock -/

/-- `StopSending` waits to send on `done` with the mutex in its hands, and the timer goroutine waits
for the mutex. -/
def Deadlocked (s : Sender E) : Prop :=
  ∃ i, s.stops i = .signal ∧ s.mutex = some (.stop i) ∧ s.timer.atLock = true

/-- No tick, and no further log call in the timer goroutine, while `StopSending` waits on `done`,
and `StopSending` does not come there while the timer goroutine waits for the mutex. -/
def Apart (s : Sender E) : Action E ρ → Prop
  | .tick => s.timer = .select → ∀ i, s.stops i ≠ .signal
  | .stop i => s.stops i = .stop → s.done = true → s.timer.atLock = false
  | .settle .timer => ∀ p q, s.timer = .send p → p.settled = some q → q.atLock = true →
      ∀ i, s.stops i ≠ .signal
  | _ => True

/-- Only one step brings a call of `StopSending` to `done`. -/
theorem StopMove.to_signal {p q : StopPhase} (h : StopMove s i act p q) (hq : q = .signal) :
    act = .stop i ∧ p = .stop ∧ s.done = true := by
  cases h with
  | stop hdone => exact ⟨rfl, rfl, hdone⟩
  | _ => cases hq

/-- Only one step brings a call of `StopSending` beyond `done`. -/
theorem StopMove.from_signal {p q : StopPhase} (h : StopMove s i act p q) (hp : p = .signal) :
    s.timer = .select := by
  cases h with
  | signal hselect => exact hselect
  | _ => cases hp

theorem not_atLock_locked {p q : TimerPhase} (h : p.locked = some q) : q.atLock = false := by
  unfold TimerPhase.locked at h
  split at h
  · obtain rfl := Option.some.inj h
    rfl
  · obtain ⟨r, hr, rfl⟩ := Option.map_eq_some_iff.mp h
    exact (holds_locked hr).2
  · cases h

/-- The timer goroutine comes to the mutex by a tick, by an ack or nack before a log call, or from
a section that it has locked. -/
theorem TimerMove.to_lock {p q : TimerPhase} (h : TimerMove s act p q) (hq : q.atLock = true) :
    p.holds = true ∨ act = .tick ∧ p = .select ∨
      act = .settle .timer ∧ ∃ u v, p = .send u ∧ u.settled = some v ∧ v.atLock = true := by
  cases h with
  | tick => exact Or.inr (Or.inl ⟨rfl, rfl⟩)
  | lock hfree hlocked =>
      rw [not_atLock_locked hlocked] at hq
      cases hq
  | swap answer => exact Or.inl rfl
  | unlock hunlocked => exact Or.inl (holds_unlocked hunlocked).1
  | settle hsettled => exact Or.inr (Or.inr ⟨rfl, _, _, rfl, hsettled, hq⟩)
  | finish => cases hq
  | signal i => cases hq

/-- The timer goroutine leaves the mutex by taking it. -/
theorem TimerMove.from_lock {p q : TimerPhase} (h : TimerMove s act p q) (hp : p.atLock = true) :
    s.mutex = none := by
  cases h with
  | lock hfree hlocked => exact hfree
  | @unlock u v writes hunlocked =>
      unfold Sending.unlocked at hunlocked
      split at hunlocked
      · cases hp
      · cases hp
      · cases hunlocked
  | @settle u v hsettled =>
      unfold Sending.settled at hsettled
      split at hsettled
      · cases hp
      · cases hp
      · cases hsettled
  | _ => cases hp

/-- Who waits on `done` has the mutex. -/
theorem Exclusive.signal (h : Exclusive s) (hi : s.stops i = .signal) :
    s.mutex = some (.stop i) := h (.stop i) (by simp [holds, hi, StopPhase.holds])

/-- The step lemma: what keeps apart does not deadlock. -/
theorem not_deadlocked_step (h : Exclusive s) (hd : ¬ Deadlocked s) (hapart : Apart s act)
    (hs : step cfg s act = some s') : ¬ Deadlocked s' := by
  rintro ⟨i, hi, -, htimer⟩
  rcases stops_of_step hs i with hsame | hmove
  · rw [hsame] at hi
    rcases timer_of_step hs with hstill | hmove
    · exact hd ⟨i, hi, h.signal hi, hstill ▸ htimer⟩
    · rcases hmove.to_lock htimer with hholds | ⟨rfl, hselect⟩ | ⟨rfl, p, q, hp, hpq, hq⟩
      · -- one mutex, two holders
        have htwo := (h .timer hholds).symm.trans (h.signal hi)
        cases htwo
      · exact hapart hselect i hi
      · exact hapart p q hp hpq hq i hi
  · -- `StopSending` comes to `done`, and the timer goroutine stays where it is
    obtain ⟨rfl, hstop, hdone⟩ := hmove.to_signal hi
    rcases timer_of_step hs with hstill | hmove
    · rw [hstill, hapart hstop hdone] at htimer
      cases htimer
    · cases hmove

/-- The converse of the step lemma. -/
theorem apart_of_step (h : Exclusive s) (hs : step cfg s act = some s') (hd : ¬ Deadlocked s') :
    Apart s act := by
  have h' := h.step hs
  cases act with
  | tick =>
      intro hselect i hi
      unfold step at hs
      dsimp only at hs
      rw [hselect] at hs
      obtain rfl := Option.some.inj hs
      exact hd ⟨i, hi, h.signal hi, rfl⟩
  | stop i =>
      intro hstop hdone
      unfold step at hs
      dsimp only at hs
      rw [hstop, hdone] at hs
      obtain rfl := Option.some.inj hs
      refine Bool.eq_false_iff.mpr fun hlock => hd ⟨i, setStop_self _, ?_, hlock⟩
      exact h'.signal (setStop_self _)
  | settle a =>
      cases a with
      | timer =>
          intro p q hp hpq hq i hi
          have hsending : s.sending .timer = some p := by
            unfold sending
            dsimp only
            rw [hp]
          unfold step at hs
          dsimp only at hs
          rw [hsending, Option.bind_some, hpq] at hs
          obtain rfl := Option.some.inj hs
          exact hd ⟨i, hi, h.signal hi, hq⟩
      | send j => trivial
      | stop j => trivial
  | _ => trivial

/-- A step that cannot be taken. -/
theorem apart_of_step_eq_none (hs : step cfg s act = none) : Apart s act := by
  cases act with
  | tick =>
      intro hselect
      unfold step at hs
      dsimp only at hs
      rw [hselect] at hs
      cases hs
  | stop i =>
      intro hstop hdone
      unfold step at hs
      dsimp only at hs
      rw [hstop, hdone] at hs
      cases hs
  | settle a =>
      cases a with
      | timer =>
          intro p q hp hpq
          have hsending : s.sending .timer = some p := by
            unfold sending
            dsimp only
            rw [hp]
          unfold step at hs
          dsimp only at hs
          rw [hsending, Option.bind_some, hpq] at hs
          cases hs
      | send j => trivial
      | stop j => trivial
  | _ => trivial

/-! ## Whole runs -/

/-- **A run does not come to a deadlock** exactly when all its steps keep the timer goroutine and
`StopSending` apart. -/
theorem deadlock_free_iff (cfg : SenderConfig E ρ) (acts : List (Action E ρ)) :
    (∀ bs, bs <+: acts → ∀ s, Runs.run (step cfg) start bs = some s → ¬ Deadlocked s) ↔
      Runs.Along (step cfg) Apart start acts := by
  refine Runs.always_iff_along (P := fun s => Exclusive s ∧ ¬ Deadlocked s)
    (fun s h => h.2) ?_ ?_ (fun s a => apart_of_step_eq_none) ⟨exclusive_start, ?_⟩
  · rintro s a s' ⟨h, hd⟩ hapart hs
    exact ⟨h.step hs, not_deadlocked_step h hd hapart hs⟩
  · rintro s a s' ⟨h, -⟩ hs hd
    exact apart_of_step h hs hd
  · rintro ⟨i, hi, -⟩
    cases hi

/-- The timer goroutine and `StopSending` do not get out of a deadlock. -/
theorem Deadlocked.step (h : Exclusive s) (hd : Deadlocked s) (hs : step cfg s act = some s') :
    Deadlocked s' := by
  obtain ⟨i, hi, hmutex, htimer⟩ := hd
  have hi' : s'.stops i = .signal := by
    rcases stops_of_step hs i with hsame | hmove
    · rw [hsame, hi]
    · rw [hmove.from_signal hi] at htimer
      cases htimer
  refine ⟨i, hi', (h.step hs).signal hi', ?_⟩
  rcases timer_of_step hs with hstill | hmove
  · rw [hstill, htimer]
  · rw [hmove.from_lock htimer] at hmutex
    cases hmutex

/-- A deadlock lasts for the rest of the run. -/
theorem deadlocked_of_run {acts : List (Action E ρ)} (h : Exclusive s) (hd : Deadlocked s)
    (hrun : Runs.run (step cfg) s acts = some s') : Deadlocked s' :=
  (Runs.run_induction (P := fun s => Exclusive s ∧ Deadlocked s)
    (fun _ _ _ h hs => ⟨h.1.step hs, h.2.step h.1 hs⟩) ⟨h, hd⟩ hrun).2

/-- A tick just before `StopSending`. -/
def tickBeforeStop : List (Action E ρ) := [.tick, .callStop 0, .lock (.stop 0), .stop 0]

/-- Both senders come to a deadlock. -/
theorem stop_deadlocks :
    (∃ s : Sender (Event Unit),
      Runs.run (step (sqsSender 10 (by decide) ⟨0⟩ Sqs.sampleMarshal)) start tickBeforeStop =
        some s ∧ Deadlocked s) ∧
    ∃ s : Sender (Event Unit),
      Runs.run (step (kinesisSender 10 (by decide) ⟨"", ""⟩ Sqs.sampleMarshal fun _ _ => none))
        start tickBeforeStop = some s ∧ Deadlocked s :=
  ⟨⟨_, rfl, 0, rfl, rfl, rfl⟩, ⟨_, rfl, 0, rfl, rfl, rfl⟩⟩

end Sender

end BatchSender
