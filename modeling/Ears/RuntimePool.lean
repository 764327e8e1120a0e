/-
# The pool of script runtimes (`getRuntime` and `Exec` of `pkg/filter/js/goja.go`)

A call of `Exec` takes a runtime from the channel `runtimePool`.  When that is empty it locks the
interpreter and puts a new runtime there, as long as there are fewer than `maxRuntimes`; otherwise
it unlocks and waits for a runtime on the channel.  After the script the runtime goes back, unless
it has expired: then only `runtimeCount` goes down.

A step is what a call does between two points where another call can come in between.  Of a
runtime only the time at which it expires is modelled.  Looking up and compiling the script come
before, and do not touch the pool.

`sound_iff`: the runtimes are always counted right while the lock is free, but a call that has
turned to waiting is left without any runtime when the last one expires.
-/
import Ears.JsInterpreter

namespace RuntimePool

/-- Where a call stands: at the `select`, before and in the locked section of `getRuntime`, after it
has put a new runtime into the pool, at the blocking receive, with a runtime, and, at the end of
`Exec`, before the lock and in the locked section with an expired runtime, or before putting the
runtime back. -/
inductive Phase where
  | polling
  | locking
  | locked
  | pushed
  | receiving
  | executing (expiresAt : ℕ)
  | dropping
  | dropLocked
  | returning (expiresAt : ℕ)
  | ended
  deriving DecidableEq, Repr

namespace Phase

/-- It has a runtime. -/
def inUse : Phase → Bool
  | executing _ => true
  | dropping => true
  | dropLocked => true
  | returning _ => true
  | _ => false

/-- It holds the lock. -/
def holds : Phase → Bool
  | locked => true
  | pushed => true
  | dropLocked => true
  | _ => false

end Phase

/-- An interpreter with the calls in it; the pool is a channel with room for `maxRuntimes`. -/
structure Interpreter where
  maxRuntimes : ℕ
  runtimePool : List ℕ
  runtimeCount : ℤ
  lock : Option ℕ
  calls : List Phase
  deriving DecidableEq

/-- `NewInterpreter(WithMaxRuntimes(n))`. -/
def newInterpreter (n : ℕ) : Interpreter := ⟨n, [], 0, none, []⟩

/-- The steps of the calls, with the clock where they read it. -/
inductive Action where
  | exec
  | poll (i : ℕ)
  | lock (i : ℕ)
  | grow (i : ℕ) (now : ℕ)
  | count (i : ℕ)
  | receive (i : ℕ)
  | finish (i : ℕ) (now : ℕ)
  | drop (i : ℕ)
  | put (i : ℕ)
  deriving DecidableEq, Repr

namespace Interpreter

/-- Move a call. -/
def move (s : Interpreter) (i : ℕ) (p : Phase) : Interpreter :=
  { s with calls := s.calls.set i p }

/-- One step. -/
def step (s : Interpreter) : Action → Option Interpreter
  | .exec => some { s with calls := s.calls ++ [.polling] }
  | .poll i =>
      match s.calls[i]? with
      | some .polling =>
          match s.runtimePool with
          | rt :: rest => some ({ s with runtimePool := rest }.move i (.executing rt))
          | [] => some (s.move i .locking)
      | _ => none
  | .lock i =>
      match s.lock with
      | some _ => none
      | none =>
          match s.calls[i]? with
          | some .locking => some ({ s with lock := some i }.move i .locked)
          | some .dropping => some ({ s with lock := some i }.move i .dropLocked)
          | _ => none
  | .grow i now =>
      match s.calls[i]? with
      | some .locked =>
          if s.runtimeCount < s.maxRuntimes then
            -- the send waits while the channel is full
            if s.runtimePool.length < s.maxRuntimes then
              some ({ s with runtimePool := s.runtimePool ++ [now + Js.runtimeTTL] }.move i .pushed)
            else none
          else some ({ s with lock := none }.move i .receiving)
      | _ => none
  | .count i =>
      match s.calls[i]? with
      | some .pushed =>
          some ({ s with runtimeCount := s.runtimeCount + 1, lock := none }.move i .polling)
      | _ => none
  | .receive i =>
      match s.calls[i]? with
      | some .receiving =>
          match s.runtimePool with
          | rt :: rest => some ({ s with runtimePool := rest }.move i (.executing rt))
          | [] => none
      | _ => none
  | .finish i now =>
      match s.calls[i]? with
      | some (.executing expiresAt) =>
          if expiresAt < now then some (s.move i .dropping)
          else some (s.move i (.returning expiresAt))
      | _ => none
  | .drop i =>
      match s.calls[i]? with
      | some .dropLocked =>
          some ({ s with runtimeCount := s.runtimeCount - 1, lock := none }.move i .ended)
      | _ => none
  | .put i =>
      match s.calls[i]? with
      | some (.returning expiresAt) =>
          if s.runtimePool.length < s.maxRuntimes then
            some ({ s with runtimePool := s.runtimePool ++ [expiresAt] }.move i .ended)
          else none
      | _ => none

/-! ## The property -/

/-- The runtimes in use. -/
def inUse (s : Interpreter) : ℕ := s.calls.countP Phase.inUse

/-- The runtimes in use and in the pool. -/
def total (s : Interpreter) : ℕ := s.inUse + s.runtimePool.length

/-- The call is blocked receiving from the pool. -/
def Blocked (s : Interpreter) (i : ℕ) : Prop :=
  s.calls[i]? = some .receiving ∧ s.runtimePool = []

/-- While the lock is free the runtimes are counted, and there are not too many; when a call is
blocked there is a runtime. -/
structure Sound (s : Interpreter) : Prop where
  counted : s.lock = none → (s.total : ℤ) = s.runtimeCount ∧ s.runtimeCount ≤ s.maxRuntimes
  wakeable : ∀ i, s.Blocked i → 0 < s.total

/-- The last counted runtime is not dropped while a call is waiting for one. -/
def KeepsOne (s : Interpreter) : Action → Prop
  | .drop i => s.calls[i]? = some .dropLocked → s.runtimeCount = 1 →
      ∀ j : ℕ, s.calls[j]? ≠ some Phase.receiving
  | _ => True

/-- The runtimes that are in the pool and not counted yet. -/
def uncounted (s : Interpreter) : ℕ := s.calls.countP (· = .pushed)

/-- The lock is held by the call in a locked section, and a runtime that was put into the pool is
counted before the lock is free again. -/
structure Inv (s : Interpreter) : Prop where
  positive : 0 < s.maxRuntimes
  lock : ∀ i p, s.calls[i]? = some p → p.holds = true → s.lock = some i
  counted : (s.total : ℤ) = s.runtimeCount + s.uncounted
  bound : s.runtimeCount + s.uncounted ≤ s.maxRuntimes

variable {s s' t : Interpreter} {a : Action} {i : ℕ} {p q : Phase}

/-! ## What a step can do -/

/-- A step of one call: where it stands before and after, and what becomes of the rest. -/
inductive Turn (s : Interpreter) (i : ℕ) : Action → Phase → Phase → Interpreter → Prop where
  | take {rt : ℕ} {rest : List ℕ} (h : s.runtimePool = rt :: rest) :
      Turn s i (.poll i) .polling (.executing rt) { s with runtimePool := rest }
  | miss (h : s.runtimePool = []) : Turn s i (.poll i) .polling .locking s
  | lock (h : s.lock = none) : Turn s i (.lock i) .locking .locked { s with lock := some i }
  | lockDrop (h : s.lock = none) :
      Turn s i (.lock i) .dropping .dropLocked { s with lock := some i }
  | push (now : ℕ) (h : s.runtimeCount < s.maxRuntimes) :
      Turn s i (.grow i now) .locked .pushed
        { s with runtimePool := s.runtimePool ++ [now + Js.runtimeTTL] }
  | full (now : ℕ) (h : s.maxRuntimes ≤ s.runtimeCount) :
      Turn s i (.grow i now) .locked .receiving { s with lock := none }
  | count : Turn s i (.count i) .pushed .polling
      { s with runtimeCount := s.runtimeCount + 1, lock := none }
  | receive {rt : ℕ} {rest : List ℕ} (h : s.runtimePool = rt :: rest) :
      Turn s i (.receive i) .receiving (.executing rt) { s with runtimePool := rest }
  | expired (expiresAt now : ℕ) : Turn s i (.finish i now) (.executing expiresAt) .dropping s
  | kept (expiresAt now : ℕ) :
      Turn s i (.finish i now) (.executing expiresAt) (.returning expiresAt) s
  | drop : Turn s i (.drop i) .dropLocked .ended
      { s with runtimeCount := s.runtimeCount - 1, lock := none }
  | put (expiresAt : ℕ) : Turn s i (.put i) (.returning expiresAt) .ended
      { s with runtimePool := s.runtimePool ++ [expiresAt] }

/-- A step is a new call, or a turn of one call. -/
theorem step_cases (hs : step s a = some s') :
    (a = .exec ∧ s' = { s with calls := s.calls ++ [.polling] }) ∨
      ∃ i p q t, s.calls[i]? = some p ∧ Turn s i a p q t ∧ s' = t.move i q := by
  unfold step at hs
  cases a with
  | exec => exact Or.inl ⟨rfl, (Option.some.inj hs).symm⟩
  | poll i =>
      dsimp only at hs
      split at hs
      · rename_i hp
        split at hs
        · rename_i hpool
          exact Or.inr ⟨i, _, _, _, hp, .take hpool, (Option.some.inj hs).symm⟩
        · rename_i hpool
          exact Or.inr ⟨i, _, _, _, hp, .miss hpool, (Option.some.inj hs).symm⟩
      · cases hs
  | lock i =>
      dsimp only at hs
      split at hs
      · cases hs
      · rename_i hfree
        split at hs
        · rename_i hp
          exact Or.inr ⟨i, _, _, _, hp, .lock hfree, (Option.some.inj hs).symm⟩
        · rename_i hp
          exact Or.inr ⟨i, _, _, _, hp, .lockDrop hfree, (Option.some.inj hs).symm⟩
        · cases hs
  | grow i now =>
      dsimp only at hs
      split at hs
      · rename_i hp
        split at hs
        · rename_i hcount
          split at hs
          · exact Or.inr ⟨i, _, _, _, hp, .push now hcount, (Option.some.inj hs).symm⟩
          · cases hs
        · rename_i hcount
          exact Or.inr ⟨i, _, _, _, hp, .full now (not_lt.mp hcount), (Option.some.inj hs).symm⟩
      · cases hs
  | count i =>
      dsimp only at hs
      split at hs
      · rename_i hp
        exact Or.inr ⟨i, _, _, _, hp, .count, (Option.some.inj hs).symm⟩
      · cases hs
  | receive i =>
      dsimp only at hs
      split at hs
      · rename_i hp
        split at hs
        · rename_i hpool
          exact Or.inr ⟨i, _, _, _, hp, .receive hpool, (Option.some.inj hs).symm⟩
        · cases hs
      · cases hs
  | finish i now =>
      dsimp only at hs
      split at hs
      · rename_i expiresAt hp
        split at hs
        · exact Or.inr ⟨i, _, _, _, hp, .expired expiresAt now, (Option.some.inj hs).symm⟩
        · exact Or.inr ⟨i, _, _, _, hp, .kept expiresAt now, (Option.some.inj hs).symm⟩
      · cases hs
  | drop i =>
      dsimp only at hs
      split at hs
      · rename_i hp
        exact Or.inr ⟨i, _, _, _, hp, .drop, (Option.some.inj hs).symm⟩
      · cases hs
  | put i =>
      dsimp only at hs
      split at hs
      · rename_i expiresAt hp
        split at hs
        · exact Or.inr ⟨i, _, _, _, hp, .put expiresAt, (Option.some.inj hs).symm⟩
        · cases hs
      · cases hs

/-! ## Counting -/

/-- A move changes a count by the two phases. -/
theorem countP_move (f : Phase → Bool) (h : s.calls[i]? = some p) (q : Phase) :
    (s.move i q).calls.countP f + (f p).toNat = s.calls.countP f + (f q).toNat := by
  obtain ⟨hi, rfl⟩ := List.getElem?_eq_some_iff.mp h
  have hle := List.boole_getElem_le_countP (p := f) hi
  show (s.calls.set i q).countP f + _ = _
  rw [List.countP_set hi]
  cases hp : f s.calls[i] with
  | false => cases f q <;> simp
  | true =>
      rw [hp, if_pos rfl] at hle
      cases f q <;> simp <;> omega

/-- The runtimes in use after a move. -/
theorem inUse_move (h : s.calls[i]? = some p) (q : Phase) :
    (s.move i q).inUse + p.inUse.toNat = s.inUse + q.inUse.toNat := countP_move Phase.inUse h q

/-- The runtimes that are not counted after a move. -/
theorem uncounted_move (h : s.calls[i]? = some p) (q : Phase) :
    (s.move i q).uncounted + (decide (p = .pushed)).toNat =
      s.uncounted + (decide (q = .pushed)).toNat := countP_move (fun p => p = .pushed) h q

/-- Nobody is between putting a runtime into the pool and counting it, unless with the lock. -/
theorem Inv.uncounted_eq_zero (h : Inv s) (hother : ∀ j, s.lock = some j →
    s.calls[j]? ≠ some Phase.pushed) : s.uncounted = 0 := by
  refine List.countP_eq_zero.mpr fun p hp hpushed => ?_
  obtain ⟨j, hj⟩ := List.mem_iff_getElem?.mp hp
  obtain rfl := of_decide_eq_true hpushed
  exact hother j (h.lock j .pushed hj rfl) hj

/-- The calls after a move. -/
theorem getElem?_move {j : ℕ} {r : Phase} (hj : (s.move i q).calls[j]? = some r) :
    (j = i ∧ r = q) ∨ (j ≠ i ∧ s.calls[j]? = some r) := by
  have hset : (s.calls.set i q)[j]? = some r := hj
  rw [List.getElem?_set] at hset
  split at hset
  · rename_i hij
    split at hset
    · exact Or.inl ⟨hij.symm, (Option.some.inj hset).symm⟩
    · cases hset
  · rename_i hij
    exact Or.inr ⟨Ne.symm hij, hset⟩

/-- A turn moves one call. -/
theorem Turn.calls_move (hturn : Turn s i a p q t) : (t.move i q).calls = (s.move i q).calls := by
  cases hturn <;> rfl

/-- A turn that takes the lock, or leaves it to whoever has it. -/
theorem Inv.lock_turn (h : Inv s) (hp : s.calls[i]? = some p) (hturn : Turn s i a p q t) :
    ∀ j r, (t.move i q).calls[j]? = some r → r.holds = true → (t.move i q).lock = some j := by
  intro j r hj hr
  have hj' : (s.move i q).calls[j]? = some r := by rw [← hturn.calls_move, hj]
  rcases getElem?_move hj' with ⟨rfl, rfl⟩ | ⟨hij, hj''⟩
  · -- the call that moves
    cases hturn with
    | lock hfree => rfl
    | lockDrop hfree => rfl
    | push now hcount => exact h.lock _ _ hp rfl
    | _ => cases hr
  · -- another call, which has the lock
    have hlock := h.lock j r hj'' hr
    cases hturn with
    | lock hfree =>
        rw [hfree] at hlock
        cases hlock
    | lockDrop hfree =>
        rw [hfree] at hlock
        cases hlock
    | full now hcount =>
        rw [h.lock _ _ hp rfl] at hlock
        exact absurd (Option.some.inj hlock).symm hij
    | count =>
        rw [h.lock _ _ hp rfl] at hlock
        exact absurd (Option.some.inj hlock).symm hij
    | drop =>
        rw [h.lock _ _ hp rfl] at hlock
        exact absurd (Option.some.inj hlock).symm hij
    | _ => exact hlock

/-- The counts after a turn. -/
theorem Turn.counts (hturn : Turn s i a p q t) (hp : s.calls[i]? = some p) :
    (t.move i q).inUse + p.inUse.toNat = s.inUse + q.inUse.toNat ∧
      (t.move i q).uncounted + (decide (p = .pushed)).toNat =
        s.uncounted + (decide (q = .pushed)).toNat := by
  have hin := inUse_move hp q
  have hun := uncounted_move hp q
  unfold inUse uncounted at *
  rw [hturn.calls_move]
  exact ⟨hin, hun⟩

/-- The runtimes that are there and those that are counted change together. -/
theorem Inv.counted_turn (h : Inv s) (hp : s.calls[i]? = some p) (hturn : Turn s i a p q t) :
    ((t.move i q).total : ℤ) = (t.move i q).runtimeCount + (t.move i q).uncounted := by
  obtain ⟨hin, hun⟩ := hturn.counts hp
  have hcounted := h.counted
  unfold total at hcounted ⊢
  cases hturn with
  | take hpool =>
      rw [hpool, List.length_cons] at hcounted
      simp [Phase.inUse, move] at *
      omega
  | receive hpool =>
      rw [hpool, List.length_cons] at hcounted
      simp [Phase.inUse, move] at *
      omega
  | _ =>
      simp [Phase.inUse, move] at *
      omega

/-- The runtimes that are counted, or will be, are not too many. -/
theorem Inv.bound_turn (h : Inv s) (hp : s.calls[i]? = some p) (hturn : Turn s i a p q t) :
    (t.move i q).runtimeCount + (t.move i q).uncounted ≤ (t.move i q).maxRuntimes := by
  obtain ⟨-, hun⟩ := hturn.counts hp
  have hbound := h.bound
  cases hturn with
  | push now hcount =>
      -- nobody else is about to count
      have hzero : s.uncounted = 0 := by
        refine h.uncounted_eq_zero fun j hj => ?_
        rw [h.lock i _ hp rfl] at hj
        obtain rfl := Option.some.inj hj
        rw [hp]
        simp
      simp [move] at *
      omega
  | _ =>
      simp [move] at *
      omega

/-- The calls after a new one. -/
theorem getElem?_exec {j : ℕ} {r : Phase} (hj : (s.calls ++ [Phase.polling])[j]? = some r) :
    s.calls[j]? = some r ∨ r = .polling := by
  rw [List.getElem?_append] at hj
  split at hj
  · exact Or.inl hj
  · exact Or.inr (List.mem_singleton.mp (List.mem_of_getElem? hj))

/-- A new call changes no count. -/
theorem total_exec : ({ s with calls := s.calls ++ [.polling] } : Interpreter).total = s.total := by
  unfold total inUse
  rw [List.countP_append]
  rfl

theorem uncounted_exec :
    ({ s with calls := s.calls ++ [.polling] } : Interpreter).uncounted = s.uncounted := by
  unfold uncounted
  rw [List.countP_append]
  rfl

/-- Every step keeps the invariant. -/
theorem Inv.step (h : Inv s) (hs : step s a = some s') : Inv s' := by
  rcases step_cases hs with ⟨-, rfl⟩ | ⟨i, p, q, t, hp, hturn, rfl⟩
  · refine ⟨h.positive, fun j r hj hr => ?_, ?_, ?_⟩
    · rcases getElem?_exec hj with hj | rfl
      · exact h.lock j r hj hr
      · cases hr
    · rw [total_exec, uncounted_exec]
      exact h.counted
    · rw [uncounted_exec]
      exact h.bound
  · refine ⟨?_, h.lock_turn hp hturn, h.counted_turn hp hturn, h.bound_turn hp hturn⟩
    have hpositive := h.positive
    cases hturn <;> exact hpositive

/-! ## Waiting calls -/

/-- When a call waits at the pool there is a runtime. -/
def Awake (s : Interpreter) : Prop :=
  ∀ j : ℕ, s.calls[j]? = some Phase.receiving → 0 < s.total

/-- Runtimes get fewer only when an expired one is dropped. -/
theorem Turn.le_total (hturn : Turn s i a p q t) (hp : s.calls[i]? = some p)
    (hdrop : a ≠ .drop i) : s.total ≤ (t.move i q).total := by
  obtain ⟨hin, -⟩ := hturn.counts hp
  unfold total
  cases hturn with
  | take hpool =>
      rw [hpool, List.length_cons]
      simp [Phase.inUse, move] at *
      omega
  | receive hpool =>
      rw [hpool, List.length_cons]
      simp [Phase.inUse, move] at *
      omega
  | drop => exact absurd rfl hdrop
  | _ =>
      simp [Phase.inUse, move] at *
      omega

/-- A call that turns to waiting does so when all the runtimes are there. -/
theorem Inv.awake_turn (h : Inv s) (hawake : Awake s) (hp : s.calls[i]? = some p)
    (hturn : Turn s i a p q t) (hdrop : a ≠ .drop i) : Awake (t.move i q) := by
  intro j hj
  have hle := hturn.le_total hp hdrop
  rw [hturn.calls_move] at hj
  rcases getElem?_move hj with ⟨-, hq⟩ | ⟨-, hj⟩
  · have hcounted := h.counted
    have hpositive := h.positive
    cases hturn with
    | full now hcount => omega
    | _ => cases hq
  · exact lt_of_lt_of_le (hawake j hj) hle

/-- What is left after an expired runtime is dropped. -/
theorem Inv.total_drop (h : Inv s) (hp : s.calls[i]? = some .dropLocked)
    (hturn : Turn s i (.drop i) .dropLocked .ended t) :
    ((t.move i .ended).total : ℤ) + 1 = s.runtimeCount := by
  have hzero : s.uncounted = 0 := by
    refine h.uncounted_eq_zero fun j hj => ?_
    rw [h.lock i _ hp rfl] at hj
    obtain rfl := Option.some.inj hj
    rw [hp]
    simp
  have hcounted := h.counted_turn hp hturn
  obtain ⟨-, hun⟩ := hturn.counts hp
  cases hturn with
  | drop =>
      simp [move] at *
      omega

/-- The step lemma. -/
theorem awake_step (h : Inv s) (hawake : Awake s) (hkeeps : KeepsOne s a)
    (hs : step s a = some s') : Awake s' := by
  rcases step_cases hs with ⟨-, rfl⟩ | ⟨i, p, q, t, hp, hturn, rfl⟩
  · intro j hj
    rw [total_exec]
    rcases getElem?_exec hj with hj | hj
    · exact hawake j hj
    · cases hj
  · by_cases hdrop : a = .drop i
    · subst hdrop
      intro j hj
      have hmoved := hturn.calls_move
      obtain ⟨rfl, rfl⟩ : p = .dropLocked ∧ q = .ended := by
        cases hturn
        exact ⟨rfl, rfl⟩
      have htotal := h.total_drop hp hturn
      rw [hmoved] at hj
      rcases getElem?_move hj with ⟨-, hq⟩ | ⟨-, hj⟩
      · cases hq
      · have hcount : s.runtimeCount ≠ 1 := fun hone => hkeeps hp hone j hj
        omega
    · exact h.awake_turn hawake hp hturn hdrop

/-- While the lock is free the runtimes are counted. -/
theorem Inv.counted_of_free (h : Inv s) (hfree : s.lock = none) :
    (s.total : ℤ) = s.runtimeCount ∧ s.runtimeCount ≤ s.maxRuntimes := by
  have hzero : s.uncounted = 0 := h.uncounted_eq_zero fun j hj => by
    rw [hfree] at hj
    cases hj
  have hcounted := h.counted
  have hbound := h.bound
  rw [hzero] at hcounted hbound
  omega

/-- What is awake is sound. -/
theorem Inv.sound (h : Inv s) (hawake : Awake s) : Sound s where
  counted := h.counted_of_free
  wakeable := fun i hi => hawake i hi.1

/-- The converse of the step lemma. -/
theorem keepsOne_of_step (h : Inv s) (hs : step s a = some s') (hsound : Sound s') :
    KeepsOne s a := by
  cases a with
  | drop i =>
      intro hp hone j hj
      rcases step_cases hs with ⟨hexec, -⟩ | ⟨k, p, q, t, hpk, hturn, rfl⟩
      · cases hexec
      · have hmoved := hturn.calls_move
        obtain ⟨rfl, rfl, rfl⟩ : k = i ∧ p = .dropLocked ∧ q = .ended := by
          cases hturn
          exact ⟨rfl, rfl, rfl⟩
        have htotal := h.total_drop hpk hturn
        have hzero : (t.move k .ended).total = 0 := by omega
        have hji : j ≠ k := by
          rintro rfl
          rw [hp] at hj
          cases hj
        refine absurd (hsound.wakeable j ⟨?_, ?_⟩) (by omega)
        · rw [hmoved]
          exact (List.getElem?_set_ne (Ne.symm hji)).trans hj
        · exact List.length_eq_zero_iff.mp (Nat.eq_zero_of_add_eq_zero_left hzero)
  | _ => trivial

/-- A step that cannot be taken. -/
theorem keepsOne_of_step_eq_none (hs : step s a = none) : KeepsOne s a := by
  cases a with
  | drop i =>
      intro hp
      unfold step at hs
      dsimp only at hs
      rw [hp] at hs
      cases hs
  | _ => trivial

/-! ## Whole runs -/

theorem inv_newInterpreter {n : ℕ} (h : 0 < n) : Inv (newInterpreter n) where
  positive := h
  lock := fun i p hp => by simp [newInterpreter] at hp
  counted := rfl
  bound := by
    show (0 : ℤ) + (0 : ℕ) ≤ (n : ℤ)
    omega

/-- While the lock is free the runtimes are counted, in every run. -/
theorem counted_of_run {n : ℕ} (h : 0 < n) {acts : List Action}
    (hrun : Runs.run step (newInterpreter n) acts = some s) (hfree : s.lock = none) :
    (s.total : ℤ) = s.runtimeCount ∧ s.runtimeCount ≤ s.maxRuntimes := by
  have hinv := Runs.run_induction (fun _ _ _ h hs => Inv.step h hs) (inv_newInterpreter h) hrun
  exact hinv.counted_of_free hfree

/-- **The pool is sound all along a run** exactly when the last counted runtime is never dropped
while a call is waiting for one. -/
theorem sound_iff {n : ℕ} (h : 0 < n) (acts : List Action) :
    (∀ bs, bs <+: acts → ∀ s, Runs.run step (newInterpreter n) bs = some s → Sound s) ↔
      Runs.Along step KeepsOne (newInterpreter n) acts :=
  Runs.always_iff_along (P := fun s => Inv s ∧ Awake s) (fun _ h => h.1.sound h.2)
    (fun _ _ _ h hkeeps hs => ⟨h.1.step hs, awake_step h.1 h.2 hkeeps hs⟩)
    (fun _ _ _ h hs hsound => keepsOne_of_step h.1 hs hsound)
    (fun _ _ hs => keepsOne_of_step_eq_none hs)
    ⟨inv_newInterpreter h, fun j hj => by simp [newInterpreter] at hj⟩

/-- Two calls and one runtime, which expires while the second call turns to waiting. -/
def sampleActions : List Action :=
  [.exec, .poll 0, .lock 0, .grow 0 0, .count 0, .poll 0, .exec, .poll 1, .lock 1, .grow 1 1,
    .finish 0 (Js.runtimeTTL + 1), .lock 0]

theorem sound_iff_sample :
    (∀ bs, bs <+: sampleActions → ∀ s, Runs.run step (newInterpreter 1) bs = some s → Sound s) ↔
      Runs.Along step KeepsOne (newInterpreter 1) sampleActions :=
  sound_iff (by decide) sampleActions

/-- The second call is left without a runtime. -/
theorem unsound_drop : ∃ s, Runs.run step (newInterpreter 1) (sampleActions ++ [.drop 0]) = some s ∧
    ¬ Sound s := by
  refine ⟨_, rfl, fun h => ?_⟩
  exact absurd (h.wakeable 1 ⟨rfl, rfl⟩) (by decide)

end Interpreter

end RuntimePool
