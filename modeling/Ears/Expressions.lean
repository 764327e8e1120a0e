/-
# The rounds of `Evaluate`

`Evaluate` replaces the first pair of braces of an expression and starts again.  One round either
ends with a value or leaves the next expression (`evaluateRound`); the loop is a run of rounds
(`evaluateText_eq`), which returns when enough rounds are allowed and the run ends
(`repeatRounds_of_rounds`, `repeatRounds_of_result`).
-/
import Ears.LibraryFilters

open GoLib

namespace Event

variable {κ : Type}

/-- One round: the result, or the next expression. -/
def evaluateRound (lib : Libs κ) (e : Event κ) (expr : List Char) :
    HeapProg (Found ⊕ List Char) :=
  match findBraces expr with
  | .none => pure (.inl (.str (String.ofList expr), .nil, ""))
  | .panic => Prog.panic
  | .found before path after => do
      let (v, pr, ky) ← getPathValue lib e (String.ofList path)
      let v ← lib.deepCopy v
      if before = [] ∧ after = [] then pure (.inl (v, pr, ky))
      else
        let text ← insertedText lib v
        pure (.inr (before ++ text ++ after))

/-- The loop takes one round and goes on. -/
theorem evaluateText_succ (lib : Libs κ) (e : Event κ) (rounds : ℕ) (expr : List Char) :
    evaluateText lib e (rounds + 1) expr =
      evaluateRound lib e expr >>= Sum.elim pure (evaluateText lib e rounds) := by
  unfold evaluateText evaluateRound
  cases findBraces expr with
  | none => rfl
  | panic => rfl
  | found before path after =>
      simp only [bind_assoc]
      congr 1
      funext ⟨v, pr, ky⟩
      congr 1
      funext v
      split_ifs
      · rfl
      · rw [bind_assoc]
        congr 1

end Event

namespace GoLib

/-! ## Loops of rounds -/

/-- An expression and the heap that it is evaluated in. -/
abbrev EvalState := List Char × Heap

section Rounds

variable {α : Type} {round : List Char → HeapProg (α ⊕ List Char)}
  {order : Finset String → List String}

/-- Rounds until one has a result, for a number of rounds. -/
def repeatRounds (round : List Char → HeapProg (α ⊕ List Char)) : ℕ → List Char → HeapProg α
  | 0, _ => Prog.panic
  | rounds + 1, expr => round expr >>= Sum.elim pure (repeatRounds round rounds)

/-- One round leaves the next expression. -/
def NextRound (round : List Char → HeapProg (α ⊕ List Char)) (order : Finset String → List String)
    (s s' : EvalState) : Prop :=
  (round s.1).run (Heap.handle order) s.2 = (some (.inr s'.1), s'.2)

/-- Rounds leave an expression after a number of them. -/
inductive Rounds (round : List Char → HeapProg (α ⊕ List Char))
    (order : Finset String → List String) : ℕ → EvalState → EvalState → Prop
  | refl (s) : Rounds round order 0 s s
  | step {n s s₁ s'} (hround : NextRound round order s s₁) (hrest : Rounds round order n s₁ s') :
      Rounds round order (n + 1) s s'

/-- After the rounds of a run the loop goes on from its end. -/
theorem repeatRounds_of_rounds {n : ℕ} {s s' : EvalState} (hrun : Rounds round order n s s')
    (rounds : ℕ) :
    (repeatRounds round (n + rounds) s.1).run (Heap.handle order) s.2 =
      (repeatRounds round rounds s'.1).run (Heap.handle order) s'.2 := by
  induction hrun with
  | refl s => rw [Nat.zero_add]
  | step hround hrest ih =>
      rw [Nat.add_right_comm, repeatRounds, Prog.run_bind_of_some _ _ hround, Sum.elim_inr, ih]

/-- The loop stops with a result in the round that has one. -/
theorem repeatRounds_of_result {s : EvalState} {a : α} {h' : Heap}
    (hround : (round s.1).run (Heap.handle order) s.2 = (some (.inl a), h')) (rounds : ℕ) :
    (repeatRounds round (rounds + 1) s.1).run (Heap.handle order) s.2 = (some a, h') := by
  rw [repeatRounds, Prog.run_bind_of_some _ _ hround]
  rfl

/-- With enough rounds the loop has this result. -/
def Settles (order : Finset String → List String) (loop : ℕ → HeapProg α) (h : Heap) (a : α)
    (h' : Heap) : Prop :=
  ∃ N, ∀ rounds, N ≤ rounds → (loop rounds).run (Heap.handle order) h = (some a, h')

theorem exists_rounds_of_run {rounds : ℕ} {s : EvalState} {a : α} {h' : Heap}
    (hrun : (repeatRounds round rounds s.1).run (Heap.handle order) s.2 = (some a, h')) :
    ∃ n s', Rounds round order n s s' ∧
      (round s'.1).run (Heap.handle order) s'.2 = (some (.inl a), h') := by
  induction rounds generalizing s with
  | zero => exact nomatch hrun
  | succ rounds ih =>
      rw [repeatRounds, Prog.run_bind] at hrun
      rcases hround : (round s.1).run (Heap.handle order) s.2 with ⟨_ | b | expr, h₁⟩
      · rw [hround] at hrun
        exact nomatch hrun
      · rw [hround] at hrun
        obtain ⟨hb, rfl⟩ := Prod.mk.inj hrun
        obtain rfl := Option.some.inj hb
        exact ⟨0, s, .refl s, hround⟩
      · rw [hround] at hrun
        have hnext : NextRound round order s (expr, h₁) := hround
        obtain ⟨n, s', hrest, hres⟩ := ih (s := (expr, h₁)) hrun
        exact ⟨n + 1, s', .step hnext hrest, hres⟩

/-- The loop has a result when a round of a run has one. -/
theorem settles_iff {expr : List Char} {h h' : Heap} {a : α} :
    Settles order (fun rounds => repeatRounds round rounds expr) h a h' ↔
      ∃ n s, Rounds round order n (expr, h) s ∧
        (round s.1).run (Heap.handle order) s.2 = (some (.inl a), h') := by
  constructor
  · rintro ⟨N, hN⟩
    exact exists_rounds_of_run (s := (expr, h)) (hN N le_rfl)
  · rintro ⟨n, s, hrun, hres⟩
    refine ⟨n + 1, fun rounds hle => ?_⟩
    obtain ⟨m, rfl⟩ := Nat.exists_eq_add_of_le hle
    have hsplit : n + 1 + m = n + (m + 1) := by omega
    dsimp only
    rw [hsplit, repeatRounds_of_rounds hrun]
    exact repeatRounds_of_result hres m

end Rounds

end GoLib

/-- The loop of `Evaluate` is a loop of rounds. -/
theorem Event.evaluateText_eq {κ : Type} (lib : Libs κ) (e : Event κ) (rounds : ℕ)
    (expr : List Char) :
    evaluateText lib e rounds expr = repeatRounds (evaluateRound lib e) rounds expr := by
  induction rounds generalizing expr with
  | zero => rfl
  | succ rounds ih =>
      rw [evaluateText_succ, repeatRounds]
      congr 1
      funext res
      cases res with
      | inl found => rfl
      | inr next => exact ih next
