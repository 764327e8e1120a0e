/-
# Specifications of programs

A specification describes every operation by what a thread that calls it has to be ready for.
A thread has a state of its own that only the proof knows (which objects it may still use,
say).  `T o g P` says that the call of `o` is allowed in the ghost state `g`, and that `P`
holds of every answer and every ghost state that the thread can be in afterwards.

`Prog.wp T stop p g Q`: the program `p`, started in the ghost state `g`, makes allowed calls
only, and when it returns `Q` holds of what it returns and of the ghost state; `stop` says
whether it may panic.

`Threads.wp_of_step` is the rule for programs that share a state: an invariant ties the state
to the ghost states of all threads, and every allowed call keeps it.
-/
import Ears.Programs

variable {S U : Signature} {ρ α β : Type}

/-- What a call of each operation needs, and what the rest of the program can rely on. -/
abbrev Spec (S : Signature) (ρ : Type) := (o : S.Op) → ρ → (S.Res o → ρ → Prop) → Prop

/-- Who is ready for more is ready for less. -/
def Spec.Monotone (T : Spec S ρ) : Prop :=
  ∀ o g (P P' : S.Res o → ρ → Prop), (∀ r g', P r g' → P' r g') → T o g P → T o g P'

namespace Prog

/-- The weakest precondition of a program. -/
def wp (T : Spec S ρ) (stop : Prop) : Prog S α → ρ → (α → ρ → Prop) → Prop
  | .pure a, g, Q => Q a g
  | .call o k, g, Q => T o g fun r g' => (k r).wp T stop g' Q
  | .panic, _, _ => stop

variable {T : Spec S ρ} {stop stop' : Prop} {g : ρ} {Q Q' : α → ρ → Prop} {R : β → ρ → Prop}

@[simp] theorem wp_pure {a : α} : (Pure.pure a : Prog S α).wp T stop g Q ↔ Q a g := Iff.rfl

@[simp] theorem wp_panic : (Prog.panic : Prog S α).wp T stop g Q ↔ stop := Iff.rfl

@[simp] theorem wp_perform {o : S.Op} {Q : S.Res o → ρ → Prop} :
    (perform o).wp T stop g Q ↔ T o g Q := Iff.rfl

/-- The rule for sequences. -/
theorem wp_bind (p : Prog S α) (f : α → Prog S β) :
    (p >>= f).wp T stop g R ↔ p.wp T stop g fun a g' => (f a).wp T stop g' R := by
  change (p.bind f).wp T stop g R ↔ _
  induction p generalizing g with
  | pure a => exact Iff.rfl
  | call o k ih =>
      have hk : (fun r g' => ((k r).bind f).wp T stop g' R) =
          fun r g' => (k r).wp T stop g' fun a g' => (f a).wp T stop g' R := by
        funext r g'
        exact propext (ih r)
      show (T o g fun r g' => ((k r).bind f).wp T stop g' R) ↔ _
      rw [hk]
      exact Iff.rfl
  | panic => exact Iff.rfl

/-- The rule of consequence. -/
theorem wp.mono (hT : T.Monotone) {p : Prog S α} (h : p.wp T stop g Q) (hstop : stop → stop')
    (hQ : ∀ a g', Q a g' → Q' a g') : p.wp T stop' g Q' := by
  induction p generalizing g with
  | pure a => exact hQ a g h
  | call o k ih => exact hT o g _ _ (fun r _ => ih r) h
  | panic => exact hstop h

/-- The rule for sequences, from a specification of the first part. -/
theorem wp.bind (hT : T.Monotone) {p : Prog S α} {f : α → Prog S β} (h : p.wp T stop g Q)
    (hf : ∀ a g', Q a g' → (f a).wp T stop g' R) : (p >>= f).wp T stop g R :=
  (wp_bind p f).mpr (h.mono hT id hf)

/-- A goroutine recovers, so it must not panic before it is done. -/
theorem wp.recover (hT : T.Monotone) {Q : ρ → Prop} {p : Prog S α}
    (h : p.wp T False g fun _ => Q) : p.recover.wp T False g fun _ => Q := by
  induction p generalizing g with
  | pure a => exact h
  | call o k ih => exact hT o g _ _ (fun r _ => ih r) h
  | panic => exact h.elim

/-- A program of the first signature, when its operations are allowed and do not concern the
ghost state. -/
theorem wp_left {T : Spec (S.sum U) ρ} {Q : α → ρ → Prop}
    (hT : ∀ o g (P : (S.sum U).Res (.inl o) → ρ → Prop), (∀ r, P r g) → T (.inl o) g P)
    (hQ : ∀ a, Q a g) (p : Prog S α) : (p.left : Prog (S.sum U) α).wp T True g Q := by
  induction p with
  | pure a => exact hQ a
  | call o k ih => exact hT o g _ ih
  | panic => exact trivial

/-- A sequence that begins with such a program. -/
theorem wp_left_bind {T : Spec (S.sum U) ρ} {R : β → ρ → Prop}
    (hT : ∀ o g (P : (S.sum U).Res (.inl o) → ρ → Prop), (∀ r, P r g) → T (.inl o) g P)
    (p : Prog S α) {f : α → Prog (S.sum U) β} (hf : ∀ a, (f a).wp T True g R) :
    ((p.left : Prog (S.sum U) α) >>= f).wp T True g R :=
  (wp_bind _ _).mpr (wp_left hT hf p)

/-- The program does not panic, whatever its calls return. -/
def Returns (p : Prog S α) : Prop := p.wp (fun _ g P => ∀ r, P r g) False () fun _ _ => True

/-- A program of the first signature that does not panic. -/
theorem Returns.wp_left {T : Spec (S.sum U) ρ} {Q : α → ρ → Prop}
    (hT : ∀ o g (P : (S.sum U).Res (.inl o) → ρ → Prop), (∀ r, P r g) → T (.inl o) g P)
    {p : Prog S α} (hp : p.Returns) (hQ : ∀ a, Q a g) :
    (p.left : Prog (S.sum U) α).wp T False g Q := by
  induction p with
  | pure a => exact hQ a
  | call o k ih => exact hT o g _ fun r => ih r (hp r)
  | panic => exact hp.elim

/-- What the program has returned. -/
def returned : Prog S α → Option α
  | .pure a => some a
  | _ => none

theorem returned_eq_some {p : Prog S α} {a : α} (h : p.returned = some a) : p = .pure a := by
  cases p with
  | pure b => rw [Option.some.inj h]
  | call o k => cases h
  | panic => cases h

/-- The program with an error in place of a panic. -/
def orError (err : String) : Prog S α → Prog S (Except String α)
  | .pure a => .pure (.ok a)
  | .call o k => .call o fun r => (k r).orError err
  | .panic => .pure (.error err)

theorem returns_orError (err : String) (p : Prog S α) : (p.orError err).Returns := by
  induction p with
  | pure a => exact trivial
  | call o k ih => exact ih
  | panic => exact trivial

/-- The same with what is known of the result of the first part. -/
theorem wp_left_bind_of_safe {T : Spec (S.sum U) ρ} {R : β → ρ → Prop} {Q : α → Prop}
    (hT : ∀ o g (P : (S.sum U).Res (.inl o) → ρ → Prop), (∀ r, P r g) → T (.inl o) g P)
    {p : Prog S α} (hp : p.Safe (fun _ => True) (fun _ _ => True) Q)
    {f : α → Prog (S.sum U) β} (hf : ∀ a, Q a → (f a).wp T True g R) :
    ((p.left : Prog (S.sum U) α) >>= f).wp T True g R := by
  induction p with
  | pure a => exact hf a hp
  | call o k ih => exact hT o g _ fun r => ih r (hp.2 r trivial)
  | panic => exact trivial

/-! ## Programs that may fail -/

section Failing

variable {ε ε' : Type}

/-- The program makes allowed calls only, and when it returns without an error `Q` holds. -/
def wpOk (T : Spec S ρ) (x : ExceptT ε (Prog S) α) (g : ρ) (Q : α → ρ → Prop) : Prop :=
  x.run.wp T True g fun r g' => ∀ a, r = .ok a → Q a g'

variable {x : ExceptT ε (Prog S) α}

@[simp] theorem wpOk_pure {a : α} : wpOk T (Pure.pure a : ExceptT ε (Prog S) α) g Q ↔ Q a g := by
  show (∀ b, (Except.ok a : Except ε α) = Except.ok b → Q b g) ↔ _
  simp

@[simp] theorem wpOk_throw {e : ε} : wpOk T (throw e : ExceptT ε (Prog S) α) g Q := by
  intro a ha
  cases ha

theorem wpOk.mono (hT : T.Monotone) (h : wpOk T x g Q) (hQ : ∀ a g', Q a g' → Q' a g') :
    wpOk T x g Q' :=
  Prog.wp.mono hT h id fun _ g' hr a ha => hQ a g' (hr a ha)

/-- The rule for sequences: an error ends the program. -/
theorem wpOk.bind (hT : T.Monotone) {f : α → ExceptT ε (Prog S) β} (h : wpOk T x g Q)
    (hf : ∀ a g', Q a g' → wpOk T (f a) g' R) : wpOk T (x >>= f) g R := by
  refine Prog.wp.bind hT h fun r g' hr => ?_
  cases r with
  | error e =>
      intro b hb
      cases hb
  | ok a => exact hf a g' (hr a rfl)

/-- Another type of errors. -/
theorem wpOk_adapt (hT : T.Monotone) {f : ε → ε'} (h : wpOk T x g Q) :
    wpOk T (x.adapt f) g Q := by
  refine Prog.wp.bind hT h fun r g' hr => ?_
  intro a ha
  cases r with
  | error e => cases ha
  | ok b =>
      cases ha
      exact hr a rfl

/-- A program that does not fail. -/
theorem wpOk_lift (hT : T.Monotone) {p : Prog S α} (h : p.wp T True g Q) :
    wpOk T (ExceptT.lift p : ExceptT ε (Prog S) α) g Q := by
  refine Prog.wp.bind hT h fun b g' hb => ?_
  intro a ha
  cases ha
  exact hb

end Failing

/-! ## Calls that depend on what was answered before -/

/-- The calls that meet `pre` are allowed; `g` is what is known before a call, `after` says what
is known with its answer, and answers meet `post`. -/
def guarded (after : ρ → (o : S.Op) → S.Res o → ρ) (pre : ρ → S.Op → Prop)
    (post : (o : S.Op) → S.Res o → Prop) : Spec S ρ :=
  fun o g P => pre g o ∧ ∀ r, post o r → P r (after g o r)

theorem guarded_monotone (after : ρ → (o : S.Op) → S.Res o → ρ) (pre : ρ → S.Op → Prop)
    (post : (o : S.Op) → S.Res o → Prop) : (guarded after pre post).Monotone :=
  fun _ _ _ _ h hT => ⟨hT.1, fun r hr => h r _ (hT.2 r hr)⟩

end Prog

/-- A map between the states of two systems that commutes with the steps commutes with the
runs. -/
theorem Runs.run_map {σ τ A : Type} {step : σ → A → Option σ} {step' : τ → A → Option τ}
    {f : σ → τ} (hstep : ∀ s a, step' (f s) a = (step s a).map f) (s : σ) (as : List A) :
    Runs.run step' (f s) as = (Runs.run step s as).map f := by
  induction as generalizing s with
  | nil => rfl
  | cons a as ih =>
      rw [Runs.run_cons, Runs.run_cons, hstep]
      cases step s a with
      | none => rfl
      | some t => exact ih t

namespace Threads

variable {ι σ : Type} [DecidableEq ι] {M : Machine S ι σ} {c c' : Threads S ι α σ}
  {γ : ι → Type} {T : ∀ i, Spec S (γ i)} {stop : Prop} {Q : ∀ i, α → γ i → Prop}

/-- The threads without part of what they return. -/
def forget (f : α → β) (c : Threads S ι α σ) : Threads S ι β σ where
  state := c.state
  prog i := f <$> c.prog i
  log := c.log

/-- What a thread returns does not change its steps. -/
theorem step_forget (f : α → β) (c : Threads S ι α σ) (i : ι) :
    step M (c.forget f) i = (step M c i).map (forget f) := by
  have hprog : (c.forget f).prog i = f <$> c.prog i := rfl
  unfold step
  rw [hprog]
  by_cases hstarted : M.started c.state i = true
  · rw [if_pos hstarted, if_pos (show M.started (c.forget f).state i = true from hstarted)]
    cases c.prog i with
    | pure a => rfl
    | call o k =>
        refine congrArg some ?_
        unfold advance forget
        congr 1
        funext j
        by_cases hj : j = i
        · subst hj
          rw [Function.update_self]
          show _ = f <$> Function.update c.prog j _ j
          rw [Function.update_self]
          rfl
        · rw [Function.update_of_ne hj]
          show f <$> c.prog j = f <$> Function.update c.prog i _ j
          rw [Function.update_of_ne hj]
    | panic => rfl
  · rw [if_neg hstarted, if_neg (show ¬ M.started (c.forget f).state i = true from hstarted)]
    rfl

/-- A thread that has returned stays as it is. -/
theorem prog_of_step {a : α} {j : ι} (hp : c.prog j = .pure a) {i : ι}
    (hs : step M c i = some c') : c'.prog j = .pure a := by
  obtain ⟨o, k, -, hi, rfl⟩ := step_cases hs
  have hij : j ≠ i := by
    rintro rfl
    rw [hp] at hi
    cases hi
  rw [advance_prog_of_ne hij, hp]

/-- Every thread meets its specification from some ghost state on, and the invariant holds of
the shared state and these. -/
def Meets (T : ∀ i, Spec S (γ i)) (stop : Prop) (Q : ∀ i, α → γ i → Prop)
    (I : σ → (∀ i, γ i) → Prop) (c : Threads S ι α σ) : Prop :=
  ∃ g, I c.state g ∧ ∀ i, (c.prog i).wp (T i) stop (g i) (Q i)

/-- **Threads that meet their specifications keep to them**, when every allowed call leaves a
ghost state behind that its answer was specified for, and the invariant with it. -/
theorem wp_of_step {I : σ → (∀ i, γ i) → Prop}
    (hstep : ∀ i o s g P, I s g → M.started s i = true → T i o (g i) P →
      ∃ g', P (M.handle i o s).1 g' ∧ I (M.handle i o s).2 (Function.update g i g'))
    (h : Meets T stop Q I c) {i : ι} (hs : step M c i = some c') : Meets T stop Q I c' := by
  obtain ⟨g, hI, hwp⟩ := h
  obtain ⟨o, k, hstarted, hp, rfl⟩ := step_cases hs
  have hi := hwp i
  rw [hp] at hi
  obtain ⟨g', hk, hI'⟩ := hstep i o c.state g _ hI hstarted hi
  refine ⟨Function.update g i g', hI', fun j => ?_⟩
  by_cases hj : j = i
  · subst hj
    rw [advance_prog_self, Function.update_self]
    exact hk
  · rw [advance_prog_of_ne hj, Function.update_of_ne hj]
    exact hwp j

/-! ## Guarded calls of all threads -/

section Guarded

variable {κ : Type} {after : κ → (o : S.Op) → S.Res o → κ} {pre : ι → κ → S.Op → Prop}
  {post : (o : S.Op) → S.Res o → Prop} {start : κ} {I : σ → Prop} {R : ι → α → κ → Prop}

/-- What is known after some calls. -/
def known (after : κ → (o : S.Op) → S.Res o → κ) (start : κ)
    (log : List ((o : S.Op) × S.Res o)) : κ :=
  log.foldl (fun g x => after g x.1 x.2) start

theorem known_append (log : List ((o : S.Op) × S.Res o)) (x : (o : S.Op) × S.Res o) :
    known after start (log ++ [x]) = after (known after start log) x.1 x.2 := by
  unfold known
  rw [List.foldl_append]
  rfl

/-- The threads have only made calls that meet their conditions, and will go on like that. -/
structure Follows (after : κ → (o : S.Op) → S.Res o → κ) (pre : ι → κ → S.Op → Prop)
    (post : (o : S.Op) → S.Res o → Prop) (start : κ) (I : σ → Prop) (R : ι → α → κ → Prop)
    (c : Threads S ι α σ) : Prop where
  state : I c.state
  prog : ∀ i, (c.prog i).wp (Prog.guarded after (pre i) post) True
    (known after start (c.log i)) (R i)
  calls : ∀ i l o r l', c.log i = l ++ ⟨o, r⟩ :: l' → pre i (known after start l) o

/-- **Every call of every thread meets its condition**, when the calls that do keep the invariant
and have the answers that the programs rely on. -/
theorem Follows.step (hstep : ∀ i o s g, I s → pre i g o →
      I (M.handle i o s).2 ∧ post o (M.handle i o s).1)
    (h : Follows after pre post start I R c) {i : ι} (hs : step M c i = some c') :
    Follows after pre post start I R c' := by
  obtain ⟨o, k, -, hp, rfl⟩ := step_cases hs
  obtain ⟨hpre, hk⟩ : pre i (known after start (c.log i)) o ∧ ∀ r, post o r →
      (k r).wp (Prog.guarded after (pre i) post) True
        (after (known after start (c.log i)) o r) (R i) := by
    have hi := h.prog i
    rwa [hp] at hi
  obtain ⟨hI, hpost⟩ := hstep i o c.state _ h.state hpre
  refine ⟨hI, fun j => ?_, fun j l o' r l' hlog => ?_⟩
  · by_cases hj : j = i
    · subst hj
      rw [advance_prog_self, advance_log_self, known_append]
      exact hk _ hpost
    · rw [advance_prog_of_ne hj, advance_log_of_ne hj]
      exact h.prog j
  · by_cases hj : j = i
    · subst hj
      rw [advance_log_self] at hlog
      rcases List.eq_nil_or_concat l' with rfl | ⟨l'', x, rfl⟩
      · obtain ⟨rfl, hlast⟩ := List.append_inj' hlog rfl
        obtain ⟨rfl, -⟩ := Sigma.mk.inj (List.cons.inj hlast).1
        exact hpre
      · have hcut : c.log j ++ [⟨o, (M.handle j o c.state).1⟩] =
            (l ++ ⟨o', r⟩ :: l'') ++ [x] := by
          rw [hlog]
          simp
        exact h.calls j l o' r l'' (List.append_inj' hcut rfl).1
    · rw [advance_log_of_ne hj] at hlog
      exact h.calls j l o' r l' hlog

end Guarded

end Threads
