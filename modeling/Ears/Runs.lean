/-
# Runs of a partial step function

A component is given by `step : σ → α → Option σ`: in state `s` the action `a`
leads to `step s a`, and `none` says that `a` cannot be taken there (a call on an
object that does not exist, a thread that has nothing left to do).  A run is a
list of actions taken one after the other.

The rules here are the only inductions over runs in the development:

* `run_induction`: what holds at the start and is kept by every step holds after
  every run;
* `run_induction_trace`: the same for a property of the state *and* of the actions
  taken so far;
* `run_induction_along`: the same when only the steps that meet a guard keep it;
* `along_iff_along`: two guards that say the same in the states that the runs reach;
* `always_iff_along`: a property holds all along a run exactly when its steps meet a guard;
* `monotone_along`: the invariant rule for a guarded run, with an order that the states follow;
* `run_simulation`: two runs of the same actions stay related.
-/
import Mathlib

namespace Runs

variable {σ τ α : Type*}

/-- The state after taking the actions in order, if each of them can be taken. -/
def run (step : σ → α → Option σ) : σ → List α → Option σ
  | s, [] => some s
  | s, a :: as => (step s a).bind fun s' => run step s' as

variable {step : σ → α → Option σ} {s s' s₀ : σ} {a : α} {as bs : List α}

@[simp] theorem run_nil : run step s [] = some s := rfl

theorem run_cons : run step s (a :: as) = (step s a).bind fun s' => run step s' as := rfl

/-- A run of `a :: as` is a step followed by a run of `as`. -/
theorem run_cons_eq_some :
    run step s (a :: as) = some s' ↔ ∃ t, step s a = some t ∧ run step t as = some s' := by
  rw [run_cons, Option.bind_eq_some_iff]

/-- Runs compose. -/
theorem run_append : run step s (as ++ bs) = (run step s as).bind fun t => run step t bs := by
  induction as generalizing s with
  | nil => rfl
  | cons a as ih =>
      rw [List.cons_append, run_cons, run_cons, Option.bind_assoc]
      congr 1
      funext t
      exact ih

/-- A run of `as ++ bs` is a run of `as` followed by a run of `bs`. -/
theorem run_append_eq_some :
    run step s (as ++ bs) = some s' ↔
      ∃ t, run step s as = some t ∧ run step t bs = some s' := by
  rw [run_append, Option.bind_eq_some_iff]

/-- A run of one action is a step. -/
@[simp] theorem run_singleton : run step s [a] = step s a := by
  rw [run_cons]
  cases step s a <;> rfl

/-! ## Invariants -/

/-- What holds before a run and is kept by every step holds after it. -/
theorem run_induction {P : σ → Prop} (hstep : ∀ s a s', P s → step s a = some s' → P s')
    (h₀ : P s) (hrun : run step s as = some s') : P s' := by
  induction as generalizing s with
  | nil =>
      rw [run_nil, Option.some.injEq] at hrun
      exact hrun ▸ h₀
  | cons a as ih =>
      obtain ⟨t, ht, hrest⟩ := run_cons_eq_some.mp hrun
      exact ih (hstep s a t h₀ ht) hrest

/-- The invariant rule for a property of the actions taken so far and of the state. -/
theorem run_induction_trace {P : List α → σ → Prop}
    (hstep : ∀ tr s a s', P tr s → step s a = some s' → P (tr ++ [a]) s')
    (h₀ : P [] s) (hrun : run step s as = some s') : P as s' := by
  have hgen : ∀ as tr s, P tr s → run step s as = some s' → P (tr ++ as) s' := by
    intro as
    induction as with
    | nil =>
        intro tr s h hrun
        rw [run_nil, Option.some.injEq] at hrun
        rw [List.append_nil]
        exact hrun ▸ h
    | cons a as ih =>
        intro tr s h hrun
        obtain ⟨t, ht, hrest⟩ := run_cons_eq_some.mp hrun
        have h' := ih (tr ++ [a]) t (hstep tr s a t h ht) hrest
        rwa [List.append_assoc, List.singleton_append] at h'
  exact hgen as [] s h₀ hrun

/-- Every step of the run meets the guard `G` in the state it is taken in. -/
def Along (step : σ → α → Option σ) (G : σ → α → Prop) : σ → List α → Prop
  | _, [] => True
  | s, a :: as => G s a ∧ ∀ s', step s a = some s' → Along step G s' as

instance decidableAlong (step : σ → α → Option σ) (G : σ → α → Prop) [∀ s a, Decidable (G s a)] :
    (s : σ) → (as : List α) → Decidable (Along step G s as)
  | _, [] => isTrue trivial
  | s, a :: as =>
      have : Decidable (∀ s', step s a = some s' → Along step G s' as) :=
        match h : step s a with
        | none => isTrue fun _ hs => by simp at hs
        | some t =>
            have := decidableAlong step G t as
            decidable_of_iff (Along step G t as) (by simp)
      inferInstanceAs (Decidable (G s a ∧ ∀ s', step s a = some s' → Along step G s' as))

/-- A step that meets the guard, followed by a run that does. -/
theorem Along.cons {G : σ → α → Prop} {t : σ} (hG : G s a) (hs : step s a = some t)
    (h : Along step G t as) : Along step G s (a :: as) := by
  refine ⟨hG, fun s' hs' => ?_⟩
  rw [hs, Option.some.injEq] at hs'
  exact hs' ▸ h

/-- Guards that say the same. -/
theorem along_congr {G G' : σ → α → Prop} (h : ∀ s a, G s a ↔ G' s a) :
    Along step G s as ↔ Along step G' s as := by
  have heq : G = G' := by
    funext s a
    exact propext (h s a)
  rw [heq]

/-- A stronger guard. -/
theorem Along.imp {G G' : σ → α → Prop} (h : Along step G s as)
    (himp : ∀ s, ∀ a ∈ as, G s a → G' s a) : Along step G' s as := by
  induction as generalizing s with
  | nil => trivial
  | cons a as ih =>
      refine ⟨himp s a List.mem_cons_self h.1, fun t ht => ?_⟩
      exact ih (h.2 t ht) fun s b hb => himp s b (List.mem_cons_of_mem _ hb)

/-- A property of all actions of a run is a guard of it. -/
theorem along_of_forall {Q : α → Prop} (hQ : ∀ a ∈ as, Q a) :
    Along step (fun _ a => Q a) s as := by
  induction as generalizing s with
  | nil => trivial
  | cons a as ih =>
      exact ⟨hQ a List.mem_cons_self, fun t _ => ih fun b hb => hQ b (List.mem_cons_of_mem _ hb)⟩

/-- A property of all actions of a run joins the guard. -/
theorem Along.and {G : σ → α → Prop} {Q : α → Prop} (h : Along step G s as) (hQ : ∀ a ∈ as, Q a) :
    Along step (fun s a => G s a ∧ Q a) s as := by
  induction as generalizing s with
  | nil => trivial
  | cons a as ih =>
      refine ⟨⟨h.1, hQ a List.mem_cons_self⟩, fun t ht => ?_⟩
      exact ih (h.2 t ht) fun b hb => hQ b (List.mem_cons_of_mem _ hb)

/-- The invariant rule for runs whose steps all meet a guard. -/
theorem run_induction_along {P : σ → Prop} {G : σ → α → Prop}
    (hstep : ∀ s a s', P s → G s a → step s a = some s' → P s')
    (h₀ : P s) (hG : Along step G s as) (hrun : run step s as = some s') : P s' := by
  induction as generalizing s with
  | nil =>
      rw [run_nil, Option.some.injEq] at hrun
      exact hrun ▸ h₀
  | cons a as ih =>
      obtain ⟨t, ht, hrest⟩ := run_cons_eq_some.mp hrun
      exact ih (hstep s a t h₀ hG.1 ht) (hG.2 t ht) hrest

/-- Guards that say the same where the invariant `P` holds, which the steps that meet them keep. -/
theorem along_iff_along {P : σ → Prop} {G G' : σ → α → Prop}
    (hiff : ∀ s a, P s → (G s a ↔ G' s a))
    (hstep : ∀ s a s', P s → G' s a → step s a = some s' → P s') (h₀ : P s) :
    Along step G s as ↔ Along step G' s as := by
  induction as generalizing s with
  | nil => exact Iff.rfl
  | cons a as ih =>
      constructor
      · rintro ⟨hG, hrest⟩
        have hG' := (hiff s a h₀).mp hG
        exact ⟨hG', fun t ht => (ih (hstep s a t h₀ hG' ht)).mp (hrest t ht)⟩
      · rintro ⟨hG', hrest⟩
        exact ⟨(hiff s a h₀).mpr hG', fun t ht => (ih (hstep s a t h₀ hG' ht)).mpr (hrest t ht)⟩

/-- When the invariant `P` gives `Q`, is kept by the steps that meet the guard, and `Q` is
lost by those that do not, then `Q` holds all along a run exactly when the guard does. -/
theorem always_iff_along {P Q : σ → Prop} {G : σ → α → Prop} (hPQ : ∀ s, P s → Q s)
    (hstep : ∀ s a s', P s → G s a → step s a = some s' → P s')
    (hlost : ∀ s a s', P s → step s a = some s' → Q s' → G s a)
    (hnone : ∀ s a, step s a = none → G s a) (h₀ : P s) :
    (∀ bs, bs <+: as → ∀ s', run step s bs = some s' → Q s') ↔ Along step G s as := by
  induction as generalizing s with
  | nil =>
      refine ⟨fun _ => trivial, fun _ bs hbs s' hrun => ?_⟩
      rw [List.prefix_nil.mp hbs, run_nil, Option.some.injEq] at hrun
      exact hPQ s' (hrun ▸ h₀)
  | cons a as ih =>
      constructor
      · intro hall
        refine ⟨?_, fun t ht => ?_⟩
        · cases ht : step s a with
          | none => exact hnone s a ht
          | some t =>
              refine hlost s a t h₀ ht (hall [a] ?_ t (by rw [run_singleton, ht]))
              exact List.cons_prefix_cons.mpr ⟨rfl, List.nil_prefix⟩
        · -- the guard holds at the first step, so the invariant does at the next state
          have hG := hlost s a t h₀ ht (hall [a]
            (List.cons_prefix_cons.mpr ⟨rfl, List.nil_prefix⟩) t (by rw [run_singleton, ht]))
          apply (ih (hstep s a t h₀ hG ht)).mp
          intro bs hbs s' hrun
          exact hall (a :: bs) (List.cons_prefix_cons.mpr ⟨rfl, hbs⟩) s'
            (run_cons_eq_some.mpr ⟨t, ht, hrun⟩)
      · rintro ⟨hG, hrest⟩ bs hbs s' hrun
        cases bs with
        | nil =>
            rw [run_nil, Option.some.injEq] at hrun
            exact hPQ s' (hrun ▸ h₀)
        | cons b bs =>
            obtain ⟨rfl, htail⟩ := List.cons_prefix_cons.mp hbs
            obtain ⟨t, ht, hrun⟩ := run_cons_eq_some.mp hrun
            exact (ih (hstep s b t h₀ hG ht)).mpr (hrest t ht) bs htail s' hrun

/-- A part of a run that meets the guard, after the actions before it. -/
theorem Along.tail {G : σ → α → Prop} {t : σ} (h : Along step G s (as ++ bs))
    (hrun : run step s as = some t) : Along step G t bs := by
  induction as generalizing s with
  | nil =>
      rw [run_nil, Option.some.injEq] at hrun
      exact hrun ▸ h
  | cons a as ih =>
      obtain ⟨u, hu, hrest⟩ := run_cons_eq_some.mp hrun
      exact ih (h.2 u hu) hrest

/-- The first part of a run that meets the guard. -/
theorem Along.of_append {G : σ → α → Prop} (h : Along step G s (as ++ bs)) :
    Along step G s as := by
  induction as generalizing s with
  | nil => trivial
  | cons a as ih => exact ⟨h.1, fun t ht => ih (h.2 t ht)⟩

/-- A run that meets the guard, continued by one that does. -/
theorem Along.append {G : σ → α → Prop} {t : σ} (h : Along step G s as)
    (hrun : run step s as = some t) (h' : Along step G t bs) : Along step G s (as ++ bs) := by
  induction as generalizing s with
  | nil =>
      rw [run_nil, Option.some.injEq] at hrun
      exact hrun ▸ h'
  | cons a as ih =>
      obtain ⟨u, hu, hrest⟩ := run_cons_eq_some.mp hrun
      exact Along.cons h.1 hu (ih (h.2 u hu) hrest)

/-- Two systems that can take the same steps and keep a relation while they do can take the
same runs, and stay related. -/
theorem run_simulation {step' : τ → α → Option τ} {R : σ → τ → Prop}
    (hstep : ∀ s t a, R s t → Option.Rel R (step s a) (step' t a)) {t : τ} (h₀ : R s t)
    (as : List α) : Option.Rel R (run step s as) (run step' t as) := by
  induction as generalizing s t with
  | nil => exact Option.Rel.some h₀
  | cons a as ih =>
      rw [run_cons, run_cons]
      have h := hstep s t a h₀
      generalize step s a = x at h
      generalize step' t a = y at h
      cases h with
      | some h => exact ih h
      | none => exact Option.Rel.none

end Runs
