/-
# The loops that expand templates (`event.go`, `transform.go`, `webservice.go`)

`Evaluate`, the string case of `transform` and `evalStr` of the web service filter are loops over
the braces of a text that differ in what they do with the result.  For an event with JSON data each
of them takes the rounds of `Expansion.round` (`Sound.settles`, `Sound.ends_of_settles`).

`expansion_iff` says for which templates and events all three stop with the template in which each
path is replaced by its value.
-/
import Ears.BraceTemplates
import Ears.EncodeDecode

open GoLib

namespace Event

open Expansion (Leads Ends Outcome)

variable {κ α : Type} {lib : Libs κ} {order : Finset String → List String} {e : Event κ}
  {h h₁ h₂ h' : Heap} {d n : ℕ} {value : List Char → Option Json} {W : Json → Json}
  {expr expr' before path after : List Char} {v : Value} {j : Json}

/-! ## The values of the paths -/

/-- The paths of the event lead to these values; `GetPathValue` panics on the others. -/
structure PathValues (lib : Libs κ) (h : Heap) (e : Event κ) (d : ℕ)
    (value : List Char → Option Json) : Prop where
  found : ∀ path j, value path = some j →
    ∃ v, e.lookup lib h (String.ofList path) = some v ∧ h.Shows v j ∧ j.depth ≤ d
  lost : ∀ path, value path = none → e.lookup lib h (String.ofList path) = none

/-- The paths of an event with JSON data lead to JSON values. -/
theorem exists_pathValues (lib : Libs κ) (hdata : JsonData h e d) :
    ∃ value, PathValues lib h e d value := by
  have hpath : ∀ path : List Char, ∃ res : Option Json,
      (∀ j, res = some j →
        ∃ v, e.lookup lib h (String.ofList path) = some v ∧ h.Shows v j ∧ j.depth ≤ d) ∧
      (res = none → e.lookup lib h (String.ofList path) = none) := by
    intro path
    cases hv : e.lookup lib h (String.ofList path) with
    | none => exact ⟨none, by simp, by simp⟩
    | some v =>
        obtain ⟨⟨j, hj, hd⟩, -⟩ := lookup_shows hdata hv
        refine ⟨some j, fun k hk => ⟨v, rfl, ?_⟩, by simp⟩
        rw [← Option.some.inj hk]
        exact ⟨hj, hd⟩
  choose value hvalue using hpath
  exact ⟨value, fun path => (hvalue path).1, fun path => (hvalue path).2⟩

/-- What a path leads to is kept with the data of the event. -/
theorem keeps_of_lookup (hdata : JsonData h e d) (hkept : Kept h e h')
    {path : String} (hv : e.lookup lib h path = some v) : h.Keeps v h' := by
  intro x hx
  obtain ⟨-, -, hreach⟩ := lookup_shows hdata hv
  rcases hreach x hx with hpayload | hmetadata
  · exact hkept.payload x hpayload
  · exact hkept.metadata x hmetadata

/-- The paths lead to the same values while the data of the event are kept. -/
theorem PathValues.kept (hpaths : PathValues lib h e d value) (hdata : JsonData h e d)
    (hkept : Kept h e h') : PathValues lib h' e d value where
  found := by
    intro path j hj
    obtain ⟨v, hv, hshows, hd⟩ := hpaths.found path j hj
    exact ⟨v, by rw [lookup_of_kept hkept, hv], (keeps_of_lookup hdata hkept hv).shows hshows, hd⟩
  lost := by
    intro path hpath
    rw [lookup_of_kept hkept]
    exact hpaths.lost path hpath

/-! ## Loops that take the rounds on texts -/

/-- What is known of the three parts of a loop: `I` holds before every round, with the text that
the round starts with, and `R` of the result. -/
structure BraceLoop.Sound (L : BraceLoop α) (order : Finset String → List String) (e : Event κ)
    (h : Heap) (d : ℕ) (I : List Char → Heap → Prop) (R : α → Heap → Json → Prop)
    (W : Json → Json) : Prop where
  kept : ∀ expr h₁, I expr h₁ → Kept h e h₁ ∧ h.next ≤ h₁.next
  plain : ∀ expr h₁, I expr h₁ → ∃ a h',
    (L.plain expr).run (Heap.handle order) h₁ = (some a, h') ∧ R a h' (.str (String.ofList expr))
  whole : ∀ expr h₁ h₂ v pr ky j, I expr h₁ → h₁.Grows h₂ → h₂.Shows v j → j.depth ≤ d →
    h₂.Fresh h₁.next v → ∃ a h',
      (L.whole (v, pr, ky)).run (Heap.handle order) h₂ = (some a, h') ∧ R a h' (W j)
  keep : ∀ expr text h₁ h₂, I expr h₁ → h₁.Grows h₂ →
    ∃ h₃, (L.keep text).run (Heap.handle order) h₂ = (some (), h₃) ∧ I text h₃

namespace BraceLoop.Sound

variable {L : BraceLoop α} {I : List Char → Heap → Prop} {R : α → Heap → Json → Prop}

theorem round_text (lib : Libs κ) (hL : L.Sound order e h d I R W) (hI : I expr h₁)
    (hround : Expansion.round value expr = .text) :
    ∃ a h', (L.round lib e expr).run (Heap.handle order) h₁ = (some (.inl a), h') ∧
      R a h' (.str (String.ofList expr)) := by
  obtain ⟨a, h', hplain, hres⟩ := hL.plain expr h₁ hI
  exact ⟨a, h', run_round_plain (Expansion.findBraces_of_text hround) hplain, hres⟩

/-- Where a round on the text finds a path, the heap has the value. -/
theorem found (hL : L.Sound order e h d I R W) (hdata : JsonData h e d)
    (hpaths : PathValues lib h e d value) (hI : I expr h₁) (hj : value path = some j) :
    ∃ v, e.lookup lib h₁ (String.ofList path) = some v ∧ h₁.Shows v j ∧ j.depth ≤ d ∧
      h₁.AllocatedBelow v := by
  obtain ⟨hkept, hnext⟩ := hL.kept expr h₁ hI
  obtain ⟨v, hv, hshows, hd⟩ := (hpaths.kept hdata hkept).found path j hj
  exact ⟨v, hv, hshows, hd, (lookup_shows (hdata.kept hkept hnext) hv).2.1⟩

theorem round_whole (hL : L.Sound order e h d I R W) (hlib : lib.CopiesJson order d)
    (hdata : JsonData h e d) (hpaths : PathValues lib h e d value) (hI : I expr h₁)
    (hround : Expansion.round value expr = .whole j) :
    ∃ a h', (L.round lib e expr).run (Heap.handle order) h₁ = (some (.inl a), h') ∧
      R a h' (W j) := by
  unfold Expansion.round at hround
  split at hround
  · cases hround
  · cases hround
  · rename_i before path after hbraces
    split at hround
    · cases hround
    · rename_i k hk
      split_ifs at hround with hbare
      obtain rfl := Outcome.whole.inj hround
      obtain ⟨rfl, rfl⟩ := hbare
      obtain ⟨v, hv, hshows, hd, halloc⟩ := hL.found hdata hpaths hI hk
      obtain ⟨v', pr, ky, h₂, hgrows, hshows', hfresh, hwhole⟩ :=
        run_round_whole (L := L) hlib hbraces hv hshows hd halloc
      obtain ⟨a, h', hrun, hres⟩ := hL.whole expr h₁ h₂ v' pr ky k hI hgrows hshows' hd hfresh
      exact ⟨a, h', hwhole a h' hrun, hres⟩

theorem round_next (hL : L.Sound order e h d I R W) (hlib : lib.CopiesJson order d)
    (hdata : JsonData h e d) (hpaths : PathValues lib h e d value) (hI : I expr h₁)
    (hround : Expansion.round value expr = .next expr') :
    ∃ h', NextRound (L.round lib e) order (expr, h₁) (expr', h') ∧ I expr' h' := by
  unfold Expansion.round at hround
  split at hround
  · cases hround
  · cases hround
  · rename_i before path after hbraces
    split at hround
    · cases hround
    · rename_i k hk
      split_ifs at hround with hbare
      obtain rfl := Outcome.next.inj hround
      obtain ⟨v, hv, hshows, hd, halloc⟩ := hL.found hdata hpaths hI hk
      obtain ⟨h₂, hgrows, hnext⟩ := run_round_next (L := L) hlib hbraces hbare hv hshows hd halloc
      obtain ⟨h₃, hkeep, hI'⟩ := hL.keep expr (before ++ k.inserted ++ after) h₁ h₂ hI hgrows
      exact ⟨h₃, hnext h₃ hkeep, hI'⟩

theorem round_panic (hL : L.Sound order e h d I R W) (hdata : JsonData h e d)
    (hpaths : PathValues lib h e d value) (hI : I expr h₁)
    (hround : Expansion.round value expr = .panic) :
    (L.round lib e expr).run (Heap.handle order) h₁ = (none, h₁) := by
  unfold Expansion.round at hround
  split at hround
  · cases hround
  · rename_i hbraces
    exact run_round_panic hbraces
  · rename_i before path after hbraces
    split at hround
    · rename_i hlost
      exact run_round_lost hbraces ((hpaths.kept hdata (hL.kept expr h₁ hI).1).lost path hlost)
    · split_ifs at hround

/-- A round of the loop that leaves a text is a round on the text. -/
theorem nextRound (hL : L.Sound order e h d I R W) (hlib : lib.CopiesJson order d)
    (hdata : JsonData h e d) (hpaths : PathValues lib h e d value) {s : EvalState} (hI : I expr h₁)
    (hnext : NextRound (L.round lib e) order (expr, h₁) s) :
    Expansion.round value expr = .next s.1 ∧ I s.1 s.2 := by
  have hrun : (L.round lib e expr).run (Heap.handle order) h₁ = (some (.inr s.1), s.2) := hnext
  cases hround : Expansion.round value expr with
  | text =>
      obtain ⟨a, h', hres, -⟩ := hL.round_text lib hI hround
      rw [hrun] at hres
      simp at hres
  | whole j =>
      obtain ⟨a, h', hres, -⟩ := hL.round_whole hlib hdata hpaths hI hround
      rw [hrun] at hres
      simp at hres
  | next expr' =>
      obtain ⟨h', hres, hI'⟩ := hL.round_next hlib hdata hpaths hI hround
      have hrun' : (L.round lib e expr).run (Heap.handle order) h₁ = (some (.inr expr'), h') := hres
      obtain ⟨htext, rfl⟩ := Prod.mk.inj (hrun.symm.trans hrun')
      obtain rfl := Sum.inr.inj (Option.some.inj htext)
      exact ⟨rfl, hI'⟩
  | panic =>
      rw [hL.round_panic hdata hpaths hI hround] at hrun
      simp at hrun

/-- The rounds of the loop are rounds on the text. -/
theorem leads (hL : L.Sound order e h d I R W) (hlib : lib.CopiesJson order d)
    (hdata : JsonData h e d) (hpaths : PathValues lib h e d value) {s s' : EvalState} (hI : I s.1 s.2)
    (hrun : Rounds (L.round lib e) order n s s') : Leads value n s.1 s'.1 ∧ I s'.1 s'.2 := by
  induction hrun with
  | refl s => exact ⟨.refl _, hI⟩
  | step hnext _ ih =>
      obtain ⟨hround, hI'⟩ := hL.nextRound hlib hdata hpaths hI hnext
      obtain ⟨hleads, hI''⟩ := ih hI'
      exact ⟨.step hround hleads, hI''⟩

/-- Rounds on the text are rounds of the loop. -/
theorem rounds (hL : L.Sound order e h d I R W) (hlib : lib.CopiesJson order d)
    (hdata : JsonData h e d) (hpaths : PathValues lib h e d value) (hI : I expr h₁)
    (hleads : Leads value n expr expr') :
    ∃ h', Rounds (L.round lib e) order n (expr, h₁) (expr', h') := by
  induction hleads generalizing h₁ with
  | refl expr => exact ⟨h₁, .refl _⟩
  | step hround _ ih =>
      obtain ⟨h₂, hnext, hI'⟩ := hL.round_next hlib hdata hpaths hI hround
      obtain ⟨h', hrest⟩ := ih hI'
      exact ⟨h', .step hnext hrest⟩

/-- The loop has a result where the rounds on the text have one. -/
theorem settles (hL : L.Sound order e h d I R W) (hlib : lib.CopiesJson order d)
    (hdata : JsonData h e d) (hpaths : PathValues lib h e d value) (hI : I expr h₁)
    (hends : Ends value W expr j) :
    ∃ a h', Settles order (fun rounds => repeatRounds (L.round lib e) rounds expr) h₁ a h' ∧
      R a h' j := by
  induction hends generalizing h₁ with
  | text hround =>
      obtain ⟨a, h', hrun, hres⟩ := hL.round_text lib hI hround
      exact ⟨a, h', settles_iff.mpr ⟨0, _, .refl _, hrun⟩, hres⟩
  | whole hround =>
      obtain ⟨a, h', hrun, hres⟩ := hL.round_whole hlib hdata hpaths hI hround
      exact ⟨a, h', settles_iff.mpr ⟨0, _, .refl _, hrun⟩, hres⟩
  | next hround _ ih =>
      obtain ⟨h₂, hnext, hI'⟩ := hL.round_next hlib hdata hpaths hI hround
      obtain ⟨a, h', hsettles, hres⟩ := ih hI'
      obtain ⟨n, s, hrun, hlast⟩ := settles_iff.mp hsettles
      exact ⟨a, h', settles_iff.mpr ⟨n + 1, s, .step hnext hrun, hlast⟩, hres⟩

/-- The results of the loop are those of the rounds on the text. -/
theorem ends_of_settles (hL : L.Sound order e h d I R W) (hlib : lib.CopiesJson order d)
    (hdata : JsonData h e d) (hpaths : PathValues lib h e d value) (hI : I expr h₁) {a : α}
    (hsettles : Settles order (fun rounds => repeatRounds (L.round lib e) rounds expr) h₁ a h') :
    ∃ j, Ends value W expr j ∧ R a h' j := by
  obtain ⟨n, s, hrun, hlast⟩ := settles_iff.mp hsettles
  obtain ⟨hleads, hI'⟩ := hL.leads hlib hdata hpaths (s := (expr, h₁)) hI hrun
  cases hround : Expansion.round value s.1 with
  | text =>
      obtain ⟨a', h'', hres, hR⟩ := hL.round_text lib hI' hround
      obtain ⟨ha, rfl⟩ := Prod.mk.inj (hlast.symm.trans hres)
      obtain rfl := Sum.inl.inj (Option.some.inj ha)
      exact ⟨_, hleads.ends (.text hround), hR⟩
  | whole k =>
      obtain ⟨a', h'', hres, hR⟩ := hL.round_whole hlib hdata hpaths hI' hround
      obtain ⟨ha, rfl⟩ := Prod.mk.inj (hlast.symm.trans hres)
      obtain rfl := Sum.inl.inj (Option.some.inj ha)
      exact ⟨_, hleads.ends (.whole hround), hR⟩
  | next expr₁ =>
      obtain ⟨h'', hres, -⟩ := hL.round_next hlib hdata hpaths hI' hround
      have hsame := hlast.symm.trans hres
      simp at hsame
  | panic =>
      rw [hL.round_panic hdata hpaths hI' hround] at hlast
      simp at hlast

end BraceLoop.Sound

/-! ## `Evaluate` -/

/-- The loop of `Evaluate`. -/
def evaluateLoop : BraceLoop Found where
  plain expr := pure (.str (String.ofList expr), .nil, "")
  whole found := pure found
  keep _ := pure ()

theorem evaluateRound_eq (lib : Libs κ) (e : Event κ) :
    evaluateRound lib e = evaluateLoop.round lib e := by
  funext expr
  unfold evaluateRound BraceLoop.round
  cases findBraces expr with
  | none => rfl
  | panic => rfl
  | found before path after => rfl

/-- The data of the event are kept, and nothing that was allocated is free again. -/
def KeptSince (h : Heap) (e : Event κ) (h₁ : Heap) : Prop := Kept h e h₁ ∧ h.next ≤ h₁.next

theorem KeptSince.refl (h : Heap) (e : Event κ) : KeptSince h e h := ⟨.refl h e, le_rfl⟩

theorem KeptSince.changes {A : Ref → Prop} (hkept : KeptSince h e h₁) (hdata : JsonData h e d)
    (hch : Heap.Changes A h₁ h₂) (hA : ∀ x, Holds h e x → ¬ A x) : KeptSince h e h₂ := by
  have hdata₁ := hdata.kept hkept.1 hkept.2
  refine ⟨hkept.1.trans (hdata₁.kept_of_changes hch fun x hx => hA x ?_), hkept.2.trans hch.next⟩
  exact hkept.1.holds.mp hx

theorem KeptSince.grows (hkept : KeptSince h e h₁) (hdata : JsonData h e d) (hgrows : h₁.Grows h₂) :
    KeptSince h e h₂ := hkept.changes hdata hgrows fun _ _ hfalse => hfalse

theorem shows_str (h : Heap) (s : String) : h.Shows (.str s) (.str s) := Or.inl rfl

/-- `Evaluate` returns the value of a text that is nothing but braces as it is. -/
theorem sound_evaluateLoop (order : Finset String → List String) (hdata : JsonData h e d) :
    evaluateLoop.Sound order e h d (fun _ h₁ => KeptSince h e h₁)
      (fun found h' j => h'.Shows found.1 j) id where
  kept _ _ hI := hI
  plain _ h₁ _ := ⟨_, h₁, rfl, shows_str h₁ _⟩
  whole _ _ h₂ v pr ky _ _ _ hshows _ _ := ⟨(v, pr, ky), h₂, rfl, hshows⟩
  keep _ _ _ h₂ hI hgrows := ⟨h₂, rfl, hI.grows hdata hgrows⟩

end Event

/-! ## `evalStr` -/

namespace Ws

open Event

variable {κ : Type}

/-- The loop of `evalStr`. -/
def evalStr (lib : Libs κ) (evt : Event κ) : ℕ → List Char → HeapProg (List Char)
  | 0, _ => Prog.panic
  | rounds + 1, tt =>
      match findBraces tt with
      | .none => pure tt
      | .panic => Prog.panic
      | .found before path after => do
          let (v, _, _) ← Event.getPathValue lib evt (String.ofList path)
          let v ← lib.deepCopy v
          if before = [] ∧ after = [] then Event.insertedText lib v
          else
            let text ← Event.insertedText lib v
            evalStr lib evt rounds (before ++ text ++ after)

/-- The parts of that loop. -/
def evalStrLoop (lib : Libs κ) : BraceLoop (List Char) where
  plain expr := pure expr
  whole found := Event.insertedText lib found.1
  keep _ := pure ()

theorem evalStr_eq (lib : Libs κ) (e : Event κ) (rounds : ℕ) (expr : List Char) :
    evalStr lib e rounds expr = repeatRounds ((evalStrLoop lib).round lib e) rounds expr := by
  induction rounds generalizing expr with
  | zero => rfl
  | succ rounds ih =>
      unfold evalStr repeatRounds BraceLoop.round
      cases findBraces expr with
      | none => rfl
      | panic => rfl
      | found before path after =>
          simp only [bind_assoc]
          congr 1
          funext ⟨v, pr, ky⟩
          congr 1
          funext v
          split_ifs
          · rw [bind_assoc]
            exact (bind_pure (Event.insertedText lib v)).symm
          · rw [bind_assoc]
            congr 1
            funext text
            exact ih _

theorem sound_evalStrLoop {lib : Libs κ} {order : Finset String → List String} {e : Event κ}
    {h : Heap} {d : ℕ} (hlib : lib.CopiesJson order d) (hdata : JsonData h e d) :
    (evalStrLoop lib).Sound order e h d (fun _ h₁ => KeptSince h e h₁)
      (fun text _ j => j = .str (String.ofList text)) (fun j => .str (String.ofList j.inserted)) where
  kept _ _ hI := hI
  plain expr h₁ _ := ⟨expr, h₁, rfl, rfl⟩
  whole _ _ h₂ _ _ _ j _ _ hshows hd _ := ⟨j.inserted, h₂, run_insertedText hlib hshows hd, rfl⟩
  keep _ _ _ h₂ hI hgrows := ⟨h₂, rfl, hI.grows hdata hgrows⟩

end Ws

/-! ## The string case of `transform` -/

namespace Transform

open Event

variable {κ : Type} {lib : Libs κ} {order : Finset String → List String} {e : Event κ}
  {h h₁ h₂ h' : Heap} {d : ℕ} {slot : Slot} {text expr : List Char} {c v w : Value} {s : Step}
  {j : Json}

/-- The entry of an object or of an array that is written to; under an empty key nothing is. -/
def Slot.entry : Slot → Option (Value × Step)
  | .none => Option.none
  | .key parent name => if name ≠ "" then some (.map parent, .key name) else Option.none
  | .index parent idx => some (.slice parent, .index idx)

/-- The parts of the loop of `transform`. -/
def textLoop (slot : Slot) : BraceLoop Unit where
  plain _ := pure ()
  whole found := slot.set found.1
  keep text := slot.set (.str (String.ofList text))

/-- The loop ends a round later than the loop of its rounds. -/
theorem transformText_succ (lib : Libs κ) (e : Event κ) (slot : Slot) (rounds : ℕ)
    (expr : List Char) :
    transformText lib e slot (rounds + 2) expr =
      (textLoop slot).round lib e expr >>= Sum.elim pure (transformText lib e slot (rounds + 1)) := by
  rw [transformText]
  unfold BraceLoop.round
  cases findBraces expr with
  | none => rfl
  | panic => rfl
  | found before path after =>
      simp only [bind_assoc]
      congr 1
      funext ⟨v, pr, ky⟩
      congr 1
      funext v
      split_ifs
      · rw [bind_assoc]
        rfl
      · rw [bind_assoc]
        congr 1
        funext text
        rw [bind_assoc]
        rfl

theorem run_of_repeatRounds (rounds : ℕ) {a : Unit}
    (hrun : (repeatRounds ((textLoop slot).round lib e) rounds expr).run (Heap.handle order) h =
      (some a, h')) :
    (transformText lib e slot (rounds + 1) expr).run (Heap.handle order) h = (some a, h') := by
  induction rounds generalizing expr h with
  | zero => simp [repeatRounds] at hrun
  | succ rounds ih =>
      rw [repeatRounds, Prog.run_bind] at hrun
      rw [transformText_succ, Prog.run_bind]
      rcases hround : ((textLoop slot).round lib e expr).run (Heap.handle order) h with
        ⟨_ | b | expr', h₁⟩
      · rw [hround] at hrun
        exact hrun
      · rw [hround] at hrun
        exact hrun
      · rw [hround] at hrun
        exact ih hrun

theorem repeatRounds_of_run (rounds : ℕ) {a : Unit}
    (hrun : (transformText lib e slot (rounds + 1) expr).run (Heap.handle order) h =
      (some a, h')) :
    (repeatRounds ((textLoop slot).round lib e) (rounds + 1) expr).run (Heap.handle order) h =
      (some a, h') := by
  induction rounds generalizing expr h with
  | zero =>
      -- one round is enough for a text without braces only
      unfold transformText at hrun
      unfold repeatRounds BraceLoop.round
      cases hbraces : findBraces expr with
      | none =>
          rw [hbraces] at hrun
          exact hrun
      | panic =>
          rw [hbraces] at hrun
          cases hrun
      | found before path after =>
          rw [hbraces] at hrun
          dsimp only at hrun
          obtain ⟨found, h₁, -, hrun⟩ := (Prog.run_bind_eq_some _ _).mp hrun
          obtain ⟨v, h₂, -, hrun⟩ := (Prog.run_bind_eq_some _ _).mp hrun
          split_ifs at hrun with hbare
          · obtain ⟨_, h₃, -, hrun⟩ := (Prog.run_bind_eq_some _ _).mp hrun
            cases hrun
          · obtain ⟨text, h₃, -, hrun⟩ := (Prog.run_bind_eq_some _ _).mp hrun
            obtain ⟨_, h₄, -, hrun⟩ := (Prog.run_bind_eq_some _ _).mp hrun
            cases hrun
  | succ rounds ih =>
      rw [transformText_succ, Prog.run_bind] at hrun
      rw [repeatRounds, Prog.run_bind]
      rcases hround : ((textLoop slot).round lib e expr).run (Heap.handle order) h with
        ⟨_ | b | expr', h₁⟩
      · rw [hround] at hrun
        exact hrun
      · rw [hround] at hrun
        exact hrun
      · rw [hround] at hrun
        exact ih hrun

/-- The string case of `transform` is a loop of rounds. -/
theorem settles_transformText {a : Unit} :
    Settles order (fun rounds => transformText lib e slot rounds expr) h a h' ↔
      Settles order (fun rounds => repeatRounds ((textLoop slot).round lib e) rounds expr) h a
        h' := by
  constructor
  · rintro ⟨N, hN⟩
    refine ⟨N + 1, fun rounds hle => ?_⟩
    obtain ⟨n, rfl⟩ : ∃ n, rounds = n + 1 := ⟨rounds - 1, by omega⟩
    exact repeatRounds_of_run n (hN (n + 1) (by omega))
  · rintro ⟨N, hN⟩
    refine ⟨N + 1, fun rounds hle => ?_⟩
    obtain ⟨n, rfl⟩ : ∃ n, rounds = n + 1 := ⟨rounds - 1, by omega⟩
    exact run_of_repeatRounds n (hN n (by omega))

/-! What the slot is known to be before the first round. -/

/-- The slot holds the text, and is not in the data of the event. -/
def Slot.Fits (slot : Slot) (h : Heap) (e : Event κ) (text : List Char) : Prop :=
  ∀ c s, slot.entry = some (c, s) → c.isContainer ∧ h.step c s = some (.str (String.ofList text)) ∧
    c.address < h.next ∧ ¬ Holds h e c.address

/-- The slot was written to and nothing else, or there is nothing to write to. -/
def Slot.Wrote (slot : Slot) (h : Heap) (w : Value) (h' : Heap) : Prop :=
  h.next ≤ h'.next ∧
    match slot.entry with
    | Option.none => h.Grows h'
    | some (c, s) => h.Writes c s w h'

theorem Slot.run_set_of_none (hentry : slot.entry = Option.none) (v : Value) :
    (slot.set v).run (Heap.handle order) h = (some (), h) := by
  cases slot with
  | none => rfl
  | key parent name =>
      by_cases hname : name = ""
      · rw [Slot.set, if_neg (not_not.mpr hname)]
        rfl
      · simp [Slot.entry, hname] at hentry
  | index parent idx => simp [Slot.entry] at hentry

theorem Slot.run_set_of_some (order : Finset String → List String)
    (hentry : slot.entry = some (c, s)) (hs : h.step c s ≠ Option.none)
    (v : Value) : ∃ h', (slot.set v).run (Heap.handle order) h = (some (), h') ∧
      h.Writes c s v h' ∧ h'.next = h.next := by
  cases slot with
  | none => simp [Slot.entry] at hentry
  | key parent name =>
      rw [Slot.entry] at hentry
      split_ifs at hentry with hname
      obtain ⟨rfl, rfl⟩ := Prod.mk.inj (Option.some.inj hentry)
      refine ⟨h.setKey parent name v, ?_, writes_setKey h parent name v, rfl⟩
      rw [Slot.set, if_pos hname]
      rfl
  | index parent idx =>
      obtain ⟨rfl, rfl⟩ := Prod.mk.inj (Option.some.inj hentry)
      have hidx : idx < (h.slices parent).length := by
        rw [Heap.step_index, ne_eq, List.getElem?_eq_none_iff, not_le] at hs
        exact hs
      exact ⟨h.setIndex parent idx v, rfl, writes_setIndex hidx v, rfl⟩

/-- Writing to the slot once more. -/
theorem Slot.Wrote.set (order : Finset String → List String) (hwrote : slot.Wrote h v h₁)
    (hgrows : h₁.Grows h₂)
    (halloc : ∀ c s, slot.entry = some (c, s) → c.address < h.next) (w : Value) :
    ∃ h', (slot.set w).run (Heap.handle order) h₂ = (some (), h') ∧ slot.Wrote h w h' ∧
      h'.next = h₂.next ∧ ∀ u, (∀ c s, slot.entry = some (c, s) → ¬ h₂.Reaches u c.address) →
        h₂.AllocatedBelow u → h₂.Keeps u h' := by
  obtain ⟨hnext, hslot⟩ := hwrote
  unfold Slot.Wrote
  cases hentry : slot.entry with
  | none =>
      rw [hentry] at hslot
      exact ⟨h₂, Slot.run_set_of_none hentry w, ⟨hnext.trans hgrows.next, hslot.trans hgrows⟩, rfl,
        fun u _ _ => .refl h₂ u⟩
  | some entry =>
      obtain ⟨c, s⟩ := entry
      rw [hentry] at hslot
      have hc := halloc c s hentry
      have hwrites : h.Writes c s v h₂ := hslot.grows hgrows hnext (hc.trans_le hnext)
      obtain ⟨h', hrun, hw', hnext'⟩ := Slot.run_set_of_some order hentry
        (by rw [hwrites.written]; exact Option.some_ne_none v) w
      have hnext₂ : h.next ≤ h₂.next := hnext.trans hgrows.next
      refine ⟨h', hrun, ⟨hnext₂.trans hnext'.ge, hwrites.trans hw' hnext₂⟩, hnext', ?_⟩
      intro u hu halloc'
      refine (hw'.changes hnext'.ge).keeps halloc' fun x hx heq => ?_
      exact hu c s rfl (heq ▸ hx)

/-- The data of the event are kept. -/
theorem Slot.Wrote.kept (hwrote : slot.Wrote h w h') (hdata : JsonData h e d)
    (hoff : ∀ c s, slot.entry = some (c, s) → ¬ Holds h e c.address) : KeptSince h e h' := by
  obtain ⟨hnext, hslot⟩ := hwrote
  cases hentry : slot.entry with
  | none =>
      rw [hentry] at hslot
      exact (KeptSince.refl h e).grows hdata hslot
  | some entry =>
      obtain ⟨c, s⟩ := entry
      rw [hentry] at hslot
      refine (KeptSince.refl h e).changes hdata (hslot.changes hnext) fun x hx heq => ?_
      exact hoff c s hentry (heq ▸ hx)

/-- `transform` writes the text after every round, and at the end the value of a text that is
nothing but braces. -/
theorem sound_textLoop (order : Finset String → List String) (hdata : JsonData h e d)
    (hslot : slot.Fits h e text) :
    (textLoop slot).Sound order e h d
      (fun expr h₁ => slot.Wrote h (.str (String.ofList expr)) h₁)
      (fun _ h' j => ∃ w, slot.Wrote h w h' ∧ h'.Shows w j ∧ h'.Fresh h.next w) id := by
  have hoff : ∀ c s, slot.entry = some (c, s) → ¬ Holds h e c.address :=
    fun c s hentry => (hslot c s hentry).2.2.2
  have halloc : ∀ c s, slot.entry = some (c, s) → c.address < h.next :=
    fun c s hentry => (hslot c s hentry).2.2.1
  refine ⟨fun expr h₁ hI => hI.kept hdata hoff, fun expr h₁ hI => ?_, ?_, ?_⟩
  · exact ⟨(), h₁, rfl, _, hI, shows_str h₁ _, Heap.fresh_of_not_container rfl _⟩
  · intro expr h₁ h₂ v pr ky j hI hgrows hshows hd hfresh
    obtain ⟨h', hrun, hwrote, hnext, hkeeps⟩ := hI.set order hgrows halloc v
    have hv : h₂.Keeps v h' := by
      refine hkeeps v (fun c s hentry hx => ?_) hfresh.allocated
      have hle := hI.1.trans (hfresh.made _ hx)
      exact absurd (halloc c s hentry) (not_lt.mpr hle)
    have hfresh' : h'.Fresh h₁.next v := hv.fresh hfresh hnext.ge
    exact ⟨(), h', hrun, v, hwrote, hv.shows hshows,
      ⟨fun x hx => hI.1.trans (hfresh'.made x hx), hfresh'.allocated, hfresh'.unshared⟩⟩
  · intro expr text h₁ h₂ hI hgrows
    obtain ⟨h', hrun, hwrote, -⟩ := hI.set order hgrows halloc (.str (String.ofList text))
    exact ⟨h', hrun, hwrote⟩

end Transform

/-! ## Substituting once -/

namespace GoLib

/-- A loop, taken round by round, stops with a right result, and in every round the first braces are
those of the next path of the template, with the values of the paths before it in their place; after
the last path no braces are left. -/
structure Template.Substitutes {α : Type} (t : Template) (order : Finset String → List String)
    (loop : ℕ → HeapProg α) (round : List Char → HeapProg (α ⊕ List Char)) (h : Heap)
    (value : List Char → Option Json) (Right : α → Heap → Prop) : Prop where
  stops : ∃ a h', Settles order loop h a h' ∧ Right a h'
  found : ∀ i path lit, t.tail[i]? = some (path, lit) →
    ∀ s, Rounds round order i (t.render, h) s →
      findBraces s.1 = .found (t.head ++ Template.expandTail value (t.tail.take i)) path
        (lit ++ Template.renderTail (t.tail.drop (i + 1)))
  none : ∀ s, Rounds round order t.tail.length (t.render, h) s → findBraces s.1 = .none

end GoLib

namespace Event

open Expansion (Ends)

variable {κ α : Type} {lib : Libs κ} {order : Finset String → List String} {e : Event κ}
  {h h' : Heap} {d : ℕ} {value : List Char → Option Json} {W : Json → Json} {t : Template}
  {L : BraceLoop α} {I : List Char → Heap → Prop} {R : α → Heap → Json → Prop}
  {loop : ℕ → HeapProg α} {Right : α → Heap → Prop}

/-- A loop substitutes once where the rounds on the text do. -/
theorem BraceLoop.Sound.substitutes_iff (hL : L.Sound order e h d I R W)
    (hlib : lib.CopiesJson order d) (hdata : JsonData h e d) (hpaths : PathValues lib h e d value)
    (hI : I t.render h)
    (hloop : ∀ a h', Settles order loop h a h' ↔
      Settles order (fun rounds => repeatRounds (L.round lib e) rounds t.render) h a h') :
    t.Substitutes order loop (L.round lib e) h value Right ↔
      t.Expandable value ∧ ∃ a h', Settles order loop h a h' ∧ Right a h' := by
  constructor
  · rintro ⟨⟨a, h', hsettles, hright⟩, hfound, hnone⟩
    refine ⟨(Template.expands_iff (W := W) t).mp ⟨?_, ?_, ?_⟩, a, h', hsettles, hright⟩
    · obtain ⟨j, hends, -⟩ := hL.ends_of_settles hlib hdata hpaths hI ((hloop a h').mp hsettles)
      exact ⟨j, hends⟩
    · intro i path lit hget expr hleads
      obtain ⟨h₁, hrun⟩ := hL.rounds hlib hdata hpaths hI hleads
      exact hfound i path lit hget (expr, h₁) hrun
    · intro expr hleads
      obtain ⟨h₁, hrun⟩ := hL.rounds hlib hdata hpaths hI hleads
      exact hnone (expr, h₁) hrun
  · rintro ⟨hexp, hstops⟩
    have honce := ((Template.expands_iff (W := W) t).mpr hexp).2
    refine ⟨hstops, fun i path lit hget s hrun => ?_, fun s hrun => ?_⟩
    · have hleads := (hL.leads hlib hdata hpaths (s := (t.render, h)) hI hrun).1
      exact honce.found i path lit hget s.1 hleads
    · have hleads := (hL.leads hlib hdata hpaths (s := (t.render, h)) hI hrun).1
      exact honce.none s.1 hleads

/-- A value that is a string is no other JSON value. -/
theorem eq_of_shows_str {h : Heap} {v : Value} {j : Json} {s : String} (hs : h.Shows v (.str s))
    (hj : h.Shows v j) : j = .str s := by
  rcases hs with hs | ⟨-, hs⟩
  · obtain rfl : v = .str s := hs
    rcases hj with hj | ⟨hnil, -⟩
    · exact (hj.eq_scalar_iff (u := .str s) rfl).mp rfl
    · cases hnil
  · cases hs

/-- `Evaluate` substitutes once. -/
theorem evaluate_substitutes_iff (hlib : lib.CopiesJson order d) (hdata : JsonData h e d)
    (hpaths : PathValues lib h e d value) :
    t.Substitutes order (fun rounds => evaluateText lib e rounds t.render) (evaluateRound lib e) h
        value (fun found h' => h'.Shows found.1 (t.result value)) ↔
      t.Expandable value ∧ t.Typed value := by
  have hL := sound_evaluateLoop order hdata
  have hI : KeptSince h e h := .refl h e
  have hloop : ∀ a h', Settles order (fun rounds => evaluateText lib e rounds t.render) h a h' ↔
      Settles order (fun rounds => repeatRounds (evaluateLoop.round lib e) rounds t.render) h a
        h' := by
    intro a h'
    simp only [evaluateText_eq, evaluateRound_eq]
  rw [evaluateRound_eq, hL.substitutes_iff hlib hdata hpaths hI hloop]
  refine and_congr_right fun hexp => ⟨?_, fun htyped => ?_⟩
  · rintro ⟨a, h', hsettles, hshows⟩
    refine hexp.typed fun j hends s hs => ?_
    obtain ⟨k, hk, hshows'⟩ := hL.ends_of_settles hlib hdata hpaths hI ((hloop a h').mp hsettles)
    rw [hs] at hshows
    rw [hends.unique hk]
    exact eq_of_shows_str hshows hshows'
  · obtain ⟨a, h', hsettles, hshows⟩ :=
      hL.settles hlib hdata hpaths hI (hexp.ends_result htyped)
    exact ⟨a, h', (hloop a h').mpr hsettles, hshows⟩

/-- `evalStr` substitutes once. -/
theorem evalStr_substitutes_iff (hlib : lib.CopiesJson order d) (hdata : JsonData h e d)
    (hpaths : PathValues lib h e d value) :
    t.Substitutes order (fun rounds => Ws.evalStr lib e rounds t.render)
        ((Ws.evalStrLoop lib).round lib e) h value (fun text _ => text = t.expand value) ↔
      t.Expandable value := by
  have hL := Ws.sound_evalStrLoop hlib hdata
  have hI : KeptSince h e h := .refl h e
  have hloop : ∀ a h', Settles order (fun rounds => Ws.evalStr lib e rounds t.render) h a h' ↔
      Settles order (fun rounds => repeatRounds ((Ws.evalStrLoop lib).round lib e) rounds t.render)
        h a h' := by
    intro a h'
    simp only [Ws.evalStr_eq]
  rw [hL.substitutes_iff hlib hdata hpaths hI hloop]
  refine and_iff_left_of_imp fun hexp => ?_
  obtain ⟨a, h', hsettles, htext⟩ := hL.settles hlib hdata hpaths hI hexp.ends_expand
  exact ⟨a, h', (hloop a h').mpr hsettles, (String.ofList_injective (Json.str.inj htext)).symm⟩

end Event

namespace Transform

open Event
open Expansion (Ends)

variable {κ : Type} {lib : Libs κ} {order : Finset String → List String} {e : Event κ}
  {h h' : Heap} {d : ℕ} {value : List Char → Option Json} {t : Template} {slot : Slot}

/-- What is in the slot; a text without a slot stays as it is. -/
def Slot.held (slot : Slot) (h : Heap) (text : List Char) : Option Value :=
  match slot.entry with
  | Option.none => some (.str (String.ofList text))
  | some (c, s) => h.step c s

/-- The slot holds the text before the first round. -/
theorem Slot.Fits.wrote {text : List Char} (hslot : slot.Fits h e text) :
    slot.Wrote h (.str (String.ofList text)) h := by
  refine ⟨le_rfl, ?_⟩
  cases hentry : slot.entry with
  | none => exact .refl _ h
  | some entry =>
      obtain ⟨c, s⟩ := entry
      obtain ⟨hc, hs, -⟩ := hslot c s hentry
      exact Heap.writes_of_step hc hs

/-- A template that is expanded path by path becomes some value. -/
theorem exists_ends (hexp : t.Expandable value) : ∃ j, Ends value id t.render j := by
  by_cases hbare : t.Bare value
  · obtain ⟨hlead, path, hlast⟩ := hbare
    obtain ⟨j, -, hends⟩ := hexp.ends_bare (W := id) hlead hlast
    exact ⟨j, hends⟩
  · exact ⟨_, hexp.ends_text hbare⟩

/-- The string case of `transform` substitutes once. -/
theorem transform_substitutes_iff (hlib : lib.CopiesJson order d) (hdata : JsonData h e d)
    (hpaths : PathValues lib h e d value) (hslot : slot.Fits h e t.render) :
    t.Substitutes order (fun rounds => transformText lib e slot rounds t.render)
        ((textLoop slot).round lib e) h value
        (fun _ h' => ∃ w, slot.held h' t.render = some w ∧ h'.Shows w (t.result value)) ↔
      t.Expandable value ∧ if slot.entry = Option.none
        then t.result value = .str (String.ofList t.render) else t.Typed value := by
  have hL := sound_textLoop order hdata hslot
  have hI := hslot.wrote
  rw [hL.substitutes_iff hlib hdata hpaths hI fun a h' => settles_transformText]
  refine and_congr_right fun hexp => ?_
  unfold Slot.held
  cases hentry : slot.entry with
  | none =>
      rw [if_pos rfl]
      constructor
      · rintro ⟨a, h', -, w, hw, hshows⟩
        obtain rfl := Option.some.inj hw
        exact eq_of_shows_str (shows_str h' _) hshows
      · intro hresult
        obtain ⟨j, hends⟩ := exists_ends hexp
        obtain ⟨a, h', hsettles, -⟩ := hL.settles hlib hdata hpaths hI hends
        refine ⟨a, h', settles_transformText.mpr hsettles, _, rfl, ?_⟩
        rw [hresult]
        exact shows_str h' _
  | some entry =>
      obtain ⟨c, s⟩ := entry
      have hwritten : ∀ {w h'}, slot.Wrote h w h' → h'.step c s = some w := by
        intro w h' hwrote
        have hslot' := hwrote.2
        rw [hentry] at hslot'
        exact hslot'.written
      rw [if_neg (Option.some_ne_none _)]
      constructor
      · rintro ⟨a, h', hsettles, w, hw, hshows⟩
        refine hexp.typed fun j hends text htext => ?_
        obtain ⟨k, hk, w', hwrote, hshows', -⟩ :=
          hL.ends_of_settles hlib hdata hpaths hI (settles_transformText.mp hsettles)
        obtain rfl := Option.some.inj (hw.symm.trans (hwritten hwrote))
        rw [htext] at hshows
        rw [hends.unique hk]
        exact eq_of_shows_str hshows hshows'
      · intro htyped
        obtain ⟨a, h', hsettles, w, hwrote, hshows, -⟩ :=
          hL.settles hlib hdata hpaths hI (hexp.ends_result htyped)
        exact ⟨a, h', settles_transformText.mpr hsettles, w, hwritten hwrote, hshows⟩

/-- **Which templates are expanded right.**  For every template, every event with JSON data and
every slot, the three loops stop with each path replaced by its value, and expand nothing that they have
inserted, exactly when

* `GetPathValue` panics on no path, there is no brace in the expanded text before the last path, and
  the expanded text does not have both braces, unless nothing is left around the last path,
* a value around which nothing is left is a string, unless the template is this path,
* there is a slot, or the template becomes itself. -/
theorem expansion_iff (hlib : lib.CopiesJson order d) (hdata : JsonData h e d)
    (hpaths : PathValues lib h e d value) (t : Template) (hslot : slot.Fits h e t.render) :
    t.Substitutes order (fun rounds => evaluateText lib e rounds t.render) (evaluateRound lib e) h
        value (fun found h' => h'.Shows found.1 (t.result value)) ∧
      t.Substitutes order (fun rounds => transformText lib e slot rounds t.render)
        ((textLoop slot).round lib e) h value
        (fun _ h' => ∃ w, slot.held h' t.render = some w ∧ h'.Shows w (t.result value)) ∧
      t.Substitutes order (fun rounds => Ws.evalStr lib e rounds t.render)
        ((Ws.evalStrLoop lib).round lib e) h value (fun text _ => text = t.expand value) ↔
      t.Expandable value ∧ t.Typed value ∧
        (slot.entry ≠ Option.none ∨ t.result value = .str (String.ofList t.render)) := by
  rw [evaluate_substitutes_iff hlib hdata hpaths, transform_substitutes_iff hlib hdata hpaths hslot,
    evalStr_substitutes_iff hlib hdata hpaths]
  by_cases hentry : slot.entry = Option.none
  · rw [if_pos hentry]
    tauto
  · rw [if_neg hentry]
    tauto

/-- An `x` before the payload. -/
def dotTemplate : Template where
  head := ['x']
  tail := [(['.'], [])]
  head_open := by decide
  tail_braces := by decide

/-- An event whose payload is a string. -/
def textEvent (s : String) : Event Unit := { sampleEvent none with payload := .str s }

/-- An object that holds the template under `t`. -/
def templateHeap : Heap :=
  Heap.empty.makeMap.1.setKey 0 "t" (.str (String.ofList dotTemplate.render))

theorem jsonData_textEvent (h : Heap) (s : String) : JsonData h (textEvent s) 0 where
  payload := ⟨.str s, Or.inl rfl, le_rfl⟩
  metadata := ⟨.null, Or.inr ⟨rfl, rfl⟩, le_rfl⟩
  allocatedPayload := (Heap.fresh_of_not_container rfl 0).allocated
  allocatedMetadata := (Heap.fresh_of_not_container rfl 0).allocated

theorem fits_templateHeap (s : String) :
    (Slot.key 0 "t").Fits templateHeap (textEvent s) dotTemplate.render := by
  intro c s' hentry
  obtain ⟨rfl, rfl⟩ := Prod.mk.inj (Option.some.inj hentry)
  refine ⟨rfl, Heap.getKey_setKey_self _ _ _ _, Nat.zero_lt_one, ?_⟩
  rintro (hx | hx)
  · exact Heap.not_reaches rfl hx
  · exact Heap.not_reaches rfl hx

/-- The path `.` leads to the payload. -/
theorem value_dot {s : String}
    (hpaths : PathValues scalarCodec h (textEvent s) 0 value) :
    value ['.'] = some (.str s) := by
  have hlookup : (textEvent s).lookup scalarCodec h (String.ofList ['.']) =
      some (.str s) := rfl
  cases hvalue : value ['.'] with
  | none =>
      rw [hpaths.lost _ hvalue] at hlookup
      cases hlookup
  | some j =>
      obtain ⟨v, hv, hshows, -⟩ := hpaths.found _ j hvalue
      obtain rfl := Option.some.inj (hlookup.symm.trans hv)
      rw [eq_of_shows_str (shows_str h s) hshows]

/-- A payload without braces is inserted. -/
theorem expansion_iff_dot : ∃ value, PathValues scalarCodec templateHeap (textEvent "a") 0 value ∧
    dotTemplate.Substitutes ascending
        (fun rounds => evaluateText scalarCodec (textEvent "a") rounds dotTemplate.render)
        (evaluateRound scalarCodec (textEvent "a")) templateHeap value
        (fun found h' => h'.Shows found.1 (dotTemplate.result value)) ∧
      dotTemplate.Substitutes ascending
        (fun rounds => transformText scalarCodec (textEvent "a") (.key 0 "t") rounds
          dotTemplate.render)
        ((textLoop (.key 0 "t")).round scalarCodec (textEvent "a")) templateHeap value
        (fun _ h' => ∃ w, (Slot.key 0 "t").held h' dotTemplate.render = some w ∧
          h'.Shows w (dotTemplate.result value)) ∧
      dotTemplate.Substitutes ascending
        (fun rounds => Ws.evalStr scalarCodec (textEvent "a") rounds dotTemplate.render)
        ((Ws.evalStrLoop scalarCodec).round scalarCodec (textEvent "a")) templateHeap value
        (fun text _ => text = dotTemplate.expand value) := by
  obtain ⟨value, hpaths⟩ := exists_pathValues scalarCodec (jsonData_textEvent templateHeap "a")
  have hvalue := value_dot hpaths
  have hexpand : dotTemplate.expand value = ['x', 'a'] := by
    rw [Template.expand, dotTemplate, Template.expandTail_cons hvalue]
    rfl
  have hlead : dotTemplate.lead value = ['x'] := rfl
  refine ⟨value, hpaths, (expansion_iff (copiesJson_scalarCodec ascending)
    (jsonData_textEvent templateHeap "a") hpaths dotTemplate (fits_templateHeap "a")).mpr
      ⟨⟨?_, ?_, ?_⟩, ?_, ?_⟩⟩
  · intro f hf
    obtain rfl := List.mem_singleton.mp hf
    rw [hvalue]
    exact Option.some_ne_none _
  · rw [hlead]
    exact fun _ => ⟨by decide, by decide⟩
  · rw [hexpand]
    exact Or.inr (Or.inl (by decide))
  · intro path hnil
    rw [hlead] at hnil
    cases hnil
  · exact Or.inl (by decide)

/-- A payload that refers to itself is inserted again and again. -/
theorem expansion_loops :
    ∃ value, PathValues scalarCodec templateHeap (textEvent "\x7b.\x7d") 0 value ∧
      (∀ found h', ¬ Settles ascending (fun rounds =>
        evaluateText scalarCodec (textEvent "\x7b.\x7d") rounds dotTemplate.render) templateHeap
          found h') ∧
      (∀ a h', ¬ Settles ascending (fun rounds => transformText scalarCodec
        (textEvent "\x7b.\x7d") (.key 0 "t") rounds dotTemplate.render) templateHeap a h') ∧
      ∀ text h', ¬ Settles ascending (fun rounds =>
        Ws.evalStr scalarCodec (textEvent "\x7b.\x7d") rounds dotTemplate.render) templateHeap
          text h' := by
  have hdata := jsonData_textEvent templateHeap "\x7b.\x7d"
  have hlib := copiesJson_scalarCodec ascending
  obtain ⟨value, hpaths⟩ := exists_pathValues scalarCodec hdata
  have hfound : findBraces dotTemplate.render = .found ['x'] ['.'] [] := by decide
  have hcycle : Expansion.round value dotTemplate.render = .next dotTemplate.render := by
    rw [Expansion.round_of_found hfound (value_dot hpaths), if_neg (by simp)]
    rfl
  refine ⟨value, hpaths, fun found h' hsettles => ?_, fun a h' hsettles => ?_,
    fun text h' hsettles => ?_⟩
  · simp only [evaluateText_eq, evaluateRound_eq] at hsettles
    obtain ⟨j, hends, -⟩ := (sound_evaluateLoop _ hdata).ends_of_settles hlib hdata hpaths
      (.refl _ _) hsettles
    exact Expansion.not_ends_of_cycle hcycle hends
  · have hslot := fits_templateHeap "\x7b.\x7d"
    obtain ⟨j, hends, -⟩ := (sound_textLoop _ hdata hslot).ends_of_settles hlib hdata hpaths
      hslot.wrote (settles_transformText.mp hsettles)
    exact Expansion.not_ends_of_cycle hcycle hends
  · simp only [Ws.evalStr_eq] at hsettles
    obtain ⟨j, hends, -⟩ := (Ws.sound_evalStrLoop hlib hdata).ends_of_settles hlib hdata hpaths
      (.refl _ _) hsettles
    exact Expansion.not_ends_of_cycle hcycle hends

end Transform
