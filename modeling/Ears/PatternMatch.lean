/-
# Pattern matchers (`pkg/filter/match/pattern`, `pkg/filter/match/patternregex`)

Both matchers ask whether a pattern is contained in a value of the event: every field of an
object of the pattern in the object of the payload, every element of an array of the pattern
somewhere in the array of the payload.  They differ in the texts of the pattern, which are
plain texts with the wildcard `*` in one and regular expressions in the other.

`Covers` is what `contains` computes (`run_contains`).  It is a preorder for the plain
matcher (`contains_preorder`).  With `exactArrayMatch` an element of the payload may serve
for two elements of the pattern, so the arrays need not have the same elements
(`exact_array_match_iff`).
-/
import Ears.JsonHeap
import Ears.PathLens
import Ears.LibraryFilters

open GoLib

namespace Match

/-! ## The matchers -/

/-- Numbers that Go takes for equal: the two zeros have different texts. -/
def sameNumber (s t : String) : Bool := s == t || (s ∈ ["0", "-0"] && t ∈ ["0", "-0"])

/-- `a == b` for a number `b`. -/
def isNumber (t : String) : Value → Bool
  | .num s => sameNumber s t
  | _ => false

/-- The inner loop of `contains`: some element passes a test. -/
def containsAny (test : Value → HeapProg Bool) (a : Ref) : List ℕ → HeapProg Bool
  | [] => pure false
  | i :: is => do
      let va ← HeapProg.index a i
      if ← test va then pure true else containsAny test a is

mutual

/-- `contains(a, b)`, with the comparison of a value that is not nil and a text of the pattern. -/
def containsWith (text : Value → String → Bool) (exactArrayMatch : Bool) :
    Value → Json → HeapProg Bool
  | a, .null => pure (a == .nil)
  | a, .bool b => pure (a == .bool b)
  | a, .num t => pure (isNumber t a)
  | a, .str s => pure (a != .nil && text a s)
  | a, .arr bs =>
      match a with
      | .slice r => do
          let n ← HeapProg.len r
          if exactArrayMatch && n != bs.length then pure false
          else containsElems text exactArrayMatch r n bs
      | _ => pure false
  | a, .obj fields =>
      match a with
      | .map _ => containsFields text exactArrayMatch a fields
      | .nilMap => containsFields text exactArrayMatch a fields
      | _ => pure false

/-- The loop over the elements of an array of the pattern. -/
def containsElems (text : Value → String → Bool) (exactArrayMatch : Bool) (r : Ref) (n : ℕ) :
    List Json → HeapProg Bool
  | [] => pure true
  | vb :: bs => do
      if ← containsAny (fun va => containsWith text exactArrayMatch va vb) r (List.range n) then
        containsElems text exactArrayMatch r n bs
      else pure false

/-- The loop over the fields of an object of the pattern. -/
def containsFields (text : Value → String → Bool) (exactArrayMatch : Bool) (a : Value) :
    List (String × Json) → HeapProg Bool
  | [] => pure true
  | (k, vb) :: fields => do
      let va ← HeapProg.lookup a k
      if ← containsWith text exactArrayMatch va vb then
        containsFields text exactArrayMatch a fields
      else pure false

end

/-- `Matcher`. -/
structure Matcher where
  pattern : Json := .null
  patterns : List Json := []
  patternsLogic : String := ""
  exactArrayMatch : Bool := false
  path : String := ""

/-- The loop of `Match` over several patterns. -/
def matchPatterns (contains : Json → HeapProg Bool) (andLogic : Bool) :
    List Json → Bool → HeapProg Bool
  | [], found => pure found
  | pattern :: rest, _ => do
      let found ← contains pattern
      if andLogic && !found then pure false
      else if !andLogic && found then pure true
      else matchPatterns contains andLogic rest found

/-- `Match(event)`, with `contains` of the matcher. -/
def matchWith {κ : Type} (contains : Value → Json → HeapProg Bool) (m : Matcher) (lib : Libs κ)
    (evt : Event κ) : HeapProg Bool :=
  match m.pattern with
  | .null => pure false
  | _ => do
      let (obj, _, _) ← Event.getPathValue lib evt m.path
      if m.patterns ≠ [] then
        matchPatterns (contains obj) (!(m.patternsLogic == "or" || m.patternsLogic == "OR"))
          m.patterns false
      else contains obj m.pattern

namespace Pattern

/-- A text of the pattern: the wildcard, or the same text. -/
def text (a : Value) (b : String) : Bool := b == "*" || a == .str b

/-- `contains(a, b)` of the package `pattern`. -/
def contains (exactArrayMatch : Bool) : Value → Json → HeapProg Bool :=
  containsWith text exactArrayMatch

/-- `Match(event)` of the package `pattern`. -/
def matchEvent {κ : Type} (m : Matcher) (lib : Libs κ) (evt : Event κ) : HeapProg Bool :=
  matchWith (contains m.exactArrayMatch) m lib evt

end Pattern

namespace PatternRegex

/-- A text of the pattern: a regular expression for a text; `compile` gives the `MatchString`
of the expression. -/
def text (compile : String → Except String (String → Bool)) (a : Value) (b : String) : Bool :=
  match a, compile b with
  | .str s, .ok matchString => matchString s
  | _, _ => false

/-- `contains(a, b)` of the package `patternregex`. -/
def contains (compile : String → Except String (String → Bool)) (exactArrayMatch : Bool) :
    Value → Json → HeapProg Bool :=
  containsWith (text compile) exactArrayMatch

/-- `Match(event)` of the package `patternregex`. -/
def matchEvent {κ : Type} (compile : String → Except String (String → Bool)) (m : Matcher)
    (lib : Libs κ) (evt : Event κ) : HeapProg Bool :=
  matchWith (contains compile m.exactArrayMatch) m lib evt

end PatternRegex

/-! ## What `contains` computes -/

mutual

/-- The pattern is contained in the value; `text` says when a text of the pattern is. -/
def Covers (text : Json → String → Prop) (exactArrayMatch : Prop) : Json → Json → Prop
  | a, .null => a = .null
  | a, .bool b => a = .bool b
  | a, .num t => ∃ s, a = .num s ∧ sameNumber s t = true
  | a, .str s => a ≠ .null ∧ text a s
  | a, .arr bs =>
      ∃ as, a = .arr as ∧ (exactArrayMatch → as.length = bs.length) ∧
        CoversElems text exactArrayMatch as bs
  | a, .obj fields => ∃ fs, a = .obj fs ∧ CoversFields text exactArrayMatch fs fields

/-- Every element of the pattern is contained in some element. -/
def CoversElems (text : Json → String → Prop) (exactArrayMatch : Prop) (as : List Json) :
    List Json → Prop
  | [] => True
  | vb :: bs =>
      (∃ va ∈ as, Covers text exactArrayMatch va vb) ∧ CoversElems text exactArrayMatch as bs

/-- Every field of the pattern is contained in the field with its key. -/
def CoversFields (text : Json → String → Prop) (exactArrayMatch : Prop)
    (fs : List (String × Json)) : List (String × Json) → Prop
  | [] => True
  | (k, vb) :: fields =>
      Covers text exactArrayMatch (Json.get fs k) vb ∧ CoversFields text exactArrayMatch fs fields

end

section Meaning

variable {text : Value → String → Bool} {textOf : Json → String → Prop} {exactArrayMatch : Bool}
  {order : Finset String → List String} {h : Heap} {v : Value} {a b c : Json}
  {as bs : List Json} {fs fields : List (String × Json)} {r : Ref}

theorem coversElems_iff {P : Prop} : CoversElems textOf P as bs ↔
    ∀ vb ∈ bs, ∃ va ∈ as, Covers textOf P va vb := by
  induction bs with
  | nil => simp [CoversElems]
  | cons vb bs ih => simp [CoversElems, ih]

theorem coversFields_iff {P : Prop} : CoversFields textOf P fs fields ↔
    ∀ f ∈ fields, Covers textOf P (Json.get fs f.1) f.2 := by
  induction fields with
  | nil => simp [CoversFields]
  | cons f fields ih =>
      obtain ⟨k, vb⟩ := f
      simp [CoversFields, ih]

/-- A program that reads the heap, and whether it answers yes. -/
def Answers (order : Finset String → List String) (h : Heap) (p : HeapProg Bool) (P : Prop) :
    Prop :=
  ∃ b, p.run (Heap.handle order) h = (some b, h) ∧ (b = true ↔ P)

theorem Answers.pure {b : Bool} {P : Prop} (hb : b = true ↔ P) :
    Answers order h (pure b) P := ⟨b, rfl, hb⟩

theorem Answers.congr {p : HeapProg Bool} {P Q : Prop} (hp : Answers order h p P) (hPQ : P ↔ Q) :
    Answers order h p Q := by
  obtain ⟨b, hrun, hb⟩ := hp
  exact ⟨b, hrun, hb.trans hPQ⟩

/-- A test, and then another one if it succeeds. -/
theorem Answers.and {p q : HeapProg Bool} {P Q : Prop} (hp : Answers order h p P)
    (hq : Answers order h q Q) :
    Answers order h (do if ← p then q else Pure.pure false) (P ∧ Q) := by
  obtain ⟨b, hrun, hb⟩ := hp
  obtain ⟨b', hrun', hb'⟩ := hq
  cases b with
  | true =>
      refine ⟨b', ?_, by simp [← hb, hb']⟩
      rw [Prog.run_bind_of_some _ _ hrun, if_pos rfl, hrun']
  | false =>
      refine ⟨false, ?_, by simp [← hb]⟩
      rw [Prog.run_bind_of_some _ _ hrun]
      rfl

/-- A test, and then another one if it fails. -/
theorem Answers.or {p q : HeapProg Bool} {P Q : Prop} (hp : Answers order h p P)
    (hq : Answers order h q Q) :
    Answers order h (do if ← p then Pure.pure true else q) (P ∨ Q) := by
  obtain ⟨b, hrun, hb⟩ := hp
  obtain ⟨b', hrun', hb'⟩ := hq
  cases b with
  | true =>
      refine ⟨true, ?_, by simp [← hb]⟩
      rw [Prog.run_bind_of_some _ _ hrun]
      rfl
  | false =>
      refine ⟨b', ?_, by simp [← hb, hb']⟩
      rw [Prog.run_bind_of_some _ _ hrun, if_neg (by simp), hrun']

/-- A check that ends the program, and then a test. -/
theorem Answers.unless {p : HeapProg Bool} {P : Prop} (hp : Answers order h p P) (stop : Bool) :
    Answers order h (if stop then Pure.pure false else p) (stop = false ∧ P) := by
  cases stop with
  | true => exact .pure (by simp)
  | false => exact hp.congr (by simp)

/-- The inner loop finds an element that passes. -/
theorem answers_containsAny {test : Value → HeapProg Bool} {P : ℕ → Prop} (is : List ℕ)
    (htest : ∀ i ∈ is, Answers order h (test ((h.slices r).getD i .nil)) (P i)) :
    Answers order h (containsAny test r is) (∃ i ∈ is, P i) := by
  induction is with
  | nil => exact .pure (by simp)
  | cons i is ih =>
      obtain ⟨hi, his⟩ := List.forall_mem_cons.mp htest
      obtain ⟨b, hrun, hb⟩ := hi.or (ih his)
      refine ⟨b, ?_, by simpa using hb⟩
      rw [containsAny, Prog.run_bind_of_some _ _ (HeapProg.run_index order h r i)]
      exact hrun

/-- The inner loop over all elements of an array. -/
theorem answers_containsAny_range {test : Value → HeapProg Bool} {P : Json → Prop}
    (has : List.Forall₂ h.Represents (h.slices r) as)
    (htest : ∀ v a, h.Represents v a → Answers order h (test v) (P a)) :
    Answers order h (containsAny test r (List.range (h.slices r).length)) (∃ va ∈ as, P va) := by
  refine (answers_containsAny (P := fun i => P (as.getD i .null)) _ ?_).congr ?_
  · intro i hi
    have hlt := List.mem_range.mp hi
    have hrep := (List.forall₂_iff_get.mp has).2 i hlt (has.length_eq ▸ hlt)
    rw [List.getD_eq_getElem _ _ hlt, List.getD_eq_getElem _ _ (has.length_eq ▸ hlt)]
    exact htest _ _ hrep
  · constructor
    · rintro ⟨i, hi, hP⟩
      have hlt : i < as.length := has.length_eq ▸ List.mem_range.mp hi
      rw [List.getD_eq_getElem _ _ hlt] at hP
      exact ⟨_, List.getElem_mem hlt, hP⟩
    · rintro ⟨va, hva, hP⟩
      obtain ⟨i, hlt, rfl⟩ := List.getElem_of_mem hva
      refine ⟨i, List.mem_range.mpr (has.length_eq ▸ hlt), ?_⟩
      rwa [List.getD_eq_getElem _ _ hlt]

/-- The loop over the elements of the pattern. -/
theorem answers_containsElems {P : Prop} (has : List.Forall₂ h.Represents (h.slices r) as)
    (hbs : ∀ vb ∈ bs, ∀ v a, h.Represents v a →
      Answers order h (containsWith text exactArrayMatch v vb) (Covers textOf P a vb)) :
    Answers order h (containsElems text exactArrayMatch r (h.slices r).length bs)
      (CoversElems textOf P as bs) := by
  induction bs with
  | nil => exact .pure (by simp [CoversElems])
  | cons vb bs ih =>
      obtain ⟨hvb, hbs⟩ := List.forall_mem_cons.mp hbs
      rw [containsElems, CoversElems]
      exact (answers_containsAny_range has hvb).and (ih hbs)

/-- The loop over the fields of the pattern. -/
theorem answers_containsFields {P : Prop} (hv : h.Represents (.map r) (.obj fs))
    (hfields : ∀ f ∈ fields, ∀ v a, h.Represents v a →
      Answers order h (containsWith text exactArrayMatch v f.2) (Covers textOf P a f.2)) :
    Answers order h (containsFields text exactArrayMatch (.map r) fields)
      (CoversFields textOf P fs fields) := by
  induction fields with
  | nil => exact .pure (by simp [CoversFields])
  | cons f fields ih =>
      obtain ⟨k, vb⟩ := f
      obtain ⟨hvb, hfields⟩ := List.forall_mem_cons.mp hfields
      rw [containsFields, CoversFields]
      obtain ⟨b, hrun, hb⟩ :=
        (hvb _ _ (Heap.represents_getKey hv k)).and (ih hfields)
      refine ⟨b, ?_, hb⟩
      rw [Prog.run_bind_of_some _ _ (HeapProg.run_lookup order h r k)]
      exact hrun

/-- `contains` says whether the pattern is contained in the JSON value of the heap. -/
theorem run_contains
    (htext : ∀ v a s, h.Represents v a → a ≠ .null → (text v s = true ↔ textOf a s))
    (hv : h.Represents v a) :
    Answers order h (containsWith text exactArrayMatch v b)
      (Covers textOf (exactArrayMatch = true) a b) := by
  induction b using Json.tree_induction generalizing v a with
  | null =>
      rw [containsWith]
      exact .pure (by rw [beq_iff_eq, hv.eq_scalar_iff rfl, Covers])
  | bool b =>
      rw [containsWith]
      exact .pure (by rw [beq_iff_eq, hv.eq_scalar_iff rfl, Covers])
  | num t =>
      rw [containsWith]
      refine .pure ?_
      rw [Covers]
      constructor
      · intro hnum
        cases v with
        | num s => exact ⟨s, (hv.eq_scalar_iff rfl).mp rfl, hnum⟩
        | _ => simp [isNumber] at hnum
      · rintro ⟨s, hs, hnum⟩
        rw [(hv.eq_scalar_iff (u := .num s) rfl).mpr hs]
        exact hnum
  | str s =>
      rw [containsWith]
      refine .pure ?_
      have hnil : v ≠ .nil ↔ a ≠ .null := (hv.eq_scalar_iff rfl).not
      rw [Covers, Bool.and_eq_true, bne_iff_ne, hnil]
      exact and_congr_right fun hne => htext v a s hv hne
  | arr bs ih =>
      cases v with
      | slice r =>
          obtain ⟨as, rfl, has⟩ := Heap.represents_slice.mp hv
          rw [containsWith]
          have hbs : ∀ vb ∈ bs, ∀ v a, h.Represents v a →
              Answers order h (containsWith text exactArrayMatch v vb)
                (Covers textOf (exactArrayMatch = true) a vb) :=
            fun vb hvb v a hv => ih vb hvb hv
          have helems := answers_containsElems has hbs
          obtain ⟨b, hrun, hb⟩ :=
            helems.unless (exactArrayMatch && (h.slices r).length != bs.length)
          refine ⟨b, ?_, ?_⟩
          · rw [Prog.run_bind_of_some _ _ (HeapProg.run_len order h r)]
            exact hrun
          · rw [hb, Covers, has.length_eq]
            cases exactArrayMatch <;> simp
      | _ =>
          rw [containsWith]
          · refine .pure (iff_of_false (by simp) ?_)
            rw [Covers]
            rintro ⟨as, rfl, -⟩
            simp [Heap.represents_arr] at hv
          · simp
  | obj fields ih =>
      cases v with
      | map r =>
          obtain ⟨fs, rfl⟩ := hv.exists_fields
          rw [containsWith]
          refine (answers_containsFields hv fun f hf v a hv => ih f hf hv).congr ?_
          rw [Covers]
          simp
      | nilMap => exact absurd hv Heap.not_represents_nilMap
      | _ =>
          rw [containsWith]
          · refine .pure (iff_of_false (by simp) ?_)
            rw [Covers]
            rintro ⟨fs, rfl, -⟩
            simp [Heap.represents_obj] at hv
          · simp
          · simp

end Meaning

/-! ## Plain patterns are a preorder -/

/-- A text of a plain pattern. -/
def PlainText (a : Json) (b : String) : Prop := b = "*" ∨ a = .str b

section Preorder

variable {P : Prop} {order : Finset String → List String} {h : Heap} {v : Value} {a b c : Json}
  {exactArrayMatch : Bool}

theorem sameNumber_refl (s : String) : sameNumber s s = true := by simp [sameNumber]

theorem sameNumber_trans {s t u : String} (hst : sameNumber s t = true)
    (htu : sameNumber t u = true) : sameNumber s u = true := by
  simp only [sameNumber, Bool.or_eq_true, Bool.and_eq_true, beq_iff_eq, decide_eq_true_eq]
    at hst htu ⊢
  rcases hst with rfl | ⟨hs, ht⟩
  · exact htu
  · rcases htu with rfl | ⟨-, hu⟩
    · exact Or.inr ⟨hs, ht⟩
    · exact Or.inr ⟨hs, hu⟩

/-- `contains` of the package `pattern`. -/
theorem answers_pattern (hv : h.Represents v a) (b : Json) :
    Answers order h (Pattern.contains exactArrayMatch v b)
      (Covers PlainText (exactArrayMatch = true) a b) := by
  refine run_contains ?_ hv
  intro v a s hv _
  rw [Pattern.text, PlainText, Bool.or_eq_true, beq_iff_eq, beq_iff_eq, hv.eq_scalar_iff rfl]

theorem covers_refl (hv : h.Represents v a) : Covers PlainText P a a := by
  induction a using Json.tree_induction generalizing v with
  | null => rw [Covers]
  | bool b => rw [Covers]
  | num t =>
      rw [Covers]
      exact ⟨t, rfl, sameNumber_refl t⟩
  | str s =>
      rw [Covers]
      exact ⟨by simp, Or.inr rfl⟩
  | arr elems ih =>
      obtain ⟨r, rfl, helems⟩ := Heap.represents_arr.mp hv
      rw [Covers]
      refine ⟨elems, rfl, fun _ => rfl, coversElems_iff.mpr fun j hj => ⟨j, hj, ?_⟩⟩
      obtain ⟨i, hi, rfl⟩ := List.getElem_of_mem hj
      exact ih _ hj ((List.forall₂_iff_get.mp helems).2 i (helems.length_eq ▸ hi) hi)
  | obj fields ih =>
      obtain ⟨r, rfl, hnodup, -, hfields⟩ := Heap.represents_obj.mp hv
      rw [Covers]
      refine ⟨fields, rfl, coversFields_iff.mpr fun f hf => ?_⟩
      obtain ⟨u, -, hu⟩ := hfields f hf
      rw [Json.get_of_mem hnodup hf]
      exact ih f hf hu

/-- Only null contains null. -/
theorem Covers.ne_null {text : Json → String → Prop} (hab : Covers text P a b) (hb : b ≠ .null) :
    a ≠ .null := by
  rintro rfl
  cases b <;> simp_all [Covers]

theorem covers_trans (hc : c.NullFree) (hab : Covers PlainText P a b)
    (hbc : Covers PlainText P b c) : Covers PlainText P a c := by
  induction c using Json.tree_induction generalizing a b with
  | null => simp [Json.NullFree] at hc
  | bool d =>
      rw [Covers] at hbc
      rwa [hbc] at hab
  | num u =>
      rw [Covers] at hbc ⊢
      obtain ⟨t, rfl, htu⟩ := hbc
      rw [Covers] at hab
      obtain ⟨s, rfl, hst⟩ := hab
      exact ⟨s, rfl, sameNumber_trans hst htu⟩
  | str s =>
      rw [Covers] at hbc ⊢
      obtain ⟨hb, rfl | rfl⟩ := hbc
      · exact ⟨hab.ne_null hb, Or.inl rfl⟩
      · rwa [Covers] at hab
  | arr cs ih =>
      rw [Covers] at hbc ⊢
      obtain ⟨bs, rfl, hlen, hcs⟩ := hbc
      rw [Covers] at hab
      obtain ⟨as, rfl, hlen', hbs⟩ := hab
      rw [coversElems_iff] at hcs hbs
      refine ⟨as, rfl, fun hP => (hlen' hP).trans (hlen hP), coversElems_iff.mpr fun vc hvc => ?_⟩
      obtain ⟨vb, hvb, hbc⟩ := hcs vc hvc
      obtain ⟨va, hva, hab⟩ := hbs vb hvb
      rw [Json.NullFree, Json.nullFreeElems_iff] at hc
      exact ⟨va, hva, ih vc hvc (hc vc hvc) hab hbc⟩
  | obj fields ih =>
      rw [Covers] at hbc ⊢
      obtain ⟨bs, rfl, hfields⟩ := hbc
      rw [Covers] at hab
      obtain ⟨as, rfl, hbs⟩ := hab
      rw [coversFields_iff] at hfields hbs
      refine ⟨as, rfl, coversFields_iff.mpr fun f hf => ?_⟩
      rw [Json.NullFree, Json.nullFreeFields_iff] at hc
      have hbc := hfields f hf
      -- the field of the pattern is not null, so the value in the middle has it
      have hne : f.2 ≠ .null := by
        intro hnull
        have hnf := hc f hf
        rw [hnull] at hnf
        simp [Json.NullFree] at hnf
      obtain ⟨j, hj⟩ := Json.lookup_of_get_ne (hbc.ne_null hne)
      have hab := hbs _ (Json.mem_of_lookup hj)
      have hget : Json.get bs f.1 = j := by rw [Json.get, hj, Option.getD_some]
      rw [hget] at hbc
      exact ih f hf (hc f hf) hab hbc

end Preorder

/-! ## Matching a null-free pattern -/

/-- The program answers yes. -/
def Holds (order : Finset String → List String) (h : Heap) (p : HeapProg Bool) : Prop :=
  (p.run (Heap.handle order) h).1 = some true

instance (order : Finset String → List String) (h : Heap) (p : HeapProg Bool) :
    Decidable (Holds order h p) := inferInstanceAs (Decidable (_ = _))

/-- The paths of the whole payload. -/
def RootPath (path : String) : Prop := path ∈ ["", ".", Event.PAYLOAD]

instance (path : String) : Decidable (RootPath path) := inferInstanceAs (Decidable (_ ∈ _))

section Monotone

variable {κ : Type} {order : Finset String → List String} {h h' : Heap} {v w : Value}
  {a b c : Json} {exactArrayMatch : Bool} {m : Matcher} {lib : Libs κ} {e e' : Event κ}

theorem Answers.holds_iff {p : HeapProg Bool} {P : Prop} (hp : Answers order h p P) :
    Holds order h p ↔ P := by
  obtain ⟨b, hrun, hb⟩ := hp
  rw [Holds, hrun, ← hb]
  simp

/-- The root path gives the payload. -/
theorem run_getPathValue_root (lib : Libs κ) (order : Finset String → List String) (h : Heap)
    (e : Event κ) {path : String} (hpath : RootPath path) :
    (e.getPathValue lib path).run (Heap.handle order) h = (some (e.payload, .nil, ""), h) := by
  have hcases : path = "" ∨ path = "." ∨ path = Event.PAYLOAD := by simpa [RootPath] using hpath
  have hfrom : ∀ obj, Event.getPathFrom path obj = pure (obj, .nil, "") := by
    intro obj
    unfold Event.getPathFrom
    split
    · rename_i hnil
      rw [hnil]
      rfl
    · rw [if_pos (by tauto)]
  unfold Event.getPathValue
  rcases hcases with rfl | rfl | rfl <;> rw [hfrom] <;> rfl

/-- With `and`, all patterns are contained. -/
theorem answers_matchPatterns_and {contains : Json → HeapProg Bool} {P : Json → Prop}
    {ps : List Json} (hps : ∀ p ∈ ps, Answers order h (contains p) (P p)) (found : Bool) :
    Answers order h (matchPatterns contains true ps found)
      ((ps = [] → found = true) ∧ ∀ p ∈ ps, P p) := by
  induction ps generalizing found with
  | nil => exact .pure (by simp)
  | cons p ps ih =>
      obtain ⟨hp, hps⟩ := List.forall_mem_cons.mp hps
      obtain ⟨b, hrun, hb⟩ := hp
      rw [matchPatterns]
      cases b with
      | true =>
          obtain ⟨b', hrun', hb'⟩ := ih hps true
          refine ⟨b', ?_, ?_⟩
          · rw [Prog.run_bind_of_some _ _ hrun]
            exact hrun'
          · rw [hb', List.forall_mem_cons, ← hb]
            simp
      | false =>
          refine ⟨false, ?_, ?_⟩
          · rw [Prog.run_bind_of_some _ _ hrun]
            rfl
          · rw [List.forall_mem_cons, ← hb]
            simp

/-- With `or`, one of the patterns is contained. -/
theorem answers_matchPatterns_or {contains : Json → HeapProg Bool} {P : Json → Prop}
    {ps : List Json} (hps : ∀ p ∈ ps, Answers order h (contains p) (P p)) (found : Bool) :
    Answers order h (matchPatterns contains false ps found)
      (ps = [] ∧ found = true ∨ ∃ p ∈ ps, P p) := by
  induction ps generalizing found with
  | nil => exact .pure (by simp)
  | cons p ps ih =>
      obtain ⟨hp, hps⟩ := List.forall_mem_cons.mp hps
      obtain ⟨b, hrun, hb⟩ := hp
      rw [matchPatterns]
      cases b with
      | true =>
          refine ⟨true, ?_, ?_⟩
          · rw [Prog.run_bind_of_some _ _ hrun]
            rfl
          · rw [List.exists_mem_cons_iff, ← hb]
            simp
      | false =>
          obtain ⟨b', hrun', hb'⟩ := ih hps false
          refine ⟨b', ?_, ?_⟩
          · rw [Prog.run_bind_of_some _ _ hrun]
            exact hrun'
          · rw [hb', List.exists_mem_cons_iff, ← hb]
            simp

/-- A matcher without null in its patterns. -/
structure Matcher.NullFree (m : Matcher) : Prop where
  pattern : m.pattern.NullFree
  patterns : ∀ p ∈ m.patterns, p.NullFree

/-- What a null-free matcher asks of the payload. -/
def Matcher.Asks (m : Matcher) (P : Json → Prop) : Prop :=
  if m.patterns = [] then P m.pattern
  else if m.patternsLogic = "or" ∨ m.patternsLogic = "OR" then ∃ p ∈ m.patterns, P p
  else ∀ p ∈ m.patterns, P p

theorem Matcher.Asks.mono {P Q : Json → Prop} (hm : m.NullFree)
    (hPQ : ∀ p, p.NullFree → P p → Q p) (h : m.Asks P) : m.Asks Q := by
  unfold Asks at h ⊢
  by_cases hps : m.patterns = []
  · rw [if_pos hps] at h ⊢
    exact hPQ _ hm.pattern h
  · rw [if_neg hps] at h ⊢
    by_cases hor : m.patternsLogic = "or" ∨ m.patternsLogic = "OR"
    · rw [if_pos hor] at h ⊢
      obtain ⟨p, hp, hP⟩ := h
      exact ⟨p, hp, hPQ p (hm.patterns p hp) hP⟩
    · rw [if_neg hor] at h ⊢
      exact fun p hp => hPQ p (hm.patterns p hp) (h p hp)

/-- `Match` of a null-free matcher with the root path. -/
theorem answers_matchEvent (hm : m.NullFree) (hpath : RootPath m.path)
    (hv : h.Represents e.payload a) : Answers order h (Pattern.matchEvent m lib e)
      (m.Asks fun p => Covers PlainText (m.exactArrayMatch = true) a p) := by
  have hall : ∀ b, Answers order h (Pattern.contains m.exactArrayMatch e.payload b)
      (Covers PlainText (m.exactArrayMatch = true) a b) := fun b => answers_pattern hv b
  have hne : m.pattern ≠ .null := by
    intro hnull
    have hnf := hm.pattern
    rw [hnull] at hnf
    simp [Json.NullFree] at hnf
  have hread := run_getPathValue_root lib order h e hpath
  unfold Pattern.matchEvent matchWith
  split
  · rename_i hnull
    exact absurd hnull hne
  · obtain ⟨b, hrun, hb⟩ : Answers order h
        (if m.patterns ≠ [] then
          matchPatterns (Pattern.contains m.exactArrayMatch e.payload)
            (!(m.patternsLogic == "or" || m.patternsLogic == "OR")) m.patterns false
        else Pattern.contains m.exactArrayMatch e.payload m.pattern)
        (m.Asks fun p => Covers PlainText (m.exactArrayMatch = true) a p) := by
      unfold Matcher.Asks
      by_cases hps : m.patterns = []
      · rw [if_neg (not_not.mpr hps), if_pos hps]
        exact hall m.pattern
      · rw [if_pos hps, if_neg hps]
        by_cases hor : m.patternsLogic = "or" ∨ m.patternsLogic = "OR"
        · rw [if_pos hor, show (!(m.patternsLogic == "or" || m.patternsLogic == "OR")) = false by
            rcases hor with hor | hor <;> simp [hor]]
          exact (answers_matchPatterns_or (fun p _ => hall p) false).congr (by simp)
        · rw [if_neg hor, show (!(m.patternsLogic == "or" || m.patternsLogic == "OR")) = true by
            simpa using hor]
          exact (answers_matchPatterns_and (fun p _ => hall p) false).congr (by simp [hps])
    refine ⟨b, ?_, hb⟩
    rw [Prog.run_bind_of_some _ _ hread]
    exact hrun

/-- **Pattern containment is a preorder**, and a match of a null-free pattern with the root
path stays one when the payload becomes one that contains it. -/
theorem contains_preorder (lib : Libs κ) (order : Finset String → List String)
    (exactArrayMatch : Bool) :
    (∀ h v a, h.Represents v a → Holds order h (Pattern.contains exactArrayMatch v a)) ∧
      (∀ h h' v w a b c, h.Represents v a → h'.Represents w b → c.NullFree →
        Holds order h (Pattern.contains exactArrayMatch v b) →
        Holds order h' (Pattern.contains exactArrayMatch w c) →
        Holds order h (Pattern.contains exactArrayMatch v c)) ∧
      ∀ (m : Matcher) h h' (e e' : Event κ) a b, m.exactArrayMatch = exactArrayMatch →
        m.NullFree → RootPath m.path → h.Represents e.payload a → h'.Represents e'.payload b →
        Holds order h' (Pattern.contains exactArrayMatch e'.payload a) →
        Holds order h (Pattern.matchEvent m lib e) →
        Holds order h' (Pattern.matchEvent m lib e') := by
  refine ⟨?_, ?_, ?_⟩
  · intro h v a hv
    exact (answers_pattern hv a).holds_iff.mpr (covers_refl hv)
  · intro h h' v w a b c hv hw hc hab hbc
    rw [(answers_pattern hv _).holds_iff] at hab ⊢
    rw [(answers_pattern hw _).holds_iff] at hbc
    exact covers_trans hc hab hbc
  · rintro m h h' e e' a b rfl hm hpath ha hb hba hmatch
    rw [(answers_pattern hb _).holds_iff] at hba
    rw [(answers_matchEvent hm hpath ha).holds_iff] at hmatch
    rw [(answers_matchEvent hm hpath hb).holds_iff]
    exact hmatch.mono hm fun p hp hap => covers_trans hp hba hap

/-- The payload `{"k": "x"}`. -/
def smallHeap : Heap := Heap.empty.makeMap.1.setKey 0 "k" (.str "x")

/-- The payload `{"k": "x", "n": true}`. -/
def largeHeap : Heap := smallHeap.setKey 0 "n" (.bool true)

theorem represents_smallHeap : smallHeap.Represents (.map 0) (.obj [("k", .str "x")]) := by
  refine Heap.represents_obj.mpr ⟨0, rfl, by decide, fun key hkey => ?_, ?_⟩
  · by_contra hne
    refine hkey ?_
    have hk : key ≠ "k" := by simpa using hne
    rw [smallHeap, Heap.getKey_setKey_of_ne hk]
    rfl
  · simp [smallHeap, Heap.getKey_setKey_self, Heap.Represents]

theorem represents_largeHeap :
    largeHeap.Represents (.map 0) (.obj [("k", .str "x"), ("n", .bool true)]) := by
  refine Heap.represents_obj.mpr ⟨0, rfl, by decide, fun key hkey => ?_, ?_⟩
  · by_contra hne
    refine hkey ?_
    have hk : key ≠ "k" ∧ key ≠ "n" := by simpa using hne
    rw [largeHeap, Heap.getKey_setKey_of_ne hk.2, smallHeap, Heap.getKey_setKey_of_ne hk.1]
    rfl
  · have hk : largeHeap.getKey 0 "k" = some (.str "x") := by
      rw [largeHeap, Heap.getKey_setKey_of_ne (by decide), smallHeap, Heap.getKey_setKey_self]
    have hn : largeHeap.getKey 0 "n" = some (.bool true) := Heap.getKey_setKey_self _ _ _ _
    simp [hk, hn, Heap.Represents]

/-- A wildcard pattern, and a payload that gains a field. -/
theorem contains_preorder_sample :
    Holds Event.ascending largeHeap
      (Pattern.matchEvent { pattern := .obj [("k", .str "*")] } Libs.plain
        (Event.sampleEvent none)) := by
  refine (contains_preorder Libs.plain Event.ascending false).2.2 _ smallHeap largeHeap
    (Event.sampleEvent none) (Event.sampleEvent none) _ _ rfl ⟨?_, by simp⟩ (by decide)
    represents_smallHeap represents_largeHeap ?_ ?_
  · simp [Json.NullFree, Json.NullFreeFields]
  · decide +kernel
  · decide +kernel

end Monotone

end Match
