/-
# Texts with paths in braces

The loops that expand a text replace its first pair of braces and start again, so that they see
what they have inserted before.  `round` is what one round makes of a text when the paths lead to
given JSON values, `Leads` a number of rounds and `Ends` a run that stops.

A template is a text in which every brace that opens is closed before the next one opens
(`exists_template_iff`).  `expands_iff` says which templates are expanded path by path: no brace
may be inserted before the last path, and at the end the text must not have both braces.
-/
import Ears.Expansion

namespace GoLib

/-! ## The first pair of braces -/

section Braces

variable {cs before path after : List Char}

theorem findBraces_eq_none_iff : findBraces cs = .none ↔ '{' ∉ cs ∨ '}' ∉ cs := by
  unfold findBraces
  split_ifs with hnone <;> simp [hnone]

theorem idxOf_append_cons {c : Char} (hbefore : c ∉ before) (rest : List Char) :
    (before ++ c :: rest).idxOf c = before.length := by
  rw [List.idxOf_append_of_notMem hbefore, List.idxOf_cons_self, Nat.add_zero]

/-- A path in braces behind a text without braces is found. -/
theorem findBraces_append (hopen : '{' ∉ before) (hclose : '}' ∉ before) (hpath : '}' ∉ path) :
    findBraces (before ++ '{' :: (path ++ '}' :: after)) = .found before path after := by
  have hleft : (before ++ '{' :: (path ++ '}' :: after)).idxOf '{' = before.length :=
    idxOf_append_cons hopen _
  have hassoc : before ++ '{' :: (path ++ '}' :: after) =
      (before ++ '{' :: path) ++ '}' :: after := by simp
  have hright : (before ++ '{' :: (path ++ '}' :: after)).idxOf '}' =
      (before ++ '{' :: path).length := by
    rw [hassoc]
    exact idxOf_append_cons (by simp [hclose, hpath]) _
  have hmem : ¬ ('{' ∉ before ++ '{' :: (path ++ '}' :: after) ∨
      '}' ∉ before ++ '{' :: (path ++ '}' :: after)) := by simp
  have hle : ¬ (before ++ '{' :: path).length < before.length := by simp
  unfold findBraces
  rw [if_neg hmem, hleft, hright, if_neg hle]
  congr 1
  · exact List.take_left
  · rw [hassoc, List.take_left, List.drop_append]
    simp
  · rw [hassoc, List.drop_append]
    simp

/-- A text with a brace that closes before any opens. -/
theorem findBraces_of_close_first (hopen : '{' ∉ before) (hclose : '}' ∈ before) :
    findBraces (before ++ '{' :: after) = .panic := by
  have hlt : (before ++ '{' :: after).idxOf '}' < (before ++ '{' :: after).idxOf '{' := by
    rw [idxOf_append_cons hopen, List.idxOf_append_of_mem hclose]
    exact List.idxOf_lt_length_of_mem hclose
  unfold findBraces
  rw [if_neg (by simp [hclose]), if_pos hlt]

/-- What is found makes up the text, and there is no brace before it. -/
theorem findBraces_eq_found (hfound : findBraces cs = .found before path after) :
    cs = before ++ '{' :: (path ++ '}' :: after) ∧ '{' ∉ before ∧ '}' ∉ before := by
  have hsome : findBraces cs ≠ .none := by
    rw [hfound]
    exact Braces.noConfusion
  rw [ne_eq, findBraces_eq_none_iff, not_or, not_not, not_not] at hsome
  obtain ⟨b, rest, rfl, hopen⟩ := List.eq_append_cons_of_mem hsome.1
  by_cases hclose : '}' ∈ b
  · rw [findBraces_of_close_first hopen hclose] at hfound
    cases hfound
  · have hrest : '}' ∈ rest := by simpa [hclose] using hsome.2
    obtain ⟨p, a, rfl, hp⟩ := List.eq_append_cons_of_mem hrest
    rw [findBraces_append hopen hclose hp] at hfound
    obtain ⟨rfl, rfl, rfl⟩ := Braces.found.inj hfound
    exact ⟨rfl, hopen, hclose⟩

end Braces

/-! ## Rounds on texts -/

namespace Expansion

/-- What a round makes of a text: there are no braces to replace, it is nothing but braces around
the path to a value, there is a next text, or it panics. -/
inductive Outcome where
  | text
  | whole (j : Json)
  | next (expr : List Char)
  | panic

/-- One round, where the paths lead to the given values. -/
def round (value : List Char → Option Json) (expr : List Char) : Outcome :=
  match findBraces expr with
  | .none => .text
  | .panic => .panic
  | .found before path after =>
      match value path with
      | none => .panic
      | some j =>
          if before = [] ∧ after = [] then .whole j else .next (before ++ j.inserted ++ after)

/-- Rounds that lead from one text to another. -/
inductive Leads (value : List Char → Option Json) : ℕ → List Char → List Char → Prop
  | refl (expr) : Leads value 0 expr expr
  | step {n expr expr₁ expr'} (hround : round value expr = .next expr₁)
      (hrest : Leads value n expr₁ expr') : Leads value (n + 1) expr expr'

/-- A run that stops, with its result.  Of the value of a text that is nothing but braces the result
is `W`. -/
inductive Ends (value : List Char → Option Json) (W : Json → Json) : List Char → Json → Prop
  | text {expr} (hround : round value expr = .text) : Ends value W expr (.str (String.ofList expr))
  | whole {expr j} (hround : round value expr = .whole j) : Ends value W expr (W j)
  | next {expr expr' j} (hround : round value expr = .next expr')
      (hrest : Ends value W expr' j) : Ends value W expr j

variable {value : List Char → Option Json} {W : Json → Json} {expr expr' expr'' before path after :
  List Char} {j k : Json} {m n : ℕ}

theorem round_of_none (hbraces : findBraces expr = .none) : round value expr = .text := by
  rw [round, hbraces]

theorem round_of_found (hbraces : findBraces expr = .found before path after)
    (hvalue : value path = some j) : round value expr =
      if before = [] ∧ after = [] then .whole j else .next (before ++ j.inserted ++ after) := by
  rw [round, hbraces]
  dsimp only
  rw [hvalue]

theorem round_of_lost (hbraces : findBraces expr = .found before path after)
    (hvalue : value path = none) : round value expr = .panic := by
  rw [round, hbraces]
  dsimp only
  rw [hvalue]

theorem Ends.not_panic (hends : Ends value W expr j) : round value expr ≠ .panic := by
  cases hends with
  | text hround => simp [hround]
  | whole hround => simp [hround]
  | next hround => simp [hround]

theorem Ends.of_next (hends : Ends value W expr j) (hround : round value expr = .next expr') :
    Ends value W expr' j := by
  cases hends with
  | text hround' => simp [hround] at hround'
  | whole hround' => simp [hround] at hround'
  | next hround' hrest =>
      obtain rfl := Outcome.next.inj (hround.symm.trans hround')
      exact hrest

/-- A run has one result. -/
theorem Ends.unique (hends : Ends value W expr j) (hends' : Ends value W expr k) : j = k := by
  induction hends with
  | text hround =>
      cases hends' with
      | text _ => rfl
      | whole hround' => simp [hround] at hround'
      | next hround' _ => simp [hround] at hround'
  | whole hround =>
      cases hends' with
      | text hround' => simp [hround] at hround'
      | whole hround' => rw [Outcome.whole.inj (hround.symm.trans hround')]
      | next hround' _ => simp [hround] at hround'
  | next hround _ ih => exact ih (hends'.of_next hround)

theorem findBraces_of_text (hround : round value expr = .text) : findBraces expr = .none := by
  unfold round at hround
  split at hround
  · assumption
  · cases hround
  · split at hround
    · cases hround
    · split_ifs at hround

theorem Leads.ends (hleads : Leads value n expr expr') (hends : Ends value W expr' j) :
    Ends value W expr j := by
  induction hleads with
  | refl _ => exact hends
  | step hround _ ih => exact .next hround (ih hends)

/-- The last round of a run. -/
theorem Ends.exists_leads (hends : Ends value W expr j) : ∃ n expr', Leads value n expr expr' ∧
    (round value expr' = .text ∧ j = .str (String.ofList expr') ∨
      ∃ k, round value expr' = .whole k ∧ j = W k) := by
  induction hends with
  | text hround => exact ⟨0, _, .refl _, Or.inl ⟨hround, rfl⟩⟩
  | whole hround => exact ⟨0, _, .refl _, Or.inr ⟨_, hround, rfl⟩⟩
  | next hround _ ih =>
      obtain ⟨n, expr', hleads, hlast⟩ := ih
      exact ⟨n + 1, expr', .step hround hleads, hlast⟩

/-- The text has no path, or its rounds lead to one path whose value is the text. -/
def Fixed (value : List Char → Option Json) (text : List Char) : Prop :=
  findBraces text = .none ∨
    ∃ n expr, Leads value n text expr ∧ round value expr = .whole (.str (String.ofList text))

/-- A fixed text stays as it is, and no other does. -/
theorem fixed_iff {text : List Char} :
    Fixed value text ↔ Ends value id text (.str (String.ofList text)) := by
  constructor
  · rintro (hbraces | ⟨n, expr, hleads, hround⟩)
    · exact .text (round_of_none hbraces)
    · exact hleads.ends (.whole hround)
  · intro hends
    obtain ⟨n, expr, hleads, ⟨hround, heq⟩ | ⟨k, hround, heq⟩⟩ := hends.exists_leads
    · have htext : text = expr := String.ofList_injective (Json.str.inj heq)
      rw [← htext] at hround
      exact Or.inl (findBraces_of_text hround)
    · obtain rfl : Json.str (String.ofList text) = k := heq
      exact Or.inr ⟨n, expr, hleads, hround⟩

/-- A loop does not stop where a round leads back to its text. -/
theorem not_ends_of_cycle (hround : round value expr = .next expr) : ¬ Ends value W expr j := by
  intro hends
  induction hends with
  | text hround' => simp [hround] at hround'
  | whole hround' => simp [hround] at hround'
  | next hround' _ ih =>
      obtain rfl := Outcome.next.inj (hround.symm.trans hround')
      exact ih hround

end Expansion

/-! ## Templates -/

/-- The texts and the paths of a template: the text before the first path, and each path with the
text behind it. -/
structure Template where
  head : List Char
  tail : List (List Char × List Char)
  head_open : '{' ∉ head
  tail_braces : ∀ f ∈ tail, '{' ∉ f.1 ∧ '}' ∉ f.1 ∧ '{' ∉ f.2

namespace Template

/-- The paths in braces, each with the text behind it. -/
def renderTail : List (List Char × List Char) → List Char
  | [] => []
  | (path, lit) :: rest => '{' :: (path ++ '}' :: (lit ++ renderTail rest))

/-- The text of the template. -/
def render (t : Template) : List Char := t.head ++ renderTail t.tail

/-- The values in the place of the paths. -/
def expandTail (value : List Char → Option Json) : List (List Char × List Char) → List Char
  | [] => []
  | (path, lit) :: rest =>
      ((value path).elim [] Json.inserted) ++ (lit ++ expandTail value rest)

/-- The template with each path replaced by the text of its value. -/
def expand (value : List Char → Option Json) (t : Template) : List Char :=
  t.head ++ expandTail value t.tail

/-- Every brace that opens is closed before the next one opens; `inside` says that one is open. -/
def closed : Bool → List Char → Bool
  | inside, [] => !inside
  | inside, c :: cs =>
      if c = '{' then !inside && closed true cs
      else if c = '}' then closed false cs
      else closed inside cs

theorem closed_append {cs rest : List Char} (hopen : '{' ∉ cs) :
    closed false (cs ++ rest) = closed false rest := by
  induction cs with
  | nil => rfl
  | cons c cs ih =>
      rw [List.mem_cons, not_or] at hopen
      rw [List.cons_append, closed, if_neg (Ne.symm hopen.1), ih hopen.2, ite_self]

theorem closed_path {cs rest : List Char} (hopen : '{' ∉ cs) (hclose : '}' ∉ cs) :
    closed true (cs ++ '}' :: rest) = closed false rest := by
  induction cs with
  | nil => rfl
  | cons c cs ih =>
      rw [List.mem_cons, not_or] at hopen hclose
      rw [List.cons_append, closed, if_neg (Ne.symm hopen.1), if_neg (Ne.symm hclose.1),
        ih hopen.2 hclose.2]

theorem closed_renderTail {tail : List (List Char × List Char)}
    (hbraces : ∀ f ∈ tail, '{' ∉ f.1 ∧ '}' ∉ f.1 ∧ '{' ∉ f.2) :
    closed false (renderTail tail) = true := by
  induction tail with
  | nil => rfl
  | cons f rest ih =>
      obtain ⟨path, lit⟩ := f
      obtain ⟨hopen, hclose, hlit⟩ := hbraces (path, lit) List.mem_cons_self
      rw [renderTail, closed, if_pos rfl, closed_path hopen hclose, closed_append hlit,
        ih fun f hf => hbraces f (List.mem_cons_of_mem _ hf)]
      rfl

/-- The text after the first brace that opens is a path and a template. -/
theorem exists_of_closed_true {cs : List Char} (hclosed : closed true cs = true) :
    ∃ path rest, cs = path ++ '}' :: rest ∧ '{' ∉ path ∧ '}' ∉ path ∧ closed false rest = true := by
  induction cs with
  | nil => cases hclosed
  | cons c cs ih =>
      rw [closed] at hclosed
      split_ifs at hclosed with hopen hclose
      · cases hclosed
      · exact ⟨[], cs, by rw [hclose]; rfl, by simp, by simp, hclosed⟩
      · obtain ⟨path, rest, rfl, hpath, hpath', hrest⟩ := ih hclosed
        exact ⟨c :: path, rest, rfl, by simp [Ne.symm hopen, hpath], by simp [Ne.symm hclose, hpath'],
          hrest⟩

/-- **The templates are the texts in which every brace that opens is closed before the next one
opens.** -/
theorem exists_template_iff {cs : List Char} :
    (∃ t : Template, t.render = cs) ↔ closed false cs = true := by
  constructor
  · rintro ⟨t, rfl⟩
    rw [render, closed_append t.head_open, closed_renderTail t.tail_braces]
  · intro hclosed
    induction hlen : cs.length using Nat.strong_induction_on generalizing cs with
    | _ n ih =>
    by_cases hmem : '{' ∈ cs
    · obtain ⟨head, after, rfl, hhead⟩ := List.eq_append_cons_of_mem hmem
      rw [closed_append hhead, closed, if_pos rfl] at hclosed
      obtain ⟨path, rest, rfl, hpath, hpath', hrest⟩ := exists_of_closed_true (by simpa using hclosed)
      obtain ⟨t, ht⟩ := ih rest.length (by rw [← hlen]; simp; omega) hrest rfl
      refine ⟨⟨head, (path, t.head) :: t.tail, hhead, ?_⟩, ?_⟩
      · intro f hf
        rcases List.mem_cons.mp hf with rfl | hf
        · exact ⟨hpath, hpath', t.head_open⟩
        · exact t.tail_braces f hf
      · rw [render, renderTail, ← ht, render]
    · exact ⟨⟨cs, [], hmem, by simp⟩, by rw [render, renderTail, List.append_nil]⟩

/-! ## Templates that are expanded path by path -/

/-- In every round the first braces are those of the next path, behind the expanded text before it,
and after the last path no braces are left: nothing that was inserted is expanded again. -/
structure PathByPath (value : List Char → Option Json) (head : List Char)
    (tail : List (List Char × List Char)) : Prop where
  found : ∀ i path lit, tail[i]? = some (path, lit) →
    ∀ expr, Expansion.Leads value i (head ++ renderTail tail) expr →
      findBraces expr = .found (head ++ expandTail value (tail.take i)) path
        (lit ++ renderTail (tail.drop (i + 1)))
  none : ∀ expr, Expansion.Leads value tail.length (head ++ renderTail tail) expr →
    findBraces expr = .none

/-- The text before the last path, expanded. -/
def lead (value : List Char → Option Json) (t : Template) : List Char :=
  t.head ++ expandTail value t.tail.dropLast

/-- In the last round nothing is left around the last path. -/
def Bare (value : List Char → Option Json) (t : Template) : Prop :=
  t.lead value = [] ∧ ∃ path, t.tail.getLast? = some (path, [])

/-- The paths have values, there is no brace in the expanded text before the last path, and the
expanded text does not have both braces. -/
structure Expandable (value : List Char → Option Json) (t : Template) : Prop where
  reads : ∀ f ∈ t.tail, value f.1 ≠ none
  lead : t.tail ≠ [] → '{' ∉ t.lead value ∧ '}' ∉ t.lead value
  ends : t.Bare value ∨ '{' ∉ t.expand value ∨ '}' ∉ t.expand value

/-- The value of a template that is one path, and otherwise the expanded text. -/
def result (value : List Char → Option Json) (t : Template) : Json :=
  match t.head, t.tail with
  | [], [(path, [])] => (value path).getD .null
  | _, _ => .str (String.ofList (t.expand value))

/-- Where nothing is left around the last path, the template is this path, or the value is a
string. -/
def Typed (value : List Char → Option Json) (t : Template) : Prop :=
  ∀ path, t.lead value = [] → t.tail.getLast? = some (path, []) →
    t.tail.length = 1 ∨ ∃ s, value path = some (.str s)

section Expands

open Expansion

variable {value : List Char → Option Json} {W : Json → Json} {t : Template}
  {head path lit expr : List Char} {tail pre : List (List Char × List Char)} {j : Json}

theorem expandTail_cons (hvalue : value path = some j) :
    expandTail value ((path, lit) :: tail) = j.inserted ++ (lit ++ expandTail value tail) := by
  rw [expandTail, hvalue]
  rfl

theorem expandTail_append (value : List Char → Option Json) (pre tail : List (List Char × List Char)) :
    expandTail value (pre ++ tail) = expandTail value pre ++ expandTail value tail := by
  induction pre with
  | nil => rfl
  | cons f pre ih => simp [expandTail, ih]

theorem renderTail_eq_nil : renderTail tail = [] ↔ tail = [] := by
  cases tail with
  | nil => simp [renderTail]
  | cons f tail => simp [renderTail]

/-- The first round replaces the first path. -/
theorem findBraces_render (hopen : '{' ∉ head) (hclose : '}' ∉ head) (hpath : '}' ∉ path) :
    findBraces (head ++ renderTail ((path, lit) :: tail)) =
      .found head path (lit ++ renderTail tail) := by
  rw [renderTail]
  exact findBraces_append hopen hclose hpath

theorem pathByPath_nil : PathByPath value head [] ↔ findBraces head = .none := by
  have hrender : head ++ renderTail [] = head := List.append_nil head
  constructor
  · intro honce
    have hnone := honce.none _ (.refl _)
    rwa [hrender] at hnone
  · intro hnone
    refine ⟨fun i path lit hget => by simp at hget, fun expr hleads => ?_⟩
    cases hleads
    rwa [hrender]

/-- A template that is expanded path by path has no braces before its first path. -/
theorem PathByPath.braceless (honce : PathByPath value head ((path, lit) :: tail)) :
    '{' ∉ head ∧ '}' ∉ head := by
  have hfound := honce.found 0 path lit rfl _ (.refl _)
  simpa [expandTail] using (findBraces_eq_found hfound).2

/-- The first round replaces the path by its value. -/
theorem round_render (hopen : '{' ∉ head) (hclose : '}' ∉ head) (hpath : '}' ∉ path)
    (hvalue : value path = some j) (hmore : ¬ (head = [] ∧ lit = [] ∧ tail = [])) :
    round value (head ++ renderTail ((path, lit) :: tail)) =
      .next (head ++ j.inserted ++ lit ++ renderTail tail) := by
  have hmore' : ¬ (head = [] ∧ lit ++ renderTail tail = []) := by
    rwa [List.append_eq_nil_iff, renderTail_eq_nil]
  rw [round_of_found (findBraces_render hopen hclose hpath) hvalue, if_neg hmore']
  simp only [List.append_assoc]

/-- Without braces before the first path, the template is expanded path by path when what is left
after the first round is. -/
theorem pathByPath_cons (hopen : '{' ∉ head) (hclose : '}' ∉ head) (hpath : '}' ∉ path)
    (hvalue : value path = some j) (hmore : ¬ (head = [] ∧ lit = [] ∧ tail = [])) :
    PathByPath value head ((path, lit) :: tail) ↔
      PathByPath value (head ++ j.inserted ++ lit) tail := by
  have hround := round_render hopen hclose hpath hvalue hmore
  have hshift : ∀ i, head ++ expandTail value (((path, lit) :: tail).take (i + 1)) =
      head ++ j.inserted ++ lit ++ expandTail value (tail.take i) := by
    intro i
    rw [List.take_succ_cons, expandTail_cons hvalue]
    simp only [List.append_assoc]
  constructor
  · intro honce
    refine ⟨fun i path' lit' hget expr hleads => ?_, fun expr hleads => ?_⟩
    · rw [← hshift]
      exact honce.found (i + 1) path' lit' hget expr (.step hround hleads)
    · exact honce.none expr (.step hround hleads)
  · intro honce
    refine ⟨fun i path' lit' hget expr hleads => ?_, fun expr hleads => ?_⟩
    · cases i with
      | zero =>
          cases hleads
          obtain ⟨rfl, rfl⟩ := Prod.mk.inj (Option.some.inj hget)
          rw [findBraces_render hopen hclose hpath]
          simp [expandTail]
      | succ i =>
          cases hleads with
          | step hround' hrest =>
              obtain rfl := Outcome.next.inj (hround.symm.trans hround')
              rw [hshift]
              exact honce.found i path' lit' hget expr hrest
    · cases hleads with
      | step hround' hrest =>
          obtain rfl := Outcome.next.inj (hround.symm.trans hround')
          exact honce.none expr hrest

/-- Nothing but one path. -/
theorem pathByPath_single (hpath : '}' ∉ path) (hvalue : value path = some j) :
    PathByPath value [] [(path, [])] := by
  have hfound : findBraces ([] ++ renderTail [(path, [])]) = .found [] path [] :=
    findBraces_render (by simp) (by simp) hpath
  have hwhole : round value ([] ++ renderTail [(path, [])]) = .whole j := by
    rw [round_of_found hfound hvalue, if_pos ⟨rfl, rfl⟩]
  refine ⟨fun i path' lit' hget expr hleads => ?_, fun expr hleads => ?_⟩
  · cases i with
    | zero =>
        cases hleads
        obtain ⟨rfl, rfl⟩ := Prod.mk.inj (Option.some.inj hget)
        exact hfound
    | succ i => simp at hget
  · cases hleads with
    | step hround _ =>
        rw [hwhole] at hround
        cases hround

/-- The run stops, and expands the template path by path. -/
def Expands (value : List Char → Option Json) (W : Json → Json) (head : List Char)
    (tail : List (List Char × List Char)) : Prop :=
  (∃ k, Ends value W (head ++ renderTail tail) k) ∧ PathByPath value head tail

theorem expands_nil : Expands value W head [] ↔ '{' ∉ head ∨ '}' ∉ head := by
  rw [Expands, pathByPath_nil, ← findBraces_eq_none_iff]
  refine and_iff_right_of_imp fun hnone => ⟨_, .text (round_of_none ?_)⟩
  rwa [renderTail, List.append_nil]

theorem not_expands_of_lost (hpath : '}' ∉ path) (hvalue : value path = none) :
    ¬ Expands value W head ((path, lit) :: tail) := by
  rintro ⟨⟨k, hends⟩, honce⟩
  obtain ⟨hopen, hclose⟩ := honce.braceless
  exact hends.not_panic (round_of_lost (findBraces_render hopen hclose hpath) hvalue)

theorem expands_single (hpath : '}' ∉ path) (hvalue : value path = some j) :
    Expands value W [] [(path, [])] := by
  have hfound : findBraces ([] ++ renderTail [(path, [])]) = .found [] path [] :=
    findBraces_render (by simp) (by simp) hpath
  refine ⟨⟨W j, .whole ?_⟩, pathByPath_single hpath hvalue⟩
  rw [round_of_found hfound hvalue, if_pos ⟨rfl, rfl⟩]

theorem expands_cons (hpath : '}' ∉ path) (hvalue : value path = some j)
    (hmore : ¬ (head = [] ∧ lit = [] ∧ tail = [])) :
    Expands value W head ((path, lit) :: tail) ↔
      ('{' ∉ head ∧ '}' ∉ head) ∧ Expands value W (head ++ j.inserted ++ lit) tail := by
  constructor
  · rintro ⟨⟨k, hends⟩, honce⟩
    obtain ⟨hopen, hclose⟩ := honce.braceless
    exact ⟨⟨hopen, hclose⟩, ⟨k, hends.of_next (round_render hopen hclose hpath hvalue hmore)⟩,
      (pathByPath_cons hopen hclose hpath hvalue hmore).mp honce⟩
  · rintro ⟨⟨hopen, hclose⟩, ⟨k, hends⟩, honce⟩
    exact ⟨⟨k, .next (round_render hopen hclose hpath hvalue hmore) hends⟩,
      (pathByPath_cons hopen hclose hpath hvalue hmore).mpr honce⟩

/-- Which templates that end with a path are expanded path by path. -/
theorem expands_iff_snoc (hbraces : ∀ f ∈ pre ++ [(path, lit)], '}' ∉ f.1) :
    Expands value W head (pre ++ [(path, lit)]) ↔
      (∀ f ∈ pre ++ [(path, lit)], value f.1 ≠ none) ∧
        ('{' ∉ head ++ expandTail value pre ∧ '}' ∉ head ++ expandTail value pre) ∧
        (head ++ expandTail value pre = [] ∧ lit = [] ∨
          '{' ∉ head ++ expandTail value (pre ++ [(path, lit)]) ∨
          '}' ∉ head ++ expandTail value (pre ++ [(path, lit)])) := by
  induction pre generalizing head with
  | nil =>
      have hpath : '}' ∉ path := hbraces (path, lit) (by simp)
      rw [List.nil_append, expandTail, List.append_nil]
      cases hvalue : value path with
      | none => simp [not_expands_of_lost hpath hvalue, hvalue]
      | some j =>
          rw [expandTail_cons hvalue, expandTail, List.append_nil, ← List.append_assoc]
          by_cases hbare : head = [] ∧ lit = []
          · obtain ⟨rfl, rfl⟩ := hbare
            simp [expands_single hpath hvalue, hvalue]
          · rw [expands_cons hpath hvalue fun hmore => hbare ⟨hmore.1, hmore.2.1⟩, expands_nil,
              or_iff_right hbare]
            simp [hvalue]
  | cons f pre ih =>
      obtain ⟨path₀, lit₀⟩ := f
      have hpath₀ : '}' ∉ path₀ := hbraces (path₀, lit₀) (by simp)
      have hrest : ∀ f ∈ pre ++ [(path, lit)], '}' ∉ f.1 := fun f hf => hbraces f (by simp [hf])
      have hmore : ¬ (head = [] ∧ lit₀ = [] ∧ pre ++ [(path, lit)] = []) := by simp
      rw [List.cons_append]
      cases hvalue : value path₀ with
      | none => simp [not_expands_of_lost hpath₀ hvalue, hvalue]
      | some j =>
          have hshift : ∀ tail, head ++ expandTail value ((path₀, lit₀) :: tail) =
              head ++ j.inserted ++ lit₀ ++ expandTail value tail := by
            intro tail
            rw [expandTail_cons hvalue]
            simp only [List.append_assoc]
          rw [expands_cons hpath₀ hvalue hmore, ih hrest, hshift, hshift]
          simp only [List.mem_append, List.forall_mem_cons, hvalue, not_or]
          tauto

/-- What a template that ends with a path becomes: the expanded text, or what is made of the value
when nothing is left around the path. -/
theorem Expands.ends_snoc (hbraces : ∀ f ∈ pre ++ [(path, lit)], '}' ∉ f.1)
    (hexp : Expands value W head (pre ++ [(path, lit)])) :
    ∃ j, value path = some j ∧ Ends value W (head ++ renderTail (pre ++ [(path, lit)]))
      (if head ++ expandTail value pre = [] ∧ lit = [] then W j
      else .str (String.ofList (head ++ expandTail value (pre ++ [(path, lit)])))) := by
  induction pre generalizing head with
  | nil =>
      have hpath : '}' ∉ path := hbraces (path, lit) (by simp)
      obtain ⟨⟨k, hends⟩, honce⟩ := hexp
      obtain ⟨hopen, hclose⟩ := honce.braceless
      have hfound : findBraces (head ++ renderTail [(path, lit)]) =
          .found head path (lit ++ renderTail []) := findBraces_render hopen hclose hpath
      cases hvalue : value path with
      | none => exact absurd (round_of_lost hfound hvalue) hends.not_panic
      | some j =>
          refine ⟨j, rfl, ?_⟩
          rw [expandTail, List.append_nil, List.nil_append]
          split_ifs with hbare
          · obtain ⟨rfl, rfl⟩ := hbare
            exact .whole (by rw [round_of_found hfound hvalue]; exact if_pos ⟨rfl, rfl⟩)
          · have hmore : ¬ (head = [] ∧ lit = [] ∧ ([] : List (List Char × List Char)) = []) :=
              fun hmore => hbare ⟨hmore.1, hmore.2.1⟩
            have hnone := pathByPath_nil.mp
              ((pathByPath_cons hopen hclose hpath hvalue hmore).mp honce)
            refine .next (round_render hopen hclose hpath hvalue hmore) ?_
            rw [expandTail_cons hvalue, expandTail, List.append_nil, ← List.append_assoc, renderTail,
              List.append_nil]
            exact .text (round_of_none hnone)
  | cons f pre ih =>
      obtain ⟨path₀, lit₀⟩ := f
      have hpath₀ : '}' ∉ path₀ := hbraces (path₀, lit₀) (by simp)
      have hmore : ¬ (head = [] ∧ lit₀ = [] ∧ pre ++ [(path, lit)] = []) := by simp
      rw [List.cons_append] at hexp ⊢
      cases hvalue₀ : value path₀ with
      | none => exact absurd hexp (not_expands_of_lost hpath₀ hvalue₀)
      | some j₀ =>
          obtain ⟨⟨hopen, hclose⟩, hexp'⟩ := (expands_cons hpath₀ hvalue₀ hmore).mp hexp
          obtain ⟨j, hvalue, hends⟩ := ih (fun f hf => hbraces f (by simp [hf])) hexp'
          have hshift : ∀ tail, head ++ expandTail value ((path₀, lit₀) :: tail) =
              head ++ j₀.inserted ++ lit₀ ++ expandTail value tail := by
            intro tail
            rw [expandTail_cons hvalue₀]
            simp only [List.append_assoc]
          refine ⟨j, hvalue, .next (round_render hopen hclose hpath₀ hvalue₀ hmore) ?_⟩
          rw [hshift, hshift]
          exact hends

/-- **Which templates are expanded path by path**, whatever is made of the value of a text that is
nothing but braces. -/
theorem expands_iff (t : Template) : Expands value W t.head t.tail ↔ t.Expandable value := by
  rcases List.eq_nil_or_concat t.tail with htail | ⟨pre, ⟨path, lit⟩, htail⟩
  · have hexpand : t.expand value = t.head := by rw [expand, htail, expandTail, List.append_nil]
    rw [htail, expands_nil]
    refine ⟨fun hends => ⟨by simp [htail], by simp [htail], Or.inr ?_⟩, fun _ => Or.inl t.head_open⟩
    rwa [hexpand]
  · rw [List.concat_eq_append] at htail
    have hlead : t.lead value = t.head ++ expandTail value pre := by
      rw [Template.lead, htail, List.dropLast_concat]
    have hbare : t.Bare value ↔ t.head ++ expandTail value pre = [] ∧ lit = [] := by
      rw [Bare, hlead, htail, List.getLast?_concat]
      simp
    have hexpand : t.expand value = t.head ++ expandTail value (pre ++ [(path, lit)]) := by
      rw [expand, htail]
    rw [htail, expands_iff_snoc fun f hf => (t.tail_braces f (htail ▸ hf)).2.1]
    constructor
    · rintro ⟨hreads, hlead', hends⟩
      refine ⟨htail ▸ hreads, fun _ => hlead ▸ hlead', ?_⟩
      rwa [hbare, hexpand]
    · rintro ⟨hreads, hlead', hends⟩
      rw [hbare, hexpand] at hends
      rw [htail] at hreads hlead'
      rw [hlead] at hlead'
      exact ⟨hreads, hlead' (by simp), hends⟩

/-- The result for a template that is expanded path by path: the expanded text, or what is made of
the last value when nothing is left around its path. -/
theorem Expandable.ends_text (hexp : t.Expandable value) (hbare : ¬ t.Bare value) :
    Ends value W t.render (.str (String.ofList (t.expand value))) := by
  have hexpands : Expands value W t.head t.tail := (expands_iff t).mpr hexp
  rcases List.eq_nil_or_concat t.tail with htail | ⟨pre, ⟨path, lit⟩, htail⟩
  · rw [htail, expands_nil, ← findBraces_eq_none_iff] at hexpands
    rw [render, expand, htail, renderTail, expandTail, List.append_nil]
    exact .text (round_of_none hexpands)
  · rw [List.concat_eq_append] at htail
    rw [htail] at hexpands
    obtain ⟨j, -, hends⟩ :=
      hexpands.ends_snoc fun f hf => (t.tail_braces f (htail ▸ hf)).2.1
    rw [if_neg fun hlast => hbare ?_] at hends
    · rwa [render, expand, htail]
    · rw [Bare, Template.lead, htail, List.dropLast_concat, List.getLast?_concat]
      exact ⟨hlast.1, path, by rw [hlast.2]⟩

theorem Expandable.ends_bare (hexp : t.Expandable value) (hlead : t.lead value = [])
    (hlast : t.tail.getLast? = some (path, [])) :
    ∃ j, value path = some j ∧ Ends value W t.render (W j) := by
  have hexpands : Expands value W t.head t.tail := (expands_iff t).mpr hexp
  obtain ⟨pre, htail⟩ := List.getLast?_eq_some_iff.mp hlast
  rw [Template.lead, htail, List.dropLast_concat] at hlead
  rw [htail] at hexpands
  obtain ⟨j, hvalue, hends⟩ :=
    hexpands.ends_snoc fun f hf => (t.tail_braces f (htail ▸ hf)).2.1
  rw [if_pos ⟨hlead, rfl⟩] at hends
  exact ⟨j, hvalue, by rwa [render, htail]⟩

/-- With nothing left around the last path, the expanded text is that of the last value. -/
theorem expand_bare (hlead : t.lead value = []) (hlast : t.tail.getLast? = some (path, []))
    (hvalue : value path = some j) : t.expand value = j.inserted := by
  obtain ⟨pre, htail⟩ := List.getLast?_eq_some_iff.mp hlast
  rw [Template.lead, htail, List.dropLast_concat] at hlead
  rw [expand, htail, expandTail_append, ← List.append_assoc, hlead, expandTail_cons hvalue, expandTail]
  simp

theorem not_path_of_not_bare (hbare : ¬ t.Bare value) (path : List Char) :
    ¬ (t.head = [] ∧ t.tail = [(path, [])]) := by
  rintro ⟨hhead, htail⟩
  refine hbare ⟨?_, path, by rw [htail]; rfl⟩
  rw [Template.lead, hhead, htail]
  rfl

theorem result_of_ne (hne : ∀ path, ¬ (t.head = [] ∧ t.tail = [(path, [])])) :
    t.result value = .str (String.ofList (t.expand value)) := by
  unfold result
  split
  · rename_i path hhead htail
    exact absurd ⟨hhead, htail⟩ (hne path)
  · rfl

theorem result_of_path (hhead : t.head = []) (htail : t.tail = [(path, [])])
    (hvalue : value path = some j) : t.result value = j := by
  unfold result
  rw [hhead, htail]
  dsimp only
  rw [hvalue, Option.getD_some]

/-- Templates that are expanded path by path become what they should, where values keep their
type only for templates that are one path. -/
theorem Expandable.ends_result (hexp : t.Expandable value) (htyped : t.Typed value) :
    Ends value id t.render (t.result value) := by
  by_cases hbare : t.Bare value
  · obtain ⟨hlead, path, hlast⟩ := hbare
    obtain ⟨j, hvalue, hends⟩ := hexp.ends_bare (W := id) hlead hlast
    have hresult : t.result value = j := by
      by_cases hpath : t.head = [] ∧ t.tail = [(path, [])]
      · exact result_of_path hpath.1 hpath.2 hvalue
      · have hother : ∀ path', ¬ (t.head = [] ∧ t.tail = [(path', [])]) := by
          rintro path' ⟨hhead, htail⟩
          rw [htail] at hlast
          obtain rfl := (Prod.mk.inj (Option.some.inj hlast)).1
          exact hpath ⟨hhead, htail⟩
        rw [result_of_ne hother, expand_bare hlead hlast hvalue]
        rcases htyped path hlead hlast with hone | ⟨s, hs⟩
        · -- one path without text around it
          obtain ⟨f, htail⟩ := List.length_eq_one_iff.mp hone
          rw [htail] at hlast
          obtain rfl := Option.some.inj hlast
          rw [Template.lead, htail] at hlead
          exact absurd ⟨(List.append_eq_nil_iff.mp hlead).1, htail⟩ hpath
        · obtain rfl := Option.some.inj (hvalue.symm.trans hs)
          rw [Json.inserted, String.ofList_toList]
    rw [hresult]
    exact hends
  · rw [result_of_ne fun path => not_path_of_not_bare hbare path]
    exact hexp.ends_text hbare

/-- Where values become texts, templates that are expanded path by path become the expanded text. -/
theorem Expandable.ends_expand (hexp : t.Expandable value) :
    Ends value (fun j => .str (String.ofList j.inserted)) t.render
      (.str (String.ofList (t.expand value))) := by
  by_cases hbare : t.Bare value
  · obtain ⟨hlead, path, hlast⟩ := hbare
    obtain ⟨j, hvalue, hends⟩ := hexp.ends_bare
      (W := fun j => .str (String.ofList j.inserted)) hlead hlast
    rw [expand_bare hlead hlast hvalue]
    exact hends
  · exact hexp.ends_text hbare

/-- A value that is no string does not become the text that it should. -/
theorem Expandable.typed (hexp : t.Expandable value)
    (hends : ∀ j, Ends value id t.render j → ∀ s, t.result value = .str s → j = .str s) :
    t.Typed value := by
  intro path hlead hlast
  by_cases hone : t.tail.length = 1
  · exact Or.inl hone
  · obtain ⟨j, hvalue, hj⟩ := hexp.ends_bare (W := id) hlead hlast
    have hne : ∀ path, ¬ (t.head = [] ∧ t.tail = [(path, [])]) := by
      rintro path' ⟨-, htail⟩
      exact hone (by rw [htail]; rfl)
    exact Or.inr ⟨_, hvalue.trans (congrArg some (hends j hj _ (result_of_ne hne)))⟩

end Expands

end Template

end GoLib
