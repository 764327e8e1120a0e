/-
# The grammar of paths

The documentation of the filters gives a path as keys between dots, any of them with an index
`[i]` or a selector `[k=v]` behind it.  For such a path `GetPathValue` and `SetPathValue` mean the
same position only in regular cases (`writes_where_reads_iff`): no brackets before the last key,
no white space around the keys that one of them trims, an object in front of the last key, and
behind it an index, or a selector without dots that selects the element at the index that its text
is read as.
-/
import Ears.BracketPaths

open GoLib

/-- What stands in the brackets behind a key. -/
inductive Selector where
  | index (i : ℕ)
  | entry (k v : String)
  deriving DecidableEq, Repr

/-- A key of a path, and the brackets behind it. -/
structure PathSegment where
  key : String
  selector : Option Selector
  deriving DecidableEq, Repr

/-- The text between the brackets. -/
def Selector.text : Selector → List Char
  | .index i => digits i
  | .entry k v => k.toList ++ '=' :: v.toList

/-- The text of the brackets; none without a selector. -/
def Selector.brackets : Option Selector → List Char
  | none => []
  | some sel => '[' :: (sel.text ++ [']'])

/-- The text of a key with its brackets. -/
def PathSegment.text (s : PathSegment) : List Char := s.key.toList ++ Selector.brackets s.selector

/-- The keys are not empty and have no dots, brackets or backslashes; the texts of a selector have
no brackets, backslashes or further equal signs. -/
structure PathSegment.WellFormed (s : PathSegment) : Prop where
  plain : PlainKey s.key
  noDot : '.' ∉ s.key.toList
  entry : ∀ k v, s.selector = some (.entry k v) →
    ∀ c ∈ k.toList ++ v.toList, c ≠ '[' ∧ c ≠ ']' ∧ c ≠ '\\' ∧ c ≠ '='

/-- The path behind its first dot. -/
def pathBody (segs : List PathSegment) : List Char :=
  ['.'].intercalate (segs.map PathSegment.text)

/-- A path into the payload, in the short form without its name or in the full one. -/
def grammarPath (short : Bool) (segs : List PathSegment) : String :=
  String.ofList ((if short then [] else Event.PAYLOAD.toList) ++ '.' :: pathBody segs)

example : grammarPath true [⟨"foo", none⟩, ⟨"bar", some (.entry "code" "a")⟩, ⟨"val", none⟩] =
    ".foo.bar[code=a].val" := by decide

namespace Event

variable {κ ε : Type} {t : AckTree ε} {h h' : Heap} {e e' : Event κ} {lib : Libs κ}
  {segs rest : List PathSegment} {s : PathSegment} {sel : Selector} {cs ds seg tail : List Char}
  {short : Bool}

/-! ## Texts -/

theorem not_mem_selector (hs : s.WellFormed) (hsel : s.selector = some sel) :
    '[' ∉ sel.text ∧ ']' ∉ sel.text ∧ '\\' ∉ sel.text := by
  cases sel with
  | index i =>
      exact ⟨not_mem_digits (by decide), not_mem_digits (by decide), not_mem_digits (by decide)⟩
  | entry k v =>
      have hchars := hs.entry k v hsel
      have hnot : ∀ c : Char, c ≠ '=' → (∀ d ∈ k.toList ++ v.toList, d ≠ c) →
          c ∉ (Selector.entry k v).text := by
        intro c hc hd hmem
        rcases List.mem_append.mp hmem with hk | hv
        · exact hd c (List.mem_append_left _ hk) rfl
        · rcases List.mem_cons.mp hv with heq | hv
          · exact hc heq
          · exact hd c (List.mem_append_right _ hv) rfl
      exact ⟨hnot _ (by decide) fun d hd => (hchars d hd).1,
        hnot _ (by decide) fun d hd => (hchars d hd).2.1,
        hnot _ (by decide) fun d hd => (hchars d hd).2.2.1⟩

theorem key_ne_nil (hs : s.WellFormed) : s.key.toList ≠ [] :=
  fun hnil => hs.plain.ne (String.toList_inj.mp hnil)

theorem text_ne_nil (hs : s.WellFormed) : s.text ≠ [] := by
  unfold PathSegment.text
  exact List.append_ne_nil_of_left_ne_nil (key_ne_nil hs) _

theorem pathBody_singleton (s : PathSegment) : pathBody [s] = s.text := by
  rw [pathBody, List.map_singleton, List.intercalate_singleton]

theorem pathBody_cons (hrest : rest ≠ []) (s : PathSegment) :
    pathBody (s :: rest) = s.text ++ '.' :: pathBody rest := by
  obtain ⟨s', rest, rfl⟩ := List.exists_cons_of_ne_nil hrest
  rw [pathBody, List.map_cons, List.map_cons, List.intercalate_cons_cons, pathBody, List.map_cons,
    List.append_assoc]
  rfl

/-! ## What the walker cuts -/

/-- The characters of a key are kept together. -/
theorem arraySegments_key (hdot : '.' ∉ cs) (hleft : '[' ∉ cs) (hright : ']' ∉ cs)
    (htail : tail ≠ []) (seg : List Char) :
    arraySegments (cs ++ tail) false seg = arraySegments tail false (seg ++ cs) := by
  induction cs generalizing seg with
  | nil => rw [List.nil_append, List.append_nil]
  | cons c cs ih =>
      rw [List.mem_cons, not_or] at hdot hleft hright
      have hin : (if c = '[' then true else if c = ']' then false else false) = false := by
        rw [if_neg (Ne.symm hleft.1), if_neg (Ne.symm hright.1)]
      rw [List.cons_append, arraySegments, hin, if_neg (by simp [Ne.symm hdot.1]),
        if_neg (by simp [htail]), ih hdot.2 hleft.2 hright.2, List.append_assoc,
        List.singleton_append]

/-- A key at the end is kept if its last character is a single byte. -/
theorem arraySegments_end (hdot : '.' ∉ cs) (hleft : '[' ∉ cs) (hright : ']' ∉ cs) (hcs : cs ≠ [])
    (seg : List Char) :
    arraySegments cs false seg = [seg ++ cs] ∨ arraySegments cs false seg = [] := by
  obtain ⟨init, c, rfl⟩ := (List.eq_nil_or_concat' cs).resolve_left hcs
  simp only [List.mem_append, List.mem_singleton, not_or] at hdot hleft hright
  have hin : (if c = '[' then true else if c = ']' then false else false) = false := by
    rw [if_neg (Ne.symm hleft.2), if_neg (Ne.symm hright.2)]
  rw [arraySegments_key hdot.1 hleft.1 hright.1 (by simp), arraySegments, hin,
    if_neg (by simp [Ne.symm hdot.2])]
  by_cases hsize : c.utf8Size = 1
  · rw [if_pos ⟨rfl, hsize⟩, List.append_assoc]
    exact Or.inl rfl
  · rw [if_neg (by simp [hsize])]
    exact Or.inr rfl

/-- Between brackets nothing is cut. -/
theorem arraySegments_closed (hright : ']' ∉ ds) (htail : tail ≠ []) (seg : List Char) :
    arraySegments (ds ++ ']' :: tail) true seg =
      arraySegments tail false (seg ++ (ds ++ [']'])) := by
  induction ds generalizing seg with
  | nil =>
      rw [List.nil_append, arraySegments]
      simp [htail]
  | cons c ds ih =>
      rw [List.mem_cons, not_or] at hright
      have hin : (if c = '[' then true else if c = ']' then false else true) = true := by
        rw [if_neg (Ne.symm hright.1)]
        split <;> rfl
      rw [List.cons_append, arraySegments, hin, if_neg (by simp), if_neg (by simp), ih hright.2]
      simp

/-- A segment in front of a dot. -/
theorem arraySegments_dot (hs : s.WellFormed) (tail : List Char) :
    arraySegments (s.text ++ '.' :: tail) false [] = s.text :: arraySegments tail false [] := by
  have hcut : ∀ seg, arraySegments ('.' :: tail) false seg = seg :: arraySegments tail false [] := by
    intro seg
    rw [arraySegments]
    simp
  unfold PathSegment.text
  rw [List.append_assoc, arraySegments_key hs.noDot hs.plain.bracketLeft hs.plain.bracketRight
    (by simp)]
  cases hsel : s.selector with
  | none => rw [Selector.brackets, List.nil_append, hcut, List.nil_append, List.append_nil]
  | some sel =>
      have hright := (not_mem_selector hs hsel).2.1
      rw [Selector.brackets, List.cons_append, List.append_assoc, List.singleton_append,
        arraySegments]
      simp [arraySegments_closed hright, hcut]

/-- The walker cuts a path into its segments; it may lose the last one, when it has no brackets. -/
theorem arraySegments_pathBody (hsegs : ∀ s ∈ segs, s.WellFormed) (hne : segs ≠ []) :
    arraySegments (pathBody segs) false [] = segs.map PathSegment.text ∨
      ∃ init last, segs = init ++ [last] ∧ last.selector = none ∧
        arraySegments (pathBody segs) false [] = init.map PathSegment.text := by
  induction segs with
  | nil => exact absurd rfl hne
  | cons s rest ih =>
      obtain ⟨hs, hrestwf⟩ := List.forall_mem_cons.mp hsegs
      by_cases hrest : rest = []
      · subst hrest
        rw [pathBody_singleton]
        unfold PathSegment.text
        cases hsel : s.selector with
        | none =>
            rw [Selector.brackets, List.append_nil]
            rcases arraySegments_end hs.noDot hs.plain.bracketLeft hs.plain.bracketRight
              (key_ne_nil hs) [] with hkept | hlost
            · refine Or.inl ?_
              rw [hkept]
              simp [hsel, Selector.brackets]
            · exact Or.inr ⟨[], s, rfl, hsel, hlost⟩
        | some sel =>
            refine Or.inl ?_
            have hright := (not_mem_selector hs hsel).2.1
            have hsplit : ([] ++ s.key.toList).splitOn '.' = [] ++ [s.key.toList] :=
              List.splitOn_eq_singleton hs.noDot
            rw [Selector.brackets, arraySegments_index hright hs.plain.bracketLeft
              hs.plain.bracketRight List.not_mem_nil hsplit]
            simp [hsel, Selector.brackets]
      · rw [pathBody_cons hrest, arraySegments_dot hs]
        rcases ih hrestwf hrest with hkept | ⟨init, last, rfl, hlast, hlost⟩
        · exact Or.inl (by rw [hkept, List.map_cons])
        · exact Or.inr ⟨s :: init, last, rfl, hlast, by rw [hlost, List.map_cons]⟩

/-! ## What the paths are split into -/

theorem replacePair_of_not_mem {a b : Char} {new : List Char} (hcs : a ∉ cs) :
    replacePair a b new cs = cs := by
  induction cs with
  | nil => simp [replacePair]
  | cons c cs ih =>
      rw [List.mem_cons, not_or] at hcs
      rw [replacePair_cons_of_ne (Ne.symm hcs.1), ih hcs.2]

/-- Without backslashes a path is split at its dots. -/
theorem splitPath_of_not_mem (hcs : '\\' ∉ cs) :
    splitPath (String.ofList cs) = (cs.splitOn '.').map String.ofList := by
  unfold splitPath split
  rw [String.toList_ofList, replacePair_of_not_mem hcs]
  apply List.map_congr_left
  intro piece hpiece
  have hmem : '\\' ∉ piece := by
    intro hin
    obtain ⟨A, B, hAB⟩ := exists_eq_intercalate hpiece
    rw [List.intercalate_splitOn] at hAB
    refine hcs ?_
    rw [hAB]
    exact List.mem_append_left _ (List.mem_append_right _ hin)
  rw [replacePair_of_not_mem hmem]

theorem not_mem_text (hs : s.WellFormed) : '\\' ∉ s.text := by
  unfold PathSegment.text
  rw [List.mem_append, not_or]
  refine ⟨hs.plain.backslash, ?_⟩
  cases hsel : s.selector with
  | none => exact List.not_mem_nil
  | some sel =>
      have hback := (not_mem_selector hs hsel).2.2
      simp [Selector.brackets, hback]

theorem mem_pathBody {c : Char} (hc : c ∈ pathBody segs) : c = '.' ∨ ∃ s ∈ segs, c ∈ s.text := by
  rcases mem_of_mem_intercalate hc with hdot | ⟨text, htext, hmem⟩
  · exact Or.inl hdot
  · obtain ⟨s, hs, rfl⟩ := List.mem_map.mp htext
    exact Or.inr ⟨s, hs, hmem⟩

theorem mem_pathBody_of_mem {c : Char} (hs : s ∈ segs) (hc : c ∈ s.text) : c ∈ pathBody segs := by
  obtain ⟨A, B, hAB⟩ := exists_eq_intercalate (List.mem_map_of_mem (f := PathSegment.text) hs)
  rw [pathBody, hAB]
  exact List.mem_append_left _ (List.mem_append_right _ hc)

theorem pathBody_ne_nil (hsegs : ∀ s ∈ segs, s.WellFormed) (hne : segs ≠ []) :
    pathBody segs ≠ [] := by
  obtain ⟨s, rest, rfl⟩ := List.exists_cons_of_ne_nil hne
  have hs := text_ne_nil (hsegs s List.mem_cons_self)
  obtain ⟨c, cs, hcs⟩ := List.exists_cons_of_ne_nil hs
  have hmem : c ∈ pathBody (s :: rest) := mem_pathBody_of_mem List.mem_cons_self (by rw [hcs]; simp)
  exact List.ne_nil_of_mem hmem

/-- Both forms of a path mean the full one. -/
theorem fullPath_grammarPath (short : Bool) (segs : List PathSegment) :
    fullPath (grammarPath short segs) = String.ofList (PAYLOAD.toList ++ '.' :: pathBody segs) := by
  unfold fullPath grammarPath
  cases short with
  | true =>
      have hdot : hasPrefix (String.ofList (([] : List Char) ++ '.' :: pathBody segs)) "." = true := by
        unfold hasPrefix
        rw [String.toList_ofList]
        simp
      simp only [if_true, hdot]
      rw [if_neg (by simp [PAYLOAD])]
      apply String.toList_inj.mp
      simp
  | false =>
      have hdot : hasPrefix (String.ofList (PAYLOAD.toList ++ '.' :: pathBody segs)) "." = false := by
        unfold hasPrefix
        simp [PAYLOAD, List.isPrefixOf]
      simp only [Bool.false_eq_true, if_false, hdot]
      rw [if_neg (by simp [PAYLOAD])]

theorem rootOf_grammarPath (short : Bool) (segs : List PathSegment) :
    rootOf (grammarPath short segs) = .payload := by
  unfold rootOf
  refine if_neg fun hmeta => ?_
  have hhead := head_of_metadata hmeta
  unfold grammarPath at hhead
  rw [String.toList_ofList] at hhead
  cases short with
  | true => exact absurd (Option.some.inj hhead) (by decide)
  | false => exact absurd (Option.some.inj hhead) (by decide)

theorem splitPath_grammarPath (hsegs : ∀ s ∈ segs, s.WellFormed) (short : Bool) :
    (splitPath (fullPath (grammarPath short segs))).tail =
      ((pathBody segs).splitOn '.').map String.ofList := by
  have hback : '\\' ∉ PAYLOAD.toList ++ '.' :: pathBody segs := by
    intro hmem
    rcases List.mem_append.mp hmem with hpayload | hmem
    · exact absurd hpayload (by decide)
    · rcases List.mem_cons.mp hmem with hdot | hmem
      · exact absurd hdot (by decide)
      · rcases mem_pathBody hmem with hdot | ⟨s, hs, hmem⟩
        · exact absurd hdot (by decide)
        · exact not_mem_text (hsegs s hs) hmem
  rw [fullPath_grammarPath, splitPath_of_not_mem hback,
    List.splitOn_append_cons_self_of_not_mem (by decide), List.map_cons, List.tail_cons]

theorem walkerSegments_grammarPath (short : Bool) (segs : List PathSegment) :
    walkerSegments (grammarPath short segs) = arraySegments (pathBody segs) false [] := by
  unfold walkerSegments
  rw [fullPath_grammarPath, String.toList_ofList]
  have hidx : (PAYLOAD.toList ++ '.' :: pathBody segs).idxOf '.' = PAYLOAD.toList.length := by
    rw [List.idxOf_append_of_notMem (by decide)]
    simp
  rw [hidx, List.drop_left, List.tail_cons]

theorem isBelow_grammarPath (hsegs : ∀ s ∈ segs, s.WellFormed) (hne : segs ≠ []) (short : Bool) :
    IsBelow (grammarPath short segs) := by
  obtain ⟨c, cs, hbody⟩ := List.exists_cons_of_ne_nil (pathBody_ne_nil hsegs hne)
  constructor
  · unfold IsPayload
    rw [fullPath_grammarPath, hbody]
    rintro (heq | heq)
    · exact absurd (congrArg String.toList heq) (by simp [PAYLOAD])
    · exact absurd (congrArg String.toList heq) (by simp [PAYLOAD])
  · unfold IsMetadata
    rw [fullPath_grammarPath]
    rintro (heq | heq)
    · exact absurd (congrArg (fun s => s.toList.head?) heq) (by simp [PAYLOAD, METADATA])
    · exact absurd (congrArg (fun s => s.toList.head?) heq) (by simp [PAYLOAD, METADATA])
  · unfold IsUnknown
    rw [fullPath_grammarPath]
    have hsame : hasPrefix (String.ofList (PAYLOAD.toList ++ '.' :: pathBody segs))
        (PAYLOAD ++ ".") = true := by
      unfold hasPrefix
      rw [String.toList_ofList, List.isPrefixOf_iff_prefix]
      exact ⟨pathBody segs, by simp⟩
    rw [hsame]
    simp

/-- The walker reads the paths with a selector. -/
theorem isBracketed_grammarPath (hsegs : ∀ s ∈ segs, s.WellFormed) (short : Bool) :
    (contains (fullPath (grammarPath short segs)) '[' &&
      contains (fullPath (grammarPath short segs)) ']') = true ↔
      ∃ s ∈ segs, s.selector ≠ none := by
  have hmem : ∀ c, c ≠ '.' → c ∉ PAYLOAD.toList →
      (contains (fullPath (grammarPath short segs)) c = true ↔ ∃ s ∈ segs, c ∈ s.text) := by
    intro c hdot hpayload
    unfold GoLib.contains
    rw [fullPath_grammarPath, String.toList_ofList, List.contains_iff_mem]
    constructor
    · intro hmem
      rcases List.mem_append.mp hmem with hmem | hmem
      · exact absurd hmem hpayload
      · rcases List.mem_cons.mp hmem with heq | hmem
        · exact absurd heq hdot
        · exact (mem_pathBody hmem).resolve_left hdot
    · rintro ⟨s, hs, hmem⟩
      exact List.mem_append_right _ (List.mem_cons_of_mem _ (mem_pathBody_of_mem hs hmem))
  rw [Bool.and_eq_true, hmem '[' (by decide) (by decide), hmem ']' (by decide) (by decide)]
  constructor
  · rintro ⟨⟨s, hs, hmem⟩, -⟩
    refine ⟨s, hs, fun hnone => (hsegs s hs).plain.bracketLeft ?_⟩
    simpa [PathSegment.text, hnone, Selector.brackets] using hmem
  · rintro ⟨s, hs, hsel⟩
    obtain ⟨sel, hsel⟩ := Option.ne_none_iff_exists'.mp hsel
    refine ⟨⟨s, hs, ?_⟩, ⟨s, hs, ?_⟩⟩
    · simp [PathSegment.text, hsel, Selector.brackets]
    · simp [PathSegment.text, hsel, Selector.brackets]

/-! ## Steps of segments -/

variable {w : Value} {σ A B : List Step} {i i' : ℕ} {pre post : List (List Char)} {path : String}

theorem namedSteps_append (h : Heap) (pre post : List (List Char)) (u : Option Value) :
    namedSteps h (pre ++ post) u = (namedSteps h pre u).bind fun σ =>
      (namedSteps h post (u.bind fun v => h.locate v σ)).map (σ ++ ·) := by
  induction pre generalizing u with
  | nil =>
      rw [List.nil_append, namedSteps, Option.bind_some]
      cases u <;> simp [Heap.locate_nil]
  | cons s pre ih =>
      rw [List.cons_append, namedSteps, namedSteps]
      cases stepsOf h s u with
      | none => rfl
      | some steps =>
          rw [Option.bind_some, Option.bind_some, ih]
          cases namedSteps h pre (u.bind fun v => h.locate v steps) with
          | none => rfl
          | some σ =>
              have hwalk : (u.bind fun v => h.locate v (steps ++ σ)) =
                  (u.bind fun v => h.locate v steps).bind fun v => h.locate v σ := by
                cases u with
                | none => rfl
                | some v => simp [Heap.locate_append]
              rw [Option.bind_some, Option.map_some, Option.bind_some, hwalk, Option.map_map]
              congr 1
              funext τ
              simp

/-- Segments without brackets name their keys. -/
theorem namedSteps_keys (hkeys : ∀ s ∈ pre, s.getLast? ≠ some ']') (h : Heap) (u : Option Value) :
    namedSteps h pre u = some (pre.map fun s => .key (String.ofList s)) := by
  induction pre generalizing u with
  | nil => rfl
  | cons s pre ih =>
      obtain ⟨hs, hpre⟩ := List.forall_mem_cons.mp hkeys
      rw [namedSteps, stepsOf_key hs, Option.bind_some, ih hpre]
      rfl

/-- A segment with brackets names an index last. -/
theorem stepsOf_bracket {u : Option Value} {steps : List Step} (hlast : seg.getLast? = some ']')
    (hsteps : stepsOf h seg u = some steps) : ∃ names i, steps = names ++ [.index i] := by
  unfold stepsOf at hsteps
  rw [if_pos hlast] at hsteps
  split at hsteps
  · obtain ⟨i, -, rfl⟩ := Option.map_eq_some_iff.mp hsteps
    exact ⟨[], i, rfl⟩
  · split at hsteps
    · obtain ⟨i, -, rfl⟩ := Option.map_eq_some_iff.mp hsteps
      exact ⟨[_], i, rfl⟩
    · exact nomatch hsteps

theorem namedSteps_ne_nil {u : Option Value} (hsteps : namedSteps h pre u = some σ)
    (hpre : pre ≠ []) : σ ≠ [] := by
  obtain ⟨s, rest, rfl⟩ := List.exists_cons_of_ne_nil hpre
  rw [namedSteps] at hsteps
  obtain ⟨steps, hs, hrest⟩ := Option.bind_eq_some_iff.mp hsteps
  obtain ⟨τ, -, rfl⟩ := Option.map_eq_some_iff.mp hrest
  exact List.append_ne_nil_of_left_ne_nil (stepsOf_ne_nil hs) _

/-- A segment with brackets among others leaves an index among the steps. -/
theorem namedSteps_bracket {u : Option Value} (hlast : seg.getLast? = some ']')
    (hsteps : namedSteps h (pre ++ seg :: post) u = some σ) :
    ∃ A i B, σ = A ++ .index i :: B ∧ (post ≠ [] → B ≠ []) := by
  rw [namedSteps_append] at hsteps
  obtain ⟨τ, -, hsteps⟩ := Option.bind_eq_some_iff.mp hsteps
  obtain ⟨ρ, hρ, rfl⟩ := Option.map_eq_some_iff.mp hsteps
  rw [namedSteps] at hρ
  obtain ⟨steps, hs, hρ⟩ := Option.bind_eq_some_iff.mp hρ
  obtain ⟨B, hB, rfl⟩ := Option.map_eq_some_iff.mp hρ
  obtain ⟨names, i, rfl⟩ := stepsOf_bracket hlast hs
  exact ⟨τ ++ names, i, B, by simp, namedSteps_ne_nil hB⟩

/-! ## The way that is written -/

theorem way_concat {keys : List String} {k : String} (hk : k ≠ "") :
    way (keys ++ [k]) = keys.filter (· ≠ "") := by
  induction keys with
  | nil => rw [List.nil_append, way, if_neg hk, if_pos rfl, List.filter_nil]
  | cons s keys ih =>
      by_cases hs : s = ""
      · rw [List.cons_append, way, if_pos hs, ih, List.filter_cons_of_neg (by simpa using hs)]
      · rw [List.cons_append, way_enter hs (by simp), ih, List.filter_cons_of_pos (by simpa using hs)]

theorem lastKey_concat {keys : List String} {k : String} (hk : k ≠ "") (key : String) :
    lastKey (keys ++ [k]) key = k := by
  induction keys generalizing key with
  | nil => rw [List.nil_append, lastKey, if_neg hk, lastKey]
  | cons s keys ih =>
      rw [List.cons_append, lastKey]
      split <;> rw [ih]

/-- What `SetPathValue` writes to, when the last piece between dots is known. -/
theorem wayOf_concat {keys : List String} {k : String}
    (hsplit : (splitPath (fullPath path)).tail = keys ++ [k]) (hk : k ≠ "") :
    wayOf path = (slotOf k).steps.map ((keys.filter (· ≠ "")).map .key ++ ·) := by
  unfold wayOf
  dsimp only
  rw [hsplit, way_concat hk, lastKey_concat hk]

/-- An index ends the steps that are written. -/
theorem wayOf_index (hway : wayOf path = some (A ++ .index i :: B)) : B = [] := by
  unfold wayOf at hway
  dsimp only at hway
  obtain ⟨steps, hsteps, heq⟩ := Option.map_eq_some_iff.mp hway
  by_contra hB
  have hmem : Step.index i ∈ (A ++ .index i :: B).dropLast := by
    rw [List.dropLast_append_of_ne_nil (by simp), List.dropLast_cons_of_ne_nil hB]
    simp
  rw [← heq] at hmem
  cases hslot : slotOf (lastKey (splitPath (fullPath path)).tail "") with
  | panics =>
      rw [hslot] at hsteps
      exact nomatch hsteps
  | nothing =>
      rw [hslot] at hsteps
      exact nomatch hsteps
  | entry k =>
      rw [hslot] at hsteps
      obtain rfl := Option.some.inj hsteps
      simp at hmem
  | element k j =>
      rw [hslot] at hsteps
      obtain rfl := Option.some.inj hsteps
      rw [List.dropLast_append_of_ne_nil (by simp)] at hmem
      simp at hmem

/-! ## Both readings of a path -/

variable {init : List PathSegment} {last : PathSegment}

/-- The keys that the walker goes by. -/
def namesOf (init : List PathSegment) : List (List Char) := shown (init.map PathSegment.text)

theorem text_of_none (hs : s.selector = none) : s.text = s.key.toList := by
  rw [PathSegment.text, hs, Selector.brackets, List.append_nil]

theorem text_of_some (hs : s.selector = some sel) :
    s.text = s.key.toList ++ '[' :: (sel.text ++ [']']) := by
  rw [PathSegment.text, hs, Selector.brackets]

theorem shown_append (pre post : List (List Char)) :
    shown (pre ++ post) = shown pre ++ shown post := by
  unfold shown
  rw [List.map_append, List.filter_append]

theorem shown_bracket (hs : s.selector = some sel) :
    shown [s.text] = [s.key.toList.dropWhile isSpace ++ '[' :: (sel.text ++ [']'])] := by
  rw [text_of_some hs, shown_cons (by rw [trimSpace_index]; simp), trimSpace_index]
  rfl

theorem namesOf_getLast (hinit : ∀ s ∈ init, s.WellFormed ∧ s.selector = none)
    {cs : List Char} (hcs : cs ∈ namesOf init) : cs.getLast? ≠ some ']' := by
  apply getLast?_ne_of_not_mem
  intro hmem
  obtain ⟨hcs, -⟩ := List.mem_filter.mp hcs
  obtain ⟨text, htext, rfl⟩ := List.mem_map.mp hcs
  obtain ⟨s, hs, rfl⟩ := List.mem_map.mp htext
  have hkey := mem_of_mem_trimSpace hmem
  rw [text_of_none (hinit s hs).2] at hkey
  exact (hinit s hs).1.plain.bracketRight hkey

theorem arraySegments_of_selector (hsegs : ∀ s ∈ init ++ [last], s.WellFormed)
    (hlast : last.selector = some sel) :
    arraySegments (pathBody (init ++ [last])) false [] =
      init.map PathSegment.text ++ [last.text] := by
  rcases arraySegments_pathBody hsegs (by simp) with hkept | ⟨init', last', heq, hnone, -⟩
  · rw [hkept, List.map_append, List.map_singleton]
  · obtain ⟨-, hlast'⟩ := List.append_inj' heq rfl
    obtain rfl := (List.cons.inj hlast').1
    rw [hlast] at hnone
    exact nomatch hnone

/-- The position that is read, for brackets behind the last key only. -/
theorem placeOf_last (hsegs : ∀ s ∈ init ++ [last], s.WellFormed)
    (hinit : ∀ s ∈ init, s.selector = none) (hlast : last.selector = some sel) (short : Bool)
    (h : Heap) (e : Event κ) :
    placeOf h e (grammarPath short (init ++ [last])) =
      (stepsOf h (last.key.toList.dropWhile isSpace ++ '[' :: (sel.text ++ [']']))
        (h.walk e.payload ((namesOf init).map String.ofList))).map
          (((namesOf init).map String.ofList).map .key ++ ·) := by
  have hbelow := isBelow_grammarPath hsegs (by simp) short
  have hbrackets := (isBracketed_grammarPath hsegs short).mpr ⟨last, by simp, by rw [hlast]; simp⟩
  have hkeys : ∀ cs ∈ namesOf init, cs.getLast? ≠ some ']' := fun cs hcs =>
    namesOf_getLast (fun s hs => ⟨hsegs s (List.mem_append_left _ hs), hinit s hs⟩) hcs
  have hnames : ((namesOf init).map fun s => Step.key (String.ofList s)) =
      ((namesOf init).map String.ofList).map .key := by rw [List.map_map]; rfl
  rw [placeOf_bracketed hbelow.notPayload hbrackets, bracketSegments_eq,
    walkerSegments_grammarPath, arraySegments_of_selector hsegs hlast, shown_append,
    shown_bracket hlast, rootOf_grammarPath, namedSteps_append, ← namesOf, namedSteps_keys hkeys,
    Option.bind_some, hnames, rootObject, Option.bind_some, Heap.locate_keys, namedSteps]
  cases stepsOf h (last.key.toList.dropWhile isSpace ++ '[' :: (sel.text ++ [']']))
      (h.walk e.payload ((namesOf init).map String.ofList)) with
  | none => rfl
  | some steps => simp [namedSteps]

/-- What `SetPathValue` reads off a key with brackets. -/
theorem slotOf_bracket (hs : s.WellFormed) (hsel : s.selector = some sel) :
    slotOf (String.ofList s.text) =
      if 0 ≤ (atoi sel.text).1 then .element s.key (atoi sel.text).1.toNat else .nothing := by
  have hleft : (s.key.toList ++ '[' :: (sel.text ++ [']'])).idxOf '[' = s.key.toList.length := by
    rw [List.idxOf_append_of_notMem hs.plain.bracketLeft]
    simp
  have hright : (s.key.toList ++ '[' :: (sel.text ++ [']'])).idxOf ']' =
      s.key.toList.length + (sel.text.length + 1) := by
    rw [List.idxOf_append_of_notMem hs.plain.bracketRight, List.idxOf_cons_ne _ (by decide),
      List.idxOf_append_of_notMem (not_mem_selector hs hsel).2.1]
    simp
  have hindexed : indexedKey (String.ofList s.text) = (s.key, some sel.text) := by
    unfold indexedKey
    dsimp only
    rw [String.toList_ofList, text_of_some hsel, hleft, hright, if_pos (by omega)]
    refine Prod.ext ?_ ?_
    · rw [List.take_left, String.ofList_toList]
    · rw [List.take_length_add_append, List.drop_length_add_append]
      simp
  have hboth : (contains (String.ofList s.text) '[' && contains (String.ofList s.text) ']') = true := by
    unfold GoLib.contains
    rw [String.toList_ofList, text_of_some hsel]
    simp
  unfold slotOf
  rw [if_pos hboth, hindexed]

/-- Without dots in the segments the path is split into them. -/
theorem splitPath_pieces (hsegs : ∀ s ∈ segs, s.WellFormed) (hne : segs ≠ [])
    (hdots : ∀ s ∈ segs, '.' ∉ s.text) (short : Bool) :
    (splitPath (fullPath (grammarPath short segs))).tail =
      segs.map fun s => String.ofList s.text := by
  have hpieces : (pathBody segs).splitOn '.' = segs.map PathSegment.text := by
    rw [pathBody, List.splitOn_intercalate _ _ (by simpa using hne)]
    intro text htext
    obtain ⟨s, hs, rfl⟩ := List.mem_map.mp htext
    exact hdots s hs
  rw [splitPath_grammarPath hsegs, hpieces, List.map_map]
  rfl

theorem map_text_of_none (hinit : ∀ s ∈ init, s.selector = none) :
    (init.map fun s => String.ofList s.text) = init.map (·.key) := by
  apply List.map_congr_left
  intro s hs
  rw [text_of_none (hinit s hs), String.ofList_toList]

theorem filter_keys (hinit : ∀ s ∈ init, s.WellFormed) :
    (init.map (·.key)).filter (· ≠ "") = init.map (·.key) := by
  rw [List.filter_eq_self]
  intro k hk
  obtain ⟨s, hs, rfl⟩ := List.mem_map.mp hk
  simpa using (hinit s hs).plain.ne

/-- The place that is written, for brackets without dots behind the last key only. -/
theorem wayOf_last (hsegs : ∀ s ∈ init ++ [last], s.WellFormed)
    (hinit : ∀ s ∈ init, s.selector = none) (hlast : last.selector = some sel)
    (hdot : '.' ∉ sel.text) (short : Bool) :
    wayOf (grammarPath short (init ++ [last])) =
      if 0 ≤ (atoi sel.text).1 then
        some ((init.map (·.key)).map .key ++ [.key last.key, .index (atoi sel.text).1.toNat])
      else none := by
  have hlastwf := hsegs last (by simp)
  have hdots : ∀ s ∈ init ++ [last], '.' ∉ s.text := by
    intro s hs
    rcases List.mem_append.mp hs with hmem | hmem
    · rw [text_of_none (hinit s hmem)]
      exact (hsegs s hs).noDot
    · obtain rfl := List.mem_singleton.mp hmem
      rw [text_of_some hlast]
      simp [hlastwf.noDot, hdot]
  have hne : String.ofList last.text ≠ "" := by
    intro hnil
    apply text_ne_nil hlastwf
    simpa using congrArg String.toList hnil
  have hsplit : (splitPath (fullPath (grammarPath short (init ++ [last])))).tail =
      init.map (·.key) ++ [String.ofList last.text] := by
    rw [splitPath_pieces hsegs (by simp) hdots, List.map_append, map_text_of_none hinit,
      List.map_singleton]
  rw [wayOf_concat hsplit hne, filter_keys fun s hs => hsegs s (List.mem_append_left _ hs),
    slotOf_bracket hlastwf hlast]
  split <;> rfl

/-- Without brackets the place that is written is the one that is read. -/
theorem wayOf_plain (hsegs : ∀ s ∈ segs, s.WellFormed) (hne : segs ≠ [])
    (hplain : ∀ s ∈ segs, s.selector = none) (short : Bool) (h : Heap) (e : Event κ) :
    wayOf (grammarPath short segs) = placeOf h e (grammarPath short segs) := by
  have hdots : ∀ s ∈ segs, '.' ∉ s.text := by
    intro s hs
    rw [text_of_none (hplain s hs)]
    exact (hsegs s hs).noDot
  have hbrackets : (contains (fullPath (grammarPath short segs)) '[' &&
      contains (fullPath (grammarPath short segs)) ']') = false := by
    rw [← Bool.not_eq_true, isBracketed_grammarPath hsegs]
    rintro ⟨s, hs, hsel⟩
    exact hsel (hplain s hs)
  have hsplit := (splitPath_pieces hsegs hne hdots short).trans (map_text_of_none hplain)
  rw [placeOf_plain (isBelow_grammarPath hsegs hne short).notPayload hbrackets, hsplit]
  obtain ⟨init, last, rfl⟩ := (List.eq_nil_or_concat' segs).resolve_left hne
  rw [List.map_append, List.map_singleton] at hsplit
  have hlast := (hsegs last (by simp)).plain
  have hentry : slotOf last.key = .entry last.key := by
    unfold slotOf GoLib.contains
    simp [hlast.bracketLeft]
  rw [wayOf_concat hsplit hlast.ne, hentry,
    filter_keys fun s hs => hsegs s (List.mem_append_left _ hs)]
  simp [Slot.steps]

/-- Behind the last dot there are no brackets: only keys are written. -/
theorem wayOf_dotted (hsegs : ∀ s ∈ segs, s.WellFormed) {cs ds : List Char}
    (hbody : pathBody segs = cs ++ '.' :: ds) (hdot : '.' ∉ ds) (hleft : '[' ∉ ds) (hds : ds ≠ [])
    (short : Bool) : ∃ keys : List String, wayOf (grammarPath short segs) = some (keys.map .key) := by
  have hsplit : (splitPath (fullPath (grammarPath short segs))).tail =
      (cs.splitOn '.').map String.ofList ++ [String.ofList ds] := by
    rw [splitPath_grammarPath hsegs, hbody, List.splitOn_append_cons_self,
      List.splitOn_eq_singleton hdot, List.map_append, List.map_singleton]
  have hne : String.ofList ds ≠ "" := by
    intro hnil
    apply hds
    simpa using congrArg String.toList hnil
  have hentry : slotOf (String.ofList ds) = .entry (String.ofList ds) := by
    unfold slotOf GoLib.contains
    rw [String.toList_ofList]
    simp [hleft]
  rw [wayOf_concat hsplit hne, hentry]
  exact ⟨((cs.splitOn '.').map String.ofList).filter (· ≠ "") ++ [String.ofList ds], by
    simp [Slot.steps]⟩

/-- The walker keeps what follows a segment with brackets, a last key without them excepted. -/
theorem arraySegments_at (hsegs : ∀ s ∈ segs, s.WellFormed) {pre post : List PathSegment}
    (heq : segs = pre ++ s :: post) (hsel : s.selector ≠ none) :
    ∃ post' : List PathSegment, arraySegments (pathBody segs) false [] =
        pre.map PathSegment.text ++ s.text :: post'.map PathSegment.text ∧
      ∀ x ∈ post, x.selector ≠ none → x ∈ post' := by
  subst heq
  rcases arraySegments_pathBody hsegs (by simp) with hkept | ⟨init, last, hsplit, hlast, hlost⟩
  · exact ⟨post, by rw [hkept, List.map_append, List.map_cons], fun x hx _ => hx⟩
  · rcases List.eq_nil_or_concat' post with rfl | ⟨post', last', rfl⟩
    · obtain ⟨-, hend⟩ := List.append_inj' hsplit rfl
      rw [(List.cons.inj hend).1] at hsel
      exact absurd hlast hsel
    · have hassoc : (pre ++ s :: post') ++ [last'] = init ++ [last] := by
        rw [← hsplit, List.append_assoc, List.cons_append]
      obtain ⟨rfl, hend⟩ := List.append_inj' hassoc rfl
      obtain rfl := (List.cons.inj hend).1
      refine ⟨post', by rw [hlost, List.map_append, List.map_cons], fun x hx hxsel => ?_⟩
      rcases List.mem_append.mp hx with hmem | hmem
      · exact hmem
      · rw [List.mem_singleton.mp hmem] at hxsel
        exact absurd hlast hxsel

/-- A segment with brackets leaves an index in the position that is read, and further steps when
there are brackets behind it. -/
theorem index_of_selector (hsegs : ∀ s ∈ segs, s.WellFormed) {pre post : List PathSegment}
    (heq : segs = pre ++ s :: post) (hsel : s.selector ≠ none)
    (hplace : placeOf h e (grammarPath short segs) = some σ) :
    ∃ A i B, σ = A ++ .index i :: B ∧ ((∃ x ∈ post, x.selector ≠ none) → B ≠ []) := by
  have hs : s ∈ segs := by rw [heq]; simp
  have hne : segs ≠ [] := List.ne_nil_of_mem hs
  have hbrackets := (isBracketed_grammarPath hsegs short).mpr ⟨s, hs, hsel⟩
  obtain ⟨post', hcut, hkeeps⟩ := arraySegments_at hsegs heq hsel
  obtain ⟨sel, hsome⟩ := Option.ne_none_iff_exists'.mp hsel
  have hshown : shown (pre.map PathSegment.text ++ s.text :: post'.map PathSegment.text) =
      shown (pre.map PathSegment.text) ++
        (s.key.toList.dropWhile isSpace ++ '[' :: (sel.text ++ [']'])) ::
          shown (post'.map PathSegment.text) := by
    rw [shown_append, ← List.singleton_append (x := s.text), shown_append, shown_bracket hsome]
    rfl
  rw [placeOf_bracketed (isBelow_grammarPath hsegs hne short).notPayload hbrackets,
    bracketSegments_eq, walkerSegments_grammarPath, hcut, hshown] at hplace
  obtain ⟨A, i, B, rfl, hB⟩ := namedSteps_bracket (by
    rw [← List.cons_append, ← List.append_assoc]
    exact List.getLast?_concat) hplace
  refine ⟨A, i, B, rfl, fun ⟨x, hx, hxsel⟩ => hB ?_⟩
  -- brackets are not blank
  obtain ⟨sel', hsel'⟩ := Option.ne_none_iff_exists'.mp hxsel
  obtain ⟨pre', post'', rfl⟩ := List.append_of_mem (hkeeps x hx hxsel)
  rw [List.map_append, List.map_cons, shown_append, ← List.singleton_append (x := x.text),
    shown_append, shown_bracket hsel']
  simp

/-! ## Writing where one reads -/

/-- The brackets mean the element at the index that the text between them is read as: an index
does, a selector without dots does when the first element that it selects is there. -/
def IsRead (h : Heap) (array : Option Value) : Selector → Prop
  | .index _ => True
  | .entry k v => '.' ∉ (Selector.entry k v).text ∧
      ∃ i : ℕ, indexNamed h array (Selector.entry k v).text = some i ∧
        (atoi (Selector.entry k v).text).1 = i

/-- Brackets behind the last key only, no white space where the walker trims it, and an object
before the last key. -/
structure EndsInBrackets (h : Heap) (v : Value) (init : List PathSegment) (last : PathSegment)
    (sel : Selector) : Prop where
  keys : ∀ s ∈ init, s.selector = none ∧ trimSpace s.key.toList = s.key.toList
  selector : last.selector = some sel
  start : last.key.toList.dropWhile isSpace = last.key.toList
  object : ∃ r, h.walk v (init.map (·.key)) = some (.map r) ∧
    IsRead h (h.getKey r last.key) sel

/-- The paths that are written where they are read. -/
def Regular (h : Heap) (v : Value) (segs : List PathSegment) : Prop :=
  (∀ s ∈ segs, s.selector = none) ∨
    ∃ init last sel, segs = init ++ [last] ∧ EndsInBrackets h v init last sel

theorem atoi_of_indexNamed {u : Option Value} (hi : indexNamed h u (digits i) = some i') :
    (atoi (digits i)).1 = i' := by
  unfold indexNamed at hi
  have hplain : ¬ (digits i).contains '=' = true := by
    rw [List.contains_iff_mem]
    exact not_mem_digits (by decide)
  rw [if_neg hplain] at hi
  split at hi
  · rename_i j hj
    rw [hj]
    split at hi
    · exact nomatch hi
    · rw [← Option.some.inj hi]
      omega
  · exact nomatch hi

theorem dot_last {cs : List Char} (hdot : '.' ∈ cs) : ∃ xs ys, cs = xs ++ '.' :: ys ∧ '.' ∉ ys := by
  obtain ⟨xs, ys, hrev, hxs⟩ := List.eq_append_cons_of_mem (List.mem_reverse.mpr hdot)
  refine ⟨ys.reverse, xs.reverse, ?_, by simpa using hxs⟩
  rw [← List.reverse_reverse cs, hrev]
  simp

theorem pathBody_concat (hinit : init ≠ []) (last : PathSegment) :
    pathBody (init ++ [last]) = pathBody init ++ '.' :: last.text := by
  induction init with
  | nil => exact absurd rfl hinit
  | cons s init ih =>
      by_cases hrest : init = []
      · subst hrest
        rw [pathBody_singleton, List.singleton_append, pathBody_cons (by simp), pathBody_singleton]
      · rw [List.cons_append, pathBody_cons (by simp), ih hrest, pathBody_cons hrest,
          List.append_assoc, List.cons_append]

/-- A path that ends in an undotted key is not written at a position with an index. -/
theorem no_index_of_dotted (hsegs : ∀ s ∈ segs, s.WellFormed) {cs ds : List Char}
    (hbody : pathBody segs = cs ++ '.' :: ds) (hdot : '.' ∉ ds) (hleft : '[' ∉ ds) (hds : ds ≠ [])
    (hway : wayOf (grammarPath short segs) = some (A ++ .index i :: B)) : False := by
  obtain ⟨keys, hkeys⟩ := wayOf_dotted hsegs hbody hdot hleft hds short
  rw [hkeys] at hway
  have hmem : Step.index i ∈ keys.map Step.key := by
    rw [Option.some.inj hway]
    simp
  simp at hmem

/-- Where a path with brackets is written at the position that is read, the brackets are behind
the last key. -/
theorem selector_last (hsegs : ∀ s ∈ segs, s.WellFormed) (hbrackets : ∃ s ∈ segs, s.selector ≠ none)
    (hplace : placeOf h e (grammarPath short segs) = some σ)
    (hway : wayOf (grammarPath short segs) = some σ) :
    ∃ init last sel, segs = init ++ [last] ∧ (∀ s ∈ init, s.selector = none) ∧
      last.selector = some sel ∧ '.' ∉ sel.text := by
  obtain ⟨s, hs, hsel⟩ := hbrackets
  obtain ⟨init, last, rfl⟩ := (List.eq_nil_or_concat' segs).resolve_left (List.ne_nil_of_mem hs)
  have hlastwf := hsegs last (by simp)
  have hindex : ∃ A i B, σ = A ++ .index i :: B := by
    obtain ⟨pre, post, heq⟩ := List.append_of_mem hs
    obtain ⟨A, i, B, hσ, -⟩ := index_of_selector hsegs heq hsel hplace
    exact ⟨A, i, B, hσ⟩
  obtain ⟨A, i, B, rfl⟩ := hindex
  have hlast : last.selector ≠ none := by
    intro hnone
    have hinit : init ≠ [] := by
      rintro rfl
      rw [List.mem_singleton.mp hs] at hsel
      exact hsel hnone
    refine no_index_of_dotted hsegs (pathBody_concat hinit last) ?_ ?_ (text_ne_nil hlastwf) hway
    · rw [text_of_none hnone]
      exact hlastwf.noDot
    · rw [text_of_none hnone]
      exact hlastwf.plain.bracketLeft
  obtain ⟨sel, hsome⟩ := Option.ne_none_iff_exists'.mp hlast
  refine ⟨init, last, sel, rfl, fun s' hs' => ?_, hsome, fun hdot => ?_⟩
  · -- brackets in front of it leave an index in front of further steps
    by_contra hsel'
    obtain ⟨pre, post, rfl⟩ := List.append_of_mem hs'
    have hsplit : pre ++ s' :: post ++ [last] = pre ++ s' :: (post ++ [last]) := by simp
    obtain ⟨A', i', B', hσ, hB⟩ := index_of_selector hsegs hsplit hsel' hplace
    rw [hσ] at hway
    exact hB ⟨last, by simp, hlast⟩ (wayOf_index hway)
  · obtain ⟨xs, ys, hxs, hys⟩ := dot_last hdot
    have htext : ∃ cs, pathBody (init ++ [last]) = cs ++ '.' :: (ys ++ [']']) := by
      by_cases hinit : init = []
      · subst hinit
        refine ⟨last.key.toList ++ '[' :: xs, ?_⟩
        rw [List.nil_append, pathBody_singleton, text_of_some hsome, hxs]
        simp
      · refine ⟨pathBody init ++ '.' :: (last.key.toList ++ '[' :: xs), ?_⟩
        rw [pathBody_concat hinit, text_of_some hsome, hxs]
        simp
    obtain ⟨cs, hcs⟩ := htext
    have hleft : '[' ∉ ys := fun hmem =>
      (not_mem_selector hlastwf hsome).1 (by rw [hxs]; simp [hmem])
    exact no_index_of_dotted hsegs hcs (by simp [hys]) (by simp [hleft]) (by simp) hway

/-- The walker's keys are the keys of the path when as many are left and they are the same. -/
theorem trimmed_of_names (hnames : (namesOf init).map String.ofList = init.map (·.key))
    (hinit : ∀ s ∈ init, s.selector = none) :
    ∀ s ∈ init, trimSpace s.key.toList = s.key.toList := by
  have hlen : (namesOf init).length = init.length := by
    simpa using congrArg List.length hnames
  have hmap : (init.map PathSegment.text).map trimSpace =
      init.map fun s => trimSpace s.key.toList := by
    rw [List.map_map]
    apply List.map_congr_left
    intro s hs
    rw [Function.comp_apply, text_of_none (hinit s hs)]
  unfold namesOf shown at hnames hlen
  rw [hmap] at hnames hlen
  have hall : (init.map fun s => trimSpace s.key.toList).filter (· ≠ []) =
      init.map fun s => trimSpace s.key.toList := by
    rw [List.filter_eq_self]
    exact List.length_filter_eq_length_iff.mp (by rw [hlen, List.length_map])
  rw [hall, List.map_map] at hnames
  intro s hs
  have hkey : String.ofList (trimSpace s.key.toList) = s.key := List.map_inj_left.mp hnames s hs
  rw [← String.toList_inj, String.toList_ofList] at hkey
  exact hkey

theorem names_of_trimmed
    (hinit : ∀ s ∈ init, s.WellFormed ∧ s.selector = none ∧
      trimSpace s.key.toList = s.key.toList) :
    (namesOf init).map String.ofList = init.map (·.key) := by
  have hmap : (init.map PathSegment.text).map trimSpace = init.map fun s => s.key.toList := by
    rw [List.map_map]
    apply List.map_congr_left
    intro s hs
    rw [Function.comp_apply, text_of_none (hinit s hs).2.1, (hinit s hs).2.2]
  have hall : (init.map fun s => s.key.toList).filter (· ≠ []) =
      init.map fun s => s.key.toList := by
    rw [List.filter_eq_self]
    intro cs hcs
    obtain ⟨s, hs, rfl⟩ := List.mem_map.mp hcs
    simpa using key_ne_nil (hinit s hs).1
  unfold namesOf shown
  rw [hmap, hall, List.map_map]
  apply List.map_congr_left
  intro s _
  rw [Function.comp_apply, String.ofList_toList]

/-- A path that is written where it is read is regular. -/
theorem regular_of_wayOf (hsegs : ∀ s ∈ segs, s.WellFormed)
    (hplace : placeOf h e (grammarPath short segs) = some σ)
    (hw : h.locate e.payload σ = some w) (hway : wayOf (grammarPath short segs) = some σ) :
    Regular h e.payload segs := by
  by_cases hplain : ∀ s ∈ segs, s.selector = none
  · exact Or.inl hplain
  right
  push Not at hplain
  obtain ⟨init, last, sel, rfl, hinit, hlast, hdot⟩ := selector_last hsegs hplain hplace hway
  rw [wayOf_last hsegs hinit hlast hdot] at hway
  split at hway
  swap
  · exact nomatch hway
  rename_i hpos
  rw [placeOf_last hsegs hinit hlast] at hplace
  obtain ⟨steps, hsteps, rfl⟩ := Option.map_eq_some_iff.mp hplace
  have heq := Option.some.inj hway
  rw [Heap.locate_append, Heap.locate_keys] at hw
  obtain ⟨u, hu, hw⟩ := Option.bind_eq_some_iff.mp hw
  rw [hu] at hsteps
  have hleft : '[' ∉ last.key.toList.dropWhile isSpace := fun hmem =>
    (hsegs last (by simp)).plain.bracketLeft ((List.dropWhile_sublist _).subset hmem)
  obtain ⟨hname, hindex, hmem, hend⟩ := segment_parts hleft sel.text
  have hcount : (namesOf init).length ≤ init.length := by
    unfold namesOf shown
    refine (List.length_filter_le _ _).trans ?_
    simp
  have hlen := congrArg List.length heq
  simp only [List.length_append, List.length_map, List.length_cons, List.length_nil] at hlen
  -- an array takes no key, so that a step would be missing
  have hslice : ∀ a, u ≠ .slice a := by
    rintro a rfl
    rw [stepsOf_slice hend] at hsteps
    obtain ⟨i, -, rfl⟩ := Option.map_eq_some_iff.mp hsteps
    simp only [List.length_cons, List.length_nil] at hlen
    omega
  rw [stepsOf_other hend hslice, if_pos hmem, hname, hindex] at hsteps
  obtain ⟨i, hi, rfl⟩ := Option.map_eq_some_iff.mp hsteps
  obtain ⟨hkeys, hrest⟩ := List.append_inj' heq rfl
  obtain ⟨hkey, hidx⟩ := List.cons.inj hrest
  have hnames : init.map (·.key) = (namesOf init).map String.ofList :=
    List.map_injective_iff.mpr (fun _ _ hk => Step.key.inj hk) hkeys
  have hlastKey : last.key = String.ofList (last.key.toList.dropWhile isSpace) :=
    Step.key.inj hkey
  have hi' : (atoi sel.text).1.toNat = i := Step.index.inj (List.cons.inj hidx).1
  rw [← hlastKey] at hi
  obtain ⟨r, rfl⟩ : ∃ r, u = .map r := by
    rw [← hlastKey] at hw
    cases u with
    | map r => exact ⟨r, rfl⟩
    | _ => exact nomatch hw
  rw [← hnames] at hu
  refine ⟨init, last, sel, rfl, ?_, hlast, ?_, r, hu, ?_⟩
  · exact fun s hs => ⟨hinit s hs, trimmed_of_names hnames.symm hinit s hs⟩
  · simpa using (congrArg String.toList hlastKey).symm
  · cases sel with
    | index i => trivial
    | entry k v => exact ⟨hdot, i, hi, by omega⟩

/-- A regular path is written where it is read. -/
theorem wayOf_of_regular (hsegs : ∀ s ∈ segs, s.WellFormed) (hne : segs ≠ [])
    (hplace : placeOf h e (grammarPath short segs) = some σ)
    (hregular : Regular h e.payload segs) : wayOf (grammarPath short segs) = some σ := by
  rcases hregular with hplain | ⟨init, last, sel, rfl, hinit, hlast, hstart, r, hr, hread⟩
  · rw [wayOf_plain hsegs hne hplain, hplace]
  have hdot : '.' ∉ sel.text := by
    cases sel with
    | index i => exact not_mem_digits (by decide)
    | entry k v => exact hread.1
  have hnames : (namesOf init).map String.ofList = init.map (·.key) :=
    names_of_trimmed fun s hs => ⟨hsegs s (by simp [hs]), hinit s hs⟩
  obtain ⟨hname, hindex, hmem, hend⟩ :=
    segment_parts (hsegs last (by simp)).plain.bracketLeft sel.text
  rw [placeOf_last hsegs (fun s hs => (hinit s hs).1) hlast, hstart, hnames, hr,
    stepsOf_other hend (by simp), if_pos hmem, hname, hindex, String.ofList_toList] at hplace
  obtain ⟨steps, hsteps, rfl⟩ := Option.map_eq_some_iff.mp hplace
  obtain ⟨i, hi, rfl⟩ := Option.map_eq_some_iff.mp hsteps
  have hi' : (atoi sel.text).1 = i := by
    cases sel with
    | index j =>
        unfold Selector.text at hi ⊢
        exact atoi_of_indexNamed hi
    | entry k v =>
        obtain ⟨-, j, hj, hval⟩ := hread
        rw [Heap.step_key, hj] at hi
        rw [hval, Option.some.inj hi]
  rw [wayOf_last hsegs (fun s hs => (hinit s hs).1) hlast hdot, hi', if_pos (by omega)]
  simp

theorem placeOf_ne_nil (hsegs : ∀ s ∈ segs, s.WellFormed) (hne : segs ≠ [])
    (hplace : placeOf h e (grammarPath short segs) = some σ) : σ ≠ [] := by
  by_cases hplain : ∀ s ∈ segs, s.selector = none
  · rw [← wayOf_plain hsegs hne hplain] at hplace
    unfold wayOf at hplace
    dsimp only at hplace
    obtain ⟨steps, hsteps, rfl⟩ := Option.map_eq_some_iff.mp hplace
    obtain ⟨k, rest, rfl⟩ := Slot.exists_key hsteps
    simp
  · push Not at hplain
    obtain ⟨s, hs, hsel⟩ := hplain
    obtain ⟨pre, post, heq⟩ := List.append_of_mem hs
    obtain ⟨A, i, B, rfl, -⟩ := index_of_selector hsegs heq hsel hplace
    simp

/-- A write below the payload with `createPath` either succeeds or panics. -/
theorem setPathValue_ok_or_panic {path : String} (hopen : e.isSettled t = false)
    (hroot : rootOf path = .payload) (hbelow : IsBelow path)
    (halloc : h.AllocatedBelow e.payload) (v : Value) :
    (∃ h' e' res, e.setPathValue t h path v true = (h', e', .ok res)) ∨
      (e.setPathValue t h path v true).2.2 = .error .panic := by
  rw [setPathValue_open hopen (by rw [hroot]; simp), setPathFrom_below hbelow, hroot]
  dsimp only [openRoot]
  cases haim : aim h true (splitPath (fullPath path)).tail e.payload with
  | blocked => exact Or.inr (by rw [setSegments_blocked haim])
  | missing => exact absurd haim (aim_ne_missing _ _ _)
  | fresh =>
      obtain ⟨-, h₁, m, parent, hdesc, -⟩ := descend_of_fresh haim halloc (fullPath path) .nil ""
      exact (setSegments_object_cases hdesc e v).imp_left fun ⟨h', res, hset⟩ => ⟨h', e, res, hset⟩
  | target o =>
      by_cases ho : ∃ r, o = .map r
      · obtain ⟨r, rfl⟩ := ho
        obtain ⟨-, parent, hdesc⟩ := descend_of_target haim (fullPath path) .nil ""
        exact (setSegments_object_cases hdesc e v).imp_left
          fun ⟨h', res, hset⟩ => ⟨h', e, res, hset⟩
      · rcases setSegments_other haim (fun r hr => ho ⟨r, hr⟩) e v with hpanic | ⟨res, hset⟩
        · exact Or.inr (by rw [hpanic])
        · exact Or.inl ⟨h, e, res, hset⟩

/-- **Bracket paths write where they read** in the regular cases, and where nothing is written:
the event is settled or `SetPathValue` panics.  The path is any of the grammar that names a
position of the payload, which shares nothing. -/
theorem writes_where_reads_iff (lib : Libs κ) (t : AckTree ε) (h : Heap) (e : Event κ)
    (segs : List PathSegment) (short : Bool) (σ : List Step) (w : Value) (hne : segs ≠ [])
    (hsegs : ∀ s ∈ segs, s.WellFormed) (halloc : h.AllocatedBelow e.payload)
    (hunshared : h.Unshared e.payload) (hres : Resolves h e (grammarPath short segs) σ w) :
    WritesAt lib t h e (grammarPath short segs) σ ↔
      e.isSettled t = true ∨ SetPanics t h e (grammarPath short segs) true ∨
        Regular h e.payload segs := by
  obtain ⟨hplace, v, hv, hw⟩ := hres
  have hroot := rootOf_grammarPath short segs
  have hbelow := isBelow_grammarPath hsegs hne short
  rw [hroot] at hv
  obtain rfl : e.payload = v := Option.some.inj hv
  by_cases hsettled : e.isSettled t = true
  · refine ⟨fun _ => Or.inl hsettled, fun _ v h' e' res hset => ?_⟩
    rw [setPathValue_settled hsettled] at hset
    exact nomatch (Prod.mk.inj (Prod.mk.inj hset).2).2
  have hpanics : ∀ v, (e.setPathValue t h (grammarPath short segs) v true).2.2 = .error .panic ↔
      SetPanics t h e (grammarPath short segs) true := fun v =>
    setPathValue_panics_iff (fun u hu => by
      rw [hroot] at hu
      rw [← Option.some.inj hu]
      exact halloc) v
  by_cases hpanic : SetPanics t h e (grammarPath short segs) true
  · refine ⟨fun _ => Or.inr (Or.inl hpanic), fun _ v h' e' res hset => ?_⟩
    have hstop := (hpanics v).mpr hpanic
    rw [hset] at hstop
    exact nomatch hstop
  have hσ := placeOf_ne_nil hsegs hne hplace
  have hset : ∀ v, ∃ h' e' res,
      e.setPathValue t h (grammarPath short segs) v true = (h', e', .ok res) := fun v =>
    (setPathValue_ok_or_panic (Bool.eq_false_iff.mpr hsettled) hroot hbelow halloc v).resolve_right
      fun hstop => hpanic ((hpanics v).mp hstop)
  rw [writesAt_iff hroot hbelow halloc hunshared hσ (by rw [hw]; simp) hset]
  constructor
  · exact fun hway => Or.inr (Or.inr (regular_of_wayOf hsegs hplace hw hway))
  · rintro (hyes | hyes | hregular)
    · exact absurd hyes hsettled
    · exact absurd hyes hpanic
    · exact wayOf_of_regular hsegs hne hplace hregular

theorem getKey_arrayHeap {r : Ref} {k : String} {u : Value} (hk : arrayHeap.getKey r k = some u) :
    u = .str "x" ∨ r = 0 ∧ k = "b" ∧ u = .slice 1 := by
  unfold arrayHeap at hk
  by_cases hentry : r = 0 → k ≠ "b"
  · rw [Heap.getKey_setKey_of_entry hentry] at hk
    exact Or.inl (getKey_textHeap hk)
  · rw [Classical.not_imp, not_not] at hentry
    obtain ⟨rfl, rfl⟩ := hentry
    rw [Heap.getKey_setKey_self] at hk
    exact Or.inr ⟨rfl, rfl, (Option.some.inj hk).symm⟩

/-- The payload and the array below it are the only containers. -/
theorem locate_arrayHeap {p : List Step} {u : Value} (hu : u.isContainer)
    (hp : arrayHeap.locate (.map 0) p = some u) :
    p = [] ∧ u = .map 0 ∨ p = [.key "b"] ∧ u = .slice 1 := by
  rcases p with _ | ⟨k | i, p⟩
  · exact Or.inl ⟨rfl, (Option.some.inj hp).symm⟩
  · cases hk : arrayHeap.getKey 0 k with
    | none =>
        rw [Heap.locate_cons_of_none ((Heap.step_key _ _ _).trans hk)] at hp
        exact nomatch hp
    | some w =>
        rw [Heap.locate_cons_of_some ((Heap.step_key _ _ _).trans hk)] at hp
        rcases getKey_arrayHeap hk with rfl | ⟨-, rfl, rfl⟩
        · obtain ⟨-, rfl⟩ := Heap.locate_of_not_container rfl hp
          exact Bool.noConfusion hu
        · rcases p with _ | ⟨k | i, p⟩
          · exact Or.inr ⟨rfl, (Option.some.inj hp).symm⟩
          · exact nomatch hp
          · rcases i with _ | i
            · have hstep : arrayHeap.step (.slice 1) (.index 0) = some (.bool true) := by decide +kernel
              rw [Heap.locate_cons_of_some hstep] at hp
              obtain ⟨-, rfl⟩ := Heap.locate_of_not_container rfl hp
              exact Bool.noConfusion hu
            · exact nomatch hp
  · exact nomatch hp

/-- An index behind the last key is written where it is read. -/
theorem writes_where_reads_iff_sample :
    Regular arrayHeap (.map 0) [⟨"b", some (.index 0)⟩] ∧
      WritesAt Libs.plain (AckTree.newAckTree : AckTree Unit) arrayHeap (sampleEvent none)
        (grammarPath false [⟨"b", some (.index 0)⟩]) [.key "b", .index 0] := by
  have hregular : Regular arrayHeap (.map 0) [⟨"b", some (.index 0)⟩] :=
    Or.inr ⟨[], ⟨"b", some (.index 0)⟩, .index 0, rfl, by simp, rfl, by decide, 0, rfl, trivial⟩
  refine ⟨hregular, (writes_where_reads_iff Libs.plain _ arrayHeap (sampleEvent none) _ false _
    (.bool true) (by simp) ?_ ?_ ?_ ⟨by decide +kernel, .map 0, rfl, by decide +kernel⟩).mpr
    (Or.inr (Or.inr hregular))⟩
  · intro s hs
    obtain rfl := List.mem_singleton.mp hs
    exact ⟨by decide, by decide, fun k v hsel => nomatch hsel⟩
  · intro p w hp hw
    rcases locate_arrayHeap hw hp with ⟨-, rfl⟩ | ⟨-, rfl⟩
    · decide
    · decide
  · intro p q w hw hp hq
    rcases locate_arrayHeap hw hp with ⟨rfl, rfl⟩ | ⟨rfl, rfl⟩
    · rcases locate_arrayHeap rfl hq with ⟨rfl, -⟩ | ⟨-, hne⟩
      · rfl
      · exact nomatch hne
    · rcases locate_arrayHeap rfl hq with ⟨-, hne⟩ | ⟨rfl, -⟩
      · exact nomatch hne
      · rfl

/-- A payload with two objects in an array. -/
def objectsHeap : Heap :=
  (((Heap.empty.makeMap.1.makeSlice [.map 2, .map 3]).1.makeMap.1.makeMap.1.setKey 0 "a"
    (.slice 1)).setKey 2 "b" (.bool true)).setKey 3 "b" (.str "y")

/-- `SetPathValue` there. -/
def objectsWrite (path : String) :
    Heap × Event Unit × Except (Stop EventError) (Value × String) :=
  (sampleEvent none).setPathValue (AckTree.newAckTree : AckTree Unit) objectsHeap path (.str "z") true

/-- Below an element nothing is written where it is read, and through a selector another element
is written. -/
theorem brackets_misplaced :
    (Resolves objectsHeap (sampleEvent none) "payload.a[0].b" [.key "a", .index 0, .key "b"]
        (.bool true) ∧
      ¬ WritesAt Libs.plain (AckTree.newAckTree : AckTree Unit) objectsHeap (sampleEvent none)
        "payload.a[0].b" [.key "a", .index 0, .key "b"]) ∧
      Resolves objectsHeap (sampleEvent none) "payload.a[b=y]" [.key "a", .index 1] (.map 3) ∧
      ¬ WritesAt Libs.plain (AckTree.newAckTree : AckTree Unit) objectsHeap (sampleEvent none)
        "payload.a[b=y]" [.key "a", .index 1] := by
  have hset : ∀ (path : String) (res : Value × String), (objectsWrite path).2.2 = .ok res →
      (sampleEvent none).setPathValue (AckTree.newAckTree : AckTree Unit) objectsHeap path (.str "z")
        true = ((objectsWrite path).1, (objectsWrite path).2.1, .ok res) :=
    fun path res hres => Prod.ext rfl (Prod.ext rfl hres)
  refine ⟨⟨⟨by decide +kernel, .map 0, rfl, by decide +kernel⟩, fun hwrites => ?_⟩,
    ⟨by decide +kernel, .map 0, rfl, by decide +kernel⟩, fun hwrites => ?_⟩
  · have hhere := (hwrites _ _ _ _ (hset _ (.map 4, "b") rfl)).here
    exact absurd hhere (by decide +kernel)
  · have hhere := (hwrites _ _ _ _ (hset _ (.map 0, "a") rfl)).here
    exact absurd hhere (by decide +kernel)

end Event
