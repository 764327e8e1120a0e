/-
# Paths with brackets, read and written

A path of the grammar is a list of keys, any of them with an index or a selector behind it.
`GetPathValue` resolves it to a position of the payload (`Resolves`).  `SetPathValue` understands
brackets behind its last key only, and reads a selector as a number.  Where both work,
`writes_where_reads_iff` says when the value is written at the position that is read.
-/
import Ears.PathPanics

open GoLib

namespace Event

variable {κ ε : Type} {t : AckTree ε} {h h' : Heap} {e e' : Event κ} {path : String}
  {lib : Libs κ} {u v w : Value} {s : List Char} {σ τ : List Step}

/-! ## Positions and what `GetPathValue` reads -/

/-- The index that brackets name picks the element, if it is there. -/
theorem pick_of_indexNamed {a : Ref} {text : List Char} {i : ℕ}
    (hi : indexNamed h (some (.slice a)) text = some i) (hlt : i < (h.slices a).length) :
    pick h a text = .elem i := by
  unfold indexNamed at hi
  by_cases heq : text.contains '=' = true
  · rw [if_pos heq] at hi
    dsimp only at hi
    split at hi
    · rename_i j hj
      rw [hj, Option.some.inj hi]
    · exact nomatch hi
  · rw [if_neg heq] at hi
    unfold pick
    rw [if_neg heq]
    generalize atoi text = parsed at hi
    rcases parsed with ⟨j, _ | err⟩
    · dsimp only at hi ⊢
      by_cases hneg : j < 0
      · rw [if_pos hneg] at hi
        exact nomatch hi
      · rw [if_neg hneg] at hi ⊢
        obtain rfl := Option.some.inj hi
        rw [if_pos hlt]
    · exact nomatch hi

/-- A picked element is there, and the brackets name its index. -/
theorem indexNamed_of_pick {a : Ref} {text : List Char} {i : ℕ} (hi : pick h a text = .elem i) :
    indexNamed h (some (.slice a)) text = some i ∧ i < (h.slices a).length := by
  unfold indexNamed
  by_cases heq : text.contains '=' = true
  · rw [if_pos heq]
    dsimp only
    rw [hi]
    refine ⟨rfl, ?_⟩
    unfold pick at hi
    rw [if_pos heq] at hi
    split at hi
    · split at hi
      · rename_i j hj
        obtain rfl := Pick.elem.inj hi
        exact (List.findIdx?_eq_some_iff_getElem.mp hj).1
      · exact nomatch hi
    · exact nomatch hi
  · rw [if_neg heq]
    unfold pick at hi
    rw [if_neg heq] at hi
    generalize atoi text = parsed at hi
    rcases parsed with ⟨j, _ | err⟩
    · dsimp only at hi ⊢
      by_cases hneg : j < 0
      · rw [if_pos hneg] at hi
        exact nomatch hi
      · rw [if_neg hneg] at hi ⊢
        by_cases hlt : j.toNat < (h.slices a).length
        · rw [if_pos hlt] at hi
          obtain rfl := Pick.elem.inj hi
          exact ⟨rfl, hlt⟩
        · rw [if_neg hlt] at hi
          exact nomatch hi
    · exact nomatch hi

theorem stepsOf_key (hlast : s.getLast? ≠ some ']') (u : Option Value) :
    stepsOf h s u = some [.key (String.ofList s)] := by
  unfold stepsOf
  exact if_neg hlast

theorem stepsOf_slice (hlast : s.getLast? = some ']') (a : Ref) :
    stepsOf h s (some (.slice a)) =
      (indexNamed h (some (.slice a)) (if '[' ∈ s then indexOf s else s.dropLast)).map
        fun i => [.index i] := by
  unfold stepsOf
  exact if_pos hlast

/-- At a value that is no array a segment with brackets names an element below a key. -/
theorem stepsOf_other (hlast : s.getLast? = some ']') (hv : ∀ a, v ≠ .slice a) :
    stepsOf h s (some v) =
      if '[' ∈ s then
        (indexNamed h (h.step v (.key (String.ofList (nameOf s)))) (indexOf s)).map
          fun i => [.key (String.ofList (nameOf s)), .index i]
      else none := by
  unfold stepsOf
  rw [if_pos hlast]
  cases v with
  | slice a => exact absurd rfl (hv a)
  | _ => rfl

theorem stepsOf_ne_nil {u : Option Value} {steps : List Step}
    (hsteps : stepsOf h s u = some steps) : steps ≠ [] := by
  rintro rfl
  unfold stepsOf at hsteps
  split at hsteps
  · split at hsteps
    · simp at hsteps
    · split at hsteps <;> simp at hsteps
  · simp at hsteps

/-- A step of the walker for the steps of its segment. -/
theorem child_of_steps {steps : List Step} (hsteps : stepsOf h s (some v) = some steps)
    (hw : h.locate v steps = some w) : child h s v = some w := by
  unfold child
  by_cases hlast : s.getLast? = some ']'
  swap
  · rw [stepsOf_key hlast] at hsteps
    obtain rfl := Option.some.inj hsteps
    rw [if_neg hlast]
    rw [Heap.locate_singleton] at hw
    cases v with
    | map r =>
        dsimp only
        rw [← Heap.step_key, hw, Option.getD_some]
    | _ => cases hw
  rw [if_pos hlast]
  by_cases hslice : ∃ a, v = .slice a
  · obtain ⟨a, rfl⟩ := hslice
    rw [stepsOf_slice hlast] at hsteps
    obtain ⟨i, hi, rfl⟩ := Option.map_eq_some_iff.mp hsteps
    rw [Heap.locate_singleton, Heap.step_index] at hw
    obtain ⟨hlt, rfl⟩ := List.getElem?_eq_some_iff.mp hw
    dsimp only [childElement]
    rw [pick_of_indexNamed hi hlt, Pick.value, List.getD_eq_getElem _ _ hlt]
  · rw [stepsOf_other hlast fun a ha => hslice ⟨a, ha⟩] at hsteps
    by_cases hopen : '[' ∈ s
    swap
    · rw [if_neg hopen] at hsteps
      cases hsteps
    rw [if_pos hopen] at hsteps
    obtain ⟨i, hi, rfl⟩ := Option.map_eq_some_iff.mp hsteps
    -- the position goes through the array under the name
    cases hk : h.step v (.key (String.ofList (nameOf s))) with
    | none =>
        rw [Heap.locate_cons_of_none hk] at hw
        cases hw
    | some u =>
        rw [Heap.locate_cons_of_some hk, Heap.locate_singleton] at hw
        cases u with
        | slice a =>
            rw [Heap.step_index] at hw
            obtain ⟨hlt, rfl⟩ := List.getElem?_eq_some_iff.mp hw
            cases v with
            | map r =>
                dsimp only [childElement]
                rw [hk] at hi
                rw [Heap.step_key] at hk
                rw [if_pos hopen, hk]
                dsimp only
                rw [pick_of_indexNamed hi hlt, Pick.value, List.getD_eq_getElem _ _ hlt]
            | _ => cases hk
        | _ => cases hw

/-- The steps of a segment that the walker finds a value for. -/
theorem steps_of_child (hw : child h s v = some w) (hne : w ≠ .nil) :
    ∃ steps, stepsOf h s (some v) = some steps ∧ h.locate v steps = some w := by
  have hpicked : ∀ a text, (pick h a text).value h a = some w → ∃ i,
      indexNamed h (some (.slice a)) text = some i ∧ (h.slices a)[i]? = some w := by
    intro a text hvalue
    cases hp : pick h a text with
    | nothing =>
        rw [hp] at hvalue
        exact absurd (Option.some.inj hvalue).symm hne
    | panic =>
        rw [hp] at hvalue
        cases hvalue
    | elem i =>
        obtain ⟨hi, hlt⟩ := indexNamed_of_pick hp
        rw [hp, Pick.value, List.getD_eq_getElem _ _ hlt] at hvalue
        exact ⟨i, hi, by rw [List.getElem?_eq_getElem hlt, hvalue]⟩
  unfold child at hw
  by_cases hlast : s.getLast? = some ']'
  swap
  · rw [if_neg hlast] at hw
    refine ⟨_, stepsOf_key hlast _, ?_⟩
    rw [Heap.locate_singleton]
    cases v with
    | map r =>
        dsimp only at hw
        rw [Heap.step_key]
        cases hk : h.getKey r (String.ofList s) with
        | none =>
            rw [hk] at hw
            exact absurd (Option.some.inj hw).symm hne
        | some u =>
            rw [hk] at hw
            exact hw
    | _ => exact absurd (Option.some.inj hw).symm hne
  rw [if_pos hlast] at hw
  by_cases hslice : ∃ a, v = .slice a
  · obtain ⟨a, rfl⟩ := hslice
    obtain ⟨i, hi, hget⟩ := hpicked a _ hw
    refine ⟨[.index i], ?_, ?_⟩
    · rw [stepsOf_slice hlast, hi]
      rfl
    · rw [Heap.locate_singleton, Heap.step_index, hget]
  · cases v with
    | map r =>
        dsimp only [childElement] at hw
        by_cases hopen : '[' ∈ s
        swap
        · rw [if_neg hopen] at hw
          cases hw
        rw [if_pos hopen] at hw
        cases hk : h.getKey r (String.ofList (nameOf s)) with
        | none =>
            rw [hk] at hw
            exact absurd (Option.some.inj hw).symm hne
        | some u =>
            rw [hk] at hw
            cases u with
            | slice a =>
                obtain ⟨i, hi, hget⟩ := hpicked a _ hw
                refine ⟨[.key (String.ofList (nameOf s)), .index i], ?_, ?_⟩
                · rw [stepsOf_other hlast (by simp), if_pos hopen, Heap.step_key, hk, hi]
                  rfl
                · rw [Heap.locate_cons_of_some ((Heap.step_key h r _).trans hk),
                    Heap.locate_singleton, Heap.step_index, hget]
            | _ => exact absurd (Option.some.inj hw).symm hne
    | slice a => exact absurd ⟨a, rfl⟩ hslice
    | nilMap =>
        dsimp only [childElement] at hw
        split at hw
        · exact absurd (Option.some.inj hw).symm hne
        · cases hw
    | _ => exact absurd (Option.some.inj hw).symm hne

/-- The segments that the walker does not skip. -/
def shown (segments : List (List Char)) : List (List Char) :=
  (segments.map trimSpace).filter (· ≠ [])

theorem shown_cons_blank {segments : List (List Char)} (hs : trimSpace s = []) :
    shown (s :: segments) = shown segments := by
  rw [shown, List.map_cons, List.filter_cons_of_neg (by simp [hs]), shown]

theorem shown_cons {segments : List (List Char)} (hs : trimSpace s ≠ []) :
    shown (s :: segments) = trimSpace s :: shown segments := by
  rw [shown, List.map_cons, List.filter_cons_of_pos (by simp [hs]), shown]

/-- The walker finds what is at the position that its segments name. -/
theorem follow_of_named {segments : List (List Char)}
    (hnamed : namedSteps h (shown segments) (some v) = some σ) (hw : h.locate v σ = some w) :
    follow h segments v = some w := by
  induction segments generalizing v σ with
  | nil =>
      obtain rfl := Option.some.inj hnamed
      exact hw
  | cons s rest ih =>
      rw [follow]
      by_cases hblank : trimSpace s = []
      · rw [shown_cons_blank hblank] at hnamed
        by_cases hnil : v = .nil
        · have hrest := ih hnamed hw
          rw [hnil, follow_nil] at hrest
          rw [if_pos hnil, hrest]
        · rw [if_neg hnil, if_pos hblank, ih hnamed hw]
      · rw [shown_cons hblank, namedSteps] at hnamed
        obtain ⟨steps, hsteps, hrest⟩ := Option.bind_eq_some_iff.mp hnamed
        obtain ⟨σ', hσ', rfl⟩ := Option.map_eq_some_iff.mp hrest
        rw [Heap.locate_append] at hw
        obtain ⟨u, hu, hw⟩ := Option.bind_eq_some_iff.mp hw
        rw [Option.bind_some, hu] at hσ'
        have hchild := child_of_steps hsteps hu
        have hnil : v ≠ .nil := by
          rintro rfl
          -- from nothing no step goes on
          exact stepsOf_ne_nil hsteps (Heap.locate_of_not_container rfl hu).1
        rw [if_neg hnil, if_neg hblank, hchild, Option.bind_some, ih hσ' hw]

/-- Where the walker finds something, its segments name a position. -/
theorem named_of_follow {segments : List (List Char)} (hw : follow h segments v = some w)
    (hne : w ≠ .nil) :
    ∃ σ, namedSteps h (shown segments) (some v) = some σ ∧ h.locate v σ = some w := by
  induction segments generalizing v with
  | nil => exact ⟨[], rfl, hw⟩
  | cons s rest ih =>
      rw [follow] at hw
      by_cases hnil : v = .nil
      · rw [if_pos hnil] at hw
        exact absurd (Option.some.inj hw).symm hne
      rw [if_neg hnil] at hw
      by_cases hblank : trimSpace s = []
      · rw [if_pos hblank] at hw
        rw [shown_cons_blank hblank]
        exact ih hw
      · rw [if_neg hblank] at hw
        obtain ⟨u, hchild, hw⟩ := Option.bind_eq_some_iff.mp hw
        have hu : u ≠ .nil := by
          rintro rfl
          rw [follow_nil] at hw
          exact hne (Option.some.inj hw).symm
        obtain ⟨steps, hsteps, hlocate⟩ := steps_of_child hchild hu
        obtain ⟨σ, hσ, hw⟩ := ih hw
        refine ⟨steps ++ σ, ?_, by rw [Heap.locate_append_of_some hlocate, hw]⟩
        rw [shown_cons hblank, namedSteps, hsteps, Option.bind_some, Option.bind_some, hlocate, hσ]
        rfl

/-- The path names a position at which there is this value. -/
def Resolves (h : Heap) (e : Event κ) (path : String) (σ : List Step) (w : Value) : Prop :=
  placeOf h e path = some σ ∧ ∃ u, e.rootObject (rootOf path) = some u ∧ h.locate u σ = some w

theorem rootValue_of_some {root : Root} (hu : e.rootObject root = some u) :
    e.rootValue root = u := by
  cases root with
  | payload => exact Option.some.inj hu
  | metadata =>
      obtain ⟨r, hr, rfl⟩ := Option.map_eq_some_iff.mp hu
      rw [rootValue, metadataValue, hr]

theorem lookup_of_plain (lib : Libs κ) (h : Heap) (e : Event κ) (hknown : ¬ IsUnknown path)
    (hplain : (contains (fullPath path) '[' && contains (fullPath path) ']') = false)
    (hbelow : ¬ IsPayload path) (htail : (splitPath (fullPath path)).tail ≠ []) :
    e.lookup lib h path =
      some ((h.walk (e.rootValue (rootOf path)) (splitPath (fullPath path)).tail).getD .nil) := by
  have hspecial : ∀ special, IsUnknown special → path ≠ special := by
    rintro special hunknown rfl
    exact hknown hunknown
  have hstart : (if hasPrefix path (METADATA ++ ".") || path == METADATA then e.metadataValue
      else e.payload) = e.rootValue (rootOf path) := by
    unfold rootOf
    split <;> rfl
  have hpayload : ∀ root, IsPayload root → path ≠ root := by
    rintro root hroot rfl
    exact hbelow hroot
  have hmetadata : path ≠ METADATA := by
    rintro rfl
    exact htail (by decide)
  unfold lookup
  rw [if_neg (hspecial _ (by unfold IsUnknown; decide)),
    if_neg (hspecial _ (by unfold IsUnknown; decide)),
    if_neg (hspecial _ (by unfold IsUnknown; decide)),
    if_neg (hspecial _ (by unfold IsUnknown; decide)), hstart]
  unfold lookupFrom
  by_cases hnil : e.rootValue (rootOf path) = .nil
  · rw [if_pos hnil, hnil, getD_walk_nil]
  rw [if_neg hnil, if_neg]
  · dsimp only
    rw [fullPath_eq (hpayload "" (by unfold IsPayload; decide))]
    refine (if_neg hknown).trans (if_neg ?_)
    rw [hplain]
    exact Bool.false_ne_true
  · rintro (heq | heq | heq | heq)
    · exact hpayload _ (by unfold IsPayload; decide) heq
    · exact hpayload _ (by unfold IsPayload; decide) heq
    · exact hpayload _ (by unfold IsPayload; decide) heq
    · exact hmetadata heq

theorem bracketSegments_eq (path : String) :
    bracketSegments (fullPath path) = shown (walkerSegments path) := rfl

/-- `GetPathValue` finds what is at the position. -/
theorem lookup_of_resolves (lib : Libs κ) (hknown : ¬ IsUnknown path)
    (hres : Resolves h e path σ w) (hσ : σ ≠ []) : e.lookup lib h path = some w := by
  obtain ⟨hplace, u, hu, hw⟩ := hres
  have hbelow : ¬ IsPayload path := by
    intro hpayload
    rw [placeOf_payload hpayload] at hplace
    exact hσ (Option.some.inj hplace).symm
  by_cases hbrackets : (contains (fullPath path) '[' && contains (fullPath path) ']') = true
  · rw [placeOf_bracketed hbelow hbrackets, bracketSegments_eq, hu] at hplace
    rw [lookup_of_bracketed lib h e ⟨hknown, hbrackets⟩, rootValue_of_some hu]
    exact follow_of_named hplace hw
  · rw [placeOf_plain hbelow (Bool.eq_false_iff.mpr hbrackets)] at hplace
    obtain rfl := Option.some.inj hplace
    rw [lookup_of_plain lib h e hknown (Bool.eq_false_iff.mpr hbrackets) hbelow
      fun hnil => hσ (by rw [hnil]; rfl), rootValue_of_some hu]
    rw [Heap.locate_keys] at hw
    rw [hw, Option.getD_some]

/-- A value that `GetPathValue` finds is at the position that the path names. -/
theorem resolves_of_lookup (hknown : ¬ IsUnknown path) (hbelow : ¬ IsPayload path)
    (htail : (splitPath (fullPath path)).tail ≠ [])
    (hroot : e.rootObject (rootOf path) = some u) (hw : e.lookup lib h path = some w)
    (hne : w ≠ .nil) : ∃ σ, Resolves h e path σ w := by
  by_cases hbrackets : (contains (fullPath path) '[' && contains (fullPath path) ']') = true
  · rw [lookup_of_bracketed lib h e ⟨hknown, hbrackets⟩, rootValue_of_some hroot] at hw
    obtain ⟨σ, hσ, hlocate⟩ := named_of_follow hw hne
    refine ⟨σ, ?_, u, hroot, hlocate⟩
    rw [placeOf_bracketed hbelow hbrackets, bracketSegments_eq, hroot, hσ]
  · rw [lookup_of_plain lib h e hknown (Bool.eq_false_iff.mpr hbrackets) hbelow htail,
      rootValue_of_some hroot] at hw
    refine ⟨_, placeOf_plain hbelow (Bool.eq_false_iff.mpr hbrackets) h e, u, hroot, ?_⟩
    rw [Heap.locate_keys]
    cases hwalk : h.walk u (splitPath (fullPath path)).tail with
    | none =>
        rw [hwalk] at hw
        exact absurd (Option.some.inj hw).symm hne
    | some w' =>
        rw [hwalk] at hw
        exact hw

/-! ## Writing at the position that is read -/

/-- The value is at the position, where `GetPathValue` reads it, and the other positions of the
payload have what they had. -/
structure Replaced (lib : Libs κ) (h : Heap) (e : Event κ) (σ : List Step) (v : Value) (h' : Heap)
    (e' : Event κ) : Prop where
  here : h'.locate e'.payload σ = some v
  read : ∀ path, ¬ IsUnknown path → rootOf path = .payload → placeOf h' e' path = some σ →
    e'.lookup lib h' path = some v
  elsewhere : ∀ τ, ¬ σ <+: τ → h'.locate e'.payload τ = h.locate e.payload τ

/-- Whatever is written at the path replaces what is at the position. -/
def WritesAt (lib : Libs κ) (t : AckTree ε) (h : Heap) (e : Event κ) (path : String)
    (σ : List Step) : Prop :=
  ∀ v h' e' res, e.setPathValue t h path v true = (h', e', .ok res) → Replaced lib h e σ v h' e'

theorem Slot.exists_key {slot : Slot} {steps : List Step} (hsteps : slot.steps = some steps) :
    ∃ k rest, steps = .key k :: rest := by
  cases slot with
  | panics => exact nomatch hsteps
  | nothing => exact nomatch hsteps
  | entry k => exact ⟨k, [], (Option.some.inj hsteps).symm⟩
  | element k i => exact ⟨k, [.index i], (Option.some.inj hsteps).symm⟩

/-- For a path that is read at a position, in a payload without sharing, and written without an
error: what is written replaces what is at the position exactly when the path is written there. -/
theorem writesAt_iff (hroot : rootOf path = .payload) (hbelow : IsBelow path)
    (halloc : h.AllocatedBelow e.payload) (hunshared : h.Unshared e.payload) (hσ : σ ≠ [])
    (hplace : h.locate e.payload σ ≠ none)
    (hset : ∀ v, ∃ h' e' res, e.setPathValue t h path v true = (h', e', .ok res)) :
    WritesAt lib t h e path σ ↔ wayOf path = some σ := by
  have hopen : e.isSettled t = false := by
    by_contra hsettled
    rw [Bool.not_eq_false] at hsettled
    obtain ⟨h', e', res, heq⟩ := hset .nil
    rw [setPathValue_settled hsettled] at heq
    exact nomatch (Prod.mk.inj (Prod.mk.inj heq).2).2
  have heq : ∀ v, e.setPathValue t h path v true =
      setSegments h e (fullPath path) e.payload v true := by
    intro v
    rw [setPathValue_open hopen (by rw [hroot]; simp), hroot, setPathFrom_below hbelow]
    rfl
  constructor
  · intro hwrites
    by_cases hobject : aim h true (splitPath (fullPath path)).tail e.payload = .fresh ∨
        ∃ r, aim h true (splitPath (fullPath path)).tail e.payload = .target (.map r)
    · -- a boolean is found at the position; it was there before or the path leads there
      have hfound : ∀ b, h.locate e.payload σ = some (.bool b) ∨ wayOf path = some σ := by
        intro b
        obtain ⟨h', e', res, hres⟩ := hset (.bool b)
        have hhere := (hwrites _ _ _ _ hres).here
        rw [heq] at hres
        obtain ⟨h₁, m, parent, hdesc, -, -⟩ := descend_reached (Heap.locate_nil h e.payload) halloc
          hunshared hobject (fullPath path) .nil ""
        obtain ⟨he, -⟩ := setSegments_object_ok hdesc hres
        rw [he] at hhere
        exact setSegments_only halloc hunshared hobject hres hhere
      rcases hfound true with htrue | hway
      · rcases hfound false with hfalse | hway
        · exact nomatch htrue.symm.trans hfalse
        · exact hway
      · exact hway
    · have hsame : ∀ b, h.locate e.payload σ = some (.bool b) := by
        intro b
        obtain ⟨h', e', res, hres⟩ := hset (.bool b)
        have hhere := (hwrites _ _ _ _ hres).here
        rw [heq] at hres
        cases haim : aim h true (splitPath (fullPath path)).tail e.payload with
        | blocked =>
            rw [setSegments_blocked haim] at hres
            exact nomatch (Prod.mk.inj (Prod.mk.inj hres).2).2
        | missing => exact absurd haim (aim_ne_missing _ _ _)
        | fresh => exact absurd (Or.inl haim) hobject
        | target o =>
            have ho : ∀ r, o ≠ .map r := by
              rintro r rfl
              exact hobject (Or.inr ⟨r, haim⟩)
            rcases setSegments_other haim ho e (.bool b) with hstop | ⟨res', hok⟩
            · rw [hstop] at hres
              exact nomatch (Prod.mk.inj (Prod.mk.inj hres).2).2
            · rw [hok] at hres
              obtain ⟨hh, hres⟩ := Prod.mk.inj hres
              rw [← hh, ← (Prod.mk.inj hres).1] at hhere
              exact hhere
      exact nomatch (hsame true).symm.trans (hsame false)
  · intro hway v h' e' res hres
    rw [heq] at hres
    unfold wayOf at hway
    dsimp only at hway
    obtain ⟨steps, hsteps, rfl⟩ := Option.map_eq_some_iff.mp hway
    -- the way leads to an object, since something is at the position
    obtain ⟨o, hwalk, r, rfl⟩ : ∃ o, h.walk e.payload (way (splitPath (fullPath path)).tail) =
        some o ∧ ∃ r, o = .map r := by
      rw [← Heap.locate_keys]
      cases hwalk : h.locate e.payload ((way (splitPath (fullPath path)).tail).map .key) with
      | none =>
          rw [Heap.locate_append, hwalk] at hplace
          exact absurd rfl hplace
      | some o =>
          refine ⟨o, rfl, ?_⟩
          rw [Heap.locate_append_of_some hwalk] at hplace
          obtain ⟨k, rest, rfl⟩ := Slot.exists_key hsteps
          cases o with
          | map r => exact ⟨r, rfl⟩
          | _ => exact absurd rfl hplace
    have haim := aim_of_walk hwalk true
    obtain ⟨-, parent, hdesc⟩ := descend_of_target haim (fullPath path) .nil ""
    obtain ⟨rfl, hw⟩ := setSegments_object_ok hdesc hres
    rw [← Heap.locate_keys] at hwalk
    have hhere := writeSlot_located halloc hunshared.acyclic hwalk hsteps hw
    refine ⟨hhere, fun path' hknown hroot' hplace' => ?_, fun τ hτ => ?_⟩
    · refine lookup_of_resolves lib hknown ⟨hplace', e'.payload, ?_, hhere⟩ hσ
      rw [hroot']
      rfl
    · exact writeSlot_frame halloc hunshared hwalk hsteps hplace hw hτ

end Event
