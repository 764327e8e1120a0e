/-
# Where paths and expressions panic

`GetPathValue` panics at a segment that it comes to, when the segment closes a bracket that it
does not open or its index is negative (`getPathValue_panics_iff`).  `SetPathValue` panics where
it takes a value on its way for an object, where the brackets of its last key are the wrong way
round, and where the array to write to is not there, is no array or is shorter than the index by
more than one (`setPathValue_panics_iff`).  `Evaluate` panics in a round whose expression closes
a brace before it opens one, or whose path panics.
-/
import Ears.ArrayAccess
import Ears.Expressions
import Ears.PathOutcome

open GoLib

namespace Event

variable {κ ε : Type} {t : AckTree ε} {h : Heap} {e : Event κ} {path : String}
  {createPath : Bool} {lib : Libs κ} {order : Finset String → List String}

/-! ## Reading -/

/-- The text between brackets is a negative number. -/
def Negative (text : List Char) : Prop :=
  text.contains '=' = false ∧ ∃ i, atoi text = (i, none) ∧ i < 0

/-- A segment that ends with a closing bracket and cannot be read below the value. -/
inductive Malformed (h : Heap) (s : List Char) : Value → Prop
  | unopened (r : Ref) (hopen : '[' ∉ s) : Malformed h s (.map r)
  | unopenedNil (hopen : '[' ∉ s) : Malformed h s .nilMap
  | below (r a : Ref) (hopen : '[' ∈ s)
      (hkey : h.getKey r (String.ofList (nameOf s)) = some (.slice a))
      (hneg : Negative (indexOf s)) : Malformed h s (.map r)
  | element (a : Ref) (hneg : Negative (if '[' ∈ s then indexOf s else s.dropLast)) :
      Malformed h s (.slice a)

/-- The walker comes to a segment with a value. -/
inductive Visits (h : Heap) : List (List Char) → Value → List Char → Value → Prop
  | here {s rest curr} (hcurr : curr ≠ .nil) (hs : trimSpace s ≠ []) :
      Visits h (s :: rest) curr (trimSpace s) curr
  | blank {s rest curr s' u} (hcurr : curr ≠ .nil) (hs : trimSpace s = [])
      (hrest : Visits h rest curr s' u) : Visits h (s :: rest) curr s' u
  | next {s rest curr v s' u} (hcurr : curr ≠ .nil) (hs : trimSpace s ≠ [])
      (hchild : child h (trimSpace s) curr = some v) (hrest : Visits h rest v s' u) :
      Visits h (s :: rest) curr s' u

theorem pick_value_eq_none_iff {a : Ref} {text : List Char} :
    (pick h a text).value h a = none ↔ Negative text := by
  unfold pick Negative
  by_cases heq : text.contains '=' = true
  · rw [if_pos heq, heq]
    split
    · split <;> simp [Pick.value]
    · simp [Pick.value]
  · rw [if_neg heq, Bool.eq_false_iff.mpr heq]
    rcases atoi text with ⟨i, _ | err⟩
    · dsimp only
      by_cases hneg : i < 0
      · rw [if_pos hneg]
        exact ⟨fun _ => ⟨rfl, i, rfl, hneg⟩, fun _ => rfl⟩
      · rw [if_neg hneg]
        constructor
        · intro hnone
          split at hnone <;> simp [Pick.value] at hnone
        · rintro ⟨-, i', hi, hi'⟩
          obtain ⟨rfl, -⟩ := Prod.mk.inj hi
          exact absurd hi' hneg
    · simp [Pick.value]

/-- One step panics exactly at a malformed segment. -/
theorem child_eq_none_iff {s : List Char} {v : Value} :
    child h s v = none ↔ s.getLast? = some ']' ∧ Malformed h s v := by
  unfold child
  by_cases hlast : s.getLast? = some ']'
  swap
  · rw [if_neg hlast]
    cases v <;> simp [hlast]
  rw [if_pos hlast]
  refine ⟨fun hnone => ⟨hlast, ?_⟩, fun ⟨_, hmal⟩ => ?_⟩
  · cases v with
    | map r =>
        dsimp only [childElement] at hnone
        by_cases hopen : '[' ∈ s
        · rw [if_pos hopen] at hnone
          cases hk : h.getKey r (String.ofList (nameOf s)) with
          | none =>
              rw [hk] at hnone
              exact nomatch hnone
          | some u =>
              rw [hk] at hnone
              cases u with
              | slice a => exact .below r a hopen hk (pick_value_eq_none_iff.mp hnone)
              | _ => exact nomatch hnone
        · exact .unopened r hopen
    | nilMap =>
        refine .unopenedNil fun hopen => ?_
        dsimp only [childElement] at hnone
        rw [if_pos hopen] at hnone
        exact nomatch hnone
    | slice a => exact .element a (pick_value_eq_none_iff.mp hnone)
    | _ => exact nomatch hnone
  · cases hmal with
    | unopened r hopen => exact if_neg hopen
    | unopenedNil hopen => exact if_neg hopen
    | below r a hopen hkey hneg =>
        dsimp only [childElement]
        rw [if_pos hopen, hkey]
        exact pick_value_eq_none_iff.mpr hneg
    | element a hneg => exact pick_value_eq_none_iff.mpr hneg

/-- The walk panics exactly when it comes to a malformed segment. -/
theorem follow_eq_none_iff {segments : List (List Char)} {v : Value} :
    follow h segments v = none ↔
      ∃ s u, Visits h segments v s u ∧ s.getLast? = some ']' ∧ Malformed h s u := by
  induction segments generalizing v with
  | nil =>
      constructor
      · intro hnone
        cases hnone
      · rintro ⟨s, u, hvisit, -⟩
        cases hvisit
  | cons s rest ih =>
      rw [follow]
      by_cases hnil : v = .nil
      · rw [if_pos hnil]
        constructor
        · intro hnone
          cases hnone
        · rintro ⟨s', u, hvisit, -⟩
          cases hvisit with
          | here hcurr _ => exact absurd hnil hcurr
          | blank hcurr _ _ => exact absurd hnil hcurr
          | next hcurr _ _ _ => exact absurd hnil hcurr
      rw [if_neg hnil]
      by_cases hblank : trimSpace s = []
      · rw [if_pos hblank, ih]
        constructor
        · rintro ⟨s', u, hvisit, hmal⟩
          exact ⟨s', u, .blank hnil hblank hvisit, hmal⟩
        · rintro ⟨s', u, hvisit, hmal⟩
          cases hvisit with
          | here _ hs => exact absurd hblank hs
          | blank _ _ hrest => exact ⟨s', u, hrest, hmal⟩
          | next _ hs _ _ => exact absurd hblank hs
      rw [if_neg hblank]
      cases hchild : child h (trimSpace s) v with
      | none =>
          rw [Option.bind_none]
          refine ⟨fun _ => ?_, fun _ => rfl⟩
          exact ⟨trimSpace s, v, .here hnil hblank, child_eq_none_iff.mp hchild⟩
      | some w =>
          rw [Option.bind_some, ih]
          constructor
          · rintro ⟨s', u, hvisit, hmal⟩
            exact ⟨s', u, .next hnil hblank hchild hvisit, hmal⟩
          · rintro ⟨s', u, hvisit, hmal⟩
            cases hvisit with
            | here _ _ =>
                rw [child_eq_none_iff.mpr hmal] at hchild
                cases hchild
            | blank _ hs _ => exact absurd hs hblank
            | next _ _ hchild' hrest =>
                obtain rfl := Option.some.inj (hchild.symm.trans hchild')
                exact ⟨s', u, hrest, hmal⟩

/-- The walker's segments of a path. -/
def walkerSegments (path : String) : List (List Char) :=
  arraySegments ((fullPath path).toList.drop ((fullPath path).toList.idxOf '.')).tail false []

/-- A path that is read by the walker. -/
def IsBracketed (path : String) : Prop :=
  ¬ IsUnknown path ∧ (contains (fullPath path) '[' && contains (fullPath path) ']') = true

/-- A path with brackets, in which the walker comes to a malformed segment. -/
def GetPanics (h : Heap) (e : Event κ) (path : String) : Prop :=
  IsBracketed path ∧ ∃ s u, Visits h (walkerSegments path) (e.rootValue (rootOf path)) s u ∧
    s.getLast? = some ']' ∧ Malformed h s u

theorem fullPath_eq (hroot : path ≠ "") :
    (if hasPrefix path "." = true then PAYLOAD ++ path else path) = fullPath path := by
  unfold fullPath
  by_cases hdot : hasPrefix path "." = true
  · rw [if_pos hdot]
    exact (if_neg (by simp [PAYLOAD])).symm
  · rw [if_neg hdot, if_neg hroot]

theorem lookup_of_bracketed (lib : Libs κ) (h : Heap) (e : Event κ) (hpath : IsBracketed path) :
    e.lookup lib h path = follow h (walkerSegments path) (e.rootValue (rootOf path)) := by
  obtain ⟨hknown, hbrackets⟩ := hpath
  have hspecial : ∀ special, IsUnknown special → path ≠ special := by
    rintro special hunknown rfl
    exact hknown hunknown
  have hwords : ∀ word, (contains (fullPath word) '[' && contains (fullPath word) ']') = false →
      path ≠ word := by
    rintro word hword rfl
    rw [hbrackets] at hword
    exact Bool.noConfusion hword
  have hstart : (if hasPrefix path (METADATA ++ ".") || path == METADATA then e.metadataValue
      else e.payload) = e.rootValue (rootOf path) := by
    unfold rootOf
    split <;> rfl
  unfold lookup
  rw [if_neg (hspecial _ (by unfold IsUnknown; decide)),
    if_neg (hspecial _ (by unfold IsUnknown; decide)),
    if_neg (hspecial _ (by unfold IsUnknown; decide)),
    if_neg (hspecial _ (by unfold IsUnknown; decide)), hstart]
  unfold lookupFrom
  by_cases hnil : e.rootValue (rootOf path) = .nil
  · rw [if_pos hnil, hnil, follow_nil]
  rw [if_neg hnil, if_neg]
  · dsimp only
    rw [fullPath_eq (hwords "" (by decide))]
    exact (if_neg hknown).trans (if_pos hbrackets)
  · rintro (heq | heq | heq | heq)
    · exact hwords _ (by decide) heq
    · exact hwords _ (by decide) heq
    · exact hwords _ (by decide) heq
    · exact hwords _ (by decide) heq

/-- Every other path is read without a panic. -/
theorem lookup_of_not_bracketed (lib : Libs κ) (h : Heap) (e : Event κ)
    (hpath : ¬ IsBracketed path) : e.lookup lib h path ≠ none := by
  have hfrom : ∀ obj, lookupFrom h path obj ≠ none := by
    intro obj
    unfold lookupFrom
    by_cases hnil : obj = .nil
    · rw [if_pos hnil]
      simp
    rw [if_neg hnil]
    by_cases hroot : path = "" ∨ path = "." ∨ path = PAYLOAD ∨ path = METADATA
    · rw [if_pos hroot]
      simp
    rw [if_neg hroot]
    dsimp only
    rw [fullPath_eq fun hempty => hroot (Or.inl hempty)]
    split_ifs with hunknown hbrackets
    · simp
    · exact absurd ⟨hunknown, hbrackets⟩ hpath
    · simp
  unfold lookup
  split_ifs <;> first | exact hfrom _ | simp

theorem lookup_eq_none_iff (lib : Libs κ) : e.lookup lib h path = none ↔ GetPanics h e path := by
  by_cases hpath : IsBracketed path
  · rw [lookup_of_bracketed lib h e hpath, follow_eq_none_iff]
    exact ⟨fun hex => ⟨hpath, hex⟩, fun hex => hex.2⟩
  · exact ⟨fun hnone => absurd hnone (lookup_of_not_bracketed lib h e hpath),
      fun hex => absurd hex.1 hpath⟩

/-! ## Writing -/

/-- The place cannot be written: its brackets are the wrong way round, or the array under the
name cannot be written at the index. -/
inductive Slot.Stuck (h : Heap) (createPath : Bool) (under : String → Value) : Slot → Prop
  | panics : Slot.Stuck h createPath under .panics
  | element (name : String) (idx : ℕ) (hu : ¬ Writable h idx createPath (under name)) :
      Slot.Stuck h createPath under (.element name idx)

/-- The end of the loop and the place at which `SetPathValue` panics. -/
inductive Aim.Stuck (h : Heap) (createPath : Bool) (slot : Slot) : Aim → Prop
  | blocked : Aim.Stuck h createPath slot .blocked
  | target (r : Ref) (hslot : slot.Stuck h createPath fun name => (h.getKey r name).getD .nil) :
      Aim.Stuck h createPath slot (.target (.map r))
  | fresh (hslot : slot.Stuck h createPath fun _ => .nil) : Aim.Stuck h createPath slot .fresh
  | nilMap (hslot : slot ≠ .nothing) : Aim.Stuck h createPath slot (.target .nilMap)

/-- A path below payload or metadata of an open event whose walk ends with a panic, or at a place
that cannot be written. -/
def SetPanics (t : AckTree ε) (h : Heap) (e : Event κ) (path : String) (createPath : Bool) : Prop :=
  e.isSettled t = false ∧
    ¬ (rootOf path = .metadata ∧ e.metadata = none ∧ createPath = false) ∧
    IsBelow path ∧
    (aimOf h e path createPath).Stuck (openRoot h e (rootOf path)).1 createPath
      (slotOf (lastKey (splitPath (fullPath path)).tail ""))

variable {r : Ref} {slot : Slot} {val : Value}

theorem writeSlot_panics_iff :
    (writeSlot h r val createPath slot).2 = .error .panic ↔
      slot.Stuck h createPath fun name => (h.getKey r name).getD .nil := by
  cases slot with
  | panics => exact ⟨fun _ => .panics, fun _ => rfl⟩
  | nothing => exact ⟨fun hpanic => (nomatch hpanic), fun hstuck => (nomatch hstuck)⟩
  | entry k => exact ⟨fun hpanic => (nomatch hpanic), fun hstuck => (nomatch hstuck)⟩
  | element name idx =>
      refine ⟨fun hpanic => .element name idx fun hu => ?_, fun hstuck => ?_⟩
      · obtain ⟨h', hset, -⟩ := setElement_writes hu val
        rw [writeSlot, hset] at hpanic
        exact nomatch hpanic
      · cases hstuck with
        | element _ _ hu => exact setElement_panic hu val

theorem map_eq_panic_iff {α β : Type} {res : Except (Stop EventError) α} {f : α → β} :
    res.map f = .error .panic ↔ res = .error .panic := by
  cases res <;> simp [Except.map]

/-- Below an object that is made nothing is there yet. -/
theorem stuck_empty_iff {h' : Heap} :
    slot.Stuck h' createPath (fun _ => .nil) ↔ slot.Stuck h createPath fun _ => .nil := by
  have hwritable : ∀ (h₁ h₂ : Heap) idx, Writable h₁ idx createPath .nil →
      Writable h₂ idx createPath .nil := by
    rintro h₁ h₂ idx ⟨hcreate, hlen⟩
    exact .made hcreate hlen
  constructor
  · rintro (_ | ⟨name, idx, hu⟩)
    · exact .panics
    · exact .element name idx fun hw => hu (hwritable _ _ idx hw)
  · rintro (_ | ⟨name, idx, hu⟩)
    · exact .panics
    · exact .element name idx fun hw => hu (hwritable _ _ idx hw)

theorem setSegments_panics_iff {obj : Value} (halloc : h.AllocatedBelow obj) (e : Event κ)
    (val : Value) :
    (setSegments h e path obj val createPath).2.2 = .error .panic ↔
      (aim h createPath (splitPath path).tail obj).Stuck h createPath
        (slotOf (lastKey (splitPath path).tail "")) := by
  cases haim : aim h createPath (splitPath path).tail obj with
  | blocked =>
      rw [setSegments_blocked haim]
      exact ⟨fun _ => .blocked, fun _ => rfl⟩
  | missing =>
      rw [setSegments_missing haim]
      exact ⟨fun hpanic => (nomatch hpanic), fun hstuck => (nomatch hstuck)⟩
  | fresh =>
      obtain ⟨-, h', m, parent, hdesc, hmade⟩ := descend_of_fresh haim halloc path .nil ""
      obtain ⟨k, hset⟩ := setSegments_object hdesc e val
      rw [hset, map_eq_panic_iff, writeSlot_panics_iff]
      simp only [hmade.empty, Option.getD_none]
      rw [stuck_empty_iff (h := h)]
      refine ⟨.fresh, fun hstuck => ?_⟩
      cases hstuck with
      | fresh hslot => exact hslot
  | target o =>
      obtain ⟨-, parent, hdesc⟩ := descend_of_target haim path .nil ""
      by_cases hmap : ∃ r, o = .map r
      · obtain ⟨r, rfl⟩ := hmap
        obtain ⟨k, hset⟩ := setSegments_object hdesc e val
        rw [hset, map_eq_panic_iff, writeSlot_panics_iff]
        refine ⟨.target r, fun hstuck => ?_⟩
        cases hstuck with
        | target _ hslot => exact hslot
      · have hset : setSegments h e path obj val createPath =
            ((assign h o (lastKey (splitPath path).tail "") val createPath).1, e,
              (assign h o (lastKey (splitPath path).tail "") val createPath).2.map
                fun k => (parent, k)) := by
          unfold setSegments
          rw [hdesc]
          dsimp only
          rcases assign h o (lastKey (splitPath path).tail "") val createPath with ⟨h', stop | k⟩ <;>
            rfl
        rw [hset, map_eq_panic_iff]
        by_cases hnil : o = .nilMap
        · subst hnil
          rcases assign_nilMap h (lastKey (splitPath path).tail "") val createPath with
            ⟨hslot, k, hassign⟩ | ⟨hslot, hassign⟩
          · rw [hassign]
            refine ⟨fun hpanic => (nomatch hpanic), fun hstuck => ?_⟩
            cases hstuck with
            | nilMap hne => exact absurd hslot hne
          · rw [hassign]
            exact ⟨fun _ => .nilMap hslot, fun _ => rfl⟩
        · rw [assign_other (fun r hr => hmap ⟨r, hr⟩) hnil]
          refine ⟨fun hpanic => (nomatch hpanic), fun hstuck => ?_⟩
          cases hstuck with
          | target r _ => exact absurd ⟨r, rfl⟩ hmap
          | nilMap _ => exact absurd rfl hnil

/-- **`SetPathValue` panics** for every value or for none. -/
theorem setPathValue_panics_iff
    (halloc : ∀ u, e.rootObject (rootOf path) = some u → h.AllocatedBelow u) (val : Value) :
    (e.setPathValue t h path val createPath).2.2 = .error .panic ↔
      SetPanics t h e path createPath := by
  by_cases hsettled : e.isSettled t = true
  · rw [setPathValue_settled hsettled]
    refine ⟨fun hpanic => (nomatch hpanic), fun hset => ?_⟩
    exact absurd hset.1 (by rw [hsettled]; simp)
  have hopen : e.isSettled t = false := Bool.eq_false_iff.mpr hsettled
  by_cases hnone : rootOf path = .metadata ∧ e.metadata = none ∧ createPath = false
  · refine ⟨fun hpanic => ?_, fun hset => absurd hnone hset.2.1⟩
    obtain ⟨hroot, hmeta, rfl⟩ := hnone
    rw [setPathValue_noMetadata hopen hroot hmeta] at hpanic
    exact nomatch hpanic
  rw [setPathValue_open hopen hnone]
  by_cases hpayload : IsPayload path
  · rw [setPathFrom_payload hpayload ((openRoot_settled h e _).trans hopen)]
    exact ⟨fun hpanic => (nomatch hpanic), fun hset => absurd hpayload hset.2.2.1.notPayload⟩
  by_cases hmetadata : IsMetadata path
  · refine ⟨fun hpanic => ?_, fun hset => absurd hmetadata hset.2.2.1.notMetadata⟩
    rw [setPathFrom_metadata_error hpayload hmetadata] at hpanic
    exact nomatch hpanic
  by_cases hunknown : IsUnknown path
  · rw [setPathFrom_unknown hpayload hmetadata hunknown]
    exact ⟨fun hpanic => (nomatch hpanic), fun hset => absurd hunknown hset.2.2.1.known⟩
  have hbelow : IsBelow path := ⟨hpayload, hmetadata, hunknown⟩
  have hroot : (openRoot h e (rootOf path)).1.AllocatedBelow (openRoot h e (rootOf path)).2.2 := by
    rcases openRoot_cases h e (rootOf path) with ⟨hh, -, hu⟩ | ⟨-, hh, hu⟩
    · rw [hh]
      exact halloc _ hu
    · rw [hh, hu]
      exact allocatedBelow_of_empty (Heap.getKey_makeMap h) (Nat.lt_succ_self _)
  rw [setPathFrom_below hbelow, setSegments_panics_iff hroot]
  exact ⟨fun hstuck => ⟨hopen, hnone, hbelow, hstuck⟩, fun hset => hset.2.2.2⟩

/-! ## Evaluating -/

/-- The braces of the expression are the right way round, and the path between them does not
panic. -/
def RoundFits (e : Event κ) (s : EvalState) : Prop :=
  findBraces s.1 ≠ .panic ∧ ∀ before between after,
    findBraces s.1 = .found before between after → ¬ GetPanics s.2 e (String.ofList between)

/-- The library copies the value that is read in the round, and writes the copy as a text. -/
def CopiesReturn (lib : Libs κ) (order : Finset String → List String) (e : Event κ)
    (s : EvalState) : Prop :=
  ∀ before between after v, findBraces s.1 = .found before between after →
    e.lookup lib s.2 (String.ofList between) = some v →
    ∃ v' h', (lib.deepCopy v).run (Heap.handle order) s.2 = (some v', h') ∧
      ((insertedText lib v').run (Heap.handle order) h').1 ≠ none

/-- One round of `Evaluate` panics exactly where the expression does not fit. -/
theorem evaluateRound_ne_none_iff {s : EvalState} (hlib : CopiesReturn lib order e s) :
    ((evaluateRound lib e s.1).run (Heap.handle order) s.2).1 ≠ none ↔ RoundFits e s := by
  unfold evaluateRound RoundFits
  cases hbraces : findBraces s.1 with
  | none => simp
  | panic => simp
  | found before between after =>
      obtain ⟨res, hrun, hres⟩ := reads_getPathValue lib order s.2 e (String.ofList between)
      have hfits : (Braces.found before between after ≠ .panic ∧ ∀ before' between' after',
          Braces.found before between after = .found before' between' after' →
            ¬ GetPanics s.2 e (String.ofList between')) ↔
          ¬ GetPanics s.2 e (String.ofList between) := by
        constructor
        · exact fun hfits => hfits.2 before between after rfl
        · rintro hsafe
          refine ⟨by simp, fun before' between' after' heq => ?_⟩
          obtain ⟨-, rfl, -⟩ := Braces.found.inj heq
          exact hsafe
      rw [hfits, ← lookup_eq_none_iff lib, ← hres]
      dsimp only
      cases res with
      | none =>
          rw [Prog.run_bind_of_none _ _ hrun]
          simp
      | some found =>
          obtain ⟨v, pr, ky⟩ := found
          obtain ⟨v', h', hcopy, htext⟩ := hlib before between after v hbraces hres.symm
          rw [Prog.run_bind_of_some _ _ hrun]
          dsimp only
          rw [Prog.run_bind_of_some _ _ hcopy]
          refine ⟨fun _ => by simp, fun _ => ?_⟩
          split_ifs
          · simp
          · rcases hins : (insertedText lib v').run (Heap.handle order) h' with ⟨_ | text, h''⟩
            · rw [hins] at htext
              exact absurd rfl htext
            · rw [Prog.run_bind_of_some _ _ hins]
              simp

/-- **Where paths and expressions panic**, for every event and every text. -/
theorem panics_iff (t : AckTree ε) (h : Heap) (e : Event κ) (s : String) (createPath : Bool)
    (halloc : ∀ root u, e.rootObject root = some u → h.AllocatedBelow u)
    (hlib : ∀ n s', Rounds (evaluateRound lib e) order n (s.toList, h) s' →
      CopiesReturn lib order e s') :
    (((e.getPathValue lib s).run (Heap.handle order) h).1 = none ↔ GetPanics h e s) ∧
      (∀ val, (e.setPathValue t h s val createPath).2.2 = .error .panic ↔
        SetPanics t h e s createPath) ∧
      ((∀ n s', Rounds (evaluateRound lib e) order n (s.toList, h) s' →
          ((evaluateRound lib e s'.1).run (Heap.handle order) s'.2).1 ≠ none) ↔
        ∀ n s', Rounds (evaluateRound lib e) order n (s.toList, h) s' → RoundFits e s') := by
  refine ⟨?_, fun val => setPathValue_panics_iff (halloc _) val, ?_⟩
  · obtain ⟨res, hrun, hres⟩ := reads_getPathValue lib order h e s
    rw [hrun, ← lookup_eq_none_iff lib, ← hres, Option.map_eq_none_iff]
  · constructor
    · intro hsafe n s' hrun
      exact (evaluateRound_ne_none_iff (hlib n s' hrun)).mp (hsafe n s' hrun)
    · intro hfits n s' hrun
      exact (evaluateRound_ne_none_iff (hlib n s' hrun)).mpr (hfits n s' hrun)

/-- A text in braces, which is no path, is evaluated without a panic. -/
theorem panics_iff_sample :
    ((getPathValue Libs.plain (sampleEvent none) "\x7bpayload.a\x7d").run (Heap.handle ascending)
        textHeap).1 ≠ none ∧
      (∀ val, (setPathValue (AckTree.newAckTree : AckTree Unit) textHeap (sampleEvent none)
        "\x7bpayload.a\x7d" val true).2.2 ≠ .error .panic) ∧
      ∀ n s', Rounds (evaluateRound Libs.plain (sampleEvent none)) ascending n
          ("\x7bpayload.a\x7d".toList, textHeap) s' →
        ((evaluateRound Libs.plain (sampleEvent none) s'.1).run (Heap.handle ascending) s'.2).1 ≠
          none := by
  have hunknown : IsUnknown "\x7bpayload.a\x7d" := by unfold IsUnknown; decide
  have hplain : ¬ IsBracketed "payload.a" := by
    rintro ⟨-, hbrackets⟩
    exact absurd hbrackets (by decide)
  have hround : (evaluateRound Libs.plain (sampleEvent none) "\x7bpayload.a\x7d".toList).run
      (Heap.handle ascending) textHeap = (some (.inl (.str "x", .map 0, "a")), textHeap) := rfl
  have hbraces : findBraces "\x7bpayload.a\x7d".toList = .found [] "payload.a".toList [] := by
    decide
  -- the first round has the result
  have hfirst : ∀ n s', Rounds (evaluateRound Libs.plain (sampleEvent none)) ascending n
      ("\x7bpayload.a\x7d".toList, textHeap) s' → s' = ("\x7bpayload.a\x7d".toList, textHeap) := by
    intro n s' hrun
    cases hrun with
    | refl => rfl
    | step hnext _ => exact nomatch hround.symm.trans hnext
  have hlib : ∀ n s', Rounds (evaluateRound Libs.plain (sampleEvent none)) ascending n
      ("\x7bpayload.a\x7d".toList, textHeap) s' →
      CopiesReturn Libs.plain ascending (sampleEvent none) s' := by
    intro n s' hrun before between after v hfound hv
    obtain rfl := hfirst n s' hrun
    obtain ⟨-, rfl, -⟩ := Braces.found.inj (hbraces.symm.trans hfound)
    have hx : lookup Libs.plain textHeap (sampleEvent none) "payload.a" = some (.str "x") := by
      decide +kernel
    obtain rfl := Option.some.inj (hx.symm.trans hv)
    exact ⟨.str "x", textHeap, rfl, by simp [insertedText]⟩
  obtain ⟨hget, hset, heval⟩ := panics_iff (AckTree.newAckTree : AckTree Unit) textHeap
    (sampleEvent none) "\x7bpayload.a\x7d" true hasData_textHeap.allocated hlib
  refine ⟨fun hnone => (hget.mp hnone).1.1 hunknown, fun val hpanic => ?_, heval.mpr ?_⟩
  · exact ((hset val).mp hpanic).2.2.1.known hunknown
  · intro n s' hrun
    obtain rfl := hfirst n s' hrun
    refine ⟨by rw [hbraces]; simp, fun before between after hfound hpanics => ?_⟩
    obtain ⟨-, rfl, -⟩ := Braces.found.inj (hbraces.symm.trans hfound)
    exact hplain hpanics.1

/-- A payload with an array. -/
def arrayHeap : Heap := (textHeap.makeSlice [.bool true]).1.setKey 0 "b" (.slice 1)

/-- A negative index panics when it is read, a path through a text when it is written, and braces
the wrong way round when they are evaluated. -/
theorem paths_panic :
    ((getPathValue Libs.plain (sampleEvent none) "payload.b[-1]").run (Heap.handle ascending)
        arrayHeap).1 = none ∧
      (setPathValue (AckTree.newAckTree : AckTree Unit) arrayHeap (sampleEvent none)
        "payload.a.b.c" .nil true).2.2 = .error .panic ∧
      ((evaluateRound Libs.plain (sampleEvent none) "\x7d\x7b".toList).run (Heap.handle ascending)
        arrayHeap).1 = none := by
  refine ⟨?_, ?_, ?_⟩
  · decide +kernel
  · decide +kernel
  · decide +kernel

end Event
