/-
# What `SetPathValue` reports

A path names a place of an event: the keys and indexes that `GetPathValue` would go through
(`placeOf`), a selector standing for the first element that it selects before the write.
`SetPathValue` reads its own place off the path (`wayOf`).  It reports what it did, an error
without a change or success with the value at the place, where the two agree and lead to an
object, and not otherwise (`reports_iff`): it answers success without writing below a value that
is no object, and it sets the metadata and answers with an error.
-/
import Ears.PathWriting

open GoLib

namespace Event

variable {κ ε : Type} {t : AckTree ε} {h h' : Heap} {e e' : Event κ} {path : String}
  {createPath : Bool} {val : Value}

/-! ## The place that a path names -/

/-- The path with `payload` in front. -/
def fullPath (path : String) : String :=
  let path := if hasPrefix path "." then PAYLOAD ++ path else path
  if path = "" then PAYLOAD else path

/-- Where the path starts. -/
def rootOf (path : String) : Root :=
  if hasPrefix path (METADATA ++ ".") || path == METADATA then .metadata else .payload

/-- The payload as a whole. -/
def IsPayload (path : String) : Prop := fullPath path = PAYLOAD ∨ fullPath path = PAYLOAD ++ "."

/-- The metadata as a whole. -/
def IsMetadata (path : String) : Prop :=
  fullPath path = METADATA ∨ fullPath path = METADATA ++ "."

/-- Neither payload nor metadata. -/
def IsUnknown (path : String) : Prop :=
  (!hasPrefix (fullPath path) (PAYLOAD ++ ".") &&
    !hasPrefix (fullPath path) (METADATA ++ ".")) = true

/-- The index that the text between brackets names: a number, or the first element with the
entry. -/
def indexNamed (h : Heap) (u : Option Value) (text : List Char) : Option ℕ :=
  if text.contains '=' then
    match u with
    | some (.slice a) =>
        match pick h a text with
        | .elem i => some i
        | _ => none
    | _ => none
  else
    match atoi text with
    | (i, none) => if i < 0 then none else some i.toNat
    | _ => none

/-- The steps that a segment names, from a value that may be absent. -/
def stepsOf (h : Heap) (segment : List Char) (u : Option Value) : Option (List Step) :=
  if segment.getLast? = some ']' then
    match u with
    | some (.slice a) =>
        (indexNamed h (some (.slice a))
          (if '[' ∈ segment then indexOf segment else segment.dropLast)).map fun i => [.index i]
    | u =>
        if '[' ∈ segment then
          (indexNamed h (u.bind fun v => h.step v (.key (String.ofList (nameOf segment))))
            (indexOf segment)).map fun i => [.key (String.ofList (nameOf segment)), .index i]
        else none
  else some [.key (String.ofList segment)]

/-- The steps that segments name. -/
def namedSteps (h : Heap) : List (List Char) → Option Value → Option (List Step)
  | [], _ => some []
  | s :: rest, u =>
      (stepsOf h s u).bind fun steps =>
        (namedSteps h rest (u.bind fun v => h.locate v steps)).map (steps ++ ·)

/-- The segments of a path with brackets: trimmed, and without the blank ones. -/
def bracketSegments (full : String) : List (List Char) :=
  ((arraySegments (full.toList.drop (full.toList.idxOf '.')).tail false []).map trimSpace).filter
    (· ≠ [])

/-- The place that a path names, below the payload or the metadata. -/
def placeOf (h : Heap) (e : Event κ) (path : String) : Option (List Step) :=
  if fullPath path = PAYLOAD ∨ fullPath path = PAYLOAD ++ "." then some []
  else if contains (fullPath path) '[' && contains (fullPath path) ']' then
    namedSteps h (bracketSegments (fullPath path)) (e.rootObject (rootOf path))
  else some ((splitPath (fullPath path)).tail.map .key)

theorem placeOf_payload (hpayload : IsPayload path) (h : Heap) (e : Event κ) :
    placeOf h e path = some [] := by
  unfold placeOf
  exact if_pos hpayload

theorem placeOf_bracketed (hbelow : ¬ IsPayload path)
    (hbrackets : (contains (fullPath path) '[' && contains (fullPath path) ']') = true) (h : Heap)
    (e : Event κ) :
    placeOf h e path =
      namedSteps h (bracketSegments (fullPath path)) (e.rootObject (rootOf path)) := by
  unfold placeOf
  exact (if_neg hbelow).trans (if_pos hbrackets)

theorem placeOf_plain (hbelow : ¬ IsPayload path)
    (hbrackets : (contains (fullPath path) '[' && contains (fullPath path) ']') = false) (h : Heap)
    (e : Event κ) : placeOf h e path = some ((splitPath (fullPath path)).tail.map .key) := by
  unfold placeOf
  refine (if_neg hbelow).trans (if_neg ?_)
  rw [hbrackets]
  exact Bool.false_ne_true

/-- The place that `SetPathValue` reads off a path. -/
def wayOf (path : String) : Option (List Step) :=
  let segments := (splitPath (fullPath path)).tail
  (slotOf (lastKey segments "")).steps.map ((way segments).map .key ++ ·)

/-! ## Reports -/

/-- The value is at the place that the path named. -/
def WrittenAt (h : Heap) (e : Event κ) (path : String) (val : Value) (h' : Heap) (e' : Event κ) :
    Prop :=
  ∃ place u, placeOf h e path = some place ∧ e'.rootObject (rootOf path) = some u ∧
    h'.locate u place = some val

/-- Nothing that the event had has changed. -/
structure Unchanged (h : Heap) (e : Event κ) (h' : Heap) (e' : Event κ) : Prop where
  payload : e'.payload = e.payload
  metadata : e'.metadata = e.metadata
  maps : ∀ x < h.next, h'.maps x = h.maps x
  slices : ∀ x < h.next, h'.slices x = h.slices x

/-- An error comes without a change, success with the value at the place. -/
def Reports (t : AckTree ε) (h : Heap) (e : Event κ) (path : String) (val : Value)
    (createPath : Bool) : Prop :=
  match e.setPathValue t h path val createPath with
  | (h', e', .ok _) => WrittenAt h e path val h' e'
  | (h', e', .error (.error _)) => Unchanged h e h' e'
  | (_, _, .error .panic) => True

/-- Where the loop of `SetPathValue` ends. -/
def aimOf (h : Heap) (e : Event κ) (path : String) (createPath : Bool) : Aim :=
  aim (openRoot h e (rootOf path)).1 createPath (splitPath (fullPath path)).tail
    (openRoot h e (rootOf path)).2.2

/-- The loop ends at an object, which is there or is made. -/
def EndsAtObject (h : Heap) (e : Event κ) (path : String) (createPath : Bool) : Prop :=
  aimOf h e path createPath = .fresh ∨ ∃ r, aimOf h e path createPath = .target (.map r)

/-- The loop ends with an error, or at an object, and the two readings of the path agree. -/
def Lands (h : Heap) (e : Event κ) (path : String) (createPath : Bool) : Prop :=
  aimOf h e path createPath = .missing ∨
    EndsAtObject h e path createPath ∧ wayOf path ≠ none ∧ wayOf path = placeOf h e path

/-- The inputs on which `SetPathValue` reports what it did. -/
def Reporting (t : AckTree ε) (h : Heap) (e : Event κ) (path : String) (createPath : Bool) : Prop :=
  e.isSettled t = true ∨ IsPayload path ∨
    (rootOf path = .metadata ∧ e.metadata = none ∧ createPath = false) ∨
    ¬ IsMetadata path ∧ (IsUnknown path ∨ Lands h e path createPath)

/-! ## The ways out before the loop -/

theorem setPathValue_settled (hsettled : e.isSettled t = true) (h : Heap) (path : String)
    (val : Value) (createPath : Bool) :
    e.setPathValue t h path val createPath = (h, e, .error (.error .alreadyAckedError)) := by
  unfold setPathValue
  exact if_pos hsettled

/-- There are no metadata and none are made. -/
theorem setPathValue_noMetadata (hopen : e.isSettled t = false) (hroot : rootOf path = .metadata)
    (hmeta : e.metadata = none) (h : Heap) (val : Value) :
    e.setPathValue t h path val false =
      (h, e, .error (.error (.other ("path " ++ path ++ " does not exist")))) := by
  have hstarts : (hasPrefix path (METADATA ++ ".") || path == METADATA) = true := by
    unfold rootOf at hroot
    by_contra hne
    rw [if_neg hne] at hroot
    exact nomatch hroot
  unfold setPathValue
  rw [if_neg (by rw [hopen]; exact Bool.false_ne_true), if_pos hstarts, hmeta]
  exact if_neg Bool.false_ne_true

/-- Past these, `SetPathValue` starts from the payload or the metadata, which it makes. -/
theorem setPathValue_open (hopen : e.isSettled t = false)
    (hstart : ¬ (rootOf path = .metadata ∧ e.metadata = none ∧ createPath = false)) (h : Heap)
    (val : Value) :
    e.setPathValue t h path val createPath =
      setPathFrom t (openRoot h e (rootOf path)).1 (openRoot h e (rootOf path)).2.1 path
        (openRoot h e (rootOf path)).2.2 val createPath := by
  unfold setPathValue
  rw [if_neg (by rw [hopen]; exact Bool.false_ne_true)]
  unfold rootOf at hstart ⊢
  by_cases hstarts : (hasPrefix path (METADATA ++ ".") || path == METADATA) = true
  · rw [if_pos hstarts] at hstart
    rw [if_pos hstarts, if_pos hstarts]
    unfold openRoot
    cases hmeta : e.metadata with
    | some r => rfl
    | none =>
        have hcreate : createPath = true := by
          by_contra hne
          exact hstart ⟨rfl, hmeta, Bool.eq_false_iff.mpr hne⟩
        dsimp only
        rw [if_pos hcreate]
        unfold setMetadata
        rw [if_neg (by rw [hopen]; exact Bool.false_ne_true)]
  · rw [if_neg hstarts, if_neg hstarts]
    rfl

theorem openRoot_settled (h : Heap) (e : Event κ) (root : Root) :
    (openRoot h e root).2.1.isSettled t = e.isSettled t := by
  cases root with
  | payload => rfl
  | metadata =>
      unfold openRoot
      cases e.metadata <;> rfl

theorem openRoot_root (h : Heap) (e : Event κ) (root : Root) :
    (openRoot h e root).2.1.rootObject root = some (openRoot h e root).2.2 := by
  cases root with
  | payload => rfl
  | metadata =>
      unfold openRoot
      cases hmeta : e.metadata with
      | none => rfl
      | some r => simp [rootObject, hmeta]

/-- Opening the root changes nothing that was there. -/
theorem openRoot_there (hthere : ¬ (rootOf path = .metadata ∧ e.metadata = none)) (h : Heap) :
    (openRoot h e (rootOf path)).1 = h ∧ (openRoot h e (rootOf path)).2.1 = e := by
  cases hroot : rootOf path with
  | payload => exact ⟨rfl, rfl⟩
  | metadata =>
      unfold openRoot
      cases hmeta : e.metadata with
      | none => exact absurd ⟨hroot, hmeta⟩ hthere
      | some r => exact ⟨rfl, rfl⟩

theorem head_of_metadata (hmeta : (hasPrefix path (METADATA ++ ".") || path == METADATA) = true) :
    path.toList.head? = some 'm' := by
  rcases Bool.or_eq_true_iff.mp hmeta with hstarts | heq
  · obtain ⟨rest, hrest⟩ := List.isPrefixOf_iff_prefix.mp hstarts
    rw [← hrest]
    rfl
  · rw [beq_iff_eq.mp heq]
    rfl

/-- The payload is not below the metadata. -/
theorem rootOf_payload (hpayload : IsPayload path) : rootOf path = .payload := by
  unfold rootOf
  refine if_neg fun hmeta => ?_
  have hhead := head_of_metadata hmeta
  have hdot : ¬ hasPrefix path "." = true := by
    intro hstarts
    obtain ⟨rest, hrest⟩ := List.isPrefixOf_iff_prefix.mp hstarts
    rw [← hrest] at hhead
    exact absurd (Option.some.inj hhead) (by decide)
  have hnil : path ≠ "" := by
    rintro rfl
    exact nomatch hhead
  have hfull : fullPath path = path := by
    unfold fullPath
    rw [if_neg hdot, if_neg hnil]
  unfold IsPayload at hpayload
  rw [hfull] at hpayload
  rcases hpayload with rfl | rfl
  · exact absurd hhead (by decide)
  · exact absurd hhead (by decide)

/-- The path below the payload or the metadata. -/
structure IsBelow (path : String) : Prop where
  notPayload : ¬ IsPayload path
  notMetadata : ¬ IsMetadata path
  known : ¬ IsUnknown path

theorem setPathFrom_payload (hpayload : IsPayload path) (hopen : e.isSettled t = false) (h : Heap)
    (obj val : Value) (createPath : Bool) :
    setPathFrom t h e path obj val createPath = (h, { e with payload := val }, .ok (.nil, "")) := by
  unfold setPathFrom
  refine (if_pos hpayload).trans ?_
  rw [setPayload, if_neg (by rw [hopen]; exact Bool.false_ne_true)]

theorem setPathFrom_metadata (hpayload : ¬ IsPayload path) (hmetadata : IsMetadata path)
    (hopen : e.isSettled t = false) (h : Heap) (obj : Value) (r : Ref) (createPath : Bool) :
    setPathFrom t h e path obj (.map r) createPath =
      (h, { e with metadata := some r }, .error (.error (.other "bad metadata"))) := by
  unfold setPathFrom
  refine ((if_neg hpayload).trans (if_pos hmetadata)).trans ?_
  dsimp only
  rw [setMetadata, if_neg (by rw [hopen]; exact Bool.false_ne_true)]

/-- Every write to the metadata as a whole is answered with an error. -/
theorem setPathFrom_metadata_error (hpayload : ¬ IsPayload path) (hmetadata : IsMetadata path)
    (t : AckTree ε) (h : Heap) (e : Event κ) (obj val : Value) (createPath : Bool) :
    (setPathFrom t h e path obj val createPath).2.2 =
      .error (.error (.other "bad metadata")) := by
  unfold setPathFrom
  refine (congrArg (fun res : Heap × Event κ × Except (Stop EventError) (Value × String) => res.2.2)
    ((if_neg hpayload).trans (if_pos hmetadata))).trans ?_
  cases val <;> rfl

theorem setPathFrom_unknown (hpayload : ¬ IsPayload path) (hmetadata : ¬ IsMetadata path)
    (hunknown : IsUnknown path) (t : AckTree ε) (h : Heap) (e : Event κ) (obj val : Value)
    (createPath : Bool) :
    setPathFrom t h e path obj val createPath =
      (h, e, .error (.error (.other ("bad path " ++ fullPath path)))) := by
  unfold setPathFrom
  exact ((if_neg hpayload).trans (if_neg hmetadata)).trans (if_pos hunknown)

theorem setPathFrom_below (hbelow : IsBelow path) (t : AckTree ε) (h : Heap) (e : Event κ)
    (obj val : Value) (createPath : Bool) :
    setPathFrom t h e path obj val createPath =
      setSegments h e (fullPath path) obj val createPath := by
  unfold setPathFrom
  exact ((if_neg hbelow.notPayload).trans (if_neg hbelow.notMetadata)).trans (if_neg hbelow.known)

/-! ## The ways out of the loop -/

variable {obj o parent : Value} {key : String} {m : Ref} {res : Value × String} {h₁ : Heap}

theorem setSegments_blocked (haim : aim h createPath (splitPath path).tail obj = .blocked)
    (e : Event κ) (val : Value) :
    setSegments h e path obj val createPath = (h, e, .error .panic) := by
  unfold setSegments
  rw [descend_of_blocked haim]

theorem setSegments_missing (haim : aim h createPath (splitPath path).tail obj = .missing)
    (e : Event κ) (val : Value) :
    setSegments h e path obj val createPath =
      (h, e, .error (.error (.other ("invalid path " ++ path)))) := by
  unfold setSegments
  rw [descend_of_missing haim]

/-- The loop ends at an object. -/
theorem setSegments_object
    (hdesc : descend path createPath h (splitPath path).tail obj .nil "" =
      (h', .ok (.map m, parent, key))) (e : Event κ) (val : Value) :
    ∃ k, setSegments h e path obj val createPath =
      ((writeSlot h' m val createPath (slotOf key)).1, e,
        (writeSlot h' m val createPath (slotOf key)).2.map fun _ => (parent, k)) := by
  obtain ⟨k, hassign⟩ := assign_map h' m key val createPath
  refine ⟨k, ?_⟩
  unfold setSegments
  rw [hdesc]
  dsimp only
  rw [hassign]
  rcases writeSlot h' m val createPath (slotOf key) with ⟨h'', stop | ⟨⟩⟩ <;> rfl

/-- A write that succeeds. -/
theorem setSegments_object_ok
    (hdesc : descend path createPath h (splitPath path).tail obj .nil "" =
      (h₁, .ok (.map m, parent, key)))
    (hset : setSegments h e path obj val createPath = (h', e', .ok res)) :
    e' = e ∧ writeSlot h₁ m val createPath (slotOf key) = (h', .ok ()) := by
  obtain ⟨k, heq⟩ := setSegments_object hdesc e val
  rw [hset] at heq
  rcases hw : writeSlot h₁ m val createPath (slotOf key) with ⟨h₂, stop | ⟨⟩⟩
  · rw [hw] at heq
    exact nomatch (Prod.mk.inj (Prod.mk.inj heq).2).2
  · rw [hw] at heq
    obtain ⟨rfl, heq⟩ := Prod.mk.inj heq
    exact ⟨(Prod.mk.inj heq).1, rfl⟩

/-- A write to a place of an object succeeds or panics. -/
theorem setSegments_object_cases
    (hdesc : descend path createPath h (splitPath path).tail obj .nil "" =
      (h₁, .ok (.map m, parent, key))) (e : Event κ) (val : Value) :
    (∃ h' res, setSegments h e path obj val createPath = (h', e, .ok res)) ∨
      (setSegments h e path obj val createPath).2.2 = .error .panic := by
  obtain ⟨k, heq⟩ := setSegments_object hdesc e val
  rw [heq]
  cases slotOf key with
  | panics => exact Or.inr rfl
  | nothing => exact Or.inl ⟨_, _, rfl⟩
  | entry k => exact Or.inl ⟨_, _, rfl⟩
  | element name idx =>
      by_cases hu : Writable h₁ idx createPath ((h₁.getKey m name).getD .nil)
      · obtain ⟨h₂, hw, -⟩ := setElement_writes hu val
        refine Or.inl ⟨h₂, (parent, k), ?_⟩
        dsimp only [writeSlot]
        rw [hw]
        rfl
      · refine Or.inr ?_
        dsimp only [writeSlot]
        rw [setElement_panic hu val]
        rfl

/-- The loop ends at a value that is no object: nothing is written. -/
theorem setSegments_other (haim : aim h createPath (splitPath path).tail obj = .target o)
    (ho : ∀ r, o ≠ .map r) (e : Event κ) (val : Value) :
    setSegments h e path obj val createPath = (h, e, .error .panic) ∨
      ∃ res, setSegments h e path obj val createPath = (h, e, .ok res) := by
  obtain ⟨-, parent, hdesc⟩ := descend_of_target haim path .nil ""
  unfold setSegments
  rw [hdesc]
  dsimp only
  by_cases hnil : o = .nilMap
  · subst hnil
    rcases assign_nilMap h (lastKey (splitPath path).tail "") val createPath with
      ⟨-, k, hassign⟩ | ⟨-, hassign⟩
    · exact Or.inr ⟨(parent, k), by rw [hassign]⟩
    · exact Or.inl (by rw [hassign])
  · exact Or.inr ⟨_, by rw [assign_other ho hnil]⟩

/-- An object that is made is never missing. -/
theorem aim_ne_missing (h : Heap) (segments : List String) (obj : Value) :
    aim h true segments obj ≠ .missing := by
  fun_induction aim h true segments obj with
  | case6 s rest hs hrest r hk hcreate => exact absurd rfl hcreate
  | case8 s rest hs hrest hcreate => exact absurd rfl hcreate
  | case2 rest obj ih => exact ih
  | case4 s rest hs hrest r child hk ih => exact ih
  | _ => simp

/-! ## Where the two readings of the path agree -/

/-- All objects and arrays of the event are allocated, and none contains itself. -/
structure HasData (h : Heap) (e : Event κ) : Prop where
  allocated : ∀ root u, e.rootObject root = some u → h.AllocatedBelow u
  acyclic : ∀ root u, e.rootObject root = some u → h.Acyclic u

/-- No object and no array of the event is at two positions below one root. -/
def NoSharing (h : Heap) (e : Event κ) : Prop := ∀ root u, e.rootObject root = some u → h.Unshared u

/-- Below an empty object there is nothing. -/
theorem locate_of_empty (hempty : ∀ key, h.getKey m key = none) {p : List Step} {u : Value}
    (hp : h.locate (.map m) p = some u) : p = [] ∧ u = .map m := by
  rcases p with _ | ⟨k | i, p⟩
  · exact ⟨rfl, (Option.some.inj hp).symm⟩
  · rw [Heap.locate_cons_of_none ((Heap.step_key h m k).trans (hempty k))] at hp
    exact nomatch hp
  · exact nomatch hp

theorem allocatedBelow_of_empty (hempty : ∀ key, h.getKey m key = none) (hm : m < h.next) :
    h.AllocatedBelow (.map m) := by
  intro p u hp _
  rw [(locate_of_empty hempty hp).2]
  exact hm

theorem unshared_of_empty (hempty : ∀ key, h.getKey m key = none) : h.Unshared (.map m) := by
  intro p q u _ hp hq
  rw [(locate_of_empty hempty hp).1, (locate_of_empty hempty hq).1]

/-- The object to start from, made or not. -/
theorem openRoot_cases (h : Heap) (e : Event κ) (root : Root) :
    ((openRoot h e root).1 = h ∧ (openRoot h e root).2.1 = e ∧
        e.rootObject root = some (openRoot h e root).2.2) ∨
      e.rootObject root = none ∧ (openRoot h e root).1 = h.makeMap.1 ∧
        (openRoot h e root).2.2 = .map h.next := by
  cases root with
  | payload => exact Or.inl ⟨rfl, rfl, rfl⟩
  | metadata =>
      unfold openRoot rootObject
      cases hmeta : e.metadata with
      | none => exact Or.inr ⟨rfl, rfl, rfl⟩
      | some r => exact Or.inl ⟨rfl, rfl, rfl⟩

theorem HasData.openRoot (hdata : HasData h e) (root : Root) :
    (openRoot h e root).1.AllocatedBelow (openRoot h e root).2.2 ∧
      (Event.openRoot h e root).1.Acyclic (Event.openRoot h e root).2.2 := by
  rcases openRoot_cases h e root with ⟨hh, -, hu⟩ | ⟨-, hh, hu⟩
  · rw [hh]
    exact ⟨hdata.allocated root _ hu, hdata.acyclic root _ hu⟩
  · rw [hh, hu]
    exact ⟨allocatedBelow_of_empty (Heap.getKey_makeMap h) (Nat.lt_succ_self _),
      (unshared_of_empty (Heap.getKey_makeMap h)).acyclic⟩

theorem NoSharing.openRoot (hsharing : NoSharing h e) (root : Root) :
    (openRoot h e root).1.Unshared (openRoot h e root).2.2 := by
  rcases openRoot_cases h e root with ⟨hh, -, hu⟩ | ⟨-, hh, hu⟩
  · rw [hh]
    exact hsharing root _ hu
  · rw [hh, hu]
    exact unshared_of_empty (Heap.getKey_makeMap h)

/-- The loop ends at an object, and the value is written at the place that the segments say. -/
theorem setSegments_written (halloc : h.AllocatedBelow obj) (hacyclic : h.Acyclic obj)
    (haim : aim h createPath (splitPath path).tail obj = .fresh ∨
      ∃ r, aim h createPath (splitPath path).tail obj = .target (.map r))
    (hset : setSegments h e path obj val createPath = (h', e', .ok res))
    {place : List Step}
    (hplace : (slotOf (lastKey (splitPath path).tail "")).steps.map
      ((way (splitPath path).tail).map .key ++ ·) = some place) :
    e' = e ∧ h'.locate obj place = some val := by
  obtain ⟨steps, hsteps, rfl⟩ := Option.map_eq_some_iff.mp hplace
  rcases haim with haim | ⟨r, haim⟩
  · obtain ⟨-, h₁, m, parent, hdesc, hmade⟩ := descend_of_fresh haim halloc path .nil ""
    obtain ⟨he, hw⟩ := setSegments_object_ok hdesc hset
    have hlead := hmade.leads h' fun x hx => writeSlot_maps hw hx
    have hhere := writeSlot_located (allocatedBelow_of_empty hmade.empty hmade.allocated)
      (unshared_of_empty hmade.empty).acyclic (Heap.locate_nil h₁ (.map m)) hsteps hw
    refine ⟨he, ?_⟩
    rw [← Heap.locate_keys] at hlead
    rw [Heap.locate_append_of_some hlead]
    exact hhere
  · obtain ⟨hwalk, parent, hdesc⟩ := descend_of_target haim path .nil ""
    obtain ⟨he, hw⟩ := setSegments_object_ok hdesc hset
    rw [← Heap.locate_keys] at hwalk
    exact ⟨he, writeSlot_located halloc hacyclic hwalk hsteps hw⟩

/-- In data without sharing a boolean is written at that place or it was there before. -/
theorem setSegments_only {b : Bool} (halloc : h.AllocatedBelow obj) (hunshared : h.Unshared obj)
    (haim : aim h createPath (splitPath path).tail obj = .fresh ∨
      ∃ r, aim h createPath (splitPath path).tail obj = .target (.map r))
    (hset : setSegments h e path obj (.bool b) createPath = (h', e', .ok res))
    {place : List Step} (hplace : h'.locate obj place = some (.bool b)) :
    h.locate obj place = some (.bool b) ∨
      (slotOf (lastKey (splitPath path).tail "")).steps.map
        ((way (splitPath path).tail).map .key ++ ·) = some place := by
  obtain ⟨h₁, m, parent, hdesc, hreached, honly⟩ :=
    descend_reached (Heap.locate_nil h obj) halloc hunshared haim path .nil ""
  obtain ⟨-, hw⟩ := setSegments_object_ok hdesc hset
  exact (writeSlot_only hreached.allocated hreached.unshared hreached.here hw hplace).imp_left
    (honly place b)

/-! ## The reports -/

theorem reports_of_error {err : EventError}
    (heq : e.setPathValue t h path val createPath = (h', e', .error (.error err)))
    (hsame : Unchanged h e h' e') : Reports t h e path val createPath := by
  unfold Reports
  rw [heq]
  exact hsame

theorem unchanged_refl (h : Heap) (e : Event κ) : Unchanged h e h e :=
  ⟨rfl, rfl, fun _ _ => rfl, fun _ _ => rfl⟩

theorem fullPath_of_metadata (hroot : rootOf path = .metadata) :
    fullPath path = path ∧ (hasPrefix path (METADATA ++ ".") = true ∨ path = METADATA) := by
  have hmeta : (hasPrefix path (METADATA ++ ".") || path == METADATA) = true := by
    by_contra hne
    unfold rootOf at hroot
    rw [if_neg hne] at hroot
    exact nomatch hroot
  have hhead := head_of_metadata hmeta
  have hdot : ¬ hasPrefix path "." = true := by
    intro hstarts
    obtain ⟨rest, hrest⟩ := List.isPrefixOf_iff_prefix.mp hstarts
    rw [← hrest] at hhead
    exact absurd (Option.some.inj hhead) (by decide)
  have hnil : path ≠ "" := by
    rintro rfl
    exact nomatch hhead
  refine ⟨?_, ?_⟩
  · unfold fullPath
    rw [if_neg hdot, if_neg hnil]
  · rcases Bool.or_eq_true_iff.mp hmeta with hstarts | heq
    · exact Or.inl hstarts
    · exact Or.inr (beq_iff_eq.mp heq)

/-- A path that is neither payload nor metadata starts at the payload. -/
theorem rootOf_unknown (hmetadata : ¬ IsMetadata path) (hunknown : IsUnknown path) :
    rootOf path = .payload := by
  by_contra hne
  have hroot : rootOf path = .metadata := by
    cases hr : rootOf path with
    | payload => exact absurd hr hne
    | metadata => rfl
  obtain ⟨hfull, hstarts | rfl⟩ := fullPath_of_metadata hroot
  · unfold IsUnknown at hunknown
    rw [hfull, hstarts, Bool.not_true, Bool.and_false] at hunknown
    exact Bool.noConfusion hunknown
  · exact hmetadata (Or.inl hfull)

/-- Where the readings agree, the loop ends with an error that changes nothing or with the value
at the place. -/
theorem reports_of_lands (hdata : HasData h e) (hopen : e.isSettled t = false)
    (hstart : ¬ (rootOf path = .metadata ∧ e.metadata = none ∧ createPath = false))
    (hbelow : IsBelow path) (hlands : Lands h e path createPath)
    (hpanic : (e.setPathValue t h path val createPath).2.2 ≠ .error .panic) :
    Reports t h e path val createPath := by
  have heq := setPathValue_open hopen hstart h val
  rw [setPathFrom_below hbelow] at heq
  rw [heq] at hpanic
  obtain ⟨halloc, hacyclic⟩ := hdata.openRoot (rootOf path)
  rcases hlands with haim | ⟨haim, hway, hagree⟩
  · rw [setSegments_missing haim] at heq
    have hcreate : createPath = false := by
      by_contra hne
      rw [Bool.not_eq_false] at hne
      subst hne
      exact aim_ne_missing _ _ _ haim
    obtain ⟨hh, he⟩ :=
      openRoot_there (e := e) (fun hboth => hstart ⟨hboth.1, hboth.2, hcreate⟩) h
    rw [hh, he] at heq
    exact reports_of_error heq (unchanged_refl h e)
  · obtain ⟨place, hplace⟩ := Option.ne_none_iff_exists'.mp hway
    have hdesc : ∃ h₁ m parent, descend (fullPath path) createPath (openRoot h e (rootOf path)).1
        (splitPath (fullPath path)).tail (openRoot h e (rootOf path)).2.2 .nil "" =
        (h₁, .ok (.map m, parent, lastKey (splitPath (fullPath path)).tail "")) := by
      rcases haim with haim | ⟨r, haim⟩
      · obtain ⟨-, h₁, m, parent, hdesc, -⟩ := descend_of_fresh haim halloc (fullPath path) .nil ""
        exact ⟨h₁, m, parent, hdesc⟩
      · obtain ⟨-, parent, hdesc⟩ := descend_of_target haim (fullPath path) .nil ""
        exact ⟨_, r, parent, hdesc⟩
    obtain ⟨h₁, m, parent, hdesc⟩ := hdesc
    obtain ⟨h', res, hset⟩ := (setSegments_object_cases hdesc (openRoot h e (rootOf path)).2.1
      val).resolve_right hpanic
    unfold Reports
    rw [heq, hset]
    obtain ⟨-, hlocate⟩ := setSegments_written halloc hacyclic haim hset hplace
    exact ⟨place, _, hagree ▸ hplace, openRoot_root h e (rootOf path), hlocate⟩

/-- In data without sharing the loop reports each write of a boolean only where the readings
agree. -/
theorem lands_of_reports (hdata : HasData h e) (hsharing : NoSharing h e)
    (hopen : e.isSettled t = false)
    (hstart : ¬ (rootOf path = .metadata ∧ e.metadata = none ∧ createPath = false))
    (hbelow : IsBelow path) (hreports : ∀ b, Reports t h e path (.bool b) createPath)
    (hpanic : ∀ val, (e.setPathValue t h path val createPath).2.2 ≠ .error .panic) :
    Lands h e path createPath := by
  have heq : ∀ val, e.setPathValue t h path val createPath =
      setSegments (openRoot h e (rootOf path)).1 (openRoot h e (rootOf path)).2.1 (fullPath path)
        (openRoot h e (rootOf path)).2.2 val createPath := by
    intro val
    rw [setPathValue_open hopen hstart, setPathFrom_below hbelow]
  obtain ⟨halloc, -⟩ := hdata.openRoot (rootOf path)
  have hunshared := hsharing.openRoot (rootOf path)
  -- what a success says: the value is at the place that the path named
  have hok : ∀ b h' e' res, setSegments (openRoot h e (rootOf path)).1
      (openRoot h e (rootOf path)).2.1 (fullPath path) (openRoot h e (rootOf path)).2.2 (.bool b)
        createPath = (h', e', .ok res) → e' = (openRoot h e (rootOf path)).2.1 →
      ∃ place, placeOf h e path = some place ∧
        h'.locate (openRoot h e (rootOf path)).2.2 place = some (.bool b) := by
    intro b h' e' res hset he
    have hrep := hreports b
    unfold Reports at hrep
    rw [heq, hset] at hrep
    obtain ⟨place, u, hplace, hu, hlocate⟩ := hrep
    rw [he, openRoot_root] at hu
    obtain rfl := Option.some.inj hu
    exact ⟨place, hplace, hlocate⟩
  by_cases hobject : EndsAtObject h e path createPath
  · refine Or.inr ⟨hobject, ?_⟩
    obtain ⟨h₁, m, parent, hdesc, -⟩ := descend_reached (Heap.locate_nil _ _) halloc
      hunshared hobject (fullPath path) .nil ""
    have hplace : ∀ b, ∃ place, placeOf h e path = some place ∧
        ((openRoot h e (rootOf path)).1.locate (openRoot h e (rootOf path)).2.2 place =
          some (.bool b) ∨ wayOf path = some place) := by
      intro b
      obtain ⟨h', res, hset⟩ := (setSegments_object_cases hdesc (openRoot h e (rootOf path)).2.1
        (.bool b)).resolve_right (by rw [← heq]; exact hpanic _)
      obtain ⟨place, hplace, hlocate⟩ := hok b h' _ res hset rfl
      exact ⟨place, hplace, setSegments_only halloc hunshared hobject hset hlocate⟩
    obtain ⟨place, hplace₁, hcases₁⟩ := hplace true
    obtain ⟨place', hplace₂, hcases₂⟩ := hplace false
    obtain rfl := Option.some.inj (hplace₁.symm.trans hplace₂)
    rcases hcases₁ with hbefore₁ | hway
    · rcases hcases₂ with hbefore₂ | hway
      · exact nomatch hbefore₁.symm.trans hbefore₂
      · exact ⟨by rw [hway]; simp, by rw [hway, hplace₁]⟩
    · exact ⟨by rw [hway]; simp, by rw [hway, hplace₁]⟩
  · cases haim : aimOf h e path createPath with
    | missing => exact Or.inl haim
    | blocked =>
        have hblocked := hpanic .nil
        rw [heq, setSegments_blocked haim] at hblocked
        exact absurd rfl hblocked
    | fresh => exact absurd (Or.inl haim) hobject
    | target o =>
        have ho : ∀ r, o ≠ .map r := by
          rintro r rfl
          exact hobject (Or.inr ⟨r, haim⟩)
        -- nothing is written, so no two values can be at the place
        have hplace : ∀ b, ∃ place, placeOf h e path = some place ∧
            (openRoot h e (rootOf path)).1.locate (openRoot h e (rootOf path)).2.2 place =
              some (.bool b) := by
          intro b
          rcases setSegments_other haim ho (openRoot h e (rootOf path)).2.1 (.bool b) with
            hset | ⟨res, hset⟩
          · have hblocked := hpanic (.bool b)
            rw [heq, hset] at hblocked
            exact absurd rfl hblocked
          · exact hok b _ _ res hset rfl
        obtain ⟨place, hplace₁, htrue⟩ := hplace true
        obtain ⟨place', hplace₂, hfalse⟩ := hplace false
        obtain rfl := Option.some.inj (hplace₁.symm.trans hplace₂)
        exact nomatch htrue.symm.trans hfalse

/-- `SetPathValue` of the metadata as a whole sets them and answers with an error. -/
theorem not_reports_metadata (hopen : e.isSettled t = false)
    (hstart : ¬ (rootOf path = .metadata ∧ e.metadata = none ∧ createPath = false))
    (hpayload : ¬ IsPayload path) (hmetadata : IsMetadata path) :
    ¬ ∀ val, Reports t h e path val createPath := by
  intro hreports
  obtain ⟨r, hr⟩ : ∃ r, e.metadata ≠ some r := by
    by_cases hzero : e.metadata = some 0
    · exact ⟨1, by rw [hzero]; simp⟩
    · exact ⟨0, hzero⟩
  have hrep := hreports (.map r)
  unfold Reports at hrep
  rw [setPathValue_open hopen hstart,
    setPathFrom_metadata hpayload hmetadata ((openRoot_settled h e _).trans hopen)] at hrep
  exact hr hrep.metadata.symm

/-- **When `SetPathValue` reports what it did**, for all values of an event in which no object
contains itself and on which it does not panic.  The condition is enough; in events without
sharing it is exact. -/
theorem reports_iff (hdata : HasData h e)
    (hpanic : ∀ val, (e.setPathValue t h path val createPath).2.2 ≠ .error .panic) :
    (Reporting t h e path createPath → ∀ val, Reports t h e path val createPath) ∧
      (NoSharing h e → (∀ val, Reports t h e path val createPath) →
        Reporting t h e path createPath) := by
  by_cases hsettled : e.isSettled t = true
  · refine ⟨fun _ val => ?_, fun _ _ => Or.inl hsettled⟩
    exact reports_of_error (setPathValue_settled hsettled h path val createPath)
      (unchanged_refl h e)
  have hopen : e.isSettled t = false := Bool.eq_false_iff.mpr hsettled
  by_cases hnone : rootOf path = .metadata ∧ e.metadata = none ∧ createPath = false
  · refine ⟨fun _ val => ?_, fun _ _ => Or.inr (Or.inr (Or.inl hnone))⟩
    obtain ⟨hroot, hmeta, rfl⟩ := hnone
    exact reports_of_error (setPathValue_noMetadata hopen hroot hmeta h val) (unchanged_refl h e)
  by_cases hpayload : IsPayload path
  · refine ⟨fun _ val => ?_, fun _ _ => Or.inr (Or.inl hpayload)⟩
    have hroot := rootOf_payload hpayload
    unfold Reports
    rw [setPathValue_open hopen hnone, hroot]
    rw [setPathFrom_payload hpayload (by exact hopen)]
    refine ⟨[], val, ?_, ?_, rfl⟩
    · exact placeOf_payload hpayload h e
    · rw [hroot]
      rfl
  by_cases hmetadata : IsMetadata path
  · refine ⟨fun hcond => ?_, fun _ hreports => ?_⟩
    · rcases hcond with hcond | hcond | hcond | hcond
      · exact absurd hcond hsettled
      · exact absurd hcond hpayload
      · exact absurd hcond hnone
      · exact absurd hmetadata hcond.1
    · exact absurd hreports (not_reports_metadata hopen hnone hpayload hmetadata)
  by_cases hunknown : IsUnknown path
  · refine ⟨fun _ val => ?_, fun _ _ => Or.inr (Or.inr (Or.inr ⟨hmetadata, Or.inl hunknown⟩))⟩
    have heq := setPathValue_open hopen hnone h val
    rw [setPathFrom_unknown hpayload hmetadata hunknown, rootOf_unknown hmetadata hunknown] at heq
    exact reports_of_error heq (unchanged_refl h e)
  have hbelow : IsBelow path := ⟨hpayload, hmetadata, hunknown⟩
  refine ⟨fun hcond val => ?_, fun hsharing hreports => ?_⟩
  · rcases hcond with hcond | hcond | hcond | ⟨-, hcond | hlands⟩
    · exact absurd hcond hsettled
    · exact absurd hcond hpayload
    · exact absurd hcond hnone
    · exact absurd hcond hunknown
    · exact reports_of_lands hdata hopen hnone hbelow hlands (hpanic val)
  · exact Or.inr (Or.inr (Or.inr ⟨hmetadata, Or.inr (lands_of_reports hdata hsharing hopen hnone
      hbelow (fun b => hreports (.bool b)) hpanic)⟩))

/-- A payload with one text. -/
def textHeap : Heap := Heap.empty.makeMap.1.setKey 0 "a" (.str "x")

/-- `SetPathValue` there. -/
def textWrite (metadata : Option Ref) (path : String) (val : Value) :
    Heap × Event Unit × Except (Stop EventError) (Value × String) :=
  (sampleEvent metadata).setPathValue (AckTree.newAckTree : AckTree Unit) textHeap path val true

theorem getKey_textHeap {r : Ref} {k : String} {u : Value} (hk : textHeap.getKey r k = some u) :
    u = .str "x" := by
  unfold textHeap at hk
  by_cases hentry : r = 0 → k ≠ "a"
  · rw [Heap.getKey_setKey_of_entry hentry] at hk
    simp [Heap.getKey, Heap.makeMap, Heap.empty] at hk
  · rw [Classical.not_imp, not_not] at hentry
    obtain ⟨rfl, rfl⟩ := hentry
    rw [Heap.getKey_setKey_self] at hk
    exact (Option.some.inj hk).symm

/-- The payload is the only object. -/
theorem locate_textHeap {p : List Step} {u : Value} (hu : u.isContainer)
    (hp : textHeap.locate (.map 0) p = some u) : p = [] ∧ u = .map 0 := by
  rcases p with _ | ⟨k | i, p⟩
  · exact ⟨rfl, (Option.some.inj hp).symm⟩
  · cases hk : textHeap.getKey 0 k with
    | none =>
        rw [Heap.locate_cons_of_none ((Heap.step_key _ _ _).trans hk)] at hp
        exact nomatch hp
    | some w =>
        rw [Heap.locate_cons_of_some ((Heap.step_key _ _ _).trans hk), getKey_textHeap hk] at hp
        obtain ⟨-, rfl⟩ := Heap.locate_of_not_container rfl hp
        exact Bool.noConfusion hu
  · exact nomatch hp

theorem hasData_textHeap : HasData textHeap (sampleEvent none) := by
  constructor
  · intro root u hroot p w hp hw
    cases root with
    | payload =>
        obtain rfl := Option.some.inj hroot
        rw [(locate_textHeap hw hp).2]
        exact Nat.zero_lt_one
    | metadata => exact nomatch hroot
  · intro root u hroot p q w hw hp hq
    cases root with
    | payload =>
        obtain rfl := Option.some.inj hroot
        rw [(locate_textHeap hw hp).2] at hq
        exact (locate_textHeap rfl hq).1
    | metadata => exact nomatch hroot

/-- A path that makes an object on its way. -/
theorem reports_iff_sample :
    Reporting (AckTree.newAckTree : AckTree Unit) textHeap (sampleEvent none) "payload.b.c" true ∧
      ∀ val, Reports (AckTree.newAckTree : AckTree Unit) textHeap (sampleEvent none) "payload.b.c"
        val true := by
  have hcond : Reporting (AckTree.newAckTree : AckTree Unit) textHeap (sampleEvent none)
      "payload.b.c" true := by
    refine Or.inr (Or.inr (Or.inr ⟨by unfold IsMetadata; decide, Or.inr (Or.inr ⟨Or.inl ?_, ?_, ?_⟩)⟩))
    · decide +kernel
    · decide +kernel
    · decide +kernel
  refine ⟨hcond, (reports_iff hasData_textHeap fun val => ?_).1 hcond⟩
  have hok : (textWrite none "payload.b.c" val).2.2 = .ok (.map 1, "c") := rfl
  intro hpanic
  exact nomatch hok.symm.trans hpanic

/-- Below a text `SetPathValue` reports success and writes nothing; the metadata as a whole it
sets, and reports an error. -/
theorem setPathValue_misreports :
    ¬ Reports (AckTree.newAckTree : AckTree Unit) textHeap (sampleEvent none) "payload.a.b"
        (.bool true) true ∧
      ¬ Reports (AckTree.newAckTree : AckTree Unit) textHeap (sampleEvent none) "metadata"
        (.map 0) true := by
  constructor
  · intro hrep
    have hset : textWrite none "payload.a.b" (.bool true) =
        (textHeap, sampleEvent none, .ok (.str "x", "b")) := rfl
    unfold Reports at hrep
    rw [show (sampleEvent none).setPathValue (AckTree.newAckTree : AckTree Unit) textHeap
      "payload.a.b" (.bool true) true = _ from hset] at hrep
    obtain ⟨place, u, hplace, hu, hlocate⟩ := hrep
    have hnamed : placeOf textHeap (sampleEvent none) "payload.a.b" =
        some [.key "a", .key "b"] := by decide +kernel
    obtain rfl := Option.some.inj (hnamed.symm.trans hplace)
    obtain rfl : Value.map 0 = u := Option.some.inj hu
    have hnothing : textHeap.locate (.map 0) [.key "a", .key "b"] = none := by decide +kernel
    exact nomatch hnothing.symm.trans hlocate
  · intro hrep
    have hset : textWrite none "metadata" (.map 0) =
        (textHeap.makeMap.1, sampleEvent (some 0), .error (.error (.other "bad metadata"))) := rfl
    unfold Reports at hrep
    rw [show (sampleEvent none).setPathValue (AckTree.newAckTree : AckTree Unit) textHeap
      "metadata" (.map 0) true = _ from hset] at hrep
    exact nomatch hrep.metadata

end Event
