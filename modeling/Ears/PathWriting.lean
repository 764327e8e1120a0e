/-
# Where `SetPathValue` writes

The loop of `SetPathValue` skips empty segments, goes into an object for each segment but the
last, and makes the objects that are missing.  `aim` says from the heap before the call where it
ends: at a value that is there, at an object that it makes, with an error, or with a panic.

The keys it goes through are `way`, and the key it writes to is `lastKey`.
-/
import Ears.PathReading
import Ears.Positions

open GoLib

namespace GoLib.Heap

theorem getKey_setKey_of_entry {h : Heap} {r x : Ref} {k key : String} {v : Value}
    (hne : x = r → key ≠ k) : (h.setKey r k v).getKey x key = h.getKey x key := by
  by_cases hx : x = r
  · rw [hx, getKey_setKey_of_ne (hne hx)]
  · rw [getKey, setKey_maps_of_ne hx, getKey]

/-- An object that is made under a key is empty. -/
theorem getKey_newMap {h : Heap} {r : Ref} (hr : r < h.next) (s k : String) :
    (h.makeMap.1.setKey r s (.map h.next)).getKey h.next k = none := by
  unfold getKey
  rw [setKey_maps_of_ne hr.ne']
  simp [makeMap]

end GoLib.Heap

namespace Event

variable {κ ε : Type} {h h' : Heap} {r : Ref} {obj o parent v : Value} {s k key : String}
  {segments rest : List String} {createPath : Bool} {path : String}

/-! ## The loop -/

/-- The keys that the loop goes through. -/
def way : List String → List String
  | [] => []
  | s :: rest => if s = "" then way rest else if rest = [] then [] else s :: way rest

/-- The key at the end of the loop. -/
def lastKey : List String → String → String
  | [], key => key
  | s :: rest, key => if s = "" then lastKey rest key else lastKey rest s

/-- Where the loop ends: with a panic, with an error, at a value that is there, or at an object
that it makes. -/
inductive Aim where
  | blocked
  | missing
  | target (obj : Value)
  | fresh
  deriving DecidableEq, Repr

/-- The end of the loop, from the heap before it. -/
def aim (h : Heap) (createPath : Bool) : List String → Value → Aim
  | [], obj => .target obj
  | s :: rest, obj =>
      if s = "" then aim h createPath rest obj
      else if rest = [] then .target obj
      else
        match obj with
        | .map r =>
            match h.getKey r s with
            | some child => aim h createPath rest child
            | none => if createPath then .fresh else .missing
        | .nilMap => if createPath then .blocked else .missing
        | _ => .blocked

theorem aim_enter (hs : s ≠ "") (hrest : rest ≠ []) {child : Value}
    (hk : h.getKey r s = some child) :
    aim h createPath (s :: rest) (.map r) = aim h createPath rest child := by
  conv_lhs => unfold aim
  rw [if_neg hs, if_neg hrest]
  dsimp only
  rw [hk]

theorem aim_absent (hs : s ≠ "") (hrest : rest ≠ []) (hk : h.getKey r s = none) :
    aim h createPath (s :: rest) (.map r) = if createPath then .fresh else .missing := by
  unfold aim
  rw [if_neg hs, if_neg hrest]
  dsimp only
  rw [hk]

/-- The loop ends where the keys lead. -/
theorem aim_of_walk (hwalk : h.walk obj (way segments) = some o) (createPath : Bool) :
    aim h createPath segments obj = .target o := by
  induction segments generalizing obj with
  | nil =>
      rw [way, Heap.walk_nil] at hwalk
      rw [aim, Option.some.inj hwalk]
  | cons s rest ih =>
      by_cases hs : s = ""
      · rw [way, if_pos hs] at hwalk
        simp only [aim, if_pos hs]
        exact ih hwalk
      by_cases hrest : rest = []
      · rw [way, if_neg hs, if_pos hrest, Heap.walk_nil] at hwalk
        simp only [aim, if_neg hs, if_pos hrest, Option.some.inj hwalk]
      · rw [way, if_neg hs, if_neg hrest] at hwalk
        cases obj with
        | map r =>
            cases hk : h.getKey r s with
            | none =>
                rw [Heap.walk_cons_of_none hk] at hwalk
                exact nomatch hwalk
            | some child =>
                rw [Heap.walk_cons_of_some hk] at hwalk
                rw [aim_enter hs hrest hk, ih hwalk]
        | _ => exact nomatch hwalk

theorem descend_skip (path : String) (createPath : Bool) (h : Heap) (rest : List String)
    (obj parent : Value) (key : String) :
    descend path createPath h ("" :: rest) obj parent key =
      descend path createPath h rest obj parent key := by
  conv_lhs => unfold descend
  rw [if_pos rfl]

theorem descend_last (hs : s ≠ "") (path : String) (createPath : Bool) (h : Heap)
    (obj parent : Value) (key : String) :
    descend path createPath h [s] obj parent key = (h, .ok (obj, obj, s)) := by
  unfold descend
  rw [if_neg hs, if_pos rfl]

/-- The loop goes into an object. -/
theorem descend_enter (hs : s ≠ "") (hrest : rest ≠ []) {child : Value}
    (hk : h.getKey r s = some child) (path : String) (createPath : Bool) (parent : Value)
    (key : String) :
    descend path createPath h (s :: rest) (.map r) parent key =
      descend path createPath h rest child (.map r) s := by
  conv_lhs => unfold descend
  rw [if_neg hs, if_neg hrest]
  dsimp only
  rw [hk]

/-- The loop makes an object. -/
theorem descend_make (hs : s ≠ "") (hrest : rest ≠ []) (hk : h.getKey r s = none) (path : String)
    (parent : Value) (key : String) :
    descend path true h (s :: rest) (.map r) parent key =
      descend path true (h.makeMap.1.setKey r s (.map h.next)) rest (.map h.next) (.map r) s := by
  conv_lhs => unfold descend
  rw [if_neg hs, if_neg hrest]
  dsimp only
  rw [hk]
  exact if_pos rfl

/-- A value on the way that is no object. -/
theorem descend_of_blocked (haim : aim h createPath segments obj = .blocked) (path : String)
    (parent : Value) (key : String) :
    descend path createPath h segments obj parent key = (h, .error .panic) := by
  fun_induction aim h createPath segments obj generalizing parent key with
  | case2 rest obj ih => rw [descend_skip, ih haim]
  | case4 s rest hs hrest r child hk ih => rw [descend_enter hs hrest hk, ih haim]
  | case7 s rest hs hrest hcreate =>
      unfold descend
      rw [if_neg hs, if_neg hrest]
      exact if_pos hcreate
  | case9 s rest obj hs hrest hmap hnilMap =>
      unfold descend
      rw [if_neg hs, if_neg hrest]
      cases obj with
      | map r => exact absurd rfl (hmap r)
      | nilMap => exact absurd rfl hnilMap
      | _ => rfl
  | _ => simp at haim

/-- An object on the way that is missing and not made. -/
theorem descend_of_missing (haim : aim h createPath segments obj = .missing) (path : String)
    (parent : Value) (key : String) :
    descend path createPath h segments obj parent key =
      (h, .error (.error (.other ("invalid path " ++ path)))) := by
  fun_induction aim h createPath segments obj generalizing parent key with
  | case2 rest obj ih => rw [descend_skip, ih haim]
  | case4 s rest hs hrest r child hk ih => rw [descend_enter hs hrest hk, ih haim]
  | case6 s rest hs hrest r hk hcreate =>
      unfold descend
      rw [if_neg hs, if_neg hrest]
      dsimp only
      rw [hk, if_neg hcreate]
  | case8 s rest hs hrest hcreate =>
      unfold descend
      rw [if_neg hs, if_neg hrest]
      exact if_neg hcreate
  | _ => simp at haim

theorem way_enter (hs : s ≠ "") (hrest : rest ≠ []) : way (s :: rest) = s :: way rest := by
  rw [way, if_neg hs, if_neg hrest]

theorem lastKey_enter (hs : s ≠ "") : lastKey (s :: rest) key = lastKey rest s := by
  rw [lastKey, if_neg hs]

/-- The loop ends at a value that is there. -/
theorem descend_of_target (haim : aim h createPath segments obj = .target o) (path : String)
    (parent : Value) (key : String) :
    h.walk obj (way segments) = some o ∧
      ∃ parent', descend path createPath h segments obj parent key =
        (h, .ok (o, parent', lastKey segments key)) := by
  fun_induction aim h createPath segments obj generalizing parent key with
  | case1 obj =>
      obtain rfl := Aim.target.inj haim
      exact ⟨Heap.walk_nil h obj, parent, rfl⟩
  | case2 rest obj ih =>
      rw [descend_skip]
      exact ih haim parent key
  | case3 s obj hs =>
      obtain rfl := Aim.target.inj haim
      rw [descend_last hs, way, if_neg hs, if_pos rfl, lastKey_enter hs]
      exact ⟨Heap.walk_nil h obj, obj, rfl⟩
  | case4 s rest hs hrest r child hk ih =>
      rw [descend_enter hs hrest hk, way_enter hs hrest, lastKey_enter hs,
        Heap.walk_cons_of_some hk]
      exact ih haim _ _
  | _ => simp at haim

/-- What is known of an object that the loop made: it is new and empty, the entries that were
there still are, and the keys lead to it, whatever is written to it. -/
structure Made (h : Heap) (obj : Value) (keys : List String) (h' : Heap) (m : Ref) : Prop where
  isNew : h.next ≤ m
  allocated : m < h'.next
  empty : ∀ key, h'.getKey m key = none
  slices : h'.slices = h.slices
  kept : ∀ x key u, x < h.next → h.getKey x key = some u → h'.getKey x key = some u
  leads : ∀ h'' : Heap, (∀ x, x ≠ m → h''.maps x = h'.maps x) → h''.walk obj keys = some (.map m)

/-- Below a new object the loop makes all objects. -/
theorem descend_empty (path : String) (segments : List String) (h : Heap) (m : Ref)
    (hm : m < h.next) (hempty : ∀ key, h.getKey m key = none) (parent : Value) (key : String) :
    ∃ h' m' parent', descend path true h segments (.map m) parent key =
        (h', .ok (.map m', parent', lastKey segments key)) ∧
      m ≤ m' ∧ m' < h'.next ∧ (∀ key, h'.getKey m' key = none) ∧ h'.slices = h.slices ∧
      (∀ x, x < m → h'.maps x = h.maps x) ∧
      ∀ h'' : Heap, (∀ x, x ≠ m' → h''.maps x = h'.maps x) →
        h''.walk (.map m) (way segments) = some (.map m') := by
  induction segments generalizing h m parent key with
  | nil => exact ⟨h, m, parent, rfl, le_rfl, hm, hempty, rfl, fun _ _ => rfl, fun h'' _ => rfl⟩
  | cons s rest ih =>
      by_cases hs : s = ""
      · subst hs
        rw [descend_skip]
        exact ih h m hm hempty parent key
      by_cases hrest : rest = []
      · subst hrest
        rw [descend_last hs, way, if_neg hs, if_pos rfl, lastKey_enter hs]
        exact ⟨h, m, .map m, rfl, le_rfl, hm, hempty, rfl, fun _ _ => rfl,
          fun h'' _ => Heap.walk_nil h'' _⟩
      · rw [descend_make hs hrest (hempty s), way_enter hs hrest, lastKey_enter hs]
        obtain ⟨h', m', parent', hdesc, hle, halloc', hempty', hslices, hbelow, hleads⟩ :=
          ih (h.makeMap.1.setKey m s (.map h.next)) h.next (Nat.lt_succ_self _)
            (Heap.getKey_newMap hm s) (.map m) s
        refine ⟨h', m', parent', hdesc, hm.le.trans hle, halloc', hempty', hslices, fun x hx => ?_,
          fun h'' hmaps => ?_⟩
        · rw [hbelow x (hx.trans hm), Heap.setKey_maps_of_ne hx.ne,
            Heap.makeMap_maps_of_ne (hx.trans hm).ne]
        · have hkey : h''.getKey m s = some (.map h.next) := by
            unfold Heap.getKey
            rw [hmaps m (hm.trans_le hle).ne, hbelow m hm]
            exact Heap.getKey_setKey_self _ _ _ _
          rw [Heap.walk_cons_of_some hkey]
          exact hleads h'' hmaps

/-- The loop ends at an object that it makes. -/
theorem descend_of_fresh (haim : aim h createPath segments obj = .fresh)
    (halloc : h.AllocatedBelow obj) (path : String) (parent : Value)
    (key : String) :
    createPath = true ∧ ∃ h' m parent', descend path createPath h segments obj parent key =
        (h', .ok (.map m, parent', lastKey segments key)) ∧ Made h obj (way segments) h' m := by
  fun_induction aim h createPath segments obj generalizing parent key with
  | case2 rest obj ih =>
      rw [descend_skip]
      exact ih haim halloc parent key
  | case4 s rest hs hrest r child hk ih =>
      obtain ⟨hcreate, h', m, parent', hdesc, hmade⟩ :=
        ih haim (halloc.of_step ((Heap.step_key h r s).trans hk)) (.map r) s
      rw [descend_enter hs hrest hk, way_enter hs hrest, lastKey_enter hs]
      refine ⟨hcreate, h', m, parent', hdesc, { hmade with leads := fun h'' hmaps => ?_ }⟩
      have hr : r < h.next := halloc [] (.map r) rfl rfl
      have hkey : h''.getKey r s = some child := by
        unfold Heap.getKey
        rw [hmaps r (hr.trans_le hmade.isNew).ne]
        exact hmade.kept r s child hr hk
      rw [Heap.walk_cons_of_some hkey]
      exact hmade.leads h'' hmaps
  | case5 s rest hs hrest r hk hcreate =>
      subst hcreate
      have hr : r < h.next := halloc [] (.map r) rfl rfl
      rw [descend_make hs hrest hk, way_enter hs hrest, lastKey_enter hs]
      obtain ⟨h', m, parent', hdesc, hle, halloc', hempty, hslices, hbelow, hleads⟩ :=
        descend_empty path rest (h.makeMap.1.setKey r s (.map h.next)) h.next
          (Nat.lt_succ_self _) (Heap.getKey_newMap hr s) (.map r) s
      refine ⟨rfl, h', m, parent', hdesc, hle, halloc', hempty, hslices, fun x key u hx hu => ?_,
        fun h'' hmaps => ?_⟩
      · -- the entry that was made was not there
        have hne : x = r → key ≠ s := by
          rintro rfl rfl
          rw [hk] at hu
          exact nomatch hu
        have hmake : h.makeMap.1.getKey x key = some u := by
          unfold Heap.getKey
          rw [Heap.makeMap_maps_of_ne hx.ne]
          exact hu
        unfold Heap.getKey
        rw [hbelow x hx]
        exact (Heap.getKey_setKey_of_entry hne).trans hmake
      have hkey : h''.getKey r s = some (.map h.next) := by
        unfold Heap.getKey
        rw [hmaps r (hr.trans_le hle).ne, hbelow r hr]
        exact Heap.getKey_setKey_self _ _ _ _
      rw [Heap.walk_cons_of_some hkey]
      exact hleads h'' hmaps
  | _ => simp at haim

/-! ## The write -/

/-- Where a key says to write: nowhere, because the brackets are the wrong way round or because
the index is negative, to an entry, or to an element of the array under a name. -/
inductive Slot where
  | panics
  | nothing
  | entry (key : String)
  | element (name : String) (idx : ℕ)
  deriving DecidableEq, Repr

/-- What `SetPathValue` reads off its last key. -/
def slotOf (key : String) : Slot :=
  if contains key '[' && contains key ']' then
    match indexedKey key with
    | (_, none) => .panics
    | (name, some text) =>
        if 0 ≤ (atoi text).1 then .element name (atoi text).1.toNat else .nothing
  else .entry key

/-- The steps from the object to the place that is written. -/
def Slot.steps : Slot → Option (List Step)
  | .panics => none
  | .nothing => none
  | .entry key => some [.key key]
  | .element name idx => some [.key name, .index idx]

/-- The array under a name can be written at an index: it is made, it has the element, or it is
made longer by one. -/
inductive Writable (h : Heap) (idx : ℕ) (createPath : Bool) : Value → Prop
  | made (hcreate : createPath = true) (hlen : idx + 1 ≤ Heap.maxSliceLen) :
      Writable h idx createPath .nil
  | element (a : Ref) (hidx : idx < (h.slices a).length) : Writable h idx createPath (.slice a)
  | longer (a : Ref) (hidx : idx = (h.slices a).length) (hlen : idx + 1 ≤ Heap.maxSliceLen) :
      Writable h idx createPath (.slice a)

variable {name : String} {idx : ℕ} {val : Value} {a : Ref}

/-- The array is made. -/
theorem setElement_made (hu : (h.getKey r name).getD .nil = .nil)
    (hlen : idx + 1 ≤ Heap.maxSliceLen) (val : Value) :
    setElement h r name idx val true =
      (((h.makeSlice (List.replicate (idx + 1) .nil)).1.setKey r name (.slice h.next)).setIndex
        h.next idx val, .ok ()) := by
  have hslice : (h.makeSlice (List.replicate (idx + 1) .nil)).1.slices h.next =
      List.replicate (idx + 1) .nil := Function.update_self _ _ _
  unfold setElement
  dsimp only
  rw [if_neg (fun hbig => absurd hbig.2.2 (by omega)), if_pos ⟨hu, rfl⟩,
    Heap.getKey_setKey_self]
  refine if_pos ?_
  change idx < ((h.makeSlice (List.replicate (idx + 1) .nil)).1.slices h.next).length
  rw [hslice, List.length_replicate]
  exact Nat.lt_succ_self idx

/-- The element is there. -/
theorem setElement_element (hk : h.getKey r name = some (.slice a))
    (hidx : idx < (h.slices a).length) (val : Value) (createPath : Bool) :
    setElement h r name idx val createPath = (h.setIndex a idx val, .ok ()) := by
  have hu : ¬ ((h.getKey r name).getD .nil = .nil ∧ createPath = true) := by
    rw [hk]
    simp
  unfold setElement
  dsimp only
  rw [if_neg (fun hbig => hu ⟨hbig.1, hbig.2.1⟩), if_neg hu, hk]
  exact if_pos hidx

/-- The array is made longer. -/
theorem setElement_longer (hk : h.getKey r name = some (.slice a))
    (hidx : idx = (h.slices a).length) (hlen : idx + 1 ≤ Heap.maxSliceLen) (val : Value)
    (createPath : Bool) :
    setElement h r name idx val createPath =
      ((h.makeSlice (h.slices a ++ [val])).1.setKey r name (.slice h.next), .ok ()) := by
  have hu : ¬ ((h.getKey r name).getD .nil = .nil ∧ createPath = true) := by
    rw [hk]
    simp
  unfold setElement
  dsimp only
  rw [if_neg (fun hbig => hu ⟨hbig.1, hbig.2.1⟩), if_neg hu, hk]
  dsimp only
  rw [if_neg (by omega), if_neg (by omega), hidx, List.take_length]
  rfl

/-- Everything else is a panic. -/
theorem setElement_panic (hu : ¬ Writable h idx createPath ((h.getKey r name).getD .nil))
    (val : Value) : (setElement h r name idx val createPath).2 = .error .panic := by
  unfold setElement
  dsimp only
  split
  · rfl
  rename_i hbig
  by_cases hnil : (h.getKey r name).getD .nil = .nil
  · rw [hnil] at hu
    have hcreate : createPath = false := by
      by_contra hne
      rw [Bool.not_eq_false] at hne
      exact hu (.made hne (not_lt.mp fun hlt => hbig ⟨hnil, hne, hlt⟩))
    rw [if_neg (fun hand => absurd hand.2 (by rw [hcreate]; simp))]
    cases hk : h.getKey r name with
    | none => rfl
    | some u =>
        rw [hk, Option.getD_some] at hnil
        rw [hnil]
  · rw [if_neg (fun hand => hnil hand.1)]
    cases hk : h.getKey r name with
    | none => rfl
    | some u =>
        rw [hk, Option.getD_some] at hu
        cases u with
        | slice a =>
            have hle : (h.slices a).length ≤ idx := not_lt.mp fun hlt => hu (.element a hlt)
            have hlong : Heap.maxSliceLen < idx + 1 ∨ (h.slices a).length < idx := by
              by_contra hboth
              rw [not_or, not_lt, not_lt] at hboth
              exact hu (.longer a (le_antisymm hboth.2 hle) hboth.1)
            dsimp only
            rw [if_neg (not_lt.mpr hle), if_pos hlong]
        | _ => rfl

/-- A write to a place of an object. -/
def writeSlot (h : Heap) (r : Ref) (val : Value) (createPath : Bool) :
    Slot → Heap × Except (Stop EventError) Unit
  | .panics => (h, .error .panic)
  | .nothing => (h, .ok ())
  | .entry key => (h.setKey r key val, .ok ())
  | .element name idx => setElement h r name idx val createPath

/-- `assign` writes to the place that the key says. -/
theorem assign_map (h : Heap) (r : Ref) (key : String) (val : Value) (createPath : Bool) :
    ∃ k, assign h (.map r) key val createPath =
      ((writeSlot h r val createPath (slotOf key)).1,
        (writeSlot h r val createPath (slotOf key)).2.map fun _ => k) := by
  unfold assign slotOf
  by_cases hbrackets : (contains key '[' && contains key ']') = true
  · simp only [if_pos hbrackets]
    rcases indexedKey key with ⟨name, _ | text⟩
    · exact ⟨name, rfl⟩
    · refine ⟨name, ?_⟩
      dsimp only
      by_cases hidx : 0 ≤ (atoi text).1
      · rw [if_pos hidx, if_pos hidx]
        dsimp only [writeSlot]
        rcases setElement h r name (atoi text).1.toNat val createPath with ⟨h', stop | ⟨⟩⟩
        · rfl
        · rfl
      · rw [if_neg hidx, if_neg hidx]
        rfl
  · simp only [if_neg hbrackets]
    exact ⟨key, rfl⟩

/-- `assign` leaves what is no object alone. -/
theorem assign_other {obj : Value} (hmap : ∀ r, obj ≠ .map r) (hnil : obj ≠ .nilMap) (h : Heap)
    (key : String) (val : Value) (createPath : Bool) :
    assign h obj key val createPath = (h, .ok key) := by
  cases obj with
  | map r => exact absurd rfl (hmap r)
  | nilMap => exact absurd rfl hnil
  | _ => rfl

/-- `assign` to a map that was never made. -/
theorem assign_nilMap (h : Heap) (key : String) (val : Value) (createPath : Bool) :
    slotOf key = .nothing ∧ (∃ k, assign h .nilMap key val createPath = (h, .ok k)) ∨
      slotOf key ≠ .nothing ∧ assign h .nilMap key val createPath = (h, .error .panic) := by
  unfold assign slotOf
  by_cases hbrackets : (contains key '[' && contains key ']') = true
  · simp only [if_pos hbrackets]
    rcases indexedKey key with ⟨name, _ | text⟩
    · exact Or.inr ⟨by simp, rfl⟩
    · dsimp only
      by_cases hidx : 0 ≤ (atoi text).1
      · rw [if_pos hidx, if_pos hidx]
        exact Or.inr ⟨by simp, rfl⟩
      · rw [if_neg hidx, if_neg hidx]
        exact Or.inl (And.intro rfl (Exists.intro name rfl))
  · simp only [if_neg hbrackets]
    exact Or.inr ⟨by simp, trivial⟩

/-- A write that succeeds was possible. -/
theorem Writable.of_ok (hset : setElement h r name idx val createPath = (h', .ok ())) :
    Writable h idx createPath ((h.getKey r name).getD .nil) := by
  by_contra hu
  have hpanic := setElement_panic hu val
  rw [hset] at hpanic
  exact nomatch hpanic

/-! ## What a write changes -/

section Effect

variable {h' : Heap} {π σ : List Step} {steps : List Step} {slot : Slot} {createPath : Bool}
  {name : String} {idx : ℕ} {val : Value} {a : Ref}

theorem writes_setKey (h : Heap) (r : Ref) (k : String) (v : Value) :
    h.Writes (.map r) (.key k) v (h.setKey r k v) where
  container := rfl
  written := Heap.getKey_setKey_self h r k v
  frame := by
    intro u s' hu _ hne
    cases u with
    | map x =>
        cases s' with
        | key k' =>
            refine Heap.getKey_setKey_of_entry fun hx hk => ?_
            exact hne (by rw [hx]) (by rw [hk])
        | index i => rfl
    | slice a => cases s' <;> rfl
    | _ => exact Bool.noConfusion hu

theorem writes_setIndex (hidx : idx < (h.slices a).length) (v : Value) :
    h.Writes (.slice a) (.index idx) v (h.setIndex a idx v) where
  container := rfl
  written := by
    simp [Heap.setIndex, hidx]
  frame := by
    intro u s' hu _ hne
    cases u with
    | map x => cases s' <;> rfl
    | slice x =>
        cases s' with
        | key k' => rfl
        | index i =>
            by_cases hx : x = a
            · subst hx
              have hi : idx ≠ i := fun heq => hne rfl (by rw [heq])
              simp [Heap.setIndex, List.getElem?_set_ne hi]
            · simp [Heap.setIndex, Function.update_of_ne hx]
    | _ => exact Bool.noConfusion hu

/-- A new array under a key. -/
theorem writes_newSlice {k : String} {vs : List Value}
    (hmaps : h'.maps = (h.setKey r k (.slice h.next)).maps)
    (hslices : h'.slices = Function.update h.slices h.next vs) :
    h.Writes (.map r) (.key k) (.slice h.next) h' where
  container := rfl
  written := by
    rw [Heap.step_key, Heap.getKey, hmaps]
    exact Heap.getKey_setKey_self h r k _
  frame := by
    intro u s' hu halloc hne
    cases u with
    | map x =>
        have hframe := (writes_setKey h r k (.slice h.next)).frame (.map x) s' hu halloc hne
        cases s' with
        | key k' =>
            rw [Heap.step_key, Heap.getKey, hmaps]
            exact hframe
        | index i => rfl
    | slice x =>
        cases s' with
        | key k' => rfl
        | index i =>
            rw [Heap.step_index, hslices, Function.update_of_ne (ne_of_lt (show x < h.next from halloc))]
            rfl
    | _ => exact Bool.noConfusion hu

/-- What `setElement` does to an array that can be written. -/
theorem setElement_writes (hu : Writable h idx createPath ((h.getKey r name).getD .nil))
    (val : Value) :
    ∃ h', setElement h r name idx val createPath = (h', .ok ()) ∧
      (∀ x, x ≠ r → h'.maps x = h.maps x) ∧
      ((∃ a, h.getKey r name = some (.slice a) ∧ idx < (h.slices a).length ∧
          h.Writes (.slice a) (.index idx) val h') ∨
        ∃ front, front.length = idx ∧ h'.slices h.next = front ++ [val] ∧
          h.Writes (.map r) (.key name) (.slice h.next) h' ∧
          ((∀ u ∈ front, u = .nil) ∨ ∃ a, h.getKey r name = some (.slice a) ∧ front = h.slices a)) := by
  have hkey : ∀ a, (h.getKey r name).getD .nil = .slice a → h.getKey r name = some (.slice a) := by
    intro a ha
    cases hk : h.getKey r name with
    | none =>
        rw [hk] at ha
        exact nomatch ha
    | some u =>
        rw [hk, Option.getD_some] at ha
        rw [ha]
  generalize hv : (h.getKey r name).getD .nil = v at hu
  cases hu with
  | made hcreate hlen =>
      subst hcreate
      have hset : (List.replicate (idx + 1) Value.nil).set idx val =
          List.replicate idx .nil ++ [val] := by
        rw [List.replicate_succ', List.set_append_right _ _ (by simp)]
        simp
      refine ⟨_, setElement_made hv hlen val, fun x hx => Heap.setKey_maps_of_ne hx,
        Or.inr ⟨List.replicate idx .nil,
        List.length_replicate, ?_, ?_, Or.inl fun u hu => List.eq_of_mem_replicate hu⟩⟩
      · simp [Heap.setIndex, Heap.setKey, Heap.makeSlice, hset]
      · have hslices : (((h.makeSlice (List.replicate (idx + 1) .nil)).1.setKey r name
            (.slice h.next)).setIndex h.next idx val).slices =
            Function.update h.slices h.next (List.replicate idx .nil ++ [val]) := by
          simp [Heap.setIndex, Heap.setKey, Heap.makeSlice, hset]
        exact writes_newSlice rfl hslices
  | element a hidx =>
      have hk := hkey a hv
      exact ⟨_, setElement_element hk hidx val createPath, fun x _ => rfl,
        Or.inl ⟨a, hk, hidx, writes_setIndex hidx val⟩⟩
  | longer a hidx hlen =>
      have hk := hkey a hv
      refine ⟨_, setElement_longer hk hidx hlen val createPath,
        fun x hx => Heap.setKey_maps_of_ne hx,
        Or.inr ⟨h.slices a, hidx.symm, ?_, writes_newSlice rfl rfl, Or.inr ⟨a, hk, rfl⟩⟩⟩
      exact Function.update_self _ _ _

variable {v : Value}

/-- What is written is found at the place. -/
theorem writeSlot_located (halloc : h.AllocatedBelow v) (hacyclic : h.Acyclic v)
    (hr : h.locate v π = some (.map r)) (hsteps : slot.steps = some steps)
    (hwrite : writeSlot h r val createPath slot = (h', .ok ())) :
    h'.locate v (π ++ steps) = some val := by
  cases slot with
  | panics => exact nomatch hsteps
  | nothing => exact nomatch hsteps
  | entry k =>
      obtain rfl := Option.some.inj hsteps
      obtain ⟨rfl, -⟩ := Prod.mk.inj hwrite
      exact (writes_setKey h r k val).locate_written halloc hacyclic hr []
  | element name idx =>
      obtain rfl := Option.some.inj hsteps
      obtain ⟨h₁, hset, -, hcases⟩ := setElement_writes (Writable.of_ok hwrite) val
      obtain ⟨rfl, -⟩ := Prod.mk.inj (hset.symm.trans hwrite)
      rcases hcases with ⟨a, hk, hidx, hw⟩ | ⟨front, hfront, hslice, hw, -⟩
      · have ha : h.locate v (π ++ [.key name]) = some (.slice a) := by
          rw [Heap.locate_append_of_some hr, Heap.locate_singleton, Heap.step_key, hk]
        have hfound := hw.locate_written halloc hacyclic ha []
        rwa [List.append_assoc] at hfound
      · rw [hw.locate_written halloc hacyclic hr, Heap.locate_singleton, Heap.step_index, hslice,
          ← hfront]
        exact List.getElem?_concat_length

/-- A write of a boolean to one entry. -/
theorem Writes.bool_only {c : Value} {s : Step} {b : Bool} (hw : h.Writes c s (.bool b) h')
    (halloc : h.AllocatedBelow v) (hunshared : h.Unshared v) (hc : h.locate v π = some c)
    (hσ : h'.locate v σ = some (.bool b)) : h.locate v σ = some (.bool b) ∨ π ++ [s] = σ := by
  by_cases hpre : π ++ [s] <+: σ
  · obtain ⟨rest, rfl⟩ := hpre
    rw [List.append_assoc, List.singleton_append,
      hw.locate_written halloc hunshared.acyclic hc] at hσ
    -- below a boolean there is nothing
    obtain ⟨rfl, -⟩ := Heap.locate_of_not_container rfl hσ
    exact Or.inr (List.append_nil _).symm
  · rw [hw.locate_elsewhere halloc hunshared hc hpre] at hσ
    exact Or.inl hσ

/-- The other objects are as they were. -/
theorem writeSlot_maps (hwrite : writeSlot h r val createPath slot = (h', .ok ())) {x : Ref}
    (hx : x ≠ r) : h'.maps x = h.maps x := by
  cases slot with
  | panics => exact nomatch (Prod.mk.inj hwrite).2
  | nothing =>
      obtain ⟨rfl, -⟩ := Prod.mk.inj hwrite
      rfl
  | entry k =>
      obtain ⟨rfl, -⟩ := Prod.mk.inj hwrite
      exact Heap.setKey_maps_of_ne hx
  | element name idx =>
      obtain ⟨h₁, hset, hmaps, -⟩ := setElement_writes (Writable.of_ok hwrite) val
      obtain ⟨rfl, -⟩ := Prod.mk.inj (hset.symm.trans hwrite)
      exact hmaps x hx

/-- A boolean at the end of a new array, whose other elements are nil or those of the array that
was under the name. -/
theorem newSlice_only {b : Bool} {front : List Value} {n : Ref}
    (hw : h.Writes (.map r) (.key name) (.slice n) h')
    (hslice : h'.slices n = front ++ [.bool b])
    (hold : (∀ u ∈ front, u = .nil) ∨ ∃ a, h.getKey r name = some (.slice a) ∧ front = h.slices a)
    (halloc : h.AllocatedBelow v) (hunshared : h.Unshared v) (hr : h.locate v π = some (.map r))
    (hσ : h'.locate v σ = some (.bool b)) :
    h.locate v σ = some (.bool b) ∨ π ++ [.key name, .index front.length] = σ := by
  by_cases hpre : π ++ [.key name] <+: σ
  swap
  · rw [hw.locate_elsewhere halloc hunshared hr hpre] at hσ
    exact Or.inl hσ
  obtain ⟨rest, rfl⟩ := hpre
  rw [List.append_assoc, List.singleton_append] at hσ ⊢
  rw [hw.locate_written halloc hunshared.acyclic hr] at hσ
  -- the position goes on into the new array
  rcases rest with _ | ⟨_ | j, rest⟩
  · exact nomatch hσ
  · exact nomatch hσ
  cases hj : (front ++ [Value.bool b])[j]? with
  | none =>
      rw [Heap.locate_cons_of_none (by rw [Heap.step_index, hslice, hj])] at hσ
      exact nomatch hσ
  | some u =>
      rw [Heap.locate_cons_of_some (by rw [Heap.step_index, hslice, hj])] at hσ
      rcases lt_trichotomy j front.length with hlt | rfl | hgt
      · rw [List.getElem?_append_left hlt] at hj
        rcases hold with hnil | ⟨a, hk, rfl⟩
        · rw [hnil u (List.mem_of_getElem? hj)] at hσ
          exact nomatch (Heap.locate_of_not_container rfl hσ).2
        · -- an element that was there before is as it was
          have hu : h.locate v (π ++ [.key name, .index j]) = some u := by
            rw [Heap.locate_append_of_some hr,
              Heap.locate_cons_of_some ((Heap.step_key h r name).trans hk),
              Heap.locate_singleton, Heap.step_index, hj]
          have hbelow : h'.locate u rest = h.locate u rest := by
            refine hw.locate_off (halloc.of_locate hu) fun q _ hq => ?_
            have hback : h.locate v (π ++ [.key name, .index j] ++ q) = some (.map r) := by
              rw [Heap.locate_append_of_some hu, hq]
            simpa using hunshared _ _ _ rfl hback hr
          refine Or.inl ?_
          rw [show π ++ Step.key name :: .index j :: rest =
            π ++ [.key name, .index j] ++ rest by simp, Heap.locate_append_of_some hu,
            ← hbelow, hσ]
      · rw [List.getElem?_concat_length, Option.some.injEq] at hj
        subst hj
        obtain ⟨rfl, -⟩ := Heap.locate_of_not_container rfl hσ
        exact Or.inr rfl
      · rw [List.getElem?_eq_none (by rw [List.length_append, List.length_singleton]; omega)] at hj
        exact nomatch hj

/-- A boolean that is written is found at the place and nowhere else. -/
theorem writeSlot_only {b : Bool} (halloc : h.AllocatedBelow v) (hunshared : h.Unshared v)
    (hr : h.locate v π = some (.map r))
    (hwrite : writeSlot h r (.bool b) createPath slot = (h', .ok ()))
    (hσ : h'.locate v σ = some (.bool b)) :
    h.locate v σ = some (.bool b) ∨ slot.steps.map (π ++ ·) = some σ := by
  cases slot with
  | panics => exact nomatch (Prod.mk.inj hwrite).2
  | nothing =>
      obtain ⟨rfl, -⟩ := Prod.mk.inj hwrite
      exact Or.inl hσ
  | entry k =>
      obtain ⟨rfl, -⟩ := Prod.mk.inj hwrite
      exact (Writes.bool_only (writes_setKey h r k _) halloc hunshared hr hσ).imp_right
        (congrArg some)
  | element name idx =>
      obtain ⟨h₁, hset, -, hcases⟩ := setElement_writes (Writable.of_ok hwrite) (.bool b)
      obtain ⟨rfl, -⟩ := Prod.mk.inj (hset.symm.trans hwrite)
      rcases hcases with ⟨a, hk, hidx, hw⟩ | ⟨front, hfront, hslice, hw, hold⟩
      · have ha : h.locate v (π ++ [.key name]) = some (.slice a) := by
          rw [Heap.locate_append_of_some hr, Heap.locate_singleton, Heap.step_key, hk]
        rcases Writes.bool_only hw halloc hunshared ha hσ with hbefore | hplace
        · exact Or.inl hbefore
        · rw [List.append_assoc] at hplace
          exact Or.inr (congrArg some hplace)
      · rw [← hfront]
        exact (newSlice_only hw hslice hold halloc hunshared hr hσ).imp_right (congrArg some)

/-- Where there was something at the place, the other positions keep what they had. -/
theorem writeSlot_frame (halloc : h.AllocatedBelow v) (hunshared : h.Unshared v)
    (hr : h.locate v π = some (.map r)) (hsteps : slot.steps = some steps)
    (hthere : h.locate v (π ++ steps) ≠ none)
    (hwrite : writeSlot h r val createPath slot = (h', .ok ())) (hσ : ¬ π ++ steps <+: σ) :
    h'.locate v σ = h.locate v σ := by
  cases slot with
  | panics => exact nomatch hsteps
  | nothing => exact nomatch hsteps
  | entry k =>
      obtain rfl := Option.some.inj hsteps
      obtain ⟨rfl, -⟩ := Prod.mk.inj hwrite
      exact (writes_setKey h r k val).locate_elsewhere halloc hunshared hr hσ
  | element name idx =>
      obtain rfl := Option.some.inj hsteps
      rw [Heap.locate_append_of_some hr] at hthere
      -- the element is there, so it is overwritten in place
      obtain ⟨a, hk, hidx⟩ : ∃ a, h.getKey r name = some (.slice a) ∧ idx < (h.slices a).length := by
        cases hk : h.getKey r name with
        | none =>
            rw [Heap.locate_cons_of_none ((Heap.step_key h r name).trans hk)] at hthere
            exact absurd rfl hthere
        | some u =>
            rw [Heap.locate_cons_of_some ((Heap.step_key h r name).trans hk),
              Heap.locate_singleton] at hthere
            cases u with
            | slice a =>
                refine ⟨a, rfl, ?_⟩
                by_contra hlen
                exact hthere (List.getElem?_eq_none (not_lt.mp hlen))
            | _ => exact absurd rfl hthere
      obtain ⟨rfl, -⟩ := Prod.mk.inj ((setElement_element hk hidx val createPath).symm.trans hwrite)
      have ha : h.locate v (π ++ [.key name]) = some (.slice a) := by
        rw [Heap.locate_append_of_some hr, Heap.locate_singleton, Heap.step_key, hk]
      refine (writes_setIndex hidx val).locate_elsewhere halloc hunshared ha ?_
      rwa [List.append_assoc]

/-! ## The loop in data without sharing -/

/-- An object that is made under a new key. -/
theorem writes_newMap (h : Heap) (r : Ref) (s : String) :
    h.Writes (.map r) (.key s) (.map h.next) (h.makeMap.1.setKey r s (.map h.next)) where
  container := rfl
  written := Heap.getKey_setKey_self _ r s _
  frame := by
    intro u s' hu halloc hne
    have hset := (writes_setKey h.makeMap.1 r s (.map h.next)).frame u s' hu
      (halloc.trans (Nat.lt_succ_self _)) hne
    rw [hset]
    cases u with
    | map x =>
        cases s' with
        | key k =>
            rw [Heap.step_key, Heap.step_key, Heap.getKey, Heap.getKey,
              Heap.makeMap_maps_of_ne (ne_of_lt (show x < h.next from halloc))]
        | index i => rfl
    | slice a => cases s' <;> rfl
    | _ => exact Bool.noConfusion hu

/-- What is found after it is made: the object at its place, and what was there before. -/
theorem locate_newMap (halloc : h.AllocatedBelow v) (hunshared : h.Unshared v)
    (hr : h.locate v π = some (.map r)) {u : Value}
    (hσ : (h.makeMap.1.setKey r s (.map h.next)).locate v σ = some u) :
    σ = π ++ [.key s] ∧ u = .map h.next ∨ h.locate v σ = some u := by
  have hr' : r < h.next := halloc π (.map r) hr rfl
  have hw := writes_newMap h r s
  by_cases hpre : π ++ [.key s] <+: σ
  · obtain ⟨rest, rfl⟩ := hpre
    rw [List.append_assoc, List.singleton_append,
      hw.locate_written halloc hunshared.acyclic hr] at hσ
    rcases rest with _ | ⟨k | i, rest⟩
    · exact Or.inl ⟨List.append_nil _, (Option.some.inj hσ).symm⟩
    · rw [Heap.locate_cons_of_none ((Heap.step_key _ _ _).trans (Heap.getKey_newMap hr' s k))] at hσ
      exact nomatch hσ
    · exact nomatch hσ
  · rw [hw.locate_elsewhere halloc hunshared hr hpre] at hσ
    exact Or.inr hσ

/-- Data without sharing, in which the keys of the loop lead to an object. -/
structure Reached (h : Heap) (v : Value) (π : List Step) (r : Ref) : Prop where
  allocated : h.AllocatedBelow v
  unshared : h.Unshared v
  here : h.locate v π = some (.map r)

theorem Reached.newMap (hr : Reached h v π r) (s : String) :
    Reached (h.makeMap.1.setKey r s (.map h.next)) v (π ++ [.key s]) h.next := by
  have hcases := fun σ u => locate_newMap (σ := σ) (u := u) (s := s) hr.allocated hr.unshared hr.here
  constructor
  · intro p u hp hu
    rcases hcases p u hp with ⟨-, rfl⟩ | hbefore
    · exact Nat.lt_succ_self _
    · exact (hr.allocated p u hbefore hu).trans (Nat.lt_succ_self _)
  · intro p q u hu hp hq
    rcases hcases p u hp with ⟨rfl, rfl⟩ | hp
    · rcases hcases q _ hq with ⟨rfl, -⟩ | hq
      · rfl
      · exact absurd (hr.allocated q _ hq rfl) (lt_irrefl _)
    · rcases hcases q u hq with ⟨-, rfl⟩ | hq
      · exact absurd (hr.allocated p _ hp rfl) (lt_irrefl _)
      · exact hr.unshared p q u hu hp hq
  · exact (writes_newMap h r s).locate_written hr.allocated hr.unshared.acyclic hr.here []

/-- From an empty object the loop goes on to an object. -/
theorem aim_empty (hempty : ∀ key, h.getKey r key = none) (segments : List String) :
    aim h true segments (.map r) = .fresh ∨ ∃ x, aim h true segments (.map r) = .target (.map x) := by
  induction segments with
  | nil => exact Or.inr ⟨r, rfl⟩
  | cons s rest ih =>
      by_cases hs : s = ""
      · simp only [aim, if_pos hs]
        exact ih
      by_cases hrest : rest = []
      · simp only [aim, if_neg hs, if_pos hrest]
        exact Or.inr ⟨r, rfl⟩
      · exact Or.inl (by rw [aim_absent hs hrest (hempty s), if_pos rfl])

/-- The loop ends at an object, and no boolean is new. -/
theorem descend_reached (hobj : h.locate v π = some obj)
    (halloc : h.AllocatedBelow v) (hunshared : h.Unshared v)
    (haim : aim h createPath segments obj = .fresh ∨
      ∃ r, aim h createPath segments obj = .target (.map r)) (path : String) (parent : Value)
    (key : String) :
    ∃ h' m parent', descend path createPath h segments obj parent key =
        (h', .ok (.map m, parent', lastKey segments key)) ∧
      Reached h' v (π ++ (way segments).map .key) m ∧
      ∀ σ b, h'.locate v σ = some (.bool b) → h.locate v σ = some (.bool b) := by
  induction segments generalizing h obj π parent key with
  | nil =>
      obtain ⟨m, haim⟩ := haim.resolve_left (by simp [aim])
      obtain rfl := Aim.target.inj haim
      exact ⟨h, m, parent, rfl, ⟨halloc, hunshared, by simpa [way] using hobj⟩, fun _ _ => id⟩
  | cons s rest ih =>
      by_cases hs : s = ""
      · subst hs
        rw [descend_skip]
        simp only [aim, if_true] at haim
        exact ih hobj halloc hunshared haim parent key
      by_cases hrest : rest = []
      · subst hrest
        obtain ⟨m, haim⟩ := haim.resolve_left (by simp [aim, hs])
        simp only [aim, if_neg hs, if_true] at haim
        obtain rfl := Aim.target.inj haim
        rw [descend_last hs, way, if_neg hs, if_pos rfl, lastKey_enter hs]
        exact ⟨h, m, .map m, rfl, ⟨halloc, hunshared, by simpa using hobj⟩, fun _ _ => id⟩
      rw [way_enter hs hrest, lastKey_enter hs, List.map_cons]
      have happend : ∀ q, π ++ Step.key s :: q = π ++ [.key s] ++ q := by simp
      cases obj with
      | map r =>
          cases hk : h.getKey r s with
          | some child =>
              rw [aim_enter hs hrest hk] at haim
              rw [descend_enter hs hrest hk, happend]
              refine ih ?_ halloc hunshared haim _ _
              rw [Heap.locate_append_of_some hobj, Heap.locate_singleton, Heap.step_key, hk]
          | none =>
              rw [aim_absent hs hrest hk] at haim
              obtain rfl : createPath = true := by
                by_contra hcreate
                simp [hcreate] at haim
              have hmade := (⟨halloc, hunshared, hobj⟩ : Reached h v π r).newMap s
              have hempty := Heap.getKey_newMap (show r < h.next from halloc π _ hobj rfl) s
              rw [descend_make hs hrest hk, happend]
              obtain ⟨h', m, parent', hdesc, hreached, honly⟩ :=
                ih hmade.here hmade.allocated hmade.unshared (aim_empty hempty rest) (.map r) s
              refine ⟨h', m, parent', hdesc, hreached, fun σ b hσ => ?_⟩
              rcases locate_newMap halloc hunshared hobj (honly σ b hσ) with ⟨-, heq⟩ | hbefore
              · exact nomatch heq
              · exact hbefore
      | nilMap => cases createPath <;> simp [aim, hs, hrest] at haim
      | _ => simp [aim, hs, hrest] at haim

end Effect

end Event
