/-
# What merge computes

`merge` is a deep union of JSON values: objects are merged key by key, arrays are put one after
the other, and of two other values the second one counts (`DeepUnion`).  The program returns a
value that is this union and changes nothing that was there before (`Merge.Computes`).

The program copies the second object and then writes each entry of the first into the copy.  What
the copy holds in between is the invariant of the loop: the field of the second object under a key
that is still to come, the merged field under every other key (`Merge.Holds`).
-/
import Ears.LibraryFilters
import Ears.JsonTrees
import Ears.PathReading

open GoLib

namespace Json

/-! ## The union of two JSON values -/

mutual

/-- The deep union: the fields of the second object come first. -/
def merge : Json → Json → Json
  | a, .null => a
  | .null, b => b
  | .obj fa, .obj fb => .obj (mergeFields fa fb ++ fa.filter fun f => f.1 ∉ fb.map Prod.fst)
  | .arr xs, .arr ys => .arr (xs ++ ys)
  | _, b => b

/-- The fields of the second object, each merged with the one of the first. -/
def mergeFields (fa : List (String × Json)) : List (String × Json) → List (String × Json)
  | [] => []
  | (k, j) :: fs => (k, merge (get fa k) j) :: mergeFields fa fs

end

/-- The fields of the union of two objects. -/
def unionFields (fa fb : List (String × Json)) : List (String × Json) :=
  mergeFields fa fb ++ fa.filter fun f => f.1 ∉ fb.map Prod.fst

/-- What a JSON value is, null aside. -/
inductive Kind where
  | object
  | array
  | scalar
  deriving DecidableEq, Repr

/-- The kind of a JSON value; null has none. -/
def kind : Json → Option Kind
  | .null => none
  | .obj _ => some .object
  | .arr _ => some .array
  | _ => some .scalar

/-- The value under a key; null in what is no object. -/
def field : Json → String → Json
  | .obj fields, key => get fields key
  | _, _ => .null

/-- The value at a path of keys; null where there is none. -/
def atPath : Json → List String → Json
  | j, [] => j
  | j, key :: p => atPath (j.field key) p

/-- The values that both have at a path are of one kind. -/
def SameKinds (a b : Json) : Prop :=
  ∀ p, (a.atPath p).kind ≠ none → (b.atPath p).kind ≠ none →
    (a.atPath p).kind = (b.atPath p).kind

/-- The laws of a deep union. -/
structure DeepUnion (union : Json → Json → Json) : Prop where
  null_right : ∀ a, union a .null = a
  null_left : ∀ b, union .null b = b
  objects : ∀ fa fb, ∃ fields, union (.obj fa) (.obj fb) = .obj fields ∧
    (∀ key, key ∈ fields.map Prod.fst ↔ key ∈ fa.map Prod.fst ∨ key ∈ fb.map Prod.fst) ∧
    ∀ key, get fields key = union (get fa key) (get fb key)
  arrays : ∀ xs ys, union (.arr xs) (.arr ys) = .arr (xs ++ ys)
  second : ∀ a b p, b.atPath p ≠ .null →
    (b.atPath p).kind = some .scalar ∨ (b.atPath p).kind ≠ (a.atPath p).kind →
    (union a b).atPath p = b.atPath p
  assoc : ∀ a b c, c.KeysOnce → SameKinds a b → SameKinds a c → SameKinds b c →
    union (union a b) c = union a (union b c)

/-! ## Its laws -/

variable {a b c : Json} {fa fb fc : List (String × Json)} {key : String} {p : List String}

@[simp] theorem merge_null_right (a : Json) : a.merge .null = a := by
  cases a <;> simp [merge]

@[simp] theorem merge_null_left (b : Json) : Json.null.merge b = b := by
  cases b <;> simp [merge]

theorem merge_arr (xs ys : List Json) : (Json.arr xs).merge (.arr ys) = .arr (xs ++ ys) := by
  simp [merge]

theorem merge_obj (fa fb : List (String × Json)) :
    (Json.obj fa).merge (.obj fb) = .obj (unionFields fa fb) := by
  simp [merge, unionFields]

/-- Of two values that are no pair of objects and no pair of arrays the second one counts. -/
theorem merge_second (hb : b ≠ .null) (hobj : ∀ fa fb, a = .obj fa → b ≠ .obj fb)
    (harr : ∀ xs ys, a = .arr xs → b ≠ .arr ys) : a.merge b = b := by
  cases b with
  | null => exact absurd rfl hb
  | obj fb =>
      cases a with
      | obj fa => exact absurd rfl (hobj fa fb rfl)
      | _ => simp [merge]
  | arr ys =>
      cases a with
      | arr xs => exact absurd rfl (harr xs ys rfl)
      | _ => simp [merge]
  | _ => cases a <;> simp [merge]

theorem mergeFields_eq_map (fa fb : List (String × Json)) :
    mergeFields fa fb = fb.map fun f => (f.1, merge (get fa f.1) f.2) := by
  induction fb with
  | nil => rfl
  | cons f fs ih =>
      obtain ⟨k, j⟩ := f
      rw [mergeFields, ih, List.map_cons]

theorem keys_mergeFields (fa fb : List (String × Json)) :
    (mergeFields fa fb).map Prod.fst = fb.map Prod.fst := by
  rw [mergeFields_eq_map, List.map_map]
  rfl

theorem lookup_mergeFields (fa fb : List (String × Json)) (key : String) :
    (mergeFields fa fb).lookup key = (fb.lookup key).map (merge (get fa key)) := by
  induction fb with
  | nil => rfl
  | cons f fs ih =>
      obtain ⟨k, j⟩ := f
      rw [mergeFields]
      by_cases hk : key = k
      · subst hk
        simp
      · have hne : (key == k) = false := beq_false_of_ne hk
        rw [List.lookup_cons, List.lookup_cons, hne]
        exact ih

theorem lookup_eq_none (hkey : key ∉ fa.map Prod.fst) : fa.lookup key = none := by
  refine List.lookup_eq_none_iff.mpr fun f hf => ?_
  rw [bne_iff_ne]
  rintro rfl
  exact hkey (List.mem_map_of_mem hf)

theorem lookup_isSome (hkey : key ∈ fa.map Prod.fst) : ∃ j, fa.lookup key = some j := by
  obtain ⟨f, hf, rfl⟩ := List.mem_map.mp hkey
  rw [← Option.isSome_iff_exists, Option.isSome_iff_ne_none]
  intro hnone
  simpa using List.lookup_eq_none_iff.mp hnone f hf

/-- A field that is not filtered out by its key is found as before. -/
theorem lookup_filter {P : String → Bool} (hkey : P key) (fa : List (String × Json)) :
    (fa.filter fun f => P f.1).lookup key = fa.lookup key := by
  induction fa with
  | nil => rfl
  | cons f fs ih =>
      obtain ⟨k, j⟩ := f
      by_cases hk : key = k
      · subst hk
        rw [List.filter_cons_of_pos (by exact hkey)]
        simp
      · have hne : (key == k) = false := beq_false_of_ne hk
        rw [List.lookup_cons, hne]
        by_cases hP : P k
        · rw [List.filter_cons_of_pos (by exact hP), List.lookup_cons, hne]
          exact ih
        · rw [List.filter_cons_of_neg (by exact hP)]
          exact ih

/-! ### Objects -/

theorem mem_keys_unionFields : key ∈ (unionFields fa fb).map Prod.fst ↔
    key ∈ fa.map Prod.fst ∨ key ∈ fb.map Prod.fst := by
  unfold unionFields
  rw [List.map_append, List.mem_append, keys_mergeFields]
  constructor
  · rintro (hb | ha)
    · exact Or.inr hb
    · obtain ⟨f, hf, rfl⟩ := List.mem_map.mp ha
      exact Or.inl (List.mem_map_of_mem (List.mem_filter.mp hf).1)
  · intro hkey
    by_cases hb : key ∈ fb.map Prod.fst
    · exact Or.inl hb
    · obtain ⟨f, hf, rfl⟩ := List.mem_map.mp (hkey.resolve_right hb)
      refine Or.inr (List.mem_map_of_mem (List.mem_filter.mpr ⟨hf, ?_⟩))
      simpa using hb

theorem nodup_unionFields (ha : (fa.map Prod.fst).Nodup) (hb : (fb.map Prod.fst).Nodup) :
    ((unionFields fa fb).map Prod.fst).Nodup := by
  unfold unionFields
  rw [List.map_append, List.nodup_append, keys_mergeFields]
  refine ⟨hb, ha.sublist (List.filter_sublist.map _), ?_⟩
  rintro k hk _ hk' rfl
  obtain ⟨f, hf, rfl⟩ := List.mem_map.mp hk'
  simpa [hk] using (List.mem_filter.mp hf).2

/-- A key of the second object holds the merged value. -/
theorem lookup_unionFields_of_mem (hb : key ∈ fb.map Prod.fst) :
    (unionFields fa fb).lookup key = some ((get fa key).merge (get fb key)) := by
  obtain ⟨j, hj⟩ := lookup_isSome hb
  unfold unionFields
  rw [List.lookup_append, lookup_mergeFields, hj, Option.map_some, Option.some_or, get, get, hj,
    Option.getD_some]

/-- Under any other key is what the first object has there. -/
theorem lookup_unionFields_of_not_mem (hb : key ∉ fb.map Prod.fst) :
    (unionFields fa fb).lookup key = fa.lookup key := by
  have hP : (fun k => decide (k ∉ fb.map Prod.fst)) key = true := by simpa using hb
  unfold unionFields
  rw [List.lookup_append, lookup_mergeFields, lookup_eq_none hb, Option.map_none, Option.none_or]
  exact lookup_filter (P := fun k => decide (k ∉ fb.map Prod.fst)) hP fa

/-- The value under a key is the union of the values there. -/
theorem get_unionFields (fa fb : List (String × Json)) (key : String) :
    get (unionFields fa fb) key = (get fa key).merge (get fb key) := by
  by_cases hb : key ∈ fb.map Prod.fst
  · rw [get, lookup_unionFields_of_mem hb, Option.getD_some]
  · have hnull : get fb key = .null := by rw [get, lookup_eq_none hb, Option.getD_none]
    rw [hnull, merge_null_right, get, lookup_unionFields_of_not_mem hb, get]

/-- A key of the first object holds the merged value. -/
theorem lookup_unionFields_of_mem_left (ha : key ∈ fa.map Prod.fst) :
    (unionFields fa fb).lookup key = some ((get fa key).merge (get fb key)) := by
  have hmem : key ∈ (unionFields fa fb).map Prod.fst := mem_keys_unionFields.mpr (Or.inl ha)
  obtain ⟨j, hj⟩ := lookup_isSome hmem
  rw [← get_unionFields, get, hj, Option.getD_some]

/-- Under any other key is what the second object has there. -/
theorem lookup_unionFields_of_not_mem_left (ha : key ∉ fa.map Prod.fst) :
    (unionFields fa fb).lookup key = fb.lookup key := by
  have hnull : get fa key = .null := by rw [get, lookup_eq_none ha, Option.getD_none]
  by_cases hb : key ∈ fb.map Prod.fst
  · obtain ⟨j, hj⟩ := lookup_isSome hb
    rw [lookup_unionFields_of_mem hb, hnull, merge_null_left, get, hj, Option.getD_some]
  · rw [lookup_unionFields_of_not_mem hb, lookup_eq_none ha, lookup_eq_none hb]

/-! ### Paths -/

theorem atPath_null (p : List String) : Json.null.atPath p = .null := by
  induction p with
  | nil => rfl
  | cons key p ih => exact ih

theorem atPath_cons (a : Json) (key : String) (p : List String) :
    a.atPath (key :: p) = (a.field key).atPath p := rfl

theorem field_obj (fields : List (String × Json)) (key : String) :
    (Json.obj fields).field key = get fields key := rfl

/-- Below a value that is no object there is nothing. -/
theorem atPath_of_not_obj (ha : ∀ fields, a ≠ .obj fields) (key : String) (p : List String) :
    a.atPath (key :: p) = .null := by
  have hfield : a.field key = .null := by
    cases a with
    | obj fields => exact absurd rfl (ha fields)
    | _ => rfl
  rw [atPath_cons, hfield, atPath_null]

/-- The value of `b` counts where it is a scalar or of another kind than the value of `a`. -/
theorem merge_atPath (hb : b.atPath p ≠ .null)
    (hkind : (b.atPath p).kind = some .scalar ∨ (b.atPath p).kind ≠ (a.atPath p).kind) :
    (a.merge b).atPath p = b.atPath p := by
  induction p generalizing a b with
  | nil =>
      rw [atPath, atPath] at hkind
      refine merge_second hb (fun fa fb ha hobj => ?_) fun xs ys ha harr => ?_
      · simp [ha, hobj, kind] at hkind
      · simp [ha, harr, kind] at hkind
  | cons key p ih =>
      by_cases hobj : ∃ fb, b = .obj fb
      · obtain ⟨fb, rfl⟩ := hobj
        by_cases hobj : ∃ fa, a = .obj fa
        · obtain ⟨fa, rfl⟩ := hobj
          rw [merge_obj, atPath_cons, field_obj, get_unionFields, atPath_cons, field_obj]
          exact ih hb hkind
        · -- an object takes the place of any other value
          have hmerge : a.merge (.obj fb) = .obj fb :=
            merge_second (nofun) (fun fa _ ha => absurd ⟨fa, ha⟩ hobj) fun _ _ _ => nofun
          rw [hmerge]
      · exact absurd (atPath_of_not_obj (fun fb h => hobj ⟨fb, h⟩) key p) hb

/-! ### Three values -/

theorem SameKinds.get (hkinds : SameKinds (.obj fa) (.obj fb)) (key : String) :
    SameKinds (get fa key) (get fb key) := fun p => hkinds (key :: p)

theorem kind_eq_object (ha : a.kind = some .object) : ∃ fields, a = .obj fields := by
  cases a with
  | obj fields => exact ⟨fields, rfl⟩
  | _ => exact nomatch ha

theorem kind_eq_array (ha : a.kind = some .array) : ∃ elems, a = .arr elems := by
  cases a with
  | arr elems => exact ⟨elems, rfl⟩
  | _ => exact nomatch ha

/-- Of any value and a scalar the scalar counts. -/
theorem merge_scalar (hb : b.kind = some .scalar) (a : Json) : a.merge b = b := by
  refine merge_second ?_ (fun fa fb _ hobj => ?_) fun xs ys _ harr => ?_
  · rintro rfl
    exact nomatch hb
  · rw [hobj] at hb
    exact nomatch hb
  · rw [harr] at hb
    exact nomatch hb

theorem merge_assoc_scalar (hc : c.kind = some .scalar) :
    (a.merge b).merge c = a.merge (b.merge c) := by
  rw [merge_scalar hc, merge_scalar hc, merge_scalar hc]

theorem mergeFields_append (fa l₁ l₂ : List (String × Json)) :
    mergeFields fa (l₁ ++ l₂) = mergeFields fa l₁ ++ mergeFields fa l₂ := by
  rw [mergeFields_eq_map, mergeFields_eq_map, mergeFields_eq_map, List.map_append]

theorem mergeFields_filter (fa fb : List (String × Json)) (P : String → Bool) :
    mergeFields fa (fb.filter fun f => P f.1) = (mergeFields fa fb).filter fun f => P f.1 := by
  rw [mergeFields_eq_map, mergeFields_eq_map, List.filter_map]
  rfl

/-- Objects are merged in any grouping when the values under each key are. -/
theorem unionFields_assoc
    (hvalues : ∀ f ∈ fc, ((get fa f.1).merge (get fb f.1)).merge f.2 =
      (get fa f.1).merge ((get fb f.1).merge f.2)) :
    unionFields (unionFields fa fb) fc = unionFields fa (unionFields fb fc) := by
  -- the fields of the third object, those of the second alone and those of the first alone
  have hthird : mergeFields (unionFields fa fb) fc = mergeFields fa (mergeFields fb fc) := by
    rw [mergeFields_eq_map, mergeFields_eq_map fb, mergeFields_eq_map, List.map_map]
    refine List.map_congr_left fun f hf => ?_
    rw [get_unionFields, hvalues f hf]
    rfl
  have hsecond : mergeFields fa (fb.filter fun f => f.1 ∉ fc.map Prod.fst) =
      (mergeFields fa fb).filter fun f => f.1 ∉ fc.map Prod.fst :=
    mergeFields_filter fa fb fun k => decide (k ∉ fc.map Prod.fst)
  have hfirst : (fa.filter fun f => f.1 ∉ (unionFields fb fc).map Prod.fst) =
      (fa.filter fun f => f.1 ∉ fb.map Prod.fst).filter fun f => f.1 ∉ fc.map Prod.fst := by
    rw [List.filter_filter]
    refine List.filter_congr fun f _ => ?_
    rw [← Bool.decide_and, decide_eq_decide, mem_keys_unionFields, not_or, and_comm]
  calc unionFields (unionFields fa fb) fc
      = mergeFields (unionFields fa fb) fc ++
          (unionFields fa fb).filter fun f => f.1 ∉ fc.map Prod.fst := rfl
    _ = mergeFields fa (mergeFields fb fc) ++
          (mergeFields fa (fb.filter fun f => f.1 ∉ fc.map Prod.fst) ++
            fa.filter fun f => f.1 ∉ (unionFields fb fc).map Prod.fst) := by
        rw [hthird, hsecond, hfirst, ← List.filter_append]
        rfl
    _ = unionFields fa (unionFields fb fc) := by
        rw [← List.append_assoc, ← mergeFields_append]
        rfl

theorem kind_ne_none (ha : a ≠ .null) : a.kind ≠ none := by
  cases a with
  | null => exact absurd rfl ha
  | _ => nofun

/-- **The union of three values of one kind does not depend on the grouping.** -/
theorem merge_assoc (hc : c.KeysOnce) (hab : SameKinds a b) (hac : SameKinds a c)
    (hbc : SameKinds b c) : (a.merge b).merge c = a.merge (b.merge c) := by
  by_cases ha : a = .null
  · rw [ha, merge_null_left, merge_null_left]
  by_cases hb : b = .null
  · rw [hb, merge_null_right, merge_null_left]
  induction c using tree_induction generalizing a b with
  | null => rw [merge_null_right, merge_null_right]
  | obj fc ih =>
      have hca : a.kind = some .object := hac [] (kind_ne_none ha) nofun
      have hcb : b.kind = some .object := hbc [] (kind_ne_none hb) nofun
      obtain ⟨fa, rfl⟩ := kind_eq_object hca
      obtain ⟨fb, rfl⟩ := kind_eq_object hcb
      obtain ⟨hnodup, honce⟩ := hc
      rw [merge_obj, merge_obj, merge_obj, merge_obj, unionFields_assoc]
      intro f hf
      have hget : get fc f.1 = f.2 := get_of_mem hnodup hf
      by_cases hfa : get fa f.1 = .null
      · rw [hfa, merge_null_left, merge_null_left]
      by_cases hfb : get fb f.1 = .null
      · rw [hfb, merge_null_right, merge_null_left]
      exact ih f hf (keysOnceFields_iff.mp honce f hf) (hab.get f.1) (hget ▸ hac.get f.1)
        (hget ▸ hbc.get f.1) hfa hfb
  | arr zs =>
      have hca : a.kind = some .array := hac [] (kind_ne_none ha) nofun
      have hcb : b.kind = some .array := hbc [] (kind_ne_none hb) nofun
      obtain ⟨xs, rfl⟩ := kind_eq_array hca
      obtain ⟨ys, rfl⟩ := kind_eq_array hcb
      rw [merge_arr, merge_arr, merge_arr, merge_arr, List.append_assoc]
  | _ => exact merge_assoc_scalar rfl

/-- The union of JSON values obeys the laws. -/
theorem merge_isDeepUnion : DeepUnion merge where
  null_right := merge_null_right
  null_left := merge_null_left
  objects fa fb :=
    ⟨_, merge_obj fa fb, fun _ => mem_keys_unionFields, get_unionFields fa fb⟩
  arrays := merge_arr
  second _ _ _ := merge_atPath
  assoc _ _ _ := merge_assoc

end Json

/-! ## Objects under construction -/

namespace GoLib

variable {order : Finset String → List String} {h g g' : Heap} {r : Ref} {u v w : Value}
  {a b j : Json} {fields : List (String × Json)} {key : String} {Good : Ref → Prop} {depth : ℕ}

/-- A `range` visits each key once. -/
def Enumerates (order : Finset String → List String) : Prop :=
  ∀ s, (order s).Nodup ∧ ∀ key, key ∈ order s ↔ key ∈ s

namespace Heap

theorem mem_keys_iff : key ∈ (h.maps r).keys ↔ h.getKey r key ≠ none := by
  rw [Finmap.mem_keys, getKey, ← Finmap.lookup_isSome, Option.isSome_iff_ne_none]

/-- The map has this value under the key, or no value.  The value reaches good addresses only. -/
def HoldsField (Good : Ref → Prop) (g : Heap) (r : Ref) (key : String) : Option Json → Prop
  | none => g.getKey r key = none
  | some j => ∃ v, g.getKey r key = some v ∧ g.Represents v j ∧ g.AllocatedBelow v ∧
      ∀ x, g.Reaches v x → Good x

theorem HoldsField.changes {res : Option Json} (hholds : g.HoldsField Good r key res)
    (hch : Changes (· = r) g g') (hgood : ¬ Good r) (hkey : g'.getKey r key = g.getKey r key) :
    g'.HoldsField Good r key res := by
  cases res with
  | none => exact hkey.trans hholds
  | some j =>
      obtain ⟨v, hv, hrep, halloc, hreach⟩ := hholds
      have hkeeps : g.Keeps v g' :=
        hch.keeps halloc fun x hx hxr => hgood (hxr ▸ hreach x hx)
      exact ⟨v, hkey.trans hv, hkeeps.represents hrep, hkeeps.allocatedBelow halloc hch.next,
        fun x hx => hreach x (hkeeps.reaches.mp hx)⟩

/-- The value under the key, nil without the key. -/
theorem HoldsField.getD {res : Option Json} (hholds : g.HoldsField Good r key res) :
    g.Represents ((g.getKey r key).getD .nil) (res.getD .null) ∧
      g.AllocatedBelow ((g.getKey r key).getD .nil) ∧
      ∀ x, g.Reaches ((g.getKey r key).getD .nil) x → Good x := by
  cases res with
  | none =>
      have hnone : g.getKey r key = none := hholds
      rw [hnone]
      exact ⟨rfl, (fresh_of_not_container rfl 0).allocated, fun x hx => absurd hx (not_reaches rfl)⟩
  | some j =>
      obtain ⟨v, hv, hrest⟩ := hholds
      rw [hv]
      exact hrest

/-- A map that holds the fields is the object. -/
theorem represents_of_holds (hnodup : (fields.map Prod.fst).Nodup)
    (hholds : ∀ key, g.HoldsField Good r key (fields.lookup key)) :
    g.Represents (.map r) (.obj fields) := by
  refine represents_obj.mpr ⟨r, rfl, hnodup, fun key hkey => ?_, fun f hf => ?_⟩
  · by_contra hmem
    have hnone := hholds key
    rw [Json.lookup_eq_none hmem] at hnone
    exact hkey hnone
  · obtain ⟨j, hj⟩ := Json.lookup_isSome (List.mem_map_of_mem hf)
    have hheld := hholds f.1
    have hget := Json.get_of_mem hnodup hf
    rw [Json.get, hj, Option.getD_some] at hget
    rw [hj, hget] at hheld
    obtain ⟨v, hv, hrep, -⟩ := hheld
    exact ⟨v, hv, hrep⟩

/-- What a map reaches that holds the fields. -/
theorem reaches_of_holds (hholds : ∀ key, g.HoldsField Good r key (fields.lookup key)) {x : Ref}
    (hx : g.Reaches (.map r) x) : x = r ∨ Good x ∧ x < g.next := by
  rcases reaches_iff.mp hx with ⟨-, rfl⟩ | ⟨s, w, hs, hw⟩
  · exact Or.inl rfl
  · cases s with
    | index i => exact nomatch hs
    | key key =>
        rw [step_key] at hs
        have hheld := (hholds key).getD
        rw [hs, Option.getD_some] at hheld
        exact Or.inr ⟨hheld.2.2 x hw, allocatedBelow_iff.mp hheld.2.1 x hw⟩

end Heap

/-- What a represented object holds under each key. -/
theorem Heap.Represents.holdsField (hv : h.Represents (.map r) (.obj fields))
    (halloc : h.AllocatedBelow (.map r)) (key : String) :
    h.HoldsField (h.Reaches (.map r)) r key (fields.lookup key) := by
  obtain ⟨_, heq, hnodup, honly, hfields⟩ := represents_obj.mp hv
  obtain rfl := Value.map.inj heq
  cases hk : fields.lookup key with
  | none =>
      by_contra hsome
      obtain ⟨j, hj⟩ := Json.lookup_isSome (honly key hsome)
      rw [hk] at hj
      exact nomatch hj
  | some j =>
      obtain ⟨v, hkey, hrep⟩ := hfields (key, j) (Json.mem_of_lookup hk)
      have hs : h.step (.map r) (.key key) = some v := (step_key h r key).trans hkey
      exact ⟨v, hkey, hrep, halloc.of_step hs, fun x hx => hx.of_step hs⟩

end GoLib

/-! ## The program -/

namespace Json

theorem depth_get_le (fields : List (String × Json)) (key : String) :
    (get fields key).depth ≤ depthFields fields := by
  cases hk : fields.lookup key with
  | none =>
      rw [get, hk]
      exact Nat.zero_le _
  | some j =>
      rw [get, hk]
      exact depth_le_of_mem_fields (mem_of_lookup hk)

end Json

namespace Merge

variable {order : Finset String → List String} {h g g' : Heap} {ra rb bc : Ref}
  {va vb v : Value} {a b j : Json} {fa fb : List (String × Json)} {depth : ℕ}

/-- The value is this JSON value, made of parts of the two values and of what is new; nothing that
was there before is changed. -/
structure Merged (h : Heap) (va vb : Value) (j : Json) (v : Value) (h' : Heap) : Prop where
  grows : h.Grows h'
  represents : h'.Represents v j
  allocated : h'.AllocatedBelow v
  reaches : ∀ x, h'.Reaches v x → h.Reaches va x ∨ h.Reaches vb x ∨ h.next ≤ x

/-- `merge` of two values up to a depth returns their union. -/
def Computes (order : Finset String → List String) (union : Json → Json → Json) (depth : ℕ) :
    Prop :=
  ∀ h va vb a b, h.Represents va a → h.Represents vb b → h.AllocatedBelow va →
    h.AllocatedBelow vb → min a.depth b.depth < depth →
      ∃ v h', (merge depth va vb).run (Heap.handle order) h = (some v, h') ∧
        Merged h va vb (union a b) v h'

theorem merged_left (ha : h.Represents va a) (halloc : h.AllocatedBelow va) :
    Merged h va vb a va h :=
  ⟨.refl _ h, ha, halloc, fun _ hx => Or.inl hx⟩

theorem merged_right (hb : h.Represents vb b) (halloc : h.AllocatedBelow vb) :
    Merged h va vb b vb h :=
  ⟨.refl _ h, hb, halloc, fun _ hx => Or.inr (Or.inl hx)⟩

/-! ### Two objects -/

/-- The addresses that the values of the new map reach. -/
def Parts (h : Heap) (va vb : Value) (x : Ref) : Prop :=
  h.Reaches va x ∨ h.Reaches vb x ∨ h.next < x

/-- The copy between two rounds: of the keys that are still to come it holds the fields of the
second object, of all others the merged fields. -/
structure Held (h : Heap) (va vb : Value) (fa fb : List (String × Json)) (bc : Ref)
    (keys : List String) (g : Heap) : Prop where
  grows : h.Grows g
  allocated : bc < g.next
  holds : ∀ key, g.HoldsField (Parts h va vb) bc key
    (if key ∈ keys then fb.lookup key else (Json.unionFields fa fb).lookup key)

theorem not_parts (hva : h.AllocatedBelow va) (hvb : h.AllocatedBelow vb) :
    ¬ Parts h va vb h.next := by
  rintro (hx | hx | hx)
  · exact lt_irrefl _ (Heap.allocatedBelow_iff.mp hva _ hx)
  · exact lt_irrefl _ (Heap.allocatedBelow_iff.mp hvb _ hx)
  · exact lt_irrefl _ hx

theorem grows_setKey_new (hgrows : h.Grows g) (k : String) (v : Value) :
    h.Grows (g.setKey h.next k v) := by
  refine ⟨hgrows.next, fun x hx _ => (hgrows.same x hx not_false).trans ?_⟩
  exact (Heap.changes_setKey h.next k v).same x (hx.trans_le hgrows.next) hx.ne

/-- The loop that copies the second object. -/
theorem run_copyEntries (order : Finset String → List String) (rb : Ref) (hgrows : h.Grows g)
    (hr : rb < h.next) (hbc : h.next < g.next) (keys : List String) :
    ∃ g', (keys.forM fun k => do
        let v ← HeapProg.lookup (.map rb) k
        HeapProg.setKey h.next k v).run (Heap.handle order) g = (some (), g') ∧ h.Grows g' ∧
      h.next < g'.next ∧
      (∀ k ∈ keys, g'.getKey h.next k = some ((h.getKey rb k).getD .nil)) ∧
      ∀ k ∉ keys, g'.getKey h.next k = g.getKey h.next k := by
  induction keys generalizing g with
  | nil => exact ⟨g, rfl, hgrows, hbc, by simp, fun _ _ => rfl⟩
  | cons key keys ih =>
      have hread : g.getKey rb key = h.getKey rb key := by
        rw [Heap.getKey, (hgrows.same rb hr not_false).maps, Heap.getKey]
      obtain ⟨g', hrun, hgrows', hbc', hin, hout⟩ :=
        ih (grows_setKey_new hgrows key ((h.getKey rb key).getD .nil)) hbc
      refine ⟨g', ?_, hgrows', hbc', ?_, ?_⟩
      · have hround : (do
            let v ← HeapProg.lookup (.map rb) key
            HeapProg.setKey h.next key v).run (Heap.handle order) g =
            (some (), g.setKey h.next key ((h.getKey rb key).getD .nil)) := by
          rw [← hread]
          rfl
        exact (Prog.run_bind_of_some _ _ hround _).trans hrun
      · intro k hk
        by_cases hmem : k ∈ keys
        · exact hin k hmem
        · obtain rfl := (List.mem_cons.mp hk).resolve_right hmem
          rw [hout k hmem, Heap.getKey_setKey_self]
      · intro k hk
        rw [List.mem_cons, not_or] at hk
        rw [hout k hk.2, Heap.getKey_setKey_of_ne hk.1]

/-- One round: the entry of the first object is merged into the copy. -/
theorem Held.step {key : String} {keys : List String} (hmerge : Computes order Json.merge depth)
    (hva : h.AllocatedBelow (.map ra)) (hvb : h.AllocatedBelow vb)
    (ha : h.Represents (.map ra) (.obj fa)) (hkey : key ∈ fa.map Prod.fst)
    (hnot : key ∉ keys) (hdepth : min (Json.depthFields fa) (Json.depthFields fb) < depth)
    (hheld : Held h (.map ra) vb fa fb h.next (key :: keys) g) :
    ∃ v g', (merge depth ((g.getKey ra key).getD .nil)
        ((g.getKey h.next key).getD .nil)).run (Heap.handle order) g = (some v, g') ∧
      Held h (.map ra) vb fa fb h.next keys (g'.setKey h.next key v) := by
  have hkeeps : h.Keeps (.map ra) g := hheld.grows.keeps hva
  have hga : g.Represents (.map ra) (.obj fa) := hkeeps.represents ha
  have hgalloc : g.AllocatedBelow (.map ra) := hkeeps.allocatedBelow hva hheld.grows.next
  obtain ⟨hrepA, hallocA, hreachA⟩ := (hga.holdsField hgalloc key).getD
  have hcur := hheld.holds key
  rw [if_pos List.mem_cons_self] at hcur
  obtain ⟨hrepB, hallocB, hreachB⟩ := hcur.getD
  have hfits : min (Json.get fa key).depth (Json.get fb key).depth < depth := by
    have hfa := Json.depth_get_le fa key
    have hfb := Json.depth_get_le fb key
    omega
  obtain ⟨v, g', hrun, hmerged⟩ := hmerge g _ _ _ _ hrepA hrepB hallocA hallocB hfits
  refine ⟨v, g', hrun, ?_⟩
  -- what the new value reaches is a part of the two objects or new
  have hreach : ∀ x, g'.Reaches v x → Parts h (.map ra) vb x := by
    intro x hx
    rcases hmerged.reaches x hx with hx | hx | hx
    · exact Or.inl (hkeeps.reaches.mp (hreachA x hx))
    · exact hreachB x hx
    · exact Or.inr (Or.inr (hheld.allocated.trans_le hx))
  have hgood := not_parts hva hvb
  have hch : Heap.Changes (· = h.next) g' (g'.setKey h.next key v) := Heap.changes_setKey _ _ _
  refine ⟨grows_setKey_new (hheld.grows.trans hmerged.grows) key v,
    hheld.allocated.trans_le hmerged.grows.next, fun k => ?_⟩
  by_cases hk : k = key
  · subst hk
    have hkeepsV : g'.Keeps v (g'.setKey h.next k v) :=
      hch.keeps hmerged.allocated fun x hx hxr => hgood (hxr ▸ hreach x hx)
    rw [if_neg hnot, Json.lookup_unionFields_of_mem_left hkey]
    exact ⟨v, Heap.getKey_setKey_self _ _ _ _, hkeepsV.represents hmerged.represents,
      hkeepsV.allocatedBelow hmerged.allocated le_rfl,
      fun x hx => hreach x (hkeepsV.reaches.mp hx)⟩
  · have hsame : g'.getKey h.next k = g.getKey h.next k := by
      rw [Heap.getKey, (hmerged.grows.same _ hheld.allocated not_false).maps, Heap.getKey]
    have hold := hheld.holds k
    simp only [List.mem_cons, hk, false_or] at hold
    refine (hold.changes (hmerged.grows.changes _) hgood hsame).changes hch hgood ?_
    exact Heap.getKey_setKey_of_ne hk

/-- The loop that merges the first object into the copy. -/
theorem run_mergeEntries {keys : List String} (hmerge : Computes order Json.merge depth)
    (hva : h.AllocatedBelow (.map ra)) (hvb : h.AllocatedBelow vb)
    (ha : h.Represents (.map ra) (.obj fa)) (hkeys : ∀ key ∈ keys, key ∈ fa.map Prod.fst)
    (hnodup : keys.Nodup) (hdepth : min (Json.depthFields fa) (Json.depthFields fb) < depth)
    (hheld : Held h (.map ra) vb fa fb h.next keys g) :
    ∃ g', (mergeEntries (merge depth) (.map ra) h.next keys).run (Heap.handle order) g =
        (some (), g') ∧ Held h (.map ra) vb fa fb h.next [] g' := by
  induction keys generalizing g with
  | nil => exact ⟨g, rfl, hheld⟩
  | cons key keys ih =>
      obtain ⟨hnot, hnodup⟩ := List.nodup_cons.mp hnodup
      obtain ⟨v, g₁, hrun, hheld₁⟩ :=
        hheld.step hmerge hva hvb ha (hkeys key List.mem_cons_self) hnot hdepth
      obtain ⟨g', hrest, hdone⟩ :=
        ih (fun k hk => hkeys k (List.mem_cons_of_mem key hk)) hnodup hheld₁
      refine ⟨g', ?_, hdone⟩
      unfold mergeEntries
      rw [Prog.run_bind_of_some _ _ (HeapProg.run_lookup order g ra key),
        Prog.run_bind_of_some _ _ (HeapProg.run_lookup order g h.next key),
        Prog.run_bind_of_some _ _ hrun,
        Prog.run_bind_of_some _ _ (HeapProg.run_setKey order g₁ h.next key v)]
      exact hrest

/-- The keys that a `range` over a represented object visits. -/
theorem mem_order_iff (horder : Enumerates order) (ha : h.Represents (.map ra) (.obj fa))
    (key : String) : key ∈ order (h.maps ra).keys ↔ key ∈ fa.map Prod.fst := by
  obtain ⟨_, heq, -, honly, hfields⟩ := Heap.represents_obj.mp ha
  obtain rfl := Value.map.inj heq
  rw [(horder _).2, Heap.mem_keys_iff]
  refine ⟨honly key, fun hkey => ?_⟩
  obtain ⟨f, hf, rfl⟩ := List.mem_map.mp hkey
  obtain ⟨v, hv, -⟩ := hfields f hf
  rw [hv]
  exact nofun

/-- After the first loop the copy holds the fields of the second object. -/
theorem held_of_copied {keys : List String} (horder : Enumerates order)
    (hrb : h.Represents (.map rb) (.obj fb)) (hvb : h.AllocatedBelow (.map rb))
    (hkeys : ∀ key, key ∈ keys ↔ key ∈ fa.map Prod.fst) (hgrows : h.Grows g)
    (hnext : h.next < g.next)
    (hin : ∀ k ∈ order (h.maps rb).keys, g.getKey h.next k = some ((h.getKey rb k).getD .nil))
    (hout : ∀ k ∉ order (h.maps rb).keys, g.getKey h.next k = none) :
    Held h va (.map rb) fa fb h.next keys g := by
  refine ⟨hgrows, hnext, fun key => ?_⟩
  have hlookup : (if key ∈ keys then fb.lookup key else (Json.unionFields fa fb).lookup key) =
      fb.lookup key := by
    split
    · rfl
    · rename_i hkey
      exact Json.lookup_unionFields_of_not_mem_left fun hmem => hkey ((hkeys key).mpr hmem)
  rw [hlookup]
  have hfield := hrb.holdsField hvb key
  cases hk : fb.lookup key with
  | none =>
      refine hout key fun hmem => ?_
      obtain ⟨j, hj⟩ := Json.lookup_isSome ((mem_order_iff horder hrb key).mp hmem)
      rw [hk] at hj
      exact nomatch hj
  | some j =>
      rw [hk] at hfield
      obtain ⟨v, hv, hrep, halloc, hreach⟩ := hfield
      have hmem := (mem_order_iff horder hrb key).mpr
        (List.mem_map_of_mem (f := Prod.fst) (Json.mem_of_lookup hk))
      have hkeeps : h.Keeps v g := hgrows.keeps halloc
      refine ⟨v, ?_, hkeeps.represents hrep, hkeeps.allocatedBelow halloc hgrows.next,
        fun x hx => Or.inr (Or.inl (hreach x (hkeeps.reaches.mp hx)))⟩
      rw [hin key hmem, hv, Option.getD_some]

/-- Two objects: the copy is their union in the end. -/
theorem run_merge_objects (horder : Enumerates order) (hmerge : Computes order Json.merge depth)
    (hra : h.Represents (.map ra) (.obj fa)) (hrb : h.Represents (.map rb) (.obj fb))
    (hva : h.AllocatedBelow (.map ra)) (hvb : h.AllocatedBelow (.map rb))
    (hdepth : min (Json.depthFields fa) (Json.depthFields fb) < depth) :
    ∃ v h', (merge (depth + 1) (.map ra) (.map rb)).run (Heap.handle order) h = (some v, h') ∧
      Merged h (.map ra) (.map rb) ((Json.obj fa).merge (.obj fb)) v h' := by
  have hrb' : rb < h.next := hvb [] _ rfl rfl
  have hra' : ra < h.next := hva [] _ rfl rfl
  have hnew : h.Grows h.makeMap.1 := Heap.grows_makeMap h
  have hkeysB : ((h.makeMap.1).maps rb).keys = (h.maps rb).keys := by
    rw [(hnew.same rb hrb' not_false).maps]
  obtain ⟨g, hcopy, hgrows, hnext, hin, hout⟩ :=
    run_copyEntries order rb hnew hrb' (Nat.lt_succ_self h.next) (order (h.maps rb).keys)
  have hkeysA : (g.maps ra).keys = (h.maps ra).keys := by
    rw [(hgrows.same ra hra' not_false).maps]
  have hheld : Held h (.map ra) (.map rb) fa fb h.next (order (h.maps ra).keys) g := by
    refine held_of_copied horder hrb hvb (mem_order_iff horder hra) hgrows hnext hin ?_
    intro k hk
    rw [hout k hk]
    exact Heap.getKey_makeMap h k
  obtain ⟨g', hentries, hdone⟩ := run_mergeEntries hmerge hva hvb hra
    (fun key hkey => (mem_order_iff horder hra key).mp hkey) (horder _).1 hdepth hheld
  have hfields : ∀ key, g'.HoldsField (Parts h (.map ra) (.map rb)) h.next key
      ((Json.unionFields fa fb).lookup key) := fun key => hdone.holds key
  refine ⟨.map h.next, g', ?_, hdone.grows, ?_, ?_, ?_⟩
  · have hmade : h.makeMap.2 = h.next := rfl
    have hrangeB : (HeapProg.rangeOf (.map rb)).run (Heap.handle order) h.makeMap.1 =
        (some (order (h.maps rb).keys), h.makeMap.1) := by
      rw [← hkeysB]
      rfl
    have hrangeA : (HeapProg.rangeOf (.map ra)).run (Heap.handle order) g =
        (some (order (h.maps ra).keys), g) := by
      rw [← hkeysA]
      rfl
    unfold merge
    rw [if_neg nofun, if_neg nofun,
      if_pos (show (Js.isObject (.map ra) && Js.isObject (.map rb)) = true from rfl),
      Prog.run_bind_of_some _ _ (HeapProg.run_makeMap order h), hmade,
      Prog.run_bind_of_some _ _ hrangeB, Prog.run_bind_of_some _ _ hcopy,
      Prog.run_bind_of_some _ _ hrangeA, Prog.run_bind_of_some _ _ hentries]
    rfl
  · obtain ⟨_, -, hnodupA, -⟩ := Heap.represents_obj.mp hra
    obtain ⟨_, -, hnodupB, -⟩ := Heap.represents_obj.mp hrb
    rw [Json.merge_obj]
    exact Heap.represents_of_holds (Json.nodup_unionFields hnodupA hnodupB) hfields
  · refine Heap.allocatedBelow_iff.mpr fun x hx => ?_
    rcases Heap.reaches_of_holds hfields hx with rfl | ⟨-, hx⟩
    · exact hdone.allocated
    · exact hx
  · intro x hx
    rcases Heap.reaches_of_holds hfields hx with rfl | ⟨hx | hx | hx, -⟩
    · exact Or.inr (Or.inr le_rfl)
    · exact Or.inl hx
    · exact Or.inr (Or.inl hx)
    · exact Or.inr (Or.inr hx.le)

/-! ### Two arrays and all others -/

theorem run_merge_arrays {xs ys : Ref} {as bs : List Json}
    (ha : h.Represents (.slice xs) (.arr as)) (hb : h.Represents (.slice ys) (.arr bs))
    (hva : h.AllocatedBelow (.slice xs)) (hvb : h.AllocatedBelow (.slice ys)) (depth : ℕ) :
    ∃ v h', (merge (depth + 1) (.slice xs) (.slice ys)).run (Heap.handle order) h = (some v, h') ∧
      Merged h (.slice xs) (.slice ys) ((Json.arr as).merge (.arr bs)) v h' := by
  have hgrows : h.Grows (h.makeSlice (h.slices xs ++ h.slices ys)).1 := Heap.grows_makeSlice _ _
  have hslices : (h.makeSlice (h.slices xs ++ h.slices ys)).1.slices h.next =
      h.slices xs ++ h.slices ys := Function.update_self _ _ _
  -- an element of the new array is one of the two arrays
  have hpart : ∀ (i : ℕ) w, (h.slices xs ++ h.slices ys)[i]? = some w →
      h.AllocatedBelow w ∧
        ∀ x, h.Reaches w x → h.Reaches (.slice xs) x ∨ h.Reaches (.slice ys) x := by
    intro i w hw
    rcases List.mem_append.mp (List.mem_of_getElem? hw) with hmem | hmem
    · obtain ⟨k, hk⟩ := List.getElem?_of_mem hmem
      have hs : h.step (.slice xs) (.index k) = some w := (Heap.step_index h xs k).trans hk
      exact ⟨hva.of_step hs, fun x hx => Or.inl (hx.of_step hs)⟩
    · obtain ⟨k, hk⟩ := List.getElem?_of_mem hmem
      have hs : h.step (.slice ys) (.index k) = some w := (Heap.step_index h ys k).trans hk
      exact ⟨hvb.of_step hs, fun x hx => Or.inr (hx.of_step hs)⟩
  have hreach : ∀ x, (h.makeSlice (h.slices xs ++ h.slices ys)).1.Reaches (.slice h.next) x →
      x = h.next ∨ x < h.next ∧ (h.Reaches (.slice xs) x ∨ h.Reaches (.slice ys) x) := by
    intro x hx
    rcases Heap.reaches_iff.mp hx with ⟨-, rfl⟩ | ⟨s, w, hs, hw⟩
    · exact Or.inl rfl
    · cases s with
      | key key => exact nomatch hs
      | index i =>
          rw [Heap.step_index, hslices] at hs
          obtain ⟨halloc, hbelow⟩ := hpart i w hs
          have hx' := (hgrows.keeps halloc).reaches.mp hw
          exact Or.inr ⟨Heap.allocatedBelow_iff.mp halloc x hx', hbelow x hx'⟩
  refine ⟨.slice h.next, (h.makeSlice (h.slices xs ++ h.slices ys)).1, ?_, hgrows, ?_, ?_, ?_⟩
  · unfold merge
    rw [if_neg nofun, if_neg nofun, if_neg nofun]
    dsimp only
    rw [Prog.run_bind_of_some _ _ (HeapProg.run_len order h xs),
      Prog.run_bind_of_some _ _ (HeapProg.run_elems order h xs _),
      Prog.run_bind_of_some _ _ (HeapProg.run_len order h ys),
      Prog.run_bind_of_some _ _ (HeapProg.run_elems order h ys _), Event.map_getD_range,
      Event.map_getD_range]
    rfl
  · obtain ⟨_, heq, helemsA⟩ := Heap.represents_arr.mp (hgrows.keeps hva |>.represents ha)
    obtain rfl := Value.slice.inj heq
    obtain ⟨_, heq, helemsB⟩ := Heap.represents_arr.mp (hgrows.keeps hvb |>.represents hb)
    obtain rfl := Value.slice.inj heq
    rw [(hgrows.same xs (hva [] _ rfl rfl) not_false).slices] at helemsA
    rw [(hgrows.same ys (hvb [] _ rfl rfl) not_false).slices] at helemsB
    rw [Json.merge_arr]
    refine Heap.represents_arr.mpr ⟨h.next, rfl, ?_⟩
    rw [hslices]
    exact List.rel_append helemsA helemsB
  · refine Heap.allocatedBelow_iff.mpr fun x hx => ?_
    rcases hreach x hx with rfl | ⟨hx, -⟩
    · exact Nat.lt_succ_self _
    · exact hx.trans_le hgrows.next
  · intro x hx
    rcases hreach x hx with rfl | ⟨-, hx | hx⟩
    · exact Or.inr (Or.inr le_rfl)
    · exact Or.inl hx
    · exact Or.inr (Or.inl hx)

/-- Only objects are represented by maps. -/
theorem exists_fields_of_isObject (ha : h.Represents va a) (hva : Js.isObject va = true) :
    ∃ fields, a = .obj fields := by
  cases va with
  | map r => exact ha.exists_fields
  | nilMap => exact absurd ha Heap.not_represents_nilMap
  | _ => exact nomatch hva

/-- Of two values that are no pair of objects and no pair of arrays `merge` returns the second. -/
theorem merge_eq_second (hva : va ≠ .nil) (hvb : vb ≠ .nil)
    (hobj : ¬ (Js.isObject va && Js.isObject vb) = true)
    (harr : ∀ x y, va = .slice x → vb ≠ .slice y) (depth : ℕ) :
    merge (depth + 1) va vb = pure vb := by
  unfold merge
  rw [if_neg hva, if_neg hvb, if_neg hobj]
  split
  · rename_i x y
    exact absurd rfl (harr x y rfl)
  · rfl

/-- **`merge` returns the union.** -/
theorem merge_computes (horder : Enumerates order) (depth : ℕ) :
    Computes order Json.merge depth := by
  induction depth with
  | zero => exact fun h va vb a b _ _ _ _ hdepth => absurd hdepth (Nat.not_lt_zero _)
  | succ depth ih =>
      intro h va vb a b ha hb hva hvb hdepth
      by_cases hnilA : va = .nil
      · subst hnilA
        obtain rfl := (ha.eq_scalar_iff (u := .nil) rfl).mp rfl
        rw [Json.merge_null_left]
        exact ⟨vb, h, rfl, merged_right hb hvb⟩
      by_cases hnilB : vb = .nil
      · subst hnilB
        obtain rfl := (hb.eq_scalar_iff (u := .nil) rfl).mp rfl
        rw [Json.merge_null_right]
        refine ⟨va, h, ?_, merged_left ha hva⟩
        unfold merge
        rw [if_neg hnilA, if_pos rfl]
        rfl
      by_cases hobj : (∃ fa, a = .obj fa) ∧ ∃ fb, b = .obj fb
      · obtain ⟨⟨fa, rfl⟩, fb, rfl⟩ := hobj
        obtain ⟨ra, rfl, -⟩ := Heap.represents_obj.mp ha
        obtain ⟨rb, rfl, -⟩ := Heap.represents_obj.mp hb
        rw [Json.depth, Json.depth] at hdepth
        exact run_merge_objects horder ih ha hb hva hvb (by omega)
      by_cases harr : (∃ as, a = .arr as) ∧ ∃ bs, b = .arr bs
      · obtain ⟨⟨as, rfl⟩, bs, rfl⟩ := harr
        obtain ⟨xs, rfl, -⟩ := Heap.represents_arr.mp ha
        obtain ⟨ys, rfl, -⟩ := Heap.represents_arr.mp hb
        exact run_merge_arrays ha hb hva hvb depth
      · have hsecond : a.merge b = b := by
          refine Json.merge_second ?_ (fun fa fb hfa hfb => hobj ⟨⟨fa, hfa⟩, fb, hfb⟩)
            fun as bs has hbs => harr ⟨⟨as, has⟩, bs, hbs⟩
          rintro rfl
          exact hnilB hb
        have hrun : merge (depth + 1) va vb = pure vb := by
          refine merge_eq_second hnilA hnilB (fun hboth => ?_) (fun x y hx hy => ?_) depth
          · rw [Bool.and_eq_true] at hboth
            obtain ⟨fa, rfl⟩ := exists_fields_of_isObject ha hboth.1
            obtain ⟨fb, rfl⟩ := exists_fields_of_isObject hb hboth.2
            exact hobj ⟨⟨fa, rfl⟩, fb, rfl⟩
          · subst hx hy
            obtain ⟨as, rfl, -⟩ := Heap.represents_slice.mp ha
            obtain ⟨bs, rfl, -⟩ := Heap.represents_slice.mp hb
            exact harr ⟨⟨as, rfl⟩, bs, rfl⟩
        rw [hsecond, hrun]
        exact ⟨vb, h, rfl, merged_right hb hvb⟩

/-! ### The deep union -/

/-- **`merge` is a deep union.**  It returns the union of any two JSON values and changes neither of
them; the union obeys its laws; and three values of which no two are of different kinds at one path
are merged to one value in both groupings. -/
theorem merge_deepUnion (horder : Enumerates order) :
    Json.DeepUnion Json.merge ∧
    (∀ depth h va vb a b, h.Represents va a → h.Represents vb b → h.AllocatedBelow va →
      h.AllocatedBelow vb → min a.depth b.depth < depth →
      ∃ v h', (merge depth va vb).run (Heap.handle order) h = (some v, h') ∧
        h'.Represents v (a.merge b) ∧ h.Grows h' ∧ h'.Represents va a ∧ h'.Represents vb b) ∧
    ∀ depth h va vb vc a b c, h.Represents va a → h.Represents vb b → h.Represents vc c →
      h.AllocatedBelow va → h.AllocatedBelow vb → h.AllocatedBelow vc →
      a.depth < depth → b.depth < depth → c.depth < depth →
      Json.SameKinds a b → Json.SameKinds a c → Json.SameKinds b c →
      ∃ j v h₁ w h₂,
        (merge depth va vb >>= fun ab => merge depth ab vc).run (Heap.handle order) h =
          (some v, h₁) ∧
        (merge depth vb vc >>= fun bc => merge depth va bc).run (Heap.handle order) h =
          (some w, h₂) ∧ h₁.Represents v j ∧ h₂.Represents w j := by
  refine ⟨Json.merge_isDeepUnion, ?_, ?_⟩
  · intro depth h va vb a b ha hb hva hvb hdepth
    obtain ⟨v, h', hrun, hmerged⟩ := merge_computes horder depth h va vb a b ha hb hva hvb hdepth
    exact ⟨v, h', hrun, hmerged.represents, hmerged.grows,
      (hmerged.grows.keeps hva).represents ha, (hmerged.grows.keeps hvb).represents hb⟩
  · intro depth h va vb vc a b c ha hb hc hva hvb hvc hda hdb hdc hab hac hbc
    obtain ⟨ab, h₁, hrun₁, hm₁⟩ :=
      merge_computes horder depth h va vb a b ha hb hva hvb (by omega)
    have hkeepsC : h.Keeps vc h₁ := hm₁.grows.keeps hvc
    obtain ⟨v, h₂, hrun₂, hm₂⟩ :=
      merge_computes horder depth h₁ ab vc _ c hm₁.represents (hkeepsC.represents hc)
        hm₁.allocated (hkeepsC.allocatedBelow hvc hm₁.grows.next) (by omega)
    obtain ⟨bc, h₃, hrun₃, hm₃⟩ :=
      merge_computes horder depth h vb vc b c hb hc hvb hvc (by omega)
    have hkeepsA : h.Keeps va h₃ := hm₃.grows.keeps hva
    obtain ⟨w, h₄, hrun₄, hm₄⟩ :=
      merge_computes horder depth h₃ va bc a _ (hkeepsA.represents ha) hm₃.represents
        (hkeepsA.allocatedBelow hva hm₃.grows.next) hm₃.allocated (by omega)
    refine ⟨a.merge (b.merge c), v, h₂, w, h₄, ?_, ?_, ?_, hm₄.represents⟩
    · rw [Prog.run_bind_of_some _ _ hrun₁, hrun₂]
    · rw [Prog.run_bind_of_some _ _ hrun₃, hrun₄]
    · rw [← Json.merge_assoc (Heap.Represents.keysOnce hc) hab hac hbc]
      exact hm₂.represents

theorem enumerates_ascending : Enumerates Event.ascending :=
  fun s => ⟨s.sort_nodup (· ≤ ·), fun _ => s.mem_sort (· ≤ ·)⟩

/-- Two objects with one field each. -/
def twoObjects : Heap :=
  (Heap.empty.makeMap.1.makeMap.1.setKey 0 "a" (.bool true)).setKey 1 "b" (.bool false)

/-- A map with one entry that is a truth value. -/
theorem holds_truth {key : String} {x : Bool} (hself : h.getKey ra key = some (.bool x))
    (hother : ∀ k ≠ key, h.getKey ra k = none) (k : String) :
    h.HoldsField (fun _ => False) ra k ([(key, Json.bool x)].lookup k) := by
  by_cases hk : k = key
  · subst hk
    rw [List.lookup_cons_self]
    exact ⟨.bool x, hself, rfl, (Heap.fresh_of_not_container rfl 0).allocated,
      fun y hy => Heap.not_reaches rfl hy⟩
  · rw [List.lookup_cons, beq_false_of_ne hk]
    exact hother k hk

theorem holds_twoObjects :
    (∀ k, twoObjects.HoldsField (fun _ => False) 0 k ([("a", Json.bool true)].lookup k)) ∧
      ∀ k, twoObjects.HoldsField (fun _ => False) 1 k ([("b", Json.bool false)].lookup k) := by
  constructor
  · refine holds_truth rfl fun k hk => ?_
    have hread : twoObjects.getKey 0 k =
        (Heap.empty.makeMap.1.makeMap.1.setKey 0 "a" (.bool true)).getKey 0 k := rfl
    rw [hread, Heap.getKey_setKey_of_ne hk]
    rfl
  · refine holds_truth rfl fun k hk => ?_
    unfold twoObjects
    rw [Heap.getKey_setKey_of_ne hk]
    rfl

/-- Their union has both fields. -/
theorem merge_deepUnion_twoObjects :
    ∃ v h', (merge 2 (.map 0) (.map 1)).run (Heap.handle Event.ascending) twoObjects =
      (some v, h') ∧
      h'.Represents v (.obj [("b", .bool false), ("a", .bool true)]) := by
  obtain ⟨hzero, hone⟩ := holds_twoObjects
  have halloc : ∀ (r : Ref) (fields : List (String × Json)), r < 2 →
      (∀ k, twoObjects.HoldsField (fun _ => False) r k (fields.lookup k)) →
      twoObjects.AllocatedBelow (.map r) := by
    intro r fields hr hholds
    refine Heap.allocatedBelow_iff.mpr fun x hx => ?_
    rcases Heap.reaches_of_holds hholds hx with rfl | ⟨hfalse, -⟩
    · exact hr
    · exact hfalse.elim
  obtain ⟨v, h', hrun, hrep, -⟩ := (merge_deepUnion enumerates_ascending).2.1 2 twoObjects
    (.map 0) (.map 1) _ _ (Heap.represents_of_holds (by decide) hzero)
    (Heap.represents_of_holds (by decide) hone) (halloc 0 _ (by decide) hzero)
    (halloc 1 _ (by decide) hone) (by decide)
  exact ⟨v, h', hrun, hrep⟩

end Merge
