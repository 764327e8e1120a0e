/-
# JSON values in the heap

A Go value that came from JSON is a tree of maps and slices in the heap.  `Represents` says
which JSON value it is: a nil interface is `null`, a map holds the fields of an object, each
key once, and a slice the elements of an array.  Reading does not care whether two branches
share an object, so the relation allows it.
-/
import Ears.Json
import Ears.HeapPrograms

namespace Json

/-- Induction over JSON values, with what is known of all elements and of all fields. -/
@[elab_as_elim]
theorem tree_induction {P : Json → Prop} (null : P .null) (bool : ∀ b, P (.bool b))
    (num : ∀ text, P (.num text)) (str : ∀ s, P (.str s))
    (arr : ∀ elems, (∀ j ∈ elems, P j) → P (.arr elems))
    (obj : ∀ fields : List (String × Json), (∀ f ∈ fields, P f.2) → P (.obj fields)) (j : Json) :
    P j :=
  @Json.rec P (fun elems => ∀ j ∈ elems, P j) (fun fields => ∀ f ∈ fields, P f.2)
    (fun f => P f.2) null bool num str (fun elems ih => arr elems ih) (fun fields ih => obj fields ih)
    (by simp) (fun _ _ hj hjs => by simpa using ⟨hj, hjs⟩)
    (by simp) (fun _ _ hf hfs => List.forall_mem_cons.mpr ⟨hf, hfs⟩) (fun _ _ hj => hj) j

/-- The value under a key, null without the key. -/
def get (fields : List (String × Json)) (key : String) : Json := (fields.lookup key).getD .null

theorem mem_of_lookup {fields : List (String × Json)} {key : String} {j : Json}
    (hkey : fields.lookup key = some j) : (key, j) ∈ fields := by
  obtain ⟨l₁, l₂, rfl, -⟩ := List.lookup_eq_some_iff.mp hkey
  simp

theorem lookup_of_get_ne {fields : List (String × Json)} {key : String}
    (hne : get fields key ≠ .null) : ∃ j, fields.lookup key = some j := by
  rw [← Option.isSome_iff_exists, Option.isSome_iff_ne_none]
  intro hnone
  rw [get, hnone] at hne
  exact hne rfl

/-- With each key once, an entry is found under its key. -/
theorem lookup_of_mem {α : Type} {entries : List (String × α)}
    (hnodup : (entries.map Prod.fst).Nodup) {f : String × α} (hf : f ∈ entries) :
    entries.lookup f.1 = some f.2 := by
  obtain ⟨l₁, l₂, rfl⟩ := List.append_of_mem hf
  refine List.lookup_eq_some_iff.mpr ⟨l₁, l₂, rfl, fun p hp => ?_⟩
  rw [List.map_append, List.nodup_append] at hnodup
  rw [bne_iff_ne]
  exact (hnodup.2.2 p.1 (List.mem_map_of_mem hp) f.1 (by simp)).symm

theorem get_of_mem {fields : List (String × Json)} (hnodup : (fields.map Prod.fst).Nodup)
    {f : String × Json} (hf : f ∈ fields) : get fields f.1 = f.2 := by
  rw [get, lookup_of_mem hnodup hf, Option.getD_some]

mutual

/-- The objects have each key once. -/
def KeysOnce : Json → Prop
  | .arr elems => KeysOnceElems elems
  | .obj fields => (fields.map Prod.fst).Nodup ∧ KeysOnceFields fields
  | _ => True

/-- Each key once in a list of elements. -/
def KeysOnceElems : List Json → Prop
  | [] => True
  | j :: js => KeysOnce j ∧ KeysOnceElems js

/-- Each key once in the values of a list of fields. -/
def KeysOnceFields : List (String × Json) → Prop
  | [] => True
  | (_, j) :: fs => KeysOnce j ∧ KeysOnceFields fs

end

theorem keysOnceElems_iff {elems : List Json} :
    KeysOnceElems elems ↔ ∀ j ∈ elems, KeysOnce j := by
  induction elems with
  | nil => simp [KeysOnceElems]
  | cons j js ih => simp [KeysOnceElems, ih]

theorem keysOnceFields_iff {fields : List (String × Json)} :
    KeysOnceFields fields ↔ ∀ f ∈ fields, KeysOnce f.2 := by
  induction fields with
  | nil => simp [KeysOnceFields]
  | cons f fs ih =>
      obtain ⟨key, j⟩ := f
      simp [KeysOnceFields, ih]

theorem KeysOnce.get {fields : List (String × Json)} (honce : (Json.obj fields).KeysOnce)
    (key : String) : (get fields key).KeysOnce := by
  unfold Json.get
  cases hk : fields.lookup key with
  | none => trivial
  | some j => exact keysOnceFields_iff.mp honce.2 _ (mem_of_lookup hk)

mutual

/-- No null anywhere. -/
def NullFree : Json → Prop
  | .null => False
  | .bool _ => True
  | .num _ => True
  | .str _ => True
  | .arr elems => NullFreeElems elems
  | .obj fields => NullFreeFields fields

/-- No null in a list of elements. -/
def NullFreeElems : List Json → Prop
  | [] => True
  | j :: js => NullFree j ∧ NullFreeElems js

/-- No null in a list of fields. -/
def NullFreeFields : List (String × Json) → Prop
  | [] => True
  | (_, j) :: fs => NullFree j ∧ NullFreeFields fs

end

theorem nullFreeElems_iff {elems : List Json} :
    NullFreeElems elems ↔ ∀ j ∈ elems, NullFree j := by
  induction elems with
  | nil => simp [NullFreeElems]
  | cons j js ih => simp [NullFreeElems, ih]

theorem nullFreeFields_iff {fields : List (String × Json)} :
    NullFreeFields fields ↔ ∀ f ∈ fields, NullFree f.2 := by
  induction fields with
  | nil => simp [NullFreeFields]
  | cons f fs ih =>
      obtain ⟨key, j⟩ := f
      simp [NullFreeFields, ih]

end Json

namespace GoLib

mutual

/-- The value is this JSON value. -/
def Heap.Represents (h : Heap) : Value → Json → Prop
  | v, .null => v = .nil
  | v, .bool b => v = .bool b
  | v, .num text => v = .num text
  | v, .str s => v = .str s
  | v, .arr elems => ∃ r, v = .slice r ∧ h.RepresentsElems (h.slices r) elems
  | v, .obj fields =>
      ∃ r, v = .map r ∧ (fields.map Prod.fst).Nodup ∧
        (∀ key, h.getKey r key ≠ none → key ∈ fields.map Prod.fst) ∧ h.RepresentsFields r fields

/-- The values are these elements of an array. -/
def Heap.RepresentsElems (h : Heap) : List Value → List Json → Prop
  | [], [] => True
  | v :: vs, j :: js => h.Represents v j ∧ h.RepresentsElems vs js
  | _, _ => False

/-- The map holds these fields. -/
def Heap.RepresentsFields (h : Heap) (r : Ref) : List (String × Json) → Prop
  | [] => True
  | (key, j) :: fs => (∃ v, h.getKey r key = some v ∧ h.Represents v j) ∧ h.RepresentsFields r fs

end

/-- The JSON value of a Go value that is no map and no slice. -/
def Value.scalar : Value → Option Json
  | .nil => some .null
  | .bool b => some (.bool b)
  | .num text => some (.num text)
  | .str s => some (.str s)
  | _ => none

namespace Heap

variable {h : Heap} {v : Value} {vs : List Value} {j : Json} {elems : List Json}
  {fields : List (String × Json)} {r : Ref} {key : String}

theorem representsElems_iff :
    h.RepresentsElems vs elems ↔ List.Forall₂ h.Represents vs elems := by
  induction elems generalizing vs with
  | nil => cases vs <;> simp [RepresentsElems]
  | cons j js ih => cases vs <;> simp [RepresentsElems, ih]

theorem representsFields_iff : h.RepresentsFields r fields ↔
    ∀ f ∈ fields, ∃ v, h.getKey r f.1 = some v ∧ h.Represents v f.2 := by
  induction fields with
  | nil => simp [RepresentsFields]
  | cons f fs ih =>
      obtain ⟨key, j⟩ := f
      simp [RepresentsFields, ih]

theorem represents_arr : h.Represents v (.arr elems) ↔
    ∃ r, v = .slice r ∧ List.Forall₂ h.Represents (h.slices r) elems := by
  simp only [Represents, representsElems_iff]

/-- What the map of an object holds. -/
theorem represents_obj : h.Represents v (.obj fields) ↔
    ∃ r, v = .map r ∧ (fields.map Prod.fst).Nodup ∧
      (∀ key, h.getKey r key ≠ none → key ∈ fields.map Prod.fst) ∧
      ∀ f ∈ fields, ∃ v, h.getKey r f.1 = some v ∧ h.Represents v f.2 := by
  simp only [Represents, representsFields_iff]

theorem represents_scalar {u : Value} (hu : u.scalar = some j) : h.Represents v j ↔ v = u := by
  cases u <;> simp only [Value.scalar, Option.some.injEq, reduceCtorEq] at hu <;> subst hu <;>
    simp [Represents]

/-- A scalar represents one JSON value only. -/
theorem Represents.eq_scalar_iff (hv : h.Represents v j) {u : Value} {k : Json}
    (hu : u.scalar = some k) : v = u ↔ j = k := by
  constructor
  · rintro rfl
    cases j with
    | arr elems =>
        obtain ⟨r, rfl, -⟩ := represents_arr.mp hv
        simp [Value.scalar] at hu
    | obj fields =>
        obtain ⟨r, rfl, -⟩ := represents_obj.mp hv
        simp [Value.scalar] at hu
    | _ =>
        rw [Represents] at hv
        simpa [hv, Value.scalar] using hu
  · rintro rfl
    exact (represents_scalar hu).mp hv

/-- A slice is an array. -/
theorem represents_slice : h.Represents (.slice r) j ↔
    ∃ elems, j = .arr elems ∧ List.Forall₂ h.Represents (h.slices r) elems := by
  cases j with
  | arr elems => simp [represents_arr]
  | obj fields => simp [represents_obj]
  | _ => simp [Represents]

/-- A map is an object. -/
theorem Represents.exists_fields (hv : h.Represents (.map r) j) : ∃ fields, j = .obj fields := by
  cases j with
  | obj fields => exact ⟨fields, rfl⟩
  | arr elems => simp [represents_arr] at hv
  | _ => simp [Represents] at hv

/-- No JSON value is a map that was never made. -/
theorem not_represents_nilMap : ¬ h.Represents .nilMap j := by
  cases j with
  | arr elems => simp [represents_arr]
  | obj fields => simp [represents_obj]
  | _ => simp [Represents]

/-- What Go values represent has each key once. -/
theorem Represents.keysOnce (hv : h.Represents v j) : j.KeysOnce := by
  induction j using Json.tree_induction generalizing v with
  | arr elems ih =>
      obtain ⟨r, -, helems⟩ := represents_arr.mp hv
      refine Json.keysOnceElems_iff.mpr fun j hj => ?_
      obtain ⟨i, hi, rfl⟩ := List.mem_iff_get.mp hj
      have hi' : i.1 < (h.slices r).length := by
        rw [helems.length_eq]
        exact i.2
      exact ih _ hj ((List.forall₂_iff_get.mp helems).2 i.1 hi' i.2)
  | obj fields ih =>
      obtain ⟨r, -, hnodup, -, hfields⟩ := represents_obj.mp hv
      refine ⟨hnodup, Json.keysOnceFields_iff.mpr fun f hf => ?_⟩
      obtain ⟨v, -, hrep⟩ := hfields f hf
      exact ih f hf hrep
  | _ => trivial

/-- Reading a key of a represented object, present or not. -/
theorem represents_getKey (hv : h.Represents (.map r) (.obj fields)) (key : String) :
    h.Represents ((h.getKey r key).getD .nil) (Json.get fields key) := by
  obtain ⟨_, heq, hnodup, honly, hfields⟩ := represents_obj.mp hv
  obtain rfl := Value.map.inj heq
  cases hk : fields.lookup key with
  | none =>
      -- without a field there is no key
      have hnone : h.getKey r key = none := by
        by_contra hsome
        obtain ⟨f, hf, rfl⟩ := List.mem_map.mp (honly key hsome)
        simpa using List.lookup_eq_none_iff.mp hk f hf
      rw [hnone, Json.get, hk]
      rfl
  | some j =>
      obtain ⟨v, hkey, hrep⟩ := hfields (key, j) (Json.mem_of_lookup hk)
      rw [show h.getKey r key = some v from hkey, Json.get, hk]
      exact hrep

end Heap

end GoLib
