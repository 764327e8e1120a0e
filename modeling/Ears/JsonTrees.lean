/-
# Heaps that change around a value

A value reaches the objects and arrays at the positions below it.  A program that leaves these as
they are leaves the JSON value that it is (`Keeps.represents`).  What a program may write to is a
set of addresses (`Changes`); new objects and arrays are always allowed.
-/
import Ears.Positions

namespace Json

mutual

/-- How deep objects and arrays are nested. -/
def depth : Json → ℕ
  | .arr elems => depthElems elems + 1
  | .obj fields => depthFields fields + 1
  | _ => 0

/-- The depth of the deepest element. -/
def depthElems : List Json → ℕ
  | [] => 0
  | j :: js => max (depth j) (depthElems js)

/-- The depth of the deepest field. -/
def depthFields : List (String × Json) → ℕ
  | [] => 0
  | (_, j) :: fs => max (depth j) (depthFields fs)

end

/-- An element is no deeper than the deepest. -/
theorem depth_le_of_mem {elems : List Json} {j : Json} (hj : j ∈ elems) :
    j.depth ≤ depthElems elems := by
  induction elems with
  | nil => exact absurd hj List.not_mem_nil
  | cons k ks ih =>
      rw [depthElems]
      rcases List.mem_cons.mp hj with rfl | hj
      · exact le_max_left _ _
      · exact (ih hj).trans (le_max_right _ _)

/-- A field is no deeper than the deepest. -/
theorem depth_le_of_mem_fields {fields : List (String × Json)} {f : String × Json}
    (hf : f ∈ fields) : f.2.depth ≤ depthFields fields := by
  induction fields with
  | nil => exact absurd hf List.not_mem_nil
  | cons g gs ih =>
      obtain ⟨key, k⟩ := g
      rw [depthFields]
      rcases List.mem_cons.mp hf with rfl | hf
      · exact le_max_left _ _
      · exact (ih hf).trans (le_max_right _ _)

end Json

namespace GoLib

namespace Heap

variable {h h' h'' : Heap} {u v w : Value} {j : Json} {s : Step} {p q : List Step} {x : Ref}
  {A B : Ref → Prop}

/-! ## What a value reaches -/

/-- An object or an array below the value is at the address. -/
def Reaches (h : Heap) (v : Value) (x : Ref) : Prop :=
  ∃ p w, h.locate v p = some w ∧ w.isContainer ∧ w.address = x

/-- What a value below reaches is reached. -/
theorem Reaches.of_locate (hp : h.locate v p = some w) (hx : h.Reaches w x) : h.Reaches v x := by
  obtain ⟨q, u, hq, hu, rfl⟩ := hx
  exact ⟨p ++ q, u, by rw [locate_append_of_some hp, hq], hu, rfl⟩

theorem Reaches.of_step (hs : h.step v s = some w) (hx : h.Reaches w x) : h.Reaches v x :=
  hx.of_locate (p := [s]) (by rw [locate_singleton, hs])

/-- An object or an array reaches itself. -/
theorem reaches_self (hv : v.isContainer) : h.Reaches v v.address := ⟨[], v, rfl, hv, rfl⟩

/-- Texts, numbers and the like reach nothing. -/
theorem not_reaches (hv : v.isContainer = false) : ¬ h.Reaches v x := by
  rintro ⟨p, w, hp, hw, -⟩
  obtain ⟨-, rfl⟩ := locate_of_not_container hv hp
  rw [hv] at hw
  exact Bool.noConfusion hw

/-- A value reaches itself and what is reached one step below. -/
theorem reaches_iff : h.Reaches v x ↔
    v.isContainer ∧ v.address = x ∨ ∃ s w, h.step v s = some w ∧ h.Reaches w x := by
  constructor
  · rintro ⟨p, w, hp, hw, rfl⟩
    cases p with
    | nil =>
        obtain rfl := Option.some.inj hp
        exact Or.inl ⟨hw, rfl⟩
    | cons s p =>
        cases hs : h.step v s with
        | none =>
            rw [locate_cons_of_none hs] at hp
            exact nomatch hp
        | some u =>
            rw [locate_cons_of_some hs] at hp
            exact Or.inr ⟨s, u, hs, p, w, hp, hw, rfl⟩
  · rintro (⟨hv, rfl⟩ | ⟨s, w, hs, hx⟩)
    · exact reaches_self hv
    · exact hx.of_step hs

/-- A value is allocated when all it reaches is. -/
theorem allocatedBelow_iff : h.AllocatedBelow v ↔ ∀ x, h.Reaches v x → x < h.next := by
  constructor
  · rintro halloc x ⟨p, w, hp, hw, rfl⟩
    exact halloc p w hp hw
  · intro hreach p w hp hw
    exact hreach _ ⟨p, w, hp, hw, rfl⟩

theorem allocatedBelow_of_not_container (hv : v.isContainer = false) : h.AllocatedBelow v :=
  allocatedBelow_iff.mpr fun _ hx => absurd hx (not_reaches hv)

/-- Below an object or an array is what is below its values. -/
theorem allocatedBelow_of_steps (hv : v.address < h.next)
    (hsteps : ∀ s w, h.step v s = some w → h.AllocatedBelow w) : h.AllocatedBelow v := by
  refine allocatedBelow_iff.mpr fun x hx => ?_
  rcases reaches_iff.mp hx with ⟨-, rfl⟩ | ⟨s, w, hs, hx⟩
  · exact hv
  · exact allocatedBelow_iff.mp (hsteps s w hs) x hx

/-! ## What is kept -/

/-- The object and the array at the address are as before. -/
structure SameAt (h h' : Heap) (x : Ref) : Prop where
  maps : h'.maps x = h.maps x
  slices : h'.slices x = h.slices x

theorem SameAt.trans (hx : h.SameAt h' x) (hx' : h'.SameAt h'' x) : h.SameAt h'' x :=
  ⟨hx'.maps.trans hx.maps, hx'.slices.trans hx.slices⟩

/-- An object or an array that is as before has the same entries. -/
theorem SameAt.step (hx : h.SameAt h' v.address) (s : Step) : h'.step v s = h.step v s := by
  cases v with
  | map r =>
      cases s with
      | key k =>
          have hmaps : h'.maps r = h.maps r := hx.maps
          rw [step_key, step_key, getKey, hmaps, getKey]
      | index i => rfl
  | slice a =>
      cases s with
      | key k => rfl
      | index i =>
          have hslices : h'.slices a = h.slices a := hx.slices
          rw [step_index, step_index, hslices]
  | _ => rfl

/-- All that the value reaches is as before. -/
def Keeps (h : Heap) (v : Value) (h' : Heap) : Prop := ∀ x, h.Reaches v x → h.SameAt h' x

/-- What is below a value that is kept is kept. -/
theorem Keeps.of_locate (hkeeps : h.Keeps v h') (hp : h.locate v p = some w) : h.Keeps w h' :=
  fun x hx => hkeeps x (hx.of_locate hp)

theorem Keeps.of_step (hkeeps : h.Keeps v h') (hs : h.step v s = some w) : h.Keeps w h' :=
  fun x hx => hkeeps x (hx.of_step hs)

/-- A position of a value that is kept holds the same value. -/
theorem Keeps.locate (hkeeps : h.Keeps v h') (p : List Step) : h'.locate v p = h.locate v p := by
  refine locate_congr fun q s u _ hu => ?_
  cases hcont : u.isContainer with
  | false => rw [step_of_not_container hcont, step_of_not_container hcont]
  | true => exact (hkeeps _ ⟨q, u, hu, hcont, rfl⟩).step s

/-- A value that is kept reaches the same addresses. -/
theorem Keeps.reaches (hkeeps : h.Keeps v h') : h'.Reaches v x ↔ h.Reaches v x := by
  unfold Reaches
  simp only [hkeeps.locate]

theorem Keeps.refl (h : Heap) (v : Value) : h.Keeps v h := fun _ _ => ⟨rfl, rfl⟩

/-- What one heap keeps and the next too is kept by both. -/
theorem Keeps.trans (hkeeps : h.Keeps v h') (hkeeps' : h'.Keeps v h'') : h.Keeps v h'' :=
  fun x hx => (hkeeps x hx).trans (hkeeps' x (hkeeps.reaches.mpr hx))

/-- A value that is kept stays allocated. -/
theorem Keeps.allocatedBelow (hkeeps : h.Keeps v h') (halloc : h.AllocatedBelow v)
    (hnext : h.next ≤ h'.next) : h'.AllocatedBelow v :=
  allocatedBelow_iff.mpr fun x hx =>
    (allocatedBelow_iff.mp halloc x (hkeeps.reaches.mp hx)).trans_le hnext

/-- A value that is kept shares no more than before. -/
theorem Keeps.unshared (hkeeps : h.Keeps v h') (hv : h.Unshared v) : h'.Unshared v := by
  intro p q u hu hp hq
  rw [hkeeps.locate] at hp hq
  exact hv p q u hu hp hq

/-- A value whose objects and arrays are kept is the same JSON value. -/
theorem Keeps.represents (hkeeps : h.Keeps v h') (hv : h.Represents v j) : h'.Represents v j := by
  induction j using Json.tree_induction generalizing v with
  | arr elems ih =>
      obtain ⟨r, rfl, helems⟩ := represents_arr.mp hv
      have hr : h.SameAt h' r := hkeeps r (reaches_self rfl)
      refine represents_arr.mpr ⟨r, rfl, ?_⟩
      rw [hr.slices]
      refine List.forall₂_iff_get.mpr ⟨helems.length_eq, fun i hi hi' => ?_⟩
      refine ih _ (List.get_mem _ _) ?_ (List.forall₂_iff_get.mp helems |>.2 i hi hi')
      exact hkeeps.of_step (s := .index i) (by rw [step_index]; exact List.getElem?_eq_getElem hi)
  | obj fields ih =>
      obtain ⟨r, rfl, hnodup, honly, hfields⟩ := represents_obj.mp hv
      have hr : h.SameAt h' r := hkeeps r (reaches_self rfl)
      have hget : ∀ key, h'.getKey r key = h.getKey r key := by
        intro key
        rw [getKey, hr.maps, getKey]
      refine represents_obj.mpr ⟨r, rfl, hnodup, fun key hkey => ?_, fun f hf => ?_⟩
      · rw [hget] at hkey
        exact honly key hkey
      · obtain ⟨w, hw, hrep⟩ := hfields f hf
        exact ⟨w, by rw [hget, hw], ih f hf (hkeeps.of_step (s := .key f.1) hw) hrep⟩
  | _ => exact hv

/-- Values that are kept are the same elements. -/
theorem forall₂_represents_of_keeps {vs : List Value} {elems : List Json}
    (hvs : List.Forall₂ h.Represents vs elems) (hkeeps : ∀ u ∈ vs, h.Keeps u h') :
    List.Forall₂ h'.Represents vs elems := by
  refine List.forall₂_iff_get.mpr ⟨hvs.length_eq, fun i hi hi' => ?_⟩
  exact (hkeeps _ (List.get_mem _ _)).represents ((List.forall₂_iff_get.mp hvs).2 i hi hi')

/-- What is below a JSON value is a JSON value, and no deeper. -/
theorem Represents.of_step (hv : h.Represents v j) (hs : h.step v s = some w) :
    ∃ k, h.Represents w k ∧ k.depth < j.depth := by
  cases v with
  | map r =>
      cases s with
      | index i => exact nomatch hs
      | key key =>
          obtain ⟨fields, rfl⟩ := hv.exists_fields
          obtain ⟨_, heq, hnodup, honly, hfields⟩ := represents_obj.mp hv
          obtain rfl := Value.map.inj heq
          have hmem := honly key (by rw [← step_key, hs]; simp)
          obtain ⟨f, hf, rfl⟩ := List.mem_map.mp hmem
          obtain ⟨u, hu, hrep⟩ := hfields f hf
          rw [step_key, hu] at hs
          obtain rfl := Option.some.inj hs
          refine ⟨f.2, hrep, ?_⟩
          rw [Json.depth]
          exact Nat.lt_succ_of_le (Json.depth_le_of_mem_fields hf)
  | slice a =>
      cases s with
      | key key => exact nomatch hs
      | index i =>
          obtain ⟨elems, rfl, helems⟩ := represents_slice.mp hv
          rw [step_index] at hs
          obtain ⟨hi, rfl⟩ := List.getElem?_eq_some_iff.mp hs
          have hi' : i < elems.length := helems.length_eq ▸ hi
          refine ⟨elems[i], List.forall₂_iff_get.mp helems |>.2 i hi hi', ?_⟩
          rw [Json.depth]
          exact Nat.lt_succ_of_le (Json.depth_le_of_mem (List.getElem_mem hi'))
  | _ => exact nomatch hs

/-- The same for any position. -/
theorem Represents.of_locate (hv : h.Represents v j) (hp : h.locate v p = some w) :
    ∃ k, h.Represents w k ∧ k.depth ≤ j.depth := by
  induction p generalizing v j with
  | nil =>
      obtain rfl := Option.some.inj hp
      exact ⟨j, hv, le_rfl⟩
  | cons s p ih =>
      cases hs : h.step v s with
      | none =>
          rw [locate_cons_of_none hs] at hp
          exact nomatch hp
      | some u =>
          rw [locate_cons_of_some hs] at hp
          obtain ⟨k, hk, hlt⟩ := hv.of_step hs
          obtain ⟨k', hk', hle⟩ := ih hk hp
          exact ⟨k', hk', hle.trans hlt.le⟩

/-! ## What is changed -/

/-- Of what was allocated only the objects and arrays of the set are written to. -/
structure Changes (A : Ref → Prop) (h h' : Heap) : Prop where
  next : h.next ≤ h'.next
  same : ∀ x < h.next, ¬ A x → h.SameAt h' x

theorem Changes.refl (A : Ref → Prop) (h : Heap) : Changes A h h := ⟨le_rfl, fun _ _ _ => ⟨rfl, rfl⟩⟩

/-- Changes one after the other stay in the set. -/
theorem Changes.trans (hch : Changes A h h') (hch' : Changes A h' h'') : Changes A h h'' :=
  ⟨hch.next.trans hch'.next, fun x hx hA =>
    (hch.same x hx hA).trans (hch'.same x (hx.trans_le hch.next) hA)⟩

/-- Only the addresses that were allocated count. -/
theorem Changes.mono (hch : Changes A h h') (hAB : ∀ x < h.next, A x → B x) : Changes B h h' :=
  ⟨hch.next, fun x hx hB => hch.same x hx fun hA => hB (hAB x hx hA)⟩

/-- What reaches nothing that is written to is kept. -/
theorem Changes.keeps (hch : Changes A h h') (halloc : h.AllocatedBelow v)
    (hA : ∀ x, h.Reaches v x → ¬ A x) : h.Keeps v h' :=
  fun x hx => hch.same x (allocatedBelow_iff.mp halloc x hx) (hA x hx)

/-- Nothing that was allocated is written to. -/
abbrev Grows (h h' : Heap) : Prop := Changes (fun _ => False) h h'

/-- What was allocated is kept by a heap that grows. -/
theorem Grows.keeps (hgrows : h.Grows h') (halloc : h.AllocatedBelow v) : h.Keeps v h' :=
  Changes.keeps hgrows halloc fun _ _ hfalse => hfalse

/-- A heap that grows stays in every set. -/
theorem Grows.changes (hgrows : h.Grows h') (A : Ref → Prop) : Changes A h h' :=
  Changes.mono hgrows fun _ _ hfalse => hfalse.elim

/-- Setting a key writes to its object only. -/
theorem changes_setKey (r : Ref) (k : String) (v : Value) :
    Changes (· = r) h (h.setKey r k v) := by
  refine ⟨le_rfl, fun x _ hx => ⟨?_, rfl⟩⟩
  simp [setKey, Function.update_of_ne hx]

/-- Making an object writes to none that was there. -/
theorem grows_makeMap (h : Heap) : h.Grows h.makeMap.1 := by
  refine ⟨Nat.le_succ _, fun x hx _ => ⟨?_, rfl⟩⟩
  simp [makeMap, Function.update_of_ne hx.ne]

/-- Making an array writes to none that was there. -/
theorem grows_makeSlice (h : Heap) (vs : List Value) : h.Grows (h.makeSlice vs).1 := by
  refine ⟨Nat.le_succ _, fun x hx _ => ⟨rfl, ?_⟩⟩
  simp [makeSlice, Function.update_of_ne hx.ne]

/-! ### Making a value -/

theorem makeSlice_slices (h : Heap) (vs : List Value) :
    (h.makeSlice vs).1.slices h.next = vs := by simp [makeSlice]

/-- Values can be held under different keys of one object. -/
theorem exists_finmap (entries : List (String × Value)) :
    ∃ m : Finmap fun _ : String => Value, ∀ key, m.lookup key = entries.lookup key := by
  induction entries with
  | nil => exact ⟨∅, fun key => Finmap.lookup_empty key⟩
  | cons f entries ih =>
      obtain ⟨k, v⟩ := f
      obtain ⟨m, hm⟩ := ih
      refine ⟨m.insert k v, fun key => ?_⟩
      by_cases hkey : key = k
      · rw [hkey, Finmap.lookup_insert, List.lookup_cons_self]
      · rw [Finmap.lookup_insert_of_ne _ hkey, hm, List.lookup_cons, beq_false_of_ne hkey]

/-- The values of a list can be made one after the other. -/
theorem exists_representsElems {elems : List Json}
    (hmake : ∀ j ∈ elems, ∀ h : Heap, ∃ h' v, h.Grows h' ∧ h'.Represents v j ∧ h'.AllocatedBelow v)
    (h : Heap) : ∃ h' vs, h.Grows h' ∧ List.Forall₂ h'.Represents vs elems ∧
      ∀ v ∈ vs, h'.AllocatedBelow v := by
  induction elems with
  | nil => exact ⟨h, [], Changes.refl _ h, .nil, by simp⟩
  | cons j elems ih =>
      obtain ⟨hj, hmake⟩ := List.forall_mem_cons.mp hmake
      obtain ⟨h', vs, hgrows, hvs, halloc⟩ := ih hmake
      obtain ⟨h'', v, hgrows', hv, hvalloc⟩ := hj h'
      have hkeeps : ∀ u ∈ vs, h'.Keeps u h'' := fun u hu => hgrows'.keeps (halloc u hu)
      refine ⟨h'', v :: vs, hgrows.trans hgrows', .cons hv (forall₂_represents_of_keeps hvs hkeeps),
        List.forall_mem_cons.mpr ⟨hvalloc, fun u hu => ?_⟩⟩
      exact (hkeeps u hu).allocatedBelow (halloc u hu) hgrows'.next

/-- Every JSON value with each key once can be made. -/
theorem exists_represents (hj : j.KeysOnce) (h : Heap) :
    ∃ h' v, h.Grows h' ∧ h'.Represents v j ∧ h'.AllocatedBelow v := by
  induction j using Json.tree_induction generalizing h with
  | arr elems ih =>
      obtain ⟨h', vs, hgrows, hvs, halloc⟩ :=
        exists_representsElems (fun j hj' => ih j hj' (Json.keysOnceElems_iff.mp hj j hj')) h
      have hmade := grows_makeSlice h' vs
      have hslices := makeSlice_slices h' vs
      have hkeeps : ∀ u ∈ vs, h'.Keeps u (h'.makeSlice vs).1 :=
        fun u hu => hmade.keeps (halloc u hu)
      refine ⟨(h'.makeSlice vs).1, .slice h'.next, hgrows.trans hmade, ?_, ?_⟩
      · refine represents_arr.mpr ⟨h'.next, rfl, ?_⟩
        rw [hslices]
        exact forall₂_represents_of_keeps hvs hkeeps
      · refine allocatedBelow_of_steps (Nat.lt_succ_self _) fun s w hs => ?_
        cases s with
        | key k => cases hs
        | index i =>
            rw [step_index, hslices] at hs
            have hw := List.mem_of_getElem? hs
            exact (hkeeps w hw).allocatedBelow (halloc w hw) hmade.next
  | obj fields ih =>
      obtain ⟨hnodup, honce⟩ := hj
      have hmake : ∀ j ∈ fields.map Prod.snd, ∀ h : Heap,
          ∃ h' v, h.Grows h' ∧ h'.Represents v j ∧ h'.AllocatedBelow v := by
        intro j hj'
        obtain ⟨f, hf, rfl⟩ := List.mem_map.mp hj'
        exact ih f hf (Json.keysOnceFields_iff.mp honce f hf)
      obtain ⟨h', vs, hgrows, hvs, halloc⟩ := exists_representsElems hmake h
      have hlen : vs.length = fields.length := by simpa using hvs.length_eq
      obtain ⟨m, hm⟩ := exists_finmap ((fields.map Prod.fst).zip vs)
      -- the object is made with all its fields
      obtain ⟨h'', hdef⟩ : ∃ h'' : Heap, h'' =
        { h' with maps := Function.update h'.maps h'.next m, next := h'.next + 1 } := ⟨_, rfl⟩
      have hmade : h'.Grows h'' := by
        subst hdef
        refine ⟨Nat.le_succ _, fun x hx _ => ⟨?_, rfl⟩⟩
        simp [Function.update_of_ne hx.ne]
      have hget : ∀ key, h''.getKey h'.next key = ((fields.map Prod.fst).zip vs).lookup key := by
        intro key
        rw [← hm key, hdef]
        simp [getKey]
      have hkeeps : ∀ u ∈ vs, h'.Keeps u h'' := fun u hu => hmade.keeps (halloc u hu)
      refine ⟨h'', .map h'.next, hgrows.trans hmade, ?_, ?_⟩
      · refine represents_obj.mpr ⟨h'.next, rfl, hnodup, fun key hkey => ?_, fun f hf => ?_⟩
        · rw [hget] at hkey
          obtain ⟨v, hv⟩ := Option.ne_none_iff_exists'.mp hkey
          obtain ⟨l₁, l₂, hzip, -⟩ := List.lookup_eq_some_iff.mp hv
          exact (List.of_mem_zip (hzip ▸ List.mem_append_right l₁ List.mem_cons_self)).1
        · obtain ⟨i, hi, rfl⟩ := List.getElem_of_mem hf
          have hvi : i < vs.length := hlen ▸ hi
          have hrep : h'.Represents vs[i] fields[i].2 := by
            simpa using (List.forall₂_iff_get.mp hvs).2 i hvi (by simpa using hi)
          have hentry : (fields[i].1, vs[i]) ∈ (fields.map Prod.fst).zip vs := by
            refine List.mem_iff_getElem.mpr ⟨i, by simpa using ⟨hi, hvi⟩, by simp⟩
          refine ⟨vs[i], ?_, (hkeeps _ (List.getElem_mem hvi)).represents hrep⟩
          rw [hget]
          exact Json.lookup_of_mem (by rwa [List.map_fst_zip (by simp [hlen])]) hentry
      · refine allocatedBelow_of_steps (by subst hdef; exact Nat.lt_succ_self _) fun s w hs => ?_
        cases s with
        | index i => cases hs
        | key k =>
            rw [step_key, hget] at hs
            obtain ⟨l₁, l₂, hzip, -⟩ := List.lookup_eq_some_iff.mp hs
            have hw := (List.of_mem_zip (hzip ▸ List.mem_append_right l₁ List.mem_cons_self)).2
            exact (hkeeps w hw).allocatedBelow (halloc w hw) hmade.next
  | null => exact ⟨h, .nil, Changes.refl _ h, rfl, allocatedBelow_of_not_container rfl⟩
  | bool b => exact ⟨h, .bool b, Changes.refl _ h, rfl, allocatedBelow_of_not_container rfl⟩
  | num t => exact ⟨h, .num t, Changes.refl _ h, rfl, allocatedBelow_of_not_container rfl⟩
  | str t => exact ⟨h, .str t, Changes.refl _ h, rfl, allocatedBelow_of_not_container rfl⟩

/-! ### One entry -/

variable {c : Value}

/-- An object and an array are known by their entries. -/
theorem sameAt_of_steps
    (hsteps : ∀ u s, u.isContainer → u.address = x → h'.step u s = h.step u s) : h.SameAt h' x :=
  ⟨Finmap.ext_lookup fun k => hsteps (.map x) (.key k) rfl rfl,
    List.ext_getElem? fun i => hsteps (.slice x) (.index i) rfl rfl⟩

/-- The objects and arrays elsewhere are as before. -/
theorem Writes.sameAt (hw : h.Writes c s w h') (hx : x < h.next) (hne : x ≠ c.address) :
    h.SameAt h' x := by
  refine sameAt_of_steps fun u s' hu haddr => hw.frame u s' hu (haddr ▸ hx) fun heq => ?_
  rw [← heq] at hne
  exact absurd haddr.symm hne

/-- A write changes the object or the array it goes to and no other. -/
theorem Writes.changes (hw : h.Writes c s w h') (hnext : h.next ≤ h'.next) :
    Changes (· = c.address) h h' := ⟨hnext, fun _ hx hne => hw.sameAt hx hne⟩

/-- An entry that holds the value already. -/
theorem writes_of_step (hc : c.isContainer) (hs : h.step c s = some w) : h.Writes c s w h :=
  ⟨hc, hs, fun _ _ _ _ _ => rfl⟩

/-- The same entry is written again. -/
theorem Writes.trans (hw : h.Writes c s v h') (hw' : h'.Writes c s w h'') (hnext : h.next ≤ h'.next) :
    h.Writes c s w h'' := by
  refine ⟨hw.container, hw'.written, fun u s' hu hlt hoff => ?_⟩
  rw [hw'.frame u s' hu (hlt.trans_le hnext) hoff, hw.frame u s' hu hlt hoff]

/-- After a write nothing else of what was there is changed. -/
theorem Writes.grows (hw : h.Writes c s w h') (hgrows : h'.Grows h'') (hnext : h.next ≤ h'.next)
    (hc : c.address < h'.next) : h.Writes c s w h'' where
  container := hw.container
  written := ((hgrows.same _ hc not_false).step s).trans hw.written
  frame u s' hu haddr hne :=
    ((hgrows.same _ (haddr.trans_le hnext) not_false).step s').trans (hw.frame u s' hu haddr hne)

/-! ### What was made since -/

/-- The value is a tree of objects and arrays made since the address was the next. -/
structure Fresh (h : Heap) (start : Ref) (v : Value) : Prop where
  made : ∀ x, h.Reaches v x → start ≤ x
  allocated : h.AllocatedBelow v
  unshared : h.Unshared v

/-- Texts, numbers and the like count as made at any time. -/
theorem fresh_of_not_container (hv : v.isContainer = false) (start : Ref) : h.Fresh start v := by
  refine ⟨fun x hx => absurd hx (not_reaches hv), allocatedBelow_of_not_container hv, ?_⟩
  · intro p q u _ hp hq
    rw [(locate_of_not_container hv hp).1, (locate_of_not_container hv hq).1]

/-- A tree that is kept is one still. -/
theorem Keeps.fresh (hkeeps : h.Keeps v h') {start : Ref} (hv : h.Fresh start v)
    (hnext : h.next ≤ h'.next) : h'.Fresh start v :=
  ⟨fun x hx => hv.made x (hkeeps.reaches.mp hx), hkeeps.allocatedBelow hv.allocated hnext,
    hkeeps.unshared hv.unshared⟩

end Heap

end GoLib
