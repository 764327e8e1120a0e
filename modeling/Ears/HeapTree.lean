/-
# Trees of maps in the heap

A map and the maps below it are a tree when no map is reached in two ways.  `walk` follows
keys from a value, and `write` follows keys from a map, makes the maps that are missing, and
writes at the last key.

On a tree the two are a lens: what was written is read (`walk_write`), the second of two writes
decides (`write_write`), and a key path that neither continues the written one nor is continued
by it reads as before (`getD_walk_write`).
-/
import Ears.GoLib

namespace GoLib.Heap

/-- Follow keys from a value. -/
def walk (h : Heap) : Value → List String → Option Value
  | v, [] => some v
  | .map r, k :: ks => (h.getKey r k).bind fun u => h.walk u ks
  | _, _ :: _ => none

/-- The map under a key; it is made if there is none. -/
def enter (h : Heap) (r : Ref) (k : String) : Heap × Ref :=
  match h.getKey r k with
  | some (.map m) => (h, m)
  | _ => (h.makeMap.1.setKey r k (.map h.makeMap.2), h.makeMap.2)

/-- Write a value at the end of a path of keys. -/
def write (v : Value) : List String → Heap → Ref → Heap
  | [], h, _ => h
  | k :: ks, h, r =>
      if ks = [] then h.setKey r k v else write v ks (h.enter r k).1 (h.enter r k).2

/-- Under every key on the way that `write` takes there is a map or nothing. -/
def Passable : List String → Heap → Ref → Prop
  | [], _, _ => True
  | k :: ks, h, r =>
      ks = [] ∨ (∀ u, h.getKey r k = some u → ∃ m, u = .map m) ∧
        Passable ks (h.enter r k).1 (h.enter r k).2

/-- No map is reached from the map by two paths, and all that are reached are allocated. -/
structure TreeAt (h : Heap) (r : Ref) : Prop where
  unshared : ∀ p q x, h.walk (.map r) p = some (.map x) → h.walk (.map r) q = some (.map x) → p = q
  allocated : ∀ p x, h.walk (.map r) p = some (.map x) → x < h.next

/-- Each proper beginning of the path leads to a map or to nothing. -/
def Fits (h : Heap) (r : Ref) (keys : List String) : Prop :=
  ∀ p, p <+: keys → p ≠ keys → ∀ u, h.walk (.map r) p = some u → ∃ x, u = .map x

variable {h : Heap} {r x : Ref} {k : String} {ks keys : List String} {v w u : Value}

/-! ## Walks -/

@[simp] theorem walk_nil (h : Heap) (v : Value) : h.walk v [] = some v := by
  cases v <;> rfl

theorem walk_cons (h : Heap) (r : Ref) (k : String) (ks : List String) :
    h.walk (.map r) (k :: ks) = (h.getKey r k).bind fun u => h.walk u ks := rfl

theorem walk_cons_of_some (hk : h.getKey r k = some u) :
    h.walk (.map r) (k :: ks) = h.walk u ks := by
  rw [walk_cons, hk, Option.bind_some]

theorem walk_cons_of_none (hk : h.getKey r k = none) : h.walk (.map r) (k :: ks) = none := by
  rw [walk_cons, hk, Option.bind_none]

/-- A walk reads the maps it comes through only. -/
theorem walk_congr {h' : Heap}
    (hmaps : ∀ p x, h.walk u p = some (.map x) → h'.maps x = h.maps x) (q : List String) :
    h'.walk u q = h.walk u q := by
  induction q generalizing u with
  | nil => simp
  | cons k q ih =>
      cases u with
      | map r =>
          have hr : h'.getKey r k = h.getKey r k := by
            unfold getKey
            rw [hmaps [] r (walk_nil h _)]
          cases hk : h.getKey r k with
          | none => rw [walk_cons_of_none hk, walk_cons_of_none (hr.trans hk)]
          | some child =>
              rw [walk_cons_of_some hk, walk_cons_of_some (hr.trans hk)]
              apply ih
              intro p x hp
              exact hmaps (k :: p) x (by rw [walk_cons_of_some hk, hp])
      | _ => rfl

theorem getKey_setKey_self (h : Heap) (r : Ref) (k : String) (v : Value) :
    (h.setKey r k v).getKey r k = some v := by
  simp [getKey, setKey]

theorem getKey_setKey_of_ne {k' : String} (hne : k' ≠ k) :
    (h.setKey r k v).getKey r k' = h.getKey r k' := by
  simp [getKey, setKey, Finmap.lookup_insert_of_ne _ hne]

theorem setKey_maps_of_ne (hne : x ≠ r) : (h.setKey r k v).maps x = h.maps x :=
  Function.update_of_ne hne _ _

theorem makeMap_maps_of_ne (hne : x ≠ h.next) : h.makeMap.1.maps x = h.maps x :=
  Function.update_of_ne hne _ _

theorem getKey_makeMap (h : Heap) (key : String) : h.makeMap.1.getKey h.next key = none := by
  simp [Heap.getKey, Heap.makeMap]

theorem enter_of_some {m : Ref} (hk : h.getKey r k = some (.map m)) : h.enter r k = (h, m) := by
  unfold enter
  rw [hk]

theorem setKey_setKey (h : Heap) (r : Ref) (k : String) (v w : Value) :
    (h.setKey r k v).setKey r k w = h.setKey r k w := by
  simp [setKey, Finmap.insert_insert]

/-! ## Empty maps -/

/-- Below an empty map there is nothing. -/
theorem walk_of_empty (hempty : ∀ key, h.getKey r key = none) {p : List String}
    (hp : h.walk (.map r) p = some u) : p = [] ∧ u = .map r := by
  cases p with
  | nil =>
      rw [walk_nil, Option.some.injEq] at hp
      exact ⟨rfl, hp.symm⟩
  | cons key p =>
      rw [walk_cons_of_none (hempty key)] at hp
      simp at hp

theorem treeAt_of_empty (hr : r < h.next) (hempty : ∀ key, h.getKey r key = none) :
    h.TreeAt r where
  unshared := by
    intro p q x hp hq
    rw [(walk_of_empty hempty hp).1, (walk_of_empty hempty hq).1]
  allocated := by
    intro p x hp
    rw [Value.map.inj (walk_of_empty hempty hp).2]
    exact hr

theorem fits_of_empty (hempty : ∀ key, h.getKey r key = none) (keys : List String) :
    h.Fits r keys :=
  fun _ _ _ _ hu => ⟨r, (walk_of_empty hempty hu).2⟩

/-! ## One step down -/

/-- What is known of the map under a key once it is there. -/
structure Entered (h : Heap) (r : Ref) (k : String) (ks : List String) (h' : Heap) (m : Ref) :
    Prop where
  here : h'.getKey r k = some (.map m)
  beside : ∀ k', k' ≠ k → h'.getKey r k' = h.getKey r k'
  other : ∀ x, x ≠ r → x < h.next → h'.maps x = h.maps x
  next : h.next ≤ h'.next
  tree : h'.TreeAt m
  fits : h'.Fits m ks
  below : ∀ p x, h'.walk (.map m) p = some (.map x) → x < h.next →
    h.walk (.map r) (k :: p) = some (.map x)
  read : ∀ q, q ≠ [] → (h'.walk (.map m) q).getD .nil = (h.walk (.map r) (k :: q)).getD .nil

/-- The map is there already. -/
theorem TreeAt.entered_of_some (ht : h.TreeAt r) (hf : h.Fits r (k :: ks)) {m : Ref}
    (hk : h.getKey r k = some (.map m)) : Entered h r k ks h m where
  here := hk
  beside := fun _ _ => rfl
  other := fun _ _ _ => rfl
  next := le_rfl
  tree := by
    constructor
    · intro p q x hp hq
      have heq := ht.unshared (k :: p) (k :: q) x (by rw [walk_cons_of_some hk, hp])
        (by rw [walk_cons_of_some hk, hq])
      exact (List.cons.inj heq).2
    · intro p x hp
      exact ht.allocated (k :: p) x (by rw [walk_cons_of_some hk, hp])
  fits := by
    intro p hp hne u hu
    refine hf (k :: p) (List.cons_prefix_cons.mpr ⟨rfl, hp⟩) ?_ u (by rw [walk_cons_of_some hk, hu])
    exact fun heq => hne (List.cons.inj heq).2
  below := fun p x hp _ => by rw [walk_cons_of_some hk, hp]
  read := fun q _ => by rw [walk_cons_of_some hk]

/-- The map is made. -/
theorem TreeAt.entered_of_none (ht : h.TreeAt r) (hk : h.getKey r k = none) :
    Entered h r k ks (h.makeMap.1.setKey r k (.map h.makeMap.2)) h.next := by
  have hr : r < h.next := ht.allocated [] r (walk_nil h _)
  have hempty : ∀ key, (h.makeMap.1.setKey r k (.map h.makeMap.2)).getKey h.next key = none := by
    intro key
    unfold getKey
    rw [setKey_maps_of_ne hr.ne']
    simp [makeMap]
  exact {
    here := getKey_setKey_self _ _ _ _
    beside := by
      intro k' hne
      rw [getKey_setKey_of_ne hne]
      unfold getKey
      rw [makeMap_maps_of_ne hr.ne]
    other := by
      intro x hne hx
      rw [setKey_maps_of_ne hne, makeMap_maps_of_ne hx.ne]
    next := Nat.le_succ _
    tree := treeAt_of_empty (Nat.lt_succ_self _) hempty
    fits := fits_of_empty hempty ks
    below := by
      intro p x hp hx
      obtain ⟨-, heq⟩ := walk_of_empty hempty hp
      exact absurd (Value.map.inj heq) hx.ne
    read := by
      intro q hq
      obtain ⟨key, p, rfl⟩ := List.exists_cons_of_ne_nil hq
      rw [walk_cons_of_none hk, walk_cons_of_none (hempty key)] }

/-- One step down a path that fits. -/
theorem TreeAt.entered (ht : h.TreeAt r) (hf : h.Fits r (k :: ks)) (hks : ks ≠ []) :
    Entered h r k ks (h.enter r k).1 (h.enter r k).2 := by
  unfold enter
  cases hk : h.getKey r k with
  | none => exact ht.entered_of_none hk
  | some u =>
      -- the path goes on, so what is under the first key is a map
      have hlist : [k] ≠ k :: ks := fun heq => hks (List.cons.inj heq).2.symm
      obtain ⟨m, rfl⟩ := hf [k] ⟨ks, rfl⟩ hlist u (by rw [walk_cons_of_some hk, walk_nil])
      exact ht.entered_of_some hf hk

/-- The map one came from is not below. -/
theorem TreeAt.not_below (ht : h.TreeAt r) {h' : Heap} {m : Ref} (he : Entered h r k ks h' m)
    (p : List String) : h'.walk (.map m) p ≠ some (.map r) := by
  intro hp
  have hr : h.walk (.map r) [] = some (.map r) := walk_nil h _
  exact absurd (ht.unshared _ _ r (he.below p r hp (ht.allocated [] r hr)) hr)
    (List.cons_ne_nil k p)

/-! ## The laws -/

/-- A write leaves the maps alone that are not below. -/
theorem write_maps (ht : h.TreeAt r) (hf : h.Fits r keys) (hx : x < h.next)
    (happart : ∀ p, h.walk (.map r) p ≠ some (.map x)) :
    (write v keys h r).maps x = h.maps x := by
  induction keys generalizing h r with
  | nil => rfl
  | cons k ks ih =>
      have hne : x ≠ r := fun heq => happart [] (heq ▸ walk_nil h _)
      rw [write]
      split
      · exact setKey_maps_of_ne hne
      · rename_i hks
        have he := ht.entered hf hks
        rw [ih he.tree he.fits (hx.trans_le he.next), he.other x hne hx]
        exact fun p hp => happart (k :: p) (he.below p x hp hx)

/-- What is under the first key stays there. -/
theorem write_getKey (ht : h.TreeAt r) (hf : h.Fits r (k :: ks)) (hks : ks ≠ []) :
    (write v ks (h.enter r k).1 (h.enter r k).2).getKey r k = some (.map (h.enter r k).2) := by
  have he := ht.entered hf hks
  have hr : r < h.next := ht.allocated [] r (walk_nil h _)
  rw [← he.here]
  unfold getKey
  rw [write_maps he.tree he.fits (hr.trans_le he.next) (ht.not_below he)]

/-- What was written is read. -/
theorem walk_write (ht : h.TreeAt r) (hf : h.Fits r keys) (hkeys : keys ≠ []) (v : Value) :
    (write v keys h r).walk (.map r) keys = some v := by
  induction keys generalizing h r with
  | nil => exact absurd rfl hkeys
  | cons k ks ih =>
      rw [write]
      split
      · rename_i hks
        rw [hks, walk_cons_of_some (getKey_setKey_self h r k v), walk_nil]
      · rename_i hks
        have he := ht.entered hf hks
        rw [walk_cons_of_some (write_getKey ht hf hks), ih he.tree he.fits hks]

/-- The second of two writes decides. -/
theorem write_write (ht : h.TreeAt r) (hf : h.Fits r keys) (v w : Value) :
    write w keys (write v keys h r) r = write w keys h r := by
  induction keys generalizing h r with
  | nil => rfl
  | cons k ks ih =>
      by_cases hks : ks = []
      · subst hks
        exact setKey_setKey h r k v w
      · have he := ht.entered hf hks
        have hrest := ih he.tree he.fits
        rw [write, if_neg hks, write, if_neg hks, write, if_neg hks,
          enter_of_some (write_getKey ht hf hks)]
        exact hrest

/-- On a tree the way is open when the path fits. -/
theorem TreeAt.passable (ht : h.TreeAt r) (hf : h.Fits r keys) : Passable keys h r := by
  induction keys generalizing h r with
  | nil => trivial
  | cons k ks ih =>
      by_cases hks : ks = []
      · exact Or.inl hks
      · have he := ht.entered hf hks
        refine Or.inr ⟨fun u hu => ?_, ih he.tree he.fits⟩
        have hlist : [k] ≠ k :: ks := fun heq => hks (List.cons.inj heq).2.symm
        exact hf [k] ⟨ks, rfl⟩ hlist u (by rw [walk_cons_of_some hu, walk_nil])

/-- After a write the way is open, also when the written value has made the tree a graph. -/
theorem TreeAt.passable_write (ht : h.TreeAt r) (hf : h.Fits r keys) (v : Value) :
    Passable keys (write v keys h r) r := by
  induction keys generalizing h r with
  | nil => trivial
  | cons k ks ih =>
      by_cases hks : ks = []
      · exact Or.inl hks
      · have he := ht.entered hf hks
        have hkey := write_getKey (v := v) ht hf hks
        have hrest := ih he.tree he.fits
        rw [write, if_neg hks]
        refine Or.inr ⟨fun u hu => ?_, ?_⟩
        · rw [hkey] at hu
          exact ⟨_, (Option.some.inj hu).symm⟩
        · rw [enter_of_some hkey]
          exact hrest

/-- A write leaves alone what is below another key. -/
theorem walk_write_beside (ht : h.TreeAt r) (hf : h.Fits r (k :: ks)) {k' : String} (hne : k' ≠ k)
    (q : List String) :
    (write v (k :: ks) h r).walk (.map r) (k' :: q) = h.walk (.map r) (k' :: q) := by
  have hr : r < h.next := ht.allocated [] r (walk_nil h _)
  have hkey : (write v (k :: ks) h r).getKey r k' = h.getKey r k' := by
    rw [write]
    split
    · exact getKey_setKey_of_ne hne
    · rename_i hks
      have he := ht.entered hf hks
      rw [← he.beside k' hne]
      unfold getKey
      rw [write_maps he.tree he.fits (hr.trans_le he.next) (ht.not_below he)]
  cases hk : h.getKey r k' with
  | none => rw [walk_cons_of_none hk, walk_cons_of_none (hkey.trans hk)]
  | some u =>
      rw [walk_cons_of_some hk, walk_cons_of_some (hkey.trans hk)]
      apply walk_congr
      intro p x hp
      -- what is below the other key is neither the written map nor below it
      have hreach : h.walk (.map r) (k' :: p) = some (.map x) := by rw [walk_cons_of_some hk, hp]
      have hx := ht.allocated _ x hreach
      have hxr : x ≠ r := by
        rintro rfl
        exact absurd (ht.unshared _ _ x hreach (walk_nil h _)) (List.cons_ne_nil k' p)
      rw [write]
      split
      · exact setKey_maps_of_ne hxr
      · rename_i hks
        have he := ht.entered hf hks
        rw [write_maps he.tree he.fits (hx.trans_le he.next), he.other x hxr hx]
        intro p' hp'
        have heq := ht.unshared _ _ x (he.below p' x hp' hx) hreach
        exact hne (List.cons.inj heq).1.symm

/-- A path that neither continues the written one nor is continued by it reads as before. -/
theorem getD_walk_write (ht : h.TreeAt r) (hf : h.Fits r keys) {q : List String}
    (hpq : ¬ keys <+: q) (hqp : ¬ q <+: keys) (v : Value) :
    ((write v keys h r).walk (.map r) q).getD .nil = (h.walk (.map r) q).getD .nil := by
  induction keys generalizing h r q with
  | nil => exact absurd List.nil_prefix hpq
  | cons k ks ih =>
      cases q with
      | nil => exact absurd List.nil_prefix hqp
      | cons k' q =>
          rcases eq_or_ne k' k with rfl | hne
          · rw [List.cons_prefix_cons, not_and] at hpq hqp
            have hks : ks ≠ [] := by
              rintro rfl
              exact hpq rfl List.nil_prefix
            have hq : q ≠ [] := by
              rintro rfl
              exact hqp rfl List.nil_prefix
            have he := ht.entered hf hks
            rw [write, if_neg hks, walk_cons_of_some (write_getKey ht hf hks),
              ih he.tree he.fits (hpq rfl) (hqp rfl), he.read q hq]
          · rw [walk_write_beside ht hf hne]

/-- What is below another map, apart from the one written to, reads as before. -/
theorem walk_write_apart (ht : h.TreeAt r) (hf : h.Fits r keys)
    (happart : ∀ p x, h.walk u p = some (.map x) →
      x < h.next ∧ ∀ p', h.walk (.map r) p' ≠ some (.map x)) (q : List String) :
    (write v keys h r).walk u q = h.walk u q :=
  walk_congr (fun p x hp => write_maps ht hf (happart p x hp).1 (happart p x hp).2) q

end GoLib.Heap
