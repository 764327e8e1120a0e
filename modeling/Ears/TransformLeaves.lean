/-
# `transform` on whole templates (`pkg/filter/transform/transform.go`)

`transform` walks through the objects and arrays of a template and lets its string case replace
every string that it finds, in the object or in the array that holds it.  `Heap.Fills` says that a
value is a template whose strings were replaced.

`transform_maps_iff`: where `Evaluate` returns for every string, `transform` returns, and the
strings are replaced by what `Evaluate` returns for them, except that a template that is a string,
and strings under an empty key, stay as they are.
-/
import Ears.TemplateExpansion

open GoLib

namespace Json

mutual

/-- The strings of a template.  The flag says whether the string is in an array or under a key that
is not empty. -/
def leaves (held : Bool) : Json → List (Bool × String)
  | .str s => [(held, s)]
  | .arr elems => leavesElems elems
  | .obj fields => leavesFields fields
  | _ => []

/-- The strings of the elements of an array. -/
def leavesElems : List Json → List (Bool × String)
  | [] => []
  | j :: js => leaves true j ++ leavesElems js

/-- The strings of the fields of an object. -/
def leavesFields : List (String × Json) → List (Bool × String)
  | [] => []
  | (key, j) :: fs => leaves (key != "") j ++ leavesFields fs

end

theorem mem_leavesElems {elems : List Json} {p : Bool × String} :
    p ∈ leavesElems elems ↔ ∃ j ∈ elems, p ∈ j.leaves true := by
  induction elems with
  | nil => simp [leavesElems]
  | cons j js ih => simp [leavesElems, ih]

theorem mem_leavesFields {fields : List (String × Json)} {p : Bool × String} :
    p ∈ leavesFields fields ↔ ∃ f ∈ fields, p ∈ f.2.leaves (f.1 != "") := by
  induction fields with
  | nil => simp [leavesFields]
  | cons f fs ih =>
      obtain ⟨key, j⟩ := f
      simp [leavesFields, ih]

end Json

namespace GoLib

mutual

/-- The value is the template with its strings replaced by values that stand in the relation `leaf`
to them. -/
def Heap.Fills (h : Heap) (leaf : Bool → String → Value → Prop) : Bool → Value → Json → Prop
  | held, v, .str s => leaf held s v
  | _, v, .arr elems => ∃ r, v = .slice r ∧ h.FillsElems leaf (h.slices r) elems
  | _, v, .obj fields =>
      ∃ r, v = .map r ∧ (fields.map Prod.fst).Nodup ∧
        (∀ key, h.getKey r key ≠ none → key ∈ fields.map Prod.fst) ∧ h.FillsFields leaf r fields
  | _, v, .null => v = .nil
  | _, v, .bool b => v = .bool b
  | _, v, .num text => v = .num text

/-- The values are these elements of an array. -/
def Heap.FillsElems (h : Heap) (leaf : Bool → String → Value → Prop) :
    List Value → List Json → Prop
  | [], [] => True
  | v :: vs, j :: js => h.Fills leaf true v j ∧ h.FillsElems leaf vs js
  | _, _ => False

/-- The map holds these fields. -/
def Heap.FillsFields (h : Heap) (leaf : Bool → String → Value → Prop) (r : Ref) :
    List (String × Json) → Prop
  | [] => True
  | (key, j) :: fs =>
      (∃ v, h.getKey r key = some v ∧ h.Fills leaf (key != "") v j) ∧ h.FillsFields leaf r fs

end

namespace Heap

variable {h h' : Heap} {leaf leaf' : Bool → String → Value → Prop} {held : Bool} {v w : Value}
  {vs : List Value} {t : Json} {elems : List Json} {fields : List (String × Json)} {r : Ref}

theorem fillsElems_iff :
    h.FillsElems leaf vs elems ↔ List.Forall₂ (h.Fills leaf true) vs elems := by
  induction elems generalizing vs with
  | nil => cases vs <;> simp [FillsElems]
  | cons j js ih => cases vs <;> simp [FillsElems, ih]

theorem fillsFields_iff : h.FillsFields leaf r fields ↔
    ∀ f ∈ fields, ∃ v, h.getKey r f.1 = some v ∧ h.Fills leaf (f.1 != "") v f.2 := by
  induction fields with
  | nil => simp [FillsFields]
  | cons f fs ih =>
      obtain ⟨key, j⟩ := f
      simp [FillsFields, ih]

theorem fills_arr : h.Fills leaf held v (.arr elems) ↔
    ∃ r, v = .slice r ∧ List.Forall₂ (h.Fills leaf true) (h.slices r) elems := by
  simp only [Fills, fillsElems_iff]

theorem fills_obj : h.Fills leaf held v (.obj fields) ↔
    ∃ r, v = .map r ∧ (fields.map Prod.fst).Nodup ∧
      (∀ key, h.getKey r key ≠ none → key ∈ fields.map Prod.fst) ∧
      ∀ f ∈ fields, ∃ v, h.getKey r f.1 = some v ∧ h.Fills leaf (f.1 != "") v f.2 := by
  simp only [Fills, fillsFields_iff]

/-- A template whose objects, arrays and replaced strings are kept. -/
theorem Keeps.fills (hkeeps : h.Keeps v h')
    (hleaf : ∀ held s w, h.Keeps w h' → leaf held s w → leaf' held s w)
    (hv : h.Fills leaf held v t) : h'.Fills leaf' held v t := by
  induction t using Json.tree_induction generalizing v held with
  | str s =>
      rw [Fills] at hv ⊢
      exact hleaf held s v hkeeps hv
  | arr elems ih =>
      obtain ⟨r, rfl, helems⟩ := fills_arr.mp hv
      have hr : h.SameAt h' r := hkeeps r (reaches_self rfl)
      refine fills_arr.mpr ⟨r, rfl, ?_⟩
      rw [hr.slices]
      refine List.forall₂_iff_get.mpr ⟨helems.length_eq, fun i hi hi' => ?_⟩
      refine ih _ (List.get_mem _ _) ?_ (List.forall₂_iff_get.mp helems |>.2 i hi hi')
      exact hkeeps.of_step (s := .index i) (by rw [step_index]; exact List.getElem?_eq_getElem hi)
  | obj fields ih =>
      obtain ⟨r, rfl, hnodup, honly, hfields⟩ := fills_obj.mp hv
      have hget : ∀ key, h'.getKey r key = h.getKey r key := fun key =>
        (hkeeps r (reaches_self rfl)).step (v := .map r) (.key key)
      refine fills_obj.mpr ⟨r, rfl, hnodup, fun key hkey => ?_, fun f hf => ?_⟩
      · rw [hget] at hkey
        exact honly key hkey
      · obtain ⟨w, hw, hfill⟩ := hfields f hf
        exact ⟨w, by rw [hget, hw], ih f hf (hkeeps.of_step (s := .key f.1) hw) hfill⟩
  | null => exact hv
  | bool b => exact hv
  | num text => exact hv

/-- Two ways to replace strings agree where they agree on every string. -/
theorem fills_iff {C : Bool → String → Prop}
    (hleaf : ∀ held s w, leaf held s w → (leaf' held s w ↔ C held s))
    (hv : h.Fills leaf held v t) : h.Fills leaf' held v t ↔ ∀ p ∈ t.leaves held, C p.1 p.2 := by
  induction t using Json.tree_induction generalizing v held with
  | str s =>
      rw [Fills] at hv
      rw [Fills, Json.leaves, hleaf held s v hv]
      simp
  | arr elems ih =>
      obtain ⟨r, rfl, helems⟩ := fills_arr.mp hv
      have hget := List.forall₂_iff_get.mp helems
      have hall : (∃ r', Value.slice r = .slice r' ∧
          List.Forall₂ (h.Fills leaf' true) (h.slices r') elems) ↔
          ∀ j ∈ elems, ∀ p ∈ j.leaves true, C p.1 p.2 := by
        constructor
        · rintro ⟨r', heq, helems'⟩
          obtain rfl := Value.slice.inj heq
          intro j hj
          obtain ⟨i, rfl⟩ := List.get_of_mem hj
          have hi : i < (h.slices r).length := by rw [hget.1]; exact i.2
          exact (ih _ hj (hget.2 i hi i.2)).mp ((List.forall₂_iff_get.mp helems').2 i hi i.2)
        · intro hC
          refine ⟨r, rfl, List.forall₂_iff_get.mpr ⟨hget.1, fun i hi hi' => ?_⟩⟩
          exact (ih _ (List.get_mem _ _) (hget.2 i hi hi')).mpr (hC _ (List.get_mem _ _))
      rw [fills_arr, hall, Json.leaves]
      simp only [Json.mem_leavesElems]
      constructor
      · rintro hC p ⟨j, hj, hp⟩
        exact hC j hj p hp
      · exact fun hC j hj p hp => hC p ⟨j, hj, hp⟩
  | obj fields ih =>
      obtain ⟨r, rfl, hnodup, honly, hfields⟩ := fills_obj.mp hv
      have hall : h.Fills leaf' held (.map r) (.obj fields) ↔
          ∀ f ∈ fields, ∀ p ∈ f.2.leaves (f.1 != ""), C p.1 p.2 := by
        rw [fills_obj]
        constructor
        · rintro ⟨r', heq, -, -, hfields'⟩ f hf
          obtain rfl := Value.map.inj heq
          obtain ⟨w, hw, hfill⟩ := hfields f hf
          obtain ⟨w', hw', hfill'⟩ := hfields' f hf
          obtain rfl := Option.some.inj (hw.symm.trans hw')
          exact (ih f hf hfill).mp hfill'
        · intro hC
          refine ⟨r, rfl, hnodup, honly, fun f hf => ?_⟩
          obtain ⟨w, hw, hfill⟩ := hfields f hf
          exact ⟨w, hw, (ih f hf hfill).mpr (hC f hf)⟩
      rw [hall, Json.leaves]
      simp only [Json.mem_leavesFields]
      constructor
      · rintro hC p ⟨f, hf, hp⟩
        exact hC f hf p hp
      · exact fun hC f hf p hp => hC p ⟨f, hf, hp⟩
  | null => exact ⟨fun _ => by simp [Json.leaves], fun _ => hv⟩
  | bool b => exact ⟨fun _ => by simp [Json.leaves], fun _ => hv⟩
  | num text => exact ⟨fun _ => by simp [Json.leaves], fun _ => hv⟩

/-! ## Trees -/

/-- No address is at two positions below the value. -/
def Separate (h : Heap) (v : Value) : Prop :=
  ∀ p q u w, u.isContainer → w.isContainer → h.locate v p = some u → h.locate v q = some w →
    u.address = w.address → p = q

variable {s s' : Step} {u : Value} {x : Ref}

theorem Separate.of_step (hv : h.Separate v) (hs : h.step v s = some u) : h.Separate u := by
  intro p q u' w hu hw hp hq haddr
  have heq := hv (s :: p) (s :: q) u' w hu hw (by rw [locate_cons_of_some hs, hp])
    (by rw [locate_cons_of_some hs, hq]) haddr
  exact (List.cons.inj heq).2

theorem Keeps.separate (hkeeps : h.Keeps v h') (hv : h.Separate v) : h'.Separate v := by
  intro p q u w hu hw hp hq haddr
  rw [hkeeps.locate] at hp hq
  exact hv p q u w hu hw hp hq haddr

/-- What is one step below a tree does not reach its root. -/
theorem Separate.not_reaches_root (hv : h.Separate v) (hs : h.step v s = some u)
    (hcont : v.isContainer) : ¬ h.Reaches u v.address := by
  rintro ⟨p, w, hp, hw, haddr⟩
  have heq := hv (s :: p) [] w v hw hcont (by rw [locate_cons_of_some hs, hp]) rfl haddr
  cases heq

/-- Two branches of a tree have nothing in common. -/
theorem Separate.disjoint (hv : h.Separate v) (hs : h.step v s = some u)
    (hs' : h.step v s' = some w)
    (hne : s ≠ s') (hx : h.Reaches u x) : ¬ h.Reaches w x := by
  rintro ⟨q, w', hq, hw', haddr'⟩
  obtain ⟨p, u', hp, hu', haddr⟩ := hx
  have heq := hv (s :: p) (s' :: q) u' w' hu' hw' (by rw [locate_cons_of_some hs, hp])
    (by rw [locate_cons_of_some hs', hq]) (haddr.trans haddr'.symm)
  exact hne (List.cons.inj heq).1

end Heap

end GoLib

/-- The library with a bound on recursions and loops. -/
def Libs.withDepth {κ : Type} (lib : Libs κ) (n : ℕ) : Libs κ := { lib with depth := n }

namespace Transform

open Event
open Expansion (Ends)

variable {κ : Type} {lib : Libs κ} {order : Finset String → List String} {e : Event κ}
  {h₀ h h' h₁ h₂ : Heap} {d : ℕ} {value : List Char → Option Json} {slot : Slot} {u v w c : Value}
  {s : Step} {k t : Json}

/-! ## One value of a template -/

/-- A part of a template before its turn: a tree of its own beside the data of the event. -/
structure Ready (h₀ : Heap) (e : Event κ) (h : Heap) (u : Value) (k : Json) : Prop where
  represents : h.Represents u k
  allocated : h.AllocatedBelow u
  separate : h.Separate u
  apart : ∀ x, h.Reaches u x → ¬ Holds h₀ e x

theorem Ready.keeps (hready : Ready h₀ e h u k) (hkeeps : h.Keeps u h') (hnext : h.next ≤ h'.next) :
    Ready h₀ e h' u k :=
  ⟨hkeeps.represents hready.represents, hkeeps.allocatedBelow hready.allocated hnext,
    hkeeps.separate hready.separate, fun x hx => hready.apart x (hkeeps.reaches.mp hx)⟩

/-- The slot holds the value, which is beside it. -/
structure Slot.Takes (slot : Slot) (h₀ : Heap) (e : Event κ) (h : Heap) (u : Value) (c : Value)
    (s : Step) : Prop where
  container : c.isContainer
  step : h.step c s = some u
  allocated : c.address < h.next
  apart : ¬ Holds h₀ e c.address
  off : ¬ h.Reaches u c.address

/-- A string that `transform` replaces becomes what it evaluates to. -/
def Leaf (value : List Char → Option Json) (h : Heap) (held : Bool) (s : String) (w : Value) :
    Prop :=
  if held then ∃ j, Ends value id s.toList j ∧ h.Shows w j else w = .str s

/-- After its turn there is `w` in the place of `u`, and elsewhere all is as before. -/
structure Turned (value : List Char → Option Json) (slot : Slot) (h : Heap) (u : Value) (k : Json)
    (h' : Heap) (w : Value) : Prop where
  next : h.next ≤ h'.next
  unheld : slot.entry = none → w = u
  held : ∀ c s, slot.entry = some (c, s) → h'.step c s = some w
  frame : ∀ x s', x.isContainer → x.address < h.next → ¬ h.Reaches u x.address →
    (∀ c s, slot.entry = some (c, s) → x = c → s' ≠ s) → h'.step x s' = h.step x s'
  reaches : ∀ x, h'.Reaches w x → h.Reaches u x ∨ h.next ≤ x
  allocated : h'.AllocatedBelow w
  fills : h'.Fills (Leaf value h') slot.entry.isSome w k

/-- `transform` takes its turn on every such value. -/
def Turns (lib : Libs κ) (order : Finset String → List String) (h₀ : Heap) (e : Event κ)
    (value : List Char → Option Json) (k : Json) : Prop :=
  ∀ h u slot, KeptSince h₀ e h → Ready h₀ e h u k →
    (∀ c s, slot.entry = some (c, s) → slot.Takes h₀ e h u c s) →
    ∃ N h' w, (∀ n m, N ≤ n → N ≤ m →
      (transform (lib.withDepth m) e n u slot).run (Heap.handle order) h = (some (), h')) ∧
      Turned value slot h u k h' w

theorem Leaf.keeps {held : Bool} {text : String} (hkeeps : h.Keeps w h')
    (hleaf : Leaf value h held text w) : Leaf value h' held text w := by
  unfold Leaf at hleaf ⊢
  split_ifs at hleaf ⊢
  · obtain ⟨j, hends, hshows⟩ := hleaf
    exact ⟨j, hends, hkeeps.shows hshows⟩
  · exact hleaf

/-- What a turn does not reach is kept. -/
theorem Turned.sameAt (hturned : Turned value slot h u k h' w) {x : Ref} (hx : x < h.next)
    (hoff : ¬ h.Reaches u x) (hslot : ∀ c s, slot.entry = some (c, s) → x ≠ c.address) :
    h.SameAt h' x := by
  refine Heap.sameAt_of_steps fun y s hy haddr => ?_
  subst haddr
  refine hturned.frame y s hy hx hoff fun c s' hentry heq => ?_
  exact absurd (congrArg Value.address heq) (hslot c s' hentry)

theorem Turned.kept (hturned : Turned value slot h u k h' w) (hdata : JsonData h₀ e d)
    (hkept : KeptSince h₀ e h) (hready : Ready h₀ e h u k)
    (hslot : ∀ c s, slot.entry = some (c, s) → slot.Takes h₀ e h u c s) : KeptSince h₀ e h' := by
  have hch : Heap.Changes (fun x => h.Reaches u x ∨
      ∃ c s, slot.entry = some (c, s) ∧ x = c.address) h h' := by
    refine ⟨hturned.next, fun x hx hA => hturned.sameAt hx (fun hr => hA (Or.inl hr)) ?_⟩
    exact fun c s hentry heq => hA (Or.inr ⟨c, s, hentry, heq⟩)
  refine hkept.changes hdata hch fun x hx hA => ?_
  rcases hA with hr | ⟨c, s, hentry, rfl⟩
  · exact hready.apart x hr hx
  · exact (hslot c s hentry).apart hx

/-! ## The parts of an object or of an array -/

/-- The parts before their turns: each is a tree beside the others and beside the object or array
that holds them. -/
structure Parts {α : Type} (h₀ : Heap) (e : Event κ) (c : Value) (stepOf : α → Step)
    (kid : α → Json) (h : Heap) (xs : List α) : Prop where
  ready : ∀ a ∈ xs, ∃ u, h.step c (stepOf a) = some u ∧ Ready h₀ e h u (kid a) ∧
    ¬ h.Reaches u c.address
  disjoint : ∀ a ∈ xs, ∀ b ∈ xs, stepOf a ≠ stepOf b → ∀ u v x, h.step c (stepOf a) = some u →
    h.step c (stepOf b) = some v → h.Reaches u x → ¬ h.Reaches v x

/-- After the turns of some parts. -/
structure PartsTurned {α : Type} (value : List Char → Option Json) (c : Value) (stepOf : α → Step)
    (slotOf : α → Slot) (kid : α → Json) (h : Heap) (xs : List α) (h' : Heap) : Prop where
  next : h.next ≤ h'.next
  frame : ∀ x s', x.isContainer → x.address < h.next →
    (∀ a ∈ xs, ∀ u, h.step c (stepOf a) = some u → ¬ h.Reaches u x.address) →
    (x = c → ∀ a ∈ xs, s' ≠ stepOf a) → h'.step x s' = h.step x s'
  turned : ∀ a ∈ xs, ∀ u, h.step c (stepOf a) = some u → ∃ w, h'.step c (stepOf a) = some w ∧
    (∀ x, h'.Reaches w x → h.Reaches u x ∨ h.next ≤ x) ∧ h'.AllocatedBelow w ∧
    h'.Fills (Leaf value h') (slotOf a).entry.isSome w (kid a)

section Parts

variable {α : Type} {stepOf : α → Step} {slotOf : α → Slot} {kid : α → Json} {a b : α}
  {xs : List α}

/-- The parts that wait are as they were after the turn of another one. -/
theorem Parts.after (hparts : Parts h₀ e c stepOf kid h (a :: xs)) (hc : c.isContainer)
    (haddr : c.address < h.next) (hnodup : ((a :: xs).map stepOf).Nodup)
    (hslot : ∀ c' s, (slotOf a).entry = some (c', s) → c' = c ∧ s = stepOf a)
    (hu : h.step c (stepOf a) = some u) (hoff : ¬ h.Reaches u c.address)
    (hturned : Turned value (slotOf a) h u (kid a) h₁ w) :
    (∀ b ∈ xs, ∀ v, h₁.step c (stepOf b) = some v → h.step c (stepOf b) = some v ∧ h.Keeps v h₁) ∧
      Parts h₀ e c stepOf kid h₁ xs := by
  have hne : ∀ b ∈ xs, stepOf b ≠ stepOf a := by
    intro b hb heq
    rw [List.map_cons, List.nodup_cons] at hnodup
    exact hnodup.1 (heq ▸ List.mem_map_of_mem hb)
  have hsame : ∀ b ∈ xs, h₁.step c (stepOf b) = h.step c (stepOf b) := by
    intro b hb
    refine hturned.frame c (stepOf b) hc haddr hoff fun c' s hentry _ => ?_
    rw [(hslot c' s hentry).2]
    exact hne b hb
  have hkeeps : ∀ b ∈ xs, ∀ v, h.step c (stepOf b) = some v → h.Keeps v h₁ := by
    intro b hb v hv x hx
    obtain ⟨v', hv', hready, hoff'⟩ := hparts.ready b (List.mem_cons_of_mem _ hb)
    obtain rfl := Option.some.inj (hv.symm.trans hv')
    refine hturned.sameAt (Heap.allocatedBelow_iff.mp hready.allocated x hx) ?_ ?_
    · exact hparts.disjoint b (List.mem_cons_of_mem _ hb) a List.mem_cons_self (hne b hb) v u x hv
        hu hx
    · rintro c' s hentry rfl
      rw [(hslot c' s hentry).1] at hx
      exact hoff' hx
  refine ⟨fun b hb v hv => ?_, ⟨fun b hb => ?_, fun b hb b' hb' hstep v v' x hv hv' hx => ?_⟩⟩
  · rw [hsame b hb] at hv
    exact ⟨hv, hkeeps b hb v hv⟩
  · obtain ⟨v, hv, hready, hoff'⟩ := hparts.ready b (List.mem_cons_of_mem _ hb)
    have hk := hkeeps b hb v hv
    exact ⟨v, by rw [hsame b hb, hv], hready.keeps hk hturned.next,
      fun hx => hoff' (hk.reaches.mp hx)⟩
  · rw [hsame b hb] at hv
    rw [hsame b' hb'] at hv'
    rw [(hkeeps b hb v hv).reaches] at hx
    rw [(hkeeps b' hb' v' hv').reaches]
    exact hparts.disjoint b (List.mem_cons_of_mem _ hb) b' (List.mem_cons_of_mem _ hb') hstep v v' x
      hv hv' hx

/-- The first turn and those of the rest. -/
theorem PartsTurned.cons (hparts : Parts h₀ e c stepOf kid h (a :: xs)) (hc : c.isContainer)
    (haddr : c.address < h.next) (hnodup : ((a :: xs).map stepOf).Nodup)
    (hslot : ∀ c' s, (slotOf a).entry = some (c', s) → c' = c ∧ s = stepOf a)
    (hu : h.step c (stepOf a) = some u) (hoff : ¬ h.Reaches u c.address)
    (hturned : Turned value (slotOf a) h u (kid a) h₁ w)
    (hrest : PartsTurned value c stepOf slotOf kid h₁ xs h₂) :
    PartsTurned value c stepOf slotOf kid h (a :: xs) h₂ := by
  obtain ⟨hold, hparts₁⟩ := hparts.after hc haddr hnodup hslot hu hoff hturned
  have hne : ∀ b ∈ xs, stepOf a ≠ stepOf b := by
    intro b hb heq
    rw [List.map_cons, List.nodup_cons] at hnodup
    exact hnodup.1 (heq ▸ List.mem_map_of_mem hb)
  refine ⟨hturned.next.trans hrest.next, fun x s' hx hlt hreach hstep => ?_, fun b hb v hv => ?_⟩
  · rw [hrest.frame x s' hx (hlt.trans_le hturned.next) ?_ ?_, hturned.frame x s' hx hlt ?_ ?_]
    · exact hreach a List.mem_cons_self u hu
    · rintro c' s hentry rfl
      obtain ⟨rfl, rfl⟩ := hslot _ s hentry
      exact hstep rfl a List.mem_cons_self
    · intro b hb v hv
      obtain ⟨hv', hkeeps⟩ := hold b hb v hv
      rw [hkeeps.reaches]
      exact hreach b (List.mem_cons_of_mem _ hb) v hv'
    · exact fun heq b hb => hstep heq b (List.mem_cons_of_mem _ hb)
  · rcases List.mem_cons.mp hb with rfl | hb
    · -- the first part is kept by the turns of the others
      obtain rfl := Option.some.inj (hu.symm.trans hv)
      have hw : h₁.step c (stepOf b) = some w := by
        cases hentry : (slotOf b).entry with
        | none =>
            rw [hturned.unheld hentry, ← hu]
            refine hturned.frame c (stepOf b) hc haddr hoff fun c' s hsome => ?_
            rw [hentry] at hsome
            cases hsome
        | some entry =>
            obtain ⟨c', s⟩ := entry
            obtain ⟨rfl, rfl⟩ := hslot c' s hentry
            exact hturned.held _ _ hentry
      have hw' : h₂.step c (stepOf b) = some w := by
        rw [hrest.frame c (stepOf b) hc (haddr.trans_le hturned.next) ?_ fun _ b' hb' => hne b' hb',
          hw]
        intro b' hb' v' hv' hx
        obtain ⟨v'', hv'', -, hoff'⟩ := hparts₁.ready b' hb'
        obtain rfl := Option.some.inj (hv'.symm.trans hv'')
        exact hoff' hx
      have hkeeps : h₁.Keeps w h₂ := by
        intro x hx
        have hlt : x < h₁.next := Heap.allocatedBelow_iff.mp hturned.allocated x hx
        refine Heap.sameAt_of_steps fun y s hy hyx => ?_
        subst hyx
        refine hrest.frame y s hy hlt (fun b' hb' v' hv' hx' => ?_) fun heq => ?_
        · obtain ⟨hv'', hk⟩ := hold b' hb' v' hv'
          rw [hk.reaches] at hx'
          rcases hturned.reaches _ hx with hr | hle
          · exact hparts.disjoint b List.mem_cons_self b' (List.mem_cons_of_mem _ hb') (hne b' hb')
              u v' _ hu hv'' hr hx'
          · obtain ⟨v₀, hv₀, hready, -⟩ := hparts.ready b' (List.mem_cons_of_mem _ hb')
            obtain rfl := Option.some.inj (hv''.symm.trans hv₀)
            exact not_lt.mpr hle (Heap.allocatedBelow_iff.mp hready.allocated _ hx')
        · subst heq
          rcases hturned.reaches _ hx with hr | hle
          · exact absurd hr hoff
          · exact absurd haddr (not_lt.mpr hle)
      refine ⟨w, hw', fun x hx => hturned.reaches x (hkeeps.reaches.mp hx),
        hkeeps.allocatedBelow hturned.allocated hrest.next, ?_⟩
      exact hkeeps.fills (fun _ _ _ hk hleaf => hleaf.keeps hk) hturned.fills
    · obtain ⟨v', hv', -⟩ := hparts₁.ready b hb
      obtain ⟨hvh, hkeeps⟩ := hold b hb v' hv'
      obtain rfl := Option.some.inj (hv.symm.trans hvh)
      obtain ⟨w', hw', hreach, halloc, hfills⟩ := hrest.turned b hb v hv'
      refine ⟨w', hw', fun x hx => ?_, halloc, hfills⟩
      rcases hreach x hx with hr | hle
      · exact Or.inl (hkeeps.reaches.mp hr)
      · exact Or.inr (hturned.next.trans hle)

/-- The loops over the keys of an object and over the indexes of an array. -/
theorem run_parts (hdata : JsonData h₀ e d) {body : ℕ → ℕ → α → HeapProg Unit} (hc : c.isContainer)
    (hslot : ∀ a c' s, (slotOf a).entry = some (c', s) → c' = c ∧ s = stepOf a)
    (hbody : ∀ n m a h u, h.step c (stepOf a) = some u → (body n m a).run (Heap.handle order) h =
      (transform (lib.withDepth m) e n u (slotOf a)).run (Heap.handle order) h)
    (hapart : ¬ Holds h₀ e c.address) (xs : List α) (hnodup : (xs.map stepOf).Nodup)
    (hturns : ∀ a ∈ xs, Turns lib order h₀ e value (kid a)) (haddr : c.address < h.next)
    (hkept : KeptSince h₀ e h) (hparts : Parts h₀ e c stepOf kid h xs) :
    ∃ N h', (∀ n m, N ≤ n → N ≤ m →
      (xs.forM (body n m)).run (Heap.handle order) h = (some (), h')) ∧
      PartsTurned value c stepOf slotOf kid h xs h' := by
  induction xs generalizing h with
  | nil =>
      refine ⟨0, h, fun _ _ _ _ => rfl, le_rfl, fun _ _ _ _ _ _ => rfl, ?_⟩
      intro a ha
      exact absurd ha List.not_mem_nil
  | cons a xs ih =>
      obtain ⟨u, hu, hready, hoff⟩ := hparts.ready a List.mem_cons_self
      have htakes : ∀ c' s, (slotOf a).entry = some (c', s) → (slotOf a).Takes h₀ e h u c' s := by
        intro c' s hentry
        obtain ⟨rfl, rfl⟩ := hslot a c' s hentry
        exact ⟨hc, hu, haddr, hapart, hoff⟩
      obtain ⟨N₁, h₁, w, hrun₁, hturned⟩ :=
        hturns a List.mem_cons_self h u (slotOf a) hkept hready htakes
      obtain ⟨-, hparts₁⟩ := hparts.after hc haddr hnodup (hslot a) hu hoff hturned
      obtain ⟨N₂, h₂, hrun₂, hrest⟩ := ih (List.nodup_cons.mp hnodup).2
        (fun b hb => hturns b (List.mem_cons_of_mem _ hb)) (haddr.trans_le hturned.next)
        (hturned.kept hdata hkept hready htakes) hparts₁
      refine ⟨max N₁ N₂, h₂, fun n m hn hm => ?_,
        .cons hparts hc haddr hnodup (hslot a) hu hoff hturned hrest⟩
      have hfirst : (body n m a).run (Heap.handle order) h = (some (), h₁) :=
        (hbody n m a h u hu).trans (hrun₁ n m (by omega) (by omega))
      exact (Prog.run_bind_of_some _ _ hfirst _).trans (hrun₂ n m (by omega) (by omega))

end Parts

/-! ## Whole templates -/

/-- The bound on recursions and loops does not matter within the loop over a text. -/
theorem transformText_withDepth (lib : Libs κ) (e : Event κ) (n : ℕ) (slot : Slot) (rounds : ℕ)
    (expr : List Char) :
    transformText (lib.withDepth n) e slot rounds expr = transformText lib e slot rounds expr := by
  induction rounds generalizing expr with
  | zero => rfl
  | succ rounds ih =>
      unfold transformText
      simp only [ih]
      rfl

/-- The string case. -/
theorem turns_str (hlib : lib.CopiesJson order d) (hdata : JsonData h₀ e d)
    (hpaths : PathValues lib h₀ e d value) {text : String} {j : Json}
    (hends : Ends value id text.toList j) : Turns lib order h₀ e value (.str text) := by
  intro h u slot hkept hready htakes
  obtain rfl : u = .str text := hready.represents
  have hdata' : JsonData h e d := hdata.kept hkept.1 hkept.2
  have hfits : slot.Fits h e text.toList := by
    intro c s hentry
    have hslot := htakes c s hentry
    exact ⟨hslot.container, by rw [hslot.step, String.ofList_toList], hslot.allocated,
      fun hx => hslot.apart (hkept.1.holds.mp hx)⟩
  obtain ⟨a, h', hsettles, w, hwrote, hshows, hfresh⟩ :=
    (sound_textLoop order hdata' hfits).settles hlib hdata'
      (hpaths.kept hdata hkept.1) hfits.wrote hends
  obtain ⟨N, hN⟩ := settles_transformText.mpr hsettles
  have hrun : ∀ n m, N + 1 ≤ n → N + 1 ≤ m →
      (transform (lib.withDepth m) e n (.str text) slot).run (Heap.handle order) h =
        (some (), h') := by
    intro n m hn hm
    obtain ⟨n, rfl⟩ : ∃ n', n = n' + 1 := ⟨n - 1, by omega⟩
    unfold transform
    rw [transformText_withDepth]
    exact hN m (by omega)
  obtain ⟨hnext, hslot⟩ := hwrote
  cases hentry : slot.entry with
  | none =>
      -- nothing is written
      rw [hentry] at hslot
      have hnil : (Value.str text).isContainer = false := rfl
      refine ⟨N + 1, h', .str text, hrun, hnext, fun _ => rfl, ?_, ?_, ?_, ?_, ?_⟩
      · intro c s hsome
        rw [hentry] at hsome
        cases hsome
      · exact fun x s' _ hlt _ _ => (hslot.same x.address hlt not_false).step s'
      · exact fun x hx => absurd hx (Heap.not_reaches hnil)
      · exact (Heap.fresh_of_not_container hnil 0).allocated
      · rw [hentry, Heap.Fills, Leaf, if_neg (by simp)]
  | some entry =>
      obtain ⟨c, s⟩ := entry
      rw [hentry] at hslot
      refine ⟨N + 1, h', w, hrun, hnext, ?_, ?_, ?_, ?_, hfresh.allocated, ?_⟩
      · intro hnone
        rw [hentry] at hnone
        cases hnone
      · intro c' s' hsome
        rw [hentry] at hsome
        obtain ⟨rfl, rfl⟩ := Prod.mk.inj (Option.some.inj hsome)
        exact hslot.written
      · exact fun x s' hx hlt _ hoff => hslot.frame x s' hx hlt fun heq => hoff c s hentry heq
      · exact fun x hx => Or.inr (hfresh.made x hx)
      · rw [hentry, Heap.Fills, Leaf]
        exact ⟨j, hends, hshows⟩

/-- Values without strings, objects and arrays stay as they are. -/
theorem turns_scalar (hscalar : ∀ h : Heap, ∀ u, h.Represents u t → u.isContainer = false ∧
      (∀ s, u ≠ .str s) ∧ ∀ (h' : Heap) held, h'.Fills (Leaf value h') held u t) :
    Turns lib order h₀ e value t := by
  intro h u slot _ hready htakes
  obtain ⟨hcont, hstr, hfills⟩ := hscalar h u hready.represents
  refine ⟨1, h, u, fun n m hn _ => ?_, le_rfl, fun _ => rfl, fun c s hentry => ?_,
    fun _ _ _ _ _ _ => rfl, fun _ hx => Or.inl hx, hready.allocated, hfills h _⟩
  · obtain ⟨n, rfl⟩ : ∃ n', n = n' + 1 := ⟨n - 1, by omega⟩
    cases u with
    | map r => cases hcont
    | slice r => cases hcont
    | str s => exact absurd rfl (hstr s)
    | _ => rfl
  · exact (htakes c s hentry).step

section Parts

variable {α : Type} {stepOf : α → Step} {slotOf : α → Slot} {kid : α → Json} {xs : List α}

/-- The parts of a tree. -/
theorem Ready.parts (hready : Ready h₀ e h v t) (hcont : v.isContainer)
    (hkid : ∀ a ∈ xs, ∃ u, h.step v (stepOf a) = some u ∧ h.Represents u (kid a)) :
    Parts h₀ e v stepOf kid h xs where
  ready := by
    intro a ha
    obtain ⟨u, hu, hrep⟩ := hkid a ha
    exact ⟨u, hu, ⟨hrep, hready.allocated.of_step hu, hready.separate.of_step hu,
      fun x hx => hready.apart x (hx.of_step hu)⟩, hready.separate.not_reaches_root hu hcont⟩
  disjoint a _ b _ hne u w x hu hw hx := hready.separate.disjoint hu hw hne hx

/-- The parts are in their places after their turns, and there are no others. -/
theorem PartsTurned.steps (hparts : PartsTurned value v stepOf slotOf kid h xs h')
    (hready : Ready h₀ e h v t) (hcont : v.isContainer)
    (hall : ∀ s u, h.step v s = some u → ∃ a ∈ xs, s = stepOf a)
    (hw : h'.step v s = some w) : ∃ a ∈ xs, s = stepOf a := by
  by_contra hnot
  have hlt : v.address < h.next :=
    Heap.allocatedBelow_iff.mp hready.allocated _ (Heap.reaches_self hcont)
  have hsame : h'.step v s = h.step v s := by
    refine hparts.frame v s hcont hlt (fun a _ u hu => ?_) fun _ a ha heq => hnot ⟨a, ha, heq⟩
    exact hready.separate.not_reaches_root hu hcont
  exact hnot (hall s w (hsame ▸ hw))

/-- An object or an array is where it was after the turns of its parts. -/
theorem PartsTurned.whole (hparts : PartsTurned value v stepOf slotOf kid h xs h')
    (hready : Ready h₀ e h v t) (hcont : v.isContainer)
    (htakes : ∀ c s, slot.entry = some (c, s) → slot.Takes h₀ e h v c s)
    (hall : ∀ s u, h.step v s = some u → ∃ a ∈ xs, s = stepOf a)
    (hthere : ∀ a ∈ xs, ∃ u, h.step v (stepOf a) = some u)
    (hfills : h'.Fills (Leaf value h') slot.entry.isSome v t) : Turned value slot h v t h' v := by
  have hroot : h.Reaches v v.address := Heap.reaches_self hcont
  have hlt : v.address < h.next := Heap.allocatedBelow_iff.mp hready.allocated _ hroot
  have hframe : ∀ x s', x.isContainer → x.address < h.next → ¬ h.Reaches v x.address →
      h'.step x s' = h.step x s' := by
    intro x s' hx hlt' hoff
    refine hparts.frame x s' hx hlt' (fun a _ u hu hr => hoff (hr.of_step hu)) ?_
    rintro rfl
    exact absurd hroot hoff
  have hbelow : ∀ s w, h'.step v s = some w →
      (∀ x, h'.Reaches w x → h.Reaches v x ∨ h.next ≤ x) ∧ h'.AllocatedBelow w := by
    intro s w hw
    obtain ⟨a, ha, rfl⟩ := hparts.steps hready hcont hall hw
    obtain ⟨u, hu⟩ := hthere a ha
    obtain ⟨w', hw', hreach, halloc, -⟩ := hparts.turned a ha u hu
    obtain rfl := Option.some.inj (hw.symm.trans hw')
    exact ⟨fun x hx => (hreach x hx).imp_left fun hr => hr.of_step hu, halloc⟩
  refine ⟨hparts.next, fun _ => rfl, fun c s hentry => ?_, fun x s' hx hlt' hoff _ =>
    hframe x s' hx hlt' hoff, fun x hx => ?_, Heap.allocatedBelow_iff.mpr fun x hx => ?_, hfills⟩
  · have hslot := htakes c s hentry
    rw [hframe c s hslot.container hslot.allocated hslot.off, hslot.step]
  · rcases Heap.reaches_iff.mp hx with ⟨-, rfl⟩ | ⟨s, w, hw, hxw⟩
    · exact Or.inl hroot
    · exact (hbelow s w hw).1 x hxw
  · rcases Heap.reaches_iff.mp hx with ⟨-, rfl⟩ | ⟨s, w, hw, hxw⟩
    · exact hlt.trans_le hparts.next
    · exact Heap.allocatedBelow_iff.mp (hbelow s w hw).2 x hxw

end Parts

theorem Slot.isSome_entry_key (r : Ref) (key : String) :
    (Slot.key r key).entry.isSome = (key != "") := by
  rw [Slot.entry]
  split_ifs with hkey
  · simp [hkey]
  · simp [not_not.mp hkey]

theorem Slot.of_entry_key {r : Ref} {key : String} (hentry : (Slot.key r key).entry = some (c, s)) :
    c = .map r ∧ s = .key key := by
  rw [Slot.entry] at hentry
  split_ifs at hentry
  obtain ⟨rfl, rfl⟩ := Prod.mk.inj (Option.some.inj hentry)
  exact ⟨rfl, rfl⟩

theorem Slot.of_entry_index {r : Ref} {idx : ℕ}
    (hentry : (Slot.index r idx).entry = some (c, s)) : c = .slice r ∧ s = .index idx := by
  obtain ⟨rfl, rfl⟩ := Prod.mk.inj (Option.some.inj hentry)
  exact ⟨rfl, rfl⟩

/-- The case of objects. -/
theorem turns_obj (horder : Enumerates order) (hdata : JsonData h₀ e d)
    {fields : List (String × Json)} (hturns : ∀ f ∈ fields, Turns lib order h₀ e value f.2) :
    Turns lib order h₀ e value (.obj fields) := by
  intro h u slot hkept hready htakes
  obtain ⟨r, rfl, hnodup, honly, hfields⟩ := Heap.represents_obj.mp hready.represents
  have hkeys : ∀ key, key ∈ order (h.maps r).keys ↔ h.getKey r key ≠ none := by
    intro key
    rw [(horder _).2, Heap.mem_keys_iff]
  have hfield : ∀ key ∈ order (h.maps r).keys, ∃ f ∈ fields, f.1 = key := by
    intro key hkey
    exact List.mem_map.mp (honly key ((hkeys key).mp hkey))
  have hkid : ∀ key ∈ order (h.maps r).keys, ∃ u, h.step (.map r) (.key key) = some u ∧
      h.Represents u (Json.get fields key) := by
    intro key hkey
    obtain ⟨f, hf, rfl⟩ := hfield key hkey
    rw [Json.get_of_mem hnodup hf]
    exact hfields f hf
  have hroot : h.Reaches (.map r) r := Heap.reaches_self rfl
  have hslot : ∀ key c s, (Slot.key r key).entry = some (c, s) → c = .map r ∧ s = .key key :=
    fun _ _ _ hentry => Slot.of_entry_key hentry
  have hbody : ∀ (n m : ℕ) (key : String) (h : Heap) (u : Value),
      h.step (.map r) (.key key) = some u →
      (HeapProg.lookup (.map r) key >>= fun st =>
        transform (lib.withDepth m) e n st (.key r key)).run (Heap.handle order) h =
      (transform (lib.withDepth m) e n u (.key r key)).run (Heap.handle order) h := by
    intro n m key h u hu
    rw [Prog.run_bind_of_some _ _ (HeapProg.run_lookup order h r key), ← Heap.step_key, hu,
      Option.getD_some]
  have hsteps : ((order (h.maps r).keys).map Step.key).Nodup :=
    (horder _).1.map fun _ _ heq => Step.key.inj heq
  have hkids : ∀ key ∈ order (h.maps r).keys, Turns lib order h₀ e value (Json.get fields key) := by
    intro key hkey
    obtain ⟨f, hf, rfl⟩ := hfield key hkey
    rw [Json.get_of_mem hnodup hf]
    exact hturns f hf
  obtain ⟨N, h', hrun, hparts⟩ := run_parts hdata rfl hslot hbody (hready.apart r hroot)
    (order (h.maps r).keys) hsteps hkids
    (Heap.allocatedBelow_iff.mp hready.allocated r hroot) hkept (hready.parts rfl hkid)
  have hall : ∀ s u, h.step (.map r) s = some u → ∃ key ∈ order (h.maps r).keys, s = .key key := by
    intro s u hs
    cases s with
    | key key => exact ⟨key, (hkeys key).mpr (by rw [← Heap.step_key, hs]; simp), rfl⟩
    | index i => cases hs
  refine ⟨N + 1, h', .map r, fun n m hn hm => ?_,
    hparts.whole hready rfl htakes hall (fun key hkey => (hkid key hkey).imp fun _ hu => hu.1) ?_⟩
  · obtain ⟨n, rfl⟩ : ∃ n', n = n' + 1 := ⟨n - 1, by omega⟩
    unfold transform
    exact hrun n m (by omega) (by omega)
  · refine Heap.fills_obj.mpr ⟨r, rfl, hnodup, fun key hkey => ?_, fun f hf => ?_⟩
    · obtain ⟨w, hw⟩ := Option.ne_none_iff_exists'.mp hkey
      obtain ⟨key', hkey', heq⟩ := hparts.steps hready rfl hall (s := .key key) hw
      obtain rfl := Step.key.inj heq
      exact honly key ((hkeys key).mp hkey')
    · obtain ⟨u, hu, -⟩ := hfields f hf
      have hkey : f.1 ∈ order (h.maps r).keys := (hkeys f.1).mpr (by rw [hu]; simp)
      obtain ⟨w, hw, -, -, hfills⟩ := hparts.turned f.1 hkey u hu
      rw [Slot.isSome_entry_key, Json.get_of_mem hnodup hf] at hfills
      exact ⟨w, hw, hfills⟩

/-- The case of arrays. -/
theorem turns_arr (hdata : JsonData h₀ e d) {elems : List Json}
    (hturns : ∀ j ∈ elems, Turns lib order h₀ e value j) :
    Turns lib order h₀ e value (.arr elems) := by
  intro h u slot hkept hready htakes
  obtain ⟨r, rfl, helems⟩ := Heap.represents_arr.mp hready.represents
  obtain ⟨hlength, hget⟩ := List.forall₂_iff_get.mp helems
  have hkid : ∀ i ∈ List.range (h.slices r).length, ∃ u, h.step (.slice r) (.index i) = some u ∧
      h.Represents u (elems.getD i .null) := by
    intro i hi
    have hi := List.mem_range.mp hi
    refine ⟨_, List.getElem?_eq_getElem hi, ?_⟩
    rw [List.getD_eq_getElem _ _ (hlength ▸ hi)]
    exact hget i hi (hlength ▸ hi)
  have hroot : h.Reaches (.slice r) r := Heap.reaches_self rfl
  have hslot : ∀ i c s, (Slot.index r i).entry = some (c, s) → c = .slice r ∧ s = .index i :=
    fun _ _ _ hentry => Slot.of_entry_index hentry
  have hbody : ∀ (n m idx : ℕ) (h : Heap) (u : Value), h.step (.slice r) (.index idx) = some u →
      (HeapProg.index r idx >>= fun st =>
        transform (lib.withDepth m) e n st (.index r idx)).run (Heap.handle order) h =
      (transform (lib.withDepth m) e n u (.index r idx)).run (Heap.handle order) h := by
    intro n m idx h u hu
    rw [Prog.run_bind_of_some _ _ (HeapProg.run_index order h r idx), List.getD_eq_getElem?_getD,
      ← Heap.step_index, hu, Option.getD_some]
  have hsteps : ((List.range (h.slices r).length).map Step.index).Nodup :=
    List.nodup_range.map fun _ _ heq => Step.index.inj heq
  have hkids : ∀ i ∈ List.range (h.slices r).length,
      Turns lib order h₀ e value (elems.getD i .null) := by
    intro i hi
    have hi := List.mem_range.mp hi
    rw [List.getD_eq_getElem _ _ (hlength ▸ hi)]
    exact hturns _ (List.getElem_mem _)
  obtain ⟨N, h', hrun, hparts⟩ := run_parts hdata rfl hslot hbody (hready.apart r hroot)
    (List.range (h.slices r).length) hsteps hkids
    (Heap.allocatedBelow_iff.mp hready.allocated r hroot) hkept (hready.parts rfl hkid)
  have hall : ∀ s u, h.step (.slice r) s = some u →
      ∃ i ∈ List.range (h.slices r).length, s = .index i := by
    intro s u hs
    cases s with
    | key key => cases hs
    | index i =>
        obtain ⟨hi, -⟩ := List.getElem?_eq_some_iff.mp hs
        exact ⟨i, List.mem_range.mpr hi, rfl⟩
  have hindex : ∀ i, i < (h'.slices r).length ↔ i < (h.slices r).length := by
    intro i
    constructor
    · intro hi
      obtain ⟨i', hi', heq⟩ :=
        hparts.steps hready rfl hall (s := .index i) (List.getElem?_eq_getElem hi)
      obtain rfl := Step.index.inj heq
      exact List.mem_range.mp hi'
    · intro hi
      obtain ⟨u, hu, -⟩ := hkid i (List.mem_range.mpr hi)
      obtain ⟨w, hw, -⟩ := hparts.turned i (List.mem_range.mpr hi) u hu
      exact (List.getElem?_eq_some_iff.mp hw).1
  have hlength' : (h'.slices r).length = (h.slices r).length :=
    le_antisymm (le_of_forall_lt fun i => (hindex i).mp) (le_of_forall_lt fun i => (hindex i).mpr)
  refine ⟨N + 1, h', .slice r, fun n m hn hm => ?_,
    hparts.whole hready rfl htakes hall (fun i hi => (hkid i hi).imp fun _ hu => hu.1) ?_⟩
  · obtain ⟨n, rfl⟩ : ∃ n', n = n' + 1 := ⟨n - 1, by omega⟩
    unfold transform
    rw [Prog.run_bind_of_some _ _ (HeapProg.run_len order h r)]
    exact hrun n m (by omega) (by omega)
  · refine Heap.fills_arr.mpr ⟨r, rfl, List.forall₂_iff_get.mpr ⟨hlength'.trans hlength, ?_⟩⟩
    intro i hi hi'
    obtain ⟨u, hu, -⟩ := hkid i (List.mem_range.mpr (hlength' ▸ hi))
    obtain ⟨w, hw, -, -, hfills⟩ := hparts.turned i (List.mem_range.mpr (hlength' ▸ hi)) u hu
    obtain ⟨_, rfl⟩ := List.getElem?_eq_some_iff.mp hw
    rw [List.getD_eq_getElem _ _ hi'] at hfills
    exact hfills

/-- `transform` takes its turn on every template for whose strings `Evaluate` returns. -/
theorem turns (horder : Enumerates order) (hlib : lib.CopiesJson order d) (hdata : JsonData h₀ e d)
    (hpaths : PathValues lib h₀ e d value) {held : Bool}
    (hends : ∀ p ∈ t.leaves held, ∃ j, Ends value id p.2.toList j) :
    Turns lib order h₀ e value t := by
  induction t using Json.tree_induction generalizing held with
  | str s =>
      obtain ⟨j, hj⟩ := hends (held, s) (by simp [Json.leaves])
      exact turns_str hlib hdata hpaths hj
  | arr elems ih =>
      refine turns_arr hdata fun j hj => ih j hj fun p (hp : p ∈ j.leaves true) => hends p ?_
      rw [Json.leaves]
      exact Json.mem_leavesElems.mpr ⟨j, hj, hp⟩
  | obj fields ih =>
      refine turns_obj horder hdata fun f hf => ih f hf fun p (hp : p ∈ f.2.leaves (f.1 != "")) =>
        hends p ?_
      rw [Json.leaves]
      exact Json.mem_leavesFields.mpr ⟨f, hf, hp⟩
  | null =>
      refine turns_scalar fun h u hu => ?_
      obtain rfl : u = .nil := hu
      exact ⟨rfl, by simp, fun _ _ => by simp [Heap.Fills]⟩
  | bool b =>
      refine turns_scalar fun h u hu => ?_
      obtain rfl : u = .bool b := hu
      exact ⟨rfl, by simp, fun _ _ => by simp [Heap.Fills]⟩
  | num text =>
      refine turns_scalar fun h u hu => ?_
      obtain rfl : u = .num text := hu
      exact ⟨rfl, by simp, fun _ _ => by simp [Heap.Fills]⟩

/-! ## What `Evaluate` returns -/

/-- The value is the one that `Evaluate` returns for the string. -/
def Evaluated (lib : Libs κ) (order : Finset String → List String) (e : Event κ) (h h' : Heap)
    (s : String) (w : Value) : Prop :=
  ∃ found h₁ j, Settles order (fun rounds => evaluateText lib e rounds s.toList) h found h₁ ∧
    h₁.Shows found.1 j ∧ h'.Shows w j

theorem settles_evaluateText_iff (hlib : lib.CopiesJson order d) (hdata : JsonData h e d)
    (hpaths : PathValues lib h e d value) {text : List Char} :
    (∃ found h', Settles order (fun rounds => evaluateText lib e rounds text) h found h') ↔
      ∃ j, Ends value id text j := by
  simp only [evaluateText_eq, evaluateRound_eq]
  constructor
  · rintro ⟨found, h', hsettles⟩
    obtain ⟨j, hends, -⟩ := (sound_evaluateLoop _ hdata).ends_of_settles hlib hdata hpaths
      (.refl _ _) hsettles
    exact ⟨j, hends⟩
  · rintro ⟨j, hends⟩
    obtain ⟨found, h', hsettles, -⟩ := (sound_evaluateLoop _ hdata).settles hlib hdata hpaths
      (.refl _ _) hends
    exact ⟨found, h', hsettles⟩

theorem evaluated_iff_ends (hlib : lib.CopiesJson order d) (hdata : JsonData h e d)
    (hpaths : PathValues lib h e d value) {text : String} :
    Evaluated lib order e h h' text w ↔ ∃ j, Ends value id text.toList j ∧ h'.Shows w j := by
  unfold Evaluated
  simp only [evaluateText_eq, evaluateRound_eq]
  constructor
  · rintro ⟨found, h₁, j, hsettles, hfound, hw⟩
    obtain ⟨k, hends, hk⟩ := (sound_evaluateLoop _ hdata).ends_of_settles hlib hdata hpaths
      (.refl _ _) hsettles
    exact ⟨k, hends, hfound.congr hk hw⟩
  · rintro ⟨j, hends, hw⟩
    obtain ⟨found, h₁, hsettles, hj⟩ := (sound_evaluateLoop _ hdata).settles hlib hdata hpaths
      (.refl _ _) hends
    exact ⟨found, h₁, j, hsettles, hj, hw⟩

/-- What `transform` leaves in the place of a string is what `Evaluate` returns for it, or the
string itself where nothing is written. -/
theorem Leaf.evaluated_iff (hlib : lib.CopiesJson order d) (hdata : JsonData h e d)
    (hpaths : PathValues lib h e d value) {held : Bool} {text : String}
    (hleaf : Leaf value h' held text w) :
    Evaluated lib order e h h' text w ↔ (held = false → Expansion.Fixed value text.toList) := by
  rw [evaluated_iff_ends hlib hdata hpaths]
  cases held with
  | true => exact ⟨fun _ hfalse => (by cases hfalse), fun _ => hleaf⟩
  | false =>
      obtain rfl : w = .str text := hleaf
      rw [Expansion.fixed_iff, String.ofList_toList]
      constructor
      · rintro ⟨j, hends, hshows⟩ -
        rwa [eq_of_shows_str (shows_str h' text) hshows] at hends
      · exact fun hends => ⟨.str text, hends rfl, shows_str h' text⟩

/-- `transform` returns, and has replaced the strings that an array or a key holds. -/
theorem exists_transformed (horder : Enumerates order) (hlib : lib.CopiesJson order d)
    (hdata : JsonData h e d) (hpaths : PathValues lib h e d value) (hready : Ready h e h v t)
    (hsettles : ∀ p ∈ t.leaves false, ∃ found h',
      Settles order (fun rounds => evaluateText lib e rounds p.2.toList) h found h') :
    ∃ N h', (∀ n, N ≤ n →
        (transform (lib.withDepth n) e n v .none).run (Heap.handle order) h = (some (), h')) ∧
      (∀ x, x < h.next → ¬ h.Reaches v x → h.SameAt h' x) ∧
      h'.Fills (Leaf value h') false v t := by
  have hentry : ∀ c s, Slot.none.entry = some (c, s) → False := by
    intro c s hsome
    cases hsome
  obtain ⟨N, h', w, hrun, hturned⟩ := turns horder hlib hdata hpaths
    (fun p hp => (settles_evaluateText_iff hlib hdata hpaths).mp (hsettles p hp)) h v .none
    (.refl h e) hready fun c s hsome => (hentry c s hsome).elim
  obtain rfl := hturned.unheld rfl
  exact ⟨N, h', fun n hn => hrun n n hn hn,
    fun x hx hoff => hturned.sameAt hx hoff fun c s hsome => (hentry c s hsome).elim, hturned.fills⟩

/-- **Which templates are filled right.**  For every template that is a tree of its own, where
`Evaluate` returns for every string, `transform` returns and changes nothing but the template, and
the strings are replaced by what `Evaluate` returns for them exactly when each string that is the
whole template, or stands under an empty key, is one that `Evaluate` returns as it is. -/
theorem transform_maps_iff (horder : Enumerates order) (hlib : lib.CopiesJson order d)
    (hdata : JsonData h e d) (hpaths : PathValues lib h e d value) (hready : Ready h e h v t)
    (hsettles : ∀ p ∈ t.leaves false, ∃ found h',
      Settles order (fun rounds => evaluateText lib e rounds p.2.toList) h found h') :
    ∃ N h', (∀ n, N ≤ n →
        (transform (lib.withDepth n) e n v .none).run (Heap.handle order) h = (some (), h')) ∧
      (∀ x, x < h.next → ¬ h.Reaches v x → h.SameAt h' x) ∧
      (h'.Fills (fun _ => Evaluated lib order e h h') false v t ↔
        ∀ s, (false, s) ∈ t.leaves false → Expansion.Fixed value s.toList) := by
  obtain ⟨N, h', hrun, hframe, hfills⟩ :=
    exists_transformed horder hlib hdata hpaths hready hsettles
  refine ⟨N, h', hrun, hframe, ?_⟩
  have hleaf : ∀ held s w, Leaf value h' held s w → (Evaluated lib order e h h' s w ↔
      (held = false → Expansion.Fixed value s.toList)) :=
    fun _ _ _ hleaf => hleaf.evaluated_iff hlib hdata hpaths
  rw [Heap.fills_iff hleaf hfills]
  constructor
  · exact fun hall s hs => hall (false, s) hs rfl
  · rintro hall ⟨held, s⟩ hp hheld
    obtain rfl : held = false := hheld
    exact hall s hp

/-! A template with one field. -/

/-- An object that holds the template `x{.}` under a key. -/
def keyHeap (key : String) : Heap :=
  Heap.empty.makeMap.1.setKey 0 key (.str (String.ofList dotTemplate.render))

theorem step_keyHeap {key : String} (hs : (keyHeap key).step (.map 0) s = some u) :
    s = .key key ∧ u = .str (String.ofList dotTemplate.render) := by
  cases s with
  | index i => cases hs
  | key k =>
      rw [Heap.step_key, keyHeap] at hs
      by_cases hk : k = key
      · subst hk
        rw [Heap.getKey_setKey_self] at hs
        exact ⟨rfl, (Option.some.inj hs).symm⟩
      · rw [Heap.getKey_setKey_of_ne hk] at hs
        exact absurd hs (by rw [show (0 : Ref) = Heap.empty.next from rfl,
          Heap.getKey_makeMap]; simp)

theorem not_reaches_textEvent (s : String) (x : Ref) : ¬ Holds h (textEvent s) x := by
  rintro (hx | hx)
  · exact Heap.not_reaches rfl hx
  · exact Heap.not_reaches rfl hx

theorem ready_keyHeap (key s : String) : Ready (keyHeap key) (textEvent s) (keyHeap key) (.map 0)
    (.obj [(key, .str (String.ofList dotTemplate.render))]) where
  represents := by
    have hget : (keyHeap key).getKey 0 key = some (.str (String.ofList dotTemplate.render)) :=
      Heap.getKey_setKey_self _ _ _ _
    refine Heap.represents_obj.mpr ⟨0, rfl, by simp, fun k hk => ?_, fun f hf => ?_⟩
    · obtain ⟨w, hw⟩ := Option.ne_none_iff_exists'.mp hk
      obtain ⟨heq, -⟩ := step_keyHeap (s := .key k) hw
      simp [Step.key.inj heq]
    · obtain rfl := List.mem_singleton.mp hf
      exact ⟨_, hget, rfl⟩
  allocated := by
    refine Heap.allocatedBelow_iff.mpr fun x hx => ?_
    rcases Heap.reaches_iff.mp hx with ⟨-, rfl⟩ | ⟨s, w, hw, hxw⟩
    · exact Nat.zero_lt_one
    · obtain ⟨-, rfl⟩ := step_keyHeap hw
      exact absurd hxw (Heap.not_reaches rfl)
  separate := by
    have hroot : ∀ p w, w.isContainer → (keyHeap key).locate (.map 0) p = some w → p = [] := by
      intro p w hw hp
      cases p with
      | nil => rfl
      | cons s p =>
          cases hs : (keyHeap key).step (.map 0) s with
          | none =>
              rw [Heap.locate_cons_of_none hs] at hp
              cases hp
          | some u =>
              obtain ⟨-, rfl⟩ := step_keyHeap hs
              rw [Heap.locate_cons_of_some hs] at hp
              exact absurd ⟨p, w, hp, hw, rfl⟩ (Heap.not_reaches rfl)
    intro p q u w hu hw hp hq _
    rw [hroot p u hu hp, hroot q w hw hq]
  apart x _ := not_reaches_textEvent s x

/-- Where the payload is `a` the template becomes `xa`. -/
theorem ends_dotTemplate (hpaths : PathValues scalarCodec h (textEvent "a") 0 value) :
    Ends value id dotTemplate.render (.str "xa") := by
  have hfound : findBraces dotTemplate.render = .found ['x'] ['.'] [] := by decide
  have hround : Expansion.round value dotTemplate.render = .next ['x', 'a'] := by
    rw [Expansion.round_of_found hfound (value_dot hpaths), if_neg (by simp)]
    rfl
  exact .next hround (.text (Expansion.round_of_none (by decide)))

theorem settles_dotTemplate (h : Heap) : ∃ found h', Settles ascending
    (fun rounds => evaluateText scalarCodec (textEvent "a") rounds dotTemplate.render) h found
      h' := by
  obtain ⟨value, hpaths⟩ := exists_pathValues scalarCodec (jsonData_textEvent h "a")
  exact (settles_evaluateText_iff (copiesJson_scalarCodec ascending) (jsonData_textEvent h "a")
    hpaths).mpr ⟨_, ends_dotTemplate hpaths⟩

/-- The strings of the template. -/
theorem settles_leaves (key : String) (p : Bool × String)
    (hp : p ∈ (Json.obj [(key, .str (String.ofList dotTemplate.render))]).leaves false) :
    ∃ found h', Settles ascending
      (fun rounds => evaluateText scalarCodec (textEvent "a") rounds p.2.toList) (keyHeap key)
        found h' := by
  simp only [Json.leaves, Json.leavesFields, List.append_nil, List.mem_singleton] at hp
  rw [hp, String.toList_ofList]
  exact settles_dotTemplate _

/-- Under the key `t` the string is replaced. -/
theorem transform_maps_iff_t : ∃ N h', (∀ n, N ≤ n →
      (transform (scalarCodec.withDepth n) (textEvent "a") n (.map 0) .none).run
        (Heap.handle ascending) (keyHeap "t") = (some (), h')) ∧
    (∀ x, x < (keyHeap "t").next → ¬ (keyHeap "t").Reaches (.map 0) x →
      (keyHeap "t").SameAt h' x) ∧
    h'.Fills (fun _ => Evaluated scalarCodec ascending (textEvent "a") (keyHeap "t") h') false
      (.map 0) (.obj [("t", .str (String.ofList dotTemplate.render))]) := by
  have hdata := jsonData_textEvent (keyHeap "t") "a"
  obtain ⟨value, hpaths⟩ := exists_pathValues scalarCodec hdata
  obtain ⟨N, h', hrun, hframe, hiff⟩ := transform_maps_iff Merge.enumerates_ascending
    (copiesJson_scalarCodec ascending) hdata hpaths (ready_keyHeap "t" "a") (settles_leaves "t")
  refine ⟨N, h', hrun, hframe, hiff.mpr fun s hs => ?_⟩
  simp [Json.leaves, Json.leavesFields] at hs

/-- Under an empty key the string `x{.}` stays, and `Evaluate` returns `xa` for it. -/
theorem transform_drops : (∀ p ∈ (Json.obj [("", .str "x\x7b.\x7d")]).leaves false,
      ∃ found h', Settles ascending (fun rounds =>
        evaluateText scalarCodec (textEvent "a") rounds p.2.toList) (keyHeap "") found h') ∧
    ¬ ∃ N h', (∀ n, N ≤ n →
        (transform (scalarCodec.withDepth n) (textEvent "a") n (.map 0) .none).run
          (Heap.handle ascending) (keyHeap "") = (some (), h')) ∧
      h'.Fills (fun _ => Evaluated scalarCodec ascending (textEvent "a") (keyHeap "") h') false
        (.map 0) (.obj [("", .str "x\x7b.\x7d")]) := by
  have htext : "x\x7b.\x7d" = String.ofList dotTemplate.render := by decide
  have hdata := jsonData_textEvent (keyHeap "") "a"
  have hlib := copiesJson_scalarCodec ascending
  obtain ⟨value, hpaths⟩ := exists_pathValues scalarCodec hdata
  rw [htext]
  refine ⟨settles_leaves "", ?_⟩
  rintro ⟨N', h'', hrun', hfills'⟩
  obtain ⟨N, h', hrun, -, hfills⟩ := exists_transformed Merge.enumerates_ascending hlib hdata hpaths
    (ready_keyHeap "" "a") (settles_leaves "")
  obtain rfl : h' = h'' := by
    have heq := (hrun (max N N') (le_max_left _ _)).symm.trans (hrun' (max N N') (le_max_right _ _))
    exact (Prod.mk.inj heq).2
  have hiff := Heap.fills_iff (fun _ _ _ hleaf => hleaf.evaluated_iff hlib hdata hpaths) hfills
  have hfixed := hiff.mp hfills' (false, String.ofList dotTemplate.render)
    (by simp [Json.leaves, Json.leavesFields]) rfl
  rw [Expansion.fixed_iff, String.toList_ofList] at hfixed
  have heq := (ends_dotTemplate hpaths).unique hfixed
  exact absurd (Json.str.inj heq) (by decide)

end Transform
