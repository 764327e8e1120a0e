/-
# Positions in the data of the heap

A position is the list of the keys and indexes that lead from a value to another one below it.
A write to one entry of an object or of an array changes what is found at the positions that go
through that entry.  Where no object and no array is reached by two positions, these are the
positions that continue one (`locate_elsewhere`); where none contains itself, the entry is still
found where it was (`locate_written`).
-/
import Ears.JsonHeap
import Ears.HeapTree

namespace GoLib

/-- One step into an object or into an array. -/
inductive Step where
  | key (k : String)
  | index (i : ℕ)
  deriving DecidableEq, Repr

/-- The value is an object or an array. -/
def Value.isContainer : Value → Bool
  | .map _ => true
  | .slice _ => true
  | _ => false

/-- The address of an object or an array. -/
def Value.address : Value → Ref
  | .map r => r
  | .slice a => a
  | _ => 0

namespace Heap

/-- The value one step below a value. -/
def step (h : Heap) : Value → Step → Option Value
  | .map r, .key k => h.getKey r k
  | .slice a, .index i => (h.slices a)[i]?
  | _, _ => none

/-- The value at a position. -/
def locate (h : Heap) (v : Value) : List Step → Option Value
  | [] => some v
  | s :: p => (h.step v s).bind fun u => h.locate u p

variable {h h' : Heap} {v u w : Value} {s : Step} {p q : List Step}

@[simp] theorem step_key (h : Heap) (r : Ref) (k : String) :
    h.step (.map r) (.key k) = h.getKey r k := rfl

@[simp] theorem step_index (h : Heap) (a : Ref) (i : ℕ) :
    h.step (.slice a) (.index i) = (h.slices a)[i]? := rfl

@[simp] theorem locate_nil (h : Heap) (v : Value) : h.locate v [] = some v := rfl

theorem locate_cons_of_some (hs : h.step v s = some u) : h.locate v (s :: p) = h.locate u p := by
  rw [locate, hs, Option.bind_some]

theorem locate_cons_of_none (hs : h.step v s = none) : h.locate v (s :: p) = none := by
  rw [locate, hs, Option.bind_none]

theorem locate_append (h : Heap) (v : Value) (p q : List Step) :
    h.locate v (p ++ q) = (h.locate v p).bind fun u => h.locate u q := by
  induction p generalizing v with
  | nil => rfl
  | cons s p ih =>
      rw [List.cons_append]
      cases hs : h.step v s with
      | none => rw [locate_cons_of_none hs, locate_cons_of_none hs, Option.bind_none]
      | some u => rw [locate_cons_of_some hs, locate_cons_of_some hs, ih]

theorem locate_append_of_some (hp : h.locate v p = some u) :
    h.locate v (p ++ q) = h.locate u q := by
  rw [locate_append, hp, Option.bind_some]

theorem locate_singleton (h : Heap) (v : Value) (s : Step) : h.locate v [s] = h.step v s := by
  cases hs : h.step v s with
  | none => rw [locate_cons_of_none hs]
  | some u => rw [locate_cons_of_some hs, locate_nil]

/-- Only objects and arrays have something below them. -/
theorem step_of_not_container (hv : v.isContainer = false) : h.step v s = none := by
  cases v <;> first | rfl | exact Bool.noConfusion hv

theorem locate_of_not_container (hv : v.isContainer = false) (hp : h.locate v p = some u) :
    p = [] ∧ u = v := by
  cases p with
  | nil => exact ⟨rfl, (Option.some.inj hp).symm⟩
  | cons s p =>
      rw [locate_cons_of_none (step_of_not_container hv)] at hp
      exact nomatch hp

/-- Keys are steps into objects. -/
theorem locate_keys (h : Heap) (v : Value) (keys : List String) :
    h.locate v (keys.map .key) = h.walk v keys := by
  induction keys generalizing v with
  | nil => rw [walk_nil]; rfl
  | cons k keys ih =>
      rw [List.map_cons]
      cases v with
      | map r =>
          cases hk : h.getKey r k with
          | none => rw [walk_cons_of_none hk, locate_cons_of_none ((step_key h r k).trans hk)]
          | some u =>
              rw [walk_cons_of_some hk, locate_cons_of_some ((step_key h r k).trans hk), ih]
      | _ => rfl

/-! ## What is known of the data of an event -/

/-- All objects and arrays below a value are allocated. -/
def AllocatedBelow (h : Heap) (v : Value) : Prop :=
  ∀ p u, h.locate v p = some u → u.isContainer → u.address < h.next

/-- No object and no array below a value contains itself. -/
def Acyclic (h : Heap) (v : Value) : Prop :=
  ∀ p q u, u.isContainer → h.locate v p = some u → h.locate u q = some u → q = []

/-- No object and no array is at two positions below a value. -/
def Unshared (h : Heap) (v : Value) : Prop :=
  ∀ p q u, u.isContainer → h.locate v p = some u → h.locate v q = some u → p = q

theorem Unshared.acyclic (hv : h.Unshared v) : h.Acyclic v := by
  intro p q u hu hp hq
  have hpq := hv (p ++ q) p u hu (by rw [locate_append_of_some hp, hq]) hp
  simpa using hpq

theorem AllocatedBelow.of_locate (hv : h.AllocatedBelow v) (hp : h.locate v p = some u) :
    h.AllocatedBelow u := by
  intro q w hq
  exact hv (p ++ q) w (by rw [locate_append_of_some hp, hq])

theorem AllocatedBelow.of_step (hv : h.AllocatedBelow v) (hs : h.step v s = some u) :
    h.AllocatedBelow u := hv.of_locate (p := [s]) (by rw [locate_singleton, hs])

/-! ## One entry is written -/

/-- A position is read off the entries that it goes through. -/
theorem locate_congr
    (hsteps : ∀ q s u, q ++ [s] <+: p → h.locate v q = some u → h'.step u s = h.step u s) :
    h'.locate v p = h.locate v p := by
  induction p generalizing v with
  | nil => rfl
  | cons s p ih =>
      have hv : h'.step v s = h.step v s :=
        hsteps [] s v (List.cons_prefix_cons.mpr ⟨rfl, List.nil_prefix⟩) rfl
      cases hs : h.step v s with
      | none => rw [locate_cons_of_none hs, locate_cons_of_none (hv.trans hs)]
      | some u =>
          rw [locate_cons_of_some hs, locate_cons_of_some (hv.trans hs)]
          refine ih fun q s' w hq hw => ?_
          exact hsteps (s :: q) s' w (List.cons_prefix_cons.mpr ⟨rfl, hq⟩)
            (by rw [locate_cons_of_some hs, hw])

/-- One entry holds a new value, and the other entries of what was allocated what they held. -/
structure Writes (h : Heap) (c : Value) (s : Step) (w : Value) (h' : Heap) : Prop where
  container : c.isContainer
  written : h'.step c s = some w
  frame : ∀ u s', u.isContainer → u.address < h.next → (u = c → s' ≠ s) →
    h'.step u s' = h.step u s'

variable {c : Value} {σ π : List Step}

/-- A position that does not go through the written entry. -/
theorem Writes.locate_off (hw : h.Writes c s w h') (halloc : h.AllocatedBelow v)
    (hoff : ∀ q, q ++ [s] <+: p → h.locate v q ≠ some c) : h'.locate v p = h.locate v p := by
  refine locate_congr fun q s' u hq hu => ?_
  cases hcont : u.isContainer with
  | false => rw [step_of_not_container hcont, step_of_not_container hcont]
  | true =>
      refine hw.frame u s' hcont (halloc q u hu hcont) ?_
      rintro rfl rfl
      exact hoff q hq hu

/-- The object or array that is written to is found where it was. -/
theorem Writes.locate_container (hw : h.Writes c s w h') (halloc : h.AllocatedBelow v)
    (hacyclic : h.Acyclic v) (hc : h.locate v π = some c) : h'.locate v π = some c := by
  rw [← hc]
  refine hw.locate_off halloc fun q hq hqc => ?_
  -- otherwise the rest of the position leads from it back to it
  obtain ⟨rest, rfl⟩ := hq
  rw [List.append_assoc, locate_append_of_some hqc] at hc
  exact absurd (hacyclic q _ c hw.container hqc hc) (by simp)

/-- The new value is found at the entry. -/
theorem Writes.locate_written (hw : h.Writes c s w h') (halloc : h.AllocatedBelow v)
    (hacyclic : h.Acyclic v) (hc : h.locate v π = some c) (q : List Step) :
    h'.locate v (π ++ s :: q) = h'.locate w q := by
  rw [locate_append_of_some (hw.locate_container halloc hacyclic hc),
    locate_cons_of_some hw.written]

/-- In data without sharing nothing changes at the other positions. -/
theorem Writes.locate_elsewhere (hw : h.Writes c s w h') (halloc : h.AllocatedBelow v)
    (hunshared : h.Unshared v) (hc : h.locate v π = some c) (hσ : ¬ π ++ [s] <+: σ) :
    h'.locate v σ = h.locate v σ := by
  refine hw.locate_off halloc fun q hq hqc => hσ ?_
  rw [hunshared π q c hw.container hc hqc]
  exact hq

end Heap

end GoLib
