/-
# Fibers of finite maps

A table that shares one object under several keys has, for each object, the set of keys
that lead to it.  How that set and its size change when a key is added or removed is what
a reference counter has to follow.

`drain` walks a table and removes, for each key it still finds, the key that its object
names.  `drain_eq_empty_iff`: nothing is left exactly when every object names the key that
leads to it.
-/
import Mathlib

namespace Finmap

variable {α β : Type*} [DecidableEq α]

theorem lookup_insert_eq (m : Finmap fun _ : α => β) (a a' : α) (b : β) :
    (m.insert a b).lookup a' = if a' = a then some b else m.lookup a' := by
  split
  · rename_i h
    subst h
    exact lookup_insert m
  · rename_i h
    exact lookup_insert_of_ne m h

theorem lookup_erase_eq (m : Finmap fun _ : α => β) (a a' : α) :
    (m.erase a).lookup a' = if a' = a then none else m.lookup a' := by
  split
  · rename_i h
    subst h
    exact lookup_erase a' m
  · rename_i h
    exact lookup_erase_ne h

/-- Removing a key that is not there changes nothing. -/
theorem erase_of_lookup_eq_none {m : Finmap fun _ : α => β} {a : α} (h : m.lookup a = none) :
    m.erase a = m := by
  apply ext_lookup
  intro a'
  rw [lookup_erase_eq]
  split
  · rename_i ha
    rw [ha, h]
  · rfl

/-- Removing a key that was just added changes nothing. -/
theorem erase_insert_self {m : Finmap fun _ : α => β} {a : α} {b : β}
    (h : m.lookup a = none) : (m.insert a b).erase a = m := by
  apply ext_lookup
  intro a'
  rw [lookup_erase_eq, lookup_insert_eq]
  split
  · rename_i ha
    rw [ha, h]
  · rfl

variable [DecidableEq β]

/-- The keys that a table maps to `b`. -/
def fiber (m : Finmap fun _ : α => β) (b : β) : Finset α :=
  m.keys.filter fun a => m.lookup a = some b

variable {m : Finmap fun _ : α => β} {a : α} {b c : β}

@[simp] theorem mem_fiber : a ∈ m.fiber b ↔ m.lookup a = some b := by
  unfold fiber
  rw [Finset.mem_filter, mem_keys]
  constructor
  · exact And.right
  · intro h
    exact ⟨mem_of_lookup_eq_some h, h⟩

/-- A new key joins the fiber of its value. -/
theorem fiber_insert (h : m.lookup a = none) (b c : β) :
    (m.insert a b).fiber c = if c = b then Insert.insert a (m.fiber c) else m.fiber c := by
  ext a'
  rw [mem_fiber, lookup_insert_eq]
  rcases eq_or_ne c b with rfl | hc
  · rw [if_pos rfl, Finset.mem_insert, mem_fiber]
    split
    · simp_all
    · simp_all
  · rw [if_neg hc, mem_fiber]
    split
    · rename_i ha
      rw [ha, h]
      simp [hc.symm]
    · rfl

theorem card_fiber_insert (h : m.lookup a = none) (b c : β) :
    ((m.insert a b).fiber c).card = (m.fiber c).card + if c = b then 1 else 0 := by
  rw [fiber_insert h]
  split
  · rw [Finset.card_insert_of_notMem (by simp [h])]
  · rfl

/-- A key that goes leaves the fiber of its value. -/
theorem fiber_erase (m : Finmap fun _ : α => β) (a : α) (c : β) :
    (m.erase a).fiber c = (m.fiber c).erase a := by
  ext a'
  rw [mem_fiber, lookup_erase_eq, Finset.mem_erase, mem_fiber]
  split <;> simp_all

theorem card_fiber_erase (h : m.lookup a = some b) (c : β) :
    ((m.erase a).fiber c).card + (if c = b then 1 else 0) = (m.fiber c).card := by
  rw [fiber_erase]
  split
  · rename_i hcb
    subst hcb
    exact Finset.card_erase_add_one (by simp [h])
  · rename_i hcb
    rw [Finset.erase_eq_of_notMem, add_zero]
    simp only [mem_fiber, h, Option.some.injEq]
    exact fun he => hcb he.symm

/-- A key that is mapped to another value changes from one fiber to the other. -/
theorem card_fiber_replace (h : m.lookup a = some b) (b' c : β) :
    ((m.insert a b').fiber c).card + (if c = b then 1 else 0) =
      (m.fiber c).card + if c = b' then 1 else 0 := by
  have heq : m.insert a b' = (m.erase a).insert a b' := by
    apply ext_lookup
    intro a'
    rw [lookup_insert_eq, lookup_insert_eq, lookup_erase_eq]
    split <;> rfl
  have herase := card_fiber_erase h c
  rw [heq, card_fiber_insert (lookup_erase a m)]
  omega

/-- A value is in the table exactly when its fiber is not empty. -/
theorem card_fiber_pos : 0 < (m.fiber b).card ↔ ∃ a, m.lookup a = some b := by
  rw [Finset.card_pos]
  simp [Finset.Nonempty]

/-! ## Emptying a table while it is walked -/

section Drain

variable {β : Type*} {m : Finmap fun _ : α => β} {order : List α} {a : α} {b : β}

/-- One visit: a key that is gone is not visited, another one removes the key that its value
names. -/
def visit (own : β → α) (m : Finmap fun _ : α => β) (a : α) : Finmap fun _ : α => β :=
  match m.lookup a with
  | none => m
  | some b => m.erase (own b)

/-- Visit keys one after the other. -/
def drain (own : β → α) (m : Finmap fun _ : α => β) (order : List α) : Finmap fun _ : α => β :=
  order.foldl (visit own) m

theorem visit_of_some {own : β → α} (h : m.lookup a = some b) : m.visit own a = m.erase (own b) := by
  unfold visit
  rw [h]

theorem visit_of_none {own : β → α} (h : m.lookup a = none) : m.visit own a = m := by
  unfold visit
  rw [h]

/-- A walk removes at most as many keys as it finds at its beginning. -/
theorem card_le_drain (own : β → α) (m : Finmap fun _ : α => β) (hnodup : order.Nodup) :
    m.keys.card ≤ (m.drain own order).keys.card + (m.keys ∩ order.toFinset).card := by
  induction order generalizing m with
  | nil => simp [drain]
  | cons a order ih =>
      obtain ⟨hnew, hnodup⟩ := List.nodup_cons.mp hnodup
      have hrest := ih (m.visit own a) hnodup
      change m.keys.card ≤ ((m.visit own a).drain own order).keys.card + _
      cases ha : m.lookup a with
      | none =>
          rw [visit_of_none ha] at hrest ⊢
          refine hrest.trans (Nat.add_le_add_left (Finset.card_le_card ?_) _)
          exact Finset.inter_subset_inter_left (by simp)
      | some b =>
          rw [visit_of_some ha, keys_erase] at hrest
          rw [visit_of_some ha]
          have hmem : a ∈ m.keys := mem_keys.mpr (mem_of_lookup_eq_some ha)
          have hcount : (m.keys ∩ (a :: order).toFinset).card =
              (m.keys ∩ order.toFinset).card + 1 := by
            rw [List.toFinset_cons, Finset.inter_insert_of_mem hmem,
              Finset.card_insert_of_notMem (by simp [hnew])]
          have hfewer : (m.keys.erase (own b) ∩ order.toFinset).card ≤
              (m.keys ∩ order.toFinset).card :=
            Finset.card_le_card (Finset.inter_subset_inter_right (Finset.erase_subset _ _))
          have hone := Finset.pred_card_le_card_erase (s := m.keys) (a := own b)
          omega

/-- A walk that starts with a key whose value names another key leaves something. -/
theorem drain_ne_empty {own : β → α} (hnew : a ∉ order) (hnodup : order.Nodup)
    (horder : ∀ k, k ∈ a :: order ↔ k ∈ m) (ha : m.lookup a = some b) (hne : own b ≠ a) :
    (m.erase (own b)).drain own order ≠ ∅ := by
  intro hempty
  have hcount := card_le_drain own (m.erase (own b)) hnodup
  rw [hempty, keys_empty, Finset.card_empty, zero_add, keys_erase] at hcount
  have hmem : a ∈ m.keys.erase (own b) :=
    Finset.mem_erase.mpr ⟨hne.symm, mem_keys.mpr (mem_of_lookup_eq_some ha)⟩
  -- the rest of the walk does not come back to the first key, which is still there
  have hrest : m.keys.erase (own b) ∩ order.toFinset = (m.keys.erase (own b)).erase a := by
    ext k
    rw [Finset.mem_inter, Finset.mem_erase (b := a), List.mem_toFinset, and_comm]
    refine and_congr_left fun hk => ?_
    have hk' := (horder k).mpr (mem_keys.mp (Finset.mem_of_mem_erase hk))
    rw [List.mem_cons] at hk'
    constructor
    · rintro h rfl
      exact hnew h
    · exact fun hka => hk'.resolve_left hka
  rw [hrest] at hcount
  have hless := Finset.card_erase_lt_of_mem hmem
  omega

/-- A walk over all keys empties the table exactly when every value names its key. -/
theorem drain_eq_empty_iff {own : β → α} (hnodup : order.Nodup)
    (horder : ∀ k, k ∈ order ↔ k ∈ m) :
    m.drain own order = ∅ ↔ ∀ a b, m.lookup a = some b → own b = a := by
  induction order generalizing m with
  | nil =>
      have hempty : m = ∅ := by
        apply ext_lookup
        intro k
        rw [lookup_empty, lookup_eq_none, ← horder]
        exact List.not_mem_nil
      subst hempty
      simp [drain]
  | cons a order ih =>
      obtain ⟨hnew, hnodup⟩ := List.nodup_cons.mp hnodup
      obtain ⟨b, hb⟩ := mem_iff.mp ((horder a).mp List.mem_cons_self)
      change (m.visit own a).drain own order = ∅ ↔ _
      rw [visit_of_some hb]
      by_cases hown : own b = a
      · -- the key itself goes, and the other entries stay
        rw [hown, ih hnodup]
        · constructor
          · intro h k c hk
            rcases eq_or_ne k a with rfl | hne
            · rw [hb] at hk
              exact Option.some.inj hk ▸ hown
            · exact h k c (by rw [lookup_erase_ne hne, hk])
          · intro h k c hk
            rw [lookup_erase_eq] at hk
            split at hk
            · simp at hk
            · exact h k c hk
        · intro k
          rw [mem_erase, ← horder, List.mem_cons]
          constructor
          · intro hk
            exact ⟨fun hka => hnew (hka ▸ hk), Or.inr hk⟩
          · rintro ⟨hne, hk⟩
            exact hk.resolve_left hne
      · constructor
        · intro h
          exact absurd h (drain_ne_empty hnew hnodup horder hb hown)
        · intro h
          exact absurd (h a b hb) hown

end Drain

end Finmap
