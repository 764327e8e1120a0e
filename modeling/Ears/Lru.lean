/-
# A cache of the recently used keys (`github.com/hashicorp/golang-lru`)

A cache of a fixed size forgets the key that was used the longest time ago when a new key does
not fit.  `Get` uses a key that is there, `Add` uses a key in any case.

The cache is a parameter, `Lru`, and `Lru.Lawful` says what is used of it.  `Lru.recent` is such
a cache.

`Since` relates the keys of a cache to those used since a key was: while the key is in the cache,
the keys in front of it were all used since.  So a key is only forgotten when as many other keys
were used since as the cache has places (`Since.touch`).
-/
import Mathlib

/-- The operations of `lru.Cache`. -/
structure Lru (κ π C : Type) where
  new : ℕ → C
  get : C → κ → Option π × C
  add : C → κ → π → C

namespace Lru

/-- The keys of entries. -/
def keys {κ π : Type} (entries : List (κ × π)) : List κ := entries.map Prod.fst

section Since

variable {κ : Type} {keys : List κ} {k : κ} {used : List κ}

/-- The key is there, and the keys in front of it are among those used since it was. -/
def Since (keys : List κ) (k : κ) (used : List κ) : Prop :=
  ∃ front back, keys = front ++ k :: back ∧ ∀ i ∈ front, i ∈ used

theorem Since.mem (h : Since keys k used) : k ∈ keys := by
  obtain ⟨front, back, heq, -⟩ := h
  rw [heq]
  exact List.mem_append_right _ List.mem_cons_self

/-- More keys were used. -/
theorem Since.mono {used' : List κ} (h : Since keys k used) (hsub : ∀ i ∈ used, i ∈ used') :
    Since keys k used' := by
  obtain ⟨front, back, heq, hfront⟩ := h
  exact ⟨front, back, heq, fun i hi => hsub i (hfront i hi)⟩

end Since

variable {κ π C : Type} [DecidableEq κ]

/-- What the library documents.  A cache has a size and entries, here the one used last first. -/
structure Lawful (lru : Lru κ π C) (size : C → ℕ) (entries : C → List (κ × π)) : Prop where
  nodup : ∀ c, (keys (entries c)).Nodup
  length_le : ∀ c, (entries c).length ≤ size c
  size_new : ∀ n, size (lru.new n) = n
  entries_new : ∀ n, entries (lru.new n) = []
  get_eq : ∀ c k, (lru.get c k).1 = ((entries c).find? fun e => e.1 = k).map Prod.snd
  size_get : ∀ c k, size (lru.get c k).2 = size c
  entries_get_some : ∀ c k v, (lru.get c k).1 = some v →
    entries (lru.get c k).2 = (k, v) :: (entries c).filter fun e => e.1 ≠ k
  entries_get_none : ∀ c k, (lru.get c k).1 = none → entries (lru.get c k).2 = entries c
  size_add : ∀ c k v, size (lru.add c k v) = size c
  entries_add : ∀ c k v,
    entries (lru.add c k v) = ((k, v) :: (entries c).filter fun e => e.1 ≠ k).take (size c)

/-- The keys after one was used: it goes to the front, and the last one is forgotten when there is
one too many. -/
def touch (size : ℕ) (ks : List κ) (k : κ) : List κ := (k :: ks.erase k).take size

/-! ## The keys of a lawful cache -/

/-- The entries of the other keys. -/
theorem keys_filter_ne {entries : List (κ × π)} (hnodup : (keys entries).Nodup) (k : κ) :
    keys (entries.filter fun e => e.1 ≠ k) = (keys entries).erase k := by
  rw [hnodup.erase_eq_filter, keys, keys, List.filter_map]
  congr 2
  funext e
  simp [bne, Bool.beq_eq_decide_eq]

section Lawful

variable {lru : Lru κ π C} {size : C → ℕ} {entries : C → List (κ × π)}

/-- A key is found when it is there. -/
theorem Lawful.get_eq_none_iff (h : lru.Lawful size entries) (c : C) (k : κ) :
    (lru.get c k).1 = none ↔ k ∉ keys (entries c) := by
  rw [h.get_eq, Option.map_eq_none_iff, List.find?_eq_none, keys, List.mem_map]
  constructor
  · rintro hall ⟨e, he, hkey⟩
    exact hall e he (decide_eq_true hkey)
  · intro hnot e he hkey
    exact hnot ⟨e, he, of_decide_eq_true hkey⟩

/-- What is found is the value of an entry. -/
theorem Lawful.mem_of_get (h : lru.Lawful size entries) {c : C} {k : κ} {v : π}
    (hget : (lru.get c k).1 = some v) : (k, v) ∈ entries c := by
  rw [h.get_eq, Option.map_eq_some_iff] at hget
  obtain ⟨⟨k', v'⟩, hfind, rfl⟩ := hget
  obtain rfl : k' = k := by simpa using List.find?_some hfind
  exact List.mem_of_find?_eq_some hfind

/-- `Get` uses a key that is there. -/
theorem Lawful.keys_get (h : lru.Lawful size entries) {c : C} {k : κ}
    (hmem : k ∈ keys (entries c)) :
    keys (entries (lru.get c k).2) = touch (size c) (keys (entries c)) k := by
  obtain ⟨v, hv⟩ : ∃ v, (lru.get c k).1 = some v := by
    rw [← Option.ne_none_iff_exists']
    exact fun hnone => (h.get_eq_none_iff c k).mp hnone hmem
  have hlength : (k :: (keys (entries c)).erase k).length ≤ size c := by
    have hpos := List.length_pos_of_mem hmem
    have hle := h.length_le c
    rw [List.length_cons, List.length_erase_of_mem hmem]
    simp only [keys, List.length_map] at hpos ⊢
    omega
  rw [h.entries_get_some c k v hv, touch, List.take_of_length_le hlength,
    ← keys_filter_ne (h.nodup c)]
  rfl

/-- `Add` uses a key. -/
theorem Lawful.keys_add (h : lru.Lawful size entries) (c : C) (k : κ) (v : π) :
    keys (entries (lru.add c k v)) = touch (size c) (keys (entries c)) k := by
  rw [h.entries_add, touch, ← keys_filter_ne (h.nodup c), keys, List.map_take]
  rfl

/-- Entries of the cache after `Get` were there before. -/
theorem Lawful.mem_of_mem_get (h : lru.Lawful size entries) {c : C} {k : κ} {e : κ × π}
    (he : e ∈ entries (lru.get c k).2) : e ∈ entries c := by
  cases hget : (lru.get c k).1 with
  | none => rwa [h.entries_get_none c k hget] at he
  | some v =>
      rw [h.entries_get_some c k v hget] at he
      rcases List.mem_cons.mp he with rfl | he
      · exact h.mem_of_get hget
      · exact List.mem_of_mem_filter he

/-- Entries of the cache after `Add` are the new one or were there before. -/
theorem Lawful.mem_of_mem_add (h : lru.Lawful size entries) {c : C} {k : κ} {v : π}
    {e : κ × π} (he : e ∈ entries (lru.add c k v)) : e = (k, v) ∨ e ∈ entries c := by
  rw [h.entries_add] at he
  rcases List.mem_cons.mp (List.mem_of_mem_take he) with rfl | he
  · exact Or.inl rfl
  · exact Or.inr (List.mem_of_mem_filter he)

end Lawful

/-! ## What is forgotten -/

variable {ks : List κ} {k j : κ} {used : List κ} {n : ℕ}

/-- The other keys among some that were used. -/
def others (used : List κ) (k : κ) : Finset κ := used.toFinset.erase k

/-- A key that was just used is in front. -/
theorem since_touch_self (hn : 0 < n) : Since (touch n ks k) k used := by
  obtain ⟨m, hm⟩ := Nat.exists_eq_add_of_lt hn
  refine ⟨[], (ks.erase k).take m, ?_, by simp⟩
  rw [touch, hm, Nat.zero_add, List.take_succ_cons, List.nil_append]

/-- Different keys other than `k` that were all used. -/
theorem length_le_card_others {front : List κ} (hnodup : front.Nodup) (hk : k ∉ front)
    (hused : ∀ i ∈ front, i ∈ used) : front.length ≤ (others used k).card := by
  rw [← List.toFinset_card_of_nodup hnodup]
  apply Finset.card_le_card
  intro i hi
  have hi' := List.mem_toFinset.mp hi
  refine Finset.mem_erase.mpr ⟨?_, List.mem_toFinset.mpr (hused i hi')⟩
  rintro rfl
  exact hk hi'

/-- Another key is used: `k` is still in the cache, or as many other keys were used since as the
cache has places. -/
theorem Since.touch (h : Since ks k used) (hks : ks.Nodup) (hne : j ≠ k) :
    Since (touch n ks j) k (j :: used) ∨ n ≤ (others (j :: used) k).card := by
  obtain ⟨front, back, heq, hfront⟩ := h
  -- the keys in front of `k` with `j` at their head
  obtain ⟨front', back', herase, hfront'⟩ : ∃ front' back',
      ks.erase j = front' ++ k :: back' ∧ ∀ i ∈ front', i ∈ front := by
    rw [heq]
    by_cases hj : j ∈ front
    · exact ⟨front.erase j, back, List.erase_append_left _ hj, fun i hi => List.mem_of_mem_erase hi⟩
    · refine ⟨front, back.erase j, ?_, fun i hi => hi⟩
      rw [List.erase_append_right _ hj, List.erase_cons_tail (by simpa using hne.symm)]
  have hused : ∀ i ∈ j :: front', i ∈ j :: used := by
    intro i hi
    rcases List.mem_cons.mp hi with rfl | hi
    · exact List.mem_cons_self
    · exact List.mem_cons_of_mem _ (hfront i (hfront' i hi))
  have hnodup : (j :: front' ++ k :: back').Nodup := by
    rw [List.cons_append, ← herase]
    exact List.nodup_cons.mpr ⟨hks.not_mem_erase, hks.erase j⟩
  by_cases hfits : (j :: front').length < n
  · -- `k` is not the one too many
    left
    obtain ⟨m, hm⟩ : ∃ m, n = (j :: front').length + (m + 1) :=
      ⟨n - (j :: front').length - 1, by omega⟩
    refine ⟨j :: front', back'.take m, ?_, hused⟩
    rw [Lru.touch, herase, ← List.cons_append, hm, List.take_length_add_append,
      List.take_succ_cons]
  · right
    have hk : k ∉ j :: front' := fun hmem =>
      (List.disjoint_of_nodup_append hnodup) hmem List.mem_cons_self
    exact (not_lt.mp hfits).trans
      (length_le_card_others (List.nodup_append.mp hnodup).1 hk hused)

/-! ## A lawful cache -/

/-- The entries of a cache, the one used last first. -/
structure Recent (κ π : Type) where
  size : ℕ
  entries : List (κ × π)
  nodup : (keys entries).Nodup
  length_le : entries.length ≤ size

/-- A key in front of the entries of the others. -/
theorem nodup_cons_filter {entries : List (κ × π)} (hnodup : (keys entries).Nodup) (k : κ)
    (v : π) : (keys ((k, v) :: entries.filter fun e => e.1 ≠ k)).Nodup := by
  refine List.nodup_cons.mpr ⟨?_, ?_⟩
  · simp
  · rw [← keys, keys_filter_ne hnodup]
    exact hnodup.erase k

/-- The entry that is found takes the place of one that is left out. -/
theorem length_filter_lt {entries : List (κ × π)} {k : κ} {e : κ × π}
    (hfind : entries.find? (fun e => e.1 = k) = some e) :
    (entries.filter fun e => e.1 ≠ k).length < entries.length := by
  refine List.length_filter_lt_length_iff_exists.mpr ⟨e, List.mem_of_find?_eq_some hfind, ?_⟩
  simpa using List.find?_some hfind

/-- The cache that keeps a list of its entries. -/
def recent : Lru κ π (Recent κ π) where
  new n := ⟨n, [], List.nodup_nil, Nat.zero_le n⟩
  get c k :=
    match hfind : c.entries.find? fun e => e.1 = k with
    | none => (none, c)
    | some e =>
        (some e.2,
          { size := c.size
            entries := (k, e.2) :: c.entries.filter fun e => e.1 ≠ k
            nodup := nodup_cons_filter c.nodup k e.2
            length_le := (length_filter_lt hfind).trans_le c.length_le })
  add c k v :=
    { size := c.size
      entries := ((k, v) :: c.entries.filter fun e => e.1 ≠ k).take c.size
      nodup := (nodup_cons_filter c.nodup k v).sublist ((List.take_sublist _ _).map _)
      length_le := List.length_take_le _ _ }

theorem recent_lawful :
    (recent : Lru κ π (Recent κ π)).Lawful Recent.size Recent.entries where
  nodup c := c.nodup
  length_le c := c.length_le
  size_new _ := rfl
  entries_new _ := rfl
  get_eq c k := by
    unfold recent
    dsimp only
    split <;> simp [*]
  size_get c k := by
    unfold recent
    dsimp only
    split <;> rfl
  entries_get_some c k v h := by
    unfold recent at h ⊢
    dsimp only at h ⊢
    split at h
    · cases h
    · cases h
      simp [*]
  entries_get_none c k h := by
    unfold recent at h ⊢
    dsimp only at h ⊢
    split at h
    · simp [*]
    · cases h
  size_add _ _ _ := rfl
  entries_add _ _ _ := rfl

end Lru
