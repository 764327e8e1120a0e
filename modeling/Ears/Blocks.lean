/-
# Texts followed by blocks

A text with blocks of one length after it, and nothing between them.  The end of the text
cannot be seen: two such texts are equal exactly when one of them goes on where the other
has its first blocks already (`append_flatten_eq_iff`).

Lists of texts are compared element by element.
-/
import Mathlib

namespace Blocks

variable {α : Type*} {n k : ℕ} {x y : List α} {xs ys : List (List α)}

/-- All blocks have length `n`. -/
def Uniform (n : ℕ) (xs : List (List α)) : Prop := ∀ b ∈ xs, b.length = n

theorem Uniform.drop (h : Uniform n xs) (k : ℕ) : Uniform n (xs.drop k) :=
  fun b hb => h b (List.mem_of_mem_drop hb)

theorem Uniform.map_length (h : Uniform n xs) :
    xs.map List.length = List.replicate xs.length n := by
  rw [List.eq_replicate_iff, List.length_map]
  refine ⟨rfl, ?_⟩
  intro m hm
  obtain ⟨b, hb, rfl⟩ := List.mem_map.mp hm
  exact h b hb

/-- As many blocks on both sides: the texts and the blocks can be read back. -/
theorem append_flatten_inj (hx : Uniform n xs) (hy : Uniform n ys)
    (hcount : xs.length = ys.length) (h : x ++ xs.flatten = y ++ ys.flatten) :
    x = y ∧ xs = ys := by
  have hlengths : xs.map List.length = ys.map List.length := by
    rw [hx.map_length, hy.map_length, hcount]
  have hflat : xs.flatten.length = ys.flatten.length := by
    rw [List.length_flatten, List.length_flatten, hlengths]
  obtain ⟨htext, hblocks⟩ := List.append_inj' h hflat
  exact ⟨htext, List.eq_iff_flatten_eq.mpr ⟨hblocks, hlengths⟩⟩

/-- `k` blocks more on the left: they are the end of the text on the right. -/
theorem append_flatten_eq_of_count (hx : Uniform n xs) (hy : Uniform n ys)
    (hcount : xs.length = k + ys.length) (h : x ++ xs.flatten = y ++ ys.flatten) :
    y = x ++ (xs.take k).flatten ∧ ys = xs.drop k := by
  rw [← List.take_append_drop k xs, List.flatten_append, ← List.append_assoc] at h
  have hdrop : (xs.drop k).length = ys.length := by
    rw [List.length_drop]
    omega
  obtain ⟨htext, hblocks⟩ := append_flatten_inj (hx.drop k) hy hdrop h
  exact ⟨htext.symm, hblocks.symm⟩

theorem append_flatten_eq_of_take (htext : y = x ++ (xs.take k).flatten) (hblocks : ys = xs.drop k) :
    x ++ xs.flatten = y ++ ys.flatten := by
  rw [htext, hblocks, List.append_assoc, ← List.flatten_append, List.take_append_drop]

/-- **Texts followed by blocks are equal** exactly when one of the texts is the other
with some of its blocks. -/
theorem append_flatten_eq_iff (hx : Uniform n xs) (hy : Uniform n ys) :
    x ++ xs.flatten = y ++ ys.flatten ↔
      (∃ k, y = x ++ (xs.take k).flatten ∧ ys = xs.drop k) ∨
        ∃ k, x = y ++ (ys.take k).flatten ∧ xs = ys.drop k := by
  constructor
  · intro h
    rcases le_total ys.length xs.length with hle | hle
    · left
      exact ⟨xs.length - ys.length, append_flatten_eq_of_count hx hy (by omega) h⟩
    · right
      exact ⟨ys.length - xs.length, append_flatten_eq_of_count hy hx (by omega) h.symm⟩
  · rintro (⟨k, htext, hblocks⟩ | ⟨k, htext, hblocks⟩)
    · exact append_flatten_eq_of_take htext hblocks
    · exact (append_flatten_eq_of_take htext hblocks).symm

/-! ## Lists element by element -/

variable {β : Type*} {as bs : List α}

theorem map_eq_map_iff {f g : α → β} :
    as.map f = bs.map g ↔ List.Forall₂ (fun a b => f a = g b) as bs := by
  rw [← List.forall₂_eq_eq_eq, List.forall₂_map_left_iff, List.forall₂_map_right_iff]

theorem forall₂_congr {R T : α → α → Prop} (h : ∀ a ∈ as, ∀ b ∈ bs, (R a b ↔ T a b)) :
    List.Forall₂ R as bs ↔ List.Forall₂ T as bs := by
  rw [List.forall₂_iff_zip, List.forall₂_iff_zip]
  apply and_congr_right
  intro _
  constructor
  · intro hR a b hab
    obtain ⟨ha, hb⟩ := List.of_mem_zip hab
    exact (h a ha b hb).mp (hR hab)
  · intro hT a b hab
    obtain ⟨ha, hb⟩ := List.of_mem_zip hab
    exact (h a ha b hb).mpr (hT hab)

end Blocks
