/-
# Texts joined by a delimiter

Pieces with a delimiter between them, where the delimiter occurs in none of the pieces: the joined
text determines the pieces, and so how many there are (`intercalate_inj`).  Where the number of
pieces is known, the last one may contain the delimiter (`intercalate_concat_inj`).
-/
import Mathlib

namespace Delimiters

variable {α : Type*} {d : α} {xs ys as bs last last' : List α} {pieces pieces' : List (List α)}

/-- The delimiter occurs in none of the pieces. -/
def Free (d : α) (pieces : List (List α)) : Prop := ∀ p ∈ pieces, d ∉ p

theorem free_nil (d : α) : Free d [] := by
  intro p hp
  cases hp

theorem free_cons : Free d (xs :: pieces) ↔ d ∉ xs ∧ Free d pieces := List.forall_mem_cons

theorem intercalate_cons_concat (d : α) (xs last : List α) (pieces : List (List α)) :
    [d].intercalate (xs :: (pieces ++ [last])) =
      xs ++ d :: [d].intercalate (pieces ++ [last]) := by
  rw [List.intercalate_cons_of_ne_nil (by simp), List.append_assoc, List.singleton_append]

variable [DecidableEq α]

/-- What stands before the first delimiter can be read back, and what stands behind it. -/
theorem append_cons_inj (hx : d ∉ xs) (hy : d ∉ ys) :
    xs ++ d :: as = ys ++ d :: bs ↔ xs = ys ∧ as = bs := by
  constructor
  · intro h
    have hsplit := congrArg (List.splitOn d) h
    rw [List.splitOn_append_cons_self_of_not_mem hx,
      List.splitOn_append_cons_self_of_not_mem hy] at hsplit
    obtain ⟨hhead, htail⟩ := List.cons.inj hsplit
    refine ⟨hhead, ?_⟩
    have has : [d].intercalate (as.splitOn d) = as := List.intercalate_splitOn d
    rw [← has, htail, List.intercalate_splitOn]
  · rintro ⟨rfl, rfl⟩
    rfl

/-- The joined text determines the pieces. -/
theorem intercalate_inj (hfree : Free d pieces) (hfree' : Free d pieces') (hne : pieces ≠ [])
    (hne' : pieces' ≠ []) :
    [d].intercalate pieces = [d].intercalate pieces' ↔ pieces = pieces' := by
  constructor
  · intro h
    have hsplit := congrArg (List.splitOn d) h
    rwa [List.splitOn_intercalate d hfree hne, List.splitOn_intercalate d hfree' hne'] at hsplit
  · rintro rfl
    rfl

/-- As many pieces on both sides: the last piece may contain the delimiter. -/
theorem intercalate_concat_inj (hfree : Free d pieces) (hfree' : Free d pieces')
    (hcount : pieces.length = pieces'.length) :
    [d].intercalate (pieces ++ [last]) = [d].intercalate (pieces' ++ [last']) ↔
      pieces = pieces' ∧ last = last' := by
  induction pieces generalizing pieces' with
  | nil =>
      obtain rfl := List.length_eq_zero_iff.mp hcount.symm
      simp
  | cons xs pieces ih =>
      cases pieces' with
      | nil => cases hcount
      | cons ys pieces' =>
          obtain ⟨hxs, hpieces⟩ := free_cons.mp hfree
          obtain ⟨hys, hpieces'⟩ := free_cons.mp hfree'
          rw [List.cons_append, List.cons_append, intercalate_cons_concat,
            intercalate_cons_concat, append_cons_inj hxs hys,
            ih hpieces hpieces' (Nat.succ.inj hcount), List.cons.injEq, and_assoc]

end Delimiters
