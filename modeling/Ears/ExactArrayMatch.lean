/-
# `exactArrayMatch` and one-to-one matching

With `exactArrayMatch` the matchers compare the lengths of two arrays and then look for each
element of the pattern by itself.  `ExactMatch` asks for more: the elements are paired off,
each element of the payload with one element of the pattern.

What goes wrong is that one element of the payload serves for two elements of the pattern:
`[1, 1]` is found in `[1, 2]` (`shared_element_not_exact`).  So a pattern is safe if and only if no
array in it has two elements that one value matches (`Apart`), and with another pattern a payload
is matched exactly if and only if no two or more elements have to share (`Uncrowded`).  Both are
in `exact_array_match_iff`.
-/
import Ears.PatternMatch
import Ears.JsonTrees

open GoLib

/-! ## Pairing off two lists -/

/-- Two lists of one length can be paired off when every group of elements of the second has at
least as many partners in the first. -/
theorem List.exists_pairing_iff {α β : Type} {R : α → β → Prop} {as : List α} {bs : List β}
    (hlen : as.length = bs.length) :
    (∃ σ : Fin bs.length ≃ Fin as.length, ∀ j, R (as.get (σ j)) (bs.get j)) ↔
      ∀ S : Finset (Fin bs.length), ∃ T : Finset (Fin as.length), S.card ≤ T.card ∧
        ∀ i ∈ T, ∃ j ∈ S, R (as.get i) (bs.get j) := by
  classical
  have hall := Fintype.all_card_le_filter_rel_iff_exists_injective
    fun (j : Fin bs.length) (i : Fin as.length) => R (as.get i) (bs.get j)
  constructor
  · rintro ⟨σ, hσ⟩ S
    refine ⟨S.map σ.toEmbedding, (S.card_map _).ge, fun i hi => ?_⟩
    obtain ⟨j, hj, rfl⟩ := Finset.mem_map.mp hi
    exact ⟨j, hj, hσ j⟩
  · intro hroom
    obtain ⟨f, hf, hR⟩ := hall.mp fun S => by
      obtain ⟨T, hcard, hT⟩ := hroom S
      refine hcard.trans (Finset.card_le_card fun i hi => ?_)
      simpa using hT i hi
    -- an injection between sets of one size is a bijection
    have hbij := (Fintype.bijective_iff_injective_and_card f).mpr ⟨hf, by simp [hlen]⟩
    exact ⟨Equiv.ofBijective f hbij, hR⟩

/-- Sets of one size that agree off one place agree there. -/
theorem Finset.mem_iff_of_card_eq {α : Type} [DecidableEq α] {A B : Finset α} {x : α}
    (hcard : A.card = B.card) (hother : ∀ i, i ≠ x → (i ∈ A ↔ i ∈ B)) : x ∈ A ↔ x ∈ B := by
  have herase : A.erase x = B.erase x := by
    ext i
    simp only [Finset.mem_erase]
    exact and_congr_right (hother i)
  have hcards := congrArg Finset.card herase
  by_cases hA : x ∈ A
  · by_cases hB : x ∈ B
    · exact iff_of_true hA hB
    · rw [Finset.erase_eq_of_notMem hB, ← hcard] at hcards
      exact absurd (Finset.card_erase_lt_of_mem hA) hcards.not_lt
  · by_cases hB : x ∈ B
    · rw [Finset.erase_eq_of_notMem hA, hcard] at hcards
      exact absurd (Finset.card_erase_lt_of_mem hB) hcards.not_gt
    · exact iff_of_false hA hB

namespace Match

/-! ## Matching exactly -/

mutual

/-- The pattern matches the value exactly: as `Covers`, with the elements of arrays paired off. -/
def ExactMatch (text : Json → String → Prop) : Json → Json → Prop
  | a, .null => a = .null
  | a, .bool b => a = .bool b
  | a, .num t => ∃ s, a = .num s ∧ sameNumber s t = true
  | a, .str s => a ≠ .null ∧ text a s
  | a, .arr bs =>
      ∃ as, a = .arr as ∧ ∃ σ : Fin bs.length ≃ Fin as.length,
        ExactElems text (List.ofFn fun j => as.get (σ j)) bs
  | a, .obj fields => ∃ fs, a = .obj fs ∧ ExactFields text fs fields

/-- The elements match one by one. -/
def ExactElems (text : Json → String → Prop) : List Json → List Json → Prop
  | as, [] => as = []
  | as, vb :: bs => ∃ va as', as = va :: as' ∧ ExactMatch text va vb ∧ ExactElems text as' bs

/-- Every field of the pattern matches the field with its key. -/
def ExactFields (text : Json → String → Prop) (fs : List (String × Json)) :
    List (String × Json) → Prop
  | [] => True
  | (k, vb) :: fields => ExactMatch text (Json.get fs k) vb ∧ ExactFields text fs fields

end

theorem sizeOf_elem_lt {b : Json} {bs : List Json} (hb : b ∈ bs) :
    sizeOf b < sizeOf (Json.arr bs) := by
  have hlt := List.sizeOf_lt_of_mem hb
  simp only [Json.arr.sizeOf_spec]
  omega

theorem sizeOf_field_lt {f : String × Json} {fields : List (String × Json)} (hf : f ∈ fields) :
    sizeOf f.2 < sizeOf (Json.obj fields) := by
  have hlt := List.sizeOf_lt_of_mem hf
  obtain ⟨k, b⟩ := f
  simp only [Json.obj.sizeOf_spec, Prod.mk.sizeOf_spec] at hlt ⊢
  omega

/-- Nothing has to share: where an array of the pattern meets one of the payload, an element that
is found is found at an element where nothing below has to share, and two or more elements are
found so at as many elements. -/
def Uncrowded (text : Json → String → Prop) : Json → Json → Prop
  | .arr as, .arr bs =>
      (∀ j : Fin bs.length, (∃ i : Fin as.length, Covers text True (as.get i) (bs.get j)) →
        ∃ i : Fin as.length, Covers text True (as.get i) (bs.get j) ∧
          Uncrowded text (as.get i) (bs.get j)) ∧
      ∀ S : Finset (Fin bs.length), 2 ≤ S.card →
        ∃ T : Finset (Fin as.length), S.card ≤ T.card ∧ ∀ i ∈ T, ∃ j ∈ S,
          Covers text True (as.get i) (bs.get j) ∧ Uncrowded text (as.get i) (bs.get j)
  | .obj fs, .obj fields => ∀ f (_ : f ∈ fields), Uncrowded text (Json.get fs f.1) f.2
  | _, _ => True
termination_by _ b => b
decreasing_by
  all_goals first
    | exact sizeOf_elem_lt (List.get_mem _ _)
    | exact sizeOf_field_lt ‹_›

/-- One value matches both. -/
def Meet (text : Json → String → Prop) (b b' : Json) : Prop :=
  ∃ v : Json, v.KeysOnce ∧ Covers text True v b ∧ Covers text True v b'

/-- No array of the pattern has two elements that one value matches. -/
def Apart (text : Json → String → Prop) : Json → Prop
  | .arr bs => bs.Pairwise (fun b b' => ¬ Meet text b b') ∧ ∀ b (_ : b ∈ bs), Apart text b
  | .obj fields => ∀ f (_ : f ∈ fields), Apart text f.2
  | _ => True
termination_by b => b
decreasing_by
  · exact sizeOf_elem_lt ‹_›
  · exact sizeOf_field_lt ‹_›

section Iff

variable {text : Json → String → Prop} {P : Prop} {a b : Json} {as bs : List Json}
  {fs fields : List (String × Json)}

theorem exactElems_iff : ExactElems text as bs ↔ List.Forall₂ (ExactMatch text) as bs := by
  induction bs generalizing as with
  | nil => cases as <;> simp [ExactElems]
  | cons vb bs ih => cases as <;> simp [ExactElems, ih]

theorem exactFields_iff :
    ExactFields text fs fields ↔ ∀ f ∈ fields, ExactMatch text (Json.get fs f.1) f.2 := by
  induction fields with
  | nil => simp [ExactFields]
  | cons f fields ih =>
      obtain ⟨k, vb⟩ := f
      simp [ExactFields, ih]

/-- Two arrays match exactly when some bijection pairs elements that do. -/
theorem exactMatch_arr : ExactMatch text (.arr as) (.arr bs) ↔
    ∃ σ : Fin bs.length ≃ Fin as.length, ∀ j, ExactMatch text (as.get (σ j)) (bs.get j) := by
  rw [ExactMatch]
  simp only [Json.arr.injEq, exists_eq_left']
  refine exists_congr fun σ => ?_
  rw [exactElems_iff, List.forall₂_iff_get]
  constructor
  · rintro ⟨-, hall⟩ j
    simpa using hall j (by simp) j.isLt
  · intro hall
    refine ⟨by simp, fun j _ hj => ?_⟩
    simpa using hall ⟨j, hj⟩

/-- A pattern matches exactly what contains it where nothing has to share. -/
theorem exactMatch_iff : ExactMatch text a b ↔ Covers text True a b ∧ Uncrowded text a b := by
  induction b using Json.tree_induction generalizing a with
  | arr bs ih =>
      have hpair : ∀ (as : List Json) (i : Fin as.length) (j : Fin bs.length),
          ExactMatch text (as.get i) (bs.get j) ↔
            Covers text True (as.get i) (bs.get j) ∧ Uncrowded text (as.get i) (bs.get j) :=
        fun as i j => ih _ (List.get_mem _ _)
      constructor
      · intro hexact
        obtain ⟨as, rfl, -⟩ := (by rwa [ExactMatch] at hexact : ∃ as, a = .arr as ∧ _)
        have hpairing := exactMatch_arr.mp hexact
        obtain ⟨σ, hσ⟩ := hpairing
        have hlen : as.length = bs.length := by simpa using (Fintype.card_congr σ).symm
        rw [Covers, Uncrowded]
        refine ⟨⟨as, rfl, fun _ => hlen, coversElems_iff.mpr fun vb hvb => ?_⟩,
          fun j _ => ⟨σ j, (hpair as _ j).mp (hσ j)⟩, fun S _ => ?_⟩
        · obtain ⟨j, rfl⟩ := List.get_of_mem hvb
          exact ⟨_, List.get_mem _ _, ((hpair as _ j).mp (hσ j)).1⟩
        · simpa only [hpair] using (List.exists_pairing_iff hlen).mp ⟨σ, hσ⟩ S
      · rintro ⟨hcovers, hroom⟩
        rw [Covers] at hcovers
        obtain ⟨as, rfl, hlen, hfound⟩ := hcovers
        rw [Uncrowded] at hroom
        rw [exactMatch_arr, List.exists_pairing_iff (hlen trivial)]
        simp only [hpair]
        intro S
        by_cases htwo : 2 ≤ S.card
        · exact hroom.2 S htwo
        · rcases S.eq_empty_or_nonempty with rfl | ⟨j, hj⟩
          · exact ⟨∅, le_rfl, by simp⟩
          · -- a single element is found by itself
            obtain ⟨va, hva, hab⟩ := coversElems_iff.mp hfound (bs.get j) (List.get_mem _ _)
            obtain ⟨i, rfl⟩ := List.get_of_mem hva
            obtain ⟨i', hi'⟩ := hroom.1 j ⟨i, hab⟩
            refine ⟨{i'}, by rw [Finset.card_singleton]; omega, ?_⟩
            exact fun i hi => ⟨j, hj, by rwa [Finset.mem_singleton.mp hi]⟩
  | obj fields ih =>
      rw [ExactMatch, Covers]
      constructor
      · rintro ⟨fs, rfl, hfields⟩
        have hall : ∀ f ∈ fields, _ := fun f hf => (ih f hf).mp (exactFields_iff.mp hfields f hf)
        rw [Uncrowded]
        exact ⟨⟨fs, rfl, coversFields_iff.mpr fun f hf => (hall f hf).1⟩,
          fun f hf => (hall f hf).2⟩
      · rintro ⟨⟨fs, rfl, hfields⟩, hroom⟩
        rw [Uncrowded] at hroom
        exact ⟨fs, rfl, exactFields_iff.mpr fun f hf =>
          (ih f hf).mpr ⟨coversFields_iff.mp hfields f hf, hroom f hf⟩⟩
  | _ =>
      rw [ExactMatch, Covers]
      exact (and_iff_left (by cases a <;> simp [Uncrowded])).symm

/-! ### Patterns that are safe -/

/-- Null matches null only. -/
theorem Covers.eq_null_iff (hab : Covers text P a b) : a = .null ↔ b = .null := by
  constructor
  · exact not_imp_not.mp hab.ne_null
  · rintro rfl
    rwa [Covers] at hab

/-- What is found in an array made of one value for each element of the pattern. -/
theorem covers_ofFn {f : Fin bs.length → Json}
    (hfound : ∀ j, ∃ i, Covers text True (f i) (bs.get j)) :
    Covers text True (.arr (List.ofFn f)) (.arr bs) := by
  rw [Covers]
  refine ⟨_, rfl, fun _ => List.length_ofFn, coversElems_iff.mpr fun vb hvb => ?_⟩
  obtain ⟨j, rfl⟩ := List.get_of_mem hvb
  obtain ⟨i, hi⟩ := hfound j
  exact ⟨f i, (List.mem_ofFn' f _).mpr ⟨i, rfl⟩, hi⟩

theorem exactMatch_ofFn {f : Fin bs.length → Json}
    (hexact : ExactMatch text (.arr (List.ofFn f)) (.arr bs)) :
    ∃ σ : Equiv.Perm (Fin bs.length), ∀ j, ExactMatch text (f (σ j)) (bs.get j) := by
  obtain ⟨σ, hσ⟩ := exactMatch_arr.mp hexact
  refine ⟨σ.trans (finCongr List.length_ofFn), fun j => ?_⟩
  have hpair := hσ j
  rwa [List.get_ofFn] at hpair

theorem keysOnce_ofFn {n : ℕ} {f : Fin n → Json} (hf : ∀ i, (f i).KeysOnce) :
    (Json.arr (List.ofFn f)).KeysOnce := by
  refine Json.keysOnceElems_iff.mpr fun j hj => ?_
  obtain ⟨i, rfl⟩ := (List.mem_ofFn' f j).mp hj
  exact hf i

/-- What a pattern without elements that meet contains is matched exactly. -/
theorem exactMatch_of_apart (hb : Apart text b) (ha : a.KeysOnce) (hab : Covers text True a b) :
    ExactMatch text a b := by
  induction b using Json.tree_induction generalizing a with
  | arr bs ih =>
      rw [Apart] at hb
      obtain ⟨hpairwise, hbelow⟩ := hb
      rw [Covers] at hab
      obtain ⟨as, rfl, hlen, hfound⟩ := hab
      have honce := Json.keysOnceElems_iff.mp ha
      -- each element of the pattern is found somewhere
      have hpartner : ∀ j : Fin bs.length, ∃ i : Fin as.length,
          Covers text True (as.get i) (bs.get j) := by
        intro j
        obtain ⟨va, hva, hab⟩ := coversElems_iff.mp hfound (bs.get j) (List.get_mem _ _)
        obtain ⟨i, rfl⟩ := List.get_of_mem hva
        exact ⟨i, hab⟩
      choose f hf using hpartner
      -- and no two of them at one place
      have hmeet : ∀ j j' : Fin bs.length, j < j' → f j ≠ f j' := by
        intro j j' hlt heq
        refine List.pairwise_iff_get.mp hpairwise j j' hlt
          ⟨as.get (f j), honce _ (List.get_mem _ _), hf j, ?_⟩
        rw [heq]
        exact hf j'
      have hinj : Function.Injective f := by
        intro j j' heq
        rcases lt_trichotomy j j' with hlt | rfl | hlt
        · exact absurd heq (hmeet j j' hlt)
        · rfl
        · exact absurd heq.symm (hmeet j' j hlt)
      have hbij := (Fintype.bijective_iff_injective_and_card f).mpr
        ⟨hinj, by simp [hlen trivial]⟩
      refine exactMatch_arr.mpr ⟨Equiv.ofBijective f hbij, fun j => ?_⟩
      exact ih _ (List.get_mem _ _) (hbelow _ (List.get_mem _ _)) (honce _ (List.get_mem _ _)) (hf j)
  | obj fields ih =>
      rw [Apart] at hb
      rw [Covers] at hab
      obtain ⟨fs, rfl, hfields⟩ := hab
      rw [ExactMatch]
      refine ⟨fs, rfl, exactFields_iff.mpr fun f hf => ?_⟩
      exact ih f hf (hb f hf) (ha.get f.1) (coversFields_iff.mp hfields f hf)
  | _ => exact exactMatch_iff.mpr ⟨hab, by cases a <;> simp [Uncrowded]⟩

/-- If a value that matches two elements can serve for both, the array does not match exactly: the
element left over is null where the pattern has none, or is none where the pattern has it. -/
theorem not_meet_of_exact {s : Fin bs.length → Json} (hs : ∀ j, (s j).KeysOnce)
    (hcovers : ∀ j, Covers text True (s j) (bs.get j))
    (hone : ∀ a : Json, a.KeysOnce → Covers text True a (.arr bs) → ExactMatch text a (.arr bs))
    {j j' : Fin bs.length} (hne : j ≠ j') : ¬ Meet text (bs.get j) (bs.get j') := by
  classical
  rintro ⟨v, hv, hj, hj'⟩
  -- `v` serves for both, and `w` is left over
  obtain ⟨w, hw, hvw⟩ : ∃ w : Json, w.KeysOnce ∧ ¬ (w = .null ↔ v = .null) := by
    by_cases hnull : v = .null
    · exact ⟨.bool true, trivial, by simp [hnull]⟩
    · exact ⟨.null, trivial, by simp [hnull]⟩
  let f := Function.update (Function.update s j v) j' w
  have hfj : f j = v := by simp [f, hne]
  have hfj' : f j' = w := by simp [f]
  have hf : ∀ i, i ≠ j' → Covers text True (f i) (bs.get i) := by
    intro i hi
    by_cases hij : i = j
    · rw [hij, hfj]
      exact hj
    · simpa [f, hi, hij] using hcovers i
  have honce : ∀ i, (f i).KeysOnce := by
    intro i
    by_cases hi : i = j'
    · rwa [hi, hfj']
    · by_cases hij : i = j
      · rwa [hij, hfj]
      · simpa [f, hi, hij] using hs i
  obtain ⟨σ, hσ⟩ := exactMatch_ofFn (hone _ (keysOnce_ofFn honce) (covers_ofFn fun i => by
    by_cases hi : i = j'
    · exact ⟨j, by rwa [hfj, hi]⟩
    · exact ⟨i, hf i hi⟩))
  -- there are as many nulls in the payload as in the pattern
  have hcard : (Finset.univ.filter fun i => f i = .null).card =
      (Finset.univ.filter fun i => bs.get i = .null).card := by
    refine (Finset.card_bij (fun i _ => σ i) ?_ (fun _ _ _ _ heq => σ.injective heq) ?_).symm
    · intro i hi
      simpa [((exactMatch_iff.mp (hσ i)).1).eq_null_iff] using hi
    · intro i hi
      refine ⟨σ.symm i, ?_, by simp⟩
      have hnull := ((exactMatch_iff.mp (hσ (σ.symm i))).1).eq_null_iff
      rw [Equiv.apply_symm_apply] at hnull
      exact Finset.mem_filter.mpr
        ⟨Finset.mem_univ _, hnull.mp (Finset.mem_filter.mp hi).2⟩
  have hleft := Finset.mem_iff_of_card_eq hcard (x := j') fun i hi => by
    simpa using (hf i hi).eq_null_iff
  rw [Finset.mem_filter, Finset.mem_filter, hfj', hj'.eq_null_iff.symm] at hleft
  exact hvw (by simpa using hleft)

/-- In the array a value that matches an element has no other partner, so it matches exactly. -/
theorem exact_elem_of_exact {s : Fin bs.length → Json} (hs : ∀ j, (s j).KeysOnce)
    (hcovers : ∀ j, Covers text True (s j) (bs.get j))
    (hone : ∀ a : Json, a.KeysOnce → Covers text True a (.arr bs) → ExactMatch text a (.arr bs))
    (j : Fin bs.length) (ha : a.KeysOnce) (hab : Covers text True a (bs.get j)) :
    ExactMatch text a (bs.get j) := by
  have hupd : ∀ i, (Function.update s j a i).KeysOnce ∧
      Covers text True (Function.update s j a i) (bs.get i) := by
    intro i
    by_cases hi : i = j
    · subst hi
      simpa using ⟨ha, hab⟩
    · simpa [hi] using ⟨hs i, hcovers i⟩
  obtain ⟨σ, hσ⟩ := exactMatch_ofFn (hone _ (keysOnce_ofFn fun i => (hupd i).1)
    (covers_ofFn fun i => ⟨i, (hupd i).2⟩))
  by_cases hfix : σ j = j
  · have hexact := hσ j
    rwa [hfix, Function.update_self] at hexact
  · refine absurd ⟨_, (hupd (σ j)).1, (hupd (σ j)).2, ?_⟩ (not_meet_of_exact hs hcovers hone hfix)
    exact (exactMatch_iff.mp (hσ j)).1

/-- In the object the other fields can be as in a payload that is known, so a value that matches a
field matches it exactly. -/
theorem exact_field_of_exact (hnodup : (fields.map Prod.fst).Nodup) (hfs : (Json.obj fs).KeysOnce)
    (hfields : ∀ g ∈ fields, Covers text True (Json.get fs g.1) g.2)
    (hone : ∀ a : Json, a.KeysOnce → Covers text True a (.obj fields) →
      ExactMatch text a (.obj fields))
    {f : String × Json} (hf : f ∈ fields) (ha : a.KeysOnce) (hab : Covers text True a f.2) :
    ExactMatch text a f.2 := by
  classical
  let s : String × Json → Json := fun g => if g = f then a else Json.get fs g.1
  have hs : ∀ g ∈ fields, (s g).KeysOnce ∧ Covers text True (s g) g.2 := by
    intro g hg
    by_cases hgf : g = f
    · simpa [s, hgf] using ⟨ha, hab⟩
    · simpa [s, hgf] using ⟨hfs.get g.1, hfields g hg⟩
  have hkeys : ((fields.map fun g => (g.1, s g)).map Prod.fst).Nodup := by
    simpa [Function.comp_def] using hnodup
  have hget : ∀ g ∈ fields, Json.get (fields.map fun g => (g.1, s g)) g.1 = s g :=
    fun g hg => Json.get_of_mem hkeys (List.mem_map_of_mem (f := fun g => (g.1, s g)) hg)
  have honce : (Json.obj (fields.map fun g => (g.1, s g))).KeysOnce := by
    refine ⟨hkeys, Json.keysOnceFields_iff.mpr fun p hp => ?_⟩
    obtain ⟨g, hg, rfl⟩ := List.mem_map.mp hp
    exact (hs g hg).1
  have hcovers : Covers text True (.obj (fields.map fun g => (g.1, s g))) (.obj fields) := by
    rw [Covers]
    refine ⟨_, rfl, coversFields_iff.mpr fun g hg => ?_⟩
    rw [hget g hg]
    exact (hs g hg).2
  have hexact := hone _ honce hcovers
  rw [ExactMatch] at hexact
  obtain ⟨fs', hfs', hexact⟩ := hexact
  obtain rfl := Json.obj.inj hfs'
  have hfield := exactFields_iff.mp hexact f hf
  rw [hget f hf] at hfield
  simpa [s] using hfield

/-- A pattern that only contains what matches it exactly has no elements that meet. -/
theorem apart_of_exact (hb : b.KeysOnce) (hsome : ∃ a : Json, a.KeysOnce ∧ Covers text True a b)
    (hone : ∀ a : Json, a.KeysOnce → Covers text True a b → ExactMatch text a b) :
    Apart text b := by
  induction b using Json.tree_induction with
  | arr bs ih =>
      obtain ⟨a, ha, hab⟩ := hsome
      rw [Covers] at hab
      obtain ⟨as, rfl, hlen, hfound⟩ := hab
      have hpartner : ∀ j : Fin bs.length, ∃ v : Json, v.KeysOnce ∧
          Covers text True v (bs.get j) := by
        intro j
        obtain ⟨va, hva, hab⟩ := coversElems_iff.mp hfound (bs.get j) (List.get_mem _ _)
        exact ⟨va, Json.keysOnceElems_iff.mp ha va hva, hab⟩
      choose s hs hcovers using hpartner
      rw [Apart]
      refine ⟨List.pairwise_iff_get.mpr fun j j' hlt => ?_, fun b hb' => ?_⟩
      · exact not_meet_of_exact hs hcovers hone hlt.ne
      · obtain ⟨j, rfl⟩ := List.get_of_mem hb'
        exact ih _ hb' (Json.keysOnceElems_iff.mp hb _ hb') ⟨s j, hs j, hcovers j⟩
          fun a ha hab => exact_elem_of_exact hs hcovers hone j ha hab
  | obj fields ih =>
      obtain ⟨a, ha, hab⟩ := hsome
      rw [Covers] at hab
      obtain ⟨fs, rfl, hfields⟩ := hab
      rw [coversFields_iff] at hfields
      obtain ⟨hnodup, honce⟩ := hb
      rw [Apart]
      intro f hf
      exact ih f hf (Json.keysOnceFields_iff.mp honce f hf) ⟨_, ha.get f.1, hfields f hf⟩
        fun a' ha' hab' => exact_field_of_exact hnodup ha hfields hone hf ha' hab'
  | _ => simp [Apart]

end Iff

/-- A text of the pattern as a regular expression. -/
def RegexText (compile : String → Except String (String → Bool)) (a : Json) (b : String) : Prop :=
  ∃ s matchString, a = .str s ∧ compile b = .ok matchString ∧ matchString s = true

variable {order : Finset String → List String} {h : Heap} {v : Value} {a b : Json}
  {exactArrayMatch : Bool} {compile : String → Except String (String → Bool)}

/-- `contains` of the package `patternregex`. -/
theorem answers_patternRegex (hv : h.Represents v a) (b : Json) :
    Answers order h (PatternRegex.contains compile exactArrayMatch v b)
      (Covers (RegexText compile) (exactArrayMatch = true) a b) := by
  refine run_contains ?_ hv
  intro v a s hv _
  unfold PatternRegex.text RegexText
  constructor
  · intro htext
    split at htext
    · rename_i x matchString hcompile
      exact ⟨x, matchString, (hv.eq_scalar_iff rfl).mp rfl, hcompile, htext⟩
    · exact absurd htext (by simp)
  · rintro ⟨x, matchString, rfl, hcompile, hmatch⟩
    rw [(hv.eq_scalar_iff (u := .str x) rfl).mpr rfl, hcompile]
    exact hmatch

/-- `contains` finds the pattern only in payloads that match it exactly. -/
def OneToOne (text : Json → String → Prop) (order : Finset String → List String)
    (contains : Value → Json → HeapProg Bool) (b : Json) : Prop :=
  ∀ h v a, h.Represents v a → Holds order h (contains v b) → ExactMatch text a b

/-- `contains` finds the pattern in some payload. -/
def Found (order : Finset String → List String) (contains : Value → Json → HeapProg Bool)
    (b : Json) : Prop :=
  ∃ h v a, h.Represents v a ∧ Holds order h (contains v b)

/-- A pattern is safe if and only if none of its elements meet. -/
theorem oneToOne_iff_apart {text : Json → String → Prop}
    {contains : Value → Json → HeapProg Bool}
    (hcontains : ∀ h v a, h.Represents v a →
      (Holds order h (contains v b) ↔ Covers text True a b))
    (hb : b.KeysOnce) (hfound : Found order contains b) :
    OneToOne text order contains b ↔ Apart text b := by
  constructor
  · intro hone
    obtain ⟨h, v, a, hv, hholds⟩ := hfound
    refine apart_of_exact hb ⟨a, hv.keysOnce, (hcontains h v a hv).mp hholds⟩ fun a' ha' hab' => ?_
    obtain ⟨h', v', -, hv', -⟩ := Heap.exists_represents ha' h
    exact hone h' v' a' hv' ((hcontains h' v' a' hv').mpr hab')
  · intro hapart h v a hv hholds
    exact exactMatch_of_apart hapart hv.keysOnce ((hcontains h v a hv).mp hholds)

/-- `contains` finds the pattern in the payloads that cover it. -/
theorem holds_pattern_iff (hv : h.Represents v a) (b : Json) :
    Holds order h (Pattern.contains true v b) ↔ Covers PlainText True a b := by
  have hanswers : Answers order h (Pattern.contains true v b) (Covers PlainText (true = true) a b) :=
    answers_pattern hv b
  simpa using hanswers.holds_iff

theorem holds_patternRegex_iff (hv : h.Represents v a) (b : Json) :
    Holds order h (PatternRegex.contains compile true v b) ↔
      Covers (RegexText compile) True a b := by
  have hanswers : Answers order h (PatternRegex.contains compile true v b)
      (Covers (RegexText compile) (true = true) a b) := answers_patternRegex hv b
  simpa using hanswers.holds_iff

/-- **Exact array match is one-to-one**, in both matchers: for one payload where nothing has to
share, and for all payloads where no array of the pattern has two elements that one value
matches. -/
theorem exact_array_match_iff (compile : String → Except String (String → Bool))
    (order : Finset String → List String) (b : Json) :
    ((∀ h v a, h.Represents v a → Holds order h (Pattern.contains true v b) →
        (ExactMatch PlainText a b ↔ Uncrowded PlainText a b)) ∧
      (b.KeysOnce → Found order (Pattern.contains true) b →
        (OneToOne PlainText order (Pattern.contains true) b ↔ Apart PlainText b))) ∧
    ((∀ h v a, h.Represents v a → Holds order h (PatternRegex.contains compile true v b) →
        (ExactMatch (RegexText compile) a b ↔ Uncrowded (RegexText compile) a b)) ∧
      (b.KeysOnce → Found order (PatternRegex.contains compile true) b →
        (OneToOne (RegexText compile) order (PatternRegex.contains compile true) b ↔
          Apart (RegexText compile) b))) := by
  refine ⟨⟨fun h v a hv hholds => ?_, ?_⟩, fun h v a hv hholds => ?_, ?_⟩
  · exact exactMatch_iff.trans (and_iff_right ((holds_pattern_iff hv b).mp hholds))
  · exact oneToOne_iff_apart fun h v a hv => holds_pattern_iff hv b
  · exact exactMatch_iff.trans (and_iff_right ((holds_patternRegex_iff hv b).mp hholds))
  · exact oneToOne_iff_apart fun h v a hv => holds_patternRegex_iff hv b

/-- The payload `[1, 2]`. -/
def pairHeap : Heap := (Heap.empty.makeSlice [.num "1", .num "2"]).1

theorem represents_pairHeap : pairHeap.Represents (.slice 0) (.arr [.num "1", .num "2"]) := by
  refine Heap.represents_arr.mpr ⟨0, rfl, ?_⟩
  rw [show pairHeap.slices 0 = [.num "1", .num "2"] from rfl]
  simp [Heap.Represents]

/-- In `[1, 2]` the elements of `[2, "*"]` find partners of their own, and the pattern `[1, 2]` is
found only in payloads that match it exactly. -/
theorem exact_array_match_iff_sample :
    Uncrowded PlainText (.arr [.num "1", .num "2"]) (.arr [.num "2", .str "*"]) ∧
      OneToOne PlainText Event.ascending (Pattern.contains true)
        (.arr [.num "1", .num "2"]) := by
  constructor
  · refine ((exact_array_match_iff (fun _ => .error "") Event.ascending
      (.arr [.num "2", .str "*"])).1.1 _ _ _ represents_pairHeap (by decide +kernel)).mp
      (exactMatch_arr.mpr ⟨Equiv.swap (0 : Fin 2) 1, fun j => ?_⟩)
    fin_cases j
    · show ExactMatch PlainText (.num "2") (.num "2")
      rw [ExactMatch]
      exact ⟨"2", rfl, by decide⟩
    · show ExactMatch PlainText (.num "1") (.str "*")
      rw [ExactMatch]
      exact ⟨by simp, Or.inl rfl⟩
  · refine ((exact_array_match_iff (fun _ => .error "") Event.ascending
      (.arr [.num "1", .num "2"])).1.2 ⟨trivial, trivial, trivial⟩
      ⟨_, _, _, represents_pairHeap, by decide +kernel⟩).mpr ?_
    rw [Apart]
    refine ⟨List.pairwise_pair.mpr ?_, fun b hb => ?_⟩
    · rintro ⟨v, -, hone, htwo⟩
      rw [Covers] at hone htwo
      obtain ⟨s, rfl, hs⟩ := hone
      obtain ⟨t, ht, hst⟩ := htwo
      obtain rfl := Json.num.inj ht
      simp [sameNumber] at hs hst
      rw [hs] at hst
      exact absurd hst (by decide)
    · simp only [List.mem_cons, List.not_mem_nil, or_false] at hb
      rcases hb with rfl | rfl <;> simp [Apart]

/-- The pattern `[1, 1]` is found in `[1, 2]` by both matchers and matches it exactly in neither. -/
theorem shared_element_not_exact :
    pairHeap.Represents (.slice 0) (.arr [.num "1", .num "2"]) ∧
      Holds Event.ascending pairHeap
        (Pattern.contains true (.slice 0) (.arr [.num "1", .num "1"])) ∧
      Holds Event.ascending pairHeap
        (PatternRegex.contains (fun _ => .error "") true (.slice 0) (.arr [.num "1", .num "1"])) ∧
      ∀ text, ¬ ExactMatch text (.arr [.num "1", .num "2"]) (.arr [.num "1", .num "1"]) := by
  refine ⟨represents_pairHeap, by decide +kernel, by decide +kernel, fun text hexact => ?_⟩
  obtain ⟨σ, hσ⟩ := exactMatch_arr.mp hexact
  -- the second element of the payload has no partner
  obtain ⟨j, hj⟩ := σ.surjective ⟨1, by decide⟩
  have hmatch := hσ j
  have hpattern : [Json.num "1", Json.num "1"].get j = .num "1" := by fin_cases j <;> rfl
  rw [hj, hpattern] at hmatch
  have hnum : ExactMatch text (.num "2") (.num "1") := hmatch
  rw [ExactMatch] at hnum
  obtain ⟨s, hs, hsame⟩ := hnum
  rw [← Json.num.inj hs] at hsame
  exact absurd hsame (by decide)

end Match
