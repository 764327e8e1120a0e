/-
# Decimals of a fixed width

The last digits of a number, as many as the width says: equal widths sort as the numbers do
(`digits_append_lt_iff`).  Decimals of a fraction, where the zeros at the end are dropped, sort as
the fractions do, but only as long as nothing stands behind them: a terminator that is greater than
all digits sorts a decimal behind all those that begin with it (`trimmed_concat_lt_iff`).
-/
import Mathlib

namespace Decimals

/-! ## Texts of equal length -/

section Texts

variable {α : Type*} [LinearOrder α] {z : α} {xs ys as bs : List α}

theorem append_lt_append_iff (h : xs.length = ys.length) :
    xs ++ as < ys ++ bs ↔ xs < ys ∨ xs = ys ∧ as < bs := by
  induction xs generalizing ys with
  | nil =>
      obtain rfl := List.length_eq_zero_iff.mp h.symm
      simp
  | cons x xs ih =>
      cases ys with
      | nil => cases h
      | cons y ys =>
          rw [List.cons_append, List.cons_append, List.cons_lt_cons_iff, List.cons_lt_cons_iff,
            ih (Nat.succ.inj h), List.cons.injEq]
          tauto

/-- A terminator that is greater than all letters sorts a text behind its continuations. -/
theorem concat_lt_concat_iff (hx : ∀ x ∈ xs, x < z) (hy : ∀ y ∈ ys, y < z) :
    xs ++ [z] < ys ++ [z] ↔ xs < ys ∧ ¬ xs <+: ys ∨ ys <+: xs ∧ ys ≠ xs := by
  induction xs generalizing ys with
  | nil =>
      cases ys with
      | nil => simp
      | cons y ys =>
          have hlt := hy y (List.mem_cons_self ..)
          simp [List.cons_lt_cons_iff, hlt.le, hlt.ne']
  | cons x xs ih =>
      obtain ⟨hx, hxs⟩ := List.forall_mem_cons.mp hx
      cases ys with
      | nil => simp [List.cons_lt_cons_iff, hx]
      | cons y ys =>
          obtain ⟨-, hys⟩ := List.forall_mem_cons.mp hy
          simp only [List.cons_append, List.cons_lt_cons_iff, ih hxs hys, List.cons_prefix_cons,
            ne_eq, List.cons.injEq]
          rcases lt_trichotomy x y with h | rfl | h
          · simp [h, h.ne]
          · simp
          · simp [h.not_gt, h.ne, h.ne']

end Texts

/-! ## Digits -/

/-- The last digits of a number. -/
def digits : ℕ → ℕ → List Char
  | 0, _ => []
  | width + 1, n => digits width (n / 10) ++ [Nat.digitChar (n % 10)]

variable {width a b n : ℕ} {as bs : List Char}

theorem length_digits (width n : ℕ) : (digits width n).length = width := by
  induction width generalizing n with
  | zero => rfl
  | succ width ih => rw [digits, List.length_append, ih, List.length_singleton]

theorem digitChar_lt_iff (ha : a < 10) (hb : b < 10) :
    Nat.digitChar a < Nat.digitChar b ↔ a < b := by
  interval_cases a <;> interval_cases b <;> decide

theorem digitChar_inj (ha : a < 10) (hb : b < 10) : Nat.digitChar a = Nat.digitChar b ↔ a = b := by
  interval_cases a <;> interval_cases b <;> decide

theorem digits_zero (width : ℕ) : digits width 0 = List.replicate width '0' := by
  induction width with
  | zero => rfl
  | succ width ih => rw [digits, ih, List.replicate_succ']; rfl

theorem div_ten_lt (h : n < 10 ^ (width + 1)) : n / 10 < 10 ^ width := by
  rw [pow_succ] at h
  exact Nat.div_lt_of_lt_mul (by omega)

theorem div_pow_lt (h : n < 10 ^ (width + 1)) : n / 10 ^ width < 10 := Nat.div_lt_of_lt_mul h

/-- The digits of a number, with zeros in front. -/
theorem leftpad_toDigits (h : n < 10 ^ (width + 1)) :
    (Nat.toDigits 10 n).leftpad (width + 1) '0' = digits (width + 1) n := by
  induction width generalizing n with
  | zero =>
      have h : n < 10 := h
      rw [Nat.toDigits_of_lt_base h, digits, Nat.mod_eq_of_lt h]
      rfl
  | succ width ih =>
      rcases Nat.lt_or_ge n 10 with hlt | hle
      · rw [Nat.toDigits_of_lt_base hlt, digits, Nat.div_eq_of_lt hlt, Nat.mod_eq_of_lt hlt,
          digits_zero]
        rfl
      · rw [Nat.toDigits_of_base_le (by decide) hle, digits, ← ih (div_ten_lt h), List.leftpad,
          List.leftpad, List.length_append, List.length_singleton, Nat.add_sub_add_right,
          List.append_assoc]

/-- The digits from the first on. -/
theorem digits_eq_cons (h : n < 10 ^ (width + 1)) :
    digits (width + 1) n = Nat.digitChar (n / 10 ^ width) :: digits width (n % 10 ^ width) := by
  induction width generalizing n with
  | zero =>
      have h : n < 10 := h
      show [Nat.digitChar (n % 10)] = [Nat.digitChar (n / 10 ^ 0)]
      rw [Nat.mod_eq_of_lt h, pow_zero, Nat.div_one]
  | succ width ih =>
      rw [digits, ih (div_ten_lt h), digits, Nat.div_div_eq_div_mul, ← pow_succ',
        List.cons_append, pow_succ', Nat.mod_mul_right_div_self, Nat.mod_mul_right_mod]

theorem digits_lt_iff (ha : a < 10 ^ width) (hb : b < 10 ^ width) :
    digits width a < digits width b ↔ a < b := by
  induction width generalizing a b with
  | zero => 
      simp at ha hb
      simp [ha, hb]
  | succ width ih =>
      have ih' := ih (div_ten_lt hb) (div_ten_lt ha)
      have ih := ih (div_ten_lt ha) (div_ten_lt hb)
      have heq : digits width (a / 10) = digits width (b / 10) ↔ a / 10 = b / 10 := by
        constructor
        · intro h
          rw [h, iff_false_left (lt_irrefl _)] at ih ih'
          omega
        · intro h
          rw [h]
      rw [digits, digits, append_lt_append_iff (by rw [length_digits, length_digits]), ih, heq,
        List.cons_lt_cons_iff,
        digitChar_lt_iff (Nat.mod_lt _ (by decide)) (Nat.mod_lt _ (by decide))]
      simp only [List.not_lt_nil, and_false, or_false]
      omega

theorem digits_inj (ha : a < 10 ^ width) (hb : b < 10 ^ width) :
    digits width a = digits width b ↔ a = b := by
  constructor
  · intro h
    have hab := (digits_lt_iff ha hb).not
    have hba := (digits_lt_iff hb ha).not
    rw [h, iff_true_left (lt_irrefl _)] at hab hba
    omega
  · rintro rfl
    rfl

/-- Numbers of equal width sort as numbers, and then what stands behind them. -/
theorem digits_append_lt_iff (ha : a < 10 ^ width) (hb : b < 10 ^ width) :
    digits width a ++ as < digits width b ++ bs ↔ a < b ∨ a = b ∧ as < bs := by
  rw [append_lt_append_iff (by rw [length_digits, length_digits]), digits_lt_iff ha hb,
    digits_inj ha hb]

theorem isDigit_of_mem_digits {c : Char} (h : c ∈ digits width n) : c.isDigit = true := by
  induction width generalizing n with
  | zero => cases h
  | succ width ih =>
      rcases List.mem_append.mp h with h | h
      · exact ih h
      · rw [List.mem_singleton.mp h, Nat.isDigit_digitChar]
        exact decide_eq_true (Nat.mod_lt _ (by decide))

theorem ofDigitChars_digits (h : n < 10 ^ width) : Nat.ofDigitChars 10 (digits width n) 0 = n := by
  induction width generalizing n with
  | zero =>
      have h : n < 1 := h
      rw [digits, Nat.ofDigitChars_nil, Nat.lt_one_iff.mp h]
  | succ width ih =>
      rw [digits, Nat.ofDigitChars_append, ih (div_ten_lt h),
        Nat.ofDigitChars_cons_digitChar_of_lt_ten (Nat.mod_lt _ (by decide)),
        Nat.ofDigitChars_nil, Nat.div_add_mod]

/-! ## Zeros at the end -/

/-- The decimals of a fraction, without the zeros at the end. -/
def trimmed (width n : ℕ) : List Char := (digits width n).rdropWhile (· == '0')

theorem trimmed_prefix_digits (width n : ℕ) : trimmed width n <+: digits width n :=
  List.rdropWhile_prefix _ _

/-- Zeros are dropped one after the other. -/
theorem trimmed_succ (width n : ℕ) : trimmed (width + 1) n =
    if n % 10 = 0 then trimmed width (n / 10) else digits (width + 1) n := by
  rw [trimmed, digits, List.rdropWhile_concat, trimmed]
  simp only [beq_iff_eq, Nat.digitChar_eq_zero]

theorem trimmed_zero (width : ℕ) : trimmed width 0 = [] := by
  induction width with
  | zero => rfl
  | succ width ih => rw [trimmed_succ, if_pos (Nat.zero_mod 10), Nat.zero_div, ih]

/-- The decimals from the first on. -/
theorem trimmed_eq_cons (h : n < 10 ^ (width + 1)) (hne : n ≠ 0) : trimmed (width + 1) n =
    Nat.digitChar (n / 10 ^ width) :: trimmed width (n % 10 ^ width) := by
  induction width generalizing n with
  | zero =>
      have h : n < 10 := h
      rw [trimmed_succ, if_neg (by omega), digits_eq_cons h]
      rfl
  | succ width ih =>
      rw [trimmed_succ, trimmed_succ width (n % 10 ^ (width + 1)), pow_succ',
        Nat.mod_mul_right_mod, Nat.mod_mul_right_div_self]
      split_ifs with hlast
      · rw [ih (div_ten_lt h) (by omega), Nat.div_div_eq_div_mul]
      · rw [digits_eq_cons h, pow_succ']

/-- The value, when the zeros are put back. -/
theorem ofDigitChars_trimmed (h : n < 10 ^ width) :
    Nat.ofDigitChars 10 (trimmed width n) 0 * 10 ^ (width - (trimmed width n).length) = n := by
  induction width generalizing n with
  | zero =>
      have h : n < 1 := h
      rw [Nat.lt_one_iff.mp h]
      rfl
  | succ width ih =>
      rw [trimmed_succ]
      split_ifs with hlast
      · have hlen := (trimmed_prefix_digits width (n / 10)).length_le
        rw [length_digits] at hlen
        rw [Nat.succ_sub hlen, pow_succ, ← mul_assoc, ih (div_ten_lt h)]
        omega
      · rw [length_digits, Nat.sub_self, pow_zero, mul_one, ofDigitChars_digits h]

theorem lt_iff_div_mod {k : ℕ} : a < b ↔ a / k < b / k ∨ a / k = b / k ∧ a % k < b % k := by
  have ha := Nat.div_add_mod a k
  have hb := Nat.div_add_mod b k
  constructor
  · intro h
    rcases lt_or_eq_of_le (Nat.div_le_div_right (c := k) h.le) with hlt | heq
    · exact Or.inl hlt
    · rw [heq] at ha
      exact Or.inr ⟨heq, by omega⟩
  · rintro (hlt | ⟨heq, hmod⟩)
    · exact Nat.lt_of_div_lt_div hlt
    · rw [heq] at ha
      omega

/-- Decimals of fractions sort as the fractions do. -/
theorem trimmed_lt_iff (ha : a < 10 ^ width) (hb : b < 10 ^ width) :
    trimmed width a < trimmed width b ↔ a < b := by
  induction width generalizing a b with
  | zero =>
      simp at ha hb
      simp [ha, hb]
  | succ width ih =>
      rcases Nat.eq_zero_or_pos b with rfl | hbpos
      · rw [trimmed_zero]
        simp
      · rw [trimmed_eq_cons hb hbpos.ne']
        rcases Nat.eq_zero_or_pos a with rfl | hapos
        · simp [trimmed_zero, hbpos]
        · have hpow : 0 < 10 ^ width := by positivity
          rw [trimmed_eq_cons ha hapos.ne', List.cons_lt_cons_iff,
            digitChar_lt_iff (div_pow_lt ha) (div_pow_lt hb),
            digitChar_inj (div_pow_lt ha) (div_pow_lt hb), ih (Nat.mod_lt _ hpow)
            (Nat.mod_lt _ hpow), ← lt_iff_div_mod]

/-- The decimals of `b` begin with those of `a`: the numbers differ only where `a` has the zeros at
its end. -/
def Begins (a b : ℕ) : Prop := ∃ z, 10 ^ z ∣ a ∧ a ≤ b ∧ b < a + 10 ^ z

/-- A number that ends in `p` zeros is the start of a block that no larger block cuts. -/
theorem ediv_eq_ediv_of_lt_add {p k t u : ℤ} (hp : p ∣ t) (hk : p ∣ k) (hpos : 0 < k) (hle : t ≤ u)
    (hlt : u < t + p) : t / k = u / k := by
  have hnext : u < (t / k + 1) * k := by
    have hstart : t < (t / k + 1) * k := Int.lt_ediv_add_one_mul_self t hpos
    have hblock : p ≤ (t / k + 1) * k - t :=
      Int.le_of_dvd (Int.sub_pos_of_lt hstart) (dvd_sub (hk.mul_left _) hp)
    omega
  exact le_antisymm (Int.ediv_le_ediv hpos hle)
    (Int.lt_add_one_iff.mp (Int.ediv_lt_of_lt_mul hpos hnext))

theorem Begins.le (h : Begins a b) : a ≤ b := by
  obtain ⟨z, -, hle, -⟩ := h
  exact hle

/-- From the first decimals on. -/
theorem begins_iff_div_mod (ha : a < 10 ^ (width + 1)) (hne : a ≠ 0) : Begins a b ↔
    a / 10 ^ width = b / 10 ^ width ∧ Begins (a % 10 ^ width) (b % 10 ^ width) := by
  have hdiv := Nat.div_add_mod a (10 ^ width)
  have hdiv' := Nat.div_add_mod b (10 ^ width)
  have hmod' : b % 10 ^ width < 10 ^ width := Nat.mod_lt b (by positivity)
  constructor
  · rintro ⟨z, hdvd, hle, hlt⟩
    have hz : z ≤ width := Nat.le_of_lt_succ ((Nat.pow_lt_pow_iff_right (by decide)).mp
      ((Nat.le_of_dvd (Nat.pos_of_ne_zero hne) hdvd).trans_lt ha))
    have heq : a / 10 ^ width = b / 10 ^ width := by
      zify at hdvd hle hlt ⊢
      exact ediv_eq_ediv_of_lt_add hdvd (pow_dvd_pow 10 hz) (by positivity) hle hlt
    rw [heq] at hdiv
    exact ⟨heq, z, (Nat.dvd_mod_iff (pow_dvd_pow 10 hz)).mpr hdvd, by omega, by omega⟩
  · rintro ⟨heq, z, hdvd, hle, hlt⟩
    rw [heq] at hdiv
    rcases le_or_gt z width with hz | hz
    · exact ⟨z, (Nat.dvd_mod_iff (pow_dvd_pow 10 hz)).mp hdvd, by omega, by omega⟩
    -- the remainder is zero, and the whole width may be filled
    · have hzero : a % 10 ^ width = 0 := Nat.eq_zero_of_dvd_of_lt
        ((pow_dvd_pow 10 hz.le).trans hdvd) (Nat.mod_lt a (by positivity))
      exact ⟨width, Nat.dvd_of_mod_eq_zero hzero, by omega, by omega⟩

theorem trimmed_prefix_iff (ha : a < 10 ^ width) (hb : b < 10 ^ width) :
    trimmed width a <+: trimmed width b ↔ Begins a b := by
  induction width generalizing a b with
  | zero =>
      obtain rfl := Nat.lt_one_iff.mp ha
      obtain rfl := Nat.lt_one_iff.mp hb
      exact iff_of_true (List.prefix_refl _) ⟨0, dvd_zero _, le_rfl, Nat.zero_lt_one⟩
  | succ width ih =>
      rcases Nat.eq_zero_or_pos a with rfl | hapos
      · rw [trimmed_zero]
        exact iff_of_true List.nil_prefix ⟨width + 1, dvd_zero _, Nat.zero_le b, by omega⟩
      · rw [trimmed_eq_cons ha hapos.ne']
        rcases Nat.eq_zero_or_pos b with rfl | hbpos
        · rw [trimmed_zero, List.prefix_nil]
          exact iff_of_false (List.cons_ne_nil _ _) fun h => hapos.not_ge h.le
        · have hpow : 0 < 10 ^ width := by positivity
          rw [trimmed_eq_cons hb hbpos.ne', List.cons_prefix_cons,
            digitChar_inj (div_pow_lt ha) (div_pow_lt hb), ih (Nat.mod_lt _ hpow)
            (Nat.mod_lt _ hpow), ← begins_iff_div_mod ha hapos.ne']

/-- The order of decimals with a terminator behind them. -/
theorem trimmed_concat_lt_iff {z : Char} (hz : ∀ c : Char, c.isDigit = true → c < z)
    (ha : a < 10 ^ width) (hb : b < 10 ^ width) :
    trimmed width a ++ [z] < trimmed width b ++ [z] ↔
      a < b ∧ ¬ Begins a b ∨ b < a ∧ Begins b a := by
  have hdigit : ∀ n, ∀ c ∈ trimmed width n, c < z := fun n c hc =>
    hz c (isDigit_of_mem_digits ((trimmed_prefix_digits width n).mem hc))
  have hinj : trimmed width b = trimmed width a ↔ b = a := by
    constructor
    · intro h
      rw [← ofDigitChars_trimmed ha, ← ofDigitChars_trimmed hb, h]
    · rintro rfl
      rfl
  have hlt : Begins b a ∧ b ≠ a ↔ b < a ∧ Begins b a :=
    ⟨fun h => ⟨h.1.le.lt_of_ne h.2, h.1⟩, fun h => ⟨h.2, h.1.ne⟩⟩
  rw [concat_lt_concat_iff (hdigit a) (hdigit b), trimmed_lt_iff ha hb, trimmed_prefix_iff ha hb,
    trimmed_prefix_iff hb ha, ne_eq, hinj, ← ne_eq, hlt]

/-- Zero, written with all its decimals, sorts before all other fractions. -/
theorem digits_zero_append_lt (hpos : 0 < b) (hb : b < 10 ^ width) :
    digits width 0 ++ as < trimmed width b ++ bs := by
  induction width generalizing b with
  | zero =>
      have hb : b < 1 := hb
      omega
  | succ width ih =>
      have hlt := div_pow_lt hb
      rw [trimmed_eq_cons hb hpos.ne', digits_eq_cons (by positivity), Nat.zero_div, Nat.zero_mod,
        List.cons_append, List.cons_append, List.cons_lt_cons_iff,
        digitChar_lt_iff (by decide) hlt, digitChar_inj (by decide) hlt]
      rcases Nat.eq_zero_or_pos (b / 10 ^ width) with hzero | hfirst
      · have hdiv := Nat.div_add_mod b (10 ^ width)
        rw [hzero, mul_zero, zero_add] at hdiv
        exact Or.inr ⟨hzero.symm, ih (by omega) (Nat.mod_lt b (by positivity))⟩
      · exact Or.inl hfirst

end Decimals
