/-
# Base64

The standard base64 encoding with padding: three bytes become four digits of six
bits, a rest of two bytes becomes three digits and one `=`, a rest of one byte two
digits and two `=`.

Different byte strings have different encodings (`encode_injective`), and an encoding
holds digits and `=` only (`encode_alphabet`), so that a character outside the alphabet
can separate encodings.
-/
import Mathlib

namespace Base64

/-- The alphabet, in the order of the digits. -/
def alphabet : List Char :=
  "ABCDEFGHIJKLMNOPQRSTUVWXYZabcdefghijklmnopqrstuvwxyz0123456789+/".toList

/-- The character for a number of six bits. -/
def digit (n : ℕ) : Char := alphabet.getD n '='

/-- The character that fills up the last group. -/
def pad : Char := '='

/-- `StdEncoding.EncodeToString`. -/
def encode : List UInt8 → List Char
  | a :: b :: c :: rest =>
      let n := a.toNat * 65536 + b.toNat * 256 + c.toNat
      digit (n / 262144) :: digit (n / 4096 % 64) :: digit (n / 64 % 64) :: digit (n % 64) ::
        encode rest
  | [a, b] =>
      let n := a.toNat * 65536 + b.toNat * 256
      [digit (n / 262144), digit (n / 4096 % 64), digit (n / 64 % 64), pad]
  | [a] =>
      let n := a.toNat * 65536
      [digit (n / 262144), digit (n / 4096 % 64), pad, pad]
  | [] => []

example : encode "ears".toUTF8.toList = "ZWFycw==".toList := by decide +kernel

/-! ## Digits -/

theorem digit_injOn : ∀ n < 64, ∀ m < 64, digit n = digit m → n = m := by decide +kernel

theorem digit_ne_pad : ∀ n < 64, digit n ≠ pad := by decide +kernel

/-- Equal digits of six bits are digits of equal numbers. -/
theorem digit_inj {n m : ℕ} (hn : n < 64) (hm : m < 64) : digit n = digit m ↔ n = m :=
  ⟨digit_injOn n hn m hm, congrArg digit⟩

theorem digit_mem {n : ℕ} (h : n < 64) : digit n ∈ alphabet := by
  have hlen : n < alphabet.length := h
  rw [digit, List.getD_eq_getElem _ _ hlen]
  exact List.getElem_mem hlen

/-! ## Injectivity -/

/-- The four digits of a group determine its three bytes. -/
theorem group_inj {a b c a' b' c' : ℕ} (ha : a < 256) (hb : b < 256) (hc : c < 256)
    (ha' : a' < 256) (hb' : b' < 256) (hc' : c' < 256)
    (h₁ : digit ((a * 65536 + b * 256 + c) / 262144) =
      digit ((a' * 65536 + b' * 256 + c') / 262144))
    (h₂ : digit ((a * 65536 + b * 256 + c) / 4096 % 64) =
      digit ((a' * 65536 + b' * 256 + c') / 4096 % 64))
    (h₃ : digit ((a * 65536 + b * 256 + c) / 64 % 64) =
      digit ((a' * 65536 + b' * 256 + c') / 64 % 64))
    (h₄ : digit ((a * 65536 + b * 256 + c) % 64) = digit ((a' * 65536 + b' * 256 + c') % 64)) :
    a = a' ∧ b = b' ∧ c = c' := by
  rw [digit_inj (by omega) (by omega)] at h₁ h₂ h₃ h₄
  omega

/-- Different byte strings have different encodings. -/
theorem encode_injective : Function.Injective encode := by
  -- groups of the same size by their digits, others by where the padding starts
  intro xs
  induction xs using encode.induct with
  | case1 a b c rest ih =>
      intro ys h
      have ha := a.toNat_lt
      have hb := b.toNat_lt
      have hc := c.toNat_lt
      match ys with
      | a' :: b' :: c' :: rest' =>
          simp only [encode, List.cons.injEq] at h
          obtain ⟨h₁, h₂, h₃, h₄, hrest⟩ := h
          have hg := group_inj ha hb hc a'.toNat_lt b'.toNat_lt c'.toNat_lt h₁ h₂ h₃ h₄
          rw [UInt8.toNat_inj.mp hg.1, UInt8.toNat_inj.mp hg.2.1, UInt8.toNat_inj.mp hg.2.2, ih hrest]
      | [a', b'] =>
          simp only [encode, List.cons.injEq] at h
          exact absurd h.2.2.2.1 (digit_ne_pad _ (by omega))
      | [a'] =>
          simp only [encode, List.cons.injEq] at h
          exact absurd h.2.2.2.1 (digit_ne_pad _ (by omega))
      | [] => simp [encode] at h
  | case2 a b =>
      intro ys h
      have ha := a.toNat_lt
      have hb := b.toNat_lt
      match ys with
      | a' :: b' :: c' :: rest' =>
          simp only [encode, List.cons.injEq] at h
          exact absurd h.2.2.2.1.symm (digit_ne_pad _ (by omega))
      | [a', b'] =>
          simp only [encode, List.cons.injEq] at h
          obtain ⟨h₁, h₂, h₃, -⟩ := h
          have ha' := a'.toNat_lt
          have hb' := b'.toNat_lt
          rw [digit_inj (by omega) (by omega)] at h₁ h₂ h₃
          have hg : a.toNat = a'.toNat ∧ b.toNat = b'.toNat := by omega
          rw [UInt8.toNat_inj.mp hg.1, UInt8.toNat_inj.mp hg.2]
      | [a'] =>
          simp only [encode, List.cons.injEq] at h
          exact absurd h.2.2.1 (digit_ne_pad _ (by omega))
      | [] => simp [encode] at h
  | case3 a =>
      intro ys h
      have ha := a.toNat_lt
      match ys with
      | a' :: b' :: c' :: rest' =>
          simp only [encode, List.cons.injEq] at h
          exact absurd h.2.2.2.1.symm (digit_ne_pad _ (by omega))
      | [a', b'] =>
          simp only [encode, List.cons.injEq] at h
          have hb' := b'.toNat_lt
          exact absurd h.2.2.1.symm (digit_ne_pad _ (by omega))
      | [a'] =>
          simp only [encode, List.cons.injEq] at h
          have ha' := a'.toNat_lt
          have h₁ := h.1
          have h₂ := h.2.1
          rw [digit_inj (by omega) (by omega)] at h₁ h₂
          rw [UInt8.toNat_inj.mp (by omega : a.toNat = a'.toNat)]
      | [] => simp [encode] at h
  | case4 =>
      intro ys h
      match ys with
      | a' :: b' :: c' :: rest' => simp [encode] at h
      | [a', b'] => simp [encode] at h
      | [a'] => simp [encode] at h
      | [] => rfl

/-- An encoding holds characters of the alphabet and padding only. -/
theorem encode_alphabet (xs : List UInt8) : ∀ ch ∈ encode xs, ch ∈ alphabet ∨ ch = pad := by
  induction xs using encode.induct with
  | case1 a b c rest ih =>
      have ha := a.toNat_lt
      have hb := b.toNat_lt
      have hc := c.toNat_lt
      intro ch hch
      simp only [encode, List.mem_cons] at hch
      rcases hch with rfl | rfl | rfl | rfl | hch
      · exact Or.inl (digit_mem (by omega))
      · exact Or.inl (digit_mem (by omega))
      · exact Or.inl (digit_mem (by omega))
      · exact Or.inl (digit_mem (by omega))
      · exact ih ch hch
  | case2 a b =>
      have ha := a.toNat_lt
      have hb := b.toNat_lt
      intro ch hch
      simp only [encode, List.mem_cons, List.not_mem_nil, or_false] at hch
      rcases hch with rfl | rfl | rfl | rfl
      · exact Or.inl (digit_mem (by omega))
      · exact Or.inl (digit_mem (by omega))
      · exact Or.inl (digit_mem (by omega))
      · exact Or.inr rfl
  | case3 a =>
      have ha := a.toNat_lt
      intro ch hch
      simp only [encode, List.mem_cons, List.not_mem_nil, or_false] at hch
      rcases hch with rfl | rfl | rfl | rfl
      · exact Or.inl (digit_mem (by omega))
      · exact Or.inl (digit_mem (by omega))
      · exact Or.inr rfl
      · exact Or.inr rfl
  | case4 =>
      intro ch hch
      simp [encode] at hch

/-- A character outside the alphabet that is not the padding occurs in no encoding. -/
theorem not_mem_encode {ch : Char} (hch : ch ∉ alphabet) (hpad : ch ≠ pad) (xs : List UInt8) :
    ch ∉ encode xs := by
  intro hmem
  rcases encode_alphabet xs ch hmem with h | h
  · exact hch h
  · exact hpad h

end Base64
