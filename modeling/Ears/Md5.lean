/-
# MD5

The digest of RFC 1321 over lists of bytes, and its lower-case hexadecimal text.  The
words are natural numbers below `2 ^ 32`.  Nothing is claimed about collisions: a proof
that needs equal digests to come from equal texts takes that as a hypothesis on the texts
it is about.  What holds of every digest is its length (`length_hexDigest`).
-/
import Mathlib

namespace Md5

/-- The additive constants, the integer parts of `2 ^ 32 * |sin (i + 1)|`. -/
def constants : List ℕ :=
  [
    0xd76aa478, 0xe8c7b756, 0x242070db, 0xc1bdceee, 0xf57c0faf, 0x4787c62a, 0xa8304613, 0xfd469501,
    0x698098d8, 0x8b44f7af, 0xffff5bb1, 0x895cd7be, 0x6b901122, 0xfd987193, 0xa679438e, 0x49b40821,
    0xf61e2562, 0xc040b340, 0x265e5a51, 0xe9b6c7aa, 0xd62f105d, 0x02441453, 0xd8a1e681, 0xe7d3fbc8,
    0x21e1cde6, 0xc33707d6, 0xf4d50d87, 0x455a14ed, 0xa9e3e905, 0xfcefa3f8, 0x676f02d9, 0x8d2a4c8a,
    0xfffa3942, 0x8771f681, 0x6d9d6122, 0xfde5380c, 0xa4beea44, 0x4bdecfa9, 0xf6bb4b60, 0xbebfbc70,
    0x289b7ec6, 0xeaa127fa, 0xd4ef3085, 0x04881d05, 0xd9d4d039, 0xe6db99e5, 0x1fa27cf8, 0xc4ac5665,
    0xf4292244, 0x432aff97, 0xab9423a7, 0xfc93a039, 0x655b59c3, 0x8f0ccc92, 0xffeff47d, 0x85845dd1,
    0x6fa87e4f, 0xfe2ce6e0, 0xa3014314, 0x4e0811a1, 0xf7537e82, 0xbd3af235, 0x2ad7d2bb, 0xeb86d391]

/-- The rotations, four for each of the four rounds. -/
def shifts : List ℕ := [7, 12, 17, 22, 5, 9, 14, 20, 4, 11, 16, 23, 6, 10, 15, 21]

/-- Complement of a word. -/
def complement (x : ℕ) : ℕ := 2 ^ 32 - 1 - x

/-- Rotate a word to the left. -/
def rotate (x n : ℕ) : ℕ := x * 2 ^ n % 2 ^ 32 + x / 2 ^ (32 - n)

/-- The four words of the chaining value. -/
structure Digest where
  a : ℕ
  b : ℕ
  c : ℕ
  d : ℕ
  deriving DecidableEq, Repr

/-- The initial chaining value. -/
def init : Digest := ⟨0x67452301, 0xefcdab89, 0x98badcfe, 0x10325476⟩

/-- The nonlinear function of step `i` and the word of the block it adds. -/
def mix (i : ℕ) (v : Digest) : ℕ × ℕ :=
  match i / 16 with
  | 0 => ((v.b &&& v.c) ||| (complement v.b &&& v.d), i)
  | 1 => ((v.d &&& v.b) ||| (complement v.d &&& v.c), (5 * i + 1) % 16)
  | 2 => (v.b ^^^ v.c ^^^ v.d, (3 * i + 5) % 16)
  | _ => (v.c ^^^ (v.b ||| complement v.d), 7 * i % 16)

/-- One of the 64 steps on a block of 16 words. -/
def step (block : List ℕ) (v : Digest) (i : ℕ) : Digest :=
  let m := mix i v
  let sum := (m.1 + v.a + constants.getD i 0 + block.getD m.2 0) % 2 ^ 32
  ⟨v.d, (v.b + rotate sum (shifts.getD (i / 16 * 4 + i % 4) 0)) % 2 ^ 32, v.b, v.c⟩

/-- The 16 words of a block of 64 bytes, the low byte of a word first. -/
def words : ℕ → List ℕ → List ℕ
  | n + 1, w :: x :: y :: z :: rest => (w + 256 * (x + 256 * (y + 256 * z))) :: words n rest
  | _, _ => []

/-- Digest one block. -/
def compress (v : Digest) (bytes : List ℕ) : Digest :=
  let r := (List.range 64).foldl (step (words 16 bytes)) v
  ⟨(v.a + r.a) % 2 ^ 32, (v.b + r.b) % 2 ^ 32, (v.c + r.c) % 2 ^ 32, (v.d + r.d) % 2 ^ 32⟩

/-- The bytes of a number, the low byte first. -/
def littleEndian : ℕ → ℕ → List ℕ
  | 0, _ => []
  | k + 1, n => n % 256 :: littleEndian k (n / 256)

/-- The message, a one bit, zeros, and the length in bits, in whole blocks. -/
def padded (bytes : List ℕ) : List ℕ :=
  bytes ++ 0x80 :: List.replicate ((119 - bytes.length % 64) % 64) 0 ++
    littleEndian 8 (8 * bytes.length)

/-- Digest a number of blocks. -/
def blocks : ℕ → Digest → List ℕ → Digest
  | 0, v, _ => v
  | k + 1, v, bytes => blocks k (compress v bytes) (bytes.drop 64)

/-- The digest of a message. -/
def digest (bytes : List ℕ) : Digest :=
  blocks ((padded bytes).length / 64) init (padded bytes)

/-- The sixteen bytes of a digest. -/
def Digest.bytes (v : Digest) : List ℕ :=
  littleEndian 4 v.a ++ littleEndian 4 v.b ++ littleEndian 4 v.c ++ littleEndian 4 v.d

/-- The two hexadecimal digits of a byte. -/
def hexByte (n : ℕ) : List Char := [Nat.digitChar (n / 16), Nat.digitChar (n % 16)]

/-- The digest as 32 hexadecimal digits. -/
def hexDigest (bytes : List ℕ) : List Char := (digest bytes).bytes.flatMap hexByte

@[simp] theorem length_littleEndian (k n : ℕ) : (littleEndian k n).length = k := by
  induction k generalizing n with
  | zero => rfl
  | succ k ih => rw [littleEndian, List.length_cons, ih]

/-- A digest has 32 digits. -/
@[simp] theorem length_hexDigest (bytes : List ℕ) : (hexDigest bytes).length = 32 := by
  simp [hexDigest, Digest.bytes, hexByte, List.length_flatMap]

example : hexDigest [] = "d41d8cd98f00b204e9800998ecf8427e".toList := by decide +kernel

example : hexDigest [1, 2, 3, 4] = "08d6c05a21512a79a1dfeb9d2a8f262f".toList := by
  decide +kernel

end Md5
