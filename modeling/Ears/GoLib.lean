/-
# Dynamic values, maps and slices of Go

What the event code needs of the language and its standard library: values of type
`interface{}` as they come from JSON, maps and slices as objects that are shared by
reference, and a few functions of `strings` and `strconv`.

Maps and slices live in a heap, so that two values with the same reference see each
other's writes.  A number is the text `encoding/json` writes for it, one text for each
number.

A call can stop with an error or with a panic; both keep the writes made before it
(`Stop`).
-/
import Mathlib

namespace GoLib

/-! ## Values and the heap -/

/-- The address of a map or of a slice. -/
abbrev Ref := ℕ

/-- A value of type `interface{}`; `nilMap` is a map that was never made, `bytes` a byte
slice, which nothing in the program writes to. -/
inductive Value where
  | nil
  | nilMap
  | bool (b : Bool)
  | num (text : String)
  | str (s : String)
  | bytes (b : List UInt8)
  | map (r : Ref)
  | slice (r : Ref)
  deriving DecidableEq, Repr

/-- The objects behind the references; addresses from `next` on are free. -/
structure Heap where
  maps : Ref → Finmap (fun _ : String => Value)
  slices : Ref → List Value
  next : Ref

namespace Heap

/-- A heap without objects. -/
def empty : Heap where
  maps := fun _ => ∅
  slices := fun _ => []
  next := 0

/-- `m[key]` with the flag that says whether the key is there. -/
def getKey (h : Heap) (r : Ref) (key : String) : Option Value := (h.maps r).lookup key

/-- `m[key] = val`. -/
def setKey (h : Heap) (r : Ref) (key : String) (val : Value) : Heap :=
  { h with maps := Function.update h.maps r ((h.maps r).insert key val) }

/-- `make(map[string]interface{})`. -/
def makeMap (h : Heap) : Heap × Ref :=
  ({ h with maps := Function.update h.maps h.next ∅, next := h.next + 1 }, h.next)

/-- The longest slice of interface values the runtime can allocate. -/
def maxSliceLen : ℕ := 2 ^ 44

/-- A slice with the given elements; a slice that is too long is refused with a panic. -/
def makeSlice (h : Heap) (vs : List Value) : Heap × Ref :=
  ({ h with slices := Function.update h.slices h.next vs, next := h.next + 1 }, h.next)

/-- `s[i] = val`, for an index in range. -/
def setIndex (h : Heap) (r : Ref) (i : ℕ) (val : Value) : Heap :=
  { h with slices := Function.update h.slices r ((h.slices r).set i val) }

end Heap

/-- Why a call stopped before its end: it returned an error, or it panicked. -/
inductive Stop (e : Type) where
  | error (err : e)
  | panic
  deriving DecidableEq, Repr

/-! ## `strings` -/

/-- `strings.HasPrefix`. -/
def hasPrefix (s start : String) : Bool := start.toList.isPrefixOf s.toList

/-- `strings.Contains` for one character. -/
def contains (s : String) (c : Char) : Bool := s.toList.contains c

/-- `strings.Replace(s, old, new, -1)` for a text `old` of two characters. -/
def replacePair (a b : Char) (new : List Char) : List Char → List Char
  | x :: y :: rest =>
      if x = a ∧ y = b then new ++ replacePair a b new rest
      else x :: replacePair a b new (y :: rest)
  | cs => cs

/-- `strings.Split(s, ".")` and the like, for a separator of one character. -/
def split (s : List Char) (sep : Char) : List (List Char) := s.splitOn sep

/-! ## `strconv.Atoi` -/

/-- The errors of `strconv`. -/
inductive NumError where
  | errSyntax
  | errRange
  deriving DecidableEq, Repr

/-- The value of a decimal digit. -/
def digitVal (c : Char) : Option ℕ :=
  if '0' ≤ c ∧ c ≤ '9' then some (c.toNat - '0'.toNat) else none

/-- The loop of `ParseUint` in base ten: an overflow stops it before the rest is read. -/
def parseUint : List Char → ℕ → Except NumError ℕ
  | [], n => .ok n
  | c :: cs, n =>
      match digitVal c with
      | none => .error .errSyntax
      | some d => if 2 ^ 64 ≤ n * 10 + d then .error .errRange else parseUint cs (n * 10 + d)

/-- The sign of a number text and its digits. -/
def splitSign : List Char → Bool × List Char
  | '-' :: cs => (true, cs)
  | '+' :: cs => (false, cs)
  | cs => (false, cs)

theorem splitSign_of_isDigit {c : Char} {cs : List Char} (hc : c.isDigit = true) :
    splitSign (c :: cs) = (false, c :: cs) := by
  unfold splitSign
  split
  · rename_i heq
    obtain ⟨rfl, -⟩ := List.cons.inj heq
    exact absurd hc (by decide)
  · rename_i heq
    obtain ⟨rfl, -⟩ := List.cons.inj heq
    exact absurd hc (by decide)
  · rfl

/-- `strconv.Atoi`: the value and the error.  A text that is no number gives 0, a number
out of range the nearest number in range. -/
def atoi (s : List Char) : ℤ × Option NumError :=
  let neg := (splitSign s).1
  if (splitSign s).2 = [] then (0, some .errSyntax)
  else
    match parseUint (splitSign s).2 0 with
    | .error .errSyntax => (0, some .errSyntax)
    | .error .errRange => (if neg then -2 ^ 63 else 2 ^ 63 - 1, some .errRange)
    | .ok n =>
        if neg then
          if 2 ^ 63 < n then (-2 ^ 63, some .errRange) else (-n, none)
        else
          if 2 ^ 63 ≤ n then (2 ^ 63 - 1, some .errRange) else (n, none)

/-- `strconv.Itoa`. -/
def itoa (n : ℤ) : String := Int.repr n

example : atoi "-12".toList = (-12, none) ∧ atoi "1x".toList = (0, some .errSyntax) := by
  decide

end GoLib
