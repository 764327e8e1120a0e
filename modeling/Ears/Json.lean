/-
# JSON values and their text

A JSON value as `encoding/json` decodes it into an `interface{}`, and the text
`json.Marshal` writes for it: objects with their keys in order, no blanks, and the
characters `<`, `>` and `&` escaped.  `null` is the nil interface.  A number is the text
the encoder writes for it.  The fields of an object are listed in any order, each key once.
-/
import Mathlib

/-- A JSON value. -/
inductive Json where
  | null
  | bool (b : Bool)
  | num (text : String)
  | str (s : String)
  | arr (elems : List Json)
  | obj (fields : List (String × Json))

namespace Json

/-- The escape `\u00xx` of a character below 256. -/
def escapeHex (c : Char) : List Char :=
  ['\\', 'u', '0', '0', Nat.digitChar (c.toNat / 16), Nat.digitChar (c.toNat % 16)]

/-- A character inside a string literal. -/
def escapeChar (c : Char) : List Char :=
  if c = '"' ∨ c = '\\' then ['\\', c]
  else if c = '\n' then ['\\', 'n']
  else if c = '\r' then ['\\', 'r']
  else if c = '\t' then ['\\', 't']
  else if c = '<' ∨ c = '>' ∨ c = '&' ∨ c.toNat < 32 then escapeHex c
  else if c.toNat = 0x2028 then "\\u2028".toList
  else if c.toNat = 0x2029 then "\\u2029".toList
  else [c]

/-- A string literal. -/
def quote (s : String) : List Char := '"' :: s.toList.flatMap escapeChar ++ ['"']

/-- Texts with commas between them. -/
def joinComma (texts : List (List Char)) : List Char := (texts.intersperse [',']).flatten

mutual

/-- `json.Marshal`. -/
def marshal : Json → List Char
  | .null => "null".toList
  | .bool b => (if b then "true" else "false").toList
  | .num text => text.toList
  | .str s => quote s
  | .arr elems => '[' :: joinComma (marshalElems elems) ++ [']']
  | .obj fields =>
      let sorted := (marshalFields fields).insertionSort fun f g => f.1 ≤ g.1
      '{' :: joinComma (sorted.map fun f => quote f.1 ++ ':' :: f.2) ++ ['}']

/-- The texts of the elements of an array. -/
def marshalElems : List Json → List (List Char)
  | [] => []
  | v :: vs => marshal v :: marshalElems vs

/-- The texts of the fields of an object, with their keys. -/
def marshalFields : List (String × Json) → List (String × List Char)
  | [] => []
  | (key, v) :: fs => (key, marshal v) :: marshalFields fs

end

example : marshal (.obj [("n", .num "1"), ("m", .arr [.str "a<b", .null])]) =
    "\x7b\"m\":[\"a\\u003cb\",null],\"n\":1\x7d".toList := by decide +kernel

end Json
