import FeatureGraph.Decimal.Numeral

/-!
# JSON values

The tree that a JSON text stands for.  Numbers keep their numerals and objects
keep their members in the order of the text, repetitions included: what a number
or a member means is up to whoever reads the value.

A JSON string may hold half of a surrogate pair, which no text contains.  Such a
string is a value like any other; it only has no text.
-/

namespace FeatureGraph.Json

/-- One element of a JSON string. -/
inductive Piece where
  | char (c : Char)
  /-- One half of a surrogate pair without the other. -/
  | loneSurrogate (unit : Nat)
deriving DecidableEq, Repr

/-- The contents of a JSON string. -/
abbrev Str := List Piece

/-- The contents that stand for a text. -/
def Str.ofString (s : String) : Str := s.toList.map .char

def Piece.char? : Piece → Option Char
  | .char c => some c
  | .loneSurrogate _ => none

/-- The text of a string, unless a lone surrogate is in it. -/
def Str.text? (s : Str) : Option String := (s.mapM Piece.char?).map String.ofList

inductive Value where
  | null
  | bool (b : Bool)
  | number (n : Decimal.Numeral)
  | string (s : Str)
  | array (elements : List Value)
  | object (members : List (Str × Value))

namespace Value

def ofString (s : String) : Value := .string (.ofString s)

def ofNat (n : Nat) : Value := .number (.ofNat n)

def ofList {β : Type} (f : β → Value) (xs : List β) : Value := .array (xs.map f)

/-- An object with the given members, in this order. -/
def ofMembers (ms : List (String × Value)) : Value :=
  .object (ms.map fun (k, v) => (.ofString k, v))

end Value

end FeatureGraph.Json
