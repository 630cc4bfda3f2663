import FeatureGraph.Json.Value

/-!
# Writing JSON

The compact text of a value: no blanks, and only the escapes that the format
demands, with short forms where they exist.
-/

namespace FeatureGraph.Json

/-- The hexadecimal digit of a number below sixteen, in lower case. -/
def hexDigit (n : Nat) : Char :=
  if n < 10 then Char.ofNat ('0'.toNat + n) else Char.ofNat ('a'.toNat + (n - 10))

/-- A code unit as an escape of four digits. -/
def unitEscape (n : Nat) : List Char :=
  ['\\', 'u', hexDigit (n / 4096 % 16), hexDigit (n / 256 % 16), hexDigit (n / 16 % 16),
    hexDigit (n % 16)]

/-- The written form of one element of a string. -/
def Piece.write : Piece → List Char
  | .loneSurrogate n => unitEscape n
  | .char c =>
    if c = '"' then ['\\', '"']
    else if c = '\\' then ['\\', '\\']
    else if c = '\x08' then ['\\', 'b']
    else if c = '\x0c' then ['\\', 'f']
    else if c = '\n' then ['\\', 'n']
    else if c = '\r' then ['\\', 'r']
    else if c = '\t' then ['\\', 't']
    else if c.toNat < 32 then unitEscape c.toNat
    else [c]

def Str.write (s : Str) : List Char := '"' :: (s.flatMap Piece.write ++ ['"'])

mutual

def Value.toList : Value → List Char
  | .null => ['n', 'u', 'l', 'l']
  | .bool true => ['t', 'r', 'u', 'e']
  | .bool false => ['f', 'a', 'l', 's', 'e']
  | .number n => n.toList
  | .string s => s.write
  | .array vs => '[' :: (Value.elementsToList vs ++ [']'])
  | .object ms => '\x7b' :: (Value.membersToList ms ++ ['\x7d'])

/-- Elements with commas between them. -/
def Value.elementsToList : List Value → List Char
  | [] => []
  | [v] => v.toList
  | v :: vs => v.toList ++ ',' :: Value.elementsToList vs

/-- Members with commas between them. -/
def Value.membersToList : List (Str × Value) → List Char
  | [] => []
  | [(k, v)] => k.write ++ ':' :: v.toList
  | (k, v) :: ms => k.write ++ ':' :: (v.toList ++ ',' :: Value.membersToList ms)

end

def Value.text (v : Value) : String := String.ofList v.toList

end FeatureGraph.Json
