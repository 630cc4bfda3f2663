import FeatureGraph.Json.Value

/-!
# Reading JSON

A text is a value between blanks, and nothing else.  Blanks are the space, the
tab, the line feed and the carriage return.  Control characters are refused
inside of strings, and an escape of a code unit takes four hexadecimal digits.

The reader descends with an explicit bound on its steps; `Value.read?` gives it
more than a text of the given length can use.
-/

namespace FeatureGraph.Json

def isBlank (c : Char) : Bool := c == ' ' || c == '\n' || c == '\t' || c == '\r'

def skipBlanks (cs : List Char) : List Char := cs.dropWhile isBlank

/-- What follows a word at the front of a text. -/
def afterWord? : List Char → List Char → Option (List Char)
  | [], cs => some cs
  | w :: ws, c :: cs => if w = c then afterWord? ws cs else none
  | _ :: _, [] => none

def hexValue? (c : Char) : Option Nat :=
  if '0' ≤ c ∧ c ≤ '9' then some (c.toNat - '0'.toNat)
  else if 'a' ≤ c ∧ c ≤ 'f' then some (c.toNat - 'a'.toNat + 10)
  else if 'A' ≤ c ∧ c ≤ 'F' then some (c.toNat - 'A'.toNat + 10)
  else none

/-- The code unit that four hexadecimal digits spell. -/
def readUnit? (a b c d : Char) : Option Nat := do
  let a ← hexValue? a
  let b ← hexValue? b
  let c ← hexValue? c
  let d ← hexValue? d
  return ((a * 16 + b) * 16 + c) * 16 + d

/-- The character of an escape of two characters. -/
def shortEscape? (c : Char) : Option Char :=
  if c = '"' then some '"'
  else if c = '\\' then some '\\'
  else if c = '/' then some '/'
  else if c = 'b' then some '\x08'
  else if c = 'f' then some '\x0c'
  else if c = 'n' then some '\n'
  else if c = 'r' then some '\r'
  else if c = 't' then some '\t'
  else none

/-- A character as it stands in a string, or an escaped code unit. -/
inductive Written where
  | char (c : Char)
  | unit (n : Nat)

/-- The elements of a string up to its closing quote, and what follows it. -/
def readWritten? : List Char → Option (List Written × List Char)
  | [] => none
  | '"' :: rest => some ([], rest)
  | '\\' :: 'u' :: a :: b :: c :: d :: rest => do
    let n ← readUnit? a b c d
    let (ws, rest) ← readWritten? rest
    return (.unit n :: ws, rest)
  | '\\' :: c :: rest => do
    let c ← shortEscape? c
    let (ws, rest) ← readWritten? rest
    return (.char c :: ws, rest)
  | c :: rest =>
    if c.toNat < 32 ∨ c = '\\' then none
    else do
      let (ws, rest) ← readWritten? rest
      return (.char c :: ws, rest)

def isHighSurrogate (n : Nat) : Bool := 0xD800 ≤ n && n < 0xDC00

def isLowSurrogate (n : Nat) : Bool := 0xDC00 ≤ n && n < 0xE000

/-- The element that a single code unit stands for. -/
def Piece.ofUnit (n : Nat) : Piece :=
  if isHighSurrogate n || isLowSurrogate n then .loneSurrogate n else .char (Char.ofNat n)

/-- Joins the two halves of surrogate pairs. -/
def joinSurrogates : List Written → Str
  | [] => []
  | .unit h :: .unit l :: ws =>
    if isHighSurrogate h && isLowSurrogate l then
      .char (Char.ofNat (0x10000 + (h - 0xD800) * 0x400 + (l - 0xDC00))) :: joinSurrogates ws
    else .ofUnit h :: joinSurrogates (.unit l :: ws)
  | .unit n :: ws => .ofUnit n :: joinSurrogates ws
  | .char c :: ws => .char c :: joinSurrogates ws

/-- The contents of a string whose opening quote has been read. -/
def readStr? (cs : List Char) : Option (Str × List Char) :=
  (readWritten? cs).map fun (ws, rest) => (joinSurrogates ws, rest)

mutual

/-- The value at the front of a text, blanks before it skipped. -/
def readValue? : Nat → List Char → Option (Value × List Char)
  | 0, _ => none
  | fuel + 1, cs =>
    match skipBlanks cs with
    | 'n' :: rest => (afterWord? ['u', 'l', 'l'] rest).map (.null, ·)
    | 't' :: rest => (afterWord? ['r', 'u', 'e'] rest).map (.bool true, ·)
    | 'f' :: rest => (afterWord? ['a', 'l', 's', 'e'] rest).map (.bool false, ·)
    | '"' :: rest => (readStr? rest).map fun (s, rest) => (.string s, rest)
    | '[' :: rest =>
      match skipBlanks rest with
      | ']' :: rest => some (.array [], rest)
      | rest => (readElements? fuel rest).map fun (vs, rest) => (.array vs, rest)
    | '\x7b' :: rest =>
      match skipBlanks rest with
      | '\x7d' :: rest => some (.object [], rest)
      | rest => (readMembers? fuel rest).map fun (ms, rest) => (.object ms, rest)
    | cs => (Decimal.Numeral.read? cs).map fun (n, rest) => (.number n, rest)

/-- The elements of an array up to its closing bracket, at least one. -/
def readElements? : Nat → List Char → Option (List Value × List Char)
  | 0, _ => none
  | fuel + 1, cs => do
    let (v, rest) ← readValue? fuel cs
    match skipBlanks rest with
    | ']' :: rest => return ([v], rest)
    | ',' :: rest =>
      let (vs, rest) ← readElements? fuel rest
      return (v :: vs, rest)
    | _ => none

/-- The members of an object up to its closing brace, at least one. -/
def readMembers? : Nat → List Char → Option (List (Str × Value) × List Char)
  | 0, _ => none
  | fuel + 1, cs =>
    match skipBlanks cs with
    | '"' :: rest => do
      let (k, rest) ← readStr? rest
      match skipBlanks rest with
      | ':' :: rest =>
        let (v, rest) ← readValue? fuel rest
        match skipBlanks rest with
        | '\x7d' :: rest => return ([(k, v)], rest)
        | ',' :: rest =>
          let (ms, rest) ← readMembers? fuel rest
          return ((k, v) :: ms, rest)
        | _ => none
      | _ => none
    | _ => none

end

/-- The value of a text. -/
def Value.read? (text : String) : Option Value := do
  let cs := text.toList
  let (v, rest) ← readValue? (2 * cs.length + 2) cs
  if (skipBlanks rest).isEmpty then some v else none

end FeatureGraph.Json
