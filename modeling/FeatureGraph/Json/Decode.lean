import FeatureGraph.Json.Value
import FeatureGraph.Decimal.Scalar

/-!
# Decoding JSON values

What a document means beyond its syntax: which values stand for a number, a
record or an alternative.

A record is an object or an array.  In an object the order of members is free,
unknown members are skipped, and a known one must not occur twice.  In an array
the fields stand in their order and only fields at the end may be missing.
-/

namespace FeatureGraph.Json.Value

def text? : Value → Option String
  | .string s => s.text?
  | _ => none

def bool? : Value → Option Bool
  | .bool b => some b
  | _ => none

/-- A natural number below a limit, written without a point, an exponent or a sign. -/
def natBelow? (limit : Nat) : Value → Option Nat
  | .number n =>
    if n.isWhole && !n.negative && decide (n.significand < limit) then some n.significand else none
  | _ => none

/-- An unsigned number of 32 bits. -/
def word32? : Value → Option Nat := natBelow? (1 <<< 32)

/-- An unsigned number of 64 bits. -/
def word64? : Value → Option Nat := natBelow? (1 <<< 64)

/-- The scalar nearest to the reading of a number. -/
def scalar? {α : Type} [DecimalText α] : Value → Option α
  | .number n => DecimalText.nearest? n.negative n.reading.1 n.reading.2
  | _ => none

def list? {β : Type} (element? : Value → Option β) : Value → Option (List β)
  | .array vs => vs.mapM element?
  | _ => none

def pair? {β γ : Type} (first? : Value → Option β) (second? : Value → Option γ) :
    Value → Option (β × γ)
  | .array [a, b] => do return (← first? a, ← second? b)
  | _ => none

/-- A value, or null for none. -/
def nullable? {β : Type} (some? : Value → Option β) : Value → Option (Option β)
  | .null => some none
  | v => (some? v).map some

/-- The member of the given name; it must not occur twice. -/
def uniqueMember? (ms : List (String × Value)) (name : String) : Option (Option Value) :=
  match ms.filter (·.1 == name) with
  | [] => some none
  | [(_, v)] => some (some v)
  | _ => none

/-- The fields of a record, listed as in `names`. -/
def fields? (names : List String) : Value → Option (List (Option Value))
  | .array vs =>
    if vs.length ≤ names.length then
      some (vs.map some ++ List.replicate (names.length - vs.length) none)
    else none
  | .object ms => do
    let named ← ms.mapM fun (k, v) => k.text?.map (·, v)
    names.mapM (uniqueMember? named)
  | _ => none

/-- A field that must be there. -/
def required? {β : Type} (read? : Value → Option β) : Option Value → Option β
  | some v => read? v
  | none => none

/-- A field that has a default. -/
def orDefault? {β : Type} (read? : Value → Option β) (byDefault : β) : Option Value → Option β
  | some v => read? v
  | none => some byDefault

/-- The name of an alternative and its payload.  A name alone has no payload. -/
def alternative? : Value → Option (String × Option Value)
  | .string s => s.text?.map (·, none)
  | .object [(k, v)] => k.text?.map (·, some v)
  | _ => none

/-- Whether a payload is that of an alternative without contents. -/
def isEmptyPayload : Option Value → Bool
  | none => true
  | some .null => true
  | some _ => false

/-- An alternative without contents, looked up by its name. -/
def named? {β : Type} (find? : String → Option β) (v : Value) : Option β := do
  let (name, payload) ← v.alternative?
  if isEmptyPayload payload then find? name else none

end FeatureGraph.Json.Value
