import FeatureGraph.Graph.Audit

/-!
# Events

What the library reports while it works, as data.  `Event.line?` words an event
for a log: its severity, a blank and its text.  `Event.log` words events one after
the other.  Without a log no event is worded, and then it does not matter that some
event has no text.
-/

namespace FeatureGraph

inductive Event (α : Type) where
  /-- The feature with this number, out of a total, is about to be lowered. -/
  | lowering (number total : Nat) (expr : String)
  | lowered (nodes features : Nat)
  | comparing (features : Nat)
  | compared (expr : String) (discrepancy : α)
  /-- A discrepancy above the tolerance, with both columns and the name and the trace
  of the compiled node.  There is no trace if it leads outside of the stored data. -/
  | disagreed (expr : String) (discrepancy tolerance : α) (symbolic compiled : List α)
      (trace : Option (String × List (AuditLine α)))
  | agreed (checked skipped : Nat)
  | selected (features candidates : Nat)
  | activated (nodes : Nat)
  | activityRange (lowest highest : α)
  | outputKind (name : String)
  | fitted (batch : Nat) (initial final : α)
  | diverged (steps : Nat) (loss : α)
deriving DecidableEq, Repr

namespace Event

variable {α : Type}

/-- How much attention an event asks for. -/
def severity : Event α → String
  | lowering .. | compared .. | fitted .. => "DEBUG"
  | lowered .. | comparing .. | agreed .. | selected .. | activated .. | activityRange ..
  | outputKind .. => "INFO"
  | diverged .. => "WARN"
  | disagreed .. => "ERROR"

/-- Scalars in running text have no exponent. -/
def plainLayout : Decimal.Layout := ⟨.up, fun _ => true, false, false⟩

/-- Discrepancies and tolerances always have an exponent. -/
def exponentLayout : Decimal.Layout := ⟨.up, fun _ => false, false, false⟩

/-- Scalars in a listing keep their point; very large and very small ones have an
exponent. -/
def listingLayout : Decimal.Layout :=
  ⟨.up, fun e => decide (-4 ≤ e) && decide (e ≤ 15), true, false⟩

variable [DecimalText α]

/-- A column in brackets. -/
def listing (column : List α) : String :=
  "[" ++ ", ".intercalate (column.map fun v => (DecimalText.exact v).write listingLayout) ++ "]"

/-- Pads a text with blanks on the right. -/
def padRight (width : Nat) (s : String) : String := s ++ "".pushn ' ' (width - s.length)

/-- Pads a text with blanks on the left. -/
def padLeft (width : Nat) (s : String) : String := "".pushn ' ' (width - s.length) ++ s

private def exponent (v : α) : String := (DecimalText.exact v).write exponentLayout

private def signed (places : Nat) (v : α) : String := (DecimalText.exact v).signedScientific places

private def fixed (places : Nat) (v : α) : String := (DecimalText.exact v).fixed places

/-- What is said about a feature on which forest and graph disagree. -/
def disagreementText (expr : String) (discrepancy tolerance : α) (symbolic compiled : List α) :
    String :=
  s!"Translation mismatch at '{expr}' ({exponent discrepancy} > {exponent tolerance})\n" ++
    s!"symbolic: {listing symbolic}\ncompiled: {listing compiled}\n"

/-- The text of an event.  A disagreement without a trace has none. -/
def text? : Event α → Option String
  | lowering number total expr => some s!"Converting node {number}/{total}: {expr}"
  | lowered nodes features =>
    some s!"Created graph with {nodes} nodes from {features} symbolic nodes"
  | comparing features => some s!"Checking compiled graph against {features} symbolic nodes"
  | compared expr discrepancy => some (padRight 40 expr ++ " " ++ signed 7 discrepancy)
  | disagreed expr discrepancy tolerance symbolic compiled trace =>
    trace.map fun (node, lines) =>
      disagreementText expr discrepancy tolerance symbolic compiled ++ traceText node lines
  | agreed checked skipped => some s!"- OK ({checked} checked, {skipped} skipped)"
  | selected features candidates => some s!"Selected {features} / {candidates} output nodes"
  | activated nodes => some s!"Total # active nodes: {nodes}"
  | activityRange lowest highest =>
    some s!"Activity probabilities vary between {fixed 4 lowest} and {fixed 4 highest}"
  | outputKind name => some s!"Output node of type '{name}'"
  | fitted batch initial final =>
    some s!"Batch {padLeft 3 (toString batch)}  loss {signed 4 initial} -> {signed 4 final}"
  | diverged steps loss =>
    some (s!"Objective is not finite after {steps} steps " ++
      s!"({(DecimalText.exact loss).write plainLayout})")

def line? (e : Event α) : Option String := e.text?.map fun text => e.severity ++ " " ++ text

/-- Words events in their order.  An event without a text ends the log, and whoever
wanted it read looked outside of the stored data. -/
def log {ε : Type} : List (Event α) → Outcome ε Unit × List String
  | [] => (.ok (), [])
  | e :: rest =>
    match e.line? with
    | none => (Outcome.outOfRange, [])
    | some line =>
      let (outcome, lines) := log rest
      (outcome, line :: lines)

end Event

end FeatureGraph
