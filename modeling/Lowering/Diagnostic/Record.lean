import Lowering.Diagnostic.Basic
import Lowering.Text.Json.Reader

/-!
# Diagnostics for tools

A diagnostic record is what other tools get to see of a diagnostic: its code,
severity and message, and the line and column where its place begins. Records are
written as JSON and read back from it.
-/

namespace Lowering

namespace Severity

/-- The name of a severity in a record. -/
def name : Severity → String
  | error => "error"
  | warning => "warning"
  | note => "note"

/-- The severity of the given name. -/
def ofName? : String → Option Severity
  | "error" => some error
  | "warning" => some warning
  | "note" => some note
  | _ => none

@[simp]
theorem ofName?_name (s : Severity) : ofName? s.name = some s := by
  cases s <;> rfl

/-- The severity that a JSON value names: a text, or an object whose only member
has that name and no content. -/
def ofJson? : Json → Option Severity
  | .string text => ofName? text
  | .object [(text, .null)] => ofName? text
  | _ => none

end Severity

/-- What tools get to see of a diagnostic. -/
structure DiagnosticRecord where
  code : Option String
  severity : Severity
  message : String
  line : Option UInt32
  column : Option UInt32
  deriving DecidableEq

/-- The record of a diagnostic. -/
def Diagnostic.toRecord (d : Diagnostic) : DiagnosticRecord :=
  { code := d.code
    severity := d.severity
    message := d.message
    line := d.span.map (·.line)
    column := d.span.map (·.column) }

namespace DiagnosticRecord

/-- The record as a JSON object; what is absent is `null`. -/
def toJson (r : DiagnosticRecord) : Json :=
  .object
    [("code", .ofText? r.code),
     ("severity", .string r.severity.name),
     ("message", .string r.message),
     ("line", .ofNat? (r.line.map (·.toNat))),
     ("column", .ofNat? (r.column.map (·.toNat)))]

/-- The names of the fields in order. -/
def fieldNames : List String := ["code", "severity", "message", "line", "column"]

/-- The record that a JSON value describes. Code, line and column may be missing. -/
def ofJson? (json : Json) : Option DiagnosticRecord := do
  match ← json.fields? fieldNames with
  | [code, severity, message, line, column] =>
    let code ← Json.absentOr Json.text? code
    let severity ← severity.bind Severity.ofJson?
    let message ← message.bind Json.text?
    let line ← Json.absentOr Json.word32? line
    let column ← Json.absentOr Json.word32? column
    pure { code, severity, message, line, column }
  | _ => none

/-- The record in a text. -/
def parse? (text : String) : Option DiagnosticRecord := do
  let json ← Json.parse? text
  ofJson? json

end DiagnosticRecord

end Lowering
