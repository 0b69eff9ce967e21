import Lowering.Tree.Span

/-!
# Diagnostics

A diagnostic is a message to the user about the program, with a severity, the
place it concerns and a code. `Problems` collects the diagnostics of one unit in
the order in which they were reported. Diagnostics never stop a compilation.
-/

namespace Lowering

inductive Severity where
  | error
  | warning
  | note
  deriving DecidableEq

/-- A message to the user. -/
structure Diagnostic where
  severity : Severity
  message : String
  span : Option Span := none
  code : Option String := none
  deriving DecidableEq

namespace Diagnostic

/-- The code of the warning about an assertion that always fails. -/
def nullAsserted : String := "W4001"

/-- The marked part of a source file in a rendered diagnostic. -/
structure Label where
  file : Nat
  start : UInt64
  stop : UInt64
  message : String := ""
  deriving DecidableEq

/-- A diagnostic in the form that a renderer of source excerpts takes. -/
structure Excerpt where
  severity : Severity
  code : Option String
  message : String
  labels : List Label
  notes : List String := []
  deriving DecidableEq

/-- The diagnostic for a renderer, with its place marked in the given file. -/
def toExcerpt (d : Diagnostic) (file : Nat) : Excerpt :=
  { severity := d.severity
    code := d.code
    message := d.message
    labels := d.span.toList.map fun span => { file, start := span.start, stop := span.stop } }

end Diagnostic

/-- The diagnostics of one unit, oldest first. -/
structure Problems where
  diagnostics : List Diagnostic := []
  deriving DecidableEq

namespace Problems

/-- Adds a diagnostic at the end. -/
def report (p : Problems) (d : Diagnostic) : Problems :=
  { diagnostics := p.diagnostics ++ [d] }

/-- Adds a warning with a place and a code. -/
def warn (p : Problems) (span : Span) (code message : String) : Problems :=
  p.report { severity := .warning, message, span := some span, code := some code }

/-- Adds an error with a place and a code. -/
def fail (p : Problems) (span : Span) (code message : String) : Problems :=
  p.report { severity := .error, message, span := some span, code := some code }

/-- Adds all diagnostics of another collection. -/
def append (p q : Problems) : Problems :=
  { diagnostics := p.diagnostics ++ q.diagnostics }

/-- The number of diagnostics of one severity. -/
def count (p : Problems) (severity : Severity) : Nat :=
  p.diagnostics.countP (·.severity == severity)

def errorCount (p : Problems) : Nat := p.count .error

def warningCount (p : Problems) : Nat := p.count .warning

def hasErrors (p : Problems) : Bool := 0 < p.errorCount

def isEmpty (p : Problems) : Bool := p.diagnostics.isEmpty

end Problems

end Lowering
