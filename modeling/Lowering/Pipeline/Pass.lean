import Lowering.Diagnostic.Basic
import Lowering.Log
import Lowering.Tree.Decl
import Lowering.Type.Table

/-!
# Passes

A pass turns one compilation unit into another. While it runs it may report
diagnostics, write log entries, store types and take identities for new
variables; all of this is kept in the pass context, also when the pass fails.
-/

namespace Lowering

/-- A unit that breaks an invariant of the tree: an earlier stage is at fault. -/
structure Inconsistency where
  pass : String
  message : String
  span : Span
  deriving DecidableEq

/-- The report of an inconsistency. -/
def Inconsistency.display (i : Inconsistency) : String :=
  "Internal consistency error in pass '" ++ i.pass ++ "' at " ++ i.span.display ++ ": " ++ i.message

/-- Why a pass ended without a unit. -/
inductive PassError where
  | inconsistent (cause : Inconsistency)
  /-- The pass broke down without a report. -/
  | crash
  deriving DecidableEq

/-- What passes over one unit share. -/
structure PassContext where
  unitName : String
  types : TypeTable := .standard
  problems : Problems := {}
  supply : Supply
  log : List LogEntry := []

/-- Computations in a pass. -/
abbrev PassM := ExceptT PassError (StateM PassContext)

/-- Appends an entry to the log. -/
def PassM.note (level : LogLevel) (text : String) : PassM Unit :=
  modify fun context => { context with log := context.log ++ [{ level, text }] }

/-- A named step over compilation units. -/
structure Pass where
  name : String
  apply : CompilationUnit → PassM CompilationUnit

end Lowering
