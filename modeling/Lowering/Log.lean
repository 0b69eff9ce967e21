/-!
# Log entries

What the library tells about its own progress. Entries are values; whoever runs
the library decides what becomes of them.
-/

namespace Lowering

inductive LogLevel where
  | debug
  | trace
  deriving DecidableEq

def LogLevel.display : LogLevel → String
  | debug => "DEBUG"
  | trace => "TRACE"

/-- One line of the log. -/
structure LogEntry where
  level : LogLevel
  text : String
  deriving DecidableEq

/-- The entry as one line, its level first. -/
def LogEntry.display (entry : LogEntry) : String :=
  entry.level.display ++ " " ++ entry.text

/-- A result together with the log entries written on the way to it. -/
structure Logged (α : Type) where
  result : α
  log : List LogEntry

end Lowering
