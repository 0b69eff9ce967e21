/-!
# Source positions

A span is a range of byte offsets together with the line and column at which it
starts. Declarations and statements carry spans; expressions do not.
-/

namespace Lowering

/-- A source range and the position where it begins. -/
structure Span where
  start : UInt64 := 0
  stop : UInt64 := 0
  line : UInt32 := 0
  column : UInt32 := 0
  deriving DecidableEq, Inhabited

namespace Span

/-- The number of bytes in the range; a range that stops before it starts has
no length. -/
def length? (s : Span) : Option UInt64 :=
  if s.stop < s.start then none else some (s.stop - s.start)

def isEmpty (s : Span) : Bool :=
  s.start == s.stop

/-- The smallest range around both, at the least line and the least column. -/
def merge (s t : Span) : Span :=
  { start := min s.start t.start
    stop := max s.stop t.stop
    line := min s.line t.line
    column := min s.column t.column }

/-- The position as shown to users. -/
def display (s : Span) : String :=
  toString s.line.toNat ++ ":" ++ toString s.column.toNat

end Span

end Lowering
