import Lowering.Interleaving
import Lowering.Type.Table

/-!
# Threads that share a type table

Several threads may ask one table for types. A request first looks the type up,
while other threads may do the same. If the table has no copy, the thread asks for
the table to itself and then looks again: another thread may have stored the type
in the meantime, and its copy is the one to return. Only a type that is still
missing is stored.

Between the two looks any number of other threads may move. A `TypeSession` is the
table, the threads that are between their two looks, and what has been returned.
-/

namespace Lowering

/-- What a thread asks a table for. -/
inductive TypeRequest where
  | intern (t : Ty)
  | classNamed (qualifiedName : String)
  | primitive (primitive : Primitive)
  | nullable (t : Ty)
  | nonNullable (t : Ty)
  deriving DecidableEq

namespace TypeRequest

/-- The type that is looked up. -/
def type : TypeRequest → Ty
  | intern t => t
  | classNamed qualifiedName => .classNamed qualifiedName
  | primitive p => .prim p
  | nullable t => t.toNullable
  | nonNullable t => t.toNonNullable

/-- What a table that serves only this request does. -/
def serve (table : TypeTable) : TypeRequest → StoredType × TypeTable
  | intern t => table.intern t
  | classNamed qualifiedName => table.internClass qualifiedName
  | primitive p => table.internPrimitive p
  | nullable t => table.internNullable t
  | nonNullable t => table.internNonNullable t

end TypeRequest

/-- A request and the copy returned for it. -/
structure TypeAnswer where
  request : TypeRequest
  stored : StoredType
  deriving DecidableEq

/-- A table in use by several threads, which are told apart by numbers. -/
structure TypeSession where
  table : TypeTable
  /-- The requests that have found no copy and wait to have the table to
  themselves, by thread. -/
  waiting : Nat → Option TypeRequest := fun _ => none
  /-- What has been returned so far, oldest first. -/
  answers : List TypeAnswer := []

/-- What a thread does when it moves. -/
inductive TypeTurn where
  /-- Makes a request and looks its type up beside other readers. -/
  | lookUp (thread : Nat) (request : TypeRequest)
  /-- Looks again with the table to itself, and stores what is still missing. -/
  | store (thread : Nat)

namespace TypeSession

/-- The requests that wait after one of them is put down or taken away. -/
def waitingWith (session : TypeSession) (thread : Nat) (request : Option TypeRequest) :
    Nat → Option TypeRequest :=
  fun other => if other = thread then request else session.waiting other

/-- The session after a turn. A thread that waits makes no other request, and one
that does not wait has nothing to store. -/
def step (session : TypeSession) : TypeTurn → Option TypeSession
  | .lookUp thread request =>
    match session.waiting thread with
    | some _ => none
    | none =>
      match session.table.find? request.type with
      | some stored => some { session with answers := session.answers ++ [{ request, stored }] }
      | none => some { session with waiting := session.waitingWith thread (some request) }
  | .store thread =>
    match session.waiting thread with
    | none => none
    | some request =>
      let (stored, table) := request.serve session.table
      some
        { table
          waiting := session.waitingWith thread none
          answers := session.answers ++ [{ request, stored }] }

end TypeSession

end Lowering
