import Lowering.Conversion.Traversal
import Lowering.Diagnostic.Basic

/-!
# Null safety of single expressions

Two changes make the value of an expression non-null. `assertNonNull` wraps it
in an assertion, which fails on null. `withDefault` puts a default in the place
of null. Both leave an expression alone whose value is known to be non-null.
-/

namespace Lowering

/-- Whether the value is statically known to be non-null. Wildcards and captures
that are annotated non-nullable do not count, because consumers of the lowered
program treat their values as nullable. -/
def Expr.isKnownNonNull (e : Expr) : Bool :=
  !e.canBeNull && !e.type.isNonNullWildcard

/-- The message of the warning about an assertion that always fails. -/
def nullAssertedMessage : String := "Non-null assertion applied to null."

/-- The expression under an assertion, unless it is known to be non-null. An
assertion of the literal `null` is made too, with a warning at the site. -/
def assertNonNull (e : Expr) (site : Site) (problems : Problems) : Expr × Problems :=
  if e.isKnownNonNull then (e, problems)
  else if e.isNullLiteral then
    (.notNull e, problems.warn site.span Diagnostic.nullAsserted nullAssertedMessage)
  else (.notNull e, problems)

/-- `e == null ? fallback : e`, of the given type. -/
def nullChoice (type : Ty) (e fallback : Expr) : Expr :=
  .conditional type e.equalsNull fallback e

/-- The name of the temporaries that hold a value which may be replaced. -/
def defaultedTemporary : String := "tmp"

/-- The value of the expression, or that of the fallback where it is null. An
expression with effects is evaluated once, into a final temporary. -/
def withDefault (e fallback : Expr) (type : Ty) (supply : Supply) : Expr × Supply :=
  if e.isKnownNonNull then (e, supply)
  else if e.isNullLiteral then (fallback, supply)
  else if e.isIdempotent then (.multi [nullChoice type e fallback], supply)
  else
    let (temporary, supply) := supply.fresh defaultedTemporary e.type
    (.multi [.declareOne temporary (some e), nullChoice type (.varRef temporary) fallback], supply)

end Lowering
