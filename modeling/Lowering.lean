import Lowering.Type.Table
import Lowering.Tree.Walk
import Lowering.Diagnostic.Record
import Lowering.Layout.Registry
import Lowering.Layout.Description
import Lowering.Settings.Reader
import Lowering.Exchange.Reader
import Lowering.Exchange.Writer
import Lowering.Proofs.Conversion.Calls
import Lowering.Proofs.Layout.Overloads
import Lowering.Proofs.Layout.Session
import Lowering.Proofs.NullSafety.Effects
import Lowering.Proofs.NullSafety.Meaning
import Lowering.Proofs.NullSafety.Rerun
import Lowering.Proofs.Pipeline.Default
import Lowering.Interleaving
import Lowering.Type.Session
import Lowering.Pipeline.Workers
import Lowering.Proofs.Pipeline.Failures
import Lowering.Proofs.Type.Sharing
import Lowering.Proofs.Pipeline.Crew
import Lowering.Proofs.Pipeline.Workers
import Lowering.Proofs.Shape.Visits
import Lowering.Proofs.Shape.WellShaped
import Lowering.Proofs.Pipeline.Layouts
import Lowering.Proofs.Member.Symbol
import Lowering.Layout.Threads
import Lowering.Proofs.Layout.Shelf
import Lowering.Proofs.Layout.Sharing
import Lowering.Proofs.Tree.Firing
import Lowering.Proofs.Tree.Walking
import Lowering.Proofs.Layout.Overriding
import Lowering.Proofs.NullSafety.Defaulting
import Lowering.Proofs.Conversion.Unchanged
import Lowering.Proofs.NullSafety.Concatenation
import Lowering.Proofs.Conversion.StaticType
import Lowering.Proofs.Tree.Idempotence
import Lowering.Proofs.Tree.Identity
import Lowering.Proofs.NullSafety.Arithmetic
