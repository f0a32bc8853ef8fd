import Arbor.Main
import Arbor.Token.Listing
import Arbor.Proofs.Stateful
import Arbor.Proofs.Program.Formed
import Arbor.Proofs.Operator
import Arbor.Proofs.Scope.Effect
import Arbor.Proofs.Scope.Yields
import Arbor.Proofs.Scope.Visit
import Arbor.Proofs.Scope.Registers
import Arbor.Proofs.Scope.Orderly
import Arbor.Proofs.Execution.Moment
import Arbor.Proofs.Execution.Names
import Arbor.Proofs.Execution.Standing
import Arbor.Proofs.Execution.Jumps
import Arbor.Proofs.Execution.Sane
import Arbor.Proofs.Execution.References
import Arbor.Proofs.Execution.Lockstep
import Arbor.Proofs.Grammar.Formed
import Arbor.Proofs.Session.Moments
import Arbor.Proofs.Session.References
import Arbor.Proofs.Execution.Taken
import Arbor.Proofs.Session.Jumps
import Arbor.Proofs.Grammar.Derivation
import Arbor.Proofs.Grammar.Soundness
import Arbor.Proofs.Grammar.Completeness
import Arbor.Proofs.Grammar.Acceptance
import Arbor.Proofs.Parallel
import Arbor.Proofs.Execution.Closed
import Arbor.Proofs.Execution.Unobserved
import Arbor.Proofs.Scope.Closed
import Arbor.Proofs.Scope.Reported
import Arbor.Proofs.Scope.Resumed
import Arbor.Proofs.Session.Reports
import Arbor.Proofs.Session.Split
import Arbor.Proofs.Program.Unresolved
import Arbor.Proofs.Tree.RoundTrip
import Arbor.Proofs.Command.Emitted
import Arbor.Proofs.Execution.Marking
import Arbor.Proofs.Execution.Renaming
import Arbor.Proofs.Grammar.Kinds
import Arbor.Proofs.Scope.Distinct
import Arbor.Proofs.Scope.Renaming
import Arbor.Proofs.Program.Places
import Arbor.Proofs.Session.Traces
import Arbor.Proofs.Token.Munch
import Arbor.Proofs.Grammar.Respelling
import Arbor.Proofs.Scope.Placed
import Arbor.Proofs.Session.Renaming
import Arbor.Proofs.Session.Scoping
import Arbor.Proofs.Program.Relined
import Arbor.Proofs.Grammar.Locality
import Arbor.Proofs.Grammar.LocalStatements
import Arbor.Proofs.Token.Concatenation
import Arbor.Proofs.Grammar.Concatenation
import Arbor.Proofs.Tree.Normal
import Arbor.Proofs.Scope.Derived
import Arbor.Proofs.Execution.Lasting
import Arbor.Proofs.Execution.Keywords
import Arbor.Proofs.Session.Keywords
import Arbor.Proofs.Grammar.ForLoop
import Arbor.Proofs.Grammar.Plan
import Arbor.Proofs.Grammar.Cursor
import Arbor.Proofs.Tree.Slots
import Arbor.Proofs.Execution.Formed
import Arbor.Proofs.Execution.Sturdy
import Arbor.Proofs.Session.Formed
import Arbor.Proofs.Execution.Confined
import Arbor.Proofs.Session.Confined
import Arbor.Proofs.Frames.Chain
import Arbor.Proofs.Frames.Access
import Arbor.Proofs.Token.Rescan
import Arbor.Proofs.Number.Rounding
import Arbor.Proofs.Number.ReadBack
import Arbor.Proofs.Number.Bits
import Arbor.Proofs.Number.Numeral
import Arbor.Proofs.Number.Notation
import Arbor.Proofs.Number.Printed
import Arbor.Proofs.Class
import Arbor.Proofs.Execution.Ledger
import Arbor.Proofs.Execution.Recorded
import Arbor.Proofs.Execution.Parameters
import Arbor.Proofs.Session.Chains
import Arbor.Proofs.Session.Readings
import Arbor.Proofs.Number.Nearest
