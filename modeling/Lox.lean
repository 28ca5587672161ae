import Lox.Command.Directory
import Lox.Main
import Lox.Syntax.Nodes
import Lox.Proofs.Resolution
import Lox.Proofs.Regular
import Lox.Proofs.Conduct
import Lox.Proofs.Spelling
import Lox.Proofs.Placement
import Lox.Proofs.Heap
import Lox.Proofs.Agreement
import Lox.Proofs.Audit
import Lox.Proofs.Soundness
import Lox.Proofs.Correspondence
import Lox.Proofs.Simulation
import Lox.Proofs.Refinement
import Lox.Proofs.Erasure
import Lox.Proofs.Equivalence
import Lox.Proofs.Refusal
import Lox.Proofs.Lines
import Lox.Proofs.Precedence
import Lox.Proofs.RoundTrip
import Lox.Proofs.Lexemes
import Lox.Proofs.Tiling
import Lox.Proofs.Invariance
import Lox.Proofs.Joining
import Lox.Proofs.Relocation
import Lox.Proofs.Splitting
import Lox.Proofs.Violations
import Lox.Proofs.Restoration
import Lox.Proofs.Omission
import Lox.Proofs.Parallel
import Lox.Proofs.Homes
import Lox.Proofs.Receivers
import Lox.Proofs.Aliases
import Lox.Proofs.Renewal
import Lox.Proofs.Conversion
import Lox.Proofs.Declarations
import Lox.Proofs.Headroom
import Lox.Proofs.Tracing
import Lox.Proofs.ExitCodes
import Lox.Proofs.Indentation
import Lox.Proofs.BareExpressions
import Lox.Proofs.Resumption
import Lox.Proofs.Initialization
import Lox.Proofs.Desugaring
import Lox.Proofs.Relexing
import Lox.Proofs.Balance
import Lox.Proofs.Exchanges
import Lox.Proofs.Escape
import Lox.Proofs.Pruning
import Lox.Proofs.Twins
import Lox.Proofs.Returns
import Lox.Proofs.Rounding
import Lox.Proofs.Decimals
import Lox.Proofs.Numerals
import Lox.Proofs.Doubles
import Lox.Proofs.Formatting
import Lox.Proofs.Rereading
import Lox.Proofs.Outlines
import Lox.Proofs.Wording
import Lox.Proofs.Listings
import Lox.Proofs.Quotations
import Lox.Proofs.Forests
import Lox.Proofs.Patrol
import Lox.Proofs.Portions
