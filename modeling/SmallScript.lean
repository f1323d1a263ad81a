import SmallScript.Main
import SmallScript.Tree.Listing
import SmallScript.Code.Outline
import SmallScript.Proofs.Code.Rewriting
import SmallScript.Proofs.Counting
import SmallScript.Proofs.Elaborated
import SmallScript.Proofs.Filled
import SmallScript.Proofs.Flow.Dot
import SmallScript.Proofs.Flow.WellFormed
import SmallScript.Proofs.Grouping
import SmallScript.Proofs.Immutable
import SmallScript.Proofs.Isolated
import SmallScript.Proofs.Joined
import SmallScript.Proofs.LastValue
import SmallScript.Proofs.Lowering.Refinement
import SmallScript.Proofs.Positions
import SmallScript.Proofs.Prompt.Submissions
import SmallScript.Proofs.Rescanned
import SmallScript.Proofs.Retyped
import SmallScript.Proofs.RoundTrip
import SmallScript.Proofs.Run.Conversion
import SmallScript.Proofs.Run.Halting
import SmallScript.Proofs.Scope.History
import SmallScript.Proofs.Shown
import SmallScript.Proofs.Spans
import SmallScript.Proofs.Tree.Complete
import SmallScript.Proofs.Tree.Finishes
