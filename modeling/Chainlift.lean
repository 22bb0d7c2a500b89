import Chainlift.Main
import Chainlift.File.Tree
import Chainlift.Proofs.Choice
import Chainlift.Proofs.Coalescing
import Chainlift.Proofs.Exact
import Chainlift.Proofs.Merging
import Chainlift.Proofs.Locality
import Chainlift.Proofs.Negation
import Chainlift.Proofs.Progress
import Chainlift.Proofs.Protection
import Chainlift.Proofs.Closed
import Chainlift.Proofs.ClosedPrograms
import Chainlift.Proofs.Tallies
import Chainlift.Proofs.Comparisons
import Chainlift.Proofs.Lowering
import Chainlift.Proofs.Expansion
import Chainlift.Proofs.Converged
import Chainlift.Proofs.Pairs
import Chainlift.Proofs.StrictRows
import Chainlift.Proofs.Deletion
import Chainlift.Proofs.Nesting
import Chainlift.Proofs.Unwrapping
import Chainlift.Proofs.Invocations
import Chainlift.Proofs.Calls
import Chainlift.Proofs.Receivers
import Chainlift.Proofs.Leaves
import Chainlift.Proofs.Outputs
import Chainlift.Proofs.Sites
import Chainlift.Proofs.Temporaries
import Chainlift.Proofs.Counting
import Chainlift.Proofs.Accounts
