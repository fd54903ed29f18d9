import Stubwright.Main
import Stubwright.Proofs.Requalify.Denotation
import Stubwright.Proofs.Normalise.Ending
import Stubwright.Proofs.Selector.Hiding
import Stubwright.Proofs.Implement.Hygiene
import Stubwright.Proofs.Internal
import Stubwright.Proofs.Expansion.Cycles
import Stubwright.Proofs.Loading
import Stubwright.Proofs.Stub.Appending
import Stubwright.Proofs.Length.Declaration
import Stubwright.Proofs.Seam
import Stubwright.Proofs.Spacing
import Stubwright.Proofs.Build.Constraint
import Stubwright.Proofs.Build.Header
import Stubwright.Proofs.ModFile
