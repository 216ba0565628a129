import Lineation.Proofs.Reordering
import Lineation.Proofs.Newlines
import Lineation.Proofs.Searching
import Lineation.Proofs.Bounds
import Lineation.Proofs.Texts
