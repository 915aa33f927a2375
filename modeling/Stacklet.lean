import Stacklet.Main
import Stacklet.Proofs.LexicalScope
import Stacklet.Proofs.Readable
import Stacklet.Proofs.Refinement
import Stacklet.Proofs.Grammar
import Stacklet.Proofs.Blanks
import Stacklet.Proofs.Uncommented
import Stacklet.Proofs.Erasure
import Stacklet.Proofs.Depth
import Stacklet.Proofs.Frames
import Stacklet.Proofs.StackBelow
import Stacklet.Proofs.Failing
import Stacklet.Proofs.Marshalling
import Stacklet.Proofs.Pieces
import Stacklet.Proofs.Output
import Stacklet.Proofs.Input
import Stacklet.Proofs.Session
import Stacklet.Proofs.LiteralGrammar
import Stacklet.Proofs.Segmentation
import Stacklet.Proofs.Entry
import Stacklet.Proofs.FailingWriter
import Stacklet.Proofs.Conservation
import Stacklet.Proofs.ErrorLines
import Stacklet.Proofs.Duration
import Stacklet.Proofs.Lookup
import Stacklet.Proofs.Sequence
import Stacklet.Proofs.GroupShape
import Stacklet.Proofs.Bytes
import Stacklet.Proofs.StackText
