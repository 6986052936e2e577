import ClassFile.Main
import ClassFile.Proofs.Code.Decoding
import ClassFile.Proofs.Code.FramePlaces
import ClassFile.Proofs.Code.Visits
import ClassFile.Proofs.Pool.Reachable
import ClassFile.Proofs.Class.Finished
import ClassFile.Proofs.Class.Rejected
import ClassFile.Proofs.Class.Reencoding
import ClassFile.Proofs.Widening.Rereading
import ClassFile.Proofs.Frame.LeastUpper
import ClassFile.Proofs.Code.Exceptions
import ClassFile.Proofs.Code.Allocations
import ClassFile.Proofs.Frame.Effects
import ClassFile.Proofs.Frame.Sites
import ClassFile.Proofs.Code.RecordedFrames
import ClassFile.Proofs.Code.Overflow
import ClassFile.Proofs.Code.Supplying
import ClassFile.Proofs.Code.Unreachable
import ClassFile.Proofs.Hierarchy.Unending
import ClassFile.Proofs.Hierarchy.Closest
import ClassFile.Proofs.Pool.Values
import ClassFile.Proofs.Pool.Reuse
import ClassFile.Proofs.Class.Texts
import ClassFile.Proofs.Frame.Shapes
import ClassFile.Proofs.Code.ExactLimits
import ClassFile.Proofs.Code.ReadingBack
import ClassFile.Proofs.Frame.Stopping
import ClassFile.Proofs.Graph.Linking
import ClassFile.Proofs.Code.FreshLabels
import ClassFile.Proofs.Grammar
import ClassFile.Proofs.Frame.Halves
import ClassFile.Proofs.Frame.Moments
import ClassFile.Proofs.Code.References
import ClassFile.Proofs.Code.SwitchKeys
import ClassFile.Proofs.Pool.FullTables
import ClassFile.Proofs.Class.Capacity
import ClassFile.Proofs.Code.AcceptedCode
import ClassFile.Proofs.Code.Widths
import ClassFile.Proofs.SlotEdits
