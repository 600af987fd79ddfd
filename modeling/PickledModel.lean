import PickledModel.Loader
import PickledModel.Proofs.Bytes.Lookahead
import PickledModel.Proofs.Json.Equivalence
import PickledModel.Proofs.Metadata.Entries
import PickledModel.Proofs.Model.Visibility
import PickledModel.Proofs.Object.ByteText
import PickledModel.Proofs.Object.StateMerging
import PickledModel.Proofs.Session
import PickledModel.Proofs.Sharing.Refinement
import PickledModel.Proofs.Stream.BoundReferences
import PickledModel.Proofs.Stream.CallForms
import PickledModel.Proofs.Stream.CopiedBytes
import PickledModel.Proofs.Stream.CopyCharges
import PickledModel.Proofs.Stream.DistinctKeys
import PickledModel.Proofs.Stream.Integers
import PickledModel.Proofs.Stream.KeysWithout
import PickledModel.Proofs.Stream.Memoizing
import PickledModel.Proofs.Stream.NestingBound
import PickledModel.Proofs.Stream.Rebinding
import PickledModel.Proofs.Stream.ResolvedObjects
import PickledModel.Proofs.Stream.RoundTrip
import PickledModel.Proofs.Stream.Segments
import PickledModel.Proofs.Stream.SelfDelimiting
import PickledModel.Proofs.Stream.Succession
import PickledModel.Proofs.Stream.TextForms
import PickledModel.Proofs.Tensor.BareElement
import PickledModel.Proofs.Tensor.Budget
import PickledModel.Proofs.Tensor.Decodability
import PickledModel.Proofs.Tensor.DimensionLimit
import PickledModel.Proofs.Tensor.Layouts
import PickledModel.Proofs.Tensor.MemoryOrder
import PickledModel.Proofs.Tensor.PreviewText
import PickledModel.Proofs.Tensor.TypeCodes
import PickledModel.Proofs.Tensor.WrappedPayload
import PickledModel.Proofs.Text.PlusSigns
import PickledModel.Proofs.Value.Rendering
