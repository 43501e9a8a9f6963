import TensorGraph.Main
import TensorGraph.Proofs.Message.RoundTrip
import TensorGraph.Proofs.Simplification.Valid
import TensorGraph.Proofs.Preservation.Fold
import TensorGraph.Proofs.Preservation.Forward
import TensorGraph.Proofs.Preservation.Prune
import TensorGraph.Proofs.Evaluation.Defined
import TensorGraph.Proofs.Evaluation.Loop
import TensorGraph.Proofs.Message.Kind
import TensorGraph.Proofs.Storage.Restore
import TensorGraph.Proofs.Evaluation.Permutation
import TensorGraph.Proofs.Interface.Model
import TensorGraph.Proofs.Simplification.Threshold
import TensorGraph.Proofs.Dimension.Value
import TensorGraph.Proofs.Simplification.Declarations
import TensorGraph.Proofs.Simplification.Equivalence
import TensorGraph.Proofs.Dimension.Canonical
import TensorGraph.Proofs.Simplification.Liveness
import TensorGraph.Graph.Worklist
import TensorGraph.Proofs.Graph.Dependency
import TensorGraph.Proofs.Graph.Worklist
import TensorGraph.Proofs.Dimension.Token
import TensorGraph.Proofs.Dimension.Text
import TensorGraph.Proofs.Preservation.Share
import TensorGraph.Proofs.Preservation.Rename
import TensorGraph.Proofs.Preservation.Merge
import TensorGraph.Proofs.Preservation.Nop
import TensorGraph.Proofs.Preservation.ProductAndSum
import TensorGraph.Proofs.Preservation.Normalization
import TensorGraph.Proofs.Facts.Reshape
import TensorGraph.Proofs.Facts.Structural
import TensorGraph.Proofs.Operator.Copies
import TensorGraph.Proofs.Operator.Parts
import TensorGraph.Proofs.Facts.Product
import TensorGraph.Proofs.Operator.Groups
import TensorGraph.Proofs.Operator.Convolution
import TensorGraph.Proofs.Operator.Pooling
import TensorGraph.Proofs.Graph.Expression
import TensorGraph.Proofs.Wire.Fields
import TensorGraph.Proofs.CommandLine.Specification
import TensorGraph.Proofs.Simplification.Progress
import TensorGraph.Proofs.Tensor.Enumeration
import TensorGraph.Proofs.Simplification.Requests
