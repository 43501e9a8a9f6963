import TensorGraph.Graph.Storage
import TensorGraph.Proofs.Graph.Edit
import TensorGraph.Proofs.Wire.Field

/-!
# What can be stored

Input:

* the parts of a graph.

A part can be stored when what was read from a message and is kept as it was read is well formed.
Bytes that were not understood must be fields with unknown numbers, and a tensor with a message must
be the one that the message describes; any other tensor must have as many elements as its shape
says.

Results:

* redirecting and renaming keep what can be stored (`Node.Storable.redirect`,
  `Node.Storable.rename`).
-/

namespace TensorGraph

/-! ## Messages -/

namespace Message

open Wire (Unknown)

/-- Whether the bytes of an entry that were not understood are unknown fields. -/
def Entry.Clean (m : Entry) : Prop := Unknown [1, 2] m.unknown

/-- The numbers of the fields of a tensor. -/
def Tensor.fields : List Nat := [1, 2, 4, 5, 6, 7, 8, 9, 10, 11, 12, 13, 14]

structure Tensor.Clean (m : Tensor) : Prop where
  unknown : Unknown Tensor.fields m.unknown
  externalData : ∀ e ∈ m.externalData, e.Clean

def Dimension.Clean (m : Dimension) : Prop := Unknown [1, 2, 3] m.unknown

structure Shape.Clean (m : Shape) : Prop where
  unknown : Unknown [1] m.unknown
  dims : ∀ d ∈ m.dims, d.Clean

structure TensorType.Clean (m : TensorType) : Prop where
  unknown : Unknown [1, 2] m.unknown
  shape : ∀ s, m.shape = some s → s.Clean

structure ValueType.Clean (m : ValueType) : Prop where
  unknown : Unknown [1, 6] m.unknown
  tensorType : ∀ t, m.tensorType = some t → t.Clean

structure Value.Clean (m : Value) : Prop where
  unknown : Unknown [1, 2, 3] m.unknown
  type : ∀ t, m.type = some t → t.Clean

/-- The numbers of the fields of a graph. -/
def Graph.fields : List Nat := [1, 2, 5, 10, 11, 12, 13]

/-- The numbers of the fields of a node. -/
def Node.fields : List Nat := [1, 2, 3, 4, 5, 6, 7]

/-- The numbers of the fields of an attribute. -/
def Attribute.fields : List Nat := [1, 2, 3, 4, 5, 6, 7, 8, 9, 10, 11, 13, 20, 21]

end Message

/-! ## Parts of graphs -/

/-- Whether a tensor has as many elements as its shape says, if they are available. -/
def Tensor.Counted (t : Tensor) : Prop := t.isEvaluable → t.elements.count = elementCount t.shape

/-- Whether a tensor was computed. -/
structure Tensor.Computed (t : Tensor) : Prop where
  source : t.source = none
  isEvaluable : t.isEvaluable
  count : t.elements.count = elementCount t.shape

/-- Whether a tensor was read from a message. -/
def Tensor.Read (t : Tensor) : Prop := ∃ m, t.source = some m ∧ m.Clean ∧ Tensor.ofMessage m = .ok t

/-- Whether a tensor was computed or read. -/
def Tensor.Storable (t : Tensor) : Prop := t.Computed ∨ t.Read

/-- Whether the message of a declaration is clean, if it has one. -/
def ValueInfo.Storable (v : ValueInfo) : Prop := ∀ m, v.source = some m → m.Clean

/-- Whether an initializer has a name and a tensor that can be stored. -/
structure Initializer.Storable (i : Initializer) : Prop where
  name : i.name ≠ ""
  value : i.value.Storable

/-- The tensors in an attribute. -/
def AttributeValue.tensorList : AttributeValue → List Tensor
  | .tensor t => [t]
  | .tensors ts => ts
  | _ => []

structure Attribute.Storable (a : Attribute) : Prop where
  unknown : Wire.Unknown Message.Attribute.fields a.unknown
  tensors : ∀ t ∈ a.value.tensorList, t.Storable

structure Node.Storable (n : Node) : Prop where
  opType : n.opType ≠ ""
  unknown : Wire.Unknown Message.Node.fields n.unknown
  attributes : ∀ a ∈ n.attributes, a.Storable

/-- Whether the parts of a graph that are no nodes can be stored. -/
structure Graph.Storable (g : Graph) : Prop where
  unknown : Wire.Unknown Message.Graph.fields g.unknown
  initializers : ∀ i ∈ g.initializers, i.Storable
  inputs : ∀ v ∈ g.inputs, v.Storable
  outputs : ∀ v ∈ g.outputs, v.Storable
  valueInfo : ∀ v ∈ g.valueInfo, v.Storable

/-! ## Changed nested graphs -/

theorem Attribute.Storable.revise {R : Graph → Graph → Prop} {a a' : Attribute} (h : a.Storable)
    (rel : a.Revises R a') : a'.Storable := by
  obtain ⟨v, rfl, nested, plain⟩ := rel
  refine ⟨h.unknown, ?_⟩
  have tensors := h.tensors
  generalize a.value = w at nested plain tensors
  cases nested with
  | graph hR => simp [AttributeValue.tensorList]
  | graphs hR => simp [AttributeValue.tensorList]
  | plain none _ =>
      rw [plain none]
      exact tensors

theorem Attribute.storable_of_revises {R : Graph → Graph → Prop} {as as' : List Attribute}
    (all : List.Forall₂ (Attribute.Revises R) as as') (h : ∀ a ∈ as, a.Storable) :
    ∀ a ∈ as', a.Storable := by
  induction all with
  | nil => exact h
  | cons first _ ih =>
      intro a ha
      rcases List.mem_cons.1 ha with rfl | ha
      · exact (h _ List.mem_cons_self).revise first
      · exact ih (fun b hb => h b (List.mem_cons_of_mem _ hb)) a ha

theorem Node.Storable.revise {R : Graph → Graph → Prop} {n n' : Node} (h : n.Storable)
    (rel : n.Revises R n') : n'.Storable := by
  obtain ⟨attributes, rfl, all⟩ := rel
  exact ⟨h.opType, h.unknown, Attribute.storable_of_revises all h.attributes⟩

theorem Node.Storable.redirect {n : Node} (h : n.Storable) (old new : String) :
    (n.redirect old new).Storable := by
  have revised := h.revise (n.revises_mapSubgraphs (Graph.redirectNested old new))
  exact ⟨revised.opType, revised.unknown, revised.attributes⟩

theorem Node.Storable.rename {n : Node} (h : n.Storable) (old new : String) :
    (n.rename old new).Storable := by
  have redirected := h.redirect old new
  exact ⟨redirected.opType, redirected.unknown, redirected.attributes⟩

end TensorGraph
