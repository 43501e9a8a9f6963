import TensorGraph.Graph.Storage
import TensorGraph.Proofs.Evaluation.Storable
import TensorGraph.Proofs.Message.Clean

/-!
# What is read can be stored

Input:

* a clean message.

Results:

* the graph that is read from it can be stored, at every depth (`Graph.ensures_ofMessage`).
-/

namespace TensorGraph

theorem ValueInfo.storable_ofMessage {m : Message.Value} (h : m.Clean) : (ofMessage m).Storable := by
  rintro _ ⟨⟩
  exact h

theorem Tensor.ensures_ofMessage {m : Message.Tensor} (h : m.Clean) :
    Ensures (Tensor.ofMessage m) Storable :=
  fun _ read => Or.inr ⟨m, source_of_ofMessage read, h, read⟩

theorem Initializer.ensures_ofMessage {m : Message.Tensor} (h : m.Clean) :
    Ensures (Initializer.ofMessage m) Storable := by
  unfold ofMessage
  dsimp only
  split
  · exact .error
  · rename_i named
    refine (Tensor.ensures_ofMessage h).bind fun t ht => .pure ⟨fun empty => named ?_, ht⟩
    exact String.isEmpty_iff.2 empty

/-! ## Attributes -/

/-- The value that the message of an attribute holds, by the type of the attribute. -/
inductive AttributeValue.StoredIn (m : Message.Attribute) : AttributeValue → Prop
  | float (code : m.typeCode = Message.AttributeCode.float) : StoredIn m (.float (m.float.getD .zero))
  | int (code : m.typeCode = Message.AttributeCode.int) : StoredIn m (.int (m.int.getD 0))
  | string (code : m.typeCode = Message.AttributeCode.string) :
      StoredIn m (.string (m.string.getD []))
  | tensor {t : Tensor} {stored : Message.Tensor} (code : m.typeCode = Message.AttributeCode.tensor)
      (given : m.tensor = some stored) (read : Tensor.ofMessage stored = .ok t) :
      StoredIn m (.tensor t)
  | graph {g : Graph} {stored : Message.Graph} (code : m.typeCode = Message.AttributeCode.graph)
      (given : m.graph = some stored) (read : Graph.ofMessage stored = .ok g) : StoredIn m (.graph g)
  | floats (code : m.typeCode = Message.AttributeCode.floats) : StoredIn m (.floats m.floats)
  | ints (code : m.typeCode = Message.AttributeCode.ints) : StoredIn m (.ints m.ints)
  | strings (code : m.typeCode = Message.AttributeCode.strings) : StoredIn m (.strings m.strings)
  | tensors {ts : List Tensor} (code : m.typeCode = Message.AttributeCode.tensors)
      (read : m.tensors.mapM Tensor.ofMessage = .ok ts) : StoredIn m (.tensors ts)
  | graphs {gs : List Graph} (code : m.typeCode = Message.AttributeCode.graphs)
      (read : m.graphs.mapM Graph.ofMessage = .ok gs) : StoredIn m (.graphs gs)
  | undefined (code : m.typeCode = Message.AttributeCode.undefined) : StoredIn m .undefined

/-- The attribute with a given value that is read from a message. -/
def Attribute.withValue (m : Message.Attribute) (v : AttributeValue) : Attribute :=
  { name := m.name.getD ""
    value := v
    docString := m.docString
    refName := m.refName
    hasType := m.type.isSome
    unknown := m.unknown }

theorem Attribute.ofMessage_eq_ok_iff {m : Message.Attribute} {a : Attribute} :
    ofMessage m = .ok a ↔ ∃ v : AttributeValue, v.StoredIn m ∧ a = withValue m v := by
  constructor
  · have finish : ∀ r : Except Malformation AttributeValue, Ensures r (fun v => v.StoredIn m) →
        Ensures (r >>= fun v => pure (withValue m v)) fun a =>
          ∃ v : AttributeValue, v.StoredIn m ∧ a = withValue m v :=
      fun r hr => hr.bind fun v hv => .pure ⟨v, hv, rfl⟩
    revert a
    change Ensures (ofMessage m) _
    rw [ofMessage]
    refine .ite (fun code => finish _ (.ok (.float code))) fun _ => ?_
    refine .ite (fun code => finish _ (.ok (.int code))) fun _ => ?_
    refine .ite (fun code => finish _ (.ok (.string code))) fun _ => ?_
    refine .ite (fun code => ?_) fun _ => ?_
    · split
      · exact finish _ (.map fun t ht => .tensor code ‹_› ht)
      · exact finish _ .error
    refine .ite (fun code => ?_) fun _ => ?_
    · split
      · exact finish _ (.map fun g hg => .graph code ‹_› hg)
      · exact finish _ .error
    refine .ite (fun code => finish _ (.ok (.floats code))) fun _ => ?_
    refine .ite (fun code => finish _ (.ok (.ints code))) fun _ => ?_
    refine .ite (fun code => finish _ (.ok (.strings code))) fun _ => ?_
    refine .ite (fun code => finish _ (.map fun ts hts => .tensors code hts)) fun _ => ?_
    refine .ite (fun code => finish _ (.map fun gs hgs => .graphs code ?_)) fun _ => ?_
    · simpa using hgs
    exact .ite (fun code => finish _ (.ok (.undefined code))) fun _ => finish _ .error
  · rintro ⟨v, stored, rfl⟩
    rw [ofMessage]
    dsimp only
    cases stored with
    | float code =>
        rw [code, if_pos rfl]
        rfl
    | tensor code given read =>
        rw [code]
        repeat rw [if_neg (by decide)]
        rw [if_pos rfl, given]
        dsimp only
        rw [read]
        rfl
    | graph code given read =>
        rw [code]
        repeat rw [if_neg (by decide)]
        rw [if_pos rfl]
        split
        · rename_i found
          rw [given] at found
          cases found
          rw [read]
          rfl
        · rename_i none
          rw [given] at none
          cases none
    | tensors code read =>
        rw [code]
        repeat rw [if_neg (by decide)]
        rw [if_pos rfl, read]
        rfl
    | @graphs gs code read =>
        rw [code]
        repeat rw [if_neg (by decide)]
        rw [if_pos rfl]
        have all : m.graphs.attach.mapM (fun g => Graph.ofMessage g.1) = .ok gs := by
          simpa using read
        rw [all]
        rfl
    | int code | string code | floats code | ints code | strings code | undefined code =>
        rw [code]
        repeat rw [if_neg (by decide)]
        rw [if_pos rfl]
        rfl

/-- Whether a node can be stored, with its nested graphs. -/
structure Node.FullyStorable (n : Node) : Prop where
  here : n.Storable
  inside : ∀ p ∈ n.subgraphs, p.2.Everywhere Graph.FullyStorable

/-- Whether an attribute can be stored, with its graphs. -/
structure Attribute.FullyStorable (a : Attribute) : Prop where
  here : a.Storable
  inside : ∀ g ∈ a.value.graphList, g.Everywhere Graph.FullyStorable

mutual
theorem Graph.ensures_ofMessage {m : Message.Graph} (h : m.Clean) :
    Ensures (Graph.ofMessage m) fun g => g.Everywhere Graph.FullyStorable := by
  obtain ⟨unknown, nodes, initializers, inputs, outputs, valueInfo⟩ := h
  rw [Graph.ofMessage]
  refine Ensures.bind (P := fun ns => ∀ n ∈ ns, n.FullyStorable) (.mapM ?_) fun ns hns => ?_
  · rintro ⟨n, inside⟩ -
    have : sizeOf n < sizeOf m := Message.Graph.sizeOf_nodes inside
    exact Node.ensures_ofMessage (nodes n inside)
  refine Ensures.bind (.mapM fun t ht => Initializer.ensures_ofMessage (initializers t ht))
    fun is his => .pure ?_
  have values : ∀ {vs : List Message.Value}, (∀ v ∈ vs, v.Clean) →
      ∀ v ∈ vs.map ValueInfo.ofMessage, v.Storable := by
    intro vs clean v hv
    obtain ⟨w, hw, rfl⟩ := List.mem_map.1 hv
    exact ValueInfo.storable_ofMessage (clean w hw)
  exact .intro ⟨⟨unknown, his, values inputs, values outputs, values valueInfo⟩,
    fun n hn => (hns n hn).here⟩ fun n hn => (hns n hn).inside
termination_by sizeOf m

theorem Node.ensures_ofMessage {m : Message.Node} (h : m.Clean) :
    Ensures (Node.ofMessage m) Node.FullyStorable := by
  obtain ⟨unknown, attributes⟩ := h
  rw [Node.ofMessage]
  dsimp only
  split
  · exact .error
  · rename_i named
    refine Ensures.bind (P := fun as => ∀ a ∈ as, a.FullyStorable) (.mapM ?_) fun as has => .pure ?_
    · rintro ⟨a, inside⟩ -
      have : sizeOf a < sizeOf m := Message.Node.sizeOf_attributes inside
      exact Attribute.ensures_ofMessage (attributes a inside)
    refine ⟨⟨fun empty => named (String.isEmpty_iff.2 empty), unknown, fun a ha => (has a ha).here⟩,
      fun p hp => ?_⟩
    obtain ⟨a, ha, hmem⟩ := List.mem_flatMap.1 hp
    obtain ⟨g, hg, rfl⟩ := List.mem_map.1 hmem
    exact (has a ha).inside g hg
termination_by sizeOf m

theorem Attribute.ensures_ofMessage {m : Message.Attribute} (h : m.Clean) :
    Ensures (Attribute.ofMessage m) Attribute.FullyStorable := by
  obtain ⟨unknown, tensor, tensors, graph, graphs⟩ := h
  intro a ha
  obtain ⟨v, stored, rfl⟩ := Attribute.ofMessage_eq_ok_iff.1 ha
  have plain : ∀ v : AttributeValue, v.tensorList = [] → v.graphList = [] →
      (Attribute.withValue m v).FullyStorable :=
    fun v ht hg => ⟨⟨unknown, by simp [Attribute.withValue, ht]⟩, by simp [Attribute.withValue, hg]⟩
  cases stored with
  | float | int | string | floats | ints | strings | undefined => exact plain _ rfl rfl
  | tensor _ given read =>
      refine ⟨⟨unknown, fun t ht => ?_⟩, fun g hg => nomatch hg⟩
      rw [List.mem_singleton.1 ht]
      exact Tensor.ensures_ofMessage (tensor _ given) _ read
  | graph _ given read =>
      refine ⟨⟨unknown, fun t ht => nomatch ht⟩, fun g hg => ?_⟩
      rw [List.mem_singleton.1 hg]
      have := Message.Attribute.sizeOf_graph given
      exact Graph.ensures_ofMessage (graph _ given) _ read
  | tensors _ read =>
      refine ⟨⟨unknown, ?_⟩, fun g hg => nomatch hg⟩
      exact Ensures.mapM (fun t ht => Tensor.ensures_ofMessage (tensors t ht)) _ read
  | graphs _ read =>
      refine ⟨⟨unknown, fun t ht => nomatch ht⟩, Ensures.mapM (fun g hg => ?_) _ read⟩
      have := Message.Attribute.sizeOf_graphs hg
      exact Graph.ensures_ofMessage (graphs g hg)
termination_by sizeOf m
end

end TensorGraph
