import TensorGraph.Message.Decode
import TensorGraph.Proofs.Tensor.Counted
import TensorGraph.Proofs.Wire.Reads

/-!
# Messages that were read are clean

Input:

* the bytes of a message.

Algorithm:

* a reader keeps the bytes of unknown fields in the order in which it finds them, so at any time
  they are a row of unknown fields.

Main results:

* `Message.ensures_foldFields`: what each field keeps holds of the whole message;
* `Message.Graph.ensures_decode` and `Message.Model.ensures_decode`: graphs and models that are read
  are clean at every depth.
-/

namespace TensorGraph
namespace Message

open Wire (Bytes Field DecodeError Unknown IsField foldRest foldFields)

/-! ## Clean graphs -/

mutual
/-- Whether the bytes of a graph that were not understood are unknown fields, at every depth. -/
inductive Graph.Clean : Graph → Prop
  | intro {m : Graph} (unknown : Unknown Graph.fields m.unknown) (nodes : ∀ n ∈ m.nodes, Node.Clean n)
      (initializers : ∀ t ∈ m.initializers, t.Clean)
      (inputs : ∀ v ∈ m.inputs, v.Clean) (outputs : ∀ v ∈ m.outputs, v.Clean)
      (valueInfo : ∀ v ∈ m.valueInfo, v.Clean) : Graph.Clean m

inductive Node.Clean : Node → Prop
  | intro {m : Node} (unknown : Unknown Node.fields m.unknown)
      (attributes : ∀ a ∈ m.attributes, Attribute.Clean a) : Node.Clean m

inductive Attribute.Clean : Attribute → Prop
  | intro {m : Attribute} (unknown : Unknown Attribute.fields m.unknown)
      (tensor : ∀ t, m.tensor = some t → t.Clean) (tensors : ∀ t ∈ m.tensors, t.Clean)
      (graph : ∀ g, m.graph = some g → Graph.Clean g) (graphs : ∀ g ∈ m.graphs, Graph.Clean g) :
      Attribute.Clean m
end

/-- Whether the bytes of an operator set that were not understood are unknown fields. -/
def OperatorSet.Clean (m : OperatorSet) : Prop := Unknown [1, 2] m.unknown

/-- The numbers of the fields of a model. -/
def Model.fields : List Nat := [1, 2, 3, 4, 5, 6, 7, 8, 14]

structure Model.Clean (m : Model) : Prop where
  unknown : Unknown Model.fields m.unknown
  graph : ∀ g, m.graph = some g → g.Clean
  operatorSets : ∀ s ∈ m.operatorSets, s.Clean
  metadata : ∀ e ∈ m.metadata, e.Clean

/-! ## Readers -/

section

variable {σ : Type} {context : Option String} {P : σ → Prop}

/-- What each field keeps holds of the whole message. -/
theorem ensures_foldFields {input : Bytes} {start : σ}
    {step : σ → (f : Field) → f.value.payloadSize < input.length → Except DecodeError σ}
    (first : P start)
    (each : ∀ s f fits, IsField f.raw f.number → P s → Ensures (step s f fits) P) :
    Ensures (foldFields context input start step) P := by
  have all : ∀ (total : Nat)
      (step : σ → (f : Field) → f.value.payloadSize < total → Except DecodeError σ),
      (∀ s f fits, IsField f.raw f.number → P s → Ensures (step s f fits) P) →
      ∀ (k : Nat) (bytes : Bytes), bytes.length = k → ∀ (s : σ) (fits : bytes.length ≤ total),
        P s → Ensures (foldRest context total step s bytes fits) P := by
    intro total step each k
    induction k using Nat.strongRecOn with
    | ind k ih =>
        rintro bytes rfl s fits hs
        rw [foldRest]
        split
        · exact .error
        · exact .ok hs
        · rename_i f rest hnext
          have shorter := Field.next_length hnext
          have hstep := each s f (Nat.lt_of_lt_of_le shorter.2 fits)
            (Field.next_local hnext).2 hs
          dsimp only
          split
          · exact .error
          · rename_i s' hs'
            exact ih rest.length shorter.1 rest rfl s' _ (hstep s' hs')
  exact all input.length step each input.length input rfl start (Nat.le_refl _) first

theorem ensures_nested {α : Type} {decode : Bytes → Except DecodeError α} {Q : α → Prop}
    (h : ∀ input, Ensures (decode input) Q) (f : Field) : Ensures (nested decode f) Q :=
  Ensures.bind_any fun payload => h payload.1

/-- One more unknown field. -/
theorem unknown_append {known : List Nat} {bytes raw : Bytes} {number : Nat}
    (h : Unknown known bytes) (field : IsField raw number) (hn : number ∉ known) :
    Unknown known (bytes ++ raw) := by
  obtain ⟨raws, rfl, hraws⟩ := h
  refine ⟨raws ++ [raw], by rw [List.flatten_append]; simp, fun r hr => ?_⟩
  rcases List.mem_append.1 hr with hr | hr
  · exact hraws r hr
  · rw [List.mem_singleton.1 hr]
    exact ⟨number, hn, field⟩

theorem forall_mem_append_singleton {α : Type} {Q : α → Prop} {xs : List α} {x : α}
    (h : ∀ y ∈ xs, Q y) (hx : Q x) : ∀ y ∈ xs ++ [x], Q y := by
  intro y hy
  rcases List.mem_append.1 hy with hy | hy
  · exact h y hy
  · rw [List.mem_singleton.1 hy]
    exact hx

end

theorem Entry.ensures_decode (input : Bytes) : Ensures (decode input) Clean := by
  refine ensures_foldFields (Wire.unknown_nil _) fun m f _ field hm => ?_
  split
  · exact Ensures.bind_any fun _ => .pure hm
  · exact Ensures.bind_any fun _ => .pure hm
  · exact .pure (unknown_append hm field (by grind))

theorem Tensor.ensures_decode (input : Bytes) : Ensures (decode input) Clean := by
  refine ensures_foldFields ⟨Wire.unknown_nil _, by simp⟩ fun m f _ field hm => ?_
  split
  case h_12 =>
    refine (ensures_nested Entry.ensures_decode f).bind fun e he => .pure ⟨hm.unknown, ?_⟩
    exact forall_mem_append_singleton hm.externalData he
  case h_14 =>
    exact .pure ⟨unknown_append hm.unknown field (by simp [fields]; grind), hm.externalData⟩
  all_goals exact Ensures.bind_any fun _ => .pure ⟨hm.unknown, hm.externalData⟩

theorem Dimension.ensures_decode (input : Bytes) : Ensures (decode input) Clean := by
  refine ensures_foldFields (Wire.unknown_nil _) fun m f _ field hm => ?_
  split
  · exact Ensures.bind_any fun _ => .pure hm
  · exact Ensures.bind_any fun _ => .pure hm
  · exact Ensures.bind_any fun _ => .pure hm
  · exact .pure (unknown_append hm field (by grind))

theorem Shape.ensures_decode (input : Bytes) : Ensures (decode input) Clean := by
  refine ensures_foldFields ⟨Wire.unknown_nil _, by simp⟩ fun m f _ field hm => ?_
  split
  · refine (ensures_nested Dimension.ensures_decode f).bind fun d hd => .pure ⟨hm.unknown, ?_⟩
    exact forall_mem_append_singleton hm.dims hd
  · exact .pure ⟨unknown_append hm.unknown field (by grind), hm.dims⟩

theorem TensorType.ensures_decode (input : Bytes) : Ensures (decode input) Clean := by
  refine ensures_foldFields ⟨Wire.unknown_nil _, by simp⟩ fun m f _ field hm => ?_
  split
  · exact Ensures.bind_any fun _ => .pure ⟨hm.unknown, hm.shape⟩
  · refine (ensures_nested Shape.ensures_decode f).bind fun s hs => .pure ⟨hm.unknown, ?_⟩
    rintro _ ⟨⟩
    exact hs
  · exact .pure ⟨unknown_append hm.unknown field (by grind), hm.shape⟩

theorem ValueType.ensures_decode (input : Bytes) : Ensures (decode input) Clean := by
  refine ensures_foldFields ⟨Wire.unknown_nil _, by simp⟩ fun m f _ field hm => ?_
  split
  · refine (ensures_nested TensorType.ensures_decode f).bind fun t ht => .pure ⟨hm.unknown, ?_⟩
    rintro _ ⟨⟩
    exact ht
  · exact Ensures.bind_any fun _ => .pure ⟨hm.unknown, hm.tensorType⟩
  · exact .pure ⟨unknown_append hm.unknown field (by grind), hm.tensorType⟩

theorem Value.ensures_decode (input : Bytes) : Ensures (decode input) Clean := by
  refine ensures_foldFields ⟨Wire.unknown_nil _, by simp⟩ fun m f _ field hm => ?_
  split
  · exact Ensures.bind_any fun _ => .pure ⟨hm.unknown, hm.type⟩
  · refine (ensures_nested ValueType.ensures_decode f).bind fun t ht => .pure ⟨hm.unknown, ?_⟩
    rintro _ ⟨⟩
    exact ht
  · exact Ensures.bind_any fun _ => .pure ⟨hm.unknown, hm.type⟩
  · exact .pure ⟨unknown_append hm.unknown field (by grind), hm.type⟩

theorem OperatorSet.ensures_decode (input : Bytes) : Ensures (decode input) Clean := by
  refine ensures_foldFields (Wire.unknown_nil _) fun m f _ field hm => ?_
  split
  · exact Ensures.bind_any fun _ => .pure hm
  · exact Ensures.bind_any fun _ => .pure hm
  · exact .pure (unknown_append hm field (by grind))

mutual
theorem Graph.ensures_decode (input : Bytes) : Ensures (Graph.decode input) Graph.Clean := by
  rw [Graph.decode]
  refine ensures_foldFields
    (.intro (Wire.unknown_nil _) (by simp) (by simp) (by simp) (by simp) (by simp))
    fun m f fits field hm => ?_
  obtain ⟨unknown, nodes, initializers, inputs, outputs, valueInfo⟩ := hm
  split
  case h_1 =>
    refine Ensures.bind_any fun ⟨payload, size⟩ => ?_
    have : payload.length < input.length := size ▸ fits
    refine (Node.ensures_decode payload).bind fun n hn => .pure ?_
    exact .intro unknown (forall_mem_append_singleton nodes hn) initializers inputs outputs valueInfo
  case h_3 =>
    refine (ensures_nested Tensor.ensures_decode f).bind fun t ht => .pure ?_
    exact .intro unknown nodes (forall_mem_append_singleton initializers ht) inputs outputs valueInfo
  case h_5 =>
    refine (ensures_nested Value.ensures_decode f).bind fun v hv => .pure ?_
    exact .intro unknown nodes initializers (forall_mem_append_singleton inputs hv) outputs valueInfo
  case h_6 =>
    refine (ensures_nested Value.ensures_decode f).bind fun v hv => .pure ?_
    exact .intro unknown nodes initializers inputs (forall_mem_append_singleton outputs hv) valueInfo
  case h_7 =>
    refine (ensures_nested Value.ensures_decode f).bind fun v hv => .pure ?_
    exact .intro unknown nodes initializers inputs outputs (forall_mem_append_singleton valueInfo hv)
  case h_8 =>
    exact .pure (.intro (unknown_append unknown field (by simp [Graph.fields]; grind)) nodes
      initializers inputs outputs valueInfo)
  all_goals
    exact Ensures.bind_any fun _ =>
      .pure (.intro unknown nodes initializers inputs outputs valueInfo)
termination_by input.length

theorem Node.ensures_decode (input : Bytes) : Ensures (Node.decode input) Node.Clean := by
  rw [Node.decode]
  refine ensures_foldFields (.intro (Wire.unknown_nil _) (by simp)) fun m f fits field hm => ?_
  obtain ⟨unknown, attributes⟩ := hm
  split
  case h_5 =>
    refine Ensures.bind_any fun ⟨payload, size⟩ => ?_
    have : payload.length < input.length := size ▸ fits
    refine (Attribute.ensures_decode payload).bind fun a ha => .pure ?_
    exact .intro unknown (forall_mem_append_singleton attributes ha)
  case h_8 =>
    exact .pure (.intro (unknown_append unknown field (by simp [Node.fields]; grind)) attributes)
  all_goals exact Ensures.bind_any fun _ => .pure (.intro unknown attributes)
termination_by input.length

theorem Attribute.ensures_decode (input : Bytes) :
    Ensures (Attribute.decode input) Attribute.Clean := by
  rw [Attribute.decode]
  refine ensures_foldFields (.intro (Wire.unknown_nil _) (by simp) (by simp) (by simp) (by simp))
    fun m f fits field hm => ?_
  obtain ⟨unknown, tensor, tensors, graph, graphs⟩ := hm
  split
  case h_5 =>
    refine (ensures_nested Tensor.ensures_decode f).bind fun t ht => .pure ?_
    refine .intro unknown ?_ tensors graph graphs
    rintro _ ⟨⟩
    exact ht
  case h_6 =>
    refine Ensures.bind_any fun ⟨payload, size⟩ => ?_
    have : payload.length < input.length := size ▸ fits
    refine (Graph.ensures_decode payload).bind fun g hg => .pure ?_
    refine .intro unknown tensor tensors ?_ graphs
    rintro _ ⟨⟩
    exact hg
  case h_10 =>
    refine (ensures_nested Tensor.ensures_decode f).bind fun t ht => .pure ?_
    exact .intro unknown tensor (forall_mem_append_singleton tensors ht) graph graphs
  case h_11 =>
    refine Ensures.bind_any fun ⟨payload, size⟩ => ?_
    have : payload.length < input.length := size ▸ fits
    refine (Graph.ensures_decode payload).bind fun g hg => .pure ?_
    exact .intro unknown tensor tensors graph (forall_mem_append_singleton graphs hg)
  case h_15 =>
    exact .pure (.intro (unknown_append unknown field (by simp [Attribute.fields]; grind)) tensor tensors
      graph graphs)
  all_goals exact Ensures.bind_any fun _ => .pure (.intro unknown tensor tensors graph graphs)
termination_by input.length
end

theorem Model.ensures_decode (input : Bytes) : Ensures (decode input) Clean := by
  refine ensures_foldFields ⟨Wire.unknown_nil _, by simp, by simp, by simp⟩
    fun m f _ field hm => ?_
  split
  case h_7 =>
    refine (ensures_nested Graph.ensures_decode f).bind fun g hg => .pure ?_
    refine ⟨hm.unknown, ?_, hm.operatorSets, hm.metadata⟩
    rintro _ ⟨⟩
    exact hg
  case h_8 =>
    refine (ensures_nested OperatorSet.ensures_decode f).bind fun s hs => .pure ?_
    exact ⟨hm.unknown, hm.graph, forall_mem_append_singleton hm.operatorSets hs, hm.metadata⟩
  case h_9 =>
    refine (ensures_nested Entry.ensures_decode f).bind fun e he => .pure ?_
    exact ⟨hm.unknown, hm.graph, hm.operatorSets, forall_mem_append_singleton hm.metadata he⟩
  case h_10 =>
    exact .pure ⟨unknown_append hm.unknown field (by simp [fields]; grind), hm.graph,
      hm.operatorSets, hm.metadata⟩
  all_goals exact Ensures.bind_any fun _ => .pure ⟨hm.unknown, hm.graph, hm.operatorSets,
    hm.metadata⟩

end Message
end TensorGraph
