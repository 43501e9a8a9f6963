import TensorGraph.Graph.Storage
import TensorGraph.Proofs.Evaluation.Storable
import TensorGraph.Proofs.Graph.Nested
import TensorGraph.Proofs.Graph.Order
import TensorGraph.Proofs.Graph.Reduction
import TensorGraph.Proofs.Message.Clean
import TensorGraph.Proofs.Storage.Read
import TensorGraph.Proofs.Storage.Tensor

/-!
# Stored graphs are read back

Input:

* a graph that can be stored at every depth, with tensors whose sizes fit signed 64 bits
  (`Graph.Sized`).

A graph that is read again need not be the same: a tensor that was computed is now one that was
read, and a list without elements whose type was not stored is no longer known to be one.  It is
alike (`Graph.Alike`): names, control flow and reads agree.

Main results:

* the message of the graph is clean (`Graph.clean_toMessage`): new messages have no unknown fields,
  and others are kept;
* graphs are alike when their interfaces are the same and their nodes are alike in pairs
  (`Graph.Alike.ofNodes`);
* the message of the graph can be read, and gives a graph that is alike
  (`Graph.exists_ofMessage_toMessage`).
-/

namespace TensorGraph

/-! ## Clean messages -/

open Wire (unknown_nil)

theorem Dim.clean_toMessage (d : Dim) : d.toMessage.Clean := by
  cases d <;> exact unknown_nil _

theorem ValueInfo.clean_newMessage (v : ValueInfo) : v.newMessage.Clean := by
  refine ⟨unknown_nil _, ?_⟩
  rintro _ ⟨⟩
  refine ⟨unknown_nil _, ?_⟩
  rintro _ ⟨⟩
  refine ⟨unknown_nil _, fun s hs => ?_⟩
  obtain ⟨dims, -, rfl⟩ := Option.map_eq_some_iff.1 hs
  refine ⟨unknown_nil _, fun d hd => ?_⟩
  obtain ⟨d, -, rfl⟩ := List.mem_map.1 hd
  exact d.clean_toMessage

theorem ValueInfo.Storable.toMessage {v : ValueInfo} (h : v.Storable) : v.toMessage.Clean := by
  unfold ValueInfo.toMessage
  split
  · rename_i m hm
    split
    · exact h m hm
    · exact v.clean_newMessage
  · exact v.clean_newMessage

theorem Attribute.Storable.toMessage {a : Attribute} (h : a.Storable)
    (inside : ∀ g ∈ a.value.graphList, g.toMessage.Clean) : a.toMessage.Clean := by
  have tensors := h.tensors
  rw [Attribute.toMessage]
  split
  case h_4 t hv =>
    refine .intro h.unknown ?_ (by simp [frame]) (by simp [frame]) (by simp [frame])
    rintro _ ⟨⟩
    rw [hv] at tensors
    exact (tensors t (by simp [AttributeValue.tensorList])).toMessage _
  case h_5 g hv =>
    refine .intro h.unknown (by simp [frame]) (by simp [frame]) ?_ (by simp [frame])
    rintro _ ⟨⟩
    rw [hv] at inside
    exact inside g (by simp [AttributeValue.graphList])
  case h_9 ts hv =>
    refine .intro h.unknown (by simp [frame]) (fun m hm => ?_) (by simp [frame]) (by simp [frame])
    obtain ⟨t, ht, rfl⟩ := List.mem_map.1 hm
    rw [hv] at tensors
    exact (tensors t ht).toMessage _
  case h_10 gs hv =>
    refine .intro h.unknown (by simp [frame]) (by simp [frame]) (by simp [frame]) fun m hm => ?_
    obtain ⟨g, hg, rfl⟩ := List.mem_map.1 hm
    rw [hv] at inside
    exact inside g hg
  all_goals
    exact .intro h.unknown (by simp [frame]) (by simp [frame]) (by simp [frame]) (by simp [frame])

theorem Node.Storable.toMessage {n : Node} (h : n.Storable)
    (inside : ∀ p ∈ n.subgraphs, p.2.toMessage.Clean) : n.toMessage.Clean := by
  rw [Node.toMessage]
  refine .intro h.unknown fun m hm => ?_
  obtain ⟨a, ha, rfl⟩ := List.mem_map.1 hm
  refine (h.attributes a ha).toMessage fun g hg => inside (a.name, g) ?_
  exact List.mem_flatMap.2 ⟨a, ha, List.mem_map.2 ⟨g, hg, rfl⟩⟩

/-- The message of a graph that can be stored is clean. -/
theorem Graph.clean_toMessage {g : Graph} (h : g.Everywhere FullyStorable) : g.toMessage.Clean := by
  induction g using nested_induction with
  | step g ih =>
      have storable := h.here.graph
      have values : ∀ {vs : List ValueInfo}, (∀ v ∈ vs, v.Storable) →
          ∀ m ∈ vs.map ValueInfo.toMessage, m.Clean := by
        intro vs hvs m hm
        obtain ⟨v, hv, rfl⟩ := List.mem_map.1 hm
        exact (hvs v hv).toMessage
      rw [toMessage]
      refine .intro storable.unknown (fun m hm => ?_) (fun m hm => ?_) (values storable.inputs)
        (values storable.outputs) (values storable.valueInfo)
      · obtain ⟨n, hn, rfl⟩ := List.mem_map.1 hm
        exact (h.here.nodes n hn).toMessage fun p hp => ih n hn p hp (h.inside hn hp)
      · obtain ⟨i, hi, rfl⟩ := List.mem_map.1 hm
        exact (storable.initializers i hi).value.toMessage _

/-! ## Alike graphs -/

/-- Whether a graph defines and reads the same names as another one, and needs nothing else for its
control flow. -/
structure Graph.Alike (g g' : Graph) : Prop where
  inputs : g'.inputNames = g.inputNames
  outputs : g'.outputNames = g.outputNames
  definitions : g'.allDefinitions = g.allDefinitions
  captures : ∀ x, x ∈ g'.captures ↔ x ∈ g.captures
  control : g.Everywhere Controlled → g'.Everywhere Controlled

/-- Whether a node has the same inputs and outputs as another one, and nested graphs that are alike.
-/
structure Node.Alike (n n' : Node) : Prop where
  inputs : n'.inputs = n.inputs
  outputs : n'.outputs = n.outputs
  nested : Node.Nested Graph.Alike n n'

namespace Node.Alike

variable {n n' : Node} {ns ns' : List Node}

theorem mem_reads (h : n.Alike n') {x : String} : x ∈ n'.reads ↔ x ∈ n.reads := by
  have inputs : n'.presentInputs = n.presentInputs := congrArg (List.filter _) h.inputs
  rw [Node.mem_reads, Node.mem_reads, inputs]
  refine or_congr_right ⟨?_, ?_⟩
  · rintro ⟨p', hp', hx⟩
    obtain ⟨p, hp, alike⟩ := h.nested.exists_left hp'
    exact ⟨p, hp, (alike.captures x).1 hx⟩
  · rintro ⟨p, hp, hx⟩
    obtain ⟨p', hp', alike⟩ := h.nested.exists_right hp
    exact ⟨p', hp', (alike.captures x).2 hx⟩

theorem presentOutputs (h : n.Alike n') : n'.presentOutputs = n.presentOutputs :=
  congrArg (List.filter _) h.outputs

theorem flatMap_eq (all : List.Forall₂ Node.Alike ns ns') {f : Node → List String}
    (same : ∀ n n', Node.Alike n n' → f n' = f n) : ns'.flatMap f = ns.flatMap f := by
  induction all with
  | nil => rfl
  | cons first _ ih => rw [List.flatMap_cons, List.flatMap_cons, same _ _ first, ih]

/-- The same ranks show that no node waits for itself. -/
theorem acyclic (all : List.Forall₂ Node.Alike ns ns') (h : Acyclic ns) : Acyclic ns' := by
  obtain ⟨rank, hr⟩ := h
  refine ⟨rank, fun n' hn' x hx y hy => ?_⟩
  obtain ⟨n, hn, alike⟩ := exists_left_of_forall₂ all hn'
  exact hr n hn x (alike.mem_reads.1 hx) y (alike.presentOutputs ▸ hy)

end Node.Alike

namespace Graph

variable {g g' : Graph}

/-- Graphs with the same interface and alike nodes are alike. -/
theorem Alike.ofNodes (inputs : g'.inputNames = g.inputNames)
    (initializers : g'.initializerNames = g.initializerNames)
    (outputs : g'.outputNames = g.outputNames)
    (nodes : List.Forall₂ Node.Alike g.nodes g'.nodes) : g.Alike g' := by
  have produced : g'.produced = g.produced :=
    Node.Alike.flatMap_eq nodes fun _ _ h => h.presentOutputs
  have inner : g'.innerNames = g.innerNames :=
    Node.Alike.flatMap_eq nodes fun _ _ h =>
      h.nested.innerNames_eq fun _ _ alike => alike.definitions
  have runtime : g'.runtimeInputs.map ValueInfo.name = g.runtimeInputs.map ValueInfo.name := by
    have names : ∀ h : Graph, h.runtimeInputs.map ValueInfo.name =
        h.inputNames.filter fun x => x ∉ h.initializerNames := by
      intro h
      unfold runtimeInputs inputNames
      rw [List.filter_map]
      refine congrArg _ (List.filter_congr fun v _ => ?_)
      rw [Bool.eq_iff_iff, isNone_initializer?, Function.comp_apply, decide_eq_true_iff]
      rfl
    rw [names, names, inputs, initializers]
  refine ⟨inputs, outputs, ?_, fun x => ?_, fun control => ?_⟩
  · rw [allDefinitions_eq, allDefinitions_eq, inner]
    exact congrArg₂ _ (congrArg₂ _ (congrArg₂ _ initializers runtime) produced) rfl
  · have reads : (∃ n ∈ g'.nodes, x ∈ n.reads) ↔ ∃ n ∈ g.nodes, x ∈ n.reads := by
      constructor
      · rintro ⟨n', hn', hx⟩
        obtain ⟨n, hn, alike⟩ := exists_left_of_forall₂ nodes hn'
        exact ⟨n, hn, alike.mem_reads.1 hx⟩
      · rintro ⟨n, hn, hx⟩
        obtain ⟨n', hn', alike⟩ := exists_right_of_forall₂ nodes hn
        exact ⟨n', hn', alike.mem_reads.2 hx⟩
    have defined : x ∈ g'.definedNames ↔ x ∈ g.definedNames := by
      rw [mem_definedNames, mem_definedNames, produced]
      change x ∈ g'.inputNames ∨ x ∈ g'.initializerNames ∨ _ ↔ _
      rw [inputs, initializers]
      rfl
    rw [mem_captures, mem_captures, reads, defined]
    change (_ ∨ x ∈ g'.outputNames) ∧ _ ↔ _
    rw [outputs]
    rfl
  · rw [everywhere_controlled_iff] at control ⊢
    intro n' hn'
    obtain ⟨n, hn, alike⟩ := exists_left_of_forall₂ nodes hn'
    refine ⟨alike.nested.checkControlFlow (congrArg _ alike.inputs) (congrArg _ alike.outputs)
      (fun h h' same => ?_) (control n hn).1, fun p' hp' => ?_⟩
    · have ins := congrArg List.length same.inputs
      have outs := congrArg List.length same.outputs
      simp only [inputNames, outputNames, List.length_map] at ins outs
      exact ⟨ins, outs⟩
    · obtain ⟨p, hp, same⟩ := alike.nested.exists_left hp'
      exact same.control ((control n hn).2 p hp)

end Graph

/-! ## Reading -/

/-- What can be read one by one can be read in a row. -/
theorem exists_mapM_eq_ok {ε α β : Type} {f : α → Except ε β} {R : α → β → Prop} {l : List α}
    (each : ∀ a ∈ l, ∃ b, f a = .ok b ∧ R a b) :
    ∃ bs, l.mapM f = .ok bs ∧ List.Forall₂ R l bs := by
  induction l with
  | nil => exact ⟨[], rfl, .nil⟩
  | cons a rest ih =>
      obtain ⟨b, hb, first⟩ := each a List.mem_cons_self
      obtain ⟨bs, hbs, others⟩ := ih fun c hc => each c (List.mem_cons_of_mem _ hc)
      refine ⟨b :: bs, ?_, .cons first others⟩
      rw [List.mapM_cons, hb, hbs]
      rfl

/-- A declaration keeps its name. -/
theorem ValueInfo.name_ofMessage_toMessage (v : ValueInfo) :
    (ValueInfo.ofMessage v.toMessage).name = v.name := by
  unfold toMessage
  split
  · split
    · rename_i m _ same
      unfold agrees at same
      simp only [Bool.and_eq_true, decide_eq_true_eq] at same
      exact same.1.1
    · rfl
  · rfl

theorem Initializer.exists_ofMessage_toMessage {i : Initializer} (h : i.Storable)
    (sized : i.value.Sized) :
    ∃ i', Initializer.ofMessage (i.value.toMessage (some i.name)) = .ok i' ∧ i'.name = i.name := by
  obtain ⟨t, ht⟩ := h.value.ofMessage_toMessage sized (some i.name)
  have name : (i.value.toMessage (some i.name)).name = some i.name := by
    unfold Tensor.toMessage
    split <;> rfl
  unfold Initializer.ofMessage
  rw [name, Option.getD_some, if_neg (by rw [String.isEmpty_iff]; exact h.name), ht]
  exact ⟨_, rfl, rfl⟩

theorem Initializer.names_eq {is is' : List Initializer}
    (all : List.Forall₂ (fun i i' : Initializer => i'.name = i.name) is is') :
    is'.map name = is.map name := by
  induction all with
  | nil => rfl
  | cons first _ ih => rw [List.map_cons, List.map_cons, first, ih]

/-- The type of a stored attribute is found again, unless it was not stored and the value is an empty
list. -/
theorem Attribute.typeCode_toMessage (a : Attribute) :
    a.toMessage.typeCode = a.value.code ∨
      a.toMessage.typeCode = Message.AttributeCode.undefined ∧ a.value.graphList = [] := by
  obtain ⟨name, value, docString, refName, hasType, unknown⟩ := a
  rw [toMessage]
  cases hasType with
  | true => split <;> exact Or.inl (by simp_all [Message.Attribute.typeCode, frame])
  | false =>
      cases value <;>
        simp [Message.Attribute.typeCode, frame, AttributeValue.code, AttributeValue.graphList]
      all_goals tauto

theorem Attribute.exists_storedIn_toMessage {a : Attribute} (h : a.Storable)
    (sized : ∀ t ∈ a.value.tensorList, t.Sized)
    (inside : ∀ g ∈ a.value.graphList, ∃ g', Graph.ofMessage g.toMessage = .ok g' ∧ g.Alike g') :
    ∃ v : AttributeValue, v.StoredIn a.toMessage ∧ a.value.Nested Graph.Alike v := by
  rcases a.typeCode_toMessage with code | ⟨code, none⟩
  · have tensors := h.tensors
    cases hv : a.value with
    | float x => exact ⟨_, .float (code.trans (by rw [hv]; rfl)), .plain rfl rfl⟩
    | int v => exact ⟨_, .int (code.trans (by rw [hv]; rfl)), .plain rfl rfl⟩
    | string b => exact ⟨_, .string (code.trans (by rw [hv]; rfl)), .plain rfl rfl⟩
    | floats xs => exact ⟨_, .floats (code.trans (by rw [hv]; rfl)), .plain rfl rfl⟩
    | ints vs => exact ⟨_, .ints (code.trans (by rw [hv]; rfl)), .plain rfl rfl⟩
    | strings bs => exact ⟨_, .strings (code.trans (by rw [hv]; rfl)), .plain rfl rfl⟩
    | undefined => exact ⟨_, .undefined (code.trans (by rw [hv]; rfl)), .plain rfl rfl⟩
    | tensor t =>
        rw [hv] at sized tensors
        have given : a.toMessage.tensor = some t.toAttributeMessage := by
          rw [toMessage]
          split <;> simp_all
        have member : t ∈ (AttributeValue.tensor t).tensorList := List.mem_singleton.2 rfl
        obtain ⟨t', read⟩ := (tensors t member).ofMessage_toMessage (sized t member) t.sourceName
        exact ⟨_, .tensor (code.trans (by rw [hv]; rfl)) given read, .plain rfl rfl⟩
    | graph g =>
        rw [hv] at inside
        have given : a.toMessage.graph = some g.toMessage := by
          rw [toMessage]
          split <;> simp_all
        obtain ⟨g', read, alike⟩ := inside g (List.mem_singleton.2 rfl)
        exact ⟨_, .graph (code.trans (by rw [hv]; rfl)) given read, .graph alike⟩
    | tensors ts =>
        rw [hv] at sized tensors
        have given : a.toMessage.tensors = ts.map Tensor.toAttributeMessage := by
          rw [toMessage]
          split <;> simp_all
        obtain ⟨ts', read, -⟩ := exists_mapM_eq_ok (R := fun _ _ => True)
          (f := fun t : Tensor => Tensor.ofMessage t.toAttributeMessage) fun t ht => by
            obtain ⟨t', read⟩ := (tensors t ht).ofMessage_toMessage (sized t ht) t.sourceName
            exact ⟨t', read, trivial⟩
        refine ⟨.tensors ts', .tensors (code.trans (by rw [hv]; rfl)) ?_, .plain rfl rfl⟩
        rw [given, List.mapM_map]
        exact read
    | graphs gs =>
        rw [hv] at inside
        have given : a.toMessage.graphs = gs.map fun g => g.toMessage := by
          rw [toMessage]
          split <;> simp_all
        obtain ⟨gs', read, all⟩ := exists_mapM_eq_ok inside
        refine ⟨_, .graphs (code.trans (by rw [hv]; rfl)) ?_, .graphs all⟩
        rw [given, List.mapM_map]
        exact read
  · exact ⟨_, .undefined code, .plain none rfl⟩

theorem Attribute.exists_ofMessage_toMessage {a : Attribute} (h : a.Storable)
    (sized : ∀ t ∈ a.value.tensorList, t.Sized)
    (inside : ∀ g ∈ a.value.graphList, ∃ g', Graph.ofMessage g.toMessage = .ok g' ∧ g.Alike g') :
    ∃ a', Attribute.ofMessage a.toMessage = .ok a' ∧ Attribute.Nested Graph.Alike a a' := by
  obtain ⟨v, stored, nested⟩ := exists_storedIn_toMessage h sized inside
  refine ⟨_, ofMessage_eq_ok_iff.2 ⟨v, stored, rfl⟩, ?_, nested⟩
  unfold withValue
  rw [toMessage]
  split <;> rfl

theorem Node.exists_ofMessage_toMessage {n : Node} (h : n.Storable)
    (sized : ∀ a ∈ n.attributes, ∀ t ∈ a.value.tensorList, t.Sized)
    (inside : ∀ p ∈ n.subgraphs, ∃ g', Graph.ofMessage p.2.toMessage = .ok g' ∧ p.2.Alike g') :
    ∃ n', Node.ofMessage n.toMessage = .ok n' ∧ n.Alike n' := by
  obtain ⟨as, read, all⟩ := exists_mapM_eq_ok
    (f := fun a : Attribute => Attribute.ofMessage a.toMessage) fun a ha =>
      Attribute.exists_ofMessage_toMessage (h.attributes a ha) (sized a ha) fun g hg =>
        inside (a.name, g) (List.mem_flatMap.2 ⟨a, ha, List.mem_map.2 ⟨g, hg, rfl⟩⟩)
  rw [toMessage, ofMessage]
  dsimp only
  rw [Option.getD_some, if_neg (by rw [String.isEmpty_iff]; exact h.opType)]
  simp only [List.mapM_subtype, List.unattach_attach, List.mapM_map]
  change ∃ n', (n.attributes.mapM (fun a => Attribute.ofMessage a.toMessage) >>= _) = .ok n' ∧ _
  rw [read]
  exact ⟨_, rfl, rfl, rfl, rfl, rfl, all⟩

namespace Graph

/-- Whether the sizes of the tensors in a graph can be stored. -/
structure Sized (g : Graph) : Prop where
  initializers : ∀ i ∈ g.initializers, i.value.Sized
  attributes : ∀ n ∈ g.nodes, ∀ a ∈ n.attributes, ∀ t ∈ a.value.tensorList, t.Sized

/-- A graph that can be stored is read back as a graph that is alike, node by node. -/
theorem exists_ofMessage_toMessage {g : Graph} (h : g.Everywhere FullyStorable)
    (sized : g.Everywhere Sized) :
    ∃ g', ofMessage g.toMessage = .ok g' ∧ g.Alike g' ∧
      List.Forall₂ Node.Alike g.nodes g'.nodes := by
  induction g using nested_induction with
  | step g ih =>
      obtain ⟨ns, readNodes, nodes⟩ := exists_mapM_eq_ok
        (f := fun n : Node => Node.ofMessage n.toMessage) fun n hn =>
          Node.exists_ofMessage_toMessage (h.here.nodes n hn) (sized.here.attributes n hn)
            fun p hp => by
              obtain ⟨g', read, alike, -⟩ := ih n hn p hp (h.inside hn hp) (sized.inside hn hp)
              exact ⟨g', read, alike⟩
      obtain ⟨is, readInitializers, initializers⟩ := exists_mapM_eq_ok
        (f := fun i : Initializer => Initializer.ofMessage (i.value.toMessage (some i.name)))
          fun i hi => Initializer.exists_ofMessage_toMessage (h.here.graph.initializers i hi)
            (sized.here.initializers i hi)
      have values : ∀ vs : List ValueInfo, ((vs.map ValueInfo.toMessage).map
          ValueInfo.ofMessage).map ValueInfo.name = vs.map ValueInfo.name := by
        intro vs
        rw [List.map_map, List.map_map]
        exact List.map_congr_left fun v _ => v.name_ofMessage_toMessage
      rw [toMessage, ofMessage]
      dsimp only
      simp only [List.mapM_subtype, List.unattach_attach, List.mapM_map]
      change ∃ g', (g.nodes.mapM (fun n => Node.ofMessage n.toMessage) >>= _) = .ok g' ∧ _
      rw [readNodes, Wire.ok_bind]
      change ∃ g', (g.initializers.mapM (fun i =>
        Initializer.ofMessage (i.value.toMessage (some i.name))) >>= _) = .ok g' ∧ _
      rw [readInitializers]
      exact ⟨_, rfl, .ofNodes (values _) (Initializer.names_eq initializers) (values _) nodes, nodes⟩

end Graph

end TensorGraph
