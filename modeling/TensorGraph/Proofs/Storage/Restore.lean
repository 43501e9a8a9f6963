import Mathlib
import TensorGraph.Model
import TensorGraph.Proofs.Evaluation.Values
import TensorGraph.Proofs.Storage.Read

/-!
# Stored graphs are restored

Input:

* a stored graph that can be read.

Algorithm:

* a graph keeps the messages of its tensors and of its declarations, and all other fields as they
  are.  An attribute keeps only the value that its type selects, and a name that it does not have
  becomes the empty one;
* so a graph is restored when each attribute, at every depth, has a name and no other value
  (`Message.Graph.Exact`), and only then;
* what is lost belongs to the message only, and nothing of the graph that was read from it.

Main results:

* `Graph.ensures_toMessage_eq_iff`: what is written after reading is what was read exactly for such
  graphs;
* `Model.load_restores`: loading and writing a model with such a graph gives the bytes that its
  message is written in;
* `Graph.ensures_reread`: any graph that was read is read back from the message that it is written to.
-/

namespace TensorGraph

open Wire (Bytes)

/-! ## Attributes that hold one value -/

namespace Message

namespace Attribute

/-- The fields that hold one value, by the type of attribute that selects them, and whether they are
set. -/
def singleFields (m : Attribute) : List (Int32 × Bool) :=
  [(AttributeCode.float, m.float.isSome), (AttributeCode.int, m.int.isSome),
    (AttributeCode.string, m.string.isSome), (AttributeCode.tensor, m.tensor.isSome),
    (AttributeCode.graph, m.graph.isSome)]

/-- The fields that hold a list, by the type of attribute that selects them, and whether they are
set. -/
def listFields (m : Attribute) : List (Int32 × Bool) :=
  [(AttributeCode.floats, !m.floats.isEmpty), (AttributeCode.ints, !m.ints.isEmpty),
    (AttributeCode.strings, !m.strings.isEmpty), (AttributeCode.tensors, !m.tensors.isEmpty),
    (AttributeCode.graphs, !m.graphs.isEmpty)]

/-- Whether an attribute sets no value but the one that its type selects, and sets that one unless
it is a list. -/
structure HoldsValue (m : Attribute) : Prop where
  single : ∀ p ∈ m.singleFields, p.2 = true ↔ p.1 = m.typeCode
  list : ∀ p ∈ m.listFields, p.2 = true → p.1 = m.typeCode

/-- The type of an attribute says which single value it has, and which lists may have elements. -/
theorem holdsValue_iff {m : Attribute} : m.HoldsValue ↔
    (m.float.isSome ↔ AttributeCode.float = m.typeCode) ∧
    (m.int.isSome ↔ AttributeCode.int = m.typeCode) ∧
    (m.string.isSome ↔ AttributeCode.string = m.typeCode) ∧
    (m.tensor.isSome ↔ AttributeCode.tensor = m.typeCode) ∧
    (m.graph.isSome ↔ AttributeCode.graph = m.typeCode) ∧
    ((!m.floats.isEmpty) = true → AttributeCode.floats = m.typeCode) ∧
    ((!m.ints.isEmpty) = true → AttributeCode.ints = m.typeCode) ∧
    ((!m.strings.isEmpty) = true → AttributeCode.strings = m.typeCode) ∧
    ((!m.tensors.isEmpty) = true → AttributeCode.tensors = m.typeCode) ∧
    ((!m.graphs.isEmpty) = true → AttributeCode.graphs = m.typeCode) := by
  have parts : m.HoldsValue ↔ (∀ p ∈ m.singleFields, p.2 = true ↔ p.1 = m.typeCode) ∧
      ∀ p ∈ m.listFields, p.2 = true → p.1 = m.typeCode :=
    ⟨fun ⟨single, list⟩ => ⟨single, list⟩, fun ⟨single, list⟩ => ⟨single, list⟩⟩
  rw [parts]
  simp only [singleFields, listFields, List.forall_mem_cons, List.not_mem_nil, false_imp_iff,
    implies_true, and_true, and_assoc]

instance (m : Attribute) : Decidable m.HoldsValue := decidable_of_iff _ holdsValue_iff.symm

theorem HoldsValue.graph_eq_none {m : Attribute} (h : m.HoldsValue)
    (other : m.typeCode ≠ AttributeCode.graph) : m.graph = none := by
  obtain ⟨-, -, -, -, graph, -⟩ := holdsValue_iff.1 h
  exact Option.not_isSome_iff_eq_none.1 fun set => other (graph.1 set).symm

theorem HoldsValue.graphs_eq_nil {m : Attribute} (h : m.HoldsValue)
    (other : m.typeCode ≠ AttributeCode.graphs) : m.graphs = [] := by
  obtain ⟨-, -, -, -, -, -, -, -, -, graphs⟩ := holdsValue_iff.1 h
  by_contra set
  exact other (graphs (by simpa using set)).symm

end Attribute

mutual
/-- Whether each attribute, at every depth, has a name and holds the value of its type. -/
inductive Graph.Exact : Graph → Prop
  | intro {m : Graph} (nodes : ∀ n ∈ m.nodes, Node.Exact n) : Graph.Exact m

inductive Node.Exact : Node → Prop
  | intro {m : Node} (attributes : ∀ a ∈ m.attributes, Attribute.Exact a) : Node.Exact m

inductive Attribute.Exact : Attribute → Prop
  | intro {m : Attribute} (named : m.name.isSome) (holds : m.HoldsValue)
      (graph : ∀ g, m.graph = some g → Graph.Exact g) (graphs : ∀ g ∈ m.graphs, Graph.Exact g) :
      Attribute.Exact m
end

theorem Graph.exact_iff {m : Graph} : m.Exact ↔ ∀ n ∈ m.nodes, n.Exact :=
  ⟨fun ⟨nodes⟩ => nodes, .intro⟩

theorem Node.exact_iff {m : Node} : m.Exact ↔ ∀ a ∈ m.attributes, a.Exact :=
  ⟨fun ⟨attributes⟩ => attributes, .intro⟩

theorem Attribute.exact_iff {m : Attribute} : m.Exact ↔ m.name.isSome ∧ m.HoldsValue ∧
    (∀ g, m.graph = some g → g.Exact) ∧ ∀ g ∈ m.graphs, g.Exact :=
  ⟨fun ⟨named, holds, graph, graphs⟩ => ⟨named, holds, graph, graphs⟩,
    fun ⟨named, holds, graph, graphs⟩ => .intro named holds graph graphs⟩

end Message

/-! ## Declarations and tensors -/

theorem ValueInfo.agrees_self (v : ValueInfo) : v.agrees v = true := by
  unfold agrees
  simp

/-- A declaration is written as it was read. -/
theorem ValueInfo.toMessage_ofMessage (m : Message.Value) : (ofMessage m).toMessage = m := by
  have source : (ofMessage m).source = some m := rfl
  unfold toMessage
  rw [source]
  dsimp only
  rw [if_pos (agrees_self _)]

theorem ValueInfo.map_toMessage_ofMessage (ms : List Message.Value) :
    (ms.map ofMessage).map toMessage = ms := by
  rw [List.map_map]
  exact (List.map_congr_left fun m _ => toMessage_ofMessage m).trans (List.map_id ms)

theorem Tensor.toAttributeMessage_of_ofMessage {m : Message.Tensor} {t : Tensor}
    (h : ofMessage m = .ok t) : t.toAttributeMessage = m := by
  unfold toAttributeMessage sourceName
  rw [toMessage_of_ofMessage h, source_of_ofMessage h]
  rfl

theorem some_getD_of_not_isEmpty {o : Option String} (h : ¬ (o.getD "").isEmpty = true) :
    some (o.getD "") = o := by
  cases o with
  | none => exact absurd rfl h
  | some _ => rfl

theorem Initializer.ensures_toMessage_eq (m : Message.Tensor) :
    Ensures (ofMessage m) fun i => i.value.toMessage (some i.name) = m := by
  unfold ofMessage
  dsimp only
  refine .ite (fun _ => .error) fun named => ?_
  refine Ensures.bind (P := fun t => Tensor.ofMessage m = .ok t) (fun _ read => read)
    fun t read => .pure ?_
  rw [Tensor.toMessage_of_ofMessage read, some_getD_of_not_isEmpty named]

/-- A list is written as it was read when each of its elements is. -/
theorem Ensures.mapM_eq_iff {ε α β : Type} {read : α → Except ε β} {w : β → α} {P : α → Prop}
    {l : List α} (same : ∀ x ∈ l, Ensures (read x) fun y => w y = x ↔ P x) :
    Ensures (l.mapM read) fun ys => ys.map w = l ↔ ∀ x ∈ l, P x := by
  refine (forall₂_mapM same).mono fun ys all => ?_
  induction all with
  | nil => simp
  | cons here rest ih =>
      rw [List.map_cons, List.cons_eq_cons, List.forall_mem_cons, here,
        ih fun x hx => same x (List.mem_cons_of_mem _ hx)]

theorem Tensor.map_toAttributeMessage_of_ofMessage {ms : List Message.Tensor} {ts : List Tensor}
    (h : ms.mapM ofMessage = .ok ts) : ts.map toAttributeMessage = ms := by
  refine (Ensures.mapM_eq_iff (P := fun _ => True) (fun m _ t read => ?_) ts h).2 fun _ _ => trivial
  exact iff_true_intro (toAttributeMessage_of_ofMessage read)

theorem AttributeValue.StoredIn.code_eq {m : Message.Attribute} {v : AttributeValue}
    (stored : v.StoredIn m) : v.code = m.typeCode := by
  cases stored with
  | float code | int code | string code | tensor code | graph code | floats code | ints code
  | strings code | tensors code | graphs code | undefined code => exact code.symm

theorem Attribute.frame_withValue {m : Message.Attribute} {v : AttributeValue}
    (stored : v.StoredIn m) :
    (withValue m v).frame =
      { name := some (m.name.getD ""), docString := m.docString, type := m.type
        refName := m.refName, unknown := m.unknown } := by
  have type : (if m.type.isSome then some v.code else none) = m.type := by
    rw [stored.code_eq, Message.Attribute.typeCode]
    cases m.type <;> rfl
  unfold frame withValue
  dsimp only
  rw [type]

theorem some_getD_eq_iff {α : Type} {o : Option α} {x : α} : some (o.getD x) = o ↔ o.isSome := by
  cases o <;> simp

/-- An attribute is written as it was read when it has a name and holds the value of its type, and
its graphs are written as they were read. -/
theorem Attribute.toMessage_withValue_eq_iff {m : Message.Attribute} {v : AttributeValue}
    (stored : v.StoredIn m) :
    (withValue m v).toMessage = m ↔ m.name.isSome ∧ m.HoldsValue ∧
      (∀ g, v = .graph g → some g.toMessage = m.graph) ∧
      ∀ gs, v = .graphs gs → gs.map (fun g => g.toMessage) = m.graphs := by
  rw [toMessage, frame_withValue stored, Message.Attribute.holdsValue_iff]
  cases stored with
  | float code | int code | string code | floats code | ints code | strings code
  | graphs code | undefined code =>
      rw [code]
      cases m
      simp +decide [withValue, some_getD_eq_iff, @eq_comm _ none, and_assoc]
  | tensor code given read =>
      rw [code]
      cases m
      obtain rfl := given
      have same := Tensor.toAttributeMessage_of_ofMessage read
      simp +decide [withValue, some_getD_eq_iff, @eq_comm _ none, same]
  | tensors code read =>
      rw [code]
      have same := Tensor.map_toAttributeMessage_of_ofMessage read
      cases m
      simp +decide [withValue, some_getD_eq_iff, @eq_comm _ none, same]
  | graph code given =>
      rw [code]
      cases m
      obtain rfl := given
      simp +decide [withValue, some_getD_eq_iff, @eq_comm _ none]
      tauto

/-! ## Graphs -/

mutual
/-- A graph is written as it was read exactly when its message is exact. -/
theorem Graph.ensures_toMessage_eq_iff (m : Message.Graph) :
    Ensures (Graph.ofMessage m) fun g => g.toMessage = m ↔ m.Exact := by
  rw [Graph.ofMessage]
  simp only [List.mapM_subtype, List.unattach_attach]
  refine Ensures.bind (.mapM_eq_iff (w := Node.toMessage) (P := Message.Node.Exact) fun n hn => ?_)
    fun ns nodes => ?_
  · have := Message.Graph.sizeOf_nodes hn
    exact Node.ensures_toMessage_eq_iff n
  refine Ensures.bind (.mapM_eq_iff (P := fun _ => True) fun t _ =>
    (Initializer.ensures_toMessage_eq t).mono fun _ same => iff_true_intro same)
    fun is initializers => .pure ?_
  rw [Message.Graph.exact_iff, ← nodes, Graph.toMessage]
  dsimp only
  rw [ValueInfo.map_toMessage_ofMessage, ValueInfo.map_toMessage_ofMessage,
    ValueInfo.map_toMessage_ofMessage, initializers.2 fun _ _ => trivial]
  cases m
  simp
termination_by sizeOf m

theorem Node.ensures_toMessage_eq_iff (m : Message.Node) :
    Ensures (Node.ofMessage m) fun n => n.toMessage = m ↔ m.Exact := by
  rw [Node.ofMessage]
  simp only [List.mapM_subtype, List.unattach_attach]
  refine .ite (fun _ => .error) fun named => ?_
  refine Ensures.bind (.mapM_eq_iff (w := Attribute.toMessage) (P := Message.Attribute.Exact)
    fun a ha => ?_) fun as attributes => .pure ?_
  · have := Message.Node.sizeOf_attributes ha
    exact Attribute.ensures_toMessage_eq_iff a
  rw [Message.Node.exact_iff, ← attributes, Node.toMessage]
  dsimp only
  rw [some_getD_of_not_isEmpty named]
  cases m
  simp
termination_by sizeOf m

theorem Attribute.ensures_toMessage_eq_iff (m : Message.Attribute) :
    Ensures (Attribute.ofMessage m) fun a => a.toMessage = m ↔ m.Exact := by
  intro a ha
  obtain ⟨v, stored, rfl⟩ := Attribute.ofMessage_eq_ok_iff.1 ha
  rw [Attribute.toMessage_withValue_eq_iff stored, Message.Attribute.exact_iff]
  refine and_congr_right fun _ => and_congr_right fun holds => ?_
  -- graphs are only where the type says, so those that are read are all there are
  cases stored with
  | graph code given read =>
      rename_i g stored
      have := Message.Attribute.sizeOf_graph given
      have here := Graph.ensures_toMessage_eq_iff stored g read
      have none := holds.graphs_eq_nil (by rw [code]; decide)
      simp [given, none, here]
  | graphs code read =>
      rename_i gs
      have each : ∀ g ∈ m.graphs,
          Ensures (Graph.ofMessage g) fun g' => g'.toMessage = g ↔ g.Exact := by
        intro g hg
        have := Message.Attribute.sizeOf_graphs hg
        exact Graph.ensures_toMessage_eq_iff g
      have all := Ensures.mapM_eq_iff each gs read
      have none := holds.graph_eq_none (by rw [code]; decide)
      simp [none, all]
  | float code | int code | string code | tensor code | floats code | ints code | strings code
  | tensors code | undefined code =>
      have none := holds.graph_eq_none (by rw [code]; decide)
      have nil := holds.graphs_eq_nil (by rw [code]; decide)
      simp [none, nil]
termination_by sizeOf m
end

/-! ## Models -/

namespace Model

/-- All of a model but its graph is kept as it was. -/
theorem toMessage_eq_iff {m : Message.Model} {stored : Message.Graph}
    (given : m.graph = some stored) {g : Graph} :
    toMessage ⟨g, { m with graph := none }⟩ = m ↔ g.toMessage = stored := by
  constructor
  · intro h
    exact Option.some.inj ((congrArg Message.Model.graph h).trans given)
  · intro h
    simp only [toMessage, h, ← given]

/-- Reading and writing a graph gives its message again exactly when the message is exact, and so
loading and writing a model gives the bytes that its message is written in. -/
theorem load_restores :
    (∀ (m : Message.Graph) (g : Graph), Graph.ofMessage m = .ok g →
      (g.toMessage = m ↔ m.Exact)) ∧
    ∀ (bytes : Bytes) (model : Model), load bytes = .ok model →
      ∃ (m : Message.Model) (stored : Message.Graph),
        Message.Model.decode bytes = .ok m ∧ m.graph = some stored ∧
          (model.toMessage = m ↔ stored.Exact) ∧
          (stored.Exact → model.serialize = m.encode) := by
  refine ⟨fun m => Graph.ensures_toMessage_eq_iff m, fun bytes => ?_⟩
  change Ensures (load bytes) _
  unfold load
  refine Ensures.bind (P := fun m => Message.Model.decode bytes = .ok m) (.mapError fun _ h => h)
    fun m decoded => ?_
  split
  · exact .error
  · split
    · exact .error
    · rename_i stored given
      refine Ensures.bind (.mapError (Graph.ensures_toMessage_eq_iff stored)) fun g same => ?_
      refine Ensures.bind_any fun _ => Ensures.bind_any fun _ => .pure ?_
      have restored := (toMessage_eq_iff given).trans same
      exact ⟨m, stored, decoded, given, restored, fun exact =>
        congrArg Message.Model.encode (restored.2 exact)⟩

/-- A branch that holds two numbers in a typed field, and a field that is not understood. -/
def constantBranch (name : String) : Message.Graph where
  name := some name
  nodes := [{
    opType := some "Constant"
    outputs := [name]
    attributes := [{
      name := some "value"
      tensor := some
        { dims := [2], dataType := some Message.TypeCode.int64, int64Data := [1, 2] }
      type := some Message.AttributeCode.tensor
      unknown := [0xd8, 0x04, 0x05] }] }]
  outputs := [{ name := some name }]

/-- A graph that takes one of two branches.  The type of the second one is not written. -/
def branchingGraph : Message.Graph where
  nodes := [{
    opType := some "If"
    inputs := ["c"]
    outputs := ["y"]
    attributes :=
      [{ name := some "then_branch", graph := some (constantBranch "t")
         type := some Message.AttributeCode.graph },
        { name := some "else_branch", graph := some (constantBranch "e") }] }]
  initializers :=
    [{ name := some "c", dataType := some Message.TypeCode.bool, rawData := some [0x01] }]
  outputs := [{ name := some "y", docString := some "chosen" }]
  valueInfo := [{ name := some "z", type := some { denotation := some "unused" } }]

/-- A model with this graph. -/
def branchingModel : Message.Model where
  irVersion := some 8
  graph := some branchingGraph
  metadata := [{ key := some "k", value := some "v" }]
  unknown := [0xd8, 0x04, 0x05]

theorem exact_constantBranch (name : String) : (constantBranch name).Exact := by
  refine .intro fun n hn => ?_
  rw [List.mem_singleton.1 hn]
  refine .intro fun a ha => ?_
  rw [List.mem_singleton.1 ha]
  exact .intro rfl (by decide) nofun nofun

theorem exact_branchingGraph : branchingGraph.Exact := by
  refine .intro fun n hn => ?_
  rw [List.mem_singleton.1 hn]
  refine .intro fun a ha => ?_
  rcases List.mem_pair.1 ha with rfl | rfl
  · refine .intro rfl (by decide) (fun _ given => ?_) nofun
    exact Option.some.inj given ▸ exact_constantBranch "t"
  · refine .intro rfl (by decide) (fun _ given => ?_) nofun
    exact Option.some.inj given ▸ exact_constantBranch "e"

set_option maxRecDepth 4000 in
/-- The branches of the model are read and written at their depth, and so is all else in it. -/
theorem load_restores_branches :
    branchingGraph.Exact ∧ ∃ model : Model,
      load branchingModel.encode = .ok model ∧ model.toMessage = branchingModel ∧
        model.serialize = branchingModel.encode := by
  have decoded : Message.Model.decode branchingModel.encode = .ok branchingModel := by cbv
  have loaded : (load branchingModel.encode).isOk = true := by
    unfold load
    rw [decoded]
    cbv
  cases done : load branchingModel.encode with
  | error e =>
      rw [done] at loaded
      cases loaded
  | ok model =>
      obtain ⟨m, stored, read, given, same, written⟩ := load_restores.2 _ model done
      rw [decoded] at read
      cases read
      cases given
      have exact : branchingGraph.Exact := exact_branchingGraph
      exact ⟨exact, model, rfl, same.2 exact, written exact⟩

end Model

/-! ## Graphs that were read are read back -/

/-- A list whose type was found, and not written, has elements. -/
theorem Message.Attribute.set_of_typeCode {m : Message.Attribute} (type : m.type = none) :
    (m.typeCode = AttributeCode.floats → m.floats.isEmpty = false) ∧
    (m.typeCode = AttributeCode.ints → m.ints.isEmpty = false) ∧
    (m.typeCode = AttributeCode.strings → m.strings.isEmpty = false) ∧
    (m.typeCode = AttributeCode.tensors → m.tensors.isEmpty = false) ∧
    (m.typeCode = AttributeCode.graphs → m.graphs.isEmpty = false) := by
  unfold typeCode
  rw [type, Option.getD_none]
  -- only which fields are set matters, so that all cases can be tried
  generalize m.float.isSome = float, m.int.isSome = int, m.string.isSome = string,
    m.tensor.isSome = tensor, m.graph.isSome = graph, m.floats.isEmpty = floats,
    m.ints.isEmpty = ints, m.strings.isEmpty = strings, m.tensors.isEmpty = tensors,
    m.graphs.isEmpty = graphs
  revert float int string tensor graph floats ints strings tensors graphs
  decide

/-- The type of an attribute that was read is found again, also when it is not written. -/
theorem Attribute.typeCode_toMessage_withValue {m : Message.Attribute} {v : AttributeValue}
    (stored : v.StoredIn m) : (withValue m v).toMessage.typeCode = m.typeCode := by
  rw [toMessage, frame_withValue stored]
  cases type : m.type with
  | some c => cases stored <;> simp [withValue, Message.Attribute.typeCode, type]
  | none =>
      obtain ⟨floats, ints, strings, tensors, graphs⟩ := Message.Attribute.set_of_typeCode type
      cases stored with
      | float code | int code | string code | tensor code | graph code | undefined code =>
          rw [code]
          simp [withValue, Message.Attribute.typeCode]
      | floats code =>
          rw [code]
          simp [withValue, Message.Attribute.typeCode, floats code]
      | ints code =>
          rw [code]
          simp [withValue, Message.Attribute.typeCode, ints code]
      | strings code =>
          rw [code]
          simp [withValue, Message.Attribute.typeCode, strings code]
      | tensors code read =>
          rw [code]
          simp [withValue, Message.Attribute.typeCode,
            Tensor.map_toAttributeMessage_of_ofMessage read, tensors code]
      | @graphs gs code read =>
          have set : gs ≠ [] := by
            rintro rfl
            have nil := List.forall₂_nil_right_iff.1 (mapM_eq_ok_iff.1 read)
            exact List.isEmpty_eq_false_iff.1 (graphs code) nil
          rw [code]
          simp [withValue, Message.Attribute.typeCode, set]

/-- What was read one by one is read back in a row. -/
theorem Ensures.mapM_reread {ε α β : Type} {read : α → Except ε β} {w : β → α} {l : List α}
    (each : ∀ x ∈ l, Ensures (read x) fun y => read (w y) = .ok y) :
    Ensures (l.mapM read) fun ys => (ys.map w).mapM read = .ok ys := by
  refine (Ensures.mapM each).mono fun ys all => ?_
  rw [List.mapM_map, mapM_eq_ok_iff, List.forall₂_same]
  exact all

theorem Initializer.ensures_reread (m : Message.Tensor) :
    Ensures (ofMessage m) fun i => ofMessage (i.value.toMessage (some i.name)) = .ok i :=
  fun i read => (congrArg ofMessage (ensures_toMessage_eq m i read)).trans read

mutual
/-- A graph that was read is read back from the message that it is written to. -/
theorem Graph.ensures_reread (m : Message.Graph) :
    Ensures (Graph.ofMessage m) fun g => Graph.ofMessage g.toMessage = .ok g := by
  rw [Graph.ofMessage]
  simp only [List.mapM_subtype, List.unattach_attach]
  refine Ensures.bind (.mapM_reread (w := Node.toMessage) fun n hn => ?_) fun ns nodes => ?_
  · have := Message.Graph.sizeOf_nodes hn
    exact Node.ensures_reread n
  refine Ensures.bind (.mapM_reread fun t _ => Initializer.ensures_reread t)
    fun is initializers => .pure ?_
  rw [Graph.toMessage, Graph.ofMessage]
  simp only [List.mapM_subtype, List.unattach_attach, ValueInfo.map_toMessage_ofMessage]
  rw [nodes, Wire.ok_bind, initializers]
  rfl
termination_by sizeOf m

theorem Node.ensures_reread (m : Message.Node) :
    Ensures (Node.ofMessage m) fun n => Node.ofMessage n.toMessage = .ok n := by
  rw [Node.ofMessage]
  simp only [List.mapM_subtype, List.unattach_attach]
  refine .ite (fun _ => .error) fun named => ?_
  refine Ensures.bind (.mapM_reread (w := Attribute.toMessage) fun a ha => ?_)
    fun as attributes => .pure ?_
  · have := Message.Node.sizeOf_attributes ha
    exact Attribute.ensures_reread a
  rw [Node.toMessage, Node.ofMessage]
  simp only [List.mapM_subtype, List.unattach_attach, Option.getD_some]
  rw [if_neg named, attributes]
  rfl
termination_by sizeOf m

theorem Attribute.ensures_reread (m : Message.Attribute) :
    Ensures (Attribute.ofMessage m) fun a => Attribute.ofMessage a.toMessage = .ok a := by
  intro a ha
  obtain ⟨v, stored, rfl⟩ := Attribute.ofMessage_eq_ok_iff.1 ha
  have found := Attribute.typeCode_toMessage_withValue stored
  refine Attribute.ofMessage_eq_ok_iff.2 ⟨v, ?_, ?_⟩
  · rw [Attribute.toMessage] at found ⊢
    cases stored with
    | float code => exact .float (found.trans code)
    | int code => exact .int (found.trans code)
    | string code => exact .string (found.trans code)
    | floats code => exact .floats (found.trans code)
    | ints code => exact .ints (found.trans code)
    | strings code => exact .strings (found.trans code)
    | undefined code => exact .undefined (found.trans code)
    | tensor code given read =>
        refine .tensor (found.trans code) rfl ?_
        rw [Tensor.toAttributeMessage_of_ofMessage read, read]
    | tensors code read =>
        refine .tensors (found.trans code) ?_
        exact (congrArg _ (Tensor.map_toAttributeMessage_of_ofMessage read)).trans read
    | @graph g stored code given read =>
        have := Message.Attribute.sizeOf_graph given
        exact .graph (found.trans code) rfl (Graph.ensures_reread stored g read)
    | @graphs gs code read =>
        refine .graphs (found.trans code) (Ensures.mapM_reread (fun g hg => ?_) gs read)
        have := Message.Attribute.sizeOf_graphs hg
        exact Graph.ensures_reread g
  · rw [Attribute.toMessage, Attribute.frame_withValue stored]
    cases stored <;> simp [Attribute.withValue]
termination_by sizeOf m
end

end TensorGraph
