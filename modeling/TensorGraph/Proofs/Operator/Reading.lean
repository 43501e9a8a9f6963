import TensorGraph.Operator.Reading
import TensorGraph.Proofs.Graph.Nested
import TensorGraph.Proofs.Tensor.Alike

/-!
# Operators of nodes whose nested graphs change

Input:

* two nodes of the same type that differ in the graphs of their attributes only
  (`Node.Reworks`).

No attribute of a kernel is a graph, so both nodes have the same kernel.  Control-flow operators
differ in their graphs only.

Main result:

* `Operator.ofNode_reworks`: the operators of both nodes are related as their graphs are.
-/

namespace TensorGraph

/-- Whether a node applies the operator of another one to other graphs, which are related. -/
structure Node.Reworks (R : Graph → Graph → Prop) (n n' : Node) : Prop where
  opType : n'.opType = n.opType
  domain : n'.domain = n.domain
  outputs : n'.outputs.length = n.outputs.length
  attributes : List.Forall₂ (Attribute.Revises R) n.attributes n'.attributes

/-- Operators that differ in their graphs only, which are related. -/
inductive Operator.Related (R : Graph → Graph → Prop) : Operator → Operator → Prop
  | kernel (k : Kernel) : Related R (.kernel k) (.kernel k)
  | branch {a a' b b' : Graph} (onTrue : R a a') (onFalse : R b b') :
    Related R (.branch a b) (.branch a' b')
  | loop {b b' : Graph} (body : R b b') : Related R (.loop b) (.loop b')

/-! ## Attributes that hold no graphs -/

/-- Whether a way to read attributes cannot tell graphs from each other. -/
structure AttributeValue.Blind {α : Type} (f : AttributeValue → Except AttributeProblem α) :
    Prop where
  graph : ∀ g g', f (.graph g) = f (.graph g')
  graphs : ∀ gs gs', f (.graphs gs) = f (.graphs gs')

namespace AttributeValue.Blind

@[simp] theorem asFloat : Blind asFloat := ⟨fun _ _ => rfl, fun _ _ => rfl⟩

@[simp] theorem asInt : Blind asInt := ⟨fun _ _ => rfl, fun _ _ => rfl⟩

@[simp] theorem asBool : Blind asBool := ⟨fun _ _ => rfl, fun _ _ => rfl⟩

@[simp] theorem asInts : Blind asInts := ⟨fun _ _ => rfl, fun _ _ => rfl⟩

@[simp] theorem asNats : Blind asNats := ⟨fun _ _ => rfl, fun _ _ => rfl⟩

@[simp] theorem asCount : Blind asCount := ⟨fun _ _ => rfl, fun _ _ => rfl⟩

@[simp] theorem asText : Blind asText := ⟨fun _ _ => rfl, fun _ _ => rfl⟩

@[simp] theorem asTensor : Blind asTensor := ⟨fun _ _ => rfl, fun _ _ => rfl⟩

@[simp] theorem asType : Blind asType := ⟨fun _ _ => rfl, fun _ _ => rfl⟩

@[simp] theorem asFloats : Blind Operator.readConstant.asFloats := ⟨fun _ _ => rfl, fun _ _ => rfl⟩

variable {α β : Type} {f : AttributeValue → Except AttributeProblem α}

/-- What is read may be checked afterwards. -/
@[simp] theorem bind (h : Blind f) (check : α → Except AttributeProblem β) :
    Blind fun v => f v >>= check :=
  ⟨fun g g' => by rw [h.graph g g'], fun gs gs' => by rw [h.graphs gs gs']⟩

end AttributeValue.Blind

open AttributeValue

/-! ## Nodes that read alike -/

/-- Whether a node has the operator type of another one, and attributes that cannot be told from its
attributes but for graphs. -/
structure Node.ReadsAlike (n n' : Node) : Prop where
  opType : n'.opType = n.opType
  outputs : n'.outputs.length = n.outputs.length
  read? : ∀ {α : Type} {f : AttributeValue → Except AttributeProblem α}, Blind f → ∀ name,
    n'.read? name f = n.read? name f

namespace Node.ReadsAlike

variable {n n' : Node} {α : Type} {f : AttributeValue → Except AttributeProblem α}

theorem readOr (h : n.ReadsAlike n') (blind : Blind f) (name : String) (default : α) :
    n'.readOr name default f = n.readOr name default f := by
  unfold Node.readOr
  rw [h.read? blind]

theorem readRequired (h : n.ReadsAlike n') (blind : Blind f) (name : String) :
    n'.readRequired name f = n.readRequired name f := by
  unfold Node.readRequired
  rw [h.read? blind]

end Node.ReadsAlike

theorem AttributeValue.Nested.flip {R : Graph → Graph → Prop} {v v' : AttributeValue}
    (h : v.Nested R v') : v'.Nested (fun g g' => R g' g) v := by
  cases h with
  | graph h => exact .graph h
  | graphs h => exact .graphs h.flip
  | plain h h' => exact .plain h' h

theorem Attribute.Revises.flip {R : Graph → Graph → Prop} {a a' : Attribute} (h : a.Revises R a') :
    a'.Revises (fun g g' => R g' g) a := by
  obtain ⟨v, rfl, nested, plain⟩ := h
  refine ⟨a.value, ?_, nested.flip, fun none => (plain ?_).symm⟩
  · cases a
    rfl
  · have all := nested.graphList
    rw [none] at all
    exact List.forall₂_nil_right_iff.1 all

namespace Node.Reworks

theorem flip {R : Graph → Graph → Prop} {n n' : Node} (h : n.Reworks R n') :
    n'.Reworks (fun g g' => R g' g) n :=
  ⟨h.opType.symm, h.domain.symm, h.outputs.symm,
    (h.attributes.imp fun _ _ => Attribute.Revises.flip).flip⟩

variable {R : Graph → Graph → Prop} {n n' : Node} {α : Type}
  {f : AttributeValue → Except AttributeProblem α}

theorem isDefaultDomain (h : Reworks R n n') : n'.isDefaultDomain = n.isDefaultDomain := by
  unfold Node.isDefaultDomain
  rw [h.domain]

/-- The attributes with a name differ in their graphs only. -/
theorem attribute? (h : Reworks R n n') (name : String) :
    Option.Rel (fun v v' => v.Nested R v' ∧ (v.graphList = [] → v' = v)) (n.attribute? name)
      (n'.attribute? name) := by
  have attributes := h.attributes
  unfold Node.attribute?
  generalize n.attributes = as at attributes ⊢
  generalize n'.attributes = as' at attributes ⊢
  induction attributes with
  | nil => exact .none
  | cons first _ ih =>
      obtain ⟨v, rfl, nested, plain⟩ := first
      rw [List.find?_cons, List.find?_cons]
      dsimp only
      split
      · exact .some (And.intro nested plain)
      · exact ih

theorem read? (h : Reworks R n n') (blind : Blind f) (name : String) :
    n'.read? name f = n.read? name f := by
  have rel := h.attribute? name
  unfold Node.read?
  generalize n.attribute? name = o at rel ⊢
  generalize n'.attribute? name = o' at rel ⊢
  cases rel with
  | none => rfl
  | some hv =>
      obtain ⟨nested, plain⟩ := hv
      cases nested with
      | @graph g g' _ => simp only [blind.graph g' g]
      | @graphs gs gs' _ => simp only [blind.graphs gs' gs]
      | plain none _ => rw [plain none]

theorem readsAlike (h : Reworks R n n') : n.ReadsAlike n' :=
  ⟨h.opType, h.outputs, h.read?⟩

/-- A graph that must be there. -/
theorem readRequired_asGraph (h : Reworks R n n') (name : String) :
    Matches R (n.readRequired name asGraph) (n'.readRequired name asGraph) := by
  have rel := h.attribute? name
  unfold Node.readRequired Node.read?
  generalize n.attribute? name = o at rel ⊢
  generalize n'.attribute? name = o' at rel ⊢
  cases rel with
  | none => exact .error
  | @some v v' hv =>
      obtain ⟨nested, -⟩ := hv
      cases nested with
      | graph hR => exact .ok hR
      | graphs _ => exact .error
      | plain none _ => cases v <;> first | exact .error | cases none

end Node.Reworks

/-! ## Operators -/

namespace Operator

variable {R : Graph → Graph → Prop} {n n' : Node}

theorem readPadding_congr (h : n.ReadsAlike n') : readPadding n' = readPadding n := by
  unfold readPadding
  simp only [h.read?, h.readOr, Blind.asText, Blind.asNats, Blind.bind]

theorem readWindow_congr (h : n.ReadsAlike n') : readWindow n' = readWindow n := by
  unfold readWindow
  simp only [h.readRequired, h.readOr, readPadding_congr h, Blind.asNats, Blind.asBool]

theorem readUniform_congr (h : n.ReadsAlike n') : readUniform n' = readUniform n := by
  unfold readUniform
  simp only [h.readOr, Blind.asFloat]

theorem readNormal_congr (h : n.ReadsAlike n') : readNormal n' = readNormal n := by
  unfold readNormal
  simp only [h.readOr, Blind.asFloat]

/-- Nodes that read alike have the same kernel. -/
theorem readKernel?_congr (h : n.ReadsAlike n') (version : Option Int64) :
    readKernel? version n' = readKernel? version n := by
  unfold readKernel?
  rw [h.opType]
  simp only [readArgSelect, readReduction, readAveragePool, readMaxPool, readConstant,
    readConstantOfShape, readConv, readGemm, readRandom, readRandomLike, readBernoulli,
    readMultinomial, readHardSigmoid, readClip, readShape, readSlice, readSplit, readSoftmax,
    readDropout, readPadding_congr h, readWindow_congr h, readUniform_congr h,
    readNormal_congr h, h.read?, h.readOr, h.readRequired, h.outputs, Blind.asFloat, Blind.asInt,
    Blind.asBool, Blind.asInts, Blind.asNats, Blind.asCount, Blind.asTensor, Blind.asType,
    Blind.asFloats, Blind.bind]

/-- The operators of both nodes are related as their graphs are. -/
theorem ofNode_reworks (h : n.Reworks R n') (version : Option Int64) :
    Matches (Related R) (ofNode version n) (ofNode version n') := by
  unfold ofNode
  rw [h.isDefaultDomain, h.opType, readKernel?_congr h.readsAlike]
  refine .ite (fun _ => .ite (fun _ => ?_) fun _ => .ite (fun _ => ?_) fun _ => ?_) fun _ => .error
  · exact (h.readRequired_asGraph "then_branch").bind fun _ _ ha =>
      (h.readRequired_asGraph "else_branch").bind fun _ _ hb => .pure (.branch ha hb)
  · exact (h.readRequired_asGraph "body").map fun _ _ hb => .loop hb
  · split
    · rename_i k _
      cases k with
      | error e => exact .error
      | ok k => exact .ok (.kernel k)
    · exact .error

/-- Nodes with the same attributes under each name have the same operator. -/
theorem ofNode_congr (domain : n'.isDefaultDomain = n.isDefaultDomain)
    (opType : n'.opType = n.opType) (outputs : n'.outputs.length = n.outputs.length)
    (attribute? : ∀ name, n'.attribute? name = n.attribute? name) (version : Option Int64) :
    ofNode version n' = ofNode version n := by
  have read : ∀ {α : Type} (f : AttributeValue → Except AttributeProblem α) (name : String),
      n'.read? name f = n.read? name f := fun f name => by
    unfold Node.read?
    rw [attribute?]
  have alike : n.ReadsAlike n' := ⟨opType, outputs, fun {α f} _ name => read f name⟩
  have graph : ∀ name, n'.readRequired name asGraph = n.readRequired name asGraph := fun name => by
    unfold Node.readRequired
    rw [read]
  unfold ofNode readBranch
  rw [domain, opType, readKernel?_congr alike, graph, graph, graph]

end Operator
end TensorGraph
