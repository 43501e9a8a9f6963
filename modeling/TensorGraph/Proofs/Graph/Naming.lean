import TensorGraph.Proofs.FreshName
import TensorGraph.Proofs.Graph.Emission
import TensorGraph.Proofs.Graph.Nested

/-!
# What emission keeps

Input:

* expressions that are made from earlier ones, and a state of emission.

A step makes an expression of what was emitted (`GraphBuilder.make`).  It adds at most one input, one
constant or one node, and the names that it adds are new.  What is known of the names of an expression
depends on this expression and on what it is made from only, so a step leaves it as it is.

Main results:

* `GraphBuilder.Fresh.make`: the names of constants and outputs stay apart from each other;
* `GraphBuilder.Built.step` and `GraphBuilder.Built.of_steps`: each operator that was emitted is one
  node, which reads the names of its operands, and these are inputs or were made before.
-/

namespace TensorGraph

/-! ## Fresh names -/

/-- The names of the constants and of the outputs of nodes. -/
def Graph.generated (g : Graph) : List String :=
  g.initializers.map Initializer.name ++ g.nodes.flatMap Node.outputs

namespace GraphBuilder

variable {es : Expressions} {b b' : GraphBuilder} {i j : Nat} {e : Expression} {stem : String}

theorem length_names (b : GraphBuilder) (stem : String) (count : Nat) :
    (b.names stem count).2.length = count := by
  induction count generalizing b with
  | zero => rfl
  | succ count ih => exact congrArg (· + 1) (ih _)

theorem not_mem_used_of_mem_names {count : Nat} {x : String} (h : x ∈ (b.names stem count).2) :
    x ∉ b.used := by
  induction count generalizing b with
  | zero => cases h
  | succ count ih =>
      rcases List.mem_cons.1 h with rfl | h
      · exact freshName_not_mem b.used stem
      · exact fun used => ih h (List.mem_cons_of_mem _ used)

theorem nodup_names (b : GraphBuilder) (stem : String) (count : Nat) :
    (b.names stem count).2.Nodup := by
  induction count generalizing b with
  | zero => exact List.nodup_nil
  | succ count ih =>
      exact List.nodup_cons.2 ⟨fun h => not_mem_used_of_mem_names h List.mem_cons_self, ih _⟩

theorem ne_empty_of_mem_names (hs : stem ≠ "") {count : Nat} {x : String}
    (h : x ∈ (b.names stem count).2) : x ≠ "" := by
  induction count generalizing b with
  | zero => cases h
  | succ count ih =>
      rcases List.mem_cons.1 h with rfl | h
      · exact freshName_ne_empty hs
      · exact ih h

/-- Whether the names of values that were made differ from each other, are marked as used, and are
not empty. -/
structure Fresh (b : GraphBuilder) : Prop where
  distinct : b.graph.generated.Nodup
  used : ∀ x ∈ b.graph.generated, x ∈ b.used
  nonempty : "" ∉ b.graph.generated

/-! ## The node of an operator -/

theorem operatorNode_eq (name opType : String) (attributes : List (String × AttributeValue))
    (inputs outputs : List String) :
    operatorNode name opType attributes inputs outputs =
      { name := some name, opType := opType, inputs := inputs, outputs := outputs,
        attributes := attributes.foldl (fun as p => Node.setAttributeIn p.1 p.2 as) [] } := by
  have fold : ∀ n : Node, attributes.foldl (fun n p => n.setAttribute p.1 p.2) n =
      { n with
        attributes := attributes.foldl (fun as p => Node.setAttributeIn p.1 p.2 as) n.attributes } := by
    induction attributes with
    | nil =>
        intro n
        cases n
        rfl
    | cons p rest ih => exact fun n => ih _
  exact fold _

@[simp] theorem opType_operatorNode (name opType : String)
    (attributes : List (String × AttributeValue)) (inputs outputs : List String) :
    (operatorNode name opType attributes inputs outputs).opType = opType := by
  rw [operatorNode_eq]

@[simp] theorem inputs_operatorNode (name opType : String)
    (attributes : List (String × AttributeValue)) (inputs outputs : List String) :
    (operatorNode name opType attributes inputs outputs).inputs = inputs := by
  rw [operatorNode_eq]

@[simp] theorem outputs_operatorNode (name opType : String)
    (attributes : List (String × AttributeValue)) (inputs outputs : List String) :
    (operatorNode name opType attributes inputs outputs).outputs = outputs := by
  rw [operatorNode_eq]

theorem subgraphs_operatorNode {name opType : String} {attributes : List (String × AttributeValue)}
    {inputs outputs : List String} (plain : ∀ p ∈ attributes, p.2.graphList = []) :
    (operatorNode name opType attributes inputs outputs).subgraphs = [] := by
  have fold : ∀ n : Node, n.subgraphs = [] →
      (attributes.foldl (fun n p => n.setAttribute p.1 p.2) n).subgraphs = [] := by
    induction attributes with
    | nil => exact fun n hn => hn
    | cons p rest ih =>
        intro n hn
        refine ih (fun q hq => plain q (List.mem_cons_of_mem _ hq)) _ ?_
        have sub := Node.subgraphs_setAttribute (n := n) p.1 p.2 (plain p List.mem_cons_self)
        rw [hn] at sub
        exact List.sublist_nil.1 sub
  exact fold _ rfl

theorem map_inputName_congr {names names' : Nat → List String} {operands : List (Option Nat)}
    (same : ∀ j, some j ∈ operands → names' j = names j) :
    operands.map (inputName names') = operands.map (inputName names) := by
  refine List.map_congr_left fun operand mem => ?_
  cases operand with
  | none => rfl
  | some j => simp only [inputName, Option.elim_some, same j mem]

end GraphBuilder

/-! ## What emission keeps -/

/-- Whether the outputs of an expression have the given names in a graph. -/
def Expression.Named (names : Nat → List String) (g : Graph) (i : Nat) : Expression → Prop
  | .value name _ _ => names i = [name]
  | .constant t => ∃ c, names i = [c] ∧ ⟨c, t⟩ ∈ g.initializers
  | .operator _ _ _ outputs => (names i).length = outputs
  | .output producer index => names i = [(names producer).getD index ""]

/-- Whether a node stands for an operator, when the outputs of expressions have the given names. -/
def Expressions.IsNodeOf (es : Expressions) (names : Nat → List String) (i : Nat) (n : Node) : Prop :=
  ∃ name opType attributes operands outputs,
    es[i]? = some (.operator opType attributes operands outputs) ∧
      n = GraphBuilder.operatorNode name opType attributes
        (operands.map (GraphBuilder.inputName names)) (names i)

section

variable {es : Expressions} {names names' : Nat → List String} {i : Nat} {e : Expression}

theorem Expression.Named.length_eq {g : Graph} (h : e.Named names g i) :
    (names i).length = e.outputCount := by
  cases e with
  | value | output => exact congrArg List.length h
  | constant =>
      obtain ⟨c, hc, -⟩ := h
      exact congrArg List.length hc
  | operator => exact h

/-- Only the names of an expression and of what it is made from matter. -/
theorem Expression.Named.congr {g g' : Graph} (h : e.Named names g i)
    (same : ∀ j, j = i ∨ j ∈ e.dependencies → names' j = names j)
    (sub : g.initializers ⊆ g'.initializers) : e.Named names' g' i := by
  have here := same i (Or.inl rfl)
  cases e with
  | value => exact here.trans h
  | constant t =>
      obtain ⟨c, hc, mem⟩ := h
      exact ⟨c, here.trans hc, sub mem⟩
  | operator => exact (congrArg List.length here).trans h
  | output producer index =>
      show names' i = [(names' producer).getD index ""]
      rw [here, same producer (Or.inr List.mem_cons_self)]
      exact h

theorem Expressions.IsNodeOf.congr {n : Node} (h : es.IsNodeOf names i n)
    (same : ∀ j, j = i ∨ es.DependsOn i j → names' j = names j) : es.IsNodeOf names' i n := by
  obtain ⟨name, opType, attributes, operands, outputs, he, rfl⟩ := h
  refine ⟨name, opType, attributes, operands, outputs, he, ?_⟩
  rw [same i (Or.inl rfl), GraphBuilder.map_inputName_congr fun j mem =>
    same j (Or.inr ⟨_, he, List.reduceOption_mem_iff.2 mem⟩)]

end

namespace GraphBuilder

variable {es : Expressions} {b b' : GraphBuilder} {i j : Nat} {e : Expression}

/-- Whether a value with a name is there: an input that was met or a value that was made. -/
def Visible (b : GraphBuilder) (x : String) : Prop :=
  x ∈ b.values.map ValueInfo.name ∨ x ∈ b.graph.generated

/-- What is true after any number of steps. -/
structure Built (es : Expressions) (b : GraphBuilder) : Prop where
  closed : es.Closed b.known
  nodup : b.known.Nodup
  fresh : b.Fresh
  named : ∀ i ∈ b.known, ∀ e, es[i]? = some e → e.Named b.outputsOf b.graph i
  nodes : List.Forall₂ (es.IsNodeOf b.outputsOf) (b.known.reverse.filter es.isOperator) b.graph.nodes
  values : ∀ x, x ∈ b.values.map ValueInfo.name ↔
    ∃ i ∈ b.known, ∃ type shape, es[i]? = some (.value x type shape)
  visible : ∀ i ∈ b.known, ∀ x ∈ b.outputsOf i, b.Visible x
  reads : ∀ (k : Nat) n, b.graph.nodes[k]? = some n → ∀ x ∈ n.inputs, x = "" ∨
    x ∈ b.values.map ValueInfo.name ∨ x ∈ b.graph.initializers.map Initializer.name ∨
      x ∈ (b.graph.nodes.take k).flatMap Node.outputs

/-! ## What a step adds -/

/-- The inputs that an expression adds. -/
def newValues : Expression → List ValueInfo
  | .value name type shape => [{ name := name, type := type, shape := shape }]
  | _ => []

/-- The constants that an expression adds. -/
def newInitializers (b : GraphBuilder) : Expression → List Initializer
  | .constant t => [⟨freshName b.used "const", t⟩]
  | _ => []

/-- The nodes that an expression adds. -/
def newNodes (b : GraphBuilder) : Expression → List Node
  | .operator opType attributes operands outputs =>
    let made := b.names (opType ++ "_out") outputs
    [operatorNode (made.1.name opType).2 opType attributes (operands.map (inputName b.outputsOf))
      made.2]
  | _ => []

/-- The names that an expression adds. -/
def newNames (b : GraphBuilder) (e : Expression) : List String :=
  (b.newInitializers e).map Initializer.name ++ (b.newNodes e).flatMap Node.outputs

@[simp] theorem newNames_operator (b : GraphBuilder) (opType : String)
    (attributes : List (String × AttributeValue)) (operands : List (Option Nat)) (outputs : Nat) :
    b.newNames (.operator opType attributes operands outputs) =
      (b.names (opType ++ "_out") outputs).2 := by
  simp [newNames, newInitializers, newNodes]

theorem values_make (b : GraphBuilder) (e : Expression) :
    (b.make e).1.values = newValues e ++ b.values := by
  cases e with
  | value | constant | output => rfl
  | operator opType attributes operands outputs => simp [make, name, fst_names, newValues]

theorem nodes_make (b : GraphBuilder) (e : Expression) :
    (b.make e).1.graph.nodes = b.graph.nodes ++ b.newNodes e := by
  cases e with
  | value | constant | output => exact (List.append_nil _).symm
  | operator => rfl

theorem initializers_make (fresh : b.Fresh) (e : Expression) :
    (b.make e).1.graph.initializers = b.graph.initializers ++ b.newInitializers e := by
  cases e with
  | value | output | operator => exact (List.append_nil _).symm
  | constant t =>
      refine Graph.setInitializerIn_of_not_mem (fun hx => ?_) t
      exact freshName_not_mem b.used "const" (fresh.used _ (List.mem_append_left _ hx))

theorem generated_make (fresh : b.Fresh) (e : Expression) :
    (b.make e).1.graph.generated.Perm (b.graph.generated ++ b.newNames e) := by
  unfold Graph.generated newNames
  rw [initializers_make fresh, nodes_make, List.map_append, List.flatMap_append, List.append_assoc,
    List.append_assoc]
  refine List.Perm.append_left _ ?_
  rw [← List.append_assoc, ← List.append_assoc]
  exact List.perm_append_comm.append_right _

theorem used_make (b : GraphBuilder) (e : Expression) {x : String}
    (h : x ∈ b.newNames e ∨ x ∈ b.used) : x ∈ (b.make e).1.used := by
  cases e with
  | value | output => exact h.resolve_left List.not_mem_nil
  | constant t => simpa [newNames, newInitializers, newNodes, make, name] using h
  | operator opType attributes operands outputs =>
      rw [newNames_operator] at h
      simp only [make, name, fst_names, List.mem_cons, List.mem_append, List.mem_reverse]
      exact Or.inr h

theorem stem_ne_empty (opType : String) : opType ++ "_out" ≠ "" := by
  intro h
  have := congrArg String.length h
  simp at this

/-- The names that are added are new. -/
theorem newNames_fresh (b : GraphBuilder) (e : Expression) :
    (b.newNames e).Nodup ∧ ∀ x ∈ b.newNames e, x ∉ b.used ∧ x ≠ "" := by
  cases e with
  | value | output => simp [newNames, newInitializers, newNodes]
  | constant t =>
      have names : b.newNames (.constant t) = [freshName b.used "const"] := rfl
      rw [names]
      refine ⟨List.nodup_singleton _, fun x hx => ?_⟩
      cases List.mem_singleton.1 hx
      exact ⟨freshName_not_mem _ _, freshName_ne_empty (by decide)⟩
  | operator opType attributes operands outputs =>
      rw [newNames_operator]
      exact ⟨nodup_names _ _ _, fun x hx =>
        ⟨not_mem_used_of_mem_names hx, ne_empty_of_mem_names (stem_ne_empty opType) hx⟩⟩

/-- Making an expression keeps the names apart. -/
theorem Fresh.make (h : b.Fresh) (e : Expression) : (b.make e).1.Fresh := by
  obtain ⟨nodup, new⟩ := newNames_fresh b e
  have perm := generated_make h e
  constructor
  · refine perm.nodup_iff.2 (List.nodup_append.2 ⟨h.distinct, nodup, ?_⟩)
    rintro x hx y hy rfl
    exact (new x hy).1 (h.used x hx)
  · intro x hx
    refine used_make b e ?_
    exact (List.mem_append.1 (perm.mem_iff.1 hx)).symm.imp_right (h.used x)
  · intro hx
    rcases List.mem_append.1 (perm.mem_iff.1 hx) with hx | hx
    · exact h.nonempty hx
    · exact (new _ hx).2 rfl

/-- What was visible stays visible. -/
theorem Visible.make (fresh : b.Fresh) {x : String} (h : b.Visible x) (e : Expression) :
    (b.make e).1.Visible x := by
  refine h.imp (fun hx => ?_) fun hx => ?_
  · rw [values_make, List.map_append]
    exact List.mem_append_right _ hx
  · exact (generated_make fresh e).mem_iff.2 (List.mem_append_left _ hx)

namespace Built

/-- At the start nothing is known. -/
theorem empty (es : Expressions) : Built es {} where
  closed := by simp [known, Expressions.Closed]
  nodup := List.nodup_nil
  fresh := ⟨List.nodup_nil, by simp [Graph.generated], by simp [Graph.generated]⟩
  named := by simp [known]
  nodes := .nil
  values := by simp [known]
  visible := by simp [known]
  reads := by simp

/-- The outputs of an expression that was emitted are as many as it has. -/
theorem length_outputsOf (h : Built es b) (hi : i ∈ b.known) (pos : 0 < es.outputCount i) :
    (b.outputsOf i).length = es.outputCount i := by
  cases hf : es[i]? with
  | none => simp [Expressions.outputCount, hf] at pos
  | some e => simpa [Expressions.outputCount, hf] using (h.named i hi e hf).length_eq

/-- The names of what is known stay. -/
theorem outputsOf_add (h : Built es b) (new : i ∉ b.known) {k : Nat} (hk : k ∈ b.known) {j : Nat}
    (hj : j = k ∨ es.DependsOn k j) : (b.add i e).outputsOf j = b.outputsOf j := by
  refine outputsOf_add_of_ne b e ?_
  rintro rfl
  rcases hj with rfl | hj
  · exact new hk
  · exact new (h.closed k hk j hj)

variable (h : Built es b) (he : es[i]? = some e) (ready : ∀ j ∈ e.dependencies, j ∈ b.known)

include h he ready

theorem closed_add : es.Closed (b.add i e).known := by
  rw [known_add]
  intro k hk j dep
  rcases List.mem_cons.1 hk with rfl | hk
  · obtain ⟨e', he', hj⟩ := dep
    cases he.symm.trans he'
    exact List.mem_cons_of_mem _ (ready j hj)
  · exact List.mem_cons_of_mem _ (h.closed k hk j dep)

theorem named_add (new : i ∉ b.known) : ∀ k ∈ (b.add i e).known, ∀ e', es[k]? = some e' →
    e'.Named (b.add i e).outputsOf (b.add i e).graph k := by
  rw [known_add]
  intro k hk e' he'
  have grown : (b.add i e).graph.initializers = b.graph.initializers ++ b.newInitializers e :=
    initializers_make h.fresh e
  rcases List.mem_cons.1 hk with rfl | hk
  · -- the new expression has the names that were just given
    cases he.symm.trans he'
    have self := outputsOf_add_self b k e
    cases e with
    | value => exact self
    | constant t =>
        refine ⟨_, self, ?_⟩
        rw [grown]
        exact List.mem_append_right _ (List.mem_singleton_self _)
    | operator opType attributes operands outputs =>
        exact (congrArg List.length self).trans (length_names b _ outputs)
    | output producer index =>
        have ne : producer ≠ k := by
          rintro rfl
          exact new (ready producer List.mem_cons_self)
        show (b.add k _).outputsOf k = [((b.add k _).outputsOf producer).getD index ""]
        rw [self, outputsOf_add_of_ne b _ ne]
        rfl
  · refine (h.named k hk e' he').congr (fun j hj => ?_) ?_
    · exact h.outputsOf_add new hk (hj.imp_right fun hj => ⟨e', he', hj⟩)
    · rw [grown]
      exact List.subset_append_left _ _

theorem nodes_add (new : i ∉ b.known) : List.Forall₂ (es.IsNodeOf (b.add i e).outputsOf)
    ((b.add i e).known.reverse.filter es.isOperator) (b.add i e).graph.nodes := by
  have grown : (b.add i e).graph.nodes = b.graph.nodes ++ b.newNodes e := nodes_make b e
  rw [known_add, List.reverse_cons, List.filter_append, grown]
  refine List.rel_append ?_ ?_
  · -- the nodes that were there read names that stay
    have known : ∀ k ∈ b.known.reverse.filter es.isOperator, k ∈ b.known := fun k hk =>
      List.mem_reverse.1 (List.mem_filter.1 hk).1
    refine forall₂_imp_of_mem h.nodes fun k hk n stands => ?_
    exact stands.congr fun j hj => h.outputsOf_add new (known k hk) hj
  · have self := outputsOf_add_self b i e
    cases e with
    | value | constant | output =>
        simp only [newNodes, List.filter_cons, Expressions.isOperator, he, Option.any_some,
          Expression.isOperator, Bool.false_eq_true, if_false, List.filter_nil]
        exact .nil
    | operator opType attributes operands outputs =>
        simp only [newNodes, List.filter_cons, Expressions.isOperator, he, Option.any_some,
          Expression.isOperator, if_true, List.filter_nil]
        refine .cons ⟨((b.names (opType ++ "_out") outputs).1.name opType).2, opType, attributes,
          operands, outputs, he, ?_⟩ .nil
        have ne : ∀ j, some j ∈ operands → j ≠ i := by
          rintro j mem rfl
          exact new (ready j (List.reduceOption_mem_iff.2 mem))
        rw [map_inputName_congr fun j mem => outputsOf_add_of_ne b _ (ne j mem), self]
        rfl

theorem values_add : ∀ x, x ∈ (b.add i e).values.map ValueInfo.name ↔
    ∃ k ∈ (b.add i e).known, ∃ type shape, es[k]? = some (.value x type shape) := by
  intro x
  have grown : (b.add i e).values = newValues e ++ b.values := values_make b e
  have first : x ∈ (newValues e).map ValueInfo.name ↔
      ∃ type shape, es[i]? = some (.value x type shape) := by
    rw [he]
    cases e <;> simp [newValues, eq_comm]
  rw [known_add, grown, List.map_append, List.mem_append, first, h.values]
  simp

theorem visible_add (wf : es.WellFormed) (new : i ∉ b.known) :
    ∀ k ∈ (b.add i e).known, ∀ x ∈ (b.add i e).outputsOf k, (b.add i e).Visible x := by
  rw [known_add]
  intro k hk x hx
  rcases List.mem_cons.1 hk with rfl | hk
  · rw [outputsOf_add_self] at hx
    cases e with
    | value name type shape =>
        cases List.mem_singleton.1 hx
        exact Or.inl List.mem_cons_self
    | constant t =>
        cases List.mem_singleton.1 hx
        refine Or.inr ((generated_make h.fresh _).mem_iff.2 (List.mem_append_right _ ?_))
        exact List.mem_singleton_self _
    | operator opType attributes operands outputs =>
        refine Or.inr ((generated_make h.fresh _).mem_iff.2 (List.mem_append_right _ ?_))
        rw [newNames_operator]
        exact hx
    | output producer index =>
        cases List.mem_singleton.1 hx
        have hlt := wf.output _ producer index he
        have known : producer ∈ b.known := ready producer List.mem_cons_self
        have length := h.length_outputsOf known (by omega)
        refine (h.visible producer known _ ?_).make h.fresh _
        rw [List.getD_eq_getElem?_getD, List.getElem?_eq_getElem (by omega)]
        exact List.getElem_mem _
  · rw [h.outputsOf_add new hk (Or.inl rfl)] at hx
    exact (h.visible k hk x hx).make h.fresh e

/-- A node that is added reads only what is visible. -/
theorem visible_of_newNodes (wf : es.WellFormed) {n : Node} (hn : n ∈ b.newNodes e) {x : String}
    (hx : x ∈ n.inputs) : x = "" ∨ b.Visible x := by
  cases e with
  | value | constant | output => cases hn
  | operator opType attributes operands outputs =>
      cases List.mem_singleton.1 hn
      rw [inputs_operatorNode] at hx
      obtain ⟨operand, mem, rfl⟩ := List.mem_map.1 hx
      cases operand with
      | none => exact Or.inl rfl
      | some j =>
          have known : j ∈ b.known := ready j (List.reduceOption_mem_iff.2 mem)
          have pos := wf.operand i opType attributes operands outputs he j mem
          have length := h.length_outputsOf known pos
          refine Or.inr (h.visible j known _ ?_)
          simp only [inputName, Option.elim_some]
          cases hout : b.outputsOf j with
          | nil => simp [hout] at length; omega
          | cons first rest => exact List.mem_cons_self

theorem reads_add (wf : es.WellFormed) : ∀ (k : Nat) n, (b.add i e).graph.nodes[k]? = some n →
    ∀ x ∈ n.inputs, x = "" ∨ x ∈ (b.add i e).values.map ValueInfo.name ∨
      x ∈ (b.add i e).graph.initializers.map Initializer.name ∨
        x ∈ ((b.add i e).graph.nodes.take k).flatMap Node.outputs := by
  intro k n hn x hx
  have nodes : (b.add i e).graph.nodes = b.graph.nodes ++ b.newNodes e := nodes_make b e
  have values : (b.add i e).values = newValues e ++ b.values := values_make b e
  have constants : (b.add i e).graph.initializers = b.graph.initializers ++ b.newInitializers e :=
    initializers_make h.fresh e
  rw [nodes] at hn
  rw [nodes, values, constants, List.map_append, List.map_append, List.take_append,
    List.flatMap_append]
  by_cases old : k < b.graph.nodes.length
  · rw [List.getElem?_append_left old] at hn
    rcases h.reads k n hn x hx with empty | input | constant | produced
    · exact Or.inl empty
    · exact Or.inr (Or.inl (List.mem_append_right _ input))
    · exact Or.inr (Or.inr (Or.inl (List.mem_append_left _ constant)))
    · exact Or.inr (Or.inr (Or.inr (List.mem_append_left _ produced)))
  · -- all nodes that were there stand before a new one
    rw [List.getElem?_append_right (Nat.le_of_not_lt old)] at hn
    rw [List.take_of_length_le (Nat.le_of_not_lt old)]
    rcases h.visible_of_newNodes he ready wf (List.mem_of_getElem? hn) hx with empty | input | made
    · exact Or.inl empty
    · exact Or.inr (Or.inl (List.mem_append_right _ input))
    · rcases List.mem_append.1 made with constant | produced
      · exact Or.inr (Or.inr (Or.inl (List.mem_append_left _ constant)))
      · exact Or.inr (Or.inr (Or.inr (List.mem_append_left _ produced)))

omit h he ready in
theorem step (h : Built es b) (wf : es.WellFormed) (step : Step es b b') : Built es b' := by
  obtain ⟨i, e, new, he, ready, rfl⟩ := step
  have fresh := h.fresh.make e
  exact {
    closed := h.closed_add he ready
    nodup := by
      rw [known_add]
      exact List.nodup_cons.2 ⟨new, h.nodup⟩
    fresh := ⟨fresh.distinct, fresh.used, fresh.nonempty⟩
    named := h.named_add he ready new
    nodes := h.nodes_add he ready new
    values := h.values_add he ready
    visible := h.visible_add he ready wf new
    reads := h.reads_add he ready wf }

omit h he ready in
theorem of_steps (wf : es.WellFormed) (steps : Relation.ReflTransGen (Step es) {} b) :
    Built es b := by
  induction steps with
  | refl => exact empty es
  | tail _ step ih => exact ih.step wf step

end Built

end GraphBuilder

end TensorGraph
