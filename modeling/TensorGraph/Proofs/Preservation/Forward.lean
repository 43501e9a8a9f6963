import Mathlib
import TensorGraph.Proofs.Evaluation.Redirect
import TensorGraph.Proofs.Simplification.Forward

/-!
# Runs of a graph from which a node was removed

Input:

* a valid graph whose nodes are in order, and a node of it;
* pairs that lead from the outputs of the node to values that are available where it stands
  (`Graph.Replaceable`);
* a run of the graph in which both values of each pair are alike.

Removing the node and forwarding the pairs gives a graph that makes the same values.  The values of
the run solve each graph on the way: when two names have the same value, a node may read and make
either of them (`Node.Robust`).

Main results:

* `Graph.Replaceable.valid`, `Graph.Replaceable.sorted` and `Graph.Replaceable.keeps_outputs`: the
  graph stays valid and in order, and defines its outputs;
* `Graph.Replaceable.solves`: it is solved by the values of the run;
* `Change.forward_keeps_outputs`: it gives the same outputs.
-/

namespace TensorGraph

open Tensor (AllAlike)

variable {version : Option Int64} {chance : Generator}

namespace Graph

/-! ## What is available at a node -/

/-- The outer names that a graph does not define itself. -/
def unshadowed (g : Graph) (outer : List String) : List String :=
  outer.filter fun x => !g.definedNames.contains x

theorem mem_unshadowed {g : Graph} {outer : List String} {x : String} :
    x ∈ g.unshadowed outer ↔ x ∈ outer ∧ x ∉ g.definedNames := by
  simp [unshadowed]

/-- Whether a name has a value where the node at an index stands. -/
def AvailableAt (g : Graph) (outer : List String) (index : Nat) (x : String) : Prop :=
  x ∈ g.inputNames ∨ x ∈ g.initializerNames ∨ (∃ m ∈ g.nodes.take index, x ∈ m.presentOutputs) ∨
    x ∈ g.unshadowed outer

/-- Pairs that lead from all used outputs of a node to values that are available where it stands. -/
structure Substitutes (g : Graph) (outer : List String) (index : Nat)
    (pairs : List (String × String)) : Prop where
  node : ∃ n, g.nodes[index]? = some n ∧ (∀ p ∈ pairs, p.1 ∈ n.presentOutputs) ∧
    ∀ o ∈ n.presentOutputs, o ∈ pairs.map Prod.fst ∨ o ∉ g.uses
  distinctSources : (pairs.map Prod.fst).Nodup
  distinctTargets : (pairs.map Prod.snd).Nodup
  available : ∀ p ∈ pairs, g.AvailableAt outer index p.2

/-- Pairs whose second values can be read in place of the first ones: they have a name, which no
nested graph defines again. -/
structure Replaceable (g : Graph) (outer : List String) (index : Nat)
    (pairs : List (String × String)) : Prop extends g.Substitutes outer index pairs where
  named : ∀ p ∈ pairs, p.2 ≠ ""
  apart : ∀ p ∈ pairs, p.2 ∉ g.innerNames

/-- Whether both values of each pair are alike. -/
def AlikePairs (V : Scope Tensor) (pairs : List (String × String)) : Prop :=
  ∀ p ∈ pairs, Option.Rel Tensor.Alike (V.get? p.1) (V.get? p.2)

namespace Replaceable

variable {g : Graph} {outer : List String} {index : Nat} {pairs : List (String × String)}

/-- What is available comes from a node that stands before the place. -/
theorem target_not_mem (r : g.Replaceable outer index pairs) (unique : g.Unique) {n : Node}
    (hn : n ∈ g.nodes.drop index) {p : String × String} (hp : p ∈ pairs) :
    p.2 ∉ n.presentOutputs := by
  intro hout
  have hprod : p.2 ∈ g.produced := mem_produced.2 ⟨n, List.mem_of_mem_drop hn, hout⟩
  rcases r.available p hp with h | h | ⟨m, hm, h⟩ | h
  · exact unique.produced_not_mem_inputNames hprod h
  · exact unique.produced_not_mem_initializerNames hprod h
  · have distinct : Node.Distinct (g.nodes.take index ++ g.nodes.drop index) := by
      rw [List.take_append_drop]
      exact unique.distinct
    unfold Node.Distinct at distinct
    rw [List.flatMap_append, List.nodup_append] at distinct
    exact distinct.2.2 _ (List.mem_flatMap.2 ⟨m, hm, h⟩) _ (List.mem_flatMap.2 ⟨n, hn, hout⟩) rfl
  · exact (mem_unshadowed.1 h).2 (mem_definedNames.2 (Or.inr (Or.inr hprod)))

theorem forwardable (r : g.Replaceable outer index pairs) (unique : g.Unique) {n : Node}
    (hn : g.nodes[index]? = some n) : Forwardable (g.unshadowed outer) g n pairs := by
  obtain ⟨n', hn', sources, covered⟩ := r.node
  rw [hn] at hn'
  cases hn'
  have hdrop : n ∈ g.nodes.drop index := by
    obtain ⟨hi, rfl⟩ := List.getElem?_eq_some_iff.1 hn
    rw [List.drop_eq_getElem_cons hi]
    exact List.mem_cons_self
  refine ⟨sources, covered, r.distinctSources, r.distinctTargets, fun p hp => ?_, r.named,
    fun p hp => r.target_not_mem unique hdrop hp, r.apart⟩
  rcases r.available p hp with h | h | ⟨m, hm, h⟩ | h
  · exact Or.inl (mem_definedNames.2 (Or.inl h))
  · exact Or.inl (mem_definedNames.2 (Or.inr (Or.inl h)))
  · exact Or.inl (mem_definedNames.2 (Or.inr (Or.inr
      (mem_produced.2 ⟨m, List.mem_of_mem_take hm, h⟩))))
  · exact Or.inr h

/-- Without the node, the others are in order around its place. -/
theorem arranged (r : g.Replaceable outer index pairs) (unique : g.Unique)
    (sorted : Node.Sorted g.nodes) :
    ∃ before after, g.nodes.eraseIdx index = before ++ after ∧
      Node.Arranged pairs before after := by
  obtain ⟨n, hn, sources, -⟩ := r.node
  obtain ⟨before, after, hnodes, herase, -, hdrop⟩ := exists_split hn
  obtain ⟨own, later⟩ := Node.sorted_iff_pairwise.1 sorted
  have sub : (before ++ after).Sublist g.nodes := by
    rw [hnodes]
    exact List.Sublist.append_left (List.sublist_cons_self n after) before
  refine ⟨before, after, herase, ⟨?_, fun p hp m hm => ?_, fun p hp m hm => ?_⟩⟩
  · rw [Node.sorted_iff_pairwise]
    exact ⟨fun m hm => own m (sub.subset hm), later.sublist sub⟩
  · rw [hnodes, List.pairwise_append] at later
    intro hr
    exact later.2.2 m hm n List.mem_cons_self p.1 hr (sources p hp)
  · refine r.target_not_mem unique ?_ hp
    rw [← hdrop] at hm
    exact List.mem_of_mem_drop (by rwa [List.drop_drop] : m ∈ (g.nodes.drop index).drop 1)

end Replaceable

/-! ## The loop -/

/-- A property of nodes that is kept when values get other names, and holds of all nodes before. -/
theorem Pending.foldl_nodes {scope : List String} {g h : Graph} {pairs : List (String × String)}
    {A : String × String → Prop} {P : Node → Prop} (unique : g.Unique)
    (redirect : ∀ n p, A p → p.1 ≠ "" → p.2 ≠ "" → P n → p.2 ∉ n.innerNames →
      P (n.redirect p.1 p.2))
    (rename : ∀ n p, A p → p.1 ≠ "" → p.2 ≠ "" → P n → p.1 ∉ n.innerNames → P (n.rename p.2 p.1))
    (p : Pending scope g h pairs) (good : ∀ p ∈ pairs, A p) (all : ∀ n ∈ h.nodes, P n) :
    ∀ n ∈ (pairs.foldl Graph.forwardValue h).nodes, P n := by
  refine (Pending.foldl (Q := fun h rest => (∀ p ∈ rest, A p) ∧ ∀ n ∈ h.nodes, P n) unique
    (fun h h' pair rest p forwarded q => ?_) p ⟨good, all⟩).2.2
  obtain ⟨hs, ht⟩ := p.named pair List.mem_cons_self
  have hA := q.1 pair List.mem_cons_self
  exact ⟨fun p' hp' => q.1 p' (List.mem_cons_of_mem _ hp'),
    forwarded.nodes (fun n hn fresh => redirect n pair hA hs ht hn fresh)
      (fun n hn fresh => rename n pair hA hs ht hn fresh) q.2⟩

namespace Replaceable

variable {g : Graph} {outer : List String} {index : Nat} {pairs : List (String × String)}

/-- Right after the node was removed. -/
theorem pending (r : g.Replaceable outer index pairs) (valid : g.validate outer = .ok ())
    (can : g.canForward index [] pairs = true) :
    Pending (g.unshadowed outer) g { g with nodes := g.nodes.eraseIdx index } pairs := by
  obtain ⟨nodup, captured, -⟩ := validate_eq_ok_iff.1 valid
  have unique := Unique.of_nodup nodup
  obtain ⟨n, hn, -⟩ := r.node
  refine (r.forwardable unique hn).pending unique (fun x hx => ?_) hn can
  exact mem_unshadowed.2 ⟨captured x hx, (mem_captures.1 hx).2⟩

/-- Afterwards no pair is left. -/
theorem pending_nil (r : g.Replaceable outer index pairs) (valid : g.validate outer = .ok ())
    (can : g.canForward index [] pairs = true) :
    Pending (g.unshadowed outer) g (g.forwardNode index pairs) [] :=
  (Pending.foldl (Q := fun _ _ => True) (Unique.of_nodup (validate_eq_ok_iff.1 valid).1)
    (fun _ _ _ _ _ _ _ => trivial) (r.pending valid can) trivial).1

/-- The constants stay. -/
theorem initializers (r : g.Replaceable outer index pairs) (valid : g.validate outer = .ok ())
    (can : g.canForward index [] pairs = true) :
    (g.forwardNode index pairs).initializers = g.initializers :=
  (Pending.foldl (Q := fun h _ => h.initializers = g.initializers)
    (Unique.of_nodup (validate_eq_ok_iff.1 valid).1)
    (fun _ _ _ _ _ forwarded h => forwarded.initializers.trans h) (r.pending valid can) rfl).2

/-- The nodes stay in order. -/
theorem sorted (r : g.Replaceable outer index pairs) (valid : g.validate outer = .ok ())
    (sorted : Node.Sorted g.nodes) (can : g.canForward index [] pairs = true) :
    Node.Sorted (g.forwardNode index pairs).nodes := by
  have unique := Unique.of_nodup (validate_eq_ok_iff.1 valid).1
  obtain ⟨-, before, after, hnodes, arranged⟩ := Pending.foldl unique
    (fun _ _ _ _ p forwarded all => forwarded.arranged p unique all) (r.pending valid can)
    (r.arranged unique sorted)
  unfold forwardNode
  rw [hnodes]
  exact arranged.sorted

/-- The graph stays valid. -/
theorem valid (r : g.Replaceable outer index pairs) (valid : g.validate outer = .ok ())
    (can : g.canForward index [] pairs = true) :
    (g.forwardNode index pairs).validate outer = .ok () := by
  obtain ⟨nodup, -, controlled⟩ := validate_eq_ok_iff.1 valid
  have last := r.pending_nil valid can
  have nodes : ∀ n ∈ (g.forwardNode index pairs).nodes, n.DeepControlled :=
    (r.pending valid can).foldl_nodes (A := fun _ => True) (Unique.of_nodup nodup)
      (fun _ _ _ _ _ hn fresh => hn.redirect fresh) (fun _ _ _ _ _ hn fresh => hn.rename fresh)
      (fun _ _ => trivial)
      fun n hn => everywhere_controlled_iff.1 controlled n (List.mem_of_mem_eraseIdx hn)
  refine validate_eq_ok_iff.2 ⟨?_, fun x hx => ?_, everywhere_controlled_iff.2 nodes⟩
  · rw [List.nodup_iff_count] at nodup ⊢
    exact fun x => Nat.le_trans (count_allDefinitions_le last.inputs last.defaults (last.made x))
      (nodup x)
  · exact (mem_unshadowed.1 ((last.captures x hx).resolve_right (by simp))).1

/-- Outputs that are defined stay so. -/
theorem keeps_outputs (r : g.Replaceable outer index pairs) (valid : g.validate outer = .ok ())
    (can : g.canForward index [] pairs = true) {x : String} (hx : x ∈ g.outputNames)
    (hd : x ∈ g.definedNames) : x ∈ (g.forwardNode index pairs).definedNames := by
  have last := r.pending_nil valid can
  have ho : x ∈ (g.forwardNode index pairs).outputs.map ValueInfo.name := by
    rw [last.outputs]
    exact hx
  by_contra hno
  have hcap := last.captures x (mem_captures.2 ⟨Or.inr ho, hno⟩)
  exact (mem_unshadowed.1 (hcap.resolve_right (by simp))).2 hd

/-! ## Runs -/

/-- The values of a run in which both values of each pair are alike solve the graph without the
node. -/
theorem solves (r : g.Replaceable outer index pairs) (valid : g.validate outer = .ok ())
    (can : g.canForward index [] pairs = true) (settled : ∀ n ∈ g.nodes, n.Settled version)
    {inputs scope V : Scope Tensor} (run : g.valuesIn version chance inputs scope = .ok V)
    (alike : AlikePairs V pairs) :
    (g.forwardNode index pairs).Solves version chance inputs scope V ∧
      ∀ n ∈ (g.forwardNode index pairs).nodes, n.Local version chance := by
  have nodup := (validate_eq_ok_iff.1 valid).1
  have unique := Unique.of_nodup nodup
  have last := r.pending_nil valid can
  obtain ⟨before, outside⟩ := solves_of_valuesIn unique.distinct
    (fun n _ => n.isLocal) run
  have robust : ∀ n ∈ (g.forwardNode index pairs).nodes, n.Robust version chance V := by
    refine (r.pending valid can).foldl_nodes
      (A := fun p => Option.Rel Tensor.Alike (V.get? p.1) (V.get? p.2)) unique
      (fun _ _ same hs ht hn fresh => hn.redirect hs ht fresh same)
      (fun _ _ same hs ht hn fresh => hn.rename ht hs fresh (Tensor.rel_alike_symm same))
      alike fun n hn => ?_
    have hmem := List.mem_of_mem_eraseIdx hn
    exact ⟨before.nodes n hmem, settled n hmem⟩
  refine ⟨⟨?_, fun n hn => (robust n hn).holds⟩, fun n _ => n.isLocal⟩
  have hinit := r.initializers valid can
  obtain ⟨given, hgiven, agree⟩ := before.given
  refine ⟨given, ?_, fun x hx hp => ?_⟩
  · unfold givenValues at hgiven ⊢
    rw [hinit, last.inputs]
    exact hgiven
  · by_cases hd : x ∈ (g.forwardNode index pairs).definedNames
    · -- inputs and constants are the same as before
      have hold : x ∈ g.inputNames ∨ x ∈ g.initializerNames := by
        unfold inputNames initializerNames
        rw [← last.inputs, ← hinit]
        exact (mem_definedNames.1 hd).imp_right fun h => h.resolve_right hp
      refine agree x (Or.inl (mem_definedNames.2 (hold.imp_right Or.inl))) fun hp' => ?_
      exact hold.elim (unique.produced_not_mem_inputNames hp')
        (unique.produced_not_mem_initializerNames hp')
    · have hcap := last.captures x (hx.resolve_left hd)
      have hno := (mem_unshadowed.1 (hcap.resolve_right (by simp))).2
      have hno' := hno
      rw [mem_definedNames, not_or, not_or] at hno'
      rw [Scope.get?_inside, get?_givenValues_eq_none hgiven ⟨hno'.1, hno'.2.1⟩, outside x hno]
      exact Tensor.rel_alike_refl _

end Replaceable
end Graph

/-- Forwarding a node keeps a graph valid and in order, with the same outputs.  In each scope, and
whatever random numbers are drawn, a run in which both values of each pair are alike is followed by
one that gives the same outputs. -/
theorem Change.forward_keeps_outputs {v : View} {outer : List String} {index : Nat}
    {pairs : List (String × String)} (valid : v.graph.validate outer = .ok ())
    (sorted : Node.Sorted v.graph.nodes) (settled : ∀ n ∈ v.graph.nodes, n.Settled version)
    (replaceable : v.graph.Replaceable outer index pairs)
    (applicable : Change.isApplicable v index (.forward pairs) = true) :
    ∃ g', Change.apply v.graph index (.forward pairs) = .ok (g', 0) ∧
      g'.validate outer = .ok () ∧ Node.Sorted g'.nodes ∧
      g'.outputs = v.graph.outputs ∧
      (∀ x ∈ v.graph.outputNames, x ∈ v.graph.definedNames → x ∈ g'.definedNames) ∧
      ∀ (chance : Generator) (inputs scope values : Scope Tensor) (outs : List Tensor),
        v.graph.valuesIn version chance inputs scope = .ok values →
        Graph.AlikePairs values pairs →
        v.graph.runIn version chance inputs scope = .ok outs →
        ∃ outs', g'.runIn version chance inputs scope = .ok outs' ∧ AllAlike outs outs' := by
  have can : v.graph.canForward index [] pairs = true := applicable
  have last := replaceable.pending_nil valid can
  have valid' := replaceable.valid valid can
  have sorted' := replaceable.sorted valid sorted can
  have distinct := (Graph.Unique.of_nodup (Graph.validate_eq_ok_iff.1 valid').1).distinct
  obtain ⟨order, ho⟩ := Graph.topologicalOrder_of_acyclic (sorted'.acyclic distinct)
  refine ⟨v.graph.forwardNode index pairs, rfl, valid', sorted', last.outputs,
    fun x => replaceable.keeps_outputs valid can, ?_⟩
  intro chance inputs scope values outs run alike houts
  obtain ⟨solves, hlocal⟩ := replaceable.solves valid can settled run alike
  refine solves.runIn hlocal ho ?_
  rw [Graph.runIn_eq, run] at houts
  unfold Graph.outputValues at houts ⊢
  rw [last.outputs]
  exact houts

/-! ## A copy that is removed -/

namespace Graph

/-- A copy of a negated input is the output. -/
def negatedCopy : Graph where
  nodes := [{ opType := "Neg", inputs := ["x"], outputs := ["a"] }, .copying "a" "y"]
  inputs := [{ name := "x" }]
  outputs := [{ name := "y" }]

/-- A negated input is the output. -/
def negation : Graph :=
  { negatedCopy with nodes := [{ opType := "Neg", inputs := ["x"], outputs := ["y"] }] }

end Graph

/-- The copy of a negated input is removed, and the negation itself gets the name of the output. -/
theorem Change.forward_copy_of_negation :
    Graph.negatedCopy.Replaceable [] 1 [("y", "a")] ∧
      ∃ outs', Change.apply Graph.negatedCopy 1 (.forward [("y", "a")]) = .ok (Graph.negation, 0) ∧
        Graph.negation.validate [] = .ok () ∧
        Graph.negation.runIn none ⟨0⟩ [("x", .scalar (2 : Int64))] [] = .ok outs' ∧
        AllAlike [.scalar (-2 : Int64)] outs' := by
  have settled : ∀ n ∈ Graph.negatedCopy.nodes, n.Settled none := by
    simp only [Graph.negatedCopy, List.forall_mem_cons]
    refine ⟨?_, ?_, by simp⟩ <;> (rintro ⟨k, hk, hdraws⟩; cases hk; cases hdraws)
  have replaceable : Graph.negatedCopy.Replaceable [] 1 [("y", "a")] := by
    refine ⟨⟨⟨_, rfl, ?_, ?_⟩, ?_, ?_, ?_⟩, ?_, ?_⟩
    · decide
    · decide
    · decide
    · decide
    · intro p hp
      cases List.mem_singleton.1 hp
      exact Or.inr (Or.inr (Or.inl ⟨_, List.mem_cons_self, by decide⟩))
    · decide
    · decide
  have run : Graph.negatedCopy.valuesIn none ⟨0⟩ [("x", .scalar (2 : Int64))] [] =
      .ok [("y", .scalar (-2 : Int64)), ("a", .scalar (-2 : Int64)), ("x", .scalar (2 : Int64))] :=
    Graph.valuesIn_of_next? [0, 1] (by decide +kernel) rfl (by decide +kernel)
  obtain ⟨g', happly, valid, -, -, -, runs⟩ := Change.forward_keeps_outputs
    (v := { version := none, graph := Graph.negatedCopy, facts := [], surroundings := {} })
    (by cbv : Graph.negatedCopy.validate [] = .ok ()) (Node.isSorted_iff.1 (by cbv)) settled
    replaceable (by cbv)
  obtain ⟨outs', hrun, alike⟩ := runs _ _ _ _ _ run
    (by
      intro p hp
      cases List.mem_singleton.1 hp
      exact .some (.refl _)) (by
      rw [Graph.runIn_eq, run]
      rfl)
  have negation :
      Change.apply Graph.negatedCopy 1 (.forward [("y", "a")]) = .ok (Graph.negation, 0) := by cbv
  cases happly.symm.trans negation
  exact ⟨replaceable, outs', happly, valid, hrun, alike⟩

/-! ## A name that is defined again -/

namespace Graph

/-- A branch that adds a value and a constant of its own, which has the name of an outer value. -/
def addsOwn (x : String) : Graph where
  nodes := [{ opType := "Add", inputs := [x, "a"], outputs := ["t"] }]
  initializers := [⟨"a", .scalar (2 : Int64)⟩]
  outputs := [{ name := "t" }]

/-- A branch with a constant output. -/
def constantBranch : Graph where
  initializers := [⟨"e", .scalar (0 : Int64)⟩]
  outputs := [{ name := "e" }]

/-- A node that runs `addsOwn` when its condition holds. -/
def chooses (x : String) : Node where
  opType := "If"
  inputs := ["c"]
  outputs := ["y"]
  attributes := [{ name := "then_branch", value := .graph (addsOwn x) },
    { name := "else_branch", value := .graph constantBranch }]

/-- A copy of an outer value is read by a graph that defines the name of the outer value again. -/
def shadowed : Graph where
  nodes := [.copying "a" "f", chooses "f"]
  outputs := [{ name := "y" }]

end Graph

theorem next?_chooses {x : String} {scope : Scope Tensor} {t : Tensor}
    (condition : scope.get? "c" = some (.scalar true))
    (run : (Graph.addsOwn x).runIn version chance [] scope = .ok [t]) :
    (Graph.chooses x).next? version chance scope = some (scope.bind "y" t) :=
  Node.next?_branch rfl rfl rfl (by decide) (by decide) condition
    (by cbv : conditionOf (.scalar true) = .ok true) run

/-- When a nested graph defines the second name of a pair again, a node in it reads the wrong value
after the first name was forwarded, although the change is applicable. -/
theorem Change.forward_changes_outputs_of_shadowed :
    Graph.shadowed.validate ["a", "c"] = .ok () ∧ Node.Sorted Graph.shadowed.nodes ∧
      (∀ n ∈ Graph.shadowed.nodes, n.Settled none) ∧
      Graph.shadowed.Substitutes ["a", "c"] 0 [("f", "a")] ∧
      Change.isApplicable
        { version := none, graph := Graph.shadowed, facts := [], surroundings := {} } 0
        (.forward [("f", "a")]) = true ∧
      (∀ (chance : Generator) (inputs scope values : Scope Tensor),
        Graph.shadowed.valuesIn none chance inputs scope = .ok values →
          Graph.AlikePairs values [("f", "a")]) ∧
      ∃ g', Change.apply Graph.shadowed 0 (.forward [("f", "a")]) = .ok (g', 0) ∧
        Graph.shadowed.runIn none ⟨0⟩ [] [("a", .scalar (1 : Int64)), ("c", .scalar true)] =
          .ok [.scalar (3 : Int64)] ∧
        g'.runIn none ⟨0⟩ [] [("a", .scalar (1 : Int64)), ("c", .scalar true)] =
          .ok [.scalar (4 : Int64)] := by
  have valid : Graph.shadowed.validate ["a", "c"] = .ok () := by cbv
  have nodup := (Graph.validate_eq_ok_iff.1 valid).1
  have before : (Graph.addsOwn "f").runIn none ⟨0⟩ []
      [("f", .scalar (1 : Int64)), ("a", .scalar (1 : Int64)), ("c", .scalar true)] =
        .ok [.scalar (3 : Int64)] :=
    Graph.runIn_of_next? [0] (by decide +kernel) rfl rfl rfl
  have after : (Graph.addsOwn "a").runIn none ⟨0⟩ []
      [("a", .scalar (1 : Int64)), ("c", .scalar true)] = .ok [.scalar (4 : Int64)] :=
    Graph.runIn_of_next? [0] (by decide +kernel) rfl rfl rfl
  refine ⟨valid, Node.isSorted_iff.1 (by cbv), ?_, ⟨⟨_, rfl, by decide, by decide⟩, by decide,
    by decide, fun p hp => ?_⟩, by cbv, fun chance inputs scope values run p hp => ?_, ?_⟩
  · simp only [Graph.shadowed, List.forall_mem_cons]
    refine ⟨?_, ?_, by simp⟩ <;> (rintro ⟨k, hk, hdraws⟩; cases hk)
    cases hdraws
  · cases List.mem_singleton.1 hp
    exact Or.inr (Or.inr (Or.inr (Graph.mem_unshadowed.2 ⟨by decide, by decide⟩)))
  · cases List.mem_singleton.1 hp
    obtain ⟨solves, -⟩ := Graph.solves_of_valuesIn (Graph.Unique.of_nodup nodup).distinct
      (fun n _ => n.isLocal) run
    obtain ⟨t, ht, same⟩ := (Node.holds_copying_iff (by decide) (by decide)).1
      (solves.nodes _ List.mem_cons_self)
    rw [ht]
    exact Tensor.rel_alike_symm same
  · refine ⟨{ Graph.shadowed with nodes := [Graph.chooses "a"] }, by cbv, ?_, ?_⟩
    · exact Graph.runIn_of_next? [0, 1] (by decide +kernel) rfl
        (Option.bind_eq_some_iff.2 ⟨_, next?_chooses rfl before, rfl⟩) rfl
    · exact Graph.runIn_of_next? [0] (by decide +kernel) rfl
        (Option.bind_eq_some_iff.2 ⟨_, next?_chooses rfl after, rfl⟩) rfl

end TensorGraph
