import Mathlib
import TensorGraph.Proofs.Evaluation.Capture
import TensorGraph.Proofs.Evaluation.Redirect
import TensorGraph.Simplification.Fold

/-!
# What determines a run

Input:

* a graph whose operators are deterministic at every depth (`Graph.Deterministic`), the tensors of
  its inputs, and the scopes around it, the innermost one first.

A name stands for what the first scope gives it that gives it anything (`Scope.get?_chain`).  Nodes
look up the names that they read, in nested graphs too, and nothing else.

Main results:

* `Graph.runIn_eq_of_sameDraws`: what is drawn by chance matters only to nodes that draw by chance;
* `Graph.runIn_determined`: the inputs and the captured names determine how a run ends.
-/

namespace TensorGraph

/-! ## Scopes around scopes -/

namespace Scope

/-- The scope of several scopes, each inside of the next one. -/
def chain (scopes : List (Scope Tensor)) : Scope Tensor := scopes.foldr inside []

/-- A name stands for what the innermost scope gives it that has it. -/
theorem get?_chain (scopes : List (Scope Tensor)) (x : String) :
    (chain scopes).get? x = scopes.findSome? (·.get? x) := by
  induction scopes with
  | nil => rfl
  | cons s rest ih =>
      unfold chain at ih ⊢
      rw [List.foldr_cons, get?_inside, ih, List.findSome?_cons]
      cases s.get? x <;> rfl

end Scope

variable {version : Option Int64} {chance chance' : Generator}

/-! ## Deterministic operators -/

/-- Whether the operator of a node is deterministic, if it has one. -/
def Node.Deterministic (version : Option Int64) (n : Node) : Prop :=
  ∀ operator, Operator.ofNode version n = .ok operator → operator.isDeterministic = true

/-- Whether all operators of a graph are deterministic, at every depth. -/
def Graph.Deterministic (version : Option Int64) (g : Graph) : Prop :=
  g.Everywhere fun g => ∀ n ∈ g.nodes, n.Deterministic version

namespace Node

variable {n : Node}

/-- A deterministic node draws nothing by chance. -/
theorem Deterministic.not_draws (h : n.Deterministic version) : ¬ n.Draws version := by
  rintro ⟨k, hk, draws⟩
  have deterministic : k.isDeterministic = true := h _ hk
  rw [Kernel.drawsByChance_of_isDeterministic deterministic] at draws
  cases draws

end Node

namespace Graph

variable {g : Graph}

/-- Deterministic graphs draw the same whatever is drawn by chance. -/
theorem Deterministic.sameDraws (h : g.Deterministic version) (chance chance' : Generator) :
    g.Everywhere (SameDraws version chance chance') :=
  h.mono fun _ deterministic n hn draws => absurd draws (deterministic n hn).not_draws

/-- A graph that can be predicted is deterministic. -/
theorem deterministic_of_predictable (h : g.isUnpredictable version = false) :
    g.Deterministic version := by
  induction g using nested_induction with
  | step g ih =>
      rw [isUnpredictable, List.any_eq_false] at h
      have each : ∀ n ∈ g.nodes,
          ((Operator.ofNode version n).toOption.map Operator.isDeterministic).getD false = true ∧
            ∀ p ∈ n.subgraphs, p.2.isUnpredictable version = false := by
        intro n hn
        have := h ⟨n, hn⟩ (List.mem_attach _ _)
        simp only [Bool.or_eq_true, not_or, Bool.not_eq_true', Bool.not_eq_false,
          Bool.not_eq_true, List.any_eq_false, List.mem_attach, true_implies, Subtype.forall] at this
        exact this
      refine .intro (fun n hn operator read => ?_) fun n hn p hp => ih n hn p hp ((each n hn).2 p hp)
      have deterministic := (each n hn).1
      rwa [read] at deterministic

end Graph

/-- What an operator makes is the same when what it draws is. -/
theorem Operator.runNode_eq_of_sameDraws {n : Node} {operator : Operator}
    (read : Operator.ofNode version n = .ok operator)
    (draws : n.Draws version → chance.forName n.displayName = chance'.forName n.displayName)
    (inside : ∀ p ∈ n.subgraphs, ∀ inputs scope,
      p.2.runIn version chance inputs scope = p.2.runIn version chance' inputs scope)
    (scope : Scope Tensor) (inputs : Inputs) :
    operator.runNode version chance n scope inputs =
      operator.runNode version chance' n scope inputs := by
  unfold Operator.runNode
  cases operator with
  | kernel k =>
      dsimp only
      cases hdraws : k.drawsByChance with
      | true => rw [draws ⟨k, read, hdraws⟩]
      | false => rw [k.run_eq_of_not_drawsByChance hdraws]
  | branch onTrue onFalse =>
      obtain ⟨htrue, hfalse⟩ := Operator.ofNode_branch read
      dsimp only
      rw [inside _ (Node.mem_subgraphs_of_graph? htrue),
        inside _ (Node.mem_subgraphs_of_graph? hfalse)]
  | loop body =>
      have hbody := Node.mem_subgraphs_of_graph? (Operator.ofNode_loop read)
      dsimp only
      simp only [inside _ hbody]

/-- A run depends on chance only through what its nodes draw. -/
theorem Graph.runIn_eq_of_sameDraws {g : Graph}
    (h : g.Everywhere (SameDraws version chance chance')) (inputs outer : Scope Tensor) :
    g.runIn version chance inputs outer = g.runIn version chance' inputs outer := by
  induction h generalizing inputs outer with
  | @intro g here _ ih =>
      have step : ∀ (s : Step version g) (scope : Scope Tensor),
          s.run chance scope = s.run chance' scope := by
        intro s scope
        unfold Step.run
        simp only [Operator.runNode_eq_of_sameDraws s.read (here _ s.mem)
          fun p hp => ih _ s.mem p hp]
      rw [runIn_eq, runIn_eq]
      unfold valuesIn
      simp only [step]

/-! ## What determines how a run ends -/

/-- What a node makes of the values in a scope, or why it cannot be run. -/
def Node.outcome (version : Option Int64) (chance : Generator) (n : Node) (scope : Scope Tensor) :
    RunResult (List Tensor) := do
  let operator ← (Operator.ofNode version n).mapError
    (.unsupportedOperator n.displayName n.opType)
  let arguments ← n.arguments scope
  (operator.runNode version chance n scope arguments).mapError (NodeRunError.inNode n)

theorem Node.outcome_of_read {n : Node} {operator : Operator}
    (read : Operator.ofNode version n = .ok operator) (chance : Generator) (scope : Scope Tensor) :
    n.outcome version chance scope = (do
      let arguments ← n.arguments scope
      (operator.runNode version chance n scope arguments).mapError (NodeRunError.inNode n)) := by
  unfold Node.outcome
  rw [read]
  rfl

/-- A step adds to the scope what its node makes. -/
theorem Step.run_eq {g : Graph} (s : Step version g) (chance : Generator) (scope : Scope Tensor) :
    s.run chance scope =
      s.node.outcome version chance scope >>= fun ts => s.node.bindOutputs ts scope := by
  rw [Node.outcome_of_read s.read, bind_assoc]
  rfl

namespace Graph

variable {g : Graph}

/-- What a node of a graph makes depends on the values that it reads, and on what is drawn. -/
theorem outcome_congr (draws : g.Everywhere (SameDraws version chance chance')) {n : Node}
    (hn : n ∈ g.nodes) {V W : Scope Tensor} (reads : ∀ x ∈ n.reads, V.get? x = W.get? x) :
    n.outcome version chance V = n.outcome version chance' W := by
  cases read : Operator.ofNode version n with
  | error e =>
      unfold Node.outcome
      rw [read]
      rfl
  | ok operator =>
      have run : ∀ inputs, operator.runNode version chance n V inputs =
          operator.runNode version chance' n W inputs := by
        intro inputs
        rw [Operator.runNode_congr read (fun p _ => p.2.dependsOnCaptures version chance) reads]
        exact Operator.runNode_eq_of_sameDraws read (draws.here n hn)
          (fun p hp => runIn_eq_of_sameDraws (draws.inside hn hp)) W inputs
      rw [Node.outcome_of_read read, Node.outcome_of_read read, Node.arguments_congr reads]
      simp only [run]

/-- The inputs of a graph of deterministic operators, and what the scopes around it give to the names
that it captures, determine how a run ends: with the same outputs or with the same error, whatever
else is in the scopes, however many there are, and whatever is drawn by chance.  In the same way
what a node makes is determined by what it reads.  Nothing is assumed of the validity of the
graph. -/
theorem runIn_determined (deterministic : g.Deterministic version) (chance chance' : Generator) :
    (∀ (inputs : Scope Tensor) (scopes scopes' : List (Scope Tensor)),
      (∀ x ∈ g.captures, scopes.findSome? (·.get? x) = scopes'.findSome? (·.get? x)) →
        g.runIn version chance inputs (.chain scopes) =
          g.runIn version chance' inputs (.chain scopes')) ∧
    ∀ n ∈ g.nodes, ∀ scopes scopes' : List (Scope Tensor),
      (∀ x ∈ n.reads, scopes.findSome? (·.get? x) = scopes'.findSome? (·.get? x)) →
        n.outcome version chance (.chain scopes) = n.outcome version chance' (.chain scopes') := by
  have draws := deterministic.sameDraws chance chance'
  refine ⟨fun inputs scopes scopes' same => ?_, fun n hn scopes scopes' same => ?_⟩
  · rw [← runIn_eq_of_sameDraws draws]
    refine g.dependsOnCaptures version chance inputs _ _ fun x hx => ?_
    rw [Scope.get?_chain, Scope.get?_chain, same x hx]
  · refine outcome_congr draws hn fun x hx => ?_
    rw [Scope.get?_chain, Scope.get?_chain, same x hx]

/-- A graph that hides an outer value, reads outer values in a nested graph only, and gives one of
them as an output. -/
def scalesOuter : Graph where
  initializers := [⟨"b", .scalar (2 : Int64)⟩]
  nodes := [{ opType := "If", inputs := ["c"], outputs := ["y"], attributes := [
    { name := "then_branch", value := .graph {
        nodes := [{ opType := "Mul", inputs := ["a", "b"], outputs := ["t"] }]
        outputs := [{ name := "t" }] } },
    { name := "else_branch", value := .graph { outputs := [{ name := "a" }] } }] }]
  outputs := [{ name := "y" }, { name := "a" }]

/-- In one scope and in three scopes, which agree on the captured names only, the graph gives the
same. -/
theorem runIn_scalesOuter_determined :
    scalesOuter.Deterministic none ∧ scalesOuter.validate ["a", "b", "c"] = .ok () ∧
      scalesOuter.captures = ["c", "a"] ∧
      scalesOuter.runIn none ⟨0⟩ []
        (.chain [[("a", .scalar (3 : Int64)), ("b", .scalar (5 : Int64)), ("c", .scalar true)]]) =
          .ok [.scalar (6 : Int64), .scalar (3 : Int64)] ∧
      scalesOuter.runIn none ⟨1⟩ [] (.chain [[("b", .scalar (7 : Int64))],
        [("a", .scalar (3 : Int64)), ("t", .scalar (8 : Int64))],
        [("c", .scalar true), ("a", .scalar (9 : Int64))]]) =
          .ok [.scalar (6 : Int64), .scalar (3 : Int64)] := by
  have deterministic : scalesOuter.Deterministic none :=
    deterministic_of_predictable (by decide +kernel)
  have captures : scalesOuter.captures = ["c", "a"] := by cbv
  have run : scalesOuter.runIn none ⟨0⟩ []
      (.chain [[("a", .scalar (3 : Int64)), ("b", .scalar (5 : Int64)), ("c", .scalar true)]]) =
        .ok [.scalar (6 : Int64), .scalar (3 : Int64)] := by
    let scope : Scope Tensor := [("b", .scalar (2 : Int64)), ("a", .scalar (3 : Int64)),
      ("b", .scalar (5 : Int64)), ("c", .scalar true)]
    have product : runIn none ⟨0⟩
        { nodes := [{ opType := "Mul", inputs := ["a", "b"], outputs := ["t"] }]
          outputs := [{ name := "t" }] } [] scope = .ok [.scalar (6 : Int64)] :=
      runIn_of_next? [0] (by decide +kernel) rfl rfl rfl
    have node : (scalesOuter.nodes.head (by decide)).next? none ⟨0⟩ scope =
        some (scope.bind "y" (.scalar (6 : Int64))) :=
      Node.next?_branch rfl rfl rfl (by decide) (by decide) (rfl : scope.get? "c" = _)
        (by cbv : conditionOf (.scalar true) = .ok true) product
    exact runIn_of_next? [0] (by decide +kernel) rfl
      (Option.bind_eq_some_iff.2 ⟨_, node, rfl⟩) rfl
  refine ⟨deterministic, by cbv, captures, run, ?_⟩
  rw [← run]
  refine ((runIn_determined deterministic ⟨0⟩ ⟨1⟩).1 [] _ _ fun x hx => ?_).symm
  rw [captures, List.mem_cons, List.mem_singleton] at hx
  rcases hx with rfl | rfl
  · rfl
  · rfl

end Graph
end TensorGraph
