import Mathlib.Data.List.Nodup
import TensorGraph.Evaluation.Basic
import TensorGraph.Proofs.Evaluation.Iteration
import TensorGraph.Proofs.Graph.Nested
import TensorGraph.Proofs.Graph.Reduction
import TensorGraph.Proofs.Tensor.Counted
import TensorGraph.Simplification.Surroundings

/-!
# The values of a run

Input:

* a graph, tensors for its inputs, and the scope that it is run in.

A run computes the nodes one after the other and ends with a scope that holds all values
(`Graph.valuesIn`).  This scope does not depend on the order of the nodes: it is described by what
each node makes of the values in it (`Node.Holds`).

Main results:

* `Graph.solves_of_valuesIn`: the values of a run solve the graph;
* `Graph.Solves.valuesIn`: a graph that has a solution can be run, and its values are those of the
  solution.
-/

namespace TensorGraph

open Tensor (AllAlike)

/-- The first scope for some names, the second one for all others. -/
def Scope.override (names : List String) (s s' : Scope Tensor) : Scope Tensor :=
  inside (s.filter fun p => names.contains p.1) (s'.filter fun p => !names.contains p.1)

theorem Scope.get?_filter (keep : String → Bool) (s : Scope Tensor) (x : String) :
    get? (s.filter fun p => keep p.1) x = if keep x then s.get? x else none := by
  unfold get?
  induction s with
  | nil =>
      split
      · rfl
      · rfl
  | cons p rest ih =>
      rw [List.filter_cons, List.lookup_cons]
      by_cases hx : x = p.1
      · subst hx
        by_cases hp : keep p.1 = true
        · rw [if_pos hp, if_pos hp, List.lookup_cons]
          simp
        · simpa [hp] using ih
      · have hne : (x == p.1) = false := by simpa using hx
        rw [hne, ← ih]
        split
        · rw [List.lookup_cons, hne]
        · rfl

theorem Scope.get?_override (names : List String) (s s' : Scope Tensor) (x : String) :
    (s.override names s').get? x = if x ∈ names then s.get? x else s'.get? x := by
  rw [override, get?_inside, get?_filter, get?_filter fun name => !names.contains name]
  by_cases hx : x ∈ names
  · simp [hx]
  · simp [hx]

/-! ## Runs in steps -/

/-- The error of a run, when a node cannot be run. -/
def NodeRunError.inNode (n : Node) : NodeRunError → RunError
  | kernel fault => .operator n.displayName n.opType fault
  | nested error => .inSubgraph n.displayName error

namespace Step

variable {version : Option Int64} {g : Graph}

/-- The scope after a step. -/
def run (s : Step version g) (chance : Generator) (scope : Scope Tensor) :
    RunResult (Scope Tensor) := do
  let arguments ← s.node.arguments scope
  let outputs ← (s.operator.runNode version chance s.node scope arguments).mapError
    (NodeRunError.inNode s.node)
  s.node.bindOutputs outputs scope

end Step

namespace Graph

/-- All values of a run. -/
def valuesIn (version : Option Int64) (chance : Generator) (g : Graph)
    (inputs outer : Scope Tensor) : RunResult (Scope Tensor) := do
  let steps ← g.plan version
  let given ← g.givenValues inputs
  steps.foldlM (fun scope s => s.run chance scope) (given.inside outer)

/-- A run gives the outputs among its values. -/
theorem runIn_eq (version : Option Int64) (chance : Generator) (g : Graph)
    (inputs outer : Scope Tensor) :
    g.runIn version chance inputs outer =
      g.valuesIn version chance inputs outer >>= g.outputValues := by
  have mapError : ∀ {ε ε' ε'' α : Type} (r : Except ε α) (f : ε → ε') (f' : ε' → ε''),
      (r.mapError f).mapError f' = r.mapError fun e => f' (f e) := by
    intro ε ε' ε'' α r f f'
    cases r <;> rfl
  rw [runIn, valuesIn]
  simp only [bind_assoc]
  congr 1
  funext steps
  congr 1
  funext given
  congr 2
  funext scope s
  unfold Step.run
  congr 1
  funext arguments
  unfold Operator.runNode
  split
  · rename_i heq
    rw [heq]
    dsimp only
    rw [mapError]
    rfl
  · rename_i heq
    rw [heq]
    dsimp only
    rw [mapError]
    rfl
  · rename_i heq
    rw [heq]
    dsimp only
    rw [mapError]
    rfl

/-- A run that succeeds has values, among which its outputs are. -/
theorem runIn_eq_ok {version : Option Int64} {chance : Generator} {g : Graph}
    {inputs outer : Scope Tensor} {outs : List Tensor}
    (h : g.runIn version chance inputs outer = .ok outs) :
    ∃ V, g.valuesIn version chance inputs outer = .ok V ∧ g.outputValues V = .ok outs := by
  rw [runIn_eq] at h
  cases hV : g.valuesIn version chance inputs outer with
  | error e =>
      rw [hV] at h
      cases h
  | ok V =>
      rw [hV] at h
      exact ⟨V, rfl, h⟩

end Graph

/-! ## Steps and their order -/

namespace Graph

variable {version : Option Int64} {g : Graph}

theorem stepAt_eq_ok {i : Fin g.nodes.length} {s : Step version g}
    (h : g.stepAt version i = .ok s) : g.nodes[i.1]? = some s.node := by
  unfold stepAt at h
  split at h
  · cases h
    exact List.getElem?_eq_getElem i.2
  · cases h

theorem exists_stepAt (i : Fin g.nodes.length)
    (h : ∃ operator, Operator.ofNode version (g.nodes.get i) = .ok operator) :
    ∃ s, g.stepAt version i = .ok s := by
  obtain ⟨operator, h⟩ := h
  unfold stepAt
  split
  · exact ⟨_, rfl⟩
  · rename_i heq
    cases h.symm.trans heq

/-- The steps of a plan, by the indexes of their nodes. -/
def StepsAt (g : Graph) : List Nat → List (Step version g) → Prop :=
  List.Forall₂ fun i s => g.nodes[i]? = some s.node

/-- The indexes of an order that are in range. -/
def inRange (g : Graph) (order : List Nat) : List (Fin g.nodes.length) :=
  order.filterMap fun i => if h : i < g.nodes.length then some ⟨i, h⟩ else none

theorem mapM_stepAt_eq_ok {order : List Nat} (bound : ∀ i ∈ order, i < g.nodes.length)
    {steps : List (Step version g)} (h : (g.inRange order).mapM (g.stepAt version) = .ok steps) :
    StepsAt g order steps := by
  induction order generalizing steps with
  | nil =>
      cases h
      exact .nil
  | cons i rest ih =>
      have hi := bound i List.mem_cons_self
      have head : g.inRange (i :: rest) = ⟨i, hi⟩ :: g.inRange rest := by
        unfold inRange
        rw [List.filterMap_cons_some (dif_pos hi)]
      rw [head, mapM_eq_ok_iff, List.forall₂_cons_left_iff] at h
      obtain ⟨s, ss, hs, hss, rfl⟩ := h
      exact .cons (stepAt_eq_ok hs)
        (ih (fun j hj => bound j (List.mem_cons_of_mem _ hj)) (mapM_eq_ok_iff.2 hss))

/-- A plan has a step for each node, in topological order. -/
theorem plan_eq_ok {steps : List (Step version g)} (h : g.plan version = .ok steps) :
    ∃ order, g.topologicalOrder = .ok order ∧ StepsAt g order steps := by
  unfold plan at h
  cases ho : g.topologicalOrder with
  | error cycle =>
      rw [ho] at h
      cases h
  | ok order =>
      rw [ho] at h
      refine ⟨order, rfl, mapM_stepAt_eq_ok (fun i hi => ?_) h⟩
      exact List.mem_range.1 ((topologicalOrder_eq_ok ho).1.mem_iff.1 hi)

/-- A graph can be planned when its nodes can be ordered and all have an operator. -/
theorem exists_plan {order : List Nat} (ho : g.topologicalOrder = .ok order)
    (read : ∀ n ∈ g.nodes, ∃ operator, Operator.ofNode version n = .ok operator) :
    ∃ steps, g.plan version = .ok steps := by
  have all : ∀ is : List (Fin g.nodes.length), ∃ steps, is.mapM (g.stepAt version) = .ok steps := by
    intro is
    induction is with
    | nil => exact ⟨[], rfl⟩
    | cons i rest ih =>
        obtain ⟨s, hs⟩ := exists_stepAt i (read _ (List.getElem_mem i.2))
        obtain ⟨ss, hss⟩ := ih
        rw [List.mapM_cons, hs]
        simp only [hss]
        exact ⟨s :: ss, rfl⟩
  unfold plan
  rw [ho]
  exact all _

end Graph

/-! ## Single nodes -/

namespace Node

variable {version : Option Int64} {chance : Generator} {n : Node} {V W : Scope Tensor}
  {ts : List Tensor}

/-- Whether a node makes some tensors of the values in a scope. -/
def Yields (version : Option Int64) (chance : Generator) (n : Node) (V : Scope Tensor)
    (ts : List Tensor) : Prop :=
  ∃ operator inputs, Operator.ofNode version n = .ok operator ∧ n.arguments V = .ok inputs ∧
    operator.runNode version chance n V inputs = .ok ts

/-- Whether the outputs of a node have the given tensors as their values.  Only omitted outputs need
no tensor. -/
structure Bound (n : Node) (ts : List Tensor) (V : Scope Tensor) : Prop where
  enough : ∀ x ∈ n.outputs.drop ts.length, x = ""
  values : ∀ p ∈ n.outputs.zip ts, p.1 ≠ "" → Option.Rel Tensor.Alike (some p.2) (V.get? p.1)

/-- Whether the outputs of a node have the values that it makes of its inputs. -/
def Holds (version : Option Int64) (chance : Generator) (n : Node) (V : Scope Tensor) : Prop :=
  ∃ ts, n.Yields version chance V ts ∧ n.Bound ts V

/-- Whether a node, in all scopes that give it the values that it reads in one, makes the values that
its outputs have there. -/
def Stable (version : Option Int64) (chance : Generator) (n : Node) (V : Scope Tensor) : Prop :=
  ∀ S : Scope Tensor, (∀ x ∈ n.reads, Option.Rel Tensor.Alike (V.get? x) (S.get? x)) →
    ∃ ts, n.Yields version chance S ts ∧ n.Bound ts V

/-- Whether what a node makes depends on the values that it reads only. -/
def Local (version : Option Int64) (chance : Generator) (n : Node) : Prop :=
  ∀ (V W : Scope Tensor) (ts : List Tensor),
    (∀ x ∈ n.reads, Option.Rel Tensor.Alike (V.get? x) (W.get? x)) →
      n.Yields version chance V ts → ∃ us, n.Yields version chance W us ∧ AllAlike ts us

/-- A node makes the same each time. -/
theorem Yields.unique {us : List Tensor} (h : n.Yields version chance V ts)
    (h' : n.Yields version chance V us) : ts = us := by
  obtain ⟨operator, args, hread, hargs, hout⟩ := h
  obtain ⟨operator', args', hread', hargs', hout'⟩ := h'
  rw [hread] at hread'
  cases hread'
  rw [hargs] at hargs'
  cases hargs'
  rw [hout] at hout'
  cases hout'
  rfl

/-- Tensors that are alike are bound alike. -/
theorem Bound.alike (h : n.Bound ts V) {us : List Tensor} (alike : AllAlike ts us) :
    n.Bound us V := by
  refine ⟨fun x hx => h.enough x (alike.length_eq ▸ hx), ?_⟩
  have values := h.values
  clear h
  generalize n.outputs = names at values ⊢
  induction alike generalizing names with
  | nil => simp
  | cons first _ ih =>
      cases names with
      | nil => simp
      | cons name names =>
          intro p hp hne
          rw [List.zip_cons_cons, List.mem_cons] at hp
          rcases hp with rfl | hp
          · exact Tensor.rel_alike_trans (.some first.symm)
              (values _ List.mem_cons_self hne)
          · exact ih names (fun q hq => values q (List.mem_cons_of_mem _ hq)) p hp hne

theorem Bound.congr (h : n.Bound ts V)
    (same : ∀ x ∈ n.presentOutputs, Option.Rel Tensor.Alike (V.get? x) (W.get? x)) :
    n.Bound ts W := by
  refine ⟨h.enough, fun p hp hne => Tensor.rel_alike_trans (h.values p hp hne) (same p.1 ?_)⟩
  exact mem_presentOutputs.2 ⟨(List.of_mem_zip (show (p.1, p.2) ∈ _ from hp)).1, hne⟩

/-- When only omitted outputs lack a tensor, every other output has one at its position. -/
theorem exists_get_of_enough (enough : ∀ x ∈ n.outputs.drop ts.length, x = "") {i : Nat}
    {x : String} (hx : n.outputs[i]? = some x) (hne : x ≠ "") :
    ∃ t, (x, t) ∈ n.outputs.zip ts ∧ ts[i]? = some t := by
  obtain ⟨hi, rfl⟩ := List.getElem?_eq_some_iff.1 hx
  by_cases hlen : i < ts.length
  · refine ⟨ts[i], List.mem_iff_getElem.2 ⟨i, ?_, ?_⟩, List.getElem?_eq_getElem hlen⟩
    · rw [List.length_zip]
      omega
    · rw [List.getElem_zip]
  · refine absurd (enough _ ?_) hne
    rw [List.mem_iff_getElem]
    refine ⟨i - ts.length, ?_, ?_⟩
    · rw [List.length_drop]
      omega
    · rw [List.getElem_drop]
      congr 1
      omega

/-- An output that is not omitted has a value at its position. -/
theorem Bound.exists_get (h : n.Bound ts V) {i : Nat} {x : String} (hx : n.outputs[i]? = some x)
    (hne : x ≠ "") : ∃ t, (x, t) ∈ n.outputs.zip ts ∧ ts[i]? = some t :=
  exists_get_of_enough h.enough hx hne

/-- When only omitted outputs lack a tensor, every other output has one. -/
theorem exists_value_of_enough (enough : ∀ x ∈ n.outputs.drop ts.length, x = "") {x : String}
    (hx : x ∈ n.presentOutputs) : ∃ t, (x, t) ∈ n.outputs.zip ts := by
  obtain ⟨hmem, hne⟩ := mem_presentOutputs.1 hx
  obtain ⟨i, hi⟩ := List.getElem?_of_mem hmem
  obtain ⟨t, ht, -⟩ := exists_get_of_enough enough hi hne
  exact ⟨t, ht⟩

/-- An output that is not omitted has a value. -/
theorem Bound.exists_value (h : n.Bound ts V) {x : String} (hx : x ∈ n.presentOutputs) :
    ∃ t, (x, t) ∈ n.outputs.zip ts :=
  exists_value_of_enough h.enough hx

theorem Holds.stable (h : n.Holds version chance V) (hn : n.Local version chance) :
    n.Stable version chance V := by
  intro S same
  obtain ⟨ts, yields, bound⟩ := h
  obtain ⟨us, yields', alike⟩ := hn V S ts same yields
  exact ⟨us, yields', bound.alike alike⟩

/-- A node holds in all scopes that give what it reads and makes the same values. -/
theorem Holds.congr (h : n.Holds version chance V) (hn : n.Local version chance)
    (reads : ∀ x ∈ n.reads, Option.Rel Tensor.Alike (V.get? x) (W.get? x))
    (outputs : ∀ x ∈ n.presentOutputs, Option.Rel Tensor.Alike (V.get? x) (W.get? x)) :
    n.Holds version chance W := by
  obtain ⟨ts, yields, bound⟩ := h.stable hn W reads
  exact ⟨ts, yields, bound.congr outputs⟩

/-- A node gets the values of its inputs, all of which need one. -/
theorem arguments_eq_ok_iff {args : Inputs} :
    n.arguments V = .ok args ↔
      (∀ x ∈ n.presentInputs, ∃ t, V.get? x = some t) ∧
        args = n.inputs.map fun x => if x = "" then none else V.get? x := by
  have args_iff : n.arguments V = .ok args ↔ List.Forall₂ (fun x a =>
      (x ≠ "" → ∃ t, V.get? x = some t) ∧ a = if x = "" then none else V.get? x) n.inputs args := by
    refine mapM_eq_ok_iff.trans ⟨fun h => h.imp fun x a => ?_, fun h => h.imp fun x a => ?_⟩
    all_goals
      by_cases hx : x = ""
      · simp [hx, eq_comm]
      · cases V.get? x <;> simp [hx, eq_comm]
  rw [args_iff]
  constructor
  · intro all
    refine ⟨fun x hx => ?_, ?_⟩
    · obtain ⟨hmem, hne⟩ := mem_presentInputs.1 hx
      obtain ⟨a, -, h, -⟩ := exists_right_of_forall₂ all hmem
      exact h hne
    · exact eq_map_of_forall₂ (all.imp fun _ _ h => h.2)
  · rintro ⟨found, rfl⟩
    rw [List.forall₂_map_right_iff, List.forall₂_same]
    exact fun x hx => ⟨fun hne => found x (mem_presentInputs.2 ⟨hx, hne⟩), rfl⟩

/-- A copy has the value that it is made of. -/
theorem holds_copying_iff {x y : String} (hx : x ≠ "") (hy : y ≠ "") :
    (copying x y).Holds version chance V ↔
      ∃ t, V.get? x = some t ∧ Option.Rel Tensor.Alike (some t) (V.get? y) := by
  have hread : Operator.ofNode version (copying x y) = .ok (.kernel .identity) := rfl
  have run : ∀ t, Operator.runNode version chance (copying x y) V [some t] (.kernel .identity) =
      .ok [t] := fun _ => rfl
  have hargs : ∀ args, (copying x y).arguments V = .ok args ↔
      ∃ t, V.get? x = some t ∧ args = [some t] := by
    intro args
    rw [arguments_eq_ok_iff]
    simp only [copying, presentInputs, List.map_cons, List.map_nil, if_neg hx]
    constructor
    · rintro ⟨h, rfl⟩
      obtain ⟨t, ht⟩ := h x (by simpa using hx)
      exact ⟨t, ht, by rw [ht]⟩
    · rintro ⟨t, ht, rfl⟩
      refine ⟨fun z hz => ⟨t, ?_⟩, by rw [ht]⟩
      rw [← ht, List.mem_singleton.1 (List.mem_filter.1 hz).1]
  constructor
  · rintro ⟨ts, ⟨operator, args, hread', hargs', hout⟩, bound⟩
    rw [hread] at hread'
    cases hread'
    obtain ⟨t, ht, rfl⟩ := (hargs args).1 hargs'
    rw [run] at hout
    cases hout
    exact ⟨t, ht, bound.values (y, t) (by simp [copying]) hy⟩
  · rintro ⟨t, ht, same⟩
    refine ⟨[t], ⟨_, [some t], hread, (hargs _).2 ⟨t, ht, rfl⟩, run t⟩, by simp [copying], ?_⟩
    simpa [copying] using fun _ => same

/-! ### Binding outputs -/

/-- Add pairs of names and tensors to a scope, without those that have no name. -/
def bindAll (ps : List (String × Tensor)) (scope : Scope Tensor) : Scope Tensor :=
  ps.foldl (fun scope (name, t) => if name = "" then scope else scope.bind name t) scope

theorem bindAll_cons (p : String × Tensor) (ps : List (String × Tensor)) (scope : Scope Tensor) :
    bindAll (p :: ps) scope = bindAll ps (if p.1 = "" then scope else scope.bind p.1 p.2) := rfl

/-- A name has the tensor of a pair with this name, if there is one. -/
theorem get?_bindAll (ps : List (String × Tensor)) (scope : Scope Tensor) (x : String) :
    (∃ p ∈ ps, p.1 = x ∧ x ≠ "" ∧ (bindAll ps scope).get? x = some p.2) ∨
      ((∀ p ∈ ps, p.1 = x → x = "") ∧ (bindAll ps scope).get? x = scope.get? x) := by
  induction ps generalizing scope with
  | nil => exact Or.inr ⟨by simp, rfl⟩
  | cons p rest ih =>
      rw [bindAll_cons]
      rcases ih (if p.1 = "" then scope else scope.bind p.1 p.2) with
        ⟨q, hq, heq, hne, hget⟩ | ⟨none, hget⟩
      · exact Or.inl ⟨q, List.mem_cons_of_mem _ hq, heq, hne, hget⟩
      · rw [hget]
        by_cases hp : p.1 = x ∧ x ≠ ""
        · obtain ⟨rfl, hne⟩ := hp
          refine Or.inl ⟨p, List.mem_cons_self, rfl, hne, ?_⟩
          rw [if_neg hne, Scope.get?_bind, if_pos rfl]
        · refine Or.inr ⟨fun q hq heq => ?_, ?_⟩
          · rcases List.mem_cons.1 hq with rfl | hq
            · exact Classical.not_not.1 fun hne => hp ⟨heq, hne⟩
            · exact none q hq heq
          · split
            · rfl
            · rename_i hne
              rw [Scope.get?_bind, if_neg]
              rintro rfl
              exact hp ⟨rfl, hne⟩

theorem bindOutputs_eq_ok {scope : Scope Tensor} (h : n.bindOutputs ts scope = .ok V) :
    (∀ x ∈ n.outputs.drop ts.length, x = "") ∧ V = bindAll (n.outputs.zip ts) scope := by
  unfold bindOutputs at h
  split at h
  · rename_i all
    cases h
    exact ⟨fun x hx => of_decide_eq_true (List.all_eq_true.1 all x hx), rfl⟩
  · cases h

theorem bindOutputs_of_enough {scope : Scope Tensor} (h : ∀ x ∈ n.outputs.drop ts.length, x = "") :
    n.bindOutputs ts scope = .ok (bindAll (n.outputs.zip ts) scope) := by
  unfold bindOutputs
  rw [if_pos]
  · rfl
  · exact List.all_eq_true.2 fun x hx => decide_eq_true (h x hx)

/-- Other names than those of outputs keep their tensors. -/
theorem get?_bindAll_of_not_mem {scope : Scope Tensor} {x : String} (hx : x ∉ n.presentOutputs) :
    (bindAll (n.outputs.zip ts) scope).get? x = scope.get? x := by
  rcases get?_bindAll (n.outputs.zip ts) scope x with ⟨p, hp, rfl, hne, -⟩ | ⟨-, hget⟩
  · refine absurd (mem_presentOutputs.2 ⟨?_, hne⟩) hx
    exact (List.of_mem_zip (show (p.1, p.2) ∈ _ from hp)).1
  · exact hget

/-- When no output is listed twice, each output has its tensor. -/
theorem get?_bindAll_of_mem (nodup : n.presentOutputs.Nodup) {scope : Scope Tensor}
    {p : String × Tensor} (hp : p ∈ n.outputs.zip ts) (hne : p.1 ≠ "") :
    (bindAll (n.outputs.zip ts) scope).get? p.1 = some p.2 := by
  unfold presentOutputs at nodup
  generalize n.outputs = names at nodup hp ⊢
  induction names generalizing ts scope with
  | nil => cases hp
  | cons name names ih =>
      cases ts with
      | nil => cases hp
      | cons t ts =>
          have rest : (names.filter (· ≠ "")).Nodup :=
            nodup.sublist ((List.sublist_cons_self name names).filter _)
          rw [List.zip_cons_cons, bindAll_cons]
          rw [List.zip_cons_cons, List.mem_cons] at hp
          rcases hp with rfl | hp
          · dsimp only at hne ⊢
            rw [if_neg hne]
            have later : name ∉ names := by
              intro hmem
              rw [List.filter_cons, if_pos (by simpa using hne)] at nodup
              exact (List.nodup_cons.1 nodup).1 (List.mem_filter.2 ⟨hmem, by simpa using hne⟩)
            rcases get?_bindAll (names.zip ts) (scope.bind name t) name with
              ⟨q, hq, heq, -⟩ | ⟨-, hget⟩
            · exact absurd (heq ▸ (List.of_mem_zip (show (q.1, q.2) ∈ _ from hq)).1) later
            · rw [hget, Scope.get?_bind, if_pos rfl]
          · exact ih rest hp

end Node

namespace Step

variable {version : Option Int64} {chance : Generator} {g : Graph}

/-- What a step does, when it succeeds. -/
theorem run_eq_ok {s : Step version g} {scope after : Scope Tensor}
    (h : s.run chance scope = .ok after) :
    ∃ ts, s.node.Yields version chance scope ts ∧ s.node.bindOutputs ts scope = .ok after := by
  unfold run at h
  cases hargs : s.node.arguments scope with
  | error e =>
      rw [hargs] at h
      cases h
  | ok args =>
      rw [hargs] at h
      cases hout : s.operator.runNode version chance s.node scope args with
      | error e =>
          simp only [bind, Except.bind, hout, Except.mapError] at h
          cases h
      | ok ts =>
          simp only [bind, Except.bind, hout, Except.mapError] at h
          exact ⟨ts, ⟨s.operator, args, s.read, hargs, hout⟩, h⟩

theorem run_of_yields {s : Step version g} {scope after : Scope Tensor} {ts : List Tensor}
    (yields : s.node.Yields version chance scope ts)
    (h : s.node.bindOutputs ts scope = .ok after) : s.run chance scope = .ok after := by
  obtain ⟨operator, args, hread, hargs, hout⟩ := yields
  have read := s.read
  rw [hread] at read
  cases read
  unfold run
  rw [hargs]
  simp only [bind, Except.bind, hout, Except.mapError]
  exact h

end Step

/-! ## Solutions -/

namespace Graph

variable {version : Option Int64} {chance : Generator} {g : Graph}
  {inputs outer V : Scope Tensor}

/-- Whether a scope gives all values of a graph: those that are given, and what its nodes make of
them. -/
structure Solves (version : Option Int64) (chance : Generator) (g : Graph)
    (inputs outer V : Scope Tensor) : Prop where
  given : ∃ given, g.givenValues inputs = .ok given ∧
    ∀ x, x ∈ g.definedNames ∨ x ∈ g.captures → x ∉ g.produced →
      Option.Rel Tensor.Alike ((given.inside outer).get? x) (V.get? x)
  nodes : ∀ n ∈ g.nodes, n.Holds version chance V

/-- Whether the nodes with some indexes have run: they hold, they waited for each other only, and
nothing else has changed. -/
structure Ran (version : Option Int64) (chance : Generator) (g : Graph) (start : Scope Tensor)
    (before : List Nat) (scope : Scope Tensor) : Prop where
  closed : ∀ j ∈ before, ∀ k ∈ g.dependencies.getD j [], k ∈ before
  others : ∀ x, (∀ j ∈ before, ∀ n, g.nodes[j]? = some n → x ∉ n.presentOutputs) →
    scope.get? x = start.get? x
  holds : ∀ j ∈ before, ∀ n, g.nodes[j]? = some n → n.Holds version chance scope

/-- One step keeps the values of the nodes before it. -/
theorem Ran.step (distinct : Node.Distinct g.nodes) (hlocal : ∀ n ∈ g.nodes, n.Local version chance)
    {start scope after : Scope Tensor} {before : List Nat} {i : Nat} {s : Step version g}
    (h : Ran version chance g start before scope) (hi : g.nodes[i]? = some s.node)
    (new : i ∉ before) (deps : ∀ j ∈ g.dependencies.getD i [], j ∈ before)
    (run : s.run chance scope = .ok after) : Ran version chance g start (before ++ [i]) after := by
  obtain ⟨ts, yields, hbind⟩ := Step.run_eq_ok run
  obtain ⟨enough, rfl⟩ := Node.bindOutputs_eq_ok hbind
  have nodup : s.node.presentOutputs.Nodup :=
    (List.pairwise_flatMap.1 distinct).1 _ (List.mem_of_getElem? hi)
  -- nothing that has run reads the new outputs
  have unread : ∀ j n, g.nodes[j]? = some n → (j ∈ before ∨ j = i) → ∀ x ∈ n.reads,
      x ∉ s.node.presentOutputs := by
    intro j n hn hj x hx hout
    have dep : i ∈ g.dependencies.getD j [] :=
      mem_dependencies.2 ⟨n, hn, x, hx, lastProducer?_eq distinct hi hout⟩
    rcases hj with hj | rfl
    · exact new (h.closed j hj i dep)
    · exact new (deps _ dep)
  have keep : ∀ x, x ∉ s.node.presentOutputs → Option.Rel Tensor.Alike (scope.get? x)
      ((Node.bindAll (s.node.outputs.zip ts) scope).get? x) := by
    intro x hx
    rw [Node.get?_bindAll_of_not_mem hx]
    exact Tensor.rel_alike_refl _
  refine ⟨fun j hj k hk => ?_, fun x hx => ?_, fun j hj n hn => ?_⟩
  · rcases List.mem_append.1 hj with hj | hj
    · exact List.mem_append_left _ (h.closed j hj k hk)
    · cases List.mem_singleton.1 hj
      exact List.mem_append_left _ (deps k hk)
  · rw [Node.get?_bindAll_of_not_mem (hx i (by simp) _ hi)]
    exact h.others x fun j hj => hx j (List.mem_append_left _ hj)
  · have hread := unread j n hn ((List.mem_append.1 hj).imp_right List.mem_singleton.1)
    rcases List.mem_append.1 hj with hj | hj
    · refine (h.holds j hj n hn).congr (hlocal n (List.mem_of_getElem? hn))
        (fun x hx => keep x (hread x hx)) fun x hx => keep x fun hout => ?_
      have := distinct.eq_index hn hi hx hout
      exact new (this ▸ hj)
    · cases List.mem_singleton.1 hj
      rw [hi] at hn
      cases hn
      obtain ⟨us, yields', alike⟩ := hlocal _ (List.mem_of_getElem? hi) _ _ ts
        (fun x hx => keep x (hread x hx)) yields
      refine ⟨us, yields', Node.Bound.alike ⟨enough, fun p hp hne => ?_⟩ alike⟩
      rw [Node.get?_bindAll_of_mem nodup hp hne]
      exact .some (.refl _)

/-- All steps do. -/
theorem Ran.foldlM (distinct : Node.Distinct g.nodes) (hlocal : ∀ n ∈ g.nodes, n.Local version chance)
    {start scope after : Scope Tensor} {before order : List Nat} {steps : List (Step version g)}
    (h : Ran version chance g start before scope) (steps_at : StepsAt g order steps)
    (inOrder : InOrder g.dependencies before order)
    (run : steps.foldlM (fun scope s => s.run chance scope) scope = .ok after) :
    Ran version chance g start (before ++ order) after := by
  induction steps_at generalizing before scope with
  | nil =>
      cases run
      rwa [List.append_nil]
  | @cons i s rest ss hi _ ih =>
      obtain ⟨new, deps, later⟩ := inOrder
      rw [List.foldlM_cons] at run
      cases hs : s.run chance scope with
      | error e =>
          rw [hs] at run
          cases run
      | ok next =>
          rw [hs] at run
          have := ih (h.step distinct hlocal hi new deps hs) later run
          rwa [List.append_assoc] at this

/-! ## What a graph is given -/

theorem exists_mem_of_get?_constants {x : String} {t : Tensor} (h : g.constants.get? x = some t) :
    ∃ i ∈ g.initializers, i.name = x ∧ i.value = t := by
  unfold constants Scope.get? Scope.ofBindings at h
  obtain ⟨l₁, l₂, heq, -⟩ := List.lookup_eq_some_iff.1 h
  have hmem : (x, t) ∈ (g.initializers.map fun i => (i.name, i.value)).reverse := by
    rw [heq]
    exact List.mem_append_right _ List.mem_cons_self
  obtain ⟨i, hi, hpair⟩ := List.mem_map.1 (List.mem_reverse.1 hmem)
  cases hpair
  exact ⟨i, hi, rfl, rfl⟩

theorem isSome_get?_constants {x : String} :
    (g.constants.get? x).isSome ↔ x ∈ g.initializerNames := by
  constructor
  · intro h
    obtain ⟨t, ht⟩ := Option.isSome_iff_exists.1 h
    obtain ⟨i, hi, rfl, -⟩ := exists_mem_of_get?_constants ht
    exact List.mem_map_of_mem hi
  · intro hx
    obtain ⟨i, hi, rfl⟩ := List.mem_map.1 hx
    unfold constants Scope.get? Scope.ofBindings
    rw [Option.isSome_iff_ne_none, ne_eq, List.lookup_eq_none_iff]
    intro none
    simpa using none (i.name, i.value)
      (List.mem_reverse.2 (List.mem_map_of_mem (f := fun i : Initializer => (i.name, i.value)) hi))

theorem get?_constants_eq_none {x : String} (hx : x ∉ g.initializerNames) :
    g.constants.get? x = none := by
  rw [← Option.isNone_iff_eq_none, Option.isNone_iff_eq_none, ← Option.not_isSome_iff_eq_none]
  exact fun h => hx (isSome_get?_constants.1 h)

/-- When no name is given twice, a constant has the value of its initializer. -/
theorem get?_constants_of_mem (nodup : g.initializerNames.Nodup) {i : Initializer}
    (hi : i ∈ g.initializers) : g.constants.get? i.name = some i.value := by
  obtain ⟨t, ht⟩ :=
    Option.isSome_iff_exists.1 (isSome_get?_constants.2 (List.mem_map_of_mem hi))
  obtain ⟨j, hj, hname, rfl⟩ := exists_mem_of_get?_constants ht
  rw [ht, List.inj_on_of_nodup_map nodup hj hi hname]

/-- Bind an input to its tensor.  Without one it needs a value already. -/
def giveInput (inputs : Scope Tensor) (scope : Scope Tensor) (v : ValueInfo) :
    RunResult (Scope Tensor) :=
  match inputs.get? v.name with
  | some t => .ok (scope.bind v.name t)
  | none => if scope.contains v.name then .ok scope else .error (.missingInput v.name)

theorem get?_of_foldlM_giveInput {vs : List ValueInfo} {scope after : Scope Tensor}
    (h : vs.foldlM (giveInput inputs) scope = .ok after) (x : String) :
    after.get? x =
      if x ∈ vs.map ValueInfo.name then (inputs.get? x).or (scope.get? x) else scope.get? x := by
  induction vs generalizing scope with
  | nil =>
      cases h
      simp
  | cons v rest ih =>
      rw [List.foldlM_cons] at h
      simp only [List.map_cons, List.mem_cons]
      unfold giveInput at h
      cases hv : inputs.get? v.name with
      | some t =>
          simp only [hv] at h
          rw [ih h, Scope.get?_bind]
          by_cases hx : x = v.name
          · subst hx
            simp [hv]
          · simp [hx]
      | none =>
          simp only [hv] at h
          split at h
          · rw [ih h]
            by_cases hx : x = v.name
            · subst hx
              simp [hv]
            · simp [hx]
          · cases h

theorem exists_foldlM_giveInput_iff {vs : List ValueInfo} {scope : Scope Tensor} :
    (∃ after, vs.foldlM (giveInput inputs) scope = .ok after) ↔
      ∀ v ∈ vs, (inputs.get? v.name).isSome ∨ (scope.get? v.name).isSome := by
  induction vs generalizing scope with
  | nil => exact ⟨fun _ => by simp, fun _ => ⟨scope, rfl⟩⟩
  | cons v rest ih =>
      rw [List.forall_mem_cons]
      simp only [List.foldlM_cons]
      cases hv : inputs.get? v.name with
      | some t =>
          have first : giveInput inputs scope v = .ok (scope.bind v.name t) := by
            unfold giveInput
            rw [hv]
          rw [first]
          refine ih.trans ⟨fun h => ⟨Or.inl rfl, fun w hw => ?_⟩, fun h w hw => ?_⟩
          · have := h w hw
            rw [Scope.get?_bind] at this
            by_cases hwv : w.name = v.name
            · rw [hwv, hv]
              exact Or.inl rfl
            · rwa [if_neg hwv] at this
          · rw [Scope.get?_bind]
            refine (h.2 w hw).imp_right fun hs => ?_
            split
            · rfl
            · exact hs
      | none =>
          have first : giveInput inputs scope v =
              if scope.contains v.name then .ok scope else .error (.missingInput v.name) := by
            unfold giveInput
            rw [hv]
          rw [first]
          by_cases hc : scope.contains v.name = true
          · rw [if_pos hc]
            exact ih.trans ⟨fun h => ⟨Or.inr hc, h⟩, fun h => h.2⟩
          · rw [if_neg hc]
            constructor
            · rintro ⟨after, h⟩
              cases h
            · rintro ⟨h | h, -⟩
              · cases h
              · exact absurd h hc

/-- An input has the tensor that it is given, and a constant has its value otherwise. -/
theorem get?_givenValues {given : Scope Tensor} (h : g.givenValues inputs = .ok given) (x : String) :
    given.get? x =
      if x ∈ g.inputNames then (inputs.get? x).or (g.constants.get? x)
      else g.constants.get? x :=
  get?_of_foldlM_giveInput h x

/-- Each input needs a tensor or a constant. -/
theorem exists_givenValues_iff :
    (∃ given, g.givenValues inputs = .ok given) ↔
      ∀ v ∈ g.inputs, (inputs.get? v.name).isSome ∨ (g.constants.get? v.name).isSome :=
  exists_foldlM_giveInput_iff

/-- What a graph is given has no other names than its inputs and initializers. -/
theorem get?_givenValues_eq_none {given : Scope Tensor} (h : g.givenValues inputs = .ok given)
    {x : String}
    (hx : x ∉ g.inputNames ∧ x ∉ g.initializerNames) :
    given.get? x = none := by
  rw [get?_givenValues h, if_neg hx.1, get?_constants_eq_none hx.2]

/-- Inputs and initializers are given. -/
theorem exists_get?_givenValues {given : Scope Tensor} (h : g.givenValues inputs = .ok given)
    {x : String}
    (hx : x ∈ g.inputNames ∨ x ∈ g.initializerNames) :
    ∃ t, given.get? x = some t := by
  rw [← Option.isSome_iff_exists, get?_givenValues h]
  split
  · rename_i hin
    obtain ⟨v, hv, rfl⟩ := List.mem_map.1 hin
    rw [Option.isSome_or, Bool.or_eq_true]
    exact exists_givenValues_iff.1 ⟨given, h⟩ v hv
  · rename_i hin
    exact isSome_get?_constants.2 (hx.resolve_left hin)

/-! ## Solutions of runs -/

/-- A constant has its value, unless an input stands for it. -/
theorem Solves.initializer (h : g.Solves version chance inputs outer V) (unique : g.Unique)
    (noDefaults : ∀ x ∈ g.initializerNames, x ∉ g.inputNames) {i : Initializer}
    (hi : i ∈ g.initializers) : Option.Rel Tensor.Alike (some i.value) (V.get? i.name) := by
  have hname : i.name ∈ g.initializerNames := List.mem_map_of_mem hi
  have nodup : g.initializerNames.Nodup := by
    have := unique.nodup
    rw [made, List.append_assoc, List.nodup_append] at this
    exact this.1
  obtain ⟨given, hgiven, agree⟩ := h.given
  have value := agree i.name (Or.inl (mem_definedNames.2 (Or.inr (Or.inl hname))))
    fun hp => unique.produced_not_mem_initializerNames hp hname
  rw [Scope.get?_inside, get?_givenValues hgiven, if_neg (noDefaults i.name hname),
    get?_constants_of_mem nodup hi] at value
  exact value

/-- A smaller graph is solved when its nodes hold, its constants have their values, and what comes
from outside is the same. -/
theorem Solves.of_reduces {g' : Graph} {W : Scope Tensor}
    (h : g.Solves version chance inputs outer V) (unique : g.Unique) (reduces : g.Reduces g')
    (noDefaults : ∀ x ∈ g.initializerNames, x ∉ g.inputNames)
    (outside : ∀ x, x ∈ g.inputNames ∨ x ∈ g.captures →
      Option.Rel Tensor.Alike (V.get? x) (W.get? x))
    (constants : ∀ i ∈ g'.initializers, Option.Rel Tensor.Alike (some i.value) (W.get? i.name))
    (nodes : ∀ n ∈ g'.nodes, n.Holds version chance W) :
    g'.Solves version chance inputs outer W := by
  obtain ⟨given, hgiven, agree⟩ := h.given
  have noDefaults' : ∀ x ∈ g.inputNames, x ∉ g'.initializerNames := fun x hx hi =>
    noDefaults x ((reduces.defaults x hx).1 hi) hx
  obtain ⟨given', hgiven'⟩ : ∃ given', g'.givenValues inputs = .ok given' := by
    rw [exists_givenValues_iff, reduces.inputs]
    intro v hv
    refine (exists_givenValues_iff.1 ⟨given, hgiven⟩ v hv).imp_right fun hs => ?_
    exact absurd (List.mem_map_of_mem hv) (noDefaults _ (isSome_get?_constants.1 hs))
  refine ⟨⟨given', hgiven', fun x hx hp => ?_⟩, nodes⟩
  have hinputs : g'.inputNames = g.inputNames :=
    congrArg (List.map ValueInfo.name) reduces.inputs
  rw [Scope.get?_inside, get?_givenValues hgiven', hinputs]
  by_cases hin : x ∈ g.inputNames
  · have value := agree x (Or.inl (mem_definedNames.2 (Or.inl hin)))
      fun hp => unique.produced_not_mem_inputNames hp hin
    rw [Scope.get?_inside, get?_givenValues hgiven, if_pos hin,
      get?_constants_eq_none fun hi => noDefaults x hi hin] at value
    rw [if_pos hin, get?_constants_eq_none (noDefaults' x hin)]
    exact Tensor.rel_alike_trans value (outside x (Or.inl hin))
  · rw [if_neg hin]
    cases hc : g'.constants.get? x with
    | some t =>
        obtain ⟨i, hi, rfl, rfl⟩ := exists_mem_of_get?_constants hc
        exact constants i hi
    | none =>
        have hundef : x ∉ g'.definedNames := by
          rw [mem_definedNames, not_or, not_or]
          refine ⟨fun hi => hin (hinputs ▸ (hi : x ∈ g'.inputNames)), fun hi => ?_, hp⟩
          have found := isSome_get?_constants.2 hi
          rw [hc] at found
          cases found
        have hcap := reduces.captures x (hx.resolve_left hundef)
        have hno := (mem_captures.1 hcap).2
        rw [mem_definedNames, not_or, not_or] at hno
        have value := agree x (Or.inr hcap) hno.2.2
        rw [Scope.get?_inside, get?_givenValues_eq_none hgiven ⟨hno.1, hno.2.1⟩] at value
        exact Tensor.rel_alike_trans value (outside x (Or.inr hcap))

/-- The values of a run solve the graph.  Values from outside stay. -/
theorem solves_of_valuesIn (distinct : Node.Distinct g.nodes)
    (hlocal : ∀ n ∈ g.nodes, n.Local version chance)
    (h : g.valuesIn version chance inputs outer = .ok V) :
    g.Solves version chance inputs outer V ∧
      ∀ x, x ∉ g.definedNames → V.get? x = outer.get? x := by
  unfold valuesIn at h
  cases hp : g.plan version with
  | error e =>
      rw [hp] at h
      cases h
  | ok steps =>
      rw [hp] at h
      cases hg : g.givenValues inputs with
      | error e =>
          rw [hg] at h
          cases h
      | ok given =>
          rw [hg] at h
          obtain ⟨order, ho, steps_at⟩ := plan_eq_ok hp
          obtain ⟨perm, inOrder⟩ := topologicalOrder_eq_ok ho
          have start : Ran version chance g (given.inside outer) [] (given.inside outer) :=
            ⟨by simp, fun _ _ => rfl, by simp⟩
          have ran := start.foldlM distinct hlocal steps_at inOrder h
          rw [List.nil_append] at ran
          have unchanged : ∀ x, x ∉ g.produced → V.get? x = (given.inside outer).get? x := by
            intro x hx
            refine ran.others x fun j _ n hn hout => hx ?_
            exact mem_produced.2 ⟨n, List.mem_of_getElem? hn, hout⟩
          refine ⟨⟨⟨given, hg, fun x _ hx => ?_⟩, fun n hn => ?_⟩, fun x hx => ?_⟩
          · rw [unchanged x hx]
            exact Tensor.rel_alike_refl _
          · obtain ⟨i, hi⟩ := List.getElem?_of_mem hn
            refine ran.holds i (perm.mem_iff.2 (List.mem_range.2 ?_)) n hi
            exact (List.getElem?_eq_some_iff.1 hi).1
          · rw [mem_definedNames, not_or, not_or] at hx
            rw [unchanged x hx.2.2, Scope.get?_inside, get?_givenValues_eq_none hg ⟨hx.1, hx.2.1⟩]
            rfl

/-! ## Runs from solutions -/

/-- Whether a scope already gives the values of a solution that come from outside or were made by the
nodes with some indexes. -/
def Reached (g : Graph) (V : Scope Tensor) (before : List Nat) (scope : Scope Tensor) : Prop :=
  ∀ x, x ∈ g.definedNames ∨ x ∈ g.captures →
    (x ∈ g.produced → ∃ j ∈ before, ∃ n, g.nodes[j]? = some n ∧ x ∈ n.presentOutputs) →
      Option.Rel Tensor.Alike (V.get? x) (scope.get? x)

/-- A node can be run when those that it waits for have been run. -/
theorem Reached.step (stable : ∀ n ∈ g.nodes, n.Stable version chance V) {before : List Nat} {i : Nat}
    {s : Step version g} {scope : Scope Tensor} (h : g.Reached V before scope)
    (hi : g.nodes[i]? = some s.node) (deps : ∀ j ∈ g.dependencies.getD i [], j ∈ before) :
    ∃ after, s.run chance scope = .ok after ∧ g.Reached V (before ++ [i]) after := by
  have hmem := List.mem_of_getElem? hi
  obtain ⟨ts, yields, bound⟩ := stable _ hmem scope fun x hx => by
    refine h x (reads_subset hmem hx) fun hp => ?_
    obtain ⟨j, hj⟩ := exists_lastProducer? hp
    obtain ⟨n, hn, hout⟩ := lastProducer?_some hj
    exact ⟨j, deps j (mem_dependencies.2 ⟨_, hi, x, hx, hj⟩), n, hn, hout⟩
  refine ⟨_, Step.run_of_yields yields (Node.bindOutputs_of_enough bound.enough), fun x hx hdone => ?_⟩
  rcases Node.get?_bindAll (s.node.outputs.zip ts) scope x with ⟨p, hp, rfl, hne, hget⟩ | ⟨none, hget⟩
  · rw [hget]
    exact Tensor.rel_alike_symm (bound.values p hp hne)
  · rw [hget]
    refine h x hx fun hp => ?_
    obtain ⟨j, hj, n, hn, hout⟩ := hdone hp
    rcases List.mem_append.1 hj with hj | hj
    · exact ⟨j, hj, n, hn, hout⟩
    · cases List.mem_singleton.1 hj
      rw [hi] at hn
      cases hn
      obtain ⟨t, ht⟩ := bound.exists_value hout
      exact absurd (none _ ht rfl) (Node.mem_presentOutputs.1 hout).2

/-- All nodes can be run in order. -/
theorem Reached.foldlM (stable : ∀ n ∈ g.nodes, n.Stable version chance V) {before order : List Nat}
    {steps : List (Step version g)} {scope : Scope Tensor} (h : g.Reached V before scope)
    (steps_at : StepsAt g order steps) (inOrder : InOrder g.dependencies before order) :
    ∃ after, steps.foldlM (fun scope s => s.run chance scope) scope = .ok after ∧
      g.Reached V (before ++ order) after := by
  induction steps_at generalizing before scope with
  | nil => exact ⟨scope, rfl, by rwa [List.append_nil]⟩
  | @cons i s rest ss hi _ ih =>
      obtain ⟨-, deps, later⟩ := inOrder
      obtain ⟨next, hs, reached⟩ := h.step stable hi deps
      obtain ⟨after, hafter, reached'⟩ := ih reached later
      refine ⟨after, ?_, by rwa [List.append_assoc] at reached'⟩
      rw [List.foldlM_cons, hs]
      exact hafter

/-- A graph whose nodes can be ordered can be run when values are known that its nodes make of each
other.  The run gives these values. -/
theorem exists_valuesIn {order : List Nat} (ho : g.topologicalOrder = .ok order)
    {given : Scope Tensor} (hgiven : g.givenValues inputs = .ok given)
    (agree : ∀ x, x ∈ g.definedNames ∨ x ∈ g.captures → x ∉ g.produced →
      Option.Rel Tensor.Alike ((given.inside outer).get? x) (V.get? x))
    (stable : ∀ n ∈ g.nodes, n.Stable version chance V) :
    ∃ F, g.valuesIn version chance inputs outer = .ok F ∧
      ∀ x, x ∈ g.definedNames ∨ x ∈ g.captures →
        Option.Rel Tensor.Alike (V.get? x) (F.get? x) := by
  obtain ⟨steps, hsteps⟩ : ∃ steps, g.plan version = .ok steps := exists_plan ho fun n hn => by
    obtain ⟨ts, ⟨operator, -, hread, -⟩, -⟩ := stable n hn V fun _ _ => Tensor.rel_alike_refl _
    exact ⟨operator, hread⟩
  obtain ⟨order', ho', steps_at⟩ := plan_eq_ok hsteps
  rw [ho] at ho'
  cases ho'
  obtain ⟨perm, inOrder⟩ := topologicalOrder_eq_ok ho
  have start : g.Reached V [] (given.inside outer) := by
    intro x hx hdone
    refine Tensor.rel_alike_symm (agree x hx fun hp => ?_)
    obtain ⟨j, hj, -⟩ := hdone hp
    cases hj
  obtain ⟨F, hF, reached⟩ := start.foldlM stable steps_at inOrder
  rw [List.nil_append] at reached
  refine ⟨F, ?_, fun x hx => reached x hx fun hp => ?_⟩
  · unfold valuesIn
    rw [hsteps, hgiven]
    exact hF
  · obtain ⟨n, hn, hout⟩ := mem_produced.1 hp
    obtain ⟨i, hi⟩ := List.getElem?_of_mem hn
    refine ⟨i, perm.mem_iff.2 (List.mem_range.2 ?_), n, hi, hout⟩
    exact (List.getElem?_eq_some_iff.1 hi).1

/-- A graph that has a solution can be run, and its values are those of the solution. -/
theorem Solves.valuesIn (h : g.Solves version chance inputs outer V)
    (hlocal : ∀ n ∈ g.nodes, n.Local version chance) {order : List Nat}
    (ho : g.topologicalOrder = .ok order) :
    ∃ F, g.valuesIn version chance inputs outer = .ok F ∧
      ∀ x, x ∈ g.definedNames ∨ x ∈ g.captures →
        Option.Rel Tensor.Alike (V.get? x) (F.get? x) := by
  obtain ⟨given, hgiven, agree⟩ := h.given
  exact exists_valuesIn ho hgiven agree fun n hn => (h.nodes n hn).stable (hlocal n hn)

theorem outputValues_eq_ok_iff {ts : List Tensor} :
    g.outputValues V = .ok ts ↔ List.Forall₂ (fun o t => V.get? o.name = some t) g.outputs ts := by
  refine mapM_eq_ok_iff.trans ⟨fun h => h.imp fun o t ho => ?_, fun h => h.imp fun o t ho => ?_⟩
  · split at ho
    · rename_i u hu
      cases ho
      exact hu
    · cases ho
  · rw [ho]

/-- Outputs that have alike values. -/
theorem outputValues_alike {g' : Graph} {W : Scope Tensor}
    (same : List.Forall₂ (fun o o' : ValueInfo =>
      Option.Rel Tensor.Alike (V.get? o.name) (W.get? o'.name)) g.outputs g'.outputs) :
    Matches AllAlike (g.outputValues V) (g'.outputValues W) := by
  refine .mapM same fun o o' rel => ?_
  generalize V.get? o.name = x at rel ⊢
  generalize W.get? o'.name = y at rel ⊢
  cases rel with
  | none => exact .error
  | some h => exact .ok h

/-- A graph that has a solution can be run, and gives the outputs of the solution. -/
theorem Solves.runIn (h : g.Solves version chance inputs outer V)
    (hlocal : ∀ n ∈ g.nodes, n.Local version chance) {order : List Nat}
    (ho : g.topologicalOrder = .ok order) {outs : List Tensor} (houts : g.outputValues V = .ok outs) :
    ∃ outs', g.runIn version chance inputs outer = .ok outs' ∧ AllAlike outs outs' := by
  obtain ⟨F, hF, values⟩ := h.valuesIn hlocal ho
  have same : Matches AllAlike (g.outputValues V) (g.outputValues F) := by
    refine outputValues_alike (List.forall₂_same.2 fun o ho => values o.name ?_)
    by_cases hd : o.name ∈ g.definedNames
    · exact Or.inl hd
    · exact Or.inr (mem_captures.2 ⟨Or.inr (List.mem_map_of_mem ho), hd⟩)
  obtain ⟨outs', houts', alike⟩ := same outs houts
  refine ⟨outs', ?_, alike⟩
  rw [runIn_eq, hF]
  exact houts'

end Graph

/-! ## Runs in a known order -/

namespace Node

variable {version : Option Int64} {chance : Generator} {n : Node}

/-- The scope after a node was run, if it can be run. -/
def next? (version : Option Int64) (chance : Generator) (n : Node) (scope : Scope Tensor) :
    Option (Scope Tensor) := do
  let operator ← (Operator.ofNode version n).toOption
  let arguments ← (n.arguments scope).toOption
  let outputs ← (operator.runNode version chance n scope arguments).toOption
  (n.bindOutputs outputs scope).toOption

theorem next?_eq_some_iff {scope after : Scope Tensor} :
    n.next? version chance scope = some after ↔
      ∃ ts, n.Yields version chance scope ts ∧ n.bindOutputs ts scope = .ok after := by
  have some_iff : ∀ {ε α : Type} {r : Except ε α} {a : α}, r.toOption = some a ↔ r = .ok a := by
    intro ε α r a
    cases r <;> simp [Except.toOption]
  unfold next? Yields
  simp only [Option.bind_eq_bind, Option.bind_eq_some_iff, some_iff]
  constructor
  · rintro ⟨operator, hread, arguments, hargs, outputs, hout, h⟩
    exact ⟨outputs, ⟨operator, arguments, hread, hargs, hout⟩, h⟩
  · rintro ⟨outputs, ⟨operator, arguments, hread, hargs, hout⟩, h⟩
    exact ⟨operator, hread, arguments, hargs, outputs, hout, h⟩

/-- A conditional node with one output adds the output of the graph that is selected. -/
theorem next?_branch {onTrue onFalse : Graph} {x y : String} {scope : Scope Tensor} {t u : Tensor}
    {c : Bool} (read : Operator.ofNode version n = .ok (.branch onTrue onFalse))
    (inputs : n.inputs = [x]) (outputs : n.outputs = [y]) (hx : x ≠ "") (hy : y ≠ "")
    (ht : scope.get? x = some t) (hc : conditionOf t = .ok c)
    (run : (if c then onTrue else onFalse).runIn version chance [] scope = .ok [u]) :
    n.next? version chance scope = some (scope.bind y u) := by
  have branch : runBranch n (fun _ => onTrue.runIn version chance [] scope)
      (fun _ => onFalse.runIn version chance [] scope) [some t] = .ok [u] := by
    refine runBranch_eq_ok_iff.2 ⟨t, c, rfl, hc, ?_⟩
    cases c <;> exact run
  refine next?_eq_some_iff.2 ⟨[u], ⟨_, [some t], read, ?_, ?_⟩, ?_⟩
  · rw [arguments_eq_ok_iff]
    simp [presentInputs, inputs, hx, ht]
  · unfold Operator.runNode
    dsimp only
    rw [branch]
    rfl
  · unfold bindOutputs
    simp [outputs, hy]

end Node

namespace Graph

variable {version : Option Int64} {chance : Generator} {g : Graph}

/-- Nodes that can be run one after the other have operators. -/
theorem exists_operator_of_next? {ns : List Node} {scope F : Scope Tensor}
    (h : ns.foldlM (fun scope n => n.next? version chance scope) scope = some F) {n : Node}
    (hn : n ∈ ns) : ∃ operator, Operator.ofNode version n = .ok operator := by
  induction ns generalizing scope with
  | nil => cases hn
  | cons m rest ih =>
      rw [List.foldlM_cons] at h
      obtain ⟨next, hnext, h⟩ := Option.bind_eq_some_iff.1 h
      rcases List.mem_cons.1 hn with rfl | hn
      · obtain ⟨ts, ⟨operator, -, hread, -⟩, -⟩ := Node.next?_eq_some_iff.1 hnext
        exact ⟨operator, hread⟩
      · exact ih h hn

/-- The steps of a plan do what their nodes do. -/
theorem StepsAt.foldlM_run {order : List Nat} {steps : List (Step version g)}
    (steps_at : StepsAt g order steps) {scope F : Scope Tensor}
    (h : (order.filterMap fun i => g.nodes[i]?).foldlM
      (fun scope n => n.next? version chance scope) scope = some F) :
    steps.foldlM (fun scope s => s.run chance scope) scope = .ok F := by
  induction steps_at generalizing scope with
  | nil =>
      cases h
      rfl
  | cons hi _ ih =>
      rw [List.filterMap_cons_some hi, List.foldlM_cons] at h
      obtain ⟨next, hnext, h⟩ := Option.bind_eq_some_iff.1 h
      obtain ⟨ts, yields, hbind⟩ := Node.next?_eq_some_iff.1 hnext
      rw [List.foldlM_cons, Step.run_of_yields yields hbind]
      exact ih h

/-- The nodes of a plan do what its steps do. -/
theorem StepsAt.foldlM_next? {order : List Nat} {steps : List (Step version g)}
    (steps_at : StepsAt g order steps) {scope F : Scope Tensor}
    (h : steps.foldlM (fun scope s => s.run chance scope) scope = .ok F) :
    (order.filterMap fun i => g.nodes[i]?).foldlM
      (fun scope n => n.next? version chance scope) scope = some F := by
  induction steps_at generalizing scope with
  | nil =>
      cases h
      rfl
  | @cons i s rest ss hi _ ih =>
      rw [List.foldlM_cons] at h
      rw [List.filterMap_cons_some hi, List.foldlM_cons]
      cases hs : s.run chance scope with
      | error e =>
          rw [hs] at h
          cases h
      | ok next =>
          rw [hs] at h
          rw [Node.next?_eq_some_iff.2 (Step.run_eq_ok hs)]
          exact ih h

/-- The values of a run in a known order. -/
theorem valuesIn_of_next? {inputs outer given F : Scope Tensor} (order : List Nat)
    (ho : g.topologicalOrder = .ok order) (hgiven : g.givenValues inputs = .ok given)
    (h : (order.filterMap fun i => g.nodes[i]?).foldlM (fun scope n => n.next? version chance scope)
      (given.inside outer) = some F) : g.valuesIn version chance inputs outer = .ok F := by
  obtain ⟨perm, -⟩ := topologicalOrder_eq_ok ho
  obtain ⟨steps, hsteps⟩ : ∃ steps, g.plan version = .ok steps := exists_plan ho fun n hn => by
    obtain ⟨i, hi⟩ := List.getElem?_of_mem hn
    refine exists_operator_of_next? h (List.mem_filterMap.2 ⟨i, perm.mem_iff.2 ?_, hi⟩)
    exact List.mem_range.2 (List.getElem?_eq_some_iff.1 hi).1
  obtain ⟨order', ho', steps_at⟩ := plan_eq_ok hsteps
  rw [ho] at ho'
  cases ho'
  unfold valuesIn
  rw [hsteps, hgiven]
  exact steps_at.foldlM_run h

/-- A run computes the nodes one after the other, in topological order. -/
theorem exists_next?_of_valuesIn {inputs outer F : Scope Tensor}
    (h : g.valuesIn version chance inputs outer = .ok F) :
    ∃ order given, g.topologicalOrder = .ok order ∧ g.givenValues inputs = .ok given ∧
      (order.filterMap fun i => g.nodes[i]?).foldlM
        (fun scope n => n.next? version chance scope) (given.inside outer) = some F := by
  unfold valuesIn at h
  cases hp : g.plan version with
  | error e =>
      rw [hp] at h
      cases h
  | ok steps =>
      rw [hp] at h
      cases hg : g.givenValues inputs with
      | error e =>
          rw [hg] at h
          cases h
      | ok given =>
          rw [hg] at h
          obtain ⟨order, ho, steps_at⟩ := plan_eq_ok hp
          exact ⟨order, given, ho, rfl, steps_at.foldlM_next? h⟩

/-- The values of a run of sorted nodes: they run one after the other. -/
theorem valuesIn_eq_ok_iff_of_sorted (sorted : Node.Sorted g.nodes)
    {inputs outer F : Scope Tensor} :
    g.valuesIn version chance inputs outer = .ok F ↔
      ∃ given, g.givenValues inputs = .ok given ∧
        g.nodes.foldlM (fun scope n => n.next? version chance scope) (given.inside outer) =
          some F := by
  have ho := topologicalOrder_of_sorted sorted
  constructor
  · intro h
    obtain ⟨order, given, ho', hgiven, hfold⟩ := exists_next?_of_valuesIn h
    rw [ho] at ho'
    cases ho'
    rw [filterMap_range_getElem?] at hfold
    exact ⟨given, hgiven, hfold⟩
  · rintro ⟨given, hgiven, h⟩
    rw [← filterMap_range_getElem? g.nodes] at h
    exact valuesIn_of_next? _ ho hgiven h

/-- The outputs of a run in a known order. -/
theorem runIn_of_next? {inputs outer given F : Scope Tensor} {outs : List Tensor} (order : List Nat)
    (ho : g.topologicalOrder = .ok order) (hgiven : g.givenValues inputs = .ok given)
    (h : (order.filterMap fun i => g.nodes[i]?).foldlM (fun scope n => n.next? version chance scope)
      (given.inside outer) = some F) (houts : g.outputValues F = .ok outs) :
    g.runIn version chance inputs outer = .ok outs := by
  rw [runIn_eq, valuesIn_of_next? order ho hgiven h]
  exact houts

end Graph
end TensorGraph
