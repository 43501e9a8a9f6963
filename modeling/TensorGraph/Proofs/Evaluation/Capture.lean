import TensorGraph.Proofs.Evaluation.Values
import TensorGraph.Proofs.Operator.Kernel

/-!
# What a run depends on

Input:

* a graph, and two scopes that give the same tensors to the names that it captures.

Algorithm:

* while the nodes run one after the other, a value is available when it is given or comes from
  outside, or when a node that produces it has run (`Graph.Available`).  Nodes read available values
  only, so both scopes give them the same arguments.

Main results:

* `Graph.dependsOnCaptures`: a run in the one scope and in the other has the same result, or the
  same error;
* `Node.Yields.congr`: what a node makes depends on the values that it reads only.
-/

namespace TensorGraph

/-! ## Computations that end in the same way -/

/-- Whether two computations end in the same way: with related results, or with the same error. -/
inductive Agrees {ε α β : Type} (R : α → β → Prop) : Except ε α → Except ε β → Prop
  | ok {x : α} {y : β} (related : R x y) : Agrees R (.ok x) (.ok y)
  | error (e : ε) : Agrees R (.error e) (.error e)

namespace Agrees

variable {ε α β γ δ : Type} {R : α → β → Prop} {S : γ → δ → Prop}

theorem bind {r : Except ε α} {r' : Except ε β} {f : α → Except ε γ} {f' : β → Except ε δ}
    (h : Agrees R r r') (next : ∀ x y, R x y → Agrees S (f x) (f' y)) :
    Agrees S (r >>= f) (r' >>= f') := by
  cases h with
  | ok related => exact next _ _ related
  | error e => exact .error e

/-- A computation ends in the same way as itself. -/
theorem refl {R : α → α → Prop} (hR : ∀ x, R x x) (r : Except ε α) : Agrees R r r := by
  cases r with
  | ok x => exact .ok (hR x)
  | error e => exact .error e

/-- The same computation first. -/
theorem bind_same {r : Except ε α} {f : α → Except ε γ} {f' : α → Except ε δ}
    (next : ∀ x, Agrees S (f x) (f' x)) : Agrees S (r >>= f) (r >>= f') :=
  (refl (fun _ => rfl) r).bind fun x y (same : x = y) => same ▸ next x

theorem eq {r r' : Except ε α} (h : Agrees Eq r r') : r = r' := by
  cases h with
  | ok related => rw [related]
  | error e => rfl

end Agrees

/-- Computing with each element of a list depends on what is computed with the elements only. -/
theorem mapM_congr {ε α β : Type} {f f' : α → Except ε β} {l : List α} (h : ∀ a ∈ l, f a = f' a) :
    l.mapM f = l.mapM f' := by
  induction l with
  | nil => rfl
  | cons a rest ih =>
      rw [List.mapM_cons, List.mapM_cons, h a List.mem_cons_self,
        ih fun b hb => h b (List.mem_cons_of_mem _ hb)]

/-! ## Available values -/

namespace Graph

variable {g : Graph}

/-- Whether a value of a graph is available when the nodes with some indexes have run. -/
def Available (g : Graph) (done : List Nat) (x : String) : Prop :=
  (x ∈ g.definedNames ∨ x ∈ g.captures) ∧
    (x ∈ g.produced → ∃ j ∈ done, ∃ n, g.nodes[j]? = some n ∧ x ∈ n.presentOutputs)

/-- What a node reads is available when those that it waits for have run. -/
theorem available_of_mem_reads {done : List Nat} {i : Nat} {n : Node} (hi : g.nodes[i]? = some n)
    (deps : ∀ j ∈ g.dependencies.getD i [], j ∈ done) {x : String} (hx : x ∈ n.reads) :
    g.Available done x := by
  refine ⟨reads_subset (List.mem_of_getElem? hi) hx, fun hp => ?_⟩
  obtain ⟨j, hj⟩ := exists_lastProducer? hp
  obtain ⟨m, hm, hout⟩ := lastProducer?_some hj
  exact ⟨j, deps j (mem_dependencies.2 ⟨n, hi, x, hx, hj⟩), m, hm, hout⟩

/-- A node makes nothing available but its outputs. -/
theorem Available.of_append {done : List Nat} {i : Nat} {n : Node} (hi : g.nodes[i]? = some n)
    {x : String} (h : g.Available (done ++ [i]) x) :
    x ∈ n.presentOutputs ∨ g.Available done x := by
  by_cases hx : x ∈ n.presentOutputs
  · exact Or.inl hx
  · refine Or.inr ⟨h.1, fun hp => ?_⟩
    obtain ⟨j, hj, m, hm, hout⟩ := h.2 hp
    rcases List.mem_append.1 hj with hj | hj
    · exact ⟨j, hj, m, hm, hout⟩
    · cases List.mem_singleton.1 hj
      cases hi.symm.trans hm
      exact absurd hout hx

/-- Before any node has run, the values of a graph that are available are given. -/
theorem Available.given {x : String} (h : g.Available [] x) (hd : x ∈ g.definedNames) :
    x ∈ g.inputNames ∨ x ∈ g.initializerNames := by
  rcases mem_definedNames.1 hd with hi | hi | hp
  · exact Or.inl hi
  · exact Or.inr hi
  · obtain ⟨j, hj, -⟩ := h.2 hp
    cases hj

/-- In the end all values are available. -/
theorem available_of_perm {order : List Nat} (perm : order.Perm (List.range g.nodes.length))
    {x : String} (hx : x ∈ g.definedNames ∨ x ∈ g.captures) : g.Available order x := by
  refine ⟨hx, fun hp => ?_⟩
  obtain ⟨n, hn, hout⟩ := mem_produced.1 hp
  obtain ⟨i, hi⟩ := List.getElem?_of_mem hn
  refine ⟨i, perm.mem_iff.2 (List.mem_range.2 ?_), n, hi, hout⟩
  exact (List.getElem?_eq_some_iff.1 hi).1

/-- The outputs of a graph are values of the graph, or come from outside. -/
theorem outputs_subset {o : ValueInfo} (ho : o ∈ g.outputs) :
    o.name ∈ g.definedNames ∨ o.name ∈ g.captures := by
  by_cases hd : o.name ∈ g.definedNames
  · exact Or.inl hd
  · exact Or.inr (mem_captures.2 ⟨Or.inr (List.mem_map_of_mem ho), hd⟩)

end Graph

/-! ## Single nodes -/

variable {version : Option Int64} {chance : Generator} {V W : Scope Tensor}

theorem Node.arguments_congr {n : Node} (same : ∀ x ∈ n.reads, V.get? x = W.get? x) :
    n.arguments V = n.arguments W := by
  refine mapM_congr fun x hx => ?_
  by_cases hne : x = ""
  · rw [if_pos hne, if_pos hne]
  · rw [if_neg hne, if_neg hne,
      same x (Node.mem_reads.2 (Or.inl (Node.mem_presentInputs.2 ⟨hx, hne⟩)))]

/-- Whether runs of a graph end in the same way in all scopes that give the same tensors to the
names that it captures. -/
def Graph.DependsOnCaptures (version : Option Int64) (chance : Generator) (g : Graph) : Prop :=
  ∀ inputs V W, (∀ x ∈ g.captures, Scope.get? V x = Scope.get? W x) →
    g.runIn version chance inputs V = g.runIn version chance inputs W

/-- An operator depends on the values that its node reads only. -/
theorem Operator.runNode_congr {n : Node} {operator : Operator}
    (read : Operator.ofNode version n = .ok operator)
    (inside : ∀ p ∈ n.subgraphs, p.2.DependsOnCaptures version chance)
    (same : ∀ x ∈ n.reads, V.get? x = W.get? x) (inputs : Inputs) :
    operator.runNode version chance n V inputs = operator.runNode version chance n W inputs := by
  have nested : ∀ {name : String} {b : Graph}, n.graph? name = some b → ∀ inputs,
      b.runIn version chance inputs V = b.runIn version chance inputs W := by
    intro name b hb inputs
    have hp := Node.mem_subgraphs_of_graph? hb
    exact inside _ hp inputs V W fun x hx => same x (Node.mem_reads.2 (Or.inr ⟨_, hp, hx⟩))
  unfold Operator.runNode
  cases operator with
  | kernel k => rfl
  | branch onTrue onFalse =>
      obtain ⟨htrue, hfalse⟩ := Operator.ofNode_branch read
      dsimp only
      rw [nested htrue, nested hfalse]
  | loop body =>
      dsimp only
      rw [funext (nested (Operator.ofNode_loop read))]

namespace Node

/-- Names that have the same tensor before have it after outputs are added. -/
theorem get?_bindAll_congr {x : String} (ps : List (String × Tensor))
    (same : V.get? x = W.get? x) : (bindAll ps V).get? x = (bindAll ps W).get? x := by
  induction ps generalizing V W with
  | nil => exact same
  | cons p rest ih =>
      rw [bindAll_cons, bindAll_cons]
      refine ih ?_
      split
      · exact same
      · rw [Scope.get?_bind, Scope.get?_bind, same]

/-- The outputs that are added have the same tensors whatever they had before. -/
theorem get?_bindAll_of_mem_fst {x : String} {ps : List (String × Tensor)}
    (hx : x ∈ ps.map Prod.fst) (hne : x ≠ "") :
    (bindAll ps V).get? x = (bindAll ps W).get? x := by
  induction ps generalizing V W with
  | nil => cases hx
  | cons p rest ih =>
      rw [bindAll_cons, bindAll_cons]
      by_cases hlater : x ∈ rest.map Prod.fst
      · exact ih hlater
      · obtain rfl : x = p.1 := (List.mem_cons.1 hx).resolve_right hlater
        refine get?_bindAll_congr rest ?_
        rw [if_neg hne, if_neg hne, Scope.get?_bind, Scope.get?_bind, if_pos rfl, if_pos rfl]

end Node

namespace Graph

variable {g : Graph}

/-- A step ends in the same way in scopes that give the same to all available values. -/
theorem run_agrees {done : List Nat} {i : Nat} {s : Step version g}
    (inside : ∀ p ∈ s.node.subgraphs, p.2.DependsOnCaptures version chance)
    (hi : g.nodes[i]? = some s.node) (deps : ∀ j ∈ g.dependencies.getD i [], j ∈ done)
    (same : ∀ x, g.Available done x → V.get? x = W.get? x) :
    Agrees (fun V' W' => ∀ x, g.Available (done ++ [i]) x → V'.get? x = W'.get? x)
      (s.run chance V) (s.run chance W) := by
  have reads : ∀ x ∈ s.node.reads, V.get? x = W.get? x := fun x hx =>
    same x (available_of_mem_reads hi deps hx)
  unfold Step.run
  rw [Node.arguments_congr reads]
  simp only [Operator.runNode_congr s.read inside reads]
  refine .bind_same fun arguments => .bind_same fun ts => ?_
  unfold Node.bindOutputs
  split
  · rename_i all
    have enough : ∀ x ∈ s.node.outputs.drop ts.length, x = "" := fun x hx =>
      of_decide_eq_true (List.all_eq_true.1 all x hx)
    refine .ok fun x hx => ?_
    rcases hx.of_append hi with hout | hx
    · obtain ⟨t, ht⟩ := Node.exists_value_of_enough enough hout
      exact Node.get?_bindAll_of_mem_fst (List.mem_map_of_mem (f := Prod.fst) ht)
        (Node.mem_presentOutputs.1 hout).2
    · exact Node.get?_bindAll_congr _ (same x hx)
  · exact .error _

/-- All steps do. -/
theorem foldlM_run_agrees
    (inside : ∀ n ∈ g.nodes, ∀ p ∈ n.subgraphs, p.2.DependsOnCaptures version chance)
    {done order : List Nat} {steps : List (Step version g)} (steps_at : StepsAt g order steps)
    (inOrder : InOrder g.dependencies done order)
    (same : ∀ x, g.Available done x → V.get? x = W.get? x) :
    Agrees (fun V' W' => ∀ x, g.Available (done ++ order) x → V'.get? x = W'.get? x)
      (steps.foldlM (fun scope s => s.run chance scope) V)
      (steps.foldlM (fun scope s => s.run chance scope) W) := by
  induction steps_at generalizing done V W with
  | nil =>
      rw [List.append_nil]
      exact .ok same
  | @cons i s rest ss hi _ ih =>
      obtain ⟨-, deps, later⟩ := inOrder
      rw [List.foldlM_cons, List.foldlM_cons]
      refine (run_agrees (inside _ (List.mem_of_getElem? hi)) hi deps same).bind
        fun V' W' same' => ?_
      have := ih later same'
      rwa [List.append_assoc] at this

/-- The outputs of a graph are the same in scopes that give the same to its values. -/
theorem outputValues_congr (same : ∀ o ∈ g.outputs, V.get? o.name = W.get? o.name) :
    g.outputValues V = g.outputValues W :=
  mapM_congr fun o ho => by rw [same o ho]

end Graph

/-! ## Whole runs -/

/-- A run sees nothing of its surroundings but the names that the graph captures: neither its result
nor its error depends on anything else. -/
theorem Graph.dependsOnCaptures (version : Option Int64) (chance : Generator) (g : Graph) :
    g.DependsOnCaptures version chance := by
  induction g using nested_induction with
  | step g inside =>
      intro inputs V W same
      rw [runIn_eq, runIn_eq]
      unfold valuesIn
      simp only [bind_assoc]
      cases hplan : g.plan version with
      | error e => rfl
      | ok steps =>
          obtain ⟨order, ho, steps_at⟩ := plan_eq_ok hplan
          obtain ⟨perm, inOrder⟩ := topologicalOrder_eq_ok ho
          cases hgiven : g.givenValues inputs with
          | error e => rfl
          | ok given =>
              have start : ∀ x, g.Available [] x →
                  (given.inside V).get? x = (given.inside W).get? x := by
                intro x hx
                rw [Scope.get?_inside, Scope.get?_inside]
                rcases hx.1 with hd | hc
                · obtain ⟨t, ht⟩ := exists_get?_givenValues hgiven (hx.given hd)
                  rw [ht]
                  rfl
                · rw [same x hc]
              refine ((foldlM_run_agrees inside steps_at inOrder start).bind
                fun V' W' same' => ?_).eq
              rw [outputValues_congr fun o ho =>
                same' o.name (available_of_perm perm (outputs_subset ho))]
              exact .refl (fun _ => rfl) _

/-- What a node makes depends on the values that it reads only. -/
theorem Node.Yields.congr {n : Node} {ts : List Tensor} (h : n.Yields version chance V ts)
    (same : ∀ x ∈ n.reads, V.get? x = W.get? x) : n.Yields version chance W ts := by
  obtain ⟨operator, inputs, read, harguments, hrun⟩ := h
  refine ⟨operator, inputs, read, ?_, ?_⟩
  · rw [← Node.arguments_congr same]
    exact harguments
  · rw [← Operator.runNode_congr read (fun p _ => p.2.dependsOnCaptures version chance) same]
    exact hrun

end TensorGraph
