import TensorGraph.Proofs.Evaluation.Determined

/-!
# Runs of graphs in another order

Input:

* a graph in which no value is produced twice and no node waits for itself, and its nodes in another
  order.

Algorithm:

* a run puts the nodes in topological order and computes them one after the other.  Later nodes
  change neither what a node has read nor what it has made, so in the end each node has made its
  outputs of the final values (`Node.made_of_foldlM_next?`);
* these values guide a run in any other order: a node finds what it reads as it is in the end, so it
  makes the same again (`Node.foldlM_next?_of_made`).

Main results:

* `Graph.runIn_perm`: a graph whose nodes are permuted can be run with the same outputs;
* `Graph.run_perm_iff`: it succeeds exactly when the graph itself does, sorted or not, whatever is
  drawn by chance.
-/

namespace TensorGraph

variable {version : Option Int64} {chance chance' : Generator}

namespace Node

variable {V W : Scope Tensor}

/-- Whether the outputs of a node have the very tensors that it makes of the values in a scope. -/
structure Made (version : Option Int64) (chance : Generator) (n : Node) (V : Scope Tensor)
    (ts : List Tensor) : Prop where
  yields : n.Yields version chance V ts
  enough : ∀ x ∈ n.outputs.drop ts.length, x = ""
  values : ∀ p ∈ n.outputs.zip ts, p.1 ≠ "" → V.get? p.1 = some p.2

/-- A node has still made its outputs when neither they nor what it reads have changed. -/
theorem Made.congr {n : Node} {ts : List Tensor} (h : n.Made version chance V ts)
    (reads : ∀ x ∈ n.reads, V.get? x = W.get? x)
    (outputs : ∀ x ∈ n.presentOutputs, V.get? x = W.get? x) : n.Made version chance W ts := by
  refine ⟨h.yields.congr reads, h.enough, fun p hp hne => ?_⟩
  rw [← outputs p.1 (mem_presentOutputs.2 ⟨(List.of_mem_zip (show (p.1, p.2) ∈ _ from hp)).1, hne⟩)]
  exact h.values p hp hne

/-- A node that has run has made its outputs, when it does not read them itself. -/
theorem made_of_next? {n : Node} (nodup : n.presentOutputs.Nodup)
    (fresh : ∀ x ∈ n.reads, x ∉ n.presentOutputs) (h : n.next? version chance V = some W) :
    (∃ ts, n.Made version chance W ts) ∧ ∀ x, x ∉ n.presentOutputs → W.get? x = V.get? x := by
  obtain ⟨ts, yields, hbind⟩ := next?_eq_some_iff.1 h
  obtain ⟨enough, rfl⟩ := bindOutputs_eq_ok hbind
  have keep : ∀ x, x ∉ n.presentOutputs →
      (bindAll (n.outputs.zip ts) V).get? x = V.get? x := fun _ hx => get?_bindAll_of_not_mem hx
  refine ⟨⟨ts, yields.congr fun x hx => (keep x (fresh x hx)).symm, enough, fun p hp hne => ?_⟩,
    keep⟩
  exact get?_bindAll_of_mem nodup hp hne

/-- After sorted nodes have run, each of them has made its outputs.  All other values stay. -/
theorem made_of_foldlM_next? {ns : List Node} (sorted : Sorted ns) (distinct : Distinct ns)
    (h : ns.foldlM (fun scope n => n.next? version chance scope) V = some W) :
    (∀ n ∈ ns, ∃ ts, n.Made version chance W ts) ∧
      ∀ x, x ∉ ns.flatMap presentOutputs → W.get? x = V.get? x := by
  induction ns generalizing V with
  | nil =>
      cases h
      exact ⟨fun n hn => (by cases hn), fun _ _ => rfl⟩
  | cons n rest ih =>
      obtain ⟨nodup, distinct, apart⟩ := distinct_cons.1 distinct
      obtain ⟨unread, sorted⟩ := sorted
      rw [List.foldlM_cons] at h
      obtain ⟨next, hnext, hrest⟩ := Option.bind_eq_some_iff.1 h
      obtain ⟨⟨ts, made⟩, before⟩ :=
        made_of_next? nodup (fun x hx => unread x hx n List.mem_cons_self) hnext
      obtain ⟨later, after⟩ := ih sorted distinct hrest
      refine ⟨fun m hm => ?_, fun x hx => ?_⟩
      · rcases List.mem_cons.1 hm with rfl | hm
        · refine ⟨ts, made.congr (fun x hx => (after x fun hout => ?_).symm)
            fun x hx => (after x (apart x hx)).symm⟩
          obtain ⟨k, hk, hxk⟩ := List.mem_flatMap.1 hout
          exact unread x hx k (List.mem_cons_of_mem _ hk) hxk
        · exact later m hm
      · rw [List.flatMap_cons, List.mem_append, not_or] at hx
        rw [after x hx.2, before x hx.1]

/-- Sorted nodes can be run when values are known that they make of each other.  The run gives these
values. -/
theorem foldlM_next?_of_made {ns : List Node} (sorted : Sorted ns)
    (made : ∀ n ∈ ns, ∃ ts, n.Made version chance W ts)
    (start : ∀ x, x ∉ ns.flatMap presentOutputs → V.get? x = W.get? x) :
    ∃ F, ns.foldlM (fun scope n => n.next? version chance scope) V = some F ∧
      ∀ x, F.get? x = W.get? x := by
  induction ns generalizing V with
  | nil => exact ⟨V, rfl, fun x => start x List.not_mem_nil⟩
  | cons n rest ih =>
      obtain ⟨unread, sorted⟩ := sorted
      obtain ⟨ts, made_n⟩ := made n List.mem_cons_self
      have reads : ∀ x ∈ n.reads, W.get? x = V.get? x := by
        intro x hx
        refine (start x fun hout => ?_).symm
        obtain ⟨m, hm, hxm⟩ := List.mem_flatMap.1 hout
        exact unread x hx m hm hxm
      have hnext : n.next? version chance V = some (bindAll (n.outputs.zip ts) V) :=
        next?_eq_some_iff.2 ⟨ts, made_n.yields.congr reads, bindOutputs_of_enough made_n.enough⟩
      have start' : ∀ x, x ∉ rest.flatMap presentOutputs →
          (bindAll (n.outputs.zip ts) V).get? x = W.get? x := by
        intro x hx
        rcases get?_bindAll (n.outputs.zip ts) V x with ⟨p, hp, rfl, hne, hget⟩ | ⟨none, hget⟩
        · rw [hget, made_n.values p hp hne]
        · rw [hget]
          refine start x fun hout => ?_
          rw [List.flatMap_cons, List.mem_append] at hout
          obtain ⟨t, ht⟩ := exists_value_of_enough made_n.enough (hout.resolve_right hx)
          exact (mem_presentOutputs.1 (hout.resolve_right hx)).2 (none _ ht rfl)
      obtain ⟨F, hF, values⟩ := ih sorted (fun m hm => made m (List.mem_cons_of_mem _ hm)) start'
      refine ⟨F, ?_, values⟩
      rw [List.foldlM_cons, hnext]
      exact hF

end Node

namespace Graph

variable {g : Graph} {ns : List Node}

/-- When the nodes of a graph that can be run are put in another order, it can be run, too, and gives
the same outputs. -/
theorem runIn_perm (distinct : Node.Distinct g.nodes) (perm : ns.Perm g.nodes)
    {inputs outer : Scope Tensor} {outs : List Tensor}
    (h : g.runIn version chance inputs outer = .ok outs) :
    runIn version chance { g with nodes := ns } inputs outer = .ok outs := by
  have distinct' : Node.Distinct ns := (perm.flatMap_right _).nodup_iff.2 distinct
  obtain ⟨V, hV, houts⟩ := runIn_eq_ok h
  obtain ⟨order, given, ho, hgiven, hfold⟩ := exists_next?_of_valuesIn hV
  obtain ⟨hperm, inOrder⟩ := topologicalOrder_eq_ok ho
  have run := perm_filterMap_getElem? hperm
  obtain ⟨made, others⟩ := Node.made_of_foldlM_next? (sorted_of_inOrder distinct inOrder)
    ((run.flatMap_right _).nodup_iff.2 distinct) hfold
  -- the permuted nodes wait for each other as before, so they have an order of their own
  obtain ⟨order', ho'⟩ : ∃ order', topologicalOrder { g with nodes := ns } = .ok order' :=
    topologicalOrder_of_acyclic (((topologicalOrder_isOk_iff distinct).1 ⟨order, ho⟩).subset
      fun n hn => perm.mem_iff.1 hn)
  obtain ⟨hperm', inOrder'⟩ := topologicalOrder_eq_ok ho'
  have run' := perm_filterMap_getElem? hperm'
  have same := run'.trans (perm.trans run.symm)
  obtain ⟨F, hF, values⟩ := Node.foldlM_next?_of_made (V := given.inside outer) (W := V)
    (sorted_of_inOrder (g := { g with nodes := ns }) distinct' inOrder')
    (fun n hn => made n (same.mem_iff.1 hn))
    (fun x hx => (others x fun hout => hx ((same.flatMap_right _).mem_iff.2 hout)).symm)
  refine runIn_of_next? order' ho' hgiven hF ?_
  rw [← houts]
  exact outputValues_congr fun o _ => values o.name

/-- Permuted nodes can be run with the same outputs exactly when the nodes themselves can. -/
theorem runIn_perm_iff (distinct : Node.Distinct g.nodes) (perm : ns.Perm g.nodes)
    {inputs outer : Scope Tensor} {outs : List Tensor} :
    runIn version chance { g with nodes := ns } inputs outer = .ok outs ↔
      g.runIn version chance inputs outer = .ok outs := by
  refine ⟨fun h => ?_, runIn_perm distinct perm⟩
  have back := runIn_perm (g := { g with nodes := ns }) ((perm.flatMap_right _).nodup_iff.2 distinct)
    perm.symm h
  cases g
  exact back

/-- The order in which a valid graph lists its nodes does not matter: when the graph can be ordered
and its operators are deterministic, it succeeds with its nodes in any order exactly when it
succeeds as it is, and then with the same outputs, whatever is drawn by chance.  Sorting puts the
nodes in such an order. -/
theorem run_perm_iff (valid : g.validate [] = .ok ())
    (acyclic : ∃ order, g.topologicalOrder = .ok order)
    (deterministic : g.Deterministic version) :
    (∀ ns, ns.Perm g.nodes → ∀ chance chance' inputs outs,
      run version chance { g with nodes := ns } inputs = .ok outs ↔
        g.run version chance' inputs = .ok outs) ∧
    ∃ sorted, g.sortTopologically = .ok sorted ∧ sorted.nodes.Perm g.nodes ∧
      ∀ chance chance' inputs outs,
        sorted.run version chance inputs = .ok outs ↔ g.run version chance' inputs = .ok outs := by
  have distinct := (Unique.of_nodup (validate_eq_ok_iff.1 valid).1).distinct
  have permuted : ∀ ns, ns.Perm g.nodes → ∀ chance chance' inputs outs,
      run version chance { g with nodes := ns } inputs = .ok outs ↔
        g.run version chance' inputs = .ok outs := by
    intro ns perm chance chance' inputs outs
    unfold run
    rw [runIn_perm_iff distinct perm,
      runIn_eq_of_sameDraws (deterministic.sameDraws chance chance')]
  refine ⟨permuted, ?_⟩
  obtain ⟨sorted, hsorted⟩ :=
    sortTopologically_of_acyclic ((topologicalOrder_isOk_iff distinct).1 acyclic)
  obtain ⟨ns, rfl, perm, -⟩ := sortTopologically_eq_ok distinct hsorted
  exact ⟨_, hsorted, perm, permuted ns perm⟩

/-- A graph whose first node waits for the second one, whose value only its nested graph reads. -/
def doublesSquare : Graph where
  inputs := [{ name := "x" }, { name := "c" }]
  nodes := [{ opType := "If", inputs := ["c"], outputs := ["y"], attributes := [
      { name := "then_branch", value := .graph {
          nodes := [{ opType := "Add", inputs := ["s", "s"], outputs := ["t"] }]
          outputs := [{ name := "t" }] } },
      { name := "else_branch", value := .graph { outputs := [{ name := "x" }] } }] },
    { opType := "Mul", inputs := ["x", "x"], outputs := ["s"] }]
  outputs := [{ name := "y" }]

/-- The nodes are not in order, and give the same in order. -/
theorem run_doublesSquare_perm :
    doublesSquare.validate [] = .ok () ∧ doublesSquare.topologicalOrder = .ok [1, 0] ∧
      doublesSquare.Deterministic none ∧
      doublesSquare.run none ⟨0⟩ [("x", .scalar (3 : Int64)), ("c", .scalar true)] =
        .ok [.scalar (18 : Int64)] ∧
      run none ⟨1⟩ { doublesSquare with nodes := doublesSquare.nodes.reverse }
        [("x", .scalar (3 : Int64)), ("c", .scalar true)] = .ok [.scalar (18 : Int64)] := by
  have valid : doublesSquare.validate [] = .ok () := by cbv
  have order : doublesSquare.topologicalOrder = .ok [1, 0] := by decide +kernel
  have deterministic : doublesSquare.Deterministic none :=
    deterministic_of_predictable (by decide +kernel)
  have run : doublesSquare.run none ⟨0⟩ [("x", .scalar (3 : Int64)), ("c", .scalar true)] =
      .ok [.scalar (18 : Int64)] := by
    let scope : Scope Tensor := [("s", .scalar (9 : Int64)), ("c", .scalar true),
      ("x", .scalar (3 : Int64))]
    have sum : runIn none ⟨0⟩
        { nodes := [{ opType := "Add", inputs := ["s", "s"], outputs := ["t"] }]
          outputs := [{ name := "t" }] } [] scope = .ok [.scalar (18 : Int64)] :=
      runIn_of_next? [0] (by decide +kernel) rfl rfl rfl
    have node : (doublesSquare.nodes.head (by decide)).next? none ⟨0⟩ scope =
        some (scope.bind "y" (.scalar (18 : Int64))) :=
      Node.next?_branch rfl rfl rfl (by decide) (by decide) (rfl : scope.get? "c" = _)
        (by cbv : conditionOf (.scalar true) = .ok true) sum
    exact runIn_of_next? [1, 0] order rfl
      (Option.bind_eq_some_iff.2 ⟨_, node, rfl⟩) rfl
  exact ⟨valid, order, deterministic, run,
    ((run_perm_iff valid ⟨_, order⟩ deterministic).1 _ (List.reverse_perm _) ⟨1⟩ ⟨0⟩ _ _).2 run⟩

end Graph
end TensorGraph
