import Mathlib
import TensorGraph.Proofs.Evaluation.Capture
import TensorGraph.Proofs.Simplification.Prune

/-!
# Runs without what is not used

Input:

* a graph in topological order that can be run.

Algorithm:

* of sorted nodes, `Graph.eliminateDeadCode` keeps those that produce a live name
  (`Graph.nodes_eliminateDeadCode`);
* the runs before and after it go on in step: their scopes agree on the live names.  A node that was
  removed changes no live name (`Node.next?_dead`).  A node that was kept reads live names only, and
  gives the same tensors to its live outputs when it is asked for fewer outputs
  (`Node.next?_live`).

Main results:

* `Graph.runIn_eliminateDeadCode`: the outputs of a run stay the same;
* `Graph.eliminateDeadCode_keeps_outputs`: they do, and what is left is used.
-/

namespace TensorGraph

variable {version : Option Int64} {chance : Generator}

/-! ## Operators that are asked for fewer outputs -/

namespace Kernel

variable {asked fewer : Nat}

/-- The second of two outputs is given only when it is asked for. -/
theorem take_fewer (le : fewer ≤ asked) (t u : Tensor) :
    (if 1 < fewer then [t, u] else [t]).take fewer =
      (if 1 < asked then [t, u] else [t]).take fewer := by
  by_cases h : 1 < fewer
  · rw [if_pos h, if_pos (Nat.lt_of_lt_of_le h le)]
  · rw [if_neg h]
    split
    · obtain rfl | rfl : fewer = 0 ∨ fewer = 1 := by omega
      · rfl
      · rfl
    · rfl

/-- An operator with optional outputs can be asked for fewer of them.  It draws nothing by chance,
and the outputs that it is still asked for stay the same. -/
theorem run_fewer {k : Kernel} {required : Nat} (optional : k.requiredOutputs? = some required)
    (le : fewer ≤ asked) (chance chance' : Generator) (inputs : Inputs) :
    Matches (fun ts us => us.take fewer = ts.take fewer) (k.run chance inputs (some asked))
      (k.run chance' inputs (some fewer)) := by
  cases k with
  | dropout training =>
      refine .bind_same fun t => ?_
      have last : ∀ training : Bool, Matches (fun ts us => us.take fewer = ts.take fewer)
          (if training then .error (.unsupportedValue "training mode is not supported")
            else if 1 < asked then
              pure [t, .ofArray t.shape (Array.replicate t.size true)]
            else pure [t] : OpResult (List Tensor))
          (if training then .error (.unsupportedValue "training mode is not supported")
            else if 1 < fewer then
              pure [t, .ofArray t.shape (Array.replicate t.size true)]
            else pure [t] : OpResult (List Tensor)) := by
        intro training
        cases training with
        | true => exact .error
        | false =>
            simp only [Bool.false_eq_true, if_false, ← apply_ite pure]
            exact .pure (take_fewer le _ _)
      dsimp only [Option.getD_some]
      split
      · exact .bind_same last
      · exact .bind_same last
  | batchNormalization b =>
      -- more than one output is refused, so none can be left out
      have same : Matches Eq (b.run inputs (some asked)) (b.run inputs (some fewer)) := by
        refine .bind_same fun input => .bind_same fun scale => .bind_same fun bias =>
          .bind_same fun mean => .bind_same fun variance => ?_
        dsimp only [Option.getD_some]
        split
        · exact .error
        · rw [if_neg (by omega)]
          exact .of_eq rfl fun _ => rfl
      exact .bind same fun t u htu => .pure (htu ▸ rfl)
  | maxPool p =>
      refine .bind_same fun t => .bind_same fun planes => .pure (take_fewer le _ _)
  | _ => cases optional

end Kernel

namespace Operator

theorem requiredOutputs?_of_readSplit (n : Node) :
    Ensures (readSplit n) fun k => k.requiredOutputs? = none :=
  .bind_any fun _ => .bind_any fun _ => .bind_any fun _ => .pure rfl

/-- Only the operator that splits a tensor depends on the number of outputs of its node. -/
theorem readKernel?_outputs {n : Node} (h : n.opType ≠ "Split") (outputs : List String) :
    readKernel? version { n with outputs := outputs } = readKernel? version n := by
  unfold readKernel?
  dsimp only
  split <;> first | rfl | contradiction

/-- An operator with optional outputs is read the same when outputs are left out. -/
theorem ofNode_outputs {n : Node} {operator : Operator} {required : Nat}
    (read : ofNode version n = .ok operator)
    (optional : operator.requiredOutputs? = some required) (outputs : List String) :
    ofNode version { n with outputs := outputs } = .ok operator := by
  cases operator with
  | branch onTrue onFalse => cases optional
  | loop body => cases optional
  | kernel k =>
      have hkernel := (ofNode_kernel read).2.2
      have hsplit : n.opType ≠ "Split" := by
        intro hsplit
        unfold readKernel? at hkernel
        rw [hsplit] at hkernel
        have := requiredOutputs?_of_readSplit n k (Option.some.inj hkernel)
        exact absurd (optional.symm.trans this) (Option.some_ne_none required)
      rw [← read]
      unfold ofNode
      rw [readKernel?_outputs hsplit]
      rfl

end Operator

/-! ## Outputs that are left out -/

namespace Node

variable {n : Node} {live names names' omitted : List String} {ts us : List Tensor}
  {V W : Scope Tensor}

/-- Whether an output is kept, or omitted because it is not live. -/
def Clears (live : List String) (x y : String) : Prop := y = x ∨ y = "" ∧ x ∉ live

theorem forall₂_clears (live : List String) (required : Nat) (outputs : List String) :
    List.Forall₂ (Clears live) outputs
      (outputs.take required ++
        (outputs.drop required).map fun o => if live.contains o then o else "") := by
  have optional : List.Forall₂ (Clears live) (outputs.drop required)
      ((outputs.drop required).map fun o => if live.contains o then o else "") := by
    rw [List.forall₂_map_right_iff, List.forall₂_same]
    intro x _
    by_cases hx : x ∈ live
    · exact Or.inl (if_pos (by simpa using hx))
    · exact Or.inr ⟨if_neg (by simpa using hx), hx⟩
  have first : List.Forall₂ (Clears live) (outputs.take required) (outputs.take required) :=
    List.forall₂_same.2 fun x _ => Or.inl rfl
  have both : List.Forall₂ (Clears live) (outputs.take required ++ outputs.drop required) _ :=
    List.rel_append first optional
  rwa [List.take_append_drop] at both

/-- Live names get the same tensors when outputs that are not live are omitted. -/
theorem get?_bindAll_clears (clears : List.Forall₂ (Clears live) names names') (ts : List Tensor)
    {x : String} (hx : x ∈ live) (same : V.get? x = W.get? x) :
    (bindAll (names.zip ts) V).get? x = (bindAll (names'.zip ts) W).get? x := by
  induction clears generalizing ts V W with
  | nil => exact same
  | @cons y y' _ _ first _ ih =>
      cases ts with
      | nil => exact same
      | cons t ts =>
          rw [List.zip_cons_cons, List.zip_cons_cons, bindAll_cons, bindAll_cons]
          refine ih ts ?_
          rcases first with rfl | ⟨rfl, hy⟩
          · dsimp only
            split
            · exact same
            · rw [Scope.get?_bind, Scope.get?_bind, same]
          · have hne : x ≠ y := fun h => hy (h ▸ hx)
            rw [if_pos rfl]
            dsimp only
            split
            · exact same
            · rw [Scope.get?_bind, if_neg hne, same]

/-- Omitted outputs get no tensor. -/
theorem bindAll_omitted (hempty : ∀ x ∈ omitted, x = "") (ts : List Tensor) :
    bindAll (omitted.zip ts) V = V := by
  induction omitted generalizing ts with
  | nil => rfl
  | cons x rest ih =>
      cases ts with
      | nil => rfl
      | cons t ts =>
          rw [List.zip_cons_cons, bindAll_cons, if_pos (hempty x List.mem_cons_self)]
          exact ih (fun y hy => hempty y (List.mem_cons_of_mem _ hy)) ts

/-- Without omitted outputs at the end, the tensors of the other outputs are enough. -/
theorem bindAll_trimmed (hempty : ∀ x ∈ omitted, x = "")
    (first : us.take names.length = ts.take names.length) :
    bindAll ((names ++ omitted).zip ts) V = bindAll (names.zip us) V := by
  induction names generalizing ts us V with
  | nil => exact bindAll_omitted hempty ts
  | cons x names ih =>
      cases ts with
      | nil =>
          obtain rfl : us = [] := by simpa using first
          rfl
      | cons t ts =>
          cases us with
          | nil => cases first
          | cons u us =>
              obtain ⟨rfl, others⟩ := List.cons.inj first
              rw [List.cons_append, List.zip_cons_cons, List.zip_cons_cons, bindAll_cons,
                bindAll_cons]
              exact ih others

/-- When only omitted outputs lack a tensor, they are the only ones afterwards. -/
theorem enough_of_clears (clears : List.Forall₂ (Clears live) names (names' ++ omitted))
    (first : us.take names'.length = ts.take names'.length)
    (enough : ∀ x ∈ names.drop ts.length, x = "") : ∀ x ∈ names'.drop us.length, x = "" := by
  intro x hx
  have hlt : us.length < names'.length := by
    by_contra hle
    rw [List.drop_eq_nil_of_le (by omega)] at hx
    cases hx
  have hlen : us.length = ts.length := by
    have := congrArg List.length first
    rw [List.length_take, List.length_take] at this
    omega
  have hx' : x ∈ (names' ++ omitted).drop ts.length := by
    rw [← hlen, List.drop_append_of_le_length (by omega)]
    exact List.mem_append_left _ hx
  obtain ⟨y, hy, rfl | ⟨rfl, -⟩⟩ :=
    exists_left_of_forall₂ (List.forall₂_drop ts.length clears) hx'
  · exact enough x hy
  · rfl

/-- A node without dead optional outputs makes the same tensors for the outputs that are left. -/
theorem Yields.dropDeadOutputs (h : n.Yields version chance V ts) (live : List String) :
    ∃ outputs omitted us, n.dropDeadOutputs version live = { n with outputs := outputs } ∧
      List.Forall₂ (Clears live) n.outputs (outputs ++ omitted) ∧ (∀ x ∈ omitted, x = "") ∧
      (n.dropDeadOutputs version live).Yields version chance V us ∧
      us.take outputs.length = ts.take outputs.length := by
  unfold Node.dropDeadOutputs
  split
  · refine ⟨n.outputs, [], ts, by cases n; rfl, ?_, by simp, h, rfl⟩
    rw [List.append_nil]
    exact List.forall₂_same.2 fun x _ => Or.inl rfl
  · rename_i required hrequired
    obtain ⟨operator, inputs, read, harguments, hrun⟩ := h
    rw [read] at hrequired
    have optional : operator.requiredOutputs? = some required := hrequired
    have clears := forall₂_clears live required n.outputs
    obtain ⟨omitted, heq, hempty⟩ := trimOmitted_append required
      (n.outputs.take required ++
        (n.outputs.drop required).map fun o => if live.contains o then o else "")
    rw [← heq] at clears
    dsimp only
    generalize trimOmitted required _ = outputs at clears ⊢
    have le : outputs.length ≤ n.outputs.length := by
      have := clears.length_eq
      rw [List.length_append] at this
      omega
    cases operator with
    | branch onTrue onFalse => cases optional
    | loop body => cases optional
    | kernel k =>
        unfold Operator.runNode at hrun
        dsimp only at hrun
        cases hk : k.run (chance.forName n.displayName) inputs (some n.outputs.length) with
        | error e =>
            rw [hk] at hrun
            cases hrun
        | ok ts' =>
            rw [hk] at hrun
            cases hrun
            obtain ⟨us, hus, first⟩ := Kernel.run_fewer optional le _
              (chance.forName ({ n with outputs := outputs } : Node).displayName) inputs ts hk
            refine ⟨outputs, omitted, us, rfl, clears, hempty, ⟨.kernel k, inputs,
              Operator.ofNode_outputs read optional outputs, harguments, ?_⟩, first⟩
            unfold Operator.runNode
            dsimp only
            rw [hus]
            rfl

/-! ## Single nodes -/

/-- A node that is not live changes no live name. -/
theorem next?_dead (dead : n.produces live = false) (h : n.next? version chance V = some W)
    {x : String} (hx : x ∈ live) : W.get? x = V.get? x := by
  obtain ⟨ts, -, hbind⟩ := next?_eq_some_iff.1 h
  obtain ⟨-, rfl⟩ := bindOutputs_eq_ok hbind
  refine get?_bindAll_of_not_mem fun hout => ?_
  rw [produces_iff.2 ⟨x, hout, hx⟩] at dead
  cases dead

/-- A node that reads live names only can also be run without its dead optional outputs, and in all
scopes that agree on the live names.  Afterwards they still agree. -/
theorem next?_live (reads : ∀ x ∈ n.reads, x ∈ live) (same : ∀ x ∈ live, V.get? x = W.get? x)
    {V' : Scope Tensor} (h : n.next? version chance V = some V') :
    ∃ W', (n.dropDeadOutputs version live).next? version chance W = some W' ∧
      ∀ x ∈ live, V'.get? x = W'.get? x := by
  obtain ⟨ts, yields, hbind⟩ := next?_eq_some_iff.1 h
  obtain ⟨enough, rfl⟩ := bindOutputs_eq_ok hbind
  obtain ⟨outputs, omitted, us, heq, clears, hempty, yields', first⟩ :=
    (yields.congr fun x hx => same x (reads x hx)).dropDeadOutputs live
  rw [heq] at yields' ⊢
  refine ⟨_, next?_eq_some_iff.2 ⟨us, yields',
    bindOutputs_of_enough (enough_of_clears clears first enough)⟩, fun x hx => ?_⟩
  dsimp only
  rw [← bindAll_trimmed hempty first]
  exact get?_bindAll_clears clears ts hx (same x hx)

/-- The live ones among some nodes, without dead optional outputs, can be run in step with all of
them. -/
theorem foldlM_next?_live {ns : List Node} {F : Scope Tensor}
    (reads : ∀ n ∈ ns, n.produces live = true → ∀ x ∈ n.reads, x ∈ live)
    (same : ∀ x ∈ live, V.get? x = W.get? x)
    (h : ns.foldlM (fun scope n => n.next? version chance scope) V = some F) :
    ∃ F', ((ns.filter (·.produces live)).map (dropDeadOutputs version live)).foldlM
        (fun scope n => n.next? version chance scope) W = some F' ∧
      ∀ x ∈ live, F.get? x = F'.get? x := by
  induction ns generalizing V W with
  | nil =>
      cases h
      exact ⟨W, rfl, same⟩
  | cons n rest ih =>
      rw [List.foldlM_cons] at h
      obtain ⟨V', hV', h⟩ := Option.bind_eq_some_iff.1 h
      have later := fun m hm => reads m (List.mem_cons_of_mem n hm)
      rw [List.filter_cons]
      cases hproduces : n.produces live with
      | false =>
          rw [if_neg Bool.false_ne_true]
          exact ih later (fun x hx => (next?_dead hproduces hV' hx).trans (same x hx)) h
      | true =>
          obtain ⟨W', hW', same'⟩ := next?_live (reads n List.mem_cons_self hproduces) same hV'
          rw [if_pos rfl, List.map_cons, List.foldlM_cons, hW']
          exact ih later same' h

end Node

/-! ## What is left -/

/-- Whether an output of a node is used, and no optional output is there that is not used: it is
omitted, and left out at the end. -/
structure Node.Needed (version : Option Int64) (uses : List String) (n : Node) : Prop where
  used : ∃ x ∈ n.presentOutputs, x ∈ uses
  optional : ∀ operator required, Operator.ofNode version n = .ok operator →
    operator.requiredOutputs? = some required →
      (∀ x ∈ n.outputs.drop required, x = "" ∨ x ∈ uses) ∧
        (n.outputs.drop required).getLast? ≠ some ""

theorem drop_trimOmitted (required : Nat) (outputs : List String) :
    (trimOmitted required outputs).drop required =
      ((outputs.drop required).reverse.dropWhile (· = "")).reverse := by
  unfold trimOmitted
  by_cases h : required ≤ outputs.length
  · exact List.drop_left' (List.length_take_of_le h)
  · rw [List.drop_eq_nil_of_le (show outputs.length ≤ required by omega)]
    simp only [List.reverse_nil, List.dropWhile_nil, List.append_nil, List.drop_take_self]

/-- Omitted outputs at the end are left out. -/
theorem getLast?_drop_trimOmitted (required : Nat) (outputs : List String) :
    ((trimOmitted required outputs).drop required).getLast? ≠ some "" := by
  rw [drop_trimOmitted, List.getLast?_reverse]
  have := List.head?_dropWhile_not (fun x => decide (x = "")) (outputs.drop required).reverse
  intro h
  rw [h] at this
  exact absurd this (by decide)

/-- A live node without dead optional outputs is needed. -/
theorem Node.needed_dropDeadOutputs {n : Node} {live : List String}
    (h : n.produces live = true) : (n.dropDeadOutputs version live).Needed version live := by
  obtain ⟨x, hout, hx⟩ := produces_iff.1 h
  refine ⟨⟨x, (trims_dropDeadOutputs version live n).keeps x hout hx, hx⟩, ?_⟩
  intro operator required read optional
  unfold dropDeadOutputs at read ⊢
  split at read
  · rename_i hnone
    rw [read] at hnone
    exact absurd (optional.symm.trans hnone) (Option.some_ne_none required)
  · rename_i required' hrequired
    obtain rfl : required' = required := by
      cases hread : Operator.ofNode version n with
      | error e =>
          rw [hread] at hrequired
          cases hrequired
      | ok operator' =>
          rw [hread] at hrequired
          rw [Operator.ofNode_outputs hread hrequired] at read
          cases read
          exact Option.some.inj (hrequired.symm.trans optional)
    refine ⟨fun y hy => ?_, getLast?_drop_trimOmitted _ _⟩
    rw [drop_trimOmitted, List.mem_reverse] at hy
    have hmem := List.mem_reverse.1 (List.dropWhile_sublist _ |>.subset hy)
    rw [List.drop_append, List.drop_take_self, List.nil_append] at hmem
    obtain ⟨z, -, rfl⟩ := List.mem_map.1 (List.mem_of_mem_drop hmem)
    by_cases hz : z ∈ live
    · rw [if_pos (by simpa using hz)]
      exact Or.inr hz
    · exact Or.inl (if_neg (by simpa using hz))

theorem Node.Needed.mono {n : Node} {names names' : List String} (h : n.Needed version names)
    (sub : ∀ x ∈ names, x ∈ names') : n.Needed version names' := by
  obtain ⟨x, hout, hx⟩ := h.used
  refine ⟨⟨x, hout, sub x hx⟩, fun operator required read optional => ?_⟩
  obtain ⟨all, last⟩ := h.optional operator required read optional
  exact ⟨fun y hy => (all y hy).imp_right (sub y), last⟩

/-! ## Whole runs -/

namespace Graph

variable {g : Graph}

/-- The live names of a graph. -/
def liveNames (g : Graph) : List String := (liveNodes g.outputNames g.nodes).2

/-- Of sorted nodes those are left that produce a live name. -/
theorem nodes_eliminateDeadCode (sorted : Node.Sorted g.nodes) (version : Option Int64) :
    (g.eliminateDeadCode version).nodes =
      (g.nodes.filter (·.produces g.liveNames)).map (Node.dropDeadOutputs version g.liveNames) := by
  unfold liveNames
  rw [← liveNodes_eq_filter g.outputNames sorted]
  rfl

/-- The names that are live are those that are still used. -/
theorem mem_liveNames (version : Option Int64) {x : String} :
    x ∈ g.liveNames ↔ x ∈ (g.eliminateDeadCode version).uses := by
  have reads : ∀ n : Node, (n.dropDeadOutputs version g.liveNames).reads = n.reads := fun n =>
    (Node.trims_dropDeadOutputs version g.liveNames n).reads
  rw [mem_uses, liveNames, mem_liveNodes, or_comm]
  refine or_congr ⟨?_, ?_⟩ Iff.rfl
  · rintro ⟨n, hn, hx⟩
    exact ⟨_, List.mem_map_of_mem hn, (reads n).symm ▸ hx⟩
  · rintro ⟨m, hm, hx⟩
    obtain ⟨n, hn, rfl⟩ := List.mem_map.1 hm
    exact ⟨n, hn, reads n ▸ hx⟩

/-- A run in any surroundings has the same outputs without what is not used. -/
theorem runIn_eliminateDeadCode (sorted : Node.Sorted g.nodes) {inputs outer : Scope Tensor}
    {outs : List Tensor} (h : g.runIn version chance inputs outer = .ok outs) :
    (g.eliminateDeadCode version).runIn version chance inputs outer = .ok outs := by
  obtain ⟨F, hF, houts⟩ := runIn_eq_ok h
  obtain ⟨given, hgiven, hfold⟩ := (valuesIn_eq_ok_iff_of_sorted sorted).1 hF
  have reads : ∀ n ∈ g.nodes, n.produces g.liveNames = true → ∀ x ∈ n.reads, x ∈ g.liveNames := by
    intro n hn hproduces x hx
    refine mem_liveNodes.2 (Or.inr ⟨n, ?_, hx⟩)
    rw [liveNodes_eq_filter g.outputNames sorted]
    exact List.mem_filter.2 ⟨hn, hproduces⟩
  obtain ⟨F', hF', same⟩ := Node.foldlM_next?_live reads (fun _ _ => rfl) hfold
  rw [← nodes_eliminateDeadCode sorted version] at hF'
  rw [runIn_eq, (valuesIn_eq_ok_iff_of_sorted (sorted_eliminateDeadCode sorted version)).2
    ⟨given, hgiven, hF'⟩]
  refine Eq.trans (outputValues_congr fun o ho => (same o.name ?_).symm) houts
  exact mem_liveNodes.2 (Or.inl (List.mem_map_of_mem ho))

/-- Dead code can be removed: whenever a graph in topological order can be run, it can be run
without its dead code, and gives the same outputs.  Nothing is assumed of the graphs nested in it,
nor of the number of outputs that its nodes have.  Each node that is left is needed. -/
theorem eliminateDeadCode_keeps_outputs (version : Option Int64) (sorted : Node.Sorted g.nodes) :
    (∀ chance inputs outs, g.run version chance inputs = .ok outs →
      (g.eliminateDeadCode version).run version chance inputs = .ok outs) ∧
    ∀ n ∈ (g.eliminateDeadCode version).nodes,
      n.Needed version (g.eliminateDeadCode version).uses := by
  refine ⟨fun chance inputs outs h => runIn_eliminateDeadCode sorted h, fun m hm => ?_⟩
  rw [nodes_eliminateDeadCode sorted] at hm
  obtain ⟨n, hn, rfl⟩ := List.mem_map.1 hm
  exact (Node.needed_dropDeadOutputs (List.mem_filter.1 hn).2).mono fun x =>
    (mem_liveNames version).1

/-- A graph that doubles a value from outside. -/
def doublesKept : Graph where
  nodes := [{ opType := "Add", inputs := ["kept", "kept"], outputs := ["t"] }]
  outputs := [{ name := "t" }]

/-- A node that runs a graph when its condition holds. -/
def whenTrue (g : Graph) (x other : String) : Node where
  opType := "If"
  inputs := ["c"]
  outputs := [x]
  attributes := [{ name := "then_branch", value := .graph g },
    { name := "else_branch"
      value := .graph
        { initializers := [⟨other, .scalar (0 : Int64)⟩], outputs := [{ name := other }] } }]

/-- A graph that reads the value only through a nested graph. -/
def whenKept : Graph where
  nodes := [whenTrue doublesKept "u" "v"]
  outputs := [{ name := "u" }]

/-- A graph with a dead node, and with a node of which one output is read two graphs deeper and the
other one is not read. -/
def partlyUsed : Graph where
  inputs := [{ name := "x" }, { name := "c" }]
  nodes := [{ opType := "Mul", inputs := ["x", "x"], outputs := ["dead"] },
    { opType := "Dropout", inputs := ["x"], outputs := ["kept", "mask"] },
    whenTrue whenKept "y" "z"]
  outputs := [{ name := "y" }]

theorem next?_whenTrue {g : Graph} {x other : String} {scope : Scope Tensor} {t : Tensor}
    (hx : x ≠ "") (condition : scope.get? "c" = some (.scalar true))
    (run : g.runIn version chance [] scope = .ok [t]) :
    (whenTrue g x other).next? version chance scope = some (scope.bind x t) :=
  Node.next?_branch rfl rfl rfl (by decide) hx condition
    (by cbv : conditionOf (.scalar true) = .ok true) run

/-- The dead node and the unread output are gone, and the run is the same. -/
theorem eliminateDeadCode_partlyUsed :
    partlyUsed.validate [] = .ok () ∧ Node.Sorted partlyUsed.nodes ∧
      (partlyUsed.eliminateDeadCode none).nodes.map Node.outputs = [["kept"], ["y"]] ∧
      partlyUsed.run none ⟨0⟩ [("x", .scalar (3 : Int64)), ("c", .scalar true)] =
        .ok [.scalar (6 : Int64)] ∧
      (partlyUsed.eliminateDeadCode none).run none ⟨0⟩
        [("x", .scalar (3 : Int64)), ("c", .scalar true)] = .ok [.scalar (6 : Int64)] := by
  have sorted : Node.Sorted partlyUsed.nodes := Node.isSorted_iff.1 (by cbv)
  have run : partlyUsed.run none ⟨0⟩ [("x", .scalar (3 : Int64)), ("c", .scalar true)] =
      .ok [.scalar (6 : Int64)] := by
    let scope : Scope Tensor := [("mask", .scalar true), ("kept", .scalar (3 : Int64)),
      ("dead", .scalar (9 : Int64)), ("c", .scalar true), ("x", .scalar (3 : Int64))]
    have inner : doublesKept.runIn none ⟨0⟩ [] scope = .ok [.scalar (6 : Int64)] :=
      runIn_of_next? [0] (by decide +kernel) rfl rfl rfl
    have middle : whenKept.runIn none ⟨0⟩ [] scope = .ok [.scalar (6 : Int64)] :=
      runIn_of_next? [0] (by decide +kernel) rfl
        (Option.bind_eq_some_iff.2 ⟨_, next?_whenTrue (by decide) rfl inner, rfl⟩) rfl
    exact runIn_of_next? [0, 1, 2] (by decide +kernel) rfl
      (Option.bind_eq_some_iff.2 ⟨_, next?_whenTrue (by decide) rfl middle, rfl⟩) rfl
  exact ⟨by cbv, sorted, by cbv, run,
    (eliminateDeadCode_keeps_outputs none sorted).1 _ _ _ run⟩

end Graph
end TensorGraph
