import TensorGraph.Evaluation.Basic
import TensorGraph.Proofs.Operator.Kernel

/-!
# Outputs of runs

Input:

* a graph whose parts can be stored at every depth, and storable tensors for what it reads.

Main results:

* `LoopState.ensures_iterate`: each iteration of a loop passes storable tensors on;
* `Graph.ensures_runIn`: the outputs of a run can be stored, and so can those of a single node
  (`Operator.ensures_runNode`).
-/

namespace TensorGraph

/-! ## Scopes -/

/-- Whether all tensors in a scope can be stored. -/
def Scope.Storable (s : Scope Tensor) : Prop := ∀ p ∈ s, p.2.Storable

namespace Scope.Storable

variable {s s' : Scope Tensor}

theorem get? (h : Scope.Storable s) {name : String} {t : Tensor} (ht : s.get? name = some t) :
    t.Storable := by
  induction s with
  | nil => cases ht
  | cons p rest ih =>
      unfold Scope.get? at ht
      rw [List.lookup_cons] at ht
      cases hname : name == p.1 with
      | true =>
          rw [hname] at ht
          cases ht
          exact h p List.mem_cons_self
      | false =>
          rw [hname] at ht
          exact ih (fun q hq => h q (List.mem_cons_of_mem _ hq)) ht

theorem nil : Scope.Storable [] := by
  intro p hp
  cases hp

theorem bind (h : Scope.Storable s) {name : String} {t : Tensor} (ht : t.Storable) :
    Scope.Storable (s.bind name t) := by
  intro p hp
  rcases List.mem_cons.1 hp with rfl | hp
  · exact ht
  · exact h p hp

theorem inside (h : Scope.Storable s) (h' : Scope.Storable s') : Scope.Storable (s.inside s') := by
  intro p hp
  exact (List.mem_append.1 hp).elim (h p) (h' p)

theorem ofBindings {bindings : List (String × Tensor)} (h : ∀ p ∈ bindings, p.2.Storable) :
    Scope.Storable (.ofBindings bindings) :=
  fun p hp => h p (List.mem_reverse.1 hp)

end Scope.Storable

/-! ## Control flow -/

theorem ensures_runBranch {n : Node} {onTrue onFalse : Unit → RunResult (List Tensor)}
    {P : List Tensor → Prop} (hTrue : Ensures (onTrue ()) P) (hFalse : Ensures (onFalse ()) P)
    (inputs : Inputs) : Ensures (runBranch n onTrue onFalse inputs) P := by
  refine Ensures.bind_any fun condition => ?_
  split
  · exact hTrue
  · exact hFalse

theorem ensures_stackTensors {ts : List Tensor} (h : ∀ t ∈ ts, t.Storable) :
    Ensures (stackTensors ts) Tensor.Computed := by
  have rank : ∀ t ∈ ts, Ensures (reshapeOrFault t (1 :: t.shape)) fun r =>
      r.Computed ∧ 0 < r.rank := by
    intro t ht
    refine Ensures.orFault fun r hr => ⟨Tensor.computed_of_reshaped? (h t ht) hr, ?_⟩
    unfold Tensor.reshaped? at hr
    split at hr
    · cases hr
      exact Nat.zero_lt_succ _
    · cases hr
  refine Ensures.bind (Ensures.mapM rank) fun rows hrows => ?_
  cases rows with
  | nil => exact Ensures.error
  | cons first rest =>
      dsimp only
      split
      · exact Ensures.error
      · refine Ensures.dispatch fun α _ _ => ensures_concatAt (fun t ht => ?_) ?_
        · exact (hrows t ht).1.storable
        · rintro t ⟨⟩
          exact (hrows _ List.mem_cons_self).2

theorem ensures_emptyStack (declared : ValueInfo) :
    Ensures (emptyStack declared) Tensor.Computed := by
  unfold emptyStack
  dsimp only
  split
  · exact Ensures.orFault fun _ h => Tensor.computed_of_zeros? h
  · exact Ensures.error

theorem LoopInputs.ensures_ofInputs {inputs : Inputs} (h : inputs.Storable) :
    Ensures (ofInputs inputs) fun l => ∀ t ∈ l.carried, t.Storable := by
  have carried : Ensures ((inputs.drop 2).mapM (orFault OpFault.missingInputs))
      fun ts => ∀ t ∈ ts, t.Storable := by
    refine Ensures.mapM fun o ho => Ensures.orFault fun t ht => ?_
    subst ht
    exact h t (List.mem_of_mem_drop ho)
  have finish : ∀ (trips : Option Int) (condition : Option Bool), Ensures (do
      if trips.isNone && condition.isNone then
        .error (.unsupportedValue "loop has neither a trip count nor a condition")
      else
        let carried ← (inputs.drop 2).mapM (orFault .missingInputs)
        return ({ trips := trips, condition := condition, carried := carried } : LoopInputs))
      fun l => ∀ t ∈ l.carried, t.Storable := by
    intro trips condition
    split
    · exact Ensures.error
    · exact Ensures.bind carried fun ts hts => Ensures.pure hts
  unfold ofInputs
  dsimp only
  split
  all_goals
    refine Ensures.bind_any fun trips => ?_
    split
    · exact Ensures.bind_any (finish trips)
    · exact Ensures.bind_any (finish trips)

namespace LoopState

/-- Whether all tensors in the state of a loop can be stored. -/
structure Storable (s : LoopState) : Prop where
  carried : ∀ t ∈ s.carried, t.Storable
  rows : ∀ row ∈ s.rows, ∀ t ∈ row, t.Storable

variable {s : LoopState}

theorem Storable.bodyInputs (h : s.Storable) (names : List String) :
    Scope.Storable (s.bodyInputs names) := by
  refine Scope.Storable.ofBindings fun p hp => ?_
  have hmem := (List.of_mem_zip (show (p.1, p.2) ∈ _ from hp)).2
  rcases List.mem_cons.1 hmem with heq | hmem
  · rw [heq]
    exact (Tensor.computed_scalar _).storable
  · rcases List.mem_cons.1 hmem with heq | hmem
    · rw [heq]
      exact (Tensor.computed_scalar _).storable
    · exact h.carried p.2 hmem

theorem Storable.ensures_next (h : s.Storable) (conditional : Bool) {outputs : List Tensor}
    (houtputs : ∀ t ∈ outputs, t.Storable) : Ensures (s.next conditional outputs) Storable := by
  cases outputs with
  | nil => exact Ensures.error
  | cons first rest =>
      have rest' : ∀ t ∈ rest, t.Storable := fun t ht => houtputs t (List.mem_cons_of_mem _ ht)
      have state : ∀ condition : Bool, Storable {
          iteration := s.iteration + 1
          condition := condition
          carried := rest.take s.carried.length
          rows := rest.drop s.carried.length :: s.rows } := by
        intro condition
        refine ⟨fun t ht => rest' t (List.mem_of_mem_take ht), fun row hrow t ht => ?_⟩
        rcases List.mem_cons.1 hrow with rfl | hrow
        · exact rest' t (List.mem_of_mem_drop ht)
        · exact h.rows row hrow t ht
      unfold next
      dsimp only
      split
      · exact Ensures.bind_any fun condition => Ensures.pure (state condition)
      · exact Ensures.bind_any fun condition => Ensures.pure (state condition)

/-- All iterations keep what the body keeps. -/
theorem Storable.ensures_iterate {runBody : LoopState → RunResult (List Tensor)}
    (body : ∀ s : LoopState, s.Storable → Ensures (runBody s) fun ts => ∀ t ∈ ts, t.Storable)
    (fault : OpFault → RunError) (conditional : Bool) (trips : Nat) (h : s.Storable) :
    Ensures (iterate runBody fault conditional trips s) Storable := by
  induction trips generalizing s with
  | zero => exact Ensures.ok h
  | succ trips ih =>
      unfold iterate
      split
      · refine Ensures.bind (body s h) fun outputs houtputs => ?_
        exact Ensures.bind (h.ensures_next conditional houtputs).mapError fun next hnext => ih hnext
      · exact Ensures.ok h

theorem Storable.ensures_outputs (h : s.Storable) (body : Graph) :
    Ensures (s.outputs body) fun ts => ∀ t ∈ ts, t.Storable := by
  have stack : ∀ (declared : ValueInfo) (i : Nat),
      Ensures (s.stackAt declared i) Tensor.Computed := by
    intro declared i
    have rows := h.rows
    unfold stackAt
    split
    · exact ensures_emptyStack declared
    · refine ensures_stackTensors fun t ht => ?_
      obtain ⟨row, hrow, hget⟩ := List.mem_filterMap.1 ht
      exact rows row (List.mem_reverse.1 hrow) t (List.mem_of_getElem? hget)
  refine Ensures.bind (Ensures.mapM (P := Tensor.Computed) fun p _ => stack p.1 p.2)
    fun scanned hscanned => Ensures.pure fun t ht => ?_
  rcases List.mem_append.1 ht with ht | ht
  · exact h.carried t ht
  · exact (hscanned t ht).storable

end LoopState

theorem ensures_runLoop {version : Option Int64} {n : Node} {body : Graph}
    {runBody : Scope Tensor → RunResult (List Tensor)}
    (hbody : ∀ given, Scope.Storable given → Ensures (runBody given) fun ts => ∀ t ∈ ts, t.Storable)
    {inputs : Inputs} (h : inputs.Storable) :
    Ensures (runLoop version n body runBody inputs) fun ts => ∀ t ∈ ts, t.Storable := by
  refine Ensures.bind (LoopInputs.ensures_ofInputs h).mapError fun l hl => ?_
  split
  · refine Ensures.bind_any fun steps => ?_
    have start : LoopState.Storable
        { condition := l.condition.getD true, carried := l.carried } := by
      refine ⟨hl, fun row hrow => ?_⟩
      cases hrow
    refine Ensures.bind (start.ensures_iterate (fun s hs => hbody _ (hs.bodyInputs _)) _ _ _)
      fun final hfinal => ?_
    exact Ensures.ite (fun _ => Ensures.error) fun _ => (hfinal.ensures_outputs body).mapError
  · exact Ensures.error

/-! ## Runs -/

theorem Node.ensures_arguments (n : Node) {scope : Scope Tensor} (h : scope.Storable) :
    Ensures (n.arguments scope) Inputs.Storable := by
  refine (Ensures.mapM (P := fun o : Option Tensor => ∀ t, o = some t → t.Storable)
    fun name _ => ?_).mono fun os hos t ht => hos _ ht t rfl
  split
  · refine Ensures.ok ?_
    rintro t ⟨⟩
  · split
    · rename_i t ht
      refine Ensures.ok ?_
      rintro s ⟨⟩
      exact h.get? ht
    · exact Ensures.error

theorem Node.ensures_bindOutputs (n : Node) {outputs : List Tensor} {scope : Scope Tensor}
    (houtputs : ∀ t ∈ outputs, t.Storable) (h : scope.Storable) :
    Ensures (n.bindOutputs outputs scope) Scope.Storable := by
  unfold bindOutputs
  split
  · refine Ensures.ok ?_
    have fold : ∀ (ps : List (String × Tensor)) (scope : Scope Tensor),
        (∀ p ∈ ps, p.2.Storable) → scope.Storable →
        Scope.Storable (ps.foldl (fun scope p =>
          if p.1 = "" then scope else scope.bind p.1 p.2) scope) := by
      intro ps
      induction ps with
      | nil => exact fun scope _ h => h
      | cons p rest ih =>
          intro scope hps h
          refine ih _ (fun q hq => hps q (List.mem_cons_of_mem _ hq)) ?_
          dsimp only
          split
          · exact h
          · exact h.bind (hps p List.mem_cons_self)
    refine fold _ scope (fun p hp => houtputs p.2 ?_) h
    exact (List.of_mem_zip (show (p.1, p.2) ∈ _ from hp)).2
  · exact Ensures.error

namespace Graph

/-- Whether a graph and its nodes can be stored. -/
structure FullyStorable (g : Graph) : Prop where
  graph : g.Storable
  nodes : ∀ n ∈ g.nodes, n.Storable

theorem ensures_givenValues {g : Graph} (hg : g.Storable) {inputs : Scope Tensor}
    (h : inputs.Storable) : Ensures (g.givenValues inputs) Scope.Storable := by
  refine Ensures.foldlM ?_ fun scope v hv hscope => ?_
  · refine Scope.Storable.ofBindings fun p hp => ?_
    obtain ⟨i, hi, rfl⟩ := List.mem_map.1 hp
    exact (hg.initializers i hi).value
  · split
    · rename_i t ht
      exact Ensures.ok (hscope.bind (h.get? ht))
    · split
      · exact Ensures.ok hscope
      · exact Ensures.error

theorem ensures_outputValues (g : Graph) {scope : Scope Tensor} (h : scope.Storable) :
    Ensures (g.outputValues scope) fun ts => ∀ t ∈ ts, t.Storable := by
  refine Ensures.mapM fun o _ => ?_
  split
  · rename_i t ht
    exact Ensures.ok (h.get? ht)
  · exact Ensures.error

/-- The outputs of a run can be stored. -/
theorem ensures_runIn {version : Option Int64} {chance : Generator} {g : Graph}
    (hg : g.Everywhere FullyStorable) {inputs outer : Scope Tensor} (hinputs : inputs.Storable)
    (houter : outer.Storable) :
    Ensures (g.runIn version chance inputs outer) fun ts => ∀ t ∈ ts, t.Storable := by
  induction g using nested_induction generalizing inputs outer with
  | step g ih =>
      have nested : ∀ {n : Node} {name : String} {b : Graph}, n ∈ g.nodes →
          n.graph? name = some b → ∀ {given scope : Scope Tensor}, given.Storable → scope.Storable →
          Ensures (b.runIn version chance given scope) fun ts => ∀ t ∈ ts, t.Storable := by
        intro n name b hn hb given scope hgiven hscope
        have hp := Node.mem_subgraphs_of_graph? hb
        exact ih n hn _ hp (hg.inside hn hp) hgiven hscope
      rw [runIn]
      refine Ensures.bind_any fun steps => ?_
      refine Ensures.bind (ensures_givenValues hg.here.graph hinputs) fun given hgiven => ?_
      refine Ensures.bind (P := Scope.Storable) ?_ fun final hfinal => ensures_outputValues g hfinal
      refine Ensures.foldlM (hgiven.inside houter) fun scope s _ hscope => ?_
      refine Ensures.bind (s.node.ensures_arguments hscope) fun arguments harguments => ?_
      have finish : ∀ outputs : List Tensor, (∀ t ∈ outputs, t.Storable) →
          Ensures (s.node.bindOutputs outputs scope) Scope.Storable :=
        fun outputs houtputs => s.node.ensures_bindOutputs houtputs hscope
      have hread := s.read
      dsimp only
      split
      · rename_i k hk
        rw [hk] at hread
        refine Ensures.bind (Ensures.mapError ?_) finish
        exact Kernel.ensures_run (Operator.storable_of_ofNode (hg.here.nodes _ s.mem) hread)
          harguments _ _
      · rename_i onTrue onFalse hbranch
        rw [hbranch] at hread
        obtain ⟨htrue, hfalse⟩ := Operator.ofNode_branch hread
        refine Ensures.bind (Ensures.mapError (ensures_runBranch ?_ ?_ _)) finish
        · exact nested s.mem htrue .nil hscope
        · exact nested s.mem hfalse .nil hscope
      · rename_i body hloop
        rw [hloop] at hread
        refine Ensures.bind (Ensures.mapError (ensures_runLoop (fun given hgiven => ?_)
          harguments)) finish
        exact nested s.mem (Operator.ofNode_loop hread) hgiven hscope

end Graph

/-- The outputs of a single node can be stored. -/
theorem Operator.ensures_runNode {version : Option Int64} {chance : Generator} {n : Node}
    (hn : n.Storable) (inside : ∀ p ∈ n.subgraphs, p.2.Everywhere Graph.FullyStorable)
    {scope : Scope Tensor} (hscope : scope.Storable) {inputs : Inputs} (hinputs : inputs.Storable)
    {operator : Operator} (h : ofNode version n = .ok operator) :
    Ensures (operator.runNode version chance n scope inputs) fun ts => ∀ t ∈ ts, t.Storable := by
  have nested : ∀ {name : String} {b : Graph}, n.graph? name = some b →
      ∀ {given : Scope Tensor}, given.Storable →
      Ensures (b.runIn version chance given scope) fun ts => ∀ t ∈ ts, t.Storable :=
    fun hb _ hgiven => Graph.ensures_runIn (inside _ (Node.mem_subgraphs_of_graph? hb)) hgiven hscope
  cases operator with
  | kernel k => exact (Kernel.ensures_run (storable_of_ofNode hn h) hinputs _ _).mapError
  | branch onTrue onFalse =>
      obtain ⟨htrue, hfalse⟩ := ofNode_branch h
      exact (ensures_runBranch (nested htrue .nil) (nested hfalse .nil) inputs).mapError
  | loop body =>
      exact (ensures_runLoop (fun given hgiven => nested (ofNode_loop h) hgiven) hinputs).mapError

end TensorGraph
