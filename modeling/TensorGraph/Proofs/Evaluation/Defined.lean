import Mathlib
import TensorGraph.Proofs.Evaluation.Capture
import TensorGraph.Proofs.Graph.Validity

/-!
# Valid graphs find the values that they read

Input:

* a valid graph, and a tensor for each of its inputs that is no constant.

Algorithm:

* a node runs after those that produce what it reads, so all that it reads is in its scope
  (`Graph.run_finds`);
* the check of the graph makes sure that branches have no inputs, and the loop itself that its body
  has as many inputs as the values that it carries.  A nested graph captures values that its node
  reads, so it finds them too, in each iteration of a loop (`LoopState.iterate_finds`).

Main results:

* `Graph.findsValues_of_controlled`, for a graph in any scope that has what the graph captures;
* `Graph.run_finds_values`: a run of a valid graph lacks a value only when an input was not given.
-/

namespace TensorGraph

/-- Whether a run failed because something read a value that is not there, at any depth. -/
def RunError.lacksValue : RunError → Bool
  | missingInput _ | unknownValue _ => true
  | inSubgraph _ error => error.lacksValue
  | _ => false

/-- Whether something that was run failed because a value is not there. -/
def RunResult.lacksValue {α : Type} : RunResult α → Bool
  | .ok _ => false
  | .error e => e.lacksValue

/-! ## Computations that find their values -/

/-- Whether a computation fails for lack of a value under no circumstances, and has a property when
it succeeds. -/
inductive Finds {α : Type} (P : α → Prop) : RunResult α → Prop
  | ok {x : α} (holds : P x) : Finds P (.ok x)
  | error {e : RunError} (found : e.lacksValue = false) : Finds P (.error e)

namespace Finds

variable {α β : Type} {P : α → Prop} {Q : β → Prop}

theorem lacksValue {r : RunResult α} (h : Finds P r) : r.lacksValue = false := by
  cases h with
  | ok holds => rfl
  | error found => exact found

theorem mono {P' : α → Prop} {r : RunResult α} (h : Finds P r) (imp : ∀ x, P x → P' x) :
    Finds P' r := by
  cases h with
  | ok holds => exact .ok (imp _ holds)
  | error found => exact .error found

theorem bind {r : RunResult α} {f : α → RunResult β} (h : Finds P r)
    (next : ∀ x, P x → Finds Q (f x)) : Finds Q (r >>= f) := by
  cases h with
  | ok holds => exact next _ holds
  | error found => exact .error found

/-- What fails for other reasons, whatever these are. -/
theorem mapError {ε : Type} {f : ε → RunError} (hf : ∀ e, (f e).lacksValue = false)
    (r : Except ε α) : Finds (fun _ => True) (r.mapError f) := by
  cases r with
  | ok x => exact .ok trivial
  | error e => exact .error (hf e)

theorem mapM {l : List α} {f : α → RunResult β} (h : ∀ a ∈ l, Finds Q (f a)) :
    Finds (fun bs => bs.length = l.length) (l.mapM f) := by
  induction l with
  | nil => exact .ok rfl
  | cons a rest ih =>
      rw [List.mapM_cons]
      refine (h a List.mem_cons_self).bind fun b _ => ?_
      refine (ih fun c hc => h c (List.mem_cons_of_mem _ hc)).bind fun bs hbs => .ok ?_
      rw [List.length_cons, List.length_cons, hbs]

end Finds

/-! ## Plans and inputs -/

namespace Graph

variable {version : Option Int64} {chance : Generator} {g : Graph} {inputs outer : Scope Tensor}

theorem finds_plan (version : Option Int64) (g : Graph) :
    Finds (fun _ => True) (g.plan version) := by
  refine (Finds.mapError (f := RunError.plan) (fun _ => rfl) _).bind fun order _ => ?_
  refine (Finds.mapM (Q := fun _ => True) fun i _ => ?_).mono fun _ _ => trivial
  unfold stepAt
  split
  · exact .ok trivial
  · exact .error rfl

/-- Inputs that are no constants need a tensor, and nothing else does. -/
theorem finds_givenValues (given : ∀ v ∈ g.runtimeInputs, (inputs.get? v.name).isSome) :
    Finds (fun scope => ∀ x, x ∈ g.inputNames ∨ x ∈ g.initializerNames → (scope.get? x).isSome)
      (g.givenValues inputs) := by
  obtain ⟨scope, hscope⟩ := exists_givenValues_iff.2 fun v hv => by
    by_cases hi : v.name ∈ g.initializerNames
    · exact Or.inr (isSome_get?_constants.2 hi)
    · exact Or.inl (given v (mem_runtimeInputs.2 ⟨hv, hi⟩))
  rw [hscope]
  exact .ok fun x hx => Option.isSome_iff_exists.2 (exists_get?_givenValues hscope hx)

end Graph

/-! ## Control flow -/

theorem runBranch_finds {n : Node} {onTrue onFalse : Unit → RunResult (List Tensor)}
    (htrue : Finds (fun _ => True) (onTrue ())) (hfalse : Finds (fun _ => True) (onFalse ()))
    (inputs : Inputs) : Finds (fun _ => True) (runBranch n onTrue onFalse inputs) := by
  refine (Finds.mapError (fun _ => rfl) _).bind fun c _ => ?_
  split
  · exact htrue
  · exact hfalse

/-- A name that has a tensor in a list of pairs has one in their scope. -/
theorem Scope.isSome_get?_ofBindings_zip {names : List String} {ts : List Tensor}
    (enough : names.length ≤ ts.length) {x : String} (hx : x ∈ names) :
    ((Scope.ofBindings (names.zip ts)).get? x).isSome := by
  unfold Scope.get? Scope.ofBindings
  rw [Option.isSome_iff_ne_none, ne_eq, List.lookup_eq_none_iff]
  intro none
  rw [← List.map_fst_zip enough] at hx
  obtain ⟨p, hp, rfl⟩ := List.mem_map.1 hx
  simpa using none p (List.mem_reverse.2 hp)

namespace LoopState

variable {runBody : LoopState → RunResult (List Tensor)} {fault : OpFault → RunError}
  {carried outputs : Nat}

/-- An iteration carries as many values on as it got. -/
theorem next_finds (hfault : ∀ f, (fault f).lacksValue = false) (lt : carried < outputs)
    (conditional : Bool) {s : LoopState} (hs : s.carried.length = carried) {ts : List Tensor}
    (hts : ts.length = outputs) :
    Finds (fun s' => s'.carried.length = carried) ((s.next conditional ts).mapError fault) := by
  cases ts with
  | nil => exact .error (hfault _)
  | cons first rest =>
      have enough : (rest.take s.carried.length).length = carried := by
        rw [List.length_cons] at hts
        rw [List.length_take]
        omega
      unfold next
      dsimp only
      split
      · cases conditionOf first with
        | error f => exact .error (hfault f)
        | ok c => exact .ok enough
      · exact .ok enough

/-- In each iteration the body is run on as many values as there were in the beginning. -/
theorem iterate_finds (hfault : ∀ f, (fault f).lacksValue = false) (lt : carried < outputs)
    (conditional : Bool)
    (body : ∀ s, s.carried.length = carried → Finds (fun ts => ts.length = outputs) (runBody s))
    (trips : Nat) {s : LoopState} (hs : s.carried.length = carried) :
    Finds (fun _ => True) (iterate runBody fault conditional trips s) := by
  induction trips generalizing s with
  | zero => exact .ok trivial
  | succ trips ih =>
      unfold iterate
      split
      · exact (body s hs).bind fun ts hts =>
          (next_finds hfault lt conditional hs hts).bind fun s' hs' => ih hs'
      · exact .ok trivial

end LoopState

/-- A loop finds the values that its body reads, when the body finds them in all runs on inputs that
have the names of its own. -/
theorem runLoop_finds {version : Option Int64} {n : Node} {body : Graph}
    {runBody : Scope Tensor → RunResult (List Tensor)}
    (hbody : ∀ given : Scope Tensor, (∀ v ∈ body.inputs, (given.get? v.name).isSome) →
      Finds (fun ts => ts.length = body.outputs.length) (runBody given)) (inputs : Inputs) :
    Finds (fun _ => True) (runLoop version n body runBody inputs) := by
  have hfault : ∀ f, (RunError.operator (n.name.getD "") "Loop" f).lacksValue = false :=
    fun _ => rfl
  refine (Finds.mapError hfault _).bind fun start _ => ?_
  split
  · rename_i fits
    obtain ⟨inputs, outputs⟩ := Bool.and_eq_true_iff.1 fits
    refine (body.finds_plan version).bind fun _ _ => ?_
    refine (LoopState.iterate_finds hfault (of_decide_eq_true outputs) _
      (fun s hs => ?_) _ rfl).bind fun final _ => ?_
    · refine hbody _ fun v hv => Scope.isSome_get?_ofBindings_zip ?_ (List.mem_map_of_mem hv)
      have := eq_of_beq inputs
      simp only [List.length_map, List.length_cons]
      omega
    · split
      · exact .error rfl
      · exact Finds.mapError hfault _
  · exact .error rfl

/-! ## Graphs -/

/-- Only conditional nodes run one of two graphs. -/
theorem Operator.opType_of_branch {version : Option Int64} {n : Node} {onTrue onFalse : Graph}
    (read : ofNode version n = .ok (.branch onTrue onFalse)) : n.opType = "If" := by
  unfold ofNode at read
  split at read
  · split at read
    · assumption
    · split at read
      · cases hb : n.readRequired "body" AttributeValue.asGraph with
        | error e => simp [hb, Functor.map, Except.map] at read
        | ok body => simp [hb, Functor.map, Except.map] at read
      · split at read
        · rename_i r _
          cases r with
          | error e => cases read
          | ok k => cases read
        · cases read
  · cases read

/-- The graphs of a conditional node have no inputs. -/
theorem Node.inputs_eq_nil_of_branch {version : Option Int64} {n : Node} {onTrue onFalse : Graph}
    (control : n.checkControlFlow = .ok ())
    (read : Operator.ofNode version n = .ok (.branch onTrue onFalse)) :
    onTrue.inputs = [] ∧ onFalse.inputs = [] := by
  have branches := checkControlFlow_eq_ok_iff.1 control (Operator.ofNode_cases read).1
  obtain ⟨a, b, ha, hb, -, -, noInputs⟩ := branches.branches (Operator.opType_of_branch read)
  obtain ⟨htrue, hfalse⟩ := Operator.ofNode_branch read
  rw [htrue] at ha
  rw [hfalse] at hb
  cases ha
  cases hb
  exact noInputs

namespace Graph

variable {version : Option Int64} {chance : Generator} {g : Graph} {outer : Scope Tensor}

/-- Whether all runs of a graph find the values that they read, on tensors for its inputs and in
surroundings that have what the graph captures. -/
def FindsValues (version : Option Int64) (chance : Generator) (g : Graph) : Prop :=
  ∀ inputs outer : Scope Tensor, (∀ v ∈ g.runtimeInputs, (inputs.get? v.name).isSome) →
    (∀ x ∈ g.captures, (outer.get? x).isSome) →
      Finds (fun ts => ts.length = g.outputs.length) (g.runIn version chance inputs outer)

/-- A node finds the values that its nested graphs read. -/
theorem runNode_finds {n : Node} {operator : Operator} {scope : Scope Tensor}
    (read : Operator.ofNode version n = .ok operator) (control : n.checkControlFlow = .ok ())
    (inside : ∀ p ∈ n.subgraphs, p.2.FindsValues version chance)
    (has : ∀ x ∈ n.reads, (scope.get? x).isSome) (inputs : Inputs) :
    Finds (fun _ => True)
      ((operator.runNode version chance n scope inputs).mapError (NodeRunError.inNode n)) := by
  have nested : ∀ {r : RunResult (List Tensor)}, Finds (fun _ => True) r →
      Finds (fun _ => True) ((r.mapError .nested).mapError (NodeRunError.inNode n)) := by
    intro r h
    cases h with
    | ok holds => exact .ok holds
    | error found => exact .error found
  have run : ∀ {name : String} {b : Graph}, n.graph? name = some b → ∀ given : Scope Tensor,
      (∀ v ∈ b.inputs, (given.get? v.name).isSome) →
        Finds (fun ts => ts.length = b.outputs.length)
          (b.runIn version chance given scope) := by
    intro name b hb given hgiven
    have hp := Node.mem_subgraphs_of_graph? hb
    exact inside _ hp given scope (fun v hv => hgiven v (mem_runtimeInputs.1 hv).1) fun x hx =>
      has x (Node.mem_reads.2 (Or.inr ⟨_, hp, hx⟩))
  unfold Operator.runNode
  cases operator with
  | kernel k =>
      dsimp only
      cases k.run (chance.forName n.displayName) inputs (some n.outputs.length) with
      | ok ts => exact .ok trivial
      | error fault => exact .error rfl
  | branch onTrue onFalse =>
      obtain ⟨htrue, hfalse⟩ := Operator.ofNode_branch read
      obtain ⟨noInputs, noInputs'⟩ := Node.inputs_eq_nil_of_branch control read
      refine nested (runBranch_finds ?_ ?_ inputs)
      · exact (run htrue [] (by simp [noInputs])).mono fun _ _ => trivial
      · exact (run hfalse [] (by simp [noInputs'])).mono fun _ _ => trivial
  | loop body => exact nested (runLoop_finds (run (Operator.ofNode_loop read)) inputs)

/-- A step finds the values that it reads when the nodes that it waits for have run.  Then its
outputs have values, too. -/
theorem run_finds {done : List Nat} {i : Nat} {s : Step version g} {scope : Scope Tensor}
    (control : s.node.checkControlFlow = .ok ())
    (inside : ∀ p ∈ s.node.subgraphs, p.2.FindsValues version chance)
    (hi : g.nodes[i]? = some s.node) (deps : ∀ j ∈ g.dependencies.getD i [], j ∈ done)
    (has : ∀ x, g.Available done x → (scope.get? x).isSome) :
    Finds (fun after => ∀ x, g.Available (done ++ [i]) x → (Scope.get? after x).isSome)
      (s.run chance scope) := by
  have reads : ∀ x ∈ s.node.reads, (scope.get? x).isSome := fun x hx =>
    has x (available_of_mem_reads hi deps hx)
  have arguments : Finds (fun _ => True) (s.node.arguments scope) := by
    refine (Finds.mapM (Q := fun _ => True) fun x hx => ?_).mono fun _ _ => trivial
    split
    · exact .ok trivial
    · rename_i hne
      have hread : x ∈ s.node.reads :=
        Node.mem_reads.2 (Or.inl (Node.mem_presentInputs.2 ⟨hx, hne⟩))
      obtain ⟨t, ht⟩ := Option.isSome_iff_exists.1 (reads x hread)
      rw [ht]
      exact .ok trivial
  unfold Step.run
  refine arguments.bind fun args _ =>
    (runNode_finds s.read control inside reads args).bind fun ts _ => ?_
  cases hbind : s.node.bindOutputs ts scope with
  | error e =>
      unfold Node.bindOutputs at hbind
      split at hbind
      · cases hbind
      · cases hbind
        exact .error rfl
  | ok after =>
      obtain ⟨enough, rfl⟩ := Node.bindOutputs_eq_ok hbind
      refine .ok fun x hx => ?_
      rcases Node.get?_bindAll (s.node.outputs.zip ts) scope x with
        ⟨p, -, -, -, hget⟩ | ⟨none, hget⟩
      · rw [hget]
        rfl
      · rw [hget]
        rcases hx.of_append hi with hout | hx
        · obtain ⟨t, ht⟩ := Node.exists_value_of_enough enough hout
          exact absurd (none _ ht rfl) (Node.mem_presentOutputs.1 hout).2
        · exact has x hx

/-- All steps do. -/
theorem foldlM_run_finds (control : g.Controlled)
    (inside : ∀ n ∈ g.nodes, ∀ p ∈ n.subgraphs, p.2.FindsValues version chance)
    {done order : List Nat} {steps : List (Step version g)} (steps_at : StepsAt g order steps)
    (inOrder : InOrder g.dependencies done order) {scope : Scope Tensor}
    (has : ∀ x, g.Available done x → (scope.get? x).isSome) :
    Finds (fun after => ∀ x, g.Available (done ++ order) x → (Scope.get? after x).isSome)
      (steps.foldlM (fun scope s => s.run chance scope) scope) := by
  induction steps_at generalizing done scope with
  | nil =>
      rw [List.append_nil]
      exact .ok has
  | @cons i s rest ss hi _ ih =>
      obtain ⟨-, deps, later⟩ := inOrder
      have hmem := List.mem_of_getElem? hi
      rw [List.foldlM_cons]
      refine (run_finds (control _ hmem) (inside _ hmem) hi deps has).bind fun after has' => ?_
      have := ih later has'
      rwa [List.append_assoc] at this

/-- A graph with the nested graphs that it needs finds the values that it reads. -/
theorem findsValues_of_controlled (version : Option Int64) (chance : Generator)
    (controlled : g.Everywhere Controlled) : g.FindsValues version chance := by
  induction controlled with
  | @intro g here _ inside =>
      intro inputs outer given captured
      rw [runIn_eq]
      unfold valuesIn
      simp only [bind_assoc]
      cases hplan : g.plan version with
      | error e => exact .error (hplan ▸ g.finds_plan version).lacksValue
      | ok steps =>
          obtain ⟨order, ho, steps_at⟩ := plan_eq_ok hplan
          obtain ⟨perm, inOrder⟩ := topologicalOrder_eq_ok ho
          refine (finds_givenValues given).bind fun scope hscope => ?_
          have start : ∀ x, g.Available [] x → ((scope.inside outer).get? x).isSome := by
            intro x hx
            rw [Scope.get?_inside, Option.isSome_or, Bool.or_eq_true]
            rcases hx.1 with hd | hc
            · exact Or.inl (hscope x (hx.given hd))
            · exact Or.inr (captured x hc)
          refine (foldlM_run_finds here inside steps_at inOrder start).bind fun after has => ?_
          refine Finds.mapM (Q := fun _ => True) fun o ho => ?_
          have := has o.name (available_of_perm perm (outputs_subset ho))
          obtain ⟨t, ht⟩ := Option.isSome_iff_exists.1 this
          rw [ht]
          exact .ok trivial

/-! ## Inputs that are not given -/

theorem exists_foldlM_giveInput_eq_error {inputs : Scope Tensor} {vs : List ValueInfo}
    {scope : Scope Tensor} {v : ValueInfo} (hv : v ∈ vs) (notGiven : inputs.get? v.name = none)
    (noValue : scope.get? v.name = none) :
    ∃ w ∈ vs, inputs.get? w.name = none ∧ scope.get? w.name = none ∧
      vs.foldlM (giveInput inputs) scope = .error (.missingInput w.name) := by
  induction vs generalizing scope with
  | nil => cases hv
  | cons u rest ih =>
      rw [List.foldlM_cons]
      unfold giveInput
      cases hu : inputs.get? u.name with
      | some t =>
          have hne : v.name ≠ u.name := by
            intro h
            rw [h, hu] at notGiven
            cases notGiven
          have hrest : v ∈ rest := (List.mem_cons.1 hv).resolve_left fun h => hne (h ▸ rfl)
          have noValueThen : (scope.bind u.name t).get? v.name = none := by
            rw [Scope.get?_bind, if_neg hne]
            exact noValue
          obtain ⟨w, hw, missing, noValue', herror⟩ := ih hrest noValueThen
          refine ⟨w, List.mem_cons_of_mem _ hw, missing, ?_, herror⟩
          rw [Scope.get?_bind] at noValue'
          split at noValue'
          · cases noValue'
          · exact noValue'
      | none =>
          by_cases hc : scope.contains u.name = true
          · have hrest : v ∈ rest := by
              refine (List.mem_cons.1 hv).resolve_left fun h => ?_
              unfold Scope.contains at hc
              rw [← h, noValue] at hc
              cases hc
            obtain ⟨w, hw, missing, noValue', herror⟩ := ih hrest noValue
            refine ⟨w, List.mem_cons_of_mem _ hw, missing, noValue', ?_⟩
            rw [if_pos hc]
            exact herror
          · refine ⟨u, List.mem_cons_self, hu, ?_, ?_⟩
            · unfold Scope.contains at hc
              rwa [Option.not_isSome_iff_eq_none] at hc
            · rw [if_neg hc]
              rfl

/-- When an input has neither a tensor nor a constant, the first one of this kind is missed. -/
theorem exists_givenValues_eq_error {inputs : Scope Tensor} {v : ValueInfo}
    (hv : v ∈ g.runtimeInputs) (notGiven : inputs.get? v.name = none) :
    ∃ w ∈ g.runtimeInputs, inputs.get? w.name = none ∧
      g.givenValues inputs = .error (.missingInput w.name) := by
  obtain ⟨hmem, hconstant⟩ := mem_runtimeInputs.1 hv
  obtain ⟨w, hw, missing, noConstant, herror⟩ :=
    exists_foldlM_giveInput_eq_error hmem notGiven (get?_constants_eq_none hconstant)
  refine ⟨w, mem_runtimeInputs.2 ⟨hw, fun hi => ?_⟩, missing, herror⟩
  have found := isSome_get?_constants.2 hi
  rw [noConstant] at found
  cases found

/-- A run of a valid graph finds all values that it reads, its nested graphs and all iterations of
loops included, when there is a tensor for each input that is no constant.  Without one for some
input, a run that can be planned misses an input of this kind. -/
theorem run_finds_values (valid : g.validate [] = .ok ()) (version : Option Int64)
    (chance : Generator) (inputs : Scope Tensor) :
    ((∀ v ∈ g.runtimeInputs, (inputs.get? v.name).isSome) →
      (g.run version chance inputs).lacksValue = false) ∧
    ∀ steps, g.plan version = .ok steps → ∀ v ∈ g.runtimeInputs, inputs.get? v.name = none →
      ∃ w ∈ g.runtimeInputs, inputs.get? w.name = none ∧
        g.run version chance inputs = .error (.missingInput w.name) := by
  obtain ⟨-, captured, controlled⟩ := validate_eq_ok_iff.1 valid
  refine ⟨fun given => ?_, fun steps hplan v hv notGiven => ?_⟩
  · refine (findsValues_of_controlled version chance controlled inputs [] given ?_).lacksValue
    exact fun x hx => absurd (captured x hx) List.not_mem_nil
  · obtain ⟨w, hw, missing, herror⟩ := exists_givenValues_eq_error hv notGiven
    refine ⟨w, hw, missing, ?_⟩
    unfold run
    rw [runIn_eq, valuesIn, hplan, herror]
    rfl

/-- A graph with a loop, in which a conditional node chooses between a sum with a value from the
outermost graph and that value itself. -/
def sumsInLoop : Graph where
  inputs := [{ name := "x" }, { name := "c" }]
  initializers := [⟨"m", .scalar (2 : Int64)⟩]
  nodes := [{ opType := "Loop", inputs := ["m", "c", "x"], outputs := ["y"], attributes := [{
    name := "body"
    value := .graph {
      inputs := [{ name := "i" }, { name := "k" }, { name := "v" }]
      nodes := [{ opType := "If", inputs := ["k"], outputs := ["w"], attributes := [
        { name := "then_branch", value := .graph {
            nodes := [{ opType := "Add", inputs := ["v", "x"], outputs := ["t"] }]
            outputs := [{ name := "t" }] } },
        { name := "else_branch", value := .graph { outputs := [{ name := "x" }] } }] }]
      outputs := [{ name := "k" }, { name := "w" }] } }] }]
  outputs := [{ name := "y" }]

/-- With both inputs all values are found; without the first one it is missed. -/
theorem run_sumsInLoop_finds_values :
    sumsInLoop.validate [] = .ok () ∧
      (sumsInLoop.run none ⟨0⟩
        [("x", .scalar (3 : Int64)), ("c", .scalar true)]).lacksValue = false ∧
      sumsInLoop.run none ⟨0⟩ [("c", .scalar true)] = .error (.missingInput "x") := by
  have valid : sumsInLoop.validate [] = .ok () := by cbv
  obtain ⟨steps, hplan⟩ : ∃ steps, sumsInLoop.plan none = .ok steps :=
    exists_plan (show sumsInLoop.topologicalOrder = .ok [0] by decide +kernel) fun n hn => by
      cases List.mem_singleton.1 hn
      exact ⟨_, rfl⟩
  refine ⟨valid, (run_finds_values valid none ⟨0⟩ _).1 (by decide +kernel), ?_⟩
  obtain ⟨w, hw, missing, herror⟩ := (run_finds_values valid none ⟨0⟩ [("c", .scalar true)]).2
    steps hplan { name := "x" } (by decide +kernel) rfl
  have named : w = { name := "x" } ∨ w = { name := "c" } := by
    simpa [runtimeInputs, sumsInLoop, initializer?] using hw
  rcases named with rfl | rfl
  · exact herror
  · cases missing

end Graph
end TensorGraph
