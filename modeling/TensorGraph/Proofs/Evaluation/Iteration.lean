import TensorGraph.Evaluation.Iteration
import TensorGraph.Proofs.Operator.Alike

/-!
# Control flow on inputs that differ in their messages

Input:

* a likeness of tensors, a control-flow node with inputs that are related by it, and two ways to run
  its nested graphs that match.

Algorithm:

* `runBranch` picks a graph by the condition, which is the same on both sides;
* `LoopState.iterate` runs the body again and again.  Between two iterations both states are related
  (`LoopState.Related`), which one iteration preserves (`LoopState.Related.next`).

Main results:

* `runBranch_alike`: matching branches give related outputs;
* `runLoop_alike`: so does a loop with matching bodies.
-/

namespace TensorGraph

open Tensor (Likeness)

variable {R : Tensor → Tensor → Prop}

/-- Whether two scopes give tensors to the same names, and these tensors are related. -/
def Scope.Related (R : Tensor → Tensor → Prop) (s s' : Scope Tensor) : Prop :=
  ∀ name, Option.Rel R (s.get? name) (s'.get? name)

theorem Tensor.Likeness.rel_refl [Likeness R] (o : Option Tensor) : Option.Rel R o o := by
  cases o with
  | none => exact .none
  | some t => exact .some (refl t)

theorem Tensor.rel_alike_refl (o : Option Tensor) : Option.Rel Tensor.Alike o o :=
  Likeness.rel_refl o

theorem Tensor.rel_alike_symm {o o' : Option Tensor} (h : Option.Rel Tensor.Alike o o') :
    Option.Rel Tensor.Alike o' o := by
  cases h with
  | none => exact .none
  | some h => exact .some h.symm

theorem Tensor.rel_alike_trans {o o' o'' : Option Tensor} (h : Option.Rel Tensor.Alike o o')
    (h' : Option.Rel Tensor.Alike o' o'') : Option.Rel Tensor.Alike o o'' := by
  cases h with
  | none =>
      cases h'
      exact .none
  | some h =>
      cases h' with
      | some h' => exact .some (h.trans h')

namespace Scope.Related

variable {s s' : Scope Tensor}

theorem flip (h : Related R s s') : Related (flip R) s' s := by
  intro name
  have rel := h name
  generalize s.get? name = o at rel ⊢
  generalize s'.get? name = o' at rel ⊢
  cases rel with
  | none => exact .none
  | some h => exact .some h

theorem refl [Likeness R] (s : Scope Tensor) : Related R s s := fun name =>
  Likeness.rel_refl (s.get? name)

theorem bind (h : Related R s s') (name : String) {t t' : Tensor} (ht : R t t') :
    Related R (s.bind name t) (s'.bind name t') := by
  intro other
  rw [get?_bind, get?_bind]
  split
  · exact .some ht
  · exact h other

theorem ofBindings [Likeness R] (names : List String) {ts us : List Tensor}
    (h : List.Forall₂ R ts us) :
    Related R (.ofBindings (names.zip ts)) (.ofBindings (names.zip us)) := by
  have pairs : List.Forall₂ (fun p q : String × Tensor => p.1 = q.1 ∧ R p.2 q.2)
      (names.zip ts).reverse (names.zip us).reverse := by
    refine List.rel_reverse ?_
    induction h generalizing names with
    | nil => simp
    | cons first _ ih =>
        cases names with
        | nil => exact .nil
        | cons name names => exact .cons ⟨rfl, first⟩ (ih names)
  unfold Scope.ofBindings
  generalize (names.zip ts).reverse = ps at pairs ⊢
  generalize (names.zip us).reverse = qs at pairs ⊢
  induction pairs with
  | nil => exact .refl []
  | @cons p q _ _ first _ ih =>
      obtain ⟨name, t⟩ := p
      obtain ⟨_, u⟩ := q
      obtain ⟨rfl, ht⟩ := first
      exact ih.bind name ht

end Scope.Related

variable [Likeness R]

/-! ## Branches -/

theorem conditionOf_alike {t t' : Tensor} (h : R t t') : conditionOf t = conditionOf t' := by
  unfold conditionOf
  rw [Likeness.intList h]

theorem runBranch_alike {n n' : Node} {onTrue onTrue' onFalse onFalse' : Unit → RunResult (List Tensor)}
    {xs ys : Inputs} (h : xs.Related R ys)
    (true : Matches (List.Forall₂ R) (onTrue ()) (onTrue' ()))
    (false : Matches (List.Forall₂ R) (onFalse ()) (onFalse' ())) :
    Matches (List.Forall₂ R) (runBranch n onTrue onFalse xs) (runBranch n' onTrue' onFalse' ys) := by
  have condition : Matches Eq (xs.require 0 >>= conditionOf) (ys.require 0 >>= conditionOf) :=
    h.require_bind 0 conditionOf (fun _ => rfl) fun _ _ => rfl
  refine condition.mapError.bind fun c _ hc => ?_
  subst hc
  exact .ite (fun _ => true) fun _ => false

/-- A branch runs the graph that its condition selects. -/
theorem runBranch_eq_ok_iff {n : Node} {onTrue onFalse : Unit → RunResult (List Tensor)}
    {xs : Inputs} {outs : List Tensor} :
    runBranch n onTrue onFalse xs = .ok outs ↔
      ∃ t c, xs.require 0 = .ok t ∧ conditionOf t = .ok c ∧
        (if c then onTrue () else onFalse ()) = .ok outs := by
  unfold runBranch
  cases ht : xs.require 0 with
  | error e => simp [bind, Except.bind, Except.mapError]
  | ok t =>
      cases hc : conditionOf t with
      | error e => simp [bind, Except.bind, Except.mapError, hc]
      | ok c => cases c <;> simp [bind, Except.bind, Except.mapError, hc]

/-! ## Loops -/

/-- Whether two loops are given the same, up to messages. -/
structure LoopInputs.Related (R : Tensor → Tensor → Prop) (l l' : LoopInputs) : Prop where
  trips : l.trips = l'.trips
  condition : l.condition = l'.condition
  carried : List.Forall₂ R l.carried l'.carried

theorem LoopInputs.ofInputs_alike {xs ys : Inputs} (h : xs.Related R ys) :
    Matches (Related R) (ofInputs xs) (ofInputs ys) := by
  have carried : Matches (List.Forall₂ R) ((xs.drop 2).mapM (orFault OpFault.missingInputs))
      ((ys.drop 2).mapM (orFault OpFault.missingInputs)) :=
    .mapM (List.forall₂_drop 2 h) fun _ _ hab => .orFault hab
  have finish : ∀ (trips : Option Int) (condition : Option Bool), Matches (Related R)
      (if trips.isNone && condition.isNone then
        .error (.unsupportedValue "loop has neither a trip count nor a condition")
      else do
        let carried ← (xs.drop 2).mapM (orFault .missingInputs)
        return { trips := trips, condition := condition, carried := carried } : OpResult LoopInputs)
      (if trips.isNone && condition.isNone then
        .error (.unsupportedValue "loop has neither a trip count nor a condition")
      else do
        let carried ← (ys.drop 2).mapM (orFault .missingInputs)
        return { trips := trips, condition := condition, carried := carried } :
          OpResult LoopInputs) := by
    intro trips condition
    exact .ite (fun _ => .error) fun _ => carried.bind fun _ _ hts => .pure ⟨rfl, rfl, hts⟩
  have first := h.get? 0
  have second := h.get? 1
  unfold ofInputs
  generalize xs.get? 0 = x at first ⊢
  generalize ys.get? 0 = y at first ⊢
  generalize xs.get? 1 = x' at second ⊢
  generalize ys.get? 1 = y' at second ⊢
  cases first
  case' some ht => simp only [Likeness.item? ht Int64]
  all_goals
    refine .bind_same fun trips => ?_
    cases second with
    | none => exact .bind_same (finish trips)
    | some ht =>
        dsimp only
        rw [conditionOf_alike ht]
        exact .bind_same (finish trips)

/-- Whether two values are declared with the same type and shape. -/
structure ValueInfo.SameType (v w : ValueInfo) : Prop where
  type : w.type = v.type
  shape : w.shape = v.shape

/-- Whether two graphs have the same inputs, and outputs of the same types and shapes. -/
structure Graph.SameInterface (g g' : Graph) : Prop where
  inputs : g'.inputs = g.inputs
  outputs : List.Forall₂ ValueInfo.SameType g.outputs g'.outputs

theorem stackTensors_alike {ts us : List Tensor} (h : List.Forall₂ R ts us) :
    Matches R (stackTensors ts) (stackTensors us) := by
  have rows : Matches (List.Forall₂ R) (ts.mapM fun t => reshapeOrFault t (1 :: t.shape))
      (us.mapM fun t => reshapeOrFault t (1 :: t.shape)) :=
    .mapM h fun t u ht => Likeness.matches_of_blind ht
      (fun t => reshapeOrFault t (1 :: t.shape)) Likeness.refl fun _ _ => rfl
  refine rows.bind fun rows rows' hrows => ?_
  cases hrows with
  | nil => exact .error
  | cons first rest =>
      dsimp only
      rw [← Likeness.elementType first, any_elementType_ne (.cons first rest)]
      exact .ite (fun _ => .error) fun _ => .dispatch rfl fun α _ =>
        concatAt_alike α 0 (.cons first rest)

theorem emptyStack_sameType {v w : ValueInfo} (h : v.SameType w) : emptyStack w = emptyStack v := by
  unfold emptyStack
  rw [h.type, h.shape]

namespace LoopState

/-- Whether two loops stand at the same place, with the same values up to messages. -/
structure Related (R : Tensor → Tensor → Prop) (s s' : LoopState) : Prop where
  iteration : s.iteration = s'.iteration
  condition : s.condition = s'.condition
  carried : List.Forall₂ R s.carried s'.carried
  rows : List.Forall₂ (List.Forall₂ R) s.rows s'.rows

variable {s s' : LoopState}

theorem Related.bodyInputs (h : Related R s s') (names : List String) :
    Scope.Related R (s.bodyInputs names) (s'.bodyInputs names) := by
  refine Scope.Related.ofBindings names ?_
  rw [h.iteration, h.condition]
  exact .cons (Likeness.refl _) (.cons (Likeness.refl _) h.carried)

/-- One iteration keeps loops at the same place. -/
theorem Related.next (h : Related R s s') (conditional : Bool) {ts us : List Tensor}
    (houtputs : List.Forall₂ R ts us) :
    Matches (Related R) (s.next conditional ts) (s'.next conditional us) := by
  cases houtputs with
  | nil => exact .error
  | @cons first first' rest rest' hfirst hrest =>
      have length := h.carried.length_eq
      have state : ∀ condition : Bool, Related R
          { iteration := s.iteration + 1
            condition := condition
            carried := rest.take s.carried.length
            rows := rest.drop s.carried.length :: s.rows }
          { iteration := s'.iteration + 1
            condition := condition
            carried := rest'.take s'.carried.length
            rows := rest'.drop s'.carried.length :: s'.rows } := by
        intro condition
        rw [length, h.iteration]
        exact ⟨rfl, rfl, List.forall₂_take _ hrest, .cons (List.forall₂_drop _ hrest) h.rows⟩
      unfold LoopState.next
      dsimp only
      rw [h.condition, conditionOf_alike hfirst]
      exact .ite (fun _ => .bind_same fun c => .pure (state c)) fun _ => .pure (state _)

/-- All iterations do. -/
theorem Related.iterate {runBody runBody' : LoopState → RunResult (List Tensor)}
    (body : ∀ s s' : LoopState, s.Related R s' → Matches (List.Forall₂ R) (runBody s) (runBody' s'))
    (fault fault' : OpFault → RunError) (conditional : Bool) (trips : Nat) (h : Related R s s') :
    Matches (Related R) (iterate runBody fault conditional trips s)
      (iterate runBody' fault' conditional trips s') := by
  induction trips generalizing s s' with
  | zero => exact .ok h
  | succ trips ih =>
      unfold LoopState.iterate
      rw [← h.condition]
      refine .ite (fun _ => ?_) fun _ => .ok h
      exact (body s s' h).bind fun _ _ houtputs =>
        (h.next conditional houtputs).mapError.bind fun _ _ hnext => ih hnext

theorem Related.stackAt (h : Related R s s') {v w : ValueInfo} (hv : v.SameType w) (i : Nat) :
    Matches R (s.stackAt v i) (s'.stackAt w i) := by
  have rows := h.rows
  unfold LoopState.stackAt
  generalize s.rows = rs at rows ⊢
  generalize s'.rows = rs' at rows ⊢
  cases rows with
  | nil =>
      dsimp only
      rw [emptyStack_sameType hv]
      exact .of_eq rfl Likeness.refl
  | cons first rest =>
      refine stackTensors_alike (List.rel_filterMap (fun row row' hrow => ?_)
        (List.rel_reverse (List.Forall₂.cons first rest)))
      induction hrow generalizing i with
      | nil => exact .none
      | cons hd _ ih =>
          cases i with
          | zero => exact .some hd
          | succ i => exact ih i

theorem Related.outputs (h : Related R s s') {body body' : Graph} (same : body.SameInterface body') :
    Matches (List.Forall₂ R) (s.outputs body) (s'.outputs body') := by
  have declared : ∀ {vs ws : List ValueInfo} (k : Nat), List.Forall₂ ValueInfo.SameType vs ws →
      List.Forall₂ (fun p q : ValueInfo × Nat => p.1.SameType q.1 ∧ p.2 = q.2) (vs.zipIdx k)
        (ws.zipIdx k) := by
    intro vs ws k all
    induction all generalizing k with
    | nil => exact .nil
    | cons first _ ih => exact .cons ⟨first, rfl⟩ (ih (k + 1))
  unfold LoopState.outputs
  rw [← h.carried.length_eq]
  refine (Matches.mapM (declared 0 (List.forall₂_drop _ same.outputs))
    fun p q hpq => ?_).bind fun _ _ hscanned => .pure (List.rel_append h.carried hscanned)
  obtain ⟨v, i⟩ := p
  obtain ⟨w, _⟩ := q
  obtain ⟨hv, rfl⟩ := hpq
  exact h.stackAt hv i

end LoopState

theorem runLoop_alike {version : Option Int64} {n n' : Node} {body body' : Graph}
    {runBody runBody' : Scope Tensor → RunResult (List Tensor)} {xs ys : Inputs}
    (h : xs.Related R ys)
    (same : body.SameInterface body')
    (plan : Matches (fun _ _ => True) (body.plan version) (body'.plan version))
    (each : ∀ given given' : Scope Tensor, given.Related R given' →
      Matches (List.Forall₂ R) (runBody given) (runBody' given')) :
    Matches (List.Forall₂ R) (runLoop version n body runBody xs)
      (runLoop version n' body' runBody' ys) := by
  refine (LoopInputs.ofInputs_alike h).mapError.bind fun l l' hl => ?_
  have fits : l'.fits body' = l.fits body := by
    unfold LoopInputs.fits
    rw [same.inputs, same.outputs.length_eq, hl.carried.length_eq]
  have trips : l'.maxTrips = l.maxTrips := by
    unfold LoopInputs.maxTrips
    rw [hl.trips]
  dsimp only
  rw [fits, trips, same.inputs, ← hl.condition]
  refine .ite (fun _ => plan.bind fun _ _ _ => ?_) fun _ => .error
  have start : LoopState.Related R
      { condition := l.condition.getD true, carried := l.carried }
      { condition := l.condition.getD true, carried := l'.carried } :=
    ⟨rfl, rfl, hl.carried, .nil⟩
  refine (start.iterate (fun s s' hs => each _ _ (hs.bodyInputs _)) _ _ _ _).bind
    fun _ _ hfinal => ?_
  rw [← hl.trips, ← hfinal.condition]
  exact .ite (fun _ => .error) fun _ => (hfinal.outputs same).mapError

end TensorGraph
