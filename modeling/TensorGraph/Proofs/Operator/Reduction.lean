import TensorGraph.Operator.Reduction
import TensorGraph.Proofs.Tensor.Counted

/-!
# Elements of reductions

Input:

* a storable tensor and the axes along which it is reduced.

Results:

* each element of a reduced tensor stands for one group or one line of elements, so reductions have
  as many elements as their shape says.
-/

namespace TensorGraph

theorem size_reduceGroups {α : Type} (shape axes : List Nat) (xs : Array α) :
    (reduceGroups shape axes xs).size = elementCount (reducedShape shape axes 1) := by
  have fold : ∀ (l : List (List Nat × α)) (groups : Array (List α)),
      (l.foldl (fun groups p =>
        groups.modify (reducedOffset axes (strides (reducedShape shape axes 1)) p.1) (p.2 :: ·))
        groups).size = groups.size := by
    intro l
    induction l with
    | nil => exact fun _ => rfl
    | cons p rest ih =>
        intro groups
        rw [List.foldl_cons, ih, Array.size_modify]
  unfold reduceGroups
  dsimp only
  rw [Array.size_map, fold, Array.size_replicate]

theorem ensures_reduceTensor {α : Type} [Element α] [Arith α] [LawfulElement α] (t : Tensor) (axes : List Nat) (kind : ReduceKind) :
    Ensures (reduceTensor α t axes kind) Tensor.Computed := by
  refine Ensures.bind_any fun xs => ?_
  refine Ensures.bind (P := fun out => out.length = elementCount (reducedShape t.shape axes 1))
    (Ensures.orFault fun out hout => ?_) fun out hout => Ensures.pure ?_
  · rw [length_of_mapM_eq_some hout, Array.length_toList, size_reduceGroups]
  · exact Tensor.computed_ofArray (by rw [List.size_toArray, hout])

theorem length_axisLines {α : Type} [Inhabited α] (outer size inner : Nat) (xs : Array α) :
    (axisLines outer size inner xs).length = outer * inner := by
  unfold axisLines
  rw [length_flatMap_of_length (k := inner), List.length_range]
  intro o _
  rw [List.length_map, List.length_range]

theorem ensures_reshapeOrFault {t : Tensor} (h : t.Storable) (shape : List Nat) :
    Ensures (reshapeOrFault t shape) Tensor.Computed :=
  Ensures.orFault fun _ hshape => Tensor.computed_of_reshaped? h hshape

theorem Reduction.ensures_run (r : Reduction) {inputs : Inputs} (h : inputs.Storable) :
    Ensures (r.run inputs) Tensor.Storable := by
  refine Ensures.bind (h.require 0) fun t ht => ?_
  dsimp only
  split
  all_goals
    refine Ensures.bind_any fun axes => Ensures.bind_any fun reduced => ?_
    cases reduced with
    | none => exact Ensures.pure ht
    | some axes =>
        refine Ensures.bind (Ensures.dispatchNumeric fun α _ _ _ =>
          ensures_reduceTensor t axes r.kind) fun out hout => ?_
        split
        · exact Ensures.pure hout.storable
        · exact (ensures_reshapeOrFault hout.storable _).mono fun _ h => h.storable

/-- With one axis the dimension at this axis becomes 1. -/
theorem reducedShape_singleton (shape : List Nat) (axis : Nat) :
    reducedShape shape [axis] 1 = shape.set axis 1 := by
  refine List.ext_getElem (by simp [reducedShape]) fun i hi hi' => ?_
  by_cases h : i = axis
  · subst h
    simp [reducedShape]
  · have : ¬ axis = i := fun heq => h heq.symm
    simp [reducedShape, h, this]

theorem ArgSelect.ensures_runAt {α : Type} [Element α] [Arith α] (a : ArgSelect) {t : Tensor}
    {axis : Nat} (haxis : axis < t.rank) : Ensures (a.runAt α t axis) Tensor.Computed := by
  refine Ensures.bind_any fun xs => ?_
  split
  rename_i outer size inner heq
  cases heq
  dsimp only
  split
  · exact Ensures.error
  · refine Ensures.pure (Tensor.computed_ofArray ?_)
    rw [List.size_toArray, List.length_map, length_axisLines, reducedShape_singleton,
      elementCount_set haxis, Nat.one_mul]

theorem ArgSelect.ensures_run (a : ArgSelect) {inputs : Inputs} :
    Ensures (a.run inputs) Tensor.Computed := by
  refine Ensures.bind_any fun t => ?_
  refine Ensures.bind (ensures_resolveAxis _ _) fun axis haxis => ?_
  refine Ensures.bind (Ensures.dispatchNumeric fun α _ _ _ => a.ensures_runAt haxis)
    fun out hout => ?_
  split
  · exact Ensures.pure hout
  · exact ensures_reshapeOrFault hout.storable _

theorem Softmax.ensures_runAt {α : Type} [Element α] [RealOps α] [LawfulElement α] (s : Softmax)
    {t : Tensor} {axis : Nat} (haxis : axis < t.rank) :
    Ensures (s.runAt α t axis) Tensor.Computed := by
  refine Ensures.bind_any fun xs => ?_
  have count : ∀ (outer size inner : Nat) (f : Nat → Nat → Nat → α),
      ((List.range outer).flatMap fun o => (List.range size).flatMap fun k =>
        (List.range inner).map (f o k)).length = outer * (size * inner) := by
    intro outer size inner f
    rw [length_flatMap_of_length (k := size * inner), List.length_range]
    intro o _
    rw [length_flatMap_of_length (k := inner), List.length_range]
    intro k _
    rw [List.length_map, List.length_range]
  split
  rename_i outer size inner heq
  refine Ensures.pure (Tensor.computed_ofArray ?_)
  rw [List.size_toArray, count]
  split at heq
  · cases heq
    rw [Nat.mul_one, elementCount_take_drop]
  · cases heq
    exact elementCount_split haxis 1

theorem Softmax.ensures_run (s : Softmax) {inputs : Inputs} :
    Ensures (s.run inputs) Tensor.Computed := by
  refine Ensures.bind_any fun t => ?_
  refine Ensures.bind (ensures_resolveAxis _ _) fun axis haxis => ?_
  exact Ensures.dispatchReal fun α _ _ _ => s.ensures_runAt haxis

end TensorGraph
