import TensorGraph.Operator.Joining
import TensorGraph.Operator.Selection
import TensorGraph.Proofs.Operator.Reduction

/-!
# Elements of moved tensors

Input:

* a storable tensor and a new shape, with the offset of an element for each index of the shape.

Results:

* `ensures_takeTensor` and `ensures_reshapeTo`: the new tensor has as many elements as its shape
  says;
* transposing, gathering, slicing, splitting, repeating and joining are cases of this.
-/

namespace TensorGraph

/-! ## New shapes -/

theorem ensures_takeTensor {t : Tensor} {shape offsets : List Nat}
    (h : offsets.length = elementCount shape) :
    Ensures (takeTensor t shape offsets) Tensor.Computed := by
  refine Ensures.dispatch fun α _ _ => Ensures.bind_any fun xs => Ensures.pure ?_
  exact Tensor.computed_ofArray (by rw [size_takeAt, h])

theorem ensures_reshapeTo {t : Tensor} (h : t.Storable) (shape : List Nat) :
    Ensures (reshapeTo t shape) Tensor.Computed := by
  unfold reshapeTo
  split
  · exact Ensures.error
  · exact ensures_reshapeOrFault h shape

variable {inputs : Inputs}

theorem ensures_runReshape (allowZero : Bool) (h : inputs.Storable) :
    Ensures (runReshape allowZero inputs) Tensor.Computed := by
  refine Ensures.bind (h.require 0) fun t ht => ?_
  exact Ensures.bind_any fun target => Ensures.bind_any fun shape => ensures_reshapeTo ht shape

theorem ensures_runFlatten (axis : Int) (h : inputs.Storable) :
    Ensures (runFlatten axis inputs) Tensor.Computed := by
  refine Ensures.bind (h.require 0) fun t ht => ?_
  exact Ensures.bind_any fun axis => ensures_reshapeTo ht _

theorem ensures_runSqueeze (axes : Option (List Int)) (h : inputs.Storable) :
    Ensures (runSqueeze axes inputs) Tensor.Computed := by
  refine Ensures.bind (h.require 0) fun t ht => Ensures.bind_any fun axes => ?_
  cases axes with
  | none => exact ensures_reshapeTo ht _
  | some axes =>
      refine Ensures.bind_any fun axes => ?_
      split
      · exact Ensures.error
      · exact ensures_reshapeTo ht _

theorem ensures_runUnsqueeze (axes : Option (List Int)) (h : inputs.Storable) :
    Ensures (runUnsqueeze axes inputs) Tensor.Computed := by
  refine Ensures.bind (h.require 0) fun t ht => ?_
  refine Ensures.bind_any fun axes => Ensures.bind_any fun axes => ?_
  exact Ensures.bind_any fun shape => ensures_reshapeTo ht shape

/-! ## Moved elements -/

theorem ensures_runTranspose (perm : Option (List Int)) (inputs : Inputs) :
    Ensures (runTranspose perm inputs) Tensor.Computed := by
  refine Ensures.bind_any fun t => Ensures.bind_any fun perm => ?_
  exact ensures_takeTensor (length_stridedOffsets ..)

theorem ensures_runExpand (inputs : Inputs) : Ensures (runExpand inputs) Tensor.Computed := by
  refine Ensures.bind_any fun t => Ensures.bind_any fun values => Ensures.bind_any fun target => ?_
  exact Ensures.bind_any fun shape => ensures_takeTensor (length_broadcastOffsets ..)

theorem ensures_runNonZero (inputs : Inputs) : Ensures (runNonZero inputs) Tensor.Computed := by
  have length : ∀ (rank : Nat) (found : List (List Nat)),
      ((List.range rank).flatMap fun dim =>
        found.map fun index => Int64.ofNat (index.getD dim 0)).length = rank * found.length := by
    intro rank found
    rw [length_flatMap_of_length (k := found.length), List.length_range]
    intro dim _
    rw [List.length_map]
  refine Ensures.bind_any fun t => Ensures.bind_any fun nonZero => Ensures.pure ?_
  refine Tensor.computed_ofArray ?_
  rw [List.size_toArray, length, elementCount_cons, elementCount_cons, elementCount_nil,
    Nat.mul_one]

theorem length_gatherOffsets (shape positions : List Nat) (axis : Nat) :
    (gatherOffsets shape axis positions).length =
      elementCount (shape.take axis) *
        (positions.length * elementCount (shape.drop (axis + 1))) := by
  unfold gatherOffsets splitAtAxis
  dsimp only
  rw [length_flatMap_of_length (k := positions.length * elementCount (shape.drop (axis + 1))),
    List.length_range]
  intro o _
  rw [length_flatMap_of_length (k := elementCount (shape.drop (axis + 1)))]
  intro position _
  rw [List.length_map, List.length_range]

/-- There is a position for each element of the tensor of indexes. -/
theorem ensures_runGather (axis : Int) (h : inputs.Storable) :
    Ensures (runGather axis inputs) Tensor.Computed := by
  refine Ensures.bind_any fun t => ?_
  intro out hout
  cases hi : Inputs.get? inputs 1 with
  | none => simp [Inputs.require, hi, orFault, bind, Except.bind] at hout
  | some indexTensor =>
      revert hout out
      simp only [Inputs.require, Inputs.requireInts, Inputs.ints?, hi, orFault, bind, Except.bind]
      cases hvalues : indexTensor.intList with
      | error e => exact Ensures.error
      | ok values =>
          have length := Tensor.ensures_intList (h.get? hi) values hvalues
          refine Ensures.bind_any (f := fun axis => _) fun axis => ?_
          refine Ensures.bind (P := fun positions => positions.length = values.length)
            (Ensures.orFault fun positions hp => length_of_mapM_eq_some hp)
            (f := fun positions => _) fun positions hpositions => ?_
          refine ensures_takeTensor ?_
          rw [length_gatherOffsets, hpositions, length, gatherShape, elementCount_append,
            elementCount_append, Nat.mul_assoc]

theorem Slice.ensures_run (s : Slice) (inputs : Inputs) :
    Ensures (s.run inputs) Tensor.Computed := by
  refine Ensures.bind_any fun t => Ensures.bind_any fun bounds => Ensures.bind_any fun ranges => ?_
  exact ensures_takeTensor (length_stridedOffsets ..)

theorem Split.ensures_run (s : Split) (inputs : Inputs) (outputs : Option Nat) :
    Ensures (s.run inputs outputs) fun ts => ∀ t ∈ ts, t.Computed := by
  refine Ensures.bind_any fun t => Ensures.bind_any fun axis => Ensures.bind_any fun sizes => ?_
  exact Ensures.mapM fun part _ => ensures_takeTensor (length_stridedOffsets ..)

theorem ensures_runTile (inputs : Inputs) : Ensures (runTile inputs) Tensor.Computed := by
  refine Ensures.bind_any fun t => Ensures.bind_any fun values => Ensures.bind_any fun repeats => ?_
  split
  · exact Ensures.error
  · exact ensures_takeTensor (by rw [List.length_map, length_indexes])

/-! ## Joined tensors -/

/-- The elements of consecutive chunks, one of each part at a time. -/
theorem length_chunks {α : Type} {parts : List (Array α × Nat)} {outer : Nat}
    (h : ∀ p ∈ parts, p.1.size = outer * p.2) :
    ((List.range outer).flatMap fun i => parts.flatMap fun (xs, chunk) =>
      (xs.extract (i * chunk) ((i + 1) * chunk)).toList).length =
        outer * (parts.map Prod.snd).sum := by
  rw [length_flatMap_of_length (k := (parts.map Prod.snd).sum), List.length_range]
  intro i hi
  have hlt := List.mem_range.1 hi
  induction parts with
  | nil => rfl
  | cons p rest ih =>
      rw [List.flatMap_cons, List.length_append, ih fun q hq => h q (List.mem_cons_of_mem _ hq),
        List.map_cons, List.sum_cons]
      have size := h p List.mem_cons_self
      have inside : (i + 1) * p.2 ≤ p.1.size := by
        rw [size]
        exact Nat.mul_le_mul_right _ hlt
      rw [Array.length_toList, Array.size_extract, Nat.min_eq_left inside, Nat.succ_mul]
      omega

/-- The sum of the sizes along an axis. -/
theorem foldl_sizes_mul (axis inner size : Nat) (ts : List Tensor) :
    ts.foldl (fun size t => size + t.shape.getD axis 0) size * inner =
      size * inner + (ts.map fun t => t.shape.getD axis 0 * inner).sum := by
  induction ts generalizing size with
  | nil => simp
  | cons t rest ih =>
      rw [List.foldl_cons, ih, List.map_cons, List.sum_cons, Nat.add_mul, Nat.add_assoc]

/-- Tensors are joined when their shapes agree apart from the axis and all have the type of elements: the
joined tensor has a chunk of each of them at a time. -/
theorem concatAt_eq_ok_iff {α : Type} [Element α] {axis : Nat} {first : Tensor} {rest : List Tensor}
    {u : Tensor} :
    concatAt α axis (first :: rest) = .ok u ↔
      (∀ t ∈ first :: rest, t.rank = first.rank ∧ t.shape.eraseIdx axis = first.shape.eraseIdx axis) ∧
      ∃ parts : List (Array α × Nat),
        List.Forall₂ (fun t p => t.array? α = some p.1 ∧ p.2 = elementCount (t.shape.drop axis))
          (first :: rest) parts ∧
        u = .ofArray (first.shape.set axis
            ((first :: rest).foldl (fun size t => size + t.shape.getD axis 0) 0))
          ((List.range (elementCount (first.shape.take axis))).flatMap fun i =>
            parts.flatMap fun p => (p.1.extract (i * p.2) ((i + 1) * p.2)).toList).toArray := by
  have part : ∀ (t : Tensor) (p : Array α × Nat),
      (do return ((← t.arrayOf α), elementCount (t.shape.drop axis))) = Except.ok (ε := OpFault) p ↔
        t.array? α = some p.1 ∧ p.2 = elementCount (t.shape.drop axis) := by
    rintro t ⟨xs, chunk⟩
    simp only [bind_eq_ok_iff, Tensor.arrayOf, orFault_eq_ok_iff, pure, Except.pure,
      Except.ok.injEq, Prod.mk.injEq]
    constructor
    · rintro ⟨ys, hys, rfl, rfl⟩
      exact ⟨hys, rfl⟩
    · rintro ⟨hxs, rfl⟩
      exact ⟨xs, hxs, rfl, rfl⟩
  have agree : ((first :: rest).all fun t => t.rank = first.rank &&
      t.shape.eraseIdx axis = first.shape.eraseIdx axis) = true ↔
      ∀ t ∈ first :: rest, t.rank = first.rank ∧ t.shape.eraseIdx axis = first.shape.eraseIdx axis := by
    simp only [List.all_eq_true, Bool.and_eq_true, decide_eq_true_eq]
  unfold concatAt
  dsimp only
  by_cases same : ∀ t ∈ first :: rest,
      t.rank = first.rank ∧ t.shape.eraseIdx axis = first.shape.eraseIdx axis
  · rw [if_pos (agree.2 same), bind_eq_ok_iff]
    simp only [mapM_eq_ok_iff, part]
    simp only [pure, Except.pure, Except.ok.injEq]
    constructor
    · rintro ⟨parts, hparts, rfl⟩
      exact ⟨same, parts, hparts, rfl⟩
    · rintro ⟨-, parts, hparts, rfl⟩
      exact ⟨parts, hparts, rfl⟩
  · rw [if_neg (mt agree.1 same)]
    constructor
    · intro h
      cases h
    · intro h
      exact absurd h.1 same

/-- Joining tensors whose shapes agree apart from an axis. -/
theorem ensures_concatAt {α : Type} [Element α] [LawfulElement α] {axis : Nat} {ts : List Tensor}
    (storable : ∀ t ∈ ts, t.Storable) (haxis : ∀ t, ts.head? = some t → axis < t.rank) :
    Ensures (concatAt α axis ts) Tensor.Computed := by
  unfold concatAt
  cases ts with
  | nil => exact Ensures.error
  | cons first rest =>
      dsimp only
      split
      · rename_i hall
        have hfirst : axis < first.shape.length := haxis first rfl
        have same : ∀ t ∈ first :: rest, axis < t.shape.length ∧
            t.shape.take axis = first.shape.take axis ∧
            t.shape.drop (axis + 1) = first.shape.drop (axis + 1) := by
          intro t ht
          have hsame := List.all_eq_true.1 hall t ht
          simp only [Bool.and_eq_true, decide_eq_true_eq] at hsame
          obtain ⟨hrank, herase⟩ := hsame
          have ht' : axis < t.shape.length := lt_of_lt_of_eq hfirst hrank.symm
          rw [List.eraseIdx_eq_take_drop_succ, List.eraseIdx_eq_take_drop_succ] at herase
          exact ⟨ht', List.append_inj herase (by simp only [List.length_take]; omega)⟩
        generalize first :: rest = ts at storable same
        refine Ensures.bind (Ensures.forall₂_mapM
          (R := fun (t : Tensor) (p : Array α × Nat) =>
            p.1.size = elementCount (first.shape.take axis) * p.2 ∧
              p.2 = t.shape.getD axis 0 * elementCount (first.shape.drop (axis + 1)))
          fun t ht => ?_) fun parts hparts => Ensures.pure (Tensor.computed_ofArray ?_)
        · refine Ensures.bind (Tensor.ensures_arrayOf (storable t ht)) fun xs hxs =>
            Ensures.pure ⟨?_, ?_⟩
          · rw [hxs, ← (same t ht).2.1, elementCount_take_drop]
          · have ht' := (same t ht).1
            rw [← (same t ht).2.2, List.drop_eq_getElem_cons ht', elementCount_cons,
              List.getD_eq_getElem?_getD, List.getElem?_eq_getElem ht', Option.getD_some]
        · have sums : (∀ p ∈ parts, p.1.size = elementCount (first.shape.take axis) * p.2) ∧
              parts.map Prod.snd = ts.map fun t =>
                t.shape.getD axis 0 * elementCount (first.shape.drop (axis + 1)) := by
            clear storable same hall
            induction hparts with
            | nil => simp
            | cons h _ ih =>
                refine ⟨?_, by rw [List.map_cons, List.map_cons, h.2, ih.2]⟩
                intro q hq
                rcases List.mem_cons.1 hq with rfl | hq
                · exact h.1
                · exact ih.1 q hq
          rw [List.size_toArray, length_chunks sums.1, sums.2, elementCount_set hfirst,
            foldl_sizes_mul, Nat.zero_mul, Nat.zero_add]
      · exact Ensures.error

theorem ensures_runConcat (axis : Int) {inputs : Inputs} (h : inputs.Storable) :
    Ensures (runConcat axis inputs) Tensor.Computed := by
  have present := fun t => h.present (t := t)
  unfold runConcat
  generalize Inputs.present inputs = ts at present
  cases ts with
  | nil => exact Ensures.error
  | cons first rest =>
      dsimp only
      split
      · exact Ensures.error
      · refine Ensures.bind (ensures_resolveAxis _ _) fun axis haxis => ?_
        refine Ensures.dispatch fun α _ _ => ensures_concatAt present ?_
        rintro t ⟨⟩
        exact haxis

end TensorGraph
