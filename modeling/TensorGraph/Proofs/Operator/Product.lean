import TensorGraph.Operator.Convolution
import TensorGraph.Operator.MatrixProduct
import TensorGraph.Operator.Pooling
import TensorGraph.Proofs.Tensor.Counted

/-!
# Elements of products and windows

Input:

* storable tensors that are multiplied, convolved, pooled or normalized.

Results:

* products of matrices, convolutions, pools and normalized tensors have as many elements as their
  shape says.
-/

namespace TensorGraph

/-! ## Products of matrices -/

theorem length_matrixProduct {α : Type} [RingOps α] (m k n : Nat) (a b : Nat → Nat → α) :
    (matrixProduct m k n a b).length = m * n := by
  unfold matrixProduct
  rw [length_flatMap_of_length (k := n), List.length_range]
  intro row _
  rw [List.length_map, List.length_range]

/-- A vector has one row. -/
theorem leftFactor_rows {shape batch : List Nat} {m k : Nat}
    (h : leftFactor 1 shape = some (batch, m, k)) :
    elementCount (if 1 < shape.length then [m] else []) = m := by
  match shape, h with
  | [n], h =>
      cases h
      rfl
  | [m, n], h =>
      cases h
      exact Nat.one_mul _
  | d :: e :: f :: rest, h => exact Nat.one_mul _

/-- A vector has one column. -/
theorem rightFactor_columns {shape batch : List Nat} {k n : Nat}
    (h : rightFactor 1 shape = some (batch, k, n)) :
    elementCount (if 1 < shape.length then [n] else []) = n := by
  match shape, h with
  | [n], h =>
      cases h
      rfl
  | [m, n], h =>
      cases h
      exact Nat.one_mul _
  | d :: e :: f :: rest, h => exact Nat.one_mul _

theorem ensures_productAt {α : Type} [Element α] [Arith α] [LawfulElement α] (a b : Tensor) :
    Ensures (productAt α a b) Tensor.Computed := by
  unfold productAt
  split
  · rename_i aBatch m k bBatch bk n hleft hright
    refine Ensures.bind_any fun xs => Ensures.bind_any fun ys => ?_
    split
    · exact Ensures.error
    · refine Ensures.bind_any fun batch => Ensures.pure (Tensor.computed_ofArray ?_)
      rw [List.size_toArray, length_flatMap_of_length (k := m * n), List.length_zip,
        length_broadcastOffsets, length_broadcastOffsets, Nat.min_self, productShape,
        elementCount_append, elementCount_append, leftFactor_rows hleft,
        rightFactor_columns hright, Nat.mul_assoc]
      rintro ⟨i, j⟩ _
      exact length_matrixProduct ..
  · exact Ensures.error

theorem ensures_runMatMul (inputs : Inputs) : Ensures (runMatMul inputs) Tensor.Computed := by
  refine Ensures.bind_any fun a => Ensures.bind_any fun b => ?_
  split
  · exact Ensures.error
  · exact Ensures.dispatchNumeric fun α _ _ _ => ensures_productAt a b

namespace Gemm

theorem ensures_addend {α : Type} [Element α] (c : Tensor) (m n : Nat) :
    Ensures (addend α c m n) fun xs => xs.length = m * n := by
  refine Ensures.bind_any fun xs => ?_
  split
  · refine Ensures.pure ?_
    rw [Array.length_toList, size_takeAt, length_broadcastOffsets, elementCount_cons,
      elementCount_cons, elementCount_nil, Nat.mul_one]
  · exact Ensures.error

theorem ensures_runAt {α : Type} [Element α] [Arith α] [LawfulElement α] (g : Gemm) (a b : Tensor)
    (c : Option Tensor) : Ensures (g.runAt α a b c) Tensor.Computed := by
  unfold runAt
  split
  · refine Ensures.bind_any fun xs => Ensures.bind_any fun ys => ?_
    split
    rename_i m k _
    split
    rename_i bk n _
    split
    · exact Ensures.error
    · have computed : ∀ out : List α, out.length = m * n →
          (Tensor.ofArray [m, n] out.toArray).Computed := by
        intro out hout
        refine Tensor.computed_ofArray ?_
        rw [List.size_toArray, hout, elementCount_cons, elementCount_cons, elementCount_nil,
          Nat.mul_one]
      dsimp only
      cases c with
      | none =>
          refine Ensures.pure (computed _ ?_)
          rw [List.length_map, length_matrixProduct]
      | some c =>
          refine Ensures.bind (ensures_addend c m n) fun added hadded =>
            Ensures.pure (computed _ ?_)
          rw [List.length_map, List.length_zip, List.length_map, length_matrixProduct, hadded,
            Nat.min_self]
  · exact Ensures.error

theorem ensures_run (g : Gemm) (inputs : Inputs) : Ensures (g.run inputs) Tensor.Computed := by
  refine Ensures.bind_any fun a => Ensures.bind_any fun b => ?_
  exact Ensures.dispatchNumeric fun α _ _ _ => g.ensures_runAt a b _

end Gemm

/-! ## Convolutions -/

namespace Conv

theorem ensures_elements {α : Type} [RingOps α] (c : Conv) (xShape wShape : List Nat)
    (x w : Array α) (bias : Option (Array α)) :
    Ensures (c.elements xShape wShape x w bias) fun r => r.2.size = elementCount r.1 := by
  refine Ensures.bind_any fun input => ?_
  obtain ⟨samples, channels, sizes⟩ := input
  refine Ensures.bind_any fun weight => ?_
  obtain ⟨outChannels, groupChannels, kernel⟩ := weight
  dsimp only
  split
  · exact Ensures.error
  · split
    · exact Ensures.error
    · refine Ensures.bind_any fun layout => Ensures.pure ?_
      dsimp only
      rw [List.size_toArray,
        length_flatMap_of_length (k := outChannels * elementCount (placeCounts layout)),
        List.length_range, elementCount_cons, elementCount_cons]
      intro n _
      rw [length_flatMap_of_length (k := elementCount (placeCounts layout)), List.length_range]
      intro m _
      rw [List.length_map, length_indexes]

theorem ensures_run (c : Conv) (inputs : Inputs) : Ensures (c.run inputs) Tensor.Computed := by
  refine Ensures.bind_any fun input => Ensures.bind_any fun weight => ?_
  refine Ensures.dispatchReal fun α _ _ _ => ?_
  refine Ensures.bind_any fun x => Ensures.bind_any fun w => ?_
  have last : ∀ b : Option (Array α), Ensures (do
      let r ← c.elements input.shape weight.shape x w b
      return Tensor.ofArray r.1 r.2) Tensor.Computed := fun b =>
    Ensures.bind (c.ensures_elements _ _ x w b) fun r hr =>
      Ensures.pure (Tensor.computed_ofArray hr)
  dsimp only
  split
  · exact Ensures.bind_any last
  · exact Ensures.bind_any last

end Conv

namespace BatchNormalization

theorem length_normalize {α : Type} [RingOps α] (samples channels planeLength : Nat)
    (x mean factor bias : Array α) :
    (normalize samples channels planeLength x mean factor bias).length =
      samples * (channels * planeLength) := by
  unfold normalize
  rw [length_flatMap_of_length (k := channels * planeLength), List.length_range]
  intro n _
  rw [length_flatMap_of_length (k := planeLength), List.length_range]
  intro c _
  rw [List.length_map, List.length_range]

theorem ensures_runAt {α : Type} [Element α] [RealOps α] [LawfulElement α]
    (b : BatchNormalization) (input scale bias mean variance : Tensor) :
    Ensures (b.runAt α input scale bias mean variance) Tensor.Computed := by
  refine Ensures.bind_any fun x => ?_
  split
  · rename_i samples channels rest hshape
    refine Ensures.bind_any fun scale => Ensures.bind_any fun bias => ?_
    refine Ensures.bind_any fun mean => Ensures.bind_any fun variance => Ensures.pure ?_
    refine Tensor.computed_ofArray ?_
    rw [List.size_toArray, length_normalize, hshape, elementCount_cons, elementCount_cons]
  · exact Ensures.error

theorem ensures_run (b : BatchNormalization) (inputs : Inputs) (outputs : Option Nat) :
    Ensures (b.run inputs outputs) Tensor.Computed := by
  refine Ensures.bind_any fun input => Ensures.bind_any fun scale => Ensures.bind_any fun bias => ?_
  refine Ensures.bind_any fun mean => Ensures.bind_any fun variance => ?_
  split
  · exact Ensures.error
  · exact Ensures.dispatchReal fun α _ _ _ => b.ensures_runAt input scale bias mean variance

end BatchNormalization

/-! ## Pools -/

theorem ensures_poolPlanes {β : Type} (w : Window) (shape : List Nat)
    (f : Nat → List (Option Nat) → β) :
    Ensures (poolPlanes w shape f) fun r => r.2.length = elementCount r.1 := by
  refine Ensures.bind_any fun input => ?_
  obtain ⟨samples, channels, sizes⟩ := input
  refine Ensures.bind_any fun layout => Ensures.pure ?_
  dsimp only
  rw [length_flatMap_of_length (k := elementCount (placeCounts layout)), List.length_range,
    elementCount_cons, elementCount_cons, Nat.mul_assoc]
  intro plane _
  rw [List.length_map, windowOffsets, List.length_map, length_indexes]

theorem MaxPool.ensures_run (p : MaxPool) (inputs : Inputs) (outputs : Option Nat) :
    Ensures (p.run inputs outputs) fun ts => ∀ t ∈ ts, t.Computed := by
  refine Ensures.bind_any fun t => ?_
  refine Ensures.bind (P := fun r => r.1.Computed ∧ r.2.Computed)
    (Ensures.dispatchReal fun α _ _ _ => ?_) fun r hr => Ensures.pure ?_
  · refine Ensures.bind_any fun xs => ?_
    refine Ensures.bind (ensures_poolPlanes _ _ _) fun r hr => Ensures.pure ⟨?_, ?_⟩
    · exact Tensor.computed_ofArray (by rw [List.size_toArray, List.length_map, hr])
    · exact Tensor.computed_ofArray (by rw [List.size_toArray, List.length_map, hr])
  · obtain ⟨out, positions⟩ := r
    dsimp only
    split
    · intro t ht
      rcases List.mem_cons.1 ht with rfl | ht
      · exact hr.1
      · rw [List.mem_singleton.1 ht]
        exact hr.2
    · intro t ht
      rw [List.mem_singleton.1 ht]
      exact hr.1

theorem AveragePool.ensures_run (p : AveragePool) (inputs : Inputs) :
    Ensures (p.run inputs) Tensor.Computed := by
  refine Ensures.bind_any fun t => Ensures.dispatchReal fun α _ _ _ => ?_
  refine Ensures.bind_any fun xs => ?_
  refine Ensures.bind (ensures_poolPlanes _ _ _) fun r hr => Ensures.pure ?_
  exact Tensor.computed_ofArray (by rw [List.size_toArray, hr])

theorem ensures_runGlobalAveragePool (inputs : Inputs) :
    Ensures (runGlobalAveragePool inputs) Tensor.Computed := by
  refine Ensures.bind_any fun t => Ensures.dispatchReal fun α _ _ _ => ?_
  refine Ensures.bind_any fun xs => Ensures.bind_any fun input => ?_
  obtain ⟨samples, channels, sizes⟩ := input
  refine Ensures.pure (Tensor.computed_ofArray ?_)
  have ones : elementCount (sizes.map fun _ => 1) = 1 := by
    rw [elementCount_eq_prod, List.map_const', List.prod_replicate, one_pow]
  rw [List.size_toArray, List.length_map, List.length_range, elementCount_cons, elementCount_cons,
    ones, Nat.mul_one]

end TensorGraph
