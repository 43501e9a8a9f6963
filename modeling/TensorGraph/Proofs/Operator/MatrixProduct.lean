import TensorGraph.Proofs.Number.Binary32
import TensorGraph.Proofs.Operator.Neutral
import TensorGraph.Proofs.Operator.Product
import TensorGraph.Simplification.Fusion

/-!
# Sums with products of matrices

Input:

* two matrices, and a tensor that is added to their product.

Algorithm:

* a product of two matrices is read as the product of two stacks without batch dimensions
  (`productAt_eq_ok_iff`), and as the first step of a scaled product
  (`Gemm.runAt_default_eq_ok_iff`);
* a tensor that broadcasts to the product does not enlarge it, so that both ways to add it read it at
  the same offsets (`Gemm.runAt_default_of_productAt`).

Main results:

* `Gemm.run_default_of_runMatMul`: the scaled product with factors of one is the sum of the product and
  the third matrix;
* `BinaryFunction.exists_add_exchanged`: sums of single-precision numbers are equal in either order of
  the operands, but for which NaN they are;
* `View.broadcastShapes_of_broadcastsToMatrix`: what rules accept as the third matrix broadcasts to the
  product.
-/

namespace TensorGraph

variable {m k k' n : Nat} {a b c p u : Tensor}

section

variable {α : Type} [Element α] [LawfulElement α] [Arith α]

/-! ## Products of two matrices -/

/-- The elements of the product of two stored matrices. -/
def storedProduct (m k n : Nat) (xs ys : Array α) : List α :=
  matrixProduct m k n (Gemm.entry false k xs) (Gemm.entry false n ys)

omit [LawfulElement α] in
/-- A stack without batch dimensions has one matrix. -/
theorem flatMap_matrixProduct (m k n : Nat) (xs ys : Array α) :
    ((broadcastOffsets [] []).zip (broadcastOffsets [] [])).flatMap (fun x => matrixProduct m k n
      (fun row column => xs.getD (x.1 * (m * k) + row * k + column) default)
      (fun row column => ys.getD (x.2 * (k * n) + row * n + column) default)) =
    storedProduct m k n xs ys := by
  have single : (broadcastOffsets [] []).zip (broadcastOffsets [] []) = [(0, 0)] := rfl
  rw [single, List.flatMap_singleton]
  simp only [Nat.zero_mul, Nat.zero_add]
  rfl

omit [LawfulElement α] in
/-- Two matrices are multiplied row by column. -/
theorem productAt_eq_ok_iff (ha : a.shape = [m, k]) (hb : b.shape = [k', n]) :
    productAt α a b = .ok p ↔ ∃ xs ys : Array α, a.array? α = some xs ∧ b.array? α = some ys ∧
      k = k' ∧ p = .ofArray [m, n] (storedProduct m k n xs ys).toArray := by
  unfold productAt Tensor.arrayOf
  rw [ha, hb]
  simp only [leftFactor, rightFactor, bind_eq_ok_iff, orFault_eq_ok_iff]
  refine exists_congr fun xs => ?_
  constructor
  · rintro ⟨hxs, ys, hys, h⟩
    split_ifs at h with inner
    · obtain ⟨batch, hbatch, h⟩ := bind_eq_ok_iff.1 h
      cases orFault_eq_ok_iff.1 hbatch
      cases h
      exact ⟨ys, hxs, hys, not_not.1 inner, by rw [← flatMap_matrixProduct]; rfl⟩
  · rintro ⟨ys, hxs, hys, rfl, rfl⟩
    refine ⟨hxs, ys, hys, ?_⟩
    rw [if_neg (not_not.2 rfl)]
    refine bind_eq_ok_iff.2 ⟨[], orFault_eq_ok_iff.2 rfl, ?_⟩
    rw [← flatMap_matrixProduct]
    rfl

namespace Gemm

omit [LawfulElement α] in
theorem scaled_one (x : α) : scaled .one x = x := if_pos (by decide)

omit [LawfulElement α] in
theorem map_scaled_one (l : List α) : l.map (scaled .one) = l :=
  (List.map_congr_left fun x _ => scaled_one x).trans (List.map_id' l)

omit [LawfulElement α] [Arith α] in
theorem addend_eq_ok_iff {l : List α} :
    addend α c m n = .ok l ↔ ∃ zs : Array α, c.array? α = some zs ∧
      broadcastShapes c.shape [m, n] = some [m, n] ∧
      l = (takeAt zs (broadcastOffsets c.shape [m, n])).toList := by
  unfold addend Tensor.arrayOf
  simp only [bind_eq_ok_iff, orFault_eq_ok_iff]
  refine exists_congr fun zs => and_congr_right fun _ => ?_
  split_ifs with fits
  · simp [fits, pure, Except.pure, eq_comm]
  · simp [fits]

omit [LawfulElement α] in
/-- Factors of one leave the product and the third matrix as they are. -/
theorem runAt_default_eq_ok_iff (ha : a.shape = [m, k]) (hb : b.shape = [k', n]) :
    runAt α {} a b (some c) = .ok u ↔ ∃ xs ys : Array α, a.array? α = some xs ∧
      b.array? α = some ys ∧ k = k' ∧ ∃ added, addend α c m n = .ok added ∧
      u = .ofArray [m, n] (((storedProduct m k n xs ys).zip added).map
        fun q => RingOps.add q.1 q.2).toArray := by
  unfold runAt Tensor.arrayOf
  rw [ha, hb]
  simp only [bind_eq_ok_iff, orFault_eq_ok_iff, Bool.false_eq_true, if_false, map_scaled_one,
    scaled_one]
  refine exists_congr fun xs => ?_
  constructor
  · rintro ⟨hxs, ys, hys, h⟩
    split_ifs at h with inner
    · obtain ⟨added, hadded, h⟩ := bind_eq_ok_iff.1 h
      cases h
      exact ⟨ys, hxs, hys, not_not.1 inner, added, hadded, rfl⟩
  · rintro ⟨ys, hxs, hys, rfl, added, hadded, rfl⟩
    refine ⟨hxs, ys, hys, ?_⟩
    rw [if_neg (not_not.2 rfl), hadded]
    rfl

end Gemm

end

/-! ## Sums of single-precision numbers -/

/-- A tensor that broadcasts to the product of two matrices is added to it by the scaled product with
factors of one. -/
theorem Gemm.runAt_default_of_productAt (ha : a.shape = [m, k]) (hb : b.shape = [k', n])
    (hc : c.Counted) (fits : broadcastShapes c.shape [m, n] = some [m, n])
    (hp : productAt Binary32 a b = .ok p)
    (hu : binaryMap (fun x y : Binary32 => some (RingOps.add x y)) p c = .ok u) :
    runAt Binary32 {} a b (some c) = .ok u := by
  obtain ⟨xs, ys, hxs, hys, inner, rfl⟩ := (productAt_eq_ok_iff ha hb).1 hp
  have size : (storedProduct m k n xs ys).toArray.size = elementCount [m, n] := by
    rw [List.size_toArray, storedProduct, length_matrixProduct, elementCount_eq_prod]
    simp
  have counted := (Tensor.computed_ofArray size).storable.counted
  obtain ⟨out, xs', zs, sums, hout, hxs', hzs, hsums, rfl⟩ :=
    (binaryMap_eq_ok_iff counted hc).1 hu
  have shape : out = [m, n] := by
    rw [broadcastShapes_comm] at fits
    exact Option.some.inj (hout.symm.trans fits)
  subst shape
  cases hxs'
  replace hsums : zipElements _ (takeAt _ (broadcastOffsets [m, n] [m, n])) _ = some sums := hsums
  rw [zipElements_some, takeAt_broadcastOffsets_self size] at hsums
  cases hsums
  exact (runAt_default_eq_ok_iff ha hb).2
    ⟨xs, ys, hxs, hys, inner, _, addend_eq_ok_iff.2 ⟨zs, hzs, fits, rfl⟩, rfl⟩

/-- Products of single-precision matrices. -/
theorem runMatMul_eq_productAt (type : a.elementType = .float32)
    (hp : runMatMul [some a, some b] = .ok p) : productAt Binary32 a b = .ok p := by
  obtain ⟨a', ha', hp⟩ := bind_eq_ok_iff.1 hp
  cases ha'
  obtain ⟨b', hb', hp⟩ := bind_eq_ok_iff.1 hp
  cases hb'
  split_ifs at hp
  rwa [type] at hp

theorem BinaryFunction.run_add_eq (type : a.elementType = .float32) :
    BinaryFunction.add.run a b = binaryMap (fun x y : Binary32 => some (RingOps.add x y)) a b := by
  change numeric a b _ = _
  rw [numeric, type]
  rfl

/-- The scaled product with factors of one is the sum of the product and the third matrix. -/
theorem Gemm.run_default_of_runMatMul (ha : a.shape = [m, k]) (hb : b.shape = [k', n])
    (type : a.elementType = .float32) (hc : c.Counted)
    (fits : broadcastShapes c.shape [m, n] = some [m, n]) (hp : runMatMul [some a, some b] = .ok p)
    (hu : BinaryFunction.add.run p c = .ok u) :
    Gemm.run {} [some a, some b, some c] = .ok u := by
  replace hp := runMatMul_eq_productAt type hp
  have product : p.elementType = .float32 := by
    obtain ⟨xs, ys, -, -, -, rfl⟩ := (productAt_eq_ok_iff ha hb).1 hp
    rfl
  have sum : runAt Binary32 {} a b (some c) = .ok u :=
    runAt_default_of_productAt ha hb hc fits hp
      ((BinaryFunction.run_add_eq product).symm.trans hu)
  change a.elementType.dispatchNumeric (fun α _ _ => runAt α {} a b (some c)) = .ok u
  rw [type]
  exact sum

/-- Whether two tensors of single-precision numbers are equal, where any NaN takes the place of any
other. -/
structure Tensor.EqualUpToNaN (a b : Tensor) : Prop where
  shape : a.shape = b.shape
  elements : ∃ xs ys, a.elements = .float32 xs ∧ b.elements = .float32 ys ∧
    List.Forall₂ (fun x y => x = y ∨ x.isNaN = true ∧ y.isNaN = true) xs.toList ys.toList

theorem Tensor.EqualUpToNaN.refl {xs : Array Binary32} (h : u.elements = .float32 xs) :
    u.EqualUpToNaN u :=
  ⟨rfl, xs, xs, h, h, List.forall₂_same.2 fun _ _ => .inl rfl⟩

theorem Tensor.EqualUpToNaN.elementType (h : a.EqualUpToNaN b) : a.elementType = b.elementType := by
  obtain ⟨-, xs, ys, hxs, hys, -⟩ := h
  rw [Tensor.elementType, Tensor.elementType, hxs, hys]
  rfl

theorem exists_binaryMap_add_exchanged (ha : a.Counted) (hb : b.Counted)
    (h : binaryMap (fun x y : Binary32 => some (RingOps.add x y)) a b = .ok u) :
    ∃ w, binaryMap (fun x y : Binary32 => some (RingOps.add x y)) b a = .ok w ∧
      u.EqualUpToNaN w := by
  obtain ⟨out, xs, ys, zs, hout, hxs, hys, hzs, rfl⟩ := (binaryMap_eq_ok_iff ha hb).1 h
  rw [zipElements_some] at hzs
  cases hzs
  rw [broadcastShapes_comm] at hout
  refine ⟨_, (binaryMap_eq_ok_iff hb ha).2 ⟨out, ys, xs, _, hout, hys, hxs, zipElements_some .., rfl⟩,
    rfl, _, _, rfl, rfl, ?_⟩
  rw [← List.zip_swap, List.map_map, List.forall₂_map_left_iff, List.forall₂_map_right_iff]
  exact List.forall₂_same.2 fun q _ => Binary32.add_comm_or_isNaN q.2 q.1

/-- A sum of single-precision tensors is the same in either order, but for which NaN it has. -/
theorem BinaryFunction.exists_add_exchanged (ha : a.Counted) (hb : b.Counted)
    (typeA : a.elementType = .float32) (typeB : b.elementType = .float32)
    (h : BinaryFunction.add.run a b = .ok u) :
    ∃ w, BinaryFunction.add.run b a = .ok w ∧ u.EqualUpToNaN w := by
  rw [run_add_eq typeA] at h
  obtain ⟨w, hw, same⟩ := exists_binaryMap_add_exchanged ha hb h
  exact ⟨w, (run_add_eq typeB).trans hw, same⟩

/-- The sum of a product and a third matrix, in either order, is the scaled product with factors of one,
but for which NaN it has. -/
theorem Gemm.exists_run_default (ha : a.shape = [m, k]) (hb : b.shape = [k', n])
    (typeA : a.elementType = .float32) (typeC : c.elementType = .float32) (hc : c.Counted)
    (fits : broadcastShapes c.shape [m, n] = some [m, n]) (hp : runMatMul [some a, some b] = .ok p)
    (hu : BinaryFunction.add.run p c = .ok u ∨ BinaryFunction.add.run c p = .ok u) :
    ∃ w, Gemm.run {} [some a, some b, some c] = .ok w ∧ BinaryFunction.add.run p c = .ok w ∧
      u.EqualUpToNaN w := by
  obtain ⟨xs, ys, -, -, -, product⟩ :=
    (productAt_eq_ok_iff ha hb).1 (runMatMul_eq_productAt typeA hp)
  have typeP : p.elementType = .float32 := product ▸ rfl
  have hp' : p.Counted := (ensures_runMatMul _ p hp).storable.counted
  obtain ⟨w, sum, same⟩ : ∃ w, BinaryFunction.add.run p c = .ok w ∧ u.EqualUpToNaN w := by
    rcases hu with hu | hu
    · obtain ⟨_, _, _, _, -, -, -, -, rfl⟩ :=
        (binaryMap_eq_ok_iff hp' hc).1 ((BinaryFunction.run_add_eq typeP).symm.trans hu)
      exact ⟨_, hu, .refl rfl⟩
    · exact BinaryFunction.exists_add_exchanged hc hp' typeC typeP hu
  exact ⟨w, run_default_of_runMatMul ha hb typeA hc fits hp sum, sum, same⟩

/-! ## Tensors that can be added to a product -/

/-- A tensor that can be added to a matrix does not enlarge it, whatever the number of rows is. -/
theorem View.broadcastShapes_of_broadcastsToMatrix {shape : List Nat} {rows : Dim}
    {σ : String → Int} (h : broadcastsToMatrix shape rows n = true) (hm : rows.Holds σ m) :
    broadcastShapes shape [m, n] = some [m, n] := by
  have repeats : ∀ {d d' : Nat}, d = 1 ∨ d = d' → broadcastSize d d' = some d' := by
    rintro d d' (rfl | rfl)
    · unfold broadcastSize
      split_ifs <;> simp_all
    · exact broadcastSize_self d
  unfold broadcastsToMatrix at h
  split at h
  · rfl
  · rename_i d
    simp only [Bool.or_eq_true, decide_eq_true_iff] at h
    simp [broadcastShapes, broadcastReversed, repeats h]
  · rename_i d e
    simp only [Bool.and_eq_true, Bool.or_eq_true, decide_eq_true_iff] at h
    have first : d = 1 ∨ d = m := h.2.imp_right fun fixed => by
      subst fixed
      exact hm
    simp [broadcastShapes, broadcastReversed, repeats h.1, repeats first]
  · cases h

end TensorGraph
