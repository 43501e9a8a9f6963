import Mathlib.Data.List.Range
import TensorGraph.Proofs.Tensor.Counted

/-!
# Indexes and their offsets

Input:

* the indexes of a shape, in row-major order, and strides for its dimensions.

With its own strides the offset of an index is its position among all indexes
(`map_offsetOf_indexes`).  This place is read off the index as a number is read off its digits
(`rowMajor_cons`), so the indexes of a shape that is put together of two shapes are put together of their
indexes.  A permutation of the dimensions permutes each index, and an offset stays the same when index and
strides are permuted together (`offsetOf_permuted`).

Main results:

* `takeAt_rowMajor`: taking all elements in row-major order changes nothing;
* `rowMajor_append` and `indexes_append`: the place of an index that is put together of two, and all such
  indexes;
* `exists_rowMajor_eq`: each place is that of an index;
* `takeAt_takeAt_permuted`: elements that are laid out by some strides, and then by permuted strides of
  their own shape, are those that the permuted strides lay out.
-/

namespace TensorGraph

/-! ## Positions of indexes -/

theorem mem_indexes {shape index : List Nat} :
    index ∈ indexes shape ↔ List.Forall₂ (· < ·) index shape := by
  induction shape generalizing index with
  | nil => simp [indexes]
  | cons n rest ih =>
      cases index with
      | nil => simp [indexes]
      | cons i index => simp [indexes, ih]

theorem length_of_mem_indexes {shape index : List Nat} (h : index ∈ indexes shape) :
    index.length = shape.length :=
  (mem_indexes.1 h).length_eq

/-- Blocks of equal length, one after the other, count on. -/
theorem flatMap_range_add (n k : Nat) :
    ((List.range n).flatMap fun i => (List.range k).map (i * k + ·)) = List.range (n * k) := by
  induction n with
  | zero => simp
  | succ n ih =>
      rw [List.range_succ, List.flatMap_append, ih, Nat.succ_mul, List.range_add]
      simp

@[simp] theorem length_strides (shape : List Nat) : (strides shape).length = shape.length := by
  induction shape with
  | nil => rfl
  | cons n rest ih => simp [strides, ih]

theorem offsetOf_strides_nonneg (index shape : List Nat) :
    0 ≤ offsetOf index ((strides shape).map Nat.cast) := by
  induction shape generalizing index with
  | nil => cases index <;> simp [strides, offsetOf]
  | cons n rest ih =>
      cases index with
      | nil => simp [offsetOf]
      | cons i index =>
          have first : (0 : Int) ≤ i * elementCount rest :=
            Int.mul_nonneg (Int.natCast_nonneg _) (Int.natCast_nonneg _)
          simpa [strides, offsetOf] using Int.add_nonneg first (ih index)

/-- The offset of an index with the strides of its shape is its position. -/
theorem map_offsetOf_indexes (shape : List Nat) :
    ((indexes shape).map fun index => (offsetOf index ((strides shape).map Nat.cast)).toNat) =
      List.range (elementCount shape) := by
  induction shape with
  | nil => rfl
  | cons n rest ih =>
      rw [elementCount_cons, ← flatMap_range_add, ← ih, indexes, List.map_flatMap]
      refine List.flatMap_congr fun i _ => ?_
      rw [List.map_map, List.map_map]
      refine List.map_congr_left fun index _ => ?_
      have nonneg := offsetOf_strides_nonneg index rest
      simp only [strides, List.map_cons, Function.comp_apply, offsetOf]
      rw [← Int.natCast_mul, Int.toNat_add (Int.natCast_nonneg _) nonneg, Int.toNat_natCast]

/-- An index stands at its offset. -/
theorem getElem?_indexes {shape index : List Nat} (h : index ∈ indexes shape) :
    (indexes shape)[(offsetOf index ((strides shape).map Nat.cast)).toNat]? = some index := by
  obtain ⟨k, hk⟩ := List.getElem?_of_mem h
  have position := congrArg (fun l : List Nat => l[k]?) (map_offsetOf_indexes shape)
  obtain ⟨bound, -⟩ := List.getElem?_eq_some_iff.1 hk
  rw [length_indexes] at bound
  simp only [List.getElem?_map, hk, Option.map_some, List.getElem?_range bound,
    Option.some.injEq] at position
  rw [position, hk]

/-- The offset of an index is in range. -/
theorem toNat_offsetOf_lt {shape index : List Nat} (h : index ∈ indexes shape) :
    (offsetOf index ((strides shape).map Nat.cast)).toNat < elementCount shape := by
  obtain ⟨bound, -⟩ := List.getElem?_eq_some_iff.1 (getElem?_indexes h)
  rwa [length_indexes] at bound

theorem stridedOffsets_strides (shape : List Nat) :
    stridedOffsets shape ((strides shape).map Nat.cast) 0 = List.range (elementCount shape) := by
  rw [← map_offsetOf_indexes, stridedOffsets]
  simp

/-- All elements in row-major order. -/
theorem takeAt_rowMajor {α : Type} [Inhabited α] {xs : Array α} {shape : List Nat}
    (h : xs.size = elementCount shape) :
    takeAt xs (stridedOffsets shape ((strides shape).map Nat.cast) 0) = xs := by
  rw [stridedOffsets_strides, ← h]
  refine Array.ext (by simp [takeAt]) fun i h₁ h₂ => ?_
  simp [takeAt, h₂]

/-! ## Places in row-major order -/

/-- The place of an index among all indexes of a shape. -/
def rowMajor (shape index : List Nat) : Nat :=
  (offsetOf index ((strides shape).map Nat.cast)).toNat

theorem natCast_rowMajor (shape index : List Nat) :
    (rowMajor shape index : Int) = offsetOf index ((strides shape).map Nat.cast) :=
  Int.toNat_of_nonneg (offsetOf_strides_nonneg index shape)

@[simp] theorem rowMajor_nil_left (index : List Nat) : rowMajor [] index = 0 := by
  cases index <;> rfl

@[simp] theorem rowMajor_nil_right (shape : List Nat) : rowMajor shape [] = 0 := by
  cases shape <;> rfl

theorem rowMajor_cons (n i : Nat) (shape index : List Nat) :
    rowMajor (n :: shape) (i :: index) = i * elementCount shape + rowMajor shape index := by
  have whole := natCast_rowMajor (n :: shape) (i :: index)
  have rest := natCast_rowMajor shape index
  simp only [strides, List.map_cons, offsetOf] at whole
  rw [← rest, ← Nat.cast_mul, ← Nat.cast_add] at whole
  exact Int.ofNat.inj whole

/-- The place of an index that is put together of two is counted in blocks. -/
theorem rowMajor_append {first before : List Nat} (h : before.length = first.length)
    (second after : List Nat) :
    rowMajor (first ++ second) (before ++ after) =
      rowMajor first before * elementCount second + rowMajor second after := by
  induction first generalizing before with
  | nil =>
      obtain rfl := List.eq_nil_of_length_eq_zero h
      simp
  | cons n first ih =>
      cases before with
      | nil => cases h
      | cons i before =>
          have rest := ih (Nat.succ.inj h)
          simp only [List.cons_append, rowMajor_cons, rest, elementCount_append]
          ring

theorem rowMajor_lt {shape index : List Nat} (h : index ∈ indexes shape) :
    rowMajor shape index < elementCount shape :=
  toNat_offsetOf_lt h

/-- An index stands at its place. -/
theorem getElem?_rowMajor {shape index : List Nat} (h : index ∈ indexes shape) :
    (indexes shape)[rowMajor shape index]? = some index :=
  getElem?_indexes h

/-- Each place is that of an index. -/
theorem exists_rowMajor_eq {shape : List Nat} {k : Nat} (h : k < elementCount shape) :
    ∃ index ∈ indexes shape, rowMajor shape index = k := by
  have place : k ∈ (indexes shape).map (rowMajor shape) := by
    rw [show (indexes shape).map (rowMajor shape) = List.range (elementCount shape) from
      map_offsetOf_indexes shape]
    exact List.mem_range.2 h
  exact List.mem_map.1 place

/-- Indexes at the same place are the same. -/
theorem rowMajor_inj {shape index index' : List Nat} (h : index ∈ indexes shape)
    (h' : index' ∈ indexes shape) (same : rowMajor shape index = rowMajor shape index') :
    index = index' := by
  have first := getElem?_rowMajor h
  rw [same, getElem?_rowMajor h'] at first
  exact (Option.some.inj first).symm

/-- Indexes are numbered by their places. -/
theorem zipIdx_indexes (shape : List Nat) :
    (indexes shape).zipIdx = (indexes shape).map fun index => (index, rowMajor shape index) := by
  have places : (indexes shape).map (rowMajor shape) = List.range (elementCount shape) :=
    map_offsetOf_indexes shape
  rw [List.zipIdx_eq_zip_range', length_indexes, ← List.range_eq_range', ← places,
    ← List.map_prod_left_eq_zip]

/-- A list that is put together of one list for each number has the members of these in blocks. -/
theorem getElem?_flatMap_rowMajor {β : Type} {f : Nat → List β} {n i : Nat} {shape index : List Nat}
    (length : ∀ i, (f i).length = elementCount shape) (hi : i < n) (h : index ∈ indexes shape) :
    ((List.range n).flatMap f)[rowMajor (n :: shape) (i :: index)]? = (f i)[rowMajor shape index]? := by
  rw [rowMajor_cons]
  exact getElem?_flatMap_of_length (fun i _ => length i) (List.getElem?_range hi) (rowMajor_lt h)

/-- What depends on the place alone is listed by the places. -/
theorem flatMap_rowMajor {α : Type} (shape : List Nat) (f : Nat → List α) :
    ((indexes shape).flatMap fun index => f (rowMajor shape index)) =
      (List.range (elementCount shape)).flatMap f := by
  rw [← map_offsetOf_indexes, List.flatMap_map]
  rfl

theorem indexes_append (first second : List Nat) :
    indexes (first ++ second) =
      (indexes first).flatMap fun before => (indexes second).map (before ++ ·) := by
  induction first with
  | nil => simp [indexes]
  | cons n first ih =>
      rw [List.cons_append, indexes, indexes, List.flatMap_assoc]
      refine List.flatMap_congr fun i _ => ?_
      rw [ih, List.flatMap_map, List.map_flatMap]
      refine List.flatMap_congr fun before _ => ?_
      rw [List.map_map]
      rfl

theorem mem_indexes_append {first second index : List Nat} :
    index ∈ indexes (first ++ second) ↔
      ∃ before ∈ indexes first, ∃ after ∈ indexes second, before ++ after = index := by
  rw [indexes_append, List.mem_flatMap]
  simp only [List.mem_map]

theorem mem_indexes_cons {n : Nat} {shape index : List Nat} :
    index ∈ indexes (n :: shape) ↔ ∃ i < n, ∃ rest ∈ indexes shape, i :: rest = index := by
  simp [indexes]

/-! ## Permuted dimensions -/

/-- The members of a list in another order, which is given by their positions. -/
def permuted {α : Type} (order : List Nat) (xs : List α) (default : α) : List α :=
  order.map fun k => xs.getD k default

section

variable {α : Type} {order : List Nat} {xs : List α} {d : α}

@[simp] theorem length_permuted : (permuted order xs d).length = order.length := by
  simp [permuted]

/-- The positions themselves in another order. -/
theorem permuted_range (n : Nat) (h : xs.length = n) :
    permuted (List.range n) xs d = xs := by
  subst h
  refine List.ext_getElem (by simp) fun i h₁ h₂ => ?_
  simp [permuted, h₂]

/-- What is permuted twice is permuted once, by the permuted order. -/
theorem permuted_permuted {first : List Nat} (h : ∀ k ∈ order, k < first.length) (j : Nat) :
    permuted order (permuted first xs d) d = permuted (permuted order first j) xs d := by
  unfold permuted
  rw [List.map_map]
  refine List.map_congr_left fun k hk => ?_
  simp [h k hk]

theorem map_permuted {β : Type} (f : α → β) :
    (permuted order xs d).map f = permuted order (xs.map f) (f d) := by
  unfold permuted
  rw [List.map_map]
  refine List.map_congr_left fun k _ => ?_
  simp [List.getD_eq_getElem?_getD, Option.getD_map]

end

theorem offsetOf_eq_sum {index : List Nat} {steps : List Int} :
    offsetOf index steps = ((index.zip steps).map fun p => (p.1 : Int) * p.2).sum := by
  induction index generalizing steps with
  | nil => simp [offsetOf]
  | cons i index ih =>
      cases steps with
      | nil => simp [offsetOf]
      | cons step steps => simp [offsetOf, ih]

theorem zip_permuted {α β : Type} (order : List Nat) (xs : List α) (ys : List β) (a : α) (b : β) :
    (permuted order xs a).zip (permuted order ys b) =
      order.map fun k => (xs.getD k a, ys.getD k b) := by
  unfold permuted
  rw [List.zip_map']

/-- An offset does not depend on the order of the dimensions. -/
theorem offsetOf_permuted {order index : List Nat} {steps : List Int}
    (perm : order.Perm (List.range steps.length)) (h : index.length = steps.length) :
    offsetOf (permuted order index 0) (permuted order steps 0) = offsetOf index steps := by
  have plain : index.zip steps =
      (List.range steps.length).map fun k => (index.getD k 0, steps.getD k 0) := by
    rw [← zip_permuted, permuted_range _ h, permuted_range _ rfl]
  rw [offsetOf_eq_sum, offsetOf_eq_sum, zip_permuted, plain]
  exact ((perm.map _).map _).sum_eq

/-- The indexes of a permuted shape are permuted indexes. -/
theorem exists_permuted_of_mem_indexes {order shape index : List Nat}
    (perm : order.Perm (List.range shape.length)) (h : index ∈ indexes (permuted order shape 1)) :
    ∃ index' ∈ indexes shape, permuted order index' 0 = index := by
  have nodup : order.Nodup := perm.nodup_iff.2 List.nodup_range
  have valid := mem_indexes.1 h
  have length : index.length = order.length := by simpa using valid.length_eq
  refine ⟨(List.range shape.length).map fun i => index.getD (order.idxOf i) 0, ?_, ?_⟩
  · rw [mem_indexes, List.forall₂_iff_get]
    refine ⟨by simp, fun i h₁ h₂ => ?_⟩
    have found : order.idxOf i < order.length :=
      List.idxOf_lt_length_of_mem (perm.mem_iff.2 (List.mem_range.2 h₂))
    have at_i := (List.forall₂_iff_get.1 valid).2 (order.idxOf i) (by omega) (by simpa using found)
    simpa [permuted, found, length, h₂] using at_i
  · refine List.ext_getElem (by simp [length]) fun j h₁ h₂ => ?_
    have hj : j < order.length := by simpa using h₁
    have bound : order[j] < shape.length :=
      List.mem_range.1 (perm.mem_iff.1 (List.getElem_mem hj))
    simp [permuted, bound, nodup.idxOf_getElem, h₂]

/-! ## Taking elements twice -/

theorem takeAt_takeAt {α : Type} [Inhabited α] (xs : Array α) {first second : List Nat}
    (h : ∀ k ∈ second, k < first.length) :
    takeAt (takeAt xs first) second = takeAt xs (second.map fun k => first.getD k 0) := by
  unfold takeAt
  rw [List.map_map]
  congr 1
  refine List.map_congr_left fun k hk => ?_
  simp [h k hk]

/-- Elements that are laid out by some strides, and then by permuted strides of their own shape, are
those that the permuted strides lay out. -/
theorem takeAt_takeAt_permuted {α : Type} [Inhabited α] (xs : Array α) {shape order : List Nat}
    {steps : List Int} (h : steps.length = shape.length)
    (perm : order.Perm (List.range shape.length)) :
    takeAt (takeAt xs (stridedOffsets shape steps 0))
        (stridedOffsets (permuted order shape 1) (permuted order ((strides shape).map Nat.cast) 0)
          0) =
      takeAt xs (stridedOffsets (permuted order shape 1) (permuted order steps 0) 0) := by
  -- Each offset of the permuted shape is the position of an index of the shape.
  have position : ∀ index ∈ indexes (permuted order shape 1), ∃ index' ∈ indexes shape,
      offsetOf index (permuted order ((strides shape).map Nat.cast) 0) =
          offsetOf index' ((strides shape).map Nat.cast) ∧
        offsetOf index (permuted order steps 0) = offsetOf index' steps := by
    intro index hindex
    obtain ⟨index', mem, rfl⟩ := exists_permuted_of_mem_indexes perm hindex
    have length := length_of_mem_indexes mem
    exact ⟨index', mem, offsetOf_permuted (by simpa using perm) (by simpa using length),
      offsetOf_permuted (by rwa [h]) (by rw [length, h])⟩
  rw [takeAt_takeAt]
  · unfold stridedOffsets
    rw [List.map_map]
    refine congrArg (takeAt xs) (List.map_congr_left fun index hindex => ?_)
    obtain ⟨index', mem, inner, outer⟩ := position index hindex
    simp [inner, outer, List.getD_eq_getElem?_getD, getElem?_indexes mem]
  · intro k hk
    obtain ⟨index, hindex, rfl⟩ := List.mem_map.1 hk
    obtain ⟨index', mem, inner, -⟩ := position index hindex
    obtain ⟨bound, -⟩ := List.getElem?_eq_some_iff.1 (getElem?_indexes mem)
    simpa [inner, stridedOffsets] using bound

end TensorGraph
