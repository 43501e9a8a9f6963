import Mathlib.Algebra.BigOperators.Ring.List
import Mathlib.Data.List.GetD
import TensorGraph.Proofs.Operator.Layout
import TensorGraph.Proofs.Operator.Slice
import TensorGraph.Proofs.Tensor.Typed

/-!
# Parts of an axis, and tensors that are joined along it

Input:

* a tensor that is divided along an axis, or tensors that are joined.

The axes before the divided one number the rows of the elements, and all rows have the same width.  A part
takes a run of each row (`partElements`), and joined tensors have rows that are put together of one row
of each of them.  So both directions come down to one row: the runs from the starts of the parts make up
the row (`flatMap_partStarts`), and the run from the start of a part of a row that is put together is that part
(`forall₂_partStarts`).

Main result:

* `split_concat_inverse`: the parts of a tensor join to the tensor, and joined tensors are the parts of the
  joined tensor.
-/

namespace TensorGraph

/-! ## Rows -/

section

variable {α β : Type} {xs : List α}

/-- A row of elements, when all rows have the same width. -/
def rowOf (xs : List α) (width i : Nat) : List α := (xs.drop (i * width)).take width

theorem length_rowOf {count width i : Nat} (h : xs.length = count * width) (hi : i < count) :
    (rowOf xs width i).length = width := by
  have inside : (i + 1) * width ≤ xs.length := h ▸ Nat.mul_le_mul_right width hi
  rw [Nat.succ_mul] at inside
  rw [rowOf, List.length_take, List.length_drop]
  omega

/-- The rows make up the elements. -/
theorem flatMap_rowOf {count width : Nat} (h : xs.length = count * width) :
    (List.range count).flatMap (rowOf xs width) = xs := by
  have first : ∀ n, (List.range n).flatMap (rowOf xs width) = xs.take (n * width) := by
    intro n
    induction n with
    | zero => simp
    | succ n ih =>
        rw [List.range_succ, List.flatMap_append, ih, List.flatMap_singleton, rowOf, ← List.take_add,
          Nat.succ_mul]
  rw [first, ← h, List.take_length]

theorem toList_extract_mul (xs : Array α) (width i : Nat) :
    (xs.extract (i * width) ((i + 1) * width)).toList = rowOf xs.toList width i := by
  rw [Array.toList_extract, List.extract_eq_take_drop, ← Nat.sub_mul, Nat.add_sub_cancel_left,
    Nat.one_mul, rowOf]

/-- The rows of rows that are put together. -/
theorem rowOf_flatMap_range {f : Nat → List α} {count width i : Nat}
    (h : ∀ k < count, (f k).length = width) (hi : i < count) :
    rowOf ((List.range count).flatMap f) width i = f i :=
  take_drop_flatMap (fun k hk => h k (List.mem_range.1 hk)) (List.getElem?_range hi)

/-- The elements of a part: a run of each row. -/
def partElements (xs : List α) (count width start size : Nat) : List α :=
  (List.range count).flatMap fun i => ((rowOf xs width i).drop start).take size

/-! ## Runs of one row -/

/-- The runs from the starts of the parts make up a row, from the first start on. -/
theorem flatMap_partStarts (xs : List α) (inner start : Nat) (sizes : List Nat) :
    ((partStarts start sizes).flatMap fun p => (xs.drop (p.1 * inner)).take (p.2 * inner)) =
      (xs.drop (start * inner)).take (sizes.sum * inner) := by
  induction sizes generalizing start with
  | nil => simp [partStarts]
  | cons n sizes ih =>
      rw [partStarts, List.flatMap_cons, ih, List.sum_cons, Nat.add_mul n, List.take_add,
        List.drop_drop, Nat.add_mul]

/-- The run from the start of a part of a row that is put together is that part.  This holds of all rows at
the same starts. -/
theorem forall₂_partStarts {inner count : Nat} (rows : Nat → β → List α) (size : β → Nat)
    (front : Nat → List α) (start : Nat) {parts : List β}
    (h : ∀ p ∈ parts, ∀ i < count, (rows i p).length = size p * inner)
    (hfront : ∀ i < count, (front i).length = start * inner) :
    List.Forall₂ (fun q p => q.2 = size p ∧ ∀ i < count,
        ((front i ++ parts.flatMap (rows i)).drop (q.1 * inner)).take (q.2 * inner) = rows i p)
      (partStarts start (parts.map size)) parts := by
  induction parts generalizing front start with
  | nil => exact .nil
  | cons p parts ih =>
      have first := h p List.mem_cons_self
      refine .cons ⟨rfl, ?_⟩ ?_
      · intro i hi
        rw [List.drop_left' (hfront i hi), List.flatMap_cons, List.take_left' (first i hi)]
      · -- The first part stands before the others.
        have others := ih (fun i => front i ++ rows i p) (start + size p)
          (fun q hq => h q (List.mem_cons_of_mem _ hq)) (by
            intro i hi
            rw [List.length_append, hfront i hi, first i hi, Nat.add_mul])
        simpa only [List.flatMap_cons, List.append_assoc] using others

/-- A part ends before the axis does. -/
theorem add_le_of_mem_partStarts {start : Nat} {sizes : List Nat} {p : Nat × Nat}
    (h : p ∈ partStarts start sizes) : p.1 + p.2 ≤ start + sizes.sum := by
  induction sizes generalizing start with
  | nil => cases h
  | cons n sizes ih =>
      rw [partStarts] at h
      rw [List.sum_cons]
      rcases List.mem_cons.1 h with rfl | h
      · exact Nat.add_le_add_left (Nat.le_add_right n _) start
      · have later := ih h
        omega

section

variable {inner count : Nat} {rows : Nat → β → List α} {size : β → Nat} {parts : List β}

/-- Rows that are put together are as wide as all their parts. -/
theorem length_joined (h : ∀ p ∈ parts, ∀ i < count, (rows i p).length = size p * inner) {i : Nat}
    (hi : i < count) : (parts.flatMap (rows i)).length = (parts.map size).sum * inner := by
  rw [List.length_flatMap, ← List.sum_map_mul_right]
  exact congrArg List.sum (List.map_congr_left fun p hp => h p hp i hi)

/-- The parts of rows that are put together are the elements that were put together. -/
theorem forall₂_partElements (h : ∀ p ∈ parts, ∀ i < count, (rows i p).length = size p * inner) :
    List.Forall₂ (fun q p => q.2 = size p ∧
        partElements ((List.range count).flatMap fun i => parts.flatMap (rows i)) count
          ((parts.map size).sum * inner) (q.1 * inner) (q.2 * inner) =
            (List.range count).flatMap fun i => rows i p)
      (partStarts 0 (parts.map size)) parts := by
  refine (forall₂_partStarts rows size (fun _ => []) 0 h (by simp)).imp ?_
  rintro q p ⟨hsize, runs⟩
  refine ⟨hsize, List.flatMap_congr fun i hi => ?_⟩
  have inside := List.mem_range.1 hi
  rw [rowOf_flatMap_range (fun k => length_joined h) inside]
  exact runs i inside

end

end

/-! ## Elements of a part -/

theorem drop_eq_getD_cons {shape : List Nat} {axis : Nat} (h : axis < shape.length) :
    shape.drop axis = shape.getD axis 0 :: shape.drop (axis + 1) := by
  rw [List.drop_eq_getElem_cons h, List.getD_eq_getElem?_getD, List.getElem?_eq_getElem h,
    Option.getD_some]

theorem getD_strides {shape : List Nat} {axis : Nat} (h : axis < shape.length) :
    (strides shape).getD axis 0 = elementCount (shape.drop (axis + 1)) := by
  induction shape generalizing axis with
  | nil => cases h
  | cons n shape ih =>
      cases axis with
      | zero => rfl
      | succ axis => exact ih (Nat.lt_of_succ_lt_succ h)

/-- The offsets of a part count the rows, and then the elements of a row from the start of the part on. -/
theorem stridedOffsets_part (first second : List Nat) (n start size : Nat) :
    stridedOffsets (first ++ size :: second) ((strides (first ++ n :: second)).map Nat.cast)
        ((start * elementCount second : Nat) : Int) =
      (List.range (elementCount first)).flatMap fun i =>
        (List.range (size * elementCount second)).map fun k =>
          i * (n * elementCount second) + start * elementCount second + k := by
  unfold stridedOffsets
  rw [indexes_append, List.map_flatMap, ← flatMap_rowMajor first fun i =>
    (List.range (size * elementCount second)).map fun k =>
      i * (n * elementCount second) + start * elementCount second + k]
  refine List.flatMap_congr fun before hbefore => ?_
  rw [← elementCount_cons size, ← map_offsetOf_indexes, List.map_map, List.map_map]
  refine List.map_congr_left fun after hafter => ?_
  obtain ⟨i, -, rest, -, rfl⟩ := mem_indexes_cons.1 hafter
  have place := rowMajor_append (length_of_mem_indexes hbefore) (n :: second) (i :: rest)
  rw [elementCount_cons, rowMajor_cons n i second rest, ← rowMajor_cons size i second rest] at place
  simp only [Function.comp_apply, ← natCast_rowMajor, ← Nat.cast_add, Int.toNat_natCast, place]
  omega

/-- The elements at offsets that count on. -/
theorem toList_takeAt_range {α : Type} [Inhabited α] {xs : Array α} {base size : Nat}
    (h : base + size ≤ xs.size) :
    (takeAt xs ((List.range size).map (base + ·))).toList = (xs.toList.drop base).take size := by
  refine List.ext_getElem ?_ ?_
  · simp only [takeAt, List.length_map, List.length_range, List.length_take, List.length_drop,
      Array.length_toList]
    omega
  · intro k hk _
    have bound : base + k < xs.size := by
      simp only [takeAt, List.length_map, List.length_range] at hk
      omega
    simp [takeAt, Array.getD, bound]

theorem toList_takeAt_flatMap {α β : Type} [Inhabited α] (xs : Array α) (l : List β)
    (f : β → List Nat) :
    (takeAt xs (l.flatMap f)).toList = l.flatMap fun b => (takeAt xs (f b)).toList := by
  simp only [takeAt, List.map_flatMap]

/-- A run of a row is a run of all elements. -/
theorem take_drop_rowOf {α : Type} (xs : List α) {width start size : Nat} (h : start + size ≤ width)
    (i : Nat) :
    ((rowOf xs width i).drop start).take size = (xs.drop (i * width + start)).take size := by
  rw [rowOf, List.drop_take, List.drop_drop, List.take_take, Nat.min_eq_left (by omega)]

/-- A part of an axis, given by its start and its size, of an array with a shape. -/
def partOf {α : Type} [Element α] (shape : List Nat) (xs : Array α) (axis : Nat) (p : Nat × Nat) :
    Tensor :=
  .ofArray (shape.set axis p.2)
    (partElements xs.toList (elementCount (shape.take axis)) (elementCount (shape.drop axis))
      (p.1 * elementCount (shape.drop (axis + 1))) (p.2 * elementCount (shape.drop (axis + 1)))).toArray

theorem elementCount_drop {shape : List Nat} {axis : Nat} (h : axis < shape.length) :
    elementCount (shape.drop axis) = shape.getD axis 0 * elementCount (shape.drop (axis + 1)) := by
  rw [drop_eq_getD_cons h, elementCount_cons]

variable {α : Type} [Element α] [TypedElement α] {t u : Tensor} {xs : Array α} {axis : Nat}

theorem takePart_of_array? (counted : t.Counted) (hxs : t.array? α = some xs)
    (haxis : axis < t.shape.length) {p : Nat × Nat} (inside : p.1 + p.2 ≤ t.shape.getD axis 0) :
    takePart t axis p.1 p.2 = .ok (partOf t.shape xs axis p) := by
  have whole := counted.size_of_array? hxs
  rw [← elementCount_take_drop t.shape axis] at whole
  have width := elementCount_drop haxis
  have offsets := stridedOffsets_part (t.shape.take axis) (t.shape.drop (axis + 1))
    (t.shape.getD axis 0) p.1 p.2
  rw [← drop_eq_getD_cons haxis, List.take_append_drop, ← width] at offsets
  have step : ((strides t.shape).map Int.ofNat).getD axis 0 =
      (elementCount (t.shape.drop (axis + 1)) : Int) := by
    rw [← getD_strides haxis]
    exact List.getD_map _ 0 Int.ofNat
  have run : p.1 * elementCount (t.shape.drop (axis + 1)) +
      p.2 * elementCount (t.shape.drop (axis + 1)) ≤ elementCount (t.shape.drop axis) := by
    rw [width, ← Nat.add_mul]
    exact Nat.mul_le_mul_right _ inside
  unfold takePart partOf
  dsimp only
  rw [takeTensor_of_array? hxs, step, List.set_eq_take_append_cons_drop, if_pos haxis, ← Nat.cast_mul]
  refine congrArg (fun ys : Array α => Except.ok (Tensor.ofArray _ ys)) ?_
  rw [← Array.toList_inj]
  refine (congrArg (fun l => (takeAt xs l).toList) offsets).trans ?_
  rw [toList_takeAt_flatMap]
  refine List.flatMap_congr fun i hi => ?_
  have bound : i * elementCount (t.shape.drop axis) + elementCount (t.shape.drop axis) ≤ xs.size := by
    rw [whole, ← Nat.succ_mul]
    exact Nat.mul_le_mul_right _ (List.mem_range.1 hi)
  rw [toList_takeAt_range (by omega), take_drop_rowOf _ run]

/-! ## Parts that are joined -/

theorem map_snd_partStarts (start : Nat) (sizes : List Nat) :
    (partStarts start sizes).map Prod.snd = sizes := by
  induction sizes generalizing start with
  | nil => rfl
  | cons n sizes ih => rw [partStarts, List.map_cons, ih]

theorem drop_set_self {shape : List Nat} (h : axis < shape.length) (n : Nat) :
    (shape.set axis n).drop axis = n :: shape.drop (axis + 1) := by
  rw [List.set_eq_take_append_cons_drop, if_pos h, List.drop_left' (by rw [List.length_take]; omega)]

theorem take_set_self (shape : List Nat) (n : Nat) : (shape.set axis n).take axis = shape.take axis :=
  List.take_set_of_le (le_refl axis)

/-- A row of a part is a run of the row of the whole. -/
theorem rowOf_partElements {α : Type} {xs : List α} {count width start size i : Nat}
    (whole : xs.length = count * width) (inside : start + size ≤ width) (hi : i < count) :
    rowOf (partElements xs count width start size) size i =
      ((rowOf xs width i).drop start).take size := by
  refine rowOf_flatMap_range (fun k hk => ?_) hi
  rw [List.length_take, List.length_drop, length_rowOf whole hk]
  omega

/-! ## Joined rows -/

section

variable {α : Type} [Element α] {t u first : Tensor} {rest : List Tensor} {xs : Array α} {axis : Nat}

/-- The elements of a tensor if they have the type asked for, with the width of its rows. -/
def rowsOf (α : Type) [Element α] (axis : Nat) (t : Tensor) : Array α × Nat :=
  ((t.array? α).getD #[], elementCount (t.shape.drop axis))

theorem rowsOf_of_array? (h : t.array? α = some xs) :
    rowsOf α axis t = (xs, elementCount (t.shape.drop axis)) := by
  rw [rowsOf, h, Option.getD_some]

/-- A row of a tensor. -/
def rowAt (α : Type) [Element α] (axis i : Nat) (t : Tensor) : List α :=
  rowOf (rowsOf α axis t).1.toList (rowsOf α axis t).2 i

/-- A row of joined tensors has a row of each of them. -/
def joinedRow (α : Type) [Element α] (axis : Nat) (ts : List Tensor) (i : Nat) : List α :=
  ts.flatMap (rowAt α axis i)

/-- Tensors of a type of elements are joined row by row. -/
theorem concatAt_eq_ok_iff_rows :
    concatAt α axis (first :: rest) = .ok u ↔
      (∀ t ∈ first :: rest, t.rank = first.rank ∧ t.shape.eraseIdx axis = first.shape.eraseIdx axis ∧
        ∃ xs, t.array? α = some xs) ∧
      u = .ofArray (first.shape.set axis ((first :: rest).map fun t => t.shape.getD axis 0).sum)
        ((List.range (elementCount (first.shape.take axis))).flatMap
          (joinedRow α axis (first :: rest))).toArray := by
  have sums : (first :: rest).foldl (fun size t => size + t.shape.getD axis 0) 0 =
      ((first :: rest).map fun t => t.shape.getD axis 0).sum := by
    rw [List.sum_eq_foldl, List.foldl_map]
  have rows : ∀ i, (((first :: rest).map (rowsOf α axis)).flatMap fun p =>
      (p.1.extract (i * p.2) ((i + 1) * p.2)).toList) = joinedRow α axis (first :: rest) i := by
    intro i
    simp only [List.flatMap_map, toList_extract_mul]
    rfl
  rw [concatAt_eq_ok_iff, sums]
  constructor
  · rintro ⟨same, parts, hparts, rfl⟩
    obtain rfl : (first :: rest).map (rowsOf α axis) = parts := by
      rw [← List.forall₂_eq_eq_eq, List.forall₂_map_left_iff]
      refine hparts.imp fun t p ⟨elements, size⟩ => ?_
      rw [rowsOf_of_array? elements, ← size]
    refine ⟨fun t ht => ⟨(same t ht).1, (same t ht).2, ?_⟩, by simp only [rows]⟩
    rw [List.forall₂_map_right_iff, List.forall₂_same] at hparts
    exact ⟨_, (hparts t ht).1⟩
  · rintro ⟨each, rfl⟩
    refine ⟨fun t ht => ⟨(each t ht).1, (each t ht).2.1⟩, (first :: rest).map (rowsOf α axis), ?_, ?_⟩
    · rw [List.forall₂_map_right_iff, List.forall₂_same]
      intro t ht
      obtain ⟨-, -, xs, hxs⟩ := each t ht
      rw [rowsOf_of_array? hxs]
      exact ⟨hxs, rfl⟩
    · simp only [rows]

/-- Shapes that agree apart from an axis differ in its size alone. -/
theorem eq_set_of_eraseIdx_eq {shape shape' : List Nat} (length : shape.length = shape'.length)
    (same : shape.eraseIdx axis = shape'.eraseIdx axis) (h : axis < shape'.length) :
    shape = shape'.set axis (shape.getD axis 0) := by
  have h' : axis < shape.length := length.symm ▸ h
  rw [List.eraseIdx_eq_take_drop_succ, List.eraseIdx_eq_take_drop_succ] at same
  obtain ⟨before, after⟩ := List.append_inj same (by simp only [List.length_take]; omega)
  rw [List.set_eq_take_append_cons_drop, if_pos h, ← before, ← after, ← drop_eq_getD_cons h',
    List.take_append_drop]

end

/-! ## Both directions -/

section

variable {α : Type} [Element α] [TypedElement α] {t u : Tensor} {xs : Array α} {axis : Nat}

omit [TypedElement α] in
/-- The sizes of the parts. -/
theorem map_size_partOf {shape : List Nat} (haxis : axis < shape.length) (start : Nat)
    (sizes : List Nat) :
    ((partStarts start sizes).map (partOf shape xs axis)).map (fun t => t.shape.getD axis 0) = sizes := by
  refine Eq.trans ?_ (map_snd_partStarts start sizes)
  rw [List.map_map]
  refine List.map_congr_left fun p _ => ?_
  simp [partOf, Tensor.ofArray, haxis]

theorem rowsOf_partOf {shape : List Nat} (haxis : axis < shape.length) (p : Nat × Nat) :
    rowsOf α axis (partOf shape xs axis p) =
      ((partElements xs.toList (elementCount (shape.take axis)) (elementCount (shape.drop axis))
        (p.1 * elementCount (shape.drop (axis + 1)))
        (p.2 * elementCount (shape.drop (axis + 1)))).toArray,
          p.2 * elementCount (shape.drop (axis + 1))) := by
  have array : (partOf shape xs axis p).array? α = some _ := Tensor.array?_ofArray
  rw [rowsOf_of_array? array, ← elementCount_cons p.2, ← drop_set_self haxis]
  rfl

/-- The rows of the parts, one after the other, are the rows of the whole. -/
theorem joinedRow_parts {shape sizes : List Nat} {i : Nat}
    (whole : xs.size = elementCount shape) (haxis : axis < shape.length)
    (total : sizes.sum = shape.getD axis 0) (hi : i < elementCount (shape.take axis)) :
    joinedRow α axis ((partStarts 0 sizes).map (partOf shape xs axis)) i =
      rowOf xs.toList (elementCount (shape.drop axis)) i := by
  have width := elementCount_drop haxis
  rw [← elementCount_take_drop shape axis, ← Array.length_toList] at whole
  have runs := flatMap_partStarts (rowOf xs.toList (elementCount (shape.drop axis)) i)
    (elementCount (shape.drop (axis + 1))) 0 sizes
  rw [total, ← width, Nat.zero_mul, List.drop_zero,
    List.take_of_length_le (le_of_eq (length_rowOf whole hi))] at runs
  rw [← runs, joinedRow, List.flatMap_map]
  refine List.flatMap_congr fun p hp => ?_
  have inside : p.1 + p.2 ≤ shape.getD axis 0 := by
    have bound := add_le_of_mem_partStarts hp
    rwa [Nat.zero_add, total] at bound
  rw [rowAt, rowsOf_partOf haxis]
  refine rowOf_partElements whole ?_ hi
  rw [width, ← Nat.add_mul]
  exact Nat.mul_le_mul_right _ inside

/-- The parts of an axis are joined to the whole. -/
theorem concatAt_parts (counted : t.Counted) (hxs : t.array? α = some xs)
    (haxis : axis < t.shape.length) {sizes : List Nat} (nonempty : sizes ≠ [])
    (total : sizes.sum = t.shape.getD axis 0) :
    concatAt α axis ((partStarts 0 sizes).map (partOf t.shape xs axis)) =
      .ok { t with source := none } := by
  have whole := counted.size_of_array? hxs
  obtain ⟨first, rest, hparts⟩ : ∃ first rest,
      (partStarts 0 sizes).map (partOf t.shape xs axis) = first :: rest := by
    refine List.exists_cons_of_ne_nil fun none => nonempty ?_
    rw [← map_snd_partStarts 0 sizes, List.map_eq_nil_iff.1 none, List.map_nil]
  have shapes : ∀ u ∈ first :: rest, ∃ p, u = partOf t.shape xs axis p := by
    intro u hu
    rw [← hparts] at hu
    obtain ⟨p, -, rfl⟩ := List.mem_map.1 hu
    exact ⟨p, rfl⟩
  obtain ⟨p, rfl⟩ := shapes first List.mem_cons_self
  have same : t.shape.set axis (t.shape.getD axis 0) = t.shape :=
    (eq_set_of_eraseIdx_eq rfl rfl haxis).symm
  rw [hparts, concatAt_eq_ok_iff_rows, ← hparts, map_size_partOf haxis, total]
  constructor
  · intro u hu
    obtain ⟨q, rfl⟩ := shapes u (hparts ▸ hu)
    refine ⟨?_, ?_, _, Tensor.array?_ofArray⟩
    · simp only [partOf, Tensor.ofArray, Tensor.rank, List.length_set]
    · simp only [partOf, Tensor.ofArray, List.eraseIdx_set_eq]
  · have first : (partOf t.shape xs axis p).shape = t.shape.set axis p.2 := rfl
    rw [Tensor.array?_eq_some_iff.1 hxs, first, List.set_set, take_set_self, same]
    refine congrArg _ (Array.toList_inj.1 ?_)
    have rows : xs.toList.length = elementCount (t.shape.take axis) * elementCount (t.shape.drop axis) := by
      rw [Array.length_toList, whole, elementCount_take_drop]
    refine (flatMap_rowOf rows).symm.trans (List.flatMap_congr fun i hi => ?_)
    exact (joinedRow_parts whole haxis total (List.mem_range.1 hi)).symm

/-- Whether a tensor has elements of a type, and a shape that agrees with another one apart from an axis. -/
structure Tensor.Along (α : Type) [Element α] (shape : List Nat) (axis : Nat) (t : Tensor) : Prop where
  counted : t.Counted
  array : ∃ xs, t.array? α = some xs
  shape_eq : t.shape = shape.set axis (t.shape.getD axis 0)

namespace Tensor.Along

variable {shape : List Nat} {i : Nat}

theorem rowsOf_eq (h : t.Along α shape axis) (haxis : axis < shape.length) :
    ∃ xs : Array α, t.array? α = some xs ∧
      rowsOf α axis t = (xs, t.shape.getD axis 0 * elementCount (shape.drop (axis + 1))) ∧
      xs.toList.length = elementCount (shape.take axis) *
        (t.shape.getD axis 0 * elementCount (shape.drop (axis + 1))) := by
  obtain ⟨xs, hxs⟩ := h.array
  refine ⟨xs, hxs, ?_, ?_⟩
  · have width : elementCount (t.shape.drop axis) =
        t.shape.getD axis 0 * elementCount (shape.drop (axis + 1)) := by
      rw [← elementCount_cons, ← drop_set_self haxis, ← h.shape_eq]
    rw [rowsOf_of_array? hxs, width]
  · rw [Array.length_toList, h.counted.size_of_array? hxs, ← elementCount_set haxis, ← h.shape_eq]

theorem length_rowAt (h : t.Along α shape axis) (haxis : axis < shape.length)
    (hi : i < elementCount (shape.take axis)) :
    (rowAt α axis i t).length = t.shape.getD axis 0 * elementCount (shape.drop (axis + 1)) := by
  obtain ⟨xs, -, hrows, length⟩ := h.rowsOf_eq haxis
  rw [rowAt, hrows]
  exact length_rowOf length hi

/-- The tensor has the elements of all its rows. -/
theorem eq_ofArray_rows (h : t.Along α shape axis) (haxis : axis < shape.length) :
    { t with source := none } = ofArray (shape.set axis (t.shape.getD axis 0))
      ((List.range (elementCount (shape.take axis))).flatMap fun i => rowAt α axis i t).toArray := by
  obtain ⟨xs, hxs, hrows, length⟩ := h.rowsOf_eq haxis
  have rows : ((List.range (elementCount (shape.take axis))).flatMap fun i => rowAt α axis i t) =
      xs.toList := by
    simp only [rowAt, hrows]
    exact flatMap_rowOf length
  rw [rows, ← h.shape_eq]
  exact array?_eq_some_iff.1 hxs

end Tensor.Along

omit [TypedElement α] in
/-- A part of a shape whose size at the axis was replaced. -/
theorem partOf_set {shape : List Nat} (haxis : axis < shape.length) (n : Nat) (p : Nat × Nat) :
    partOf (shape.set axis n) xs axis p = .ofArray (shape.set axis p.2)
      (partElements xs.toList (elementCount (shape.take axis))
        (n * elementCount (shape.drop (axis + 1))) (p.1 * elementCount (shape.drop (axis + 1)))
        (p.2 * elementCount (shape.drop (axis + 1)))).toArray := by
  rw [partOf, List.set_set, take_set_self, drop_set_self haxis, elementCount_cons,
    List.drop_set_of_lt (Nat.lt_succ_self axis)]

/-- Joined tensors are the parts of the joined tensor that have their sizes along the axis. -/
theorem takePart_of_concatAt {first : Tensor} {rest : List Tensor}
    (counted : ∀ t ∈ first :: rest, t.Counted) (haxis : axis < first.shape.length)
    (h : concatAt α axis (first :: rest) = .ok u) :
    List.Forall₂ (fun p t => takePart u axis p.1 p.2 = .ok { t with source := none })
      (partStarts 0 ((first :: rest).map fun t => t.shape.getD axis 0)) (first :: rest) := by
  have joined := concatAt_eq_ok_iff_rows.1 h
  generalize first :: rest = ts at counted joined
  obtain ⟨each, hu⟩ := joined
  have along : ∀ t ∈ ts, t.Along α first.shape axis := by
    intro t ht
    obtain ⟨rank, same, array⟩ := each t ht
    exact ⟨counted t ht, array, eq_set_of_eraseIdx_eq rank same haxis⟩
  have length : ∀ t ∈ ts, ∀ i < elementCount (first.shape.take axis), (rowAt α axis i t).length =
      t.shape.getD axis 0 * elementCount (first.shape.drop (axis + 1)) :=
    fun t ht i => (along t ht).length_rowAt haxis
  -- The joined tensor has an axis of the sum of the sizes.
  have counted_u : u.Counted := by
    rw [hu]
    refine (Tensor.computed_ofArray ?_).storable.counted
    rw [List.size_toArray, elementCount_set haxis, length_flatMap_of_length, List.length_range]
    exact fun i hi => length_joined length (List.mem_range.1 hi)
  have hshape : u.shape = first.shape.set axis (ts.map fun t => t.shape.getD axis 0).sum :=
    congrArg Tensor.shape hu
  have array : u.array? α = some _ := hu ▸ Tensor.array?_ofArray
  have haxis_u : axis < u.shape.length := by
    rwa [hshape, List.length_set]
  have size_u : u.shape.getD axis 0 = (ts.map fun t => t.shape.getD axis 0).sum := by
    simp [hshape, haxis]
  have parts : List.Forall₂ (fun p t => (p.2 = t.shape.getD axis 0 ∧ _) ∧ t ∈ ts)
      (partStarts 0 (ts.map fun t => t.shape.getD axis 0)) ts :=
    (forall₂_imp_of_mem (forall₂_partElements length).flip fun t ht p h => And.intro h ht).flip
  refine forall₂_imp_of_mem parts fun p hp t ⟨⟨size, elements⟩, ht⟩ => ?_
  have inside : p.1 + p.2 ≤ u.shape.getD axis 0 := by
    have bound := add_le_of_mem_partStarts hp
    rwa [Nat.zero_add, ← size_u] at bound
  rw [takePart_of_array? counted_u array haxis_u inside, (along t ht).eq_ofArray_rows haxis, ← elements,
    hshape, partOf_set haxis, size]
  rfl

end

/-! ## The sizes of the parts -/

/-- Equal parts make up the axis, though some of the last ones may be smaller or empty. -/
theorem sum_evenSplit {size n : Nat} {sizes : List Nat} (h : evenSplit size n = .ok sizes) :
    sizes.sum = size := by
  have first : ∀ chunk m, ((List.range m).map fun i => min chunk (size - i * chunk)).sum =
      min size (m * chunk) := by
    intro chunk m
    induction m with
    | zero => simp
    | succ m ih =>
        rw [List.range_succ, List.map_append, List.sum_append, ih, List.map_singleton,
          List.sum_singleton, Nat.succ_mul]
        omega
  unfold evenSplit at h
  split at h
  · cases h
  · rename_i positive
    cases h
    have covered : ¬ divideUp size n * n < size := fun less =>
      absurd ((lt_divideUp_iff (Nat.pos_of_ne_zero positive)).2 less) (lt_irrefl _)
    rw [first, Nat.min_eq_left]
    rw [Nat.mul_comm]
    exact Nat.le_of_not_lt covered

variable {s : Split} {inputs : Inputs} {outputs : Option Nat}

namespace Split

theorem sum_partSizes {size : Nat} {sizes : List Nat}
    (h : s.partSizes size inputs outputs = .ok sizes) : sizes.sum = size := by
  obtain ⟨given, -, h⟩ := bind_eq_ok_iff.1 h
  split at h
  · obtain ⟨values, -, h⟩ := bind_eq_ok_iff.1 h
    split at h
    · cases h
    · rename_i same
      cases h
      rw [List.sum_eq_foldl]
      exact Decidable.not_not.1 same
  · obtain ⟨n, -, h⟩ := bind_eq_ok_iff.1 h
    exact sum_evenSplit h

/-- Given sizes that make up the axis are the sizes of the parts. -/
theorem partSizes_of_given {given : Option (List Int)} {sizes : List Nat}
    (hgiven : inputs.ints? 1 = .ok given) (h : given.or s.sizes = some (sizes.map Int.ofNat)) :
    s.partSizes sizes.sum inputs outputs = .ok sizes := by
  have values : toSizes (sizes.map Int.ofNat) = .ok sizes := by
    have all : (sizes.map Int.ofNat).all (0 ≤ ·) = true := by simp
    have back : (sizes.map Int.ofNat).map Int.toNat = sizes := by
      rw [List.map_map]
      exact List.map_id' sizes
    rw [toSizes, if_pos all, back]
  have total : sizes.foldl (· + ·) 0 = sizes.sum := List.sum_eq_foldl.symm
  unfold partSizes
  simp only [hgiven, h, values, bind, Except.bind, total, ne_eq, not_true_eq_false, if_false]
  rfl

end Split

/-! ## Both operators -/

/-- The type of elements decides how tensors are joined. -/
theorem runConcat_of_concatAt {α : Type} [Element α] [TypedElement α] {axis : Int} {i : Nat}
    {first u : Tensor} {rest : List Tensor} (hpresent : inputs.present = first :: rest)
    (hi : resolveAxis first.rank axis = .ok i) (h : concatAt α i (first :: rest) = .ok u) :
    runConcat axis inputs = .ok u := by
  have types : ∀ t ∈ first :: rest, t.elementType = Element.type α := by
    intro t ht
    obtain ⟨xs, hxs⟩ := ((concatAt_eq_ok_iff_rows.1 h).1 t ht).2.2
    exact Tensor.elementType_of_array?_eq_some hxs
  have one : ¬ (rest.any fun t => t.elementType ≠ first.elementType) = true := by
    simp only [List.any_eq_true, decide_eq_true_eq, not_exists, not_and, not_not]
    intro t ht
    rw [types t (List.mem_cons_of_mem _ ht), types first List.mem_cons_self]
  unfold runConcat
  rw [hpresent]
  dsimp only
  rw [if_neg one, hi, types first List.mem_cons_self]
  simp only [bind, Except.bind, TypedElement.dispatch_type]
  exact h

/-- Joined tensors are joined as arrays of their type of elements, along an axis that they have. -/
theorem exists_concatAt_of_runConcat {axis : Int} {u : Tensor} (h : runConcat axis inputs = .ok u) :
    ∃ first rest i, ∃ (α : Type) (_ : Element α), TypedElement α ∧ inputs.present = first :: rest ∧
      resolveAxis first.rank axis = .ok i ∧ concatAt α i (first :: rest) = .ok u := by
  unfold runConcat at h
  cases hpresent : inputs.present with
  | nil => simp [hpresent] at h
  | cons first rest =>
      rw [hpresent] at h
      dsimp only at h
      split at h
      · cases h
      · obtain ⟨i, hi, h⟩ := bind_eq_ok_iff.1 h
        obtain ⟨α, _, typed, -, h⟩ := ElementType.exists_typed_of_dispatch h
        exact ⟨first, rest, i, α, _, typed, rfl, hi, h⟩

/-- The parts of a tensor are those of the array of its elements. -/
theorem Split.exists_parts_of_run {t : Tensor} {parts : List Tensor} (ht : inputs.require 0 = .ok t)
    (counted : t.Counted) (h : s.run inputs outputs = .ok parts) (nonempty : parts ≠ []) :
    ∃ i sizes, ∃ (α : Type) (_ : Element α) (_ : TypedElement α) (xs : Array α),
      resolveAxis t.rank s.axis = .ok i ∧ sizes ≠ [] ∧ sizes.sum = t.shape.getD i 0 ∧
      t.array? α = some xs ∧ parts = (partStarts 0 sizes).map (partOf t.shape xs i) := by
  obtain ⟨t', ht', h⟩ := bind_eq_ok_iff.1 h
  obtain rfl : t = t' := Except.ok.inj (ht.symm.trans ht')
  obtain ⟨i, hi, h⟩ := bind_eq_ok_iff.1 h
  obtain ⟨sizes, hsizes, h⟩ := bind_eq_ok_iff.1 h
  have total := sum_partSizes hsizes
  have haxis : i < t.shape.length := (resolveAxis?_eq_some_iff.1 (orFault_eq_ok_iff.1 hi)).1
  have each := mapM_eq_ok_iff.1 h
  -- The first part shows which elements the tensor has.
  obtain ⟨p, u, hu⟩ : ∃ (p : Nat × Nat) (u : Tensor), takePart t i p.1 p.2 = .ok u := by
    obtain ⟨u, rest, rfl⟩ := List.exists_cons_of_ne_nil nonempty
    obtain ⟨p, -, hp⟩ := exists_left_of_forall₂ each List.mem_cons_self
    exact ⟨p, u, hp⟩
  obtain ⟨α, _, typed, xs, hxs, -⟩ := takeTensor_eq_ok_iff.1 hu
  have hparts : (partStarts 0 sizes).map (partOf t.shape xs i) = parts := by
    rw [← List.forall₂_eq_eq_eq, List.forall₂_map_left_iff]
    refine forall₂_imp_of_mem each fun q hq u hu => ?_
    have inside := add_le_of_mem_partStarts hq
    rw [Nat.zero_add, total] at inside
    exact Except.ok.inj ((takePart_of_array? counted hxs haxis inside).symm.trans hu)
  refine ⟨i, sizes, α, _, typed, xs, hi, ?_, total, hxs, hparts.symm⟩
  rintro rfl
  exact nonempty hparts.symm

theorem present_map_some (ts : List Tensor) : Inputs.present (ts.map some) = ts := by
  simp [Inputs.present, List.filterMap_map]

/-- The parts of a tensor, however their sizes are given, are joined to the tensor.  Tensors that are joined
are the parts of the joined tensor that have their sizes. -/
theorem split_concat_inverse :
    (∀ (s : Split) (inputs : Inputs) (outputs : Option Nat) (t : Tensor) (parts : List Tensor),
      inputs.require 0 = .ok t → t.Counted → s.run inputs outputs = .ok parts → parts ≠ [] →
      runConcat s.axis (parts.map some) = .ok { t with source := none }) ∧
    (∀ (axis : Int) (inputs : Inputs) (u : Tensor), (∀ t ∈ inputs.present, t.Counted) →
      runConcat axis inputs = .ok u →
      ∃ i, resolveAxis u.rank axis = .ok i ∧
        ∀ (s : Split) (inputs' : Inputs) (outputs : Option Nat) (given : Option (List Int)),
          s.axis = axis → inputs'.require 0 = .ok u → inputs'.ints? 1 = .ok given →
          given.or s.sizes = some (inputs.present.map fun t => Int.ofNat (t.shape.getD i 0)) →
          s.run inputs' outputs = .ok (inputs.present.map fun t => { t with source := none })) := by
  constructor
  · intro s inputs outputs t parts ht counted h nonempty
    obtain ⟨i, sizes, α, _, typed, xs, hi, some_size, total, hxs, hparts⟩ :=
      Split.exists_parts_of_run ht counted h nonempty
    have haxis : i < t.shape.length := (resolveAxis?_eq_some_iff.1 (orFault_eq_ok_iff.1 hi)).1
    have joined := concatAt_parts counted hxs haxis some_size total
    obtain ⟨first, rest, rfl⟩ := List.exists_cons_of_ne_nil nonempty
    rw [← hparts] at joined
    have rank : first.rank = t.rank := by
      have mem : first ∈ (partStarts 0 sizes).map (partOf t.shape xs i) :=
        hparts ▸ List.mem_cons_self
      obtain ⟨p, -, rfl⟩ := List.mem_map.1 mem
      exact List.length_set
    exact runConcat_of_concatAt (present_map_some _) (rank ▸ hi) joined
  · intro axis inputs u counted h
    obtain ⟨first, rest, i, α, _, typed, hpresent, hi, joined⟩ := exists_concatAt_of_runConcat h
    rw [hpresent] at counted ⊢
    have haxis : i < first.shape.length := (resolveAxis?_eq_some_iff.1 (orFault_eq_ok_iff.1 hi)).1
    have hu : u.shape = first.shape.set i ((first :: rest).map fun t => t.shape.getD i 0).sum :=
      congrArg Tensor.shape (concatAt_eq_ok_iff_rows.1 joined).2
    have rank : u.rank = first.rank := by
      rw [Tensor.rank, hu, List.length_set, Tensor.rank]
    refine ⟨i, rank ▸ hi, ?_⟩
    rintro s inputs' outputs given rfl ht hgiven sizes
    have size : u.shape.getD i 0 = ((first :: rest).map fun t => t.shape.getD i 0).sum := by
      simp [hu, haxis]
    have hsizes : s.partSizes _ inputs' outputs = .ok _ :=
      Split.partSizes_of_given hgiven (sizes.trans (congrArg some List.map_map.symm))
    unfold Split.run
    rw [ht]
    simp only [bind, Except.bind, rank, hi, size, hsizes]
    rw [mapM_eq_ok_iff, List.forall₂_map_right_iff]
    exact takePart_of_concatAt counted haxis joined

/-- Three numbers, the first of them, and the others. -/
def threeNumbers : Tensor := .vector (#[1, 2, 3] : Array Int64)

def firstNumber : Tensor := .vector (#[1] : Array Int64)

def otherNumbers : Tensor := .vector (#[2, 3] : Array Int64)

/-- Three numbers in five parts, two of which are empty, are joined again, and two vectors are the parts of
the vector that they are joined to. -/
theorem split_concat_inverse_vector :
    (∃ parts, Split.run { axis := -1 } [some threeNumbers] (some 5) = .ok parts ∧
      parts.map Tensor.shape = [[1], [1], [1], [0], [0]] ∧
      runConcat (-1) (parts.map some) = .ok threeNumbers) ∧
    runConcat (-1) [some firstNumber, none, some otherNumbers] = .ok threeNumbers ∧
      Split.run { axis := -1, sizes := some [1, 2] } [some threeNumbers] none =
        .ok [firstNumber, otherNumbers] := by
  obtain ⟨join, divide⟩ := split_concat_inverse
  constructor
  · have ran : Split.run { axis := -1 } [some threeNumbers] (some 5) =
        .ok [.vector (#[1] : Array Int64), .vector (#[2] : Array Int64), .vector (#[3] : Array Int64),
          .vector (#[] : Array Int64), .vector (#[] : Array Int64)] := by decide +kernel
    have counted : threeNumbers.Counted := (Tensor.computed_vector _).storable.counted
    exact ⟨_, ran, rfl, join _ _ _ threeNumbers _ rfl counted ran (List.cons_ne_nil _ _)⟩
  · have ran : runConcat (-1) [some firstNumber, none, some otherNumbers] = .ok threeNumbers := by
      decide +kernel
    have counted : ∀ t ∈ Inputs.present [some firstNumber, none, some otherNumbers], t.Counted := by
      intro t ht
      rcases List.mem_cons.1 ht with rfl | ht
      · exact (Tensor.computed_vector _).storable.counted
      · obtain rfl := List.mem_singleton.1 ht
        exact (Tensor.computed_vector _).storable.counted
    obtain ⟨i, hi, parts⟩ := divide (-1) _ threeNumbers counted ran
    cases hi
    exact ⟨ran, parts { axis := -1, sizes := some [1, 2] } [some threeNumbers] none none rfl rfl rfl rfl⟩

end TensorGraph
