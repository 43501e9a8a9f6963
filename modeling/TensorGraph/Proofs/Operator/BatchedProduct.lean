import TensorGraph.Proofs.Operator.Product
import TensorGraph.Proofs.Tensor.Broadcast
import TensorGraph.Proofs.Tensor.Typed

/-!
# Products of stacks of matrices

Input:

* two tensors of the same type, each of which is a stack of matrices or a vector.

The stacks are aligned as broadcasting aligns shapes, and the matrices for an index of the batch are found
by their number in each stack.  The number is the place of the index that is read there, so an element of a
factor stands at the place of the number, the row and the column put together (`leftIndex`, `rightIndex`).

Main result:

* `runMatMul_elements`: the shape of a product, and each element as the sum of the products of a row of
  one factor and a column of the other.
-/

namespace TensorGraph

/-! ## Indexes of the factors -/

/-- The index of the element of a left factor for an index of the batch.  A vector is a row. -/
def leftIndex (shape batch before : List Nat) (row column : Nat) : List Nat :=
  sourceIndex batch before ++ if 1 < shape.length then [row, column] else [column]

/-- The index of the element of a right factor for an index of the batch.  A vector is a column. -/
def rightIndex (shape batch before : List Nat) (row column : Nat) : List Nat :=
  sourceIndex batch before ++ if 1 < shape.length then [row, column] else [row]

section

variable {shape batch before : List Nat} {m k n row column : Nat}

theorem shape_of_leftFactor (h : leftFactor 1 shape = some (batch, m, k)) :
    shape = batch ++ (if 1 < shape.length then [m, k] else [k]) ∧ (¬ 1 < shape.length → m = 1) := by
  induction shape generalizing batch with
  | nil => cases h
  | cons d rest ih =>
      match rest, h with
      | [], h =>
          cases h
          exact ⟨rfl, fun _ => rfl⟩
      | [n], h =>
          cases h
          exact ⟨rfl, fun short => absurd (by decide : 1 < 2) short⟩
      | e :: f :: rest, h =>
          obtain ⟨⟨batch', m', k'⟩, hrest, same⟩ := Option.map_eq_some_iff.1 h
          cases same
          have whole := (ih hrest).1
          rw [if_pos (by simp)] at whole
          rw [if_pos (by simp), List.cons_append, ← whole]
          exact ⟨rfl, fun short => absurd (by simp) short⟩

/-- Only vectors are taken apart in two ways. -/
theorem rightFactor_eq_leftFactor {δ : Type} (one : δ) {shape : List δ} (long : 1 < shape.length) :
    rightFactor one shape = leftFactor one shape := by
  induction shape with
  | nil => exact absurd long (by simp)
  | cons d rest ih =>
      match rest, long, ih with
      | [n], _, _ => rfl
      | e :: f :: rest, _, ih => exact congrArg (Option.map _) (ih (by simp))

theorem shape_of_rightFactor (h : rightFactor 1 shape = some (batch, k, n)) :
    shape = batch ++ (if 1 < shape.length then [k, n] else [k]) ∧ (¬ 1 < shape.length → n = 1) := by
  by_cases long : 1 < shape.length
  · rw [rightFactor_eq_leftFactor 1 long] at h
    obtain ⟨whole, -⟩ := shape_of_leftFactor h
    rw [if_pos long] at whole ⊢
    exact ⟨whole, fun short => absurd long short⟩
  · match shape, h, long with
    | [n], h, _ =>
        cases h
        exact ⟨rfl, fun _ => rfl⟩
    | d :: e :: rest, _, long => exact absurd (by simp) long

/-- Two dimensions, the first of which is left out where it was added. -/
theorem rowMajor_of_addedRow {p : Prop} [Decidable p] (added : ¬ p → m = 1) (hrow : row < m) (k column : Nat) :
    elementCount (if p then [m, k] else [k]) = m * k ∧
      rowMajor (if p then [m, k] else [k]) (if p then [row, column] else [column]) =
        row * k + column := by
  by_cases h : p
  · simp [h, rowMajor_cons, elementCount_cons]
  · obtain rfl := added h
    obtain rfl := Nat.lt_one_iff.1 hrow
    simp [h, rowMajor_cons, elementCount_cons]

/-- Two dimensions, the second of which is left out where it was added. -/
theorem rowMajor_of_addedColumn {p : Prop} [Decidable p] (added : ¬ p → n = 1) (hcolumn : column < n)
    (k row : Nat) :
    elementCount (if p then [k, n] else [k]) = k * n ∧
      rowMajor (if p then [k, n] else [k]) (if p then [row, column] else [row]) =
        row * n + column := by
  by_cases h : p
  · simp [h, rowMajor_cons, elementCount_cons]
  · obtain rfl := added h
    obtain rfl := Nat.lt_one_iff.1 hcolumn
    simp [h, rowMajor_cons, elementCount_cons]

/-- An element of a left factor stands in the matrix that the batch reads. -/
theorem rowMajor_leftIndex (h : leftFactor 1 shape = some (batch, m, k))
    (hbefore : sourceIndex batch before ∈ indexes batch) (hrow : row < m) (column : Nat) :
    rowMajor shape (leftIndex shape batch before row column) =
      rowMajor batch (sourceIndex batch before) * (m * k) + row * k + column := by
  obtain ⟨whole, vector⟩ := shape_of_leftFactor h
  obtain ⟨count, place⟩ := rowMajor_of_addedRow vector hrow k column
  have append := rowMajor_append (length_of_mem_indexes hbefore)
    (if 1 < shape.length then [m, k] else [k]) (if 1 < shape.length then [row, column] else [column])
  rw [← whole, count, place] at append
  rw [leftIndex, append, Nat.add_assoc]

theorem rowMajor_rightIndex (h : rightFactor 1 shape = some (batch, k, n))
    (hbefore : sourceIndex batch before ∈ indexes batch) (hcolumn : column < n) (row : Nat) :
    rowMajor shape (rightIndex shape batch before row column) =
      rowMajor batch (sourceIndex batch before) * (k * n) + row * n + column := by
  obtain ⟨whole, vector⟩ := shape_of_rightFactor h
  obtain ⟨count, place⟩ := rowMajor_of_addedColumn vector hcolumn k row
  have append := rowMajor_append (length_of_mem_indexes hbefore)
    (if 1 < shape.length then [k, n] else [k]) (if 1 < shape.length then [row, column] else [row])
  rw [← whole, count, place] at append
  rw [rightIndex, append, Nat.add_assoc]

theorem leftIndex_mem (h : leftFactor 1 shape = some (batch, m, k))
    (hbefore : sourceIndex batch before ∈ indexes batch) (hrow : row < m) (hcolumn : column < k) :
    leftIndex shape batch before row column ∈ indexes shape := by
  obtain ⟨whole, -⟩ := shape_of_leftFactor h
  have entry : (if 1 < shape.length then [row, column] else [column]) ∈
      indexes (if 1 < shape.length then [m, k] else [k]) := by
    split <;> simp [mem_indexes, hrow, hcolumn]
  have mem := mem_indexes_append.2 ⟨_, hbefore, _, entry, rfl⟩
  rwa [← whole] at mem

theorem rightIndex_mem (h : rightFactor 1 shape = some (batch, k, n))
    (hbefore : sourceIndex batch before ∈ indexes batch) (hrow : row < k) (hcolumn : column < n) :
    rightIndex shape batch before row column ∈ indexes shape := by
  obtain ⟨whole, -⟩ := shape_of_rightFactor h
  have entry : (if 1 < shape.length then [row, column] else [row]) ∈
      indexes (if 1 < shape.length then [k, n] else [k]) := by
    split <;> simp [mem_indexes, hrow, hcolumn]
  have mem := mem_indexes_append.2 ⟨_, hbefore, _, entry, rfl⟩
  rwa [← whole] at mem

end

/-! ## Indexes of a product -/

section

variable {a b batch index : List Nat} {m n : Nat}

/-- A dimension that is left out where it was added. -/
theorem rowMajor_of_added {p : Prop} [Decidable p] {i : Nat} (added : ¬ p → n = 1) (hi : i < n) :
    elementCount (if p then [n] else []) = n ∧
      rowMajor (if p then [n] else []) (if p then [i] else []) = i := by
  by_cases h : p
  · simp [h, rowMajor_cons, elementCount_cons]
  · obtain rfl := added h
    obtain rfl := Nat.lt_one_iff.1 hi
    simp [h]

theorem mem_indexes_of_added {p : Prop} [Decidable p] (added : ¬ p → n = 1) {index : List Nat} :
    index ∈ indexes (if p then [n] else []) ↔ ∃ i < n, (if p then [i] else []) = index := by
  by_cases h : p
  · simp [h, indexes, eq_comm]
  · obtain rfl := added h
    simp [h, indexes, eq_comm]

/-- An index of a product has an index of the batch, a row and a column, apart from those that were added. -/
theorem exists_of_mem_productShape (rows : ¬ 1 < a.length → m = 1) (columns : ¬ 1 < b.length → n = 1)
    (h : index ∈ indexes (productShape a b batch m n)) :
    ∃ before ∈ indexes batch, ∃ row < m, ∃ column < n, index = productShape a b before row column ∧
      rowMajor (productShape a b batch m n) index =
        rowMajor batch before * (m * n) + (row * n + column) := by
  obtain ⟨front, hfront, last, hlast, rfl⟩ := mem_indexes_append.1 h
  obtain ⟨before, hbefore, middle, hmiddle, rfl⟩ := mem_indexes_append.1 hfront
  obtain ⟨row, hrow, rfl⟩ := (mem_indexes_of_added rows).1 hmiddle
  obtain ⟨column, hcolumn, rfl⟩ := (mem_indexes_of_added columns).1 hlast
  obtain ⟨countRows, placeRow⟩ := rowMajor_of_added rows hrow
  obtain ⟨countColumns, placeColumn⟩ := rowMajor_of_added columns hcolumn
  refine ⟨before, hbefore, row, hrow, column, hcolumn, rfl, ?_⟩
  rw [productShape, rowMajor_append (length_of_mem_indexes hfront),
    rowMajor_append (length_of_mem_indexes hbefore), countRows, placeRow, countColumns, placeColumn]
  ring

end

/-! ## Elements of a product -/

/-- The elements of a product of two matrices stand row by row. -/
theorem getElem?_matrixProduct {α : Type} [RingOps α] {m n row column : Nat} (k : Nat)
    (a b : Nat → Nat → α) (hrow : row < m) (hcolumn : column < n) :
    (matrixProduct m k n a b)[row * n + column]? =
      some (dotProduct k (a row) fun i => b i column) := by
  unfold matrixProduct
  rw [getElem?_flatMap_of_length (a := row) _ (List.getElem?_range hrow) hcolumn, List.getElem?_map,
    List.getElem?_range hcolumn, Option.map_some]
  intro i _
  rw [List.length_map, List.length_range]

/-- What a product of two tensors is, if it is defined: its shape, and each element as the sum of the
products of a row of the left factor and a column of the right factor, in order, where no element that is
read is out of range. -/
structure Tensor.ProductOf (α : Type) [Element α] [Arith α] (u a b : Tensor)
    (aBatch bBatch batch : List Nat) (m k n : Nat) (xs ys zs : Array α) : Prop where
  left : leftFactor 1 a.shape = some (aBatch, m, k)
  right : rightFactor 1 b.shape = some (bBatch, k, n)
  aligned : broadcastShapes aBatch bBatch = some batch
  shape : u.shape = productShape a.shape b.shape batch m n
  leftElements : a.array? α = some xs
  rightElements : b.array? α = some ys
  elements : u.array? α = some zs
  count : zs.size = elementCount u.shape
  element : ∀ index ∈ indexes u.shape, ∃ before ∈ indexes batch, ∃ row < m, ∃ column < n,
    index = productShape a.shape b.shape before row column ∧
    zs[rowMajor u.shape index]? = some (dotProduct k
      (fun i => xs.getD (rowMajor a.shape (leftIndex a.shape aBatch before row i)) default)
      (fun i => ys.getD (rowMajor b.shape (rightIndex b.shape bBatch before i column)) default)) ∧
    ∀ i < k, leftIndex a.shape aBatch before row i ∈ indexes a.shape ∧
      rightIndex b.shape bBatch before i column ∈ indexes b.shape

variable {a b u : Tensor}

theorem productOf_of_productAt {α : Type} [Element α] [Arith α] [TypedElement α]
    (h : productAt α a b = .ok u) : ∃ aBatch bBatch batch m k n xs ys zs,
      u.ProductOf α a b aBatch bBatch batch m k n xs ys zs := by
  have computed := ensures_productAt a b u h
  unfold productAt at h
  split at h
  · rename_i aBatch m k bBatch k' n hleft hright
    obtain ⟨xs, hxs, h⟩ := bind_eq_ok_iff.1 h
    obtain ⟨ys, hys, h⟩ := bind_eq_ok_iff.1 h
    split_ifs at h with inner
    obtain ⟨batch, hbatch, h⟩ := bind_eq_ok_iff.1 h
    replace hbatch := orFault_eq_ok_iff.1 hbatch
    obtain ⟨repeatsA, repeatsB⟩ := repeats_of_broadcastShapes hbatch
    cases h
    obtain rfl := not_not.1 inner
    refine ⟨aBatch, bBatch, batch, m, k, n, xs, ys, _, hleft, hright, hbatch, rfl,
      orFault_eq_ok_iff.1 hxs, orFault_eq_ok_iff.1 hys, Tensor.array?_ofArray, ?_, ?_⟩
    · exact (LawfulElement.count_wrap _).symm.trans computed.count
    · dsimp only [Tensor.ofArray]
      intro index hindex
      obtain ⟨before, hbefore, row, hrow, column, hcolumn, rfl, place⟩ :=
        exists_of_mem_productShape (shape_of_leftFactor hleft).2 (shape_of_rightFactor hright).2 hindex
      have readA := (repeatsA.sourceIndex hbefore).1
      have readB := (repeatsB.sourceIndex hbefore).1
      refine ⟨before, hbefore, row, hrow, column, hcolumn, rfl, ?_, fun i hi =>
        ⟨leftIndex_mem hleft readA hrow hi, rightIndex_mem hright readB hi hcolumn⟩⟩
      -- The numbers of the two matrices stand at the place of the index of the batch.
      have numbers : ((broadcastOffsets aBatch batch).zip (broadcastOffsets bBatch batch))[
          rowMajor batch before]? = some (rowMajor aBatch (sourceIndex aBatch before),
            rowMajor bBatch (sourceIndex bBatch before)) :=
        List.getElem?_zip_eq_some.2 ⟨repeatsA.getElem?_broadcastOffsets hbefore,
          repeatsB.getElem?_broadcastOffsets hbefore⟩
      have inside : row * n + column < m * n := by
        calc row * n + column < (row + 1) * n := by
              rw [Nat.succ_mul]
              omega
          _ ≤ m * n := Nat.mul_le_mul_right n hrow
      rw [place, List.getElem?_toArray]
      refine (getElem?_flatMap_of_length ?_ numbers inside).trans ?_
      · rintro ⟨i, j⟩ _
        exact length_matrixProduct ..
      · simp only [rowMajor_leftIndex hleft readA hrow, rowMajor_rightIndex hright readB hcolumn]
        exact getElem?_matrixProduct k _ _ hrow hcolumn
  · cases h

/-- The product of two tensors of the same type, either of which may be a vector. -/
theorem runMatMul_elements {inputs : Inputs} (ha : inputs.require 0 = .ok a)
    (hb : inputs.require 1 = .ok b) (h : runMatMul inputs = .ok u) :
    u.elementType = a.elementType ∧ b.elementType = a.elementType ∧
      ∃ (α : Type) (_ : Element α) (_ : Arith α), ∃ aBatch bBatch batch m k n xs ys zs,
        u.ProductOf α a b aBatch bBatch batch m k n xs ys zs := by
  obtain ⟨a', ha', h⟩ := bind_eq_ok_iff.1 h
  obtain rfl : a = a' := Except.ok.inj (ha.symm.trans ha')
  obtain ⟨b', hb', h⟩ := bind_eq_ok_iff.1 h
  obtain rfl : b = b' := Except.ok.inj (hb.symm.trans hb')
  split at h
  · cases h
  · rename_i types
    obtain ⟨α, _, _, typed, type, h⟩ := ElementType.exists_typed_of_dispatchNumeric h
    obtain ⟨aBatch, bBatch, batch, m, k, n, xs, ys, zs, product⟩ := productOf_of_productAt h
    refine ⟨?_, (not_not.1 types).symm, α, _, _, aBatch, bBatch, batch, m, k, n, xs, ys, zs, product⟩
    rw [type, Tensor.elementType_of_array?_eq_some product.elements]

end TensorGraph
