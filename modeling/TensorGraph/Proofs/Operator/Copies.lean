import TensorGraph.Proofs.Facts.Inputs
import TensorGraph.Proofs.Operator.Layout
import TensorGraph.Proofs.Operator.Slice
import TensorGraph.Proofs.Tensor.Broadcast

/-!
# Tensors whose elements are copied

Input:

* a tensor, and a shape with the offset of an element of the tensor for each of its indexes.

The offsets are computed with permuted strides, with strides of 0, with remainders or in blocks.  In each
case the offset for an index is the place of another index, which reads the element there
(`Tensor.copiedFrom_of_place`).

Main result:

* `copied_elements`: transposed, expanded, repeated and gathered tensors have at each index the element of
  the input at the index that the operator names, and no offset is out of range.
-/

namespace TensorGraph

/-! ## Copied tensors -/

/-- A tensor whose elements are those of another one at some offsets, all of which are in range.  Each index
reads the element at an index that it is related to. -/
structure Tensor.CopiedFrom (u t : Tensor) (offsets : List Nat) (R : List Nat → List Nat → Prop) :
    Prop where
  taken : takeTensor t u.shape offsets = .ok u
  inRange : ∀ k ∈ offsets, k < t.elements.count
  count : u.elements.count = elementCount u.shape
  elementType : u.elementType = t.elementType
  element : ∀ index, List.Forall₂ (· < ·) index u.shape → ∃ source,
    List.Forall₂ (· < ·) source t.shape ∧ R index source ∧ u.at? index = t.at? source ∧
      (t.at? source).isSome

section

variable {t u : Tensor} {shape : List Nat} {R : List Nat → List Nat → Prop}

/-- It is enough that the offset for each index is the place of an index that it is related to. -/
theorem Tensor.copiedFrom_of_place {offsets : List Nat} (counted : t.Counted)
    (h : takeTensor t shape offsets = .ok u) (length : offsets.length = elementCount shape)
    (each : ∀ index ∈ indexes shape, ∃ source ∈ indexes t.shape, R index source ∧
      offsets[rowMajor shape index]? = some (rowMajor t.shape source)) :
    u.shape = shape ∧ u.CopiedFrom t offsets R := by
  obtain ⟨hshape, type, evaluable, reads⟩ := takeTensor_reads counted h
  subst hshape
  refine ⟨rfl, h, ?_, ?_, type, ?_⟩
  · -- Each offset stands at the place of an index.
    intro k hk
    obtain ⟨i, bound, rfl⟩ := List.getElem_of_mem hk
    obtain ⟨index, hindex, rfl⟩ := exists_rowMajor_eq (length ▸ bound)
    obtain ⟨source, hsource, -, place⟩ := each index hindex
    rw [List.getElem?_eq_getElem bound] at place
    rw [Option.some.inj place, counted evaluable]
    exact rowMajor_lt hsource
  · exact (ensures_takeTensor length u h).count
  · intro index hindex
    have mem : index ∈ indexes u.shape := mem_indexes.2 hindex
    obtain ⟨source, hsource, related, place⟩ := each index mem
    refine ⟨source, mem_indexes.1 hsource, related, ?_, isSome_at? counted evaluable hsource⟩
    exact reads _ _ place (rowMajor_lt hsource)

/-- The same, when the offsets are listed index by index. -/
theorem Tensor.copiedFrom_of_map {offset : List Nat → Nat} (counted : t.Counted)
    (h : takeTensor t shape ((indexes shape).map offset) = .ok u)
    (each : ∀ index ∈ indexes shape, ∃ source ∈ indexes t.shape, R index source ∧
      offset index = rowMajor t.shape source) :
    u.shape = shape ∧ u.CopiedFrom t ((indexes shape).map offset) R := by
  refine copiedFrom_of_place counted h (by rw [List.length_map, length_indexes]) ?_
  intro index hindex
  obtain ⟨source, hsource, related, same⟩ := each index hindex
  refine ⟨source, hsource, related, ?_⟩
  rw [List.getElem?_map, getElem?_rowMajor hindex, Option.map_some, same]

end

variable {inputs : Inputs} {t u : Tensor}

/-! ## Transposed tensors -/

/-- Members in another order are those at the positions that the order lists. -/
theorem map_some_permuted {α : Type} {order : List Nat} {xs : List α} {d : α}
    (h : ∀ k ∈ order, k < xs.length) : (permuted order xs d).map some = order.map (xs[·]?) := by
  unfold permuted
  rw [List.map_map]
  refine List.map_congr_left fun k hk => ?_
  simp [h k hk]

/-- The offsets of a transposed tensor. -/
def transposedOffsets (order shape : List Nat) : List Nat :=
  stridedOffsets (permuted order shape 1) (permuted order ((strides shape).map Nat.cast) 0) 0

/-- Each dimension of a transposed tensor, and each entry of an index, is that of the input at the
position that the order lists. -/
theorem transposeBy_copies {order : List Nat} (counted : t.Counted)
    (perm : order.Perm (List.range t.rank)) (h : transposeBy order t = .ok u) :
    u.shape.map some = order.map (t.shape[·]?) ∧
      u.CopiedFrom t (transposedOffsets order t.shape)
        fun index source => index.map some = order.map (source[·]?) := by
  have bound : ∀ k ∈ order, k < t.shape.length := fun k hk =>
    List.mem_range.1 (perm.mem_iff.1 hk)
  obtain ⟨hshape, copied⟩ := Tensor.copiedFrom_of_map counted h
    (R := fun index source => index.map some = order.map (source[·]?)) (by
      intro index hindex
      obtain ⟨source, hsource, rfl⟩ := exists_permuted_of_mem_indexes perm hindex
      have length : source.length = t.shape.length := length_of_mem_indexes hsource
      refine ⟨source, hsource, map_some_permuted (length ▸ bound), ?_⟩
      rw [Int.zero_add, offsetOf_permuted (by simpa [Tensor.rank] using perm) (by simpa using length)]
      rfl)
  exact ⟨hshape ▸ map_some_permuted bound, copied⟩

/-! ## Repeated tensors -/

/-- The offset in a repeated tensor is the place of the remainders. -/
theorem tileOffset_strides (shape index : List Nat) :
    tileOffset shape (strides shape) index = rowMajor shape (List.zipWith (· % ·) index shape) := by
  induction shape generalizing index with
  | nil => cases index <;> rfl
  | cons n shape ih =>
      cases index with
      | nil => rfl
      | cons i index =>
          rw [strides, tileOffset, ih, List.zipWith_cons_cons, rowMajor_cons]

/-- The remainders of an index of a repeated shape are an index of the shape. -/
theorem zipWith_mod_mem_indexes {shape repeats index : List Nat}
    (length : repeats.length = shape.length)
    (h : index ∈ indexes (List.zipWith (· * ·) shape repeats)) :
    List.zipWith (· % ·) index shape ∈ indexes shape := by
  induction shape generalizing repeats index with
  | nil => simp [indexes]
  | cons n shape ih =>
      cases repeats with
      | nil => cases length
      | cons r repeats =>
          obtain ⟨i, hi, rest, hrest, rfl⟩ := mem_indexes_cons.1 h
          have positive : 0 < n := Nat.pos_of_mul_pos_right (Nat.zero_lt_of_lt hi)
          rw [List.zipWith_cons_cons, mem_indexes_cons]
          exact ⟨_, Nat.mod_lt i positive, _, ih (Nat.succ.inj length) hrest, rfl⟩

/-- The offsets of a repeated tensor. -/
def tileOffsets (shape out : List Nat) : List Nat :=
  (indexes out).map (tileOffset shape (strides shape))

/-- Each index of a repeated tensor reads the element at its remainders by the sizes of the input. -/
theorem runTile_copies (ht : inputs.require 0 = .ok t) (counted : t.Counted)
    (h : runTile inputs = .ok u) :
    ∃ values repeats, inputs.requireInts 1 = .ok values ∧ toSizes values = .ok repeats ∧
      repeats.length = t.rank ∧ u.shape = List.zipWith (· * ·) t.shape repeats ∧
      u.CopiedFrom t (tileOffsets t.shape u.shape)
        fun index source => source = List.zipWith (· % ·) index t.shape := by
  obtain ⟨t', ht', h⟩ := bind_eq_ok_iff.1 h
  obtain rfl : t = t' := Except.ok.inj (ht.symm.trans ht')
  obtain ⟨values, hvalues, h⟩ := bind_eq_ok_iff.1 h
  obtain ⟨repeats, hrepeats, h⟩ := bind_eq_ok_iff.1 h
  split at h
  · cases h
  · rename_i length
    replace length : repeats.length = t.shape.length := Decidable.not_not.1 length
    have product : (t.shape.zip repeats).map (fun p => p.1 * p.2) =
        List.zipWith (· * ·) t.shape repeats := by
      rw [List.zip, List.map_zipWith]
    replace h : takeTensor t (List.zipWith (· * ·) t.shape repeats)
        (tileOffsets t.shape (List.zipWith (· * ·) t.shape repeats)) = .ok u := by
      rw [← product]
      exact h
    obtain ⟨hshape, copied⟩ := Tensor.copiedFrom_of_map counted h
      (R := fun index source => source = List.zipWith (· % ·) index t.shape)
      fun index hindex => ⟨_, zipWith_mod_mem_indexes length hindex, rfl,
        tileOffset_strides t.shape index⟩
    refine ⟨values, repeats, hvalues, hrepeats, length, hshape, ?_⟩
    rw [hshape]
    exact copied

/-! ## Expanded tensors -/

/-- Each index of an expanded tensor reads the element at its last entries, where those of dimensions of
size 1 are 0. -/
theorem runExpand_copies (ht : inputs.require 0 = .ok t) (counted : t.Counted)
    (h : runExpand inputs = .ok u) :
    ∃ values target, inputs.requireInts 1 = .ok values ∧ toSizes values = .ok target ∧
      broadcastShapes t.shape target = some u.shape ∧
      u.CopiedFrom t (broadcastOffsets t.shape u.shape)
        fun index source => source = sourceIndex t.shape index := by
  obtain ⟨t', ht', h⟩ := bind_eq_ok_iff.1 h
  obtain rfl : t = t' := Except.ok.inj (ht.symm.trans ht')
  obtain ⟨values, hvalues, h⟩ := bind_eq_ok_iff.1 h
  obtain ⟨target, htarget, h⟩ := bind_eq_ok_iff.1 h
  obtain ⟨shape, hshape, h⟩ := bind_eq_ok_iff.1 h
  replace hshape := orFault_eq_ok_iff.1 hshape
  have repeated : Repeats t.shape shape := (repeats_of_broadcastShapes hshape).1
  obtain ⟨rfl, copied⟩ := Tensor.copiedFrom_of_place counted h (length_broadcastOffsets ..)
    (R := fun index source => source = sourceIndex t.shape index)
    fun index hindex => ⟨_, (repeated.sourceIndex hindex).1, rfl,
      repeated.getElem?_broadcastOffsets hindex⟩
  exact ⟨values, target, hvalues, htarget, hshape, copied⟩

/-! ## Gathered tensors -/

/-- Whether an index of a gathered tensor reads another index: the entries for the tensor of indexes are
replaced by the position that the element there counts along the axis. -/
def GatheredFrom (shape indexShape : List Nat) (axis : Nat) (values : List Int)
    (index source : List Nat) : Prop :=
  ∃ before place after position v n, index = before ++ place ++ after ∧
    source = before ++ position :: after ∧ before.length = axis ∧ place.length = indexShape.length ∧
    values[rowMajor indexShape place]? = some v ∧ shape[axis]? = some n ∧ position < n ∧
    (position : Int) = if v < 0 then v + n else v

theorem resolveIndex?_eq_some_iff {v : Int} {n i : Nat} :
    resolveIndex? v n = some i ↔ i < n ∧ (i : Int) = if v < 0 then v + n else v := by
  unfold resolveIndex?
  dsimp only
  generalize (if v < 0 then v + (n : Int) else v) = resolved
  split
  · rw [Option.some.injEq]
    omega
  · simp only [reduceCtorEq, false_iff]
    omega

/-- The offset for an index counts the blocks before the axis, the positions, and the elements after it. -/
theorem getElem?_gatherOffsets {shape positions : List Nat} {axis o q i position : Nat}
    (ho : o < elementCount (shape.take axis)) (hq : positions[q]? = some position)
    (hi : i < elementCount (shape.drop (axis + 1))) :
    (gatherOffsets shape axis positions)[
        o * (positions.length * elementCount (shape.drop (axis + 1))) +
          (q * elementCount (shape.drop (axis + 1)) + i)]? =
      some ((o * shape.getD axis 1 + position) * elementCount (shape.drop (axis + 1)) + i) := by
  obtain ⟨bound, -⟩ := List.getElem?_eq_some_iff.1 hq
  have inside : q * elementCount (shape.drop (axis + 1)) + i <
      positions.length * elementCount (shape.drop (axis + 1)) := by
    calc q * elementCount (shape.drop (axis + 1)) + i
        < (q + 1) * elementCount (shape.drop (axis + 1)) := by
          rw [Nat.succ_mul]
          omega
      _ ≤ positions.length * elementCount (shape.drop (axis + 1)) := Nat.mul_le_mul_right _ bound
  unfold gatherOffsets splitAtAxis
  dsimp only
  rw [getElem?_flatMap_of_length (a := o) _ (List.getElem?_range ho) inside,
    getElem?_flatMap_of_length (a := position) _ hq hi, List.getElem?_map,
    List.getElem?_range hi, Option.map_some]
  · intro p _
    rw [List.length_map, List.length_range]
  · intro o' _
    rw [length_flatMap_of_length (k := elementCount (shape.drop (axis + 1)))]
    intro p _
    rw [List.length_map, List.length_range]

/-- Each index of a gathered shape reads an index of the input, whose place is the offset for it. -/
theorem exists_gatheredFrom {shape indexShape positions index : List Nat} {values : List Int} {i : Nat}
    (bound : i < shape.length) (many : positions.length = elementCount indexShape)
    (resolved : values.mapM (fun v => resolveIndex? v (shape.getD i 0)) = some positions)
    (hindex : index ∈ indexes (gatherShape shape i indexShape)) :
    ∃ source ∈ indexes shape, GatheredFrom shape indexShape i values index source ∧
      (gatherOffsets shape i positions)[rowMajor (gatherShape shape i indexShape) index]? =
        some (rowMajor shape source) := by
  obtain ⟨front, hfront, after, hafter, rfl⟩ := mem_indexes_append.1 hindex
  obtain ⟨before, hbefore, place, hplace, rfl⟩ := mem_indexes_append.1 hfront
  have length_before := length_of_mem_indexes hbefore
  have length_front := length_of_mem_indexes hfront
  have axis : before.length = i := by
    rw [length_before, List.length_take]
    omega
  have size : shape.getD i 0 = shape[i] := by
    rw [List.getD_eq_getElem?_getD, List.getElem?_eq_getElem bound, Option.getD_some]
  have parts : shape.take i ++ shape[i] :: shape.drop (i + 1) = shape := by
    rw [List.getElem_cons_drop, List.take_append_drop]
  -- The element of the tensor of indexes for this index, and the position that it counts.
  have hq : rowMajor indexShape place < positions.length := many ▸ rowMajor_lt hplace
  obtain ⟨v, hv, counts⟩ : ∃ v, values[rowMajor indexShape place]? = some v ∧
      resolveIndex? v (shape.getD i 0) = some positions[rowMajor indexShape place] := by
    have related := rel_getElem? (forall₂_of_mapM_eq_some resolved) (rowMajor indexShape place)
    rw [List.getElem?_eq_getElem hq] at related
    generalize values[rowMajor indexShape place]? = o at related
    cases related with
    | some same => exact ⟨_, rfl, same⟩
  rw [size] at counts
  obtain ⟨inside, counts⟩ := resolveIndex?_eq_some_iff.1 counts
  refine ⟨before ++ positions[rowMajor indexShape place] :: after, ?_, ?_, ?_⟩
  · have mem : before ++ positions[rowMajor indexShape place] :: after ∈
        indexes (shape.take i ++ shape[i] :: shape.drop (i + 1)) := by
      refine mem_indexes_append.2 ⟨before, hbefore, _, ?_, rfl⟩
      exact mem_indexes_cons.2 ⟨_, inside, after, hafter, rfl⟩
    rwa [parts] at mem
  · exact ⟨before, place, after, _, v, _, rfl, rfl, axis, length_of_mem_indexes hplace, hv,
      List.getElem?_eq_getElem bound, inside, counts⟩
  · have target := rowMajor_append length_before (shape[i] :: shape.drop (i + 1))
      (positions[rowMajor indexShape place] :: after)
    rw [parts, rowMajor_cons, elementCount_cons] at target
    have offset := getElem?_gatherOffsets (rowMajor_lt hbefore) (List.getElem?_eq_getElem hq)
      (rowMajor_lt hafter)
    rw [List.getD_eq_getElem?_getD, List.getElem?_eq_getElem bound, Option.getD_some, many] at offset
    rw [gatherShape, rowMajor_append length_front, rowMajor_append length_before, Nat.add_mul,
      Nat.mul_assoc, Nat.add_assoc, offset, target]
    congr 1
    ring

/-- Each index of a gathered tensor reads the element at the position that the tensor of indexes has for
it. -/
theorem runGather_copies {axis : Int} {indexTensor : Tensor} (ht : inputs.require 0 = .ok t)
    (counted : t.Counted) (hindexes : inputs.require 1 = .ok indexTensor)
    (counted' : indexTensor.Counted) (h : runGather axis inputs = .ok u) :
    ∃ values i positions, indexTensor.intList = .ok values ∧ resolveAxis t.rank axis = .ok i ∧
      values.mapM (fun v => resolveIndex? v (t.shape.getD i 0)) = some positions ∧
      u.shape = gatherShape t.shape i indexTensor.shape ∧
      u.CopiedFrom t (gatherOffsets t.shape i positions)
        (GatheredFrom t.shape indexTensor.shape i values) := by
  obtain ⟨t', ht', h⟩ := bind_eq_ok_iff.1 h
  obtain rfl : t = t' := Except.ok.inj (ht.symm.trans ht')
  obtain ⟨indexTensor', hindexes', h⟩ := bind_eq_ok_iff.1 h
  obtain rfl : indexTensor = indexTensor' := Except.ok.inj (hindexes.symm.trans hindexes')
  obtain ⟨values, hvalues, h⟩ := bind_eq_ok_iff.1 h
  obtain ⟨i, hi, h⟩ := bind_eq_ok_iff.1 h
  obtain ⟨positions, hpositions, h⟩ := bind_eq_ok_iff.1 h
  replace hpositions := orFault_eq_ok_iff.1 hpositions
  have hints : indexTensor.intList = .ok values := by
    obtain ⟨s, hs, hints⟩ := Inputs.requireInts_eq_ok_iff.1 hvalues
    have same : some indexTensor = some s := (Inputs.require_eq_ok_iff.1 hindexes).symm.trans hs
    cases same
    exact hints
  have bound : i < t.shape.length := (resolveAxis?_eq_some_iff.1 (orFault_eq_ok_iff.1 hi)).1
  have many : positions.length = elementCount indexTensor.shape := by
    rw [length_of_mapM_eq_some hpositions, counted'.length_of_intList hints]
  have length : (gatherOffsets t.shape i positions).length =
      elementCount (gatherShape t.shape i indexTensor.shape) := by
    rw [length_gatherOffsets, many, gatherShape, elementCount_append, elementCount_append,
      Nat.mul_assoc]
  obtain ⟨shape, copied⟩ := Tensor.copiedFrom_of_place counted h length fun index hindex =>
    exists_gatheredFrom bound many hpositions hindex
  exact ⟨values, i, positions, hints, hi, hpositions, shape, copied⟩

/-! ## Operators that move elements -/

/-- Transposed, expanded, repeated and gathered tensors have at each index the element of the input at the
permuted index, at the right-aligned index with 0 in dimensions of size 1, at the remainders by the sizes,
and at the index with the entries for the tensor of indexes replaced by the position that is counted there.
No offset is out of range, and there are as many elements as the shape says. -/
theorem copied_elements (ht : inputs.require 0 = .ok t) (counted : t.Counted) :
    (∀ perm u, runTranspose perm inputs = .ok u →
      ∃ order, resolvePerm perm t.rank = .ok order ∧ order.Perm (List.range t.rank) ∧
        u.shape.map some = order.map (t.shape[·]?) ∧
        u.CopiedFrom t (transposedOffsets order t.shape)
          fun index source => index.map some = order.map (source[·]?)) ∧
    (∀ u, runExpand inputs = .ok u →
      ∃ values target, inputs.requireInts 1 = .ok values ∧ toSizes values = .ok target ∧
        broadcastShapes t.shape target = some u.shape ∧
        u.CopiedFrom t (broadcastOffsets t.shape u.shape)
          fun index source => source = sourceIndex t.shape index) ∧
    (∀ u, runTile inputs = .ok u →
      ∃ values repeats, inputs.requireInts 1 = .ok values ∧ toSizes values = .ok repeats ∧
        repeats.length = t.rank ∧ u.shape = List.zipWith (· * ·) t.shape repeats ∧
        u.CopiedFrom t (tileOffsets t.shape u.shape)
          fun index source => source = List.zipWith (· % ·) index t.shape) ∧
    (∀ axis indexTensor u, inputs.require 1 = .ok indexTensor → indexTensor.Counted →
      runGather axis inputs = .ok u →
      ∃ values i positions, indexTensor.intList = .ok values ∧ resolveAxis t.rank axis = .ok i ∧
        values.mapM (fun v => resolveIndex? v (t.shape.getD i 0)) = some positions ∧
        u.shape = gatherShape t.shape i indexTensor.shape ∧
        u.CopiedFrom t (gatherOffsets t.shape i positions)
          (GatheredFrom t.shape indexTensor.shape i values)) := by
  refine ⟨fun perm u h => ?_, fun u h => runExpand_copies ht counted h,
    fun u h => runTile_copies ht counted h, fun axis indexTensor u hindexes counted' h =>
      runGather_copies ht counted hindexes counted' h⟩
  rw [runTranspose_eq] at h
  obtain ⟨t', ht', h⟩ := bind_eq_ok_iff.1 h
  obtain rfl : t = t' := Except.ok.inj (ht.symm.trans ht')
  obtain ⟨order, horder, h⟩ := bind_eq_ok_iff.1 h
  have perm := perm_of_resolvePerm horder
  obtain ⟨shape, copied⟩ := transposeBy_copies counted perm h
  exact ⟨order, horder, perm, shape, copied⟩

/-- Two rows of three, with the last and the first position of an axis. -/
def twoRows : Inputs :=
  [some (.ofArray [2, 3] (#[1, 2, 3, 4, 5, 6] : Array Int64)), some (.vector (#[-1, 0] : Array Int64))]

/-- A row of three, with sizes to which it is expanded and by which it is repeated. -/
def oneRow : Inputs :=
  [some (.ofArray [1, 3] (#[1, 2, 3] : Array Int64)), some (.vector (#[2, 3] : Array Int64))]

/-- The last element of the second row is at `[2, 1]` of the transposed rows and at `[1, 0]` of the last
and first columns.  The last element of a row is at `[1, 2]` of two such rows and at `[1, 5]` of rows that are
repeated three times. -/
theorem copied_elements_rows :
    (∃ u, runTranspose none twoRows = .ok u ∧ u.at? [2, 1] = some (.int64 #[6])) ∧
    (∃ u, runGather 1 twoRows = .ok u ∧ u.at? [1, 0] = some (.int64 #[6])) ∧
    (∃ u, runExpand oneRow = .ok u ∧ u.at? [1, 2] = some (.int64 #[3])) ∧
    (∃ u, runTile oneRow = .ok u ∧ u.at? [1, 5] = some (.int64 #[3])) := by
  have counted : ∀ (shape : List Nat) (xs : Array Int64), xs.size = elementCount shape →
      (Tensor.ofArray shape xs).Counted := by
    exact fun shape xs h => (Tensor.computed_ofArray h).storable.counted
  have rows : twoRows.require 0 = .ok (.ofArray [2, 3] (#[1, 2, 3, 4, 5, 6] : Array Int64)) := rfl
  have row : oneRow.require 0 = .ok (.ofArray [1, 3] (#[1, 2, 3] : Array Int64)) := rfl
  obtain ⟨transposed, -, -, gathered⟩ := copied_elements rows (counted _ _ rfl)
  obtain ⟨-, expanded, repeated, -⟩ := copied_elements row (counted _ _ rfl)
  refine ⟨?_, ?_, ?_, ?_⟩
  · have ran : runTranspose none twoRows =
        .ok (.ofArray [3, 2] (#[1, 4, 2, 5, 3, 6] : Array Int64)) := by decide +kernel
    obtain ⟨order, horder, -, -, copied⟩ := transposed none _ ran
    cases horder
    obtain ⟨source, inside, listed, same, -⟩ := copied.element [2, 1] (by decide)
    refine ⟨_, ran, same.trans ?_⟩
    obtain ⟨a, rest, -, inside', rfl⟩ := List.forall₂_cons_right_iff.1 inside
    obtain ⟨b, rest', -, inside'', rfl⟩ := List.forall₂_cons_right_iff.1 inside'
    cases inside''
    cases listed
    rfl
  · have ran : runGather 1 twoRows =
        .ok (.ofArray [2, 2] (#[3, 1, 6, 4] : Array Int64)) := by decide +kernel
    obtain ⟨values, i, positions, hvalues, hi, -, -, copied⟩ := gathered 1 _ _ rfl
      (counted _ _ rfl) ran
    cases hvalues
    cases hi
    obtain ⟨source, -, ⟨before, place, after, position, v, n, hindex, rfl, hbefore, hplace, hv, hn,
      -, counts⟩, same, -⟩ := copied.element [1, 0] (by decide)
    refine ⟨_, ran, same.trans ?_⟩
    obtain ⟨a, rfl⟩ := List.length_eq_one_iff.1 hbefore
    obtain ⟨b, rfl⟩ := List.length_eq_one_iff.1 hplace
    cases hindex
    cases hv
    cases hn
    obtain rfl : position = 2 := Int.ofNat.inj counts
    rfl
  · have ran : runExpand oneRow =
        .ok (.ofArray [2, 3] (#[1, 2, 3, 1, 2, 3] : Array Int64)) := by decide +kernel
    obtain ⟨_, _, -, -, -, copied⟩ := expanded _ ran
    obtain ⟨_, -, rfl, same, -⟩ := copied.element [1, 2] (by decide)
    exact ⟨_, ran, same⟩
  · have ran : runTile oneRow = .ok (.ofArray [2, 9]
        (#[1, 2, 3, 1, 2, 3, 1, 2, 3, 1, 2, 3, 1, 2, 3, 1, 2, 3] : Array Int64)) := by decide +kernel
    obtain ⟨_, _, -, -, -, -, copied⟩ := repeated _ ran
    obtain ⟨_, -, rfl, same, -⟩ := copied.element [1, 5] (by decide)
    exact ⟨_, ran, same⟩

end TensorGraph
