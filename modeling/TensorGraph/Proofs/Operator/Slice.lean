import TensorGraph.Operator.Selection
import TensorGraph.Proofs.Operator.Transpose

/-!
# Strided regions

Input:

* a tensor, and the bounds of a region: for some of its axes a start, an end and a step, of which starts
  and ends may count from the end of the axis or lie outside of it.

Along an axis the region has the positions from the clamped start on that precede the clamped end in the
direction of the step (`resolveRange_eq_ok`).  All of them are positions of the axis (`SliceRange.Within`),
so that the offsets of the region, which may be laid out backwards, are offsets of elements.

Main result:

* `Slice.run_reads`: each element of the region is the element of the tensor at the position that the
  bounds name.
-/

namespace TensorGraph

/-! ## Single elements -/

/-- The element at an offset, as a sequence of one element. -/
def Elements.single? (e : Elements) (i : Nat) : Option Elements :=
  match e with
  | .float32 xs => xs[i]?.map fun x => .float32 #[x]
  | .float64 xs => xs[i]?.map fun x => .float64 #[x]
  | .int64 xs => xs[i]?.map fun x => .int64 #[x]
  | .int32 xs => xs[i]?.map fun x => .int32 #[x]
  | .int8 xs => xs[i]?.map fun x => .int8 #[x]
  | .uint8 xs => xs[i]?.map fun x => .uint8 #[x]
  | .bool xs => xs[i]?.map fun x => .bool #[x]
  | .opaqueOf _ => none

/-- The element of a tensor at an index. -/
def Tensor.at? (t : Tensor) (index : List Nat) : Option Elements :=
  t.elements.single? (offsetOf index ((strides t.shape).map Nat.cast)).toNat

theorem Elements.isSome_single? {e : Elements} {i : Nat} (evaluable : e.isEvaluable = true)
    (h : i < e.count) : (e.single? i).isSome := by
  cases e with
  | opaqueOf type => cases evaluable
  | _ xs =>
      have bound : i < xs.size := h
      simp [single?, bound]

theorem Tensor.isSome_at? {t : Tensor} {index : List Nat} (counted : t.Counted)
    (evaluable : t.isEvaluable = true) (h : index ∈ indexes t.shape) : (t.at? index).isSome := by
  refine Elements.isSome_single? evaluable ?_
  rw [counted evaluable]
  exact toNat_offsetOf_lt h

/-- What is taken at some offsets are the elements at these offsets, of the same type. -/
theorem takeTensor_reads {t u : Tensor} {shape offsets : List Nat} (counted : t.Counted)
    (h : takeTensor t shape offsets = .ok u) :
    u.shape = shape ∧ u.elementType = t.elementType ∧ t.isEvaluable = true ∧
      ∀ i k, offsets[i]? = some k → k < elementCount t.shape →
        u.elements.single? i = t.elements.single? k := by
  obtain ⟨shape', elements, _⟩ := t
  have taken : ∀ {α : Type} [Inhabited α] (xs : Array α), xs.size = elementCount shape' →
      ∀ i k : Nat, offsets[i]? = some k → k < elementCount shape' →
        (takeAt xs offsets)[i]? = xs[k]? := by
    intro α _ xs size i k hi hk
    have bound : k < xs.size := by omega
    simp [takeAt, hi, Array.getD, bound]
  cases elements with
  | opaqueOf type => cases type <;> cases h
  | _ xs =>
      cases h
      refine ⟨rfl, rfl, rfl, fun i k hi hk => ?_⟩
      exact congrArg (Option.map _) (taken xs (counted rfl) i k hi hk)

/-! ## Positions along an axis -/

theorem lt_divideUp_iff {a b k : Nat} (h : 0 < b) : k < divideUp a b ↔ k * b < a := by
  unfold divideUp
  rw [← Nat.succ_le_iff, Nat.le_div_iff_mul_le h, Nat.succ_mul]
  omega

/-- An integer held between two bounds. -/
def clampTo (low high i : Int) : Int := max low (min high i)

/-- The position that a start or an end counts, before it is held to the axis. -/
def countedPosition (size : Nat) (i : Int) : Int := if i < 0 then i + size else i

/-- The first position of a region of an axis. -/
def firstPosition (size : Nat) (start step : Int) : Int :=
  if 0 < step then clampTo 0 size (countedPosition size start)
  else clampTo 0 (size - 1) (countedPosition size start)

/-- The position at which a region of an axis ends. -/
def endPosition (size : Nat) (stop step : Int) : Int :=
  if 0 < step then clampTo 0 size (countedPosition size stop)
  else clampTo (-1) (size - 1) (countedPosition size stop)

/-- Whether a position comes before another one in the direction of a step. -/
def Precedes (step i stop : Int) : Prop := if 0 < step then i < stop else stop < i

namespace SliceRange

/-- The position at some place of a range. -/
def position (r : SliceRange) (k : Nat) : Int := r.start + k * r.step

/-- Whether all positions of a range are positions of an axis. -/
def Within (r : SliceRange) (size : Nat) : Prop := ∀ k < r.count, 0 ≤ r.position k ∧ r.position k < size

end SliceRange

variable {size : Nat} {start stop step : Int} {r : SliceRange}

/-- The range of a region starts at the first position and has all positions before the end. -/
theorem resolveRange_eq_ok (h : resolveRange size start stop step = .ok r) :
    step ≠ 0 ∧ r.step = step ∧ (0 < size → (r.start : Int) = firstPosition size start step) ∧
      ∀ k : Nat, k < r.count ↔ 0 < size ∧
        Precedes step (firstPosition size start step + k * step) (endPosition size stop step) := by
  unfold resolveRange at h
  split at h
  · cases h
  · rename_i nonzero
    refine ⟨nonzero, ?_⟩
    dsimp only at h
    -- How many steps fit between two positions does not depend on the sign of the step.
    have fits : ∀ (k n : Nat) (low high : Int), 0 < n →
        (k < divideUp (high - low).toNat n ↔ low + k * n < high) := by
      intro k n low high positive
      have steps : (0 : Int) ≤ k * n := Int.mul_nonneg (Int.natCast_nonneg k) (Int.natCast_nonneg n)
      rw [lt_divideUp_iff positive, ← Int.ofNat_lt, Nat.cast_mul]
      omega
    split at h
    · rename_i positive
      cases h
      have abs : (step.toNat : Int) = step := by omega
      refine ⟨rfl, fun _ => ?_, fun k => ?_⟩
      · simp only [firstPosition, if_pos positive, clampTo, countedPosition]
        omega
      · simp only [firstPosition, endPosition, Precedes, if_pos positive]
        by_cases empty : size = 0
        · simp [empty]
        · have between := fits k step.toNat (clampTo 0 size (countedPosition size start))
            (clampTo 0 size (countedPosition size stop)) (by omega)
          rw [abs] at between
          simp only [if_neg empty]
          exact between.trans (by simp; omega)
    · rename_i nonpos
      cases h
      have abs : (step.natAbs : Int) = -step := by omega
      refine ⟨rfl, fun positive => ?_, fun k => ?_⟩
      · simp only [firstPosition, if_neg nonpos, clampTo, countedPosition]
        omega
      · simp only [firstPosition, endPosition, Precedes, if_neg nonpos]
        by_cases empty : size = 0
        · simp [empty]
        · have last : max ((size : Int) - 1) 0 = size - 1 := by omega
          have between := fits k step.natAbs (clampTo (-1) (size - 1) (countedPosition size stop))
            (clampTo 0 (size - 1) (countedPosition size start)) (by omega)
          rw [abs] at between
          simp only [if_neg empty, last]
          refine between.trans ?_
          rw [mul_neg]
          omega

/-- All positions of a range are positions of the axis. -/
theorem within_of_resolveRange (h : resolveRange size start stop step = .ok r) : r.Within size := by
  obtain ⟨nonzero, hstep, hstart, hcount⟩ := resolveRange_eq_ok h
  intro k hk
  obtain ⟨positive, before⟩ := (hcount k).1 hk
  unfold SliceRange.position
  rw [hstep, hstart positive]
  unfold Precedes firstPosition endPosition clampTo at *
  by_cases forward : 0 < step
  · have steps : 0 ≤ (k : Int) * step := Int.mul_nonneg (Int.natCast_nonneg k) (by omega)
    simp only [if_pos forward] at before ⊢
    omega
  · have steps : (k : Int) * step ≤ 0 := by
      exact Int.mul_nonpos_of_nonneg_of_nonpos (Int.natCast_nonneg k) (by omega)
    simp only [if_neg forward] at before ⊢
    omega

/-- An axis that is not cut has all its positions. -/
theorem within_whole (size : Nat) : SliceRange.Within { start := 0, count := size, step := 1 } size := by
  intro k hk
  dsimp only [SliceRange.position] at hk ⊢
  omega

/-! ## Regions -/

/-- Entries of a list are replaced at distinct places. -/
theorem foldlM_set_eq_ok {ε ρ δ : Type} (place : ρ → Nat) (f : ρ → Except ε δ) {entries : List ρ}
    {xs out : List δ} (nodup : (entries.map place).Nodup)
    (h : entries.foldlM (fun xs e => do return xs.set (place e) (← f e)) xs = .ok out) :
    out.length = xs.length ∧ (∀ i, i ∉ entries.map place → out[i]? = xs[i]?) ∧
      ∀ e ∈ entries, place e < xs.length → ∃ x, f e = .ok x ∧ out[place e]? = some x := by
  induction entries generalizing xs with
  | nil =>
      cases h
      exact ⟨rfl, fun _ _ => rfl, nofun⟩
  | cons e rest ih =>
      rw [List.map_cons, List.nodup_cons] at nodup
      rw [List.foldlM_cons] at h
      obtain ⟨xs', hxs', h⟩ := bind_eq_ok_iff.1 h
      obtain ⟨x, hx, hset⟩ := bind_eq_ok_iff.1 hxs'
      cases hset
      obtain ⟨length, others, replaced⟩ := ih nodup.2 h
      rw [List.length_set] at length replaced
      refine ⟨length, fun i hi => ?_, fun e' he' hlt => ?_⟩
      · rw [List.map_cons, List.mem_cons, not_or] at hi
        rw [others i hi.2, List.getElem?_set_ne (Ne.symm hi.1)]
      · rcases List.mem_cons.1 he' with rfl | he'
        · refine ⟨x, hx, ?_⟩
          rw [others _ nodup.1, List.getElem?_set_self hlt]
        · exact replaced e' he' hlt

/-- The index of the element that an index of a region reads. -/
def SliceRange.source (ranges : List SliceRange) (index : List Nat) : List Nat :=
  List.zipWith (fun r k => (r.position k).toNat) ranges index

theorem SliceRange.getElem?_source {ranges : List SliceRange} {index : List Nat} {i k : Nat}
    (hr : ranges[i]? = some r) (hk : index[i]? = some k) :
    (source ranges index)[i]? = some (r.position k).toNat := by
  rw [source, List.getElem?_zipWith, hr, hk]

/-- The offsets of a region, from that of its first element on, are those of the elements that its
indexes read. -/
theorem offsetOf_source {ranges : List SliceRange} {shape index : List Nat}
    (h : List.Forall₂ SliceRange.Within ranges shape)
    (hindex : index ∈ indexes (ranges.map SliceRange.count)) :
    SliceRange.source ranges index ∈ indexes shape ∧
      offsetOf (ranges.map SliceRange.start) ((strides shape).map Nat.cast) +
        offsetOf index ((ranges.zip (strides shape)).map fun p => p.1.step * (p.2 : Int)) =
      offsetOf (SliceRange.source ranges index) ((strides shape).map Nat.cast) := by
  induction h generalizing index with
  | nil =>
      cases index with
      | nil => exact ⟨by simp [SliceRange.source, indexes], rfl⟩
      | cons i index => simp [indexes] at hindex
  | @cons r n ranges shape within _ ih =>
      obtain ⟨k, index, hk, hrest, rfl⟩ : ∃ k index', k < r.count ∧
          index' ∈ indexes (ranges.map SliceRange.count) ∧ k :: index' = index := by
        simpa [indexes] using hindex
      obtain ⟨mem, same⟩ := ih hrest
      obtain ⟨lower, upper⟩ := within k hk
      have bound : (r.position k).toNat < n := by omega
      have first : ((r.position k).toNat : Int) = r.start + k * r.step := Int.toNat_of_nonneg lower
      refine ⟨?_, ?_⟩
      · rw [mem_indexes] at mem ⊢
        exact .cons bound mem
      · simp only [SliceRange.source, strides, List.map_cons, List.zip_cons_cons, List.zipWith_cons_cons,
          offsetOf] at same ⊢
        rw [first, ← same]
        ring

namespace SliceBounds

variable {b : SliceBounds} {shape : List Nat} {rank : Nat}

/-- Whether the bounds have a start, an end and a step for each axis. -/
structure Even (b : SliceBounds) : Prop where
  starts : b.starts.length = b.axes.length
  stops : b.stops.length = b.axes.length
  steps : b.steps.length = b.axes.length

theorem even_of_make {starts stops : List Int} {axes steps : Option (List Int)}
    (h : make starts stops axes steps = .ok b) : b.Even := by
  unfold make at h
  dsimp only at h
  split at h
  · cases h
  · cases h
    constructor <;> dsimp only <;> omega

/-- Whether the bounds cut an axis, of those that they stand for, with a start, an end and a step. -/
def Cuts (b : SliceBounds) (axes : List Nat) (axis : Nat) (start stop step : Int) : Prop :=
  ∃ j : Nat, axes[j]? = some axis ∧ b.starts[j]? = some start ∧ b.stops[j]? = some stop ∧
    b.steps[j]? = some step

theorem entries_eq_ok {entries : List (Nat × Int × Int × Int)} (h : b.entries rank = .ok entries) :
    ∃ axes, resolveAxes rank b.axes = .ok axes ∧
      entries = axes.zip (b.starts.zip (b.stops.zip b.steps)) := by
  obtain ⟨axes, haxes, h⟩ := bind_eq_ok_iff.1 h
  cases h
  exact ⟨axes, haxes, rfl⟩

theorem mem_entries_iff {axes : List Nat} {e : Nat × Int × Int × Int} :
    e ∈ axes.zip (b.starts.zip (b.stops.zip b.steps)) ↔ b.Cuts axes e.1 e.2.1 e.2.2.1 e.2.2.2 := by
  rw [List.mem_iff_getElem?]
  refine exists_congr fun j => ?_
  simp only [List.getElem?_zip_eq_some]

/-- Whether each axis that is cut has the range of its bounds, and all others have all positions. -/
structure Resolves (b : SliceBounds) (shape axes : List Nat) (ranges : List SliceRange) : Prop where
  length : ranges.length = shape.length
  whole : ∀ i n, i ∉ axes → shape[i]? = some n →
    ranges[i]? = some { start := 0, count := n, step := 1 }
  cut : ∀ axis start stop step, b.Cuts axes axis start stop step → ∃ n r, shape[axis]? = some n ∧
    resolveRange n start stop step = .ok r ∧ ranges[axis]? = some r

theorem ranges_eq_ok (even : b.Even) {ranges : List SliceRange} (h : b.ranges shape = .ok ranges) :
    ∃ axes, resolveAxes shape.length b.axes = .ok axes ∧ b.Resolves shape axes ranges := by
  obtain ⟨entries, hentries, h⟩ := bind_eq_ok_iff.1 h
  obtain ⟨axes, haxes, rfl⟩ := entries_eq_ok hentries
  obtain ⟨found, nodup⟩ := resolveAxes_eq_ok_iff.1 haxes
  have length : axes.length = b.axes.length := length_of_mapM_eq_some found
  have places : (axes.zip (b.starts.zip (b.stops.zip b.steps))).map Prod.fst = axes := by
    refine List.map_fst_zip ?_
    simp only [List.length_zip, even.starts, even.stops, even.steps, length, Nat.min_self, le_refl]
  obtain ⟨length', others, replaced⟩ := foldlM_set_eq_ok Prod.fst
    (fun e : Nat × Int × Int × Int => resolveRange (shape.getD e.1 0) e.2.1 e.2.2.1 e.2.2.2)
    (by rwa [places]) h
  rw [places] at others
  rw [List.length_map] at length' replaced
  refine ⟨axes, haxes, length', fun i n hi hn => ?_, fun axis start stop step cut => ?_⟩
  · rw [others i hi, List.getElem?_map, hn]
    rfl
  · have mem : (axis, start, stop, step) ∈ axes.zip (b.starts.zip (b.stops.zip b.steps)) :=
      mem_entries_iff.2 cut
    have bound : axis < shape.length := by
      exact lt_of_mapM_resolveAxis? found axis (List.mem_of_getElem? cut.choose_spec.1)
    obtain ⟨r, hr, hrange⟩ := replaced _ mem bound
    refine ⟨shape[axis], r, List.getElem?_eq_getElem bound, ?_, hrange⟩
    simpa [List.getD_eq_getElem?_getD, List.getElem?_eq_getElem bound] using hr

/-- The ranges of all dimensions, cut or not, have positions of the dimensions only. -/
theorem within_of_ranges (even : b.Even) {ranges : List SliceRange} (h : b.ranges shape = .ok ranges) :
    List.Forall₂ SliceRange.Within ranges shape := by
  obtain ⟨axes, haxes, resolves⟩ := ranges_eq_ok even h
  obtain ⟨found, -⟩ := resolveAxes_eq_ok_iff.1 haxes
  rw [List.forall₂_iff_get]
  refine ⟨resolves.length, fun i hi hi' => ?_⟩
  simp only [List.get_eq_getElem]
  by_cases mem : i ∈ axes
  · obtain ⟨j, hj, rfl⟩ := List.getElem_of_mem mem
    have bound : j < b.axes.length := by
      rwa [← length_of_mapM_eq_some found]
    obtain ⟨n, r, hn, hr, hrange⟩ := resolves.cut axes[j] _ _ _ ⟨j, List.getElem?_eq_getElem hj,
      List.getElem?_eq_getElem (even.starts ▸ bound), List.getElem?_eq_getElem (even.stops ▸ bound),
      List.getElem?_eq_getElem (even.steps ▸ bound)⟩
    rw [List.getElem?_eq_getElem hi'] at hn
    rw [List.getElem?_eq_getElem hi] at hrange
    rw [Option.some.inj hn, Option.some.inj hrange]
    exact within_of_resolveRange hr
  · have range := resolves.whole i _ mem (List.getElem?_eq_getElem hi')
    rw [List.getElem?_eq_getElem hi] at range
    rw [Option.some.inj range]
    exact within_whole _

namespace Resolves

variable {axes index : List Nat} {ranges : List SliceRange} {i axis : Nat} {start stop step : Int}

/-- An axis that is not cut keeps its size. -/
theorem getElem?_counts (h : b.Resolves shape axes ranges) (hi : i ∉ axes) :
    (ranges.map SliceRange.count)[i]? = shape[i]? := by
  rw [List.getElem?_map]
  cases hn : shape[i]? with
  | none =>
      have outside : ranges[i]? = none := by
        rw [List.getElem?_eq_none_iff, h.length]
        exact List.getElem?_eq_none_iff.1 hn
      rw [outside, Option.map_none]
  | some n => rw [h.whole i n hi hn, Option.map_some]

/-- Along an axis that is not cut the positions are the same. -/
theorem getElem?_source (h : b.Resolves shape axes ranges) (length : index.length = shape.length)
    (hi : i ∉ axes) : (SliceRange.source ranges index)[i]? = index[i]? := by
  cases hk : index[i]? with
  | none =>
      rw [List.getElem?_eq_none_iff] at hk ⊢
      rw [SliceRange.source, List.length_zipWith]
      omega
  | some k =>
      obtain ⟨bound, -⟩ := List.getElem?_eq_some_iff.1 hk
      have range := h.whole i _ hi (List.getElem?_eq_getElem (length ▸ bound))
      rw [SliceRange.getElem?_source range hk]
      simp [SliceRange.position]

/-- Along an axis that is cut the positions are as many steps from the first one. -/
theorem exists_source (h : b.Resolves shape axes ranges)
    (hindex : List.Forall₂ (· < ·) index (ranges.map SliceRange.count))
    (hcut : b.Cuts axes axis start stop step) :
    ∃ n k i, shape[axis]? = some n ∧ index[axis]? = some k ∧
      (SliceRange.source ranges index)[axis]? = some i ∧
        (i : Int) = firstPosition n start step + k * step := by
  obtain ⟨n, r, hn, hr, hrange⟩ := h.cut axis start stop step hcut
  obtain ⟨-, hstep, hstart, hcount⟩ := resolveRange_eq_ok hr
  obtain ⟨bound, -⟩ := List.getElem?_eq_some_iff.1 hrange
  have place : axis < index.length := by
    rw [hindex.length_eq, List.length_map]
    exact bound
  have hk : index[axis] < r.count := by
    have size : (ranges.map SliceRange.count)[axis]? = some r.count := by
      rw [List.getElem?_map, hrange]
      rfl
    obtain ⟨inside, size⟩ := List.getElem?_eq_some_iff.1 size
    rw [← size]
    exact (List.forall₂_iff_get.1 hindex).2 axis place inside
  refine ⟨n, index[axis], _, hn, List.getElem?_eq_getElem place,
    SliceRange.getElem?_source hrange (List.getElem?_eq_getElem place), ?_⟩
  rw [Int.toNat_of_nonneg (within_of_resolveRange hr _ hk).1, SliceRange.position, hstep,
    hstart ((hcount _).1 hk).1]

end Resolves

end SliceBounds

namespace Slice

variable {s : Slice} {inputs : Inputs} {t u : Tensor} {b : SliceBounds}

theorem even_of_bounds (h : s.bounds inputs = .ok b) : b.Even := by
  unfold bounds at h
  split at h
  · exact SliceBounds.even_of_make h
  · obtain ⟨_, _, h⟩ := bind_eq_ok_iff.1 h
    obtain ⟨_, _, h⟩ := bind_eq_ok_iff.1 h
    obtain ⟨_, _, h⟩ := bind_eq_ok_iff.1 h
    obtain ⟨_, _, h⟩ := bind_eq_ok_iff.1 h
    exact SliceBounds.even_of_make h

/-- The elements in some ranges are those that the indexes of the region read. -/
theorem takeRanges_reads {ranges : List SliceRange} (counted : t.Counted)
    (within : List.Forall₂ SliceRange.Within ranges t.shape) (h : takeRanges t ranges = .ok u) :
    u.shape = ranges.map SliceRange.count ∧ u.elementType = t.elementType ∧
      ∀ index ∈ indexes u.shape, SliceRange.source ranges index ∈ indexes t.shape ∧
        u.at? index = t.at? (SliceRange.source ranges index) ∧
        (t.at? (SliceRange.source ranges index)).isSome := by
  obtain ⟨shape, type, evaluable, reads⟩ := takeTensor_reads counted h
  refine ⟨shape, type, fun index hindex => ?_⟩
  rw [shape] at hindex
  obtain ⟨mem, same⟩ := offsetOf_source within hindex
  refine ⟨mem, ?_, Tensor.isSome_at? counted evaluable mem⟩
  refine reads _ _ ?_ (toNat_offsetOf_lt mem)
  rw [shape, stridedOffsets, List.getElem?_map, getElem?_indexes hindex, Option.map_some]
  exact congrArg (fun offset : Int => some offset.toNat) same

/-- A region has, along each axis that is cut, as many positions as there are from the first one on, a
step apart, that precede the end, and all positions of the other axes.  Each of its elements is the one
that the tensor has at the positions that its index counts. -/
theorem run_reads (ht : inputs.require 0 = .ok t) (counted : t.Counted)
    (hb : s.bounds inputs = .ok b) (h : s.run inputs = .ok u) :
    ∃ axes, resolveAxes t.rank b.axes = .ok axes ∧ b.Even ∧ u.rank = t.rank ∧
      u.elementType = t.elementType ∧
      (∀ i, i ∉ axes → u.shape[i]? = t.shape[i]?) ∧
      (∀ axis start stop step, b.Cuts axes axis start stop step →
        ∃ n c, t.shape[axis]? = some n ∧ u.shape[axis]? = some c ∧ ∀ k : Nat, k < c ↔
          0 < n ∧ Precedes step (firstPosition n start step + k * step) (endPosition n stop step)) ∧
      ∀ index, List.Forall₂ (· < ·) index u.shape → ∃ source,
        List.Forall₂ (· < ·) source t.shape ∧ u.at? index = t.at? source ∧ (t.at? source).isSome ∧
        (∀ i, i ∉ axes → source[i]? = index[i]?) ∧
        ∀ axis start stop step, b.Cuts axes axis start stop step →
          ∃ n k i, t.shape[axis]? = some n ∧ index[axis]? = some k ∧ source[axis]? = some i ∧
            (i : Int) = firstPosition n start step + k * step := by
  unfold run at h
  rw [ht] at h
  obtain ⟨b', hb', h⟩ := bind_eq_ok_iff.1 (show (s.bounds inputs >>= fun b =>
    b.ranges t.shape >>= takeRanges t) = .ok u from h)
  obtain rfl : b = b' := Except.ok.inj (hb.symm.trans hb')
  obtain ⟨ranges, hranges, h⟩ := bind_eq_ok_iff.1 h
  have even : b.Even := even_of_bounds hb
  have within := SliceBounds.within_of_ranges even hranges
  obtain ⟨axes, haxes, resolves⟩ := SliceBounds.ranges_eq_ok even hranges
  obtain ⟨shape, type, reads⟩ := takeRanges_reads counted within h
  have rank : u.rank = t.rank := by
    rw [Tensor.rank, shape, List.length_map, resolves.length, Tensor.rank]
  refine ⟨axes, haxes, even, rank, type, fun i hi => ?_, fun axis start stop step hcut => ?_,
    fun index hindex => ?_⟩
  · rw [shape]
    exact resolves.getElem?_counts hi
  · obtain ⟨n, r, hn, hr, hrange⟩ := resolves.cut axis start stop step hcut
    refine ⟨n, r.count, hn, by rw [shape, List.getElem?_map, hrange]; rfl, ?_⟩
    exact (resolveRange_eq_ok hr).2.2.2
  · obtain ⟨mem, same, found⟩ := reads index (mem_indexes.2 hindex)
    have length : index.length = t.shape.length := hindex.length_eq.trans rank
    rw [shape] at hindex
    exact ⟨_, mem_indexes.1 mem, same, found, fun i hi => resolves.getElem?_source length hi,
      fun axis start stop step hcut => resolves.exists_source hindex hcut⟩

/-- Every second element of a vector of five, from the last one on. -/
def backwards : Inputs :=
  [some (.vector (#[10, 11, 12, 13, 14] : Array Int64)), some (.vector (#[-1] : Array Int64)),
    some (.vector (#[-100] : Array Int64)), none, some (.vector (#[-2] : Array Int64))]

/-- The region runs from position 4 down to the first one, so its second element is at position 2. -/
theorem run_reads_backwards : ∃ u, run {} backwards = .ok u ∧ u.shape = [3] ∧
    u.at? [1] = some (.int64 #[12]) := by
  have counted : (Tensor.vector (#[10, 11, 12, 13, 14] : Array Int64)).Counted := by
    exact (Tensor.computed_vector _).storable.counted
  have ran : run {} backwards = .ok (.vector (#[14, 12, 10] : Array Int64)) := by decide +kernel
  have bounds : Slice.bounds {} backwards =
      .ok { starts := [-1], stops := [-100], axes := [0], steps := [-2] } := by rfl
  obtain ⟨axes, haxes, -, -, -, -, -, reads⟩ := run_reads rfl counted bounds ran
  refine ⟨_, ran, rfl, ?_⟩
  obtain rfl : [0] = axes := Except.ok.inj ((by rfl : resolveAxes 1 [0] = .ok [0]).symm.trans haxes)
  obtain ⟨source, inside, same, -, -, position⟩ := reads [1] (by simp [Tensor.vector, Tensor.ofArray])
  obtain ⟨n, k, i, hn, hk, hi, value⟩ := position 0 (-1) (-100) (-2) ⟨0, rfl, rfl, rfl, rfl⟩
  cases hn
  cases hk
  have second : i = 2 := by
    have at_two : firstPosition 5 (-1) (-2) + ((1 : Nat) : Int) * -2 = 2 := by decide
    exact Int.ofNat.inj (value.trans at_two)
  obtain ⟨j, rest, -, tail, rfl⟩ := List.forall₂_cons_right_iff.1 inside
  cases tail
  cases hi
  rw [same, second]
  rfl

end Slice
end TensorGraph
