import Mathlib.Algebra.Order.Floor.Div
import Mathlib.Tactic.Ring
import TensorGraph.Operator.Window
import TensorGraph.Proofs.Tensor.Index

/-!
# Windows over an input

Input:

* a window, and the sizes of the dimensions over which it moves.

Along one dimension a place of the window and an entry of its kernel name a position of the padded input.
With known padding there are as many places as fit (`WindowAxis.fills_of_paddedAxis`); with one place for
each stride the padding is made for them (`WindowAxis.fillsStrides_sameAxis`).  Over all dimensions an entry
lies over an index of the input or over padding (`LiesOver`), and the offset that is read there is the place
of this index (`tapOffset?_eq_some_iff`).

Main result:

* `Window.layout_covers`: how a window that is accepted fits its input, and what each entry of its kernel
  reads.
-/

namespace TensorGraph

/-! ## One dimension -/

namespace WindowAxis

variable {a : WindowAxis} {size extent stride dilation padBegin padEnd : Nat}

/-- The size with the padding at both ends. -/
def padded (a : WindowAxis) : Nat := a.size + a.padBegin + a.padEnd

/-- Whether the window has a place, its last place lies in the padded input, and one more would not. -/
structure Fills (a : WindowAxis) (extent : Nat) : Prop where
  places : 0 < a.places
  inside : (a.places - 1) * a.stride + extent ≤ a.padded
  full : a.padded < a.places * a.stride + extent

/-- Whether there is one place for each stride, and enough padding for the last one. -/
structure FillsStrides (a : WindowAxis) (extent : Nat) : Prop where
  places : a.places = a.size ⌈/⌉ a.stride
  inside : 0 < a.places → (a.places - 1) * a.stride + extent ≤ a.padded

theorem position?_eq_some_iff {p k i : Nat} :
    a.position? p k = some i ↔ i < a.size ∧ p * a.stride + k * a.dilation = a.padBegin + i := by
  unfold position?
  dsimp only
  split
  · rw [Option.some.injEq]
    omega
  · simp only [reduceCtorEq, false_iff]
    omega

theorem exists_of_paddedAxis {ceilMode : Bool}
    (h : paddedAxis ceilMode size extent stride dilation padBegin padEnd = .ok a) :
    extent ≤ size + padBegin + padEnd ∧
      ∃ places, a = { size, stride, dilation, padBegin, padEnd, places } ∧
        (ceilMode = false → places = (size + padBegin + padEnd - extent) / stride + 1) := by
  unfold paddedAxis at h
  dsimp only at h
  by_cases small : size + padBegin + padEnd < extent
  · rw [if_pos small] at h
    cases h
  · rw [if_neg small] at h
    cases h
    refine ⟨Nat.le_of_not_lt small, _, rfl, ?_⟩
    rintro rfl
    rfl

/-- As many places fit into a padded input as the quotient says. -/
theorem fills_of_paddedAxis (moves : 0 < stride)
    (h : paddedAxis false size extent stride dilation padBegin padEnd = .ok a) : a.Fills extent := by
  obtain ⟨room, places, rfl, floor⟩ := exists_of_paddedAxis h
  obtain rfl := floor rfl
  have low := Nat.div_mul_le_self (size + padBegin + padEnd - extent) stride
  have high := Nat.lt_mul_div_succ (size + padBegin + padEnd - extent) moves
  constructor
  · exact Nat.succ_pos _
  · dsimp only [padded]
    rw [Nat.add_sub_cancel]
    omega
  · dsimp only [padded]
    rw [Nat.mul_comm]
    omega

theorem fillsStrides_sameAxis (size extent stride dilation : Nat) (upper : Bool) :
    (sameAxis upper size extent stride dilation).FillsStrides extent := by
  constructor
  · rfl
  · intro some
    have least : max (divideUp size stride) 1 = divideUp size stride := Nat.max_eq_left some
    unfold sameAxis padded
    dsimp only
    rw [least]
    cases upper <;> simp only [if_true, Bool.false_eq_true, if_false] <;> omega

/-- An odd part of the padding is added at the end or at the start. -/
theorem pads_sameAxis (size extent stride dilation : Nat) (upper : Bool) :
    (upper = true → (sameAxis upper size extent stride dilation).padBegin ≤
        (sameAxis upper size extent stride dilation).padEnd ∧
      (sameAxis upper size extent stride dilation).padEnd ≤
        (sameAxis upper size extent stride dilation).padBegin + 1) ∧
    (upper = false → (sameAxis upper size extent stride dilation).padEnd ≤
        (sameAxis upper size extent stride dilation).padBegin ∧
      (sameAxis upper size extent stride dilation).padBegin ≤
        (sameAxis upper size extent stride dilation).padEnd + 1) := by
  unfold sameAxis
  cases upper <;> simp only [if_true, Bool.false_eq_true, if_false, reduceCtorEq, false_implies,
    true_implies, true_and, and_true] <;> omega

end WindowAxis

/-- Strides and dilations are positive, one for each dimension, and 1 where they are not given. -/
theorem getElem?_of_perDimension {values numbers : List Nat} {rank i v : Nat}
    (h : perDimension values rank = .ok numbers) (hv : numbers[i]? = some v) :
    0 < v ∧ v = values[i]?.getD 1 := by
  unfold perDimension at h
  split_ifs at h with none given
  · cases h
    rw [List.getElem?_replicate] at hv
    split at hv
    · cases hv
      rw [List.isEmpty_iff.1 none]
      exact ⟨Nat.one_pos, rfl⟩
    · cases hv
  · cases h
    rw [hv]
    exact ⟨of_decide_eq_true (List.all_eq_true.1 given.2 v (List.mem_of_getElem? hv)), rfl⟩

theorem length_of_perDimension {values numbers : List Nat} {rank : Nat}
    (h : perDimension values rank = .ok numbers) : numbers.length = rank := by
  unfold perDimension at h
  split_ifs at h with none given
  · cases h
    exact List.length_replicate
  · cases h
    exact given.1

theorem explicitPads_eq_ok_iff {pads : List Nat} {rank i : Nat} {r : Nat × Nat} :
    explicitPads pads rank i = .ok r ↔
      (pads = [] ∨ pads.length = 2 * rank) ∧ r = (pads.getD i 0, pads.getD (i + rank) 0) := by
  unfold explicitPads
  cases pads with
  | nil => simp [eq_comm]
  | cons p pads =>
      rw [if_neg (by simp)]
      by_cases length : (p :: pads).length = 2 * rank
      · rw [if_neg (not_not.2 length), Except.ok.injEq, eq_comm]
        simp only [length, or_true, true_and]
      · rw [if_pos length]
        simp only [length, reduceCtorEq, or_self, false_and]

/-- Whether there is one place for each stride, with as much padding as it takes. -/
def Padding.IsSame (p : Padding) : Prop := p = .sameUpper ∨ p = .sameLower

namespace Window

variable {w : Window} {sizes : List Nat} {layout : List WindowAxis} {a : WindowAxis}
  {rank i size kernel stride dilation : Nat}

/-- How a window fits an input along the dimension at a position, where the extent is how far its kernel
reaches there. -/
structure Fits (w : Window) (rank i size extent : Nat) (a : WindowAxis) : Prop where
  size : a.size = size
  stride : 0 < a.stride ∧ a.stride = w.strides[i]?.getD 1
  dilation : 0 < a.dilation ∧ a.dilation = w.dilations[i]?.getD 1
  pads : ∀ pads, w.padding = .explicit pads → (pads = [] ∨ pads.length = 2 * rank) ∧
    a.padBegin = pads.getD i 0 ∧ a.padEnd = pads.getD (i + rank) 0
  noPads : w.padding = .valid → a.padBegin = 0 ∧ a.padEnd = 0
  fills : ¬ w.padding.IsSame → w.ceilMode = false → a.Fills extent
  fillsStrides : w.padding.IsSame → a.FillsStrides extent
  upper : w.padding = .sameUpper → a.padBegin ≤ a.padEnd ∧ a.padEnd ≤ a.padBegin + 1
  lower : w.padding = .sameLower → a.padEnd ≤ a.padBegin ∧ a.padBegin ≤ a.padEnd + 1

section

variable (hstride : 0 < stride ∧ stride = w.strides[i]?.getD 1)
  (hdilation : 0 < dilation ∧ dilation = w.dilations[i]?.getD 1)

include hstride hdilation

/-- A dimension with one place for each stride. -/
theorem fits_sameAxis (upper : Bool) (hp : w.padding = if upper then .sameUpper else .sameLower)
    (extent : Nat) :
    w.Fits rank i size extent (sameAxis upper size extent stride dilation) := by
  obtain ⟨atEnd, atStart⟩ := WindowAxis.pads_sameAxis size extent stride dilation upper
  have filled := WindowAxis.fillsStrides_sameAxis size extent stride dilation upper
  cases upper with
  | true =>
      rw [if_pos rfl] at hp
      exact ⟨rfl, hstride, hdilation, by simp [hp], by simp [hp],
        fun other => absurd (Or.inl hp) other, fun _ => filled, fun _ => atEnd rfl, by simp [hp]⟩
  | false =>
      rw [if_neg Bool.false_ne_true] at hp
      exact ⟨rfl, hstride, hdilation, by simp [hp], by simp [hp],
        fun other => absurd (Or.inr hp) other, fun _ => filled, by simp [hp], fun _ => atStart rfl⟩

/-- A dimension with known padding. -/
theorem fits_of_paddedAxis {extent padBegin padEnd : Nat} (known : ¬ w.padding.IsSame)
    (pads : ∀ pads, w.padding = .explicit pads → (pads = [] ∨ pads.length = 2 * rank) ∧
      padBegin = pads.getD i 0 ∧ padEnd = pads.getD (i + rank) 0)
    (noPads : w.padding = .valid → padBegin = 0 ∧ padEnd = 0)
    (h : paddedAxis w.ceilMode size extent stride dilation padBegin padEnd = .ok a) :
    w.Fits rank i size extent a ∧ a.dilation = dilation := by
  obtain ⟨-, places, rfl, -⟩ := WindowAxis.exists_of_paddedAxis h
  refine ⟨⟨rfl, hstride, hdilation, pads, noPads, fun _ floor => ?_, fun same => absurd same known,
    fun upper => absurd (Or.inl upper) known, fun lower => absurd (Or.inr lower) known⟩, rfl⟩
  rw [floor] at h
  exact WindowAxis.fills_of_paddedAxis hstride.1 h

theorem fits_of_axisAt (h : w.axisAt rank i size kernel stride dilation = .ok a) :
    w.Fits rank i size (kernelExtent kernel dilation) a ∧ a.dilation = dilation := by
  unfold axisAt at h
  cases hp : w.padding with
  | sameUpper =>
      rw [hp] at h
      cases h
      exact ⟨fits_sameAxis hstride hdilation true hp _, rfl⟩
  | sameLower =>
      rw [hp] at h
      cases h
      exact ⟨fits_sameAxis hstride hdilation false hp _, rfl⟩
  | explicit pads =>
      rw [hp] at h
      obtain ⟨⟨padBegin, padEnd⟩, given, h⟩ := bind_eq_ok_iff.1 h
      obtain ⟨length, same⟩ := explicitPads_eq_ok_iff.1 given
      cases same
      refine fits_of_paddedAxis hstride hdilation (by simp [Padding.IsSame, hp]) (fun pads' hp' => ?_)
        (by simp [hp]) h
      cases hp.symm.trans hp'
      exact ⟨length, rfl, rfl⟩
  | valid =>
      rw [hp] at h
      exact fits_of_paddedAxis hstride hdilation (by simp [Padding.IsSame, hp]) (by simp [hp])
        (fun _ => ⟨rfl, rfl⟩) h

end

/-- A layout has one dimension for each size, which the window fits there. -/
theorem layout_eq_ok_iff :
    w.layout sizes = .ok layout ↔ w.kernel.length = sizes.length ∧ ∃ strides dilations,
      perDimension w.strides sizes.length = .ok strides ∧
      perDimension w.dilations sizes.length = .ok dilations ∧
      List.Forall₂ (fun p a => w.axisAt sizes.length p.2 p.1.1 p.1.2.1 p.1.2.2.1 p.1.2.2.2 = .ok a)
        (sizes.zip (w.kernel.zip (strides.zip dilations))).zipIdx layout := by
  unfold Window.layout
  dsimp only
  by_cases rank : w.kernel.length = sizes.length
  · rw [if_neg (not_not.2 rank)]
    simp only [bind_eq_ok_iff, mapM_eq_ok_iff, rank, true_and, exists_and_left]
  · rw [if_pos rank]
    simp only [rank, reduceCtorEq, false_and]

theorem exists_fits {i : Nat} (h : w.layout sizes = .ok layout) (ha : layout[i]? = some a) :
    ∃ size kernel, sizes[i]? = some size ∧ w.kernel[i]? = some kernel ∧
      w.Fits sizes.length i size (kernelExtent kernel a.dilation) a := by
  obtain ⟨-, strides, dilations, hstrides, hdilations, all⟩ := layout_eq_ok_iff.1 h
  have related := rel_getElem? all i
  rw [ha, List.getElem?_zipIdx] at related
  generalize hp : (sizes.zip (w.kernel.zip (strides.zip dilations)))[i]? = o at related
  cases o with
  | none => cases related
  | some p =>
      cases related with
      | some here =>
          obtain ⟨hsize, hrest⟩ := List.getElem?_zip_eq_some.1 hp
          obtain ⟨hkernel, hrest⟩ := List.getElem?_zip_eq_some.1 hrest
          obtain ⟨hstride, hdilation⟩ := List.getElem?_zip_eq_some.1 hrest
          rw [Nat.zero_add] at here
          obtain ⟨fits, same⟩ := fits_of_axisAt (getElem?_of_perDimension hstrides hstride)
            (getElem?_of_perDimension hdilations hdilation) here
          rw [same]
          exact ⟨_, _, hsize, hkernel, fits⟩

theorem length_of_layout (h : w.layout sizes = .ok layout) : layout.length = sizes.length := by
  obtain ⟨rank, strides, dilations, hstrides, hdilations, all⟩ := layout_eq_ok_iff.1 h
  have length := all.length_eq
  simp only [List.length_zipIdx, List.length_zip, rank, length_of_perDimension hstrides,
    length_of_perDimension hdilations, Nat.min_self] at length
  exact length.symm

/-- The sizes of a layout are those of the input. -/
theorem map_size_of_layout (h : w.layout sizes = .ok layout) : layout.map WindowAxis.size = sizes := by
  refine List.ext_getElem? fun i => ?_
  rw [List.getElem?_map]
  cases ha : layout[i]? with
  | none =>
      rw [List.getElem?_eq_none_iff, length_of_layout h] at ha
      rw [List.getElem?_eq_none_iff.2 ha, Option.map_none]
  | some a =>
      obtain ⟨size, kernel, hsize, -, fits⟩ := exists_fits h ha
      rw [hsize, Option.map_some, fits.size]

end Window

/-! ## What a window reads -/

/-- Whether a window at a place has an entry of its kernel over an index of the input: in each dimension the
entry is as far from the start of the padding as the index is. -/
inductive LiesOver : List WindowAxis → (place entry index : List Nat) → Prop
  | nil : LiesOver [] [] [] []
  | cons {a : WindowAxis} {axes : List WindowAxis} {p k i : Nat} {place entry index : List Nat}
      (inside : i < a.size) (here : p * a.stride + k * a.dilation = a.padBegin + i)
      (rest : LiesOver axes place entry index) :
      LiesOver (a :: axes) (p :: place) (k :: entry) (i :: index)

section

variable {layout : List WindowAxis} {place entry index : List Nat}

theorem length_of_mem_places (h : place ∈ indexes (placeCounts layout)) :
    place.length = layout.length := by
  rw [length_of_mem_indexes h, placeCounts, List.length_map]

theorem LiesOver.mem_indexes (h : LiesOver layout place entry index) :
    index ∈ indexes (layout.map WindowAxis.size) := by
  rw [TensorGraph.mem_indexes]
  induction h with
  | nil => exact .nil
  | cons inside _ _ ih => exact .cons inside ih

/-- What is read under an entry is the element at the index over which the entry lies. -/
theorem tapOffset?_eq_some_iff {base offset : Nat} (hplace : place.length = layout.length)
    (hentry : entry.length = layout.length) :
    tapOffset? layout place entry base = some offset ↔ ∃ index, LiesOver layout place entry index ∧
      offset = base * elementCount (layout.map WindowAxis.size) +
        rowMajor (layout.map WindowAxis.size) index := by
  induction layout generalizing place entry base with
  | nil =>
      obtain rfl := List.eq_nil_of_length_eq_zero hplace
      obtain rfl := List.eq_nil_of_length_eq_zero hentry
      constructor
      · rintro ⟨⟩
        exact ⟨[], .nil, by simp⟩
      · rintro ⟨index, lies, rfl⟩
        cases lies
        simp [tapOffset?]
  | cons a axes ih =>
      obtain ⟨p, place, rfl⟩ := List.exists_cons_of_length_eq_add_one hplace
      obtain ⟨k, entry, rfl⟩ := List.exists_cons_of_length_eq_add_one hentry
      have rest := fun base => @ih place entry base (Nat.succ.inj hplace) (Nat.succ.inj hentry)
      have block : ∀ i index, (base * a.size + i) * elementCount (axes.map WindowAxis.size) +
          rowMajor (axes.map WindowAxis.size) index =
            base * elementCount ((a :: axes).map WindowAxis.size) +
              rowMajor ((a :: axes).map WindowAxis.size) (i :: index) := by
        intro i index
        rw [List.map_cons, elementCount_cons, rowMajor_cons]
        ring
      constructor
      · intro h
        obtain ⟨i, hi, h⟩ := Option.bind_eq_some_iff.1 h
        obtain ⟨inside, here⟩ := WindowAxis.position?_eq_some_iff.1 hi
        obtain ⟨index, lies, rfl⟩ := (rest _).1 h
        exact ⟨i :: index, .cons inside here lies, block i index⟩
      · rintro ⟨index, lies, rfl⟩
        cases lies with
        | cons inside here lies =>
            refine Option.bind_eq_some_iff.2
              ⟨_, WindowAxis.position?_eq_some_iff.2 ⟨inside, here⟩, ?_⟩
            exact (rest _).2 ⟨_, lies, (block _ _).symm⟩

/-- The index over which an entry of the kernel lies, unless it lies over padding. -/
def indexUnder? : List WindowAxis → (place entry : List Nat) → Option (List Nat)
  | a :: axes, p :: place, k :: entry => do
    let i ← a.position? p k
    return i :: (← indexUnder? axes place entry)
  | _, _, _ => some []

theorem indexUnder?_eq_some_iff (hplace : place.length = layout.length)
    (hentry : entry.length = layout.length) :
    indexUnder? layout place entry = some index ↔ LiesOver layout place entry index := by
  induction layout generalizing place entry index with
  | nil =>
      obtain rfl := List.eq_nil_of_length_eq_zero hplace
      obtain rfl := List.eq_nil_of_length_eq_zero hentry
      constructor
      · rintro ⟨⟩
        exact .nil
      · rintro ⟨⟩
        rfl
  | cons a axes ih =>
      obtain ⟨p, place, rfl⟩ := List.exists_cons_of_length_eq_add_one hplace
      obtain ⟨k, entry, rfl⟩ := List.exists_cons_of_length_eq_add_one hentry
      have rest := fun index => @ih place entry index (Nat.succ.inj hplace) (Nat.succ.inj hentry)
      constructor
      · intro h
        obtain ⟨i, hi, h⟩ := Option.bind_eq_some_iff.1 h
        obtain ⟨index, hindex, h⟩ := Option.bind_eq_some_iff.1 h
        cases h
        obtain ⟨inside, here⟩ := WindowAxis.position?_eq_some_iff.1 hi
        exact .cons inside here ((rest _).1 hindex)
      · intro lies
        cases lies with
        | cons inside here lies =>
            exact Option.bind_eq_some_iff.2 ⟨_, WindowAxis.position?_eq_some_iff.2 ⟨inside, here⟩,
              Option.bind_eq_some_iff.2 ⟨_, (rest _).2 lies, rfl⟩⟩

/-- The offset that is read is the place of the index over which the entry lies. -/
theorem tapOffset?_eq_map (hplace : place.length = layout.length)
    (hentry : entry.length = layout.length) :
    tapOffset? layout place entry 0 =
      (indexUnder? layout place entry).map (rowMajor (layout.map WindowAxis.size)) := by
  refine Option.ext fun offset => ?_
  rw [tapOffset?_eq_some_iff hplace hentry, Option.map_eq_some_iff]
  simp only [indexUnder?_eq_some_iff hplace hentry, Nat.zero_mul, Nat.zero_add, eq_comm]

end

theorem splitChannels_eq_ok_iff {shape sizes : List Nat} {samples channels : Nat} :
    splitChannels shape = .ok (samples, channels, sizes) ↔
      shape = samples :: channels :: sizes ∧ sizes ≠ [] := by
  unfold splitChannels
  constructor
  · intro h
    split at h
    · cases h
      exact ⟨rfl, List.cons_ne_nil _ _⟩
    · cases h
  · rintro ⟨rfl, some⟩
    obtain ⟨size, rest, rfl⟩ := List.exists_cons_of_ne_nil some
    rfl

/-! ## Windows that are accepted -/

/-- Along each dimension the places of a window that is accepted fill the padded input, or there is one for
each stride.  At any place, also outside of the layout, an entry of the kernel reads the element over which it
lies, whose offset is in range, and it reads nothing where it lies over padding. -/
theorem Window.layout_covers {w : Window} {sizes : List Nat} {layout : List WindowAxis}
    (h : w.layout sizes = .ok layout) :
    layout.length = sizes.length ∧
    (∀ i a, layout[i]? = some a → ∃ size kernel, sizes[i]? = some size ∧ w.kernel[i]? = some kernel ∧
      w.Fits sizes.length i size ((kernel - 1) * a.dilation + 1) a) ∧
    ∀ place entry : List Nat, place.length = sizes.length → entry.length = sizes.length →
      (∀ offset, tapOffset? layout place entry 0 = some offset → offset < elementCount sizes) ∧
      (∀ offset, tapOffset? layout place entry 0 = some offset ↔
        ∃ index, LiesOver layout place entry index ∧ rowMajor sizes index = offset) ∧
      (tapOffset? layout place entry 0 = none ↔ ∀ index, ¬ LiesOver layout place entry index) := by
  have length := length_of_layout h
  have same := map_size_of_layout h
  refine ⟨length, fun i a ha => ?_, fun place entry hplace hentry => ?_⟩
  · obtain ⟨size, kernel, hsize, hkernel, fits⟩ := exists_fits h ha
    have reaches : max kernel 1 - 1 = kernel - 1 := by omega
    rw [kernelExtent, reaches] at fits
    exact ⟨size, kernel, hsize, hkernel, fits⟩
  · have taps : ∀ offset, tapOffset? layout place entry 0 = some offset ↔
        ∃ index, LiesOver layout place entry index ∧ rowMajor sizes index = offset := by
      intro offset
      rw [tapOffset?_eq_some_iff (hplace.trans length.symm) (hentry.trans length.symm), same]
      simp only [Nat.zero_mul, Nat.zero_add, eq_comm]
    refine ⟨fun offset hoffset => ?_, taps, ?_⟩
    · obtain ⟨index, lies, rfl⟩ := (taps offset).1 hoffset
      exact rowMajor_lt (same ▸ lies.mem_indexes)
    · rw [Option.eq_none_iff_forall_ne_some]
      constructor
      · intro none index lies
        exact none _ ((taps _).2 ⟨index, lies, rfl⟩)
      · intro none offset hoffset
        obtain ⟨index, lies, -⟩ := (taps offset).1 hoffset
        exact none index lies

/-- A window that skips every second row of its input, with padding on all sides but the left one. -/
def skippingRows : Window :=
  { kernel := [3, 2], strides := [2, 1], dilations := [2, 1], padding := .sameUpper }

/-- Over six rows of five elements it has three times five places.  At the last row of places its first row
lies over the fourth row of the input; at the end of a row its second column lies over padding. -/
theorem Window.layout_covers_skippingRows :
    skippingRows.layout [6, 5] = .ok [⟨6, 2, 2, 1, 2, 3⟩, ⟨5, 1, 1, 0, 1, 5⟩] ∧
      (⟨6, 2, 2, 1, 2, 3⟩ : WindowAxis).FillsStrides 5 ∧
      tapOffset? [⟨6, 2, 2, 1, 2, 3⟩, ⟨5, 1, 1, 0, 1, 5⟩] [2, 3] [0, 1] 0 = some 19 ∧
      19 < elementCount [6, 5] ∧
      tapOffset? [⟨6, 2, 2, 1, 2, 3⟩, ⟨5, 1, 1, 0, 1, 5⟩] [0, 4] [1, 1] 0 = none := by
  have accepted : skippingRows.layout [6, 5] = .ok [⟨6, 2, 2, 1, 2, 3⟩, ⟨5, 1, 1, 0, 1, 5⟩] := rfl
  obtain ⟨-, fits, taps⟩ := Window.layout_covers accepted
  obtain ⟨size, kernel, hsize, hkernel, rows⟩ := fits 0 _ rfl
  cases hsize
  cases hkernel
  obtain ⟨inside, read, -⟩ := taps [2, 3] [0, 1] rfl rfl
  have first : tapOffset? [⟨6, 2, 2, 1, 2, 3⟩, ⟨5, 1, 1, 0, 1, 5⟩] [2, 3] [0, 1] 0 = some 19 :=
    (read 19).2 ⟨[3, 4], .cons (by decide) rfl (.cons (by decide) rfl .nil), rfl⟩
  refine ⟨accepted, rows.fillsStrides (Or.inl rfl), first, inside 19 first, ?_⟩
  refine (taps [0, 4] [1, 1] rfl rfl).2.2.2 fun index lies => ?_
  -- The second column lies over the sixth element of a row of five.
  cases lies with
  | cons _ _ rest =>
      cases rest with
      | cons inside here _ =>
          dsimp only at inside here
          omega

end TensorGraph
