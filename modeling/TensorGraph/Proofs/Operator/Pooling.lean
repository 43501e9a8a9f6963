import TensorGraph.Operator.Pooling
import TensorGraph.Proofs.Number.Neutral
import TensorGraph.Proofs.Operator.Product
import TensorGraph.Proofs.Operator.Window
import TensorGraph.Proofs.Tensor.Typed

/-!
# Elements of pools

Input:

* an input with samples, channels and places, and a window that moves over the places.

The window covers some indexes of the input at each place (`covered`), in the order of the entries of its
kernel.  What it reads there are the elements at these indexes of the plane (`elements_of_poolPlanes`).

The largest element is found in one pass (`MaxPool.largest_eq`): the element in hand is the first of the
largest ones so far (`FirstLargest`), which takes that the elements are ordered (`OrderedElement`).

Main results:

* `MaxPool.run_elements`: each element is the largest one under the window, at its first index;
* `AveragePool.run_elements`: each element is the sum of those under the window, in order, by their number or
  the number of all entries;
* `meanOf_exact` and `meanOf_inexact`: in double precision the number is kept up to 2 ^ 24, and rounded to
  single precision above.
-/

namespace TensorGraph

/-! ## Order of elements -/

/-- Types of elements that are ordered, apart from NaN, which is not equal to itself. -/
class OrderedElement (α : Type) [Arith α] : Prop where
  le_total : ∀ x y : α, Arith.eq x x = true → Arith.eq y y = true →
    Arith.le x y = true ∨ Arith.le y x = true
  le_trans : ∀ x y z : α, Arith.le x y = true → Arith.le y z = true → Arith.le x z = true

/-- Numbers that are compared by their parts are ordered. -/
theorem OrderedElement.of_parts {α : Type} [Arith α] {parts : α → Float.Model.UnpackedFloat}
    (eq : ∀ x y, Arith.eq x y = (parts x).beq (parts y))
    (le : ∀ x y, Arith.le x y = (parts x).le (parts y)) : OrderedElement α := by
  have number : ∀ x, Arith.eq x x = true → parts x ≠ .notANumber := by
    intro x hx nan
    rw [eq, nan] at hx
    cases hx
  constructor
  · intro x y hx hy
    rw [le, le]
    exact FloatFormat.le_total (number x hx) (number y hy)
  · intro x y z hxy hyz
    rw [le] at hxy hyz ⊢
    exact FloatFormat.le_trans hxy hyz

instance : OrderedElement Binary32 := .of_parts Binary32.eq_eq Binary32.le_eq

instance : OrderedElement Binary64 := .of_parts Binary64.eq_eq Binary64.le_eq

/-- A computation over floating-point elements that succeeds was run with ordered ones. -/
theorem exists_ordered_of_dispatchReal {β : Type} {type : ElementType} {u : β}
    {f : (α : Type) → [Element α] → [RealOps α] → OpResult β} (h : type.dispatchReal f = .ok u) :
    ∃ (α : Type) (_ : Element α) (_ : RealOps α), TypedElement α ∧ OrderedElement α ∧ f α = .ok u := by
  cases type <;> first | exact ⟨_, _, _, inferInstance, inferInstance, h⟩ | cases h

/-! ## The first of the largest -/

/-- Whether an object is the first in a list for which the value is largest. -/
def FirstLargest {α β : Type} [Arith α] (value : β → α) (l : List β) (b : β) : Prop :=
  ∃ before after, l = before ++ b :: after ∧ (∀ d ∈ l, Arith.le (value d) (value b) = true) ∧
    ∀ d ∈ before, Arith.le (value b) (value d) = false

namespace FirstLargest

variable {α β : Type} [Arith α] {value : β → α} {l : List β} {b d : β}

theorem singleton (self : Arith.le (value b) (value b) = true) : FirstLargest value [b] b :=
  ⟨[], [], rfl, by simpa using self, by simp⟩

/-- A value that is not larger changes nothing. -/
theorem concat_le (h : FirstLargest value l b) (le : Arith.le (value d) (value b) = true) :
    FirstLargest value (l ++ [d]) b := by
  obtain ⟨before, after, rfl, largest, first⟩ := h
  refine ⟨before, after ++ [d], by simp, fun e he => ?_, first⟩
  rcases List.mem_append.1 he with he | he
  · exact largest e he
  · rw [List.mem_singleton.1 he]
    exact le

/-- A larger value comes before all others. -/
theorem concat_gt [OrderedElement α] (h : FirstLargest value l b)
    (gt : Arith.le (value d) (value b) = false) (le : Arith.le (value b) (value d) = true)
    (self : Arith.le (value d) (value d) = true) : FirstLargest value (l ++ [d]) d := by
  obtain ⟨before, after, -, largest, -⟩ := h
  refine ⟨l, [], rfl, fun e he => ?_, fun e he => ?_⟩
  · rcases List.mem_append.1 he with he | he
    · exact OrderedElement.le_trans _ _ _ (largest e he) le
    · rw [List.mem_singleton.1 he]
      exact self
  · rw [Bool.eq_false_iff]
    intro below
    exact (Bool.eq_false_iff.1 gt) (OrderedElement.le_trans _ _ _ below (largest e he))

end FirstLargest

namespace MaxPool

variable {α : Type} [RealOps α] {xs : Array α} {positions : List Nat}

/-- One step of the search: the largest element so far and its position. -/
def step (xs : Array α) (best : Option (α × Nat)) (i : Nat) : Option (α × Nat) :=
  best.elim (some (xs.getD i RingOps.zero, i)) fun q =>
    if Arith.le (xs.getD i RingOps.zero) q.1 then some q else some (xs.getD i RingOps.zero, i)

theorem largest_eq : largest xs positions = (positions.foldl (step xs) none).elim
    (RealOps.ofBinary32 Binary32.negInfinity, none) fun q => (q.1, some q.2) := by
  unfold largest
  dsimp only
  rw [List.foldl_ext _ (step xs) none fun best i _ => by cases best <;> rfl]
  cases positions.foldl (step xs) none <;> rfl

/-- The element in hand is the first of the largest ones so far. -/
theorem foldl_step [OrderedElement α]
    (numbers : ∀ i ∈ positions, Arith.eq (xs.getD i RingOps.zero) (xs.getD i RingOps.zero) = true)
    (nonempty : positions ≠ []) : ∃ i, positions.foldl (step xs) none = some (xs.getD i RingOps.zero, i) ∧
      FirstLargest (xs.getD · RingOps.zero) positions i := by
  induction positions using List.reverseRecOn with
  | nil => exact absurd rfl nonempty
  | append_singleton earlier d ih =>
      have numberd := numbers d (by simp)
      have self : Arith.le (xs.getD d RingOps.zero) (xs.getD d RingOps.zero) = true :=
        (OrderedElement.le_total _ _ numberd numberd).elim id id
      rw [List.foldl_append]
      by_cases empty : earlier = []
      · subst empty
        exact ⟨d, rfl, .singleton self⟩
      · obtain ⟨i, found, largest⟩ := ih (fun i hi => numbers i (by simp [hi])) empty
        have numberi : Arith.eq (xs.getD i RingOps.zero) (xs.getD i RingOps.zero) = true := by
          obtain ⟨before, after, rfl, -⟩ := largest
          exact numbers i (by simp)
        rw [found]
        by_cases le : Arith.le (xs.getD d RingOps.zero) (xs.getD i RingOps.zero) = true
        · exact ⟨i, if_pos le, largest.concat_le le⟩
        · have gt := Bool.eq_false_iff.2 le
          have above := (OrderedElement.le_total _ _ numberi numberd).resolve_right le
          exact ⟨d, if_neg le, largest.concat_gt gt above self⟩

end MaxPool

/-! ## Windows of a plane -/

/-- The indexes that a window covers at a place, in the order of the entries of its kernel. -/
def covered (layout : List WindowAxis) (kernel place : List Nat) : List (List Nat) :=
  (indexes kernel).filterMap (indexUnder? layout place)

section

variable {w : Window} {sizes place : List Nat} {layout : List WindowAxis}

theorem length_of_mem_entries {entry : List Nat} (hlayout : w.layout sizes = .ok layout)
    (h : entry ∈ indexes w.kernel) : entry.length = layout.length := by
  rw [length_of_mem_indexes h, (Window.layout_eq_ok_iff.1 hlayout).1, Window.length_of_layout hlayout]

theorem mem_covered_iff {index : List Nat} (hlayout : w.layout sizes = .ok layout)
    (hplace : place ∈ indexes (placeCounts layout)) :
    index ∈ covered layout w.kernel place ↔
      ∃ entry ∈ indexes w.kernel, LiesOver layout place entry index := by
  unfold covered
  rw [List.mem_filterMap]
  exact exists_congr fun entry => and_congr_right fun hentry =>
    indexUnder?_eq_some_iff (length_of_mem_places hplace) (length_of_mem_entries hlayout hentry)

/-- An index of a plane with its sample and its channel. -/
theorem mem_indexes_plane {samples channels n m : Nat} {index : List Nat} (hn : n < samples)
    (hm : m < channels) (h : index ∈ indexes sizes) :
    n :: m :: index ∈ indexes (samples :: channels :: sizes) :=
  mem_indexes_cons.2 ⟨n, hn, _, mem_indexes_cons.2 ⟨m, hm, index, h, rfl⟩, rfl⟩

/-- No index that is covered is out of range. -/
theorem mem_covered_iff_and_inside {samples channels n m : Nat} (hlayout : w.layout sizes = .ok layout)
    (hn : n < samples) (hm : m < channels) (hplace : place ∈ indexes (placeCounts layout))
    (index : List Nat) :
    index ∈ covered layout w.kernel place ↔
      (∃ entry ∈ indexes w.kernel, LiesOver layout place entry index) ∧
        n :: m :: index ∈ indexes (samples :: channels :: sizes) := by
  rw [mem_covered_iff hlayout hplace]
  refine (and_iff_left_of_imp fun ⟨entry, _, lies⟩ => ?_).symm
  rw [← Window.map_size_of_layout hlayout]
  exact mem_indexes_plane hn hm lies.mem_indexes

/-- The positions that are read for a plane are the places of the covered indexes. -/
theorem map_filterMap_tapOffset? {samples channels n m : Nat} (hlayout : w.layout sizes = .ok layout)
    (hplace : place ∈ indexes (placeCounts layout)) :
    ((((indexes w.kernel).map fun entry => tapOffset? layout place entry 0).filterMap fun o => o).map
        ((n * channels + m) * elementCount sizes + ·)) =
      (covered layout w.kernel place).map fun index =>
        rowMajor (samples :: channels :: sizes) (n :: m :: index) := by
  unfold covered
  rw [List.filterMap_map, List.map_filterMap, List.map_filterMap]
  refine List.filterMap_congr fun entry hentry => ?_
  rw [Function.comp_apply, tapOffset?_eq_map (length_of_mem_places hplace)
    (length_of_mem_entries hlayout hentry), Window.map_size_of_layout hlayout, Option.map_map]
  refine congrArg (Option.map · _) (funext fun index => ?_)
  simp only [Function.comp_apply, rowMajor_cons, elementCount_cons]
  ring

/-- What a function makes of the windows of each plane: the element for a sample and a channel at a place is
that for the offsets that the window reads there. -/
theorem elements_of_poolPlanes {β : Type} {shape outShape : List Nat} {out : List β}
    {f : Nat → List (Option Nat) → β} (h : poolPlanes w shape f = .ok (outShape, out)) :
    ∃ samples channels sizes layout, shape = samples :: channels :: sizes ∧
      w.layout sizes = .ok layout ∧ outShape = samples :: channels :: placeCounts layout ∧
      ∀ n < samples, ∀ m < channels, ∀ place ∈ indexes (placeCounts layout),
        out[rowMajor outShape (n :: m :: place)]? = some (f ((n * channels + m) * elementCount sizes)
          ((indexes w.kernel).map fun entry => tapOffset? layout place entry 0)) := by
  obtain ⟨⟨samples, channels, sizes⟩, hshape, h⟩ := bind_eq_ok_iff.1 h
  obtain ⟨layout, hlayout, h⟩ := bind_eq_ok_iff.1 h
  cases h
  refine ⟨samples, channels, sizes, layout, (splitChannels_eq_ok_iff.1 hshape).1, hlayout, rfl, ?_⟩
  intro n hn m hm place hplace
  have length : ∀ plane, ((windowOffsets layout w.kernel).map
      (f (plane * elementCount sizes))).length = elementCount (placeCounts layout) := by
    intro plane
    rw [List.length_map, windowOffsets, List.length_map, length_indexes]
  have plane : n * channels + m < samples * channels :=
    calc n * channels + m < (n + 1) * channels := by
          rw [Nat.succ_mul]
          exact Nat.add_lt_add_left hm _
      _ ≤ samples * channels := Nat.mul_le_mul_right _ hn
  have same : rowMajor (samples :: channels :: placeCounts layout) (n :: m :: place) =
      rowMajor (samples * channels :: placeCounts layout) ((n * channels + m) :: place) := by
    simp only [rowMajor_cons, elementCount_cons]
    ring
  rw [same, getElem?_flatMap_rowMajor length plane hplace, List.getElem?_map, windowOffsets,
    List.getElem?_map, getElem?_rowMajor hplace, Option.map_some, Option.map_some]

end

/-! ## Largest elements -/

/-- What pooling with the largest element is: its shape, and for each place of the window the first of the
largest elements under it with its position, where no element that is read is out of range. -/
structure Tensor.MaxPoolOf (α : Type) [Element α] [RealOps α] (u positions t : Tensor) (w : Window)
    (samples channels : Nat) (sizes : List Nat) (layout : List WindowAxis) (xs ys : Array α)
    (found : Array Int64) : Prop where
  input : t.shape = samples :: channels :: sizes
  fits : w.layout sizes = .ok layout
  inputElements : t.array? α = some xs
  shape : u.shape = samples :: channels :: placeCounts layout ∧ positions.shape = u.shape
  elements : u.array? α = some ys
  positionElements : positions.array? Int64 = some found
  count : ys.size = elementCount u.shape ∧ found.size = elementCount u.shape
  none : ∀ n < samples, ∀ m < channels, ∀ place ∈ indexes (placeCounts layout),
    covered layout w.kernel place = [] →
      ys[rowMajor u.shape (n :: m :: place)]? = some (RealOps.ofBinary32 Binary32.negInfinity) ∧
      found[rowMajor u.shape (n :: m :: place)]? = some (-1)
  largest : ∀ n < samples, ∀ m < channels, ∀ place ∈ indexes (placeCounts layout),
    covered layout w.kernel place ≠ [] →
      (∀ index ∈ covered layout w.kernel place,
        Arith.eq (xs.getD (rowMajor t.shape (n :: m :: index)) RingOps.zero)
          (xs.getD (rowMajor t.shape (n :: m :: index)) RingOps.zero) = true) →
      ∃ index, FirstLargest (fun index => xs.getD (rowMajor t.shape (n :: m :: index)) RingOps.zero)
        (covered layout w.kernel place) index ∧
        ys[rowMajor u.shape (n :: m :: place)]? =
          some (xs.getD (rowMajor t.shape (n :: m :: index)) RingOps.zero) ∧
        found[rowMajor u.shape (n :: m :: place)]? =
          some (Int64.ofNat (rowMajor t.shape (n :: m :: index)))
  inside : ∀ n < samples, ∀ m < channels, ∀ place ∈ indexes (placeCounts layout),
    ∀ index, index ∈ covered layout w.kernel place ↔
      (∃ entry ∈ indexes w.kernel, LiesOver layout place entry index) ∧
        n :: m :: index ∈ indexes t.shape

namespace FirstLargest

/-- What is first among objects is first among what they stand for. -/
theorem of_map {α β γ : Type} [Arith α] {value : γ → α} {f : β → γ} {l : List β} {c : γ}
    (h : FirstLargest value (l.map f) c) : ∃ b, c = f b ∧ FirstLargest (fun b => value (f b)) l b := by
  obtain ⟨before, after, whole, largest, first⟩ := h
  obtain ⟨l₁, l₂, rfl, rfl, rest⟩ := List.map_eq_append_iff.1 whole
  obtain ⟨b, l₃, rfl, rfl, rfl⟩ := List.map_eq_cons_iff.1 rest
  refine ⟨b, rfl, l₁, l₃, rfl, fun d hd => largest _ (List.mem_map_of_mem hd), fun d hd => ?_⟩
  exact first _ (List.mem_map_of_mem hd)

end FirstLargest

namespace MaxPool

variable {p : MaxPool} {t u positions : Tensor}

theorem maxPoolOf_of_runAt {α : Type} [Element α] [RealOps α] [TypedElement α] [OrderedElement α]
    (h : p.runAt α t = .ok (u, positions)) : ∃ samples channels sizes layout xs ys found,
      u.MaxPoolOf α positions t p.window samples channels sizes layout xs ys found := by
  obtain ⟨xs, hxs, h⟩ := bind_eq_ok_iff.1 h
  obtain ⟨⟨shape, out⟩, hout, h⟩ := bind_eq_ok_iff.1 h
  have count := ensures_poolPlanes _ _ _ _ hout
  obtain ⟨samples, channels, sizes, layout, input, hlayout, rfl, windows⟩ := elements_of_poolPlanes hout
  cases h
  have element : ∀ n < samples, ∀ m < channels, ∀ place ∈ indexes (placeCounts layout),
      out[rowMajor (samples :: channels :: placeCounts layout) (n :: m :: place)]? =
        some (largest xs ((covered layout p.window.kernel place).map fun index =>
          rowMajor t.shape (n :: m :: index))) := by
    intro n hn m hm place hplace
    rw [windows n hn m hm place hplace, map_filterMap_tapOffset? hlayout hplace, input]
  refine ⟨samples, channels, sizes, layout, xs, _, _, input, hlayout, orFault_eq_ok_iff.1 hxs,
    ⟨rfl, rfl⟩, Tensor.array?_ofArray, Tensor.array?_ofArray, ⟨?_, ?_⟩, ?_, ?_,
    fun n hn m hm place hplace => input ▸ mem_covered_iff_and_inside hlayout hn hm hplace⟩
  · rw [List.size_toArray, List.length_map, count]
    rfl
  · rw [List.size_toArray, List.length_map, count]
    rfl
  · intro n hn m hm place hplace empty
    have here := element n hn m hm place hplace
    rw [empty, List.map_nil, largest_eq] at here
    simp only [Tensor.ofArray, List.getElem?_toArray, List.getElem?_map, here]
    exact ⟨rfl, rfl⟩
  · intro n hn m hm place hplace nonempty numbers
    have here := element n hn m hm place hplace
    have read : ∀ i ∈ (covered layout p.window.kernel place).map fun index =>
        rowMajor t.shape (n :: m :: index),
          Arith.eq (xs.getD i RingOps.zero) (xs.getD i RingOps.zero) = true :=
      List.forall_mem_map.2 numbers
    obtain ⟨i, found, largest⟩ := foldl_step read (by simpa using nonempty)
    obtain ⟨index, rfl, first⟩ := largest.of_map
    rw [largest_eq, found] at here
    refine ⟨index, first, ?_⟩
    simp only [Tensor.ofArray, List.getElem?_toArray, List.getElem?_map, here]
    exact ⟨rfl, rfl⟩

/-- The result of pooling with the largest element, and the second output, where it is asked for. -/
theorem run_elements {inputs : Inputs} {outputs : Option Nat} {us : List Tensor}
    (ht : inputs.require 0 = .ok t) (h : p.run inputs outputs = .ok us) :
    ∃ u positions, us = (if 1 < outputs.getD 1 then [u, positions] else [u]) ∧
      ∃ (α : Type) (_ : Element α) (_ : RealOps α), ∃ samples channels sizes layout xs ys found,
        u.MaxPoolOf α positions t p.window samples channels sizes layout xs ys found := by
  obtain ⟨t', ht', h⟩ := bind_eq_ok_iff.1 h
  obtain rfl : t = t' := Except.ok.inj (ht.symm.trans ht')
  obtain ⟨⟨u, positions⟩, hu, h⟩ := bind_eq_ok_iff.1 h
  refine ⟨u, positions, (Except.ok.inj h).symm, ?_⟩
  obtain ⟨α, _, _, typed, ordered, h⟩ := exists_ordered_of_dispatchReal hu
  exact ⟨α, _, _, maxPoolOf_of_runAt h⟩

end MaxPool

/-! ## Means -/

/-- By how much the sum under a window at a place is divided. -/
def AveragePool.divisor (p : AveragePool) (layout : List WindowAxis) (place : List Nat) : Nat :=
  if p.countPadding then elementCount p.window.kernel
  else (covered layout p.window.kernel place).length

/-- What pooling with the mean is: its shape, and for each place of the window the sum of the elements under
it, in order, by their number or the number of all entries, where no element that is read is out of range. -/
structure Tensor.AveragePoolOf (α : Type) [Element α] [RealOps α] (u t : Tensor) (p : AveragePool)
    (samples channels : Nat) (sizes : List Nat) (layout : List WindowAxis) (xs ys : Array α) :
    Prop where
  input : t.shape = samples :: channels :: sizes
  fits : p.window.layout sizes = .ok layout
  inputElements : t.array? α = some xs
  shape : u.shape = samples :: channels :: placeCounts layout
  elements : u.array? α = some ys
  count : ys.size = elementCount u.shape
  mean : ∀ n < samples, ∀ m < channels, ∀ place ∈ indexes (placeCounts layout),
    ys[rowMajor u.shape (n :: m :: place)]? = some (if p.divisor layout place = 0 then RingOps.zero
      else meanOf ((covered layout p.window.kernel place).foldl (fun sum index =>
        RingOps.add sum (xs.getD (rowMajor t.shape (n :: m :: index)) RingOps.zero)) RingOps.zero)
          (p.divisor layout place))
  inside : ∀ n < samples, ∀ m < channels, ∀ place ∈ indexes (placeCounts layout),
    ∀ index, index ∈ covered layout p.window.kernel place ↔
      (∃ entry ∈ indexes p.window.kernel, LiesOver layout place entry index) ∧
        n :: m :: index ∈ indexes t.shape

namespace AveragePool

variable {p : AveragePool} {t u : Tensor}

theorem averagePoolOf_of_runAt {α : Type} [Element α] [RealOps α] [TypedElement α]
    (h : p.runAt α t = .ok u) : ∃ samples channels sizes layout xs ys,
      u.AveragePoolOf α t p samples channels sizes layout xs ys := by
  obtain ⟨xs, hxs, h⟩ := bind_eq_ok_iff.1 h
  obtain ⟨⟨shape, out⟩, hout, h⟩ := bind_eq_ok_iff.1 h
  have count := ensures_poolPlanes _ _ _ _ hout
  obtain ⟨samples, channels, sizes, layout, input, hlayout, rfl, windows⟩ := elements_of_poolPlanes hout
  cases h
  refine ⟨samples, channels, sizes, layout, xs, _, input, hlayout, orFault_eq_ok_iff.1 hxs, rfl,
    Tensor.array?_ofArray, ?_, ?_, fun n hn m hm place hplace =>
      input ▸ mem_covered_iff_and_inside hlayout hn hm hplace⟩
  · rw [List.size_toArray, count]
    rfl
  · intro n hn m hm place hplace
    have here := windows n hn m hm place hplace
    dsimp only at here
    rw [map_filterMap_tapOffset? hlayout hplace, ← input, List.length_map, List.length_map,
      length_indexes, mean, List.foldl_map] at here
    exact List.getElem?_toArray.trans here

/-- The result of pooling with the mean. -/
theorem run_elements {inputs : Inputs} (ht : inputs.require 0 = .ok t) (h : p.run inputs = .ok u) :
    ∃ (α : Type) (_ : Element α) (_ : RealOps α), ∃ samples channels sizes layout xs ys,
      u.AveragePoolOf α t p samples channels sizes layout xs ys := by
  obtain ⟨t', ht', h⟩ := bind_eq_ok_iff.1 h
  obtain rfl : t = t' := Except.ok.inj (ht.symm.trans ht')
  obtain ⟨α, _, _, typed, -, h⟩ := ElementType.exists_typed_of_dispatchReal h
  exact ⟨α, _, _, averagePoolOf_of_runAt h⟩

end AveragePool

/-- Up to 2 ^ 24 elements in double precision, the sum is divided by their number. -/
theorem meanOf_exact {n : Nat} (h : n ≤ 2 ^ 24) (sum : Binary64) :
    meanOf sum n = RealOps.div sum (.ofInt64 (.ofNat n)) :=
  congrArg (RealOps.div sum) (Binary32.widen_ofInt64 h)

/-- A number of elements that takes more than 24 bits is rounded, also for elements in double precision: a sum
is divided by one less. -/
theorem meanOf_inexact : (∀ sum : Binary64, meanOf sum 16777217 = meanOf sum 16777216) ∧
    (RealOps.ofBinary32 (.ofInt64 (.ofNat 16777217)) : Binary64) ≠ .ofInt64 (.ofNat 16777217) := by
  have rounded : Binary32.ofInt64 (.ofNat 16777217) = .ofInt64 (.ofNat 16777216) := by decide +kernel
  constructor
  · intro sum
    rw [meanOf, rounded, meanOf]
  · rw [rounded]
    decide +kernel

end TensorGraph
