import TensorGraph.Proofs.Operator.Normalization
import TensorGraph.Proofs.Operator.Window
import TensorGraph.Proofs.Tensor.Typed

/-!
# Elements of convolutions

Input:

* an input with samples, channels and places, and weights whose kernel moves over the places.

The offsets at which a convolution reads are counted in blocks: samples, groups and channels of the input,
output channels and channels of the weights, and the entries of the kernel.  They are the places of the
indexes that a convolution is about (`Geometry.terms_eq`): for each channel of the group of the output
channel, and each entry of the kernel that lies over the input, the index of this channel under the entry and
the index of the entry.

Main result:

* `Conv.run_elements`: each element of a convolution is its bias plus these products, in order.
-/

namespace TensorGraph

namespace Conv

variable {c : Conv} {xShape wShape place : List Nat} {g : Geometry} {n m : Nat}

namespace Geometry

/-- The indexes of the input and of the weights whose elements are multiplied for a sample and an output
channel at a place. -/
def pairs (g : Geometry) (c : Conv) (n m : Nat) (place : List Nat) : List (List Nat × List Nat) :=
  (List.range g.groupChannels).flatMap fun channel => (indexes g.kernel).filterMap fun entry =>
    (indexUnder? g.layout place entry).map fun index =>
      (n :: (m / (g.outChannels / max c.groups 1) * g.groupChannels + channel) :: index,
        m :: channel :: entry)

/-- The first channel of the input of each group is followed by those of the group. -/
theorem channel_lt (reads : c.Reads xShape wShape g) (hm : m < g.outChannels) {channel : Nat}
    (h : channel < g.groupChannels) :
    m / (g.outChannels / max c.groups 1) * g.groupChannels + channel < g.channels := by
  obtain ⟨channels, whole⟩ := reads.groups
  have group : m / (g.outChannels / max c.groups 1) < max c.groups 1 := by
    refine Nat.div_lt_of_lt_mul ?_
    rwa [Nat.div_mul_cancel (Nat.dvd_of_mod_eq_zero whole)]
  calc m / (g.outChannels / max c.groups 1) * g.groupChannels + channel
      < (m / (g.outChannels / max c.groups 1) + 1) * g.groupChannels := by
        rw [Nat.succ_mul]
        exact Nat.add_lt_add_left h _
    _ ≤ max c.groups 1 * g.groupChannels := Nat.mul_le_mul_right _ group
    _ = g.channels := by rw [channels, Nat.mul_comm]

section

variable (reads : c.Reads xShape wShape g) (kernel : ∀ k, c.kernelShape = some k → k = g.kernel)

include reads kernel

theorem layout_eq_ok : ∃ w : Window, w.kernel = g.kernel ∧ w.layout g.sizes = .ok g.layout := by
  refine ⟨c.window g.kernel, ?_, reads.layout⟩
  cases given : c.kernelShape with
  | none => rw [window, given, Option.getD_none]
  | some k => rw [window, given, Option.getD_some, kernel k given]

theorem length_kernel : g.kernel.length = g.layout.length := by
  obtain ⟨w, hw, layout⟩ := layout_eq_ok reads kernel
  rw [← hw, (Window.layout_eq_ok_iff.1 layout).1, Window.length_of_layout layout]

variable (hplace : place ∈ indexes (placeCounts g.layout))

include hplace

theorem mem_pairs_iff {q : List Nat × List Nat} :
    q ∈ g.pairs c n m place ↔ ∃ channel < g.groupChannels, ∃ entry ∈ indexes g.kernel, ∃ index,
      LiesOver g.layout place entry index ∧
        q = (n :: (m / (g.outChannels / max c.groups 1) * g.groupChannels + channel) :: index,
          m :: channel :: entry) := by
  have length := length_kernel reads kernel
  have same := length_of_mem_places hplace
  unfold pairs
  simp only [List.mem_flatMap, List.mem_range, List.mem_filterMap, Option.map_eq_some_iff]
  refine exists_congr fun channel => and_congr_right fun _ => exists_congr fun entry =>
    and_congr_right fun hentry => exists_congr fun index => ?_
  rw [indexUnder?_eq_some_iff same ((length_of_mem_indexes hentry).trans length), eq_comm (b := q)]

/-- The offsets of the elements that are multiplied are the places of their indexes. -/
theorem terms_eq :
    terms g.layout g.kernel place (elementCount g.sizes) g.groupChannels
        (n * g.channels + m / (g.outChannels / max c.groups 1) * g.groupChannels)
        (m * g.groupChannels) =
      (g.pairs c n m place).map fun q => (rowMajor xShape q.1, rowMajor wShape q.2) := by
  obtain ⟨w, -, layout⟩ := layout_eq_ok reads kernel
  have sizes := Window.map_size_of_layout layout
  have length := length_kernel reads kernel
  have same := length_of_mem_places hplace
  obtain ⟨rfl, -⟩ := splitChannels_eq_ok_iff.1 reads.input
  obtain ⟨rfl, -⟩ := splitChannels_eq_ok_iff.1 reads.weights
  unfold terms pairs
  dsimp only
  rw [List.map_flatMap]
  refine List.flatMap_congr fun channel _ => ?_
  rw [zipIdx_indexes, List.filterMap_map, List.map_filterMap]
  refine List.filterMap_congr fun entry hentry => ?_
  dsimp only [Function.comp_apply]
  rw [tapOffset?_eq_map same ((length_of_mem_indexes hentry).trans length), sizes, Option.map_map,
    Option.map_map, length_indexes]
  refine congrArg (Option.map · _) (funext fun index => Prod.ext ?_ ?_)
  · simp only [Function.comp_apply, rowMajor_cons, elementCount_cons]
    ring
  · simp only [Function.comp_apply, rowMajor_cons, elementCount_cons]
    ring

/-- No index is out of range. -/
theorem mem_indexes_of_mem_pairs (hn : n < g.samples) (hm : m < g.outChannels)
    {q : List Nat × List Nat} (h : q ∈ g.pairs c n m place) :
    q.1 ∈ indexes xShape ∧ q.2 ∈ indexes wShape := by
  obtain ⟨w, -, layout⟩ := layout_eq_ok reads kernel
  obtain ⟨channel, hchannel, entry, hentry, index, lies, rfl⟩ :=
    (mem_pairs_iff reads kernel hplace).1 h
  have inside := lies.mem_indexes
  rw [Window.map_size_of_layout layout] at inside
  obtain ⟨rfl, -⟩ := splitChannels_eq_ok_iff.1 reads.input
  obtain ⟨rfl, -⟩ := splitChannels_eq_ok_iff.1 reads.weights
  simp only [mem_indexes_cons]
  exact ⟨⟨n, hn, _, ⟨_, channel_lt reads hm hchannel, index, inside, rfl⟩, rfl⟩,
    m, hm, _, ⟨channel, hchannel, entry, hentry, rfl⟩, rfl⟩

end

variable {α : Type} [RingOps α] {x w : Array α} {bias : Option (Array α)}

/-- The element for a sample and an output channel at a place stands at the place of this index. -/
theorem getElem?_elements (hn : n < g.samples) (hm : m < g.outChannels)
    (hplace : place ∈ indexes (placeCounts g.layout)) :
    (g.elements c x w bias)[rowMajor g.shape (n :: m :: place)]? =
      some (g.elementAt c x w bias n m place) := by
  have channelLength : ∀ n m, ((indexes (placeCounts g.layout)).map
      (g.elementAt c x w bias n m)).length = elementCount (placeCounts g.layout) := by
    intro n m
    rw [List.length_map, length_indexes]
  have sampleLength : ∀ n, ((List.range g.outChannels).flatMap fun m =>
      (indexes (placeCounts g.layout)).map (g.elementAt c x w bias n m)).length =
        elementCount (g.outChannels :: placeCounts g.layout) := by
    intro n
    rw [length_flatMap_of_length fun m _ => channelLength n m, List.length_range, elementCount_cons]
  have rest : m :: place ∈ indexes (g.outChannels :: placeCounts g.layout) :=
    mem_indexes_cons.2 ⟨m, hm, place, hplace, rfl⟩
  unfold elements shape
  rw [getElem?_flatMap_rowMajor sampleLength hn rest,
    getElem?_flatMap_rowMajor (channelLength n) hm hplace, List.getElem?_map,
    getElem?_rowMajor hplace, Option.map_some]

end Geometry

/-- The products of the elements at some indexes, added to a number in order. -/
def sumOfProducts {α : Type} [RingOps α] (xShape wShape : List Nat) (x w : Array α) (start : α)
    (pairs : List (List Nat × List Nat)) : α :=
  pairs.foldl (fun sum q => RingOps.add sum (RingOps.mul
    (x.getD (rowMajor xShape q.1) RingOps.zero) (w.getD (rowMajor wShape q.2) RingOps.zero))) start

end Conv

/-- What a convolution is: its shape, and each element as the bias of its channel plus the products of the
elements of the input and the weights, in order, where no element that is read is out of range. -/
structure Tensor.ConvolutionOf (α : Type) [Element α] [RealOps α] (u input weight : Tensor)
    (bias : Option Tensor) (c : Conv) (g : Conv.Geometry) (x w : Array α) (b : Option (Array α))
    (ys : Array α) : Prop where
  reads : c.Reads input.shape weight.shape g
  inputElements : input.array? α = some x
  weightElements : weight.array? α = some w
  biasElements : bias.map (Tensor.array? α) = b.map some
  biasCount : ∀ xs, b = some xs → xs.size = g.outChannels
  shape : u.shape = g.samples :: g.outChannels :: placeCounts g.layout
  elements : u.array? α = some ys
  count : ys.size = elementCount u.shape
  element : ∀ n < g.samples, ∀ m < g.outChannels, ∀ place ∈ indexes (placeCounts g.layout),
    ys[rowMajor u.shape (n :: m :: place)]? = some (Conv.sumOfProducts input.shape weight.shape x w
      ((b.bind (·[m]?)).getD RingOps.zero) (g.pairs c n m place)) ∧
    (∀ q, q ∈ g.pairs c n m place ↔ ∃ channel < g.groupChannels, ∃ entry ∈ indexes g.kernel, ∃ index,
      LiesOver g.layout place entry index ∧
        q = (n :: (m / (g.outChannels / max c.groups 1) * g.groupChannels + channel) :: index,
          m :: channel :: entry)) ∧
    ∀ q ∈ g.pairs c n m place, q.1 ∈ indexes input.shape ∧ q.2 ∈ indexes weight.shape

namespace Conv

variable {c : Conv} {input weight u : Tensor} {bias : Option Tensor}

theorem convolutionOf_of_runAt {α : Type} [Element α] [RealOps α] [TypedElement α]
    (kernel : ∀ k, c.kernelShape = some k → k = weight.shape.drop 2)
    (h : c.runAt α input weight bias = .ok u) :
    ∃ g x w b ys, u.ConvolutionOf α input weight bias c g x w b ys := by
  obtain ⟨x, w, b, r, hx, hw, hb, hr, rfl⟩ := runAt_eq_ok_iff.1 h
  obtain ⟨g, reads, sized, rfl⟩ := elements_eq_ok_iff.1 hr
  have same : ∀ k, c.kernelShape = some k → k = g.kernel := by
    intro k hk
    rw [kernel k hk, (splitChannels_eq_ok_iff.1 reads.weights).1]
    rfl
  refine ⟨g, x, w, b, _, reads, hx, hw, hb, sized, rfl, Tensor.array?_ofArray, ?_, ?_⟩
  · exact ensures_elements c input.shape weight.shape x w b _ hr
  · intro n hn m hm place hplace
    refine ⟨?_, fun q => Geometry.mem_pairs_iff reads same hplace, fun q hq =>
      Geometry.mem_indexes_of_mem_pairs reads same hplace hn hm hq⟩
    change (g.elements c x w b).toArray[rowMajor g.shape (n :: m :: place)]? = _
    rw [List.getElem?_toArray, Geometry.getElem?_elements hn hm hplace, Geometry.elementAt,
      Geometry.terms_eq reads same hplace, addProducts, List.foldl_map]
    rfl

/-- The result of a convolution with the kernel of its weights. -/
theorem run_elements {inputs : Inputs} (hinput : inputs.require 0 = .ok input)
    (hweight : inputs.require 1 = .ok weight)
    (kernel : ∀ k, c.kernelShape = some k → k = weight.shape.drop 2) (h : c.run inputs = .ok u) :
    ∃ (α : Type) (_ : Element α) (_ : RealOps α), ∃ g x w b ys,
      u.ConvolutionOf α input weight (inputs.get? 2) c g x w b ys := by
  obtain ⟨input', hinput', h⟩ := bind_eq_ok_iff.1 h
  obtain rfl : input = input' := Except.ok.inj (hinput.symm.trans hinput')
  obtain ⟨weight', hweight', h⟩ := bind_eq_ok_iff.1 h
  obtain rfl : weight = weight' := Except.ok.inj (hweight.symm.trans hweight')
  obtain ⟨α, _, _, typed, -, h⟩ := ElementType.exists_typed_of_dispatchReal h
  exact ⟨α, _, _, convolutionOf_of_runAt kernel h⟩

end Conv
end TensorGraph
