import Mathlib.Algebra.Field.Defs
import Mathlib.Tactic.Ring
import TensorGraph.Proofs.Operator.Product
import TensorGraph.Simplification.Fusion

/-!
# Normalized convolutions over a field

Input:

* the numbers of a convolution, and of a normalization of its result: for each output channel a mean,
  which is subtracted, a factor, and a shift, which is added.

Algorithm:

* the shapes say how a convolution reads its input and its weights (`Conv.Geometry`), whatever the
  elements are;
* the weights of an output channel are one block of the array of weights, also with several groups
  (`Conv.div_of_mem_terms`), so that each of them is multiplied by the factor of this channel;
* what the kernels make of single-precision tensors is said with the elements (`Conv.run_eq_ok_iff`,
  `BatchNormalization.exists_of_run`);
* the factor and the shift go along a sum of products (`Conv.addProducts_scaled`), and the normalization
  changes each element of the result at its place (`BatchNormalization.normalize_flatMap`).

Main results:

* `NormalizedNumbers.exists_elements_fused`: with the normalization in its weights and its bias a
  convolution gives a result of the same shape;
* `NormalizedNumbers.elements_fused`: over a field it gives the same elements.
-/

namespace TensorGraph

/-- Elements can be taken from a field. -/
instance (priority := low) RingOps.ofField {K : Type} [Field K] : RingOps K where
  zero := 0
  one := 1
  add := (· + ·)
  sub := (· - ·)
  mul := (· * ·)

/-! ## How a convolution reads its input -/

namespace Conv

/-- How a convolution reads its input and its weights. -/
structure Geometry where
  samples : Nat
  channels : Nat
  sizes : List Nat
  outChannels : Nat
  groupChannels : Nat
  kernel : List Nat
  layout : List WindowAxis

/-- Whether a convolution of an input and weights with given shapes reads them in some way. -/
structure Reads (c : Conv) (xShape wShape : List Nat) (g : Geometry) : Prop where
  input : splitChannels xShape = .ok (g.samples, g.channels, g.sizes)
  weights : splitChannels wShape = .ok (g.outChannels, g.groupChannels, g.kernel)
  groups : g.channels = g.groupChannels * max c.groups 1 ∧ g.outChannels % max c.groups 1 = 0
  layout : (c.window g.kernel).layout g.sizes = .ok g.layout

namespace Geometry

variable {α : Type} [RingOps α]

/-- The shape of the result. -/
def shape (g : Geometry) : List Nat := g.samples :: g.outChannels :: placeCounts g.layout

/-- The element of the result for a sample and an output channel at a place. -/
def elementAt (g : Geometry) (c : Conv) (x w : Array α) (bias : Option (Array α)) (n m : Nat)
    (place : List Nat) : α :=
  addProducts x w ((bias.bind (·[m]?)).getD RingOps.zero)
    (terms g.layout g.kernel place (elementCount g.sizes) g.groupChannels
      (n * g.channels + m / (g.outChannels / max c.groups 1) * g.groupChannels)
      (m * g.groupChannels))

/-- The elements of the result. -/
def elements (g : Geometry) (c : Conv) (x w : Array α) (bias : Option (Array α)) : List α :=
  (List.range g.samples).flatMap fun n => (List.range g.outChannels).flatMap fun m =>
    (indexes (placeCounts g.layout)).map (g.elementAt c x w bias n m)

end Geometry

variable {α : Type} [RingOps α] {c : Conv} {xShape wShape : List Nat} {x w : Array α}
  {bias : Option (Array α)}

theorem elements_eq_ok_iff {r : List Nat × Array α} :
    c.elements xShape wShape x w bias = .ok r ↔ ∃ g : Geometry, c.Reads xShape wShape g ∧
      (∀ b, bias = some b → b.size = g.outChannels) ∧
      r = (g.shape, (g.elements c x w bias).toArray) := by
  have sized : ∀ outChannels, (bias.any fun b => decide (b.size ≠ outChannels)) ≠ true ↔
      ∀ b, bias = some b → b.size = outChannels := by
    intro outChannels
    cases bias <;> simp
  constructor
  · intro h
    obtain ⟨⟨samples, channels, sizes⟩, hx, h⟩ := bind_eq_ok_iff.1 h
    obtain ⟨⟨outChannels, groupChannels, kernel⟩, hw, h⟩ := bind_eq_ok_iff.1 h
    dsimp only at h
    split_ifs at h with mismatch unfit
    obtain ⟨layout, hlayout, h⟩ := bind_eq_ok_iff.1 h
    cases h
    rw [not_or, not_not, not_not] at mismatch
    exact ⟨⟨samples, channels, sizes, outChannels, groupChannels, kernel, layout⟩,
      ⟨hx, hw, mismatch, hlayout⟩, (sized _).1 unfit, rfl⟩
  · rintro ⟨g, reads, fits, rfl⟩
    refine bind_eq_ok_iff.2 ⟨_, reads.input, bind_eq_ok_iff.2 ⟨_, reads.weights, ?_⟩⟩
    dsimp only
    rw [if_neg (by rw [not_or, not_not, not_not]; exact reads.groups), if_neg ((sized _).2 fits)]
    exact bind_eq_ok_iff.2 ⟨_, reads.layout, rfl⟩

/-! ## Weights of an output channel -/

/-- The weights of an output channel are one block. -/
theorem div_of_mem_terms {layout : List WindowAxis} {kernel place : List Nat}
    {inputLength groupChannels firstInput m : Nat} {q : Nat × Nat}
    (h : q ∈ terms layout kernel place inputLength groupChannels firstInput (m * groupChannels)) :
    q.2 / (groupChannels * elementCount kernel) = m := by
  obtain ⟨channel, hchannel, h⟩ := List.mem_flatMap.1 h
  obtain ⟨⟨entry, k⟩, hk, h⟩ := List.mem_filterMap.1 h
  obtain ⟨position, -, rfl⟩ := Option.map_eq_some_iff.1 h
  have inside : k < elementCount kernel := by
    have := (List.mem_zipIdx hk).2.1
    rwa [Nat.zero_add, length_indexes] at this
  replace hchannel := List.mem_range.1 hchannel
  rw [length_indexes]
  have block : channel * elementCount kernel + k < groupChannels * elementCount kernel :=
    calc channel * elementCount kernel + k < (channel + 1) * elementCount kernel := by
          rw [Nat.succ_mul]
          exact Nat.add_lt_add_left inside _
      _ ≤ groupChannels * elementCount kernel := Nat.mul_le_mul_right _ hchannel
  have offset : (m * groupChannels + channel) * elementCount kernel + k =
      channel * elementCount kernel + k + groupChannels * elementCount kernel * m := by ring
  rw [offset, Nat.add_mul_div_left _ _ (Nat.zero_lt_of_lt block), Nat.div_eq_of_lt block,
    Nat.zero_add]

/-! ## Sums of products -/

/-- A factor and a shift go along a sum of products. -/
theorem addProducts_scaled {K : Type} [Field K] {x w w' : Array K} {mean factor shift : K}
    {pairs : List (Nat × Nat)}
    (scaled : ∀ q ∈ pairs, w'.getD q.2 RingOps.zero = w.getD q.2 RingOps.zero * factor) (start : K) :
    addProducts x w' ((start - mean) * factor + shift) pairs =
      (addProducts x w start pairs - mean) * factor + shift := by
  induction pairs generalizing start with
  | nil => rfl
  | cons q rest ih =>
      have next := ih (fun q hq => scaled q (List.mem_cons_of_mem _ hq))
        (start + x.getD q.1 RingOps.zero * w.getD q.2 RingOps.zero)
      have first : (start - mean) * factor + shift +
          x.getD q.1 RingOps.zero * w'.getD q.2 RingOps.zero =
          (start + x.getD q.1 RingOps.zero * w.getD q.2 RingOps.zero - mean) * factor + shift := by
        rw [scaled q List.mem_cons_self]
        ring
      change addProducts x w' ((start - mean) * factor + shift +
        x.getD q.1 RingOps.zero * w'.getD q.2 RingOps.zero) rest = _
      rw [first]
      exact next

end Conv

/-! ## Normalized elements -/

namespace BatchNormalization

variable {α : Type} [RingOps α]

/-- A number that is normalized with those of its channel. -/
def normalizeAt (mean factor shift : Array α) (channel : Nat) (v : α) : α :=
  RingOps.add (RingOps.mul (RingOps.sub v (mean.getD channel RingOps.zero))
    (factor.getD channel RingOps.zero)) (shift.getD channel RingOps.zero)

/-- Elements that are listed by sample and channel are normalized at their places. -/
theorem normalize_flatMap {samples channels planeLength : Nat} {mean factor shift : Array α}
    {f : Nat → Nat → List α} (length : ∀ n m, (f n m).length = planeLength) :
    normalize samples channels planeLength
        ((List.range samples).flatMap fun n => (List.range channels).flatMap (f n)).toArray
        mean factor shift =
      (List.range samples).flatMap fun n => (List.range channels).flatMap fun m =>
        (f n m).map (normalizeAt mean factor shift m) := by
  unfold normalize
  refine List.flatMap_congr fun n hn => List.flatMap_congr fun m hm => ?_
  rw [List.mem_range] at hn hm
  refine List.ext_getElem (by rw [List.length_map, List.length_map, List.length_range, length])
    fun i hi hi' => ?_
  rw [List.length_map, List.length_range] at hi
  have sample : ∀ n ∈ List.range samples,
      ((List.range channels).flatMap (f n)).length = channels * planeLength := by
    intro n _
    rw [length_flatMap_of_length fun m _ => length n m, List.length_range]
  have place : (n * channels + m) * planeLength + i =
      n * (channels * planeLength) + (m * planeLength + i) := by ring
  have within : m * planeLength + i < channels * planeLength :=
    calc m * planeLength + i < (m + 1) * planeLength := by
          rw [Nat.succ_mul]
          exact Nat.add_lt_add_left hi _
      _ ≤ channels * planeLength := Nat.mul_le_mul_right _ hm
  have read : ((List.range samples).flatMap fun n =>
      (List.range channels).flatMap (f n))[(n * channels + m) * planeLength + i]? = (f n m)[i]? := by
    rw [place, getElem?_flatMap_of_length sample (List.getElem?_range hn) within]
    exact getElem?_flatMap_of_length (fun m _ => length n m) (List.getElem?_range hm) hi
  have value : (List.flatMap (fun n => (List.range channels).flatMap (f n))
      (List.range samples)).toArray.getD ((n * channels + m) * planeLength + i) RingOps.zero =
      (f n m).get ⟨i, (length n m).symm ▸ hi⟩ := by
    rw [Array.getD_eq_getD_getElem?, List.getElem?_toArray, read, List.getElem?_eq_getElem,
      Option.getD_some, List.get_eq_getElem]
  simp only [List.getElem_map, List.getElem_range]
  rw [value]
  rfl

end BatchNormalization

/-! ## Convolutions and normalizations of tensors -/

theorem Tensor.elementType_of_array? {t : Tensor} {xs : Array Binary32}
    (h : t.array? Binary32 = some xs) : t.elementType = .float32 := by
  unfold Tensor.array? at h
  unfold Tensor.elementType
  cases he : t.elements <;> rw [he] at h <;> first | rfl | cases h

section

variable {α : Type} [Element α]

theorem BatchNormalization.channelArray_eq_ok_iff {t : Tensor} {channels : Nat} {xs : Array α} :
    channelArray α t channels = .ok xs ↔ t.array? α = some xs ∧ xs.size = channels := by
  unfold channelArray Tensor.arrayOf
  simp only [bind_eq_ok_iff, orFault_eq_ok_iff]
  constructor
  · rintro ⟨ys, hys, h⟩
    split_ifs at h with size
    cases h
    exact ⟨hys, not_not.1 size⟩
  · rintro ⟨hxs, size⟩
    exact ⟨xs, hxs, if_neg (not_not.2 size)⟩

variable [RealOps α] {u : Tensor}

theorem Conv.runAt_eq_ok_iff {c : Conv} {input weight : Tensor} {bias : Option Tensor} :
    c.runAt α input weight bias = .ok u ↔ ∃ x w b r, input.array? α = some x ∧
      weight.array? α = some w ∧ bias.map (Tensor.array? α) = b.map some ∧
      c.elements input.shape weight.shape x w b = .ok r ∧ u = .ofArray r.1 r.2 := by
  constructor
  · intro h
    obtain ⟨x, hx, h⟩ := bind_eq_ok_iff.1 h
    obtain ⟨w, hw, h⟩ := bind_eq_ok_iff.1 h
    replace hx := orFault_eq_ok_iff.1 hx
    replace hw := orFault_eq_ok_iff.1 hw
    obtain ⟨b, hb, h⟩ : ∃ b, bias.map (Tensor.array? α) = b.map some ∧
        (c.elements input.shape weight.shape x w b >>= fun r =>
          (.ok (.ofArray r.1 r.2) : OpResult Tensor)) = .ok u := by
      cases bias with
      | none => exact ⟨none, rfl, h⟩
      | some t =>
          obtain ⟨b, hb, h⟩ := bind_eq_ok_iff.1 h
          obtain ⟨b, ht, rfl⟩ := map_eq_ok_iff.1 hb
          exact ⟨some b, congrArg some (orFault_eq_ok_iff.1 ht), h⟩
    obtain ⟨r, hr, h⟩ := bind_eq_ok_iff.1 h
    cases h
    exact ⟨x, w, b, r, hx, hw, hb, hr, rfl⟩
  · rintro ⟨x, w, b, r, hx, hw, hb, hr, rfl⟩
    refine bind_eq_ok_iff.2 ⟨x, orFault_eq_ok_iff.2 hx, bind_eq_ok_iff.2
      ⟨w, orFault_eq_ok_iff.2 hw, ?_⟩⟩
    have last : (c.elements input.shape weight.shape x w b >>= fun r =>
        (.ok (.ofArray r.1 r.2) : OpResult Tensor)) = .ok (.ofArray r.1 r.2) :=
      bind_eq_ok_iff.2 ⟨r, hr, rfl⟩
    cases bias with
    | none =>
        cases b with
        | none => exact last
        | some b => cases hb
    | some t =>
        cases b with
        | none => cases hb
        | some b =>
            have read : t.arrayOf α = .ok b := orFault_eq_ok_iff.2 (Option.some.inj hb)
            exact bind_eq_ok_iff.2 ⟨some b, map_eq_ok_iff.2 ⟨b, read, rfl⟩, last⟩

theorem BatchNormalization.exists_of_runAt {k : BatchNormalization}
    {input scale shift mean variance : Tensor}
    (h : k.runAt α input scale shift mean variance = .ok u) :
    ∃ x samples channels places scales shifts means variances, input.array? α = some x ∧
      input.shape = samples :: channels :: places ∧ scale.array? α = some scales ∧
      shift.array? α = some shifts ∧ mean.array? α = some means ∧
      variance.array? α = some variances ∧
      scales.size = channels ∧ shifts.size = channels ∧ means.size = channels ∧
      variances.size = channels ∧
      u = .ofArray input.shape (normalize samples channels (elementCount places) x means
        ((scales.zip variances).map fun q => factor (RealOps.ofBinary32 k.epsilon) q.1 q.2)
        shifts).toArray := by
  obtain ⟨x, hx, h⟩ := bind_eq_ok_iff.1 h
  dsimp only at h
  split at h
  · rename_i samples channels places shape
    obtain ⟨scales, hscales, h⟩ := bind_eq_ok_iff.1 h
    obtain ⟨shifts, hshifts, h⟩ := bind_eq_ok_iff.1 h
    obtain ⟨means, hmeans, h⟩ := bind_eq_ok_iff.1 h
    obtain ⟨variances, hvariances, h⟩ := bind_eq_ok_iff.1 h
    cases h
    rw [channelArray_eq_ok_iff] at hscales hshifts hmeans hvariances
    exact ⟨x, samples, channels, places, scales, shifts, means, variances,
      orFault_eq_ok_iff.1 hx, shape, hscales.1, hshifts.1, hmeans.1, hvariances.1, hscales.2,
      hshifts.2, hmeans.2, hvariances.2, rfl⟩
  · cases h

end

/-- A convolution with single-precision weights. -/
theorem Conv.run_eq_ok_iff {c : Conv} {args : Inputs} {weight u : Tensor} {w : Array Binary32}
    (hweight : args.get? 1 = some weight) (hw : weight.array? Binary32 = some w) :
    c.run args = .ok u ↔ ∃ input x b r, args.get? 0 = some input ∧
      input.array? Binary32 = some x ∧ (args.get? 2).map (Tensor.array? Binary32) = b.map some ∧
      c.elements input.shape weight.shape x w b = .ok r ∧ u = .ofArray r.1 r.2 := by
  unfold run Inputs.require
  rw [hweight]
  constructor
  · intro h
    obtain ⟨input, hinput, h⟩ := bind_eq_ok_iff.1 h
    obtain ⟨_, heq, h⟩ := bind_eq_ok_iff.1 h
    cases heq
    have single : c.runAt Binary32 input weight (args.get? 2) = .ok u := by
      revert h
      cases input.elementType with
      | float32 => exact id
      | float64 =>
          intro h
          obtain ⟨_, _, _, _, -, hw', -⟩ := runAt_eq_ok_iff.1 h
          unfold Tensor.array? at hw hw'
          generalize weight.elements = e at hw hw'
          cases e with
          | float32 => cases hw'
          | _ => cases hw
      | _ => rintro ⟨⟩
    obtain ⟨x, w', b, r, hx, hw', hb, hr, rfl⟩ := runAt_eq_ok_iff.1 single
    cases hw.symm.trans hw'
    exact ⟨input, x, b, r, orFault_eq_ok_iff.1 hinput, hx, hb, hr, rfl⟩
  · rintro ⟨input, x, b, r, hinput, hx, hb, hr, rfl⟩
    refine bind_eq_ok_iff.2 ⟨input, orFault_eq_ok_iff.2 hinput, bind_eq_ok_iff.2 ⟨weight, rfl, ?_⟩⟩
    rw [Tensor.elementType_of_array? hx]
    exact runAt_eq_ok_iff.2 ⟨x, w, b, r, hx, hw, hb, hr, rfl⟩

/-- A normalization of a single-precision tensor. -/
theorem BatchNormalization.exists_of_run {k : BatchNormalization} {args : Inputs} {input u : Tensor}
    {outputs : Option Nat} {x : Array Binary32} (hinput : args.get? 0 = some input)
    (hx : input.array? Binary32 = some x) (h : k.run args outputs = .ok u) :
    ∃ scale shift mean variance, args.get? 1 = some scale ∧ args.get? 2 = some shift ∧
      args.get? 3 = some mean ∧ args.get? 4 = some variance ∧
      k.runAt Binary32 input scale shift mean variance = .ok u := by
  obtain ⟨_, heq, h⟩ := bind_eq_ok_iff.1 h
  cases hinput.symm.trans (orFault_eq_ok_iff.1 heq)
  obtain ⟨scale, hscale, h⟩ := bind_eq_ok_iff.1 h
  obtain ⟨shift, hshift, h⟩ := bind_eq_ok_iff.1 h
  obtain ⟨mean, hmean, h⟩ := bind_eq_ok_iff.1 h
  obtain ⟨variance, hvariance, h⟩ := bind_eq_ok_iff.1 h
  split_ifs at h
  rw [Tensor.elementType_of_array? hx] at h
  exact ⟨scale, shift, mean, variance, orFault_eq_ok_iff.1 hscale, orFault_eq_ok_iff.1 hshift,
    orFault_eq_ok_iff.1 hmean, orFault_eq_ok_iff.1 hvariance, h⟩

/-! ## A normalization in weights and bias -/

/-- The numbers of a convolution and of the normalization of its result. -/
structure NormalizedNumbers (α : Type) where
  weightShape : List Nat
  weight : Array α
  bias : Option (Array α)
  mean : Array α
  factor : Array α
  shift : Array α

namespace NormalizedNumbers

/-- The number of output channels. -/
def channels {α : Type} (p : NormalizedNumbers α) : Nat := p.weightShape.headD 0

/-- Whether there are output channels, and a number of each kind for each of them.  The bias of the
convolution may be missing. -/
structure PerChannel {α : Type} (p : NormalizedNumbers α) : Prop where
  channels : p.channels ≠ 0
  bias : ∀ b, p.bias = some b → b.size = p.channels
  mean : p.mean.size = p.channels
  factor : p.factor.size = p.channels
  shift : p.shift.size = p.channels

/-- Whether there are as many weights as well. -/
structure Fits {α : Type} (p : NormalizedNumbers α) : Prop extends p.PerChannel where
  weight : p.weight.size = elementCount p.weightShape

/-- Whether two computations have weights of the same shape, and as many numbers of each other kind. -/
structure SameSizes {α β : Type} (p : NormalizedNumbers α) (q : NormalizedNumbers β) : Prop where
  weightShape : p.weightShape = q.weightShape
  bias : p.bias.map Array.size = q.bias.map Array.size
  mean : p.mean.size = q.mean.size
  factor : p.factor.size = q.factor.size
  shift : p.shift.size = q.shift.size

theorem SameSizes.perChannel {α β : Type} {p : NormalizedNumbers α} {q : NormalizedNumbers β}
    (same : p.SameSizes q) (h : q.PerChannel) : p.PerChannel := by
  have channels : p.channels = q.channels := congrArg (·.headD 0) same.weightShape
  constructor
  · exact channels.trans_ne h.channels
  · intro b hb
    have size := same.bias
    rw [hb, Option.map_some, eq_comm, Option.map_eq_some_iff] at size
    obtain ⟨b', hb', size⟩ := size
    rw [← size, h.bias b' hb', channels]
  · rw [same.mean, h.mean, channels]
  · rw [same.factor, h.factor, channels]
  · rw [same.shift, h.shift, channels]

variable {α : Type} [RingOps α] {p : NormalizedNumbers α} {c : Conv} {xShape : List Nat}
  {x : Array α}

/-- Convolve an input, and normalize the result. -/
def InTurn (p : NormalizedNumbers α) (c : Conv) (xShape : List Nat) (x : Array α)
    (shape : List Nat) (out : Array α) : Prop :=
  ∃ samples channels places between,
    c.elements xShape p.weightShape x p.weight p.bias =
      .ok (samples :: channels :: places, between) ∧
    p.mean.size = channels ∧ p.factor.size = channels ∧ p.shift.size = channels ∧
    shape = samples :: channels :: places ∧
    out = (BatchNormalization.normalize samples channels (elementCount places) between
      p.mean p.factor p.shift).toArray

/-- The weights and the bias with the normalization. -/
def fused (p : NormalizedNumbers α) : View.ScaledConv α :=
  .fuse (p.weight.size / p.channels) p.weight
    (p.bias.getD (Array.replicate p.channels RingOps.zero)) p.factor p.mean p.shift

theorem size_fused_bias (h : p.PerChannel) : p.fused.bias.size = p.channels := by
  have size : (p.bias.getD (Array.replicate p.channels RingOps.zero)).size = p.channels := by
    cases hb : p.bias with
    | none => exact Array.size_replicate
    | some b => exact h.bias b hb
  simpa [fused, View.ScaledConv.fuse] using size

omit [RingOps α] in
theorem weightShape_eq {g : Conv.Geometry} (reads : c.Reads xShape p.weightShape g) :
    p.weightShape = g.outChannels :: g.groupChannels :: g.kernel := by
  have weights := reads.weights
  unfold splitChannels at weights
  split at weights
  · rename_i shape
    simp only [Except.ok.injEq, Prod.mk.injEq] at weights
    rw [shape, ← weights.1, ← weights.2.1, ← weights.2.2]
  · cases weights

omit [RingOps α] in
theorem channels_eq {g : Conv.Geometry} (reads : c.Reads xShape p.weightShape g) :
    p.channels = g.outChannels := by
  rw [channels, weightShape_eq reads]
  rfl

/-- A convolution and a normalization in turn list their result by sample and channel. -/
theorem InTurn.exists_geometry {shape : List Nat} {out : Array α}
    (inTurn : p.InTurn c xShape x shape out) :
    ∃ g, c.Reads xShape p.weightShape g ∧ shape = g.shape ∧
      out = ((List.range g.samples).flatMap fun n => (List.range g.outChannels).flatMap fun m =>
        ((indexes (placeCounts g.layout)).map (g.elementAt c x p.weight p.bias n m)).map
          (BatchNormalization.normalizeAt p.mean p.factor p.shift m)).toArray := by
  obtain ⟨samples, channels, places, between, first, -, -, -, rfl, rfl⟩ := inTurn
  obtain ⟨g, reads, -, heq⟩ := Conv.elements_eq_ok_iff.1 first
  cases heq
  refine ⟨g, reads, rfl, congrArg List.toArray (BatchNormalization.normalize_flatMap fun n m => ?_)⟩
  rw [List.length_map, length_indexes]

/-- A convolution with the normalization in its weights and its bias reads its input in the same
way. -/
theorem elements_fused_eq (h : p.PerChannel) {g : Conv.Geometry}
    (reads : c.Reads xShape p.weightShape g) :
    c.elements xShape p.weightShape x p.fused.weight (some p.fused.bias) =
      .ok (g.shape, (g.elements c x p.fused.weight (some p.fused.bias)).toArray) := by
  refine Conv.elements_eq_ok_iff.2 ⟨g, reads, ?_, rfl⟩
  rintro b ⟨⟩
  rw [size_fused_bias h, channels_eq reads]

theorem exists_elements_fused (h : p.PerChannel) {shape : List Nat} {out : Array α}
    (inTurn : p.InTurn c xShape x shape out) :
    ∃ out', c.elements xShape p.weightShape x p.fused.weight (some p.fused.bias) =
      .ok (shape, out') := by
  obtain ⟨g, reads, rfl, -⟩ := inTurn.exists_geometry
  exact ⟨_, elements_fused_eq h reads⟩

section

variable {K : Type} [Field K] {p : NormalizedNumbers K} {x : Array K} {g : Conv.Geometry}

/-- The bias of an output channel is normalized. -/
theorem fused_bias_getD (h : p.PerChannel) {m : Nat} (hm : m < p.channels) :
    (p.fused.bias[m]?).getD RingOps.zero = BatchNormalization.normalizeAt p.mean p.factor p.shift m
      ((p.bias.bind (·[m]?)).getD RingOps.zero) := by
  have given : (p.bias.getD (Array.replicate p.channels RingOps.zero)).getD m RingOps.zero =
      (p.bias.bind (·[m]?)).getD RingOps.zero := by
    cases p.bias with
    | none => simp [Array.getD_eq_getD_getElem?, hm]
    | some b => rw [Option.getD_some, Array.getD_eq_getD_getElem?, Option.bind_some]
  have size := size_fused_bias h
  unfold fused View.ScaledConv.fuse at size ⊢
  rw [Array.size_map, Array.size_range] at size
  rw [Array.getElem?_map, Array.getElem?_range, size, if_pos hm, Option.map_some, Option.getD_some,
    given]
  rfl

/-- The weights of an output channel are multiplied by its factor. -/
theorem fused_weight_getD {j : Nat} : p.fused.weight.getD j RingOps.zero =
    p.weight.getD j RingOps.zero * p.factor.getD (j / (p.weight.size / p.channels)) RingOps.zero := by
  unfold fused View.ScaledConv.fuse
  simp only [Array.getD_eq_getD_getElem?, Array.getElem?_mapIdx]
  cases p.weight[j]? with
  | none => exact (zero_mul _).symm
  | some w => rfl

/-- Each element is normalized by the weights and the bias of its channel. -/
theorem elementAt_fused (h : p.Fits) (reads : c.Reads xShape p.weightShape g) {n m : Nat}
    (hm : m < g.outChannels) (place : List Nat) :
    g.elementAt c x p.fused.weight (some p.fused.bias) n m place =
      BatchNormalization.normalizeAt p.mean p.factor p.shift m
        (g.elementAt c x p.weight p.bias n m place) := by
  have block : p.weight.size / p.channels = g.groupChannels * elementCount g.kernel := by
    rw [h.weight, weightShape_eq reads, channels_eq reads, elementCount_cons, elementCount_cons]
    exact Nat.mul_div_cancel_left _ (Nat.zero_lt_of_lt hm)
  have start := fused_bias_getD h.toPerChannel (channels_eq reads ▸ hm)
  unfold Conv.Geometry.elementAt
  rw [Option.bind_some, start]
  refine Conv.addProducts_scaled (fun q hq => ?_) _
  rw [fused_weight_getD, block, Conv.div_of_mem_terms hq]

/-- Over a field a convolution with the normalization in its weights and its bias gives the normalized
result. -/
theorem elements_fused (h : p.Fits) {shape : List Nat} {out : Array K}
    (inTurn : p.InTurn c xShape x shape out) :
    c.elements xShape p.weightShape x p.fused.weight (some p.fused.bias) = .ok (shape, out) := by
  obtain ⟨g, reads, rfl, rfl⟩ := inTurn.exists_geometry
  have each : g.elements c x p.fused.weight (some p.fused.bias) =
      (List.range g.samples).flatMap fun n => (List.range g.outChannels).flatMap fun m =>
        ((indexes (placeCounts g.layout)).map (g.elementAt c x p.weight p.bias n m)).map
          (BatchNormalization.normalizeAt p.mean p.factor p.shift m) := by
    refine List.flatMap_congr fun n _ => List.flatMap_congr fun m hm => ?_
    rw [List.map_map]
    exact List.map_congr_left fun place _ => elementAt_fused h reads (List.mem_range.1 hm) place
  rw [elements_fused_eq h.toPerChannel reads, each]

end

end NormalizedNumbers
end TensorGraph
