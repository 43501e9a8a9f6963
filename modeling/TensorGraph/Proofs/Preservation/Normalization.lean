import Mathlib
import TensorGraph.Proofs.FreshName
import TensorGraph.Proofs.Preservation.Fuse

/-!
# A normalization in a convolution

Input:

* a node that normalizes the result of a convolution, for which a rule proposes one convolution with
  other weights and another bias;
* values of a run of which the view of the rule is true, so that the convolution holds in them.

Algorithm:

* the constants that the rule reads are the arguments of both nodes, so that both compute with the same
  numbers (`View.TrueOf.exists_inTurn`);
* the new weights and the new bias fit the convolution as the old ones do (`NormalizedNumbers.Fits`).

Main result:

* `View.fuseNormalizationIntoConv_sound`: whenever the normalization yields a tensor, the convolution that
  takes its place yields one of the same shape, and over a field the same computation with any
  numbers of the same sizes gives the same elements.
-/

namespace TensorGraph

open AttributeValue

variable {v : View} {n conv : Node} {change : Change} {V : Scope Tensor} {ts : List Tensor}
  {p : NormalizedNumbers Binary32} {weightName : String}

namespace View

/-! ## What both nodes compute with -/

/-- The rule and the operator read the same epsilon. -/
theorem readOr_of_epsilon? {epsilon : Binary32} (h : epsilon? n = some epsilon) :
    n.readOr "epsilon" ⟨0x3727c5ac⟩ asFloat = .ok epsilon := by
  unfold epsilon? at h
  unfold Node.readOr Node.read?
  cases hattr : n.attribute? "epsilon" with
  | none =>
      rw [hattr] at h
      cases h
      rfl
  | some value =>
      rw [hattr] at h
      cases value <;> cases h
      rfl

namespace TrueOf

variable {args : Inputs}

/-- The numbers of a constant that may be missing are those of the argument. -/
theorem map_array?_get? (h : v.TrueOf V) (hargs : n.arguments V = .ok args) {i : Nat}
    {xs : Option (Array Binary32)} (hxs : (n.input? i).map v.binary32s? = xs.map some) :
    (args.get? i).map (Tensor.array? Binary32) = xs.map some := by
  rw [← hxs, Node.get?_arguments hargs]
  cases hx : n.input? i with
  | none => rfl
  | some x =>
      obtain ⟨found, -⟩ := Node.arguments_eq_ok_iff.1 hargs
      obtain ⟨t, ht⟩ := found x (Node.mem_presentInputs_of_input? hx)
      rw [hx, Option.map_some, eq_comm, Option.map_eq_some_iff] at hxs
      obtain ⟨numbers, -, hnumbers⟩ := hxs
      obtain ⟨c, hc, hnumbers'⟩ := Option.bind_eq_some_iff.1 hnumbers.symm
      have same := Tensor.Likeness.array? (h.constants x c t hc ht) Binary32
      rw [Option.bind_some, ht, Option.map_some, Option.map_some, ← same, hnumbers', hnumbers]

/-- The numbers of a constant are those of the argument. -/
theorem array?_eq (h : v.TrueOf V) (hargs : n.arguments V = .ok args) {i : Nat}
    {xs : Array Binary32} (hxs : (n.input? i).bind v.binary32s? = some xs) {t : Tensor}
    (ht : args.get? i = some t) : t.array? Binary32 = some xs := by
  obtain ⟨x, hx, hxs⟩ := Option.bind_eq_some_iff.1 hxs
  have read : (n.input? i).map v.binary32s? = (some xs).map some := by
    rw [hx, Option.map_some, hxs, Option.map_some]
  have given := h.map_array?_get? hargs read
  rw [ht] at given
  exact Option.some.inj given

/-- A convolution computes with the weights and the bias that a rule reads for it. -/
theorem exists_convolved (h : v.TrueOf V) (numbers : v.Normalizes n conv weightName p)
    {chance : Generator} {x : String} (hx : conv.input? 0 = some x)
    (yields : conv.Yields v.version chance V ts) :
    ∃ c a xs r, Operator.readConv conv = .ok (.conv c) ∧ V.get? x = some a ∧ a.array? Binary32 = some xs ∧
      c.elements a.shape p.weightShape xs p.weight p.bias = .ok r ∧ ts = [.ofArray r.1 r.2] := by
  obtain ⟨c, args, u, read, hargs, run, rfl⟩ :=
    (Node.yields_conv_iff numbers.convolution).1 yields
  obtain ⟨found, -⟩ := Node.arguments_eq_ok_iff.1 hargs
  obtain ⟨w, hw⟩ := found weightName (Node.mem_presentInputs_of_input? numbers.name)
  obtain ⟨constant, hconstant, hweight, hshape⟩ := numbers.weight
  have likeness := h.constants weightName constant w hconstant hw
  have weight := (Tensor.Likeness.array? likeness Binary32).symm.trans hweight
  have argument : args.get? 1 = some w := by rw [Node.get?_arguments hargs, numbers.name]; exact hw
  obtain ⟨a, xs, b, r, ha, hxs, hb, elements, rfl⟩ := (Conv.run_eq_ok_iff argument weight).1 run
  rw [Node.get?_arguments hargs, hx] at ha
  rw [← likeness.shape, hshape] at elements
  have bias : b = p.bias := by
    rw [h.map_array?_get? hargs numbers.bias] at hb
    exact (Option.map_injective (Option.some_injective _) hb).symm
  exact ⟨c, a, xs, r, read, ha, hxs, bias ▸ elements, rfl⟩

/-- A normalization computes with the mean, the factor and the shift that a rule reads for it. -/
theorem exists_normalized (h : v.TrueOf V) (numbers : v.Normalizes n conv weightName p)
    {chance : Generator} {x : String} {t : Tensor} {xs : Array Binary32}
    (hx : n.input? 0 = some x) (ht : V.get? x = some t) (hxs : t.array? Binary32 = some xs)
    (yields : n.Yields v.version chance V ts) :
    ∃ samples channels places, t.shape = samples :: channels :: places ∧ p.mean.size = channels ∧
      p.factor.size = channels ∧ p.shift.size = channels ∧
      ts = [.ofArray t.shape (BatchNormalization.normalize samples channels (elementCount places) xs
        p.mean p.factor p.shift).toArray] := by
  obtain ⟨e, args, u, he, hargs, run, rfl⟩ :=
    (Node.yields_batchNormalization_iff numbers.normalization).1 yields
  have input : args.get? 0 = some t := by rw [Node.get?_arguments hargs, hx]; exact ht
  obtain ⟨scale, shift, mean, variance, hscale, hshift, hmean, hvariance, run⟩ :=
    BatchNormalization.exists_of_run input hxs run
  obtain ⟨_, samples, channels, places, scales, shifts, means, variances, hxs', shape, hscales,
    hshifts, hmeans, hvariances, sScale, sShift, sMean, sVariance, rfl⟩ :=
    BatchNormalization.exists_of_runAt run
  cases hxs.symm.trans hxs'
  cases hshifts.symm.trans (h.array?_eq hargs numbers.shift hshift)
  cases hmeans.symm.trans (h.array?_eq hargs numbers.mean hmean)
  obtain ⟨epsilon, scales', variances', hepsilon, hscales', hvariances', factor⟩ :=
    numbers.factor
  cases hscales.symm.trans (h.array?_eq hargs hscales' hscale)
  cases hvariances.symm.trans (h.array?_eq hargs hvariances' hvariance)
  cases he.symm.trans (readOr_of_epsilon? hepsilon)
  rw [factor]
  refine ⟨samples, channels, places, shape, sMean, ?_, sShift, rfl⟩
  rw [Array.size_map, Array.size_zip, sScale, sVariance, Nat.min_self]

/-- The convolution and the normalization make of the input what their numbers make of it in turn. -/
theorem exists_inTurn (h : v.TrueOf V) (numbers : v.Normalizes n conv weightName p)
    {chance : Generator} {result x : String} (hresult : n.input? 0 = some result)
    (hx : conv.input? 0 = some x) (feeds : result ∈ conv.presentOutputs)
    (holds : conv.Holds v.version chance V) (yields : n.Yields v.version chance V ts) :
    ∃ c a xs shape out, Operator.readConv conv = .ok (.conv c) ∧ V.get? x = some a ∧
      a.array? Binary32 = some xs ∧ p.InTurn c a.shape xs shape out ∧ ts = [.ofArray shape out] := by
  obtain ⟨u, s, inside, hs, alike⟩ := holds.exists_output feeds fun ts hts => by
    obtain ⟨_, _, u, -, -, -, rfl⟩ := (Node.yields_conv_iff numbers.convolution).1 hts
    exact ⟨u, rfl⟩
  obtain ⟨c, a, xs, r, read, ha, hxs, elements, heq⟩ := h.exists_convolved numbers hx inside
  cases heq
  have between : s.array? Binary32 = some r.2 := (Tensor.Likeness.array? alike Binary32).symm
  obtain ⟨samples, channels, places, shape, mean, factor, shift, rfl⟩ :=
    h.exists_normalized numbers hresult hs between yields
  refine ⟨c, a, xs, _, _, read, ha, hxs,
    ⟨samples, channels, places, r.2, ?_, mean, factor, shift, shape, rfl⟩, rfl⟩
  rw [elements, ← shape, ← alike.shape]
  rfl

end TrueOf

/-! ## The convolution that takes the place of both -/

/-- A convolution with three inputs. -/
theorem yields_fused {m : Node} {version : Option Int64} {chance : Generator} {c : Conv}
    {x w b : String} {a : Tensor} {xs weight bias : Array Binary32} {wShape : List Nat}
    {r : List Nat × Array Binary32} (hop : m.isOperator "Conv" = true)
    (read : Operator.readConv m = .ok (.conv c)) (inputs : m.inputs = [x, w, b])
    (hx : x ≠ "") (hw : w ≠ "") (hb : b ≠ "") (ha : V.get? x = some a)
    (hxs : a.array? Binary32 = some xs) (hweight : V.get? w = some (.ofArray wShape weight))
    (hbias : V.get? b = some (.vector bias))
    (elements : c.elements a.shape wShape xs weight (some bias) = .ok r) :
    m.Yields version chance V [.ofArray r.1 r.2] := by
  have hargs := Node.arguments_triple inputs hx hw hb ha hweight hbias
  have argument : Inputs.get? [some a, some (.ofArray wShape weight), some (.vector bias)] 1 =
      some (.ofArray wShape weight) := rfl
  exact (Node.yields_conv_iff hop).2 ⟨c, _, _, read, hargs, (Conv.run_eq_ok_iff argument rfl).2
    ⟨a, xs, some bias, r, rfl, hxs, rfl, elements, rfl⟩, rfl⟩

/-- The convolution that takes the place of a convolution and a normalization yields a tensor of the same
shape from the input of the first one.  When elements are taken from a field, it has the same elements,
whatever the factors are. -/
theorem fuseNormalizationIntoConv_sound {taken : List String}
    (h : (v.fuseNormalizationIntoConv taken n).2 = some change) :
    ∃ result i conv weightName p x y fused weight bias, n.input? 0 = some result ∧
      v.producer? result = some (i, conv) ∧ v.Normalizes n conv weightName p ∧
      conv.input? 0 = some x ∧ n.outputs.head? = some y ∧
      fused = { conv with inputs := [x, weight, bias], outputs := [y] } ∧
      change = .replace [fused]
        [⟨weight, .ofArray p.weightShape p.fused.weight⟩, ⟨bias, .vector p.fused.bias⟩] ∧
      (∀ (chance : Generator) (V : Scope Tensor) (ts : List Tensor), v.TrueOf V →
        conv.Holds v.version chance V → n.Yields v.version chance V ts →
        ∃ c a xs shape out out', Operator.readConv conv = .ok (.conv c) ∧ V.get? x = some a ∧
          a.array? Binary32 = some xs ∧ p.InTurn c a.shape xs shape out ∧
          ts = [.ofArray shape out] ∧
          c.elements a.shape p.weightShape xs p.fused.weight (some p.fused.bias) =
            .ok (shape, out') ∧
          ∀ W : Scope Tensor, W.get? x = some a →
            W.get? weight = some (.ofArray p.weightShape p.fused.weight) →
            W.get? bias = some (.vector p.fused.bias) →
            fused.Yields v.version chance W [.ofArray shape out']) ∧
      ∀ (K : Type) [Field K] (q : NormalizedNumbers K), q.SameSizes p →
        q.weight.size = elementCount q.weightShape →
        ∀ (c : Conv) (xShape shape : List Nat) (xs out : Array K), q.InTurn c xShape xs shape out →
          c.elements xShape q.weightShape xs q.fused.weight (some q.fused.bias) =
            .ok (shape, out) := by
  obtain ⟨result, i, conv, weightName, p, x, y, weight, bias, hresult, hprod, numbers, hx, hy,
    hweight, hbias, -, rfl⟩ := fuseNormalizationIntoConv_eq_some h
  refine ⟨result, i, conv, weightName, p, x, y, _, weight, bias, hresult, hprod, numbers, hx, hy,
    rfl, rfl, ?_, ?_⟩
  · intro chance V ts trueOf holds yields
    obtain ⟨c, a, xs, shape, out, read, ha, hxs, inTurn, rfl⟩ :=
      trueOf.exists_inTurn numbers hresult hx (mem_of_producer? hprod).2 holds yields
    obtain ⟨out', elements⟩ :=
      NormalizedNumbers.exists_elements_fused numbers.perChannel inTurn
    refine ⟨c, a, xs, shape, out, out', read, ha, hxs, inTurn, rfl, elements, ?_⟩
    intro W hx' hweight' hbias'
    have named : weight ≠ "" ∧ bias ≠ "" :=
      ⟨hweight ▸ freshName_ne_empty (by simp), hbias ▸ freshName_ne_empty (by simp)⟩
    exact yields_fused (m := { conv with inputs := [x, weight, bias], outputs := [y] })
      numbers.convolution read rfl (Node.input?_eq_some_iff.1 hx).2 named.1 named.2 hx' hxs hweight'
      hbias' elements
  · intro K _ q same size c xShape shape xs out inTurn
    exact NormalizedNumbers.elements_fused ⟨same.perChannel numbers.perChannel, size⟩ inTurn

def groupedConv : Node where
  opType := "Conv"
  inputs := ["x", "w"]
  outputs := ["z"]
  attributes := [{ name := "group", value := .int 2 }]

def normalization : Node where
  opType := "BatchNormalization"
  inputs := ["z", "scale", "shift", "mean", "variance"]
  outputs := ["y"]
  attributes := [{ name := "epsilon", value := .float .zero }]

/-- The constants of a convolution with two groups and of a normalization. -/
def groupedConstants : List Initializer :=
  [⟨"w", .ofArray [2, 1, 2] #[.one, (⟨0x40000000⟩ : Binary32), ⟨0x40000000⟩, .one]⟩,
    ⟨"scale", .ofArray [2] #[(⟨0x40000000⟩ : Binary32), .one]⟩,
    ⟨"shift", .ofArray [2] #[.one, (⟨0x40000000⟩ : Binary32)]⟩,
    ⟨"mean", .ofArray [2] #[Binary32.one, .one]⟩,
    ⟨"variance", .ofArray [2] #[Binary32.one, .one]⟩]

/-- A convolution with two groups is normalized. -/
def groupedAndNormalized : View where
  version := none
  graph :=
    { nodes := [groupedConv, normalization]
      inputs := [{ name := "x" }]
      initializers := groupedConstants
      outputs := [{ name := "y" }] }
  facts := []
  surroundings := {}

/-- The values of a run. -/
def groupedValues : Scope Tensor :=
  ("x", .ofArray [1, 2, 2] #[(⟨0x40400000⟩ : Binary32), .one, .one, ⟨0x40000000⟩]) ::
    ("z", .ofArray [1, 2, 1] #[(⟨0x40a00000⟩ : Binary32), ⟨0x40800000⟩]) ::
    groupedConstants.map fun i => (i.name, i.value)

theorem groupedAndNormalized_trueOf : groupedAndNormalized.TrueOf groupedValues := by
  constructor
  · exact ⟨fun _ => 0, fun z f t hf _ => by cases hf⟩
  · refine fun z c t => alike_of_constant? rfl fun i hi t ht => ?_
    simp only [groupedAndNormalized, groupedConstants, List.mem_cons, List.not_mem_nil,
      or_false] at hi
    rcases hi with rfl | rfl | rfl | rfl | rfl <;> cases ht <;> rfl

theorem groupedConv_holds : groupedConv.Holds none ⟨0⟩ groupedValues :=
  Node.holds_single rfl ((Node.yields_conv_iff rfl).2
    ⟨{ padding := .explicit [], groups := 2 }, _, _, by cbv, rfl, by decide +kernel, rfl⟩) rfl

theorem normalization_yields : normalization.Yields none ⟨0⟩ groupedValues
    [.ofArray [1, 2, 1] #[(⟨0x41100000⟩ : Binary32), ⟨0x40a00000⟩]] :=
  (Node.yields_batchNormalization_iff rfl).2 ⟨_, _, _, rfl, rfl, by decide +kernel, rfl⟩

/-- Rational numbers for a computation of the same shape. -/
def rationalNumbers : NormalizedNumbers ℚ where
  weightShape := [2, 1, 2]
  weight := #[1, 2, 2, 1]
  bias := none
  mean := #[1, 1]
  factor := #[1 / 3, 2]
  shift := #[1, 0]

theorem rationalNumbers_inTurn : rationalNumbers.InTurn { groups := 2 } [1, 2, 2] #[3, 1, 1, 2]
    [1, 2, 1] #[7 / 3, 6] :=
  ⟨1, 2, [1], #[5, 4], by decide +kernel, rfl, rfl, rfl, rfl, by decide +kernel⟩

/-- One convolution takes the place of both nodes.  Its result has the same shape, and with rational
numbers the same elements. -/
theorem fuseNormalizationIntoConv_grouped : ∃ (m : Node) (weight bias : Initializer)
    (out : Array Binary32),
    (groupedAndNormalized.fuseNormalizationIntoConv [] normalization).2 =
      some (.replace [m] [weight, bias]) ∧
    (∀ W : Scope Tensor, W.get? "x" = groupedValues.get? "x" →
      W.get? weight.name = some weight.value → W.get? bias.name = some bias.value →
      m.Yields none ⟨0⟩ W [.ofArray [1, 2, 1] out]) ∧
    Conv.elements { groups := 2 } [1, 2, 2] rationalNumbers.weightShape #[3, 1, 1, 2]
      rationalNumbers.fused.weight (some rationalNumbers.fused.bias) = .ok ([1, 2, 1], #[7 / 3, 6]) := by
  obtain ⟨change, fused⟩ := Option.isSome_iff_exists.1 (by decide +kernel :
    (groupedAndNormalized.fuseNormalizationIntoConv [] normalization).2.isSome = true)
  obtain ⟨result, i, conv, weightName, p, x, y, m, weight, bias, hresult, hprod, numbers, hx, hy, -,
    rfl, sound, exact'⟩ := fuseNormalizationIntoConv_sound fused
  cases hresult
  cases hprod
  cases hx
  obtain ⟨c, a, xs, shape, out, out', -, ha, -, -, heq, -, yields⟩ :=
    sound ⟨0⟩ groupedValues _ groupedAndNormalized_trueOf groupedConv_holds normalization_yields
  have sameShape : [[1, 2, 1]] = [shape] := congrArg (List.map Tensor.shape) heq
  cases sameShape
  -- The rational numbers have the sizes of the constants.
  obtain ⟨w, hw, -, hshape⟩ := numbers.weight
  cases numbers.name
  cases hw
  have same : rationalNumbers.SameSizes p := by
    have channels : p.channels = 2 := by
      unfold NormalizedNumbers.channels
      rw [← hshape]
      rfl
    have bias : p.bias = none := by
      have given := numbers.bias
      cases hb : p.bias with
      | none => rfl
      | some b =>
          rw [hb] at given
          cases given
    refine ⟨hshape, by rw [bias]; rfl, ?_, ?_, ?_⟩
    · rw [numbers.perChannel.mean, channels]
      rfl
    · rw [numbers.perChannel.factor, channels]
      rfl
    · rw [numbers.perChannel.shift, channels]
      rfl
  exact ⟨m, _, _, out', fused, fun W hx hweight hbias => yields W (hx.trans ha) hweight hbias,
    exact' ℚ rationalNumbers same rfl _ _ _ _ _ rationalNumbers_inTurn⟩

end View
end TensorGraph
