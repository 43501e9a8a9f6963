import TensorGraph.Proofs.Facts.Inputs
import TensorGraph.Proofs.Facts.Shape
import TensorGraph.Proofs.Operator.Broadcasting
import TensorGraph.Proofs.Operator.Reshape

/-!
# Rules for operators that rearrange tensors

Input:

* facts about the inputs of an operator that are true when the names in them have certain values, and the
  output of the operator.

The output has the type of an input and a new shape (`Tensor.Takes`), which the operator makes of the sizes
as the rule makes its dimensions of the input's dimensions.  So the rule holds (`RuleHolds`) where the
changes of shape keep that dimensions hold.

Results:

* `inferTranspose_holds`, `inferGather_holds`, `inferTile_holds`, `inferFlatten_holds`,
  `inferSqueeze_holds`, `inferUnsqueeze_holds` and `Reduction.infer_holds`;
* `inferExpand_holds`, where sizes given by expressions are positive, and `inferExpand_fails_of_empty`, where
  one is 0.
-/

namespace TensorGraph

variable {σ : String → Int} {fs : InputFacts} {inputs : Inputs} {t out : Tensor} {f g : Facts}

/-! ## What operators produce -/

/-- A tensor with a new shape and the type of another one. -/
structure Tensor.Takes (out t : Tensor) (shape : List Nat) : Prop where
  shape_eq : out.shape = shape
  type_eq : out.elementType = t.elementType

/-- What is computed from the elements of a tensor as a sequence of the same type has its type. -/
theorem takes_of_dispatch {shape : List Nat} {f : (α : Type) → [Element α] → OpResult Tensor}
    (each : ∀ (α : Type) [Element α], Ensures (f α) fun u => ∃ xs : Array α, u = .ofArray shape xs)
    (h : t.elementType.dispatch f = .ok out) : out.Takes t shape := by
  cases htype : t.elementType <;> rw [htype] at h <;>
    first
    | (obtain ⟨xs, rfl⟩ := each _ _ h
       exact ⟨rfl, htype.symm⟩)
    | cases h

theorem takes_of_dispatchNumeric {shape : List Nat}
    {f : (α : Type) → [Element α] → [Arith α] → OpResult Tensor}
    (each : ∀ (α : Type) [Element α] [Arith α],
      Ensures (f α) fun u => ∃ xs : Array α, u = .ofArray shape xs)
    (h : t.elementType.dispatchNumeric f = .ok out) : out.Takes t shape := by
  cases htype : t.elementType <;> rw [htype] at h <;>
    first
    | (obtain ⟨xs, rfl⟩ := each _ _ h
       exact ⟨rfl, htype.symm⟩)
    | cases h

theorem takes_of_takeTensor {shape offsets : List Nat} (h : takeTensor t shape offsets = .ok out) :
    out.Takes t shape :=
  takes_of_dispatch (fun _ _ => Ensures.bind_any fun _ => Ensures.pure ⟨_, rfl⟩) h

theorem takes_of_reshapeOrFault {shape : List Nat} (h : reshapeOrFault t shape = .ok out) :
    out.Takes t shape := by
  have reshaped := orFault_eq_ok_iff.1 h
  unfold Tensor.reshaped? at reshaped
  split at reshaped
  · cases reshaped
    exact ⟨rfl, rfl⟩
  · cases reshaped

theorem takes_of_reshapeTo {shape : List Nat} (h : reshapeTo t shape = .ok out) :
    out.Takes t shape := by
  obtain ⟨-, -, rfl⟩ := reshapeTo_eq_ok_iff.1 h
  exact ⟨rfl, rfl⟩

/-! ## What rules say -/

/-- Whether a rule gives facts about one output that hold of a tensor, apart from its elements. -/
def RuleHolds (σ : String → Int) (result : FactsResult (List Facts)) (out : Tensor) : Prop :=
  ∃ g, result = .ok [g] ∧ g.withoutValues.Holds σ out

/-- Facts hold of an output that takes the type of an input if the dimensions hold of its shape. -/
theorem Tensor.Takes.ruleHolds {shape : List Nat} (h : out.Takes t shape) (holds : f.Holds σ t)
    (type : g.type = f.type) (dims : ∀ dims, g.shape = some dims → Dim.AllHold σ dims shape) :
    RuleHolds σ (.ok [g]) out := by
  refine ⟨g, rfl, Facts.holds_withoutValues ?_ ?_⟩
  · intro type' htype
    rw [h.type_eq]
    exact holds.type_eq type' (type ▸ htype)
  · intro ds hds
    rw [h.shape_eq]
    exact dims ds hds

@[simp] theorem OpResult.toFacts_ok {α : Type} (x : α) : OpResult.toFacts (.ok x) = .ok x := rfl

theorem resolveFactsAxis_of_resolveAxis {rank i : Nat} {axis : Int}
    (h : resolveAxis rank axis = .ok i) : resolveFactsAxis rank axis = .ok i := by
  unfold resolveFactsAxis
  rw [orFault_eq_ok_iff.1 h]

namespace InputFacts.TrueOf

/-- The axes that are known are those that an operator gets. -/
theorem axesInput_eq (facts : fs.TrueOf σ inputs) {axes : Option (List Int)}
    {known : Option (List Int)} (h : Reduction.knownAxes axes fs = some known) :
    axesInput axes inputs = .ok known := by
  unfold Reduction.knownAxes at h
  unfold axesInput
  cases axes with
  | some axes =>
      cases h
      rfl
  | none =>
      cases hf : fs.get? 1 with
      | none =>
          rw [hf] at h
          cases h
          exact facts.ints?_of_none hf
      | some f =>
          rw [hf] at h
          obtain ⟨vs, hvs, rfl⟩ := Option.map_eq_some_iff.1 h
          exact facts.ints?_of_integers? hf hvs

end InputFacts.TrueOf

/-! ## Moved elements -/

theorem length_of_resolvePerm {perm : List Int} {rank : Nat} {order : List Nat}
    (h : resolvePerm (some perm) rank = .ok order) : order.length = perm.length := by
  unfold resolvePerm at h
  dsimp only at h
  split at h
  · cases h
  · exact length_of_mapM_eq_some (resolveAxes_eq_ok_iff.1 h).1

theorem inferTranspose_holds (facts : fs.TrueOf σ inputs) {perm : Option (List Int)}
    (h : runTranspose perm inputs = .ok out) : RuleHolds σ (inferTranspose perm fs) out := by
  obtain ⟨t, ht, h⟩ := bind_eq_ok_iff.1 h
  obtain ⟨order, horder, h⟩ := bind_eq_ok_iff.1 h
  obtain ⟨input, hinput, holds, -⟩ := facts.require ht
  have takes := takes_of_takeTensor h
  unfold inferTranspose
  cases hshape : input.shape with
  | some dims =>
      have rank : dims.length = t.rank := Dim.length_of_allHold (holds.shape_eq dims hshape)
      simp only [hinput, hshape, rank, horder, bind, Except.bind]
      refine takes.ruleHolds holds rfl fun ds hds => ?_
      cases hds
      exact Dim.allHold_map_getD (holds.shape_eq dims hshape) order 1
  | none =>
      simp only [hinput, hshape, bind, Except.bind]
      refine takes.ruleHolds holds rfl fun ds hds => ?_
      obtain ⟨axes, rfl, rfl⟩ := Option.map_eq_some_iff.1 hds
      refine Dim.allHold_replicate_unknown ?_
      rw [List.length_map, length_of_resolvePerm horder]

theorem inferGather_holds (facts : fs.TrueOf σ inputs) {axis : Int}
    (h : runGather axis inputs = .ok out) : RuleHolds σ (inferGather axis fs) out := by
  obtain ⟨t, ht, h⟩ := bind_eq_ok_iff.1 h
  obtain ⟨u, hu, h⟩ := bind_eq_ok_iff.1 h
  obtain ⟨values, -, h⟩ := bind_eq_ok_iff.1 h
  obtain ⟨i, hi, h⟩ := bind_eq_ok_iff.1 h
  obtain ⟨positions, -, h⟩ := bind_eq_ok_iff.1 h
  obtain ⟨data, hdata, holds, -⟩ := facts.require ht
  obtain ⟨indexes, hindexes, holds', -⟩ := facts.require hu
  have takes := takes_of_takeTensor h
  unfold inferGather
  cases hshape : data.shape with
  | none =>
      simp only [hdata, hindexes, hshape, bind, Except.bind]
      exact takes.ruleHolds holds rfl nofun
  | some dims =>
      cases hindex : indexes.shape with
      | none =>
          simp only [hdata, hindexes, hshape, hindex, bind, Except.bind]
          exact takes.ruleHolds holds rfl nofun
      | some indexDims =>
          have rank : dims.length = t.rank := Dim.length_of_allHold (holds.shape_eq dims hshape)
          simp only [hdata, hindexes, hshape, hindex, rank, resolveFactsAxis_of_resolveAxis hi, bind,
            Except.bind]
          refine takes.ruleHolds holds rfl fun ds hds => ?_
          cases hds
          exact Dim.allHold_gatherShape (holds.shape_eq dims hshape) (holds'.shape_eq indexDims hindex) i

/-- Sizes that are given by expressions are broadcast, which may not be 0. -/
theorem inferExpand_holds (facts : fs.TrueOf σ inputs)
    (positive : ∀ f dims, fs.get? 0 = some f → f.shape = some dims →
      ∀ e, .symbolic e ∈ dims → 0 < e.eval σ)
    (positive' : ∀ f values, fs.get? 1 = some f → f.values = some values →
      ∀ e ∈ values, e.constant? = none → 0 < e.eval σ)
    (h : runExpand inputs = .ok out) : RuleHolds σ (inferExpand fs) out := by
  obtain ⟨t, ht, h⟩ := bind_eq_ok_iff.1 h
  obtain ⟨values, hvalues, h⟩ := bind_eq_ok_iff.1 h
  obtain ⟨target, htarget, h⟩ := bind_eq_ok_iff.1 h
  obtain ⟨shape, hshape, h⟩ := bind_eq_ok_iff.1 h
  obtain ⟨u, hu, hints⟩ := Inputs.requireInts_eq_ok_iff.1 hvalues
  obtain ⟨input, hinput, holds, simplifies⟩ := facts.exists_facts (Inputs.require_eq_ok_iff.1 ht)
  obtain ⟨wanted, hwanted, holds', simplifies'⟩ := facts.exists_facts hu
  have takes := takes_of_takeTensor h
  unfold inferExpand
  simp only [InputFacts.require_of_get? hinput, InputFacts.require_of_get? hwanted, bind, Except.bind]
  cases hdims : input.shape with
  | none => exact takes.ruleHolds holds rfl nofun
  | some dims =>
      cases hknown : wanted.values with
      | none =>
          simp only [Facts.dims?, hknown, Option.map_none]
          exact takes.ruleHolds holds rfl nofun
      | some values' =>
          rw [holds'.intList_eq hknown] at hints
          cases hints
          have sized := Dim.forall₂_sized (holds.shape_eq dims hdims) (simplifies.shape dims hdims)
            (positive input dims hinput hdims)
          have sized' := Dim.forall₂_sized (Dim.allHold_map_ofExpr (simplifies'.values values' hknown)
            (map_natCast_of_toSizes htarget)) (by simp [Dim.exact_ofExpr]) fun e he => by
              obtain ⟨e', mem, eq⟩ := List.mem_map.1 he
              obtain ⟨rfl, unknown⟩ := Dim.eq_simplify_of_ofExpr eq
              rw [(simplifies'.values values' hknown e' mem).eval_simplified]
              exact positive' wanted values' hwanted hknown e' mem unknown
          obtain ⟨rs, hrs, all⟩ := allHold_broadcastDims sized sized' (orFault_eq_ok_iff.1 hshape)
          simp only [Facts.dims?, hknown, Option.map_some, hrs, Except.map]
          refine takes.ruleHolds holds rfl fun ds hds => ?_
          cases hds
          exact all

/-- The length of a vector without its first element, which the names leave none. -/
def restLength : SizeExpr := ((SizeExpr.var "rows").minus (.const 1)).larger (.const 0)

theorem eval_restLength : restLength.eval (fun _ => 1) = 0 := by
  have exact_var : SizeExpr.Exact (fun _ => 1) (.var "rows") := Or.inl (.var "rows")
  have exact_minus : ((SizeExpr.var "rows").minus (.const 1)).Exact (fun _ => 1) :=
    SizeExpr.exact_simplify _
  rw [restLength, SizeExpr.eval_larger exact_minus (SizeExpr.exact_const 0),
    SizeExpr.eval_minus exact_var (SizeExpr.exact_const 1) (by decide)]
  rfl

def emptiedFacts : InputFacts :=
  [some { shape := some [.symbolic restLength] }, some (.ofValues .int64 [.var "length"])]

def emptiedInputs : Inputs :=
  [some { shape := [0], elements := .int64 #[] }, some (.vector (#[1] : Array Int64))]

/-- A size of 0 that is given by an expression is kept against a size of 1, though the rule gives the larger
one. -/
theorem inferExpand_fails_of_empty : emptiedFacts.TrueOf (fun _ => 1) emptiedInputs ∧
    ∃ out g, runExpand emptiedInputs = .ok out ∧ inferExpand emptiedFacts = .ok [g] ∧
      ¬ g.withoutValues.Holds (fun _ => 1) out := by
  have exact_rest : restLength.Exact (fun _ => 1) := SizeExpr.exact_simplify _
  have exact_var : ∀ name, SizeExpr.Exact (fun _ => 1) (.var name) := fun name => Or.inl (.var name)
  have zero := eval_restLength
  obtain ⟨-, broadcasts, fails⟩ := not_holds_broadcastDim exact_rest (exact_var "length") zero rfl
  refine ⟨⟨.cons (.some ?_) (.cons (.some ?_) .nil), ?_⟩, ?_⟩
  · exact ⟨nofun, fun _ h => by cases h; exact ⟨zero, trivial⟩, nofun⟩
  · exact ⟨fun _ h => by cases h; rfl, fun _ h => by cases h; exact ⟨rfl, trivial⟩,
      fun _ h => by cases h; decide⟩
  · simp [emptiedFacts, Facts.exact_iff, Facts.ofValues, Dim.exact_symbolic_iff, Dim.exact_fixed,
      exact_rest, exact_var]
  · have aligned : broadcastDims [.symbolic restLength] [Dim.ofExpr (.var "length")] =
        .ok [Dim.ofExpr (restLength.larger (.var "length"))] := by
      rw [Dim.ofExpr, SizeExpr.simplify_of_isNormal (.var "length")]
      simp [broadcastDims, padDims, broadcastAligned, broadcasts, bind, Except.bind, pure, Except.pure]
    have rule : inferExpand emptiedFacts =
        (broadcastDims [.symbolic restLength] [Dim.ofExpr (.var "length")]).map some >>= fun shape =>
          .ok [{ shape := shape }] := by rfl
    refine ⟨{ shape := [0], elements := .int64 #[] },
      { shape := some [Dim.ofExpr (restLength.larger (.var "length"))] }, by decide +kernel, ?_, ?_⟩
    · rw [rule, aligned]
      rfl
    · exact fun holds => fails (holds.shape_eq _ rfl).1

theorem inferTile_holds (facts : fs.TrueOf σ inputs)
    (range : ∀ t, inputs.get? 0 = some t → ∀ n ∈ t.shape, (n : Int) ≤ Int64.maxValue.toInt)
    (range' : ∀ n ∈ out.shape, (n : Int) ≤ Int64.maxValue.toInt)
    (h : runTile inputs = .ok out) : RuleHolds σ (inferTile fs) out := by
  obtain ⟨t, ht, h⟩ := bind_eq_ok_iff.1 h
  obtain ⟨values, hvalues, h⟩ := bind_eq_ok_iff.1 h
  obtain ⟨repeats, hrepeats, h⟩ := bind_eq_ok_iff.1 h
  obtain ⟨u, hu, hints⟩ := Inputs.requireInts_eq_ok_iff.1 hvalues
  obtain ⟨input, hinput, holds, simplifies⟩ := facts.require ht
  obtain ⟨wanted, hwanted, holds', simplifies'⟩ := facts.exists_facts hu
  have sizes := range t (Inputs.require_eq_ok_iff.1 ht)
  split at h
  · cases h
  · rename_i same_rank
    have length : repeats.length = t.shape.length := Decidable.not_not.1 same_rank
    have takes := takes_of_takeTensor h
    rw [takes.shape_eq] at range'
    unfold inferTile
    simp only [hinput, InputFacts.require_of_get? hwanted, bind, Except.bind]
    cases hshape : input.shape with
    | none => exact takes.ruleHolds holds rfl nofun
    | some dims =>
        have all := holds.shape_eq dims hshape
        cases hcounts : wanted.values with
        | none =>
            refine takes.ruleHolds holds rfl fun ds hds => ?_
            cases hds
            refine Dim.allHold_replicate_unknown ?_
            rw [List.length_map, List.length_zip, Dim.length_of_allHold all]
            omega
        | some counts =>
            rw [holds'.intList_eq hcounts] at hints
            cases hints
            have casts := map_natCast_of_toSizes hrepeats
            have lengths : dims.length = counts.length := by
              have same := congrArg List.length casts
              rw [List.length_map, List.length_map] at same
              rw [Dim.length_of_allHold all, ← same, length]
            simp only [lengths, ne_eq, not_true_eq_false, if_false]
            refine takes.ruleHolds holds rfl fun ds hds => ?_
            cases hds
            exact Dim.allHold_zip_repeatedDim all (simplifies.shape dims hshape)
              (simplifies'.values counts hcounts) casts sizes range'

/-! ## Other shapes for the same elements -/

theorem inferFlatten_holds (facts : fs.TrueOf σ inputs) {axis : Int}
    (range : ∀ t, inputs.get? 0 = some t → ∀ n ∈ t.shape, (n : Int) ≤ Int64.maxValue.toInt)
    (range' : ∀ n ∈ out.shape, (n : Int) ≤ Int64.maxValue.toInt)
    (h : runFlatten axis inputs = .ok out) : RuleHolds σ (inferFlatten axis fs) out := by
  obtain ⟨t, ht, h⟩ := bind_eq_ok_iff.1 h
  obtain ⟨i, hi, h⟩ := bind_eq_ok_iff.1 h
  obtain ⟨input, hinput, holds, simplifies⟩ := facts.require ht
  have takes := takes_of_reshapeTo h
  have sizes := range t (Inputs.require_eq_ok_iff.1 ht)
  rw [takes.shape_eq] at range'
  unfold inferFlatten
  cases hshape : input.shape with
  | some dims =>
      have all := holds.shape_eq dims hshape
      have exact_dims := simplifies.shape dims hshape
      simp only [hinput, hshape, Dim.length_of_allHold all, bind, Except.bind]
      rw [show flattenAxis t.shape.length axis = .ok i from hi]
      refine takes.ruleHolds holds rfl fun ds hds => ?_
      cases hds
      refine ⟨?_, ?_, trivial⟩
      · exact Dim.holds_dimsProduct (Dim.allHold_take all i)
          (fun d hd => exact_dims d (List.mem_of_mem_take hd))
          (fun n hn => sizes n (List.mem_of_mem_take hn)) (range' _ (by simp))
      · exact Dim.holds_dimsProduct (Dim.allHold_drop all i)
          (fun d hd => exact_dims d (List.mem_of_mem_drop hd))
          (fun n hn => sizes n (List.mem_of_mem_drop hn)) (range' _ (by simp))
  | none =>
      simp only [hinput, hshape, bind, Except.bind]
      refine takes.ruleHolds holds rfl fun ds hds => ?_
      cases hds
      exact ⟨trivial, trivial, trivial⟩

theorem inferUnsqueeze_holds (facts : fs.TrueOf σ inputs) {axes : Option (List Int)}
    (h : runUnsqueeze axes inputs = .ok out) : RuleHolds σ (inferUnsqueeze axes fs) out := by
  obtain ⟨t, ht, h⟩ := bind_eq_ok_iff.1 h
  obtain ⟨given, hgiven, h⟩ := bind_eq_ok_iff.1 h
  obtain ⟨found, hfound, h⟩ := bind_eq_ok_iff.1 h
  obtain ⟨shape, hout, h⟩ := bind_eq_ok_iff.1 h
  obtain ⟨input, hinput, holds, -⟩ := facts.require ht
  have takes := takes_of_reshapeTo h
  have given_eq : given = some found := orFault_eq_ok_iff.1 hfound
  unfold inferUnsqueeze
  cases hshape : input.shape with
  | none =>
      simp only [hinput, hshape, bind, Except.bind]
      exact takes.ruleHolds holds rfl nofun
  | some dims =>
      have all := holds.shape_eq dims hshape
      cases hknown : Reduction.knownAxes axes fs with
      | none =>
          simp only [hinput, hshape, bind, Except.bind]
          exact takes.ruleHolds holds rfl nofun
      | some known =>
          obtain rfl : known = some found := by
            exact (Except.ok.inj ((facts.axesInput_eq hknown).symm.trans hgiven)).trans given_eq
          obtain ⟨rs, hrs, inserted⟩ := Dim.allHold_unsqueezeShape all hout
          simp only [hinput, hshape, hrs, OpResult.toFacts_ok, bind, Except.bind, Except.map]
          refine takes.ruleHolds holds rfl fun ds hds => ?_
          cases hds
          exact inserted

theorem inferSqueeze_holds (facts : fs.TrueOf σ inputs) {axes : Option (List Int)}
    (h : runSqueeze axes inputs = .ok out) : RuleHolds σ (inferSqueeze axes fs) out := by
  obtain ⟨t, ht, h⟩ := bind_eq_ok_iff.1 h
  obtain ⟨given, hgiven, h⟩ := bind_eq_ok_iff.1 h
  obtain ⟨input, hinput, holds, -⟩ := facts.require ht
  obtain ⟨shape, takes, whole, some_axes⟩ : ∃ shape, out.Takes t shape ∧
      (given = none → shape = t.shape.filter (· ≠ 1)) ∧
      ∀ vs, given = some vs → ∃ found, resolveAxes t.rank vs = .ok found ∧
        found.any (fun axis => t.shape.getD axis 1 ≠ 1) = false ∧ shape = droppedShape t.shape found := by
    cases given with
    | none => exact ⟨_, takes_of_reshapeTo h, fun _ => rfl, nofun⟩
    | some vs =>
        obtain ⟨found, hfound, h⟩ := bind_eq_ok_iff.1 h
        split at h
        · cases h
        · rename_i ones
          refine ⟨_, takes_of_reshapeTo h, nofun, fun vs' hvs' => ?_⟩
          cases hvs'
          exact ⟨found, hfound, by simpa using ones, rfl⟩
  unfold inferSqueeze
  cases hshape : input.shape with
  | none =>
      simp only [hinput, hshape, bind, Except.bind]
      exact takes.ruleHolds holds rfl nofun
  | some dims =>
      have all := holds.shape_eq dims hshape
      cases hknown : Reduction.knownAxes axes fs with
      | none =>
          simp only [hinput, hshape, bind, Except.bind]
          exact takes.ruleHolds holds rfl nofun
      | some known =>
          obtain rfl : known = given := Except.ok.inj ((facts.axesInput_eq hknown).symm.trans hgiven)
          cases known with
          | none =>
              obtain rfl := whole rfl
              by_cases fixed : dims.all Dim.isFixed = true
              · simp only [hinput, hshape, if_pos fixed, bind, Except.bind]
                refine takes.ruleHolds holds rfl fun ds hds => ?_
                cases hds
                exact Dim.allHold_filter_ne_one all fixed
              · simp only [hinput, hshape, if_neg fixed, bind, Except.bind]
                exact takes.ruleHolds holds rfl nofun
          | some vs =>
              obtain ⟨found, hfound, ones, rfl⟩ := some_axes vs rfl
              have rank : dims.length = t.rank := Dim.length_of_allHold all
              simp only [hinput, hshape, rank, hfound, OpResult.toFacts_ok, Dim.any_isFixedNotOne all ones,
                bind, Except.bind]
              refine takes.ruleHolds holds rfl fun ds hds => ?_
              cases hds
              exact Dim.allHold_droppedShape all found

/-! ## Reduced tensors -/

namespace Reduction

variable {r : Reduction}

theorem run_eq (r : Reduction) (inputs : Inputs) : r.run inputs = (do
    let t ← inputs.require 0
    let axes ← axesInput r.axes inputs
    match ← reduceAxes t.rank axes r.noopWithEmptyAxes with
    | none => return t
    | some axes =>
      let out ← t.elementType.dispatchNumeric fun α _ _ => reduceTensor α t axes r.kind
      if r.keepDims then return out else reshapeOrFault out (droppedShape t.shape axes)) := by
  unfold run axesInput
  cases r.axes <;> rfl

/-- The shape that a reduction gives. -/
def shapeOf {δ : Type} (r : Reduction) (shape : List δ) (one : δ) : Option (List Nat) → List δ
  | none => shape
  | some axes => if r.keepDims then reducedShape shape axes one else droppedShape shape axes

/-- A reduction combines elements to others of the same type, one for each index of the shape. -/
theorem run_eq_ok (h : r.run inputs = .ok out) : ∃ t given reduced, inputs.require 0 = .ok t ∧
    axesInput r.axes inputs = .ok given ∧ reduceAxes t.rank given r.noopWithEmptyAxes = .ok reduced ∧
      out.Takes t (r.shapeOf t.shape 1 reduced) := by
  rw [run_eq] at h
  obtain ⟨t, ht, h⟩ := bind_eq_ok_iff.1 h
  obtain ⟨given, hgiven, h⟩ := bind_eq_ok_iff.1 h
  obtain ⟨reduced, hreduced, h⟩ := bind_eq_ok_iff.1 h
  refine ⟨t, given, reduced, ht, hgiven, hreduced, ?_⟩
  cases reduced with
  | none =>
      cases h
      exact ⟨rfl, rfl⟩
  | some axes =>
      obtain ⟨u, hu, h⟩ := bind_eq_ok_iff.1 h
      have takes : u.Takes t (reducedShape t.shape axes 1) := by
        refine takes_of_dispatchNumeric (fun α _ _ => ?_) hu
        exact Ensures.bind_any fun _ => Ensures.bind_any fun _ => Ensures.pure ⟨_, rfl⟩
      dsimp only [shapeOf]
      split at h
      · rename_i keeps
        cases h
        rwa [if_pos keeps]
      · rename_i drops
        rw [if_neg drops]
        have same := takes_of_reshapeOrFault h
        exact ⟨same.shape_eq, same.type_eq.trans takes.type_eq⟩

theorem allHold_shapeOf {dims : List Dim} {shape : List Nat} (h : Dim.AllHold σ dims shape)
    (r : Reduction) (reduced : Option (List Nat)) :
    Dim.AllHold σ (r.shapeOf dims (.fixed 1) reduced) (r.shapeOf shape 1 reduced) := by
  cases reduced with
  | none => exact h
  | some axes =>
      dsimp only [shapeOf]
      split
      · exact Dim.allHold_reducedShape h axes
      · exact Dim.allHold_droppedShape h axes

theorem infer_holds (facts : fs.TrueOf σ inputs) (h : r.run inputs = .ok out) :
    RuleHolds σ (r.infer fs) out := by
  obtain ⟨t, given, reduced, ht, hgiven, hreduced, takes⟩ := run_eq_ok h
  obtain ⟨input, hinput, holds, -⟩ := facts.require ht
  unfold infer
  cases hshape : input.shape with
  | none =>
      simp only [hinput, hshape, bind, Except.bind]
      exact takes.ruleHolds holds rfl nofun
  | some dims =>
      have all := holds.shape_eq dims hshape
      cases hknown : knownAxes r.axes fs with
      | none =>
          simp only [hinput, hshape, bind, Except.bind]
          exact takes.ruleHolds holds rfl nofun
      | some known =>
          obtain rfl : known = given := Except.ok.inj ((facts.axesInput_eq hknown).symm.trans hgiven)
          have rank : dims.length = t.rank := Dim.length_of_allHold all
          simp only [hinput, hshape, rank, hreduced, OpResult.toFacts_ok, bind, Except.bind]
          have shaped := allHold_shapeOf all r reduced
          cases reduced with
          | none =>
              refine takes.ruleHolds holds rfl fun ds hds => ?_
              cases hshape.symm.trans hds
              exact shaped
          | some axes =>
              refine takes.ruleHolds holds rfl fun ds hds => ?_
              cases hds
              exact shaped

end Reduction
end TensorGraph
