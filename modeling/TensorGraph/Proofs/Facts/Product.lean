import TensorGraph.Proofs.Facts.Rearrange
import TensorGraph.Proofs.Operator.BatchedProduct

/-!
# The rule for products of matrices

Input:

* facts about two factors that are true when the names in them have certain values, and the product.

The rule takes the dimensions apart as the operator takes the sizes apart (`exists_leftFactor_of_forall₂`), so
only broadcasting the batch dimensions is left, which needs positive sizes.

Results:

* `inferMatMul_holds`, where batch dimensions that are given by expressions are positive;
* `inferMatMul_fails_of_empty`, where one of them is 0.
-/

namespace TensorGraph

/-! ## Factors -/

section

variable {δ ε : Type} {R : δ → ε → Prop} {one : δ} {one' : ε} {ds : List δ} {ns batch : List ε} {m n : ε}

/-- Dimensions that are related one by one are taken apart alike. -/
theorem exists_leftFactor_of_forall₂ (h : List.Forall₂ R ds ns) (hone : R one one')
    (hfactor : leftFactor one' ns = some (batch, m, n)) :
    ∃ batch' m' n', leftFactor one ds = some (batch', m', n') ∧ List.Forall₂ R batch' batch ∧
      R m' m ∧ R n' n := by
  induction h generalizing batch with
  | nil => cases hfactor
  | @cons d k ds ns first rest ih =>
      cases rest with
      | nil =>
          cases hfactor
          exact ⟨[], one, d, rfl, .nil, hone, first⟩
      | @cons e l ds ns second rest =>
          cases rest with
          | nil =>
              cases hfactor
              exact ⟨[], d, e, rfl, .nil, first, second⟩
          | cons third rest =>
              obtain ⟨⟨batch', m', n'⟩, hrest, same⟩ := Option.map_eq_some_iff.1 hfactor
              cases same
              obtain ⟨batch'', m'', n'', found, related, rows, columns⟩ := ih hrest
              exact ⟨d :: batch'', m'', n'', Option.map_eq_some_iff.2 ⟨_, found, rfl⟩,
                .cons first related, rows, columns⟩

theorem exists_rightFactor_of_forall₂ (h : List.Forall₂ R ds ns) (hone : R one one')
    (hfactor : rightFactor one' ns = some (batch, m, n)) :
    ∃ batch' m' n', rightFactor one ds = some (batch', m', n') ∧ List.Forall₂ R batch' batch ∧
      R m' m ∧ R n' n := by
  by_cases long : 1 < ns.length
  · rw [rightFactor_eq_leftFactor one (h.length_eq ▸ long)]
    rw [rightFactor_eq_leftFactor one' long] at hfactor
    exact exists_leftFactor_of_forall₂ h hone hfactor
  · cases h with
    | nil => cases hfactor
    | @cons d k ds ns first rest =>
        cases rest with
        | nil =>
            cases hfactor
            exact ⟨[], d, one, rfl, .nil, first, hone⟩
        | cons => exact absurd (by simp) long

/-- The shape of a product is made of its entries, whatever they are. -/
theorem forall₂_productShape {as bs batch' : List δ} {as' bs' : List ε} {m' n' : δ}
    (left : as.length = as'.length) (right : bs.length = bs'.length)
    (h : List.Forall₂ R batch' batch) (hm : R m' m) (hn : R n' n) :
    List.Forall₂ R (productShape as bs batch' m' n') (productShape as' bs' batch m n) := by
  unfold productShape
  rw [left, right]
  refine List.rel_append (List.rel_append h ?_) ?_
  · split
    · exact .cons hm .nil
    · exact .nil
  · split
    · exact .cons hn .nil
    · exact .nil

end

/-! ## The rule -/

variable {σ : String → Int} {fs : InputFacts} {inputs : Inputs} {out : Tensor}

/-- Dimensions of the same size do not differ. -/
theorem Dim.conflicts_eq_false {d e : Dim} {n : Nat} (hd : d.Holds σ n) (he : e.Holds σ n) :
    d.conflicts e = false := by
  cases d with
  | fixed p =>
      cases e with
      | fixed q =>
          obtain rfl : p = n := hd
          obtain rfl : q = p := he
          exact bne_self_eq_false q
      | symbolic => rfl
      | unknown => rfl
  | symbolic => rfl
  | unknown => rfl

/-- Whether the batch dimensions among some dimensions are positive where expressions give them. -/
def PositiveBatch (σ : String → Int) (factor : Option (List Dim × Dim × Dim)) : Prop :=
  ∀ batch m n, factor = some (batch, m, n) → ∀ e, .symbolic e ∈ batch → 0 < e.eval σ

/-- Dimensions of factors whose product is defined have a product that holds of its shape. -/
theorem allHold_productDims {as bs : List Dim} {a b aBatch bBatch batch : List Nat} {m k n : Nat}
    (ha : List.Forall₂ (fun d n => d.Holds σ n ∧ d.Exact σ) as a)
    (hb : List.Forall₂ (fun d n => d.Holds σ n ∧ d.Exact σ) bs b)
    (positive : PositiveBatch σ (leftFactor (.fixed 1) as))
    (positive' : PositiveBatch σ (rightFactor (.fixed 1) bs))
    (left : leftFactor 1 a = some (aBatch, m, k)) (right : rightFactor 1 b = some (bBatch, k, n))
    (aligned : broadcastShapes aBatch bBatch = some batch) :
    ∃ ds, productDims as bs = .ok ds ∧ Dim.AllHold σ ds (productShape a b batch m n) := by
  have one : (Dim.fixed 1).Holds σ 1 ∧ (Dim.fixed 1).Exact σ := ⟨rfl, Dim.exact_fixed⟩
  have sized : ∀ {ds : List Dim} {ns : List Nat},
      List.Forall₂ (fun d n => d.Holds σ n ∧ d.Exact σ) ds ns →
      (∀ e, .symbolic e ∈ ds → 0 < e.eval σ) → List.Forall₂ (Dim.Sized σ) ds ns := by
    intro ds ns h pos
    refine Dim.forall₂_sized (Dim.allHold_iff.2 (h.imp fun _ _ h => h.1)) (fun d hd => ?_) pos
    obtain ⟨_, -, -, exact_d⟩ := exists_right_of_forall₂ h hd
    exact exact_d
  obtain ⟨aBatch', m', k', hleft, relatedA, rows, inner⟩ := exists_leftFactor_of_forall₂ ha one left
  obtain ⟨bBatch', k'', n', hright, relatedB, inner', columns⟩ :=
    exists_rightFactor_of_forall₂ hb one right
  obtain ⟨batch', hbatch, all⟩ := allHold_broadcastDims (sized relatedA (positive _ _ _ hleft))
    (sized relatedB (positive' _ _ _ hright)) aligned
  refine ⟨productShape as bs batch' m' n', ?_, ?_⟩
  · unfold productDims
    rw [hleft, hright]
    simp only [Dim.conflicts_eq_false inner.1 inner'.1, hbatch, bind, Except.bind]
    rfl
  · exact Dim.allHold_iff.2 (forall₂_productShape ha.length_eq hb.length_eq (Dim.allHold_iff.1 all)
      rows.1 columns.1)

/-- What facts say about the dimensions of a tensor. -/
theorem Facts.forall₂_shape {f : Facts} {t : Tensor} (holds : f.Holds σ t) (simplifies : f.Exact σ)
    {dims : List Dim} (h : f.shape = some dims) :
    List.Forall₂ (fun d n => d.Holds σ n ∧ d.Exact σ) dims t.shape :=
  forall₂_imp_of_mem (Dim.allHold_iff.1 (holds.shape_eq dims h)) fun d hd _ hold =>
    ⟨hold, simplifies.shape dims h d hd⟩

/-- The rule holds of products where the batch dimensions that expressions give are positive. -/
theorem inferMatMul_holds {a b : Tensor} (ha : inputs.require 0 = .ok a)
    (hb : inputs.require 1 = .ok b) (facts : fs.TrueOf σ inputs)
    (positive : ∀ f dims, fs.get? 0 = some f → f.shape = some dims →
      PositiveBatch σ (leftFactor (.fixed 1) dims))
    (positive' : ∀ f dims, fs.get? 1 = some f → f.shape = some dims →
      PositiveBatch σ (rightFactor (.fixed 1) dims))
    (h : runMatMul inputs = .ok out) : RuleHolds σ (inferMatMul fs) out := by
  obtain ⟨type, type', α, _, _, aBatch, bBatch, batch, m, k, n, xs, ys, zs, product⟩ :=
    runMatMul_elements ha hb h
  obtain ⟨f, hf, holds, simplifies⟩ := facts.exists_facts (Inputs.require_eq_ok_iff.1 ha)
  obtain ⟨f', hf', holds', simplifies'⟩ := facts.exists_facts (Inputs.require_eq_ok_iff.1 hb)
  have types : ∀ τ, f.type.or f'.type = some τ → out.elementType = τ := by
    intro τ hτ
    rw [type]
    cases hfirst : f.type with
    | some known =>
        rw [hfirst] at hτ
        cases hτ
        exact holds.type_eq _ hfirst
    | none =>
        rw [hfirst, Option.none_or] at hτ
        exact type'.symm.trans (holds'.type_eq _ hτ)
  unfold inferMatMul
  simp only [InputFacts.require_of_get? hf, InputFacts.require_of_get? hf', bind, Except.bind]
  cases hdims : f.shape with
  | none => exact ⟨_, rfl, Facts.holds_withoutValues types nofun⟩
  | some dims =>
      cases hdims' : f'.shape with
      | none => exact ⟨_, rfl, Facts.holds_withoutValues types nofun⟩
      | some dims' =>
          obtain ⟨ds, hds, all⟩ := allHold_productDims (Facts.forall₂_shape holds simplifies hdims)
            (Facts.forall₂_shape holds' simplifies' hdims') (positive f dims hf hdims)
            (positive' f' dims' hf' hdims') product.left product.right product.aligned
          simp only [hds, Except.map]
          refine ⟨_, rfl, Facts.holds_withoutValues types fun ds' hds' => ?_⟩
          cases hds'
          rw [product.shape]
          exact all

/-- A stack of as many matrices as there are rows but one, and a stack of as many as its length says. -/
def emptiedFactorFacts : InputFacts :=
  [some { shape := some [.symbolic restLength, .fixed 1, .fixed 1] },
    some { shape := some [.symbolic (.var "length"), .fixed 1, .fixed 1] }]

def emptiedFactors : Inputs :=
  [some { shape := [0, 1, 1], elements := .int64 #[] },
    some { shape := [1, 1, 1], elements := .int64 #[1] }]

/-- A product of no matrices and a single one has no matrices, though the rule gives the larger number. -/
theorem inferMatMul_fails_of_empty : emptiedFactorFacts.TrueOf (fun _ => 1) emptiedFactors ∧
    ∃ out g, runMatMul emptiedFactors = .ok out ∧ inferMatMul emptiedFactorFacts = .ok [g] ∧
      ¬ g.withoutValues.Holds (fun _ => 1) out := by
  have exact_rest : restLength.Exact (fun _ => 1) := SizeExpr.exact_simplify _
  have exact_var : SizeExpr.Exact (fun _ => 1) (.var "length") := Or.inl (.var "length")
  obtain ⟨-, broadcasts, fails⟩ := not_holds_broadcastDim exact_rest exact_var eval_restLength rfl
  refine ⟨⟨.cons (.some ?_) (.cons (.some ?_) .nil), ?_⟩, ?_⟩
  · exact ⟨nofun, fun _ h => by cases h; exact ⟨eval_restLength, rfl, rfl, trivial⟩, nofun⟩
  · exact ⟨nofun, fun _ h => by cases h; exact ⟨rfl, rfl, rfl, trivial⟩, nofun⟩
  · simp [emptiedFactorFacts, Facts.exact_iff, Dim.exact_symbolic_iff, Dim.exact_fixed, exact_rest,
      exact_var]
  · have aligned : broadcastDims [.symbolic restLength] [.symbolic (.var "length")] =
        .ok [Dim.ofExpr (restLength.larger (.var "length"))] := by
      simp [broadcastDims, padDims, broadcastAligned, broadcasts, bind, Except.bind, pure, Except.pure]
    have rule : productDims [.symbolic restLength, .fixed 1, .fixed 1]
          [.symbolic (.var "length"), .fixed 1, .fixed 1] =
        .ok [Dim.ofExpr (restLength.larger (.var "length")), .fixed 1, .fixed 1] := by
      simp [productDims, leftFactor, rightFactor, Dim.conflicts, aligned, productShape, bind, Except.bind,
        pure, Except.pure]
    refine ⟨{ shape := [0, 1, 1], elements := .int64 #[] },
      { shape := some [Dim.ofExpr (restLength.larger (.var "length")), .fixed 1, .fixed 1] },
      by decide +kernel, ?_, ?_⟩
    · change ((productDims [.symbolic restLength, .fixed 1, .fixed 1]
        [.symbolic (.var "length"), .fixed 1, .fixed 1]).map some >>= fun shape =>
          Except.ok [({ shape := shape } : Facts)]) = _
      rw [rule]
      rfl
    · exact fun holds => fails (holds.shape_eq _ rfl).1

end TensorGraph
