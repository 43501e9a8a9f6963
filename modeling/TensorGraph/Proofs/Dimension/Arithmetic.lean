import TensorGraph.Proofs.Dimension.Canonical

/-!
# Arithmetic of sizes

Input:

* expressions for sizes that simplification keeps the value of (`SizeExpr.Exact`): those in normal form,
  as all expressions of the program are, and those with positive divisors that are simplified in the
  range of 64 bits.

A simplified operation on such expressions has the value of the operation.  A maximum or minimum needs no
range.  The constants of a product are held to the range, so a product that leaves it is only known not to
be zero (`Saturates`), which is enough for one that is zero or in range in the end.

Main results:

* `SizeExpr.eval_minus`, `SizeExpr.eval_larger` and `SizeExpr.eval_smaller`;
* `SizeExpr.eval_times` and `SizeExpr.eval_product`: products in range;
* `SizeExpr.eval_sum`: sums whose constants together stay in range.
-/

namespace TensorGraph

/-! ## Products that are held to the range -/

theorem fits64_of_abs_le {v : Int} (h : |v| ≤ Int64.maxValue.toInt) : Fits64 v := by
  have least : Int64.minValue.toInt = -9223372036854775808 := by rfl
  have greatest : Int64.maxValue.toInt = 9223372036854775807 := by rfl
  rw [abs_le] at h
  unfold Fits64
  omega

/-- Whether the first integer is the second one, unless this leaves the range. -/
def Saturates (x v : Int) : Prop := x = v ∨ Int64.maxValue.toInt < |v| ∧ x ≠ 0

namespace Saturates

variable {x y v w : Int}

theorem refl (x : Int) : Saturates x x := Or.inl rfl

theorem eq (h : Saturates x v) (range : |v| ≤ Int64.maxValue.toInt) : x = v := by
  rcases h with same | ⟨large, -⟩
  · exact same
  · omega

theorem mul (h : Saturates x v) (h' : Saturates y w) : Saturates (x * y) (v * w) := by
  -- A factor that is not zero does not make a product smaller.
  have grows : ∀ a b : Int, b ≠ 0 → |a| ≤ |a * b| := by
    intro a b nonzero
    rw [abs_mul]
    exact le_mul_of_one_le_right (abs_nonneg a) (Int.one_le_abs nonzero)
  rcases h with rfl | ⟨large, nonzero⟩
  · rcases h' with rfl | ⟨large', nonzero'⟩
    · exact Or.inl rfl
    · by_cases zero : x = 0
      · exact Or.inl (by simp [zero])
      · exact Or.inr ⟨by rw [mul_comm]; exact large'.trans_le (grows w x zero),
          mul_ne_zero zero nonzero'⟩
  · by_cases zero : w = 0
    · have none : y = 0 := by
        rcases h' with rfl | ⟨large', -⟩
        · exact zero
        · rw [zero, abs_zero] at large'
          exact absurd large' (by decide)
      exact Or.inl (by rw [zero, none, mul_zero, mul_zero])
    · have some : y ≠ 0 := by
        rcases h' with rfl | ⟨-, nonzero'⟩
        · exact zero
        · exact nonzero'
      exact Or.inr ⟨large.trans_le (grows v w zero), mul_ne_zero nonzero some⟩

theorem trans {u : Int} (h : Saturates x v) (h' : Saturates v u) : Saturates x u := by
  rcases h with rfl | ⟨large, nonzero⟩
  · exact h'
  · rcases h' with rfl | ⟨large', -⟩
    · exact Or.inr ⟨large, nonzero⟩
    · exact Or.inr ⟨large', nonzero⟩

theorem clamp64 (h : Saturates x v) : Saturates (TensorGraph.clamp64 x) v := by
  have kept : TensorGraph.clamp64 x = 0 → x = 0 := SizeExpr.clamp64_eq_zero
  rcases h with rfl | ⟨large, nonzero⟩
  · rcases le_or_gt |x| Int64.maxValue.toInt with range | large
    · exact Or.inl (clamp64_of_fits64 (fits64_of_abs_le range))
    · refine Or.inr ⟨large, fun zero => ?_⟩
      rw [kept zero, abs_zero] at large
      exact absurd large (by decide)
  · exact Or.inr ⟨large, fun zero => nonzero (kept zero)⟩

/-- Constants are multiplied one after the other. -/
theorem foldl_fold (h : Saturates x v) (cs : List Int) :
    Saturates (cs.foldl SizeOp.mul.fold x) (cs.foldl SizeOp.mul.apply v) := by
  induction cs generalizing x v with
  | nil => exact h
  | cons c cs ih => exact ih (h.mul (Or.inl rfl)).clamp64

end Saturates

/-- The constants of a maximum or minimum are combined exactly. -/
theorem SizeOp.foldl_fold_of_idempotent {op : SizeOp} (h : op = .max ∨ op = .min) (c : Int)
    (cs : List Int) : cs.foldl op.fold c = cs.foldl op.apply c := by
  rcases h with rfl | rfl <;> rfl

namespace SizeExpr

variable {op : SizeOp} {σ : String → Int} {a b e t : SizeExpr} {es ts us : List SizeExpr}

/-! ## Expressions that are simplified exactly -/

/-- Whether an expression is simplified already, or keeps its value when it is simplified. -/
def Exact (σ : String → Int) (e : SizeExpr) : Prop :=
  IsNormal e ∨ (e.DivisorsPositive σ ∧ e.FoldsInRange)

theorem exact_simplify (e : SizeExpr) : Exact σ e.simplify := Or.inl (isNormal_simplify e)

theorem exact_const (v : Int) : Exact σ (const v) := Or.inl (.const v)

/-- What is combined by simplified operations is simplified. -/
theorem exact_foldl {f : SizeExpr → SizeExpr → SizeExpr} (h : ∀ a b, Exact σ (f a b))
    (ha : Exact σ a) (es : List SizeExpr) : Exact σ (es.foldl f a) := by
  induction es generalizing a with
  | nil => exact ha
  | cons e es ih => exact ih (h a e)

/-- An expression that is simplified in range keeps its value, and so do the operands of any chain. -/
theorem FoldsInRange.eval_simplify_chain (range : e.FoldsInRange) (divisors : e.DivisorsPositive σ) :
    e.simplify.eval σ = e.eval σ ∧ ∀ op, ∀ t ∈ SizeExpr.chain op e, t.simplify.eval σ = t.eval σ := by
  -- An operand of the chain is the expression itself, or one of an operand of the expression.
  have operands : ∀ {op' : SizeOp} {a b : SizeExpr},
      (bin op' a b).simplify.eval σ = (bin op' a b).eval σ →
      (∀ t ∈ SizeExpr.chain op' (bin op' a b), t.simplify.eval σ = t.eval σ) →
      (bin op' a b).simplify.eval σ = (bin op' a b).eval σ ∧
        ∀ op, ∀ t ∈ SizeExpr.chain op (bin op' a b), t.simplify.eval σ = t.eval σ := by
    intro op' a b whole inner
    refine ⟨whole, fun op t ht => ?_⟩
    by_cases same : op' = op
    · exact inner t (same ▸ ht)
    · rw [chain_of_isOperand (e := bin op' a b) same, List.mem_singleton] at ht
      rwa [ht]
  induction range with
  | const v => simp [SizeExpr.chain, simplify]
  | var name => simp [SizeExpr.chain, simplify]
  | @chain op a b assoc members range ih =>
      have values : ∀ t ∈ SizeExpr.chain op (bin op a b), t.simplify.eval σ = t.eval σ := by
        exact fun t ht => (ih t ht (divisors.of_mem_chain ht)).1
      refine operands (Option.some.inj ?_) values
      rw [simplify_chain assoc, eval_rebuild assoc (by simp [chain_ne_nil]) range, total_congr values,
        total_chain assoc]
  | @other op a b other _ _ range iha ihb =>
      obtain ⟨left, right, positive⟩ := divisors
      have values := iha left
      have values' := ihb right
      refine operands ?_ fun t ht => ?_
      · rw [← values'.1] at positive
        rw [simplify_other other, eval_combine other positive range, values.1, values'.1]
        rfl
      · rw [chain_bin, List.mem_append] at ht
        exact ht.elim (values.2 op t) (values'.2 op t)

namespace Exact

theorem eval_simplified (h : Exact σ e) : e.simplify.eval σ = e.eval σ := by
  rcases h with normal | ⟨divisors, range⟩
  · rw [simplify_of_isNormal normal]
  · exact (range.eval_simplify_chain divisors).1

theorem eval_simplify_of_mem_chain (assoc : op.isAssociative = true) (h : Exact σ e)
    (ht : t ∈ chain op e) : t.simplify.eval σ = t.eval σ := by
  rcases h with normal | ⟨divisors, range⟩
  · rw [simplify_of_isNormal (isNormal_of_mem_chain assoc normal ht)]
  · exact (range.eval_simplify_chain divisors).2 op t ht

end Exact

/-! ## Operations that make no chains -/

/-- A simplified difference in range has the value of the difference. -/
theorem eval_minus (ha : Exact σ a) (hb : Exact σ b) (range : Fits64 (a.eval σ - b.eval σ)) :
    (a.minus b).eval σ = a.eval σ - b.eval σ := by
  have constants : ∀ x y, a.simplify = const x → b.simplify = const y → Fits64 (x - y) := by
    intro x y hx hy
    have left : x = a.eval σ := by rw [← ha.eval_simplified, hx, eval]
    have right : y = b.eval σ := by rw [← hb.eval_simplified, hy, eval]
    rwa [left, right]
  unfold minus
  rw [simplify_other rfl, eval_combine rfl (by simp) constants, ha.eval_simplified, hb.eval_simplified]
  rfl

/-! ## Chains -/

/-- The operands of a chain, once they are simplified and taken apart again. -/
def parts (op : SizeOp) (e : SizeExpr) : List SizeExpr :=
  ((chain op e).map simplify).flatMap (chain op)

/-- The constants among the operands of a chain. -/
def constants (op : SizeOp) (e : SizeExpr) : List Int := (parts op e).filterMap constant?

theorem parts_bin (op : SizeOp) (a b : SizeExpr) :
    parts op (bin op a b) = parts op a ++ parts op b := by
  simp only [parts, chain_bin, List.map_append, List.flatMap_append]

theorem constants_bin (op : SizeOp) (a b : SizeExpr) :
    constants op (bin op a b) = constants op a ++ constants op b := by
  rw [constants, parts_bin, List.filterMap_append, constants, constants]

theorem total_parts_of_exact (assoc : op.isAssociative = true) (h : Exact σ e) :
    total op σ (parts op e) = some (e.eval σ) := by
  rw [parts, total_flatMap_chain assoc,
    total_congr fun t ht => h.eval_simplify_of_mem_chain assoc ht, total_chain assoc]

/-- A simplified operation and the operation differ in how the constants are combined only. -/
theorem eval_simplify_bin (assoc : op.isAssociative = true) (ha : Exact σ a) (hb : Exact σ b) :
    ∃ others : Option Int,
      some ((bin op a b).simplify.eval σ) = Option.merge op.apply
        ((constants op (bin op a b)).head?.map ((constants op (bin op a b)).tail.foldl op.fold))
        others ∧
      some (op.apply (a.eval σ) (b.eval σ)) = Option.merge op.apply
        ((constants op (bin op a b)).head?.map ((constants op (bin op a b)).tail.foldl op.apply))
        others := by
  refine ⟨total op σ ((parts op (bin op a b)).filter fun e => e.constant?.isNone), ?_, ?_⟩
  · rw [simplify_chain assoc, eval_rebuild_parts assoc (by simp [chain_ne_nil]), constantPart_eq]
    rfl
  · have exact_constants : total op σ ((constants op (bin op a b)).map const) =
        (constants op (bin op a b)).head?.map
          ((constants op (bin op a b)).tail.foldl op.apply) := by
      cases constants op (bin op a b) with
      | nil => rfl
      | cons c cs => exact total_constants assoc cs c
    rw [← exact_constants, constants, ← total_parts assoc, parts_bin, total_append assoc,
      total_parts_of_exact assoc ha, total_parts_of_exact assoc hb]
    rfl

/-- A simplified operation has the value of the operation if the constants are combined exactly. -/
theorem eval_simplify_bin_of_foldl (assoc : op.isAssociative = true) (ha : Exact σ a)
    (hb : Exact σ b)
    (same : ∀ c cs, constants op (bin op a b) = c :: cs → cs.foldl op.fold c = cs.foldl op.apply c) :
    (bin op a b).simplify.eval σ = op.apply (a.eval σ) (b.eval σ) := by
  obtain ⟨others, simplified, exactly⟩ := eval_simplify_bin assoc ha hb
  apply Option.some.inj
  rw [simplified, exactly]
  cases cs : constants op (bin op a b) with
  | nil => rfl
  | cons c cs =>
      rw [List.head?_cons, List.tail_cons, Option.map_some, Option.map_some, same _ _ cs]

/-- A simplified maximum has the value of the maximum. -/
theorem eval_larger (ha : Exact σ a) (hb : Exact σ b) :
    (a.larger b).eval σ = max (a.eval σ) (b.eval σ) :=
  eval_simplify_bin_of_foldl rfl ha hb fun c cs _ =>
    SizeOp.foldl_fold_of_idempotent (Or.inl rfl) c cs

/-- A simplified minimum has the value of the minimum. -/
theorem eval_smaller (ha : Exact σ a) (hb : Exact σ b) :
    (a.smaller b).eval σ = min (a.eval σ) (b.eval σ) :=
  eval_simplify_bin_of_foldl rfl ha hb fun c cs _ =>
    SizeOp.foldl_fold_of_idempotent (Or.inr rfl) c cs

/-! ## Products -/

/-- A simplified product is the product, unless this leaves the range. -/
theorem saturates_times (ha : Exact σ a) (hb : Exact σ b) :
    Saturates ((a.times b).eval σ) (a.eval σ * b.eval σ) := by
  have assoc : SizeOp.mul.isAssociative = true := rfl
  obtain ⟨others, simplified, exactly⟩ := eval_simplify_bin assoc ha hb
  have held : ∀ (c : Int) (cs : List Int),
      Saturates (cs.foldl SizeOp.mul.fold c) (cs.foldl SizeOp.mul.apply c) := by
    exact fun c cs => Saturates.foldl_fold (Or.inl rfl) cs
  change Saturates ((bin .mul a b).simplify.eval σ) (SizeOp.mul.apply (a.eval σ) (b.eval σ))
  cases hcs : constants .mul (bin .mul a b) with
  | nil =>
      rw [hcs] at simplified exactly
      exact Or.inl (Option.some.inj (simplified.trans exactly.symm))
  | cons c cs =>
      rw [hcs] at simplified exactly
      cases others with
      | none =>
          rw [Option.some.inj simplified, Option.some.inj exactly]
          exact held c cs
      | some v =>
          rw [Option.some.inj simplified, Option.some.inj exactly]
          exact (held c cs).mul (Or.inl rfl)

/-- A simplified product in range has the value of the product. -/
theorem eval_times (ha : Exact σ a) (hb : Exact σ b)
    (range : |a.eval σ * b.eval σ| ≤ Int64.maxValue.toInt) :
    (a.times b).eval σ = a.eval σ * b.eval σ :=
  (saturates_times ha hb).eq range

/-- A product of several expressions in range has the product of their values, whatever the products on
the way are. -/
theorem eval_product (he : ∀ e ∈ es, Exact σ e)
    (range : |(es.map (eval σ)).prod| ≤ Int64.maxValue.toInt) :
    (es.foldl times (const 1)).eval σ = (es.map (eval σ)).prod := by
  have step : ∀ (es : List SizeExpr) (a : SizeExpr) (v : Int), (∀ e ∈ es, Exact σ e) → Exact σ a →
      Saturates (a.eval σ) v → Saturates ((es.foldl times a).eval σ) (v * (es.map (eval σ)).prod) := by
    intro es
    induction es with
    | nil =>
        intro a v _ _ h
        simpa using h
    | cons e es ih =>
        intro a v he ha h
        have product : Saturates ((a.times e).eval σ) (v * e.eval σ) := by
          exact (saturates_times ha (he e List.mem_cons_self)).trans (h.mul (Or.inl rfl))
        rw [List.foldl_cons, List.map_cons, List.prod_cons, ← mul_assoc]
        exact ih _ _ (fun e' h' => he e' (List.mem_cons_of_mem _ h')) (exact_simplify _) product
  have all := step es (const 1) 1 he (exact_const 1) (Or.inl rfl)
  rw [one_mul] at all
  exact all.eq range

/-! ## Sums -/

/-- The constants in a sum, without their signs, together. -/
def constantWeight (e : SizeExpr) : Int := ((constants .add e).map fun c => |c|).sum

theorem constantWeight_nonneg (e : SizeExpr) : 0 ≤ constantWeight e := by
  unfold constantWeight
  exact List.sum_nonneg (by simp)

theorem constantWeight_bin (a b : SizeExpr) :
    constantWeight (bin .add a b) = constantWeight a + constantWeight b := by
  unfold constantWeight
  rw [constants_bin, List.map_append, List.sum_append]

/-- Constants that stay in range together are added exactly. -/
theorem foldl_fold_add {c : Int} {cs : List Int}
    (range : |c| + (cs.map fun c => |c|).sum ≤ Int64.maxValue.toInt) :
    cs.foldl SizeOp.add.fold c = cs.foldl SizeOp.add.apply c ∧
      |cs.foldl SizeOp.add.apply c| ≤ |c| + (cs.map fun c => |c|).sum := by
  induction cs generalizing c with
  | nil => simp
  | cons d ds ih =>
      have nonneg : 0 ≤ (ds.map fun c => |c|).sum := List.sum_nonneg (by simp)
      have triangle : |c + d| ≤ |c| + |d| := abs_add_le c d
      rw [List.map_cons, List.sum_cons] at range ⊢
      have first : SizeOp.add.fold c d = c + d := by
        exact SizeOp.fold_of_fits64 (fits64_of_abs_le (by dsimp only [SizeOp.apply]; omega))
      obtain ⟨same, bound⟩ := ih (c := c + d) (by omega)
      rw [List.foldl_cons, List.foldl_cons, first]
      exact ⟨same, bound.trans (by omega)⟩

/-- A rebuilt sum has one constant at most, to which those of its operands were folded. -/
theorem constants_rebuild_add (ts : List SizeExpr) :
    ((chain .add (rebuild .add ts)).filterMap constant?) = [] ∨
      ∃ c, ((chain .add (rebuild .add ts)).filterMap constant?) = [c] ∧
        (constantPart .add (ts.flatMap (chain .add))).getD 0 = c := by
  have unknown : ∀ t ∈ symbolicPart .add (ts.flatMap (chain .add)),
      t.constant? = none ∧ IsOperand .add t := by
    intro t ht
    obtain ⟨mem, none⟩ := mem_symbolicPart_iff.1 ht
    obtain ⟨u, -, hu⟩ := List.mem_flatMap.1 mem
    exact ⟨none, isOperand_of_mem_chain hu⟩
  have others : (symbolicPart .add (ts.flatMap (chain .add))).filterMap constant? = [] := by
    exact List.filterMap_eq_nil_iff.2 fun t ht => (unknown t ht).1
  unfold rebuild
  dsimp only
  rw [if_neg (by simp)]
  generalize symbolicPart .add (ts.flatMap (chain .add)) = symbols at unknown others ⊢
  split
  · rename_i c eq
    split
    · rename_i neutral
      rw [chain_join (fun t ht => (unknown t ht).2) neutral.2]
      exact Or.inl others
    · have operands : ∀ t ∈ const c :: symbols, IsOperand .add t := by
        exact List.forall_mem_cons.2 ⟨isOperand_const _ c, fun t ht => (unknown t ht).2⟩
      rw [chain_join operands (List.cons_ne_nil _ _), List.filterMap_cons_some (constant?_const c),
        others, eq]
      exact Or.inr ⟨c, rfl, rfl⟩
  · rename_i eq
    by_cases empty : symbols = []
    · rw [empty, eq]
      exact Or.inr ⟨0, by simp [join, SizeOp.identity?], rfl⟩
    · rw [chain_join (fun t ht => (unknown t ht).2) empty]
      exact Or.inl others

/-- In normal form the operands of a chain are simplified and taken apart already. -/
theorem parts_of_isNormal (assoc : op.isAssociative = true) (h : IsNormal e) :
    parts op e = chain op e := by
  have same : (chain op e).map simplify = chain op e := by
    refine (List.map_congr_left fun t ht => ?_).trans (List.map_id _)
    exact simplify_of_isNormal (isNormal_of_mem_chain assoc h ht)
  rw [parts, same, flatMap_chain_of_isOperand fun t ht => isOperand_of_mem_chain ht]

theorem isNormal_plus (a b : SizeExpr) : IsNormal (a.plus b) := isNormal_simplify _

/-- The constant of a simplified sum weighs no more than the constants that it stands for. -/
theorem constantWeight_plus_le (range : constantWeight (bin .add a b) ≤ Int64.maxValue.toInt) :
    constantWeight (a.plus b) ≤ constantWeight (bin .add a b) := by
  have assoc : SizeOp.add.isAssociative = true := rfl
  have folded : |(constantPart .add (parts .add (bin .add a b))).getD 0| ≤
      constantWeight (bin .add a b) := by
    rw [constantPart_eq, ← constants]
    unfold constantWeight at range ⊢
    cases hcs : constants .add (bin .add a b) with
    | nil => simp
    | cons c cs =>
        rw [hcs, List.map_cons, List.sum_cons] at range
        rw [List.map_cons, List.sum_cons]
        obtain ⟨same, bound⟩ := foldl_fold_add range
        rw [List.head?_cons, List.tail_cons, Option.map_some, Option.getD_some, same]
        exact bound
  have weight : constantWeight (a.plus b) =
      (((chain .add (a.plus b)).filterMap constant?).map fun c => |c|).sum := by
    rw [constantWeight, constants, parts_of_isNormal assoc (isNormal_plus a b)]
  rw [weight, plus, simplify_chain rfl]
  rcases constants_rebuild_add ((chain .add (bin .add a b)).map simplify) with none | ⟨c, one, eq⟩
  · rw [none, List.map_nil, List.sum_nil]
    exact constantWeight_nonneg _
  · rw [one, List.map_singleton, List.sum_singleton, ← eq]
    exact folded

/-- A simplified sum has the value of the sum if the constants stay in range together. -/
theorem eval_plus (ha : Exact σ a) (hb : Exact σ b)
    (range : constantWeight a + constantWeight b ≤ Int64.maxValue.toInt) :
    (a.plus b).eval σ = a.eval σ + b.eval σ := by
  have assoc : SizeOp.add.isAssociative = true := rfl
  refine eval_simplify_bin_of_foldl assoc ha hb fun c cs hcs => ?_
  rw [← constantWeight_bin, constantWeight, hcs, List.map_cons, List.sum_cons] at range
  exact (foldl_fold_add range).1

/-- A sum of several expressions has the sum of their values if all constants stay in range together. -/
theorem eval_sum (he : ∀ e ∈ es, Exact σ e)
    (range : (es.map constantWeight).sum ≤ Int64.maxValue.toInt) :
    (es.foldl plus (const 0)).eval σ = (es.map (eval σ)).sum := by
  have step : ∀ (es : List SizeExpr) (a : SizeExpr), (∀ e ∈ es, Exact σ e) → Exact σ a →
      constantWeight a + (es.map constantWeight).sum ≤ Int64.maxValue.toInt →
      (es.foldl plus a).eval σ = a.eval σ + (es.map (eval σ)).sum := by
    intro es
    induction es with
    | nil =>
        intro a _ _ _
        simp
    | cons e es ih =>
        intro a he ha range
        have nonneg : 0 ≤ (es.map constantWeight).sum := by
          exact List.sum_nonneg (by simp [constantWeight_nonneg])
        rw [List.map_cons, List.sum_cons] at range
        have weight : constantWeight (a.plus e) ≤ constantWeight a + constantWeight e := by
          rw [← constantWeight_bin]
          exact constantWeight_plus_le (by rw [constantWeight_bin]; omega)
        rw [List.foldl_cons, List.map_cons, List.sum_cons, ← add_assoc,
          ← eval_plus ha (he e List.mem_cons_self) (by omega)]
        exact ih _ (fun e' h' => he e' (List.mem_cons_of_mem _ h')) (exact_simplify _) (by omega)
  have start : constantWeight (const 0) = 0 := by
    simp [constantWeight, constants, parts, simplify]
  have all := step es (const 0) he (exact_const 0) (by rwa [start, zero_add])
  rwa [eval, zero_add] at all

end SizeExpr
end TensorGraph
