import Mathlib
import TensorGraph.Proofs.Dimension.Normal

/-!
# Simplification keeps the values of sizes

Input:

* an expression for a size, and a value for each name under which each divisor is positive
  (`SizeExpr.DivisorsPositive`);
* a simplification of the expression that computes with integers of 64 bits only
  (`SizeExpr.FoldsInRange`).

The operands of a chain have a combined value (`SizeExpr.total`), which depends neither on how they
are grouped nor on their order.  So the parts of which a chain is rebuilt have the combined value of
the operands: the constants, the sorted operands, and what is left of them without repeats.

Main result:

* `SizeExpr.eval_simplify`: the simplified expression has the same value.
-/

namespace TensorGraph

/-! ## The range of 64 bits -/

/-- Whether an integer has 64 bits. -/
def Fits64 (v : Int) : Prop := Int64.minValue.toInt ≤ v ∧ v ≤ Int64.maxValue.toInt

instance (v : Int) : Decidable (Fits64 v) := by
  unfold Fits64
  infer_instance

theorem clamp64_of_fits64 {v : Int} (h : Fits64 v) : clamp64 v = v := by
  unfold clamp64
  rw [min_eq_right h.2, max_eq_right h.1]

theorem wrap64_of_fits64 {v : Int} (h : Fits64 v) : wrap64 v = v := by
  obtain ⟨lower, upper⟩ := h
  have least : Int64.minValue.toInt = -9223372036854775808 := by rfl
  have greatest : Int64.maxValue.toInt = 9223372036854775807 := by rfl
  have size : Int64.size = 18446744073709551616 := by rfl
  unfold wrap64
  rw [size]
  apply Int.bmod_eq_of_le <;> omega

namespace SizeOp

variable {op : SizeOp}

/-- The results of combining some constants from the left, one after the other. -/
def partialResults (op : SizeOp) : List Int → List Int
  | [] => []
  | c :: cs => cs.scanl op.apply c

/-- What is computed from two constants before it is divided. -/
def dividend : SizeOp → Int → Int → Int
  | sub, x, y => x - y
  | divCeil, x, y => x + y - 1
  | _, x, _ => x

theorem fold_of_fits64 {a b : Int} (h : Fits64 (op.apply a b)) : op.fold a b = op.apply a b := by
  cases op with
  | add | mul => exact clamp64_of_fits64 h
  | sub | div | divCeil | max | min => rfl

/-- Constants are combined to their exact value if no result on the way leaves the range. -/
theorem foldl_fold_of_fits64 {c : Int} {cs : List Int}
    (h : ∀ v ∈ op.partialResults (c :: cs), Fits64 v) :
    cs.foldl op.fold c = cs.foldl op.apply c := by
  induction cs generalizing c with
  | nil => rfl
  | cons d ds ih =>
      have rest : ∀ v ∈ op.partialResults (op.apply c d :: ds), Fits64 v := by
        intro v hv
        exact h v (by simp [partialResults] at hv ⊢; exact Or.inr hv)
      have first : Fits64 (op.apply c d) := by
        exact rest _ (by cases ds <;> simp [partialResults])
      rw [List.foldl_cons, List.foldl_cons, fold_of_fits64 first, ih rest]

theorem associative_apply (h : op.isAssociative = true) : Std.Associative op.apply := by
  constructor
  intro a b c
  cases op with
  | add => exact add_assoc a b c
  | mul => exact mul_assoc a b c
  | max => exact max_assoc a b c
  | min => exact min_assoc a b c
  | sub | div | divCeil => cases h

theorem commutative_apply (h : op.isAssociative = true) : Std.Commutative op.apply := by
  constructor
  intro a b
  cases op with
  | add => exact add_comm a b
  | mul => exact mul_comm a b
  | max => exact max_comm a b
  | min => exact min_comm a b
  | sub | div | divCeil => cases h

theorem apply_self (h : op = .max ∨ op = .min) (a : Int) : op.apply a a = a := by
  rcases h with rfl | rfl
  · exact max_self a
  · exact min_self a

theorem apply_identity {c : Int} (h : some c = op.identity?) (a : Int) : op.apply c a = a := by
  cases op <;> simp [identity?, apply] at h ⊢ <;> simp [h]

end SizeOp

namespace SizeExpr

variable {op : SizeOp} {σ : String → Int} {a b e t : SizeExpr} {ts us : List SizeExpr}

/-! ## Combined values -/

/-- The combined value of some operands, if there are any. -/
def total (op : SizeOp) (σ : String → Int) (ts : List SizeExpr) : Option Int :=
  (ts.map fun t => some (t.eval σ)).foldr (Option.merge op.apply) none

@[simp] theorem total_nil : total op σ [] = none := by
  rfl

@[simp] theorem total_cons :
    total op σ (t :: ts) = Option.merge op.apply (some (t.eval σ)) (total op σ ts) := by
  rfl

theorem total_singleton : total op σ [t] = some (t.eval σ) := by
  rfl

theorem total_eq_none : total op σ ts = none ↔ ts = [] := by
  cases ts <;> simp

theorem total_congr {f : SizeExpr → SizeExpr} (h : ∀ t ∈ ts, (f t).eval σ = t.eval σ) :
    total op σ (ts.map f) = total op σ ts := by
  have values : ((ts.map f).map fun t => some (t.eval σ)) = ts.map fun t => some (t.eval σ) := by
    rw [List.map_map]
    exact List.map_congr_left fun t ht => congrArg some (h t ht)
  rw [total, values, total]

section Chains

variable (assoc : op.isAssociative = true)
include assoc

theorem total_append : total op σ (ts ++ us) =
    Option.merge op.apply (total op σ ts) (total op σ us) := by
  have := SizeOp.associative_apply assoc
  have merged := Option.associative_merge op.apply
  induction ts with
  | nil => simp
  | cons t rest ih => rw [List.cons_append, total_cons, total_cons, ih, merged.assoc]

/-- The order of operands does not matter. -/
theorem total_perm (h : ts.Perm us) : total op σ ts = total op σ us := by
  have := SizeOp.associative_apply assoc
  have := SizeOp.commutative_apply assoc
  have := Option.associative_merge op.apply
  have := Option.commutative_merge op.apply
  exact (h.map _).foldr_op_eq

/-- An expression has the combined value of its operands. -/
theorem total_chain (e : SizeExpr) : total op σ (chain op e) = some (e.eval σ) := by
  induction e with
  | const v => rfl
  | var name => rfl
  | bin op' a b iha ihb =>
      by_cases same : op' = op
      · subst same
        rw [chain_bin, total_append assoc, iha, ihb]
        rfl
      · rw [chain_of_isOperand (e := bin op' a b) same, total_singleton]

theorem total_flatMap_chain (ts : List SizeExpr) :
    total op σ (ts.flatMap (chain op)) = total op σ ts := by
  induction ts with
  | nil => rfl
  | cons t rest ih => rw [List.flatMap_cons, total_append assoc, total_chain assoc, ih, total_cons]

theorem total_join (nonempty : ts ≠ []) : total op σ ts = some ((join op ts).eval σ) := by
  induction ts using List.reverseRecOn with
  | nil => exact absurd rfl nonempty
  | append_singleton ts t ih =>
      by_cases single : ts = []
      · simp [single, join]
      · rw [total_append assoc, ih single, join_concat single]
        rfl

/-- Combining constants from the left gives their combined value. -/
theorem total_constants (cs : List Int) (c : Int) :
    total op σ ((c :: cs).map const) = some (cs.foldl op.apply c) := by
  have associative := SizeOp.associative_apply assoc
  induction cs generalizing c with
  | nil => rfl
  | cons d ds ih =>
      have step := ih (op.apply c d)
      rw [List.map_cons, List.map_cons, total_cons, total_cons]
      rw [List.map_cons, total_cons] at step
      rw [List.foldl_cons, ← step]
      cases total op σ (ds.map const) with
      | none => rfl
      | some v => simp [eval, associative.assoc]

/-- Operands have the combined value of the constants among them and the others. -/
theorem total_parts (ts : List SizeExpr) : total op σ ts =
    Option.merge op.apply (total op σ ((ts.filterMap constant?).map const))
      (total op σ (ts.filter fun e => e.constant?.isNone)) := by
  rw [← total_append assoc]
  apply total_perm assoc
  induction ts with
  | nil => rfl
  | cons t rest ih =>
      cases t with
      | const v => simpa using ih
      | var name =>
          simp only [constant?_var, List.filterMap_cons_none, List.filter_cons, Option.isNone_none,
            if_true]
          exact (ih.cons _).trans List.perm_middle.symm
      | bin op' a b =>
          simp only [constant?_bin, List.filterMap_cons_none, List.filter_cons, Option.isNone_none,
            if_true]
          exact (ih.cons _).trans List.perm_middle.symm

/-- Repeats do not matter in a maximum or minimum. -/
theorem total_dropRepeats (h : op = .max ∨ op = .min) (ts : List SizeExpr) :
    total op σ (dropRepeats ts) = total op σ ts := by
  have := SizeOp.associative_apply assoc
  have merged := Option.associative_merge op.apply
  fun_induction dropRepeats ts with
  | case1 => rfl
  | case2 a => rfl
  | case3 a rest ih =>
      rw [ih, total_cons, total_cons, total_cons, ← merged.assoc, Option.merge_some_some,
        SizeOp.apply_self h]
  | case4 a b rest differ ih => rw [total_cons, ih, ← total_cons]

theorem total_symbolicPart (ts : List SizeExpr) : total op σ (symbolicPart op ts) =
    total op σ (ts.filter fun e => e.constant?.isNone) := by
  have sorted : total op σ ((ts.filter fun e => e.constant?.isNone).mergeSort
      fun a b => decide (a.text ≤ b.text)) = total op σ (ts.filter fun e => e.constant?.isNone) := by
    exact total_perm assoc (List.mergeSort_perm _ _)
  unfold symbolicPart
  dsimp only
  split
  · rw [total_dropRepeats assoc ‹_›, sorted]
  · exact sorted

theorem total_constantPart
    (range : ∀ v ∈ op.partialResults (ts.filterMap constant?), Fits64 v) :
    total op σ ((ts.filterMap constant?).map const) = constantPart op ts := by
  rw [constantPart_eq]
  cases constants : ts.filterMap constant? with
  | nil => rfl
  | cons c cs =>
      rw [constants] at range
      rw [total_constants assoc]
      exact congrArg some (SizeOp.foldl_fold_of_fits64 range).symm

/-- A rebuilt chain has the combined value of what its constants are folded to and of the others. -/
theorem eval_rebuild_parts (nonempty : ts ≠ []) : some ((rebuild op ts).eval σ) =
    Option.merge op.apply (constantPart op (ts.flatMap (chain op)))
      (total op σ ((ts.flatMap (chain op)).filter fun e => e.constant?.isNone)) := by
  have some_part : constantPart op (ts.flatMap (chain op)) = none →
      symbolicPart op (ts.flatMap (chain op)) ≠ [] := by
    intro none_constant none_other
    have empty : total op σ (ts.flatMap (chain op)) = none := by
      have no_constants : (ts.flatMap (chain op)).filterMap constant? = [] := by
        rw [constantPart_eq, Option.map_eq_none_iff, List.head?_eq_none_iff] at none_constant
        exact none_constant
      rw [total_parts assoc, no_constants, ← total_symbolicPart assoc, none_other]
      rfl
    rw [total_flatMap_chain assoc, total_eq_none] at empty
    exact nonempty empty
  rw [← total_symbolicPart assoc]
  unfold rebuild
  dsimp only
  generalize constantPart op (ts.flatMap (chain op)) = constant at some_part ⊢
  generalize symbolicPart op (ts.flatMap (chain op)) = others at some_part ⊢
  split
  · -- A product with a constant that is zero is zero, whatever the other operands are.
    rename_i zero
    obtain ⟨rfl, rfl⟩ := zero
    cases total .mul σ others <;> simp [eval, SizeOp.apply]
  · split
    · rename_i c _
      split
      · rename_i neutral
        rw [total_join assoc neutral.2, Option.merge_some_some, SizeOp.apply_identity neutral.1]
      · rw [← total_join assoc (List.cons_ne_nil _ _), total_cons]
        rfl
    · rw [Option.merge_none_left, total_join assoc (some_part rfl)]

/-- A rebuilt chain has the combined value of its operands. -/
theorem eval_rebuild (nonempty : ts ≠ [])
    (range : ∀ v ∈ op.partialResults ((ts.flatMap (chain op)).filterMap constant?), Fits64 v) :
    some ((rebuild op ts).eval σ) = total op σ ts := by
  have parts : total op σ (ts.flatMap (chain op)) = _ := total_parts assoc _
  rw [total_flatMap_chain assoc, total_constantPart assoc range] at parts
  rw [parts, eval_rebuild_parts assoc nonempty]

end Chains

/-! ## Simplified expressions -/

/-- Whether each divisor in an expression is positive. -/
def DivisorsPositive (σ : String → Int) : SizeExpr → Prop
  | const _ => True
  | var _ => True
  | bin op a b =>
    DivisorsPositive σ a ∧ DivisorsPositive σ b ∧ (op = .div ∨ op = .divCeil → 0 < b.eval σ)

/-- Whether all that is computed when an expression is simplified has 64 bits. -/
inductive FoldsInRange : SizeExpr → Prop where
  | const (v : Int) : FoldsInRange (const v)
  | var (name : String) : FoldsInRange (var name)
  | chain {op : SizeOp} {a b : SizeExpr} (assoc : op.isAssociative = true)
      (operands : ∀ t ∈ chain op (bin op a b), FoldsInRange t)
      (range : ∀ v ∈ op.partialResults ((((chain op (bin op a b)).map simplify).flatMap
        (chain op)).filterMap constant?), Fits64 v) : FoldsInRange (bin op a b)
  | other {op : SizeOp} {a b : SizeExpr} (other : op.isAssociative = false)
      (left : FoldsInRange a) (right : FoldsInRange b)
      (range : ∀ x y, a.simplify = .const x → b.simplify = .const y → Fits64 (op.dividend x y)) :
      FoldsInRange (bin op a b)

theorem DivisorsPositive.of_mem_chain (h : e.DivisorsPositive σ) (ht : t ∈ chain op e) :
    t.DivisorsPositive σ := by
  induction e with
  | const v =>
      rw [SizeExpr.chain, List.mem_singleton] at ht
      rwa [ht]
  | var name =>
      rw [SizeExpr.chain, List.mem_singleton] at ht
      rwa [ht]
  | bin op' a b iha ihb =>
      by_cases same : op' = op
      · subst same
        rw [chain_bin, List.mem_append] at ht
        exact ht.elim (iha h.1) (ihb h.2.1)
      · rw [chain_of_isOperand (e := bin op' a b) same, List.mem_singleton] at ht
        rwa [ht]

/-- Carrying out an operation that makes no chains gives its value. -/
theorem eval_combine (other : op.isAssociative = false)
    (positive : op = .div ∨ op = .divCeil → 0 < b.eval σ)
    (range : ∀ x y, a = const x → b = const y → Fits64 (op.dividend x y)) :
    (combine op a b).eval σ = op.apply (a.eval σ) (b.eval σ) := by
  fun_cases combine op a b with
  | case1 x y => exact wrap64_of_fits64 (range x y rfl rfl)
  | case2 a => simp [eval, SizeOp.apply]
  | case3 a => simp [eval, SizeOp.apply]
  | case4 | case7 | case10 | case12 | case14 => rfl
  | case5 x y => rfl
  | case6 y zero => simp_all [eval]
  | case8 a => simp [eval, SizeOp.apply]
  | case9 a =>
      have nonzero : a.eval σ ≠ 0 := by
        exact (positive (Or.inl rfl)).ne'
      exact (Int.ediv_self nonzero).symm
  | case11 op _ _ x y =>
      cases op with
      | divCeil =>
          have fits : Fits64 (x + y - 1) := range x y rfl rfl
          simp [eval, SizeOp.apply, wrap64_of_fits64 fits]
      | sub | div | add | mul | max | min => simp_all [SizeOp.isAssociative]
  | case13 op a =>
      cases op with
      | divCeil => simp [eval, SizeOp.apply]
      | sub | div | add | mul | max | min => simp_all [SizeOp.isAssociative]

/-- The simplified expression has the same value, for all values of the names under which divisors are
positive. -/
theorem eval_simplify (σ : String → Int) (e : SizeExpr) (divisors : e.DivisorsPositive σ)
    (range : e.FoldsInRange) : e.simplify.eval σ = e.eval σ := by
  induction range with
  | const v => rw [simplify]
  | var name => rw [simplify]
  | @chain op a b assoc operands range ih =>
      have values : ∀ t ∈ SizeExpr.chain op (bin op a b), t.simplify.eval σ = t.eval σ := by
        exact fun t ht => ih t ht (divisors.of_mem_chain ht)
      have nonempty : (SizeExpr.chain op (bin op a b)).map simplify ≠ [] := by
        simp [chain_ne_nil]
      apply Option.some.inj
      rw [simplify_chain assoc, eval_rebuild assoc nonempty range, total_congr values,
        total_chain assoc]
  | @other op a b other _ _ range iha ihb =>
      obtain ⟨left, right, positive⟩ := divisors
      rw [← ihb right] at positive
      rw [simplify_other other, eval_combine other positive range, iha left, ihb right]
      rfl

/-- A sum with a quotient that is rounded up and a product of constants. -/
def roundedSum : SizeExpr :=
  bin .add (const 5) (bin .add (bin .divCeil (bin .sub (var "n") (const 10)) (const 4))
    (bin .mul (bin .sub (const 3) (const 4)) (const 2)))

/-- For a name with the value 1 a negative number is rounded up, before and after simplification. -/
theorem eval_simplify_roundedSum :
    roundedSum.DivisorsPositive (fun _ => 1) ∧ roundedSum.FoldsInRange ∧
      roundedSum.simplify =
        bin .add (const 3) (bin .divCeil (bin .sub (var "n") (const 10)) (const 4)) ∧
      roundedSum.simplify.eval (fun _ => 1) = 1 := by
  have divisors : roundedSum.DivisorsPositive fun _ => 1 := by
    simp [roundedSum, DivisorsPositive, eval]
  have product : (bin .mul (bin .sub (const 3) (const 4)) (const 2)).FoldsInRange := by
    have difference : (bin .sub (const 3) (const 4)).FoldsInRange := by
      refine .other rfl (.const 3) (.const 4) fun x y hx hy => ?_
      simp only [simplify, const.injEq] at hx hy
      rw [← hx, ← hy]
      decide
    refine .chain rfl (by simp [SizeExpr.chain, difference, FoldsInRange.const]) ?_
    have constants : ((((SizeExpr.chain .mul (bin .mul (bin .sub (const 3) (const 4)) (const 2))).map
        simplify).flatMap (SizeExpr.chain .mul)).filterMap constant?) = [-1, 2] := by
      cbv
    rw [constants]
    decide
  have quotient : (bin .divCeil (bin .sub (var "n") (const 10)) (const 4)).FoldsInRange := by
    refine .other rfl (.other rfl (.var "n") (.const 10) ?_) (.const 4) ?_
    · simp [simplify]
    · have stays : (bin .sub (var "n") (const 10)).simplify = bin .sub (var "n") (const 10) := by
        cbv
      simp [stays]
  have range : roundedSum.FoldsInRange := by
    refine .chain rfl (by simp [SizeExpr.chain, product, quotient, FoldsInRange.const]) ?_
    have constants : ((((SizeExpr.chain .add roundedSum).map simplify).flatMap
        (SizeExpr.chain .add)).filterMap constant?) = [5, -2] := by
      cbv
    exact constants ▸ (by decide : ∀ v ∈ SizeOp.add.partialResults [5, -2], Fits64 v)
  refine ⟨divisors, range, by cbv, ?_⟩
  rw [eval_simplify _ roundedSum divisors range]
  rfl

end SizeExpr
end TensorGraph
