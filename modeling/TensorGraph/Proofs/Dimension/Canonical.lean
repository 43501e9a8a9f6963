import Mathlib
import TensorGraph.Proofs.Dimension.Value

/-!
# The canonical form of chains

Input:

* operands of an associative operation, in some order and some brackets (`SizeExpr.Brackets`);
* a simplification that computes with integers of 64 bits only (`SizeExpr.FoldsInRange`).

Algorithm:

* the operands are flattened, simplified and flattened again, the constants among them are combined,
  and the others are sorted by their texts.

Another order or other brackets permute what is sorted and combined.  If different operands have
different texts (`SizeExpr.TellApart`), only one permutation of them is sorted.

Main result:

* `SizeExpr.simplify_brackets`: the simplified expression depends neither on the order of the operands
  nor on the brackets.
-/

namespace TensorGraph
namespace SizeExpr

variable {op : SizeOp} {a b e t : SizeExpr} {ts us xs ys : List SizeExpr}

/-- Whether an expression has some operands in some order, put in brackets with one operation. -/
inductive Brackets (op : SizeOp) : List SizeExpr → SizeExpr → Prop where
  | operand (e : SizeExpr) : Brackets op [e] e
  | join {xs ys : List SizeExpr} {a b : SizeExpr} (left : Brackets op xs a)
      (right : Brackets op ys b) : Brackets op (xs ++ ys) (bin op a b)

/-- Whether different operands have different texts.  Constants are not compared by their texts, so
nothing is asked of them. -/
def TellApart (ts : List SizeExpr) : Prop :=
  ∀ s ∈ ts, ∀ t ∈ ts, s.constant? = none → t.constant? = none → s.text = t.text → s = t

theorem Brackets.ne_nil (h : Brackets op xs e) : xs ≠ [] := by
  induction h with
  | operand e => simp
  | join _ _ left _ => simp [left]

/-- A single operand is put in no brackets. -/
theorem Brackets.eq_singleton (h : Brackets op xs e) (one : ¬2 ≤ xs.length) : xs = [e] := by
  cases h with
  | operand e => rfl
  | join left right =>
      have := List.length_pos_iff.2 left.ne_nil
      have := List.length_pos_iff.2 right.ne_nil
      rw [List.length_append] at one
      omega

/-- However operands are put in brackets, the chain has their operands in the same order. -/
theorem Brackets.chain_eq (h : Brackets op xs e) : chain op e = xs.flatMap (chain op) := by
  induction h with
  | operand e => simp
  | join _ _ left right => rw [chain_bin, left, right, List.flatMap_append]

/-! ## Constants and other operands in another order -/

theorem mem_dropRepeats : t ∈ dropRepeats ts ↔ t ∈ ts := by
  fun_induction dropRepeats ts with
  | case1 => rfl
  | case2 a => rfl
  | case3 a rest ih => simp [ih]
  | case4 a b rest differ ih => rw [List.mem_cons, List.mem_cons, ih]

theorem mem_symbolicPart_iff : t ∈ symbolicPart op ts ↔ t ∈ ts ∧ t.constant? = none := by
  unfold symbolicPart
  dsimp only
  split <;> simp [mem_dropRepeats]

/-- The constants of a chain have the same combination in any order. -/
theorem constantPart_perm (assoc : op.isAssociative = true) (perm : ts.Perm us)
    (rangeT : ∀ v ∈ op.partialResults (ts.filterMap constant?), Fits64 v)
    (rangeU : ∀ v ∈ op.partialResults (us.filterMap constant?), Fits64 v) :
    constantPart op ts = constantPart op us := by
  have constants : ((ts.filterMap constant?).map const).Perm ((us.filterMap constant?).map const) :=
    (perm.filterMap constant?).map const
  rw [← total_constantPart (σ := fun _ => 0) assoc rangeT, ← total_constantPart assoc rangeU]
  exact total_perm assoc constants

/-- Operands that have different texts are put into the same order, whatever order they had. -/
theorem symbolicPart_perm (perm : ts.Perm us) (apart : TellApart ts) :
    symbolicPart op ts = symbolicPart op us := by
  have others : (ts.filter fun e => e.constant?.isNone).Perm
      (us.filter fun e => e.constant?.isNone) := by
    exact perm.filter _
  have mem_left : ∀ s ∈ (ts.filter fun e => e.constant?.isNone).mergeSort
      fun a b => decide (a.text ≤ b.text), s ∈ ts ∧ s.constant? = none := by
    intro s hs
    simpa using hs
  have mem_right : ∀ s ∈ (us.filter fun e => e.constant?.isNone).mergeSort
      fun a b => decide (a.text ≤ b.text), s ∈ ts ∧ s.constant? = none := by
    intro s hs
    rw [perm.mem_iff]
    simpa using hs
  have sorted : (ts.filter fun e => e.constant?.isNone).mergeSort
        (fun a b => decide (a.text ≤ b.text)) =
      (us.filter fun e => e.constant?.isNone).mergeSort fun a b => decide (a.text ≤ b.text) := by
    refine List.Perm.eq_of_pairwise ?_ (pairwise_sortedByText _) (pairwise_sortedByText _)
      (((List.mergeSort_perm _ _).trans others).trans (List.mergeSort_perm _ _).symm)
    intro s t hs ht hst hts
    obtain ⟨hs, unknownS⟩ := mem_left s hs
    obtain ⟨ht, unknownT⟩ := mem_right t ht
    exact apart s hs t ht unknownS unknownT (String.le_antisymm hst hts)
  unfold symbolicPart
  dsimp only
  rw [sorted]

/-! ## Products with a zero -/

theorem clamp64_eq_zero {v : Int} (h : clamp64 v = 0) : v = 0 := by
  have least : Int64.minValue.toInt = -9223372036854775808 := by rfl
  have greatest : Int64.maxValue.toInt = 9223372036854775807 := by rfl
  unfold clamp64 at h
  omega

theorem foldl_fold_mul_eq_zero (cs : List Int) (c : Int) :
    cs.foldl SizeOp.mul.fold c = 0 ↔ 0 ∈ c :: cs := by
  have step : ∀ x y : Int, SizeOp.mul.fold x y = 0 ↔ x = 0 ∨ y = 0 := by
    intro x y
    constructor
    · exact fun h => mul_eq_zero.1 (clamp64_eq_zero h)
    · rintro (rfl | rfl)
      · simp [SizeOp.fold, SizeOp.apply, clamp64_of_fits64 (show Fits64 0 by decide)]
      · simp [SizeOp.fold, SizeOp.apply, clamp64_of_fits64 (show Fits64 0 by decide)]
  induction cs generalizing c with
  | nil => simp [eq_comm]
  | cons d ds ih =>
      have first : 0 = SizeOp.mul.fold c d ↔ 0 = c ∨ 0 = d := by
        rw [eq_comm, step, eq_comm, eq_comm (a := d)]
      refine (ih (SizeOp.mul.fold c d)).trans ?_
      rw [List.mem_cons, List.mem_cons, List.mem_cons, first, or_assoc]

/-- The constants of a product are zero together exactly when one of them is. -/
theorem constantPart_mul_eq_zero : constantPart .mul ts = some 0 ↔ const 0 ∈ ts := by
  have zero : ∀ t : SizeExpr, t.constant? = some 0 ↔ t = const 0 := by
    intro t
    cases t <;> simp [constant?]
  have constants : 0 ∈ ts.filterMap constant? ↔ const 0 ∈ ts := by
    simp [List.mem_filterMap, zero]
  rw [constantPart_eq, ← constants]
  cases ts.filterMap constant? with
  | nil => simp
  | cons c cs => simpa using foldl_fold_mul_eq_zero cs c

theorem rebuild_of_zero (h : const 0 ∈ ts.flatMap (chain .mul)) : rebuild .mul ts = const 0 := by
  unfold rebuild
  dsimp only
  rw [if_pos ⟨rfl, constantPart_mul_eq_zero.2 h⟩]

/-! ## Operands of a rebuilt chain -/

/-- What is rebuilt from other parts that are the same is the same. -/
theorem rebuild_congr (constants : constantPart op (xs.flatMap (chain op)) =
      constantPart op (ys.flatMap (chain op)))
    (others : symbolicPart op (xs.flatMap (chain op)) = symbolicPart op (ys.flatMap (chain op))) :
    rebuild op xs = rebuild op ys := by
  unfold rebuild
  dsimp only
  rw [constants, others]

/-- All operands that are not constants are found again in a rebuilt chain, unless it is a product
with a zero. -/
theorem mem_chain_rebuild (h : t ∈ ts.flatMap (chain op)) (unknown : t.constant? = none)
    (nonzero : op = .mul → const 0 ∉ ts.flatMap (chain op)) : t ∈ chain op (rebuild op ts) := by
  have kept : t ∈ symbolicPart op (ts.flatMap (chain op)) := mem_symbolicPart_iff.2 ⟨h, unknown⟩
  have operands : ∀ u ∈ symbolicPart op (ts.flatMap (chain op)), IsOperand op u := by
    intro u hu
    obtain ⟨v, -, huv⟩ := List.mem_flatMap.1 (mem_symbolicPart_iff.1 hu).1
    exact isOperand_of_mem_chain huv
  have no_zero : ¬(op = .mul ∧ constantPart op (ts.flatMap (chain op)) = some 0) := by
    rintro ⟨rfl, zero⟩
    exact nonzero rfl (constantPart_mul_eq_zero.1 zero)
  unfold rebuild
  dsimp only
  rw [if_neg no_zero]
  generalize symbolicPart op (ts.flatMap (chain op)) = others at kept operands
  have nonempty : others ≠ [] := List.ne_nil_of_mem kept
  split
  · rename_i c _
    split
    · rwa [chain_join operands nonempty]
    · have operands' : ∀ u ∈ const c :: others, IsOperand op u := by
        simpa using operands
      rw [chain_join operands' (List.cons_ne_nil _ _)]
      exact List.mem_cons_of_mem _ kept
  · rwa [chain_join operands nonempty]

/-- The operands of a simplified chain are those of its simplified operands, as long as they are not
constants and there is no zero in a product. -/
theorem mem_chain_simplify (assoc : op.isAssociative = true)
    (h : t ∈ ((chain op e).map simplify).flatMap (chain op)) (unknown : t.constant? = none)
    (nonzero : op = .mul → const 0 ∉ ((chain op e).map simplify).flatMap (chain op)) :
    t ∈ chain op e.simplify := by
  by_cases operand : IsOperand op e
  · rw [chain_of_isOperand operand] at h
    simpa using h
  · cases e with
    | const v => exact absurd (isOperand_const op v) operand
    | var name => exact absurd trivial operand
    | bin op' a b =>
        obtain rfl : op' = op := Classical.not_not.1 operand
        rw [simplify_chain assoc]
        exact mem_chain_rebuild h unknown nonzero

/-! ## The canonical form -/

/-- Two or more operands in brackets are simplified by rebuilding them. -/
theorem Brackets.simplify_eq (assoc : op.isAssociative = true) (h : Brackets op xs e)
    (two : 2 ≤ xs.length) :
    e.simplify = rebuild op ((xs.flatMap (chain op)).map simplify) := by
  rw [← h.chain_eq]
  cases h with
  | operand e => simp at two
  | join left right => exact simplify_chain assoc _ _

theorem Brackets.fits (assoc : op.isAssociative = true) (h : Brackets op xs e) (two : 2 ≤ xs.length)
    (range : e.FoldsInRange) :
    ∀ v ∈ op.partialResults ((((xs.flatMap (chain op)).map simplify).flatMap
      (chain op)).filterMap constant?), Fits64 v := by
  rw [← h.chain_eq]
  cases h with
  | operand e => simp at two
  | join left right =>
      cases range with
      | chain _ _ range => exact range
      | other other =>
          rw [assoc] at other
          cases other

/-- The order of operands and the brackets do not matter: chains of the same operands have the same
canonical form, when nothing that is computed leaves the range and different operands have different
texts once they are simplified. -/
theorem simplify_brackets (assoc : op.isAssociative = true) (perm : xs.Perm ys)
    (left : Brackets op xs a) (right : Brackets op ys b) (rangeA : a.FoldsInRange)
    (rangeB : b.FoldsInRange) (apart : TellApart ((xs.map simplify).flatMap (chain op))) :
    a.simplify = b.simplify := by
  by_cases two : 2 ≤ xs.length
  · have two' : 2 ≤ ys.length := perm.length_eq ▸ two
    have flat : (((xs.flatMap (chain op)).map simplify).flatMap (chain op)).Perm
        (((ys.flatMap (chain op)).map simplify).flatMap (chain op)) := by
      exact ((perm.flatMap_right _).map _).flatMap_right _
    rw [left.simplify_eq assoc two, right.simplify_eq assoc two']
    by_cases zero : op = .mul ∧ const 0 ∈ ((xs.flatMap (chain op)).map simplify).flatMap (chain op)
    · obtain ⟨rfl, zero⟩ := zero
      rw [rebuild_of_zero zero, rebuild_of_zero (flat.mem_iff.1 zero)]
    · -- without a zero, what is sorted are the operands of the simplified operands
      have found : ∀ t ∈ ((xs.flatMap (chain op)).map simplify).flatMap (chain op),
          t.constant? = none → t ∈ (xs.map simplify).flatMap (chain op) := by
        intro t ht unknown
        rw [List.map_flatMap, List.flatMap_assoc, List.mem_flatMap] at ht
        obtain ⟨x, hx, htx⟩ := ht
        have inner : t ∈ chain op x.simplify := by
          refine mem_chain_simplify assoc htx unknown fun product hzero => zero ⟨product, ?_⟩
          rw [List.map_flatMap, List.flatMap_assoc]
          exact List.mem_flatMap.2 ⟨x, hx, hzero⟩
        exact List.mem_flatMap.2 ⟨x.simplify, List.mem_map.2 ⟨x, hx, rfl⟩, inner⟩
      have apart' : TellApart (((xs.flatMap (chain op)).map simplify).flatMap (chain op)) := by
        intro s hs t ht unknownS unknownT
        exact apart s (found s hs unknownS) t (found t ht unknownT) unknownS unknownT
      exact rebuild_congr
        (constantPart_perm assoc flat (left.fits assoc two rangeA) (right.fits assoc two' rangeB))
        (symbolicPart_perm flat apart')
  · have single : ¬2 ≤ ys.length := perm.length_eq ▸ two
    obtain rfl : xs = [a] := left.eq_singleton two
    obtain rfl : ys = [b] := right.eq_singleton single
    rw [List.singleton_perm_singleton.1 perm]

/-- Operands of a maximum.  Simplified they repeat a name, and two of them are constants. -/
def repeatedOperands : List SizeExpr :=
  [bin .add (var "n") (const 0), bin .max (var "n") (const 4), var "m", bin .add (const 2) (const 3)]

/-- The maximum of the operands in their order. -/
def repeatedMaximum : SizeExpr :=
  bin .max (bin .max (bin .add (var "n") (const 0)) (bin .max (var "n") (const 4)))
    (bin .max (var "m") (bin .add (const 2) (const 3)))

/-- The maximum of the operands in another order and other brackets. -/
def rebracketedMaximum : SizeExpr :=
  bin .max (bin .add (const 2) (const 3))
    (bin .max (bin .max (bin .max (var "n") (const 4)) (var "m")) (bin .add (var "n") (const 0)))

theorem simplify_brackets_repeatedMaximum :
    Brackets .max repeatedOperands repeatedMaximum ∧
      Brackets .max [bin .add (const 2) (const 3), bin .max (var "n") (const 4), var "m",
        bin .add (var "n") (const 0)] rebracketedMaximum ∧
      repeatedMaximum.FoldsInRange ∧ rebracketedMaximum.FoldsInRange ∧
      TellApart ((repeatedOperands.map simplify).flatMap (chain .max)) ∧
      repeatedMaximum.simplify = rebracketedMaximum.simplify ∧
      repeatedMaximum.simplify = bin .max (bin .max (const 5) (var "m")) (var "n") := by
  have left : Brackets .max repeatedOperands repeatedMaximum :=
    .join (.join (.operand _) (.operand _)) (.join (.operand _) (.operand _))
  have right : Brackets .max [bin .add (const 2) (const 3), bin .max (var "n") (const 4), var "m",
      bin .add (var "n") (const 0)] rebracketedMaximum :=
    .join (.operand _) (.join (.join (.operand _) (.operand _)) (.operand _))
  have sum_name : (bin .add (var "n") (const 0)).FoldsInRange := by
    refine .chain rfl (by simp [SizeExpr.chain, FoldsInRange.const, FoldsInRange.var]) ?_
    have constants : (((SizeExpr.chain .add (bin .add (var "n") (const 0))).map simplify).flatMap
        (SizeExpr.chain .add)).filterMap constant? = [0] := by
      cbv
    exact constants ▸ (by decide : ∀ v ∈ SizeOp.add.partialResults [0], Fits64 v)
  have sum_constants : (bin .add (const 2) (const 3)).FoldsInRange := by
    refine .chain rfl (by simp [SizeExpr.chain, FoldsInRange.const]) ?_
    have constants : (((SizeExpr.chain .add (bin .add (const 2) (const 3))).map simplify).flatMap
        (SizeExpr.chain .add)).filterMap constant? = [2, 3] := by
      cbv
    exact constants ▸ (by decide : ∀ v ∈ SizeOp.add.partialResults [2, 3], Fits64 v)
  have rangeLeft : repeatedMaximum.FoldsInRange := by
    refine .chain rfl (by simp [SizeExpr.chain, FoldsInRange.const, FoldsInRange.var, sum_name,
      sum_constants]) ?_
    have constants : (((SizeExpr.chain .max repeatedMaximum).map simplify).flatMap
        (SizeExpr.chain .max)).filterMap constant? = [4, 5] := by
      cbv
    exact constants ▸ (by decide : ∀ v ∈ SizeOp.max.partialResults [4, 5], Fits64 v)
  have rangeRight : rebracketedMaximum.FoldsInRange := by
    refine .chain rfl (by simp [SizeExpr.chain, FoldsInRange.const, FoldsInRange.var, sum_name,
      sum_constants]) ?_
    have constants : (((SizeExpr.chain .max rebracketedMaximum).map simplify).flatMap
        (SizeExpr.chain .max)).filterMap constant? = [5, 4] := by
      cbv
    exact constants ▸ (by decide : ∀ v ∈ SizeOp.max.partialResults [5, 4], Fits64 v)
  have apart : TellApart ((repeatedOperands.map simplify).flatMap (chain .max)) := by
    have terms : (repeatedOperands.map simplify).flatMap (chain .max) =
        [var "n", const 4, var "n", var "m", const 5] := by
      cbv
    rw [terms]
    unfold TellApart
    decide
  exact ⟨left, right, rangeLeft, rangeRight, apart,
    simplify_brackets rfl (by decide) left right rangeLeft rangeRight apart, by cbv⟩

end SizeExpr
end TensorGraph
