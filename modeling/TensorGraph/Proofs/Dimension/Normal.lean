import Mathlib
import TensorGraph.Dimension.Simplify

/-!
# The normal form of sizes

Input:

* an expression for a size.

Algorithm:

* the operands of an expression are the leaves of the part of the tree at its root that uses one operation
  only (`SizeExpr.chain`), and operands are joined from the left (`SizeExpr.join`);
* the operands of a chain are simplified and flattened once more, constants among them are combined
  in front, the others are sorted by their texts, and repeats are dropped where they do not matter;
* a difference or a quotient is computed if both operands are known or if the second one is neutral.

An expression is in normal form (`SizeExpr.IsNormal`) if each chain in it has its operands in
canonical order (`SizeOp.Arranged`) and no other operation in it can be carried out (`SizeOp.Stuck`).

Main results:

* `SizeExpr.chain_join`: operands are found again after they were joined;
* `SizeExpr.simplify_chain`: a chain is simplified by rebuilding it from its simplified operands;
* `SizeExpr.isNormal_simplify`: a simplified expression is in normal form;
* `SizeExpr.simplify_of_isNormal`: an expression in normal form is simplified already;
* `SizeExpr.simplify_simplify`: so a second simplification changes nothing.
-/

namespace TensorGraph
namespace SizeExpr

variable {op : SizeOp} {a b e t : SizeExpr} {ts : List SizeExpr}

/-- Whether an expression is no chain of an operation. -/
def IsOperand (op : SizeOp) : SizeExpr → Prop
  | bin op' _ _ => op' ≠ op
  | _ => True

/-! ## Operands of an expression -/

@[simp] theorem constant?_const (v : Int) : (const v).constant? = some v := by
  rfl

@[simp] theorem constant?_var (name : String) : (var name).constant? = none := by
  rfl

@[simp] theorem constant?_bin (op : SizeOp) (a b : SizeExpr) : (bin op a b).constant? = none := by
  rfl

@[simp] theorem chain_const (op : SizeOp) (v : Int) : chain op (const v) = [const v] := by
  rfl

@[simp] theorem chain_bin (op : SizeOp) (a b : SizeExpr) :
    chain op (bin op a b) = chain op a ++ chain op b := by
  simp [chain]

@[simp] theorem isOperand_const (op : SizeOp) (v : Int) : IsOperand op (const v) := by
  trivial

theorem chain_of_isOperand (h : IsOperand op e) : chain op e = [e] := by
  cases e with
  | const v => rfl
  | var name => rfl
  | bin op' a b => simp [chain, show op' ≠ op from h]

theorem isOperand_of_mem_chain (h : t ∈ chain op e) : IsOperand op t := by
  induction e with
  | const v =>
      rw [chain, List.mem_singleton] at h
      rw [h]
      trivial
  | var name =>
      rw [chain, List.mem_singleton] at h
      rw [h]
      trivial
  | bin op' a b iha ihb =>
      by_cases same : op' = op
      · subst same
        rw [chain_bin, List.mem_append] at h
        exact h.elim iha ihb
      · rw [chain_of_isOperand (e := bin op' a b) same, List.mem_singleton] at h
        rw [h]
        exact same

theorem chain_ne_nil (op : SizeOp) (e : SizeExpr) : chain op e ≠ [] := by
  induction e with
  | const v => simp
  | var name => simp [chain]
  | bin op' a b iha _ =>
      by_cases same : op' = op
      · simp [chain, same, iha]
      · simp [chain, same]

/-- Operands are not taken apart further. -/
theorem flatMap_chain_of_isOperand (h : ∀ t ∈ ts, IsOperand op t) : ts.flatMap (chain op) = ts := by
  induction ts with
  | nil => rfl
  | cons t rest ih =>
      rw [List.flatMap_cons, chain_of_isOperand (h t List.mem_cons_self),
        ih fun u hu => h u (List.mem_cons_of_mem t hu)]
      rfl

/-! ## Joined operands -/

@[simp] theorem join_singleton (op : SizeOp) (t : SizeExpr) : join op [t] = t := by
  rfl

theorem join_concat (h : ts ≠ []) : join op (ts ++ [t]) = bin op (join op ts) t := by
  cases ts with
  | nil => exact absurd rfl h
  | cons first rest => simp [join]

/-- Operands are found again after they were joined. -/
theorem chain_join (operands : ∀ t ∈ ts, IsOperand op t) (nonempty : ts ≠ []) :
    chain op (join op ts) = ts := by
  induction ts using List.reverseRecOn with
  | nil => exact absurd rfl nonempty
  | append_singleton ts t ih =>
      have last : chain op t = [t] := by
        exact chain_of_isOperand (operands t (by simp))
      by_cases single : ts = []
      · simp [single, last]
      · have initial : chain op (join op ts) = ts := by
          exact ih (fun u hu => operands u (by simp [hu])) single
        rw [join_concat single, chain_bin, initial, last]

/-- Two or more joined operands make an operation. -/
theorem exists_join_eq_bin (op : SizeOp) (two : 2 ≤ ts.length) :
    ∃ a b, join op ts = bin op a b := by
  cases ts using List.reverseRecOn with
  | nil => simp at two
  | append_singleton ts t =>
      have nonempty : ts ≠ [] := by
        rintro rfl
        simp at two
      exact ⟨join op ts, t, join_concat nonempty⟩

/-! ## Constants among operands -/

/-- The constants among operands are combined from the left. -/
theorem constantPart_eq (op : SizeOp) (ts : List SizeExpr) :
    constantPart op ts =
      (ts.filterMap constant?).head?.map ((ts.filterMap constant?).tail.foldl op.fold) := by
  have from_constant : ∀ (rest : List SizeExpr) (c : Int),
      constantPart op (const c :: rest) = some ((rest.filterMap constant?).foldl op.fold c) := by
    intro rest
    induction rest with
    | nil => exact fun _ => rfl
    | cons t rest ih =>
        intro c
        cases t with
        | const v => exact ih (op.fold c v)
        | var name => exact ih c
        | bin op' a b => exact ih c
  induction ts with
  | nil => rfl
  | cons t rest ih =>
      cases t with
      | const v => exact from_constant rest v
      | var name => exact ih
      | bin op' a b => exact ih

/-! ## Simplified operands -/

theorem simplifyChain_eq (op : SizeOp) (e : SizeExpr) :
    simplifyChain op e = (chain op e).map simplify := by
  induction e with
  | const v => simp [simplifyChain, chain, simplify]
  | var name => simp [simplifyChain, chain, simplify]
  | bin op' a b iha ihb =>
      rw [simplifyChain]
      by_cases same : op' = op
      · simp [chain, same, iha, ihb]
      · simp [chain, same]

/-- A chain is simplified by rebuilding it from its simplified operands. -/
theorem simplify_chain (assoc : op.isAssociative = true) (a b : SizeExpr) :
    (bin op a b).simplify = rebuild op ((chain op (bin op a b)).map simplify) := by
  rw [simplify, if_pos assoc, simplifyChain_eq, simplifyChain_eq, chain_bin, List.map_append]

theorem simplify_other (other : op.isAssociative = false) (a b : SizeExpr) :
    (bin op a b).simplify = combine op a.simplify b.simplify := by
  rw [simplify, if_neg (by simp [other])]

end SizeExpr

/-! ## What cannot be simplified -/

/-- Whether the operands of a chain, a constant and the others behind it, are in canonical order.  The
constant changes the value, but does not decide it.  The others are neither constants nor chains of
the operation, stand in the order of their texts, and are not repeated in a maximum or minimum. -/
structure SizeOp.Arranged (op : SizeOp) (constant : Option Int) (others : List SizeExpr) :
    Prop where
  matters : ∀ c, constant = some c → op.identity? ≠ some c ∧ (op = .mul → c ≠ 0)
  unknown : ∀ t ∈ others, t.constant? = none
  operands : ∀ t ∈ others, t.IsOperand op
  sorted : others.Pairwise fun a b => a.text ≤ b.text
  distinct : op = .max ∨ op = .min → others.IsChain (· ≠ ·)

/-- Whether an operation that makes no chains cannot be carried out on its operands. -/
def SizeOp.Stuck : SizeOp → SizeExpr → SizeExpr → Prop
  | .sub, a, b => (∀ x y, a = .const x → b ≠ .const y) ∧ b ≠ .const 0 ∧ a ≠ b
  | .div, a, b => (∀ x y, a = .const x → b = .const y → y = 0) ∧ b ≠ .const 1 ∧ a ≠ b
  | _, a, b => (∀ x y, a = .const x → b = .const y → y ≤ 0) ∧ b ≠ .const 1

namespace SizeExpr

variable {op : SizeOp} {a b e t : SizeExpr} {ts others : List SizeExpr} {constant : Option Int}

/-- Operands with a constant in front. -/
def withConstant (constant : Option Int) (others : List SizeExpr) : List SizeExpr :=
  constant.toList.map const ++ others

/-- Whether an expression is in normal form. -/
inductive IsNormal : SizeExpr → Prop where
  | const (v : Int) : IsNormal (const v)
  | var (name : String) : IsNormal (var name)
  | chain {op : SizeOp} {constant : Option Int} {others : List SizeExpr}
      (assoc : op.isAssociative = true) (arranged : op.Arranged constant others)
      (two : 2 ≤ (withConstant constant others).length) (operands : ∀ t ∈ others, IsNormal t) :
      IsNormal (join op (withConstant constant others))
  | other {op : SizeOp} {a b : SizeExpr} (other : op.isAssociative = false) (left : IsNormal a)
      (right : IsNormal b) (stuck : op.Stuck a b) : IsNormal (bin op a b)

/-! ## Dropping repeats -/

theorem dropRepeats_sublist (ts : List SizeExpr) : (dropRepeats ts).Sublist ts := by
  fun_induction dropRepeats ts with
  | case1 => exact List.Sublist.refl _
  | case2 a => exact List.Sublist.refl _
  | case3 a rest ih => exact ih.trans (List.sublist_cons_self _ _)
  | case4 a b rest differ ih => exact ih.cons_cons a

theorem head?_dropRepeats (ts : List SizeExpr) : (dropRepeats ts).head? = ts.head? := by
  fun_induction dropRepeats ts with
  | case1 => rfl
  | case2 a => rfl
  | case3 a rest ih => exact ih
  | case4 a b rest differ ih => rfl

theorem isChain_dropRepeats (ts : List SizeExpr) : (dropRepeats ts).IsChain (· ≠ ·) := by
  fun_induction dropRepeats ts with
  | case1 => exact .nil
  | case2 a => exact .singleton a
  | case3 a rest ih => exact ih
  | case4 a b rest differ ih =>
      refine ih.cons fun c hc => ?_
      rw [head?_dropRepeats, List.head?_cons, Option.mem_some_iff] at hc
      rwa [← hc]

theorem dropRepeats_of_isChain (h : ts.IsChain (· ≠ ·)) : dropRepeats ts = ts := by
  fun_induction dropRepeats ts with
  | case1 => rfl
  | case2 a => rfl
  | case3 a rest ih => exact absurd rfl (List.isChain_cons_cons.1 h).1
  | case4 a b rest differ ih => rw [ih (List.isChain_cons_cons.1 h).2]

/-! ## Sorting by texts -/

theorem pairwise_sortedByText (ts : List SizeExpr) :
    (ts.mergeSort fun a b => decide (a.text ≤ b.text)).Pairwise fun a b => a.text ≤ b.text := by
  have trans : ∀ a b c : SizeExpr, decide (a.text ≤ b.text) = true →
      decide (b.text ≤ c.text) = true → decide (a.text ≤ c.text) = true := by
    intro a b c hab hbc
    exact decide_eq_true (String.le_trans (of_decide_eq_true hab) (of_decide_eq_true hbc))
  have total : ∀ a b : SizeExpr,
      (decide (a.text ≤ b.text) || decide (b.text ≤ a.text)) = true := by
    intro a b
    simpa using String.le_total a.text b.text
  exact (List.pairwise_mergeSort trans total ts).imp of_decide_eq_true

theorem mem_symbolicPart (h : t ∈ symbolicPart op ts) : t ∈ ts ∧ t.constant? = none := by
  have kept : t ∈ (ts.filter fun e => e.constant?.isNone).mergeSort
      fun a b => decide (a.text ≤ b.text) := by
    unfold symbolicPart at h
    dsimp only at h
    split at h
    · exact (dropRepeats_sublist _).subset h
    · exact h
  simpa using kept

theorem pairwise_symbolicPart (op : SizeOp) (ts : List SizeExpr) :
    (symbolicPart op ts).Pairwise fun a b => a.text ≤ b.text := by
  unfold symbolicPart
  dsimp only
  split
  · exact (pairwise_sortedByText _).sublist (dropRepeats_sublist _)
  · exact pairwise_sortedByText _

theorem isChain_symbolicPart (h : op = .max ∨ op = .min) (ts : List SizeExpr) :
    (symbolicPart op ts).IsChain (· ≠ ·) := by
  unfold symbolicPart
  dsimp only
  rw [if_pos h]
  exact isChain_dropRepeats _

/-! ## An expression in normal form stays -/

theorem isOperand_withConstant (h : op.Arranged constant others) :
    ∀ t ∈ withConstant constant others, IsOperand op t := by
  intro t ht
  rcases List.mem_append.1 ht with ht | ht
  · obtain ⟨v, -, rfl⟩ := List.mem_map.1 ht
    exact isOperand_const op v
  · exact h.operands t ht

theorem constantPart_of_arranged (h : op.Arranged constant others) :
    constantPart op (withConstant constant others) = constant := by
  have none_left : others.filterMap constant? = [] := by
    exact List.filterMap_eq_nil_iff.2 h.unknown
  rw [constantPart_eq, withConstant, List.filterMap_append, none_left]
  cases constant <;> rfl

theorem symbolicPart_of_arranged (h : op.Arranged constant others) :
    symbolicPart op (withConstant constant others) = others := by
  have kept : others.filter (fun e => e.constant?.isNone) = others := by
    exact List.filter_eq_self.2 fun t ht => by rw [h.unknown t ht, Option.isNone_none]
  have front : (withConstant constant others).filter (fun e => e.constant?.isNone) = others := by
    cases constant <;> simp [withConstant, kept]
  have sorted : others.mergeSort (fun a b => decide (a.text ≤ b.text)) = others := by
    exact List.mergeSort_of_pairwise (h.sorted.imp decide_eq_true)
  unfold symbolicPart
  dsimp only
  rw [front, sorted]
  split
  · exact dropRepeats_of_isChain (h.distinct ‹_›)
  · rfl

/-- Rebuilding a chain from operands in canonical order joins them. -/
theorem rebuild_of_arranged (h : op.Arranged constant others) :
    rebuild op (withConstant constant others) = join op (withConstant constant others) := by
  unfold rebuild
  dsimp only
  rw [flatMap_chain_of_isOperand (isOperand_withConstant h), constantPart_of_arranged h,
    symbolicPart_of_arranged h]
  cases constant with
  | none => simp [withConstant]
  | some c =>
      obtain ⟨differs, nonzero⟩ := h.matters c rfl
      rw [if_neg fun zero => nonzero zero.1 (Option.some.inj zero.2)]
      dsimp only
      rw [if_neg fun neutral => differs neutral.1.symm]
      rfl

theorem combine_of_stuck (other : op.isAssociative = false) (h : op.Stuck a b) :
    combine op a b = bin op a b := by
  fun_cases combine op a b <;> grind [SizeOp.Stuck, SizeOp.isAssociative]

/-- An expression in normal form is simplified already. -/
theorem simplify_of_isNormal (h : IsNormal e) : e.simplify = e := by
  induction h with
  | const v => rw [simplify]
  | var name => rw [simplify]
  | @chain op constant others assoc arranged two _ ih =>
      have each : ∀ t ∈ withConstant constant others, simplify t = t := by
        intro t ht
        rcases List.mem_append.1 ht with ht | ht
        · obtain ⟨v, -, rfl⟩ := List.mem_map.1 ht
          rw [simplify]
        · exact ih t ht
      obtain ⟨a, b, eq⟩ := exists_join_eq_bin op two
      have nonempty : withConstant constant others ≠ [] := by
        exact List.ne_nil_of_length_pos (by omega)
      rw [eq, simplify_chain assoc, ← eq, chain_join (isOperand_withConstant arranged) nonempty,
        List.map_congr_left each, List.map_id', rebuild_of_arranged arranged]
  | other other _ _ stuck iha ihb =>
      rw [simplify_other other, iha, ihb, combine_of_stuck other stuck]

/-! ## A simplified expression is in normal form -/

theorem isNormal_join (assoc : op.isAssociative = true) (arranged : op.Arranged constant others)
    (operands : ∀ t ∈ others, IsNormal t) : IsNormal (join op (withConstant constant others)) := by
  by_cases two : 2 ≤ (withConstant constant others).length
  · exact .chain assoc arranged two operands
  · cases constant with
    | none =>
        cases others with
        | nil => exact .const _
        | cons t rest =>
            cases rest with
            | nil => exact operands t List.mem_cons_self
            | cons u rest => simp [withConstant] at two
    | some c =>
        cases others with
        | nil => exact .const c
        | cons t rest => simp [withConstant] at two

/-- The operands of an expression in normal form are in normal form. -/
theorem isNormal_of_mem_chain (assoc : op.isAssociative = true) (h : IsNormal e)
    (ht : t ∈ chain op e) : IsNormal t := by
  by_cases operand : IsOperand op e
  · rw [chain_of_isOperand operand, List.mem_singleton] at ht
    rwa [ht]
  · cases h with
    | const v => exact absurd (isOperand_const op v) operand
    | var name => exact absurd trivial operand
    | @chain op' constant others assoc' arranged two operands =>
        obtain ⟨a, b, eq⟩ := exists_join_eq_bin op' two
        have same : op' = op := by
          rw [eq] at operand
          exact Classical.not_not.1 operand
        subst same
        have nonempty : withConstant constant others ≠ [] := by
          exact List.ne_nil_of_length_pos (by omega)
        rw [chain_join (isOperand_withConstant arranged) nonempty] at ht
        rcases List.mem_append.1 ht with ht | ht
        · obtain ⟨v, -, rfl⟩ := List.mem_map.1 ht
          exact .const v
        · exact operands t ht
    | @other op' a b other' =>
        have same : op' = op := Classical.not_not.1 operand
        rw [same, assoc] at other'
        cases other'

/-- What is rebuilt from operands in normal form is in normal form. -/
theorem isNormal_rebuild (assoc : op.isAssociative = true) (h : ∀ t ∈ ts, IsNormal t) :
    IsNormal (rebuild op ts) := by
  have flat : ∀ t ∈ symbolicPart op (ts.flatMap (chain op)), IsNormal t ∧ IsOperand op t := by
    intro t ht
    obtain ⟨u, hu, htu⟩ := List.mem_flatMap.1 (mem_symbolicPart ht).1
    exact ⟨isNormal_of_mem_chain assoc (h u hu) htu, isOperand_of_mem_chain htu⟩
  -- Whether the constant is kept is decided by its value, all else does not depend on it.
  have arranged : ∀ constant : Option Int,
      (∀ c, constant = some c → op.identity? ≠ some c ∧ (op = .mul → c ≠ 0)) →
        op.Arranged constant (symbolicPart op (ts.flatMap (chain op))) := by
    intro constant matters
    exact {
      matters := matters
      unknown := fun t ht => (mem_symbolicPart ht).2
      operands := fun t ht => (flat t ht).2
      sorted := pairwise_symbolicPart op _
      distinct := fun idempotent => isChain_symbolicPart idempotent _ }
  have without : IsNormal (join op (symbolicPart op (ts.flatMap (chain op)))) := by
    exact isNormal_join assoc (arranged none nofun) fun t ht => (flat t ht).1
  unfold rebuild
  dsimp only
  split
  · exact .const 0
  · rename_i nonzero
    split
    · rename_i c eq
      split
      · exact without
      · rename_i kept
        by_cases alone : symbolicPart op (ts.flatMap (chain op)) = []
        · rw [alone]
          exact .const c
        · have matters : ∀ d, some c = some d → op.identity? ≠ some d ∧ (op = .mul → d ≠ 0) := by
            rintro d ⟨⟩
            exact ⟨fun neutral => kept ⟨neutral.symm, alone⟩,
              fun product zero => nonzero ⟨product, by rw [eq, zero]⟩⟩
          exact isNormal_join assoc (arranged (some c) matters) fun t ht => (flat t ht).1
    · exact without

/-- An operation that makes no chains is carried out, or gives its first operand, or is stuck. -/
theorem combine_cases (other : op.isAssociative = false) (a b : SizeExpr) :
    (∃ v, combine op a b = const v) ∨ combine op a b = a ∨
      (combine op a b = bin op a b ∧ op.Stuck a b) := by
  fun_cases combine op a b with
  | case1 | case3 | case5 | case6 | case9 | case11 => exact Or.inl ⟨_, rfl⟩
  | case2 | case8 | case13 => exact Or.inr (Or.inl rfl)
  | case4 | case7 | case10 => grind [SizeOp.Stuck]
  | case12 | case14 => cases op <;> grind [SizeOp.Stuck, SizeOp.isAssociative]

theorem isNormal_combine (other : op.isAssociative = false) (ha : IsNormal a) (hb : IsNormal b) :
    IsNormal (combine op a b) := by
  rcases combine_cases other a b with ⟨v, eq⟩ | eq | ⟨eq, stuck⟩
  · rw [eq]
    exact .const v
  · rwa [eq]
  · rw [eq]
    exact .other other ha hb stuck

/-- The operands of any chain, and the expression itself, are in normal form once simplified. -/
theorem isNormal_simplify_chain (e : SizeExpr) :
    IsNormal e.simplify ∧ ∀ op, ∀ t ∈ chain op e, IsNormal t.simplify := by
  induction e with
  | const v => simp [chain, simplify, IsNormal.const]
  | var name => simp [chain, simplify, IsNormal.var]
  | bin op a b iha ihb =>
      have normal : IsNormal (bin op a b).simplify := by
        cases assoc : op.isAssociative with
        | true =>
            rw [simplify_chain assoc]
            refine isNormal_rebuild assoc fun u hu => ?_
            obtain ⟨t, ht, rfl⟩ := List.mem_map.1 hu
            rw [chain_bin, List.mem_append] at ht
            exact ht.elim (iha.2 op t) (ihb.2 op t)
        | false =>
            rw [simplify_other assoc]
            exact isNormal_combine assoc iha.1 ihb.1
      refine ⟨normal, fun op' t ht => ?_⟩
      by_cases same : op = op'
      · subst same
        rw [chain_bin, List.mem_append] at ht
        exact ht.elim (iha.2 op t) (ihb.2 op t)
      · rw [chain_of_isOperand (e := bin op a b) same, List.mem_singleton] at ht
        rwa [ht]

/-- A simplified expression is in normal form. -/
theorem isNormal_simplify (e : SizeExpr) : IsNormal e.simplify := by
  exact (isNormal_simplify_chain e).1

/-- Simplification reaches a normal form, which a second simplification leaves as it is. -/
theorem simplify_simplify (e : SizeExpr) :
    IsNormal e.simplify ∧ e.simplify.simplify = e.simplify := by
  exact ⟨isNormal_simplify e, simplify_of_isNormal (isNormal_simplify e)⟩

end SizeExpr
end TensorGraph
