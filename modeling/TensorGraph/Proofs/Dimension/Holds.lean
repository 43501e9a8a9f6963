import TensorGraph.Dimension.Basic
import TensorGraph.Proofs.Dimension.Arithmetic
import TensorGraph.Proofs.Tensor.Counted

/-!
# Dimensions that hold of sizes

Input:

* dimensions that hold of the sizes of a tensor when the names in them have certain values.

Results:

* the dimensions of a shape hold one by one (`Dim.allHold_iff`), and those that are known determine the
  sizes (`Dim.eq_of_allHold`, `Dim.eq_of_sizes?`);
* a dimension that is made of an expression holds of its value (`Dim.holds_ofExpr`), and a dimension that is
  read as an expression has the size as its value (`Dim.eval_of_expr?`).
-/

namespace TensorGraph

/-- Constant expressions have their values. -/
theorem SizeExpr.map_eval_eq {σ : String → Int} {es : List SizeExpr} {vs : List Int}
    (h : es.mapM SizeExpr.constant? = some vs) : es.map (SizeExpr.eval σ) = vs := by
  induction es generalizing vs with
  | nil =>
      cases h
      rfl
  | cons e rest ih =>
      rw [List.mapM_cons] at h
      obtain ⟨v, hv, h⟩ := Option.bind_eq_some_iff.1 h
      obtain ⟨ws, hws, h⟩ := Option.bind_eq_some_iff.1 h
      cases h
      rw [List.map_cons, ih hws]
      cases e with
      | const c =>
          cases hv
          rfl
      | var => cases hv
      | bin => cases hv

namespace Dim

variable {σ : String → Int} {d : Dim} {dims : List Dim} {n : Nat} {shape shape' sizes : List Nat}
  {e : SizeExpr} {es : List SizeExpr}

/-! ## Shapes -/

theorem allHold_iff : AllHold σ dims shape ↔ List.Forall₂ (fun d n => Holds σ n d) dims shape := by
  induction dims generalizing shape with
  | nil => cases shape <;> simp [AllHold]
  | cons d rest ih => cases shape <;> simp [AllHold, ih]

theorem length_of_allHold (h : AllHold σ dims shape) : dims.length = shape.length :=
  (allHold_iff.1 h).length_eq

/-- Dimensions hold when each of them holds of the size at its place. -/
theorem allHold_iff_getElem? : AllHold σ dims shape ↔ dims.length = shape.length ∧
    ∀ (i : Nat) (d : Dim) (n : Nat), dims[i]? = some d → shape[i]? = some n → Holds σ n d := by
  rw [allHold_iff, List.forall₂_iff_get]
  refine and_congr_right fun length => ⟨fun h i d n hd hn => ?_, fun h i hi hi' => ?_⟩
  · obtain ⟨bound, rfl⟩ := List.getElem?_eq_some_iff.1 hd
    obtain ⟨bound', rfl⟩ := List.getElem?_eq_some_iff.1 hn
    exact h i bound bound'
  · exact h i _ _ (List.getElem?_eq_getElem hi) (List.getElem?_eq_getElem hi')

theorem holds_getElem? {i : Nat} (h : AllHold σ dims shape) (hd : dims[i]? = some d)
    (hn : shape[i]? = some n) : Holds σ n d :=
  (allHold_iff_getElem?.1 h).2 i d n hd hn

/-- A dimension at a place holds of the size there, also where there is none. -/
theorem holds_getD (h : AllHold σ dims shape) (i : Nat) (m : Nat) :
    Holds σ (shape.getD i m) (dims.getD i .unknown) := by
  rw [List.getD_eq_getElem?_getD, List.getD_eq_getElem?_getD]
  cases hd : dims[i]? with
  | none => trivial
  | some d =>
      obtain ⟨bound, -⟩ := List.getElem?_eq_some_iff.1 hd
      have bound' : i < shape.length := (length_of_allHold h) ▸ bound
      rw [List.getElem?_eq_getElem bound']
      exact holds_getElem? h hd (List.getElem?_eq_getElem bound')

/-- A dimension may be replaced by one that holds of the size at its place. -/
theorem allHold_set {i : Nat} (h : AllHold σ dims shape) (hd : Holds σ n d) :
    AllHold σ (dims.set i d) (shape.set i n) := by
  rw [allHold_iff] at h ⊢
  induction h generalizing i with
  | nil => exact .nil
  | cons first rest ih =>
      cases i with
      | zero => exact .cons hd rest
      | succ i => exact .cons first ih

theorem allHold_eraseIdx (h : AllHold σ dims shape) (i : Nat) :
    AllHold σ (dims.eraseIdx i) (shape.eraseIdx i) := by
  rw [allHold_iff] at h ⊢
  induction h generalizing i with
  | nil => exact .nil
  | cons first rest ih =>
      cases i with
      | zero => exact rest
      | succ i => exact .cons first (ih i)

/-- A tensor with two dimensions has two sizes. -/
theorem exists_of_allHold_pair {d e : Dim} (h : AllHold σ [d, e] shape) :
    ∃ m n, shape = [m, n] ∧ d.Holds σ m := by
  match shape, h with
  | [m, n], h => exact ⟨m, n, rfl, h.1⟩

theorem allHold_unknown : AllHold σ (List.replicate shape.length .unknown) shape := by
  induction shape with
  | nil => trivial
  | cons n rest ih => exact ⟨trivial, ih⟩

/-- A dimension that is known stands for the same size each time. -/
theorem eq_of_holds {m : Nat} (known : d ≠ .unknown) (h : Holds σ n d) (h' : Holds σ m d) :
    n = m := by
  cases d with
  | fixed k => exact (show k = n from h).symm.trans h'
  | symbolic e => exact Int.ofNat.inj ((show e.eval σ = n from h).symm.trans h')
  | unknown => exact absurd rfl known

/-- Dimensions that are all known stand for the same sizes each time. -/
theorem eq_of_allHold (known : ∀ d ∈ dims, d ≠ .unknown) (h : AllHold σ dims shape)
    (h' : AllHold σ dims shape') : shape = shape' := by
  rw [allHold_iff] at h h'
  induction h generalizing shape' with
  | nil =>
      cases h'
      rfl
  | cons first _ ih =>
      obtain ⟨m, rest, first', others, rfl⟩ := List.forall₂_cons_left_iff.1 h'
      rw [eq_of_holds (known _ List.mem_cons_self) first first',
        ih (fun e he => known e (List.mem_cons_of_mem _ he)) others]

/-- Fixed dimensions are the actual sizes. -/
theorem eq_of_sizes? (h : AllHold σ dims shape) (hs : Dim.sizes? dims = some sizes) :
    shape = sizes := by
  have fixed : List.Forall₂ (fun d n => d.size? = some n) dims sizes := forall₂_of_mapM_eq_some hs
  clear hs
  rw [allHold_iff] at h
  induction fixed generalizing shape with
  | nil =>
      cases h
      rfl
  | @cons d m dims ms hd _ ih =>
      obtain ⟨n, rest, first, others, rfl⟩ := List.forall₂_cons_left_iff.1 h
      rw [ih others]
      cases d with
      | fixed k =>
          cases hd
          rw [show m = n from first]
      | symbolic => cases hd
      | unknown => cases hd

/-! ## Dimensions and expressions -/

/-- Whether the expression for the size, if there is one, is simplified exactly. -/
def Exact (σ : String → Int) (d : Dim) : Prop := ∀ e, d = .symbolic e → e.Exact σ

theorem exact_fixed : (fixed n).Exact σ := nofun

theorem exact_symbolic_iff : (symbolic e).Exact σ ↔ e.Exact σ := by
  simp [Exact]

theorem exact_unknown : unknown.Exact σ := nofun

theorem exact_getD (h : ∀ d ∈ dims, d.Exact σ) (i : Nat) : (dims.getD i .unknown).Exact σ := by
  rw [List.getD_eq_getElem?_getD]
  cases hd : dims[i]? with
  | none => exact exact_unknown
  | some d => exact h d (List.mem_of_getElem? hd)

theorem exact_ofExpr (e : SizeExpr) : (ofExpr e).Exact σ := by
  intro e' he'
  unfold ofExpr at he'
  split at he'
  · split at he' <;> cases he'
  · cases he'
    exact SizeExpr.exact_simplify e

/-- An expression that is not known gives a dimension with the simplified expression. -/
theorem eq_simplify_of_ofExpr {e' : SizeExpr} (h : ofExpr e = symbolic e') :
    e' = e.simplify ∧ e.constant? = none := by
  unfold ofExpr at h
  split at h
  · split at h <;> cases h
  · rename_i unknown
    cases h
    refine ⟨rfl, ?_⟩
    cases e with
    | const v => exact absurd (SizeExpr.simplify_of_isNormal (.const v)) (unknown v)
    | var name => rfl
    | bin op a b => rfl

/-- A dimension that is made of an expression holds of the value of the expression. -/
theorem holds_ofExpr (he : e.Exact σ) (h : e.eval σ = n) : Holds σ n (ofExpr e) := by
  have value : e.simplify.eval σ = n := he.eval_simplified.trans h
  unfold ofExpr
  split
  · rename_i v eq
    rw [eq, SizeExpr.eval] at value
    split
    · rw [value]
      exact Int.toNat_natCast n
    · trivial
  · exact value

/-- Dimensions that are made of the elements of a tensor hold of the elements as sizes. -/
theorem allHold_map_ofExpr {values : List SizeExpr}
    (exact_values : ∀ e ∈ values, e.Exact σ)
    (h : sizes.map (Nat.cast : Nat → Int) = values.map (SizeExpr.eval σ)) :
    AllHold σ (values.map ofExpr) sizes := by
  induction values generalizing sizes with
  | nil =>
      obtain rfl := List.map_eq_nil_iff.1 h
      trivial
  | cons e values ih =>
      obtain ⟨n, sizes, rfl, first, others⟩ := List.map_eq_cons_iff.1 h
      refine ⟨holds_ofExpr (exact_values e List.mem_cons_self) first.symm, ih ?_ others⟩
      exact fun e' he' => exact_values e' (List.mem_cons_of_mem _ he')

/-- An expression that is not negative gives a dimension that is known. -/
theorem ofExpr_ne_unknown (he : e.Exact σ) (h : 0 ≤ e.eval σ) : ofExpr e ≠ unknown := by
  have value : e.simplify.eval σ = e.eval σ := he.eval_simplified
  unfold ofExpr
  split
  · rename_i v eq
    rw [eq, SizeExpr.eval] at value
    rw [if_pos (value ▸ h)]
    simp
  · simp

/-- The expression for a dimension has the size as its value, if the size has 64 bits. -/
theorem eval_of_expr? (hd : d.Exact σ) (h : Holds σ n d) (range : (n : Int) ≤ Int64.maxValue.toInt)
    (he : d.expr? = some e) : e.Exact σ ∧ e.eval σ = n := by
  cases d with
  | fixed m =>
      cases he
      obtain rfl : m = n := h
      have least : Int64.minValue.toInt = -9223372036854775808 := by rfl
      have fits : Fits64 m := ⟨by omega, range⟩
      exact ⟨SizeExpr.exact_const _, wrap64_of_fits64 fits⟩
  | symbolic e' =>
      cases he
      exact ⟨hd _ rfl, h⟩
  | unknown => cases he

/-- The expressions for the dimensions of a shape have the sizes as their values. -/
theorem map_eval_of_expr? (exact_dims : ∀ d ∈ dims, d.Exact σ) (h : AllHold σ dims shape)
    (range : ∀ n ∈ shape, (n : Int) ≤ Int64.maxValue.toInt) (he : dims.mapM expr? = some es) :
    (∀ e ∈ es, e.Exact σ) ∧ es.map (SizeExpr.eval σ) = shape.map Nat.cast := by
  have found : List.Forall₂ (fun d e => d.expr? = some e) dims es := forall₂_of_mapM_eq_some he
  clear he
  rw [allHold_iff] at h
  induction found generalizing shape with
  | nil =>
      cases h
      simp
  | @cons d e dims es hd _ ih =>
      obtain ⟨n, rest, first, others, rfl⟩ := List.forall₂_cons_left_iff.1 h
      obtain ⟨exact_rest, values⟩ := ih (fun d' hd' => exact_dims d' (List.mem_cons_of_mem _ hd')) others
        (fun m hm => range m (List.mem_cons_of_mem _ hm))
      obtain ⟨exact_first, value⟩ :=
        eval_of_expr? (exact_dims d List.mem_cons_self) first (range n List.mem_cons_self) hd
      exact ⟨List.forall_mem_cons.2 ⟨exact_first, exact_rest⟩, by
        rw [List.map_cons, List.map_cons, value, values]⟩

end Dim
end TensorGraph
