import TensorGraph.Operator.Joining
import TensorGraph.Operator.Selection
import TensorGraph.Proofs.Dimension.Holds
import TensorGraph.Proofs.Operator.Axes

/-!
# Dimensions of changed shapes

Input:

* dimensions that hold of the sizes of a shape when the names in them have certain values.

Operators and rules change shapes by the same functions, which copy, leave out and insert entries of a list
whatever they are.  So they keep that dimensions hold, entry by entry.

Results:

* dimensions hold after they are listed in another order, removed, replaced by 1 or inserted
  (`Dim.allHold_map_getD`, `Dim.allHold_droppedShape`, `Dim.allHold_reducedShape`,
  `Dim.allHold_unsqueezeShape`, `Dim.allHold_gatherShape`);
* the product and the sum of dimensions hold of the product and the sum of the sizes
  (`Dim.holds_dimsProduct`, `Dim.holds_dimsSum`).
-/

namespace TensorGraph
namespace Dim

variable {σ : String → Int} {dims indexDims : List Dim} {shape indexShape : List Nat} {n : Nat}

/-! ## Entries that are copied -/

theorem allHold_replicate_unknown {rank : Nat} (h : shape.length = rank) :
    AllHold σ (List.replicate rank .unknown) shape := by
  subst h
  exact allHold_unknown

theorem allHold_map_getD (h : AllHold σ dims shape) (places : List Nat) (m : Nat) :
    AllHold σ (places.map fun p => dims.getD p .unknown) (places.map fun p => shape.getD p m) := by
  induction places with
  | nil => trivial
  | cons p rest ih => exact ⟨holds_getD h p m, ih⟩

theorem allHold_take (h : AllHold σ dims shape) (i : Nat) : AllHold σ (dims.take i) (shape.take i) := by
  rw [allHold_iff] at h ⊢
  exact List.forall₂_take i h

theorem allHold_drop (h : AllHold σ dims shape) (i : Nat) : AllHold σ (dims.drop i) (shape.drop i) := by
  rw [allHold_iff] at h ⊢
  exact List.forall₂_drop i h

/-- Dimensions hold after the one at an axis is replaced by those of a tensor of indexes. -/
theorem allHold_gatherShape (h : AllHold σ dims shape) (h' : AllHold σ indexDims indexShape)
    (axis : Nat) : AllHold σ (gatherShape dims axis indexDims) (gatherShape shape axis indexShape) := by
  have before := allHold_iff.1 (allHold_take h axis)
  have after := allHold_iff.1 (allHold_drop h (axis + 1))
  rw [allHold_iff] at h' ⊢
  exact List.rel_append (List.rel_append before h') after

/-! ## Entries that are left out or replaced -/

theorem allHold_keptFrom (h : AllHold σ dims shape) (axes : List Nat) (i : Nat) :
    AllHold σ (keptFrom axes i dims) (keptFrom axes i shape) := by
  rw [allHold_iff] at h
  induction h generalizing i with
  | nil => trivial
  | cons first _ ih =>
      rw [keptFrom_cons, keptFrom_cons]
      by_cases removed : axes.contains i = true
      · rw [if_pos removed, if_pos removed]
        exact ih (i + 1)
      · rw [if_neg removed, if_neg removed]
        exact ⟨first, ih (i + 1)⟩

/-- Dimensions hold after those at some axes are removed. -/
theorem allHold_droppedShape (h : AllHold σ dims shape) (axes : List Nat) :
    AllHold σ (droppedShape dims axes) (droppedShape shape axes) :=
  allHold_keptFrom h axes 0

/-- Dimensions hold after those at some axes are replaced by 1. -/
theorem allHold_reducedShape (h : AllHold σ dims shape) (axes : List Nat) :
    AllHold σ (reducedShape dims axes (.fixed 1)) (reducedShape shape axes 1) := by
  rw [allHold_iff_getElem?] at h ⊢
  constructor
  · simpa [reducedShape] using h.1
  · intro i d n hd hn
    unfold reducedShape at hd hn
    simp only [List.getElem?_map, List.getElem?_zipIdx, Nat.zero_add, Option.map_map,
      Option.map_eq_some_iff, Function.comp_apply] at hd hn
    obtain ⟨d', hd', rfl⟩ := hd
    obtain ⟨n', hn', rfl⟩ := hn
    by_cases replaced : axes.contains i = true
    · rw [if_pos replaced, if_pos replaced]
      rfl
    · rw [if_neg replaced, if_neg replaced]
      exact h.2 i d' n' hd' hn'

/-- An axis that can be removed has no dimension of a fixed size other than 1. -/
theorem any_isFixedNotOne {found : List Nat} (h : AllHold σ dims shape)
    (ones : found.any (fun axis => shape.getD axis 1 ≠ 1) = false) :
    found.any (fun axis => isFixedNotOne (dims.getD axis .unknown)) = false := by
  rw [List.any_eq_false] at ones ⊢
  intro axis haxis
  have size : shape.getD axis 1 = 1 := by simpa using ones axis haxis
  have dim := holds_getD h axis 1
  rw [size] at dim
  cases hd : dims.getD axis .unknown with
  | fixed n =>
      rw [hd] at dim
      obtain rfl : n = 1 := dim
      simp [isFixedNotOne]
  | symbolic e => simp [isFixedNotOne]
  | unknown => simp [isFixedNotOne]

/-- Among fixed dimensions those of size 1 are the sizes that are 1. -/
theorem allHold_filter_ne_one (h : AllHold σ dims shape) (known : dims.all isFixed = true) :
    AllHold σ (dims.filter (· ≠ .fixed 1)) (shape.filter (· ≠ 1)) := by
  rw [allHold_iff] at h
  induction h with
  | nil => trivial
  | @cons d n dims shape first _ ih =>
      rw [List.all_cons, Bool.and_eq_true] at known
      cases d with
      | fixed m =>
          obtain rfl : m = n := first
          by_cases one : m = 1
          · simpa [one] using ih known.2
          · simpa [one, AllHold, Holds] using ih known.2
      | symbolic e => cases known.1
      | unknown => cases known.1

/-! ## Entries that are inserted -/

theorem allHold_insertDims (h : AllHold σ dims shape) (axes : List Nat) (count i : Nat) :
    AllHold σ (insertDims axes (.fixed 1) count i dims) (insertDims axes 1 count i shape) := by
  have one : Holds σ 1 (.fixed 1) := rfl
  induction count generalizing i dims shape with
  | zero => trivial
  | succ count ih =>
      unfold insertDims
      by_cases inserted : axes.contains i = true
      · rw [if_pos inserted, if_pos inserted]
        exact ⟨one, ih h (i + 1)⟩
      · rw [if_neg inserted, if_neg inserted]
        cases dims with
        | nil =>
            cases shape with
            | nil => exact ⟨one, ih h (i + 1)⟩
            | cons n shape => exact h.elim
        | cons d dims =>
            cases shape with
            | nil => exact h.elim
            | cons n shape => exact ⟨h.1, ih h.2 (i + 1)⟩

/-- Dimensions of size 1 can be inserted among dimensions wherever they can be among the sizes. -/
theorem allHold_unsqueezeShape {axes : List Int} {out : List Nat} (h : AllHold σ dims shape)
    (hout : unsqueezeShape shape axes 1 = .ok out) :
    ∃ rs, unsqueezeShape dims axes (.fixed 1) = .ok rs ∧ AllHold σ rs out := by
  obtain ⟨found, hfound, hout⟩ := bind_eq_ok_iff.1 hout
  cases hout
  refine ⟨insertDims found (.fixed 1) (shape.length + axes.length) 0 dims, ?_,
    allHold_insertDims h found _ 0⟩
  unfold unsqueezeShape
  dsimp only
  rw [length_of_allHold h, hfound]
  rfl

/-! ## Products and sums -/

/-- The product of dimensions holds of the product of the sizes. -/
theorem holds_dimsProduct (h : AllHold σ dims shape) (exact_dims : ∀ d ∈ dims, d.Exact σ)
    (range : ∀ n ∈ shape, (n : Int) ≤ Int64.maxValue.toInt)
    (product : (elementCount shape : Int) ≤ Int64.maxValue.toInt) :
    Holds σ (elementCount shape) (dimsProduct dims) := by
  unfold dimsProduct
  cases hsizes : dims.mapM expr? with
  | none => trivial
  | some sizes =>
      obtain ⟨exact_sizes, values⟩ := map_eval_of_expr? exact_dims h range hsizes
      have whole : (sizes.map (SizeExpr.eval σ)).prod = elementCount shape := by
        rw [values, elementCount_eq_prod, Nat.cast_list_prod]
      have value : (sizes.foldl SizeExpr.times (.const 1)).eval σ = elementCount shape := by
        rw [← whole]
        refine SizeExpr.eval_product exact_sizes ?_
        rwa [whole, Nat.abs_cast]
      exact holds_ofExpr (SizeExpr.exact_foldl (fun _ _ => SizeExpr.exact_simplify _)
        (SizeExpr.exact_const 1) sizes) value

/-- The product of a dimension and a number of repeats. -/
def repeatedDim (d : Dim) (r : SizeExpr) : Dim :=
  match d.expr? with
  | some size => ofExpr (size.times r)
  | none => .unknown

theorem holds_repeatedDim {d : Dim} {r : SizeExpr} {n k : Nat} (h : Holds σ n d) (exact_d : d.Exact σ)
    (exact_r : r.Exact σ) (value : r.eval σ = k) (range : (n : Int) ≤ Int64.maxValue.toInt)
    (product : ((n * k : Nat) : Int) ≤ Int64.maxValue.toInt) :
    Holds σ (n * k) (repeatedDim d r) := by
  unfold repeatedDim
  cases hd : d.expr? with
  | none => trivial
  | some size =>
      obtain ⟨exact_size, size_eq⟩ := eval_of_expr? exact_d h range hd
      refine holds_ofExpr (SizeExpr.exact_simplify _) ?_
      rw [SizeExpr.eval_times exact_size exact_r, size_eq, value, Nat.cast_mul]
      rw [size_eq, value, ← Nat.cast_mul, Nat.abs_cast]
      exact product

/-- Each dimension is repeated as often as the element at its place says. -/
theorem allHold_zip_repeatedDim {dims : List Dim} {shape repeats : List Nat} {counts : List SizeExpr}
    (h : AllHold σ dims shape) (exact_dims : ∀ d ∈ dims, d.Exact σ)
    (exact_counts : ∀ r ∈ counts, r.Exact σ)
    (hr : repeats.map (Nat.cast : Nat → Int) = counts.map (SizeExpr.eval σ))
    (range : ∀ n ∈ shape, (n : Int) ≤ Int64.maxValue.toInt)
    (range' : ∀ n ∈ ((shape.zip repeats).map fun p => p.1 * p.2 : List Nat),
      (n : Int) ≤ Int64.maxValue.toInt) :
    AllHold σ ((dims.zip counts).map fun p => repeatedDim p.1 p.2)
      ((shape.zip repeats).map fun p => p.1 * p.2) := by
  rw [allHold_iff] at h
  induction h generalizing repeats counts with
  | nil => trivial
  | @cons d n dims shape first _ ih =>
      cases counts with
      | nil =>
          obtain rfl := List.map_eq_nil_iff.1 hr
          trivial
      | cons r counts =>
          obtain ⟨k, repeats, rfl, value, others⟩ := List.map_eq_cons_iff.1 hr
          rw [List.forall_mem_cons] at exact_dims exact_counts range
          rw [List.zip_cons_cons, List.map_cons, List.forall_mem_cons] at range'
          exact ⟨holds_repeatedDim first exact_dims.1 exact_counts.1 value.symm range.1 range'.1,
            ih exact_dims.2 exact_counts.2 others range.2 range'.2⟩

/-- The sum of dimensions holds of the sum of the sizes if the constants in them stay in range together.
-/
theorem holds_dimsSum (h : AllHold σ dims shape) (exact_dims : ∀ d ∈ dims, d.Exact σ)
    (range : ∀ n ∈ shape, (n : Int) ≤ Int64.maxValue.toInt)
    (sum : ∀ sizes, dims.mapM expr? = some sizes →
      (sizes.map SizeExpr.constantWeight).sum ≤ Int64.maxValue.toInt) :
    Holds σ shape.sum (dimsSum dims) := by
  unfold dimsSum
  cases hsizes : dims.mapM expr? with
  | none => trivial
  | some sizes =>
      obtain ⟨exact_sizes, values⟩ := map_eval_of_expr? exact_dims h range hsizes
      have value : (sizes.foldl SizeExpr.plus (.const 0)).eval σ = shape.sum := by
        rw [SizeExpr.eval_sum exact_sizes (sum sizes hsizes), values, Nat.cast_list_sum]
      exact holds_ofExpr (SizeExpr.exact_foldl (fun _ _ => SizeExpr.exact_simplify _)
        (SizeExpr.exact_const 0) sizes) value

/-- What is chosen among dimensions of the same size holds of it. -/
theorem holds_sharedDim (h : ∀ d ∈ dims, Holds σ n d) : Holds σ n (sharedDim dims) := by
  unfold sharedDim
  cases hfixed : dims.find? isFixed with
  | some d => exact h d (List.mem_of_find?_eq_some hfixed)
  | none =>
      cases hknown : dims.find? (· ≠ .unknown) with
      | some d => exact h d (List.mem_of_find?_eq_some hknown)
      | none => trivial

end Dim
end TensorGraph
