import TensorGraph.Proofs.Facts.Rearrange
import TensorGraph.Proofs.Operator.Reduction
import TensorGraph.Proofs.Tensor.Typed

/-!
# Groups of a reduction

Input:

* a tensor, the axes along which it is reduced, and an index of the reduced shape.

All elements are sorted into groups in one pass.  The place of the group of an element is that of its index
with 0 at the axes (`reducedOffset_strides`), so a group has the elements whose indexes agree with its own
index at the axes that are kept (`getElem?_reduceGroups`).

Main results:

* `Reduction.run_groups`: each element of a reduced tensor is combined from one group, in row-major order;
* `Reduction.elements_keepDims`: keeping the reduced dimensions changes the shape alone;
* `toInt_divisor_int8` and `run_mean_of_wrapping_count`: the number of elements wraps around in narrow types,
  so that their mean is wrong.
-/

namespace TensorGraph

/-! ## Replaced entries -/

section

variable {δ : Type} {axes : List Nat} {shape index out : List Nat} {i : Nat}

/-- Entries from a position on, where those at some axes are replaced. -/
def replacedFrom (axes : List Nat) (value : δ) (i : Nat) (l : List δ) : List δ :=
  (l.zipIdx i).map fun p => if axes.contains p.2 then value else p.1

theorem reducedShape_eq (l : List δ) (axes : List Nat) (value : δ) :
    reducedShape l axes value = replacedFrom axes value 0 l := rfl

@[simp] theorem replacedFrom_nil (value : δ) : replacedFrom axes value i [] = [] := rfl

theorem replacedFrom_cons (value d : δ) (l : List δ) :
    replacedFrom axes value i (d :: l) =
      (if axes.contains i then value else d) :: replacedFrom axes value (i + 1) l := rfl

theorem replacedFrom_mem_indexes (h : index ∈ indexes shape) :
    replacedFrom axes 0 i index ∈ indexes (replacedFrom axes 1 i shape) := by
  rw [mem_indexes] at h ⊢
  induction h generalizing i with
  | nil => exact .nil
  | cons first _ ih =>
      rw [replacedFrom_cons, replacedFrom_cons]
      refine .cons ?_ ih
      split
      · exact Nat.zero_lt_one
      · exact first

/-- An index of a reduced shape is that of the elements that agree with it at the axes that are kept. -/
theorem replacedFrom_eq_iff (h : index ∈ indexes shape)
    (hout : out ∈ indexes (replacedFrom axes 1 i shape)) :
    replacedFrom axes 0 i index = out ↔ keptFrom axes i index = keptFrom axes i out := by
  rw [mem_indexes] at h hout
  induction h generalizing i out with
  | nil =>
      cases hout
      simp
  | @cons j n index shape _ _ ih =>
      rw [replacedFrom_cons] at hout
      obtain ⟨k, out, hk, hrest, rfl⟩ := List.forall₂_cons_right_iff.1 hout
      rw [replacedFrom_cons, keptFrom_cons, keptFrom_cons, List.cons.injEq, ih hrest]
      by_cases reduced : axes.contains i = true
      · rw [if_pos reduced] at hk
        obtain rfl := Nat.lt_one_iff.1 hk
        simp only [if_pos reduced, true_and]
      · simp only [if_neg reduced, List.cons.injEq]

/-- The place of an element in the reduced tensor is that of its index with 0 at the axes. -/
theorem reducedOffset_strides (axes shape index : List Nat) :
    reducedOffset axes (strides shape) index = rowMajor shape (reducedShape index axes 0) := by
  have fold : ∀ (shape index : List Nat) (i start : Nat),
      ((index.zip (strides shape)).zipIdx i).foldl (fun offset p =>
        if axes.contains p.2 then offset else offset + p.1.1 * p.1.2) start =
          start + rowMajor shape (replacedFrom axes 0 i index) := by
    intro shape
    induction shape with
    | nil =>
        intro index i start
        simp [strides]
    | cons n shape ih =>
        intro index i start
        cases index with
        | nil => simp
        | cons j index =>
            rw [strides, List.zip_cons_cons, List.zipIdx_cons, List.foldl_cons, ih, replacedFrom_cons,
              rowMajor_cons]
            split
            · rw [Nat.zero_mul, Nat.zero_add]
            · rw [Nat.add_assoc]
  exact (fold shape index 0 0).trans (Nat.zero_add _)

end

/-! ## Groups -/

section

variable {α β : Type} {shape axes out : List Nat} {xs : Array α}

/-- What is put in front of lists one after the other stands in them in reverse. -/
theorem getElem?_foldl_modify (place : β → Nat) (value : β → α) (l : List β)
    (groups : Array (List α)) (k : Nat) :
    (l.foldl (fun groups b => groups.modify (place b) (value b :: ·)) groups)[k]? =
      groups[k]?.map fun group => ((l.filter fun b => place b = k).map value).reverse ++ group := by
  induction l generalizing groups with
  | nil => simp
  | cons b l ih =>
      rw [List.foldl_cons, ih, Array.getElem?_modify]
      by_cases same : place b = k
      · simp [same, Function.comp_def]
      · simp [same]

/-- The elements whose indexes agree with an index of the reduced shape at the axes that are kept, in
row-major order. -/
def groupAt (shape axes : List Nat) (xs : List α) (out : List Nat) : List α :=
  (((indexes shape).zip xs).filter fun p => droppedShape p.1 axes = droppedShape out axes).map Prod.snd

/-- The group for an index stands at its place. -/
theorem getElem?_reduceGroups (h : out ∈ indexes (reducedShape shape axes 1)) :
    (reduceGroups shape axes xs)[rowMajor (reducedShape shape axes 1) out]? =
      some (groupAt shape axes xs.toList out) := by
  unfold reduceGroups
  dsimp only
  rw [Array.getElem?_map, getElem?_foldl_modify, Array.getElem?_replicate, if_pos (rowMajor_lt h),
    Option.map_some, Option.map_some, List.append_nil, List.reverse_reverse, groupAt]
  refine congrArg (fun l => some (List.map Prod.snd l)) (List.filter_congr fun p hp => ?_)
  have inside : p.1 ∈ indexes shape := (List.of_mem_zip hp).1
  rw [reducedOffset_strides, decide_eq_decide, droppedShape_eq, droppedShape_eq,
    ← replacedFrom_eq_iff inside h]
  constructor
  · exact rowMajor_inj (replacedFrom_mem_indexes inside) h
  · rintro rfl
    rfl

end

/-! ## Reduced tensors -/

/-- What a reduction of some axes is: each element is combined from the group for its index, where no group
fails. -/
structure Tensor.ReducedFrom (α : Type) [Element α] [Arith α] (u t : Tensor) (kind : ReduceKind)
    (axes : List Nat) (xs ys : Array α) : Prop where
  taken : t.array? α = some xs
  elements : u.array? α = some ys
  count : ys.size = elementCount (reducedShape t.shape axes 1)
  element : ∀ out ∈ indexes (reducedShape t.shape axes 1), ∃ y,
    ys[rowMajor (reducedShape t.shape axes 1) out]? = some y ∧
      kind.ofGroup (groupAt t.shape axes xs.toList out) = some y

variable {t u : Tensor} {kind : ReduceKind} {axes : List Nat}

theorem reducedFrom_of_reduceTensor {α : Type} [Element α] [Arith α] [TypedElement α]
    (h : reduceTensor α t axes kind = .ok u) :
    u.shape = reducedShape t.shape axes 1 ∧ ∃ xs ys, u.ReducedFrom α t kind axes xs ys := by
  obtain ⟨xs, hxs, h⟩ := bind_eq_ok_iff.1 h
  obtain ⟨ys, hys, h⟩ := bind_eq_ok_iff.1 h
  replace hys := orFault_eq_ok_iff.1 hys
  cases h
  refine ⟨rfl, xs, ys.toArray, orFault_eq_ok_iff.1 hxs, Tensor.array?_ofArray, ?_, fun out hout => ?_⟩
  · rw [List.size_toArray, length_of_mapM_eq_some hys, Array.length_toList, size_reduceGroups]
  · have related := rel_getElem? (forall₂_of_mapM_eq_some hys)
      (rowMajor (reducedShape t.shape axes 1) out)
    rw [Array.getElem?_toList, getElem?_reduceGroups hout] at related
    rw [List.getElem?_toArray]
    generalize ys[rowMajor (reducedShape t.shape axes 1) out]? = o at related
    cases related with
    | some combined => exact ⟨_, rfl, combined⟩

theorem elements_of_reshapeOrFault {shape : List Nat} {w : Tensor} (h : reshapeOrFault u shape = .ok w) :
    w.elements = u.elements := by
  have reshaped := orFault_eq_ok_iff.1 h
  unfold Tensor.reshaped? at reshaped
  split at reshaped
  · cases reshaped
    rfl
  · cases reshaped

namespace Reduction

variable {r : Reduction} {inputs : Inputs}

/-- A reduction leaves its input as it is, or combines one group of elements for each index of the reduced
shape. -/
theorem run_groups (ht : inputs.require 0 = .ok t) (h : r.run inputs = .ok u) :
    ∃ given reduced, axesInput r.axes inputs = .ok given ∧
      reduceAxes t.rank given r.noopWithEmptyAxes = .ok reduced ∧ (reduced = none → u = t) ∧
      ∀ axes, reduced = some axes → u.shape = r.shapeOf t.shape 1 reduced ∧
        ∃ (α : Type) (_ : Element α) (_ : Arith α) (xs ys : Array α),
          u.ReducedFrom α t r.kind axes xs ys := by
  rw [run_eq] at h
  obtain ⟨t', ht', h⟩ := bind_eq_ok_iff.1 h
  obtain rfl : t = t' := Except.ok.inj (ht.symm.trans ht')
  obtain ⟨given, hgiven, h⟩ := bind_eq_ok_iff.1 h
  obtain ⟨reduced, hreduced, h⟩ := bind_eq_ok_iff.1 h
  refine ⟨given, reduced, hgiven, hreduced, ?_, ?_⟩
  · rintro rfl
    cases h
    rfl
  · rintro axes rfl
    obtain ⟨w, hw, h⟩ := bind_eq_ok_iff.1 h
    obtain ⟨α, _, _, typed, -, hw⟩ := ElementType.exists_typed_of_dispatchNumeric hw
    obtain ⟨shape, xs, ys, reduction⟩ := reducedFrom_of_reduceTensor hw
    dsimp only [shapeOf]
    split at h
    · rename_i keeps
      cases h
      rw [if_pos keeps]
      exact ⟨shape, α, _, _, xs, ys, reduction⟩
    · rename_i drops
      rw [if_neg drops]
      have elements : u.array? α = some ys := by
        unfold Tensor.array?
        rw [elements_of_reshapeOrFault h]
        exact reduction.elements
      exact ⟨(takes_of_reshapeOrFault h).shape_eq, α, _, _, xs, ys, reduction.taken, elements,
        reduction.count, reduction.element⟩

/-- Keeping the reduced dimensions changes the shape alone. -/
theorem elements_keepDims {w : Tensor} (h : run { r with keepDims := true } inputs = .ok u)
    (h' : run { r with keepDims := false } inputs = .ok w) : w.elements = u.elements := by
  rw [run_eq] at h h'
  obtain ⟨t, ht, h⟩ := bind_eq_ok_iff.1 h
  obtain ⟨given, hgiven, h⟩ := bind_eq_ok_iff.1 h
  obtain ⟨reduced, hreduced, h⟩ := bind_eq_ok_iff.1 h
  simp only [ht, hgiven, hreduced, bind, Except.bind] at h'
  cases reduced with
  | none =>
      cases h
      cases h'
      rfl
  | some axes =>
      obtain ⟨v, hv, h⟩ := bind_eq_ok_iff.1 h
      cases h
      simp only [hv] at h'
      exact elements_of_reshapeOrFault h'

end Reduction

/-! ## Numbers of elements -/

/-- The number by which a mean of 8-bit integers is divided wraps around. -/
theorem toInt_divisor_int8 (n : Nat) :
    (Element.ofInt64 (.ofNat n) : Int8).toInt = (n : Int).bmod (2 ^ 8) := by
  change (Int64.ofNat n).toInt8.toInt = _
  rw [Int64.toInt8_ofNat', Int8.toInt_ofNat']
  rfl

/-- So it is the number of elements for fewer than 128 of them only. -/
theorem toInt_divisor_int8_eq_iff (n : Nat) :
    (Element.ofInt64 (.ofNat n) : Int8).toInt = n ↔ n < 128 := by
  rw [toInt_divisor_int8]
  have low := Int.le_bmod (x := (n : Int)) (m := 2 ^ 8) (by decide)
  have high := Int.bmod_lt (x := (n : Int)) (m := 2 ^ 8) (by decide)
  constructor
  · intro same
    omega
  · intro few
    exact Int.bmod_eq_of_le (by omega) (by omega)

/-- The mean of 128 elements of -1, of which 8 bits count -128. -/
theorem run_mean_of_wrapping_count :
    Reduction.run { kind := .mean } [some (.vector (Array.replicate 128 (-1 : Int8)))] =
      .ok (.vector (#[1] : Array Int8)) := by
  decide +kernel

end TensorGraph
