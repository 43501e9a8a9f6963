import TensorGraph.Proofs.Operator.Axes
import TensorGraph.Proofs.Tensor.Alike
import TensorGraph.Proofs.Tensor.Index

/-!
# Transposed tensors

Input:

* a tensor, and the order in which its dimensions are listed after it was transposed.

Main results:

* `transposeBy_transposeBy`: two transpositions are one, by the order of the first that the second
  rearranges;
* `transposeBy_range`: the order of the dimensions themselves changes nothing.
-/

namespace TensorGraph

/-! ## Taken elements -/

/-- Elements that are taken twice are taken once, when the offsets say so. -/
theorem takeTensor_takeTensor {t u : Tensor} {first second both shape shape' : List Nat}
    (h : takeTensor t shape first = .ok u)
    (same : ∀ {α : Type} [Inhabited α] (xs : Array α),
      takeAt (takeAt xs first) second = takeAt xs both) :
    takeTensor u shape' second = takeTensor t shape' both := by
  obtain ⟨_, elements, _⟩ := t
  cases elements with
  | opaqueOf type => cases type <;> cases h
  | _ xs =>
      cases h
      exact congrArg (fun ys => Except.ok (Tensor.ofArray shape' ys)) (same xs)

/-- Taking all elements in their order gives the same tensor. -/
theorem alike_of_takeTensor {t u : Tensor} {offsets : List Nat} (counted : t.Counted)
    (h : takeTensor t t.shape offsets = .ok u)
    (same : ∀ {α : Type} [Inhabited α] (xs : Array α), xs.size = elementCount t.shape →
      takeAt xs offsets = xs) :
    u.Alike t := by
  obtain ⟨shape, elements, _⟩ := t
  cases elements with
  | opaqueOf type => cases type <;> cases h
  | _ xs =>
      cases h
      have all := same xs (counted rfl)
      exact .of_evaluable rfl (by simp only [Tensor.ofArray, Element.wrap, all]) rfl

theorem shape_of_takeTensor {t u : Tensor} {shape offsets : List Nat}
    (h : takeTensor t shape offsets = .ok u) : u.shape = shape := by
  obtain ⟨_, elements, _⟩ := t
  cases elements with
  | opaqueOf type => cases type <;> cases h
  | _ xs =>
      cases h
      rfl

/-! ## Orders of dimensions -/

/-- The tensor whose dimensions are those of another one in a given order. -/
def transposeBy (order : List Nat) (t : Tensor) : OpResult Tensor :=
  takeTensor t (permuted order t.shape 1)
    (stridedOffsets (permuted order t.shape 1)
      (permuted order ((strides t.shape).map Nat.cast) 0) 0)

theorem runTranspose_eq (perm : Option (List Int)) (inputs : Inputs) :
    runTranspose perm inputs =
      inputs.require 0 >>= fun t =>
        resolvePerm perm t.rank >>= fun order => transposeBy order t := by
  have steps : ∀ (order : List Nat) (t : Tensor),
      (order.map fun p => (((strides t.shape).getD p 0 : Nat) : Int)) =
        permuted order ((strides t.shape).map Nat.cast) 0 := by
    intro order t
    rw [show (0 : Int) = ((0 : Nat) : Int) from rfl, ← map_permuted, permuted, List.map_map]
    rfl
  unfold runTranspose transposeBy
  simp only [steps]
  rfl

variable {t u : Tensor} {perm : Option (List Int)} {rank : Nat} {order : List Nat}

/-- An order of the dimensions lists each of them once. -/
theorem perm_of_resolvePerm (h : resolvePerm perm rank = .ok order) :
    order.Perm (List.range rank) := by
  cases perm with
  | none =>
      cases h
      exact List.reverse_perm _
  | some axes =>
      unfold resolvePerm at h
      dsimp only at h
      split at h
      · cases h
      · rename_i length
        obtain ⟨found, nodup⟩ := resolveAxes_eq_ok_iff.1 h
        refine perm_range_of_nodup nodup (lt_of_mapM_resolveAxis? found) ?_
        rw [length_of_mapM_eq_some found]
        exact Decidable.not_not.1 length

/-- An order of the dimensions is given by itself. -/
theorem resolvePerm_natCast (h : order.Perm (List.range rank)) :
    resolvePerm (some (order.map Nat.cast)) rank = .ok order := by
  have length : (order.map (Nat.cast : Nat → Int)).length = rank := by simpa using h.length_eq
  unfold resolvePerm
  dsimp only
  rw [if_neg (by simpa using length), resolveAxes_eq_ok_iff]
  exact ⟨mapM_resolveAxis?_natCast fun i hi => List.mem_range.1 (h.mem_iff.1 hi),
    h.nodup_iff.2 List.nodup_range⟩

theorem shape_of_transposeBy (h : transposeBy order t = .ok u) :
    u.shape = permuted order t.shape 1 :=
  shape_of_takeTensor h

theorem rank_of_transposeBy (perm : order.Perm (List.range t.rank))
    (h : transposeBy order t = .ok u) : u.rank = t.rank := by
  rw [Tensor.rank, shape_of_transposeBy h, length_permuted, perm.length_eq, List.length_range]

/-- Transposing twice is transposing once. -/
theorem transposeBy_transposeBy {first second : List Nat} (h₁ : first.Perm (List.range t.rank))
    (h₂ : second.Perm (List.range t.rank)) (h : transposeBy first t = .ok u) (j : Nat) :
    transposeBy second u = transposeBy (permuted second first j) t := by
  have length : first.length = t.shape.length := h₁.length_eq.trans List.length_range
  have bound : ∀ k ∈ second, k < first.length := fun k hk => by
    rw [length]
    exact List.mem_range.1 (h₂.mem_iff.1 hk)
  have shape := shape_of_transposeBy h
  unfold transposeBy
  rw [shape, ← permuted_permuted bound j, ← permuted_permuted bound j]
  refine takeTensor_takeTensor h fun xs => takeAt_takeAt_permuted xs (by simp) ?_
  rwa [length_permuted, length]

/-- Listing the dimensions in their own order changes nothing. -/
theorem transposeBy_range (counted : t.Counted)
    (h : transposeBy (List.range t.rank) t = .ok u) : u.Alike t := by
  unfold transposeBy at h
  rw [permuted_range t.rank rfl, permuted_range t.rank (by simp [Tensor.rank])] at h
  exact alike_of_takeTensor counted h fun _ => takeAt_rowMajor

end TensorGraph
