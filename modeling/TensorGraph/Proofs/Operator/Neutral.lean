import TensorGraph.Proofs.Number.Neutral
import TensorGraph.Proofs.Operator.Broadcasting
import TensorGraph.Simplification.Pattern

/-!
# Arithmetic with constants that change nothing

Input:

* two tensors that are combined element by element, one of which is filled with a neutral number.

The other tensor may be repeated along some dimensions by the broadcast.  If the result has its shape,
then it is read in its own order, and each element of the result is the same number as the one at its
place.

Main results:

* `BinaryFunction.sameNumbers_right`, `BinaryFunction.sameNumbers_left`: the result has the numbers of
  the first or of the second tensor.
-/

namespace TensorGraph

/-! ## Tensors of the same numbers -/

/-- Whether two sequences of elements hold the same numbers.  Floating-point numbers are compared by
their values, and all others must be equal. -/
def Elements.SameNumbers : Elements → Elements → Prop
  | .float32 xs, .float32 ys => List.Forall₂ SameNumber xs.toList ys.toList
  | .float64 xs, .float64 ys => List.Forall₂ SameNumber xs.toList ys.toList
  | xs, ys => xs = ys

/-- Whether two tensors have the same shape and hold the same numbers. -/
structure Tensor.SameNumbers (a b : Tensor) : Prop where
  shape : a.shape = b.shape
  elements : a.elements.SameNumbers b.elements

/-- Types of numbers in which zero and one are neutral, and that are stored as they are. -/
class NumericElement (α : Type) [Element α] [Arith α] : Prop
    extends LawfulElement α, NeutralLaws α where
  eq_wrap : ∀ (e : Elements) (xs : Array α), Element.unwrap? e = some xs → e = Element.wrap xs
  toBinary64s_wrap : ∀ xs : Array α,
    (Element.wrap xs).toBinary64s? = some (xs.map Element.toBinary64)
  sameNumbers_wrap : ∀ xs ys : Array α, List.Forall₂ SameNumber xs.toList ys.toList →
    (Element.wrap xs).SameNumbers (Element.wrap ys)

theorem eq_of_sameNumber {α : Type} [Arith α] [BEq α] [LawfulBEq α]
    (eq : ∀ x y : α, Arith.eq x y = (x == y)) {xs ys : Array α}
    (h : List.Forall₂ SameNumber xs.toList ys.toList) : xs = ys := by
  have each : ∀ x y : α, SameNumber x y → x = y := by
    rintro x y (same | ⟨differ, -⟩)
    · rw [eq] at same
      exact eq_of_beq same
    · rw [eq, beq_self_eq_true] at differ
      cases differ
  exact Array.toList_inj.1 (List.forall₂_eq_eq_eq ▸ h.imp each)

instance : NumericElement Binary32 where
  eq_wrap e xs h := by cases e <;> cases h; rfl
  toBinary64s_wrap _ := rfl
  sameNumbers_wrap _ _ h := h

instance : NumericElement Binary64 where
  eq_wrap e xs h := by cases e <;> cases h; rfl
  toBinary64s_wrap _ := rfl
  sameNumbers_wrap _ _ h := h

instance : NumericElement Int64 where
  eq_wrap e xs h := by cases e <;> cases h; rfl
  toBinary64s_wrap _ := rfl
  sameNumbers_wrap _ _ h := congrArg Elements.int64 (eq_of_sameNumber (fun _ _ => rfl) h)

instance : NumericElement Int32 where
  eq_wrap e xs h := by cases e <;> cases h; rfl
  toBinary64s_wrap _ := rfl
  sameNumbers_wrap _ _ h := congrArg Elements.int32 (eq_of_sameNumber (fun _ _ => rfl) h)

instance : NumericElement Int8 where
  eq_wrap e xs h := by cases e <;> cases h; rfl
  toBinary64s_wrap _ := rfl
  sameNumbers_wrap _ _ h := congrArg Elements.int8 (eq_of_sameNumber (fun _ _ => rfl) h)

instance : NumericElement UInt8 where
  eq_wrap e xs h := by cases e <;> cases h; rfl
  toBinary64s_wrap _ := rfl
  sameNumbers_wrap _ _ h := congrArg Elements.uint8 (eq_of_sameNumber (fun _ _ => rfl) h)

theorem BinaryFunction.exists_of_numeric {a b u : Tensor}
    {f : (α : Type) → [Arith α] → α → α → Option α} (h : numeric a b f = .ok u) :
    ∃ (α : Type) (_ : Element α) (_ : Arith α), NumericElement α ∧ binaryMap (f α) a b = .ok u := by
  unfold numeric at h
  cases hx : a.elementType <;> rw [hx] at h <;>
    first
    | cases h
    | exact ⟨_, _, _, inferInstance, h⟩

/-! ## Combined elements -/

section

variable {α β γ : Type}

theorem forall₂_of_zip_left {R : α × β → γ → Prop} {xs : List α} {ys : List β} {zs : List γ}
    (h : List.Forall₂ R (xs.zip ys) zs) (length : xs.length = ys.length) :
    List.Forall₂ (fun z x => ∃ y ∈ ys, R (x, y) z) zs xs := by
  induction xs generalizing ys zs with
  | nil =>
      cases h
      exact .nil
  | cons x xs ih =>
      cases ys with
      | nil => cases length
      | cons y ys =>
          rw [List.zip_cons_cons] at h
          obtain ⟨z, zs, first, rest, rfl⟩ := List.forall₂_cons_left_iff.1 h
          refine .cons ⟨y, List.mem_cons_self, first⟩ ?_
          exact (ih rest (Nat.succ.inj length)).imp fun _ _ ⟨y, hy, hR⟩ =>
            ⟨y, List.mem_cons_of_mem _ hy, hR⟩

theorem forall₂_of_zip_right {R : α × β → γ → Prop} {xs : List α} {ys : List β} {zs : List γ}
    (h : List.Forall₂ R (xs.zip ys) zs) (length : xs.length = ys.length) :
    List.Forall₂ (fun z y => ∃ x ∈ xs, R (x, y) z) zs ys := by
  rw [← List.zip_swap, List.forall₂_map_left_iff] at h
  exact forall₂_of_zip_left h length.symm

end

theorem zipElements_some {α β : Type} (f : α → α → β) (xs ys : Array α) :
    zipElements (fun x y => some (f x y)) xs ys =
      some ((xs.toList.zip ys.toList).map fun p => f p.1 p.2).toArray := by
  have all : ∀ l : List (α × α), (l.mapM fun p => some (f p.1 p.2)) = some (l.map fun p => f p.1 p.2) :=
    fun l => List.mapM_pure
  unfold zipElements
  rw [all]
  rfl

section

variable {α β : Type} [Element α] [LawfulElement α] [Element β] {f : α → α → Option β}
  {a b u : Tensor}

/-- A combination is that of the elements of both tensors, broadcast to one shape.  Tensors of the same
shape are not broadcast, which makes no difference. -/
theorem binaryMap_eq_ok_iff (ha : a.Counted) (hb : b.Counted) :
    binaryMap f a b = .ok u ↔ ∃ out xs ys zs, broadcastShapes a.shape b.shape = some out ∧
      a.array? α = some xs ∧ b.array? α = some ys ∧
      zipElements f (takeAt xs (broadcastOffsets a.shape out))
        (takeAt ys (broadcastOffsets b.shape out)) = some zs ∧ u = .ofArray out zs := by
  rw [binaryMap_eq_combineBroadcast ha hb]
  unfold combineBroadcast Tensor.arrayOf
  simp only [bind_eq_ok_iff, orFault_eq_ok_iff]
  constructor
  · rintro ⟨out, hout, xs, hxs, ys, hys, zs, hzs, heq⟩
    cases heq
    exact ⟨out, xs, ys, zs, hout, hxs, hys, hzs, rfl⟩
  · rintro ⟨out, xs, ys, zs, hout, hxs, hys, hzs, rfl⟩
    exact ⟨out, hout, xs, hxs, ys, hys, zs, hzs, rfl⟩

end

section

variable {α : Type} [Element α] [Arith α] [NumericElement α] {f : α → α → Option α}
  {number : Binary64} {a b u : Tensor}

/-- The elements of a constant are equal to the number that it is filled with. -/
theorem eq_of_isFilledWith {t : Tensor} {xs : Array α} (elements : t.elements = Element.wrap xs)
    (h : t.isFilledWith number = true) : ∀ c ∈ xs, (Element.toBinary64 c).eq number = true := by
  unfold Tensor.isFilledWith at h
  rw [elements, NumericElement.toBinary64s_wrap] at h
  intro c hc
  obtain ⟨i, hi, rfl⟩ := Array.getElem_of_mem hc
  have all : ∀ i (hi : i < xs.size), (Element.toBinary64 xs[i]).eq number = true := by
    simpa using (Bool.and_eq_true_iff.1 h).2
  exact all i hi

/-- Whether elements are those of a tensor, broadcast to a shape. -/
structure Spread (t : Tensor) (out : List Nat) (xs spread : Array α) : Prop where
  elements : t.elements = Element.wrap xs
  size : spread.size = elementCount out
  same : out = t.shape → spread = xs
  mem : ∀ c ∈ spread, c ∈ xs

omit [Arith α] [NumericElement α] in
theorem spread_takeAt {t : Tensor} {out : List Nat} {xs : Array α}
    (elements : t.elements = Element.wrap xs) (size : xs.size = elementCount t.shape)
    (repeats : Repeats t.shape out) : Spread t out xs (takeAt xs (broadcastOffsets t.shape out)) where
  elements := elements
  size := by rw [size_takeAt, length_broadcastOffsets]
  same h := by rw [h, takeAt_broadcastOffsets_self size]
  mem c hc := by
    obtain ⟨k, hk, rfl⟩ : ∃ k ∈ broadcastOffsets t.shape out, xs.getD k default = c := by
      simpa [takeAt] using hc
    have bound := lt_of_mem_broadcastOffsets repeats hk
    rw [← size] at bound
    simp [Array.getD, bound]

/-- A combination is that of the elements of both tensors, broadcast to the shape of the result. -/
theorem exists_of_binaryMap (ha : a.Counted) (hb : b.Counted) (h : binaryMap f a b = .ok u) :
    ∃ xs ys xs' ys' zs : Array α, Spread a u.shape xs xs' ∧ Spread b u.shape ys ys' ∧
      u.elements = Element.wrap zs ∧
      List.Forall₂ (fun p z => f p.1 p.2 = some z) (xs'.toList.zip ys'.toList) zs.toList := by
  obtain ⟨out, xs, ys, zs, hout, hxs, hys, hzs, rfl⟩ := (binaryMap_eq_ok_iff ha hb).1 h
  obtain ⟨list, hlist, rfl⟩ := Option.map_eq_some_iff.1 hzs
  obtain ⟨repeats, repeats'⟩ := repeats_of_broadcastShapes hout
  have size := ha.size_of_array? hxs
  have size' := hb.size_of_array? hys
  exact ⟨xs, ys, _, _, _, spread_takeAt (NumericElement.eq_wrap _ _ hxs) size repeats,
    spread_takeAt (NumericElement.eq_wrap _ _ hys) size' repeats', rfl,
    forall₂_of_mapM_eq_some hlist⟩

/-- A combination with a neutral second tensor that has the shape of the first one. -/
theorem sameNumbers_binaryMap_right (neutral : RightNeutral f number) (ha : a.Counted)
    (hb : b.Counted) (filled : b.isFilledWith number = true) (h : binaryMap f a b = .ok u)
    (shape : u.shape = a.shape) : u.SameNumbers a := by
  obtain ⟨xs, ys, xs', ys', zs, first, second, elements, each⟩ := exists_of_binaryMap ha hb h
  obtain rfl := first.same shape
  have length : xs'.toList.length = ys'.toList.length := first.size.trans second.size.symm
  refine ⟨shape, elements ▸ first.elements ▸ NumericElement.sameNumbers_wrap _ _ ?_⟩
  refine (forall₂_of_zip_left each length).imp fun z x ⟨c, hc, hz⟩ => ?_
  exact neutral c (eq_of_isFilledWith second.elements filled c
    (second.mem c (Array.mem_toList_iff.1 hc))) x z hz

/-- A combination with a neutral first tensor that has the shape of the second one. -/
theorem sameNumbers_binaryMap_left (neutral : LeftNeutral f number) (ha : a.Counted)
    (hb : b.Counted) (filled : a.isFilledWith number = true) (h : binaryMap f a b = .ok u)
    (shape : u.shape = b.shape) : u.SameNumbers b := by
  obtain ⟨xs, ys, xs', ys', zs, first, second, elements, each⟩ := exists_of_binaryMap ha hb h
  obtain rfl := second.same shape
  have length : xs'.toList.length = ys'.toList.length := first.size.trans second.size.symm
  refine ⟨shape, elements ▸ second.elements ▸ NumericElement.sameNumbers_wrap _ _ ?_⟩
  refine (forall₂_of_zip_right each length).imp fun z y ⟨c, hc, hz⟩ => ?_
  exact neutral c (eq_of_isFilledWith first.elements filled c
    (first.mem c (Array.mem_toList_iff.1 hc))) y z hz

end

/-! ## Operators -/

namespace BinaryFunction

variable {f : BinaryFunction} {number : Binary64} {a b u : Tensor}

/-- The number that changes nothing as the second operand. -/
def neutral? : BinaryFunction → Option Binary64
  | add | sub => some .zero
  | mul | div => some .one
  | _ => none

/-- The operands of these functions may be exchanged where patterns allow it. -/
theorem eq_of_isCommutative (neutral : f.neutral? = some number)
    (h : isCommutative f.name = true) : f = add ∨ f = mul := by
  cases f with
  | add => exact .inl rfl
  | mul => exact .inr rfl
  | sub => exact absurd h (by decide)
  | div => exact absurd h (by decide)
  | _ => cases neutral

/-- A function with a neutral number combines elements of one type, in which the number is neutral. -/
theorem exists_of_run (neutral : f.neutral? = some number) (h : f.run a b = .ok u) :
    ∃ (α : Type) (_ : Element α) (_ : Arith α) (_ : NumericElement α) (g : α → α → Option α),
      RightNeutral g number ∧ (f = add ∨ f = mul → LeftNeutral g number) ∧
      binaryMap g a b = .ok u := by
  cases f with
  | add =>
      cases neutral
      obtain ⟨α, _, _, numeric, h⟩ := exists_of_numeric h
      exact ⟨α, _, _, numeric, _, NeutralLaws.add_right, fun _ => NeutralLaws.add_left, h⟩
  | sub =>
      cases neutral
      obtain ⟨α, _, _, numeric, h⟩ := exists_of_numeric h
      exact ⟨α, _, _, numeric, _, NeutralLaws.sub_right, fun exchange => absurd exchange (by decide), h⟩
  | mul =>
      cases neutral
      obtain ⟨α, _, _, numeric, h⟩ := exists_of_numeric h
      exact ⟨α, _, _, numeric, _, NeutralLaws.mul_right, fun _ => NeutralLaws.mul_left, h⟩
  | div =>
      cases neutral
      obtain ⟨α, _, _, numeric, h⟩ := exists_of_numeric h
      exact ⟨α, _, _, numeric, _, NeutralLaws.div_right, fun exchange => absurd exchange (by decide), h⟩
  | _ => cases neutral

theorem sameNumbers_right (neutral : f.neutral? = some number) (ha : a.Counted) (hb : b.Counted)
    (filled : b.isFilledWith number = true) (h : f.run a b = .ok u) (shape : u.shape = a.shape) :
    u.SameNumbers a := by
  obtain ⟨α, _, _, _, g, right, -, h⟩ := exists_of_run neutral h
  exact sameNumbers_binaryMap_right right ha hb filled h shape

theorem sameNumbers_left (neutral : f.neutral? = some number) (exchange : f = add ∨ f = mul)
    (ha : a.Counted) (hb : b.Counted) (filled : a.isFilledWith number = true)
    (h : f.run a b = .ok u) (shape : u.shape = b.shape) : u.SameNumbers b := by
  obtain ⟨α, _, _, _, g, -, left, h⟩ := exists_of_run neutral h
  exact sameNumbers_binaryMap_left (left exchange) ha hb filled h shape

end BinaryFunction
end TensorGraph
