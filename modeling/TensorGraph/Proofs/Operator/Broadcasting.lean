import TensorGraph.Operator.Elementwise
import TensorGraph.Proofs.Dimension.Holds
import TensorGraph.Proofs.Tensor.Broadcast
import TensorGraph.Proofs.Tensor.Counted

/-!
# Broadcasting of tensors and of dimensions

Input:

* two tensors whose elements are combined after they were broadcast to one shape;
* dimensions that hold of the shapes of two tensors, where sizes that are given by expressions are
  positive.

Tensors of equal shape are combined element by element, which is what broadcasting them to their own shape
would do (`binaryMap_eq_combineBroadcast`).  Dimensions broadcast to dimensions that hold of the shape of
the result (`allHold_broadcastDims`).

Main results:

* maps and combinations of storable tensors have as many elements as their shape says
  (`ensures_mapTensor`, `ensures_binaryMap`), and so have the outputs of all elementwise operators;
* `broadcasting_agrees`: what sizes, offsets, elements and dimensions say of broadcasting is the same.
-/

namespace TensorGraph

/-! ## Broadcasting -/

theorem broadcastSize_self (n : Nat) : broadcastSize n n = some n := by
  simp [broadcastSize]

theorem broadcastReversed_self (shape : List Nat) : broadcastReversed shape shape = some shape := by
  induction shape with
  | nil => rfl
  | cons n rest ih => simp [broadcastReversed, broadcastSize_self, ih]

theorem broadcastShapes_self (shape : List Nat) : broadcastShapes shape shape = some shape := by
  simp [broadcastShapes, broadcastReversed_self]

/-! ## Maps -/

section

variable {α β : Type} [Element α] [Element β] [LawfulElement α] [LawfulElement β]

theorem ensures_mapTensor {t : Tensor} (h : t.Storable) (f : α → β) :
    Ensures (mapTensor t f) Tensor.Computed := by
  refine Ensures.bind (Tensor.ensures_arrayOf h) fun xs hxs => Ensures.pure ?_
  exact Tensor.computed_ofArray (by rw [Array.size_map, hxs])

omit [Element α] [Element β] [LawfulElement α] [LawfulElement β] in
theorem size_zipElements {f : α → α → Option β} {xs ys : Array α} {out : Array β}
    (h : zipElements f xs ys = some out) (hsize : xs.size = ys.size) : out.size = xs.size := by
  obtain ⟨l, hl, rfl⟩ := Option.map_eq_some_iff.1 h
  rw [List.size_toArray, length_of_mapM_eq_some hl, List.length_zip, Array.length_toList, Array.length_toList,
    hsize, Nat.min_self]

theorem ensures_binaryMap {a b : Tensor} (ha : a.Storable) (hb : b.Storable)
    (f : α → α → Option β) : Ensures (binaryMap f a b) Tensor.Computed := by
  refine Ensures.bind (P := fun shape => broadcastShapes a.shape b.shape = some shape)
    (Ensures.orFault fun _ h => h) fun shape hshape => ?_
  refine Ensures.bind (Tensor.ensures_arrayOf ha) fun xs hxs => ?_
  refine Ensures.bind (Tensor.ensures_arrayOf hb) fun ys hys => ?_
  refine Ensures.bind (P := fun out => out.size = elementCount shape)
    (Ensures.orFault fun out hout => ?_) fun out hout =>
      Ensures.pure (Tensor.computed_ofArray hout)
  split at hout
  · rename_i heq
    rw [heq, broadcastShapes_self] at hshape
    cases hshape
    rw [size_zipElements hout (by rw [hxs, hys, heq]), hxs, heq]
  · rw [size_zipElements hout] <;> simp only [size_takeAt, length_broadcastOffsets]

end

/-! ## Operators -/

section

variable {a b t : Tensor}

theorem UnaryFunction.ensures_run (f : UnaryFunction) (h : t.Storable) :
    Ensures (f.run t) Tensor.Computed := by
  have numeric : ∀ f : (α : Type) → [Arith α] → α → α,
      Ensures (mapNumeric t f) Tensor.Computed := fun f =>
    Ensures.dispatchNumeric fun α _ _ _ => ensures_mapTensor h (f α)
  have real : ∀ f : (α : Type) → [RealOps α] → α → α, Ensures (mapReal t f) Tensor.Computed :=
    fun f => Ensures.dispatchReal fun α _ _ _ => ensures_mapTensor h (f α)
  cases f
  case abs => exact numeric _
  case neg => exact numeric _
  case relu => exact numeric _
  case sign => exact numeric _
  case not => exact ensures_mapTensor h Bool.not
  all_goals exact real _

theorem ensures_runClip {low high : Option Binary32} {inputs : Inputs} (h : inputs.Storable) :
    Ensures (runClip low high inputs) Tensor.Computed := by
  refine Ensures.bind (h.require 0) fun t ht => ?_
  refine Ensures.dispatchNumeric fun α _ _ _ => ?_
  exact Ensures.bind_any fun low => Ensures.bind_any fun high => ensures_mapTensor ht _

theorem BinaryFunction.ensures_numeric (ha : a.Storable) (hb : b.Storable)
    (f : (α : Type) → [Arith α] → α → α → Option α) :
    Ensures (numeric a b f) Tensor.Computed :=
  Ensures.dispatchNumeric fun α _ _ _ => ensures_binaryMap ha hb (f α)

theorem BinaryFunction.ensures_run (f : BinaryFunction) (ha : a.Storable) (hb : b.Storable) :
    Ensures (f.run a b) Tensor.Computed := by
  have compare : ∀ f : (α : Type) → [Arith α] → α → α → Bool,
      Ensures (compare a b f) Tensor.Computed := fun f =>
    Ensures.dispatchNumeric fun α _ _ _ =>
      ensures_binaryMap ha hb fun x y => (some (f α x y) : Option Bool)
  have logical : ∀ f, Ensures (logical a b f) Tensor.Computed := by
    intro f
    unfold BinaryFunction.logical
    split
    · exact ensures_binaryMap ha hb _
    · exact Ensures.error
  cases f with
  | pow =>
      refine Ensures.bind (P := Tensor.Storable) (Ensures.orFault fun b' hb' => ?_) fun b' hb' =>
        ensures_numeric ha hb' _
      exact Tensor.storable_of_cast? hb hb'
  | equal =>
      unfold BinaryFunction.run
      dsimp only
      split
      · exact logical _
      · exact compare _
  | add | sub | mul | div | mod truncated => exact ensures_numeric ha hb _
  | less | lessOrEqual | greater | greaterOrEqual => exact compare _
  | and | or | xor => exact logical _

theorem VariadicFunction.ensures_run (f : VariadicFunction) {inputs : Inputs}
    (h : inputs.Storable) : Ensures (f.run inputs) Tensor.Storable := by
  have step : ∀ a b : Tensor, a.Storable → b.Storable → Ensures (f.step a b) Tensor.Storable := by
    intro a b ha hb
    refine Ensures.mono (R := Tensor.Computed) ?_ fun _ h => h.storable
    cases f with
    | mean =>
        exact Ensures.dispatchReal fun α _ _ _ =>
          ensures_binaryMap ha hb fun x y => (some (RingOps.add x y) : Option α)
    | sum | max | min => exact BinaryFunction.ensures_numeric ha hb _
  have present := fun t => h.present (t := t)
  unfold VariadicFunction.run
  generalize Inputs.present inputs = ts at present
  cases ts with
  | nil => exact Ensures.error
  | cons first rest =>
      refine Ensures.bind (P := Tensor.Storable) ?_ fun total htotal => ?_
      · refine Ensures.foldlM (present first List.mem_cons_self) fun a b hb ha => ?_
        exact step a b ha (present b (List.mem_cons_of_mem _ hb))
      · cases f with
        | mean =>
            refine Ensures.bind (P := Tensor.Storable) (Ensures.orFault fun count hcount => ?_)
              fun count hcount => ?_
            · exact Tensor.storable_of_cast? (Tensor.computed_scalar _).storable hcount
            · refine Ensures.mono (R := Tensor.Computed) ?_ fun _ h => h.storable
              exact Ensures.dispatchReal fun α _ _ _ =>
                ensures_binaryMap htotal hcount fun x y => (some (RealOps.div x y) : Option α)
        | sum | max | min => exact Ensures.pure htotal

theorem ensures_runWhere (inputs : Inputs) : Ensures (runWhere inputs) Tensor.Computed := by
  refine Ensures.bind_any fun cond => Ensures.bind_any fun x => Ensures.bind_any fun y => ?_
  refine Ensures.bind_any fun shape => Ensures.bind_any fun chosen => ?_
  refine Ensures.dispatch fun α _ _ => ?_
  refine Ensures.bind_any fun xs => Ensures.bind_any fun ys => ?_
  refine Ensures.pure (Tensor.computed_ofArray ?_)
  simp only [List.size_toArray, List.length_map, List.length_zip, Array.length_toList, size_takeAt,
    length_broadcastOffsets, Nat.min_self]

end

/-! ## Elements -/

section

variable {α β : Type} [Element α] [LawfulElement α] [Element β] {a b : Tensor}

/-- Combine the elements of two tensors, both of which are broadcast, whether they have the same shape or
not. -/
def combineBroadcast (f : α → α → Option β) (a b : Tensor) : OpResult Tensor := do
  let shape ← orFault (.incompatibleShapes "cannot broadcast inputs")
    (broadcastShapes a.shape b.shape)
  let xs ← a.arrayOf α
  let ys ← b.arrayOf α
  let out := zipElements f (takeAt xs (broadcastOffsets a.shape shape))
    (takeAt ys (broadcastOffsets b.shape shape))
  return .ofArray shape (← orFault (.invalidValue "integer division by zero") out)

/-- Tensors of the same shape need not be broadcast. -/
theorem binaryMap_eq_combineBroadcast (ha : a.Counted) (hb : b.Counted) (f : α → α → Option β) :
    binaryMap f a b = combineBroadcast f a b := by
  unfold binaryMap combineBroadcast
  by_cases same : a.shape = b.shape
  · rw [same, broadcastShapes_self]
    cases hxs : a.array? α with
    | none => simp [Tensor.arrayOf, hxs, orFault, bind, Except.bind]
    | some xs =>
        cases hys : b.array? α with
        | none => simp [Tensor.arrayOf, hxs, hys, orFault, bind, Except.bind]
        | some ys =>
            have left : takeAt xs (broadcastOffsets b.shape b.shape) = xs := by
              exact takeAt_broadcastOffsets_self (same ▸ ha.size_of_array? hxs)
            have right : takeAt ys (broadcastOffsets b.shape b.shape) = ys := by
              exact takeAt_broadcastOffsets_self (hb.size_of_array? hys)
            simp [Tensor.arrayOf, hxs, hys, orFault, bind, Except.bind, left, right]
  · simp only [if_neg same]

end

/-! ## Dimensions -/

/-- Whether a dimension holds of a size, which is positive if it is given by an expression. -/
structure Dim.Sized (σ : String → Int) (d : Dim) (n : Nat) : Prop where
  holds : d.Holds σ n
  simplifies : d.Exact σ
  positive : ∀ e, d = .symbolic e → 0 < n

/-- Dimensions that hold are those of positive sizes if their expressions are positive. -/
theorem Dim.forall₂_sized {σ : String → Int} {dims : List Dim} {shape : List Nat}
    (h : AllHold σ dims shape)
    (exact_dims : ∀ d ∈ dims, d.Exact σ) (positive : ∀ e, symbolic e ∈ dims → 0 < e.eval σ) :
    List.Forall₂ (Sized σ) dims shape := by
  rw [allHold_iff] at h
  induction h with
  | nil => exact .nil
  | @cons d n dims shape first _ ih =>
      refine .cons ⟨first, exact_dims d List.mem_cons_self, ?_⟩ (ih ?_ ?_)
      · rintro e rfl
        have value : e.eval σ = n := first
        have size := positive e List.mem_cons_self
        omega
      · exact fun d' hd' => exact_dims d' (List.mem_cons_of_mem _ hd')
      · exact fun e he => positive e (List.mem_cons_of_mem _ he)

namespace SizesBroadcast

variable {m n k : Nat}

theorem eq_right (h : SizesBroadcast 1 n k) : k = n := by
  unfold SizesBroadcast at h
  omega

theorem eq_left (h : SizesBroadcast m 1 k) : k = m := by
  unfold SizesBroadcast at h
  omega

theorem eq_self (h : SizesBroadcast m m k) : k = m := by
  unfold SizesBroadcast at h
  omega

theorem eq_or_eq_one (h : SizesBroadcast m n k) : (m = 1 ∨ k = m) ∧ (n = 1 ∨ k = n) := by
  unfold SizesBroadcast at h
  omega

/-- Of two positive sizes the larger one is kept.  A size of 0 is kept against a size of 1. -/
theorem eq_max (h : SizesBroadcast m n k) (hm : 0 < m) (hn : 0 < n) : k = max m n := by
  unfold SizesBroadcast at h
  omega

end SizesBroadcast

section

variable {σ : String → Int} {d e : Dim} {m n k : Nat}

/-- Dimensions of sizes that broadcast do so too, and the result holds of the size of the result. -/
theorem holds_broadcastDim (sized_d : d.Sized σ m) (sized_e : e.Sized σ n)
    (h : SizesBroadcast m n k) : ∃ r, broadcastDim d e = .ok r ∧ r.Holds σ k := by
  obtain ⟨hd, exact_d, pos_d⟩ := sized_d
  obtain ⟨he, exact_e, pos_e⟩ := sized_e
  unfold broadcastDim
  by_cases same : d = e
  · subst same
    rw [if_pos rfl]
    refine ⟨d, rfl, ?_⟩
    by_cases known : d = .unknown
    · rw [known]
      trivial
    · obtain rfl := Dim.eq_of_holds known hd he
      rwa [h.eq_self]
  · rw [if_neg same]
    split
    · obtain rfl : 1 = m := hd
      exact ⟨e, rfl, by rwa [h.eq_right]⟩
    · obtain rfl : 1 = n := he
      exact ⟨d, rfl, by rwa [h.eq_left]⟩
    · rename_i p q p_ne q_ne
      obtain rfl : p = m := hd
      obtain rfl : q = n := he
      have sizes : p = q := by
        exact (h.eq_or_eq_one.1.resolve_left p_ne).symm.trans (h.eq_or_eq_one.2.resolve_left q_ne)
      exact absurd (congrArg Dim.fixed sizes) same
    · rename_i p p_ne _ _
      obtain rfl : p = m := hd
      exact ⟨.fixed p, rfl, (h.eq_or_eq_one.1.resolve_left p_ne).symm⟩
    · rename_i q q_ne _ _
      obtain rfl : q = n := he
      exact ⟨.fixed q, rfl, (h.eq_or_eq_one.2.resolve_left q_ne).symm⟩
    · rename_i x y
      have value : (x.larger y).eval σ = k := by
        rw [SizeExpr.eval_larger (exact_d x rfl) (exact_e y rfl), show x.eval σ = m from hd,
          show y.eval σ = n from he, h.eq_max (pos_d x rfl) (pos_e y rfl), Nat.cast_max]
      exact ⟨_, rfl, Dim.holds_ofExpr (SizeExpr.exact_simplify _) value⟩
    · exact ⟨.unknown, rfl, trivial⟩

/-- Positive sizes are needed: where one expression is 0 and the other 1, the size is 0, and what the
expressions broadcast to does not hold of it. -/
theorem not_holds_broadcastDim {x y : SizeExpr} (exact_x : x.Exact σ) (exact_y : y.Exact σ)
    (zero : x.eval σ = 0) (one : y.eval σ = 1) :
    SizesBroadcast 0 1 0 ∧ broadcastDim (.symbolic x) (.symbolic y) = .ok (.ofExpr (x.larger y)) ∧
      ¬ (Dim.ofExpr (x.larger y)).Holds σ 0 := by
  have differ : Dim.symbolic x ≠ .symbolic y := by
    intro same
    cases same
    omega
  have larger : (x.larger y).eval σ = 1 := by
    rw [SizeExpr.eval_larger exact_x exact_y, zero, one]
    rfl
  have exact_larger : (x.larger y).Exact σ := SizeExpr.exact_simplify _
  refine ⟨by simp [SizesBroadcast], ?_, fun holds => ?_⟩
  · unfold broadcastDim
    rw [if_neg differ]
  · have known : Dim.ofExpr (x.larger y) ≠ .unknown := Dim.ofExpr_ne_unknown exact_larger (by omega)
    have wrong : 0 = 1 := Dim.eq_of_holds known holds (Dim.holds_ofExpr exact_larger larger)
    cases wrong

/-- Sizes of dimensions that hold, with dimensions of size 1 in front. -/
def padSizes (rank : Nat) (shape : List Nat) : List Nat :=
  List.replicate (rank - shape.length) 1 ++ shape

theorem length_padSizes {rank : Nat} {shape : List Nat} (h : shape.length ≤ rank) :
    (padSizes rank shape).length = rank := by
  rw [padSizes, List.length_append, List.length_replicate, Nat.sub_add_cancel h]

/-- Counted from the right, a size stands at the same place before and after dimensions were added. -/
theorem getElem?_padSizes {rank i : Nat} {shape : List Nat} (h : shape.length ≤ rank)
    (hi : i < rank) : (padSizes rank shape)[i]? = some (fromRight shape (rank - 1 - i)) := by
  rw [padSizes, List.getElem?_append, List.length_replicate, fromRight,
    List.getD_eq_getElem?_getD]
  split
  · have missing : shape.reverse[rank - 1 - i]? = none := by
      rw [List.getElem?_eq_none_iff, List.length_reverse]
      omega
    rw [missing, List.getElem?_replicate_of_lt ‹_›]
    rfl
  · have bound : rank - 1 - i < shape.length := by omega
    have place : shape.length - 1 - (rank - 1 - i) = i - (rank - shape.length) := by omega
    rw [List.getElem?_reverse bound, place, List.getElem?_eq_getElem (by omega)]
    rfl

/-- The padded sizes broadcast one by one. -/
theorem forall₂_of_broadcastShapes {a b c : List Nat} (h : broadcastShapes a b = some c) :
    List.Forall₂ (fun p k => SizesBroadcast p.1 p.2 k)
      ((padSizes c.length a).zip (padSizes c.length b)) c := by
  obtain ⟨length, sizes⟩ := broadcastShapes_eq_some_iff.1 h
  have left : a.length ≤ c.length := by omega
  have right : b.length ≤ c.length := by omega
  rw [List.forall₂_iff_get]
  refine ⟨by simp [length_padSizes left, length_padSizes right], fun i h₁ h₂ => ?_⟩
  have itself : padSizes c.length c = c := by simp [padSizes]
  obtain ⟨_, at_a⟩ := List.getElem?_eq_some_iff.1 (getElem?_padSizes left h₂)
  obtain ⟨_, at_b⟩ := List.getElem?_eq_some_iff.1 (getElem?_padSizes right h₂)
  have at_c := getElem?_padSizes (le_refl c.length) h₂
  rw [itself, List.getElem?_eq_getElem h₂] at at_c
  simp only [List.get_eq_getElem, List.getElem_zip]
  rw [at_a, at_b, Option.some.inj at_c]
  exact sizes _

/-- Aligned dimensions broadcast one by one. -/
theorem allHold_broadcastAligned {ds es : List Dim} {a b c : List Nat}
    (hd : List.Forall₂ (Dim.Sized σ) ds a) (he : List.Forall₂ (Dim.Sized σ) es b)
    (length : a.length = b.length)
    (h : List.Forall₂ (fun p k => SizesBroadcast p.1 p.2 k) (a.zip b) c) :
    ∃ rs, broadcastAligned ds es = .ok rs ∧ Dim.AllHold σ rs c := by
  induction hd generalizing es b c with
  | nil =>
      cases h
      exact ⟨[], rfl, trivial⟩
  | @cons d m ds a first _ ih =>
      cases he with
      | nil => cases length
      | @cons e n es b first' rest' =>
          obtain ⟨k, c, sizes, others, rfl⟩ := List.forall₂_cons_left_iff.1 h
          obtain ⟨r, hr, holds⟩ := holds_broadcastDim first first' sizes
          obtain ⟨rs, hrs, all⟩ := ih rest' (Nat.succ.inj length) others
          refine ⟨r :: rs, ?_, holds, all⟩
          rw [broadcastAligned, hr, hrs]
          rfl

theorem sized_padDims {dims : List Dim} {shape : List Nat} (rank : Nat)
    (h : List.Forall₂ (Dim.Sized σ) dims shape) :
    List.Forall₂ (Dim.Sized σ) (padDims rank dims) (padSizes rank shape) := by
  have one : (Dim.fixed 1).Sized σ 1 := ⟨rfl, Dim.exact_fixed, nofun⟩
  rw [padDims, padSizes, h.length_eq]
  refine List.rel_append ?_ h
  induction rank - shape.length with
  | zero => exact .nil
  | succ k ih => exact .cons one ih

/-- Dimensions of shapes that broadcast do so too, and the result holds of the shape of the result. -/
theorem allHold_broadcastDims {ds es : List Dim} {a b c : List Nat}
    (hd : List.Forall₂ (Dim.Sized σ) ds a) (he : List.Forall₂ (Dim.Sized σ) es b)
    (h : broadcastShapes a b = some c) :
    ∃ rs, broadcastDims ds es = .ok rs ∧ Dim.AllHold σ rs c := by
  obtain ⟨length, -⟩ := broadcastShapes_eq_some_iff.1 h
  have rank : max ds.length es.length = c.length := by
    rw [hd.length_eq, he.length_eq, length]
  unfold broadcastDims
  dsimp only
  rw [rank]
  refine allHold_broadcastAligned (sized_padDims _ hd) (sized_padDims _ he) ?_
    (forall₂_of_broadcastShapes h)
  rw [length_padSizes (by omega), length_padSizes (by omega)]

end
/-! ## Three representations -/

/-- Broadcasting is commutative and associative as far as it is defined, and aligns sizes on the right.
Offsets stand in row-major order, and each is that of the element that an index reads.  Tensors of the
same shape are combined as all others are.  Dimensions broadcast wherever the sizes do, to dimensions that
hold of the result. -/
theorem broadcasting_agrees :
    (∀ a b : List Nat, broadcastShapes a b = broadcastShapes b a) ∧
    (∀ a b c : List Nat, ((broadcastShapes a b).bind fun s => broadcastShapes s c) =
      (broadcastShapes b c).bind fun s => broadcastShapes a s) ∧
    (∀ a b c : List Nat, broadcastShapes a b = some c ↔ c.length = max a.length b.length ∧
      ∀ i, SizesBroadcast (fromRight a i) (fromRight b i) (fromRight c i)) ∧
    (∀ a b out : List Nat, broadcastShapes a b = some out → ∀ shape ∈ [a, b],
      (broadcastOffsets shape out).length = elementCount out ∧
      ∀ index, List.Forall₂ (· < ·) index out →
        List.Forall₂ (· < ·) (sourceIndex shape index) shape ∧
        (broadcastOffsets shape out)[(offsetOf index ((strides out).map Nat.cast)).toNat]? =
          some (offsetOf (sourceIndex shape index) ((strides shape).map Nat.cast)).toNat ∧
        (offsetOf (sourceIndex shape index) ((strides shape).map Nat.cast)).toNat <
          elementCount shape) ∧
    (∀ (α β : Type) [Element α] [LawfulElement α] [Element β] (f : α → α → Option β) (a b : Tensor),
      a.Counted → b.Counted → binaryMap f a b = combineBroadcast f a b) ∧
    (∀ (σ : String → Int) (ds es : List Dim) (a b c : List Nat),
      List.Forall₂ (Dim.Sized σ) ds a → List.Forall₂ (Dim.Sized σ) es b →
        broadcastShapes a b = some c →
          ∃ rs, broadcastDims ds es = .ok rs ∧ Dim.AllHold σ rs c) := by
  refine ⟨broadcastShapes_comm, broadcastShapes_assoc, fun _ _ _ => broadcastShapes_eq_some_iff, ?_,
    fun _ _ _ _ _ f _ _ ha hb => binaryMap_eq_combineBroadcast ha hb f,
    fun _ _ _ _ _ _ hd he h => allHold_broadcastDims hd he h⟩
  intro a b out h shape hshape
  have repeated : Repeats shape out := by
    obtain ⟨left, right⟩ := repeats_of_broadcastShapes h
    simp only [List.mem_cons, List.not_mem_nil, or_false] at hshape
    rcases hshape with rfl | rfl
    · exact left
    · exact right
  refine ⟨length_broadcastOffsets shape out, fun index hindex => ?_⟩
  have mem : index ∈ indexes out := mem_indexes.2 hindex
  have source : sourceIndex shape index ∈ indexes shape := (repeated.sourceIndex mem).1
  exact ⟨mem_indexes.1 source, repeated.getElem?_broadcastOffsets mem, toNat_offsetOf_lt source⟩

/-- A column of a named length and a row of three: index `[1, 2]` of the result reads the second element
of the column. -/
theorem broadcasting_agrees_column_row :
    broadcastShapes [2, 1] [3] = some [2, 3] ∧
    (broadcastOffsets [2, 1] [2, 3])[5]? = some 1 ∧
    binaryMap (fun x y : Int64 => some (x + y)) (.vector (#[1, 2] : Array Int64))
      (.vector (#[3, 4] : Array Int64)) = .ok (.vector (#[4, 6] : Array Int64)) ∧
    (∃ rs, broadcastDims [.named "n", .fixed 1] [.fixed 3] = .ok rs ∧
      Dim.AllHold (fun _ => 2) rs [2, 3]) := by
  obtain ⟨_, _, rule, offsets, elements, dims⟩ := broadcasting_agrees
  have shapes : broadcastShapes [2, 1] [3] = some [2, 3] := by decide
  have counted : ∀ xs : Array Int64, (Tensor.vector xs).Counted := by
    exact fun xs => (Tensor.computed_vector xs).storable.counted
  refine ⟨shapes, ?_, ?_, ?_⟩
  · have reads := ((offsets _ _ _ shapes [2, 1] (by simp)).2 [1, 2] (by simp)).2.1
    exact reads
  · rw [elements Int64 Int64 _ _ _ (counted _) (counted _)]
    rfl
  · refine dims (fun _ => 2) _ _ [2, 1] [3] [2, 3] ?_ ?_ shapes
    · refine .cons ⟨rfl, ?_, ?_⟩ (.cons ⟨rfl, Dim.exact_fixed, nofun⟩ .nil)
      · rintro e ⟨⟩
        exact Or.inl (.var "n")
      · exact fun _ _ => by decide
    · exact .cons ⟨rfl, Dim.exact_fixed, nofun⟩ .nil

end TensorGraph
