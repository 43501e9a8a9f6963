import Mathlib.Algebra.BigOperators.Group.List.Basic
import TensorGraph.Operator.Fault
import TensorGraph.Proofs.Storage.Storable
import TensorGraph.Tensor.Index

/-!
# Tensors with as many elements as their shape says

Input:

* tensors that can be stored, and computations on them that may fail.

Results:

* what a computation gives has a property when each of its steps keeps one (`Ensures`);
* the number of indexes, offsets and elements that a shape has;
* arrays, casts and other shapes of storable tensors are storable.
-/

namespace TensorGraph

/-! ## Computations that may fail -/

/-- Whether the result of a computation has a property, if there is one. -/
def Ensures {ε α : Type} (r : Except ε α) (P : α → Prop) : Prop := ∀ x, r = .ok x → P x

/-- What is seen of a result is seen of a success. -/
theorem exists_ok_of_toOption {ε α β : Type} {r : Except ε α} {f : α → β} {y : β}
    (h : r.toOption.map f = some y) : ∃ x, r = .ok x ∧ f x = y := by
  cases r with
  | error e => cases h
  | ok x => exact ⟨x, rfl, Option.some.inj h⟩

namespace Ensures

variable {ε ε' α β : Type} {P : α → Prop} {Q : β → Prop}

theorem ok {x : α} (h : P x) : Ensures (.ok x : Except ε α) P := by
  rintro y ⟨⟩
  exact h

theorem pure {x : α} (h : P x) : Ensures (Pure.pure x : Except ε α) P := ok h

theorem error {e : ε} : Ensures (.error e : Except ε α) P := by
  rintro y ⟨⟩

theorem mono {R : α → Prop} {r : Except ε α} (h : Ensures r R) (imp : ∀ x, R x → P x) :
    Ensures r P :=
  fun x hx => imp x (h x hx)

theorem bind {r : Except ε α} {f : α → Except ε β} (h : Ensures r P)
    (next : ∀ x, P x → Ensures (f x) Q) : Ensures (r >>= f) Q := by
  intro y hy
  cases r with
  | error e => cases hy
  | ok x => exact next x (h x rfl) y hy

/-- Nothing needs to be known of the first result. -/
theorem bind_any {r : Except ε α} {f : α → Except ε β} (next : ∀ x, Ensures (f x) Q) :
    Ensures (r >>= f) Q :=
  bind (P := fun _ => True) (fun _ _ => trivial) fun x _ => next x

theorem ite {c : Prop} [Decidable c] {r r' : Except ε α} (pos : c → Ensures r P)
    (neg : ¬ c → Ensures r' P) : Ensures (if c then r else r') P := by
  split
  · exact pos ‹_›
  · exact neg ‹_›

theorem map {r : Except ε α} {f : α → β} (h : Ensures r fun x => Q (f x)) :
    Ensures (r.map f) Q := by
  intro y hy
  cases r with
  | error e => cases hy
  | ok x =>
      cases hy
      exact h x rfl

theorem mapError {r : Except ε α} {f : ε → ε'} (h : Ensures r P) : Ensures (r.mapError f) P := by
  intro y hy
  cases r with
  | error e => cases hy
  | ok x =>
      cases hy
      exact h _ rfl

theorem foldlM {l : List β} {f : α → β → Except ε α} {x : α} (first : P x)
    (step : ∀ x y, y ∈ l → P x → Ensures (f x y) P) : Ensures (l.foldlM f x) P := by
  induction l generalizing x with
  | nil => exact ok first
  | cons y rest ih =>
      rw [List.foldlM_cons]
      exact bind (step x y List.mem_cons_self first) fun x' hx' =>
        ih hx' fun x z hz => step x z (List.mem_cons_of_mem _ hz)

theorem forall₂_mapM {R : β → α → Prop} {l : List β} {f : β → Except ε α}
    (each : ∀ y ∈ l, Ensures (f y) (R y)) : Ensures (l.mapM f) (List.Forall₂ R l) := by
  induction l with
  | nil => exact ok .nil
  | cons y rest ih =>
      rw [List.mapM_cons]
      refine bind (each y List.mem_cons_self) fun x hx => ?_
      exact bind (ih fun z hz => each z (List.mem_cons_of_mem _ hz)) fun xs hxs =>
        pure (.cons hx hxs)

theorem mapM {l : List β} {f : β → Except ε α} (each : ∀ y ∈ l, Ensures (f y) P) :
    Ensures (l.mapM f) fun xs => ∀ x ∈ xs, P x := by
  refine (forall₂_mapM (R := fun _ => P) each).mono fun xs hxs => ?_
  induction hxs with
  | nil => simp
  | cons hx _ ih =>
      intro z hz
      rcases List.mem_cons.1 hz with rfl | hz
      · exact hx
      · exact ih (fun y hy => each y (List.mem_cons_of_mem _ hy)) z hz

theorem orFault {fault : OpFault} {o : Option α} (h : ∀ x, o = some x → P x) :
    Ensures (TensorGraph.orFault fault o) P := by
  cases o with
  | none => exact error
  | some x => exact ok (h x rfl)

end Ensures

theorem bind_eq_ok_iff {ε α β : Type} {r : Except ε α} {f : α → Except ε β} {u : β} :
    (r >>= f) = .ok u ↔ ∃ x, r = .ok x ∧ f x = .ok u := by
  cases r <;> simp [bind, Except.bind]

theorem bind_of_eq_ok {ε α β : Type} {r : Except ε α} {x : α} (h : r = .ok x) (f : α → Except ε β) :
    (r >>= f) = f x := by
  rw [h]
  rfl

theorem map_eq_ok_iff {ε α β : Type} {f : α → β} {r : Except ε α} {y : β} :
    f <$> r = .ok y ↔ ∃ x, r = .ok x ∧ f x = y := by
  cases r <;> simp [Functor.map, Except.map]

theorem mapError_eq_ok_iff {ε ε' α : Type} {f : ε → ε'} {r : Except ε α} {x : α} :
    r.mapError f = .ok x ↔ r = .ok x := by
  cases r <;> simp [Except.mapError]

theorem mapM_eq_ok_iff {ε α β : Type} {f : α → Except ε β} {l : List α} {l' : List β} :
    l.mapM f = .ok l' ↔ List.Forall₂ (fun a b => f a = .ok b) l l' := by
  induction l generalizing l' with
  | nil => simp [pure, Except.pure, eq_comm]
  | cons a rest ih =>
      rw [List.mapM_cons, List.forall₂_cons_left_iff]
      cases hf : f a with
      | error e => simp [bind, Except.bind]
      | ok b =>
          simp only [← ih]
          cases hr : rest.mapM f with
          | error e => simp [bind, Except.bind]
          | ok bs => simp [bind, Except.bind, pure, Except.pure, eq_comm]

theorem orFault_eq_ok_iff {α : Type} {fault : OpFault} {o : Option α} {x : α} :
    orFault fault o = .ok x ↔ o = some x := by
  cases o <;> simp [orFault]

theorem forall₂_of_mapM_eq_some {α β : Type} {f : α → Option β} {l : List α} {xs : List β}
    (h : l.mapM f = some xs) : List.Forall₂ (fun a x => f a = some x) l xs := by
  induction l generalizing xs with
  | nil =>
      cases h
      exact .nil
  | cons a rest ih =>
      rw [List.mapM_cons] at h
      obtain ⟨x, hx, h⟩ := Option.bind_eq_some_iff.1 h
      obtain ⟨xs', hxs', h⟩ := Option.bind_eq_some_iff.1 h
      cases h
      exact .cons hx (ih hxs')

theorem length_of_mapM_eq_some {α β : Type} {f : α → Option β} {l : List α} {xs : List β}
    (h : l.mapM f = some xs) : xs.length = l.length :=
  (forall₂_of_mapM_eq_some h).length_eq.symm

/-- Related lists have related members at each place. -/
theorem rel_getElem? {α β : Type} {S : α → β → Prop} {l : List α} {l' : List β}
    (all : List.Forall₂ S l l') (i : Nat) : Option.Rel S l[i]? l'[i]? := by
  induction all generalizing i with
  | nil => exact .none
  | cons first _ ih =>
      cases i with
      | zero => exact .some first
      | succ i => exact ih i

/-! ## Element types -/

/-- Whether arrays of elements keep their size when they are stored by type. -/
class LawfulElement (α : Type) [Element α] : Prop where
  count_wrap : ∀ xs : Array α, (Element.wrap xs).count = xs.size
  isEvaluable_wrap : ∀ xs : Array α, (Element.wrap xs).isEvaluable = true
  of_unwrap? : ∀ (e : Elements) (xs : Array α), Element.unwrap? e = some xs →
    e.count = xs.size ∧ e.isEvaluable = true

instance : LawfulElement Binary32 where
  count_wrap _ := rfl
  isEvaluable_wrap _ := rfl
  of_unwrap? e xs h := by
    cases e <;> cases h
    exact ⟨rfl, rfl⟩

instance : LawfulElement Binary64 where
  count_wrap _ := rfl
  isEvaluable_wrap _ := rfl
  of_unwrap? e xs h := by
    cases e <;> cases h
    exact ⟨rfl, rfl⟩

instance : LawfulElement Int64 where
  count_wrap _ := rfl
  isEvaluable_wrap _ := rfl
  of_unwrap? e xs h := by
    cases e <;> cases h
    exact ⟨rfl, rfl⟩

instance : LawfulElement Int32 where
  count_wrap _ := rfl
  isEvaluable_wrap _ := rfl
  of_unwrap? e xs h := by
    cases e <;> cases h
    exact ⟨rfl, rfl⟩

instance : LawfulElement Int8 where
  count_wrap _ := rfl
  isEvaluable_wrap _ := rfl
  of_unwrap? e xs h := by
    cases e <;> cases h
    exact ⟨rfl, rfl⟩

instance : LawfulElement UInt8 where
  count_wrap _ := rfl
  isEvaluable_wrap _ := rfl
  of_unwrap? e xs h := by
    cases e <;> cases h
    exact ⟨rfl, rfl⟩

instance : LawfulElement Bool where
  count_wrap _ := rfl
  isEvaluable_wrap _ := rfl
  of_unwrap? e xs h := by
    cases e <;> cases h
    exact ⟨rfl, rfl⟩

namespace Ensures

variable {β : Type} {Q : β → Prop} {t : ElementType}

theorem dispatch {f : (α : Type) → [Element α] → OpResult β}
    (h : ∀ (α : Type) [Element α] [LawfulElement α], Ensures (f α) Q) :
    Ensures (t.dispatch f) Q := by
  cases t <;> first | exact h _ | exact error

theorem dispatchNumeric {f : (α : Type) → [Element α] → [Arith α] → OpResult β}
    (h : ∀ (α : Type) [Element α] [Arith α] [LawfulElement α], Ensures (f α) Q) :
    Ensures (t.dispatchNumeric f) Q := by
  cases t <;> first | exact h _ | exact error

theorem dispatchReal {f : (α : Type) → [Element α] → [RealOps α] → OpResult β}
    (h : ∀ (α : Type) [Element α] [RealOps α] [LawfulElement α], Ensures (f α) Q) :
    Ensures (t.dispatchReal f) Q := by
  cases t <;> first | exact h _ | exact error

end Ensures

/-! ## Shapes -/

theorem elementCount_eq_prod (shape : List Nat) : elementCount shape = shape.prod := by
  rw [elementCount, List.prod_eq_foldl]

theorem elementCount_append (as bs : List Nat) :
    elementCount (as ++ bs) = elementCount as * elementCount bs := by
  simp only [elementCount_eq_prod, List.prod_append]

theorem elementCount_cons (n : Nat) (rest : List Nat) :
    elementCount (n :: rest) = n * elementCount rest := by
  simp only [elementCount_eq_prod, List.prod_cons]

@[simp] theorem elementCount_nil : elementCount [] = 1 := rfl

theorem elementCount_take_drop (shape : List Nat) (i : Nat) :
    elementCount (shape.take i) * elementCount (shape.drop i) = elementCount shape := by
  rw [← elementCount_append, List.take_append_drop]

/-- An axis divides the elements into those before, at and after it. -/
theorem elementCount_set {shape : List Nat} {axis : Nat} (h : axis < shape.length) (n : Nat) :
    elementCount (shape.set axis n) =
      elementCount (shape.take axis) * (n * elementCount (shape.drop (axis + 1))) := by
  rw [List.set_eq_take_append_cons_drop, if_pos h, elementCount_append, elementCount_cons]

theorem elementCount_split {shape : List Nat} {axis : Nat} (h : axis < shape.length) (d : Nat) :
    elementCount (shape.take axis) *
      (shape.getD axis d * elementCount (shape.drop (axis + 1))) = elementCount shape := by
  rw [← elementCount_set h, List.getD_eq_getElem?_getD, List.getElem?_eq_getElem h, Option.getD_some,
    List.set_getElem_self]

theorem ensures_resolveAxis (rank : Nat) (axis : Int) :
    Ensures (resolveAxis rank axis) fun i => i < rank := by
  refine Ensures.orFault fun i hi => ?_
  unfold resolveAxis? at hi
  dsimp only at hi
  generalize (if axis < 0 then axis + rank else axis) = resolved at hi
  split at hi
  · cases hi
  · cases hi
    omega

/-- Lists of equal length are put together. -/
theorem length_flatMap_of_length {α β : Type} {l : List α} {f : α → List β} {k : Nat}
    (h : ∀ a ∈ l, (f a).length = k) : (l.flatMap f).length = l.length * k := by
  induction l with
  | nil => simp
  | cons a rest ih =>
      rw [List.flatMap_cons, List.length_append, h a List.mem_cons_self,
        ih fun b hb => h b (List.mem_cons_of_mem _ hb), List.length_cons, Nat.succ_mul, Nat.add_comm]

/-- Lists of the same length that are put together can be taken apart again. -/
theorem take_drop_flatMap {α β : Type} {f : α → List β} {size : Nat} {l : List α}
    (h : ∀ a ∈ l, (f a).length = size) {i : Nat} {a : α} (hi : l[i]? = some a) :
    ((l.flatMap f).drop (i * size)).take size = f a := by
  induction l generalizing i with
  | nil => cases hi
  | cons b rest ih =>
      have first := h b List.mem_cons_self
      rw [List.flatMap_cons]
      cases i with
      | zero =>
          cases hi
          rw [Nat.zero_mul, List.drop_zero, ← first, List.take_left']
          rfl
      | succ i =>
          rw [Nat.succ_mul, Nat.add_comm, ← List.drop_drop, ← first, List.drop_left', first]
          · exact ih (fun c hc => h c (List.mem_cons_of_mem _ hc)) hi
          · rfl

/-- The element at a place of one of the lists that are put together. -/
theorem getElem?_flatMap_of_length {α β : Type} {f : α → List β} {size : Nat} {l : List α}
    (h : ∀ a ∈ l, (f a).length = size) {i : Nat} {a : α} (hi : l[i]? = some a) {k : Nat}
    (hk : k < size) : (l.flatMap f)[i * size + k]? = (f a)[k]? := by
  rw [← take_drop_flatMap h hi, List.getElem?_take_of_lt hk, List.getElem?_drop]

theorem length_indexes (shape : List Nat) : (indexes shape).length = elementCount shape := by
  induction shape with
  | nil => rfl
  | cons n rest ih =>
      rw [indexes, length_flatMap_of_length (k := elementCount rest), List.length_range,
        elementCount_cons]
      intro i _
      rw [List.length_map, ih]

theorem length_stridedOffsets (shape : List Nat) (steps : List Int) (base : Int) :
    (stridedOffsets shape steps base).length = elementCount shape := by
  rw [stridedOffsets, List.length_map, length_indexes]

theorem length_broadcastOffsets (shape out : List Nat) :
    (broadcastOffsets shape out).length = elementCount out :=
  length_stridedOffsets ..

theorem size_takeAt {α : Type} [Inhabited α] (xs : Array α) (offsets : List Nat) :
    (takeAt xs offsets).size = offsets.length := by
  simp [takeAt]

/-! ## Storable tensors -/

namespace Tensor

variable {t : Tensor} {α : Type} [Element α] [LawfulElement α]

/-- A message is read as the tensor of its shape with the elements that are stored in the file.  The
elements of a tensor that is stored elsewhere are not available. -/
theorem ofMessage_eq_ok_iff {m : Message.Tensor} :
    ofMessage m = .ok t ↔ t.source = some m ∧ storedShape m.dims = some t.shape ∧
      ∃ type, ElementType.ofCode? (m.dataType.getD Message.TypeCode.undefined) = some type ∧
        (m.dataLocation = some Message.externalLocation ∧ t.elements = .opaqueOf type ∨
          m.dataLocation ≠ some Message.externalLocation ∧
            storedElements type m = some t.elements ∧ t.Counted) := by
  unfold ofMessage
  dsimp only
  constructor
  · intro h
    split at h
    · cases h
    · rename_i shape hshape
      split at h
      · cases h
      · rename_i type htype
        split at h
        · rename_i external
          cases h
          exact ⟨rfl, hshape, type, htype, Or.inl ⟨external, rfl⟩⟩
        · rename_i inside
          split at h
          · cases h
          · rename_i elements he
            split at h
            · cases h
            · rename_i miscounted
              cases h
              refine ⟨rfl, hshape, type, htype, Or.inr ⟨inside, he, fun evaluable => ?_⟩⟩
              have evaluable' : elements.isEvaluable = true := evaluable
              simpa [evaluable'] using miscounted
  · rintro ⟨source, hshape, type, htype, stored⟩
    obtain ⟨shape, elements, source⟩ := t
    cases source
    simp only [hshape, htype]
    rcases stored with ⟨external, he⟩ | ⟨inside, he, counted⟩
    · rw [if_pos external, show elements = _ from he]
    · have fits : ¬ (elements.isEvaluable && elements.count != elementCount shape) = true := by
        rw [Bool.and_eq_true, bne_iff_ne]
        exact fun ⟨evaluable, miscounted⟩ => miscounted (counted evaluable)
      simp only [if_neg inside, he, if_neg fits]

/-- A tensor that was read has as many elements as its shape says. -/
theorem counted_of_ofMessage {m : Message.Tensor} (h : ofMessage m = .ok t) : t.Counted := by
  obtain ⟨-, -, type, -, ⟨-, elements⟩ | ⟨-, -, counted⟩⟩ := ofMessage_eq_ok_iff.1 h
  · intro evaluable
    rw [isEvaluable, elements] at evaluable
    cases evaluable
  · exact counted

/-- A tensor that was read keeps its message. -/
theorem source_of_ofMessage {m : Message.Tensor} (h : ofMessage m = .ok t) : t.source = some m :=
  (ofMessage_eq_ok_iff.1 h).1

/-- A tensor that was read is written as it was read, but for its name. -/
theorem toMessage_of_ofMessage {m : Message.Tensor} (h : ofMessage m = .ok t) (name : Option String) :
    t.toMessage name = { m with name := name } := by
  unfold toMessage
  rw [source_of_ofMessage h]

theorem Storable.counted (h : t.Storable) : t.Counted := by
  rcases h with h | ⟨m, -, -, h⟩
  · exact fun _ => h.count
  · exact counted_of_ofMessage h

theorem computed_ofArray {shape : List Nat} {xs : Array α} (h : xs.size = elementCount shape) :
    (ofArray shape xs).Computed :=
  ⟨rfl, LawfulElement.isEvaluable_wrap xs, (LawfulElement.count_wrap xs).trans h⟩

theorem computed_scalar (x : α) : (scalar x).Computed := computed_ofArray rfl

theorem computed_vector (xs : Array α) : (vector xs).Computed :=
  computed_ofArray (by rw [elementCount_cons, elementCount_nil, Nat.mul_one])

theorem Computed.storable (h : t.Computed) : t.Storable := Or.inl h

/-- The elements of a tensor that has as many as its shape says. -/
theorem Counted.size_of_array? (h : t.Counted) {xs : Array α} (hxs : t.array? α = some xs) :
    xs.size = elementCount t.shape := by
  obtain ⟨count, evaluable⟩ := LawfulElement.of_unwrap? t.elements xs hxs
  rw [← count, h evaluable]

theorem size_of_array? (h : t.Storable) {xs : Array α} (hxs : t.array? α = some xs) :
    xs.size = elementCount t.shape :=
  h.counted.size_of_array? hxs

theorem ensures_arrayOf (h : t.Storable) :
    Ensures (t.arrayOf α) fun xs => xs.size = elementCount t.shape :=
  Ensures.orFault fun _ => size_of_array? h

theorem Counted.size_of_int64s? {xs : Array Int64} (h : t.Counted) (hxs : t.int64s? = some xs) :
    xs.size = elementCount t.shape := by
  unfold Counted isEvaluable at h
  unfold int64s? at hxs
  generalize t.elements = e at hxs h
  cases e <;> cases hxs <;> simpa [Elements.isEvaluable, Elements.count] using h

/-- A tensor has as many integers as its shape says. -/
theorem Counted.length_of_intList (h : t.Counted) {vs : List Int} (hvs : t.intList = .ok vs) :
    vs.length = elementCount t.shape := by
  have each : Ensures t.intList fun vs => vs.length = elementCount t.shape := by
    refine Ensures.map (Ensures.orFault fun xs hxs => ?_)
    rw [List.length_map, Array.length_toList, h.size_of_int64s? hxs]
  exact each vs hvs

theorem ensures_intList (h : t.Storable) :
    Ensures t.intList fun vs => vs.length = elementCount t.shape :=
  fun _ => h.counted.length_of_intList

theorem computed_of_ofElements? {shape : List Nat} {e : Elements} (evaluable : e.isEvaluable = true)
    (h : ofElements? shape e = some t) : t.Computed := by
  unfold ofElements? at h
  split at h
  · rename_i hcount
    cases h
    exact ⟨rfl, evaluable, hcount.symm⟩
  · cases h

theorem computed_of_ofInt64s? {type : ElementType} {shape : List Nat} {xs : Array Int64}
    (h : ofInt64s? type shape xs = some t) : t.Computed := by
  obtain ⟨e, he, h⟩ := Option.bind_eq_some_iff.1 h
  refine computed_of_ofElements? ?_ h
  cases type <;> cases he <;> rfl

theorem computed_of_ofBinary64s? {type : ElementType} {shape : List Nat} {xs : Array Binary64}
    (h : ofBinary64s? type shape xs = some t) : t.Computed := by
  obtain ⟨e, he, h⟩ := Option.bind_eq_some_iff.1 h
  refine computed_of_ofElements? ?_ h
  cases type <;> cases he <;> rfl

theorem computed_of_zeros? {type : ElementType} {shape : List Nat} (h : zeros? type shape = some t) :
    t.Computed :=
  computed_of_ofBinary64s? h

theorem storable_of_cast? {t' : Tensor} {type : ElementType} (h : t.Storable)
    (hcast : t.cast? type = some t') : t'.Storable := by
  unfold cast? at hcast
  split at hcast
  · cases hcast
    exact h
  · split at hcast
    · obtain ⟨xs, -, hcast⟩ := Option.bind_eq_some_iff.1 hcast
      exact (computed_of_ofBinary64s? hcast).storable
    · obtain ⟨xs, -, hcast⟩ := Option.bind_eq_some_iff.1 hcast
      exact (computed_of_ofInt64s? hcast).storable

theorem computed_of_reshaped? {t' : Tensor} {shape : List Nat} (h : t.Storable)
    (hshape : t.reshaped? shape = some t') : t'.Computed := by
  unfold reshaped? at hshape
  split at hshape
  · rename_i hcond
    cases hshape
    exact ⟨rfl, hcond.2, (h.counted hcond.2).trans hcond.1.symm⟩
  · cases hshape

end Tensor

/-! ## Inputs -/

namespace Inputs

/-- Whether all inputs that are there can be stored. -/
def Storable (inputs : Inputs) : Prop := ∀ t, some t ∈ inputs → t.Storable

variable {inputs : Inputs}

theorem Storable.get? (h : Storable inputs) {i : Nat} {t : Tensor}
    (ht : Inputs.get? inputs i = some t) : t.Storable := by
  refine h t ?_
  unfold Inputs.get? at ht
  cases hi : inputs[i]? with
  | none => simp [hi] at ht
  | some o =>
      rw [hi] at ht
      cases ht
      exact List.mem_of_getElem? hi

theorem Storable.require (h : Storable inputs) (i : Nat) :
    Ensures (Inputs.require inputs i) Tensor.Storable :=
  Ensures.orFault fun _ ht => h.get? ht

theorem Storable.present (h : Storable inputs) {t : Tensor} (ht : t ∈ Inputs.present inputs) :
    t.Storable := by
  obtain ⟨o, ho, rfl⟩ := List.mem_filterMap.1 ht
  exact h t ho

end Inputs
end TensorGraph
