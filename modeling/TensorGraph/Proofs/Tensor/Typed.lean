import TensorGraph.Operator.Layout
import TensorGraph.Proofs.Tensor.Counted

/-!
# Tensors of a type of elements

Input:

* a computation over the elements of a tensor, which is chosen by their type.

A tensor whose elements are asked for as an array of their type is this array with a shape
(`Tensor.array?_eq_some_iff`).  So a computation that succeeds has an array to work on, and the tensors that it
gives can be handed to the next computation of the same type.

Results:

* `ElementType.exists_typed_of_dispatch`: the type of elements that a computation was run with;
* `takeTensor_eq_ok_iff`: what is taken at some offsets.
-/

namespace TensorGraph

/-- Types of elements that are stored under their own type. -/
class TypedElement (α : Type) [Element α] : Prop extends LawfulElement α where
  elementType_wrap : ∀ xs : Array α, (Element.wrap xs).elementType = Element.type α
  unwrap?_eq_some_iff : ∀ (e : Elements) (xs : Array α),
    Element.unwrap? e = some xs ↔ e = Element.wrap xs
  dispatch_type : ∀ {β : Type} (f : (γ : Type) → [Element γ] → OpResult β),
    (Element.type α).dispatch f = f α

instance : TypedElement Binary32 where
  elementType_wrap _ := rfl
  unwrap?_eq_some_iff e xs := by cases e <;> simp [Element.unwrap?, Element.wrap]
  dispatch_type _ := rfl

instance : TypedElement Binary64 where
  elementType_wrap _ := rfl
  unwrap?_eq_some_iff e xs := by cases e <;> simp [Element.unwrap?, Element.wrap]
  dispatch_type _ := rfl

instance : TypedElement Int64 where
  elementType_wrap _ := rfl
  unwrap?_eq_some_iff e xs := by cases e <;> simp [Element.unwrap?, Element.wrap]
  dispatch_type _ := rfl

instance : TypedElement Int32 where
  elementType_wrap _ := rfl
  unwrap?_eq_some_iff e xs := by cases e <;> simp [Element.unwrap?, Element.wrap]
  dispatch_type _ := rfl

instance : TypedElement Int8 where
  elementType_wrap _ := rfl
  unwrap?_eq_some_iff e xs := by cases e <;> simp [Element.unwrap?, Element.wrap]
  dispatch_type _ := rfl

instance : TypedElement UInt8 where
  elementType_wrap _ := rfl
  unwrap?_eq_some_iff e xs := by cases e <;> simp [Element.unwrap?, Element.wrap]
  dispatch_type _ := rfl

instance : TypedElement Bool where
  elementType_wrap _ := rfl
  unwrap?_eq_some_iff e xs := by cases e <;> simp [Element.unwrap?, Element.wrap]
  dispatch_type _ := rfl

namespace ElementType

variable {β : Type} {type : ElementType} {u : β}

/-- A computation that succeeds was run with a type of elements. -/
theorem exists_typed_of_dispatch {f : (α : Type) → [Element α] → OpResult β}
    (h : type.dispatch f = .ok u) :
    ∃ (α : Type) (_ : Element α), TypedElement α ∧ type = Element.type α ∧ f α = .ok u := by
  cases type <;> first | exact ⟨_, _, inferInstance, rfl, h⟩ | cases h

theorem exists_typed_of_dispatchNumeric {f : (α : Type) → [Element α] → [Arith α] → OpResult β}
    (h : type.dispatchNumeric f = .ok u) :
    ∃ (α : Type) (_ : Element α) (_ : Arith α), TypedElement α ∧ type = Element.type α ∧
      f α = .ok u := by
  cases type <;> first | exact ⟨_, _, _, inferInstance, rfl, h⟩ | cases h

theorem exists_typed_of_dispatchReal {f : (α : Type) → [Element α] → [RealOps α] → OpResult β}
    (h : type.dispatchReal f = .ok u) :
    ∃ (α : Type) (_ : Element α) (_ : RealOps α), TypedElement α ∧ type = Element.type α ∧
      f α = .ok u := by
  cases type <;> first | exact ⟨_, _, _, inferInstance, rfl, h⟩ | cases h

end ElementType

section

variable {α : Type} [Element α] [TypedElement α] {t u : Tensor} {xs : Array α} {shape : List Nat}

namespace Tensor

@[simp] theorem array?_ofArray : (ofArray shape xs).array? α = some xs :=
  (TypedElement.unwrap?_eq_some_iff _ _).2 rfl

@[simp] theorem elementType_ofArray : (ofArray shape xs).elementType = Element.type α :=
  TypedElement.elementType_wrap xs

/-- A tensor with the elements asked for is the array of them, apart from where it was read from. -/
theorem array?_eq_some_iff :
    t.array? α = some xs ↔ { t with source := none } = ofArray t.shape xs := by
  refine (TypedElement.unwrap?_eq_some_iff _ _).trans ?_
  simp [ofArray]

theorem elementType_of_array?_eq_some (h : t.array? α = some xs) :
    t.elementType = Element.type α := by
  have elements : t.elements = Element.wrap xs := (TypedElement.unwrap?_eq_some_iff _ _).1 h
  rw [elementType, elements, TypedElement.elementType_wrap]

end Tensor

/-- The elements at some offsets of a tensor with the elements asked for. -/
theorem takeTensor_of_array? (h : t.array? α = some xs) (shape offsets : List Nat) :
    takeTensor t shape offsets = .ok (.ofArray shape (takeAt xs offsets)) := by
  have elements : t.arrayOf α = .ok xs := orFault_eq_ok_iff.2 h
  unfold takeTensor
  rw [Tensor.elementType_of_array?_eq_some h, TypedElement.dispatch_type, elements]
  rfl

end

/-- Elements are taken from an array of a type of elements. -/
theorem takeTensor_eq_ok_iff {t u : Tensor} {shape offsets : List Nat} :
    takeTensor t shape offsets = .ok u ↔
      ∃ (α : Type) (_ : Element α) (_ : TypedElement α) (xs : Array α), t.array? α = some xs ∧
        u = .ofArray shape (takeAt xs offsets) := by
  constructor
  · intro h
    obtain ⟨α, _, typed, -, h⟩ := ElementType.exists_typed_of_dispatch h
    obtain ⟨xs, hxs, h⟩ := bind_eq_ok_iff.1 h
    exact ⟨α, _, typed, xs, orFault_eq_ok_iff.1 hxs, (Except.ok.inj h).symm⟩
  · rintro ⟨α, _, typed, xs, hxs, rfl⟩
    exact takeTensor_of_array? hxs shape offsets

end TensorGraph
