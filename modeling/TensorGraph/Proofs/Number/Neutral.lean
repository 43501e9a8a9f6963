import TensorGraph.Proofs.Number.Binary32
import TensorGraph.Tensor.Basic

/-!
# Neutral elements

Input:

* an element, and a constant of its type that is equal to zero or one as a number.

The sum with a zero, the product with a one and the quotient by a one are the same number as the
element (`NeutralLaws`).  For integers that is the element itself.  For floating-point numbers it is an
equal one, since the sum of two zeros may have another sign, and a NaN is made quiet: their laws follow
from those of the parts of numbers (`PackedFloat`).
-/

namespace TensorGraph

open Float.Model (UnpackedFloat Format)
open Float.Model.UnpackedFloat

/-- Whether two elements are the same number: they are equal, or neither is equal to itself, as it is
with NaN. -/
def SameNumber {α : Type} [Arith α] (x y : α) : Prop :=
  Arith.eq x y = true ∨ Arith.eq x x = false ∧ Arith.eq y y = false

/-! ## Floating-point numbers -/

/-- Types of floating-point numbers: the parts of what an operation gives are those of the operation on
the parts of its operands, rounded. -/
class PackedFloat (α : Type) [Arith α] where
  format : Format
  wide : 1 < format.exponentBits
  bits : α → BitVec format.numBits
  eq_eq : ∀ x y, Arith.eq x y = (unpack format (bits x)).beq (unpack format (bits y))
  add_eq : ∀ x y, unpack format (bits (RingOps.add x y)) =
    unpack format (pack format (.add format (unpack format (bits x)) (unpack format (bits y))))
  sub_eq : ∀ x y, unpack format (bits (RingOps.sub x y)) =
    unpack format (pack format (.sub format (unpack format (bits x)) (unpack format (bits y))))
  mul_eq : ∀ x y, unpack format (bits (RingOps.mul x y)) =
    unpack format (pack format (.mul format (unpack format (bits x)) (unpack format (bits y))))
  div_eq : ∀ x y z, Arith.div? x y = some z → unpack format (bits z) =
    unpack format (pack format (.div format (unpack format (bits x)) (unpack format (bits y))))

namespace PackedFloat

variable {α : Type} [Arith α] [PackedFloat α] {x y c z : α} {t : Sign}

/-- Class, sign, mantissa and exponent of a number. -/
def parts (x : α) : UnpackedFloat := unpack (format α) (bits x)

theorem repack_parts (x : α) : unpack (format α) (pack (format α) (parts x)) = parts x :=
  FloatFormat.unpack_pack_unpack wide (bits x)

theorem canonical_parts (x : α) : FloatFormat.Canonical (format α) (parts x) :=
  FloatFormat.canonical_unpack _

/-- Numbers whose parts have the same value are the same. -/
theorem sameNumber_of_parts (h : FloatFormat.SameValue (parts x) (parts y)) : SameNumber x y := by
  rcases h with h | ⟨hx, hy⟩
  · exact .inl ((eq_eq x y).trans h)
  · refine .inr ⟨?_, ?_⟩
    · rw [eq_eq, ← parts, hx]
      rfl
    · rw [eq_eq, ← parts, hy]
      rfl

/-- A result is the same number as an operand if its parts are, before they are rounded again, or if
both are zeros. -/
theorem sameNumber_of_repacked {u : UnpackedFloat}
    (hz : parts z = unpack (format α) (pack (format α) u))
    (h : u = parts x ∨ ∃ s s', parts x = .zero s ∧ u = .zero s') : SameNumber z x := by
  apply sameNumber_of_parts
  rw [hz]
  rcases h with rfl | ⟨s, s', hx, rfl⟩
  · rw [repack_parts]
    exact .refl _
  · rw [hx]
    exact .inl (by rw [pack, FloatFormat.unpack_packedZero]; rfl)

theorem sameNumber_add_zero (hc : parts c = .zero t) (x : α) : SameNumber (RingOps.add x c) x :=
  sameNumber_of_repacked (add_eq x c) (by rw [← parts, ← parts, hc]; exact FloatFormat.add_zero_eq)

theorem sameNumber_zero_add (hc : parts c = .zero t) (x : α) : SameNumber (RingOps.add c x) x :=
  sameNumber_of_repacked (add_eq c x) (by rw [← parts, ← parts, hc]; exact FloatFormat.zero_add_eq)

theorem sameNumber_sub_zero (hc : parts c = .zero t) (x : α) : SameNumber (RingOps.sub x c) x :=
  sameNumber_of_repacked (sub_eq x c) (by rw [← parts, ← parts, hc]; exact FloatFormat.sub_zero_eq)

theorem sameNumber_mul_one (hc : parts c = FloatFormat.unit (format α)) (x : α) :
    SameNumber (RingOps.mul x c) x :=
  sameNumber_of_repacked (mul_eq x c)
    (.inl (by rw [← parts, ← parts, hc]; exact FloatFormat.mul_unit (canonical_parts x)))

theorem sameNumber_one_mul (hc : parts c = FloatFormat.unit (format α)) (x : α) :
    SameNumber (RingOps.mul c x) x :=
  sameNumber_of_repacked (mul_eq c x)
    (.inl (by rw [← parts, ← parts, hc]; exact FloatFormat.unit_mul (canonical_parts x)))

theorem sameNumber_div_one (hc : parts c = FloatFormat.unit (format α))
    (h : Arith.div? x c = some z) : SameNumber z x :=
  sameNumber_of_repacked (div_eq x c z h)
    (.inl (by rw [← parts, ← parts, hc]; exact FloatFormat.div_unit (canonical_parts x)))

end PackedFloat

instance : PackedFloat Binary64 where
  format := .binary64
  wide := by decide
  bits x := x.bits.toBitVec
  eq_eq := Binary64.eq_eq
  add_eq := Binary64.parts_binary (fun _ _ => rfl) (fun _ => rfl) fun u => by cases u <;> rfl
  sub_eq := Binary64.parts_binary (fun _ _ => rfl) (fun _ => rfl) fun u => by cases u <;> rfl
  mul_eq := Binary64.parts_binary (fun _ _ => rfl) (fun _ => rfl) fun u => by cases u <;> rfl
  div_eq x y z h := by
    cases h
    exact Binary64.parts_binary (fun _ _ => rfl) (fun _ => rfl) (fun u => by cases u <;> rfl) x y

instance : PackedFloat Binary32 where
  format := .binary32
  wide := by decide
  bits x := x.bits.toBitVec
  eq_eq := Binary32.eq_eq
  add_eq := Binary32.parts_binary (fun _ _ => rfl) (fun _ => rfl) fun u => by cases u <;> rfl
  sub_eq := Binary32.parts_binary (fun _ _ => rfl) (fun _ => rfl) fun u => by cases u <;> rfl
  mul_eq := Binary32.parts_binary (fun _ _ => rfl) (fun _ => rfl) fun u => by cases u <;> rfl
  div_eq x y z h := by
    cases h
    exact Binary32.parts_binary (fun _ _ => rfl) (fun _ => rfl) (fun u => by cases u <;> rfl) x y

/-! ## Laws -/

/-- Whether a constant that is equal to a number changes nothing as the second operand. -/
def RightNeutral {α : Type} [Element α] [Arith α] (f : α → α → Option α) (number : Binary64) :
    Prop :=
  ∀ c, (Element.toBinary64 c).eq number = true → ∀ x z, f x c = some z → SameNumber z x

/-- An integer that changes nothing is neutral, if no other one is equal to the same number. -/
theorem RightNeutral.of_eq {α : Type} [Element α] [Arith α] {f : α → α → Option α}
    {number : Binary64} {e : α} (eq_self : ∀ x : α, Arith.eq x x = true)
    (only : ∀ c, (Element.toBinary64 c).eq number = true → c = e) (law : ∀ x, f x e = some x) :
    RightNeutral f number := by
  intro c hc x z h
  rw [only c hc, law] at h
  exact Option.some.inj h ▸ .inl (eq_self x)

/-- Whether a constant that is equal to a number changes nothing as the first operand. -/
def LeftNeutral {α : Type} [Element α] [Arith α] (f : α → α → Option α) (number : Binary64) :
    Prop :=
  RightNeutral (fun x c => f c x) number

/-- Types of numbers in which zero and one are neutral. -/
class NeutralLaws (α : Type) [Element α] [Arith α] : Prop where
  add_right : RightNeutral (fun x y : α => some (RingOps.add x y)) .zero
  add_left : LeftNeutral (fun x y : α => some (RingOps.add x y)) .zero
  sub_right : RightNeutral (fun x y : α => some (RingOps.sub x y)) .zero
  mul_right : RightNeutral (fun x y : α => some (RingOps.mul x y)) .one
  mul_left : LeftNeutral (fun x y : α => some (RingOps.mul x y)) .one
  div_right : RightNeutral (Arith.div? : α → α → Option α) .one

namespace NeutralLaws

section

variable {α : Type} [Element α] [Arith α]

/-- The laws of floating-point numbers. -/
theorem of_packedFloat [PackedFloat α]
    (zero : ∀ c : α, (Element.toBinary64 c).eq .zero = true → ∃ t, PackedFloat.parts c = .zero t)
    (one : ∀ c : α, (Element.toBinary64 c).eq .one = true →
      PackedFloat.parts c = FloatFormat.unit (PackedFloat.format α)) : NeutralLaws α where
  add_right c hc x z h := by
    obtain ⟨t, ht⟩ := zero c hc
    exact Option.some.inj h ▸ PackedFloat.sameNumber_add_zero ht x
  add_left c hc x z h := by
    obtain ⟨t, ht⟩ := zero c hc
    exact Option.some.inj h ▸ PackedFloat.sameNumber_zero_add ht x
  sub_right c hc x z h := by
    obtain ⟨t, ht⟩ := zero c hc
    exact Option.some.inj h ▸ PackedFloat.sameNumber_sub_zero ht x
  mul_right c hc x z h := Option.some.inj h ▸ PackedFloat.sameNumber_mul_one (one c hc) x
  mul_left c hc x z h := Option.some.inj h ▸ PackedFloat.sameNumber_one_mul (one c hc) x
  div_right c hc x z h := PackedFloat.sameNumber_div_one (one c hc) h

/-- The laws of integers. -/
theorem of_integer (eq_self : ∀ x : α, Arith.eq x x = true)
    (zero : ∀ c : α, (Element.toBinary64 c).eq .zero = true → c = RingOps.zero)
    (one : ∀ c : α, (Element.toBinary64 c).eq .one = true → c = RingOps.one)
    (add_zero : ∀ x : α, RingOps.add x RingOps.zero = x)
    (zero_add : ∀ x : α, RingOps.add RingOps.zero x = x)
    (sub_zero : ∀ x : α, RingOps.sub x RingOps.zero = x)
    (mul_one : ∀ x : α, RingOps.mul x RingOps.one = x)
    (one_mul : ∀ x : α, RingOps.mul RingOps.one x = x)
    (div_one : ∀ x : α, Arith.div? x RingOps.one = some x) : NeutralLaws α where
  add_right := .of_eq eq_self zero fun x => congrArg some (add_zero x)
  add_left := .of_eq eq_self zero fun x => congrArg some (zero_add x)
  sub_right := .of_eq eq_self zero fun x => congrArg some (sub_zero x)
  mul_right := .of_eq eq_self one fun x => congrArg some (mul_one x)
  mul_left := .of_eq eq_self one fun x => congrArg some (one_mul x)
  div_right := .of_eq eq_self one div_one

end

instance : NeutralLaws Binary64 :=
  of_packedFloat (fun _ => Binary64.parts_of_eq_zero) fun _ h =>
    congrArg PackedFloat.parts (Binary64.eq_one_of_eq h)

instance : NeutralLaws Binary32 :=
  of_packedFloat (fun _ => Binary32.parts_of_widen_eq_zero) fun _ h =>
    congrArg PackedFloat.parts (Binary32.eq_one_of_widen h)

instance : NeutralLaws Int64 :=
  of_integer beq_self_eq_true (fun _ => Binary64.eq_zero_of_ofInt64)
    (fun _ => Binary64.eq_one_of_ofInt64) Int64.add_zero Int64.zero_add Int64.sub_zero Int64.mul_one
    Int64.one_mul fun _ => congrArg some Int64.div_one

theorem int32_toInt64_injective {x y : Int32} (h : x.toInt64 = y.toInt64) : x = y :=
  Int32.toInt_inj.1 (by simpa using congrArg Int64.toInt h)

theorem int8_toInt64_injective {x y : Int8} (h : x.toInt64 = y.toInt64) : x = y :=
  Int8.toInt_inj.1 (by simpa using congrArg Int64.toInt h)

instance : NeutralLaws Int32 :=
  of_integer beq_self_eq_true
    (fun _ h => int32_toInt64_injective (Binary64.eq_zero_of_ofInt64 h))
    (fun _ h => int32_toInt64_injective (Binary64.eq_one_of_ofInt64 h)) Int32.add_zero Int32.zero_add
    Int32.sub_zero Int32.mul_one Int32.one_mul fun _ => congrArg some Int32.div_one

instance : NeutralLaws Int8 :=
  of_integer beq_self_eq_true
    (fun _ h => int8_toInt64_injective (Binary64.eq_zero_of_ofInt64 h))
    (fun _ h => int8_toInt64_injective (Binary64.eq_one_of_ofInt64 h)) Int8.add_zero Int8.zero_add
    Int8.sub_zero Int8.mul_one Int8.one_mul fun _ => congrArg some Int8.div_one

instance : NeutralLaws UInt8 :=
  of_integer beq_self_eq_true
    (fun _ h => UInt8.toUInt64_inj.1 (congrArg Int64.toUInt64 (Binary64.eq_zero_of_ofInt64 h)))
    (fun _ h => UInt8.toUInt64_inj.1 (congrArg Int64.toUInt64 (Binary64.eq_one_of_ofInt64 h)))
    UInt8.add_zero UInt8.zero_add UInt8.sub_zero UInt8.mul_one UInt8.one_mul
    fun _ => congrArg some UInt8.div_one

end NeutralLaws
end TensorGraph
