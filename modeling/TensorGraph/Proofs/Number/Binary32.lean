import Mathlib
import TensorGraph.Number.Binary32
import TensorGraph.Proofs.Number.Binary64

/-!
# Parts of single-precision numbers

Input:

* a number of 32 bits: a sign, an exponent of 8 bits and a fraction of 23 bits.

Main results:

* `Binary32.parts_binary`: the parts of what an operation gives are those of the operation on the parts
  of its operands, rounded;
* `Binary32.add_comm_or_isNaN`: sums are the same in either order, but for which NaN they are;
* `Binary32.parts_of_widen_eq_zero` and `Binary32.eq_one_of_widen`: a number that is equal to zero or one
  in double precision is that number;
* `Binary32.widen_ofInt64`: integers up to 2 ^ 24 are the same in both precisions.
-/

namespace TensorGraph
namespace Binary32

open Float.Model (UnpackedFloat Format)
open Float.Model.UnpackedFloat

/-- Class, sign, mantissa and exponent of a number. -/
def parts (x : Binary32) : UnpackedFloat := unpack .binary32 x.bits.toBitVec

/-! ## Classes -/

theorem toNat_magnitude (x : Binary32) {s : Sign} {e : BitVec 8} {m : BitVec 23}
    (h : x.bits.toBitVec = packComponents .binary32 s e m) :
    x.magnitude.toNat = 2 ^ 23 * e.toNat + m.toNat := by
  have mask : x.magnitude.toNat = x.bits.toNat % 2 ^ 31 := by
    rw [magnitude, UInt32.toNat_and]
    exact Nat.and_two_pow_sub_one_eq_mod _ 31
  have bits : x.bits.toNat = 2 ^ 31 * s.toBitVec.toNat + (2 ^ 23 * e.toNat + m.toNat) :=
    (congrArg BitVec.toNat h).trans FloatFormat.toNat_packComponents
  have fraction := m.isLt
  have exponent := e.isLt
  omega

theorem isNaN_iff (x : Binary32) : x.isNaN = true ↔ x.parts = .notANumber := by
  obtain ⟨s, e, m, h⟩ := @FloatFormat.exists_packComponents .binary32 x.bits.toBitVec
  have large : x.isNaN = true ↔ 255 * 2 ^ 23 < x.magnitude.toNat := by
    simp [isNaN, UInt32.lt_iff_toNat_lt]
  rw [large, x.toNat_magnitude h, parts, h, FloatFormat.unpack_eq_notANumber_iff]
  change _ ↔ e.toNat = 255 ∧ m.toNat ≠ 0
  have fraction : m.toNat < 2 ^ 23 := m.isLt
  have exponent : e.toNat < 2 ^ 8 := e.isLt
  omega

/-- The machine float for a number has the parts of the number. -/
theorem unpack_toFloat (x : Binary32) : x.toFloat.toModel.unpack = x.parts := by
  change unpack .binary32 (pack .binary32 x.parts) = x.parts
  by_cases nan : x.parts = .notANumber
  · rw [nan]
    rfl
  · exact congrArg (unpack .binary32)
      (@FloatFormat.pack_unpack_of_ne .binary32 (by decide) x.bits.toBitVec nan)

theorem parts_ofFloat (r : Float32) : (ofFloat r).parts = r.toModel.unpack := rfl

theorem parts_result (r : Float32) : (result r).parts = r.toModel.unpack := by
  rw [result, ← parts_ofFloat]
  split_ifs with nan
  · exact ((isNaN_iff _).1 nan).symm ▸ rfl
  · rfl

theorem isNaN_quiet {x : Binary32} (h : x.isNaN = true) : x.quiet.isNaN = true := by
  have above : x.magnitude.toNat ≤ x.quiet.magnitude.toNat := by
    simp only [magnitude, quiet, UInt32.toNat_and, UInt32.toNat_or, Nat.and_or_distrib_right]
    exact Nat.left_le_or
  simp only [isNaN, UInt32.lt_iff_toNat_lt, decide_eq_true_eq] at h ⊢
  omega

/-- The parts of what an operation on numbers gives are those of the operation on their parts, rounded. -/
theorem parts_binary {f : Float32 → Float32 → Float32}
    {op : UnpackedFloat → UnpackedFloat → UnpackedFloat}
    (model : ∀ a b, f a b = ⟨.pack (op a.toModel.unpack b.toModel.unpack)⟩)
    (left : ∀ v, op .notANumber v = .notANumber) (right : ∀ u, op u .notANumber = .notANumber)
    (x y : Binary32) :
    (binary f x y).parts = unpack .binary32 (pack .binary32 (op x.parts y.parts)) := by
  have nowhere : unpack .binary32 (pack .binary32 .notANumber) = .notANumber := rfl
  rw [binary]
  split_ifs with hx hy
  · rw [(isNaN_iff _).1 hx, left, nowhere, (isNaN_iff _).1 (isNaN_quiet hx)]
  · rw [(isNaN_iff _).1 hy, right, nowhere, (isNaN_iff _).1 (isNaN_quiet hy)]
  · rw [parts_result, model, unpack_toFloat, unpack_toFloat]
    rfl

theorem eq_eq (x y : Binary32) : x.eq y = x.parts.beq y.parts := by
  rw [← x.unpack_toFloat, ← y.unpack_toFloat]
  rfl

theorem le_eq (x y : Binary32) : Binary32.le x y = x.parts.le y.parts := by
  rw [← x.unpack_toFloat, ← y.unpack_toFloat, Bool.eq_iff_iff, Binary32.le, decide_eq_true_iff]
  exact decide_eq_true_iff

/-! ## Sums -/

theorem add_comm {x y : Binary32} (hx : x.isNaN = false) (hy : y.isNaN = false) :
    x.add y = y.add x := by
  have sum : x.toFloat + y.toFloat = y.toFloat + x.toFloat :=
    congrArg (fun u => (⟨.pack u⟩ : Float32)) (FloatFormat.add_comm _ _)
  simp [add, binary, hx, hy, sum]

/-- A sum is the same in either order, or it is a NaN in both. -/
theorem add_comm_or_isNaN (x y : Binary32) :
    x.add y = y.add x ∨ (x.add y).isNaN = true ∧ (y.add x).isNaN = true := by
  by_cases hx : x.isNaN = true
  · refine .inr ?_
    by_cases hy : y.isNaN = true
    · simp only [add, binary, hx, hy, if_true]
      exact ⟨isNaN_quiet hx, isNaN_quiet hy⟩
    · simp only [add, binary, hx, hy, if_true]
      exact ⟨isNaN_quiet hx, isNaN_quiet hx⟩
  · by_cases hy : y.isNaN = true
    · simp only [add, binary, hx, hy, if_true]
      exact .inr ⟨isNaN_quiet hy, isNaN_quiet hy⟩
    · exact .inl (add_comm (Bool.eq_false_iff.2 hx) (Bool.eq_false_iff.2 hy))

/-! ## Widening -/

theorem widenMagnitude_spec {e f : UInt64} (he : e.toNat < 2 ^ 8) (hf : f.toNat < 2 ^ 23) :
    (widenMagnitude e f).toNat < 2 ^ 63 ∧
      ((widenMagnitude e f).toNat = 0 → e.toNat = 0 ∧ f.toNat = 0) ∧
      ((widenMagnitude e f).toNat = 1023 * 2 ^ 52 → e.toNat = 127 ∧ f.toNat = 0) ∧
      (e.toNat ≠ 0 → e.toNat ≠ 255 →
        (widenMagnitude e f).toNat = (e.toNat + 896) * 2 ^ 52 + f.toNat * 2 ^ 29) := by
  rw [widenMagnitude]
  split_ifs with large normal empty
  · simp [large]
  · have exponent : e.toNat ≠ 0 := fun h => normal (UInt64.toNat_inj.1 h)
    have value : (((e + 896) <<< 52) + (f <<< 29)).toNat =
        (e.toNat + 896) * 2 ^ 52 + f.toNat * 2 ^ 29 := by
      simp [Nat.shiftLeft_eq]
      omega
    omega
  · have exponent : e.toNat = 0 := UInt64.toNat_inj.2 (not_not.1 normal)
    simp [exponent, empty]
  · have exponent : e.toNat = 0 := UInt64.toNat_inj.2 (not_not.1 normal)
    have fraction : f.toNat ≠ 0 := fun h => empty (UInt64.toNat_inj.1 h)
    obtain ⟨low, high⟩ := (Nat.log2_eq_iff fraction).1 rfl
    have top : f.toNat.log2 < 23 := (Nat.log2_lt fraction).2 hf
    -- The highest bit of the fraction takes the place of the bit that normal numbers leave out.
    have lead : 2 ^ 52 ≤ f.toNat * 2 ^ (52 - f.toNat.log2) ∧
        f.toNat * 2 ^ (52 - f.toNat.log2) < 2 ^ 53 := by
      have lowest := Nat.mul_le_mul_right (2 ^ (52 - f.toNat.log2)) low
      have highest := Nat.mul_lt_mul_of_pos_right high (Nat.two_pow_pos (52 - f.toNat.log2))
      rw [← Nat.pow_add] at lowest highest
      rw [show f.toNat.log2 + (52 - f.toNat.log2) = 52 by omega] at lowest
      rw [show f.toNat.log2 + 1 + (52 - f.toNat.log2) = 53 by omega] at highest
      exact ⟨lowest, highest⟩
    have value : (((f.log2 + 873) <<< 52) + (f <<< (52 - f.log2))).toNat =
        (f.toNat.log2 + 873) * 2 ^ 52 + f.toNat * 2 ^ (52 - f.toNat.log2) := by
      have exponent : f.log2.toNat = f.toNat.log2 := rfl
      have amount : (52 - f.log2).toNat = 52 - f.toNat.log2 := by
        rw [UInt64.toNat_sub_of_le, exponent]
        · rfl
        · rw [UInt64.le_iff_toNat_le, exponent]
          exact (show f.toNat.log2 ≤ 52 by omega)
      rw [UInt64.toNat_add, UInt64.toNat_shiftLeft, UInt64.toNat_shiftLeft, amount, UInt64.toNat_add,
        exponent, Nat.shiftLeft_eq, Nat.shiftLeft_eq,
        Nat.mod_eq_of_lt (show 52 - f.toNat.log2 < 64 by omega)]
      simp
      omega
    omega

/-- What the bits of a number in double precision are. -/
theorem exists_toNat_widen {x : Binary32} (nan : x.isNaN = false) :
    ∃ s ≤ 1, ∃ e < 2 ^ 8, ∃ f < 2 ^ 23, ∃ m < 2 ^ 63,
      x.bits.toNat = 2 ^ 31 * s + (2 ^ 23 * e + f) ∧ x.widen.bits.toNat = 2 ^ 63 * s + m ∧
      (m = 0 → e = 0 ∧ f = 0) ∧ (m = 1023 * 2 ^ 52 → e = 127 ∧ f = 0) ∧
      (e ≠ 0 → e ≠ 255 → m = (e + 896) * 2 ^ 52 + f * 2 ^ 29) := by
  have bits := x.bits.toNat_lt
  have magnitude : x.magnitude.toNat = x.bits.toNat % 2 ^ 31 := by
    rw [magnitude, UInt32.toNat_and]
    exact Nat.and_two_pow_sub_one_eq_mod _ 31
  have fraction : x.fraction.toUInt64.toNat = x.bits.toNat % 2 ^ 23 := by
    rw [UInt32.toNat_toUInt64, fraction, UInt32.toNat_and]
    exact Nat.and_two_pow_sub_one_eq_mod _ 23
  have exponent : (x.magnitude >>> 23).toUInt64.toNat = x.bits.toNat % 2 ^ 31 / 2 ^ 23 := by
    simp [magnitude, Nat.shiftRight_eq_div_pow]
  have sign : ((x.bits >>> 31).toUInt64 <<< 63).toNat = 2 ^ 63 * (x.bits.toNat / 2 ^ 31) := by
    simp [Nat.shiftRight_eq_div_pow, Nat.shiftLeft_eq]
    omega
  obtain ⟨small, zero, one, normal⟩ := widenMagnitude_spec (e := (x.magnitude >>> 23).toUInt64)
    (f := x.fraction.toUInt64) (by rw [exponent]; omega) (by rw [fraction]; omega)
  refine ⟨x.bits.toNat / 2 ^ 31, by omega, x.bits.toNat % 2 ^ 31 / 2 ^ 23, by omega,
    x.bits.toNat % 2 ^ 23, by omega, _, small, by omega, ?_, ?_, ?_, ?_⟩
  · simp only [widen, nan, Bool.false_eq_true, if_false, UInt64.toNat_add, sign]
    omega
  · rwa [← exponent, ← fraction]
  · rwa [← exponent, ← fraction]
  · rwa [← exponent, ← fraction]

theorem isNaN_widen {x : Binary32} (h : x.isNaN = true) : x.widen.isNaN = true := by
  have above : 0x7ff8000000000000 ≤ x.widen.magnitude.toNat := by
    simp only [widen, h, if_true, Binary64.magnitude, UInt64.toNat_and, UInt64.toNat_or,
      Nat.and_or_distrib_right]
    exact Nat.right_le_or.trans Nat.left_le_or
  simp only [Binary64.isNaN, UInt64.lt_iff_toNat_lt, decide_eq_true_eq]
  exact lt_of_lt_of_le (by decide) above

theorem isNaN_of_eq {x : Binary32} {y : Binary64} (h : x.widen.eq y = true) : x.isNaN = false := by
  rw [← Bool.not_eq_true]
  intro nan
  rw [Binary64.eq_eq, (Binary64.isNaN_iff _).1 (isNaN_widen nan)] at h
  cases h

/-- A number that is zero in double precision is a zero. -/
theorem parts_of_widen_eq_zero {x : Binary32} (h : x.widen.eq .zero = true) :
    ∃ s, x.parts = .zero s := by
  obtain ⟨b, hb, e, he, f, hf, m, hm, hx, hw, zero, -⟩ := exists_toNat_widen (isNaN_of_eq h)
  have wide := Binary64.magnitude_of_eq_zero h
  rw [Binary64.magnitude, UInt64.toNat_and, hw] at wide
  have empty := (Nat.and_two_pow_sub_one_eq_mod _ 63).symm.trans wide
  obtain ⟨rfl, rfl⟩ := zero (by omega)
  obtain ⟨s, e', m', components⟩ := @FloatFormat.exists_packComponents .binary32 x.bits.toBitVec
  have bits : x.bits.toNat = 2 ^ 31 * s.toBitVec.toNat + (2 ^ 23 * e'.toNat + m'.toNat) :=
    (congrArg BitVec.toNat components).trans FloatFormat.toNat_packComponents
  have fraction : m'.toNat < 2 ^ 23 := m'.isLt
  have exponent : e'.toNat < 2 ^ 8 := e'.isLt
  rw [parts, components, FloatFormat.unpack_eq_zero_iff]
  omega

/-- A number that is one in double precision is one. -/
theorem eq_one_of_widen {x : Binary32} (h : x.widen.eq .one = true) : x = .one := by
  obtain ⟨b, hb, e, he, f, hf, m, hm, hx, hw, -, one, -⟩ := exists_toNat_widen (isNaN_of_eq h)
  rw [Binary64.eq_one_of_eq h] at hw
  have word : 0x3ff0000000000000 = 2 ^ 63 * b + m := hw
  obtain ⟨rfl, rfl⟩ := one (by omega)
  have bits : x.bits = 0x3f800000 :=
    UInt32.toNat_inj.1 (hx.trans (show _ = 0x3f800000 by omega))
  exact congrArg Binary32.mk bits

/-! ## Integers -/

theorem isNaN_eq_false_of_lt {x : Binary32} (h : x.bits.toNat < 0x7f800000) : x.isNaN = false := by
  have magnitude : x.magnitude.toNat ≤ x.bits.toNat := by
    rw [magnitude, UInt32.toNat_and]
    exact Nat.and_le_left
  rw [isNaN, decide_eq_false_iff_not, UInt32.lt_iff_toNat_lt]
  exact not_lt.2 (magnitude.trans h.le)

/-- The bits of a positive integer that single precision can hold. -/
theorem toNat_bits_ofInt64 {n k : Nat} (positive : 0 < n) (few : 23 = n.log2 + k) :
    (ofInt64 (.ofNat n)).bits.toNat + 2 ^ 23 = 2 ^ 23 * (127 + n.log2) + n * 2 ^ k := by
  have small : n < 2 ^ 24 := (Nat.log2_lt positive.ne').1 (by omega)
  obtain ⟨nonneg, value⟩ := Binary64.toUInt64_ofNat (show n < 2 ^ 63 by omega)
  rw [ofInt64, if_neg nonneg]
  have bits : (ofFloat (Int64.ofNat n).toUInt64.toFloat32).bits.toBitVec = pack .binary32
      (UnpackedFloat.normalize .binary32 ((Int64.ofNat n).toUInt64.toNat : Int) 0 .positive) := rfl
  rw [value, Binary64.normalize_natCast _ positive] at bits
  have packed := @FloatFormat.toNat_pack_round_integer .binary32 (by decide) n k positive few
    (show 127 + n.log2 + 1 < 2 ^ 8 by omega)
  rw [← bits] at packed
  exact packed

/-- Single precision holds all integers from 0 to 2 ^ 24, so they are the same in double precision. -/
theorem widen_ofInt64 {n : Nat} (h : n ≤ 2 ^ 24) :
    (ofInt64 (.ofNat n)).widen = Binary64.ofInt64 (.ofNat n) := by
  rcases Nat.eq_zero_or_pos n with rfl | positive
  · decide +kernel
  rcases h.eq_or_lt with rfl | h
  · decide +kernel
  have log : n.log2 < 24 := (Nat.log2_lt positive.ne').2 h
  obtain ⟨low, high⟩ := (Nat.log2_eq_iff positive.ne').1 rfl
  obtain ⟨k, few⟩ := Nat.exists_eq_add_of_le (show n.log2 ≤ 23 by omega)
  have single := toNat_bits_ofInt64 positive few
  have double := Binary64.toNat_bits_ofInt64 (k := k + 29) positive (by omega)
  rw [Nat.pow_add, ← Nat.mul_assoc] at double
  have lowest := Nat.mul_le_mul_right (2 ^ k) low
  have highest := Nat.mul_lt_mul_of_pos_right high (Nat.two_pow_pos k)
  rw [← Nat.pow_add, ← few] at lowest
  rw [← Nat.pow_add, show n.log2 + 1 + k = 24 by omega] at highest
  have nan : (ofInt64 (.ofNat n)).isNaN = false := by
    refine isNaN_eq_false_of_lt ?_
    have bound : 2 ^ 23 * (127 + n.log2) ≤ 2 ^ 23 * 150 := Nat.mul_le_mul_left _ (by omega)
    omega
  obtain ⟨s, hs, e, he, f, hf, m, hm, hx, hw, -, -, normal⟩ := exists_toNat_widen nan
  generalize n * 2 ^ k = mantissa at *
  have exponent : s = 0 ∧ e = 127 + n.log2 ∧ f + 2 ^ 23 = mantissa := by omega
  obtain ⟨rfl, rfl, hf'⟩ := exponent
  have wide := normal (by omega) (by omega)
  have bits : (ofInt64 (.ofNat n)).widen.bits.toNat = (Binary64.ofInt64 (.ofNat n)).bits.toNat := by
    omega
  exact congrArg Binary64.mk (UInt64.toNat_inj.1 bits)

end Binary32
end TensorGraph
