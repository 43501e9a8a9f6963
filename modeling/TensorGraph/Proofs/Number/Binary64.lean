import Mathlib
import TensorGraph.Number.Binary64
import TensorGraph.Proofs.Number.Format

/-!
# Parts of double-precision numbers

Input:

* a number of 64 bits: a sign, an exponent of 11 bits and a fraction of 52 bits.

Algorithm:

* a machine float has the same parts as the number that it was made from
  (`Binary64.unpack_toFloat`), so an operation on numbers is the operation on their parts, rounded
  and packed again (`Binary64.parts_binary`).

Main results:

* `Binary64.eq_zero_of_ofInt64`, `Binary64.eq_one_of_ofInt64`: an integer that is equal to zero or one
  as a number is zero or one;
* `Binary64.le_zero_iff`: what it means for a number to be at least zero;
* `Binary64.isNonneg_abs`, `Binary64.isNonneg_add`, `Binary64.isNonneg_mul`: a number without its
  sign, sums, and finite products are at least zero;
* `Binary64.sub_same`: a number that is neither a NaN nor infinite, taken from itself, gives zero.
-/

namespace TensorGraph
namespace Binary64

open Float.Model (UnpackedFloat Format totalExponent)
open Float.Model.UnpackedFloat

/-! ## Bits and their parts -/

section Packing

variable (s : Sign) (e : BitVec 11) (m : BitVec 52)

/-- The bits with a given sign, exponent and fraction. -/
def compose (s : Sign) (e : BitVec 11) (m : BitVec 52) : BitVec 64 :=
  packComponents .binary64 s e m

theorem exists_compose (b : BitVec 64) : ∃ s e m, b = compose s e m :=
  @FloatFormat.exists_packComponents .binary64 b

theorem toNat_compose :
    (compose s e m).toNat = 2 ^ 63 * s.toBitVec.toNat + (2 ^ 52 * e.toNat + m.toNat) :=
  @FloatFormat.toNat_packComponents .binary64 s e m

theorem unpack_compose_eq_notANumber_iff :
    unpack .binary64 (compose s e m) = .notANumber ↔ e.toNat = 2047 ∧ m.toNat ≠ 0 :=
  @FloatFormat.unpack_eq_notANumber_iff .binary64 s e m

theorem unpack_compose_eq_infinity_iff :
    (∃ t, unpack .binary64 (compose s e m) = .infinity t) ↔ e.toNat = 2047 ∧ m.toNat = 0 :=
  @FloatFormat.unpack_eq_infinity_iff .binary64 s e m

/-- A number that is not a NaN is packed into the bits that it was read from. -/
theorem pack_unpack (b : BitVec 64) (h : unpack .binary64 b ≠ .notANumber) :
    pack .binary64 (unpack .binary64 b) = b :=
  @FloatFormat.pack_unpack_of_ne .binary64 (by decide) b h

end Packing

/-! ## Classes -/

/-- Class, sign, mantissa and exponent of a number. -/
def parts (x : Binary64) : UnpackedFloat := unpack .binary64 x.bits.toBitVec

/-- Whether a number is one of the two infinities. -/
def isInfinite (x : Binary64) : Bool := x.magnitude = 0x7ff0000000000000

theorem toNat_magnitude (x : Binary64) {s : Sign} {e : BitVec 11} {m : BitVec 52}
    (h : x.bits.toBitVec = compose s e m) :
    x.magnitude.toNat = 2 ^ 52 * e.toNat + m.toNat := by
  have mask : x.magnitude.toNat = x.bits.toNat % 2 ^ 63 := by
    rw [magnitude, UInt64.toNat_and]
    exact Nat.and_two_pow_sub_one_eq_mod _ 63
  have bits : x.bits.toNat = _ := (congrArg BitVec.toNat h).trans (toNat_compose s e m)
  have fraction := m.isLt
  have exponent := e.isLt
  omega

theorem isNaN_iff (x : Binary64) : x.isNaN = true ↔ x.parts = .notANumber := by
  obtain ⟨s, e, m, h⟩ := exists_compose x.bits.toBitVec
  have large : x.isNaN = true ↔ 2047 * 2 ^ 52 < x.magnitude.toNat := by
    simp [isNaN, UInt64.lt_iff_toNat_lt]
  rw [large, x.toNat_magnitude h, parts, h, unpack_compose_eq_notANumber_iff]
  have fraction := m.isLt
  have exponent := e.isLt
  omega

theorem isInfinite_iff (x : Binary64) : x.isInfinite = true ↔ ∃ s, x.parts = .infinity s := by
  obtain ⟨s, e, m, h⟩ := exists_compose x.bits.toBitVec
  have large : x.isInfinite = true ↔ x.magnitude.toNat = 2047 * 2 ^ 52 := by
    simp [isInfinite, ← UInt64.toNat_inj]
  rw [large, x.toNat_magnitude h, parts, h, unpack_compose_eq_infinity_iff]
  have fraction := m.isLt
  have exponent := e.isLt
  omega

theorem isFinite_parts {x : Binary64} (nan : x.isNaN = false) (infinite : x.isInfinite = false) :
    x.parts.isFinite = true := by
  cases h : x.parts with
  | notANumber => simp [x.isNaN_iff.2 h] at nan
  | infinity s => simp [x.isInfinite_iff.2 ⟨s, h⟩] at infinite
  | zero s => rfl
  | finite s m e positive => rfl

/-- The machine float for a number has the parts of the number. -/
theorem unpack_toFloat (x : Binary64) : x.toFloat.toModel.unpack = x.parts := by
  change unpack .binary64 (pack .binary64 x.parts) = x.parts
  by_cases nan : x.parts = .notANumber
  · rw [nan]
    rfl
  · exact congrArg (unpack .binary64) (pack_unpack x.bits.toBitVec nan)

/-! ## Parts of results -/

theorem parts_ofFloat (r : Float) : (ofFloat r).parts = r.toModel.unpack := rfl

theorem parts_result (r : Float) : (result r).parts = r.toModel.unpack := by
  rw [result, ← parts_ofFloat]
  split_ifs with nan
  · exact ((isNaN_iff _).1 nan).symm ▸ rfl
  · rfl

theorem isNaN_quiet {x : Binary64} (h : x.isNaN = true) : x.quiet.isNaN = true := by
  have above : x.magnitude.toNat ≤ x.quiet.magnitude.toNat := by
    simp only [magnitude, quiet, UInt64.toNat_and, UInt64.toNat_or, Nat.and_or_distrib_right]
    exact Nat.left_le_or
  simp only [isNaN, UInt64.lt_iff_toNat_lt, decide_eq_true_eq] at h ⊢
  omega

/-- The parts of what an operation on numbers gives are those of the operation on their parts, rounded. -/
theorem parts_binary {f : Float → Float → Float}
    {op : UnpackedFloat → UnpackedFloat → UnpackedFloat}
    (model : ∀ a b, f a b = ⟨.pack (op a.toModel.unpack b.toModel.unpack)⟩)
    (left : ∀ v, op .notANumber v = .notANumber) (right : ∀ u, op u .notANumber = .notANumber)
    (x y : Binary64) :
    (binary f x y).parts = unpack .binary64 (pack .binary64 (op x.parts y.parts)) := by
  have nowhere : unpack .binary64 (pack .binary64 .notANumber) = .notANumber := rfl
  rw [binary]
  split_ifs with hx hy
  · rw [(isNaN_iff _).1 hx, left, nowhere, (isNaN_iff _).1 (isNaN_quiet hx)]
  · rw [(isNaN_iff _).1 hy, right, nowhere, (isNaN_iff _).1 (isNaN_quiet hy)]
  · rw [parts_result, model, unpack_toFloat, unpack_toFloat]
    rfl

theorem eq_eq (x y : Binary64) : x.eq y = x.parts.beq y.parts := by
  rw [← x.unpack_toFloat, ← y.unpack_toFloat]
  rfl

/-- Only zeros are equal to zero. -/
theorem parts_of_eq_zero {x : Binary64} (h : x.eq .zero = true) : ∃ s, x.parts = .zero s := by
  rw [eq_eq] at h
  exact FloatFormat.eq_zero_of_beq h

theorem magnitude_of_eq_zero {x : Binary64} (h : x.eq .zero = true) : x.magnitude.toNat = 0 := by
  obtain ⟨s, e, m, components⟩ := exists_compose x.bits.toBitVec
  have zero := parts_of_eq_zero h
  rw [parts, components] at zero
  obtain ⟨exponent, fraction⟩ := FloatFormat.unpack_eq_zero_iff.1 zero
  rw [x.toNat_magnitude components, exponent, fraction, Nat.mul_zero]

theorem parts_one : one.parts = FloatFormat.unit .binary64 := rfl

theorem eq_of_parts_eq {x y : Binary64} (h : x.parts = y.parts) (nan : y.parts ≠ .notANumber) :
    x = y := by
  have nan' : x.parts ≠ .notANumber := h ▸ nan
  have bits : pack .binary64 x.parts = pack .binary64 y.parts := congrArg _ h
  rw [parts, parts, pack_unpack _ nan', pack_unpack _ nan] at bits
  obtain ⟨⟨_⟩⟩ := x
  obtain ⟨⟨_⟩⟩ := y
  cases bits
  rfl

/-- Only one is equal to one. -/
theorem eq_one_of_eq {x : Binary64} (h : x.eq .one = true) : x = .one := by
  rw [eq_eq, parts_one] at h
  exact eq_of_parts_eq (FloatFormat.eq_finite_of_beq h) (by rintro ⟨⟩)

/-! ## Integers -/

/-- The machine float for a positive integer is a canonical number, packed, which is one for one only. -/
theorem exists_toModel_toFloat {n : UInt64} (h : n ≠ 0) :
    ∃ m e k, n.toFloat.toModel = .pack (.finite .positive m e k) ∧
      Format.binary64.targetExponent (totalExponent m e) = e ∧
      ((.finite .positive m e k : UnpackedFloat) = FloatFormat.unit .binary64 → n = 1) := by
  have positive : 0 < n.toNat := Nat.pos_of_ne_zero fun hn => h (UInt64.toNat_inj.1 hn)
  have order : compare (n.toNat : Int) 0 = .gt := compare_gt_iff_gt.2 (by omega)
  obtain ⟨m, e, k, rounded, canonical, one⟩ :=
    @FloatFormat.round_integer .binary64 .positive (by decide) n.toNat positive
  refine ⟨m, e, k, ?_, canonical, ?_⟩
  · change Float.Model.pack (UnpackedFloat.normalize .binary64 (n.toNat : Int) 0 .positive) = _
    rw [UnpackedFloat.normalize, order]
    exact congrArg _ rounded
  · intro unit
    injection unit with _ hm he
    exact UInt64.toNat_inj.1 (one hm he)

theorem toUInt64_injective {v w : Int64} (h : v.toUInt64 = w.toUInt64) : v = w := by
  obtain ⟨_⟩ := v
  obtain ⟨_⟩ := w
  cases h
  rfl

theorem toUInt64_ofNat {n : Nat} (h : n < 2 ^ 63) :
    ¬ Int64.ofNat n < 0 ∧ (Int64.ofNat n).toUInt64.toNat = n := by
  constructor
  · rw [Int64.lt_iff_toInt_lt, Int64.toInt_ofNat_of_lt h]
    exact not_lt.2 (Int64.toInt_zero ▸ Int.natCast_nonneg n)
  · show (BitVec.ofNat 64 n).toNat = n
    rw [BitVec.toNat_ofNat, Nat.mod_eq_of_lt (by omega)]

theorem normalize_natCast (spec : Format) {n : Nat} (positive : 0 < n) (s : Sign) :
    UnpackedFloat.normalize spec (n : Int) 0 s = UnpackedFloat.round spec .positive n 0 := by
  have order : compare (n : Int) 0 = .gt := compare_gt_iff_gt.2 (by omega)
  rw [UnpackedFloat.normalize, order]
  rfl

/-- The bits of a positive integer that double precision can hold. -/
theorem toNat_bits_ofInt64 {n k : Nat} (positive : 0 < n) (few : 52 = n.log2 + k) :
    (ofInt64 (.ofNat n)).bits.toNat + 2 ^ 52 = 2 ^ 52 * (1023 + n.log2) + n * 2 ^ k := by
  have small : n < 2 ^ 63 := (Nat.log2_lt positive.ne').1 (by omega)
  obtain ⟨nonneg, value⟩ := toUInt64_ofNat small
  rw [ofInt64, if_neg nonneg]
  have bits : (ofFloat (Int64.ofNat n).toUInt64.toFloat).bits.toBitVec = pack .binary64
      (UnpackedFloat.normalize .binary64 ((Int64.ofNat n).toUInt64.toNat : Int) 0 .positive) := rfl
  rw [value, normalize_natCast _ positive] at bits
  have packed := @FloatFormat.toNat_pack_round_integer .binary64 (by decide) n k positive few
    (show 1023 + n.log2 + 1 < 2 ^ 11 by omega)
  rw [← bits] at packed
  exact packed

/-- An integer other than zero is no zero in double precision, and one only if it is one. -/
theorem parts_ofInt64 {v : Int64} (h : v ≠ 0) :
    (∃ s m e k, (ofInt64 v).parts = .finite s m e k ∧
      ((.finite s m e k : UnpackedFloat) = FloatFormat.unit .binary64 → v = 1)) ∨
      ∃ s, (ofInt64 v).parts = .infinity s := by
  rw [ofInt64]
  split_ifs with negative
  · have nonzero : (0 - v).toUInt64 ≠ 0 := fun hv =>
      h (Int64.neg_inj.1 ((Int64.zero_sub v).symm.trans (toUInt64_injective hv)))
    obtain ⟨m, e, k, model, canonical, -⟩ := exists_toModel_toFloat nonzero
    have parts : (ofFloat (-(0 - v).toUInt64.toFloat)).parts =
        unpack .binary64 (pack .binary64 (UnpackedFloat.neg (unpack .binary64
          (pack .binary64 (.finite .positive m e k))))) := by
      have negated : (-(0 - v).toUInt64.toFloat).toModel =
          .pack (UnpackedFloat.neg (0 - v).toUInt64.toFloat.toModel.unpack) := rfl
      rw [parts_ofFloat, negated, model]
      rfl
    rw [parts]
    rcases @FloatFormat.unpack_pack_of_canonical .binary64 .positive m e k canonical with hu | hu
    · rw [hu]
      rcases @FloatFormat.unpack_pack_of_canonical .binary64 .negative m e k canonical with hn | hn
      · exact .inl ⟨.negative, m, e, k, hn, by rintro ⟨⟩⟩
      · exact .inr ⟨_, hn⟩
    · rw [hu]
      exact .inr ⟨_, FloatFormat.unpack_packedInfinity⟩
  · have nonzero : v.toUInt64 ≠ 0 := fun hv => h (toUInt64_injective hv)
    obtain ⟨m, e, k, model, canonical, one⟩ := exists_toModel_toFloat nonzero
    have parts : (ofFloat v.toUInt64.toFloat).parts =
        unpack .binary64 (pack .binary64 (.finite .positive m e k)) := by
      rw [parts_ofFloat, model]
      rfl
    rw [parts]
    rcases @FloatFormat.unpack_pack_of_canonical .binary64 .positive m e k canonical with hu | hu
    · exact .inl ⟨.positive, m, e, k, hu, fun unit => toUInt64_injective (one unit)⟩
    · exact .inr ⟨_, hu⟩

theorem eq_zero_of_ofInt64 {v : Int64} (h : (ofInt64 v).eq .zero = true) : v = 0 := by
  by_contra nonzero
  obtain ⟨s, zero⟩ := parts_of_eq_zero h
  obtain ⟨_, _, _, _, parts, -⟩ | ⟨_, parts⟩ := parts_ofInt64 nonzero <;> cases zero.symm.trans parts

theorem eq_one_of_ofInt64 {v : Int64} (h : (ofInt64 v).eq .one = true) : v = 1 := by
  have number := eq_one_of_eq h
  have nonzero : v ≠ 0 := by
    rintro rfl
    exact absurd number (by decide +kernel)
  obtain ⟨_, _, _, _, parts, one⟩ | ⟨_, parts⟩ := parts_ofInt64 nonzero
  · rw [number, parts_one] at parts
    exact one parts.symm
  · rw [number, parts_one] at parts
    cases parts

/-! ## Numbers that are at least zero -/

/-- Whether a number with given parts is at least zero.  Both zeros are. -/
def IsNonneg : UnpackedFloat → Prop
  | .notANumber => False
  | .infinity s | .finite s .. => s = .positive
  | .zero _ => True

theorem le_eq (x y : Binary64) : Binary64.le x y = x.parts.le y.parts := by
  rw [← x.unpack_toFloat, ← y.unpack_toFloat, Bool.eq_iff_iff, Binary64.le, decide_eq_true_iff]
  exact decide_eq_true_iff

theorem le_zero_iff (x : Binary64) : Binary64.le .zero x = true ↔ IsNonneg x.parts := by
  have value : Binary64.le .zero x = UnpackedFloat.le (.zero .positive) x.parts := le_eq zero x
  rw [value]
  cases x.parts with
  | notANumber => simp [IsNonneg, UnpackedFloat.le, UnpackedFloat.compare]
  | infinity s => cases s <;> simp [IsNonneg, UnpackedFloat.le, UnpackedFloat.compare]
  | zero s => simp [IsNonneg, UnpackedFloat.le, UnpackedFloat.compare]
  | finite s m e h => cases s <;> simp [IsNonneg, UnpackedFloat.le, UnpackedFloat.compare]

theorem isNaN_eq_false {x : Binary64} (h : IsNonneg x.parts) : x.isNaN = false := by
  rw [← Bool.not_eq_true, isNaN_iff]
  intro nan
  rw [nan] at h
  exact h

theorem isNonneg_unpack_compose (e : BitVec 11) (m : BitVec 52) (h : e = -1#11 → m = 0#52) :
    IsNonneg (unpack .binary64 (compose .positive e m)) := by
  rw [compose, FloatFormat.unpack_packComponents]
  split_ifs with ones fraction
  · exact rfl
  · exact absurd (h ones) fraction
  · exact trivial
  · exact rfl
  · exact rfl

theorem ofNat_ne_ones {n : Nat} (h : ¬ 2 ^ 11 ≤ n + 1) : BitVec.ofNat 11 n ≠ -1#11 := by
  rw [ne_eq, ← BitVec.toNat_inj, BitVec.toNat_ofNat]
  change ¬ n % 2 ^ 11 = 2047
  omega

theorem isNonneg_unpack_pack {u : UnpackedFloat} (h : IsNonneg u) :
    IsNonneg (unpack .binary64 (pack .binary64 u)) := by
  cases u with
  | notANumber => exact h.elim
  | infinity s =>
      cases h
      exact rfl
  | zero s => cases s <;> exact trivial
  | finite s m e positive =>
      cases h
      rw [pack]
      split_ifs with overflow
      · exact rfl
      · exact isNonneg_unpack_compose _ _ fun ones => absurd ones (ofNat_ne_ones overflow)
      · exact isNonneg_unpack_compose _ _ fun ones => absurd ones (by decide)

theorem isNonneg_result {u : UnpackedFloat} (h : IsNonneg u) :
    IsNonneg (result ⟨.pack u⟩).parts := by
  have packed : IsNonneg (ofFloat ⟨.pack u⟩).parts := isNonneg_unpack_pack h
  rw [result, isNaN_eq_false packed]
  exact packed

theorem isNonneg_abs {x : Binary64} (h : x.isNaN = false) : IsNonneg x.abs.parts := by
  obtain ⟨s, e, m, components⟩ := exists_compose x.bits.toBitVec
  have positive : x.abs.bits.toBitVec = compose .positive e m := by
    rw [← BitVec.toNat_inj, toNat_compose]
    simpa [Sign.toBitVec, abs] using x.toNat_magnitude components
  rw [parts, positive]
  apply isNonneg_unpack_compose
  intro ones
  by_contra fraction
  have nan : x.parts = .notANumber := by
    rw [parts, components, compose, FloatFormat.unpack_packComponents, if_pos ones, if_neg fraction]
  simp [x.isNaN_iff.2 nan] at h

@[simp]
theorem magnitude_abs (x : Binary64) : x.abs.magnitude = x.magnitude := by
  simp [magnitude, abs, UInt64.and_assoc]

@[simp]
theorem isInfinite_abs (x : Binary64) : x.abs.isInfinite = x.isInfinite := by
  rw [isInfinite, isInfinite, magnitude_abs]

/-! ## Arithmetic -/

theorem isNonneg_roundWithAccuracy (m : Nat) (e : Int) (a : Accuracy) :
    IsNonneg (roundWithAccuracy .binary64 .positive m e a) := by
  rw [roundWithAccuracy]
  simp only
  split_ifs
  · exact trivial
  · exact rfl

theorem isNonneg_normalize {m : Int} (h : 0 ≤ m) (e : Int) (s : Sign) :
    IsNonneg (UnpackedFloat.normalize .binary64 m e s) := by
  rw [UnpackedFloat.normalize]
  split
  next negative => exact absurd (compare_lt_iff_lt.1 negative) (by omega)
  next => exact trivial
  next => exact isNonneg_roundWithAccuracy _ _ _

theorem isNonneg_unpacked_add {u v : UnpackedFloat} (hu : IsNonneg u) (hv : IsNonneg v) :
    IsNonneg (UnpackedFloat.add .binary64 u v) := by
  cases u with
  | notANumber => exact hu.elim
  | infinity s =>
      cases hu
      cases v with
      | notANumber => exact hv.elim
      | infinity t =>
          cases hv
          exact rfl
      | zero t => exact rfl
      | finite t n f h => exact rfl
  | zero s =>
      cases v with
      | notANumber => exact hv.elim
      | infinity t => exact hv
      | zero t => cases s <;> cases t <;> exact trivial
      | finite t n f h => exact hv
  | finite s m e h =>
      cases hu
      cases v with
      | notANumber => exact hv.elim
      | infinity t => exact hv
      | zero t => exact rfl
      | finite t n f k =>
          cases hv
          have sum := Int.add_nonneg (Int.natCast_nonneg (decreaseExponent m e (min e f)).1)
            (Int.natCast_nonneg (decreaseExponent n f (min e f)).1)
          exact isNonneg_normalize sum _ _

theorem isNonneg_unpacked_mul {u v : UnpackedFloat} (hu : IsNonneg u) (hv : IsNonneg v)
    (fu : u.isFinite = true) (fv : v.isFinite = true) :
    IsNonneg (UnpackedFloat.mul .binary64 u v) := by
  cases u with
  | notANumber => cases fu
  | infinity s => cases fu
  | zero s =>
      cases v with
      | notANumber => cases fv
      | infinity t => cases fv
      | zero t => exact trivial
      | finite t n f h => exact trivial
  | finite s m e h =>
      cases hu
      cases v with
      | notANumber => cases fv
      | infinity t => cases fv
      | zero t => exact trivial
      | finite t n f k =>
          cases hv
          exact isNonneg_roundWithAccuracy _ _ _

theorem unpacked_sub_same {u : UnpackedFloat} (h : u.isFinite = true) :
    UnpackedFloat.sub .binary64 u u = .zero .positive := by
  cases u with
  | notANumber => cases h
  | infinity s => cases h
  | zero s => cases s <;> rfl
  | finite s m e positive => simp [UnpackedFloat.sub, UnpackedFloat.normalize]

section Operations

variable {x y : Binary64}

/-- An operation on two numbers that are not NaN is the operation on their parts. -/
theorem binary_eq {f : Float → Float → Float}
    {op : UnpackedFloat → UnpackedFloat → UnpackedFloat}
    (model : ∀ a b, f a b = ⟨.pack (op a.toModel.unpack b.toModel.unpack)⟩)
    (hx : x.isNaN = false) (hy : y.isNaN = false) :
    binary f x y = result ⟨.pack (op x.parts y.parts)⟩ := by
  simp [binary, hx, hy, model, unpack_toFloat]

theorem isNonneg_add (hx : IsNonneg x.parts) (hy : IsNonneg y.parts) :
    IsNonneg (x.add y).parts := by
  have sum : x.add y = result ⟨.pack (UnpackedFloat.add .binary64 x.parts y.parts)⟩ :=
    binary_eq (fun _ _ => rfl) (isNaN_eq_false hx) (isNaN_eq_false hy)
  rw [sum]
  exact isNonneg_result (isNonneg_unpacked_add hx hy)

theorem isNonneg_mul (hx : IsNonneg x.parts) (hy : IsNonneg y.parts)
    (fx : x.isInfinite = false) (fy : y.isInfinite = false) : IsNonneg (x.mul y).parts := by
  have nx := isNaN_eq_false hx
  have ny := isNaN_eq_false hy
  have product : x.mul y = result ⟨.pack (UnpackedFloat.mul .binary64 x.parts y.parts)⟩ :=
    binary_eq (fun _ _ => rfl) nx ny
  rw [product]
  exact isNonneg_result
    (isNonneg_unpacked_mul hx hy (isFinite_parts nx fx) (isFinite_parts ny fy))

theorem sub_same (nan : x.isNaN = false) (infinite : x.isInfinite = false) : x.sub x = zero := by
  have difference : x.sub x = result ⟨.pack (UnpackedFloat.sub .binary64 x.parts x.parts)⟩ :=
    binary_eq (fun _ _ => rfl) nan nan
  rw [difference, unpacked_sub_same (isFinite_parts nan infinite)]
  rfl

end Operations

end Binary64
end TensorGraph
