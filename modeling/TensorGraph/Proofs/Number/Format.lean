import Mathlib

/-!
# Floating-point formats

Input:

* a format, which says how many bits the exponent and the fraction of a number have;
* numbers that are given by class, sign, mantissa and exponent.

Numbers that are read from bits are canonical: their exponent is the one that the format has for the
value (`canonical_unpack`).  A canonical number is packed into the bits that it was read from
(`pack_unpack_of_ne`), and is its own rounding, also when zeros stand behind its mantissa
(`round_canonical`).

Main results:

* `mul_unit`, `unit_mul`, `div_unit`: a product with one, and a quotient by one, is the other number;
* `add_zero_eq`, `zero_add_eq`, `sub_zero_eq`: so is a sum with a zero, or both are zeros;
* `add_comm`: the order of two summands makes no difference;
* `le_total`, `le_trans`: numbers are ordered;
* `roundWithAccuracy_cases`: rounding gives canonical numbers;
* `toNat_pack_round_integer`: the bits of an integer that the format can hold.
-/

namespace TensorGraph
namespace FloatFormat

open Float.Model (UnpackedFloat Format totalExponent)
open Float.Model.UnpackedFloat

variable {spec : Format} {s : Sign} {m : Nat} {e : Int}

/-! ## Bits and their parts -/

theorem exists_packComponents (b : BitVec spec.numBits) :
    ∃ s e m, b = packComponents spec s e m := by
  have sign : ∀ v : BitVec 1, (Sign.ofBitVec v).toBitVec = v := by decide
  refine ⟨.ofBitVec (unpackSign b), unpackExponent b, unpackMantissa b, ?_⟩
  have fraction := spec.hm
  have exponent := spec.he
  rw [packComponents, sign]
  ext i hi
  simp [unpackSign, unpackExponent, unpackMantissa, BitVec.getElem_append]
  grind

@[simp]
theorem unpackSign_packComponents {e : BitVec spec.exponentBits}
    {m : BitVec spec.mantissaBitsWithoutImplicit} :
    unpackSign (packComponents spec s e m) = s.toBitVec := by
  apply BitVec.eq_of_getLsbD_eq
  intro i hi
  have first : i = 0 := by omega
  subst first
  simp [unpackSign, packComponents, BitVec.getLsbD_append, BitVec.getElem_append]

@[simp]
theorem ofBitVec_toBitVec : Sign.ofBitVec s.toBitVec = s := by
  cases s <;> rfl

/-- The exponent of the numbers below the normal ones. -/
theorem minExponent_eq (spec : Format) :
    spec.minExponent = 1 - (spec.exponentBias : Int) - spec.mantissaBitsWithoutImplicit := by
  have positive := Nat.two_pow_pos (spec.exponentBits - 1)
  rw [Format.minExponent, Format.mantissaBits, Format.exponentBias]
  push_cast [Nat.cast_sub (show 1 ≤ 2 ^ (spec.exponentBits - 1) from positive)]
  ring

theorem unpack_packComponents {e : BitVec spec.exponentBits}
    {m : BitVec spec.mantissaBitsWithoutImplicit} :
    unpack spec (packComponents spec s e m) =
      if e = -1#_ then if m = 0#_ then .infinity s else .notANumber
      else if e = 0#_ then
        if h : m = 0#_ then .zero s
        else .finite s m.toNat spec.minExponent
          (by simpa [BitVec.toNat_pos, BitVec.pos_iff_ne_zero])
      else .finite s (2 ^ spec.mantissaBitsWithoutImplicit + m.toNat)
        (e.toNat - (spec.exponentBias + spec.mantissaBitsWithoutImplicit : Nat))
        (by have := Nat.two_pow_pos spec.mantissaBitsWithoutImplicit; omega) := by
  have lead : (1#1 ++ m).toNat = 2 ^ spec.mantissaBitsWithoutImplicit + m.toNat := by
    rw [BitVec.toNat_append, ← Nat.shiftLeft_add_eq_or_of_lt m.isLt]
    simp [Nat.shiftLeft_eq]
  simp only [unpack, unpackSign_packComponents, ofBitVec_toBitVec, unpackExponent_packComponents,
    unpackMantissa_packComponents, lead]
  split_ifs with ones fraction low fraction
  · rfl
  · rfl
  · rfl
  · simp [low, minExponent_eq]
    ring
  · simp

theorem toNat_packComponents {e : BitVec spec.exponentBits}
    {m : BitVec spec.mantissaBitsWithoutImplicit} :
    (packComponents spec s e m).toNat =
      2 ^ (spec.exponentBits + spec.mantissaBitsWithoutImplicit) * s.toBitVec.toNat +
        (2 ^ spec.mantissaBitsWithoutImplicit * e.toNat + m.toNat) := by
  rw [packComponents, BitVec.toNat_append, BitVec.toNat_append,
    ← Nat.shiftLeft_add_eq_or_of_lt m.isLt, ← Nat.shiftLeft_add_eq_or_of_lt e.isLt]
  simp only [Nat.shiftLeft_eq, Nat.pow_add]
  ring

theorem eq_ones_iff {e : BitVec spec.exponentBits} :
    e = -1#_ ↔ e.toNat = 2 ^ spec.exponentBits - 1 := by
  rw [← BitVec.toNat_inj, BitVec.neg_one_eq_allOnes, BitVec.toNat_allOnes]

theorem zero_ne_ones : 0#(spec.exponentBits) ≠ -1#_ := by
  have exponent : 2 ≤ 2 ^ spec.exponentBits := Nat.le_self_pow spec.he.ne' 2
  rw [ne_eq, eq_ones_iff, BitVec.toNat_ofNat, Nat.zero_mod]
  omega

theorem unpack_eq_notANumber_iff {e : BitVec spec.exponentBits}
    {m : BitVec spec.mantissaBitsWithoutImplicit} :
    unpack spec (packComponents spec s e m) = .notANumber ↔
      e.toNat = 2 ^ spec.exponentBits - 1 ∧ m.toNat ≠ 0 := by
  have empty : m.toNat = 0 ↔ m = 0#_ := by rw [← BitVec.toNat_inj]; simp
  rw [← eq_ones_iff, ne_eq, empty, unpack_packComponents]
  split_ifs <;> simp_all

theorem unpack_eq_infinity_iff {e : BitVec spec.exponentBits}
    {m : BitVec spec.mantissaBitsWithoutImplicit} :
    (∃ t, unpack spec (packComponents spec s e m) = .infinity t) ↔
      e.toNat = 2 ^ spec.exponentBits - 1 ∧ m.toNat = 0 := by
  have empty : m.toNat = 0 ↔ m = 0#_ := by rw [← BitVec.toNat_inj]; simp
  rw [← eq_ones_iff, empty, unpack_packComponents]
  split_ifs <;> simp_all

theorem unpack_eq_zero_iff {e : BitVec spec.exponentBits}
    {m : BitVec spec.mantissaBitsWithoutImplicit} :
    (∃ t, unpack spec (packComponents spec s e m) = .zero t) ↔ e.toNat = 0 ∧ m.toNat = 0 := by
  have low : e.toNat = 0 ↔ e = 0#_ := by rw [← BitVec.toNat_inj]; simp
  have empty : m.toNat = 0 ↔ m = 0#_ := by rw [← BitVec.toNat_inj]; simp
  have differ : 0#(spec.exponentBits) ≠ -1#_ := zero_ne_ones
  rw [low, empty, unpack_packComponents]
  split_ifs <;> simp_all

/-! ## Canonical numbers -/

/-- Whether the exponent of a finite number is the one that the format has for its value. -/
def Canonical (spec : Format) : UnpackedFloat → Prop
  | .finite _ m e _ => spec.targetExponent (totalExponent m e) = e
  | _ => True

theorem targetExponent_eq_iff (positive : 0 < m) :
    spec.targetExponent (totalExponent m e) = e ↔
      m < 2 ^ spec.mantissaBits ∧ spec.minExponent ≤ e ∧
        (2 ^ spec.mantissaBitsWithoutImplicit ≤ m ∨ e = spec.minExponent) := by
  rw [← Nat.log2_lt (by omega), ← Nat.le_log2 (by omega), Format.targetExponent, totalExponent,
    Format.mantissaBits]
  omega

/-- Numbers that are read from bits are canonical. -/
theorem canonical_unpack (b : BitVec spec.numBits) : Canonical spec (unpack spec b) := by
  obtain ⟨s, e, m, rfl⟩ := exists_packComponents b
  have fraction := m.isLt
  have next : 2 ^ spec.mantissaBits = 2 * 2 ^ spec.mantissaBitsWithoutImplicit := by
    rw [Format.mantissaBits, Nat.pow_add]
  rw [unpack_packComponents]
  split_ifs with ones empty low empty
  · trivial
  · trivial
  · trivial
  · refine (targetExponent_eq_iff ?_).2 ⟨by omega, le_rfl, .inr rfl⟩
    simpa [BitVec.toNat_pos, BitVec.pos_iff_ne_zero] using empty
  · have positive : e.toNat ≠ 0 := fun h => low (BitVec.eq_of_toNat_eq (by simpa using h))
    refine (targetExponent_eq_iff ?_).2 ⟨by omega, ?_, .inl (by omega)⟩
    · omega
    · rw [minExponent_eq]
      omega

section

variable {e : BitVec spec.exponentBits} {m : BitVec spec.mantissaBitsWithoutImplicit}

/-- A number below the normal ones is packed with the exponent zero. -/
theorem pack_subnormal (wide : 1 < spec.exponentBits) (positive : 0 < m.toNat) :
    pack spec (.finite s m.toNat spec.minExponent positive) = packComponents spec s 0#_ m := by
  have small : ¬ m.toNat.log2 + 1 = spec.mantissaBits := by
    have := (Nat.log2_lt positive.ne').2 m.isLt
    rw [Format.mantissaBits]
    omega
  have fits : 2 ^ 2 ≤ 2 ^ spec.exponentBits := Nat.pow_le_pow_right (by decide) wide
  have biased : (spec.minExponent + spec.exponentBias + spec.mantissaBitsWithoutImplicit).toNat
      = 1 := by
    rw [minExponent_eq]
    omega
  simp only [pack, biased]
  rw [if_neg (by omega), if_neg small, BitVec.ofNat_toNat, BitVec.setWidth_eq]

/-- A normal number is packed without the first digit of its mantissa. -/
theorem pack_normal (ones : e ≠ -1#_)
    (positive : 0 < 2 ^ spec.mantissaBitsWithoutImplicit + m.toNat) :
    pack spec (.finite s (2 ^ spec.mantissaBitsWithoutImplicit + m.toNat)
      (e.toNat - (spec.exponentBias + spec.mantissaBitsWithoutImplicit : Nat)) positive) =
        packComponents spec s e m := by
  have bound := e.isLt
  have top : (2 ^ spec.mantissaBitsWithoutImplicit + m.toNat).log2 =
      spec.mantissaBitsWithoutImplicit := by
    have fraction := m.isLt
    rw [Nat.log2_eq_iff (by omega), Nat.pow_succ]
    omega
  have bounded : e.toNat + 1 ≠ 2 ^ spec.exponentBits := fun h =>
    ones (eq_ones_iff.2 (by omega))
  have biased : ((e.toNat : Int) - (spec.exponentBias + spec.mantissaBitsWithoutImplicit : Nat) +
      spec.exponentBias + spec.mantissaBitsWithoutImplicit).toNat = e.toNat := by
    omega
  have fraction : BitVec.ofNat spec.mantissaBitsWithoutImplicit
      (2 ^ spec.mantissaBitsWithoutImplicit + m.toNat) = m := by
    simp [← BitVec.toNat_inj]
  have exponent : BitVec.ofNat spec.exponentBits e.toNat = e := by simp
  simp only [pack, biased]
  rw [if_neg (by omega), if_pos (by rw [top, Format.mantissaBits, Nat.add_comm]), fraction,
    exponent]

end

/-- A number that is not a NaN is packed into the bits that it was read from. -/
theorem pack_unpack_of_ne (wide : 1 < spec.exponentBits) (b : BitVec spec.numBits)
    (h : unpack spec b ≠ .notANumber) :
    pack spec (unpack spec b) = b := by
  obtain ⟨s, e, m, rfl⟩ := exists_packComponents b
  rw [unpack_packComponents] at h ⊢
  split_ifs at h ⊢ with ones fraction low fraction
  · rw [ones, fraction]
    rfl
  · exact absurd rfl h
  · rw [low, fraction]
    rfl
  · rw [low]
    exact pack_subnormal wide _
  · exact pack_normal ones _

/-! ## Rounding -/

theorem mantissa_shiftRight (em : ExtendedMantissa) (k : Nat) :
    (em >>> k).mantissa = em.mantissa / 2 ^ k := by
  induction k with
  | zero => exact (Nat.div_one _).symm
  | succ k ih =>
      change (em >>> k).mantissa / 2 = _
      rw [ih, Nat.div_div_eq_div_mul, Nat.pow_succ]

/-- No accuracy is lost when only zeros are dropped. -/
theorem shiftRight_exact (m k : Nat) :
    ExtendedMantissa.ofMantissaAndAccuracy (m * 2 ^ k) .exact >>> k =
      .ofMantissaAndAccuracy m .exact := by
  induction k generalizing m with
  | zero => rw [Nat.pow_zero, Nat.mul_one]; rfl
  | succ k ih =>
      rw [Nat.pow_succ', ← Nat.mul_assoc]
      change ExtendedMantissa.shiftRightOne
        (ExtendedMantissa.ofMantissaAndAccuracy (m * 2 * 2 ^ k) .exact >>> k) = _
      rw [ih]
      simp [ExtendedMantissa.shiftRightOne, ExtendedMantissa.ofMantissaAndAccuracy]

theorem totalExponent_scaled (positive : 0 < m) (e : Int) (k : Nat) :
    totalExponent (m * 2 ^ k) (e - k) = totalExponent m e := by
  have scaled : (m * 2 ^ k).log2 = m.log2 + k := by
    induction k with
    | zero => simp
    | succ k ih =>
        rw [Nat.pow_succ, ← Nat.mul_assoc, Nat.mul_comm, Nat.log2_two_mul (by positivity), ih]
        omega
  rw [totalExponent, totalExponent, scaled]
  omega

/-- A canonical number is its own rounding, also with zeros behind its mantissa. -/
theorem round_canonical (positive : 0 < m) (h : spec.targetExponent (totalExponent m e) = e)
    (k : Nat) :
    roundWithAccuracy spec s (m * 2 ^ k) (e - k) .exact = .finite s m e positive := by
  have first : shiftToTargetExponent spec (m * 2 ^ k) (e - k) .exact =
      (.ofMantissaAndAccuracy m .exact, e) := by
    have amount : (e - (e - k)).toNat = k := by omega
    simp only [shiftToTargetExponent, totalExponent_scaled positive, h, shiftToExponent, amount,
      shiftRight_exact, Int.sub_add_cancel]
  have second : shiftToTargetExponent spec m e .exact = (.ofMantissaAndAccuracy m .exact, e) := by
    simp only [shiftToTargetExponent, h, shiftToExponent, Int.sub_self, Int.toNat_zero]
    exact Prod.ext rfl (Int.add_zero e)
  rw [roundWithAccuracy, first]
  simp only [ExtendedMantissa.ofMantissaAndAccuracy, ExtendedMantissa.roundedMantissa,
    ExtendedMantissa.accuracy, Accuracy.roundToNearestEven, second]
  rw [dif_neg (by omega)]

theorem round_canonical_self (positive : 0 < m) (h : spec.targetExponent (totalExponent m e) = e) :
    roundWithAccuracy spec s m e .exact = .finite s m e positive := by
  simpa using round_canonical positive h 0

theorem le_roundToNearestEven (m : Nat) (a : Accuracy) : m ≤ a.roundToNearestEven m := by
  cases a with
  | exact => exact le_rfl
  | inexact o => cases o <;> simp only [Accuracy.roundToNearestEven] <;> omega

theorem mantissa_ofMantissaAndAccuracy (m : Nat) (a : Accuracy) :
    (ExtendedMantissa.ofMantissaAndAccuracy m a).mantissa = m := by
  cases a with
  | exact => rfl
  | inexact o => cases o <;> rfl

/-- The digits that are left after a shift to the target exponent. -/
theorem shift_bounds (positive : 0 < m) (h : e ≤ spec.targetExponent (totalExponent m e)) :
    let k := (spec.targetExponent (totalExponent m e) - e).toNat
    m / 2 ^ k < 2 ^ spec.mantissaBits ∧ spec.minExponent ≤ e + k ∧
      (2 ^ spec.mantissaBitsWithoutImplicit ≤ m / 2 ^ k ∨ e + k = spec.minExponent) := by
  intro k
  have target : spec.targetExponent (totalExponent m e) = e + k := by omega
  have width : (spec.mantissaBits : Int) = spec.mantissaBitsWithoutImplicit + 1 := by
    rw [Format.mantissaBits]
    omega
  rw [Format.targetExponent, totalExponent, width] at target
  rw [Nat.div_lt_iff_lt_mul (Nat.two_pow_pos k), Nat.le_div_iff_mul_le (Nat.two_pow_pos k),
    ← Nat.pow_add, ← Nat.pow_add, ← Nat.log2_lt (by omega), ← Nat.le_log2 (by omega)]
  omega

/-- Rounding gives a canonical number, or a zero where the numbers are the closest to zero. -/
theorem roundWithAccuracy_cases (positive : 0 < m) {a : Accuracy}
    (h : e ≤ spec.targetExponent (totalExponent m e)) :
    roundWithAccuracy spec s m e a = .zero s ∧
        spec.targetExponent (totalExponent m e) = spec.minExponent ∨
      ∃ m' e' h', roundWithAccuracy spec s m e a = .finite s m' e' h' ∧
        spec.targetExponent (totalExponent m' e') = e' ∧
        spec.targetExponent (totalExponent m e) ≤ e' := by
  obtain ⟨-, least, enough⟩ := shift_bounds positive h
  have target : spec.targetExponent (totalExponent m e) =
      e + (spec.targetExponent (totalExponent m e) - e).toNat := by omega
  unfold roundWithAccuracy shiftToTargetExponent shiftToExponent
  simp only [mantissa_shiftRight, mantissa_ofMantissaAndAccuracy]
  generalize hk : (spec.targetExponent (totalExponent m e) - e).toNat = k at *
  generalize hr : ExtendedMantissa.roundedMantissa _ = r
  have above : m / 2 ^ k ≤ r := by
    rw [← hr, ExtendedMantissa.roundedMantissa, mantissa_shiftRight, mantissa_ofMantissaAndAccuracy]
    exact le_roundToNearestEven _ _
  -- Rounding up may have given one digit more, which a second shift drops.
  have next : 0 < r → e + k ≤ spec.targetExponent (totalExponent r (e + k)) := by
    intro some
    rw [Format.targetExponent, totalExponent, Format.mantissaBits]
    rcases enough with enough | enough
    · have top := (Nat.le_log2 (by omega)).2 (enough.trans above)
      omega
    · omega
  split_ifs with empty
  · refine .inl ⟨rfl, target.trans (enough.elim (fun enough => ?_) id)⟩
    have digit := Nat.two_pow_pos spec.mantissaBitsWithoutImplicit
    have some : 0 < r := by omega
    obtain ⟨-, -, enough'⟩ := shift_bounds some (next some)
    omega
  · have some : 0 < r := by
      by_contra none
      simp [show r = 0 by omega] at empty
    obtain ⟨few, least', enough'⟩ := shift_bounds some (next some)
    refine .inr ⟨_, _, Nat.pos_of_ne_zero empty, rfl, ?_, ?_⟩
    · exact (targetExponent_eq_iff (Nat.pos_of_ne_zero empty)).2 ⟨few, least', enough'⟩
    · omega

theorem targetExponent_integer (least : spec.minExponent ≤ -spec.mantissaBitsWithoutImplicit) (n : Nat) :
    spec.targetExponent (totalExponent n 0) = n.log2 - spec.mantissaBitsWithoutImplicit := by
  rw [Format.targetExponent, totalExponent, Format.mantissaBits]
  omega

/-- All digits of a positive integer with few of them are kept. -/
theorem round_integer_of_few (least : spec.minExponent ≤ -spec.mantissaBitsWithoutImplicit) {n k : Nat}
    (positive : 0 < n) (few : spec.mantissaBitsWithoutImplicit = n.log2 + k) :
    spec.targetExponent (totalExponent (n * 2 ^ k) (0 - k)) = 0 - k ∧
      UnpackedFloat.round spec s n 0 = .finite s (n * 2 ^ k) (0 - k) (by positivity) := by
  have target := targetExponent_integer least n
  have amount : (0 - ((n.log2 : Int) - spec.mantissaBitsWithoutImplicit)).toNat = k := by omega
  have canonical : spec.targetExponent (totalExponent (n * 2 ^ k) (0 - k)) = 0 - k := by
    rw [totalExponent_scaled positive, target]
    omega
  refine ⟨canonical, ?_⟩
  simp only [UnpackedFloat.round, decreaseExponent, target, Nat.shiftLeft_eq, amount]
  exact round_canonical_self (by positivity) canonical

/-- A positive integer is rounded to a canonical number, which is one for one only. -/
theorem round_integer (least : spec.minExponent ≤ -spec.mantissaBitsWithoutImplicit) {n : Nat}
    (positive : 0 < n) :
    ∃ m e h, UnpackedFloat.round spec s n 0 = .finite s m e h ∧
      spec.targetExponent (totalExponent m e) = e ∧
      (m = 2 ^ spec.mantissaBitsWithoutImplicit → e = -spec.mantissaBitsWithoutImplicit → n = 1) := by
  have target := targetExponent_integer least n
  by_cases small : n.log2 ≤ spec.mantissaBitsWithoutImplicit
  · obtain ⟨k, hk⟩ : ∃ k, spec.mantissaBitsWithoutImplicit = n.log2 + k := Nat.exists_eq_add_of_le small
    obtain ⟨canonical, rounded⟩ := round_integer_of_few (s := s) least positive hk
    refine ⟨_, _, _, rounded, canonical, ?_⟩
    intro hm he
    have same : k = spec.mantissaBitsWithoutImplicit := by omega
    rw [same] at hm
    exact Nat.eq_of_mul_eq_mul_right (Nat.two_pow_pos _) (hm.trans (Nat.one_mul _).symm)
  · have amount : (0 - ((n.log2 : Int) - spec.mantissaBitsWithoutImplicit)).toNat = 0 := by omega
    simp only [UnpackedFloat.round, decreaseExponent, target, Nat.shiftLeft_eq]
    rw [amount, Nat.pow_zero, Nat.mul_one]
    have enough : (0 : Int) - (0 : Nat) ≤ spec.targetExponent (totalExponent n (0 - (0 : Nat))) := by
      simp only [Nat.cast_zero, sub_zero, target]
      omega
    obtain ⟨-, lowest⟩ | ⟨m, e, h, rounded, canonical, above⟩ :=
      roundWithAccuracy_cases (s := s) positive enough
    · simp only [Nat.cast_zero, sub_zero, target] at lowest
      omega
    · refine ⟨m, e, h, rounded, canonical, fun _ he => ?_⟩
      simp only [Nat.cast_zero, sub_zero, target] at above
      omega

/-! ## Packing -/

@[simp]
theorem unpack_packedInfinity : unpack spec (packedInfinity spec s) = .infinity s := by
  rw [packedInfinity, unpack_packComponents]
  simp

@[simp]
theorem unpack_packedZero : unpack spec (packedZero spec s) = .zero s := by
  rw [packedZero, unpack_packComponents]
  exact (if_neg zero_ne_ones).trans (by simp)

@[simp]
theorem unpack_packedNaN : unpack spec (packedNaN spec) = .notANumber := by
  have width := spec.hm
  rw [packedNaN, unpack_eq_notANumber_iff]
  refine ⟨eq_ones_iff.1 rfl, ?_⟩
  rw [BitVec.toNat_shiftLeft, BitVec.toNat_ofNat, Nat.mod_eq_of_lt (Nat.one_lt_two_pow (by omega)),
    Nat.shiftLeft_eq, Nat.one_mul, Nat.mod_eq_of_lt (Nat.pow_lt_pow_right (by decide) (by omega))]
  exact (Nat.two_pow_pos _).ne'

/-- A positive integer with few digits is packed with all of them but the first. -/
theorem toNat_pack_round_integer (least : spec.minExponent ≤ -spec.mantissaBitsWithoutImplicit)
    {n k : Nat} (positive : 0 < n) (few : spec.mantissaBitsWithoutImplicit = n.log2 + k)
    (range : spec.exponentBias + n.log2 + 1 < 2 ^ spec.exponentBits) :
    (pack spec (UnpackedFloat.round spec .positive n 0)).toNat + 2 ^ spec.mantissaBitsWithoutImplicit =
      2 ^ spec.mantissaBitsWithoutImplicit * (spec.exponentBias + n.log2) + n * 2 ^ k := by
  obtain ⟨low, high⟩ := (Nat.log2_eq_iff positive.ne').1 rfl
  have lowest := Nat.mul_le_mul_right (2 ^ k) low
  have highest := Nat.mul_lt_mul_of_pos_right high (Nat.two_pow_pos k)
  rw [← Nat.pow_add, ← few] at lowest
  rw [← Nat.pow_add, show n.log2 + 1 + k = spec.mantissaBitsWithoutImplicit + 1 by omega,
    Nat.pow_succ] at highest
  obtain ⟨rest, hrest⟩ := Nat.exists_eq_add_of_le lowest
  have exponent : (BitVec.ofNat spec.exponentBits (spec.exponentBias + n.log2)).toNat =
      spec.exponentBias + n.log2 := by
    rw [BitVec.toNat_ofNat, Nat.mod_eq_of_lt (by omega)]
  have fraction : (BitVec.ofNat spec.mantissaBitsWithoutImplicit rest).toNat = rest := by
    rw [BitVec.toNat_ofNat, Nat.mod_eq_of_lt (by omega)]
  have ones : BitVec.ofNat spec.exponentBits (spec.exponentBias + n.log2) ≠ -1#_ := by
    rw [ne_eq, eq_ones_iff, exponent]
    omega
  have packed := pack_normal (s := .positive) ones
    (m := BitVec.ofNat spec.mantissaBitsWithoutImplicit rest) (by positivity)
  have number : (UnpackedFloat.finite .positive (n * 2 ^ k) (0 - k) (by positivity)) =
      .finite .positive (2 ^ spec.mantissaBitsWithoutImplicit +
        (BitVec.ofNat spec.mantissaBitsWithoutImplicit rest).toNat)
        ((BitVec.ofNat spec.exponentBits (spec.exponentBias + n.log2)).toNat -
          (spec.exponentBias + spec.mantissaBitsWithoutImplicit : Nat)) (by positivity) := by
    rw [UnpackedFloat.finite.injEq, exponent, fraction]
    exact ⟨rfl, hrest, by omega⟩
  rw [(round_integer_of_few least positive few).2, number, packed, toNat_packComponents, exponent,
    fraction, hrest]
  simp only [show Sign.positive.toBitVec.toNat = 0 from rfl]
  omega

/-- What is read from bits is read again from the bits that it is packed into. -/
theorem unpack_pack_unpack (wide : 1 < spec.exponentBits) (b : BitVec spec.numBits) :
    unpack spec (pack spec (unpack spec b)) = unpack spec b := by
  by_cases nan : unpack spec b = .notANumber
  · rw [nan]
    exact unpack_packedNaN
  · rw [pack_unpack_of_ne wide b nan]

/-- A canonical number that is not too large is read from the bits that it is packed into. -/
theorem unpack_pack_of_canonical (positive : 0 < m)
    (h : spec.targetExponent (totalExponent m e) = e) :
    unpack spec (pack spec (.finite s m e positive)) = .finite s m e positive ∨
      unpack spec (pack spec (.finite s m e positive)) = .infinity s := by
  obtain ⟨few, least, enough⟩ := (targetExponent_eq_iff positive).1 h
  have next : 2 ^ spec.mantissaBits = 2 * 2 ^ spec.mantissaBitsWithoutImplicit := by
    rw [Format.mantissaBits, Nat.pow_add]
  have lowest := minExponent_eq spec
  have top := Nat.log2_eq_iff (n := m) (k := spec.mantissaBitsWithoutImplicit) (by omega)
  rw [Nat.pow_succ'] at top
  have width : spec.mantissaBits = spec.mantissaBitsWithoutImplicit + 1 := Nat.add_comm _ _
  rw [pack]
  split_ifs with large normal
  · exact .inr unpack_packedInfinity
  · left
    obtain ⟨lead, -⟩ := top.1 (by omega)
    have rest : m % 2 ^ spec.mantissaBitsWithoutImplicit =
        m - 2 ^ spec.mantissaBitsWithoutImplicit := by
      rw [Nat.mod_eq_sub_mod lead, Nat.mod_eq_of_lt (by omega)]
    generalize hb : (e + spec.exponentBias + spec.mantissaBitsWithoutImplicit).toNat = biased at *
    have biased' : (BitVec.ofNat spec.exponentBits biased).toNat = biased := by
      rw [BitVec.toNat_ofNat, Nat.mod_eq_of_lt (by omega)]
    have fraction : (BitVec.ofNat spec.mantissaBitsWithoutImplicit m).toNat =
        m - 2 ^ spec.mantissaBitsWithoutImplicit := by
      rw [BitVec.toNat_ofNat, rest]
    rw [unpack_packComponents, if_neg, if_neg]
    · simp only [biased', fraction, UnpackedFloat.finite.injEq, true_and]
      omega
    · rw [← BitVec.toNat_inj, biased']
      simp
      omega
    · rw [eq_ones_iff, biased']
      omega
  · left
    have low : m < 2 ^ spec.mantissaBitsWithoutImplicit := by
      by_contra large
      exact normal (by rw [top.2 (by omega), width])
    rw [unpack_packComponents, if_neg zero_ne_ones, if_pos rfl, dif_neg]
    · simp only [BitVec.toNat_ofNat, Nat.mod_eq_of_lt low, UnpackedFloat.finite.injEq, true_and]
      omega
    · rw [← BitVec.toNat_inj]
      simp [Nat.mod_eq_of_lt low]
      omega

/-! ## Equal values -/

section

variable {u v : UnpackedFloat} {t : Sign}

theorem beq_self (h : u ≠ .notANumber) : u.beq u = true := by
  have sign : ∀ s : Sign, compare s s = .eq := by decide
  cases u with
  | notANumber => exact absurd rfl h
  | infinity s => simp [UnpackedFloat.beq, UnpackedFloat.compare, sign]
  | zero s => rfl
  | finite s m e positive => cases s <;> simp [UnpackedFloat.beq, UnpackedFloat.compare]

/-- Only zeros are equal to a zero. -/
theorem eq_zero_of_beq (h : u.beq (.zero t) = true) : ∃ s, u = .zero s := by
  cases u with
  | notANumber => cases h
  | infinity s => cases s <;> cases h
  | zero s => exact ⟨s, rfl⟩
  | finite s m e positive => cases s <;> cases h

/-- A finite number other than zero is equal to itself only. -/
theorem eq_finite_of_beq {positive : 0 < m} (h : u.beq (.finite s m e positive) = true) :
    u = .finite s m e positive := by
  cases u with
  | notANumber => cases h
  | infinity s' => cases s <;> cases s' <;> cases h
  | zero s' => cases s <;> cases h
  | finite s' m' e' positive' =>
      cases s <;> cases s' <;>
        simp_all [UnpackedFloat.beq, UnpackedFloat.compare, Ordering.then_eq_eq]

/-- Whether two numbers have the same value, or both have none. -/
def SameValue (u v : UnpackedFloat) : Prop :=
  u.beq v = true ∨ u = .notANumber ∧ v = .notANumber

theorem SameValue.refl (u : UnpackedFloat) : SameValue u u := by
  by_cases h : u = .notANumber
  · exact .inr ⟨h, h⟩
  · exact .inl (beq_self h)

end

/-! ## Order -/

/-- Where a number stands among the others.  Infinities and finite numbers of either sign enclose the zeros,
and finite numbers stand by exponent and mantissa. -/
def rank : UnpackedFloat → ℤ ×ₗ ℤ ×ₗ ℤ
  | .notANumber | .zero _ => toLex (0, toLex (0, 0))
  | .infinity .positive => toLex (2, toLex (0, 0))
  | .infinity .negative => toLex (-2, toLex (0, 0))
  | .finite .positive m e _ => toLex (1, toLex (e, (m : ℤ)))
  | .finite .negative m e _ => toLex (-1, toLex (-e, -(m : ℤ)))

section

variable {u v w : UnpackedFloat}

theorem le_iff_rank_le (hu : u ≠ .notANumber) (hv : v ≠ .notANumber) :
    u.le v = true ↔ rank u ≤ rank v := by
  unfold UnpackedFloat.le
  cases u with
  | notANumber => exact absurd rfl hu
  | infinity s =>
      cases v with
      | notANumber => exact absurd rfl hv
      | infinity t =>
          cases s <;> cases t <;> simp [UnpackedFloat.compare, rank, Prod.Lex.le_iff] <;> decide
      | zero t => cases s <;> simp [UnpackedFloat.compare, rank, Prod.Lex.le_iff]
      | finite t => cases s <;> cases t <;> simp [UnpackedFloat.compare, rank, Prod.Lex.le_iff]
  | zero s =>
      cases v with
      | notANumber => exact absurd rfl hv
      | infinity t => cases t <;> simp [UnpackedFloat.compare, rank, Prod.Lex.le_iff]
      | zero t => simp [UnpackedFloat.compare, rank]
      | finite t => cases t <;> simp [UnpackedFloat.compare, rank, Prod.Lex.le_iff]
  | finite s m e =>
      cases v with
      | notANumber => exact absurd rfl hv
      | infinity t => cases s <;> cases t <;> simp [UnpackedFloat.compare, rank, Prod.Lex.le_iff]
      | zero t => cases s <;> simp [UnpackedFloat.compare, rank, Prod.Lex.le_iff]
      | finite t m' e' =>
          have ascending : compare e e' = .lt ↔ e < e' := Std.compare_eq_lt
          have descending : ((compare e e').then (compare m m')).isGE = true ↔
              e' < e ∨ e = e' ∧ m' ≤ m := by
            rcases lt_trichotomy e e' with h | rfl | h
            · simp [Std.compare_eq_lt.2 h, h.not_gt, h.ne]
            · simp [Nat.isGE_compare]
            · simp [Std.compare_eq_gt.2 h, h]
          cases s <;> cases t <;> simp [UnpackedFloat.compare, rank, Prod.Lex.le_iff,
            Ordering.isLE_then_iff_or, Nat.isLE_compare, ascending, descending]

/-- Only numbers are compared. -/
theorem ne_notANumber_of_le (h : u.le v = true) : u ≠ .notANumber ∧ v ≠ .notANumber := by
  constructor
  · rintro rfl
    cases h
  · rintro rfl
    cases u <;> cases h

theorem le_total (hu : u ≠ .notANumber) (hv : v ≠ .notANumber) : u.le v = true ∨ v.le u = true := by
  rw [le_iff_rank_le hu hv, le_iff_rank_le hv hu]
  exact LinearOrder.le_total _ _

theorem le_trans (huv : u.le v = true) (hvw : v.le w = true) : u.le w = true := by
  obtain ⟨hu, hv⟩ := ne_notANumber_of_le huv
  obtain ⟨-, hw⟩ := ne_notANumber_of_le hvw
  rw [le_iff_rank_le hu hv] at huv
  rw [le_iff_rank_le hv hw] at hvw
  exact (le_iff_rank_le hu hw).2 (huv.trans hvw)

end

/-! ## Neutral numbers -/

section

variable {u : UnpackedFloat} {t : Sign}

/-- The number one. -/
def unit (spec : Format) : UnpackedFloat :=
  .finite .positive (2 ^ spec.mantissaBitsWithoutImplicit) (-spec.mantissaBitsWithoutImplicit)
    (Nat.two_pow_pos _)

theorem sign_mul_positive (s : Sign) : s * .positive = s := by cases s <;> rfl

theorem positive_mul_sign (s : Sign) : Sign.positive * s = s := by cases s <;> rfl

theorem sign_div_positive (s : Sign) : s / .positive = s := by cases s <;> rfl

theorem mul_unit (h : Canonical spec u) : UnpackedFloat.mul spec u (unit spec) = u := by
  cases u with
  | notANumber => rfl
  | infinity s => exact congrArg _ (sign_mul_positive s)
  | zero s => exact congrArg _ (sign_mul_positive s)
  | finite s m e positive =>
      simp only [unit, UnpackedFloat.mul, sign_mul_positive, ← sub_eq_add_neg]
      exact round_canonical positive h _

theorem unit_mul (h : Canonical spec u) : UnpackedFloat.mul spec (unit spec) u = u := by
  cases u with
  | notANumber => rfl
  | infinity s => exact congrArg _ (positive_mul_sign s)
  | zero s => exact congrArg _ (positive_mul_sign s)
  | finite s m e positive =>
      simp only [unit, UnpackedFloat.mul, positive_mul_sign, Nat.mul_comm (2 ^ _), neg_add_eq_sub]
      exact round_canonical positive h _

/-- A quotient by one has as many zeros behind the mantissa as the quotient was given more digits. -/
theorem divCore_unit (h : spec.targetExponent (totalExponent m e) = e) :
    ∃ k : Nat, divCore spec m e (2 ^ spec.mantissaBitsWithoutImplicit)
      (-spec.mantissaBitsWithoutImplicit) = (m * 2 ^ k, e - k, .exact) := by
  have one : totalExponent (2 ^ spec.mantissaBitsWithoutImplicit)
      (-spec.mantissaBitsWithoutImplicit) = 1 := by
    rw [totalExponent, Nat.log2_two_pow]
    omega
  have lower : spec.targetExponent (totalExponent m e - 1) ≤ e := by
    rw [Format.targetExponent] at h ⊢
    omega
  obtain ⟨k, hk⟩ : ∃ k : Nat, spec.targetExponent (totalExponent m e - 1) = e - k :=
    ⟨(e - spec.targetExponent (totalExponent m e - 1)).toNat, by omega⟩
  have least : min (e - -(spec.mantissaBitsWithoutImplicit : Int)) (e - k) = e - k := by omega
  have amount : (e - -(spec.mantissaBitsWithoutImplicit : Int) - (e - k)).toNat =
      k + spec.mantissaBitsWithoutImplicit := by omega
  have digit := Nat.two_pow_pos spec.mantissaBitsWithoutImplicit
  refine ⟨k, ?_⟩
  simp only [divCore, one, hk, least, amount, Nat.shiftLeft_eq, Nat.pow_add, ← Nat.mul_assoc,
    Nat.mul_div_cancel _ digit, Nat.mul_mod_left]
  rfl

theorem div_unit (h : Canonical spec u) : UnpackedFloat.div spec u (unit spec) = u := by
  cases u with
  | notANumber => rfl
  | infinity s => exact congrArg _ (sign_div_positive s)
  | zero s => exact congrArg _ (sign_div_positive s)
  | finite s m e positive =>
      obtain ⟨k, quotient⟩ := divCore_unit h
      simp only [unit, UnpackedFloat.div, sign_div_positive, quotient]
      exact round_canonical positive h k

theorem add_zero_eq :
    UnpackedFloat.add spec u (.zero t) = u ∨
      ∃ s s', u = .zero s ∧ UnpackedFloat.add spec u (.zero t) = .zero s' := by
  cases u with
  | zero s => exact .inr ⟨s, by cases s <;> cases t <;> exact ⟨_, rfl, rfl⟩⟩
  | _ => exact .inl rfl

theorem zero_add_eq :
    UnpackedFloat.add spec (.zero t) u = u ∨
      ∃ s s', u = .zero s ∧ UnpackedFloat.add spec (.zero t) u = .zero s' := by
  cases u with
  | zero s => exact .inr ⟨s, by cases s <;> cases t <;> exact ⟨_, rfl, rfl⟩⟩
  | _ => exact .inl rfl

theorem sub_zero_eq :
    UnpackedFloat.sub spec u (.zero t) = u ∨
      ∃ s s', u = .zero s ∧ UnpackedFloat.sub spec u (.zero t) = .zero s' := by
  cases u with
  | zero s => exact .inr ⟨s, by cases s <;> cases t <;> exact ⟨_, rfl, rfl⟩⟩
  | _ => exact .inl rfl

end

/-- The order of summands makes no difference. -/
theorem add_comm (u v : UnpackedFloat) :
    UnpackedFloat.add spec u v = UnpackedFloat.add spec v u := by
  cases u with
  | notANumber => cases v <;> rfl
  | infinity s =>
      cases v with
      | infinity t => cases s <;> cases t <;> rfl
      | _ => rfl
  | zero s =>
      cases v with
      | zero t => cases s <;> cases t <;> rfl
      | _ => rfl
  | finite s m e h =>
      cases v with
      | finite t m' e' h' =>
          simp only [UnpackedFloat.add]
          rw [min_comm, Int.add_comm]
      | _ => rfl

end FloatFormat
end TensorGraph
