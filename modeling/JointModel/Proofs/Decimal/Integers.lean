import Mathlib
import JointModel.Decimal.Layout
import JointModel.Proofs.Decimal.Rounding

/-!
# Integers as doubles

The value of a double is the rational number that its bits stand for.  An integer becomes
the double of the rounded integer (`value?_ofInt`).

## Strategy

* A double in normal form has a mantissa of exactly 53 digits.  Packing it into bits and
  unpacking it again leaves it as it is, and the bits have its value.
* Small integers are shifted to 53 digits and multiplied by one, and large ones are rounded
  from a mantissa with 53 digits more.  Both times a mantissa `n * 2 ^ k` is rounded whose
  exponent is `-k` (`exists_rounded`).
-/

namespace JointModel.Decimal

open Float.Model UnpackedFloat

/-- The number that a double stands for. -/
def Shape.value? : Shape → Option ℚ
  | .nan => none
  | .infinite _ => none
  | .zero _ => some 0
  | .finite negative magnitude =>
    some ((if negative then -1 else 1) * (magnitude.significand * 2 ^ magnitude.exponent))

/-- The number that the bits of a double stand for. -/
def value? (x : Float) : Option ℚ := (Shape.ofBits x.toBits.toNat).value?

/-! ## Normal doubles -/

/-- A positive double with a mantissa of 53 digits. -/
structure Normal where
  mantissa : ℕ
  exponent : ℤ
  low : 2 ^ 52 ≤ mantissa
  high : mantissa < 2 ^ 53
  least : -1074 ≤ exponent
  greatest : exponent ≤ 971

namespace Normal

theorem pos (x : Normal) : 0 < x.mantissa := lt_of_lt_of_le (Nat.two_pow_pos 52) x.low

/-- The number that it stands for. -/
def value (x : Normal) : ℚ := x.mantissa * 2 ^ x.exponent

/-- It or its negation, in parts. -/
def unpacked (x : Normal) (s : Sign) : UnpackedFloat := .finite s x.mantissa x.exponent x.pos

/-- It or its negation, as a double. -/
def double (x : Normal) (s : Sign) : Float := .ofModel (.pack (x.unpacked s))

variable (x : Normal) (s : Sign)

theorem log2_mantissa : x.mantissa.log2 = 52 := (Nat.log2_eq_iff x.pos.ne').mpr ⟨x.low, x.high⟩

/-- The exponent as it is stored, with a bias that makes it positive. -/
def biased : ℕ := (x.exponent + 1075).toNat

theorem biased_bounds : 0 < x.biased ∧ x.biased < 2047 ∧ (x.biased : ℤ) - 1075 = x.exponent := by
  have hleast := x.least
  have hgreatest := x.greatest
  unfold biased
  omega

/-- The first digit of the mantissa is not stored. -/
def fraction : ℕ := x.mantissa - 2 ^ 52

theorem fraction_bounds : x.fraction < 2 ^ 52 ∧ 2 ^ 52 + x.fraction = x.mantissa := by
  have hlow := x.low
  have hhigh := x.high
  unfold fraction
  omega

theorem toNat_biased : (BitVec.ofNat 11 x.biased).toNat = x.biased := by
  obtain ⟨-, hlt, -⟩ := x.biased_bounds
  rw [BitVec.toNat_ofNat, Nat.mod_eq_of_lt (by omega)]

theorem toNat_fraction : (BitVec.ofNat 52 x.mantissa).toNat = x.fraction := by
  obtain ⟨hlt, heq⟩ := x.fraction_bounds
  rw [BitVec.toNat_ofNat, ← heq, Nat.add_mod_left, Nat.mod_eq_of_lt hlt]

theorem pack_unpacked : UnpackedFloat.pack Format.binary64 (x.unpacked s) =
    packComponents Format.binary64 s (BitVec.ofNat 11 x.biased) (BitVec.ofNat 52 x.mantissa) := by
  obtain ⟨-, hlt, -⟩ := x.biased_bounds
  have hbias : (x.exponent + (Format.binary64.exponentBias : ℤ) + ((52 : ℕ) : ℤ)).toNat =
      x.biased := by
    have hvalue : Format.binary64.exponentBias = 1023 := rfl
    rw [hvalue, biased]
    omega
  have hfits : ¬ 2 ^ 11 ≤ x.biased + 1 := by omega
  have hdigits : 52 + 1 = Format.binary64.mantissaBits := rfl
  simp only [unpacked, UnpackedFloat.pack, x.log2_mantissa]
  rw [hbias, if_neg hfits, if_pos hdigits]

theorem unpack_double : (x.double s).toModel.unpack = x.unpacked s := by
  obtain ⟨hpos, hlt, hback⟩ := x.biased_bounds
  have hexponent := x.toNat_biased
  have hfinite : BitVec.ofNat 11 x.biased ≠ -1#11 := by
    intro hones
    have hvalue : (BitVec.ofNat 11 x.biased).toNat = 2047 := congrArg BitVec.toNat hones
    omega
  have hnormal : BitVec.ofNat 11 x.biased ≠ 0#11 := by
    intro hzero
    have hvalue : (BitVec.ofNat 11 x.biased).toNat = 0 := congrArg BitVec.toNat hzero
    omega
  have hdigits : (1#1 ++ BitVec.ofNat 52 x.mantissa).toNat = x.mantissa := by
    have hone : (1#1).toNat = 1 := rfl
    rw [BitVec.toNat_append, ← Nat.shiftLeft_add_eq_or_of_lt (BitVec.isLt _), x.toNat_fraction,
      Nat.shiftLeft_eq, hone, one_mul, x.fraction_bounds.2]
  have hbias : Format.binary64.exponentBias = 1023 := rfl
  have hunbiased : (x.biased : ℤ) - (((1023 : ℕ) : ℤ) + ((52 : ℕ) : ℤ)) = x.exponent := by omega
  change UnpackedFloat.unpack Format.binary64 (UnpackedFloat.pack Format.binary64 (x.unpacked s)) = _
  rw [x.pack_unpacked]
  simp only [UnpackedFloat.unpack, unpackExponent_packComponents, unpackMantissa_packComponents,
    unpackSign_packComponents, Sign.ofBitVec_toBitVec, if_neg hfinite, if_neg hnormal, hexponent,
    hdigits, hbias, hunbiased]
  rfl

/-- The bits: the sign, the exponent and the mantissa without its first digit. -/
theorem toNat_bits : (x.double s).toBits.toNat =
    (s.toBitVec.toNat * 2 ^ 11 + x.biased) * 2 ^ 52 + x.fraction := by
  obtain ⟨-, hlt, -⟩ := x.biased_bounds
  change (UnpackedFloat.pack Format.binary64 (x.unpacked s)).toNat = _
  rw [x.pack_unpacked, packComponents, BitVec.toNat_append, BitVec.toNat_append, x.toNat_biased,
    x.toNat_fraction, ← Nat.shiftLeft_add_eq_or_of_lt x.fraction_bounds.1,
    ← Nat.shiftLeft_add_eq_or_of_lt (by omega), Nat.shiftLeft_eq, Nat.shiftLeft_eq]

end Normal

/-- The parts of the bits of a normal double. -/
theorem Shape.ofBits_normal {sign exponent fraction : ℕ} (hsign : sign ≤ 1) (hpos : 0 < exponent)
    (hexponent : exponent < 2047) (hfraction : fraction < 2 ^ 52) :
    ∃ narrow, Shape.ofBits ((sign * 2 ^ 11 + exponent) * 2 ^ 52 + fraction) =
      .finite (sign == 1) ⟨2 ^ 52 + fraction, exponent - 1075, narrow⟩ := by
  have hbit : ((sign * 2 ^ 11 + exponent) * 2 ^ 52 + fraction).testBit 63 = (sign == 1) := by
    rw [Nat.testBit_eq_decide_div_mod_eq, Bool.eq_iff_iff, decide_eq_true_eq, beq_iff_eq]
    omega
  have hmiddle : ((sign * 2 ^ 11 + exponent) * 2 ^ 52 + fraction) >>> 52 % 2048 = exponent := by
    rw [Nat.shiftRight_eq_div_pow]
    omega
  have hrest : ((sign * 2 ^ 11 + exponent) * 2 ^ 52 + fraction) % 2 ^ 52 = fraction := by omega
  have hnormal : (exponent == 0) = false := beq_eq_false_iff_ne.mpr hpos.ne'
  have hfinite : (exponent == 2047) = false := beq_eq_false_iff_ne.mpr hexponent.ne
  simp only [Shape.ofBits, Nat.one_shiftLeft, hbit, hmiddle, hrest, hnormal, hfinite,
    Bool.false_eq_true, if_false]
  exact ⟨_, rfl⟩

/-- The bits have the value. -/
theorem Normal.value?_double (x : Normal) (s : Sign) :
    value? (x.double s) = some (((s.apply 1 : ℤ) : ℚ) * x.value) := by
  obtain ⟨hpos, hlt, hback⟩ := x.biased_bounds
  obtain ⟨hfraction, hdigits⟩ := x.fraction_bounds
  have hsign : s.toBitVec.toNat ≤ 1 := by cases s <;> decide
  obtain ⟨narrow, hshape⟩ := Shape.ofBits_normal hsign hpos hlt hfraction
  rw [value?, x.toNat_bits, hshape, Shape.value?, hback, hdigits, Normal.value]
  cases s <;> simp [Sign.toBitVec, Sign.apply]

/-! ## Rounding to normal doubles -/

theorem targetExponent_eq (m : ℕ) (e : ℤ) (h : -1022 ≤ m.log2 + e) :
    Format.binary64.targetExponent (totalExponent m e) = m.log2 + e - 52 := by
  have hdigits : Format.binary64.mantissaBits = 53 := rfl
  have hleast : Format.binary64.minExponent = -1074 := rfl
  rw [Format.targetExponent, totalExponent, hdigits, hleast]
  omega

/-- As many digits are dropped as there are more than 53. -/
theorem shiftToTargetExponent_eq {m t : ℕ} {e : ℤ} (h : -1022 ≤ m.log2 + e)
    (ht : m.log2 = 52 + t) : shiftToTargetExponent Format.binary64 m e .exact =
      ((⟨m, false, false⟩ : ExtendedMantissa) >>> t, e + t) := by
  have hamount : ((m.log2 : ℤ) + e - 52 - e).toNat = t := by omega
  rw [shiftToTargetExponent, targetExponent_eq m e h, shiftToExponent, hamount]
  rfl

/-- Nothing is dropped from a mantissa of 53 digits. -/
theorem Normal.shift_eq (x : Normal) :
    shiftToTargetExponent Format.binary64 x.mantissa x.exponent .exact =
      (⟨x.mantissa, false, false⟩, x.exponent) := by
  have hleast := x.least
  have hlog := x.log2_mantissa
  rw [shiftToTargetExponent_eq (t := 0) (by omega) hlog, Nat.cast_zero, add_zero]
  rfl

/-- A rounded mantissa may have got one digit more, which is a zero. -/
theorem exists_shifted {q : ℕ} {e : ℤ} (hlow : 2 ^ 52 ≤ q) (hhigh : q ≤ 2 ^ 53)
    (hleast : -1074 ≤ e) (hgreatest : e ≤ 970) : ∃ x : Normal, x.value = q * 2 ^ e ∧
      shiftToTargetExponent Format.binary64 q e .exact =
        (⟨x.mantissa, false, false⟩, x.exponent) := by
  rcases hhigh.lt_or_eq with hlt | rfl
  · let x : Normal := ⟨q, e, hlow, hlt, hleast, by omega⟩
    exact ⟨x, rfl, x.shift_eq⟩
  · let x : Normal := ⟨2 ^ 52, e + 1, le_rfl, by norm_num, by omega, by omega⟩
    have hlog : (2 ^ 53).log2 = 52 + 1 := Nat.log2_two_pow
    refine ⟨x, ?_, ?_⟩
    · simp only [x, Normal.value]
      rw [zpow_add_one₀ two_ne_zero]
      norm_num
      ring
    · rw [shiftToTargetExponent_eq (by omega) hlog]
      rfl

/-- What is rounded to a normal mantissa becomes that double. -/
theorem Normal.roundWithAccuracy_eq {x : Normal} {s : Sign} {m q t : ℕ} {e : ℤ}
    (h : -1022 ≤ m.log2 + e) (ht : m.log2 = 52 + t) (hround : nearest m (2 ^ t) = q)
    (hshift : shiftToTargetExponent Format.binary64 q (e + t) .exact =
      (⟨x.mantissa, false, false⟩, x.exponent)) :
    roundWithAccuracy Format.binary64 s m e .exact = x.unpacked s := by
  rw [roundWithAccuracy, shiftToTargetExponent_eq h ht]
  simp only [roundedMantissa_shiftRight, hround, hshift, x.pos.ne', dite_false]
  rfl

theorem log2_mul_two_pow {n : ℕ} (hn : 0 < n) (k : ℕ) : (n * 2 ^ k).log2 = n.log2 + k := by
  rw [Nat.log2_eq_iff (Nat.mul_pos hn (Nat.two_pow_pos k)).ne']
  constructor
  · rw [pow_add]
    exact Nat.mul_le_mul_right _ (Nat.log2_self_le hn.ne')
  · rw [Nat.add_right_comm, pow_add]
    exact Nat.mul_lt_mul_of_pos_right Nat.lt_log2_self (Nat.two_pow_pos k)

/-- If `m` has 53 digits and `t` more, its first 53 digits are a normal mantissa, or have one
digit more. -/
theorem nearest_bounds {m t : ℕ} (ht : m.log2 = 52 + t) :
    2 ^ 52 ≤ nearest m (2 ^ t) ∧ nearest m (2 ^ t) ≤ 2 ^ 53 := by
  have hpos : m ≠ 0 := by
    rintro rfl
    rw [Nat.log2_zero] at ht
    omega
  constructor
  · refine le_trans ?_ (div_le_nearest _ _)
    rw [Nat.le_div_iff_mul_le (Nat.two_pow_pos t), ← pow_add, ← ht]
    exact Nat.log2_self_le hpos
  · refine nearest_le (Nat.two_pow_pos t) ?_
    rw [← pow_add, show 53 + t = 52 + t + 1 by omega, ← ht]
    exact Nat.lt_log2_self

/-- The first 53 digits of `n * 2 ^ k` have the value of the rounded integer. -/
theorem nearest_value {n k t : ℕ} (ht : n.log2 + k = 52 + t) :
    (nearest (n * 2 ^ k) (2 ^ t) : ℚ) * 2 ^ (-(k : ℤ) + t) = roundNat n := by
  rcases Nat.le_total n.log2 52 with hsmall | hlarge
  · obtain ⟨j, rfl⟩ : ∃ j, k = j + t := ⟨52 - n.log2, by omega⟩
    have hexponent : -((j + t : ℕ) : ℤ) + t = -(j : ℤ) := by omega
    rw [pow_add, ← mul_assoc, nearest_mul_self (Nat.two_pow_pos t), roundNat_of_log2_le hsmall,
      hexponent, zpow_neg, zpow_natCast]
    push_cast
    rw [mul_assoc, mul_inv_cancel₀ (pow_ne_zero _ two_ne_zero), mul_one]
  · obtain ⟨j, rfl⟩ : ∃ j, t = j + k := ⟨n.log2 - 52, by omega⟩
    have hexponent : -(k : ℤ) + ((j + k : ℕ) : ℤ) = (j : ℤ) := by omega
    have hspacing : spacing n = 2 ^ j := by
      rw [spacing]
      congr 1
      omega
    rw [pow_add, nearest_mul_right (Nat.two_pow_pos k), hexponent, zpow_natCast, roundNat, hspacing]
    push_cast
    rfl

/-- A positive integer that is given with at least 53 digits is rounded to a normal double. -/
theorem exists_rounded (s : Sign) {n k : ℕ} (hn : 0 < n) (hfits : n.log2 ≤ 1022)
    (hk : 52 ≤ n.log2 + k) : ∃ x : Normal, x.value = roundNat n ∧
      roundWithAccuracy Format.binary64 s (n * 2 ^ k) (-k) .exact = x.unpacked s := by
  obtain ⟨t, ht⟩ := Nat.exists_eq_add_of_le hk
  have hlog : (n * 2 ^ k).log2 = 52 + t := (log2_mul_two_pow hn k).trans ht
  obtain ⟨hlow, hhigh⟩ := nearest_bounds hlog
  obtain ⟨x, hvalue, hshift⟩ := exists_shifted (e := -(k : ℤ) + t) hlow hhigh (by omega) (by omega)
  exact ⟨x, hvalue.trans (nearest_value ht), x.roundWithAccuracy_eq (by omega) hlog rfl hshift⟩

/-! ## Converting integers -/

/-- The number one, as a double. -/
theorem unpack_one : (Float.ofBits 0x3FF0000000000000).toModel.unpack =
    .finite .positive (2 ^ 52) (-52) (by decide) := by
  rfl

/-- To multiply by one changes nothing. -/
theorem Normal.mul_one (x : Normal) :
    x.double .positive * Float.ofBits 0x3FF0000000000000 = x.double .positive := by
  have hleast := x.least
  have hlog : (x.mantissa * 2 ^ 52).log2 = 52 + 52 := by
    rw [log2_mul_two_pow x.pos, x.log2_mantissa]
  have hback : x.exponent + -52 + ((52 : ℕ) : ℤ) = x.exponent := by omega
  have hround : roundWithAccuracy Format.binary64 (.positive * .positive) (x.mantissa * 2 ^ 52)
      (x.exponent + -52) .exact = x.unpacked .positive :=
    x.roundWithAccuracy_eq (by omega) hlog (nearest_mul_self (Nat.two_pow_pos 52) _)
      (hback.symm ▸ x.shift_eq)
  have hproduct : x.double .positive * Float.ofBits 0x3FF0000000000000 =
      .ofModel (.pack (UnpackedFloat.mul Format.binary64 (x.double .positive).toModel.unpack
        (Float.ofBits 0x3FF0000000000000).toModel.unpack)) := rfl
  rw [hproduct, x.unpack_double, unpack_one, Normal.unpacked, UnpackedFloat.mul, hround]
  rfl

/-- Integers of up to 53 digits are shifted until they have 53. -/
theorem unpacked_ofNat {n : ℕ} (hn : 0 < n) (hsmall : n.log2 ≤ 52) :
    UnpackedFloat.ofNat Format.binary64 n =
      roundWithAccuracy Format.binary64 .positive (n * 2 ^ (52 - n.log2)) (-(52 - n.log2 : ℕ))
        .exact := by
  have htarget := targetExponent_eq n 0 (by omega)
  have hcompare : compare (n : ℤ) 0 = .gt := Int.compare_eq_gt.mpr (by omega)
  have hamount : (-((n.log2 : ℤ) + 0 - 52)).toNat = 52 - n.log2 := by omega
  simp only [UnpackedFloat.ofNat, UnpackedFloat.ofInt, UnpackedFloat.normalize, hcompare,
    UnpackedFloat.round, Int.toNat_natCast, htarget, decreaseExponent, zero_sub, hamount,
    Nat.shiftLeft_eq]

/-- Then they are multiplied by one. -/
theorem exists_small {n : ℕ} (hn : 0 < n) (hsmall : n < 2 ^ 53) : ∃ x : Normal,
    x.value = roundNat n ∧
      n.toUInt64.toFloat * Float.ofBits 0x3FF0000000000000 = x.double .positive := by
  have hlog : n.log2 < 53 := (Nat.log2_lt hn.ne').mpr hsmall
  obtain ⟨x, hvalue, hround⟩ := exists_rounded .positive (k := 52 - n.log2) hn (by omega) (by omega)
  have hword : n.toUInt64.toNat = n :=
    UInt64.toNat_ofNat_of_lt' (hsmall.trans (by decide : 2 ^ 53 < UInt64.size))
  have hconverted : n.toUInt64.toFloat = x.double .positive := by
    rw [UInt64.toFloat, Float.Model.ofUInt64, UnpackedFloat.ofUInt64, hword,
      unpacked_ofNat hn (by omega), hround]
    rfl
  exact ⟨x, hvalue, by rw [hconverted, x.mul_one]⟩

/-- Larger integers are rounded from 53 digits more. -/
theorem unpacked_ofScientific {n : ℕ} (hn : 0 < n) :
    UnpackedFloat.ofScientific Format.binary64 n 0 =
      roundWithAccuracy Format.binary64 .positive (n * 2 ^ 53) (-(53 : ℕ)) .exact := by
  have hrange : (2 : ℤ) ^ Format.binary64.exponentBits = 2048 := rfl
  have hhigh : ¬ (0 : ℤ) > 2 ^ Format.binary64.exponentBits := by
    rw [hrange]
    omega
  have hlow : ¬ (0 : ℤ) < -((2 : ℤ) ^ Format.binary64.exponentBits + n.log2) := by
    rw [hrange]
    omega
  have hmantissa : n <<< Format.binary64.mantissaBits * 10 ^ Int.toNat 0 = n * 2 ^ 53 := by
    rw [Int.toNat_zero, pow_zero, mul_one, Nat.shiftLeft_eq]
    rfl
  rw [UnpackedFloat.ofScientific, dif_neg hn.ne', if_neg hhigh, if_neg hlow, if_pos le_rfl,
    UnpackedFloat.mul, hmantissa]
  rfl

/-- A positive integer becomes a normal double. -/
theorem exists_ofNat {n : ℕ} (hn : 0 < n) (hfits : n.log2 ≤ 1022) :
    ∃ x : Normal, x.value = roundNat n ∧ Float.ofNat n = x.double .positive := by
  unfold Float.ofNat OfScientific.ofScientific instOfScientificFloat Float.ofScientific
  dsimp only
  split
  · next hsmall => exact exists_small hn hsmall.1
  · obtain ⟨x, hvalue, hround⟩ := exists_rounded .positive (k := 53) hn hfits (by omega)
    refine ⟨x, hvalue, ?_⟩
    rw [Normal.double, ← hround, ← unpacked_ofScientific hn]
    rfl

theorem Normal.neg_double (x : Normal) :
    Float.neg (x.double .positive) = x.double .negative := by
  have hnegated : Float.neg (x.double .positive) =
      .ofModel (.pack (x.double .positive).toModel.unpack.neg) := rfl
  rw [hnegated, x.unpack_double]
  rfl

/-- The value of an integer as a double is the rounded integer. -/
theorem value?_ofInt {z : ℤ} (hz : z.natAbs < 2 ^ 64) :
    value? (Float.ofInt z) = some (roundInt z : ℚ) := by
  have hfits : z.natAbs.log2 ≤ 1022 := by
    by_cases hzero : z.natAbs = 0
    · rw [hzero, Nat.log2_zero]
      omega
    · have hlog : z.natAbs.log2 < 64 := (Nat.log2_lt hzero).mpr hz
      omega
  clear hz
  cases z with
  | ofNat n =>
      rcases Nat.eq_zero_or_pos n with rfl | hn
      · rfl
      · obtain ⟨x, hvalue, hdouble⟩ := exists_ofNat hn hfits
        have hconvert : Float.ofInt (Int.ofNat n) = Float.ofNat n := rfl
        have hround : roundInt (Int.ofNat n) = roundNat n := roundInt_natCast n
        rw [hconvert, hdouble, x.value?_double, hvalue, hround]
        simp [Sign.apply]
  | negSucc n =>
      obtain ⟨x, hvalue, hdouble⟩ := exists_ofNat (Nat.succ_pos n) hfits
      have hconvert : Float.ofInt (Int.negSucc n) = Float.neg (Float.ofNat n.succ) := rfl
      have hround : roundInt (Int.negSucc n) = -roundNat n.succ := by
        rw [Int.negSucc_eq, roundInt_neg, ← roundInt_natCast]
        rfl
      rw [hconvert, hdouble, x.neg_double, x.value?_double, hvalue, hround]
      simp [Sign.apply]

end JointModel.Decimal
