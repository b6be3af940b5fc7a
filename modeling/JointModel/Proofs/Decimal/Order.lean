import JointModel.Proofs.Decimal.Integers
import JointModel.Proofs.Decimal.Reading
import Mathlib.Data.EReal.Basic

/-!
# The order of doubles

Every double that is no NaN has a value among the extended real numbers (`extended?`), and
doubles are compared by their values: `lt_iff` and `le_iff`.  A NaN has no value and compares
with nothing.  Both zeros have the value 0.

## Strategy

Doubles are compared in parts: a sign, an exponent and a significand, in this order.  The parts
are those of the shape by which a double is written (`unpack_eq_parts`).  They are canonical, so
a larger exponent makes a larger value whatever the significands are
(`Binary.value_lt_of_exponent_lt`), and comparing parts is comparing values
(`Shape.compare_parts`).
-/

namespace JointModel.Decimal

open Float.Model UnpackedFloat

/-! ## Parts -/

/-- The sign of a double, from its bit. -/
def signOf (negative : Bool) : Sign := if negative then .negative else .positive

/-- A shape in the parts by which doubles are compared. -/
def Shape.parts : Shape → UnpackedFloat
  | .nan => .notANumber
  | .infinite negative => .infinity (signOf negative)
  | .zero negative => .zero (signOf negative)
  | .finite negative b =>
    if h : 0 < b.significand then .finite (signOf negative) b.significand b.exponent h
    else .zero (signOf negative)

section Bits

variable (bits : BitVec Format.binary64.numBits)

theorem ofBitVec_unpackSign : Sign.ofBitVec (unpackSign bits) = signOf (bits.toNat.testBit 63) := by
  have hsign : (unpackSign bits).toNat = bits.toNat / 2 ^ 63 % 2 := by
    rw [unpackSign, BitVec.toNat_cast, BitVec.extractLsb_toNat, Nat.shiftRight_eq_div_pow]
    rfl
  have hzero : unpackSign bits = 0#1 ↔ bits.toNat / 2 ^ 63 % 2 = 0 := by
    rw [← hsign]
    exact ⟨fun h => by rw [h]; rfl, fun h => BitVec.eq_of_toNat_eq h⟩
  rw [Sign.ofBitVec, signOf, Nat.testBit_eq_decide_div_mod_eq]
  by_cases h : bits.toNat / 2 ^ 63 % 2 = 0
  · rw [if_pos (hzero.mpr h), if_neg (by rw [decide_eq_true_eq]; omega)]
  · rw [if_neg (mt hzero.mp h), if_pos (by rw [decide_eq_true_eq]; omega)]

/-- Bits are unpacked to the parts of their shape. -/
theorem unpack_eq_parts :
    UnpackedFloat.unpack Format.binary64 bits = (Shape.ofBits bits.toNat).parts := by
  have hexponent := toNat_unpackExponent bits
  have hmantissa := toNat_unpackMantissa bits
  have hspecial : unpackExponent bits = -1#_ ↔ (bits.toNat >>> 52) % 2048 = 2047 := by
    rw [← hexponent]
    exact ⟨fun h => congrArg BitVec.toNat h, fun h => BitVec.eq_of_toNat_eq h⟩
  have hleast : unpackExponent bits = 0#_ ↔ (bits.toNat >>> 52) % 2048 = 0 := by
    rw [← hexponent]
    exact ⟨fun h => congrArg BitVec.toNat h, fun h => BitVec.eq_of_toNat_eq h⟩
  have hnone : unpackMantissa bits = 0#_ ↔ bits.toNat % (1 <<< 52) = 0 := by
    rw [← hmantissa]
    exact ⟨fun h => congrArg BitVec.toNat h, fun h => BitVec.eq_of_toNat_eq h⟩
  have hdigits : (1#1 ++ unpackMantissa bits).toNat = (1 <<< 52) + bits.toNat % (1 <<< 52) := by
    rw [← hmantissa, BitVec.toNat_append, ← Nat.shiftLeft_add_eq_or_of_lt (BitVec.isLt _)]
    rfl
  unfold UnpackedFloat.unpack Shape.ofBits
  dsimp only
  rw [ofBitVec_unpackSign]
  simp only [beq_iff_eq, hspecial, hleast, hnone]
  split_ifs with hones hempty hzero hfraction
  · rfl
  · rfl
  · rfl
  · rw [Shape.parts, dif_pos (Nat.pos_of_ne_zero hfraction)]
    congr 1
    rw [hexponent, hzero]
    rfl
  · rw [Shape.parts, dif_pos (Nat.add_pos_left (by decide) _)]
    congr 1

end Bits

/-! ## Comparisons -/

theorem some_lt {α : Type} [LinearOrder α] {a b : α} (h : a < b) :
    some Ordering.lt = some (compare a b) := by rw [compare_lt_iff_lt.mpr h]

theorem some_gt {α : Type} [LinearOrder α] {a b : α} (h : b < a) :
    some Ordering.gt = some (compare a b) := by rw [compare_gt_iff_gt.mpr h]

theorem compare_neg (a b : ℚ) : compare (-a) (-b) = (compare a b).swap := by
  rcases lt_trichotomy a b with hlt | rfl | hgt
  · rw [compare_lt_iff_lt.mpr hlt, compare_gt_iff_gt.mpr (neg_lt_neg hlt)]
    rfl
  · rw [compare_eq_iff_eq.mpr rfl, compare_eq_iff_eq.mpr rfl]
    rfl
  · rw [compare_gt_iff_gt.mpr hgt, compare_lt_iff_lt.mpr (neg_lt_neg hgt)]
    rfl

theorem compare_coe (q q' : ℚ) : compare ((q : ℝ) : EReal) ((q' : ℝ) : EReal) = compare q q' := by
  rcases lt_trichotomy q q' with hlt | rfl | hgt
  · rw [compare_lt_iff_lt.mpr hlt, compare_lt_iff_lt.mpr (by exact_mod_cast hlt)]
  · rw [compare_eq_iff_eq.mpr rfl, compare_eq_iff_eq.mpr rfl]
  · rw [compare_gt_iff_gt.mpr hgt, compare_gt_iff_gt.mpr (by exact_mod_cast hgt)]

/-! ## Values -/

/-- The number that a shape stands for among the extended real numbers. -/
noncomputable def Shape.extended? : Shape → Option EReal
  | .infinite true => some ⊥
  | .infinite false => some ⊤
  | shape => shape.value?.map fun q : ℚ => ((q : ℝ) : EReal)

/-- The magnitude of a double in parts. -/
def Binary.value (b : Binary) : ℚ := b.significand * 2 ^ b.exponent

variable {b b' : Binary} {s s' : Shape}

theorem Binary.value_pos (hb : b.Canonical) : 0 < b.value :=
  mul_pos (Nat.cast_pos.mpr hb.pos) (zpow_pos two_pos _)

/-- A larger exponent makes a larger value, whatever the significands are. -/
theorem Binary.value_lt_of_exponent_lt (hb : b.Canonical) (hb' : b'.Canonical)
    (h : b.exponent < b'.exponent) : b.value < b'.value := by
  have hlarge : 2 ^ 52 ≤ b'.significand := by
    have hleast := hb.least
    rcases hb'.normal with hexponent | hlarge
    · omega
    · exact hlarge
  calc b.value
      < 2 ^ 53 * 2 ^ b.exponent :=
        mul_lt_mul_of_pos_right (by exact_mod_cast hb.high) (zpow_pos two_pos _)
    _ = 2 ^ 52 * 2 ^ (b.exponent + 1) := by
        rw [zpow_add_one₀ two_ne_zero]
        ring
    _ ≤ 2 ^ 52 * 2 ^ b'.exponent :=
        mul_le_mul_of_nonneg_left (zpow_le_zpow_right₀ one_le_two h) (by positivity)
    _ ≤ b'.value := mul_le_mul_of_nonneg_right (by exact_mod_cast hlarge) (zpow_pos two_pos _).le

/-- Magnitudes are compared by exponent first. -/
theorem Binary.compare_value (hb : b.Canonical) (hb' : b'.Canonical) :
    (compare b.exponent b'.exponent).then (compare b.significand b'.significand) =
      compare b.value b'.value := by
  rcases lt_trichotomy b.exponent b'.exponent with hlt | heq | hgt
  · rw [compare_lt_iff_lt.mpr hlt, compare_lt_iff_lt.mpr (value_lt_of_exponent_lt hb hb' hlt)]
    rfl
  · have hpow : (0 : ℚ) < 2 ^ b'.exponent := zpow_pos two_pos _
    rw [compare_eq_iff_eq.mpr heq, Ordering.then, value, value, heq]
    rcases lt_trichotomy b.significand b'.significand with hlt | heq | hgt
    · have hvalue := mul_lt_mul_of_pos_right (Nat.cast_lt (α := ℚ).mpr hlt) hpow
      rw [compare_lt_iff_lt.mpr hlt, compare_lt_iff_lt.mpr hvalue]
    · rw [compare_eq_iff_eq.mpr heq, heq, compare_eq_iff_eq.mpr rfl]
    · have hvalue := mul_lt_mul_of_pos_right (Nat.cast_lt (α := ℚ).mpr hgt) hpow
      rw [compare_gt_iff_gt.mpr hgt, compare_gt_iff_gt.mpr hvalue]
  · rw [compare_gt_iff_gt.mpr hgt, compare_gt_iff_gt.mpr (value_lt_of_exponent_lt hb' hb hgt)]
    rfl

/-- The parts of a shape are those of a double. -/
def Shape.Canonical (s : Shape) : Prop := ∀ {negative b}, s = .finite negative b → b.Canonical

theorem Shape.parts_finite (hb : b.Canonical) (negative : Bool) :
    (Shape.finite negative b).parts = .finite (signOf negative) b.significand b.exponent hb.pos :=
  dif_pos hb.pos

theorem Shape.value?_finite (negative : Bool) (b : Binary) :
    (Shape.finite negative b).value? = some (if negative then -b.value else b.value) := by
  cases negative <;> simp [Shape.value?, Binary.value]

/-- Finite doubles are compared by their values, and a zero has no sign. -/
theorem Shape.compare_of_value? {q q' : ℚ} (hs : s.Canonical) (hs' : s'.Canonical)
    (hq : s.value? = some q) (hq' : s'.value? = some q') :
    s.parts.compare s'.parts = some (compare q q') := by
  cases s with
  | nan | infinite => cases hq
  | zero sign =>
      cases hq
      cases s' with
      | nan | infinite => cases hq'
      | zero sign' =>
          cases hq'
          rw [compare_eq_iff_eq.mpr rfl]
          rfl
      | finite negative b' =>
          have hpos := Binary.value_pos (hs' rfl)
          rw [value?_finite] at hq'
          rw [parts_finite (hs' rfl)]
          cases negative <;> cases hq'
          · exact some_lt hpos
          · exact some_gt (neg_neg_of_pos hpos)
  | finite negative b =>
      have hpos := Binary.value_pos (hs rfl)
      rw [value?_finite] at hq
      rw [parts_finite (hs rfl)]
      cases s' with
      | nan | infinite => cases hq'
      | zero sign' =>
          cases hq'
          cases negative <;> cases hq
          · exact some_gt hpos
          · exact some_lt (neg_neg_of_pos hpos)
      | finite negative' b' =>
          have hpos' := Binary.value_pos (hs' rfl)
          have hcompare := Binary.compare_value (hs rfl) (hs' rfl)
          rw [value?_finite] at hq'
          rw [parts_finite (hs' rfl)]
          cases negative <;> cases negative' <;> cases hq <;> cases hq'
          · exact congrArg some hcompare
          · exact some_gt ((neg_neg_of_pos hpos').trans hpos)
          · exact some_lt ((neg_neg_of_pos hpos).trans hpos')
          · rw [if_pos rfl, if_pos rfl, compare_neg]
            exact congrArg (fun o => some (Ordering.swap o)) hcompare

theorem Shape.extended?_of_value? {q : ℚ} (h : s.value? = some q) :
    s.extended? = some ((q : ℝ) : EReal) := by
  cases s with
  | nan | infinite => cases h
  | zero | finite => exact congrArg (Option.map fun q : ℚ => ((q : ℝ) : EReal)) h

/-- Every shape is a NaN, an infinity or a number. -/
theorem Shape.cases_value? (s : Shape) :
    s = .nan ∨ (∃ negative, s = .infinite negative) ∨ ∃ q, s.value? = some q := by
  cases s with
  | nan => exact .inl rfl
  | infinite negative => exact .inr (.inl ⟨negative, rfl⟩)
  | zero | finite => exact .inr (.inr ⟨_, rfl⟩)

/-- Infinities lie beyond all numbers. -/
theorem Shape.compare_infinite {q : ℚ} (hs : s.Canonical) (hq : s.value? = some q)
    (negative : Bool) :
    (Shape.infinite negative).parts.compare s.parts =
        some (if negative then .lt else .gt) ∧
      s.parts.compare (Shape.infinite negative).parts =
        some (if negative then .gt else .lt) := by
  cases s with
  | nan | infinite => cases hq
  | zero sign => cases negative <;> exact ⟨rfl, rfl⟩
  | finite sign b =>
      rw [parts_finite (hs rfl)]
      cases negative <;> cases sign <;> exact ⟨rfl, rfl⟩

theorem compare_notANumber (u : UnpackedFloat) : u.compare .notANumber = none := by
  cases u with
  | notANumber | zero => rfl
  | infinity sign | finite sign => cases sign <;> rfl

/-- Shapes are compared by their values. -/
theorem Shape.compare_parts (hs : s.Canonical) (hs' : s'.Canonical) :
    s.parts.compare s'.parts = s.extended?.bind fun a => s'.extended?.map fun b => compare a b := by
  obtain rfl | ⟨negative, rfl⟩ | ⟨q, hq⟩ := s.cases_value?
  · rfl
  · obtain rfl | ⟨negative', rfl⟩ | ⟨q', hq'⟩ := s'.cases_value?
    · cases negative <;> rfl
    · cases negative <;> cases negative'
      · exact congrArg some (compare_eq_iff_eq.mpr rfl).symm
      · exact some_gt bot_lt_top
      · exact some_lt bot_lt_top
      · exact congrArg some (compare_eq_iff_eq.mpr rfl).symm
    · rw [(compare_infinite hs' hq' negative).1, extended?_of_value? hq']
      cases negative
      · exact some_gt (EReal.coe_lt_top q')
      · exact some_lt (EReal.bot_lt_coe q')
  · rw [extended?_of_value? hq]
    obtain rfl | ⟨negative', rfl⟩ | ⟨q', hq'⟩ := s'.cases_value?
    · exact compare_notANumber s.parts
    · rw [(compare_infinite hs hq negative').2]
      cases negative'
      · exact some_lt (EReal.coe_lt_top q)
      · exact some_gt (EReal.bot_lt_coe q)
    · rw [compare_of_value? hs hs' hq hq', extended?_of_value? hq', Option.bind_some,
        Option.map_some, compare_coe]

/-! ## Doubles -/

/-- The value of a double among the extended real numbers; a NaN has none. -/
noncomputable def extended? (x : Float) : Option EReal := (Shape.ofBits x.toBits.toNat).extended?

variable {x y : Float}

theorem compare_unpack (x y : Float) : x.toModel.unpack.compare y.toModel.unpack =
    (extended? x).bind fun a => (extended? y).map fun b => compare a b := by
  have hx : x.toModel.unpack = (Shape.ofBits x.toBits.toNat).parts := unpack_eq_parts _
  have hy : y.toModel.unpack = (Shape.ofBits y.toBits.toNat).parts := unpack_eq_parts _
  rw [hx, hy, Shape.compare_parts Shape.canonical_of_ofBits Shape.canonical_of_ofBits]
  rfl

/-- Doubles are compared by their values, and a NaN compares with nothing. -/
theorem lt_iff : x < y ↔ ∃ a b, extended? x = some a ∧ extended? y = some b ∧ a < b := by
  have hlt : x < y ↔ x.toModel.unpack.compare y.toModel.unpack = some .lt := by
    show decide (x.toModel < y.toModel) = true ↔ _
    rw [decide_eq_true_iff]
    exact beq_iff_eq
  rw [hlt, compare_unpack]
  cases extended? x <;> cases extended? y <;> simp [compare_lt_iff_lt]

theorem le_iff : x ≤ y ↔ ∃ a b, extended? x = some a ∧ extended? y = some b ∧ a ≤ b := by
  have hle : x ≤ y ↔ (x.toModel.unpack.compare y.toModel.unpack).any (·.isLE) = true := by
    show decide (x.toModel ≤ y.toModel) = true ↔ _
    rw [decide_eq_true_iff]
    rfl
  rw [hle, compare_unpack]
  cases extended? x <;> cases extended? y <;> simp [Ordering.isLE_iff_ne_gt, compare_le_iff_le]

theorem isNaN_iff : x.isNaN = true ↔ extended? x = none := by
  have hnan : x.isNaN = true ↔ x.toModel.unpack = .notANumber := UnpackedFloat.isNaN_iff
  have hx : x.toModel.unpack = (Shape.ofBits x.toBits.toNat).parts := unpack_eq_parts _
  rw [hnan, hx, extended?]
  cases Shape.ofBits x.toBits.toNat with
  | nan => simp [Shape.parts, Shape.extended?, Shape.value?]
  | infinite negative => cases negative <;> simp [Shape.parts, Shape.extended?]
  | zero negative => simp [Shape.parts, Shape.extended?, Shape.value?]
  | finite negative b =>
      simp only [Shape.parts, Shape.extended?, Shape.value?]
      split <;> simp

end JointModel.Decimal
