import Mathlib.Data.Nat.Log
import Mathlib.Tactic.Ring

/-!
# Rounding integers to 53 binary digits

A double has 53 binary digits, so an integer keeps its value as a double if what comes below
its first 53 digits is zero.  `roundInt` is the integer that any other one becomes: the
nearest that has 53 digits, and of two that are equally near the one whose last digit is
even.

The conversion works on a mantissa with two more bits, one for the first digit that is
dropped and one for all others (`ExtendedMantissa`).  `roundedMantissa_shiftRight` says that
these are enough.
-/

namespace JointModel.Decimal

open Float.Model UnpackedFloat

/-! ## Division that rounds -/

/-- The quotient `m / d`, rounded to the nearest integer, and to the even one of two. -/
def nearest (m d : ℕ) : ℕ :=
  if 2 * (m % d) < d then m / d
  else if d < 2 * (m % d) then m / d + 1
  else m / d + m / d % 2

theorem nearest_one (m : ℕ) : nearest m 1 = m := by
  simp [nearest, Nat.mod_one]

theorem nearest_mul_self {d : ℕ} (hd : 0 < d) (q : ℕ) : nearest (q * d) d = q := by
  simp [nearest, hd]

theorem nearest_mul_right {k : ℕ} (hk : 0 < k) (m d : ℕ) :
    nearest (m * k) (d * k) = nearest m d := by
  have hlt : 2 * (m % d * k) < d * k ↔ 2 * (m % d) < d := by
    rw [← mul_assoc]
    exact Nat.mul_lt_mul_right hk
  have hgt : d * k < 2 * (m % d * k) ↔ d < 2 * (m % d) := by
    rw [← mul_assoc]
    exact Nat.mul_lt_mul_right hk
  simp only [nearest, Nat.mul_mod_mul_right, Nat.mul_div_mul_right _ _ hk, hlt, hgt]

/-- A quotient with fewer digits than are kept stays below. -/
theorem nearest_le {m d b : ℕ} (hd : 0 < d) (h : m < b * d) : nearest m d ≤ b := by
  have hq : m / d < b := (Nat.div_lt_iff_lt_mul hd).mpr h
  unfold nearest
  split
  · omega
  · split <;> omega

theorem div_le_nearest (m d : ℕ) : m / d ≤ nearest m d := by
  unfold nearest
  split
  · exact le_rfl
  · split <;> omega

/-! ## Rounding -/

/-- The distance of the doubles around `n`, or 1 if they are closer. -/
def spacing (n : ℕ) : ℕ := 2 ^ (n.log2 - 52)

/-- `n` with 53 binary digits. -/
def roundNat (n : ℕ) : ℕ := nearest n (spacing n) * spacing n

/-- `z` with 53 binary digits. -/
def roundInt (z : ℤ) : ℤ := z.sign * roundNat z.natAbs

theorem roundInt_natCast (n : ℕ) : roundInt n = roundNat n := by
  rcases Nat.eq_zero_or_pos n with rfl | hn
  · rfl
  · rw [roundInt, Int.sign_natCast_of_ne_zero hn.ne', Int.natAbs_natCast, one_mul]

theorem roundInt_neg (z : ℤ) : roundInt (-z) = -roundInt z := by
  rw [roundInt, roundInt, Int.sign_neg, Int.natAbs_neg, neg_mul]

theorem spacing_of_log2_le {n : ℕ} (h : n.log2 ≤ 52) : spacing n = 1 := by
  rw [spacing, Nat.sub_eq_zero_of_le h, pow_zero]

theorem roundNat_of_log2_le {n : ℕ} (h : n.log2 ≤ 52) : roundNat n = n := by
  rw [roundNat, spacing_of_log2_le h, nearest_one, mul_one]

/-- The integers of up to 53 digits are kept. -/
theorem roundInt_of_natAbs_lt {z : ℤ} (h : z.natAbs < 2 ^ 53) : roundInt z = z := by
  have hlog : z.natAbs.log2 ≤ 52 := by
    by_cases hz : z.natAbs = 0
    · rw [hz, Nat.log2_zero]
      omega
    · have := (Nat.log2_lt hz).mpr h
      omega
  rw [roundInt, roundNat_of_log2_le hlog, Int.sign_mul_natAbs]

/-! ## Mantissas with two more bits -/

/-- The first of the two bits is the first digit that is dropped.  The second is set if there
is a digit other than zero behind it. -/
theorem shiftRight_succ (m t : ℕ) :
    (⟨m, false, false⟩ : ExtendedMantissa) >>> (t + 1) =
      ⟨m / 2 ^ (t + 1), m / 2 ^ t % 2 != 0, m % 2 ^ t != 0⟩ := by
  induction t with
  | zero => simp [HShiftRight.hShiftRight, Nat.repeat, ExtendedMantissa.shiftRightOne, Nat.mod_one]
  | succ t ih =>
      have hmod : m % 2 ^ (t + 1) = m % 2 ^ t + 2 ^ t * (m / 2 ^ t % 2) := Nat.mod_pow_succ
      have hzero : m % 2 ^ (t + 1) = 0 ↔ m / 2 ^ t % 2 = 0 ∧ m % 2 ^ t = 0 := by
        rw [hmod, Nat.add_eq_zero_iff, Nat.mul_eq_zero, and_comm]
        simp
      have hstep : (⟨m, false, false⟩ : ExtendedMantissa) >>> (t + 1 + 1) =
          ((⟨m, false, false⟩ : ExtendedMantissa) >>> (t + 1)).shiftRightOne := rfl
      rw [hstep, ih, ExtendedMantissa.shiftRightOne, ExtendedMantissa.mk.injEq]
      refine ⟨by rw [Nat.div_div_eq_div_mul, ← pow_succ], rfl, ?_⟩
      rw [Bool.eq_iff_iff]
      simp only [Bool.or_eq_true, bne_iff_ne, ne_eq, hzero, not_and_or]

/-- The two bits tell on which side of one half the dropped digits are. -/
theorem roundedMantissa_shiftRight (m t : ℕ) :
    ((⟨m, false, false⟩ : ExtendedMantissa) >>> t).roundedMantissa = nearest m (2 ^ t) := by
  cases t with
  | zero => exact (nearest_one m).symm
  | succ t =>
      have hmod : m % 2 ^ (t + 1) = m % 2 ^ t + 2 ^ t * (m / 2 ^ t % 2) := Nat.mod_pow_succ
      have hrest : m % 2 ^ t < 2 ^ t := Nat.mod_lt m (Nat.two_pow_pos t)
      have hpow : 2 ^ (t + 1) = 2 * 2 ^ t := Nat.pow_succ'
      rw [shiftRight_succ]
      unfold nearest
      rcases Nat.mod_two_eq_zero_or_one (m / 2 ^ t) with hbit | hbit
      · have hbelow : 2 * (m % 2 ^ (t + 1)) < 2 ^ (t + 1) := by
          rw [hmod, hpow, hbit]
          omega
        rw [if_pos hbelow, hbit]
        cases m % 2 ^ t != 0 <;> rfl
      · have hhalf : ¬ 2 * (m % 2 ^ (t + 1)) < 2 ^ (t + 1) := by
          rw [hmod, hpow, hbit]
          omega
        rw [if_neg hhalf, hbit]
        rcases Nat.eq_zero_or_pos (m % 2 ^ t) with hnone | hsome
        · have hequal : ¬ 2 ^ (t + 1) < 2 * (m % 2 ^ (t + 1)) := by
            rw [hmod, hpow, hbit, hnone]
            omega
          rw [if_neg hequal, hnone]
          rfl
        · have habove : 2 ^ (t + 1) < 2 * (m % 2 ^ (t + 1)) := by
            rw [hmod, hpow, hbit]
            omega
          have hset : (m % 2 ^ t != 0) = true := bne_iff_ne.mpr (Nat.ne_of_gt hsome)
          rw [if_pos habove, hset]
          rfl

end JointModel.Decimal
