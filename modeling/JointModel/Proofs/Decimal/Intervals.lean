import Mathlib
import JointModel.Decimal.Shortest

/-!
# The decimals that round to a double

`Binary.Rounds b q` says that the number `q` rounds to the double `b`: it lies between the
midpoints towards the doubles next to `b`, or it is such a midpoint and the significand of `b`
is even.

* No number rounds to two doubles (`Binary.Rounds.unique`).
* The shortest decimal of a double rounds to it (`Binary.shortest_rounds`), so two doubles have
  different shortest decimals.

## Strategy

Everything is counted in quarters of the distance to the double above (`Binary.quarter`), in
which the double and the ends of its interval are natural numbers.

* Of two doubles, the interval of the lower one ends where that of the upper one begins, or
  before.  If they touch, one of the two significands is odd (`Binary.Canonical.apart`).
* The last grid that is tried has seventeen digits.  Two neighbours on it are closer than the
  ends of the interval, so one of the two around the double is in there.
-/

namespace JointModel.Decimal

/-- The parts of a double: the significand has 53 binary digits, or fewer if the exponent is the
least one, and the double below is nearer where the number of digits changes. -/
structure Binary.Canonical (b : Binary) : Prop where
  pos : 0 < b.significand
  high : b.significand < 2 ^ 53
  least : -1074 ≤ b.exponent
  normal : b.exponent = -1074 ∨ 2 ^ 52 ≤ b.significand
  narrow : b.narrowBelow = true ↔ b.significand = 2 ^ 52 ∧ b.exponent ≠ -1074

/-- The number that a decimal stands for. -/
def Number.value (n : Number) : ℚ := n.digits * 10 ^ n.exponent

namespace Binary

variable {b b' : Binary} {q : ℚ}

/-- A quarter of the distance to the double above. -/
def quarter (b : Binary) : ℚ := 2 ^ (b.exponent - 2)

/-- The lower end of the interval, in quarters. -/
def lowCount (b : Binary) : ℕ := 4 * b.significand - if b.narrowBelow then 1 else 2

/-- The upper end of the interval, in quarters. -/
def highCount (b : Binary) : ℕ := 4 * b.significand + 2

/-- The number `q` rounds to the double. -/
def Rounds (b : Binary) (q : ℚ) : Prop :=
  if b.significand % 2 = 0 then b.lowCount * b.quarter ≤ q ∧ q ≤ b.highCount * b.quarter
  else b.lowCount * b.quarter < q ∧ q < b.highCount * b.quarter

theorem quarter_pos (b : Binary) : 0 < b.quarter := zpow_pos two_pos _

/-- The quarters of a double with a larger exponent. -/
theorem quarter_of_exponent {k : ℕ} (h : b'.exponent = b.exponent + k) :
    b'.quarter = 2 ^ k * b.quarter := by
  rw [quarter, quarter, h, add_sub_right_comm, zpow_add₀ two_ne_zero, zpow_natCast, mul_comm]

theorem Rounds.bounds (h : b.Rounds q) :
    b.lowCount * b.quarter ≤ q ∧ q ≤ b.highCount * b.quarter := by
  unfold Rounds at h
  split at h
  · exact h
  · exact ⟨h.1.le, h.2.le⟩

theorem Rounds.bounds_of_odd (h : b.Rounds q) (hodd : b.significand % 2 = 1) :
    b.lowCount * b.quarter < q ∧ q < b.highCount * b.quarter := by
  rwa [Rounds, if_neg (by omega)] at h

namespace Canonical

theorem lowCount_pos (hb : b.Canonical) : 0 < b.lowCount := by
  have hpos := hb.pos
  unfold lowCount
  split <;> omega

/-- What rounds to a double is positive. -/
theorem pos_of_rounds (hb : b.Canonical) (h : b.Rounds q) : 0 < q :=
  lt_of_lt_of_le (mul_pos (Nat.cast_pos.mpr hb.lowCount_pos) b.quarter_pos) h.bounds.1

/-- With the same exponent, the intervals of two neighbours touch. -/
theorem apart_of_exponent_eq (hb : b.Canonical) (hb' : b'.Canonical)
    (hexponent : b'.exponent = b.exponent) (hlt : b.significand < b'.significand) :
    b.highCount < b'.lowCount ∨
      b.highCount = b'.lowCount ∧ (b.significand % 2 = 1 ∨ b'.significand % 2 = 1) := by
  have hnarrow : ¬ b'.narrowBelow = true := by
    intro hnarrow
    obtain ⟨hleast, hother⟩ := hb'.narrow.mp hnarrow
    have := hb.normal
    omega
  rw [highCount, lowCount, if_neg hnarrow]
  omega

/-- With a smaller exponent, the interval ends below. -/
theorem apart_of_exponent_lt (hb : b.Canonical) (hb' : b'.Canonical) {k : ℕ}
    (hexponent : b'.exponent = b.exponent + (k + 1 : ℕ)) :
    b.highCount < b'.lowCount * 2 ^ (k + 1) ∨
      b.highCount = b'.lowCount * 2 ^ (k + 1) ∧ b.significand % 2 = 1 := by
  have hleast := hb.least
  have hnormal : 2 ^ 52 ≤ b'.significand := by
    have := hb'.normal
    omega
  have hlow : 2 ^ 54 - 1 ≤ b'.lowCount := by
    rw [lowCount]
    split
    · omega
    · next hnarrow =>
        have hne : b'.significand ≠ 2 ^ 52 := fun heq => hnarrow (hb'.narrow.mpr ⟨heq, by omega⟩)
        omega
  have hpow : 2 ≤ 2 ^ (k + 1) := by
    rw [pow_succ]
    have := Nat.one_le_two_pow (n := k)
    omega
  have hscaled : (2 ^ 54 - 1) * 2 ≤ b'.lowCount * 2 ^ (k + 1) := Nat.mul_le_mul hlow hpow
  have hhigh := hb.high
  rw [highCount]
  omega

/-- The parts determine whether the double below is nearer. -/
theorem eq_of_parts (hb : b.Canonical) (hb' : b'.Canonical)
    (hsignificand : b.significand = b'.significand) (hexponent : b.exponent = b'.exponent) :
    b = b' := by
  have hnarrow : b.narrowBelow = b'.narrowBelow := by
    rw [Bool.eq_iff_iff, hb.narrow, hb'.narrow, hsignificand, hexponent]
  cases b
  cases b'
  simp only at hsignificand hexponent hnarrow
  rw [hsignificand, hexponent, hnarrow]

end Canonical

/-- Intervals that are apart have no number in common. -/
theorem Rounds.not_apart (h : b.Rounds q) (h' : b'.Rounds q) {k : ℕ}
    (hexponent : b'.exponent = b.exponent + k)
    (hapart : b.highCount < b'.lowCount * 2 ^ k ∨ b.highCount = b'.lowCount * 2 ^ k ∧
      (b.significand % 2 = 1 ∨ b'.significand % 2 = 1)) : False := by
  have hquarter := quarter_of_exponent hexponent
  have hpos := b.quarter_pos
  rcases hapart with hlt | ⟨heq, hodd⟩
  · have hcast : (b.highCount : ℚ) < b'.lowCount * 2 ^ k := by exact_mod_cast hlt
    have hends : b.highCount * b.quarter < b'.lowCount * b'.quarter := by
      rw [hquarter, ← mul_assoc]
      exact mul_lt_mul_of_pos_right hcast hpos
    exact absurd (h'.bounds.1.trans h.bounds.2) (not_le.mpr hends)
  · have hcast : (b.highCount : ℚ) = b'.lowCount * 2 ^ k := by exact_mod_cast heq
    have hends : b.highCount * b.quarter = b'.lowCount * b'.quarter := by
      rw [hquarter, ← mul_assoc, hcast]
    have hirrefl : ¬ b'.lowCount * b'.quarter < b.highCount * b.quarter := hends.not_gt
    rcases hodd with hodd | hodd
    · exact hirrefl (h'.bounds.1.trans_lt (h.bounds_of_odd hodd).2)
    · exact hirrefl ((h'.bounds_of_odd hodd).1.trans_le h.bounds.2)

/-- The same for doubles in order of their exponents. -/
theorem Rounds.unique_of_exponent_le (hb : b.Canonical) (hb' : b'.Canonical) (h : b.Rounds q)
    (h' : b'.Rounds q) (hle : b.exponent ≤ b'.exponent) : b = b' := by
  obtain ⟨k, hk⟩ := Int.le.dest hle
  cases k with
  | zero =>
      have hexponent : b'.exponent = b.exponent := by omega
      rcases lt_trichotomy b.significand b'.significand with hlt | heq | hgt
      · have hapart := hb.apart_of_exponent_eq hb' hexponent hlt
        exact (h.not_apart h' hk.symm (by simpa using hapart)).elim
      · exact hb.eq_of_parts hb' heq hexponent.symm
      · have hapart := hb'.apart_of_exponent_eq hb hexponent.symm hgt
        have hk' : b.exponent = b'.exponent + (0 : ℕ) := by omega
        exact (h'.not_apart h hk' (by simpa using hapart)).elim
  | succ k =>
      have hapart := hb.apart_of_exponent_lt hb' hk.symm
      exact (h.not_apart h' hk.symm (hapart.imp_right fun hequal => ⟨hequal.1, .inl hequal.2⟩)).elim

/-- No number rounds to two doubles. -/
theorem Rounds.unique (hb : b.Canonical) (hb' : b'.Canonical) (h : b.Rounds q)
    (h' : b'.Rounds q) : b = b' := by
  rcases le_total b.exponent b'.exponent with hle | hle
  · exact unique_of_exponent_le hb hb' h h' hle
  · exact (unique_of_exponent_le hb' hb h' h hle).symm

/-! ## The interval on a grid -/

/-- A power with an integer exponent as a quotient of natural numbers. -/
theorem zpow_eq_div (base : ℕ) (hbase : 0 < base) (e : ℤ) :
    (base : ℚ) ^ e = (base ^ e.toNat : ℕ) / (base ^ (-e).toNat : ℕ) := by
  have hne : (base : ℚ) ≠ 0 := Nat.cast_ne_zero.mpr hbase.ne'
  have hsplit : e = (e.toNat : ℤ) - ((-e).toNat : ℤ) := by omega
  conv_lhs => rw [hsplit, zpow_sub₀ hne]
  push_cast
  simp only [zpow_natCast]

/-- The interval of the double on the grid of the multiples of `10 ^ t`. -/
def grid (b : Binary) (t : ℤ) : Interval := b.interval.onGrid t

/-- What the numbers of the grid are scaled by. -/
def scale (b : Binary) (t : ℤ) : ℕ := 2 ^ (b.exponent - 2).toNat * 10 ^ (-t).toNat

theorem unit_pos (b : Binary) (t : ℤ) : 0 < (b.grid t).unit :=
  Nat.mul_pos (Nat.two_pow_pos _) (Nat.pow_pos (by decide))

theorem grid_value (b : Binary) (t : ℤ) : (b.grid t).value = 4 * b.significand * b.scale t :=
  Nat.mul_assoc _ _ _

theorem grid_low (b : Binary) (t : ℤ) : (b.grid t).low = b.lowCount * b.scale t :=
  Nat.mul_assoc _ _ _

theorem grid_high (b : Binary) (t : ℤ) : (b.grid t).high = b.highCount * b.scale t :=
  Nat.mul_assoc _ _ _

/-- On the grid, the scale stands for a quarter and the unit for `10 ^ t`. -/
theorem exists_factor (b : Binary) (t : ℤ) : ∃ factor : ℚ, 0 < factor ∧
    (b.scale t : ℚ) = b.quarter * factor ∧ ((b.grid t).unit : ℚ) = 10 ^ t * factor := by
  have hunit : (b.grid t).unit = 2 ^ (-(b.exponent - 2)).toNat * 10 ^ t.toNat := rfl
  have htwo := zpow_eq_div 2 two_pos (b.exponent - 2)
  have hten := zpow_eq_div 10 (by decide) t
  push_cast at htwo hten
  refine ⟨2 ^ (-(b.exponent - 2)).toNat * 10 ^ (-t).toNat, by positivity, ?_, ?_⟩
  · rw [quarter, scale, htwo]
    push_cast
    field_simp
  · rw [hunit, hten]
    push_cast
    field_simp

theorem quarters_le_iff (b : Binary) (t : ℤ) (count n : ℕ) :
    count * b.scale t ≤ n * (b.grid t).unit ↔ (count : ℚ) * b.quarter ≤ n * 10 ^ t := by
  obtain ⟨factor, hpos, hscale, hunit⟩ := b.exists_factor t
  rw [← @Nat.cast_le ℚ, Nat.cast_mul, Nat.cast_mul, hscale, hunit, ← mul_assoc, ← mul_assoc,
    mul_le_mul_iff_left₀ hpos]

theorem le_quarters_iff (b : Binary) (t : ℤ) (count n : ℕ) :
    n * (b.grid t).unit ≤ count * b.scale t ↔ (n : ℚ) * 10 ^ t ≤ count * b.quarter := by
  obtain ⟨factor, hpos, hscale, hunit⟩ := b.exists_factor t
  rw [← @Nat.cast_le ℚ, Nat.cast_mul, Nat.cast_mul, hscale, hunit, ← mul_assoc, ← mul_assoc,
    mul_le_mul_iff_left₀ hpos]

/-- What the interval holds on the grid rounds to the double. -/
theorem holds_grid_iff (b : Binary) (t : ℤ) (n : ℕ) :
    (b.grid t).holds n = true ↔ b.Rounds (n * 10 ^ t) := by
  have hclosed : (b.grid t).closed = (b.significand % 2 == 0) := rfl
  unfold Interval.holds Rounds
  rw [hclosed, grid_low, grid_high]
  by_cases heven : b.significand % 2 = 0
  · simp [heven, quarters_le_iff, le_quarters_iff]
  · simp [heven, ← not_le, quarters_le_iff, le_quarters_iff]

/-! ## The neighbours of the double on a grid -/

/-- The double, in quarters. -/
def middleCount (b : Binary) : ℕ := 4 * b.significand

theorem Canonical.lowCount_lt (hb : b.Canonical) : b.lowCount < b.middleCount := by
  have hpos := hb.pos
  unfold lowCount middleCount
  split <;> omega

theorem middleCount_lt (b : Binary) : b.middleCount < b.highCount := by
  unfold middleCount highCount
  omega

theorem rounds_of_lt (hlow : b.lowCount * b.quarter < q) (hhigh : q < b.highCount * b.quarter) :
    b.Rounds q := by
  unfold Rounds
  split
  · exact ⟨hlow.le, hhigh.le⟩
  · exact ⟨hlow, hhigh⟩

/-- The multiple of `10 ^ t` at the double or below it. -/
def floor (b : Binary) (t : ℤ) : ℕ := (b.grid t).value / (b.grid t).unit

theorem floor_le (b : Binary) (t : ℤ) : (b.floor t : ℚ) * 10 ^ t ≤ b.middleCount * b.quarter := by
  rw [← le_quarters_iff, middleCount, ← grid_value]
  exact Nat.div_mul_le_self _ _

theorem lt_floor_succ (b : Binary) (t : ℤ) :
    (b.middleCount : ℚ) * b.quarter < (b.floor t + 1 : ℕ) * 10 ^ t := by
  rw [← not_le, ← le_quarters_iff, not_le, middleCount, ← grid_value]
  exact (Nat.div_lt_iff_lt_mul (b.unit_pos t)).mp (Nat.lt_succ_self _)

/-- If the grid is fine enough, one of the two neighbours of the double rounds to it. -/
theorem Canonical.neighbour_rounds (hb : b.Canonical) {t : ℤ}
    (hfine : (10 : ℚ) ^ t < (b.highCount - b.lowCount) * b.quarter) :
    b.Rounds (b.floor t * 10 ^ t) ∨ b.Rounds ((b.floor t + 1 : ℕ) * 10 ^ t) := by
  have hpos := b.quarter_pos
  have hbelow := b.floor_le t
  have habove := b.lt_floor_succ t
  have hlow : (b.lowCount : ℚ) * b.quarter < b.middleCount * b.quarter :=
    mul_lt_mul_of_pos_right (Nat.cast_lt.mpr hb.lowCount_lt) hpos
  have hhigh : (b.middleCount : ℚ) * b.quarter < b.highCount * b.quarter :=
    mul_lt_mul_of_pos_right (Nat.cast_lt.mpr b.middleCount_lt) hpos
  by_cases hfloor : (b.lowCount : ℚ) * b.quarter < b.floor t * 10 ^ t
  · exact .inl (rounds_of_lt hfloor (hbelow.trans_lt hhigh))
  · refine .inr (rounds_of_lt (hlow.trans habove) ?_)
    push_cast
    linarith

end Binary

/-! ## The grids that are tried -/

namespace Interval

variable {i : Interval} {n : ℕ}

/-- The leading digit of the value is at its magnitude. -/
theorem pow_magnitude_le (hvalue : 0 < i.value) (hunit : 0 < i.unit) :
    (10 : ℚ) ^ i.magnitude * i.unit ≤ i.value := by
  unfold magnitude
  split
  · next hle =>
      have hne : Nat.toDigits 10 (i.value / i.unit) ≠ [] := Nat.toDigits_ne_nil
      obtain ⟨k, hk⟩ : ∃ k, (Nat.toDigits 10 (i.value / i.unit)).length = k + 1 :=
        Nat.exists_eq_succ_of_ne_zero (List.length_pos_iff.mpr hne).ne'
      have hdigits : 10 ^ k ≤ i.value / i.unit := by
        rcases Nat.eq_zero_or_pos k with rfl | hpos
        · exact Nat.div_pos hle hunit
        · have hiff := Nat.length_toDigits_le_iff (b := 10) (n := i.value / i.unit) (by decide) hpos
          rw [hk] at hiff
          exact not_lt.mp fun hlt => absurd (hiff.mpr hlt) (by omega)
      have hscaled : 10 ^ k * i.unit ≤ i.value := (Nat.le_div_iff_mul_le hunit).mp hdigits
      rw [hk, Nat.cast_add, Nat.cast_one, add_sub_cancel_right, zpow_natCast]
      exact_mod_cast hscaled
  · next hlt =>
      have hne : Nat.toDigits 10 ((i.unit - 1) / i.value) ≠ [] := Nat.toDigits_ne_nil
      have hpos : 0 < (Nat.toDigits 10 ((i.unit - 1) / i.value)).length :=
        List.length_pos_iff.mpr hne
      have hdigits := (Nat.length_toDigits_le_iff (b := 10) (by decide) hpos).mp le_rfl
      generalize (Nat.toDigits 10 ((i.unit - 1) / i.value)).length = k at hdigits
      have hscaled : i.unit ≤ 10 ^ k * i.value := by
        have := (Nat.div_lt_iff_lt_mul hvalue).mp hdigits
        omega
      have hcast : (i.unit : ℚ) ≤ 10 ^ k * i.value := by exact_mod_cast hscaled
      rw [zpow_neg, zpow_natCast, inv_mul_le_iff₀ (by positivity)]
      exact hcast

theorem holds_of_nearest? (h : i.nearest? = some n) : i.holds n = true := by
  dsimp only [nearest?] at h
  split at h
  · split at h <;> cases h <;> assumption
  · cases h
    assumption
  · cases h
    assumption
  · cases h

theorem isSome_nearest? (h : i.holds (i.value / i.unit) = true ∨
    i.holds (i.value / i.unit + 1) = true) : i.nearest?.isSome = true := by
  dsimp only [nearest?]
  split
  · split <;> rfl
  · rfl
  · rfl
  · next hbelow habove =>
      rw [hbelow, habove] at h
      simp at h

end Interval

namespace Binary

variable {b : Binary}

/-- A double has less than `10 ^ 16` times the width of its interval. -/
theorem Canonical.middleCount_lt_width (hb : b.Canonical) :
    b.middleCount + b.lowCount * 10 ^ 16 < b.highCount * 10 ^ 16 := by
  have hhigh := hb.high
  unfold middleCount lowCount highCount
  split
  · next hnarrow =>
      have := (hb.narrow.mp hnarrow).1
      omega
  · omega

/-- The grid of seventeen digits is fine enough. -/
theorem Canonical.fine (hb : b.Canonical) : (10 : ℚ) ^ (b.interval.magnitude - 16) <
    (b.highCount - b.lowCount) * b.quarter := by
  obtain ⟨factor, hpos, hscale, hunit⟩ := b.exists_factor 0
  have hgrid : b.grid 0 = b.interval := by
    simp [grid, Interval.onGrid]
  have hvalue : ((b.grid 0).value : ℚ) = b.middleCount * b.quarter * factor := by
    rw [grid_value, Nat.cast_mul, hscale, ← mul_assoc]
    rfl
  have hmagnitude : (10 : ℚ) ^ b.interval.magnitude ≤ b.middleCount * b.quarter := by
    have hleading := Interval.pow_magnitude_le (i := b.grid 0) ?_ (b.unit_pos 0)
    · rw [hvalue, hunit, hgrid, zpow_zero, one_mul] at hleading
      exact le_of_mul_le_mul_right hleading hpos
    · have := hb.pos
      have hmiddle : 0 < b.middleCount := by
        unfold middleCount
        omega
      have : (0 : ℚ) < (b.grid 0).value := by
        rw [hvalue]
        have := b.quarter_pos
        positivity
      exact_mod_cast this
  have hwidth : (b.middleCount : ℚ) < (b.highCount - b.lowCount) * 10 ^ 16 := by
    have hcast : (b.middleCount : ℚ) + b.lowCount * 10 ^ 16 < b.highCount * 10 ^ 16 := by
      exact_mod_cast hb.middleCount_lt_width
    linarith
  have hten : (10 : ℚ) ^ (16 : ℤ) = 10 ^ 16 := by norm_num
  rw [zpow_sub₀ (by norm_num), div_lt_iff₀ (by positivity)]
  refine hmagnitude.trans_lt ?_
  calc (b.middleCount : ℚ) * b.quarter
      < (b.highCount - b.lowCount) * 10 ^ 16 * b.quarter :=
        mul_lt_mul_of_pos_right hwidth b.quarter_pos
    _ = (b.highCount - b.lowCount) * b.quarter * 10 ^ (16 : ℤ) := by
        rw [hten]
        ring

/-- The shortest decimal of a double rounds to it. -/
theorem shortest_rounds (hb : b.Canonical) : b.Rounds b.shortest.value := by
  let hit (n : ℕ) : Option Number :=
    (b.grid (b.interval.magnitude + 1 - n)).nearest?.map (⟨·, b.interval.magnitude + 1 - n⟩)
  have hlast : (hit 17).isSome = true := by
    have hexponent : b.interval.magnitude + 1 - (17 : ℕ) = b.interval.magnitude - 16 := by omega
    have hneighbour := hb.neighbour_rounds hb.fine
    rw [← holds_grid_iff, ← holds_grid_iff, ← hexponent] at hneighbour
    rw [Option.isSome_map]
    exact Interval.isSome_nearest? hneighbour
  have hfound : ((List.range gridCount).findSome? hit).isSome = true :=
    List.findSome?_isSome_iff.mpr ⟨17, by decide, hlast⟩
  obtain ⟨number, hnumber⟩ := Option.isSome_iff_exists.mp hfound
  have hshortest : b.shortest = number := by
    change ((List.range gridCount).findSome? hit).getD _ = number
    rw [hnumber, Option.getD_some]
  obtain ⟨n, -, hn⟩ := List.exists_of_findSome?_eq_some hnumber
  obtain ⟨digits, hdigits, rfl⟩ := Option.map_eq_some_iff.mp hn
  rw [hshortest]
  exact (holds_grid_iff _ _ _).mp (Interval.holds_of_nearest? hdigits)

end Binary

end JointModel.Decimal
