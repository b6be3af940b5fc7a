import JointModel.Decimal.Layout
import JointModel.Proofs.Decimal.Intervals

/-!
# Written doubles can be read back

Two doubles that are written alike are equal (`Layout.render_injective`), if the layout writes
every number positionally and a whole number without `.0`.

## Strategy

* The shape of a double determines its bits (`Shape.bits`).  A NaN has only one pattern of bits.
* `readText` reads a text back: the sign, and the decimal behind it unless the number is
  infinite.  It gives back what was written (`readText_ofShape`).
* The decimal is the shortest one of the double.  It rounds to no other double.
-/

namespace JointModel.Decimal

open Float.Model UnpackedFloat

/-! ## Shapes and bits -/

/-- The bits of a double, from the parts that `Shape.ofBits` looks at. -/
theorem bits_eq_parts {n : ℕ} (hn : n < 2 ^ 64) :
    n = (n.testBit 63).toNat * 2 ^ 63 + (n >>> 52) % 2048 * 2 ^ 52 + n % (1 <<< 52) := by
  have hsign : (n.testBit 63).toNat = n / 2 ^ 63 % 2 := by
    rw [Nat.testBit_eq_decide_div_mod_eq]
    rcases Nat.mod_two_eq_zero_or_one (n / 2 ^ 63) with h | h <;> rw [h] <;> rfl
  rw [hsign, Nat.shiftRight_eq_div_pow, Nat.one_shiftLeft]
  omega

/-- The bits of the double with a shape. -/
def Shape.bits : Shape → ℕ
  | .nan => (packedNaN Format.binary64).toNat
  | .infinite negative => negative.toNat * 2 ^ 63 + 2047 * 2 ^ 52
  | .zero negative => negative.toNat * 2 ^ 63
  | .finite negative b =>
    negative.toNat * 2 ^ 63 +
      if b.significand < 2 ^ 52 then b.significand
      else (b.exponent + 1075).toNat * 2 ^ 52 + (b.significand - 2 ^ 52)

/-- A double that is no NaN has the bits of its shape. -/
theorem Shape.bits_ofBits {n : ℕ} (hn : n < 2 ^ 64) (hnan : Shape.ofBits n ≠ .nan) :
    (Shape.ofBits n).bits = n := by
  have hparts := bits_eq_parts hn
  have hfraction : n % (1 <<< 52) < 2 ^ 52 := Nat.mod_lt _ (by decide)
  have hpower : 1 <<< 52 = 2 ^ 52 := rfl
  unfold Shape.ofBits at hnan ⊢
  dsimp only at hnan ⊢
  generalize n.testBit 63 = negative at *
  generalize (n >>> 52) % 2048 = exponent at *
  generalize n % (1 <<< 52) = fraction at *
  simp only [beq_iff_eq] at hnan ⊢
  split_ifs at hnan ⊢ with hspecial hzero hleast hzero
  · rw [bits, hparts, hspecial, hzero, add_zero]
  · exact absurd rfl hnan
  · rw [bits, hparts, hleast, hzero, zero_mul, add_zero, add_zero]
  · rw [bits, if_pos hfraction, hparts, hleast, zero_mul, add_zero]
  · have hexponent : ((exponent : ℤ) - 1075 + 1075).toNat = exponent := by omega
    have hlarge : ¬ 2 ^ 52 + fraction < 2 ^ 52 := by omega
    rw [bits, hpower, if_neg hlarge, hexponent, hparts, Nat.add_sub_cancel_left, add_assoc]

/-- The parts of the bits of a NaN. -/
theorem Shape.parts_of_nan {n : ℕ} (h : Shape.ofBits n = .nan) :
    (n >>> 52) % 2048 = 2047 ∧ n % (1 <<< 52) ≠ 0 := by
  unfold Shape.ofBits at h
  simp only [beq_iff_eq] at h
  split_ifs at h with hspecial hzero
  exact ⟨hspecial, hzero⟩

theorem toNat_unpackExponent (bits : BitVec Format.binary64.numBits) :
    (unpackExponent bits).toNat = (bits.toNat >>> 52) % 2048 := by
  rw [unpackExponent, BitVec.toNat_cast, BitVec.extractLsb_toNat]
  rfl

theorem toNat_unpackMantissa (bits : BitVec Format.binary64.numBits) :
    (unpackMantissa bits).toNat = bits.toNat % (1 <<< 52) := by
  rw [unpackMantissa, BitVec.toNat_cast, BitVec.extractLsb_toNat]
  rfl

/-- A NaN has one pattern of bits only. -/
theorem bits_of_nan {x : Float} (h : Shape.ofBits x.toBits.toNat = .nan) :
    x.toBits.toNat = (packedNaN Format.binary64).toNat := by
  obtain ⟨hspecial, hzero⟩ := Shape.parts_of_nan h
  have hvalid := x.toModel.valid.eq_packedNaN ?_ ?_
  · exact congrArg BitVec.toNat hvalid
  · refine BitVec.eq_of_toNat_eq ?_
    rw [toNat_unpackExponent]
    exact hspecial
  · intro hnone
    refine hzero ?_
    have hnat := congrArg BitVec.toNat hnone
    rwa [toNat_unpackMantissa] at hnat

/-- The shape of a double determines it. -/
theorem shape_injective : Function.Injective fun x : Float => Shape.ofBits x.toBits.toNat := by
  intro x y hxy
  have hbits : ∀ z : Float, (Shape.ofBits z.toBits.toNat).bits = z.toBits.toNat := by
    intro z
    by_cases hnan : Shape.ofBits z.toBits.toNat = .nan
    · rw [hnan, bits_of_nan hnan]
      rfl
    · exact Shape.bits_ofBits z.toBits.toNat_lt hnan
  refine Float.toBits_inj.mp (UInt64.toNat_inj.mp ?_)
  rw [← hbits x, ← hbits y]
  exact congrArg Shape.bits hxy

/-- The parts of a finite double other than zero are canonical. -/
theorem Shape.canonical_of_ofBits {n : ℕ} {negative : Bool} {b : Binary}
    (h : Shape.ofBits n = .finite negative b) : b.Canonical := by
  have hfraction : n % (1 <<< 52) < 2 ^ 52 := Nat.mod_lt _ (by decide)
  have hpower : 1 <<< 52 = 2 ^ 52 := rfl
  unfold Shape.ofBits at h
  dsimp only at h
  generalize n.testBit 63 = sign at *
  generalize (n >>> 52) % 2048 = exponent at *
  generalize n % (1 <<< 52) = fraction at *
  simp only [beq_iff_eq] at h
  split_ifs at h with hspecial hzero hleast hzero
  · obtain ⟨-, rfl⟩ := Shape.finite.inj h
    have hhigh : fraction < 2 ^ 53 := by omega
    exact ⟨Nat.pos_of_ne_zero hzero, hhigh, le_rfl, .inl rfl, by simp⟩
  · obtain ⟨-, rfl⟩ := Shape.finite.inj h
    constructor <;> simp only [hpower, Bool.and_eq_true, beq_iff_eq, bne_iff_ne]
    all_goals omega

/-! ## Reading a decimal -/

/-- The number that a decimal without a sign stands for. -/
def readDecimal (text : List Char) : ℚ :=
  let whole := text.takeWhile (· != '.')
  let fraction := (text.dropWhile (· != '.')).drop 1
  Nat.ofDigitChars 10 (whole ++ fraction) 0 / 10 ^ fraction.length

theorem ne_point_of_not_mem {digits : List Char} (hdigits : '.' ∉ digits) :
    ∀ c ∈ digits, (c != '.') = true := fun _ hc =>
  bne_iff_ne.mpr fun h => hdigits (h ▸ hc)

theorem readDecimal_of_point {whole : List Char} (hwhole : '.' ∉ whole) (fraction : List Char) :
    readDecimal (whole ++ '.' :: fraction) =
      Nat.ofDigitChars 10 (whole ++ fraction) 0 / 10 ^ fraction.length := by
  have hplain := ne_point_of_not_mem hwhole
  simp [readDecimal, List.takeWhile_append_of_pos hplain, List.dropWhile_append_of_pos hplain]

theorem readDecimal_of_whole {whole : List Char} (hwhole : '.' ∉ whole) :
    readDecimal whole = Nat.ofDigitChars 10 whole 0 := by
  have htake := List.takeWhile_eq_self_iff.mpr (ne_point_of_not_mem hwhole)
  have hdrop := List.dropWhile_eq_nil_iff.mpr (ne_point_of_not_mem hwhole)
  simp [readDecimal, htake, hdrop]

/-- Zeros in front do not count. -/
theorem ofDigitChars_zeros_append (n : ℕ) (digits : List Char) :
    Nat.ofDigitChars 10 (List.replicate n '0' ++ digits) 0 = Nat.ofDigitChars 10 digits 0 := by
  rw [Nat.ofDigitChars_append, Nat.ofDigitChars_replicate_zero, Nat.mul_zero]

/-- Zeros at the end shift the digits. -/
theorem ofDigitChars_append_zeros (n : ℕ) (digits : List Char) :
    Nat.ofDigitChars 10 (digits ++ List.replicate n '0') 0 =
      10 ^ n * Nat.ofDigitChars 10 digits 0 := by
  rw [Nat.ofDigitChars_append, Nat.ofDigitChars_replicate_zero]

theorem toList_zeros (n : ℕ) : (zeros n).toList = List.replicate n '0' := String.toList_ofList

/-- Positional text stands for the digits with the point at its place. -/
theorem readDecimal_positionalText {digits : List Char} (hdigits : '.' ∉ digits) (point : ℤ) :
    readDecimal (positionalText false digits point).toList =
      Nat.ofDigitChars 10 digits 0 * 10 ^ (point - digits.length) := by
  unfold positionalText
  split
  · next hpoint =>
      have htext : ("0." ++ zeros (-point).toNat ++ String.ofList digits).toList =
          ['0'] ++ '.' :: (List.replicate (-point).toNat '0' ++ digits) := by
        simp [toList_zeros]
      have hread : Nat.ofDigitChars 10 (['0'] ++ (List.replicate (-point).toNat '0' ++ digits)) 0 =
          Nat.ofDigitChars 10 digits 0 := by
        rw [Nat.ofDigitChars_append]
        exact ofDigitChars_zeros_append _ _
      have hexponent : point - digits.length = -(((-point).toNat + digits.length : ℕ) : ℤ) := by
        omega
      rw [htext, readDecimal_of_point (by simp), hread, hexponent, zpow_neg, zpow_natCast,
        List.length_append, List.length_replicate, div_eq_mul_inv]
  · split
    · next hpoint hlong =>
        have htext : (String.ofList digits ++ zeros (point.toNat - digits.length) ++
            if false = true then ".0" else "").toList =
            digits ++ List.replicate (point.toNat - digits.length) '0' := by
          simp [toList_zeros]
        have hexponent : point - digits.length = ((point.toNat - digits.length : ℕ) : ℤ) := by
          omega
        rw [htext, readDecimal_of_whole, ofDigitChars_append_zeros, hexponent, zpow_natCast]
        · push_cast
          ring
        · simp [hdigits, List.mem_replicate]
    · next hpoint hlong =>
        have htext : (String.ofList (digits.take point.toNat) ++ "." ++
            String.ofList (digits.drop point.toNat)).toList =
            digits.take point.toNat ++ '.' :: digits.drop point.toNat := by
          simp
        have hexponent : point - digits.length = -((digits.length - point.toNat : ℕ) : ℤ) := by
          omega
        rw [htext, readDecimal_of_point fun h => hdigits (List.mem_of_mem_take h),
          List.take_append_drop, hexponent, zpow_neg, zpow_natCast, List.length_drop,
          div_eq_mul_inv]

/-- The digits of a number. -/
theorem point_not_mem_toDigits (n : ℕ) : '.' ∉ Nat.toDigits 10 n := by
  intro h
  have := Nat.isDigit_of_mem_toDigits (by decide) (by decide) h
  simp at this

/-- A decimal that is written positionally is read as what it stands for. -/
theorem readDecimal_unsigned {layout : Layout} (hpositional : layout.positional = none)
    (hpoint : layout.pointZero = false) (number : Number) :
    readDecimal (layout.unsigned number).toList = number.value := by
  unfold Layout.unsigned
  simp only [hpositional, hpoint, if_true]
  rw [readDecimal_positionalText (point_not_mem_toDigits _), Nat.ofDigitChars_toDigits (by decide)
    le_rfl, Number.value]
  congr 2
  omega

/-! ## The characters of a decimal -/

/-- The characters of a positional decimal. -/
def isDecimalChar (c : Char) : Bool := c.isDigit || c == '.'

theorem isDecimalChar_of_mem_zeros {n : ℕ} {c : Char} (hc : c ∈ List.replicate n '0') :
    isDecimalChar c = true := by
  rw [List.eq_of_mem_replicate hc]
  rfl

theorem positionalText_chars {digits : List Char} (hdigits : ∀ c ∈ digits, c.isDigit = true)
    (point : ℤ) {c : Char} (hc : c ∈ (positionalText false digits point).toList) :
    isDecimalChar c = true := by
  have hdecimal : ∀ c ∈ digits, isDecimalChar c = true := fun c hc => by
    rw [isDecimalChar, hdigits c hc, Bool.true_or]
  unfold positionalText at hc
  split at hc
  · simp only [String.toList_append, toList_zeros, String.toList_ofList, List.mem_append] at hc
    rcases hc with (hc | hc) | hc
    · obtain rfl | rfl : c = '0' ∨ c = '.' := by simpa using hc
      · rfl
      · rfl
    · exact isDecimalChar_of_mem_zeros hc
    · exact hdecimal c hc
  · split at hc
    · simp only [String.toList_append, toList_zeros, String.toList_ofList, List.mem_append] at hc
      rcases hc with (hc | hc) | hc
      · exact hdecimal c hc
      · exact isDecimalChar_of_mem_zeros hc
      · simp at hc
    · simp only [String.toList_append, String.toList_ofList, List.mem_append] at hc
      rcases hc with (hc | hc) | hc
      · exact hdecimal c (List.mem_of_mem_take hc)
      · obtain rfl : c = '.' := by simpa using hc
        rfl
      · exact hdecimal c (List.mem_of_mem_drop hc)

theorem positionalText_head {digits : List Char} (hne : digits ≠ [])
    (hdigits : ∀ c ∈ digits, c.isDigit = true) (point : ℤ) :
    ∃ c rest, (positionalText false digits point).toList = c :: rest ∧ c.isDigit = true := by
  obtain ⟨c, rest, rfl⟩ := List.exists_cons_of_ne_nil hne
  have hc : c.isDigit = true := hdigits c List.mem_cons_self
  unfold positionalText
  split
  · exact ⟨'0', _, by simp only [String.toList_append]; rfl, rfl⟩
  · next hpoint =>
      obtain ⟨k, hk⟩ : ∃ k, point.toNat = k + 1 := ⟨point.toNat - 1, by omega⟩
      split
      · exact ⟨c, _, by simp only [String.toList_append, String.toList_ofList]; rfl, hc⟩
      · exact ⟨c, _, by
          simp only [String.toList_append, String.toList_ofList, hk, List.take_succ_cons]; rfl, hc⟩

section Positional

variable {layout : Layout} (hpositional : layout.positional = none)
  (hpoint : layout.pointZero = false)
include hpositional hpoint

theorem unsigned_eq (number : Number) : ∃ point,
    layout.unsigned number = positionalText false (Nat.toDigits 10 number.digits) point := by
  refine ⟨number.exponent + (Nat.toDigits 10 number.digits).length - 1 + 1, ?_⟩
  simp only [Layout.unsigned, hpositional, hpoint, if_true]

/-- A decimal that is written positionally starts with a digit. -/
theorem unsigned_head (number : Number) :
    ∃ c rest, (layout.unsigned number).toList = c :: rest ∧ c.isDigit = true := by
  obtain ⟨point, htext⟩ := unsigned_eq hpositional hpoint number
  rw [htext]
  exact positionalText_head Nat.toDigits_ne_nil
    (fun c hc => Nat.isDigit_of_mem_toDigits (by decide) (by decide) hc) point

theorem unsigned_chars (number : Number) {c : Char} (hc : c ∈ (layout.unsigned number).toList) :
    isDecimalChar c = true := by
  obtain ⟨point, htext⟩ := unsigned_eq hpositional hpoint number
  rw [htext] at hc
  exact positionalText_chars
    (fun c hc => Nat.isDigit_of_mem_toDigits (by decide) (by decide) hc) point hc

end Positional

/-! ## Reading a text -/

/-- What is read of the text of a double: nothing of a NaN, otherwise whether it is negative, and
the decimal unless it is infinite. -/
def readText (text : List Char) : Option (Bool × Option ℚ) :=
  if text.head? = some 'N' then none
  else
    let body := text.dropWhile fun c => c == '-' || c == '+'
    some (text.head? == some '-',
      if body.head? = some 'i' then none else some (readDecimal body))

/-- What a shape is written as. -/
def Shape.content : Shape → Option (Bool × Option ℚ)
  | .nan => none
  | .infinite negative => some (negative, none)
  | .zero negative => some (negative, some 0)
  | .finite negative magnitude => some (negative, some magnitude.shortest.value)

/-- A text behind its sign. -/
theorem readText_sign (layout : Layout) (negative : Bool) (body : String) {c : Char}
    {rest : List Char} (hbody : body.toList = c :: rest) (hminus : c ≠ '-') (hplus : c ≠ '+')
    (hnan : c ≠ 'N') : readText (layout.sign negative ++ body).toList =
      some (negative, if c = 'i' then none else some (readDecimal body.toList)) := by
  have hstop : (c == '-' || c == '+') = false := by simp [hminus, hplus]
  rw [String.toList_append, hbody, readText]
  cases negative with
  | true => simp [Layout.sign, hstop]
  | false =>
      cases hsign : layout.plus with
      | true => simp [Layout.sign, hsign, hstop]
      | false => simp [Layout.sign, hsign, hstop, hminus, hnan]

/-- What is written is read back. -/
theorem readText_ofShape {layout : Layout} (hpositional : layout.positional = none)
    (hpoint : layout.pointZero = false) (shape : Shape) :
    readText (layout.ofShape shape).toList = shape.content := by
  cases shape with
  | nan => simp [Layout.ofShape, readText, Shape.content]
  | infinite negative =>
      exact readText_sign layout negative "inf" rfl (by decide) (by decide) (by decide)
  | zero negative =>
      have hzero : readDecimal ['0'] = 0 := by
        rw [readDecimal_of_whole (by decide)]
        rfl
      rw [Layout.ofShape, hpoint]
      refine (readText_sign layout negative "0" rfl (by decide) (by decide)
        (by decide)).trans ?_
      rw [if_neg (by decide), Shape.content]
      exact congrArg (fun q => some (negative, some q)) hzero
  | finite negative magnitude =>
      obtain ⟨c, rest, hhead, hdigit⟩ := unsigned_head hpositional hpoint magnitude.shortest
      have hne : ∀ {d : Char}, d.isDigit = false → c ≠ d := by
        rintro d hd rfl
        rw [hd] at hdigit
        cases hdigit
      rw [Layout.ofShape, readText_sign layout negative _ hhead (hne rfl) (hne rfl) (hne rfl),
        if_neg (hne rfl), readDecimal_unsigned hpositional hpoint, Shape.content]

/-- The shortest decimals of different doubles stand for different numbers. -/
theorem Binary.shortest_injective {b b' : Binary} (hb : b.Canonical) (hb' : b'.Canonical)
    (h : b.shortest.value = b'.shortest.value) : b = b' :=
  Rounds.unique hb hb' (shortest_rounds hb) (h ▸ shortest_rounds hb')

/-- What a double is written as determines its shape. -/
theorem Shape.eq_of_content {n m : ℕ}
    (h : (Shape.ofBits n).content = (Shape.ofBits m).content) :
    Shape.ofBits n = Shape.ofBits m := by
  have hpos : ∀ {k : ℕ} {negative : Bool} {b : Binary}, Shape.ofBits k = .finite negative b →
      b.shortest.value ≠ 0 := fun hk =>
    ((canonical_of_ofBits hk).pos_of_rounds (Binary.shortest_rounds (canonical_of_ofBits hk))).ne'
  cases hn : Shape.ofBits n <;> cases hm : Shape.ofBits m <;> rw [hn, hm] at h <;>
    simp only [content, Option.some.injEq, Prod.mk.injEq, reduceCtorEq, and_false, and_true] at h
  case infinite.infinite => rw [h]
  case zero.zero => rw [h]
  case zero.finite => exact absurd h.2.symm (hpos hm)
  case finite.zero => exact absurd h.2 (hpos hn)
  case finite.finite =>
    rw [h.1, Binary.shortest_injective (canonical_of_ofBits hn) (canonical_of_ofBits hm) h.2]

/-- Doubles that are written alike are equal. -/
theorem Layout.render_injective {layout : Layout} (hpositional : layout.positional = none)
    (hpoint : layout.pointZero = false) : Function.Injective layout.render := by
  intro x y hxy
  refine shape_injective (Shape.eq_of_content ?_)
  rw [← readText_ofShape hpositional hpoint, ← readText_ofShape hpositional hpoint]
  exact congrArg (fun text => readText text.toList) hxy

/-! ## The characters of a text -/

/-- The characters of written doubles. -/
def isNumberChar (c : Char) : Bool := isDecimalChar c || "-+NaNinf".toList.contains c

theorem isNumberChar_of_mem_render {layout : Layout} (hpositional : layout.positional = none)
    (hpoint : layout.pointZero = false) (x : Float) {c : Char}
    (hc : c ∈ (layout.render x).toList) : isNumberChar c = true := by
  have hsign : ∀ {negative : Bool}, c ∈ (layout.sign negative).toList → isNumberChar c = true := by
    intro negative hc
    unfold Layout.sign at hc
    split_ifs at hc <;> simp at hc <;> subst hc <;> rfl
  unfold Layout.render at hc
  cases hshape : Shape.ofBits x.toBits.toNat with
  | nan =>
      rw [hshape] at hc
      have : c = 'N' ∨ c = 'a' ∨ c = 'N' := by simpa [Layout.ofShape] using hc
      rcases this with rfl | rfl | rfl <;> rfl
  | infinite negative =>
      rw [hshape, Layout.ofShape, String.toList_append, List.mem_append] at hc
      refine hc.elim hsign fun hc => ?_
      have : c = 'i' ∨ c = 'n' ∨ c = 'f' := by simpa using hc
      rcases this with rfl | rfl | rfl <;> rfl
  | zero negative =>
      rw [hshape, Layout.ofShape, String.toList_append, List.mem_append, hpoint] at hc
      refine hc.elim hsign fun hc => ?_
      obtain rfl : c = '0' := by simpa using hc
      rfl
  | finite negative magnitude =>
      rw [hshape, Layout.ofShape, String.toList_append, List.mem_append] at hc
      refine hc.elim hsign fun hc => ?_
      rw [isNumberChar, unsigned_chars hpositional hpoint _ hc, Bool.true_or]

end JointModel.Decimal
