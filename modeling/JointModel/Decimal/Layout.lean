import JointModel.Decimal.Shortest

/-!
# Written doubles

`Layout.render` writes a double with its shortest digits.  A layout fixes what
is left open: whether a positive number carries a sign, whether a whole number
carries `.0`, and outside which decimal exponents the number is written as
`d.ddde±x` instead of positionally.
-/

namespace JointModel.Decimal

/-- What is left open once the digits of a number are known. -/
structure Layout where
  /-- A number without a minus sign gets a plus sign. -/
  plus : Bool
  /-- A whole number in positional form ends in `.0`. -/
  pointZero : Bool
  /-- The least and greatest exponent of the leading digit that is written
  positionally; every exponent is if there is none. -/
  positional : Option (Int × Int)
deriving DecidableEq, Repr

/-- Positional whatever the magnitude: `1`, `0.1`, `-0`, `0.0000001`. -/
def Layout.plain : Layout := ⟨false, false, none⟩

/-- As `plain`, but every number is signed: `+1`, `-0.5`. -/
def Layout.signed : Layout := ⟨true, false, none⟩

/-- Recognisable as a double: `7.0`, `0.25`, `1e21`, `1e-7`. -/
def Layout.distinct : Layout := ⟨false, true, some (-4, 15)⟩

/-- How a double is put together. -/
inductive Shape
  | nan
  | infinite (negative : Bool)
  | zero (negative : Bool)
  | finite (negative : Bool) (magnitude : Binary)
deriving DecidableEq, Repr

/-- The shape of the double with the given bits: a sign, eleven bits of
exponent, fifty-two of fraction. -/
def Shape.ofBits (bits : Nat) : Shape :=
  let negative := bits.testBit 63
  let exponent : Nat := (bits >>> 52) % 2048
  let fraction := bits % (1 <<< 52)
  if exponent == 2047 then
    if fraction == 0 then .infinite negative else .nan
  else if exponent == 0 then
    if fraction == 0 then .zero negative else .finite negative ⟨fraction, -1074, false⟩
  else
    .finite negative
      ⟨(1 <<< 52) + fraction, (exponent : Int) - 1075, fraction == 0 && exponent != 1⟩

/-- A run of `n` zeros. -/
def zeros (n : Nat) : String := String.ofList (List.replicate n '0')

/-- The digits with the point after the first `point` of them; zeros fill the
places that are missing on either side. -/
def positionalText (pointZero : Bool) (digits : List Char) (point : Int) : String :=
  if point ≤ 0 then
    "0." ++ zeros (-point).toNat ++ String.ofList digits
  else if digits.length ≤ point.toNat then
    String.ofList digits ++ zeros (point.toNat - digits.length) ++ if pointZero then ".0" else ""
  else
    String.ofList (digits.take point.toNat) ++ "." ++ String.ofList (digits.drop point.toNat)

/-- The digits with the point after the first one, and the exponent. -/
def scientificText (digits : List Char) (exponent : Int) : String :=
  let fraction := digits.drop 1
  String.ofList (digits.take 1) ++
    (if fraction.isEmpty then "" else "." ++ String.ofList fraction) ++ "e" ++ toString exponent

/-- A decimal without its sign. -/
def Layout.unsigned (layout : Layout) (number : Number) : String :=
  let digits := Nat.toDigits 10 number.digits
  let leading := number.exponent + digits.length - 1
  let positional := match layout.positional with
    | none => true
    | some (least, greatest) => least ≤ leading && leading ≤ greatest
  if positional then positionalText layout.pointZero digits (leading + 1)
  else scientificText digits leading

/-- The sign that goes before a number. -/
def Layout.sign (layout : Layout) (negative : Bool) : String :=
  if negative then "-" else if layout.plus then "+" else ""

/-- The text of a double.  A NaN has no sign. -/
def Layout.ofShape (layout : Layout) : Shape → String
  | .nan => "NaN"
  | .infinite negative => layout.sign negative ++ "inf"
  | .zero negative => layout.sign negative ++ if layout.pointZero then "0.0" else "0"
  | .finite negative magnitude => layout.sign negative ++ layout.unsigned magnitude.shortest

/-- The text of a double. -/
def Layout.render (layout : Layout) (x : Float) : String :=
  layout.ofShape (Shape.ofBits x.toBits.toNat)

/-! ## Examples -/

example : Layout.plain.ofShape (Shape.ofBits 0x3FB999999999999A) = "0.1" := by decide +kernel
example : Layout.plain.ofShape (Shape.ofBits 0x8000000000000000) = "-0" := by decide +kernel
example : Layout.plain.ofShape (Shape.ofBits 0x444B1AE4D6E2EF50) = "1000000000000000000000" := by
  decide +kernel
example : Layout.signed.ofShape (Shape.ofBits 0x3FF0000000000000) = "+1" := by decide +kernel
example : Layout.signed.ofShape (Shape.ofBits 0x7FF8000000000000) = "NaN" := by decide +kernel
example : Layout.distinct.ofShape (Shape.ofBits 0x401C000000000000) = "7.0" := by decide +kernel
example : Layout.distinct.ofShape (Shape.ofBits 0x444B1AE4D6E2EF50) = "1e21" := by decide +kernel
example : Layout.distinct.ofShape (Shape.ofBits 0x3E7AD7F29ABCAF48) = "1e-7" := by decide +kernel

end JointModel.Decimal
