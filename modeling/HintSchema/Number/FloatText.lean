import HintSchema.Number.Shortest

/-!
# The text of a floating point number

All formats write the shortest digits that read back; a `FloatText` holds what they decide
differently.  `FloatText.shown` is used where values are shown, `FloatText.plain` where a number is
turned into a string, and `FloatText.wire` in wire values and literals.
-/

namespace HintSchema

/-- The decisions of a format for floating point numbers. -/
structure FloatText where
  /-- Whether a number with this exponent of its leading digit is written without an exponent. -/
  positional : Int → Bool
  /-- Whether a whole number keeps `.0`. -/
  pointZero : Bool
  /-- Whether a positive exponent is written with a plus sign. -/
  plusSign : Bool
  /-- Which of two equally near decimals is written. -/
  tie : Tie

namespace FloatText

/-- Positional from `1e-4` up to, but not including, `1e16`. -/
def shown : FloatText where
  positional e := -4 ≤ e && e < 16
  pointZero := true
  plusSign := false
  tie := .up

/-- Always positional, a whole number without a point. -/
def plain : FloatText where
  positional _ := true
  pointZero := false
  plusSign := false
  tie := .up

/-- Positional from `1e-5` up to, but not including, `1e16`; a positive exponent has its sign. -/
def wire : FloatText where
  positional e := -5 ≤ e && e < 16
  pointZero := true
  plusSign := true
  tie := .even

/-- The digits `digits` of a decimal whose leading digit has exponent `lead`, with a point. -/
def positionalText (f : FloatText) (digits : List Char) (lead : Int) : List Char :=
  if lead < 0 then
    '0' :: '.' :: (List.replicate (-lead - 1).toNat '0' ++ digits)
  else
    let whole := lead.toNat + 1
    if digits.length ≤ whole then
      digits ++ List.replicate (whole - digits.length) '0' ++
        (if f.pointZero then ['.', '0'] else [])
    else
      digits.take whole ++ '.' :: digits.drop whole

/-- The digits with one before the point, and the exponent. -/
def scientificText (f : FloatText) (digits : List Char) (lead : Int) : List Char :=
  let mantissa :=
    match digits with
    | [] => []
    | [d] => [d]
    | d :: rest => d :: '.' :: rest
  let exponent := Nat.toDigits 10 lead.natAbs
  let sign := if lead < 0 then ['-'] else if f.plusSign then ['+'] else []
  mantissa ++ 'e' :: (sign ++ exponent)

/-- The text of a positive magnitude. -/
def decimalText (f : FloatText) (d : Decimal) : List Char :=
  let digits := Nat.toDigits 10 d.coefficient
  let lead := d.exponent + (digits.length : Int) - 1
  if f.positional lead then f.positionalText digits lead else f.scientificText digits lead

/-- The text of a number.  The sign of a zero is written; a NaN has none. -/
def render (f : FloatText) (x : Binary64) : String :=
  if x.isNaN then "NaN"
  else
    let magnitude :=
      if !x.isFinite then ['i', 'n', 'f']
      else if x.isZero then (if f.pointZero then ['0', '.', '0'] else ['0'])
      else f.decimalText (x.shortest f.tie)
    String.ofList (if x.isNegative then '-' :: magnitude else magnitude)

end FloatText

end HintSchema
