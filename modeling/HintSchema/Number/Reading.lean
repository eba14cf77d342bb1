import HintSchema.Number.Binary64

/-!
# Reading a floating point number

`Binary64.ofText?` reads the decimal notation `[sign] digits [. digits] [e [sign] digits]`, in which
one of the two runs of digits may be empty, and the names of the infinities and of NaN in either
case of letters.  The number is the one nearest to the decimal.
-/

namespace HintSchema.Binary64

/-- The value of a run of decimal digits. -/
def digitsValue (cs : List Char) : Nat :=
  cs.foldl (fun n c => 10 * n + (c.toNat - '0'.toNat)) 0

/-- Splits an optional sign off a text; the flag says whether it was a minus. -/
def splitSign : List Char → Bool × List Char
  | '-' :: rest => (true, rest)
  | '+' :: rest => (false, rest)
  | rest => (false, rest)

/-- The exponent after the digits: nothing, or a mark followed by a signed run of digits. -/
def exponentOf? : List Char → Option Int
  | [] => some 0
  | mark :: rest =>
    if mark = 'e' || mark = 'E' then
      let (negative, digits) := splitSign rest
      if digits.isEmpty || !digits.all Char.isDigit then none
      else some (if negative then -(digitsValue digits : Int) else digitsValue digits)
    else none

/-- Reads an unsigned number in decimal notation. -/
def ofDecimalText? (negative : Bool) (cs : List Char) : Option Binary64 :=
  let whole := cs.takeWhile Char.isDigit
  let (fraction, rest) :=
    match cs.dropWhile Char.isDigit with
    | '.' :: after => (after.takeWhile Char.isDigit, after.dropWhile Char.isDigit)
    | after => ([], after)
  if whole.isEmpty && fraction.isEmpty then none
  else
    (exponentOf? rest).map fun exponent =>
      ofDecimal negative (digitsValue (whole ++ fraction)) (exponent - (fraction.length : Int))

/-- Reads a number. -/
def ofText? (s : String) : Option Binary64 :=
  let (negative, cs) := splitSign s.toList
  let word := String.ofList (cs.map Char.toLower)
  if word = "nan" then some nan
  else if word = "inf" || word = "infinity" then some (infinity negative)
  else ofDecimalText? negative cs

end HintSchema.Binary64
