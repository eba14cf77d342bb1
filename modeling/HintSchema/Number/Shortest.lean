import HintSchema.Number.Binary64

/-!
# Shortest decimals

`Binary64.shortest` selects, among the decimals with the fewest digits that read back as a given
finite number, the one nearest to it.  The decimals that read back are those in the interval between
the midpoints to the two neighbours, the ends belonging to it when the significand is even.  For
each count of digits only the two neighbours of the number on that decimal grid need a test.
-/

namespace HintSchema

/-- The value `coefficient · 10 ^ exponent`. -/
structure Decimal where
  coefficient : Nat
  exponent : Int
  deriving DecidableEq, Repr

/-- Which of two equally near decimals is taken. -/
inductive Tie
  | up
  | even
  deriving DecidableEq, Repr

namespace Decimal

/-- The same value with the trailing zeros of the coefficient moved into the exponent, at most
`fuel` of them. -/
def stripZeros : Nat → Decimal → Decimal
  | 0, d => d
  | fuel + 1, d =>
    if d.coefficient % 10 = 0 then stripZeros fuel ⟨d.coefficient / 10, d.exponent + 1⟩ else d

/-- Compares `coefficient · 10 ^ exponent` with `n / den`. -/
def compareRatio (d : Decimal) (n den : Nat) : Ordering :=
  if 0 ≤ d.exponent then compare (d.coefficient * Nat.pow 10 d.exponent.toNat * den) n
  else compare (d.coefficient * den) (n * Nat.pow 10 (-d.exponent).toNat)

end Decimal

namespace Binary64

/-- Whether the neighbour below is only half as far away as the neighbour above: so for the powers
of two past the first exponent. -/
def narrowBelow (x : Binary64) : Bool :=
  x.magnitudeBits % fractions = 0 && 2 * fractions ≤ x.magnitudeBits

/-- Whether a decimal magnitude reads back as the magnitude of the number.  Midpoints are counted in
quarters of a unit. -/
def readsBack (x : Binary64) (d : Decimal) : Bool :=
  let low := 4 * x.units - (if x.narrowBelow then x.spacing else 2 * x.spacing)
  let high := 4 * x.units + 2 * x.spacing
  let closed := x.significand % 2 = 0
  match d.compareRatio low (4 * unitsPerOne), d.compareRatio high (4 * unitsPerOne) with
  | .lt, _ => false
  | .eq, _ => closed
  | .gt, .lt => true
  | .gt, .eq => closed
  | .gt, .gt => false

/-- The least `j` from `start` on with `10 ^ j` times the magnitude at least one, within `fuel`
steps. -/
def leadingPlace (x : Binary64) : Nat → Nat → Nat
  | 0, start => start
  | fuel + 1, start =>
    if unitsPerOne ≤ x.units * Nat.pow 10 start then start else leadingPlace x fuel (start + 1)

/-- The exponent of the leading decimal digit of a positive magnitude. -/
def leadingExponent (x : Binary64) : Int :=
  let whole := x.units / unitsPerOne
  if whole = 0 then -(x.leadingPlace 330 1 : Int)
  else ((Nat.toDigits 10 whole).length : Int) - 1

/-- The largest whole multiple of `10 ^ exponent` that is not above the magnitude. -/
def floorAt (x : Binary64) (exponent : Int) : Nat :=
  if 0 ≤ exponent then x.units / (unitsPerOne * Nat.pow 10 exponent.toNat)
  else x.units * Nat.pow 10 (-exponent).toNat / unitsPerOne

/-- Of the two neighbours on the grid of `10 ^ exponent`, the nearer one that reads back. -/
def nearestOnGrid (tie : Tie) (x : Binary64) (exponent : Int) : Option Decimal :=
  let low : Decimal := ⟨x.floorAt exponent, exponent⟩
  let high : Decimal := ⟨low.coefficient + 1, exponent⟩
  match x.readsBack low, x.readsBack high with
  | false, false => none
  | true, false => some low
  | false, true => some high
  | true, true =>
    let twice : Decimal := ⟨2 * low.coefficient + 1, exponent⟩
    match twice.compareRatio (2 * x.units) unitsPerOne with
    | .lt => some high
    | .gt => some low
    | .eq =>
      match tie with
      | .up => some high
      | .even => if low.coefficient % 2 = 0 then some low else some high

/-- The shortest decimal that reads back as the magnitude of a finite number other than zero, the
nearest one of that length.  Seventeen digits are always enough. -/
def shortest (tie : Tie) (x : Binary64) : Decimal :=
  let lead := x.leadingExponent
  let found := (List.range 17).findSome? fun (n : Nat) => x.nearestOnGrid tie (lead - (n : Int))
  (found.getD ⟨x.floorAt (lead - 16), lead - 16⟩).stripZeros 18

end Binary64

end HintSchema
