import HintSchema.Number.FloatText

/-!
# Numbers on the wire

A wire number is an integer of at most 64 bits, signed or not, or a finite floating point number;
the two kinds stay apart even when the values agree.
-/

namespace HintSchema

/-- A number of a wire value or a literal. -/
inductive Number
  | int (n : Int) (lower : -9223372036854775808 ≤ n) (upper : n < 18446744073709551616)
  | float (x : Binary64) (finite : x.isFinite = true)
  deriving DecidableEq

namespace Number

/-- The integer, if it has a wire form. -/
def ofInt? (n : Int) : Option Number :=
  if h : -9223372036854775808 ≤ n ∧ n < 18446744073709551616 then some (.int n h.1 h.2) else none

/-- Every signed 64-bit integer has a wire form. -/
def ofInt64 (n : Int64) : Number :=
  .int n.toInt (Int64.le_toInt n) (Int.lt_trans (Int64.toInt_lt n) (by decide))

/-- The floating point number, if it is finite. -/
def ofBinary64? (x : Binary64) : Option Number :=
  if h : x.isFinite = true then some (.float x h) else none

/-- The number as a signed 64-bit integer; a floating point number is none, even when whole. -/
def toInt64? : Number → Option Int64
  | .int n _ _ => if n < 9223372036854775808 then some (Int64.ofInt n) else none
  | .float _ _ => none

/-- The number as a floating point number, an integer being rounded to the nearest one. -/
def toBinary64 : Number → Binary64
  | .int n _ _ => .ofInt n
  | .float x _ => x

/-- The text of a number. -/
def text : Number → String
  | .int n _ _ => toString n
  | .float x _ => FloatText.wire.render x

end Number

end HintSchema
