import HintSchema.Keyed
import HintSchema.Number
import HintSchema.Text.Quoted

/-!
# Wire values and literals

`Wire` is what variables and answers carry, `Literal` what a request or a schema document spells
out. A literal has two kinds of its own: the name of an enum value and a binary text.
`Literal.toWire` and `Wire.toLiteral` go from one to the other, and `text` prints either.
-/

namespace HintSchema

open Text

/-- A value as it travels: entries of an object keep their order. -/
inductive Wire
  | null
  | bool (b : Bool)
  | number (n : Number)
  | str (s : String)
  | list (items : List Wire)
  | object (entries : List (String × Wire))

/-- A value as a document spells it. -/
inductive Literal
  | null
  | bool (b : Bool)
  | number (n : Number)
  | str (s : String)
  | enum (name : String)
  | binary (bytes : List UInt8)
  | list (items : List Literal)
  | object (entries : List (String × Literal))

namespace Wire

/-- A floating point number on the wire: infinities and NaN have no number there and become null. -/
def ofBinary64 (x : Binary64) : Wire :=
  match Number.ofBinary64? x with
  | some n => .number n
  | none => .null

mutual

/-- The compact text of a value, without blanks. -/
def text : Wire → String
  | .null => "null"
  | .bool b => if b then "true" else "false"
  | .number n => n.text
  | .str s => Quoting.json.quote s
  | .list items => "[" ++ ",".intercalate (itemTexts items) ++ "]"
  | .object entries => "\x7b" ++ ",".intercalate (entryTexts entries) ++ "\x7d"

/-- The texts of the items of a list. -/
def itemTexts : List Wire → List String
  | [] => []
  | item :: rest => item.text :: itemTexts rest

/-- The texts of the entries of an object. -/
def entryTexts : List (String × Wire) → List String
  | [] => []
  | (key, value) :: rest => (Quoting.json.quote key ++ ":" ++ value.text) :: entryTexts rest

end

mutual

/-- The literal of the same kind. -/
def toLiteral : Wire → Literal
  | .null => .null
  | .bool b => .bool b
  | .number n => .number n
  | .str s => .str s
  | .list items => .list (toLiterals items)
  | .object entries => .object (toLiteralEntries entries)

/-- `toLiteral` on each item. -/
def toLiterals : List Wire → List Literal
  | [] => []
  | item :: rest => item.toLiteral :: toLiterals rest

/-- `toLiteral` on each value of an object. -/
def toLiteralEntries : List (String × Wire) → List (String × Literal)
  | [] => []
  | (key, value) :: rest => (key, value.toLiteral) :: toLiteralEntries rest

end

end Wire

namespace Literal

mutual

/-- The text of a literal, as a document spells it. -/
def text : Literal → String
  | .null => "null"
  | .bool b => if b then "true" else "false"
  | .number n => n.text
  | .str s => Quoting.literal.quote s
  | .enum name => name
  | .binary bytes => "[" ++ ", ".intercalate (bytes.map fun b => toString b.toNat) ++ "]"
  | .list items => "[" ++ ", ".intercalate (itemTexts items) ++ "]"
  | .object entries => "\x7b" ++ ", ".intercalate (entryTexts entries) ++ "\x7d"

/-- The texts of the items of a list. -/
def itemTexts : List Literal → List String
  | [] => []
  | item :: rest => item.text :: itemTexts rest

/-- The texts of the entries of an object; their keys are names and stand bare. -/
def entryTexts : List (String × Literal) → List String
  | [] => []
  | (key, value) :: rest => (key ++ ": " ++ value.text) :: entryTexts rest

end

mutual

/-- The wire value a variable would carry: the name of an enum value becomes a string.  A binary
text has no wire form. -/
def toWire : Literal → Option Wire
  | .null => some .null
  | .bool b => some (.bool b)
  | .number n => some (.number n)
  | .str s => some (.str s)
  | .enum name => some (.str name)
  | .binary _ => none
  | .list items => (toWires items).map .list
  | .object entries => (toWireEntries entries).map .object

/-- `toWire` on each item. -/
def toWires : List Literal → Option (List Wire)
  | [] => some []
  | item :: rest => do return (← item.toWire) :: (← toWires rest)

/-- `toWire` on each value of an object. -/
def toWireEntries : List (String × Literal) → Option (List (String × Wire))
  | [] => some []
  | (key, value) :: rest => do return (key, ← value.toWire) :: (← toWireEntries rest)

end

end Literal

end HintSchema
