import HintSchema.ClassRef
import HintSchema.Payload

/-!
# Values

A `Value` is what members of classes hold and what fields of a schema return.  Objects and sealed
values have an identity besides their content, a number given when they are made; equality
(`Value.equal`) goes by identity for them, by name for members of enumerations, and by content for
all others, an integer being equal to the floating point number it rounds to.
-/

namespace HintSchema

/-- A value at run time. -/
inductive Value
  | null
  | bool (b : Bool)
  | int (n : Int64)
  | float (x : Binary64)
  | str (s : String)
  | list (items : List Value)
  /-- An instance of a class with its own attributes. -/
  | object (ident : Nat) (c : ClassRef) (attrs : List (String × Value))
  /-- A member of an enumeration class. -/
  | enum (c : ClassRef) (name : String)
  /-- An instance of a class whose content only scalars know. -/
  | sealed (ident : Nat) (c : ClassRef) (payload : Payload)

namespace Value

/-- The class of a value at run time. -/
def classRef : Value → ClassRef
  | .null => .noneType
  | .bool _ => .bool
  | .int _ => .int
  | .float _ => .float
  | .str _ => .str
  | .list _ => .list
  | .object _ c _ | .enum c _ | .sealed _ c _ => c

def isNull : Value → Bool
  | .null => true
  | _ => false

/-- The number a value is, an integer being widened. -/
def toBinary64? : Value → Option Binary64
  | .float x => some x
  | .int n => some (.ofInt n.toInt)
  | _ => none

mutual

/-- Equality of values. -/
def equal : Value → Value → Bool
  | .null, .null => true
  | .bool a, .bool b => a == b
  | .int m, .int n => m == n
  | .float x, .float y => x.numEq y
  | .int n, .float x => (Binary64.ofInt n.toInt).numEq x
  | .float x, .int n => (Binary64.ofInt n.toInt).numEq x
  | .str s, .str t => s == t
  | .list vs, .list ws => equalAll vs ws
  | .object i _ _, .object j _ _ => i == j
  | .enum c m, .enum d n => c.same d && m == n
  | .sealed i _ _, .sealed j _ _ => i == j
  | _, _ => false

/-- Equality of lists of values. -/
def equalAll : List Value → List Value → Bool
  | [], [] => true
  | v :: vs, w :: ws => v.equal w && equalAll vs ws
  | _, _ => false

end

mutual

/-- The text that shows a value in messages. -/
def shown : Value → String
  | .null => "None"
  | .bool b => if b then "True" else "False"
  | .int n => toString n.toInt
  | .float x => FloatText.shown.render x
  | .str s => Text.Quoting.shown.quote s
  | .list items => "[" ++ ", ".intercalate (shownItems items) ++ "]"
  | .object _ c attrs =>
    if attrs.isEmpty then c.name
    else c.name ++ " \x7b " ++ ", ".intercalate (shownAttrs attrs) ++ " \x7d"
  | .enum c name => c.name ++ "." ++ name
  | .sealed _ c _ => "<" ++ c.name ++ " object>"

/-- The texts of the items of a list. -/
def shownItems : List Value → List String
  | [] => []
  | v :: rest => v.shown :: shownItems rest

/-- The texts of the attributes of an object. -/
def shownAttrs : List (String × Value) → List String
  | [] => []
  | (name, v) :: rest => (name ++ ": " ++ v.shown) :: shownAttrs rest

end

end Value

end HintSchema
