import HintSchema.Body
import HintSchema.TypeExpr

/-!
# Class declarations

A `ClassDef` is what a class itself declares: its bases, its capabilities, its members and hints by
name, the names it declares as record fields, and the variants of an enumeration.  A class is
declared by starting from `ClassDef.named` and adding to it, member by member.
-/

namespace HintSchema

/-- A parameter of a method. -/
structure Param where
  name : String
  hint : Hint
  default : Option Value

/-- A member computed from the receiver alone. -/
structure Property where
  name : String
  doc : Option String
  returns : Hint
  body : Body

/-- A member computed from the receiver and arguments. -/
structure Method where
  name : String
  doc : Option String
  params : List Param
  returns : Hint
  body : Body

/-- A member of a class. -/
inductive Member
  | property (p : Property)
  | method (m : Method)
  | value (v : Value)

/-- The text that shows a member. -/
def Member.shown : Member → String
  | .property p => "Property(" ++ p.name ++ ")"
  | .method m => "Method(" ++ m.name ++ ")"
  | .value v => "Value(" ++ v.shown ++ ")"

/-- What the instances of a class can be in a schema. -/
structure Capabilities where
  object : Bool := false
  interface : Bool := false
  record : Bool := false
  enumeration : Bool := false
  deriving DecidableEq, Repr

/-- The kinds of values with a built-in scalar. -/
inductive Primitive
  | int
  | float
  | str
  | bool
  deriving DecidableEq, Repr

/-- What a class declares. -/
structure ClassDef where
  name : String
  doc : Option String := none
  bases : List ClassRef := []
  primitive : Option Primitive := none
  capabilities : Capabilities := {}
  members : List (String × Member) := []
  hints : List (String × Hint) := []
  /-- The names declared as fields, in order. -/
  declared : List String := []
  variants : List (String × Value) := []

namespace ClassDef

/-- A class that declares nothing yet. -/
def named (name : String) : ClassDef := { name }

/-- Declares a name as a field, once. -/
def declare (d : ClassDef) (name : String) : ClassDef :=
  if name ∈ d.declared then d else { d with declared := d.declared ++ [name] }

/-- A hint without a value. -/
def annotate (d : ClassDef) (name : String) (hint : Hint) : ClassDef :=
  let d := d.declare name
  { d with hints := Keyed.put d.hints name hint }

/-- A member that is no declared field. -/
def addMember (d : ClassDef) (name : String) (member : Member) : ClassDef :=
  { d with members := Keyed.put d.members name member }

/-- A hint with a value, which is the default of a record field. -/
def attr (d : ClassDef) (name : String) (hint : Hint) (value : Value) : ClassDef :=
  (d.annotate name hint).addMember name (.value value)

def addProperty (d : ClassDef) (p : Property) : ClassDef := d.addMember p.name (.property p)

def addMethod (d : ClassDef) (m : Method) : ClassDef := d.addMember m.name (.method m)

def addVariant (d : ClassDef) (name : String) (value : Value) : ClassDef :=
  { d with variants := Keyed.put d.variants name value }

/-- The record fields of the class itself; only records have any. -/
def recordFields (d : ClassDef) : List String := if d.capabilities.record then d.declared else []

end ClassDef

end HintSchema
