import HintSchema.Field
import HintSchema.Scalar

/-!
# Types of a schema

Named types are nodes of a graph, and a `NodeRef` points at one by its number; types refer to each
other, or to themselves, through such references.  The parts of a node that refer to further nodes
are filled in after it is made (`Node.isRealized`).  A `TypeRef` is a named type under layers of
lists and of non-null.
-/

namespace HintSchema

/-- The kinds of named types. -/
inductive NodeKind
  | object
  | interface
  | input
  | enum
  | scalar
  | union
  deriving DecidableEq, Repr

def NodeKind.text : NodeKind → String
  | .object => "object"
  | .interface => "interface"
  | .input => "input"
  | .enum => "enum"
  | .scalar => "scalar"
  | .union => "union"

/-- A reference to a named type.  Two references mean the same type when their ids agree. -/
structure NodeRef where
  id : Nat
  kind : NodeKind
  name : String
  deriving DecidableEq, Repr

/-- The text that shows a named type. -/
def NodeRef.shown (n : NodeRef) : String := n.kind.text ++ "(" ++ n.name ++ ")"

/-- A type of a field or an argument. -/
inductive TypeRef
  | named (n : NodeRef)
  | list (inner : TypeRef)
  | nonNull (inner : TypeRef)
  deriving DecidableEq, Repr

namespace TypeRef

/-- The type without one outer layer of non-null, if it has one. -/
def nullable : TypeRef → TypeRef
  | .nonNull inner => inner
  | t => t

def isNonNull : TypeRef → Bool
  | .nonNull _ => true
  | _ => false

/-- The named type under all layers. -/
def node : TypeRef → NodeRef
  | .named n => n
  | .list inner | .nonNull inner => inner.node

/-- The printed form. -/
def text : TypeRef → String
  | .named n => n.name
  | .list inner => "[" ++ inner.text ++ "]"
  | .nonNull inner => inner.text ++ "!"

/-- The text that shows a type. -/
def shown (t : TypeRef) : String := "TypeNode(" ++ t.text ++ ")"

/-- Same layers, and the same named type under them. -/
def same : TypeRef → TypeRef → Bool
  | .named m, .named n => m.id == n.id
  | .list s, .list t | .nonNull s, .nonNull t => s.same t
  | _, _ => false

end TypeRef

/-- An argument of a field. -/
structure ArgumentDef where
  name : String
  type : TypeRef
  default : Option Value

/-- An output field. -/
structure FieldDef where
  name : String
  description : Option String
  type : TypeRef
  args : List (String × ArgumentDef)
  source : FieldSource
  resolver : Resolver

/-- What a named type is made of.  A part that is not filled in yet is `none`. -/
inductive NodeBody
  | object (c : ClassRef) (fields : Option (List (String × FieldDef)))
    (interfaces : Option (List NodeRef))
  | interface (c : ClassRef) (fields : Option (List (String × FieldDef)))
  | input (c : ClassRef) (fields : Option (List (String × TypeRef)))
  | enum (c : ClassRef) (values : List (String × Value))
  | scalar (hooks : ScalarHooks)
  | union (declared : List ResolvedHint) (members : Option (List NodeRef))

/-- A named type. -/
structure Node where
  name : String
  description : Option String
  body : NodeBody

namespace NodeBody

def kind : NodeBody → NodeKind
  | .object .. => .object
  | .interface .. => .interface
  | .input .. => .input
  | .enum .. => .enum
  | .scalar .. => .scalar
  | .union .. => .union

/-- The class a type stands for. -/
def class? : NodeBody → Option ClassRef
  | .object c _ _ | .interface c _ | .input c _ | .enum c _ => some c
  | .scalar _ | .union _ _ => none

/-- Whether every part is filled in. -/
def isRealized : NodeBody → Bool
  | .object _ fields interfaces => fields.isSome && interfaces.isSome
  | .interface _ fields => fields.isSome
  | .input _ fields => fields.isSome
  | .union _ members => members.isSome
  | .enum .. | .scalar _ => true

/-- The output fields. -/
def fields : NodeBody → List (String × FieldDef)
  | .object _ fields _ | .interface _ fields => fields.getD []
  | _ => []

/-- The fields of an input type. -/
def inputFields : NodeBody → List (String × TypeRef)
  | .input _ fields => fields.getD []
  | _ => []

/-- The interfaces of an object type. -/
def interfaces : NodeBody → List NodeRef
  | .object _ _ interfaces => interfaces.getD []
  | _ => []

/-- The member types of a union. -/
def members : NodeBody → List NodeRef
  | .union _ members => members.getD []
  | _ => []

/-- The named types that output fields mention: each field's own, then those of its arguments. -/
def fieldReferences (fields : List (String × FieldDef)) : List NodeRef :=
  fields.flatMap fun (_, f) => f.type.node :: f.args.map fun (_, a) => a.type.node

/-- The named types a type mentions. -/
def references (b : NodeBody) : List NodeRef :=
  fieldReferences b.fields ++ b.interfaces ++ b.inputFields.map (fun (_, t) => t.node) ++ b.members

end NodeBody

namespace Node

def kind (n : Node) : NodeKind := n.body.kind

def isRealized (n : Node) : Bool := n.body.isRealized

/-- The reference to a node with a number. -/
def refAt (n : Node) (id : Nat) : NodeRef := ⟨id, n.kind, n.name⟩

end Node

/-- The text of a field's source. -/
def FieldSource.text : FieldSource → String
  | .property => "Property"
  | .method => "Method"
  | .inferredAttribute => "InferredAttribute"
  | .attribute => "Attribute"

/-- The text that shows an argument. -/
def ArgumentDef.shown (a : ArgumentDef) : String :=
  let default :=
    match a.default with
    | some v => "Some(" ++ v.shown ++ ")"
    | none => "None"
  "ArgumentDef \x7b name: " ++ Text.Quoting.shown.quote a.name ++ ", ty: " ++ a.type.shown ++
  ", default: " ++ default ++ " \x7d"

/-- The text that shows a field. -/
def FieldDef.shown (f : FieldDef) : String :=
  let args := f.args.map fun (name, a) => Text.Quoting.shown.quote name ++ ": " ++ a.shown
  "FieldDef \x7b name: " ++ Text.Quoting.shown.quote f.name ++ ", ty: " ++ f.type.shown ++
  ", args: \x7b" ++ ", ".intercalate args ++ "\x7d, source: " ++ f.source.text ++ " \x7d"

/-- The text that shows a field of an input type. -/
def inputFieldShown (name : String) (type : TypeRef) : String :=
  "InputFieldDef \x7b name: " ++ Text.Quoting.shown.quote name ++ ", ty: " ++ type.shown ++
  " \x7d"

end HintSchema
