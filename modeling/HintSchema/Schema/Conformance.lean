import HintSchema.Schema.Closure

/-!
# Rules for execution

A schema can be executed and written as a document if its types keep the rules that
`Schema.conforms` checks: objects have fields, no registered type takes the name of a built-in
scalar, fields have output types and arguments input types, no input object must contain itself, and
objects conform to their interfaces.
-/

namespace HintSchema

/-- The names of the scalars that every schema has. -/
def builtinScalars : List String := ["Int", "Float", "String", "Boolean", "ID"]

namespace NodeKind

/-- Whether an argument can have a type of this kind. -/
def isInput : NodeKind → Bool
  | .input | .enum | .scalar => true
  | .object | .interface | .union => false

/-- Whether a field can have a type of this kind. -/
def isOutput : NodeKind → Bool
  | .input => false
  | _ => true

/-- Whether values of this kind have fields of their own to select. -/
def isComposite : NodeKind → Bool
  | .object | .interface | .union => true
  | .input | .enum | .scalar => false

end NodeKind

/-- Whether the type of an object's field stands for that of the interface's field, as the rules
have it: an interface's non-null layer may be missing on the object. -/
def TypeRef.standsFor : TypeRef → TypeRef → Bool
  | .nonNull c, .nonNull i => c.standsFor i
  | c, .nonNull i => c.standsFor i
  | .named m, .named n => m.name == n.name
  | .list c, .list i => c.standsFor i
  | _, _ => false

namespace Schema

/-- Whether a type is a scalar that every schema has. -/
def isBuiltinScalar (n : NodeRef) : Bool := n.kind == .scalar && builtinScalars.contains n.name

/-- The types that are registered by name: all but the scalars that every schema has. -/
def registered (s : Schema) : List NodeRef := s.types.filter fun n => !isBuiltinScalar n

/-- Whether a name is kept for introspection. -/
def isReserved (name : String) : Bool := ['_', '_'].isPrefixOf name.toList

/-- Whether a field has an output type and arguments of input types, under names that are not
reserved. -/
def fieldConforms (f : FieldDef) : Bool :=
  !isReserved f.name && f.type.node.kind.isOutput &&
    f.args.all fun (_, a) => !isReserved a.name && a.type.node.kind.isInput

/-- Whether an object's field has what the interface's field of its name asks for. -/
def fieldImplements (own declared : FieldDef) : Bool :=
  own.type.standsFor declared.type &&
    declared.args.all fun (name, a) =>
      match Keyed.get? own.args name with
      | some b => a.type.standsFor b.type
      | none => !a.type.isNonNull

/-- Whether an object's fields have all that an interface declares. -/
def implementsAll (own declared : List (String × FieldDef)) : Bool :=
  declared.all fun (name, f) =>
    match Keyed.get? own name with
    | some g => fieldImplements g f
    | none => false

/-- The input objects that an input object must contain. -/
def requiredInputs (s : Schema) (n : NodeRef) : List NodeRef :=
  (s.body n).inputFields.filterMap fun (_, t) =>
    match t with
    | .nonNull (.named m) => if m.kind = .input then some m else none
    | _ => none

/-- The input objects found so far, those reached from the ones found last, and so on, for at most
as many steps as there is fuel. -/
def requiredFrom (s : Schema) : Nat → List NodeRef → List NodeRef → List NodeRef
  | 0, found, _ => found
  | fuel + 1, found, last =>
    let next := (last.flatMap s.requiredInputs).foldl
      (fun acc m => if m ∈ found ++ acc then acc else acc ++ [m]) []
    if next.isEmpty then found else s.requiredFrom fuel (found ++ next) next

/-- Whether an input object must contain itself. -/
def mustContainItself (s : Schema) (n : NodeRef) : Bool :=
  n ∈ s.requiredFrom (s.types.length + 1) [] [n]

/-- Whether a registered type keeps the rules. -/
def typeConforms (s : Schema) (n : NodeRef) : Bool :=
  !builtinScalars.contains n.name &&
    match s.body n with
    | .object _ fields interfaces =>
      let own := fields.getD []
      !own.isEmpty && own.all (fun (_, f) => fieldConforms f) &&
        (interfaces.getD []).all fun i => implementsAll own (s.body i).fields
    | .interface _ fields => (fields.getD []).all fun (_, f) => fieldConforms f
    | .input _ fields =>
      (fields.getD []).all (fun (name, t) => !isReserved name && t.node.kind.isInput) &&
        !s.mustContainItself n
    | .enum .. | .scalar _ | .union .. => true

/-- Whether the schema can be executed. -/
def conforms (s : Schema) : Bool := s.registered.all s.typeConforms

/-- The schema, if it can be executed. -/
def executable (s : Schema) : Except SchemaError Schema :=
  if s.conforms then .ok s else .error .notExecutable

end Schema

end HintSchema
