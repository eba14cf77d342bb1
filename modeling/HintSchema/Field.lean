import HintSchema.ResolvedHint
import HintSchema.Hierarchy

/-!
# Fields of a class

`describeFields` lists what a class shows in a schema: its properties, methods and values in the
order of names, then what only hints declare.  A hint decides over a member of the same name, which
it replaces in place, and names that begin with an underscore are left out.
-/

namespace HintSchema

/-- Where a field comes from. -/
inductive FieldSource
  | property
  | method
  /-- A value, which gives the type. -/
  | inferredAttribute
  /-- A hint. -/
  | attribute
  deriving DecidableEq, Repr

/-- How the value of a field is found. -/
inductive Resolver
  | attribute (name : String)
  | method (m : Method)

/-- A parameter of a method with its resolved hint. -/
structure ResolvedParam where
  name : String
  hint : ResolvedHint
  default : Option Value

/-- What a field is made of. -/
structure FieldDescriptor where
  name : String
  hint : ResolvedHint
  args : List ResolvedParam := []
  description : Option String := none
  source : FieldSource
  resolver : Resolver

/-- All hints of a class, resolved. -/
def resolveHints (h : Hierarchy) (ns : Namespace) (c : ClassRef) :
    Except SchemaError (List (String × ResolvedHint)) :=
  (h.allHints c).mapM fun (name, declaring, hint) => do
    return (name, ← ResolvedHint.ofHint ns hint ⟨declaring.name, name⟩)

/-- The place of a member's declaration, as errors give it. -/
def memberSite (c : ClassRef) (name : String) : String := c.name ++ "." ++ name

/-- The hint of a property, resolved. -/
def resolveProperty (ns : Namespace) (c : ClassRef) (p : Property) :
    Except SchemaError ResolvedHint :=
  ResolvedHint.ofHint ns p.returns ⟨memberSite c p.name, "return"⟩

/-- A parameter with its hint resolved; a default that is absent makes its type optional. -/
def resolveParam (ns : Namespace) (c : ClassRef) (m : Method) (p : Param) :
    Except SchemaError ResolvedParam :=
  let origin : Origin := ⟨memberSite c m.name, p.name⟩
  match ns.eval p.hint with
  | .error e => .error (e.locatedAt origin)
  | .ok type => do
    let type :=
      match p.default with
      | some .null => TypeExpr.optional type
      | _ => type
    return ⟨p.name, ← ResolvedHint.ofExpr (some p.hint) (some origin) type, p.default⟩

/-- The parameters and the result of a method with their hints resolved. -/
def resolveMethod (ns : Namespace) (c : ClassRef) (m : Method) :
    Except SchemaError (List ResolvedParam × ResolvedHint) := do
  let args ← m.params.mapM (resolveParam ns c m)
  let returns ← ResolvedHint.ofHint ns m.returns ⟨memberSite c m.name, "return"⟩
  return (args, returns)

/-- Whether a name never becomes a field. -/
def isPrivate (name : String) : Bool := name.toList.head? == some '_'

/-- The field of a member, if it has one: a value with a hint has none here. -/
def memberField (ns : Namespace) (c : ClassRef) (hinted : String → Bool) (name : String) :
    Member → Except SchemaError (Option FieldDescriptor)
  | .property p => do
    let hint ← resolveProperty ns c p
    return some
      { name, hint, description := p.doc, source := .property, resolver := .attribute name }
  | .method m => do
    let (args, returns) ← resolveMethod ns c m
    return some
      { name, hint := returns, args, description := m.doc, source := .method,
        resolver := .method m }
  | .value v =>
    if hinted name then .ok none
    else
      .ok <| some
        { name, hint := .ofClass v.classRef (some ⟨c.name, name⟩),
          source := .inferredAttribute, resolver := .attribute name }

/-- The field of a hint. -/
def hintField (name : String) (hint : ResolvedHint) : FieldDescriptor :=
  { name, hint, source := .attribute, resolver := .attribute name }

/-- The fields of a class. -/
def describeFields (h : Hierarchy) (ns : Namespace) (c : ClassRef) :
    Except SchemaError (List FieldDescriptor) := do
  let hints ← resolveHints h ns c
  let visible := (h.dir c).filter fun (name, _) => !isPrivate name
  let members ← visible.filterMapM fun (name, member) =>
    memberField ns c (Keyed.contains hints) name member
  let byName := Keyed.ofList (members.map fun f => (f.name, f))
  let shown := hints.filter fun (name, _) => !isPrivate name
  return Keyed.values
    (Keyed.putAll byName (shown.map fun (name, hint) => (name, hintField name hint)))

end HintSchema
