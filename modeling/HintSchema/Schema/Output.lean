import HintSchema.Schema.Coercion

/-!
# Results

The value a field returns is turned by the type of the field into an `Output`: literals for scalars
and enumerations, lists, and values whose own fields are to be read.  A value of an interface or a
union comes with the object type that stands for it, which `Schema.possibleType` picks: the type of
the very class of the value, or else the first one whose class the value is an instance of.
-/

namespace HintSchema

/-- What a field gives before its own fields are read. -/
inductive Output
  | literal (l : Literal)
  | list (items : List Output)
  /-- A value of an object type. -/
  | object (value : Value)
  /-- A value of an interface or a union with the object type that stands for it. -/
  | typed (value : Value) (type : NodeRef)

namespace Schema

/-- The object types that can stand for the interface or union with a name. -/
def possibleTypes (s : Schema) (abstract : String) : List NodeRef :=
  s.types.flatMap fun n =>
    match s.body n with
    | .object _ _ interfaces =>
      ((interfaces.getD []).filter fun i => i.name == abstract).map fun _ => n
    | .union _ members => if n.name = abstract then members.getD [] else []
    | _ => []

/-- The object types among some types, with their classes. -/
def objectClasses (s : Schema) (ns : List NodeRef) : List (NodeRef × ClassRef) :=
  ns.filterMap fun n =>
    match s.body n with
    | .object c _ _ => some (n, c)
    | _ => none

/-- The object type that stands for an interface or a union at a value. -/
def possibleType (h : Hierarchy) (s : Schema) (abstract : String) (value : Value) :
    Except Failure NodeRef :=
  let candidates := s.objectClasses (s.possibleTypes abstract)
  let exact := candidates.find? fun (_, c) => c.same value.classRef
  match exact.or (candidates.find? fun (_, c) => h.isInstance value c) with
  | some (n, _) => .ok n
  | none => .error (.noPossibleType abstract value.classRef.name)

/-- The output of a value that is not null for a named type. -/
def namedOutput (h : Hierarchy) (s : Schema) (n : NodeRef) (value : Value) :
    Except Failure Output :=
  match s.body n with
  | .scalar hooks => (hooks.serialize value).map fun w => .literal w.toLiteral
  | .enum c values =>
    ((EnumType.mk n.name c values).serialize value).map fun x => .literal (.enum x)
  | .object .. => .ok (.object value)
  | .interface .. | .union .. => (s.possibleType h n.name value).map (.typed value)
  | .input .. => .error (.inputAsOutput n.name)

/-- The output of a value for a type; none for the absent value. -/
def toOutput (h : Hierarchy) (s : Schema) : TypeRef → Value → Except Failure (Option Output)
  | .nonNull inner, value => toOutput h s inner value
  | _, .null => .ok none
  | .list inner, .list items => do
    let outputs ← items.mapM (toOutput h s inner)
    return some (.list (outputs.map fun o => o.getD (.literal .null)))
  | .list _, value => .error (.listExpected value.shown)
  | .named n, value => (s.namedOutput h n value).map some

end Schema

end HintSchema
