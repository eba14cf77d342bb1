import HintSchema.Schema.Closure
import HintSchema.World

/-!
# Arguments

Literals of a request become values by the types of the arguments they are for: `Schema.coerceInput`
reads scalars and enumerations by their rules, wraps a single item into the lists its type asks for,
and constructs records from object literals.  `Schema.defaultLiteral` goes the other way for the
defaults that a document shows.
-/

namespace HintSchema

namespace TypeRef

/-- The type without any outer layers of non-null. -/
def strip : TypeRef → TypeRef
  | .nonNull inner => inner.strip
  | t => t

/-- A single value in one list for each list layer of its type. -/
def wrapSingle : TypeRef → Value → Value
  | .named _, v => v
  | .list inner, v => .list [inner.wrapSingle v]
  | .nonNull inner, v => inner.wrapSingle v

end TypeRef

namespace Schema

/-- The value of a literal that is neither null nor the literal of a record of its type.  An integer
or floating point literal for the scalar `ID` is taken by its text. -/
def coerceLeaf (s : Schema) (n : NodeRef) (literal : Literal) : Eval Value :=
  match s.body n, literal with
  | .scalar hooks, .number num =>
    if n.name = "ID" then pure (.str num.text) else hooks.parseLiteral (.number num)
  | .scalar hooks, _ => hooks.parseLiteral literal
  | .enum c values, _ => (EnumType.mk n.name c values).parseLiteral literal
  | .input .., _ => throw (.objectExpected n.name literal.text)
  | _, _ => throw (.notInputType n.name)

mutual

/-- The value of a literal for an argument of a type. -/
def coerceInput (world : World) (s : Schema) : Literal → TypeRef → Eval Value
  | .null, _ => pure .null
  | .list items, t =>
    match t.strip with
    | .list inner => do return .list (← coerceItems world s items inner)
    | other => s.coerceLeaf other.node (.list items)
  | .object entries, t => do
    let v ←
      match s.body t.node with
      | .input c fields => do
        let kwargs ← (fields.getD []).filterMapM fun (name, type) =>
          match coerceEntry world s entries name type with
          | some value => do return some (name, ← value)
          | none => return none
        world.hierarchy.construct c kwargs
      | _ => s.coerceLeaf t.node (.object entries)
    return t.wrapSingle v
  | .bool b, t => do return t.wrapSingle (← s.coerceLeaf t.node (.bool b))
  | .number n, t => do return t.wrapSingle (← s.coerceLeaf t.node (.number n))
  | .str x, t => do return t.wrapSingle (← s.coerceLeaf t.node (.str x))
  | .enum name, t => do return t.wrapSingle (← s.coerceLeaf t.node (.enum name))
  | .binary bytes, t => do return t.wrapSingle (← s.coerceLeaf t.node (.binary bytes))

/-- The values of the items of a list. -/
def coerceItems (world : World) (s : Schema) : List Literal → TypeRef → Eval (List Value)
  | [], _ => pure []
  | item :: rest, t => do
    let v ← coerceInput world s item t
    return v :: (← coerceItems world s rest t)

/-- The value of the entry with a name, if there is one. -/
def coerceEntry (world : World) (s : Schema) :
    List (String × Literal) → String → TypeRef → Option (Eval Value)
  | [], _, _ => none
  | (key, literal) :: rest, name, t =>
    if key = name then some (coerceInput world s literal t) else coerceEntry world s rest name t

end

/-- The literal of a value that is not null and no list, if it has one. -/
def leafLiteral (s : Schema) (n : NodeRef) (value : Value) : Option Literal :=
  match s.body n with
  | .scalar hooks => (hooks.serialize value).toOption.map Wire.toLiteral
  | .enum c values => ((EnumType.mk n.name c values).serialize value).toOption.map .enum
  | _ => none

/-- The literal that shows a default, if there is one. -/
def defaultLiteral (s : Schema) : TypeRef → Value → Option Literal
  | .nonNull inner, value => s.defaultLiteral inner value
  | _, .null => some .null
  | .list inner, .list items => (items.mapM (s.defaultLiteral inner)).map .list
  | .list _, _ => none
  | .named n, value => s.leafLiteral n value

/-- The default of an argument as a document shows it. -/
def shownDefault (s : Schema) (a : ArgumentDef) : Option Literal :=
  a.default.bind (s.defaultLiteral a.type)

end Schema

end HintSchema
