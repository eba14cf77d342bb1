import HintSchema.Hierarchy

/-!
# Members at run time

A `World` is a hierarchy with the labels of its declarations.  Here records are constructed
(`Hierarchy.construct`), arguments are bound to parameters (`Method.bind`), and members are
evaluated: `World.getAttr` reads an attribute, which may run a property, whose body may read
attributes in turn.
-/

namespace HintSchema

/-- The declared classes, and what labels stand for. -/
structure World where
  hierarchy : Hierarchy
  labels : Labels := {}

namespace Hierarchy

/-- The attributes of a record: for each field the argument of its name, or else the value its class
has for it.  Also gives the arguments that are left over. -/
def bindFields (h : Hierarchy) (c : ClassRef) :
    List String → Args → Except Failure (Args × Args)
  | [], kwargs => .ok ([], kwargs)
  | field :: rest, kwargs => do
    let value ←
      match Keyed.get? kwargs field with
      | some value => .ok value
      | none =>
        match h.lookup c field with
        | some (.value default) => .ok default
        | _ => .error (.missingArgument c.name field)
    let (attrs, extra) ← bindFields h c rest (Keyed.erase kwargs field)
    .ok ((field, value) :: attrs, extra)

/-- The attributes of a new instance of a record class, from keyword arguments. -/
def recordAttrs (h : Hierarchy) (c : ClassRef) (kwargs : Args) : Except Failure Args :=
  if h.isRecord c then
    match h.bindFields c (h.fields c) kwargs with
    | .error e => .error e
    | .ok (attrs, []) => .ok attrs
    | .ok (_, (extra, _) :: _) => .error (.unexpectedArgument c.name extra)
  else .error (.notRecord c.name)

/-- A new instance of a record class, from keyword arguments. -/
def construct (h : Hierarchy) (c : ClassRef) (kwargs : Args) : Eval Value := do
  let attrs ← h.recordAttrs c kwargs
  return .object (← freshIdent) c attrs

end Hierarchy

namespace Method

/-- Binds the parameters that are given in order, an omitted one to its default.  Also gives the
arguments that are left over. -/
def bindParams (callee : String) : List Param → Args → Args → Except Failure (Args × Args)
  | [], bound, kwargs => .ok (bound, kwargs)
  | p :: rest, bound, kwargs =>
    match Keyed.get? kwargs p.name, p.default with
    | some value, _ =>
      bindParams callee rest (Keyed.put bound p.name value) (Keyed.erase kwargs p.name)
    | none, some default => bindParams callee rest (Keyed.put bound p.name default) kwargs
    | none, none => .error (.missingArgument callee p.name)

/-- The arguments a method is run with: one for each parameter, in the order of the parameters. -/
def bind (m : Method) (kwargs : Args) : Except Failure Args :=
  match bindParams m.name m.params [] kwargs with
  | .error e => .error e
  | .ok (bound, []) => .ok bound
  | .ok (_, (extra, _) :: _) => .error (.unexpectedArgument m.name extra)

end Method

namespace World

/-- How deep the evaluation of properties may be nested. -/
def maxCalls : Nat := 1000000

/-- Reads an attribute: the object's own, then the nearest member of its class, a property being
run.  `fuel` bounds the nesting of properties. -/
def readAttr (world : World) : Nat → Value → String → Eval Value
  | 0, _, _ => throw .callsTooDeep
  | fuel + 1, receiver, name =>
    match receiver with
    | .object _ c attrs =>
      match Keyed.get? attrs name with
      | some value => pure value
      | none =>
        match world.hierarchy.lookup c name with
        | some (.value value) => pure value
        | some (.property p) =>
          p.body.eval ⟨world.labels, world.readAttr fuel, world.hierarchy.construct⟩ receiver []
        | some (.method _) => throw (.methodAsAttribute c.name name)
        | none => throw (.noAttribute c.name name)
    | other => throw (.noAttribute other.classRef.name name)

/-- Reads an attribute. -/
def getAttr (world : World) (receiver : Value) (name : String) : Eval Value :=
  world.readAttr maxCalls receiver name

/-- What bodies can use of a world. -/
def scope (world : World) : BodyScope :=
  ⟨world.labels, world.getAttr, world.hierarchy.construct⟩

/-- Runs a property. -/
def getProperty (world : World) (p : Property) (receiver : Value) : Eval Value :=
  p.body.eval world.scope receiver []

/-- Calls a method with keyword arguments. -/
def callMethod (world : World) (m : Method) (receiver : Value) (kwargs : Args) : Eval Value := do
  let bound ← m.bind kwargs
  m.body.eval world.scope receiver bound

end World

end HintSchema
