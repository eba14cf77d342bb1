import HintSchema.Schema.Node

/-!
# Translating resolved hints

A `Graph` grows while resolved hints are translated: it holds the nodes made so far, and remembers
under the key of each translated type what it became, so that a type met again is the same node.  A
registered scalar has one node, even where its class is met under two keys.
`translate` makes named nodes without their parts, which is what lets types refer to themselves.
The graph keeps what was translated before a failure.
-/

namespace HintSchema

/-- What a schema is built from. -/
structure BuildEnv where
  hierarchy : Hierarchy
  ns : Namespace
  scalars : ScalarRegistry

/-- The types made so far. -/
structure Graph where
  nodes : Array Node := #[]
  /-- What the types translated so far became, the latest first. -/
  memo : List (TypeKey × TypeRef) := []
  /-- The nodes of the registered scalars met so far, by the ids of their classes. -/
  scalarNodes : List (Nat × NodeRef) := []
  /-- The ids of the classes whose subclasses have been included. -/
  crawled : List Nat := []

/-- A step of a build: it may fail, and the graph keeps what it has made. -/
abbrev Build := ExceptT SchemaError (StateM Graph)

/-- The node of a scalar. -/
def ScalarType.node (s : ScalarType) : Node := ⟨s.name, s.description, .scalar s.hooks⟩

namespace Graph

/-- What is remembered under a key. -/
def remembered (key : TypeKey) : List (TypeKey × TypeRef) → Option TypeRef
  | [] => none
  | (k, t) :: rest => if k = key then some t else remembered key rest

/-- What a type became, if it was translated before. -/
def cached (g : Graph) (ann : ResolvedHint) : Option TypeRef := remembered ann.key g.memo

/-- The node of the scalar that is registered for a class, if it was met before. -/
def scalarNode? (g : Graph) (c : ClassRef) : Option NodeRef :=
  (g.scalarNodes.find? fun (id, _) => id == c.id).map Prod.snd

/-- Adds a node. -/
def add (node : Node) : Build NodeRef :=
  fun g => (.ok (node.refAt g.nodes.size), { g with nodes := g.nodes.push node })

/-- Adds the node of the scalar that is registered for a class. -/
def addScalar (c : ClassRef) (s : ScalarType) : Build NodeRef := do
  let n ← add s.node
  modify fun g => { g with scalarNodes := (c.id, n) :: g.scalarNodes }
  return n

/-- Remembers what a type became. -/
def remember (key : TypeKey) (t : TypeRef) : Build Unit :=
  modify fun g => { g with memo := (key, t) :: g.memo }

end Graph

/-- Whether a text is a letter or underscore followed by letters, digits and underscores, all of
ASCII. -/
def isIdentifier : List Char → Bool
  | [] => false
  | c :: rest => (c.isAlpha || c == '_') && rest.all fun d => d.isAlphanum || d == '_'

/-- The name of a union: the text it was written as, which must be an identifier, perhaps in
quotes. -/
def unionName (ann : ResolvedHint) : Except SchemaError String :=
  let unnamed : SchemaError :=
    .unnamedUnion (", ".intercalate (TypeExpr.texts ann.head.resolved.args)) ann.head.origin
  match ann.name? with
  | none => .error unnamed
  | some name =>
    let bare := Text.unquote name.toList
    if isIdentifier bare then .ok (String.ofList bare) else .error unnamed

/-- How the description of a union calls a member. -/
def memberLabel : ResolvedHint → String
  | .cls _ c => c.name
  | ann => ann.head.resolved.text

namespace BuildEnv

/-- The node of a class without its parts: of two or more capabilities the first of object,
interface, record and enumeration decides, and a class without any has none. -/
def classNode (env : BuildEnv) (c : ClassRef) : Option Node :=
  let described (body : NodeBody) : Node :=
    { name := c.name, description := (env.hierarchy.find? c).bind (·.doc), body }
  if env.hierarchy.isObject c then some (described (.object c none none))
  else if env.hierarchy.isInterface c then some (described (.interface c none))
  else if env.hierarchy.isRecord c then some (described (.input c none))
  else if env.hierarchy.isEnum c then some (described (.enum c (env.hierarchy.variants c)))
  else none

/-- The node of a registered scalar, which is made when it is met first. -/
def mapScalar (c : ClassRef) (s : ScalarType) : Build TypeRef := do
  match (← get).scalarNode? c with
  | some n => return .named n
  | none => return .named (← Graph.addScalar c s)

/-- Makes the node of a class; a class without a capability needs a scalar. -/
def mapClass (env : BuildEnv) (ann : ResolvedHint) (c : ClassRef) : Build TypeRef :=
  match env.classNode c with
  | some node => do return .named (← Graph.add node)
  | none =>
    match env.scalars.lookup c with
    | some s => mapScalar c s
    | none => throw (.untranslatable c.name ann.head.origin)

/-- The node of a union without its members. -/
def unionNode (name : String) (members : List ResolvedHint) : Node where
  name
  description := some ("One of: " ++ ", ".intercalate (members.map memberLabel) ++ ".")
  body := .union members none

/-- Makes the node of a union, which must have a name. -/
def mapUnion (ann : ResolvedHint) (members : List ResolvedHint) : Build TypeRef := do
  let name ← unionName ann
  return .named (← Graph.add (unionNode name members))

/-- The scalar below an alias, if the alias is one of a class with a scalar. -/
def aliasedScalar (env : BuildEnv) : ResolvedHint → Option ScalarType
  | .cls _ c => env.scalars.lookup c
  | _ => none

/-- The name of an alias. -/
def aliasName (ann : ResolvedHint) : String :=
  match ann.head.resolved with
  | .aliasOf _ name _ => name
  | other => other.text

/-- The node of an alias of a class with a scalar. -/
def aliasNode (ann : ResolvedHint) (s : ScalarType) : Node :=
  ⟨aliasName ann, none, .scalar s.hooks⟩

/-- What a type became before, or what it becomes now.  A union met again needs a name here too. -/
def memoized (ann : ResolvedHint) (make : Build TypeRef) : Build TypeRef := do
  match (← get).cached ann with
  | some t =>
    match ann with
    | .union .. =>
      let _ ← unionName ann
      return t
    | _ => return t
  | none =>
    let t ← make
    Graph.remember ann.key t
    return t

/-- Translates a resolved hint.  All types are non-null but those of optional hints.  An alias of
a class with a scalar is a scalar of its own with the name of the alias; any other alias is as if it
were not there. -/
def translate (env : BuildEnv) (ann : ResolvedHint) : Build TypeRef :=
  match ann with
  | .list h element =>
    memoized (.list h element) do return .nonNull (.list (← env.translate element))
  | .optional h inner =>
    memoized (.optional h inner) do return (← env.translate inner).nullable
  | .union h members =>
    memoized (.union h members) do return .nonNull (← mapUnion (.union h members) members)
  | .aliasOf h base =>
    memoized (.aliasOf h base) do
      match env.aliasedScalar base with
      | some s => return .nonNull (.named (← Graph.add (aliasNode (.aliasOf h base) s)))
      | none => return .nonNull (← env.translate base).nullable
  | .cls h c =>
    memoized (.cls h c) do return .nonNull (← env.mapClass (.cls h c) c)

/-- Translates a resolved hint and takes an outer layer of non-null off. -/
def translateNullable (env : BuildEnv) (ann : ResolvedHint) : Build TypeRef := do
  return (← env.translate ann).nullable

/-- Translates a class that no hint mentions. -/
def translateClass (env : BuildEnv) (c : ClassRef) : Build TypeRef :=
  env.translateNullable (.ofClass c none)

end BuildEnv

end HintSchema
