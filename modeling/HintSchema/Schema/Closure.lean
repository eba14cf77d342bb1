import HintSchema.Schema.Realize

/-!
# Schemas

A `Schema` is a graph of realized types with its roots and its type map: all types that can be
reached from the roots and the included types, in the order of a walk that goes through a type's
references before it goes on, each under its own name.  `Schema.close` makes the type map and
refuses two types of one name; `BuildEnv.build` builds a schema from root classes.
-/

namespace HintSchema

/-- A finished schema. -/
structure Schema where
  nodes : Array Node
  query : NodeRef
  mutation : Option NodeRef
  /-- The types that were included as implementers of interfaces. -/
  extra : List NodeRef
  typeMap : List (String × NodeRef)

namespace Schema

/-- What a type of a graph mentions. -/
def referencesOf (nodes : Array Node) (n : NodeRef) : List NodeRef :=
  match nodes[n.id]? with
  | some node => node.body.references
  | none => []

/-- Walks the types on a stack and what they mention, adding each to the type map. -/
def walk (nodes : Array Node) :
    Nat → List NodeRef → List (String × NodeRef) → Except SchemaError (List (String × NodeRef))
  | 0, _, typeMap => .ok typeMap
  | _ + 1, [], typeMap => .ok typeMap
  | fuel + 1, n :: stack, typeMap =>
    match Keyed.get? typeMap n.name with
    | some seen =>
      if seen.id = n.id then walk nodes fuel stack typeMap
      else .error (.conflictingTypeName n.name)
    | none => walk nodes fuel (referencesOf nodes n ++ stack) (typeMap ++ [(n.name, n)])

/-- How many steps a walk can take: a type is taken off the stack at most once for each time that it
is mentioned, as a root or by another type. -/
def walkBound (nodes : Array Node) (roots : List NodeRef) : Nat :=
  roots.length + (nodes.toList.flatMap fun n => n.body.references).length + 1

/-- The schema of some types, with the types that can be reached from them. -/
def close (nodes : Array Node) (query : NodeRef) (mutation : Option NodeRef)
    (extra : List NodeRef) : Except SchemaError Schema := do
  let roots := query :: (mutation.toList ++ extra)
  let typeMap ← walk nodes (walkBound nodes roots) roots []
  return { nodes, query, mutation, extra, typeMap }

/-- The content of a named type. -/
def node? (s : Schema) (n : NodeRef) : Option Node := s.nodes[n.id]?

/-- The body of a named type; an empty union stands for one that is not there. -/
def body (s : Schema) (n : NodeRef) : NodeBody :=
  match s.node? n with
  | some node => node.body
  | none => .union [] none

/-- The named types in the order of the type map. -/
def types (s : Schema) : List NodeRef := Keyed.values s.typeMap

/-- The named type with a name. -/
def type? (s : Schema) (name : String) : Option NodeRef := Keyed.get? s.typeMap name

/-- The text that shows a schema. -/
def shown (s : Schema) : String :=
  let mutation :=
    match s.mutation with
    | some m => "Some(" ++ m.shown ++ ")"
    | none => "None"
  "Schema \x7b query: " ++ s.query.shown ++ ", mutation: " ++ mutation ++ ", types: [" ++
  ", ".intercalate (s.types.map NodeRef.shown) ++ "] \x7d"

end Schema

namespace BuildEnv

/-- Translates a root class, which must be an object type. -/
def translateRoot (env : BuildEnv) (role : String) (c : ClassRef) : Build NodeRef := do
  let t ← env.translateClass c
  match t with
  | .named n => if n.kind = .object then return n else throw (.invalidRoot role t.text)
  | _ => throw (.invalidRoot role t.text)

/-- Builds the schema of root classes; each round of realizing visits its nodes in the order that
`visit` gives them. -/
def buildVisiting (env : BuildEnv) (visit : List Nat → List Nat) (query : ClassRef)
    (mutation : Option ClassRef) : Build Schema := do
  let queryNode ← env.translateRoot "query" query
  let mutationNode ← mutation.mapM (env.translateRoot "mutation")
  env.realizeAll visit
  let extra ← env.discoverImplementers visit
  Schema.close (← get).nodes queryNode mutationNode extra

/-- Builds the schema of root classes in a graph. -/
def build (env : BuildEnv) (query : ClassRef) (mutation : Option ClassRef) : Build Schema :=
  env.buildVisiting id query mutation

/-- The schema of root classes. -/
def schema (env : BuildEnv) (query : ClassRef) (mutation : Option ClassRef) :
    Except SchemaError Schema :=
  ((env.build query mutation).run {}).1

end BuildEnv

end HintSchema
