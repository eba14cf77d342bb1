import HintSchema.Schema.Graph

/-!
# Realizing nodes

A node made by translation lacks the parts that refer to other types.  `realize` fills them in,
which may make further nodes; `realizeAll` goes on, round by round, until no node lacks a part.  The
order in which a round visits its nodes is a parameter, `visit`.
-/

namespace HintSchema

namespace Graph

/-- The ids of the nodes that lack a part, in the order in which they were made. -/
def pending (g : Graph) : List Nat :=
  (List.range g.nodes.size).filter fun id => (g.nodes[id]?).any fun n => !n.isRealized

/-- Puts another body in place of that of a node. -/
def setBody (id : Nat) (body : NodeBody) : Build Unit :=
  modify fun g => { g with nodes := g.nodes.modify id fun n => { n with body } }

end Graph

namespace BuildEnv

/-- An argument with its type translated. -/
def mapArg (env : BuildEnv) (a : ResolvedParam) : Build (String × ArgumentDef) := do
  let type ← env.translate a.hint
  return (a.name, { name := a.name, type, default := a.default })

/-- A field with its types translated, its own before those of its arguments. -/
def mapField (env : BuildEnv) (f : FieldDescriptor) : Build (String × FieldDef) := do
  let type ← env.translate f.hint
  let args ← f.args.mapM env.mapArg
  return (f.name,
    { name := f.name, description := f.description, type, args := Keyed.ofList args,
      source := f.source, resolver := f.resolver })

/-- The output fields of a class. -/
def mapFields (env : BuildEnv) (c : ClassRef) : Build (List (String × FieldDef)) := do
  let descriptors ← describeFields env.hierarchy env.ns c
  return Keyed.ofList (← descriptors.mapM env.mapField)

/-- A field of an input type, which must have a hint. -/
def mapInputField (env : BuildEnv) (c : ClassRef) (hints : List (String × ResolvedHint))
    (name : String) : Build (String × TypeRef) :=
  match Keyed.get? hints name with
  | some ann => do return (name, ← env.translate ann)
  | none => throw (.missingFieldHint c.name name)

/-- The fields of an input type: the record fields of its class. -/
def mapInputFields (env : BuildEnv) (c : ClassRef) : Build (List (String × TypeRef)) := do
  let hints ← resolveHints env.hierarchy env.ns c
  (env.hierarchy.fields c).mapM (env.mapInputField c hints)

/-- The interfaces of an object type: the ancestors of its class that are interfaces and no
objects. -/
def mapInterfaces (env : BuildEnv) (c : ClassRef) : Build (List NodeRef) :=
  let h := env.hierarchy
  ((h.mro c).tail.filter fun a => h.isInterface a && !h.isObject a).filterMapM fun a => do
    match ← env.translateClass a with
    | .named n => return if n.kind = .interface then some n else none
    | _ => return none

/-- A member of a union, which must be an object type. -/
def mapMember (env : BuildEnv) (union : String) (ann : ResolvedHint) : Build NodeRef := do
  let t ← env.translateNullable ann
  match t with
  | .named n => if n.kind = .object then return n else throw (.invalidUnionMember union t.text)
  | _ => throw (.invalidUnionMember union t.text)

/-- Fills in the parts a node lacks. -/
def realize (env : BuildEnv) (id : Nat) : Build Unit := do
  match (← get).nodes[id]? with
  | none => return
  | some node =>
    match node.body with
    | .object c fields interfaces =>
      let fields ← fields.getDM (env.mapFields c)
      Graph.setBody id (.object c (some fields) interfaces)
      let interfaces ← interfaces.getDM (env.mapInterfaces c)
      Graph.setBody id (.object c (some fields) (some interfaces))
    | .interface c none => Graph.setBody id (.interface c (some (← env.mapFields c)))
    | .input c none => Graph.setBody id (.input c (some (← env.mapInputFields c)))
    | .union declared none =>
      let members ← declared.mapM (env.mapMember node.name)
      Graph.setBody id (.union declared (some members))
    | _ => return

/-- Realizes nodes round by round until none lacks a part, for at most as many rounds as there is
fuel. -/
def realizeRounds (env : BuildEnv) (visit : List Nat → List Nat) : Nat → Build Unit
  | 0 => return
  | fuel + 1 => do
    let pending := (← get).pending
    if pending.isEmpty then return
    else
      (visit pending).forM env.realize
      env.realizeRounds visit fuel

/-- Realizes all nodes.  Of two rounds in a row at least one realizes the node of a class, and each
class has one node, so the rounds come to an end before the fuel does. -/
def realizeAll (env : BuildEnv) (visit : List Nat → List Nat) : Build Unit :=
  env.realizeRounds visit (2 * env.hierarchy.defs.length + 2)

/-- The classes of object and interface types that are interfaces and whose subclasses are not
included yet, in the order of their declaration. -/
def uncrawled (env : BuildEnv) (g : Graph) : List ClassRef :=
  let classes := g.nodes.toList.filterMap fun n =>
    match n.body with
    | .object c _ _ | .interface c _ => some c
    | _ => none
  let waiting := classes.filter fun c => env.hierarchy.isInterface c && !(c.id ∈ g.crawled)
  waiting.foldr insertById []
where
  /-- Puts a class in front of the first one that was declared later. -/
  insertById (c : ClassRef) : List ClassRef → List ClassRef
    | [] => [c]
    | d :: rest => if c.id ≤ d.id then c :: d :: rest else d :: insertById c rest

/-- Includes a class and lists its type with the ones included before, once. -/
def includeClass (env : BuildEnv) (extra : List NodeRef) (c : ClassRef) : Build (List NodeRef) := do
  match ← env.translateClass c with
  | .named n => return if extra.any (·.id == n.id) then extra else extra ++ [n]
  | _ => return extra

/-- Includes the direct subclasses of a class. -/
def crawl (env : BuildEnv) (extra : List NodeRef) (c : ClassRef) : Build (List NodeRef) := do
  modify fun g => { g with crawled := c.id :: g.crawled }
  (env.hierarchy.subclasses c).foldlM env.includeClass extra

/-- Includes the subclasses of all interfaces met, round by round, for at most as many rounds as
there is fuel. -/
def discoverRounds (env : BuildEnv) (visit : List Nat → List Nat) :
    Nat → List NodeRef → Build (List NodeRef)
  | 0, extra => return extra
  | fuel + 1, extra => do
    let pending := env.uncrawled (← get)
    if pending.isEmpty then return extra
    else
      let extra ← pending.foldlM env.crawl extra
      env.realizeAll visit
      env.discoverRounds visit fuel extra

/-- The types of the subclasses of all interfaces met.  Each round includes the subclasses of a
further class, so the rounds come to an end before the fuel does. -/
def discoverImplementers (env : BuildEnv) (visit : List Nat → List Nat) : Build (List NodeRef) :=
  env.discoverRounds visit (env.hierarchy.defs.length + 1) []

end BuildEnv

end HintSchema
