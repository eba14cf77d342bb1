import HintSchema.Request.Reading
import HintSchema.Request.Validation
import HintSchema.Schema.Output

/-!
# Running requests

`Schema.execute` reads the document of a request and runs the operation, if it is allowed.  The
fields of an object are run in the order of their selection; one that fails is left out and its
message is noted, and an object none of whose fields came out is null.
-/

namespace HintSchema

/-- What a run keeps beside its results: the next identity and the messages so far. -/
structure RunState where
  ident : Nat
  messages : List String := []

/-- A step of a run. -/
abbrev Run := StateM RunState

/-- A step of a run that may fail. -/
abbrev TryRun := ExceptT Failure Run

namespace Run

/-- Makes a value with the identities of the run. -/
def eval {α : Type} (x : Eval α) : TryRun α :=
  fun state =>
    match x state.ident with
    | .ok (a, next) => (.ok a, { state with ident := next })
    | .error e => (.error e, state)

/-- Notes the message of a failure. -/
def note (e : Failure) : Run Unit :=
  modify fun state => { state with messages := state.messages ++ [e.message] }

end Run

namespace Wire

mutual

/-- Two answers for one key in one: objects are joined entry by entry and lists item by item where
both items are objects, and of any others the first one stands. -/
def join : Wire → Wire → Wire
  | .object entries, .object more => .object (joinEntries entries more)
  | .list items, .list more => .list (joinItems items more)
  | w, _ => w

/-- Adds entries one after the other, each to the one of its key, or else at the end. -/
def joinEntries (entries : List (String × Wire)) : List (String × Wire) → List (String × Wire)
  | [] => entries
  | (key, w) :: rest =>
    match Keyed.get? entries key with
    | some v => joinEntries (Keyed.put entries key (v.join w)) rest
    | none => joinEntries (entries ++ [(key, w)]) rest

/-- Joins the objects at equal places. -/
def joinItems : List Wire → List Wire → List Wire
  | .object entries :: vs, .object more :: ws =>
    .object (joinEntries entries more) :: joinItems vs ws
  | v :: vs, _ :: ws => v :: joinItems vs ws
  | vs, _ => vs

end

/-- The fields of an object on the wire, those of one key joined; an object without any is null. -/
def ofFields (entries : List (String × Wire)) : Wire :=
  if entries.isEmpty then .null else .object (joinEntries [] entries)

end Wire

/-- A literal on the wire; one with a binary part, which no field gives, is null. -/
def Literal.onWire (l : Literal) : Wire := l.toWire.getD .null

namespace Schema

variable (world : World) (s : Schema)

/-- Whether a type is a root of the schema. -/
def isRoot (n : NodeRef) : Bool :=
  s.query.name == n.name || s.mutation.any fun m => m.name == n.name

/-- The value a field is read from: that of its object, or for a root without one the absent
value. -/
def receiver (n : NodeRef) (parent : Option Value) (field : String) : Except Failure Value :=
  match parent with
  | some value => .ok value
  | none => if s.isRoot n then .ok .null else .error (.parentNotNative n.name field)

/-- The arguments a field is run with: those of the request, or the defaults of the document,
coerced by their types; a nullable one without any default is absent. -/
def fieldArgs (args : List (String × Literal)) (declared : List (String × ArgumentDef)) :
    Eval Args :=
  declared.filterMapM fun (name, a) =>
    match (Keyed.get? args name).or (s.shownDefault a) with
    | some literal => do return some (name, ← s.coerceInput world literal a.type)
    | none =>
      return if a.default.isNone && !a.type.isNonNull then some (name, .null) else none

/-- Runs the resolver of a field. -/
def resolve (r : Resolver) (value : Value) (args : Args) : Eval Value :=
  match r with
  | .attribute name => world.getAttr value name
  | .method m => world.callMethod m value args

/-- The output of a field. -/
def resolveField (n : NodeRef) (parent : Option Value) (f : FieldDef)
    (args : List (String × Literal)) : Eval (Option Output) := do
  let value ← s.receiver n parent f.name
  let bound ← s.fieldArgs world args f.args
  let result ← resolve world f.resolver value bound
  s.toOutput world.hierarchy f.type result

/-- How the fields of an object type are read from a value. -/
abbrev ReadFields := NodeRef → Option Value → Run Wire

/-- Completes the output of a named type. -/
def completeNamed (fields : ReadFields) (n : NodeRef) (o : Output) : TryRun Wire :=
  match s.body n, o with
  | .scalar hooks, .literal l =>
    if isBuiltinScalar n || hooks.accepts l then pure l.onWire
    else throw (.scalarOutputInvalid n.name)
  | .scalar _, _ => throw (.scalarOutputInvalid n.name)
  | .enum _ values, .literal (.enum name) =>
    if Keyed.contains values name then pure (.str name) else throw (.enumItemInvalid n.name)
  | .enum .., _ => throw (.enumItemInvalid n.name)
  | .object .., .object value => fields n (some value)
  | .object .., _ => fields n none
  | .interface .., .typed value concrete => fields concrete (some value)
  | .interface .., _ => throw (.interfaceItemInvalid n.name)
  | .union .., .typed value concrete => fields concrete (some value)
  | .union .., _ => throw (.unionItemInvalid n.name)
  | .input .., _ => throw (.inputAsOutput n.name)

/-- Completes the output of a field by its type, the items of a list in order up to the first
failure. -/
def complete (fields : ReadFields) : TypeRef → Option Output → TryRun Wire
  | .nonNull _, none => throw .nullForNonNull
  | .nonNull t, some o => complete fields t (some o)
  | _, none => pure .null
  | .list t, some (.list items) => do
    return .list (← items.mapM fun o => complete fields t (some o))
  | .list _, some _ => throw .arrayExpected
  | .named n, some o => s.completeNamed fields n o

/-- Whether a fragment on a type applies to an object type. -/
def applies (n : NodeRef) : Option String → Bool
  | none => true
  | some type => n.name == type || (s.body n).interfaces.any fun i => i.name == type

mutual

/-- Runs a selection from an object type at a value. -/
def runSelection (values : List (String × Literal)) (n : NodeRef) (parent : Option Value) :
    Selection → Run (List (String × Wire))
  | .field key name args selections =>
    if name = "__typename" then pure [(key, .str n.name)]
    else
      match Keyed.get? (s.body n).fields name with
      | none => pure []
      | some f => do
        let readFields : ReadFields := fun m value =>
          return .ofFields (← runSelections values m value selections)
        let run : TryRun Wire := do
          let output ← Run.eval (s.resolveField world n parent f (ArgLiteral.bindArgs values args))
          s.complete readFields f.type output
        match ← run.run with
        | .ok w => return [(key, w)]
        | .error e => do
          Run.note e
          return []
  | .fragment type selections =>
    if s.applies n type then runSelections values n parent selections else pure []

/-- Runs the selections of a list in order. -/
def runSelections (values : List (String × Literal)) (n : NodeRef) (parent : Option Value) :
    List Selection → Run (List (String × Wire))
  | [] => pure []
  | x :: rest => do
    let first ← runSelection values n parent x
    return first ++ (← runSelections values n parent rest)

end

end Schema

/-- What comes of a request. -/
inductive Response
  /-- The request cannot be run. -/
  | rejected
  | answered (data : Wire) (messages : List String)

/-- Runs an operation on a root value, if it is allowed.  Also gives the next identity. -/
def Schema.run (world : World) (s : Schema) (ident : Nat) (root : Option Value)
    (values : List (String × Literal)) (op : Operation) : Response × Nat :=
  match s.root? op.kind with
  | some n =>
    if s.allows values op then
      let (entries, state) := (s.runSelections world values n root op.selections).run { ident }
      (.answered (.ofFields entries) state.messages, state.ident)
    else (.rejected, ident)
  | none => (.rejected, ident)

/-- Runs what the document of a request asks for, if it can be read. -/
def Schema.execute (world : World) (s : Schema) (ident : Nat) (root : Option Value)
    (r : Request) : Response × Nat :=
  match r.operation? with
  | some op => s.run world ident root (op.bindings r.values) op
  | none => (.rejected, ident)

end HintSchema
