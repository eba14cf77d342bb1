import HintSchema.Failure
import HintSchema.Value

/-!
# Bodies of members

Properties and methods compute their value by a `Body`, a small expression over the receiver and the
bound arguments.  A `Blueprint` is a value written down with labels of declarations in place of
classes and values; `Blueprint.build` makes the value, with new identities, from what the labels
stand for at that time.
-/

namespace HintSchema

/-- A value written down. -/
inductive Blueprint
  | null
  | bool (b : Bool)
  | int (n : Int64)
  | float (x : Binary64)
  | str (s : String)
  | list (items : List Blueprint)
  /-- A new instance of the class with this label. -/
  | object (label : String) (attrs : List (String × Blueprint))
  | enum (label name : String)
  | sealed (label : String) (payload : Payload)
  /-- The declared value with this label. -/
  | declared (label : String)

/-- What the labels of declarations stand for. -/
structure Labels where
  classes : List (String × ClassRef) := []
  values : List (String × Value) := []

namespace Labels

def classOf (labels : Labels) (label : String) : Eval ClassRef :=
  match Keyed.get? labels.classes label with
  | some c => pure c
  | none => throw (.unknownLabel label)

def valueOf (labels : Labels) (label : String) : Eval Value :=
  match Keyed.get? labels.values label with
  | some v => pure v
  | none => throw (.unknownLabel label)

end Labels

namespace Blueprint

mutual

/-- Makes the value that is written down. -/
def build (labels : Labels) : Blueprint → Eval Value
  | .null => pure .null
  | .bool b => pure (.bool b)
  | .int n => pure (.int n)
  | .float x => pure (.float x)
  | .str s => pure (.str s)
  | .list items => do return .list (← buildAll labels items)
  | .object label attrs => do
    let c ← labels.classOf label
    let values ← buildAttrs labels attrs
    return .object (← freshIdent) c (Keyed.ofList values)
  | .enum label name => do return .enum (← labels.classOf label) name
  | .sealed label payload => do
    let c ← labels.classOf label
    return .sealed (← freshIdent) c payload
  | .declared label => labels.valueOf label

/-- Makes the values of a list. -/
def buildAll (labels : Labels) : List Blueprint → Eval (List Value)
  | [] => pure []
  | b :: rest => do
    let v ← b.build labels
    return v :: (← buildAll labels rest)

/-- Makes the attributes of an object. -/
def buildAttrs (labels : Labels) : List (String × Blueprint) → Eval (List (String × Value))
  | [] => pure []
  | (name, b) :: rest => do
    let v ← b.build labels
    return (name, v) :: (← buildAttrs labels rest)

end

end Blueprint

/-- How a member computes its value. -/
inductive Body
  | const (b : Blueprint)
  /-- The receiver. -/
  | self
  /-- A bound argument, which must be there. -/
  | arg (name : String)
  /-- A bound argument, or the absent value. -/
  | optArg (name : String)
  | attr (of : Body) (name : String)
  /-- A failure with its contexts, the outermost first. -/
  | fail (context : List String)
  /-- The text that shows a value. -/
  | shown (of : Body)
  /-- The name of the class of a value. -/
  | className (of : Body)
  | list (items : List Body)
  /-- All bound arguments, each as a list of its name and its value. -/
  | args
  | new (label : String) (attrs : List (String × Body))
  | construct (label : String) (kwargs : List (String × Body))
  /-- The body of the first case equal to a value. -/
  | select (of : Body) (cases : List (Blueprint × Body)) (otherwise : Body)
  /-- The same for each item of a list. -/
  | selectEach (of : Body) (cases : List (Blueprint × Body)) (otherwise : Body)

/-- Bound arguments, in order. -/
abbrev Args := List (String × Value)

namespace Args

/-- An argument that must be there. -/
def require (args : Args) (name : String) : Except Failure Value :=
  match Keyed.get? args name with
  | some v => .ok v
  | none => .error (.argumentAbsent name)

end Args

/-- What a body can do with the world around it: read an attribute of a value, and construct a
record of a class from keyword arguments. -/
structure BodyScope where
  labels : Labels
  read : Value → String → Eval Value
  construct : ClassRef → Args → Eval Value

namespace Body

variable (scope : BodyScope) (receiver : Value) (args : Args)

mutual

/-- The value of a body. -/
def eval : Body → Eval Value
  | .const b => b.build scope.labels
  | .self => pure receiver
  | .arg name => args.require name
  | .optArg name => pure ((Keyed.get? args name).getD .null)
  | .attr of name => do
    let v ← eval of
    scope.read v name
  | .fail context => throw (.raised context)
  | .shown of => do return .str (← eval of).shown
  | .className of => do return .str (← eval of).classRef.name
  | .list items => do return .list (← evalAll items)
  | .args => pure (.list (args.map fun (name, v) => .list [.str name, v]))
  | .new label attrs => do
    let c ← scope.labels.classOf label
    let values ← evalEntries attrs
    return .object (← freshIdent) c (Keyed.ofList values)
  | .construct label kwargs => do
    let c ← scope.labels.classOf label
    let values ← evalEntries kwargs
    scope.construct c (Keyed.ofList values)
  | .select of cases otherwise => do
    let v ← eval of
    evalCase cases (eval otherwise) v
  | .selectEach of cases otherwise => do
    match ← eval of with
    | .list items => return .list (← items.mapM (evalCase cases (eval otherwise)))
    | _ => return .list []

/-- The values of a list of bodies. -/
def evalAll : List Body → Eval (List Value)
  | [] => pure []
  | b :: rest => do
    let v ← eval b
    return v :: (← evalAll rest)

/-- The values of named bodies. -/
def evalEntries : List (String × Body) → Eval (List (String × Value))
  | [] => pure []
  | (name, b) :: rest => do
    let v ← eval b
    return (name, v) :: (← evalEntries rest)

/-- The value of the first case equal to a value, or the one for all others. -/
def evalCase : List (Blueprint × Body) → Eval Value → Value → Eval Value
  | [], otherwise, _ => otherwise
  | (pattern, b) :: rest, otherwise, v => do
    let expected ← pattern.build scope.labels
    if v.equal expected then eval b else evalCase rest otherwise v

end

end Body

end HintSchema
