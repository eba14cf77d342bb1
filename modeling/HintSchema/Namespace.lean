import HintSchema.Hint.Grammar
import HintSchema.Keyed
import HintSchema.TypeExpr

/-!
# Namespaces

A `Namespace` binds names to hints, and `Namespace.eval` evaluates a hint to a type.  A name stands
for its binding; an unbound name goes by its last dotted segment to the built-in types.  Quoted text
is evaluated in turn.  Each step through a binding or a quote goes one level deeper, and a binding
met more than `maxDepth` levels deep is taken for one that refers to itself.
-/

namespace HintSchema

/-- Names and the hints they stand for. -/
structure Namespace where
  bindings : List (String × Hint) := []

/-- What the head of a subscript builds from its arguments. -/
inductive SubscriptHead
  | optional
  | union
  | generic (kind : GenericKind)
  deriving DecidableEq, Repr

/-- The heads that take type arguments, by name. -/
def SubscriptHead.ofName? (name : String) : Option SubscriptHead :=
  if name = "Optional" then some .optional
  else if name = "Union" then some .union
  else if name ∈ ["List", "list", "Sequence"] then some (.generic .list)
  else if name = "Iterable" then some (.generic .iterable)
  else if name = "Iterator" then some (.generic .iterator)
  else if name ∈ ["Dict", "dict", "Set", "set", "FrozenSet", "Tuple", "tuple"] then
    some (.generic (.other name))
  else none

/-- The built-in types, by name. -/
def TypeExpr.builtin? (name : String) : Option TypeExpr :=
  if name = "int" then some (.cls .int)
  else if name = "float" then some (.cls .float)
  else if name = "str" then some (.cls .str)
  else if name = "bool" then some (.cls .bool)
  else if name = "None" || name = "NoneType" then some .noneType
  else if name = "ID" then some .identifier
  else if name = "list" then some (.cls .list)
  else none

/-- The part of a dotted name behind its last dot. -/
def lastSegment (name : String) : String :=
  String.ofList (name.toList.reverse.takeWhile (· != '.')).reverse

namespace HintTerm

/-- What a name denotes that has no binding. -/
def evalUnbound (name : String) : Except SchemaError TypeExpr :=
  let segment := lastSegment name
  match TypeExpr.builtin? segment with
  | some type => .ok type
  | none =>
    match SubscriptHead.ofName? segment with
    | some _ => .error (.malformed name (.argumentNeeded segment) none)
    | none => .error (.unknownName name none)

/-- What a subscript denotes once its arguments are evaluated; `term` is its printed form. -/
def evalSubscript (term head : String) (args : List TypeExpr) : Except SchemaError TypeExpr :=
  match SubscriptHead.ofName? (lastSegment head) with
  | some .optional =>
    match args with
    | [inner] => .ok (.optional inner)
    | _ => .error (.malformed term (.optionalArity args.length) none)
  | some .union => .ok (.unionOf args)
  | some (.generic kind) => .ok (.generic kind args)
  | none => .error (.malformed term (.notGeneric head) none)

variable (bound : String → Option (Except SchemaError TypeExpr))
  (quoted : String → Except SchemaError TypeExpr)

mutual

/-- Evaluates a term, given what bound names and quoted texts denote. -/
def eval : HintTerm → Except SchemaError TypeExpr
  | .name n => (bound n).getD (evalUnbound n)
  | .quoted source => quoted source
  | .subscript head args => do
    let types ← evalAll args
    evalSubscript (text (.subscript head args)) head types

/-- Evaluates the terms of a list, the first failure winning. -/
def evalAll : List HintTerm → Except SchemaError (List TypeExpr)
  | [] => .ok []
  | term :: rest => do
    let type ← eval term
    let types ← evalAll rest
    .ok (type :: types)

end

end HintTerm

namespace Namespace

/-- Bindings deeper than this are taken for ones that refer to themselves. -/
def maxDepth : Nat := 32

/-- Binds a name to a hint, in place of an earlier binding. -/
def bind (ns : Namespace) (name : String) (hint : Hint) : Namespace :=
  ⟨Keyed.put ns.bindings name hint⟩

/-- Binds the name of a class to it. -/
def addClass (ns : Namespace) (c : ClassRef) : Namespace := ns.bind c.name (.expr (.cls c))

def get? (ns : Namespace) (name : String) : Option Hint := Keyed.get? ns.bindings name

/-- How a bound name is evaluated at a given depth; `none` for a name without a binding. -/
abbrev Lookup := Nat → String → Option (Except SchemaError TypeExpr)

/-- Evaluates a text at a given depth.  A quoted part is shorter than the text it stands in, and
`fuel` bounds their nesting. -/
def evalText (lookup : Lookup) : Nat → Nat → String → Except SchemaError TypeExpr
  | 0, _, source => .error (.malformed source .unexpectedEnd none)
  | fuel + 1, depth, source =>
    match HintTerm.parse source with
    | .error reason => .error (.malformed source reason none)
    | .ok term => term.eval (lookup depth) (evalText lookup fuel (depth + 1))

/-- Evaluates a text at a given depth, however deep its quotes are nested. -/
def evalSource (lookup : Lookup) (depth : Nat) (source : String) : Except SchemaError TypeExpr :=
  evalText lookup (source.toList.length + 1) depth source

mutual

/-- Resolves the references in a type at a given depth. -/
def evalExpr (lookup : Lookup) (depth : Nat) : TypeExpr → Except SchemaError TypeExpr
  | .forward source => evalSource lookup (depth + 1) source
  | .union members => do
    let types ← evalExprs lookup depth members
    .ok (.unionOf types)
  | .generic kind args => do
    let types ← evalExprs lookup depth args
    .ok (.generic kind types)
  | .cls c => .ok (.cls c)
  | .noneType => .ok .noneType
  | .aliasOf id name supertype => .ok (.aliasOf id name supertype)

/-- Resolves the references in the types of a list, the first failure winning. -/
def evalExprs (lookup : Lookup) (depth : Nat) : List TypeExpr → Except SchemaError (List TypeExpr)
  | [] => .ok []
  | e :: rest => do
    let type ← evalExpr lookup depth e
    let types ← evalExprs lookup depth rest
    .ok (type :: types)

end

/-- Evaluates a hint at a given depth.  Each binding passed takes one step of fuel and goes at
least one level deeper, so with as many steps as levels are left, running out of fuel is being
too deep. -/
def evalHint (ns : Namespace) : Nat → Nat → Hint → Except SchemaError TypeExpr
  | 0, _, hint => .error (.malformed hint.shown .recursiveAlias none)
  | fuel + 1, depth, hint =>
    if maxDepth < depth then .error (.malformed hint.shown .recursiveAlias none)
    else
      let lookup : Lookup := fun d name => (ns.get? name).map (ns.evalHint fuel (d + 1))
      match hint with
      | .text source => evalSource lookup depth source
      | .expr type => evalExpr lookup depth type

/-- Evaluates a hint to a type without references that are not resolved, those inside the supertypes
of aliases apart. -/
def eval (ns : Namespace) (hint : Hint) : Except SchemaError TypeExpr :=
  ns.evalHint (maxDepth + 1) 0 hint

end Namespace

end HintSchema
