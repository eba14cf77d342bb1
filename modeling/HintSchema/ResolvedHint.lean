import HintSchema.Hint.Unwrap
import HintSchema.Namespace

/-!
# Resolved hints

A `ResolvedHint` is a resolved type as the schema sees it: classes, lists, named unions and aliases,
with every absence made an `optional` layer of its own.  Each node keeps the hint it was written as,
which only names unions, and the place of its declaration, which only locates errors.
`ResolvedHint.ofExpr` builds the tree of a type.
-/

namespace HintSchema

/-- What every node of a resolved hint carries. -/
structure ResolvedHead where
  /-- The hint as written, as far as it can be told. -/
  raw : Option Hint
  resolved : TypeExpr
  origin : Option Origin
  deriving Repr

/-- A resolved type with the hints it was written as. -/
inductive ResolvedHint
  | cls (head : ResolvedHead) (c : ClassRef)
  | list (head : ResolvedHead) (element : ResolvedHint)
  | optional (head : ResolvedHead) (inner : ResolvedHint)
  | union (head : ResolvedHead) (members : List ResolvedHint)
  /-- An alias over the type at the end of its chain of supertypes. -/
  | aliasOf (head : ResolvedHead) (base : ResolvedHint)
  deriving Repr

namespace ResolvedHint

def head : ResolvedHint → ResolvedHead
  | .cls h _ | .list h _ | .optional h _ | .union h _ | .aliasOf h _ => h

/-- The identity under which the type is remembered. -/
def key (ann : ResolvedHint) : TypeKey := ann.head.resolved.key

/-- The trimmed text of the hint, when it is text. -/
def name? (ann : ResolvedHint) : Option String :=
  (ann.head.raw.bind Hint.text?).map Text.trimmed

/-- The resolved hint of a class that no hint mentions. -/
def ofClass (c : ClassRef) (origin : Option Origin) : ResolvedHint := .cls ⟨none, .cls c, origin⟩ c

/-- What is below an alias. -/
def belowAlias : ResolvedHint → ResolvedHint
  | .aliasOf _ base => base
  | ann => ann

/-- The hints of the `count` members of a union other than the absent value: for a single member the
hint with a layer taken off, otherwise the hints of the members as far as their number agrees. -/
def rawsOfMembers (raw : Option Hint) (count : Nat) : List (Option Hint) :=
  if count = 1 then [Hint.unwrap? raw]
  else
    match raw.bind Hint.memberHints with
    | some hints =>
      if hints.length = count then hints.map some else List.replicate count none
    | none => List.replicate count none

/-- The only member of a union, or a node over its members. -/
def overMembers (head : ResolvedHead) : List ResolvedHint → ResolvedHint
  | [only] => only
  | members => .union head members

mutual

/-- The resolved hint of a type.  The hint as written and the place take no part in the result but
for being carried along. -/
def ofExpr (raw : Option Hint) (origin : Option Origin) : TypeExpr → Except SchemaError ResolvedHint
  | .union members => do
    let present := members.filter (!·.isNone)
    if present.isEmpty then
      .error (.malformed (TypeExpr.union members).text .emptyUnion origin)
    else
      let isOptional := members.any TypeExpr.isNone
      let inners ← ofMembers (rawsOfMembers raw present.length) origin members
      let unionRaw := if isOptional then Hint.unwrap? raw else raw
      let inner := overMembers ⟨unionRaw, .union present, origin⟩ inners
      .ok (if isOptional then .optional ⟨raw, .union members, origin⟩ inner else inner)
  | .aliasOf id name supertype => do
    let base ← ofExpr none origin supertype
    .ok (.aliasOf ⟨raw, .aliasOf id name supertype, origin⟩
      (if supertype.isAlias then base.belowAlias else base))
  | .generic kind args =>
    let type : TypeExpr := .generic kind args
    if kind.isSequence then
      match args with
      | [element] => do
        let inner ← ofExpr (Hint.unwrap? raw) origin element
        .ok (.list ⟨raw, type, origin⟩ inner)
      | [] => .error (.malformed type.text .emptySequence origin)
      | _ => .error (.ambiguousSequence type.text origin)
    else .error (.malformed type.text .unsupportedGeneric origin)
  | .cls c => .ok (.cls ⟨raw, .cls c, origin⟩ c)
  | .noneType => .ok (.cls ⟨raw, .noneType, origin⟩ .noneType)
  | .forward source =>
    .error (.malformed (TypeExpr.forward source).text .unresolvedForward origin)

/-- The members of a union other than the absent value, each with its own hint. -/
def ofMembers (raws : List (Option Hint)) (origin : Option Origin) :
    List TypeExpr → Except SchemaError (List ResolvedHint)
  | [] => .ok []
  | member :: rest => do
    if member.isNone then ofMembers raws origin rest
    else
      let ann ← ofExpr raws.head?.join origin member
      let anns ← ofMembers raws.tail origin rest
      .ok (ann :: anns)

end

/-- A hint resolved in a namespace, errors being located at the place of its declaration. -/
def ofHint (ns : Namespace) (hint : Hint) (origin : Origin) : Except SchemaError ResolvedHint :=
  match ns.eval hint with
  | .error e => .error (e.locatedAt origin)
  | .ok type => ofExpr (some hint) (some origin) type

end ResolvedHint

end HintSchema
