import HintSchema.Request
import HintSchema.Schema.Coercion
import HintSchema.Schema.Conformance

/-!
# Checking operations

`Schema.allows` says whether an operation can be run: the fields it selects exist, arguments are
known, complete and valid for their types, fragments can apply, fields of one key agree, sets of
selections are not nested too deep, and variables are declared once, have types of input, and are
used.  Where a variable stands only its value has to be valid, whatever its type.
-/

namespace HintSchema

namespace Selection

/-- A field of a set of selections, with the type that the innermost fragment around it names. -/
structure Placed where
  condition : Option String
  key : String
  name : String
  args : List (String × ArgLiteral)

mutual

/-- The fields of a selection, those in fragments included. -/
def placed (condition : Option String) : Selection → List Placed
  | .field key name args _ => [⟨condition, key, name, args⟩]
  | .fragment type selections => placedAll type selections

/-- The fields of the selections of a list. -/
def placedAll (condition : Option String) : List Selection → List Placed
  | [] => []
  | x :: rest => x.placed condition ++ placedAll condition rest

end

/-- Whether two fields differ in key or condition, or else have the same name and equal
arguments. -/
def Placed.agrees (f g : Placed) : Bool :=
  f.condition != g.condition || f.key != g.key ||
    (f.name == g.name && f.args.length == g.args.length &&
      ArgLiteral.sameEntries f.args g.args)

/-- Whether every two fields of a list agree. -/
def allAgree : List Placed → Bool
  | [] => true
  | f :: rest => rest.all f.agrees && allAgree rest

mutual

/-- Whether in each set of selections below a selection all fields agree. -/
def setsAgree : Selection → Bool
  | .field _ name _ selections =>
    name = "__typename" || (allAgree (placedAll none selections) && setsAgreeAll selections)
  | .fragment _ selections => allAgree (placedAll none selections) && setsAgreeAll selections

/-- `setsAgree` for all selections of a list. -/
def setsAgreeAll : List Selection → Bool
  | [] => true
  | x :: rest => x.setsAgree && setsAgreeAll rest

end

end Selection

namespace Schema

/-- Whether a literal other than null is valid for a named type. -/
def validLeaf (s : Schema) (n : NodeRef) (literal : Literal) : Bool :=
  if n.name = "Int" then
    match literal with
    | .number num => num.toInt64?.isSome
    | _ => false
  else if n.name = "Float" then
    match literal with
    | .number _ => true
    | _ => false
  else if n.name = "String" then
    match literal with
    | .str _ => true
    | _ => false
  else if n.name = "Boolean" then
    match literal with
    | .bool _ => true
    | _ => false
  else if n.name = "ID" then
    match literal with
    | .str _ => true
    | .number num => num.toInt64?.isSome
    | _ => false
  else
    match s.body n, literal with
    | .scalar hooks, _ => hooks.accepts literal
    | .enum _ values, .enum name | .enum _ values, .str name => Keyed.contains values name
    | .enum .., _ => false
    | _, _ => true

mutual

/-- Whether a literal is valid for a type. -/
def valid (s : Schema) : Literal → TypeRef → Bool
  | .null, t => !t.isNonNull
  | .list items, t =>
    match t.strip with
    | .list inner => validAll s items inner
    | other => s.validLeaf other.node (.list items)
  | .object entries, t =>
    match s.body t.node with
    | .input _ fields =>
      let fields := fields.getD []
      entries.all (fun (key, _) => Keyed.contains fields key) &&
        fields.all fun (name, type) =>
          match validEntry s entries name type with
          | some ok => ok
          | none => !type.isNonNull
    | _ => s.validLeaf t.node (.object entries)
  | .bool b, t => s.validLeaf t.node (.bool b)
  | .number n, t => s.validLeaf t.node (.number n)
  | .str x, t => s.validLeaf t.node (.str x)
  | .enum name, t => s.validLeaf t.node (.enum name)
  | .binary bytes, t => s.validLeaf t.node (.binary bytes)

/-- Whether all items of a list are valid for a type. -/
def validAll (s : Schema) : List Literal → TypeRef → Bool
  | [], _ => true
  | item :: rest, t => valid s item t && validAll s rest t

/-- Whether the entry with a name is valid for a type, if there is one. -/
def validEntry (s : Schema) : List (String × Literal) → String → TypeRef → Option Bool
  | [], _, _ => none
  | (key, literal) :: rest, name, t =>
    if key = name then some (valid s literal t) else validEntry s rest name t

end

/-- Whether an argument of a field is known, and valid with the values of variables. -/
def argAllowed (s : Schema) (values : List (String × Literal))
    (declared : List (String × ArgumentDef)) (name : String) (arg : ArgLiteral) : Bool :=
  match Keyed.get? declared name, arg.bindVars values with
  | some a, some l => s.valid l a.type
  | _, _ => false

/-- Whether the arguments of a field can be given: each is given once and allowed, and a non-null
one without a default is not left out. -/
def argsAllowed (s : Schema) (values : List (String × Literal))
    (declared : List (String × ArgumentDef)) (args : List (String × ArgLiteral)) : Bool :=
  decide (Keyed.keys args).Nodup &&
    args.all (fun (name, arg) => s.argAllowed values declared name arg) &&
    declared.all fun (name, a) =>
      !a.type.isNonNull || (s.shownDefault a).isSome || Keyed.contains args name

/-- The object types a composite type can be. -/
def objectsOf (s : Schema) (n : NodeRef) : List NodeRef :=
  s.types.filter fun m =>
    match s.body m with
    | .object _ _ interfaces =>
      m.id == n.id || (interfaces.getD []).any (·.id == n.id) ||
        (s.body n).members.any (·.id == m.id)
    | _ => false

/-- Whether a fragment on a type can apply to values of a composite type. -/
def canApply (s : Schema) (n m : NodeRef) : Bool :=
  m.kind.isComposite && (m.id == n.id || (s.objectsOf n).any fun o => (s.objectsOf m).contains o)

mutual

/-- Whether a selection can be made from a composite type.  The type name can always be selected,
whatever comes with it. -/
def selectionAllowed (s : Schema) (values : List (String × Literal)) (n : NodeRef) :
    Selection → Bool
  | .field _ name args selections =>
    if name = "__typename" then true
    else
      match Keyed.get? (s.body n).fields name with
      | none => false
      | some f =>
        let inner := f.type.node
        s.argsAllowed values f.args args && (inner.kind.isComposite != selections.isEmpty) &&
          selectionsAllowed s values inner selections
  | .fragment none selections => selectionsAllowed s values n selections
  | .fragment (some type) selections =>
    match s.type? type with
    | none => false
    | some m => s.canApply n m && selectionsAllowed s values m selections

/-- Whether all selections of a list can be made from a composite type. -/
def selectionsAllowed (s : Schema) (values : List (String × Literal)) (n : NodeRef) :
    List Selection → Bool
  | [] => true
  | x :: rest => selectionAllowed s values n x && selectionsAllowed s values n rest

end

/-- The root type of an operation. -/
def root? (s : Schema) : OperationKind → Option NodeRef
  | .query => some s.query
  | .mutation => s.mutation

/-- The names of the types for variables that every schema has: its scalars, and the enumerations
that introspection uses. -/
def builtinInputs : List String := builtinScalars ++ ["__TypeKind", "__DirectiveLocation"]

/-- The named type that a variable has under all layers, if variables can have it: one of the
schema, or one that every schema has. -/
def inputNode? (s : Schema) (name : String) : Option NodeRef :=
  match s.type? name with
  | some n => if n.kind.isInput then some n else none
  | none => if builtinInputs.contains name then some ⟨s.nodes.size, .scalar, name⟩ else none

/-- The type of a variable, if variables can have it. -/
def inputType? (s : Schema) : VarType → Option TypeRef
  | .named name => (s.inputNode? name).map .named
  | .list inner => (s.inputType? inner).map .list
  | .nonNull inner => (s.inputType? inner).map .nonNull

/-- Whether a variable can be declared: variables can have its type, and a default, which no
non-null type can have, is valid for it. -/
def varAllowed (s : Schema) (v : VariableDef) : Bool :=
  match s.inputType? v.type, v.default with
  | none, _ => false
  | some _, none => true
  | some t, some l => !t.isNonNull && s.valid l t

/-- Whether the variables of an operation can be declared, each once, and all are used. -/
def varsAllowed (s : Schema) (op : Operation) : Bool :=
  decide (op.vars.map VariableDef.name).Nodup &&
    op.vars.all fun v =>
      s.varAllowed v && (Selection.varNamesAll op.selections).contains v.name

/-- How deep sets of selections may be nested in the outermost one. -/
def maxNesting : Nat := 32

/-- Whether an operation can be run with the values of its variables. -/
def allows (s : Schema) (values : List (String × Literal)) (op : Operation) : Bool :=
  decide (Selection.nestingAll op.selections ≤ maxNesting) && s.varsAllowed op &&
    Selection.allAgree (Selection.placedAll none op.selections) &&
    Selection.setsAgreeAll op.selections &&
    match s.root? op.kind with
    | some root => s.selectionsAllowed values root op.selections
    | none => false

end Schema

end HintSchema
