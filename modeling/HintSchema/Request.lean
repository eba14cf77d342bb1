import HintSchema.Request.Argument

/-!
# Requests

A `Request` selects fields from a root of a schema, with arguments that may mention variables.  It
travels as the text of a document, which `Request.text` writes with the names and types just as they
were given.  An `Operation` is what such a document says, and it is what runs.
-/

namespace HintSchema

/-- What is selected from a type: fields with arguments and, for a composite type, a selection of
their own, or a selection under the condition that the type is the one named. -/
inductive Selection
  | field (key name : String) (args : List (String × ArgLiteral)) (selections : List Selection)
  | fragment (type : Option String) (selections : List Selection)

/-- The roots of a schema. -/
inductive OperationKind
  | query
  | mutation
  deriving DecidableEq, Repr

def OperationKind.text : OperationKind → String
  | .query => "query"
  | .mutation => "mutation"

/-- A variable of a request: its type is the text that was given for it. -/
structure Variable where
  name : String
  type : String
  value : Wire

/-- A request. -/
structure Request where
  kind : OperationKind
  vars : List Variable
  selections : List Selection

/-- A type as a document writes it. -/
inductive VarType
  | named (name : String)
  | list (inner : VarType)
  | nonNull (inner : VarType)
  deriving DecidableEq, Repr

/-- A variable as a document declares it. -/
structure VariableDef where
  name : String
  type : VarType
  default : Option Literal

/-- What a document asks for. -/
structure Operation where
  kind : OperationKind
  vars : List VariableDef
  selections : List Selection

namespace Selection

/-- The arguments of a field in parentheses, if it has any. -/
def argsText (args : List (String × ArgLiteral)) : String :=
  if args.isEmpty then "" else "(" ++ ", ".intercalate (ArgLiteral.entryTexts args) ++ ")"

mutual

/-- The text of a selection; a key that is the name of its field is left out. -/
def text : Selection → String
  | .field key name args selections =>
    (if key = name then name else key ++ ": " ++ name) ++ argsText args ++
    (if selections.isEmpty then "" else " \x7b " ++ " ".intercalate (texts selections) ++ " \x7d")
  | .fragment type selections =>
    "... " ++
    (match type with
      | some name => "on " ++ name ++ " "
      | none => "") ++
    "\x7b " ++ " ".intercalate (texts selections) ++ " \x7d"

/-- The texts of the selections of a list. -/
def texts : List Selection → List String
  | [] => []
  | x :: rest => x.text :: texts rest

end

mutual

/-- The variables that the arguments of the fields mention.  The type name is a field whose
arguments and selections nothing depends on, so they do not count. -/
def varNames : Selection → List String
  | .field _ name args selections =>
    if name = "__typename" then [] else ArgLiteral.entryVarNames args ++ varNamesAll selections
  | .fragment _ selections => varNamesAll selections

/-- The variables that the selections of a list mention. -/
def varNamesAll : List Selection → List String
  | [] => []
  | x :: rest => x.varNames ++ varNamesAll rest

end

mutual

/-- How many sets of selections are nested in one another below a selection. -/
def nesting : Selection → Nat
  | .field _ _ _ selections | .fragment _ selections =>
    if selections.isEmpty then 0 else nestingAll selections + 1

/-- How many sets of selections are nested in one another below a set. -/
def nestingAll : List Selection → Nat
  | [] => 0
  | x :: rest => max x.nesting (nestingAll rest)

end

end Selection

namespace Request

/-- The declaration of the variables in parentheses, if there are any. -/
def varsText (vars : List Variable) : String :=
  if vars.isEmpty then ""
  else "(" ++ ", ".intercalate (vars.map fun v => "$" ++ v.name ++ ": " ++ v.type) ++ ")"

/-- The document of a request. -/
def text (r : Request) : String :=
  r.kind.text ++ " " ++ varsText r.vars ++ " \x7b " ++
  " ".intercalate (Selection.texts r.selections) ++ " \x7d"

/-- The values of the variables by their names. -/
def values (r : Request) : List (String × Wire) := r.vars.map fun v => (v.name, v.value)

end Request

/-- The literals that the variables of an operation stand for: the value that is given, or else the
default, or else null. -/
def Operation.bindings (op : Operation) (values : List (String × Wire)) :
    List (String × Literal) :=
  op.vars.map fun v =>
    (v.name, ((Keyed.get? values v.name).map Wire.toLiteral).getD (v.default.getD .null))

end HintSchema
