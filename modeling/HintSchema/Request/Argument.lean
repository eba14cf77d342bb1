import HintSchema.Keyed
import HintSchema.Wire

/-!
# Arguments of a request

An `ArgLiteral` is a literal that may mention variables.  `ArgLiteral.text` writes it,
`ArgLiteral.bindVars` puts values in place of the variables, and `ArgLiteral.same` compares two: the
order of an object's entries does not count.
-/

namespace HintSchema

/-- A literal that may mention variables. -/
inductive ArgLiteral
  | literal (l : Literal)
  | var (name : String)
  | list (items : List ArgLiteral)
  | object (entries : List (String × ArgLiteral))

/-- Equality of numbers: an integer never equals a floating point number, and the two zeros of the
latter are equal. -/
def Number.same : Number → Number → Bool
  | .int m _ _, .int n _ _ => m == n
  | .float x _, .float y _ => x.numEq y
  | _, _ => false

/-- Equality of literals without parts. -/
def Literal.sameLeaf : Literal → Literal → Bool
  | .null, .null => true
  | .bool a, .bool b => a == b
  | .number m, .number n => m.same n
  | .str a, .str b | .enum a, .enum b => a == b
  | _, _ => false

namespace ArgLiteral

mutual

/-- The text of a literal, a variable being its name behind a dollar sign. -/
def text : ArgLiteral → String
  | .literal l => l.text
  | .var name => "$" ++ name
  | .list items => "[" ++ ", ".intercalate (itemTexts items) ++ "]"
  | .object entries => "\x7b" ++ ", ".intercalate (entryTexts entries) ++ "\x7d"

/-- The texts of the items of a list. -/
def itemTexts : List ArgLiteral → List String
  | [] => []
  | item :: rest => item.text :: itemTexts rest

/-- The texts of named literals. -/
def entryTexts : List (String × ArgLiteral) → List String
  | [] => []
  | (key, value) :: rest => (key ++ ": " ++ value.text) :: entryTexts rest

end

mutual

/-- The variables a literal mentions. -/
def varNames : ArgLiteral → List String
  | .literal _ => []
  | .var name => [name]
  | .list items => itemVarNames items
  | .object entries => entryVarNames entries

/-- The variables the items of a list mention. -/
def itemVarNames : List ArgLiteral → List String
  | [] => []
  | item :: rest => item.varNames ++ itemVarNames rest

/-- The variables named literals mention. -/
def entryVarNames : List (String × ArgLiteral) → List String
  | [] => []
  | (_, value) :: rest => value.varNames ++ entryVarNames rest

end

mutual

/-- Whether two literals are equal; an object's entries may come in any order. -/
def same : ArgLiteral → ArgLiteral → Bool
  | .literal l, .literal m => l.sameLeaf m
  | .var name, .var other => name == other
  | .list items, .list others => sameItems items others
  | .object entries, .object others =>
    entries.length == others.length && sameEntries entries others
  | _, _ => false

/-- Whether two lists have equal items. -/
def sameItems : List ArgLiteral → List ArgLiteral → Bool
  | [], [] => true
  | item :: rest, other :: others => item.same other && sameItems rest others
  | _, _ => false

/-- Whether each named literal has an equal one under its name. -/
def sameEntries : List (String × ArgLiteral) → List (String × ArgLiteral) → Bool
  | [], _ => true
  | (key, value) :: rest, others =>
    (match Keyed.get? others key with
      | some other => value.same other
      | none => false) && sameEntries rest others

end

mutual

/-- The literal with values in place of the variables; none for a variable without a value. -/
def bindVars (values : List (String × Literal)) : ArgLiteral → Option Literal
  | .literal l => some l
  | .var name => Keyed.get? values name
  | .list items => (bindItems values items).map .list
  | .object entries => (bindEntries values entries).map .object

/-- `bindVars` on each item. -/
def bindItems (values : List (String × Literal)) : List ArgLiteral → Option (List Literal)
  | [] => some []
  | item :: rest => do return (← item.bindVars values) :: (← bindItems values rest)

/-- `bindVars` on each named literal. -/
def bindEntries (values : List (String × Literal)) :
    List (String × ArgLiteral) → Option (List (String × Literal))
  | [] => some []
  | (key, value) :: rest => do return (key, ← value.bindVars values) :: (← bindEntries values rest)

end

/-- The arguments of a field with values in place of the variables; one that mentions a variable
without a value is left out. -/
def bindArgs (values : List (String × Literal)) (args : List (String × ArgLiteral)) :
    List (String × Literal) :=
  args.filterMap fun (name, arg) => (arg.bindVars values).map (name, ·)

end ArgLiteral

end HintSchema
