import HintSchema.Schema.Coercion
import HintSchema.Schema.Conformance

/-!
# Schema documents

`Schema.document` writes an executable schema in the schema definition language: the registered
types in the order of their names, each behind its description and followed by an empty line, then
the directives and the roots.  Types under names that are kept for introspection are not written.
-/

namespace HintSchema

namespace Schema

/-- A description between lines of quotes, every line of it indented. -/
def describe (indent : List Char) : Option String → List Char
  | none => []
  | some text =>
    let mark := indent ++ ['"', '"', '"', '\n']
    let body := text.toList.flatMap fun c => if c = '\n' then '\n' :: indent else [c]
    mark ++ indent ++ body ++ ['\n'] ++ mark

/-- An argument with its type and its default. -/
def argText (s : Schema) (a : ArgumentDef) : String :=
  a.name ++ ": " ++ a.type.text ++
    match s.shownDefault a with
    | some l => " = " ++ l.text
    | none => ""

/-- The line of an output field, behind its description. -/
def fieldText (s : Schema) (f : FieldDef) : String :=
  let args :=
    if f.args.isEmpty then ""
    else "(" ++ ", ".intercalate (f.args.map fun (_, a) => s.argText a) ++ ")"
  String.ofList (describe ['\t'] f.description) ++ "\t" ++ f.name ++ args ++ ": " ++
    f.type.text ++ "\n"

/-- The head of a type and its lines between braces. -/
def blockText (head : String) (lines : List String) : String :=
  head ++ " \x7b\n" ++ String.join lines ++ "\x7d\n"

/-- The definition of a type, behind its description. -/
def typeText (s : Schema) (n : NodeRef) : String :=
  let description := (s.node? n).bind (·.description)
  let definition :=
    match s.body n with
    | .object _ fields interfaces =>
      let names := (interfaces.getD []).map NodeRef.name
      let clause := if names.isEmpty then "" else " implements " ++ " & ".intercalate names
      blockText ("type " ++ n.name ++ clause) ((fields.getD []).map fun (_, f) => s.fieldText f)
    | .interface _ fields =>
      blockText ("interface " ++ n.name) ((fields.getD []).map fun (_, f) => s.fieldText f)
    | .input _ fields =>
      blockText ("input " ++ n.name)
        ((fields.getD []).map fun (name, t) => "\t" ++ name ++ ": " ++ t.text ++ "\n")
    | .enum _ values =>
      blockText ("enum " ++ n.name) (values.map fun (name, _) => "\t" ++ name ++ "\n")
    | .scalar _ => "scalar " ++ n.name ++ "\n"
    | .union _ members =>
      let names := ((members.getD []).map NodeRef.name).eraseDups
      "union " ++ n.name ++ " = " ++ " | ".intercalate names ++ "\n"
  String.ofList (describe [] description) ++ definition ++ "\n"

/-- The directives that every schema has. -/
def directivesText : String :=
  "\"\"\"\n" ++
  "Directs the executor to include this field or fragment only when the `if` argument is true.\n" ++
  "\"\"\"\n" ++
  "directive @include(if: Boolean!) on FIELD | FRAGMENT_SPREAD | INLINE_FRAGMENT\n" ++
  "\"\"\"\n" ++
  "Directs the executor to skip this field or fragment when the `if` argument is true.\n" ++
  "\"\"\"\n" ++
  "directive @skip(if: Boolean!) on FIELD | FRAGMENT_SPREAD | INLINE_FRAGMENT\n"

/-- The roots of a schema. -/
def rootsText (s : Schema) : String :=
  let mutation :=
    match s.mutation with
    | some m => ["\tmutation: " ++ m.name ++ "\n"]
    | none => []
  blockText "schema" (("\tquery: " ++ s.query.name ++ "\n") :: mutation)

/-- The document of a schema. -/
def documentText (s : Schema) : String :=
  let written := s.registered.filter fun n => !isReserved n.name
  let types := Keyed.sorted (written.map fun n => (n.name, n))
  String.join (types.map fun (_, n) => s.typeText n) ++ directivesText ++ s.rootsText

/-- The document of a schema that can be executed. -/
def document (s : Schema) : Except SchemaError String :=
  s.executable.map documentText

end Schema

end HintSchema
