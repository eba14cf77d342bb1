import HintSchema.Request
import HintSchema.Request.Lexeme

/-!
# Reading requests

```text
operation := kind ( '(' variable* ')' )? set
variable  := '$' NAME ':' type ( '=' literal )?
type      := ( NAME | '[' type ']' ) '!'?
set       := '{' selection* '}'
selection := ( NAME ':' )? NAME ( '(' argument+ ')' )? set?
           | '...' ( 'on' NAME )? set
argument  := NAME ':' literal
literal   := '$' NAME | NUMBER | STRING | 'true' | 'false' | 'null' | NAME
           | '[' literal* ']' | '{' ( NAME ':' literal )* '}'
```

Between any two lexemes there may be ignored text, but not within a type.  A literal that begins
like `true`, `false` or `null` is that literal, whatever follows; the default of a variable mentions
no variables; every set but the outermost has a selection.  `Operation.ofText?` reads a document.
The readers before it read from the front of a text and return what follows, without the ignored
text in front.  Readers of parts that repeat or contain each other consume a step of fuel with each
call; they get two for every character of the text and two more, which is always enough.
-/

namespace HintSchema

open Lexeme

namespace Lexeme

/-- Reads a given character and the ignored text behind it. -/
def readMark (mark : Char) : List Char → Option (List Char)
  | [] => none
  | c :: rest => if c = mark then some (skipIgnored rest) else none

/-- Reads a name and the ignored text behind it. -/
def readToken (cs : List Char) : Option (String × List Char) :=
  (readName cs).map fun (name, rest) => (name, skipIgnored rest)

/-- Reads a name and the colon behind it. -/
def readLabel (cs : List Char) : Option (String × List Char) := do
  let (name, rest) ← readToken cs
  return (name, ← readMark ':' rest)

end Lexeme

namespace Literal

/-- The words that are literals of their own. -/
def words : List (List Char × Literal) :=
  [("true".toList, .bool true), ("false".toList, .bool false), ("null".toList, .null)]

/-- Reads a literal without parts: a word of its own, a name, a string or a number. -/
def readLeaf (cs : List Char) : Option (Literal × List Char) :=
  match words.findSome? fun (word, l) => (readWord word cs).map (l, ·) with
  | some found => some found
  | none =>
    match cs with
    | '"' :: rest => (readString rest).map fun (xs, after) => (.str (String.ofList xs), after)
    | _ =>
      ((readName cs).map fun (name, rest) => (Literal.enum name, rest)).or
        ((readNumber cs).map fun (n, rest) => (Literal.number n, rest))

end Literal

namespace ArgLiteral

mutual

/-- Reads a literal. -/
def readParts : Nat → List Char → Option (ArgLiteral × List Char)
  | 0, _ => none
  | _ + 1, [] => none
  | fuel + 1, c :: rest =>
    if c = '$' then (readToken (skipIgnored rest)).map fun (name, after) => (.var name, after)
    else if c = '[' then
      (readItems fuel (skipIgnored rest)).map fun (items, after) => (.list items, after)
    else if c = '\x7b' then
      (readEntries fuel (skipIgnored rest)).map fun (entries, after) =>
        (.object (Keyed.ofList entries), after)
    else (Literal.readLeaf (c :: rest)).map fun (l, after) => (.literal l, skipIgnored after)

/-- Reads the items of a list up to the closing bracket. -/
def readItems : Nat → List Char → Option (List ArgLiteral × List Char)
  | 0, _ => none
  | fuel + 1, cs =>
    match readMark ']' cs with
    | some rest => some ([], rest)
    | none => do
      let (item, more) ← readParts fuel cs
      let (items, rest) ← readItems fuel more
      return (item :: items, rest)

/-- Reads the entries of an object up to the closing brace. -/
def readEntries : Nat → List Char → Option (List (String × ArgLiteral) × List Char)
  | 0, _ => none
  | fuel + 1, cs =>
    match readMark '\x7d' cs with
    | some rest => some ([], rest)
    | none => do
      let (key, afterKey) ← readLabel cs
      let (value, more) ← readParts fuel afterKey
      let (entries, rest) ← readEntries fuel more
      return ((key, value) :: entries, rest)

end

/-- Reads a literal. -/
def readLiteral (cs : List Char) : Option (ArgLiteral × List Char) :=
  readParts (2 * cs.length + 2) cs

end ArgLiteral

/-- Reads a type, within which nothing is ignored. -/
def VarType.read : List Char → Option (VarType × List Char)
  | '[' :: inside => do
    let (inner, after) ← VarType.read inside
    match after with
    | ']' :: '!' :: rest => return (.nonNull (.list inner), rest)
    | ']' :: rest => return (.list inner, rest)
    | _ => none
  | cs => do
    let (name, after) ← readName cs
    match after with
    | '!' :: rest => return (.nonNull (.named name), rest)
    | rest => return (.named name, rest)

namespace VariableDef

/-- Reads the declaration of a variable. -/
def read (cs : List Char) : Option (VariableDef × List Char) := do
  let (name, afterName) ← readLabel (← readMark '$' cs)
  let (type, afterType) ← VarType.read afterName
  match readMark '=' (skipIgnored afterType) with
  | none => return (⟨name, type, none⟩, skipIgnored afterType)
  | some afterMark => do
    let (value, rest) ← ArgLiteral.readLiteral afterMark
    return (⟨name, type, some (← value.bindVars [])⟩, rest)

/-- Reads declarations up to the closing parenthesis. -/
def readAll : Nat → List Char → Option (List VariableDef × List Char)
  | 0, _ => none
  | fuel + 1, cs =>
    match readMark ')' cs with
    | some rest => some ([], rest)
    | none => do
      let (v, more) ← VariableDef.read cs
      let (vs, rest) ← readAll fuel more
      return (v :: vs, rest)

/-- Reads the declarations in parentheses, if there are any. -/
def readList (cs : List Char) : Option (List VariableDef × List Char) :=
  match readMark '(' cs with
  | none => some ([], cs)
  | some inside => readAll (2 * cs.length + 2) inside

end VariableDef

namespace Selection

/-- Reads arguments up to the closing parenthesis. -/
def readArgsFrom : Nat → List Char → Option (List (String × ArgLiteral) × List Char)
  | 0, _ => none
  | fuel + 1, cs =>
    match readMark ')' cs with
    | some rest => some ([], rest)
    | none => do
      let (name, afterName) ← readLabel cs
      let (value, more) ← ArgLiteral.readLiteral afterName
      let (args, rest) ← readArgsFrom fuel more
      return ((name, value) :: args, rest)

/-- Reads the arguments of a field in parentheses, if there are any. -/
def readArgs (cs : List Char) : Option (List (String × ArgLiteral) × List Char) :=
  match readMark '(' cs with
  | none => some ([], cs)
  | some inside => do
    let (args, rest) ← readArgsFrom (2 * cs.length + 2) inside
    if args.isEmpty then none else return (args, rest)

/-- Reads the key and the name of a field. -/
def readKeyAndName (cs : List Char) : Option ((String × String) × List Char) := do
  let (first, afterFirst) ← readToken cs
  match readMark ':' afterFirst with
  | none => return ((first, first), afterFirst)
  | some afterMark => do
    let (name, rest) ← readToken afterMark
    return ((first, name), rest)

/-- Reads the condition of a fragment, if there is one. -/
def readCondition (cs : List Char) : Option String × List Char :=
  match (readWord ['o', 'n'] cs).bind fun rest => readToken (skipIgnored rest) with
  | some (name, rest) => (some name, rest)
  | none => (none, cs)

mutual

/-- Reads a selection. -/
def readOne : Nat → List Char → Option (Selection × List Char)
  | 0, _ => none
  | fuel + 1, cs =>
    match readWord ['.', '.', '.'] cs with
    | some afterDots => do
      let (type, afterType) := readCondition (skipIgnored afterDots)
      let (selections, rest) ← readInner fuel (← readMark '\x7b' afterType)
      return (.fragment type selections, rest)
    | none => do
      let ((key, name), afterName) ← readKeyAndName cs
      let (args, afterArgs) ← readArgs afterName
      match readMark '\x7b' afterArgs with
      | none => return (.field key name args [], afterArgs)
      | some inside => do
        let (selections, rest) ← readInner fuel inside
        return (.field key name args selections, rest)

/-- Reads at least one selection and the closing brace. -/
def readInner : Nat → List Char → Option (List Selection × List Char)
  | 0, _ => none
  | fuel + 1, cs => do
    let (x, more) ← readOne fuel cs
    match readMark '\x7d' more with
    | some rest => return ([x], rest)
    | none => do
      let (xs, rest) ← readInner fuel more
      return (x :: xs, rest)

end

/-- Reads a set of selections in braces, which may be empty. -/
def readSet (cs : List Char) : Option (List Selection × List Char) := do
  let inside ← readMark '\x7b' cs
  match readMark '\x7d' inside with
  | some rest => return ([], rest)
  | none => readInner (2 * cs.length + 2) inside

end Selection

namespace Operation

/-- Reads the kind of an operation. -/
def readKind (cs : List Char) : Option (OperationKind × List Char) :=
  [OperationKind.query, .mutation].findSome? fun kind =>
    (readWord kind.text.toList cs).map fun rest => (kind, skipIgnored rest)

/-- Reads a document. -/
def ofText? (text : String) : Option Operation := do
  let (kind, afterKind) ← readKind (skipIgnored text.toList)
  let (vars, afterVars) ← VariableDef.readList afterKind
  let (selections, rest) ← Selection.readSet afterVars
  if rest.isEmpty then return { kind, vars, selections } else none

end Operation

/-- What the document of a request asks for. -/
def Request.operation? (r : Request) : Option Operation := Operation.ofText? r.text

end HintSchema
