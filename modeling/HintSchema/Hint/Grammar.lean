import HintSchema.SchemaError
import HintSchema.Text.Blank

/-!
# The grammar of textual hints

```text
term := NAME ( '[' term ( ',' term )* ']' )?
      | '\'' text '\''
      | '"' text '"'
```

A `NAME` is a letter or underscore followed by letters, digits, underscores and dots, all of ASCII.
Blanks may stand around every token.  `HintTerm.parse` reads a whole text; `readTerm` and
`readTerms` read from the front of one and return what follows, without its leading blanks.  Each
call consumes a step of fuel, and `parse` supplies two for every character and two more, which is
always enough.
-/

namespace HintSchema

open Text

/-- A textual hint, taken apart. -/
inductive HintTerm
  | name (name : String)
  /-- A reference by quoted text, trimmed. -/
  | quoted (text : String)
  | subscript (head : String) (args : List HintTerm)
  deriving Repr

namespace HintTerm

def isNameStart (c : Char) : Bool := c.isAlpha || c == '_'

def isNameChar (c : Char) : Bool := c.isAlphanum || c == '_' || c == '.'

def isQuote (c : Char) : Bool := c == '\'' || c == '"'

mutual

/-- Reads one term. -/
def readTerm : Nat → List Char → Except Malformation (HintTerm × List Char)
  | 0, _ => .error .unexpectedEnd
  | fuel + 1, cs =>
    match trimLeft cs with
    | [] => .error .unexpectedEnd
    | c :: rest =>
      if isQuote c then
        match rest.dropWhile (· != c) with
        | [] => .error .unterminatedString
        | _ :: after =>
          .ok (.quoted (String.ofList (trim (rest.takeWhile (· != c)))), trimLeft after)
      else if isNameStart c then
        let name := String.ofList ((c :: rest).takeWhile isNameChar)
        match trimLeft ((c :: rest).dropWhile isNameChar) with
        | '[' :: inside => do
          let (args, after) ← readTerms fuel inside
          .ok (.subscript name args, after)
        | after => .ok (.name name, after)
      else .error (.unexpected (String.singleton c))

/-- Reads the terms of a subscript up to the closing bracket. -/
def readTerms : Nat → List Char → Except Malformation (List HintTerm × List Char)
  | 0, _ => .error .unexpectedEnd
  | fuel + 1, cs => do
    let (arg, after) ← readTerm fuel cs
    match after with
    | ',' :: more =>
      let (args, rest) ← readTerms fuel more
      .ok (arg :: args, rest)
    | ']' :: more => .ok ([arg], trimLeft more)
    | _ => .error .bracketExpected

end

/-- Reads a whole text as one term. -/
def parse (source : String) : Except Malformation HintTerm := do
  let cs := source.toList
  let (term, rest) ← readTerm (2 * cs.length + 2) cs
  if rest.isEmpty then .ok term else .error (.unexpected (String.ofList rest))

mutual

/-- The printed form. -/
def text : HintTerm → String
  | .name n => n
  | .quoted source => "'" ++ source ++ "'"
  | .subscript head args => head ++ "[" ++ ", ".intercalate (texts args) ++ "]"

/-- The printed forms of the terms of a list. -/
def texts : List HintTerm → List String
  | [] => []
  | term :: rest => term.text :: texts rest

end

end HintTerm

end HintSchema
