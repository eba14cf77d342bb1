import HintSchema.Hint.Grammar
import HintSchema.TypeExpr

/-!
# Taking a layer off a hint

A union is named by the text it was declared with, so the text of a hint is followed inwards beside
its type: `Hint.unwrap?` takes one subscript off a hint, and `Hint.memberHints` splits the hint of a
union into those of its members.  Nothing here stops a build; a hint that cannot be taken apart only
means that the inner type has no text.
-/

namespace HintSchema

open Text

namespace Text

/-- Trims a text and drops one layer of matching quotes around it. -/
def unquote (cs : List Char) : List Char :=
  match trim cs with
  | [] => []
  | q :: rest =>
    if HintTerm.isQuote q && rest.getLast? == some q then trim rest.dropLast else q :: rest

/-- The text between the first opening bracket behind a name and the closing bracket that ends the
text; blanks may stand around the name and at the end. -/
def bracketed? (cs : List Char) : Option (List Char) :=
  match trimLeft cs with
  | [] => none
  | c :: rest =>
    if HintTerm.isNameStart c then
      match trimLeft (rest.dropWhile HintTerm.isNameChar) with
      | '[' :: inside =>
        let body := trimRight inside
        if body.getLast? == some ']' && 1 < body.length then some body.dropLast else none
      | _ => none
    else none

/-- Where a scan for separating commas stands: how many brackets are open, and which quote. -/
structure Scan where
  depth : Nat := 0
  quote : Option Char := none

namespace Scan

/-- The state behind a character. -/
def step (s : Scan) (c : Char) : Scan :=
  match s.quote with
  | some q => if c = q then { s with quote := none } else s
  | none =>
    if HintTerm.isQuote c then { s with quote := some c }
    else if c = '[' then { s with depth := s.depth + 1 }
    else if c = ']' then { s with depth := s.depth - 1 }
    else s

/-- Whether a comma in this state separates. -/
def separates (s : Scan) (c : Char) : Bool := s.quote.isNone && s.depth == 0 && c == ','

end Scan

/-- The text up to the first separating comma, and the texts between the further ones. -/
def pieces (s : Scan) : List Char → List Char × List (List Char)
  | [] => ([], [])
  | c :: rest =>
    let (first, others) := pieces (s.step c) rest
    if s.separates c then ([], first :: others) else (c :: first, others)

/-- Splits a text at the commas outside of brackets and quotes, and trims the parts. -/
def splitTopLevel (cs : List Char) : List (List Char) :=
  let (first, others) := pieces {} cs
  (first :: others).map trim

/-- The texts of the members of a union, behind any number of one-argument subscripts.  Each layer
makes the text shorter, and `fuel` bounds their number. -/
def memberTexts : Nat → List Char → Option (List (List Char))
  | 0, _ => none
  | fuel + 1, cs =>
    match bracketed? cs with
    | none => none
    | some body =>
      let inner := unquote body
      let parts := splitTopLevel inner
      if 1 < parts.length then
        some ((parts.filter (· != ['N', 'o', 'n', 'e'])).map unquote)
      else memberTexts fuel inner

end Text

/-- Why a layer cannot be taken off a hint. -/
inductive UnwrapError
  | pattern (source : String)
  | union (type : String)
  | arity (count : Nat) (type : String)
  deriving DecidableEq, Repr

/-- The text of an error. -/
def UnwrapError.message : UnwrapError → String
  | .pattern source => "`" ++ source ++ "` does not look like `Name[...]`"
  | .union type => "cannot unwrap a union with several non-null members: " ++ type
  | .arity count type =>
    "expected a single type argument, got " ++ toString count ++ " in `" ++ type ++ "`"

namespace Hint

/-- Takes one subscript off a text. -/
def unwrapText (source : String) : Except UnwrapError String :=
  match bracketed? source.toList with
  | some body => .ok (String.ofList (unquote body))
  | none => .error (.pattern source)

/-- Takes one layer off a hint: a subscript off a text, the type of the absent value off a union, or
the head off a type with one argument. -/
def unwrap : Hint → Except UnwrapError Hint
  | .text source => (unwrapText source).map .text
  | .expr (.union members) =>
    match members.filter (!·.isNone) with
    | [only] => .ok (.ofExpr only)
    | _ => .error (.union (TypeExpr.union members).text)
  | .expr type =>
    match type.args with
    | [only] => .ok (.ofExpr only)
    | args => .error (.arity args.length type.text)

/-- The hint inside a hint, if it can be told. -/
def unwrap? (raw : Option Hint) : Option Hint := raw.bind fun hint => hint.unwrap.toOption

/-- The hints of the members of a union other than the absent value, if they can be told. -/
def memberHints : Hint → Option (List Hint)
  | .text source =>
    (memberTexts (source.toList.length + 1) source.toList).map fun parts =>
      parts.map fun part => .text (String.ofList part)
  | .expr (.union members) => some ((members.filter (!·.isNone)).map ofExpr)
  | .expr _ => none

end Hint

end HintSchema
