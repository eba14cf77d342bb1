import HintSchema.Number.Reading
import HintSchema.Number

/-!
# Lexemes of a document

The smallest parts of the document of a request: names, numbers and strings.  Each reader here reads
from the front of a text and returns what follows.  Between lexemes blanks, commas, line ends and
comments are ignored; `skipIgnored` drops them.
-/

namespace HintSchema.Lexeme

/-- The characters that end a line. -/
def isLineEnd (c : Char) : Bool := c == '\n' || c == '\r'

/-- The characters that are ignored between lexemes, comments apart. -/
def isIgnored (c : Char) : Bool :=
  c == ' ' || c == ',' || c == '\t' || c == '\ufeff' || isLineEnd c

/-- Drops ignored characters; the flag says whether the text begins within a comment, which goes on
to the end of its line. -/
def skipFrom : Bool → List Char → List Char
  | _, [] => []
  | true, c :: rest => skipFrom (!isLineEnd c) rest
  | false, c :: rest =>
    if c = '#' then skipFrom true rest else if isIgnored c then skipFrom false rest else c :: rest

/-- A text without the ignored characters in front. -/
def skipIgnored (cs : List Char) : List Char := skipFrom false cs

def isNameStart (c : Char) : Bool := c.isAlpha || c == '_'

def isNameChar (c : Char) : Bool := c.isAlphanum || c == '_'

/-- Reads a name: a letter or underscore followed by letters, digits and underscores, all of
ASCII. -/
def readName : List Char → Option (String × List Char)
  | [] => none
  | c :: rest =>
    if isNameStart c then
      some (String.ofList (c :: rest.takeWhile isNameChar), rest.dropWhile isNameChar)
    else none

/-- Takes a word off the front of a text. -/
def readWord (word cs : List Char) : Option (List Char) :=
  if word.isPrefixOf cs then some (cs.drop word.length) else none

/-! ## Numbers -/

/-- Splits a run of digits off; a zero in front is a run of its own. -/
def splitDigits : List Char → Option (List Char × List Char)
  | [] => none
  | c :: rest =>
    if c = '0' then some ([c], rest)
    else if c.isDigit then some (c :: rest.takeWhile Char.isDigit, rest.dropWhile Char.isDigit)
    else none

/-- Splits the whole part of a number off, with its sign. -/
def splitWhole : List Char → Option (List Char × List Char)
  | '-' :: rest => (splitDigits rest).map fun (digits, after) => ('-' :: digits, after)
  | cs => splitDigits cs

/-- Splits the decimals off: a point and at least one digit, or else nothing. -/
def splitDecimals : List Char → List Char × List Char
  | '.' :: rest =>
    if rest.head?.any Char.isDigit then
      ('.' :: rest.takeWhile Char.isDigit, rest.dropWhile Char.isDigit)
    else ([], '.' :: rest)
  | cs => ([], cs)

/-- Splits a sign off, if there is one. -/
def splitSign : List Char → List Char × List Char
  | '+' :: rest => (['+'], rest)
  | '-' :: rest => (['-'], rest)
  | cs => ([], cs)

/-- Splits the exponent off: a mark, perhaps a sign, and at least one digit, or else nothing. -/
def splitExponent : List Char → List Char × List Char
  | [] => ([], [])
  | mark :: rest =>
    let (sign, after) := splitSign rest
    if (mark = 'e' || mark = 'E') && after.head?.any Char.isDigit then
      (mark :: (sign ++ after.takeWhile Char.isDigit), after.dropWhile Char.isDigit)
    else ([], mark :: rest)

/-- The integer that a whole part stands for, if it has a wire form; minus zero is no integer. -/
def integer? (whole : List Char) : Option Number :=
  match whole with
  | '-' :: digits =>
    let n := Binary64.digitsValue digits
    if n = 0 then none else Number.ofInt? (-n)
  | digits => Number.ofInt? (Binary64.digitsValue digits)

/-- The floating point number nearest to a text, if it is finite. -/
def floating? (cs : List Char) : Option Number :=
  (Binary64.ofText? (String.ofList cs)).bind Number.ofBinary64?

/-- Reads a number, which takes as much of the text as it can.  Without decimals and exponent it is
an integer, where there is a wire form for that. -/
def readNumber (cs : List Char) : Option (Number × List Char) := do
  let (whole, afterWhole) ← splitWhole cs
  let (decimals, afterDecimals) := splitDecimals afterWhole
  let (exponent, rest) := splitExponent afterDecimals
  if decimals.isEmpty && exponent.isEmpty then
    return (← (integer? whole).or (floating? whole), rest)
  else return (← floating? (whole ++ decimals ++ exponent), rest)

/-! ## Strings -/

/-- The value of a hexadecimal digit. -/
def hexDigit? (c : Char) : Option Nat :=
  if c.isDigit then some (c.toNat - '0'.toNat)
  else if 'a' ≤ c ∧ c ≤ 'f' then some (c.toNat - 'a'.toNat + 10)
  else if 'A' ≤ c ∧ c ≤ 'F' then some (c.toNat - 'A'.toNat + 10)
  else none

/-- The character whose code point has the given hexadecimal digits. -/
def ofCodePoint? (digits : List Char) : Option Char := do
  let n ← digits.foldlM (fun n c => (hexDigit? c).map (16 * n + ·)) 0
  if n.isValidChar then some (Char.ofNat n) else none

/-- The character that a letter behind a backslash stands for. -/
def escaped? (c : Char) : Option Char :=
  if c = '"' ∨ c = '\\' ∨ c = '/' then some c
  else if c = 'b' then some '\x08'
  else if c = 'f' then some '\x0c'
  else if c = 'n' then some '\n'
  else if c = 'r' then some '\r'
  else if c = 't' then some '\t'
  else none

/-- Reads the characters of a string up to the closing quote.  A code point behind a backslash has
four hexadecimal digits, and a line end must be escaped. -/
def readString : List Char → Option (List Char × List Char)
  | [] => none
  | '"' :: rest => some ([], rest)
  | '\\' :: 'u' :: a :: b :: c :: d :: rest => do
    let x ← ofCodePoint? [a, b, c, d]
    let (xs, after) ← readString rest
    return (x :: xs, after)
  | '\\' :: c :: rest => do
    let x ← escaped? c
    let (xs, after) ← readString rest
    return (x :: xs, after)
  | c :: rest =>
    if c = '\\' || isLineEnd c then none
    else do
      let (xs, after) ← readString rest
      return (c :: xs, after)

end HintSchema.Lexeme
