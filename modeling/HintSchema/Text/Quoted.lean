import HintSchema.Text.Printable

/-!
# Quoted text

A `Quoting` says how each character stands between double quotes: as itself, or as an escape.
Three quotings are in use: `Quoting.json` for wire values, `Quoting.literal` for literals of a
schema document, and `Quoting.shown` for values shown in messages.
-/

namespace HintSchema.Text

/-- The digits of `n` in base `16`, in lower case and at least `width` of them. -/
def hexPadded (width n : Nat) : List Char :=
  let digits := Nat.toDigits 16 n
  List.replicate (width - digits.length) '0' ++ digits

/-- The digits of `n` in base `10`, at least `width` of them. -/
def decimalPadded (width n : Nat) : List Char :=
  let digits := Nat.toDigits 10 n
  List.replicate (width - digits.length) '0' ++ digits

/-- A way of quoting: the escape of each character that is not written as itself. -/
structure Quoting where
  /-- What stands for the character; `none` when it stands for itself. -/
  escape : Char → Option (List Char)

namespace Quoting

/-- The text between the quotes. -/
def inside (q : Quoting) (cs : List Char) : List Char :=
  cs.flatMap fun c => (q.escape c).getD [c]

/-- The text in double quotes. -/
def quote (q : Quoting) (s : String) : String :=
  String.ofList ('"' :: (q.inside s.toList ++ ['"']))

/-- JSON strings: the two characters that need it, the controls with a letter of their own, and
every other control below U+0020 by four hexadecimal digits. -/
def json : Quoting where
  escape c :=
    if c = '"' then some ['\\', '"']
    else if c = '\\' then some ['\\', '\\']
    else if c = '\n' then some ['\\', 'n']
    else if c = '\t' then some ['\\', 't']
    else if c = '\r' then some ['\\', 'r']
    else if c.toNat = 0x8 then some ['\\', 'b']
    else if c.toNat = 0xc then some ['\\', 'f']
    else if c.toNat < 0x20 then some ('\\' :: 'u' :: hexPadded 4 c.toNat)
    else none

/-- Strings of a schema document: controls without a letter of their own are written by four
decimal digits. -/
def literal : Quoting where
  escape c :=
    if c = '"' then some ['\\', '"']
    else if c = '\\' then some ['\\', '\\']
    else if c = '\n' then some ['\\', 'n']
    else if c = '\t' then some ['\\', 't']
    else if c = '\r' then some ['\\', 'r']
    else if c.toNat < 0x20 || (0x7f ≤ c.toNat && c.toNat ≤ 0x9f) then
      some ('\\' :: 'u' :: decimalPadded 4 c.toNat)
    else none

/-- Strings shown in messages: every character that is not printable is written by its code point
in braces. -/
def shown : Quoting where
  escape c :=
    if c = '"' then some ['\\', '"']
    else if c = '\\' then some ['\\', '\\']
    else if c = '\n' then some ['\\', 'n']
    else if c = '\t' then some ['\\', 't']
    else if c = '\r' then some ['\\', 'r']
    else if c.toNat = 0 then some ['\\', '0']
    else if isPrintable c then none
    else some ('\\' :: 'u' :: '\x7b' :: (hexPadded 1 c.toNat ++ ['\x7d']))

end Quoting

end HintSchema.Text
