import HintSchema.Wire

/-!
# Payloads

Values of custom scalars may carry a payload whose form is described by a `Shape`: integers of a
fixed width, texts, lists, optional parts and records.  `Shape.read` checks a wire value against a
shape and returns its normal form, in which a record has all its fields in the order of their
declaration; a failure is a `Mismatch`, the path to the first bad part and what is wrong there.
-/

namespace HintSchema

/-- The form of a payload. -/
inductive Shape
  | int64
  | uint32
  | text
  | list (item : Shape)
  /-- A part that may be null, and that a record may leave out. -/
  | optional (inner : Shape)
  | record (name : String) (fields : List (String × Shape))
  deriving BEq, Repr

/-- A step from a wire value to a part of it. -/
inductive PathStep
  | field (name : String)
  | index (n : Nat)
  deriving DecidableEq, Repr

/-- What is wrong with a wire value. -/
inductive Problem
  | missingField (name : String)
  | wrongKind (found : Wire) (expected : String)
  | outOfRange (found : Int) (expected : String)
  | tooShort (count : Nat) (record : String) (fields : Nat)
  | tooLong (count : Nat)

/-- A problem and the path to the value that has it. -/
structure Mismatch where
  path : List PathStep
  problem : Problem

namespace Problem

/-- The kind of a wire value, with the value where it is short. -/
def kindText : Wire → String
  | .null => "null"
  | .bool b => "boolean `" ++ (if b then "true" else "false") ++ "`"
  | .number (.int n _ _) => "integer `" ++ toString n ++ "`"
  | .number (.float x _) => "floating point `" ++ FloatText.wire.render x ++ "`"
  | .str s => "string " ++ Text.Quoting.shown.quote s
  | .list _ => "sequence"
  | .object _ => "map"

/-- How many elements a record has, in words. -/
def elementsText (count : Nat) : String :=
  toString count ++ (if count = 1 then " element" else " elements")

def text : Problem → String
  | .missingField name => "missing field `" ++ name ++ "`"
  | .wrongKind found expected => "invalid type: " ++ kindText found ++ ", expected " ++ expected
  | .outOfRange found expected =>
    "invalid value: integer `" ++ toString found ++ "`, expected " ++ expected
  | .tooShort count record fields =>
    "invalid length " ++ toString count ++ ", expected struct " ++ record ++ " with " ++
    elementsText fields
  | .tooLong count =>
    "invalid length " ++ toString count ++ ", expected fewer elements in array"

end Problem

namespace Mismatch

/-- The same problem seen from the value that holds this one. -/
def under (step : PathStep) (m : Mismatch) : Mismatch := { m with path := step :: m.path }

/-- A path without its first dot. -/
def pathText : List PathStep → String
  | [] => ""
  | .index n :: rest => "[" ++ toString n ++ "]" ++ continued rest
  | .field name :: rest => name ++ continued rest
where
  /-- The further steps of a path: fields behind a dot. -/
  continued : List PathStep → String
    | [] => ""
    | .index n :: rest => "[" ++ toString n ++ "]" ++ continued rest
    | .field name :: rest => "." ++ name ++ continued rest

def message (m : Mismatch) : String :=
  "at JSON path " ++ (if m.path.isEmpty then "." else pathText m.path) ++ " → " ++ m.problem.text

end Mismatch

namespace Shape

/-- What a value of the shape is called. -/
def expectedText : Shape → String
  | .int64 => "i64"
  | .uint32 => "u32"
  | .text => "a string"
  | .list _ => "a sequence"
  | .optional inner => inner.expectedText
  | .record name _ => "struct " ++ name

/-- Reads an integer within bounds. -/
def readInt (expected : String) (low high : Int) : Wire → Except Mismatch Wire
  | .number (.int n lower upper) =>
    if low ≤ n ∧ n ≤ high then .ok (.number (.int n lower upper))
    else .error ⟨[], .outOfRange n expected⟩
  | found => .error ⟨[], .wrongKind found expected⟩

/-- The fields of a record in order, a missing optional one being null. -/
def assemble (found : List (String × Wire)) :
    List (String × Shape) → Except Mismatch (List (String × Wire))
  | [] => .ok []
  | (name, shape) :: rest => do
    let value ←
      match Keyed.get? found name, shape with
      | some value, _ => .ok value
      | none, .optional _ => .ok .null
      | none, _ => .error ⟨[], .missingField name⟩
    let values ← assemble found rest
    .ok ((name, value) :: values)

mutual

/-- Checks a wire value against a shape and returns its normal form. -/
def read : Shape → Wire → Except Mismatch Wire
  | .int64, w => readInt "i64" (-9223372036854775808) 9223372036854775807 w
  | .uint32, w => readInt "u32" 0 4294967295 w
  | .text, .str s => .ok (.str s)
  | .list item, .list ws => do
    let items ← ws.zipIdx.mapM fun (w, i) => (item.read w).mapError (.under (.index i))
    .ok (.list items)
  | .optional _, .null => .ok .null
  | .optional inner, w => inner.read w
  | .record name fields, .list ws => do
    let entries ← readInOrder name fields.length 0 fields ws
    if fields.length < ws.length then .error ⟨[], .tooLong ws.length⟩ else .ok (.object entries)
  | .record _ fields, .object entries => do
    let found ← entries.filterMapM fun (key, w) =>
      match readField fields key w with
      | none => .ok none
      | some (.ok value) => .ok (some (key, value))
      | some (.error m) => .error (m.under (.field key))
    let values ← assemble found fields
    .ok (.object values)
  | shape, w => .error ⟨[], .wrongKind w shape.expectedText⟩

/-- Reads the value of a field; `none` for a key that is no field. -/
def readField : List (String × Shape) → String → Wire → Option (Except Mismatch Wire)
  | [], _, _ => none
  | (name, shape) :: rest, key, w =>
    if name = key then some (shape.read w) else readField rest key w

/-- Reads the fields of a record given as a list, from a position on. -/
def readInOrder (record : String) (count position : Nat) :
    List (String × Shape) → List Wire → Except Mismatch (List (String × Wire))
  | [], _ => .ok []
  | _ :: _, [] => .error ⟨[], .tooShort position record count⟩
  | (name, shape) :: rest, w :: ws => do
    let value ← (shape.read w).mapError (.under (.index position))
    let values ← readInOrder record count (position + 1) rest ws
    .ok ((name, value) :: values)

end

end Shape

/-- A payload: its shape and its content in normal form. -/
structure Payload where
  shape : Shape
  content : Wire

end HintSchema
