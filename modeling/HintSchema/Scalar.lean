import HintSchema.ClassRef
import HintSchema.Failure
import HintSchema.Value

/-!
# Scalars

A scalar turns values into wire values and reads wire values and literals back; `ScalarHooks` says
by which rule.  The four built-in scalars belong to the classes of the primitives.  Further ones are
registered for a class in a `ScalarRegistry`, where a later registration replaces an earlier one and
the built-in scalars come first.
-/

namespace HintSchema

/-- How values of a scalar and wire values correspond. -/
inductive ScalarCodec
  | int
  | float
  | string
  | boolean
  /-- Values stand for themselves, strings behind a leading text. -/
  | plain (lead : String)
  /-- Sealed values of a class with a payload of a shape; failures call the scalar `name`. -/
  | payload (name : String) (c : ClassRef) (shape : Shape)

/-- The behaviour of a scalar, which aliases of its class share. -/
structure ScalarHooks where
  codec : ScalarCodec
  /-- Whether literals are names of enum values, and nothing else. -/
  enumLiterals : Bool := false

namespace ScalarCodec

/-- The integer on the wire, if it has 32 bits. -/
def serializeInt32 (n : Int) : Except Failure Wire :=
  if h : -2147483648 ≤ n ∧ n < 2147483648 then
    .ok (.number (.int n (by omega) (by omega)))
  else .error (.intOutOfRange n)

mutual

/-- The wire value of a plain scalar. -/
def serializePlain (lead : String) : Value → Except Failure Wire
  | .null => .ok .null
  | .bool b => .ok (.bool b)
  | .int n => .ok (.number (.ofInt64 n))
  | .float x => .ok (.ofBinary64 x)
  | .str s => .ok (.str (lead ++ s))
  | .list items => do return .list (← serializePlainAll lead items)
  | other => .error (.notSerializable other.shown)

/-- The wire values of the items of a list. -/
def serializePlainAll (lead : String) : List Value → Except Failure (List Wire)
  | [] => .ok []
  | v :: rest => do
    let w ← serializePlain lead v
    let ws ← serializePlainAll lead rest
    .ok (w :: ws)

end

mutual

/-- The value of a plain scalar. -/
def parsePlain (lead : String) : Wire → Except Failure Value
  | .null => .ok .null
  | .bool b => .ok (.bool b)
  | .number n =>
    match n.toInt64? with
    | some i => .ok (.int i)
    | none => .ok (.float n.toBinary64)
  | .str s =>
    if lead.toList.isPrefixOf s.toList then
      .ok (.str (String.ofList (s.toList.drop lead.toList.length)))
    else .error (.leadMissing lead (Wire.str s).text)
  | .list items => do return .list (← parsePlainAll lead items)
  | .object entries => .error (.notParsable (Wire.object entries).text)

/-- The values of the items of a list. -/
def parsePlainAll (lead : String) : List Wire → Except Failure (List Value)
  | [] => .ok []
  | w :: rest => do
    let v ← parsePlain lead w
    let vs ← parsePlainAll lead rest
    .ok (v :: vs)

end

/-- The wire value of a value. -/
def serialize : ScalarCodec → Value → Except Failure Wire
  | .int, .int n => serializeInt32 n.toInt
  | .int, .bool b => serializeInt32 (if b then 1 else 0)
  | .int, .float x =>
    if x.isIntegral then serializeInt32 x.toInt64Clamped.toInt
    else .error (.intFromNonInteger (Value.float x).shown)
  | .int, other => .error (.intFromNonInteger other.shown)
  | .float, .bool b => .ok (.ofBinary64 (.ofInt (if b then 1 else 0)))
  | .float, .int n => .ok (.ofBinary64 (.ofInt n.toInt))
  | .float, .float x => .ok (.ofBinary64 x)
  | .float, other => .error (.floatFromNonNumber other.shown)
  | .string, .str s => .ok (.str s)
  | .string, .int n => .ok (.str (toString n.toInt))
  | .string, .float x => .ok (.str (FloatText.plain.render x))
  | .string, .bool b => .ok (.str (if b then "true" else "false"))
  | .string, other => .error (.stringFromValue other.shown)
  | .boolean, .bool b => .ok (.bool b)
  | .boolean, .int n => .ok (.bool (n != 0))
  | .boolean, other => .error (.booleanFrom other.shown)
  | .plain lead, value => serializePlain lead value
  | .payload name _ shape, value =>
    match value with
    | .sealed _ _ p =>
      if p.shape == shape then .ok p.content
      else .error (.foreignPayload name value.shown)
    | other => .error (.foreignPayload name other.shown)

/-- The value of a wire value. -/
def parseValue : ScalarCodec → Wire → Eval Value
  | .int, w =>
    match w with
    | .number (.int n _ _) =>
      if -2147483648 ≤ n ∧ n < 2147483648 then pure (.int (Int64.ofInt n))
      else throw (.intFromWire w.text)
    | _ => throw (.intFromWire w.text)
  | .float, w =>
    match w with
    | .number n => pure (.float n.toBinary64)
    | _ => throw (.floatFromWire w.text)
  | .string, w =>
    match w with
    | .str s => pure (.str s)
    | _ => throw (.stringFromWire w.text)
  | .boolean, w =>
    match w with
    | .bool b => pure (.bool b)
    | _ => throw (.booleanFrom w.text)
  | .plain lead, w => parsePlain lead w
  | .payload _ c shape, w => do
    match shape.read w with
    | .ok content => return .sealed (← freshIdent) c ⟨shape, content⟩
    | .error m => throw (.payloadMismatch m)

end ScalarCodec

namespace ScalarHooks

def serialize (hooks : ScalarHooks) (value : Value) : Except Failure Wire :=
  hooks.codec.serialize value

def parseValue (hooks : ScalarHooks) (w : Wire) : Eval Value := hooks.codec.parseValue w

/-- The value of a literal: that of its wire form, unless literals have a rule of their own. -/
def parseLiteral (hooks : ScalarHooks) (literal : Literal) : Eval Value :=
  if hooks.enumLiterals then
    match literal with
    | .enum name => pure (.str name)
    | other => throw (.enumLiteralExpected other.text)
  else
    match literal.toWire with
    | some w => hooks.parseValue w
    | none => throw .binaryOnWire

/-- Whether the hooks accept a literal. -/
def accepts (hooks : ScalarHooks) (literal : Literal) : Bool :=
  match hooks.parseLiteral literal 0 with
  | .ok _ => true
  | .error _ => false

end ScalarHooks

/-- A scalar type. -/
structure ScalarType where
  name : String
  description : Option String := none
  hooks : ScalarHooks

/-- A scalar that is registered for a class. -/
structure ScalarDescriptor where
  native : ClassRef
  scalar : ScalarType

/-- The registered scalars, the latest first. -/
structure ScalarRegistry where
  custom : List ScalarDescriptor := []

namespace ScalarRegistry

/-- The built-in scalar of a class. -/
def builtin? (c : ClassRef) : Option ScalarType :=
  if c.same .int then some { name := "Int", hooks := ⟨.int, false⟩ }
  else if c.same .float then some { name := "Float", hooks := ⟨.float, false⟩ }
  else if c.same .str then some { name := "String", hooks := ⟨.string, false⟩ }
  else if c.same .bool then some { name := "Boolean", hooks := ⟨.boolean, false⟩ }
  else none

def register (r : ScalarRegistry) (d : ScalarDescriptor) : ScalarRegistry := ⟨d :: r.custom⟩

def ofList (ds : List ScalarDescriptor) : ScalarRegistry := ds.foldl register {}

/-- The scalar that was last registered for a class. -/
def custom? (r : ScalarRegistry) (c : ClassRef) : Option ScalarType :=
  (r.custom.find? fun d => d.native.same c).map (·.scalar)

/-- The scalar of a class. -/
def lookup (r : ScalarRegistry) (c : ClassRef) : Option ScalarType :=
  (builtin? c).or (r.custom? c)

end ScalarRegistry

/-- An enumeration type: names and the values behind them. -/
structure EnumType where
  name : String
  c : ClassRef
  values : List (String × Value)

namespace EnumType

/-- The name of a value: that of a member of the class, or else the first name whose value is
equal. -/
def serialize (e : EnumType) (value : Value) : Except Failure String :=
  let byValue : Except Failure String :=
    match e.values.find? fun (_, v) => v.equal value with
    | some (name, _) => .ok name
    | none => .error (.enumFromValue e.name value.shown)
  match value with
  | .enum c name => if c.same e.c then .ok name else byValue
  | _ => byValue

/-- The member that carries the value of a name: the first one declared with an equal value. -/
def parseName (e : EnumType) (name : String) : Except Failure Value :=
  match Keyed.get? e.values name with
  | none => .error (.noEnumValue name e.name)
  | some value =>
    match e.values.find? fun (_, v) => v.equal value with
    | some (first, _) => .ok (.enum e.c first)
    | none => .error (.noEnumMember e.c.name value.shown)

def parseValue (e : EnumType) : Wire → Except Failure Value
  | .str name => e.parseName name
  | w => .error (.enumFromWire e.name w.text)

def parseLiteral (e : EnumType) : Literal → Except Failure Value
  | .enum name => e.parseName name
  | .str name => e.parseName name
  | literal => .error (.enumFromLiteral e.name literal.text)

end EnumType

end HintSchema
