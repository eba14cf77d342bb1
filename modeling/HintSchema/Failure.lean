import HintSchema.Payload

/-!
# Failures at run time

A `Failure` says why a member, a scalar, an enumeration or a field could not give its value.
`Failure.message` prints the cause; the values in it are shown as text.
-/

namespace HintSchema

/-- Why no value came out. -/
inductive Failure
  /-- Raised by a member itself, the outermost context first. -/
  | raised (context : List String)
  | noAttribute (className name : String)
  | methodAsAttribute (className name : String)
  | argumentAbsent (name : String)
  | missingArgument (callee name : String)
  | unexpectedArgument (callee name : String)
  | notRecord (className : String)
  | callsTooDeep
  | unknownLabel (label : String)
  | intFromNonInteger (shown : String)
  | intOutOfRange (n : Int)
  | intFromWire (wire : String)
  | floatFromNonNumber (shown : String)
  | floatFromWire (wire : String)
  | stringFromValue (shown : String)
  | stringFromWire (wire : String)
  | booleanFrom (text : String)
  | foreignPayload (scalar shown : String)
  | payloadMismatch (mismatch : Mismatch)
  | binaryOnWire
  | notSerializable (shown : String)
  | leadMissing (lead wire : String)
  | notParsable (wire : String)
  | enumLiteralExpected (literal : String)
  | enumFromValue (enum shown : String)
  | enumFromWire (enum wire : String)
  | enumFromLiteral (enum literal : String)
  | noEnumValue (name enum : String)
  | noEnumMember (className shown : String)
  | objectExpected (input literal : String)
  | notInputType (name : String)
  | listExpected (shown : String)
  | inputAsOutput (name : String)
  | noPossibleType (abstract className : String)
  | parentNotNative (type field : String)
  | nullForNonNull
  | arrayExpected
  | scalarOutputInvalid (scalar : String)
  | enumItemInvalid (enum : String)
  | interfaceItemInvalid (interface : String)
  | unionItemInvalid (union : String)

namespace Failure

/-- The text of a failure. -/
def message : Failure → String
  | .raised context => ": ".intercalate context
  | .noAttribute c name => "'" ++ c ++ "' object has no attribute '" ++ name ++ "'"
  | .methodAsAttribute c name => "'" ++ c ++ "." ++ name ++ "' is a method, not an attribute"
  | .argumentAbsent name => "missing argument '" ++ name ++ "'"
  | .missingArgument callee name =>
    callee ++ "() missing required argument: '" ++ name ++ "'"
  | .unexpectedArgument callee name =>
    callee ++ "() got an unexpected keyword argument '" ++ name ++ "'"
  | .notRecord c => "'" ++ c ++ "' is not a record and cannot be constructed"
  | .callsTooDeep => "calls are nested too deep"
  | .unknownLabel label => "no declaration '" ++ label ++ "'"
  | .intFromNonInteger shown => "Int cannot represent non-integer value: " ++ shown
  | .intOutOfRange n => "Int cannot represent non 32-bit signed integer value: " ++ toString n
  | .intFromWire wire => "Int cannot represent value: " ++ wire
  | .floatFromNonNumber shown => "Float cannot represent non numeric value: " ++ shown
  | .floatFromWire wire => "Float cannot represent value: " ++ wire
  | .stringFromValue shown => "String cannot represent value: " ++ shown
  | .stringFromWire wire => "String cannot represent a non string value: " ++ wire
  | .booleanFrom text => "Boolean cannot represent a non boolean value: " ++ text
  | .foreignPayload scalar shown => scalar ++ " cannot represent value: " ++ shown
  | .payloadMismatch mismatch => mismatch.message
  | .binaryOnWire => "binary literals have no wire form"
  | .notSerializable shown => "cannot serialize " ++ shown
  | .leadMissing lead wire =>
    "missing prefix " ++ Text.Quoting.shown.quote lead ++ " in " ++ wire
  | .notParsable wire => "cannot parse " ++ wire
  | .enumLiteralExpected literal => "only enum literals, got " ++ literal
  | .enumFromValue enum shown => "Enum \"" ++ enum ++ "\" cannot represent value: " ++ shown
  | .enumFromWire enum wire =>
    "Enum \"" ++ enum ++ "\" cannot represent non-string value: " ++ wire
  | .enumFromLiteral enum literal =>
    "Enum \"" ++ enum ++ "\" cannot represent non-enum value: " ++ literal
  | .noEnumValue name enum =>
    "Value \"" ++ name ++ "\" does not exist in \"" ++ enum ++ "\" enum."
  | .noEnumMember c shown => "\"" ++ c ++ "\" has no member with value " ++ shown
  | .objectExpected input literal =>
    "expected an object for input type \"" ++ input ++ "\", got " ++ literal
  | .notInputType name => "\"" ++ name ++ "\" is not an input type"
  | .listExpected shown => "expected a list, got " ++ shown
  | .inputAsOutput name => "input type \"" ++ name ++ "\" used as output"
  | .noPossibleType abstract c =>
    "Abstract type \"" ++ abstract ++ "\" must resolve to an object type at runtime; " ++
    "no possible type matches a value of class \"" ++ c ++ "\""
  | .parentNotNative type field => type ++ "." ++ field ++ ": parent is not a native value"
  | .nullForNonNull => "internal: non-null types require a return value"
  | .arrayExpected => "internal: expects an array"
  | .scalarOutputInvalid scalar =>
    "internal: invalid value for scalar \"" ++ scalar ++ "\", expected \"FieldValue::Value\""
  | .enumItemInvalid enum => "internal: invalid item for enum \"" ++ enum ++ "\""
  | .interfaceItemInvalid interface =>
    "internal: invalid value for interface \"" ++ interface ++
    "\", expected \"FieldValue::WithType\""
  | .unionItemInvalid union =>
    "internal: invalid value for union \"" ++ union ++ "\", expected \"FieldValue::WithType\""

end Failure

/-- A computation that may fail and may make values with an identity of their own; the state is the
next identity.  A failure forgets the identities given since, which no value then carries. -/
abbrev Eval := StateT Nat (Except Failure)

/-- The next identity. -/
def freshIdent : Eval Nat := fun next => .ok (next, next + 1)

end HintSchema
