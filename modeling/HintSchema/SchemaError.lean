/-!
# Failures of building a schema

A `SchemaError` says what stopped a build.  Those that arise at a hint carry the place of its
declaration: `SchemaError.locatedAt` attaches one unless a more specific place is there already, and
`SchemaError.message` prints the cause and the place.
-/

namespace HintSchema

/-- The place where a hint was declared. -/
structure Origin where
  className : String
  fieldName : String
  deriving DecidableEq, Repr

/-- Why a hint or a type is not understood. -/
inductive Malformation
  | recursiveAlias
  | unterminatedString
  | bracketExpected
  | unexpected (text : String)
  | unexpectedEnd
  | argumentNeeded (head : String)
  | optionalArity (count : Nat)
  | notGeneric (head : String)
  | emptyUnion
  | emptySequence
  | unsupportedGeneric
  | unresolvedForward
  /-- A reason stated by the caller. -/
  | stated (text : String)
  deriving DecidableEq, Repr

/-- The reason as a message gives it. -/
def Malformation.text : Malformation → String
  | .recursiveAlias => "recursive alias"
  | .unterminatedString => "unterminated string"
  | .bracketExpected => "expected `]`"
  | .unexpected text => "unexpected `" ++ text ++ "`"
  | .unexpectedEnd => "unexpected end of hint"
  | .argumentNeeded head => "`" ++ head ++ "` needs a type argument"
  | .optionalArity count => "Optional takes one type argument, got " ++ toString count
  | .notGeneric head => "`" ++ head ++ "` is not a generic type"
  | .emptyUnion => "union without members"
  | .emptySequence => "sequence without element type"
  | .unsupportedGeneric => "unsupported generic type"
  | .unresolvedForward => "unresolved forward reference"
  | .stated text => text

/-- What stopped the building of a schema. -/
inductive SchemaError
  | untranslatable (type : String) (site : Option Origin)
  | unnamedUnion (members : String) (site : Option Origin)
  | missingFieldHint (className fieldName : String)
  | ambiguousSequence (type : String) (site : Option Origin)
  | malformed (hint : String) (reason : Malformation) (site : Option Origin)
  | unknownName (name : String) (site : Option Origin)
  | invalidUnionMember (union member : String)
  | invalidRoot (role typeName : String)
  | conflictingTypeName (name : String)
  /-- The finished schema does not meet the rules for execution. -/
  | notExecutable
  deriving DecidableEq, Repr

namespace SchemaError

/-- The place the error carries. -/
def site : SchemaError → Option Origin
  | .untranslatable _ site | .unnamedUnion _ site | .ambiguousSequence _ site
  | .malformed _ _ site | .unknownName _ site => site
  | _ => none

/-- The error with a place attached, if it takes one and has none yet. -/
def locatedAt (error : SchemaError) (origin : Option Origin) : SchemaError :=
  match error with
  | .untranslatable type site => .untranslatable type (site.or origin)
  | .unnamedUnion members site => .unnamedUnion members (site.or origin)
  | .ambiguousSequence type site => .ambiguousSequence type (site.or origin)
  | .malformed hint reason site => .malformed hint reason (site.or origin)
  | .unknownName name site => .unknownName name (site.or origin)
  | other => other

/-- The sentence that names a place. -/
def siteText : Option Origin → String
  | none => ""
  | some origin => "\nDefined at " ++ origin.className ++ "." ++ origin.fieldName ++ "."

/-- The text of an error. -/
def message : SchemaError → String
  | .untranslatable type site =>
    "Cannot translate `" ++ type ++ "`." ++ siteText site ++
    "\nSuggestions:\n- Did you forget to inherit Object?\n" ++
    "- Did you forget to add its scalar mapper to the `scalars` list?"
  | .unnamedUnion members site =>
    "Could not find a name for Union[" ++ members ++ "]." ++ siteText site ++
    "\nIn GraphQL, any union needs a name, so all unions must be referenced " ++
    "through a named alias instead of being written inline. For example:\n" ++
    "    namespace.bind(\"Person\", \"Union[Manager, Employee]\");\n" ++
    "and then annotate the field as \"Optional[Person]\" (or \"Person\")."
  | .missingFieldHint className fieldName =>
    "No type hint found for " ++ className ++ "." ++ fieldName ++ ".\n" ++
    "Suggestion: annotate the field, e.g. `.annotate(\"" ++ fieldName ++ "\", \"str\")`."
  | .ambiguousSequence type site =>
    "Sequence type `" ++ type ++ "` has more than one type argument; " ++
    "its element type is ambiguous." ++ siteText site
  | .malformed hint reason site =>
    "Don't understand type `" ++ hint ++ "`: " ++ reason.text ++ siteText site
  | .unknownName name site =>
    "Name `" ++ name ++ "` is not bound in the namespace." ++ siteText site
  | .invalidUnionMember union member =>
    "Union `" ++ union ++ "` may only contain object types, but `" ++ member ++ "` is not one."
  | .invalidRoot role typeName =>
    "The " ++ role ++ " root must map to an object type, got `" ++ typeName ++ "`."
  | .conflictingTypeName name =>
    "Schema must contain unique named types but contains multiple types named `" ++ name ++ "`."
  | .notExecutable => "execution engine rejected the schema"

/-- A place that is attached stays. -/
theorem site_locatedAt_of_isSome {e : SchemaError} {o : Option Origin} (h : e.site.isSome) :
    (e.locatedAt o).site = e.site := by
  cases e <;> simp_all [site, locatedAt, Option.isSome_iff_exists] <;> obtain ⟨a, rfl⟩ := h <;> rfl

end SchemaError

end HintSchema
