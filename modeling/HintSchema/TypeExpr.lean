import HintSchema.ClassRef
import HintSchema.TypeKey

/-!
# Type expressions

A `TypeExpr` is what a hint evaluates to.  `unionOf` builds unions: it flattens one level, keeps the
first member of each key and collapses a single member to itself.  `key` is the identity that tells
types apart, `text` the printed form.  An alias carries its supertype, so every chain of aliases
is finite.
-/

namespace HintSchema

/-- A type. -/
inductive TypeExpr
  | cls (c : ClassRef)
  /-- The type of the absent value. -/
  | noneType
  | union (members : List TypeExpr)
  /-- A distinctly named type with the values of its supertype. -/
  | aliasOf (id : Nat) (name : String) (supertype : TypeExpr)
  | generic (kind : GenericKind) (args : List TypeExpr)
  /-- A reference by text that is not resolved yet. -/
  | forward (text : String)
  deriving Repr

namespace TypeExpr

def isNone : TypeExpr → Bool
  | .noneType => true
  | _ => false

def isAlias : TypeExpr → Bool
  | .aliasOf .. => true
  | _ => false

/-- The built-in alias for identifiers, over strings. -/
def identifier : TypeExpr := .aliasOf 0 "ID" (.cls .str)

/-- The list of a type. -/
def listOf (element : TypeExpr) : TypeExpr := .generic .list [element]

/-- The type arguments of a union or a subscripted type. -/
def args : TypeExpr → List TypeExpr
  | .union members => members
  | .generic _ args => args
  | _ => []

/-- The first type down a chain of supertypes that is no alias. -/
def ultimate : TypeExpr → TypeExpr
  | .aliasOf _ _ supertype => supertype.ultimate
  | e => e

mutual

/-- The identity of a type. -/
def key : TypeExpr → TypeKey
  | .cls c => .cls c.id
  | .noneType => .noneType
  | .union members => .ofMembers (keys members)
  | .aliasOf id _ _ => .aliasOf id
  | .generic kind args => .generic kind (keys args)
  | .forward text => .forward text

/-- The keys of the types of a list. -/
def keys : List TypeExpr → List TypeKey
  | [] => []
  | e :: rest => e.key :: keys rest

end

theorem keys_eq_map (es : List TypeExpr) : keys es = es.map key := by
  induction es with
  | nil => rfl
  | cons e rest ih => simp [keys, ih]

/-- The first type of each key that is not in `seen`. -/
def distinct (seen : List TypeKey) : List TypeExpr → List TypeExpr
  | [] => []
  | e :: rest =>
    if e.key ∈ seen then distinct seen rest else e :: distinct (e.key :: seen) rest

/-- The members of a union, or the type itself. -/
def members : TypeExpr → List TypeExpr
  | .union ms => ms
  | e => [e]

/-- The one type of a list, or the union of its types. -/
def collapse : List TypeExpr → TypeExpr
  | [e] => e
  | es => .union es

/-- The union of some types: members of unions stand for themselves, repeated ones are dropped, and
a single one is no union. -/
def unionOf (es : List TypeExpr) : TypeExpr := collapse (distinct [] (es.flatMap members))

/-- The union with the type of the absent value. -/
def optional (inner : TypeExpr) : TypeExpr := unionOf [inner, .noneType]

mutual

/-- The printed form. -/
def text : TypeExpr → String
  | .cls c => c.name
  | .noneType => "None"
  | .union members =>
    match members.any isNone, presentTexts members with
    | true, [inner] => "Optional[" ++ inner ++ "]"
    | _, _ => "Union[" ++ ", ".intercalate (texts members) ++ "]"
  | .aliasOf _ name _ => name
  | .generic kind args => kind.name ++ "[" ++ ", ".intercalate (texts args) ++ "]"
  | .forward text => "'" ++ text ++ "'"

/-- The printed forms of the types of a list. -/
def texts : List TypeExpr → List String
  | [] => []
  | e :: rest => e.text :: texts rest

/-- The printed forms of the types of a list other than that of the absent value. -/
def presentTexts : List TypeExpr → List String
  | [] => []
  | e :: rest => if e.isNone then presentTexts rest else e.text :: presentTexts rest

end

mutual

/-- Equality of structure, with classes and aliases by identity. -/
def same : TypeExpr → TypeExpr → Bool
  | .cls c, .cls d => c.same d
  | .noneType, .noneType => true
  | .union ms, .union ns => sameAll ms ns
  | .aliasOf i _ _, .aliasOf j _ _ => i == j
  | .generic k as, .generic l bs => k == l && sameAll as bs
  | .forward s, .forward t => s == t
  | _, _ => false

/-- Equality of structure, item by item. -/
def sameAll : List TypeExpr → List TypeExpr → Bool
  | [], [] => true
  | a :: as, b :: bs => a.same b && sameAll as bs
  | _, _ => false

end

/-- A chain of supertypes ends in a type that is no alias. -/
theorem ultimate_ne_alias (e : TypeExpr) (i : Nat) (n : String) (s : TypeExpr) :
    e.ultimate ≠ .aliasOf i n s := by
  match e with
  | .aliasOf _ _ t => exact ultimate_ne_alias t i n s
  | .cls _ | .noneType | .union _ | .generic _ _ | .forward _ => simp [ultimate]

end TypeExpr

/-- A hint as it was declared: source text, or a type that may hold unresolved references. -/
inductive Hint
  | text (source : String)
  | expr (type : TypeExpr)
  deriving Repr

namespace Hint

/-- The source text, if the hint is one. -/
def text? : Hint → Option String
  | .text source => some source
  | .expr _ => none

/-- The printed form. -/
def shown : Hint → String
  | .text source => source
  | .expr type => type.text

/-- A type as a hint; an unresolved reference becomes its text. -/
def ofExpr : TypeExpr → Hint
  | .forward source => .text source
  | e => .expr e

end Hint

end HintSchema
