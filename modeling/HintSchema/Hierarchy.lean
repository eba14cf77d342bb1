import HintSchema.ClassDef

/-!
# The class hierarchy

A `Hierarchy` holds the declared classes, the newest first, so the id of a class is the number of
classes behind it.  The bases of a class are looked up among the older classes only, so every walk
along bases ends.  `mro` is the order in which members are looked up; `lookup`, `dir`, `allHints`
and `fields` are the inherited views of a class.
-/

namespace HintSchema

/-- The declared classes, the newest first. -/
structure Hierarchy where
  defs : List ClassDef

namespace Hierarchy

/-- The built-in classes. -/
def builtin : Hierarchy where
  defs :=
    [{ name := "list" }, { name := "NoneType" },
     { name := "bool", primitive := some .bool }, { name := "str", primitive := some .str },
     { name := "float", primitive := some .float }, { name := "int", primitive := some .int }]

/-- Adds a class as the newest one. -/
def declare (h : Hierarchy) (d : ClassDef) : Hierarchy := ⟨d :: h.defs⟩

/-- The reference to the class that is declared next under a name. -/
def nextRef (h : Hierarchy) (name : String) : ClassRef := ⟨h.defs.length, name⟩

/-- The declaration with an id. -/
def defOf? : List ClassDef → Nat → Option ClassDef
  | [], _ => none
  | d :: older, id => if id = older.length then some d else defOf? older id

/-- The declaration of a class. -/
def find? (h : Hierarchy) (c : ClassRef) : Option ClassDef := defOf? h.defs c.id

/-- Whether a class is another one or has it among its ancestors. -/
def isSubclassIn : List ClassDef → Nat → Nat → Bool
  | [], c, d => c == d
  | decl :: older, c, d =>
    c == d ||
      (if c = older.length then decl.bases.any fun b => isSubclassIn older b.id d
       else isSubclassIn older c d)

def isSubclass (h : Hierarchy) (c d : ClassRef) : Bool := isSubclassIn h.defs c.id d.id

/-- Whether a class or one of its ancestors has a property. -/
def anyAncestorIn (p : ClassDef → Bool) : List ClassDef → Nat → Bool
  | [], _ => false
  | decl :: older, c =>
    if c = older.length then p decl || decl.bases.any fun b => anyAncestorIn p older b.id
    else anyAncestorIn p older c

def isObject (h : Hierarchy) (c : ClassRef) : Bool :=
  anyAncestorIn (·.capabilities.object) h.defs c.id

def isInterface (h : Hierarchy) (c : ClassRef) : Bool :=
  anyAncestorIn (·.capabilities.interface) h.defs c.id

def isRecord (h : Hierarchy) (c : ClassRef) : Bool :=
  anyAncestorIn (·.capabilities.record) h.defs c.id

def isEnum (h : Hierarchy) (c : ClassRef) : Bool :=
  anyAncestorIn (·.capabilities.enumeration) h.defs c.id

/-- A class and its ancestors along all paths, depth first and left to right. -/
def walkIn : List ClassDef → ClassRef → List ClassRef
  | [], c => [c]
  | decl :: older, c =>
    if c.id = older.length then c :: decl.bases.flatMap (walkIn older) else walkIn older c

/-- The last occurrence of each class. -/
def keepLast : List ClassRef → List ClassRef
  | [] => []
  | c :: rest => if rest.any c.same then keepLast rest else c :: keepLast rest

/-- The order of member lookup: a class before its ancestors, each once. -/
def mro (h : Hierarchy) (c : ClassRef) : List ClassRef := keepLast (walkIn h.defs c)

/-- The direct subclasses of a class, in the order of their declaration; a class that names a base
twice counts twice. -/
def subclassesIn (c : ClassRef) : List ClassDef → List ClassRef
  | [] => []
  | d :: older =>
    subclassesIn c older ++ (d.bases.filter c.same).map fun _ => ⟨older.length, d.name⟩

def subclasses (h : Hierarchy) (c : ClassRef) : List ClassRef := subclassesIn c h.defs

/-- The declarations along the order of lookup, each with its class. -/
def lineage (h : Hierarchy) (c : ClassRef) : List (ClassRef × ClassDef) :=
  (h.mro c).filterMap fun a => (h.find? a).map (a, ·)

/-- The nearest member of a name. -/
def lookup (h : Hierarchy) (c : ClassRef) (name : String) : Option Member :=
  (h.lineage c).findSome? fun (_, d) => Keyed.get? d.members name

/-- Adds the entries whose keys are new. -/
def addNew {α : Type} (entries pairs : List (String × α)) : List (String × α) :=
  pairs.foldl (fun acc p => if Keyed.contains acc p.1 then acc else acc ++ [p]) entries

/-- Own and inherited members by name, in the order of names; nearer ones hide farther ones. -/
def dir (h : Hierarchy) (c : ClassRef) : List (String × Member) :=
  Keyed.sorted ((h.lineage c).foldl (fun acc (_, d) => addNew acc d.members) [])

/-- Own and inherited hints with the class that declares each, those of bases first; a nearer hint
takes the place of a farther one. -/
def allHints (h : Hierarchy) (c : ClassRef) : List (String × ClassRef × Hint) :=
  (h.lineage c).reverse.foldl
    (fun acc (a, d) => Keyed.putAll acc (d.hints.map fun (name, hint) => (name, a, hint))) []

/-- Own and inherited record fields, those of bases first. -/
def fields (h : Hierarchy) (c : ClassRef) : List String :=
  (h.lineage c).reverse.foldl
    (fun acc (_, d) =>
      d.recordFields.foldl (fun names f => if f ∈ names then names else names ++ [f]) acc) []

/-- The variants a class itself declares, with their values. -/
def variants (h : Hierarchy) (c : ClassRef) : List (String × Value) :=
  ((h.find? c).map (·.variants)).getD []

/-- The member of an enumeration with a name. -/
def variant (h : Hierarchy) (c : ClassRef) (name : String) : Option Value :=
  if Keyed.contains (h.variants c) name then some (.enum c name) else none

/-- The first member of an enumeration declared with a value equal to the given one. -/
def variantByValue (h : Hierarchy) (c : ClassRef) (value : Value) : Option Value :=
  ((h.variants c).find? fun (_, v) => v.equal value).map fun (name, _) => .enum c name

/-- The value a member of an enumeration was declared with. -/
def underlying (h : Hierarchy) (c : ClassRef) (name : String) : Value :=
  (Keyed.get? (h.variants c) name).getD .null

/-- Whether a value is an instance of a class. -/
def isInstance (h : Hierarchy) (value : Value) (c : ClassRef) : Bool :=
  h.isSubclass value.classRef c

end Hierarchy

end HintSchema
