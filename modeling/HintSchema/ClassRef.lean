/-!
# Class references

A `ClassRef` names a declared class: its place in the order of declaration, which is its identity,
and its name for printing.  The built-in classes come first.
-/

namespace HintSchema

/-- A reference to a class.  Two references mean the same class when their ids agree. -/
structure ClassRef where
  /-- How many classes were declared before this one. -/
  id : Nat
  name : String
  deriving DecidableEq, Repr

namespace ClassRef

def int : ClassRef := ⟨0, "int"⟩

def float : ClassRef := ⟨1, "float"⟩

def str : ClassRef := ⟨2, "str"⟩

def bool : ClassRef := ⟨3, "bool"⟩

/-- The class of the absent value. -/
def noneType : ClassRef := ⟨4, "NoneType"⟩

def list : ClassRef := ⟨5, "list"⟩

/-- Whether two references mean the same class. -/
def same (c d : ClassRef) : Bool := c.id == d.id

@[simp] theorem same_iff {c d : ClassRef} : c.same d = true ↔ c.id = d.id := by simp [same]

/-- The text that shows a class as a value. -/
def shown (c : ClassRef) : String := "<class '" ++ c.name ++ "'>"

end ClassRef

end HintSchema
