import HintSchema.Proofs.Inheritance
import HintSchema.Proofs.Sites

/-!
# Places of classes and nodes

The places at which a class resolves hints are those of the hints that it or an ancestor declares
(`Hierarchy.HintAt`), and for output types those of the other members that it shows
(`Hierarchy.MemberAt`).  Realizing a node fails at a place that the node reads
(`BuildEnv.Reads`), or at one that the union it is carries (`failsOnly_realize`).
-/

namespace HintSchema

open SchemaError (At PlacedIn)

variable {env : BuildEnv} {g : Graph} {node : Node} {id : Nat} {c : ClassRef}
  {D D' : Origin → Prop} {E : SchemaError → Prop}

/-- A resolved hint that carries a place with a property. -/
def ResolvedHint.LocatedIn (D : Origin → Prop) (ann : ResolvedHint) : Prop :=
  ∃ o, D o ∧ ann.Located (some o)

theorem ResolvedHint.LocatedIn.mono {ann : ResolvedHint} (h : ann.LocatedIn D)
    (hD : ∀ o, D o → D' o) : ann.LocatedIn D' := by
  obtain ⟨o, ho, hann⟩ := h
  exact ⟨o, hD o ho, hann⟩

/-! ## Places of a class -/

namespace Hierarchy

variable {h : Hierarchy} {o : Origin}

/-- A place where a class that another one looks up declares a hint. -/
def HintAt (h : Hierarchy) (c : ClassRef) (o : Origin) : Prop :=
  ∃ a decl name hint, a ∈ h.mro c ∧ h.find? a = some decl ∧ (name, hint) ∈ decl.hints ∧
    o = ⟨a.name, name⟩

/-- A place of a public member of a class: of a value without a hint, or of the result or a parameter
of a property or a method. -/
inductive MemberAt (h : Hierarchy) (c : ClassRef) : Origin → Prop
  | value {name : String} {v : Value} :
      (name, .value v) ∈ h.dir c → isPrivate name = false → h.nearestHint? c name = none →
      MemberAt h c ⟨c.name, name⟩
  | property {name : String} {p : Property} :
      (name, .property p) ∈ h.dir c → isPrivate name = false →
      MemberAt h c ⟨memberSite c p.name, "return"⟩
  | result {name : String} {m : Method} :
      (name, .method m) ∈ h.dir c → isPrivate name = false →
      MemberAt h c ⟨memberSite c m.name, "return"⟩
  | parameter {name : String} {m : Method} {p : Param} :
      (name, .method m) ∈ h.dir c → isPrivate name = false → p ∈ m.params →
      MemberAt h c ⟨memberSite c m.name, p.name⟩

/-- A place where an output type reads a hint. -/
def FieldAt (h : Hierarchy) (c : ClassRef) (o : Origin) : Prop := h.HintAt c o ∨ h.MemberAt c o

end Hierarchy

section Describing

variable {h : Hierarchy} {ns : Namespace} {hints : List (String × ResolvedHint)} {name : String}
  {member : Member} {hinted : String → Bool} {f : FieldDescriptor}

section Member

variable (hmem : (name, member) ∈ h.dir c) (hpublic : isPrivate name = false)
include hmem hpublic

end Member

end Describing

/-! ## Places of a node -/

namespace NodeBody

/-- The members that a union was written with. -/
def declared : NodeBody → List ResolvedHint
  | .union declared _ => declared
  | .object .. | .interface .. | .input .. | .enum .. | .scalar _ => []

theorem Extends.declared_eq {b b' : NodeBody} (h : b.Extends b') : b'.declared = b.declared := by
  cases h <;> rfl

end NodeBody

namespace BuildEnv

/-- The places at which realizing a node reads hints: those of its class. -/
def Reads (env : BuildEnv) : NodeBody → Origin → Prop
  | .object c _ _ | .interface c _ => env.hierarchy.FieldAt c
  | .input c _ => env.hierarchy.HintAt c
  | .enum .. | .scalar _ | .union .. => fun _ => False

theorem reads_eq_of_extends {b b' : NodeBody} (h : b.Extends b') : env.Reads b' = env.Reads b := by
  cases h <;> rfl

/-- A class with a type of its own is never refused. -/
theorem failsOnly_translateClass (h : (env.hierarchy.kind? c).isSome = true) :
    Build.FailsOnly E (env.translateClass c) := by
  refine Build.FailsOnly.bind (fun g => (failsOnly_translate_cls _ c g).mono ?_)
    fun _ => Build.failsOnly_pure _
  rintro e ⟨-, hnone, -⟩
  rw [hnone] at h
  cases h

end BuildEnv

end HintSchema
