import Mathlib
import HintSchema.Proofs.Order
import HintSchema.Proofs.Redeclaring

/-!
# Interchangeable spellings

To spell a type as optional or as a union with the absent value makes no difference to a build,
wherever it stands in the declarations, as long as the type leaves no name of a union
(`BuildEnv.outcome_eq_of_respelled`).  A union that goes by its name is lost in the second spelling,
where the comma hides the name (`Sample.pet_not_interchangeable`).
-/

namespace HintSchema

namespace BuildEnv

variable {h h' : Hierarchy} {ns : Namespace} {scalars : ScalarRegistry}
  {visit : List Nat → List Nat} {query : ClassRef} {mutation : Option ClassRef}

/-- Wherever in the declarations types are optional in the one and unions with the absent value in the
other, the two builds both fail or both show the same types, as long as these types leave no name of a
union. -/
theorem outcome_eq_of_respelled
    (halike : h.Alike (Hint.Respelled (HintTerm.NamesNoUnion ns)) h')
    (hnone : ns.get? "None" = none) :
    BuildEnv.outcome ⟨h, ns, scalars⟩ visit query mutation =
      BuildEnv.outcome ⟨h', ns, scalars⟩ visit query mutation := by
  have hmatches : Matches ⟨h, ns, scalars⟩ ⟨h', ns, scalars⟩ :=
    matches_of_alike halike fun hhint => hhint.interchangeable hnone
  have hback : Matches ⟨h', ns, scalars⟩ ⟨h, ns, scalars⟩ :=
    matches_of_alike (halike.symm Hint.Respelled.symm) fun hhint => hhint.interchangeable hnone
  exact outcome_eq_of_exists hmatches.exists_build hback.exists_build

end BuildEnv

/-! ## Owners with optional pets -/

namespace Sample

/-- Cats, dogs and owners with one hint for the pet. -/
def petHierarchy (hint : String) : Hierarchy :=
  [objectWith "Cat" "lives" "int", objectWith "Dog" "tricks" "int",
    objectWith "Owner" "pet" hint].foldl Hierarchy.declare .builtin

theorem alike_petHierarchy {free : HintTerm → Prop} {hint hint' : String}
    (h : Hint.Respelled free (.text hint) (.text hint')) :
    (petHierarchy hint).Alike (Hint.Respelled free) (petHierarchy hint') := by
  have howner : (objectWith "Owner" "pet" hint).Alike (Hint.Respelled free)
      (objectWith "Owner" "pet" hint') :=
    ⟨rfl, rfl, rfl, rfl, rfl, .nil, .cons ⟨rfl, h⟩ .nil, rfl, rfl⟩
  exact .cons howner (List.forall₂_same.2 fun d _ => .refl .refl d)

/-- The schema of an owner. -/
def petOutcome (hint : String) : Option (List TypeShown) :=
  BuildEnv.outcome ⟨petHierarchy hint, townNames, {}⟩ id owner none

/-- Whether the cats of an owner that may be absent are spelled as optional or as a union makes no
difference. -/
theorem outcome_eq_cats : (petOutcome "List[Optional[Cat]]").isSome = true ∧
    petOutcome "List[Optional[Cat]]" = petOutcome "List[Union[None, Cat]]" := by
  have hcat : HintTerm.NamesNoUnion townNames (.name "Cat") :=
    HintTerm.namesNoUnion_name (Namespace.not_namesSome_of_class (by cbv))
  have hspelled : HintTerm.Respelled (HintTerm.NamesNoUnion townNames)
      (.subscript "List" [.subscript "Optional" [.name "Cat"]])
      (.subscript "List" [.subscript "Union" [.name "None", .name "Cat"]]) :=
    .subscript (.cons (.optional (.refl (.name "Cat")) (.optional hcat (by decide))
      (.noneFirst (by decide))) .nil)
  refine ⟨by decide +kernel, ?_⟩
  exact BuildEnv.outcome_eq_of_respelled
    (alike_petHierarchy (.text (by cbv) (by cbv) hspelled)) (by decide)

/-- The spellings of a type made optional. -/
def optionalSpellings (type : String) : List String :=
  ["Optional[" ++ type ++ "]", "Union[" ++ type ++ ", None]", "Union[None, " ++ type ++ "]"]

/-- An owner of an optional pet is refused where the name of the pets is a member of a union. -/
theorem pet_not_interchangeable : ¬ ∀ type spelling spelling' : String,
    (∀ es, townNames.eval (.text type) = .ok (.union es) → es.any TypeExpr.isNone = false) →
    spelling ∈ optionalSpellings type → spelling' ∈ optionalSpellings type →
    petOutcome spelling = petOutcome spelling' := by
  intro hall
  have heval : townNames.eval (.text "Pet") = .ok (.union [.cls cat, .cls dog]) := by cbv
  have hpresent : ∀ es, townNames.eval (.text "Pet") = .ok (.union es) →
      es.any TypeExpr.isNone = false := by
    intro es hes
    cases heval.symm.trans hes
    rfl
  have hsame := hall "Pet" "Optional[Pet]" "Union[Pet, None]" hpresent (by decide) (by decide)
  have hok : (petOutcome "Optional[Pet]").isSome = true := by decide +kernel
  have herror : (petOutcome "Union[Pet, None]").isSome = false := by decide +kernel
  rw [hsame, herror] at hok
  cases hok

end Sample

end HintSchema
