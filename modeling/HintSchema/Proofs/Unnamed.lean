import HintSchema.Proofs.Memory
import HintSchema.Proofs.Stripping

/-!
# Unions without a name

A translation looks at the name of a union when it gets to the union, also when the union was met
before.  It does not get there when a layer around the union is remembered: such a hint is translated
though its union has no name (`translate_unnamed`), as an inline union is below the absence that a
named union of the same members was met under (`unnamed_accepted`).
-/

namespace HintSchema

open Relation

variable {env : BuildEnv} {aliases : AliasTable} {g : Graph} {ann inner : ResolvedHint}
  {head : ResolvedHead} {members : List ResolvedHint} {wrap : TypeRef → TypeRef} {e : SchemaError}

namespace ResolvedHead

/-- Whether the hint as written is an identifier, perhaps in quotes. -/
def isIdentified (head : ResolvedHead) : Bool :=
  match head.raw with
  | some (.text source) => isIdentifier (Text.unquote source.toList)
  | _ => false

/-- How a union without a name is refused. -/
def unnamed (head : ResolvedHead) : SchemaError :=
  .unnamedUnion (", ".intercalate (TypeExpr.texts head.resolved.args)) head.origin

end ResolvedHead

theorem unionName_cases (ann : ResolvedHint) :
    (∃ name, unionName ann = .ok name) ∨ unionName ann = .error ann.head.unnamed := by
  rw [unionName]
  split
  · exact .inr rfl
  · dsimp only
    split_ifs
    · exact .inl ⟨_, rfl⟩
    · exact .inr rfl

/-- A hint as written that is no identifier names no union. -/
theorem unionName_of_not_identified (h : ann.head.isIdentified = false) :
    unionName ann = .error ann.head.unnamed := by
  refine (unionName_cases ann).resolve_left ?_
  rintro ⟨name, hname⟩
  obtain ⟨source, hraw, hid, -⟩ := unionName_iff.1 hname
  rw [ResolvedHead.isIdentified, hraw] at h
  cases hid.symm.trans h

namespace BuildEnv

/-- What a resolved hint is over, through any number of lists, absences and aliases that have no node
of their own. -/
abbrev Wraps (env : BuildEnv) : ResolvedHint → ResolvedHint → Prop :=
  ReflTransGen fun ann inner => ∃ wrap, env.layer? ann = some (inner, wrap)

/-- A layer that a hint has around a part of it was translated before. -/
def Remembers (env : BuildEnv) (g : Graph) (ann part : ResolvedHint) : Prop :=
  ∃ layer t, env.Wraps ann layer ∧ env.Wraps layer part ∧ layer ≠ part ∧ g.cached layer = some t

theorem Wraps.eq_of_union (h : env.Wraps (.union head members) ann) : ann = .union head members := by
  rcases ReflTransGen.cases_head h with rfl | ⟨inner, ⟨wrap, hl⟩, -⟩
  · rfl
  · cases hl

/-- Below its outermost layer a hint has the layers that it has besides that one. -/
theorem remembers_layer_iff (hl : env.layer? ann = some (inner, wrap)) (hmiss : g.cached ann = none)
    {part : ResolvedHint} : env.Remembers g ann part ↔ env.Remembers g inner part := by
  constructor
  · rintro ⟨layer, t, hlayer, hpart, hne, ht⟩
    rcases ReflTransGen.cases_head hlayer with rfl | ⟨inner', ⟨wrap', hl'⟩, hlayer⟩
    · cases hmiss.symm.trans ht
    · cases hl.symm.trans hl'
      exact ⟨layer, t, hlayer, hpart, hne, ht⟩
  · rintro ⟨layer, t, hlayer, hpart, hne, ht⟩
    exact ⟨layer, t, .head ⟨wrap, hl⟩ hlayer, hpart, hne, ht⟩

/-- Met directly, a union without a name is refused, whether it was met before or not. -/
theorem exec_translate_unnamed (hname : unionName (.union head members) = .error e) (g : Graph) :
    (env.translate (.union head members)).exec g = (.error e, g) := by
  cases ht : g.cached (.union head members) with
  | none =>
    have hthrow : (mapUnion (.union head members) members).exec g = (.error e, g) := by
      rw [mapUnion, hname]
      rfl
    rw [translate_union, exec_memoized_error ht (Build.exec_bind_error hthrow)]
  | some t =>
    rw [translate_union, memoized, Build.exec_get_bind, ht]
    dsimp only
    rw [hname]
    rfl

/-- Around a union without a name, one remembered layer makes the translation succeed; without any it
fails at the union and leaves the graph as it is. -/
theorem exec_translate_of_wraps (hname : unionName (.union head members) = .error e)
    (h : env.Wraps ann (.union head members)) :
    (env.Remembers g ann (.union head members) →
      ∃ t g', (env.translate ann).exec g = (.ok t, g')) ∧
    (¬ env.Remembers g ann (.union head members) →
      (env.translate ann).exec g = (.error e, g)) := by
  induction h using ReflTransGen.head_induction_on with
  | refl =>
    refine ⟨?_, fun _ => exec_translate_unnamed hname g⟩
    rintro ⟨layer, -, hlayer, -, hne, -⟩
    exact absurd hlayer.eq_of_union hne
  | @head ann inner hstep hover ih =>
    obtain ⟨wrap, hl⟩ := hstep
    cases ht : g.cached ann with
    | some t =>
      have hne : ann ≠ .union head members := by
        rintro rfl
        cases hl
      have hnamed : Named ann := by
        cases ann with
        | union => cases hl
        | _ => trivial
      refine ⟨fun _ => ⟨t, g, (translate_hit ht).2.2 hnamed⟩, fun hnot => ?_⟩
      exact absurd ⟨ann, t, .refl, .head ⟨wrap, hl⟩ hover, hne, ht⟩ hnot
    | none =>
      rw [remembers_layer_iff hl ht, translate_layer hl]
      refine ⟨fun hr => ?_, fun hr => ?_⟩
      · obtain ⟨t, g', hok⟩ := ih.1 hr
        have hwrap : (env.translate inner >>= fun t => pure (wrap t)).exec g =
            (.ok (wrap t), g') := by
          rw [Build.exec_bind_ok hok]
          rfl
        exact ⟨_, _, exec_memoized_ok ht hwrap⟩
      · exact exec_memoized_error ht (Build.exec_bind_error (ih.2 hr))

/-- A hint over a union without a name is refused in a graph, with the members and the place of the
union and without any change, exactly when the graph remembers no layer that the hint has around the
union; otherwise its translation succeeds. -/
theorem translate_unnamed (h : env.Wraps ann (.union head members))
    (hraw : head.isIdentified = false) (g : Graph) :
    ((env.translate ann).exec g = (.error head.unnamed, g) ↔
      ¬ env.Remembers g ann (.union head members)) ∧
    ((∃ t g', (env.translate ann).exec g = (.ok t, g')) ↔
      env.Remembers g ann (.union head members)) := by
  obtain ⟨hok, herror⟩ := exec_translate_of_wraps (g := g) (unionName_of_not_identified hraw) h
  refine ⟨⟨fun he hr => ?_, herror⟩, ⟨?_, hok⟩⟩
  · obtain ⟨t, g', ht⟩ := hok hr
    cases he.symm.trans ht
  · rintro ⟨t, g', ht⟩
    by_contra hr
    cases (herror hr).symm.trans ht

/-- The hints that a text resolves to can be come by. -/
theorem given_of_ofHint {source : String} {origin : Origin}
    (h : ResolvedHint.ofHint env.ns (.text source) origin = .ok ann) : env.Given aliases ann := by
  obtain ⟨type, htype, h⟩ := ResolvedHint.ofHint_eq_ok_iff.1 h
  have hover : (Hint.text source).Over env.hierarchy aliases := trivial
  exact .evaluated hover htype h

end BuildEnv

/-! ## A sample with unions -/

namespace Sample

def cat : ClassRef := ⟨6, "Cat"⟩

def dog : ClassRef := ⟨7, "Dog"⟩

def owner : ClassRef := ⟨8, "Owner"⟩

def shelter : ClassRef := ⟨9, "Shelter"⟩

def town : ClassRef := ⟨10, "Town"⟩

def kennel : ClassRef := ⟨11, "Kennel"⟩

/-- An object class with one field. -/
def objectWith (name field hint : String) : ClassDef :=
  { (ClassDef.named name).annotate field (.text hint) with capabilities := { object := true } }

/-- The classes of a town in their order: an owner may have a pet, a cat or a dog, and a shelter has
the same two for guests without calling them pets. -/
def townDeclarations : List ClassDef :=
  [objectWith "Cat" "lives" "int", objectWith "Dog" "tricks" "int",
    objectWith "Owner" "pet" "Optional[Pet]",
    objectWith "Shelter" "guest" "Optional[Union[Cat, Dog]]",
    (objectWith "Town" "owner" "Owner").annotate "shelter" (.text "Shelter"),
    objectWith "Kennel" "pets" "Union[Pets]"]

/-- The names of the classes and of some types of pets. -/
def townNames : Namespace :=
  ⟨[("Cat", .expr (.cls cat)), ("Dog", .expr (.cls dog)), ("Owner", .expr (.cls owner)),
    ("Shelter", .expr (.cls shelter)), ("Pet", .text "Union[Cat, Dog]"),
    ("Pets", .text "List[Union[Cat, Dog]]"), ("Stray", .text "Union[Cat, Dict[str, int]]")]⟩

def townEnv : BuildEnv := ⟨townDeclarations.foldl Hierarchy.declare .builtin, townNames, {}⟩

theorem wellFormed_town_of {aliases : AliasTable}
    (hid : aliases 0 = some ("ID", .cls .str))
    (hsup : ∀ {id name s}, aliases id = some (name, s) → s.Over townEnv.hierarchy aliases) :
    townEnv.WellFormed aliases where
  hierarchy := by
    have hnone := @Hierarchy.has_of_no_bases
    exact .declare (.declare (.declare (.declare (.declare (.declare .builtin (hnone rfl))
      (hnone rfl)) (hnone rfl)) (hnone rfl)) (hnone rfl)) (hnone rfl)
  identifier := hid
  supertypes := hsup
  bindings {name hint} h := by
    have hmem := Keyed.mem_of_get? h
    simp only [townEnv, townNames, List.mem_cons, Prod.mk.injEq, List.not_mem_nil, or_false] at hmem
    rcases hmem with ⟨-, rfl⟩ | ⟨-, rfl⟩ | ⟨-, rfl⟩ | ⟨-, rfl⟩ | ⟨-, rfl⟩ | ⟨-, rfl⟩ | ⟨-, rfl⟩ <;>
      first | trivial | exact ⟨_, rfl, rfl⟩
  classes {d} hd := by
    have htexts : (townEnv.hierarchy.defs.all fun d =>
        (d.hints.all fun p => p.2.text?.isSome) && d.members.isEmpty) = true := by decide +kernel
    obtain ⟨hhints, hmembers⟩ := Bool.and_eq_true_iff.1 (List.all_eq_true.1 htexts d hd)
    exact ⟨ClassDef.over_of_texts hhints, by simp [List.isEmpty_iff.1 hmembers]⟩

theorem wellFormed_town : townEnv.WellFormed Sample.aliases :=
  wellFormed_town_of rfl (Sample.of_aliases ⟨_, rfl, rfl⟩)

/-- The graph after the translation of a textual hint in the town. -/
def met (source : String) (g : Graph) : Graph :=
  match ResolvedHint.ofHint townEnv.ns (.text source) ⟨"Town", "met"⟩ with
  | .ok ann => ((townEnv.translate ann).exec g).2
  | .error _ => g

theorem reachable_met {g : Graph} (h : townEnv.Reachable Sample.aliases g) (source : String) :
    townEnv.Reachable Sample.aliases (met source g) := by
  unfold met
  split
  · rename_i ann hann
    exact ReflTransGen.tail h (.translate g (BuildEnv.given_of_ofHint hann))
  · exact h

/-- A condition on a resolved hint that is optional over a union without a name. -/
def optionalUnnamed (p : ResolvedHint → Bool) : ResolvedHint → Bool
  | .optional head (.union head' members) =>
    !head'.isIdentified && p (.optional head (.union head' members))
  | _ => false

theorem exists_optionalUnnamed {p : ResolvedHint → Bool}
    (h : (ResolvedHint.ofHint townEnv.ns (.text "Optional[Union[Cat, Dog]]")
      ⟨"Shelter", "guest"⟩).toOption.any (optionalUnnamed p) = true) :
    ∃ ann head members, townEnv.Given Sample.aliases ann ∧ townEnv.Wraps ann (.union head members) ∧
      head.isIdentified = false ∧ p ann = true := by
  obtain ⟨ann, hann, hp⟩ := exists_ok_of_any h
  unfold optionalUnnamed at hp
  split at hp
  · rename_i head head' members
    obtain ⟨hid, hp⟩ := Bool.and_eq_true_iff.1 hp
    exact ⟨_, head', members, BuildEnv.given_of_ofHint hann, .single ⟨_, rfl⟩, by simpa using hid, hp⟩
  · cases hp

/-- At first the guests of a shelter are refused. -/
theorem translate_unnamed_guest :
    ∃ ann head members, townEnv.Wraps ann (.union head members) ∧ head.isIdentified = false ∧
      (townEnv.translate ann).exec {} = (.error head.unnamed, {}) := by
  obtain ⟨ann, head, members, -, hover, hid, -⟩ := exists_optionalUnnamed (p := fun _ => true)
    (by decide +kernel)
  refine ⟨ann, head, members, hover, hid, (BuildEnv.translate_unnamed hover hid {}).1.2 ?_⟩
  rintro ⟨layer, t, -, -, -, ht⟩
  cases ht

/-- Once optional pets were met, the guests of a shelter are not refused any more. -/
theorem unnamed_accepted :
    ¬ ∀ g ann head members, townEnv.Reachable Sample.aliases g →
      townEnv.Given Sample.aliases ann → townEnv.Wraps ann (.union head members) →
      head.isIdentified = false → ((townEnv.translate ann).exec g).1 = .error head.unnamed := by
  intro hall
  obtain ⟨ann, head, members, hann, hover, hid, hok⟩ :=
    exists_optionalUnnamed
      (p := fun ann => ((townEnv.translate ann).exec (met "Optional[Pet]" {})).1.toOption.isSome)
      (by decide +kernel)
  have herror := hall _ ann head members (reachable_met .refl "Optional[Pet]") hann hover hid
  rw [herror] at hok
  cases hok

end Sample

end HintSchema
