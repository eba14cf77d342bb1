import Mathlib
import HintSchema.Proofs.Sites

/-!
# References that stay unresolved

Evaluation resolves every reference of a type but for those in the supertypes of aliases, which it
takes over as they are (`Namespace.not_standsIn_of_eval`).  Resolving a type goes below aliases as
well, so a reference that an alias hides stops it (`ResolvedHint.ofExpr_of_eval`): nothing else
leaves a reference unresolved, and a type that hides one is never resolved.
-/

namespace HintSchema

namespace TypeExpr

variable {d e : TypeExpr} {es : List TypeExpr} {seen : List TypeKey} {source : String}

/-! ## References -/

/-- A type stands in another one: as that type, or in a member or an argument of it. -/
inductive StandsIn (d : TypeExpr) : TypeExpr → Prop
  | self : StandsIn d d
  | member {members : List TypeExpr} {e : TypeExpr} :
      e ∈ members → StandsIn d e → StandsIn d (.union members)
  | arg {kind : GenericKind} {args : List TypeExpr} {e : TypeExpr} :
      e ∈ args → StandsIn d e → StandsIn d (.generic kind args)

mutual

/-- The references of a type, those in the supertypes of its aliases included. -/
def references : TypeExpr → List String
  | .forward source => [source]
  | .union members => referencesOf members
  | .generic _ args => referencesOf args
  | .aliasOf _ _ supertype => supertype.references
  | .cls _ | .noneType => []

/-- The references of the types of a list. -/
def referencesOf : List TypeExpr → List String
  | [] => []
  | e :: rest => e.references ++ referencesOf rest

end

/-- An alias in a type has a reference at the end of its chain of supertypes. -/
def Hides (e : TypeExpr) (source : String) : Prop :=
  ∃ id name supertype, (aliasOf id name supertype).StandsIn e ∧
    source ∈ supertype.ultimate.references

theorem mem_referencesOf : source ∈ referencesOf es ↔ ∃ e ∈ es, source ∈ e.references := by
  induction es with
  | nil => simp [referencesOf]
  | cons e rest ih => simp [referencesOf, ih]

theorem references_ultimate : ∀ e : TypeExpr, e.ultimate.references = e.references
  | .aliasOf _ _ supertype => references_ultimate supertype
  | .cls _ | .noneType | .union _ | .generic _ _ | .forward _ => rfl

theorem StandsIn.references_subset (h : d.StandsIn e) : d.references ⊆ e.references := by
  induction h with
  | self => exact List.Subset.refl _
  | member hmem _ ih | arg hmem _ ih => exact fun s hs => mem_referencesOf.2 ⟨_, hmem, ih hs⟩

mutual

/-- A reference stands in a type itself or is hidden by an alias. -/
theorem standsIn_or_hides : ∀ {e : TypeExpr} {source : String}, source ∈ e.references →
    (forward source).StandsIn e ∨ e.Hides source
  | .forward _, source, h => by
    obtain rfl := List.mem_singleton.1 h
    exact .inl .self
  | .aliasOf id name supertype, source, h =>
    .inr ⟨id, name, supertype, .self, (references_ultimate supertype).symm ▸ h⟩
  | .union members, source, h => by
    obtain ⟨e, he, hin | ⟨id, name, s, hin, hs⟩⟩ := exists_standsIn_or_hides h
    · exact .inl (.member he hin)
    · exact .inr ⟨id, name, s, .member he hin, hs⟩
  | .generic _ args, source, h => by
    obtain ⟨e, he, hin | ⟨id, name, s, hin, hs⟩⟩ := exists_standsIn_or_hides h
    · exact .inl (.arg he hin)
    · exact .inr ⟨id, name, s, .arg he hin, hs⟩

theorem exists_standsIn_or_hides : ∀ {es : List TypeExpr} {source : String},
    source ∈ referencesOf es → ∃ e ∈ es, (forward source).StandsIn e ∨ e.Hides source
  | e :: rest, source, h => by
    rcases List.mem_append.1 h with h | h
    · exact ⟨e, List.mem_cons_self, standsIn_or_hides h⟩
    · obtain ⟨e, he, h⟩ := exists_standsIn_or_hides h
      exact ⟨e, List.mem_cons_of_mem _ he, h⟩

end

theorem Hides.mem_references (h : e.Hides source) : source ∈ e.references := by
  obtain ⟨id, name, supertype, hin, hs⟩ := h
  rw [references_ultimate] at hs
  exact hin.references_subset hs

/-! ## Evaluated types -/

theorem exists_of_standsIn_members {m : TypeExpr} (hm : m ∈ e.members) (h : d.StandsIn m) :
    d.StandsIn e := by
  cases e with
  | union members => exact .member hm h
  | _ => exact List.mem_singleton.1 hm ▸ h

/-- What is neither a union nor the collapsed union itself stands in a member of a union. -/
theorem exists_of_standsIn_unionOf (hd : d.isUnion = false) (h : d.StandsIn (unionOf es)) :
    ∃ e ∈ es, d.StandsIn e := by
  have hmem : ∀ m ∈ distinct [] (es.flatMap members), ∀ d : TypeExpr, d.StandsIn m →
      ∃ e ∈ es, d.StandsIn e := by
    intro m hm d hin
    obtain ⟨e, he, hme⟩ := List.mem_flatMap.1 (mem_of_mem_distinct hm)
    exact ⟨e, he, exists_of_standsIn_members hme hin⟩
  unfold unionOf at h
  generalize distinct [] (es.flatMap members) = ms at hmem h
  match ms with
  | [only] => exact hmem only List.mem_cons_self d h
  | [] | _ :: _ :: _ =>
    cases h with
    | self => cases hd
    | member hm h => exact hmem _ hm d h

theorem evalClosed_not_standsIn (source : String) :
    EvalClosed fun e => ¬ (forward source).StandsIn e where
  union hes h := by
    obtain ⟨e, he, h⟩ := exists_of_standsIn_unionOf rfl h
    exact hes e he h
  generic hes h := by
    cases h with
    | arg he h => exact hes _ he h
  noneType h := by cases h
  builtin {name e} he h := by
    unfold builtin? at he
    split_ifs at he <;> cases he <;> cases h

theorem evalClosed_references : EvalClosed fun e => e.references = [] where
  union {es} hes := by
    refine List.eq_nil_iff_forall_not_mem.2 fun source hsource => ?_
    rcases standsIn_or_hides hsource with hin | ⟨id, name, supertype, hin, hs⟩
    · obtain ⟨e, he, hin⟩ := exists_of_standsIn_unionOf rfl hin
      exact List.not_mem_nil (hes e he ▸ hin.references_subset (List.mem_singleton_self source))
    · obtain ⟨e, he, hin⟩ := exists_of_standsIn_unionOf rfl hin
      have hmem := Hides.mem_references ⟨id, name, supertype, hin, hs⟩
      exact List.not_mem_nil (hes e he ▸ hmem)
  generic {kind es} hes := by
    refine List.eq_nil_iff_forall_not_mem.2 fun source hsource => ?_
    obtain ⟨e, he, hmem⟩ := mem_referencesOf.1 hsource
    exact List.not_mem_nil (hes e he ▸ hmem)
  noneType := rfl
  builtin {name e} he := by
    unfold builtin? at he
    split_ifs at he <;> cases he <;> rfl

end TypeExpr

/-- Evaluation leaves no reference in a type, those that aliases hide apart. -/
theorem Namespace.not_standsIn_of_eval {ns : Namespace} {hint : Hint} {e : TypeExpr}
    (he : ns.eval hint = .ok e) (source : String) : ¬ (TypeExpr.forward source).StandsIn e := by
  have hleaves : ∀ hint : Hint, hint.Leaves fun e => ¬ (TypeExpr.forward source).StandsIn e := by
    intro hint
    cases hint with
    | text _ => trivial
    | expr type => exact TypeExpr.leaves_of_forall (fun _ => nofun) (fun _ _ _ => nofun) type
  exact results_evalHint (TypeExpr.evalClosed_not_standsIn source) (fun _ => hleaves _) _ _
    (hleaves hint) e he

namespace TypeExpr

/-! ## Shapes -/

mutual

/-- Whether each union of a type, the supertypes of aliases included, has a member besides the
absent value, and each subscripted type in it is a sequence of one element type. -/
def isShaped : TypeExpr → Bool
  | .union members => members.any (!·.isNone) && areShaped members
  | .generic kind args => kind.isSequence && args.length == 1 && areShaped args
  | .aliasOf _ _ supertype => supertype.isShaped
  | .cls _ | .noneType | .forward _ => true

/-- Whether the types of a list have all shapes that resolve. -/
def areShaped : List TypeExpr → Bool
  | [] => true
  | e :: rest => e.isShaped && areShaped rest

end

end TypeExpr

namespace ResolvedHint

/-- The failure of resolving a reference. -/
def unresolved (source : String) (origin : Option Origin) : SchemaError :=
  .malformed (TypeExpr.forward source).text .unresolvedForward origin

/-- A failure that is due to a reference among some, or that comes with another cause. -/
def Stops (references : List String) (shaped : Bool) (origin : Option Origin) (e : SchemaError) :
    Prop :=
  (∃ source ∈ references, e = unresolved source origin) ∨
    shaped = false ∧ ∀ text site, e ≠ .malformed text .unresolvedForward site

theorem Stops.mono {references references' : List String} {shaped shaped' : Bool}
    {origin : Option Origin} {e : SchemaError} (h : Stops references shaped origin e)
    (hrefs : references ⊆ references') (hshaped : shaped = false → shaped' = false) :
    Stops references' shaped' origin e :=
  h.imp (fun ⟨source, hs, he⟩ => ⟨source, hrefs hs, he⟩) fun ⟨hs, he⟩ => ⟨hshaped hs, he⟩

mutual

/-- Resolving stops at a reference or at a shape that does not resolve. -/
theorem failsOnly_stops (raw : Option Hint) (origin : Option Origin) : ∀ e : TypeExpr,
    FailsOnly (Stops e.references e.isShaped origin) (ofExpr raw origin e)
  | .cls _ | .noneType => failsOnly_ok _
  | .forward source => failsOnly_error (.inl ⟨source, List.mem_singleton_self _, rfl⟩)
  | .aliasOf _ _ supertype => by
    unfold ofExpr
    exact (failsOnly_stops none origin supertype).bind fun _ _ => failsOnly_ok _
  | .generic kind args => by
    unfold ofExpr
    dsimp only
    split_ifs with hkind
    · match args with
      | [element] =>
        refine FailsOnly.bind ?_ fun _ _ => failsOnly_ok _
        refine (failsOnly_stops _ origin element).mono fun e he => he.mono ?_ fun hs => ?_
        · simp [TypeExpr.references, TypeExpr.referencesOf]
        · simp [TypeExpr.isShaped, TypeExpr.areShaped, hs]
      | [] => exact failsOnly_error (.inr ⟨by simp [TypeExpr.isShaped], by rintro _ _ ⟨⟩⟩)
      | _ :: _ :: _ => exact failsOnly_error (.inr ⟨by simp [TypeExpr.isShaped], by rintro _ _ ⟨⟩⟩)
    · exact failsOnly_error (.inr ⟨by simp [TypeExpr.isShaped, hkind], by rintro _ _ ⟨⟩⟩)
  | .union members => by
    unfold ofExpr
    dsimp only
    split_ifs with hempty
    · refine failsOnly_error (.inr ⟨?_, by rintro _ _ ⟨⟩⟩)
      have hnone : members.any (!·.isNone) = false := by simpa [List.isEmpty_iff] using hempty
      rw [TypeExpr.isShaped, hnone, Bool.false_and]
    all_goals
      refine FailsOnly.bind ?_ fun _ _ => failsOnly_ok _
      refine (failsOnly_stops_members _ origin members).mono fun e he => he.mono ?_ fun hs => ?_
      · exact List.Subset.refl _
      · rw [TypeExpr.isShaped, hs, Bool.and_false]

theorem failsOnly_stops_members (raws : List (Option Hint)) (origin : Option Origin) :
    ∀ es : List TypeExpr, FailsOnly
      (Stops (TypeExpr.referencesOf es) (TypeExpr.areShaped es) origin) (ofMembers raws origin es)
  | [] => failsOnly_ok _
  | e :: rest => by
    have hrest : ∀ raws, FailsOnly (Stops (TypeExpr.referencesOf (e :: rest))
        (TypeExpr.areShaped (e :: rest)) origin) (ofMembers raws origin rest) := fun raws =>
      (failsOnly_stops_members raws origin rest).mono fun err herr =>
        herr.mono (List.subset_append_right ..) fun hs => by
          rw [TypeExpr.areShaped, hs, Bool.and_false]
    unfold ofMembers
    split_ifs
    · exact hrest raws
    · refine FailsOnly.bind ?_ fun _ _ => (hrest _).bind fun _ _ => failsOnly_ok _
      refine (failsOnly_stops _ origin e).mono fun err herr =>
        herr.mono (List.subset_append_left ..) fun hs => ?_
      rw [TypeExpr.areShaped, hs, Bool.false_and]

end

mutual

/-- What is resolved has no reference left, and only shapes that resolve. -/
theorem shaped_of_ofExpr {raw : Option Hint} {origin : Option Origin} :
    ∀ {e : TypeExpr} {ann : ResolvedHint}, ofExpr raw origin e = .ok ann →
      e.isShaped = true ∧ e.references = []
  | .cls _, _, _ | .noneType, _, _ => ⟨rfl, rfl⟩
  | .forward _, _, h => by cases h
  | .aliasOf _ _ supertype, _, h => by
    unfold ofExpr at h
    obtain ⟨base, hbase, -⟩ := ok_of_bind h
    rw [TypeExpr.isShaped, TypeExpr.references]
    exact shaped_of_ofExpr hbase
  | .generic kind [element], _, h => by
    unfold ofExpr at h
    split_ifs at h with hkind
    obtain ⟨inner, hinner, -⟩ := ok_of_bind h
    obtain ⟨hs, hrefs⟩ := shaped_of_ofExpr hinner
    simp [TypeExpr.isShaped, TypeExpr.areShaped, TypeExpr.references, TypeExpr.referencesOf, hkind,
      hs, hrefs]
  | .generic kind [], _, h => by
    unfold ofExpr at h
    split_ifs at h
  | .generic kind (_ :: _ :: _), _, h => by
    rw [ofExpr] at h
    · split_ifs at h
    all_goals simp
  | .union es, _, h => by
    unfold ofExpr at h
    dsimp only at h
    split_ifs at h with hempty <;> obtain ⟨members, hmembers, -⟩ := ok_of_bind h <;>
      obtain ⟨hs, hrefs⟩ := shaped_of_ofMembers hmembers
    all_goals
      refine ⟨?_, hrefs⟩
      have hsome : es.any (!·.isNone) = true := by simpa [List.isEmpty_iff] using hempty
      rw [TypeExpr.isShaped, hsome, hs, Bool.true_and]

theorem shaped_of_ofMembers {raws : List (Option Hint)} {origin : Option Origin} :
    ∀ {es : List TypeExpr} {members : List ResolvedHint}, ofMembers raws origin es = .ok members →
      TypeExpr.areShaped es = true ∧ TypeExpr.referencesOf es = []
  | [], _, _ => ⟨rfl, rfl⟩
  | e :: rest, _, h => by
    unfold ofMembers at h
    split_ifs at h with hnone
    · obtain ⟨hs, hrefs⟩ := shaped_of_ofMembers h
      cases e with
      | noneType => exact ⟨hs, hrefs⟩
      | _ => cases hnone
    · obtain ⟨ann, hann, h⟩ := ok_of_bind h
      obtain ⟨anns, hanns, -⟩ := ok_of_bind h
      obtain ⟨hs, hrefs⟩ := shaped_of_ofExpr hann
      obtain ⟨hs', hrefs'⟩ := shaped_of_ofMembers hanns
      rw [TypeExpr.areShaped, TypeExpr.referencesOf, hs, hs', hrefs, hrefs']
      exact ⟨rfl, rfl⟩

end

/-! ## Resolving what was evaluated -/

variable {ns : Namespace} {hint : Hint} {e : TypeExpr}

theorem mem_references_iff_of_eval (he : ns.eval hint = .ok e) {source : String} :
    source ∈ e.references ↔ e.Hides source := by
  refine ⟨fun h => ?_, TypeExpr.Hides.mem_references⟩
  exact (TypeExpr.standsIn_or_hides h).resolve_left (Namespace.not_standsIn_of_eval he source)

/-- An evaluated type is resolved when all its shapes resolve and no alias in it hides a reference,
as none does whose aliases were declared without references.  Resolving fails at a reference only if
it is hidden, and where all shapes resolve it does fail at a hidden one. -/
theorem ofExpr_of_eval (he : ns.eval hint = .ok e) (raw : Option Hint) (origin : Option Origin) :
    (∀ source, ¬ (TypeExpr.forward source).StandsIn e) ∧
    (hint.Leaves (·.references = []) → (∀ {name bound}, ns.get? name = some bound →
      bound.Leaves (·.references = [])) → ∀ source, ¬ e.Hides source) ∧
    ((∃ ann, ofExpr raw origin e = .ok ann) ↔ e.isShaped = true ∧ ∀ source, ¬ e.Hides source) ∧
    (∀ text site, ofExpr raw origin e = .error (.malformed text .unresolvedForward site) →
      ∃ source, e.Hides source ∧ text = (TypeExpr.forward source).text ∧ site = origin) ∧
    (e.isShaped = true → (∃ source, e.Hides source) →
      ∃ source, e.Hides source ∧ ofExpr raw origin e = .error (unresolved source origin)) := by
  have hmem : ∀ source, source ∈ e.references ↔ e.Hides source :=
    fun _ => mem_references_iff_of_eval he
  have hfails := failsOnly_stops raw origin e
  refine ⟨Namespace.not_standsIn_of_eval he, ?_, ⟨?_, ?_⟩, ?_, ?_⟩
  · intro hhint hns source hsource
    have hrefs := Namespace.results_evalHint TypeExpr.evalClosed_references hns _ _ hhint e he
    exact List.not_mem_nil (hrefs ▸ hsource.mem_references)
  · rintro ⟨ann, hann⟩
    obtain ⟨hs, hrefs⟩ := shaped_of_ofExpr hann
    exact ⟨hs, fun source h => List.not_mem_nil (hrefs ▸ (hmem source).2 h)⟩
  · rintro ⟨hs, hnone⟩
    cases hr : ofExpr raw origin e with
    | ok ann => exact ⟨ann, rfl⟩
    | error err =>
      rcases hfails err hr with ⟨source, hsource, -⟩ | ⟨hs', -⟩
      · exact absurd ((hmem source).1 hsource) (hnone source)
      · rw [hs] at hs'
        cases hs'
  · intro text site hr
    rcases hfails _ hr with ⟨source, hsource, heq⟩ | ⟨-, hne⟩
    · cases heq
      exact ⟨source, (hmem source).1 hsource, rfl, rfl⟩
    · exact absurd rfl (hne text site)
  · rintro hs ⟨source, hsource⟩
    cases hr : ofExpr raw origin e with
    | ok ann =>
      obtain ⟨-, hrefs⟩ := shaped_of_ofExpr hr
      exact absurd ((hmem source).2 hsource) (hrefs ▸ List.not_mem_nil)
    | error err =>
      rcases hfails err hr with ⟨source', hsource', rfl⟩ | ⟨hs', -⟩
      · exact ⟨source', (hmem source').1 hsource', rfl⟩
      · rw [hs] at hs'
        cases hs'

end ResolvedHint

namespace Sample

/-- An alias of an alias of lists of cats, which are referred to by name. -/
def litter : TypeExpr :=
  .aliasOf 2 "Litter" (.aliasOf 1 "Cats" (.listOf (.forward "Cat")))

/-- The names of the town and one for litters. -/
def litterNames : Namespace := townNames.bind "Litter" (.expr litter)

/-- The cats of a litter stay unresolved below its name. -/
theorem ofExpr_litter : ∃ source, TypeExpr.Hides (.optional litter) source ∧
    ResolvedHint.ofExpr (some (.text "Optional['Litter']")) none (.optional litter) =
      .error (ResolvedHint.unresolved source none) := by
  have heval : litterNames.eval (.text "Optional['Litter']") = .ok (.optional litter) := by cbv
  have hin : litter.StandsIn (.optional litter) := .member List.mem_cons_self .self
  exact (ResolvedHint.ofExpr_of_eval heval _ none).2.2.2.2 (by decide)
    ⟨"Cat", 2, "Litter", _, hin, List.mem_singleton_self _⟩

/-- The name of cats is bound, and still a litter evaluates to a type that does not resolve. -/
theorem litter_unresolved : litterNames.eval (.text "Cat") = .ok (.cls cat) ∧
    ¬ ∀ (ns : Namespace) (hint : Hint) (e : TypeExpr) (origin : Option Origin),
      ns.eval hint = .ok e → ∀ text site, ResolvedHint.ofExpr (some hint) origin e ≠
        .error (.malformed text .unresolvedForward site) := by
  refine ⟨by cbv, fun hall => ?_⟩
  have heval : litterNames.eval (.text "Litter") = .ok litter := by cbv
  exact hall litterNames (.text "Litter") litter none heval "'Cat'" none (by cbv)

end Sample

end HintSchema
