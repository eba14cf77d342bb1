import HintSchema.Proofs.Nesting
import HintSchema.Proofs.Transparency
import HintSchema.Proofs.Unresolved

/-!
# Canonical trees

A type is resolved unless one of the types that lie in it is refused by itself
(`TypeExpr.Refused`): an unresolved reference, a subscript that is no sequence of one element type, or
a union of nothing but absence.  If all unions in a type are normal, those below aliases included,
its tree is canonical (`ResolvedHint.Canonical`): absence and aliases are single layers, what stands
in a union stands there itself, and the type of a node is built again from those of its children.
Both are `ResolvedHint.canonical_of_ofExpr`.
-/

namespace HintSchema

namespace TypeExpr

variable {d e : TypeExpr} {es : List TypeExpr}

/-! ## Types in a type -/

/-- A type lies in another one: as that type, in a member or an argument of it, or in the type at the
end of the chain of supertypes of an alias. -/
inductive LiesIn (d : TypeExpr) : TypeExpr → Prop
  | self : LiesIn d d
  | member {members : List TypeExpr} {e : TypeExpr} :
      e ∈ members → LiesIn d e → LiesIn d (.union members)
  | arg {kind : GenericKind} {args : List TypeExpr} {e : TypeExpr} :
      e ∈ args → LiesIn d e → LiesIn d (.generic kind args)
  | supertype {id : Nat} {name : String} {supertype : TypeExpr} :
      LiesIn d supertype.ultimate → LiesIn d (.aliasOf id name supertype)

/-- The types that do not resolve, whatever lies in them. -/
inductive Refused : TypeExpr → Prop
  | reference (source : String) : Refused (.forward source)
  | noSequence {kind : GenericKind} {args : List TypeExpr} :
      kind.isSequence = false → Refused (.generic kind args)
  | elements {kind : GenericKind} {args : List TypeExpr} :
      kind.isSequence = true → args.length ≠ 1 → Refused (.generic kind args)
  | nothing {members : List TypeExpr} :
      (∀ m ∈ members, m.isNone = true) → Refused (.union members)

/-- A type in which all unions are normal, below its aliases as well. -/
def NormalThroughout (e : TypeExpr) : Prop := ∀ d : TypeExpr, d.LiesIn e → d.Normal

theorem normalThroughout_cls (c : ClassRef) : (cls c).NormalThroughout := by
  rintro _ ⟨⟩
  trivial

theorem normalThroughout_noneType : noneType.NormalThroughout := by
  rintro _ ⟨⟩
  trivial

theorem NormalThroughout.union (hn : (union es).Normal) (h : ∀ e ∈ es, e.NormalThroughout) :
    (union es).NormalThroughout := by
  intro d hd
  cases hd with
  | self => exact hn
  | member he hd => exact h _ he d hd

theorem NormalThroughout.generic (kind : GenericKind) (h : ∀ e ∈ es, e.NormalThroughout) :
    (generic kind es).NormalThroughout := by
  intro d hd
  cases hd with
  | self => exact normalAll_iff.2 fun e he => h e he e .self
  | arg he hd => exact h _ he d hd

theorem NormalThroughout.aliasOf (id : Nat) (name : String)
    (h : e.ultimate.NormalThroughout) : (aliasOf id name e).NormalThroughout := by
  intro d hd
  cases hd with
  | self => trivial
  | supertype hd => exact h d hd

/-- The present members of a union that is normal throughout are a union of that kind too, unless only
one is present. -/
theorem NormalThroughout.present (h : (TypeExpr.union es).NormalThroughout)
    (hlen : (es.filter (!·.isNone)).length ≠ 1) :
    (TypeExpr.union (es.filter (!·.isNone))).NormalThroughout := by
  obtain ⟨hall, hflat, hnodup, -⟩ := h _ .self
  have hmem : ∀ {m}, m ∈ es.filter (!·.isNone) → m ∈ es := fun hm => (List.mem_filter.1 hm).1
  refine .union ⟨normalAll_iff.2 fun m hm => ?_, fun m hm => hflat m (hmem hm), ?_, hlen⟩
    fun m hm d hd => h d (.member (hmem hm) hd)
  · exact normalAll_iff.1 hall m (hmem hm)
  · rw [keys_eq_map] at hnodup ⊢
    exact hnodup.sublist ((List.filter_sublist).map key)

/-- The present members of a union that is normal throughout are a union of that kind too, or of just
one type of that kind. -/
theorem NormalThroughout.present_cases (h : (TypeExpr.union es).NormalThroughout) :
    (TypeExpr.union (es.filter (!·.isNone))).NormalThroughout ∨
      ∃ only, TypeExpr.union (es.filter (!·.isNone)) = .union [only] ∧ only.NormalThroughout := by
  by_cases hlen : (es.filter (!·.isNone)).length = 1
  · obtain ⟨only, honly⟩ := List.length_eq_one_iff.1 hlen
    have hmem : only ∈ es.filter (!·.isNone) := by simp [honly]
    exact .inr ⟨only, by rw [honly], fun d hd => h d (.member (List.mem_filter.1 hmem).1 hd)⟩
  · exact .inl (h.present hlen)

/-! ## Types that are refused -/

theorem Refused.not_alias (h : d.Refused) : d.isAlias = false := by
  cases h <;> rfl

/-- What lies in a type lies at the end of its chain of supertypes, aliases of the chain apart. -/
theorem LiesIn.ultimate (h : d.LiesIn e) (hd : d.isAlias = false) : d.LiesIn e.ultimate := by
  cases h with
  | self =>
    cases d with
    | aliasOf => cases hd
    | _ => exact .self
  | member hm h => exact .member hm h
  | arg ha h => exact .arg ha h
  | supertype h => exact h

theorem areShaped_iff : areShaped es = true ↔ ∀ e ∈ es, e.isShaped = true := by
  induction es with
  | nil => simp [areShaped]
  | cons e rest ih => simp [areShaped, ih]

theorem isShaped_present (h : (union es).isShaped = true) :
    (union (es.filter (!·.isNone))).isShaped = true := by
  rw [isShaped, Bool.and_eq_true, areShaped_iff] at h ⊢
  refine ⟨by simpa using h.1, fun m hm => ?_⟩
  exact h.2 m (List.mem_filter.1 hm).1

theorem isShaped_ultimate : ∀ e : TypeExpr, e.ultimate.isShaped = e.isShaped
  | .aliasOf _ _ supertype => isShaped_ultimate supertype
  | .cls _ | .noneType | .union _ | .generic _ _ | .forward _ => rfl

theorem referencesOf_eq_nil_iff : referencesOf es = [] ↔ ∀ e ∈ es, e.references = [] := by
  induction es with
  | nil => simp [referencesOf]
  | cons e rest ih => simp [referencesOf, ih]

/-- Nothing that is refused lies in a type of shapes that resolve without references. -/
theorem LiesIn.not_refused (h : d.LiesIn e) (hshaped : e.isShaped = true)
    (hrefs : e.references = []) : ¬ d.Refused := by
  induction h with
  | self =>
    rintro (source | hkind | ⟨-, hlen⟩ | hnone)
    · cases hrefs
    · simp [isShaped, hkind] at hshaped
    · simp [isShaped, hlen] at hshaped
    · rw [isShaped, Bool.and_eq_true, List.any_eq_true] at hshaped
      obtain ⟨m, hm, hsome⟩ := hshaped.1
      simp [hnone m hm] at hsome
  | member hm _ ih =>
    rw [isShaped, Bool.and_eq_true] at hshaped
    exact ih (areShaped_iff.1 hshaped.2 _ hm) (referencesOf_eq_nil_iff.1 hrefs _ hm)
  | arg ha _ ih =>
    rw [isShaped, Bool.and_eq_true] at hshaped
    exact ih (areShaped_iff.1 hshaped.2 _ ha) (referencesOf_eq_nil_iff.1 hrefs _ ha)
  | @supertype id name supertype _ ih =>
    apply ih
    · rwa [isShaped_ultimate]
    · rwa [references_ultimate]

mutual

/-- A type in which nothing lies that is refused has shapes that resolve and no references. -/
theorem shaped_of_not_refused : ∀ {e : TypeExpr}, (∀ d : TypeExpr, d.LiesIn e → ¬ d.Refused) →
    e.isShaped = true ∧ e.references = []
  | .cls _, _ | .noneType, _ => ⟨rfl, rfl⟩
  | .forward source, h => absurd (.reference source) (h _ .self)
  | .aliasOf _ _ supertype, h => by
    have hsuper : ∀ d : TypeExpr, d.LiesIn supertype → ¬ d.Refused := fun d hd hrefused =>
      h d (.supertype (hd.ultimate hrefused.not_alias)) hrefused
    exact shaped_of_not_refused (e := supertype) hsuper
  | .union members, h => by
    obtain ⟨hshaped, hrefs⟩ :=
      @shapedAll_of_not_refused members fun m hm d hd => h d (.member hm hd)
    refine ⟨?_, hrefs⟩
    rw [isShaped, hshaped, Bool.and_true]
    by_contra hsome
    rw [List.any_eq_true] at hsome
    refine h _ .self (.nothing fun m hm => ?_)
    by_contra hm'
    exact hsome ⟨m, hm, by simpa using hm'⟩
  | .generic kind args, h => by
    obtain ⟨hshaped, hrefs⟩ :=
      @shapedAll_of_not_refused args fun a ha d hd => h d (.arg ha hd)
    refine ⟨?_, hrefs⟩
    by_cases hkind : kind.isSequence = true
    · by_cases hlen : args.length = 1
      · simp [isShaped, hkind, hlen, hshaped]
      · exact absurd (.elements hkind hlen) (h _ .self)
    · exact absurd (.noSequence (by simpa using hkind)) (h _ .self)

theorem shapedAll_of_not_refused : ∀ {es : List TypeExpr},
    (∀ e ∈ es, ∀ d : TypeExpr, d.LiesIn e → ¬ d.Refused) → areShaped es = true ∧ referencesOf es = []
  | [], _ => ⟨rfl, rfl⟩
  | e :: rest, h => by
    obtain ⟨he, hrest⟩ := List.forall_mem_cons.1 h
    obtain ⟨hshaped, hrefs⟩ := shaped_of_not_refused he
    obtain ⟨hshaped', hrefs'⟩ := shapedAll_of_not_refused hrest
    rw [areShaped, referencesOf, hshaped, hshaped', hrefs, hrefs']
    exact ⟨rfl, rfl⟩

end

/-! ## Absence -/

theorem allowsNone_of_isUnion (h : e.isUnion = false) : e.allowsNone = false := by
  cases e with
  | union => cases h
  | _ => rfl

/-- The key of a union does not tell where the absent value stands among its members. -/
theorem key_union_absent (h : es.any isNone = true) :
    (union (es.filter (!·.isNone) ++ [.noneType])).key = (union es).key := by
  rw [key_union, key_union, TypeKey.ofMembers_inj]
  intro k
  rw [List.map_append, List.mem_append, List.map_singleton, List.mem_singleton]
  constructor
  · rintro (hk | rfl)
    · exact ((List.filter_sublist).map key).subset hk
    · exact any_isNone_iff.1 h
  · intro hk
    obtain ⟨m, hm, rfl⟩ := List.mem_map.1 hk
    by_cases hnone : m.isNone = true
    · cases m with
      | noneType => exact .inr rfl
      | _ => cases hnone
    · exact .inl (List.mem_map_of_mem (List.mem_filter.2 ⟨hm, by simpa using hnone⟩))

end TypeExpr

namespace ResolvedHint

/-- Whether a hint is an alias itself. -/
def isAlias : ResolvedHint → Bool
  | .aliasOf .. => true
  | _ => false

/-- Trees without layers that could be left out, in which the type of each node follows from those
of its children but for the order and the repetition of members. -/
inductive Canonical : ResolvedHint → Prop
  | cls {head : ResolvedHead} {c : ClassRef} : head.resolved = .cls c → Canonical (.cls head c)
  | noneType {head : ResolvedHead} : head.resolved = .noneType → Canonical (.cls head .noneType)
  | list {head : ResolvedHead} {kind : GenericKind} {element : ResolvedHint} :
      kind.isSequence = true →
      head.resolved.key = (TypeExpr.generic kind [element.head.resolved]).key →
      Canonical element → Canonical (.list head element)
  | optional {head : ResolvedHead} {inner : ResolvedHint} :
      inner.isOptional = false →
      head.resolved.key = (TypeExpr.unionOf [inner.head.resolved, .noneType]).key →
      Canonical inner → Canonical (.optional head inner)
  | union {head : ResolvedHead} {members : List ResolvedHint} :
      2 ≤ members.length →
      (∀ m ∈ members, m.isOptional = false ∧ m.isUnion = false ∧ m.head.resolved ≠ .noneType) →
      head.resolved.key = (TypeExpr.unionOf (members.map (·.head.resolved))).key →
      (∀ m ∈ members, Canonical m) → Canonical (.union head members)
  | aliasOf {head : ResolvedHead} {id : Nat} {name : String} {supertype : TypeExpr}
      {base : ResolvedHint} :
      head.resolved = .aliasOf id name supertype → base.isAlias = false →
      base.head.resolved.key = supertype.ultimate.key →
      Canonical base → Canonical (.aliasOf head base)

variable {e : TypeExpr} {es : List TypeExpr} {ann : ResolvedHint} {raw : Option Hint}
  {origin : Option Origin}

theorem exists_ofExpr_iff :
    (∃ ann, ofExpr raw origin e = .ok ann) ↔ ∀ d : TypeExpr, d.LiesIn e → ¬ d.Refused := by
  constructor
  · rintro ⟨ann, hann⟩ d hd
    obtain ⟨hshaped, hrefs⟩ := shaped_of_ofExpr hann
    exact hd.not_refused hshaped hrefs
  · intro h
    obtain ⟨hshaped, hrefs⟩ := TypeExpr.shaped_of_not_refused h
    cases hr : ofExpr raw origin e with
    | ok ann => exact ⟨ann, rfl⟩
    | error err =>
      rcases failsOnly_stops raw origin e err hr with ⟨source, hsource, -⟩ | ⟨hnot, -⟩
      · rw [hrefs] at hsource
        cases hsource
      · rw [hshaped] at hnot
        cases hnot

theorem Of.isAlias_eq (h : Of e ann) : ann.isAlias = ann.head.resolved.isAlias := by
  induction h with
  | cls hr | noneType hr | list hr | aliasOf hr | optional _ hr | union _ _ hr =>
    rw [ResolvedHint.head, hr]
    rfl
  | only _ _ ih => exact ih

/-- What is below an absence has the present members of the union. -/
theorem Of.members_of_present (h : Of (.union (es.filter (!·.isNone))) ann)
    (hn : (TypeExpr.union es).Normal) :
    ann.head.resolved.members = es.filter (!·.isNone) ∧ es.filter (!·.isNone) ≠ [] ∧
      ann.isOptional = false := by
  have hpresent := any_isNone_filter es
  have hflat : ∀ m ∈ es.filter (!·.isNone), m.Normal ∧ m.isUnion = false := fun m hm =>
    hn.members m (List.mem_filter.1 hm).1
  generalize es.filter (!·.isNone) = present at *
  cases h with
  | @only m _ _ h =>
    obtain ⟨hm, hunion⟩ := hflat m List.mem_cons_self
    have hresolved := h.resolved_eq hm
    rw [h.isOptional_eq, hresolved]
    refine ⟨TypeExpr.members_eq_self hunion, List.cons_ne_nil _ _, ?_⟩
    exact TypeExpr.allowsNone_of_isUnion hunion
  | optional hnone =>
    rw [hpresent] at hnone
    cases hnone
  | union _ hlen hr =>
    refine ⟨congrArg TypeExpr.members hr, ?_, rfl⟩
    rintro rfl
    simp at hlen

section Unions

variable {head : ResolvedHead} (hn : (TypeExpr.union es).NormalThroughout)
  (hr : head.resolved = .union es)
include hn hr

/-- An absence over what is present of a union that is normal throughout. -/
theorem Canonical.of_present (hnone : es.any TypeExpr.isNone = true)
    (h : Of (.union (es.filter (!·.isNone))) ann) (hann : ann.Canonical) :
    (ResolvedHint.optional head ann).Canonical := by
  have hnormal := hn _ .self
  obtain ⟨hmembers, hne, hoptional⟩ := h.members_of_present hnormal
  have hkeys : (ann.head.resolved.members.map TypeExpr.key).Nodup := by
    rw [hmembers]
    exact hnormal.nodup_members.sublist ((List.filter_sublist).map _)
  refine .optional hoptional ?_ hann
  rw [hr, ← TypeExpr.optional, TypeExpr.optional_eq (hmembers ▸ hne) hkeys
    (hmembers ▸ any_isNone_filter es), hmembers, TypeExpr.key_union_absent hnone]

/-- A union over the members of one that is normal throughout and has no absence. -/
theorem Canonical.of_members {members : List ResolvedHint} (hnone : es.any TypeExpr.isNone = false)
    (hlen : 2 ≤ es.length) (h : List.Forall₂ Of es members) (hmembers : ∀ m ∈ members, m.Canonical) :
    (ResolvedHint.union head members).Canonical := by
  obtain ⟨hall, hflat, hnodup, hne⟩ := hn _ .self
  have htypes : es = members.map (·.head.resolved) := by
    rw [← List.forall₂_eq_eq_eq, List.forall₂_map_right_iff]
    obtain ⟨hlength, hof⟩ := List.forall₂_iff_zip.1 h
    refine List.forall₂_iff_zip.2 ⟨hlength, fun {d m} hp => ?_⟩
    have hd := TypeExpr.normalAll_iff.1 hall d (List.of_mem_zip hp).1
    exact ((hof hp).resolved_eq hd).symm
  refine .union (h.length_eq ▸ hlen) (fun m hm => ?_) ?_ hmembers
  · obtain ⟨d, hd, hof⟩ := exists_left_of_forall₂ h hm
    have hunion := hflat d hd
    rw [hof.isOptional_eq, hof.isUnion_eq, hof.resolved_eq (TypeExpr.normalAll_iff.1 hall d hd),
      hunion]
    refine ⟨TypeExpr.allowsNone_of_isUnion hunion, rfl, ?_⟩
    rintro rfl
    exact List.any_eq_false.1 hnone _ hd rfl
  · rw [hr, ← htypes, TypeExpr.unionOf_eq_union hflat (TypeExpr.keys_eq_map es ▸ hnodup) hne]

end Unions

/-- The tree of a type that is normal throughout, or of a union of just one such type, as it may be
left below an absence. -/
theorem Of.canonical (h : Of e ann) (hshaped : e.isShaped = true)
    (hn : e.NormalThroughout ∨ ∃ only, e = .union [only] ∧ only.NormalThroughout) :
    ann.Canonical := by
  induction h with
  | cls hr => exact .cls hr
  | noneType hr => exact .noneType hr
  | @list head kind e element hr hof ih =>
    obtain hn | ⟨_, heq, -⟩ := hn
    · rw [TypeExpr.isShaped, Bool.and_eq_true, Bool.and_eq_true] at hshaped
      have he : e.NormalThroughout := fun d hd => hn d (.arg List.mem_cons_self hd)
      refine .list hshaped.1.1 ?_ (ih ?_ (.inl he))
      · rw [hr, hof.resolved_eq (he _ .self)]
      · exact TypeExpr.areShaped_iff.1 hshaped.2 e List.mem_cons_self
    · cases heq
  | @aliasOf head id name supertype base hr hof ih =>
    obtain hn | ⟨_, heq, -⟩ := hn
    · have hsuper : supertype.ultimate.NormalThroughout := fun d hd => hn d (.supertype hd)
      have hresolved := hof.resolved_eq (hsuper _ .self)
      refine .aliasOf hr ?_ (congrArg TypeExpr.key hresolved) (ih ?_ (.inl hsuper))
      · rw [hof.isAlias_eq, hresolved]
        cases hu : supertype.ultimate with
        | aliasOf i n s => exact absurd hu (supertype.ultimate_ne_alias i n s)
        | _ => rfl
      · rwa [TypeExpr.isShaped_ultimate]
    · cases heq
  | @only m ann _ hof ih =>
    rw [TypeExpr.isShaped, Bool.and_eq_true] at hshaped
    refine ih (TypeExpr.areShaped_iff.1 hshaped.2 m List.mem_cons_self) ?_
    obtain hn | ⟨_, heq, honly⟩ := hn
    · exact absurd rfl (hn _ .self).2.2.2
    · cases heq
      exact .inl honly
  | @optional head es inner hnone hr hof ih =>
    obtain hn | ⟨only, heq, -⟩ := hn
    · exact .of_present hn hr hnone hof (ih (TypeExpr.isShaped_present hshaped) hn.present_cases)
    · -- the only member would be both absent and present
      cases heq
      simp_all [TypeExpr.isShaped]
  | @union head es members hnone hlen hr hlen' hof ih =>
    obtain hn | ⟨_, heq, -⟩ := hn
    · rw [TypeExpr.isShaped, Bool.and_eq_true] at hshaped
      have hpairs : List.Forall₂ (fun e m => (e, m) ∈ es.zip members) es members :=
        forall₂_of_zip hlen' fun _ hp => hp
      refine .of_members hn hr hnone hlen (hpairs.imp fun _ _ => hof _) fun m hm => ?_
      obtain ⟨d, hd, hp⟩ := exists_left_of_forall₂ hpairs hm
      have hd' : d.NormalThroughout := fun d' h => hn d' (.member hd h)
      exact ih _ hp (TypeExpr.areShaped_iff.1 hshaped.2 d hd) (.inl hd')
    · cases heq
      simp at hlen

/-- A type that is normal throughout is resolved just when nothing lies in it that is refused, and then
to a canonical tree that carries the type. -/
theorem canonical_of_ofExpr (raw : Option Hint) (origin : Option Origin)
    (hn : e.NormalThroughout) :
    ((∃ ann, ofExpr raw origin e = .ok ann) ↔ ∀ d : TypeExpr, d.LiesIn e → ¬ d.Refused) ∧
    ∀ ann, ofExpr raw origin e = .ok ann → ann.Canonical ∧ ann.head.resolved = e := by
  refine ⟨exists_ofExpr_iff, fun ann hann => ?_⟩
  have hof := of_ofExpr hann
  obtain ⟨hshaped, -⟩ := shaped_of_ofExpr hann
  exact ⟨hof.canonical hshaped (.inl hn), hof.resolved_eq (hn _ .self)⟩

end ResolvedHint

namespace Sample

/-- Perhaps a pair of pets, under the name of a name, or a list in which cats may be absent. -/
def litters : TypeExpr :=
  .union [.noneType, .aliasOf 2 "Pair" (.aliasOf 1 "Pets" (.union [.cls cat, .cls dog])),
    .listOf (.union [.cls cat, .noneType])]

theorem normalThroughout_litters : litters.NormalThroughout := by
  have hcat := TypeExpr.normalThroughout_cls cat
  have hdog := TypeExpr.normalThroughout_cls dog
  have hnone := TypeExpr.normalThroughout_noneType
  have hpets : (TypeExpr.union [.cls cat, .cls dog]).NormalThroughout := by
    refine .union ?_ (by simp [hcat, hdog])
    simp [TypeExpr.Normal, TypeExpr.NormalAll, TypeExpr.isUnion, TypeExpr.keys, TypeExpr.key, cat, dog]
  have hlist : (TypeExpr.listOf (.union [.cls cat, .noneType])).NormalThroughout := by
    refine .generic .list fun e he => ?_
    obtain rfl := List.mem_singleton.1 he
    refine .union ?_ (by simp [hcat, hnone])
    simp [TypeExpr.Normal, TypeExpr.NormalAll, TypeExpr.isUnion, TypeExpr.keys, TypeExpr.key]
  have hpair := TypeExpr.NormalThroughout.aliasOf 2 "Pair"
    (e := .aliasOf 1 "Pets" (.union [.cls cat, .cls dog])) hpets
  refine .union ?_ (by simp [hnone, hpair, hlist])
  simp [TypeExpr.Normal, TypeExpr.NormalAll, TypeExpr.isUnion, TypeExpr.keys, TypeExpr.key,
    TypeExpr.listOf, cat]

/-- The tree of the litters is canonical. -/
theorem canonical_litters : litters.NormalThroughout ∧
    ∃ ann, ResolvedHint.ofExpr (some (.text "Litters")) none litters = .ok ann ∧ ann.Canonical ∧
      ann.head.resolved = litters := by
  obtain ⟨-, hcanonical⟩ := ResolvedHint.canonical_of_ofExpr (some (.text "Litters")) none
    normalThroughout_litters
  exact ⟨normalThroughout_litters, _, rfl, hcanonical _ rfl⟩

end Sample

end HintSchema
