import HintSchema.Proofs.Meaning
import HintSchema.Proofs.Unnamed

/-!
# Aliases without a scalar

An alias of anything but a class with a scalar is translated as what it is over, to the same node or
the same failure, whether either was translated before or not, but for one layer: the type of an
alias is non-null (`translate_alias`).  So an alias of an optional type is not translated as that
type (`alias_not_transparent`).
-/

namespace HintSchema

open Relation

variable {env : BuildEnv} {aliases : AliasTable} {P : ResolvedHint → Prop} {g g' : Graph}
  {ann inner base : ResolvedHint} {head : ResolvedHead} {wrap : TypeRef → TypeRef} {t : TypeRef}
  {raw : Option Hint} {origin : Option Origin}

/-! ## What aliases are over -/

namespace ResolvedHint

/-- What stands directly below a resolved hint, the members of a union included. -/
inductive Part : ResolvedHint → ResolvedHint → Prop
  | list {head : ResolvedHead} {element : ResolvedHint} : Part (.list head element) element
  | optional {head : ResolvedHead} {inner : ResolvedHint} : Part (.optional head inner) inner
  | aliasOf {head : ResolvedHead} {base : ResolvedHint} : Part (.aliasOf head base) base
  | member {head : ResolvedHead} {members : List ResolvedHint} {m : ResolvedHint} :
      m ∈ members → Part (.union head members) m

/-- What stands anywhere in a resolved hint, itself included. -/
abbrev Holds : ResolvedHint → ResolvedHint → Prop := ReflTransGen Part

/-- For what an alias is over there is no hint as written. -/
def Plain (ann : ResolvedHint) : Prop :=
  ∀ head base, ann.Holds (.aliasOf head base) → base.head.raw = none

theorem Plain.part (h : Plain ann) {p : ResolvedHint} (hp : Part ann p) : Plain p :=
  fun head base hh => h head base (.head hp hh)

theorem plain_of_parts (halias : ∀ head base, ann = .aliasOf head base → base.head.raw = none)
    (hparts : ∀ p, Part ann p → Plain p) : Plain ann := by
  intro head base hh
  rcases ReflTransGen.cases_head hh with rfl | ⟨p, hp, hh⟩
  · exact halias head base rfl
  · exact hparts p hp head base hh

/-- Without a hint as written there is none for the outermost layer. -/
theorem raw_of_ofExpr : ∀ {e : TypeExpr} {ann : ResolvedHint},
    ofExpr none origin e = .ok ann → ann.head.raw = none
  | .cls _, _, h | .noneType, _, h => by
    cases h
    rfl
  | .forward _, _, h => by cases h
  | .aliasOf id name supertype, _, h => by
    rw [ofExpr] at h
    obtain ⟨base, -, h⟩ := ok_of_bind h
    cases h
    rfl
  | .generic kind [x], _, h => by
    rw [ofExpr] at h
    split_ifs at h
    obtain ⟨inner, -, h⟩ := ok_of_bind h
    cases h
    rfl
  | .generic kind [], _, h => by
    rw [ofExpr] at h
    split_ifs at h
  | .generic kind (_ :: _ :: _), _, h => by
    rw [ofExpr] at h
    · split_ifs at h
    all_goals simp
  | .union es, _, h => by
    rcases ofExpr_union_cases h with ⟨only, inner, hpresent, hinner, rfl⟩ | ⟨members, -, -, rfl⟩
    · have hlt : sizeOf only < sizeOf es := List.sizeOf_lt_of_mem (mem_of_present hpresent).1
      split_ifs
      · rfl
      · exact raw_of_ofExpr hinner
    · split_ifs <;> rfl
termination_by e => sizeOf e
decreasing_by
  all_goals simp_wf
  all_goals omega

theorem exists_of_mem_ofMembers {raws : List (Option Hint)} {es : List TypeExpr}
    {members : List ResolvedHint} {m : ResolvedHint} (h : ofMembers raws origin es = .ok members)
    (hm : m ∈ members) : ∃ raw, ∃ e ∈ es, ofExpr raw origin e = .ok m := by
  induction es generalizing raws members with
  | nil =>
    cases h
    cases hm
  | cons e rest ih =>
    rw [ofMembers] at h
    split_ifs at h
    · obtain ⟨raw, e', he', hm⟩ := ih h hm
      exact ⟨raw, e', List.mem_cons_of_mem _ he', hm⟩
    · obtain ⟨ann, hann, h⟩ := ok_of_bind h
      obtain ⟨anns, hanns, h⟩ := ok_of_bind h
      cases h
      rcases List.mem_cons.1 hm with rfl | hm
      · exact ⟨_, e, List.mem_cons_self, hann⟩
      · obtain ⟨raw, e', he', hm⟩ := ih hanns hm
        exact ⟨raw, e', List.mem_cons_of_mem _ he', hm⟩

theorem plain_of_ofExpr : ∀ {e : TypeExpr} {raw : Option Hint} {ann : ResolvedHint},
    ofExpr raw origin e = .ok ann → Plain ann
  | .cls _, _, _, h | .noneType, _, _, h => by
    cases h
    refine plain_of_parts (fun _ _ h => ?_) fun _ h => ?_ <;> cases h
  | .forward _, _, _, h => by cases h
  | .aliasOf id name supertype, raw, _, h => by
    rw [ofExpr] at h
    obtain ⟨base, hbase, h⟩ := ok_of_bind h
    cases h
    have hplain := plain_of_ofExpr hbase
    have hbelow : (if supertype.isAlias then base.belowAlias else base).head.raw = none ∧
        Plain (if supertype.isAlias then base.belowAlias else base) := by
      split_ifs
      · cases base with
        | aliasOf head' base' => exact ⟨hplain _ _ .refl, hplain.part .aliasOf⟩
        | _ => exact ⟨raw_of_ofExpr hbase, hplain⟩
      · exact ⟨raw_of_ofExpr hbase, hplain⟩
    refine plain_of_parts (fun _ _ h => ?_) fun _ h => ?_ <;> cases h
    · exact hbelow.1
    · exact hbelow.2
  | .generic kind [x], raw, _, h => by
    rw [ofExpr] at h
    split_ifs at h
    obtain ⟨inner, hinner, h⟩ := ok_of_bind h
    cases h
    refine plain_of_parts (fun _ _ h => ?_) fun _ h => ?_ <;> cases h
    exact plain_of_ofExpr hinner
  | .generic kind [], raw, _, h => by
    rw [ofExpr] at h
    split_ifs at h
  | .generic kind (_ :: _ :: _), raw, _, h => by
    rw [ofExpr] at h
    · split_ifs at h
    all_goals simp
  | .union es, raw, _, h => by
    have hoptional : ∀ {head inner}, Plain inner → Plain (.optional head inner) := by
      intro head inner hinner
      refine plain_of_parts (fun _ _ h => ?_) fun _ h => ?_ <;> cases h
      exact hinner
    rcases ofExpr_union_cases h with
      ⟨only, inner, hpresent, hinner, rfl⟩ | ⟨members, -, hmembers, rfl⟩
    · have hlt : sizeOf only < sizeOf es := List.sizeOf_lt_of_mem (mem_of_present hpresent).1
      split_ifs
      · exact hoptional (plain_of_ofExpr hinner)
      · exact plain_of_ofExpr hinner
    · have hunion : ∀ {head}, Plain (.union head members) := by
        refine plain_of_parts (fun _ _ h => ?_) fun m h => ?_ <;> cases h
        rename_i hm
        obtain ⟨raw', e, he, hm⟩ := exists_of_mem_ofMembers hmembers hm
        have hlt : sizeOf e < sizeOf es := List.sizeOf_lt_of_mem he
        exact plain_of_ofExpr hm
      split_ifs
      · exact hoptional hunion
      · exact hunion
termination_by e => sizeOf e
decreasing_by
  all_goals simp_wf
  all_goals omega

/-! ## Shapes -/

variable {e : TypeExpr}

/-- A resolved hint is one of the type that it carries. -/
theorem Of.of_resolved (h : Of e ann) : Of ann.head.resolved ann := by
  induction h with
  | cls hr | noneType hr | list hr | aliasOf hr | optional _ hr | union _ _ hr =>
    rw [ResolvedHint.head, hr]
    constructor <;> assumption
  | only _ _ ih => exact ih

/-- What an alias is over is the resolved hint of the type at the end of its chain of supertypes. -/
theorem Of.of_alias (h : Of e (.aliasOf head base)) :
    ∃ id name s, head.resolved = .aliasOf id name s ∧ Of s.ultimate base := by
  generalize hann : ResolvedHint.aliasOf head base = ann at h
  induction h with
  | aliasOf hr hbase =>
    cases hann
    exact ⟨_, _, _, hr, hbase⟩
  | only _ _ ih => exact ih hann
  | cls | noneType | list | optional | union => cases hann

/-- Whether a hint is a union of two members or more. -/
def isUnion : ResolvedHint → Bool
  | .union .. => true
  | _ => false

end ResolvedHint

/-- Whether a type is a union with absence. -/
def TypeExpr.allowsNone : TypeExpr → Bool
  | .union es => es.any isNone
  | _ => false

theorem TypeExpr.allowsNone_of_key {e e' : TypeExpr} (hk : e.key = e'.key) :
    e.allowsNone = e'.allowsNone := by
  cases e with
  | union es =>
    obtain ⟨es', rfl, hkeys⟩ := TypeExpr.eq_union_of_key hk
    rw [allowsNone, allowsNone, Bool.eq_iff_iff, any_isNone_iff, any_isNone_iff, hkeys]
  | cls | noneType | generic | aliasOf | forward =>
    cases e' with
    | union es' =>
      obtain ⟨es, h, -⟩ := TypeExpr.eq_union_of_key hk.symm
      cases h
    | cls | noneType | generic | aliasOf | forward => rfl

namespace ResolvedHint

variable {e : TypeExpr}

theorem Of.isOptional_eq (h : Of e ann) : ann.isOptional = ann.head.resolved.allowsNone := by
  induction h with
  | cls hr | noneType hr | list hr | aliasOf hr =>
    rw [ResolvedHint.head, hr]
    rfl
  | optional hsome hr =>
    rw [ResolvedHint.head, hr, TypeExpr.allowsNone, hsome]
    rfl
  | union hnone _ hr =>
    rw [ResolvedHint.head, hr, TypeExpr.allowsNone, hnone]
    rfl
  | only _ _ ih => exact ih

theorem Of.isUnion_eq (h : Of e ann) :
    ann.isUnion = (ann.head.resolved.isUnion && !ann.head.resolved.allowsNone) := by
  induction h with
  | cls hr | noneType hr | list hr | aliasOf hr =>
    rw [ResolvedHint.head, hr]
    rfl
  | optional hsome hr =>
    rw [ResolvedHint.head, hr, TypeExpr.allowsNone, hsome]
    rfl
  | union hnone _ hr =>
    rw [ResolvedHint.head, hr, TypeExpr.allowsNone, hnone]
    rfl
  | only _ _ ih => exact ih

end ResolvedHint

namespace BuildEnv

theorem named_of_isUnion (h : ann.isUnion = false) : Named ann := by
  cases ann with
  | union => cases h
  | cls | list | optional | aliasOf => trivial

/-- Without a hint as written a union has no name. -/
theorem isUnion_of_named (h : Named ann) (hraw : ann.head.raw = none) : ann.isUnion = false := by
  cases ann with
  | union head members =>
    obtain ⟨name, hname⟩ := h
    obtain ⟨source, hsource, -⟩ := unionName_iff.1 hname
    cases hraw.symm.trans hsource
  | cls | list | optional | aliasOf => rfl

/-! ## Plain hints -/

/-- A resolved hint over declarations whose aliases are over no hints as written. -/
def PlainHint (env : BuildEnv) (aliases : AliasTable) (ann : ResolvedHint) : Prop :=
  env.Typed aliases ann ∧ ann.Plain

theorem WellFormed.plainHint_of_given (hw : env.WellFormed aliases) (h : env.Given aliases ann) :
    env.PlainHint aliases ann := by
  refine ⟨hw.typed_of_given h, ?_⟩
  cases h with
  | evaluated _ _ hann | defaulted _ _ hann => exact ResolvedHint.plain_of_ofExpr hann
  | @ofClass c origin _ =>
    have hmade : ResolvedHint.ofExpr none origin (.cls c) = .ok (.ofClass c origin) := rfl
    exact ResolvedHint.plain_of_ofExpr hmade

/-- What a declaration brings in, a caller can come by. -/
theorem given_of_declared (h : env.Declared aliases ann) : env.Given aliases ann := by
  cases h with
  | evaluated ho he hann => exact .evaluated ho he hann
  | defaulted ho he hann => exact .defaulted ho he hann
  | ofClass hc => exact .ofClass hc

theorem part_of_layer (hl : env.layer? ann = some (inner, wrap)) : ResolvedHint.Part ann inner := by
  obtain ⟨_, rfl, -⟩ | ⟨_, rfl, -⟩ | ⟨_, rfl, -⟩ := layer?_cases hl
  · exact .list
  · exact .optional
  · exact .aliasOf

/-- What stands in a hint over declarations is over declarations. -/
theorem WellFormed.typed_of_part (hw : env.WellFormed aliases) {p : ResolvedHint}
    (h : env.Typed aliases ann) (hp : ResolvedHint.Part ann p) : env.Typed aliases p := by
  cases hp with
  | list | optional => exact (hw.typed_of_layer h rfl).1
  | aliasOf =>
    obtain ⟨e, ho, hof⟩ := h
    obtain ⟨id, name, s, hres, hbase⟩ := hof.of_alias
    have hover := (hof.over_resolved ho).1
    rw [ResolvedHint.head, hres] at hover
    exact ⟨_, TypeExpr.over_ultimate hw.supertypes (hw.supertypes hover), hbase⟩
  | member hm =>
    obtain ⟨e, ho, hof⟩ := h
    obtain ⟨es, hres, e', he', hof'⟩ := hof.member hm
    have hover := (hof.over_resolved ho).1
    rw [ResolvedHint.head, hres] at hover
    exact ⟨e', TypeExpr.overAll_iff.1 hover e' he', hof'⟩

theorem WellFormed.plainHint_of_holds (hw : env.WellFormed aliases) {p : ResolvedHint}
    (h : env.PlainHint aliases ann) (hp : ann.Holds p) : env.PlainHint aliases p := by
  induction hp with
  | refl => exact h
  | tail _ hp ih => exact ⟨hw.typed_of_part ih.1 hp, ih.2.part hp⟩

theorem WellFormed.domain_plain (hw : env.WellFormed aliases) :
    env.Domain aliases (env.PlainHint aliases) where
  typed h := h.1
  layer h hl := ⟨(hw.typed_of_layer h.1 hl).1, h.2.part (part_of_layer hl)⟩
  parts h hn a ha := by
    rcases WellFormed.ownNode_cases hn with
      ⟨head, c, rfl, hc⟩ | ⟨head, members, name, rfl, rfl⟩ | ⟨head, base, s, rfl, rfl⟩
    · exact hw.plainHint_of_given (given_of_declared
        (hw.declared_of_partHints (classNode_spec hc).1 (hw.has_of_typed h.1) ha))
    · exact hw.plainHint_of_holds h (.single (.member ha))
    · cases ha
  crawl _ _ _ ha := hw.plainHint_of_given (given_of_declared (declared_of_crawlHints ha))

/-! ## What is remembered of aliases -/

theorem Typed.exists_of_alias {ann : ResolvedHint} (h : env.Typed aliases (.aliasOf head base))
    (h' : env.Typed aliases ann) (hk : ann.key = (ResolvedHint.aliasOf head base).key) :
    ∃ head' base' e, ann = .aliasOf head' base' ∧ ResolvedHint.Of e base ∧
      ResolvedHint.Of e base' := by
  obtain ⟨e, ho, hof⟩ := h
  obtain ⟨e', ho', hof'⟩ := h'
  obtain ⟨id, name, s, hres, hbase⟩ := hof.of_alias
  have hover := (hof.over_resolved ho).1
  have hres' : ann.head.resolved = .aliasOf id name s := by
    rw [ResolvedHint.head, hres] at hover
    refine TypeExpr.eq_aliasOf_of_key hover (hof'.over_resolved ho').1 ?_
    rw [← hres]
    exact hk.symm
  have hann := hof'.of_resolved
  rw [hres'] at hann
  cases hann with
  | aliasOf _ hbase' => exact ⟨_, _, _, rfl, hbase, hbase'⟩

/-- What is remembered for an alias without a scalar is remembered for what it is over, but for the
layer, and that is no union. -/
theorem exists_cached_of_alias (hv : Graph.Valid env (env.PlainHint aliases) g)
    (hP : env.PlainHint aliases (.aliasOf head base)) (hs : env.aliasedScalar base = none)
    (ht : g.cached (.aliasOf head base) = some t) :
    ∃ t', g.cached base = some t' ∧ t = .nonNull t'.nullable ∧ Named base := by
  obtain ⟨a, hPa, hk, he⟩ := hv.entry ht
  obtain ⟨head', base', e, rfl, hof, hof'⟩ := hP.1.exists_of_alias hPa.1 hk
  have hs' : env.aliasedScalar base' = none := (hof'.aliasedScalar_eq hof).trans hs
  cases he with
  | own hown =>
    rw [ownNode, hs'] at hown
    cases hown
  | layer hl hinner hnamed =>
    rw [layer?, hs'] at hl
    cases hl
    refine ⟨_, (Graph.cached_congr (hof.key_unique hof')).trans hinner, rfl, named_of_isUnion ?_⟩
    rw [hof.isUnion_eq, hof.resolved_unique hof', ← hof'.isUnion_eq]
    exact isUnion_of_named hnamed (hPa.2 _ _ .refl)

end BuildEnv

namespace Graph

/-- No layer of non-null is directly on another one in what is remembered. -/
def Undoubled (g : Graph) : Prop := ∀ k t, remembered k g.memo = some t → t.isDoubled = false

theorem Learn.undoubled (h : Learn env P g g') (hg : g.Undoubled) : g'.Undoubled := by
  intro k t ht
  cases h with
  | make | scalar =>
    rw [remembered_withMemo] at ht
    split_ifs at ht
    · cases ht
      rfl
    · exact hg k t ht
  | share => exact hg k t ht
  | layer _ _ hl hinner =>
    rw [remembered_withMemo] at ht
    split_ifs at ht
    · cases ht
      have hone := hg _ _ hinner
      obtain ⟨hnull, hdouble⟩ := TypeRef.nullable_spec hone
      obtain ⟨_, -, rfl⟩ | ⟨_, -, rfl⟩ | ⟨_, -, -, rfl⟩ := BuildEnv.layer?_cases hl
      · exact hone
      · exact hdouble
      · exact Bool.or_eq_false_iff.2 ⟨hnull, hdouble⟩
    · exact hg k t ht

theorem Grows.undoubled (h : Grows env P g g') (hg : g.Undoubled) : g'.Undoubled := by
  induction h with
  | refl => exact hg
  | tail _ hs ih =>
    cases hs with
    | learn h => exact h.undoubled ih
    | crawl | fill => exact ih

end Graph

namespace BuildEnv

/-- What is remembered for a hint is nullable when the hint is optional, and only then. -/
theorem Layered.isNonNull_of_cached (hd : env.Layered aliases P) (hv : Graph.Valid env P g)
    (hg : g.Undoubled) (h : P ann) (ht : g.cached ann = some t) :
    t.isNonNull = !ann.isOptional := by
  obtain ⟨a, ha, hk, he⟩ := hv.entry ht
  have hsame : ann.isOptional = a.isOptional := by
    obtain ⟨e, -, hof⟩ := hd.typed h
    obtain ⟨e', -, hof'⟩ := hd.typed ha
    rw [hof.isOptional_eq, hof'.isOptional_eq, TypeExpr.allowsNone_of_key hk]
  rw [hsame]
  cases he with
  | own hown =>
    rcases WellFormed.ownNode_cases hown with ⟨_, _, rfl, -⟩ | ⟨_, _, _, rfl, -⟩ | ⟨_, _, _, rfl, -⟩ <;> rfl
  | scalar => rfl
  | layer hl hinner =>
    obtain ⟨_, rfl, rfl⟩ | ⟨_, rfl, rfl⟩ | ⟨_, rfl, -, rfl⟩ := layer?_cases hl
    · rfl
    · exact (TypeRef.nullable_spec (hg _ _ hinner)).1
    · rfl

/-! ## Translating aliases -/

theorem layer?_alias (head : ResolvedHead) (hs : env.aliasedScalar base = none) :
    env.layer? (.aliasOf head base) = some (base, fun t => .nonNull t.nullable) := by
  rw [layer?, hs]

theorem exec_translate_alias_ok (hs : env.aliasedScalar base = none)
    (hmiss : g.cached (.aliasOf head base) = none) (h : (env.translate base).exec g = (.ok t, g')) :
    (env.translate (.aliasOf head base)).exec g =
      (.ok (.nonNull t.nullable), g'.withMemo (.aliasOf head base) (.nonNull t.nullable)) := by
  rw [translate_layer (layer?_alias head hs)]
  refine exec_memoized_ok hmiss ?_
  rw [Build.exec_bind_ok h]
  rfl

theorem exec_translate_alias_error (hs : env.aliasedScalar base = none)
    (hmiss : g.cached (.aliasOf head base) = none) {e : SchemaError}
    (h : (env.translate base).exec g = (.error e, g')) :
    (env.translate (.aliasOf head base)).exec g = (.error e, g') := by
  rw [translate_layer (layer?_alias head hs)]
  exact exec_memoized_error hmiss (Build.exec_bind_error h)

section Alias

variable (hw : env.WellFormed aliases) (hP : env.PlainHint aliases (.aliasOf head base))
  (hs : env.aliasedScalar base = none) (hv : Graph.Valid env (env.PlainHint aliases) g)
include hP hs hv

/-- A remembered alias and what it is over are both translated without any change. -/
theorem exec_translate_of_alias (ht : g.cached (.aliasOf head base) = some t) :
    ∃ t', (env.translate (.aliasOf head base)).exec g = (.ok (.nonNull t'.nullable), g) ∧
      (env.translate base).exec g = (.ok t', g) := by
  obtain ⟨t', ht', rfl, hnamed⟩ := exists_cached_of_alias hv hP hs ht
  exact ⟨t', (translate_hit ht).2.2 trivial, (translate_hit ht').2.2 hnamed⟩

/-- An alias is translated as what it is over, made non-null. -/
theorem translate_alias_fst : ((env.translate (.aliasOf head base)).exec g).1 =
    ((env.translate base).exec g).1.map fun t => .nonNull t.nullable := by
  cases ht : g.cached (.aliasOf head base) with
  | some t =>
    obtain ⟨t', halias, hbase⟩ := exec_translate_of_alias hP hs hv ht
    rw [halias, hbase]
    rfl
  | none =>
    rcases hr : (env.translate base).exec g with ⟨e | t, g'⟩
    · rw [exec_translate_alias_error hs ht hr]
      rfl
    · rw [exec_translate_alias_ok hs ht hr]
      rfl

include hw

/-- After an alias what it is over is translated as before it. -/
theorem translate_after_alias :
    ((env.translate base).exec ((env.translate (.aliasOf head base)).exec g).2).1 =
      ((env.translate base).exec g).1 := by
  cases ht : g.cached (.aliasOf head base) with
  | some t =>
    obtain ⟨t', halias, -⟩ := exec_translate_of_alias hP hs hv ht
    rw [halias]
  | none =>
    have hd := hw.domain_plain
    have hl := layer?_alias head hs
    have hspec := hd.translate_spec hw base (hd.layer hP hl) g
    rcases hr : (env.translate base).exec g with ⟨e | t, g'⟩ <;> rw [hr] at hspec
    · rw [exec_translate_alias_error hs ht hr, hspec.failed e rfl, hr]
    · rw [exec_translate_alias_ok hs ht hr]
      obtain ⟨hcached, hnamed⟩ := hspec.remembered t rfl
      have hkey : (ResolvedHint.aliasOf head base).key ≠ base.key := by
        obtain ⟨htyped, hrank⟩ := hw.typed_of_layer hP.1 hl
        exact fun hk => hrank.ne (hP.1.rank_eq_of_key htyped hk).symm
      have hcached' : (g'.withMemo (.aliasOf head base) (.nonNull t.nullable)).cached base =
          some t := by
        rw [Graph.cached, Graph.remembered_withMemo, if_neg hkey]
        exact hcached
      rw [(translate_hit hcached').2.2 hnamed]

/-- After what it is over an alias is translated as before it. -/
theorem translate_alias_after :
    ((env.translate (.aliasOf head base)).exec ((env.translate base).exec g).2).1 =
      ((env.translate (.aliasOf head base)).exec g).1 := by
  have hd := hw.domain_plain
  have hl := layer?_alias head hs
  have hspec := hd.translate_spec hw base (hd.layer hP hl) g
  rcases hr : (env.translate base).exec g with ⟨e | t, g'⟩ <;> rw [hr] at hspec
  · rw [hspec.failed e rfl]
  · obtain ⟨hcached, hnamed⟩ := hspec.remembered t rfl
    cases ht : g.cached (.aliasOf head base) with
    | some =>
      obtain ⟨_, -, hbase⟩ := exec_translate_of_alias hP hs hv ht
      rw [hr] at hbase
      rw [(Prod.mk.inj hbase).2]
    | none =>
      have hmiss : g'.cached (.aliasOf head base) = none := by
        rw [hspec.learns.cached_of_ne, ht]
        rintro a ⟨ha, hle⟩ hk
        have hrank := (hw.typed_of_layer hP.1 hl).2
        rw [← ha.1.rank_eq_of_key hP.1 hk] at hrank
        exact absurd hle hrank.not_ge
      rw [exec_translate_alias_ok hs ht hr,
        exec_translate_alias_ok hs hmiss ((translate_hit hcached).2.2 hnamed)]

end Alias

/-- In every reachable graph an alias of no class with a scalar has the outcome of what it is over,
a success being made non-null; neither outcome depends on whether the other hint was translated just
before; and the two outcomes are one, to the same node or the same failure, unless the alias is over
an optional type that is translated with success. -/
theorem translate_alias (hw : env.WellFormed aliases) (hg : env.Reachable aliases g)
    (hann : env.Given aliases ann) (hin : ann.Holds (.aliasOf head base))
    (hs : env.aliasedScalar base = none) :
    ((env.translate (.aliasOf head base)).exec g).1 =
        ((env.translate base).exec g).1.map (fun t => .nonNull t.nullable) ∧
      ((env.translate base).exec ((env.translate (.aliasOf head base)).exec g).2).1 =
        ((env.translate base).exec g).1 ∧
      ((env.translate (.aliasOf head base)).exec ((env.translate base).exec g).2).1 =
        ((env.translate (.aliasOf head base)).exec g).1 ∧
      (((env.translate (.aliasOf head base)).exec g).1 = ((env.translate base).exec g).1 ↔
        ∀ t, ((env.translate base).exec g).1 = .ok t → base.isOptional = false) := by
  have hP := hw.plainHint_of_holds (hw.plainHint_of_given hann) hin
  have hgrows := hw.domain_plain.grows_of_calls hw (fun _ h => hw.plainHint_of_given h)
    Graph.valid_empty hg
  have hv := hgrows.valid Graph.valid_empty
  have hfst := translate_alias_fst hP hs hv
  refine ⟨hfst, translate_after_alias hw hP hs hv, translate_alias_after hw hP hs hv, ?_⟩
  have hbase := hw.domain_plain.layer hP (layer?_alias head hs)
  have hspec := hw.domain_plain.translate_spec hw base hbase g
  rw [hfst]
  rcases hr : (env.translate base).exec g with ⟨e | t, g'⟩ <;> rw [hr] at hspec
  · exact ⟨fun _ t h => (by cases h), fun _ => rfl⟩
  · have hgrows' : Graph.Grows env (env.PlainHint aliases) {} g' :=
      hgrows.trans (Graph.Learns.grows (hspec.learns.mono fun _ h => h.1))
    have hnull := hw.domain_plain.isNonNull_of_cached (hgrows'.valid Graph.valid_empty)
      (hgrows'.undoubled fun k t h => by cases h) hbase (hspec.remembered t rfl).1
    refine ⟨fun heq t' ht' => ?_, fun hopt => ?_⟩
    · have hnonNull : TypeRef.nonNull t.nullable = t := Except.ok.inj heq
      rw [← hnonNull] at hnull
      simpa [TypeRef.isNonNull] using hnull
    · rw [hopt t rfl] at hnull
      cases t with
      | nonNull s => rfl
      | named | list => cases hnull

end BuildEnv

namespace Sample

/-- An alias of cats that may be absent. -/
def strays : AliasTable := fun id =>
  if id = 1 then some ("Stray", .union [.cls cat, .noneType]) else Sample.aliases id

theorem wellFormed_strays : townEnv.WellFormed strays := by
  refine wellFormed_town_of rfl fun {id name s} h => ?_
  simp only [strays, Sample.aliases] at h
  split_ifs at h <;> cases h
  · exact ⟨⟨_, rfl, rfl⟩, trivial, trivial⟩
  · exact ⟨_, rfl, rfl⟩

/-- The type of a cat that may be absent. -/
def perhapsCat : ResolvedHint :=
  .optional ⟨none, .union [.cls cat, .noneType], none⟩ (.cls ⟨none, .cls cat, none⟩ cat)

/-- The alias of it. -/
def stray : ResolvedHint :=
  .aliasOf ⟨none, .aliasOf 1 "Stray" (.union [.cls cat, .noneType]), none⟩ perhapsCat

theorem given_stray : townEnv.Given strays stray := by
  have hover : (Hint.expr (.aliasOf 1 "Stray" (.union [.cls cat, .noneType]))).Over
      townEnv.hierarchy strays := rfl
  have hmade : ResolvedHint.ofExpr none none
      (.aliasOf 1 "Stray" (.union [.cls cat, .noneType])) = .ok stray := rfl
  exact .evaluated hover rfl hmade

theorem translate_alias_stray :
    townEnv.Given strays stray ∧ townEnv.aliasedScalar perhapsCat = none ∧
      ((townEnv.translate stray).exec {}).1 = .ok (.nonNull (.named ⟨0, .object, "Cat"⟩)) := by
  have hbase : ((townEnv.translate perhapsCat).exec {}).1 = .ok (.named ⟨0, .object, "Cat"⟩) :=
    ok_of_toOption (by decide +kernel)
  refine ⟨given_stray, rfl, ?_⟩
  rw [stray, (BuildEnv.translate_alias wellFormed_strays .refl given_stray .refl rfl).1, hbase]
  rfl

/-- An alias of an optional type is not translated as that type. -/
theorem alias_not_transparent :
    ¬ ∀ g ann head base, townEnv.Reachable strays g → townEnv.Given strays ann →
      ann = .aliasOf head base → townEnv.aliasedScalar base = none →
      ((townEnv.translate ann).exec g).1 = ((townEnv.translate base).exec g).1 := by
  intro hall
  have heq := hall {} stray _ _ .refl given_stray rfl rfl
  have hbase : ((townEnv.translate perhapsCat).exec {}).1 = .ok (.named ⟨0, .object, "Cat"⟩) :=
    ok_of_toOption (by decide +kernel)
  have halias : ((townEnv.translate stray).exec {}).1 = .ok (.nonNull (.named ⟨0, .object, "Cat"⟩)) :=
    ok_of_toOption (by decide +kernel)
  cases halias.symm.trans (heq.trans hbase)

end Sample

end HintSchema
