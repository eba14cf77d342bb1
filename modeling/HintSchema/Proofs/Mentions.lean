import HintSchema.Proofs.Translation

/-!
# Classes that hints mention

`BuildEnv.classesIn` lists the classes in a resolved hint, at any depth; an alias of a class with a
scalar counts for nothing.  Which classes with a node they are depends on the key of the hint only
(`Typed.mem_classesIn_congr`).
-/

namespace HintSchema

variable {env : BuildEnv} {aliases : AliasTable} {ann ann' : ResolvedHint} {e e' : TypeExpr}
  {c d : ClassRef}

namespace ResolvedHint

/-- The scalar below an alias depends on the type only. -/
theorem Of.aliasedScalar_eq (h : Of e ann) (h' : Of e ann') :
    env.aliasedScalar ann = env.aliasedScalar ann' := by
  induction h generalizing ann' with
  | cls | noneType | list | aliasOf =>
    cases h'
    rfl
  | only hnone _ ih =>
    cases h' with
    | only _ hof => exact ih hof
    | optional hsome => simp [hnone] at hsome
    | union _ hlen => simp at hlen
  | optional hsome =>
    cases h' with
    | only hnone => simp [hnone] at hsome
    | optional => rfl
    | union hnone =>
      rw [hnone] at hsome
      cases hsome
  | union hnone hlen =>
    cases h' with
    | only => simp at hlen
    | optional hsome =>
      rw [hnone] at hsome
      cases hsome
    | union => rfl

end ResolvedHint

namespace BuildEnv

mutual

/-- The classes in a resolved hint. -/
def classesIn (env : BuildEnv) : ResolvedHint → List ClassRef
  | .cls _ c => [c]
  | .list _ element => env.classesIn element
  | .optional _ inner => env.classesIn inner
  | .union _ members => env.classesInAll members
  | .aliasOf _ base => if (env.aliasedScalar base).isSome then [] else env.classesIn base

/-- The classes in some resolved hints. -/
def classesInAll (env : BuildEnv) : List ResolvedHint → List ClassRef
  | [] => []
  | ann :: rest => env.classesIn ann ++ env.classesInAll rest

end

theorem classesIn_ofClass (c : ClassRef) (origin : Option Origin) :
    env.classesIn (.ofClass c origin) = [c] := by
  rw [ResolvedHint.ofClass, classesIn]

theorem mem_classesInAll {members : List ResolvedHint} :
    c ∈ env.classesInAll members ↔ ∃ m ∈ members, c ∈ env.classesIn m := by
  induction members with
  | nil => simp [classesInAll]
  | cons m rest ih => simp [classesInAll, ih]

/-- The classes in a type. -/
inductive Mentions (env : BuildEnv) : TypeExpr → ClassRef → Prop
  | cls (c : ClassRef) : Mentions env (.cls c) c
  | union {es : List TypeExpr} {e : TypeExpr} {c : ClassRef} :
      e ∈ es → Mentions env e c → Mentions env (.union es) c
  | generic {kind : GenericKind} {es : List TypeExpr} {e : TypeExpr} {c : ClassRef} :
      e ∈ es → Mentions env e c → Mentions env (.generic kind es) c
  | aliasOf {id : Nat} {name : String} {s : TypeExpr} {c : ClassRef} :
      (∀ base, ResolvedHint.Of s.ultimate base → env.aliasedScalar base = none) →
      Mentions env s.ultimate c → Mentions env (.aliasOf id name s) c

/-- Types of one key mention the same classes. -/
theorem Mentions.of_key (h : env.Mentions e c) (ho : e.Over env.hierarchy aliases)
    (ho' : e'.Over env.hierarchy aliases) (hk : e.key = e'.key) : env.Mentions e' c := by
  induction h generalizing e' with
  | cls c =>
    rw [TypeExpr.eq_cls_of_key ho ho' hk]
    exact .cls c
  | @union es e c he _ ih =>
    obtain ⟨es', rfl, hkeys⟩ := TypeExpr.eq_union_of_key hk
    obtain ⟨d, hd, hkd⟩ := List.mem_map.1 ((hkeys e.key).1 (List.mem_map_of_mem he))
    exact .union hd (ih (TypeExpr.overAll_iff.1 ho e he) (TypeExpr.overAll_iff.1 ho' d hd) hkd.symm)
  | @generic kind es e c he _ ih =>
    obtain ⟨es', rfl, hkeys⟩ := TypeExpr.eq_generic_of_key hk
    obtain ⟨d, hd, hkd⟩ := List.mem_map.1 (hkeys ▸ List.mem_map_of_mem (f := TypeExpr.key) he)
    exact .generic hd
      (ih (TypeExpr.overAll_iff.1 ho e he) (TypeExpr.overAll_iff.1 ho' d hd) hkd.symm)
  | aliasOf hscalar h =>
    rw [TypeExpr.eq_aliasOf_of_key ho ho' hk]
    exact .aliasOf hscalar h

theorem mentions_union_iff {es : List TypeExpr} :
    env.Mentions (.union es) c ↔ ∃ e ∈ es, env.Mentions e c := by
  constructor
  · rintro ⟨⟩
    exact ⟨_, ‹_›, ‹_›⟩
  · rintro ⟨e, he, h⟩
    exact .union he h

theorem mentions_generic_iff {kind : GenericKind} {es : List TypeExpr} :
    env.Mentions (.generic kind es) c ↔ ∃ e ∈ es, env.Mentions e c := by
  constructor
  · rintro ⟨⟩
    exact ⟨_, ‹_›, ‹_›⟩
  · rintro ⟨e, he, h⟩
    exact .generic he h

theorem mentions_aliasOf_iff {id : Nat} {name : String} {s : TypeExpr} :
    env.Mentions (.aliasOf id name s) c ↔
      (∀ base, ResolvedHint.Of s.ultimate base → env.aliasedScalar base = none) ∧
        env.Mentions s.ultimate c := by
  constructor
  · rintro ⟨⟩
    exact ⟨‹_›, ‹_›⟩
  · rintro ⟨hscalar, h⟩
    exact .aliasOf hscalar h

theorem not_mentions_noneType : ¬ env.Mentions .noneType c := nofun

theorem mentions_present_iff {es : List TypeExpr} :
    env.Mentions (.union (es.filter (!·.isNone))) c ↔ env.Mentions (.union es) c := by
  rw [mentions_union_iff, mentions_union_iff]
  constructor
  · rintro ⟨e, he, h⟩
    exact ⟨e, (List.mem_filter.1 he).1, h⟩
  · rintro ⟨e, he, h⟩
    refine ⟨e, List.mem_filter.2 ⟨he, ?_⟩, h⟩
    cases e <;> first | rfl | exact absurd h not_mentions_noneType

/-- A resolved hint mentions the classes of its type, and so does the type it carries. -/
theorem mem_classesIn_iff (h : ResolvedHint.Of e ann) (hc : c ≠ .noneType) :
    (c ∈ env.classesIn ann ↔ env.Mentions e c) ∧
      (env.Mentions ann.head.resolved c ↔ env.Mentions e c) := by
  induction h with
  | @cls head d hr =>
    refine ⟨?_, by rw [ResolvedHint.head, hr]⟩
    rw [classesIn, List.mem_singleton]
    constructor
    · rintro rfl
      exact .cls c
    · rintro ⟨⟩
      rfl
  | noneType hr =>
    refine ⟨?_, by rw [ResolvedHint.head, hr]⟩
    rw [classesIn, List.mem_singleton]
    exact ⟨fun h => absurd h hc, fun h => absurd h not_mentions_noneType⟩
  | list hr _ ih =>
    refine ⟨?_, by rw [ResolvedHint.head, hr]⟩
    rw [classesIn, ih.1, mentions_generic_iff]
    simp only [List.mem_singleton, exists_eq_left]
  | @aliasOf head id name s base hr hof ih =>
    refine ⟨?_, by rw [ResolvedHint.head, hr]⟩
    rw [mentions_aliasOf_iff]
    unfold classesIn
    split_ifs with hscalar
    · refine ⟨fun h => absurd h List.not_mem_nil, fun h => ?_⟩
      rw [h.1 base hof] at hscalar
      cases hscalar
    · rw [ih.1]
      refine ⟨fun h => ⟨fun base' hof' => ?_, h⟩, And.right⟩
      rw [← hof.aliasedScalar_eq hof']
      simpa using hscalar
  | @only e ann _ _ ih =>
    have hone : env.Mentions (.union [e]) c ↔ env.Mentions e c := by
      rw [mentions_union_iff]
      simp only [List.mem_singleton, exists_eq_left]
    exact ⟨ih.1.trans hone.symm, ih.2.trans hone.symm⟩
  | optional _ hr _ ih =>
    refine ⟨?_, by rw [ResolvedHint.head, hr]⟩
    rw [classesIn, ih.1, mentions_present_iff]
  | @union head es members _ _ hr hlen hof ih =>
    refine ⟨?_, by rw [ResolvedHint.head, hr]⟩
    rw [classesIn, mem_classesInAll, mentions_union_iff]
    have hmembers : List.Forall₂ (fun e m => c ∈ env.classesIn m ↔ env.Mentions e c) es members :=
      forall₂_of_zip hlen fun p hp => (ih p hp).1
    constructor
    · rintro ⟨m, hm, h⟩
      obtain ⟨e, he, hiff⟩ := exists_left_of_forall₂ hmembers hm
      exact ⟨e, he, hiff.1 h⟩
    · rintro ⟨e, he, h⟩
      obtain ⟨m, hm, hiff⟩ := exists_right_of_forall₂ hmembers he
      exact ⟨m, hm, hiff.2 h⟩

/-- Hints of one key mention the same classes. -/
theorem Typed.mem_classesIn_congr (h : env.Typed aliases ann)
    (h' : env.Typed aliases ann') (hk : ann.key = ann'.key) (hc : c ≠ .noneType) :
    c ∈ env.classesIn ann ↔ c ∈ env.classesIn ann' := by
  obtain ⟨e, ho, hof⟩ := h
  obtain ⟨e', ho', hof'⟩ := h'
  obtain ⟨hmem, hres⟩ := mem_classesIn_iff hof hc
  obtain ⟨hmem', hres'⟩ := mem_classesIn_iff hof' hc
  rw [hmem, hmem', ← hres, ← hres']
  have hover := (hof.over_resolved ho).1
  have hover' := (hof'.over_resolved ho').1
  exact ⟨fun h => h.of_key hover hover' hk, fun h => h.of_key hover' hover hk.symm⟩

end BuildEnv

end HintSchema
