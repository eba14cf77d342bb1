import HintSchema.Proofs.Evaluation

/-!
# What resolved hints are made of

`ResolvedHint.Of e ann` says that `ann` is the resolved hint of the type `e`, whatever it was
written as and wherever.  A resolved hint is a layer over another one (`BuildEnv.layer?`) or has a
node of its own; the type of an inner layer has a smaller rank, so no layer has the key of one that
it is under (`WellFormed.of_layer`).
-/

namespace HintSchema

/-- The resolved hints of a type. -/
inductive ResolvedHint.Of : TypeExpr → ResolvedHint → Prop
  | cls {head : ResolvedHead} {c : ClassRef} :
      head.resolved = .cls c → Of (.cls c) (.cls head c)
  | noneType {head : ResolvedHead} :
      head.resolved = .noneType → Of .noneType (.cls head .noneType)
  | list {head : ResolvedHead} {kind : GenericKind} {e : TypeExpr} {element : ResolvedHint} :
      head.resolved = .generic kind [e] → Of e element → Of (.generic kind [e]) (.list head element)
  | aliasOf {head : ResolvedHead} {id : Nat} {name : String} {supertype : TypeExpr}
      {base : ResolvedHint} :
      head.resolved = .aliasOf id name supertype → Of supertype.ultimate base →
      Of (.aliasOf id name supertype) (.aliasOf head base)
  | only {e : TypeExpr} {ann : ResolvedHint} : e.isNone = false → Of e ann → Of (.union [e]) ann
  | optional {head : ResolvedHead} {es : List TypeExpr} {inner : ResolvedHint} :
      es.any TypeExpr.isNone = true → head.resolved = .union es →
      Of (.union (es.filter (!·.isNone))) inner → Of (.union es) (.optional head inner)
  | union {head : ResolvedHead} {es : List TypeExpr} {members : List ResolvedHint} :
      es.any TypeExpr.isNone = false → 2 ≤ es.length → head.resolved = .union es →
      members.length = es.length → (∀ p ∈ es.zip members, Of p.1 p.2) →
      Of (.union es) (.union head members)

namespace ResolvedHint

/-! ## Resolving -/

theorem of_belowAlias {supertype : TypeExpr} {base : ResolvedHint} (h : Of supertype base) :
    Of supertype.ultimate (if supertype.isAlias then base.belowAlias else base) := by
  cases supertype with
  | aliasOf id name s =>
    cases h with
    | aliasOf _ hbase => exact hbase
  | _ => exact h

theorem of_overMembers {head : ResolvedHead} {es : List TypeExpr} {members : List ResolvedHint}
    (hne : es ≠ []) (hnone : es.any TypeExpr.isNone = false) (hhead : head.resolved = .union es)
    (hlen : members.length = es.length) (hof : ∀ p ∈ es.zip members, Of p.1 p.2) :
    Of (.union es) (overMembers head members) := by
  match es, members with
  | [e], [ann] =>
    refine .only (by simpa using hnone) (hof (e, ann) ?_)
    simp
  | e :: e' :: rest, [_] | e :: e' :: rest, [] => simp at hlen
  | e :: e' :: rest, _ :: _ :: _ => exact .union hnone (by simp) hhead hlen hof

theorem any_isNone_filter (es : List TypeExpr) :
    (es.filter (!·.isNone)).any TypeExpr.isNone = false := by
  rw [List.any_eq_false]
  intro e he
  simpa using (List.mem_filter.1 he).2

theorem filter_eq_self_of_any {es : List TypeExpr} (h : es.any TypeExpr.isNone = false) :
    es.filter (!·.isNone) = es := by
  rw [List.filter_eq_self]
  intro e he
  simpa using List.any_eq_false.1 h e he

theorem mem_of_present {es : List TypeExpr} {only : TypeExpr}
    (hpresent : es.filter (!·.isNone) = [only]) : only ∈ es ∧ only.isNone = false := by
  have hmem : only ∈ es.filter (!·.isNone) := hpresent ▸ List.mem_cons_self
  simpa using List.mem_filter.1 hmem

mutual

theorem of_ofExpr {raw : Option Hint} {origin : Option Origin} :
    ∀ {e : TypeExpr} {ann : ResolvedHint}, ofExpr raw origin e = .ok ann → Of e ann
  | .cls c, ann, h => by
    cases h
    exact .cls rfl
  | .noneType, ann, h => by
    cases h
    exact .noneType rfl
  | .forward source, ann, h => by cases h
  | .aliasOf id name supertype, ann, h => by
    unfold ofExpr at h
    obtain ⟨base, hbase, h⟩ := ok_of_bind h
    cases h
    exact .aliasOf rfl (of_belowAlias (of_ofExpr hbase))
  | .generic kind [element], ann, h => by
    unfold ofExpr at h
    split_ifs at h
    obtain ⟨inner, hinner, h⟩ := ok_of_bind h
    cases h
    exact .list rfl (of_ofExpr hinner)
  | .generic kind [], ann, h => by
    unfold ofExpr at h
    split_ifs at h
  | .generic kind (_ :: _ :: _), ann, h => by
    rw [ofExpr] at h
    · split_ifs at h
    all_goals simp
  | .union es, ann, h => by
    unfold ofExpr at h
    dsimp only at h
    split_ifs at h with hempty hnone <;> obtain ⟨members, hmembers, h⟩ := ok_of_bind h <;>
      obtain ⟨hlen, hof⟩ := of_ofMembers hmembers <;> cases h
    · exact .optional hnone rfl
        (of_overMembers (by simpa using hempty) (any_isNone_filter es) rfl hlen hof)
    · rw [Bool.not_eq_true] at hnone
      rw [filter_eq_self_of_any hnone] at *
      exact of_overMembers (by simpa using hempty) hnone rfl hlen hof

theorem of_ofMembers {raws : List (Option Hint)} {origin : Option Origin} :
    ∀ {es : List TypeExpr} {members : List ResolvedHint},
      ofMembers raws origin es = .ok members →
        members.length = (es.filter (!·.isNone)).length ∧
          ∀ p ∈ (es.filter (!·.isNone)).zip members, Of p.1 p.2
  | [], members, h => by
    cases h
    simp
  | e :: rest, members, h => by
    unfold ofMembers at h
    split_ifs at h with hnone
    · obtain ⟨hlen, hof⟩ := of_ofMembers h
      simp only [hnone, Bool.not_true, Bool.false_eq_true, not_false_eq_true,
        List.filter_cons_of_neg]
      exact ⟨hlen, hof⟩
    · obtain ⟨ann, hann, h⟩ := ok_of_bind h
      obtain ⟨anns, hanns, h⟩ := ok_of_bind h
      cases h
      obtain ⟨hlen, hof⟩ := of_ofMembers hanns
      have hnone' : (!e.isNone) = true := by simpa using hnone
      rw [List.filter_cons_of_pos (by simpa using hnone'), List.zip_cons_cons]
      refine ⟨by simp [hlen], fun p hp => ?_⟩
      rcases List.mem_cons.1 hp with rfl | hp
      · exact of_ofExpr hann
      · exact hof p hp

end

/-! ## One type -/

/-- The resolved hints of a type carry one type. -/
theorem Of.resolved_unique {e : TypeExpr} {ann ann' : ResolvedHint} (h : Of e ann)
    (h' : Of e ann') : ann.head.resolved = ann'.head.resolved := by
  induction h with
  | cls hr | noneType hr | list hr | aliasOf hr =>
    cases h' with
    | _ hr' => exact hr.trans hr'.symm
  | @only e _ hpresent _ ih =>
    cases h' with
    | only _ h' => exact ih h'
    | optional hnone => simp [hpresent] at hnone
    | union _ hlen => simp at hlen
  | optional hnone hr =>
    cases h' with
    | only hpresent => simp [hpresent] at hnone
    | optional _ hr' => exact hr.trans hr'.symm
    | union hpresent => rw [hpresent] at hnone; cases hnone
  | union hpresent hlen hr =>
    cases h' with
    | only => simp at hlen
    | optional hnone => rw [hpresent] at hnone; cases hnone
    | union _ _ hr' => exact hr.trans hr'.symm

theorem Of.key_unique {e : TypeExpr} {ann ann' : ResolvedHint} (h : Of e ann)
    (h' : Of e ann') : ann.key = ann'.key :=
  congrArg TypeExpr.key (h.resolved_unique h')

/-! ## Whether a type resolves -/

mutual

/-- Whether a type resolves depends neither on the hint as written nor on the place. -/
theorem exists_ofExpr (raw' : Option Hint) (origin' : Option Origin) :
    ∀ {e : TypeExpr} {raw : Option Hint} {origin : Option Origin} {ann : ResolvedHint},
      ofExpr raw origin e = .ok ann → ∃ ann', ofExpr raw' origin' e = .ok ann'
  | .cls c, _, _, _, _ => ⟨_, rfl⟩
  | .noneType, _, _, _, _ => ⟨_, rfl⟩
  | .forward _, _, _, _, h => by cases h
  | .aliasOf id name supertype, _, _, _, h => by
    unfold ofExpr at h ⊢
    obtain ⟨base, hbase, -⟩ := ok_of_bind h
    obtain ⟨base', hbase'⟩ := exists_ofExpr none origin' hbase
    rw [hbase']
    exact ⟨_, rfl⟩
  | .generic kind [element], _, _, _, h => by
    unfold ofExpr at h ⊢
    split_ifs at h ⊢
    obtain ⟨inner, hinner, -⟩ := ok_of_bind h
    obtain ⟨inner', hinner'⟩ := exists_ofExpr (Hint.unwrap? raw') origin' hinner
    simp only [hinner']
    exact ⟨_, rfl⟩
  | .generic kind [], _, _, _, h => by
    unfold ofExpr at h
    split_ifs at h
  | .generic kind (_ :: _ :: _), _, _, _, h => by
    rw [ofExpr] at h
    · split_ifs at h
    all_goals simp
  | .union es, _, _, _, h => by
    unfold ofExpr at h ⊢
    dsimp only at h ⊢
    split_ifs at h ⊢ <;> obtain ⟨members, hmembers, -⟩ := ok_of_bind h
    all_goals
      obtain ⟨members', hmembers'⟩ := exists_ofMembers
        (rawsOfMembers raw' (es.filter (!·.isNone)).length) origin' hmembers
      rw [hmembers']
      exact ⟨_, rfl⟩

theorem exists_ofMembers (raws' : List (Option Hint)) (origin' : Option Origin) :
    ∀ {es : List TypeExpr} {raws : List (Option Hint)} {origin : Option Origin}
      {members : List ResolvedHint}, ofMembers raws origin es = .ok members →
        ∃ members', ofMembers raws' origin' es = .ok members'
  | [], _, _, _, _ => ⟨_, rfl⟩
  | e :: rest, _, _, _, h => by
    unfold ofMembers at h ⊢
    split_ifs at h ⊢
    · exact exists_ofMembers raws' origin' h
    · obtain ⟨ann, hann, h⟩ := ok_of_bind h
      obtain ⟨anns, hanns, -⟩ := ok_of_bind h
      obtain ⟨ann', hann'⟩ := exists_ofExpr raws'.head?.join origin' hann
      obtain ⟨anns', hanns'⟩ := exists_ofMembers raws'.tail origin' hanns
      rw [hann', hanns']
      exact ⟨_, rfl⟩

end

/-! ## Resolving unions -/

theorem ofMembers_filter (raws : List (Option Hint)) (origin : Option Origin)
    (es : List TypeExpr) :
    ofMembers raws origin (es.filter (!·.isNone)) = ofMembers raws origin es := by
  induction es generalizing raws with
  | nil => rfl
  | cons e rest ih =>
    by_cases hnone : e.isNone
    · simp only [hnone, Bool.not_true, Bool.false_eq_true, not_false_eq_true,
        List.filter_cons_of_neg]
      rw [ih, ofMembers, if_pos hnone]
    · rw [List.filter_cons_of_pos (by simpa using hnone), ofMembers, ofMembers, if_neg hnone,
        if_neg hnone, ih]

/-- A union with one member besides absence is that member, perhaps optional. -/
theorem ofExpr_union_one {raw : Option Hint} {origin : Option Origin} {es : List TypeExpr}
    {only : TypeExpr} (h : es.filter (!·.isNone) = [only]) :
    ofExpr raw origin (.union es) = (ofExpr (Hint.unwrap? raw) origin only).map fun ann =>
      if es.any TypeExpr.isNone then .optional ⟨raw, .union es, origin⟩ ann else ann := by
  have honly := (mem_of_present h).2
  rw [ofExpr]
  simp only [h, List.isEmpty_cons, Bool.false_eq_true, if_false, List.length_singleton]
  rw [← ofMembers_filter, h, ofMembers, ofMembers, honly]
  simp only [rawsOfMembers, if_true, Bool.false_eq_true, if_false, List.head?_cons,
    Option.join_some]
  cases ofExpr (Hint.unwrap? raw) origin only <;> rfl

/-- A union with more members besides absence is a union of them, perhaps optional. -/
theorem ofExpr_union_many {raw : Option Hint} {origin : Option Origin} {es : List TypeExpr}
    (h : 2 ≤ (es.filter (!·.isNone)).length) :
    ofExpr raw origin (.union es) =
      (ofMembers (rawsOfMembers raw (es.filter (!·.isNone)).length) origin es).map fun members =>
        if es.any TypeExpr.isNone then
          .optional ⟨raw, .union es, origin⟩
            (.union ⟨Hint.unwrap? raw, .union (es.filter (!·.isNone)), origin⟩ members)
        else .union ⟨raw, .union (es.filter (!·.isNone)), origin⟩ members := by
  have hne : (es.filter (!·.isNone)).isEmpty = false := by
    cases hes : es.filter (!·.isNone) with
    | nil => simp [hes] at h
    | cons => rfl
  rw [ofExpr]
  simp only [hne, Bool.false_eq_true, if_false]
  cases hm : ofMembers (rawsOfMembers raw (es.filter (!·.isNone)).length) origin es with
  | error e => rfl
  | ok members =>
    have hlen := (of_ofMembers hm).1
    match members with
    | [] | [_] => simp at hlen; omega
    | _ :: _ :: _ => cases es.any TypeExpr.isNone <;> rfl

/-- A union is resolved by its only member or by all of them, perhaps below absence. -/
theorem ofExpr_union_cases {raw : Option Hint} {origin : Option Origin} {es : List TypeExpr}
    {ann : ResolvedHint} (h : ofExpr raw origin (.union es) = .ok ann) :
    (∃ only inner, es.filter (!·.isNone) = [only] ∧
      ofExpr (Hint.unwrap? raw) origin only = .ok inner ∧
      ann = if es.any TypeExpr.isNone then .optional ⟨raw, .union es, origin⟩ inner else inner) ∨
    ∃ members, 2 ≤ (es.filter (!·.isNone)).length ∧
      ofMembers (rawsOfMembers raw (es.filter (!·.isNone)).length) origin es = .ok members ∧
      ann = if es.any TypeExpr.isNone then
          .optional ⟨raw, .union es, origin⟩
            (.union ⟨Hint.unwrap? raw, .union (es.filter (!·.isNone)), origin⟩ members)
        else .union ⟨raw, .union (es.filter (!·.isNone)), origin⟩ members := by
  match hpresent : es.filter (!·.isNone) with
  | [] =>
    rw [ofExpr, hpresent] at h
    cases h
  | [only] =>
    rw [ofExpr_union_one hpresent] at h
    obtain ⟨inner, hinner, rfl⟩ := ok_of_map h
    exact .inl ⟨only, inner, hpresent, hinner, rfl⟩
  | first :: second :: rest =>
    have hlen : 2 ≤ (es.filter (!·.isNone)).length := by simp [hpresent]
    rw [ofExpr_union_many hlen] at h
    obtain ⟨members, hmembers, rfl⟩ := ok_of_map h
    exact .inr ⟨members, hlen, hmembers, rfl⟩

/-! ## Parts over declarations -/

variable {h : Hierarchy} {aliases : AliasTable} {e : TypeExpr} {ann : ResolvedHint}

theorem Of.over_resolved (hof : Of e ann) (ho : e.Over h aliases) :
    ann.head.resolved.Over h aliases ∧ ann.head.resolved.rank ≤ e.rank := by
  induction hof with
  | cls hr | noneType hr | list hr | aliasOf hr | optional _ hr | union _ _ hr =>
    rw [ResolvedHint.head, hr]
    exact ⟨ho, le_rfl⟩
  | @only e ann _ _ ih =>
    obtain ⟨ho', hrank⟩ := ih (TypeExpr.overAll_iff.1 ho e (by simp))
    refine ⟨ho', hrank.trans ?_⟩
    exact (TypeExpr.rank_le_maxRank List.mem_cons_self).trans (Nat.le_add_right _ _)

/-- The resolved hint of a normal type carries that type. -/
theorem Of.resolved_eq (hof : Of e ann) (hn : e.Normal) : ann.head.resolved = e := by
  cases hof with
  | cls hr | noneType hr | list hr | aliasOf hr | optional _ hr | union _ _ hr => exact hr
  | only => exact absurd rfl hn.2.2.2

end ResolvedHint

/-! ## Layers -/

namespace BuildEnv

/-- The resolved hint that one is a layer over, and what the layer makes of its type.  An alias of a
class with a scalar is none, as it has a node of its own. -/
def layer? (env : BuildEnv) : ResolvedHint → Option (ResolvedHint × (TypeRef → TypeRef))
  | .list _ element => some (element, fun t => .nonNull (.list t))
  | .optional _ inner => some (inner, TypeRef.nullable)
  | .aliasOf _ base =>
    match env.aliasedScalar base with
    | some _ => none
    | none => some (base, fun t => .nonNull t.nullable)
  | .cls .. | .union .. => none

variable {env : BuildEnv} {aliases : AliasTable} {e : TypeExpr} {ann inner : ResolvedHint}
  {wrap : TypeRef → TypeRef}

/-- A layer is that of a list, of absence, or of an alias without a scalar. -/
theorem layer?_cases (hl : env.layer? ann = some (inner, wrap)) :
    (∃ head, ann = .list head inner ∧ wrap = fun t => .nonNull (.list t)) ∨
    (∃ head, ann = .optional head inner ∧ wrap = TypeRef.nullable) ∨
    ∃ head, ann = .aliasOf head inner ∧ env.aliasedScalar inner = none ∧
      wrap = fun t => .nonNull t.nullable := by
  cases ann with
  | list head =>
    cases hl
    exact .inl ⟨head, rfl, rfl⟩
  | optional head =>
    cases hl
    exact .inr (.inl ⟨head, rfl, rfl⟩)
  | aliasOf head base =>
    rw [layer?] at hl
    split at hl
    · cases hl
    · rename_i hs
      cases hl
      exact .inr (.inr ⟨head, rfl, hs, rfl⟩)
  | cls | union => cases hl

/-- The type under a layer is over the declarations too, and is nested less deep. -/
theorem WellFormed.of_layer (hw : env.WellFormed aliases) (hof : ResolvedHint.Of e ann)
    (ho : e.Over env.hierarchy aliases) (hl : env.layer? ann = some (inner, wrap)) :
    ∃ e', ResolvedHint.Of e' inner ∧ e'.Over env.hierarchy aliases ∧
      e'.rank < ann.head.resolved.rank := by
  induction hof with
  | cls | noneType | union => cases hl
  | only _ _ ih => exact ih (TypeExpr.overAll_iff.1 ho _ (by simp)) hl
  | @list head kind e element hr hof =>
    cases hl
    refine ⟨e, hof, TypeExpr.overAll_iff.1 ho e (by simp), ?_⟩
    rw [ResolvedHint.head, hr, TypeExpr.rank_generic]
    exact Nat.lt_succ_of_le (TypeExpr.rank_le_maxRank (by simp))
  | @optional head es inner hnone hr hof =>
    cases hl
    have hsub : ∀ e ∈ es.filter (!·.isNone), e ∈ es := fun e he => (List.mem_filter.1 he).1
    have hle : TypeExpr.maxRank (es.filter (!·.isNone)) ≤ TypeExpr.maxRank es :=
      TypeExpr.maxRank_le fun e he => TypeExpr.rank_le_maxRank (hsub e he)
    refine ⟨_, hof, ?_, ?_⟩
    · exact TypeExpr.overAll_iff.2 fun e he => TypeExpr.overAll_iff.1 ho e (hsub e he)
    · rw [ResolvedHint.head, hr, TypeExpr.rank_union, TypeExpr.rank_union, if_pos hnone,
        ResolvedHint.any_isNone_filter]
      simp only [Bool.false_eq_true, if_false]
      omega
  | @aliasOf head id name supertype base hr hof =>
    obtain ⟨_, h, -⟩ | ⟨_, h, -⟩ | ⟨_, h, -⟩ := layer?_cases hl <;> cases h
    refine ⟨_, hof, TypeExpr.over_ultimate hw.supertypes (hw.supertypes ho), ?_⟩
    rw [ResolvedHint.head, hr, TypeExpr.rank_aliasOf]
    exact Nat.lt_succ_of_le (TypeExpr.rank_ultimate_le supertype)

/-- With normal supertypes of aliases, the type under a layer of a normal type is normal. -/
theorem WellFormed.of_layer_proper (hw : env.WellFormed aliases)
    (hnormal : ∀ {id name s}, aliases id = some (name, s) → s.Normal)
    (hof : ResolvedHint.Of e ann) (hp : e.Proper env.hierarchy aliases)
    (hl : env.layer? ann = some (inner, wrap)) :
    ∃ e', ResolvedHint.Of e' inner ∧ e'.Proper env.hierarchy aliases := by
  cases hof with
  | cls | noneType | union => cases hl
  | only => exact absurd rfl hp.normal.2.2.2
  | @list head kind e element hr hof =>
    cases hl
    exact ⟨e, hof, TypeExpr.overAll_iff.1 hp.declared e (by simp),
      TypeExpr.normalAll_iff.1 hp.normal e (by simp)⟩
  | @optional head es inner hnone hr hof =>
    cases hl
    have hmem : ∀ e ∈ es.filter (!·.isNone), e.Proper env.hierarchy aliases ∧ e.isUnion = false :=
      fun e he => hp.members e (List.mem_filter.1 he).1
    generalize hes : es.filter (!·.isNone) = present at hof hmem
    cases hof with
    | @only e _ _ hof => exact ⟨e, hof, (hmem e (by simp)).1⟩
    | optional hsome => rw [← hes, ResolvedHint.any_isNone_filter] at hsome; cases hsome
    | union hnone' hlen hr' hlen' hof =>
      refine ⟨_, .union hnone' hlen hr' hlen' hof, ?_, ?_⟩
      · exact TypeExpr.overAll_iff.2 fun e he => (hmem e he).1.declared
      · refine ⟨TypeExpr.normalAll_iff.2 fun e he => (hmem e he).1.normal,
          fun e he => (hmem e he).2, ?_, by omega⟩
        have hnodup := hp.normal.2.2.1
        rw [TypeExpr.keys_eq_map] at hnodup ⊢
        rw [← hes]
        exact hnodup.sublist ((List.filter_sublist).map _)
  | @aliasOf head id name supertype base hr hof =>
    obtain ⟨_, h, -⟩ | ⟨_, h, -⟩ | ⟨_, h, -⟩ := layer?_cases hl <;> cases h
    exact ⟨_, hof, TypeExpr.over_ultimate hw.supertypes (hw.supertypes hp.declared),
      TypeExpr.normal_ultimate hw.supertypes hnormal (hw.supertypes hp.declared)
        (hnormal hp.declared)⟩

end BuildEnv

/-! ## Members -/

/-- The members of a union are the resolved hints of types that its type lists. -/
theorem ResolvedHint.Of.member {e : TypeExpr} {head : ResolvedHead} {members : List ResolvedHint}
    {m : ResolvedHint} (hof : Of e (.union head members)) (hm : m ∈ members) :
    ∃ es, head.resolved = .union es ∧ ∃ e' ∈ es, Of e' m := by
  generalize hann : ResolvedHint.union head members = ann at hof
  induction hof with
  | cls | noneType | list | aliasOf | optional => cases hann
  | only _ _ ih => exact ih hann
  | @union head' es members' hnone hlen hr hlen' hof =>
    cases hann
    obtain ⟨e, he, hof'⟩ := exists_left_of_forall₂ (forall₂_of_zip hlen' hof) hm
    exact ⟨es, hr, e, he, hof'⟩

end HintSchema
