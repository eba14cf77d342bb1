import HintSchema.Proofs.Memory
import HintSchema.Proofs.Mentions

/-!
# What a resolved hint means

`Graph.Reads` reads a resolved hint off the nodes of a graph, layer by layer, without what the graph
remembers.  Proper hints of one key read the same (`layer?_congr`), so whatever was translated
before, a translation that succeeds gives what its hint reads as (`translate_reads`).
-/

namespace HintSchema

open Relation

variable {env : BuildEnv} {aliases : AliasTable} {g g' : Graph} {ann ann' inner : ResolvedHint}
  {wrap : TypeRef → TypeRef} {t : TypeRef} {e e' : TypeExpr} {i : Nat}

/-! ## Reading a hint -/

/-- Two lists of hints of the same types, in any order. -/
def ResolvedHint.SameMembers (members members' : List ResolvedHint) : Prop :=
  ∀ k, k ∈ members.map key ↔ k ∈ members'.map key

/-- A union of some members. -/
def NodeBody.IsUnionOf (members : List ResolvedHint) : NodeBody → Prop
  | .union declared _ => ResolvedHint.SameMembers declared members
  | _ => False

namespace Graph

/-- The reference to the first node with a property. -/
def First (g : Graph) (p : Node → Prop) (n : NodeRef) : Prop :=
  ∃ node, g.nodes[n.id]? = some node ∧ node.refAt n.id = n ∧ p node ∧
    ∀ i node', i < n.id → g.nodes[i]? = some node' → ¬ p node'

/-- What a resolved hint reads as, given the nodes and the scalars that a graph has. -/
inductive Reads (env : BuildEnv) (g : Graph) : ResolvedHint → TypeRef → Prop
  | cls {head : ResolvedHead} {c : ClassRef} {n : NodeRef} :
      g.First (fun node => ∃ d, node.body.class? = some d ∧ d.id = c.id) n →
      Reads env g (.cls head c) (.nonNull (.named n))
  | scalar {head : ResolvedHead} {c : ClassRef} {n : NodeRef} :
      env.classNode c = none → g.scalarNode? c = some n →
      Reads env g (.cls head c) (.nonNull (.named n))
  | list {head : ResolvedHead} {element : ResolvedHint} {t : TypeRef} :
      Reads env g element t → Reads env g (.list head element) (.nonNull (.list t))
  | optional {head : ResolvedHead} {inner : ResolvedHint} {t : TypeRef} :
      Reads env g inner t → Reads env g (.optional head inner) t.nullable
  | scalarAlias {head : ResolvedHead} {base : ResolvedHint} {s : ScalarType} {i : Nat} :
      env.aliasedScalar base = some s →
      g.nodes[i]? = some (BuildEnv.aliasNode (.aliasOf head base) s) →
      Reads env g (.aliasOf head base)
        (.nonNull (.named ⟨i, .scalar, BuildEnv.aliasName (.aliasOf head base)⟩))
  | aliasOf {head : ResolvedHead} {base : ResolvedHint} {t : TypeRef} :
      env.aliasedScalar base = none → Reads env g base t →
      Reads env g (.aliasOf head base) (.nonNull t.nullable)
  | union {head : ResolvedHead} {members : List ResolvedHint} {n : NodeRef} :
      g.First (fun node => node.body.IsUnionOf members) n →
      Reads env g (.union head members) (.nonNull (.named n))

end Graph

/-- Whether a hint is optional itself. -/
def ResolvedHint.isOptional : ResolvedHint → Bool
  | .optional .. => true
  | _ => false

/-- Whether a layer of non-null is directly on another one, anywhere in a type. -/
def TypeRef.isDoubled : TypeRef → Bool
  | .named _ => false
  | .list inner => inner.isDoubled
  | .nonNull inner => inner.isNonNull || inner.isDoubled

theorem TypeRef.nullable_spec (h : t.isDoubled = false) :
    t.nullable.isNonNull = false ∧ t.nullable.isDoubled = false := by
  cases t with
  | named n => exact ⟨rfl, rfl⟩
  | list inner => exact ⟨rfl, h⟩
  | nonNull inner => exact Bool.or_eq_false_iff.1 h

theorem Graph.Reads.layers (h : g.Reads env ann t) :
    (t.isNonNull = false ↔ ann.isOptional = true) ∧ t.isDoubled = false := by
  induction h with
  | cls | scalar | scalarAlias | union =>
    exact ⟨by simp [TypeRef.isNonNull, ResolvedHint.isOptional], rfl⟩
  | list _ ih => exact ⟨by simp [TypeRef.isNonNull, ResolvedHint.isOptional], ih.2⟩
  | optional _ ih =>
    obtain ⟨hnull, hdouble⟩ := TypeRef.nullable_spec ih.2
    exact ⟨by simp [hnull, ResolvedHint.isOptional], hdouble⟩
  | aliasOf _ _ ih =>
    obtain ⟨hnull, hdouble⟩ := TypeRef.nullable_spec ih.2
    refine ⟨by simp [TypeRef.isNonNull, ResolvedHint.isOptional], ?_⟩
    exact Bool.or_eq_false_iff.2 ⟨hnull, hdouble⟩

/-! ## Hints of one type -/

namespace ResolvedHint

theorem Of.key_eq (h : Of e ann) (hn : e.Normal) : ann.key = e.key := by
  rw [key, h.resolved_eq hn]

/-- The members of a normal union have the keys of its types. -/
theorem Of.keys_of_members {es : List TypeExpr} {members : List ResolvedHint}
    (hn : (TypeExpr.union es).Normal) (hmembers : List.Forall₂ Of es members) :
    members.map key = es.map TypeExpr.key := by
  obtain ⟨hall, -, -, -⟩ := hn
  rw [TypeExpr.normalAll_iff] at hall
  induction hmembers with
  | nil => rfl
  | cons hof _ ih =>
    rw [List.map_cons, List.map_cons, hof.key_eq (hall _ List.mem_cons_self),
      ih fun e he => hall e (List.mem_cons_of_mem _ he)]

/-- The key under an optional layer: that of the only type present, or that of the union. -/
theorem Of.key_present {es : List TypeExpr} (h : Of (.union es) ann)
    (hnone : es.any TypeExpr.isNone = false) (hn : ∀ e ∈ es, e.Normal) :
    (∃ e, es = [e] ∧ ann.key = e.key) ∨ 2 ≤ es.length ∧ ann.key = (TypeExpr.union es).key := by
  cases h with
  | @only e _ _ hof => exact .inl ⟨e, rfl, hof.key_eq (hn e List.mem_cons_self)⟩
  | optional hsome =>
    rw [hnone] at hsome
    cases hsome
  | union _ hlen hr => exact .inr ⟨hlen, by rw [key, head, hr]⟩

theorem mem_keys_present {es : List TypeExpr} {k : TypeKey} :
    k ∈ (es.filter (!·.isNone)).map TypeExpr.key ↔ k ∈ es.map TypeExpr.key ∧ k ≠ .noneType := by
  simp only [List.mem_map, List.mem_filter]
  constructor
  · rintro ⟨e, ⟨he, hnone⟩, rfl⟩
    refine ⟨⟨e, he, rfl⟩, fun hk => ?_⟩
    rw [TypeExpr.key_eq_noneType_iff] at hk
    subst hk
    cases hnone
  · rintro ⟨⟨e, he, rfl⟩, hk⟩
    refine ⟨e, ⟨he, ?_⟩, rfl⟩
    rw [Ne, TypeExpr.key_eq_noneType_iff] at hk
    cases e <;> first | rfl | exact absurd rfl hk

end ResolvedHint

namespace BuildEnv

section Alike

variable (h : env.ProperHint aliases ann) (h' : env.ProperHint aliases ann')
  (hk : ann.key = ann'.key)
include h h' hk

/-- Proper hints of one key are of types of one key. -/
theorem exists_of_key :
    ∃ e e', e.Proper env.hierarchy aliases ∧ ResolvedHint.Of e ann ∧
      e'.Proper env.hierarchy aliases ∧ ResolvedHint.Of e' ann' ∧ e.key = e'.key := by
  obtain ⟨e, hp, hof⟩ := h
  obtain ⟨e', hp', hof'⟩ := h'
  exact ⟨e, e', hp, hof, hp', hof', by
    rw [← hof.key_eq hp.normal, ← hof'.key_eq hp'.normal, hk]⟩

theorem eq_cls_of_key {head : ResolvedHead} {c : ClassRef} (hann : ann = .cls head c) :
    ∃ head', ann' = .cls head' c := by
  obtain ⟨e, e', hp, hof, hp', hof', hkey⟩ := exists_of_key h h' hk
  subst hann
  cases hof with
  | cls hr =>
    obtain rfl := TypeExpr.eq_cls_of_key hp.declared hp'.declared hkey
    cases hof' with
    | cls => exact ⟨_, rfl⟩
  | noneType hr =>
    obtain rfl := TypeExpr.key_eq_noneType_iff.1 hkey.symm
    cases hof' with
    | noneType => exact ⟨_, rfl⟩
  | only => exact absurd rfl hp.normal.2.2.2

theorem eq_union_of_key {head : ResolvedHead} {members : List ResolvedHint}
    (hann : ann = .union head members) :
    ∃ head' members', ann' = .union head' members' ∧
      ResolvedHint.SameMembers members members' := by
  obtain ⟨e, e', hp, hof, hp', hof', hkey⟩ := exists_of_key h h' hk
  subst hann
  cases hof with
  | only => exact absurd rfl hp.normal.2.2.2
  | @union _ es _ hnone hlen hr hlen' hmem =>
    obtain ⟨es', rfl, hkeys⟩ := TypeExpr.eq_union_of_key hkey
    have hnone' : es'.any TypeExpr.isNone = false := by
      rw [← hnone, Bool.eq_iff_iff, TypeExpr.any_isNone_iff, TypeExpr.any_isNone_iff, hkeys]
    cases hof' with
    | only => exact absurd rfl hp'.normal.2.2.2
    | optional hsome =>
      rw [hnone'] at hsome
      cases hsome
    | @union _ _ members' _ _ _ hlen'' hmem' =>
      refine ⟨_, _, rfl, fun k => ?_⟩
      rw [ResolvedHint.Of.keys_of_members hp.normal (forall₂_of_zip hlen' hmem),
        ResolvedHint.Of.keys_of_members hp'.normal (forall₂_of_zip hlen'' hmem')]
      exact hkeys k

theorem eq_aliasOf_of_key {head : ResolvedHead} {base : ResolvedHint}
    (hann : ann = .aliasOf head base) :
    ∃ head' base' e, ann' = .aliasOf head' base' ∧ head'.resolved = head.resolved ∧
      ResolvedHint.Of e base ∧ ResolvedHint.Of e base' ∧
      ∃ id name s, aliases id = some (name, s) ∧ e = s.ultimate := by
  obtain ⟨e, e', hp, hof, hp', hof', hkey⟩ := exists_of_key h h' hk
  subst hann
  cases hof with
  | only => exact absurd rfl hp.normal.2.2.2
  | aliasOf hr hbase =>
    obtain rfl := TypeExpr.eq_aliasOf_of_key hp.declared hp'.declared hkey
    cases hof' with
    | aliasOf hr' hbase' =>
      exact ⟨_, _, _, rfl, hr'.trans hr.symm, hbase, hbase', _, _, _, hp.declared, rfl⟩

end Alike

/-- Under optional layers of one key, hints have one key. -/
theorem key_eq_of_present {h : Hierarchy} {es es' : List TypeExpr}
    (hp : (TypeExpr.union es).Proper h aliases) (hp' : (TypeExpr.union es').Proper h aliases)
    (hkeys : ∀ k, k ∈ es.map TypeExpr.key ↔ k ∈ es'.map TypeExpr.key)
    (hof : ResolvedHint.Of (.union (es.filter (!·.isNone))) ann)
    (hof' : ResolvedHint.Of (.union (es'.filter (!·.isNone))) ann') : ann.key = ann'.key := by
  have hnormal : ∀ {es : List TypeExpr}, (TypeExpr.union es).Proper h aliases →
      (∀ e ∈ es.filter (!·.isNone), e.Normal) ∧
        ((es.filter (!·.isNone)).map TypeExpr.key).Nodup := by
    intro es hp
    refine ⟨fun e he => (hp.members e (List.mem_filter.1 he).1).1.normal, ?_⟩
    have hnodup := hp.normal.2.2.1
    rw [TypeExpr.keys_eq_map] at hnodup
    exact hnodup.sublist (List.filter_sublist.map _)
  obtain ⟨hn, hnodup⟩ := hnormal hp
  obtain ⟨hn', hnodup'⟩ := hnormal hp'
  have hmem : ∀ k, k ∈ (es.filter (!·.isNone)).map TypeExpr.key ↔
      k ∈ (es'.filter (!·.isNone)).map TypeExpr.key := by
    intro k
    rw [ResolvedHint.mem_keys_present, ResolvedHint.mem_keys_present, hkeys]
  -- distinct keys, so also as many types
  have hlen := ((List.perm_ext_iff_of_nodup hnodup hnodup').2 hmem).length_eq
  rw [List.length_map, List.length_map] at hlen
  obtain ⟨e, he, hk⟩ | ⟨hlen₁, hk⟩ := hof.key_present (ResolvedHint.any_isNone_filter es) hn <;>
    rcases hof'.key_present (ResolvedHint.any_isNone_filter es') hn' with
      ⟨e', he', hk'⟩ | ⟨hlen₂, hk'⟩
  · rw [he, he'] at hmem
    simp only [List.map_cons, List.map_nil, List.mem_singleton] at hmem
    rw [hk, hk', (hmem e.key).1 rfl]
  · rw [he, List.length_singleton] at hlen
    omega
  · rw [he', List.length_singleton] at hlen
    omega
  · rw [hk, hk', TypeExpr.key_union, TypeExpr.key_union]
    exact TypeKey.ofMembers_inj.2 hmem

/-- Under a layer, hints of one key have hints of one key again. -/
theorem WellFormed.layer?_congr (hw : env.WellFormed aliases)
    (hnormal : ∀ {id name s}, aliases id = some (name, s) → s.Normal)
    (h : env.ProperHint aliases ann) (h' : env.ProperHint aliases ann') (hk : ann.key = ann'.key)
    (hl : env.layer? ann = some (inner, wrap)) :
    ∃ inner', env.layer? ann' = some (inner', wrap) ∧ inner.key = inner'.key := by
  obtain ⟨head, rfl, rfl⟩ | ⟨head, rfl, rfl⟩ | ⟨head, rfl, hnone, rfl⟩ := layer?_cases hl
  · obtain ⟨e, e', hp, hof, hp', hof', hkey⟩ := exists_of_key h h' hk
    cases hof with
    | only => exact absurd rfl hp.normal.2.2.2
    | list hr helement =>
      obtain ⟨es', rfl, hkeys⟩ := TypeExpr.eq_generic_of_key hkey
      cases hof' with
      | list hr' helement' =>
        have hn := TypeExpr.normalAll_iff.1 hp.normal _ List.mem_cons_self
        have hn' := TypeExpr.normalAll_iff.1 hp'.normal _ List.mem_cons_self
        refine ⟨_, rfl, ?_⟩
        rw [helement.key_eq hn, helement'.key_eq hn']
        simpa using hkeys
  · obtain ⟨e, e', hp, hof, hp', hof', hkey⟩ := exists_of_key h h' hk
    cases hof with
    | only => exact absurd rfl hp.normal.2.2.2
    | @optional _ es _ hsome hr hpresent =>
      obtain ⟨es', rfl, hkeys⟩ := TypeExpr.eq_union_of_key hkey
      have hsome' : es'.any TypeExpr.isNone = true := by
        rw [TypeExpr.any_isNone_iff] at hsome ⊢
        exact (hkeys _).1 hsome
      cases hof' with
      | only => exact absurd rfl hp'.normal.2.2.2
      | union hnone =>
        rw [hnone] at hsome'
        cases hsome'
      | optional _ _ hpresent' => exact ⟨_, rfl, key_eq_of_present hp hp' hkeys hpresent hpresent'⟩
  · obtain ⟨head', base', e, rfl, -, hof, hof', id, name, s, hs, rfl⟩ :=
      eq_aliasOf_of_key h h' hk rfl
    have hn := TypeExpr.normal_ultimate hw.supertypes hnormal (hw.supertypes hs) (hnormal hs)
    refine ⟨base', ?_, (hof.key_eq hn).trans (hof'.key_eq hn).symm⟩
    rw [layer?, ← hof.aliasedScalar_eq hof', hnone]

theorem ProperHint.key_union {head : ResolvedHead} {members : List ResolvedHint}
    (h : env.ProperHint aliases (.union head members)) :
    (ResolvedHint.union head members).key = .ofMembers (members.map ResolvedHint.key) := by
  obtain ⟨e, hp, hof⟩ := h
  rw [hof.key_eq hp.normal]
  cases hof with
  | only => exact absurd rfl hp.normal.2.2.2
  | union _ _ _ hlen hmem =>
    rw [TypeExpr.key_union, ResolvedHint.Of.keys_of_members hp.normal (forall₂_of_zip hlen hmem)]

/-! ## What is remembered -/

section Cached

variable (hw : env.WellFormed aliases)
  (hnormal : ∀ {id name s}, aliases id = some (name, s) → s.Normal)
  (hv : Graph.Valid env (env.ProperHint aliases) g)
include hw hnormal hv

theorem reads_of_class {head : ResolvedHead} {c : ClassRef} {made node : Node}
    (hmade : env.classNode c = some made) (hn : g.nodes[i]? = some node)
    (hext : made.Extends node) : g.Reads env (.cls head c) (.nonNull (.named (node.refAt i))) := by
  have hc : node.body.class? = some c := hext.body.class?_eq.trans (classNode_spec hmade).1
  refine .cls ⟨node, hn, rfl, ⟨c, hc, rfl⟩, ?_⟩
  rintro j node' hlt hn' ⟨d, hd, hid⟩
  exact Nat.ne_of_lt hlt
    ((hw.domain_proper hnormal).index_of_class hw hv hn' hd hn hc hid)

omit hw hnormal in
/-- The node of a union comes from a hint of such a union. -/
theorem origin_of_union {node : Node} {members : List ResolvedHint} (hn : g.nodes[i]? = some node)
    (hunion : node.body.IsUnionOf members) :
    ∃ head declared, env.ProperHint aliases (.union head declared) ∧
      ResolvedHint.SameMembers declared members ∧
      g.cached (.union head declared) = some (.nonNull (.named (node.refAt i))) := by
  cases hv.origin hn with
  | scalar _ _ hnode =>
    rw [hnode] at hunion
    exact hunion.elim
  | @hint a made ha hown hext ht =>
    have hb := hext.body
    generalize node.body = body at hb hunion
    cases a with
    | cls head c =>
      have hc := hb.class?_eq.trans (classNode_spec hown).1
      cases body <;> first | exact hunion.elim | cases hc
    | union head declared =>
      obtain ⟨name, -, rfl⟩ := Option.map_eq_some_iff.1 hown
      cases hb with
      | union => exact ⟨head, declared, ha, hunion, ht⟩
    | aliasOf head base =>
      obtain ⟨s, -, rfl⟩ := Option.map_eq_some_iff.1 hown
      cases hb
      exact hunion.elim
    | list | optional => cases hown

omit hw hnormal in
/-- The node of a union is the only one of its members. -/
theorem reads_of_union {head head' : ResolvedHead} {members members' : List ResolvedHint}
    {name : String} {node : Node} (hP : env.ProperHint aliases (.union head members))
    (hn : g.nodes[i]? = some node) (hext : (unionNode name members).Extends node)
    (ht : g.cached (.union head members) = some (.nonNull (.named (node.refAt i))))
    (hsame : ResolvedHint.SameMembers members members') :
    g.Reads env (.union head' members') (.nonNull (.named (node.refAt i))) := by
  obtain ⟨filled, hbody⟩ : ∃ filled, node.body = .union members filled := by
    have hb := hext.body
    generalize node.body = body at hb
    cases hb with
    | union => exact ⟨_, rfl⟩
  have hown : node.body.IsUnionOf members' := by
    rw [hbody]
    exact hsame
  refine .union ⟨node, hn, rfl, hown, fun j node' hlt hn' hunion => ?_⟩
  obtain ⟨head₂, declared, hP₂, hdeclared, ht₂⟩ := origin_of_union hv hn' hunion
  have hkey : (ResolvedHint.union head₂ declared).key = (ResolvedHint.union head members).key := by
    rw [hP₂.key_union, hP.key_union]
    exact TypeKey.ofMembers_inj.2 fun k => (hdeclared k).trans (hsame k).symm
  rw [Graph.cached_congr hkey, ht] at ht₂
  have hid : i = j := by
    simp only [Option.some.injEq, TypeRef.nonNull.injEq, TypeRef.named.injEq, Node.refAt,
      NodeRef.mk.injEq] at ht₂
    exact ht₂.1
  exact Nat.ne_of_gt hlt hid

omit hw hnormal hv in
theorem reads_of_scalarAlias {head head' : ResolvedHead} {base base' : ResolvedHint}
    {made node : Node} (hown : env.ownNode (.aliasOf head base) = some made)
    (hn : g.nodes[i]? = some node) (hext : made.Extends node)
    (hres : head'.resolved = head.resolved)
    (hbase : env.aliasedScalar base = env.aliasedScalar base') :
    g.Reads env (.aliasOf head' base') (.nonNull (.named (node.refAt i))) := by
  obtain ⟨s, hs, rfl⟩ := Option.map_eq_some_iff.1 hown
  have hname : aliasName (.aliasOf head' base') = aliasName (.aliasOf head base) := by
    rw [aliasName, aliasName, ResolvedHint.head, ResolvedHint.head, hres]
  have hnode : node = aliasNode (.aliasOf head' base') s := by
    obtain ⟨hname', hdescription, hbody⟩ := hext
    obtain ⟨name, description, body⟩ := node
    rw [aliasNode, hname]
    obtain rfl : name = _ := hname'
    obtain rfl : description = _ := hdescription
    cases hbody
    rfl
  subst hnode
  exact .scalarAlias (hbase.symm.trans hs) hn

omit hw hnormal hv in
theorem reads_of_layer (hl : env.layer? ann = some (inner, wrap)) (h : g.Reads env inner t) :
    g.Reads env ann (wrap t) := by
  obtain ⟨_, rfl, rfl⟩ | ⟨_, rfl, rfl⟩ | ⟨_, rfl, hs, rfl⟩ := layer?_cases hl
  · exact .list h
  · exact .optional h
  · exact .aliasOf hs h

/-- What is remembered for a hint is what the hint reads as. -/
theorem reads_of_cached (hP : env.ProperHint aliases ann) (ht : g.cached ann = some t) :
    g.Reads env ann t := by
  induction hsize : sizeOf ann using Nat.strong_induction_on generalizing ann t
  rename_i n ih
  subst hsize
  obtain ⟨a, ha, hk, he⟩ := hv.entry ht
  have ht' : g.cached a = some t := (Graph.cached_congr hk).trans ht
  cases he with
  | own hown hn hext =>
    cases a with
    | cls head c =>
      obtain ⟨head', rfl⟩ := eq_cls_of_key ha hP hk rfl
      exact reads_of_class hw hnormal hv hown hn hext
    | union head members =>
      obtain ⟨head', members', rfl, hsame⟩ := eq_union_of_key ha hP hk rfl
      obtain ⟨name, -, rfl⟩ := Option.map_eq_some_iff.1 hown
      exact reads_of_union hv ha hn hext ht' hsame
    | aliasOf head base =>
      obtain ⟨head', base', e, rfl, hres, hof, hof', -⟩ := eq_aliasOf_of_key ha hP hk rfl
      exact reads_of_scalarAlias hown hn hext hres (hof.aliasedScalar_eq hof')
    | list | optional => cases hown
  | scalar hc hn =>
    obtain ⟨head', rfl⟩ := eq_cls_of_key ha hP hk rfl
    exact .scalar hc hn
  | layer hl hinner =>
    obtain ⟨inner', hl', hk'⟩ := hw.layer?_congr hnormal ha hP hk hl
    rw [Graph.cached_congr hk'] at hinner
    have hP' := (hw.domain_proper hnormal).layer hP hl'
    have hlt := sizeOf_lt_of_layer hl'
    exact reads_of_layer hl' (ih _ hlt hP' hinner rfl)

end Cached

/-- Whatever was translated before, a translation that succeeds gives what its hint reads as: it is
nullable when the hint is optional and only then, and no layer of non-null is directly on another
one. -/
theorem translate_reads (hw : env.WellFormed aliases)
    (hnormal : ∀ {id name s}, aliases id = some (name, s) → s.Normal)
    (hg : env.Reachable aliases g) (hann : env.Given aliases ann)
    (ht : (env.translate ann).exec g = (.ok t, g')) :
    g'.Reads env ann t ∧ (t.isNonNull = false ↔ ann.isOptional = true) ∧ t.isDoubled = false := by
  have hd := hw.domain_proper hnormal
  have hP := hw.properHint_of_given hann
  have hv := (hd.grows_of_calls hw (fun _ h => hw.properHint_of_given h) Graph.valid_empty hg).valid Graph.valid_empty
  have hs := hd.translate_spec hw ann hP g
  rw [ht] at hs
  have hv' : Graph.Valid env (env.ProperHint aliases) g' :=
    (Graph.Learns.grows (hs.learns.mono fun _ h => h.1)).valid hv
  have hreads := reads_of_cached hw hnormal hv' hP (hs.remembered t rfl).1
  exact ⟨hreads, hreads.layers⟩

end BuildEnv

namespace Sample

theorem normal_of_aliases {id : Nat} {name : String} {s : TypeExpr}
    (h : Sample.aliases id = some (name, s)) : s.Normal :=
  of_aliases trivial h

/-- The type of the shapes of a drawing. -/
def shapesType : TypeExpr := .listOf (.union [.cls shape, .noneType])

/-- The hint of the shapes of a drawing. -/
def shapes : ResolvedHint :=
  .list ⟨none, shapesType, none⟩
    (.optional ⟨none, .union [.cls shape, .noneType], none⟩ (.cls ⟨none, .cls shape, none⟩ shape))

theorem given_shapes : Sample.env.Given Sample.aliases shapes := by
  have hover : (Hint.expr shapesType).Over Sample.hierarchy Sample.aliases :=
    ⟨⟨⟨_, rfl, rfl⟩, trivial, trivial⟩, trivial⟩
  have hmade : ResolvedHint.ofExpr none none shapesType = .ok shapes := rfl
  exact .evaluated hover rfl hmade

theorem translate_reads_shapes :
    Sample.env.Given Sample.aliases shapes ∧ ∃ g',
      (Sample.env.translate shapes).exec drawn =
        (.ok (.nonNull (.list (.named ⟨2, .interface, "Shape"⟩))), g') ∧
      g'.Reads Sample.env shapes (.nonNull (.list (.named ⟨2, .interface, "Shape"⟩))) := by
  have hok : ((Sample.env.translate shapes).exec drawn).1 =
      .ok (.nonNull (.list (.named ⟨2, .interface, "Shape"⟩))) := ok_of_toOption (by decide +kernel)
  have ht := Prod.ext (y := (_, ((Sample.env.translate shapes).exec drawn).2)) hok rfl
  exact ⟨given_shapes, _, ht,
    (BuildEnv.translate_reads wellFormed normal_of_aliases reachable_drawn given_shapes ht).1⟩

end Sample

end HintSchema
