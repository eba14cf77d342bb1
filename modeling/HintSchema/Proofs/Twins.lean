import HintSchema.Proofs.Leaves
import HintSchema.Proofs.Likeness
import HintSchema.Proofs.References

/-!
# Nodes of one leaf in two graphs

Two graphs over one coherent set of hints (`BuildEnv.Coherent`) may have the nodes of their leaves
in any places; nodes of one leaf are twins (`Graph.Twin`).  What the graphs remember for a hint
differs in twins only (`Coherent.like_of_cached`), and so do the bodies of twins that lack no part,
hence sound graphs without pending nodes agree (`Coherent.agree`).
-/

namespace HintSchema

open Relation

variable {env : BuildEnv} {aliases : AliasTable} {P : ResolvedHint → Prop} {g g' g₁ g₁' : Graph}
  {ann ann' inner : ResolvedHint} {wrap : TypeRef → TypeRef} {s t t' : TypeRef} {c : ClassRef}
  {m n m' n' : NodeRef} {made made' node node' : Node}

/-- The nodes that one leaf became in two graphs. -/
def Graph.Twin (env : BuildEnv) (P : ResolvedHint → Prop) (g g' : Graph) (m n : NodeRef) : Prop :=
  ∃ leaf, P leaf ∧ env.layer? leaf = none ∧ g.cached leaf = some (.nonNull (.named m)) ∧
    g'.cached leaf = some (.nonNull (.named n))

theorem Graph.Twin.grows (h : g.Twin env P g' m n) (hg : Graph.Grows env P g g₁)
    (hg' : Graph.Grows env P g' g₁') : g₁.Twin env P g₁' m n := by
  obtain ⟨leaf, hP, hl, hm, hn⟩ := h
  exact ⟨leaf, hP, hl, hg.cached hm, hg'.cached hn⟩

theorem TypeRef.Like.layer {R : NodeRef → NodeRef → Prop} (h : s.Like R t)
    (hl : env.layer? ann = some (inner, wrap)) : (wrap s).Like R (wrap t) := by
  obtain ⟨_, -, rfl⟩ | ⟨_, -, rfl⟩ | ⟨_, -, -, rfl⟩ := BuildEnv.layer?_cases hl
  · exact .nonNull (.list h)
  · exact h.nullable
  · exact .nonNull h.nullable

/-! ## Nodes made for hints of one type -/

/-- Regular hints whose unions have names; those of one type go by one name and list their members in
one order. -/
structure BuildEnv.Coherent (env : BuildEnv) (aliases : AliasTable) (P : ResolvedHint → Prop) : Prop
    extends Regular env aliases P where
  unions : ∀ {head head' members members'}, P (.union head members) → P (.union head' members') →
    (ResolvedHint.union head members).key = (ResolvedHint.union head' members').key →
    ∃ name, unionName (.union head members) = .ok name ∧
      unionName (.union head' members') = .ok name ∧
      members.map ResolvedHint.key = members'.map ResolvedHint.key

/-- Bodies that are made for hints of one type: of unions they may list other hints of the same
types. -/
inductive NodeBody.SameMade : NodeBody → NodeBody → Prop
  | refl (b : NodeBody) : SameMade b b
  | union {members members' : List ResolvedHint} :
      members.map ResolvedHint.key = members'.map ResolvedHint.key →
      SameMade (.union members none) (.union members' none)

theorem NodeBody.SameMade.kind_eq {b b' : NodeBody} (h : b.SameMade b') : b.kind = b'.kind := by
  cases h <;> rfl

theorem NodeBody.SameMade.class?_eq {b b' : NodeBody} (h : b.SameMade b') :
    b.class? = b'.class? := by
  cases h <;> rfl

theorem NodeBody.SameMade.of_union {members : List ResolvedHint} {made : Option (List NodeRef)}
    {b : NodeBody} (h : (NodeBody.union members made).SameMade b) :
    ∃ members', b = .union members' made ∧
      members.map ResolvedHint.key = members'.map ResolvedHint.key := by
  cases h with
  | refl => exact ⟨members, rfl, rfl⟩
  | union hkeys => exact ⟨_, rfl, hkeys⟩

namespace BuildEnv

section Made

variable (hc : env.Coherent aliases P)
include hc

theorem Coherent.exists_ownNode (h : P ann) (h' : P ann') (hk : ann.key = ann'.key)
    (hn : env.ownNode ann = some made) : ∃ made', env.ownNode ann' = some made' ∧
      made.name = made'.name ∧ made.body.SameMade made'.body := by
  rcases WellFormed.ownNode_cases hn with
    ⟨head, c, rfl, hmade⟩ | ⟨head, members, name, rfl, rfl⟩ | ⟨head, base, s, rfl, rfl⟩
  · obtain ⟨head', rfl⟩ := eq_cls_of_key (hc.proper h) (hc.proper h') hk rfl
    exact ⟨made, hmade, rfl, .refl _⟩
  · obtain ⟨head', members', rfl, -⟩ := eq_union_of_key (hc.proper h) (hc.proper h') hk rfl
    obtain ⟨name', hname, hname', hkeys⟩ := hc.unions h h' hk
    rw [ownNode, hname] at hn
    obtain rfl : name' = name := congrArg Node.name (Option.some.inj hn)
    exact ⟨unionNode name' members', by rw [ownNode, hname']; rfl, rfl, .union hkeys⟩
  · obtain ⟨head', base', e, rfl, hres, hof, hof', -⟩ :=
      eq_aliasOf_of_key (hc.proper h) (hc.proper h') hk rfl
    obtain ⟨s', hs, hnode⟩ := Option.map_eq_some_iff.1 hn
    refine ⟨aliasNode (.aliasOf head' base') s', ?_, ?_, ?_⟩
    · rw [ownNode, ← hof.aliasedScalar_eq hof', hs]
      rfl
    · rw [← hnode, aliasNode, aliasNode, aliasName, aliasName, ResolvedHint.head,
        ResolvedHint.head, hres]
    · rw [← hnode]
      exact .refl _

/-- What is remembered for a hint differs in twins only. -/
theorem Coherent.like_of_cached (hv : Graph.Valid env P g) (hv' : Graph.Valid env P g') (h : P ann)
    (ht : g.cached ann = some t) (ht' : g'.cached ann = some t') :
    t.Like (g.Twin env P g') t' := by
  induction hsize : sizeOf ann using Nat.strong_induction_on generalizing ann t t'
  rename_i size ih
  subst hsize
  cases hl : env.layer? ann with
  | some layer =>
    obtain ⟨inner, wrap⟩ := layer
    obtain ⟨s, hs, rfl⟩ := hc.cached_inner hv h hl ht
    obtain ⟨s', hs', rfl⟩ := hc.cached_inner hv' h hl ht'
    exact (ih _ (sizeOf_lt_of_layer hl) (hc.layer h hl) hs hs' rfl).layer hl
  | none =>
    have hm := hc.named_of_leaf hv h hl ht
    have hn := hc.named_of_leaf hv' h hl ht'
    rw [hm] at ht ⊢
    rw [hn] at ht' ⊢
    exact .nonNull (.named ⟨ann, h, hl, ht, ht'⟩)

end Made

/-! ## Twins -/

/-- Two nodes made for hints of one type, where two graphs have them. -/
structure SameNodes (g g' : Graph) (m n : NodeRef) (node node' : Node) : Prop where
  left : g.nodes[m.id]? = some node
  right : g'.nodes[n.id]? = some node'
  ref : node.refAt m.id = m
  ref' : node'.refAt n.id = n
  name : node.name = node'.name
  made : ∃ b b' : NodeBody, b.SameMade b' ∧ b.Extends node.body ∧ b'.Extends node'.body

theorem SameNodes.kind_eq (h : SameNodes g g' m n node node') : node.kind = node'.kind := by
  obtain ⟨b, b', hmade, hext, hext'⟩ := h.made
  exact (hext.kind_eq.trans hmade.kind_eq).trans hext'.kind_eq.symm

theorem SameNodes.class?_eq (h : SameNodes g g' m n node node') :
    node.body.class? = node'.body.class? := by
  obtain ⟨b, b', hmade, hext, hext'⟩ := h.made
  exact (hext.class?_eq.trans hmade.class?_eq).trans hext'.class?_eq.symm

section Twins

variable (hc : env.Coherent aliases P) (hs : Graph.Sound env P g) (hs' : Graph.Sound env P g')
include hc hs hs'

theorem Coherent.nodes_of_twin (h : g.Twin env P g' m n) :
    ∃ node node', SameNodes g g' m n node node' := by
  obtain ⟨leaf, hP, hl, hm, hn⟩ := h
  obtain ⟨a, ha, hk, hla, he⟩ := hc.entry_of_leaf hs.valid hP hl hm
  obtain ⟨a', ha', hk', hla', he'⟩ := hc.entry_of_leaf hs'.valid hP hl hn
  have hkeys : a.key = a'.key := hk.trans hk'.symm
  generalize hT : TypeRef.nonNull (.named m) = T at he
  generalize hT' : TypeRef.nonNull (.named n) = T' at he'
  cases he with
  | own hown hnode hext =>
    cases hT
    obtain ⟨made', hown', hname, hmade⟩ := hc.exists_ownNode ha ha' hkeys hown
    cases he' with
    | own hown₂ hnode' hext' =>
      cases hT'
      obtain rfl := Option.some.inj (hown'.symm.trans hown₂)
      refine ⟨_, _, hnode, hnode', rfl, rfl, ?_, _, _, hmade, hext.body, hext'.body⟩
      rw [hext.name, hext'.name, hname]
    | scalar hnone => cases hown'.symm.trans hnone
    | layer hl' => cases hla'.symm.trans hl'
  | @scalar head c k hnone hscalar =>
    cases hT
    obtain ⟨head', rfl⟩ := eq_cls_of_key (hc.proper ha) (hc.proper ha') hkeys rfl
    cases he' with
    | own hown => cases hnone.symm.trans hown
    | @scalar _ _ k' _ hscalar' =>
      cases hT'
      obtain ⟨owner, ho⟩ := hs.owned
      obtain ⟨owner', ho'⟩ := hs'.owned
      obtain ⟨-, s, hlookup, hnode, href⟩ := ho.scalar hscalar
      obtain ⟨-, s', hlookup', hnode', href'⟩ := ho'.scalar hscalar'
      obtain rfl := Option.some.inj (hlookup.symm.trans hlookup')
      exact ⟨_, _, hnode, hnode', href, href', rfl, _, _, .refl _, .refl _, .refl _⟩
    | layer hl' => cases hl'
  | layer hl' => cases hla.symm.trans hl'

theorem Coherent.kind_of_twin (h : g.Twin env P g' m n) : m.kind = n.kind := by
  obtain ⟨node, node', hnodes⟩ := hc.nodes_of_twin hs hs' h
  rw [← hnodes.ref, ← hnodes.ref']
  exact hnodes.kind_eq

/-- Twins are told apart in one graph as in the other. -/
theorem Coherent.id_iff_of_twin (hw : env.WellFormed aliases) (h : g.Twin env P g' m n)
    (h' : g.Twin env P g' m' n') : m.id = m'.id ↔ n.id = n'.id := by
  obtain ⟨leaf, hP, hl, hm, hn⟩ := h
  obtain ⟨leaf', hP', hl', hm', hn'⟩ := h'
  exact (hc.node_iff hw hs hP hP' hl hl' hm hm').trans
    (hc.node_iff hw hs' hP hP' hl hl' hn hn').symm

/-! ## Bodies -/

omit hs hs' in
theorem Coherent.showsField_like (hv : Graph.Valid env P g) (hv' : Graph.Valid env P g')
    {f : FieldDescriptor} {e e' : String × FieldDef} (hP : P f.hint)
    (hargs : ∀ p ∈ f.args, P p.hint) (h : g.ShowsField f e) (h' : g'.ShowsField f e') :
    e.1 = e'.1 ∧ e.2.Like (g.Twin env P g') e'.2 := by
  obtain ⟨t, args, ht, hshow, rfl⟩ := h
  obtain ⟨t', args', ht', hshow', rfl⟩ := h'
  refine ⟨rfl, rfl, hc.like_of_cached hv hv' hP ht ht', ?_, rfl⟩
  refine Keyed.forall₂_ofList (forall₂_of_common hshow hshow' fun p hp {a b} ha hb => ?_)
  obtain ⟨u, hu, rfl⟩ := ha
  obtain ⟨u', hu', rfl⟩ := hb
  exact ⟨rfl, rfl, hc.like_of_cached hv hv' (hargs p hp) hu hu', rfl⟩

omit hs hs' in
theorem Coherent.fields_like (hv : Graph.Valid env P g) (hv' : Graph.Valid env P g')
    {fields fields' : List (String × FieldDef)} (hP : ∀ a ∈ env.fieldHints c, P a)
    (h : env.FieldsOf g c fields) (h' : env.FieldsOf g' c fields') :
    Keyed.Alike (FieldDef.Like (g.Twin env P g')) fields fields' := by
  obtain ⟨ds, hds, hshow⟩ := h.showsFields
  obtain ⟨ds', hds', hshow'⟩ := h'.showsFields
  obtain rfl := Except.ok.inj (hds.symm.trans hds')
  refine forall₂_of_common hshow hshow' fun f hf => hc.showsField_like hv hv' ?_ fun p hp => ?_
  · exact hP _ (mem_fieldHints hds hf)
  · exact hP _ (mem_fieldHints_of_arg hds hf hp)

omit hs hs' in
theorem Coherent.inputFields_like (hv : Graph.Valid env P g) (hv' : Graph.Valid env P g')
    {fields fields' : List (String × TypeRef)} (hP : ∀ a ∈ env.inputHints c, P a)
    (h : env.InputFieldsOf g c fields) (h' : env.InputFieldsOf g' c fields') :
    Keyed.Alike (TypeRef.Like (g.Twin env P g')) fields fields' := by
  obtain ⟨hints, hhints, hshow⟩ := h
  obtain ⟨hints', hhints', hshow'⟩ := h'
  obtain rfl := Except.ok.inj (hhints.symm.trans hhints')
  refine forall₂_of_common hshow hshow' ?_
  rintro name hname _ _ ⟨ann, t, hann, ht, rfl⟩ ⟨ann', t', hann', ht', rfl⟩
  obtain rfl := Option.some.inj (hann.symm.trans hann')
  exact ⟨rfl, hc.like_of_cached hv hv' (hP _ (mem_inputHints hhints hname hann)) ht ht'⟩

theorem Coherent.interfaces_like {interfaces interfaces' : List NodeRef}
    (hP : ∀ a ∈ env.interfaceAncestors c, P (.ofClass a none))
    (h : env.InterfacesOf g c interfaces) (h' : env.InterfacesOf g' c interfaces') :
    List.Forall₂ (g.Twin env P g') interfaces interfaces' := by
  obtain ⟨types, htypes, rfl⟩ := h
  obtain ⟨types', htypes', rfl⟩ := h'
  have hlike : List.Forall₂ (TypeRef.Like (g.Twin env P g')) types types' :=
    forall₂_of_common htypes htypes' fun a ha =>
      hc.like_of_cached hs.valid hs'.valid (hP a ha)
  have hinterface : ∀ {t t' : TypeRef}, t.Like (g.Twin env P g') t' →
      Option.Rel (g.Twin env P g') t.interface? t'.interface? := by
    intro t t' ht
    have hnull := ht.nullable
    rw [TypeRef.interface?, TypeRef.interface?]
    generalize t.nullable = u at hnull ⊢
    generalize t'.nullable = u' at hnull ⊢
    cases hnull with
    | named h =>
      dsimp only
      rw [hc.kind_of_twin hs hs' h]
      split_ifs
      · exact .some h
      · exact .none
    | list | nonNull => exact .none
  exact List.rel_filterMap (fun _ _ ht => hinterface ht) hlike

omit hc hs hs' in
theorem showsMember_congr (hk : ann.key = ann'.key) (h : g.ShowsMember ann n) :
    g.ShowsMember ann' n := by
  obtain ⟨t, ht, hn⟩ := h
  exact ⟨t, (Graph.cached_congr hk).symm.trans ht, hn⟩

omit hs hs' in
theorem Coherent.members_like (hv : Graph.Valid env P g) (hv' : Graph.Valid env P g')
    {declared declared' : List ResolvedHint} {members members' : List NodeRef}
    (hP : ∀ a ∈ declared, P a)
    (hkeys : declared.map ResolvedHint.key = declared'.map ResolvedHint.key)
    (h : List.Forall₂ g.ShowsMember declared members)
    (h' : List.Forall₂ g'.ShowsMember declared' members') :
    List.Forall₂ (g.Twin env P g') members members' := by
  have hshow : List.Forall₂ g'.ShowsMember declared members' := by
    have hsame : List.Forall₂ Eq (declared'.map ResolvedHint.key) (declared.map ResolvedHint.key) :=
      List.forall₂_eq_eq_eq ▸ hkeys.symm
    rw [List.forall₂_map_left_iff, List.forall₂_map_right_iff] at hsame
    exact forall₂_of_common hsame h' fun _ _ _ _ hk hn => showsMember_congr hk hn
  refine forall₂_of_common h hshow ?_
  rintro a ha m n ⟨t, ht, hm, -⟩ ⟨t', ht', hn, -⟩
  have hlike := (hc.like_of_cached hv hv' (hP a ha) ht ht').nullable
  rw [hm, hn] at hlike
  cases hlike with
  | named h => exact h

/-- Bodies made for hints of one type, without parts that lack, differ in twins only. -/
theorem Coherent.body_like {b b' b₁ b₁' : NodeBody} (hmade : b.SameMade b')
    (hext : b.Extends b₁) (hext' : b'.Extends b₁') (hr : b₁.isRealized = true)
    (hr' : b₁'.isRealized = true) (hp : env.Parts g b₁) (hp' : env.Parts g' b₁')
    (hP : ∀ a ∈ env.partHints b₁, P a) : b₁.Like (g.Twin env P g') b₁' := by
  cases hext with
  | object =>
    cases hmade
    cases hext' with
    | object =>
      obtain ⟨⟨fs, rfl⟩, is, rfl⟩ := NodeBody.isRealized_object_iff.1 hr
      obtain ⟨⟨fs', rfl⟩, is', rfl⟩ := NodeBody.isRealized_object_iff.1 hr'
      refine .object ?_ (hc.interfaces_like hs hs' (fun a ha => ?_) (hp.2 is rfl) (hp'.2 is' rfl))
      · exact hc.fields_like hs.valid hs'.valid (fun a ha => hP a (List.mem_append_left _ ha))
          (hp.1 fs rfl) (hp'.1 fs' rfl)
      · exact hP _ (List.mem_append_right _ (List.mem_map_of_mem ha))
  | interface =>
    cases hmade
    cases hext' with
    | interface =>
      obtain ⟨fs, rfl⟩ := Option.isSome_iff_exists.1 hr
      obtain ⟨fs', rfl⟩ := Option.isSome_iff_exists.1 hr'
      exact .interface (hc.fields_like hs.valid hs'.valid hP (hp fs rfl) (hp' fs' rfl))
  | input =>
    cases hmade
    cases hext' with
    | input =>
      obtain ⟨fs, rfl⟩ := Option.isSome_iff_exists.1 hr
      obtain ⟨fs', rfl⟩ := Option.isSome_iff_exists.1 hr'
      exact .input (hc.inputFields_like hs.valid hs'.valid hP (hp fs rfl) (hp' fs' rfl))
  | union =>
    obtain ⟨declared', rfl, hkeys⟩ := hmade.of_union
    cases hext' with
    | union =>
      obtain ⟨ms, rfl⟩ := Option.isSome_iff_exists.1 hr
      obtain ⟨ms', rfl⟩ := Option.isSome_iff_exists.1 hr'
      exact .union (hc.members_like hs.valid hs'.valid hP hkeys (hp ms rfl) (hp' ms' rfl))
  | enum =>
    cases hmade
    cases hext'
    exact .enum
  | scalar =>
    cases hmade
    cases hext'
    exact .scalar

/-- Sound graphs without pending nodes agree on twins. -/
theorem Coherent.agree (hw : env.WellFormed aliases) (hp : g.pending = [])
    (hp' : g'.pending = []) : Graph.Agree (g.Twin env P g') g g' where
  name h := by
    obtain ⟨node, node', hnodes⟩ := hc.nodes_of_twin hs hs' h
    rw [← hnodes.ref, ← hnodes.ref']
    exact hnodes.name
  id_iff h h' := hc.id_iff_of_twin hs hs' hw h h'
  body h := by
    obtain ⟨node, node', hnodes⟩ := hc.nodes_of_twin hs hs' h
    obtain ⟨b, b', hmade, hext, hext'⟩ := hnodes.made
    refine ⟨node, node', hnodes.left, hnodes.right, hnodes.ref, hnodes.ref', ?_⟩
    exact hc.body_like hs hs' hmade hext hext' (Graph.isRealized_of_pending hp hnodes.left)
      (Graph.isRealized_of_pending hp' hnodes.right) (hs.valid.parts hnodes.left)
      (hs'.valid.parts hnodes.right) (hc.partHints hs.valid hnodes.left)

end Twins

end BuildEnv

end HintSchema
