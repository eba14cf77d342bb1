import HintSchema.Proofs.Meaning

/-!
# What types are over

A hint without layers is a leaf: a class, a union, or an alias of a class with a scalar.  A set of
hints is regular when hints of one type in it have the same layers (`BuildEnv.Regular`).  The type
that a graph remembers for a hint of such a set has the layers of the hint (`Regular.cached_inner`)
around a node that belongs to one leaf (`Graph.Owned`), so leaves lead to one node exactly when they
have one identity (`Regular.node_iff`).
-/

namespace HintSchema

open Relation

variable {env : BuildEnv} {aliases : AliasTable} {P : ResolvedHint → Prop} {g g' : Graph}
  {ann ann' inner : ResolvedHint} {wrap : TypeRef → TypeRef} {t t' : TypeRef} {c d : ClassRef}
  {n : NodeRef} {owner : Nat → TypeKey}

/-- What a hint without layers has one node for: its class, or else its type. -/
def ResolvedHint.ident : ResolvedHint → TypeKey
  | .cls _ c => .cls c.id
  | ann => ann.key

namespace BuildEnv

/-- Resolved hints of normal types, with all that they bring in; those of one type have the same
layers. -/
structure Regular (env : BuildEnv) (aliases : AliasTable) (P : ResolvedHint → Prop) : Prop
    extends Domain env aliases P where
  proper : ∀ {ann}, P ann → env.ProperHint aliases ann
  layers : ∀ {ann ann' inner wrap}, P ann → P ann' → ann.key = ann'.key →
    env.layer? ann = some (inner, wrap) →
    ∃ inner', env.layer? ann' = some (inner', wrap) ∧ inner.key = inner'.key

theorem layer?_of_ownNode {made : Node} (h : env.ownNode ann = some made) :
    env.layer? ann = none := by
  cases ann with
  | cls | union => rfl
  | aliasOf head base =>
    obtain ⟨s, hs, -⟩ := Option.map_eq_some_iff.1 h
    rw [layer?, hs]
  | list | optional => cases h

section Types

variable (hc : env.Regular aliases P)
include hc

theorem Regular.ident_eq (h : P ann) (h' : P ann') (hk : ann.key = ann'.key) :
    ann.ident = ann'.ident := by
  have hcls : ∀ {head c}, ann = .cls head c → ∃ head', ann' = .cls head' c :=
    eq_cls_of_key (hc.proper h) (hc.proper h') hk
  have hcls' : ∀ {head c}, ann' = .cls head c → ∃ head', ann = .cls head' c :=
    eq_cls_of_key (hc.proper h') (hc.proper h) hk.symm
  cases ann with
  | cls head c =>
    obtain ⟨head', rfl⟩ := hcls rfl
    rfl
  | list | optional | union | aliasOf =>
    cases ann' with
    | cls head c =>
      obtain ⟨head', hann⟩ := hcls' rfl
      cases hann
    | list | optional | union | aliasOf => exact hk

theorem Regular.layer?_eq_none (h : P ann) (h' : P ann') (hk : ann.key = ann'.key)
    (hl : env.layer? ann = none) : env.layer? ann' = none := by
  cases hl' : env.layer? ann' with
  | none => rfl
  | some layer =>
    obtain ⟨inner, hinner, -⟩ := hc.layers h' h hk.symm hl'
    cases hl.symm.trans hinner

variable (hv : Graph.Valid env P g)
include hv

/-- What is remembered for a hint with a layer is what the layer makes of what is remembered below
it. -/
theorem Regular.cached_inner (h : P ann) (hl : env.layer? ann = some (inner, wrap))
    (ht : g.cached ann = some t) : ∃ t', g.cached inner = some t' ∧ t = wrap t' := by
  obtain ⟨a, ha, hk, he⟩ := hv.entry ht
  obtain ⟨inner', hl', hk'⟩ := hc.layers h ha hk.symm hl
  cases he with
  | own hown =>
    rw [layer?_of_ownNode hown] at hl'
    cases hl'
  | scalar => cases hl'
  | layer hl'' hinner =>
    cases hl''.symm.trans hl'
    exact ⟨_, (Graph.cached_congr hk').trans hinner, rfl⟩

/-- What is remembered for a leaf was made for a leaf. -/
theorem Regular.entry_of_leaf (h : P ann) (hl : env.layer? ann = none)
    (ht : g.cached ann = some t) :
    ∃ a, P a ∧ a.key = ann.key ∧ env.layer? a = none ∧ g.Entry env a t := by
  obtain ⟨a, ha, hk, he⟩ := hv.entry ht
  exact ⟨a, ha, hk, hc.layer?_eq_none h ha hk.symm hl, he⟩

theorem Regular.named_of_leaf (h : P ann) (hl : env.layer? ann = none)
    (ht : g.cached ann = some t) : t = .nonNull (.named t.node) := by
  obtain ⟨a, -, -, hl', he⟩ := hc.entry_of_leaf hv h hl ht
  cases he with
  | own | scalar => rfl
  | layer hl'' => cases hl'.symm.trans hl''

/-- A remembered hint with a node of its own is remembered by the node of a hint of its type. -/
theorem Regular.made_of_cached {made : Node} (h : P ann) (hn : env.ownNode ann = some made)
    (ht : g.cached ann = some t) : ∃ a made' node i, P a ∧ a.key = ann.key ∧
      env.ownNode a = some made' ∧ g.nodes[i]? = some node ∧ made'.Extends node ∧
      t = .nonNull (.named (node.refAt i)) := by
  obtain ⟨a, ha, hk, hl, he⟩ := hc.entry_of_leaf hv h (layer?_of_ownNode hn) ht
  cases he with
  | own hown hnode hext => exact ⟨a, _, _, _, ha, hk, hown, hnode, hext, rfl⟩
  | scalar hnone =>
    obtain ⟨head, rfl⟩ := eq_cls_of_key (hc.proper ha) (hc.proper h) hk rfl
    cases hnone.symm.trans hn
  | layer hl' => cases hl.symm.trans hl'

end Types

end BuildEnv

/-! ## The leaf of a node -/

/-- The leaf of each node, by its identity; a registered scalar is the leaf of its class. -/
structure Graph.Owned (env : BuildEnv) (P : ResolvedHint → Prop) (owner : Nat → TypeKey)
    (g : Graph) : Prop where
  leaf : ∀ {ann t}, P ann → env.layer? ann = none → g.cached ann = some t →
    owner t.node.id = ann.ident
  scalar : ∀ {c n}, g.scalarNode? c = some n → owner n.id = .cls c.id ∧
    ∃ s, env.scalars.lookup c = some s ∧ g.nodes[n.id]? = some s.node ∧ s.node.refAt n.id = n

/-- A valid graph each of whose nodes belongs to one leaf. -/
structure Graph.Sound (env : BuildEnv) (P : ResolvedHint → Prop) (g : Graph) : Prop where
  valid : Graph.Valid env P g
  owned : ∃ owner, Graph.Owned env P owner g

theorem ScalarRegistry.lookup_congr {r : ScalarRegistry} (hid : c.id = d.id) :
    r.lookup c = r.lookup d := by
  have hleft : c.same = d.same := funext fun b => by rw [ClassRef.same, ClassRef.same, hid]
  have hright : ∀ b : ClassRef, b.same c = b.same d := fun b => by
    rw [ClassRef.same, ClassRef.same, hid]
  simp only [lookup, builtin?, custom?, hleft, hright]

namespace Graph

theorem owned_empty : Owned env P (fun _ => .noneType) {} where
  leaf _ _ ht := by cases ht
  scalar hn := by cases hn

theorem Owned.add (ho : Owned env P owner g) (hv : Valid env P g) (key : TypeKey) :
    Owned env P (Function.update owner g.nodes.size key) g := by
  have hlt : ∀ {n : NodeRef}, g.Refers n → n.id ≠ g.nodes.size := by
    rintro n ⟨node, hn, -⟩
    exact Nat.ne_of_lt (Array.getElem?_eq_some_iff.1 hn).1
  refine ⟨fun hP hl ht => ?_, fun hn => ?_⟩
  · rw [Function.update_of_ne (hlt (hv.refers ht))]
    exact ho.leaf hP hl ht
  · rw [Function.update_of_ne (hlt (hv.scalar hn).1)]
    exact ho.scalar hn

/-- A node that is there stays where it is. -/
theorem Owned.mono (ho : Owned env P owner g)
    (hleaf : ∀ {ann t}, P ann → env.layer? ann = none → g'.cached ann = some t →
      owner t.node.id = ann.ident)
    (hscalar : ∀ {c n}, g'.scalarNode? c = some n → g.scalarNode? c = some n)
    (hkeep : ∀ {i : Nat} {node : Node}, g.nodes[i]? = some node →
      ∃ node' : Node, g'.nodes[i]? = some node' ∧ node.Extends node') : Owned env P owner g' where
  leaf := hleaf
  scalar hn := by
    obtain ⟨hid, s, hs, hnode, href⟩ := ho.scalar (hscalar hn)
    obtain ⟨node', hnode', hext⟩ := hkeep hnode
    exact ⟨hid, s, hs, ScalarType.node_extends hext ▸ hnode', href⟩

end Graph

namespace BuildEnv

variable (hc : env.Regular aliases P)
include hc

/-- What is remembered anew for a leaf is remembered for a hint of its identity. -/
theorem Regular.leaf_withMemo (hP : P ann)
    (hid : env.layer? ann = none → owner t.node.id = ann.ident)
    (ho : ∀ {a t}, P a → env.layer? a = none → g.cached a = some t → owner t.node.id = a.ident) :
    ∀ {a t'}, P a → env.layer? a = none → (g.withMemo ann t).cached a = some t' →
      owner t'.node.id = a.ident := by
  intro a t' ha hl ht
  rw [Graph.cached, Graph.remembered_withMemo] at ht
  split_ifs at ht with hk
  · cases ht
    rw [hid (hc.layer?_eq_none ha hP hk.symm hl), hc.ident_eq hP ha hk]
  · exact ho ha hl ht

theorem Regular.owned_step (h : Graph.Step env P g g') (hv : Graph.Valid env P g)
    (ho : Graph.Owned env P owner g) : ∃ owner', Graph.Owned env P owner' g' := by
  have hs := h
  cases h with
  | learn h =>
    cases h with
    | @make ann made hP hmiss hown =>
      have ho' := ho.add hv ann.ident
      refine ⟨_, ho'.mono (hc.leaf_withMemo hP (fun _ => ?_) ho'.leaf) id hs.keeps⟩
      exact Function.update_self ..
    | @scalar head c n hP hmiss hnone hn =>
      exact ⟨owner, ho.mono (hc.leaf_withMemo hP (fun _ => (ho.scalar hn).1) ho.leaf) id hs.keeps⟩
    | @layer ann inner wrap t hP hmiss hl hinner =>
      refine ⟨owner, ho.mono (hc.leaf_withMemo hP (fun hl' => ?_) ho.leaf) id hs.keeps⟩
      cases hl.symm.trans hl'
    | @share c s hnone hlookup hnew =>
      have ho' := ho.add hv (.cls c.id)
      refine ⟨_, ⟨ho'.leaf, fun {d n} hn => ?_⟩⟩
      rw [Graph.scalarNode?, Graph.share, List.find?_cons] at hn
      dsimp only at hn
      split at hn
      · rename_i hid
        cases hn
        rw [beq_iff_eq] at hid
        refine ⟨by rw [← hid]; exact Function.update_self .., s, ?_, ?_, rfl⟩
        · rw [← hlookup, ScalarRegistry.lookup_congr hid]
        · exact (Graph.getElem?_grow ..).trans (if_pos rfl)
      · obtain ⟨hid, s', hs', hnode, href⟩ := ho'.scalar hn
        exact ⟨hid, s', hs', Graph.getElem?_grow_of_some hnode, href⟩
  | crawl | fill => exact ⟨owner, ho.mono ho.leaf id hs.keeps⟩

theorem Regular.sound_grows (h : Graph.Grows env P g g') (hs : Graph.Sound env P g) :
    Graph.Sound env P g' := by
  induction h with
  | refl => exact hs
  | tail _ hstep ih =>
    obtain ⟨owner, ho⟩ := ih.owned
    exact ⟨hstep.valid ih.valid, hc.owned_step hstep ih.valid ho⟩

/-! ## The node of a leaf -/

omit hc in
/-- Only a class has the key of a class. -/
theorem ProperHint.eq_cls_of_key {id : Nat} (h : env.ProperHint aliases ann)
    (hk : ann.key = .cls id) : ∃ head c, ann = .cls head c := by
  obtain ⟨e, hp, hof⟩ := h
  rw [hof.key_eq hp.normal] at hk
  cases hof with
  | cls | noneType => exact ⟨_, _, rfl⟩
  | only => exact absurd rfl hp.normal.2.2.2
  | list | aliasOf => cases hk
  | optional | union =>
    rw [TypeExpr.key_union] at hk
    cases hk

/-- A class is remembered as its node, or else as the node of its scalar. -/
theorem Regular.type_of_cls (hv : Graph.Valid env P g) {head : ResolvedHead}
    (h : P (.cls head c)) (ht : g.cached (.cls head c) = some t) :
    (∃ (i : Nat) (node : Node), g.nodes[i]? = some node ∧ node.body.class? = some c ∧
      t = .nonNull (.named (node.refAt i))) ∨
    (env.classNode c = none ∧ ∃ n, g.scalarNode? c = some n ∧ t = .nonNull (.named n)) := by
  obtain ⟨a, ha, hk, hl, he⟩ := hc.entry_of_leaf hv h rfl ht
  obtain ⟨head', rfl⟩ := eq_cls_of_key (hc.proper h) (hc.proper ha) hk.symm rfl
  cases he with
  | own hown hn hext => exact .inl ⟨_, _, hn, hext.body.class?_eq.trans (classNode_spec hown).1, rfl⟩
  | scalar hnone hn => exact .inr ⟨hnone, _, hn, rfl⟩
  | layer hl' => cases hl'

/-- Two hints of one class are remembered as one type. -/
theorem Regular.eq_of_cls (hw : env.WellFormed aliases) (hv : Graph.Valid env P g)
    {head head' : ResolvedHead} (h : P (.cls head c)) (h' : P (.cls head' c))
    (ht : g.cached (.cls head c) = some t) (ht' : g.cached (.cls head' c) = some t') : t = t' := by
  have hnode : env.classNode c = none → ∀ {i : Nat} {node : Node}, g.nodes[i]? = some node →
      node.body.class? ≠ some c := by
    intro hnone i node hn hclass
    obtain ⟨_, made, -, hmade, -⟩ := hv.origin_of_class hn hclass
    cases hmade.symm.trans hnone
  rcases hc.type_of_cls hv h ht with ⟨i, node, hn, hclass, rfl⟩ | ⟨hnone, n, hn, rfl⟩ <;>
    rcases hc.type_of_cls hv h' ht' with ⟨j, node', hn', hclass', rfl⟩ | ⟨hnone', n', hn', rfl⟩
  · obtain rfl := hc.index_of_class hw hv hn hclass hn' hclass' rfl
    obtain rfl := Option.some.inj (hn.symm.trans hn')
    rfl
  · exact absurd hclass (hnode hnone' hn)
  · exact absurd hclass' (hnode hnone hn')
  · obtain rfl := Option.some.inj (hn.symm.trans hn')
    rfl

/-- Hints of one identity are remembered as one type. -/
theorem Regular.eq_of_ident (hw : env.WellFormed aliases) (hv : Graph.Valid env P g) (h : P ann)
    (h' : P ann') (ht : g.cached ann = some t) (ht' : g.cached ann' = some t')
    (hid : ann.ident = ann'.ident) : t = t' := by
  have hkey : ann.key = ann'.key → t = t' := by
    intro hk
    rw [Graph.cached_congr hk, ht'] at ht
    exact (Option.some.inj ht).symm
  cases ann with
  | cls head c =>
    cases ann' with
    | cls head' d =>
      have hcd : c = d := (hw.has_of_typed (hc.typed h)).eq_of_id (hw.has_of_typed (hc.typed h'))
        (TypeKey.cls.inj hid)
      subst hcd
      exact hc.eq_of_cls hw hv h h' ht ht'
    | list | optional | union | aliasOf =>
      obtain ⟨_, _, heq⟩ := (hc.proper h').eq_cls_of_key hid.symm
      cases heq
  | list | optional | union | aliasOf =>
    cases ann' with
    | cls head' d =>
      obtain ⟨_, _, heq⟩ := (hc.proper h).eq_cls_of_key hid
      cases heq
    | list | optional | union | aliasOf => exact hkey hid

/-- Leaves lead to one node exactly when they have one identity. -/
theorem Regular.node_iff (hw : env.WellFormed aliases) (hs : Graph.Sound env P g) (h : P ann)
    (h' : P ann') (hl : env.layer? ann = none) (hl' : env.layer? ann' = none)
    (ht : g.cached ann = some t) (ht' : g.cached ann' = some t') :
    t.node.id = t'.node.id ↔ ann.ident = ann'.ident := by
  obtain ⟨owner, ho⟩ := hs.owned
  refine ⟨fun hid => ?_, fun hid => ?_⟩
  · rw [← ho.leaf h hl ht, hid, ho.leaf h' hl' ht']
  · rw [hc.eq_of_ident hw hs.valid h h' ht ht' hid]

end BuildEnv

end HintSchema
