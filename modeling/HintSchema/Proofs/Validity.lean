import HintSchema.Proofs.Translation

/-!
# Valid graphs

A graph is valid when each of its nodes is what some resolved hint became, each remembered type is
what its hint says, and each part that is filled in is what the node was made from
(`Graph.Valid`).  The empty graph is valid, and every step keeps a valid graph valid
(`Step.valid`); nodes only have parts filled in on the way (`Step.keeps`).
-/

namespace HintSchema

open Relation

variable {env : BuildEnv} {aliases : AliasTable} {P : ResolvedHint → Prop}
  {g g' : Graph} {ann inner : ResolvedHint} {t : TypeRef} {node node' : Node} {i : Nat}
  {c : ClassRef}

/-! ## Filling in -/

/-- The second body is the first, perhaps with more parts filled in. -/
inductive NodeBody.Extends : NodeBody → NodeBody → Prop
  | object {c : ClassRef} {fields fields' : Option (List (String × FieldDef))}
      {interfaces interfaces' : Option (List NodeRef)} :
      (∀ x, fields = some x → fields' = some x) →
      (∀ x, interfaces = some x → interfaces' = some x) →
      Extends (.object c fields interfaces) (.object c fields' interfaces')
  | interface {c : ClassRef} {fields fields' : Option (List (String × FieldDef))} :
      (∀ x, fields = some x → fields' = some x) →
      Extends (.interface c fields) (.interface c fields')
  | input {c : ClassRef} {fields fields' : Option (List (String × TypeRef))} :
      (∀ x, fields = some x → fields' = some x) → Extends (.input c fields) (.input c fields')
  | union {declared : List ResolvedHint} {members members' : Option (List NodeRef)} :
      (∀ x, members = some x → members' = some x) →
      Extends (.union declared members) (.union declared members')
  | enum {c : ClassRef} {values : List (String × Value)} : Extends (.enum c values) (.enum c values)
  | scalar {hooks : ScalarHooks} : Extends (.scalar hooks) (.scalar hooks)

theorem NodeBody.isRealized_object_iff {fields : Option (List (String × FieldDef))}
    {interfaces : Option (List NodeRef)} :
    (NodeBody.object c fields interfaces).isRealized = true ↔
      (∃ x, fields = some x) ∧ ∃ x, interfaces = some x := by
  simp only [isRealized, Bool.and_eq_true, Option.isSome_iff_exists]

namespace NodeBody.Extends

variable {b b' b'' : NodeBody}

theorem refl (b : NodeBody) : Extends b b := by
  cases b with
  | object => exact .object (fun _ h => h) fun _ h => h
  | interface => exact .interface fun _ h => h
  | input => exact .input fun _ h => h
  | union => exact .union fun _ h => h
  | enum => exact .enum
  | scalar => exact .scalar

theorem trans (h : Extends b b') (h' : Extends b' b'') : Extends b b'' := by
  cases h with
  | object hf hi =>
    cases h' with
    | object hf' hi' => exact .object (fun x hx => hf' x (hf x hx)) fun x hx => hi' x (hi x hx)
  | interface hf =>
    cases h' with
    | interface hf' => exact .interface fun x hx => hf' x (hf x hx)
  | input hf =>
    cases h' with
    | input hf' => exact .input fun x hx => hf' x (hf x hx)
  | union hm =>
    cases h' with
    | union hm' => exact .union fun x hx => hm' x (hm x hx)
  | enum => exact h'
  | scalar => exact h'

theorem kind_eq (h : Extends b b') : b'.kind = b.kind := by cases h <;> rfl

theorem class?_eq (h : Extends b b') : b'.class? = b.class? := by cases h <;> rfl

theorem partHints_eq (h : Extends b b') : env.partHints b' = env.partHints b := by cases h <;> rfl

theorem crawlHints_eq (h : Extends b b') : env.crawlHints b' = env.crawlHints b := by
  cases h <;> rfl

theorem isRealized (h : Extends b b') (hb : b.isRealized = true) : b'.isRealized = true := by
  cases h with
  | object hf hi =>
    rw [isRealized_object_iff] at hb ⊢
    obtain ⟨⟨x, hx⟩, y, hy⟩ := hb
    exact ⟨⟨x, hf x hx⟩, y, hi y hy⟩
  | interface hf | input hf | union hf =>
    simp only [NodeBody.isRealized, Option.isSome_iff_exists] at hb ⊢
    obtain ⟨x, hx⟩ := hb
    exact ⟨x, hf x hx⟩
  | enum | scalar => rfl

end NodeBody.Extends

theorem BuildEnv.Fills.extends {b b' : NodeBody} (h : env.Fills g b b') : b.Extends b' := by
  cases h with
  | objectFields => exact .object (fun x hx => by cases hx) fun _ hx => hx
  | interfaces => exact .object (fun _ hx => hx) fun x hx => by cases hx
  | interfaceFields => exact .interface fun x hx => by cases hx
  | inputFields => exact .input fun x hx => by cases hx
  | members => exact .union fun x hx => by cases hx

/-- The second node is the first, perhaps with more parts filled in. -/
structure Node.Extends (node node' : Node) : Prop where
  name : node'.name = node.name
  description : node'.description = node.description
  body : node.body.Extends node'.body

namespace Node.Extends

theorem refl (node : Node) : node.Extends node := ⟨rfl, rfl, .refl _⟩

theorem trans {node'' : Node} (h : node.Extends node') (h' : node'.Extends node'') :
    node.Extends node'' :=
  ⟨h'.name.trans h.name, h'.description.trans h.description, h.body.trans h'.body⟩

theorem refAt_eq (h : node.Extends node') (i : Nat) : node'.refAt i = node.refAt i := by
  simp [Node.refAt, Node.kind, h.name, h.body.kind_eq]

end Node.Extends

/-- The node of a scalar has no parts to fill in. -/
theorem ScalarType.node_extends {s : ScalarType} (h : s.node.Extends node) : node = s.node := by
  obtain ⟨hname, hdescription, hbody⟩ := h
  obtain ⟨name, description, body⟩ := node
  obtain rfl : name = s.name := hname
  obtain rfl : description = s.description := hdescription
  generalize hb : s.node.body = made at hbody
  cases hbody with
  | scalar =>
    cases hb
    rfl
  | _ => cases hb

/-! ## Nodes along steps -/

namespace Graph

theorem getElem?_withBody (g : Graph) (id : Nat) (body : NodeBody) (i : Nat) :
    (g.withBody id body).nodes[i]? =
      if id = i then (g.nodes[i]?).map fun n => { n with body } else g.nodes[i]? := by
  rw [withBody, Array.getElem?_modify]

/-- Nodes stay, and only have parts filled in. -/
theorem Step.keeps (h : Step env P g g') (hn : g.nodes[i]? = some node) :
    ∃ node', g'.nodes[i]? = some node' ∧ node.Extends node' := by
  cases h with
  | learn h => exact ⟨node, h.getElem? hn, .refl node⟩
  | crawl => exact ⟨node, hn, .refl node⟩
  | @fill id filled body hfilled hfills =>
    rw [getElem?_withBody]
    split_ifs with hid
    · subst hid
      obtain rfl : filled = node := Option.some.inj (hfilled.symm.trans hn)
      exact ⟨{ filled with body }, by rw [hn]; rfl, rfl, rfl, hfills.extends⟩
    · exact ⟨node, hn, .refl node⟩

theorem Grows.keeps (h : Grows env P g g') (hn : g.nodes[i]? = some node) :
    ∃ node', g'.nodes[i]? = some node' ∧ node.Extends node' := by
  induction h with
  | refl => exact ⟨node, hn, .refl node⟩
  | tail _ hs ih =>
    obtain ⟨node', hn', hext⟩ := ih
    obtain ⟨node'', hn'', hext'⟩ := hs.keeps hn'
    exact ⟨node'', hn'', hext.trans hext'⟩

theorem Step.scalarNode? (h : Step env P g g') {c : ClassRef} {n : NodeRef}
    (hn : g.scalarNode? c = some n) : g'.scalarNode? c = some n := by
  cases h with
  | learn h =>
    cases h with
    | @share c' s _ _ hnew =>
      have hne : (c'.id == c.id) = false := by
        rw [beq_eq_false_iff_ne]
        intro hid
        rw [Graph.scalarNode?, hid] at hnew
        cases hnew.symm.trans hn
      rw [Graph.scalarNode?, Graph.share, List.find?_cons]
      dsimp only
      rw [hne]
      exact hn
    | make | scalar | layer => exact hn
  | crawl | fill => exact hn

theorem Grows.scalarNode? (h : Grows env P g g') {c : ClassRef} {n : NodeRef}
    (hn : g.scalarNode? c = some n) : g'.scalarNode? c = some n := by
  induction h with
  | refl => exact hn
  | tail _ hs ih => exact hs.scalarNode? ih

end Graph

/-! ## Filled parts -/

section Monotone

variable (hkeep : ∀ ann t, g.cached ann = some t → g'.cached ann = some t)
include hkeep

theorem Graph.ShowsParam.mono {p : ResolvedParam} {a : String × ArgumentDef}
    (h : g.ShowsParam p a) : g'.ShowsParam p a := by
  obtain ⟨t, ht, ha⟩ := h
  exact ⟨t, hkeep _ _ ht, ha⟩

theorem Graph.ShowsField.mono {f : FieldDescriptor} {e : String × FieldDef}
    (h : g.ShowsField f e) : g'.ShowsField f e := by
  obtain ⟨t, args, ht, hargs, he⟩ := h
  exact ⟨t, args, hkeep _ _ ht, hargs.imp fun _ _ ha => ha.mono hkeep, he⟩

theorem Graph.ShowsMember.mono {n : NodeRef} (h : g.ShowsMember ann n) : g'.ShowsMember ann n := by
  obtain ⟨t, ht, hn⟩ := h
  exact ⟨t, hkeep _ _ ht, hn⟩

theorem BuildEnv.FieldsOf.mono {c : ClassRef} {fields : List (String × FieldDef)}
    (h : env.FieldsOf g c fields) : env.FieldsOf g' c fields := by
  obtain ⟨descriptors, entries, hd, hentries, hfields⟩ := h
  exact ⟨descriptors, entries, hd, hentries.imp fun _ _ hf => hf.mono hkeep, hfields⟩

theorem BuildEnv.InputFieldsOf.mono {c : ClassRef} {fields : List (String × TypeRef)}
    (h : env.InputFieldsOf g c fields) : env.InputFieldsOf g' c fields := by
  obtain ⟨hints, hh, hfields⟩ := h
  refine ⟨hints, hh, hfields.imp ?_⟩
  rintro name e ⟨ann, t, hann, ht, he⟩
  exact ⟨ann, t, hann, hkeep _ _ ht, he⟩

theorem BuildEnv.InterfacesOf.mono {c : ClassRef} {interfaces : List NodeRef}
    (h : env.InterfacesOf g c interfaces) : env.InterfacesOf g' c interfaces := by
  obtain ⟨types, htypes, hinterfaces⟩ := h
  exact ⟨types, htypes.imp fun _ _ ht => hkeep _ _ ht, hinterfaces⟩

end Monotone

/-- The parts that are filled in are what the body was made from. -/
def BuildEnv.Parts (env : BuildEnv) (g : Graph) : NodeBody → Prop
  | .object c fields interfaces =>
    (∀ x, fields = some x → env.FieldsOf g c x) ∧
      ∀ x, interfaces = some x → env.InterfacesOf g c x
  | .interface c fields => ∀ x, fields = some x → env.FieldsOf g c x
  | .input c fields => ∀ x, fields = some x → env.InputFieldsOf g c x
  | .union declared members => ∀ x, members = some x → List.Forall₂ g.ShowsMember declared x
  | .enum .. | .scalar _ => True

theorem BuildEnv.Parts.mono (hkeep : ∀ ann t, g.cached ann = some t → g'.cached ann = some t)
    {b : NodeBody} (h : env.Parts g b) : env.Parts g' b := by
  cases b with
  | object c fields interfaces =>
    exact ⟨fun x hx => (h.1 x hx).mono hkeep, fun x hx => (h.2 x hx).mono hkeep⟩
  | interface c fields => exact fun x hx => (h x hx).mono hkeep
  | input c fields => exact fun x hx => (h x hx).mono hkeep
  | union declared members => exact fun x hx => (h x hx).imp fun _ _ hm => hm.mono hkeep
  | enum | scalar => trivial

theorem BuildEnv.Fills.parts {b b' : NodeBody} (h : env.Fills g b b') (hb : env.Parts g b) :
    env.Parts g b' := by
  cases h with
  | objectFields hf => exact ⟨fun x hx => Option.some.inj hx ▸ hf, hb.2⟩
  | interfaces hi => exact ⟨hb.1, fun x hx => Option.some.inj hx ▸ hi⟩
  | interfaceFields hf | inputFields hf => exact fun x hx => Option.some.inj hx ▸ hf
  | members hm => exact fun x hx => Option.some.inj hx ▸ hm

theorem BuildEnv.parts_classNode {c : ClassRef} (hn : env.classNode c = some node) :
    env.Parts g node.body := by
  unfold BuildEnv.classNode at hn
  dsimp only at hn
  split_ifs at hn <;> cases hn <;> simp [BuildEnv.Parts]

theorem BuildEnv.parts_ownNode (hn : env.ownNode ann = some node) : env.Parts g node.body := by
  cases ann with
  | cls head c => exact BuildEnv.parts_classNode hn
  | union head members =>
    obtain ⟨name, -, rfl⟩ := Option.map_eq_some_iff.1 hn
    simp [BuildEnv.unionNode, BuildEnv.Parts]
  | aliasOf head base =>
    obtain ⟨s, -, rfl⟩ := Option.map_eq_some_iff.1 hn
    trivial
  | list | optional => cases hn

/-! ## Valid graphs -/

namespace Graph

/-- A node that a hint has of its own, or that a registered scalar has. -/
inductive Origin (env : BuildEnv) (P : ResolvedHint → Prop) (g : Graph) (i : Nat) (node : Node) :
    Prop
  | hint {ann : ResolvedHint} {made : Node} :
      P ann → env.ownNode ann = some made → made.Extends node →
      g.cached ann = some (.nonNull (.named (node.refAt i))) → Origin env P g i node
  | scalar {c : ClassRef} {s : ScalarType} :
      env.classNode c = none → env.scalars.lookup c = some s → node = s.node →
      g.scalarNode? c = some (node.refAt i) → Origin env P g i node

/-- A type that is remembered for a hint: its own node, that of a registered scalar, or what a layer
makes of another type. -/
inductive Entry (env : BuildEnv) (g : Graph) : ResolvedHint → TypeRef → Prop
  | own {ann : ResolvedHint} {made node : Node} {i : Nat} :
      env.ownNode ann = some made → g.nodes[i]? = some node → made.Extends node →
      Entry env g ann (.nonNull (.named (node.refAt i)))
  | scalar {head : ResolvedHead} {c : ClassRef} {n : NodeRef} :
      env.classNode c = none → g.scalarNode? c = some n →
      Entry env g (.cls head c) (.nonNull (.named n))
  | layer {ann inner : ResolvedHint} {wrap : TypeRef → TypeRef} {t : TypeRef} :
      env.layer? ann = some (inner, wrap) → g.cached inner = some t → BuildEnv.Named inner →
      Entry env g ann (wrap t)

/-- A reference that says what the node is. -/
def Refers (g : Graph) (n : NodeRef) : Prop :=
  ∃ node, g.nodes[n.id]? = some node ∧ node.refAt n.id = n

/-- The type that a hint became is over a node. -/
def Leads (g : Graph) (ann : ResolvedHint) (n : NodeRef) : Prop :=
  ∃ t, g.cached ann = some t ∧ t.node = n

/-- Every node comes from a hint, every remembered type is what its hint says, and filled parts are
what the node was made from. -/
structure Valid (env : BuildEnv) (P : ResolvedHint → Prop) (g : Graph) : Prop where
  origin : ∀ {i node}, g.nodes[i]? = some node → g.Origin env P i node
  entry : ∀ {k t}, remembered k g.memo = some t → ∃ a, P a ∧ a.key = k ∧ g.Entry env a t
  refers : ∀ {k t}, remembered k g.memo = some t → g.Refers t.node
  scalar : ∀ {c n}, g.scalarNode? c = some n → g.Refers n ∧ n.kind = .scalar
  parts : ∀ {i : Nat} {node : Node}, g.nodes[i]? = some node → env.Parts g node.body

theorem valid_empty : Valid env P {} where
  origin h := by simp at h
  entry h := by cases h
  refers h := by cases h
  scalar h := by cases h
  parts h := by simp at h

theorem Origin.mono (h : Origin env P g i node) (hs : Step env P g g')
    (hext : node.Extends node') : Origin env P g' i node' := by
  cases h with
  | hint hP hown hmade ht =>
    exact .hint hP hown (hmade.trans hext) (hext.refAt_eq i ▸ hs.cached ht)
  | @scalar c s hc hlookup hnode hn =>
    subst hnode
    exact .scalar hc hlookup (ScalarType.node_extends hext) (hext.refAt_eq i ▸ hs.scalarNode? hn)

theorem Entry.mono (h : Entry env g ann t) (hs : Step env P g g') : Entry env g' ann t := by
  cases h with
  | own hown hn hext =>
    obtain ⟨node', hn', hext'⟩ := hs.keeps hn
    rw [← hext'.refAt_eq]
    exact .own hown hn' (hext.trans hext')
  | scalar hc hn => exact .scalar hc (hs.scalarNode? hn)
  | layer hl ht hnamed => exact .layer hl (hs.cached ht) hnamed

theorem Refers.mono {n : NodeRef} (h : g.Refers n) (hs : Step env P g g') : g'.Refers n := by
  obtain ⟨node, hn, href⟩ := h
  obtain ⟨node', hn', hext⟩ := hs.keeps hn
  exact ⟨node', hn', (hext.refAt_eq _).trans href⟩

theorem Refers.grows {n : NodeRef} (h : g.Refers n) (hg : Grows env P g g') : g'.Refers n := by
  induction hg with
  | refl => exact h
  | tail _ hs ih => exact ih.mono hs

/-- References to one node are one reference. -/
theorem Refers.eq_of_id {m n : NodeRef} (hm : g.Refers m) (hn : g.Refers n) (hid : m.id = n.id) :
    m = n := by
  obtain ⟨node, hnode, hm⟩ := hm
  obtain ⟨node', hnode', hn⟩ := hn
  rw [hid] at hnode hm
  obtain rfl := Option.some.inj (hnode.symm.trans hnode')
  exact hm.symm.trans hn

theorem Leads.grows {n : NodeRef} (h : g.Leads ann n) (hg : Grows env P g g') : g'.Leads ann n := by
  obtain ⟨t, ht, hn⟩ := h
  exact ⟨t, hg.cached ht, hn⟩

theorem Valid.refers_of_leads {n : NodeRef} (hv : Valid env P g) (h : g.Leads ann n) :
    g.Refers n := by
  obtain ⟨t, ht, rfl⟩ := h
  exact hv.refers ht

theorem refers_grow (g : Graph) (node : Node) : (g.grow node).Refers (node.refAt g.nodes.size) :=
  ⟨node, by rw [getElem?_grow]; exact if_pos rfl, rfl⟩

/-- A node was there before, or it is new and has its origin. -/
theorem Step.node_cases (h : Step env P g g') (hn : g'.nodes[i]? = some node') :
    (∃ node, g.nodes[i]? = some node ∧ node.Extends node' ∧
      (env.Parts g node.body → env.Parts g node'.body)) ∨
    (g'.Origin env P i node' ∧ env.Parts g' node'.body) := by
  cases h with
  | learn h =>
    cases h with
    | @make ann made hP hmiss hown =>
      change (g.grow made).nodes[i]? = _ at hn
      rw [getElem?_grow] at hn
      split_ifs at hn with hi
      · obtain rfl : made = node' := Option.some.inj hn
        subst hi
        exact .inr ⟨.hint hP hown (.refl made) cached_withMemo_self, BuildEnv.parts_ownNode hown⟩
      · exact .inl ⟨node', hn, .refl node', id⟩
    | @share c s hc hs hnew =>
      change (g.grow s.node).nodes[i]? = _ at hn
      rw [getElem?_grow] at hn
      split_ifs at hn with hi
      · obtain rfl : s.node = node' := Option.some.inj hn
        subst hi
        exact .inr ⟨.scalar hc hs rfl (scalarNode?_share c s), trivial⟩
      · exact .inl ⟨node', hn, .refl node', id⟩
    | scalar | layer => exact .inl ⟨node', hn, .refl node', id⟩
  | crawl => exact .inl ⟨node', hn, .refl node', id⟩
  | @fill id filled body hfilled hfills =>
    rw [getElem?_withBody] at hn
    split_ifs at hn with hid
    · subst hid
      rw [hfilled] at hn
      obtain rfl := Option.some.inj hn
      exact .inl ⟨filled, hfilled, ⟨rfl, rfl, hfills.extends⟩, hfills.parts⟩
    · exact .inl ⟨node', hn, .refl node', fun hp => hp⟩

theorem Step.remembered_cases (h : Step env P g g') (hv : Valid env P g) {k : TypeKey}
    (ht : Graph.remembered k g'.memo = some t) :
    Graph.remembered k g.memo = some t ∨
      ∃ a, P a ∧ a.key = k ∧ g'.Entry env a t ∧ g'.Refers t.node := by
  -- a new entry is found under the key of its hint only
  have hnew : ∀ {g₀ : Graph} {a t'}, Graph.remembered k (g₀.withMemo a t').memo = some t →
      Graph.remembered k g₀.memo = some t ∨ a.key = k ∧ t' = t := by
    intro g₀ a t' ht
    rw [remembered_withMemo] at ht
    split_ifs at ht with hk
    · exact .inr ⟨hk, Option.some.inj ht⟩
    · exact .inl ht
  have hs := h
  cases h with
  | learn h =>
    cases h with
    | @make a made hP hmiss hown =>
      rcases hnew ht with ht | ⟨hk, rfl⟩
      · exact .inl ht
      · have hmade : (g.grow made).nodes[g.nodes.size]? = some made := by
          rw [getElem?_grow, if_pos rfl]
        exact .inr ⟨a, hP, hk, .own hown hmade (.refl made), refers_grow g made⟩
    | @scalar head c n hP hmiss hc hn =>
      rcases hnew ht with ht | ⟨hk, rfl⟩
      · exact .inl ht
      · exact .inr ⟨.cls head c, hP, hk, .scalar hc hn, (hv.scalar hn).1.mono hs⟩
    | @layer a inner wrap t' hP hmiss hl hinner hnamed =>
      rcases hnew ht with ht | ⟨hk, rfl⟩
      · exact .inl ht
      · refine .inr ⟨a, hP, hk, .layer hl (hs.cached hinner) hnamed, ?_⟩
        rw [BuildEnv.layer_node hl]
        exact (hv.refers hinner).mono hs
    | share => exact .inl ht
  | crawl | fill => exact .inl ht

theorem Step.scalarNode?_cases (h : Step env P g g') {c : ClassRef} {n : NodeRef}
    (hn : g'.scalarNode? c = some n) :
    g.scalarNode? c = some n ∨ g'.Refers n ∧ n.kind = .scalar := by
  cases h with
  | learn h =>
    cases h with
    | @share c' s hc hs hnew =>
      rw [Graph.scalarNode?, Graph.share, List.find?_cons] at hn
      dsimp only at hn
      split at hn
      · cases hn
        exact .inr ⟨refers_grow g s.node, rfl⟩
      · exact .inl hn
    | make | scalar | layer => exact .inl hn
  | crawl | fill => exact .inl hn

/-- Steps keep graphs valid. -/
theorem Step.valid (h : Step env P g g') (hv : Valid env P g) : Valid env P g' where
  origin hn := by
    rcases h.node_cases hn with ⟨node, hn, hext, -⟩ | ⟨ho, -⟩
    · exact (hv.origin hn).mono h hext
    · exact ho
  entry ht := by
    rcases h.remembered_cases hv ht with ht | ⟨a, hP, hk, he, -⟩
    · obtain ⟨a, hP, hk, he⟩ := hv.entry ht
      exact ⟨a, hP, hk, he.mono h⟩
    · exact ⟨a, hP, hk, he⟩
  refers ht := by
    rcases h.remembered_cases hv ht with ht | ⟨-, -, -, -, hr⟩
    · exact (hv.refers ht).mono h
    · exact hr
  scalar hn := by
    rcases h.scalarNode?_cases hn with hn | hr
    · exact ⟨(hv.scalar hn).1.mono h, (hv.scalar hn).2⟩
    · exact hr
  parts hn := by
    rcases h.node_cases hn with ⟨node, hn, -, hp⟩ | ⟨-, hp⟩
    · exact (hp (hv.parts hn)).mono fun _ _ => h.cached
    · exact hp

theorem Grows.valid (h : Grows env P g g') (hv : Valid env P g) : Valid env P g' := by
  induction h with
  | refl => exact hv
  | tail _ hs ih => exact hs.valid ih

/-- The node of a class was made for the class. -/
theorem Valid.origin_of_class (hv : Valid env P g) (hn : g.nodes[i]? = some node)
    (hc : node.body.class? = some c) :
    ∃ head made, P (.cls head c) ∧ env.classNode c = some made ∧ made.Extends node ∧
      g.cached (.cls head c) = some (.nonNull (.named (node.refAt i))) := by
  cases hv.origin hn with
  | scalar _ _ hnode =>
    rw [hnode] at hc
    cases hc
  | @hint ann made hP hown hext ht =>
    rw [hext.body.class?_eq] at hc
    cases ann with
    | cls head c' =>
      have hmade : env.classNode c' = some made := hown
      obtain rfl : c' = c :=
        Option.some.inj ((BuildEnv.classNode_spec hmade).1.symm.trans hc)
      exact ⟨head, made, hP, hmade, hext, ht⟩
    | union head members =>
      obtain ⟨name, -, rfl⟩ := Option.map_eq_some_iff.1 hown
      cases hc
    | aliasOf head base =>
      obtain ⟨s, -, rfl⟩ := Option.map_eq_some_iff.1 hown
      cases hc
    | list | optional => cases hown

end Graph

/-! ## What nodes bring in -/

namespace BuildEnv

theorem Closed.partHints (hd : env.Closed aliases P) (hv : Graph.Valid env P g)
    (hn : g.nodes[i]? = some node) : ∀ a ∈ env.partHints node.body, P a := by
  cases hv.origin hn with
  | hint hP hown hext =>
    rw [hext.body.partHints_eq]
    exact hd.parts hP hown
  | scalar _ _ hnode =>
    rw [hnode]
    exact List.forall_mem_nil _

theorem Domain.crawlHints (hd : env.Domain aliases P) (hv : Graph.Valid env P g)
    (hn : g.nodes[i]? = some node) : ∀ a ∈ env.crawlHints node.body, P a := by
  cases hv.origin hn with
  | hint hP hown hext =>
    rw [hext.body.crawlHints_eq]
    exact hd.crawl hP hown
  | scalar _ _ hnode =>
    rw [hnode]
    exact List.forall_mem_nil _

/-! ## The node of a class -/

theorem kind?_of_isType (hv : Graph.Valid env P g) (hn : g.nodes[i]? = some node)
    (hc : node.body.class? = some c) : env.hierarchy.kind? c = some node.kind := by
  obtain ⟨head, made, -, hmade, hext, -⟩ := hv.origin_of_class hn hc
  rw [kind?_of_classNode hmade]
  exact congrArg some hext.body.kind_eq.symm

theorem name_of_isType (hv : Graph.Valid env P g) (hn : g.nodes[i]? = some node)
    (hc : node.body.class? = some c) : node.name = c.name := by
  obtain ⟨head, made, -, hmade, hext, -⟩ := hv.origin_of_class hn hc
  rw [hext.name, (classNode_spec hmade).2]

theorem WellFormed.classNode_noneType (hw : env.WellFormed aliases) :
    env.classNode .noneType = none := by
  have hnone : ∀ p : ClassDef → Bool,
      Hierarchy.anyAncestorIn p Hierarchy.builtin.defs 4 = false →
        Hierarchy.anyAncestorIn p env.hierarchy.defs 4 = false :=
    fun p hp => (hw.hierarchy.anyAncestor_builtin p (by decide)).trans hp
  have ho : env.hierarchy.isObject .noneType = false := hnone _ rfl
  have hi : env.hierarchy.isInterface .noneType = false := hnone _ rfl
  have hr : env.hierarchy.isRecord .noneType = false := hnone _ rfl
  have he : env.hierarchy.isEnum .noneType = false := hnone _ rfl
  simp [classNode, ho, hi, hr, he]

/-- The node of a class is remembered under the class. -/
theorem Closed.cached_of_class (hd : env.Closed aliases P) (hw : env.WellFormed aliases)
    (hv : Graph.Valid env P g) (hn : g.nodes[i]? = some node) (hc : node.body.class? = some c) :
    g.cached (.ofClass c none) = some (.nonNull (.named (node.refAt i))) := by
  obtain ⟨head, made, hP, hmade, -, ht⟩ := hv.origin_of_class hn hc
  rw [← ht]
  apply Graph.cached_congr
  obtain ⟨e, -, hof⟩ := hd.typed hP
  generalize ha : ResolvedHint.cls head c = ann at hof
  induction hof with
  | cls hr =>
    cases ha
    rw [ResolvedHint.key, ResolvedHint.key, ResolvedHint.head, hr]
    rfl
  | noneType =>
    cases ha
    rw [hw.classNode_noneType] at hmade
    cases hmade
  | only _ _ ih => exact ih ha
  | list | aliasOf | optional | union => cases ha

/-- A class has one node. -/
theorem Closed.index_of_class (hd : env.Closed aliases P) (hw : env.WellFormed aliases)
    (hv : Graph.Valid env P g) {j : Nat} {node' : Node} {c' : ClassRef}
    (hn : g.nodes[i]? = some node) (hc : node.body.class? = some c)
    (hn' : g.nodes[j]? = some node') (hc' : node'.body.class? = some c') (hid : c.id = c'.id) :
    i = j := by
  have ht := hd.cached_of_class hw hv hn hc
  have ht' := hd.cached_of_class hw hv hn' hc'
  have hkey : (ResolvedHint.ofClass c none).key = (ResolvedHint.ofClass c' none).key := by
    simp [ResolvedHint.key, ResolvedHint.head, ResolvedHint.ofClass, TypeExpr.key, hid]
  rw [Graph.cached_congr hkey, ht'] at ht
  simp only [Option.some.injEq, TypeRef.nonNull.injEq, TypeRef.named.injEq, Node.refAt,
    NodeRef.mk.injEq] at ht
  exact ht.1.symm

end BuildEnv

end HintSchema
