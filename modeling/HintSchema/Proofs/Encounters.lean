import HintSchema.Proofs.Needs
import HintSchema.Proofs.Twins
import HintSchema.Proofs.UnionNames

/-!
# What a build meets

`BuildEnv.Met` are the resolved hints that a build from root classes can meet.  A build that succeeds
leaves none of them out (`Regular.cached_of_met`), and the members of the unions among them are
objects.  So no union is met below another one, all are well named (`Regular.namedHint_of_met`), and
unions of one name list their members in one order (`Regular.coherent_met`).
-/

namespace HintSchema

variable {env : BuildEnv} {aliases : AliasTable} {P : ResolvedHint → Prop} {g : Graph}
  {roots : List ClassRef} {ann inner : ResolvedHint} {t : TypeRef} {made node : Node} {i : Nat}
  {query : ClassRef} {mutation : Option ClassRef}

/-! ## Types that unions are reached by -/

namespace TypeExpr

/-- A type leads to one union only. -/
theorem Reaches.union_unique {e : TypeExpr} {es es' : List TypeExpr} (h : Reaches e (.union es))
    (h' : Reaches e (.union es')) (hlen : 2 ≤ es.length) (hlen' : 2 ≤ es'.length)
    (hnone : es.any isNone = false) (hnone' : es'.any isNone = false) : es = es' := by
  generalize hu : TypeExpr.union es = u at h
  induction h with
  | here h =>
    subst hu
    rw [bare_union hlen hnone] at h
    cases h' with
    | here h' =>
      rw [bare_union hlen' hnone', h] at h'
      exact TypeExpr.union.inj h'
    | element hx => cases h.symm.trans hx
  | element hx _ _ ih =>
    cases h' with
    | here h' =>
      rw [bare_union hlen' hnone', hx] at h'
      cases h'
    | element hx' _ h' =>
      cases hx.symm.trans hx'
      exact ih h' hu

end TypeExpr

/-- Whether a type has a layer of lists. -/
def TypeRef.isListed : TypeRef → Bool
  | .named _ => false
  | .list _ => true
  | .nonNull inner => inner.isListed

theorem TypeRef.isListed_nullable (t : TypeRef) : t.nullable.isListed = t.isListed := by
  cases t <;> rfl

namespace BuildEnv

/-- The resolved hints that a build from root classes can meet. -/
inductive Met (env : BuildEnv) (roots : List ClassRef) : ResolvedHint → Prop
  | root {c : ClassRef} : c ∈ roots → Met env roots (.ofClass c none)
  | layer {ann inner : ResolvedHint} {wrap : TypeRef → TypeRef} :
      Met env roots ann → env.layer? ann = some (inner, wrap) → Met env roots inner
  | part {ann a : ResolvedHint} {node : Node} : Met env roots ann →
      env.ownNode ann = some node → a ∈ env.partHints node.body → Met env roots a
  | crawl {ann a : ResolvedHint} {node : Node} : Met env roots ann →
      env.ownNode ann = some node → a ∈ env.crawlHints node.body → Met env roots a

/-- The unions that a build can meet have names, and unions of one type go by one name. -/
def UnionsAgree (env : BuildEnv) (roots : List ClassRef) : Prop :=
  ∀ head head' members members', env.Met roots (.union head members) →
    env.Met roots (.union head' members') →
    (ResolvedHint.union head members).key = (ResolvedHint.union head' members').key →
    ∃ name, unionName (.union head members) = .ok name ∧
      unionName (.union head' members') = .ok name

section Met

variable (hw : env.WellFormed aliases)
  (hnormal : ∀ {id name s}, aliases id = some (name, s) → s.Normal)
  (hroots : ∀ c ∈ roots, env.hierarchy.Has c)
include hw hnormal hroots

theorem Met.proper (h : env.Met roots ann) : env.ProperHint aliases ann := by
  have hd := hw.domain_proper hnormal
  induction h with
  | root hc => exact properHint_ofClass (hroots _ hc) none
  | layer _ hl ih => exact hd.layer ih hl
  | part _ hn ha ih => exact hd.parts ih hn _ ha
  | crawl _ hn ha ih => exact hd.crawl ih hn _ ha

theorem regular_met : env.Regular aliases (env.Met roots) where
  typed ha := (ha.proper hw hnormal hroots).typed
  layer ha hl := .layer ha hl
  parts ha hn _ hmem := .part ha hn hmem
  crawl ha hn _ hmem := .crawl ha hn hmem
  proper ha := ha.proper hw hnormal hroots
  layers ha ha' hk hl :=
    hw.layer?_congr hnormal (ha.proper hw hnormal hroots) (ha'.proper hw hnormal hroots) hk hl

end Met

/-! ## Nothing is left out -/

section Grown

variable (hr : env.Regular aliases P) (hv : Graph.Valid env P g)
include hr hv

/-- The class of a remembered hint has its node. -/
theorem Regular.node_of_cached {head : ResolvedHead} {c : ClassRef} (h : P (.cls head c))
    (hn : env.classNode c = some made) (ht : g.cached (.cls head c) = some t) :
    ∃ (i : Nat) (node : Node), g.nodes[i]? = some node ∧ made.Extends node := by
  obtain ⟨a, made', node, i, ha, hk, hown, hnode, hext, -⟩ := hr.made_of_cached hv h hn ht
  obtain ⟨head', rfl⟩ := eq_cls_of_key (hr.proper h) (hr.proper ha) hk.symm rfl
  obtain rfl := Option.some.inj (hn.symm.trans hown)
  exact ⟨i, node, hnode, hext⟩

/-- Without pending nodes, the members of a remembered union are objects. -/
theorem Regular.shows_of_cached (hpending : g.pending = []) {head : ResolvedHead}
    {members : List ResolvedHint} (h : P (.union head members))
    (hn : env.ownNode (.union head members) = some made)
    (ht : g.cached (.union head members) = some t) : ∀ a ∈ members, ∃ n, g.ShowsMember a n := by
  obtain ⟨a, made', node, i, ha, hk, hown, hnode, hext, -⟩ := hr.made_of_cached hv h hn ht
  obtain ⟨head', members', rfl, hsame⟩ := eq_union_of_key (hr.proper h) (hr.proper ha) hk.symm rfl
  obtain ⟨name, -, rfl⟩ := Option.map_eq_some_iff.1 hown
  have hrealized := Graph.isRealized_of_pending hpending hnode
  have hparts := hv.parts hnode
  obtain ⟨_, _, body⟩ := node
  cases hext.body with
  | union =>
    obtain ⟨shown, rfl⟩ := Option.isSome_iff_exists.1 hrealized
    intro b hb
    obtain ⟨b', hb', hkey⟩ := List.mem_map.1 ((hsame b.key).1 (List.mem_map_of_mem hb))
    obtain ⟨n, -, u, hu, hshow⟩ := exists_right_of_forall₂ (hparts shown rfl) hb'
    exact ⟨n, u, (Graph.cached_congr hkey).symm.trans hu, hshow⟩

/-- A leaf that became an object is a class. -/
theorem Regular.eq_cls_of_object (h : P ann) (hl : env.layer? ann = none)
    (ht : g.cached ann = some t) (hkind : t.node.kind = .object) : ∃ head c, ann = .cls head c := by
  obtain ⟨a, ha, hk, hla, he⟩ := hr.entry_of_leaf hv h hl ht
  suffices hcls : ∃ head c, a = .cls head c by
    obtain ⟨head, c, ha'⟩ := hcls
    obtain ⟨head', h'⟩ := eq_cls_of_key (hr.proper ha) (hr.proper h) hk ha'
    exact ⟨head', c, h'⟩
  cases he with
  | own hown _ hext =>
    rcases WellFormed.ownNode_cases hown with
      ⟨head, c, rfl, -⟩ | ⟨head, members, name, rfl, rfl⟩ | ⟨head, base, s, rfl, rfl⟩
    · exact ⟨head, c, rfl⟩
    · cases hext.body.kind_eq.symm.trans hkind
    · cases hext.body.kind_eq.symm.trans hkind
  | scalar => exact ⟨_, _, rfl⟩
  | layer hl' => cases hla.symm.trans hl'

/-- Inside a hint that became an object there is no union. -/
theorem Regular.not_inside_of_object (h : P ann) (ht : g.cached ann = some t)
    (hlist : t.isListed = false) (hkind : t.node.kind = .object) {head : ResolvedHead}
    {members : List ResolvedHint} : ¬ ResolvedHint.Inside ann (.union head members) := by
  intro hinside
  induction hsize : sizeOf ann using Nat.strong_induction_on generalizing ann t
  rename_i size ih
  subst hsize
  cases hl : env.layer? ann with
  | some layer =>
    obtain ⟨inner, wrap⟩ := layer
    obtain ⟨s, hs, rfl⟩ := hr.cached_inner hv h hl ht
    have hinside' := hinside.of_inner (ResolvedHint.inner_of_layer hl)
    rw [layer_node hl] at hkind
    refine ih _ (sizeOf_lt_of_layer hl) (hr.layer h hl) hs ?_ hkind hinside' rfl
    obtain ⟨_, -, rfl⟩ | ⟨_, -, rfl⟩ | ⟨_, -, -, rfl⟩ := layer?_cases hl
    · cases hlist
    · exact s.isListed_nullable.symm.trans hlist
    · exact s.isListed_nullable.symm.trans hlist
  | none =>
    obtain ⟨_, c, rfl⟩ := hr.eq_cls_of_object hv h hl ht hkind
    rcases hinside.cases with heq | ⟨_, hinner, -⟩
    · cases heq
    · cases hinner

end Grown

/-! ## Builds that succeed -/

section Succeeds

variable (hr : env.Regular aliases (env.Met (query :: mutation.toList)))
  (hw : env.WellFormed aliases) {r : Roots}
  (hg : env.Grown (env.Met (query :: mutation.toList)) query mutation r g)
include hr hw hg

/-- A build that succeeds has translated all that it can meet. -/
theorem Regular.cached_of_met
    (h : env.Met (query :: mutation.toList) ann) : ∃ t, g.cached ann = some t := by
  induction h with
  | root hc =>
    obtain ⟨n, -, ⟨t, ht, -⟩, -⟩ := exists_right_of_forall₂ hg.roots hc
    exact ⟨t, ht⟩
  | layer h hl ih =>
    obtain ⟨t, ht⟩ := ih
    obtain ⟨t', ht', -⟩ := hr.cached_inner hg.valid h hl ht
    exact ⟨t', ht'⟩
  | part h hn ha ih =>
    obtain ⟨t, ht⟩ := ih
    rcases WellFormed.ownNode_cases hn with
      ⟨head, c, rfl, hc⟩ | ⟨head, members, name, rfl, rfl⟩ | ⟨head, base, s, rfl, rfl⟩
    · obtain ⟨i, node, hnode, hext⟩ := hr.node_of_cached hg.valid h hc ht
      rw [← hext.body.partHints_eq] at ha
      obtain ⟨_, t', ht', -⟩ := hr.leads_of_partHints hg.valid hw hnode
        (Graph.isRealized_of_pending hg.pending hnode) ha
      exact ⟨t', ht'⟩
    · obtain ⟨_, t', ht', -⟩ := hr.shows_of_cached hg.valid hg.pending h hn ht _ ha
      exact ⟨t', ht'⟩
    · cases ha
  | crawl h hn ha ih =>
    obtain ⟨t, ht⟩ := ih
    rcases WellFormed.ownNode_cases hn with
      ⟨head, c, rfl, hc⟩ | ⟨head, members, name, rfl, rfl⟩ | ⟨head, base, s, rfl, rfl⟩
    · obtain ⟨i, node, hnode, hext⟩ := hr.node_of_cached hg.valid h hc ht
      have hclass := hext.body.class?_eq.trans (classNode_spec hc).1
      rw [← hext.body.crawlHints_eq] at ha
      have hkind := kind_of_mem_crawlHints ha
      obtain ⟨hinterface, d, hd, rfl⟩ := mem_crawlHints hclass ha
      have hcrawled := mem_crawled_of_uncrawled hg.uncrawled hnode hkind hclass hinterface
      obtain ⟨t', ht', -⟩ := hg.includes.subclasses c hcrawled d hd
      exact ⟨t', ht'⟩
    · cases ha
    · cases ha

/-- A build that succeeds meets well named unions only. -/
theorem Regular.namedHint_of_met (h : env.Met (query :: mutation.toList) ann) :
    env.NamedHint aliases ann := by
  refine ⟨hr.typed h, ?_⟩
  induction h with
  | root => exact ResolvedHint.wellNamed_ofClass env.ns _ none
  | layer _ hl ih =>
    exact fun _ _ _ hinside => ih _ _ _ (.head (ResolvedHint.inner_of_layer hl) hinside)
  | part h hn ha =>
    rcases WellFormed.ownNode_cases hn with
      ⟨head, c, rfl, hc⟩ | ⟨head, members, name, rfl, rfl⟩ | ⟨head, base, s, rfl, rfl⟩
    · have hhas := hw.has_of_typed (hr.typed h)
      have hdeclared := hw.declared_of_partHints (classNode_spec hc).1 hhas ha
      exact (hw.namedHint_of_declared hdeclared).2
    · -- a member is an object
      obtain ⟨t, ht⟩ := hr.cached_of_met hw hg h
      obtain ⟨n, u, hu, hnull, hkind⟩ := hr.shows_of_cached hg.valid hg.pending h hn ht _ ha
      have hlist : u.isListed = false := by rw [← u.isListed_nullable, hnull]; rfl
      have hobject : u.node.kind = .object := by rw [TypeRef.node_of_nullable hnull, hkind]
      intro head' members' name' hinside
      exact absurd hinside
        (hr.not_inside_of_object hg.valid (.part h hn ha) hu hlist hobject)
    · cases ha
  | crawl _ _ ha => exact (hw.namedHint_of_declared (declared_of_crawlHints ha)).2

/-- Where a build succeeds and the unions agree on their names, they agree on their members. -/
theorem Regular.coherent_met (hagree : env.UnionsAgree (query :: mutation.toList)) :
    env.Coherent aliases (env.Met (query :: mutation.toList)) where
  toRegular := hr
  unions h h' hk := by
    obtain ⟨name, hname, hname'⟩ := hagree _ _ _ _ h h' hk
    obtain ⟨es, hkeys, hlen, hnone, e, he, hreaches⟩ :=
      (hr.namedHint_of_met hw hg h).keys_of_members hname
    obtain ⟨es', hkeys', hlen', hnone', e', he', hreaches'⟩ :=
      (hr.namedHint_of_met hw hg h').keys_of_members hname'
    obtain rfl := Except.ok.inj (he.symm.trans he')
    obtain rfl := hreaches.union_unique hreaches' hlen hlen' hnone hnone'
    exact ⟨name, hname, hname', hkeys.trans hkeys'.symm⟩

end Succeeds

end BuildEnv

end HintSchema
