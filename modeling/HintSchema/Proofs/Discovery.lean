import Mathlib.Data.List.Sort
import HintSchema.Proofs.Rounds

/-!
# Including all subclasses

`BuildEnv.Includes` says that the subclasses of every crawled class are translated and among the
included types.  Each round of discovery crawls a further class, so the fuel of
`BuildEnv.discoverImplementers` is enough, and in the end every interface is crawled
(`discoverImplementers_spec`).
-/

namespace HintSchema

open Relation

variable {env : BuildEnv} {aliases : AliasTable} {P : ResolvedHint → Prop} {g g' : Graph}
  {node : Node} {i : Nat} {c d : ClassRef} {extra extra' : List NodeRef}

namespace BuildEnv

/-- The class of a node that is an interface. -/
def HasInterface (env : BuildEnv) (g : Graph) (c : ClassRef) : Prop :=
  env.hierarchy.isInterface c = true ∧
    ∃ (i : Nat) (node : Node), g.nodes[i]? = some node ∧ node.body.class? = some c

theorem HasInterface.grows (h : env.HasInterface g c) (hg : Graph.Grows env P g g') :
    env.HasInterface g' c := by
  obtain ⟨hinterface, i, node, hn, hc⟩ := h
  obtain ⟨node', hn', hext⟩ := hg.keeps hn
  exact ⟨hinterface, i, node', hn', hext.body.class?_eq.trans hc⟩

/-- The included types are those of subclasses of interfaces, and those of the subclasses of all
crawled classes are among them. -/
structure Includes (env : BuildEnv) (g : Graph) (extra : List NodeRef) : Prop where
  sources : ∀ n ∈ extra, ∃ c d, env.HasInterface g c ∧ d ∈ env.hierarchy.subclasses c ∧
    g.Leads (.ofClass d none) n
  subclasses : ∀ c : ClassRef, c.id ∈ g.crawled → ∀ d ∈ env.hierarchy.subclasses c,
    ∃ t, g.cached (.ofClass d none) = some t ∧ ∀ n, t.nullable = .named n → n ∈ extra

theorem Includes.grows (h : env.Includes g extra) (hg : Graph.Grows env P g g')
    (hcrawled : g'.crawled = g.crawled) : env.Includes g' extra where
  sources n hn := by
    obtain ⟨c, d, hc, hd, hleads⟩ := h.sources n hn
    exact ⟨c, d, hc.grows hg, hd, hleads.grows hg⟩
  subclasses c hc d hd := by
    obtain ⟨t, ht, hn⟩ := h.subclasses c (hcrawled ▸ hc) d hd
    exact ⟨t, hg.cached ht, hn⟩

theorem Includes.refers (h : env.Includes g extra) (hv : Graph.Valid env P g) :
    ∀ n ∈ extra, g.Refers n := by
  intro n hn
  obtain ⟨c, d, -, -, hleads⟩ := h.sources n hn
  exact hv.refers_of_leads hleads

/-! ## Crawling -/

section Crawl

variable (hd : env.Layered aliases P) (hw : env.WellFormed aliases)
include hd hw

theorem Layered.includeClass_spec (hP : P (.ofClass d none)) (hv : Graph.Valid env P g)
    (hrefers : ∀ n ∈ extra, g.Refers n) (h : (env.includeClass extra d).exec g = (.ok extra', g')) :
    Graph.Learns env P g g' ∧ extra ⊆ extra' ∧
      (∀ n ∈ extra', n ∈ extra ∨ g'.Leads (.ofClass d none) n) ∧
      ∃ t, g'.cached (.ofClass d none) = some t ∧ ∀ n, t.nullable = .named n → n ∈ extra' := by
  have hlearns : Graph.Learns env P g g' := (hd.moves_includeClass hw extra hP).of_exec h
  refine ⟨hlearns, ?_⟩
  obtain ⟨t, g₁, ht, h⟩ := Build.ok_of_exec_bind h
  obtain ⟨t', ht', rfl⟩ := hd.cached_of_translateNullable hw hP ht
  cases hn : t'.nullable with
  | list | nonNull =>
    rw [hn] at h
    cases h
    exact ⟨fun n hn => hn, fun n hn => .inl hn, t', ht',
      fun n hn' => by rw [hn] at hn'; cases hn'⟩
  | named n =>
    rw [hn] at h
    dsimp only at h
    have hleads : g₁.Leads (.ofClass d none) n := ⟨t', ht', TypeRef.node_of_nullable hn⟩
    have hout : ∀ m, TypeRef.named n = .named m → m = n := by
      rintro m ⟨⟩
      rfl
    split_ifs at h with hany
    · cases h
      obtain ⟨m, hm, hid⟩ := List.any_eq_true.1 hany
      have hrefer : g'.Refers n :=
        ((Graph.Learns.grows hlearns).valid hv).refers_of_leads hleads
      have heq := ((hrefers m hm).grows (Graph.Learns.grows hlearns)).eq_of_id hrefer
        (beq_iff_eq.1 hid)
      refine ⟨fun n hn => hn, fun n hn => .inl hn, t', ht', fun k hk => ?_⟩
      rw [hout k (hn.symm.trans hk)]
      exact heq ▸ hm
    · cases h
      refine ⟨List.subset_append_left _ _, fun k hk => ?_, t', ht', fun k hk => ?_⟩
      · rcases List.mem_append.1 hk with hk | hk
        · exact .inl hk
        · exact .inr (List.mem_singleton.1 hk ▸ hleads)
      · rw [hout k (hn.symm.trans hk)]
        exact List.mem_append_right _ (List.mem_singleton_self n)

theorem Layered.foldlM_includeClass_spec (ds : List ClassRef) (hP : ∀ d ∈ ds, P (.ofClass d none))
    (hv : Graph.Valid env P g) (hrefers : ∀ n ∈ extra, g.Refers n)
    (h : (ds.foldlM env.includeClass extra).exec g = (.ok extra', g')) :
    Graph.Learns env P g g' ∧ extra ⊆ extra' ∧
      (∀ n ∈ extra', n ∈ extra ∨ ∃ d ∈ ds, g'.Leads (.ofClass d none) n) ∧
      ∀ d ∈ ds, ∃ t, g'.cached (.ofClass d none) = some t ∧
        ∀ n, t.nullable = .named n → n ∈ extra' := by
  induction ds generalizing g extra with
  | nil =>
    cases h
    exact ⟨.refl, fun n hn => hn, fun n hn => .inl hn, by simp⟩
  | cons d rest ih =>
    rw [List.foldlM_cons] at h
    obtain ⟨extra₁, g₁, h₁, h⟩ := Build.ok_of_exec_bind h
    obtain ⟨hlearns, hsub, hsources, t, ht, hn⟩ :=
      hd.includeClass_spec hw (hP d List.mem_cons_self) hv hrefers h₁
    have hv₁ := (Graph.Learns.grows hlearns).valid hv
    have hrefers₁ : ∀ n ∈ extra₁, g₁.Refers n := by
      intro n hn
      rcases hsources n hn with hn | hleads
      · exact (hrefers n hn).grows (Graph.Learns.grows hlearns)
      · exact hv₁.refers_of_leads hleads
    obtain ⟨hlearns', hsub', hsources', hall⟩ :=
      ih (fun d' hd' => hP d' (List.mem_cons_of_mem _ hd')) hv₁ hrefers₁ h
    refine ⟨hlearns.trans hlearns', List.Subset.trans hsub hsub', fun n hn => ?_, fun d' hd' => ?_⟩
    · rcases hsources' n hn with hn | ⟨d', hd', hleads⟩
      · rcases hsources n hn with hn | hleads
        · exact .inl hn
        · exact .inr ⟨d, List.mem_cons_self, hleads.grows (Graph.Learns.grows hlearns')⟩
      · exact .inr ⟨d', List.mem_cons_of_mem _ hd', hleads⟩
    · rcases List.mem_cons.1 hd' with rfl | hd'
      · exact ⟨t, Graph.Learns.cached hlearns' ht, fun n hn' => hsub' (hn n hn')⟩
      · exact hall d' hd'

omit hd hw in
theorem subclasses_congr (hid : c.id = d.id) :
    env.hierarchy.subclasses c = env.hierarchy.subclasses d := by
  have hsame : ClassRef.same c = ClassRef.same d := funext fun b => by
    rw [ClassRef.same, ClassRef.same, hid]
  rw [Hierarchy.subclasses, Hierarchy.subclasses]
  induction env.hierarchy.defs with
  | nil => rfl
  | cons decl older ih => rw [Hierarchy.subclassesIn, Hierarchy.subclassesIn, ih, hsame]

theorem Layered.crawl_spec (hP : ∀ d ∈ env.hierarchy.subclasses c, P (.ofClass d none))
    (hc : env.HasInterface g c) (hv : Graph.Valid env P g) (hinc : env.Includes g extra)
    (h : (env.crawl extra c).exec g = (.ok extra', g')) :
    Graph.Grows env P g g' ∧ env.Includes g' extra' ∧ g'.crawled = c.id :: g.crawled := by
  have hstep : Graph.Step env P g { g with crawled := c.id :: g.crawled } := .crawl g c.id
  obtain ⟨hlearns, hsub, hsources, hall⟩ := hd.foldlM_includeClass_spec hw _ hP (hstep.valid hv)
    (fun n hn => (hinc.refers hv n hn).mono hstep) h
  have hgrows : Graph.Grows env P g g' := (ReflTransGen.single hstep).trans hlearns.grows
  refine ⟨hgrows, ⟨fun n hn => ?_, fun c' hc' d hd' => ?_⟩, hlearns.crawled⟩
  · rcases hsources n hn with hn | ⟨d, hd', hleads⟩
    · obtain ⟨c', d, hc', hd', hleads⟩ := hinc.sources n hn
      exact ⟨c', d, hc'.grows hgrows, hd', hleads.grows hgrows⟩
    · exact ⟨c, d, hc.grows hgrows, hd', hleads⟩
  · rw [hlearns.crawled] at hc'
    rcases List.mem_cons.1 hc' with hid | hc'
    · exact hall d (subclasses_congr hid ▸ hd')
    · obtain ⟨t, ht, hn⟩ := hinc.subclasses c' hc' d hd'
      exact ⟨t, hgrows.cached ht, fun n hn' => hsub (hn n hn')⟩

theorem Layered.foldlM_crawl_spec (cs : List ClassRef)
    (hP : ∀ c ∈ cs, env.HasInterface g c ∧ ∀ d ∈ env.hierarchy.subclasses c, P (.ofClass d none))
    (hv : Graph.Valid env P g) (hinc : env.Includes g extra)
    (h : (cs.foldlM env.crawl extra).exec g = (.ok extra', g')) :
    Graph.Grows env P g g' ∧ env.Includes g' extra' ∧ g.crawled ⊆ g'.crawled ∧
      ∀ c ∈ cs, c.id ∈ g'.crawled := by
  induction cs generalizing g extra with
  | nil =>
    cases h
    exact ⟨.refl, hinc, fun id hid => hid, by simp⟩
  | cons c rest ih =>
    rw [List.foldlM_cons] at h
    obtain ⟨extra₁, g₁, h₁, h⟩ := Build.ok_of_exec_bind h
    obtain ⟨hc, hsubs⟩ := hP c List.mem_cons_self
    obtain ⟨hgrows, hinc₁, hcrawled⟩ := hd.crawl_spec hw hsubs hc hv hinc h₁
    have hrest : ∀ c' ∈ rest, env.HasInterface g₁ c' ∧
        ∀ d ∈ env.hierarchy.subclasses c', P (.ofClass d none) := by
      intro c' hc'
      obtain ⟨hinterface, hsubs'⟩ := hP c' (List.mem_cons_of_mem _ hc')
      exact ⟨hinterface.grows hgrows, hsubs'⟩
    obtain ⟨hgrows', hinc', hsub, hall⟩ := ih hrest (hgrows.valid hv) hinc₁ h
    rw [hcrawled] at hsub
    refine ⟨hgrows.trans hgrows', hinc',
      List.Subset.trans (List.subset_cons_self c.id g.crawled) hsub, fun c' hc' => ?_⟩
    rcases List.mem_cons.1 hc' with rfl | hc'
    · exact hsub List.mem_cons_self
    · exact hall c' hc'

end Crawl

/-! ## Rounds of discovery -/

theorem mem_insertById {cs : List ClassRef} : d ∈ uncrawled.insertById c cs ↔ d = c ∨ d ∈ cs := by
  induction cs with
  | nil => simp [uncrawled.insertById]
  | cons b rest ih =>
    rw [uncrawled.insertById]
    split_ifs
    · rw [List.mem_cons]
    · rw [List.mem_cons, ih, List.mem_cons]
      tauto

theorem mem_foldr_insertById {cs : List ClassRef} :
    c ∈ cs.foldr uncrawled.insertById [] ↔ c ∈ cs := by
  induction cs with
  | nil => rfl
  | cons b rest ih => rw [List.foldr_cons, mem_insertById, ih, List.mem_cons]

/-- The classes of objects and interfaces that wait to be crawled. -/
theorem mem_uncrawled_iff :
    c ∈ env.uncrawled g ↔ (∃ (i : Nat) (node : Node), g.nodes[i]? = some node ∧
      (node.kind = .object ∨ node.kind = .interface) ∧ node.body.class? = some c) ∧
      env.hierarchy.isInterface c = true ∧ c.id ∉ g.crawled := by
  rw [uncrawled, mem_foldr_insertById, List.mem_filter, List.mem_filterMap]
  refine and_congr ?_ (by simp)
  constructor
  · rintro ⟨node, hn, hc⟩
    obtain ⟨i, hi⟩ := List.getElem?_of_mem hn
    refine ⟨i, node, by simpa using hi, ?_⟩
    obtain ⟨name, description, body⟩ := node
    cases body <;> cases hc
    · exact ⟨.inl rfl, rfl⟩
    · exact ⟨.inr rfl, rfl⟩
  · rintro ⟨i, node, hn, hkind, hc⟩
    refine ⟨node, List.mem_of_getElem? (i := i) (by simpa using hn), ?_⟩
    obtain ⟨name, description, body⟩ := node
    cases body <;> first | exact hc | (obtain hk | hk := hkind <;> cases hk)

/-- When nothing waits to be crawled, interfaces with a node of an object or interface are crawled. -/
theorem mem_crawled_of_uncrawled (h : env.uncrawled g = []) (hn : g.nodes[i]? = some node)
    (hkind : node.kind = .object ∨ node.kind = .interface) (hclass : node.body.class? = some c)
    (hinterface : env.hierarchy.isInterface c = true) : c.id ∈ g.crawled := by
  by_contra hnot
  have hmem : c ∈ env.uncrawled g :=
    mem_uncrawled_iff.2 ⟨⟨i, node, hn, hkind, hclass⟩, hinterface, hnot⟩
  rw [h] at hmem
  cases hmem

/-- Classes in the order of their declaration, none twice, are told by which they are. -/
theorem eq_of_pairwise_id {cs ds : List ClassRef} (hcs : cs.Pairwise (·.id < ·.id))
    (hds : ds.Pairwise (·.id < ·.id)) (h : ∀ c, c ∈ cs ↔ c ∈ ds) : cs = ds := by
  have : Std.Irrefl fun c d : ClassRef => c.id < d.id := ⟨fun c => Nat.lt_irrefl c.id⟩
  have : Std.Antisymm fun c d : ClassRef => c.id < d.id :=
    ⟨fun c d hlt hlt' => absurd hlt' (Nat.lt_asymm hlt)⟩
  exact hcs.eq_of_mem_iff hds h

theorem pairwise_insertById {cs : List ClassRef} (hcs : cs.Pairwise (·.id < ·.id))
    (hc : ∀ d ∈ cs, c.id ≠ d.id) : (uncrawled.insertById c cs).Pairwise (·.id < ·.id) := by
  induction cs with
  | nil => exact List.pairwise_singleton _ c
  | cons d rest ih =>
    obtain ⟨hd, hrest⟩ := List.pairwise_cons.1 hcs
    have hne := hc d List.mem_cons_self
    rw [uncrawled.insertById]
    split_ifs with hle
    · refine List.pairwise_cons.2 ⟨fun b hb => ?_, hcs⟩
      rcases List.mem_cons.1 hb with rfl | hb
      · omega
      · have := hd b hb
        omega
    · refine List.pairwise_cons.2 ⟨fun b hb => ?_,
        ih hrest fun b hb => hc b (List.mem_cons_of_mem _ hb)⟩
      rcases mem_insertById.1 hb with rfl | hb
      · omega
      · exact hd b hb

/-- Classes that are picked from their nodes are picked once, as no two nodes have one class. -/
theorem Closed.pairwise_filterMap_class (hd : env.Closed aliases P) (hw : env.WellFormed aliases)
    (hv : Graph.Valid env P g) {f : Node → Option ClassRef}
    (hf : ∀ {node c}, f node = some c → node.body.class? = some c) :
    (g.nodes.toList.filterMap f).Pairwise (·.id ≠ ·.id) := by
  refine List.pairwise_filterMap.2 (List.pairwise_iff_getElem.2 ?_)
  intro i j hi hj hlt c hc c' hc' hid
  rw [Array.getElem_toList] at hc hc'
  exact Nat.ne_of_lt hlt (hd.index_of_class hw hv (Array.getElem?_eq_getElem hi) (hf hc)
    (Array.getElem?_eq_getElem hj) (hf hc') hid)

theorem pairwise_foldr_insertById {cs : List ClassRef} (hcs : cs.Pairwise (·.id ≠ ·.id)) :
    (cs.foldr uncrawled.insertById []).Pairwise (·.id < ·.id) := by
  induction cs with
  | nil => exact .nil
  | cons c rest ih =>
    obtain ⟨hc, hrest⟩ := List.pairwise_cons.1 hcs
    exact pairwise_insertById (ih hrest) fun d hd => hc d (mem_foldr_insertById.1 hd)

/-- The classes that wait to be crawled are in the order of their declaration, none twice. -/
theorem Closed.pairwise_uncrawled (hd : env.Closed aliases P) (hw : env.WellFormed aliases)
    (hv : Graph.Valid env P g) : (env.uncrawled g).Pairwise (·.id < ·.id) := by
  refine pairwise_foldr_insertById ((hd.pairwise_filterMap_class hw hv ?_).filter _)
  rintro ⟨name, description, body⟩ c hc
  cases body <;> first | exact hc | cases hc

/-- The ids of the declared classes that are not crawled. -/
def waiting (env : BuildEnv) (g : Graph) : Finset Nat :=
  (Finset.range env.hierarchy.defs.length).filter (· ∉ g.crawled)

theorem mem_waiting_iff {id : Nat} :
    id ∈ env.waiting g ↔ id < env.hierarchy.defs.length ∧ id ∉ g.crawled := by
  rw [waiting, Finset.mem_filter, Finset.mem_range]

theorem exec_discoverRounds_succ (visit : List Nat → List Nat) (fuel : Nat)
    (extra : List NodeRef) (g : Graph) :
    (env.discoverRounds visit (fuel + 1) extra).exec g =
      if env.uncrawled g = [] then (.ok extra, g)
      else ((env.uncrawled g).foldlM env.crawl extra >>= fun extra =>
        env.realizeAll visit >>= fun _ => env.discoverRounds visit fuel extra).exec g := by
  rw [discoverRounds, Build.exec_get_bind]
  by_cases h : env.uncrawled g = []
  · rw [if_pos h, if_pos (List.isEmpty_iff.2 h)]
    rfl
  · rw [if_neg h, if_neg (mt List.isEmpty_iff.1 h)]

section Rounds

variable (hd : env.Domain aliases P) (hw : env.WellFormed aliases)
include hd hw

/-- The classes of a graph that wait to be crawled bring in hints of the domain. -/
theorem Domain.subclass_of_uncrawled (hv : Graph.Valid env P g) (hc : c ∈ env.uncrawled g) :
    env.hierarchy.Has c ∧ env.HasInterface g c ∧
      ∀ d ∈ env.hierarchy.subclasses c, P (.ofClass d none) := by
  obtain ⟨⟨i, node, hn, hkind, hclass⟩, hinterface, -⟩ := mem_uncrawled_iff.1 hc
  refine ⟨hd.has_of_class hw hv hn hclass, ⟨hinterface, i, node, hn, hclass⟩,
    fun d hmem => hd.crawlHints hv hn _ ?_⟩
  obtain ⟨name, description, body⟩ := node
  cases body with
  | object | interface =>
    cases hclass
    rw [BuildEnv.crawlHints, if_pos hinterface]
    exact List.mem_map_of_mem hmem
  | input | enum | scalar | union => obtain hk | hk := hkind <;> cases hk

omit hd hw in
/-- Crawling a class makes progress. -/
theorem card_waiting_lt (hsub : g.crawled ⊆ g'.crawled) (hhas : env.hierarchy.Has c)
    (hc : c ∈ env.uncrawled g) (hc' : c.id ∈ g'.crawled) :
    (env.waiting g').card < (env.waiting g).card := by
  refine Finset.card_lt_card (Finset.ssubset_iff_subset_ne.2 ⟨fun id hid => ?_, fun heq => ?_⟩)
  · rw [mem_waiting_iff] at hid ⊢
    exact ⟨hid.1, fun hid' => hid.2 (hsub hid')⟩
  · have hmem : c.id ∈ env.waiting g :=
      mem_waiting_iff.2 ⟨hhas.lt, (mem_uncrawled_iff.1 hc).2.2⟩
    rw [← heq] at hmem
    exact (mem_waiting_iff.1 hmem).2 hc'

/-- Rounds of discovery grow the graph, and with enough fuel they leave no interface uncrawled. -/
theorem Domain.discoverRounds_spec {visit : List Nat → List Nat} (hvisit : ∀ l, (visit l).Perm l)
    (fuel : Nat) (hv : Graph.Valid env P g) (hinc : env.Includes g extra)
    (hpending : g.pending = [])
    (h : (env.discoverRounds visit fuel extra).exec g = (.ok extra', g')) :
    Graph.Grows env P g g' ∧ env.Includes g' extra' ∧ g'.pending = [] ∧
      ((env.waiting g).card < fuel → env.uncrawled g' = []) := by
  induction fuel generalizing g extra with
  | zero =>
    cases h
    exact ⟨.refl, hinc, hpending, fun hlt => by omega⟩
  | succ fuel ih =>
    rw [exec_discoverRounds_succ] at h
    split_ifs at h with hempty
    · cases h
      exact ⟨.refl, hinc, hpending, fun _ => hempty⟩
    · obtain ⟨extra₁, g₁, h₁, h⟩ := Build.ok_of_exec_bind h
      obtain ⟨⟨⟩, g₂, h₂, h⟩ := Build.ok_of_exec_bind h
      have hsubs := fun c hc => hd.subclass_of_uncrawled hw (c := c) hv hc
      obtain ⟨hgrows₁, hinc₁, hsub, hcrawled⟩ :=
        hd.foldlM_crawl_spec hw _ (fun c hc => (hsubs c hc).2) hv hinc h₁
      have hv₁ := hgrows₁.valid hv
      have hround := hd.realizeAll_spec hw hvisit hv₁
      rw [h₂] at hround
      dsimp only at hround
      obtain ⟨hgrows₂, hsame, hdone⟩ := hround
      obtain ⟨hgrows, hinc', hpending', hfinal⟩ :=
        ih (hgrows₂.valid hv₁) (hinc₁.grows hgrows₂ hsame) (hdone rfl) h
      refine ⟨(hgrows₁.trans hgrows₂).trans hgrows, hinc', hpending', fun hlt => hfinal ?_⟩
      -- the classes of this round wait no more
      obtain ⟨c, hc⟩ := List.exists_mem_of_ne_nil _ hempty
      have hwaiting : (env.waiting g₂).card < (env.waiting g).card :=
        card_waiting_lt (hsame ▸ hsub) (hsubs c hc).1 hc (hsame ▸ hcrawled c hc)
      omega

/-- In the end all nodes are realized, and all interfaces crawled. -/
theorem Domain.discoverImplementers_spec {visit : List Nat → List Nat}
    (hvisit : ∀ l, (visit l).Perm l) (hv : Graph.Valid env P g) (hpending : g.pending = [])
    (hcrawled : g.crawled = [])
    (h : (env.discoverImplementers visit).exec g = (.ok extra', g')) :
    Graph.Grows env P g g' ∧ env.Includes g' extra' ∧ g'.pending = [] ∧
      env.uncrawled g' = [] := by
  have hinc : env.Includes g [] := by
    refine ⟨by simp, fun c hc => ?_⟩
    rw [hcrawled] at hc
    cases hc
  obtain ⟨hgrows, hinc', hpending', hfinal⟩ := hd.discoverRounds_spec hw hvisit _ hv hinc hpending h
  refine ⟨hgrows, hinc', hpending', hfinal (Nat.lt_succ_of_le ?_)⟩
  exact (Finset.card_filter_le _ _).trans (Finset.card_range _).le

end Rounds

end BuildEnv

end HintSchema
