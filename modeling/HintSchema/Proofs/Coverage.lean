import HintSchema.Proofs.Construction
import HintSchema.Proofs.Needs

/-!
# Which classes have types in a schema

After a successful build the classes with a node are the needed ones, and the classes with a type in
the type map are the listed ones, each with one type of the kind that its capabilities decide
(`build_covers`).
-/

namespace HintSchema

variable {env : BuildEnv} {aliases : AliasTable} {g : Graph} {ann : ResolvedHint} {n : NodeRef}
  {c d query : ClassRef} {mutation : Option ClassRef} {s : Schema}

namespace BuildEnv

/-! ## Types of classes after a build -/

section Types

variable {P : ResolvedHint → Prop} (hd : env.Domain aliases P)

include hd

theorem Domain.isType_of_root (hv : Graph.Valid env P g) (hc : env.hierarchy.Has c)
    (hroot : g.IsRoot c n) : g.IsType n c := by
  obtain ⟨⟨t, ht, rfl⟩, hkind⟩ := hroot
  rcases hd.type_of_class_cases hv hc ht with
    ⟨made, i, node, hmade, hn, hext, rfl⟩ | ⟨-, n, hscalar, rfl⟩
  · exact ⟨node, hn, hext.body.class?_eq.trans (classNode_spec hmade).1⟩
  · cases hkind.symm.trans hscalar

/-- The types of the subclasses of interfaces are included. -/
theorem Domain.leads_of_subclass (hb : env.Built P query mutation s g) (hc : g.IsType n c)
    (hinterface : env.hierarchy.isInterface c = true) (hsub : d ∈ env.hierarchy.subclasses c) :
    ∃ m ∈ s.extra, g.Leads (.ofClass d none) m := by
  obtain ⟨node, hn, hclass⟩ := hc
  have hkind : node.kind = .object ∨ node.kind = .interface := by
    have hk := kind?_of_isType hb.valid hn hclass
    rw [Hierarchy.kind?, hinterface, if_pos rfl] at hk
    split_ifs at hk
    · exact .inl (Option.some.inj hk).symm
    · exact .inr (Option.some.inj hk).symm
  have hcrawled := mem_crawled_of_uncrawled hb.uncrawled hn hkind hclass hinterface
  obtain ⟨t, ht, hextra⟩ := hb.includes.subclasses c hcrawled d hsub
  have hhas := Hierarchy.has_of_mem_subclasses hsub
  rcases hd.type_of_class_cases hb.valid hhas ht with ⟨made, i, node, -, -, -, rfl⟩ | ⟨-, m, -, rfl⟩
  · exact ⟨_, hextra _ rfl, _, ht, rfl⟩
  · exact ⟨m, hextra m rfl, _, ht, rfl⟩

end Types

/-! ## Needed classes -/

section Covers

variable (hb : env.Built (env.NeededHint aliases query mutation) query mutation s g)
include hb

/-- Classes with a node are needed. -/
theorem Built.needed_of_isType (hc : g.IsType n c) : env.Needed query mutation c := by
  obtain ⟨node, hn, hclass⟩ := hc
  obtain ⟨head, made, hP, hmade, -, -⟩ := hb.valid.origin_of_class hn hclass
  refine hP.2 c ?_ (by rw [kind?_of_classNode hmade]; rfl)
  unfold classesIn
  exact List.mem_cons_self

variable (hw : env.WellFormed aliases)
include hw

theorem Built.isType_of_leads {S : NodeRef → Prop}
    (hS : ∀ n node, S n → g.nodes[n.id]? = some node → ∀ m ∈ node.body.references, S m)
    (hP : env.NeededHint aliases query mutation ann) (hleads : g.Leads ann n) (hn : S n)
    (hmem : d ∈ env.classesIn ann) (hkind : (env.hierarchy.kind? d).isSome = true) :
    ∃ m, S m ∧ g.IsType m d :=
  hw.domain_needed.exists_type_of_leads hw hb.valid hb.pending hS hP hleads hn hmem hkind

/-- The hints that the type of a class brings in became types. -/
theorem Built.leads_of_hint (hc : g.IsType n c)
    (ha : ann ∈ env.ownHints env.fieldHints c ∨ env.hierarchy.isObject c = true ∧
      ∃ a ∈ env.interfaceAncestors c, ann = .ofClass a none) :
    env.NeededHint aliases query mutation ann ∧ ∃ m, g.Leads ann m := by
  obtain ⟨node, hn, hclass⟩ := hc
  have hmem : ann ∈ env.partHints node.body :=
    (mem_hintsWith_iff hclass (kind?_of_isType hb.valid hn hclass)).2 ha
  exact ⟨hw.domain_needed.partHints hb.valid hn _ hmem, hw.domain_needed.leads_of_partHints hb.valid
    hw hn (Graph.isRealized_of_pending hb.pending hn) hmem⟩

/-- Needed classes have a node. -/
theorem Built.isType_of_needed (hroots : ∀ c ∈ query :: mutation.toList, env.hierarchy.Has c)
    (h : env.Needed query mutation c) : ∃ n, g.IsType n c := by
  have hstep : ∀ {ann d m}, env.NeededHint aliases query mutation ann → g.Leads ann m →
      d ∈ env.classesIn ann → (env.hierarchy.kind? d).isSome = true → ∃ n, g.IsType n d := by
    intro ann d m hP hleads hmem hkind
    obtain ⟨n, -, hn⟩ := hb.isType_of_leads hw (S := fun _ => True) (fun _ _ _ _ _ _ => trivial) hP
      hleads trivial hmem hkind
    exact ⟨n, hn⟩
  induction h with
  | @root c hc =>
    obtain ⟨n, -, hroot⟩ := exists_right_of_forall₂ hb.roots hc
    exact ⟨n, hw.domain_needed.isType_of_root hb.valid (hroots c hc) hroot⟩
  | @mention c d ann _ ha hmem hkind ih =>
    obtain ⟨n, hc⟩ := ih
    obtain ⟨hP, m, hleads⟩ := hb.leads_of_hint hw hc (.inl ha)
    exact hstep hP hleads hmem hkind
  | @ancestor c a _ hobject hhas hsub hinterface hnot ih =>
    obtain ⟨n, node, hn, hclass⟩ := ih
    have hc := hw.domain_needed.has_of_class hw hb.valid hn hclass
    have ha := (hw.mem_interfaceAncestors_iff hc hobject).2 ⟨hhas, hsub, hinterface, hnot⟩
    obtain ⟨hP, m, hleads⟩ :=
      hb.leads_of_hint hw ⟨node, hn, hclass⟩ (.inr ⟨hobject, a, ha, rfl⟩)
    exact hstep hP hleads (by simp [classesIn_ofClass]) (Hierarchy.isSome_kind? hinterface)
  | @subclass c d hneeded hinterface hsub ih =>
    obtain ⟨n, hc⟩ := ih
    obtain ⟨m, -, hleads⟩ := hw.domain_needed.leads_of_subclass hb hc hinterface hsub
    have hP : env.NeededHint aliases query mutation (.ofClass d none) :=
      neededHint_ofClass (Hierarchy.has_of_mem_subclasses hsub) (.subclass hneeded hinterface hsub)
    refine hstep hP hleads (by simp [classesIn_ofClass]) (Hierarchy.isSome_kind? ?_)
    exact hw.hierarchy.isInterface_of_mem_subclasses hsub hinterface

/-! ## Listed classes -/

/-- The hints that a listed type shows lead to listed types. -/
theorem Built.leads_of_shownHint (hn : n ∈ s.types) (hc : g.IsType n c)
    (ha : ann ∈ env.ownHints env.shownFieldHints c ∨ env.hierarchy.isObject c = true ∧
      ∃ a ∈ env.interfaceAncestors c, ann = .ofClass a none) :
    env.NeededHint aliases query mutation ann ∧ ∃ m ∈ s.types, g.Leads ann m := by
  obtain ⟨node, hnode, hclass⟩ := hc
  have hmem : ann ∈ env.shownHints node.body :=
    (mem_hintsWith_iff hclass (kind?_of_isType hb.valid hnode hclass)).2 ha
  have hreferences := hw.domain_needed.forall₂_references hb.valid hw hnode
    (Graph.isRealized_of_pending hb.pending hnode)
  obtain ⟨m, hm, hleads⟩ := exists_right_of_forall₂ hreferences hmem
  exact ⟨hw.domain_needed.partHints hb.valid hnode _ (mem_partHints_of_shown hmem),
    m, hb.closes.references hn hnode m hm, hleads⟩

/-- Listed classes have a type in the type map. -/
theorem Built.mem_types_of_listed (hroots : ∀ c ∈ query :: mutation.toList, env.hierarchy.Has c)
    (h : env.Listed query mutation c) : ∃ n ∈ s.types, g.IsType n c := by
  have hstep : ∀ {ann d}, (env.NeededHint aliases query mutation ann ∧
      ∃ m ∈ s.types, g.Leads ann m) → d ∈ env.classesIn ann →
      (env.hierarchy.kind? d).isSome = true → ∃ n ∈ s.types, g.IsType n d := by
    rintro ann d ⟨hP, m, hm, hleads⟩ hmem hkind
    exact hb.isType_of_leads hw (S := (· ∈ s.types)) (fun n node => hb.closes.references) hP hleads
      hm hmem hkind
  induction h with
  | @root c hc =>
    obtain ⟨n, hn, hroot⟩ := exists_right_of_forall₂ hb.roots hc
    exact ⟨n, hb.closes.sub n (List.mem_append_left _ hn),
      hw.domain_needed.isType_of_root hb.valid (hroots c hc) hroot⟩
  | @mention c d ann _ ha hmem hkind ih =>
    obtain ⟨n, hn, hc⟩ := ih
    exact hstep (hb.leads_of_shownHint hw hn hc (.inl ha)) hmem hkind
  | @ancestor c a _ hobject hhas hsub hinterface hnot ih =>
    obtain ⟨n, hn, node, hnode, hclass⟩ := ih
    have hc := hw.domain_needed.has_of_class hw hb.valid hnode hclass
    have ha := (hw.mem_interfaceAncestors_iff hc hobject).2 ⟨hhas, hsub, hinterface, hnot⟩
    exact hstep (hb.leads_of_shownHint hw hn ⟨node, hnode, hclass⟩ (.inr ⟨hobject, a, ha, rfl⟩))
      (by simp [classesIn_ofClass]) (Hierarchy.isSome_kind? hinterface)
  | @subclass c d hneeded hinterface hsub =>
    obtain ⟨n, hc⟩ := hb.isType_of_needed hw hroots hneeded
    obtain ⟨m, hm, hleads⟩ := hw.domain_needed.leads_of_subclass hb hc hinterface hsub
    have hP : env.NeededHint aliases query mutation (.ofClass d none) :=
      neededHint_ofClass (Hierarchy.has_of_mem_subclasses hsub) (.subclass hneeded hinterface hsub)
    refine hstep ⟨hP, m, hb.closes.sub m (List.mem_append_right _ hm), hleads⟩
      (by simp [classesIn_ofClass]) (Hierarchy.isSome_kind? ?_)
    exact hw.hierarchy.isInterface_of_mem_subclasses hsub hinterface

/-- The types that a node stands for are those of listed classes. -/
def ListsUnder (env : BuildEnv) (query : ClassRef) (mutation : Option ClassRef) (g : Graph)
    (n : NodeRef) : Prop :=
  ∀ node, g.nodes[n.id]? = some node → ∀ d ∈ env.classesUnder node.body,
    (env.hierarchy.kind? d).isSome = true → env.Listed query mutation d

theorem Built.listsUnder_of_leads (hP : env.NeededHint aliases query mutation ann)
    (hleads : g.Leads ann n) (h : ∀ d ∈ env.classesIn ann,
      (env.hierarchy.kind? d).isSome = true → env.Listed query mutation d) :
    env.ListsUnder query mutation g n := fun _ hnode d hd hkind =>
  h d ((hw.domain_needed.mem_classesIn_iff_under hw hb.valid hP hleads hnode hkind).2 hd) hkind

theorem Built.listsUnder_of_reference (hn : env.ListsUnder query mutation g n) :
    ∀ m ∈ Schema.referencesOf g.nodes n, env.ListsUnder query mutation g m := by
  intro m hm
  unfold Schema.referencesOf at hm
  cases hnode : g.nodes[n.id]? with
  | none =>
    rw [hnode] at hm
    cases hm
  | some node =>
    rw [hnode] at hm
    have hreferences := hw.domain_needed.forall₂_references hb.valid hw hnode
      (Graph.isRealized_of_pending hb.pending hnode)
    obtain ⟨ann, hann, hleads⟩ := exists_left_of_forall₂ hreferences hm
    have hP := hw.domain_needed.partHints hb.valid hnode _ (mem_partHints_of_shown hann)
    refine hb.listsUnder_of_leads hw hP hleads fun d hd hkind => ?_
    cases hclass : node.body.class? with
    | none =>
      -- what a union mentions, it stands for
      refine hn node hnode d ?_ hkind
      obtain ⟨name, description, body⟩ := node
      cases body with
      | union declared members => exact mem_classesInAll.2 ⟨ann, hann, hd⟩
      | scalar => cases hann
      | object | interface | input | enum => cases hclass
    | some c =>
      have hclassKind := kind?_of_isType hb.valid hnode hclass
      have hlisted : env.Listed query mutation c := by
        refine hn node hnode c ?_ (by rw [hclassKind]; rfl)
        rw [classesUnder_of_class hclass]
        exact List.mem_cons_self
      rcases (mem_hintsWith_iff hclass hclassKind).1 hann with ha | ⟨hobject, a, ha, rfl⟩
      · exact .mention hlisted ha hd hkind
      · rw [classesIn_ofClass, List.mem_singleton] at hd
        have hc := hw.domain_needed.has_of_class hw hb.valid hnode hclass
        obtain ⟨ha, hsub, hinterface, hnot⟩ := (hw.mem_interfaceAncestors_iff hc hobject).1 ha
        exact hd ▸ .ancestor hlisted hobject ha hsub hinterface hnot

/-- The classes of listed types are listed. -/
theorem Built.listed_of_mem_types (hroots : ∀ c ∈ query :: mutation.toList, env.hierarchy.Has c)
    (hn : n ∈ s.types) (hc : g.IsType n c) : env.Listed query mutation c := by
  have hclass : ∀ {d m}, env.hierarchy.Has d → env.Listed query mutation d →
      g.Leads (.ofClass d none) m → env.ListsUnder query mutation g m := by
    intro d m hhas hlisted hleads
    apply hb.listsUnder_of_leads hw (neededHint_ofClass hhas hlisted.needed) hleads
    intro d' hd' _
    rw [classesIn_ofClass, List.mem_singleton] at hd'
    exact hd' ▸ hlisted
  have hunder : env.ListsUnder query mutation g n := by
    refine hb.closes.least _ (fun m hm => ?_) (fun m => hb.listsUnder_of_reference hw) n hn
    rcases List.mem_append.1 hm with hm | hm
    · obtain ⟨d, hd, hroot⟩ := exists_left_of_forall₂ hb.roots hm
      exact hclass (hroots d hd) (.root hd) hroot.1
    · obtain ⟨c', d, ⟨hinterface, i, node, hnode, hclass'⟩, hsub, hleads⟩ :=
        hb.includes.sources m hm
      have hneeded := hb.needed_of_isType (n := node.refAt i) ⟨node, hnode, hclass'⟩
      exact hclass (Hierarchy.has_of_mem_subclasses hsub) (.subclass hneeded hinterface hsub) hleads
  obtain ⟨node, hnode, hclass'⟩ := hc
  refine hunder node hnode c ?_ (by rw [kind?_of_isType hb.valid hnode hclass']; rfl)
  rw [classesUnder_of_class hclass']
  exact List.mem_cons_self

end Covers

/-! ## The type map -/

/-- The classes with a type in the type map of a built schema are the listed ones, which are all the
needed ones unless a method repeats the name of a parameter.  Each has one type, of the kind that
its capabilities decide, and no type lacks a part. -/
theorem build_covers (hw : env.WellFormed aliases) {visit : List Nat → List Nat}
    (hvisit : ∀ l, (visit l).Perm l)
    (hroots : ∀ c ∈ query :: mutation.toList, env.hierarchy.Has c)
    (h : ((env.buildVisiting visit query mutation).exec {}).1 = .ok s) :
    (∀ c, (∃ n ∈ s.types, (s.body n).class? = some c) ↔ env.Listed query mutation c) ∧
    ((∀ c, env.Needed query mutation c → env.DistinctParams c) →
      ∀ c, env.Listed query mutation c ↔ env.Needed query mutation c) ∧
    (∀ n ∈ s.types, ∀ n' ∈ s.types, ∀ c, (s.body n).class? = some c →
      (s.body n').class? = some c → n = n') ∧
    (∀ n ∈ s.types, ∀ c, (s.body n).class? = some c → env.hierarchy.kind? c = some n.kind) ∧
    (∀ n ∈ s.types, (s.body n).isRealized = true) := by
  have hb := hw.domain_needed.build_spec hw hvisit
    (fun c hc => neededHint_ofClass (hroots c hc) (.root hc))
    (Prod.ext h rfl : (env.buildVisiting visit query mutation).exec {} = (.ok s, _))
  refine ⟨fun c => ⟨?_, fun hlisted => ?_⟩,
    fun hdistinct c => ⟨Listed.needed, Needed.listed hdistinct⟩, ?_, ?_, fun n hn => ?_⟩
  · rintro ⟨n, hn, hc⟩
    obtain ⟨node, hnode, -, hbody⟩ := hb.closes.body_eq hn
    exact hb.listed_of_mem_types hw hroots hn ⟨node, hnode, hbody ▸ hc⟩
  · obtain ⟨n, hn, node, hnode, hc⟩ := hb.mem_types_of_listed hw hroots hlisted
    obtain ⟨node', hnode', -, hbody⟩ := hb.closes.body_eq hn
    obtain rfl := Option.some.inj (hnode.symm.trans hnode')
    exact ⟨n, hn, hbody ▸ hc⟩
  · intro n hn n' hn' c hc hc'
    obtain ⟨node, hnode, href, hbody⟩ := hb.closes.body_eq hn
    obtain ⟨node', hnode', href', hbody'⟩ := hb.closes.body_eq hn'
    rw [hbody] at hc
    rw [hbody'] at hc'
    have hid := hw.domain_needed.index_of_class hw hb.valid hnode hc hnode' hc' rfl
    exact Graph.Refers.eq_of_id ⟨node, hnode, href⟩ ⟨node', hnode', href'⟩ hid
  · intro n hn c hc
    obtain ⟨node, hnode, href, hbody⟩ := hb.closes.body_eq hn
    rw [kind?_of_isType hb.valid hnode (hbody ▸ hc), ← href]
    rfl
  · obtain ⟨node, hnode, -, hbody⟩ := hb.closes.body_eq hn
    rw [hbody]
    exact Graph.isRealized_of_pending hb.pending hnode

end BuildEnv

namespace Sample

/-- Cubes are listed with drawings, though no hint mentions them or squares. -/
theorem build_covers_drawing :
    ∃ s, ((Sample.env.buildVisiting id drawing none).exec {}).1 = .ok s ∧
      Sample.env.Listed drawing none cube := by
  obtain ⟨s, hs, hcube⟩ : ∃ s, ((Sample.env.buildVisiting id drawing none).exec {}).1 = .ok s ∧
      (s.types.any fun n => (s.body n).class? == some cube) = true :=
    exists_ok_of_any (by decide +kernel)
  obtain ⟨n, hn, hcube⟩ := List.any_eq_true.1 hcube
  have hcovers := (BuildEnv.build_covers wellFormed (fun l => .refl l)
    (Hierarchy.has_of_root ⟨_, rfl, rfl⟩) hs).1
  exact ⟨s, hs, (hcovers cube).1 ⟨n, hn, beq_iff_eq.1 hcube⟩⟩

/-- A canvas needs dots for the first parameter of a method, which the second one hides. -/
theorem needed_of_canvas : Sample.env.Needed canvas none dot := by
  have hann : ((Sample.env.ownHints Sample.env.fieldHints canvas).any
      fun ann => dot ∈ Sample.env.classesIn ann) = true := by decide +kernel
  obtain ⟨ann, ha, hdot⟩ := List.any_eq_true.1 hann
  exact .mention (.root List.mem_cons_self) ha (of_decide_eq_true hdot) (by decide +kernel)

theorem not_covers_canvas : Sample.env.WellFormed Sample.aliases ∧
    ∃ s, ((Sample.env.buildVisiting id canvas none).exec {}).1 = .ok s ∧
      ¬ ∀ c, (∃ n ∈ s.types, (s.body n).class? = some c) ↔ Sample.env.Needed canvas none c := by
  obtain ⟨s, hs, hdot⟩ : ∃ s, ((Sample.env.buildVisiting id canvas none).exec {}).1 = .ok s ∧
      (s.types.all fun n => (s.body n).class? != some dot) = true :=
    exists_ok_of_any (by decide +kernel)
  refine ⟨wellFormed, s, hs, fun hall => ?_⟩
  obtain ⟨n, hn, hclass⟩ := (hall dot).2 needed_of_canvas
  exact bne_iff_ne.1 (List.all_eq_true.1 hdot n hn) hclass

end Sample

end HintSchema
