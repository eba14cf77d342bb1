import HintSchema.Proofs.Construction
import HintSchema.Proofs.Meaning
import HintSchema.Proofs.Naming
import HintSchema.Proofs.Unnamed

/-!
# What the names of unions denote

In a built schema the name of a union denotes a type that leads to the union through sequences and
absence only, so it denotes the union itself, perhaps with absence, unless it denotes a sequence
(`build_names_unions`).  It can denote one: a union of one member is that member, and the layer that
is taken off its text is then missing for a list below it (`Sample.names_a_list`).
-/

namespace HintSchema

open Relation TypeExpr

/-! ## Types that lead to unions -/

namespace TypeExpr

variable {e u : TypeExpr} {es : List TypeExpr}

theorem bare_union (hlen : 2 ≤ es.length) (hnone : es.any isNone = false) :
    (union es).bare = union es := by
  rw [bare, present, members, ResolvedHint.filter_eq_self_of_any hnone]
  rcases es with _ | ⟨_, _ | _⟩
  · simp at hlen
  · simp at hlen
  · rfl

theorem Reaches.normal (h : Reaches e u) (hn : e.Normal) : u.bare.Normal := by
  induction h with
  | here h => exact h ▸ hn.bare
  | element hx _ _ ih =>
    have hx' := hn.bare
    rw [hx] at hx'
    exact ih hx'.1

/-- A type that leads to a union and is no sequence is the union, perhaps with absence. -/
theorem Reaches.eq_union (h : Reaches e (union es)) (hn : e.Normal) (hlen : 2 ≤ es.length)
    (hnone : es.any isNone = false) (hseq : ∀ kind x, e.bare ≠ .generic kind [x]) :
    ∃ ms, e = union ms ∧ ms.filter (!·.isNone) = es := by
  cases h with
  | element hx => exact absurd hx (hseq _ _)
  | here h =>
    rw [bare_union hlen hnone] at h
    have hpresent : e.present = es := by rw [← members_bare hn, h, members]
    cases e with
    | union ms => exact ⟨ms, rfl, hpresent⟩
    | _ =>
      rw [← hpresent] at hlen
      exact absurd (hlen.trans (List.length_filter_le _ _)) (by simp [members])

end TypeExpr

/-! ## Named hints -/

/-- A name denotes a type that leads to the union of some types. -/
def Namespace.Names (ns : Namespace) (name : String) (es : List TypeExpr) : Prop :=
  ∃ e, ns.eval (.text name) = .ok e ∧ e.Reaches (.union es)

variable {env : BuildEnv} {aliases : AliasTable} {P : ResolvedHint → Prop} {g g' : Graph}
  {ann inner : ResolvedHint} {wrap : TypeRef → TypeRef} {node node' : Node} {c query : ClassRef}
  {mutation : Option ClassRef} {s : Schema} {n : NodeRef}

namespace ResolvedHint

/-- Each union inside a resolved hint is of two types or more, which its name leads to if it has
one. -/
def WellNamed (ns : Namespace) (ann : ResolvedHint) : Prop :=
  ∀ head members name, Inside ann (.union head members) →
    unionName (.union head members) = .ok name →
    ∃ es, head.resolved = .union es ∧ 2 ≤ es.length ∧ es.any isNone = false ∧ ns.Names name es

theorem wellNamed_of_placed {ns : Namespace} {raw : Option Hint} {origin : Option Origin}
    {e : TypeExpr} (h : ofExpr raw origin e = .ok ann) (hp : Placed ns raw e) :
    WellNamed ns ann := by
  intro head members name hi hname
  obtain ⟨d, es, hd, hres, hlen, hnone, hreaches⟩ := reaches_of_unionName h hp hi hname
  exact ⟨es, hres, hlen, hnone, d, hd, hreaches⟩

theorem wellNamed_ofClass (ns : Namespace) (c : ClassRef) (origin : Option Origin) :
    WellNamed ns (.ofClass c origin) := by
  intro head members name hi
  rcases hi.cases with h | ⟨_, h, -⟩ <;> cases h

theorem inner_of_layer (hl : env.layer? ann = some (inner, wrap)) : Inner ann inner := by
  obtain ⟨_, rfl, -⟩ | ⟨_, rfl, -⟩ | ⟨_, rfl, -⟩ := BuildEnv.layer?_cases hl
  · exact .list
  · exact .optional
  · exact .aliasOf

/-- The members of a union are resolved hints of the types that its type lists. -/
theorem Of.members {e : TypeExpr} {head : ResolvedHead} {members : List ResolvedHint}
    (hof : Of e (.union head members)) :
    ∃ es, head.resolved = .union es ∧ List.Forall₂ Of es members := by
  generalize hann : ResolvedHint.union head members = ann at hof
  induction hof with
  | cls | noneType | list | aliasOf | optional => cases hann
  | only _ _ ih => exact ih hann
  | union hnone hlen hr hlen' hof =>
    cases hann
    exact ⟨_, hr, forall₂_of_zip hlen' hof⟩

end ResolvedHint

namespace BuildEnv

/-- A resolved hint over declarations whose unions are well named. -/
def NamedHint (env : BuildEnv) (aliases : AliasTable) (ann : ResolvedHint) : Prop :=
  env.Typed aliases ann ∧ ann.WellNamed env.ns

theorem WellFormed.namedHint_of_declared (hw : env.WellFormed aliases)
    (h : env.Declared aliases ann) : env.NamedHint aliases ann := by
  refine ⟨(hw.properHint_of_declared h).typed, ?_⟩
  cases h with
  | evaluated ho he hann =>
    exact ResolvedHint.wellNamed_of_placed hann (ResolvedHint.placed_of_eval he)
  | defaulted ho he hann =>
    exact ResolvedHint.wellNamed_of_placed hann (ResolvedHint.placed_optional_of_eval he)
  | ofClass => exact ResolvedHint.wellNamed_ofClass _ _ _

theorem WellFormed.layered_named (hw : env.WellFormed aliases) :
    env.Layered aliases (env.NamedHint aliases) where
  typed h := h.1
  layer h hl := ⟨(hw.typed_of_layer h.1 hl).1, fun _ _ _ hi =>
    h.2 _ _ _ (.head (ResolvedHint.inner_of_layer hl) hi)⟩

end BuildEnv

/-! ## Named nodes -/

/-- A union is of two types or more, which its name leads to. -/
def Node.WellNamed (ns : Namespace) (node : Node) : Prop :=
  ∀ declared members, node.body = .union declared members →
    ∃ es, declared.map ResolvedHint.key = es.map TypeExpr.key ∧ 2 ≤ es.length ∧
      es.any isNone = false ∧ ns.Names node.name es

theorem Node.wellNamed_of_kind {ns : Namespace} (h : node.kind ≠ .union) : node.WellNamed ns := by
  intro declared members hbody
  rw [Node.kind, hbody] at h
  exact absurd rfl h

theorem Node.WellNamed.extends {ns : Namespace} (h : node.WellNamed ns)
    (hext : node.Extends node') : node'.WellNamed ns := by
  intro declared members hbody
  obtain ⟨filled, hfilled⟩ : ∃ filled, node.body = .union declared filled := by
    have hb := hext.body
    rw [hbody] at hb
    generalize node.body = body at hb
    cases hb with
    | union => exact ⟨_, rfl⟩
  rw [hext.name]
  exact h declared filled hfilled

/-- The members of a named union are what its name leads to, in the same order. -/
theorem BuildEnv.NamedHint.keys_of_members {head : ResolvedHead} {members : List ResolvedHint}
    {name : String} (h : env.NamedHint aliases (.union head members))
    (hname : unionName (.union head members) = .ok name) :
    ∃ es, members.map ResolvedHint.key = es.map TypeExpr.key ∧ 2 ≤ es.length ∧
      es.any isNone = false ∧ env.ns.Names name es := by
  obtain ⟨⟨e, -, hof⟩, hnamed⟩ := h
  obtain ⟨es, hres, hlen, hnone, d, hd, hreaches⟩ := hnamed head members name .refl hname
  obtain ⟨es', hres', hmembers⟩ := hof.members
  cases hres.symm.trans hres'
  have hn := hreaches.normal (Namespace.normal_of_eval hd)
  rw [bare_union hlen hnone] at hn
  exact ⟨es, ResolvedHint.Of.keys_of_members hn hmembers, hlen, hnone, d, hd, hreaches⟩

theorem BuildEnv.NamedHint.wellNamed_ownNode (h : env.NamedHint aliases ann)
    (hn : env.ownNode ann = some node) : node.WellNamed env.ns := by
  rcases BuildEnv.WellFormed.ownNode_cases hn with
    ⟨head, c, rfl, hc⟩ | ⟨head, members, name, rfl, rfl⟩ | ⟨head, base, s, rfl, rfl⟩
  · refine Node.wellNamed_of_kind fun hkind => ?_
    have hclass := (BuildEnv.classNode_spec hc).1
    obtain ⟨_, _, body⟩ := node
    cases body with
    | union => cases hclass
    | _ => cases hkind
  · obtain ⟨name', hname, hnode⟩ := Option.map_eq_some_iff.1 hn
    obtain rfl : name' = name := congrArg Node.name hnode
    intro declared filled hbody
    cases hbody
    exact h.keys_of_members (ok_of_toOption hname)
  · exact Node.wellNamed_of_kind fun hkind => by cases hkind

/-- All unions of a graph are well named. -/
def Graph.WellNamed (ns : Namespace) (g : Graph) : Prop :=
  ∀ (i : Nat) (node : Node), g.nodes[i]? = some node → node.WellNamed ns

namespace Graph

theorem WellNamed.grows (hg : g.WellNamed env.ns)
    (h : Grows env (env.NamedHint aliases) g g') : g'.WellNamed env.ns := by
  induction h with
  | refl => exact hg
  | tail _ hs ih =>
    intro i node hn
    rcases hs.node_cases hn with ⟨node', hn', hext, -⟩ | ⟨horigin, -⟩
    · exact (ih i node' hn').extends hext
    · cases horigin with
      | hint hP hown hext => exact (hP.wellNamed_ownNode hown).extends hext
      | scalar _ _ hnode =>
        refine Node.wellNamed_of_kind fun hkind => ?_
        rw [hnode] at hkind
        cases hkind

/-- Names stay when only objects are added. -/
theorem WellNamed.of_objects {ns : Namespace} (hg : g.WellNamed ns) (h : Grows env P g g')
    (hnew : ∀ i node, g.nodes.size ≤ i → g'.nodes[i]? = some node → node.kind = .object) :
    g'.WellNamed ns := by
  intro i node hn
  by_cases hlt : i < g.nodes.size
  · have hn₀ := Array.getElem?_eq_getElem hlt
    obtain ⟨node', hn', hext⟩ := h.keeps hn₀
    obtain rfl := Option.some.inj (hn.symm.trans hn')
    exact (hg i _ hn₀).extends hext
  · refine Node.wellNamed_of_kind fun hkind => ?_
    rw [hnew i node (Nat.le_of_not_lt hlt) hn] at hkind
    cases hkind

end Graph

/-! ## Successful runs -/

namespace BuildEnv

/-- A valid graph whose unions are well named. -/
structure NamedGraph (env : BuildEnv) (aliases : AliasTable) (g : Graph) : Prop where
  valid : Graph.Valid env (env.Typed aliases) g
  names : g.WellNamed env.ns

theorem NamedGraph.grows (hg : env.NamedGraph aliases g)
    (h : Graph.Grows env (env.NamedHint aliases) g g') : env.NamedGraph aliases g' where
  valid := (h.mono fun _ ha => ha.1).valid hg.valid
  names := hg.names.grows h

variable (hw : env.WellFormed aliases)
include hw

theorem WellFormed.declared_of_node (hv : Graph.Valid env (env.Typed aliases) g) {i : Nat}
    (hn : g.nodes[i]? = some node) (hkind : node.kind ≠ .union) :
    ∀ a ∈ env.partHints node.body, env.Declared aliases a := by
  intro a ha
  cases hclass : node.body.class? with
  | some c =>
    exact hw.declared_of_partHints hclass (hw.domain_typed.has_of_class hw hv hn hclass) ha
  | none =>
    obtain ⟨name, description, body⟩ := node
    cases body with
    | union => exact absurd rfl hkind
    | scalar => cases ha
    | object | interface | input | enum => cases hclass

/-- Realizing a union adds objects only when it succeeds; any other node brings in hints of
declarations. -/
theorem NamedGraph.realize (hg : env.NamedGraph aliases g) {id : Nat}
    (h : (env.realize id).exec g = (.ok (), g')) : env.NamedGraph aliases g' := by
  by_cases hunion : ∃ node, g.nodes[id]? = some node ∧ node.kind = .union
  · obtain ⟨node, hn, hkind⟩ := hunion
    have hs := hw.domain_typed.realize_spec hw hg.valid id
    rw [h] at hs
    exact ⟨hs.grows.valid hg.valid, hg.names.of_objects hs.grows (hs.objects rfl node hn hkind)⟩
  · have hparts : ∀ node, g.nodes[id]? = some node →
        ∀ a ∈ env.partHints node.body, env.NamedHint aliases a := fun node hn a ha =>
      hw.namedHint_of_declared
        (hw.declared_of_node hg.valid hn (fun hkind => hunion ⟨node, hn, hkind⟩) a ha)
    have hs := hw.layered_named.realize_spec hw (fun _ ha => ha.1) hg.valid hparts
    rw [h] at hs
    exact hg.grows hs.grows

theorem NamedGraph.forM_realize (hg : env.NamedGraph aliases g) {ids : List Nat}
    (h : (ids.forM env.realize).exec g = (.ok (), g')) : env.NamedGraph aliases g' := by
  induction ids generalizing g with
  | nil =>
    cases h
    exact hg
  | cons id rest ih =>
    obtain ⟨⟨⟩, g₁, hone, h⟩ := Build.ok_of_exec_bind h
    exact ih (hg.realize hw hone) h

theorem NamedGraph.realizeRounds (hg : env.NamedGraph aliases g) {visit : List Nat → List Nat}
    {fuel : Nat} (h : (env.realizeRounds visit fuel).exec g = (.ok (), g')) :
    env.NamedGraph aliases g' := by
  induction fuel generalizing g with
  | zero =>
    cases h
    exact hg
  | succ fuel ih =>
    rw [exec_realizeRounds_succ] at h
    split_ifs at h
    · cases h
      exact hg
    · obtain ⟨⟨⟩, g₁, hround, h⟩ := Build.ok_of_exec_bind h
      exact ih (hg.forM_realize hw hround) h

theorem WellFormed.namedHint_subclasses :
    ∀ d ∈ env.hierarchy.subclasses c, env.NamedHint aliases (.ofClass d none) := fun _ hd =>
  hw.namedHint_of_declared (.ofClass (Hierarchy.has_of_mem_subclasses hd))

theorem NamedGraph.discoverRounds (hg : env.NamedGraph aliases g) {visit : List Nat → List Nat}
    {fuel : Nat} {extra extra' : List NodeRef}
    (h : (env.discoverRounds visit fuel extra).exec g = (.ok extra', g')) :
    env.NamedGraph aliases g' := by
  induction fuel generalizing g extra with
  | zero =>
    cases h
    exact hg
  | succ fuel ih =>
    rw [exec_discoverRounds_succ] at h
    split_ifs at h
    · cases h
      exact hg
    · obtain ⟨extra₁, g₁, hcrawl, h⟩ := Build.ok_of_exec_bind h
      obtain ⟨⟨⟩, g₂, hround, h⟩ := Build.ok_of_exec_bind h
      have hmoves : Build.Moves (Graph.Step env (env.NamedHint aliases))
          ((env.uncrawled g).foldlM env.crawl extra) :=
        Build.moves_foldlM (fun extra _ _ =>
          hw.layered_named.moves_crawl hw extra hw.namedHint_subclasses) extra
      exact ih ((hg.grows (hmoves.of_exec hcrawl)).realizeRounds hw hround) h

theorem NamedGraph.buildVisiting {visit : List Nat → List Nat}
    (hroots : ∀ c ∈ query :: mutation.toList, env.hierarchy.Has c)
    (h : (env.buildVisiting visit query mutation).exec {} = (.ok s, g)) :
    env.NamedGraph aliases g := by
  have hP : ∀ c ∈ query :: mutation.toList, env.NamedHint aliases (.ofClass c none) :=
    fun c hc => hw.namedHint_of_declared (.ofClass (hroots c hc))
  obtain ⟨q, g₁, hq, h⟩ := Build.ok_of_exec_bind h
  obtain ⟨m, g₂, hm, h⟩ := Build.ok_of_exec_bind h
  obtain ⟨⟨⟩, g₃, hrealize, h⟩ := Build.ok_of_exec_bind h
  obtain ⟨extra, g₄, hdiscover, h⟩ := Build.ok_of_exec_bind h
  rw [Build.exec_get_bind] at h
  obtain ⟨-, rfl⟩ := Build.ok_of_exec_liftM h
  obtain ⟨hlearns₁, -⟩ := hw.layered_named.translateRoot_spec hw (hP query List.mem_cons_self) hq
  obtain ⟨hlearns₂, -⟩ := hw.layered_named.mapM_translateRoot_spec hw
    (fun c hc => hP c (List.mem_cons_of_mem _ hc)) hm
  have hempty : env.NamedGraph aliases {} := ⟨Graph.valid_empty, fun i node hn => by simp at hn⟩
  have hg₂ := hempty.grows (Graph.Learns.grows (hlearns₁.trans hlearns₂))
  exact (hg₂.realizeRounds hw hrealize).discoverRounds hw hdiscover

/-! ## Built schemas -/

/-- The name of each union of a built schema denotes a type that leads to the union; unless that is
a sequence, it is the union itself, perhaps with absence. -/
theorem build_names_unions {visit : List Nat → List Nat} (hvisit : ∀ l, (visit l).Perm l)
    (hroots : ∀ c ∈ query :: mutation.toList, env.hierarchy.Has c)
    (hbuild : (env.buildVisiting visit query mutation).exec {} = (.ok s, g)) (hn : n ∈ s.types)
    (hkind : n.kind = .union) :
    ∃ declared members es e, s.body n = .union declared (some members) ∧
      List.Forall₂ g.ShowsMember declared members ∧
      declared.map ResolvedHint.key = es.map TypeExpr.key ∧
      env.ns.eval (.text n.name) = .ok e ∧ e.Reaches (.union es) ∧
      ((∀ kind x, e.bare ≠ .generic kind [x]) →
        ∃ ms, e = .union ms ∧ ms.filter (!·.isNone) = es) := by
  have hb := hw.domain_typed.build_spec hw hvisit (fun c hc => ⟨.cls c, hroots c hc, .cls rfl⟩)
    hbuild
  have hg := NamedGraph.buildVisiting hw hroots hbuild
  obtain ⟨node, hnode, href, hbody⟩ := hb.closes.body_eq hn
  have hr := Graph.isRealized_of_pending hb.pending hnode
  have hparts := hb.valid.parts hnode
  have hnames := hg.names n.id node hnode
  rw [hb.closes.kind_eq hn, hbody] at hkind
  obtain ⟨name, description, body⟩ := node
  cases body with
  | union declared filled =>
    obtain ⟨members, rfl⟩ := Option.isSome_iff_exists.1 hr
    obtain ⟨es, hkeys, hlen, hnone, e, he, hreaches⟩ := hnames declared _ rfl
    have hname : n.name = name := by rw [← href]; rfl
    refine ⟨declared, members, es, e, hbody, hparts members rfl, hkeys, hname ▸ he, hreaches, ?_⟩
    exact hreaches.eq_union (Namespace.normal_of_eval he) hlen hnone
  | object | interface | input | enum | scalar => cases hkind

end BuildEnv

namespace Sample

/-- What an owner keeps is called a pet, and a pet is just that. -/
theorem build_names_unions_owner :
    ∃ s g, (townEnv.buildVisiting id owner none).exec {} = (.ok s, g) ∧
      ∃ n ∈ s.types, n.kind = .union ∧ n.name = "Pet" ∧
        ∃ ms, townEnv.ns.eval (.text n.name) = .ok (.union ms) := by
  obtain ⟨s, hs, hunion⟩ : ∃ s, ((townEnv.buildVisiting id owner none).exec {}).1 = .ok s ∧
      (s.types.any fun n => n.kind = .union ∧ n.name = "Pet") = true :=
    exists_ok_of_any (by decide +kernel)
  obtain ⟨g, hbuild⟩ := Build.exists_of_exec_fst hs
  obtain ⟨n, hn, hn'⟩ := List.any_eq_true.1 hunion
  obtain ⟨hkind, hname⟩ := of_decide_eq_true hn'
  obtain ⟨_, _, es, e, -, -, -, he, -, hdenotes⟩ := BuildEnv.build_names_unions wellFormed_town
    (fun l => .refl l) (Hierarchy.has_of_root ⟨_, rfl, rfl⟩) hbuild hn hkind
  have hpet : ((townEnv.ns.eval (.text "Pet")).toOption.any fun e => e.bare.isUnion) = true := by
    decide +kernel
  obtain ⟨e', he', hbare⟩ := exists_ok_of_any hpet
  rw [← hname, he, Except.ok.injEq] at he'
  subst he'
  obtain ⟨ms, rfl, -⟩ := hdenotes fun kind x hx => by
    rw [hx] at hbare
    cases hbare
  exact ⟨s, g, hbuild, n, hn, hkind, hname, ms, he⟩

/-- What a kennel keeps is called pets, and pets are a list. -/
theorem names_a_list :
    ¬ ∀ s g, (townEnv.buildVisiting id kennel none).exec {} = (.ok s, g) → ∀ n ∈ s.types,
      n.kind = .union → ∃ ms, townEnv.ns.eval (.text n.name) = .ok (.union ms) := by
  intro hall
  obtain ⟨s, hs, hunion⟩ : ∃ s, ((townEnv.buildVisiting id kennel none).exec {}).1 = .ok s ∧
      (s.types.any fun n => n.kind = .union ∧
        ((townEnv.ns.eval (.text n.name)).toOption.any TypeExpr.isUnion) = false) = true :=
    exists_ok_of_any (by decide +kernel)
  obtain ⟨n, hn, hn'⟩ := List.any_eq_true.1 hunion
  obtain ⟨hkind, hname⟩ := of_decide_eq_true hn'
  obtain ⟨g, hbuild⟩ := Build.exists_of_exec_fst hs
  obtain ⟨ms, hms⟩ := hall s g hbuild n hn hkind
  rw [hms] at hname
  cases hname

end Sample

end HintSchema
