import HintSchema.Proofs.Discovery
import HintSchema.Proofs.References
import HintSchema.Proofs.TypeMap

/-!
# Built schemas

`BuildEnv.Built` gathers what a successful build leaves behind: a valid graph without pending nodes
and uncrawled interfaces, and a schema that closes its roots and the included types over it
(`Domain.build_spec`).
-/

namespace HintSchema

open Relation

variable {env : BuildEnv} {aliases : AliasTable} {P : ResolvedHint → Prop} {g g' : Graph}
  {c query : ClassRef} {mutation : Option ClassRef} {s : Schema}

theorem Hierarchy.has_of_root {h : Hierarchy} (hc : h.Has c) :
    ∀ d ∈ c :: (none : Option ClassRef).toList, h.Has d := by
  intro d hd
  rw [Option.toList_none, List.mem_singleton] at hd
  exact hd ▸ hc

/-- The node of a root class, which is an object type. -/
def Graph.IsRoot (g : Graph) (c : ClassRef) (n : NodeRef) : Prop :=
  g.Leads (.ofClass c none) n ∧ n.kind = .object

theorem Graph.IsRoot.grows {n : NodeRef} (h : g.IsRoot c n) (hg : Graph.Grows env P g g') :
    g'.IsRoot c n :=
  ⟨h.1.grows hg, h.2⟩

namespace BuildEnv

/-- The types that a schema is closed over. -/
structure Roots where
  query : NodeRef
  mutation : Option NodeRef
  extra : List NodeRef

def Roots.all (roots : Roots) : List NodeRef :=
  roots.query :: (roots.mutation.toList ++ roots.extra)

/-- A build up to the closing of its schema. -/
def grow (env : BuildEnv) (visit : List Nat → List Nat) (query : ClassRef)
    (mutation : Option ClassRef) : Build Roots := do
  let queryNode ← env.translateRoot "query" query
  let mutationNode ← mutation.mapM (env.translateRoot "mutation")
  env.realizeAll visit
  let extra ← env.discoverImplementers visit
  return ⟨queryNode, mutationNode, extra⟩

theorem buildVisiting_eq (visit : List Nat → List Nat) :
    env.buildVisiting visit query mutation = (do
      let roots ← env.grow visit query mutation
      Schema.close (← get).nodes roots.query roots.mutation roots.extra) := by
  simp only [buildVisiting, grow, bind_assoc, pure_bind]

/-- What a build leaves behind before it closes its schema. -/
structure Grown (env : BuildEnv) (P : ResolvedHint → Prop) (query : ClassRef)
    (mutation : Option ClassRef) (roots : Roots) (g : Graph) : Prop where
  valid : Graph.Valid env P g
  pending : g.pending = []
  uncrawled : env.uncrawled g = []
  includes : env.Includes g roots.extra
  roots : List.Forall₂ g.IsRoot (query :: mutation.toList) (roots.query :: roots.mutation.toList)

theorem Grown.refers {roots : Roots} (h : env.Grown P query mutation roots g) :
    ∀ n ∈ roots.all, g.Refers n := by
  intro n hn
  rw [Roots.all, ← List.cons_append] at hn
  rcases List.mem_append.1 hn with hn | hn
  · obtain ⟨c, -, hroot⟩ := exists_left_of_forall₂ h.roots hn
    exact h.valid.refers_of_leads hroot.1
  · exact h.includes.refers h.valid n hn

/-- What a successful build of a schema leaves behind. -/
structure Built (env : BuildEnv) (P : ResolvedHint → Prop) (query : ClassRef)
    (mutation : Option ClassRef) (s : Schema) (g : Graph) : Prop where
  valid : Graph.Valid env P g
  pending : g.pending = []
  uncrawled : env.uncrawled g = []
  includes : env.Includes g s.extra
  roots : List.Forall₂ g.IsRoot (query :: mutation.toList) (s.query :: s.mutation.toList)
  closes : Schema.Closes g ((s.query :: s.mutation.toList) ++ s.extra) s

section Roots

variable (hd : env.Layered aliases P) (hw : env.WellFormed aliases)
include hd hw

theorem Layered.translateRoot_spec {role : String} {n : NodeRef} (hP : P (.ofClass c none))
    (h : (env.translateRoot role c).exec g = (.ok n, g')) :
    Graph.Learns env P g g' ∧ g'.IsRoot c n := by
  obtain ⟨t, g₁, ht, h⟩ := Build.ok_of_exec_bind h
  have hlearns := (hd.moves_translateNullable hw hP).of_exec ht
  obtain ⟨t', ht', rfl⟩ := hd.cached_of_translateNullable hw hP ht
  cases hn : t'.nullable with
  | named m =>
    rw [hn] at h
    dsimp only at h
    split_ifs at h with hkind
    · cases h
      exact ⟨hlearns, ⟨t', ht', TypeRef.node_of_nullable hn⟩, hkind⟩
    · cases h
  | list | nonNull =>
    rw [hn] at h
    cases h

theorem Layered.moves_translateRoot {role : String} (hP : P (.ofClass c none)) :
    Build.Moves (Graph.Learn env P) (env.translateRoot role c) := by
  refine (hd.moves_translateNullable hw hP).bind fun t => ?_
  cases t with
  | named n =>
    dsimp only
    split_ifs
    · exact Build.moves_pure n
    · exact Build.moves_throw _
  | list | nonNull => exact Build.moves_throw _

theorem Layered.moves_mapM_translateRoot {role : String}
    (hP : ∀ c ∈ mutation.toList, P (.ofClass c none)) :
    Build.Moves (Graph.Learn env P) (mutation.mapM (env.translateRoot role)) := by
  cases mutation with
  | none => exact Build.moves_pure none
  | some c => exact (hd.moves_translateRoot hw (hP c (List.mem_singleton_self c))).map some

theorem Layered.mapM_translateRoot_spec {role : String} {n : Option NodeRef}
    (hP : ∀ c ∈ mutation.toList, P (.ofClass c none))
    (h : (mutation.mapM (env.translateRoot role)).exec g = (.ok n, g')) :
    Graph.Learns env P g g' ∧ List.Forall₂ g'.IsRoot mutation.toList n.toList := by
  cases mutation with
  | none =>
    cases h
    exact ⟨.refl, .nil⟩
  | some c =>
    rw [Option.mapM_some, map_eq_pure_bind] at h
    obtain ⟨m, g₁, hm, h⟩ := Build.ok_of_exec_bind h
    cases h
    obtain ⟨hlearns, hroot⟩ := hd.translateRoot_spec hw (hP c (List.mem_singleton_self c)) hm
    exact ⟨hlearns, .cons hroot .nil⟩

end Roots

variable (hd : env.Domain aliases P) (hw : env.WellFormed aliases)
include hd hw

/-- In a graph without pending nodes, whatever a node mentions is a node. -/
theorem Domain.refers_of_reference (hv : Graph.Valid env P g) (hpending : g.pending = [])
    (n : NodeRef) : ∀ m ∈ Schema.referencesOf g.nodes n, g.Refers m := by
  intro m hm
  unfold Schema.referencesOf at hm
  cases hn : g.nodes[n.id]? with
  | none =>
    rw [hn] at hm
    cases hm
  | some node =>
    rw [hn] at hm
    have hr := Graph.isRealized_of_pending hpending hn
    obtain ⟨a, -, hleads⟩ := exists_left_of_forall₂ (hd.forall₂_references hv hw hn hr) hm
    exact hv.refers_of_leads hleads

theorem Domain.grow_spec {visit : List Nat → List Nat} (hvisit : ∀ l, (visit l).Perm l)
    (hroots : ∀ c ∈ query :: mutation.toList, P (.ofClass c none)) {roots : Roots}
    (h : (env.grow visit query mutation).exec {} = (.ok roots, g)) :
    env.Grown P query mutation roots g := by
  obtain ⟨q, g₁, hq, h⟩ := Build.ok_of_exec_bind h
  obtain ⟨m, g₂, hm, h⟩ := Build.ok_of_exec_bind h
  obtain ⟨⟨⟩, g₃, hrealize, h⟩ := Build.ok_of_exec_bind h
  obtain ⟨extra, g₄, hdiscover, h⟩ := Build.ok_of_exec_bind h
  cases h
  obtain ⟨hlearns₁, hqroot⟩ := hd.translateRoot_spec hw (hroots query List.mem_cons_self) hq
  obtain ⟨hlearns₂, hmroot⟩ :=
    hd.mapM_translateRoot_spec hw (fun c hc => hroots c (List.mem_cons_of_mem _ hc)) hm
  have hroot₂ : List.Forall₂ g₂.IsRoot (query :: mutation.toList) (q :: m.toList) :=
    .cons (hqroot.grows (Graph.Learns.grows hlearns₂)) hmroot
  have hlearns : Graph.Learns env P {} g₂ := hlearns₁.trans hlearns₂
  have hv₂ := (Graph.Learns.grows hlearns).valid Graph.valid_empty
  have hround := hd.realizeAll_spec hw hvisit hv₂
  rw [hrealize] at hround
  dsimp only at hround
  obtain ⟨hgrows₃, hcrawled, hpending⟩ := hround
  obtain ⟨hgrows₄, hincludes, hpending', huncrawled⟩ :=
    hd.discoverImplementers_spec hw hvisit (hgrows₃.valid hv₂) (hpending rfl)
      (hcrawled.trans hlearns.crawled) hdiscover
  have hv := hgrows₄.valid (hgrows₃.valid hv₂)
  refine ⟨hv, hpending', huncrawled, hincludes, ?_⟩
  exact hroot₂.imp fun _ _ hroot => hroot.grows (hgrows₃.trans hgrows₄)

theorem Domain.build_spec {visit : List Nat → List Nat} (hvisit : ∀ l, (visit l).Perm l)
    (hroots : ∀ c ∈ query :: mutation.toList, P (.ofClass c none))
    (h : (env.buildVisiting visit query mutation).exec {} = (.ok s, g)) :
    env.Built P query mutation s g := by
  rw [buildVisiting_eq] at h
  obtain ⟨roots, g₁, hgrow, h⟩ := Build.ok_of_exec_bind h
  rw [Build.exec_get_bind] at h
  obtain ⟨hclose, rfl⟩ := Build.ok_of_exec_liftM h
  have hg := hd.grow_spec hw hvisit hroots hgrow
  obtain ⟨hquery, hmutation, hextra, hcloses⟩ :=
    Schema.close_spec (hd.refers_of_reference hw hg.valid hg.pending) hg.refers hclose
  rw [← hquery, ← hmutation, ← hextra] at hcloses
  refine ⟨hg.valid, hg.pending, hg.uncrawled, hextra ▸ hg.includes, ?_, hcloses⟩
  rw [hquery, hmutation]
  exact hg.roots

end BuildEnv

end HintSchema
