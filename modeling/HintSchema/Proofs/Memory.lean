import HintSchema.Proofs.Domains
import HintSchema.Proofs.Realization

/-!
# What a build remembers

A graph is reachable when it is made by translations of given hints, by realizing nodes and by
including subclasses, in any order and whether they succeed or fail (`BuildEnv.Reachable`).  In such
graphs memo entries never change, a hint that was translated is translated to the same type again,
and all paths to a class lead to one node (`remembered_for_good`).
-/

namespace HintSchema

open Relation

namespace BuildEnv

/-- The resolved hints that callers can come by: those of evaluated hints, perhaps made optional for
a parameter whose default is absent, and those of classes. -/
inductive Given (env : BuildEnv) (aliases : AliasTable) : ResolvedHint → Prop
  | evaluated {hint : Hint} {e : TypeExpr} {raw : Option Hint} {origin : Option Origin}
      {ann : ResolvedHint} :
      hint.Over env.hierarchy aliases → env.ns.eval hint = .ok e →
      ResolvedHint.ofExpr raw origin e = .ok ann → Given env aliases ann
  | defaulted {hint : Hint} {e : TypeExpr} {raw : Option Hint} {origin : Option Origin}
      {ann : ResolvedHint} :
      hint.Over env.hierarchy aliases → env.ns.eval hint = .ok e →
      ResolvedHint.ofExpr raw origin e.optional = .ok ann → Given env aliases ann
  | ofClass {c : ClassRef} {origin : Option Origin} :
      env.hierarchy.Has c → Given env aliases (.ofClass c origin)

/-- One call of a builder.  It counts whether it succeeds or fails. -/
inductive Call (env : BuildEnv) (aliases : AliasTable) : Graph → Graph → Prop
  | translate (g : Graph) {ann : ResolvedHint} :
      env.Given aliases ann → Call env aliases g ((env.translate ann).exec g).2
  | realize (g : Graph) (id : Nat) : Call env aliases g ((env.realize id).exec g).2
  | crawl (g : Graph) (extra : List NodeRef) (c : ClassRef) :
      Call env aliases g ((env.crawl extra c).exec g).2

/-- Any calls, one after the other. -/
abbrev Calls (env : BuildEnv) (aliases : AliasTable) : Graph → Graph → Prop :=
  ReflTransGen (env.Call aliases)

/-- A graph that calls make of the empty one. -/
def Reachable (env : BuildEnv) (aliases : AliasTable) (g : Graph) : Prop := env.Calls aliases {} g

variable {env : BuildEnv} {aliases : AliasTable} {P : ResolvedHint → Prop} {g g' : Graph}
  {ann : ResolvedHint} {t : TypeRef}

theorem WellFormed.properHint_of_given (hw : env.WellFormed aliases)
    (h : env.Given aliases ann) : env.ProperHint aliases ann := by
  cases h with
  | evaluated ho he hann => exact properHint_of_ofExpr (hw.proper_of_eval ho he) hann
  | defaulted ho he hann => exact properHint_of_ofExpr (hw.proper_of_eval ho he).optional hann
  | ofClass hc => exact properHint_ofClass hc _

theorem Domain.grows_of_call (hd : env.Domain aliases P) (hw : env.WellFormed aliases)
    (hP : ∀ ann, env.Given aliases ann → P ann) (hv : Graph.Valid env P g)
    (h : env.Call aliases g g') : Graph.Grows env P g g' := by
  cases h with
  | translate hann => exact Graph.Learns.grows (hd.moves_translate hw (hP _ hann) g)
  | realize id => exact (hd.realize_spec hw hv id).grows
  | crawl extra c =>
    refine hd.moves_crawl hw extra (fun d hmem => hP _ ?_) g
    exact .ofClass (Hierarchy.has_of_mem_subclasses hmem)

theorem Domain.grows_of_calls (hd : env.Domain aliases P) (hw : env.WellFormed aliases)
    (hP : ∀ ann, env.Given aliases ann → P ann) (hv : Graph.Valid env P g)
    (h : env.Calls aliases g g') : Graph.Grows env P g g' := by
  induction h with
  | refl => exact .refl
  | tail _ hcall ih => exact ih.trans (hd.grows_of_call hw hP (ih.valid hv) hcall)

theorem WellFormed.typed_of_given (hw : env.WellFormed aliases) (h : env.Given aliases ann) :
    env.Typed aliases ann :=
  (hw.properHint_of_given h).typed

theorem WellFormed.valid_of_reachable (hw : env.WellFormed aliases)
    (h : env.Reachable aliases g) : Graph.Valid env (env.Typed aliases) g :=
  (hw.domain_typed.grows_of_calls hw (fun _ ha => hw.typed_of_given ha) Graph.valid_empty h).valid
    Graph.valid_empty

theorem WellFormed.grows_of_calls (hw : env.WellFormed aliases) (hg : env.Reachable aliases g)
    (h : env.Calls aliases g g') : Graph.Grows env (env.Typed aliases) g g' :=
  hw.domain_typed.grows_of_calls hw (fun _ ha => hw.typed_of_given ha) (hw.valid_of_reachable hg) h

/-- A type translated once is translated to the same again, without any change. -/
theorem WellFormed.translate_again (hw : env.WellFormed aliases) (hg : env.Reachable aliases g)
    (hann : env.Given aliases ann) (ht : (env.translate ann).exec g = (.ok t, g'))
    {g'' : Graph} (h : env.Calls aliases g' g'') :
    (env.translate ann).exec g'' = (.ok t, g'') := by
  have hs := hw.domain_typed.translate_spec hw ann (hw.typed_of_given hann) g
  rw [ht] at hs
  obtain ⟨hcached, hnamed⟩ := hs.remembered t rfl
  have hg' : env.Reachable aliases g' := by
    have hcall : env.Call aliases g ((env.translate ann).exec g).2 := .translate g hann
    rw [ht] at hcall
    exact ReflTransGen.tail hg hcall
  exact (translate_hit ((hw.grows_of_calls hg' h).cached hcached)).2.2 hnamed

/-- Entries whose nodes have one class have one node. -/
theorem WellFormed.node_of_class (hw : env.WellFormed aliases) (hg : env.Reachable aliases g)
    {k k' : TypeKey} {t t' : TypeRef} {node node' : Node} {c c' : ClassRef}
    (ht : Graph.remembered k g.memo = some t) (ht' : Graph.remembered k' g.memo = some t')
    (hn : g.nodes[t.node.id]? = some node) (hn' : g.nodes[t'.node.id]? = some node')
    (hc : node.body.class? = some c) (hc' : node'.body.class? = some c') (hid : c.id = c'.id) :
    t.node = t'.node := by
  have hv := hw.valid_of_reachable hg
  have hi := hw.domain_typed.index_of_class hw hv hn hc hn' hc' hid
  obtain ⟨n, hnode, href⟩ := hv.refers ht
  obtain ⟨n', hnode', href'⟩ := hv.refers ht'
  rw [← hi] at hnode' href'
  obtain rfl := Option.some.inj (hnode.symm.trans hnode')
  exact href.symm.trans href'

/-- In every reachable graph: memo entries stay as they are; what was translated is translated to
the same again; entries whose nodes have one class have one node; and a translation that fails
remembers nothing for its hint. -/
theorem remembered_for_good (hw : env.WellFormed aliases) (hg : env.Reachable aliases g) :
    (∀ g', env.Calls aliases g g' → ∀ k t, Graph.remembered k g.memo = some t →
      Graph.remembered k g'.memo = some t) ∧
    (∀ ann t g', env.Given aliases ann → (env.translate ann).exec g = (.ok t, g') →
      ∀ g'', env.Calls aliases g' g'' → (env.translate ann).exec g'' = (.ok t, g'')) ∧
    (∀ k k' t t' node node' c c', Graph.remembered k g.memo = some t →
      Graph.remembered k' g.memo = some t' → g.nodes[t.node.id]? = some node →
      g.nodes[t'.node.id]? = some node' → node.body.class? = some c →
      node'.body.class? = some c' → c.id = c'.id → t.node = t'.node) ∧
    (∀ ann e g', env.Given aliases ann → (env.translate ann).exec g = (.error e, g') →
      g'.cached ann = g.cached ann ∧ env.Reachable aliases g') := by
  refine ⟨fun g' h k t ht => (hw.grows_of_calls hg h).remembered ht,
    fun ann t g' hann ht g'' h => hw.translate_again hg hann ht h,
    fun k k' t t' node node' c c' ht ht' hn hn' hc hc' hid =>
      hw.node_of_class hg ht ht' hn hn' hc hc' hid,
    fun ann e g' hann he => ?_⟩
  have hs := hw.domain_typed.translate_spec hw ann (hw.typed_of_given hann) g
  have hcall : env.Call aliases g ((env.translate ann).exec g).2 := .translate g hann
  rw [he] at hs hcall
  obtain rfl : g' = g := hs.failed e rfl
  exact ⟨rfl, ReflTransGen.tail hg hcall⟩

end BuildEnv

namespace Sample

/-- The graph after the drawing is translated and realized. -/
def drawn : Graph :=
  ((env.realize 0).exec ((env.translate (.ofClass drawing none)).exec {}).2).2

theorem reachable_drawn : env.Reachable aliases drawn :=
  (ReflTransGen.single (.translate {} (.ofClass ⟨_, rfl, rfl⟩))).tail (.realize _ 0)

theorem remembered_for_good_drawn :
    env.WellFormed aliases ∧ env.Reachable aliases drawn ∧
      ∀ g', env.Calls aliases drawn g' →
        g'.cached (.ofClass shape none) = some (.nonNull (.named ⟨2, .interface, "Shape"⟩)) :=
  ⟨wellFormed, reachable_drawn, fun g' h =>
    (BuildEnv.remembered_for_good wellFormed reachable_drawn).1 g' h _ _ (by decide +kernel)⟩

end Sample

end HintSchema
