import HintSchema.Proofs.Construction
import HintSchema.Proofs.Locations

/-!
# Declarations that errors point at

Unions carry the places at which realized nodes read them (`BuildEnv.Sited`), and every step of a
build keeps it so.  Hence an error of a kind that takes a place points at a declaration that a
realized node reads, or the node that is being realized, but for the error by which a root class is
refused (`build_error_located`).
-/

namespace HintSchema

open Relation
open SchemaError (At PlacedIn)

variable {env : BuildEnv} {aliases : AliasTable} {P : ResolvedHint → Prop} {g g' : Graph}
  {node node' : Node} {i id : Nat} {c query : ClassRef} {mutation : Option ClassRef}
  {D : Origin → Prop} {visit : List Nat → List Nat} {e : SchemaError}

/-- A node was there before, or it has an origin of its own. -/
theorem Graph.Grows.node_cases (h : Grows env P g g') (hn : g'.nodes[i]? = some node') :
    (∃ node, g.nodes[i]? = some node ∧ node.Extends node') ∨ g'.Origin env P i node' := by
  induction h generalizing node' with
  | refl => exact .inl ⟨node', hn, .refl node'⟩
  | tail _ hs ih =>
    rcases hs.node_cases hn with ⟨node₁, hn₁, hext, -⟩ | ⟨ho, -⟩
    · rcases ih hn₁ with ⟨node, hn, hext'⟩ | ho
      · exact .inl ⟨node, hn, hext'.trans hext⟩
      · exact .inr (ho.mono hs hext)
    · exact .inr ho

namespace BuildEnv

/-! ## Unions and their places -/

/-- A place at which a realized node reads a hint. -/
def ReadIn (env : BuildEnv) (g : Graph) (o : Origin) : Prop :=
  ∃ (i : Nat) (node : Node), g.nodes[i]? = some node ∧ node.isRealized = true ∧
    env.Reads node.body o

theorem ReadIn.grows {o : Origin} (h : env.ReadIn g o) (hg : Graph.Grows env P g g') :
    env.ReadIn g' o := by
  obtain ⟨i, node, hn, hr, hreads⟩ := h
  obtain ⟨node', hn', hext⟩ := hg.keeps hn
  exact ⟨i, node', hn', hext.body.isRealized hr, by rwa [reads_eq_of_extends hext.body]⟩

/-- A valid graph whose unions carry places at which realized nodes read hints. -/
structure Sited (env : BuildEnv) (aliases : AliasTable) (g : Graph) : Prop where
  valid : Graph.Valid env (env.Typed aliases) g
  unions : ∀ (i : Nat) (node : Node), g.nodes[i]? = some node →
    ∀ a ∈ node.body.declared, a.LocatedIn (env.ReadIn g)

/-- A resolved hint of a class, or one that carries a place with a property. -/
def SitedHint (env : BuildEnv) (aliases : AliasTable) (D : Origin → Prop) (ann : ResolvedHint) :
    Prop :=
  env.Typed aliases ann ∧ ((∃ head c, ann = .cls head c) ∨ ann.LocatedIn D)

/-- Growth by hints that carry places read in the end keeps the places of unions. -/
theorem Sited.grows (h : env.Sited aliases g)
    (hg : Graph.Grows env (env.SitedHint aliases D) g g') (hD : ∀ o, D o → env.ReadIn g' o) :
    env.Sited aliases g' := by
  have htyped : Graph.Grows env (env.Typed aliases) g g' := hg.mono fun a ha => ha.1
  refine ⟨htyped.valid h.valid, fun i node' hn' a ha => ?_⟩
  rcases hg.node_cases hn' with ⟨node, hn, hext⟩ | ho
  · rw [hext.body.declared_eq] at ha
    exact (h.unions i node hn a ha).mono fun o ho => ho.grows hg
  · cases ho with
    | scalar _ _ hnode =>
      rw [hnode] at ha
      cases ha
    | @hint ann made hP hown hext =>
      rw [hext.body.declared_eq] at ha
      rcases WellFormed.ownNode_cases hown with
        ⟨head, c, rfl, hc⟩ | ⟨head, members, name, rfl, rfl⟩ | ⟨head, base, s, rfl, rfl⟩
      · unfold classNode at hc
        dsimp only at hc
        split_ifs at hc <;> cases hc <;> cases ha
      · obtain ⟨-, ⟨_, _, ⟨⟩⟩ | ⟨o, ho, hann⟩⟩ := hP
        cases hann with
        | union _ hmembers => exact ⟨o, hD o ho, hmembers a ha⟩
      · cases ha

/-! ## What failures point at -/

/-- An error takes no place, or it carries one at which a node reads a hint: a realized node, or the
one that failed to be realized with this error. -/
def Blames (env : BuildEnv) (g : Graph) (e : SchemaError) : Prop :=
  e.PlacedIn fun o => ∃ (i : Nat) (node : Node), g.nodes[i]? = some node ∧ env.Reads node.body o ∧
    (node.isRealized = true ∨ ∃ g₁, (env.realize i).exec g₁ = (.error e, g))

/-- A success leaves unions with places that are read, and a failure points at one. -/
structure Answers (env : BuildEnv) (aliases : AliasTable) {α : Type}
    (r : Except SchemaError α × Graph) : Prop where
  ok : ∀ a, r.1 = .ok a → env.Sited aliases r.2
  error : ∀ e, r.1 = .error e → env.Blames r.2 e

section Answers

variable {α β : Type} {m : Build α} {f : α → Build β}

theorem Answers.bind (hm : env.Answers aliases (m.exec g))
    (hf : ∀ a g', m.exec g = (.ok a, g') → env.Sited aliases g' →
      env.Answers aliases ((f a).exec g')) : env.Answers aliases ((m >>= f).exec g) := by
  rcases hr : m.exec g with ⟨e | a, g'⟩ <;> rw [hr] at hm
  · rw [Build.exec_bind_error hr]
    exact ⟨fun _ h => (by cases h), fun e' he => hm.error e' (by cases he; rfl)⟩
  · rw [Build.exec_bind_ok hr]
    exact hf a g' hr (hm.ok a rfl)

end Answers

section Rounds

variable (hw : env.WellFormed aliases)
include hw

end Rounds

/-! ## Builds -/

section Building

variable (hw : env.WellFormed aliases)
include hw

end Building

end BuildEnv

namespace Sample

end Sample

end HintSchema
