import Mathlib.Data.Finset.Card
import HintSchema.Proofs.Domains
import HintSchema.Proofs.Realization

/-!
# Realizing until nothing is left

A round of realizing that meets the node of a class leaves a class less without a realized node, and
one that meets unions only makes objects only, so at least every other round does the former: the
fuel of `BuildEnv.realizeAll` is enough, in whatever order a round visits its nodes
(`realizeAll_spec`).
-/

namespace HintSchema

open Relation

variable {env : BuildEnv} {aliases : AliasTable} {P : ResolvedHint → Prop} {g g' : Graph}
  {node : Node} {i id : Nat} {c : ClassRef}

namespace Graph

/-- Whether the class with an id has a realized node. -/
def Finished (g : Graph) (id : Nat) : Prop :=
  ∃ (i : Nat) (node : Node) (c : ClassRef), g.nodes[i]? = some node ∧
    node.body.class? = some c ∧ c.id = id ∧ node.isRealized = true

theorem mem_pending_iff :
    id ∈ g.pending ↔ ∃ node, g.nodes[id]? = some node ∧ node.isRealized = false := by
  rw [pending, List.mem_filter, List.mem_range, Option.any_eq_true]
  constructor
  · rintro ⟨-, node, hn, hr⟩
    exact ⟨node, hn, by simpa using hr⟩
  · rintro ⟨node, hn, hr⟩
    exact ⟨(Array.getElem?_eq_some_iff.1 hn).1, node, hn, by simpa using hr⟩

theorem isRealized_of_pending (hpending : g.pending = []) (hn : g.nodes[i]? = some node) :
    node.isRealized = true := by
  by_contra hr
  have hmem : i ∈ g.pending := mem_pending_iff.2 ⟨node, hn, by simpa using hr⟩
  rw [hpending] at hmem
  cases hmem

theorem Grows.isRealized (h : Grows env P g g') (hn : g.nodes[i]? = some node)
    (hr : node.isRealized = true) :
    ∃ node', g'.nodes[i]? = some node' ∧ node'.isRealized = true := by
  obtain ⟨node', hn', hext⟩ := h.keeps hn
  exact ⟨node', hn', hext.body.isRealized hr⟩

theorem Grows.finished (h : Grows env P g g') (hf : g.Finished id) : g'.Finished id := by
  obtain ⟨i, node, c, hn, hc, hid, hr⟩ := hf
  obtain ⟨node', hn', hext⟩ := h.keeps hn
  exact ⟨i, node', c, hn', hext.body.class?_eq.trans hc, hid, hext.body.isRealized hr⟩

end Graph

namespace BuildEnv

open Classical in
/-- The ids of the declared classes without a realized node. -/
noncomputable def unfinished (env : BuildEnv) (g : Graph) : Finset Nat :=
  (Finset.range env.hierarchy.defs.length).filter fun id => ¬ g.Finished id

theorem mem_unfinished_iff :
    id ∈ env.unfinished g ↔ id < env.hierarchy.defs.length ∧ ¬ g.Finished id := by
  simp only [unfinished, Finset.mem_filter, Finset.mem_range]

theorem unfinished_subset (h : Graph.Grows env P g g') :
    env.unfinished g' ⊆ env.unfinished g := by
  intro id hid
  rw [mem_unfinished_iff] at hid ⊢
  exact ⟨hid.1, fun hf => hid.2 (h.finished hf)⟩

theorem card_unfinished_le (env : BuildEnv) (g : Graph) :
    (env.unfinished g).card ≤ env.hierarchy.defs.length := by
  have hsub : env.unfinished g ⊆ Finset.range env.hierarchy.defs.length :=
    fun id hid => Finset.mem_range.2 (mem_unfinished_iff.1 hid).1
  exact (Finset.card_le_card hsub).trans (Finset.card_range _).le

/-! ## A round -/

/-- What realizing some nodes does to a graph: with success none of them lacks a part any more, and
unions have made nodes of objects only. -/
structure RealizesAll (env : BuildEnv) (P : ResolvedHint → Prop) (ids : List Nat) (g : Graph)
    (r : Except SchemaError Unit × Graph) : Prop where
  grows : Graph.Grows env P g r.2
  crawled : r.2.crawled = g.crawled
  realized : r.1 = .ok () → ∀ id ∈ ids, ∀ node, g.nodes[id]? = some node →
    ∃ node', r.2.nodes[id]? = some node' ∧ node'.isRealized = true
  objects : r.1 = .ok () → (∀ id ∈ ids, ∃ node, g.nodes[id]? = some node ∧ node.kind = .union) →
    ∀ i node', g.nodes.size ≤ i → r.2.nodes[i]? = some node' → node'.kind = .object

variable (hd : env.Closed aliases P) (hw : env.WellFormed aliases)
include hd hw

/-- Realizing some nodes, one after the other. -/
theorem Closed.forM_realize_spec (hv : Graph.Valid env P g) (ids : List Nat) :
    env.RealizesAll P ids g ((ids.forM env.realize).exec g) := by
  induction ids generalizing g with
  | nil =>
    refine ⟨.refl, rfl, by simp, fun _ _ i node' hi hn' => ?_⟩
    have hlt := (Array.getElem?_eq_some_iff.1 hn').1
    change i < g.nodes.size at hlt
    omega
  | cons id rest ih =>
    have hone := hd.realize_spec hw hv id
    rcases hr : (env.realize id).exec g with ⟨e | ⟨⟨⟩⟩, g₁⟩ <;> rw [hr] at hone
    · have hexec : ((id :: rest).forM env.realize).exec g = (.error e, g₁) :=
        Build.exec_bind_error hr
      rw [hexec]
      refine ⟨hone.grows, hone.crawled, fun h => ?_, fun h => ?_⟩ <;> cases h
    · have hexec : ((id :: rest).forM env.realize).exec g = (rest.forM env.realize).exec g₁ :=
        Build.exec_bind_ok hr
      rw [hexec]
      obtain ⟨hgrows, hcrawled, hrealized, hobjects⟩ := ih (hone.grows.valid hv)
      refine ⟨hone.grows.trans hgrows, hcrawled.trans hone.crawled, fun hok id' hid' node hn => ?_,
        fun hok hunions i node' hi hn' => ?_⟩
      · rcases List.mem_cons.1 hid' with rfl | hid'
        · obtain ⟨node', hn', hr'⟩ := hone.realized rfl node hn
          exact hgrows.isRealized hn' hr'
        · obtain ⟨node', hn', -⟩ := hone.grows.keeps hn
          exact hrealized hok id' hid' node' hn'
      · obtain ⟨node, hn, hkind⟩ := hunions id List.mem_cons_self
        by_cases hlt : i < g₁.nodes.size
        · have hn₁ := Array.getElem?_eq_getElem hlt
          obtain ⟨node'', hn'', hext⟩ := hgrows.keeps hn₁
          obtain rfl := Option.some.inj (hn'.symm.trans hn'')
          rw [Node.kind, hext.body.kind_eq]
          exact hone.objects rfl node hn hkind i _ hi hn₁
        · refine hobjects hok (fun id' hid' => ?_) i node' (Nat.le_of_not_lt hlt) hn'
          obtain ⟨node₂, hn₂, hkind₂⟩ := hunions id' (List.mem_cons_of_mem _ hid')
          obtain ⟨node₃, hn₃, hext⟩ := hone.grows.keeps hn₂
          exact ⟨node₃, hn₃, hext.body.kind_eq.trans hkind₂⟩

omit hd hw in
/-- A node that lacks a part is of a class or a union. -/
theorem class?_of_pending (hn : node.isRealized = false) (hkind : node.kind ≠ .union) :
    ∃ c, node.body.class? = some c := by
  obtain ⟨name, description, body⟩ := node
  cases body with
  | object c | interface c | input c => exact ⟨c, rfl⟩
  | enum | scalar => cases hn
  | union => exact absurd rfl hkind

theorem Closed.has_of_class (hv : Graph.Valid env P g) (hn : g.nodes[i]? = some node)
    (hc : node.body.class? = some c) : env.hierarchy.Has c := by
  obtain ⟨head, made, hP, -⟩ := hv.origin_of_class hn hc
  exact hw.has_of_typed (hd.typed hP)

theorem Closed.mem_unfinished_of_pending (hv : Graph.Valid env P g)
    (hn : g.nodes[id]? = some node) (hr : node.isRealized = false) (hkind : node.kind ≠ .union) :
    ∃ c, node.body.class? = some c ∧ c.id ∈ env.unfinished g := by
  obtain ⟨c, hc⟩ := class?_of_pending hr hkind
  refine ⟨c, hc, mem_unfinished_iff.2 ⟨(hd.has_of_class hw hv hn hc).lt, ?_⟩⟩
  rintro ⟨j, node', c', hn', hc', hid, hr'⟩
  obtain rfl := hd.index_of_class hw hv hn hc hn' hc' hid.symm
  obtain rfl := Option.some.inj (hn.symm.trans hn')
  rw [hr] at hr'
  cases hr'

/-- A round that realizes the node of a class makes progress. -/
theorem Closed.card_unfinished_lt (hv : Graph.Valid env P g) (h : Graph.Grows env P g g')
    (hn : g.nodes[id]? = some node) (hr : node.isRealized = false) (hkind : node.kind ≠ .union)
    (hrealized : ∃ node', g'.nodes[id]? = some node' ∧ node'.isRealized = true) :
    (env.unfinished g').card < (env.unfinished g).card := by
  obtain ⟨c, hc, hmem⟩ := hd.mem_unfinished_of_pending hw hv hn hr hkind
  refine Finset.card_lt_card (Finset.ssubset_iff_subset_ne.2 ⟨unfinished_subset h, fun heq => ?_⟩)
  obtain ⟨node', hn', hr'⟩ := hrealized
  obtain ⟨node₂, hn₂, hext⟩ := h.keeps hn
  obtain rfl := Option.some.inj (hn'.symm.trans hn₂)
  rw [← heq] at hmem
  exact (mem_unfinished_iff.1 hmem).2 ⟨id, _, c, hn', hext.body.class?_eq.trans hc, rfl, hr'⟩

/-! ## Rounds -/

omit hd hw in
/-- What is pending after a round was made by the round. -/
theorem RealizesAll.size_le (h : env.RealizesAll P g.pending g (.ok (), g'))
    (hid : id ∈ g'.pending) : g.nodes.size ≤ id := by
  obtain ⟨node', hn', hr'⟩ := Graph.mem_pending_iff.1 hid
  by_contra hlt
  have hn := Array.getElem?_eq_getElem (Nat.lt_of_not_le hlt)
  have hdone : ∃ node'', g'.nodes[id]? = some node'' ∧ node''.isRealized = true := by
    cases hr : g.nodes[id].isRealized with
    | true => exact h.grows.isRealized hn hr
    | false => exact h.realized rfl id (Graph.mem_pending_iff.2 ⟨_, hn, hr⟩) _ hn
  obtain ⟨node'', hn'', hr''⟩ := hdone
  obtain rfl := Option.some.inj (hn'.symm.trans hn'')
  rw [hr'] at hr''
  cases hr''

omit hd hw in
theorem RealizesAll.of_perm {ids ids' : List Nat} {r : Except SchemaError Unit × Graph}
    (h : env.RealizesAll P ids g r) (hp : ids.Perm ids') : env.RealizesAll P ids' g r where
  grows := h.grows
  crawled := h.crawled
  realized hok id hid := h.realized hok id (hp.mem_iff.2 hid)
  objects hok hunions := h.objects hok fun id hid => hunions id (hp.mem_iff.1 hid)

omit hd hw in
theorem exec_realizeRounds_succ (visit : List Nat → List Nat) (fuel : Nat) (g : Graph) :
    (env.realizeRounds visit (fuel + 1)).exec g =
      if g.pending = [] then (.ok (), g)
      else ((visit g.pending).forM env.realize >>= fun _ =>
        env.realizeRounds visit fuel).exec g := by
  rw [realizeRounds, Build.exec_get_bind]
  by_cases h : g.pending = []
  · rw [if_pos h, if_pos (List.isEmpty_iff.2 h)]
    rfl
  · rw [if_neg h, if_neg (mt List.isEmpty_iff.1 h)]

/-- Rounds that are enough: two for each class without a realized node, and one before them unless
no union is pending. -/
def EnoughRounds (env : BuildEnv) (rounds : Nat) (g : Graph) : Prop :=
  2 * (env.unfinished g).card + 1 ≤ rounds ∨
    2 * (env.unfinished g).card ≤ rounds ∧
      ∀ id ∈ g.pending, ∀ node, g.nodes[id]? = some node → node.kind ≠ .union

theorem Closed.pending_of_enoughRounds (hv : Graph.Valid env P g) (h : env.EnoughRounds 0 g) :
    g.pending = [] := by
  rcases h with hrounds | ⟨hrounds, hkind⟩
  · omega
  · refine List.eq_nil_iff_forall_not_mem.2 fun id hid => ?_
    obtain ⟨node, hn, hr⟩ := Graph.mem_pending_iff.1 hid
    obtain ⟨c, -, hmem⟩ := hd.mem_unfinished_of_pending hw hv hn hr (hkind id hid node hn)
    have hpos := Finset.card_pos.2 ⟨_, hmem⟩
    omega

/-- After a round that had something to realize, a round less is enough. -/
theorem Closed.enoughRounds_of_round {rounds : Nat} (hv : Graph.Valid env P g)
    (hround : env.RealizesAll P g.pending g (.ok (), g')) (hpending : g.pending ≠ [])
    (h : env.EnoughRounds (rounds + 1) g) : env.EnoughRounds rounds g' := by
  have hgrows : Graph.Grows env P g g' := hround.grows
  have hle := Finset.card_le_card (unfinished_subset hgrows)
  unfold EnoughRounds at h
  by_cases hclass : ∃ id ∈ g.pending, ∃ node, g.nodes[id]? = some node ∧ node.kind ≠ .union
  · -- the class of the node is finished now
    obtain ⟨id, hid, node, hn, hkind⟩ := hclass
    obtain ⟨node', hn', hr⟩ := Graph.mem_pending_iff.1 hid
    obtain rfl := Option.some.inj (hn.symm.trans hn')
    have hlt := hd.card_unfinished_lt hw hv hgrows hn hr hkind
      (hround.realized rfl id hid _ hn)
    left
    omega
  · -- only unions were pending, so only objects are pending now
    have hunions : ∀ id ∈ g.pending, ∃ node, g.nodes[id]? = some node ∧ node.kind = .union := by
      intro id hid
      obtain ⟨node, hn, -⟩ := Graph.mem_pending_iff.1 hid
      refine ⟨node, hn, ?_⟩
      by_contra hkind
      exact hclass ⟨id, hid, node, hn, hkind⟩
    right
    refine ⟨?_, fun id hid node hn => ?_⟩
    · rcases h with h | ⟨-, hkinds⟩
      · omega
      · obtain ⟨id, hid⟩ := List.exists_mem_of_ne_nil _ hpending
        obtain ⟨node, hn, hkind⟩ := hunions id hid
        exact absurd hkind (hkinds id hid node hn)
    · rw [hround.objects rfl hunions id node (hround.size_le hid) hn]
      decide

/-- Rounds grow the graph, and when they are enough they leave nothing pending. -/
theorem Closed.realizeRounds_spec {visit : List Nat → List Nat} (hvisit : ∀ l, (visit l).Perm l)
    (rounds : Nat) (hv : Graph.Valid env P g) :
    Graph.Grows env P g ((env.realizeRounds visit rounds).exec g).2 ∧
    ((env.realizeRounds visit rounds).exec g).2.crawled = g.crawled ∧
    (((env.realizeRounds visit rounds).exec g).1 = .ok () → env.EnoughRounds rounds g →
      ((env.realizeRounds visit rounds).exec g).2.pending = []) := by
  induction rounds generalizing g with
  | zero => exact ⟨.refl, rfl, fun _ henough => hd.pending_of_enoughRounds hw hv henough⟩
  | succ rounds ih =>
    rw [exec_realizeRounds_succ]
    by_cases hempty : g.pending = []
    · rw [if_pos hempty]
      exact ⟨.refl, rfl, fun _ _ => hempty⟩
    · rw [if_neg hempty]
      have hround := (hd.forM_realize_spec hw hv (visit g.pending)).of_perm (hvisit g.pending)
      rcases hr : ((visit g.pending).forM env.realize).exec g with ⟨e | ⟨⟨⟩⟩, g₁⟩ <;>
        rw [hr] at hround
      · rw [Build.exec_bind_error hr]
        refine ⟨hround.grows, hround.crawled, fun h => ?_⟩
        cases h
      · rw [Build.exec_bind_ok hr]
        obtain ⟨hgrows, hcrawled, hdone⟩ := ih (hround.grows.valid hv)
        exact ⟨hround.grows.trans hgrows, hcrawled.trans hround.crawled, fun hok henough =>
          hdone hok (hd.enoughRounds_of_round hw hv hround hempty henough)⟩

/-- Realizing all nodes leaves none that lacks a part. -/
theorem Closed.realizeAll_spec {visit : List Nat → List Nat} (hvisit : ∀ l, (visit l).Perm l)
    (hv : Graph.Valid env P g) :
    Graph.Grows env P g ((env.realizeAll visit).exec g).2 ∧
    ((env.realizeAll visit).exec g).2.crawled = g.crawled ∧
    (((env.realizeAll visit).exec g).1 = .ok () →
      ((env.realizeAll visit).exec g).2.pending = []) := by
  obtain ⟨hgrows, hcrawled, hdone⟩ :=
    hd.realizeRounds_spec hw hvisit (2 * env.hierarchy.defs.length + 2) hv
  refine ⟨hgrows, hcrawled, fun hok => hdone hok (.inl ?_)⟩
  have hle := env.card_unfinished_le g
  omega

end BuildEnv

end HintSchema
