import HintSchema.Proofs.Mentions
import HintSchema.Proofs.References

/-!
# The classes a node stands for

`BuildEnv.classesUnder` lists the classes that a node stands for: its own, or those that the members
of a union mention.  Whatever hint became a type over the node mentions the same of them
(`Domain.mem_classesIn_iff_under`), so a mentioned class with a type of its own has that type, be it
directly or as a member of a union (`Domain.exists_type_of_leads`).
-/

namespace HintSchema

variable {env : BuildEnv} {aliases : AliasTable} {P : ResolvedHint → Prop} {g : Graph}
  {ann inner : ResolvedHint} {wrap : TypeRef → TypeRef} {node : Node} {n : NodeRef}
  {c d : ClassRef}

/-- A node that is the type of a class. -/
def Graph.IsType (g : Graph) (n : NodeRef) (c : ClassRef) : Prop :=
  ∃ node, g.nodes[n.id]? = some node ∧ node.body.class? = some c

namespace BuildEnv

/-- The classes a node stands for: its own, or those that the members of a union mention. -/
def classesUnder (env : BuildEnv) : NodeBody → List ClassRef
  | .object c _ _ | .interface c _ | .input c _ | .enum c _ => [c]
  | .union declared _ => env.classesInAll declared
  | .scalar _ => []

theorem classesUnder_of_class {b : NodeBody} (h : b.class? = some c) :
    env.classesUnder b = [c] := by
  cases b <;> cases h <;> rfl

theorem classesUnder_of_extends {b b' : NodeBody} (h : b.Extends b') :
    env.classesUnder b' = env.classesUnder b := by
  cases h <;> rfl

theorem classesUnder_ownNode (h : env.ownNode ann = some node) :
    env.classesUnder node.body = env.classesIn ann := by
  cases ann with
  | cls head c => exact classesUnder_of_class (classNode_spec h).1
  | union head members =>
    obtain ⟨name, -, rfl⟩ := Option.map_eq_some_iff.1 h
    rfl
  | aliasOf head base =>
    obtain ⟨s, hs, rfl⟩ := Option.map_eq_some_iff.1 h
    rw [classesIn, hs]
    rfl
  | list | optional => cases h

theorem classesIn_layer (hl : env.layer? ann = some (inner, wrap)) :
    env.classesIn ann = env.classesIn inner := by
  obtain ⟨_, rfl, -⟩ | ⟨_, rfl, -⟩ | ⟨_, rfl, hnone, -⟩ := layer?_cases hl
  · rw [classesIn]
  · rw [classesIn]
  · rw [classesIn, hnone]
    rfl

theorem Domain.isType_of_leads_class (hd : env.Domain aliases P) (hv : Graph.Valid env P g)
    (hc : env.hierarchy.Has c) (hkind : (env.hierarchy.kind? c).isSome = true)
    (hleads : g.Leads (.ofClass c none) n) : g.IsType n c := by
  obtain ⟨t, ht, rfl⟩ := hleads
  obtain ⟨kind, hkind⟩ := Option.isSome_iff_exists.1 hkind
  obtain ⟨i, node, hnode, hclass, -, rfl⟩ := hd.type_of_class hv hc hkind ht
  exact ⟨node, hnode, hclass⟩

theorem WellFormed.ne_noneType (hw : env.WellFormed aliases)
    (h : (env.hierarchy.kind? c).isSome = true) : c ≠ .noneType := by
  rintro rfl
  rw [← map_kind_classNode, hw.classNode_noneType] at h
  cases h

/-- A hint mentions the classes of types that its node stands for. -/
theorem Domain.mem_classesIn_iff_under (hd : env.Domain aliases P) (hw : env.WellFormed aliases)
    (hv : Graph.Valid env P g) (hP : P ann) (hleads : g.Leads ann n)
    (hn : g.nodes[n.id]? = some node) (hkind : (env.hierarchy.kind? d).isSome = true) :
    d ∈ env.classesIn ann ↔ d ∈ env.classesUnder node.body := by
  obtain ⟨t, ht, rfl⟩ := hleads
  induction hrank : ann.rank using Nat.strong_induction_on generalizing ann t
  rename_i r ih
  subst hrank
  -- the entry was made for a hint of the same key
  obtain ⟨a, ha, hk, he⟩ := hv.entry ht
  rw [← (hd.typed ha).mem_classesIn_congr (hd.typed hP) hk (hw.ne_noneType hkind)]
  cases he with
  | own hown hn' hext =>
    obtain rfl := Option.some.inj (hn'.symm.trans hn)
    rw [classesUnder_of_extends hext.body, classesUnder_ownNode hown]
  | @scalar head c n hnone hscalar =>
    obtain ⟨⟨node', hn', href⟩, hscalarKind⟩ := hv.scalar hscalar
    obtain rfl := Option.some.inj (hn'.symm.trans hn)
    have hempty : env.classesUnder node'.body = [] := by
      rw [← href] at hscalarKind
      obtain ⟨name, description, body⟩ := node'
      cases body <;> first | rfl | cases hscalarKind
    rw [hempty, classesIn, List.mem_singleton]
    refine ⟨?_, fun h => absurd h List.not_mem_nil⟩
    rintro rfl
    rw [← map_kind_classNode, hnone] at hkind
    cases hkind
  | @layer _ inner wrap t' hl hinner =>
    rw [classesIn_layer hl]
    rw [layer_node hl] at hn
    have hlt := (hw.typed_of_layer (hd.typed ha) hl).2
    rw [(hd.typed ha).rank_eq_of_key (hd.typed hP) hk] at hlt
    exact ih inner.rank hlt (hd.layer ha hl) t' hinner hn rfl

theorem Domain.isType_of_object (hd : env.Domain aliases P) (hw : env.WellFormed aliases)
    (hv : Graph.Valid env P g) (hP : P ann) (hleads : g.Leads ann n) (hobject : n.kind = .object)
    (hmem : d ∈ env.classesIn ann) (hkind : (env.hierarchy.kind? d).isSome = true) :
    g.IsType n d := by
  obtain ⟨node, hn, href⟩ := hv.refers_of_leads hleads
  have hunder := (hd.mem_classesIn_iff_under hw hv hP hleads hn hkind).1 hmem
  obtain ⟨c, hc⟩ : ∃ c, node.body.class? = some c := by
    rw [← href] at hobject
    obtain ⟨name, description, body⟩ := node
    cases body <;> first | exact ⟨_, rfl⟩ | cases hobject
  rw [classesUnder_of_class hc, List.mem_singleton] at hunder
  exact ⟨node, hn, hunder ▸ hc⟩

/-- A class that a hint mentions has its type where the type of the hint is, or among the members of
a union there. -/
theorem Domain.exists_type_of_leads {S : NodeRef → Prop} (hd : env.Domain aliases P)
    (hw : env.WellFormed aliases) (hv : Graph.Valid env P g) (hpending : g.pending = [])
    (hS : ∀ n node, S n → g.nodes[n.id]? = some node → ∀ m ∈ node.body.references, S m)
    (hP : P ann) (hleads : g.Leads ann n) (hn : S n) (hmem : d ∈ env.classesIn ann)
    (hkind : (env.hierarchy.kind? d).isSome = true) : ∃ m, S m ∧ g.IsType m d := by
  obtain ⟨node, hnode, href⟩ := hv.refers_of_leads hleads
  have hunder := (hd.mem_classesIn_iff_under hw hv hP hleads hnode hkind).1 hmem
  cases hclass : node.body.class? with
  | some c =>
    rw [classesUnder_of_class hclass, List.mem_singleton] at hunder
    exact ⟨n, hn, node, hnode, hunder ▸ hclass⟩
  | none =>
    have hparts := hv.parts hnode
    have hmembers := hd.partHints hv hnode
    have hreferences := hS n node hn hnode
    have hr := Graph.isRealized_of_pending hpending hnode
    obtain ⟨name, description, body⟩ := node
    cases body with
    | union declared members =>
      obtain ⟨a, ha, hmem⟩ := mem_classesInAll.1 hunder
      obtain ⟨ms, rfl⟩ := Option.isSome_iff_exists.1 hr
      obtain ⟨m, hm, t, ht, htm, hobject⟩ := exists_right_of_forall₂ (hparts ms rfl) ha
      exact ⟨m, hreferences m (List.mem_append_right _ hm),
        hd.isType_of_object hw hv (hmembers a ha) ⟨t, ht, TypeRef.node_of_nullable htm⟩ hobject
          hmem hkind⟩
    | scalar => cases hunder
    | object | interface | input | enum => cases hclass

end BuildEnv

end HintSchema
