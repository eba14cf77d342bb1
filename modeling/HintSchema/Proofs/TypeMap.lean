import Mathlib.Algebra.BigOperators.Group.Finset.Basic
import HintSchema.Proofs.Entries
import HintSchema.Proofs.Validity
import HintSchema.Schema.Closure

/-!
# The type map of a schema

A walk has enough fuel when it covers the stack and what the types not seen yet mention
(`Schema.owed`).  So the type map of a closed schema lists the roots, whatever a listed type
mentions, and nothing else, each type under its own name and no name twice (`close_spec`).
-/

namespace HintSchema

variable {env : BuildEnv} {g : Graph} {nodes : Array Node}

namespace Schema

/-- A type map lists nodes, each under its own name and no name twice. -/
structure Names (g : Graph) (typeMap : List (String × NodeRef)) : Prop where
  named : ∀ p ∈ typeMap, p.1 = p.2.name
  refers : ∀ p ∈ typeMap, g.Refers p.2
  nodup : (Keyed.keys typeMap).Nodup

/-- A walk from a stack has extended a type map by the stack and all that the new types mention. -/
structure Walked (g : Graph) (stack : List NodeRef) (typeMap result : List (String × NodeRef)) :
    Prop extends Names g result where
  sub : typeMap ⊆ result
  stack : ∀ n ∈ stack, n ∈ Keyed.values result
  closed : ∀ n ∈ Keyed.values result, n ∈ Keyed.values typeMap ∨
    ∀ m ∈ referencesOf g.nodes n, m ∈ Keyed.values result

/-- The ids of the nodes that are not in a type map. -/
def unseen (nodes : Array Node) (typeMap : List (String × NodeRef)) : Finset Nat :=
  (Finset.range nodes.size).filter fun i => ∀ p ∈ typeMap, p.2.id ≠ i

/-- How many types a node mentions. -/
def degree (nodes : Array Node) (i : Nat) : Nat :=
  match nodes[i]? with
  | some node => node.body.references.length
  | none => 0

/-- How many types may still be put on the stack: those that unseen types mention. -/
def owed (nodes : Array Node) (typeMap : List (String × NodeRef)) : Nat :=
  ∑ i ∈ unseen nodes typeMap, degree nodes i

theorem length_referencesOf (n : NodeRef) :
    (referencesOf nodes n).length = degree nodes n.id := by
  rw [referencesOf, degree]
  cases nodes[n.id]? <;> rfl

theorem owed_append {typeMap : List (String × NodeRef)} {n : NodeRef} (hn : n.id < nodes.size)
    (hnew : ∀ p ∈ typeMap, p.2.id ≠ n.id) :
    owed nodes (typeMap ++ [(n.name, n)]) + (referencesOf nodes n).length = owed nodes typeMap := by
  have hmem : n.id ∈ unseen nodes typeMap := by
    rw [unseen, Finset.mem_filter, Finset.mem_range]
    exact ⟨hn, hnew⟩
  have herase : unseen nodes (typeMap ++ [(n.name, n)]) = (unseen nodes typeMap).erase n.id := by
    ext i
    simp only [unseen, Finset.mem_filter, Finset.mem_range, Finset.mem_erase, List.mem_append,
      List.mem_singleton]
    constructor
    · rintro ⟨hi, hall⟩
      exact ⟨fun he => hall _ (.inr rfl) he.symm, hi, fun p hp => hall p (.inl hp)⟩
    · rintro ⟨hne, hi, hall⟩
      refine ⟨hi, fun p hp => ?_⟩
      rcases hp with hp | rfl
      · exact hall p hp
      · exact Ne.symm hne
  rw [owed, owed, herase, length_referencesOf, add_comm]
  exact Finset.add_sum_erase _ _ hmem

theorem owed_nil (nodes : Array Node) :
    owed nodes [] = (nodes.toList.flatMap fun n => n.body.references).length := by
  have hall : unseen nodes [] = Finset.range nodes.toList.length := by
    simp [unseen]
  have hlist : ∀ l : List Node,
      (∑ i ∈ Finset.range l.length, match l[i]? with
        | some node => node.body.references.length
        | none => 0) = (l.flatMap fun n => n.body.references).length := by
    intro l
    induction l with
    | nil => rfl
    | cons node rest ih =>
      rw [List.length_cons, Finset.sum_range_succ', List.flatMap_cons, List.length_append, ← ih,
        add_comm]
      simp
  rw [owed, hall, ← hlist nodes.toList]
  refine Finset.sum_congr rfl fun i _ => ?_
  rw [degree, Array.getElem?_toList]

/-- The fuel of a walk from some roots covers them and all that types mention. -/
theorem lt_walkBound (nodes : Array Node) (roots : List NodeRef) :
    roots.length + owed nodes [] < walkBound nodes roots := by
  rw [owed_nil, walkBound]
  omega

theorem Names.append {typeMap : List (String × NodeRef)} {n : NodeRef} (h : Names g typeMap)
    (hn : g.Refers n) (hnew : Keyed.get? typeMap n.name = none) :
    Names g (typeMap ++ [(n.name, n)]) := by
  have hkey : n.name ∉ Keyed.keys typeMap := by
    rw [← Keyed.contains_iff_mem_keys, Keyed.contains, hnew]
    simp
  refine ⟨fun p hp => ?_, fun p hp => ?_, ?_⟩
  · rcases List.mem_append.1 hp with hp | hp
    · exact h.named p hp
    · rw [List.mem_singleton.1 hp]
  · rcases List.mem_append.1 hp with hp | hp
    · exact h.refers p hp
    · exact List.mem_singleton.1 hp ▸ hn
  · rw [Keyed.keys, List.map_append, List.nodup_append]
    refine ⟨h.nodup, List.nodup_singleton _, ?_⟩
    rintro a ha b hb rfl
    have ha' : a = n.name := List.mem_singleton.1 hb
    exact hkey (ha' ▸ ha)

/-- A node whose name is new is new itself. -/
theorem Names.id_ne {typeMap : List (String × NodeRef)} {n : NodeRef} (h : Names g typeMap)
    (hn : g.Refers n) (hnew : Keyed.get? typeMap n.name = none) :
    ∀ p ∈ typeMap, p.2.id ≠ n.id := by
  intro p hp hid
  have heq := (h.refers p hp).eq_of_id hn hid
  have hkey : n.name ∈ Keyed.keys typeMap :=
    List.mem_map.2 ⟨p, hp, by rw [h.named p hp, heq]⟩
  rw [← Keyed.contains_iff_mem_keys, Keyed.contains, hnew] at hkey
  cases hkey

/-- A name tells a listed node. -/
theorem Names.eq_of_name {typeMap : List (String × NodeRef)} {m n : NodeRef}
    (h : Names g typeMap) (hm : m ∈ Keyed.values typeMap) (hn : n ∈ Keyed.values typeMap)
    (hname : m.name = n.name) : m = n := by
  obtain ⟨p, hp, rfl⟩ := List.mem_map.1 hm
  obtain ⟨q, hq, rfl⟩ := List.mem_map.1 hn
  have hkey : p.1 = q.1 := by rw [h.named p hp, h.named q hq, hname]
  rw [List.inj_on_of_nodup_map h.nodup hp hq hkey]

section Walks

variable {n : NodeRef} {stack : List NodeRef} {typeMap result : List (String × NodeRef)}

/-- Listing a new type and putting what it mentions on the stack uses up a step of fuel. -/
theorem fuel_of_new {fuel : Nat} (hnames : Names g typeMap) (hn : g.Refers n)
    (hnew : Keyed.get? typeMap n.name = none)
    (hfuel : (n :: stack).length + owed g.nodes typeMap < fuel + 1) :
    (referencesOf g.nodes n ++ stack).length + owed g.nodes (typeMap ++ [(n.name, n)]) < fuel := by
  have hlt : n.id < g.nodes.size := by
    obtain ⟨node, hnode, -⟩ := hn
    exact (Array.getElem?_eq_some_iff.1 hnode).1
  have howed := owed_append hlt (hnames.id_ne hn hnew)
  rw [List.length_cons] at hfuel
  rw [List.length_append]
  omega

/-- A walk may pass over a type that is listed already. -/
theorem Walked.skip (h : Walked g stack typeMap result) (hn : n ∈ Keyed.values typeMap) :
    Walked g (n :: stack) typeMap result := by
  refine { h with stack := fun m hm => ?_ }
  rcases List.mem_cons.1 hm with rfl | hm
  · obtain ⟨p, hp, rfl⟩ := List.mem_map.1 hn
    exact List.mem_map_of_mem (h.sub hp)
  · exact h.stack m hm

/-- A walk lists a new type and goes on with what it mentions. -/
theorem Walked.visit
    (h : Walked g (referencesOf g.nodes n ++ stack) (typeMap ++ [(n.name, n)]) result) :
    Walked g (n :: stack) typeMap result where
  toNames := h.toNames
  sub p hp := h.sub (List.mem_append_left _ hp)
  stack m hm := by
    rcases List.mem_cons.1 hm with rfl | hm
    · exact List.mem_map.2 ⟨_, h.sub (List.mem_append_right _ List.mem_cons_self), rfl⟩
    · exact h.stack m (List.mem_append_right _ hm)
  closed m hm := by
    rcases h.closed m hm with hm | hm
    · rw [Keyed.values, List.map_append, List.mem_append] at hm
      rcases hm with hm | hm
      · exact .inl hm
      · obtain rfl : m = n := List.mem_singleton.1 hm
        exact .inr fun k hk => h.stack k (List.mem_append_left _ hk)
    · exact .inr hm

end Walks

/-- With enough fuel a walk lists the stack and all that listed types mention. -/
theorem walk_spec (hrefs : ∀ n : NodeRef, ∀ m ∈ referencesOf g.nodes n, g.Refers m) {fuel : Nat}
    {stack : List NodeRef} {typeMap result : List (String × NodeRef)}
    (hstack : ∀ n ∈ stack, g.Refers n) (hnames : Names g typeMap)
    (hfuel : stack.length + owed g.nodes typeMap < fuel)
    (h : walk g.nodes fuel stack typeMap = .ok result) : Walked g stack typeMap result := by
  induction fuel generalizing stack typeMap with
  | zero => omega
  | succ fuel ih =>
    cases stack with
    | nil =>
      cases h
      exact ⟨hnames, fun p hp => hp, by simp, fun n hn => .inl hn⟩
    | cons n stack =>
      have hn := hstack n List.mem_cons_self
      have hrest : ∀ m ∈ stack, g.Refers m := fun m hm => hstack m (List.mem_cons_of_mem _ hm)
      unfold walk at h
      split at h
      · rename_i seen hseen
        split_ifs at h with hid
        rw [List.length_cons] at hfuel
        have hmem := Keyed.mem_of_get? hseen
        have heq : seen = n := (hnames.refers _ hmem).eq_of_id hn hid
        exact (ih hrest hnames (by omega) h).skip (heq ▸ List.mem_map_of_mem hmem)
      · rename_i hnew
        refine (ih (fun m hm => ?_) (hnames.append hn hnew) (fuel_of_new hnames hn hnew hfuel) h).visit
        rcases List.mem_append.1 hm with hm | hm
        · exact hrefs n m hm
        · exact hrest m hm

/-- A walk lists nothing but the stack and what listed types mention. -/
theorem forall_of_walk {Q : NodeRef → Prop} (hQ : ∀ n, Q n → ∀ m ∈ referencesOf nodes n, Q m)
    {fuel : Nat} {stack : List NodeRef} {typeMap result : List (String × NodeRef)}
    (hstack : ∀ n ∈ stack, Q n) (hlisted : ∀ n ∈ Keyed.values typeMap, Q n)
    (h : walk nodes fuel stack typeMap = .ok result) : ∀ n ∈ Keyed.values result, Q n := by
  induction fuel generalizing stack typeMap with
  | zero =>
    cases h
    exact hlisted
  | succ fuel ih =>
    cases stack with
    | nil =>
      cases h
      exact hlisted
    | cons n stack =>
      have hn := hstack n List.mem_cons_self
      have hrest : ∀ m ∈ stack, Q m := fun m hm => hstack m (List.mem_cons_of_mem _ hm)
      unfold walk at h
      split at h
      · split_ifs at h
        exact ih hrest hlisted h
      · refine ih (fun m hm => ?_) (fun m hm => ?_) h
        · rcases List.mem_append.1 hm with hm | hm
          · exact hQ n hn m hm
          · exact hrest m hm
        · rw [Keyed.values, List.map_append, List.mem_append] at hm
          rcases hm with hm | hm
          · exact hlisted m hm
          · exact List.mem_singleton.1 hm ▸ hn

/-- A schema over a graph whose type map lists the roots and all that listed types mention, and
nothing else. -/
structure Closes (g : Graph) (roots : List NodeRef) (s : Schema) : Prop where
  nodes : s.nodes = g.nodes
  names : Names g s.typeMap
  sub : ∀ n ∈ roots, n ∈ s.types
  closed : ∀ n ∈ s.types, ∀ m ∈ referencesOf g.nodes n, m ∈ s.types
  least : ∀ Q : NodeRef → Prop, (∀ n ∈ roots, Q n) →
    (∀ n, Q n → ∀ m ∈ referencesOf g.nodes n, Q m) → ∀ n ∈ s.types, Q n

theorem Closes.references {roots : List NodeRef} {s : Schema} {n : NodeRef} {node : Node}
    (h : Closes g roots s) (hn : n ∈ s.types) (hnode : g.nodes[n.id]? = some node) :
    ∀ m ∈ node.body.references, m ∈ s.types := by
  have hclosed := h.closed n hn
  rwa [referencesOf, hnode] at hclosed

theorem Closes.body_eq {roots : List NodeRef} {s : Schema} {n : NodeRef} (h : Closes g roots s)
    (hn : n ∈ s.types) :
    ∃ node, g.nodes[n.id]? = some node ∧ node.refAt n.id = n ∧ s.body n = node.body := by
  obtain ⟨p, hp, rfl⟩ := List.mem_map.1 hn
  obtain ⟨node, hnode, href⟩ := h.names.refers p hp
  refine ⟨node, hnode, href, ?_⟩
  rw [body, node?, h.nodes, hnode]

theorem Closes.kind_eq {roots : List NodeRef} {s : Schema} {n : NodeRef} (h : Closes g roots s)
    (hn : n ∈ s.types) : n.kind = (s.body n).kind := by
  obtain ⟨node, -, href, hbody⟩ := h.body_eq hn
  rw [hbody, ← href]
  rfl

theorem close_spec {query : NodeRef} {mutation : Option NodeRef} {extra : List NodeRef}
    {s : Schema} (hrefs : ∀ n : NodeRef, ∀ m ∈ referencesOf g.nodes n, g.Refers m)
    (hroots : ∀ n ∈ query :: (mutation.toList ++ extra), g.Refers n)
    (h : close g.nodes query mutation extra = .ok s) :
    s.query = query ∧ s.mutation = mutation ∧ s.extra = extra ∧
      Closes g (query :: (mutation.toList ++ extra)) s := by
  obtain ⟨typeMap, hwalk, h⟩ := ok_of_bind h
  cases h
  have hwalked := walk_spec hrefs hroots ⟨by simp, by simp, by simp [Keyed.keys]⟩
    (lt_walkBound _ _) hwalk
  refine ⟨rfl, rfl, rfl, rfl, hwalked.toNames, hwalked.stack, fun n hn => ?_, fun Q hroots hQ => ?_⟩
  · exact (hwalked.closed n hn).resolve_left (by simp [Keyed.values])
  · exact forall_of_walk hQ hroots (by simp [Keyed.values]) hwalk

end Schema

end HintSchema
