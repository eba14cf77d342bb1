import HintSchema.Proofs.Discovery
import HintSchema.Proofs.Likeness
import HintSchema.Proofs.Matching

/-!
# Steps over graphs that match

Graphs match when their nodes do, one by one: nodes of one name and kind over the same types, with
unions that are declared by hints that match (`Graph.Matches`).  One build step follows another when,
from graphs that match, it succeeds where the other one does and leaves graphs that match
(`Build.Follows`); over graphs that match the same schema is closed (`Schema.exists_close`).
-/

namespace HintSchema

/-! ## Graphs that match -/

/-- Fields that differ in how their values are found only. -/
structure FieldDef.Matches (f f' : FieldDef) : Prop where
  name : f.name = f'.name
  description : f.description = f'.description
  type : f.type = f'.type
  args : f.args = f'.args
  source : f.source = f'.source

/-- Bodies with fields that match, or over declared members that match. -/
inductive NodeBody.Matches : NodeBody → NodeBody → Prop
  | object {c : ClassRef} {fields fields' : Option (List (String × FieldDef))}
      {interfaces : Option (List NodeRef)} :
      Option.Rel (Keyed.Alike FieldDef.Matches) fields fields' →
      Matches (.object c fields interfaces) (.object c fields' interfaces)
  | interface {c : ClassRef} {fields fields' : Option (List (String × FieldDef))} :
      Option.Rel (Keyed.Alike FieldDef.Matches) fields fields' →
      Matches (.interface c fields) (.interface c fields')
  | input {c : ClassRef} {fields : Option (List (String × TypeRef))} :
      Matches (.input c fields) (.input c fields)
  | enum {c : ClassRef} {values : List (String × Value)} : Matches (.enum c values) (.enum c values)
  | scalar {hooks : ScalarHooks} : Matches (.scalar hooks) (.scalar hooks)
  | union {declared declared' : List ResolvedHint} {members : Option (List NodeRef)} :
      List.Forall₂ ResolvedHint.Matches declared declared' →
      Matches (.union declared members) (.union declared' members)

/-- Nodes of one name with bodies that match. -/
structure Node.Matches (n n' : Node) : Prop where
  name : n.name = n'.name
  body : n.body.Matches n'.body

/-- Graphs with nodes that match in the same places, and which remember the same. -/
structure Graph.Matches (g g' : Graph) : Prop where
  nodes : List.Forall₂ Node.Matches g.nodes.toList g'.nodes.toList
  memo : g.memo = g'.memo
  scalarNodes : g.scalarNodes = g'.scalarNodes
  crawled : g.crawled = g'.crawled

theorem FieldDef.Matches.shown_eq {f f' : FieldDef} (h : f.Matches f') : f.shown = f'.shown := by
  unfold FieldDef.shown
  rw [h.name, h.type, h.args, h.source]

namespace NodeBody.Matches

variable {b b' : NodeBody}

theorem kind_eq (h : b.Matches b') : b.kind = b'.kind := by cases h <;> rfl

theorem isRealized_eq (h : b.Matches b') : b.isRealized = b'.isRealized := by
  cases h with
  | object hf | interface hf => cases hf <;> rfl
  | input | enum | scalar | union => rfl

theorem fields (h : b.Matches b') : Keyed.Alike FieldDef.Matches b.fields b'.fields := by
  cases h with
  | object hf | interface hf =>
    cases hf with
    | some hf => exact hf
    | none => exact .nil
  | input | enum | scalar | union => exact .nil

theorem inputFields_eq (h : b.Matches b') : b.inputFields = b'.inputFields := by cases h <;> rfl

theorem interfaces_eq (h : b.Matches b') : b.interfaces = b'.interfaces := by cases h <;> rfl

theorem members_eq (h : b.Matches b') : b.members = b'.members := by cases h <;> rfl

theorem references_eq (h : b.Matches b') : b.references = b'.references := by
  have hfields : fieldReferences b.fields = fieldReferences b'.fields := by
    have hmap := h.fields.map_eq (fun _ f => f.type.node :: f.args.map fun p => p.2.type.node)
      (fun _ f => f.type.node :: f.args.map fun p => p.2.type.node)
      fun hf => by rw [hf.type, hf.args]
    exact congrArg List.flatten hmap
  rw [references, references, hfields, h.inputFields_eq, h.interfaces_eq, h.members_eq]

end NodeBody.Matches

theorem NodeBody.Matches.refl (b : NodeBody) : b.Matches b := by
  have hfields : ∀ fields : Option (List (String × FieldDef)),
      Option.Rel (Keyed.Alike FieldDef.Matches) fields fields := by
    rintro (_ | fields)
    · exact .none
    · exact .some (List.forall₂_same.2 fun _ _ => ⟨rfl, rfl, rfl, rfl, rfl, rfl⟩)
  cases b with
  | object c fields => exact .object (hfields fields)
  | interface c fields => exact .interface (hfields fields)
  | input => exact .input
  | enum => exact .enum
  | scalar => exact .scalar
  | union declared => exact .union (List.forall₂_same.2 fun ann _ => .refl ann)

namespace Node.Matches

variable {n n' : Node}

theorem refl (n : Node) : n.Matches n := ⟨rfl, .refl n.body⟩

theorem refAt_eq (h : n.Matches n') (id : Nat) : n.refAt id = n'.refAt id := by
  rw [refAt, refAt, kind, kind, h.body.kind_eq, h.name]

end Node.Matches

theorem rel_getElem? {α β : Type} {R : α → β → Prop} {as : List α} {bs : List β}
    (h : List.Forall₂ R as bs) (i : Nat) : Option.Rel R as[i]? bs[i]? := by
  induction h generalizing i with
  | nil => exact .none
  | cons hR _ ih =>
    cases i with
    | zero => exact .some hR
    | succ i => simpa using ih i

theorem forall₂_modify {α β : Type} {R : α → β → Prop} {as : List α} {bs : List β} {f : α → α}
    {f' : β → β} (h : List.Forall₂ R as bs) (i : Nat) (hf : ∀ {a b}, R a b → R (f a) (f' b)) :
    List.Forall₂ R (as.modify i f) (bs.modify i f') := by
  induction h generalizing i with
  | nil => simp
  | cons hR hrest ih =>
    cases i with
    | zero => exact .cons (hf hR) hrest
    | succ i => exact .cons hR (ih i)

namespace Graph.Matches

variable {g g' : Graph}

theorem empty : Graph.Matches {} {} := ⟨.nil, rfl, rfl, rfl⟩

section

variable (h : g.Matches g')
include h

theorem size_eq : g.nodes.size = g'.nodes.size := by
  rw [← Array.length_toList, ← Array.length_toList, h.nodes.length_eq]

theorem rel_node (i : Nat) : Option.Rel Node.Matches g.nodes[i]? g'.nodes[i]? := by
  rw [← Array.getElem?_toList, ← Array.getElem?_toList]
  exact rel_getElem? h.nodes i

theorem cached_eq {ann ann' : ResolvedHint} (hkey : ann.key = ann'.key) :
    g.cached ann = g'.cached ann' := by
  rw [cached, cached, hkey, h.memo]

theorem scalarNode?_eq (c : ClassRef) : g.scalarNode? c = g'.scalarNode? c := by
  rw [scalarNode?, scalarNode?, h.scalarNodes]

theorem pending_eq : g.pending = g'.pending := by
  unfold pending
  rw [h.size_eq]
  refine List.filter_congr fun id _ => ?_
  have hnode := h.rel_node id
  generalize g.nodes[id]? = o at hnode ⊢
  generalize g'.nodes[id]? = o' at hnode ⊢
  cases hnode with
  | none => rfl
  | some hn => exact congrArg not hn.body.isRealized_eq

theorem filterMap_eq {α : Type} {f : Node → Option α}
    (hf : ∀ {n n'}, Node.Matches n n' → f n = f n') :
    g.nodes.toList.filterMap f = g'.nodes.toList.filterMap f := by
  have hnodes := h.nodes
  generalize g.nodes.toList = nodes at hnodes ⊢
  generalize g'.nodes.toList = nodes' at hnodes ⊢
  induction hnodes with
  | nil => rfl
  | cons hn _ ih => rw [List.filterMap_cons, List.filterMap_cons, ih, hf hn]

theorem referencesOf_eq (n : NodeRef) :
    Schema.referencesOf g.nodes n = Schema.referencesOf g'.nodes n := by
  unfold Schema.referencesOf
  have hnode := h.rel_node n.id
  generalize g.nodes[n.id]? = o at hnode ⊢
  generalize g'.nodes[n.id]? = o' at hnode ⊢
  cases hnode with
  | none => rfl
  | some hn => exact hn.body.references_eq

theorem push {n n' : Node} (hn : n.Matches n') :
    Graph.Matches { g with nodes := g.nodes.push n } { g' with nodes := g'.nodes.push n' } where
  nodes := by
    rw [Array.toList_push, Array.toList_push]
    exact List.rel_append h.nodes (.cons hn .nil)
  memo := h.memo
  scalarNodes := h.scalarNodes
  crawled := h.crawled

theorem setBody {b b' : NodeBody} (id : Nat) (hb : b.Matches b') :
    Graph.Matches { g with nodes := g.nodes.modify id fun n => { n with body := b } }
      { g' with nodes := g'.nodes.modify id fun n => { n with body := b' } } where
  nodes := by
    rw [Array.toList_modify, Array.toList_modify]
    exact forall₂_modify h.nodes id fun hn => ⟨hn.name, hb⟩
  memo := h.memo
  scalarNodes := h.scalarNodes
  crawled := h.crawled

theorem withMemo (key : TypeKey) (t : TypeRef) :
    Graph.Matches { g with memo := (key, t) :: g.memo } { g' with memo := (key, t) :: g'.memo } :=
  ⟨h.nodes, by rw [h.memo], h.scalarNodes, h.crawled⟩

end

end Graph.Matches

/-! ## Schemas over graphs that match -/

namespace Schema

variable {g g' : Graph}

theorem walk_eq {nodes nodes' : Array Node} (h : ∀ n, referencesOf nodes n = referencesOf nodes' n)
    (fuel : Nat) (stack : List NodeRef) (typeMap : List (String × NodeRef)) :
    walk nodes fuel stack typeMap = walk nodes' fuel stack typeMap := by
  induction fuel generalizing stack typeMap with
  | zero => rfl
  | succ fuel ih =>
    cases stack with
    | nil => rfl
    | cons n stack => rw [walk, walk, h, ih, ih]

theorem walkBound_eq (h : g.Matches g') (roots : List NodeRef) :
    walkBound g.nodes roots = walkBound g'.nodes roots := by
  have hreferences : ∀ {nodes nodes' : List Node}, List.Forall₂ Node.Matches nodes nodes' →
      (nodes.flatMap fun n => n.body.references) = nodes'.flatMap fun n => n.body.references := by
    intro nodes nodes' hnodes
    induction hnodes with
    | nil => rfl
    | cons hn _ ih => rw [List.flatMap_cons, List.flatMap_cons, ih, hn.body.references_eq]
  rw [walkBound, walkBound, hreferences h.nodes]

theorem shownType_eq {s s' : Schema} (hs : s.nodes = g.nodes) (hs' : s'.nodes = g'.nodes)
    (h : g.Matches g') (n : NodeRef) : s.shownType n = s'.shownType n := by
  have hbody : (s.body n).Matches (s'.body n) := by
    rw [body, body, node?, node?, hs, hs']
    have hnode := h.rel_node n.id
    generalize g.nodes[n.id]? = o at hnode ⊢
    generalize g'.nodes[n.id]? = o' at hnode ⊢
    cases hnode with
    | none => exact .union .nil
    | some hn => exact hn.body
  have hfields := hbody.fields.map_eq (fun k f => (k, f.shown)) (fun k f => (k, f.shown))
    fun {k _ _} hf => congrArg (Prod.mk k) hf.shown_eq
  unfold shownType
  rw [hbody.inputFields_eq, hbody.interfaces_eq, hbody.members_eq, hfields]

/-- Over graphs that match, a schema is closed in the one as in the other, and shows the same types. -/
theorem exists_close (h : g.Matches g') {query : NodeRef} {mutation : Option NodeRef}
    {extra : List NodeRef} {s : Schema} (hclose : close g.nodes query mutation extra = .ok s) :
    ∃ s', close g'.nodes query mutation extra = .ok s' ∧ s.shownTypes = s'.shownTypes := by
  obtain ⟨typeMap, hwalk, hs⟩ := ok_of_bind hclose
  cases hs
  rw [walkBound_eq h, walk_eq h.referencesOf_eq] at hwalk
  refine ⟨⟨g'.nodes, query, mutation, extra, typeMap⟩, ?_, ?_⟩
  · unfold close
    dsimp only
    rw [hwalk]
    rfl
  · exact List.map_congr_left fun n _ => shownType_eq rfl rfl h n

end Schema

/-! ## Steps that follow -/

/-- From graphs that match, the second step succeeds where the first one does, and leaves graphs that
match; the results are in a relation. -/
def Build.Follows {α α' : Type} (V : α → α' → Prop) (m : Build α) (m' : Build α') : Prop :=
  ∀ g g', Graph.Matches g g' → ∀ a g₁, m.exec g = (.ok a, g₁) →
    ∃ a' g₁', m'.exec g' = (.ok a', g₁') ∧ Graph.Matches g₁ g₁' ∧ V a a'

namespace Build

variable {α α' β β' γ : Type} {V : α → α' → Prop} {W : β → β' → Prop} {m : Build α} {m' : Build α'}

theorem follows_pure {a : α} {a' : α'} (h : V a a') : Follows V (pure a) (pure a') := by
  intro g g' hg b g₁ hb
  cases hb
  exact ⟨a', g', rfl, hg, h⟩

theorem follows_throw (e : SchemaError) : Follows V (throw e) m' := by
  intro g g' hg a g₁ ha
  cases ha

theorem follows_get : Follows Graph.Matches (get : Build Graph) get := by
  intro g g' hg a g₁ ha
  cases ha
  exact ⟨g', g', rfl, hg, hg⟩

theorem follows_modify {change change' : Graph → Graph}
    (h : ∀ {g g'}, Graph.Matches g g' → (change g).Matches (change' g')) :
    Follows Eq (modify change : Build Unit) (modify change') := by
  intro g g' hg a g₁ ha
  cases ha
  exact ⟨(), change' g', rfl, h hg, rfl⟩

theorem follows_liftM {x : Except SchemaError α} {x' : Except SchemaError α'} (h : Yields V x x') :
    Follows V (liftM x : Build α) (liftM x' : Build α') := by
  intro g g' hg a g₁ ha
  obtain ⟨hx, rfl⟩ := ok_of_exec_liftM ha
  obtain ⟨a', hx', hV⟩ := h a hx
  exact ⟨a', g', by rw [exec_liftM, hx'], hg, hV⟩

theorem Follows.bind {f : α → Build β} {f' : α' → Build β'} (hm : Follows V m m')
    (hf : ∀ {a a'}, V a a' → Follows W (f a) (f' a')) : Follows W (m >>= f) (m' >>= f') := by
  intro g g' hg b g₂ hb
  obtain ⟨a, g₁, ha, hb⟩ := ok_of_exec_bind hb
  obtain ⟨a', g₁', ha', hg₁, hV⟩ := hm g g' hg a g₁ ha
  obtain ⟨b', g₂', hb', hg₂, hW⟩ := hf hV g₁ g₁' hg₁ b g₂ hb
  exact ⟨b', g₂', by rw [exec_bind_ok ha', hb'], hg₂, hW⟩

theorem follows_getDM {o : Option α} {o' : Option α'} (ho : Option.Rel V o o')
    (hm : Follows V m m') : Follows V (o.getDM m) (o'.getDM m') := by
  cases ho with
  | some h => exact follows_pure h
  | none => exact hm

theorem follows_mapM {f : α → Build β} {f' : α' → Build β'} {as : List α} {as' : List α'}
    (h : List.Forall₂ V as as') (hf : ∀ {a a'}, V a a' → Follows W (f a) (f' a')) :
    Follows (List.Forall₂ W) (as.mapM f) (as'.mapM f') := by
  induction h with
  | nil => exact follows_pure .nil
  | cons hV _ ih =>
    rw [List.mapM_cons, List.mapM_cons]
    exact (hf hV).bind fun hb => ih.bind fun hbs => follows_pure (.cons hb hbs)

theorem follows_filterMapM {f f' : γ → Build (Option β)} {cs : List γ}
    (hf : ∀ c, Follows Eq (f c) (f' c)) : Follows Eq (cs.filterMapM f) (cs.filterMapM f') := by
  induction cs with
  | nil => exact follows_pure rfl
  | cons c rest ih =>
    rw [List.filterMapM_cons, List.filterMapM_cons]
    refine (hf c).bind fun {o o'} ho => ?_
    subst ho
    cases o with
    | none => exact ih
    | some b => exact ih.bind fun hbs => follows_pure (by rw [hbs])

theorem follows_foldlM {f f' : β → γ → Build β} {cs : List γ}
    (hf : ∀ b c, Follows Eq (f b c) (f' b c)) (b : β) :
    Follows Eq (cs.foldlM f b) (cs.foldlM f' b) := by
  induction cs generalizing b with
  | nil => exact follows_pure rfl
  | cons c rest ih =>
    rw [List.foldlM_cons, List.foldlM_cons]
    refine (hf b c).bind fun {b₁ b₁'} hb => ?_
    subst hb
    exact ih b₁

theorem follows_forM {f f' : γ → Build Unit} {cs : List γ}
    (hf : ∀ c, Follows Eq (f c) (f' c)) : Follows Eq (cs.forM f) (cs.forM f') := by
  induction cs with
  | nil => exact follows_pure rfl
  | cons c rest ih =>
    change Follows Eq (f c >>= fun _ => rest.forM f) (f' c >>= fun _ => rest.forM f')
    exact (hf c).bind fun _ => ih

end Build

end HintSchema
