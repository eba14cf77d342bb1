import HintSchema.Proofs.Outcome
import HintSchema.Proofs.Resolution
import HintSchema.Schema.Realize

/-!
# How a graph grows

`Graph.Learn` lists all that translating resolved hints can do to a graph at once: make the node of
a hint, share the node of a scalar, and remember what a layer makes of a type, which has a name if
it is a union.  `Graph.Step` adds what else a build can do: mark a class as crawled, and fill in a
part of a node.  No step forgets or replaces anything that is remembered.
-/

namespace HintSchema

open Relation

variable {env : BuildEnv} {aliases : AliasTable} {P Q : ResolvedHint → Prop}
  {g g' : Graph} {ann inner : ResolvedHint} {wrap : TypeRef → TypeRef} {t : TypeRef}

namespace Graph

/-- The graph with a node more. -/
def grow (g : Graph) (node : Node) : Graph := { g with nodes := g.nodes.push node }

/-- The graph with what a resolved hint became. -/
def withMemo (g : Graph) (ann : ResolvedHint) (t : TypeRef) : Graph :=
  { g with memo := (ann.key, t) :: g.memo }

/-- The graph with the node of the scalar that is registered for a class. -/
def share (g : Graph) (c : ClassRef) (s : ScalarType) : Graph :=
  { g.grow s.node with scalarNodes := (c.id, s.node.refAt g.nodes.size) :: g.scalarNodes }

/-- The graph with another body in place of that of a node. -/
def withBody (g : Graph) (id : Nat) (body : NodeBody) : Graph :=
  { g with nodes := g.nodes.modify id fun n => { n with body } }

/-- The type that a node made next would be known by. -/
def nextType (g : Graph) (node : Node) : TypeRef := .nonNull (.named (node.refAt g.nodes.size))

theorem remembered_withMemo (g : Graph) (ann : ResolvedHint) (t : TypeRef) (k : TypeKey) :
    remembered k (g.withMemo ann t).memo = if ann.key = k then some t else remembered k g.memo :=
  rfl

theorem cached_withMemo_self : (g.withMemo ann t).cached ann = some t := by
  rw [cached, remembered_withMemo, if_pos rfl]

theorem scalarNode?_share (c : ClassRef) (s : ScalarType) :
    (g.share c s).scalarNode? c = some (s.node.refAt g.nodes.size) := by
  simp [share, scalarNode?]

end Graph

/-- The kind of the type of a class: of two or more capabilities the first in this order decides. -/
def Hierarchy.kind? (h : Hierarchy) (c : ClassRef) : Option NodeKind :=
  if h.isObject c then some .object
  else if h.isInterface c then some .interface
  else if h.isRecord c then some .input
  else if h.isEnum c then some .enum
  else none

theorem Hierarchy.isSome_kind? {h : Hierarchy} {c : ClassRef} (hc : h.isInterface c = true) :
    (h.kind? c).isSome = true := by
  rw [kind?, hc, if_pos rfl]
  split_ifs <;> rfl

namespace BuildEnv

/-- The node that is made for a resolved hint: that of a class with a capability, of a union with a
name, or of an alias of a class with a scalar. -/
def ownNode (env : BuildEnv) : ResolvedHint → Option Node
  | .cls _ c => env.classNode c
  | .union head members =>
    (unionName (.union head members)).toOption.map fun name => unionNode name members
  | .aliasOf head base => (env.aliasedScalar base).map (aliasNode (.aliasOf head base))
  | .list .. | .optional .. => none

/-- A union must be met under a name. -/
def Named : ResolvedHint → Prop
  | .union head members => ∃ name, unionName (.union head members) = .ok name
  | _ => True

theorem classNode_spec {c : ClassRef} {node : Node} (hn : env.classNode c = some node) :
    node.body.class? = some c ∧ node.name = c.name := by
  unfold classNode at hn
  dsimp only at hn
  split_ifs at hn <;> cases hn <;> exact ⟨rfl, rfl⟩

theorem map_kind_classNode (c : ClassRef) :
    (env.classNode c).map Node.kind = env.hierarchy.kind? c := by
  unfold classNode Hierarchy.kind?
  dsimp only
  split_ifs <;> rfl

theorem kind?_of_classNode {c : ClassRef} {node : Node} (hn : env.classNode c = some node) :
    env.hierarchy.kind? c = some node.kind := by
  rw [← map_kind_classNode, hn]
  rfl

theorem exists_of_kind? {c : ClassRef} {kind : NodeKind} (h : env.hierarchy.kind? c = some kind) :
    ∃ node, env.classNode c = some node ∧ node.kind = kind := by
  rw [← map_kind_classNode] at h
  exact Option.map_eq_some_iff.1 h

end BuildEnv

/-! ## Parts that are filled in -/

namespace Graph

/-- An argument whose type is what the hint of a parameter became. -/
def ShowsParam (g : Graph) (p : ResolvedParam) (a : String × ArgumentDef) : Prop :=
  ∃ t, g.cached p.hint = some t ∧ a = (p.name, { name := p.name, type := t, default := p.default })

/-- A field whose types are what the hints of its descriptor became. -/
def ShowsField (g : Graph) (f : FieldDescriptor) (e : String × FieldDef) : Prop :=
  ∃ t args, g.cached f.hint = some t ∧ List.Forall₂ g.ShowsParam f.args args ∧
    e = (f.name,
      { name := f.name, description := f.description, type := t, args := Keyed.ofList args,
        source := f.source, resolver := f.resolver })

/-- A member of a union, by the node that its hint became. -/
def ShowsMember (g : Graph) (ann : ResolvedHint) (n : NodeRef) : Prop :=
  ∃ t, g.cached ann = some t ∧ t.nullable = .named n ∧ n.kind = .object

end Graph

/-- The interface that a type is, non-null or not. -/
def TypeRef.interface? (t : TypeRef) : Option NodeRef :=
  match t.nullable with
  | .named n => if n.kind = .interface then some n else none
  | _ => none

namespace BuildEnv

/-- The ancestors of a class that are interfaces and no objects. -/
def interfaceAncestors (env : BuildEnv) (c : ClassRef) : List ClassRef :=
  (env.hierarchy.mro c).tail.filter fun a =>
    env.hierarchy.isInterface a && !env.hierarchy.isObject a

/-- The output fields of a class, as a graph knows their types. -/
def FieldsOf (env : BuildEnv) (g : Graph) (c : ClassRef) (fields : List (String × FieldDef)) :
    Prop :=
  ∃ descriptors entries, describeFields env.hierarchy env.ns c = .ok descriptors ∧
    List.Forall₂ g.ShowsField descriptors entries ∧ fields = Keyed.ofList entries

/-- The fields of an input type, as a graph knows their types. -/
def InputFieldsOf (env : BuildEnv) (g : Graph) (c : ClassRef) (fields : List (String × TypeRef)) :
    Prop :=
  ∃ hints, resolveHints env.hierarchy env.ns c = .ok hints ∧
    List.Forall₂ (fun name e => ∃ ann t, Keyed.get? hints name = some ann ∧
      g.cached ann = some t ∧ e = (name, t)) (env.hierarchy.fields c) fields

/-- The interfaces of an object type, as a graph knows them. -/
def InterfacesOf (env : BuildEnv) (g : Graph) (c : ClassRef) (interfaces : List NodeRef) : Prop :=
  ∃ types, List.Forall₂ (fun a t => g.cached (.ofClass a none) = some t)
    (env.interfaceAncestors c) types ∧ interfaces = types.filterMap TypeRef.interface?

/-- The second body is the first with a part filled in. -/
inductive Fills (env : BuildEnv) (g : Graph) : NodeBody → NodeBody → Prop
  | objectFields {c fields interfaces} : env.FieldsOf g c fields →
      Fills env g (.object c none interfaces) (.object c (some fields) interfaces)
  | interfaces {c fields interfaces} : env.InterfacesOf g c interfaces →
      Fills env g (.object c fields none) (.object c fields (some interfaces))
  | interfaceFields {c fields} : env.FieldsOf g c fields →
      Fills env g (.interface c none) (.interface c (some fields))
  | inputFields {c fields} : env.InputFieldsOf g c fields →
      Fills env g (.input c none) (.input c (some fields))
  | members {declared members} : List.Forall₂ g.ShowsMember declared members →
      Fills env g (.union declared none) (.union declared (some members))

end BuildEnv

/-! ## Steps -/

namespace Graph

/-- What a translation can do to a graph, for resolved hints with a property. -/
inductive Learn (env : BuildEnv) (P : ResolvedHint → Prop) : Graph → Graph → Prop
  | make (g : Graph) {ann : ResolvedHint} {node : Node} :
      P ann → g.cached ann = none → env.ownNode ann = some node →
      Learn env P g ((g.grow node).withMemo ann (g.nextType node))
  | share (g : Graph) {c : ClassRef} {s : ScalarType} :
      env.classNode c = none → env.scalars.lookup c = some s → g.scalarNode? c = none →
      Learn env P g (g.share c s)
  | scalar (g : Graph) {head : ResolvedHead} {c : ClassRef} {n : NodeRef} :
      P (.cls head c) → g.cached (.cls head c) = none → env.classNode c = none →
      g.scalarNode? c = some n → Learn env P g (g.withMemo (.cls head c) (.nonNull (.named n)))
  | layer (g : Graph) {ann inner : ResolvedHint} {wrap : TypeRef → TypeRef} {t : TypeRef} :
      P ann → g.cached ann = none → env.layer? ann = some (inner, wrap) →
      g.cached inner = some t → BuildEnv.Named inner → Learn env P g (g.withMemo ann (wrap t))

/-- What a build can do to a graph. -/
inductive Step (env : BuildEnv) (P : ResolvedHint → Prop) : Graph → Graph → Prop
  | learn {g g' : Graph} : Learn env P g g' → Step env P g g'
  | crawl (g : Graph) (id : Nat) : Step env P g { g with crawled := id :: g.crawled }
  | fill (g : Graph) {id : Nat} {node : Node} {body : NodeBody} :
      g.nodes[id]? = some node → env.Fills g node.body body → Step env P g (g.withBody id body)

/-- Translations can make one graph of another. -/
abbrev Learns (env : BuildEnv) (P : ResolvedHint → Prop) : Graph → Graph → Prop :=
  ReflTransGen (Learn env P)

/-- A build can make one graph of another. -/
abbrev Grows (env : BuildEnv) (P : ResolvedHint → Prop) : Graph → Graph → Prop :=
  ReflTransGen (Step env P)

theorem Learn.mono (h : Learn env P g g') (hPQ : ∀ ann, P ann → Q ann) : Learn env Q g g' := by
  cases h with
  | make hP hmiss hnode => exact .make g (hPQ _ hP) hmiss hnode
  | share hnode hs hnew => exact .share g hnode hs hnew
  | scalar hP hmiss hnode hn => exact .scalar g (hPQ _ hP) hmiss hnode hn
  | layer hP hmiss hl ht hnamed => exact .layer g (hPQ _ hP) hmiss hl ht hnamed

theorem Step.mono (h : Step env P g g') (hPQ : ∀ ann, P ann → Q ann) : Step env Q g g' := by
  cases h with
  | learn h => exact .learn (h.mono hPQ)
  | crawl id => exact .crawl g id
  | fill hn hfills => exact .fill g hn hfills

theorem Grows.mono (h : Grows env P g g') (hPQ : ∀ ann, P ann → Q ann) : Grows env Q g g' :=
  ReflTransGen.mono (fun _ _ hs => hs.mono hPQ) _ _ h

theorem Learns.mono (h : Learns env P g g') (hPQ : ∀ ann, P ann → Q ann) : Learns env Q g g' :=
  ReflTransGen.mono (fun _ _ hs => hs.mono hPQ) _ _ h

theorem Learns.grows (h : Learns env P g g') : Grows env P g g' :=
  ReflTransGen.mono (fun _ _ => .learn) _ _ h

theorem cached_congr {ann' : ResolvedHint} (h : ann.key = ann'.key) :
    g.cached ann = g.cached ann' := by
  rw [cached, cached, h]

/-- What is remembered never changes. -/
theorem Step.remembered (h : Step env P g g') {k : TypeKey} (ht : remembered k g.memo = some t) :
    Graph.remembered k g'.memo = some t := by
  -- only what is not remembered yet is added
  have hnew : ∀ {g₀ : Graph} {a t'}, Graph.remembered k g₀.memo = some t → g₀.cached a = none →
      Graph.remembered k (g₀.withMemo a t').memo = some t := by
    intro g₀ a t' ht hmiss
    rw [remembered_withMemo, if_neg]
    · exact ht
    · rintro rfl
      cases hmiss.symm.trans ht
  cases h with
  | learn h =>
    cases h with
    | make _ hmiss | scalar _ hmiss | layer _ hmiss => exact hnew ht hmiss
    | share => exact ht
  | crawl | fill => exact ht

theorem Grows.remembered (h : Grows env P g g') {k : TypeKey}
    (ht : remembered k g.memo = some t) : Graph.remembered k g'.memo = some t := by
  induction h with
  | refl => exact ht
  | tail _ hs ih => exact hs.remembered ih

theorem Step.cached (h : Step env P g g') (ht : g.cached ann = some t) :
    g'.cached ann = some t :=
  h.remembered ht

theorem Grows.cached (h : Grows env P g g') (ht : g.cached ann = some t) :
    g'.cached ann = some t :=
  h.remembered ht

theorem Learns.cached (h : Learns env P g g') (ht : g.cached ann = some t) :
    g'.cached ann = some t :=
  h.grows.cached ht

/-- A translation says nothing of types that are not among its own. -/
theorem Learn.cached_of_ne (h : Learn env P g g') (hne : ∀ a, P a → a.key ≠ ann.key) :
    g'.cached ann = g.cached ann := by
  cases h with
  | make hP | scalar hP | layer hP => exact if_neg (hne _ hP)
  | share => rfl

theorem Learns.cached_of_ne (h : Learns env P g g') (hne : ∀ a, P a → a.key ≠ ann.key) :
    g'.cached ann = g.cached ann := by
  induction h with
  | refl => rfl
  | tail _ hs ih => rw [hs.cached_of_ne hne, ih]

theorem getElem?_grow (g : Graph) (node : Node) (i : Nat) :
    (g.grow node).nodes[i]? = if i = g.nodes.size then some node else g.nodes[i]? := by
  rw [grow, Array.getElem?_push]

theorem getElem?_grow_of_some {node node' : Node} {i : Nat} (hn : g.nodes[i]? = some node') :
    (g.grow node).nodes[i]? = some node' := by
  have hlt : i < g.nodes.size := (Array.getElem?_eq_some_iff.1 hn).1
  rw [getElem?_grow, if_neg (Nat.ne_of_lt hlt), hn]

/-- Translations leave the nodes that are there as they are. -/
theorem Learn.getElem? (h : Learn env P g g') {i : Nat} {node : Node}
    (hn : g.nodes[i]? = some node) : g'.nodes[i]? = some node := by
  cases h with
  | make | share => exact getElem?_grow_of_some hn
  | scalar | layer => exact hn

theorem Learns.getElem? (h : Learns env P g g') {i : Nat} {node : Node}
    (hn : g.nodes[i]? = some node) : g'.nodes[i]? = some node := by
  induction h with
  | refl => exact hn
  | tail _ hs ih => exact hs.getElem? ih

theorem Learns.crawled (h : Learns env P g g') : g'.crawled = g.crawled := by
  induction h with
  | refl => rfl
  | tail _ hs ih => cases hs <;> exact ih

end Graph

end HintSchema
