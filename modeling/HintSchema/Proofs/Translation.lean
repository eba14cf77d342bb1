import HintSchema.Proofs.Growth

/-!
# What translation does to a graph

A set of resolved hints is layered when it holds with a hint what a layer is over
(`BuildEnv.Layered`), closed when it also holds what the parts of a node of the hint are translated
from (`BuildEnv.Closed`), and a domain of an environment when it holds all that such a node brings in
(`BuildEnv.Domain`).  Translating a hint of a layered set only takes steps for hints of the
set that are nested no deeper; afterwards the hint is remembered with its outcome, or, after a
failure, all is as it was before (`translate_spec`).
-/

namespace HintSchema

open Relation

variable {env : BuildEnv} {aliases : AliasTable} {P : ResolvedHint → Prop}
  {g g' : Graph} {ann inner : ResolvedHint} {wrap : TypeRef → TypeRef} {t : TypeRef} {node : Node}

/-- How deep the type of a resolved hint is nested. -/
def ResolvedHint.rank (ann : ResolvedHint) : Nat := ann.head.resolved.rank

namespace TypeRef

theorem node_nullable (t : TypeRef) : t.nullable.node = t.node := by cases t <;> rfl

theorem node_of_nullable {n : NodeRef} (h : t.nullable = .named n) : t.node = n := by
  rw [← t.node_nullable, h]
  rfl

end TypeRef

namespace BuildEnv

/-- A resolved hint of a type over declarations. -/
def Typed (env : BuildEnv) (aliases : AliasTable) (ann : ResolvedHint) : Prop :=
  ∃ e, e.Over env.hierarchy aliases ∧ ResolvedHint.Of e ann

/-- The hints of the output fields of a class, each followed by those of its arguments. -/
def fieldHints (env : BuildEnv) (c : ClassRef) : List ResolvedHint :=
  match describeFields env.hierarchy env.ns c with
  | .ok fields => fields.flatMap fun f => f.hint :: f.args.map (·.hint)
  | .error _ => []

/-- The hints of the record fields of a class. -/
def inputHints (env : BuildEnv) (c : ClassRef) : List ResolvedHint :=
  match resolveHints env.hierarchy env.ns c with
  | .ok hints => (env.hierarchy.fields c).filterMap (Keyed.get? hints)
  | .error _ => []

/-- The hints that a node brings in, given those of the output fields of classes. -/
def hintsWith (env : BuildEnv) (fields : ClassRef → List ResolvedHint) :
    NodeBody → List ResolvedHint
  | .object c _ _ => fields c ++ (env.interfaceAncestors c).map fun a => .ofClass a none
  | .interface c _ => fields c
  | .input c _ => env.inputHints c
  | .union declared _ => declared
  | .enum .. | .scalar _ => []

/-- What the parts of a node are translated from. -/
def partHints (env : BuildEnv) : NodeBody → List ResolvedHint := env.hintsWith env.fieldHints

/-- The classes that are included because of a node: the subclasses of an interface. -/
def crawlHints (env : BuildEnv) : NodeBody → List ResolvedHint
  | .object c _ _ | .interface c _ =>
    if env.hierarchy.isInterface c then
      (env.hierarchy.subclasses c).map fun d => .ofClass d none
    else []
  | .input .. | .enum .. | .scalar _ | .union .. => []

/-- Resolved hints over declarations, with what their layers are over. -/
structure Layered (env : BuildEnv) (aliases : AliasTable) (P : ResolvedHint → Prop) : Prop where
  typed : ∀ {ann}, P ann → env.Typed aliases ann
  layer : ∀ {ann inner wrap}, P ann → env.layer? ann = some (inner, wrap) → P inner

/-- Resolved hints over declarations, with what the parts of their nodes are translated from. -/
structure Closed (env : BuildEnv) (aliases : AliasTable) (P : ResolvedHint → Prop) : Prop
    extends Layered env aliases P where
  parts : ∀ {ann node}, P ann → env.ownNode ann = some node → ∀ a ∈ env.partHints node.body, P a

/-- Resolved hints over declarations, with all that they bring in. -/
structure Domain (env : BuildEnv) (aliases : AliasTable) (P : ResolvedHint → Prop) : Prop
    extends Closed env aliases P where
  crawl : ∀ {ann node}, P ann → env.ownNode ann = some node → ∀ a ∈ env.crawlHints node.body, P a

/-! ## Keys and ranks -/

theorem Typed.rank_eq_of_key {ann' : ResolvedHint} (h : env.Typed aliases ann)
    (h' : env.Typed aliases ann') (hk : ann.key = ann'.key) : ann.rank = ann'.rank := by
  obtain ⟨e, ho, hof⟩ := h
  obtain ⟨e', ho', hof'⟩ := h'
  exact TypeExpr.rank_eq_of_key (hof.over_resolved ho).1 (hof'.over_resolved ho').1 hk

theorem WellFormed.typed_of_layer (hw : env.WellFormed aliases) (h : env.Typed aliases ann)
    (hl : env.layer? ann = some (inner, wrap)) :
    env.Typed aliases inner ∧ inner.rank < ann.rank := by
  obtain ⟨e, ho, hof⟩ := h
  obtain ⟨e', hof', ho', hlt⟩ := hw.of_layer hof ho hl
  exact ⟨⟨e', ho', hof'⟩, lt_of_le_of_lt (hof'.over_resolved ho').2 hlt⟩

theorem layer_node (hl : env.layer? ann = some (inner, wrap)) (t : TypeRef) :
    (wrap t).node = t.node := by
  obtain ⟨_, -, rfl⟩ | ⟨_, -, rfl⟩ | ⟨_, -, -, rfl⟩ := layer?_cases hl
  · rfl
  · exact t.node_nullable
  · exact t.node_nullable

/-! ## Executions -/

theorem exec_memoized_hit {make : Build TypeRef} (ht : g.cached ann = some t) :
    ((memoized ann make).exec g).2 = g ∧
      (∀ t', ((memoized ann make).exec g).1 = .ok t' → t' = t ∧ Named ann) ∧
      (Named ann → (memoized ann make).exec g = (.ok t, g)) := by
  rw [memoized, Build.exec_get_bind, ht]
  cases ann with
  | cls | list | optional | aliasOf =>
    exact ⟨rfl, fun t' h => ⟨(Except.ok.inj h).symm, trivial⟩, fun _ => rfl⟩
  | union head members =>
    dsimp only
    cases hn : unionName (.union head members) with
    | error e =>
      refine ⟨rfl, fun t' h => ?_, ?_⟩
      · cases h
      · rintro ⟨name, hname⟩
        rw [hn] at hname
        cases hname
    | ok name => exact ⟨rfl, fun t' h => ⟨(Except.ok.inj h).symm, name, hn⟩, fun _ => rfl⟩

theorem exec_memoized_ok {make : Build TypeRef} (hmiss : g.cached ann = none)
    (hm : make.exec g = (.ok t, g')) :
    (memoized ann make).exec g = (.ok t, g'.withMemo ann t) := by
  rw [memoized, Build.exec_get_bind, hmiss, Build.exec_bind_ok hm]
  rfl

theorem exec_memoized_error {make : Build TypeRef} {e : SchemaError} (hmiss : g.cached ann = none)
    (hm : make.exec g = (.error e, g')) : (memoized ann make).exec g = (.error e, g') := by
  rw [memoized, Build.exec_get_bind, hmiss, Build.exec_bind_error hm]

theorem translate_cls (head : ResolvedHead) (c : ClassRef) :
    env.translate (.cls head c) =
      memoized (.cls head c) (do return .nonNull (← env.mapClass (.cls head c) c)) := rfl

theorem translate_list (head : ResolvedHead) (element : ResolvedHint) :
    env.translate (.list head element) =
      memoized (.list head element)
        (do return .nonNull (.list (← env.translate element))) := rfl

theorem translate_optional (head : ResolvedHead) (inner : ResolvedHint) :
    env.translate (.optional head inner) =
      memoized (.optional head inner) (do return (← env.translate inner).nullable) := rfl

theorem translate_union (head : ResolvedHead) (members : List ResolvedHint) :
    env.translate (.union head members) =
      memoized (.union head members)
        (do return .nonNull (← mapUnion (.union head members) members)) := rfl

theorem translate_aliasOf (head : ResolvedHead) (base : ResolvedHint) :
    env.translate (.aliasOf head base) = memoized (.aliasOf head base) (
      match env.aliasedScalar base with
      | some s => do return .nonNull (.named (← Graph.add (aliasNode (.aliasOf head base) s)))
      | none => do return .nonNull (← env.translate base).nullable) := rfl

theorem translate_hit (ht : g.cached ann = some t) :
    ((env.translate ann).exec g).2 = g ∧
      (∀ t', ((env.translate ann).exec g).1 = .ok t' → t' = t ∧ Named ann) ∧
      (Named ann → (env.translate ann).exec g = (.ok t, g)) := by
  cases ann <;> exact exec_memoized_hit ht

theorem translate_layer (hl : env.layer? ann = some (inner, wrap)) :
    env.translate ann = memoized ann (env.translate inner >>= fun t => pure (wrap t)) := by
  obtain ⟨_, rfl, rfl⟩ | ⟨_, rfl, rfl⟩ | ⟨_, rfl, hs, rfl⟩ := layer?_cases hl
  · rw [translate_list]
  · rw [translate_optional]
  · rw [translate_aliasOf, hs]

theorem exec_translate_own (hmiss : g.cached ann = none) (hn : env.ownNode ann = some node) :
    (env.translate ann).exec g =
      (.ok (g.nextType node), (g.grow node).withMemo ann (g.nextType node)) := by
  cases ann with
  | cls head c =>
    rw [translate_cls]
    apply exec_memoized_ok hmiss
    rw [ownNode] at hn
    rw [mapClass, hn]
    rfl
  | union head members =>
    rw [translate_union]
    apply exec_memoized_ok hmiss
    rw [ownNode] at hn
    cases hname : unionName (.union head members) with
    | error e =>
      rw [hname] at hn
      cases hn
    | ok name =>
      rw [hname] at hn
      cases hn
      rw [mapUnion, hname]
      rfl
  | aliasOf head base =>
    rw [translate_aliasOf]
    apply exec_memoized_ok hmiss
    rw [ownNode] at hn
    cases hs : env.aliasedScalar base with
    | none =>
      rw [hs] at hn
      cases hn
    | some s =>
      rw [hs] at hn
      cases hn
      rfl
  | list | optional => cases hn

theorem exec_mapScalar_shared {c : ClassRef} {s : ScalarType} {n : NodeRef}
    (hn : g.scalarNode? c = some n) : (mapScalar c s).exec g = (.ok (.named n), g) := by
  rw [mapScalar, Build.exec_get_bind, hn]
  rfl

theorem exec_mapScalar_share {c : ClassRef} {s : ScalarType} (hn : g.scalarNode? c = none) :
    (mapScalar c s).exec g = (.ok (.named (s.node.refAt g.nodes.size)), g.share c s) := by
  rw [mapScalar, Build.exec_get_bind, hn]
  rfl

theorem exec_translate_shared {head : ResolvedHead} {c : ClassRef} {s : ScalarType} {n : NodeRef}
    (hmiss : g.cached (.cls head c) = none) (hc : env.classNode c = none)
    (hs : env.scalars.lookup c = some s) (hn : g.scalarNode? c = some n) :
    (env.translate (.cls head c)).exec g =
      (.ok (.nonNull (.named n)), g.withMemo (.cls head c) (.nonNull (.named n))) := by
  rw [translate_cls]
  apply exec_memoized_ok hmiss
  rw [mapClass, hc, hs]
  show Build.exec (mapScalar c s >>= _) g = _
  rw [Build.exec_bind_ok (exec_mapScalar_shared hn)]
  rfl

theorem exec_translate_share {head : ResolvedHead} {c : ClassRef} {s : ScalarType}
    (hmiss : g.cached (.cls head c) = none) (hc : env.classNode c = none)
    (hs : env.scalars.lookup c = some s) (hn : g.scalarNode? c = none) :
    (env.translate (.cls head c)).exec g =
      (.ok (g.nextType s.node), (g.share c s).withMemo (.cls head c) (g.nextType s.node)) := by
  rw [translate_cls]
  apply exec_memoized_ok hmiss
  rw [mapClass, hc, hs]
  show Build.exec (mapScalar c s >>= _) g = _
  rw [Build.exec_bind_ok (exec_mapScalar_share hn)]
  rfl

/-! ## The outcome of a translation -/

/-- What translating a resolved hint does to a graph: it takes steps for hints nested no deeper.
With success the type is remembered, and no node is made but its own; with failure nothing is
changed. -/
structure Translates (env : BuildEnv) (P : ResolvedHint → Prop) (ann : ResolvedHint) (g : Graph)
    (r : Except SchemaError TypeRef × Graph) : Prop where
  learns : Graph.Learns env (fun a => P a ∧ a.rank ≤ ann.rank) g r.2
  remembered : ∀ t, r.1 = .ok t → r.2.cached ann = some t ∧ Named ann
  failed : ∀ e, r.1 = .error e → r.2 = g
  made : ∀ t, r.1 = .ok t → ∀ i, g.nodes.size ≤ i → i < r.2.nodes.size → i = t.node.id

theorem translates_of_hit (ht : g.cached ann = some t) :
    env.Translates P ann g ((env.translate ann).exec g) := by
  obtain ⟨hg, hok, -⟩ : _ ∧ _ ∧ (Named ann → (env.translate ann).exec g = (.ok t, g)) :=
    translate_hit ht
  refine ⟨?_, fun t' h => ?_, fun _ _ => hg, fun t' _ i hi hlt => ?_⟩
  · rw [hg]
  · obtain ⟨rfl, hnamed⟩ := hok t' h
    rw [hg]
    exact ⟨ht, hnamed⟩
  · rw [hg] at hlt
    omega

theorem translates_of_throw {e : SchemaError} : env.Translates P ann g (.error e, g) where
  learns := .refl
  remembered _ h := by cases h
  failed _ _ := rfl
  made _ h := by cases h

theorem translates_of_own (hP : P ann) (hmiss : g.cached ann = none)
    (hn : env.ownNode ann = some node) (hnamed : Named ann) :
    env.Translates P ann g
      (.ok (g.nextType node), (g.grow node).withMemo ann (g.nextType node)) where
  learns := .single (.make g ⟨hP, le_rfl⟩ hmiss hn)
  remembered t h := by
    cases h
    exact ⟨Graph.cached_withMemo_self, hnamed⟩
  failed _ h := by cases h
  made t h i hi hlt := by
    cases h
    simp only [Graph.withMemo, Graph.grow, Array.size_push] at hlt
    show i = g.nodes.size
    omega

theorem translates_of_shared {head : ResolvedHead} {c : ClassRef} {n : NodeRef}
    (hP : P (.cls head c)) (hmiss : g.cached (.cls head c) = none) (hc : env.classNode c = none)
    (hn : g.scalarNode? c = some n) :
    env.Translates P (.cls head c) g
      (.ok (.nonNull (.named n)), g.withMemo (.cls head c) (.nonNull (.named n))) where
  learns := .single (.scalar g ⟨hP, le_rfl⟩ hmiss hc hn)
  remembered t h := by
    cases h
    exact ⟨Graph.cached_withMemo_self, trivial⟩
  failed _ h := by cases h
  made t h i hi hlt := by
    simp only [Graph.withMemo] at hlt
    omega

theorem translates_of_share {head : ResolvedHead} {c : ClassRef} {s : ScalarType}
    (hP : P (.cls head c)) (hmiss : g.cached (.cls head c) = none) (hc : env.classNode c = none)
    (hs : env.scalars.lookup c = some s) (hn : g.scalarNode? c = none) :
    env.Translates P (.cls head c) g
      (.ok (g.nextType s.node), (g.share c s).withMemo (.cls head c) (g.nextType s.node)) where
  learns := by
    have hnew := Graph.scalarNode?_share (g := g) c s
    exact (ReflTransGen.single (.share g hc hs hn)).tail
      (.scalar (g.share c s) ⟨hP, le_rfl⟩ hmiss hc hnew)
  remembered t h := by
    cases h
    exact ⟨Graph.cached_withMemo_self, trivial⟩
  failed _ h := by cases h
  made t h i hi hlt := by
    cases h
    simp only [Graph.withMemo, Graph.share, Graph.grow, Array.size_push] at hlt
    show i = g.nodes.size
    omega

theorem Layered.translates_of_layer (hd : env.Layered aliases P) (hw : env.WellFormed aliases)
    (hP : P ann) (hmiss : g.cached ann = none) (hl : env.layer? ann = some (inner, wrap))
    (ih : env.Translates P inner g ((env.translate inner).exec g)) :
    env.Translates P ann g ((env.translate ann).exec g) := by
  obtain ⟨hinner, hrank⟩ := hw.typed_of_layer (hd.typed hP) hl
  have hlearns : ∀ {g'}, Graph.Learns env (fun a => P a ∧ a.rank ≤ inner.rank) g g' →
      Graph.Learns env (fun a => P a ∧ a.rank ≤ ann.rank) g g' :=
    fun h => h.mono fun a ha => ⟨ha.1, ha.2.trans hrank.le⟩
  -- what is under the layer has another rank, so it has another key
  have hkeep : ∀ {g'}, Graph.Learns env (fun a => P a ∧ a.rank ≤ inner.rank) g g' →
      g'.cached ann = none := by
    intro g' h
    rw [h.cached_of_ne, hmiss]
    rintro a ⟨ha, hle⟩ hk
    have heq := (hd.typed ha).rank_eq_of_key (hd.typed hP) hk
    omega
  have hnamed : Named ann := by cases ann <;> trivial
  rw [translate_layer hl]
  rcases hr : (env.translate inner).exec g with ⟨e | t, g'⟩ <;> rw [hr] at ih
  · rw [exec_memoized_error hmiss (Build.exec_bind_error hr)]
    refine ⟨hlearns ih.learns, fun t h => ?_, fun _ _ => ih.failed e rfl, fun t h => ?_⟩ <;> cases h
  · have hwrap : (env.translate inner >>= fun t => pure (wrap t)).exec g = (.ok (wrap t), g') := by
      rw [Build.exec_bind_ok hr]
      rfl
    rw [exec_memoized_ok hmiss hwrap]
    refine ⟨(hlearns ih.learns).tail ?_, fun t' h => ?_, fun e h => ?_, fun t' h i hi hlt => ?_⟩
    · obtain ⟨ht, hinner⟩ := ih.remembered t rfl
      exact .layer g' ⟨hP, le_rfl⟩ (hkeep ih.learns) hl ht hinner
    · cases h
      exact ⟨Graph.cached_withMemo_self, hnamed⟩
    · cases h
    · cases h
      rw [layer_node hl]
      exact ih.made t rfl i hi hlt

theorem sizeOf_lt_of_layer (hl : env.layer? ann = some (inner, wrap)) :
    sizeOf inner < sizeOf ann := by
  obtain ⟨_, rfl, -⟩ | ⟨_, rfl, -⟩ | ⟨_, rfl, -⟩ := layer?_cases hl
  · rw [ResolvedHint.list.sizeOf_spec]
    omega
  · rw [ResolvedHint.optional.sizeOf_spec]
    omega
  · rw [ResolvedHint.aliasOf.sizeOf_spec]
    omega

theorem translates_of_class {head : ResolvedHead} {c : ClassRef} (hP : P (.cls head c))
    (hmiss : g.cached (.cls head c) = none) (hc : env.classNode c = none) :
    env.Translates P (.cls head c) g ((env.translate (.cls head c)).exec g) := by
  cases hs : env.scalars.lookup c with
  | none =>
    have hthrow : (env.mapClass (.cls head c) c).exec g =
        (.error (.untranslatable c.name head.origin), g) := by
      rw [mapClass, hc, hs]
      rfl
    rw [translate_cls, exec_memoized_error hmiss (Build.exec_bind_error hthrow)]
    exact translates_of_throw
  | some s =>
    cases hn : g.scalarNode? c with
    | some n =>
      rw [exec_translate_shared hmiss hc hs hn]
      exact translates_of_shared hP hmiss hc hn
    | none =>
      rw [exec_translate_share hmiss hc hs hn]
      exact translates_of_share hP hmiss hc hs hn

theorem translates_of_unnamed {head : ResolvedHead} {members : List ResolvedHint} {e : SchemaError}
    (hmiss : g.cached (.union head members) = none)
    (hname : unionName (.union head members) = .error e) :
    env.Translates P (.union head members) g ((env.translate (.union head members)).exec g) := by
  have hthrow : (mapUnion (.union head members) members).exec g = (.error e, g) := by
    rw [mapUnion, hname]
    rfl
  rw [translate_union, exec_memoized_error hmiss (Build.exec_bind_error hthrow)]
  exact translates_of_throw

theorem named_of_ownNode (hn : env.ownNode ann = some node) : Named ann := by
  cases ann with
  | union head members =>
    obtain ⟨name, hname, -⟩ := Option.map_eq_some_iff.1 hn
    cases he : unionName (.union head members) with
    | error e =>
      rw [he] at hname
      cases hname
    | ok name => exact ⟨name, he⟩
  | _ => trivial

/-- A hint that is no layer and has no node of its own is a class or a union without a name. -/
theorem translates_of_leaf (hP : P ann) (hmiss : g.cached ann = none)
    (hl : env.layer? ann = none) (hn : env.ownNode ann = none) :
    env.Translates P ann g ((env.translate ann).exec g) := by
  cases ann with
  | list | optional => cases hl
  | aliasOf head base =>
    unfold layer? at hl
    unfold ownNode at hn
    cases hs : env.aliasedScalar base <;> simp [hs] at hl hn
  | union head members =>
    cases hname : unionName (.union head members) with
    | error e => exact translates_of_unnamed hmiss hname
    | ok name =>
      rw [ownNode, hname] at hn
      cases hn
  | cls head c => exact translates_of_class hP hmiss hn

/-- Translation takes steps for its domain only, and remembers what it succeeds with. -/
theorem Layered.translate_spec (hd : env.Layered aliases P) (hw : env.WellFormed aliases)
    (ann : ResolvedHint) (hP : P ann) (g : Graph) :
    env.Translates P ann g ((env.translate ann).exec g) := by
  cases ht : g.cached ann with
  | some t => exact translates_of_hit ht
  | none =>
    cases hl : env.layer? ann with
    | some layer =>
      obtain ⟨inner, wrap⟩ := layer
      have hlt := sizeOf_lt_of_layer hl
      exact hd.translates_of_layer hw hP ht hl
        (Layered.translate_spec hd hw inner (hd.layer hP hl) g)
    | none =>
      cases hn : env.ownNode ann with
      | some node =>
        rw [exec_translate_own ht hn]
        exact translates_of_own hP ht hn (named_of_ownNode hn)
      | none => exact translates_of_leaf hP ht hl hn
termination_by sizeOf ann

theorem Layered.moves_translate (hd : env.Layered aliases P) (hw : env.WellFormed aliases)
    (hP : P ann) : Build.Moves (Graph.Learn env P) (env.translate ann) :=
  fun g => (hd.translate_spec hw ann hP g).learns.mono fun _ ha => ha.1

end BuildEnv

end HintSchema
