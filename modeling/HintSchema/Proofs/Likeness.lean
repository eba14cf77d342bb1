import HintSchema.Proofs.TypeMap

/-!
# Schemas that look alike

A relation between the nodes of two graphs is lifted to types, fields and bodies (`TypeRef.Like`,
`FieldDef.Like`, `NodeBody.Like`).  Graphs agree when nodes in the relation have the same name, are
told apart alike, and have bodies alike (`Graph.Agree`); walks in such graphs go in step, so schemas
closed over them show the same types (`close_alike`).
-/

namespace HintSchema

variable {R : NodeRef → NodeRef → Prop} {g g' : Graph} {m n : NodeRef} {s t : TypeRef}

/-! ## Types -/

/-- The same layers over nodes in a relation. -/
inductive TypeRef.Like (R : NodeRef → NodeRef → Prop) : TypeRef → TypeRef → Prop
  | named {m n : NodeRef} : R m n → Like R (.named m) (.named n)
  | list {s t : TypeRef} : Like R s t → Like R (.list s) (.list t)
  | nonNull {s t : TypeRef} : Like R s t → Like R (.nonNull s) (.nonNull t)

namespace TypeRef.Like

theorem node (h : Like R s t) : R s.node t.node := by
  induction h with
  | named h => exact h
  | list _ ih | nonNull _ ih => exact ih

theorem nullable (h : Like R s t) : Like R s.nullable t.nullable := by
  cases h with
  | named h => exact .named h
  | list h => exact .list h
  | nonNull h => exact h

theorem text_eq (hname : ∀ {m n}, R m n → m.name = n.name) (h : Like R s t) : s.text = t.text := by
  induction h with
  | named h => exact hname h
  | list _ ih | nonNull _ ih => rw [text, text, ih]

end TypeRef.Like

/-! ## Fields and bodies -/

/-- Arguments that differ in the nodes under their types only. -/
structure ArgumentDef.Like (R : NodeRef → NodeRef → Prop) (a b : ArgumentDef) : Prop where
  name : a.name = b.name
  type : a.type.Like R b.type
  default : a.default = b.default

/-- Fields that differ in the nodes under their types only. -/
structure FieldDef.Like (R : NodeRef → NodeRef → Prop) (f f' : FieldDef) : Prop where
  name : f.name = f'.name
  type : f.type.Like R f'.type
  args : Keyed.Alike (ArgumentDef.Like R) f.args f'.args
  source : f.source = f'.source

/-- Bodies without parts that lack, which differ in the nodes that they mention only. -/
inductive NodeBody.Like (R : NodeRef → NodeRef → Prop) : NodeBody → NodeBody → Prop
  | object {c : ClassRef} {fields fields' : List (String × FieldDef)}
      {interfaces interfaces' : List NodeRef} :
      Keyed.Alike (FieldDef.Like R) fields fields' → List.Forall₂ R interfaces interfaces' →
      Like R (.object c (some fields) (some interfaces))
        (.object c (some fields') (some interfaces'))
  | interface {c : ClassRef} {fields fields' : List (String × FieldDef)} :
      Keyed.Alike (FieldDef.Like R) fields fields' →
      Like R (.interface c (some fields)) (.interface c (some fields'))
  | input {c : ClassRef} {fields fields' : List (String × TypeRef)} :
      Keyed.Alike (TypeRef.Like R) fields fields' →
      Like R (.input c (some fields)) (.input c (some fields'))
  | enum {c : ClassRef} {values : List (String × Value)} : Like R (.enum c values) (.enum c values)
  | scalar {hooks : ScalarHooks} : Like R (.scalar hooks) (.scalar hooks)
  | union {declared declared' : List ResolvedHint} {members members' : List NodeRef} :
      List.Forall₂ R members members' →
      Like R (.union declared (some members)) (.union declared' (some members'))

namespace NodeBody.Like

variable {b b' : NodeBody}

theorem kind_eq (h : Like R b b') : b.kind = b'.kind := by cases h <;> rfl

theorem fields (h : Like R b b') : Keyed.Alike (FieldDef.Like R) b.fields b'.fields := by
  cases h with
  | object hf | interface hf => exact hf
  | input | enum | scalar | union => exact .nil

theorem interfaces (h : Like R b b') : List.Forall₂ R b.interfaces b'.interfaces := by
  cases h with
  | object _ hi => exact hi
  | interface | input | enum | scalar | union => exact .nil

theorem inputFields (h : Like R b b') :
    Keyed.Alike (TypeRef.Like R) b.inputFields b'.inputFields := by
  cases h with
  | input hf => exact hf
  | object | interface | enum | scalar | union => exact .nil

theorem members (h : Like R b b') : List.Forall₂ R b.members b'.members := by
  cases h with
  | union hm => exact hm
  | object | interface | input | enum | scalar => exact .nil

/-- Bodies alike mention nodes in the relation. -/
theorem references (h : Like R b b') : List.Forall₂ R b.references b'.references := by
  have hfields : List.Forall₂ R (fieldReferences b.fields) (fieldReferences b'.fields) := by
    have hfield : ∀ p q : String × FieldDef, p.1 = q.1 ∧ p.2.Like R q.2 →
        List.Forall₂ R (p.2.type.node :: p.2.args.map fun a => a.2.type.node)
          (q.2.type.node :: q.2.args.map fun a => a.2.type.node) := by
      intro p q hpq
      refine .cons hpq.2.type.node ?_
      rw [List.forall₂_map_left_iff, List.forall₂_map_right_iff]
      exact hpq.2.args.imp fun _ _ ha => ha.2.type.node
    exact List.rel_flatMap h.fields fun p q => hfield p q
  have hinput : List.Forall₂ R (b.inputFields.map fun p => p.2.node)
      (b'.inputFields.map fun p => p.2.node) := by
    rw [List.forall₂_map_left_iff, List.forall₂_map_right_iff]
    exact h.inputFields.imp fun _ _ hp => hp.2.node
  exact List.rel_append (List.rel_append (List.rel_append hfields h.interfaces) hinput) h.members

end NodeBody.Like

/-! ## What is shown -/

/-- What a schema shows of a named type: its name, its kind, and all that it consists of as it is
printed. -/
structure TypeShown where
  name : String
  kind : NodeKind
  fields : List (String × String)
  inputFields : List (String × String)
  interfaces : List String
  members : List String

namespace Schema

def shownType (s : Schema) (n : NodeRef) : TypeShown where
  name := n.name
  kind := n.kind
  fields := (s.body n).fields.map fun p => (p.1, p.2.shown)
  inputFields := (s.body n).inputFields.map fun p => (p.1, inputFieldShown p.1 p.2)
  interfaces := (s.body n).interfaces.map NodeRef.shown
  members := (s.body n).members.map NodeRef.shown

/-- What a schema shows of its types, in their order. -/
def shownTypes (s : Schema) : List TypeShown := s.types.map s.shownType

end Schema

/-! ## Graphs that agree -/

/-- Related nodes of two graphs have one name, are told apart in the one as in the other, and are
made of related nodes. -/
structure Graph.Agree (R : NodeRef → NodeRef → Prop) (g g' : Graph) : Prop where
  name : ∀ {m n}, R m n → m.name = n.name
  id_iff : ∀ {m n m' n'}, R m n → R m' n' → (m.id = m'.id ↔ n.id = n'.id)
  body : ∀ {m n}, R m n → ∃ node node' : Node, g.nodes[m.id]? = some node ∧
    g'.nodes[n.id]? = some node' ∧ node.refAt m.id = m ∧ node'.refAt n.id = n ∧
    node.body.Like R node'.body

namespace Graph.Agree

variable (h : Agree R g g')
include h

theorem kind (hR : R m n) : m.kind = n.kind := by
  obtain ⟨node, node', -, -, href, href', hbody⟩ := h.body hR
  rw [← href, ← href']
  exact hbody.kind_eq

theorem refers (hR : R m n) : g.Refers m ∧ g'.Refers n := by
  obtain ⟨node, node', hn, hn', href, href', -⟩ := h.body hR
  exact ⟨⟨node, hn, href⟩, node', hn', href'⟩

theorem references (hR : R m n) :
    List.Forall₂ R (Schema.referencesOf g.nodes m) (Schema.referencesOf g'.nodes n) := by
  obtain ⟨node, node', hn, hn', -, -, hbody⟩ := h.body hR
  rw [Schema.referencesOf, Schema.referencesOf, hn, hn']
  exact hbody.references

theorem shown_eq (hR : R m n) : m.shown = n.shown := by
  rw [NodeRef.shown, NodeRef.shown, h.kind hR, h.name hR]

theorem type_shown_eq (ht : s.Like R t) : s.shown = t.shown := by
  rw [TypeRef.shown, TypeRef.shown, ht.text_eq h.name]

theorem argument_shown_eq {a b : ArgumentDef} (ha : a.Like R b) : a.shown = b.shown := by
  unfold ArgumentDef.shown
  rw [ha.name, h.type_shown_eq ha.type, ha.default]

theorem field_shown_eq {f f' : FieldDef} (hf : f.Like R f') : f.shown = f'.shown := by
  let arg (name : String) (a : ArgumentDef) := Text.Quoting.shown.quote name ++ ": " ++ a.shown
  have hargs : f.args.map (fun p => arg p.1 p.2) = f'.args.map fun p => arg p.1 p.2 :=
    hf.args.map_eq arg arg fun ha => congrArg (_ ++ ·) (h.argument_shown_eq ha)
  unfold FieldDef.shown
  dsimp only
  rw [hargs, hf.name, h.type_shown_eq hf.type, hf.source]

theorem shownType_eq {s s' : Schema} (hs : s.nodes = g.nodes) (hs' : s'.nodes = g'.nodes)
    (hR : R m n) : s.shownType m = s'.shownType n := by
  obtain ⟨node, node', hn, hn', -, -, hlike⟩ := h.body hR
  have hbody : s.body m = node.body := by rw [Schema.body, Schema.node?, hs, hn]
  have hbody' : s'.body n = node'.body := by rw [Schema.body, Schema.node?, hs', hn']
  have hnodes : ∀ {ms ns : List NodeRef}, List.Forall₂ R ms ns →
      ms.map NodeRef.shown = ns.map NodeRef.shown := by
    intro ms ns hms
    induction hms with
    | nil => rfl
    | cons hR _ ih => rw [List.map_cons, List.map_cons, ih, h.shown_eq hR]
  have hfields := hlike.fields.map_eq (fun k f => (k, f.shown)) (fun k f => (k, f.shown))
    fun {k _ _} hf => congrArg (Prod.mk k) (h.field_shown_eq hf)
  have hinput := hlike.inputFields.map_eq (fun k t => (k, inputFieldShown k t))
    (fun k t => (k, inputFieldShown k t))
    fun ht => by unfold inputFieldShown; rw [h.type_shown_eq ht]
  unfold Schema.shownType
  rw [hbody, hbody', h.name hR, h.kind hR, hnodes hlike.interfaces, hnodes hlike.members, hfields,
    hinput]

end Graph.Agree

/-! ## Walks in step -/

namespace Schema

variable {stack stack' : List NodeRef} {typeMap typeMap' result : List (String × NodeRef)}

/-- From stacks of related nodes, walks with enough fuel go in step. -/
theorem walk_alike (h : Graph.Agree R g g') {fuel fuel' : Nat}
    (hstack : List.Forall₂ R stack stack')
    (htypes : Keyed.Alike R typeMap typeMap') (hnames : Names g typeMap)
    (hnames' : Names g' typeMap') (hfuel : stack.length + owed g.nodes typeMap < fuel)
    (hfuel' : stack'.length + owed g'.nodes typeMap' < fuel')
    (hwalk : walk g.nodes fuel stack typeMap = .ok result) :
    ∃ result', walk g'.nodes fuel' stack' typeMap' = .ok result' ∧
      Keyed.Alike R result result' := by
  induction fuel generalizing stack stack' typeMap typeMap' fuel' with
  | zero => omega
  | succ fuel ih =>
    obtain ⟨fuel', rfl⟩ : ∃ k, fuel' = k + 1 := ⟨fuel' - 1, by omega⟩
    cases hstack with
    | nil =>
      cases hwalk
      exact ⟨_, rfl, htypes⟩
    | @cons m n stack stack' hR hstack =>
      obtain ⟨hm, hn⟩ := h.refers hR
      have hseen := htypes.rel_get? m.name
      unfold walk at hwalk ⊢
      rw [← h.name hR]
      generalize hget : Keyed.get? typeMap m.name = o at hseen hwalk
      generalize hget' : Keyed.get? typeMap' m.name = o' at hseen
      cases hseen with
      | @some seen seen' hRseen =>
        dsimp only at hwalk ⊢
        split_ifs at hwalk with hid
        rw [if_pos ((h.id_iff hRseen hR).1 hid)]
        rw [List.length_cons] at hfuel hfuel'
        exact ih hstack htypes hnames hnames' (by omega) (by omega) hwalk
      | none =>
        have hnew' : Keyed.get? typeMap' n.name = none := h.name hR ▸ hget'
        dsimp only at hwalk ⊢
        rw [h.name hR]
        have htypes' : Keyed.Alike R (typeMap ++ [(m.name, m)]) (typeMap' ++ [(n.name, n)]) :=
          List.rel_append htypes (.cons ⟨h.name hR, hR⟩ .nil)
        exact ih (List.rel_append (h.references hR) hstack) htypes' (hnames.append hm hget)
          (hnames'.append hn hnew') (fuel_of_new hnames hm hget hfuel)
          (fuel_of_new hnames' hn hnew' hfuel') hwalk

/-- Schemas closed over related roots show the same types. -/
theorem close_alike (h : Graph.Agree R g g') {query query' : NodeRef}
    {mutation mutation' : Option NodeRef} {extra extra' : List NodeRef} {s : Schema}
    (hroots : List.Forall₂ R (query :: (mutation.toList ++ extra))
      (query' :: (mutation'.toList ++ extra')))
    (hclose : close g.nodes query mutation extra = .ok s) :
    ∃ s', close g'.nodes query' mutation' extra' = .ok s' ∧ s.shownTypes = s'.shownTypes := by
  have hempty : ∀ g : Graph, Names g [] := fun g => ⟨by simp, by simp, by simp [Keyed.keys]⟩
  obtain ⟨typeMap, hwalk, hs⟩ := ok_of_bind hclose
  cases hs
  obtain ⟨typeMap', hwalk', htypes⟩ :=
    walk_alike h hroots .nil (hempty g) (hempty g') (lt_walkBound _ _)
      (lt_walkBound _ _) hwalk
  have hclose' : close g'.nodes query' mutation' extra' =
      .ok ⟨g'.nodes, query', mutation', extra', typeMap'⟩ := by
    unfold close
    dsimp only
    rw [hwalk']
    rfl
  refine ⟨_, hclose', ?_⟩
  simp only [shownTypes, types, Keyed.values, List.map_map]
  exact htypes.map_eq (fun _ n => shownType _ n) (fun _ n => shownType _ n)
    fun hR => h.shownType_eq rfl rfl hR

end Schema

end HintSchema
