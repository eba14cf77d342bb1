import HintSchema.Proofs.Coercion
import HintSchema.Proofs.Construction
import HintSchema.Proofs.Records

/-!
# What methods receive

`Schema.Received` says what a literal becomes for an argument of a type, by the type: values of the
scalars, declared members of enumerations, lists as deep as the type, instances of record classes
with their fields as attributes, and the absent value where the type is nullable only.  In a built
schema a literal becomes nothing else, as long as it has no null where the type takes none
(`BuildEnv.received_of_coerceInput`).
-/

namespace HintSchema

namespace Schema

/-! ## Types and values -/

/-- A literal has a null where the type takes none. -/
inductive NullMisplaced (s : Schema) : TypeRef → Literal → Prop
  | here {t : TypeRef} : NullMisplaced s (.nonNull t) .null
  | nonNull {t : TypeRef} {l : Literal} : NullMisplaced s t l → NullMisplaced s (.nonNull t) l
  | item {t : TypeRef} {items : List Literal} {l : Literal} :
      l ∈ items → NullMisplaced s t l → NullMisplaced s (.list t) (.list items)
  | single {t : TypeRef} {l : Literal} :
      l.isSingle = true → NullMisplaced s t l → NullMisplaced s (.list t) l
  | entry {n : NodeRef} {name : String} {t : TypeRef} {entries : List (String × Literal)}
      {l : Literal} :
      (name, t) ∈ (s.body n).inputFields → Keyed.get? entries name = some l →
      NullMisplaced s t l → NullMisplaced s (.named n) (.object entries)

/-- What a literal becomes for an argument of a type. -/
inductive Received (h : Hierarchy) (s : Schema) : TypeRef → Literal → Value → Prop
  | null {t : TypeRef} : t.isNonNull = false → Received h s t .null .null
  | nonNull {t : TypeRef} {l : Literal} {v : Value} :
      v ≠ .null → Received h s t l v → Received h s (.nonNull t) l v
  | list {t : TypeRef} {items : List Literal} {vs : List Value} :
      items.length = vs.length → (∀ p ∈ items.zip vs, Received h s t p.1 p.2) →
      Received h s (.list t) (.list items) (.list vs)
  /-- A single value is put in a list of its own. -/
  | single {t : TypeRef} {l : Literal} {v : Value} :
      l.isSingle = true → Received h s t l v → Received h s (.list t) l (.list [v])
  | scalar {n : NodeRef} {hooks : ScalarHooks} {l : Literal} {v : Value} :
      s.BuiltinScalar n hooks → hooks.codec.Holds v → Received h s (.named n) l v
  /-- What other scalars read is up to them. -/
  | registered {n : NodeRef} {hooks : ScalarHooks} {l : Literal} {v : Value} {i j : Nat} :
      s.body n = .scalar hooks → ¬ s.BuiltinScalar n hooks → s.coerceLeaf n l i = .ok (v, j) →
      Received h s (.named n) l v
  | enum {n : NodeRef} {c : ClassRef} {values : List (String × Value)} {l : Literal}
      {name : String} : s.body n = .enum c values → name ∈ Keyed.keys (h.variants c) →
      Received h s (.named n) l (.enum c name)
  /-- The attributes are the fields in their order, each with the value of its entry, or with that
  of the class where there is no entry. -/
  | record {n : NodeRef} {c : ClassRef} {fields : List (String × TypeRef)} {ident : Nat}
      {entries : List (String × Literal)} {attrs : Args} :
      s.body n = .input c (some fields) → Keyed.keys fields = h.fields c →
      Keyed.keys attrs = h.fields c →
      (∀ p ∈ fields.zip attrs, ∀ l, Keyed.get? entries p.1.1 = some l →
        Received h s p.1.2 l p.2.2) →
      (∀ p ∈ fields.zip attrs, Keyed.get? entries p.1.1 = none →
        h.lookup c p.1.1 = some (.value p.2.2)) →
      Received h s (.named n) (.object entries) (.object ident c attrs)

/-- The enumerations and the records of a schema are those of classes: their names are the declared
variants, their fields the record fields, with types that are listed too. -/
structure Describes (h : Hierarchy) (s : Schema) : Prop where
  enums : ∀ n ∈ s.types, ∀ c values, s.body n = .enum c values → values = h.variants c
  records : ∀ n ∈ s.types, ∀ c fields, s.body n = .input c fields →
    ∃ fs, fields = some fs ∧ Keyed.keys fs = h.fields c ∧ ∀ p ∈ fs, p.2.node ∈ s.types

/-! ## Named types -/

variable {world : World} {h : Hierarchy} {s : Schema} {n : NodeRef} {t : TypeRef} {l : Literal}
  {v : Value} {i j : Nat}

/-- Only scalars and enumerations read literals that are not those of records. -/
theorem coerceLeaf_cases (hv : s.coerceLeaf n l i = .ok (v, j)) :
    (∃ hooks, s.body n = .scalar hooks) ∨ ∃ c values, s.body n = .enum c values := by
  cases hn : s.body n with
  | scalar hooks => exact .inl ⟨hooks, rfl⟩
  | enum c values => exact .inr ⟨c, values, rfl⟩
  | object | interface | input | union =>
    simp only [coerceLeaf, hn] at hv
    cases hv

theorem member_of_coerceLeaf {c : ClassRef} {values : List (String × Value)}
    (hn : s.body n = .enum c values) (hv : s.coerceLeaf n l i = .ok (v, j)) :
    ∃ name ∈ Keyed.keys values, v = .enum c name := by
  rw [coerceLeaf_enum hn] at hv
  obtain ⟨name, hname⟩ := EnumType.exists_of_parseLiteral (ok_of_eval_liftM hv)
  obtain ⟨value, -, p, hp, rfl⟩ := EnumType.exists_of_parseName hname
  exact ⟨p.1, List.mem_map_of_mem (List.mem_of_find?_eq_some hp), rfl⟩

theorem ne_null_of_coerceLeaf (hl : l ≠ .null) (hv : s.coerceLeaf n l i = .ok (v, j)) :
    v ≠ .null := by
  rcases coerceLeaf_cases hv with ⟨hooks, hn⟩ | ⟨c, values, hn⟩
  · rcases coerceLeaf_scalar_cases hn hv with hv | ⟨-, text, rfl⟩
    · exact ScalarHooks.ne_null_of_parseLiteral hl hv
    · nofun
  · obtain ⟨name, -, rfl⟩ := member_of_coerceLeaf hn hv
    nofun

/-- Only null becomes the absent value. -/
theorem Coerces.ne_null (hv : Coerces world s l t v) (hl : l ≠ .null) : v ≠ .null := by
  induction hv with
  | null => exact absurd rfl hl
  | nonNull _ ih => exact ih hl
  | list | single => nofun
  | leaf _ hv => exact ne_null_of_coerceLeaf hl hv
  | record _ _ _ hv =>
    obtain ⟨ident, attrs, rfl, -⟩ := Hierarchy.attrs_of_construct hv
    nofun

theorem Describes.received_leaf (hs : s.Describes h) (ht : n ∈ s.types)
    (hv : s.coerceLeaf n l i = .ok (v, j)) : Received h s (.named n) l v := by
  rcases coerceLeaf_cases hv with ⟨hooks, hn⟩ | ⟨c, values, hn⟩
  · by_cases hbuiltin : s.BuiltinScalar n hooks
    · exact .scalar hbuiltin (hbuiltin.holds_of_coerceLeaf hv)
    · exact .registered hn hbuiltin hv
  · obtain ⟨name, hname, rfl⟩ := member_of_coerceLeaf hn hv
    exact .enum hn (hs.enums n ht c values hn ▸ hname)

/-! ## Records -/

section Supplied

variable {fields : List (String × TypeRef)} {entries : List (String × Literal)} {name : String}

theorem sublist_supplied (fields : List (String × TypeRef)) (entries : List (String × Literal)) :
    (Keyed.keys (supplied fields entries)).Sublist (Keyed.keys fields) := by
  induction fields with
  | nil => exact .slnil
  | cons p rest ih =>
    obtain ⟨name, t⟩ := p
    cases hget : Keyed.get? entries name with
    | none =>
      rw [supplied_cons_none hget]
      exact ih.cons name
    | some l =>
      rw [supplied_cons_some hget]
      exact ih.cons_cons name

variable {R : Literal → TypeRef → Value → Prop} {kwargs : Args}
  (hnodup : (Keyed.keys fields).Nodup)
  (hkeys : Keyed.keys kwargs = Keyed.keys (supplied fields entries))

include hkeys in
theorem get?_kwargs_of_omitted (hl : Keyed.get? entries name = none) :
    Keyed.get? kwargs name = none := by
  rw [Keyed.get?_eq_none_iff, hkeys]
  intro hmem
  obtain ⟨⟨_, l, t⟩, hsupplied, rfl⟩ := List.mem_map.1 hmem
  rw [(mem_supplied_iff.1 hsupplied).2] at hl
  cases hl

include hnodup hkeys in
theorem get?_kwargs_of_supplied (hR : ∀ p ∈ (supplied fields entries).zip kwargs,
      R p.1.2.1 p.1.2.2 p.2.2) (ht : (name, t) ∈ fields)
    (hl : Keyed.get? entries name = some l) : ∃ v, Keyed.get? kwargs name = some v ∧ R l t v := by
  have hall : List.Forall₂ (fun q a => a.1 = q.1 ∧ R q.2.1 q.2.2 a.2) (supplied fields entries)
      kwargs := by
    obtain ⟨hlen, hnames⟩ := List.forall₂_iff_zip.1 (Keyed.keys_eq_iff.1 hkeys)
    exact List.forall₂_iff_zip.2 ⟨hlen, fun hp => ⟨hnames hp, hR _ hp⟩⟩
  obtain ⟨a, ha, rfl, hv⟩ := exists_right_of_forall₂ hall (mem_supplied_iff.2 ⟨ht, hl⟩)
  refine ⟨a.2, Keyed.get?_of_mem ?_ ha, hv⟩
  rw [hkeys]
  exact (sublist_supplied fields entries).nodup hnodup

end Supplied

/-- A record is received when each of its arguments is. -/
theorem received_record {c : ClassRef} {fields : List (String × TypeRef)}
    {entries : List (String × Literal)} {kwargs : Args} (hn : s.body n = .input c (some fields))
    (hfields : Keyed.keys fields = h.fields c)
    (hkeys : Keyed.keys kwargs = Keyed.keys (supplied fields entries))
    (hreceived : ∀ p ∈ (supplied fields entries).zip kwargs, Received h s p.1.2.2 p.1.2.1 p.2.2)
    (hv : h.construct c kwargs i = .ok (v, j)) : Received h s (.named n) (.object entries) v := by
  have hnodup : (Keyed.keys fields).Nodup := hfields ▸ h.nodup_fields c
  obtain ⟨ident, attrs, rfl, hattrs⟩ := Hierarchy.attrs_of_construct hv
  rw [← hfields, Keyed.keys, List.forall₂_map_left_iff] at hattrs
  obtain ⟨-, hzip⟩ := List.forall₂_iff_zip.1 hattrs
  refine .record hn hfields ?_ (fun p hp l hl => ?_) (fun p hp hl => ?_)
  · rw [← hfields, Keyed.keys_eq_iff]
    exact hattrs.imp fun _ _ => And.left
  · obtain ⟨w, hw, hreceived⟩ := get?_kwargs_of_supplied (R := fun l t v => Received h s t l v)
      hnodup hkeys hreceived (List.of_mem_zip hp).1 hl
    rcases (hzip hp).2 with hgives | ⟨hnone, -⟩
    · obtain rfl := Option.some.inj (hw.symm.trans hgives)
      exact hreceived
    · rw [hw] at hnone
      cases hnone
  · rcases (hzip hp).2 with hgives | ⟨-, hdefault⟩
    · rw [get?_kwargs_of_omitted hkeys hl] at hgives
      cases hgives
    · exact hdefault

/-! ## All types -/

/-- What a literal becomes is received, by induction on the rules that it becomes it by. -/
theorem Describes.received_of_coerces (hs : s.Describes world.hierarchy)
    (hv : Coerces world s l t v) (ht : t.node ∈ s.types) (hnull : ¬ s.NullMisplaced t l) :
    Received world.hierarchy s t l v := by
  induction hv with
  | @null t =>
    cases t with
    | nonNull t => exact absurd .here hnull
    | named | list => exact .null rfl
  | @nonNull l t v hv ih =>
    have hl : l ≠ .null := by
      rintro rfl
      exact hnull .here
    exact .nonNull (hv.ne_null hl) (ih ht fun h => hnull (.nonNull h))
  | list hlen _ ih =>
    exact .list hlen fun p hp => ih p hp ht fun h => hnull (.item (List.of_mem_zip hp).1 h)
  | single hl _ ih => exact .single hl (ih ht fun h => hnull (.single hl h))
  | leaf _ hv => exact hs.received_leaf ht hv
  | @record entries n c fields kwargs v i j hn hkeys _ hv ih =>
    obtain ⟨fs, rfl, hfields, hlisted⟩ := hs.records n ht c fields hn
    refine received_record hn hfields hkeys (fun p hp => ?_) hv
    obtain ⟨⟨name, l, t⟩, a⟩ := p
    obtain ⟨hmem, hl⟩ := mem_supplied_iff.1 (List.of_mem_zip hp).1
    have hfield : (name, t) ∈ (s.body n).inputFields := by
      rw [hn]
      exact hmem
    exact ih _ hp (hlisted _ hmem) fun h => hnull (.entry hfield hl h)

end Schema

/-! ## Built schemas -/

namespace BuildEnv

variable {env : BuildEnv} {aliases : AliasTable} {P : ResolvedHint → Prop} {g : Graph}
  {query : ClassRef} {mutation : Option ClassRef} {s : Schema}

theorem values_of_classNode {c d : ClassRef} {node : Node} {values : List (String × Value)}
    (hn : env.classNode c = some node) (hbody : node.body = .enum d values) :
    values = env.hierarchy.variants d := by
  unfold classNode at hn
  dsimp only at hn
  split_ifs at hn <;> cases hn <;> cases hbody
  rfl

theorem keys_of_inputFieldsOf {c : ClassRef} {fields : List (String × TypeRef)}
    (h : env.InputFieldsOf g c fields) : Keyed.keys fields = env.hierarchy.fields c := by
  obtain ⟨hints, -, hfields⟩ := h
  rw [eq_comm, ← List.forall₂_eq_eq_eq, Keyed.keys, List.forall₂_map_right_iff]
  refine hfields.imp ?_
  rintro name _ ⟨ann, t, -, -, rfl⟩
  rfl

/-- The values of a node of an enumeration are the variants of its class. -/
theorem values_of_node (hv : g.Valid env P) {i : Nat} {node : Node} {c : ClassRef}
    {values : List (String × Value)} (hn : g.nodes[i]? = some node)
    (hbody : node.body = .enum c values) : values = env.hierarchy.variants c := by
  have hclass : node.body.class? = some c := by
    rw [hbody]
    rfl
  obtain ⟨head, made, -, hmade, hext, -⟩ := hv.origin_of_class hn hclass
  have hext := hext.body
  rw [hbody] at hext
  generalize hmadeBody : made.body = body at hext
  cases hext
  exact values_of_classNode hmade hmadeBody

/-- A built schema describes the classes it was built from. -/
theorem Built.describes (hb : env.Built P query mutation s g) : s.Describes env.hierarchy where
  enums n hn c values hbody := by
    obtain ⟨node, hnode, -, heq⟩ := hb.closes.body_eq hn
    exact values_of_node hb.valid hnode (heq ▸ hbody)
  records n hn c fields hbody := by
    obtain ⟨⟨name, description, body⟩, hnode, -, heq⟩ := hb.closes.body_eq hn
    obtain rfl : body = .input c fields := heq.symm.trans hbody
    obtain ⟨fs, rfl⟩ := Option.isSome_iff_exists.1 (Graph.isRealized_of_pending hb.pending hnode)
    refine ⟨fs, rfl, keys_of_inputFieldsOf (hb.valid.parts hnode fs rfl), fun p hp => ?_⟩
    refine hb.closes.references hn hnode p.2.node ?_
    simp only [NodeBody.references, NodeBody.inputFields, Option.getD_some, List.mem_append,
      List.mem_map]
    exact .inl (.inr ⟨p, hp, rfl⟩)

/-- In a built schema a literal without misplaced nulls becomes a value that inhabits the type. -/
theorem received_of_coerceInput (hw : env.WellFormed aliases) {visit : List Nat → List Nat}
    (hvisit : ∀ l, (visit l).Perm l)
    (hroots : ∀ c ∈ query :: mutation.toList, env.hierarchy.Has c)
    (h : ((env.buildVisiting visit query mutation).exec {}).1 = .ok s) {world : World}
    (hworld : world.hierarchy = env.hierarchy) {t : TypeRef} {l : Literal} {v : Value} {i j : Nat}
    (ht : t.node ∈ s.types) (hnull : ¬ s.NullMisplaced t l)
    (hv : Schema.coerceInput world s l t i = .ok (v, j)) :
    Schema.Received env.hierarchy s t l v := by
  have hb := hw.domain_typed.build_spec hw hvisit
    (fun c hc => ⟨.cls c, hroots c hc, .cls rfl⟩)
    (Prod.ext h rfl : (env.buildVisiting visit query mutation).exec {} = (.ok s, _))
  have hs : s.Describes world.hierarchy := hworld ▸ hb.describes
  exact hworld ▸ hs.received_of_coerces (Schema.coerces_of_coerceInput hv) ht hnull

end BuildEnv

namespace Sample

def meal : ClassRef := ⟨6, "Meal"⟩

def guest : ClassRef := ⟨7, "Guest"⟩

def inn : ClassRef := ⟨8, "Inn"⟩

def welcome : Method where
  name := "welcome"
  doc := none
  params := [⟨"guest", .text "Guest", none⟩]
  returns := .text "str"
  body := .arg "guest"

/-- The classes of an inn in their order: guests have meals, none at first, and perhaps another guest
as their host. -/
def innDeclarations : List ClassDef :=
  [{ ((ClassDef.named "Meal").addVariant "SOUP" (.int 1)).addVariant "BREAD" (.int 2) with
      capabilities := { enumeration := true } },
    { (((ClassDef.named "Guest").annotate "name" (.text "str")).attr "meals" (.text "List[Meal]")
        (.list [])).attr "host" (.text "Optional[Guest]") .null with
      capabilities := { record := true } },
    { (ClassDef.named "Inn").addMethod welcome with capabilities := { object := true } }]

def innNames : Namespace := ⟨[("Meal", .expr (.cls meal)), ("Guest", .expr (.cls guest))]⟩

def innEnv : BuildEnv := ⟨innDeclarations.foldl Hierarchy.declare .builtin, innNames, {}⟩

theorem wellFormed_inn : innEnv.WellFormed aliases where
  hierarchy := by
    have hnone := @Hierarchy.has_of_no_bases
    exact .declare (.declare (.declare .builtin (hnone rfl)) (hnone rfl)) (hnone rfl)
  identifier := rfl
  supertypes := of_aliases ⟨_, rfl, rfl⟩
  bindings {name hint} h := by
    have hmem := Keyed.mem_of_get? h
    simp only [innEnv, innNames, List.mem_cons, Prod.mk.injEq, List.not_mem_nil, or_false] at hmem
    rcases hmem with ⟨-, rfl⟩ | ⟨-, rfl⟩ <;> exact ⟨_, rfl, rfl⟩
  classes := by
    have hbuiltin : ∀ d ∈ Hierarchy.builtin.defs, d.Over innEnv.hierarchy aliases := by
      simp [Hierarchy.builtin, ClassDef.Over]
    have hdeclared : ∀ d ∈ innDeclarations, d.Over innEnv.hierarchy aliases := by
      have htexts : (innDeclarations.all fun d => d.hints.all fun p => p.2.text?.isSome) = true := by
        decide
      refine fun d hd => ⟨ClassDef.over_of_texts (List.all_eq_true.1 htexts d hd), ?_⟩
      simp only [innDeclarations, List.mem_cons, List.not_mem_nil, or_false] at hd
      rcases hd with rfl | rfl | rfl
      · exact List.forall_mem_nil _
      · exact List.forall_mem_cons.2
          ⟨⟨_, rfl, rfl⟩, List.forall_mem_cons.2 ⟨⟨_, rfl, rfl⟩, List.forall_mem_nil _⟩⟩
      · exact List.forall_mem_cons.2
          ⟨⟨trivial, List.forall_mem_cons.2 ⟨trivial, List.forall_mem_nil _⟩⟩,
            List.forall_mem_nil _⟩
    intro d hd
    have hdefs : innEnv.hierarchy.defs = innDeclarations.reverse ++ Hierarchy.builtin.defs := rfl
    rw [hdefs, List.mem_append, List.mem_reverse] at hd
    exact hd.elim (hdeclared d) (hbuiltin d)

def guestNode : NodeRef := ⟨2, .input, "Guest"⟩

def strNode : NodeRef := ⟨1, .scalar, "String"⟩

/-- A guest with one meal, whose host has none. -/
def ada : Literal :=
  .object [("name", .str "Ada"), ("meals", .enum "BREAD"),
    ("host", .object [("host", .null), ("name", .str "Bob")])]

/-- The fields of guests. -/
def guestFields : List (String × TypeRef) :=
  [("name", .nonNull (.named strNode)),
    ("meals", .nonNull (.list (.nonNull (.named ⟨3, .enum, "Meal"⟩)))),
    ("host", .named guestNode)]

theorem not_nullMisplaced_ada {s : Schema} (hfields : (s.body guestNode).inputFields = guestFields) :
    ¬ s.NullMisplaced (.nonNull (.named guestNode)) ada := by
  have hguest : ∀ {entries : List (String × Literal)},
      s.NullMisplaced (.named guestNode) (.object entries) → ∃ p ∈ guestFields, ∃ l,
        Keyed.get? entries p.1 = some l ∧ s.NullMisplaced p.2 l := by
    intro entries h
    cases h with
    | entry hmem hl h => exact ⟨_, hfields ▸ hmem, _, hl, h⟩
  have htext : ∀ {n : NodeRef} {x : String}, ¬ s.NullMisplaced (.named n) (.str x) := nofun
  have hname : ∀ {n : NodeRef} {x : String}, ¬ s.NullMisplaced (.named n) (.enum x) := nofun
  have hnull : ∀ {n : NodeRef}, ¬ s.NullMisplaced (.named n) .null := nofun
  have hnonNull : ∀ {t : TypeRef} {l : Literal}, l ≠ .null → s.NullMisplaced (.nonNull t) l →
      s.NullMisplaced t l := by
    intro t l hl h
    cases h with
    | here => exact absurd rfl hl
    | nonNull h => exact h
  intro h
  obtain ⟨p, hp, l, hl, h⟩ := hguest (hnonNull nofun h)
  simp only [guestFields, List.mem_cons, List.not_mem_nil, or_false] at hp
  rcases hp with rfl | rfl | rfl <;> cases hl
  · exact htext (hnonNull nofun h)
  · cases hnonNull (l := .enum "BREAD") nofun h with
    | single _ h => exact hname (hnonNull nofun h)
  · obtain ⟨p, hp, l, hl, h⟩ := hguest h
    simp only [guestFields, List.mem_cons, List.not_mem_nil, or_false] at hp
    rcases hp with rfl | rfl | rfl <;> cases hl
    · exact htext (hnonNull nofun h)
    · exact hnull h

/-- A single meal becomes a list of meals, and who has none has those of the class. -/
theorem received_ada :
    ∃ s v, ((innEnv.buildVisiting id inn none).exec {}).1 = .ok s ∧
      (Schema.coerceInput ⟨innEnv.hierarchy, {}⟩ s ada (.nonNull (.named guestNode)) 0).map
        Prod.fst = .ok v ∧
      s.Received innEnv.hierarchy (.nonNull (.named guestNode)) ada v := by
  obtain ⟨s, hs, hguest⟩ : ∃ s, ((innEnv.buildVisiting id inn none).exec {}).1 = .ok s ∧
      (decide (guestNode ∈ s.types ∧ (s.body guestNode).inputFields = guestFields) &&
        (Schema.coerceInput ⟨innEnv.hierarchy, {}⟩ s ada (.nonNull (.named guestNode))
          0).toOption.any fun _ => true) = true :=
    exists_ok_of_any (by decide +kernel)
  obtain ⟨hguest, hread⟩ := Bool.and_eq_true_iff.1 hguest
  obtain ⟨hlisted, hfields⟩ := of_decide_eq_true hguest
  obtain ⟨⟨v, j⟩, hv, -⟩ := exists_ok_of_any hread
  refine ⟨s, v, hs, by rw [hv]; rfl, ?_⟩
  exact BuildEnv.received_of_coerceInput wellFormed_inn (fun l => .refl l)
    (Hierarchy.has_of_root ⟨_, rfl, rfl⟩) hs rfl hlisted (not_nullMisplaced_ada hfields) hv

end Sample

end HintSchema
