import HintSchema.Proofs.Dispatch
import HintSchema.Proofs.Inheritance

/-!
# Objects and their interfaces

In a built schema the type of an object class lists the types of its interfaces in the order of
lookup, has a field of each name that one of them has, and has the types of all fields that it
obtains from the same declaration as an interface (`build_conforms`).
-/

namespace HintSchema

variable {env : BuildEnv} {aliases : AliasTable} {g : Graph} {n : NodeRef} {a c query : ClassRef}
  {mutation : Option ClassRef} {s : Schema} {name : String} {decl : Declaration}

/-! ## Interfaces of a class -/

namespace BuildEnv

theorem sublist_interfaceAncestors (env : BuildEnv) (c : ClassRef) :
    (env.interfaceAncestors c).Sublist (env.hierarchy.mro c) :=
  List.filter_sublist.trans (List.tail_sublist _)

theorem nodup_interfaceAncestors (env : BuildEnv) (c : ClassRef) :
    (env.interfaceAncestors c).Nodup :=
  (env.hierarchy.nodup_mro c).sublist (env.sublist_interfaceAncestors c)

/-! ## Fields of one declaration -/

theorem eq_of_showsParams {ps qs : List ResolvedParam} {as bs : List (String × ArgumentDef)}
    (h : List.Forall₂ ResolvedParam.Alike ps qs) (hp : List.Forall₂ g.ShowsParam ps as)
    (hq : List.Forall₂ g.ShowsParam qs bs) : as = bs := by
  induction h generalizing as bs with
  | nil =>
    cases hp
    cases hq
    rfl
  | cons halike _ ih =>
    cases hp with
    | cons hp hps =>
      cases hq with
      | cons hq hqs =>
        obtain ⟨hname, hdefault, hkey⟩ := halike
        obtain ⟨t, ht, rfl⟩ := hp
        obtain ⟨t', ht', rfl⟩ := hq
        rw [Graph.cached_congr hkey, ht'] at ht
        rw [ih hps hqs, hname, hdefault, Option.some.inj ht]

/-- Fields of one declaration have the same types by reference, and so do their arguments. -/
theorem eq_of_showsField {f f' : FieldDescriptor} {e e' : String × FieldDef}
    (hf : f.From env.ns decl) (hf' : f'.From env.ns decl) (h : g.ShowsField f e)
    (h' : g.ShowsField f' e') : e.2.type = e'.2.type ∧ e.2.args = e'.2.args := by
  obtain ⟨hkey, halike⟩ := hf.keys_eq hf'
  obtain ⟨t, args, ht, hargs, rfl⟩ := h
  obtain ⟨t', args', ht', hargs', rfl⟩ := h'
  rw [Graph.cached_congr hkey, ht'] at ht
  exact ⟨(Option.some.inj ht).symm, congrArg Keyed.ofList (eq_of_showsParams halike hargs hargs')⟩

/-- A class has a field for each declaration it obtains one from, and no other. -/
theorem FieldsOf.mem_keys_iff {fields : List (String × FieldDef)} (h : env.FieldsOf g c fields) :
    name ∈ Keyed.keys fields ↔ (env.hierarchy.declaration? c name).isSome = true := by
  obtain ⟨ds, hds, hshows⟩ := h.showsFields
  rw [keys_of_showsFields hshows]
  refine ⟨fun hname => ?_, mem_names_of_declaration? hds⟩
  obtain ⟨f, hf, rfl⟩ := List.mem_map.1 hname
  obtain ⟨decl, hdecl, -⟩ := declaration?_of_describeFields hds hf
  rw [hdecl]
  rfl

theorem FieldsOf.shows {fields : List (String × FieldDef)} {e : FieldDef}
    (h : env.FieldsOf g c fields) (he : Keyed.get? fields name = some e) :
    ∃ decl f, env.hierarchy.declaration? c name = some decl ∧ f.From env.ns decl ∧
      g.ShowsField f (name, e) := by
  obtain ⟨ds, hds, hshows⟩ := h.showsFields
  obtain ⟨f, hf, hfield⟩ := exists_left_of_forall₂ hshows (Keyed.mem_of_get? he)
  obtain ⟨decl, hdecl, hfrom⟩ := declaration?_of_describeFields hds hf
  have hname : f.name = name := by
    obtain ⟨t, args, -, -, he⟩ := hfield
    exact (Prod.mk.inj he).1.symm
  exact ⟨decl, f, hname ▸ hdecl, hfrom, hfield⟩

/-! ## Built schemas -/

/-- The fields of a type are those that its class obtains from declarations. -/
def ShowsDeclared (env : BuildEnv) (s : Schema) (n : NodeRef) (c : ClassRef) : Prop :=
  (∀ name, name ∈ Keyed.keys (s.body n).fields ↔
    (env.hierarchy.declaration? c name).isSome = true) ∧
  ∀ name f, Keyed.get? (s.body n).fields name = some f →
    ∃ decl, env.hierarchy.declaration? c name = some decl ∧ f.source = decl.source

/-- The type of an object class against its interfaces. -/
structure Conforms (env : BuildEnv) (s : Schema) (n : NodeRef) (c : ClassRef) : Prop where
  /-- The interfaces of the class are its proper ancestors that are interfaces and no objects. -/
  ancestors : ∀ a, a ∈ env.interfaceAncestors c ↔ env.hierarchy.Has a ∧ a ≠ c ∧
    env.hierarchy.isSubclass c a = true ∧ env.hierarchy.isInterface a = true ∧
    env.hierarchy.isObject a = false
  order : (env.interfaceAncestors c).Sublist (env.hierarchy.mro c)
  interfaces : List.Forall₂ (fun a i => i ∈ s.types ∧ s.type? a.name = some i ∧
      i.kind = .interface ∧ (s.body i).class? = some a)
    (env.interfaceAncestors c) (s.body n).interfaces
  nodup : (s.body n).interfaces.Nodup
  declared : env.ShowsDeclared s n c ∧ ∀ i ∈ (s.body n).interfaces, ∀ a,
    (s.body i).class? = some a → env.ShowsDeclared s i a
  names : ∀ i ∈ (s.body n).interfaces,
    Keyed.keys (s.body i).fields ⊆ Keyed.keys (s.body n).fields
  /-- A declaration that both obtain a field from gives both the same types. -/
  shared : ∀ i ∈ (s.body n).interfaces, ∀ a, (s.body i).class? = some a → ∀ name decl,
    env.hierarchy.declaration? c name = some decl →
    env.hierarchy.declaration? a name = some decl →
    ∃ f f', Keyed.get? (s.body n).fields name = some f ∧
      Keyed.get? (s.body i).fields name = some f' ∧ f.type = f'.type ∧ f.args = f'.args

section Built

variable {P : ResolvedHint → Prop} (hd : env.Domain aliases P) (hw : env.WellFormed aliases)
  (hb : env.Built P query mutation s g)
include hb

theorem Built.fieldsOf (hn : n ∈ s.types) (hc : (s.body n).class? = some c)
    (hkind : n.kind = .object ∨ n.kind = .interface) : env.FieldsOf g c (s.body n).fields := by
  obtain ⟨⟨nodeName, description, body⟩, hnode, -, hbody⟩ := hb.closes.body_eq hn
  rw [hb.closes.kind_eq hn] at hkind
  rw [hbody] at hc hkind ⊢
  have hparts := hb.valid.parts hnode
  have hr := Graph.isRealized_of_pending hb.pending hnode
  cases body with
  | object c' fields interfaces =>
    obtain ⟨⟨fs, rfl⟩, -⟩ := NodeBody.isRealized_object_iff.1 hr
    cases hc
    exact hparts.1 fs rfl
  | interface c' fields =>
    obtain ⟨fs, rfl⟩ := Option.isSome_iff_exists.1 hr
    cases hc
    exact hparts fs rfl
  | input | enum | scalar | union => simp [NodeBody.kind] at hkind

theorem Built.showsDeclared (hn : n ∈ s.types) (hc : (s.body n).class? = some c)
    (hkind : n.kind = .object ∨ n.kind = .interface) : env.ShowsDeclared s n c := by
  have hfields := hb.fieldsOf hn hc hkind
  refine ⟨fun name => hfields.mem_keys_iff, fun name e he => ?_⟩
  obtain ⟨decl, f, hdecl, hfrom, t, args, -, -, hfield⟩ := hfields.shows he
  refine ⟨decl, hdecl, ?_⟩
  rw [(Prod.mk.inj hfield).2, ← hfrom.source_eq]

/-- Two types obtain the same types from one declaration. -/
theorem Built.shared_of_declaration {m : NodeRef} (hn : n ∈ s.types) (hm : m ∈ s.types)
    (hc : (s.body n).class? = some c) (ha : (s.body m).class? = some a)
    (hkind : n.kind = .object ∨ n.kind = .interface)
    (hkind' : m.kind = .object ∨ m.kind = .interface)
    (hdecl : env.hierarchy.declaration? c name = some decl)
    (hdecl' : env.hierarchy.declaration? a name = some decl) :
    ∃ f f', Keyed.get? (s.body n).fields name = some f ∧
      Keyed.get? (s.body m).fields name = some f' ∧ f.type = f'.type ∧ f.args = f'.args := by
  have hget : ∀ {m c}, m ∈ s.types → (s.body m).class? = some c →
      m.kind = .object ∨ m.kind = .interface →
      env.hierarchy.declaration? c name = some decl → ∃ e f,
        Keyed.get? (s.body m).fields name = some e ∧ f.From env.ns decl ∧
          g.ShowsField f (name, e) := by
    intro m c hm hc hkind hdecl
    have hfields := hb.fieldsOf hm hc hkind
    have hname : name ∈ Keyed.keys (s.body m).fields :=
      hfields.mem_keys_iff.2 (by rw [hdecl]; rfl)
    rw [← Keyed.contains_iff_mem_keys] at hname
    obtain ⟨e, he⟩ := Option.isSome_iff_exists.1 hname
    obtain ⟨decl', f, hdecl', hfrom, hshows⟩ := hfields.shows he
    cases hdecl.symm.trans hdecl'
    exact ⟨e, f, he, hfrom, hshows⟩
  obtain ⟨e, f, he, hfrom, hshows⟩ := hget hn hc hkind hdecl
  obtain ⟨e', f', he', hfrom', hshows'⟩ := hget hm ha hkind' hdecl'
  exact ⟨e, e', he, he', eq_of_showsField hfrom hfrom' hshows hshows'⟩

include hd hw

/-- An object type lists the types of its interfaces in the order of lookup. -/
theorem Domain.forall₂_interfaces (hn : n ∈ s.types) (hkind : n.kind = .object)
    (hc : (s.body n).class? = some c) :
    List.Forall₂ (fun a i => i ∈ s.types ∧ s.type? a.name = some i ∧ i.kind = .interface ∧
        (s.body i).class? = some a) (env.interfaceAncestors c) (s.body n).interfaces := by
  obtain ⟨node, hnode, -, hbody⟩ := hb.closes.body_eq hn
  have hhas := hd.has_of_class hw hb.valid hnode (hbody ▸ hc)
  have hleads : List.Forall₂ (fun a i => g.Leads (.ofClass a none) i) (env.interfaceAncestors c)
      (s.body n).interfaces := by
    rw [hb.closes.kind_eq hn] at hkind
    have hparts := hb.valid.parts hnode
    have hr := Graph.isRealized_of_pending hb.pending hnode
    rw [hbody] at hc hkind ⊢
    obtain ⟨nodeName, description, body⟩ := node
    cases body with
    | object c' fields interfaces =>
      obtain ⟨-, is, rfl⟩ := NodeBody.isRealized_object_iff.1 hr
      cases hc
      exact List.forall₂_map_left_iff.1
        (hd.forall₂_leads_of_interfaces hb.valid hw hhas (hparts.2 is rfl))
    | interface | input | enum | scalar | union => cases hkind
  rw [List.forall₂_iff_zip] at hleads ⊢
  refine ⟨hleads.1, fun {a i} hmem => ?_⟩
  obtain ⟨ha, hi⟩ := List.of_mem_zip hmem
  obtain ⟨hinterface, hnot⟩ : env.hierarchy.isInterface a = true ∧
      env.hierarchy.isObject a = false := by simpa using (List.mem_filter.1 ha).2
  have hlisted := hb.closes.mem_types_of_part hn (.inl hi)
  obtain ⟨node', hnode', hclass⟩ := hd.isType_of_leads_class hb.valid
    (hw.has_of_interfaceAncestor hhas ha) (Hierarchy.isSome_kind? hinterface) (hleads.2 hmem)
  obtain ⟨node'', hnode'', href, hbody'⟩ := hb.closes.body_eq hlisted
  obtain rfl := Option.some.inj (hnode'.symm.trans hnode'')
  have hname : i.name = a.name := by
    rw [← name_of_isType hb.valid hnode' hclass, ← href]
    rfl
  have hkind' : some i.kind = some NodeKind.interface := by
    rw [← kind?_eq_interface_iff.2 ⟨hinterface, hnot⟩, kind?_of_isType hb.valid hnode' hclass,
      ← href]
    rfl
  refine ⟨hlisted, ?_, Option.some.inj hkind', hbody' ▸ hclass⟩
  obtain ⟨⟨k, _⟩, hp, rfl⟩ := List.mem_map.1 hlisted
  apply Keyed.get?_of_mem hb.closes.names.nodup
  rwa [← hname, ← hb.closes.names.named _ hp]

end Built

/-- In a built schema object types conform to their interfaces. -/
theorem build_conforms (hw : env.WellFormed aliases) {visit : List Nat → List Nat}
    (hvisit : ∀ l, (visit l).Perm l)
    (hroots : ∀ c ∈ query :: mutation.toList, env.hierarchy.Has c)
    (h : ((env.buildVisiting visit query mutation).exec {}).1 = .ok s) (hn : n ∈ s.types)
    (hkind : n.kind = .object) (hc : (s.body n).class? = some c) : env.Conforms s n c := by
  have hb := hw.domain_typed.build_spec hw hvisit
    (fun c hc => ⟨.cls c, hroots c hc, .cls rfl⟩)
    (Prod.ext h rfl : (env.buildVisiting visit query mutation).exec {} = (.ok s, _))
  obtain ⟨node, hnode, -, hbody⟩ := hb.closes.body_eq hn
  have hhas := hw.domain_typed.has_of_class hw hb.valid hnode (hbody ▸ hc)
  have hisObject : env.hierarchy.isObject c = true := by
    rw [← kind?_eq_object_iff, kind?_of_isType hb.valid hnode (hbody ▸ hc), Node.kind, ← hbody,
      ← hb.closes.kind_eq hn, hkind]
  have hinterfaces := hw.domain_typed.forall₂_interfaces hw hb hn hkind hc
  have hinterface : ∀ i ∈ (s.body n).interfaces, ∀ a, (s.body i).class? = some a →
      i ∈ s.types ∧ i.kind = .interface ∧ a ∈ env.interfaceAncestors c := by
    intro i hi a hclass
    obtain ⟨a', ha', hlisted, -, hkind', hclass'⟩ := exists_left_of_forall₂ hinterfaces hi
    cases hclass.symm.trans hclass'
    exact ⟨hlisted, hkind', ha'⟩
  exact
    { ancestors := fun a => by
        rw [hw.mem_interfaceAncestors_iff hhas hisObject]
        refine and_congr_right fun _ => ⟨?_, fun h => h.2⟩
        rintro ⟨hsub, hi, ho⟩
        refine ⟨?_, hsub, hi, ho⟩
        rintro rfl
        rw [ho] at hisObject
        cases hisObject
      order := env.sublist_interfaceAncestors c
      interfaces := hinterfaces
      nodup := by
        refine (List.rel_nodup ⟨?_, ?_⟩ hinterfaces).1 (env.nodup_interfaceAncestors c)
        · intro a i a' h h'
          exact Option.some.inj (h.2.2.2.symm.trans h'.2.2.2)
        · intro a i i' h h'
          exact Option.some.inj (h.2.1.symm.trans h'.2.1)
      declared := by
        refine ⟨hb.showsDeclared hn hc (.inl hkind), fun i hi a hclass => ?_⟩
        obtain ⟨hlisted, hkind', -⟩ := hinterface i hi a hclass
        exact hb.showsDeclared hlisted hclass (.inr hkind')
      names := fun i hi name hname => by
        obtain ⟨a, ha, hlisted, -, hkind', hclass⟩ := exists_left_of_forall₂ hinterfaces hi
        obtain ⟨hhasA, hsub, -⟩ := (hw.mem_interfaceAncestors_iff hhas hisObject).1 ha
        rw [(hb.fieldsOf hlisted hclass (.inr hkind')).mem_keys_iff] at hname
        rw [(hb.fieldsOf hn hc (.inl hkind)).mem_keys_iff]
        exact hw.hierarchy.isSome_declaration?_of_isSubclass hhas hhasA hsub hname
      shared := fun i hi a hclass name decl hdecl hdecl' => by
        obtain ⟨hlisted, hkind', -⟩ := hinterface i hi a hclass
        exact hb.shared_of_declaration hn hlisted hc hclass (.inl hkind) (.inr hkind') hdecl
          hdecl' }

end BuildEnv

namespace Sample

/-- A cube has its name from shapes, past squares, and so of the same type. -/
theorem build_conforms_cube :
    ∃ s, ((Sample.env.buildVisiting id drawing none).exec {}).1 = .ok s ∧
      ∃ n ∈ s.types, Sample.env.Conforms s n cube ∧
        ∃ i ∈ (s.body n).interfaces, ∃ f f', Keyed.get? (s.body n).fields "name" = some f ∧
          Keyed.get? (s.body i).fields "name" = some f' ∧ f.type = f'.type := by
  obtain ⟨s, hs, hcube⟩ : ∃ s, ((Sample.env.buildVisiting id drawing none).exec {}).1 = .ok s ∧
      (s.types.any fun n => n.kind = .object ∧ (s.body n).class? = some cube ∧
        (s.body n).interfaces.any fun i => (s.body i).class? = some shape) = true :=
    exists_ok_of_any (by decide +kernel)
  obtain ⟨n, hn, hn'⟩ := List.any_eq_true.1 hcube
  obtain ⟨hkind, hclass, hi⟩ := of_decide_eq_true hn'
  obtain ⟨i, hi, hshape⟩ := List.any_eq_true.1 hi
  have hconforms := BuildEnv.build_conforms wellFormed (fun l => .refl l)
    (Hierarchy.has_of_root ⟨_, rfl, rfl⟩) hs hn hkind hclass
  obtain ⟨f, f', hf, hf', htype, -⟩ := hconforms.shared i hi shape (of_decide_eq_true hshape) "name"
    (.hint shape (.expr (.cls .str))) rfl rfl
  exact ⟨s, hs, n, hn, hconforms, i, hi, f, f', hf, hf', htype⟩

end Sample

end HintSchema
