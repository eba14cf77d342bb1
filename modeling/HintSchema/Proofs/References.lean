import HintSchema.Proofs.Rounds

/-!
# What a realized node mentions

A node that lacks no part mentions exactly the nodes of the hints that it shows, one after the other
(`Closed.forall₂_references`).  The hints it shows are those its parts were made from, but for those
of parameters that a later parameter of the same name takes the place of.
-/

namespace HintSchema

variable {env : BuildEnv} {aliases : AliasTable} {P : ResolvedHint → Prop} {g : Graph}
  {ann : ResolvedHint} {node : Node} {c : ClassRef} {i : Nat}

/-- The parameters of a field that are its arguments: of those of one name the last. -/
def FieldDescriptor.shownArgs (f : FieldDescriptor) : List ResolvedParam :=
  Keyed.values (Keyed.ofList (f.args.map fun p => (p.name, p)))

theorem FieldDescriptor.mem_args_of_shown {f : FieldDescriptor} {p : ResolvedParam}
    (hp : p ∈ f.shownArgs) : p ∈ f.args := by
  obtain ⟨e, he, rfl⟩ := List.mem_map.1 hp
  obtain ⟨q, hq, rfl⟩ := List.mem_map.1 (Keyed.mem_ofList he)
  exact hq

/-- Parameters of different names are all shown. -/
theorem FieldDescriptor.shownArgs_eq {f : FieldDescriptor} (hf : (f.args.map (·.name)).Nodup) :
    f.shownArgs = f.args := by
  rw [shownArgs, Keyed.ofList_eq_self, Keyed.values, List.map_map]
  · exact List.map_id f.args
  · rwa [Keyed.keys, List.map_map]

namespace BuildEnv

/-- The hints of the output fields of a class, each followed by those of its arguments. -/
def shownFieldHints (env : BuildEnv) (c : ClassRef) : List ResolvedHint :=
  match describeFields env.hierarchy env.ns c with
  | .ok fields => fields.flatMap fun f => f.hint :: f.shownArgs.map (·.hint)
  | .error _ => []

/-- The hints that a node shows once it is realized. -/
def shownHints (env : BuildEnv) : NodeBody → List ResolvedHint :=
  env.hintsWith env.shownFieldHints

theorem mem_fieldHints_of_shown (h : ann ∈ env.shownFieldHints c) : ann ∈ env.fieldHints c := by
  cases hds : describeFields env.hierarchy env.ns c with
  | error e =>
    rw [shownFieldHints, hds] at h
    cases h
  | ok ds =>
    rw [shownFieldHints, hds] at h
    obtain ⟨f, hf, h⟩ := List.mem_flatMap.1 h
    rcases List.mem_cons.1 h with rfl | h
    · exact mem_fieldHints hds hf
    · obtain ⟨p, hp, rfl⟩ := List.mem_map.1 h
      exact mem_fieldHints_of_arg hds hf (FieldDescriptor.mem_args_of_shown hp)

theorem mem_partHints_of_shown {b : NodeBody} (h : ann ∈ env.shownHints b) :
    ann ∈ env.partHints b := by
  cases b with
  | object c fields interfaces =>
    apply List.mem_append.2
    rcases List.mem_append.1 h with h | h
    · exact .inl (mem_fieldHints_of_shown h)
    · exact .inr h
  | interface c fields => exact mem_fieldHints_of_shown h
  | input | union => exact h
  | enum | scalar => cases h

/-! ## Fields -/

/-- The fields of members and hints stand under their own names. -/
theorem names_of_entries (members : List FieldDescriptor) (hints : List (String × ResolvedHint)) :
    (Keyed.values (Keyed.putAll (Keyed.ofList (members.map fun f => (f.name, f)))
        (hints.map fun p => (p.1, hintField p.1 p.2)))).map (·.name) =
      Keyed.keys (Keyed.putAll (Keyed.ofList (members.map fun f => (f.name, f)))
        (hints.map fun p => (p.1, hintField p.1 p.2))) := by
  rw [Keyed.values, List.map_map, Keyed.keys]
  refine List.map_congr_left fun e he => ?_
  rcases Keyed.mem_putAll he with he | he
  · obtain ⟨f, -, rfl⟩ := List.mem_map.1 (Keyed.mem_ofList he)
    rfl
  · obtain ⟨p, -, rfl⟩ := List.mem_map.1 he
    rfl

/-- A class has one field of each name. -/
theorem nodup_names_of_describeFields {ds : List FieldDescriptor}
    (h : describeFields env.hierarchy env.ns c = .ok ds) : (ds.map (·.name)).Nodup := by
  obtain ⟨hints, -, h⟩ := ok_of_bind h
  obtain ⟨members, -, h⟩ := ok_of_bind h
  cases h
  rw [names_of_entries]
  exact Keyed.nodup_keys_putAll (Keyed.nodup_keys_ofList _)

theorem keys_of_showsFields {ds : List FieldDescriptor} {entries : List (String × FieldDef)}
    (h : List.Forall₂ g.ShowsField ds entries) : Keyed.keys entries = ds.map (·.name) := by
  induction h with
  | nil => rfl
  | cons hf _ ih =>
    obtain ⟨t, args, -, -, rfl⟩ := hf
    rw [Keyed.keys, List.map_cons, List.map_cons, ← ih]
    rfl

/-- The fields of a class show all its descriptors in their order. -/
theorem FieldsOf.showsFields {fields : List (String × FieldDef)} (h : env.FieldsOf g c fields) :
    ∃ ds, describeFields env.hierarchy env.ns c = .ok ds ∧
      List.Forall₂ g.ShowsField ds fields := by
  obtain ⟨ds, entries, hds, hshows, rfl⟩ := h
  refine ⟨ds, hds, ?_⟩
  rw [Keyed.ofList_eq_self]
  · exact hshows
  · rw [keys_of_showsFields hshows]
    exact nodup_names_of_describeFields hds

/-- The hints of all parameters became types, also those of hidden ones. -/
theorem FieldsOf.leads {fields : List (String × FieldDef)} (h : env.FieldsOf g c fields)
    (hann : ann ∈ env.fieldHints c) : ∃ n, g.Leads ann n := by
  obtain ⟨ds, hds, hshows⟩ := h.showsFields
  rw [fieldHints, hds] at hann
  obtain ⟨f, hf, hann⟩ := List.mem_flatMap.1 hann
  obtain ⟨e, -, t, args, ht, hargs, -⟩ := exists_right_of_forall₂ hshows hf
  rcases List.mem_cons.1 hann with rfl | hann
  · exact ⟨_, t, ht, rfl⟩
  · obtain ⟨p, hp, rfl⟩ := List.mem_map.1 hann
    obtain ⟨a, -, t', ht', -⟩ := exists_right_of_forall₂ hargs hp
    exact ⟨_, t', ht', rfl⟩

theorem forall₂_leads_of_showsField {f : FieldDescriptor} {e : String × FieldDef}
    (h : g.ShowsField f e) :
    List.Forall₂ g.Leads (f.hint :: f.shownArgs.map (·.hint))
      (e.2.type.node :: e.2.args.map fun a => a.2.type.node) := by
  obtain ⟨t, args, ht, hargs, rfl⟩ := h
  refine .cons ⟨t, ht, rfl⟩ ?_
  have hpairs : List.Forall₂ (fun p a => p.1 = a.1 ∧ g.Leads p.2.hint a.2.type.node)
      (f.args.map fun p => (p.name, p)) args := by
    refine List.forall₂_map_left_iff.2 (hargs.imp ?_)
    rintro p a ⟨t, ht, rfl⟩
    exact ⟨rfl, t, ht, rfl⟩
  have hall := Keyed.forall₂_ofList
    (S := fun (p : ResolvedParam) (a : ArgumentDef) => g.Leads p.hint a.type.node) hpairs
  rw [FieldDescriptor.shownArgs, Keyed.values, List.forall₂_map_left_iff,
    List.forall₂_map_left_iff, List.forall₂_map_right_iff]
  exact hall.imp fun _ _ h => h.2

theorem leads_of_showsMember {n : NodeRef} (h : g.ShowsMember ann n) : g.Leads ann n := by
  obtain ⟨t, ht, hn, -⟩ := h
  exact ⟨t, ht, TypeRef.node_of_nullable hn⟩

theorem FieldsOf.forall₂_leads {fields : List (String × FieldDef)} (h : env.FieldsOf g c fields) :
    List.Forall₂ g.Leads (env.shownFieldHints c) (NodeBody.fieldReferences fields) := by
  obtain ⟨ds, hds, hshows⟩ := h.showsFields
  rw [shownFieldHints, hds]
  exact List.rel_flatMap hshows fun _ _ hf => forall₂_leads_of_showsField hf

theorem InputFieldsOf.forall₂_leads {fields : List (String × TypeRef)}
    (h : env.InputFieldsOf g c fields) :
    List.Forall₂ g.Leads (env.inputHints c) (fields.map fun e => e.2.node) := by
  obtain ⟨hints, hhints, hshows⟩ := h
  rw [inputHints, hhints]
  dsimp only
  clear hhints
  generalize env.hierarchy.fields c = names at hshows
  induction hshows with
  | nil => exact .nil
  | cons he _ ih =>
    obtain ⟨ann, t, hann, ht, rfl⟩ := he
    rw [List.filterMap_cons, hann]
    exact .cons ⟨t, ht, rfl⟩ ih

/-! ## The types of classes -/

/-- A resolved hint that carries a class is one of the class. -/
theorem eq_cls_of_resolved {e : TypeExpr} (h : ResolvedHint.Of e ann)
    (hc : ann.head.resolved = .cls c) : ∃ head, ann = .cls head c := by
  induction h with
  | cls hr =>
    cases hr.symm.trans hc
    exact ⟨_, rfl⟩
  | only _ _ ih => exact ih hc
  | noneType hr | list hr | aliasOf hr | optional _ hr | union _ _ hr => cases hr.symm.trans hc

section Valid

variable (hd : env.Closed aliases P) (hv : Graph.Valid env P g)
include hd hv

/-- A class is its own node or that of its scalar, non-null. -/
theorem Closed.type_of_class_cases {t : TypeRef} (hc : env.hierarchy.Has c)
    (ht : g.cached (.ofClass c none) = some t) :
    (∃ (made : Node) (i : Nat) (node : Node), env.classNode c = some made ∧
      g.nodes[i]? = some node ∧ made.Extends node ∧ t = .nonNull (.named (node.refAt i))) ∨
    (env.classNode c = none ∧ ∃ n, n.kind = .scalar ∧ t = .nonNull (.named n)) := by
  obtain ⟨a, hP, hk, he⟩ := hv.entry ht
  obtain ⟨e, ho, hof⟩ := hd.typed hP
  have hres : a.head.resolved = .cls c :=
    TypeExpr.eq_cls_of_key (e := a.head.resolved) hc (hof.over_resolved ho).1 hk.symm
  obtain ⟨head, rfl⟩ := eq_cls_of_resolved hof hres
  cases he with
  | own hown hn hext => exact .inl ⟨_, _, _, hown, hn, hext, rfl⟩
  | scalar hnone hn => exact .inr ⟨hnone, _, (hv.scalar hn).2, rfl⟩
  | layer hl => cases hl

/-- A class with a node is its node, non-null. -/
theorem Closed.type_of_class {t : TypeRef} {kind : NodeKind} (hc : env.hierarchy.Has c)
    (hkind : env.hierarchy.kind? c = some kind) (ht : g.cached (.ofClass c none) = some t) :
    ∃ (i : Nat) (node : Node), g.nodes[i]? = some node ∧ node.body.class? = some c ∧
      node.kind = kind ∧ t = .nonNull (.named (node.refAt i)) := by
  obtain ⟨made, hmade, rfl⟩ := exists_of_kind? hkind
  rcases hd.type_of_class_cases hv hc ht with ⟨made', i, node, hmade', hn, hext, ht⟩ | ⟨hnone, -⟩
  · obtain rfl := Option.some.inj (hmade.symm.trans hmade')
    have hclass := hext.body.class?_eq.trans (classNode_spec hmade).1
    exact ⟨i, node, hn, hclass, hext.body.kind_eq, ht⟩
  · cases hmade.symm.trans hnone

theorem Closed.interface?_of_ancestor {a : ClassRef} {t : TypeRef} (hw : env.WellFormed aliases)
    (hc : env.hierarchy.Has c) (ha : a ∈ env.interfaceAncestors c)
    (ht : g.cached (.ofClass a none) = some t) : t.interface? = some t.node := by
  obtain ⟨hinterface, hobject⟩ : env.hierarchy.isInterface a = true ∧
      env.hierarchy.isObject a = false := by simpa using (List.mem_filter.1 ha).2
  have hkind : env.hierarchy.kind? a = some .interface := by
    rw [Hierarchy.kind?, hobject, hinterface]
    rfl
  obtain ⟨i, node, -, -, hnodeKind, rfl⟩ :=
    hd.type_of_class hv (hw.has_of_interfaceAncestor hc ha) hkind ht
  exact if_pos (hnodeKind : (node.refAt i).kind = .interface)

theorem Closed.forall₂_leads_of_interfaces {interfaces : List NodeRef} (hw : env.WellFormed aliases)
    (hc : env.hierarchy.Has c) (h : env.InterfacesOf g c interfaces) :
    List.Forall₂ g.Leads ((env.interfaceAncestors c).map fun a => .ofClass a none) interfaces := by
  obtain ⟨types, htypes, rfl⟩ := h
  have hall : ∀ a ∈ env.interfaceAncestors c, ∀ t, g.cached (.ofClass a none) = some t →
      t.interface? = some t.node :=
    fun a ha t ht => hd.interface?_of_ancestor hv hw hc ha ht
  rw [List.forall₂_map_left_iff]
  generalize env.interfaceAncestors c = ancestors at htypes hall
  induction htypes with
  | nil => exact .nil
  | @cons a t _ _ ht _ ih =>
    rw [List.filterMap_cons, hall a List.mem_cons_self t ht]
    exact .cons ⟨t, ht, rfl⟩ (ih fun b hb => hall b (List.mem_cons_of_mem _ hb))

/-- A realized node mentions the nodes of the hints it shows. -/
theorem Closed.forall₂_references (hw : env.WellFormed aliases) (hn : g.nodes[i]? = some node)
    (hr : node.isRealized = true) :
    List.Forall₂ g.Leads (env.shownHints node.body) node.body.references := by
  have hparts := hv.parts hn
  have hhas : ∀ c, node.body.class? = some c → env.hierarchy.Has c :=
    fun c hc => hd.has_of_class hw hv hn hc
  obtain ⟨name, description, body⟩ := node
  cases body with
  | object c fields interfaces =>
    obtain ⟨⟨fs, rfl⟩, is, rfl⟩ := NodeBody.isRealized_object_iff.1 hr
    have hfields := (hparts.1 fs rfl).forall₂_leads
    have hinterfaces := hd.forall₂_leads_of_interfaces hv hw (hhas c rfl) (hparts.2 is rfl)
    simpa [shownHints, hintsWith, NodeBody.references, NodeBody.fields, NodeBody.interfaces,
      NodeBody.inputFields, NodeBody.members] using List.rel_append hfields hinterfaces
  | interface c fields =>
    obtain ⟨fs, rfl⟩ := Option.isSome_iff_exists.1 hr
    simpa [shownHints, hintsWith, NodeBody.references, NodeBody.fields, NodeBody.interfaces,
      NodeBody.inputFields, NodeBody.members] using (hparts fs rfl).forall₂_leads
  | input c fields =>
    obtain ⟨fs, rfl⟩ := Option.isSome_iff_exists.1 hr
    simpa [shownHints, hintsWith, NodeBody.references, NodeBody.fields, NodeBody.interfaces,
      NodeBody.inputFields, NodeBody.members, NodeBody.fieldReferences]
      using (hparts fs rfl).forall₂_leads
  | union declared members =>
    obtain ⟨ms, rfl⟩ := Option.isSome_iff_exists.1 hr
    have hmembers : List.Forall₂ g.Leads declared ms :=
      (hparts ms rfl).imp fun _ _ h => leads_of_showsMember h
    simpa [shownHints, hintsWith, NodeBody.references, NodeBody.fields, NodeBody.interfaces,
      NodeBody.inputFields, NodeBody.members, NodeBody.fieldReferences] using hmembers
  | enum | scalar => exact .nil

/-- The hints that the parts of a realized node were made from became types. -/
theorem Closed.leads_of_partHints (hw : env.WellFormed aliases) (hn : g.nodes[i]? = some node)
    (hr : node.isRealized = true) (hann : ann ∈ env.partHints node.body) :
    ∃ n, g.Leads ann n := by
  have hparts := hv.parts hn
  have hshown : ann ∈ env.shownHints node.body → ∃ n, g.Leads ann n := by
    intro hann
    obtain ⟨n, -, hleads⟩ := exists_right_of_forall₂ (hd.forall₂_references hv hw hn hr) hann
    exact ⟨n, hleads⟩
  obtain ⟨name, description, body⟩ := node
  cases body with
  | object c fields interfaces =>
    obtain ⟨⟨fs, rfl⟩, -⟩ := NodeBody.isRealized_object_iff.1 hr
    rcases List.mem_append.1 hann with hann | hann
    · exact (hparts.1 fs rfl).leads hann
    · exact hshown (List.mem_append_right _ hann)
  | interface c fields =>
    obtain ⟨fs, rfl⟩ := Option.isSome_iff_exists.1 hr
    exact (hparts fs rfl).leads hann
  | input | union => exact hshown hann
  | enum | scalar => cases hann

end Valid

end BuildEnv

end HintSchema
