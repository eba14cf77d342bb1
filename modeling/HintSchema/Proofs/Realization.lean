import HintSchema.Proofs.Validity

/-!
# What realizing does to a graph

Realizing a node of a valid graph takes steps of the build only, and with success fills in every
part the node lacks (`realize_spec`).  Including the subclasses of a class takes such steps, too.
-/

namespace HintSchema

open Relation

variable {env : BuildEnv} {aliases : AliasTable} {P Q : ResolvedHint → Prop}
  {g g' : Graph} {ann : ResolvedHint} {t : TypeRef} {node : Node} {c : ClassRef}

namespace BuildEnv

/-! ## Hints of fields -/

theorem mem_fieldHints {ds : List FieldDescriptor} {f : FieldDescriptor}
    (hds : describeFields env.hierarchy env.ns c = .ok ds) (hf : f ∈ ds) :
    f.hint ∈ env.fieldHints c := by
  rw [fieldHints, hds]
  exact List.mem_flatMap.2 ⟨f, hf, List.mem_cons_self⟩

theorem mem_fieldHints_of_arg {ds : List FieldDescriptor} {f : FieldDescriptor} {p : ResolvedParam}
    (hds : describeFields env.hierarchy env.ns c = .ok ds) (hf : f ∈ ds) (hp : p ∈ f.args) :
    p.hint ∈ env.fieldHints c := by
  rw [fieldHints, hds]
  exact List.mem_flatMap.2 ⟨f, hf, List.mem_cons_of_mem _ (List.mem_map_of_mem hp)⟩

theorem mem_inputHints {hints : List (String × ResolvedHint)} {name : String}
    (hhints : resolveHints env.hierarchy env.ns c = .ok hints)
    (hname : name ∈ env.hierarchy.fields c) (hann : Keyed.get? hints name = some ann) :
    ann ∈ env.inputHints c := by
  rw [inputHints, hhints]
  exact List.mem_filterMap.2 ⟨name, hname, hann⟩

section Parts

variable (hd : env.Layered aliases P) (hw : env.WellFormed aliases)
include hd hw

theorem Layered.cached_of_translate (hP : P ann) (h : (env.translate ann).exec g = (.ok t, g')) :
    g'.cached ann = some t := by
  have hs := hd.translate_spec hw ann hP g
  rw [h] at hs
  exact (hs.remembered t rfl).1

theorem Layered.moves_translateNullable (hP : P ann) :
    Build.Moves (Graph.Learn env P) (env.translateNullable ann) :=
  (hd.moves_translate hw hP).bind fun _ => Build.moves_pure _

theorem Layered.cached_of_translateNullable (hP : P ann)
    (h : (env.translateNullable ann).exec g = (.ok t, g')) :
    ∃ t', g'.cached ann = some t' ∧ t = t'.nullable := by
  obtain ⟨t', g₁, ht', h⟩ := Build.ok_of_exec_bind h
  cases h
  exact ⟨t', hd.cached_of_translate hw hP ht', rfl⟩

/-! ## Fields -/

theorem Layered.moves_mapArg {p : ResolvedParam} (hP : P p.hint) :
    Build.Moves (Graph.Learn env P) (env.mapArg p) :=
  (hd.moves_translate hw hP).bind fun _ => Build.moves_pure _

theorem Layered.showsParam_of_mapArg {p : ResolvedParam} {a : String × ArgumentDef} (hP : P p.hint)
    (h : (env.mapArg p).exec g = (.ok a, g')) : g'.ShowsParam p a := by
  obtain ⟨t, g₁, ht, h⟩ := Build.ok_of_exec_bind h
  cases h
  exact ⟨t, hd.cached_of_translate hw hP ht, rfl⟩

theorem Layered.moves_mapField {f : FieldDescriptor} (hP : P f.hint)
    (hargs : ∀ p ∈ f.args, P p.hint) :
    Build.Moves (Graph.Learn env P) (env.mapField f) := by
  refine (hd.moves_translate hw hP).bind fun _ => ?_
  exact (Build.moves_mapM fun p hp => hd.moves_mapArg hw (hargs p hp)).bind
    fun _ => Build.moves_pure _

theorem Layered.showsField_of_mapField {f : FieldDescriptor} {e : String × FieldDef} (hP : P f.hint)
    (hargs : ∀ p ∈ f.args, P p.hint) (h : (env.mapField f).exec g = (.ok e, g')) :
    g'.ShowsField f e := by
  obtain ⟨t, g₁, ht, h⟩ := Build.ok_of_exec_bind h
  obtain ⟨args, g₂, hargs', h⟩ := Build.ok_of_exec_bind h
  cases h
  have hmoves : ∀ p ∈ f.args, Build.Moves (Graph.Learn env P) (env.mapArg p) :=
    fun p hp => hd.moves_mapArg hw (hargs p hp)
  have hlearns := (Build.moves_mapM hmoves).of_exec hargs'
  refine ⟨t, args, Graph.Learns.cached hlearns (hd.cached_of_translate hw hP ht), ?_, rfl⟩
  exact Build.forall₂_of_exec_mapM (fun hl ha => ha.mono fun _ _ => Graph.Learns.cached hl) hmoves
    (fun p hp => hd.showsParam_of_mapArg hw (hargs p hp)) hargs'

theorem Layered.moves_mapFields (hP : ∀ a ∈ env.fieldHints c, P a) :
    Build.Moves (Graph.Learn env P) (env.mapFields c) := by
  refine Build.moves_liftM_bind fun ds hds => ?_
  refine (Build.moves_mapM fun f hf => ?_).bind fun _ => Build.moves_pure _
  exact hd.moves_mapField hw (hP _ (mem_fieldHints hds hf))
    fun p hp => hP _ (mem_fieldHints_of_arg hds hf hp)

theorem Layered.fieldsOf_of_mapFields {fields : List (String × FieldDef)}
    (hP : ∀ a ∈ env.fieldHints c, P a) (h : (env.mapFields c).exec g = (.ok fields, g')) :
    env.FieldsOf g' c fields := by
  obtain ⟨ds, g₁, hlift, h⟩ := Build.ok_of_exec_bind h
  obtain ⟨hds, rfl⟩ := Build.ok_of_exec_liftM hlift
  obtain ⟨entries, g₂, hentries, h⟩ := Build.ok_of_exec_bind h
  cases h
  have hhint : ∀ f ∈ ds, P f.hint := fun f hf => hP _ (mem_fieldHints hds hf)
  have harg : ∀ f ∈ ds, ∀ p ∈ f.args, P p.hint :=
    fun f hf p hp => hP _ (mem_fieldHints_of_arg hds hf hp)
  refine ⟨ds, entries, hds, ?_, rfl⟩
  exact Build.forall₂_of_exec_mapM (fun hl he => he.mono fun _ _ => Graph.Learns.cached hl)
    (fun f hf => hd.moves_mapField hw (hhint f hf) (harg f hf))
    (fun f hf => hd.showsField_of_mapField hw (hhint f hf) (harg f hf)) hentries

/-! ## Record fields, interfaces and members -/

section InputFields

variable {hints : List (String × ResolvedHint)} {name : String}
  (hP : ∀ ann, Keyed.get? hints name = some ann → P ann)
include hP

theorem Layered.moves_mapInputField :
    Build.Moves (Graph.Learn env P) (env.mapInputField c hints name) := by
  unfold mapInputField
  split
  · rename_i ann hann
    exact (hd.moves_translate hw (hP ann hann)).bind fun _ => Build.moves_pure _
  · exact Build.moves_throw _

theorem Layered.cached_of_mapInputField {e : String × TypeRef}
    (h : (env.mapInputField c hints name).exec g = (.ok e, g')) :
    ∃ ann t, Keyed.get? hints name = some ann ∧ g'.cached ann = some t ∧ e = (name, t) := by
  unfold mapInputField at h
  split at h
  · rename_i ann hann
    obtain ⟨t, g₁, ht, h⟩ := Build.ok_of_exec_bind h
    cases h
    exact ⟨ann, t, hann, hd.cached_of_translate hw (hP ann hann) ht, rfl⟩
  · cases h

end InputFields

theorem Layered.moves_mapInputFields (hP : ∀ a ∈ env.inputHints c, P a) :
    Build.Moves (Graph.Learn env P) (env.mapInputFields c) := by
  refine Build.moves_liftM_bind fun hints hhints => Build.moves_mapM fun name hname => ?_
  exact hd.moves_mapInputField hw fun ann hann => hP ann (mem_inputHints hhints hname hann)

theorem Layered.inputFieldsOf_of_mapInputFields {fields : List (String × TypeRef)}
    (hP : ∀ a ∈ env.inputHints c, P a) (h : (env.mapInputFields c).exec g = (.ok fields, g')) :
    env.InputFieldsOf g' c fields := by
  obtain ⟨hints, g₁, hlift, h⟩ := Build.ok_of_exec_bind h
  obtain ⟨hhints, rfl⟩ := Build.ok_of_exec_liftM hlift
  have hmem : ∀ name ∈ env.hierarchy.fields c, ∀ ann, Keyed.get? hints name = some ann → P ann :=
    fun name hname ann hann => hP ann (mem_inputHints hhints hname hann)
  refine ⟨hints, hhints, ?_⟩
  refine Build.forall₂_of_exec_mapM (S := Graph.Learn env P)
    (R := fun g name e => ∃ ann t, Keyed.get? hints name = some ann ∧ g.cached ann = some t ∧
      e = (name, t)) ?_ ?_ ?_ h
  · rintro g g' name e hl ⟨ann, t, hann, ht, he⟩
    exact ⟨ann, t, hann, Graph.Learns.cached hl ht, he⟩
  · exact fun name hname => hd.moves_mapInputField hw (hmem name hname)
  · exact fun name hname => hd.cached_of_mapInputField hw (hmem name hname)

section Interfaces

variable {a : ClassRef} (hP : P (.ofClass a none))
include hP

theorem Layered.moves_translateInterface :
    Build.Moves (Graph.Learn env P) (env.translateClass a >>= fun t => match t with
      | .named n => return if n.kind = .interface then some n else none
      | _ => return none) := by
  refine (hd.moves_translateNullable hw hP).bind fun t => ?_
  cases t <;> exact Build.moves_pure _

theorem Layered.cached_of_translateInterface {o : Option NodeRef}
    (h : (env.translateClass a >>= fun t => match t with
      | .named n => return if n.kind = .interface then some n else none
      | _ => return none).exec g = (.ok o, g')) :
    ∃ t, g'.cached (.ofClass a none) = some t ∧ o = t.interface? := by
  obtain ⟨t, g₁, ht, h⟩ := Build.ok_of_exec_bind h
  obtain ⟨t', ht', rfl⟩ := hd.cached_of_translateNullable hw hP ht
  have hout : (Except.ok t'.interface?, g₁) = ((.ok o, g') : Except SchemaError _ × Graph) := by
    rw [← h, TypeRef.interface?]
    cases t'.nullable <;> rfl
  cases hout
  exact ⟨t', ht', rfl⟩

end Interfaces

theorem Layered.moves_mapInterfaces
    (hP : ∀ a ∈ env.interfaceAncestors c, P (.ofClass a none)) :
    Build.Moves (Graph.Learn env P) (env.mapInterfaces c) :=
  Build.moves_filterMapM fun a ha => hd.moves_translateInterface hw (hP a ha)

theorem Layered.interfacesOf_of_mapInterfaces {interfaces : List NodeRef}
    (hP : ∀ a ∈ env.interfaceAncestors c, P (.ofClass a none))
    (h : (env.mapInterfaces c).exec g = (.ok interfaces, g')) :
    env.InterfacesOf g' c interfaces := by
  have hall := Build.forall₂_of_exec_filterMapM (S := Graph.Learn env P)
    (R := fun g a o => ∃ t, g.cached (.ofClass a none) = some t ∧ o = t.interface?) ?_
    (fun a ha => hd.moves_translateInterface hw (hP a ha))
    (fun a ha => hd.cached_of_translateInterface hw (hP a ha)) h
  · obtain ⟨os, hos, rfl⟩ := hall
    obtain ⟨types, htypes, rfl⟩ := exists_of_forall₂_exists hos
    exact ⟨types, htypes, by rw [List.filterMap_map]; rfl⟩
  · rintro g g' a o hl ⟨t, ht, ho⟩
    exact ⟨t, Graph.Learns.cached hl ht, ho⟩

theorem Layered.moves_mapMember {name : String} (hP : P ann) :
    Build.Moves (Graph.Learn env P) (env.mapMember name ann) := by
  refine (hd.moves_translateNullable hw hP).bind fun t => ?_
  cases t with
  | named n =>
    dsimp only
    split
    · exact Build.moves_pure _
    · exact Build.moves_throw _
  | list | nonNull => exact Build.moves_throw _

theorem Layered.showsMember_of_mapMember {name : String} {n : NodeRef} (hP : P ann)
    (h : (env.mapMember name ann).exec g = (.ok n, g')) : g'.ShowsMember ann n := by
  obtain ⟨t, g₁, ht, h⟩ := Build.ok_of_exec_bind h
  obtain ⟨t', ht', rfl⟩ := hd.cached_of_translateNullable hw hP ht
  cases hn : t'.nullable with
  | named m =>
    rw [hn] at h
    dsimp only at h
    split at h
    · rename_i hkind
      cases h
      exact ⟨t', ht', hn, hkind⟩
    · cases h
  | list | nonNull =>
    rw [hn] at h
    cases h

theorem Layered.showsMembers_of_mapM {name : String} {declared : List ResolvedHint}
    {members : List NodeRef} (hP : ∀ a ∈ declared, P a)
    (h : (declared.mapM (env.mapMember name)).exec g = (.ok members, g')) :
    List.Forall₂ g'.ShowsMember declared members :=
  Build.forall₂_of_exec_mapM (fun hl hm => hm.mono fun _ _ => Graph.Learns.cached hl)
    (fun a ha => hd.moves_mapMember hw (hP a ha))
    (fun a ha => hd.showsMember_of_mapMember hw (hP a ha)) h

/-- The only node that translating a member can make is that of the member. -/
theorem Layered.made_of_mapMember {name : String} {n : NodeRef} (hP : P ann)
    (h : (env.mapMember name ann).exec g = (.ok n, g')) {i : Nat} (hi : g.nodes.size ≤ i)
    (hlt : i < g'.nodes.size) : i = n.id := by
  obtain ⟨t, g₁, ht, h⟩ := Build.ok_of_exec_bind h
  obtain ⟨t', g₂, ht', hpure⟩ := Build.ok_of_exec_bind ht
  cases hpure
  have hs := hd.translate_spec hw ann hP g
  rw [ht'] at hs
  cases hn : t'.nullable with
  | named m =>
    rw [hn] at h
    dsimp only at h
    split at h
    · cases h
      rw [hs.made t' rfl i hi hlt, TypeRef.node_of_nullable hn]
    · cases h
  | list | nonNull =>
    rw [hn] at h
    cases h

/-- Translating the members of a union makes nodes of objects only. -/
theorem Layered.kind_of_mapMembers {name : String} {declared : List ResolvedHint}
    {members : List NodeRef} (hPQ : ∀ a, P a → Q a) (hv : Graph.Valid env Q g)
    (hP : ∀ a ∈ declared, P a)
    (h : (declared.mapM (env.mapMember name)).exec g = (.ok members, g')) {i : Nat}
    (hi : g.nodes.size ≤ i) (hn : g'.nodes[i]? = some node) : node.kind = .object := by
  induction declared generalizing g members with
  | nil =>
    cases h
    have := (Array.getElem?_eq_some_iff.1 hn).1
    omega
  | cons ann rest ih =>
    rw [List.mapM_cons] at h
    obtain ⟨n, g₁, hmember, h⟩ := Build.ok_of_exec_bind h
    obtain ⟨ns, g₂, hrest, h⟩ := Build.ok_of_exec_bind h
    cases h
    have hP₁ := hP ann List.mem_cons_self
    have hPrest : ∀ a ∈ rest, P a := fun a ha => hP a (List.mem_cons_of_mem _ ha)
    have hlearns := (hd.moves_mapMember hw hP₁).of_exec hmember
    have hv₁ := (Graph.Grows.mono (Graph.Learns.grows hlearns) hPQ).valid hv
    by_cases hlt : i < g₁.nodes.size
    · obtain ⟨t, ht, htn, hkind⟩ := hd.showsMember_of_mapMember hw hP₁ hmember
      have hnode := TypeRef.node_of_nullable htn
      obtain ⟨node₁, hn₁, href⟩ := hv₁.refers ht
      rw [hnode, ← hd.made_of_mapMember hw hP₁ hmember hi hlt] at hn₁
      have hmoves : ∀ a ∈ rest, Build.Moves (Graph.Learn env P) (env.mapMember name a) :=
        fun a ha => hd.moves_mapMember hw (hPrest a ha)
      have hkeep := Graph.Learns.getElem? ((Build.moves_mapM hmoves).of_exec hrest) hn₁
      obtain rfl := Option.some.inj (hn.symm.trans hkeep)
      rw [hnode] at href
      rw [← hkind, ← href]
      rfl
    · exact ih hv₁ hPrest hrest (by omega)

end Parts

/-! ## Realizing a node -/

theorem withBody_self {id : Nat} (hn : g.nodes[id]? = some node) : g.withBody id node.body = g := by
  have hnodes : (g.withBody id node.body).nodes = g.nodes := by
    refine Array.ext_getElem? fun i => ?_
    rw [Graph.getElem?_withBody]
    split_ifs with hid
    · subst hid
      rw [hn]
      rfl
    · rfl
  cases g
  simp only [Graph.withBody] at hnodes ⊢
  rw [hnodes]

/-- Making a part and putting it in place is growth, whether making it fails or not. -/
theorem exec_fill {α : Type} {id : Nat} {make : Build α} {part : α → NodeBody} {k : α → Build Unit}
    (hmake : Build.Moves (Graph.Learn env P) make) (hn : g.nodes[id]? = some node)
    (hfill : ∀ x g', make.exec g = (.ok x, g') →
      part x = node.body ∨ env.Fills g' node.body (part x)) :
    (∃ e g₁, Graph.Grows env P g g₁ ∧ g₁.crawled = g.crawled ∧
      (make >>= fun x => Graph.setBody id (part x) >>= fun _ => k x).exec g = (.error e, g₁)) ∨
    (∃ x g₁, make.exec g = (.ok x, g₁) ∧ g₁.nodes[id]? = some node ∧
      Graph.Grows env P g (g₁.withBody id (part x)) ∧ g₁.crawled = g.crawled ∧
      (make >>= fun x => Graph.setBody id (part x) >>= fun _ => k x).exec g =
        (k x).exec (g₁.withBody id (part x))) := by
  rcases hx : make.exec g with ⟨e | x, g₁⟩
  · have hlearns : Graph.Learns env P g g₁ := hmake.of_exec hx
    exact .inl ⟨e, g₁, hlearns.grows, hlearns.crawled, Build.exec_bind_error hx⟩
  · have hlearns : Graph.Learns env P g g₁ := hmake.of_exec hx
    have hn₁ := hlearns.getElem? hn
    refine .inr ⟨x, g₁, rfl, hn₁, ?_, hlearns.crawled, by rw [Build.exec_bind_ok hx]; rfl⟩
    rcases hfill x g₁ hx with hsame | hfills
    · rw [hsame, withBody_self hn₁]
      exact hlearns.grows
    · exact hlearns.grows.tail (.fill g₁ hn₁ hfills)

theorem getElem?_withBody_self {id : Nat} {body : NodeBody} (hn : g.nodes[id]? = some node) :
    (g.withBody id body).nodes[id]? = some { node with body } := by
  rw [Graph.getElem?_withBody, if_pos rfl, hn]
  rfl

/-- What realizing a node does to a graph: with success the node lacks no part any more, and a
union has made nodes of objects only. -/
structure Realizes (env : BuildEnv) (P : ResolvedHint → Prop) (id : Nat) (g : Graph)
    (r : Except SchemaError Unit × Graph) : Prop where
  grows : Graph.Grows env P g r.2
  crawled : r.2.crawled = g.crawled
  realized : r.1 = .ok () → ∀ node, g.nodes[id]? = some node →
    ∃ node', r.2.nodes[id]? = some node' ∧ node'.isRealized = true
  objects : r.1 = .ok () → ∀ node, g.nodes[id]? = some node → node.kind = .union →
    ∀ i node', g.nodes.size ≤ i → r.2.nodes[i]? = some node' → node'.kind = .object

theorem realizes_of_realized {id : Nat}
    (hn : ∀ node, g.nodes[id]? = some node → node.isRealized = true) :
    env.Realizes P id g (.ok (), g) where
  grows := .refl
  crawled := rfl
  realized _ node hnode := ⟨node, hnode, hn node hnode⟩
  objects _ _ _ _ i node' hi hnode' := by
    have hlt := (Array.getElem?_eq_some_iff.1 hnode').1
    change i < g.nodes.size at hlt
    omega

/-- A node that lacks nothing once its last part is made. -/
theorem realizes_of_fill {α : Type} {id : Nat} {make : Build α} {part : α → NodeBody}
    (hmake : Build.Moves (Graph.Learn env P) make) (hn : g.nodes[id]? = some node)
    (hfill : ∀ x g', make.exec g = (.ok x, g') →
      part x = node.body ∨ env.Fills g' node.body (part x))
    (hrealized : ∀ x, (part x).isRealized = true)
    (hobjects : node.kind = .union → ∀ x g', make.exec g = (.ok x, g') →
      ∀ i node', g.nodes.size ≤ i → g'.nodes[i]? = some node' → node'.kind = .object) :
    env.Realizes P id g ((make >>= fun x => Graph.setBody id (part x)).exec g) := by
  have hunit : (make >>= fun x => Graph.setBody id (part x)) =
      (make >>= fun x => Graph.setBody id (part x) >>= fun _ => pure ()) := by
    simp only [bind_pure_unit]
  rw [hunit]
  rcases exec_fill (k := fun _ => pure ()) hmake hn hfill with
    ⟨e, g₁, hgrows, hcrawled, h⟩ | ⟨x, g₁, hx, hn₁, hgrows, hcrawled, h⟩
  · rw [h]
    refine ⟨hgrows, hcrawled, fun h => ?_, fun h => ?_⟩ <;> cases h
  · rw [h]
    refine ⟨hgrows, hcrawled, fun _ node' hn' => ?_, fun _ node' hn' hkind i node'' hi hn'' => ?_⟩
    · exact ⟨_, getElem?_withBody_self hn₁, hrealized x⟩
    · obtain rfl := Option.some.inj (hn.symm.trans hn')
      have hlt : id < g.nodes.size := (Array.getElem?_eq_some_iff.1 hn).1
      change (g₁.withBody id (part x)).nodes[i]? = _ at hn''
      rw [Graph.getElem?_withBody, if_neg (by omega)] at hn''
      exact hobjects hkind x g₁ hx i node'' hi hn''

/-- The first part of an object is growth; the rest decides. -/
theorem realizes_of_fill_bind {α : Type} {id : Nat} {make : Build α} {part : α → NodeBody}
    {k : α → Build Unit} (hmake : Build.Moves (Graph.Learn env P) make)
    (hn : g.nodes[id]? = some node) (hkind : node.kind ≠ .union)
    (hfill : ∀ x g', make.exec g = (.ok x, g') →
      part x = node.body ∨ env.Fills g' node.body (part x))
    (hk : ∀ x g', g'.nodes[id]? = some { node with body := part x } →
      env.Realizes P id g' ((k x).exec g')) :
    env.Realizes P id g
      ((make >>= fun x => Graph.setBody id (part x) >>= fun _ => k x).exec g) := by
  rcases exec_fill (k := k) hmake hn hfill with
    ⟨e, g₁, hgrows, hcrawled, h⟩ | ⟨x, g₁, hx, hn₁, hgrows, hcrawled, h⟩
  · rw [h]
    refine ⟨hgrows, hcrawled, fun h => ?_, fun h => ?_⟩ <;> cases h
  · rw [h]
    have hn₂ : (g₁.withBody id (part x)).nodes[id]? = some { node with body := part x } :=
      getElem?_withBody_self hn₁
    have hrest := hk x _ hn₂
    refine ⟨hgrows.trans hrest.grows, hrest.crawled.trans hcrawled,
      fun hok _ _ => hrest.realized hok _ hn₂, fun _ node' hn' hkind' => ?_⟩
    obtain rfl := Option.some.inj (hn.symm.trans hn')
    exact absurd hkind' hkind

theorem getDM_spec {α : Type} {o : Option α} {make : Build α}
    (hmake : o = none → Build.Moves (Graph.Learn env P) make) :
    Build.Moves (Graph.Learn env P) (o.getDM make) ∧
      ∀ {x g g'}, (o.getDM make).exec g = (.ok x, g') →
        o = some x ∨ o = none ∧ make.exec g = (.ok x, g') := by
  cases o with
  | some a =>
    refine ⟨Build.moves_pure a, fun h => ?_⟩
    cases h
    exact .inl rfl
  | none => exact ⟨hmake rfl, fun h => .inr ⟨rfl, h⟩⟩

section Realize

variable (hd : env.Layered aliases P) (hw : env.WellFormed aliases)
include hd hw

theorem Layered.realizes_object {id : Nat} {name : String} {description : Option String}
    {fields : Option (List (String × FieldDef))} {interfaces : Option (List NodeRef)}
    (hP : ∀ a ∈ env.partHints (.object c fields interfaces), P a)
    (hn : g.nodes[id]? = some ⟨name, description, .object c fields interfaces⟩) :
    env.Realizes P id g ((env.realize id).exec g) := by
  have hfields : ∀ a ∈ env.fieldHints c, P a := fun a ha => hP a (List.mem_append_left _ ha)
  have hinterfaces : ∀ a ∈ env.interfaceAncestors c, P (.ofClass a none) :=
    fun a ha => hP _ (List.mem_append_right _ (List.mem_map_of_mem ha))
  obtain ⟨hmoves, hmade⟩ := getDM_spec (o := fields) fun _ => hd.moves_mapFields hw hfields
  obtain ⟨hmoves', hmade'⟩ :=
    getDM_spec (o := interfaces) fun _ => hd.moves_mapInterfaces hw hinterfaces
  rw [realize, Build.exec_get_bind, hn]
  refine realizes_of_fill_bind hmoves hn (fun h => by cases h) (fun x g' h => ?_)
    (fun x g' hn' => realizes_of_fill hmoves' hn' (fun y g'' h => ?_) (fun y => rfl)
      (fun h => by cases h))
  · rcases hmade h with rfl | ⟨rfl, h⟩
    · exact .inl rfl
    · exact .inr (.objectFields (hd.fieldsOf_of_mapFields hw hfields h))
  · rcases hmade' h with rfl | ⟨rfl, h⟩
    · exact .inl rfl
    · exact .inr (.interfaces (hd.interfacesOf_of_mapInterfaces hw hinterfaces h))

/-- Realizing a node whose parts are translated from given hints. -/
theorem Layered.realize_spec (hPQ : ∀ a, P a → Q a) (hv : Graph.Valid env Q g) {id : Nat}
    (hP : ∀ node, g.nodes[id]? = some node → ∀ a ∈ env.partHints node.body, P a) :
    env.Realizes P id g ((env.realize id).exec g) := by
  cases hn : g.nodes[id]? with
  | none =>
    rw [realize, Build.exec_get_bind, hn]
    exact realizes_of_realized fun node h => by rw [hn] at h; cases h
  | some node =>
    have hparts := hP node hn
    have hsame : node.isRealized = true → env.Realizes P id g (.ok (), g) := by
      intro hr
      refine realizes_of_realized fun node' hn' => ?_
      obtain rfl := Option.some.inj (hn.symm.trans hn')
      exact hr
    obtain ⟨name, description, body⟩ := node
    cases body with
    | object c fields interfaces => exact hd.realizes_object hw hparts hn
    | interface c fields =>
      cases fields with
      | none =>
        rw [realize, Build.exec_get_bind, hn]
        refine realizes_of_fill (hd.moves_mapFields hw hparts) hn (fun x g' h => .inr ?_)
          (fun _ => rfl) (fun h => by cases h)
        exact .interfaceFields (hd.fieldsOf_of_mapFields hw hparts h)
      | some x =>
        rw [realize, Build.exec_get_bind, hn]
        exact hsame rfl
    | input c fields =>
      cases fields with
      | none =>
        rw [realize, Build.exec_get_bind, hn]
        refine realizes_of_fill (hd.moves_mapInputFields hw hparts) hn (fun x g' h => .inr ?_)
          (fun _ => rfl) (fun h => by cases h)
        exact .inputFields (hd.inputFieldsOf_of_mapInputFields hw hparts h)
      | some x =>
        rw [realize, Build.exec_get_bind, hn]
        exact hsame rfl
    | union declared members =>
      cases members with
      | none =>
        rw [realize, Build.exec_get_bind, hn]
        refine realizes_of_fill (Build.moves_mapM fun a ha => hd.moves_mapMember hw (hparts a ha))
          hn (fun x g' h => .inr ?_) (fun _ => rfl) (fun _ x g' h i node' hi hn' => ?_)
        · exact .members (hd.showsMembers_of_mapM hw hparts h)
        · exact hd.kind_of_mapMembers hw hPQ hv hparts h hi hn'
      | some x =>
        rw [realize, Build.exec_get_bind, hn]
        exact hsame rfl
    | enum | scalar =>
      rw [realize, Build.exec_get_bind, hn]
      exact hsame rfl

/-! ## Including subclasses -/

theorem Layered.moves_includeClass (extra : List NodeRef) (hP : P (.ofClass c none)) :
    Build.Moves (Graph.Learn env P) (env.includeClass extra c) := by
  refine (hd.moves_translateNullable hw hP).bind fun t => ?_
  cases t <;> exact Build.moves_pure _

theorem Layered.moves_crawl (extra : List NodeRef)
    (hP : ∀ d ∈ env.hierarchy.subclasses c, P (.ofClass d none)) :
    Build.Moves (Graph.Step env P) (env.crawl extra c) := by
  refine (Build.moves_modify fun g => .crawl g c.id).bind fun _ => ?_
  exact Build.moves_foldlM
    (fun extra d hmem => (hd.moves_includeClass hw extra (hP d hmem)).mono fun _ _ => .learn) extra

end Realize

/-- Realizing a node of a valid graph. -/
theorem Closed.realize_spec (hd : env.Closed aliases P) (hw : env.WellFormed aliases)
    (hv : Graph.Valid env P g) (id : Nat) : env.Realizes P id g ((env.realize id).exec g) :=
  hd.toLayered.realize_spec hw (fun _ h => h) hv fun _ hn => hd.partHints hv hn

end BuildEnv

end HintSchema
