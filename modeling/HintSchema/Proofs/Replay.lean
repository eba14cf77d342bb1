import HintSchema.Proofs.Rounds
import HintSchema.Proofs.Twins

/-!
# Realizing again

What a graph without pending nodes knows of a coherent set is closed (`Coherent.closed_known`).
With such hints every graph succeeds: to translate them (`Coherent.always_translate`), and to realize
nodes that come from them, in any order (`Coherent.succeeds_realizeRounds`).
-/

namespace HintSchema

open Relation

variable {env : BuildEnv} {aliases : AliasTable} {P Q : ResolvedHint → Prop} {g g' : Graph}
  {ann inner : ResolvedHint} {t t' : TypeRef} {c : ClassRef} {made node : Node} {i : Nat}

/-! ## Steps that succeed -/

/-- From all graphs with a property a build step succeeds, and leaves such a graph. -/
def Build.Succeeds {α : Type} (I : Graph → Prop) (m : Build α) : Prop :=
  ∀ g, I g → ∃ a g', m.exec g = (.ok a, g') ∧ I g'

namespace Build

variable {α β : Type} {I : Graph → Prop} {m : Build α} {f : α → Build β}

theorem succeeds_pure (a : α) : Succeeds I (pure a : Build α) := fun g hg => ⟨a, g, rfl, hg⟩

theorem Succeeds.bind (hm : Succeeds I m) (hf : ∀ a, Succeeds I (f a)) :
    Succeeds I (m >>= f) := by
  intro g hg
  obtain ⟨a, g₁, ha, hg₁⟩ := hm g hg
  rw [exec_bind_ok ha]
  exact hf a g₁ hg₁

theorem succeeds_liftM_bind {x : Except SchemaError α} {a : α} (hx : x = .ok a)
    (hf : Succeeds I (f a)) : Succeeds I ((liftM x : Build α) >>= f) := by
  intro g hg
  subst hx
  rw [exec_bind_ok (exec_liftM _ g)]
  exact hf g hg

theorem succeeds_mapM {f : α → Build β} {as : List α} (hf : ∀ a ∈ as, Succeeds I (f a)) :
    Succeeds I (as.mapM f) := by
  induction as with
  | nil => exact succeeds_pure []
  | cons a rest ih =>
    rw [List.mapM_cons]
    refine (hf a List.mem_cons_self).bind fun b => ?_
    exact (ih fun a' ha' => hf a' (List.mem_cons_of_mem _ ha')).bind fun bs => succeeds_pure _

theorem succeeds_filterMapM {f : α → Build (Option β)} {as : List α}
    (hf : ∀ a ∈ as, Succeeds I (f a)) : Succeeds I (as.filterMapM f) := by
  induction as with
  | nil => exact succeeds_pure []
  | cons a rest ih =>
    rw [List.filterMapM_cons]
    refine (hf a List.mem_cons_self).bind fun b => ?_
    have hrest := ih fun a' ha' => hf a' (List.mem_cons_of_mem _ ha')
    cases b with
    | none => exact hrest
    | some b => exact hrest.bind fun bs => succeeds_pure _

theorem succeeds_forM {f : α → Build Unit} {as : List α} (hf : ∀ a ∈ as, Succeeds I (f a)) :
    Succeeds I (as.forM f) := by
  induction as with
  | nil => exact succeeds_pure ()
  | cons a rest ih =>
    exact (hf a List.mem_cons_self).bind fun _ => ih fun a' ha' => hf a' (List.mem_cons_of_mem _ ha')

/-- A step that succeeds from every graph. -/
abbrev Always (m : Build α) : Prop := Succeeds (fun _ => True) m

theorem always_modify (change : Graph → Graph) : Always (modify change : Build Unit) :=
  fun g _ => ⟨(), change g, rfl, trivial⟩

theorem always_setBody (id : Nat) (body : NodeBody) : Always (Graph.setBody id body) :=
  always_modify _

theorem always_getDM (o : Option α) (hm : Always m) : Always (o.getDM m) := by
  cases o with
  | none => exact hm
  | some a => exact succeeds_pure a

theorem Always.exists_ok (hm : Always m) (g : Graph) : ∃ a g', m.exec g = (.ok a, g') := by
  obtain ⟨a, g', h, -⟩ := hm g trivial
  exact ⟨a, g', h⟩

theorem Always.exists_ok_unit {m : Build Unit} (hm : Always m) (g : Graph) :
    ∃ g', m.exec g = (.ok (), g') := by
  obtain ⟨⟨⟩, h⟩ := hm.exists_ok g
  exact h

end Build

/-! ## What a graph knows -/

/-- The hints of a set that a graph remembers a type for. -/
def Graph.Known (P : ResolvedHint → Prop) (g : Graph) (ann : ResolvedHint) : Prop :=
  P ann ∧ ∃ t, g.cached ann = some t

/-- A graph is valid for the hints that it knows. -/
theorem Graph.Valid.restrict (hv : Graph.Valid env P g)
    (h : ∀ ann, g.Known P ann → Q ann) : Graph.Valid env Q g where
  origin hn := by
    cases hv.origin hn with
    | hint hP hown hext ht => exact .hint (h _ ⟨hP, _, ht⟩) hown hext ht
    | scalar hnone hs hnode hn => exact .scalar hnone hs hnode hn
  entry {k t} ht := by
    obtain ⟨a, hP, rfl, he⟩ := hv.entry ht
    exact ⟨a, h a ⟨hP, t, ht⟩, rfl, he⟩
  refers := hv.refers
  scalar := hv.scalar
  parts := hv.parts

/-- What is remembered in a graph that is valid for known hints is known. -/
theorem Graph.known_of_valid (hv : Graph.Valid env (g.Known P) g') (h : g'.Known P ann) :
    g.Known P ann := by
  obtain ⟨hP, t, ht⟩ := h
  obtain ⟨a, ⟨-, t', ht'⟩, hk, -⟩ := hv.entry ht
  exact ⟨hP, t', (Graph.cached_congr hk).symm.trans ht'⟩

namespace BuildEnv

section Known

variable (hc : env.Coherent aliases P)
include hc

theorem Coherent.named (h : P ann) : Named ann := by
  cases ann with
  | union head members =>
    obtain ⟨name, hname, -⟩ := hc.unions h h rfl
    exact ⟨name, hname⟩
  | cls | list | optional | aliasOf => trivial

theorem Coherent.layered_known (hv : Graph.Valid env P g) : env.Layered aliases (g.Known P) where
  typed h := hc.typed h.1
  layer h hl := by
    obtain ⟨hP, t, ht⟩ := h
    obtain ⟨t', ht', -⟩ := hc.cached_inner hv hP hl ht
    exact ⟨hc.layer hP hl, t', ht'⟩

/-- A known hint with a node of its own is known by a node that lacks no part. -/
theorem Coherent.realized_of_known (hv : Graph.Valid env P g) (hpending : g.pending = [])
    (h : g.Known P ann) (hn : env.ownNode ann = some made) :
    ∃ (i : Nat) (node : Node) (b : NodeBody), g.nodes[i]? = some node ∧ made.body.SameMade b ∧
      b.Extends node.body ∧ node.isRealized = true := by
  obtain ⟨hP, t, ht⟩ := h
  obtain ⟨a, made', node, i, ha, hk, hmade, hnode, hext, -⟩ := hc.made_of_cached hv hP hn ht
  obtain ⟨made₂, hmade₂, -, hsame⟩ := hc.exists_ownNode hP ha hk.symm hn
  obtain rfl := Option.some.inj (hmade₂.symm.trans hmade)
  exact ⟨i, node, _, hnode, hsame, hext.body, Graph.isRealized_of_pending hpending hnode⟩

/-- Without pending nodes, what a graph knows is closed. -/
theorem Coherent.closed_known (hw : env.WellFormed aliases) (hv : Graph.Valid env P g)
    (hpending : g.pending = []) : env.Closed aliases (g.Known P) where
  toLayered := hc.layered_known hv
  parts {ann made} h hn a ha := by
    obtain ⟨i, node, b, hnode, hsame, hext, hr⟩ := hc.realized_of_known hv hpending h hn
    have hleads : ∀ a ∈ env.partHints b, ∃ n, g.Leads a n := by
      rw [← hext.partHints_eq]
      exact fun a ha => hc.leads_of_partHints hv hw hnode hr ha
    refine ⟨hc.parts h.1 hn a ha, ?_⟩
    generalize made.body = body at hsame ha
    cases hsame with
    | refl =>
      obtain ⟨_, t, ht, -⟩ := hleads a ha
      exact ⟨t, ht⟩
    | union hkeys =>
      obtain ⟨a', ha', hk⟩ := List.mem_map.1 (hkeys ▸ List.mem_map_of_mem ha)
      obtain ⟨_, t, ht, -⟩ := hleads a' ha'
      exact ⟨t, (Graph.cached_congr hk).symm.trans ht⟩

/-! ## Translating what is known -/

variable (hs : Graph.Sound env P g)
include hs

theorem Coherent.always_translate (h : g.Known P ann) : Build.Always (env.translate ann) := by
  induction hsize : sizeOf ann using Nat.strong_induction_on generalizing ann
  rename_i size ih
  subst hsize
  rintro g' -
  suffices hok : ∃ t g'', (env.translate ann).exec g' = (.ok t, g'') by
    obtain ⟨t, g'', h⟩ := hok
    exact ⟨t, g'', h, trivial⟩
  cases hit : g'.cached ann with
  | some t => exact ⟨t, g', (translate_hit hit).2.2 (hc.named h.1)⟩
  | none =>
    cases hl : env.layer? ann with
    | some layer =>
      obtain ⟨inner, wrap⟩ := layer
      have hinner := (hc.layered_known hs.valid).layer h hl
      obtain ⟨t, g'', ht⟩ := (ih _ (sizeOf_lt_of_layer hl) hinner rfl).exists_ok g'
      have hwrap : (env.translate inner >>= fun t => pure (wrap t)).exec g' =
          (.ok (wrap t), g'') := by
        rw [Build.exec_bind_ok ht]
        rfl
      rw [translate_layer hl]
      exact ⟨_, _, exec_memoized_ok hit hwrap⟩
    | none =>
      cases hn : env.ownNode ann with
      | some made => exact ⟨_, _, exec_translate_own hit hn⟩
      | none =>
        -- a known leaf without a node of its own is a class with a scalar
        obtain ⟨hP, t, ht⟩ := h
        obtain ⟨a, ha, hk, hla, he⟩ := hc.entry_of_leaf hs.valid hP hl ht
        cases he with
        | own hown =>
          obtain ⟨made, hmade, -⟩ := hc.exists_ownNode ha hP hk hown
          cases hn.symm.trans hmade
        | scalar hnone hscalar =>
          obtain ⟨head, rfl⟩ := eq_cls_of_key (hc.proper ha) (hc.proper hP) hk rfl
          obtain ⟨owner, ho⟩ := hs.owned
          obtain ⟨-, s, hlookup, -⟩ := ho.scalar hscalar
          cases hshared : g'.scalarNode? _ with
          | some n => exact ⟨_, _, exec_translate_shared hit hnone hlookup hshared⟩
          | none => exact ⟨_, _, exec_translate_share hit hnone hlookup hshared⟩
        | layer hl' => cases hla.symm.trans hl'

theorem Coherent.always_translateNullable (h : g.Known P ann) :
    Build.Always (env.translateNullable ann) :=
  (hc.always_translate hs h).bind fun _ => Build.succeeds_pure _

theorem Coherent.always_mapField {f : FieldDescriptor} (hhint : g.Known P f.hint)
    (hargs : ∀ p ∈ f.args, g.Known P p.hint) : Build.Always (env.mapField f) := by
  refine (hc.always_translate hs hhint).bind fun _ => ?_
  refine Build.Succeeds.bind (Build.succeeds_mapM fun p hp => ?_) fun _ => Build.succeeds_pure _
  exact (hc.always_translate hs (hargs p hp)).bind fun _ => Build.succeeds_pure _

theorem Coherent.always_mapFields {fields : List (String × FieldDef)}
    (hfields : env.FieldsOf g c fields) (h : ∀ a ∈ env.fieldHints c, g.Known P a) :
    Build.Always (env.mapFields c) := by
  obtain ⟨ds, -, hds, -⟩ := hfields
  refine Build.succeeds_liftM_bind hds ?_
  refine Build.Succeeds.bind (Build.succeeds_mapM fun f hf => ?_) fun _ => Build.succeeds_pure _
  exact hc.always_mapField hs (h _ (mem_fieldHints hds hf))
    fun p hp => h _ (mem_fieldHints_of_arg hds hf hp)

theorem Coherent.always_mapInputFields {fields : List (String × TypeRef)}
    (hfields : env.InputFieldsOf g c fields) (h : ∀ a ∈ env.inputHints c, g.Known P a) :
    Build.Always (env.mapInputFields c) := by
  obtain ⟨hints, hhints, hshow⟩ := hfields
  refine Build.succeeds_liftM_bind hhints (Build.succeeds_mapM fun name hname => ?_)
  obtain ⟨-, -, ann, -, hann, -⟩ := exists_right_of_forall₂ hshow hname
  rw [mapInputField, hann]
  exact (hc.always_translate hs (h ann (mem_inputHints hhints hname hann))).bind
    fun _ => Build.succeeds_pure _

theorem Coherent.always_mapInterfaces
    (h : ∀ a ∈ env.interfaceAncestors c, g.Known P (.ofClass a none)) :
    Build.Always (env.mapInterfaces c) := by
  refine Build.succeeds_filterMapM fun a ha => ?_
  refine (hc.always_translateNullable hs (h a ha)).bind fun t => ?_
  cases t <;> exact Build.succeeds_pure _

/-- A member that was an object is one again. -/
theorem Coherent.succeeds_mapMember (hw : env.WellFormed aliases) {name : String} {n : NodeRef}
    (hP : P ann) (hshow : g.ShowsMember ann n) :
    Build.Succeeds (Graph.Sound env P) (env.mapMember name ann) := by
  obtain ⟨t, ht, hn, hkind⟩ := hshow
  intro g' hs'
  obtain ⟨t', g'', ht'⟩ := (hc.always_translate hs ⟨hP, t, ht⟩).exists_ok g'
  have hs'' : Graph.Sound env P g'' :=
    hc.sound_grows (Graph.Learns.grows ((hc.moves_translate hw hP).of_exec ht')) hs'
  have hlike := hc.like_of_cached hs.valid hs''.valid hP ht (hc.cached_of_translate hw hP ht')
  have hnull : (env.translateNullable ann).exec g' = (.ok t'.nullable, g'') := by
    rw [translateNullable, Build.exec_bind_ok ht']
    rfl
  rw [mapMember, Build.exec_bind_ok hnull]
  replace hlike := hlike.nullable
  rw [hn] at hlike
  generalize t'.nullable = u at hlike
  cases hlike with
  | @named _ n' htwin =>
    have hkind' : n'.kind = .object := hc.kind_of_twin hs hs'' htwin ▸ hkind
    dsimp only
    rw [if_pos hkind']
    exact ⟨n', g'', rfl, hs''⟩

end Known

/-! ## Realizing what comes of known hints -/

/-- A sound graph that comes of what another one knows. -/
structure Within (env : BuildEnv) (P : ResolvedHint → Prop) (g g' : Graph) : Prop where
  sound : Graph.Sound env P g'
  valid : Graph.Valid env (g.Known P) g'

theorem Coherent.within_grows (hc : env.Coherent aliases P) (h : env.Within P g g')
    {g'' : Graph} (hg : Graph.Grows env (g.Known P) g' g'') : env.Within P g g'' :=
  ⟨hc.sound_grows (hg.mono fun _ h => h.1) h.sound, hg.valid h.valid⟩

section Realize

variable (hc : env.Coherent aliases P) (hw : env.WellFormed aliases) (hs : Graph.Sound env P g)
  (hpending : g.pending = [])
include hc hw hs hpending

omit hw in
/-- The class of a node has a node without missing parts in the graph that knows it. -/
theorem Coherent.parts_of_class (h : env.Within P g g') (hn : g'.nodes[i]? = some node)
    (hclass : node.body.class? = some c) : ∃ b : NodeBody, b.kind = node.kind ∧
      b.class? = some c ∧ b.isRealized = true ∧ env.Parts g b := by
  obtain ⟨head, made, hknown, hmade, hext, -⟩ := h.valid.origin_of_class hn hclass
  obtain ⟨j, node₀, b, hnode, hsame, hext₀, hr⟩ :=
    hc.realized_of_known hs.valid hpending hknown hmade
  refine ⟨node₀.body, ?_, ?_, hr, hs.valid.parts hnode⟩
  · rw [hext₀.kind_eq, ← hsame.kind_eq, ← hext.body.kind_eq]
    rfl
  · rw [hext₀.class?_eq, ← hsame.class?_eq, (classNode_spec hmade).1]

omit hw in
/-- The members of a union are objects in the graph that knows it. -/
theorem Coherent.shows_of_union (h : env.Within P g g') (hn : g'.nodes[i]? = some node)
    {declared : List ResolvedHint} {members : Option (List NodeRef)}
    (hbody : node.body = .union declared members) :
    ∀ a ∈ declared, ∃ n, g.ShowsMember a n := by
  cases h.valid.origin hn with
  | scalar _ _ hnode =>
    rw [hnode] at hbody
    cases hbody
  | @hint ann made hknown hown hext =>
    obtain ⟨j, node₀, b, hnode, hsame, hext₀, hr⟩ :=
      hc.realized_of_known hs.valid hpending hknown hown
    have hparts := hs.valid.parts hnode
    obtain ⟨declared₀, members₀, hkeys, hshow⟩ : ∃ declared₀ members₀,
        declared.map ResolvedHint.key = declared₀.map ResolvedHint.key ∧
        List.Forall₂ g.ShowsMember declared₀ members₀ := by
      have hmade := hext.body
      rw [hbody] at hmade
      obtain ⟨_, _, body₀⟩ := node₀
      generalize made.body = b₀ at hmade hsame
      cases hmade with
      | union =>
        obtain ⟨declared₀, rfl, hkeys⟩ := hsame.of_union
        cases hext₀ with
        | union =>
          obtain ⟨members₀, rfl⟩ := Option.isSome_iff_exists.1 hr
          exact ⟨declared₀, members₀, hkeys, hparts members₀ rfl⟩
    intro a ha
    obtain ⟨a₀, ha₀, hk⟩ := List.mem_map.1 (hkeys ▸ List.mem_map_of_mem ha)
    obtain ⟨n, -, hn⟩ := exists_right_of_forall₂ hshow ha₀
    exact ⟨n, showsMember_congr hk hn⟩

theorem Coherent.succeeds_realize (id : Nat) :
    Build.Succeeds (env.Within P g) (env.realize id) := by
  intro g' h
  have hclosed := hc.closed_known hw hs.valid hpending
  suffices hok : ∃ g'', (env.realize id).exec g' = (.ok (), g'') by
    obtain ⟨g'', hok⟩ := hok
    have hrealizes := hclosed.realize_spec hw h.valid id
    rw [hok] at hrealizes
    exact ⟨(), g'', hok, hc.within_grows h hrealizes.grows⟩
  rw [realize, Build.exec_get_bind]
  cases hn : g'.nodes[id]? with
  | none => exact ⟨g', rfl⟩
  | some node =>
    have hparts := hclosed.partHints h.valid hn
    obtain ⟨name, description, body⟩ := node
    cases body with
    | object c fields interfaces =>
      obtain ⟨b, hkind, hc', hr, hp⟩ := hc.parts_of_class hs hpending h hn rfl
      cases b with
      | object c' fields' interfaces' =>
        cases hc'
        obtain ⟨⟨fs, rfl⟩, -⟩ := NodeBody.isRealized_object_iff.1 hr
        have hmake := hc.always_mapFields hs (hp.1 fs rfl)
          fun a ha => hparts a (List.mem_append_left _ ha)
        have hmake' := hc.always_mapInterfaces hs (c := c)
          fun a ha => hparts _ (List.mem_append_right _ (List.mem_map_of_mem ha))
        refine Build.Always.exists_ok_unit ((Build.always_getDM fields hmake).bind fun fs => ?_) g'
        refine (Build.always_setBody id (.object c (some fs) interfaces)).bind fun _ => ?_
        exact (Build.always_getDM interfaces hmake').bind fun _ => Build.always_setBody id _
      | interface | input | enum | scalar | union => cases hkind
    | interface c fields =>
      cases fields with
      | some => exact ⟨g', rfl⟩
      | none =>
        obtain ⟨b, hkind, hc', hr, hp⟩ := hc.parts_of_class hs hpending h hn rfl
        cases b with
        | interface c' fields' =>
          cases hc'
          obtain ⟨fs, rfl⟩ := Option.isSome_iff_exists.1 hr
          have hmake := hc.always_mapFields hs (hp fs rfl) hparts
          exact Build.Always.exists_ok_unit (hmake.bind fun _ => Build.always_setBody id _) g'
        | object | input | enum | scalar | union => cases hkind
    | input c fields =>
      cases fields with
      | some => exact ⟨g', rfl⟩
      | none =>
        obtain ⟨b, hkind, hc', hr, hp⟩ := hc.parts_of_class hs hpending h hn rfl
        cases b with
        | input c' fields' =>
          cases hc'
          obtain ⟨fs, rfl⟩ := Option.isSome_iff_exists.1 hr
          have hmake := hc.always_mapInputFields hs (hp fs rfl) hparts
          exact Build.Always.exists_ok_unit (hmake.bind fun _ => Build.always_setBody id _) g'
        | object | interface | enum | scalar | union => cases hkind
    | union declared members =>
      cases members with
      | some => exact ⟨g', rfl⟩
      | none =>
        have hmake : Build.Succeeds (Graph.Sound env P) (declared.mapM (env.mapMember name)) := by
          refine Build.succeeds_mapM fun a ha => ?_
          obtain ⟨n, hn⟩ := hc.shows_of_union hs hpending h hn rfl a ha
          exact hc.succeeds_mapMember hs hw (hparts a ha).1 hn
        obtain ⟨members, g'', hmembers, -⟩ := hmake g' h.sound
        exact ⟨_, by rw [Build.exec_bind_ok hmembers]; rfl⟩
    | enum | scalar => exact ⟨g', rfl⟩

/-- Realizing succeeds in any order. -/
theorem Coherent.succeeds_realizeRounds (visit : List Nat → List Nat) (rounds : Nat) :
    Build.Succeeds (env.Within P g) (env.realizeRounds visit rounds) := by
  induction rounds with
  | zero => exact Build.succeeds_pure ()
  | succ rounds ih =>
    intro g' h
    rw [exec_realizeRounds_succ]
    split_ifs
    · exact ⟨(), g', rfl, h⟩
    · refine Build.Succeeds.bind (Build.succeeds_forM fun id _ => ?_) (fun _ => ih) g' h
      exact hc.succeeds_realize hw hs hpending id

end Realize

end BuildEnv

end HintSchema
