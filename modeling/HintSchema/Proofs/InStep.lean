import HintSchema.Proofs.Construction
import HintSchema.Proofs.Replay

/-!
# Builds in step

Two sound graphs are abreast when they know the same hints and have crawled the same classes
(`Graph.Abreast`).  From such graphs two builds go in step, whatever order either realizes its nodes
in (`BuildEnv.InStep`): where the one succeeds, so does the other, its outcome differs in twins only,
and the graphs are abreast again.  The order has no part in what becomes known, as this is the least
closed set of what was known before.
-/

namespace HintSchema

open Relation

variable {env : BuildEnv} {aliases : AliasTable} {P : ResolvedHint → Prop}
  {g g' g₁ g₁' g₂ g₂' : Graph} {ann : ResolvedHint} {t t' : TypeRef} {c d : ClassRef}
  {visit visit' : List Nat → List Nat}

namespace Graph

/-- Sound graphs that know the same hints and have crawled the same classes. -/
structure Abreast (env : BuildEnv) (P : ResolvedHint → Prop) (g g' : Graph) : Prop where
  left : Sound env P g
  right : Sound env P g'
  known : ∀ ann, g.Known P ann ↔ g'.Known P ann
  crawled : g.crawled = g'.crawled

/-- Graphs have grown, each by its own steps, and are abreast. -/
structure Onward (env : BuildEnv) (P : ResolvedHint → Prop) (g g' g₁ g₁' : Graph) : Prop where
  abreast : Abreast env P g₁ g₁'
  left : Grows env P g g₁
  right : Grows env P g' g₁'

theorem Abreast.onward (h : Abreast env P g g') : Onward env P g g' g g' := ⟨h, .refl, .refl⟩

theorem Onward.trans (h : Onward env P g g' g₁ g₁') (h' : Onward env P g₁ g₁' g₂ g₂') :
    Onward env P g g' g₂ g₂' :=
  ⟨h'.abreast, h.left.trans h'.left, h.right.trans h'.right⟩

theorem Known.grows (h : g.Known P ann) (hg : Grows env P g g₁) : g₁.Known P ann := by
  obtain ⟨hP, t, ht⟩ := h
  exact ⟨hP, t, hg.cached ht⟩

theorem Abreast.symm (h : Abreast env P g g') : Abreast env P g' g :=
  ⟨h.right, h.left, fun ann => (h.known ann).symm, h.crawled.symm⟩

theorem sound_empty : Sound env P {} := ⟨valid_empty, _, owned_empty⟩

theorem abreast_empty : Abreast env P {} {} :=
  ⟨sound_empty, sound_empty, fun _ => .rfl, rfl⟩

end Graph

/-- Graphs that each grow by what the other one knows in the end are abreast in the end. -/
theorem BuildEnv.Coherent.onward (hc : env.Coherent aliases P) (h : Graph.Abreast env P g g')
    (hleft : Graph.Grows env (g₁'.Known P) g g₁) (hright : Graph.Grows env (g₁.Known P) g' g₁')
    (hcrawled : g₁.crawled = g₁'.crawled) : Graph.Onward env P g g' g₁ g₁' := by
  have hl : Graph.Grows env P g g₁ := hleft.mono fun _ ha => ha.1
  have hr : Graph.Grows env P g' g₁' := hright.mono fun _ ha => ha.1
  have hvl : Graph.Valid env (g₁'.Known P) g₁ :=
    hleft.valid (h.left.valid.restrict fun a ha => ((h.known a).1 ha).grows hr)
  have hvr : Graph.Valid env (g₁.Known P) g₁' :=
    hright.valid (h.right.valid.restrict fun a ha => ((h.known a).2 ha).grows hl)
  have hknown : ∀ a, g₁.Known P a ↔ g₁'.Known P a :=
    fun _ => ⟨Graph.known_of_valid hvl, Graph.known_of_valid hvr⟩
  exact ⟨⟨hc.sound_grows hl h.left, hc.sound_grows hr h.right, hknown, hcrawled⟩, hl, hr⟩

/-! ## Steps in step -/

/-- Where the one step succeeds in the one graph, the other one does in the other graph, with
outcomes in a relation that is given for twins. -/
def BuildEnv.InStep (env : BuildEnv) (P : ResolvedHint → Prop) (g g' : Graph) {α α' : Type}
    (m : Build α) (m' : Build α') (V : (NodeRef → NodeRef → Prop) → α → α' → Prop) : Prop :=
  ∀ a g₁, m.exec g = (.ok a, g₁) → ∃ a' g₁', m'.exec g' = (.ok a', g₁') ∧
    Graph.Onward env P g g' g₁ g₁' ∧ V (g₁.Twin env P g₁') a a'

namespace BuildEnv

namespace InStep

variable {α α' β β' : Type} {V : (NodeRef → NodeRef → Prop) → α → α' → Prop}
  {W : (NodeRef → NodeRef → Prop) → β → β' → Prop} {m : Build α} {m' : Build α'}
  {f : α → Build β} {f' : α' → Build β'} {a : α} {a' : α'}

theorem pure (h : Graph.Abreast env P g g') (hV : V (g.Twin env P g') a a') :
    InStep env P g g' (Pure.pure a) (Pure.pure a') V := by
  intro b g₁ hb
  cases hb
  exact ⟨a', g', rfl, h.onward, hV⟩

theorem throw {e : SchemaError} : InStep env P g g' (MonadExcept.throw e) m' V := by
  intro a g₁ ha
  cases ha

theorem bind (hm : InStep env P g g' m m' V)
    (hf : ∀ a a' g₁ g₁', Graph.Onward env P g g' g₁ g₁' → V (g₁.Twin env P g₁') a a' →
      InStep env P g₁ g₁' (f a) (f' a') W) : InStep env P g g' (m >>= f) (m' >>= f') W := by
  intro b g₂ hb
  obtain ⟨a, g₁, ha, hb⟩ := Build.ok_of_exec_bind hb
  obtain ⟨a', g₁', ha', honward, hV⟩ := hm a g₁ ha
  obtain ⟨b', g₂', hb', honward', hW⟩ := hf a a' g₁ g₁' honward hV b g₂ hb
  exact ⟨b', g₂', by rw [Build.exec_bind_ok ha', hb'], honward.trans honward', hW⟩

/-- Steps for the same items, one after the other, gather lists of twins. -/
theorem foldlM {δ : Type} {f : List NodeRef → δ → Build (List NodeRef)} {ds : List δ}
    {extra extra' : List NodeRef} (h : Graph.Abreast env P g g')
    (hextra : List.Forall₂ (g.Twin env P g') extra extra')
    (hf : ∀ d ∈ ds, ∀ {g₁ g₁' extra₁ extra₁'}, Graph.Onward env P g g' g₁ g₁' →
      List.Forall₂ (g₁.Twin env P g₁') extra₁ extra₁' →
      InStep env P g₁ g₁' (f extra₁ d) (f extra₁' d) List.Forall₂) :
    InStep env P g g' (ds.foldlM f extra) (ds.foldlM f extra') List.Forall₂ := by
  induction ds generalizing g g' extra extra' with
  | nil => exact pure h hextra
  | cons d rest ih =>
    rw [List.foldlM_cons, List.foldlM_cons]
    refine (hf d List.mem_cons_self h.onward hextra).bind fun _ _ _ _ honward hextra₁ => ?_
    exact ih honward.abreast hextra₁ fun d' hd' _ _ _ _ honward' =>
      hf d' (List.mem_cons_of_mem _ hd') (honward.trans honward')

end InStep

section Steps

variable (hc : env.Coherent aliases P) (hw : env.WellFormed aliases)
  (h : Graph.Abreast env P g g')
include hc hw h

/-! ## Translating -/

theorem Coherent.inStep_translate (hP : P ann) :
    env.InStep P g g' (env.translate ann) (env.translate ann) TypeRef.Like := by
  intro t g₁ ht
  have hlearns := (hc.moves_translate hw hP).of_exec ht
  have hs₁ := hc.sound_grows (Graph.Learns.grows hlearns) h.left
  have hcached := hc.cached_of_translate hw hP ht
  have hknown : g₁.Known P ann := ⟨hP, t, hcached⟩
  obtain ⟨t', g₁', ht'⟩ := (hc.always_translate hs₁ hknown).exists_ok g'
  have hlearns' := (hc.moves_translate hw hP).of_exec ht'
  have hs₁' := hc.sound_grows (Graph.Learns.grows hlearns') h.right
  have hcached' := hc.cached_of_translate hw hP ht'
  have hknown' : g₁'.Known P ann := ⟨hP, t', hcached'⟩
  have hleft := ((hc.layered_known hs₁'.valid).moves_translate hw hknown').of_exec ht
  have hright := ((hc.layered_known hs₁.valid).moves_translate hw hknown).of_exec ht'
  refine ⟨t', g₁', ht', hc.onward h (Graph.Learns.grows hleft) (Graph.Learns.grows hright) ?_,
    hc.like_of_cached hs₁.valid hs₁'.valid hP hcached hcached'⟩
  exact (Graph.Learns.crawled hlearns).trans
    (h.crawled.trans (Graph.Learns.crawled hlearns').symm)

theorem Coherent.inStep_translateNullable (hP : P ann) :
    env.InStep P g g' (env.translateNullable ann) (env.translateNullable ann) TypeRef.Like :=
  (hc.inStep_translate hw h hP).bind fun _ _ _ _ honward hlike =>
    .pure honward.abreast hlike.nullable

theorem Coherent.inStep_translateRoot {role : String} (hP : P (.ofClass c none)) :
    env.InStep P g g' (env.translateRoot role c) (env.translateRoot role c) fun R => R := by
  refine (hc.inStep_translateNullable hw h hP).bind fun t t' g₁ g₁' honward hlike => ?_
  cases hlike with
  | @named m n htwin =>
    have hkind := hc.kind_of_twin honward.abreast.left honward.abreast.right htwin
    dsimp only
    rw [hkind]
    split_ifs
    · exact .pure honward.abreast htwin
    · exact .throw
  | list | nonNull => exact .throw

theorem Coherent.inStep_mapM_translateRoot {role : String} {mutation : Option ClassRef}
    (hP : ∀ c ∈ mutation.toList, P (.ofClass c none)) :
    env.InStep P g g' (mutation.mapM (env.translateRoot role))
      (mutation.mapM (env.translateRoot role)) Option.Rel := by
  cases mutation with
  | none => exact .pure h .none
  | some c =>
    rw [Option.mapM_some, map_eq_pure_bind]
    exact (hc.inStep_translateRoot hw h (hP c (List.mem_singleton_self c))).bind
      fun _ _ _ _ honward htwin => .pure honward.abreast (.some htwin)

/-! ## Realizing -/

theorem Coherent.inStep_realizeAll (hvisit : ∀ l, (visit l).Perm l)
    (hvisit' : ∀ l, (visit' l).Perm l) :
    env.InStep P g g' (env.realizeAll visit) (env.realizeAll visit') fun _ _ _ => True := by
  rintro ⟨⟩ g₁ hrun
  -- the run realizes all that the other run can meet
  have hspec := hc.realizeAll_spec hw hvisit h.left.valid
  rw [hrun] at hspec
  obtain ⟨hgrows, hcrawled, hpending⟩ := hspec
  replace hpending := hpending rfl
  have hs₁ := hc.sound_grows hgrows h.left
  have hwithin : env.Within P g₁ g' :=
    ⟨h.right, h.right.valid.restrict fun a ha => ((h.known a).2 ha).grows hgrows⟩
  obtain ⟨⟨⟩, g₁', hrun', hwithin'⟩ :=
    hc.succeeds_realizeRounds hw hs₁ hpending visit' _ g' hwithin
  change (env.realizeAll visit').exec g' = _ at hrun'
  have hspec' := (hc.closed_known hw hs₁.valid hpending).realizeAll_spec hw hvisit' hwithin.valid
  rw [hrun'] at hspec'
  obtain ⟨hright, hcrawled', hpending'⟩ := hspec'
  replace hpending' := hpending' rfl
  -- and the other way round
  have hgrows' : Graph.Grows env P g' g₁' := hright.mono fun _ ha => ha.1
  have hvalid : Graph.Valid env (g₁'.Known P) g :=
    h.left.valid.restrict fun a ha => ((h.known a).1 ha).grows hgrows'
  have hspec := (hc.closed_known hw hwithin'.sound.valid hpending').realizeAll_spec hw hvisit hvalid
  rw [hrun] at hspec
  have hsame := hcrawled.trans (h.crawled.trans hcrawled'.symm)
  exact ⟨(), g₁', hrun', hc.onward h hspec.1 hright hsame, trivial⟩

/-! ## Including subclasses -/

omit hw h in
theorem Coherent.any_id_eq (hw : env.WellFormed aliases) (h : Graph.Abreast env P g g')
    {extra extra' : List NodeRef} {m n : NodeRef}
    (hextra : List.Forall₂ (g.Twin env P g') extra extra') (htwin : g.Twin env P g' m n) :
    extra.any (·.id == m.id) = extra'.any (·.id == n.id) := by
  induction hextra with
  | nil => rfl
  | @cons k l _ _ hkl _ ih =>
    have hid : (k.id == m.id) = (l.id == n.id) := by
      rw [Bool.eq_iff_iff, beq_iff_eq, beq_iff_eq]
      exact hc.id_iff_of_twin h.left h.right hw hkl htwin
    rw [List.any_cons, List.any_cons, ih, hid]

theorem Coherent.inStep_includeClass {extra extra' : List NodeRef} (hP : P (.ofClass d none))
    (hextra : List.Forall₂ (g.Twin env P g') extra extra') :
    env.InStep P g g' (env.includeClass extra d) (env.includeClass extra' d) List.Forall₂ := by
  refine (hc.inStep_translateNullable hw h hP).bind fun t t' g₁ g₁' honward hlike => ?_
  have hextra₁ : List.Forall₂ (g₁.Twin env P g₁') extra extra' :=
    hextra.imp fun _ _ htwin => htwin.grows honward.left honward.right
  cases hlike with
  | @named m n htwin =>
    dsimp only
    rw [hc.any_id_eq hw honward.abreast hextra₁ htwin]
    split_ifs
    · exact .pure honward.abreast hextra₁
    · exact .pure honward.abreast (List.rel_append hextra₁ (.cons htwin .nil))
  | list | nonNull => exact .pure honward.abreast hextra₁

theorem Coherent.inStep_crawl {extra extra' : List NodeRef}
    (hP : ∀ d ∈ env.hierarchy.subclasses c, P (.ofClass d none))
    (hextra : List.Forall₂ (g.Twin env P g') extra extra') :
    env.InStep P g g' (env.crawl extra c) (env.crawl extra' c) List.Forall₂ := by
  have hmark : env.InStep P g g' (modify fun g => { g with crawled := c.id :: g.crawled })
      (modify fun g => { g with crawled := c.id :: g.crawled }) fun _ _ _ => True := by
    intro a g₁ hrun
    cases hrun
    have hleft : Graph.Grows env P g { g with crawled := c.id :: g.crawled } :=
      .single (.crawl g c.id)
    have hright : Graph.Grows env P g' { g' with crawled := c.id :: g'.crawled } :=
      .single (.crawl g' c.id)
    exact ⟨(), _, rfl, ⟨⟨hc.sound_grows hleft h.left, hc.sound_grows hright h.right, h.known,
      congrArg (c.id :: ·) h.crawled⟩, hleft, hright⟩, trivial⟩
  refine hmark.bind fun _ _ g₁ g₁' honward _ => ?_
  refine .foldlM honward.abreast
    (hextra.imp fun _ _ htwin => htwin.grows honward.left honward.right) ?_
  intro d hd _ _ _ _ honward' hextra'
  exact hc.inStep_includeClass hw honward'.abreast (hP d hd) hextra'

/-! ## Discovering -/

omit hw h in
/-- A class with an object or interface node in one graph has such a node in the other one. -/
theorem Coherent.uncrawled_subset (h : Graph.Abreast env P g g') (hmem : c ∈ env.uncrawled g) :
    c ∈ env.uncrawled g' := by
  obtain ⟨⟨i, node, hn, hkind, hclass⟩, hinterface, hnew⟩ := mem_uncrawled_iff.1 hmem
  obtain ⟨head, made, hP, -, -, ht⟩ := h.left.valid.origin_of_class hn hclass
  obtain ⟨-, t, ht'⟩ := (h.known _).1 ⟨hP, _, ht⟩
  have htwin := (hc.like_of_cached h.left.valid h.right.valid hP ht ht').node
  obtain ⟨node₁, node₁', hnodes⟩ := hc.nodes_of_twin h.left h.right htwin
  obtain rfl : node = node₁ := Option.some.inj (hn.symm.trans hnodes.left)
  refine mem_uncrawled_iff.2 ⟨⟨_, node₁', hnodes.right, ?_, ?_⟩, hinterface, h.crawled ▸ hnew⟩
  · rw [← hnodes.kind_eq]
    exact hkind
  · rw [← hnodes.class?_eq, hclass]

theorem Coherent.uncrawled_eq : env.uncrawled g = env.uncrawled g' :=
  eq_of_pairwise_id (hc.pairwise_uncrawled hw h.left.valid) (hc.pairwise_uncrawled hw h.right.valid)
    fun _ => ⟨hc.uncrawled_subset h, hc.uncrawled_subset h.symm⟩

theorem Coherent.inStep_discoverRounds (hvisit : ∀ l, (visit l).Perm l)
    (hvisit' : ∀ l, (visit' l).Perm l) (fuel : Nat) {extra extra' : List NodeRef}
    (hextra : List.Forall₂ (g.Twin env P g') extra extra') :
    env.InStep P g g' (env.discoverRounds visit fuel extra)
      (env.discoverRounds visit' fuel extra') List.Forall₂ := by
  induction fuel generalizing g g' extra extra' with
  | zero => exact .pure h hextra
  | succ fuel ih =>
    intro result g₁ hrun
    rw [exec_discoverRounds_succ] at hrun ⊢
    rw [← hc.uncrawled_eq hw h]
    split_ifs at hrun ⊢ with hempty
    · cases hrun
      exact ⟨extra', g', rfl, h.onward, hextra⟩
    · have hcrawl : env.InStep P g g' ((env.uncrawled g).foldlM env.crawl extra)
          ((env.uncrawled g).foldlM env.crawl extra') List.Forall₂ := by
        refine .foldlM h hextra fun c hmem _ _ _ _ honward hextra₁ => ?_
        exact hc.inStep_crawl hw honward.abreast
          (hc.subclass_of_uncrawled hw h.left.valid hmem).2.2 hextra₁
      refine hcrawl.bind (fun _ _ _ _ honward hextra₁ => ?_) result g₁ hrun
      refine (hc.inStep_realizeAll hw honward.abreast hvisit hvisit').bind
        fun _ _ _ _ honward' _ => ?_
      exact ih honward'.abreast
        (hextra₁.imp fun _ _ htwin => htwin.grows honward'.left honward'.right)

theorem Coherent.inStep_discoverImplementers (hvisit : ∀ l, (visit l).Perm l)
    (hvisit' : ∀ l, (visit' l).Perm l) :
    env.InStep P g g' (env.discoverImplementers visit) (env.discoverImplementers visit')
      List.Forall₂ :=
  hc.inStep_discoverRounds hw h hvisit hvisit' _ .nil

/-! ## Building -/

theorem Coherent.inStep_grow {query : ClassRef} {mutation : Option ClassRef}
    (hvisit : ∀ l, (visit l).Perm l) (hvisit' : ∀ l, (visit' l).Perm l)
    (hP : ∀ c ∈ query :: mutation.toList, P (.ofClass c none)) :
    env.InStep P g g' (env.grow visit query mutation) (env.grow visit' query mutation)
      fun R roots roots' => List.Forall₂ R roots.all roots'.all := by
  refine (hc.inStep_translateRoot hw h (hP query List.mem_cons_self)).bind
    fun q q' _ _ hon hq => ?_
  refine (hc.inStep_mapM_translateRoot hw hon.abreast
    fun c hmem => hP c (List.mem_cons_of_mem _ hmem)).bind fun m m' _ _ hon₁ hm => ?_
  refine (hc.inStep_realizeAll hw hon₁.abreast hvisit hvisit').bind fun _ _ _ _ hon₂ _ => ?_
  refine (hc.inStep_discoverImplementers hw hon₂.abreast hvisit hvisit').bind
    fun extra extra' _ _ hon₃ hextra => .pure hon₃.abreast ?_
  have hlater := hon₂.trans hon₃
  have hq' := hq.grows (hon₁.trans hlater).left (hon₁.trans hlater).right
  refine .cons hq' (List.rel_append ?_ hextra)
  cases hm with
  | none => exact .nil
  | some htwin => exact .cons (htwin.grows hlater.left hlater.right) .nil

end Steps

/-- Where a build succeeds in one order, it succeeds in any other, and shows the same types. -/
theorem Coherent.exists_build (hc : env.Coherent aliases P) (hw : env.WellFormed aliases)
    {query : ClassRef} {mutation : Option ClassRef} {s : Schema}
    (hvisit : ∀ l, (visit l).Perm l) (hvisit' : ∀ l, (visit' l).Perm l)
    (hP : ∀ c ∈ query :: mutation.toList, P (.ofClass c none))
    (h : (env.buildVisiting visit query mutation).exec {} = (.ok s, g)) :
    ∃ s' g', (env.buildVisiting visit' query mutation).exec {} = (.ok s', g') ∧
      s.shownTypes = s'.shownTypes := by
  rw [buildVisiting_eq] at h ⊢
  obtain ⟨roots, g₁, hgrow, h⟩ := Build.ok_of_exec_bind h
  rw [Build.exec_get_bind] at h
  obtain ⟨hclose, rfl⟩ := Build.ok_of_exec_liftM h
  obtain ⟨roots', g', hgrow', honward, hroots⟩ :=
    hc.inStep_grow hw Graph.abreast_empty hvisit hvisit' hP roots g₁ hgrow
  have hagree := hc.agree honward.abreast.left honward.abreast.right hw
    (hc.grow_spec hw hvisit hP hgrow).pending (hc.grow_spec hw hvisit' hP hgrow').pending
  obtain ⟨s', hclose', hshown⟩ := Schema.close_alike hagree hroots hclose
  refine ⟨s', g', ?_, hshown⟩
  rw [Build.exec_bind_ok hgrow', Build.exec_get_bind, hclose']
  rfl

end BuildEnv

end HintSchema
