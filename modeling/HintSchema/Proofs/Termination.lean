import HintSchema.Proofs.Construction
import HintSchema.Proofs.Denotation
import HintSchema.Proofs.Courses
import HintSchema.Proofs.Unnamed

/-!
# Builds come to an end

A build follows its course without a bound to an outcome: no loop and no evaluation of a hint is ever
stopped by its fuel (`build_terminates`).  On the way each class is crawled at most once, and each
node is realized at most once, all parts of other nodes staying as they were made.
-/

namespace HintSchema

open Relation

variable {env : BuildEnv} {aliases : AliasTable} {P : ResolvedHint → Prop} {g g' g₁ : Graph}
  {node : Node} {i id : Nat} {ids ids' : List Nat} {c query : ClassRef} {mutation : Option ClassRef}
  {visit : List Nat → List Nat}

/-! ## Walks -/

/-- A walk with enough fuel is not stopped by it. -/
theorem Schema.walks_walk (hrefs : ∀ n : NodeRef, ∀ m ∈ referencesOf g.nodes n, g.Refers m)
    {fuel : Nat} {stack : List NodeRef} {typeMap : List (String × NodeRef)}
    (hstack : ∀ n ∈ stack, g.Refers n) (hnames : Names g typeMap)
    (hfuel : stack.length + owed g.nodes typeMap < fuel) :
    Walks g.nodes stack typeMap (walk g.nodes fuel stack typeMap) := by
  induction fuel generalizing stack typeMap with
  | zero => omega
  | succ fuel ih =>
    cases stack with
    | nil => exact .done
    | cons n stack =>
      have hn := hstack n List.mem_cons_self
      have hrest : ∀ m ∈ stack, g.Refers m := fun m hm => hstack m (List.mem_cons_of_mem _ hm)
      unfold walk
      split
      · rename_i seen hseen
        split_ifs with hid
        · rw [List.length_cons] at hfuel
          exact .skip hseen hid (ih hrest hnames (by omega))
        · exact .conflict hseen hid
      · rename_i hnew
        refine .visit hnew (ih (fun m hm => ?_) (hnames.append hn hnew)
          (fuel_of_new hnames hn hnew hfuel))
        rcases List.mem_append.1 hm with hm | hm
        · exact hrefs n m hm
        · exact hrest m hm

/-! ## Nodes that are left alone -/

/-- Whether a node has none of the parts filled in that it may lack. -/
def NodeBody.isBlank : NodeBody → Bool
  | .object _ fields interfaces => fields.isNone && interfaces.isNone
  | .interface _ fields => fields.isNone
  | .input _ fields => fields.isNone
  | .union _ members => members.isNone
  | .enum .. | .scalar _ => true

namespace Graph

/-- Nodes with other numbers than some are as they were, or they are new and lack all parts. -/
def Spares (ids : List Nat) (g g' : Graph) : Prop :=
  ∀ i node, g'.nodes[i]? = some node → i ∉ ids →
    g.nodes[i]? = some node ∨ g.nodes.size ≤ i ∧ node.body.isBlank = true

theorem Grows.size_le (h : Grows env P g g') : g.nodes.size ≤ g'.nodes.size := by
  cases hsize : g.nodes.size with
  | zero => exact Nat.zero_le _
  | succ n =>
    obtain ⟨node, hn, -⟩ := h.keeps (Array.getElem?_eq_getElem (show n < g.nodes.size by omega))
    have := (Array.getElem?_eq_some_iff.1 hn).1
    omega

theorem Grows.mem_pending (h : Grows env P g g') (hid : id ∈ g'.pending) :
    id ∈ g.pending ∨ g.nodes.size ≤ id := by
  refine or_iff_not_imp_right.2 fun hlt => ?_
  obtain ⟨node', hn', hr⟩ := mem_pending_iff.1 hid
  have hn := Array.getElem?_eq_getElem (Nat.lt_of_not_le hlt)
  refine mem_pending_iff.2 ⟨_, hn, ?_⟩
  by_contra hdone
  obtain ⟨node₂, hn₂, hr₂⟩ := h.isRealized hn (by simpa using hdone)
  obtain rfl := Option.some.inj (hn'.symm.trans hn₂)
  rw [hr] at hr₂
  cases hr₂

theorem Spares.refl (ids : List Nat) (g : Graph) : Spares ids g g := fun _ _ hn _ => .inl hn

theorem Spares.mono (h : Spares ids g g') (hsub : ids ⊆ ids') : Spares ids' g g' :=
  fun i node hn hi => h i node hn fun hmem => hi (hsub hmem)

theorem Spares.trans (h : Spares ids g g₁) (h' : Spares ids g₁ g')
    (hsize : g.nodes.size ≤ g₁.nodes.size) : Spares ids g g' := by
  intro i node hn hi
  rcases h' i node hn hi with hn | ⟨hle, hblank⟩
  · exact h i node hn hi
  · exact .inr ⟨hsize.trans hle, hblank⟩

theorem isBlank_ownNode {ann : ResolvedHint} (hn : env.ownNode ann = some node) :
    node.body.isBlank = true := by
  cases ann with
  | cls head c =>
    change env.classNode c = some node at hn
    unfold BuildEnv.classNode at hn
    dsimp only at hn
    split_ifs at hn <;> cases hn <;> rfl
  | union head members =>
    obtain ⟨name, -, rfl⟩ := Option.map_eq_some_iff.1 hn
    rfl
  | aliasOf head base =>
    obtain ⟨s, -, rfl⟩ := Option.map_eq_some_iff.1 hn
    rfl
  | list | optional => cases hn

theorem Spares.grow (hblank : node.body.isBlank = true) : Spares ids g (g.grow node) := by
  intro i node' hn _
  rw [getElem?_grow] at hn
  split_ifs at hn with hi
  · obtain rfl := Option.some.inj hn
    exact .inr ⟨hi.ge, hblank⟩
  · exact .inl hn

theorem Learn.spares (h : Learn env P g g') : Spares ids g g' := by
  cases h with
  | make _ _ hown => exact Spares.grow (isBlank_ownNode hown)
  | share => exact Spares.grow rfl
  | scalar | layer => exact .refl ids g

theorem Learns.spares (h : Learns env P g g') : Spares ids g g' := by
  induction h with
  | refl => exact .refl ids g
  | tail hlearns hs ih => exact ih.trans hs.spares (Learns.grows hlearns).size_le

/-- What realizing one node does to the others. -/
inductive Touch (env : BuildEnv) (P : ResolvedHint → Prop) (id : Nat) : Graph → Graph → Prop
  | learn {g g' : Graph} : Learn env P g g' → Touch env P id g g'
  | set (g : Graph) (body : NodeBody) : Touch env P id g (g.withBody id body)

theorem Touch.spares (h : ReflTransGen (Touch env P id) g g') (hid : id ∈ ids) :
    g.nodes.size ≤ g'.nodes.size ∧ Spares ids g g' := by
  induction h with
  | refl => exact ⟨le_rfl, .refl ids g⟩
  | tail _ hs ih =>
    obtain ⟨hsize, hspares⟩ := ih
    cases hs with
    | learn hs =>
      have hgrows : Grows env P _ _ := .single (.learn hs)
      exact ⟨hsize.trans hgrows.size_le, hspares.trans hs.spares hsize⟩
    | set body =>
      refine ⟨by simpa [withBody] using hsize, hspares.trans (fun i node hn hi => .inl ?_) hsize⟩
      have hne : ¬ id = i := fun he => hi (he ▸ hid)
      rwa [getElem?_withBody, if_neg hne] at hn

end Graph

namespace BuildEnv

/-! ## What courses leave behind -/

/-- What a course that realizes some nodes leaves behind: they were pending or are new, none of them
was realized twice, other nodes were spared, and no class was crawled twice. -/
structure Leaves (env : BuildEnv) (P : ResolvedHint → Prop) (g : Graph) (ids : List Nat)
    (g' : Graph) : Prop where
  grows : Graph.Grows env P g g'
  nodup : ids.Nodup
  fresh : ∀ id ∈ ids, id ∈ g.pending ∨ g.nodes.size ≤ id
  made : ∀ id ∈ ids, id < g'.nodes.size
  spares : Graph.Spares ids g g'
  crawled : g.crawled.Nodup → g'.crawled.Nodup

theorem leaves_of_spares (hgrows : Graph.Grows env P g g') (hspares : Graph.Spares [] g g')
    (hcrawled : g.crawled.Nodup → g'.crawled.Nodup) : env.Leaves P g [] g' :=
  ⟨hgrows, List.nodup_nil, by simp, by simp, hspares, hcrawled⟩

theorem Leaves.refl (g : Graph) : env.Leaves P g [] g :=
  leaves_of_spares .refl (.refl [] g) fun h => h

theorem leaves_of_learns (h : Graph.Learns env P g g') : env.Leaves P g [] g' :=
  leaves_of_spares h.grows h.spares fun hnodup => by rwa [h.crawled]

/-- When what was realized is pending no more, it is not realized again. -/
theorem Leaves.trans (h : env.Leaves P g ids g₁) (h' : env.Leaves P g₁ ids' g')
    (hpending : ∀ id ∈ g₁.pending, id ∉ ids) : env.Leaves P g (ids ++ ids') g' where
  grows := h.grows.trans h'.grows
  nodup := by
    refine List.nodup_append.2 ⟨h.nodup, h'.nodup, ?_⟩
    rintro id hid _ hid' rfl
    rcases h'.fresh id hid' with hold | hnew
    · exact hpending id hold hid
    · have := h.made id hid
      omega
  fresh id hid := by
    rcases List.mem_append.1 hid with hid | hid
    · exact h.fresh id hid
    · rcases h'.fresh id hid with hold | hnew
      · exact h.grows.mem_pending hold
      · exact .inr (h.grows.size_le.trans hnew)
  made id hid := by
    rcases List.mem_append.1 hid with hid | hid
    · exact (h.made id hid).trans_le h'.grows.size_le
    · exact h'.made id hid
  spares := (h.spares.mono (List.subset_append_left _ _)).trans
    (h'.spares.mono (List.subset_append_right _ _)) h.grows.size_le
  crawled hnodup := h'.crawled (h.crawled hnodup)

/-- A step and what follows it go along two courses in a row. -/
theorem leaves_bind {α β : Type} {m : Course α} {f : α → Course β} {b : Build α} {k : α → Build β}
    (hm : m g ids (b.exec g)) (hleaves : env.Leaves P g ids (b.exec g).2)
    (hf : ∀ a g₁, b.exec g = (.ok a, g₁) → (∀ id ∈ g₁.pending, id ∉ ids) ∧
      ∃ ids', f a g₁ ids' ((k a).exec g₁) ∧ env.Leaves P g₁ ids' ((k a).exec g₁).2) :
    ∃ ids', Course.Then m f g ids' ((b >>= k).exec g) ∧
      env.Leaves P g ids' ((b >>= k).exec g).2 := by
  rcases hb : b.exec g with ⟨e | a, g₁⟩ <;> rw [hb] at hm hleaves
  · rw [Build.exec_bind_error hb]
    exact ⟨ids, .failed hm, hleaves⟩
  · obtain ⟨hpending, ids', hf, hleaves'⟩ := hf a g₁ hb
    rw [Build.exec_bind_ok hb]
    exact ⟨ids ++ ids', .next hm hf, hleaves.trans hleaves' hpending⟩

/-! ## Realizing -/

theorem nodup_pending (g : Graph) : g.pending.Nodup := List.nodup_range.filter _

section Realizing

variable (hd : env.Closed aliases P) (hw : env.WellFormed aliases)
include hd hw

/-- Realizing a node changes no other one. -/
theorem Closed.touches_realize (hv : Graph.Valid env P g) (id : Nat) :
    ReflTransGen (Graph.Touch env P id) g ((env.realize id).exec g).2 := by
  have hlearn : ∀ {α : Type} {m : Build α}, Build.Moves (Graph.Learn env P) m →
      Build.Moves (Graph.Touch env P id) m := fun hm => hm.mono fun _ _ => .learn
  have hset : ∀ body, Build.Moves (Graph.Touch env P id) (Graph.setBody id body) :=
    fun body => Build.moves_modify fun g => .set g body
  rw [realize, Build.exec_get_bind]
  cases hn : g.nodes[id]? with
  | none => exact .refl
  | some node =>
    have hparts := hd.partHints hv hn
    obtain ⟨name, description, body⟩ := node
    cases body with
    | object c fields interfaces =>
      have hfields := hlearn (getDM_spec (o := fields) fun _ => hd.toLayered.moves_mapFields hw
        fun a ha => hparts a (List.mem_append_left _ ha)).1
      have hinterfaces := hlearn (getDM_spec (o := interfaces) fun _ =>
        hd.toLayered.moves_mapInterfaces hw fun a ha =>
          hparts _ (List.mem_append_right _ (List.mem_map_of_mem ha))).1
      exact (hfields.bind fun _ => (hset _).bind fun _ => hinterfaces.bind fun _ => hset _) g
    | interface c fields =>
      cases fields with
      | none => exact ((hlearn (hd.toLayered.moves_mapFields hw hparts)).bind fun _ => hset _) g
      | some => exact .refl
    | input c fields =>
      cases fields with
      | none => exact ((hlearn (hd.toLayered.moves_mapInputFields hw hparts)).bind fun _ => hset _) g
      | some => exact .refl
    | union declared members =>
      cases members with
      | none =>
        have hmembers : Build.Moves (Graph.Touch env P id) (declared.mapM (env.mapMember name)) :=
          hlearn (Build.moves_mapM fun a ha => hd.toLayered.moves_mapMember hw (hparts a ha))
        exact (hmembers.bind fun _ => hset _) g
      | some => exact .refl
    | enum | scalar => exact .refl

theorem Closed.spares_forM_realize (hv : Graph.Valid env P g) (ids : List Nat) :
    Graph.Spares ids g ((ids.forM env.realize).exec g).2 := by
  induction ids generalizing g with
  | nil => exact .refl [] g
  | cons id rest ih =>
    obtain ⟨hsize, hspares⟩ :=
      Graph.Touch.spares (hd.touches_realize hw hv id) (List.mem_cons_self (l := rest))
    have hgrows := (hd.realize_spec hw hv id).grows
    rcases hr : (env.realize id).exec g with ⟨e | ⟨⟨⟩⟩, g₁⟩ <;> rw [hr] at hspares hgrows
    · have hexec : ((id :: rest).forM env.realize).exec g = (.error e, g₁) :=
        Build.exec_bind_error hr
      rw [hexec]
      exact hspares
    · have hexec : ((id :: rest).forM env.realize).exec g = (rest.forM env.realize).exec g₁ :=
        Build.exec_bind_ok hr
      rw [hexec]
      exact hspares.trans ((ih (hgrows.valid hv)).mono (List.subset_cons_self id rest))
        hgrows.size_le

/-- A round realizes each of its nodes once. -/
theorem Closed.leaves_round (hvisit : ∀ l, (visit l).Perm l) (hv : Graph.Valid env P g) :
    env.Leaves P g (visit g.pending) (((visit g.pending).forM env.realize).exec g).2 := by
  have hround := hd.forM_realize_spec hw hv (visit g.pending)
  have hpending : ∀ id ∈ visit g.pending, id ∈ g.pending := fun id => (hvisit _).mem_iff.1
  refine ⟨hround.grows, (hvisit _).nodup_iff.2 (nodup_pending g),
    fun id hid => .inl (hpending id hid), fun id hid => ?_, hd.spares_forM_realize hw hv _,
    fun hnodup => by rwa [hround.crawled]⟩
  obtain ⟨node, hn, -⟩ := Graph.mem_pending_iff.1 (hpending id hid)
  exact (Array.getElem?_eq_some_iff.1 hn).1.trans_le hround.grows.size_le

/-- Enough rounds of realizing follow the loop to its end. -/
theorem Closed.course_realizeRounds (hvisit : ∀ l, (visit l).Perm l) {rounds : Nat}
    (hv : Graph.Valid env P g) (henough : env.EnoughRounds rounds g) :
    ∃ ids, env.realizingAll visit g ids ((env.realizeRounds visit rounds).exec g) ∧
      env.Leaves P g ids ((env.realizeRounds visit rounds).exec g).2 := by
  induction rounds generalizing g with
  | zero =>
    have hpending := hd.pending_of_enoughRounds hw hv henough
    exact ⟨[], .done hpending, .refl g⟩
  | succ rounds ih =>
    rw [exec_realizeRounds_succ]
    by_cases hempty : g.pending = []
    · rw [if_pos hempty]
      exact ⟨[], .done hempty, .refl g⟩
    · rw [if_neg hempty]
      have hround := (hd.forM_realize_spec hw hv (visit g.pending)).of_perm (hvisit g.pending)
      have hleaves := hd.leaves_round hw hvisit hv
      rcases hr : ((visit g.pending).forM env.realize).exec g with ⟨e | ⟨⟨⟩⟩, g₁⟩ <;>
        rw [hr] at hround hleaves
      · rw [Build.exec_bind_error hr]
        exact ⟨visit g.pending, .failed hempty ⟨rfl, hr⟩, hleaves⟩
      · rw [Build.exec_bind_ok hr]
        obtain ⟨ids, hcourse, hleaves'⟩ := ih (hround.grows.valid hv)
          (hd.enoughRounds_of_round hw hv hround hempty henough)
        refine ⟨visit g.pending ++ ids, .next hempty ⟨rfl, hr⟩ hcourse,
          hleaves.trans hleaves' fun id hid hold => ?_⟩
        have hnew := hround.size_le hid
        obtain ⟨node, hn, -⟩ := Graph.mem_pending_iff.1 ((hvisit _).mem_iff.1 hold)
        have := (Array.getElem?_eq_some_iff.1 hn).1
        omega

/-- Realizing all nodes follows the loop to its end. -/
theorem Closed.course_realizeAll (hvisit : ∀ l, (visit l).Perm l) (hv : Graph.Valid env P g) :
    ∃ ids, env.realizingAll visit g ids ((env.realizeAll visit).exec g) ∧
      env.Leaves P g ids ((env.realizeAll visit).exec g).2 := by
  refine hd.course_realizeRounds hw hvisit hv (.inl ?_)
  have hle := env.card_unfinished_le g
  omega

end Realizing

/-! ## Discovering -/

/-- What crawling some classes leaves behind, whether it fails or not. -/
structure Crawls (env : BuildEnv) (P : ResolvedHint → Prop) (cs : List ClassRef) (g : Graph)
    (r : Except SchemaError (List NodeRef) × Graph) : Prop where
  leaves : env.Leaves P g [] r.2
  sub : g.crawled ⊆ r.2.crawled
  crawled : ∀ extra, r.1 = .ok extra → ∀ c ∈ cs, c.id ∈ r.2.crawled

section Discovering

variable (hd : env.Layered aliases P) (hw : env.WellFormed aliases)
include hd hw

theorem Layered.leaves_crawl (extra : List NodeRef) (hnew : c.id ∉ g.crawled)
    (hP : ∀ d ∈ env.hierarchy.subclasses c, P (.ofClass d none)) :
    env.Leaves P g [] ((env.crawl extra c).exec g).2 ∧
      ((env.crawl extra c).exec g).2.crawled = c.id :: g.crawled := by
  have hlearns : Graph.Learns env P { g with crawled := c.id :: g.crawled }
      ((env.crawl extra c).exec g).2 :=
    Build.moves_foldlM (fun extra d hmem => hd.moves_includeClass hw extra (hP d hmem)) extra _
  have hmark : env.Leaves P g [] { g with crawled := c.id :: g.crawled } :=
    leaves_of_spares (.single (.crawl g c.id)) (fun _ _ hn _ => .inl hn)
      fun hnodup => List.nodup_cons.2 ⟨hnew, hnodup⟩
  exact ⟨hmark.trans (leaves_of_learns hlearns) (by simp), hlearns.crawled⟩

/-- Classes that were not crawled before are crawled once each. -/
theorem Layered.crawls_foldlM (cs : List ClassRef) (extra : List NodeRef)
    (hids : cs.Pairwise (·.id < ·.id)) (hnew : ∀ c ∈ cs, c.id ∉ g.crawled)
    (hP : ∀ c ∈ cs, ∀ d ∈ env.hierarchy.subclasses c, P (.ofClass d none)) :
    env.Crawls P cs g ((cs.foldlM env.crawl extra).exec g) := by
  induction cs generalizing g extra with
  | nil => exact ⟨.refl g, fun id hid => hid, by simp⟩
  | cons c rest ih =>
    rw [List.foldlM_cons]
    obtain ⟨hlt, hids⟩ := List.pairwise_cons.1 hids
    obtain ⟨hleaves, hcrawled⟩ :=
      hd.leaves_crawl hw extra (hnew c List.mem_cons_self) (hP c List.mem_cons_self)
    rcases hc : (env.crawl extra c).exec g with ⟨e | extra₁, g₁⟩ <;> rw [hc] at hleaves hcrawled
    · rw [Build.exec_bind_error hc]
      exact ⟨hleaves, hcrawled ▸ List.subset_cons_self _ _, by simp⟩
    · rw [Build.exec_bind_ok hc]
      have hnew₁ : ∀ d ∈ rest, d.id ∉ g₁.crawled := by
        intro d hd hmem
        rw [hcrawled] at hmem
        rcases List.mem_cons.1 hmem with he | hmem
        · exact Nat.ne_of_gt (hlt d hd) he
        · exact hnew d (List.mem_cons_of_mem _ hd) hmem
      obtain ⟨hleaves', hsub, hall⟩ :=
        ih extra₁ hids hnew₁ fun d hd => hP d (List.mem_cons_of_mem _ hd)
      have hsub₁ : c.id :: g.crawled ⊆ _ := hcrawled ▸ hsub
      refine ⟨hleaves.trans hleaves' (by simp),
        List.Subset.trans (List.subset_cons_self _ _) hsub₁, fun extra' hok d hd => ?_⟩
      rcases List.mem_cons.1 hd with rfl | hd
      · exact hsub₁ List.mem_cons_self
      · exact hall extra' hok d hd

end Discovering

/-- A round of discovery. -/
def discoverRound (env : BuildEnv) (visit : List Nat → List Nat) (extra : List NodeRef)
    (cs : List ClassRef) : Build (List NodeRef) := do
  let extra ← cs.foldlM env.crawl extra
  env.realizeAll visit
  return extra

section Rounds

variable (hd : env.Domain aliases P) (hw : env.WellFormed aliases)
include hd hw

/-- A round of discovery is followed to its end, and leaves fewer classes that wait. -/
theorem Domain.course_discoverRound (hvisit : ∀ l, (visit l).Perm l) (extra : List NodeRef)
    (hv : Graph.Valid env P g) :
    (∃ ids, Course.Then (.of ((env.uncrawled g).foldlM env.crawl extra)) (fun extra =>
        Course.Then (env.realizingAll visit) fun _ => .of (pure extra)) g ids
          ((env.discoverRound visit extra (env.uncrawled g)).exec g) ∧
      env.Leaves P g ids ((env.discoverRound visit extra (env.uncrawled g)).exec g).2) ∧
    ∀ extra' g', (env.discoverRound visit extra (env.uncrawled g)).exec g = (.ok extra', g') →
      env.uncrawled g ≠ [] → g'.pending = [] ∧ (env.waiting g').card < (env.waiting g).card := by
  have hsubs := fun c hc => hd.subclass_of_uncrawled hw (c := c) hv hc
  have hcrawls := hd.crawls_foldlM hw _ extra (hd.pairwise_uncrawled hw hv)
    (fun c hc => (mem_uncrawled_iff.1 hc).2.2) fun c hc => (hsubs c hc).2.2
  refine ⟨leaves_bind ⟨rfl, rfl⟩ hcrawls.leaves fun extra₁ g₁ h₁ => ⟨by simp, ?_⟩,
    fun extra' g' h hne => ?_⟩
  · rw [h₁] at hcrawls
    obtain ⟨ids, hcourse, hleaves⟩ :=
      hd.course_realizeAll hw hvisit (hcrawls.leaves.grows.valid hv)
    refine leaves_bind hcourse hleaves fun _ g₂ h₂ => ⟨fun id hid => ?_, [], ⟨rfl, rfl⟩, .refl g₂⟩
    have hdone := (hd.realizeAll_spec hw hvisit (hcrawls.leaves.grows.valid hv)).2.2
    rw [h₂] at hdone
    rw [hdone rfl] at hid
    cases hid
  · obtain ⟨extra₁, g₁, h₁, h⟩ := Build.ok_of_exec_bind h
    obtain ⟨⟨⟩, g₂, h₂, h⟩ := Build.ok_of_exec_bind h
    cases h
    rw [h₁] at hcrawls
    have hround := hd.realizeAll_spec hw hvisit (hcrawls.leaves.grows.valid hv)
    rw [h₂] at hround
    obtain ⟨-, hsame, hdone⟩ := hround
    obtain ⟨c, hc⟩ := List.exists_mem_of_ne_nil _ hne
    exact ⟨hdone rfl, card_waiting_lt (hsame ▸ hcrawls.sub) (hsubs c hc).1 hc
      (hsame ▸ hcrawls.crawled _ rfl c hc)⟩

/-- Rounds of discovery with enough fuel follow the loop to its end. -/
theorem Domain.course_discoverRounds (hvisit : ∀ l, (visit l).Perm l) {fuel : Nat}
    (extra : List NodeRef) (hv : Graph.Valid env P g)
    (hfuel : (env.waiting g).card < fuel) :
    ∃ ids, env.discovering visit extra g ids ((env.discoverRounds visit fuel extra).exec g) ∧
      env.Leaves P g ids ((env.discoverRounds visit fuel extra).exec g).2 := by
  induction fuel generalizing g extra with
  | zero => omega
  | succ fuel ih =>
    rw [exec_discoverRounds_succ]
    by_cases hempty : env.uncrawled g = []
    · rw [if_pos hempty]
      exact ⟨[], .done hempty, .refl g⟩
    · rw [if_neg hempty]
      obtain ⟨⟨ids, hcourse, hleaves⟩, hok⟩ := hd.course_discoverRound hw hvisit extra hv
      have hassoc : (env.uncrawled g).foldlM env.crawl extra >>= (fun extra =>
          env.realizeAll visit >>= fun _ => env.discoverRounds visit fuel extra) =
          env.discoverRound visit extra (env.uncrawled g) >>= env.discoverRounds visit fuel := by
        simp only [discoverRound, bind_assoc, pure_bind]
      rw [hassoc]
      rcases hr : (env.discoverRound visit extra (env.uncrawled g)).exec g with ⟨e | extra₁, g₁⟩ <;>
        rw [hr] at hcourse hleaves
      · rw [Build.exec_bind_error hr]
        exact ⟨ids, .failed hempty hcourse, hleaves⟩
      · rw [Build.exec_bind_ok hr]
        obtain ⟨hpending₁, hlt⟩ := hok extra₁ g₁ hr hempty
        obtain ⟨ids', hcourse', hleaves'⟩ :=
          ih extra₁ (hleaves.grows.valid hv) (hlt.trans_le (Nat.le_of_lt_succ hfuel))
        exact ⟨ids ++ ids', .next hempty hcourse hcourse',
          hleaves.trans hleaves' (by simp [hpending₁])⟩

theorem Domain.course_discoverImplementers (hvisit : ∀ l, (visit l).Perm l)
    (hv : Graph.Valid env P g) :
    ∃ ids, env.discovering visit [] g ids ((env.discoverImplementers visit).exec g) ∧
      env.Leaves P g ids ((env.discoverImplementers visit).exec g).2 :=
  hd.course_discoverRounds hw hvisit [] hv (Nat.lt_succ_of_le
    ((Finset.card_filter_le _ _).trans (Finset.card_range _).le))

end Rounds

/-! ## Building -/

section Building

variable (hd : env.Domain aliases P) (hw : env.WellFormed aliases)
include hd hw

/-- Closing a schema over the types of a graph without pending nodes walks to the end. -/
theorem Domain.course_close {roots : Roots} (hg : env.Grown P query mutation roots g) :
    closing roots.query roots.mutation roots.extra g []
      ((do Schema.close (← get).nodes roots.query roots.mutation roots.extra : Build Schema).exec
        g) := by
  rw [Build.exec_get_bind, Build.exec_liftM]
  refine ⟨rfl, _, Schema.walks_walk (hd.refers_of_reference hw hg.valid hg.pending) hg.refers
    ⟨by simp, by simp, by simp [Keyed.keys]⟩ (Schema.lt_walkBound _ _), ?_⟩
  rw [Schema.close]
  generalize Schema.walk _ _ _ _ = r
  cases r <;> rfl

/-- A build is followed to its end. -/
theorem Domain.course_build (hvisit : ∀ l, (visit l).Perm l)
    (hroots : ∀ c ∈ query :: mutation.toList, P (.ofClass c none)) :
    ∃ ids, env.building visit query mutation {} ids
        ((env.buildVisiting visit query mutation).exec {}) ∧
      env.Leaves P {} ids ((env.buildVisiting visit query mutation).exec {}).2 := by
  have hquery : Build.Moves (Graph.Learn env P) (env.translateRoot "query" query) :=
    hd.moves_translateRoot hw (hroots query List.mem_cons_self)
  have hmutation : Build.Moves (Graph.Learn env P) (mutation.mapM (env.translateRoot "mutation")) :=
    hd.moves_mapM_translateRoot hw fun c hc => hroots c (List.mem_cons_of_mem _ hc)
  refine leaves_bind ⟨rfl, rfl⟩ (leaves_of_learns (hquery {})) fun q g₁ h₁ => ⟨by simp, ?_⟩
  refine leaves_bind ⟨rfl, rfl⟩ (leaves_of_learns (hmutation g₁)) fun m g₂ h₂ => ⟨by simp, ?_⟩
  have hlearns : Graph.Learns env P {} g₂ := (hquery.of_exec h₁).trans (hmutation.of_exec h₂)
  have hv₂ := hlearns.grows.valid Graph.valid_empty
  obtain ⟨ids, hcourse, hleaves⟩ := hd.course_realizeAll hw hvisit hv₂
  refine leaves_bind hcourse hleaves fun _ g₃ h₃ => ?_
  have hround := hd.realizeAll_spec hw hvisit hv₂
  rw [h₃] at hround
  obtain ⟨hgrows, -, hdone⟩ := hround
  have hpending := hdone rfl
  refine ⟨by simp [hpending], ?_⟩
  obtain ⟨ids', hcourse', hleaves'⟩ :=
    hd.course_discoverImplementers hw hvisit (hgrows.valid hv₂)
  refine leaves_bind hcourse' hleaves' fun extra g₄ h₄ => ?_
  have hgrow : (env.grow visit query mutation).exec {} = (.ok ⟨q, m, extra⟩, g₄) := by
    rw [grow, Build.exec_bind_ok h₁, Build.exec_bind_ok h₂, Build.exec_bind_ok h₃,
      Build.exec_bind_ok h₄]
    rfl
  have hg := hd.grow_spec hw hvisit hroots hgrow
  exact ⟨by simp [hg.pending], [], hd.course_close hw hg, .refl g₄⟩

end Building

/-- Whatever the declared classes and the bindings are, a build comes to an end.  All hints are
evaluated without regard to fuel.  The outcome of the build is the only one that its course can have
when rounds of realizing go on until nothing is pending, rounds of discovery until nothing is
uncrawled, and walks until their stack is empty.  The nodes that are realized on the way are realized
once, nothing is filled in in other nodes, and no class is crawled twice. -/
theorem build_terminates (hw : env.WellFormed aliases) (hvisit : ∀ l, (visit l).Perm l)
    (hroots : ∀ c ∈ query :: mutation.toList, env.hierarchy.Has c) :
    (∀ hint, env.ns.Evaluates 0 hint (env.ns.eval hint)) ∧
    ∃ ids r g, (env.buildVisiting visit query mutation).exec {} = (r, g) ∧
      (∀ ids' r', env.building visit query mutation {} ids' r' ↔ ids' = ids ∧ r' = (r, g)) ∧
      ids.Nodup ∧ (∀ i node, g.nodes[i]? = some node → i ∉ ids → node.body.isBlank = true) ∧
      g.crawled.Nodup ∧ (∀ s, r = .ok s → g.pending = [] ∧ env.uncrawled g = []) := by
  have hclass : ∀ c ∈ query :: mutation.toList, env.Typed aliases (.ofClass c none) :=
    fun c hc => ⟨.cls c, hroots c hc, .cls rfl⟩
  refine ⟨Namespace.evaluates_eval env.ns, ?_⟩
  obtain ⟨ids, hcourse, hleaves⟩ := hw.domain_typed.course_build hw hvisit hclass
  rcases hr : (env.buildVisiting visit query mutation).exec {} with ⟨r, g⟩
  rw [hr] at hcourse hleaves
  refine ⟨ids, r, g, rfl, fun ids' r' => ⟨fun h => ?_, ?_⟩, hleaves.nodup, fun i node hn hi => ?_,
    hleaves.crawled List.nodup_nil, ?_⟩
  · exact building_unique query mutation _ _ _ _ _ h hcourse
  · rintro ⟨rfl, rfl⟩
    exact hcourse
  · rcases hleaves.spares i node hn hi with hold | ⟨-, hblank⟩
    · simp at hold
    · exact hblank
  · rintro s rfl
    have hbuilt := hw.domain_typed.build_spec hw hvisit hclass hr
    exact ⟨hbuilt.pending, hbuilt.uncrawled⟩

/-- A further binding leaves an environment well-formed when what it mentions is declared. -/
theorem WellFormed.bind {name : String} {hint : Hint} (hw : env.WellFormed aliases)
    (hover : hint.Over env.hierarchy aliases) :
    WellFormed { env with ns := env.ns.bind name hint } aliases where
  hierarchy := hw.hierarchy
  identifier := hw.identifier
  supertypes := hw.supertypes
  bindings {other _} h := by
    change Keyed.get? (Keyed.put env.ns.bindings name hint) other = _ at h
    rw [Keyed.get?_put] at h
    split_ifs at h
    · exact Option.some.inj h ▸ hover
    · exact hw.bindings h
  classes := hw.classes

end BuildEnv

namespace Sample

/-- The town with a name that stands for itself. -/
def loopEnv : BuildEnv := { townEnv with ns := townNames.bind "Loop" (.text "Loop") }

theorem wellFormed_loop : loopEnv.WellFormed Sample.aliases :=
  wellFormed_town.bind trivial

theorem build_terminates_town :
    (∀ hint, loopEnv.ns.Evaluates 0 hint (loopEnv.ns.eval hint)) ∧
    ∃ ids r g, (loopEnv.buildVisiting List.reverse town none).exec {} = (r, g) ∧
      (∀ ids' r', loopEnv.building List.reverse town none {} ids' r' ↔ ids' = ids ∧ r' = (r, g)) ∧
      ids.Nodup ∧ (∀ i node, g.nodes[i]? = some node → i ∉ ids → node.body.isBlank = true) ∧
      g.crawled.Nodup ∧ (∀ s, r = .ok s → g.pending = [] ∧ loopEnv.uncrawled g = []) :=
  BuildEnv.build_terminates wellFormed_loop List.reverse_perm (Hierarchy.has_of_root ⟨_, rfl, rfl⟩)

end Sample

end HintSchema
