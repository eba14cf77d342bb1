import HintSchema.Proofs.Following

/-!
# Builds in lockstep

Environments match when their classes have the same nodes and relations and their fields resolve to
hints that match (`BuildEnv.Matches`).  The build in the second environment then does what the build
in the first one does, step by step, as long as that one does not fail: it makes the same types in
the same places, so where the first build gives a schema, the second gives one that shows the same
types (`BuildEnv.Matches.exists_build`).
-/

namespace HintSchema

/-! ## Environments that match -/

/-- Parameters of one name and default with hints that match. -/
structure ResolvedParam.Matches (a a' : ResolvedParam) : Prop where
  name : a.name = a'.name
  hint : a.hint.Matches a'.hint
  default : a.default = a'.default

/-- Fields that are made of hints that match, and differ in how their values are found besides. -/
structure FieldDescriptor.Matches (f f' : FieldDescriptor) : Prop where
  name : f.name = f'.name
  hint : f.hint.Matches f'.hint
  args : List.Forall₂ ResolvedParam.Matches f.args f'.args
  description : f.description = f'.description
  source : f.source = f'.source

/-- Environments whose classes have the same nodes and stand in the same relations; where the hints of
a class resolve in the first one, they resolve in the second one, to hints that match. -/
structure BuildEnv.Matches (env env' : BuildEnv) : Prop where
  scalars : env.scalars = env'.scalars
  length : env.hierarchy.defs.length = env'.hierarchy.defs.length
  classNode : ∀ c, env.classNode c = env'.classNode c
  isObject : ∀ c, env.hierarchy.isObject c = env'.hierarchy.isObject c
  isInterface : ∀ c, env.hierarchy.isInterface c = env'.hierarchy.isInterface c
  mro : ∀ c, env.hierarchy.mro c = env'.hierarchy.mro c
  fields : ∀ c, env.hierarchy.fields c = env'.hierarchy.fields c
  subclasses : ∀ c, env.hierarchy.subclasses c = env'.hierarchy.subclasses c
  described : ∀ c, Yields (List.Forall₂ FieldDescriptor.Matches)
    (describeFields env.hierarchy env.ns c) (describeFields env'.hierarchy env'.ns c)
  resolved : ∀ c, Yields (Keyed.Alike ResolvedHint.Matches) (resolveHints env.hierarchy env.ns c)
    (resolveHints env'.hierarchy env'.ns c)

namespace BuildEnv.Matches

open Build

variable {env env' : BuildEnv} {ann ann' : ResolvedHint} {c : ClassRef}
  {visit : List Nat → List Nat} {query : ClassRef} {mutation : Option ClassRef} {s : Schema}
  {g : Graph}

/-! ### Translating -/

theorem follows_add {node node' : Node} (h : node.Matches node') :
    Follows Eq (Graph.add node) (Graph.add node') := by
  intro g g' hg n g₁ hn
  cases hn
  exact ⟨_, _, rfl, hg.push h, by rw [hg.size_eq, h.refAt_eq]⟩

theorem follows_setBody {b b' : NodeBody} (id : Nat) (h : b.Matches b') :
    Follows Eq (Graph.setBody id b) (Graph.setBody id b') :=
  follows_modify fun hg => hg.setBody id h

theorem follows_mapScalar (c : ClassRef) (s : ScalarType) :
    Follows Eq (mapScalar c s) (mapScalar c s) := by
  refine follows_get.bind fun {g g'} hg => ?_
  rw [hg.scalarNode?_eq c]
  cases g'.scalarNode? c with
  | some n => exact follows_pure rfl
  | none =>
    have hscalar : Follows Eq (Graph.addScalar c s) (Graph.addScalar c s) := by
      refine (follows_add (.refl s.node)).bind fun {n n'} hn => ?_
      subst hn
      refine (follows_modify fun hg => ?_).bind fun _ => follows_pure rfl
      exact ⟨hg.nodes, hg.memo, by rw [hg.scalarNodes], hg.crawled⟩
    exact hscalar.bind fun hn => follows_pure (congrArg TypeRef.named hn)

/-- What is remembered under one key is the same, and otherwise is made in step. -/
theorem follows_memoized {make make' : Build TypeRef} (hkey : ann.key = ann'.key)
    (hnamed : Named ann → Named ann') (hmake : Follows Eq make make') :
    Follows Eq (memoized ann make) (memoized ann' make') := by
  intro g g' hg t g₁ ht
  cases hcached : g.cached ann with
  | some t₀ =>
    have hsame : ((memoized ann make).exec g).2 = g := (exec_memoized_hit hcached).1
    have hok : ((memoized ann make).exec g).1 = .ok t → t = t₀ ∧ Named ann :=
      (exec_memoized_hit hcached).2.1 t
    rw [ht] at hsame hok
    obtain ⟨rfl, hn⟩ := hok rfl
    obtain rfl : g₁ = g := hsame
    have hcached' := hg.cached_eq hkey ▸ hcached
    exact ⟨t, g', (exec_memoized_hit hcached').2.2 (hnamed hn), hg, rfl⟩
  | none =>
    rw [memoized, exec_get_bind, hcached] at ht
    obtain ⟨t₀, g₀, hrun, ht⟩ := ok_of_exec_bind ht
    cases ht
    obtain ⟨t', g₀', hrun', hg₀, rfl⟩ := hmake g g' hg t g₀ hrun
    have hcached' := hg.cached_eq hkey ▸ hcached
    exact ⟨t, _, exec_memoized_ok hcached' hrun', hkey ▸ hg₀.withMemo ann.key t, rfl⟩

variable (henv : env.Matches env')
include henv

theorem follows_mapClass (c : ClassRef) :
    Follows Eq (env.mapClass ann c) (env'.mapClass ann' c) := by
  unfold mapClass
  rw [← henv.classNode c, ← henv.scalars]
  cases env.classNode c with
  | some node =>
    exact (follows_add (.refl node)).bind fun hn => follows_pure (congrArg TypeRef.named hn)
  | none =>
    cases env.scalars.lookup c with
    | some s => exact follows_mapScalar c s
    | none => exact follows_throw _

theorem aliasedScalar_eq (h : ann.Matches ann') : env.aliasedScalar ann = env'.aliasedScalar ann' := by
  cases h with
  | cls => rw [aliasedScalar, aliasedScalar, henv.scalars]
  | list | optional | aliasOf | named | unnamed => rfl

/-- Hints that match are translated to the same type. -/
theorem follows_translate (h : ann.Matches ann') :
    Follows Eq (env.translate ann) (env'.translate ann') := by
  induction h with
  | cls hkey =>
    rw [translate_cls, translate_cls]
    refine follows_memoized hkey (fun _ => trivial) ((henv.follows_mapClass _).bind fun ht => ?_)
    exact follows_pure (congrArg TypeRef.nonNull ht)
  | list hkey _ ih =>
    rw [translate_list, translate_list]
    refine follows_memoized hkey (fun _ => trivial) (ih.bind fun ht => ?_)
    exact follows_pure (by rw [ht])
  | optional hkey _ ih =>
    rw [translate_optional, translate_optional]
    refine follows_memoized hkey (fun _ => trivial) (ih.bind fun ht => ?_)
    exact follows_pure (by rw [ht])
  | @aliasOf head head' base base' hres hbase ih =>
    rw [translate_aliasOf, translate_aliasOf, henv.aliasedScalar_eq hbase]
    refine follows_memoized (congrArg TypeExpr.key hres) (fun _ => trivial) ?_
    cases env'.aliasedScalar base' with
    | some s =>
      have hnode : aliasNode (.aliasOf head base) s = aliasNode (.aliasOf head' base') s := by
        rw [aliasNode, aliasNode, aliasName, aliasName, ResolvedHint.head, ResolvedHint.head, hres]
      dsimp only
      rw [hnode]
      exact (follows_add (.refl _)).bind fun hn => follows_pure (by rw [hn])
    | none => exact ih.bind fun ht => follows_pure (by rw [ht])
  | @named head head' members members' name hkey hname hname' hlen hmembers =>
    rw [translate_union, translate_union]
    refine follows_memoized hkey (fun _ => ⟨name, hname'⟩) ?_
    have hnode : (unionNode name members).Matches (unionNode name members') :=
      ⟨rfl, .union (List.forall₂_iff_zip.2 ⟨hlen, hmembers⟩)⟩
    have hunion : Follows Eq (mapUnion (.union head members) members)
        (mapUnion (.union head' members') members') := by
      unfold mapUnion
      rw [hname, hname']
      exact (follows_add hnode).bind fun hn => follows_pure (congrArg TypeRef.named hn)
    exact hunion.bind fun ht => follows_pure (congrArg TypeRef.nonNull ht)
  | unnamed hname =>
    intro g g' hg t g₁ ht
    rw [exec_translate_unnamed hname g] at ht
    cases ht

theorem follows_translateNullable (h : ann.Matches ann') :
    Follows Eq (env.translateNullable ann) (env'.translateNullable ann') :=
  (henv.follows_translate h).bind fun ht => follows_pure (congrArg TypeRef.nullable ht)

theorem follows_translateClass (c : ClassRef) :
    Follows Eq (env.translateClass c) (env'.translateClass c) :=
  henv.follows_translateNullable (.refl _)

/-! ### Realizing -/

theorem follows_mapArg {a a' : ResolvedParam} (h : a.Matches a') :
    Follows Eq (env.mapArg a) (env'.mapArg a') :=
  (henv.follows_translate h.hint).bind fun ht =>
    follows_pure (by rw [h.name, h.default, ht])

theorem follows_mapField {f f' : FieldDescriptor} (h : f.Matches f') :
    Follows (fun p q => p.1 = q.1 ∧ FieldDef.Matches p.2 q.2) (env.mapField f) (env'.mapField f') := by
  refine (henv.follows_translate h.hint).bind fun {t t'} ht => ?_
  refine (follows_mapM h.args henv.follows_mapArg).bind fun {args args'} hargs => ?_
  obtain rfl : args = args' := List.forall₂_eq_eq_eq ▸ hargs
  exact follows_pure ⟨h.name, h.name, h.description, ht, rfl, h.source⟩

theorem follows_mapFields (c : ClassRef) :
    Follows (Keyed.Alike FieldDef.Matches) (env.mapFields c) (env'.mapFields c) := by
  refine (follows_liftM (henv.described c)).bind fun hdescriptors => ?_
  exact (follows_mapM hdescriptors henv.follows_mapField).bind fun hfields =>
    follows_pure (Keyed.forall₂_ofList hfields)

theorem follows_mapInputField {hints hints' : List (String × ResolvedHint)}
    (h : Keyed.Alike ResolvedHint.Matches hints hints') (c : ClassRef) (name : String) :
    Follows Eq (env.mapInputField c hints name) (env'.mapInputField c hints' name) := by
  have hhint := h.rel_get? name
  unfold mapInputField
  generalize Keyed.get? hints name = o at hhint ⊢
  generalize Keyed.get? hints' name = o' at hhint ⊢
  cases hhint with
  | some hmatch =>
    exact (henv.follows_translate hmatch).bind fun ht => follows_pure (by rw [ht])
  | none => exact follows_throw _

theorem follows_mapInputFields (c : ClassRef) :
    Follows (List.Forall₂ Eq) (env.mapInputFields c) (env'.mapInputFields c) := by
  refine (follows_liftM (henv.resolved c)).bind fun hhints => ?_
  rw [henv.fields c]
  refine follows_mapM (V := Eq) (List.forall₂_refl _) fun {name name'} hname => ?_
  rw [hname]
  exact henv.follows_mapInputField hhints c name'

theorem follows_mapInterfaces (c : ClassRef) :
    Follows Eq (env.mapInterfaces c) (env'.mapInterfaces c) := by
  unfold mapInterfaces
  dsimp only
  rw [henv.mro c, funext henv.isInterface, funext henv.isObject]
  refine follows_filterMapM fun a => (henv.follows_translateClass a).bind fun {t t'} ht => ?_
  subst ht
  cases t with
  | named n => exact follows_pure rfl
  | list | nonNull => exact follows_pure rfl

theorem follows_mapMember (union : String) (h : ann.Matches ann') :
    Follows Eq (env.mapMember union ann) (env'.mapMember union ann') := by
  refine (henv.follows_translateNullable h).bind fun {t t'} ht => ?_
  subst ht
  cases t with
  | named n =>
    dsimp only
    split_ifs
    · exact follows_pure rfl
    · exact follows_throw _
  | list | nonNull => exact follows_throw _

theorem follows_realize (id : Nat) : Follows Eq (env.realize id) (env'.realize id) := by
  refine follows_get.bind fun {g g'} hg => ?_
  have hnode := hg.rel_node id
  generalize g.nodes[id]? = o at hnode ⊢
  generalize g'.nodes[id]? = o' at hnode ⊢
  cases hnode with
  | none => exact follows_pure rfl
  | @some node node' hnode =>
    obtain ⟨name, description, body⟩ := node
    obtain ⟨name', description', body'⟩ := node'
    obtain rfl : name = name' := hnode.name
    have hbody : body.Matches body' := hnode.body
    cases hbody with
    | @object c fields fields' interfaces hfields =>
      refine (follows_getDM hfields (henv.follows_mapFields c)).bind fun hfields => ?_
      refine (follows_setBody id (.object (.some hfields))).bind fun _ => ?_
      have hinterfaces : Option.Rel Eq interfaces interfaces := by
        cases interfaces with
        | none => exact .none
        | some => exact .some rfl
      refine (follows_getDM hinterfaces (henv.follows_mapInterfaces c)).bind fun {ns ns'} hns => ?_
      subst hns
      exact follows_setBody id (.object (.some hfields))
    | @interface c fields fields' hfields =>
      cases hfields with
      | some => exact follows_pure rfl
      | none =>
        exact (henv.follows_mapFields c).bind fun hfields =>
          follows_setBody id (.interface (.some hfields))
    | @input c fields =>
      cases fields with
      | some => exact follows_pure rfl
      | none =>
        refine (henv.follows_mapInputFields c).bind fun {fields fields'} hfields => ?_
        obtain rfl : fields = fields' := List.forall₂_eq_eq_eq ▸ hfields
        exact follows_setBody id .input
    | enum | scalar => exact follows_pure rfl
    | @union declared declared' members hdeclared =>
      cases members with
      | some => exact follows_pure rfl
      | none =>
        refine (follows_mapM hdeclared (henv.follows_mapMember name)).bind fun {ms ms'} hms => ?_
        obtain rfl : ms = ms' := List.forall₂_eq_eq_eq ▸ hms
        exact follows_setBody id (.union hdeclared)

theorem follows_realizeRounds (fuel : Nat) :
    Follows Eq (env.realizeRounds visit fuel) (env'.realizeRounds visit fuel) := by
  induction fuel with
  | zero => exact follows_pure rfl
  | succ fuel ih =>
    refine follows_get.bind fun {g g'} hg => ?_
    rw [hg.pending_eq]
    dsimp only
    split_ifs
    · exact follows_pure rfl
    · exact (follows_forM henv.follows_realize).bind fun _ => ih

theorem follows_realizeAll : Follows Eq (env.realizeAll visit) (env'.realizeAll visit) := by
  unfold realizeAll
  rw [henv.length]
  exact henv.follows_realizeRounds _

/-! ### Including subclasses -/

theorem uncrawled_eq {g g' : Graph} (hg : g.Matches g') : env.uncrawled g = env'.uncrawled g' := by
  unfold uncrawled
  rw [hg.filterMap_eq fun {n n'} hn => ?_, funext henv.isInterface, hg.crawled]
  obtain ⟨_, _, body⟩ := n
  obtain ⟨_, _, body'⟩ := n'
  cases hn.body <;> rfl

theorem follows_includeClass (extra : List NodeRef) (c : ClassRef) :
    Follows Eq (env.includeClass extra c) (env'.includeClass extra c) := by
  refine (henv.follows_translateClass c).bind fun {t t'} ht => ?_
  subst ht
  cases t with
  | named => exact follows_pure rfl
  | list | nonNull => exact follows_pure rfl

theorem follows_crawl (extra : List NodeRef) (c : ClassRef) :
    Follows Eq (env.crawl extra c) (env'.crawl extra c) := by
  refine (follows_modify fun hg => ?_).bind fun _ => ?_
  · exact ⟨hg.nodes, hg.memo, hg.scalarNodes, by rw [hg.crawled]⟩
  · rw [henv.subclasses c]
    exact follows_foldlM henv.follows_includeClass extra

theorem follows_discoverRounds (fuel : Nat) (extra : List NodeRef) :
    Follows Eq (env.discoverRounds visit fuel extra) (env'.discoverRounds visit fuel extra) := by
  induction fuel generalizing extra with
  | zero => exact follows_pure rfl
  | succ fuel ih =>
    refine follows_get.bind fun {g g'} hg => ?_
    rw [henv.uncrawled_eq hg]
    dsimp only
    split_ifs
    · exact follows_pure rfl
    · refine (follows_foldlM henv.follows_crawl extra).bind fun {extra₁ extra₁'} hextra => ?_
      subst hextra
      exact henv.follows_realizeAll.bind fun _ => ih extra₁

theorem follows_discoverImplementers :
    Follows Eq (env.discoverImplementers visit) (env'.discoverImplementers visit) := by
  unfold discoverImplementers
  rw [henv.length]
  exact henv.follows_discoverRounds _ _

/-! ### Building -/

theorem follows_translateRoot (role : String) (c : ClassRef) :
    Follows Eq (env.translateRoot role c) (env'.translateRoot role c) := by
  refine (henv.follows_translateClass c).bind fun {t t'} ht => ?_
  subst ht
  cases t with
  | named n =>
    dsimp only
    split_ifs
    · exact follows_pure rfl
    · exact follows_throw _
  | list | nonNull => exact follows_throw _

/-- The build in the second environment follows the one in the first, and shows the same types. -/
theorem follows_buildVisiting :
    Follows (fun s s' => s.shownTypes = s'.shownTypes) (env.buildVisiting visit query mutation)
      (env'.buildVisiting visit query mutation) := by
  refine (henv.follows_translateRoot "query" query).bind fun {q q'} hq => ?_
  subst hq
  have hmutation : Follows Eq (mutation.mapM (env.translateRoot "mutation"))
      (mutation.mapM (env'.translateRoot "mutation")) := by
    cases mutation with
    | none => exact follows_pure rfl
    | some c =>
      rw [Option.mapM_some, Option.mapM_some, map_eq_pure_bind, map_eq_pure_bind]
      exact (henv.follows_translateRoot "mutation" c).bind fun hn => follows_pure (by rw [hn])
  refine hmutation.bind fun {m m'} hm => ?_
  subst hm
  refine henv.follows_realizeAll.bind fun _ => ?_
  refine henv.follows_discoverImplementers.bind fun {extra extra'} hextra => ?_
  subst hextra
  exact follows_get.bind fun hg => follows_liftM fun s hs => Schema.exists_close hg hs

/-- Where the first build gives a schema, the second one gives a schema that shows the same types. -/
theorem exists_build (h : (env.buildVisiting visit query mutation).exec {} = (.ok s, g)) :
    ∃ s' g', (env'.buildVisiting visit query mutation).exec {} = (.ok s', g') ∧
      s.shownTypes = s'.shownTypes := by
  obtain ⟨s', g', h', -, hshown⟩ := henv.follows_buildVisiting {} {} .empty s g h
  exact ⟨s', g', h', hshown⟩

end BuildEnv.Matches

end HintSchema
