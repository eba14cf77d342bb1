import HintSchema.Proofs.Descriptors
import HintSchema.Proofs.Translation

/-!
# Hints of classes

All hints that classes bring in are those of declarations (`BuildEnv.Declared`).  In a well-formed
environment these are of normal types over the declarations, so the resolved hints of types over the
declarations are a domain (`WellFormed.domain_typed`), and with normal supertypes of aliases those
of normal types are one (`WellFormed.domain_proper`).
-/

namespace HintSchema

variable {env : BuildEnv} {aliases : AliasTable} {ann : ResolvedHint} {c : ClassRef}

/-! ## What a class inherits -/

namespace Hierarchy

variable {h : Hierarchy}

theorem mem_defs_of_mem_lineage {p : ClassRef × ClassDef} (hp : p ∈ h.lineage c) :
    p.2 ∈ h.defs := by
  obtain ⟨a, -, ha⟩ := List.mem_filterMap.1 hp
  obtain ⟨d, hd, rfl⟩ := Option.map_eq_some_iff.1 ha
  exact mem_of_defOf? hd

theorem exists_of_mem_allHints {p : String × ClassRef × Hint} (hp : p ∈ h.allHints c) :
    ∃ d ∈ h.defs, (p.1, p.2.2) ∈ d.hints := by
  unfold allHints at hp
  have hdefs : ∀ q ∈ (h.lineage c).reverse, q.2 ∈ h.defs :=
    fun q hq => mem_defs_of_mem_lineage (List.mem_reverse.1 hq)
  generalize (h.lineage c).reverse = line at hp hdefs
  -- the hints gathered so far are left free
  have hfold : ∀ acc : List (String × ClassRef × Hint),
      p ∈ line.foldl (fun acc q =>
        Keyed.putAll acc (q.2.hints.map fun r => (r.1, q.1, r.2))) acc →
      p ∈ acc ∨ ∃ d ∈ h.defs, (p.1, p.2.2) ∈ d.hints := by
    clear hp
    induction line with
    | nil => exact fun acc hp => .inl hp
    | cons q rest ih =>
      intro acc hp
      rcases ih (fun q' hq' => hdefs q' (List.mem_cons_of_mem _ hq')) _ hp with hp | hp
      · rcases Keyed.mem_putAll hp with hp | hp
        · exact .inl hp
        · obtain ⟨r, hr, rfl⟩ := List.mem_map.1 hp
          exact .inr ⟨q.2, hdefs q List.mem_cons_self, hr⟩
      · exact .inr hp
  exact (hfold [] hp).resolve_left List.not_mem_nil

theorem mem_addNew {α : Type} {entries pairs : List (String × α)} {p : String × α}
    (hp : p ∈ addNew entries pairs) : p ∈ entries ∨ p ∈ pairs := by
  unfold addNew at hp
  induction pairs generalizing entries with
  | nil => exact .inl hp
  | cons q rest ih =>
    rw [List.foldl_cons] at hp
    rcases ih hp with hp | hp
    · split_ifs at hp
      · exact .inl hp
      · rcases List.mem_append.1 hp with hp | hp
        · exact .inl hp
        · exact .inr (List.mem_singleton.1 hp ▸ List.mem_cons_self)
    · exact .inr (List.mem_cons_of_mem _ hp)

theorem exists_of_mem_dir {p : String × Member} (hp : p ∈ h.dir c) :
    ∃ d ∈ h.defs, p ∈ d.members := by
  rw [dir, Keyed.mem_sorted] at hp
  have hdefs : ∀ q ∈ h.lineage c, q.2 ∈ h.defs := fun q hq => mem_defs_of_mem_lineage hq
  generalize h.lineage c = line at hp hdefs
  have hfold : ∀ acc : List (String × Member),
      p ∈ line.foldl (fun acc q => addNew acc q.2.members) acc →
      p ∈ acc ∨ ∃ d ∈ h.defs, p ∈ d.members := by
    clear hp
    induction line with
    | nil => exact fun acc hp => .inl hp
    | cons q rest ih =>
      intro acc hp
      rcases ih (fun q' hq' => hdefs q' (List.mem_cons_of_mem _ hq')) _ hp with hp | hp
      · rcases mem_addNew hp with hp | hp
        · exact .inl hp
        · exact .inr ⟨q.2, hdefs q List.mem_cons_self, hp⟩
      · exact .inr hp
  exact (hfold [] hp).resolve_left List.not_mem_nil

end Hierarchy

/-! ## Hints of declarations -/

namespace BuildEnv

/-- The resolved hints that declarations bring in: those of hints as they are written, perhaps made
optional for a parameter whose default is absent, and those of classes. -/
inductive Declared (env : BuildEnv) (aliases : AliasTable) : ResolvedHint → Prop
  | evaluated {hint : Hint} {e : TypeExpr} {origin : Option Origin} {ann : ResolvedHint} :
      hint.Over env.hierarchy aliases → env.ns.eval hint = .ok e →
      ResolvedHint.ofExpr (some hint) origin e = .ok ann → Declared env aliases ann
  | defaulted {hint : Hint} {e : TypeExpr} {origin : Option Origin} {ann : ResolvedHint} :
      hint.Over env.hierarchy aliases → env.ns.eval hint = .ok e →
      ResolvedHint.ofExpr (some hint) origin e.optional = .ok ann → Declared env aliases ann
  | ofClass {c : ClassRef} {origin : Option Origin} :
      env.hierarchy.Has c → Declared env aliases (.ofClass c origin)

theorem declared_of_ofHint {hint : Hint} {origin : Origin}
    (ho : hint.Over env.hierarchy aliases) (h : ResolvedHint.ofHint env.ns hint origin = .ok ann) :
    env.Declared aliases ann := by
  obtain ⟨e, he, h⟩ := ResolvedHint.ofHint_eq_ok_iff.1 h
  exact .evaluated ho he h

theorem declared_of_resolveParam {m : Method} {p : Param} {r : ResolvedParam}
    (ho : p.hint.Over env.hierarchy aliases) (h : resolveParam env.ns c m p = .ok r) :
    env.Declared aliases r.hint := by
  obtain ⟨e, ann, he, hann, rfl⟩ := resolveParam_eq_ok_iff.1 h
  unfold Param.widened at hann
  split at hann
  · exact .defaulted ho he hann
  · exact .evaluated ho he hann

/-- The hint and the arguments of a field are of declarations. -/
def DeclaredField (env : BuildEnv) (aliases : AliasTable) (f : FieldDescriptor) : Prop :=
  env.Declared aliases f.hint ∧ ∀ p ∈ f.args, env.Declared aliases p.hint

theorem declaredField_hintField {name : String} (h : env.Declared aliases ann) :
    env.DeclaredField aliases (hintField name ann) :=
  ⟨h, by simp [hintField]⟩

theorem declaredField_of_fieldOf {name : String} {member : Member} {f : FieldDescriptor}
    (ho : member.Over env.hierarchy aliases) (h : FieldOf env.ns c name member f) :
    env.DeclaredField aliases f := by
  cases h with
  | property hann => exact ⟨declared_of_ofHint ho hann, by simp⟩
  | method hargs hreturns =>
    refine ⟨declared_of_ofHint ho.1 hreturns, fun r hr => ?_⟩
    obtain ⟨p, hp, hr⟩ := exists_left_of_forall₂ hargs hr
    exact declared_of_resolveParam (ho.2 p hp) hr
  | value => exact ⟨.ofClass ho, by simp⟩

theorem declared_of_crawlHints {body : NodeBody} (ha : ann ∈ env.crawlHints body) :
    env.Declared aliases ann := by
  cases body with
  | object c | interface c =>
    rw [crawlHints] at ha
    split_ifs at ha
    · obtain ⟨d, hd, rfl⟩ := List.mem_map.1 ha
      exact .ofClass (Hierarchy.has_of_mem_subclasses hd)
    · cases ha
  | input | enum | scalar | union => cases ha

namespace WellFormed

variable (hw : env.WellFormed aliases)
include hw

theorem declared_of_resolveHints {hints : List (String × ResolvedHint)}
    (h : resolveHints env.hierarchy env.ns c = .ok hints) {p : String × ResolvedHint}
    (hp : p ∈ hints) : env.Declared aliases p.2 := by
  obtain ⟨decl, hmem, -, hann⟩ := exists_left_of_forall₂ (forall₂_of_resolveHints h) hp
  obtain ⟨d, hd, hdecl⟩ := Hierarchy.exists_of_mem_allHints hmem
  exact declared_of_ofHint ((hw.classes hd).1 _ hdecl) hann

theorem declaredField_of_describeFields {ds : List FieldDescriptor} {f : FieldDescriptor}
    (h : describeFields env.hierarchy env.ns c = .ok ds) (hf : f ∈ ds) :
    env.DeclaredField aliases f := by
  obtain ⟨hints, hhints, hcases⟩ := mem_describeFields h hf
  rcases hcases with ⟨p, hp, -, rfl⟩ | ⟨p, hp, -, -, hfield⟩
  · exact declaredField_hintField (hw.declared_of_resolveHints hhints hp)
  · obtain ⟨d, hd, hdecl⟩ := Hierarchy.exists_of_mem_dir hp
    exact declaredField_of_fieldOf ((hw.classes hd).2 _ hdecl) hfield

theorem declared_of_fieldHints (ha : ann ∈ env.fieldHints c) : env.Declared aliases ann := by
  unfold fieldHints at ha
  split at ha
  · rename_i ds hds
    obtain ⟨f, hf, ha⟩ := List.mem_flatMap.1 ha
    obtain ⟨hhint, hargs⟩ := hw.declaredField_of_describeFields hds hf
    rcases List.mem_cons.1 ha with rfl | ha
    · exact hhint
    · obtain ⟨p, hp, rfl⟩ := List.mem_map.1 ha
      exact hargs p hp
  · cases ha

theorem declared_of_inputHints (ha : ann ∈ env.inputHints c) : env.Declared aliases ann := by
  unfold inputHints at ha
  split at ha
  · rename_i hints hhints
    obtain ⟨name, -, hname⟩ := List.mem_filterMap.1 ha
    exact hw.declared_of_resolveHints hhints (Keyed.mem_of_get? hname)
  · cases ha

theorem has_of_interfaceAncestor (hc : env.hierarchy.Has c) {a : ClassRef}
    (ha : a ∈ env.interfaceAncestors c) : env.hierarchy.Has a := by
  have hmro : a ∈ env.hierarchy.mro c := List.mem_of_mem_tail (List.mem_filter.1 ha).1
  exact ((hw.hierarchy.mem_mro_iff hc).1 hmro).1

/-- What the node of a class brings in is of declarations. -/
theorem declared_of_partHints {body : NodeBody} (hc : body.class? = some c)
    (hhas : env.hierarchy.Has c) (ha : ann ∈ env.partHints body) : env.Declared aliases ann := by
  cases body with
  | object c' fields interfaces =>
    cases hc
    rcases List.mem_append.1 ha with ha | ha
    · exact hw.declared_of_fieldHints ha
    · obtain ⟨a, hmem, rfl⟩ := List.mem_map.1 ha
      exact .ofClass (hw.has_of_interfaceAncestor hhas hmem)
  | interface c' fields =>
    cases hc
    exact hw.declared_of_fieldHints ha
  | input c' fields =>
    cases hc
    exact hw.declared_of_inputHints ha
  | enum | scalar => cases ha
  | union => cases hc

end WellFormed

/-! ## Proper hints -/

/-- A resolved hint of a normal type over declarations. -/
def ProperHint (env : BuildEnv) (aliases : AliasTable) (ann : ResolvedHint) : Prop :=
  ∃ e, e.Proper env.hierarchy aliases ∧ ResolvedHint.Of e ann

theorem ProperHint.typed (h : env.ProperHint aliases ann) : env.Typed aliases ann := by
  obtain ⟨e, hp, hof⟩ := h
  exact ⟨e, hp.declared, hof⟩

theorem properHint_ofClass (hc : env.hierarchy.Has c) (origin : Option Origin) :
    env.ProperHint aliases (.ofClass c origin) :=
  ⟨.cls c, ⟨hc, trivial⟩, .cls rfl⟩

theorem properHint_of_ofExpr {raw : Option Hint} {origin : Option Origin} {e : TypeExpr}
    (he : e.Proper env.hierarchy aliases) (h : ResolvedHint.ofExpr raw origin e = .ok ann) :
    env.ProperHint aliases ann :=
  ⟨e, he, ResolvedHint.of_ofExpr h⟩

namespace WellFormed

variable (hw : env.WellFormed aliases)
include hw

theorem properHint_of_declared (h : env.Declared aliases ann) : env.ProperHint aliases ann := by
  cases h with
  | evaluated ho he hann => exact properHint_of_ofExpr (hw.proper_of_eval ho he) hann
  | defaulted ho he hann => exact properHint_of_ofExpr (hw.proper_of_eval ho he).optional hann
  | ofClass hc => exact properHint_ofClass hc _

/-! ## Domains -/

theorem has_of_typed {head : ResolvedHead} (h : env.Typed aliases (.cls head c)) :
    env.hierarchy.Has c := by
  obtain ⟨e, ho, hof⟩ := h
  generalize ha : ResolvedHint.cls head c = ann at hof
  induction hof with
  | cls hr =>
    cases ha
    exact ho
  | noneType =>
    cases ha
    exact hw.hierarchy.has_builtin ⟨_, rfl, rfl⟩
  | only _ _ ih => exact ih (TypeExpr.overAll_iff.1 ho _ List.mem_cons_self) ha
  | list | aliasOf | optional | union => cases ha

omit hw in
/-- A node is made for a class, a union or an alias. -/
theorem ownNode_cases {node : Node} (hn : env.ownNode ann = some node) :
    (∃ head c, ann = .cls head c ∧ env.classNode c = some node) ∨
    (∃ head members name, ann = .union head members ∧ node = unionNode name members) ∨
    (∃ head base s, ann = .aliasOf head base ∧ node = aliasNode (.aliasOf head base) s) := by
  cases ann with
  | cls head c => exact .inl ⟨head, c, rfl, hn⟩
  | union head members =>
    obtain ⟨name, -, rfl⟩ := Option.map_eq_some_iff.1 hn
    exact .inr (.inl ⟨head, members, name, rfl, rfl⟩)
  | aliasOf head base =>
    obtain ⟨s, -, rfl⟩ := Option.map_eq_some_iff.1 hn
    exact .inr (.inr ⟨head, base, s, rfl, rfl⟩)
  | list | optional => cases hn

theorem domain_typed : env.Domain aliases (env.Typed aliases) where
  typed h := h
  layer h hl := (hw.typed_of_layer h hl).1
  parts h hn a ha := by
    rcases ownNode_cases hn with
      ⟨head, c, rfl, hc⟩ | ⟨head, members, name, rfl, rfl⟩ | ⟨head, base, s, rfl, rfl⟩
    · have hdeclared := hw.declared_of_partHints (classNode_spec hc).1 (hw.has_of_typed h) ha
      exact (hw.properHint_of_declared hdeclared).typed
    · obtain ⟨e, ho, hof⟩ := h
      obtain ⟨es, hr, e', he', hof'⟩ := hof.member ha
      have hres := (hof.over_resolved ho).1
      rw [ResolvedHint.head, hr] at hres
      exact ⟨e', TypeExpr.overAll_iff.1 hres e' he', hof'⟩
    · cases ha
  crawl _ _ _ ha := (hw.properHint_of_declared (declared_of_crawlHints ha)).typed

theorem domain_proper (hnormal : ∀ {id name s}, aliases id = some (name, s) → s.Normal) :
    env.Domain aliases (env.ProperHint aliases) where
  typed h := h.typed
  layer h hl := by
    obtain ⟨e, hp, hof⟩ := h
    obtain ⟨e', hof', hp'⟩ := hw.of_layer_proper hnormal hof hp hl
    exact ⟨e', hp', hof'⟩
  parts h hn a ha := by
    rcases ownNode_cases hn with
      ⟨head, c, rfl, hc⟩ | ⟨head, members, name, rfl, rfl⟩ | ⟨head, base, s, rfl, rfl⟩
    · exact hw.properHint_of_declared
        (hw.declared_of_partHints (classNode_spec hc).1 (hw.has_of_typed h.typed) ha)
    · obtain ⟨e, hp, hof⟩ := h
      obtain ⟨es, hr, e', he', hof'⟩ := hof.member ha
      have hres : TypeExpr.union es = e := hr.symm.trans (hof.resolved_eq hp.normal)
      subst hres
      exact ⟨e', (hp.members e' he').1, hof'⟩
    · cases ha
  crawl _ _ _ ha := hw.properHint_of_declared (declared_of_crawlHints ha)

end WellFormed

end BuildEnv

end HintSchema
