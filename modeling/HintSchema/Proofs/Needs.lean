import HintSchema.Proofs.Standing

/-!
# Needed classes

`BuildEnv.Needed` is the least set of classes that a build of a schema makes types for, and
`BuildEnv.Listed` the least set of those whose types the schema lists; the two only differ where a
method repeats the name of a parameter (`Needed.listed`).  Hints that mention needed classes only
are a domain (`WellFormed.domain_needed`).
-/

namespace HintSchema

variable {env : BuildEnv} {aliases : AliasTable} {ann : ResolvedHint} {c d query : ClassRef}
  {mutation : Option ClassRef}

namespace BuildEnv

/-! ## Needed and listed classes -/

/-- The hints of the fields of the type of a class, given those of the output fields of classes. -/
def ownHints (env : BuildEnv) (fields : ClassRef → List ResolvedHint) (c : ClassRef) :
    List ResolvedHint :=
  match env.hierarchy.kind? c with
  | some .object | some .interface => fields c
  | some .input => env.inputHints c
  | _ => []

/-- The classes that a build makes types for: the roots, the classes that the fields and all
parameters of a needed class mention, the interfaces that a needed object class inherits from, and
the direct subclasses of needed interfaces. -/
inductive Needed (env : BuildEnv) (query : ClassRef) (mutation : Option ClassRef) : ClassRef → Prop
  | root {c : ClassRef} : c ∈ query :: mutation.toList → Needed env query mutation c
  | mention {c d : ClassRef} {ann : ResolvedHint} :
      Needed env query mutation c → ann ∈ env.ownHints env.fieldHints c →
      d ∈ env.classesIn ann → (env.hierarchy.kind? d).isSome = true → Needed env query mutation d
  | ancestor {c a : ClassRef} :
      Needed env query mutation c → env.hierarchy.isObject c = true → env.hierarchy.Has a →
      env.hierarchy.isSubclass c a = true → env.hierarchy.isInterface a = true →
      env.hierarchy.isObject a = false → Needed env query mutation a
  | subclass {c d : ClassRef} :
      Needed env query mutation c → env.hierarchy.isInterface c = true →
      d ∈ env.hierarchy.subclasses c → Needed env query mutation d

/-- The classes whose types a schema lists.  Of parameters of one name only the last counts here,
but the direct subclasses of an interface are listed where any parameter needs it. -/
inductive Listed (env : BuildEnv) (query : ClassRef) (mutation : Option ClassRef) : ClassRef → Prop
  | root {c : ClassRef} : c ∈ query :: mutation.toList → Listed env query mutation c
  | mention {c d : ClassRef} {ann : ResolvedHint} :
      Listed env query mutation c → ann ∈ env.ownHints env.shownFieldHints c →
      d ∈ env.classesIn ann → (env.hierarchy.kind? d).isSome = true → Listed env query mutation d
  | ancestor {c a : ClassRef} :
      Listed env query mutation c → env.hierarchy.isObject c = true → env.hierarchy.Has a →
      env.hierarchy.isSubclass c a = true → env.hierarchy.isInterface a = true →
      env.hierarchy.isObject a = false → Listed env query mutation a
  | subclass {c d : ClassRef} :
      Needed env query mutation c → env.hierarchy.isInterface c = true →
      d ∈ env.hierarchy.subclasses c → Listed env query mutation d

/-- No method among the fields of a class repeats the name of a parameter. -/
def DistinctParams (env : BuildEnv) (c : ClassRef) : Prop :=
  ∀ ds, describeFields env.hierarchy env.ns c = .ok ds → ∀ f ∈ ds, (f.args.map (·.name)).Nodup

theorem shownFieldHints_eq (h : env.DistinctParams c) :
    env.shownFieldHints c = env.fieldHints c := by
  rw [shownFieldHints, fieldHints]
  cases hds : describeFields env.hierarchy env.ns c with
  | error e => rfl
  | ok ds => exact List.flatMap_congr fun f hf => by rw [f.shownArgs_eq (h ds hds f hf)]

theorem Listed.needed (h : env.Listed query mutation c) : env.Needed query mutation c := by
  induction h with
  | root hc => exact .root hc
  | @mention c d ann _ ha hd hkind ih =>
    refine .mention ih ?_ hd hkind
    unfold ownHints at ha ⊢
    split at ha
    · exact mem_fieldHints_of_shown ha
    · exact mem_fieldHints_of_shown ha
    · exact ha
    · exact ha
  | ancestor _ hobject hhas hsub hinterface hnot ih =>
    exact .ancestor ih hobject hhas hsub hinterface hnot
  | subclass hc hinterface hd => exact .subclass hc hinterface hd

/-- Without repeated parameters all needed classes are listed. -/
theorem Needed.listed (hdistinct : ∀ c, env.Needed query mutation c → env.DistinctParams c)
    (h : env.Needed query mutation c) : env.Listed query mutation c := by
  induction h with
  | root hc => exact .root hc
  | @mention c d ann hc ha hd hkind ih =>
    refine .mention ih ?_ hd hkind
    rwa [ownHints, shownFieldHints_eq (hdistinct c hc)]
  | ancestor _ hobject hhas hsub hinterface hnot ih =>
    exact .ancestor ih hobject hhas hsub hinterface hnot
  | subclass hc hinterface hd => exact .subclass hc hinterface hd

theorem kind?_eq_object_iff {h : Hierarchy} : h.kind? c = some .object ↔ h.isObject c = true := by
  unfold Hierarchy.kind?
  split_ifs <;> simp_all

theorem kind?_eq_interface_iff {h : Hierarchy} :
    h.kind? c = some .interface ↔ h.isInterface c = true ∧ h.isObject c = false := by
  unfold Hierarchy.kind?
  split_ifs <;> simp_all

theorem mem_hintsWith_iff {fields : ClassRef → List ResolvedHint} {b : NodeBody}
    (hc : b.class? = some c) (hkind : env.hierarchy.kind? c = some b.kind) :
    ann ∈ env.hintsWith fields b ↔ ann ∈ env.ownHints fields c ∨
      env.hierarchy.isObject c = true ∧ ∃ a ∈ env.interfaceAncestors c, ann = .ofClass a none := by
  rw [← kind?_eq_object_iff, ownHints, hkind]
  cases b with
  | object =>
    cases hc
    simp [hintsWith, NodeBody.kind, eq_comm]
  | interface | input | enum =>
    cases hc
    simp [hintsWith, NodeBody.kind]
  | scalar | union => cases hc

theorem kind_of_mem_crawlHints {b : NodeBody} (h : ann ∈ env.crawlHints b) :
    b.kind = .object ∨ b.kind = .interface := by
  cases b with
  | object => exact .inl rfl
  | interface => exact .inr rfl
  | input | enum | scalar | union => cases h

theorem mem_crawlHints {b : NodeBody} (hc : b.class? = some c) (h : ann ∈ env.crawlHints b) :
    env.hierarchy.isInterface c = true ∧
      ∃ d ∈ env.hierarchy.subclasses c, ann = .ofClass d none := by
  cases b with
  | object | interface =>
    cases hc
    rw [crawlHints] at h
    split_ifs at h with hinterface
    · obtain ⟨d, hd, rfl⟩ := List.mem_map.1 h
      exact ⟨hinterface, d, hd, rfl⟩
    · cases h
  | input | enum | scalar | union => cases h

theorem WellFormed.mem_interfaceAncestors_iff (hw : env.WellFormed aliases)
    (hc : env.hierarchy.Has c) (hobject : env.hierarchy.isObject c = true) {a : ClassRef} :
    a ∈ env.interfaceAncestors c ↔ env.hierarchy.Has a ∧ env.hierarchy.isSubclass c a = true ∧
      env.hierarchy.isInterface a = true ∧ env.hierarchy.isObject a = false := by
  obtain ⟨rest, hmro⟩ := hw.hierarchy.mro_eq_cons hc
  have hmem := hw.hierarchy.mem_mro_iff hc (a := a)
  rw [hmro, List.mem_cons] at hmem
  rw [interfaceAncestors, hmro, List.tail_cons, List.mem_filter, ← and_assoc, ← hmem]
  simp only [Bool.and_eq_true, Bool.not_eq_true']
  refine and_congr_left fun hkind => ⟨.inr, fun h => h.resolve_left ?_⟩
  rintro rfl
  rw [hkind.2] at hobject
  cases hobject

/-! ## Needed classes as a domain -/

/-- A resolved hint that mentions needed classes only. -/
def NeededHint (env : BuildEnv) (aliases : AliasTable) (query : ClassRef)
    (mutation : Option ClassRef) (ann : ResolvedHint) : Prop :=
  env.Typed aliases ann ∧ ∀ d ∈ env.classesIn ann, (env.hierarchy.kind? d).isSome = true →
    env.Needed query mutation d

theorem neededHint_ofClass (hc : env.hierarchy.Has c) (h : env.Needed query mutation c) :
    env.NeededHint aliases query mutation (.ofClass c none) := by
  refine ⟨⟨.cls c, hc, .cls rfl⟩, fun d hd _ => ?_⟩
  rw [classesIn_ofClass, List.mem_singleton] at hd
  exact hd ▸ h

theorem WellFormed.domain_needed (hw : env.WellFormed aliases) :
    env.Domain aliases (env.NeededHint aliases query mutation) where
  typed h := h.1
  layer h hl := ⟨hw.domain_typed.layer h.1 hl, classesIn_layer hl ▸ h.2⟩
  parts h hn a ha := by
    refine ⟨hw.domain_typed.parts h.1 hn a ha, fun d hd hkind => ?_⟩
    rcases WellFormed.ownNode_cases hn with
      ⟨head, c, rfl, hc⟩ | ⟨head, members, name, rfl, rfl⟩ | ⟨head, base, s, rfl, rfl⟩
    · have hclassKind := kind?_of_classNode hc
      have hneeded : env.Needed query mutation c :=
        h.2 c (by rw [classesIn]; exact List.mem_cons_self) (by rw [hclassKind]; rfl)
      have hhas := hw.has_of_typed h.1
      obtain ha | ⟨hobject, x, hx, rfl⟩ := (mem_hintsWith_iff (classNode_spec hc).1 hclassKind).1 ha
      · exact .mention hneeded ha hd hkind
      · rw [classesIn_ofClass, List.mem_singleton] at hd
        obtain ⟨hx, hsub, hinterface, hnot⟩ := (hw.mem_interfaceAncestors_iff hhas hobject).1 hx
        exact hd ▸ .ancestor hneeded hobject hx hsub hinterface hnot
    · exact h.2 d (mem_classesInAll.2 ⟨a, ha, hd⟩) hkind
    · cases ha
  crawl h hn a ha := by
    rcases WellFormed.ownNode_cases hn with
      ⟨head, c, rfl, hc⟩ | ⟨head, members, name, rfl, rfl⟩ | ⟨head, base, s, rfl, rfl⟩
    · obtain ⟨hinterface, d, hd, rfl⟩ := mem_crawlHints (classNode_spec hc).1 ha
      have hneeded : env.Needed query mutation c :=
        h.2 c (by rw [classesIn]; exact List.mem_cons_self) (by rw [kind?_of_classNode hc]; rfl)
      exact neededHint_ofClass (Hierarchy.has_of_mem_subclasses hd)
        (.subclass hneeded hinterface hd)
    · cases ha
    · cases ha

end BuildEnv

end HintSchema
