import HintSchema.Proofs.References

/-!
# Where fields come from

A class obtains a field from the nearest hint of its name along the order of lookup, or else from
the nearest member (`Hierarchy.declaration?`).  The fields of a class are those it so obtains, each
resolved from its declaration (`declaration?_of_describeFields`, `mem_names_of_declaration?`).  Two
classes that obtain a field from one declaration resolve the same types, wherever errors would be
located (`FieldDescriptor.From.keys_eq`), and a class obtains whatever its ancestors do
(`WellFormed.isSome_declaration?_of_isSubclass`).
-/

namespace HintSchema

variable {c a : ClassRef} {name : String}

/-- What a class obtains a field from: a hint or a member, and the class that declares it. -/
inductive Declaration
  | hint (declaring : ClassRef) (hint : Hint)
  | member (declaring : ClassRef) (member : Member)

/-- The source of a field with a declaration. -/
def Declaration.source : Declaration → FieldSource
  | .hint .. => .attribute
  | .member _ (.property _) => .property
  | .member _ (.method _) => .method
  | .member _ (.value _) => .inferredAttribute

namespace Hierarchy

variable {h : Hierarchy}

/-- The nearest of what the declarations along the order of lookup hold, with its class. -/
def nearest? {α : Type} (h : Hierarchy) (c : ClassRef) (find : ClassDef → Option α) :
    Option (ClassRef × α) :=
  (h.lineage c).findSome? fun (a, d) => (find d).map (a, ·)

/-- The nearest hint of a name; of hints of one name in a class the last counts. -/
def nearestHint? (h : Hierarchy) (c : ClassRef) (name : String) : Option (ClassRef × Hint) :=
  h.nearest? c fun d => Keyed.get? (Keyed.ofList d.hints) name

/-- The nearest member of a name. -/
def nearestMember? (h : Hierarchy) (c : ClassRef) (name : String) : Option (ClassRef × Member) :=
  h.nearest? c fun d => Keyed.get? d.members name

/-- What a class obtains its field of a name from: the nearest hint, or else the nearest member.
Private names are no fields. -/
def declaration? (h : Hierarchy) (c : ClassRef) (name : String) : Option Declaration :=
  if isPrivate name then none
  else
    match h.nearestHint? c name with
    | some (a, hint) => some (.hint a hint)
    | none => (h.nearestMember? c name).map fun (a, m) => .member a m

/-! ## Inherited views -/

theorem get?_allHints (h : Hierarchy) (c : ClassRef) (name : String) :
    Keyed.get? (h.allHints c) name = h.nearestHint? c name := by
  rw [allHints, nearestHint?, nearest?, List.foldl_reverse]
  induction h.lineage c with
  | nil => rfl
  | cons p rest ih =>
    obtain ⟨a, d⟩ := p
    rw [List.foldr_cons, Keyed.get?_putAll, ih, List.findSome?_cons,
      Keyed.get?_ofList_map fun hint => (a, hint)]
    dsimp only
    cases Keyed.get? (Keyed.ofList d.hints) name <;> rfl

theorem nodup_keys_allHints (h : Hierarchy) (c : ClassRef) :
    (Keyed.keys (h.allHints c)).Nodup := by
  rw [allHints, List.foldl_reverse]
  induction h.lineage c with
  | nil => exact List.nodup_nil
  | cons p rest ih => exact Keyed.nodup_keys_putAll ih

section AddNew

variable {α : Type} {entries pairs : List (String × α)}

theorem get?_addNew (entries pairs : List (String × α)) (k : String) :
    Keyed.get? (addNew entries pairs) k = (Keyed.get? entries k).or (Keyed.get? pairs k) := by
  unfold addNew
  induction pairs generalizing entries with
  | nil => simp
  | cons p rest ih =>
    obtain ⟨k', v⟩ := p
    rw [List.foldl_cons, ih, Keyed.get?_cons]
    dsimp only
    split_ifs with hcontains hk hk
    · subst hk
      obtain ⟨w, hw⟩ := Option.isSome_iff_exists.1 hcontains
      rw [hw]
      rfl
    · rfl
    · subst hk
      rw [Keyed.get?_append, Keyed.get?_cons, if_pos rfl, Keyed.get?_eq_none_iff.2
        (fun hmem => hcontains ((Keyed.contains_iff_mem_keys _ _).2 hmem))]
      rfl
    · rw [Keyed.get?_append, Keyed.get?_cons, if_neg hk, Keyed.get?_nil, Option.or_none]

theorem nodup_keys_addNew (h : (Keyed.keys entries).Nodup) :
    (Keyed.keys (addNew entries pairs)).Nodup := by
  unfold addNew
  induction pairs generalizing entries with
  | nil => exact h
  | cons p rest ih =>
    rw [List.foldl_cons]
    apply ih
    split_ifs with hk
    · exact h
    · rw [Keyed.contains_iff_mem_keys] at hk
      rw [Keyed.keys, List.map_append, List.map_singleton]
      exact List.Nodup.append h (List.nodup_singleton _)
        (List.disjoint_singleton.2 hk)

end AddNew

theorem get?_dir (h : Hierarchy) (c : ClassRef) (name : String) :
    Keyed.get? (h.dir c) name = (h.nearestMember? c name).map Prod.snd ∧
      (Keyed.keys (h.dir c)).Nodup := by
  -- the members gathered so far are left free
  have hfold : ∀ (line : List (ClassRef × ClassDef)) (acc : List (String × Member)),
      (Keyed.keys acc).Nodup →
      (Keyed.keys (line.foldl (fun acc p => addNew acc p.2.members) acc)).Nodup ∧
      Keyed.get? (line.foldl (fun acc p => addNew acc p.2.members) acc) name =
        (Keyed.get? acc name).or ((line.findSome? fun p =>
          (Keyed.get? p.2.members name).map fun m => (p.1, m)).map Prod.snd) := by
    intro line
    induction line with
    | nil => exact fun acc hacc => ⟨hacc, (Option.or_none).symm⟩
    | cons p rest ih =>
      intro acc hacc
      obtain ⟨hnodup, hget⟩ := ih (addNew acc p.2.members) (nodup_keys_addNew hacc)
      refine ⟨hnodup, ?_⟩
      rw [List.foldl_cons, hget, get?_addNew, List.findSome?_cons]
      cases Keyed.get? acc name <;> cases Keyed.get? p.2.members name <;> rfl
  obtain ⟨hnodup, hget⟩ := hfold (h.lineage c) [] List.nodup_nil
  refine ⟨?_, Keyed.nodup_keys_sorted_iff.2 hnodup⟩
  rw [dir, Keyed.get?_sorted hnodup]
  exact hget

theorem mem_lineage_iff {p : ClassRef × ClassDef} :
    p ∈ h.lineage c ↔ p.1 ∈ h.mro c ∧ h.find? p.1 = some p.2 := by
  rw [lineage, List.mem_filterMap]
  constructor
  · rintro ⟨a, ha, hp⟩
    obtain ⟨d, hd, rfl⟩ := Option.map_eq_some_iff.1 hp
    exact ⟨ha, hd⟩
  · rintro ⟨hmro, hd⟩
    exact ⟨p.1, hmro, by rw [hd]; rfl⟩

theorem isSome_nearest?_iff {α : Type} {find : ClassDef → Option α} :
    (h.nearest? c find).isSome = true ↔
      ∃ a ∈ h.mro c, ∃ d, h.find? a = some d ∧ (find d).isSome = true := by
  rw [nearest?, List.findSome?_isSome_iff]
  constructor
  · rintro ⟨p, hp, hsome⟩
    obtain ⟨hmro, hd⟩ := mem_lineage_iff.1 hp
    exact ⟨p.1, hmro, p.2, hd, by simpa using hsome⟩
  · rintro ⟨a, hmro, d, hd, hsome⟩
    exact ⟨(a, d), mem_lineage_iff.2 ⟨hmro, hd⟩, by simpa using hsome⟩

theorem isSome_declaration?_iff :
    (h.declaration? c name).isSome = true ↔ isPrivate name = false ∧
      ((h.nearestHint? c name).isSome = true ∨ (h.nearestMember? c name).isSome = true) := by
  unfold declaration?
  cases isPrivate name <;> cases h.nearestHint? c name <;> simp

namespace WellFormed

variable {b : ClassRef} (hw : h.WellFormed)
include hw

/-- What an ancestor looks up, a class does. -/
theorem mro_subset (hc : h.Has c) (ha : h.Has a) (hsub : h.isSubclass c a = true) :
    h.mro a ⊆ h.mro c := by
  intro b hb
  obtain ⟨hhas, hab⟩ := (hw.mem_mro_iff ha).1 hb
  exact (hw.mem_mro_iff hc).2 ⟨hhas, hw.isSubclass_trans hc hsub hab⟩

/-- A class obtains a field of each name that an ancestor obtains one of. -/
theorem isSome_declaration?_of_isSubclass (hc : h.Has c) (ha : h.Has a)
    (hsub : h.isSubclass c a = true) (hname : (h.declaration? a name).isSome = true) :
    (h.declaration? c name).isSome = true := by
  have hnearest : ∀ {α : Type} {find : ClassDef → Option α},
      (h.nearest? a find).isSome = true → (h.nearest? c find).isSome = true := by
    intro α find hsome
    obtain ⟨b, hb, d, hd, hfind⟩ := isSome_nearest?_iff.1 hsome
    exact isSome_nearest?_iff.2 ⟨b, hw.mro_subset hc ha hsub hb, d, hd, hfind⟩
  rw [isSome_declaration?_iff] at hname ⊢
  exact ⟨hname.1, hname.2.imp hnearest hnearest⟩

end WellFormed

end Hierarchy

/-! ## Resolved fields -/

variable {hier : Hierarchy} {ns : Namespace} {decl : Declaration} {f f' : FieldDescriptor}
  {ds : List FieldDescriptor}

/-- A field that is resolved from a declaration, wherever errors are located. -/
inductive FieldDescriptor.From (ns : Namespace) : Declaration → FieldDescriptor → Prop
  | hint {a : ClassRef} {hint : Hint} {origin : Origin} {name : String} {ann : ResolvedHint} :
      ResolvedHint.ofHint ns hint origin = .ok ann → From ns (.hint a hint) (hintField name ann)
  | property {a : ClassRef} {p : Property} {origin : Origin} {f : FieldDescriptor} :
      ResolvedHint.ofHint ns p.returns origin = .ok f.hint → f.args = [] →
      f.source = .property → From ns (.member a (.property p)) f
  | method {a c : ClassRef} {m : Method} {origin : Origin} {f : FieldDescriptor} :
      ResolvedHint.ofHint ns m.returns origin = .ok f.hint →
      List.Forall₂ (fun p r => resolveParam ns c m p = .ok r) m.params f.args →
      f.source = .method → From ns (.member a (.method m)) f
  | value {a : ClassRef} {v : Value} {origin : Option Origin} {f : FieldDescriptor} :
      f.hint = .ofClass v.classRef origin → f.args = [] → f.source = .inferredAttribute →
      From ns (.member a (.value v)) f

theorem FieldDescriptor.From.source_eq (h : f.From ns decl) : f.source = decl.source := by
  cases h with
  | hint => rfl
  | property _ _ hs | method _ _ hs | value _ _ hs => exact hs

theorem exists_of_ofHint {hint : Hint} {origin : Origin} {ann : ResolvedHint}
    (h : ResolvedHint.ofHint ns hint origin = .ok ann) :
    ∃ e, ns.eval hint = .ok e ∧ ResolvedHint.Of e ann := by
  obtain ⟨e, he, h⟩ := ResolvedHint.ofHint_eq_ok_iff.1 h
  exact ⟨e, he, ResolvedHint.of_ofExpr h⟩

theorem key_unique_of_ofHint {hint : Hint} {origin origin' : Origin} {ann ann' : ResolvedHint}
    (h : ResolvedHint.ofHint ns hint origin = .ok ann)
    (h' : ResolvedHint.ofHint ns hint origin' = .ok ann') : ann.key = ann'.key := by
  obtain ⟨e, he, hof⟩ := exists_of_ofHint h
  obtain ⟨e', he', hof'⟩ := exists_of_ofHint h'
  cases he.symm.trans he'
  exact hof.key_unique hof'

/-- Parameters that look alike but for the places of their errors. -/
def ResolvedParam.Alike (p q : ResolvedParam) : Prop :=
  p.name = q.name ∧ p.default = q.default ∧ p.hint.key = q.hint.key

theorem alike_of_resolveParam {c c' : ClassRef} {m : Method} {p : Param} {r r' : ResolvedParam}
    (h : resolveParam ns c m p = .ok r) (h' : resolveParam ns c' m p = .ok r') : r.Alike r' := by
  obtain ⟨e, ann, he, hann, rfl⟩ := resolveParam_eq_ok_iff.1 h
  obtain ⟨e', ann', he', hann', rfl⟩ := resolveParam_eq_ok_iff.1 h'
  cases he.symm.trans he'
  exact ⟨rfl, rfl, (ResolvedHint.of_ofExpr hann).key_unique (ResolvedHint.of_ofExpr hann')⟩

/-- Fields of one declaration are of one type, and so are their arguments. -/
theorem FieldDescriptor.From.keys_eq (h : f.From ns decl) (h' : f'.From ns decl) :
    f.hint.key = f'.hint.key ∧ List.Forall₂ ResolvedParam.Alike f.args f'.args := by
  cases h with
  | hint hann =>
    cases h' with
    | hint hann' => exact ⟨key_unique_of_ofHint hann hann', .nil⟩
  | property hann hargs =>
    cases h' with
    | property hann' hargs' =>
      rw [hargs, hargs']
      exact ⟨key_unique_of_ofHint hann hann', .nil⟩
  | method hann hargs =>
    cases h' with
    | method hann' hargs' =>
      refine ⟨key_unique_of_ofHint hann hann', ?_⟩
      exact forall₂_of_common hargs hargs' fun p _ _ _ => alike_of_resolveParam
  | value hv hargs =>
    cases h' with
    | value hv' hargs' =>
      rw [hargs, hargs', hv, hv']
      exact ⟨rfl, .nil⟩

/-! ## Fields of a class -/

/-- Each resolved hint is of the nearest hint of its name. -/
theorem nearestHint?_of_resolveHints {hints : List (String × ResolvedHint)} {ann : ResolvedHint}
    (h : resolveHints hier ns c = .ok hints) (hmem : (name, ann) ∈ hints) :
    ∃ a hint origin, hier.nearestHint? c name = some (a, hint) ∧
      ResolvedHint.ofHint ns hint origin = .ok ann := by
  obtain ⟨⟨_, a, hint⟩, hall, rfl, hann⟩ := exists_left_of_forall₂ (forall₂_of_resolveHints h) hmem
  refine ⟨a, hint, _, ?_, hann⟩
  rw [← Hierarchy.get?_allHints]
  exact Keyed.get?_of_mem (hier.nodup_keys_allHints c) hall

theorem keys_of_resolveHints {hints : List (String × ResolvedHint)}
    (h : resolveHints hier ns c = .ok hints) :
    Keyed.keys hints = Keyed.keys (hier.allHints c) :=
  Keyed.keys_eq_iff.2 ((forall₂_of_resolveHints h).imp fun _ _ hp => hp.1)

theorem mem_keys_of_resolveHints {hints : List (String × ResolvedHint)}
    (h : resolveHints hier ns c = .ok hints) :
    name ∈ Keyed.keys hints ↔ (hier.nearestHint? c name).isSome = true := by
  rw [keys_of_resolveHints h, ← Keyed.contains_iff_mem_keys, Keyed.contains,
    Hierarchy.get?_allHints]

theorem from_of_fieldOf {m : Member} (h : FieldOf ns c name m f) (a : ClassRef) :
    f.From ns (.member a m) := by
  cases h with
  | property hann => exact .property hann rfl rfl
  | method hargs hreturns => exact .method hreturns hargs rfl
  | value => exact .value rfl rfl rfl

theorem mem_keys_hintFields {hints : List (String × ResolvedHint)}
    (h : resolveHints hier ns c = .ok hints) :
    name ∈ Keyed.keys ((hints.filter fun p => !isPrivate p.1).map
        fun p => (p.1, hintField p.1 p.2)) ↔
      isPrivate name = false ∧ (hier.nearestHint? c name).isSome = true := by
  rw [← mem_keys_of_resolveHints h, Keyed.keys, List.map_map, Keyed.keys]
  simp [and_comm]

/-- A member that is looked up, and hidden by no hint, is where its field comes from. -/
theorem Hierarchy.declaration?_of_mem_dir {m : Member} (hmem : (name, m) ∈ hier.dir c)
    (hpublic : isPrivate name = false) (hnone : hier.nearestHint? c name = none) :
    ∃ a, hier.declaration? c name = some (.member a m) := by
  obtain ⟨hdir, hnodup⟩ := hier.get?_dir c name
  have hget := Keyed.get?_of_mem hnodup hmem
  rw [hdir, Option.map_eq_some_iff] at hget
  obtain ⟨⟨a, m⟩, hnearest, rfl⟩ := hget
  refine ⟨a, ?_⟩
  rw [declaration?, hpublic, hnone, hnearest]
  rfl

/-- A class obtains each of its fields from a declaration. -/
theorem declaration?_of_describeFields (h : describeFields hier ns c = .ok ds) (hf : f ∈ ds) :
    ∃ decl, hier.declaration? c f.name = some decl ∧ f.From ns decl := by
  obtain ⟨hints, hhints, hcases⟩ := mem_describeFields h hf
  rcases hcases with ⟨p, hp, hpublic, rfl⟩ | ⟨p, hp, hpublic, hkey, hfield⟩
  · obtain ⟨a, hint, origin, hnearest, hann⟩ := nearestHint?_of_resolveHints hhints hp
    refine ⟨.hint a hint, ?_, .hint hann⟩
    rw [hintField, Hierarchy.declaration?, if_neg (by simpa using hpublic), hnearest]
  · have hnone : hier.nearestHint? c p.1 = none := by
      rwa [mem_keys_of_resolveHints hhints, Option.not_isSome_iff_eq_none] at hkey
    obtain ⟨a, hdecl⟩ := Hierarchy.declaration?_of_mem_dir hp hpublic hnone
    exact ⟨.member a p.2, hfield.name_eq ▸ hdecl, from_of_fieldOf hfield a⟩

/-- A class has a field wherever it has a declaration for one. -/
theorem mem_names_of_declaration? (h : describeFields hier ns c = .ok ds)
    (hname : (hier.declaration? c name).isSome = true) : name ∈ ds.map (·.name) := by
  obtain ⟨hints, hhints, h⟩ := ok_of_bind h
  obtain ⟨members, hmembers, h⟩ := ok_of_bind h
  cases h
  obtain ⟨hpublic, hsome⟩ := Hierarchy.isSome_declaration?_iff.1 hname
  rw [BuildEnv.names_of_entries, Keyed.mem_keys_putAll, mem_keys_hintFields hhints]
  by_cases hhint : (hier.nearestHint? c name).isSome = true
  · exact .inr ⟨hpublic, hhint⟩
  · obtain ⟨⟨a, m⟩, hm⟩ := Option.isSome_iff_exists.1 (hsome.resolve_left hhint)
    have hmem : (name, m) ∈ hier.dir c :=
      Keyed.mem_of_get? (by rw [(hier.get?_dir c name).1, hm]; rfl)
    obtain ⟨o, ho, hfield⟩ :=
      exists_of_filterMapM hmembers (List.mem_filter.2 ⟨hmem, by simpa using hpublic⟩)
    cases o with
    | none =>
      obtain ⟨-, hhinted⟩ := (memberField_eq_none_iff ho).1 rfl
      rw [Keyed.contains_iff_mem_keys, mem_keys_of_resolveHints hhints] at hhinted
      exact absurd hhinted hhint
    | some f =>
      refine .inl ?_
      rw [Keyed.ofList, Keyed.mem_keys_putAll, ← (fieldOf_of_memberField ho).name_eq]
      exact .inr (List.mem_map_of_mem (List.mem_map_of_mem (hfield f rfl)))

end HintSchema
