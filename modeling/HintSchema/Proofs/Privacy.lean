import HintSchema.Proofs.Listing

/-!
# Private names

What a class and its ancestors declare under private names (`Hierarchy.withoutPrivate`) takes no part
in the fields of the class, with one exception: the hints of a class are all resolved before private
ones are left out, so a private hint that cannot be resolved fails the whole class.
`describeFields_withoutPrivate` says that there is no other one.
-/

namespace HintSchema

/-- A declaration without its private members and hints. -/
def ClassDef.withoutPrivate (d : ClassDef) : ClassDef :=
  { d with
    members := d.members.filter fun p => !isPrivate p.1
    hints := d.hints.filter fun p => !isPrivate p.1 }

namespace Hierarchy

/-- The declarations with the private members and hints of some of them left out. -/
def withoutPrivateIn (ids : Nat → Bool) : List ClassDef → List ClassDef
  | [] => []
  | d :: older =>
    (if ids older.length then d.withoutPrivate else d) :: withoutPrivateIn ids older

/-- The hierarchy in which a class and its ancestors declare nothing private. -/
def withoutPrivate (h : Hierarchy) (c : ClassRef) : Hierarchy where
  defs := withoutPrivateIn (fun id => (h.mro c).any (·.id == id)) h.defs

/-! ## Walks -/

section Walks

variable (ids : Nat → Bool) (defs : List ClassDef)

theorem forall₂_bases_withoutPrivateIn :
    List.Forall₂ (fun d d' => d.bases = d'.bases) (withoutPrivateIn ids defs) defs := by
  induction defs with
  | nil => exact .nil
  | cons d older ih =>
    refine .cons ?_ ih
    split_ifs <;> rfl

theorem defOf?_withoutPrivateIn (id : Nat) : defOf? (withoutPrivateIn ids defs) id =
    (defOf? defs id).map fun d => if ids id then d.withoutPrivate else d := by
  induction defs with
  | nil => rfl
  | cons d older ih =>
    rw [withoutPrivateIn, defOf?_cons, defOf?_cons,
      (forall₂_bases_withoutPrivateIn ids older).length_eq]
    by_cases hid : id = older.length
    · rw [if_pos hid, if_pos hid, Option.map_some, hid]
    · rw [if_neg hid, if_neg hid, ih]

end Walks

/-- The order of lookup does not depend on what is declared. -/
theorem mro_withoutPrivate (h : Hierarchy) (c a : ClassRef) :
    (h.withoutPrivate c).mro a = h.mro a :=
  congrArg keepLast (walkIn_congr (forall₂_bases_withoutPrivateIn _ h.defs) a)

theorem lineage_withoutPrivate (h : Hierarchy) (c : ClassRef) :
    (h.withoutPrivate c).lineage c = (h.lineage c).map fun p => (p.1, p.2.withoutPrivate) := by
  rw [lineage, lineage, mro_withoutPrivate, List.map_filterMap]
  refine List.filterMap_congr fun a ha => ?_
  have hid : (h.mro c).any (·.id == a.id) = true := List.any_eq_true.2 ⟨a, ha, by simp⟩
  have hfind : (h.withoutPrivate c).find? a = (h.find? a).map ClassDef.withoutPrivate := by
    rw [find?, withoutPrivate, defOf?_withoutPrivateIn]
    simp [hid, find?]
  rw [hfind]
  simp [Option.map_map, Function.comp_def]

/-! ## Inherited views -/

theorem allHints_withoutPrivate (h : Hierarchy) (c : ClassRef) :
    (h.withoutPrivate c).allHints c = (h.allHints c).filter fun p => !isPrivate p.1 := by
  rw [allHints, allHints, List.foldl_reverse, List.foldl_reverse, lineage_withoutPrivate,
    List.foldr_map]
  induction h.lineage c with
  | nil => rfl
  | cons p rest ih =>
    rw [List.foldr_cons, List.foldr_cons, ih, Keyed.filter_putAll fun k => !isPrivate k,
      List.filter_map]
    rfl

theorem filter_addNew {α : Type} (q : String → Bool) (entries pairs : List (String × α)) :
    (addNew entries pairs).filter (fun p => q p.1) =
      addNew (entries.filter fun p => q p.1) (pairs.filter fun p => q p.1) := by
  unfold addNew
  induction pairs generalizing entries with
  | nil => rfl
  | cons p rest ih =>
    rw [List.foldl_cons, ih, List.filter_cons]
    by_cases hp : q p.1 = true
    · have hcontains : Keyed.contains (entries.filter fun p => q p.1) p.1 =
          Keyed.contains entries p.1 := by
        rw [Keyed.contains, Keyed.contains, Keyed.get?_filter q hp]
      rw [if_pos hp, List.foldl_cons, hcontains]
      split_ifs <;> simp [hp]
    · rw [if_neg hp]
      split_ifs <;> simp [hp]

theorem dir_withoutPrivate (h : Hierarchy) (c : ClassRef) :
    (h.withoutPrivate c).dir c = (h.dir c).filter fun p => !isPrivate p.1 := by
  -- the members gathered so far are left free
  have hfold : ∀ (line : List (ClassRef × ClassDef)) (acc : List (String × Member)),
      (line.map fun p => (p.1, p.2.withoutPrivate)).foldl (fun acc p => addNew acc p.2.members)
          (acc.filter fun p => !isPrivate p.1) =
        (line.foldl (fun acc p => addNew acc p.2.members) acc).filter fun p => !isPrivate p.1 := by
    intro line
    induction line with
    | nil => exact fun acc => rfl
    | cons p rest ih =>
      intro acc
      rw [List.map_cons, List.foldl_cons, List.foldl_cons, ← ih,
        filter_addNew fun k => !isPrivate k]
      rfl
  have hnodup := Keyed.nodup_keys_sorted_iff.1 (h.get?_dir c "").2
  rw [dir, dir, lineage_withoutPrivate, ← Keyed.sorted_filter hnodup]
  exact congrArg Keyed.sorted (hfold (h.lineage c) [])

end Hierarchy

/-! ## Fields -/

variable {h : Hierarchy} {ns : Namespace} {c : ClassRef} {hints : List (String × ResolvedHint)}
  {decl : String × ClassRef × Hint} {decls : List (String × ClassRef × Hint)} {e : SchemaError}

/-- A hint under its name, resolved for the class that declares it. -/
def resolveDeclared (ns : Namespace) (decl : String × ClassRef × Hint) :
    Except SchemaError ResolvedHint :=
  ResolvedHint.ofHint ns decl.2.2 ⟨decl.2.1.name, decl.1⟩

/-- A hint is the first one that cannot be resolved. -/
def FailsFirst (ns : Namespace) (decls : List (String × ClassRef × Hint))
    (decl : String × ClassRef × Hint) (e : SchemaError) : Prop :=
  ∃ before after, decls = before ++ decl :: after ∧
    (∀ p ∈ before, ∃ ann, resolveDeclared ns p = .ok ann) ∧ resolveDeclared ns decl = .error e

theorem FailsFirst.filter {q : String × ClassRef × Hint → Bool} (hfails : FailsFirst ns decls decl e)
    (hq : q decl = true) : FailsFirst ns (decls.filter q) decl e := by
  obtain ⟨before, after, rfl, hbefore, hdecl⟩ := hfails
  refine ⟨before.filter q, after.filter q, ?_, fun p hp => ?_, hdecl⟩
  · rw [List.filter_append, List.filter_cons_of_pos hq]
  · exact hbefore p (List.mem_filter.1 hp).1

theorem resolveHints_eq (h : Hierarchy) (ns : Namespace) (c : ClassRef) :
    resolveHints h ns c =
      (h.allHints c).mapM fun decl => (resolveDeclared ns decl).map (decl.1, ·) := rfl

theorem resolveHints_eq_error_iff :
    resolveHints h ns c = .error e ↔ ∃ decl, FailsFirst ns (h.allHints c) decl e := by
  have hok : ∀ decl, (∃ r, (resolveDeclared ns decl).map (decl.1, ·) = .ok r) ↔
      ∃ ann, resolveDeclared ns decl = .ok ann := by
    intro decl
    cases resolveDeclared ns decl <;> simp [Except.map]
  have herror : ∀ decl, (resolveDeclared ns decl).map (decl.1, ·) = .error e ↔
      resolveDeclared ns decl = .error e := by
    intro decl
    cases resolveDeclared ns decl <;> simp [Except.map]
  rw [resolveHints_eq, mapM_eq_error_iff]
  simp only [hok, herror]
  constructor
  · rintro ⟨before, decl, after, hfirst⟩
    exact ⟨decl, before, after, hfirst⟩
  · rintro ⟨decl, before, after, hfirst⟩
    exact ⟨before, decl, after, hfirst⟩

theorem resolveHints_withoutPrivate (hhints : resolveHints h ns c = .ok hints) :
    resolveHints (h.withoutPrivate c) ns c = .ok (hints.filter fun p => !isPrivate p.1) := by
  rw [resolveHints_eq] at hhints ⊢
  rw [Hierarchy.allHints_withoutPrivate]
  refine mapM_filter hhints fun decl p hp => ?_
  obtain ⟨ann, -, rfl⟩ := ok_of_map hp
  rfl

/-- Of all hints only one of its own name matters to a member. -/
theorem memberField_congr {hinted hinted' : String → Bool} {name : String}
    (hname : hinted name = hinted' name) (m : Member) :
    memberField ns c hinted name m = memberField ns c hinted' name m := by
  cases m with
  | value v => rw [memberField, memberField, hname]
  | property | method => rfl

theorem describeFields_of_resolveHints_ok (hhints : resolveHints h ns c = .ok hints) :
    describeFields h ns c = (do
      let members ← ((h.dir c).filter fun p => !isPrivate p.1).filterMapM fun p =>
        memberField ns c (Keyed.contains hints) p.1 p.2
      return Keyed.values (Keyed.putAll (Keyed.ofList (members.map fun f => (f.name, f)))
        ((hints.filter fun p => !isPrivate p.1).map fun p => (p.1, hintField p.1 p.2)))) := by
  unfold describeFields
  rw [hhints]
  rfl

theorem describeFields_of_resolveHints_error (hhints : resolveHints h ns c = .error e) :
    describeFields h ns c = .error e := by
  unfold describeFields
  rw [hhints]
  rfl

/-- Once all hints are resolved, private names make no difference. -/
theorem describeFields_withoutPrivate_of_ok (hhints : resolveHints h ns c = .ok hints) :
    describeFields (h.withoutPrivate c) ns c = describeFields h ns c := by
  have hpublic : ∀ {α : Type} (entries : List (String × α)),
      (entries.filter fun p => !isPrivate p.1).filter (fun p => !isPrivate p.1) =
        entries.filter fun p => !isPrivate p.1 := by
    intro α entries
    rw [List.filter_filter]
    simp
  have hfields : ((h.dir c).filter fun p => !isPrivate p.1).filterMapM (fun p =>
        memberField ns c (Keyed.contains (hints.filter fun p => !isPrivate p.1)) p.1 p.2) =
      ((h.dir c).filter fun p => !isPrivate p.1).filterMapM fun p =>
        memberField ns c (Keyed.contains hints) p.1 p.2 := by
    refine filterMapM_congr fun p hp => memberField_congr ?_ p.2
    rw [Keyed.contains, Keyed.get?_filter (fun k => !isPrivate k) (List.mem_filter.1 hp).2]
    rfl
  rw [describeFields_of_resolveHints_ok hhints,
    describeFields_of_resolveHints_ok (resolveHints_withoutPrivate hhints),
    Hierarchy.dir_withoutPrivate, hpublic, hpublic, hfields]

/-- Without the private members and hints of a class and its ancestors the class has the same fields
or fails in the same way, unless the first of its hints that cannot be resolved is private. -/
theorem describeFields_withoutPrivate (h : Hierarchy) (ns : Namespace) (c : ClassRef) :
    describeFields (h.withoutPrivate c) ns c = describeFields h ns c ∨
    ∃ decl e, FailsFirst ns (h.allHints c) decl e ∧ isPrivate decl.1 = true ∧
      describeFields h ns c = .error e := by
  cases hhints : resolveHints h ns c with
  | ok hints => exact .inl (describeFields_withoutPrivate_of_ok hhints)
  | error e =>
    obtain ⟨decl, hfirst⟩ := resolveHints_eq_error_iff.1 hhints
    have hfails := describeFields_of_resolveHints_error hhints
    by_cases hprivate : isPrivate decl.1 = true
    · exact .inr ⟨decl, e, hfirst, hprivate, hfails⟩
    · -- the hint that fails is one of those that are left
      have hleft : resolveHints (h.withoutPrivate c) ns c = .error e := by
        rw [resolveHints_eq_error_iff, Hierarchy.allHints_withoutPrivate]
        exact ⟨decl, hfirst.filter (by simpa using hprivate)⟩
      rw [hfails]
      exact .inl (describeFields_of_resolveHints_error hleft)

namespace Sample

def account : ClassRef := ⟨6, "Account"⟩

/-- An account keeps a secret, of a type that has no name. -/
def accountHierarchy : Hierarchy :=
  .declare .builtin
    { ((ClassDef.named "Account").annotate "_secret" (.text "Nope")).annotate "id" (.text "int") with
      capabilities := { object := true } }

/-- The secret of an account, although it is no field, leaves the account without any. -/
theorem secret_matters :
    ¬ ∀ h ns c, describeFields (h.withoutPrivate c) ns c = describeFields h ns c := by
  intro hall
  have hok : (describeFields (accountHierarchy.withoutPrivate account) {} account).toOption.isSome =
      true := by decide +kernel
  have herror : (describeFields accountHierarchy {} account).toOption.isSome = false := by
    decide +kernel
  rw [hall, herror] at hok
  cases hok

end Sample

end HintSchema
