import HintSchema.Proofs.Inheritance

/-!
# The fields of a class in their order

A class lists the names of its members first, sorted, and then the other names that it has hints for,
in the order in which hints are inherited.  A hint decides over a member of its name without taking
another place than the member had; only a value gives up its place to its hint
(`Hierarchy.ListsMember`).  `listing_of_describeFields` says this of all fields of a class together
with what each of them is made of.
-/

namespace HintSchema

variable {h : Hierarchy} {ns : Namespace} {c : ClassRef} {name : String} {f : FieldDescriptor}
  {ds : List FieldDescriptor} {hints : List (String × ResolvedHint)}
  {members : List FieldDescriptor}

/-- A class lists a name among those of its members: a public name, of a member that is no value with
a hint. -/
def Hierarchy.ListsMember (h : Hierarchy) (c : ClassRef) (name : String) : Prop :=
  isPrivate name = false ∧ ∃ a m, h.nearestMember? c name = some (a, m) ∧
    ((∃ v, m = .value v) → h.nearestHint? c name = none)

/-- A field that is made of the nearest hint of its name, or else of the nearest member. -/
inductive FieldDescriptor.IsNearest (h : Hierarchy) (ns : Namespace) (c : ClassRef) :
    FieldDescriptor → Prop
  | hint {name : String} {a : ClassRef} {hint : Hint} {ann : ResolvedHint} :
      h.nearestHint? c name = some (a, hint) →
      ResolvedHint.ofHint ns hint ⟨a.name, name⟩ = .ok ann →
      IsNearest h ns c
        { name, hint := ann, args := [], description := none, source := .attribute,
          resolver := .attribute name }
  | member {name : String} {a : ClassRef} {m : Member} {f : FieldDescriptor} :
      h.nearestHint? c name = none → h.nearestMember? c name = some (a, m) →
      FieldOf ns c name m f → IsNearest h ns c f

theorem isNearest_of_describeFields (hds : describeFields h ns c = .ok ds) (hf : f ∈ ds) :
    f.IsNearest h ns c := by
  obtain ⟨hints, hhints, hcases⟩ := mem_describeFields hds hf
  rcases hcases with ⟨p, hp, -, rfl⟩ | ⟨⟨name, m⟩, hp, -, hkey, hfield⟩
  · obtain ⟨⟨name, a, hint⟩, hall, hname, hann⟩ :=
      exists_left_of_forall₂ (forall₂_of_resolveHints hhints) hp
    rw [hname]
    refine .hint ?_ hann
    rw [← Hierarchy.get?_allHints]
    exact Keyed.get?_of_mem (h.nodup_keys_allHints c) hall
  · rw [mem_keys_of_resolveHints hhints, Option.not_isSome_iff_eq_none] at hkey
    obtain ⟨hdir, hnodup⟩ := h.get?_dir c name
    rw [Keyed.get?_of_mem hnodup hp] at hdir
    obtain ⟨⟨a, m'⟩, hnearest, rfl⟩ := Option.map_eq_some_iff.1 hdir.symm
    exact .member hkey hnearest hfield

/-! ## The names of members -/

theorem pairwise_lt_dir (h : Hierarchy) (c : ClassRef) :
    (Keyed.keys (h.dir c)).Pairwise (· < ·) := by
  apply Keyed.pairwise_lt_sorted
  exact Keyed.nodup_keys_sorted_iff.1 (h.get?_dir c "").2

section Members

variable (hmembers : ((h.dir c).filter fun p => !isPrivate p.1).filterMapM
  (fun p => memberField ns c (Keyed.contains hints) p.1 p.2) = .ok members)
include hmembers

theorem pairwise_lt_members : (members.map (·.name)).Pairwise (· < ·) := by
  have hnames : (members.map (·.name)).Sublist
      (((h.dir c).filter fun p => !isPrivate p.1).map Prod.fst) :=
    sublist_of_filterMapM hmembers fun p f hf => (fieldOf_of_memberField hf).name_eq
  apply List.Pairwise.sublist (hnames.trans (List.filter_sublist.map Prod.fst))
  exact pairwise_lt_dir h c

theorem mem_members_iff (hhints : resolveHints h ns c = .ok hints) :
    name ∈ members.map (·.name) ↔ h.ListsMember c name := by
  obtain ⟨hdir, hnodup⟩ := h.get?_dir c name
  have hcontains : Keyed.contains hints name = true ↔ (h.nearestHint? c name).isSome = true := by
    rw [Keyed.contains_iff_mem_keys, mem_keys_of_resolveHints hhints]
  constructor
  · intro hname
    obtain ⟨f, hf, rfl⟩ := List.mem_map.1 hname
    obtain ⟨⟨name, m⟩, hvisible, hfield⟩ := exists_of_mem_filterMapM hmembers hf
    obtain ⟨hp, hpublic⟩ := List.mem_filter.1 hvisible
    obtain rfl : f.name = name := (fieldOf_of_memberField hfield).name_eq
    rw [Keyed.get?_of_mem hnodup hp, eq_comm, Option.map_eq_some_iff] at hdir
    obtain ⟨⟨a, m'⟩, hnearest, rfl⟩ := hdir
    refine ⟨by simpa using hpublic, a, m', hnearest, fun hvalue => ?_⟩
    rw [← Option.not_isSome_iff_eq_none, ← hcontains]
    intro hhinted
    cases (memberField_eq_none_iff hfield).2 ⟨hvalue, hhinted⟩
  · rintro ⟨hpublic, a, m, hm, hvalue⟩
    have hmem : (name, m) ∈ h.dir c := Keyed.mem_of_get? (by rw [hdir, hm]; rfl)
    obtain ⟨o, ho, hfield⟩ :=
      exists_of_filterMapM hmembers (List.mem_filter.2 ⟨hmem, by simp [hpublic]⟩)
    cases o with
    | none =>
      obtain ⟨hisValue, hhinted⟩ := (memberField_eq_none_iff ho).1 rfl
      rw [hcontains, hvalue hisValue] at hhinted
      cases hhinted
    | some f =>
      obtain rfl : f.name = name := (fieldOf_of_memberField ho).name_eq
      exact List.mem_map_of_mem (hfield f rfl)

end Members

/-! ## The listing -/

/-- Hints take the places of members of their names; those of other names follow. -/
theorem names_of_members (hnodup : (members.map (·.name)).Nodup) (hkeys : (Keyed.keys hints).Nodup) :
    (Keyed.values (Keyed.putAll (Keyed.ofList (members.map fun f => (f.name, f)))
        ((hints.filter fun p => !isPrivate p.1).map fun p => (p.1, hintField p.1 p.2)))).map (·.name) =
      members.map (·.name) ++ (Keyed.keys hints).filter fun name =>
        decide (name ∉ members.map (·.name)) && !isPrivate name := by
  have hmembers : Keyed.keys (members.map fun f => (f.name, f)) = members.map (·.name) := by
    rw [Keyed.keys, List.map_map]
    rfl
  have hshown : Keyed.keys ((hints.filter fun p => !isPrivate p.1).map
      fun p => (p.1, hintField p.1 p.2)) = (Keyed.keys hints).filter fun name => !isPrivate name := by
    rw [← Keyed.keys_filter, Keyed.keys, List.map_map]
    rfl
  rw [BuildEnv.names_of_entries, Keyed.ofList_eq_self (hmembers ▸ hnodup), Keyed.keys_putAll]
  · rw [hmembers, hshown, List.filter_filter]
  · rw [hshown]
    exact hkeys.sublist List.filter_sublist

/-- A class describes each name once: first those of members, sorted, then the other names of hints
in their order; and each field is made of what is nearest. -/
theorem listing_of_describeFields (hds : describeFields h ns c = .ok ds) :
    (ds.map (·.name)).Nodup ∧ (∀ f ∈ ds, f.IsNearest h ns c) ∧
    ∃ first : List String, first.Pairwise (· < ·) ∧ (∀ name, name ∈ first ↔ h.ListsMember c name) ∧
      ds.map (·.name) = first ++ (Keyed.keys (h.allHints c)).filter fun name =>
        decide (name ∉ first) && !isPrivate name := by
  have hnodup := @BuildEnv.nodup_names_of_describeFields ⟨h, ns, {}⟩ c ds hds
  refine ⟨hnodup, fun f hf => isNearest_of_describeFields hds hf, ?_⟩
  obtain ⟨hints, hhints, hds⟩ := ok_of_bind hds
  obtain ⟨members, hmembers, hds⟩ := ok_of_bind hds
  cases hds
  have hsorted := pairwise_lt_members hmembers
  refine ⟨members.map (·.name), hsorted, fun name => mem_members_iff hmembers hhints, ?_⟩
  rw [← keys_of_resolveHints hhints]
  apply names_of_members
  · refine List.Pairwise.imp (fun {a b} hlt => ?_) hsorted
    rintro rfl
    exact String.lt_irrefl a hlt
  · rw [keys_of_resolveHints hhints]
    exact h.nodup_keys_allHints c

namespace Sample

def resident : ClassRef := ⟨6, "Resident"⟩

def keeper : ClassRef := ⟨7, "Keeper"⟩

/-- Keepers are residents whose name may be absent, who hold keys of their own and give an inherited
hint a value. -/
def keeperDeclarations : List ClassDef :=
  [((ClassDef.named "Resident").annotate "email" (.text "str")).addProperty
      { name := "name", doc := some "Given on arrival.", returns := .text "str", body := .self }
      |>.addMember "age" (.value (.int 40)),
    { ((ClassDef.named "Keeper").annotate "_keys" (.text "List[str]")).annotate "name"
        (.text "Optional[str]")
      |>.addMember "email" (.value (.str "keeper@zoo"))
      |>.addMethod stamp with bases := [resident] }]

def keeperHierarchy : Hierarchy := keeperDeclarations.foldl Hierarchy.declare .builtin

/-- Only the address, which is a value with a hint, is listed behind the members; the name, a property
with a hint, keeps its place among them. -/
theorem listing_keeper : ∃ ds, describeFields keeperHierarchy {} keeper = .ok ds ∧
    ds.map (fun f => (f.name, f.source)) = [("age", .inferredAttribute), ("name", .attribute),
      ("stamp", .method), ("email", .attribute)] ∧
    ∀ f ∈ ds, f.IsNearest keeperHierarchy {} keeper := by
  obtain ⟨ds, hds, hshown⟩ := exists_ok_of_any
    (x := describeFields keeperHierarchy {} keeper)
    (p := fun ds => ds.map (fun f => (f.name, f.source)) == [("age", .inferredAttribute),
      ("name", .attribute), ("stamp", .method), ("email", .attribute)])
    (by decide +kernel)
  obtain ⟨-, hnearest, -⟩ := listing_of_describeFields hds
  exact ⟨ds, hds, beq_iff_eq.1 hshown, hnearest⟩

end Sample

end HintSchema
