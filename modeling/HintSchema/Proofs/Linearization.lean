import HintSchema.Proofs.Lineage

/-!
# The order of lookup

Inheritance orders the classes of a hierarchy partially, and the order in which members are looked up
extends it to a list (`Hierarchy.Linearizes`).  The walk along all paths lists an ancestor of a class
again behind each occurrence of the class (`AncestorsBehind`), so the last occurrences stand behind
one another as well.  `WellFormed.linearizes_mro` puts this together.
-/

namespace HintSchema.Hierarchy

variable {h : Hierarchy} {a b c : ClassRef} {l l' : List ClassRef}

/-- A list of a class and its ancestors: the class first, none of them twice, and each before its own
proper ancestors. -/
structure Linearizes (h : Hierarchy) (c : ClassRef) (order : List ClassRef) : Prop where
  first : order.head? = some c
  distinct : (order.map (·.id)).Nodup
  mem_iff : ∀ a, a ∈ order ↔ h.Has a ∧ h.isSubclass c a = true
  before : ∀ a ∈ order, ∀ b, h.Has b → h.isSubclass a b = true → b ≠ a → [a, b].Sublist order

/-! ## Ancestors behind a class -/

/-- Behind each class of a list stand all its proper ancestors. -/
def AncestorsBehind (h : Hierarchy) : List ClassRef → Prop
  | [] => True
  | a :: rest =>
    (∀ b, h.Has b → h.isSubclass a b = true → b ≠ a → b ∈ rest) ∧ h.AncestorsBehind rest

theorem AncestorsBehind.append (hl : h.AncestorsBehind l) (hl' : h.AncestorsBehind l') :
    h.AncestorsBehind (l ++ l') := by
  induction l with
  | nil => exact hl'
  | cons a rest ih =>
    refine ⟨fun b hb hsub hne => ?_, ih hl.2⟩
    exact List.mem_append_left _ (hl.1 b hb hsub hne)

theorem AncestorsBehind.flatMap {walk : ClassRef → List ClassRef}
    (hl : ∀ a ∈ l, h.AncestorsBehind (walk a)) : h.AncestorsBehind (l.flatMap walk) := by
  induction l with
  | nil => trivial
  | cons a rest ih =>
    obtain ⟨ha, hrest⟩ := List.forall_mem_cons.1 hl
    exact ha.append (ih hrest)

/-- The walk along all paths goes through the ancestors of a class right behind it. -/
theorem WellFormed.ancestorsBehind_walkIn (hw : h.WellFormed) (hc : h.Has c) :
    h.AncestorsBehind (walkIn h.defs c) := by
  refine hw.induction (motive := fun c => h.AncestorsBehind (walkIn h.defs c))
    (fun c decl hc hd ih => ?_) hc
  rw [hw.walkIn_eq hd]
  refine ⟨fun b hb hsub hne => ?_, .flatMap ih⟩
  have hmem := (hw.mem_walkIn_iff hc).2 ⟨hb, hsub⟩
  rw [hw.walkIn_eq hd] at hmem
  exact (List.mem_cons.1 hmem).resolve_left hne

/-- An ancestor whose last occurrence is behind some occurrence of a class is behind its last one. -/
theorem AncestorsBehind.keepLast (hl : ∀ a ∈ l, h.Has a) (hbehind : h.AncestorsBehind l) :
    h.AncestorsBehind (keepLast l) := by
  induction l with
  | nil => trivial
  | cons a rest ih =>
    obtain ⟨-, hrest⟩ := List.forall_mem_cons.1 hl
    rw [Hierarchy.keepLast_cons]
    split_ifs
    · exact ih hrest hbehind.2
    · refine ⟨fun b hb hsub hne => ?_, ih hrest hbehind.2⟩
      exact (mem_keepLast_iff hrest).2 (hbehind.1 b hb hsub hne)

theorem AncestorsBehind.sublist (hl : h.AncestorsBehind l) (ha : a ∈ l) (hb : h.Has b)
    (hsub : h.isSubclass a b = true) (hne : b ≠ a) : [a, b].Sublist l := by
  induction l with
  | nil => cases ha
  | cons a' rest ih =>
    rcases List.mem_cons.1 ha with rfl | ha
    · exact (List.singleton_sublist.2 (hl.1 b hb hsub hne)).cons_cons a
    · exact (ih hl.2 ha).cons a'

/-! ## Linear extension -/

theorem WellFormed.ancestorsBehind_mro (hw : h.WellFormed) (hc : h.Has c) :
    h.AncestorsBehind (h.mro c) :=
  .keepLast (fun _ ha => ((hw.mem_walkIn_iff hc).1 ha).1) (hw.ancestorsBehind_walkIn hc)

/-- Inheritance is a partial order of the classes, and the order of lookup of each class is a linear
extension of it. -/
theorem WellFormed.linearizes_mro (hw : h.WellFormed) :
    (∀ c, h.Has c → h.Linearizes c (h.mro c)) ∧
    (∀ c, h.Has c → h.isSubclass c c = true) ∧
    (∀ c a b, h.Has c → h.Has a → h.Has b → h.isSubclass c a = true → h.isSubclass a b = true →
      h.isSubclass c b = true) ∧
    ∀ c a, h.Has c → h.Has a → h.isSubclass c a = true → h.isSubclass a c = true → c = a := by
  refine ⟨fun c hc => ?_, fun c _ => h.isSubclass_self c,
    fun c a b hc _ _ => hw.isSubclass_trans hc, fun c a => hw.isSubclass_antisymm⟩
  obtain ⟨rest, hmro⟩ := hw.mro_eq_cons hc
  refine ⟨by rw [hmro]; rfl, nodup_ids_keepLast _, fun a => hw.mem_mro_iff hc, fun a ha b => ?_⟩
  exact (hw.ancestorsBehind_mro hc).sublist ha

end HintSchema.Hierarchy

namespace HintSchema.Sample

def vehicle : ClassRef := ⟨6, "Vehicle"⟩

def car : ClassRef := ⟨7, "Car"⟩

def boat : ClassRef := ⟨8, "Boat"⟩

def amphibian : ClassRef := ⟨9, "Amphibian"⟩

/-- An amphibian is a car and a boat, and says twice that it is a car.  Vehicles and boats are
records, and each kind of vehicle says something about its wheels or its name. -/
def fleet : Hierarchy :=
  [{ ((ClassDef.named "Vehicle").annotate "name" (.text "str")).addMember "wheels"
        (.value (.int 0)) with
      capabilities := { record := true } },
    { (ClassDef.named "Car").attr "wheels" (.text "int") (.int 4) with bases := [vehicle] },
    { ((ClassDef.named "Boat").annotate "draught" (.text "float")).annotate "name"
        (.text "Optional[str]") with
      bases := [vehicle], capabilities := { record := true } },
    { ClassDef.named "Amphibian" with bases := [car, boat, car] }].foldl Hierarchy.declare .builtin

theorem wellFormed_fleet : fleet.WellFormed := by
  refine .declare (.declare (.declare (.declare .builtin ?_) ?_) ?_) ?_
  · exact nofun
  · exact List.forall_mem_singleton.2 ⟨_, rfl, rfl⟩
  · exact List.forall_mem_singleton.2 ⟨_, rfl, rfl⟩
  · simp only [List.forall_mem_cons]
    exact ⟨⟨_, rfl, rfl⟩, ⟨_, rfl, rfl⟩, ⟨_, rfl, rfl⟩, nofun⟩

/-- A base that is named twice counts where it is named last. -/
theorem linearizes_amphibian : fleet.WellFormed ∧ fleet.Has amphibian ∧
    fleet.mro amphibian = [amphibian, boat, car, vehicle] ∧
    fleet.Linearizes amphibian [amphibian, boat, car, vehicle] := by
  have hamphibian : fleet.Has amphibian := ⟨_, rfl, rfl⟩
  obtain ⟨hlinear, -⟩ := wellFormed_fleet.linearizes_mro
  exact ⟨wellFormed_fleet, hamphibian, rfl, hlinear amphibian hamphibian⟩

end HintSchema.Sample
