import HintSchema.Proofs.Linearization
import HintSchema.Proofs.Listing
import HintSchema.Proofs.Records

/-!
# The inherited views of a class

Members, hints and record fields are inherited by one rule: what is found is what the first class
along the order of lookup declares, and no class below that one declares anything of the name
(`Hierarchy.Supplies`).  The order of lookup being a linear extension of inheritance, the one follows
from the other (`Linearizes.supplies_iff`).  Hints and fields are listed in the order in which the
classes declare their names, the farthest first (`Hierarchy.declaredNames`).
-/

namespace HintSchema

/-- What a class itself declares as the member of a name. -/
def ClassDef.member? (name : String) (d : ClassDef) : Option Member := Keyed.get? d.members name

/-- What a class itself declares as the hint of a name. -/
def ClassDef.hint? (name : String) (d : ClassDef) : Option Hint :=
  Keyed.get? (Keyed.ofList d.hints) name

namespace Hierarchy

variable {α : Type} {h : Hierarchy} {a b c : ClassRef} {find : ClassDef → Option α} {x : α}
  {name : String} {order nearer farther : List ClassRef}

/-- What the declaration of a class holds. -/
def own? (h : Hierarchy) (find : ClassDef → Option α) (a : ClassRef) : Option α :=
  (h.find? a).bind find

/-- A class inherits what one of its ancestors, or itself, declares: the first along the order of
lookup to declare such a thing, and with no class between them in the hierarchy that does. -/
structure Supplies (h : Hierarchy) (c : ClassRef) (find : ClassDef → Option α) (a : ClassRef)
    (x : α) : Prop where
  declares : h.own? find a = some x
  first : ∃ nearer farther, h.mro c = nearer ++ a :: farther ∧ ∀ b ∈ nearer, h.own? find b = none
  unshadowed : ∀ b ∈ h.mro c, h.isSubclass b a = true → b ≠ a → h.own? find b = none

/-- The names that a class and its ancestors declare, one class after the other from the farthest
on. -/
def declaredNames (h : Hierarchy) (c : ClassRef) (names : ClassDef → List String) : List String :=
  (h.mro c).reverse.flatMap fun a => ((h.find? a).map names).getD []

/-! ## The nearest declaration -/

theorem nearest?_eq (h : Hierarchy) (c : ClassRef) (find : ClassDef → Option α) :
    h.nearest? c find = (h.mro c).findSome? fun a => (h.own? find a).map (a, ·) := by
  rw [nearest?, lineage]
  induction h.mro c with
  | nil => rfl
  | cons a rest ih =>
    rw [List.filterMap_cons, List.findSome?_cons, own?]
    cases h.find? a with
    | none => exact ih
    | some d => rw [Option.map_some, List.findSome?_cons, ih]; rfl

theorem nearest?_eq_some_iff : h.nearest? c find = some (a, x) ↔
    h.own? find a = some x ∧
      ∃ nearer farther, h.mro c = nearer ++ a :: farther ∧ ∀ b ∈ nearer, h.own? find b = none := by
  simp only [nearest?_eq, List.findSome?_eq_some_iff, Option.map_eq_some_iff,
    Option.map_eq_none_iff]
  constructor
  · rintro ⟨nearer, a', farther, hmro, ⟨y, hy, hp⟩, hnearer⟩
    cases hp
    exact ⟨hy, nearer, farther, hmro, hnearer⟩
  · rintro ⟨hx, nearer, farther, hmro, hnearer⟩
    exact ⟨nearer, a, farther, hmro, ⟨x, hx, rfl⟩, hnearer⟩

/-- What stands before an entry of a list without repetitions is in front of it. -/
theorem mem_nearer_of_sublist (hnodup : (nearer ++ a :: farther).Nodup)
    (hsub : [b, a].Sublist (nearer ++ a :: farther)) : b ∈ nearer := by
  induction nearer with
  | nil =>
    obtain ⟨ha, -⟩ := List.nodup_cons.1 hnodup
    cases hsub with
    | cons _ hsub => exact absurd (hsub.subset (by simp)) ha
    | cons_cons _ hsub => exact absurd (List.singleton_sublist.1 hsub) ha
  | cons b' rest ih =>
    cases hsub with
    | cons _ hsub => exact List.mem_cons_of_mem _ (ih (List.nodup_cons.1 hnodup).2 hsub)
    | cons_cons _ _ => exact List.mem_cons_self

/-- In a linear extension the classes below the first one that declares something come before it, so
none of them declares anything. -/
theorem Linearizes.supplies_iff (hlinear : h.Linearizes c (h.mro c)) :
    h.Supplies c find a x ↔ h.nearest? c find = some (a, x) := by
  rw [nearest?_eq_some_iff]
  refine ⟨fun ⟨hx, hfirst, _⟩ => ⟨hx, hfirst⟩, fun ⟨hx, nearer, farther, hmro, hnearer⟩ => ?_⟩
  refine ⟨hx, ⟨nearer, farther, hmro, hnearer⟩, fun b hb hsub hne => hnearer b ?_⟩
  have ha : a ∈ h.mro c := hmro ▸ List.mem_append_right _ List.mem_cons_self
  have hbefore := hlinear.before b hb a ((hlinear.mem_iff a).1 ha).1 hsub hne.symm
  rw [hmro] at hbefore
  exact mem_nearer_of_sublist (hmro ▸ hlinear.distinct.of_map _) hbefore

theorem lookup_eq (h : Hierarchy) (c : ClassRef) (name : String) :
    h.lookup c name = (h.nearestMember? c name).map Prod.snd := by
  rw [lookup, nearestMember?, nearest?]
  induction h.lineage c with
  | nil => rfl
  | cons p rest ih =>
    obtain ⟨a, d⟩ := p
    rw [List.findSome?_cons, List.findSome?_cons, ih]
    dsimp only
    cases Keyed.get? d.members name <;> rfl

/-! ## The order of names -/

theorem declaredNames_eq (h : Hierarchy) (c : ClassRef) (names : ClassDef → List String) :
    (h.lineage c).reverse.flatMap (fun p => names p.2) = h.declaredNames c names := by
  rw [lineage, ← List.filterMap_reverse, declaredNames]
  induction (h.mro c).reverse with
  | nil => rfl
  | cons a rest ih =>
    rw [List.filterMap_cons, List.flatMap_cons]
    cases h.find? a with
    | none => exact ih
    | some d => rw [Option.map_some, List.flatMap_cons, ih]; rfl

theorem mem_declaredNames_iff {names : ClassDef → List String} :
    name ∈ h.declaredNames c names ↔ ∃ a ∈ h.mro c, ∃ d, h.find? a = some d ∧ name ∈ names d := by
  rw [← declaredNames_eq, List.mem_flatMap]
  simp only [List.mem_reverse, Prod.exists, mem_lineage_iff]
  constructor
  · rintro ⟨a, d, ⟨ha, hd⟩, hname⟩
    exact ⟨a, ha, d, hd, hname⟩
  · rintro ⟨a, ha, d, hd, hname⟩
    exact ⟨a, d, ⟨ha, hd⟩, hname⟩

/-- A hint keeps the place of the first declaration of its name when it is declared again. -/
theorem keys_allHints (h : Hierarchy) (c : ClassRef) :
    Keyed.keys (h.allHints c) = (h.declaredNames c fun d => Keyed.keys d.hints).eraseDups := by
  have hfold : h.allHints c = Keyed.ofList ((h.lineage c).reverse.flatMap fun p =>
      p.2.hints.map fun e => (e.1, p.1, e.2)) := List.foldl_flatMap.symm
  rw [hfold, Keyed.keys_ofList, Keyed.keys, List.map_flatMap, ← declaredNames_eq]
  congr 2
  funext p
  rw [List.map_map]
  rfl

theorem mem_fields_iff : name ∈ h.fields c ↔
    ∃ a ∈ h.mro c, ∃ d, h.find? a = some d ∧ d.capabilities.record = true ∧ name ∈ d.declared := by
  rw [fields_eq, List.mem_eraseDups, declaredNames_eq, mem_declaredNames_iff]
  refine exists_congr fun a => and_congr_right fun _ => exists_congr fun d =>
    and_congr_right fun _ => ?_
  rw [ClassDef.recordFields]
  split_ifs with hrecord
  · exact (and_iff_right hrecord).symm
  · exact iff_of_false List.not_mem_nil fun hname => hrecord hname.1

/-! ## The views together -/

/-- The views of a class show one inheritance: the same members in `dir` as by `lookup`, each
supplied by a class, as hints are, and names in the order of their declaration. -/
structure ViewsAgree (h : Hierarchy) (c : ClassRef) : Prop where
  dir : ∀ name, Keyed.get? (h.dir c) name = h.lookup c name
  dir_sorted : (Keyed.keys (h.dir c)).Pairwise (· < ·)
  members : ∀ name m, h.lookup c name = some m ↔ ∃ a, h.Supplies c (·.member? name) a m
  hints : ∀ name a hint,
    Keyed.get? (h.allHints c) name = some (a, hint) ↔ h.Supplies c (·.hint? name) a hint
  hinted : ∀ name, name ∈ Keyed.keys (h.allHints c) ↔
    ∃ a ∈ h.mro c, ∃ d, h.find? a = some d ∧ name ∈ Keyed.keys d.hints
  hints_order :
    Keyed.keys (h.allHints c) = (h.declaredNames c fun d => Keyed.keys d.hints).eraseDups
  fields_nodup : (h.fields c).Nodup
  fields : ∀ name, name ∈ h.fields c ↔ ∃ a ∈ h.mro c, ∃ d,
    h.find? a = some d ∧ d.capabilities.record = true ∧ name ∈ d.declared
  fields_order : h.fields c = (h.declaredNames c (·.recordFields)).eraseDups

theorem WellFormed.viewsAgree (hw : h.WellFormed) (hc : h.Has c) : h.ViewsAgree c := by
  obtain ⟨hlinearizes, -⟩ := hw.linearizes_mro
  have hlinear := hlinearizes c hc
  refine ⟨fun name => ?_, pairwise_lt_dir h c, fun name m => ?_, fun name a hint => ?_,
    fun name => ?_, h.keys_allHints c, h.nodup_fields c, fun name => mem_fields_iff, ?_⟩
  · rw [lookup_eq, (h.get?_dir c name).1]
  · rw [lookup_eq, Option.map_eq_some_iff]
    simp only [hlinear.supplies_iff, Prod.exists, exists_eq_right]
    rfl
  · rw [get?_allHints, hlinear.supplies_iff]
    rfl
  · rw [keys_allHints, List.mem_eraseDups, mem_declaredNames_iff]
  · rw [fields_eq, declaredNames_eq]

end Hierarchy

namespace Sample

/-- The name of an amphibian is declared first by vehicles, but its hint is that of boats. -/
theorem viewsAgree_amphibian : fleet.WellFormed ∧ fleet.Has amphibian ∧
    Keyed.get? (fleet.dir amphibian) "wheels" = some (.value (.int 4)) ∧
    Keyed.keys (fleet.allHints amphibian) = ["name", "wheels", "draught"] ∧
    fleet.Supplies amphibian (·.hint? "name") boat (.text "Optional[str]") ∧
    fleet.fields amphibian = ["name", "draught"] := by
  have hamphibian : fleet.Has amphibian := ⟨_, rfl, rfl⟩
  have hviews := wellFormed_fleet.viewsAgree hamphibian
  refine ⟨wellFormed_fleet, hamphibian, ?_, ?_, ?_, ?_⟩
  · rw [hviews.dir]
    rfl
  · rw [hviews.hints_order]
    decide +kernel
  · exact (hviews.hints "name" boat (.text "Optional[str]")).1 rfl
  · rw [hviews.fields_order]
    decide +kernel

end Sample

end HintSchema
