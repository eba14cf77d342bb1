import Mathlib.Data.List.Find
import HintSchema.Proofs.Outcome
import HintSchema.Proofs.Entries
import HintSchema.World

/-!
# Instances of records

An instance of a record class has one attribute for each field, in their order
(`Hierarchy.attrs_of_construct`).  Each has the value of the argument of its name, or that which the
class has for the field.  An instance is made when no field is without a value and no argument is
left over (`Hierarchy.recordAttrs_eq_ok_iff`), and the order of the arguments makes no difference to it
(`Hierarchy.construct_from_keywords`).
-/

namespace HintSchema

namespace Keyed

variable {α : Type} {entries : List (String × α)} {k key : String}

theorem get?_erase_of_ne (hne : key ≠ k) : get? (erase entries k) key = get? entries key := by
  induction entries with
  | nil => rfl
  | cons e rest ih =>
    obtain ⟨k', v⟩ := e
    rw [erase]
    split_ifs with hk
    · rw [get?_cons, if_neg (hk ▸ hne.symm)]
    · rw [get?_cons, get?_cons, ih]

theorem mem_keys_erase_of_ne (hne : key ≠ k) : key ∈ keys (erase entries k) ↔ key ∈ keys entries := by
  rw [← not_iff_not, ← get?_eq_none_iff, ← get?_eq_none_iff, get?_erase_of_ne hne]

theorem erase_eq_filter (h : (keys entries).Nodup) :
    erase entries k = entries.filter fun p => p.1 ≠ k := by
  induction entries with
  | nil => rfl
  | cons e rest ih =>
    obtain ⟨key, v⟩ := e
    obtain ⟨hkey, hrest⟩ := List.nodup_cons.1 h
    rw [erase, List.filter_cons]
    by_cases hk : key = k
    · subst hk
      rw [if_pos rfl, if_neg (by simp), eq_comm, List.filter_eq_self]
      intro p hp
      have hmem : p.1 ∈ keys rest := List.mem_map_of_mem hp
      exact decide_eq_true fun he => hkey (he ▸ hmem)
    · rw [if_neg hk, if_pos (by simpa using hk), ih hrest]

/-- What is left of distinct entries after some are taken out. -/
theorem foldl_erase (h : (keys entries).Nodup) (names : List String) :
    names.foldl erase entries = entries.filter fun p => p.1 ∉ names := by
  induction names generalizing entries with
  | nil => simp
  | cons name rest ih =>
    have hkeep : (keys (entries.filter fun p => p.1 ≠ name)).Nodup := by
      rw [keys_filter fun k => decide (k ≠ name)]
      exact h.filter _
    rw [List.foldl_cons, erase_eq_filter h, ih hkeep, List.filter_filter]
    refine List.filter_congr fun p _ => ?_
    simp [Bool.and_comm]

end Keyed

namespace Hierarchy

variable {h : Hierarchy} {c : ClassRef} {kwargs attrs : Args} {names given : List String}
  {v : Value} {i j : Nat}

/-- A field is listed where it is declared first, from the farthest class on. -/
theorem fields_eq (h : Hierarchy) (c : ClassRef) :
    h.fields c = ((h.lineage c).reverse.flatMap fun p => p.2.recordFields).eraseDups := by
  rw [fields, ← List.foldl_flatMap]
  exact Keyed.foldl_eraseDups [] _

theorem nodup_fields (h : Hierarchy) (c : ClassRef) : (h.fields c).Nodup := by
  rw [fields_eq]
  exact Keyed.nodup_eraseDups _

/-- The value that a class has for a field. -/
def default? (h : Hierarchy) (c : ClassRef) (field : String) : Option Value :=
  match h.lookup c field with
  | some (.value v) => some v
  | _ => none

theorem default?_eq_some_iff {field : String} :
    h.default? c field = some v ↔ h.lookup c field = some (.value v) := by
  unfold default?
  split <;> simp_all

/-- The value that a field is given: that of an argument, or else that of the class. -/
def GivesField (h : Hierarchy) (c : ClassRef) (kwargs : Args) (field : String) (v : Value) : Prop :=
  Keyed.get? kwargs field = some v ∨
    Keyed.get? kwargs field = none ∧ h.lookup c field = some (.value v)

theorem givesField_iff {field : String} : h.GivesField c kwargs field v ↔
    (Keyed.get? kwargs field).or (h.default? c field) = some v := by
  rw [GivesField, Option.or_eq_some_iff, default?_eq_some_iff]

theorem bindFields_eq (field : String) (rest : List String) (kwargs : Args) :
    h.bindFields c (field :: rest) kwargs =
      match (Keyed.get? kwargs field).or (h.default? c field) with
      | some v => (h.bindFields c rest (Keyed.erase kwargs field)).map fun p =>
          ((field, v) :: p.1, p.2)
      | none => .error (.missingArgument c.name field) := by
  rw [bindFields, default?]
  cases Keyed.get? kwargs field with
  | some v => cases h.bindFields c rest (Keyed.erase kwargs field) <;> rfl
  | none =>
    cases h.lookup c field with
    | none => rfl
    | some member =>
      cases member with
      | value v => cases h.bindFields c rest (Keyed.erase kwargs field) <;> rfl
      | property | method => rfl

/-- The first of some fields that is neither given nor has a value in the class. -/
def missing? (h : Hierarchy) (c : ClassRef) (names given : List String) : Option String :=
  names.find? fun field => decide (field ∉ given) && (h.default? c field).isNone

theorem missing?_eq_none_iff : h.missing? c names given = none ↔
    ∀ field ∈ names, field ∉ given → (h.default? c field).isSome = true := by
  simp [missing?, Option.isSome_iff_ne_none]

theorem missing?_cons (field : String) (names given : List String) :
    h.missing? c (field :: names) given =
      if field ∉ given ∧ h.default? c field = none then some field
      else h.missing? c names given := by
  simp only [missing?, List.find?_cons]
  split <;> split_ifs <;> simp_all

theorem missing?_congr {given' : List String}
    (hgiven : ∀ field ∈ names, field ∈ given ↔ field ∈ given') :
    h.missing? c names given = h.missing? c names given' :=
  List.find?_congr fun field hfield => by simp only [hgiven field hfield]

/-- No field is missing when each is given a value. -/
theorem missing?_eq_none_iff_gives : h.missing? c names (Keyed.keys kwargs) = none ↔
    ∀ field ∈ names, ∃ v, h.GivesField c kwargs field v := by
  rw [missing?_eq_none_iff]
  refine forall₂_congr fun field _ => ?_
  simp only [givesField_iff, ← Option.isSome_iff_exists, Option.isSome_or, Bool.or_eq_true]
  rw [← Keyed.get?_eq_none_iff, ← Option.not_isSome_iff_eq_none, ← or_iff_not_imp_left]

/-- The attributes of some fields, as far as they have values. -/
def attrsOf (h : Hierarchy) (c : ClassRef) (kwargs : Args) (names : List String) : Args :=
  names.map fun field => (field, ((Keyed.get? kwargs field).or (h.default? c field)).getD .null)

theorem forall₂_attrsOf (hmissing : h.missing? c names (Keyed.keys kwargs) = none) :
    List.Forall₂ (fun field a => a.1 = field ∧ h.GivesField c kwargs field a.2) names
      (h.attrsOf c kwargs names) := by
  rw [attrsOf, List.forall₂_map_right_iff, List.forall₂_same]
  intro field hfield
  obtain ⟨v, hv⟩ := missing?_eq_none_iff_gives.1 hmissing field hfield
  exact ⟨rfl, by rw [givesField_iff.1 hv, Option.getD_some]; exact hv⟩

/-- Binding stops at the first field that is missing; otherwise the arguments of the fields are used
up, those for one field being none of those for another. -/
theorem bindFields_of_nodup (hnames : names.Nodup) :
    h.bindFields c names kwargs =
      match h.missing? c names (Keyed.keys kwargs) with
      | some field => .error (.missingArgument c.name field)
      | none => .ok (h.attrsOf c kwargs names, names.foldl Keyed.erase kwargs) := by
  induction names generalizing kwargs with
  | nil => rfl
  | cons field rest ih =>
    obtain ⟨hfield, hrest⟩ := List.nodup_cons.1 hnames
    have hne : ∀ f ∈ rest, f ≠ field := by
      rintro f hf rfl
      exact hfield hf
    rw [bindFields_eq, missing?_cons]
    cases hv : (Keyed.get? kwargs field).or (h.default? c field) with
    | none =>
      obtain ⟨hget, hdefault⟩ := Option.or_eq_none_iff.1 hv
      rw [if_pos ⟨Keyed.get?_eq_none_iff.1 hget, hdefault⟩]
    | some v =>
      have hgiven : ¬ (field ∉ Keyed.keys kwargs ∧ h.default? c field = none) := by
        rintro ⟨hget, hdefault⟩
        rw [Keyed.get?_eq_none_iff.2 hget, hdefault] at hv
        cases hv
      have hmissing : h.missing? c rest (Keyed.keys (Keyed.erase kwargs field)) =
          h.missing? c rest (Keyed.keys kwargs) :=
        missing?_congr fun f hf => Keyed.mem_keys_erase_of_ne (hne f hf)
      have hattrs : h.attrsOf c (Keyed.erase kwargs field) rest = h.attrsOf c kwargs rest :=
        List.map_congr_left fun f hf => by rw [Keyed.get?_erase_of_ne (hne f hf)]
      have hhead : h.attrsOf c kwargs (field :: rest) = (field, v) :: h.attrsOf c kwargs rest := by
        rw [attrsOf, List.map_cons, hv]
        rfl
      rw [if_neg hgiven, ih hrest, hmissing, hattrs, hhead, List.foldl_cons]
      cases h.missing? c rest (Keyed.keys kwargs) <;> rfl

/-! ## Making an instance -/

/-- A record has attributes when no field is missing and the fields use all arguments up. -/
theorem recordAttrs_eq_ok_iff : h.recordAttrs c kwargs = .ok attrs ↔
    h.isRecord c = true ∧ h.missing? c (h.fields c) (Keyed.keys kwargs) = none ∧
      (h.fields c).foldl Keyed.erase kwargs = [] ∧ attrs = h.attrsOf c kwargs (h.fields c) := by
  rw [recordAttrs, bindFields_of_nodup (h.nodup_fields c)]
  cases h.isRecord c with
  | false => simp
  | true =>
    cases h.missing? c (h.fields c) (Keyed.keys kwargs) with
    | some field => simp
    | none => cases (h.fields c).foldl Keyed.erase kwargs <;> simp [eq_comm]

theorem recordAttrs_of_missing {field : String} (hrecord : h.isRecord c = true)
    (hmissing : h.missing? c (h.fields c) (Keyed.keys kwargs) = some field) :
    h.recordAttrs c kwargs = .error (.missingArgument c.name field) := by
  rw [recordAttrs, if_pos hrecord, bindFields_of_nodup (h.nodup_fields c), hmissing]

/-- An instance carries the next identity. -/
theorem construct_eq (h : Hierarchy) (c : ClassRef) (kwargs : Args) (i : Nat) :
    h.construct c kwargs i = (h.recordAttrs c kwargs).map fun attrs => (.object i c attrs, i + 1) := by
  unfold construct
  cases h.recordAttrs c kwargs <;> rfl

theorem construct_eq_ok_iff {r : Value × Nat} : h.construct c kwargs i = .ok r ↔
    ∃ attrs, h.recordAttrs c kwargs = .ok attrs ∧ r = (.object i c attrs, i + 1) := by
  rw [construct_eq]
  constructor
  · exact ok_of_map
  · rintro ⟨attrs, hattrs, rfl⟩
    rw [hattrs]
    rfl

theorem attrs_of_construct (hv : h.construct c kwargs i = .ok (v, j)) :
    ∃ ident attrs, v = .object ident c attrs ∧
      List.Forall₂ (fun field a => a.1 = field ∧ h.GivesField c kwargs field a.2) (h.fields c)
        attrs := by
  obtain ⟨attrs, hattrs, hr⟩ := construct_eq_ok_iff.1 hv
  obtain ⟨-, hmissing, -, rfl⟩ := recordAttrs_eq_ok_iff.1 hattrs
  cases hr
  exact ⟨i, _, rfl, forall₂_attrsOf hmissing⟩

/-! ## Keyword arguments -/

section Keywords

variable (hkeys : (Keyed.keys kwargs).Nodup)
include hkeys

/-- No argument is left over when each is for a field. -/
theorem foldl_erase_eq_nil_iff :
    names.foldl Keyed.erase kwargs = [] ↔ ∀ name ∈ Keyed.keys kwargs, name ∈ names := by
  rw [Keyed.foldl_erase hkeys, List.filter_eq_nil_iff, Keyed.keys, List.forall_mem_map]
  simp

theorem recordAttrs_ok_iff_of_nodup : h.recordAttrs c kwargs = .ok attrs ↔
    h.isRecord c = true ∧ (∀ field ∈ h.fields c, ∃ v, h.GivesField c kwargs field v) ∧
      (∀ name ∈ Keyed.keys kwargs, name ∈ h.fields c) ∧
      attrs = h.attrsOf c kwargs (h.fields c) := by
  rw [recordAttrs_eq_ok_iff, missing?_eq_none_iff_gives, foldl_erase_eq_nil_iff hkeys]

/-- The attributes are the same whatever the order of the arguments is. -/
theorem recordAttrs_of_perm {kwargs' : Args} (hperm : kwargs'.Perm kwargs) :
    h.recordAttrs c kwargs' = .ok attrs ↔ h.recordAttrs c kwargs = .ok attrs := by
  have hkeys' : (Keyed.keys kwargs').Nodup := (hperm.map Prod.fst).nodup_iff.2 hkeys
  have hmem : ∀ name, name ∈ Keyed.keys kwargs' ↔ name ∈ Keyed.keys kwargs := fun _ =>
    (hperm.map Prod.fst).mem_iff
  have hget := Keyed.get?_of_perm hperm hkeys
  rw [recordAttrs_ok_iff_of_nodup hkeys', recordAttrs_ok_iff_of_nodup hkeys]
  simp only [GivesField, attrsOf, hget, hmem]

/-- An instance is made of a record class just when each of its fields is given or has a value in
the class, and each argument is for a field.  It is a new instance of the class, with the fields for
its attributes, each with the argument if there is one and the value of the class if not.  Arguments
in another order make the same instance, or none either. -/
theorem construct_from_keywords (i : Nat) :
    ((∃ r, h.construct c kwargs i = .ok r) ↔
      h.isRecord c = true ∧
      (∀ field ∈ h.fields c,
        field ∈ Keyed.keys kwargs ∨ ∃ v, h.lookup c field = some (.value v)) ∧
      ∀ name ∈ Keyed.keys kwargs, name ∈ h.fields c) ∧
    (∀ v j, h.construct c kwargs i = .ok (v, j) → ∃ attrs, v = .object i c attrs ∧ j = i + 1 ∧
      List.Forall₂ (fun field a => a.1 = field ∧ h.GivesField c kwargs field a.2) (h.fields c)
        attrs) ∧
    ∀ kwargs' : Args, kwargs'.Perm kwargs → ∀ r,
      h.construct c kwargs' i = .ok r ↔ h.construct c kwargs i = .ok r := by
  have hgives : ∀ field, (∃ v, h.GivesField c kwargs field v) ↔
      field ∈ Keyed.keys kwargs ∨ ∃ v, h.lookup c field = some (.value v) := by
    intro field
    cases hget : Keyed.get? kwargs field with
    | some v =>
      have hmem : field ∈ Keyed.keys kwargs := List.mem_map_of_mem (Keyed.mem_of_get? hget)
      exact iff_of_true ⟨v, .inl hget⟩ (.inl hmem)
    | none => simp [GivesField, hget, Keyed.get?_eq_none_iff.1 hget]
  refine ⟨?_, ?_, ?_⟩
  · simp only [construct_eq_ok_iff, recordAttrs_ok_iff_of_nodup hkeys, hgives]
    constructor
    · rintro ⟨_, _, ⟨hrecord, hfields, hnames, -⟩, -⟩
      exact ⟨hrecord, hfields, hnames⟩
    · rintro ⟨hrecord, hfields, hnames⟩
      exact ⟨_, _, ⟨hrecord, hfields, hnames, rfl⟩, rfl⟩
  · intro v j hv
    obtain ⟨attrs, hattrs, hr⟩ := construct_eq_ok_iff.1 hv
    obtain ⟨-, hmissing, -, rfl⟩ := recordAttrs_eq_ok_iff.1 hattrs
    cases hr
    exact ⟨_, rfl, rfl, forall₂_attrsOf hmissing⟩
  · intro kwargs' hperm r
    rw [construct_eq_ok_iff, construct_eq_ok_iff]
    exact exists_congr fun attrs => and_congr_left fun _ => recordAttrs_of_perm hkeys hperm

end Keywords

end Hierarchy

namespace Sample

def chest : ClassRef := ⟨8, "Chest"⟩

/-- The size of a chest where it is no attribute. -/
def usualSize : Property where
  name := "size"
  doc := none
  returns := .text "int"
  body := .const (.int 2)

/-- The classes of chests in their order: things that are labelled, which are no records, things that
have a size, and chests, which are both and have a property for the size. -/
def chests : Hierarchy :=
  [(ClassDef.named "Labelled").addMember "label" (.value (.str "empty")),
    { (ClassDef.named "Sized").attr "size" (.text "int") (.int 1) with
      capabilities := { record := true } },
    { ((ClassDef.named "Chest").annotate "label" (.text "str")).addProperty usualSize with
      capabilities := { record := true }
      bases := [⟨7, "Sized"⟩, ⟨6, "Labelled"⟩] }].foldl Hierarchy.declare .builtin

/-- The label of a chest may be left out, for it has a value in a class that is no record, but not the
size, whose value is hidden by the property. -/
theorem construct_chest :
    (∃ r, chests.construct chest [("size", .int 3)] 0 = .ok r) ∧
    (¬ ∃ r, chests.construct chest [("label", .str "frail")] 0 = .ok r) ∧
    (∀ r, chests.construct chest [("label", .str "frail"), ("size", .int 3)] 0 = .ok r ↔
      chests.construct chest [("size", .int 3), ("label", .str "frail")] 0 = .ok r) ∧
    ∃ attrs : Args, List.Forall₂ (fun field a => a.1 = field ∧
      chests.GivesField chest [("size", .int 3)] field a.2) ["size", "label"] attrs := by
  have hfields : chests.fields chest = ["size", "label"] := by decide +kernel
  have hlabel : chests.lookup chest "label" = some (.value (.str "empty")) := rfl
  have hsize : chests.lookup chest "size" = some (.property usualSize) := rfl
  have hrecord : chests.isRecord chest = true := by decide +kernel
  have hmade : ∃ r, chests.construct chest [("size", .int 3)] 0 = .ok r := by
    refine (Hierarchy.construct_from_keywords (by decide) 0).1.2 ⟨hrecord, ?_, ?_⟩
    · rw [hfields]
      simp [Keyed.keys, hlabel]
    · rw [hfields]
      simp [Keyed.keys]
  refine ⟨hmade, fun hnot => ?_, ?_, ?_⟩
  · have hgiven := ((Hierarchy.construct_from_keywords (by decide) 0).1.1 hnot).2.1 "size"
    rw [hfields] at hgiven
    simp [Keyed.keys, hsize] at hgiven
  · exact (Hierarchy.construct_from_keywords (by decide) 0).2.2 _ (.swap ..)
  · obtain ⟨⟨v, j⟩, hv⟩ := hmade
    obtain ⟨attrs, -, -, hattrs⟩ :=
      (Hierarchy.construct_from_keywords (by decide) 0).2.1 v j hv
    exact ⟨attrs, hfields ▸ hattrs⟩

end Sample

end HintSchema
