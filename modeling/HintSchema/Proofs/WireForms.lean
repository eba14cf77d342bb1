import Mathlib.Data.List.Basic
import HintSchema.Scalar

/-!
# Wire forms of literals

Every wire value is a literal, and as such its own wire form (`Wire.toWire_toLiteral`).  Literals have
two kinds more.  A binary text has no wire form, and neither has a literal that holds one at any depth
(`Literal.toWire_eq_none_iff`); the name of an enum value becomes a string, so that from its wire form
a literal comes back with strings for these names (`Literal.toLiteral_of_toWire`).  Scalars whose
literals have no rule of their own therefore read a wire value and its literal alike
(`ScalarHooks.parseLiteral_toLiteral`).
-/

namespace HintSchema

/-! ## Wire values as literals -/

namespace Wire

mutual

/-- The literal of a wire value becomes that wire value, with the entries of objects in their order. -/
theorem toWire_toLiteral : ∀ w : Wire, w.toLiteral.toWire = some w
  | .null | .bool _ | .number _ | .str _ => rfl
  | .list items => by rw [toLiteral, Literal.toWire, toWires_toLiterals items, Option.map_some]
  | .object entries => by
    rw [toLiteral, Literal.toWire, toWireEntries_toLiteralEntries entries, Option.map_some]

theorem toWires_toLiterals : ∀ items : List Wire, Literal.toWires (toLiterals items) = some items
  | [] => rfl
  | item :: rest => by
    simp [toLiterals, Literal.toWires, toWire_toLiteral item, toWires_toLiterals rest]

theorem toWireEntries_toLiteralEntries : ∀ entries : List (String × Wire),
    Literal.toWireEntries (toLiteralEntries entries) = some entries
  | [] => rfl
  | (key, value) :: rest => by
    simp [toLiteralEntries, Literal.toWireEntries, toWire_toLiteral value,
      toWireEntries_toLiteralEntries rest]

end

end Wire

/-! ## Literals with and without a wire form -/

namespace Literal

/-- A literal is a binary text or holds one, at any depth. -/
inductive HasBinary : Literal → Prop
  | binary (bytes : List UInt8) : HasBinary (.binary bytes)
  | item {items : List Literal} {l : Literal} : l ∈ items → HasBinary l → HasBinary (.list items)
  | entry {entries : List (String × Literal)} {p : String × Literal} :
      p ∈ entries → HasBinary p.2 → HasBinary (.object entries)

theorem hasBinary_list_iff {items : List Literal} :
    (list items).HasBinary ↔ ∃ l ∈ items, l.HasBinary := by
  constructor
  · intro h
    cases h with
    | item hmem h => exact ⟨_, hmem, h⟩
  · rintro ⟨l, hmem, h⟩
    exact .item hmem h

theorem hasBinary_object_iff {entries : List (String × Literal)} :
    (object entries).HasBinary ↔ ∃ p ∈ entries, p.2.HasBinary := by
  constructor
  · intro h
    cases h with
    | entry hmem h => exact ⟨_, hmem, h⟩
  · rintro ⟨p, hmem, h⟩
    exact .entry hmem h

mutual

/-- A literal has no wire form just when a binary text occurs in it. -/
theorem toWire_eq_none_iff : ∀ l : Literal, l.toWire = none ↔ l.HasBinary
  | .null | .bool _ | .number _ | .str _ | .enum _ => by
    refine iff_of_false ?_ ?_
    · simp [toWire]
    · intro h
      cases h
  | .binary bytes => iff_of_true rfl (.binary bytes)
  | .list items => by
    rw [toWire, Option.map_eq_none_iff, toWires_eq_none_iff items, hasBinary_list_iff]
  | .object entries => by
    rw [toWire, Option.map_eq_none_iff, toWireEntries_eq_none_iff entries, hasBinary_object_iff]

theorem toWires_eq_none_iff : ∀ items : List Literal,
    toWires items = none ↔ ∃ l ∈ items, l.HasBinary
  | [] => by simp [toWires]
  | item :: rest => by
    rw [List.exists_mem_cons_iff, ← toWire_eq_none_iff item, ← toWires_eq_none_iff rest, toWires]
    cases item.toWire <;> cases toWires rest <;> simp

theorem toWireEntries_eq_none_iff : ∀ entries : List (String × Literal),
    toWireEntries entries = none ↔ ∃ p ∈ entries, p.2.HasBinary
  | [] => by simp [toWireEntries]
  | (key, value) :: rest => by
    rw [List.exists_mem_cons_iff, ← toWire_eq_none_iff value, ← toWireEntries_eq_none_iff rest,
      toWireEntries]
    cases value.toWire <;> cases toWireEntries rest <;> simp

end

mutual

/-- The literal with strings for the names of enum values. -/
def withoutEnums : Literal → Literal
  | .null => .null
  | .bool b => .bool b
  | .number n => .number n
  | .str s => .str s
  | .enum name => .str name
  | .binary bytes => .binary bytes
  | .list items => .list (allWithoutEnums items)
  | .object entries => .object (entriesWithoutEnums entries)

/-- `withoutEnums` on each item. -/
def allWithoutEnums : List Literal → List Literal
  | [] => []
  | item :: rest => item.withoutEnums :: allWithoutEnums rest

/-- `withoutEnums` on each value of an object. -/
def entriesWithoutEnums : List (String × Literal) → List (String × Literal)
  | [] => []
  | (key, value) :: rest => (key, value.withoutEnums) :: entriesWithoutEnums rest

end

mutual

/-- From its wire form a literal comes back with strings for the names of enum values. -/
theorem toLiteral_of_toWire : ∀ {l : Literal} {w : Wire},
    l.toWire = some w → w.toLiteral = l.withoutEnums
  | .null, _, h | .bool _, _, h | .number _, _, h | .str _, _, h | .enum _, _, h => by
    cases h
    rfl
  | .binary _, _, h => by cases h
  | .list items, w, h => by
    obtain ⟨ws, hws, rfl⟩ := Option.map_eq_some_iff.1 h
    rw [Wire.toLiteral, withoutEnums, toLiterals_of_toWires hws]
  | .object entries, w, h => by
    obtain ⟨ws, hws, rfl⟩ := Option.map_eq_some_iff.1 h
    rw [Wire.toLiteral, withoutEnums, toLiteralEntries_of_toWireEntries hws]

theorem toLiterals_of_toWires : ∀ {items : List Literal} {ws : List Wire},
    toWires items = some ws → Wire.toLiterals ws = allWithoutEnums items
  | [], _, h => by
    cases h
    rfl
  | item :: rest, _, h => by
    obtain ⟨w, hw, h⟩ := Option.bind_eq_some_iff.1 h
    obtain ⟨ws, hws, h⟩ := Option.bind_eq_some_iff.1 h
    cases h
    rw [Wire.toLiterals, allWithoutEnums, toLiteral_of_toWire hw, toLiterals_of_toWires hws]

theorem toLiteralEntries_of_toWireEntries : ∀ {entries : List (String × Literal)}
    {ws : List (String × Wire)}, toWireEntries entries = some ws →
      Wire.toLiteralEntries ws = entriesWithoutEnums entries
  | [], _, h => by
    cases h
    rfl
  | (key, value) :: rest, _, h => by
    obtain ⟨w, hw, h⟩ := Option.bind_eq_some_iff.1 h
    obtain ⟨ws, hws, h⟩ := Option.bind_eq_some_iff.1 h
    cases h
    rw [Wire.toLiteralEntries, entriesWithoutEnums, toLiteral_of_toWire hw,
      toLiteralEntries_of_toWireEntries hws]

end

end Literal

/-! ## Literals and wire values of scalars -/

/-- The literal of a wire value is read as the wire value is, with the same failure if there is one,
unless literals have a rule of their own. -/
theorem ScalarHooks.parseLiteral_toLiteral {hooks : ScalarHooks} (he : hooks.enumLiterals = false)
    (w : Wire) : hooks.parseLiteral w.toLiteral = hooks.parseValue w := by
  unfold parseLiteral
  rw [he, if_neg Bool.false_ne_true, w.toWire_toLiteral]

/-- Wire values come back from their literals, and scalars read the two alike; literals come back
from their wire forms up to the names of enum values, unless a binary text keeps them from having
one. -/
theorem wire_forms_correspond :
    (∀ w : Wire, w.toLiteral.toWire = some w) ∧
    (∀ (hooks : ScalarHooks) (w : Wire), hooks.enumLiterals = false →
      hooks.parseLiteral w.toLiteral = hooks.parseValue w) ∧
    (∀ l : Literal, l.toWire = none ↔ l.HasBinary) ∧
    ∀ (l : Literal) (w : Wire), l.toWire = some w → w.toLiteral = l.withoutEnums :=
  ⟨Wire.toWire_toLiteral, fun _ w he => ScalarHooks.parseLiteral_toLiteral he w,
    Literal.toWire_eq_none_iff, fun _ _ => Literal.toLiteral_of_toWire⟩

namespace Sample

/-- A price in a currency, marked with a name of an enumeration. -/
def price : Literal :=
  .object [("marks", .list [.enum "FRESH", .null]), ("currency", .str "EUR")]

/-- The wire form of a price has the name as a string, and with a binary text beside it there is
none. -/
theorem wire_forms_price :
    (∃ w, price.toWire = some w ∧ w.toLiteral =
      .object [("marks", .list [.str "FRESH", .null]), ("currency", .str "EUR")]) ∧
    (Literal.list [price, .list [.binary [1]]]).toWire = none ∧
    (ScalarHooks.mk (.plain "at ") false).parseLiteral (Wire.str "at home").toLiteral =
      (ScalarHooks.mk (.plain "at ") false).parseValue (.str "at home") := by
  obtain ⟨-, hread, hnone, hback⟩ := wire_forms_correspond
  have hbinary : (Literal.list [price, .list [.binary [1]]]).HasBinary := by
    refine .item (l := .list [.binary [1]]) ?_ (.item List.mem_cons_self (.binary [1]))
    exact List.mem_cons_of_mem _ List.mem_cons_self
  exact ⟨⟨_, rfl, hback price _ rfl⟩, (hnone _).2 hbinary, hread _ _ rfl⟩

end Sample

end HintSchema
