import Mathlib.Algebra.Group.Nat.Defs
import HintSchema.Proofs.Entries
import HintSchema.Proofs.Outcome
import HintSchema.Proofs.WireForms

/-!
# Values of scalars and enumerations

`ScalarCodec.Holds` says which values the built-in scalars have: integers of 32 bits, finite
floating point numbers, texts and truth values.  Literals become no others
(`ScalarHooks.holds_of_parseLiteral`), and each of them has a literal that it is read back from
(`ScalarHooks.exists_serialize`).  The names of an enumeration stand for its members, each for that
of its own name where the values can be told apart (`EnumType.IsDistinct`).
-/

namespace HintSchema

/-! ## Integers as floating point numbers -/

namespace Binary64

theorem divHalfEven_le (num den : Nat) : divHalfEven num den ≤ num / den + 1 := by
  unfold divHalfEven
  dsimp only
  split_ifs <;> omega

/-- Each doubling of a magnitude past the 53 bits of a significand adds one to the exponent field. -/
theorem roundUnits_le {num e : Nat} (he : 53 ≤ e) (h : num < 2 ^ e) :
    roundUnits num 1 ≤ (e - 51) * fractions := by
  have hlog : num.log2 < e := by
    rcases Nat.eq_zero_or_pos num with rfl | hpos
    · rw [Nat.log2_zero]
      omega
    · exact (Nat.log2_lt (Nat.ne_of_gt hpos)).2 h
  have hquot : num / 2 ^ (num.log2 - 52) < 2 ^ 53 := by
    rw [Nat.div_lt_iff_lt_mul (Nat.two_pow_pos _), ← Nat.pow_add]
    exact Nat.lt_of_lt_of_le Nat.lt_log2_self (Nat.pow_le_pow_right (by decide) (by omega))
  have hround := divHalfEven_le num (2 ^ (num.log2 - 52))
  have hexponent := Nat.mul_le_mul_right fractions (show num.log2 - 52 + 2 ≤ e - 51 by omega)
  have hfractions : 2 ^ 53 = 2 * fractions := rfl
  simp only [roundUnits, Nat.div_one, Nat.one_mul, Nat.pow_eq]
  refine Nat.le_trans (Nat.min_le_left ..) (Nat.le_trans ?_ hexponent)
  rw [Nat.add_mul]
  omega

theorem isFinite_ofMagnitude {negative : Bool} {bits : Nat} (h : bits < infinityBits) :
    (ofMagnitude negative bits).isFinite = true := by
  have hbits : (ofMagnitude negative bits).magnitudeBits = bits := by
    simp only [infinityBits, fractions] at h
    simp only [magnitudeBits, ofMagnitude, UInt64.toNat_ofNat', signWeight]
    split_ifs <;> omega
  rw [isFinite, hbits]
  exact decide_eq_true h

theorem roundUnits_lt {m a units : Nat} (hm : m < 2 ^ a) (ha : 53 ≤ a)
    (hunits : a + (units.log2 + 1) < 2098) : roundUnits (m * units) 1 < infinityBits := by
  have hnum : m * units < 2 ^ (a + (units.log2 + 1)) := by
    rw [Nat.pow_add]
    exact Nat.mul_lt_mul_of_lt_of_le hm (Nat.le_of_lt Nat.lt_log2_self) (Nat.two_pow_pos _)
  exact Nat.lt_of_le_of_lt (roundUnits_le (by omega) hnum)
    (Nat.mul_lt_mul_of_pos_right (by omega) (by decide))

theorem log2_unitsPerOne : unitsPerOne.log2 = 1074 := by decide +kernel

theorem isFinite_ofInt {n : Int} (h : n.natAbs < 2 ^ 64) : (ofInt n).isFinite = true :=
  isFinite_ofMagnitude (roundUnits_lt h (by decide) (by rw [log2_unitsPerOne]; decide))

end Binary64

theorem Number.isFinite_toBinary64 (n : Number) : n.toBinary64.isFinite = true := by
  cases n with
  | int n lower upper => exact Binary64.isFinite_ofInt (by omega)
  | float x finite => exact finite

/-! ## Parsing and serializing -/

/-- The values of a built-in scalar. -/
inductive ScalarCodec.Holds : ScalarCodec → Value → Prop
  | int {n : Int64} : -2147483648 ≤ n.toInt → n.toInt < 2147483648 → Holds .int (.int n)
  | float {x : Binary64} : x.isFinite = true → Holds .float (.float x)
  | string {x : String} : Holds .string (.str x)
  | boolean {b : Bool} : Holds .boolean (.bool b)

theorem ScalarCodec.Holds.ne_null {codec : ScalarCodec} {v : Value} (h : codec.Holds v) :
    v ≠ .null := by
  rintro rfl
  cases h

namespace ScalarHooks

/-- Whether the hooks are those of a built-in scalar. -/
def IsBuiltin (hooks : ScalarHooks) : Prop :=
  ∃ c scalar, ScalarRegistry.builtin? c = some scalar ∧ scalar.hooks = hooks

variable {hooks : ScalarHooks} {l : Literal} {v : Value} {i j : Nat}

theorem IsBuiltin.cases (h : hooks.IsBuiltin) :
    hooks = ⟨.int, false⟩ ∨ hooks = ⟨.float, false⟩ ∨ hooks = ⟨.string, false⟩ ∨
      hooks = ⟨.boolean, false⟩ := by
  obtain ⟨c, scalar, hc, rfl⟩ := h
  unfold ScalarRegistry.builtin? at hc
  split_ifs at hc <;> cases hc <;> simp

/-- The value of a literal that is no name of an enum value is that of its wire form. -/
theorem exists_of_parseLiteral (he : hooks.enumLiterals = false)
    (h : hooks.parseLiteral l i = .ok (v, j)) :
    ∃ w, l.toWire = some w ∧ hooks.codec.parseValue w i = .ok (v, j) := by
  simp only [parseLiteral, he, Bool.false_eq_true, if_false] at h
  cases hw : l.toWire with
  | none =>
    rw [hw] at h
    cases h
  | some w =>
    rw [hw] at h
    exact ⟨w, rfl, h⟩

/-- What built-in scalars read from literals. -/
theorem holds_of_parseLiteral (hb : hooks.IsBuiltin) (h : hooks.parseLiteral l i = .ok (v, j)) :
    hooks.codec.Holds v := by
  rcases hb.cases with rfl | rfl | rfl | rfl <;> obtain ⟨w, -, h⟩ := exists_of_parseLiteral rfl h <;>
    simp only [ScalarCodec.parseValue] at h <;> split at h
  · rename_i n lower upper
    split_ifs at h with hn
    · cases h
      have hint : (Int64.ofInt n).toInt = n := Int64.toInt_ofInt_of_le (by omega) (by omega)
      exact .int (by omega) (by omega)
    · cases h
  · cases h
  · cases h
    exact .float (Number.isFinite_toBinary64 _)
  · cases h
  · cases h
    exact .string
  · cases h
  · cases h
    exact .boolean
  · cases h

/-- A value of a built-in scalar is read back from the literal of its wire value, which is that of a
number only where the scalar has numbers. -/
theorem exists_serialize (hb : hooks.IsBuiltin) (hv : hooks.codec.Holds v) :
    ∃ w, hooks.serialize v = .ok w ∧ w.toLiteral ≠ .null ∧
      (∀ k, hooks.parseLiteral w.toLiteral k = .ok (v, k)) ∧
      (hooks.codec = .string → ∀ num, w.toLiteral ≠ .number num) := by
  rcases hb.cases with rfl | rfl | rfl | rfl <;> cases hv
  case inl.int n lower upper =>
    refine ⟨_, dif_pos ⟨lower, upper⟩, nofun, fun k => ?_, nofun⟩
    rw [parseLiteral_toLiteral rfl, parseValue, ScalarCodec.parseValue, if_pos ⟨lower, upper⟩,
      Int64.ofInt_toInt]
    rfl
  case inr.inl.float x hx =>
    have hw : Wire.ofBinary64 x = .number (.float x hx) := by
      rw [Wire.ofBinary64, Number.ofBinary64?, dif_pos hx]
    refine ⟨.number (.float x hx), congrArg Except.ok hw, nofun, fun k => ?_, nofun⟩
    rw [parseLiteral_toLiteral rfl, parseValue, ScalarCodec.parseValue]
    rfl
  case inr.inr.inl.string x =>
    refine ⟨.str x, rfl, nofun, fun k => rfl, fun _ num => ?_⟩
    simp only [Wire.toLiteral, ne_eq, reduceCtorEq, not_false_eq_true]
  case inr.inr.inr.boolean b => exact ⟨.bool b, rfl, nofun, fun k => rfl, nofun⟩

end ScalarHooks

/-! ## Registered scalars -/

theorem Literal.ne_null_of_toWire {l : Literal} {w : Wire} (hl : l ≠ .null)
    (h : l.toWire = some w) : w ≠ .null := by
  rintro rfl
  cases l with
  | null => exact hl rfl
  | bool | number | str | enum | binary => cases h
  | list items | object entries =>
    rw [toWire] at h
    obtain ⟨_, -, h⟩ := Option.map_eq_some_iff.1 h
    cases h

theorem ScalarCodec.ne_null_of_parsePlain {lead : String} {w : Wire} {v : Value} (hw : w ≠ .null)
    (h : parsePlain lead w = .ok v) : v ≠ .null := by
  rintro rfl
  cases w with
  | null => exact hw rfl
  | bool | object => cases h
  | number n | str x =>
    rw [parsePlain] at h
    split at h <;> cases h
  | list items =>
    rw [parsePlain] at h
    obtain ⟨vs, -, h⟩ := ok_of_bind h
    cases h

theorem ScalarCodec.ne_null_of_parseValue {codec : ScalarCodec} {w : Wire} {v : Value} {i j : Nat}
    (hw : w ≠ .null) (h : codec.parseValue w i = .ok (v, j)) : v ≠ .null := by
  cases codec with
  | plain lead => exact ne_null_of_parsePlain hw (ok_of_eval_liftM h)
  | int | float | string | boolean =>
    rintro rfl
    simp only [parseValue] at h
    split at h <;> first | cases h | (split at h <;> cases h)
  | payload name c shape =>
    rintro rfl
    simp only [parseValue] at h
    cases hread : shape.read w with
    | ok content =>
      rw [hread] at h
      obtain ⟨ident, k, -, h⟩ := ok_of_eval_bind h
      cases h
    | error m =>
      rw [hread] at h
      cases h

/-- No scalar reads the absent value from anything but null. -/
theorem ScalarHooks.ne_null_of_parseLiteral {hooks : ScalarHooks} {l : Literal} {v : Value}
    {i j : Nat} (hl : l ≠ .null) (h : hooks.parseLiteral l i = .ok (v, j)) : v ≠ .null := by
  cases he : hooks.enumLiterals with
  | false =>
    obtain ⟨w, hw, h⟩ := exists_of_parseLiteral he h
    exact ScalarCodec.ne_null_of_parseValue (Literal.ne_null_of_toWire hl hw) h
  | true =>
    rintro rfl
    unfold parseLiteral at h
    rw [if_pos he] at h
    cases l <;> cases h

/-! ## Enumerations -/

namespace EnumType

variable {e : EnumType} {l : Literal} {name : String} {v : Value}

theorem exists_of_parseLiteral (h : e.parseLiteral l = .ok v) :
    ∃ name, e.parseName name = .ok v := by
  cases l with
  | enum name | str name => exact ⟨name, h⟩
  | null | bool | number | binary | list | object => cases h

/-- The value of a name is a member with a declared name. -/
theorem exists_of_parseName (h : e.parseName name = .ok v) :
    ∃ value, Keyed.get? e.values name = some value ∧
      ∃ p, e.values.find? (fun q => q.2.equal value) = some p ∧ v = .enum e.c p.1 := by
  rw [parseName] at h
  cases hget : Keyed.get? e.values name with
  | none =>
    rw [hget] at h
    cases h
  | some value =>
    rw [hget] at h
    dsimp only at h
    cases hfind : e.values.find? fun q => q.2.equal value with
    | none =>
      rw [hfind] at h
      cases h
    | some p =>
      rw [hfind] at h
      cases h
      exact ⟨value, rfl, p, hfind, rfl⟩

/-- Whether the values are equal to themselves, and to none of the others. -/
def IsDistinct (values : List (String × Value)) : Prop :=
  values.Pairwise (fun p q => p.2.equal q.2 = false) ∧ ∀ p ∈ values, p.2.equal p.2 = true

theorem IsDistinct.find?_eq {values : List (String × Value)} {value : Value}
    (h : IsDistinct values) (hget : Keyed.get? values name = some value) :
    values.find? (fun p => p.2.equal value) = some (name, value) := by
  induction values with
  | nil => cases hget
  | cons p rest ih =>
    obtain ⟨hpair, hself⟩ := h
    obtain ⟨hhead, hrest⟩ := List.pairwise_cons.1 hpair
    rw [Keyed.get?_cons] at hget
    split_ifs at hget with hname
    · obtain rfl := Option.some.inj hget
      rw [List.find?_cons, hself p List.mem_cons_self, ← hname]
    · have hne := hhead _ (Keyed.mem_of_get? hget)
      rw [List.find?_cons, hne]
      exact ih ⟨hrest, fun q hq => hself q (List.mem_cons_of_mem _ hq)⟩ hget

/-- Where the values can be told apart, names stand for the members of the same names. -/
theorem IsDistinct.eq_of_parseName (hd : IsDistinct e.values) (h : e.parseName name = .ok v) :
    v = .enum e.c name := by
  obtain ⟨value, hget, p, hfind, rfl⟩ := exists_of_parseName h
  rw [hd.find?_eq hget] at hfind
  cases hfind
  rfl

end EnumType

end HintSchema
