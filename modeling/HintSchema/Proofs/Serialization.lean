import Mathlib.Algebra.Ring.Int.Defs
import HintSchema.Proofs.Scalars

/-!
# What built-in scalars write

A built-in scalar writes more values than it has: truth values as numbers, numbers as texts, integers
as truth values.  Whatever it writes is what it writes for a value of its own
(`ScalarHooks.exists_holds_of_serialize`), so it reads that value back and writes the same again.
The exception is a floating point number that is not finite.  It becomes null, which no scalar of
numbers reads.  Integers are written as they are or not at all (`ScalarCodec.serialize_int_iff`).
-/

namespace HintSchema

/-! ## Whole numbers -/

namespace Binary64

theorem unitsPerOne_pos : 0 < unitsPerOne := by decide +kernel

/-- A floating point number is an integer exactly. -/
def IsInt (x : Binary64) (n : Int) : Prop :=
  x.isFinite = true ∧ (if x.isNegative then -(x.units : Int) else x.units) = n * unitsPerOne

/-- Truncation gives the integer that a number is. -/
theorem isInt_iff {x : Binary64} {n : Int} :
    x.IsInt n ↔ x.isIntegral = true ∧ x.truncate = n := by
  have hpos := unitsPerOne_pos
  rw [IsInt, isIntegral, Bool.and_eq_true, decide_eq_true_iff, and_assoc, truncate]
  refine and_congr_right fun _ => ?_
  generalize unitsPerOne = one at hpos ⊢
  generalize x.units = units
  by_cases hdvd : one ∣ units
  · obtain ⟨k, rfl⟩ := hdvd
    have hone : (one : Int) ≠ 0 := by omega
    have hdiv : ((one * k : Nat) : Int) / one = k := by
      rw [Int.natCast_mul, Int.mul_ediv_cancel_left _ hone]
    rw [hdiv, Nat.mul_mod_right, eq_self, true_and]
    cases x.isNegative with
    | false =>
      rw [if_neg Bool.false_ne_true, if_neg Bool.false_ne_true, Int.natCast_mul, mul_comm,
        mul_left_inj' hone]
    | true =>
      rw [if_pos rfl, if_pos rfl, Int.natCast_mul, mul_comm, ← neg_mul, mul_left_inj' hone]
  · have hmod : ¬ units % one = 0 := fun h => hdvd (Nat.dvd_of_mod_eq_zero h)
    refine iff_of_false (fun h => hdvd ?_) fun h => hmod h.1
    apply Int.natCast_dvd_natCast.1
    split_ifs at h
    · exact (Int.dvd_neg).1 ⟨n, by rw [h, mul_comm]⟩
    · exact ⟨n, by rw [h, mul_comm]⟩

/-- Numbers past the ends of the 64-bit range are held there, far from the integers of 32 bits. -/
theorem toInt_toInt64Clamped (x : Binary64) : x.toInt64Clamped.toInt =
    max (-9223372036854775808) (min 9223372036854775807 x.truncate) :=
  Int64.toInt_ofInt_of_le (by omega) (by omega)

end Binary64

/-- The integer that a value is where integers are wanted. -/
inductive Value.IsInteger : Value → Int → Prop
  | int (n : Int64) : IsInteger (.int n) n.toInt
  | bool (b : Bool) : IsInteger (.bool b) (if b then 1 else 0)
  | float {x : Binary64} {n : Int} : x.IsInt n → IsInteger (.float x) n

theorem Value.isInteger_float_iff {x : Binary64} {n : Int} :
    (Value.float x).IsInteger n ↔ x.isIntegral = true ∧ x.truncate = n := by
  rw [← Binary64.isInt_iff]
  constructor
  · intro h
    cases h with
    | float hn => exact hn
  · exact .float

/-- A wire value is an integer of 32 bits. -/
inductive Wire.IsInt32 : Wire → Int → Prop
  | intro {n : Int} (lower : -2147483648 ≤ n) (upper : n < 2147483648) :
      IsInt32 (.number (.int n (by omega) (by omega))) n

namespace ScalarCodec

variable {v : Value} {w : Wire} {n : Int}

theorem serializeInt32_eq_ok_iff : serializeInt32 n = .ok w ↔ w.IsInt32 n := by
  rw [serializeInt32]
  split_ifs with hn
  · constructor
    · rintro ⟨⟩
      exact .intro hn.1 hn.2
    · rintro ⟨lower, upper⟩
      rfl
  · constructor
    · intro h
      cases h
    · rintro ⟨lower, upper⟩
      exact absurd ⟨lower, upper⟩ hn

/-- Just the values that are integers of 32 bits are written, as these integers. -/
theorem serialize_int_iff : int.serialize v = .ok w ↔ ∃ n, v.IsInteger n ∧ w.IsInt32 n := by
  cases v with
  | int m =>
    refine serializeInt32_eq_ok_iff.trans ⟨fun hw => ⟨_, .int m, hw⟩, ?_⟩
    rintro ⟨_, ⟨⟩, hw⟩
    exact hw
  | bool b =>
    refine serializeInt32_eq_ok_iff.trans ⟨fun hw => ⟨_, .bool b, hw⟩, ?_⟩
    rintro ⟨_, ⟨⟩, hw⟩
    exact hw
  | float x =>
    have hclamped := x.toInt_toInt64Clamped
    rw [serialize]
    split_ifs with hx
    · rw [serializeInt32_eq_ok_iff]
      constructor
      · intro hw
        have htruncate : x.toInt64Clamped.toInt = x.truncate := by
          cases hw
          omega
        exact ⟨_, Value.isInteger_float_iff.2 ⟨hx, rfl⟩, htruncate ▸ hw⟩
      · rintro ⟨n, hn, hw⟩
        obtain ⟨-, rfl⟩ := Value.isInteger_float_iff.1 hn
        have htruncate : x.toInt64Clamped.toInt = x.truncate := by
          cases hw
          omega
        exact htruncate ▸ hw
    · constructor
      · intro h
        cases h
      · rintro ⟨n, hn, -⟩
        exact absurd (Value.isInteger_float_iff.1 hn).1 hx
  | null | str | list | object | enum | sealed =>
    constructor
    · intro h
      cases h
    · rintro ⟨n, ⟨⟩, -⟩

end ScalarCodec

/-! ## Values of their own -/

namespace ScalarHooks

variable {hooks : ScalarHooks} {v : Value} {w : Wire}

/-- A floating point number that is not finite has no number on the wire. -/
theorem serialize_of_not_finite {x : Binary64} (hx : x.isFinite = false) :
    (ScalarHooks.mk .float false).serialize (.float x) = .ok .null := by
  show Except.ok (Wire.ofBinary64 x) = _
  rw [Wire.ofBinary64, Number.ofBinary64?, dif_neg (by simp [hx])]

/-- What is written for a value is what is written for a value of the scalar's own, unless the value
is a floating point number that is not finite. -/
theorem exists_holds_of_serialize (hb : hooks.IsBuiltin) (hw : hooks.serialize v = .ok w)
    (hv : ¬ (hooks.codec = .float ∧ ∃ x, v = .float x ∧ x.isFinite = false)) :
    ∃ v', hooks.codec.Holds v' ∧ hooks.serialize v' = .ok w := by
  rcases hb.cases with rfl | rfl | rfl | rfl
  case inl =>
    obtain ⟨n, -, ⟨lower, upper⟩⟩ := ScalarCodec.serialize_int_iff.1 hw
    have hn : (Int64.ofInt n).toInt = n := Int64.toInt_ofInt_of_le (by omega) (by omega)
    refine ⟨.int (Int64.ofInt n), .int (by omega) (by omega), ?_⟩
    show ScalarCodec.serializeInt32 _ = _
    rw [hn, ScalarCodec.serializeInt32_eq_ok_iff]
    exact .intro lower upper
  case inr.inl =>
    cases v with
    | float x =>
      refine ⟨.float x, .float ?_, hw⟩
      by_contra hx
      exact hv ⟨rfl, x, rfl, by simpa using hx⟩
    | int n =>
      have hlower := Int64.le_toInt n
      have hupper := Int64.toInt_lt n
      exact ⟨.float (.ofInt n.toInt), .float (Binary64.isFinite_ofInt (by omega)), hw⟩
    | bool b =>
      refine ⟨.float (.ofInt (if b then 1 else 0)), .float (Binary64.isFinite_ofInt ?_), hw⟩
      cases b <;> decide
    | null | str | list | object | enum | sealed => cases hw
  case inr.inr.inl =>
    cases v with
    | str | int | float | bool =>
      cases hw
      exact ⟨.str _, .string, rfl⟩
    | null | list | object | enum | sealed => cases hw
  case inr.inr.inr =>
    cases v with
    | bool | int =>
      cases hw
      exact ⟨.bool _, .boolean, rfl⟩
    | null | float | str | list | object | enum | sealed => cases hw

/-- A value of a built-in scalar is read back from its wire value. -/
theorem exists_wire_of_holds (hb : hooks.IsBuiltin) (hv : hooks.codec.Holds v) :
    ∃ w, hooks.serialize v = .ok w ∧ ∀ k, hooks.parseValue w k = .ok (v, k) := by
  have he : hooks.enumLiterals = false := by
    rcases hb.cases with rfl | rfl | rfl | rfl <;> rfl
  obtain ⟨w, hw, -, hread, -⟩ := exists_serialize hb hv
  exact ⟨w, hw, fun k => by rw [← parseLiteral_toLiteral he w, hread]⟩

/-- What a built-in scalar writes it reads back, and writes the same for what it reads, but for the
null that stands for floating point numbers that are not finite.  Integers are never changed to fit
the 32 bits that they have on the wire, and the values of a scalar come back as they are. -/
theorem reads_what_it_writes (hb : hooks.IsBuiltin) :
    (∀ v w, hooks.serialize v = .ok w →
      ((∃ v', (∀ k, hooks.parseValue w k = .ok (v', k)) ∧ hooks.serialize v' = .ok w) ↔
        ¬ (hooks.codec = .float ∧ ∃ x, v = .float x ∧ x.isFinite = false))) ∧
    (hooks.codec = .float → ∀ x : Binary64, x.isFinite = false →
      hooks.serialize (.float x) = .ok .null ∧
        ∀ k, hooks.parseValue .null k = .error (.floatFromWire "null")) ∧
    (hooks.codec = .int →
      ∀ v w, hooks.serialize v = .ok w ↔ ∃ n, v.IsInteger n ∧ w.IsInt32 n) ∧
    ∀ v, hooks.codec.Holds v →
      ∃ w, hooks.serialize v = .ok w ∧ ∀ k, hooks.parseValue w k = .ok (v, k) := by
  have hnull : hooks.codec = .float → ∀ x : Binary64, x.isFinite = false →
      hooks.serialize (.float x) = .ok .null ∧
        ∀ k, hooks.parseValue .null k = .error (.floatFromWire "null") := by
    intro hcodec x hx
    obtain ⟨codec, enumLiterals⟩ := hooks
    obtain rfl : codec = .float := hcodec
    exact ⟨serialize_of_not_finite hx, fun k => rfl⟩
  refine ⟨fun v w hw => ⟨?_, fun hv => ?_⟩, hnull, fun hcodec v w => ?_,
    fun v hv => exists_wire_of_holds hb hv⟩
  · rintro ⟨v', hread, -⟩ ⟨hcodec, x, rfl, hx⟩
    obtain ⟨hserialize, hfails⟩ := hnull hcodec x hx
    obtain rfl : w = .null := Except.ok.inj (hw.symm.trans hserialize)
    cases (hread 0).symm.trans (hfails 0)
  · obtain ⟨v', hholds, hw'⟩ := exists_holds_of_serialize hb hw hv
    obtain ⟨w', hserialize, hread⟩ := exists_wire_of_holds hb hholds
    obtain rfl : w' = w := Except.ok.inj (hserialize.symm.trans hw')
    exact ⟨v', hread, hw'⟩
  · rw [serialize, hcodec]
    exact ScalarCodec.serialize_int_iff

end ScalarHooks

namespace Sample

/-- A truth value is written as a number by the scalar of integers, and comes back as that number. -/
theorem reads_what_it_writes_true :
    ∃ v', (∀ k, (ScalarHooks.mk .int false).parseValue
        (.number (.int 1 (by decide) (by decide))) k = .ok (v', k)) ∧
      (ScalarHooks.mk .int false).serialize v' =
        .ok (.number (.int 1 (by decide) (by decide))) := by
  have hint : (ScalarHooks.mk .int false).IsBuiltin := ⟨.int, _, rfl, rfl⟩
  refine ((ScalarHooks.reads_what_it_writes hint).1 (.bool true) _ rfl).2 ?_
  rintro ⟨⟨⟩, -⟩

/-- What is written for a NaN is not read back. -/
theorem nan_not_read_back : ¬ ∀ (hooks : ScalarHooks) (v : Value) (w : Wire), hooks.IsBuiltin →
    hooks.serialize v = .ok w → ∃ v', ∀ k, hooks.parseValue w k = .ok (v', k) := by
  intro h
  have hfloat : (ScalarHooks.mk .float false).IsBuiltin := ⟨.float, _, rfl, rfl⟩
  have hnan : Binary64.nan.isFinite = false := by decide
  obtain ⟨v', hread⟩ := h _ _ _ hfloat (ScalarHooks.serialize_of_not_finite hnan)
  cases hread 0

end Sample

end HintSchema
