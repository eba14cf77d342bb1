/-!
# Type keys

A `TypeKey` is the identity of a type: classes and aliases by id, unions regardless of the order and
the repetition of their members.  Keys are compared through `code`, a word of natural numbers that
is read back without a separator (`code_append_inj`), so comparing words decides equality, and the
lexicographic order of words is the order in which the members of a union are kept.
-/

namespace HintSchema

/-- The head of a subscripted type other than `Optional` and `Union`. -/
inductive GenericKind
  | list
  | iterable
  | iterator
  | other (name : String)
  deriving DecidableEq, Repr

namespace GenericKind

/-- Whether the type is a sequence of its one argument. -/
def isSequence : GenericKind → Bool
  | .list | .iterable | .iterator => true
  | .other _ => false

def name : GenericKind → String
  | .list => "List"
  | .iterable => "Iterable"
  | .iterator => "Iterator"
  | .other name => name

/-- The code points of a text behind their number. -/
def textCode (s : String) : List Nat := s.toList.length :: s.toList.map Char.toNat

/-- The word of a kind. -/
def code : GenericKind → List Nat
  | .list => [0]
  | .iterable => [1]
  | .iterator => [2]
  | .other name => 3 :: textCode name

end GenericKind

/-- The identity of a type. -/
inductive TypeKey
  | cls (id : Nat)
  | noneType
  | aliasOf (id : Nat)
  | union (members : List TypeKey)
  | generic (kind : GenericKind) (args : List TypeKey)
  | forward (text : String)
  deriving Repr

namespace TypeKey

mutual

/-- The word of a key: its kind, then its parts, a list behind its length. -/
def code : TypeKey → List Nat
  | .cls id => [0, id]
  | .noneType => [1]
  | .aliasOf id => [2, id]
  | .union members => 3 :: members.length :: codes members
  | .generic kind args => 4 :: (kind.code ++ args.length :: codes args)
  | .forward text => 5 :: GenericKind.textCode text

/-- The words of the members of a list, one after the other. -/
def codes : List TypeKey → List Nat
  | [] => []
  | key :: rest => key.code ++ codes rest

end

theorem toNat_map_injective {a b : List Char} (h : a.map Char.toNat = b.map Char.toNat) :
    a = b := by
  refine List.map_inj_right (fun c d hcd => ?_) |>.1 h
  exact Char.ext (UInt32.toNat_inj.1 hcd)

theorem textCode_append_inj {s t : String} {u v : List Nat}
    (h : GenericKind.textCode s ++ u = GenericKind.textCode t ++ v) : s = t ∧ u = v := by
  simp only [GenericKind.textCode, List.cons_append, List.cons.injEq] at h
  obtain ⟨hlen, happ⟩ := h
  have hp := List.append_inj happ (by simpa using hlen)
  exact ⟨String.toList_inj.1 (toNat_map_injective hp.1), hp.2⟩

theorem kindCode_append_inj {k l : GenericKind} {u v : List Nat} (h : k.code ++ u = l.code ++ v) :
    k = l ∧ u = v := by
  cases k <;> cases l <;> simp [GenericKind.code] at h <;> try exact ⟨rfl, h⟩
  obtain ⟨rfl, huv⟩ := textCode_append_inj h
  exact ⟨rfl, huv⟩

mutual

/-- A word is read back whatever follows it. -/
theorem code_append_inj : ∀ {a b : TypeKey} {u v : List Nat},
    a.code ++ u = b.code ++ v → a = b ∧ u = v
  | .cls i, b, u, v, h => by cases b <;> simp_all [code]
  | .noneType, b, u, v, h => by cases b <;> simp_all [code]
  | .aliasOf i, b, u, v, h => by cases b <;> simp_all [code]
  | .union ms, b, u, v, h => by
    cases b with
    | union ns =>
      simp only [code, List.cons_append, List.cons.injEq, true_and] at h
      obtain ⟨rfl, huv⟩ := codes_append_inj h.1 h.2
      exact ⟨rfl, huv⟩
    | _ => simp [code] at h
  | .generic k as, b, u, v, h => by
    cases b with
    | generic l bs =>
      simp only [code, List.cons_append, List.append_assoc, List.cons.injEq, true_and] at h
      obtain ⟨rfl, hc⟩ := kindCode_append_inj h
      simp only [List.cons.injEq] at hc
      obtain ⟨rfl, huv⟩ := codes_append_inj hc.1 hc.2
      exact ⟨rfl, huv⟩
    | _ => simp [code] at h
  | .forward t, b, u, v, h => by
    cases b with
    | forward t' =>
      simp only [code, List.cons_append, List.cons.injEq, true_and] at h
      obtain ⟨rfl, huv⟩ := textCode_append_inj h
      exact ⟨rfl, huv⟩
    | _ => simp [code] at h

/-- The words of lists of one length are read back. -/
theorem codes_append_inj : ∀ {as bs : List TypeKey} {u v : List Nat}, as.length = bs.length →
    codes as ++ u = codes bs ++ v → as = bs ∧ u = v
  | [], [], _, _, _, h => ⟨rfl, h⟩
  | [], _ :: _, _, _, hlen, _ => by simp at hlen
  | _ :: _, [], _, _, hlen, _ => by simp at hlen
  | a :: as, b :: bs, u, v, hlen, h => by
    simp only [codes, List.append_assoc] at h
    obtain ⟨rfl, htail⟩ := code_append_inj h
    obtain ⟨rfl, huv⟩ := codes_append_inj (by simpa using hlen) htail
    exact ⟨rfl, huv⟩

end

theorem code_inj {a b : TypeKey} : a.code = b.code ↔ a = b :=
  ⟨fun h => (code_append_inj (u := []) (v := []) (by simpa using h)).1, fun h => h ▸ rfl⟩

instance : DecidableEq TypeKey := fun _ _ => decidable_of_iff _ code_inj

/-- Puts a key into a list ordered by words; a key that is there already is not repeated. -/
def insert (key : TypeKey) : List TypeKey → List TypeKey
  | [] => [key]
  | k :: rest =>
    if key = k then k :: rest
    else if key.code < k.code then key :: k :: rest
    else k :: insert key rest

/-- The key of a union: the keys of its members in order, each once. -/
def ofMembers (keys : List TypeKey) : TypeKey := .union (keys.foldr insert [])

end TypeKey

end HintSchema
