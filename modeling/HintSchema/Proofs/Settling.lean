import HintSchema.Proofs.Naming
import HintSchema.Proofs.UnionKeys

/-!
# Types with the absent value last

Where the absent value stands among the members of a union matters neither to the key of the union
nor to what a union of unions has for members.  `TypeExpr.settled` puts it last everywhere, so types
that differ in its places only are equal once they are settled.  The settled union of some types is a
function of the settled types (`settled_unionOf`).
-/

namespace HintSchema

namespace TypeExpr

variable {e e' : TypeExpr} {es es' : List TypeExpr} {seen : List TypeKey} {k : TypeKey}

/-! ## The absent value in its place -/

/-- Types, and behind them that of the absent value, if it is to be there. -/
def withAbsent (es : List TypeExpr) (absent : Bool) : List TypeExpr :=
  es ++ if absent then [.noneType] else []

/-- The types of a list with that of the absent value, if it is among them, once and last. -/
def absentLast (es : List TypeExpr) : List TypeExpr :=
  withAbsent (es.filter (!·.isNone)) (es.any isNone)

mutual

/-- A type with the absent value last in all its unions, those inside the supertypes of aliases
apart. -/
def settled : TypeExpr → TypeExpr
  | .union members => .union (absentLast (settledAll members))
  | .generic kind args => .generic kind (settledAll args)
  | .cls c => .cls c
  | .noneType => .noneType
  | .aliasOf id name supertype => .aliasOf id name supertype
  | .forward text => .forward text

/-- The types of a list, each with the absent value last. -/
def settledAll : List TypeExpr → List TypeExpr
  | [] => []
  | e :: rest => e.settled :: settledAll rest

end

theorem settledAll_eq_map (es : List TypeExpr) : settledAll es = es.map settled := by
  induction es with
  | nil => rfl
  | cons e rest ih => exact congrArg (List.cons e.settled) ih

@[simp] theorem isNone_settled (e : TypeExpr) : e.settled.isNone = e.isNone := by
  cases e <;> rfl

theorem filter_map_settled (es : List TypeExpr) :
    (es.map settled).filter (!·.isNone) = (es.filter (!·.isNone)).map settled := by
  rw [List.filter_map]
  simp [Function.comp_def]

theorem any_map_settled (es : List TypeExpr) : (es.map settled).any isNone = es.any isNone := by
  simp [List.any_map, Function.comp_def]

theorem settled_union (es : List TypeExpr) : (union es).settled =
    union (withAbsent ((es.filter (!·.isNone)).map settled) (es.any isNone)) := by
  change union (absentLast (settledAll es)) = _
  rw [settledAll_eq_map, absentLast, filter_map_settled, any_map_settled]

theorem settled_generic (kind : GenericKind) (es : List TypeExpr) :
    (generic kind es).settled = generic kind (es.map settled) :=
  congrArg (generic kind) (settledAll_eq_map es)

theorem withAbsent_spec (hes : es.any isNone = false) (absent : Bool) :
    (withAbsent es absent).filter (!·.isNone) = es ∧ (withAbsent es absent).any isNone = absent := by
  have hnone : [noneType].any isNone = true ∧ [noneType].filter (!·.isNone) = [] := ⟨rfl, rfl⟩
  rw [withAbsent, List.filter_append, List.any_append, ResolvedHint.filter_eq_self_of_any hes, hes]
  cases absent <;> simp [hnone]

theorem any_present_settled (es : List TypeExpr) :
    ((es.filter (!·.isNone)).map settled).any isNone = false := by
  rw [any_map_settled, ResolvedHint.any_isNone_filter]

/-- Unions with the absent value last are equal when the other members are, in order, and both or
neither have it. -/
theorem settled_union_inj : (union es).settled = (union es').settled ↔
    (es.filter (!·.isNone)).map settled = (es'.filter (!·.isNone)).map settled ∧
      es.any isNone = es'.any isNone := by
  rw [settled_union, settled_union]
  constructor
  · intro h
    obtain ⟨hfilter, hany⟩ := withAbsent_spec (any_present_settled es) (es.any isNone)
    obtain ⟨hfilter', hany'⟩ := withAbsent_spec (any_present_settled es') (es'.any isNone)
    rw [union.inj h] at hfilter hany
    exact ⟨hfilter.symm.trans hfilter', hany.symm.trans hany'⟩
  · rintro ⟨hpresent, hany⟩
    rw [hpresent, hany]

theorem mem_keys_absentLast (es : List TypeExpr) :
    k ∈ (absentLast es).map key ↔ k ∈ es.map key := by
  by_cases hk : k = .noneType
  · rw [hk, ← any_isNone_iff, ← any_isNone_iff, absentLast,
      (withAbsent_spec (ResolvedHint.any_isNone_filter es) _).2]
  · have hkey : ∀ {e : TypeExpr}, e.key = k → e.isNone = false := by
      intro e he
      cases e with
      | noneType => exact absurd he.symm hk
      | _ => rfl
    simp only [absentLast, withAbsent, List.map_append, List.mem_append, List.mem_map,
      List.mem_filter]
    constructor
    · rintro (⟨e, ⟨he, -⟩, rfl⟩ | ⟨e, he, rfl⟩)
      · exact ⟨e, he, rfl⟩
      · split_ifs at he
        · obtain rfl := List.mem_singleton.1 he
          exact absurd rfl hk
        · cases he
    · rintro ⟨e, he, he'⟩
      exact .inl ⟨e, ⟨he, by simp [hkey he']⟩, he'⟩

mutual

/-- Where the absent value stands does not matter to the key. -/
theorem key_settled : ∀ e : TypeExpr, e.settled.key = e.key
  | .union members => by
    change TypeKey.ofMembers (keys (absentLast (settledAll members))) = .ofMembers (keys members)
    rw [keys_eq_map, TypeKey.ofMembers_inj]
    intro k
    rw [mem_keys_absentLast, ← keys_eq_map, keys_settledAll]
  | .generic kind args => congrArg (TypeKey.generic kind) (keys_settledAll args)
  | .cls _ | .noneType | .aliasOf .. | .forward _ => rfl

theorem keys_settledAll : ∀ es : List TypeExpr, keys (settledAll es) = keys es
  | [] => rfl
  | e :: rest => congrArg₂ List.cons (key_settled e) (keys_settledAll rest)

end

theorem key_eq_of_settled (h : e.settled = e'.settled) : e.key = e'.key := by
  rw [← key_settled e, ← key_settled e', h]

/-! ## Types that are equal when settled -/

theorem length_eq_of_settled (h : es.map settled = es'.map settled) : es.length = es'.length := by
  simpa using congrArg List.length h

theorem exists_of_settled_generic {kind : GenericKind} (h : (generic kind [e]).settled = e'.settled) :
    ∃ x, e' = generic kind [x] ∧ e.settled = x.settled := by
  rw [settled_generic] at h
  cases e' with
  | generic kind' args =>
    rw [settled_generic] at h
    obtain ⟨rfl, hargs⟩ := generic.inj h
    obtain ⟨x, rfl, hx⟩ := List.map_eq_singleton_iff.1 hargs.symm
    exact ⟨x, rfl, hx.symm⟩
  | cls | noneType | union | aliasOf | forward => cases h

theorem exists_of_settled_union (h : (union es).settled = e'.settled) : ∃ es',
    e' = union es' ∧ (es.filter (!·.isNone)).map settled = (es'.filter (!·.isNone)).map settled ∧
      es.any isNone = es'.any isNone := by
  cases e' with
  | union es' => exact ⟨es', rfl, settled_union_inj.1 h⟩
  | cls | noneType | generic | aliasOf | forward =>
    rw [settled] at h
    cases h

/-! ## Unions of such types -/

theorem distinct_map_settled (seen : List TypeKey) (es : List TypeExpr) :
    distinct seen (es.map settled) = (distinct seen es).map settled := by
  induction es generalizing seen with
  | nil => rfl
  | cons e rest ih =>
    rw [List.map_cons, distinct, distinct, key_settled, ih, ih]
    split_ifs <;> rfl

theorem present_settled (e : TypeExpr) : e.settled.present = e.present.map settled := by
  cases e with
  | union members =>
    rw [settled_union, present, TypeExpr.members,
      (withAbsent_spec (any_present_settled members) _).1]
    rfl
  | noneType => rfl
  | cls | aliasOf | generic | forward => rfl

theorem any_members_settled (e : TypeExpr) :
    e.settled.members.any isNone = e.members.any isNone := by
  cases e with
  | union members =>
    rw [settled_union, TypeExpr.members, (withAbsent_spec (any_present_settled members) _).2]
    rfl
  | cls | noneType | aliasOf | generic | forward => rfl

theorem mem_keys_distinct (hk : k ∉ seen) : k ∈ (distinct seen es).map key ↔ k ∈ es.map key := by
  induction es generalizing seen with
  | nil => rfl
  | cons e rest ih =>
    rw [distinct, List.map_cons, List.mem_cons]
    split_ifs with hseen
    · rw [ih hk]
      have hne : k ≠ e.key := fun h => hk (h ▸ hseen)
      simp [hne]
    · rw [List.map_cons, List.mem_cons]
      by_cases hek : k = e.key
      · simp [hek]
      · rw [ih (by simp [hek, hk])]

theorem any_isNone_distinct (es : List TypeExpr) :
    (distinct [] es).any isNone = es.any isNone := by
  rw [Bool.eq_iff_iff, any_isNone_iff, any_isNone_iff, mem_keys_distinct (by simp)]

theorem length_withAbsent (es : List TypeExpr) (absent : Bool) :
    (withAbsent es absent).length = es.length + absent.toNat := by
  cases absent <;> simp [withAbsent]

/-- Of types of different keys one at most is that of the absent value, so two of them stay two when
it is put last. -/
theorem length_absentLast {d d' : TypeExpr} (h : (keys (d :: d' :: es)).Nodup) :
    2 ≤ (absentLast (d :: d' :: es)).length := by
  have hne : d.key ≠ d'.key := by
    intro hk
    rw [keys, keys, hk] at h
    simp at h
  rw [absentLast, length_withAbsent]
  cases hd : d.isNone <;> cases hd' : d'.isNone
  · simp only [List.filter_cons, hd, hd', Bool.not_false, if_true, List.length_cons]
    omega
  · simp [hd, hd']
  · simp [hd, hd']
  · cases d <;> cases hd
    cases d' <;> cases hd'
    exact absurd rfl hne

theorem settled_collapse (hnodup : (keys es).Nodup) : (collapse es).settled =
    collapse (withAbsent ((es.filter (!·.isNone)).map settled) (es.any isNone)) := by
  match es with
  | [] => rfl
  | [e] =>
    cases e with
    | noneType => rfl
    | cls | union | aliasOf | generic | forward => rfl
  | d :: d' :: rest =>
    have hlen := length_absentLast hnodup
    rw [absentLast, length_withAbsent] at hlen
    rw [collapse_of_length (by simp), settled_union, collapse_of_length]
    rw [length_withAbsent, List.length_map]
    omega

/-- The union of some types with the absent value last, in terms of these. -/
theorem settled_unionOf (es : List TypeExpr) : (unionOf es).settled =
    collapse (withAbsent (distinct [] ((es.map settled).flatMap present))
      ((es.map settled).any (·.members.any isNone))) := by
  have hpresent : (es.flatMap present).map settled = (es.map settled).flatMap present := by
    simp only [List.map_flatMap, List.flatMap_map, present_settled]
  have hany : (es.flatMap TypeExpr.members).any isNone =
      (es.map settled).any (·.members.any isNone) := by
    simp only [List.any_flatMap, List.any_map, Function.comp_def, any_members_settled]
  have hfilter : (es.flatMap TypeExpr.members).filter (!·.isNone) = es.flatMap present := by
    rw [List.filter_flatMap]
    rfl
  rw [unionOf, settled_collapse (nodup_keys_distinct [] _), any_isNone_distinct, hany,
    filter_distinct, hfilter, ← distinct_map_settled, hpresent]

theorem settled_optional_congr (h : e.settled = e'.settled) :
    e.optional.settled = e'.optional.settled := by
  simp only [optional, settled_unionOf, List.map_cons, h]

/-- The absent value may stand first. -/
theorem settled_unionOf_none (e : TypeExpr) :
    (unionOf [.noneType, e]).settled = e.optional.settled := by
  simp only [optional, settled_unionOf, List.map_cons, List.map_nil, List.flatMap_cons,
    List.flatMap_nil, List.any_cons, List.any_nil]
  simp [settled, present, TypeExpr.members, isNone]

end TypeExpr

end HintSchema
