import HintSchema.Proofs.Peeling

/-!
# The laws of unions

A union is determined by the types that it is spread over (`TypeExpr.spread`), those of its parts that
are unions standing for themselves: it keeps the first one of each key.  So parts that are unions may be
built before, in any grouping (`TypeExpr.unionOf_map_unionOf`), and the key of a union says which
keys it is spread over and nothing else (`TypeExpr.key_unionOf_iff`).  All laws are in
`TypeExpr.unionOf_laws`.
-/

namespace HintSchema

namespace TypeExpr

variable {e : TypeExpr} {es es' : List TypeExpr} {seen seen' : List TypeKey} {k : TypeKey}

/-- The types that a union of some types is spread over: the members of those that are unions, and
the other ones themselves. -/
def spread (es : List TypeExpr) : List TypeExpr := es.flatMap members

/-- A type that is no union, or a union of types that are none, no two of them of one key and not just
one. -/
def Reduced : TypeExpr → Prop
  | .union ms => (∀ m ∈ ms, m.isUnion = false) ∧ (ms.map key).Nodup ∧ ms.length ≠ 1
  | _ => True

/-! ## Types that are no unions -/

theorem Reduced.members (h : e.Reduced) : ∀ m ∈ e.members, m.isUnion = false := by
  intro m hm
  cases e with
  | union => exact h.1 m hm
  | _ =>
    obtain rfl := List.mem_singleton.1 hm
    rfl

theorem isUnion_of_mem_spread (hes : ∀ e ∈ es, e.Reduced) : ∀ m ∈ spread es, m.isUnion = false := by
  intro m hm
  obtain ⟨e, he, hme⟩ := List.mem_flatMap.1 hm
  exact (hes e he).members m hme

theorem reduced_of_isUnion (hunion : e.isUnion = false) : e.Reduced := by
  cases e with
  | union => cases hunion
  | _ => trivial

theorem reduced_unionOf (hes : ∀ e ∈ es, e.Reduced) : (unionOf es).Reduced := by
  have hflat : ∀ m ∈ distinct [] (spread es), m.isUnion = false := fun m hm =>
    isUnion_of_mem_spread hes m (mem_of_mem_distinct hm)
  have hnodup := nodup_keys_distinct [] (spread es)
  rw [keys_eq_map] at hnodup
  show (collapse (distinct [] (spread es))).Reduced
  by_cases hlen : (distinct [] (spread es)).length = 1
  · obtain ⟨only, honly⟩ := List.length_eq_one_iff.1 hlen
    rw [honly] at hflat ⊢
    exact reduced_of_isUnion (hflat only List.mem_cons_self)
  · rw [collapse_of_length hlen]
    exact ⟨hflat, hnodup, hlen⟩

/-! ## Dropping repetitions -/

/-- What is dropped already is dropped later on. -/
theorem distinct_distinct (hsub : seen' ⊆ seen) :
    distinct seen (distinct seen' es) = distinct seen es := by
  induction es generalizing seen seen' with
  | nil => rfl
  | cons e rest ih =>
    rw [distinct, distinct]
    by_cases hold : e.key ∈ seen'
    · rw [if_pos hold, if_pos (hsub hold), ih hsub]
    · rw [if_neg hold, distinct]
      split_ifs with hseen
      · exact ih (List.cons_subset.2 ⟨hseen, hsub⟩)
      · rw [ih (List.cons_subset_cons _ hsub)]

theorem distinct_append (es es' : List TypeExpr) :
    distinct seen (es ++ es') = distinct seen es ++ distinct (es.map key ++ seen) es' := by
  induction es generalizing seen with
  | nil => rfl
  | cons e rest ih =>
    rw [List.cons_append, distinct, distinct]
    split_ifs with hseen
    · rw [ih]
      congr 1
      refine distinct_congr fun d _ => ?_
      simp only [List.map_cons, List.cons_append, List.mem_cons]
      refine ⟨.inr, fun h => h.elim (fun he => ?_) id⟩
      exact List.mem_append_right _ (he ▸ hseen)
    · rw [ih, List.cons_append]
      congr 2
      refine distinct_congr fun d _ => ?_
      simp only [List.map_cons, List.cons_append, List.mem_cons, List.mem_append]
      tauto

theorem mem_keys_distinct_iff : k ∈ (distinct seen es).map key ↔ k ∈ es.map key ∧ k ∉ seen := by
  induction es generalizing seen with
  | nil => simp [distinct]
  | cons e rest ih =>
    rw [distinct]
    split_ifs with hseen
    · rw [ih, List.map_cons, List.mem_cons]
      refine and_congr_left fun hnew => ⟨.inr, fun h => h.resolve_left ?_⟩
      rintro rfl
      exact hnew hseen
    · rw [List.map_cons, List.mem_cons, ih, List.map_cons, List.mem_cons, List.mem_cons, not_or]
      by_cases hk : k = e.key
      · simp [hk, hseen]
      · simp [hk]

theorem distinct_flatMap (ess : List (List TypeExpr)) :
    distinct seen (ess.flatMap (distinct [])) = distinct seen ess.flatten := by
  induction ess generalizing seen with
  | nil => rfl
  | cons es rest ih =>
    rw [List.flatMap_cons, List.flatten_cons, distinct_append, distinct_append, ih,
      distinct_distinct (List.nil_subset _)]
    congr 1
    refine distinct_congr fun d _ => ?_
    rw [List.mem_append, List.mem_append, mem_keys_distinct_iff]
    simp

/-! ## Unions of unions -/

theorem members_unionOf_of_reduced (hes : ∀ e ∈ es, e.Reduced) :
    (unionOf es).members = distinct [] (spread es) :=
  members_collapse fun m hm => isUnion_of_mem_spread hes m (mem_of_mem_distinct hm)

/-- Unions of some lists of types have the union of all these types. -/
theorem unionOf_map_unionOf {ess : List (List TypeExpr)}
    (hess : ∀ es ∈ ess, ∀ e ∈ es, e.Reduced) : unionOf (ess.map unionOf) = unionOf ess.flatten := by
  have hmembers : spread (ess.map unionOf) = (ess.map spread).flatMap (distinct []) := by
    rw [spread, List.flatMap_map, List.flatMap_map]
    exact List.flatMap_congr fun es hes => members_unionOf_of_reduced (hess es hes)
  have hflatten : (ess.map spread).flatten = spread ess.flatten := by
    rw [spread, List.flatMap_def, List.map_flatten, List.flatten_flatten, List.map_map]
    rfl
  calc unionOf (ess.map unionOf)
      = collapse (distinct [] (spread (ess.map unionOf))) := rfl
    _ = collapse (distinct [] (ess.map spread).flatten) := by rw [hmembers, distinct_flatMap]
    _ = unionOf ess.flatten := by rw [hflatten]; rfl

/-- A reduced type is the union of itself. -/
theorem Reduced.unionOf_singleton (h : e.Reduced) : unionOf [e] = e := by
  cases e with
  | union ms =>
    obtain ⟨hflat, hnodup, hlen⟩ := h
    have hspread : [union ms].flatMap TypeExpr.members = ms := List.flatMap_singleton ..
    rw [unionOf, hspread, distinct_eq_self hnodup (by simp), collapse_of_length hlen]
  | _ => rfl

/-! ## Keys -/

theorem mem_keys_unionOf_iff : k ∈ (distinct [] (spread es)).map key ↔ k ∈ (spread es).map key := by
  rw [mem_keys_distinct_iff]
  simp

/-- Types that are spread over the same keys have unions of one key. -/
theorem key_unionOf_congr (h : ∀ k, k ∈ (spread es).map key ↔ k ∈ (spread es').map key) :
    (unionOf es).key = (unionOf es').key := by
  have hnodup : ∀ es, ((distinct [] (spread es)).map key).Nodup := fun es =>
    keys_eq_map (distinct [] (spread es)) ▸ nodup_keys_distinct [] (spread es)
  have hkeys : ∀ k, k ∈ (distinct [] (spread es)).map key ↔
      k ∈ (distinct [] (spread es')).map key := fun k => by
    rw [mem_keys_unionOf_iff, mem_keys_unionOf_iff, h]
  have hperm : ((distinct [] (spread es)).map key).Perm ((distinct [] (spread es')).map key) :=
    (List.perm_ext_iff_of_nodup (hnodup es) (hnodup es')).2 hkeys
  have hlength : (distinct [] (spread es)).length = (distinct [] (spread es')).length := by
    simpa using hperm.length_eq
  show (collapse (distinct [] (spread es))).key = (collapse (distinct [] (spread es'))).key
  by_cases hlen : (distinct [] (spread es)).length = 1
  · obtain ⟨only, honly⟩ := List.length_eq_one_iff.1 hlen
    obtain ⟨only', honly'⟩ := List.length_eq_one_iff.1 (hlength ▸ hlen)
    rw [honly, honly'] at hperm ⊢
    exact List.singleton_perm_singleton.1 hperm
  · rw [collapse_of_length hlen, collapse_of_length (hlength ▸ hlen), key_union, key_union]
    exact TypeKey.ofMembers_inj.2 hkeys

/-- Types of one key have members of the same keys. -/
theorem mem_keys_members_iff {d : TypeExpr} (hk : e.key = d.key) :
    k ∈ e.members.map key ↔ k ∈ d.members.map key := by
  cases e with
  | union ms =>
    obtain ⟨ns, rfl, hkeys⟩ := eq_union_of_key hk
    exact hkeys k
  | _ =>
    have hunion : d.isUnion = false := (isUnion_eq_of_key hk).symm
    rw [members_eq_self hunion, members_eq_self rfl, List.map_singleton, List.map_singleton, hk]

theorem key_unionOf_iff (hes : ∀ e ∈ es, e.Reduced) (hes' : ∀ e ∈ es', e.Reduced) :
    (unionOf es).key = (unionOf es').key ↔
      ∀ k, k ∈ (spread es).map key ↔ k ∈ (spread es').map key := by
  refine ⟨fun h k => ?_, key_unionOf_congr⟩
  have hmembers := mem_keys_members_iff (k := k) h
  rwa [members_unionOf_of_reduced hes, members_unionOf_of_reduced hes', mem_keys_unionOf_iff,
    mem_keys_unionOf_iff] at hmembers

/-! ## The laws -/

theorem key_unionOf_append_comm (es es' : List TypeExpr) :
    (unionOf (es ++ es')).key = (unionOf (es' ++ es)).key := by
  refine key_unionOf_congr fun k => ?_
  simp only [spread, List.flatMap_append, List.map_append, List.mem_append]
  exact or_comm

/-- A union of unions is the union of all their parts, however they are grouped; one alone is itself,
as is a union of the members of one.  The order of the parts does not matter to the key, which tells
apart just the unions that are spread over different keys.  All unions are reduced, and normal when
their parts are. -/
theorem unionOf_laws {es'' : List TypeExpr} (hes : ∀ e ∈ es, e.Reduced)
    (hes' : ∀ e ∈ es', e.Reduced) (hes'' : ∀ e ∈ es'', e.Reduced) :
    unionOf [unionOf es, unionOf es'] = unionOf (es ++ es') ∧
    unionOf [unionOf [unionOf es, unionOf es'], unionOf es''] =
      unionOf [unionOf es, unionOf [unionOf es', unionOf es'']] ∧
    unionOf [unionOf es] = unionOf es ∧
    (∀ ms, unionOf es = .union ms → unionOf ms = .union ms) ∧
    (unionOf (es ++ es')).key = (unionOf (es' ++ es)).key ∧
    ((unionOf es).key = (unionOf es').key ↔
      ∀ k, k ∈ (spread es).map key ↔ k ∈ (spread es').map key) ∧
    (unionOf es).Reduced ∧ ((∀ e ∈ es, e.Normal) → (unionOf es).Normal) := by
  have happend : ∀ {es es' : List TypeExpr}, (∀ e ∈ es, e.Reduced) → (∀ e ∈ es', e.Reduced) →
      unionOf [unionOf es, unionOf es'] = unionOf (es ++ es') := by
    intro es es' hes hes'
    have h := @unionOf_map_unionOf [es, es'] (by simpa using ⟨hes, hes'⟩)
    simpa using h
  have hreduced := reduced_unionOf hes
  refine ⟨happend hes hes', ?_, hreduced.unionOf_singleton, fun ms hms => ?_,
    key_unionOf_append_comm es es', key_unionOf_iff hes hes', hreduced, normal_unionOf⟩
  · have hleft : ∀ e ∈ es ++ es', e.Reduced := List.forall_mem_append.2 ⟨hes, hes'⟩
    have hright : ∀ e ∈ es' ++ es'', e.Reduced := List.forall_mem_append.2 ⟨hes', hes''⟩
    rw [happend hes hes', happend hes' hes'', happend hleft hes'', happend hes hright,
      List.append_assoc]
  · rw [hms] at hreduced
    exact unionOf_eq_union hreduced.1 hreduced.2.1 hreduced.2.2

end TypeExpr

namespace Sample

open TypeExpr

/-- A number, or perhaps a text. -/
def quantity : List TypeExpr := [.cls .int, .union [.cls .str, .noneType]]

/-- A text or a list of numbers, or nothing. -/
def remark : List TypeExpr := [.union [.cls .str, .listOf (.cls .int)], .noneType]

/-- What the unions of quantities and of remarks have in common is in their union once, where it was
met first; the other way round the union has another order of members but the same key. -/
theorem unionOf_laws_quantity : (∀ e ∈ quantity, e.Reduced) ∧ (∀ e ∈ remark, e.Reduced) ∧
    unionOf [unionOf quantity, unionOf remark] =
      .union [.cls .int, .cls .str, .noneType, .listOf (.cls .int)] ∧
    unionOf (remark ++ quantity) =
      .union [.cls .str, .listOf (.cls .int), .noneType, .cls .int] ∧
    (unionOf (remark ++ quantity)).key = (unionOf (quantity ++ remark)).key := by
  have hquantity : ∀ e ∈ quantity, e.Reduced := by simp [quantity, Reduced, isUnion, key]
  have hremark : ∀ e ∈ remark, e.Reduced := by simp [remark, Reduced, isUnion, key, listOf]
  obtain ⟨happend, -, -, -, hcomm, -⟩ := unionOf_laws hquantity hremark hremark
  exact ⟨hquantity, hremark, happend.trans (by cbv), by cbv, hcomm.symm⟩

end Sample

end HintSchema
