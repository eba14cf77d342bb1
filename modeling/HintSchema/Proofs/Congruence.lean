import HintSchema.Proofs.Declarations
import HintSchema.ResolvedHint

/-!
# What keys tell apart

Types are congruent when they differ only in the order and the number of the members of unions,
anywhere inside of them, classes and aliases being what their identities say
(`TypeExpr.Congruent`).  Keys tell apart just the types that are not congruent
(`TypeExpr.key_eq_iff_congruent`).  In one direction each rule keeps the key.  In the other, the
members of each union have their keys among those of the other, so each union takes in the members
of the other one without becoming another type (`Congruent.absorb`).
-/

namespace HintSchema

namespace TypeExpr

mutual

/-- The least congruence of types that lets the members of a union be permuted and repeated, with
classes and aliases compared by identity. -/
inductive Congruent : TypeExpr → TypeExpr → Prop
  | refl (a : TypeExpr) : Congruent a a
  | symm {a b : TypeExpr} : Congruent a b → Congruent b a
  | trans {a b c : TypeExpr} : Congruent a b → Congruent b c → Congruent a c
  | cls {c d : ClassRef} : c.same d = true → Congruent (.cls c) (.cls d)
  | aliasOf (id : Nat) (name name' : String) (supertype supertype' : TypeExpr) :
      Congruent (.aliasOf id name supertype) (.aliasOf id name' supertype')
  | union {ms ns : List TypeExpr} : CongruentAll ms ns → Congruent (.union ms) (.union ns)
  | generic (kind : GenericKind) {as bs : List TypeExpr} :
      CongruentAll as bs → Congruent (.generic kind as) (.generic kind bs)
  | permute {ms ns : List TypeExpr} : ms.Perm ns → Congruent (.union ms) (.union ns)
  | duplicate (m : TypeExpr) (ms : List TypeExpr) :
      Congruent (.union (m :: ms)) (.union (m :: m :: ms))

/-- The same of lists, item by item. -/
inductive CongruentAll : List TypeExpr → List TypeExpr → Prop
  | nil : CongruentAll [] []
  | cons {a b : TypeExpr} {as bs : List TypeExpr} :
      Congruent a b → CongruentAll as bs → CongruentAll (a :: as) (b :: bs)

end

variable {a b m n : TypeExpr} {as bs ms ns : List TypeExpr}

theorem key_union_congr (h : ∀ k, k ∈ ms.map key ↔ k ∈ ns.map key) :
    (union ms).key = (union ns).key := by
  rw [key_union, key_union]
  exact TypeKey.ofMembers_inj.2 h

/-! ## Congruent types have one key -/

mutual

theorem Congruent.key_eq : ∀ {a b : TypeExpr}, a.Congruent b → a.key = b.key
  | _, _, .refl _ => rfl
  | _, _, .symm h => h.key_eq.symm
  | _, _, .trans h h' => h.key_eq.trans h'.key_eq
  | _, _, .cls h => congrArg TypeKey.cls (ClassRef.same_iff.1 h)
  | _, _, .aliasOf .. => rfl
  | _, _, .union h => by rw [key_union, key_union, h.keys_eq]
  | _, _, .generic kind h => by rw [key_generic, key_generic, h.keys_eq]
  | _, _, .permute h => key_union_congr fun _ => (h.map key).mem_iff
  | _, _, .duplicate m ms => key_union_congr fun k => by simp

theorem CongruentAll.keys_eq : ∀ {as bs : List TypeExpr}, CongruentAll as bs →
    as.map key = bs.map key
  | _, _, .nil => rfl
  | _, _, .cons h hs => by rw [List.map_cons, List.map_cons, h.key_eq, hs.keys_eq]

end

/-! ## Types of one key are congruent -/

theorem CongruentAll.refl : ∀ ms : List TypeExpr, CongruentAll ms ms
  | [] => .nil
  | m :: ms => .cons (.refl m) (.refl ms)

/-- A member of a union may be left out when another one is congruent to it. -/
theorem Congruent.absorb_one (hn : n ∈ ns) (h : m.Congruent n) :
    (TypeExpr.union (m :: ns)).Congruent (.union ns) := by
  obtain ⟨before, after, rfl⟩ := List.append_of_mem hn
  have hfront : (before ++ n :: after).Perm (n :: (before ++ after)) := List.perm_middle
  have hmove : (TypeExpr.union (m :: (before ++ n :: after))).Congruent
      (.union (m :: n :: (before ++ after))) := .permute (hfront.cons m)
  have hreplace : (TypeExpr.union (m :: n :: (before ++ after))).Congruent
      (.union (n :: n :: (before ++ after))) := .union (.cons h (.refl _))
  have hdrop : (TypeExpr.union (n :: n :: (before ++ after))).Congruent
      (.union (n :: (before ++ after))) := .symm (.duplicate n _)
  exact hmove.trans (hreplace.trans (hdrop.trans (.permute hfront.symm)))

/-- A union takes in types that are congruent to members of it. -/
theorem Congruent.absorb (h : ∀ m ∈ ms, ∃ n ∈ ns, m.Congruent n) :
    (TypeExpr.union (ms ++ ns)).Congruent (.union ns) := by
  induction ms with
  | nil => exact .refl _
  | cons m rest ih =>
    obtain ⟨⟨n, hn, hmn⟩, hrest⟩ := List.forall_mem_cons.1 h
    exact (absorb_one (List.mem_append_right rest hn) hmn).trans (ih hrest)

theorem Congruent.union_of_mem (hms : ∀ m ∈ ms, ∃ n ∈ ns, m.Congruent n)
    (hns : ∀ n ∈ ns, ∃ m ∈ ms, n.Congruent m) : (TypeExpr.union ms).Congruent (.union ns) :=
  (absorb hns).symm.trans ((Congruent.permute List.perm_append_comm).trans (absorb hms))

theorem congruentAll_of_keys (h : ∀ a ∈ as, ∀ b, a.key = b.key → a.Congruent b)
    (hkeys : as.map key = bs.map key) : CongruentAll as bs := by
  induction as generalizing bs with
  | nil =>
    rw [List.map_eq_nil_iff.1 hkeys.symm]
    exact .nil
  | cons a rest ih =>
    obtain ⟨b, bs, rfl, hb, hbs⟩ := List.map_eq_cons_iff.1 hkeys.symm
    obtain ⟨ha, hrest⟩ := List.forall_mem_cons.1 h
    exact .cons (ha b hb.symm) (ih hrest hbs.symm)

mutual

theorem congruent_of_key : ∀ a b : TypeExpr, a.key = b.key → a.Congruent b
  | .cls c, b, hk => by
    cases b with
    | cls d => exact .cls (ClassRef.same_iff.2 (TypeKey.cls.inj hk))
    | _ => simp [key, TypeKey.ofMembers] at hk
  | .noneType, b, hk => by
    cases b with
    | noneType => exact .refl _
    | _ => simp [key, TypeKey.ofMembers] at hk
  | .aliasOf id name s, b, hk => by
    cases b with
    | aliasOf id' name' s' =>
      obtain rfl := TypeKey.aliasOf.inj hk
      exact .aliasOf ..
    | _ => simp [key, TypeKey.ofMembers] at hk
  | .forward t, b, hk => by
    cases b with
    | forward t' =>
      obtain rfl := TypeKey.forward.inj hk
      exact .refl _
    | _ => simp [key, TypeKey.ofMembers] at hk
  | .generic kind as, b, hk => by
    obtain ⟨bs, rfl, hkeys⟩ := eq_generic_of_key hk
    exact .generic kind (congruentAll_of_keys (congruent_of_mem as) hkeys)
  | .union ms, b, hk => by
    obtain ⟨ns, rfl, hkeys⟩ := eq_union_of_key hk
    have hmember := congruent_of_mem ms
    apply Congruent.union_of_mem
    · intro m hm
      obtain ⟨n, hn, hnm⟩ := List.mem_map.1 ((hkeys m.key).1 (List.mem_map_of_mem hm))
      exact ⟨n, hn, hmember m hm n hnm.symm⟩
    · intro n hn
      obtain ⟨m, hm, hmn⟩ := List.mem_map.1 ((hkeys n.key).2 (List.mem_map_of_mem hn))
      exact ⟨m, hm, (hmember m hm n hmn).symm⟩

theorem congruent_of_mem : ∀ ms : List TypeExpr, ∀ m ∈ ms, ∀ n, m.key = n.key → m.Congruent n
  | [], _, hm, _, _ => absurd hm List.not_mem_nil
  | m :: ms, m', hm, n, hk => by
    rcases List.mem_cons.1 hm with he | hm
    · rw [he] at hk ⊢
      exact congruent_of_key m n hk
    · exact congruent_of_mem ms m' hm n hk

end

/-! ## Equality of structure -/

mutual

theorem congruent_of_same : ∀ a b : TypeExpr, a.same b = true → a.Congruent b
  | .cls c, b, h => by
    cases b with
    | cls d => exact .cls h
    | _ => cases h
  | .noneType, b, h => by
    cases b with
    | noneType => exact .refl _
    | _ => cases h
  | .aliasOf id name s, b, h => by
    cases b with
    | aliasOf id' name' s' =>
      obtain rfl : id = id' := by simpa [same] using h
      exact .aliasOf ..
    | _ => cases h
  | .forward t, b, h => by
    cases b with
    | forward t' =>
      obtain rfl : t = t' := by simpa [same] using h
      exact .refl _
    | _ => cases h
  | .generic kind as, b, h => by
    cases b with
    | generic kind' bs =>
      obtain ⟨rfl, has⟩ : kind = kind' ∧ sameAll as bs = true := by simpa [same] using h
      exact .generic kind (congruentAll_of_sameAll as bs has)
    | _ => cases h
  | .union ms, b, h => by
    cases b with
    | union ns => exact .union (congruentAll_of_sameAll ms ns h)
    | _ => cases h

theorem congruentAll_of_sameAll : ∀ as bs : List TypeExpr, sameAll as bs = true → CongruentAll as bs
  | [], bs, h => by
    cases bs with
    | nil => exact .nil
    | cons => cases h
  | a :: as, bs, h => by
    cases bs with
    | nil => cases h
    | cons b bs =>
      obtain ⟨hab, has⟩ : a.same b = true ∧ sameAll as bs = true := by simpa [sameAll] using h
      exact .cons (congruent_of_same a b hab) (congruentAll_of_sameAll as bs has)

end

/-- Types have one key just when they are congruent, as types of one structure are, and resolved
hints have one when their types are. -/
theorem key_eq_iff_congruent :
    (∀ a b : TypeExpr, a.key = b.key ↔ a.Congruent b) ∧
    (∀ a b : TypeExpr, a.same b = true → a.key = b.key) ∧
    ∀ ann ann' : ResolvedHint,
      ann.key = ann'.key ↔ ann.head.resolved.Congruent ann'.head.resolved := by
  have hiff : ∀ a b : TypeExpr, a.key = b.key ↔ a.Congruent b := fun a b =>
    ⟨congruent_of_key a b, Congruent.key_eq⟩
  refine ⟨hiff, fun a b h => (congruent_of_same a b h).key_eq, fun ann ann' => ?_⟩
  exact hiff ann.head.resolved ann'.head.resolved

end TypeExpr

namespace Sample

def scalars : TypeExpr := .union [.cls .int, .cls .str]

def scalarsReversed : TypeExpr := .union [.cls .str, .cls .int]

/-- A union that has another one twice as a member is as one that has it once, whatever the orders
of their members are, even inside of a list; but the order of the arguments of another type counts. -/
theorem congruent_orders :
    (TypeExpr.listOf (.union [scalars, .noneType, scalarsReversed])).Congruent
      (.listOf (.union [.noneType, scalarsReversed])) ∧
    ¬ (TypeExpr.generic (.other "Dict") [.cls .int, .cls .str]).Congruent
      (.generic (.other "Dict") [.cls .str, .cls .int]) := by
  obtain ⟨hiff, -, -⟩ := TypeExpr.key_eq_iff_congruent
  refine ⟨(hiff _ _).1 (by decide +kernel), fun h => ?_⟩
  exact absurd ((hiff _ _).2 h) (by decide +kernel)

end Sample

end HintSchema
