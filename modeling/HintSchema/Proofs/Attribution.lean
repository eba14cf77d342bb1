import Mathlib
import HintSchema.Proofs.MemberTexts
import HintSchema.Proofs.Resolution
import HintSchema.Proofs.Unnamed

/-!
# Which member a hint is of

The members of a resolved union carry the hints that the hint of the union is taken apart into, when
there are as many of them as members.  The members are those of the evaluated type, though, which is
flattened and has no member twice, so a hint can be that of another member.  Where the numbers
agree, each member carries a hint of its own type just when the hints evaluate to different types,
none of them a union or absent (`Hint.Apart`, `ResolvedHint.attributed_iff`).
-/

namespace HintSchema

/-- Hints that evaluate to different types, none of which is a union or that of the absent value. -/
def Hint.Apart (ns : Namespace) (parts : List Hint) : Prop :=
  ∃ types, List.Forall₂ (fun p t => ns.eval p = .ok t) parts types ∧
    (∀ t ∈ types, t.isUnion = false ∧ t.isNone = false) ∧ (types.map TypeExpr.key).Nodup

namespace TypeExpr

variable {es types : List TypeExpr}

/-- Types with the keys of the members of a union are different, and none of them is a union. -/
theorem Normal.apart_of_keys (hn : (union es).Normal)
    (hkeys : types.map key = (es.filter (!·.isNone)).map key) :
    (∀ t ∈ types, t.isUnion = false ∧ t.isNone = false) ∧ (types.map key).Nodup := by
  constructor
  · intro t ht
    have hmem : t.key ∈ (es.filter (!·.isNone)).map key := hkeys ▸ List.mem_map_of_mem ht
    obtain ⟨m, hm, hmt⟩ := List.mem_map.1 hmem
    obtain ⟨hmes, hnone⟩ := List.mem_filter.1 hm
    rw [← isUnion_eq_of_key hmt, ← isNone_eq_of_key hmt]
    exact ⟨(hn.members m hmes).2, by simpa using hnone⟩
  · rw [hkeys]
    exact hn.nodup_members.sublist (List.filter_sublist.map key)

end TypeExpr

namespace ResolvedHint

open TypeExpr (present distinct members_eq_self distinct_eq_self)

variable {ns : Namespace} {raw : Option Hint} {hint : Hint} {origin : Option Origin}
  {ann : ResolvedHint} {anns : List ResolvedHint} {raws : List (Option Hint)} {parts : List Hint}
  {e : TypeExpr} {es types : List TypeExpr}

/-- The members of a union, which may be optional. -/
def unionMembers : ResolvedHint → List ResolvedHint
  | .union _ members | .optional _ (.union _ members) => members
  | _ => []

/-- Each member of a union that carries a hint has the type that the hint evaluates to. -/
def Attributed (ns : Namespace) (ann : ResolvedHint) : Prop :=
  ∀ m ∈ ann.unionMembers, ∀ raw, m.head.raw = some raw →
    ∃ t, ns.eval raw = .ok t ∧ t.key = m.key

/-! ## What members carry -/

theorem head_of_ofExpr (hunion : e.isUnion = false) (h : ofExpr raw origin e = .ok ann) :
    ann.head = ⟨raw, e, origin⟩ := by
  cases e with
  | cls | noneType =>
    cases h
    rfl
  | union => cases hunion
  | forward => cases h
  | aliasOf =>
    rw [ofExpr] at h
    obtain ⟨base, -, h⟩ := ok_of_bind h
    cases h
    rfl
  | generic kind args =>
    match args with
    | [element] =>
      unfold ofExpr at h
      split_ifs at h
      obtain ⟨inner, -, h⟩ := ok_of_bind h
      cases h
      rfl
    | [] =>
      unfold ofExpr at h
      split_ifs at h
    | _ :: _ :: _ =>
      rw [ofExpr] at h
      · split_ifs at h
      all_goals simp

theorem heads_of_ofMembers (hes : ∀ e ∈ es, e.isUnion = false ∧ e.isNone = false)
    (hlen : raws.length = es.length) (h : ofMembers raws origin es = .ok anns) :
    anns.map (·.head.raw) = raws ∧ anns.map (·.head.resolved) = es := by
  induction es generalizing raws anns with
  | nil =>
    cases h
    exact ⟨(List.length_eq_zero_iff.1 hlen).symm, rfl⟩
  | cons e rest ih =>
    obtain ⟨⟨hunion, hnone⟩, hrest⟩ := List.forall_mem_cons.1 hes
    obtain ⟨raw, raws, rfl⟩ := List.exists_cons_of_length_eq_add_one hlen
    rw [ofMembers, if_neg (by simp [hnone])] at h
    obtain ⟨ann, hann, h⟩ := ok_of_bind h
    obtain ⟨anns, hanns, h⟩ := ok_of_bind h
    cases h
    obtain ⟨hraws, htypes⟩ := ih hrest (by simpa using hlen) hanns
    have hhead : ann.head = ⟨raw, e, origin⟩ := head_of_ofExpr hunion hann
    rw [List.map_cons, List.map_cons, hraws, htypes, hhead]
    exact ⟨rfl, rfl⟩

theorem length_rawsOfMembers (raw : Option Hint) (count : Nat) :
    (rawsOfMembers raw count).length = count := by
  unfold rawsOfMembers
  split_ifs with hone
  · simp [hone]
  · split
    · split_ifs with hlen
      · simpa using hlen
      · simp
    · simp

/-- The members of a resolved union are those of the type besides absence, and carry the hints of
members in their order. -/
theorem unionMembers_of_ofExpr (hn : (TypeExpr.union es).Normal)
    (htwo : 2 ≤ (es.filter (!·.isNone)).length) (h : ofExpr raw origin (.union es) = .ok ann) :
    ann.unionMembers.map (·.head.raw) = rawsOfMembers raw (es.filter (!·.isNone)).length ∧
      ann.unionMembers.map (·.head.resolved) = es.filter (!·.isNone) := by
  rw [ofExpr_union_many htwo, ← ofMembers_filter] at h
  obtain ⟨anns, hanns, rfl⟩ := ok_of_map h
  have hmembers : ∀ e ∈ es.filter (!·.isNone), e.isUnion = false ∧ e.isNone = false := by
    intro e he
    obtain ⟨hmem, hnone⟩ := List.mem_filter.1 he
    exact ⟨(hn.members e hmem).2, by simpa using hnone⟩
  have heads := heads_of_ofMembers hmembers (length_rawsOfMembers raw _) hanns
  split_ifs
  · exact heads
  · exact heads

theorem rawsOfMembers_of_length {count : Nat} (htwo : 2 ≤ count)
    (hparts : hint.memberHints = some parts) (hlen : parts.length = count) :
    rawsOfMembers (some hint) count = parts.map some := by
  rw [rawsOfMembers, if_neg (by omega), Option.bind_some, hparts]
  exact if_pos hlen

theorem rawsOfMembers_cases {count : Nat} (htwo : 2 ≤ count) :
    (∃ parts, hint.memberHints = some parts ∧ parts.length = count) ∨
      rawsOfMembers (some hint) count = List.replicate count none := by
  rw [rawsOfMembers, if_neg (by omega), Option.bind_some]
  cases hint.memberHints with
  | none => exact .inr rfl
  | some parts =>
    by_cases hlen : parts.length = count
    · exact .inl ⟨parts, rfl, hlen⟩
    · exact .inr (if_neg hlen)

/-! ## Hints that build a union -/

/-- The types of hints that are apart are the members of a union that they build. -/
theorem eval_present_of_apart (hapart : Hint.Apart ns parts) (hbuild : Hint.BuildAs ns parts e) :
    List.Forall₂ (fun p t => ns.eval p = .ok t) parts e.present := by
  obtain ⟨types, htypes, hplain, hnodup⟩ := hapart
  obtain ⟨types', htypes', hpresent⟩ := hbuild
  obtain rfl : types = types' := by
    rw [← List.forall₂_eq_eq_eq]
    exact forall₂_of_common htypes htypes' fun _ _ _ _ ht ht' => Except.ok.inj (ht.symm.trans ht')
  have hself : ∀ t ∈ types, present t = [t] := fun t ht => by
    obtain ⟨hunion, hnone⟩ := hplain t ht
    rw [present, members_eq_self hunion]
    simp [hnone]
  rw [List.flatMap_congr hself, List.flatMap_singleton', distinct_eq_self hnodup (by simp)]
    at hpresent
  rwa [hpresent]

theorem apart_of_attributed (hn : (TypeExpr.union es).Normal) (hattributed : Attributed ns ann)
    (hraws : ann.unionMembers.map (·.head.raw) = parts.map some)
    (htypes : ann.unionMembers.map (·.head.resolved) = es.filter (!·.isNone)) :
    Hint.Apart ns parts := by
  have hcarry : List.Forall₂ (fun m p => m.head.raw = some p) ann.unionMembers parts := by
    rwa [← List.forall₂_eq_eq_eq, List.forall₂_map_left_iff, List.forall₂_map_right_iff] at hraws
  have hkeys : List.Forall₂ (fun m k => k = m.key) ann.unionMembers (ann.unionMembers.map key) :=
    List.forall₂_map_right_iff.2 (List.forall₂_same.2 fun _ _ => rfl)
  have heach : List.Forall₂ (fun p k => ∃ t, ns.eval p = .ok t ∧ k = t.key) parts
      (ann.unionMembers.map key) :=
    forall₂_of_common hcarry hkeys fun m hm {p k} hp hk => by
      obtain ⟨t, ht, htm⟩ := hattributed m hm p hp
      exact ⟨t, ht, hk.trans htm.symm⟩
  obtain ⟨types, heval, hsame⟩ := exists_of_forall₂_exists heach
  refine ⟨types, heval, hn.apart_of_keys ?_⟩
  rw [← hsame, ← htypes, List.map_map]
  rfl

theorem attributed_of_eval
    (hraws : ann.unionMembers.map (·.head.raw) = parts.map some)
    (heval : List.Forall₂ (fun p t => ns.eval p = .ok t) parts
      (ann.unionMembers.map (·.head.resolved))) : Attributed ns ann := by
  have hcarry : List.Forall₂ (fun p m => m.head.raw = some p) parts ann.unionMembers := by
    rw [← List.forall₂_eq_eq_eq, List.forall₂_map_left_iff, List.forall₂_map_right_iff] at hraws
    exact hraws.flip
  rw [List.forall₂_map_right_iff] at heval
  have hown : List.Forall₂ (fun m m' => ∀ raw, m.head.raw = some raw →
      ns.eval raw = .ok m'.head.resolved) ann.unionMembers ann.unionMembers :=
    forall₂_of_common hcarry heval fun p _ {m m'} hm hm' raw hraw => by
      cases hm.symm.trans hraw
      exact hm'
  intro m hm raw hraw
  exact ⟨_, List.forall₂_same.1 hown m hm raw hraw, rfl⟩

/-- The members of a resolved union carry no hints that are not theirs just when the hints that the
hint of the union is taken apart into are apart, if there are as many as members. -/
theorem attributed_iff (hnone : ns.eval (.text "None") = .ok .noneType)
    (he : ns.eval hint = .ok (.union es)) (htwo : 2 ≤ (es.filter (!·.isNone)).length)
    (h : ofExpr (some hint) origin (.union es) = .ok ann) :
    ann.unionMembers.map (·.head.resolved) = es.filter (!·.isNone) ∧
      (Attributed ns ann ↔ ∀ parts, hint.memberHints = some parts →
        parts.length = (es.filter (!·.isNone)).length → Hint.Apart ns parts) := by
  have hn := Namespace.normal_of_eval he
  obtain ⟨hraws, htypes⟩ := unionMembers_of_ofExpr hn htwo h
  refine ⟨htypes, fun hattributed parts hparts hlen => ?_, fun hapart => ?_⟩
  · rw [rawsOfMembers_of_length htwo hparts hlen] at hraws
    exact apart_of_attributed hn hattributed hraws htypes
  · rcases rawsOfMembers_cases htwo with ⟨parts, hparts, hlen⟩ | hnothing
    · have happly := hapart parts hparts hlen
      -- hints that are apart evaluate, so what they are taken from is taken apart rightly
      have hbuild : Hint.BuildAs ns parts (.union es) := by
        refine (Hint.buildAs_memberHints hnone he htwo hparts).resolve_right ?_
        rintro ⟨p, hp, hfails⟩
        obtain ⟨types, heval, -⟩ := happly
        obtain ⟨t, -, ht⟩ := exists_right_of_forall₂ heval hp
        exact hfails t ht
      rw [rawsOfMembers_of_length htwo hparts hlen] at hraws
      exact attributed_of_eval hraws (htypes ▸ eval_present_of_apart happly hbuild)
    · intro m hm raw hraw
      have hmem : some raw ∈ ann.unionMembers.map (·.head.raw) := List.mem_map.2 ⟨m, hm, hraw⟩
      rw [hraws, hnothing] at hmem
      cases List.eq_of_mem_replicate hmem

end ResolvedHint

namespace Sample

open ResolvedHint

/-- The types of cats and of lists of dogs. -/
def catOrDogs : List TypeExpr := [.cls cat, .listOf (.cls dog), .noneType]

/-- The parts of a hint for a cat or a list of dogs are as many as the types and apart, and what
each member carries is its own. -/
theorem attributed_catOrDogs :
    townNames.eval (.text "Optional[Union['Cat', List[Dog]]]") = .ok (.union catOrDogs) ∧
    ∃ ann, ofExpr (some (.text "Optional[Union['Cat', List[Dog]]]")) none (.union catOrDogs) =
        .ok ann ∧
      ann.unionMembers.map (fun m => m.head.raw.bind Hint.text?) = [some "Cat", some "List[Dog]"] ∧
      Attributed townNames ann := by
  have heval : townNames.eval (.text "Optional[Union['Cat', List[Dog]]]") =
      .ok (.union catOrDogs) := by cbv
  have hparts : (Hint.text "Optional[Union['Cat', List[Dog]]]").memberHints =
      some [.text "Cat", .text "List[Dog]"] := by cbv
  refine ⟨heval, _, rfl, by decide +kernel, ?_⟩
  refine (attributed_iff (by cbv) heval (by decide) rfl).2.2 fun parts hsome _ => ?_
  cases hparts.symm.trans hsome
  refine ⟨[.cls cat, .listOf (.cls dog)], .cons (by cbv) (.cons (by cbv) .nil), ?_, by decide⟩
  simp [TypeExpr.isUnion, TypeExpr.isNone, TypeExpr.listOf]

/-- A cat that is called a pet, and a dog that is called a cat. -/
def miscalled : ResolvedHint :=
  .union ⟨some (.text "Union[Pet, Cat]"), .union [.cls cat, .cls dog], none⟩
    [.cls ⟨some (.text "Pet"), .cls cat, none⟩ cat, .cls ⟨some (.text "Cat"), .cls dog, none⟩ dog]

/-- A pet is a cat or a dog, so a hint for pets and cats has two members as it has two parts; but the
dog carries the hint for cats. -/
theorem miscalled_not_attributed :
    townNames.eval (.text "Union[Pet, Cat]") = .ok (.union [.cls cat, .cls dog]) ∧
    ofExpr (some (.text "Union[Pet, Cat]")) none (.union [.cls cat, .cls dog]) = .ok miscalled ∧
    ¬ Attributed townNames miscalled := by
  refine ⟨by cbv, rfl, fun hattributed => ?_⟩
  have hdog : ResolvedHint.cls ⟨some (.text "Cat"), .cls dog, none⟩ dog ∈ miscalled.unionMembers :=
    List.mem_cons_of_mem _ List.mem_cons_self
  obtain ⟨t, ht, hkey⟩ := hattributed _ hdog (.text "Cat") rfl
  have hcat : townNames.eval (.text "Cat") = .ok (.cls cat) := by cbv
  cases hcat.symm.trans ht
  exact absurd hkey (by decide)

end Sample

end HintSchema
