import HintSchema.Proofs.Trails

/-!
# Resolved hints that match

A resolved hint matches another one when both have the same form, over the same classes and aliases
and under the same keys, and the unions of the first that have names have the same names in the second
(`ResolvedHint.Matches`).  Respelled hints resolve to hints that match
(`Hint.Respelled.interchangeable`).
-/

namespace HintSchema

open Text HintTerm

/-! ## Hints without member hints -/

namespace Hint

variable {raw : Option Hint} {source name : String} {cs : List Char} {k count : Nat}

/-- An identifier, perhaps in quotes, has no brackets. -/
theorem bracketed?_of_isIdentifier (hid : isIdentifier (unquote cs) = true) :
    bracketed? cs = none := by
  obtain ⟨before, after, hb, ha, hcs⟩ := exists_trim cs
  unfold unquote at hid
  split at hid
  · cases hid
  · rename_i q rest htrim
    rw [htrim] at hcs
    split_ifs at hid with hquote
    · rw [hcs, List.cons_append]
      exact bracketed?_quote_append hb (Bool.and_eq_true_iff.1 hquote).1
    · have hspelled := Spelled.name hb (isName_of_isIdentifier hid) ha
      rw [← hcs] at hspelled
      exact bracketed?_of_name hspelled

/-- A text without commas is one piece. -/
theorem pieces_of_not_mem {s : Scan} (h : ',' ∉ cs) : pieces s cs = (cs, []) := by
  induction cs generalizing s with
  | nil => rfl
  | cons c rest ih =>
    rw [List.mem_cons, not_or] at h
    have hsep : s.separates c = false := by simp [Scan.separates, Ne.symm h.1]
    rw [pieces, ih h.2, hsep]
    rfl

theorem splitTopLevel_of_not_mem (h : ',' ∉ cs) : splitTopLevel cs = [trim cs] := by
  rw [splitTopLevel, pieces_of_not_mem h]
  rfl

theorem memberTexts_of_isIdentifier (hid : isIdentifier (unquote cs) = true) (fuel : Nat) :
    memberTexts fuel cs = none := by
  cases fuel with
  | zero => rfl
  | succ fuel => rw [memberTexts, bracketed?_of_isIdentifier hid]

/-- A hint that is a name, or leaves one behind a layer, has no hints of several members. -/
theorem length_of_memberHints {hint : Hint} {hints : List Hint} (hk : k ≤ 1)
    (hname : nameAt? k hint = some name) (h : hint.memberHints = some hints) : hints.length ≤ 1 := by
  obtain rfl | rfl : k = 0 ∨ k = 1 := by omega
  · cases hint with
    | text source =>
      rw [memberHints, memberTexts_of_isIdentifier (bareName?_iff.1 hname).1] at h
      cases h
    | expr type => cases hname
  · cases hint with
    | text source =>
      rw [memberHints] at h
      obtain ⟨inner, hinner, hname⟩ := Option.bind_eq_some_iff.1 hname
      obtain ⟨text, htext, rfl⟩ := ok_of_map (ok_of_toOption hinner)
      obtain ⟨hid, -⟩ := bareName?_iff.1 hname
      rw [unwrapText] at htext
      split at htext
      · rename_i body hbody
        cases htext
        rw [String.toList_ofList] at hid
        have hcomma : ',' ∉ unquote body := fun hmem =>
          comma_not_mem_of_isIdentifier hid (comma_mem_unquote hmem)
        rw [memberTexts, hbody] at h
        dsimp only at h
        rw [splitTopLevel_of_not_mem hcomma, if_neg (by simp),
          memberTexts_of_isIdentifier hid] at h
        cases h
      · cases htext
    | expr type =>
      obtain ⟨inner, hinner, -⟩ := Option.bind_eq_some_iff.1 hname
      have hinner := ok_of_toOption hinner
      cases type with
      | union members =>
        cases h
        rw [unwrap] at hinner
        split at hinner
        · rename_i only honly
          rw [honly]
          rfl
        · cases hinner
      | cls | noneType | aliasOf | generic | forward => cases h

end Hint

namespace ResolvedHint

/-- Resolved hints of one form, over the same classes and aliases and under the same keys.  A union of
the first one that has a name has it in the second one. -/
inductive Matches : ResolvedHint → ResolvedHint → Prop
  | cls {head head' : ResolvedHead} {c : ClassRef} : head.resolved.key = head'.resolved.key →
      Matches (.cls head c) (.cls head' c)
  | list {head head' : ResolvedHead} {element element' : ResolvedHint} :
      head.resolved.key = head'.resolved.key → Matches element element' →
      Matches (.list head element) (.list head' element')
  | optional {head head' : ResolvedHead} {inner inner' : ResolvedHint} :
      head.resolved.key = head'.resolved.key → Matches inner inner' →
      Matches (.optional head inner) (.optional head' inner')
  | aliasOf {head head' : ResolvedHead} {base base' : ResolvedHint} :
      head.resolved = head'.resolved → Matches base base' →
      Matches (.aliasOf head base) (.aliasOf head' base')
  | named {head head' : ResolvedHead} {members members' : List ResolvedHint} {name : String} :
      head.resolved.key = head'.resolved.key → unionName (.union head members) = .ok name →
      unionName (.union head' members') = .ok name → members.length = members'.length →
      (∀ {a b}, (a, b) ∈ members.zip members' → Matches a b) →
      Matches (.union head members) (.union head' members')
  | unnamed {head head' : ResolvedHead} {members members' : List ResolvedHint} {e : SchemaError} :
      unionName (.union head members) = .error e →
      Matches (.union head members) (.union head' members')

variable {ns : Namespace} {origin : Option Origin} {raw raw' : Option Hint} {u u' : TypeExpr}
  {ann ann' : ResolvedHint}

theorem Matches.refl : ∀ ann : ResolvedHint, Matches ann ann
  | .cls _ _ => .cls rfl
  | .list _ element => .list rfl (.refl element)
  | .optional _ inner => .optional rfl (.refl inner)
  | .aliasOf _ base => .aliasOf rfl (.refl base)
  | .union head members => by
    cases hname : unionName (.union head members) with
    | error => exact .unnamed hname
    | ok name =>
      refine .named rfl hname hname rfl fun {a b} hab => ?_
      obtain ⟨i, hi, hab⟩ := List.mem_iff_getElem.1 hab
      rw [List.getElem_zip, Prod.mk.injEq] at hab
      obtain ⟨rfl, rfl⟩ := hab
      have hi : i < members.length := by simpa using hi
      have hlt := List.sizeOf_lt_of_mem (List.getElem_mem hi)
      exact .refl members[i]
termination_by ann => sizeOf ann
decreasing_by
  all_goals simp_wf
  all_goals omega

theorem Matches.of_forall₂ {head head' : ResolvedHead} {members members' : List ResolvedHint}
    {name : String} (hkey : head.resolved.key = head'.resolved.key)
    (hname : unionName (.union head members) = .ok name)
    (hname' : unionName (.union head' members') = .ok name)
    (h : List.Forall₂ Matches members members') :
    Matches (.union head members) (.union head' members') :=
  .named hkey hname hname' h.length_eq fun {_ _} => (List.forall₂_iff_zip.1 h).2

/-! ## Resolving types that are equal when settled -/

theorem unionName_iff_bareName? {name : String} :
    unionName ann = .ok name ↔ ann.head.raw.bind Hint.bareName? = some name := by
  rw [unionName_iff, Option.bind_eq_some_iff]
  constructor
  · rintro ⟨source, hraw, hname⟩
    exact ⟨_, hraw, Hint.bareName?_iff.2 hname⟩
  · rintro ⟨hint, hraw, hname⟩
    cases hint with
    | text source => exact ⟨source, hraw, Hint.bareName?_iff.1 hname⟩
    | expr => cases hname

theorem rawsOfMembers_of_nameAt? {k count : Nat} {name : String} (hk : k ≤ 1) (hcount : 2 ≤ count)
    (hname : raw.bind (Hint.nameAt? k) = some name) :
    rawsOfMembers raw count = List.replicate count none := by
  obtain ⟨hint, rfl, hname⟩ := Option.bind_eq_some_iff.1 hname
  rw [rawsOfMembers, if_neg (by omega), Option.bind_some]
  cases hhints : hint.memberHints with
  | none => rfl
  | some hints =>
    have hlen := Hint.length_of_memberHints hk hname hhints
    exact if_neg (by omega)

theorem ofMembers_replicate (count : Nat) (origin : Option Origin) (es : List TypeExpr) :
    ofMembers (List.replicate count none) origin es = ofMembers [] origin es := by
  induction es generalizing count with
  | nil => rfl
  | cons e rest ih =>
    have htail : (List.replicate count (none : Option Hint)).tail =
        List.replicate (count - 1) none := by cases count <;> rfl
    have hhead : (List.replicate count (none : Option Hint)).head?.join = none := by
      cases count <;> rfl
    rw [ofMembers, ofMembers, ih, hhead, htail, ih]
    rfl

/-- The members of unions that are equal when settled match, as those of the first one do one by
one. -/
theorem exists_ofMembers_matches {es es' : List TypeExpr} {members : List ResolvedHint}
    (hmatches : ∀ e ∈ es, ∀ e' ann, e.settled = e'.settled → ofExpr none origin e = .ok ann →
      ∃ ann', ofExpr none origin e' = .ok ann' ∧ Matches ann ann')
    (h : ofMembers [] origin es = .ok members)
    (hsettled : es.map TypeExpr.settled = es'.map TypeExpr.settled)
    (hnone : es.any TypeExpr.isNone = false) :
    ∃ members', ofMembers [] origin es' = .ok members' ∧ List.Forall₂ Matches members members' := by
  induction es generalizing es' members with
  | nil =>
    obtain rfl : es' = [] := by simpa using hsettled.symm
    cases h
    exact ⟨[], rfl, .nil⟩
  | cons e rest ih =>
    match es' with
    | [] => cases hsettled
    | e' :: rest' =>
      obtain ⟨he, hrest⟩ := List.cons.inj hsettled
      obtain ⟨hnone, hnones⟩ := Bool.or_eq_false_iff.1 hnone
      have hnone' : e'.isNone = false := by
        rw [← TypeExpr.isNone_settled, ← he, TypeExpr.isNone_settled, hnone]
      rw [ofMembers, if_neg (by simp [hnone])] at h
      obtain ⟨ann, hann, h⟩ := ok_of_bind h
      obtain ⟨anns, hanns, h⟩ := ok_of_bind h
      cases h
      obtain ⟨ann', hann', hmatch⟩ := hmatches e List.mem_cons_self e' ann he hann
      obtain ⟨anns', hanns', hmatches'⟩ :=
        ih (fun d hd => hmatches d (List.mem_cons_of_mem _ hd)) hanns hrest hnones
      have hhead : ofExpr ([] : List (Option Hint)).head?.join origin e' = .ok ann' := hann'
      have htail : ofMembers ([] : List (Option Hint)).tail origin rest' = .ok anns' := hanns'
      refine ⟨ann' :: anns', ?_, .cons hmatch hmatches'⟩
      rw [ofMembers, if_neg (by simp [hnone']), hhead, htail]
      rfl

/-- What a union has for its only member is at a place that its hint without a layer tells. -/
theorem Placed.only {es : List TypeExpr} {only : TypeExpr} (hp : Placed ns raw (.union es))
    (hpresent : es.filter (!·.isNone) = [only]) : Placed ns (Hint.unwrap? raw) only := by
  by_cases hany : es.any TypeExpr.isNone = true
  · have hbare : Placed ns (Hint.unwrap? raw) (TypeExpr.collapse (es.filter (!·.isNone))) :=
      hp.bare hany
    rwa [hpresent] at hbare
  · rcases hp with rfl | ⟨hn, -⟩
    · exact .inl rfl
    · -- a normal union has more members than one
      rw [filter_eq_self_of_any (by simpa using hany)] at hpresent
      subst hpresent
      exact absurd rfl hn.2.2.2

section Unions

variable {es es' : List TypeExpr} {members members' : List ResolvedHint} {head head' : ResolvedHead}
  {k : Nat}

theorem key_union_eq (hsettled : (es.filter (!·.isNone)).map TypeExpr.settled =
    (es'.filter (!·.isNone)).map TypeExpr.settled) :
    (TypeExpr.union (es.filter (!·.isNone))).key = (TypeExpr.union (es'.filter (!·.isNone))).key := by
  refine TypeExpr.key_eq_of_settled (TypeExpr.settled_union_inj.2 ⟨?_, ?_⟩)
  · rwa [filter_eq_self_of_any (any_isNone_filter es), filter_eq_self_of_any (any_isNone_filter es')]
  · rw [any_isNone_filter, any_isNone_filter]

/-- A union that has a name is resolved without hints for its members, so they match those of a
union that is equal when settled and keeps its name. -/
theorem matches_union {anns anns' : List ResolvedHint} (hk : k ≤ 1)
    (hlen : 2 ≤ (es.filter (!·.isNone)).length)
    (hsettled : (es.filter (!·.isNone)).map TypeExpr.settled =
      (es'.filter (!·.isNone)).map TypeExpr.settled)
    (hmembers : ofMembers (rawsOfMembers raw (es.filter (!·.isNone)).length) origin es = .ok members)
    (hmembers' : ofMembers (rawsOfMembers raw' (es'.filter (!·.isNone)).length) origin es' =
      .ok members')
    (hanns : ofMembers [] origin es = .ok anns) (hanns' : ofMembers [] origin es' = .ok anns')
    (hall : List.Forall₂ Matches anns anns') (hkeeps : Hint.KeepsNames ns raw raw')
    (hres : head.resolved = .union (es.filter (!·.isNone)))
    (hres' : head'.resolved = .union (es'.filter (!·.isNone)))
    (hraw : head.raw.bind Hint.bareName? = raw.bind (Hint.nameAt? k))
    (hraw' : head'.raw.bind Hint.bareName? = raw'.bind (Hint.nameAt? k))
    (hsome : ∀ name, unionName (.union head members) = .ok name → ns.NamesSome name) :
    Matches (.union head members) (.union head' members') := by
  cases hname : unionName (.union head members) with
  | error => exact .unnamed hname
  | ok name =>
    have hlen' : 2 ≤ (es'.filter (!·.isNone)).length := TypeExpr.length_eq_of_settled hsettled ▸ hlen
    have hat : raw.bind (Hint.nameAt? k) = some name := hraw ▸ unionName_iff_bareName?.1 hname
    have hat' := hkeeps k name (hsome name hname) hat
    rw [rawsOfMembers_of_nameAt? hk hlen hat, ofMembers_replicate, hanns] at hmembers
    rw [rawsOfMembers_of_nameAt? hk hlen' hat', ofMembers_replicate, hanns'] at hmembers'
    cases hmembers
    cases hmembers'
    refine .of_forall₂ ?_ hname (unionName_iff_bareName?.2 (hraw'.trans hat')) hall
    rw [hres, hres', key_union_eq hsettled]

theorem exists_ofExpr_union_many (h : ofExpr raw origin (.union es) = .ok ann)
    (hlen : 2 ≤ (es.filter (!·.isNone)).length)
    (hsettled : (es.filter (!·.isNone)).map TypeExpr.settled =
      (es'.filter (!·.isNone)).map TypeExpr.settled)
    (hany : es.any TypeExpr.isNone = es'.any TypeExpr.isNone) (hp : Placed ns raw (.union es))
    (hkeeps : Hint.KeepsNames ns raw raw')
    (hmatches : ∀ e ∈ es, ∀ e' ann, e.settled = e'.settled → ofExpr none origin e = .ok ann →
      ∃ ann', ofExpr none origin e' = .ok ann' ∧ Matches ann ann') :
    ∃ ann', ofExpr raw' origin (.union es') = .ok ann' ∧ Matches ann ann' := by
  have hlen' : 2 ≤ (es'.filter (!·.isNone)).length := TypeExpr.length_eq_of_settled hsettled ▸ hlen
  have hof := h
  rw [ofExpr_union_many hlen] at h
  obtain ⟨members, hmembers, hann⟩ := ok_of_map h
  obtain ⟨anns, hanns⟩ := exists_ofMembers [] origin hmembers
  rw [← ofMembers_filter] at hanns
  obtain ⟨anns', hanns', hall⟩ := exists_ofMembers_matches
    (fun e he => hmatches e (List.mem_of_mem_filter he)) hanns hsettled (any_isNone_filter es)
  rw [ofMembers_filter] at hanns hanns'
  obtain ⟨members', hmembers'⟩ :=
    exists_ofMembers (rawsOfMembers raw' (es'.filter (!·.isNone)).length) origin hanns'
  have hsome : ∀ {head}, Inside ann (.union head members) → ∀ name,
      unionName (.union head members) = .ok name → ns.NamesSome name := by
    intro head hi name hname
    obtain ⟨e, ds, he, -, hlen, hnone, hreaches⟩ := reaches_of_unionName hof hp hi hname
    exact ⟨ds, ⟨e, he, hreaches⟩, hlen, hnone⟩
  rw [ofExpr_union_many hlen', hmembers']
  refine ⟨_, rfl, ?_⟩
  dsimp only
  rw [← hany]
  by_cases hnone : es.any TypeExpr.isNone = true
  · rw [if_pos hnone] at hann ⊢
    have hkey := TypeExpr.key_eq_of_settled (TypeExpr.settled_union_inj.2 ⟨hsettled, hany⟩)
    rw [hann]
    refine .optional hkey (matches_union (le_refl 1) hlen hsettled hmembers hmembers' hanns hanns' hall
      hkeeps rfl rfl ?_ ?_ (hsome (hann ▸ .single .optional)))
    · exact (Hint.bind_nameAt?_succ raw 0).symm
    · exact (Hint.bind_nameAt?_succ raw' 0).symm
  · rw [if_neg hnone] at hann ⊢
    rw [hann]
    exact matches_union (Nat.zero_le 1) hlen hsettled hmembers hmembers' hanns hanns' hall hkeeps rfl
      rfl rfl rfl (hsome (hann ▸ .refl))

end Unions

/-- Types that are equal when settled resolve to hints that match, if the hints as written keep the
names of unions. -/
theorem exists_ofExpr_matches : ∀ {u u' : TypeExpr} {raw raw' : Option Hint} {ann : ResolvedHint},
    ofExpr raw origin u = .ok ann → u.settled = u'.settled → Placed ns raw u →
      Hint.KeepsNames ns raw raw' → ∃ ann', ofExpr raw' origin u' = .ok ann' ∧ Matches ann ann'
  | .cls c, u', _, _, _, h, hsettled, _, _ => by
    cases h
    cases u' <;> cases hsettled
    exact ⟨_, rfl, .cls rfl⟩
  | .noneType, u', _, _, _, h, hsettled, _, _ => by
    cases h
    cases u' <;> cases hsettled
    exact ⟨_, rfl, .cls rfl⟩
  | .forward _, _, _, _, _, h, _, _, _ => by cases h
  | .aliasOf _ _ supertype, u', _, _, _, h, hsettled, _, _ => by
    cases u' <;> cases hsettled
    rw [ofExpr] at h ⊢
    obtain ⟨base, hbase, h⟩ := ok_of_bind h
    cases h
    rw [hbase]
    exact ⟨_, rfl, .aliasOf rfl (.refl _)⟩
  | .generic kind [x], u', _, _, _, h, hsettled, hp, hkeeps => by
    obtain ⟨x', rfl, hx⟩ := TypeExpr.exists_of_settled_generic hsettled
    rw [ofExpr] at h ⊢
    split_ifs at h ⊢ with hk
    obtain ⟨inner, hinner, h⟩ := ok_of_bind h
    cases h
    obtain ⟨inner', hinner', hmatch⟩ :=
      exists_ofExpr_matches hinner hx (hp.element hk) hkeeps.unwrap
    rw [hinner']
    exact ⟨_, rfl, .list (TypeExpr.key_eq_of_settled hsettled) hmatch⟩
  | .generic kind [], _, _, _, _, h, _, _, _ => by
    rw [ofExpr] at h
    split_ifs at h
  | .generic kind (_ :: _ :: _), _, _, _, _, h, _, _, _ => by
    rw [ofExpr] at h
    · split_ifs at h
    all_goals simp
  | .union es, u', raw, raw', ann, h, hsettled, hp, hkeeps => by
    obtain ⟨es', rfl, hpresent, hany⟩ := TypeExpr.exists_of_settled_union hsettled
    rcases ofExpr_union_cases h with ⟨only, inner, honly, hinner, hann⟩ | ⟨-, hlen, -, -⟩
    · have hlt : sizeOf only < sizeOf es := List.sizeOf_lt_of_mem (mem_of_present honly).1
      rw [honly] at hpresent
      obtain ⟨only', honly', hsame⟩ : ∃ only', es'.filter (!·.isNone) = [only'] ∧
          only.settled = only'.settled := by
        obtain ⟨only', honly', hsame⟩ := List.map_eq_singleton_iff.1 hpresent.symm
        exact ⟨only', honly', hsame.symm⟩
      obtain ⟨inner', hinner', hmatch⟩ :=
        exists_ofExpr_matches hinner hsame (hp.only honly) hkeeps.unwrap
      rw [ofExpr_union_one honly', hinner']
      refine ⟨_, rfl, ?_⟩
      rw [hann, ← hany]
      split_ifs
      · exact .optional (TypeExpr.key_eq_of_settled hsettled) hmatch
      · exact hmatch
    · refine exists_ofExpr_union_many h hlen hpresent hany hp hkeeps fun e he e' ann hsame hann => ?_
      have hlt := List.sizeOf_lt_of_mem he
      exact exists_ofExpr_matches hann hsame (.inl rfl) (.refl none)
termination_by u => sizeOf u
decreasing_by
  all_goals simp_wf
  all_goals omega

end ResolvedHint

/-! ## Resolving respelled hints -/

/-- Hints that resolve alike wherever they stand, as they are and made optional. -/
def Hint.Interchangeable (ns : Namespace) (hint hint' : Hint) : Prop :=
  ∀ origin e, ns.eval hint = .ok e → ∃ e', ns.eval hint' = .ok e' ∧
    Yields ResolvedHint.Matches (ResolvedHint.ofExpr (some hint) origin e)
      (ResolvedHint.ofExpr (some hint') origin e') ∧
    Yields ResolvedHint.Matches (ResolvedHint.ofExpr (some hint) origin e.optional)
      (ResolvedHint.ofExpr (some hint') origin e'.optional)

theorem Hint.Interchangeable.yields_ofHint {ns : Namespace} {hint hint' : Hint}
    (h : Hint.Interchangeable ns hint hint') (origin : Origin) : Yields ResolvedHint.Matches
      (ResolvedHint.ofHint ns hint origin) (ResolvedHint.ofHint ns hint' origin) := by
  intro ann hann
  obtain ⟨e, he, hann⟩ := ResolvedHint.ofHint_eq_ok_iff.1 hann
  obtain ⟨e', he', hplain, -⟩ := h (some origin) e he
  obtain ⟨ann', hann', hmatch⟩ := hplain ann hann
  exact ⟨ann', ResolvedHint.ofHint_eq_ok_iff.2 ⟨e', he', hann'⟩, hmatch⟩

/-- Respelled hints resolve alike, if what is free leaves no name of a union. -/
theorem Hint.Respelled.interchangeable {ns : Namespace} {hint hint' : Hint}
    (h : Hint.Respelled (NamesNoUnion ns) hint hint') (hnone : ns.get? "None" = none) :
    Hint.Interchangeable ns hint hint' := by
  intro origin e he
  obtain ⟨e', he', hsettled⟩ := h.settles_eval hnone e he
  refine ⟨e', he', fun ann hann => ?_, fun ann hann => ?_⟩
  · exact ResolvedHint.exists_ofExpr_matches hann hsettled (ResolvedHint.placed_of_eval he) h.keepsNames
  · exact ResolvedHint.exists_ofExpr_matches hann (TypeExpr.settled_optional_congr hsettled)
      (ResolvedHint.placed_optional_of_eval he) h.keepsNames

end HintSchema
