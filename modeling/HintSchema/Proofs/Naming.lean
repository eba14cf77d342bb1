import HintSchema.Proofs.Peeling
import HintSchema.Proofs.Resolution

/-!
# Names of unions in resolved hints

A union of a resolved hint is named by what is left of the hint as written when as many layers are
taken off it as the union has above it.  `TypeExpr.Tracks` is what the type of the remaining hint and
the type at that place have to do with each other; with it, the name of a union denotes a type that
leads to the union through sequences and absence only (`ResolvedHint.reaches_of_unionName`).
-/

namespace HintSchema

open Relation

namespace TypeExpr

variable {e e' u x : TypeExpr} {kind : GenericKind}

/-! ## Types on the way to a union -/

/-- From a type without its absence, perhaps through elements of sequences, to another one without
its absence. -/
inductive Reaches : TypeExpr → TypeExpr → Prop
  | here {e u : TypeExpr} : e.bare = u.bare → Reaches e u
  | element {e u x : TypeExpr} {kind : GenericKind} :
      e.bare = .generic kind [x] → kind.isSequence = true → Reaches x u → Reaches e u

/-- The type of a hint against the type at a place: it reaches it, or the place is a sequence of
it, as below a hint that was made optional for its default. -/
def Tracks (e u : TypeExpr) : Prop := Reaches e u ∨ ∃ kind, u = .generic kind [e]

theorem Reaches.of_bare (h : Reaches e u) (hb : e.bare = e'.bare) : Reaches e' u := by
  cases h with
  | here h => exact .here (hb ▸ h)
  | element hx hk h => exact .element (hb ▸ hx) hk h

theorem Reaches.to_bare (h : Reaches e u) {u' : TypeExpr} (hb : u.bare = u'.bare) :
    Reaches e u' := by
  induction h with
  | here h => exact .here (h.trans hb)
  | element hx hk _ ih => exact .element hx hk (ih hb)

theorem Reaches.to_element (h : Reaches e (.generic kind [x])) (hk : kind.isSequence = true) :
    Reaches e x := by
  generalize hu : TypeExpr.generic kind [x] = u at h
  induction h with
  | here h =>
    subst hu
    exact .element h hk (.here rfl)
  | element hx hk' _ ih => exact .element hx hk' (ih hu)

/-- Below a type around another one a reachable type is that type, or is reachable from inside. -/
theorem Reaches.cases_generic {k : GenericKind} (h : Reaches (.generic k [e']) u) :
    u.bare = .generic k [e'] ∨ Reaches e' u := by
  cases h with
  | here h => exact .inl h.symm
  | element hx hk h =>
    cases hx
    exact .inr h

theorem Peels.bare_eq (h : e.present = e'.present) : e.bare = e'.bare := by rw [bare, bare, h]

/-- Taking a layer off a hint and off a sequence. -/
theorem Tracks.element (h : Tracks e (.generic kind [x])) (hk : kind.isSequence = true)
    (hp : Peels e e') : Tracks e' x := by
  rcases h with h | ⟨k, hx⟩
  · cases hp with
    | same hp => exact .inl ((h.of_bare (Peels.bare_eq hp)).to_element hk)
    | element =>
      rcases h.cases_generic with hx | h
      · cases hx
        exact .inl (.here rfl)
      · exact .inl (h.to_element hk)
  · cases hx
    cases hp with
    | same hp => exact .inl (.here (Peels.bare_eq hp).symm)
    | element => exact .inr ⟨_, rfl⟩

/-- Taking a layer off a hint and absence off a type. -/
theorem Tracks.bare (h : Tracks e u) (hn : u.Normal) (hu : u.members.any isNone = true)
    (hp : Peels e e') : Tracks e' u.bare := by
  rcases h with h | ⟨k, rfl⟩
  · cases hp with
    | same hp => exact .inl ((h.of_bare (Peels.bare_eq hp)).to_bare (bare_bare hn).symm)
    | element =>
      rcases h.cases_generic with hx | h
      · exact .inr ⟨_, hx⟩
      · exact .inl (h.to_bare (bare_bare hn).symm)
  · cases hu

end TypeExpr

/-! ## Hints as written -/

open TypeExpr

variable {ns : Namespace} {raw : Option Hint} {origin : Option Origin} {u u' : TypeExpr}

/-- The hint at a place of a type, if there is one, evaluates to a type that tracks the place.  A hint
with a comma may be anything, as it never names a union. -/
def Hint.Tells (ns : Namespace) (raw : Option Hint) (u : TypeExpr) : Prop :=
  ∀ hint, raw = some hint → hint.HasComma ∨ ∃ e, ns.eval hint = .ok e ∧ Tracks e u

theorem Hint.Tells.unwrap (h : Hint.Tells ns raw u)
    (hstep : ∀ e e', Tracks e u → Peels e e' → Tracks e' u') :
    Hint.Tells ns (Hint.unwrap? raw) u' := by
  intro inner hinner
  obtain ⟨hint, hraw, hunwrap⟩ := Option.bind_eq_some_iff.1 hinner
  have hunwrap := ok_of_toOption hunwrap
  by_cases hc : hint.HasComma
  · exact .inl (Hint.hasComma_of_unwrap hc hunwrap)
  · obtain ⟨e, he, htracks⟩ := (h hint hraw).resolve_left hc
    obtain ⟨e', he', hpeels⟩ := Hint.peels_of_unwrap hc he hunwrap
    exact .inr ⟨e', he', hstep e e' htracks hpeels⟩

/-- An identifier that a text is, perhaps in quotes, evaluates to what the text does. -/
theorem Namespace.eval_of_isIdentifier {source : String} {e : TypeExpr}
    (he : ns.eval (.text source) = .ok e)
    (hid : isIdentifier (Text.unquote source.toList) = true) :
    ns.eval (.text (String.ofList (Text.unquote source.toList))) = .ok e := by
  rw [eval_eq] at he
  obtain ⟨term, hterm, he⟩ := evalSource_iff.1 he
  rcases HintTerm.term_of_isIdentifier hterm hid with ⟨name, rfl, hname⟩ | ⟨text, rfl, htext⟩
  · have hparse := HintTerm.parse_of_isIdentifier hid
    rw [hname, String.ofList_toList] at hparse ⊢
    rw [eval_eq]
    exact evalSource_iff.2 ⟨_, hparse, he⟩
  · rw [htext, String.ofList_toList]
    exact eval_of_evalWith 1 (.text text) he

namespace ResolvedHint

/-! ## Places in resolved hints -/

/-- What stands directly below a list, an absence or an alias. -/
inductive Inner : ResolvedHint → ResolvedHint → Prop
  | list {head : ResolvedHead} {element : ResolvedHint} : Inner (.list head element) element
  | optional {head : ResolvedHead} {inner : ResolvedHint} : Inner (.optional head inner) inner
  | aliasOf {head : ResolvedHead} {base : ResolvedHint} : Inner (.aliasOf head base) base

/-- What stands below any number of lists, absences and aliases. -/
abbrev Inside : ResolvedHint → ResolvedHint → Prop := ReflTransGen Inner

variable {ann a inner : ResolvedHint} {head head' : ResolvedHead}
  {members members' : List ResolvedHint} {name : String}

theorem Inside.cases (h : Inside ann a) : ann = a ∨ ∃ inner, Inner ann inner ∧ Inside inner a := by
  rcases ReflTransGen.cases_head h with rfl | ⟨inner, hi, h⟩
  · exact .inl rfl
  · exact .inr ⟨inner, hi, h⟩

theorem Inner.unique {b c : ResolvedHint} (hb : Inner a b) (hc : Inner a c) : b = c := by
  cases hb <;> cases hc <;> rfl

theorem Inside.eq_of_union (h : Inside (.union head members) a) : a = .union head members := by
  rcases h.cases with rfl | ⟨inner, hi, -⟩
  · rfl
  · cases hi

theorem Inside.of_inner (h : Inside ann (.union head members)) (hi : Inner ann inner) :
    Inside inner (.union head members) := by
  rcases h.cases with rfl | ⟨inner', hi', h⟩
  · cases hi
  · exact hi.unique hi' ▸ h

/-- There is no hint as written, or it tells the type, which is normal. -/
def Placed (ns : Namespace) (raw : Option Hint) (u : TypeExpr) : Prop :=
  raw = none ∨ u.Normal ∧ Hint.Tells ns raw u

theorem Placed.element {kind : GenericKind} {x : TypeExpr} (h : Placed ns raw (.generic kind [x]))
    (hk : kind.isSequence = true) : Placed ns (Hint.unwrap? raw) x := by
  rcases h with rfl | ⟨hn, h⟩
  · exact .inl rfl
  · exact .inr ⟨hn.1, h.unwrap fun _ _ ht hp => ht.element hk hp⟩

theorem Placed.bare (h : Placed ns raw u) (hu : u.members.any TypeExpr.isNone = true) :
    Placed ns (Hint.unwrap? raw) u.bare := by
  rcases h with rfl | ⟨hn, h⟩
  · exact .inl rfl
  · exact .inr ⟨hn.bare, h.unwrap fun _ _ ht hp => ht.bare hn hu hp⟩

/-- Every union inside a resolved hint has two members or more, no absence among them, and is at a
place that its hint as written tells. -/
theorem placed_of_inside : ∀ {u : TypeExpr} {raw : Option Hint} {ann : ResolvedHint},
    ofExpr raw origin u = .ok ann → Placed ns raw u → Inside ann (.union head members) →
      ∃ es, head.resolved = .union es ∧ 2 ≤ es.length ∧ es.any TypeExpr.isNone = false ∧
        Placed ns head.raw (.union es)
  | .cls _, raw, ann, h, _, hi | .noneType, raw, ann, h, _, hi => by
    cases h
    rcases hi.cases with h | ⟨_, h, -⟩ <;> cases h
  | .forward _, _, _, h, _, _ => by cases h
  | .aliasOf id name supertype, raw, ann, h, _, hi => by
    rw [ofExpr] at h
    obtain ⟨base, hbase, h⟩ := ok_of_bind h
    cases h
    have hi := hi.of_inner .aliasOf
    refine placed_of_inside hbase (.inl rfl) ?_
    split_ifs at hi
    · cases base with
      | aliasOf => exact .head .aliasOf hi
      | _ => exact hi
    · exact hi
  | .generic kind [x], raw, ann, h, hp, hi => by
    rw [ofExpr] at h
    split_ifs at h with hk
    obtain ⟨inner, hinner, h⟩ := ok_of_bind h
    cases h
    exact placed_of_inside hinner (hp.element hk) (hi.of_inner .list)
  | .generic kind [], raw, ann, h, _, _ => by
    rw [ofExpr] at h
    split_ifs at h
  | .generic kind (_ :: _ :: _), raw, ann, h, _, _ => by
    rw [ofExpr] at h
    · split_ifs at h
    all_goals simp
  | .union es, raw, ann, h, hp, hi => by
    have hbare : es.any TypeExpr.isNone = true →
        Placed ns (Hint.unwrap? raw) (TypeExpr.collapse (es.filter (!·.isNone))) := hp.bare
    match hpresent : es.filter (!·.isNone) with
    | [] =>
      rw [ofExpr, hpresent] at h
      cases h
    | [only] =>
      have hlt : sizeOf only < sizeOf es := List.sizeOf_lt_of_mem (mem_of_present hpresent).1
      rw [ofExpr_union_one hpresent] at h
      obtain ⟨inner, hinner, rfl⟩ := ok_of_map h
      rw [hpresent] at hbare
      by_cases hany : es.any TypeExpr.isNone = true
      · rw [if_pos hany] at hi
        exact placed_of_inside hinner (hbare hany) (hi.of_inner .optional)
      · rw [if_neg hany] at hi
        refine placed_of_inside hinner ?_ hi
        -- a normal union has more members than one
        rcases hp with rfl | ⟨hn, -⟩
        · exact .inl rfl
        · rw [filter_eq_self_of_any (by simpa using hany)] at hpresent
          subst hpresent
          exact absurd rfl hn.2.2.2
    | first :: second :: rest =>
      rw [ofExpr_union_many (by simp [hpresent])] at h
      obtain ⟨inners, hinners, rfl⟩ := ok_of_map h
      refine ⟨es.filter (!·.isNone), ?_, by simp [hpresent], any_isNone_filter es, ?_⟩ <;>
        by_cases hany : es.any TypeExpr.isNone = true
      · rw [if_pos hany] at hi
        cases (hi.of_inner .optional).eq_of_union
        rfl
      · rw [if_neg hany] at hi
        cases hi.eq_of_union
        rfl
      · rw [if_pos hany] at hi
        cases (hi.of_inner .optional).eq_of_union
        rw [hpresent] at hbare ⊢
        exact hbare hany
      · rw [if_neg hany] at hi
        cases hi.eq_of_union
        rwa [filter_eq_self_of_any (by simpa using hany)]
termination_by u => sizeOf u
decreasing_by
  all_goals simp_wf
  all_goals omega

/-- The name of a union inside the resolved hint of a hint as written denotes a type that leads to
the union. -/
theorem reaches_of_unionName {u : TypeExpr} (h : ofExpr raw origin u = .ok ann)
    (hp : Placed ns raw u) (hi : Inside ann (.union head members))
    (hname : unionName (.union head members) = .ok name) :
    ∃ e es, ns.eval (.text name) = .ok e ∧ head.resolved = .union es ∧ 2 ≤ es.length ∧
      es.any TypeExpr.isNone = false ∧ TypeExpr.Reaches e (.union es) := by
  obtain ⟨source, hraw, hid, rfl⟩ := unionName_iff.1 hname
  replace hraw : head.raw = some (.text source) := hraw
  obtain ⟨es, hres, hlen, hnone, hplaced⟩ := placed_of_inside h hp hi
  rw [hraw] at hplaced
  obtain ⟨-, htells⟩ := hplaced.resolve_left (by simp)
  rcases htells _ rfl with hc | ⟨e, he, htracks | ⟨kind, hkind⟩⟩
  · exact absurd (HintTerm.comma_mem_unquote hc) (HintTerm.comma_not_mem_of_isIdentifier hid)
  · exact ⟨e, es, Namespace.eval_of_isIdentifier he hid, hres, hlen, hnone, htracks⟩
  · cases hkind

end ResolvedHint

/-! ## Hints of declarations -/

namespace ResolvedHint

/-- The hint of a declaration tells the type it evaluates to. -/
theorem placed_of_eval {hint : Hint} {e : TypeExpr} (he : ns.eval hint = .ok e) :
    Placed ns (some hint) e := by
  refine .inr ⟨Namespace.normal_of_eval he, fun _ hraw => ?_⟩
  cases hraw
  exact .inr ⟨e, he, .inl (.here rfl)⟩

theorem placed_optional_of_eval {hint : Hint} {e : TypeExpr} (he : ns.eval hint = .ok e) :
    Placed ns (some hint) e.optional := by
  have hn := Namespace.normal_of_eval he
  refine .inr ⟨(TypeExpr.normal_unionOf ?_), fun _ hraw => ?_⟩
  · simpa using ⟨hn, trivial⟩
  · cases hraw
    refine .inr ⟨e, he, .inl (.here ?_)⟩
    rw [TypeExpr.bare, TypeExpr.bare, TypeExpr.present_optional hn]

end ResolvedHint

end HintSchema
