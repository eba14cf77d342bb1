import Mathlib
import HintSchema.Proofs.Unnamed
import HintSchema.Proofs.Naming

/-!
# Named unions inside wrappers

A name that stands for a union may be wrapped in absences and sequences to any depth, in a text, in
quotes inside of a text, or in a type around a text (`Hint.Nests`).  One wrapper at a time is taken
off the hint, off the type the hint evaluates to and off the resolved hint
(`Hint.Nests.exists_unwrap`), so the resolved hint has the same wrappers around one union, and the
union goes by the name (`ofHint_nests`).
-/

namespace HintSchema

open Namespace TypeExpr

/-! ## Wrappers -/

/-- What stands around a hint. -/
inductive Wrapper
  | optional
  | sequence (kind : GenericKind) (isSequence : kind.isSequence = true)

namespace Wrapper

/-- The head of the subscript that a wrapper is in a text. -/
def head : Wrapper → SubscriptHead
  | .optional => .optional
  | .sequence kind _ => .generic kind

/-- A type in a wrapper. -/
def around : Wrapper → TypeExpr → TypeExpr
  | .optional, e => .optional e
  | .sequence kind _, e => .generic kind [e]

/-- Two wrappers of which at most one is an absence. -/
def Apart : Wrapper → Wrapper → Prop
  | .optional, .optional => False
  | _, _ => True

end Wrapper

/-- A term that is a name in wrappers, the outermost one first; each wrapper may have what it is
around in quotes. -/
inductive HintTerm.Nests (name : String) : List Wrapper → HintTerm → Prop
  | name : Nests name [] (.name name)
  | bare {w : Wrapper} {ws : List Wrapper} {head : String} {arg : HintTerm} :
      SubscriptHead.ofName? (lastSegment head) = some w.head → Nests name ws arg →
      Nests name (w :: ws) (.subscript head [arg])
  | quoted {w : Wrapper} {ws : List Wrapper} {head source : String} {arg : HintTerm} :
      SubscriptHead.ofName? (lastSegment head) = some w.head → parse source = .ok arg →
      Nests name ws arg → Nests name (w :: ws) (.subscript head [.quoted source])

/-- A hint that is a name in wrappers: a text of such a term or of the name in quotes, or a type with
wrappers around a reference by such a text. -/
inductive Hint.Nests (name : String) : List Wrapper → Hint → Prop
  | text {ws : List Wrapper} {source : String} {term : HintTerm} :
      HintTerm.parse source = .ok term → term.Nests name ws → Nests name ws (.text source)
  | quoted {source : String} :
      HintTerm.parse source = .ok (.quoted name) → Nests name [] (.text source)
  | type {w : Wrapper} {ws : List Wrapper} {type : TypeExpr} :
      Nests name ws (.ofExpr type) → Nests name (w :: ws) (.expr (w.around type))

/-- A name that stands for a union of several members, none of them absence. -/
structure Namespace.NamesUnion (ns : Namespace) (name : String) (ms : List TypeExpr) : Prop where
  isIdentifier : isIdentifier name.toList = true
  bound : ∃ hint, ns.get? name = some hint ∧ ns.eval hint = .ok (.union ms)
  several : 2 ≤ ms.length
  present : ∀ m ∈ ms, m.isNone = false

/-- Wrappers around a part of a resolved hint, the outermost one first. -/
inductive ResolvedHint.InWrappers (part : ResolvedHint) : List Wrapper → ResolvedHint → Prop
  | part : InWrappers part [] part
  | optional {ws : List Wrapper} {head : ResolvedHead} {inner : ResolvedHint} :
      InWrappers part ws inner → InWrappers part (.optional :: ws) (.optional head inner)
  | sequence {ws : List Wrapper} {head : ResolvedHead} {element : ResolvedHint} {kind : GenericKind}
      {isSequence : kind.isSequence = true} :
      InWrappers part ws element →
      InWrappers part (.sequence kind isSequence :: ws) (.list head element)

variable {ns : Namespace} {name source : String} {hint bound : Hint} {w : Wrapper}
  {ws : List Wrapper} {arg : HintTerm} {e type : TypeExpr} {ms : List TypeExpr}

/-! ## Types in wrappers -/

/-- What stands directly below an absence is a sequence, unless it is the name. -/
theorem Wrapper.not_optional_around (h : Wrapper.Apart .optional w) (e : TypeExpr) :
    (w.around e).isUnion = false ∧ (w.around e).isNone = false := by
  cases w with
  | optional => exact h.elim
  | sequence => exact ⟨rfl, rfl⟩

/-- A type without absence, made optional. -/
theorem TypeExpr.optional_eq (hne : e.members ≠ []) (hnodup : (e.members.map key).Nodup)
    (hnone : e.members.any isNone = false) : e.optional = .union (e.members ++ [.noneType]) := by
  have hkey : TypeKey.noneType ∉ e.members.map key := by
    rw [List.mem_map]
    rintro ⟨m, hm, hk⟩
    rw [key_eq_noneType_iff.1 hk] at hm
    exact List.any_eq_false.1 hnone _ hm rfl
  have hdistinct : distinct [] (e.members ++ [.noneType]) = e.members ++ [.noneType] := by
    refine distinct_eq_self ?_ (by simp)
    rw [List.map_append, List.nodup_append]
    refine ⟨hnodup, by simp, fun k hk l hl => ?_⟩
    obtain rfl : l = .noneType := by simpa [key] using hl
    exact fun hkl => hkey (hkl ▸ hk)
  show collapse (distinct [] (e.members ++ [.noneType])) = _
  rw [hdistinct]
  rcases hms : e.members with _ | ⟨_, _ | _⟩
  · exact absurd hms hne
  · rfl
  · rfl

namespace Hint

/-- What may stand below an absence is neither a union nor absence itself. -/
theorem Nests.not_optional (h : Nests name ws (.ofExpr type))
    (hws : (Wrapper.optional :: ws).IsChain Wrapper.Apart) :
    type.isUnion = false ∧ type.isNone = false := by
  generalize hh : Hint.ofExpr type = hint at h
  cases h with
  | text | quoted =>
    cases type with
    | forward => exact ⟨rfl, rfl⟩
    | _ => cases hh
  | @type w _ inner =>
    have htype : type = w.around inner := by
      cases type with
      | forward => cases hh
      | _ => exact Hint.expr.inj hh
    exact htype ▸ Wrapper.not_optional_around (List.isChain_cons_cons.1 hws).1 inner

theorem unwrap_around (h : w = .optional → type.isUnion = false ∧ type.isNone = false) :
    (Hint.expr (w.around type)).unwrap = .ok (.ofExpr type) := by
  cases w with
  | sequence => rfl
  | optional =>
    obtain ⟨hunion, hnone⟩ := h rfl
    have hfilter : [type, .noneType].filter (!·.isNone) = [type] := by
      rw [List.filter_cons_of_pos (by simp [hnone])]
      rfl
    rw [Wrapper.around, optional_of_not_union hunion hnone, unwrap, hfilter]

theorem eval_around (h : w = .optional → type.isUnion = false ∧ type.isNone = false)
    (he : evalExpr ns.binding 0 (w.around type) = .ok e) :
    ∃ e', evalExpr ns.binding 0 type = .ok e' ∧ e = w.around e' := by
  cases w with
  | sequence =>
    rw [Wrapper.around, evalExpr, evalExprs, evalExprs] at he
    obtain ⟨types, htypes, he⟩ := ok_of_bind he
    obtain ⟨e', he', htypes⟩ := ok_of_bind htypes
    cases htypes
    cases he
    exact ⟨e', he', rfl⟩
  | optional =>
    obtain ⟨hunion, hnone⟩ := h rfl
    rw [Wrapper.around, optional_of_not_union hunion hnone, evalExpr, evalExprs] at he
    obtain ⟨types, htypes, he⟩ := ok_of_bind he
    obtain ⟨e', he', htypes⟩ := ok_of_bind htypes
    cases htypes
    cases he
    exact ⟨e', he', rfl⟩

theorem eval_subscript {lookup : String → Option (Except SchemaError TypeExpr)}
    {quoted : String → Except SchemaError TypeExpr} {head : String}
    (hhead : SubscriptHead.ofName? (lastSegment head) = some w.head)
    (he : (HintTerm.subscript head [arg]).eval lookup quoted = .ok e) :
    ∃ e', arg.eval lookup quoted = .ok e' ∧ e = w.around e' := by
  rw [HintTerm.eval, HintTerm.evalAll, HintTerm.evalAll] at he
  obtain ⟨types, htypes, he⟩ := ok_of_bind he
  obtain ⟨e', he', htypes⟩ := ok_of_bind htypes
  cases htypes
  rw [HintTerm.evalSubscript, hhead] at he
  refine ⟨e', he', ?_⟩
  cases w <;> exact (Except.ok.inj he).symm

/-! ## One wrapper -/

/-- The outermost wrapper is taken off a hint and off its type at once. -/
theorem Nests.exists_unwrap (h : Nests name (w :: ws) hint) (hws : (w :: ws).IsChain Wrapper.Apart)
    (he : ns.eval hint = .ok e) :
    ∃ inner e', hint.unwrap = .ok inner ∧ Nests name ws inner ∧ ns.eval inner = .ok e' ∧
      e = w.around e' := by
  rw [eval_eq] at he
  cases h with
  | @text _ source term hparse hterm =>
    obtain ⟨term', hparse', he⟩ := evalSource_iff.1 he
    obtain rfl := Except.ok.inj (hparse.symm.trans hparse')
    cases hterm with
    | @bare _ _ head arg hhead harg =>
      obtain ⟨inner, hinner, hwithin⟩ := HintTerm.unwrapText_of_parse hparse
      obtain ⟨e', he', rfl⟩ := eval_subscript hhead he
      have hparse : HintTerm.parse inner = .ok arg := by
        cases harg with
        | name | bare | quoted => exact hwithin
      exact ⟨.text inner, e', by rw [unwrap, hinner]; rfl, .text hparse harg,
        eval_of_within hwithin he', rfl⟩
    | @quoted _ _ head text arg hhead htext harg =>
      obtain ⟨inner, hinner, hwithin⟩ := HintTerm.unwrapText_of_parse hparse
      obtain ⟨e', he', rfl⟩ := eval_subscript hhead he
      have hinside : inner = text := hwithin
      exact ⟨.text inner, e', by rw [unwrap, hinner]; rfl, .text (hinside ▸ htext) harg,
        eval_of_within hwithin he', rfl⟩
  | @type _ _ type hinner =>
    have htype : w = .optional → type.isUnion = false ∧ type.isNone = false := by
      rintro rfl
      exact hinner.not_optional hws
    obtain ⟨e', he', rfl⟩ := eval_around htype he
    exact ⟨.ofExpr type, e', unwrap_around htype, hinner, eval_ofExpr he', rfl⟩

/-! ## The name itself -/

/-- A name without wrappers is a text that is the name behind its quotes. -/
theorem Nests.exists_source (h : Nests name [] hint) :
    ∃ source, hint = .text source ∧ Text.unquote source.toList = name.toList := by
  cases h with
  | @text _ source _ hparse hterm =>
    cases hterm
    exact ⟨source, rfl, HintTerm.unquote_of_name (HintTerm.parse_iff.1 hparse)⟩
  | @quoted source hparse =>
    exact ⟨source, rfl, HintTerm.unquote_of_quoted (HintTerm.parse_iff.1 hparse)⟩

/-- A name evaluates to what the hint evaluates to that it is bound to. -/
theorem Nests.eval_bound (h : Nests name [] hint) (hid : isIdentifier name.toList = true)
    (hbound : ns.get? name = some bound) (he : ns.eval hint = .ok e) : ns.eval bound = .ok e := by
  obtain ⟨source, rfl, hsource⟩ := h.exists_source
  have heval := eval_of_isIdentifier he (hsource ▸ hid)
  rw [hsource, String.ofList_toList, eval_eq] at heval
  obtain ⟨term, hterm, heval⟩ := evalSource_iff.1 heval
  have hname := HintTerm.parse_of_isIdentifier hid
  rw [String.ofList_toList, hterm] at hname
  obtain rfl := Except.ok.inj hname
  rw [HintTerm.eval, binding, bindingAt, hbound] at heval
  exact evalHint_mono (Nat.le_succ _) (Nat.zero_le _) heval

/-- A union that was written as a name goes by it. -/
theorem Nests.unionName {head : ResolvedHead} {members : List ResolvedHint} (h : Nests name [] hint)
    (hid : isIdentifier name.toList = true) (hraw : head.raw = some hint) :
    HintSchema.unionName (.union head members) = .ok name := by
  obtain ⟨source, rfl, hsource⟩ := h.exists_source
  exact unionName_iff.2 ⟨source, hraw, hsource ▸ hid, by rw [hsource, String.ofList_toList]⟩

end Hint

namespace ResolvedHint

/-! ## Types that resolve -/

variable {raw raw' : Option Hint} {origin origin' : Option Origin} {ann : ResolvedHint}

theorem exists_ofMembers_of_forall (raws : List (Option Hint)) (origin : Option Origin)
    (h : ∀ m ∈ ms, ∃ ann, ofExpr none none m = .ok ann) :
    ∃ members, ofMembers raws origin ms = .ok members := by
  induction ms generalizing raws with
  | nil => exact ⟨[], rfl⟩
  | cons m rest ih =>
    obtain ⟨members, hmembers⟩ := ih raws fun m hm => h m (List.mem_cons_of_mem _ hm)
    obtain ⟨members', hmembers'⟩ := ih raws.tail fun m hm => h m (List.mem_cons_of_mem _ hm)
    obtain ⟨ann, hann⟩ := h m List.mem_cons_self
    obtain ⟨ann', hann'⟩ := exists_ofExpr raws.head?.join origin hann
    unfold ofMembers
    split_ifs
    · exact ⟨members, hmembers⟩
    · rw [hann', hmembers']
      exact ⟨_, rfl⟩

/-! ## Wrappers around a union -/

/-- The union of a name, as a resolved hint has it. -/
structure IsUnionNamed (ms : List TypeExpr) (name : String) (ann : ResolvedHint) : Prop where
  isUnion : ∃ head members, ann = .union head members
  resolved : ann.head.resolved = .union ms
  named : unionName ann = .ok name

section Union

variable (hname : ns.NamesUnion name ms) (hms : ∀ m ∈ ms, ∃ ann, ofExpr none none m = .ok ann)

include hname in
theorem NamesUnion.any_isNone : ms.any isNone = false :=
  List.any_eq_false.2 fun m hm => by simp [hname.present m hm]

include hname in
theorem NamesUnion.eq_of_eval (h : Hint.Nests name [] hint) (he : ns.eval hint = .ok e) :
    e = .union ms := by
  obtain ⟨bound, hbound, hms⟩ := hname.bound
  exact Except.ok.inj ((h.eval_bound hname.isIdentifier hbound he).symm.trans hms)

include hname hms

/-- The resolved hint of a union that was written as its name. -/
theorem ofExpr_union_named (h : Hint.Nests name [] hint) (origin : Option Origin) :
    ∃ u, ofExpr (some hint) origin (.union ms) = .ok u ∧ IsUnionNamed ms name u := by
  have hnone := NamesUnion.any_isNone hname
  have hpresent := filter_eq_self_of_any hnone
  obtain ⟨members, hmembers⟩ := exists_ofMembers_of_forall
    (rawsOfMembers (some hint) ms.length) origin hms
  refine ⟨.union ⟨some hint, .union ms, origin⟩ members, ?_, ⟨_, _, rfl⟩, rfl,
    h.unionName hname.isIdentifier rfl⟩
  rw [ofExpr_union_many (hpresent.symm ▸ hname.several), hpresent, hmembers, hnone]
  rfl

/-- The resolved hint of such a union made optional. -/
theorem ofExpr_optional_named {inner : Hint} (hinner : hint.unwrap = .ok inner)
    (h : Hint.Nests name [] inner) (origin : Option Origin) :
    ∃ head u, ofExpr (some hint) origin (TypeExpr.optional (.union ms)) = .ok (.optional head u) ∧
      IsUnionNamed ms name u := by
  have hnone := NamesUnion.any_isNone hname
  have hpresent : (ms ++ [TypeExpr.noneType]).filter (!·.isNone) = ms := by
    rw [List.filter_append, filter_eq_self_of_any hnone]
    exact List.append_nil ms
  have hoptional : TypeExpr.optional (.union ms) = .union (ms ++ [.noneType]) := by
    obtain ⟨bound, -, he⟩ := hname.bound
    refine optional_eq (fun hnil => ?_) (normal_of_eval he).nodup_members hnone
    rw [show ms = [] from hnil] at hname
    exact absurd hname.several (by simp)
  obtain ⟨members, hmembers⟩ := exists_ofMembers_of_forall
    (rawsOfMembers (some hint) ms.length) origin hms
  have hraw : Hint.unwrap? (some hint) = some inner := by
    rw [Hint.unwrap?, Option.bind_some, hinner]
    rfl
  refine ⟨⟨some hint, .union (ms ++ [.noneType]), origin⟩,
    .union ⟨some inner, .union ms, origin⟩ members, ?_, ⟨_, _, rfl⟩, rfl,
    h.unionName hname.isIdentifier rfl⟩
  rw [hoptional, ofExpr_union_many (hpresent.symm ▸ hname.several), hpresent, ← ofMembers_filter,
    hpresent, hmembers, hraw, List.any_append, hnone]
  rfl

end Union

/-- The resolved hint of any other type made optional. -/
theorem ofExpr_optional {inner : ResolvedHint} (hunion : e.isUnion = false)
    (hnone : e.isNone = false) (h : ofExpr (Hint.unwrap? raw) origin e = .ok inner) :
    ∃ head, ofExpr raw origin e.optional = .ok (.optional head inner) := by
  have hpresent : [e, .noneType].filter (!·.isNone) = [e] := by
    rw [List.filter_cons_of_pos (by simp [hnone])]
    rfl
  refine ⟨⟨raw, .union [e, .noneType], origin⟩, ?_⟩
  rw [optional_of_not_union hunion hnone, ofExpr_union_one hpresent, h]
  simp [Except.map, isNone]

theorem ofExpr_sequence {kind : GenericKind} {inner : ResolvedHint} (hk : kind.isSequence = true)
    (h : ofExpr (Hint.unwrap? raw) origin e = .ok inner) :
    ∃ head, ofExpr raw origin (.generic kind [e]) = .ok (.list head inner) := by
  refine ⟨⟨raw, .generic kind [e], origin⟩, ?_⟩
  rw [ofExpr]
  simp only [hk, if_true, h]
  rfl

/-- A hint that is a name in wrappers evaluates to the union of the name in the same wrappers, and the
resolved hint of that has them around the union, which goes by the name. -/
theorem nests_of_eval (hname : ns.NamesUnion name ms)
    (hms : ∀ m ∈ ms, ∃ ann, ofExpr none none m = .ok ann) (origin : Option Origin)
    (h : Hint.Nests name ws hint) (hws : ws.IsChain Wrapper.Apart) (he : ns.eval hint = .ok e) :
    e = ws.foldr Wrapper.around (.union ms) ∧ ∃ ann u,
      ofExpr (some hint) origin e = .ok ann ∧ IsUnionNamed ms name u ∧ u.InWrappers ws ann := by
  induction ws generalizing hint e with
  | nil =>
    obtain rfl := NamesUnion.eq_of_eval hname h he
    obtain ⟨u, hu, hnamed⟩ := ofExpr_union_named hname hms h origin
    exact ⟨rfl, u, u, hu, hnamed, .part⟩
  | cons w ws ih =>
    obtain ⟨inner, e', hunwrap, hinner, he', rfl⟩ := h.exists_unwrap hws he
    obtain ⟨rfl, ann, u, hann, hnamed, hnests⟩ := ih hinner hws.tail he'
    have hraw : Hint.unwrap? (some hint) = some inner := by
      rw [Hint.unwrap?, Option.bind_some, hunwrap]
      rfl
    refine ⟨rfl, ?_⟩
    cases w with
    | sequence kind hk =>
      obtain ⟨head, hlist⟩ := ofExpr_sequence hk (hraw ▸ hann)
      exact ⟨_, u, hlist, hnamed, .sequence hnests⟩
    | optional =>
      -- absence around the union becomes one more member of it, around a sequence a union of its own
      cases ws with
      | nil =>
        obtain ⟨head, u, hu, hnamed⟩ := ofExpr_optional_named hname hms hunwrap hinner origin
        exact ⟨_, u, hu, hnamed, .optional .part⟩
      | cons w ws =>
        obtain ⟨hunion, hnone⟩ := Wrapper.not_optional_around
          (List.isChain_cons_cons.1 hws).1 (ws.foldr Wrapper.around (.union ms))
        obtain ⟨head, hoptional⟩ := ofExpr_optional hunion hnone (hraw ▸ hann)
        exact ⟨_, u, hoptional, hnamed, .optional hnests⟩

end ResolvedHint

/-- A name of a union in wrappers, no absence directly around another one, resolves to the same
wrappers around the union, which goes by the name; only the members of the union must resolve. -/
theorem ofHint_nests (hname : ns.NamesUnion name ms)
    (hms : ∀ m ∈ ms, ∃ ann, ResolvedHint.ofExpr none none m = .ok ann)
    (h : hint.Nests name ws) (hws : ws.IsChain Wrapper.Apart) (he : ns.eval hint = .ok e)
    (origin : Origin) :
    ∃ ann u : ResolvedHint, ResolvedHint.ofHint ns hint origin = .ok ann ∧ u.IsUnionNamed ms name ∧
      u.InWrappers ws ann := by
  obtain ⟨-, ann, u, hann, hnamed, hnests⟩ :=
    ResolvedHint.nests_of_eval hname hms (some origin) h hws he
  refine ⟨ann, u, ?_, hnamed, hnests⟩
  rw [ResolvedHint.ofHint, he]
  exact hann

namespace Sample

theorem namesUnion_pet : townNames.NamesUnion "Pet" [.cls cat, .cls dog] where
  isIdentifier := by decide
  bound := ⟨.text "Union[Cat, Dog]", by cbv, by cbv⟩
  several := by decide
  present := by simp [isNone]

/-- Lists of optional pets, with the pets in quotes inside of a text. -/
theorem ofHint_nests_pets :
    ∃ ann u : ResolvedHint,
      ResolvedHint.ofHint townNames (.expr (.listOf (.forward "typing.Optional[ 'Pet' ]")))
        ⟨"Town", "pets"⟩ = .ok ann ∧ u.IsUnionNamed [.cls cat, .cls dog] "Pet" ∧
      u.InWrappers [.sequence .list rfl, .optional] ann := by
  have hterm : HintTerm.Nests "Pet" [.optional] (.subscript "typing.Optional" [.quoted "Pet"]) :=
    .quoted (by cbv) (by cbv) .name
  have hinner : Hint.Nests "Pet" [.optional] (.ofExpr (.forward "typing.Optional[ 'Pet' ]")) :=
    .text (by cbv) hterm
  have heval : townNames.eval (.expr (.listOf (.forward "typing.Optional[ 'Pet' ]"))) =
      .ok (.listOf (.union [.cls cat, .cls dog, .noneType])) := by cbv
  have hchain : List.IsChain Wrapper.Apart [.sequence .list rfl, .optional] := by
    simp [Wrapper.Apart]
  have hmembers : ∀ m ∈ [TypeExpr.cls cat, .cls dog],
      ∃ ann, ResolvedHint.ofExpr none none m = .ok ann := by
    simp [ResolvedHint.ofExpr]
  have htype : Hint.Nests "Pet" [.sequence .list rfl, .optional]
      (.expr (Wrapper.around (.sequence .list rfl) (.forward "typing.Optional[ 'Pet' ]"))) :=
    .type hinner
  exact ofHint_nests namesUnion_pet hmembers htype hchain heval ⟨"Town", "pets"⟩

/-- The name of a union with a member that does not resolve does not resolve either. -/
theorem stray_not_resolved :
    ¬ ∀ (name : String) (ms : List TypeExpr) (hint : Hint) (ws : List Wrapper) (e : TypeExpr)
      (origin : Origin), townNames.NamesUnion name ms → hint.Nests name ws →
        ws.IsChain Wrapper.Apart → townNames.eval hint = .ok e →
        ∃ ann u : ResolvedHint, ResolvedHint.ofHint townNames hint origin = .ok ann ∧
          u.IsUnionNamed ms name ∧ u.InWrappers ws ann := by
  intro hall
  have heval : townNames.eval (.text "Stray") =
      .ok (.union [.cls cat, .generic (.other "Dict") [.cls .str, .cls .int]]) := by cbv
  have hname : townNames.NamesUnion "Stray"
      [.cls cat, .generic (.other "Dict") [.cls .str, .cls .int]] :=
    ⟨by decide, ⟨.text "Union[Cat, Dict[str, int]]", by cbv, by cbv⟩, by decide,
      by simp [isNone]⟩
  obtain ⟨ann, -, hann, -⟩ := hall "Stray" _ (.text "Stray") [] _ ⟨"Town", "strays"⟩ hname
    (.text (by cbv) .name) List.isChain_nil heval
  rw [ResolvedHint.ofHint, heval] at hann
  cases hann

end Sample

end HintSchema
