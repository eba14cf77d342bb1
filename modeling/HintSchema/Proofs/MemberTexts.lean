import HintSchema.Proofs.Peeling
import HintSchema.Proofs.Splitting

/-!
# The texts of the members of a union

The text of a union is taken apart by characters alone.  Where it is taken apart rightly, the parts
evaluate to the types that the union is built of (`Hint.BuildAs`).  It can go wrong in one way only:
when the first argument and the last one are both in quotes, the quotes that are dropped are not of
one argument.  What remains has a quote, and behind further brackets a closing bracket, that nothing
opens (`HintTerm.Stray`), and so has one of the parts it is split into, which therefore evaluates to
nothing (`Stray.textsWithin`, `Hint.buildAs_memberHints`).
-/

namespace HintSchema

open Text

namespace HintTerm

open Namespace TypeExpr

variable {ns : Namespace} {cs body front behind inside : List Char} {term arg : HintTerm}
  {args : List HintTerm} {source head : String} {parts : List (List Char)} {c : Char} {fuel : Nat}
  {e : TypeExpr} {types : List TypeExpr}

/-! ## Terms that evaluate -/

/-- A term that evaluates to a type. -/
def Evaluable (ns : Namespace) (term : HintTerm) : Prop :=
  ∃ e, term.eval (ns.binding 0) (evalSource ns.binding 1) = .ok e

theorem Evaluable.of_quoted (h : Evaluable ns (.quoted source)) :
    ∃ term, Spelled source.toList term ∧ Evaluable ns term := by
  obtain ⟨e, he⟩ := h
  obtain ⟨term, hterm, heval⟩ := eval_text_iff.1 (eval_of_evalWith 1 (.text source) he)
  exact ⟨term, hterm, e, heval⟩

theorem forall₂_of_evalAll
    (h : evalAll (ns.binding 0) (evalSource ns.binding 1) args = .ok types) :
    List.Forall₂ (fun a e => a.eval (ns.binding 0) (evalSource ns.binding 1) = .ok e) args
      types := by
  induction args generalizing types with
  | nil =>
    cases h
    exact .nil
  | cons a rest ih =>
    rw [evalAll] at h
    obtain ⟨type, htype, h⟩ := ok_of_bind h
    obtain ⟨others, hothers, h⟩ := ok_of_bind h
    cases h
    exact .cons htype (ih hothers)

theorem evaluable_of_evalAll
    (h : evalAll (ns.binding 0) (evalSource ns.binding 1) args = .ok types) :
    ∀ a ∈ args, Evaluable ns a := by
  intro a ha
  obtain ⟨e, -, he⟩ := exists_right_of_forall₂ (forall₂_of_evalAll h) ha
  exact ⟨e, he⟩

theorem Evaluable.of_subscript (h : Evaluable ns (.subscript head args)) :
    ∀ a ∈ args, Evaluable ns a := by
  obtain ⟨e, he⟩ := h
  rw [eval] at he
  obtain ⟨types, htypes, -⟩ := ok_of_bind he
  exact evaluable_of_evalAll htypes

/-! ## Stray quotes and brackets -/

/-- A text of terms that evaluate, with a quote or a closing bracket behind them that none of them
opens. -/
def Stray (ns : Namespace) (cs : List Char) : Prop :=
  ∃ front args c behind, cs = front ++ c :: behind ∧ SpelledAll front args ∧
    (∀ a ∈ args, Evaluable ns a) ∧ (isQuote c = true ∨ c = ']')

theorem follows_of_stray (h : isQuote c = true ∨ c = ']') : Follows (c :: behind) := by
  rcases h with h | rfl
  · exact follows_quote h
  · exact follows_close

theorem SpelledAll.exists_first (h : SpelledAll cs args) : ∃ first term rest,
    cs = first ++ rest ∧ Spelled first term ∧ term ∈ args ∧
      (rest = [] ∨ ∃ more, rest = ',' :: more) := by
  cases h with
  | one h => exact ⟨cs, _, [], (List.append_nil cs).symm, h, List.mem_cons_self, .inl rfl⟩
  | more h _ => exact ⟨_, _, _, rfl, h, List.mem_cons_self, .inr ⟨_, rfl⟩⟩

/-- Behind the first term stands a comma or what is stray. -/
theorem Stray.exists_first (h : Stray ns cs) : ∃ first term c rest, cs = first ++ c :: rest ∧
    Spelled first term ∧ Evaluable ns term ∧ Follows (c :: rest) := by
  obtain ⟨front, args, c, behind, rfl, hfront, hargs, hc⟩ := h
  obtain ⟨first, term, rest, rfl, hfirst, hterm, rfl | ⟨more, rfl⟩⟩ := hfront.exists_first
  · exact ⟨first, term, c, behind, by simp, hfirst, hargs term hterm, follows_of_stray hc⟩
  · exact ⟨first, term, ',', more ++ c :: behind, by simp, hfirst, hargs term hterm, follows_comma⟩

/-- What is stray cannot be read. -/
theorem Stray.not_spelled (h : Stray ns cs) : ¬ Spelled cs term := by
  obtain ⟨first, _, c, rest, rfl, hfirst, -, hfollows⟩ := h.exists_first
  exact hfirst.not_spelled_append hfollows (List.cons_ne_nil c rest)

theorem Stray.not_eval (h : Stray ns cs) : ns.eval (.text (String.ofList cs)) ≠ .ok e := by
  intro he
  obtain ⟨term, hterm, -⟩ := eval_text_iff.1 he
  rw [String.toList_ofList] at hterm
  exact h.not_spelled hterm

theorem Stray.trim (h : Stray ns cs) : Stray ns (trim cs) := by
  obtain ⟨front, args, c, behind, rfl, hfront, hargs, hc⟩ := h
  obtain ⟨front', hfront', htrim⟩ := hfront.exists_trimLeft
  have hfollows : Follows (c :: behind) := follows_of_stray hc
  refine ⟨front', args, c, trimRight behind, ?_, hfront', hargs, hc⟩
  rw [Text.trim, htrim, trimRight_append_cons _ _ (hfollows c rfl).2.1]

/-- Quotes are dropped from a text that begins with a term only when the term is in them, and leave
the closing quote of the term behind what it refers to. -/
theorem unquote_append (h : Spelled front term) (hc : isBlank c = false) :
    unquote (front ++ c :: behind) = Text.trim (front ++ c :: behind) ∨
      ∃ inside q rest, term = .quoted (String.ofList (Text.trim inside)) ∧ isQuote q = true ∧
        unquote (front ++ c :: behind) = Text.trim (inside ++ q :: rest) := by
  have hname : ∀ {n : List Char} (rest : List Char), IsName n →
      Text.trim (front ++ c :: behind) = n ++ rest →
      unquote (front ++ c :: behind) = Text.trim (front ++ c :: behind) := by
    intro n rest hn htrim
    obtain ⟨d, chars, rfl, hd⟩ := hn.exists_cons
    rw [htrim]
    exact unquote_of_isNameStart htrim hd
  cases h with
  | @name before n after hb hn ha =>
    refine .inl (hname (after ++ c :: trimRight behind) hn ?_)
    rw [trim_append_cons hb (by rw [List.append_assoc, hn.tight.trimLeft_append]) hc,
      List.append_assoc]
  | @subscript before n gap body after _ hb hn hgap hbody ha =>
    refine .inl (hname (gap ++ '[' :: (body ++ ']' :: (after ++ c :: trimRight behind))) hn ?_)
    rw [trim_append_cons hb (by rw [List.append_assoc, hn.tight.trimLeft_append]) hc]
    simp
  | @quoted before inside after q hb hq hinside ha =>
    have htrim : Text.trim (before ++ q :: (inside ++ q :: after) ++ c :: behind) =
        q :: (inside ++ q :: (after ++ c :: trimRight behind)) := by
      rw [trim_append_cons hb (trimLeft_cons_of_not_blank (isBlank_of_isQuote hq)) hc]
      simp
    rw [unquote, htrim]
    dsimp only
    split_ifs
    · refine .inr ⟨inside, q, (after ++ c :: trimRight behind).dropLast, rfl, hq, ?_⟩
      rw [List.dropLast_append_cons, List.dropLast_cons_of_ne_nil (by simp)]
    · exact .inl rfl

/-- Nothing that is stray goes away with quotes. -/
theorem stray_of_unquote (h : Spelled front term) (he : Evaluable ns term) (hc : isBlank c = false)
    (behind : List Char) :
    unquote (front ++ c :: behind) = Text.trim (front ++ c :: behind) ∨
      Stray ns (unquote (front ++ c :: behind)) := by
  refine (unquote_append h hc).imp_right ?_
  rintro ⟨inside, q, rest, rfl, hq, hunquote⟩
  obtain ⟨term, hterm, heval⟩ := he.of_quoted
  rw [String.toList_ofList, spelled_trim_iff] at hterm
  have hstray : Stray ns (inside ++ q :: rest) :=
    ⟨inside, [term], q, rest, rfl, .one hterm, by simpa using heval, .inl hq⟩
  exact hunquote ▸ hstray.trim

theorem Stray.unquote (h : Stray ns cs) : Stray ns (unquote cs) := by
  obtain ⟨first, term, c, rest, hcs, hfirst, heval, hfollows⟩ := h.exists_first
  have hsplit := stray_of_unquote hfirst heval (hfollows c rfl).2.1 rest
  rw [← hcs] at hsplit
  exact hsplit.elim (fun htrim => htrim ▸ h.trim) id

/-- Behind brackets that are taken off, a closing bracket is left over. -/
theorem Stray.bracketed? (h : Stray ns cs) (hbody : bracketed? cs = some body) : Stray ns body := by
  obtain ⟨first, term, c, rest, rfl, hfirst, heval, hfollows⟩ := h.exists_first
  have hblank := (hfollows c rfl).2.1
  cases hfirst with
  | @name before n after hb hn ha =>
    rw [List.append_assoc, List.append_assoc,
      bracketed?_append hb hn (.append ha hfollows.nameEnds), trimLeft_append ha,
      trimLeft_cons_of_not_blank hblank] at hbody
    split at hbody
    · rename_i inside hopen
      cases hopen
      exact absurd rfl (hfollows _ rfl).2.2
    · cases hbody
  | @quoted before inside after q hb hq hinside ha =>
    rw [List.append_assoc, List.cons_append, bracketed?_quote_append hb hq] at hbody
    cases hbody
  | @subscript before n gap inner after args hb hn hgap hinner ha =>
    have hright := trimRight_append_cons (inner ++ ']' :: after) rest hblank
    have hopen : trimLeft (gap ++ '[' :: (inner ++ ']' :: after) ++ c :: rest) =
        '[' :: (inner ++ ']' :: after ++ c :: rest) := by
      rw [List.append_assoc, trimLeft_append hgap, List.cons_append,
        trimLeft_cons_of_not_blank (by decide)]
    have hends : NameEnds (gap ++ '[' :: (inner ++ ']' :: after) ++ c :: rest) := by
      rw [List.append_assoc]
      exact .append hgap (.cons (by decide))
    rw [List.append_assoc, List.append_assoc, bracketed?_append hb hn hends, hopen] at hbody
    change (if _ then some (trimRight (inner ++ ']' :: after ++ c :: rest)).dropLast else none) = _
      at hbody
    split_ifs at hbody
    cases hbody
    refine ⟨inner, args, ']', (after ++ c :: trimRight rest).dropLast, ?_, hinner,
      heval.of_subscript, .inr rfl⟩
    rw [hright, List.append_assoc, List.cons_append, List.dropLast_append_cons,
      List.dropLast_cons_of_ne_nil (by simp)]

/-- When a text is split, what is stray is in one of the parts. -/
theorem Stray.splitTopLevel (h : Stray ns cs) : ∃ p ∈ splitTopLevel cs, Stray ns p := by
  obtain ⟨front, args, c, behind, rfl, hfront, hargs, hc⟩ := h
  obtain ⟨texts, last, hspelled, hpieces⟩ := hfront.exists_pieces (c :: behind)
  have hcomma : Scan.separates {} c = false := by
    rcases hc with hq | rfl
    · exact separates_of_isQuote _ hq
    · rfl
  rw [pieces_cons hcomma] at hpieces
  obtain ⟨term, hterm, hlast⟩ :=
    exists_right_of_forall₂ hspelled (List.mem_append_right texts List.mem_cons_self)
  have hstray : Stray ns (last ++ c :: (pieces (Scan.step {} c) behind).1) :=
    ⟨last, [term], c, _, rfl, .one hlast, by simpa using hargs term hterm, hc⟩
  refine ⟨_, ?_, hstray.trim⟩
  rw [splitTopLevel_eq, hpieces]
  exact List.mem_map_of_mem (List.mem_append_right texts List.mem_cons_self)

theorem Stray.mem_partTexts {p : List Char} {pieces : List (List Char)} (h : Stray ns p)
    (hp : p ∈ pieces) : ∃ p ∈ partTexts pieces, Stray ns p := by
  have hnone : p ≠ ['N', 'o', 'n', 'e'] := by
    rintro rfl
    have hname : IsName ['N', 'o', 'n', 'e'] := isName_of_isIdentifier (by decide)
    exact h.not_spelled hname.spelled
  exact ⟨_, List.mem_map_of_mem (List.mem_filter.2 ⟨hp, by simpa using hnone⟩), h.unquote⟩

/-- Among the texts of members that a text with something stray in it is taken apart into, one has
something stray in it. -/
theorem Stray.textsWithin (h : Stray ns cs) (hparts : textsWithin fuel cs = some parts) :
    ∃ p ∈ parts, Stray ns p := by
  induction fuel using Nat.strong_induction_on generalizing cs with
  | _ fuel ih =>
    rcases textsWithin_cases hparts with rfl | ⟨fuel', body, rfl, hbody, hparts⟩
    · obtain ⟨p, hp, hstray⟩ := h.splitTopLevel
      exact hstray.mem_partTexts hp
    · exact ih fuel' (Nat.lt_succ_self fuel') (h.bracketed? hbody).unquote hparts

/-! ## Parts of a union -/

theorem present_of_evalSubscript {text : String} (hn : ∀ t ∈ types, t.Normal)
    (h : evalSubscript text head types = .ok e) (htwo : 2 ≤ e.present.length) :
    e.present = distinct [] (types.flatMap present) := by
  unfold evalSubscript at h
  split at h
  · split at h
    · rename_i inner
      cases h
      have hinner := hn inner List.mem_cons_self
      rw [present_optional hinner, List.flatMap_singleton, hinner.distinct_present]
    · cases h
  · cases h
    exact present_unionOf hn
  · cases h
    -- a sequence or another subscripted type has no members but itself
    simp [present, TypeExpr.members, isNone] at htwo
  · cases h

theorem exists_forall₂_filter {α : Type} {R : α → TypeExpr → Prop} {as : List α} (keep : α → Bool)
    (h : List.Forall₂ R as types) (hdrop : ∀ a t, R a t → keep a = false → t.present = []) :
    ∃ types', List.Forall₂ R (as.filter keep) types' ∧
      types'.flatMap present = types.flatMap present := by
  induction h with
  | nil => exact ⟨[], .nil, rfl⟩
  | @cons a t _ _ hat _ ih =>
    obtain ⟨types', hforall, hpresent⟩ := ih
    cases hkeep : keep a with
    | true =>
      refine ⟨t :: types', ?_, by rw [List.flatMap_cons, List.flatMap_cons, hpresent]⟩
      rw [List.filter_cons_of_pos hkeep]
      exact .cons hat hforall
    | false =>
      refine ⟨types', ?_, by rw [List.flatMap_cons, hdrop a t hat hkeep, hpresent]; rfl⟩
      rwa [List.filter_cons_of_neg (by simp [hkeep])]

end HintTerm

/-- Hints that evaluate to types that a type is built of, as a union of them, other than absence. -/
def Hint.BuildAs (ns : Namespace) (parts : List Hint) (e : TypeExpr) : Prop :=
  ∃ types, List.Forall₂ (fun p t => ns.eval p = .ok t) parts types ∧
    e.present = TypeExpr.distinct [] (types.flatMap TypeExpr.present)

namespace HintTerm

open Namespace TypeExpr

variable {ns : Namespace} {cs body : List Char} {arg : HintTerm} {args : List HintTerm}
  {pieces parts : List (List Char)} {fuel : Nat} {e : TypeExpr} {types : List TypeExpr}

theorem eval_unquote_of_forall₂ (h : List.Forall₂ Spelled pieces args)
    (htypes : evalAll (ns.binding 0) (evalSource ns.binding 1) args = .ok types) :
    List.Forall₂ (fun p t => ns.eval (.text (String.ofList (unquote p))) = .ok t) pieces types :=
  forall₂_of_common h.flip (forall₂_of_evalAll htypes) fun _ _ _ _ hspelled heval =>
    Hint.eval_of_within (within_unquote hspelled) heval

/-- Texts of terms without those that are `None` build what the terms do. -/
theorem buildAs_of_pieces (hnone : ns.eval (.text "None") = .ok .noneType)
    (h : List.Forall₂ (fun p t => ns.eval (.text (String.ofList (unquote p))) = .ok t) pieces types)
    (he : e.present = distinct [] (types.flatMap present)) :
    Hint.BuildAs ns ((partTexts pieces).map fun p => .text (String.ofList p)) e := by
  obtain ⟨types', hforall, hpresent⟩ :=
    exists_forall₂_filter (· != ['N', 'o', 'n', 'e']) h fun p t hp hdrop => by
      obtain rfl : p = ['N', 'o', 'n', 'e'] := by simpa using hdrop
      have ht : ns.eval (.text "None") = .ok t := hp
      cases hnone.symm.trans ht
      rfl
  refine ⟨types', ?_, hpresent ▸ he⟩
  rw [partTexts, List.map_map, List.forall₂_map_left_iff]
  exact hforall

/-- What is in the brackets around one argument evaluates to the same members. -/
theorem exists_eval_unquote (harg : Spelled body arg)
    (htypes : evalAll (ns.binding 0) (evalSource ns.binding 1) [arg] = .ok types)
    (he : e.present = distinct [] (types.flatMap present)) :
    ∃ type, ns.eval (.text (String.ofList (unquote body))) = .ok type ∧
      e.present = type.present := by
  cases forall₂_of_evalAll htypes with
  | @cons _ type _ _ htype hnil =>
    cases hnil
    have hinner := Hint.eval_of_within (within_unquote harg) htype
    refine ⟨type, hinner, ?_⟩
    rw [he, List.flatMap_singleton, (normal_of_eval hinner).distinct_present]

/-- A text that evaluates is one piece. -/
theorem length_splitTopLevel_of_eval (he : ns.eval (.text (String.ofList cs)) = .ok e) :
    (splitTopLevel cs).length = 1 := by
  obtain ⟨term, hspelled, -⟩ := eval_text_iff.1 he
  rw [String.toList_ofList] at hspelled
  exact (SpelledAll.one hspelled).splitTopLevel.length_eq

/-- A text of a union is taken apart into texts that build the union, or else something stray is
left in one of them. -/
theorem memberTexts_of_eval (hnone : ns.eval (.text "None") = .ok .noneType)
    (he : ns.eval (.text (String.ofList cs)) = .ok e) (htwo : 2 ≤ e.present.length)
    (hparts : memberTexts fuel cs = some parts) :
    Hint.BuildAs ns (parts.map fun p => .text (String.ofList p)) e ∨ ∃ p ∈ parts, Stray ns p := by
  induction fuel generalizing cs e with
  | zero => cases hparts
  | succ fuel ih =>
    obtain ⟨term, hterm, heval⟩ := eval_text_iff.1 he
    rw [String.toList_ofList] at hterm
    rw [memberTexts_succ] at hparts
    cases term with
    | name =>
      rw [bracketed?_of_name hterm] at hparts
      cases hparts
    | quoted =>
      rw [bracketed?_of_quoted hterm] at hparts
      cases hparts
    | subscript head args =>
      obtain ⟨body, hbody, hargs⟩ := bracketed?_of_subscript hterm
      rw [hbody, Option.bind_some] at hparts
      rw [eval] at heval
      obtain ⟨types, htypes, hbuilt⟩ := ok_of_bind heval
      have hsplit := hargs.trim.splitTopLevel
      have hnormal : ∀ t ∈ types, t.Normal := fun t ht => by
        obtain ⟨p, -, hp⟩ := exists_left_of_forall₂ (eval_unquote_of_forall₂ hsplit htypes) ht
        exact normal_of_eval hp
      have hpresent := present_of_evalSubscript hnormal hbuilt htwo
      cases hargs with
      | one harg =>
        obtain ⟨type, hinner, hsame⟩ := exists_eval_unquote harg htypes hpresent
        have hsingle := length_splitTopLevel_of_eval hinner
        rw [textsWithin, if_neg (by omega)] at hparts
        obtain ⟨types', hforall, hbuild⟩ | hstray := ih hinner (hsame ▸ htwo) hparts
        · exact .inl ⟨types', hforall, hsame.trans hbuild⟩
        · exact .inr hstray
      | @more first rest arg others hfirst hrest =>
        have heval := evaluable_of_evalAll htypes arg List.mem_cons_self
        have hcomma : isBlank ',' = false := by decide
        rcases stray_of_unquote hfirst heval hcomma rest with htrim | hstray
        · have hlen := hsplit.length_eq
          have hpos : 0 < others.length := List.length_pos_iff.2 (by cases hrest <;> simp)
          rw [List.length_cons] at hlen
          rw [htrim, textsWithin, if_pos (by omega)] at hparts
          cases hparts
          exact .inl (buildAs_of_pieces hnone (eval_unquote_of_forall₂ hsplit htypes) hpresent)
        · exact .inr (hstray.textsWithin hparts)

end HintTerm

namespace Hint

open Namespace TypeExpr

variable {ns : Namespace} {hint : Hint} {parts : List Hint} {e : TypeExpr}

theorem forall₂_of_evalExprs {lookup : Lookup} {depth : Nat} {members types : List TypeExpr}
    (h : evalExprs lookup depth members = .ok types) :
    List.Forall₂ (fun m t => evalExpr lookup depth m = .ok t) members types := by
  induction members generalizing types with
  | nil =>
    cases h
    exact .nil
  | cons m rest ih =>
    rw [evalExprs] at h
    obtain ⟨type, htype, h⟩ := ok_of_bind h
    obtain ⟨others, hothers, h⟩ := ok_of_bind h
    cases h
    exact .cons htype (ih hothers)

/-- The hints of the members of a union build the union, or one of them evaluates to nothing. -/
theorem buildAs_memberHints (hnone : ns.eval (.text "None") = .ok .noneType)
    (he : ns.eval hint = .ok e) (htwo : 2 ≤ e.present.length) (h : hint.memberHints = some parts) :
    BuildAs ns parts e ∨ ∃ p ∈ parts, ∀ t, ns.eval p ≠ .ok t := by
  cases hint with
  | text source =>
    rw [memberHints] at h
    obtain ⟨texts, htexts, rfl⟩ := Option.map_eq_some_iff.1 h
    rw [← @String.ofList_toList source] at he
    refine (HintTerm.memberTexts_of_eval hnone he htwo htexts).imp_right ?_
    rintro ⟨p, hp, hstray⟩
    exact ⟨_, List.mem_map_of_mem hp, fun _ => hstray.not_eval⟩
  | expr type =>
    cases type with
    | union members =>
      cases h
      rw [eval_eq] at he
      obtain ⟨types, htypes, he⟩ := ok_of_bind he
      cases he
      obtain ⟨types', hforall, hpresent⟩ := HintTerm.exists_forall₂_filter (!·.isNone)
        (forall₂_of_evalExprs htypes) fun m t hm hdrop => by
          cases m with
          | noneType =>
            cases hm
            rfl
          | _ => cases hdrop
      refine .inl ⟨types', ?_, ?_⟩
      · rw [List.forall₂_map_left_iff]
        exact hforall.imp fun _ _ => eval_ofExpr
      · rw [hpresent, present_unionOf (normal_of_evalExprs htypes)]
    | cls | noneType | aliasOf | generic | forward => cases h

end Hint

end HintSchema
