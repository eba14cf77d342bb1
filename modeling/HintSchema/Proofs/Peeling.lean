import HintSchema.Proofs.Depth
import HintSchema.Proofs.Evaluation
import HintSchema.Proofs.Stripping

/-!
# Taking layers off hints

`Hint.unwrap` goes by the form of a hint, not by its type.  Still, when it takes a layer off a hint
without commas, the type of what is left is that of the hint without a sequence around it, or the
same up to absence (`TypeExpr.Peels`, `Hint.peels_of_unwrap`): a subscript stands for a sequence,
an optional type or, as a union with one argument, for nothing at all.
-/

namespace HintSchema

namespace TypeExpr

variable {e e' u : TypeExpr} {es members : List TypeExpr} {seen : List TypeKey} {k : TypeKey}

/-! ## Types without absence -/

/-- The members of a type other than that of the absent value. -/
def present (e : TypeExpr) : List TypeExpr := e.members.filter (!·.isNone)

/-- A type without absence. -/
def bare (e : TypeExpr) : TypeExpr := collapse e.present

/-- Only the keys of the types themselves count among those seen before. -/
theorem distinct_congr {seen' : List TypeKey} (h : ∀ e ∈ es, e.key ∈ seen ↔ e.key ∈ seen') :
    distinct seen es = distinct seen' es := by
  induction es generalizing seen seen' with
  | nil => rfl
  | cons e rest ih =>
    have hrest : ∀ d ∈ rest, d.key ∈ seen ↔ d.key ∈ seen' :=
      fun d hd => h d (List.mem_cons_of_mem _ hd)
    have hadd : distinct (e.key :: seen) rest = distinct (e.key :: seen') rest :=
      ih fun d hd => by rw [List.mem_cons, List.mem_cons, hrest d hd]
    unfold distinct
    rw [ih hrest, hadd]
    simp only [h e List.mem_cons_self]

theorem filter_distinct (seen : List TypeKey) (es : List TypeExpr) :
    (distinct seen es).filter (!·.isNone) = distinct seen (es.filter (!·.isNone)) := by
  induction es generalizing seen with
  | nil => rfl
  | cons e rest ih =>
    by_cases hnone : e.isNone
    · -- what is dropped has the key of no other type
      have hskip : distinct (e.key :: seen) (rest.filter (!·.isNone)) =
          distinct seen (rest.filter (!·.isNone)) := by
        refine distinct_congr fun d hd => ?_
        have hne : d.key ≠ e.key := by
          intro hk
          cases e with
          | noneType =>
            rw [key, key_eq_noneType_iff] at hk
            subst hk
            exact absurd (List.mem_filter.1 hd).2 (by decide)
          | _ => cases hnone
        simp [hne]
      rw [distinct]
      split_ifs
      · simp [hnone, ih]
      · simp [hnone, ih, hskip]
    · rw [List.filter_cons_of_pos (by simpa using hnone), distinct, distinct]
      by_cases hseen : e.key ∈ seen <;> simp [hnone, hseen, ih]

theorem distinct_eq_self (hnodup : (es.map key).Nodup) (hseen : ∀ e ∈ es, e.key ∉ seen) :
    distinct seen es = es := by
  induction es generalizing seen with
  | nil => rfl
  | cons e rest ih =>
    rw [List.map_cons, List.nodup_cons] at hnodup
    rw [distinct, if_neg (hseen e List.mem_cons_self)]
    congr 1
    refine ih hnodup.2 fun d hd hmem => ?_
    rcases List.mem_cons.1 hmem with hk | hmem
    · exact hnodup.1 (hk ▸ List.mem_map_of_mem hd)
    · exact hseen d (List.mem_cons_of_mem _ hd) hmem

/-- A union that is flat, without repetitions and of more or less than one member is not changed when
it is built once more. -/
theorem unionOf_eq_union (hflat : ∀ m ∈ es, m.isUnion = false) (hnodup : (es.map key).Nodup)
    (hlen : es.length ≠ 1) : unionOf es = union es := by
  have hmembers : es.flatMap TypeExpr.members = es := by
    rw [List.flatMap_congr fun m hm => members_eq_self (hflat m hm), List.flatMap_singleton']
  rw [unionOf, hmembers, distinct_eq_self hnodup (by simp), collapse_of_length hlen]

/-- A type other than a union and that of the absent value, made optional. -/
theorem optional_of_not_union (hunion : e.isUnion = false) (hnone : e.isNone = false) :
    e.optional = union [e, .noneType] := by
  have hkey : e.key ≠ .noneType := by
    rw [Ne, key_eq_noneType_iff]
    rintro rfl
    cases hnone
  refine unionOf_eq_union ?_ (by simpa [key] using hkey) (by simp)
  exact List.forall_mem_cons.2 ⟨hunion, List.forall_mem_singleton.2 rfl⟩

theorem members_collapse (h : ∀ e ∈ es, e.isUnion = false) : (collapse es).members = es := by
  match es with
  | [e] => exact members_eq_self (h e List.mem_cons_self)
  | [] | _ :: _ :: _ => rfl

/-- Building a union keeps the members of its parts. -/
theorem members_unionOf (hes : ∀ e ∈ es, e.Normal) :
    (unionOf es).members = distinct [] (es.flatMap TypeExpr.members) := by
  refine members_collapse fun m hm => ?_
  obtain ⟨e, he, hme⟩ := List.mem_flatMap.1 (mem_of_mem_distinct hm)
  exact ((hes e he).members m hme).2

theorem present_unionOf (hes : ∀ e ∈ es, e.Normal) :
    (unionOf es).present = distinct [] (es.flatMap present) := by
  rw [present, members_unionOf hes, filter_distinct, List.filter_flatMap]
  rfl

theorem Normal.nodup_members (hn : e.Normal) : (e.members.map key).Nodup := by
  cases e with
  | union ms => exact keys_eq_map ms ▸ hn.2.2.1
  | _ => simp [TypeExpr.members]

theorem Normal.distinct_present (hn : e.Normal) : distinct [] e.present = e.present :=
  distinct_eq_self (hn.nodup_members.sublist ((List.filter_sublist).map _)) (by simp)

/-- A union of types of which only one has members other than the absent value. -/
theorem present_unionOf_eq (hes : ∀ e ∈ es, e.Normal) (he : e.Normal)
    (h : es.flatMap present = e.present) : (unionOf es).present = e.present := by
  rw [present_unionOf hes, h, he.distinct_present]

theorem present_optional (he : e.Normal) : e.optional.present = e.present := by
  refine present_unionOf_eq (fun d hd => ?_) he ?_
  · rcases List.mem_cons.1 hd with rfl | hd
    · exact he
    · exact List.mem_singleton.1 hd ▸ trivial
  · simp [present, TypeExpr.members, isNone]

theorem members_bare (hn : e.Normal) : e.bare.members = e.present :=
  members_collapse fun m hm => (hn.members m (List.mem_filter.1 hm).1).2

theorem bare_bare (hn : e.Normal) : e.bare.bare = e.bare := by
  rw [bare, present, members_bare hn, present, List.filter_filter]
  simp [bare, present]

theorem Normal.bare (hn : e.Normal) : e.bare.Normal :=
  normal_collapse (fun m hm => hn.members m (List.mem_filter.1 hm).1)
    (hn.nodup_members.sublist ((List.filter_sublist).map _))

/-! ## Layers -/

/-- The first type is a sequence or another subscripted type of the second, or is the same but for
absence. -/
inductive Peels : TypeExpr → TypeExpr → Prop
  | element {kind : GenericKind} {e : TypeExpr} : Peels (generic kind [e]) e
  | same {e e' : TypeExpr} : e.present = e'.present → Peels e e'

end TypeExpr

namespace HintTerm

open TypeExpr

/-- A subscript with one argument is built of the type of the argument. -/
theorem eval_argument {bound : String → Option (Except SchemaError TypeExpr)}
    {quoted : String → Except SchemaError TypeExpr} {head : String} {arg : HintTerm} {e : TypeExpr}
    (h : (subscript head [arg]).eval bound quoted = .ok e) :
    ∃ type, arg.eval bound quoted = .ok type ∧
      evalSubscript (text (.subscript head [arg])) head [type] = .ok e := by
  rw [eval] at h
  obtain ⟨types, htypes, h⟩ := ok_of_bind h
  rw [evalAll] at htypes
  obtain ⟨type, htype, htypes⟩ := ok_of_bind htypes
  cases htypes
  exact ⟨type, htype, h⟩

theorem peels_of_evalSubscript {term head : String} {e inner : TypeExpr} (hn : inner.Normal)
    (h : evalSubscript term head [inner] = .ok e) : Peels e inner := by
  rw [evalSubscript] at h
  split at h
  · cases h
    exact .same (present_optional hn)
  · cases h
    refine .same (present_unionOf_eq ?_ hn (by simp))
    simpa using hn
  · cases h
    exact .element
  · cases h

end HintTerm

namespace Hint

open Namespace TypeExpr

variable {ns : Namespace} {hint inner : Hint} {e : TypeExpr} {source text : String}

/-- A text with a comma in it. -/
def HasComma : Hint → Prop
  | .text source => ',' ∈ source.toList
  | .expr _ => False

/-! ## Texts -/

/-- A text inside another one evaluates to what the argument there does. -/
theorem eval_of_within {arg : HintTerm} (h : HintTerm.Within text arg)
    (he : arg.eval (ns.binding 0) (evalSource ns.binding 1) = .ok e) :
    ns.eval (.text text) = .ok e := by
  cases arg with
  | quoted source =>
    obtain rfl : text = source := h
    exact eval_of_evalWith 1 (.text text) he
  | name | subscript =>
    rw [eval_eq]
    exact evalSource_iff.2 ⟨_, h, he⟩

theorem peels_of_unwrapText (hc : ',' ∉ source.toList) (he : ns.eval (.text source) = .ok e)
    (h : unwrapText source = .ok text) :
    ∃ e', ns.eval (.text text) = .ok e' ∧ Peels e e' := by
  rw [eval_eq] at he
  obtain ⟨term, hterm, he⟩ := evalSource_iff.1 he
  have hspelled := HintTerm.parse_iff.1 hterm
  cases term with
  | name =>
    rw [HintTerm.unwrapText_of_bracketed? (HintTerm.bracketed?_of_name hspelled)] at h
    cases h
  | quoted =>
    rw [HintTerm.unwrapText_of_bracketed? (HintTerm.bracketed?_of_quoted hspelled)] at h
    cases h
  | subscript head args =>
    obtain ⟨arg, rfl⟩ := HintTerm.exists_arg_of_parse hterm hc
    obtain ⟨text', htext', hwithin⟩ := HintTerm.unwrapText_of_parse hterm
    obtain rfl := Except.ok.inj (htext'.symm.trans h)
    obtain ⟨type, htype, he⟩ := HintTerm.eval_argument he
    have heval := eval_of_within hwithin htype
    exact ⟨type, heval, HintTerm.peels_of_evalSubscript (normal_of_eval heval) he⟩

/-! ## Types -/

theorem eval_ofExpr {type : TypeExpr} (h : evalExpr ns.binding 0 type = .ok e) :
    ns.eval (.ofExpr type) = .ok e := by
  cases type with
  | forward source => exact eval_of_evalWith 1 (.text source) h
  | _ =>
    rw [eval_eq]
    exact h

theorem flatMap_present_of_evalExprs {lookup : Lookup} {depth : Nat} :
    ∀ {members types : List TypeExpr}, evalExprs lookup depth members = .ok types →
      members.filter (!·.isNone) = [] → types.flatMap present = []
  | [], types, h, _ => by
    cases h
    rfl
  | m :: rest, types, h, hfilter => by
    rw [evalExprs] at h
    obtain ⟨type, htype, h⟩ := ok_of_bind h
    obtain ⟨others, hothers, h⟩ := ok_of_bind h
    cases h
    cases m with
    | noneType =>
      cases htype
      have hfilter : rest.filter (!·.isNone) = [] := hfilter
      rw [List.flatMap_cons, flatMap_present_of_evalExprs hothers hfilter]
      rfl
    | _ => cases hfilter

/-- Of the members of a union that evaluates, the only one besides absence evaluates to all there is
besides absence. -/
theorem evalExpr_only {lookup : Lookup} {depth : Nat} {only : TypeExpr} :
    ∀ {members types : List TypeExpr}, evalExprs lookup depth members = .ok types →
      members.filter (!·.isNone) = [only] →
        ∃ e, evalExpr lookup depth only = .ok e ∧ types.flatMap present = e.present
  | m :: rest, types, h, hfilter => by
    rw [evalExprs] at h
    obtain ⟨type, htype, h⟩ := ok_of_bind h
    obtain ⟨others, hothers, h⟩ := ok_of_bind h
    cases h
    by_cases hm : m.isNone
    · cases m with
      | noneType =>
        cases htype
        have hfilter : rest.filter (!·.isNone) = [only] := hfilter
        obtain ⟨e, he, hrest⟩ := evalExpr_only hothers hfilter
        exact ⟨e, he, by rw [List.flatMap_cons, hrest]; rfl⟩
      | _ => cases hm
    · rw [List.filter_cons_of_pos (by simpa using hm), List.cons.injEq] at hfilter
      obtain ⟨rfl, hrest⟩ := hfilter
      refine ⟨type, htype, ?_⟩
      rw [List.flatMap_cons, flatMap_present_of_evalExprs hothers hrest, List.append_nil]

theorem normal_of_evalExprs {types members : List TypeExpr}
    (h : evalExprs ns.binding 0 members = .ok types) : ∀ e ∈ types, e.Normal := by
  have hunion : ns.eval (.expr (.generic .list members)) = .ok (.generic .list types) := by
    rw [eval_eq]
    show (evalExprs ns.binding 0 members >>= _) = _
    rw [h]
    rfl
  exact normalAll_iff.1 (normal_of_eval hunion)

theorem peels_of_unwrapExpr {type : TypeExpr} (he : ns.eval (.expr type) = .ok e)
    (h : (Hint.expr type).unwrap = .ok inner) : ∃ e', ns.eval inner = .ok e' ∧ Peels e e' := by
  rw [eval_eq] at he
  replace he : evalExpr ns.binding 0 type = .ok e := he
  cases type with
  | union members =>
    rw [unwrap] at h
    split at h
    · rename_i only honly
      cases h
      rw [evalExpr] at he
      obtain ⟨types, htypes, he⟩ := ok_of_bind he
      cases he
      obtain ⟨e', he', hpresent⟩ := evalExpr_only htypes honly
      have heval := eval_ofExpr he'
      exact ⟨e', heval,
        .same (present_unionOf_eq (normal_of_evalExprs htypes) (normal_of_eval heval) hpresent)⟩
    · cases h
  | generic kind args =>
    match args with
    | [only] =>
      cases h
      rw [evalExpr, evalExprs, evalExprs] at he
      obtain ⟨types, htypes, he⟩ := ok_of_bind he
      obtain ⟨e', he', htypes⟩ := ok_of_bind htypes
      cases htypes
      cases he
      exact ⟨e', eval_ofExpr he', .element⟩
    | [] | _ :: _ :: _ => cases h
  | cls | noneType | aliasOf | forward => cases h

/-- Taking a layer off a hint takes at most one off its type. -/
theorem peels_of_unwrap (hc : ¬ hint.HasComma) (he : ns.eval hint = .ok e)
    (h : hint.unwrap = .ok inner) : ∃ e', ns.eval inner = .ok e' ∧ Peels e e' := by
  cases hint with
  | text source =>
    rw [unwrap] at h
    cases htext : unwrapText source with
    | error err => rw [htext] at h; cases h
    | ok text =>
      rw [htext] at h
      cases h
      exact peels_of_unwrapText hc he htext
  | expr type => exact peels_of_unwrapExpr he h

theorem hasComma_of_unwrap (hc : hint.HasComma) (h : hint.unwrap = .ok inner) :
    inner.HasComma := by
  cases hint with
  | text source =>
    rw [unwrap] at h
    cases htext : unwrapText source with
    | error err => rw [htext] at h; cases h
    | ok text =>
      rw [htext] at h
      cases h
      exact HintTerm.comma_mem_of_unwrapText htext hc
  | expr type => cases hc

end Hint

end HintSchema
