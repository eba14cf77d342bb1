import HintSchema.Namespace
import HintSchema.Proofs.Spelling

/-!
# Evaluating at other depths and with more names

Depth and fuel only ever stop an evaluation.  What a hint evaluates to at some depth it also
evaluates to less deep and with more fuel (`Namespace.evalHint_mono`), and the fuel for quotes is
always enough, as a quoted part is shorter than the text it stands in: a text evaluates as its term
does, whose quoted parts are evaluated a level deeper (`Namespace.evalSource_iff`).  Names without a
binding stop an evaluation as well, but for those of the built-in types, so a hint evaluates to the
same type where more names are bound, if none of them is that of a built-in type
(`Namespace.evalHint_of_extends`).
-/

namespace HintSchema

/-- The names of the built-in types. -/
def TypeExpr.builtinNames : List String :=
  ["int", "float", "str", "bool", "None", "NoneType", "ID", "list"]

theorem TypeExpr.builtin?_eq_none_iff {name : String} :
    builtin? name = none ↔ name ∉ builtinNames := by
  simp only [builtin?, builtinNames, List.mem_cons, List.not_mem_nil, or_false]
  grind

namespace HintTerm

/-! ## Quoted parts -/

mutual

/-- The quoted parts of a term. -/
def quotes : HintTerm → List String
  | .name _ => []
  | .quoted source => [source]
  | .subscript _ args => quotesOf args

/-- The quoted parts of the terms of a list. -/
def quotesOf : List HintTerm → List String
  | [] => []
  | term :: rest => term.quotes ++ quotesOf rest

end

theorem length_trim_le (cs : List Char) : (Text.trim cs).length ≤ cs.length := by
  obtain ⟨before, after, -, -, hcs⟩ := Text.exists_trim cs
  have hlen := congrArg List.length hcs
  simp only [List.length_append] at hlen
  omega

mutual

/-- A quoted part is shorter than a text of the term. -/
theorem length_of_mem_quotes : ∀ {cs : List Char} {term : HintTerm}, Spelled cs term →
    ∀ {source : String}, source ∈ term.quotes → source.toList.length < cs.length
  | _, _, .name .., _, hs => by cases hs
  | _, _, @Spelled.quoted before inside after q _ _ _ _, _, hs => by
    obtain rfl := List.mem_singleton.1 hs
    have hle := length_trim_le inside
    simp only [String.toList_ofList, List.length_append, List.length_cons]
    omega
  | _, _, .subscript _ _ _ hbody _, _, hs => by
    have hlt := length_of_mem_quotesOf hbody hs
    simp only [List.length_append, List.length_cons]
    omega

theorem length_of_mem_quotesOf : ∀ {cs : List Char} {terms : List HintTerm}, SpelledAll cs terms →
    ∀ {source : String}, source ∈ quotesOf terms → source.toList.length < cs.length
  | _, _, .one hterm, _, hs => by
    rw [quotesOf, quotesOf, List.append_nil] at hs
    exact length_of_mem_quotes hterm hs
  | _, _, .more hterm hterms, _, hs => by
    rw [quotesOf] at hs
    simp only [List.length_append, List.length_cons]
    rcases List.mem_append.1 hs with hs | hs
    · have hlt := length_of_mem_quotes hterm hs
      omega
    · have hlt := length_of_mem_quotesOf hterms hs
      omega

end

theorem evalUnbound_iff {n : String} {e : TypeExpr} :
    evalUnbound n = .ok e ↔ TypeExpr.builtin? (lastSegment n) = some e := by
  rw [evalUnbound]
  cases TypeExpr.builtin? (lastSegment n) with
  | some type => simp
  | none =>
    simp only [reduceCtorEq, iff_false]
    split <;> exact nofun

/-! ## Terms -/

section Terms

variable {bound bound' : String → Option (Except SchemaError TypeExpr)}
  {quoted quoted' : String → Except SchemaError TypeExpr}

mutual

/-- A term evaluates to the same type where its names and its quoted parts do. -/
theorem eval_mono
    (hbound : ∀ n e, (bound n).getD (evalUnbound n) = .ok e →
      (bound' n).getD (evalUnbound n) = .ok e) :
    ∀ (term : HintTerm) {e : TypeExpr},
      (∀ s ∈ term.quotes, ∀ e, quoted s = .ok e → quoted' s = .ok e) →
      term.eval bound quoted = .ok e → term.eval bound' quoted' = .ok e
  | .name n, e, _, h => hbound n e h
  | .quoted source, e, hquoted, h => hquoted source List.mem_cons_self e h
  | .subscript head args, e, hquoted, h => by
    unfold eval at h ⊢
    obtain ⟨types, htypes, h⟩ := ok_of_bind h
    rw [evalAll_mono hbound args hquoted htypes]
    exact h

theorem evalAll_mono
    (hbound : ∀ n e, (bound n).getD (evalUnbound n) = .ok e →
      (bound' n).getD (evalUnbound n) = .ok e) :
    ∀ (terms : List HintTerm) {types : List TypeExpr},
      (∀ s ∈ quotesOf terms, ∀ e, quoted s = .ok e → quoted' s = .ok e) →
      evalAll bound quoted terms = .ok types → evalAll bound' quoted' terms = .ok types
  | [], types, _, h => h
  | term :: rest, types, hquoted, h => by
    unfold evalAll at h ⊢
    obtain ⟨type, htype, h⟩ := ok_of_bind h
    obtain ⟨others, hothers, h⟩ := ok_of_bind h
    rw [eval_mono hbound term (fun s hs => hquoted s (List.mem_append_left _ hs)) htype,
      evalAll_mono hbound rest (fun s hs => hquoted s (List.mem_append_right _ hs)) hothers]
    exact h

end

end Terms

end HintTerm

namespace Namespace

open HintTerm

variable {lookup lookup' : Lookup} {depth depth' fuel fuel' : Nat} {source : String}
  {e : TypeExpr} {hint : Hint} {ns ns' : Namespace}

/-! ## Texts and types -/

/-- What a name denotes at some depth or deeper it denotes in another lookup from another depth
on. -/
def Refines (lookup : Lookup) (depth : Nat) (lookup' : Lookup) (depth' : Nat) : Prop :=
  ∀ k n e, (lookup (depth + k) n).getD (evalUnbound n) = .ok e →
    (lookup' (depth' + k) n).getD (evalUnbound n) = .ok e

theorem Refines.refl (lookup : Lookup) (depth : Nat) : Refines lookup depth lookup depth :=
  fun _ _ _ h => h

theorem Refines.deeper (h : Refines lookup depth lookup' depth') :
    Refines lookup (depth + 1) lookup' (depth' + 1) := fun k n e he => by
  rw [Nat.add_assoc, Nat.add_comm 1 k] at he ⊢
  exact h (k + 1) n e he

theorem evalText_mono (hr : Refines lookup depth lookup' depth')
    (hfuel : source.toList.length < fuel') (h : evalText lookup fuel depth source = .ok e) :
    evalText lookup' fuel' depth' source = .ok e := by
  induction fuel generalizing fuel' depth depth' source e with
  | zero => cases h
  | succ fuel ih =>
    obtain ⟨fuel', rfl⟩ := Nat.exists_eq_add_one_of_ne_zero (show fuel' ≠ 0 by omega)
    rw [evalText] at h ⊢
    split at h
    · cases h
    · rename_i term hterm
      refine eval_mono (hr 0) term (fun s hs e he => ?_) h
      have hlt := length_of_mem_quotes (parse_iff.1 hterm) hs
      exact ih hr.deeper (by omega) he

theorem evalSource_mono (hr : Refines lookup depth lookup' depth')
    (h : evalSource lookup depth source = .ok e) : evalSource lookup' depth' source = .ok e :=
  evalText_mono hr (Nat.lt_succ_self _) h

/-- A text evaluates as its term, whose quoted parts are evaluated a level deeper. -/
theorem evalSource_iff : evalSource lookup depth source = .ok e ↔
    ∃ term, parse source = .ok term ∧
      term.eval (lookup depth) (evalSource lookup (depth + 1)) = .ok e := by
  have hrefl : ∀ {d}, Refines lookup d lookup d := .refl lookup _
  constructor
  · intro h
    rw [evalSource, evalText] at h
    split at h
    · cases h
    · rename_i term hterm
      refine ⟨term, hterm, eval_mono (fun _ _ h => h) term (fun s _ e he => ?_) h⟩
      exact evalText_mono hrefl (Nat.lt_succ_self _) he
  · rintro ⟨term, hterm, h⟩
    rw [evalSource, evalText, hterm]
    refine eval_mono (fun _ _ h => h) term (fun s hs e he => ?_) h
    exact evalText_mono hrefl (length_of_mem_quotes (parse_iff.1 hterm) hs) he

mutual

theorem evalExpr_mono (hr : Refines lookup depth lookup' depth') : ∀ (type : TypeExpr)
    {e : TypeExpr}, evalExpr lookup depth type = .ok e → evalExpr lookup' depth' type = .ok e
  | .forward source, e, h => by
    rw [evalExpr] at h ⊢
    exact evalSource_mono hr.deeper h
  | .union members, e, h => by
    rw [evalExpr] at h ⊢
    obtain ⟨types, htypes, h⟩ := ok_of_bind h
    rw [evalExprs_mono hr members htypes]
    exact h
  | .generic kind args, e, h => by
    rw [evalExpr] at h ⊢
    obtain ⟨types, htypes, h⟩ := ok_of_bind h
    rw [evalExprs_mono hr args htypes]
    exact h
  | .cls _, _, h => h
  | .noneType, _, h => h
  | .aliasOf .., _, h => h

theorem evalExprs_mono (hr : Refines lookup depth lookup' depth') : ∀ (es : List TypeExpr)
    {types : List TypeExpr}, evalExprs lookup depth es = .ok types →
      evalExprs lookup' depth' es = .ok types
  | [], types, h => h
  | e :: rest, types, h => by
    rw [evalExprs] at h ⊢
    obtain ⟨type, htype, h⟩ := ok_of_bind h
    obtain ⟨others, hothers, h⟩ := ok_of_bind h
    rw [evalExpr_mono hr e htype, evalExprs_mono hr rest hothers]
    exact h

end

/-! ## Hints -/

/-- How names are looked up while a hint is evaluated with a step more of fuel. -/
abbrev bindingAt (ns : Namespace) (fuel : Nat) : Lookup :=
  fun depth name => (ns.get? name).map (ns.evalHint fuel (depth + 1))

/-- A hint at a depth, its own text or type being evaluated there. -/
def evalWith (lookup : Lookup) (depth : Nat) : Hint → Except SchemaError TypeExpr
  | .text source => evalSource lookup depth source
  | .expr type => evalExpr lookup depth type

theorem evalHint_succ (ns : Namespace) (fuel depth : Nat) (hint : Hint) :
    ns.evalHint (fuel + 1) depth hint =
      if maxDepth < depth then .error (.malformed hint.shown .recursiveAlias none)
      else evalWith (ns.bindingAt fuel) depth hint := by
  cases hint <;> rfl

theorem evalWith_mono (hr : Refines lookup depth lookup' depth')
    (h : evalWith lookup depth hint = .ok e) : evalWith lookup' depth' hint = .ok e := by
  cases hint with
  | text source => exact evalSource_mono hr h
  | expr type => exact evalExpr_mono hr type h

/-- The second namespace binds the names of the first one as that does, and of other names only some
that do not go by the name of a built-in type. -/
structure Extends (ns ns' : Namespace) : Prop where
  kept : ∀ {name hint}, ns.get? name = some hint → ns'.get? name = some hint
  fresh : ∀ {name}, ns.get? name = none → ns'.get? name ≠ none →
    lastSegment name ∉ TypeExpr.builtinNames

theorem Extends.refl (ns : Namespace) : ns.Extends ns := ⟨id, fun h h' => absurd h h'⟩

theorem refines_bindingAt (hext : ns.Extends ns')
    (h : ∀ k hint e, ns.evalHint fuel (depth + k + 1) hint = .ok e →
      ns'.evalHint fuel' (depth' + k + 1) hint = .ok e) :
    Refines (ns.bindingAt fuel) depth (ns'.bindingAt fuel') depth' := by
  intro k n e he
  cases hn : ns.get? n with
  | none =>
    simp only [bindingAt, hn, Option.map_none, Option.getD_none] at he
    have hn' : ns'.get? n = none := by
      by_contra hbound
      rw [evalUnbound_iff, TypeExpr.builtin?_eq_none_iff.2 (hext.fresh hn hbound)] at he
      cases he
    simp only [bindingAt, hn', Option.map_none, Option.getD_none]
    exact he
  | some hint =>
    simp only [bindingAt, hn, Option.map_some, Option.getD_some] at he
    simp only [bindingAt, hext.kept hn, Option.map_some, Option.getD_some]
    exact h k hint e he

/-- What a hint evaluates to it evaluates to less deep, with more fuel and with more names. -/
theorem evalHint_of_extends (hext : ns.Extends ns') (hfuel : fuel ≤ fuel') (hdepth : depth' ≤ depth)
    (h : ns.evalHint fuel depth hint = .ok e) : ns'.evalHint fuel' depth' hint = .ok e := by
  induction fuel generalizing fuel' depth depth' hint e with
  | zero => cases h
  | succ fuel ih =>
    obtain ⟨fuel', rfl⟩ := Nat.exists_eq_add_one_of_ne_zero (show fuel' ≠ 0 by omega)
    rw [evalHint_succ] at h ⊢
    split_ifs at h with hmax
    rw [if_neg (by omega)]
    refine evalWith_mono (refines_bindingAt hext fun k hint e he => ?_) h
    exact ih (by omega) (by omega) he

/-- What a hint evaluates to it evaluates to less deep and with more fuel. -/
theorem evalHint_mono (hfuel : fuel ≤ fuel') (hdepth : depth' ≤ depth)
    (h : ns.evalHint fuel depth hint = .ok e) : ns.evalHint fuel' depth' hint = .ok e :=
  evalHint_of_extends (.refl ns) hfuel hdepth h

/-! ## From the top -/

/-- How names are looked up while a hint is evaluated. -/
abbrev binding (ns : Namespace) : Lookup := ns.bindingAt maxDepth

theorem eval_eq (ns : Namespace) (hint : Hint) : ns.eval hint = evalWith ns.binding 0 hint := by
  rw [eval, evalHint_succ, if_neg (Nat.not_lt_zero _)]

theorem refines_zero (ns : Namespace) (depth : Nat) : Refines ns.binding depth ns.binding 0 :=
  refines_bindingAt (.refl ns) fun _ _ _ h => evalHint_mono le_rfl (by omega) h

/-- What a hint evaluates to at some depth it evaluates to from the top. -/
theorem eval_of_evalWith (depth : Nat) (hint : Hint) (h : evalWith ns.binding depth hint = .ok e) :
    ns.eval hint = .ok e := by
  rw [eval_eq]
  exact evalWith_mono (ns.refines_zero depth) h

theorem eval_text_iff : ns.eval (.text source) = .ok e ↔ ∃ term, Spelled source.toList term ∧
    term.eval (ns.binding 0) (evalSource ns.binding 1) = .ok e := by
  rw [eval_eq, evalWith, evalSource_iff]
  simp only [HintTerm.parse_iff]

end Namespace

end HintSchema
