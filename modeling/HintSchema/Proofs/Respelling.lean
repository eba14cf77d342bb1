import HintSchema.Proofs.Settling

/-!
# Spellings of optional types

A type that may be absent can be spelled in three ways: as optional, or as a union with the absent
value, which stands last or first (`HintTerm.Optionally`).  Hints that differ in such spellings
anywhere (`Hint.Respelled`) evaluate to types that differ only in where the absent value stands among
the members of unions (`Hint.Respelled.settles_eval`).
-/

namespace HintSchema

/-! ## Spellings -/

namespace HintTerm

/-- The spellings of a type made optional; the first one is for types that are `free` only. -/
inductive Optionally (free : HintTerm → Prop) (term : HintTerm) : HintTerm → Prop
  | optional {head : String} : free term →
      SubscriptHead.ofName? (lastSegment head) = some .optional →
      Optionally free term (.subscript head [term])
  | noneLast {head : String} : SubscriptHead.ofName? (lastSegment head) = some .union →
      Optionally free term (.subscript head [term, .name "None"])
  | noneFirst {head : String} : SubscriptHead.ofName? (lastSegment head) = some .union →
      Optionally free term (.subscript head [.name "None", term])

mutual

/-- Terms that differ in how types are made optional, also inside quotes.  Only what is `free` is
optional in the one and a union with the absent value in the other. -/
inductive Respelled (free : HintTerm → Prop) : HintTerm → HintTerm → Prop
  | refl (term : HintTerm) : Respelled free term term
  | quoted {source source' : String} {term term' : HintTerm} :
      parse source = .ok term → parse source' = .ok term' → Respelled free term term' →
      Respelled free (.quoted source) (.quoted source')
  | subscript {head : String} {args args' : List HintTerm} : RespelledAll free args args' →
      Respelled free (.subscript head args) (.subscript head args')
  | optional {inner inner' term term' : HintTerm} : Respelled free inner inner' →
      Optionally free inner term → Optionally free inner' term' → Respelled free term term'

/-- Terms of two lists that differ so, one by one. -/
inductive RespelledAll (free : HintTerm → Prop) : List HintTerm → List HintTerm → Prop
  | nil : RespelledAll free [] []
  | cons {term term' : HintTerm} {rest rest' : List HintTerm} : Respelled free term term' →
      RespelledAll free rest rest' → RespelledAll free (term :: rest) (term' :: rest')

end

variable {free : HintTerm → Prop}

mutual

theorem Respelled.symm : ∀ {term term' : HintTerm}, Respelled free term term' →
    Respelled free term' term
  | _, _, .refl term => .refl term
  | _, _, .quoted hterm hterm' h => .quoted hterm' hterm h.symm
  | _, _, .subscript h => .subscript h.symm
  | _, _, .optional h hterm hterm' => .optional h.symm hterm' hterm

theorem RespelledAll.symm : ∀ {args args' : List HintTerm}, RespelledAll free args args' →
    RespelledAll free args' args
  | _, _, .nil => .nil
  | _, _, .cons h hrest => .cons h.symm hrest.symm

end

end HintTerm

namespace TypeExpr

mutual

/-- Types that differ so in the texts of their references, those inside the supertypes of aliases
apart. -/
inductive Respelled (free : HintTerm → Prop) : TypeExpr → TypeExpr → Prop
  | refl (e : TypeExpr) : Respelled free e e
  | forward {source source' : String} {term term' : HintTerm} :
      HintTerm.parse source = .ok term → HintTerm.parse source' = .ok term' →
      HintTerm.Respelled free term term' → Respelled free (.forward source) (.forward source')
  | union {es es' : List TypeExpr} : RespelledAll free es es' →
      Respelled free (.union es) (.union es')
  | generic {kind : GenericKind} {es es' : List TypeExpr} : RespelledAll free es es' →
      Respelled free (.generic kind es) (.generic kind es')

/-- Types of two lists that differ so, one by one. -/
inductive RespelledAll (free : HintTerm → Prop) : List TypeExpr → List TypeExpr → Prop
  | nil : RespelledAll free [] []
  | cons {e e' : TypeExpr} {rest rest' : List TypeExpr} : Respelled free e e' →
      RespelledAll free rest rest' → RespelledAll free (e :: rest) (e' :: rest')

end

variable {free : HintTerm → Prop}

mutual

theorem Respelled.symm : ∀ {e e' : TypeExpr}, Respelled free e e' → Respelled free e' e
  | _, _, .refl e => .refl e
  | _, _, .forward hterm hterm' h => .forward hterm' hterm h.symm
  | _, _, .union h => .union h.symm
  | _, _, .generic h => .generic h.symm

theorem RespelledAll.symm : ∀ {es es' : List TypeExpr}, RespelledAll free es es' →
    RespelledAll free es' es
  | _, _, .nil => .nil
  | _, _, .cons h hrest => .cons h.symm hrest.symm

end

end TypeExpr

/-- Hints that differ in how types are made optional.  Only what is `free` is optional in the one and
a union with the absent value in the other. -/
inductive Hint.Respelled (free : HintTerm → Prop) : Hint → Hint → Prop
  | refl (hint : Hint) : Respelled free hint hint
  | text {source source' : String} {term term' : HintTerm} :
      HintTerm.parse source = .ok term → HintTerm.parse source' = .ok term' →
      HintTerm.Respelled free term term' → Respelled free (.text source) (.text source')
  | expr {type type' : TypeExpr} : TypeExpr.Respelled free type type' →
      Respelled free (.expr type) (.expr type')

theorem Hint.Respelled.symm {free : HintTerm → Prop} {hint hint' : Hint}
    (h : Respelled free hint hint') : Respelled free hint' hint := by
  cases h with
  | refl => exact .refl _
  | text hterm hterm' h => exact .text hterm' hterm h.symm
  | expr h => exact .expr h.symm

/-! ## Evaluation -/

section Evaluation

open TypeExpr

variable {free : HintTerm → Prop} {term inner : HintTerm} {lookup : Namespace.Lookup} {depth : Nat}
  {bound : String → Option (Except SchemaError TypeExpr)}
  {quoted : String → Except SchemaError TypeExpr}

/-- Where the one computation gives a type, so does the other, and the types are equal once the
absent value is put last. -/
abbrev Settles (r r' : Except SchemaError TypeExpr) : Prop :=
  Yields (fun e e' => e.settled = e'.settled) r r'

/-- The same for lists of types. -/
abbrev SettlesAll (r r' : Except SchemaError (List TypeExpr)) : Prop :=
  Yields (fun es es' => es.map settled = es'.map settled) r r'

theorem Settles.refl (r : Except SchemaError TypeExpr) : Settles r r := fun e he => ⟨e, he, rfl⟩

theorem SettlesAll.cons {r r' : Except SchemaError TypeExpr}
    {rs rs' : Except SchemaError (List TypeExpr)} (h : Settles r r') (hs : SettlesAll rs rs') :
    SettlesAll (do return (← r) :: (← rs)) (do return (← r') :: (← rs')) :=
  h.bind fun he => hs.bind fun hes => yields_ok (by rw [List.map_cons, List.map_cons, he, hes])

namespace HintTerm

theorem evalUnbound_none : evalUnbound "None" = .ok .noneType := by
  rfl

theorem settles_evalSubscript {text text' head : String} {es es' : List TypeExpr}
    (h : es.map settled = es'.map settled) :
    Settles (evalSubscript text head es) (evalSubscript text' head es') := by
  intro e he
  have hlen := length_eq_of_settled h
  unfold evalSubscript at he ⊢
  generalize SubscriptHead.ofName? (lastSegment head) = kind at he ⊢
  match kind with
  | some .optional =>
    match es, es', hlen with
    | [inner], [inner'], _ =>
      cases he
      exact ⟨_, rfl, settled_optional_congr (List.cons.inj h).1⟩
    | [], [], _ | _ :: _ :: _, _ :: _ :: _, _ => cases he
  | some .union =>
    cases he
    refine ⟨_, rfl, ?_⟩
    beta_reduce
    rw [settled_unionOf, settled_unionOf, h]
  | some (.generic kind) =>
    cases he
    refine ⟨_, rfl, ?_⟩
    beta_reduce
    rw [settled_generic, settled_generic, h]
  | none => cases he

theorem evalSubscript_union {text head : String} {es : List TypeExpr}
    (h : SubscriptHead.ofName? (lastSegment head) = some .union) :
    evalSubscript text head es = .ok (unionOf es) := by
  unfold evalSubscript
  simp only [h]

theorem evalSubscript_optional {text head : String} {e : TypeExpr}
    (h : SubscriptHead.ofName? (lastSegment head) = some .optional) :
    evalSubscript text head [e] = .ok e.optional := by
  unfold evalSubscript
  simp only [h]

theorem eval_subscript_of_evalAll {head : String} {args : List HintTerm} {es : List TypeExpr}
    (h : evalAll bound quoted args = .ok es) : eval bound quoted (.subscript head args) =
      evalSubscript (text (.subscript head args)) head es := by
  rw [eval, h]
  generalize text (.subscript head args) = printed
  rfl

/-- All spellings of a type made optional evaluate to it, but for where the absent value stands. -/
theorem Optionally.eval_eq (h : Optionally free inner term) (hnone : bound "None" = none) :
    ∃ made : TypeExpr → TypeExpr, term.eval bound quoted = (inner.eval bound quoted).map made ∧
      ∀ e, (made e).settled = e.optional.settled := by
  have hnone' : eval bound quoted (.name "None") = .ok .noneType := by
    rw [eval, hnone]
    exact evalUnbound_none
  cases h with
  | optional _ hhead =>
    refine ⟨.optional, ?_, fun _ => rfl⟩
    cases he : inner.eval bound quoted with
    | error =>
      rw [eval, evalAll, he]
      rfl
    | ok e =>
      have hargs : evalAll bound quoted [inner] = .ok [e] := by rw [evalAll, evalAll, he]; rfl
      rw [eval_subscript_of_evalAll hargs, evalSubscript_optional hhead]
      rfl
  | noneLast hhead =>
    refine ⟨.optional, ?_, fun _ => rfl⟩
    cases he : inner.eval bound quoted with
    | error =>
      rw [eval, evalAll, he]
      rfl
    | ok e =>
      have hargs : evalAll bound quoted [inner, .name "None"] = .ok [e, .noneType] := by
        rw [evalAll, evalAll, evalAll, he, hnone']
        rfl
      rw [eval_subscript_of_evalAll hargs, evalSubscript_union hhead]
      rfl
  | noneFirst hhead =>
    refine ⟨fun e => unionOf [.noneType, e], ?_, settled_unionOf_none⟩
    cases he : inner.eval bound quoted with
    | error =>
      rw [eval, evalAll, evalAll, he, hnone']
      rfl
    | ok e =>
      have hargs : evalAll bound quoted [.name "None", inner] = .ok [.noneType, e] := by
        rw [evalAll, evalAll, evalAll, he, hnone']
        rfl
      rw [eval_subscript_of_evalAll hargs, evalSubscript_union hhead]
      rfl

end HintTerm

namespace Namespace

open HintTerm

mutual

/-- Terms that are respelled evaluate alike. -/
theorem settles_eval (hnone : ∀ depth, lookup depth "None" = none) :
    ∀ {term term' : HintTerm} (depth : Nat), Respelled free term term' →
    Settles (term.eval (lookup depth) (evalSource lookup (depth + 1)))
      (term'.eval (lookup depth) (evalSource lookup (depth + 1)))
  | _, _, depth, .refl term => .refl _
  | _, _, depth, .quoted hterm hterm' h => by
    intro e he
    obtain ⟨term, hparse, he⟩ := evalSource_iff.1 he
    cases hterm.symm.trans hparse
    obtain ⟨e', he', heq⟩ := settles_eval hnone (depth + 1) h e he
    exact ⟨e', evalSource_iff.2 ⟨_, hterm', he'⟩, heq⟩
  | _, _, depth, .subscript h => by
    rw [HintTerm.eval, HintTerm.eval]
    exact (settles_evalAll hnone depth h).bind settles_evalSubscript
  | _, _, depth, .optional h hterm hterm' => by
    obtain ⟨made, hmade, hsettled⟩ := hterm.eval_eq (hnone depth)
    obtain ⟨made', hmade', hsettled'⟩ := hterm'.eval_eq (hnone depth)
    intro e he
    rw [hmade] at he
    obtain ⟨d, hd, rfl⟩ := ok_of_map he
    obtain ⟨d', hd', heq⟩ := settles_eval hnone depth h d hd
    refine ⟨made' d', by rw [hmade', hd']; rfl, ?_⟩
    beta_reduce
    rw [hsettled, hsettled', settled_optional_congr heq]

theorem settles_evalAll (hnone : ∀ depth, lookup depth "None" = none) :
    ∀ {args args' : List HintTerm} (depth : Nat), RespelledAll free args args' →
    SettlesAll (HintTerm.evalAll (lookup depth) (evalSource lookup (depth + 1)) args)
      (HintTerm.evalAll (lookup depth) (evalSource lookup (depth + 1)) args')
  | _, _, depth, .nil => yields_ok rfl
  | _, _, depth, .cons h hrest => by
    rw [HintTerm.evalAll, HintTerm.evalAll]
    exact SettlesAll.cons (settles_eval hnone depth h) (settles_evalAll hnone depth hrest)

end

theorem settles_evalSource (hnone : ∀ depth, lookup depth "None" = none)
    {source source' : String} {term term' : HintTerm} (depth : Nat)
    (hterm : parse source = .ok term) (hterm' : parse source' = .ok term')
    (h : HintTerm.Respelled free term term') :
    Settles (evalSource lookup depth source) (evalSource lookup depth source') := by
  intro e he
  obtain ⟨term₁, hterm₁, he⟩ := evalSource_iff.1 he
  cases hterm.symm.trans hterm₁
  obtain ⟨e', he', heq⟩ := settles_eval hnone depth h e he
  exact ⟨e', evalSource_iff.2 ⟨_, hterm', he'⟩, heq⟩

mutual

/-- Types that are respelled evaluate alike. -/
theorem settles_evalExpr (hnone : ∀ depth, lookup depth "None" = none) (depth : Nat) :
    ∀ {type type' : TypeExpr}, TypeExpr.Respelled free type type' →
    Settles (evalExpr lookup depth type) (evalExpr lookup depth type')
  | _, _, .refl _ => .refl _
  | _, _, .forward hterm hterm' h => by
    rw [evalExpr, evalExpr]
    exact settles_evalSource hnone (depth + 1) hterm hterm' h
  | _, _, .union h => by
    rw [evalExpr, evalExpr]
    exact (settles_evalExprs hnone depth h).bind fun hes =>
      yields_ok (by rw [settled_unionOf, settled_unionOf, hes])
  | _, _, .generic h => by
    rw [evalExpr, evalExpr]
    exact (settles_evalExprs hnone depth h).bind fun hes =>
      yields_ok (by rw [settled_generic, settled_generic, hes])

theorem settles_evalExprs (hnone : ∀ depth, lookup depth "None" = none) (depth : Nat) :
    ∀ {es es' : List TypeExpr}, TypeExpr.RespelledAll free es es' →
      SettlesAll (evalExprs lookup depth es) (evalExprs lookup depth es')
  | _, _, .nil => yields_ok rfl
  | _, _, .cons h hrest => by
    rw [evalExprs, evalExprs]
    exact SettlesAll.cons (settles_evalExpr hnone depth h) (settles_evalExprs hnone depth hrest)

end

end Namespace

end Evaluation

/-- Where nothing is bound to the name of the absent value, respelled hints evaluate to types that
are equal once the absent value is put last. -/
theorem Hint.Respelled.settles_eval {free : HintTerm → Prop} {ns : Namespace} {hint hint' : Hint}
    (h : Respelled free hint hint') (hnone : ns.get? "None" = none) :
    Settles (ns.eval hint) (ns.eval hint') := by
  have hunbound : ∀ depth, ns.binding depth "None" = none := fun depth => by
    show (ns.get? "None").map _ = none
    rw [hnone]
    rfl
  rw [Namespace.eval_eq, Namespace.eval_eq]
  cases h with
  | refl => exact .refl _
  | text hterm hterm' h => exact Namespace.settles_evalSource hunbound 0 hterm hterm' h
  | expr h => exact Namespace.settles_evalExpr hunbound 0 h

end HintSchema
