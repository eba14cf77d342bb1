import Mathlib
import HintSchema.Proofs.Denotation

/-!
# What hints denote

`Namespace.Denotes` says what a hint denotes by rules that know no depth: a bound name denotes what
its binding does, a quoted part or a reference what its text does, and any other name a built-in
type.  Evaluation only ever cuts this short (`Namespace.eval_denotes`): what a hint evaluates to is
the one thing that it denotes, what it denotes in `maxDepth` steps it evaluates to, and a hint that
goes through a cycle of bindings denotes nothing.
-/

namespace HintSchema

open Relation

/-- What a head builds from types. -/
inductive SubscriptHead.Builds : SubscriptHead → List TypeExpr → TypeExpr → Prop
  | optional (inner : TypeExpr) : Builds .optional [inner] inner.optional
  | union (types : List TypeExpr) : Builds .union types (.unionOf types)
  | generic (kind : GenericKind) (types : List TypeExpr) :
      Builds (.generic kind) types (.generic kind types)

theorem SubscriptHead.Builds.unique {head : SubscriptHead} {types : List TypeExpr}
    {e e' : TypeExpr} (h : head.Builds types e) (h' : head.Builds types e') : e = e' := by
  cases h <;> cases h' <;> rfl

namespace HintTerm

variable {term head : String} {types : List TypeExpr} {e : TypeExpr}

theorem evalSubscript_iff : evalSubscript term head types = .ok e ↔
    ∃ h, SubscriptHead.ofName? (lastSegment head) = some h ∧ h.Builds types e := by
  constructor
  · intro he
    unfold evalSubscript at he
    split at he
    · rename_i hhead
      split at he
      · cases he
        exact ⟨_, hhead, .optional _⟩
      · cases he
    · rename_i hhead
      cases he
      exact ⟨_, hhead, .union _⟩
    · rename_i kind hhead
      cases he
      exact ⟨_, hhead, .generic kind _⟩
    · cases he
  · rintro ⟨h, hhead, hbuilds⟩
    unfold evalSubscript
    rw [hhead]
    cases hbuilds <;> rfl

end HintTerm

/-! ## The names that a hint asks for -/

/-- The names that a term asks for, those in its quoted parts included. -/
inductive HintTerm.Asks : HintTerm → String → Prop
  | name (n : String) : Asks (.name n) n
  | quoted {source n : String} {term : HintTerm} :
      HintTerm.Spelled source.toList term → Asks term n → Asks (.quoted source) n
  | subscript {head n : String} {args : List HintTerm} {term : HintTerm} :
      term ∈ args → Asks term n → Asks (.subscript head args) n

/-- The names that the references in a type ask for. -/
inductive TypeExpr.Asks : TypeExpr → String → Prop
  | forward {source n : String} {term : HintTerm} :
      HintTerm.Spelled source.toList term → term.Asks n → Asks (.forward source) n
  | union {members : List TypeExpr} {e : TypeExpr} {n : String} :
      e ∈ members → Asks e n → Asks (.union members) n
  | generic {kind : GenericKind} {args : List TypeExpr} {e : TypeExpr} {n : String} :
      e ∈ args → Asks e n → Asks (.generic kind args) n

/-- The names that a hint asks for. -/
inductive Hint.Asks : Hint → String → Prop
  | text {source n : String} {term : HintTerm} :
      HintTerm.Spelled source.toList term → term.Asks n → Asks (.text source) n
  | expr {type : TypeExpr} {n : String} : type.Asks n → Asks (.expr type) n

/-! ## Denotations -/

namespace Namespace

variable {ns : Namespace} {depth steps steps' : Nat}

mutual

/-- What a hint denotes where no path takes more than some steps through bindings, quotes and
references. -/
inductive DenotesWithin (ns : Namespace) : Nat → Hint → TypeExpr → Prop
  | text {steps : Nat} {source : String} {e : TypeExpr} :
      TextDenotes ns steps source e → DenotesWithin ns steps (.text source) e
  | expr {steps : Nat} {type e : TypeExpr} :
      ExprDenotes ns steps type e → DenotesWithin ns steps (.expr type) e

/-- What a text denotes. -/
inductive TextDenotes (ns : Namespace) : Nat → String → TypeExpr → Prop
  | term {steps : Nat} {source : String} {term : HintTerm} {e : TypeExpr} :
      HintTerm.Spelled source.toList term → TermDenotes ns steps term e →
      TextDenotes ns steps source e

/-- What a term denotes: names and heads without a binding go by their last segment. -/
inductive TermDenotes (ns : Namespace) : Nat → HintTerm → TypeExpr → Prop
  | bound {steps : Nat} {n : String} {hint : Hint} {e : TypeExpr} :
      ns.get? n = some hint → DenotesWithin ns steps hint e → TermDenotes ns (steps + 1) (.name n) e
  | builtin {steps : Nat} {n : String} {e : TypeExpr} :
      ns.get? n = none → TypeExpr.builtin? (lastSegment n) = some e →
      TermDenotes ns steps (.name n) e
  | quoted {steps : Nat} {source : String} {e : TypeExpr} :
      TextDenotes ns steps source e → TermDenotes ns (steps + 1) (.quoted source) e
  | subscript {steps : Nat} {name : String} {head : SubscriptHead} {args : List HintTerm}
      {types : List TypeExpr} {e : TypeExpr} :
      SubscriptHead.ofName? (lastSegment name) = some head → TermsDenote ns steps args types →
      head.Builds types e → TermDenotes ns steps (.subscript name args) e

/-- What the terms of a list denote. -/
inductive TermsDenote (ns : Namespace) : Nat → List HintTerm → List TypeExpr → Prop
  | nil {steps : Nat} : TermsDenote ns steps [] []
  | cons {steps : Nat} {term : HintTerm} {rest : List HintTerm} {e : TypeExpr}
      {types : List TypeExpr} :
      TermDenotes ns steps term e → TermsDenote ns steps rest types →
      TermsDenote ns steps (term :: rest) (e :: types)

/-- What a type denotes whose references stand for what their texts denote. -/
inductive ExprDenotes (ns : Namespace) : Nat → TypeExpr → TypeExpr → Prop
  | forward {steps : Nat} {source : String} {e : TypeExpr} :
      TextDenotes ns steps source e → ExprDenotes ns (steps + 1) (.forward source) e
  | union {steps : Nat} {members types : List TypeExpr} :
      ExprsDenote ns steps members types → ExprDenotes ns steps (.union members) (.unionOf types)
  | generic {steps : Nat} {kind : GenericKind} {args types : List TypeExpr} :
      ExprsDenote ns steps args types →
      ExprDenotes ns steps (.generic kind args) (.generic kind types)
  | cls {steps : Nat} {c : ClassRef} : ExprDenotes ns steps (.cls c) (.cls c)
  | noneType {steps : Nat} : ExprDenotes ns steps .noneType .noneType
  | aliasOf {steps id : Nat} {name : String} {supertype : TypeExpr} :
      ExprDenotes ns steps (.aliasOf id name supertype) (.aliasOf id name supertype)

/-- What the types of a list denote. -/
inductive ExprsDenote (ns : Namespace) : Nat → List TypeExpr → List TypeExpr → Prop
  | nil {steps : Nat} : ExprsDenote ns steps [] []
  | cons {steps : Nat} {type e : TypeExpr} {rest types : List TypeExpr} :
      ExprDenotes ns steps type e → ExprsDenote ns steps rest types →
      ExprsDenote ns steps (type :: rest) (e :: types)

end

/-- What a hint denotes, however deep. -/
def Denotes (ns : Namespace) (hint : Hint) (e : TypeExpr) : Prop :=
  ∃ steps, ns.DenotesWithin steps hint e

/-! ## More steps -/

mutual

theorem DenotesWithin.mono : ∀ {steps steps' : Nat} {hint : Hint} {e : TypeExpr},
    ns.DenotesWithin steps hint e → steps ≤ steps' → ns.DenotesWithin steps' hint e
  | _, _, _, _, .text h, hle => .text (h.mono hle)
  | _, _, _, _, .expr h, hle => .expr (h.mono hle)

theorem TextDenotes.mono : ∀ {steps steps' : Nat} {source : String} {e : TypeExpr},
    ns.TextDenotes steps source e → steps ≤ steps' → ns.TextDenotes steps' source e
  | _, _, _, _, .term hspelled h, hle => .term hspelled (h.mono hle)

theorem TermDenotes.mono : ∀ {steps steps' : Nat} {term : HintTerm} {e : TypeExpr},
    ns.TermDenotes steps term e → steps ≤ steps' → ns.TermDenotes steps' term e
  | _, _ + 1, _, _, .bound hn h, hle => .bound hn (h.mono (Nat.le_of_succ_le_succ hle))
  | _, _, _, _, .builtin hn he, _ => .builtin hn he
  | _, _ + 1, _, _, .quoted h, hle => .quoted (h.mono (Nat.le_of_succ_le_succ hle))
  | _, _, _, _, .subscript hhead hargs he, hle => .subscript hhead (hargs.mono hle) he

theorem TermsDenote.mono : ∀ {steps steps' : Nat} {terms : List HintTerm} {types : List TypeExpr},
    ns.TermsDenote steps terms types → steps ≤ steps' → ns.TermsDenote steps' terms types
  | _, _, _, _, .nil, _ => .nil
  | _, _, _, _, .cons h hrest, hle => .cons (h.mono hle) (hrest.mono hle)

theorem ExprDenotes.mono : ∀ {steps steps' : Nat} {type e : TypeExpr},
    ns.ExprDenotes steps type e → steps ≤ steps' → ns.ExprDenotes steps' type e
  | _, _ + 1, _, _, .forward h, hle => .forward (h.mono (Nat.le_of_succ_le_succ hle))
  | _, _, _, _, .union h, hle => .union (h.mono hle)
  | _, _, _, _, .generic h, hle => .generic (h.mono hle)
  | _, _, _, _, .cls, _ => .cls
  | _, _, _, _, .noneType, _ => .noneType
  | _, _, _, _, .aliasOf, _ => .aliasOf

theorem ExprsDenote.mono : ∀ {steps steps' : Nat} {types es : List TypeExpr},
    ns.ExprsDenote steps types es → steps ≤ steps' → ns.ExprsDenote steps' types es
  | _, _, _, _, .nil, _ => .nil
  | _, _, _, _, .cons h hrest, hle => .cons (h.mono hle) (hrest.mono hle)

end

/-! ## What is evaluated is denoted -/

mutual

theorem Evaluates.denotes : ∀ {depth : Nat} {hint : Hint} {r : Except SchemaError TypeExpr}
    {e : TypeExpr}, ns.Evaluates depth hint r → r = .ok e → ns.Denotes hint e
  | _, _, _, _, .text _ h, he =>
    let ⟨steps, hd⟩ := h.denotes he
    ⟨steps, .text hd⟩
  | _, _, _, _, .expr _ h, he =>
    let ⟨steps, hd⟩ := h.denotes he
    ⟨steps, .expr hd⟩

theorem EvaluatesText.denotes : ∀ {depth : Nat} {source : String}
    {r : Except SchemaError TypeExpr} {e : TypeExpr}, ns.EvaluatesText depth source r → r = .ok e →
    ∃ steps, ns.TextDenotes steps source e
  | _, _, _, _, .term hparse h, he =>
    let ⟨steps, hd⟩ := h.denotes he
    ⟨steps, .term (HintTerm.parse_iff.1 hparse) hd⟩

theorem EvaluatesTerm.denotes : ∀ {depth : Nat} {term : HintTerm}
    {r : Except SchemaError TypeExpr} {e : TypeExpr}, ns.EvaluatesTerm depth term r → r = .ok e →
    ∃ steps, ns.TermDenotes steps term e
  | _, _, _, _, .bound hn h, he =>
    let ⟨steps, hd⟩ := h.denotes he
    ⟨steps + 1, .bound hn hd⟩
  | _, _, _, _, .unbound hn, he => ⟨0, .builtin hn (HintTerm.evalUnbound_iff.1 he)⟩
  | _, _, _, _, .quoted h, he =>
    let ⟨steps, hd⟩ := h.denotes he
    ⟨steps + 1, .quoted hd⟩
  | _, _, _, _, .subscript h, he => by
    obtain ⟨types, htypes, he⟩ := ok_of_bind he
    obtain ⟨steps, hd⟩ := h.denotes htypes
    obtain ⟨head, hhead, hbuilds⟩ := HintTerm.evalSubscript_iff.1 he
    exact ⟨steps, .subscript hhead hd hbuilds⟩

theorem EvaluatesTerms.denotes : ∀ {depth : Nat} {terms : List HintTerm}
    {r : Except SchemaError (List TypeExpr)} {types : List TypeExpr},
    ns.EvaluatesTerms depth terms r → r = .ok types → ∃ steps, ns.TermsDenote steps terms types
  | _, _, _, _, .nil, he => by
    cases he
    exact ⟨0, .nil⟩
  | _, _, _, _, .cons h hrest, he => by
    obtain ⟨e, hok, he⟩ := ok_of_bind he
    obtain ⟨types, hoks, he⟩ := ok_of_bind he
    cases he
    obtain ⟨steps, hd⟩ := h.denotes hok
    obtain ⟨steps', hds⟩ := hrest.denotes hoks
    exact ⟨max steps steps', .cons (hd.mono (le_max_left ..)) (hds.mono (le_max_right ..))⟩

theorem EvaluatesExpr.denotes : ∀ {depth : Nat} {type : TypeExpr}
    {r : Except SchemaError TypeExpr} {e : TypeExpr}, ns.EvaluatesExpr depth type r → r = .ok e →
    ∃ steps, ns.ExprDenotes steps type e
  | _, _, _, _, .forward h, he =>
    let ⟨steps, hd⟩ := h.denotes he
    ⟨steps + 1, .forward hd⟩
  | _, _, _, _, .union h, he => by
    obtain ⟨types, htypes, rfl⟩ := ok_of_map he
    obtain ⟨steps, hd⟩ := h.denotes htypes
    exact ⟨steps, .union hd⟩
  | _, _, _, _, .generic h, he => by
    obtain ⟨types, htypes, rfl⟩ := ok_of_map he
    obtain ⟨steps, hd⟩ := h.denotes htypes
    exact ⟨steps, .generic hd⟩
  | _, _, _, _, .cls, he => by
    cases he
    exact ⟨0, .cls⟩
  | _, _, _, _, .noneType, he => by
    cases he
    exact ⟨0, .noneType⟩
  | _, _, _, _, .aliasOf, he => by
    cases he
    exact ⟨0, .aliasOf⟩

theorem EvaluatesExprs.denotes : ∀ {depth : Nat} {types : List TypeExpr}
    {r : Except SchemaError (List TypeExpr)} {es : List TypeExpr},
    ns.EvaluatesExprs depth types r → r = .ok es → ∃ steps, ns.ExprsDenote steps types es
  | _, _, _, _, .nil, he => by
    cases he
    exact ⟨0, .nil⟩
  | _, _, _, _, .cons h hrest, he => by
    obtain ⟨e, hok, he⟩ := ok_of_bind he
    obtain ⟨es, hoks, he⟩ := ok_of_bind he
    cases he
    obtain ⟨steps, hd⟩ := h.denotes hok
    obtain ⟨steps', hds⟩ := hrest.denotes hoks
    exact ⟨max steps steps', .cons (hd.mono (le_max_left ..)) (hds.mono (le_max_right ..))⟩

end

/-! ## What is denoted in few steps is evaluated -/

mutual

theorem DenotesWithin.evaluates : ∀ {steps depth : Nat} {hint : Hint} {e : TypeExpr},
    ns.DenotesWithin steps hint e → depth + steps ≤ maxDepth → ns.Evaluates depth hint (.ok e)
  | _, _, _, _, .text h, hle => .text (by omega) (h.evaluates hle)
  | _, _, _, _, .expr h, hle => .expr (by omega) (h.evaluates hle)

theorem TextDenotes.evaluates : ∀ {steps depth : Nat} {source : String} {e : TypeExpr},
    ns.TextDenotes steps source e → depth + steps ≤ maxDepth →
    ns.EvaluatesText depth source (.ok e)
  | _, _, _, _, .term hspelled h, hle => .term (HintTerm.parse_iff.2 hspelled) (h.evaluates hle)

theorem TermDenotes.evaluates : ∀ {steps depth : Nat} {term : HintTerm} {e : TypeExpr},
    ns.TermDenotes steps term e → depth + steps ≤ maxDepth → ns.EvaluatesTerm depth term (.ok e)
  | _, _, _, _, .bound hn h, hle => .bound hn (h.evaluates (by omega))
  | _, _, _, _, .builtin hn he, _ => by
    rw [← HintTerm.evalUnbound_iff.2 he]
    exact .unbound hn
  | _, _, _, _, .quoted h, hle => .quoted (h.evaluates (by omega))
  | _, _, _, _, .subscript hhead hargs hbuilds, hle => by
    rw [← HintTerm.evalSubscript_iff.2 ⟨_, hhead, hbuilds⟩]
    exact .subscript (hargs.evaluates hle)

theorem TermsDenote.evaluates : ∀ {steps depth : Nat} {terms : List HintTerm}
    {types : List TypeExpr}, ns.TermsDenote steps terms types → depth + steps ≤ maxDepth →
    ns.EvaluatesTerms depth terms (.ok types)
  | _, _, _, _, .nil, _ => .nil
  | _, _, _, _, .cons h hrest, hle => .cons (h.evaluates hle) (hrest.evaluates hle)

theorem ExprDenotes.evaluates : ∀ {steps depth : Nat} {type e : TypeExpr},
    ns.ExprDenotes steps type e → depth + steps ≤ maxDepth → ns.EvaluatesExpr depth type (.ok e)
  | _, _, _, _, .forward h, hle => .forward (h.evaluates (by omega))
  | _, _, _, _, .union h, hle => .union (h.evaluates hle)
  | _, _, _, _, .generic h, hle => .generic (h.evaluates hle)
  | _, _, _, _, .cls, _ => .cls
  | _, _, _, _, .noneType, _ => .noneType
  | _, _, _, _, .aliasOf, _ => .aliasOf

theorem ExprsDenote.evaluates : ∀ {steps depth : Nat} {types es : List TypeExpr},
    ns.ExprsDenote steps types es → depth + steps ≤ maxDepth →
    ns.EvaluatesExprs depth types (.ok es)
  | _, _, _, _, .nil, _ => .nil
  | _, _, _, _, .cons h hrest, hle => .cons (h.evaluates hle) (hrest.evaluates hle)

end

/-! ## One outcome, one denotation -/

mutual

theorem Evaluates.unique : ∀ {depth : Nat} {hint : Hint} {r r' : Except SchemaError TypeExpr},
    ns.Evaluates depth hint r → ns.Evaluates depth hint r' → r = r'
  | _, _, _, _, .text _ h, .text _ h' => h.unique h'
  | _, _, _, _, .expr _ h, .expr _ h' => h.unique h'
  | _, _, _, _, .tooDeep .., .tooDeep .. => rfl
  | _, _, _, _, .tooDeep _ hmax, .text hle _ | _, _, _, _, .text hle _, .tooDeep _ hmax
  | _, _, _, _, .tooDeep _ hmax, .expr hle _ | _, _, _, _, .expr hle _, .tooDeep _ hmax => by omega
  termination_by structural _ _ _ _ h => h

theorem EvaluatesText.unique : ∀ {depth : Nat} {source : String}
    {r r' : Except SchemaError TypeExpr},
    ns.EvaluatesText depth source r → ns.EvaluatesText depth source r' → r = r'
  | _, _, _, _, .malformed hparse, .malformed hparse' => by
    rw [Except.error.inj (hparse.symm.trans hparse')]
  | _, _, _, _, .malformed hparse, .term hparse' _
  | _, _, _, _, .term hparse _, .malformed hparse' => by cases hparse.symm.trans hparse'
  | _, _, _, _, .term hparse h, .term hparse' h' => by
    cases hparse.symm.trans hparse'
    exact h.unique h'
  termination_by structural _ _ _ _ h => h

theorem EvaluatesTerm.unique : ∀ {depth : Nat} {term : HintTerm}
    {r r' : Except SchemaError TypeExpr},
    ns.EvaluatesTerm depth term r → ns.EvaluatesTerm depth term r' → r = r'
  | _, _, _, _, .bound hn h, .bound hn' h' => by
    cases hn.symm.trans hn'
    exact h.unique h'
  | _, _, _, _, .bound hn _, .unbound hn'
  | _, _, _, _, .unbound hn, .bound hn' _ => by cases hn.symm.trans hn'
  | _, _, _, _, .unbound _, .unbound _ => rfl
  | _, _, _, _, .quoted h, .quoted h' => h.unique h'
  | _, _, _, _, .subscript h, .subscript h' => by rw [h.unique h']
  termination_by structural _ _ _ _ h => h

theorem EvaluatesTerms.unique : ∀ {depth : Nat} {terms : List HintTerm}
    {r r' : Except SchemaError (List TypeExpr)},
    ns.EvaluatesTerms depth terms r → ns.EvaluatesTerms depth terms r' → r = r'
  | _, _, _, _, .nil, .nil => rfl
  | _, _, _, _, .cons h hrest, .cons h' hrest' => by rw [h.unique h', hrest.unique hrest']
  termination_by structural _ _ _ _ h => h

theorem EvaluatesExpr.unique : ∀ {depth : Nat} {type : TypeExpr}
    {r r' : Except SchemaError TypeExpr},
    ns.EvaluatesExpr depth type r → ns.EvaluatesExpr depth type r' → r = r'
  | _, _, _, _, .forward h, .forward h' => h.unique h'
  | _, _, _, _, .union h, .union h' => by rw [h.unique h']
  | _, _, _, _, .generic h, .generic h' => by rw [h.unique h']
  | _, _, _, _, .cls, .cls => rfl
  | _, _, _, _, .noneType, .noneType => rfl
  | _, _, _, _, .aliasOf, .aliasOf => rfl
  termination_by structural _ _ _ _ h => h

theorem EvaluatesExprs.unique : ∀ {depth : Nat} {types : List TypeExpr}
    {r r' : Except SchemaError (List TypeExpr)},
    ns.EvaluatesExprs depth types r → ns.EvaluatesExprs depth types r' → r = r'
  | _, _, _, _, .nil, .nil => rfl
  | _, _, _, _, .cons h hrest, .cons h' hrest' => by rw [h.unique h', hrest.unique hrest']
  termination_by structural _ _ _ _ h => h

end

/-- The rules give each hint one outcome, that of its evaluation. -/
theorem evaluates_iff {hint : Hint} {r : Except SchemaError TypeExpr} :
    ns.Evaluates 0 hint r ↔ r = ns.eval hint := by
  constructor
  · intro h
    exact h.unique (ns.evaluates_eval hint)
  · rintro rfl
    exact ns.evaluates_eval hint

mutual

theorem DenotesWithin.unique : ∀ {steps steps' : Nat} {hint : Hint} {e e' : TypeExpr},
    ns.DenotesWithin steps hint e → ns.DenotesWithin steps' hint e' → e = e'
  | _, _, _, _, _, .text h, .text h' => h.unique h'
  | _, _, _, _, _, .expr h, .expr h' => h.unique h'
  termination_by structural _ _ _ _ _ h => h

theorem TextDenotes.unique : ∀ {steps steps' : Nat} {source : String} {e e' : TypeExpr},
    ns.TextDenotes steps source e → ns.TextDenotes steps' source e' → e = e'
  | _, _, _, _, _, .term hspelled h, .term hspelled' h' => by
    obtain rfl := hspelled.unique hspelled'
    exact h.unique h'
  termination_by structural _ _ _ _ _ h => h

theorem TermDenotes.unique : ∀ {steps steps' : Nat} {term : HintTerm} {e e' : TypeExpr},
    ns.TermDenotes steps term e → ns.TermDenotes steps' term e' → e = e'
  | _, _, _, _, _, .bound hn h, .bound hn' h' => by
    cases hn.symm.trans hn'
    exact h.unique h'
  | _, _, _, _, _, .bound hn _, .builtin hn' _ => by cases hn.symm.trans hn'
  | _, _, _, _, _, .builtin hn _, .bound hn' _ => by cases hn.symm.trans hn'
  | _, _, _, _, _, .builtin _ he, .builtin _ he' => Option.some.inj (he.symm.trans he')
  | _, _, _, _, _, .quoted h, .quoted h' => h.unique h'
  | _, _, _, _, _, .subscript hhead hargs hbuilds, .subscript hhead' hargs' hbuilds' => by
    cases hhead.symm.trans hhead'
    obtain rfl := hargs.unique hargs'
    exact hbuilds.unique hbuilds'
  termination_by structural _ _ _ _ _ h => h

theorem TermsDenote.unique : ∀ {steps steps' : Nat} {terms : List HintTerm}
    {types types' : List TypeExpr},
    ns.TermsDenote steps terms types → ns.TermsDenote steps' terms types' → types = types'
  | _, _, _, _, _, .nil, .nil => rfl
  | _, _, _, _, _, .cons h hrest, .cons h' hrest' => by rw [h.unique h', hrest.unique hrest']
  termination_by structural _ _ _ _ _ h => h

theorem ExprDenotes.unique : ∀ {steps steps' : Nat} {type e e' : TypeExpr},
    ns.ExprDenotes steps type e → ns.ExprDenotes steps' type e' → e = e'
  | _, _, _, _, _, .forward h, .forward h' => h.unique h'
  | _, _, _, _, _, .union h, .union h' => by rw [h.unique h']
  | _, _, _, _, _, .generic h, .generic h' => by rw [h.unique h']
  | _, _, _, _, _, .cls, .cls => rfl
  | _, _, _, _, _, .noneType, .noneType => rfl
  | _, _, _, _, _, .aliasOf, .aliasOf => rfl
  termination_by structural _ _ _ _ _ h => h

theorem ExprsDenote.unique : ∀ {steps steps' : Nat} {types es es' : List TypeExpr},
    ns.ExprsDenote steps types es → ns.ExprsDenote steps' types es' → es = es'
  | _, _, _, _, _, .nil, .nil => rfl
  | _, _, _, _, _, .cons h hrest, .cons h' hrest' => by rw [h.unique h', hrest.unique hrest']
  termination_by structural _ _ _ _ _ h => h

end

/-! ## Cycles of bindings -/

/-- The binding of a name asks for another name. -/
def Leads (ns : Namespace) (n m : String) : Prop := ∃ hint, ns.get? n = some hint ∧ hint.Asks m

/-- The bindings lead from a name back to itself. -/
def Cyclic (ns : Namespace) (n : String) : Prop := TransGen ns.Leads n n

/-- A hint asks for a name from which the bindings lead into a cycle. -/
def EntersCycle (ns : Namespace) (hint : Hint) : Prop :=
  ∃ n m, hint.Asks n ∧ ReflTransGen ns.Leads n m ∧ ns.Cyclic m

/-- A name is bound to a hint that denotes something. -/
def Means (ns : Namespace) (steps : Nat) (n : String) : Prop :=
  ∃ hint e, ns.get? n = some hint ∧ ns.DenotesWithin steps hint e

theorem TermsDenote.of_mem {terms : List HintTerm} {types : List TypeExpr} {term : HintTerm}
    (h : ns.TermsDenote steps terms types) (hmem : term ∈ terms) :
    ∃ e, ns.TermDenotes steps term e := by
  induction terms generalizing types with
  | nil => cases hmem
  | cons first rest ih =>
    cases h with
    | cons hfirst hrest =>
      rcases List.mem_cons.1 hmem with rfl | hmem
      · exact ⟨_, hfirst⟩
      · exact ih hrest hmem

theorem ExprsDenote.of_mem {types es : List TypeExpr} {type : TypeExpr}
    (h : ns.ExprsDenote steps types es) (hmem : type ∈ types) :
    ∃ e, ns.ExprDenotes steps type e := by
  induction types generalizing es with
  | nil => cases hmem
  | cons first rest ih =>
    cases h with
    | cons hfirst hrest =>
      rcases List.mem_cons.1 hmem with rfl | hmem
      · exact ⟨_, hfirst⟩
      · exact ih hrest hmem

/-- A name that a term asks for takes a step less than the term. -/
theorem TermDenotes.means {term : HintTerm} {e : TypeExpr} {n : String}
    (h : ns.TermDenotes steps term e) (hasks : term.Asks n) (hbound : ns.get? n ≠ none) :
    ∃ k < steps, ns.Means k n := by
  induction hasks generalizing steps e with
  | name n =>
    cases h with
    | bound hn h => exact ⟨_, Nat.lt_succ_self _, _, _, hn, h⟩
    | builtin hn => exact absurd hn hbound
  | quoted hspelled _ ih =>
    cases h with
    | quoted h =>
      cases h with
      | term hspelled' h =>
        obtain rfl := hspelled.unique hspelled'
        obtain ⟨k, hk, hmeans⟩ := ih h hbound
        exact ⟨k, Nat.lt_succ_of_lt hk, hmeans⟩
  | subscript hmem _ ih =>
    cases h with
    | subscript _ hargs _ =>
      obtain ⟨e, h⟩ := hargs.of_mem hmem
      exact ih h hbound

theorem TextDenotes.means {source n : String} {term : HintTerm} {e : TypeExpr}
    (h : ns.TextDenotes steps source e) (hspelled : HintTerm.Spelled source.toList term)
    (hasks : term.Asks n) (hbound : ns.get? n ≠ none) : ∃ k < steps, ns.Means k n := by
  cases h with
  | term hspelled' h =>
    obtain rfl := hspelled.unique hspelled'
    exact h.means hasks hbound

theorem ExprDenotes.means {type e : TypeExpr} {n : String} (h : ns.ExprDenotes steps type e)
    (hasks : type.Asks n) (hbound : ns.get? n ≠ none) : ∃ k < steps, ns.Means k n := by
  induction hasks generalizing steps e with
  | forward hspelled hasks =>
    cases h with
    | forward h =>
      obtain ⟨k, hk, hmeans⟩ := h.means hspelled hasks hbound
      exact ⟨k, Nat.lt_succ_of_lt hk, hmeans⟩
  | union hmem _ ih =>
    cases h with
    | union hmembers =>
      obtain ⟨e, h⟩ := hmembers.of_mem hmem
      exact ih h hbound
  | generic hmem _ ih =>
    cases h with
    | generic hargs =>
      obtain ⟨e, h⟩ := hargs.of_mem hmem
      exact ih h hbound

theorem DenotesWithin.means {hint : Hint} {e : TypeExpr} {n : String}
    (h : ns.DenotesWithin steps hint e) (hasks : hint.Asks n) (hbound : ns.get? n ≠ none) :
    ∃ k < steps, ns.Means k n := by
  cases hasks with
  | text hspelled hasks =>
    cases h with
    | text h => exact h.means hspelled hasks hbound
  | expr hasks =>
    cases h with
    | expr h => exact h.means hasks hbound

theorem ne_none_of_leads {n m : String} (h : ns.Leads n m) : ns.get? n ≠ none := by
  obtain ⟨hint, hn, -⟩ := h
  rw [hn]
  exact nofun

theorem ne_none_of_reflTransGen {n m : String} (h : ReflTransGen ns.Leads n m)
    (hm : ns.get? m ≠ none) : ns.get? n ≠ none := by
  rcases h.cases_head with rfl | ⟨_, hleads, _⟩
  · exact hm
  · exact ne_none_of_leads hleads

theorem Means.of_leads {n m : String} (h : ns.Means steps n) (hleads : ns.Leads n m)
    (hbound : ns.get? m ≠ none) : ∃ k < steps, ns.Means k m := by
  obtain ⟨hint, e, hn, h⟩ := h
  obtain ⟨hint', hn', hasks⟩ := hleads
  cases hn.symm.trans hn'
  exact h.means hasks hbound

theorem Means.of_reflTransGen {n m : String} (h : ns.Means steps n)
    (hleads : ReflTransGen ns.Leads n m) (hbound : ns.get? m ≠ none) :
    ∃ k ≤ steps, ns.Means k m := by
  induction hleads using ReflTransGen.head_induction_on generalizing steps with
  | refl => exact ⟨steps, le_rfl, h⟩
  | head hleads hrest ih =>
    obtain ⟨k, hk, h⟩ := h.of_leads hleads (ne_none_of_reflTransGen hrest hbound)
    obtain ⟨k', hk', h⟩ := ih h
    exact ⟨k', hk'.trans hk.le, h⟩

theorem Cyclic.ne_none {n : String} (h : ns.Cyclic n) : ns.get? n ≠ none := by
  obtain ⟨m, hleads, -⟩ := TransGen.head'_iff.1 h
  exact ne_none_of_leads hleads

/-- Once around a cycle the steps are fewer, so that no number of steps is enough. -/
theorem Cyclic.not_means {n : String} (hcyclic : ns.Cyclic n) (steps : Nat) :
    ¬ ns.Means steps n := by
  induction steps using Nat.strong_induction_on with
  | _ steps ih =>
    intro h
    obtain ⟨m, hleads, hrest⟩ := TransGen.head'_iff.1 hcyclic
    have hn := hcyclic.ne_none
    obtain ⟨k, hk, h⟩ := h.of_leads hleads (ne_none_of_reflTransGen hrest hn)
    obtain ⟨k', hk', h⟩ := h.of_reflTransGen hrest hn
    exact ih k' (by omega) h

/-- A hint that goes through a cycle of bindings denotes nothing. -/
theorem EntersCycle.not_denotes {hint : Hint} (h : ns.EntersCycle hint) (e : TypeExpr) :
    ¬ ns.Denotes hint e := by
  rintro ⟨steps, hd⟩
  obtain ⟨n, m, hasks, hleads, hcyclic⟩ := h
  have hm := hcyclic.ne_none
  obtain ⟨k, -, hmeans⟩ := hd.means hasks (ne_none_of_reflTransGen hleads hm)
  obtain ⟨k', -, hmeans⟩ := hmeans.of_reflTransGen hleads hm
  exact hcyclic.not_means k' hmeans

/-! ## Evaluation as a cut-off -/

/-- Every evaluation comes to an end with one outcome.  A type that it ends in is the one thing that
the hint denotes, whatever a hint denotes in no more steps than levels it evaluates to, and a hint
that enters a cycle of bindings evaluates to no type. -/
theorem eval_denotes (ns : Namespace) (hint : Hint) :
    (∀ r, ns.Evaluates 0 hint r ↔ r = ns.eval hint) ∧
    (∀ e, ns.eval hint = .ok e → ns.Denotes hint e ∧ ∀ e', ns.Denotes hint e' → e' = e) ∧
    (∀ e, ns.DenotesWithin maxDepth hint e → ns.eval hint = .ok e) ∧
    (ns.EntersCycle hint → ∀ e, ns.eval hint ≠ .ok e) := by
  have hsound : ∀ e, ns.eval hint = .ok e → ns.Denotes hint e := fun e he =>
    (ns.evaluates_eval hint).denotes he
  refine ⟨fun r => evaluates_iff, fun e he => ⟨hsound e he, ?_⟩, fun e hd => ?_, ?_⟩
  · rintro e' ⟨steps', hd'⟩
    obtain ⟨steps, hd⟩ := hsound e he
    exact hd'.unique hd
  · exact (evaluates_iff.1 (hd.evaluates (by omega))).symm
  · intro hcycle e he
    exact hcycle.not_denotes e (hsound e he)

end Namespace

namespace Sample

/-- Two names that stand for each other, and a name for a text in quotes. -/
def knotNames : Namespace :=
  ⟨[("Loop", .text "List[Knot]"), ("Knot", .text "Optional['Loop']"),
    ("Ages", .text "'List[int]'")]⟩

/-- The knot of names is never untied, while the ages are a list in two steps. -/
theorem eval_denotes_knot :
    (∀ e, knotNames.eval (.text "Union[int, Loop]") ≠ .ok e) ∧
    knotNames.eval (.text "Ages") = .ok (.generic .list [.cls .int]) ∧
    ∀ e, knotNames.Denotes (.text "Ages") e → e = .generic .list [.cls .int] := by
  have hints : HintTerm.parse "List[int]" = .ok (.subscript "List" [.name "int"]) := by cbv
  have hages : HintTerm.parse "'List[int]'" = .ok (.quoted "List[int]") := by cbv
  have hname : HintTerm.parse "Ages" = .ok (.name "Ages") := by cbv
  have hloop : HintTerm.parse "List[Knot]" = .ok (.subscript "List" [.name "Knot"]) := by cbv
  have hknot : HintTerm.parse "Optional['Loop']" =
      .ok (.subscript "Optional" [.quoted "Loop"]) := by cbv
  have hquoted : HintTerm.parse "Loop" = .ok (.name "Loop") := by cbv
  have hunion : HintTerm.parse "Union[int, Loop]" =
      .ok (.subscript "Union" [.name "int", .name "Loop"]) := by cbv
  have hto : knotNames.Leads "Loop" "Knot" := ⟨_, by cbv, .text (HintTerm.parse_iff.1 hloop)
    (.subscript List.mem_cons_self (.name "Knot"))⟩
  have hback : knotNames.Leads "Knot" "Loop" := ⟨_, by cbv, .text (HintTerm.parse_iff.1 hknot)
    (.subscript List.mem_cons_self (.quoted (HintTerm.parse_iff.1 hquoted) (.name "Loop")))⟩
  have hcycle : knotNames.EntersCycle (.text "Union[int, Loop]") :=
    ⟨"Loop", "Loop", .text (HintTerm.parse_iff.1 hunion)
      (.subscript (List.mem_cons_of_mem _ List.mem_cons_self) (.name "Loop")), .refl,
      .tail (.single hto) hback⟩
  have hwithin : knotNames.DenotesWithin 2 (.text "Ages") (.generic .list [.cls .int]) :=
    .text (.term (HintTerm.parse_iff.1 hname) (.bound (by cbv) (.text
      (.term (HintTerm.parse_iff.1 hages) (.quoted (.term (HintTerm.parse_iff.1 hints)
        (.subscript (by cbv) (.cons (.builtin (by cbv) (by cbv)) .nil) (.generic ..))))))))
  have heval := (knotNames.eval_denotes (.text "Ages")).2.2.1 _ (hwithin.mono (by decide))
  exact ⟨(knotNames.eval_denotes _).2.2.2 hcycle, heval,
    ((knotNames.eval_denotes _).2.1 _ heval).2⟩

end Sample

end HintSchema
