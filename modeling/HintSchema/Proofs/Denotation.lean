import HintSchema.Proofs.Depth

/-!
# What hints evaluate to, by rules

`Namespace.Evaluates` gives the evaluation of hints by rules that know no fuel: only the depth stops
an evaluation that goes through bindings again and again.  `Namespace.eval` follows the rules on
every hint, whatever the bindings are (`evaluates_eval`).
-/

namespace HintSchema

namespace Namespace

variable {ns : Namespace} {fuel depth : Nat}

mutual

/-- The outcomes of evaluating a hint at a depth. -/
inductive Evaluates (ns : Namespace) : Nat → Hint → Except SchemaError TypeExpr → Prop
  | tooDeep {depth : Nat} (hint : Hint) :
      maxDepth < depth → Evaluates ns depth hint (.error (.malformed hint.shown .recursiveAlias none))
  | text {depth : Nat} {source : String} {r : Except SchemaError TypeExpr} :
      depth ≤ maxDepth → EvaluatesText ns depth source r → Evaluates ns depth (.text source) r
  | expr {depth : Nat} {type : TypeExpr} {r : Except SchemaError TypeExpr} :
      depth ≤ maxDepth → EvaluatesExpr ns depth type r → Evaluates ns depth (.expr type) r

/-- The outcomes of evaluating a text. -/
inductive EvaluatesText (ns : Namespace) : Nat → String → Except SchemaError TypeExpr → Prop
  | malformed {depth : Nat} {source : String} {reason : Malformation} :
      HintTerm.parse source = .error reason →
      EvaluatesText ns depth source (.error (.malformed source reason none))
  | term {depth : Nat} {source : String} {term : HintTerm} {r : Except SchemaError TypeExpr} :
      HintTerm.parse source = .ok term → EvaluatesTerm ns depth term r →
      EvaluatesText ns depth source r

/-- The outcomes of evaluating a term: a bound name and a quoted part go one level deeper. -/
inductive EvaluatesTerm (ns : Namespace) : Nat → HintTerm → Except SchemaError TypeExpr → Prop
  | bound {depth : Nat} {n : String} {hint : Hint} {r : Except SchemaError TypeExpr} :
      ns.get? n = some hint → Evaluates ns (depth + 1) hint r → EvaluatesTerm ns depth (.name n) r
  | unbound {depth : Nat} {n : String} :
      ns.get? n = none → EvaluatesTerm ns depth (.name n) (HintTerm.evalUnbound n)
  | quoted {depth : Nat} {source : String} {r : Except SchemaError TypeExpr} :
      EvaluatesText ns (depth + 1) source r → EvaluatesTerm ns depth (.quoted source) r
  | subscript {depth : Nat} {head : String} {args : List HintTerm}
      {types : Except SchemaError (List TypeExpr)} :
      EvaluatesTerms ns depth args types → EvaluatesTerm ns depth (.subscript head args)
        (types >>= HintTerm.evalSubscript (HintTerm.text (.subscript head args)) head)

/-- The outcomes of evaluating the terms of a list, the first failure winning. -/
inductive EvaluatesTerms (ns : Namespace) :
    Nat → List HintTerm → Except SchemaError (List TypeExpr) → Prop
  | nil {depth : Nat} : EvaluatesTerms ns depth [] (.ok [])
  | cons {depth : Nat} {term : HintTerm} {rest : List HintTerm}
      {type : Except SchemaError TypeExpr} {types : Except SchemaError (List TypeExpr)} :
      EvaluatesTerm ns depth term type → EvaluatesTerms ns depth rest types →
      EvaluatesTerms ns depth (term :: rest) (do return (← type) :: (← types))

/-- The outcomes of resolving the references in a type: a text in it goes one level deeper. -/
inductive EvaluatesExpr (ns : Namespace) : Nat → TypeExpr → Except SchemaError TypeExpr → Prop
  | forward {depth : Nat} {source : String} {r : Except SchemaError TypeExpr} :
      EvaluatesText ns (depth + 1) source r → EvaluatesExpr ns depth (.forward source) r
  | union {depth : Nat} {members : List TypeExpr} {types : Except SchemaError (List TypeExpr)} :
      EvaluatesExprs ns depth members types →
      EvaluatesExpr ns depth (.union members) (types.map TypeExpr.unionOf)
  | generic {depth : Nat} {kind : GenericKind} {args : List TypeExpr}
      {types : Except SchemaError (List TypeExpr)} :
      EvaluatesExprs ns depth args types →
      EvaluatesExpr ns depth (.generic kind args) (types.map (.generic kind))
  | cls {depth : Nat} {c : ClassRef} : EvaluatesExpr ns depth (.cls c) (.ok (.cls c))
  | noneType {depth : Nat} : EvaluatesExpr ns depth .noneType (.ok .noneType)
  | aliasOf {depth id : Nat} {name : String} {supertype : TypeExpr} :
      EvaluatesExpr ns depth (.aliasOf id name supertype) (.ok (.aliasOf id name supertype))

/-- The outcomes of resolving the references in the types of a list, the first failure winning. -/
inductive EvaluatesExprs (ns : Namespace) :
    Nat → List TypeExpr → Except SchemaError (List TypeExpr) → Prop
  | nil {depth : Nat} : EvaluatesExprs ns depth [] (.ok [])
  | cons {depth : Nat} {e : TypeExpr} {rest : List TypeExpr}
      {type : Except SchemaError TypeExpr} {types : Except SchemaError (List TypeExpr)} :
      EvaluatesExpr ns depth e type → EvaluatesExprs ns depth rest types →
      EvaluatesExprs ns depth (e :: rest) (do return (← type) :: (← types))

end

/-! ## Following the rules -/

/-- Whatever a name is bound to is evaluated by the rules from a depth on. -/
def Binds (ns : Namespace) (fuel depth : Nat) : Prop :=
  ∀ d, depth ≤ d → ∀ n hint, ns.get? n = some hint →
    ns.Evaluates (d + 1) hint (ns.evalHint fuel (d + 1) hint)

theorem Binds.deeper {d : Nat} (h : ns.Binds fuel depth) (hd : depth ≤ d) : ns.Binds fuel d :=
  fun d' hd' => h d' (hd.trans hd')

mutual

theorem evaluates_term {quoted : String → Except SchemaError TypeExpr}
    (hbinds : ns.Binds fuel depth) : ∀ (term : HintTerm),
    (∀ source ∈ term.quotes, ns.EvaluatesText (depth + 1) source (quoted source)) →
    ns.EvaluatesTerm depth term (term.eval (ns.bindingAt fuel depth) quoted)
  | .name n, _ => by
    rw [HintTerm.eval, bindingAt]
    cases hn : ns.get? n with
    | none => exact .unbound hn
    | some hint => exact .bound hn (hbinds depth le_rfl n hint hn)
  | .quoted source, hquoted => .quoted (hquoted source List.mem_cons_self)
  | .subscript head args, hquoted => by
    rw [HintTerm.eval]
    exact .subscript (evaluates_terms hbinds args hquoted)

theorem evaluates_terms {quoted : String → Except SchemaError TypeExpr}
    (hbinds : ns.Binds fuel depth) : ∀ (terms : List HintTerm),
    (∀ source ∈ HintTerm.quotesOf terms, ns.EvaluatesText (depth + 1) source (quoted source)) →
    ns.EvaluatesTerms depth terms (HintTerm.evalAll (ns.bindingAt fuel depth) quoted terms)
  | [], _ => .nil
  | term :: rest, hquoted => by
    rw [HintTerm.evalAll]
    exact .cons (evaluates_term hbinds term fun s hs => hquoted s (List.mem_append_left _ hs))
      (evaluates_terms hbinds rest fun s hs => hquoted s (List.mem_append_right _ hs))

end

/-- The fuel for quotes is enough, as a quoted part is shorter than its text. -/
theorem evaluates_evalText {steps : Nat} {source : String} (hbinds : ns.Binds fuel depth)
    (hsteps : source.toList.length < steps) :
    ns.EvaluatesText depth source (evalText (ns.bindingAt fuel) steps depth source) := by
  induction steps generalizing depth source with
  | zero => omega
  | succ steps ih =>
    rw [evalText]
    split
    · rename_i reason hparse
      exact .malformed hparse
    · rename_i term hparse
      have hdeeper := hbinds.deeper (Nat.le_succ depth)
      refine .term hparse (evaluates_term hbinds term fun s hs => ih hdeeper ?_)
      have hlt := HintTerm.length_of_mem_quotes (HintTerm.parse_iff.1 hparse) hs
      omega

theorem evaluates_evalSource (hbinds : ns.Binds fuel depth) (source : String) :
    ns.EvaluatesText depth source (evalSource (ns.bindingAt fuel) depth source) :=
  evaluates_evalText hbinds (Nat.lt_succ_self _)

mutual

theorem evaluates_evalExpr (hbinds : ns.Binds fuel depth) : ∀ (e : TypeExpr),
    ns.EvaluatesExpr depth e (evalExpr (ns.bindingAt fuel) depth e)
  | .forward source => by
    rw [evalExpr]
    exact .forward (evaluates_evalSource (hbinds.deeper (Nat.le_succ depth)) source)
  | .union members => by
    rw [evalExpr]
    exact .union (evaluates_evalExprs hbinds members)
  | .generic kind args => by
    rw [evalExpr]
    exact .generic (evaluates_evalExprs hbinds args)
  | .cls _ => .cls
  | .noneType => .noneType
  | .aliasOf .. => .aliasOf

theorem evaluates_evalExprs (hbinds : ns.Binds fuel depth) : ∀ (es : List TypeExpr),
    ns.EvaluatesExprs depth es (evalExprs (ns.bindingAt fuel) depth es)
  | [] => .nil
  | e :: rest => by
    rw [evalExprs]
    exact .cons (evaluates_evalExpr hbinds e) (evaluates_evalExprs hbinds rest)

end

theorem evaluates_evalWith (hbinds : ns.Binds fuel depth) (hdepth : depth ≤ maxDepth)
    (hint : Hint) : ns.Evaluates depth hint (evalWith (ns.bindingAt fuel) depth hint) := by
  cases hint with
  | text source => exact .text hdepth (evaluates_evalSource hbinds source)
  | expr type => exact .expr hdepth (evaluates_evalExpr hbinds type)

/-- With a step of fuel for each level that is left, a hint is evaluated by the rules. -/
theorem evaluates_evalHint (hfuel : maxDepth + 1 ≤ fuel + depth) (hint : Hint) :
    ns.Evaluates depth hint (ns.evalHint fuel depth hint) := by
  induction fuel generalizing depth hint with
  | zero => exact .tooDeep hint (by omega)
  | succ fuel ih =>
    rw [evalHint_succ]
    split_ifs with hmax
    · exact .tooDeep hint hmax
    · exact evaluates_evalWith (fun d hd _ hint _ => ih (by omega) hint) (by omega) hint

theorem evaluates_eval (ns : Namespace) (hint : Hint) : ns.Evaluates 0 hint (ns.eval hint) :=
  evaluates_evalHint (by omega) hint

end Namespace

end HintSchema
