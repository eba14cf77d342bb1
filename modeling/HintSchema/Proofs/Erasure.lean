import HintSchema.Proofs.Outcome

/-!
# What hints as written leave behind

The hint that a type was written as and the place of its declaration are carried along when the type
is resolved, and take no part in it otherwise.  `ResolvedHint.erased` and `SchemaError.unplaced` drop
what was carried.  Resolved twice, beside any two hints and at any two places, a type gives what is
the same once that is dropped (`ResolvedHint.erased_eq_of_ofExpr`).
-/

namespace HintSchema

/-- The error without its place. -/
def SchemaError.unplaced : SchemaError → SchemaError
  | .untranslatable type _ => .untranslatable type none
  | .unnamedUnion members _ => .unnamedUnion members none
  | .ambiguousSequence type _ => .ambiguousSequence type none
  | .malformed hint reason _ => .malformed hint reason none
  | .unknownName name _ => .unknownName name none
  | other => other

/-! ## Two computations -/

section Concurs

variable {α α' β β' : Type} {V : α → α' → Prop} {W : β → β' → Prop}

/-- Two computations give values in a relation, or both fail with errors that differ at most in
their places. -/
inductive Concurs (V : α → α' → Prop) : Except SchemaError α → Except SchemaError α' → Prop
  | ok {a : α} {a' : α'} : V a a' → Concurs V (.ok a) (.ok a')
  | error {e e' : SchemaError} : e.unplaced = e'.unplaced → Concurs V (.error e) (.error e')

theorem Concurs.bind {x : Except SchemaError α} {x' : Except SchemaError α'}
    {f : α → Except SchemaError β} {f' : α' → Except SchemaError β'} (hx : Concurs V x x')
    (hf : ∀ {a a'}, V a a' → Concurs W (f a) (f' a')) : Concurs W (x >>= f) (x' >>= f') := by
  cases hx with
  | ok hV => exact hf hV
  | error he => exact .error he

end Concurs

/-! ## Erasure -/

/-- What a node carries, less the hint as written and the place. -/
def ResolvedHead.erased (head : ResolvedHead) : ResolvedHead := ⟨none, head.resolved, none⟩

namespace ResolvedHint

mutual

/-- The tree with the hint as written and the place of each node dropped. -/
def erased : ResolvedHint → ResolvedHint
  | .cls head c => .cls head.erased c
  | .list head element => .list head.erased element.erased
  | .optional head inner => .optional head.erased inner.erased
  | .union head members => .union head.erased (erasedAll members)
  | .aliasOf head base => .aliasOf head.erased base.erased

/-- The trees of a list, each erased. -/
def erasedAll : List ResolvedHint → List ResolvedHint
  | [] => []
  | ann :: rest => ann.erased :: erasedAll rest

end

theorem erased_belowAlias (ann : ResolvedHint) : ann.belowAlias.erased = ann.erased.belowAlias := by
  cases ann <;> rfl

theorem erased_overMembers (head : ResolvedHead) (members : List ResolvedHint) :
    (overMembers head members).erased = overMembers head.erased (erasedAll members) := by
  match members with
  | [] | [_] | _ :: _ :: _ => rfl

/-! ## Resolving a type twice -/

variable (origin origin' : Option Origin)

mutual

/-- What is carried along while a type is resolved makes no difference to what it resolves to. -/
theorem concurs_ofExpr (raw raw' : Option Hint) : ∀ e : TypeExpr,
    Concurs (fun ann ann' => ann.erased = ann'.erased) (ofExpr raw origin e) (ofExpr raw' origin' e)
  | .cls _ | .noneType => .ok rfl
  | .forward _ => .error rfl
  | .aliasOf _ _ supertype => by
    unfold ofExpr
    refine (concurs_ofExpr none none supertype).bind fun {base base'} hbase => .ok ?_
    rw [erased, erased]
    split_ifs
    · rw [erased_belowAlias, erased_belowAlias, hbase]
      rfl
    · rw [hbase]
      rfl
  | .generic _ [element] => by
    unfold ofExpr
    dsimp only
    split_ifs
    · refine (concurs_ofExpr _ _ element).bind fun {inner inner'} hinner => .ok ?_
      rw [erased, erased, hinner]
      rfl
    · exact .error rfl
  | .generic _ [] => by
    unfold ofExpr
    split_ifs <;> exact .error rfl
  | .generic _ (_ :: _ :: _) => by
    rw [ofExpr, ofExpr]
    · split_ifs <;> exact .error rfl
    all_goals simp
  | .union members => by
    unfold ofExpr
    dsimp only
    split_ifs
    · exact .error rfl
    all_goals
      refine (concurs_ofMembers _ _ members).bind fun {inners inners'} hinners => .ok ?_
      simp only [erased, erased_overMembers, hinners, ResolvedHead.erased]

theorem concurs_ofMembers (raws raws' : List (Option Hint)) : ∀ es : List TypeExpr,
    Concurs (fun anns anns' => erasedAll anns = erasedAll anns') (ofMembers raws origin es)
      (ofMembers raws' origin' es)
  | [] => .ok rfl
  | e :: rest => by
    unfold ofMembers
    split_ifs
    · exact concurs_ofMembers raws raws' rest
    · refine (concurs_ofExpr _ _ e).bind fun hann => ?_
      refine (concurs_ofMembers _ _ rest).bind fun hanns => .ok ?_
      rw [erasedAll, erasedAll, hann, hanns]

end

/-- Resolved beside any two hints as written and at any two places, a type gives trees that are equal
but for these, or is refused twice for one reason. -/
theorem erased_eq_of_ofExpr (e : TypeExpr) (raw raw' : Option Hint) :
    (∃ ann ann', ofExpr raw origin e = .ok ann ∧ ofExpr raw' origin' e = .ok ann' ∧
      ann.erased = ann'.erased) ∨
    ∃ err err', ofExpr raw origin e = .error err ∧ ofExpr raw' origin' e = .error err' ∧
      err.unplaced = err'.unplaced := by
  have hconcurs := concurs_ofExpr origin origin' raw raw' e
  generalize ofExpr raw origin e = x at hconcurs ⊢
  generalize ofExpr raw' origin' e = x' at hconcurs ⊢
  cases hconcurs with
  | ok hann => exact .inl ⟨_, _, rfl, rfl, hann⟩
  | error herr => exact .inr ⟨_, _, rfl, rfl, herr⟩

end ResolvedHint

end HintSchema
