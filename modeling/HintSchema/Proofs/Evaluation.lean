import HintSchema.Proofs.Declarations
import HintSchema.Proofs.Outcome

/-!
# Types that hints evaluate to

Evaluation only puts together what a hint and the bindings mention, with unions built by
`TypeExpr.unionOf`, so a hint over the declarations of a well-formed environment evaluates to a
normal type over them (`BuildEnv.WellFormed.proper_of_eval`).  Both follow from one induction over
evaluation, for any property of types that putting types together keeps (`TypeExpr.EvalClosed`).
-/

namespace HintSchema

/-- A normal type over declarations. -/
structure TypeExpr.Proper (h : Hierarchy) (aliases : AliasTable) (e : TypeExpr) : Prop where
  declared : e.Over h aliases
  normal : e.Normal

namespace TypeExpr

variable {h : Hierarchy} {aliases : AliasTable} {e : TypeExpr} {es : List TypeExpr}
  {seen : List TypeKey}

/-! ## Unions -/

theorem mem_of_mem_distinct (he : e ∈ distinct seen es) : e ∈ es := by
  induction es generalizing seen with
  | nil => simp [distinct] at he
  | cons d rest ih =>
    unfold distinct at he
    split_ifs at he
    · exact List.mem_cons_of_mem _ (ih he)
    · rcases List.mem_cons.1 he with rfl | he
      · exact List.mem_cons_self
      · exact List.mem_cons_of_mem _ (ih he)

theorem key_not_mem_of_mem_distinct (he : e ∈ distinct seen es) : e.key ∉ seen := by
  induction es generalizing seen with
  | nil => simp [distinct] at he
  | cons d rest ih =>
    unfold distinct at he
    split_ifs at he with hs
    · exact ih he
    · rcases List.mem_cons.1 he with rfl | he
      · exact hs
      · exact fun hmem => ih he (List.mem_cons_of_mem _ hmem)

theorem nodup_keys_distinct (seen : List TypeKey) (es : List TypeExpr) :
    (keys (distinct seen es)).Nodup := by
  induction es generalizing seen with
  | nil => simp [distinct, keys]
  | cons d rest ih =>
    unfold distinct
    split_ifs with hs
    · exact ih seen
    · rw [keys, List.nodup_cons]
      refine ⟨fun hmem => ?_, ih _⟩
      rw [keys_eq_map, List.mem_map] at hmem
      obtain ⟨e, he, hk⟩ := hmem
      exact key_not_mem_of_mem_distinct he (hk ▸ List.mem_cons_self)

theorem Normal.members (hn : e.Normal) : ∀ m ∈ e.members, m.Normal ∧ m.isUnion = false := by
  intro m hm
  cases e with
  | union ms =>
    obtain ⟨hall, hflat, -, -⟩ := hn
    exact ⟨normalAll_iff.1 hall m hm, hflat m hm⟩
  | _ =>
    obtain rfl := List.mem_singleton.1 hm
    exact ⟨hn, rfl⟩

theorem Over.members (ho : e.Over h aliases) : ∀ m ∈ e.members, m.Over h aliases := by
  intro m hm
  cases e with
  | union ms => exact overAll_iff.1 ho m hm
  | _ =>
    obtain rfl := List.mem_singleton.1 hm
    exact ho

theorem Proper.members (hp : e.Proper h aliases) :
    ∀ m ∈ e.members, m.Proper h aliases ∧ m.isUnion = false := fun m hm =>
  ⟨⟨hp.declared.members m hm, (hp.normal.members m hm).1⟩, (hp.normal.members m hm).2⟩

theorem members_eq_self (hunion : e.isUnion = false) : e.members = [e] := by
  cases e with
  | union => cases hunion
  | _ => rfl

theorem collapse_of_length (h : es.length ≠ 1) : collapse es = union es := by
  match es with
  | [_] => exact absurd rfl h
  | [] | _ :: _ :: _ => rfl

theorem normal_collapse (hes : ∀ e ∈ es, e.Normal ∧ e.isUnion = false)
    (hnodup : (es.map key).Nodup) : (collapse es).Normal := by
  match es with
  | [only] => exact (hes only List.mem_cons_self).1
  | [] => exact ⟨trivial, by simp, List.nodup_nil, by simp⟩
  | e :: e' :: rest =>
    refine ⟨normalAll_iff.2 fun e he => (hes e he).1, fun e he => (hes e he).2, ?_, by simp⟩
    rwa [keys_eq_map]

theorem normal_unionOf (hes : ∀ e ∈ es, e.Normal) : (unionOf es).Normal := by
  refine normal_collapse (fun m hm => ?_) ?_
  · obtain ⟨e, he, hme⟩ := List.mem_flatMap.1 (mem_of_mem_distinct hm)
    exact (hes e he).members m hme
  · rw [← keys_eq_map]
    exact nodup_keys_distinct [] _

theorem over_unionOf (hes : ∀ e ∈ es, e.Over h aliases) : (unionOf es).Over h aliases := by
  have hflat : ∀ m ∈ distinct [] (es.flatMap TypeExpr.members), m.Over h aliases := by
    intro m hm
    obtain ⟨e, he, hme⟩ := List.mem_flatMap.1 (mem_of_mem_distinct hm)
    exact (hes e he).members m hme
  unfold unionOf
  generalize distinct [] (es.flatMap TypeExpr.members) = ms at hflat
  match ms with
  | [only] => exact hflat only List.mem_cons_self
  | [] | _ :: _ :: _ => exact overAll_iff.2 hflat

theorem proper_unionOf (hes : ∀ e ∈ es, e.Proper h aliases) : (unionOf es).Proper h aliases :=
  ⟨over_unionOf fun e he => (hes e he).declared, normal_unionOf fun e he => (hes e he).normal⟩

theorem proper_noneType : noneType.Proper h aliases := ⟨trivial, trivial⟩

theorem Proper.optional (hp : e.Proper h aliases) : e.optional.Proper h aliases := by
  refine proper_unionOf fun e' he' => ?_
  rcases List.mem_cons.1 he' with rfl | he'
  · exact hp
  · exact List.mem_singleton.1 he' ▸ proper_noneType

theorem proper_generic (kind : GenericKind) (hes : ∀ e ∈ es, e.Proper h aliases) :
    (generic kind es).Proper h aliases :=
  ⟨overAll_iff.2 fun e he => (hes e he).declared, normalAll_iff.2 fun e he => (hes e he).normal⟩

end TypeExpr

/-! ## Evaluation -/

/-- A property of types that evaluation keeps when it puts types together, and that built-in types
have. -/
structure TypeExpr.EvalClosed (P : TypeExpr → Prop) : Prop where
  union : ∀ {es}, (∀ e ∈ es, P e) → P (unionOf es)
  generic : ∀ {kind es}, (∀ e ∈ es, P e) → P (generic kind es)
  noneType : P noneType
  builtin : ∀ {name e}, builtin? name = some e → P e

namespace TypeExpr

theorem evalClosed_normal : EvalClosed Normal where
  union := normal_unionOf
  generic hes := normalAll_iff.2 hes
  noneType := trivial
  builtin {name e} he := by
    unfold builtin? at he
    split_ifs at he <;> cases he <;> trivial

mutual

/-- The classes and the aliases of a type, those inside the supertypes of aliases apart, have a
property. -/
def Leaves (P : TypeExpr → Prop) : TypeExpr → Prop
  | .cls c => P (.cls c)
  | .aliasOf id name supertype => P (.aliasOf id name supertype)
  | .union members => LeavesAll P members
  | .generic _ args => LeavesAll P args
  | .noneType | .forward _ => True

def LeavesAll (P : TypeExpr → Prop) : List TypeExpr → Prop
  | [] => True
  | e :: rest => e.Leaves P ∧ LeavesAll P rest

end

mutual

theorem leaves_of_forall {P : TypeExpr → Prop} (hcls : ∀ c, P (.cls c))
    (halias : ∀ id name s, P (.aliasOf id name s)) : ∀ e : TypeExpr, e.Leaves P
  | .cls c => hcls c
  | .aliasOf id name s => halias id name s
  | .union members => leavesAll_of_forall hcls halias members
  | .generic _ args => leavesAll_of_forall hcls halias args
  | .noneType | .forward _ => trivial

theorem leavesAll_of_forall {P : TypeExpr → Prop} (hcls : ∀ c, P (.cls c))
    (halias : ∀ id name s, P (.aliasOf id name s)) : ∀ es : List TypeExpr, LeavesAll P es
  | [] => trivial
  | e :: rest => ⟨leaves_of_forall hcls halias e, leavesAll_of_forall hcls halias rest⟩

end

mutual

theorem leaves_of_over {h : Hierarchy} {aliases : AliasTable} :
    ∀ e : TypeExpr, e.Over h aliases → e.Leaves (Proper h aliases)
  | .cls _, ho | .aliasOf .., ho => ⟨ho, trivial⟩
  | .union members, ho => leavesAll_of_over members ho
  | .generic _ args, ho => leavesAll_of_over args ho
  | .noneType, _ | .forward _, _ => trivial

theorem leavesAll_of_over {h : Hierarchy} {aliases : AliasTable} :
    ∀ es : List TypeExpr, OverAll h aliases es → LeavesAll (Proper h aliases) es
  | [], _ => trivial
  | e :: rest, ho => ⟨leaves_of_over e ho.1, leavesAll_of_over rest ho.2⟩

end

end TypeExpr

/-- The classes and the aliases of a hint have a property. -/
def Hint.Leaves (P : TypeExpr → Prop) : Hint → Prop
  | .text _ => True
  | .expr type => type.Leaves P

/-- The outcome is a type with a property, or an error. -/
def Results (P : TypeExpr → Prop) (r : Except SchemaError TypeExpr) : Prop :=
  ∀ e, r = .ok e → P e

section Results

variable {P : TypeExpr → Prop}

namespace HintTerm

theorem results_evalUnbound (hP : TypeExpr.EvalClosed P) (name : String) :
    Results P (evalUnbound name) := by
  intro e he
  rw [evalUnbound] at he
  split at he
  · rename_i type htype
    cases he
    exact hP.builtin htype
  · split at he <;> cases he

theorem results_evalSubscript {term head : String} {args : List TypeExpr}
    (hP : TypeExpr.EvalClosed P) (hargs : ∀ e ∈ args, P e) :
    Results P (evalSubscript term head args) := by
  intro e he
  unfold evalSubscript at he
  split at he
  · match args with
    | [inner] =>
      cases he
      refine hP.union fun e he => ?_
      rcases List.mem_cons.1 he with rfl | he
      · exact hargs e List.mem_cons_self
      · exact List.mem_singleton.1 he ▸ hP.noneType
    | [] | _ :: _ :: _ => cases he
  · cases he
    exact hP.union hargs
  · cases he
    exact hP.generic hargs
  · cases he

mutual

theorem results_eval {bound : String → Option (Except SchemaError TypeExpr)}
    {quoted : String → Except SchemaError TypeExpr} (hP : TypeExpr.EvalClosed P)
    (hbound : ∀ n r, bound n = some r → Results P r) (hquoted : ∀ s, Results P (quoted s)) :
    ∀ term : HintTerm, Results P (term.eval bound quoted)
  | .name n => by
    unfold eval
    cases hb : bound n with
    | none => exact results_evalUnbound hP n
    | some r => exact hbound n r hb
  | .quoted source => hquoted source
  | .subscript head args => by
    intro e he
    unfold eval at he
    obtain ⟨types, htypes, he⟩ := ok_of_bind he
    exact results_evalSubscript hP (forall_of_evalAll hP hbound hquoted args types htypes) e he

theorem forall_of_evalAll {bound : String → Option (Except SchemaError TypeExpr)}
    {quoted : String → Except SchemaError TypeExpr} (hP : TypeExpr.EvalClosed P)
    (hbound : ∀ n r, bound n = some r → Results P r) (hquoted : ∀ s, Results P (quoted s)) :
    ∀ (terms : List HintTerm) (types : List TypeExpr), evalAll bound quoted terms = .ok types →
      ∀ e ∈ types, P e
  | [], types, heval => by
    cases heval
    simp
  | term :: rest, types, heval => by
    unfold evalAll at heval
    obtain ⟨type, htype, heval⟩ := ok_of_bind heval
    obtain ⟨others, hothers, heval⟩ := ok_of_bind heval
    cases heval
    intro e he
    rcases List.mem_cons.1 he with rfl | he
    · exact results_eval hP hbound hquoted term e htype
    · exact forall_of_evalAll hP hbound hquoted rest others hothers e he

end

end HintTerm

namespace Namespace

variable {lookup : Lookup}

theorem results_evalText (hP : TypeExpr.EvalClosed P)
    (hlookup : ∀ d n r, lookup d n = some r → Results P r) (fuel depth : Nat) (source : String) :
    Results P (evalText lookup fuel depth source) := by
  induction fuel generalizing depth source with
  | zero =>
    intro e he
    cases he
  | succ fuel ih =>
    unfold evalText
    split
    · intro e he
      cases he
    · exact HintTerm.results_eval hP (hlookup depth) (ih (depth + 1)) _

mutual

theorem results_evalExpr (hP : TypeExpr.EvalClosed P)
    (hlookup : ∀ d n r, lookup d n = some r → Results P r) (depth : Nat) :
    ∀ type : TypeExpr, type.Leaves P → Results P (evalExpr lookup depth type)
  | .forward source, _ => by
    unfold evalExpr
    exact results_evalText hP hlookup _ _ source
  | .union members, hl => by
    intro e he
    unfold evalExpr at he
    obtain ⟨types, htypes, he⟩ := ok_of_bind he
    cases he
    exact hP.union (forall_of_evalExprs hP hlookup depth members hl types htypes)
  | .generic kind args, hl => by
    intro e he
    unfold evalExpr at he
    obtain ⟨types, htypes, he⟩ := ok_of_bind he
    cases he
    exact hP.generic (forall_of_evalExprs hP hlookup depth args hl types htypes)
  | .cls c, hl => by
    intro e he
    cases he
    exact hl
  | .noneType, _ => by
    intro e he
    cases he
    exact hP.noneType
  | .aliasOf id name supertype, hl => by
    intro e he
    cases he
    exact hl

theorem forall_of_evalExprs (hP : TypeExpr.EvalClosed P)
    (hlookup : ∀ d n r, lookup d n = some r → Results P r) (depth : Nat) :
    ∀ types : List TypeExpr, TypeExpr.LeavesAll P types →
      ∀ results, evalExprs lookup depth types = .ok results → ∀ e ∈ results, P e
  | [], _, results, heval => by
    cases heval
    simp
  | type :: rest, hl, results, heval => by
    unfold evalExprs at heval
    obtain ⟨result, hresult, heval⟩ := ok_of_bind heval
    obtain ⟨others, hothers, heval⟩ := ok_of_bind heval
    cases heval
    intro e he
    rcases List.mem_cons.1 he with rfl | he
    · exact results_evalExpr hP hlookup depth type hl.1 e hresult
    · exact forall_of_evalExprs hP hlookup depth rest hl.2 others hothers e he

end

theorem results_evalHint {ns : Namespace} (hP : TypeExpr.EvalClosed P)
    (hns : ∀ {name hint}, ns.get? name = some hint → hint.Leaves P) (fuel depth : Nat)
    {hint : Hint} (hl : hint.Leaves P) : Results P (ns.evalHint fuel depth hint) := by
  induction fuel generalizing depth hint with
  | zero =>
    intro e he
    cases he
  | succ fuel ih =>
    unfold evalHint
    split_ifs with hdepth
    · intro e he
      cases he
    · have hlookup : ∀ d n r, ((ns.get? n).map (ns.evalHint fuel (d + 1))) = some r →
          Results P r := by
        intro d n r hr
        obtain ⟨bound, hbound, rfl⟩ := Option.map_eq_some_iff.1 hr
        exact ih _ (hns hbound)
      cases hint with
      | text source => exact results_evalText hP hlookup _ _ _
      | expr type => exact results_evalExpr hP hlookup _ type hl

end Namespace

end Results

/-! ## What hints evaluate to -/

/-- Hints evaluate to normal types. -/
theorem Namespace.normal_of_eval {ns : Namespace} {hint : Hint} {e : TypeExpr}
    (he : ns.eval hint = .ok e) : e.Normal := by
  have hleaves : ∀ hint : Hint, hint.Leaves TypeExpr.Normal := by
    intro hint
    cases hint with
    | text _ => trivial
    | expr type => exact TypeExpr.leaves_of_forall (fun _ => trivial) (fun _ _ _ => trivial) type
  exact results_evalHint TypeExpr.evalClosed_normal (fun _ => hleaves _) _ _ (hleaves hint) e he

namespace BuildEnv.WellFormed

variable {env : BuildEnv} {aliases : AliasTable}

theorem evalClosed_proper (hw : env.WellFormed aliases) :
    TypeExpr.EvalClosed (TypeExpr.Proper env.hierarchy aliases) where
  union := TypeExpr.proper_unionOf
  generic := TypeExpr.proper_generic _
  noneType := TypeExpr.proper_noneType
  builtin {name e} he := by
    have hcls : ∀ c, Hierarchy.builtin.Has c → (TypeExpr.cls c).Proper env.hierarchy aliases :=
      fun c hc => ⟨hw.hierarchy.has_builtin hc, trivial⟩
    unfold TypeExpr.builtin? at he
    split_ifs at he <;> cases he
    · exact hcls _ ⟨_, rfl, rfl⟩
    · exact hcls _ ⟨_, rfl, rfl⟩
    · exact hcls _ ⟨_, rfl, rfl⟩
    · exact hcls _ ⟨_, rfl, rfl⟩
    · exact TypeExpr.proper_noneType
    · exact ⟨hw.identifier, trivial⟩
    · exact hcls _ ⟨_, rfl, rfl⟩

theorem proper_of_eval (hw : env.WellFormed aliases) {hint : Hint} {e : TypeExpr}
    (ho : hint.Over env.hierarchy aliases) (he : env.ns.eval hint = .ok e) :
    e.Proper env.hierarchy aliases := by
  have hleaves : ∀ {hint : Hint}, hint.Over env.hierarchy aliases →
      hint.Leaves (TypeExpr.Proper env.hierarchy aliases) := by
    intro hint ho
    cases hint with
    | text _ => trivial
    | expr type => exact TypeExpr.leaves_of_over type ho
  exact Namespace.results_evalHint hw.evalClosed_proper (fun hb => hleaves (hw.bindings hb)) _ _
    (hleaves ho) e he

end BuildEnv.WellFormed

end HintSchema
