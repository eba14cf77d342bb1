import HintSchema.Proofs.Unnamed

/-!
# Places of errors

Evaluating a hint fails without a place (`Namespace.failsOnly_eval`).  Resolving a hint fails at the
place of its declaration, and what it resolves to carries that place everywhere
(`ResolvedHint.Located`), so that translating it fails at the same place, however much of it was
translated before (`BuildEnv.failsOnly_translate`).
-/

namespace HintSchema

variable {α β : Type} {E E' : SchemaError → Prop}

/-! ## Failures with a property -/

/-- A computation fails with errors that have a property, if it fails. -/
def FailsOnly (E : SchemaError → Prop) (r : Except SchemaError α) : Prop := ∀ e, r = .error e → E e

theorem failsOnly_ok (a : α) : FailsOnly E (.ok a) := by
  intro e he
  cases he

theorem failsOnly_error {e : SchemaError} (he : E e) : FailsOnly E (.error e : Except _ α) := by
  rintro _ ⟨⟩
  exact he

theorem FailsOnly.mono {r : Except SchemaError α} (h : FailsOnly E r) (hE : ∀ e, E e → E' e) :
    FailsOnly E' r := fun e he => hE e (h e he)

theorem FailsOnly.bind {x : Except SchemaError α} {f : α → Except SchemaError β}
    (hx : FailsOnly E x) (hf : ∀ a, x = .ok a → FailsOnly E (f a)) : FailsOnly E (x >>= f) := by
  cases x with
  | error e => exact failsOnly_error (hx e rfl)
  | ok a => exact hf a rfl

namespace Build

/-- In whatever graph, a build step fails with errors that have a property, if it fails. -/
def FailsOnly (E : SchemaError → Prop) (m : Build α) : Prop :=
  ∀ g, HintSchema.FailsOnly E (m.exec g).1

variable {m : Build α} {f : α → Build β}

theorem failsOnly_pure (a : α) : FailsOnly E (pure a : Build α) := fun _ => failsOnly_ok a

theorem failsOnly_throw {e : SchemaError} (he : E e) : FailsOnly E (throw e : Build α) :=
  fun _ => failsOnly_error he

theorem failsOnly_modify (change : Graph → Graph) : FailsOnly E (modify change : Build Unit) :=
  fun _ => failsOnly_ok ()

theorem FailsOnly.bind (hm : FailsOnly E m) (hf : ∀ a, FailsOnly E (f a)) :
    FailsOnly E (m >>= f) := by
  intro g
  rcases h : m.exec g with ⟨e | a, g'⟩
  · rw [exec_bind_error h]
    have he := hm g
    rw [h] at he
    exact failsOnly_error (he e rfl)
  · rw [exec_bind_ok h]
    exact hf a g'

theorem failsOnly_get_bind {f : Graph → Build β} (hf : ∀ g, FailsOnly E (f g)) :
    FailsOnly E ((get : Build Graph) >>= f) := by
  intro g
  rw [exec_get_bind]
  exact hf g g

end Build

/-! ## Places -/

namespace SchemaError

/-- Whether an error is of a kind that carries the place of a declaration. -/
def takesSite : SchemaError → Bool
  | .untranslatable .. | .unnamedUnion .. | .ambiguousSequence .. | .malformed ..
  | .unknownName .. => true
  | .missingFieldHint .. | .invalidUnionMember .. | .invalidRoot .. | .conflictingTypeName _
  | .notExecutable => false

/-- An error of such a kind carries the given place, or none. -/
def At (o : Option Origin) (e : SchemaError) : Prop := e.takesSite = true → e.site = o

/-- An error of such a kind carries a place with a property. -/
def PlacedIn (D : Origin → Prop) (e : SchemaError) : Prop :=
  e.takesSite = true → ∃ o, e.site = some o ∧ D o

variable {e : SchemaError} {o : Origin} {D : Origin → Prop}

theorem PlacedIn.mono {D' : Origin → Prop} (h : e.PlacedIn D) (hD : ∀ o, D o → D' o) :
    e.PlacedIn D' := by
  intro htakes
  obtain ⟨o, ho, hdecl⟩ := h htakes
  exact ⟨o, ho, hD o hdecl⟩

/-- The place that is attached to an error without one. -/
theorem At.locatedAt (h : e.At none) (o : Option Origin) : (e.locatedAt o).At o := by
  cases e with
  | untranslatable | unnamedUnion | ambiguousSequence | malformed | unknownName =>
    intro _
    obtain rfl := h rfl
    rfl
  | missingFieldHint | invalidUnionMember | invalidRoot | conflictingTypeName | notExecutable =>
    intro htakes
    cases htakes

end SchemaError

/-! ## Evaluating -/

open SchemaError (At PlacedIn)

theorem at_malformed (hint : String) (reason : Malformation) (o : Option Origin) :
    At o (.malformed hint reason o) := fun _ => rfl

namespace HintTerm

theorem failsOnly_evalUnbound (name : String) : FailsOnly (At none) (evalUnbound name) := by
  rw [evalUnbound]
  split
  · exact failsOnly_ok _
  · split
    · exact failsOnly_error (at_malformed _ _ none)
    · exact failsOnly_error fun _ => rfl

theorem failsOnly_evalSubscript (term head : String) (args : List TypeExpr) :
    FailsOnly (At none) (evalSubscript term head args) := by
  unfold evalSubscript
  split
  · split
    · exact failsOnly_ok _
    · exact failsOnly_error (at_malformed _ _ none)
  · exact failsOnly_ok _
  · exact failsOnly_ok _
  · exact failsOnly_error (at_malformed _ _ none)

mutual

theorem failsOnly_eval {bound : String → Option (Except SchemaError TypeExpr)}
    {quoted : String → Except SchemaError TypeExpr}
    (hbound : ∀ n r, bound n = some r → FailsOnly (At none) r)
    (hquoted : ∀ s, FailsOnly (At none) (quoted s)) :
    ∀ term : HintTerm, FailsOnly (At none) (term.eval bound quoted)
  | .name n => by
    unfold eval
    cases hb : bound n with
    | none => exact failsOnly_evalUnbound n
    | some r => exact hbound n r hb
  | .quoted source => by
    unfold eval
    exact hquoted source
  | .subscript head args => by
    unfold eval
    exact (failsOnly_evalAll hbound hquoted args).bind fun types _ =>
      failsOnly_evalSubscript _ head types

theorem failsOnly_evalAll {bound : String → Option (Except SchemaError TypeExpr)}
    {quoted : String → Except SchemaError TypeExpr}
    (hbound : ∀ n r, bound n = some r → FailsOnly (At none) r)
    (hquoted : ∀ s, FailsOnly (At none) (quoted s)) :
    ∀ terms : List HintTerm, FailsOnly (At none) (evalAll bound quoted terms)
  | [] => failsOnly_ok []
  | term :: rest => by
    unfold evalAll
    exact (failsOnly_eval hbound hquoted term).bind fun type _ =>
      (failsOnly_evalAll hbound hquoted rest).bind fun types _ => failsOnly_ok _

end

end HintTerm

namespace Namespace

variable {lookup : Lookup}

theorem failsOnly_evalText (hlookup : ∀ d n r, lookup d n = some r → FailsOnly (At none) r)
    (fuel depth : Nat) (source : String) :
    FailsOnly (At none) (evalText lookup fuel depth source) := by
  induction fuel generalizing depth source with
  | zero => exact failsOnly_error (at_malformed _ _ none)
  | succ fuel ih =>
    unfold evalText
    split
    · exact failsOnly_error (at_malformed _ _ none)
    · exact HintTerm.failsOnly_eval (hlookup depth) (ih (depth + 1)) _

mutual

theorem failsOnly_evalExpr (hlookup : ∀ d n r, lookup d n = some r → FailsOnly (At none) r)
    (depth : Nat) : ∀ type : TypeExpr, FailsOnly (At none) (evalExpr lookup depth type)
  | .forward source => by
    unfold evalExpr
    exact failsOnly_evalText hlookup _ _ source
  | .union members => by
    unfold evalExpr
    exact (failsOnly_evalExprs hlookup depth members).bind fun types _ => failsOnly_ok _
  | .generic kind args => by
    unfold evalExpr
    exact (failsOnly_evalExprs hlookup depth args).bind fun types _ => failsOnly_ok _
  | .cls c => failsOnly_ok _
  | .noneType => failsOnly_ok _
  | .aliasOf id name supertype => failsOnly_ok _

theorem failsOnly_evalExprs (hlookup : ∀ d n r, lookup d n = some r → FailsOnly (At none) r)
    (depth : Nat) : ∀ types : List TypeExpr, FailsOnly (At none) (evalExprs lookup depth types)
  | [] => failsOnly_ok []
  | type :: rest => by
    unfold evalExprs
    exact (failsOnly_evalExpr hlookup depth type).bind fun result _ =>
      (failsOnly_evalExprs hlookup depth rest).bind fun results _ => failsOnly_ok _

end

/-- A failure of an evaluation has no place. -/
theorem failsOnly_evalHint (ns : Namespace) (fuel depth : Nat) (hint : Hint) :
    FailsOnly (At none) (ns.evalHint fuel depth hint) := by
  induction fuel generalizing depth hint with
  | zero => exact failsOnly_error (at_malformed _ _ none)
  | succ fuel ih =>
    unfold evalHint
    split_ifs with hdepth
    · exact failsOnly_error (at_malformed _ _ none)
    · have hlookup : ∀ d n r, ((ns.get? n).map (ns.evalHint fuel (d + 1))) = some r →
          FailsOnly (At none) r := by
        intro d n r hr
        obtain ⟨bound, -, rfl⟩ := Option.map_eq_some_iff.1 hr
        exact ih _ _
      cases hint with
      | text source => exact failsOnly_evalText hlookup _ _ _
      | expr type => exact failsOnly_evalExpr hlookup _ type

theorem failsOnly_eval (ns : Namespace) (hint : Hint) : FailsOnly (At none) (ns.eval hint) :=
  ns.failsOnly_evalHint _ _ hint

end Namespace

/-! ## Resolving -/

namespace ResolvedHint

/-- All parts of a resolved hint carry a place. -/
inductive Located (o : Option Origin) : ResolvedHint → Prop
  | cls {head : ResolvedHead} {c : ClassRef} : head.origin = o → Located o (.cls head c)
  | list {head : ResolvedHead} {element : ResolvedHint} :
      head.origin = o → Located o element → Located o (.list head element)
  | optional {head : ResolvedHead} {inner : ResolvedHint} :
      head.origin = o → Located o inner → Located o (.optional head inner)
  | union {head : ResolvedHead} {members : List ResolvedHint} :
      head.origin = o → (∀ m ∈ members, Located o m) → Located o (.union head members)
  | aliasOf {head : ResolvedHead} {base : ResolvedHint} :
      head.origin = o → Located o base → Located o (.aliasOf head base)

variable {o origin : Option Origin} {ann : ResolvedHint}

theorem Located.belowAlias (h : ann.Located o) : ann.belowAlias.Located o := by
  cases h with
  | aliasOf _ hbase => exact hbase
  | cls ho => exact .cls ho
  | list ho he => exact .list ho he
  | optional ho hi => exact .optional ho hi
  | union ho hm => exact .union ho hm

theorem located_overMembers {head : ResolvedHead} {members : List ResolvedHint}
    (ho : head.origin = o) (hm : ∀ m ∈ members, Located o m) :
    (overMembers head members).Located o := by
  match members with
  | [only] => exact hm only List.mem_cons_self
  | [] | _ :: _ :: _ => exact .union ho hm

mutual

theorem failsOnly_ofExpr : ∀ (e : TypeExpr) (raw : Option Hint),
    FailsOnly (At origin) (ofExpr raw origin e)
  | .cls c, _ => failsOnly_ok _
  | .noneType, _ => failsOnly_ok _
  | .forward source, _ => failsOnly_error (at_malformed _ _ origin)
  | .aliasOf id name supertype, _ => by
    unfold ofExpr
    exact (failsOnly_ofExpr supertype none).bind fun base _ => failsOnly_ok _
  | .generic kind [element], raw => by
    unfold ofExpr
    split_ifs
    · exact (failsOnly_ofExpr element (Hint.unwrap? raw)).bind fun inner _ => failsOnly_ok _
    · exact failsOnly_error (at_malformed _ _ origin)
  | .generic kind [], _ => by
    unfold ofExpr
    split_ifs <;> exact failsOnly_error (at_malformed _ _ origin)
  | .generic kind (_ :: _ :: _), _ => by
    rw [ofExpr]
    · split_ifs
      · exact failsOnly_error fun _ => rfl
      · exact failsOnly_error (at_malformed _ _ origin)
    all_goals simp
  | .union es, raw => by
    unfold ofExpr
    dsimp only
    split_ifs
    · exact failsOnly_error (at_malformed _ _ origin)
    all_goals exact (failsOnly_ofMembers es _).bind fun members _ => failsOnly_ok _

theorem failsOnly_ofMembers : ∀ (es : List TypeExpr) (raws : List (Option Hint)),
    FailsOnly (At origin) (ofMembers raws origin es)
  | [], _ => failsOnly_ok []
  | e :: rest, raws => by
    unfold ofMembers
    split_ifs
    · exact failsOnly_ofMembers rest raws
    · exact (failsOnly_ofExpr e raws.head?.join).bind fun ann _ =>
        (failsOnly_ofMembers rest raws.tail).bind fun anns _ => failsOnly_ok _

end

mutual

theorem located_of_ofExpr : ∀ {e : TypeExpr} {raw : Option Hint} {ann : ResolvedHint},
    ofExpr raw origin e = .ok ann → ann.Located origin
  | .forward _, _, _, h => by cases h
  | .cls c, _, _, h => by
    cases h
    exact .cls rfl
  | .noneType, _, _, h => by
    cases h
    exact .cls rfl
  | .aliasOf id name supertype, _, _, h => by
    unfold ofExpr at h
    obtain ⟨base, hbase, h⟩ := ok_of_bind h
    cases h
    have hlocated := located_of_ofExpr hbase
    refine .aliasOf rfl ?_
    split_ifs
    · exact hlocated.belowAlias
    · exact hlocated
  | .generic kind [element], _, _, h => by
    unfold ofExpr at h
    split_ifs at h
    obtain ⟨inner, hinner, h⟩ := ok_of_bind h
    cases h
    exact .list rfl (located_of_ofExpr hinner)
  | .generic kind [], _, _, h => by
    unfold ofExpr at h
    split_ifs at h
  | .generic kind (_ :: _ :: _), _, _, h => by
    rw [ofExpr] at h
    · split_ifs at h
    all_goals simp
  | .union es, _, _, h => by
    unfold ofExpr at h
    dsimp only at h
    split_ifs at h <;> obtain ⟨members, hmembers, h⟩ := ok_of_bind h <;>
      have hover := fun (head : ResolvedHead) (ho : head.origin = origin) =>
        located_overMembers ho (located_of_ofMembers hmembers) <;> cases h
    · exact .optional rfl (hover _ rfl)
    · exact hover _ rfl

theorem located_of_ofMembers : ∀ {es : List TypeExpr} {raws : List (Option Hint)}
    {members : List ResolvedHint}, ofMembers raws origin es = .ok members →
      ∀ m ∈ members, m.Located origin
  | [], _, _, h => by
    cases h
    exact List.forall_mem_nil _
  | e :: rest, _, _, h => by
    unfold ofMembers at h
    split_ifs at h
    · exact located_of_ofMembers h
    · obtain ⟨ann, hann, h⟩ := ok_of_bind h
      obtain ⟨anns, hanns, h⟩ := ok_of_bind h
      cases h
      exact List.forall_mem_cons.2 ⟨located_of_ofExpr hann, located_of_ofMembers hanns⟩

end

end ResolvedHint

/-! ## Translating -/

namespace BuildEnv

variable {env : BuildEnv} {ann : ResolvedHint} {o : Option Origin}

theorem failsOnly_mapScalar (c : ClassRef) (s : ScalarType) : Build.FailsOnly E (mapScalar c s) := by
  rw [mapScalar]
  refine Build.failsOnly_get_bind fun g => ?_
  split
  · exact Build.failsOnly_pure _
  · exact fun _ => failsOnly_ok _

/-- A class is refused only when it has neither a type of its own nor a scalar. -/
theorem failsOnly_translate_cls (head : ResolvedHead) (c : ClassRef) :
    Build.FailsOnly (fun e => e = .untranslatable c.name head.origin ∧
      env.hierarchy.kind? c = none ∧ env.scalars.lookup c = none) (env.translate (.cls head c)) := by
  rw [translate_cls, memoized]
  refine Build.failsOnly_get_bind fun g => ?_
  split
  · exact Build.failsOnly_pure _
  · refine Build.FailsOnly.bind (.bind ?_ fun t => Build.failsOnly_pure _) fun t =>
      (Build.failsOnly_modify _).bind fun _ => Build.failsOnly_pure t
    rw [mapClass]
    split
    · exact fun _ => failsOnly_ok _
    · rename_i hnode
      split
      · exact failsOnly_mapScalar _ _
      · rename_i hlookup
        refine Build.failsOnly_throw ⟨rfl, ?_, hlookup⟩
        rw [← map_kind_classNode, hnode]
        rfl

end BuildEnv

end HintSchema
