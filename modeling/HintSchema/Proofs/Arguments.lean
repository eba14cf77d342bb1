import HintSchema.Proofs.Conformity
import HintSchema.Proofs.Echo
import HintSchema.Proofs.Omission
import HintSchema.Request.Execution

/-!
# Arguments of methods

A field of a method is run with the arguments of a request, which may leave some out: a nullable one
is then absent, and one with a default has it.  No argument is ever missing or left over for the
method (`BuildEnv.resolveField_method`).  But a default that a document shows does not reach the
method itself: what its literal becomes does, and the two are the same only for defaults that are
kept (`Schema.KeepsDefault`), as are those of built-in scalars and enumerations that some literal
becomes (`Schema.keepsDefault_of_coerces`).
-/

namespace HintSchema

/-! ## Binding -/

namespace Method

/-- The arguments for all parameters, next to those that are given. -/
inductive Completes : List Param → Args → Args → Prop
  | nil : Completes [] [] []
  | given {p : Param} {params : List Param} {kwargs bound : Args} (v : Value) :
      Completes params kwargs bound →
      Completes (p :: params) ((p.name, v) :: kwargs) ((p.name, v) :: bound)
  | omitted {p : Param} {params : List Param} {kwargs bound : Args} {v : Value} :
      p.default = some v → Completes params kwargs bound →
      Completes (p :: params) kwargs ((p.name, v) :: bound)

variable {m : Method} {params : List Param} {kwargs bound before : Args}

theorem Completes.sublist (h : Completes params kwargs bound) :
    (Keyed.keys kwargs).Sublist (params.map Param.name) := by
  induction h with
  | nil => exact .slnil
  | given _ _ ih => exact ih.cons_cons _
  | omitted _ _ ih => exact ih.cons _

/-- An argument of a new name goes behind those that are bound. -/
theorem put_of_nodup {name : String} {names : List String}
    (h : (Keyed.keys before ++ name :: names).Nodup) (v : Value) :
    Keyed.put before name v = before ++ [(name, v)] ∧
      (Keyed.keys (before ++ [(name, v)]) ++ names).Nodup := by
  constructor
  · exact Keyed.put_of_not_mem fun hmem =>
      List.disjoint_of_nodup_append h hmem List.mem_cons_self
  · rwa [Keyed.keys, List.map_append, List.append_assoc]

/-- The arguments for all parameters are bound, and none is left over. -/
theorem Completes.bindParams_eq (h : Completes params kwargs bound)
    (hnames : (Keyed.keys before ++ params.map Param.name).Nodup) (callee : String) :
    bindParams callee params before kwargs = .ok (before ++ bound, []) := by
  induction h generalizing before with
  | nil => rw [bindParams, List.append_nil]
  | @given p params kwargs bound v _ ih =>
    obtain ⟨hput, hrest⟩ := put_of_nodup hnames v
    rw [bindParams, Keyed.get?_cons, if_pos rfl]
    dsimp only
    rw [hput, Keyed.erase, if_pos rfl, ih hrest, List.append_assoc, List.singleton_append]
  | @omitted p params kwargs bound v hdefault h ih =>
    obtain ⟨hput, hrest⟩ := put_of_nodup hnames v
    have hnot : p.name ∉ Keyed.keys kwargs := fun hmem =>
      (List.nodup_cons.1 (List.nodup_append.1 hnames).2.1).1 (h.sublist.subset hmem)
    rw [bindParams, Keyed.get?_eq_none_iff.2 hnot, hdefault]
    dsimp only
    rw [hput, ih hrest, List.append_assoc, List.singleton_append]

theorem Completes.bind_eq (h : Completes m.params kwargs bound)
    (hnames : (m.params.map Param.name).Nodup) : m.bind kwargs = .ok bound := by
  have hnames : (Keyed.keys ([] : Args) ++ m.params.map Param.name).Nodup := hnames
  rw [Method.bind, h.bindParams_eq hnames, List.nil_append]

/-- Two computations with one outcome, but that the first one completes the arguments that the
second one gives. -/
def Completing (params : List Param) (full part : Eval Args) : Prop :=
  ∀ i,
    match full i with
    | .error e => part i = .error e
    | .ok (bound, j) => ∃ kwargs, part i = .ok (kwargs, j) ∧ Completes params kwargs bound

namespace Completing

variable {full part : Eval Args} {p : Param}

theorem nil : Completing [] (pure []) (pure []) := fun _ => ⟨[], rfl, .nil⟩

theorem given (h : Completing params full part) (value : Eval Value) :
    Completing (p :: params) (do let v ← value; let bound ← full; return (p.name, v) :: bound)
      (do let v ← value; let kwargs ← part; return (p.name, v) :: kwargs) := by
  intro i
  cases hvalue : value i with
  | error e =>
    rw [eval_bind_error hvalue]
    exact eval_bind_error hvalue _
  | ok q =>
    rw [eval_bind_ok hvalue, eval_bind_ok hvalue]
    have hq := h q.2
    cases hfull : full q.2 with
    | error e =>
      rw [hfull] at hq
      rw [eval_bind_error hfull]
      exact eval_bind_error hq _
    | ok b =>
      rw [hfull] at hq
      obtain ⟨kwargs, hkwargs, hcompletes⟩ := hq
      rw [eval_bind_ok hfull]
      exact ⟨(p.name, q.1) :: kwargs, eval_bind_ok hkwargs _, .given q.1 hcompletes⟩

theorem omitted (h : Completing params full part) {v : Value} (hdefault : p.default = some v) :
    Completing (p :: params) (do let bound ← full; return (p.name, v) :: bound) part := by
  intro i
  have hi := h i
  cases hfull : full i with
  | error e =>
    rw [hfull] at hi
    rw [eval_bind_error hfull]
    exact hi
  | ok b =>
    rw [hfull] at hi
    obtain ⟨kwargs, hkwargs, hcompletes⟩ := hi
    rw [eval_bind_ok hfull]
    exact ⟨kwargs, hkwargs, .omitted hdefault hcompletes⟩

/-- Binding the arguments that are given makes up for the difference. -/
theorem bind_eq (h : Completing m.params full part) (hnames : (m.params.map Param.name).Nodup) :
    (do let kwargs ← part; liftM (m.bind kwargs)) = full := by
  funext i
  have hi := h i
  cases hfull : full i with
  | error e =>
    rw [hfull] at hi
    exact eval_bind_error hi _
  | ok b =>
    rw [hfull] at hi
    obtain ⟨kwargs, hkwargs, hcompletes⟩ := hi
    rw [eval_bind_ok hkwargs, hcompletes.bind_eq hnames]
    rfl

end Completing

end Method

/-! ## Failures -/

/-- Whether a failure is that of a call without an argument that it needs, or with another one. -/
def Failure.isArgument : Failure → Bool
  | .missingArgument _ _ | .unexpectedArgument _ _ => true
  | _ => false

/-- A computation that fails does so for another reason than the arguments of a call. -/
def SparesArguments {α : Type} (x : Eval α) : Prop := ∀ i e, x i = .error e → e.isArgument = false

section SparesArguments

variable {α β : Type}

theorem sparesArguments_pure (a : α) : SparesArguments (pure a) := nofun

theorem sparesArguments_freshIdent : SparesArguments freshIdent := nofun

theorem sparesArguments_throw {e : Failure} (he : e.isArgument = false) :
    SparesArguments (throw e : Eval α) := by
  rintro _ _ ⟨⟩
  exact he

theorem sparesArguments_liftM {x : Except Failure α}
    (h : ∀ e, x = .error e → e.isArgument = false) : SparesArguments (liftM x : Eval α) := by
  intro i e he
  cases x with
  | ok a => cases he
  | error e' =>
    cases he
    exact h e rfl

theorem SparesArguments.bind {x : Eval α} {f : α → Eval β} (hx : SparesArguments x)
    (hf : ∀ a, SparesArguments (f a)) : SparesArguments (x >>= f) := by
  intro i e he
  cases hxi : x i with
  | error e' =>
    rw [eval_bind_error hxi] at he
    cases he
    exact hx i e hxi
  | ok p =>
    rw [eval_bind_ok hxi] at he
    exact hf p.1 p.2 e he

end SparesArguments

namespace ScalarCodec

mutual

theorem isArgument_of_parsePlain {lead : String} {e : Failure} :
    ∀ w, parsePlain lead w = .error e → e.isArgument = false
  | .list items, h => by
    rw [parsePlain] at h
    cases hvs : parsePlainAll lead items with
    | ok vs =>
      rw [hvs] at h
      cases h
    | error e' =>
      rw [hvs] at h
      cases h
      exact isArgument_of_parsePlainAll items hvs
  | .null, h | .bool _, h => by
    rw [parsePlain] at h
    cases h
  | .number n, h => by
    rw [parsePlain] at h
    split at h <;> cases h
  | .str s, h => by
    rw [parsePlain] at h
    split_ifs at h
    cases h
    rfl
  | .object entries, h => by
    rw [parsePlain] at h
    cases h
    rfl

theorem isArgument_of_parsePlainAll {lead : String} {e : Failure} :
    ∀ ws, parsePlainAll lead ws = .error e → e.isArgument = false
  | [], h => by
    rw [parsePlainAll] at h
    cases h
  | w :: rest, h => by
    rw [parsePlainAll] at h
    cases hv : parsePlain lead w with
    | error e' =>
      rw [hv] at h
      cases h
      exact isArgument_of_parsePlain w hv
    | ok v =>
      rw [hv] at h
      cases hvs : parsePlainAll lead rest with
      | ok vs =>
        rw [hvs] at h
        cases h
      | error e' =>
        rw [hvs] at h
        cases h
        exact isArgument_of_parsePlainAll rest hvs

end

theorem sparesArguments_parseValue (codec : ScalarCodec) (w : Wire) :
    SparesArguments (codec.parseValue w) := by
  cases codec with
  | int =>
    simp only [parseValue]
    split
    · split_ifs
      · exact sparesArguments_pure _
      · exact sparesArguments_throw rfl
    · exact sparesArguments_throw rfl
  | float | string | boolean =>
    simp only [parseValue]
    split
    · exact sparesArguments_pure _
    · exact sparesArguments_throw rfl
  | plain lead => exact sparesArguments_liftM fun e => isArgument_of_parsePlain w
  | payload name c shape =>
    simp only [parseValue]
    split
    · exact sparesArguments_freshIdent.bind fun _ => sparesArguments_pure _
    · exact sparesArguments_throw rfl

end ScalarCodec

theorem ScalarHooks.sparesArguments_parseLiteral (hooks : ScalarHooks) (l : Literal) :
    SparesArguments (hooks.parseLiteral l) := by
  unfold parseLiteral
  split_ifs
  · split
    · exact sparesArguments_pure _
    · exact sparesArguments_throw rfl
  · split
    · exact hooks.codec.sparesArguments_parseValue _
    · exact sparesArguments_throw rfl

theorem EnumType.isArgument_of_parseLiteral {enum : EnumType} {l : Literal} {e : Failure}
    (h : enum.parseLiteral l = .error e) : e.isArgument = false := by
  have hname : ∀ {name}, enum.parseName name = .error e → e.isArgument = false := by
    intro name h
    unfold parseName at h
    split at h
    · cases h
      rfl
    · split at h <;> cases h
      rfl
  cases l with
  | enum name | str name => exact hname h
  | null | bool | number | binary | list | object =>
    cases h
    rfl

namespace Schema

variable {world : World} {s : Schema} {n : NodeRef} {l : Literal} {t : TypeRef} {v : Value}

theorem sparesArguments_coerceLeaf (n : NodeRef) (l : Literal) :
    SparesArguments (s.coerceLeaf n l) := by
  unfold coerceLeaf
  split
  · split_ifs
    · exact sparesArguments_pure _
    · exact ScalarHooks.sparesArguments_parseLiteral _ _
  · exact ScalarHooks.sparesArguments_parseLiteral _ _
  · exact sparesArguments_liftM fun e => EnumType.isArgument_of_parseLiteral
  · exact sparesArguments_throw rfl
  · exact sparesArguments_throw rfl

theorem sparesArguments_coerceItems {items : List Literal}
    (h : ∀ l ∈ items, SparesArguments (coerceInput world s l t)) :
    SparesArguments (coerceItems world s items t) := by
  induction items with
  | nil => exact sparesArguments_pure _
  | cons l rest ih =>
    rw [coerceItems_cons]
    obtain ⟨hl, hrest⟩ := List.forall_mem_cons.1 h
    exact hl.bind fun _ => (ih hrest).bind fun _ => sparesArguments_pure _

theorem exists_of_mem_shown {vs : List Value} {ls : List Literal}
    (h : vs.mapM (s.defaultLiteral t) = some ls) (hl : l ∈ ls) :
    ∃ v, s.defaultLiteral t v = some l := by
  induction vs generalizing ls with
  | nil =>
    cases h
    cases hl
  | cons v rest ih =>
    rw [List.mapM_cons, Option.bind_eq_bind, Option.bind_eq_some_iff] at h
    obtain ⟨l', hl', h⟩ := h
    rw [Option.bind_eq_bind, Option.bind_eq_some_iff] at h
    obtain ⟨ls', hls', h⟩ := h
    cases h
    rcases List.mem_cons.1 hl with rfl | hl
    · exact ⟨v, hl'⟩
    · exact ih hls' hl

theorem sparesArguments_null (t : TypeRef) : SparesArguments (coerceInput world s .null t) := by
  rw [coerceInput_null]
  exact sparesArguments_pure _

theorem defaultLiteral_null (t : TypeRef) : s.defaultLiteral t .null = some .null :=
  have hnull : Echoes ⟨.builtin, {}⟩ .builtin s t .null .null := echoes_null t
  hnull.shown

theorem ne_null_of_shown (h : s.defaultLiteral t v = some l) (hl : l ≠ .null) : v ≠ .null := by
  rintro rfl
  rw [defaultLiteral_null] at h
  exact hl (Option.some.inj h).symm

/-- Of the values that are there only lists have a literal for a type of lists. -/
theorem exists_of_defaultLiteral_list (h : s.defaultLiteral (.list t) v = some l) (hv : v ≠ .null) :
    ∃ (vs : List Value) (ls : List Literal), vs.mapM (s.defaultLiteral t) = some ls ∧
      l = .list ls := by
  cases v with
  | null => exact absurd rfl hv
  | list vs =>
    rw [defaultLiteral] at h
    obtain ⟨ls, hls, rfl⟩ := Option.map_eq_some_iff.1 h
    exact ⟨vs, ls, hls, rfl⟩
  | bool | int | float | str | object | enum | sealed => simp [defaultLiteral] at h

/-- The literal of a default is read without a record being constructed. -/
theorem sparesArguments_shown (h : s.defaultLiteral t v = some l) :
    SparesArguments (coerceInput world s l t) := by
  induction t generalizing v l with
  | nonNull t ih =>
    rw [coerceInput_nonNull]
    exact ih h
  | named n =>
    by_cases hl : l = .null
    · exact hl ▸ sparesArguments_null _
    · rw [defaultLiteral_named (ne_null_of_shown h hl)] at h
      have hleaf : ∀ c fields, s.body n ≠ .input c fields := by
        intro c fields hbody
        rw [leafLiteral, hbody] at h
        cases h
      rw [coerceInput_named hl fun _ c fields _ => hleaf c fields]
      exact sparesArguments_coerceLeaf n l
  | list t ih =>
    by_cases hl : l = .null
    · exact hl ▸ sparesArguments_null _
    · obtain ⟨vs, ls, hls, rfl⟩ := exists_of_defaultLiteral_list h (ne_null_of_shown h hl)
      rw [coerceInput_list]
      refine (sparesArguments_coerceItems fun l hl => ?_).bind fun _ => sparesArguments_pure _
      obtain ⟨v, hv⟩ := exists_of_mem_shown hls hl
      exact ih hv

/-! ## Arguments of a field -/

variable {literalOf : ArgumentDef → Option Literal} {args : List (String × Literal)}
  {declared : List (String × ArgumentDef)} {p : String × ArgumentDef} {params : List Param}
  {i j : Nat}

/-- The value of an argument: that of its literal in the request, or else of the literal of its
default, or else the default itself, which is absent if there is none. -/
def argValue (world : World) (s : Schema) (literalOf : ArgumentDef → Option Literal)
    (args : List (String × Literal)) (p : String × ArgumentDef) : Eval Value :=
  match (Keyed.get? args p.1).or (literalOf p.2) with
  | some l => coerceInput world s l p.2.type
  | none => pure (p.2.default.getD .null)

/-- The values of all arguments in the order of their declarations. -/
def allArgs (world : World) (s : Schema) (literalOf : ArgumentDef → Option Literal)
    (args : List (String × Literal)) (declared : List (String × ArgumentDef)) : Eval Args :=
  declared.mapM fun p => do return (p.1, ← s.argValue world literalOf args p)

/-- The arguments with their own defaults. -/
def nativeArgs (world : World) (s : Schema) (args : List (String × Literal))
    (declared : List (String × ArgumentDef)) : Eval Args :=
  s.allArgs world (fun _ => none) args declared

/-- Arguments that a field can be run with: all that it declares are accepted, and those that are
neither nullable nor have a default are among them. -/
structure Supplies (world : World) (s : Schema) (args : List (String × Literal))
    (declared : List (String × ArgumentDef)) : Prop where
  accepted : ∀ p ∈ declared, ∀ l, Keyed.get? args p.1 = some l → s.Accepts world l p.2.type
  required : ∀ p ∈ declared, p.2.type.isNonNull = true → p.2.default = none →
    p.1 ∈ Keyed.keys args

/-- A default is what any literal that shows it becomes. -/
def KeepsDefault (world : World) (s : Schema) (a : ArgumentDef) : Prop :=
  ∀ v l, a.default = some v → s.shownDefault a = some l →
    coerceInput world s l a.type = pure v

/-- An argument of the name and the default of a parameter. -/
def Declares (p : Param) (a : String × ArgumentDef) : Prop :=
  a.1 = p.name ∧ a.2.default = p.default

theorem keys_of_declares (h : List.Forall₂ Declares params declared) :
    Keyed.keys declared = params.map Param.name := by
  rw [eq_comm, Keyed.keys, ← List.forall₂_eq_eq_eq, List.forall₂_map_left_iff,
    List.forall₂_map_right_iff]
  exact h.imp fun _ _ h => h.1.symm

theorem allArgs_cons (p : String × ArgumentDef) (rest : List (String × ArgumentDef)) :
    s.allArgs world literalOf args (p :: rest) = (do
      let v ← s.argValue world literalOf args p
      let bound ← s.allArgs world literalOf args rest
      return (p.1, v) :: bound) := by
  rw [allArgs, List.mapM_cons]
  simp only [bind_assoc, pure_bind]
  rfl

/-- A default that no literal shows is left to the method. -/
theorem fieldArgs_cons_left {v : Value}
    (hget : (Keyed.get? args p.1).or (s.shownDefault p.2) = none)
    (hdefault : p.2.default = some v) :
    s.fieldArgs world args (p :: declared) = s.fieldArgs world args declared := by
  rw [fieldArgs, List.filterMapM_cons]
  dsimp only
  rw [hget, hdefault]
  rfl

/-- Any other argument is given to the method. -/
theorem fieldArgs_cons_given (h : (Keyed.get? args p.1).or (s.shownDefault p.2) = none →
      p.2.default = none ∧ p.2.type.isNonNull = false) :
    s.fieldArgs world args (p :: declared) = (do
      let v ← s.argValue world s.shownDefault args p
      let kwargs ← s.fieldArgs world args declared
      return (p.1, v) :: kwargs) := by
  rw [fieldArgs, List.filterMapM_cons, argValue]
  dsimp only
  cases hget : (Keyed.get? args p.1).or (s.shownDefault p.2) with
  | some l =>
    dsimp only
    simp only [bind_assoc, pure_bind]
    rfl
  | none =>
    obtain ⟨hdefault, hnull⟩ := h hget
    rw [hdefault, hnull]
    rfl

/-- The arguments that a method is not given are defaults of its own. -/
theorem completing_fieldArgs (h : List.Forall₂ Declares params declared)
    (hrequired : ∀ p ∈ declared, p.2.type.isNonNull = true → p.2.default = none →
      p.1 ∈ Keyed.keys args) :
    Method.Completing params (s.allArgs world s.shownDefault args declared)
      (s.fieldArgs world args declared) := by
  induction h with
  | nil => exact .nil
  | @cons p a params declared hp _ ih =>
    obtain ⟨hname, hdefault⟩ := hp
    obtain ⟨hfirst, hrest⟩ := List.forall_mem_cons.1 hrequired
    rw [allArgs_cons, hname]
    -- only a default that has no literal is left to the method
    by_cases hleft : (Keyed.get? args a.1).or (s.shownDefault a.2) = none ∧ a.2.default ≠ none
    · obtain ⟨hget, hsome⟩ := hleft
      obtain ⟨v, hv⟩ := Option.ne_none_iff_exists'.1 hsome
      have hvalue : s.argValue world s.shownDefault args a = pure v := by
        rw [argValue, hget, hv]
        rfl
      rw [fieldArgs_cons_left hget hv, hvalue, pure_bind]
      exact (ih hrest).omitted (hdefault ▸ hv)
    · have hgiven : (Keyed.get? args a.1).or (s.shownDefault a.2) = none →
          a.2.default = none ∧ a.2.type.isNonNull = false := by
        intro hget
        have hnone := not_not.1 fun hsome => hleft ⟨hget, hsome⟩
        refine ⟨hnone, Bool.eq_false_iff.2 fun htype => ?_⟩
        exact Keyed.get?_eq_none_iff.1 (Option.or_eq_none_iff.1 hget).1 (hfirst htype hnone)
      rw [fieldArgs_cons_given hgiven, hname]
      exact (ih hrest).given _

/-! ## Running a method -/

section Running

variable {m : Method} {f : FieldDef} {parent : Option Value}

/-- Runs the body of a method for a field, with all its arguments at hand. -/
def runMethod (world : World) (s : Schema) (n : NodeRef) (parent : Option Value) (f : FieldDef)
    (m : Method) (arguments : Eval Args) : Eval (Option Output) := do
  let value ← s.receiver n parent f.name
  let bound ← arguments
  let result ← m.body.eval world.scope value bound
  s.toOutput world.hierarchy f.type result

theorem resolveField_eq (hm : f.resolver = .method m) (hnames : (m.params.map Param.name).Nodup)
    (h : List.Forall₂ Declares m.params f.args)
    (hrequired : ∀ p ∈ f.args, p.2.type.isNonNull = true → p.2.default = none →
      p.1 ∈ Keyed.keys args) :
    s.resolveField world n parent f args =
      s.runMethod world n parent f m (s.allArgs world s.shownDefault args f.args) := by
  rw [runMethod, ← (completing_fieldArgs h hrequired).bind_eq hnames]
  simp only [resolveField, hm, resolve, World.callMethod, bind_assoc]

/-- A field looks the arguments of a request up by their names. -/
theorem resolveField_congr {others : List (String × Literal)}
    (h : ∀ k, Keyed.get? others k = Keyed.get? args k) :
    s.resolveField world n parent f others = s.resolveField world n parent f args := by
  simp only [resolveField, fieldArgs, h]

theorem keys_of_allArgs {bound : Args} (h : s.allArgs world literalOf args declared i =
      .ok (bound, j)) : Keyed.keys bound = Keyed.keys declared := by
  induction declared generalizing i bound with
  | nil =>
    cases h
    rfl
  | cons p rest ih =>
    rw [allArgs_cons] at h
    obtain ⟨v, k, -, h⟩ := ok_of_eval_bind h
    obtain ⟨bound, k', hbound, h⟩ := ok_of_eval_bind h
    cases h
    rw [Keyed.keys_cons, Keyed.keys_cons, ih hbound]

theorem error_of_argValue {e : Failure}
    (haccepted : ∀ l, Keyed.get? args p.1 = some l → s.Accepts world l p.2.type)
    (h : s.argValue world s.shownDefault args p i = .error e) :
    e.isArgument = false ∧ p.1 ∉ Keyed.keys args ∧ ¬ s.KeepsDefault world p.2 := by
  rw [argValue] at h
  cases hget : Keyed.get? args p.1 with
  | some l =>
    rw [hget] at h
    obtain ⟨v, j, hv⟩ := haccepted l hget i
    cases hv.symm.trans h
  | none =>
    rw [hget, Option.none_or] at h
    cases hshown : s.shownDefault p.2 with
    | none =>
      rw [hshown] at h
      cases h
    | some l =>
      rw [hshown] at h
      obtain ⟨v, hv, hl⟩ := Option.bind_eq_some_iff.1 hshown
      refine ⟨sparesArguments_shown hl i e h, Keyed.get?_eq_none_iff.1 hget, fun hkeeps => ?_⟩
      dsimp only at h
      rw [hkeeps v l hv hshown] at h
      cases h

/-- All arguments have values, unless a default is read as something else. -/
theorem error_of_allArgs {e : Failure} (hargs : s.Supplies world args declared)
    (h : s.allArgs world s.shownDefault args declared i = .error e) :
    e.isArgument = false ∧ ∃ p ∈ declared, p.1 ∉ Keyed.keys args ∧ ¬ s.KeepsDefault world p.2 := by
  have haccepted := hargs.accepted
  clear hargs
  induction declared generalizing i with
  | nil => cases h
  | cons p rest ih =>
    rw [allArgs_cons] at h
    cases hvalue : s.argValue world s.shownDefault args p i with
    | error e' =>
      rw [eval_bind_error hvalue] at h
      cases h
      obtain ⟨hspares, hp⟩ := error_of_argValue (haccepted p List.mem_cons_self) hvalue
      exact ⟨hspares, p, List.mem_cons_self, hp⟩
    | ok q =>
      rw [eval_bind_ok hvalue] at h
      cases hbound : s.allArgs world s.shownDefault args rest q.2 with
      | ok b =>
        rw [eval_bind_ok hbound] at h
        cases h
      | error e' =>
        rw [eval_bind_error hbound] at h
        cases h
        obtain ⟨hspares, p', hp', hkeeps⟩ :=
          ih hbound fun p' hp' => haccepted p' (List.mem_cons_of_mem _ hp')
        exact ⟨hspares, p', List.mem_cons_of_mem _ hp', hkeeps⟩

end Running

/-! ## Defaults that are kept -/

/-- A default that some literal becomes is kept, if its type is over a built-in scalar or an
enumeration. -/
theorem keepsDefault_of_coerces {a : ArgumentDef} (ht : s.Echoing a.type.node)
    (hv : ∀ v, a.default = some v → ∃ l, Coerces world s l a.type v) : s.KeepsDefault world a := by
  intro v l hdefault hshown
  obtain ⟨l', hl'⟩ := hv v hdefault
  obtain ⟨l'', hechoes⟩ := exists_echoes (h := world.hierarchy) hl' ht
  rw [shownDefault, hdefault, Option.bind_some, hechoes.shown] at hshown
  cases hshown
  exact funext hechoes.read

theorem argValue_of_keepsDefault (h : p.1 ∉ Keyed.keys args → s.KeepsDefault world p.2) :
    s.argValue world s.shownDefault args p = s.argValue world (fun _ => none) args p := by
  rw [argValue, argValue]
  cases hget : Keyed.get? args p.1 with
  | some l => rfl
  | none =>
    cases hshown : s.shownDefault p.2 with
    | none => rfl
    | some l =>
      obtain ⟨v, hv, -⟩ := Option.bind_eq_some_iff.1 hshown
      rw [Option.none_or, Option.none_or, hv]
      exact h (Keyed.get?_eq_none_iff.1 hget) v l hv hshown

theorem allArgs_of_keepsDefault
    (h : ∀ p ∈ declared, p.1 ∉ Keyed.keys args → s.KeepsDefault world p.2) :
    s.allArgs world s.shownDefault args declared = s.nativeArgs world args declared := by
  rw [nativeArgs]
  induction declared with
  | nil => rfl
  | cons p rest ih =>
    obtain ⟨hp, hrest⟩ := List.forall_mem_cons.1 h
    rw [allArgs_cons, allArgs_cons, argValue_of_keepsDefault hp, ih hrest]

theorem allArgs_of_nulls (h : ∀ q ∈ declared, s.argValue world literalOf args q = pure .null) :
    s.allArgs world literalOf args declared = pure (declared.map fun q => (q.1, .null)) := by
  induction declared with
  | nil => rfl
  | cons q rest ih =>
    obtain ⟨hq, hrest⟩ := List.forall_mem_cons.1 h
    rw [allArgs_cons, hq, ih hrest, pure_bind, pure_bind, List.map_cons]

/-- Of arguments that are null but for one, that one decides. -/
theorem allArgs_of_nulls_but (hnodup : (Keyed.keys declared).Nodup) (hp : p ∈ declared)
    (h : ∀ q ∈ declared, q.1 ≠ p.1 → s.argValue world literalOf args q = pure .null) :
    s.allArgs world literalOf args declared = (do
      let v ← s.argValue world literalOf args p
      return declared.map fun q => (q.1, if q.1 = p.1 then v else .null)) := by
  induction declared with
  | nil => cases hp
  | cons q rest ih =>
    rw [Keyed.keys_cons, List.nodup_cons] at hnodup
    obtain ⟨hq, hrest⟩ := List.forall_mem_cons.1 h
    rw [allArgs_cons]
    rcases List.mem_cons.1 hp with rfl | hp
    · have hne : ∀ q ∈ rest, q.1 ≠ p.1 := fun q hmem he =>
        hnodup.1 (he ▸ List.mem_map_of_mem hmem)
      rw [allArgs_of_nulls fun q hmem => hrest q hmem (hne q hmem)]
      refine bind_congr fun v => ?_
      rw [pure_bind, List.map_cons, if_pos rfl]
      refine congrArg (fun l => pure ((p.1, v) :: l)) (List.map_congr_left fun q hmem => ?_)
      rw [if_neg (hne q hmem)]
    · have hne : q.1 ≠ p.1 := fun he => hnodup.1 (he ▸ List.mem_map_of_mem hp)
      rw [hq hne, pure_bind, ih hnodup.2 hp hrest, bind_assoc]
      refine bind_congr fun v => ?_
      rw [pure_bind, List.map_cons, if_neg hne]

theorem supplies_nullsBut (hdefault : ∀ q ∈ declared, q.1 = p.1 → q.2.default ≠ none) :
    s.Supplies world (nullsBut declared p.1) declared where
  accepted q _ l hl := by
    rw [eq_null_of_get?_nullsBut hl]
    exact accepts_null _
  required q hq _ hnone := mem_keys_nullsBut.2
    ⟨List.mem_map_of_mem hq, fun he => hdefault q hq he hnone⟩

theorem argValue_nullsBut {q : String × ArgumentDef} (hq : q ∈ declared) (hne : q.1 ≠ p.1) :
    s.argValue world literalOf (nullsBut declared p.1) q = pure .null := by
  have hmem : q.1 ∈ Keyed.keys (nullsBut declared p.1) :=
    mem_keys_nullsBut.2 ⟨List.mem_map_of_mem hq, hne⟩
  rw [← Keyed.contains_iff_mem_keys] at hmem
  obtain ⟨l, hl⟩ := Option.isSome_iff_exists.1 hmem
  rw [argValue, hl, eq_null_of_get?_nullsBut hl]
  exact coerceInput_null _

/-- A method is run with its own defaults, whatever is left out, when they are all kept. -/
theorem nativeArgs_iff (hnodup : (Keyed.keys declared).Nodup) :
    (∀ args, s.Supplies world args declared →
        s.allArgs world s.shownDefault args declared = s.nativeArgs world args declared) ↔
      ∀ p ∈ declared, s.KeepsDefault world p.2 := by
  refine ⟨fun hall p hp v l hdefault hshown => ?_,
    fun h _ _ => allArgs_of_keepsDefault fun p hp _ => h p hp⟩
  have hsome : ∀ q ∈ declared, q.1 = p.1 → q.2.default ≠ none := by
    intro q hq he
    rw [List.inj_on_of_nodup_map hnodup hq hp he, hdefault]
    exact Option.some_ne_none v
  -- of all arguments only the one with this default is left out
  have homitted : Keyed.get? (nullsBut declared p.1) p.1 = none :=
    Keyed.get?_eq_none_iff.2 fun hmem => (mem_keys_nullsBut.1 hmem).2 rfl
  have hargs := hall _ (supplies_nullsBut hsome)
  have hnull : ∀ {literalOf}, ∀ q ∈ declared, q.1 ≠ p.1 →
      s.argValue world literalOf (nullsBut declared p.1) q = pure .null :=
    fun q hq hne => argValue_nullsBut hq hne
  rw [nativeArgs, allArgs_of_nulls_but hnodup hp hnull, allArgs_of_nulls_but hnodup hp hnull,
    argValue, argValue, homitted, hshown, hdefault] at hargs
  funext i
  have hargs := congrFun hargs i
  cases hvalue : coerceInput world s l p.2.type i with
  | error e =>
    dsimp only [Option.none_or] at hargs
    rw [eval_bind_error hvalue] at hargs
    cases hargs
  | ok q =>
    obtain ⟨w, k⟩ := q
    dsimp only [Option.none_or] at hargs
    rw [eval_bind_ok hvalue] at hargs
    obtain ⟨hbound, rfl⟩ := Prod.mk.inj (Except.ok.inj hargs)
    have hp := List.map_inj_left.1 hbound p hp
    rw [if_pos rfl, if_pos rfl] at hp
    rw [(Prod.mk.inj hp).2]
    rfl

end Schema

/-! ## Built schemas -/

section Fields

variable {hier : Hierarchy} {ns : Namespace} {c : ClassRef} {f : FieldDescriptor} {m : Method}

/-- The arguments of a field are resolved from the parameters of the method that it runs. -/
theorem resolved_of_describeFields {ds : List FieldDescriptor}
    (h : describeFields hier ns c = .ok ds) (hf : f ∈ ds) (hm : f.resolver = .method m) :
    List.Forall₂ (fun p r => resolveParam ns c m p = .ok r) m.params f.args := by
  obtain ⟨hints, -, hcases⟩ := mem_describeFields h hf
  rcases hcases with ⟨p, -, -, rfl⟩ | ⟨p, -, -, -, hfield⟩
  · cases hm
  · generalize p.2 = member at hfield
    cases hfield with
    | property | value => cases hm
    | method hargs _ =>
      cases hm
      exact hargs

theorem declares_of_resolveParam {g : Graph} {p : Param} {r : ResolvedParam}
    {a : String × ArgumentDef} (h : resolveParam ns c m p = .ok r) (ha : g.ShowsParam r a) :
    Schema.Declares p a := by
  obtain ⟨t, -, rfl⟩ := ha
  obtain ⟨e, ann, -, -, rfl⟩ := resolveParam_eq_ok_iff.1 h
  exact ⟨rfl, rfl⟩

end Fields

namespace BuildEnv

variable {env : BuildEnv} {aliases : AliasTable} {P : ResolvedHint → Prop} {g : Graph}
  {query : ClassRef} {mutation : Option ClassRef} {s : Schema} {n : NodeRef} {c : ClassRef}
  {name : String} {f : FieldDef} {m : Method}

/-- The arguments of a method's field are its parameters, if these have names of their own. -/
theorem FieldsOf.declares {fields : List (String × FieldDef)} (h : env.FieldsOf g c fields)
    (hf : (name, f) ∈ fields) (hm : f.resolver = .method m)
    (hnames : (m.params.map Param.name).Nodup) :
    List.Forall₂ Schema.Declares m.params f.args := by
  obtain ⟨ds, hds, hshows⟩ := h.showsFields
  obtain ⟨d, hd, t, args, -, hargs, hfield⟩ := exists_left_of_forall₂ hshows hf
  obtain rfl := (Prod.mk.inj hfield).2
  have hresolved := resolved_of_describeFields hds hd hm
  have hdeclares : List.Forall₂ Schema.Declares m.params args :=
    forall₂_of_common hresolved.flip hargs fun _ _ _ _ => declares_of_resolveParam
  rw [Keyed.ofList_eq_self (Schema.keys_of_declares hdeclares ▸ hnames)]
  exact hdeclares

theorem Built.declares (hb : env.Built P query mutation s g) (hn : n ∈ s.types)
    (hf : (name, f) ∈ (s.body n).fields) (hm : f.resolver = .method m)
    (hnames : (m.params.map Param.name).Nodup) :
    List.Forall₂ Schema.Declares m.params f.args := by
  have hkind := hb.closes.kind_eq hn
  cases hbody : s.body n with
  | object c fields | interface c fields =>
    have hclass : (s.body n).class? = some c := by
      rw [hbody]
      rfl
    have hfields := hb.fieldsOf hn hclass (by simp [hkind, hbody, NodeBody.kind])
    exact hfields.declares hf hm hnames
  | input | enum | scalar | union =>
    rw [hbody] at hf
    cases hf

/-- In a built schema the field of a method whose parameters have names of their own declares these
with their defaults.  It is run with one argument for each parameter, in their order, whichever
arguments of the request are left out and in whatever order they are supplied.  No argument is
missing or left over: what fails is the reading of a default that is left out and not kept.  If
those left out are kept then the arguments are all those that the method would bind on its own,
which is so for every request exactly if each default is. -/
theorem resolveField_method (hw : env.WellFormed aliases) {visit : List Nat → List Nat}
    (hvisit : ∀ l, (visit l).Perm l)
    (hroots : ∀ c ∈ query :: mutation.toList, env.hierarchy.Has c)
    (h : ((env.buildVisiting visit query mutation).exec {}).1 = .ok s) (hn : n ∈ s.types)
    (hf : (name, f) ∈ (s.body n).fields) (hm : f.resolver = .method m)
    (hnames : (m.params.map Param.name).Nodup) (world : World) :
    List.Forall₂ Schema.Declares m.params f.args ∧
    (∀ args, s.Supplies world args f.args →
      (∀ parent, s.resolveField world n parent f args =
        s.runMethod world n parent f m (s.allArgs world s.shownDefault args f.args)) ∧
      (∀ i,
        match s.allArgs world s.shownDefault args f.args i with
        | .ok (bound, _) => Keyed.keys bound = m.params.map Param.name
        | .error e => e.isArgument = false ∧
            ∃ p ∈ f.args, p.1 ∉ Keyed.keys args ∧ ¬ s.KeepsDefault world p.2) ∧
      ((∀ p ∈ f.args, p.1 ∉ Keyed.keys args → s.KeepsDefault world p.2) →
        s.allArgs world s.shownDefault args f.args = s.nativeArgs world args f.args) ∧
      ∀ others : List (String × Literal), others.Perm args → (Keyed.keys args).Nodup →
        ∀ parent, s.resolveField world n parent f others =
          s.resolveField world n parent f args) ∧
    ((∀ args, s.Supplies world args f.args →
        s.allArgs world s.shownDefault args f.args = s.nativeArgs world args f.args) ↔
      ∀ p ∈ f.args, s.KeepsDefault world p.2) := by
  have hb := hw.domain_typed.build_spec hw hvisit
    (fun c hc => ⟨.cls c, hroots c hc, .cls rfl⟩)
    (Prod.ext h rfl : (env.buildVisiting visit query mutation).exec {} = (.ok s, _))
  have hdeclares := hb.declares hn hf hm hnames
  have hkeys := Schema.keys_of_declares hdeclares
  refine ⟨hdeclares, fun args hargs => ⟨fun parent => ?_, fun i => ?_,
    Schema.allArgs_of_keepsDefault, fun others hperm hnodup parent => ?_⟩,
    Schema.nativeArgs_iff (hkeys ▸ hnames)⟩
  · exact Schema.resolveField_eq hm hnames hdeclares hargs.required
  · split
    · rename_i bound j hbound
      rw [Schema.keys_of_allArgs hbound, hkeys]
    · rename_i e he
      exact Schema.error_of_allArgs hargs he
  · exact Schema.resolveField_congr fun k => Keyed.get?_of_perm hperm hnodup k

end BuildEnv

/-- The method that a resolver runs. -/
def Resolver.method? : Resolver → Option Method
  | .method m => some m
  | .attribute _ => none

theorem Resolver.eq_of_method? {m : Method} : ∀ {r : Resolver}, r.method? = some m → r = .method m
  | .method _, h => congrArg _ (Option.some.inj h)

theorem Schema.coerceInput_number {world : World} {s : Schema} (num : Number) (n : NodeRef) :
    coerceInput world s (.number num) (.named n) = s.coerceLeaf n (.number num) :=
  coerceInput_named nofun nofun

namespace Sample

def postNode : NodeRef := ⟨0, .object, "Post"⟩

def weightNode : NodeRef := ⟨4, .scalar, "Int"⟩

/-- A parcel with all that it can have. -/
def whole : Literal := .object [("label", .null), ("weight", .number three)]

/-- Whether a schema has the weights that it should have. -/
def hasWeights (s : Schema) : Bool :=
  match s.body weightNode with
  | .scalar ⟨.int, false⟩ => true
  | _ => false

theorem of_hasWeights {s : Schema} (h : hasWeights s = true) :
    s.body weightNode = .scalar { codec := .int } := by
  unfold hasWeights at h
  split at h
  · assumption
  · cases h

theorem accepts_whole {s : Schema} (hparcels : hasParcels s = true)
    (hweights : hasWeights s = true) : s.Accepts postWorld whole (.named parcelNode) := by
  have hthree : s.Accepts postWorld (.number three) (.nonNull (.named weightNode)) := by
    refine fun i => ⟨.int 3, i, ?_⟩
    rw [Schema.coerceInput_nonNull, Schema.coerceInput_number,
      Schema.coerceLeaf_scalar (of_hasWeights hweights) fun _ _ => by decide]
    rfl
  have hentries : s.Coercible postWorld parcelFields
      [("label", .null), ("weight", .number three)] :=
    List.forall_mem_cons.2 ⟨Schema.accepts_null _, List.forall_mem_singleton.2 hthree⟩
  refine (Schema.accepts_iff_of_coercible (by decide +kernel) (of_hasParcels hparcels).2
    (by decide +kernel) hentries).2 ?_
  decide

/-- Whether parcels are all that must be sent. -/
def needsParcel (f : FieldDef) : Bool :=
  f.args.all fun p =>
    if p.1 = "parcel" then decide (p.2.type = .nonNull (.named parcelNode))
    else !p.2.type.isNonNull || p.2.default.isSome

theorem supplies_whole {s : Schema} {f : FieldDef} (hparcels : hasParcels s = true)
    (hweights : hasWeights s = true) (hneeds : needsParcel f = true) :
    s.Supplies postWorld [("parcel", whole)] f.args := by
  constructor
  · intro p hp l hl
    have htype := List.all_eq_true.1 hneeds p hp
    rw [Keyed.get?_cons] at hl
    split_ifs at hl with hname
    · cases hl
      rw [if_pos hname.symm] at htype
      intro i
      rw [of_decide_eq_true htype, Schema.coerceInput_nonNull]
      exact accepts_whole hparcels hweights i
    · cases hl
  · intro p hp htype hnone
    have hother := List.all_eq_true.1 hneeds p hp
    split_ifs at hother with hname
    · exact List.mem_singleton.2 hname
    · rw [htype, hnone] at hother
      cases hother

/-- The text that a field gives. -/
def textOf : Except Failure (Option Output × Nat) → Option String
  | .ok (some (.literal (.str x)), _) => some x
  | _ => none

/-- An express that is left out is told by a truth value, and its default by a number. -/
theorem exists_send : ∃ s f m, ((postEnv.buildVisiting id post none).exec {}).1 = .ok s ∧
    postNode ∈ s.types ∧ ("send", f) ∈ (s.body postNode).fields ∧ f.resolver = .method m ∧
    (m.params.map Param.name).Nodup ∧ s.Supplies postWorld [("parcel", whole)] f.args ∧
    textOf (s.resolveField postWorld postNode none f [("parcel", whole)] 0) = some "False" ∧
    textOf (s.runMethod postWorld postNode none f m
      (s.nativeArgs postWorld [("parcel", whole)] f.args) 0) = some "0" := by
  obtain ⟨s, hs, hfacts⟩ : ∃ s, ((postEnv.buildVisiting id post none).exec {}).1 = .ok s ∧
      ((decide (postNode ∈ s.types) && hasParcels s && hasWeights s) &&
        (Keyed.get? (s.body postNode).fields "send").any fun f =>
          needsParcel f && f.resolver.method?.any fun m =>
            decide ((m.params.map Param.name).Nodup ∧
              textOf (s.resolveField postWorld postNode none f [("parcel", whole)] 0) =
                some "False" ∧
              textOf (s.runMethod postWorld postNode none f m
                (s.nativeArgs postWorld [("parcel", whole)] f.args) 0) = some "0")) = true :=
    exists_ok_of_any (by decide +kernel)
  obtain ⟨hfacts, hsend⟩ := Bool.and_eq_true_iff.1 hfacts
  obtain ⟨hfacts, hweights⟩ := Bool.and_eq_true_iff.1 hfacts
  obtain ⟨hlisted, hparcels⟩ := Bool.and_eq_true_iff.1 hfacts
  obtain ⟨f, hf, hsend⟩ := (Option.any_eq_true _ _).1 hsend
  obtain ⟨hneeds, hmethod⟩ := Bool.and_eq_true_iff.1 hsend
  obtain ⟨m, hm, hmethod⟩ := (Option.any_eq_true _ _).1 hmethod
  obtain ⟨hnames, htold, hown⟩ := of_decide_eq_true hmethod
  exact ⟨s, f, m, hs, of_decide_eq_true hlisted, Keyed.mem_of_get? hf, Resolver.eq_of_method? hm,
    hnames, supplies_whole hparcels hweights hneeds, htold, hown⟩

/-- The body of `send` is run with arguments for all parameters, not all of which are defaults that
are kept. -/
theorem resolveField_send : ∃ s f m, ((postEnv.buildVisiting id post none).exec {}).1 = .ok s ∧
    s.resolveField postWorld postNode none f [("parcel", whole)] =
      s.runMethod postWorld postNode none f m
        (s.allArgs postWorld s.shownDefault [("parcel", whole)] f.args) ∧
    ¬ ∀ p ∈ f.args, s.KeepsDefault postWorld p.2 := by
  obtain ⟨s, f, m, hs, hn, hf, hm, hnames, hargs, htold, hown⟩ := exists_send
  obtain ⟨-, hall, hnative⟩ := BuildEnv.resolveField_method wellFormed_post (fun l => .refl l)
    (Hierarchy.has_of_root ⟨_, rfl, rfl⟩) hs hn hf hm hnames postWorld
  refine ⟨s, f, m, hs, (hall _ hargs).1 none, fun hkeeps => ?_⟩
  rw [(hall _ hargs).1, hnative.2 hkeeps _ hargs, hown] at htold
  exact absurd htold (by decide)

/-- The default of an argument that is left out does not reach the body of `send`. -/
theorem send_told_otherwise : ∃ s f m, ((postEnv.buildVisiting id post none).exec {}).1 = .ok s ∧
    postNode ∈ s.types ∧ ("send", f) ∈ (s.body postNode).fields ∧ f.resolver = .method m ∧
    (m.params.map Param.name).Nodup ∧ s.Supplies postWorld [("parcel", whole)] f.args ∧
    s.resolveField postWorld postNode none f [("parcel", whole)] ≠
      s.runMethod postWorld postNode none f m
        (s.nativeArgs postWorld [("parcel", whole)] f.args) := by
  obtain ⟨s, f, m, hs, hn, hf, hm, hnames, hargs, htold, hown⟩ := exists_send
  refine ⟨s, f, m, hs, hn, hf, hm, hnames, hargs, fun heq => ?_⟩
  rw [heq, hown] at htold
  exact absurd htold (by decide)

end Sample

end HintSchema
