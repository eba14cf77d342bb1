import HintSchema.Proofs.Inhabitants
import HintSchema.Request.Validation

/-!
# Fields left out of records

A schema says by the type of a field alone whether an object literal may leave the field out: it may
when the type is nullable, as fields of records show no defaults.  An instance can be made without
the field when the class has a value for it.  In a built schema the second alone decides on what is
accepted, and the two agree for a record just when its nullable fields are those that the class has
values for (`BuildEnv.accepts_object_iff`).
-/

namespace HintSchema

/-! ## Instances -/

namespace Hierarchy

variable {h : Hierarchy} {c : ClassRef} {kwargs : Args}

/-- An instance of a record class is made, unless a field is missing. -/
theorem construct_of_sublist (hrecord : h.isRecord c = true)
    (hsub : (Keyed.keys kwargs).Sublist (h.fields c)) (i : Nat) :
    match h.missing? c (h.fields c) (Keyed.keys kwargs) with
    | none => ∃ v j, h.construct c kwargs i = .ok (v, j)
    | some field => h.construct c kwargs i = .error (.missingArgument c.name field) := by
  rw [construct_eq]
  cases hmissing : h.missing? c (h.fields c) (Keyed.keys kwargs) with
  | none =>
    have hkeys : (Keyed.keys kwargs).Nodup := hsub.nodup (h.nodup_fields c)
    have hleft := (foldl_erase_eq_nil_iff hkeys).2 fun _ hname => hsub.subset hname
    rw [recordAttrs_eq_ok_iff.2 ⟨hrecord, hmissing, hleft, rfl⟩]
    exact ⟨_, _, rfl⟩
  | some field =>
    rw [recordAttrs_of_missing hrecord hmissing]
    rfl

end Hierarchy

/-! ## Object literals -/

namespace Schema

variable {world : World} {s : Schema} {n : NodeRef} {c : ClassRef} {i : Nat}
  {fields : List (String × TypeRef)} {entries : List (String × Literal)}

/-- A literal becomes a value for an argument of a type, whatever the next identity is. -/
def Accepts (world : World) (s : Schema) (l : Literal) (t : TypeRef) : Prop :=
  ∀ i, ∃ v j, coerceInput world s l t i = .ok (v, j)

/-- The entries that a record has fields for are all accepted. -/
def Coercible (world : World) (s : Schema) (fields : List (String × TypeRef))
    (entries : List (String × Literal)) : Prop :=
  ∀ p ∈ supplied fields entries, s.Accepts world p.2.1 p.2.2

theorem accepts_null (t : TypeRef) : s.Accepts world .null t := fun i =>
  ⟨.null, i, by rw [coerceInput_null]; rfl⟩

theorem exists_coerceFields (h : s.Coercible world fields entries) (i : Nat) :
    ∃ kwargs j, coerceFields world s fields entries i = .ok (kwargs, j) := by
  induction fields generalizing i with
  | nil => exact ⟨[], i, rfl⟩
  | cons field rest ih =>
    obtain ⟨name, type⟩ := field
    cases hget : Keyed.get? entries name with
    | none =>
      rw [Coercible, supplied_cons_none hget] at h
      rw [coerceFields_cons_none hget]
      exact ih h i
    | some l =>
      rw [Coercible, supplied_cons_some hget, List.forall_mem_cons] at h
      obtain ⟨v, k, hv⟩ := h.1 i
      obtain ⟨kwargs, j, hkwargs⟩ := ih h.2 k
      refine ⟨(name, v) :: kwargs, j, ?_⟩
      rw [coerceFields_cons_some hget, eval_bind_ok hv, eval_bind_ok hkwargs]
      rfl

theorem mem_keys_supplied {name : String} : name ∈ Keyed.keys (supplied fields entries) ↔
    name ∈ Keyed.keys fields ∧ name ∈ Keyed.keys entries := by
  constructor
  · intro h
    obtain ⟨⟨_, l, t⟩, hmem, rfl⟩ := List.mem_map.1 h
    obtain ⟨hfield, hget⟩ := mem_supplied_iff.1 hmem
    exact ⟨List.mem_map_of_mem hfield, List.mem_map_of_mem (Keyed.mem_of_get? hget)⟩
  · rintro ⟨hfield, hentry⟩
    obtain ⟨⟨key, t⟩, hmem, rfl⟩ := List.mem_map.1 hfield
    cases hget : Keyed.get? entries key with
    | none => exact absurd hentry (Keyed.get?_eq_none_iff.1 hget)
    | some l => exact List.mem_map_of_mem (mem_supplied_iff.2 ⟨hmem, hget⟩)

/-- An object literal whose entries are accepted becomes a record, unless a field is missing. -/
theorem coerceInput_of_coercible (hrecord : world.hierarchy.isRecord c = true)
    (hbody : s.body n = .input c (some fields))
    (hkeys : Keyed.keys fields = world.hierarchy.fields c)
    (h : s.Coercible world fields entries) (i : Nat) :
    match world.hierarchy.missing? c (Keyed.keys fields) (Keyed.keys entries) with
    | none => ∃ v j, coerceInput world s (.object entries) (.named n) i = .ok (v, j)
    | some field => coerceInput world s (.object entries) (.named n) i =
        .error (.missingArgument c.name field) := by
  obtain ⟨kwargs, k, hkwargs⟩ := exists_coerceFields h i
  have hgiven : Keyed.keys kwargs = Keyed.keys (supplied fields entries) :=
    Keyed.keys_eq_iff.2 ((forall₂_of_coerceFields hkwargs).imp fun _ _ => And.left)
  have hmissing : world.hierarchy.missing? c (Keyed.keys fields) (Keyed.keys kwargs) =
      world.hierarchy.missing? c (Keyed.keys fields) (Keyed.keys entries) :=
    Hierarchy.missing?_congr fun f hf => by rw [hgiven, mem_keys_supplied, and_iff_right hf]
  have hconstruct := Hierarchy.construct_of_sublist hrecord
    (hkeys ▸ hgiven ▸ sublist_supplied fields entries) k
  rw [← hkeys, hmissing] at hconstruct
  rw [coerceInput_record hbody, Option.getD_some, eval_bind_ok hkwargs]
  exact hconstruct

/-! ## Leaving fields out -/

/-- Nulls for all fields but one. -/
def nullsBut {α : Type} (fields : List (String × α)) (name : String) : List (String × Literal) :=
  ((Keyed.keys fields).filter (· ≠ name)).map fun f => (f, .null)

theorem mem_keys_nullsBut {α : Type} {fields : List (String × α)} {f name : String} :
    f ∈ Keyed.keys (nullsBut fields name) ↔ f ∈ Keyed.keys fields ∧ f ≠ name := by
  simp [nullsBut, Keyed.keys]

theorem eq_null_of_get?_nullsBut {α : Type} {fields : List (String × α)} {f name : String}
    {l : Literal} (h : Keyed.get? (nullsBut fields name) f = some l) : l = .null := by
  obtain ⟨_, -, heq⟩ := List.mem_map.1 (Keyed.mem_of_get? h)
  exact (Prod.mk.inj heq).2.symm

theorem coercible_nullsBut (name : String) : s.Coercible world fields (nullsBut fields name) := by
  rintro ⟨f, l, t⟩ hp
  obtain ⟨-, hl⟩ := mem_supplied_iff.1 hp
  rw [eq_null_of_get?_nullsBut hl]
  exact accepts_null t

section Omitted

variable (hrecord : world.hierarchy.isRecord c = true) (hbody : s.body n = .input c (some fields))
  (hkeys : Keyed.keys fields = world.hierarchy.fields c)
include hrecord hbody hkeys

/-- A record is accepted when the class has a value for each field that is left out. -/
theorem accepts_iff_of_coercible (h : s.Coercible world fields entries) :
    s.Accepts world (.object entries) (.named n) ↔ ∀ p ∈ fields, p.1 ∉ Keyed.keys entries →
      (world.hierarchy.default? c p.1).isSome = true := by
  have hvalue := coerceInput_of_coercible hrecord hbody hkeys h
  rw [← List.forall_mem_map (P := fun f => f ∉ Keyed.keys entries →
    (world.hierarchy.default? c f).isSome = true), ← Keyed.keys, ← Hierarchy.missing?_eq_none_iff]
  cases hmissing : world.hierarchy.missing? c (Keyed.keys fields) (Keyed.keys entries) with
  | none =>
    rw [hmissing] at hvalue
    exact iff_of_true hvalue rfl
  | some field =>
    rw [hmissing] at hvalue
    refine iff_of_false (fun haccepts => ?_) (Option.some_ne_none field)
    obtain ⟨v, j, hv⟩ := haccepts 0
    rw [hvalue 0] at hv
    cases hv

/-- What may be left out by the types of the fields is what is accepted, for all object literals
with accepted entries, when the nullable fields are those that the class has values for. -/
theorem omission_agrees_iff : (∀ entries, s.Coercible world fields entries →
      (s.Accepts world (.object entries) (.named n) ↔
        ∀ p ∈ fields, p.1 ∉ Keyed.keys entries → p.2.isNonNull = false)) ↔
    ∀ p ∈ fields, p.2.isNonNull = false ↔ (world.hierarchy.default? c p.1).isSome = true := by
  constructor
  · intro hall p hp
    have hnodup : (Keyed.keys fields).Nodup := hkeys ▸ world.hierarchy.nodup_fields c
    -- of all fields only the one in question is left out
    have honly : ∀ q ∈ fields, q.1 ∉ Keyed.keys (nullsBut fields p.1) ↔ q = p := by
      intro q hq
      rw [mem_keys_nullsBut, not_and_not_right]
      refine ⟨fun h => ?_, fun h _ => congrArg Prod.fst h⟩
      exact List.inj_on_of_nodup_map hnodup hq hp (h (List.mem_map_of_mem hq))
    have hnulls : s.Coercible world fields (nullsBut fields p.1) := coercible_nullsBut p.1
    have hiff := (hall _ hnulls).symm.trans (accepts_iff_of_coercible hrecord hbody hkeys hnulls)
    refine ⟨fun hnull => ?_, fun hdefault => ?_⟩
    · exact hiff.1 (fun q hq homit => (honly q hq).1 homit ▸ hnull) p hp ((honly p hp).2 rfl)
    · exact hiff.2 (fun q hq homit => (honly q hq).1 homit ▸ hdefault) p hp ((honly p hp).2 rfl)
  · intro hall entries h
    rw [accepts_iff_of_coercible hrecord hbody hkeys h]
    exact forall₂_congr fun p hp => by rw [hall p hp]

end Omitted

/-! ## Valid literals -/

theorem validEntry_eq (entries : List (String × Literal)) (name : String) (t : TypeRef) :
    validEntry s entries name t = (Keyed.get? entries name).map fun l => s.valid l t := by
  induction entries with
  | nil => rw [validEntry]; rfl
  | cons e rest ih =>
    obtain ⟨key, l⟩ := e
    rw [validEntry, Keyed.get?_cons]
    split_ifs
    · rfl
    · exact ih

/-- A valid object literal leaves out nullable fields only. -/
theorem nullable_of_valid (hbody : s.body n = .input c (some fields))
    (hvalid : s.valid (.object entries) (.named n) = true) {p : String × TypeRef} (hp : p ∈ fields)
    (homitted : p.1 ∉ Keyed.keys entries) : p.2.isNonNull = false := by
  rw [valid, TypeRef.node, hbody] at hvalid
  obtain ⟨-, hall⟩ := Bool.and_eq_true_iff.1 hvalid
  obtain ⟨name, t⟩ := p
  have hfield := List.all_eq_true.1 hall (name, t) hp
  dsimp only at hfield
  rw [validEntry_eq, Keyed.get?_eq_none_iff.2 homitted] at hfield
  simpa using hfield

end Schema

/-! ## Built schemas -/

namespace BuildEnv

variable {env : BuildEnv} {aliases : AliasTable} {P : ResolvedHint → Prop} {g : Graph}
  {query : ClassRef} {mutation : Option ClassRef} {s : Schema} {n : NodeRef} {c : ClassRef}
  {fields : Option (List (String × TypeRef))}

theorem Built.isRecord (hb : env.Built P query mutation s g) (hn : n ∈ s.types)
    (hbody : s.body n = .input c fields) : env.hierarchy.isRecord c = true := by
  obtain ⟨node, hnode, -, heq⟩ := hb.closes.body_eq hn
  have hnodeBody : node.body = .input c fields := heq.symm.trans hbody
  have hclass : node.body.class? = some c := by
    rw [hnodeBody]
    rfl
  have hkind := kind?_of_isType hb.valid hnode hclass
  rw [Node.kind, hnodeBody, Hierarchy.kind?] at hkind
  split_ifs at hkind with hobject hinterface hrecord henum <;> cases hkind
  exact hrecord

/-- In a built schema an object literal with accepted entries becomes a record unless it leaves out
a field that the class has no value for, the first such field being named.  For a record this is
what the types of its fields say when its nullable fields are those that its class has values for,
and only then.  A literal that is valid fails at nullable fields without a value only. -/
theorem accepts_object_iff (hw : env.WellFormed aliases) {visit : List Nat → List Nat}
    (hvisit : ∀ l, (visit l).Perm l)
    (hroots : ∀ c ∈ query :: mutation.toList, env.hierarchy.Has c)
    (h : ((env.buildVisiting visit query mutation).exec {}).1 = .ok s) {world : World}
    (hworld : world.hierarchy = env.hierarchy) (hn : n ∈ s.types)
    (hbody : s.body n = .input c fields) :
    ∃ fs, fields = some fs ∧ Keyed.keys fs = env.hierarchy.fields c ∧
      (∀ entries, s.Coercible world fs entries → ∀ i,
        match env.hierarchy.missing? c (Keyed.keys fs) (Keyed.keys entries) with
        | none => ∃ v j, Schema.coerceInput world s (.object entries) (.named n) i = .ok (v, j)
        | some field => Schema.coerceInput world s (.object entries) (.named n) i =
            .error (.missingArgument c.name field)) ∧
      ((∀ entries, s.Coercible world fs entries →
          (s.Accepts world (.object entries) (.named n) ↔
            ∀ p ∈ fs, p.1 ∉ Keyed.keys entries → p.2.isNonNull = false)) ↔
        ∀ p ∈ fs, p.2.isNonNull = false ↔ (env.hierarchy.default? c p.1).isSome = true) ∧
      (∀ entries, s.valid (.object entries) (.named n) = true → s.Coercible world fs entries →
        ∀ i e, Schema.coerceInput world s (.object entries) (.named n) i = .error e →
          ∃ p ∈ fs, p.1 ∉ Keyed.keys entries ∧ p.2.isNonNull = false ∧
            env.hierarchy.default? c p.1 = none ∧ e = .missingArgument c.name p.1) := by
  have hb := hw.domain_typed.build_spec hw hvisit
    (fun c hc => ⟨.cls c, hroots c hc, .cls rfl⟩)
    (Prod.ext h rfl : (env.buildVisiting visit query mutation).exec {} = (.ok s, _))
  have hrecord := hb.isRecord hn hbody
  obtain ⟨fs, rfl, hkeys, -⟩ := hb.describes.records n hn c fields hbody
  rw [← hworld] at hrecord hkeys ⊢
  refine ⟨fs, rfl, hkeys, fun entries hentries =>
    Schema.coerceInput_of_coercible hrecord hbody hkeys hentries,
    Schema.omission_agrees_iff hrecord hbody hkeys, ?_⟩
  intro entries hvalid hentries i e he
  have hvalue := Schema.coerceInput_of_coercible hrecord hbody hkeys hentries i
  split at hvalue
  · obtain ⟨v, j, hv⟩ := hvalue
    rw [he] at hv
    cases hv
  · rename_i field hmissing
    have hfield := List.find?_some hmissing
    obtain ⟨p, hp, rfl⟩ := List.mem_map.1 (List.mem_of_find?_eq_some hmissing)
    obtain ⟨homitted, hdefault⟩ := Bool.and_eq_true_iff.1 hfield
    have homitted := of_decide_eq_true homitted
    rw [he] at hvalue
    exact ⟨p, hp, homitted, Schema.nullable_of_valid hbody hvalid hp homitted,
      Option.isNone_iff_eq_none.1 hdefault, Except.error.inj hvalue⟩

end BuildEnv

/-- Whether all hints of a class are texts and the values of its members are of declared classes. -/
def ClassDef.isPlain (h : Hierarchy) (d : ClassDef) : Bool :=
  (d.hints.all fun p => p.2.text?.isSome) && d.members.all fun p =>
    match p.2 with
    | .property p => p.returns.text?.isSome
    | .method m => m.returns.text?.isSome && m.params.all fun p => p.hint.text?.isSome
    | .value v => (h.find? v.classRef).any fun d => d.name == v.classRef.name

theorem ClassDef.over_of_isPlain {h : Hierarchy} {aliases : AliasTable} {d : ClassDef}
    (hd : d.isPlain h = true) : d.Over h aliases := by
  have htext : ∀ {hint : Hint}, hint.text?.isSome = true → hint.Over h aliases := by
    rintro (source | type) hhint
    · trivial
    · cases hhint
  obtain ⟨hhints, hmembers⟩ := Bool.and_eq_true_iff.1 hd
  refine ⟨over_of_texts hhints, fun p hp => ?_⟩
  have hmember := List.all_eq_true.1 hmembers p hp
  obtain ⟨name, member⟩ := p
  cases member with
  | property p => exact htext hmember
  | method m =>
    obtain ⟨hreturns, hparams⟩ := Bool.and_eq_true_iff.1 hmember
    exact ⟨htext hreturns, fun p hp => htext (List.all_eq_true.1 hparams p hp)⟩
  | value v =>
    obtain ⟨d, hd, hname⟩ := (Option.any_eq_true _ _).1 hmember
    exact ⟨d, hd, beq_iff_eq.1 hname⟩

namespace Sample

def parcel : ClassRef := ⟨6, "Parcel"⟩

def post : ClassRef := ⟨7, "Post"⟩

/-- Sends a parcel, with an express that is told by a number unless it is asked for. -/
def send : Method where
  name := "send"
  doc := none
  params := [⟨"parcel", .text "Parcel", none⟩, ⟨"note", .text "Optional[str]", none⟩,
    ⟨"express", .text "bool", some (.int 0)⟩]
  returns := .text "str"
  body := .shown (.arg "express")

/-- The classes of a post in their order: parcels may have a label, which none is given, and have a
weight, which is one at first. -/
def postDeclarations : List ClassDef :=
  [{ ((ClassDef.named "Parcel").annotate "label" (.text "Optional[str]")).attr "weight"
      (.text "int") (.int 1) with capabilities := { record := true } },
    { (ClassDef.named "Post").addMethod send with capabilities := { object := true } }]

def postEnv : BuildEnv :=
  ⟨postDeclarations.foldl Hierarchy.declare .builtin, ⟨[("Parcel", .expr (.cls parcel))]⟩, {}⟩

theorem wellFormed_post : postEnv.WellFormed aliases where
  hierarchy := by
    have hnone := @Hierarchy.has_of_no_bases
    exact .declare (.declare .builtin (hnone rfl)) (hnone rfl)
  identifier := rfl
  supertypes := of_aliases ⟨_, rfl, rfl⟩
  bindings {name hint} h := by
    obtain ⟨rfl, rfl⟩ := Prod.mk.inj (List.mem_singleton.1 (Keyed.mem_of_get? h))
    exact ⟨_, rfl, rfl⟩
  classes {d} hd := by
    have hplain : (postEnv.hierarchy.defs.all fun d => d.isPlain postEnv.hierarchy) = true := by
      decide +kernel
    exact ClassDef.over_of_isPlain (List.all_eq_true.1 hplain d hd)

def parcelNode : NodeRef := ⟨2, .input, "Parcel"⟩

/-- The fields of parcels. -/
def parcelFields : List (String × TypeRef) :=
  [("label", .named ⟨1, .scalar, "String"⟩), ("weight", .nonNull (.named ⟨4, .scalar, "Int"⟩))]

def postWorld : World := ⟨postEnv.hierarchy, {}⟩

/-- The number three. -/
def three : Number := .int 3 (by decide) (by decide)

/-- A parcel of a weight. -/
def weighing : Literal := .object [("weight", .number three)]

/-- A parcel without a label. -/
def unlabelled : Literal := .object [("label", .null)]

/-- Whether a schema has the parcels that it should have. -/
def hasParcels (s : Schema) : Bool :=
  match s.body parcelNode with
  | .input c fields => decide (parcelNode ∈ s.types ∧ c = parcel ∧ fields = some parcelFields)
  | _ => false

theorem of_hasParcels {s : Schema} (h : hasParcels s = true) :
    parcelNode ∈ s.types ∧ s.body parcelNode = .input parcel (some parcelFields) := by
  unfold hasParcels at h
  split at h
  · rename_i hbody
    obtain ⟨hlisted, rfl, rfl⟩ := of_decide_eq_true h
    exact ⟨hlisted, hbody⟩
  · cases h

/-- A label must be given, though it may be null, and a weight need not, though it may not. -/
theorem accepts_parcel : ∃ s, ((postEnv.buildVisiting id post none).exec {}).1 = .ok s ∧
    s.Accepts postWorld unlabelled (.named parcelNode) ∧
    ¬ ∀ entries, s.Coercible postWorld parcelFields entries →
      (s.Accepts postWorld (.object entries) (.named parcelNode) ↔
        ∀ p ∈ parcelFields, p.1 ∉ Keyed.keys entries → p.2.isNonNull = false) := by
  obtain ⟨s, hs, hparcels⟩ : ∃ s, ((postEnv.buildVisiting id post none).exec {}).1 = .ok s ∧
      hasParcels s = true := exists_ok_of_any (by decide +kernel)
  obtain ⟨hlisted, hbody⟩ := of_hasParcels hparcels
  obtain ⟨fs, hfs, -, hvalue, hagrees, -⟩ := BuildEnv.accepts_object_iff wellFormed_post
    (fun l => .refl l) (Hierarchy.has_of_root ⟨_, rfl, rfl⟩) hs
    (rfl : postWorld.hierarchy = postEnv.hierarchy) hlisted hbody
  obtain rfl := Option.some.inj hfs
  refine ⟨s, hs, fun i => hvalue [("label", .null)] ?_ i, fun hall => ?_⟩
  · exact List.forall_mem_singleton.2 (Schema.accepts_null _)
  · have hlabel := (hagrees.1 hall ("label", .named ⟨1, .scalar, "String"⟩) (by decide)).1 rfl
    revert hlabel
    decide +kernel

/-- The message of a failure. -/
def messageOf {α : Type} : Except Failure α → Option String
  | .ok _ => none
  | .error e => some e.message

/-- A valid parcel is refused for an argument that is missing, and one that is accepted is not
valid. -/
theorem parcel_published_otherwise : ∃ s, ((postEnv.buildVisiting id post none).exec {}).1 = .ok s ∧
    (s.valid weighing (.named parcelNode) = true ∧
      messageOf (Schema.coerceInput postWorld s weighing (.named parcelNode) 0) =
        some "Parcel() missing required argument: 'label'") ∧
    s.valid unlabelled (.named parcelNode) = false ∧
      messageOf (Schema.coerceInput postWorld s unlabelled (.named parcelNode) 0) = none := by
  obtain ⟨s, hs, hfacts⟩ : ∃ s, ((postEnv.buildVisiting id post none).exec {}).1 = .ok s ∧
      decide ((s.valid weighing (.named parcelNode) = true ∧
          messageOf (Schema.coerceInput postWorld s weighing (.named parcelNode) 0) =
            some "Parcel() missing required argument: 'label'") ∧
        s.valid unlabelled (.named parcelNode) = false ∧
          messageOf (Schema.coerceInput postWorld s unlabelled (.named parcelNode) 0) = none) =
        true :=
    exists_ok_of_any (by decide +kernel)
  exact ⟨s, hs, of_decide_eq_true hfacts⟩

end Sample

end HintSchema
