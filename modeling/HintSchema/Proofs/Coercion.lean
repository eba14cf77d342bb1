import HintSchema.Proofs.Entries
import HintSchema.Proofs.Outcome
import HintSchema.Proofs.Scalars
import HintSchema.Schema.Output

/-!
# How literals become values

`Schema.Coerces` gives by rules what a literal becomes for an argument of a type: null is the absent
value, a layer of non-null adds nothing, each item of a list is coerced by itself, any other literal
is put in a list of its own, and named types decide on the rest, records coercing each entry that
they have a field for.  A coercion that succeeds follows the rules (`coerces_of_coerceInput`).
-/

namespace HintSchema

/-- A literal that stands for one value: neither null nor a list. -/
def Literal.isSingle : Literal → Bool
  | .null | .list _ => false
  | .bool _ | .number _ | .str _ | .enum _ | .binary _ | .object _ => true

/-- Induction over literals: the items of a list and the entries of an object come first. -/
@[elab_as_elim]
theorem Literal.inductionOn {P : Literal → Prop} (l : Literal)
    (atom : ∀ l, (∀ items, l ≠ .list items) → (∀ entries, l ≠ .object entries) → P l)
    (list : ∀ items, (∀ l ∈ items, P l) → P (.list items))
    (object : ∀ entries, (∀ e ∈ entries, P e.2) → P (.object entries)) : P l :=
  @Literal.rec P (fun items => ∀ l ∈ items, P l) (fun entries => ∀ e ∈ entries, P e.2)
    (fun e => P e.2) (atom _ nofun nofun) (fun _ => atom _ nofun nofun)
    (fun _ => atom _ nofun nofun) (fun _ => atom _ nofun nofun) (fun _ => atom _ nofun nofun)
    (fun _ => atom _ nofun nofun) list object nofun
    (fun _ _ hl hrest => List.forall_mem_cons.2 ⟨hl, hrest⟩) nofun
    (fun _ _ he hrest => List.forall_mem_cons.2 ⟨he, hrest⟩) (fun _ _ hl => hl) l

namespace Schema

variable {world : World} {s : Schema} {l : Literal} {t : TypeRef} {v : Value} {n : NodeRef}
  {i j : Nat}

/-! ## Layers of a type -/

theorem coerceInput_null (t : TypeRef) : coerceInput world s .null t = pure .null := rfl

theorem coerceInput_nonNull (l : Literal) (t : TypeRef) :
    coerceInput world s l (.nonNull t) = coerceInput world s l t := by
  cases l <;> rfl

theorem coerceInput_list (items : List Literal) (t : TypeRef) :
    coerceInput world s (.list items) (.list t) =
      (do return .list (← coerceItems world s items t)) := rfl

theorem coerceItems_cons (l : Literal) (items : List Literal) (t : TypeRef) :
    coerceItems world s (l :: items) t = (do
      let v ← coerceInput world s l t
      return v :: (← coerceItems world s items t)) := rfl

/-- The arguments that a record is constructed from. -/
def coerceFields (world : World) (s : Schema) (fields : List (String × TypeRef))
    (entries : List (String × Literal)) : Eval Args :=
  fields.filterMapM fun (name, type) =>
    match coerceEntry world s entries name type with
    | some value => do return some (name, ← value)
    | none => return none

theorem coerceInput_object (entries : List (String × Literal)) (t : TypeRef) :
    coerceInput world s (.object entries) t = (do
      let v ←
        match s.body t.node with
        | .input c fields => do
          let kwargs ← coerceFields world s (fields.getD []) entries
          world.hierarchy.construct c kwargs
        | _ => s.coerceLeaf t.node (.object entries)
      return t.wrapSingle v) := rfl

theorem coerceInput_single (hl : l.isSingle = true) (t : TypeRef) :
    coerceInput world s l (.list t) = (do return .list [← coerceInput world s l t]) := by
  cases l with
  | null | list => cases hl
  | bool | number | str | enum | binary =>
    change bind (m := Eval) _ _ = bind (bind _ _) _
    rw [bind_assoc]
    rfl
  | object =>
    simp only [coerceInput_object, TypeRef.node, TypeRef.wrapSingle]
    split <;> simp only [bind_assoc, pure_bind]

/-- A literal for a named type is left to the type, unless it is null or that of a record. -/
theorem coerceInput_named (hl : l ≠ .null)
    (hn : ∀ entries c fields, l = .object entries → s.body n ≠ .input c fields) :
    coerceInput world s l (.named n) = s.coerceLeaf n l := by
  cases l with
  | null => exact absurd rfl hl
  | list items => rfl
  | bool | number | str | enum | binary => exact bind_pure (s.coerceLeaf n _)
  | object entries =>
    simp only [coerceInput_object, TypeRef.node, TypeRef.wrapSingle, bind_pure]
    split
    · rename_i c fields hbody
      exact absurd hbody (hn entries c fields rfl)
    · rfl

/-! ## Named types -/

theorem coerceLeaf_scalar {hooks : ScalarHooks} (hn : s.body n = .scalar hooks)
    (hl : ∀ num, l = .number num → n.name ≠ "ID") : s.coerceLeaf n l = hooks.parseLiteral l := by
  cases l with
  | number num =>
    unfold coerceLeaf
    rw [hn]
    exact if_neg (hl num rfl)
  | null | bool | str | enum | binary | list | object =>
    unfold coerceLeaf
    rw [hn]

theorem coerceLeaf_identifier {hooks : ScalarHooks} (hn : s.body n = .scalar hooks)
    (hname : n.name = "ID") (num : Number) :
    s.coerceLeaf n (.number num) = pure (.str num.text) := by
  unfold coerceLeaf
  rw [hn]
  exact if_pos hname

theorem coerceLeaf_scalar_cases {hooks : ScalarHooks} (hn : s.body n = .scalar hooks)
    (h : s.coerceLeaf n l i = .ok (v, j)) :
    hooks.parseLiteral l i = .ok (v, j) ∨ n.name = "ID" ∧ ∃ text, v = .str text := by
  by_cases hl : ∀ num, l = .number num → n.name ≠ "ID"
  · rw [coerceLeaf_scalar hn hl] at h
    exact .inl h
  · push Not at hl
    obtain ⟨num, rfl, hname⟩ := hl
    rw [coerceLeaf_identifier hn hname] at h
    cases h
    exact .inr ⟨hname, num.text, rfl⟩

theorem coerceLeaf_enum {c : ClassRef} {values : List (String × Value)}
    (hn : s.body n = .enum c values) (l : Literal) :
    s.coerceLeaf n l = liftM ((EnumType.mk n.name c values).parseLiteral l) := by
  unfold coerceLeaf
  rw [hn]

/-- A built-in scalar, or another one with its hooks.  What is called `ID` is a scalar of texts. -/
structure BuiltinScalar (s : Schema) (n : NodeRef) (hooks : ScalarHooks) : Prop where
  body : s.body n = .scalar hooks
  builtin : hooks.IsBuiltin
  identifier : n.name = "ID" → hooks.codec = .string

theorem BuiltinScalar.holds_of_coerceLeaf {hooks : ScalarHooks} (hn : s.BuiltinScalar n hooks)
    (h : s.coerceLeaf n l i = .ok (v, j)) : hooks.codec.Holds v := by
  rcases coerceLeaf_scalar_cases hn.body h with h | ⟨hname, text, rfl⟩
  · exact ScalarHooks.holds_of_parseLiteral hn.builtin h
  · rw [hn.identifier hname]
    exact .string

/-! ## Records -/

theorem coerceEntry_eq (entries : List (String × Literal)) (name : String) (t : TypeRef) :
    coerceEntry world s entries name t =
      (Keyed.get? entries name).map fun l => coerceInput world s l t := by
  induction entries with
  | nil => rw [coerceEntry]; rfl
  | cons e rest ih =>
    obtain ⟨key, l⟩ := e
    rw [coerceEntry, Keyed.get?_cons]
    split_ifs
    · rfl
    · exact ih

/-- The entries of an object literal that the fields of a record ask for, with their types. -/
def supplied (fields : List (String × TypeRef)) (entries : List (String × Literal)) :
    List (String × Literal × TypeRef) :=
  fields.filterMap fun (name, type) => (Keyed.get? entries name).map fun l => (name, l, type)

theorem mem_supplied_iff {fields : List (String × TypeRef)} {entries : List (String × Literal)}
    {name : String} : (name, l, t) ∈ supplied fields entries ↔
      (name, t) ∈ fields ∧ Keyed.get? entries name = some l := by
  simp only [supplied, List.mem_filterMap, Option.map_eq_some_iff, Prod.exists, Prod.mk.injEq]
  constructor
  · rintro ⟨_, _, hmem, _, hl, rfl, rfl, rfl⟩
    exact ⟨hmem, hl⟩
  · rintro ⟨hmem, hl⟩
    exact ⟨name, t, hmem, l, hl, rfl, rfl, rfl⟩

theorem supplied_cons_none {entries : List (String × Literal)} {name : String}
    (h : Keyed.get? entries name = none) (type : TypeRef) (fields : List (String × TypeRef)) :
    supplied ((name, type) :: fields) entries = supplied fields entries :=
  List.filterMap_cons_none (by simp only [h, Option.map_none])

theorem supplied_cons_some {entries : List (String × Literal)} {name : String}
    (h : Keyed.get? entries name = some l) (type : TypeRef) (fields : List (String × TypeRef)) :
    supplied ((name, type) :: fields) entries = (name, l, type) :: supplied fields entries :=
  List.filterMap_cons_some (by simp only [h, Option.map_some])

section Fields

variable {fields : List (String × TypeRef)} {entries : List (String × Literal)} {name : String}

theorem coerceFields_cons_none (h : Keyed.get? entries name = none) (type : TypeRef) :
    coerceFields world s ((name, type) :: fields) entries =
      coerceFields world s fields entries := by
  rw [coerceFields, List.filterMapM_cons]
  dsimp only
  rw [coerceEntry_eq, h]
  rfl

theorem coerceFields_cons_some (h : Keyed.get? entries name = some l) (type : TypeRef) :
    coerceFields world s ((name, type) :: fields) entries = (do
      let v ← coerceInput world s l type
      let kwargs ← coerceFields world s fields entries
      return (name, v) :: kwargs) := by
  rw [coerceFields, List.filterMapM_cons]
  dsimp only
  rw [coerceEntry_eq, h]
  simp only [Option.map_some, bind_assoc, pure_bind]
  rfl

end Fields

theorem coerceInput_record {c : ClassRef} {fields : Option (List (String × TypeRef))}
    (hn : s.body n = .input c fields) (entries : List (String × Literal)) :
    coerceInput world s (.object entries) (.named n) = (do
      let kwargs ← coerceFields world s (fields.getD []) entries
      world.hierarchy.construct c kwargs) := by
  simp only [coerceInput_object, TypeRef.node, TypeRef.wrapSingle, bind_pure, hn]

theorem forall₂_of_coerceItems {items : List Literal} {vs : List Value}
    (h : coerceItems world s items t i = .ok (vs, j)) :
    List.Forall₂ (fun l v => ∃ i j, coerceInput world s l t i = .ok (v, j)) items vs := by
  induction items generalizing i vs with
  | nil =>
    cases h
    exact .nil
  | cons l rest ih =>
    rw [coerceItems_cons] at h
    obtain ⟨v, k, hv, h⟩ := ok_of_eval_bind h
    obtain ⟨vs', k', hvs, h⟩ := ok_of_eval_bind h
    cases h
    exact .cons ⟨_, _, hv⟩ (ih hvs)

theorem forall₂_of_coerceFields {fields : List (String × TypeRef)}
    {entries : List (String × Literal)} {kwargs : Args}
    (h : coerceFields world s fields entries i = .ok (kwargs, j)) :
    List.Forall₂ (fun p q => q.1 = p.1 ∧ ∃ i j, coerceInput world s p.2.1 p.2.2 i = .ok (q.2, j))
      (supplied fields entries) kwargs := by
  induction fields generalizing i kwargs with
  | nil =>
    cases h
    exact .nil
  | cons field rest ih =>
    obtain ⟨name, type⟩ := field
    cases hget : Keyed.get? entries name with
    | none =>
      rw [coerceFields_cons_none hget] at h
      rw [supplied_cons_none hget]
      exact ih h
    | some l =>
      rw [coerceFields_cons_some hget] at h
      obtain ⟨w, k, hw, h⟩ := ok_of_eval_bind h
      obtain ⟨kwargs', k', hkwargs, h⟩ := ok_of_eval_bind h
      cases h
      rw [supplied_cons_some hget]
      exact .cons ⟨rfl, _, _, hw⟩ (ih hkwargs)

/-! ## Rules -/

/-- What a literal becomes for an argument of a type. -/
inductive Coerces (world : World) (s : Schema) : Literal → TypeRef → Value → Prop
  | null {t : TypeRef} : Coerces world s .null t .null
  | nonNull {l : Literal} {t : TypeRef} {v : Value} :
      Coerces world s l t v → Coerces world s l (.nonNull t) v
  | list {items : List Literal} {t : TypeRef} {vs : List Value} :
      items.length = vs.length → (∀ p ∈ items.zip vs, Coerces world s p.1 t p.2) →
      Coerces world s (.list items) (.list t) (.list vs)
  | single {l : Literal} {t : TypeRef} {v : Value} :
      l.isSingle = true → Coerces world s l t v → Coerces world s l (.list t) (.list [v])
  | leaf {l : Literal} {n : NodeRef} {v : Value} {i j : Nat} :
      l ≠ .null → s.coerceLeaf n l i = .ok (v, j) → Coerces world s l (.named n) v
  | record {entries : List (String × Literal)} {n : NodeRef} {c : ClassRef}
      {fields : Option (List (String × TypeRef))} {kwargs : Args} {v : Value} {i j : Nat} :
      s.body n = .input c fields →
      Keyed.keys kwargs = Keyed.keys (supplied (fields.getD []) entries) →
      (∀ p ∈ (supplied (fields.getD []) entries).zip kwargs,
        Coerces world s p.1.2.1 p.1.2.2 p.2.2) →
      world.hierarchy.construct c kwargs i = .ok (v, j) →
      Coerces world s (.object entries) (.named n) v

/-- A literal follows the rules for all types when it does for named types, and its items do. -/
theorem coerces_of_named
    (hnamed : ∀ n i v j, coerceInput world s l (.named n) i = .ok (v, j) →
      Coerces world s l (.named n) v)
    (hitems : ∀ items, l = .list items → ∀ m ∈ items, ∀ t i v j,
      coerceInput world s m t i = .ok (v, j) → Coerces world s m t v)
    (h : coerceInput world s l t i = .ok (v, j)) : Coerces world s l t v := by
  induction t generalizing i v j with
  | named n => exact hnamed n i v j h
  | nonNull t ih =>
    rw [coerceInput_nonNull] at h
    exact .nonNull (ih h)
  | list t ih =>
    cases hl : l.isSingle with
    | true =>
      rw [coerceInput_single hl] at h
      obtain ⟨w, k, hw, h⟩ := ok_of_eval_bind h
      cases h
      exact .single hl (ih hw)
    | false =>
      cases l with
      | null =>
        rw [coerceInput_null] at h
        cases h
        exact .null
      | list items =>
        rw [coerceInput_list] at h
        obtain ⟨vs, k, hvs, h⟩ := ok_of_eval_bind h
        cases h
        obtain ⟨hlen, hzip⟩ := List.forall₂_iff_zip.1 (forall₂_of_coerceItems hvs)
        refine .list hlen fun p hp => ?_
        obtain ⟨i', j', hp'⟩ := hzip hp
        exact hitems items rfl p.1 (List.of_mem_zip hp).1 t i' p.2 j' hp'
      | bool | number | str | enum | binary | object => cases hl

/-- A literal for a named type that is no record follows the rules. -/
theorem coerces_of_coerceLeaf
    (hn : ∀ entries c fields, l = .object entries → s.body n ≠ .input c fields)
    (h : coerceInput world s l (.named n) i = .ok (v, j)) : Coerces world s l (.named n) v := by
  by_cases hl : l = .null
  · rw [hl, coerceInput_null] at h
    cases h
    exact hl ▸ .null
  · rw [coerceInput_named hl hn] at h
    exact .leaf hl h

/-- An object literal for a record follows the rules when its entries do. -/
theorem coerces_of_record {entries : List (String × Literal)} {c : ClassRef}
    {fields : Option (List (String × TypeRef))} (hn : s.body n = .input c fields)
    (hentries : ∀ name m, Keyed.get? entries name = some m → ∀ t i v j,
      coerceInput world s m t i = .ok (v, j) → Coerces world s m t v)
    (h : coerceInput world s (.object entries) (.named n) i = .ok (v, j)) :
    Coerces world s (.object entries) (.named n) v := by
  rw [coerceInput_record hn] at h
  obtain ⟨kwargs, k, hkwargs, h⟩ := ok_of_eval_bind h
  have hall := forall₂_of_coerceFields hkwargs
  refine .record hn (Keyed.keys_eq_iff.2 (hall.imp fun _ _ => And.left)) (fun p hp => ?_) h
  obtain ⟨⟨name, m, type⟩, key, value⟩ := p
  obtain ⟨-, i', j', hp'⟩ := (List.forall₂_iff_zip.1 hall).2 hp
  exact hentries name m (mem_supplied_iff.1 (List.of_mem_zip hp).1).2 type i' value j' hp'

/-- A coercion that succeeds follows the rules. -/
theorem coerces_of_coerceInput (h : coerceInput world s l t i = .ok (v, j)) :
    Coerces world s l t v := by
  induction l using Literal.inductionOn generalizing t i v j with
  | atom l hlist hobject =>
    exact coerces_of_named
      (fun n i v j => coerces_of_coerceLeaf fun entries _ _ hl => absurd hl (hobject entries))
      (fun items hl => absurd hl (hlist items)) h
  | list items ih =>
    refine coerces_of_named
      (fun n i v j => coerces_of_coerceLeaf fun _ _ _ hl => by cases hl)
      (fun items' hl m hm => ?_) h
    cases hl
    exact fun t i v j => ih m hm
  | object entries ih =>
    refine coerces_of_named (fun n i v j h => ?_) (fun _ hl => by cases hl) h
    by_cases hn : ∃ c fields, s.body n = .input c fields
    · obtain ⟨c, fields, hn⟩ := hn
      exact coerces_of_record hn
        (fun name m hm t i v j => ih (name, m) (Keyed.mem_of_get? hm)) h
    · exact coerces_of_coerceLeaf (fun _ c fields _ hbody => hn ⟨c, fields, hbody⟩) h

end Schema

end HintSchema
