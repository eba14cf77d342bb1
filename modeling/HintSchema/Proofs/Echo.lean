import HintSchema.Proofs.Coercion

/-!
# Values that come back

The value that a literal becomes for an argument may be returned by a field or shown as a default.
For the types over built-in scalars, aliases of them and enumerations whose values can be told apart
both give one and the same literal, and that literal becomes the same value again
(`Schema.coerced_value_echoes`).
-/

namespace HintSchema

mutual

/-- The literal an output is, unless it holds values whose fields are to be read. -/
def Output.literal? : Output → Option Literal
  | .literal l => some l
  | .list items => (Output.literals? items).map .list
  | .object _ | .typed _ _ => none

/-- `literal?` on each item. -/
def Output.literals? : List Output → Option (List Literal)
  | [] => some []
  | item :: rest => do return (← item.literal?) :: (← Output.literals? rest)

end

theorem Output.literals?_cons (item : Output) (rest : List Output) :
    Output.literals? (item :: rest) =
      (do return (← item.literal?) :: (← Output.literals? rest)) := rfl

/-- The literal that stands for a result: null for the absent value. -/
def Output.echoed : Option Output → Option Literal
  | none => some .null
  | some out => out.literal?

theorem Output.literal?_getD (out : Option Output) :
    (out.getD (.literal .null)).literal? = Output.echoed out := by
  cases out with
  | none => rfl
  | some out => rfl

namespace Schema

variable {world : World} {h : Hierarchy} {s : Schema} {t : TypeRef} {n : NodeRef} {v : Value}
  {l : Literal}

/-- A value of a type is returned as a literal, shown as the same one, and read back from it. -/
structure Echoes (world : World) (h : Hierarchy) (s : Schema) (t : TypeRef) (v : Value)
    (l : Literal) : Prop where
  returned : ∃ out, toOutput h s t v = .ok out ∧ Output.echoed out = some l
  shown : s.defaultLiteral t v = some l
  read : ∀ k, coerceInput world s l t k = .ok (v, k)

/-! ## Layers of a type -/

theorem toOutput_list (t : TypeRef) (vs : List Value) :
    toOutput h s (.list t) (.list vs) = (do
      let outs ← vs.mapM (toOutput h s t)
      return some (.list (outs.map fun o => o.getD (.literal .null)))) := rfl

theorem defaultLiteral_list (t : TypeRef) (vs : List Value) :
    s.defaultLiteral (.list t) (.list vs) = (vs.mapM (s.defaultLiteral t)).map .list := rfl

theorem echoes_null (t : TypeRef) : Echoes world h s t .null .null where
  returned := by
    refine ⟨none, ?_, rfl⟩
    induction t with
    | named n => rfl
    | list t => rfl
    | nonNull t ih => exact ih
  shown := by
    induction t with
    | named n => rfl
    | list t => rfl
    | nonNull t ih => exact ih
  read _ := by
    rw [coerceInput_null]
    rfl

theorem Echoes.nonNull (hv : Echoes world h s t v l) : Echoes world h s (.nonNull t) v l where
  returned := hv.returned
  shown := hv.shown
  read := by
    rw [coerceInput_nonNull]
    exact hv.read

/-- The items of a list come back one by one. -/
theorem echoes_list {vs : List Value} {ls : List Literal}
    (hvs : List.Forall₂ (Echoes world h s t) vs ls) :
    Echoes world h s (.list t) (.list vs) (.list ls) where
  returned := by
    have houts : ∃ outs, vs.mapM (toOutput h s t) = .ok outs ∧
        Output.literals? (outs.map fun o => o.getD (.literal .null)) = some ls := by
      induction hvs with
      | nil => exact ⟨[], rfl, rfl⟩
      | cons hv _ ih =>
        obtain ⟨out, hout, hecho⟩ := hv.returned
        obtain ⟨outs, houts, hechos⟩ := ih
        refine ⟨out :: outs, ?_, ?_⟩
        · rw [List.mapM_cons, hout, houts]
          rfl
        · rw [List.map_cons, Output.literals?_cons, Output.literal?_getD, hecho, hechos]
          rfl
    obtain ⟨outs, houts, hechos⟩ := houts
    refine ⟨some (.list (outs.map fun o => o.getD (.literal .null))), ?_, ?_⟩
    · rw [toOutput_list, houts]
      rfl
    · exact congrArg (Option.map Literal.list) hechos
  shown := by
    have hshown : vs.mapM (s.defaultLiteral t) = some ls := by
      induction hvs with
      | nil => rfl
      | cons hv _ ih =>
        rw [List.mapM_cons, hv.shown, ih]
        rfl
    rw [defaultLiteral_list, hshown]
    rfl
  read k := by
    have hread : coerceItems world s ls t k = .ok (vs, k) := by
      induction hvs with
      | nil => rfl
      | cons hv _ ih =>
        rw [coerceItems_cons, eval_bind_ok (hv.read k), eval_bind_ok ih]
        rfl
    rw [coerceInput_list, eval_bind_ok hread]
    rfl

/-! ## Named types -/

theorem toOutput_named (hv : v ≠ .null) :
    toOutput h s (.named n) v = (s.namedOutput h n v).map some := by
  cases v with
  | null => exact absurd rfl hv
  | bool | int | float | str | list | object | enum | sealed => rfl

theorem defaultLiteral_named (hv : v ≠ .null) :
    s.defaultLiteral (.named n) v = s.leafLiteral n v := by
  cases v with
  | null => exact absurd rfl hv
  | bool | int | float | str | list | object | enum | sealed => rfl

/-- A named type whose values come back: a built-in scalar, an alias of one, or an enumeration whose
values can be told apart. -/
inductive Echoing (s : Schema) (n : NodeRef) : Prop
  | scalar {hooks : ScalarHooks} : s.BuiltinScalar n hooks → Echoing s n
  | enum {c : ClassRef} {values : List (String × Value)} : s.body n = .enum c values →
      EnumType.IsDistinct values → Echoing s n

theorem BuiltinScalar.exists_echoes {hooks : ScalarHooks} (hn : s.BuiltinScalar n hooks)
    (hv : hooks.codec.Holds v) : ∃ l, Echoes world h s (.named n) v l := by
  obtain ⟨w, hw, hnull, hread, hnumber⟩ := ScalarHooks.exists_serialize hn.builtin hv
  have hne := hv.ne_null
  refine ⟨w.toLiteral, ⟨some (.literal w.toLiteral), ?_, rfl⟩, ?_, fun k => ?_⟩
  · rw [toOutput_named hne]
    simp only [namedOutput, hn.body, hw, Except.map]
  · rw [defaultLiteral_named hne]
    simp only [leafLiteral, hn.body, hw, Except.toOption, Option.map_some]
  · rw [coerceInput_named hnull (fun _ _ _ _ => by rw [hn.body]; nofun),
      coerceLeaf_scalar hn.body fun num hl hname => hnumber (hn.identifier hname) num hl]
    exact hread k

theorem exists_echoes_enum {c : ClassRef} {values : List (String × Value)} {name : String}
    (hn : s.body n = .enum c values) (hd : EnumType.IsDistinct values)
    (hv : (EnumType.mk n.name c values).parseName name = .ok v) :
    ∃ l, Echoes world h s (.named n) v l := by
  have hmember := EnumType.IsDistinct.eq_of_parseName hd hv
  dsimp only at hmember
  subst hmember
  have hserialize : (EnumType.mk n.name c values).serialize (.enum c name) = .ok name :=
    if_pos (ClassRef.same_iff.2 rfl)
  refine ⟨.enum name, ⟨some (.literal (.enum name)), ?_, rfl⟩, ?_, fun k => ?_⟩
  · rw [toOutput_named (v := .enum c name) nofun]
    simp only [namedOutput, hn, hserialize, Except.map]
  · rw [defaultLiteral_named (v := .enum c name) nofun]
    simp only [leafLiteral, hn, hserialize, Except.toOption, Option.map_some]
  · rw [coerceInput_named (l := .enum name) nofun nofun, coerceLeaf_enum hn]
    show (liftM ((EnumType.mk n.name c values).parseName name) : Eval Value) k = _
    rw [hv]
    rfl

theorem exists_echoes_leaf {i j : Nat} (hn : s.Echoing n) (hv : s.coerceLeaf n l i = .ok (v, j)) :
    ∃ l', Echoes world h s (.named n) v l' := by
  cases hn with
  | scalar hn => exact hn.exists_echoes (hn.holds_of_coerceLeaf hv)
  | enum hn hd =>
    rw [coerceLeaf_enum hn] at hv
    obtain ⟨name, hname⟩ := EnumType.exists_of_parseLiteral (ok_of_eval_liftM hv)
    exact exists_echoes_enum hn hd hname

/-! ## All types -/

/-- What a literal becomes comes back, by induction on the rules that it becomes it by. -/
theorem exists_echoes (hv : Coerces world s l t v) (ht : s.Echoing t.node) :
    ∃ l', Echoes world h s t v l' := by
  induction hv with
  | @null t => exact ⟨.null, echoes_null t⟩
  | nonNull _ ih =>
    obtain ⟨l', hl'⟩ := ih ht
    exact ⟨l', hl'.nonNull⟩
  | @list items t vs hlen _ ih =>
    have hall : List.Forall₂ (fun _ v => ∃ l', Echoes world h s t v l') items vs :=
      forall₂_of_zip hlen.symm fun p hp => ih p hp ht
    obtain ⟨ls, hls⟩ := exists_forall₂ fun v hv =>
      have ⟨_, _, hl'⟩ := exists_left_of_forall₂ hall hv
      hl'
    exact ⟨.list ls, echoes_list hls⟩
  | single _ _ ih =>
    obtain ⟨l', hl'⟩ := ih ht
    exact ⟨.list [l'], echoes_list (.cons hl' .nil)⟩
  | leaf _ hv => exact exists_echoes_leaf ht hv
  | record hn =>
    cases ht with
    | scalar hn' =>
      cases hn.symm.trans hn'.body
    | enum hn' =>
      cases hn.symm.trans hn'

/-- A value that a literal became is returned as a literal, which is also the one that shows it as a
default, and which becomes the same value again, without the making of anything. -/
theorem coerced_value_echoes {i j : Nat} (ht : s.Echoing t.node)
    (hv : coerceInput world s l t i = .ok (v, j)) :
    ∃ out l', toOutput h s t v = .ok out ∧ Output.echoed out = some l' ∧
      s.defaultLiteral t v = some l' ∧ ∀ k, coerceInput world s l' t k = .ok (v, k) := by
  obtain ⟨l', ⟨out, hout, hecho⟩, hshown, hread⟩ :=
    exists_echoes (h := h) (coerces_of_coerceInput hv) ht
  exact ⟨out, l', hout, hecho, hshown, hread⟩

end Schema

namespace Sample

def desk : NodeRef := ⟨0, .object, "Desk"⟩

def mood : NodeRef := ⟨1, .enum, "Mood"⟩

def moodClass : ClassRef := ⟨7, "Mood"⟩

/-- A desk, and moods that are a number and a text. -/
def moods : Schema where
  nodes := #[
    ⟨"Desk", none, .object ⟨6, "Desk"⟩ (some []) (some [])⟩,
    ⟨"Mood", none, .enum moodClass [("CALM", .int 0), ("KEEN", .str "keen")]⟩]
  query := desk
  mutation := none
  extra := []
  typeMap := [("Desk", desk), ("Mood", mood)]

/-- A string stands for a mood, but comes back as the name that it is. -/
theorem coerced_value_echoes_moods :
    ∃ out l', Schema.toOutput .builtin moods (.list (.named mood))
        (.list [.enum moodClass "KEEN", .null]) = .ok out ∧ Output.echoed out = some l' ∧
      moods.defaultLiteral (.list (.named mood)) (.list [.enum moodClass "KEEN", .null]) = some l' ∧
      ∀ k, Schema.coerceInput ⟨.builtin, {}⟩ moods l' (.list (.named mood)) k =
        .ok (.list [.enum moodClass "KEEN", .null], k) := by
  have hmood : moods.Echoing mood := by
    refine .enum rfl ⟨?_, ?_⟩
    · decide
    · decide
  have hread : Schema.coerceInput ⟨.builtin, {}⟩ moods (.list [.str "KEEN", .null])
      (.list (.named mood)) 0 = .ok (.list [.enum moodClass "KEEN", .null], 0) := by
    rfl
  exact Schema.coerced_value_echoes hmood hread

end Sample

end HintSchema
