import HintSchema.Proofs.Respelling
import HintSchema.Proofs.UnionNames

/-!
# Names that hints leave

What names a union is the identifier that is left of a hint when a number of layers is taken off it
(`Hint.nameAt?`).  To spell a type as a union with the absent value hides the names in it, as the
comma is never taken off.  So respelled hints leave the same names of unions if what is optional in
the one and a union in the other leaves none (`HintTerm.NamesNoUnion`, `Hint.Respelled.keepsNames`).
-/

namespace HintSchema

open Text HintTerm

variable {ns : Namespace} {hint hint' : Hint} {source source' inner inner' name : String}
  {term term' arg arg' : HintTerm} {k : Nat} {cs : List Char}

namespace Hint

/-- The identifier that a hint is, perhaps in quotes. -/
def bareName? : Hint → Option String
  | .text source =>
    if isIdentifier (unquote source.toList) then some (String.ofList (unquote source.toList))
    else none
  | .expr _ => none

/-- The identifier that is left of a hint when a number of layers is taken off it. -/
def nameAt? : Nat → Hint → Option String
  | 0, hint => hint.bareName?
  | k + 1, hint => hint.unwrap.toOption.bind (nameAt? k)

theorem bareName?_iff : (Hint.text source).bareName? = some name ↔
    isIdentifier (unquote source.toList) = true ∧ name = String.ofList (unquote source.toList) := by
  rw [bareName?]
  split_ifs with hid
  · simp [hid, eq_comm]
  · simp [hid]

theorem bind_nameAt?_succ (raw : Option Hint) (k : Nat) :
    raw.bind (nameAt? (k + 1)) = (unwrap? raw).bind (nameAt? k) := by
  cases raw <;> rfl

/-- A hint with a comma leaves no name. -/
theorem nameAt?_of_hasComma (h : hint.HasComma) : nameAt? k hint = none := by
  induction k generalizing hint with
  | zero =>
    cases hint with
    | expr => rfl
    | text source =>
      refine Option.eq_none_iff_forall_ne_some.2 fun name hname => ?_
      exact comma_not_mem_of_isIdentifier (bareName?_iff.1 hname).1 (comma_mem_unquote h)
  | succ k ih =>
    rw [nameAt?]
    cases hinner : hint.unwrap with
    | error => rfl
    | ok inner => exact ih (hasComma_of_unwrap h hinner)

/-- A text that leaves a name behind a layer is a subscript with one argument, which leaves it. -/
theorem exists_of_nameAt?_succ (hterm : parse source = .ok term)
    (hname : nameAt? (k + 1) (.text source) = some name) : ∃ head arg inner,
      term = .subscript head [arg] ∧ unwrapText source = .ok inner ∧ Within inner arg ∧
        nameAt? k (.text inner) = some name := by
  obtain ⟨hint, hunwrap, hname'⟩ := Option.bind_eq_some_iff.1 hname
  obtain ⟨inner, hinner, rfl⟩ := ok_of_map (ok_of_toOption hunwrap)
  have hspelled := parse_iff.1 hterm
  cases term with
  | name =>
    rw [unwrapText_of_bracketed? (bracketed?_of_name hspelled)] at hinner
    cases hinner
  | quoted =>
    rw [unwrapText_of_bracketed? (bracketed?_of_quoted hspelled)] at hinner
    cases hinner
  | subscript head args =>
    by_cases hcomma : ',' ∈ source.toList
    · have hcomma : (Hint.text source).HasComma := hcomma
      rw [nameAt?_of_hasComma hcomma] at hname
      cases hname
    · obtain ⟨arg, rfl⟩ := exists_arg_of_parse hterm hcomma
      obtain ⟨inner', hinner', hwithin⟩ := unwrapText_of_parse hterm
      cases hinner.symm.trans hinner'
      exact ⟨head, arg, inner, rfl, hinner, hwithin, hname'⟩

theorem nameAt?_succ_of_unwrapText (h : unwrapText source = .ok inner) :
    nameAt? (k + 1) (.text source) = nameAt? k (.text inner) := by
  rw [nameAt?, unwrap, h]
  rfl

end Hint

/-! ## Names of unions -/

/-- A name denotes a type that leads to a union of two or more types. -/
def Namespace.NamesSome (ns : Namespace) (name : String) : Prop :=
  ∃ es, ns.Names name es ∧ 2 ≤ es.length ∧ es.any TypeExpr.isNone = false

/-- However many layers are taken off a text of a term, it is not left the name of a union. -/
def HintTerm.NamesNoUnion (ns : Namespace) (term : HintTerm) : Prop :=
  ∀ source, Within source term → ∀ k name, Hint.nameAt? k (.text source) = some name →
    ¬ ns.NamesSome name

theorem Namespace.not_namesSome_of_class {c : ClassRef} (h : ns.eval (.text name) = .ok (.cls c)) :
    ¬ ns.NamesSome name := by
  rintro ⟨es, ⟨e, he, hreaches⟩, hlen, hnone⟩
  cases h.symm.trans he
  cases hreaches with
  | here hbare =>
    rw [TypeExpr.bare_union hlen hnone] at hbare
    cases hbare
  | element hx => cases hx

/-- A name leaves nothing but itself. -/
theorem HintTerm.namesNoUnion_name (h : ¬ ns.NamesSome name) : NamesNoUnion ns (.name name) := by
  intro source hwithin k left hleft hsome
  have hterm : parse source = .ok (.name name) := hwithin
  cases k with
  | zero =>
    obtain ⟨hid, rfl⟩ := Hint.bareName?_iff.1 hleft
    rcases term_of_isIdentifier hterm hid with ⟨n, hn, hsame⟩ | ⟨_, hquoted, -⟩
    · cases hn
      rw [hsame, String.ofList_toList] at hsome
      exact h hsome
    · cases hquoted
  | succ k =>
    obtain ⟨_, _, _, hsubscript, -⟩ := Hint.exists_of_nameAt?_succ hterm hleft
    cases hsubscript

/-- The names of unions that a hint leaves, if it is there, are left by the other one as well. -/
def Hint.KeepsNames (ns : Namespace) (raw raw' : Option Hint) : Prop :=
  ∀ k name, ns.NamesSome name → raw.bind (nameAt? k) = some name → raw'.bind (nameAt? k) = some name

namespace Hint.KeepsNames

variable {raw raw' : Option Hint}

theorem refl (raw : Option Hint) : KeepsNames ns raw raw := fun _ _ _ h => h

theorem unwrap (h : KeepsNames ns raw raw') : KeepsNames ns (unwrap? raw) (unwrap? raw') := by
  intro k name hsome hname
  rw [← bind_nameAt?_succ] at hname ⊢
  exact h (k + 1) name hsome hname

end Hint.KeepsNames

/-! ## Respelled terms -/

namespace HintTerm

/-- What is in quotes has no blanks around it. -/
theorem trim_of_quoted (h : Spelled cs (.quoted source)) : trim source.toList = source.toList := by
  cases h with
  | quoted => rw [String.toList_ofList, trim_trim]

theorem trim_of_name (h : Spelled cs (.name name)) : trim cs = name.toList := by
  cases h with
  | name hb hn ha => rw [trim_append hb hn.tight ha, String.toList_ofList]

theorem Respelled.eq_name {free : HintTerm → Prop} (h : Respelled free (.name name) term) :
    term = .name name := by
  cases h with
  | refl => rfl
  | optional _ hterm => cases hterm

/-- A name in quotes is respelled as itself. -/
theorem Respelled.eq_of_quoted_name {free : HintTerm → Prop} (hterm : parse source = .ok term)
    (hterm' : parse source' = .ok term') (h : Respelled free term term')
    (hid : isIdentifier source.toList = true) (htrim : trim source'.toList = source'.toList) :
    source' = source := by
  have hname := parse_of_isIdentifier hid
  rw [String.ofList_toList] at hname
  cases hterm.symm.trans hname
  obtain rfl := h.eq_name
  rw [← String.toList_inj, ← htrim, trim_of_name (parse_iff.1 hterm')]

/-- A text that is an identifier, perhaps in quotes, is respelled as one that is the same. -/
theorem Respelled.bareName?_eq {free : HintTerm → Prop} (h : Respelled free term term')
    (hterm : parse source = .ok term) (hterm' : parse source' = .ok term')
    (hname : (Hint.text source).bareName? = some name) :
    (Hint.text source').bareName? = some name := by
  obtain ⟨hid, rfl⟩ := Hint.bareName?_iff.1 hname
  have hspelled' := parse_iff.1 hterm'
  have hsame : unquote source'.toList = unquote source.toList := by
    rcases term_of_isIdentifier hterm hid with ⟨n, rfl, hn⟩ | ⟨text, rfl, htext⟩
    · obtain rfl := h.eq_name
      rw [hn, unquote_of_name hspelled']
    · cases h with
      | refl => rw [htext, unquote_of_quoted hspelled']
      | quoted hparse hparse' h =>
        rw [htext] at hid
        rw [htext, unquote_of_quoted hspelled',
          h.eq_of_quoted_name hparse hparse' hid (trim_of_quoted hspelled')]
      | optional _ hmade => cases hmade
  rw [Hint.bareName?_iff, hsame]
  exact ⟨hid, rfl⟩

theorem Optionally.parse_of_within {free : HintTerm → Prop} (h : Optionally free arg term)
    (hinner : Within inner term) :
    parse inner = .ok term := by
  cases h <;> exact hinner

/-- What a layer leaves of respelled arguments is the same text, or texts that are respelled. -/
theorem Respelled.within {free : HintTerm → Prop} (h : Respelled free arg arg')
    (hinner : Within inner arg) (hinner' : Within inner' arg') :
    inner = inner' ∨ ∃ term term', parse inner = .ok term ∧ parse inner' = .ok term' ∧
      Respelled free term term' := by
  cases h with
  | refl =>
    cases arg with
    | quoted source =>
      have hinner : inner = source := hinner
      exact .inl (hinner.trans (Eq.symm hinner'))
    | name | subscript => exact .inr ⟨_, _, hinner, hinner', .refl _⟩
  | quoted hparse hparse' h =>
    obtain rfl : inner = _ := hinner
    obtain rfl : inner' = _ := hinner'
    exact .inr ⟨_, _, hparse, hparse', h⟩
  | subscript h => exact .inr ⟨_, _, hinner, hinner', .subscript h⟩
  | optional h hmade hmade' =>
    exact .inr ⟨_, _, hmade.parse_of_within hinner, hmade'.parse_of_within hinner',
      .optional h hmade hmade'⟩

/-- Respelled texts leave the same names of unions, if what is free leaves none. -/
theorem Respelled.nameAt?_eq (hsome : ns.NamesSome name) :
    ∀ {k : Nat} {source source' : String} {term term' : HintTerm},
      Respelled (NamesNoUnion ns) term term' → parse source = .ok term →
      parse source' = .ok term' → Hint.nameAt? k (.text source) = some name →
      Hint.nameAt? k (.text source') = some name
  | 0, _, _, _, _, h, hterm, hterm', hname => h.bareName?_eq hterm hterm' hname
  | k + 1, source, source', term, term', h, hterm, hterm', hname => by
    obtain ⟨head, arg, inner, rfl, -, hinner, hname⟩ := Hint.exists_of_nameAt?_succ hterm hname
    have hone : ∀ {arg'}, term' = .subscript head [arg'] →
        Respelled (NamesNoUnion ns) arg arg' →
        Hint.nameAt? (k + 1) (.text source') = some name := by
      rintro arg' rfl harg
      obtain ⟨inner', hunwrap', hinner'⟩ := unwrapText_of_parse hterm'
      rw [Hint.nameAt?_succ_of_unwrapText hunwrap']
      rcases harg.within hinner hinner' with rfl | ⟨_, _, hparse, hparse', h⟩
      · exact hname
      · exact nameAt?_eq hsome h hparse hparse' hname
    cases h with
    | refl => exact hone rfl (.refl arg)
    | subscript hargs =>
      cases hargs with
      | cons harg hrest =>
        cases hrest
        exact hone rfl harg
    | optional _ hmade =>
      cases hmade with
      | optional hfree => exact absurd hsome (hfree inner hinner k name hname)

end HintTerm

/-! ## Respelled types -/

namespace TypeExpr

variable {free : HintTerm → Prop} {e e' : TypeExpr} {es es' : List TypeExpr}

theorem Respelled.isNone_eq (h : Respelled free e e') : e.isNone = e'.isNone := by
  cases h <;> rfl

theorem RespelledAll.filter (h : RespelledAll free es es') :
    RespelledAll free (es.filter (!·.isNone)) (es'.filter (!·.isNone)) := by
  induction es generalizing es' with
  | nil =>
    cases h
    exact .nil
  | cons e rest ih =>
    cases h with
    | cons h hrest =>
      rw [List.filter_cons, List.filter_cons, h.isNone_eq]
      split_ifs
      · exact .cons h (ih hrest)
      · exact ih hrest

theorem Respelled.ofExpr (h : Respelled free e e') :
    Hint.Respelled free (.ofExpr e) (.ofExpr e') := by
  cases h with
  | refl => exact .refl _
  | forward hterm hterm' h => exact .text hterm hterm' h
  | union h => exact .expr (.union h)
  | generic h => exact .expr (.generic h)

/-- A layer is taken off a respelled type as off the type itself. -/
theorem Respelled.exists_unwrap {hint : Hint} (h : Respelled free e e')
    (hinner : (Hint.expr e).unwrap = .ok hint) :
    ∃ hint', (Hint.expr e').unwrap = .ok hint' ∧ Hint.Respelled free hint hint' := by
  cases h with
  | refl => exact ⟨hint, hinner, .refl _⟩
  | forward => cases hinner
  | @union es es' hes =>
    have hfilter := hes.filter
    rw [Hint.unwrap] at hinner ⊢
    generalize es.filter (!·.isNone) = present at hfilter hinner
    generalize es'.filter (!·.isNone) = present' at hfilter ⊢
    cases hfilter with
    | nil => cases hinner
    | cons h hrest =>
      cases hrest with
      | cons => cases hinner
      | nil =>
        cases hinner
        exact ⟨_, rfl, h.ofExpr⟩
  | generic hes =>
    cases hes with
    | nil => cases hinner
    | cons h hrest =>
      cases hrest with
      | cons => cases hinner
      | nil =>
        cases hinner
        exact ⟨_, rfl, h.ofExpr⟩

end TypeExpr

/-- Respelled hints leave the same names of unions, if what is free leaves none. -/
theorem Hint.Respelled.keepsNames (h : Respelled (NamesNoUnion ns) hint hint') :
    KeepsNames ns (some hint) (some hint') := by
  intro k name hsome hname
  replace hname : nameAt? k hint = some name := hname
  show nameAt? k hint' = some name
  induction k generalizing hint hint' with
  | zero =>
    cases h with
    | refl => exact hname
    | text hterm hterm' h => exact h.nameAt?_eq hsome hterm hterm' hname
    | expr => cases hname
  | succ k ih =>
    cases h with
    | refl => exact hname
    | text hterm hterm' h => exact h.nameAt?_eq hsome hterm hterm' hname
    | expr h =>
      obtain ⟨inner, hinner, hname⟩ := Option.bind_eq_some_iff.1 hname
      obtain ⟨inner', hinner', h⟩ := h.exists_unwrap (ok_of_toOption hinner)
      rw [nameAt?, hinner']
      exact ih h hname

end HintSchema
