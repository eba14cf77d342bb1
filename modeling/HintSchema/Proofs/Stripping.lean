import HintSchema.Hint.Unwrap
import HintSchema.Schema.Graph
import HintSchema.Proofs.Spelling

/-!
# Taking layers off texts

`bracketed?` and `unquote` work on characters only.  On a text of the grammar they do what the
grammar says: the brackets of a subscript are taken off, and then the quotes of a quoted argument,
so a layer taken off a subscript with one argument leaves a text of that argument
(`HintTerm.unwrapText_of_parse`).  A comma in a text is never taken off, and no identifier has one.
-/

namespace HintSchema

open Text

namespace Text

theorem tight_cons_concat {c d : Char} (cs : List Char) (hc : isBlank c = false)
    (hd : isBlank d = false) : Tight (c :: (cs ++ [d])) where
  nonempty := by simp
  first _ h := by
    cases h
    exact hc
  last _ h := by
    rw [← List.cons_append, List.getLast?_concat, Option.some.injEq] at h
    exact h ▸ hd

theorem trimRight_concat {c : Char} {cs : List Char} (hc : isBlank c = false) :
    trimRight (cs ++ [c]) = cs ++ [c] := by
  rw [trimRight, List.reverse_append, List.reverse_singleton, List.singleton_append,
    trimLeft_cons_of_not_blank hc, List.reverse_cons, List.reverse_reverse]

theorem mem_trim {c : Char} {cs : List Char} (hc : isBlank c = false) (hmem : c ∈ cs) :
    c ∈ trim cs := by
  obtain ⟨before, after, hb, ha, hcs⟩ := exists_trim cs
  rw [hcs, List.mem_append, List.mem_append] at hmem
  rcases hmem with hmem | hmem | hmem
  · exact absurd (hb c hmem) (by simp [hc])
  · exact hmem
  · exact absurd (ha c hmem) (by simp [hc])

end Text

namespace HintTerm

variable {cs rest body inside n gap before after : List Char} {term arg : HintTerm}
  {args : List HintTerm} {head name source : String} {c q : Char}

/-! ## Trimmed texts -/

theorem trim_quoted (hb : AllBlank before) (hq : isQuote q = true) (ha : AllBlank after) :
    trim (before ++ q :: (inside ++ q :: after)) = q :: (inside ++ [q]) := by
  have hblank := isBlank_of_isQuote hq
  simpa using trim_append hb (tight_cons_concat inside hblank hblank) ha

theorem trim_subscript (hb : AllBlank before) (hn : IsName n) (ha : AllBlank after) :
    trim (before ++ (n ++ (gap ++ '[' :: (body ++ ']' :: after)))) =
      n ++ (gap ++ '[' :: (body ++ [']'])) := by
  obtain ⟨c, chars, rfl, hc⟩ := hn.exists_cons
  have hblank := isBlank_of_isNameChar (isNameChar_of_isNameStart hc)
  have hclose : isBlank ']' = false := by decide
  simpa using trim_append hb (tight_cons_concat (chars ++ (gap ++ '[' :: body)) hblank hclose) ha

theorem IsName.spelled (hn : IsName n) : Spelled n (.name (String.ofList n)) := by
  simpa using Spelled.name allBlank_nil hn allBlank_nil

/-- A text of a term is one of it when it is trimmed. -/
theorem Spelled.trim (h : Spelled cs term) : Spelled (trim cs) term := by
  cases h with
  | name hb hn ha =>
    rw [trim_append hb hn.tight ha]
    exact hn.spelled
  | quoted hb hq hinside ha =>
    rw [trim_quoted hb hq ha]
    exact Spelled.quoted allBlank_nil hq hinside allBlank_nil
  | subscript hb hn hgap hbody ha =>
    rw [trim_subscript hb hn ha]
    exact Spelled.subscript allBlank_nil hn hgap hbody allBlank_nil

theorem Spelled.ne_nil (h : Spelled cs term) : cs ≠ [] := by
  cases h with
  | name _ hn _ => simp [hn.nonempty]
  | quoted | subscript => simp

theorem SpelledAll.ne_nil (h : SpelledAll cs args) : cs ≠ [] := by
  cases h with
  | one h => exact h.ne_nil
  | more => simp

/-! ## Quotes -/

/-- Dropping quotes only trims a text, or drops the same quote at either end of it. -/
theorem unquote_cases (cs : List Char) : unquote cs = Text.trim cs ∨
    ∃ q inside, isQuote q = true ∧ Text.trim cs = q :: (inside ++ [q]) ∧
      unquote cs = Text.trim inside := by
  rw [unquote]
  split
  · rename_i h
    exact .inl h.symm
  · rename_i q rest h
    split_ifs with hq
    · rw [Bool.and_eq_true, beq_iff_eq] at hq
      refine .inr ⟨q, rest.dropLast, hq.1, ?_, rfl⟩
      rw [h, List.dropLast_append_getLast? q hq.2]
    · exact .inl h.symm

theorem unquote_quotes (hb : AllBlank before) (hq : isQuote q = true) (ha : AllBlank after) :
    unquote (before ++ q :: (inside ++ q :: after)) = Text.trim inside := by
  rw [unquote, trim_quoted hb hq ha]
  simp [hq]

/-- Dropping quotes off a text in quotes leaves what it refers to. -/
theorem unquote_of_quoted (h : Spelled cs (.quoted source)) : unquote cs = source.toList := by
  cases h with
  | quoted hb hq _ ha => rw [unquote_quotes hb hq ha, String.toList_ofList]

theorem unquote_of_isNameStart (h : Text.trim cs = c :: rest) (hc : isNameStart c = true) :
    unquote cs = c :: rest := by
  rw [unquote, h]
  simp [isQuote_of_isNameStart hc]

theorem unquote_of_name (h : Spelled cs (.name name)) : unquote cs = name.toList := by
  cases h with
  | name hb hn ha =>
    obtain ⟨c, chars, rfl, hc⟩ := hn.exists_cons
    rw [String.toList_ofList]
    exact unquote_of_isNameStart (trim_append hb hn.tight ha) hc

theorem unquote_of_subscript (h : Spelled cs (.subscript head args)) :
    unquote cs = Text.trim cs := by
  cases h with
  | subscript hb hn hgap hbody ha =>
    obtain ⟨c, chars, rfl, hc⟩ := hn.exists_cons
    rw [trim_subscript hb hn ha]
    exact unquote_of_isNameStart (trim_subscript hb hn ha) hc

/-! ## Brackets -/

/-- What is in the brackets behind a name is decided by what follows the name. -/
theorem bracketed?_append (hb : AllBlank before) (hn : IsName n) (hrest : NameEnds rest) :
    bracketed? (before ++ (n ++ rest)) =
      match trimLeft rest with
      | '[' :: inside =>
        if (trimRight inside).getLast? == some ']' && 1 < (trimRight inside).length then
          some (trimRight inside).dropLast
        else none
      | _ => none := by
  have hdrop := hn.dropWhile_append hrest
  rw [bracketed?, trimLeft_append hb, hn.tight.trimLeft_append]
  obtain ⟨c, chars, rfl, hc⟩ := hn.exists_cons
  rw [List.cons_append, List.dropWhile_cons, if_pos (isNameChar_of_isNameStart hc)] at hdrop
  rw [List.cons_append]
  dsimp only
  rewrite [if_pos hc, hdrop]
  rfl

theorem bracketed?_name_append (hb : AllBlank before) (hn : IsName n) (hrest : NameEnds rest) :
    (∀ {inside body}, trimLeft rest = '[' :: inside → trimRight inside = body ++ [']'] → body ≠ [] →
      bracketed? (before ++ (n ++ rest)) = some body) ∧
    ((∀ inside, trimLeft rest ≠ '[' :: inside) → bracketed? (before ++ (n ++ rest)) = none) := by
  rw [bracketed?_append hb hn hrest]
  constructor
  · intro inside body hinside hbody hne
    have hpos := List.length_pos_iff.2 hne
    rw [hinside]
    show (if _ then some (trimRight inside).dropLast else none) = _
    rw [hbody, if_pos, List.dropLast_concat]
    simp only [List.getLast?_concat, List.length_append, List.length_singleton, beq_self_eq_true,
      Bool.true_and, decide_eq_true_eq]
    omega
  · intro hname
    split
    · rename_i inside hinside
      exact absurd hinside (hname inside)
    · rfl

/-- Behind a name everything up to the last bracket is taken. -/
theorem bracketed?_layer (hb : AllBlank before) (hn : IsName n) (hgap : AllBlank gap)
    (ha : AllBlank after) (hne : body ≠ []) :
    bracketed? (before ++ (n ++ (gap ++ '[' :: (body ++ ']' :: after)))) = some body := by
  have hopen : trimLeft (gap ++ '[' :: (body ++ ']' :: after)) = '[' :: (body ++ ']' :: after) := by
    rw [trimLeft_append hgap, trimLeft_cons_of_not_blank (by decide)]
  have hclose : trimRight (body ++ ']' :: after) = body ++ [']'] := by
    rw [List.append_cons, trimRight_append ha, trimRight_concat (by decide)]
  exact (bracketed?_name_append hb hn (.append hgap (.cons (by decide)))).1 hopen hclose hne

/-- The text between the brackets of a subscript spells its arguments. -/
theorem bracketed?_of_subscript (h : Spelled cs (.subscript head args)) :
    ∃ body, bracketed? cs = some body ∧ SpelledAll body args := by
  cases h with
  | subscript hb hn hgap hbody ha => exact ⟨_, bracketed?_layer hb hn hgap ha hbody.ne_nil, hbody⟩

theorem bracketed?_of_name (h : Spelled cs (.name name)) : bracketed? cs = none := by
  cases h with
  | @name before n after hb hn ha =>
    have hafter : NameEnds after := by
      have hnil : NameEnds [] := fun _ h => by cases h
      simpa using NameEnds.append ha hnil
    refine (bracketed?_name_append hb hn hafter).2 fun inside hinside => ?_
    rw [ha.trimLeft_eq] at hinside
    cases hinside

theorem bracketed?_quote_append (hb : AllBlank before) (hq : isQuote q = true) :
    bracketed? (before ++ q :: rest) = none := by
  have hname : ¬ isNameStart q = true := fun hs => by
    rw [isQuote_of_isNameStart hs] at hq
    cases hq
  rw [bracketed?, trimLeft_append hb, trimLeft_cons_of_not_blank (isBlank_of_isQuote hq)]
  exact if_neg hname

theorem bracketed?_of_quoted (h : Spelled cs (.quoted source)) : bracketed? cs = none := by
  cases h with
  | quoted hb hq => exact bracketed?_quote_append hb hq

/-! ## One argument -/

/-- The texts that a layer taken off leaves of an argument: what it refers to when it is in quotes,
and else a text of it. -/
def Within (inner : String) : HintTerm → Prop
  | .quoted source => inner = source
  | arg => parse inner = .ok arg

theorem within_unquote (h : Spelled cs arg) : Within (String.ofList (unquote cs)) arg := by
  cases arg with
  | quoted source =>
    show _ = source
    rw [unquote_of_quoted h, String.ofList_toList]
  | name name =>
    show parse _ = _
    rw [parse_iff, String.toList_ofList, unquote_of_name h]
    cases h with
    | name _ hn _ =>
      rw [String.toList_ofList]
      exact hn.spelled
  | subscript head args =>
    show parse _ = _
    rw [parse_iff, String.toList_ofList, unquote_of_subscript h]
    exact h.trim

/-- A layer is taken off a text with one argument. -/
theorem unwrapText_of_parse (h : parse source = .ok (.subscript head [arg])) :
    ∃ inner, Hint.unwrapText source = .ok inner ∧ Within inner arg := by
  obtain ⟨body, hbody, hspelled⟩ := bracketed?_of_subscript (parse_iff.1 h)
  have harg : Spelled body arg := by
    cases hspelled with
    | one harg => exact harg
    | more _ hrest => cases hrest
  exact ⟨_, by rw [Hint.unwrapText, hbody], within_unquote harg⟩

/-- No layer is taken off a text that is no subscript. -/
theorem unwrapText_of_bracketed? (h : bracketed? source.toList = none) :
    Hint.unwrapText source = .error (.pattern source) := by
  rw [Hint.unwrapText, h]

/-! ## Commas -/

/-- What is taken off with the brackets: a name and blanks before them, and blanks behind them. -/
theorem exists_of_bracketed? (h : bracketed? cs = some body) : ∃ before after,
    (∀ c ∈ before, isBlank c = true ∨ isNameChar c = true) ∧ AllBlank after ∧
      cs = before ++ '[' :: (body ++ ']' :: after) := by
  obtain ⟨blanks, hblanks, hcs⟩ := exists_trimLeft cs
  rw [bracketed?] at h
  split at h
  · cases h
  · rename_i c rest hc
    rw [hc] at hcs
    split_ifs at h with hs
    split at h
    · rename_i inside hinside
      dsimp only at h
      split_ifs at h with hlast
      cases h
      rw [Bool.and_eq_true, beq_iff_eq] at hlast
      obtain ⟨gap, hgap, hdrop⟩ := exists_trimLeft (rest.dropWhile isNameChar)
      obtain ⟨after, ha, hright⟩ := exists_trimRight inside
      have hname := isNameChar_of_isNameStart hs
      have hbody : trimRight inside = (trimRight inside).dropLast ++ [']'] :=
        (List.dropLast_append_getLast? ']' hlast.1).symm
      refine ⟨blanks ++ (c :: (rest.takeWhile isNameChar ++ gap)), after, ?_, ha, ?_⟩
      · intro d hd
        simp only [List.mem_append, List.mem_cons] at hd
        rcases hd with hd | rfl | hd | hd
        · exact .inl (hblanks d hd)
        · exact .inr hname
        · exact .inr (List.mem_takeWhile_imp hd)
        · exact .inl (hgap d hd)
      · have hrest : rest = rest.takeWhile isNameChar ++ (gap ++ '[' :: inside) := by
          rw [← hinside, ← hdrop, List.takeWhile_append_dropWhile]
        have hinside' : inside = (trimRight inside).dropLast ++ ']' :: after := by
          rw [List.append_cons, ← hbody, ← hright]
        calc cs = blanks ++ c :: (rest.takeWhile isNameChar ++ (gap ++ '[' :: inside)) := by
              rw [← hrest, hcs]
          _ = blanks ++ c :: (rest.takeWhile isNameChar ++
                (gap ++ '[' :: ((trimRight inside).dropLast ++ ']' :: after))) := by
              rw [← hinside']
          _ = _ := by simp
    · cases h

theorem comma_mem_unquote (hmem : ',' ∈ cs) : ',' ∈ unquote cs := by
  have htrim := mem_trim (c := ',') (by decide) hmem
  rcases unquote_cases cs with h | ⟨q, inside, hq, hcs, h⟩
  · rwa [h]
  · have hne : ',' ≠ q := by
      rintro rfl
      exact absurd hq (by decide)
    rw [hcs, List.mem_cons, List.mem_append, List.mem_singleton] at htrim
    rw [h]
    exact mem_trim (by decide) ((htrim.resolve_left hne).resolve_right hne)

/-- A comma stays in a text when a layer is taken off. -/
theorem comma_mem_of_unwrapText {inner : String} (h : Hint.unwrapText source = .ok inner)
    (hmem : ',' ∈ source.toList) : ',' ∈ inner.toList := by
  rw [Hint.unwrapText] at h
  split at h
  · rename_i body hbody
    cases h
    obtain ⟨before, after, hb, ha, hcs⟩ := exists_of_bracketed? hbody
    rw [String.toList_ofList]
    refine comma_mem_unquote ?_
    rw [hcs] at hmem
    simp only [List.mem_append, List.mem_cons] at hmem
    rcases hmem with hmem | hmem | hmem | hmem | hmem
    · exact absurd (hb _ hmem) (by decide)
    · cases hmem
    · exact hmem
    · cases hmem
    · exact absurd (ha _ hmem) (by decide)
  · cases h

/-- A text without commas has one argument in all its brackets. -/
theorem SpelledAll.exists_one (h : SpelledAll cs args) (hc : ',' ∉ cs) : ∃ arg, args = [arg] := by
  cases h with
  | one => exact ⟨_, rfl⟩
  | more => simp at hc

theorem exists_arg_of_parse (h : parse source = .ok (.subscript head args))
    (hc : ',' ∉ source.toList) : ∃ arg, args = [arg] := by
  have hspelled := parse_iff.1 h
  generalize source.toList = cs at hspelled hc
  cases hspelled with
  | subscript hb hn hgap hbody ha => exact hbody.exists_one fun hmem => hc (by simp [hmem])

/-! ## Identifiers -/

theorem isName_of_isIdentifier (h : isIdentifier cs = true) : IsName cs := by
  cases cs with
  | nil => cases h
  | cons c rest =>
    rw [isIdentifier, Bool.and_eq_true, List.all_eq_true] at h
    refine ⟨by simp, fun d hd => ?_, fun d hd => ?_⟩
    · cases hd
      exact h.1
    · rcases List.mem_cons.1 hd with rfl | hd
      · exact isNameChar_of_isNameStart h.1
      · have hchar := h.2 d hd
        simp only [isNameChar, Bool.or_eq_true] at hchar ⊢
        exact .inl hchar

theorem parse_of_isIdentifier (h : isIdentifier cs = true) :
    parse (String.ofList cs) = .ok (.name (String.ofList cs)) := by
  rw [parse_iff, String.toList_ofList]
  exact (isName_of_isIdentifier h).spelled

theorem comma_not_mem_of_isIdentifier (h : isIdentifier cs = true) : ',' ∉ cs := fun hmem => by
  have hchar := (isName_of_isIdentifier h).chars _ hmem
  revert hchar
  decide

/-- A text that is an identifier behind its quotes is the name, or refers to it. -/
theorem term_of_isIdentifier (h : parse source = .ok term)
    (hid : isIdentifier (unquote source.toList) = true) :
    (∃ name, term = .name name ∧ unquote source.toList = name.toList) ∨
      ∃ text, term = .quoted text ∧ unquote source.toList = text.toList := by
  rw [parse_iff] at h
  cases term with
  | name name => exact .inl ⟨name, rfl, unquote_of_name h⟩
  | quoted text => exact .inr ⟨text, rfl, unquote_of_quoted h⟩
  | subscript head args =>
    have hn := isName_of_isIdentifier hid
    rw [unquote_of_subscript h] at hn
    generalize source.toList = cs at h hn
    cases h with
    | subscript hb hn' _ _ ha =>
      rw [trim_subscript hb hn' ha] at hn
      exact absurd (hn.chars '[' (by simp)) (by decide)

end HintTerm

/-! ## Names of unions -/

theorem Text.unquote_trim (cs : List Char) : unquote (trim cs) = unquote cs := by
  rw [unquote, trim_trim, unquote]

variable {ann : ResolvedHint} {name : String}

/-- The name of a union is the identifier that its text is, perhaps in quotes. -/
theorem unionName_iff : unionName ann = .ok name ↔ ∃ source, ann.head.raw = some (.text source) ∧
    isIdentifier (unquote source.toList) = true ∧ name = String.ofList (unquote source.toList) := by
  rw [unionName, ResolvedHint.name?]
  rcases hraw : ann.head.raw with _ | (source | type)
  · simp
  · simp only [Option.bind_some, Hint.text?, Option.map_some, Text.trimmed, String.toList_ofList,
      Text.unquote_trim, Option.some.injEq, Hint.text.injEq, exists_eq_left']
    split_ifs with hid
    · simp [hid, eq_comm]
    · simp [hid]
  · simp [Hint.text?]

end HintSchema
