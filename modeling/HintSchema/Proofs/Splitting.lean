import HintSchema.Proofs.Stripping

/-!
# Splitting texts at commas

A scan for separating commas goes over each text of a term and stands behind it as it did before
(`Text.Passes`, `HintTerm.Spelled.passes`): what is in quotes is not looked at, and what is in
brackets is scanned one level deeper, where no comma separates.  So a text of several terms splits
into texts of the terms (`HintTerm.SpelledAll.exists_pieces`), whatever follows it.  The texts of the
members of a union are the parts of what is in its brackets, or are found behind another layer
(`Text.textsWithin_cases`).
-/

namespace HintSchema

open Text

namespace Text

variable {s : Scan} {cs cs' inside body inner rest : List Char} {parts : List (List Char)}
  {c q : Char} {d fuel : Nat}

/-! ## Trimming a text with more behind it -/

theorem trimRight_append_cons (cs rest : List Char) (hc : isBlank c = false) :
    trimRight (cs ++ c :: rest) = cs ++ c :: trimRight rest := by
  have hsplit : (cs ++ c :: rest).reverse = rest.reverse ++ c :: cs.reverse := by simp
  rw [trimRight, hsplit, trimLeft, List.dropWhile_append]
  split_ifs with hrest
  · have hblank : trimRight rest = [] := by
      rw [trimRight, trimLeft, List.isEmpty_iff.1 hrest, List.reverse_nil]
    have hstop : (c :: cs.reverse).dropWhile isBlank = c :: cs.reverse :=
      trimLeft_cons_of_not_blank hc
    rw [hstop, hblank]
    simp
  · rw [trimRight, trimLeft]
    simp

theorem trimLeft_append_cons (cs rest : List Char) (hc : isBlank c = false) :
    trimLeft (cs ++ c :: rest) = trimLeft cs ++ c :: rest := by
  rw [trimLeft, List.dropWhile_append]
  split_ifs with hcs
  · rw [trimLeft, List.isEmpty_iff.1 hcs, List.nil_append]
    exact trimLeft_cons_of_not_blank hc
  · rfl

/-- What is before a character that is no blank is trimmed at the front, what is behind it at the
end. -/
theorem trim_append_char (cs rest : List Char) (hc : isBlank c = false) :
    trim (cs ++ c :: rest) = trimLeft cs ++ c :: trimRight rest := by
  rw [trim, trimLeft_append_cons _ _ hc, trimRight_append_cons _ _ hc]

/-- A text with more behind it is trimmed at its own front and at the end of the rest. -/
theorem trim_append_cons {before core : List Char} (hb : AllBlank before)
    (hcore : trimLeft (core ++ c :: rest) = core ++ c :: rest) (hc : isBlank c = false) :
    trim (before ++ core ++ c :: rest) = core ++ c :: trimRight rest := by
  rw [trim, List.append_assoc, trimLeft_append hb, hcore, trimRight_append_cons _ _ hc]

theorem trim_append_blank (h : AllBlank rest) : trim (cs ++ rest) = trim cs := by
  rw [trim, trim, trimLeft, List.dropWhile_append]
  split_ifs with hcs
  · have hrest : rest.dropWhile isBlank = [] := h.trimLeft_eq
    rw [hrest, trimLeft, List.isEmpty_iff.1 hcs]
  · exact trimRight_append h

/-! ## What a scan passes -/

/-- A scan finds no separating comma in a text, and stands as before behind it. -/
def Passes (s : Scan) (cs : List Char) : Prop :=
  ∀ rest, pieces s (cs ++ rest) = (cs ++ (pieces s rest).1, (pieces s rest).2)

theorem pieces_cons (h : s.separates c = false) :
    pieces s (c :: rest) = (c :: (pieces (s.step c) rest).1, (pieces (s.step c) rest).2) := by
  rw [pieces, h]
  rfl

theorem Passes.append (h : Passes s cs) (h' : Passes s cs') : Passes s (cs ++ cs') := fun rest => by
  rw [List.append_assoc, h, h', List.append_assoc]

/-- Characters that leave a scan as it stands. -/
theorem passes_of_step (h : ∀ c ∈ cs, s.step c = s ∧ s.separates c = false) : Passes s cs := by
  intro rest
  induction cs with
  | nil => rfl
  | cons c cs ih =>
    obtain ⟨⟨hstep, hsep⟩, hcs⟩ := List.forall_mem_cons.1 h
    rw [List.cons_append, pieces_cons hsep, hstep, ih hcs]
    rfl

theorem step_of_plain (hquote : HintTerm.isQuote c = false) (hopen : c ≠ '[') (hclose : c ≠ ']')
    (hcomma : c ≠ ',') :
    Scan.step ⟨d, none⟩ c = ⟨d, none⟩ ∧ Scan.separates ⟨d, none⟩ c = false := by
  simp [Scan.step, Scan.separates, hquote, hopen, hclose, hcomma]

theorem AllBlank.passes (h : AllBlank cs) : Passes ⟨d, none⟩ cs := by
  refine passes_of_step fun c hc => step_of_plain ?_ ?_ ?_ ?_
  · exact HintTerm.isQuote_of_isBlank (h c hc)
  all_goals
    rintro rfl
    exact absurd (h _ hc) (by decide)

theorem separates_of_isQuote (s : Scan) (hq : HintTerm.isQuote q = true) :
    s.separates q = false := by
  cases hc : q == ',' with
  | false => simp [Scan.separates, hc]
  | true => exact absurd hq (beq_iff_eq.1 hc ▸ by decide)

/-- Nothing in quotes separates. -/
theorem passes_quoted (hq : HintTerm.isQuote q = true) (hinside : q ∉ inside) :
    Passes ⟨d, none⟩ (q :: (inside ++ [q])) := fun rest => by
  have hbegin : Scan.separates ⟨d, none⟩ q = false := separates_of_isQuote _ hq
  have hpass : Passes ⟨d, some q⟩ inside := passes_of_step fun c hc => by
    have hne : c ≠ q := fun he => hinside (he ▸ hc)
    simp [Scan.step, Scan.separates, hne]
  have hopen : Scan.step ⟨d, none⟩ q = ⟨d, some q⟩ := by simp [Scan.step, hq]
  have hclose : Scan.step ⟨d, some q⟩ q = ⟨d, none⟩ := by simp [Scan.step]
  have hend : Scan.separates ⟨d, some q⟩ q = false := rfl
  rw [List.cons_append, pieces_cons hbegin, hopen, List.append_assoc, hpass, List.singleton_append,
    pieces_cons hend, hclose]
  simp

/-- What is in brackets is scanned a level deeper. -/
theorem passes_bracketed (h : Passes ⟨d + 1, none⟩ body) :
    Passes ⟨d, none⟩ ('[' :: (body ++ [']'])) := fun rest => by
  have hbegin : Scan.separates ⟨d, none⟩ '[' = false := by simp [Scan.separates]
  have hend : Scan.separates ⟨d + 1, none⟩ ']' = false := by simp [Scan.separates]
  have hopen : Scan.step ⟨d, none⟩ '[' = ⟨d + 1, none⟩ := by
    simp [Scan.step, HintTerm.isQuote]
  have hclose : Scan.step ⟨d + 1, none⟩ ']' = ⟨d, none⟩ := by
    simp [Scan.step, HintTerm.isQuote]
  rw [List.cons_append, pieces_cons hbegin, hopen, List.append_assoc, h, List.singleton_append,
    pieces_cons hend, hclose]
  simp

theorem passes_comma : Passes ⟨d + 1, none⟩ [','] := by
  refine passes_of_step fun c hc => ?_
  rw [List.mem_singleton.1 hc]
  simp [Scan.step, Scan.separates, HintTerm.isQuote]

/-- The pieces of a text as one list. -/
def pieceList (cs : List Char) : List (List Char) := (pieces {} cs).1 :: (pieces {} cs).2

theorem splitTopLevel_eq (cs : List Char) : splitTopLevel cs = (pieceList cs).map trim := rfl

theorem pieceList_append (h : Passes {} cs) :
    pieceList (cs ++ rest) = (cs ++ (pieces {} rest).1) :: (pieces {} rest).2 := by
  rw [pieceList, h]

theorem pieceList_comma (h : Passes {} cs) :
    pieceList (cs ++ ',' :: rest) = cs :: pieceList rest := by
  have hcomma : pieces {} (',' :: rest) = ([], pieceList rest) := rfl
  rw [pieceList_append h, hcomma, List.append_nil]

/-! ## Texts of members -/

/-- The texts of the members that the parts of a text are. -/
def partTexts (parts : List (List Char)) : List (List Char) :=
  (parts.filter (· != ['N', 'o', 'n', 'e'])).map unquote

/-- The texts of the members when `inner` is the text that is in the brackets. -/
def textsWithin (fuel : Nat) (inner : List Char) : Option (List (List Char)) :=
  if 1 < (splitTopLevel inner).length then some (partTexts (splitTopLevel inner))
  else memberTexts fuel inner

theorem memberTexts_succ (fuel : Nat) (cs : List Char) :
    memberTexts (fuel + 1) cs = (bracketed? cs).bind fun body => textsWithin fuel (unquote body) := by
  rw [memberTexts]
  cases bracketed? cs <;> rfl

/-- The text in the brackets is split, or another layer is taken off it. -/
theorem textsWithin_cases (h : textsWithin fuel inner = some parts) :
    parts = partTexts (splitTopLevel inner) ∨ ∃ fuel' body, fuel = fuel' + 1 ∧
      bracketed? inner = some body ∧ textsWithin fuel' (unquote body) = some parts := by
  rw [textsWithin] at h
  split_ifs at h
  · cases h
    exact .inl rfl
  · cases fuel with
    | zero => cases h
    | succ fuel =>
      rw [memberTexts_succ] at h
      obtain ⟨body, hbody, h⟩ := Option.bind_eq_some_iff.1 h
      exact .inr ⟨fuel, body, rfl, hbody, h⟩

end Text

namespace HintTerm

variable {cs rest n : List Char} {term : HintTerm} {args : List HintTerm} {c : Char} {d : Nat}

/-! ## Trimming texts of terms -/

theorem Spelled.blanks {before after : List Char} (hb : AllBlank before) (ha : AllBlank after)
    (h : Spelled cs term) : Spelled (before ++ (cs ++ after)) term := by
  cases h with
  | name hb' hn ha' => simpa using Spelled.name (hb.append hb') hn (ha'.append ha)
  | quoted hb' hq hinside ha' => simpa using Spelled.quoted (hb.append hb') hq hinside (ha'.append ha)
  | subscript hb' hn hgap hbody ha' =>
    simpa using Spelled.subscript (hb.append hb') hn hgap hbody (ha'.append ha)

theorem spelled_trim_iff : Spelled (Text.trim cs) term ↔ Spelled cs term := by
  refine ⟨fun h => ?_, Spelled.trim⟩
  obtain ⟨before, after, hb, ha, hcs⟩ := exists_trim cs
  exact hcs ▸ h.blanks hb ha

/-- Leading blanks belong to the first term of a text. -/
theorem Spelled.exists_trimLeft (h : Spelled cs term) : ∃ cs', Spelled cs' term ∧
    ∀ rest, trimLeft (cs ++ rest) = cs' ++ rest := by
  cases h with
  | name hb hn ha =>
    refine ⟨_, by simpa using Spelled.name allBlank_nil hn ha, fun rest => ?_⟩
    rw [List.append_assoc, trimLeft_append hb, List.append_assoc, hn.tight.trimLeft_append]
  | quoted hb hq hinside ha =>
    refine ⟨_, by simpa using Spelled.quoted allBlank_nil hq hinside ha, fun rest => ?_⟩
    rw [List.append_assoc, trimLeft_append hb, List.cons_append,
      trimLeft_cons_of_not_blank (isBlank_of_isQuote hq)]
  | subscript hb hn hgap hbody ha =>
    refine ⟨_, by simpa using Spelled.subscript allBlank_nil hn hgap hbody ha, fun rest => ?_⟩
    rw [List.append_assoc, trimLeft_append hb, List.append_assoc, hn.tight.trimLeft_append]

theorem SpelledAll.exists_trimLeft (h : SpelledAll cs args) : ∃ cs', SpelledAll cs' args ∧
    ∀ rest, trimLeft (cs ++ rest) = cs' ++ rest := by
  cases h with
  | one h =>
    obtain ⟨cs', h', htrim⟩ := h.exists_trimLeft
    exact ⟨cs', .one h', htrim⟩
  | more h hrest =>
    obtain ⟨cs', h', htrim⟩ := h.exists_trimLeft
    refine ⟨_, .more h' hrest, fun rest => ?_⟩
    rw [List.append_assoc, htrim, List.append_assoc]

theorem SpelledAll.trimRight (h : SpelledAll cs args) : SpelledAll (trimRight cs) args := by
  -- On the list of terms: the relation is mutual with that of one term.
  induction args generalizing cs with
  | nil => cases h
  | cons arg rest ih =>
    cases h with
    | one h =>
      obtain ⟨after, ha, hcs⟩ := exists_trimRight cs
      rw [← spelled_trim_iff, hcs, trim_append_blank ha, spelled_trim_iff] at h
      exact .one h
    | more h hrest =>
      rw [trimRight_append_cons _ _ (by decide)]
      exact .more h (ih hrest)

theorem SpelledAll.trim (h : SpelledAll cs args) : SpelledAll (trim cs) args := by
  obtain ⟨cs', h', htrim⟩ := h.exists_trimLeft
  have hcs : trimLeft cs = cs' := by simpa using htrim []
  rw [Text.trim, hcs]
  exact h'.trimRight

/-! ## Scanning terms -/

theorem IsName.passes (hn : IsName n) : Passes ⟨d, none⟩ n := by
  refine passes_of_step fun c hc => step_of_plain ?_ ?_ ?_ ?_
  · exact isQuote_of_isNameChar (hn.chars c hc)
  all_goals
    rintro rfl
    exact absurd (hn.chars _ hc) (by decide)

mutual

/-- A scan passes each text of a term, however deep it is. -/
theorem Spelled.passes : ∀ {cs : List Char} {term : HintTerm} {d : Nat}, Spelled cs term →
    Passes ⟨d, none⟩ cs
  | _, _, _, .name hb hn ha => hb.passes.append (hn.passes.append ha.passes)
  | _, _, _, @Spelled.quoted before inside after q hb hq hinside ha => by
    have hsplit : q :: (inside ++ q :: after) = q :: (inside ++ [q]) ++ after := by simp
    rw [hsplit]
    exact hb.passes.append ((passes_quoted hq hinside).append ha.passes)
  | _, _, _, @Spelled.subscript before n gap body after args hb hn hgap hbody ha => by
    have hsplit : '[' :: (body ++ ']' :: after) = '[' :: (body ++ [']']) ++ after := by simp
    rw [hsplit]
    exact hb.passes.append (hn.passes.append (hgap.passes.append
      ((passes_bracketed hbody.passes).append ha.passes)))

/-- In brackets it passes texts of several terms. -/
theorem SpelledAll.passes : ∀ {cs : List Char} {args : List HintTerm} {d : Nat},
    SpelledAll cs args → Passes ⟨d + 1, none⟩ cs
  | _, _, _, .one h => h.passes
  | _, _, _, @SpelledAll.more cs rest term terms h hrest => by
    rw [← List.singleton_append]
    exact h.passes.append (passes_comma.append hrest.passes)

end

/-- A text of terms splits into texts of the terms, and what follows it goes on with the last one. -/
theorem SpelledAll.exists_pieces : ∀ {cs : List Char} {args : List HintTerm}, SpelledAll cs args →
    ∀ rest, ∃ front last, List.Forall₂ Spelled (front ++ [last]) args ∧
      pieceList (cs ++ rest) = front ++ (last ++ (pieces {} rest).1) :: (pieces {} rest).2
  | cs, _, .one h, rest => ⟨[], cs, .cons h .nil, pieceList_append h.passes⟩
  | _, _, @SpelledAll.more first _ _ _ h hmore, rest => by
    obtain ⟨front, last, hspelled, hpieces⟩ := hmore.exists_pieces rest
    refine ⟨first :: front, last, .cons h hspelled, ?_⟩
    rw [List.append_assoc, List.cons_append, pieceList_comma h.passes, hpieces]
    rfl

/-- A text of terms alone splits into trimmed texts of them. -/
theorem SpelledAll.splitTopLevel (h : SpelledAll cs args) :
    List.Forall₂ Spelled (splitTopLevel cs) args := by
  obtain ⟨front, last, hspelled, hpieces⟩ := h.exists_pieces []
  have hnil : pieces {} [] = ([], []) := rfl
  rw [List.append_nil, hnil, List.append_nil] at hpieces
  rw [splitTopLevel_eq, hpieces, List.forall₂_map_left_iff]
  exact hspelled.imp fun _ _ => Spelled.trim

end HintTerm

end HintSchema
