import Mathlib.Data.List.TakeWhile
import HintSchema.Hint.Grammar
import HintSchema.Proofs.Outcome

/-!
# Texts that spell hints

`HintTerm.Spelled cs term` is the grammar of textual hints as a relation: the text `cs` is `term`,
with any blanks around its tokens.  `HintTerm.parse` accepts exactly the texts of the grammar
(`parse_iff`): what `readTerm` takes off the front of a text spells the term it returns, and any
spelling of a term is read back.
-/

namespace HintSchema

namespace Text

variable {before cs after : List Char} {c : Char}

/-! ## Blanks around a text -/

/-- Nothing but blanks. -/
def AllBlank (cs : List Char) : Prop := ∀ c ∈ cs, isBlank c = true

instance (cs : List Char) : Decidable (AllBlank cs) :=
  decidable_of_iff (cs.all isBlank = true) List.all_eq_true

/-- A text that begins and ends with characters that are no blanks. -/
structure Tight (cs : List Char) : Prop where
  nonempty : cs ≠ []
  first : ∀ c, cs.head? = some c → isBlank c = false
  last : ∀ c, cs.getLast? = some c → isBlank c = false

theorem allBlank_nil : AllBlank [] := fun _ h => by cases h

theorem AllBlank.reverse (h : AllBlank cs) : AllBlank cs.reverse :=
  fun c hc => h c (List.mem_reverse.1 hc)

theorem AllBlank.append (hb : AllBlank before) (ha : AllBlank after) :
    AllBlank (before ++ after) := by
  intro c hc
  rcases List.mem_append.1 hc with hc | hc
  · exact hb c hc
  · exact ha c hc

theorem trimLeft_cons_of_not_blank (h : isBlank c = false) : trimLeft (c :: cs) = c :: cs := by
  rw [trimLeft, List.dropWhile_cons, h]
  rfl

theorem trimLeft_append (h : AllBlank before) : trimLeft (before ++ cs) = trimLeft cs := by
  rw [trimLeft, List.dropWhile_append_of_pos h, trimLeft]

theorem AllBlank.trimLeft_eq (h : AllBlank cs) : trimLeft cs = [] := by
  rw [← List.append_nil cs, trimLeft_append h]
  rfl

/-- A text is its leading blanks and the rest. -/
theorem exists_trimLeft (cs : List Char) : ∃ before, AllBlank before ∧ cs = before ++ trimLeft cs :=
  ⟨cs.takeWhile isBlank, fun _ hc => List.mem_takeWhile_imp hc, List.takeWhile_append_dropWhile.symm⟩

theorem isBlank_head_trimLeft (h : trimLeft cs = c :: after) : isBlank c = false := by
  have hc := List.head?_dropWhile_not isBlank cs
  rw [← trimLeft, h] at hc
  simpa using hc

theorem trimRight_append (h : AllBlank after) : trimRight (cs ++ after) = trimRight cs := by
  rw [trimRight, List.reverse_append, trimLeft_append h.reverse, trimRight]

theorem AllBlank.trimRight_eq (h : AllBlank cs) : trimRight cs = [] := by
  rw [trimRight, h.reverse.trimLeft_eq, List.reverse_nil]

theorem exists_trimRight (cs : List Char) :
    ∃ after, AllBlank after ∧ cs = trimRight cs ++ after := by
  obtain ⟨before, hb, hcs⟩ := exists_trimLeft cs.reverse
  refine ⟨before.reverse, hb.reverse, ?_⟩
  rw [trimRight, ← List.reverse_append, ← hcs, List.reverse_reverse]

theorem Tight.trimLeft_append (h : Tight cs) : trimLeft (cs ++ after) = cs ++ after := by
  cases cs with
  | nil => exact absurd rfl h.nonempty
  | cons c rest => exact trimLeft_cons_of_not_blank (h.first c rfl)

theorem Tight.reverse (h : Tight cs) : Tight cs.reverse where
  nonempty := by simpa using h.nonempty
  first c hc := h.last c (by simpa using hc)
  last c hc := h.first c (by simpa using hc)

theorem Tight.trimRight_eq (h : Tight cs) : trimRight cs = cs := by
  have hr : trimLeft (cs.reverse ++ []) = cs.reverse ++ [] := h.reverse.trimLeft_append
  rw [List.append_nil] at hr
  rw [trimRight, hr, List.reverse_reverse]

/-- Trimming takes off exactly the blanks around a text without blanks at its ends. -/
theorem trim_append (hb : AllBlank before) (h : Tight cs) (ha : AllBlank after) :
    trim (before ++ (cs ++ after)) = cs := by
  rw [trim, Text.trimLeft_append hb, h.trimLeft_append, trimRight_append ha, h.trimRight_eq]

/-- A text is its trimmed part between blanks. -/
theorem exists_trim (cs : List Char) :
    ∃ before after, AllBlank before ∧ AllBlank after ∧ cs = before ++ (trim cs ++ after) := by
  obtain ⟨before, hb, hcs⟩ := exists_trimLeft cs
  obtain ⟨after, ha, hr⟩ := exists_trimRight (trimLeft cs)
  exact ⟨before, after, hb, ha, by rw [trim, ← hr, ← hcs]⟩

/-- A trimmed text is empty or has no blanks at its ends. -/
theorem trim_eq_nil_or_tight (cs : List Char) : trim cs = [] ∨ Tight (trim cs) := by
  rw [or_iff_not_imp_left]
  refine fun hne => ⟨hne, fun c hc => ?_, fun c hc => ?_⟩
  · obtain ⟨after, -, hright⟩ := exists_trimRight (trimLeft cs)
    obtain ⟨rest, hrest⟩ := List.head?_eq_some_iff.1 hc
    rw [← trim, hrest] at hright
    exact isBlank_head_trimLeft hright
  · rw [trim, trimRight, List.getLast?_reverse] at hc
    obtain ⟨rest, hrest⟩ := List.head?_eq_some_iff.1 hc
    exact isBlank_head_trimLeft hrest

theorem trim_trim (cs : List Char) : trim (trim cs) = trim cs := by
  rcases trim_eq_nil_or_tight cs with h | h
  · rw [h]
    rfl
  · simpa using trim_append allBlank_nil h allBlank_nil

end Text

open Text

namespace HintTerm

variable {c : Char} {n cs used rest inside body before after : List Char} {term arg : HintTerm}
  {args : List HintTerm} {fuel : Nat}

/-! ## The grammar -/

/-- A letter or underscore followed by letters, digits, underscores and dots. -/
structure IsName (n : List Char) : Prop where
  nonempty : n ≠ []
  first : ∀ c, n.head? = some c → isNameStart c = true
  chars : ∀ c ∈ n, isNameChar c = true

mutual

/-- The texts of a term. -/
inductive Spelled : List Char → HintTerm → Prop
  | name {before n after : List Char} :
      AllBlank before → IsName n → AllBlank after →
      Spelled (before ++ (n ++ after)) (.name (String.ofList n))
  | quoted {before inside after : List Char} {q : Char} :
      AllBlank before → isQuote q = true → q ∉ inside → AllBlank after →
      Spelled (before ++ q :: (inside ++ q :: after)) (.quoted (String.ofList (trim inside)))
  | subscript {before n gap body after : List Char} {args : List HintTerm} :
      AllBlank before → IsName n → AllBlank gap → SpelledAll body args → AllBlank after →
      Spelled (before ++ (n ++ (gap ++ '[' :: (body ++ ']' :: after))))
        (.subscript (String.ofList n) args)

/-- The texts of one or more terms, with commas between them. -/
inductive SpelledAll : List Char → List HintTerm → Prop
  | one {cs : List Char} {term : HintTerm} : Spelled cs term → SpelledAll cs [term]
  | more {cs rest : List Char} {term : HintTerm} {terms : List HintTerm} :
      Spelled cs term → SpelledAll rest terms → SpelledAll (cs ++ ',' :: rest) (term :: terms)

end

/-! ## Characters -/

theorem isNameChar_of_isNameStart (h : isNameStart c = true) : isNameChar c = true := by
  simp only [isNameStart, isNameChar, Char.isAlphanum, Bool.or_eq_true] at h ⊢
  tauto

theorem isBlank_of_isNameChar (h : isNameChar c = true) : isBlank c = false := by
  have halpha : c.isAlpha = (c.isUpper || c.isLower) := rfl
  have hupper : c.isUpper = decide (65 ≤ c.val ∧ c.val ≤ 90) := rfl
  have hlower : c.isLower = (decide (97 ≤ c.val) && decide (c.val ≤ 122)) := rfl
  simp only [isNameChar, Char.isAlphanum, halpha, hupper, hlower, Char.isDigit, Bool.or_eq_true,
    Bool.and_eq_true, decide_eq_true_eq, beq_iff_eq, ge_iff_le, UInt32.le_iff_toNat_le] at h
  have hcode : (48 ≤ c.toNat ∧ c.toNat ≤ 57) ∨ (65 ≤ c.toNat ∧ c.toNat ≤ 90) ∨
      (97 ≤ c.toNat ∧ c.toNat ≤ 122) ∨ c.toNat = 95 ∨ c.toNat = 46 := by
    rcases h with (((h | h) | h) | rfl) | rfl
    · exact .inr (.inl h)
    · exact .inr (.inr (.inl h))
    · exact .inl h
    · decide
    · decide
  simp [isBlank, blankRanges]
  omega

theorem isBlank_of_isQuote (h : isQuote c = true) : isBlank c = false := by
  simp only [isQuote, Bool.or_eq_true, beq_iff_eq] at h
  rcases h with rfl | rfl <;> decide

theorem isQuote_of_isBlank (h : isBlank c = true) : isQuote c = false := by
  cases hq : isQuote c with
  | false => rfl
  | true => exact absurd h (by simp [isBlank_of_isQuote hq])

theorem isQuote_of_isNameChar (h : isNameChar c = true) : isQuote c = false := by
  cases hq : isQuote c with
  | false => rfl
  | true =>
    simp only [isQuote, Bool.or_eq_true, beq_iff_eq] at hq
    rcases hq with rfl | rfl <;> exact absurd h (by decide)

theorem isQuote_of_isNameStart (h : isNameStart c = true) : isQuote c = false :=
  isQuote_of_isNameChar (isNameChar_of_isNameStart h)

theorem IsName.tight (hn : IsName n) : Tight n where
  nonempty := hn.nonempty
  first c hc := isBlank_of_isNameChar (hn.chars c (List.mem_of_head? hc))
  last c hc := isBlank_of_isNameChar (hn.chars c (List.mem_of_getLast? hc))

/-! ## Reading -/

/-- Nothing of a name at the front of a text. -/
def NameEnds (cs : List Char) : Prop := ∀ c, cs.head? = some c → isNameChar c = false

theorem NameEnds.cons (h : isNameChar c = false) : NameEnds (c :: cs) := fun _ hc => by
  cases hc
  exact h

theorem NameEnds.append (ha : AllBlank after) (h : NameEnds rest) : NameEnds (after ++ rest) := by
  cases after with
  | nil => exact h
  | cons c _ =>
    refine .cons ?_
    cases hc : isNameChar c with
    | false => rfl
    | true => exact absurd (ha c List.mem_cons_self) (by rw [isBlank_of_isNameChar hc]; simp)

theorem IsName.takeWhile_append (hn : IsName n) (h : NameEnds rest) :
    (n ++ rest).takeWhile isNameChar = n := by
  rw [List.takeWhile_append_of_pos hn.chars]
  cases rest with
  | nil => simp
  | cons c _ => rw [List.takeWhile_cons, h c rfl]; simp

theorem IsName.dropWhile_append (hn : IsName n) (h : NameEnds rest) :
    (n ++ rest).dropWhile isNameChar = rest := by
  rw [List.dropWhile_append_of_pos hn.chars]
  cases rest with
  | nil => rfl
  | cons c _ => rw [List.dropWhile_cons, h c rfl]; simp

/-- What begins like a name has a name at its front. -/
theorem isName_takeWhile (h : isNameStart c = true) :
    IsName ((c :: cs).takeWhile isNameChar) := by
  rw [List.takeWhile_cons, isNameChar_of_isNameStart h]
  refine ⟨by simp, fun d hd => ?_, fun d hd => ?_⟩
  · cases hd
    exact h
  · rcases List.mem_cons.1 hd with rfl | hd
    · exact isNameChar_of_isNameStart h
    · exact List.mem_takeWhile_imp hd

/-- A text with a quote in it is read up to the first one. -/
theorem exists_of_dropWhile {q : Char} (h : cs.dropWhile (· != q) = c :: after) :
    c = q ∧ q ∉ cs.takeWhile (· != q) ∧ cs = cs.takeWhile (· != q) ++ q :: after := by
  have hc := List.head?_dropWhile_not (· != q) cs
  rw [h] at hc
  obtain rfl : c = q := by simpa using hc
  refine ⟨rfl, fun hmem => ?_, ?_⟩
  · simpa using List.mem_takeWhile_imp hmem
  · rw [← h, List.takeWhile_append_dropWhile]

/-- The name at the front of a text, and what follows it behind blanks. -/
theorem exists_name (cs : List Char) (h : isNameStart c = true) :
    ∃ n gap, IsName n ∧ AllBlank gap ∧ (c :: cs).takeWhile isNameChar = n ∧
      c :: cs = n ++ (gap ++ trimLeft ((c :: cs).dropWhile isNameChar)) := by
  obtain ⟨gap, hgap, hdrop⟩ := exists_trimLeft ((c :: cs).dropWhile isNameChar)
  refine ⟨(c :: cs).takeWhile isNameChar, gap, isName_takeWhile h, hgap, rfl, ?_⟩
  rw [← hdrop, List.takeWhile_append_dropWhile]

/-! ### Soundness -/

mutual

/-- What is read off the front of a text spells the term. -/
theorem spelled_of_readTerm : ∀ (fuel : Nat) {cs : List Char} {term : HintTerm} {rest : List Char},
    readTerm fuel cs = .ok (term, rest) → ∃ used, cs = used ++ rest ∧ Spelled used term
  | 0, _, _, _, h => by cases h
  | fuel + 1, cs, term, rest, h => by
    obtain ⟨before, hbefore, hcs⟩ := exists_trimLeft cs
    rw [readTerm] at h
    split at h
    · cases h
    · rename_i c chars hc
      rw [hc] at hcs
      split_ifs at h with hq hs
      · split at h
        · cases h
        · rename_i c' after hdrop
          obtain ⟨rfl, hinside, hchars⟩ := exists_of_dropWhile hdrop
          obtain ⟨blanks, hblanks, hafter⟩ := exists_trimLeft after
          cases h
          refine ⟨_, ?_, .quoted hbefore hq hinside hblanks⟩
          rw [hchars, hafter] at hcs
          rw [hcs]
          simp
      · obtain ⟨n, gap, hname, hgap, htake, hsplit⟩ := exists_name chars hs
        rw [htake] at h
        rw [hsplit] at hcs
        dsimp only at h
        split at h
        · rename_i inside hinside
          obtain ⟨⟨args, after⟩, hargs, h⟩ := ok_of_bind h
          cases h
          obtain ⟨body, blanks, rfl, hspelled, hblanks⟩ := spelledAll_of_readTerms fuel hargs
          refine ⟨_, ?_, .subscript hbefore hname hgap hspelled hblanks⟩
          rw [hcs, hinside]
          simp
        · cases h
          refine ⟨_, ?_, .name hbefore hname hgap⟩
          rw [hcs]
          simp

/-- What is read off the front of a text spells the terms, up to a closing bracket. -/
theorem spelledAll_of_readTerms : ∀ (fuel : Nat) {cs : List Char} {args : List HintTerm}
    {rest : List Char}, readTerms fuel cs = .ok (args, rest) →
      ∃ body after, cs = body ++ ']' :: (after ++ rest) ∧ SpelledAll body args ∧ AllBlank after
  | 0, _, _, _, h => by cases h
  | fuel + 1, cs, args, rest, h => by
    rw [readTerms] at h
    obtain ⟨⟨arg, follow⟩, harg, h⟩ := ok_of_bind h
    obtain ⟨used, hcs, hused⟩ := spelled_of_readTerm fuel harg
    rw [hcs]
    dsimp only at h
    split at h
    · obtain ⟨⟨args', rest'⟩, hargs, h⟩ := ok_of_bind h
      cases h
      obtain ⟨body, blanks, rfl, hspelled, hblanks⟩ := spelledAll_of_readTerms fuel hargs
      refine ⟨_, blanks, ?_, .more hused hspelled, hblanks⟩
      simp
    · rename_i more
      cases h
      obtain ⟨blanks, hblanks, hmore⟩ := exists_trimLeft more
      refine ⟨used, blanks, ?_, .one hused, hblanks⟩
      rw [← hmore]
    · cases h

end

/-! ### Completeness -/

/-- What may follow a term: the end, or a character that neither goes on with the term nor is blank. -/
def Follows (cs : List Char) : Prop :=
  ∀ c, cs.head? = some c → isNameChar c = false ∧ isBlank c = false ∧ c ≠ '['

theorem follows_nil : Follows [] := fun _ h => by cases h

theorem follows_cons (hname : isNameChar c = false) (hblank : isBlank c = false) (hopen : c ≠ '[') :
    Follows (c :: cs) := fun _ h => by
  cases h
  exact ⟨hname, hblank, hopen⟩

theorem follows_comma : Follows (',' :: cs) := follows_cons (by decide) (by decide) (by decide)

theorem follows_close : Follows (']' :: cs) := follows_cons (by decide) (by decide) (by decide)

theorem follows_quote (h : isQuote c = true) : Follows (c :: cs) := by
  simp only [isQuote, Bool.or_eq_true, beq_iff_eq] at h
  rcases h with rfl | rfl <;> exact follows_cons (by decide) (by decide) (by decide)

theorem Follows.nameEnds (h : Follows rest) : NameEnds rest := fun c hc => (h c hc).1

theorem Follows.trimLeft_eq (h : Follows rest) : trimLeft rest = rest := by
  cases rest with
  | nil => rfl
  | cons c _ => exact trimLeft_cons_of_not_blank (h c rfl).2.1

theorem IsName.exists_cons (hn : IsName n) : ∃ c chars, n = c :: chars ∧ isNameStart c = true := by
  cases n with
  | nil => exact absurd rfl hn.nonempty
  | cons c chars => exact ⟨c, chars, rfl, hn.first c rfl⟩

/-- A name is read up to what cannot belong to it; an opening bracket makes it a head. -/
theorem readTerm_name_append (hbefore : AllBlank before) (hn : IsName n) (hrest : NameEnds rest) :
    (∀ {inside args after}, trimLeft rest = '[' :: inside →
      readTerms fuel inside = .ok (args, after) →
      readTerm (fuel + 1) (before ++ (n ++ rest)) =
        .ok (.subscript (String.ofList n) args, after)) ∧
    ((∀ inside, trimLeft rest ≠ '[' :: inside) →
      readTerm (fuel + 1) (before ++ (n ++ rest)) =
        .ok (.name (String.ofList n), trimLeft rest)) := by
  have htake := hn.takeWhile_append hrest
  have hdrop := hn.dropWhile_append hrest
  rw [readTerm, trimLeft_append hbefore, hn.tight.trimLeft_append]
  obtain ⟨c, chars, rfl, hc⟩ := hn.exists_cons
  simp only [List.cons_append] at htake hdrop ⊢
  rw [if_neg (by rw [isQuote_of_isNameStart hc]; simp), if_pos hc, htake, hdrop]
  constructor
  · intro inside args after hinside hargs
    rw [hinside]
    show (readTerms fuel inside >>= _) = _
    rw [hargs]
    rfl
  · intro hname
    split
    · rename_i inside hinside
      exact absurd hinside (hname inside)
    · rfl

theorem readTerm_quoted {q : Char} (fuel : Nat) (hbefore : AllBlank before)
    (hq : isQuote q = true) (hinside : q ∉ inside) (hafter : AllBlank after)
    (hrest : trimLeft rest = rest) :
    readTerm (fuel + 1) (before ++ q :: (inside ++ q :: (after ++ rest))) =
      .ok (.quoted (String.ofList (trim inside)), rest) := by
  have hchars : ∀ c ∈ inside, (c != q) = true := fun c hc => by
    simpa using fun h : c = q => hinside (h ▸ hc)
  rw [readTerm, trimLeft_append hbefore, trimLeft_cons_of_not_blank (isBlank_of_isQuote hq)]
  dsimp only
  rw [if_pos hq, List.dropWhile_append_of_pos hchars, List.takeWhile_append_of_pos hchars,
    List.dropWhile_cons, List.takeWhile_cons]
  simp only [bne_self_eq_false, Bool.false_eq_true, if_false, List.append_nil]
  rw [trimLeft_append hafter, hrest]

mutual

/-- Any text of a term is read as the term. -/
theorem readTerm_of_spelled : ∀ {used : List Char} {term : HintTerm}, Spelled used term →
    ∀ {fuel : Nat} {rest : List Char}, 2 * used.length ≤ fuel → Follows rest →
      readTerm fuel (used ++ rest) = .ok (term, rest)
  | _, _, @Spelled.name before n after hbefore hn hafter, fuel, rest, hfuel, hrest => by
    have hpos := List.length_pos_iff.2 hn.nonempty
    simp only [List.length_append] at hfuel
    obtain ⟨fuel, rfl⟩ := Nat.exists_eq_add_one_of_ne_zero (show fuel ≠ 0 by omega)
    have htrim : trimLeft (after ++ rest) = rest := by
      rw [trimLeft_append hafter, hrest.trimLeft_eq]
    rw [List.append_assoc, List.append_assoc,
      (readTerm_name_append hbefore hn (.append hafter hrest.nameEnds)).2, htrim]
    rw [htrim]
    rintro inside rfl
    exact (hrest '[' rfl).2.2 rfl
  | _, _, @Spelled.quoted before inside after q hbefore hq hinside hafter, fuel, rest, hfuel,
      hrest => by
    simp only [List.length_append, List.length_cons] at hfuel
    obtain ⟨fuel, rfl⟩ := Nat.exists_eq_add_one_of_ne_zero (show fuel ≠ 0 by omega)
    have hread := readTerm_quoted fuel hbefore hq hinside hafter hrest.trimLeft_eq
    simpa using hread
  | _, _, @Spelled.subscript before n gap body after args hbefore hn hgap hbody hafter, fuel, rest,
      hfuel, hrest => by
    have hpos := List.length_pos_iff.2 hn.nonempty
    simp only [List.length_append, List.length_cons] at hfuel
    obtain ⟨fuel, rfl⟩ := Nat.exists_eq_add_one_of_ne_zero (show fuel ≠ 0 by omega)
    have hread : readTerms fuel (body ++ ']' :: (after ++ rest)) = .ok (args, rest) :=
      readTerms_of_spelledAll hbody (by omega) hafter hrest.trimLeft_eq
    simp only [List.append_assoc, List.cons_append]
    refine (readTerm_name_append hbefore hn (.append hgap (.cons (by decide)))).1 ?_ hread
    rw [trimLeft_append hgap, trimLeft_cons_of_not_blank (by decide)]

/-- Any text of terms is read as the terms, up to a closing bracket and the blanks behind it. -/
theorem readTerms_of_spelledAll : ∀ {body : List Char} {args : List HintTerm},
    SpelledAll body args → ∀ {fuel : Nat} {after rest : List Char}, 2 * body.length + 1 ≤ fuel →
      AllBlank after → trimLeft rest = rest →
        readTerms fuel (body ++ ']' :: (after ++ rest)) = .ok (args, rest)
  | _, _, .one hterm, fuel, after, rest, hfuel, hafter, hrest => by
    obtain ⟨fuel, rfl⟩ := Nat.exists_eq_add_one_of_ne_zero (show fuel ≠ 0 by omega)
    rw [readTerms, readTerm_of_spelled hterm (by omega) follows_close]
    show Except.ok (_, trimLeft (after ++ rest)) = _
    rw [trimLeft_append hafter, hrest]
  | _, _, @SpelledAll.more cs more term terms hterm hterms, fuel, after, rest, hfuel, hafter,
      hrest => by
    simp only [List.length_append, List.length_cons] at hfuel
    obtain ⟨fuel, rfl⟩ := Nat.exists_eq_add_one_of_ne_zero (show fuel ≠ 0 by omega)
    have hread : readTerms fuel (more ++ ']' :: (after ++ rest)) = .ok (terms, rest) :=
      readTerms_of_spelledAll hterms (by omega) hafter hrest
    rw [List.append_assoc, List.cons_append, readTerms,
      readTerm_of_spelled hterm (by omega) follows_comma]
    show (readTerms fuel _ >>= _) = _
    rw [hread]
    rfl

end

/-- A text is accepted as a term exactly when the grammar spells the term so. -/
theorem parse_iff {source : String} : parse source = .ok term ↔ Spelled source.toList term := by
  constructor
  · intro h
    obtain ⟨⟨term', rest⟩, hread, h⟩ := ok_of_bind h
    obtain ⟨used, hused, hspelled⟩ := spelled_of_readTerm _ hread
    dsimp only at h
    split_ifs at h with hrest
    cases h
    rw [List.isEmpty_iff.1 hrest, List.append_nil] at hused
    rwa [hused]
  · intro h
    have hread : readTerm (2 * source.toList.length + 2) (source.toList ++ []) = .ok (term, []) :=
      readTerm_of_spelled h (by omega) follows_nil
    rw [List.append_nil] at hread
    rw [parse, hread]
    rfl

/-- A text spells one term at most. -/
theorem Spelled.unique {term' : HintTerm} (h : Spelled cs term) (h' : Spelled cs term') :
    term = term' := by
  rw [← String.toList_ofList (l := cs), ← parse_iff] at h h'
  exact Except.ok.inj (h.symm.trans h')

/-- A text of a term with more behind it that does not go on with the term spells nothing. -/
theorem Spelled.not_spelled_append {term' : HintTerm} (h : Spelled cs term) (hrest : Follows rest)
    (hne : rest ≠ []) : ¬ Spelled (cs ++ rest) term' := by
  intro h'
  have hread : readTerm (2 * (cs ++ rest).length) (cs ++ rest) = .ok (term, rest) :=
    readTerm_of_spelled h (by rw [List.length_append]; omega) hrest
  have hread' := readTerm_of_spelled h' le_rfl follows_nil
  rw [List.append_nil, hread] at hread'
  cases hread'
  exact hne rfl

end HintTerm

end HintSchema
