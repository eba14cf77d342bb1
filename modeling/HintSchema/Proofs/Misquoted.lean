import HintSchema.Proofs.ArgumentTexts

/-!
# Quotes dropped from two arguments

Quotes are dropped from the whole text in the brackets of a subscript before it is split.  When its
first and its last argument are in the same quotes, the first one loses the quote that begins it, and
the quote that ended it opens another one in front of the comma (`Text.Unclosed`).  That comma is lost
or is left in a text, so the first of the texts of the members is not what the first argument says
(`Text.head?_textsWithin`), and this is all that can go wrong (`HintTerm.memberHints_subscript`).
-/

namespace HintSchema

open Text

namespace Text

variable {cs a left gap rest body inner before after p x y xs ys : List Char} {c d q : Char}
  {parts : List (List Char)} {fuel : Nat}

/-! ## One character in two places of a text -/

/-- Of two characters in a text one is before the other, or they are the same. -/
theorem append_cons_cases (h : x ++ c :: xs = y ++ d :: ys) :
    (x = y ∧ c = d ∧ xs = ys) ∨ (∃ w, y = x ++ c :: w ∧ xs = w ++ d :: ys) ∨
      ∃ w, x = y ++ d :: w ∧ ys = w ++ c :: xs := by
  rcases List.append_eq_append_iff.1 h with ⟨as, rfl, has⟩ | ⟨bs, rfl, hbs⟩
  · cases as with
    | nil =>
      obtain ⟨rfl, rfl⟩ := List.cons.inj has
      exact .inl ⟨by simp, rfl, rfl⟩
    | cons a as =>
      obtain ⟨rfl, rfl⟩ := List.cons.inj has
      exact .inr (.inl ⟨as, rfl, rfl⟩)
  · cases bs with
    | nil =>
      obtain ⟨rfl, rfl⟩ := List.cons.inj hbs
      exact .inl ⟨by simp, rfl, rfl⟩
    | cons b bs =>
      obtain ⟨rfl, rfl⟩ := List.cons.inj hbs
      exact .inr (.inr ⟨bs, rfl, rfl⟩)

/-- A comma behind blanks is the first one. -/
theorem append_comma_cases (hgap : AllBlank gap) (h : gap ++ ',' :: xs = y ++ d :: ys) :
    (y = gap ∧ d = ',') ∨ (∃ w, y = gap ++ ',' :: w ∧ xs = w ++ d :: ys) ∨ isBlank d = true := by
  rcases append_cons_cases h with ⟨rfl, rfl, -⟩ | ⟨w, rfl, rfl⟩ | ⟨w, rfl, -⟩
  · exact .inl ⟨rfl, rfl⟩
  · exact .inr (.inl ⟨w, rfl, rfl⟩)
  · exact .inr (.inr (hgap d (by simp)))

theorem ne_of_isQuote (hq : HintTerm.isQuote q = true) : q ≠ ',' ∧ q ≠ '[' ∧ q ≠ ']' := by
  refine ⟨?_, ?_, ?_⟩ <;> rintro rfl <;> cases hq

theorem ne_none_of_mem (hq : HintTerm.isQuote q = true) (h : q ∈ p) : p ≠ ['N', 'o', 'n', 'e'] := by
  rintro rfl
  have hname : HintTerm.IsName ['N', 'o', 'n', 'e'] := HintTerm.isName_of_isIdentifier (by decide)
  simp [HintTerm.isQuote_of_isNameChar (hname.chars q h)] at hq

theorem count_comma_trim (cs : List Char) : (trim cs).count ',' = cs.count ',' := by
  obtain ⟨before, after, hb, ha, hcs⟩ := exists_trim cs
  have hnone : ∀ {blanks}, AllBlank blanks → blanks.count ',' = 0 := fun h =>
    List.count_eq_zero.2 fun hmem => absurd (h _ hmem) (by decide)
  conv_rhs => rw [hcs, List.count_append, List.count_append, hnone hb, hnone ha]
  omega

/-! ## Texts that begin with a name -/

/-- A text that begins with a name, blanks apart. -/
def BeginsName (cs : List Char) : Prop :=
  ∃ c rest, trimLeft cs = c :: rest ∧ HintTerm.isNameStart c = true

theorem beginsName_of_trim (h : trim cs = c :: rest) (hc : HintTerm.isNameStart c = true) :
    BeginsName cs := by
  have hblank := HintTerm.isBlank_of_isNameChar (HintTerm.isNameChar_of_isNameStart hc)
  obtain ⟨before, after, hb, -, hcs⟩ := exists_trim cs
  refine ⟨c, rest ++ after, ?_, hc⟩
  rw [hcs, h, trimLeft_append hb, List.cons_append, trimLeft_cons_of_not_blank hblank]

theorem BeginsName.trim_ne (h : BeginsName cs) : trim cs ≠ [] ∧ ∀ rest, trim cs ≠ ',' :: rest := by
  obtain ⟨c, rest, hcs, hc⟩ := h
  have hblank := HintTerm.isBlank_of_isNameChar (HintTerm.isNameChar_of_isNameStart hc)
  have htrim : trim cs = c :: trimRight rest := by
    rw [trim, hcs]
    exact trimRight_append_cons [] rest hblank
  rw [htrim]
  refine ⟨List.cons_ne_nil _ _, fun rest' hcomma => ?_⟩
  obtain ⟨rfl, -⟩ := List.cons.inj hcomma
  cases hc

theorem BeginsName.append (h : BeginsName cs) (hb : AllBlank before) :
    BeginsName (before ++ (cs ++ rest)) := by
  obtain ⟨c, more, hcs, hc⟩ := h
  refine ⟨c, more ++ rest, ?_, hc⟩
  rw [trimLeft_append hb, trimLeft, List.dropWhile_append, ← trimLeft, hcs]
  rfl

theorem BeginsName.of_bracket (h : BeginsName (before ++ '[' :: rest)) : BeginsName before := by
  obtain ⟨c, more, hcs, hc⟩ := h
  rw [trimLeft_append_cons _ _ (by decide)] at hcs
  cases hbefore : trimLeft before with
  | nil =>
    rw [hbefore] at hcs
    obtain ⟨rfl, -⟩ := List.cons.inj hcs
    cases hc
  | cons d l =>
    rw [hbefore] at hcs
    obtain ⟨rfl, -⟩ := List.cons.inj hcs
    exact ⟨d, l, hbefore, hc⟩

theorem beginsName_of_bracketed? (h : bracketed? cs = some body) : BeginsName cs := by
  rw [bracketed?] at h
  split at h
  · cases h
  · rename_i c rest hcs
    split_ifs at h with hc
    exact ⟨c, rest, hcs, hc⟩

/-! ## A quote behind the end of a text -/

/-- What is left of the text `a`, then a quote, and a comma behind it.  If more than blanks is gone of
`a`, it begins with a name. -/
inductive Unclosed (q : Char) (a : List Char) : List Char → Prop
  | mk (taken : List Char) {left gap rest : List Char} : a = taken ++ left →
      (AllBlank taken ∨ BeginsName a) → AllBlank gap → Unclosed q a (left ++ q :: (gap ++ ',' :: rest))

theorem trim_quote_comma (hq : HintTerm.isQuote q = true) (left gap rest : List Char) :
    trim (left ++ q :: (gap ++ ',' :: rest)) =
      trimLeft left ++ q :: (gap ++ ',' :: trimRight rest) := by
  rw [trim_append_char _ _ (HintTerm.isBlank_of_isQuote hq), trimRight_append_cons _ _ (by decide)]

/-- Dropping quotes leaves the quote and the comma, or drops this quote from in front of the comma. -/
theorem unquote_quote_comma (hq : HintTerm.isQuote q = true) (hleft : q ∉ left)
    (hgap : AllBlank gap) (rest : List Char) :
    (∃ lost left' rest', left = lost ++ left' ∧
      unquote (left ++ q :: (gap ++ ',' :: rest)) = left' ++ q :: (gap ++ ',' :: rest')) ∨
    (AllBlank left ∧ ∃ rest', unquote (left ++ q :: (gap ++ ',' :: rest)) = ',' :: rest') := by
  obtain ⟨blanks, hblanks, hsplit⟩ := exists_trimLeft left
  have htrim := trim_quote_comma hq left gap rest
  rcases HintTerm.unquote_cases (left ++ q :: (gap ++ ',' :: rest)) with h | ⟨q', inside, hq', hcs, h⟩
  · exact .inl ⟨blanks, trimLeft left, trimRight rest, hsplit, h.trans htrim⟩
  have hlast : ∀ {w xs}, gap ++ ',' :: xs = w ++ [q'] → ∃ w', w = gap ++ ',' :: w' := fun hw => by
    rcases append_comma_cases hgap hw with ⟨-, rfl⟩ | ⟨w', hw', -⟩ | hblank
    · cases hq'
    · exact ⟨w', hw'⟩
    · simp [HintTerm.isBlank_of_isQuote hq'] at hblank
  rw [htrim] at hcs
  cases hleft' : trimLeft left with
  | nil =>
    rw [hleft', List.nil_append] at hcs
    obtain ⟨rfl, hinside⟩ := List.cons.inj hcs
    obtain ⟨w, rfl⟩ := hlast hinside
    refine .inr ⟨?_, trimRight w, ?_⟩
    · rwa [hsplit, hleft', List.append_nil]
    · rw [h, trim_append_char _ _ (by decide), hgap.trimLeft_eq, List.nil_append]
  | cons c l =>
    rw [hleft', List.cons_append] at hcs
    obtain ⟨rfl, hinside⟩ := List.cons.inj hcs
    have hne : q ≠ c := by
      rintro rfl
      exact hleft (hsplit ▸ by simp [hleft'])
    rcases append_cons_cases hinside with ⟨-, hqc, -⟩ | ⟨w, rfl, hw⟩ | ⟨w, -, hw⟩
    · exact absurd hqc hne
    · obtain ⟨w', rfl⟩ := hlast hw
      obtain ⟨blanks', -, hl⟩ := exists_trimLeft l
      refine .inl ⟨blanks ++ c :: blanks', trimLeft l, trimRight w', ?_, ?_⟩
      · rw [hsplit, hleft', List.append_assoc, List.cons_append, ← hl]
      · rw [h, trim_quote_comma hq]
    · simp at hw

/-- A quote at the end of a text without it is not dropped. -/
theorem mem_unquote_quote (hq : HintTerm.isQuote q = true) (hleft : q ∉ left)
    (hgap : AllBlank gap) : q ∈ unquote (left ++ q :: gap) := by
  have htrim : trim (left ++ q :: gap) = trimLeft left ++ [q] := by
    rw [trim_append_char _ _ (HintTerm.isBlank_of_isQuote hq), hgap.trimRight_eq]
  rcases HintTerm.unquote_cases (left ++ q :: gap) with h | ⟨q', inside, -, hcs, -⟩
  · rw [h, htrim]
    simp
  rw [htrim] at hcs
  cases hleft' : trimLeft left with
  | nil =>
    rw [hleft'] at hcs
    simp at hcs
  | cons c l =>
    rw [hleft', List.cons_append] at hcs
    obtain ⟨rfl, hinside⟩ := List.cons.inj hcs
    obtain ⟨-, hqc⟩ := List.append_inj' hinside rfl
    obtain ⟨blanks, -, hsplit⟩ := exists_trimLeft left
    refine absurd ?_ hleft
    rw [hsplit, hleft', List.singleton_inj.1 hqc]
    simp

/-- The piece of a text in which `a` ends is no text of `a` alone. -/
theorem unquote_ne_trim {taken : List Char} (hq : HintTerm.isQuote q = true) (ha : q ∉ a)
    (hsplit : a = taken ++ left) (htaken : AllBlank taken ∨ BeginsName a) (hgap : AllBlank gap)
    (hp : p = left ++ q :: gap ∨ ∃ rest, p = left ++ q :: (gap ++ ',' :: rest)) :
    unquote p ≠ trim a := by
  have hleft : q ∉ left := fun hmem => ha (by simp [hsplit, hmem])
  have hmem : q ∈ unquote p → unquote p ≠ trim a := fun hmem hp =>
    ha ((trim_sublist a).subset (hp ▸ hmem))
  rcases hp with rfl | ⟨rest, rfl⟩
  · exact hmem (mem_unquote_quote hq hleft hgap)
  rcases unquote_quote_comma hq hleft hgap rest with ⟨lost, left', rest', -, h⟩ | ⟨hblank, rest', h⟩
  · exact hmem (h ▸ by simp)
  · rw [h]
    rcases htaken with hb | hname
    · rw [hsplit, trim, (hb.append hblank).trimLeft_eq]
      exact List.cons_ne_nil _ _
    · exact (hname.trim_ne.2 rest').symm

theorem head?_partTexts_ne (hp : trim p ≠ ['N', 'o', 'n', 'e']) (hne : unquote p ≠ trim a)
    (parts : List (List Char)) : (partTexts (trim p :: parts)).head? ≠ some (trim a) := by
  rw [partTexts, List.filter_cons_of_pos (by simpa using hp), List.map_cons, unquote_trim]
  exact fun h => hne (Option.some.inj h)

/-- The first of the texts of the members is not the text of `a`. -/
theorem Unclosed.head?_partTexts (hq : HintTerm.isQuote q = true) (ha : q ∉ a)
    (h : Unclosed q a cs) : (partTexts (splitTopLevel cs)).head? ≠ some (trim a) := by
  induction hlen : cs.length using Nat.strong_induction_on generalizing cs with
  | _ n ih =>
    obtain @⟨taken, left, gap, rest, hsplit, htaken, hgap⟩ := h
    have hnone : ∀ {p}, q ∈ p → trim p ≠ ['N', 'o', 'n', 'e'] := fun hmem =>
      ne_none_of_mem hq (mem_trim (HintTerm.isBlank_of_isQuote hq) hmem)
    rw [splitTopLevel_eq]
    rcases pieceList_cases (left ++ q :: (gap ++ ',' :: rest)) with hone | ⟨p, more, hcs, hmore⟩
    · rw [hone]
      exact head?_partTexts_ne (hnone (by simp))
        (unquote_ne_trim hq ha hsplit htaken hgap (.inr ⟨rest, rfl⟩)) []
    rw [hcs, hmore, List.map_cons]
    rcases append_cons_cases hcs with ⟨-, hqc, -⟩ | ⟨w, rfl, hw⟩ | ⟨w, rfl, rfl⟩
    · exact absurd hqc (ne_of_isQuote hq).1
    · -- the first piece goes on behind the quote
      have hp : left ++ q :: w = left ++ q :: gap ∨
          ∃ rest, left ++ q :: w = left ++ q :: (gap ++ ',' :: rest) := by
        rcases append_comma_cases hgap hw with ⟨rfl, -⟩ | ⟨w', rfl, -⟩ | hblank
        · exact .inl rfl
        · exact .inr ⟨w', rfl⟩
        · cases hblank
      exact head?_partTexts_ne (hnone (by simp)) (unquote_ne_trim hq ha hsplit htaken hgap hp) _
    · -- a comma of `a` ends the first piece
      by_cases hp : trim p = ['N', 'o', 'n', 'e']
      · have hname : BeginsName a := by
          refine htaken.elim (fun hb => ?_) id
          exact hsplit ▸ (beginsName_of_trim hp (by decide)).append hb
        rw [hp]
        refine ih _ ?_ (.mk (taken ++ (p ++ [','])) (by simp [hsplit]) (.inr hname) hgap) rfl
        simp [← hlen]
        omega
      · refine head?_partTexts_ne hp (fun he => ?_) _
        have hle := (unquote_sublist p).count_le ','
        have ha := count_comma_trim a
        rw [← he, hsplit] at ha
        simp only [List.count_append, List.count_cons_self] at ha
        omega

/-- In the brackets of a text the quote and the comma stand as before, and the text begins with a
name. -/
theorem Unclosed.bracketed? (hq : HintTerm.isQuote q = true) (h : Unclosed q a cs)
    (hbody : bracketed? cs = some body) : BeginsName a ∧ Unclosed q a body := by
  have hbegins := beginsName_of_bracketed? hbody
  obtain ⟨before, after, hb, ha, hcs⟩ := HintTerm.exists_of_bracketed? hbody
  obtain @⟨taken, left, gap, rest, hsplit, htaken, hgap⟩ := h
  obtain ⟨-, hopen, hclose⟩ := ne_of_isQuote hq
  rcases append_cons_cases hcs with ⟨-, hqc, -⟩ | ⟨w, rfl, -⟩ | ⟨w, rfl, hw⟩
  · exact absurd hqc hopen
  · rcases hb q (by simp) with hblank | hchar
    · simp [HintTerm.isBlank_of_isQuote hq] at hblank
    · simp [HintTerm.isQuote_of_isNameChar hchar] at hq
  have hname : BeginsName a := by
    refine htaken.elim (fun hblank => ?_) id
    rw [List.append_assoc] at hbegins
    exact hsplit ▸ hbegins.of_bracket.append hblank
  refine ⟨hname, ?_⟩
  rcases append_cons_cases hw with ⟨-, hqc, -⟩ | ⟨w', rfl, rfl⟩ | ⟨w', rfl, hw'⟩
  · exact absurd hqc.symm hclose
  · have hblank := ha q (by simp)
    simp [HintTerm.isBlank_of_isQuote hq] at hblank
  · rcases append_comma_cases hgap hw' with ⟨-, hc⟩ | ⟨w'', rfl, -⟩ | hblank
    · cases hc
    · exact .mk (taken ++ (before ++ ['['])) (by simp [hsplit]) (.inr hname) hgap
    · cases hblank

/-- In the brackets of a text the quote and the comma stand as before, or the quote is dropped. -/
theorem Unclosed.unquote_bracketed? (hq : HintTerm.isQuote q = true) (ha : q ∉ a)
    (h : Unclosed q a cs) (hbody : Text.bracketed? cs = some body) :
    Unclosed q a (unquote body) ∨ BeginsName a ∧ ∃ rest, unquote body = ',' :: rest := by
  obtain ⟨hname, h⟩ := h.bracketed? hq hbody
  obtain @⟨taken, left, gap, rest, hsplit, -, hgap⟩ := h
  have hleft : q ∉ left := fun hmem => ha (by simp [hsplit, hmem])
  rcases unquote_quote_comma hq hleft hgap rest with ⟨lost, left', rest', rfl, h⟩ | ⟨-, h⟩
  · rw [h]
    exact .inl (.mk (taken ++ lost) (by simp [hsplit]) (.inr hname) hgap)
  · exact .inr ⟨hname, h⟩

/-- Whatever layers there are, the first of the texts of the members is not the text of `a`. -/
theorem head?_textsWithin (hq : HintTerm.isQuote q = true) (ha : q ∉ a)
    (h : Unclosed q a inner ∨ BeginsName a ∧ ∃ rest, inner = ',' :: rest)
    (hparts : textsWithin fuel inner = some parts) : parts.head? ≠ some (trim a) := by
  induction fuel using Nat.strong_induction_on generalizing inner with
  | _ fuel ih =>
    rcases textsWithin_cases hparts with rfl | ⟨fuel', body, rfl, hbody, hparts⟩
    · rcases h with h | ⟨hname, rest, rfl⟩
      · exact h.head?_partTexts hq ha
      · exact head?_partTexts_ne (p := []) (by decide) hname.trim_ne.1.symm _
    · rcases h with h | ⟨-, rest, rfl⟩
      · exact ih fuel' (Nat.lt_succ_self fuel') (h.unquote_bracketed? hq ha hbody) hparts
      · obtain ⟨c, more, hcs, hc⟩ := beginsName_of_bracketed? hbody
        rw [trimLeft_cons_of_not_blank (by decide)] at hcs
        obtain ⟨rfl, -⟩ := List.cons.inj hcs
        cases hc

end Text

namespace HintTerm

variable {cs t : List Char} {texts : List (List Char)} {term arg : HintTerm}
  {args : List HintTerm} {head source : String} {q : Char} {fuel : Nat}

/-! ## Arguments in quotes -/

theorem Spelled.exists_of_inQuotes (h : Spelled t term) (hquotes : InQuotes q t) :
    ∃ before inside after, AllBlank before ∧ q ∉ inside ∧ AllBlank after ∧
      t = before ++ q :: (inside ++ q :: after) ∧
      term = .quoted (String.ofList (Text.trim inside)) := by
  obtain ⟨hq, inside, htrim⟩ := hquotes
  have hname : ∀ {n} rest, IsName n → n ++ rest ≠ q :: (inside ++ [q]) := fun _ hn he => by
    obtain ⟨c, chars, rfl, hc⟩ := hn.exists_cons
    obtain ⟨rfl, -⟩ := List.cons.inj he
    simp [isQuote_of_isNameStart hc] at hq
  cases h with
  | @name before n after hb hn ha =>
    rw [trim_append hb hn.tight ha] at htrim
    exact absurd (by simpa using htrim) (hname [] hn)
  | @subscript before n gap body after _ hb hn hgap hbody ha =>
    rw [trim_subscript hb hn ha] at htrim
    exact absurd htrim (hname _ hn)
  | @quoted before inside' after q' hb hq' hinside ha =>
    rw [trim_quoted hb hq' ha] at htrim
    obtain ⟨rfl, -⟩ := List.cons.inj htrim
    exact ⟨before, inside', after, hb, hinside, ha, rfl, rfl⟩

theorem head?_ownTexts (h : InQuotes q t) (texts : List (List Char)) (args : List HintTerm) :
    (ownTexts (t :: texts) (arg :: args)).head? = some (arg.ownText t) := by
  obtain ⟨hq, inside, htrim⟩ := h
  have hnone : Text.trim t ≠ ['N', 'o', 'n', 'e'] :=
    ne_none_of_mem hq (htrim ▸ List.mem_cons_self)
  rw [ownTexts, List.zip_cons_cons, List.filter_cons_of_pos (by simpa using hnone)]
  rfl

/-- When the first and the last argument are in the same quotes, the first one is not closed. -/
theorem exists_unclosed (h : List.Forall₂ Spelled texts args) (htwo : 2 ≤ args.length)
    (hends : EndsInQuotes texts) : ∃ q a, isQuote q = true ∧ q ∉ a ∧
      Unclosed q a (unquote ([','].intercalate texts)) ∧
      (ownTexts texts args).head? = some (Text.trim a) := by
  obtain ⟨q, first, last, hfirst, hlast, hqfirst, hqlast⟩ := hends
  obtain ⟨lastArg, -, hlastSpelled⟩ := exists_right_of_forall₂ h (List.mem_of_getLast? hlast)
  cases h with
  | nil => cases hfirst
  | @cons t arg more others hspelled hmore =>
    cases hfirst
    obtain ⟨before, a, gap, hb, ha, hgap, rfl, rfl⟩ := hspelled.exists_of_inQuotes hqfirst
    obtain ⟨before', b, after, -, -, hafter, rfl, -⟩ := hlastSpelled.exists_of_inQuotes hqlast
    have hne : more ≠ [] := by
      rintro rfl
      cases hmore
      simp at htwo
    obtain ⟨front, rfl⟩ : ∃ front, more = front ++ [before' ++ q :: (b ++ q :: after)] := by
      rw [List.getLast?_cons_of_ne_nil hne] at hlast
      exact List.getLast?_eq_some_iff.1 hlast
    obtain ⟨between, hbetween⟩ := exists_intercalate_concat front (before' ++ q :: (b ++ q :: after))
    refine ⟨q, a, hqfirst.1, ha, ?_, ?_⟩
    · have hbody : [','].intercalate ((before ++ q :: (a ++ q :: gap)) ::
          (front ++ [before' ++ q :: (b ++ q :: after)])) =
          before ++ q :: (a ++ q :: (gap ++ ',' :: (between ++ (before' ++ q :: b))) ++ q :: after) := by
        rw [List.intercalate_cons_of_ne_nil hne, hbetween]
        simp
      obtain ⟨blanks, hblanks, hsplit⟩ := exists_trimLeft a
      rw [hbody, unquote_quotes hb hqfirst.1 hafter, trim_quote_comma hqfirst.1]
      exact .mk blanks hsplit (.inl hblanks) hgap
    · rw [head?_ownTexts hqfirst, ownText, String.toList_ofList]

/-- Unless they are in the same quotes at both ends, the texts of the members are what the arguments
say. -/
theorem memberTexts_eq_ownTexts_iff (h : ArgumentTexts cs args texts) (htwo : 2 ≤ args.length) :
    memberTexts (fuel + 1) cs = some (ownTexts texts args) ↔ ¬ EndsInQuotes texts := by
  refine ⟨fun hparts hends => ?_, memberTexts_of_argumentTexts h htwo⟩
  have hargs : args ≠ [] := by
    rintro rfl
    cases htwo
  obtain ⟨hbody, htexts⟩ := h.bracketed? hargs
  obtain ⟨q, a, hq, ha, hunclosed, hhead⟩ := exists_unclosed htexts htwo hends
  rw [memberTexts_succ, hbody, Option.bind_some] at hparts
  exact head?_textsWithin hq ha (.inl hunclosed) hparts hhead

theorem memberHints_text (source : String) : (Hint.text source).memberHints =
    (memberTexts (source.toList.length + 1) source.toList).map fun parts =>
      parts.map fun part => .text (String.ofList part) := rfl

/-- The hints of the members of a subscript are what its arguments say exactly when the first and the
last argument are not in the same quotes, and subscripts with one argument around it do not count. -/
theorem memberHints_subscript (h : parse source = .ok (.subscript head args))
    (htwo : 2 ≤ args.length) :
    (∃ texts, ArgumentTexts source.toList args texts) ∧
    (∀ texts, ArgumentTexts source.toList args texts →
      ((Hint.text source).memberHints =
        some ((ownTexts texts args).map fun p => .text (String.ofList p)) ↔ ¬ EndsInQuotes texts)) ∧
    ∀ source', Wrapped source.toList source'.toList →
      (∃ head' args', parse source' = .ok (.subscript head' args')) ∧
      (Hint.text source').memberHints = (Hint.text source).memberHints := by
  have hspelled := parse_iff.1 h
  refine ⟨exists_argumentTexts hspelled, fun texts htexts => ?_, fun source' hwrapped => ?_⟩
  · have hinj : Function.Injective fun p : List Char => Hint.text (String.ofList p) :=
      fun p p' hp => String.ofList_injective (Hint.text.inj hp)
    rw [← memberTexts_eq_ownTexts_iff htexts htwo, memberHints_text, ← Option.map_some,
      (Option.map_injective (List.map_injective_iff.2 hinj)).eq_iff]
  · obtain ⟨⟨head', args', hspelled'⟩, hsame⟩ := hwrapped.memberTexts_eq hspelled
    exact ⟨⟨head', args', parse_iff.2 hspelled'⟩, by rw [memberHints_text, hsame, memberHints_text]⟩

end HintTerm

namespace Sample

open HintTerm

/-- A cat in quotes, nothing, or a list of dogs in other quotes. -/
theorem memberHints_subscript_strays :
    parse "Union['Cat', None,List[\"Dog\"] ]" =
      .ok (.subscript "Union" [.quoted "Cat", .name "None", .subscript "List" [.quoted "Dog"]]) ∧
    (Hint.text "Union['Cat', None,List[\"Dog\"] ]").memberHints =
      some [.text "Cat", .text "List[\"Dog\"]"] ∧
    (Hint.text "Optional[ List[Union['Cat', None,List[\"Dog\"] ]]\n]").memberHints =
      some [.text "Cat", .text "List[\"Dog\"]"] := by
  have hparse : parse "Union['Cat', None,List[\"Dog\"] ]" =
      .ok (.subscript "Union" [.quoted "Cat", .name "None", .subscript "List" [.quoted "Dog"]]) := by
    cbv
  have hcat : parse "'Cat'" = .ok (.quoted "Cat") := by cbv
  have hnone : parse " None" = .ok (.name "None") := by cbv
  have hdogs : parse "List[\"Dog\"] " = .ok (.subscript "List" [.quoted "Dog"]) := by cbv
  obtain ⟨-, htexts, hwrapped⟩ := memberHints_subscript hparse (by decide)
  have hmembers := (htexts _ (.mk (n := "Union".toList) allBlank_nil (isName_of_isIdentifier (by cbv))
    allBlank_nil allBlank_nil (.cons (parse_iff.1 hcat) (.cons (parse_iff.1 hnone)
      (.cons (parse_iff.1 hdogs) .nil))))).2 (by
    rintro ⟨q, first, last, -, hlast, -, hq, inside, htrim⟩
    cases hlast
    have hlist : trim "List[\"Dog\"] ".toList = "List[\"Dog\"]".toList := by cbv
    obtain ⟨rfl, -⟩ := List.cons.inj (hlist.symm.trans htrim)
    cases hq)
  have houter := (hwrapped "Optional[ List[Union['Cat', None,List[\"Dog\"] ]]\n]"
    (.bare (n := "Optional".toList)
      (.bare (n := "List".toList) .self allBlank_nil (isName_of_isIdentifier (by cbv)) allBlank_nil
        allBlank_nil allBlank_nil allBlank_nil)
      allBlank_nil (isName_of_isIdentifier (by cbv)) allBlank_nil (by decide : AllBlank [' '])
      (by decide : AllBlank ['\n']) allBlank_nil)).2
  exact ⟨hparse, hmembers, houter.trans hmembers⟩

/-- When the only two arguments are in the same quotes, the texts of the members are not told apart. -/
theorem memberHints_ne_catAndDog :
    parse "Union['Cat', 'Dog']" = .ok (.subscript "Union" [.quoted "Cat", .quoted "Dog"]) ∧
    ArgumentTexts "Union['Cat', 'Dog']".toList [.quoted "Cat", .quoted "Dog"]
      ["'Cat'".toList, " 'Dog'".toList] ∧
    ownTexts ["'Cat'".toList, " 'Dog'".toList] [.quoted "Cat", .quoted "Dog"] =
      ["Cat".toList, "Dog".toList] ∧
    (Hint.text "Union['Cat', 'Dog']").memberHints = none ∧
    (Hint.text "Union['Cat', 'Dog']").memberHints ≠
      some ((ownTexts ["'Cat'".toList, " 'Dog'".toList] [.quoted "Cat", .quoted "Dog"]).map
        fun p => .text (String.ofList p)) := by
  have hnone : (Hint.text "Union['Cat', 'Dog']").memberHints = none := by cbv
  have hcat : parse "'Cat'" = .ok (.quoted "Cat") := by cbv
  have hdog : parse " 'Dog'" = .ok (.quoted "Dog") := by cbv
  have htexts := ArgumentTexts.mk (n := "Union".toList) allBlank_nil (isName_of_isIdentifier (by cbv))
    allBlank_nil allBlank_nil (.cons (parse_iff.1 hcat) (.cons (parse_iff.1 hdog) .nil))
  refine ⟨by cbv, htexts, by cbv, hnone, ?_⟩
  rw [hnone]
  exact (Option.some_ne_none _).symm

end Sample

end HintSchema
