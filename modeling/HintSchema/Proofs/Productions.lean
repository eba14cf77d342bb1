import Mathlib
import HintSchema.Proofs.Depth

/-!
# The productions of the grammar of hints

```text
hint := term blank*
term := blank* NAME [ blank* '[' term ( blank* ',' term )* blank* ']' ]
      | blank* quote text quote
```

A text derives a term by these productions (`HintTerm.DerivesHint`), in which every class of
characters is written out and a term ends with its last token.  `HintTerm.parse` accepts the texts
that derive a term, as the one term that they derive, and evaluation calls every other text malformed
(`HintTerm.parse_derives`).
-/

namespace HintSchema

namespace Text

variable {cs core before after : List Char}

/-- The core of a text stands between its blanks. -/
def TrimsTo (cs core : List Char) : Prop :=
  ∃ before after, cs = before ++ (core ++ after) ∧ AllBlank before ∧ AllBlank after ∧
    (core = [] ∨ Tight core)

theorem AllBlank.trim_eq (h : AllBlank cs) : trim cs = [] := by
  rw [trim, h.trimLeft_eq]
  rfl

theorem trimsTo_iff : TrimsTo cs core ↔ core = trim cs := by
  constructor
  · rintro ⟨before, after, rfl, hb, ha, rfl | hcore⟩
    · exact (hb.append ha).trim_eq.symm
    · exact (trim_append hb hcore ha).symm
  · rintro rfl
    obtain ⟨before, after, hb, ha, hcs⟩ := exists_trim cs
    exact ⟨before, after, hcs, hb, ha, trim_eq_nil_or_tight cs⟩

end Text

open Text

namespace HintTerm

variable {c q : Char} {n cs front body last after : List Char} {term : HintTerm}
  {args : List HintTerm} {source : String}

/-! ## Tokens -/

/-- A letter of ASCII. -/
def Letter (c : Char) : Prop := ('A' ≤ c ∧ c ≤ 'Z') ∨ ('a' ≤ c ∧ c ≤ 'z')

/-- A digit of ASCII. -/
def Digit (c : Char) : Prop := '0' ≤ c ∧ c ≤ '9'

/-- A letter or underscore, and letters, digits, underscores and dots behind it. -/
inductive NameToken : List Char → Prop
  | mk {c : Char} {rest : List Char} : (Letter c ∨ c = '_') →
      (∀ d ∈ rest, Letter d ∨ Digit d ∨ d = '_' ∨ d = '.') → NameToken (c :: rest)

/-- A single or a double quote. -/
def QuoteToken (q : Char) : Prop := q = '\'' ∨ q = '"'

theorem isAlpha_iff : c.isAlpha = true ↔ Letter c := by
  have hupper : c.isUpper = decide (65 ≤ c.val ∧ c.val ≤ 90) := rfl
  simp only [Char.isAlpha, hupper, Char.isLower, Bool.or_eq_true, Bool.and_eq_true,
    decide_eq_true_eq]
  rfl

theorem isDigit_iff : c.isDigit = true ↔ Digit c := by
  simp only [Char.isDigit, Bool.and_eq_true, decide_eq_true_eq]
  rfl

theorem isNameStart_iff : isNameStart c = true ↔ Letter c ∨ c = '_' := by
  rw [isNameStart, Bool.or_eq_true, beq_iff_eq, isAlpha_iff]

theorem isNameChar_iff : isNameChar c = true ↔ Letter c ∨ Digit c ∨ c = '_' ∨ c = '.' := by
  simp only [isNameChar, Char.isAlphanum, Bool.or_eq_true, beq_iff_eq, isAlpha_iff, isDigit_iff,
    or_assoc]

theorem isQuote_iff : isQuote q = true ↔ QuoteToken q := by
  rw [isQuote, Bool.or_eq_true, beq_iff_eq, beq_iff_eq, QuoteToken]

theorem nameToken_iff : NameToken n ↔ IsName n := by
  constructor
  · rintro @⟨c, rest, hc, hrest⟩
    refine ⟨by simp, fun d hd => ?_, fun d hd => ?_⟩
    · cases hd
      exact isNameStart_iff.2 hc
    · rcases List.mem_cons.1 hd with rfl | hd
      · exact isNameChar_of_isNameStart (isNameStart_iff.2 hc)
      · exact isNameChar_iff.2 (hrest d hd)
  · intro hn
    obtain ⟨c, rest, rfl, hc⟩ := hn.exists_cons
    exact .mk (isNameStart_iff.1 hc) fun d hd =>
      isNameChar_iff.1 (hn.chars d (List.mem_cons_of_mem _ hd))

/-! ## Productions -/

mutual

/-- The texts of a term that end with its last token. -/
inductive Derives : List Char → HintTerm → Prop
  | name {before n : List Char} :
      AllBlank before → NameToken n → Derives (before ++ n) (.name (String.ofList n))
  | quoted {before inside core : List Char} {q : Char} :
      AllBlank before → QuoteToken q → q ∉ inside → TrimsTo inside core →
      Derives (before ++ q :: (inside ++ [q])) (.quoted (String.ofList core))
  | subscript {before n gap body last : List Char} {args : List HintTerm} :
      AllBlank before → NameToken n → AllBlank gap → DerivesAll body args → AllBlank last →
      Derives (before ++ (n ++ (gap ++ '[' :: (body ++ (last ++ [']'])))))
        (.subscript (String.ofList n) args)

/-- The texts of one or more terms with commas between them. -/
inductive DerivesAll : List Char → List HintTerm → Prop
  | one {cs : List Char} {term : HintTerm} : Derives cs term → DerivesAll cs [term]
  | more {cs gap rest : List Char} {term : HintTerm} {terms : List HintTerm} :
      Derives cs term → AllBlank gap → DerivesAll rest terms →
      DerivesAll (cs ++ (gap ++ ',' :: rest)) (term :: terms)

end

/-- The texts of a hint: those of a term, with any blanks behind it. -/
inductive DerivesHint : List Char → HintTerm → Prop
  | mk {front after : List Char} {term : HintTerm} :
      Derives front term → AllBlank after → DerivesHint (front ++ after) term

/-! ## Blanks behind a term -/

mutual

/-- Behind a term any blanks may follow. -/
theorem Derives.spelled : ∀ {front : List Char} {term : HintTerm}, Derives front term →
    ∀ {after : List Char}, AllBlank after → Spelled (front ++ after) term
  | _, _, .name hb hn, after, ha => by
    rw [List.append_assoc]
    exact .name hb (nameToken_iff.1 hn) ha
  | _, _, .quoted hb hq hinside hcore, after, ha => by
    have h := Spelled.quoted hb (isQuote_iff.2 hq) hinside ha
    rw [← trimsTo_iff.1 hcore] at h
    simpa using h
  | _, _, .subscript hb hn hgap hbody hlast, after, ha => by
    have h := Spelled.subscript hb (nameToken_iff.1 hn) hgap (hbody.spelledAll hlast) ha
    simpa using h

theorem DerivesAll.spelledAll : ∀ {body : List Char} {args : List HintTerm}, DerivesAll body args →
    ∀ {last : List Char}, AllBlank last → SpelledAll (body ++ last) args
  | _, _, .one hterm, last, hlast => .one (hterm.spelled hlast)
  | _, _, .more hterm hgap hterms, last, hlast => by
    have h := SpelledAll.more (hterm.spelled hgap) (hterms.spelledAll hlast)
    simpa using h

end

mutual

/-- The blanks behind a term can be told from its text. -/
theorem Spelled.derivesHint : ∀ {cs : List Char} {term : HintTerm}, Spelled cs term →
    DerivesHint cs term
  | _, _, .name hb hn ha => by
    rw [← List.append_assoc]
    exact ⟨.name hb (nameToken_iff.2 hn), ha⟩
  | _, _, .quoted hb hq hinside ha => by
    have h := DerivesHint.mk (.quoted hb (isQuote_iff.1 hq) hinside (trimsTo_iff.2 rfl)) ha
    simpa using h
  | _, _, .subscript hb hn hgap hbody ha => by
    obtain ⟨front, last, rfl, hargs, hlast⟩ := hbody.exists_derivesAll
    have h := DerivesHint.mk (.subscript hb (nameToken_iff.2 hn) hgap hargs hlast) ha
    simpa using h

theorem SpelledAll.exists_derivesAll : ∀ {body : List Char} {args : List HintTerm},
    SpelledAll body args → ∃ front last, body = front ++ last ∧ DerivesAll front args ∧ AllBlank last
  | _, _, .one hterm => by
    obtain ⟨hfront, hlast⟩ := hterm.derivesHint
    exact ⟨_, _, rfl, .one hfront, hlast⟩
  | _, _, .more hterm hterms => by
    obtain ⟨hfront, hgap⟩ := hterm.derivesHint
    obtain ⟨front, last, rfl, hargs, hlast⟩ := hterms.exists_derivesAll
    exact ⟨_, last, by simp, .more hfront hgap hargs, hlast⟩

end

theorem derivesHint_iff : DerivesHint cs term ↔ Spelled cs term := by
  refine ⟨?_, Spelled.derivesHint⟩
  rintro ⟨hterm, ha⟩
  exact hterm.spelled ha

/-! ## Acceptance -/

/-- A text that is read as no term is malformed in every namespace. -/
theorem eval_of_parse_error {reason : Malformation} (h : parse source = .error reason)
    (ns : Namespace) : ns.eval (.text source) = .error (.malformed source reason none) := by
  rw [Namespace.eval_eq, Namespace.evalWith, Namespace.evalSource, Namespace.evalText, h]

/-- The texts that derive a term are accepted, as that term and no other one, and every other text
is malformed. -/
theorem parse_derives (source : String) :
    (∀ term, parse source = .ok term ↔ DerivesHint source.toList term) ∧
    (∀ term term', DerivesHint source.toList term → DerivesHint source.toList term' →
      term = term') ∧
    ((∀ term, ¬ DerivesHint source.toList term) → ∃ reason, parse source = .error reason ∧
      ∀ ns : Namespace, ns.eval (.text source) = .error (.malformed source reason none)) := by
  have haccepts : ∀ term, parse source = .ok term ↔ DerivesHint source.toList term :=
    fun term => parse_iff.trans derivesHint_iff.symm
  refine ⟨haccepts, fun term term' h h' => ?_, fun hnone => ?_⟩
  · exact (derivesHint_iff.1 h).unique (derivesHint_iff.1 h')
  · cases hparse : parse source with
    | ok term => exact absurd ((haccepts term).1 hparse) (hnone term)
    | error reason => exact ⟨reason, rfl, eval_of_parse_error hparse⟩

end HintTerm

namespace Sample

/-- Blanks may stand around every token and at the ends of a quoted text, while a bracket that is
never closed makes a text malformed. -/
theorem parse_derives_pet :
    HintTerm.DerivesHint " Optional [ ' Pet ' ]\n".toList (.subscript "Optional" [.quoted "Pet"]) ∧
    (∀ term, HintTerm.DerivesHint " Optional [ ' Pet ' ]\n".toList term →
      term = .subscript "Optional" [.quoted "Pet"]) ∧
    ∃ reason, HintTerm.parse "List[int" = .error reason ∧
      ∀ ns : Namespace, ns.eval (.text "List[int") = .error (.malformed "List[int" reason none) := by
  have hpet : HintTerm.parse " Optional [ ' Pet ' ]\n" =
      .ok (.subscript "Optional" [.quoted "Pet"]) := by cbv
  have hopen : HintTerm.parse "List[int" = .error .bracketExpected := by cbv
  have hderives := ((HintTerm.parse_derives _).1 _).1 hpet
  refine ⟨hderives, fun term h => (HintTerm.parse_derives _).2.1 _ _ h hderives, ?_⟩
  refine (HintTerm.parse_derives "List[int").2.2 fun term h => ?_
  cases hopen.symm.trans (((HintTerm.parse_derives _).1 term).2 h)

end Sample

end HintSchema
