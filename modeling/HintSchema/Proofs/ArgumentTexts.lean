import HintSchema.Proofs.Joining
import HintSchema.Proofs.Peeling
import HintSchema.Proofs.Unnamed

/-!
# Texts of arguments

A layer is taken off exactly the texts of subscripts, and what it leaves of a subscript with one
argument evaluates to what the argument does (`HintTerm.unwrapText_subscript`).  Of more arguments the
texts are told apart at the commas (`HintTerm.memberTexts_of_argumentTexts`), unless the first and the
last of them are in the same quotes, and subscripts with one argument around a text do not count
(`HintTerm.Wrapped.memberTexts_eq`).
-/

namespace HintSchema

open Text

namespace HintTerm

open Namespace

variable {source : String} {term : HintTerm}

/-! ## One argument -/

/-- A layer can be taken off the texts of subscripts only.  Of a subscript with one argument it leaves
what the argument refers to, if it is in quotes, and else a text of the argument, and this evaluates
to the type of the argument. -/
theorem unwrapText_subscript (h : parse source = .ok term) :
    ((∃ inner, Hint.unwrapText source = .ok inner) ↔ ∃ head args, term = .subscript head args) ∧
    ∀ head arg, term = .subscript head [arg] → ∃ inner, Hint.unwrapText source = .ok inner ∧
      (∀ text, arg = .quoted text → inner = text) ∧
      ((∀ text, arg ≠ .quoted text) → parse inner = .ok arg) ∧
      ∀ (ns : Namespace) (e : TypeExpr), ns.eval (.text source) = .ok e →
        ∃ type, arg.eval (ns.binding 0) (evalSource ns.binding 1) = .ok type ∧
          evalSubscript term.text head [type] = .ok e ∧ ns.eval (.text inner) = .ok type := by
  have hspelled := parse_iff.1 h
  refine ⟨⟨?_, ?_⟩, ?_⟩
  · rintro ⟨inner, hinner⟩
    have hnone : bracketed? source.toList ≠ none := fun hnone => by
      rw [unwrapText_of_bracketed? hnone] at hinner
      cases hinner
    cases term with
    | name => exact absurd (bracketed?_of_name hspelled) hnone
    | quoted => exact absurd (bracketed?_of_quoted hspelled) hnone
    | subscript head args => exact ⟨head, args, rfl⟩
  · rintro ⟨head, args, rfl⟩
    obtain ⟨body, hbody, -⟩ := bracketed?_of_subscript hspelled
    exact ⟨_, by rw [Hint.unwrapText, hbody]⟩
  · rintro head arg rfl
    obtain ⟨inner, hinner, hwithin⟩ := unwrapText_of_parse h
    refine ⟨inner, hinner, ?_, fun hquoted => ?_, fun ns e he => ?_⟩
    · rintro text rfl
      exact hwithin
    · cases arg with
      | quoted text => exact absurd rfl (hquoted text)
      | name | subscript => exact hwithin
    · rw [eval_eq] at he
      obtain ⟨term, hterm, he⟩ := evalSource_iff.1 he
      obtain rfl := Except.ok.inj (hterm.symm.trans h)
      obtain ⟨type, htype, hbuilt⟩ := eval_argument he
      exact ⟨type, htype, hbuilt, Hint.eval_of_within hwithin htype⟩

end HintTerm

namespace Sample

/-- What is in the brackets is a text of the argument, whatever blanks, brackets and quotes there are. -/
theorem unwrapText_subscript_pets :
    HintTerm.parse " Optional [ Union['Cat', Dog]\n] " =
      .ok (.subscript "Optional" [.subscript "Union" [.quoted "Cat", .name "Dog"]]) ∧
    townNames.eval (.text " Optional [ Union['Cat', Dog]\n] ") =
      .ok (.union [.cls cat, .cls dog, .noneType]) ∧
    ∃ inner, Hint.unwrapText " Optional [ Union['Cat', Dog]\n] " = .ok inner ∧
      HintTerm.parse inner = .ok (.subscript "Union" [.quoted "Cat", .name "Dog"]) ∧
      ∃ type, HintTerm.evalSubscript "Optional[Union['Cat', Dog]]" "Optional" [type] =
        .ok (.union [.cls cat, .cls dog, .noneType]) ∧ townNames.eval (.text inner) = .ok type := by
  have hparse : HintTerm.parse " Optional [ Union['Cat', Dog]\n] " =
      .ok (.subscript "Optional" [.subscript "Union" [.quoted "Cat", .name "Dog"]]) := by cbv
  have heval : townNames.eval (.text " Optional [ Union['Cat', Dog]\n] ") =
      .ok (.union [.cls cat, .cls dog, .noneType]) := by cbv
  obtain ⟨inner, hinner, -, hterm, htype⟩ := (HintTerm.unwrapText_subscript hparse).2 _ _ rfl
  obtain ⟨type, -, hbuilt, htype⟩ := htype townNames _ heval
  have htext : HintTerm.text (.subscript "Optional" [.subscript "Union" [.quoted "Cat", .name "Dog"]]) =
      "Optional[Union['Cat', Dog]]" := by cbv
  exact ⟨hparse, heval, inner, hinner, hterm (fun _ h => by cases h), type, htext ▸ hbuilt, htype⟩

end Sample

namespace Text

variable {cs body : List Char} {fuel fuel' : Nat}

/-! ## Fuel -/

theorem trim_sublist (cs : List Char) : (trim cs).Sublist cs := by
  obtain ⟨before, after, -, -, hcs⟩ := exists_trim cs
  conv_rhs => rw [hcs]
  exact (List.sublist_append_left _ _).trans (List.sublist_append_right _ _)

theorem unquote_sublist (cs : List Char) : (unquote cs).Sublist cs := by
  rcases HintTerm.unquote_cases cs with h | ⟨q, inside, -, hcs, h⟩
  · exact h ▸ trim_sublist cs
  · have htrim := trim_sublist cs
    rw [hcs] at htrim
    rw [h]
    exact (trim_sublist inside).trans
      (((List.sublist_append_left _ _).trans (List.sublist_cons_self _ _)).trans htrim)

theorem length_of_bracketed? (h : bracketed? cs = some body) : body.length < cs.length := by
  obtain ⟨before, after, -, -, rfl⟩ := HintTerm.exists_of_bracketed? h
  simp only [List.length_append, List.length_cons]
  omega

/-- Fuel beyond the length of a text does not count. -/
theorem memberTexts_congr (h : cs.length < fuel) (h' : cs.length < fuel') :
    memberTexts fuel cs = memberTexts fuel' cs := by
  induction fuel generalizing cs fuel' with
  | zero => omega
  | succ fuel ih =>
    cases fuel' with
    | zero => omega
    | succ fuel' =>
      rw [memberTexts_succ, memberTexts_succ]
      refine Option.bind_congr fun body hbody => ?_
      have hshort := length_of_bracketed? hbody
      have hunquote := (unquote_sublist body).length_le
      have hrest := @ih (unquote body) fuel' (by omega) (by omega)
      rw [textsWithin, textsWithin, hrest]

end Text

namespace HintTerm

variable {cs cs' body inner t : List Char} {texts : List (List Char)} {head : String}
  {term : HintTerm} {args : List HintTerm} {q : Char} {fuel : Nat}

/-! ## Quotes at both ends -/

/-- A text that a quote begins and the same quote ends, blanks apart. -/
def InQuotes (q : Char) (cs : List Char) : Prop :=
  isQuote q = true ∧ ∃ inside, Text.trim cs = q :: (inside ++ [q])

/-- The first and the last of the texts are in the same quotes. -/
def EndsInQuotes (texts : List (List Char)) : Prop :=
  ∃ q first last, texts.head? = some first ∧ texts.getLast? = some last ∧
    InQuotes q first ∧ InQuotes q last

/-- A text of a term begins with a quote only when it is in quotes. -/
theorem Spelled.exists_first (h : Spelled t term) : ∃ before c rest, AllBlank before ∧
    t = before ++ c :: rest ∧ isBlank c = false ∧ (isQuote c = true → InQuotes c t) := by
  cases h with
  | @name before n after hb hn ha =>
    obtain ⟨c, chars, rfl, hc⟩ := hn.exists_cons
    exact ⟨before, c, chars ++ after, hb, rfl, isBlank_of_isNameChar (isNameChar_of_isNameStart hc),
      by simp [isQuote_of_isNameStart hc]⟩
  | @quoted before inside after q hb hq hinside ha =>
    exact ⟨before, q, inside ++ q :: after, hb, rfl, isBlank_of_isQuote hq,
      fun _ => ⟨hq, inside, trim_quoted hb hq ha⟩⟩
  | @subscript before n gap body after _ hb hn hgap hbody ha =>
    obtain ⟨c, chars, rfl, hc⟩ := hn.exists_cons
    exact ⟨before, c, chars ++ (gap ++ '[' :: (body ++ ']' :: after)), hb, rfl,
      isBlank_of_isNameChar (isNameChar_of_isNameStart hc), by simp [isQuote_of_isNameStart hc]⟩

/-- A text of a term ends with a quote only when it is in quotes. -/
theorem Spelled.exists_last (h : Spelled t term) : ∃ front c after, AllBlank after ∧
    t = front ++ c :: after ∧ isBlank c = false ∧ (isQuote c = true → InQuotes c t) := by
  cases h with
  | @name before n after hb hn ha =>
    obtain ⟨chars, c, rfl⟩ := List.eq_nil_or_concat' n |>.resolve_left hn.nonempty
    have hc := hn.chars c (by simp)
    exact ⟨before ++ chars, c, after, ha, by simp, isBlank_of_isNameChar hc,
      by simp [isQuote_of_isNameChar hc]⟩
  | @quoted before inside after q hb hq hinside ha =>
    exact ⟨before ++ q :: inside, q, after, ha, by simp, isBlank_of_isQuote hq,
      fun _ => ⟨hq, inside, trim_quoted hb hq ha⟩⟩
  | @subscript before n gap body after _ hb hn hgap hbody ha =>
    exact ⟨before ++ (n ++ (gap ++ '[' :: body)), ']', after, ha, by simp, by decide,
      fun hq => by cases hq⟩

theorem exists_intercalate_cons (first : List Char) (more : List (List Char)) :
    ∃ rest, [','].intercalate (first :: more) = first ++ rest := by
  cases more with
  | nil => exact ⟨[], by simp⟩
  | cons second more =>
    exact ⟨_, by rw [List.intercalate_cons_cons, List.append_assoc]⟩

theorem exists_intercalate_concat (front : List (List Char)) (last : List Char) :
    ∃ before, [','].intercalate (front ++ [last]) = before ++ last := by
  induction front with
  | nil => exact ⟨[], by simp⟩
  | cons first more ih =>
    obtain ⟨before, hbefore⟩ := ih
    refine ⟨first ++ ',' :: before, ?_⟩
    rw [List.cons_append, List.intercalate_cons_of_ne_nil (by simp), hbefore]
    simp

/-- Texts of terms that are joined to a text in quotes begin and end in these quotes. -/
theorem endsInQuotes_of_inQuotes (h : List.Forall₂ Spelled texts args) (hne : texts ≠ [])
    (hquotes : InQuotes q ([','].intercalate texts)) : EndsInQuotes texts := by
  obtain ⟨hq, inside, htrim⟩ := hquotes
  obtain ⟨first, more, rfl⟩ := List.exists_cons_of_ne_nil hne
  have hfirst : InQuotes q first := by
    obtain ⟨arg, -, hspelled⟩ := exists_right_of_forall₂ h List.mem_cons_self
    obtain ⟨before, c, rest, hb, rfl, hc, hin⟩ := hspelled.exists_first
    obtain ⟨behind, hbehind⟩ := exists_intercalate_cons (before ++ c :: rest) more
    rw [hbehind, List.append_assoc, List.cons_append, trim_append_char _ _ hc, hb.trimLeft_eq,
      List.nil_append] at htrim
    obtain ⟨rfl, -⟩ := List.cons.inj htrim
    exact hin hq
  obtain ⟨front, last, hlast⟩ := List.eq_nil_or_concat' (first :: more) |>.resolve_left hne
  refine ⟨q, first, last, rfl, by rw [hlast, List.getLast?_concat], hfirst, ?_⟩
  obtain ⟨arg, -, hspelled⟩ := exists_right_of_forall₂ h (a := last) (by simp [hlast])
  obtain ⟨front', c, after, ha, rfl, hc, hin⟩ := hspelled.exists_last
  obtain ⟨before, hbefore⟩ := exists_intercalate_concat front (front' ++ c :: after)
  rw [hlast, hbefore, ← List.append_assoc, trim_append_char _ _ hc, ha.trimRight_eq,
    ← List.cons_append] at htrim
  obtain ⟨-, rfl⟩ := List.append_inj' htrim rfl |>.imp_right List.cons.inj |>.imp_right And.left
  exact hin hq

/-! ## Several arguments -/

/-- The texts of the arguments in a text of a subscript, in their order. -/
inductive ArgumentTexts : List Char → List HintTerm → List (List Char) → Prop
  | mk {before n gap after : List Char} {texts : List (List Char)} {args : List HintTerm} :
      AllBlank before → IsName n → AllBlank gap → AllBlank after → List.Forall₂ Spelled texts args →
      ArgumentTexts (before ++ (n ++ (gap ++ '[' :: ([','].intercalate texts ++ ']' :: after))))
        args texts

/-- What a text of a term says without the blanks around it and a layer of quotes. -/
def ownText (cs : List Char) : HintTerm → List Char
  | .quoted source => source.toList
  | _ => Text.trim cs

/-- What the texts of arguments say, in their order, without the arguments whose text is `None`. -/
def ownTexts (texts : List (List Char)) (args : List HintTerm) : List (List Char) :=
  ((texts.zip args).filter fun p => Text.trim p.1 != ['N', 'o', 'n', 'e']).map fun p =>
    p.2.ownText p.1

theorem Spelled.unquote_eq (h : Spelled cs term) : unquote cs = term.ownText cs := by
  cases term with
  | quoted => exact unquote_of_quoted h
  | subscript => exact unquote_of_subscript h
  | name =>
    rw [unquote_of_name h]
    cases h with
    | name hb hn ha => exact String.toList_ofList.trans (trim_append hb hn.tight ha).symm

theorem partTexts_eq (h : List.Forall₂ Spelled texts args) :
    partTexts (texts.map Text.trim) = ownTexts texts args := by
  induction h with
  | nil => rfl
  | @cons t arg texts args hspelled _ ih =>
    rw [partTexts, ownTexts, List.zip_cons_cons, List.map_cons, List.filter_cons, List.filter_cons]
    split_ifs
    · rw [List.map_cons, List.map_cons, Text.unquote_trim, hspelled.unquote_eq]
      exact congrArg _ ih
    · exact ih

theorem SpelledAll.exists_texts (h : SpelledAll body args) :
    ∃ texts, body = [','].intercalate texts ∧ List.Forall₂ Spelled texts args := by
  induction args generalizing body with
  | nil => cases h
  | cons arg args ih =>
    cases h with
    | one h => exact ⟨[body], by simp, .cons h .nil⟩
    | more h hrest =>
      obtain ⟨texts, rfl, htexts⟩ := ih hrest
      have hne : texts ≠ [] := by
        rintro rfl
        exact hrest.ne_nil rfl
      refine ⟨_ :: texts, ?_, .cons h htexts⟩
      rw [List.intercalate_cons_of_ne_nil hne]
      simp

/-- A text of a subscript has texts of its arguments in it. -/
theorem exists_argumentTexts (h : Spelled cs (.subscript head args)) :
    ∃ texts, ArgumentTexts cs args texts := by
  cases h with
  | subscript hb hn hgap hbody ha =>
    obtain ⟨texts, rfl, htexts⟩ := hbody.exists_texts
    exact ⟨texts, .mk hb hn hgap ha htexts⟩

theorem ArgumentTexts.bracketed? (h : ArgumentTexts cs args texts) (hne : args ≠ []) :
    bracketed? cs = some ([','].intercalate texts) ∧ List.Forall₂ Spelled texts args := by
  obtain ⟨hb, hn, hgap, ha, htexts⟩ := h
  refine ⟨bracketed?_layer hb hn hgap ha ?_, htexts⟩
  cases htexts with
  | nil => exact absurd rfl hne
  | @cons t _ more _ hspelled _ =>
    obtain ⟨rest, hrest⟩ := exists_intercalate_cons t more
    rw [hrest]
    exact List.append_ne_nil_of_left_ne_nil hspelled.ne_nil _

/-- Unless the first and the last one are in the same quotes, the texts of the arguments are told
apart. -/
theorem memberTexts_of_argumentTexts (h : ArgumentTexts cs args texts) (htwo : 2 ≤ args.length)
    (hends : ¬ EndsInQuotes texts) :
    memberTexts (fuel + 1) cs = some (ownTexts texts args) := by
  have hargs : args ≠ [] := by
    rintro rfl
    cases htwo
  obtain ⟨hbody, htexts⟩ := h.bracketed? hargs
  have hlen := htexts.length_eq
  have hne : texts ≠ [] := by
    rintro rfl
    rw [List.length_nil] at hlen
    omega
  have hunquote : unquote ([','].intercalate texts) = Text.trim ([','].intercalate texts) := by
    refine (unquote_cases _).resolve_right ?_
    rintro ⟨q, inside, hq, htrim, -⟩
    exact hends (endsInQuotes_of_inQuotes htexts hne ⟨hq, inside, htrim⟩)
  have hpieces : splitTopLevel ([','].intercalate texts) = texts.map Text.trim := by
    rw [splitTopLevel_eq, pieceList_intercalate hne fun t ht => ?_]
    obtain ⟨arg, -, hspelled⟩ := exists_right_of_forall₂ htexts ht
    exact hspelled.passes
  rw [memberTexts_succ, hbody, Option.bind_some, textsWithin, hunquote, splitTopLevel_trim, hpieces,
    if_pos (by rw [List.length_map]; omega), partTexts_eq htexts]

/-! ## Subscripts around a text -/

/-- A text in any number of subscripts with it as their only argument, perhaps in quotes. -/
inductive Wrapped (cs : List Char) : List Char → Prop
  | self : Wrapped cs cs
  | bare {inner before n gap left right after : List Char} :
      Wrapped cs inner → AllBlank before → IsName n → AllBlank gap → AllBlank left →
      AllBlank right → AllBlank after →
      Wrapped cs (before ++ (n ++ (gap ++ '[' :: (left ++ (inner ++ right) ++ ']' :: after))))
  | quoted {inner before n gap left right after : List Char} {q : Char} :
      Wrapped cs inner → isQuote q = true → q ∉ inner → AllBlank before → IsName n →
      AllBlank gap → AllBlank left → AllBlank right → AllBlank after →
      Wrapped cs
        (before ++ (n ++ (gap ++ '[' :: (left ++ q :: (inner ++ q :: right) ++ ']' :: after))))

theorem bracketed?_trim (h : Spelled cs (.subscript head args)) :
    bracketed? (Text.trim cs) = bracketed? cs := by
  cases h with
  | subscript hb hn hgap hbody ha =>
    have hne := hbody.ne_nil
    have htrimmed := bracketed?_layer allBlank_nil hn hgap allBlank_nil hne
    rw [trim_subscript hb hn ha, bracketed?_layer hb hn hgap ha hne]
    exact htrimmed

/-- A layer around a text of a subscript does not count. -/
theorem textsWithin_trim (h : Spelled inner (.subscript head args)) (hfuel : inner.length < fuel) :
    textsWithin fuel (Text.trim inner) = memberTexts (inner.length + 1) inner := by
  have hone := (SpelledAll.one h.trim).splitTopLevel.length_eq
  rw [List.length_singleton] at hone
  rw [textsWithin, if_neg (by omega)]
  obtain ⟨fuel, rfl⟩ : ∃ m, fuel = m + 1 := ⟨fuel - 1, by omega⟩
  rw [memberTexts_succ, bracketed?_trim h, ← memberTexts_succ]
  exact memberTexts_congr hfuel (by omega)

/-- Subscripts with one argument around a text of a subscript do not count. -/
theorem Wrapped.memberTexts_eq (h : Wrapped cs cs') (hcs : Spelled cs (.subscript head args)) :
    (∃ head' args', Spelled cs' (.subscript head' args')) ∧
      memberTexts (cs'.length + 1) cs' = memberTexts (cs.length + 1) cs := by
  induction h with
  | self => exact ⟨⟨_, _, hcs⟩, rfl⟩
  | @bare inner before n gap left right after _ hb hn hgap hl hr ha ih =>
    obtain ⟨⟨head', args', hinner⟩, hsame⟩ := ih
    have hbody := hinner.blanks hl hr
    refine ⟨⟨_, _, .subscript hb hn hgap (.one hbody) ha⟩, ?_⟩
    have htrim : Text.trim (left ++ (inner ++ right)) = Text.trim inner := by
      rw [← List.append_assoc, trim_append_blank hr, Text.trim, trimLeft_append hl, Text.trim]
    rw [memberTexts_succ, bracketed?_layer hb hn hgap ha hbody.ne_nil, Option.bind_some,
      unquote_of_subscript hbody, htrim, textsWithin_trim hinner (by simp; omega), hsame]
  | @quoted inner before n gap left right after q _ hq hquote hb hn hgap hl hr ha ih =>
    obtain ⟨⟨head', args', hinner⟩, hsame⟩ := ih
    have hbody := Spelled.quoted hl hq hquote hr
    refine ⟨⟨_, _, .subscript hb hn hgap (.one hbody) ha⟩, ?_⟩
    rw [memberTexts_succ, bracketed?_layer hb hn hgap ha hbody.ne_nil, Option.bind_some,
      unquote_quotes hl hq hr, textsWithin_trim hinner (by simp; omega), hsame]

end HintTerm

end HintSchema
