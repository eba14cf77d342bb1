import HintSchema.Proofs.Productions
import HintSchema.Proofs.Splitting

/-!
# Splitting and joining

Splitting is the inverse of joining with commas, up to blanks at the commas and at the ends
(`Text.splitTopLevel_join`).  Texts that close what they open, and have no comma outside of it
(`Text.Closes`), are passed by a scan, so the text that they are joined to is cut between them
(`Text.pieceList_intercalate`).  The pieces of any text are joined to the text again
(`Text.intercalate_pieceList`): a comma that separates leaves the scan as it was at the beginning, and
all else goes into the pieces.
-/

namespace HintSchema

namespace Text

variable {s : Scan} {cs p core : List Char} {ps parts : List (List Char)} {c : Char} {d : Nat}

/-! ## Texts that close what they open -/

/-- With `d` brackets open, the text closes these brackets and all that it opens itself.  No bracket is
closed that is not open, quotes are closed, and no comma stands outside of brackets and quotes; what is
in quotes does not count. -/
inductive Closes : Nat → List Char → Prop
  | nil : Closes 0 []
  | plain {d : Nat} {c : Char} {cs : List Char} :
      HintTerm.isQuote c = false → c ≠ '[' → c ≠ ']' → (c = ',' → 0 < d) →
      Closes d cs → Closes d (c :: cs)
  | quoted {d : Nat} {q : Char} {inside cs : List Char} :
      HintTerm.isQuote q = true → q ∉ inside → Closes d cs → Closes d (q :: (inside ++ q :: cs))
  | opened {d : Nat} {cs : List Char} : Closes (d + 1) cs → Closes d ('[' :: cs)
  | closed {d : Nat} {cs : List Char} : Closes d cs → Closes (d + 1) (']' :: cs)

theorem step_of_inside (hquote : HintTerm.isQuote c = false) (hopen : c ≠ '[') (hclose : c ≠ ']')
    (hcomma : c = ',' → 0 < d) :
    Scan.step ⟨d, none⟩ c = ⟨d, none⟩ ∧ Scan.separates ⟨d, none⟩ c = false := by
  refine ⟨by simp [Scan.step, hquote, hopen, hclose], ?_⟩
  by_cases hc : c = ','
  · have hpos := hcomma hc
    simp [Scan.separates, Nat.ne_of_gt hpos]
  · simp [Scan.separates, hc]

/-- A scan that has `d` brackets open stands outside of all behind a text that closes them. -/
theorem Closes.pieces_append (h : Closes d cs) (rest : List Char) :
    pieces ⟨d, none⟩ (cs ++ rest) = (cs ++ (pieces {} rest).1, (pieces {} rest).2) := by
  induction h with
  | nil => rfl
  | plain hquote hopen hclose hcomma _ ih =>
    obtain ⟨hstep, hsep⟩ := step_of_inside hquote hopen hclose hcomma
    rw [List.cons_append, pieces_cons hsep, hstep, ih]
    rfl
  | @quoted d q inside cs hq hinside _ ih =>
    have hsplit : q :: (inside ++ q :: cs) ++ rest = q :: (inside ++ [q]) ++ (cs ++ rest) := by simp
    rw [hsplit, passes_quoted hq hinside, ih]
    simp
  | @opened d cs _ ih =>
    have hstep : Scan.step ⟨d, none⟩ '[' = ⟨d + 1, none⟩ := by simp [Scan.step, HintTerm.isQuote]
    rw [List.cons_append, pieces_cons (by simp [Scan.separates]), hstep, ih]
    rfl
  | @closed d cs _ ih =>
    have hstep : Scan.step ⟨d + 1, none⟩ ']' = ⟨d, none⟩ := by simp [Scan.step, HintTerm.isQuote]
    rw [List.cons_append, pieces_cons (by simp [Scan.separates]), hstep, ih]
    rfl

theorem Closes.passes (h : Closes 0 cs) : Passes {} cs := h.pieces_append

/-- Blanks at the ends of a text do not count. -/
theorem Closes.passes_of_trimsTo (h : Closes 0 core) (hp : TrimsTo p core) : Passes {} p := by
  obtain ⟨before, after, rfl, hb, ha, -⟩ := hp
  exact hb.passes.append (h.passes.append ha.passes)

/-! ## Pieces -/

/-- Texts that a scan passes are the pieces of the text that they are joined to. -/
theorem pieceList_intercalate (hne : ps ≠ []) (h : ∀ p ∈ ps, Passes {} p) :
    pieceList ([','].intercalate ps) = ps := by
  induction ps with
  | nil => exact absurd rfl hne
  | cons p rest ih =>
    obtain ⟨hp, hrest⟩ := List.forall_mem_cons.1 h
    cases rest with
    | nil =>
      have hone : pieceList (p ++ []) = _ := pieceList_append hp
      simpa [pieces] using hone
    | cons p' rest =>
      rw [List.intercalate_cons_cons, List.append_assoc, List.singleton_append, pieceList_comma hp,
        ih (List.cons_ne_nil _ _) hrest]

theorem step_of_separates (h : s.separates c = true) : c = ',' ∧ s.step c = {} := by
  obtain ⟨d, q⟩ := s
  simp only [Scan.separates, Bool.and_eq_true, Option.isNone_iff_eq_none, beq_iff_eq] at h
  obtain ⟨⟨rfl, rfl⟩, rfl⟩ := h
  exact ⟨rfl, rfl⟩

theorem pieces_of_separates (h : s.separates c = true) (rest : List Char) :
    pieces s (c :: rest) = ([], pieceList rest) := by
  obtain ⟨rfl, hstep⟩ := step_of_separates h
  rw [pieces, hstep]
  exact if_pos h

/-- A text is one piece, or there is a comma behind its first piece, from which on whatever follows is
split as a text of its own. -/
theorem pieces_cases (s : Scan) (cs : List Char) : pieces s cs = (cs, []) ∨
    ∃ p rest, cs = p ++ ',' :: rest ∧
      ∀ rest', pieces s (p ++ ',' :: rest') = (p, pieceList rest') := by
  induction cs generalizing s with
  | nil => exact .inl rfl
  | cons c rest ih =>
    by_cases hsep : s.separates c = true
    · obtain ⟨rfl, -⟩ := step_of_separates hsep
      exact .inr ⟨[], rest, rfl, pieces_of_separates hsep⟩
    · have hcons : ∀ {rest}, pieces s (c :: rest) =
          (c :: (pieces (s.step c) rest).1, (pieces (s.step c) rest).2) :=
        pieces_cons (by simpa using hsep)
      rcases ih (s.step c) with hone | ⟨p, rest', rfl, hmore⟩
      · exact .inl (by rw [hcons, hone])
      · exact .inr ⟨c :: p, rest', rfl, fun rest' => by rw [List.cons_append, hcons, hmore]⟩

theorem pieceList_cases (cs : List Char) : pieceList cs = [cs] ∨
    ∃ p rest, cs = p ++ ',' :: rest ∧
      ∀ rest', pieceList (p ++ ',' :: rest') = p :: pieceList rest' := by
  refine (pieces_cases {} cs).imp (fun h => by rw [pieceList, h]) ?_
  rintro ⟨p, rest, hcs, h⟩
  exact ⟨p, rest, hcs, fun rest' => by rw [pieceList, h]⟩

/-- The pieces of a text, joined with commas, are the text. -/
theorem intercalate_pieceList (cs : List Char) : [','].intercalate (pieceList cs) = cs := by
  induction hlen : cs.length using Nat.strong_induction_on generalizing cs with
  | _ n ih =>
    rcases pieceList_cases cs with hone | ⟨p, rest, rfl, hmore⟩
    · rw [hone]
      simp
    · have hrest := ih rest.length (by simp [← hlen]; omega) rest rfl
      have hne : pieceList rest ≠ [] := List.cons_ne_nil _ _
      rw [hmore, List.intercalate_cons_of_ne_nil hne, hrest, List.append_assoc,
        List.singleton_append]

/-! ## Blanks around a text -/

/-- Blanks leave a scan as it stands, also in quotes. -/
theorem step_of_blank (hs : ∀ q, s.quote = some q → HintTerm.isQuote q = true)
    (hc : isBlank c = true) : s.step c = s ∧ s.separates c = false := by
  have hquote := HintTerm.isQuote_of_isBlank hc
  obtain ⟨d, q⟩ := s
  cases q with
  | none => refine step_of_plain hquote ?_ ?_ ?_ <;> rintro rfl <;> exact absurd hc (by decide)
  | some q =>
    have hne : c ≠ q := by
      rintro rfl
      exact absurd (hs c rfl) (by simp [hquote])
    simp [Scan.step, Scan.separates, hne]

theorem isQuote_of_step (hs : ∀ q, s.quote = some q → HintTerm.isQuote q = true) (c : Char) :
    ∀ q, (s.step c).quote = some q → HintTerm.isQuote q = true := by
  obtain ⟨d, quote⟩ := s
  intro q hq
  cases quote with
  | none =>
    simp only [Scan.step] at hq
    split_ifs at hq with hc
    cases hq
    exact hc
  | some q' =>
    simp only [Scan.step] at hq
    split_ifs at hq
    exact hs q hq

theorem pieces_append_blank {after : List Char}
    (hs : ∀ q, s.quote = some q → HintTerm.isQuote q = true) (ha : AllBlank after)
    (h : pieces s cs = (cs, [])) : pieces s (cs ++ after) = (cs ++ after, []) := by
  induction cs generalizing s with
  | nil =>
    have hpass : Passes s after := passes_of_step fun c hc => step_of_blank hs (ha c hc)
    simpa [pieces] using hpass []
  | cons c rest ih =>
    have hsep : s.separates c = false := by
      by_contra hsep
      rw [pieces_of_separates (by simpa using hsep)] at h
      cases h
    rw [pieces_cons hsep] at h
    obtain ⟨hfirst, hothers⟩ := Prod.mk.inj h
    have hrest := ih (isQuote_of_step hs c) (Prod.ext (List.cons.inj hfirst).2 hothers)
    rw [List.cons_append, pieces_cons hsep, hrest]

theorem splitTopLevel_append_blank {after : List Char} (ha : AllBlank after) (cs : List Char) :
    splitTopLevel (cs ++ after) = splitTopLevel cs := by
  induction hlen : cs.length using Nat.strong_induction_on generalizing cs with
  | _ n ih =>
    rcases pieces_cases {} cs with hone | ⟨p, rest, rfl, hmore⟩
    · have hafter := pieces_append_blank (by simp) ha hone
      rw [splitTopLevel, splitTopLevel, hafter, hone]
      simp [trim_append_blank ha]
    · have hrest := ih rest.length (by simp [← hlen]; omega) rest rfl
      rw [splitTopLevel_eq, splitTopLevel_eq] at hrest ⊢
      rw [List.append_assoc, List.cons_append, pieceList, pieceList, hmore, hmore, List.map_cons,
        List.map_cons, hrest]

/-- Trimming a text does not change its parts. -/
theorem splitTopLevel_trim (cs : List Char) : splitTopLevel (trim cs) = splitTopLevel cs := by
  obtain ⟨before, after, hb, ha, hcs⟩ := exists_trim cs
  have hfirst : ∀ x, trim (before ++ x) = trim x := fun x => by rw [trim, trimLeft_append hb, trim]
  conv_rhs => rw [hcs, ← List.append_assoc, splitTopLevel_append_blank ha, splitTopLevel_eq,
    pieceList_append hb.passes, List.map_cons, hfirst]
  rfl

/-! ## Parts -/

/-- Texts without blanks at their ends that close what they open are split again when they are joined
with commas, whatever blanks stand around them.  The parts of any text stand, between blanks, in texts
that are joined to it. -/
theorem splitTopLevel_join :
    (∀ parts ps : List (List Char), parts ≠ [] → (∀ part ∈ parts, Closes 0 part) →
      List.Forall₂ TrimsTo ps parts → splitTopLevel ([','].intercalate ps) = parts) ∧
    ∀ cs : List Char, splitTopLevel cs ≠ [] ∧
      ∃ ps, [','].intercalate ps = cs ∧ List.Forall₂ TrimsTo ps (splitTopLevel cs) := by
  refine ⟨fun parts ps hne hcloses htrims => ?_, fun cs => ⟨?_, pieceList cs, ?_, ?_⟩⟩
  · have hpasses : ∀ p ∈ ps, Passes {} p := fun p hp => by
      obtain ⟨part, hpart, htrim⟩ := exists_right_of_forall₂ htrims hp
      exact (hcloses part hpart).passes_of_trimsTo htrim
    have hps : ps ≠ [] := by
      rintro rfl
      cases htrims
      exact hne rfl
    rw [splitTopLevel_eq, pieceList_intercalate hps hpasses, ← List.forall₂_eq_eq_eq,
      List.forall₂_map_left_iff]
    exact htrims.imp fun _ _ h => (trimsTo_iff.1 h).symm
  · rw [splitTopLevel_eq, Ne, List.map_eq_nil_iff]
    exact List.cons_ne_nil _ _
  · exact intercalate_pieceList cs
  · rw [splitTopLevel_eq, List.forall₂_map_right_iff]
    exact List.forall₂_same.2 fun _ _ => trimsTo_iff.2 rfl

end Text

namespace Sample

open Text

/-- A text with a comma in brackets and a bracket in quotes, a text of nothing, and a name. -/
def entries : List (List Char) := ["D[a, ']']".toList, [], "Cat".toList]

theorem closes_entries : ∀ part ∈ entries, Closes 0 part := by
  have hname : Closes 0 ['C', 'a', 't'] := by
    iterate 3 refine .plain (by decide) (by decide) (by decide) (by decide) ?_
    exact .nil
  have hbrackets : Closes 0 ['D', '[', 'a', ',', ' ', '\'', ']', '\'', ']'] := by
    refine .plain (by decide) (by decide) (by decide) (by decide) (.opened ?_)
    iterate 3 refine .plain (by decide) (by decide) (by decide) (by decide) ?_
    exact .quoted (by decide) (by decide : '\'' ∉ [']']) (.closed .nil)
  have hentries : entries = [['D', '[', 'a', ',', ' ', '\'', ']', '\'', ']'], [], ['C', 'a', 't']] := by
    cbv
  rw [hentries]
  simp [hname, hbrackets, Closes.nil]

/-- The entries are split again when they are joined with blanks around them, and a text in which
nothing matches is split all the same. -/
theorem splitTopLevel_join_entries : (∀ part ∈ entries, Closes 0 part) ∧
    splitTopLevel " D[a, ']'] ,\n, Cat\t".toList = entries ∧
    splitTopLevel "]], a[ , 'b".toList ≠ [] ∧
    ∃ ps, [','].intercalate ps = "]], a[ , 'b".toList ∧
      List.Forall₂ TrimsTo ps (splitTopLevel "]], a[ , 'b".toList) := by
  obtain ⟨hjoin, hparts⟩ := splitTopLevel_join
  refine ⟨closes_entries, ?_, hparts _⟩
  refine hjoin entries [" D[a, ']'] ".toList, "\n".toList, " Cat\t".toList] (by decide)
    closes_entries (.cons ?_ (.cons ?_ (.cons ?_ .nil)))
  all_goals exact trimsTo_iff.2 (by cbv)

end Sample

end HintSchema
