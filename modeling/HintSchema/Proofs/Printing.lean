import HintSchema.Proofs.Idempotence
import HintSchema.Proofs.Respelling
import HintSchema.Proofs.Unbounded

/-!
# Reading printed types back

The printed form of a type is a hint.  It goes through the grammar, the names of a namespace and the
building of unions, and still it evaluates to a type of the same key, if that is so of the classes,
the aliases and the absent value that stand in the type (`Namespace.readsBack_of_eval`).  It may be
another type: a union with the absent value is printed as optional wherever that stands.
-/

namespace HintSchema

open Text

/-! ## Blanks in front -/

namespace HintTerm

variable {c : Char} {cs : List Char} {term : HintTerm} {args : List HintTerm} {head body : String}

theorem Spelled.cons_blank (hc : isBlank c = true) (h : Spelled cs term) :
    Spelled (c :: cs) term := by
  cases h with
  | name hb hn ha => exact .name (List.forall_mem_cons.2 ⟨hc, hb⟩) hn ha
  | quoted hb hq hinside ha => exact .quoted (List.forall_mem_cons.2 ⟨hc, hb⟩) hq hinside ha
  | subscript hb hn hgap hbody ha =>
    exact .subscript (List.forall_mem_cons.2 ⟨hc, hb⟩) hn hgap hbody ha

theorem SpelledAll.cons_blank (hc : isBlank c = true) (h : SpelledAll cs args) :
    SpelledAll (c :: cs) args := by
  cases h with
  | one hterm => exact .one (hterm.cons_blank hc)
  | more hterm hterms => exact .more (hterm.cons_blank hc) hterms

theorem spelled_subscript (hhead : isIdentifier head.toList = true)
    (hbody : SpelledAll body.toList args) :
    Spelled (head ++ "[" ++ body ++ "]").toList (.subscript head args) := by
  have h := Spelled.subscript allBlank_nil (isName_of_isIdentifier hhead) allBlank_nil hbody
    allBlank_nil
  rw [String.ofList_toList] at h
  simpa [String.toList_append] using h

end HintTerm

/-! ## Printed forms -/

namespace TypeExpr

variable {e only : TypeExpr} {es : List TypeExpr}

/-- Types that are printed as a name of their own. -/
def isLeaf : TypeExpr → Bool
  | .cls _ | .noneType | .aliasOf .. => true
  | .union _ | .generic .. | .forward _ => false

/-- The heads of subscripted types that are no sequences. -/
def otherHeads : List String := ["Dict", "dict", "Set", "set", "FrozenSet", "Tuple", "tuple"]

/-- The printed form of a type is in the grammar: no union or subscripted type in it is empty, and
the heads in it are known. -/
structure Printable (e : TypeExpr) : Prop where
  union : ¬ (TypeExpr.union []).StandsIn e
  generic : ∀ kind, ¬ (TypeExpr.generic kind []).StandsIn e
  other : ∀ name args, (TypeExpr.generic (.other name) args).StandsIn e → name ∈ otherHeads

theorem texts_eq_map (es : List TypeExpr) : texts es = es.map text := by
  induction es with
  | nil => rfl
  | cons e rest ih => rw [texts, List.map_cons, ih]

theorem presentTexts_eq_map (es : List TypeExpr) :
    presentTexts es = (es.filter (!·.isNone)).map text := by
  induction es with
  | nil => rfl
  | cons e rest ih =>
    rw [presentTexts, ih]
    cases hnone : e.isNone <;> simp [hnone]

theorem intercalate_texts_cons (e e' : TypeExpr) (rest : List TypeExpr) :
    ", ".intercalate (texts (e :: e' :: rest)) =
      e.text ++ ", " ++ ", ".intercalate (texts (e' :: rest)) :=
  String.intercalate_cons_cons

/-- A union is printed as optional if it has the absent value and just one other member. -/
theorem text_union_cases (es : List TypeExpr) :
    (∃ only, es.filter (!·.isNone) = [only] ∧ es.any isNone = true ∧
      (union es).text = "Optional" ++ "[" ++ ", ".intercalate (texts [only]) ++ "]") ∨
    (union es).text = "Union" ++ "[" ++ ", ".intercalate (texts es) ++ "]" := by
  rw [text]
  split
  · rename_i inner hnone hpresent
    rw [presentTexts_eq_map, List.map_eq_singleton_iff] at hpresent
    obtain ⟨only, honly, rfl⟩ := hpresent
    refine .inl ⟨only, honly, hnone, ?_⟩
    rw [texts_eq_map, List.map_singleton, String.intercalate_singleton]
    rfl
  · exact .inr rfl

/-- The key of a union does not tell where the absent value stands. -/
theorem key_union_of_present (hpresent : es.filter (!·.isNone) = [only])
    (hnone : es.any isNone = true) : (union es).key = (union [only, .noneType]).key := by
  have honly := (ResolvedHint.mem_of_present hpresent).2
  have hsettled : (union es).settled = (union [only, .noneType]).settled := by
    refine settled_union_inj.2 ⟨?_, ?_⟩
    · rw [hpresent, List.filter_cons_of_pos (by simp [honly])]
      rfl
    · rw [hnone, List.any_cons, honly]
      rfl
  rw [← key_settled, hsettled, key_settled]

/-- The union of types that have the keys of the members of a normal union is built from just
these. -/
theorem unionOf_of_keys {ds : List TypeExpr} (hn : (union es).Normal)
    (hkeys : ds.map key = es.map key) : unionOf ds = union ds := by
  obtain ⟨-, hflat, hnodup, hlen⟩ := hn
  have hlength : ds.length = es.length := by simpa using congrArg List.length hkeys
  refine unionOf_eq_union (fun d hd => ?_) ?_ (hlength ▸ hlen)
  · obtain ⟨e, he, hkey⟩ := List.mem_map.1 (hkeys ▸ List.mem_map_of_mem hd)
    rw [isUnion_eq_of_key hkey.symm, hflat e he]
  · rwa [hkeys, ← keys_eq_map]

end TypeExpr

theorem GenericKind.isHead {kind : GenericKind}
    (h : ∀ name, kind = .other name → name ∈ TypeExpr.otherHeads) :
    isIdentifier kind.name.toList = true ∧
      SubscriptHead.ofName? (lastSegment kind.name) = some (.generic kind) := by
  cases kind with
  | list | iterable | iterator => exact ⟨rfl, rfl⟩
  | other name =>
    have hname := h name rfl
    simp only [TypeExpr.otherHeads, List.mem_cons, List.not_mem_nil, or_false] at hname
    rcases hname with rfl | rfl | rfl | rfl | rfl | rfl | rfl <;> exact ⟨rfl, rfl⟩

/-! ## Reading back -/

namespace Namespace

open TypeExpr
open HintTerm (Spelled SpelledAll evalAll)

variable {ns made : Namespace} {source : String} {e : TypeExpr} {es : List TypeExpr}
  {hint : Hint}

/-- The printed form of a type evaluates to a type of its key. -/
def ReadsBack (ns : Namespace) (e : TypeExpr) : Prop :=
  ∃ d, ns.eval (.text e.text) = .ok d ∧ d.key = e.key

/-- Types that can be read back can be read back from a list. -/
theorem exists_evalAll (hne : es ≠ []) (hes : ∀ e ∈ es, ns.ReadsBack e) :
    ∃ terms ds, SpelledAll (", ".intercalate (texts es)).toList terms ∧
      evalAll (ns.binding 0) (evalSource ns.binding 1) terms = .ok ds ∧
      ds.map key = es.map key := by
  induction es with
  | nil => exact absurd rfl hne
  | cons e rest ih =>
    obtain ⟨⟨d, hd, hkey⟩, hrest⟩ := List.forall_mem_cons.1 hes
    obtain ⟨term, hterm, heval⟩ := eval_text_iff.1 hd
    cases rest with
    | nil =>
      refine ⟨[term], [d], ?_, ?_, ?_⟩
      · rw [texts_eq_map, List.map_singleton, String.intercalate_singleton]
        exact .one hterm
      · rw [evalAll, evalAll, heval]
        rfl
      · rw [List.map_cons, List.map_cons, hkey]
    | cons e' rest =>
      obtain ⟨terms, ds, hterms, hevals, hkeys⟩ := ih (List.cons_ne_nil _ _) hrest
      refine ⟨term :: terms, d :: ds, ?_, ?_, ?_⟩
      · have hmore := SpelledAll.more hterm (hterms.cons_blank (c := ' ') (by decide))
        rw [intercalate_texts_cons]
        simpa [String.toList_append] using hmore
      · rw [evalAll, heval, hevals]
        rfl
      · rw [List.map_cons, hkeys, hkey]
        rfl

/-- A head in front of printed types builds from types of their keys. -/
theorem exists_eval_subscript (head : String) {h : SubscriptHead}
    (hname : isIdentifier head.toList = true)
    (hhead : SubscriptHead.ofName? (lastSegment head) = some h) (hne : es ≠ [])
    (hes : ∀ e ∈ es, ns.ReadsBack e) :
    ∃ ds, ds.map key = es.map key ∧ ∀ d, h.Builds ds d →
      ns.eval (.text (head ++ "[" ++ ", ".intercalate (texts es) ++ "]")) = .ok d := by
  obtain ⟨terms, ds, hspelled, hevals, hkeys⟩ := exists_evalAll hne hes
  refine ⟨ds, hkeys, fun d hbuilds => ?_⟩
  refine eval_text_iff.2 ⟨.subscript head terms, HintTerm.spelled_subscript hname hspelled, ?_⟩
  rw [HintTerm.eval_subscript_of_evalAll hevals, HintTerm.evalSubscript_iff]
  exact ⟨h, hhead, hbuilds⟩

theorem readsBack_generic {kind : GenericKind}
    (hkind : ∀ name, kind = .other name → name ∈ otherHeads) (hne : es ≠ [])
    (hes : ∀ e ∈ es, ns.ReadsBack e) : ns.ReadsBack (.generic kind es) := by
  obtain ⟨hname, hhead⟩ := GenericKind.isHead hkind
  obtain ⟨ds, hkeys, heval⟩ := exists_eval_subscript kind.name hname hhead hne hes
  exact ⟨.generic kind ds, heval _ (.generic kind ds), by rw [key_generic, key_generic, hkeys]⟩

theorem readsBack_union (hn : (union es).Normal) (hne : es ≠ [])
    (hes : ∀ e ∈ es, ns.ReadsBack e) : ns.ReadsBack (.union es) := by
  rcases text_union_cases es with ⟨only, hpresent, hnone, htext⟩ | htext
  · obtain ⟨honly, hsome⟩ := ResolvedHint.mem_of_present hpresent
    obtain ⟨ds, hkeys, heval⟩ := exists_eval_subscript "Optional" rfl rfl
      (List.cons_ne_nil only []) (List.forall_mem_singleton.2 (hes only honly))
    obtain ⟨d, rfl, hkey⟩ := List.map_eq_singleton_iff.1 hkeys
    have hoptional : d.optional = union [d, .noneType] :=
      optional_of_not_union ((isUnion_eq_of_key hkey).trans (hn.2.1 only honly))
        ((isNone_eq_of_key hkey).trans hsome)
    refine ⟨d.optional, ?_, ?_⟩
    · rw [htext]
      exact heval _ (.optional d)
    · rw [hoptional, key_union_of_present hpresent hnone, key_union, key_union]
      simp [hkey]
  · obtain ⟨ds, hkeys, heval⟩ := exists_eval_subscript "Union" rfl rfl hne hes
    refine ⟨unionOf ds, ?_, ?_⟩
    · rw [htext]
      exact heval _ (.union ds)
    · rw [unionOf_of_keys hn hkeys, key_union, key_union, hkeys]

/-- Of its own, apart from its members and arguments, a type does not stop its printed form from being
read back. -/
def Legible (ns : Namespace) : TypeExpr → Prop
  | .union members => members ≠ []
  | .generic kind args => args ≠ [] ∧ ∀ name, kind = .other name → name ∈ otherHeads
  | .cls c => ns.ReadsBack (.cls c)
  | .noneType => ns.ReadsBack .noneType
  | .aliasOf id name supertype => ns.ReadsBack (.aliasOf id name supertype)
  | .forward _ => False

theorem readsBack_of_parts : ∀ {e : TypeExpr}, e.Normal → (∀ d, d.StandsIn e → ns.Legible d) →
    ns.ReadsBack e
  | .cls _, _, h | .noneType, _, h | .aliasOf .., _, h => h _ .self
  | .forward _, _, h => (h _ .self).elim
  | .union members, hn, h =>
    readsBack_union hn (h _ .self) fun m hm =>
      readsBack_of_parts (normalAll_iff.1 hn.1 m hm) fun d hd => h d (.member hm hd)
  | .generic kind args, hn, h => by
    obtain ⟨hne, hkind⟩ := h _ .self
    exact readsBack_generic hkind hne fun a ha =>
      readsBack_of_parts (normalAll_iff.1 hn a ha) fun d hd => h d (.arg ha hd)

/-- A type that a hint evaluates to can be read back from its printed form, up to its key, where the
classes, the aliases and the absent value that stand in it can. -/
theorem readsBack_of_eval (he : made.eval hint = .ok e) (hp : e.Printable)
    (hleaves : ∀ leaf : TypeExpr, leaf.isLeaf = true → leaf.StandsIn e → ns.ReadsBack leaf) :
    ns.ReadsBack e := by
  refine readsBack_of_parts (normal_of_eval he) fun d hd => ?_
  cases d with
  | cls | noneType | aliasOf => exact hleaves _ rfl hd
  | union members =>
    rintro rfl
    exact hp.union hd
  | generic kind args =>
    refine ⟨?_, ?_⟩
    · rintro rfl
      exact hp.generic kind hd
    · rintro name rfl
      exact hp.other name args hd
  | forward source => exact not_standsIn_of_eval he source hd

end Namespace

namespace Sample

open TypeExpr

/-- What the text `Dict[str, Union[None, List[Cat]]]` evaluates to. -/
def basket : TypeExpr :=
  .generic (.other "Dict") [.cls .str, .union [.noneType, .listOf (.cls cat)]]

theorem standsIn_basket {d : TypeExpr} (h : d.StandsIn basket) :
    d ∈ [basket, .cls .str, .union [.noneType, .listOf (.cls cat)], .noneType, .listOf (.cls cat),
      .cls cat] := by
  cases h with
  | self => exact List.mem_cons_self
  | arg hm h =>
    rcases List.mem_pair.1 hm with rfl | rfl
    · cases h
      simp
    · cases h with
      | self => simp
      | member hm h =>
        rcases List.mem_pair.1 hm with rfl | rfl
        · cases h
          simp
        · cases h with
          | self => simp
          | arg hm h =>
            obtain rfl := List.mem_singleton.1 hm
            cases h
            simp

/-- The basket is read back from a text that has the absent value last. -/
theorem readsBack_basket :
    townNames.eval (.text "Dict[str, Union[None, List[Cat]]]") = .ok basket ∧
    basket.text = "Dict[str, Optional[List[Cat]]]" ∧ townNames.ReadsBack basket := by
  have heval : townNames.eval (.text "Dict[str, Union[None, List[Cat]]]") = .ok basket := by cbv
  have hprintable : basket.Printable := by
    constructor
    · intro h
      simpa [basket, listOf] using standsIn_basket h
    · intro kind h
      simpa [basket, listOf] using standsIn_basket h
    · intro name args h
      obtain ⟨rfl, -⟩ : name = "Dict" ∧ _ := by simpa [basket, listOf] using standsIn_basket h
      decide
  refine ⟨heval, by cbv, Namespace.readsBack_of_eval heval hprintable fun leaf hleaf h => ?_⟩
  have hmem := standsIn_basket h
  simp only [List.mem_cons, List.not_mem_nil, or_false] at hmem
  rcases hmem with rfl | rfl | rfl | rfl | rfl | rfl
  · cases hleaf
  · exact ⟨.cls .str, by cbv, rfl⟩
  · cases hleaf
  · exact ⟨.noneType, by cbv, rfl⟩
  · cases hleaf
  · exact ⟨.cls cat, by cbv, rfl⟩

end Sample

end HintSchema
