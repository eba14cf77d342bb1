import Mathlib
import HintSchema.Proofs.Depth
import HintSchema.Proofs.Descriptors
import HintSchema.Proofs.Unnamed

/-!
# Namespaces with more names

Names are looked up wherever a hint or a binding mentions them, before the built-in types and never
for the head of a subscript.  More names in a namespace change nothing that is resolved with fewer,
as long as none of them goes by the name of a built-in type (`Namespace.Extends`), and as only the
lookups count, bindings may be added in any order (`Namespace.conservative`).
-/

namespace HintSchema

/-! ## Computations that keep values -/

section Keeps

variable {α β ε : Type} {x y : Except ε α} {a : α}

/-- Where the first computation gives a value, the second one gives the same. -/
abbrev Keeps (x y : Except ε α) : Prop := Yields Eq x y

theorem Keeps.refl (x : Except ε α) : Keeps x x := fun a ha => ⟨a, ha, rfl⟩

theorem Keeps.ok (h : Keeps x y) (hx : x = .ok a) : y = .ok a := by
  obtain ⟨b, hy, rfl⟩ := h a hx
  exact hy

theorem Keeps.bind {f f' : α → Except ε β} (h : Keeps x y) (hf : ∀ a, Keeps (f a) (f' a)) :
    Keeps (x >>= f) (y >>= f') :=
  Yields.bind h fun {a _} heq => heq ▸ hf a

theorem keeps_mapM {f f' : α → Except ε β} (hf : ∀ a, Keeps (f a) (f' a)) (as : List α) :
    Keeps (as.mapM f) (as.mapM f') := by
  have hmapM : Yields (List.Forall₂ Eq) (as.mapM f) (as.mapM f') :=
    yields_mapM (List.forall₂_refl as) fun {a a'} (heq : a = a') => heq ▸ hf a
  rwa [List.forall₂_eq_eq_eq] at hmapM

theorem keeps_filterMapM {f f' : α → Except ε (Option β)} (hf : ∀ a, Keeps (f a) (f' a))
    (as : List α) : Keeps (as.filterMapM f) (as.filterMapM f') := by
  have hfilter : Yields (List.Forall₂ Eq) (as.filterMapM f) (as.filterMapM f') := by
    refine yields_filterMapM (List.forall₂_refl as) fun {a a'} (heq : a = a') o ho => ?_
    subst heq
    refine ⟨o, (hf a).ok ho, ?_⟩
    cases o with
    | none => exact .none
    | some b => exact .some rfl
  rwa [List.forall₂_eq_eq_eq] at hfilter

end Keeps

/-! ## More names -/

section Extends

variable {ns ns' : Namespace} (hext : ns.Extends ns') (h : Hierarchy) (c : ClassRef)
include hext

theorem Namespace.Extends.keeps_eval (hint : Hint) : Keeps (ns.eval hint) (ns'.eval hint) :=
  fun e he => ⟨e, evalHint_of_extends hext le_rfl le_rfl he, rfl⟩

theorem keeps_ofHint (hint : Hint) (origin : Origin) :
    Keeps (ResolvedHint.ofHint ns hint origin) (ResolvedHint.ofHint ns' hint origin) := by
  intro ann hann
  obtain ⟨e, he, hann⟩ := ResolvedHint.ofHint_eq_ok_iff.1 hann
  exact ⟨ann, ResolvedHint.ofHint_eq_ok_iff.2 ⟨e, (hext.keeps_eval hint).ok he, hann⟩, rfl⟩

theorem keeps_resolveParam (m : Method) (p : Param) :
    Keeps (resolveParam ns c m p) (resolveParam ns' c m p) := by
  intro r hr
  obtain ⟨e, ann, he, hann, rfl⟩ := resolveParam_eq_ok_iff.1 hr
  exact ⟨_, resolveParam_eq_ok_iff.2 ⟨e, ann, (hext.keeps_eval p.hint).ok he, hann, rfl⟩, rfl⟩

theorem keeps_resolveMethod (m : Method) : Keeps (resolveMethod ns c m) (resolveMethod ns' c m) := by
  unfold resolveMethod
  refine (keeps_mapM (keeps_resolveParam hext c m) m.params).bind fun args => ?_
  exact (keeps_ofHint hext m.returns _).bind fun returns => .refl _

theorem keeps_memberField (hinted : String → Bool) (name : String) (member : Member) :
    Keeps (memberField ns c hinted name member) (memberField ns' c hinted name member) := by
  cases member with
  | property p => exact (keeps_ofHint hext p.returns _).bind fun hint => .refl _
  | method m => exact (keeps_resolveMethod hext c m).bind fun r => .refl _
  | value v => exact .refl _

theorem keeps_resolveHints : Keeps (resolveHints h ns c) (resolveHints h ns' c) := by
  refine keeps_mapM (fun entry => ?_) (h.allHints c)
  obtain ⟨name, declaring, hint⟩ := entry
  exact (keeps_ofHint hext hint _).bind fun ann => .refl _

theorem keeps_describeFields : Keeps (describeFields h ns c) (describeFields h ns' c) := by
  unfold describeFields
  refine (keeps_resolveHints hext h c).bind fun hints => ?_
  refine (keeps_filterMapM (fun entry => ?_) _).bind fun members => .refl _
  exact keeps_memberField hext c (Keyed.contains hints) entry.1 entry.2

end Extends

/-! ## The same names -/

namespace Namespace

variable {ns ns' : Namespace} {name : String} {added added' : List (String × Hint)}

/-- Hints, and the hints and the fields of classes, have the same outcomes in both namespaces. -/
structure Agrees (ns ns' : Namespace) : Prop where
  eval : ∀ hint, ns.eval hint = ns'.eval hint
  hints : ∀ (h : Hierarchy) (c : ClassRef), resolveHints h ns c = resolveHints h ns' c
  fields : ∀ (h : Hierarchy) (c : ClassRef), describeFields h ns c = describeFields h ns' c

theorem evalHint_congr (hget : ∀ name, ns.get? name = ns'.get? name) (fuel : Nat) :
    ns.evalHint fuel = ns'.evalHint fuel := by
  induction fuel with
  | zero => rfl
  | succ fuel ih =>
    funext depth hint
    have hbinding : ns.bindingAt fuel = ns'.bindingAt fuel := by
      funext depth name
      rw [bindingAt, bindingAt, hget name, ih]
    rw [evalHint_succ, evalHint_succ, hbinding]

/-- What is looked up is all that counts. -/
theorem agrees_of_get? (hget : ∀ name, ns.get? name = ns'.get? name) : ns.Agrees ns' := by
  have heval : ns.eval = ns'.eval := by
    funext hint
    rw [eval, eval, evalHint_congr hget]
  have hhint : ResolvedHint.ofHint ns = ResolvedHint.ofHint ns' := by
    funext hint origin
    rw [ResolvedHint.ofHint, ResolvedHint.ofHint, heval]
  have hparam : resolveParam ns = resolveParam ns' := by
    funext c m p
    rw [resolveParam, resolveParam, heval]
  have hmember : memberField ns = memberField ns' := by
    funext c hinted name member
    cases member with
    | property p => rw [memberField, memberField, resolveProperty, resolveProperty, hhint]
    | method m => rw [memberField, memberField, resolveMethod, resolveMethod, hparam, hhint]
    | value v => rfl
  have hhints : ∀ h, resolveHints h ns = resolveHints h ns' := by
    intro h
    funext c
    rw [resolveHints, resolveHints, hhint]
  refine ⟨congrFun heval, fun h => congrFun (hhints h), fun h c => ?_⟩
  rw [describeFields, describeFields, hhints, hmember]

/-! ### Adding names -/

/-- The namespace with the names of a list bound one after the other. -/
def bindAll (ns : Namespace) (added : List (String × Hint)) : Namespace :=
  added.foldl (fun ns b => ns.bind b.1 b.2) ns

theorem bindings_bindAll (ns : Namespace) (added : List (String × Hint)) :
    (ns.bindAll added).bindings = Keyed.putAll ns.bindings added := by
  induction added generalizing ns with
  | nil => rfl
  | cons b rest ih => exact ih (ns.bind b.1 b.2)

theorem get?_bindAll (ns : Namespace) (added : List (String × Hint)) (name : String) :
    (ns.bindAll added).get? name = (Keyed.get? (Keyed.ofList added) name).or (ns.get? name) := by
  rw [get?, bindings_bindAll, Keyed.get?_putAll]
  rfl

/-- A namespace is extended by names that it does not bind and that no built-in type goes by. -/
theorem extends_bindAll (hadded : ∀ b ∈ added, ns.get? b.1 = none ∧
    lastSegment b.1 ∉ TypeExpr.builtinNames) : ns.Extends (ns.bindAll added) := by
  have hmem : ∀ {name hint}, Keyed.get? (Keyed.ofList added) name = some hint →
      ns.get? name = none ∧ lastSegment name ∉ TypeExpr.builtinNames := fun h =>
    hadded _ (Keyed.mem_ofList (Keyed.mem_of_get? h))
  constructor
  · intro name hint hname
    rw [get?_bindAll]
    cases hget : Keyed.get? (Keyed.ofList added) name with
    | none => exact hname
    | some hint' =>
      rw [(hmem hget).1] at hname
      cases hname
  · intro name hname hbound
    rw [get?_bindAll, hname, Option.or_none] at hbound
    obtain ⟨hint, hget⟩ := Option.ne_none_iff_exists'.1 hbound
    exact (hmem hget).2

/-- The bindings of one name alone decide what it is bound to. -/
theorem get?_bindAll_congr
    (h : added.filter (·.1 == name) = added'.filter (·.1 == name)) :
    (ns.bindAll added).get? name = (ns.bindAll added').get? name := by
  rw [get?_bindAll, get?_bindAll, ← Keyed.get?_ofList_filter added, h, Keyed.get?_ofList_filter]

/-- Where no name is bound twice, the bindings can be added in any order. -/
theorem filter_eq_of_perm (hperm : added.Perm added') (hnodup : (added.map Prod.fst).Nodup)
    (name : String) : added.filter (·.1 == name) = added'.filter (·.1 == name) := by
  have hfilter := hperm.filter (·.1 == name)
  have hname : ∀ b ∈ added.filter (·.1 == name), b.1 = name := fun b hb =>
    beq_iff_eq.1 (List.mem_filter.1 hb).2
  have hnames : ((added.filter (·.1 == name)).map Prod.fst).Nodup :=
    hnodup.sublist (List.filter_sublist.map _)
  generalize added.filter (·.1 == name) = own at hfilter hname hnames ⊢
  match own with
  | [] => exact (List.nil_perm.1 hfilter).symm
  | [b] => exact hfilter.symm.eq_singleton.symm
  | b :: b' :: rest =>
    have hb : b.1 = b'.1 :=
      (hname b List.mem_cons_self).trans (hname b' (List.mem_cons_of_mem _ List.mem_cons_self)).symm
    exact absurd (hb ▸ List.mem_cons_self) (List.nodup_cons.1 hnames).1

/-- What is resolved in a namespace is resolved in the same way where more names are bound, if none
of them goes by the name of a built-in type.  Bindings may be added in any order, those of one name
among themselves apart. -/
theorem conservative (ns : Namespace) :
    (∀ ns', ns.Extends ns' →
      (∀ hint e, ns.eval hint = .ok e → ns'.eval hint = .ok e) ∧
      (∀ h c hints, resolveHints h ns c = .ok hints → resolveHints h ns' c = .ok hints) ∧
      ∀ h c fields, describeFields h ns c = .ok fields → describeFields h ns' c = .ok fields) ∧
    ∀ added added' : List (String × Hint),
      (∀ name, added.filter (·.1 == name) = added'.filter (·.1 == name)) →
      (ns.bindAll added).Agrees (ns.bindAll added') := by
  refine ⟨fun ns' hext => ⟨?_, ?_, ?_⟩, fun added added' hfilter => ?_⟩
  · exact fun hint e he => (hext.keeps_eval hint).ok he
  · exact fun h c hints hhints => (keeps_resolveHints hext h c).ok hhints
  · exact fun h c fields hfields => (keeps_describeFields hext h c).ok hfields
  · exact agrees_of_get? fun name => get?_bindAll_congr (hfilter name)

end Namespace

namespace Sample

/-- Two further names for the town, one of which is bound in terms of the other. -/
def kittens : List (String × Hint) := [("Kitten", .text "Cat"), ("my.Kittens", .text "List[Kitten]")]

/-- The kittens change no fields in the town, and are bound in either order. -/
theorem conservative_kittens :
    (∃ fields, describeFields townEnv.hierarchy townNames owner = .ok fields ∧
      describeFields townEnv.hierarchy (townNames.bindAll kittens) owner = .ok fields) ∧
    (townNames.bindAll kittens).eval (.text "my.Kittens") = .ok (.listOf (.cls cat)) ∧
    (townNames.bindAll kittens.reverse).eval (.text "my.Kittens") = .ok (.listOf (.cls cat)) := by
  have hext : townNames.Extends (townNames.bindAll kittens) := by
    refine Namespace.extends_bindAll fun b hb => ?_
    rcases List.mem_pair.1 hb with rfl | rfl <;> exact ⟨rfl, by decide⟩
  have hfields : (describeFields townEnv.hierarchy townNames owner).toOption.any (fun _ => true) =
      true := by decide +kernel
  have heval : (townNames.bindAll kittens).eval (.text "my.Kittens") = .ok (.listOf (.cls cat)) := by
    cbv
  obtain ⟨fields, hfields, -⟩ := exists_ok_of_any hfields
  obtain ⟨hkept, horder⟩ := townNames.conservative
  have hagrees := horder kittens kittens.reverse
    (Namespace.filter_eq_of_perm (List.reverse_perm _).symm (by decide))
  exact ⟨⟨fields, hfields, (hkept _ hext).2.2 _ _ _ hfields⟩, heval, hagrees.eval _ ▸ heval⟩

end Sample

end HintSchema
