import HintSchema.Proofs.Lockstep

/-!
# Declarations that differ in hints

Where the declarations of two hierarchies differ in their hints only (`Hierarchy.Alike`), their
classes stand in the same relations and inherit the same names in the same order.  If the hints
resolve alike, so do the fields (`yields_describeFields`), and environments over such hierarchies match
(`BuildEnv.matches_of_alike`).
-/

namespace HintSchema

variable {R : Hint → Hint → Prop}

/-! ## Declarations -/

/-- Parameters that differ in their hints, which are in a relation. -/
structure Param.Alike (R : Hint → Hint → Prop) (p p' : Param) : Prop where
  name : p.name = p'.name
  hint : R p.hint p'.hint
  default : p.default = p'.default

/-- Properties that differ in the hints of their results. -/
structure Property.Alike (R : Hint → Hint → Prop) (p p' : Property) : Prop where
  name : p.name = p'.name
  doc : p.doc = p'.doc
  returns : R p.returns p'.returns
  body : p.body = p'.body

/-- Methods that differ in the hints of their parameters and results. -/
structure Method.Alike (R : Hint → Hint → Prop) (m m' : Method) : Prop where
  name : m.name = m'.name
  doc : m.doc = m'.doc
  params : List.Forall₂ (Param.Alike R) m.params m'.params
  returns : R m.returns m'.returns
  body : m.body = m'.body

/-- Members that differ in their hints. -/
inductive Member.Alike (R : Hint → Hint → Prop) : Member → Member → Prop
  | property {p p' : Property} : p.Alike R p' → Alike R (.property p) (.property p')
  | method {m m' : Method} : m.Alike R m' → Alike R (.method m) (.method m')
  | value (v : Value) : Alike R (.value v) (.value v)

/-- Declarations of classes that differ in the hints in them. -/
structure ClassDef.Alike (R : Hint → Hint → Prop) (d d' : ClassDef) : Prop where
  name : d.name = d'.name
  doc : d.doc = d'.doc
  bases : d.bases = d'.bases
  primitive : d.primitive = d'.primitive
  capabilities : d.capabilities = d'.capabilities
  members : Keyed.Alike (Member.Alike R) d.members d'.members
  hints : Keyed.Alike R d.hints d'.hints
  declared : d.declared = d'.declared
  variants : d.variants = d'.variants

theorem ClassDef.Alike.recordFields_eq {d d' : ClassDef} (h : d.Alike R d') :
    d.recordFields = d'.recordFields := by
  unfold recordFields
  rw [h.capabilities, h.declared]

/-- Hierarchies of the same classes, declared alike. -/
def Hierarchy.Alike (R : Hint → Hint → Prop) (h h' : Hierarchy) : Prop :=
  List.Forall₂ (ClassDef.Alike R) h.defs h'.defs

section Refl

theorem Method.Alike.refl (hR : ∀ hint, R hint hint) (m : Method) : m.Alike R m :=
  ⟨rfl, rfl, List.forall₂_same.2 fun p _ => ⟨rfl, hR p.hint, rfl⟩, hR m.returns, rfl⟩

theorem Member.Alike.refl (hR : ∀ hint, R hint hint) (member : Member) : member.Alike R member := by
  cases member with
  | property p => exact .property ⟨rfl, rfl, hR p.returns, rfl⟩
  | method m => exact .method (.refl hR m)
  | value v => exact .value v

theorem ClassDef.Alike.refl (hR : ∀ hint, R hint hint) (d : ClassDef) : d.Alike R d where
  name := rfl
  doc := rfl
  bases := rfl
  primitive := rfl
  capabilities := rfl
  members := List.forall₂_same.2 fun p _ => ⟨rfl, .refl hR p.2⟩
  hints := List.forall₂_same.2 fun p _ => ⟨rfl, hR p.2⟩
  declared := rfl
  variants := rfl

end Refl

section Symm

variable (hR : ∀ {hint hint'}, R hint hint' → R hint' hint)
include hR

theorem Method.Alike.symm {m m' : Method} (h : m.Alike R m') : m'.Alike R m where
  name := h.name.symm
  doc := h.doc.symm
  params := (h.params.imp fun _ _ hp => ⟨hp.name.symm, hR hp.hint, hp.default.symm⟩).flip
  returns := hR h.returns
  body := h.body.symm

theorem Member.Alike.symm {member member' : Member} (h : member.Alike R member') :
    member'.Alike R member := by
  cases h with
  | property h => exact .property ⟨h.name.symm, h.doc.symm, hR h.returns, h.body.symm⟩
  | method h => exact .method (h.symm hR)
  | value v => exact .value v

theorem ClassDef.Alike.symm {d d' : ClassDef} (h : d.Alike R d') : d'.Alike R d where
  name := h.name.symm
  doc := h.doc.symm
  bases := h.bases.symm
  primitive := h.primitive.symm
  capabilities := h.capabilities.symm
  members := (h.members.imp fun _ _ hp => ⟨hp.1.symm, hp.2.symm hR⟩).flip
  hints := (h.hints.imp fun _ _ hp => ⟨hp.1.symm, hR hp.2⟩).flip
  declared := h.declared.symm
  variants := h.variants.symm

theorem Hierarchy.Alike.symm {h h' : Hierarchy} (halike : h.Alike R h') : h'.Alike R h :=
  (halike.imp fun _ _ hd => hd.symm hR).flip

end Symm

/-! ## What classes inherit -/

namespace Hierarchy

theorem alike_addNew {α β : Type} {S : α → β → Prop} {entries pairs : List (String × α)}
    {others otherPairs : List (String × β)} (h : Keyed.Alike S entries others)
    (hpairs : Keyed.Alike S pairs otherPairs) :
    Keyed.Alike S (addNew entries pairs) (addNew others otherPairs) := by
  refine List.rel_foldl (fun acc acc' hacc p q hpq => ?_) h hpairs
  rw [hacc.contains_eq, hpq.1]
  split_ifs
  · exact hacc
  · exact List.rel_append hacc (.cons hpq .nil)

section Walks

variable {defs defs' : List ClassDef} (h : List.Forall₂ (ClassDef.Alike R) defs defs')
include h

theorem rel_defOf? (id : Nat) : Option.Rel (ClassDef.Alike R) (defOf? defs id) (defOf? defs' id) := by
  induction h with
  | nil => exact .none
  | cons hd hrest ih =>
    rw [defOf?_cons, defOf?_cons, hrest.length_eq]
    split_ifs
    · exact .some hd
    · exact ih

theorem anyAncestorIn_eq {p : ClassDef → Bool} (hp : ∀ {d d'}, d.Alike R d' → p d = p d') (id : Nat) :
    anyAncestorIn p defs id = anyAncestorIn p defs' id := by
  induction h generalizing id with
  | nil => rfl
  | cons hd hrest ih => rw [anyAncestorIn, anyAncestorIn, hrest.length_eq, hp hd, hd.bases, ih,
      funext fun b : ClassRef => ih b.id]

theorem subclassesIn_eq (c : ClassRef) : subclassesIn c defs = subclassesIn c defs' := by
  induction h with
  | nil => rfl
  | cons hd hrest ih =>
    rw [subclassesIn, subclassesIn, ih, hrest.length_eq, hd.bases, hd.name]

end Walks

section Views

variable {h h' : Hierarchy} (halike : h.Alike R h') (c : ClassRef)
include halike

theorem Alike.isObject_eq : h.isObject c = h'.isObject c :=
  anyAncestorIn_eq halike (fun hd => congrArg Capabilities.object hd.capabilities) c.id

theorem Alike.isInterface_eq : h.isInterface c = h'.isInterface c :=
  anyAncestorIn_eq halike (fun hd => congrArg Capabilities.interface hd.capabilities) c.id

theorem Alike.isRecord_eq : h.isRecord c = h'.isRecord c :=
  anyAncestorIn_eq halike (fun hd => congrArg Capabilities.record hd.capabilities) c.id

theorem Alike.isEnum_eq : h.isEnum c = h'.isEnum c :=
  anyAncestorIn_eq halike (fun hd => congrArg Capabilities.enumeration hd.capabilities) c.id

theorem Alike.mro_eq : h.mro c = h'.mro c := by
  rw [mro, mro, walkIn_congr (halike.imp fun _ _ hd => hd.bases)]

/-- Classes are looked up in the same order, and their declarations are alike. -/
theorem Alike.lineage : List.Forall₂ (fun p q => p.1 = q.1 ∧ p.2.Alike R q.2) (h.lineage c)
    (h'.lineage c) := by
  unfold Hierarchy.lineage
  rw [halike.mro_eq c]
  refine List.rel_filterMap (R := Eq) (fun a a' ha => ?_) (List.forall₂_refl _)
  subst ha
  have hfind : Option.Rel (ClassDef.Alike R) (h.find? a) (h'.find? a) := rel_defOf? halike a.id
  generalize h.find? a = o at hfind ⊢
  generalize h'.find? a = o' at hfind ⊢
  cases hfind with
  | none => exact .none
  | some hd => exact .some ⟨rfl, hd⟩

theorem Alike.fields_eq : h.fields c = h'.fields c := by
  refine List.rel_foldl (P := Eq) (fun names names' hnames p q hpq => ?_) rfl
    (List.rel_reverse (halike.lineage c))
  obtain ⟨a, d⟩ := p
  obtain ⟨a', d'⟩ := q
  have hd : d.recordFields = d'.recordFields := hpq.2.recordFields_eq
  dsimp only
  rw [hnames, hd]

theorem Alike.dir : Keyed.Alike (Member.Alike R) (h.dir c) (h'.dir c) :=
  Keyed.Alike.sorted <| List.rel_foldl (fun _ _ hacc _ _ hpq => alike_addNew hacc hpq.2.members) .nil
    (halike.lineage c)

theorem Alike.allHints : Keyed.Alike (fun p q => p.1 = q.1 ∧ R p.2 q.2) (h.allHints c)
    (h'.allHints c) := by
  refine List.rel_foldl (fun acc acc' hacc p q hpq => hacc.putAll ?_) .nil
    (List.rel_reverse (halike.lineage c))
  exact List.rel_map (fun _ _ hr => ⟨hr.1, hpq.1, hr.2⟩) hpq.2.hints

end Views

end Hierarchy

/-! ## Fields -/

section Fields

variable {ns : Namespace} (hR : ∀ {hint hint'}, R hint hint' → Hint.Interchangeable ns hint hint')
include hR

theorem yields_resolveHints {h h' : Hierarchy} (halike : h.Alike R h') (c : ClassRef) :
    Yields (Keyed.Alike ResolvedHint.Matches) (resolveHints h ns c) (resolveHints h' ns c) := by
  refine yields_mapM (halike.allHints c) fun {p q} hpq => ?_
  obtain ⟨name, declaring, hint⟩ := p
  obtain ⟨name', declaring', hint'⟩ := q
  obtain ⟨rfl, rfl, hhint⟩ : name = name' ∧ declaring = declaring' ∧ R hint hint' := hpq
  exact ((hR hhint).yields_ofHint _).bind fun hann => yields_ok ⟨rfl, hann⟩

theorem yields_resolveProperty {p p' : Property} (c : ClassRef) (h : p.Alike R p') :
    Yields ResolvedHint.Matches (resolveProperty ns c p) (resolveProperty ns c p') := by
  unfold resolveProperty
  rw [h.name]
  exact (hR h.returns).yields_ofHint _

theorem yields_resolveParam {m m' : Method} {p p' : Param} (c : ClassRef) (hm : m.name = m'.name)
    (h : p.Alike R p') :
    Yields ResolvedParam.Matches (resolveParam ns c m p) (resolveParam ns c m' p') := by
  intro r hr
  obtain ⟨e, ann, he, hann, rfl⟩ := resolveParam_eq_ok_iff.1 hr
  obtain ⟨e', he', hplain, hoptional⟩ := hR h.hint (some ⟨memberSite c m'.name, p'.name⟩) e he
  have hwidened : Yields ResolvedHint.Matches
      (ResolvedHint.ofExpr (some p.hint) (some ⟨memberSite c m'.name, p'.name⟩) (p.widened e))
      (ResolvedHint.ofExpr (some p'.hint) (some ⟨memberSite c m'.name, p'.name⟩) (p'.widened e')) := by
    unfold Param.widened
    rw [h.default]
    -- whichever of the two the default asks for
    split
    · exact hoptional
    · exact hplain
  rw [hm, h.name] at hann
  obtain ⟨ann', hann', hmatch⟩ := hwidened ann hann
  exact ⟨_, resolveParam_eq_ok_iff.2 ⟨e', ann', he', hann', rfl⟩, h.name, hmatch, h.default⟩

theorem yields_resolveMethod {m m' : Method} (c : ClassRef) (h : m.Alike R m') :
    Yields (fun r r' => List.Forall₂ ResolvedParam.Matches r.1 r'.1 ∧ r.2.Matches r'.2)
      (resolveMethod ns c m) (resolveMethod ns c m') := by
  refine (yields_mapM h.params fun hp => yields_resolveParam hR c h.name hp).bind fun hargs => ?_
  rw [h.name]
  exact ((hR h.returns).yields_ofHint _).bind fun hann => yields_ok ⟨hargs, hann⟩

theorem yields_memberField {member member' : Member} (c : ClassRef) (hinted : String → Bool)
    (name : String) (h : member.Alike R member') :
    Yields (Option.Rel FieldDescriptor.Matches) (memberField ns c hinted name member)
      (memberField ns c hinted name member') := by
  cases h with
  | property h =>
    exact (yields_resolveProperty hR c h).bind fun hann =>
      yields_ok (.some ⟨rfl, hann, .nil, h.doc, rfl⟩)
  | method h =>
    exact (yields_resolveMethod hR c h).bind fun hr =>
      yields_ok (.some ⟨rfl, hr.2, hr.1, h.doc, rfl⟩)
  | value v =>
    unfold memberField
    split_ifs
    · exact yields_ok .none
    · exact yields_ok (.some ⟨rfl, .refl _, .nil, rfl, rfl⟩)

theorem yields_memberFields {members members' : List (String × Member)} (c : ClassRef)
    {hinted hinted' : String → Bool} (hhinted : ∀ name, hinted name = hinted' name)
    (h : Keyed.Alike (Member.Alike R) members members') :
    Yields (List.Forall₂ FieldDescriptor.Matches)
      (members.filterMapM fun p => memberField ns c hinted p.1 p.2)
      (members'.filterMapM fun p => memberField ns c hinted' p.1 p.2) := by
  refine yields_filterMapM h fun {p q} hpq => ?_
  rw [hpq.1, funext hhinted]
  exact yields_memberField hR c hinted' q.1 hpq.2

/-- The fields of classes that are declared alike match, if the hints in the declarations resolve
alike. -/
theorem yields_describeFields {h h' : Hierarchy} (halike : h.Alike R h') (c : ClassRef) :
    Yields (List.Forall₂ FieldDescriptor.Matches) (describeFields h ns c) (describeFields h' ns c) := by
  refine (yields_resolveHints hR halike c).bind fun {hints hints'} hhints => ?_
  have hvisible := (halike.dir c).filter fun name => !isPrivate name
  refine (yields_memberFields hR c hhints.contains_eq hvisible).bind fun {fields fields'} hfields => ?_
  have hbyName : Keyed.Alike FieldDescriptor.Matches (fields.map fun f => (f.name, f))
      (fields'.map fun f => (f.name, f)) := List.rel_map (fun _ _ hf => ⟨hf.name, hf⟩) hfields
  have hshown : Keyed.Alike FieldDescriptor.Matches
      ((hints.filter fun p => !isPrivate p.1).map fun p => (p.1, hintField p.1 p.2))
      ((hints'.filter fun p => !isPrivate p.1).map fun p => (p.1, hintField p.1 p.2)) :=
    List.rel_map (fun _ _ hp => ⟨hp.1, hp.1, hp.2, .nil, rfl, rfl⟩)
      (hhints.filter fun name => !isPrivate name)
  exact yields_ok (List.rel_map (fun _ _ hf => hf.2)
    ((Keyed.forall₂_ofList hbyName).putAll hshown))

end Fields

/-! ## Environments -/

section Environments

variable {h h' : Hierarchy} {ns : Namespace} {scalars : ScalarRegistry} (halike : h.Alike R h')
include halike

theorem classNode_eq_of_alike (c : ClassRef) :
    BuildEnv.classNode ⟨h, ns, scalars⟩ c = BuildEnv.classNode ⟨h', ns, scalars⟩ c := by
  have hfind : Option.Rel (ClassDef.Alike R) (h.find? c) (h'.find? c) :=
    Hierarchy.rel_defOf? halike c.id
  have hfound : (h.find? c).bind (·.doc) = (h'.find? c).bind (·.doc) ∧
      h.variants c = h'.variants c := by
    unfold Hierarchy.variants
    generalize h.find? c = o at hfind ⊢
    generalize h'.find? c = o' at hfind ⊢
    cases hfind with
    | none => exact ⟨rfl, rfl⟩
    | some hd => exact ⟨hd.doc, hd.variants⟩
  unfold BuildEnv.classNode
  dsimp only
  rw [hfound.1, hfound.2, halike.isObject_eq, halike.isInterface_eq, halike.isRecord_eq,
    halike.isEnum_eq]

/-- Environments over hierarchies that are declared alike match, if the hints in the declarations
resolve alike. -/
theorem BuildEnv.matches_of_alike
    (hR : ∀ {hint hint'}, R hint hint' → Hint.Interchangeable ns hint hint') :
    BuildEnv.Matches ⟨h, ns, scalars⟩ ⟨h', ns, scalars⟩ where
  scalars := rfl
  length := halike.length_eq
  classNode := classNode_eq_of_alike halike
  isObject := halike.isObject_eq
  isInterface := halike.isInterface_eq
  mro := halike.mro_eq
  fields := halike.fields_eq
  subclasses c := Hierarchy.subclassesIn_eq halike c
  described := yields_describeFields hR halike
  resolved := yields_resolveHints hR halike

end Environments

end HintSchema
