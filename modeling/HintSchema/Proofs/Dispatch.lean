import HintSchema.Proofs.Coverage
import HintSchema.Schema.Output

/-!
# Which type stands for an interface or a union

`Schema.StandsIn` says which object types can stand for an interface or a union at a value.  In a
built schema `Schema.possibleType` picks one of them, fails if there is none, and at a value of an
object class below an interface picks the type of that very class (`possibleType_spec`).
-/

namespace HintSchema

namespace Schema

variable {s : Schema} {g : Graph} {roots : List NodeRef} {m n : NodeRef} {c : ClassRef}
  {h : Hierarchy} {value : Value} {abstract : String}

/-- An object type of a schema that declares an interface or is a member of a union, and of whose
class a value is an instance. -/
def StandsIn (s : Schema) (h : Hierarchy) (n : NodeRef) (value : Value) (m : NodeRef) : Prop :=
  m ∈ s.types ∧ (n ∈ (s.body m).interfaces ∨ m ∈ (s.body n).members) ∧
    ∃ c fields interfaces, s.body m = .object c fields interfaces ∧
      h.isSubclass value.classRef c = true

theorem mem_objectClasses_iff {ns : List NodeRef} :
    (m, c) ∈ s.objectClasses ns ↔
      m ∈ ns ∧ ∃ fields interfaces, s.body m = .object c fields interfaces := by
  rw [objectClasses, List.mem_filterMap]
  constructor
  · rintro ⟨n, hn, hc⟩
    split at hc
    · rename_i c' fields interfaces hbody
      cases hc
      exact ⟨hn, fields, interfaces, hbody⟩
    · cases hc
  · rintro ⟨hm, fields, interfaces, hbody⟩
    exact ⟨m, hm, by rw [hbody]⟩

theorem mem_possibleTypes_iff :
    m ∈ s.possibleTypes abstract ↔
      (m ∈ s.types ∧ ∃ i ∈ (s.body m).interfaces, i.name = abstract) ∨
      ∃ u ∈ s.types, u.name = abstract ∧ m ∈ (s.body u).members := by
  rw [possibleTypes, List.mem_flatMap]
  constructor
  · rintro ⟨u, hu, hm⟩
    cases hbody : s.body u with
    | object c fields interfaces =>
      rw [hbody] at hm
      obtain ⟨i, hi, rfl⟩ := List.mem_map.1 hm
      obtain ⟨hi, hname⟩ := List.mem_filter.1 hi
      exact .inl ⟨hu, i, by rw [hbody]; exact hi, beq_iff_eq.1 hname⟩
    | union declared members =>
      rw [hbody] at hm
      dsimp only at hm
      split_ifs at hm with hname
      · exact .inr ⟨u, hu, hname, by rw [hbody]; exact hm⟩
      · cases hm
    | interface | input | enum | scalar =>
      rw [hbody] at hm
      cases hm
  · rintro (⟨hm, i, hi, hname⟩ | ⟨u, hu, hname, hm⟩)
    · refine ⟨m, hm, ?_⟩
      cases hbody : s.body m with
      | object c fields interfaces =>
        rw [hbody] at hi
        exact List.mem_map.2 ⟨i, List.mem_filter.2 ⟨hi, beq_iff_eq.2 hname⟩, rfl⟩
      | interface | input | enum | scalar | union =>
        rw [hbody] at hi
        cases hi
    · refine ⟨u, hu, ?_⟩
      cases hbody : s.body u with
      | union declared members =>
        rw [hbody] at hm
        dsimp only
        rw [if_pos hname]
        exact hm
      | object | interface | input | enum | scalar =>
        rw [hbody] at hm
        cases hm

/-- The interfaces and members of listed types are listed. -/
theorem Closes.mem_types_of_part (hcloses : Closes g roots s) (hn : n ∈ s.types)
    (hm : m ∈ (s.body n).interfaces ∨ m ∈ (s.body n).members) : m ∈ s.types := by
  obtain ⟨node, hnode, -, hbody⟩ := hcloses.body_eq hn
  apply hcloses.references hn hnode m
  rw [hbody] at hm
  unfold NodeBody.references
  simp only [List.mem_append]
  exact hm.elim (fun h => .inl (.inl (.inr h))) .inr

/-- In a closed schema a name stands for one type. -/
theorem Closes.mem_possibleTypes_iff (hcloses : Closes g roots s) (hn : n ∈ s.types) :
    m ∈ s.possibleTypes n.name ↔
      m ∈ s.types ∧ (n ∈ (s.body m).interfaces ∨ m ∈ (s.body n).members) := by
  rw [Schema.mem_possibleTypes_iff]
  constructor
  · rintro (⟨hm, i, hi, hname⟩ | ⟨u, hu, hname, hm⟩)
    · obtain rfl := hcloses.names.eq_of_name (hcloses.mem_types_of_part hm (.inl hi)) hn hname
      exact ⟨hm, .inl hi⟩
    · obtain rfl := hcloses.names.eq_of_name hu hn hname
      exact ⟨hcloses.mem_types_of_part hu (.inr hm), .inr hm⟩
  · rintro ⟨hm, hi | hmember⟩
    · exact .inl ⟨hm, n, hi, rfl⟩
    · exact .inr ⟨n, hn, rfl, hmember⟩

theorem isSubclass_of_same {a b : ClassRef} (hab : a.same b = true) : h.isSubclass b a = true := by
  have hid : a.id = b.id := by simpa [ClassRef.same] using hab
  rw [Hierarchy.isSubclass, hid]
  exact h.isSubclass_self b

/-- What is picked is a candidate whose class has the value as an instance. -/
theorem mem_of_possibleType (hm : s.possibleType h abstract value = .ok m) :
    m ∈ s.possibleTypes abstract ∧ ∃ c fields interfaces,
      s.body m = .object c fields interfaces ∧ h.isSubclass value.classRef c = true := by
  unfold possibleType at hm
  dsimp only at hm
  split at hm
  · rename_i c hpick
    cases hm
    have hcandidate : (m, c) ∈ s.objectClasses (s.possibleTypes abstract) ∧
        h.isSubclass value.classRef c = true := by
      rcases Option.or_eq_some_iff.1 hpick with hexact | ⟨-, hinstance⟩
      · have hsame : c.same value.classRef = true := by simpa using List.find?_some hexact
        exact ⟨List.mem_of_find?_eq_some hexact, isSubclass_of_same hsame⟩
      · have hsub : h.isInstance value c = true := by simpa using List.find?_some hinstance
        exact ⟨List.mem_of_find?_eq_some hinstance, hsub⟩
    obtain ⟨hmem, fields, interfaces, hbody⟩ := mem_objectClasses_iff.1 hcandidate.1
    exact ⟨hmem, c, fields, interfaces, hbody, hcandidate.2⟩
  · cases hm

theorem Closes.standsIn_of_possibleType (hcloses : Closes g roots s) (hn : n ∈ s.types)
    (hm : s.possibleType h n.name value = .ok m) : s.StandsIn h n value m := by
  obtain ⟨hmem, hclass⟩ := mem_of_possibleType hm
  obtain ⟨hm, hpart⟩ := (hcloses.mem_possibleTypes_iff hn).1 hmem
  exact ⟨hm, hpart, hclass⟩

theorem eq_of_possibleType_error {e : Failure} (he : s.possibleType h abstract value = .error e) :
    e = .noPossibleType abstract value.classRef.name := by
  unfold possibleType at he
  dsimp only at he
  split at he <;> cases he
  rfl

/-- Picking fails exactly when nothing can stand in. -/
theorem Closes.possibleType_error_iff (hcloses : Closes g roots s) (hn : n ∈ s.types) :
    (∃ e, s.possibleType h n.name value = .error e) ↔ ¬ ∃ m, s.StandsIn h n value m := by
  constructor
  · rintro ⟨e, herror⟩ ⟨m, hm, hpart, c, fields, interfaces, hbody, hinstance⟩
    have hcandidate : (m, c) ∈ s.objectClasses (s.possibleTypes n.name) :=
      mem_objectClasses_iff.2
        ⟨(hcloses.mem_possibleTypes_iff hn).2 ⟨hm, hpart⟩, fields, interfaces, hbody⟩
    unfold possibleType at herror
    dsimp only at herror
    split at herror
    · cases herror
    · rename_i hnone
      have hfind := (Option.or_eq_none_iff.1 hnone).2
      exact absurd hinstance (List.find?_eq_none.1 hfind _ hcandidate)
  · intro hnone
    cases hpick : s.possibleType h n.name value with
    | ok m => exact absurd ⟨m, hcloses.standsIn_of_possibleType hn hpick⟩ hnone
    | error e => exact ⟨e, rfl⟩

/-- A candidate of the very class of the value is picked, if it is the only one. -/
theorem possibleType_of_class {fields : Option (List (String × FieldDef))}
    {interfaces : Option (List NodeRef)} (hm : m ∈ s.possibleTypes abstract)
    (hbody : s.body m = .object value.classRef fields interfaces)
    (honly : ∀ m' ∈ s.possibleTypes abstract, ∀ c fields interfaces,
      s.body m' = .object c fields interfaces → c.same value.classRef = true → m' = m) :
    s.possibleType h abstract value = .ok m := by
  have hcandidate : (m, value.classRef) ∈ s.objectClasses (s.possibleTypes abstract) :=
    mem_objectClasses_iff.2 ⟨hm, fields, interfaces, hbody⟩
  have hself : value.classRef.same value.classRef = true := by simp [ClassRef.same]
  cases hexact : (s.objectClasses (s.possibleTypes abstract)).find?
      fun p => p.2.same value.classRef with
  | none => exact absurd hself (List.find?_eq_none.1 hexact _ hcandidate)
  | some p =>
    obtain ⟨m', c⟩ := p
    have hsame : c.same value.classRef = true := by simpa using List.find?_some hexact
    obtain ⟨hm', fields', interfaces', hbody'⟩ :=
      mem_objectClasses_iff.1 (List.mem_of_find?_eq_some hexact)
    rw [possibleType, hexact, honly m' hm' c fields' interfaces' hbody' hsame]
    rfl

end Schema

namespace BuildEnv

variable {env : BuildEnv} {aliases : AliasTable} {g : Graph} {m n : NodeRef} {c d query : ClassRef}
  {mutation : Option ClassRef} {s : Schema}

section Built

variable {P : ResolvedHint → Prop} (hd : env.Domain aliases P) (hw : env.WellFormed aliases)
  (hb : env.Built P query mutation s g)
include hd hw hb

/-- The type of a class is one. -/
theorem Domain.eq_of_isType (hm : m ∈ s.types) (hn : n ∈ s.types) (hmc : g.IsType m c)
    (hnd : g.IsType n d) (hid : c.id = d.id) : m = n := by
  obtain ⟨node, hnode, hc⟩ := hmc
  obtain ⟨node', hnode', hc'⟩ := hnd
  obtain ⟨_, hm, hrefm, -⟩ := hb.closes.body_eq hm
  obtain ⟨_, hn, hrefn, -⟩ := hb.closes.body_eq hn
  exact Graph.Refers.eq_of_id ⟨_, hm, hrefm⟩ ⟨_, hn, hrefn⟩
    (hd.index_of_class hw hb.valid hnode hc hnode' hc' hid)

/-- All classes below an interface with a listed type have listed types. -/
theorem Domain.mem_types_of_subclass (hn : n ∈ s.types) (hnc : g.IsType n c)
    (hc : env.hierarchy.Has c) (hinterface : env.hierarchy.isInterface c = true)
    (hhas : env.hierarchy.Has d) (hsub : env.hierarchy.isSubclass d c = true) :
    env.hierarchy.isInterface d = true ∧ ∃ m ∈ s.types, g.IsType m d := by
  refine hw.hierarchy.isSubclass_induction (motive := fun d =>
    env.hierarchy.isInterface d = true ∧ ∃ m ∈ s.types, g.IsType m d) hc
    ⟨hinterface, n, hn, hnc⟩ ?_ hhas hsub
  rintro b d - ⟨hb', m, hm, hmb⟩ hdb
  have hd' := hw.hierarchy.isInterface_of_mem_subclasses hdb hb'
  obtain ⟨m', hm', hleads⟩ := hd.leads_of_subclass hb hmb hb' hdb
  exact ⟨hd', m', hb.closes.sub m' (List.mem_append_right _ hm'), hd.isType_of_leads_class hb.valid
    (Hierarchy.has_of_mem_subclasses hdb) (Hierarchy.isSome_kind? hd') hleads⟩

/-- The type of an object class declares the interfaces above it. -/
theorem Domain.mem_interfaces_of_subclass (hm : m ∈ s.types) (hmd : g.IsType m d)
    (hn : n ∈ s.types) (hnc : g.IsType n c) (hc : env.hierarchy.Has c)
    (hobject : env.hierarchy.isObject d = true) (hinterface : env.hierarchy.isInterface c = true)
    (hnot : env.hierarchy.isObject c = false) (hsub : env.hierarchy.isSubclass d c = true) :
    ∃ fields interfaces, s.body m = .object d fields interfaces ∧ n ∈ (s.body m).interfaces := by
  obtain ⟨node, hnode, hclass⟩ := hmd
  obtain ⟨node', hnode', -, hbody⟩ := hb.closes.body_eq hm
  obtain rfl := Option.some.inj (hnode.symm.trans hnode')
  have hhas := hd.has_of_class hw hb.valid hnode hclass
  have hkind := kind?_of_isType hb.valid hnode hclass
  rw [kind?_eq_object_iff.2 hobject] at hkind
  have hr := Graph.isRealized_of_pending hb.pending hnode
  have hparts := hb.valid.parts hnode
  rw [hbody]
  obtain ⟨name, description, body⟩ := node
  cases body with
  | object d' fields interfaces =>
    cases hclass
    refine ⟨fields, interfaces, rfl, ?_⟩
    obtain ⟨-, is, rfl⟩ : fields.isSome = true ∧ ∃ is, interfaces = some is := by
      simpa [Node.isRealized, NodeBody.isRealized, Option.isSome_iff_exists] using hr
    have ha := (hw.mem_interfaceAncestors_iff hhas hobject).2 ⟨hc, hsub, hinterface, hnot⟩
    obtain ⟨n', hn', hleads⟩ := exists_right_of_forall₂
      (hd.forall₂_leads_of_interfaces hb.valid hw hhas (hparts.2 is rfl)) (List.mem_map_of_mem ha)
    have hlisted : n' ∈ s.types := hb.closes.mem_types_of_part hm (.inl (hbody ▸ hn'))
    have hn'c := hd.isType_of_leads_class hb.valid hc (Hierarchy.isSome_kind? hinterface) hleads
    exact hd.eq_of_isType hw hb hlisted hn hn'c hnc rfl ▸ hn'
  | interface | input | enum | scalar | union => cases hkind

/-- At a value of an object class below an interface the type of the class is picked. -/
theorem Domain.possibleType_of_subclass (hn : n ∈ s.types) (hkind : n.kind = .interface)
    (hnc : g.IsType n c) (h : Hierarchy) {value : Value} (hhas : env.hierarchy.Has value.classRef)
    (hobject : env.hierarchy.isObject value.classRef = true)
    (hsub : env.hierarchy.isSubclass value.classRef c = true) :
    ∃ m ∈ s.types, m.kind = .object ∧ m.name = value.classRef.name ∧
      (s.body m).class? = some value.classRef ∧ s.possibleType h n.name value = .ok m := by
  obtain ⟨node, hnode, hclass⟩ := id hnc
  have hc := hd.has_of_class hw hb.valid hnode hclass
  obtain ⟨hinterface, hnot⟩ : env.hierarchy.isInterface c = true ∧
      env.hierarchy.isObject c = false := by
    obtain ⟨node', hnode', href, -⟩ := hb.closes.body_eq hn
    obtain rfl := Option.some.inj (hnode.symm.trans hnode')
    rw [← kind?_eq_interface_iff, kind?_of_isType hb.valid hnode hclass, ← hkind, ← href]
    rfl
  obtain ⟨-, m, hm, hmd⟩ := hd.mem_types_of_subclass hw hb hn hnc hc hinterface hhas hsub
  obtain ⟨fields, interfaces, hbody, hdeclares⟩ :=
    hd.mem_interfaces_of_subclass hw hb hm hmd hn hnc hc hobject hinterface hnot hsub
  refine ⟨m, hm, ?_, ?_, by rw [hbody]; rfl, Schema.possibleType_of_class
    ((hb.closes.mem_possibleTypes_iff hn).2 ⟨hm, .inl hdeclares⟩) hbody ?_⟩
  · rw [hb.closes.kind_eq hm, hbody]
    rfl
  · obtain ⟨node', hnode', hclass'⟩ := hmd
    obtain ⟨node'', hnode'', href, -⟩ := hb.closes.body_eq hm
    obtain rfl := Option.some.inj (hnode'.symm.trans hnode'')
    rw [← name_of_isType hb.valid hnode' hclass', ← href]
    rfl
  · intro m' hm' c' fields' interfaces' hbody' hsame
    obtain ⟨hm', -⟩ := (hb.closes.mem_possibleTypes_iff hn).1 hm'
    obtain ⟨node', hnode', -, hnodeBody⟩ := hb.closes.body_eq hm'
    have hclass' : node'.body.class? = some c' := by
      rw [← hnodeBody, hbody']
      rfl
    have hid : c'.id = value.classRef.id := by simpa [ClassRef.same] using hsame
    exact hd.eq_of_isType hw hb hm' hm ⟨node', hnode', hclass'⟩ hmd hid

end Built

/-- Which type stands for an interface or a union of a built schema at a value, whatever the
hierarchy is by then.  At a value of an object class that was declared before the build and is below
an interface it is the type of that very class.  Any type that is picked can stand in, and picking
fails, naming the class of the value, exactly when no type can. -/
theorem possibleType_spec (hw : env.WellFormed aliases) {visit : List Nat → List Nat}
    (hvisit : ∀ l, (visit l).Perm l)
    (hroots : ∀ c ∈ query :: mutation.toList, env.hierarchy.Has c)
    (hbuild : ((env.buildVisiting visit query mutation).exec {}).1 = .ok s) (hn : n ∈ s.types)
    (h : Hierarchy) (value : Value) :
    (n.kind = .interface → ∀ c, (s.body n).class? = some c → env.hierarchy.Has value.classRef →
      env.hierarchy.isObject value.classRef = true →
      env.hierarchy.isSubclass value.classRef c = true →
      ∃ m ∈ s.types, m.kind = .object ∧ m.name = value.classRef.name ∧
        (s.body m).class? = some value.classRef ∧ s.possibleType h n.name value = .ok m) ∧
    (∀ m, s.possibleType h n.name value = .ok m → s.StandsIn h n value m) ∧
    ((∃ e, s.possibleType h n.name value = .error e) ↔ ¬ ∃ m, s.StandsIn h n value m) ∧
    (∀ e, s.possibleType h n.name value = .error e →
      e = .noPossibleType n.name value.classRef.name) := by
  have hb := hw.domain_typed.build_spec hw hvisit
    (fun c hc => ⟨.cls c, hroots c hc, .cls rfl⟩)
    (Prod.ext hbuild rfl : (env.buildVisiting visit query mutation).exec {} = (.ok s, _))
  refine ⟨fun hinterface c hc hhas hobject hsub => ?_,
    fun m hm => hb.closes.standsIn_of_possibleType hn hm, hb.closes.possibleType_error_iff hn,
    fun e he => Schema.eq_of_possibleType_error he⟩
  obtain ⟨node, hnode, -, hbody⟩ := hb.closes.body_eq hn
  exact hw.domain_typed.possibleType_of_subclass hw hb hn hinterface ⟨node, hnode, hbody ▸ hc⟩ h
    hhas hobject hsub

end BuildEnv

namespace Sample

/-- A cube among shapes is a cube, not just a square. -/
theorem possibleType_spec_cube :
    ∃ s, ((Sample.env.buildVisiting id drawing none).exec {}).1 = .ok s ∧
      ∃ n ∈ s.types, n.kind = .interface ∧ ∃ m, m.name = "Cube" ∧
        s.possibleType Sample.hierarchy n.name (.object 0 cube []) = .ok m := by
  obtain ⟨s, hs, hshape⟩ : ∃ s, ((Sample.env.buildVisiting id drawing none).exec {}).1 = .ok s ∧
      (s.types.any fun n => n.kind = .interface ∧ (s.body n).class? = some shape) = true :=
    exists_ok_of_any (by decide +kernel)
  obtain ⟨n, hn, hn'⟩ := List.any_eq_true.1 hshape
  obtain ⟨hkind, hclass⟩ := of_decide_eq_true hn'
  obtain ⟨m, -, -, hname, -, hm⟩ := (BuildEnv.possibleType_spec wellFormed (fun l => .refl l)
    (Hierarchy.has_of_root ⟨_, rfl, rfl⟩) hs hn Sample.hierarchy (.object 0 cube [])).1 hkind shape hclass
    ⟨_, rfl, rfl⟩ (by decide +kernel) (by decide +kernel)
  exact ⟨s, hs, n, hn, hkind, m, hname, hm⟩

end Sample

end HintSchema
