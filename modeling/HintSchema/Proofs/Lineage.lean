import Mathlib.Data.List.Forall2
import Mathlib.Data.List.Nodup
import Mathlib.Data.Nat.Basic
import HintSchema.Hierarchy

/-!
# Bases and subclasses

A hierarchy is well formed when it extends the built-in one by classes whose bases were declared
before (`Hierarchy.WellFormed`).  Each walk along bases then has an equation over the declaration of
a class (`isSubclass_eq`, `anyAncestor_eq`, `walkIn_eq`), so the walks agree with each other: the
order of lookup lists the ancestors of a class behind the class itself (`mem_mro_iff`,
`mro_eq_cons`), and ancestors are reached through direct subclasses (`isSubclass_induction`).
-/

namespace HintSchema.Hierarchy

/-- A reference to a declared class under its own name. -/
def Has (h : Hierarchy) (c : ClassRef) : Prop := ∃ d, h.find? c = some d ∧ d.name = c.name

/-- The bases of every class were declared before it. -/
inductive WellFormed : Hierarchy → Prop
  | builtin : WellFormed .builtin
  | declare {h : Hierarchy} {d : ClassDef} :
      WellFormed h → (∀ b ∈ d.bases, h.Has b) → WellFormed (h.declare d)

/-! ## Declared classes -/

theorem defOf?_cons (d : ClassDef) (older : List ClassDef) (id : Nat) :
    defOf? (d :: older) id = if id = older.length then some d else defOf? older id := rfl

theorem lt_of_defOf? {defs : List ClassDef} {id : Nat} {d : ClassDef}
    (h : defOf? defs id = some d) : id < defs.length := by
  induction defs with
  | nil => cases h
  | cons d' older ih =>
    rw [defOf?_cons] at h
    split_ifs at h with he
    · simp [he]
    · exact Nat.lt_succ_of_lt (ih h)

theorem mem_of_defOf? {defs : List ClassDef} {id : Nat} {d : ClassDef}
    (h : defOf? defs id = some d) : d ∈ defs := by
  induction defs with
  | nil => cases h
  | cons d' older ih =>
    rw [defOf?_cons] at h
    split_ifs at h with he
    · exact Option.some.inj h ▸ List.mem_cons_self
    · exact List.mem_cons_of_mem _ (ih h)

theorem lt_of_find? {h : Hierarchy} {c : ClassRef} {d : ClassDef} (hd : h.find? c = some d) :
    c.id < h.defs.length :=
  lt_of_defOf? hd

theorem Has.lt {h : Hierarchy} {c : ClassRef} (hc : h.Has c) : c.id < h.defs.length := by
  obtain ⟨d, hd, -⟩ := hc
  exact lt_of_find? hd

/-- A class is told by its id. -/
theorem Has.eq_of_id {h : Hierarchy} {c c' : ClassRef} (hc : h.Has c) (hc' : h.Has c')
    (hid : c.id = c'.id) : c = c' := by
  obtain ⟨d, hd, hn⟩ := hc
  obtain ⟨d', hd', hn'⟩ := hc'
  have he : d = d' := by
    rw [find?, hid] at hd
    exact Option.some.inj (hd.symm.trans hd')
  cases c
  cases c'
  simp_all

theorem find?_declare {h : Hierarchy} {d : ClassDef} {c : ClassRef} (hc : c.id < h.defs.length) :
    (h.declare d).find? c = h.find? c :=
  if_neg (Nat.ne_of_lt hc)

theorem Has.declare {h : Hierarchy} {c : ClassRef} (hc : h.Has c) (d : ClassDef) :
    (h.declare d).Has c := by
  obtain ⟨d', hd', hn⟩ := hc
  exact ⟨d', by rw [find?_declare (lt_of_find? hd'), hd'], hn⟩

theorem WellFormed.has_builtin {h : Hierarchy} (hw : h.WellFormed) {c : ClassRef}
    (hc : Hierarchy.builtin.Has c) : h.Has c := by
  induction hw with
  | builtin => exact hc
  | declare _ _ ih => exact ih.declare _

/-- After a declaration a class is the new one, or has the declaration that it had before. -/
theorem find?_declare_cases {h : Hierarchy} {new d : ClassDef} {c : ClassRef}
    (hd : (h.declare new).find? c = some d) :
    (c.id = h.defs.length ∧ new = d) ∨ h.find? c = some d := by
  rw [find?, declare, defOf?_cons] at hd
  split_ifs at hd with hc
  · exact .inl ⟨hc, Option.some.inj hd⟩
  · exact .inr hd

theorem bases_of_builtin {c : ClassRef} {d : ClassDef} (hd : Hierarchy.builtin.find? c = some d) :
    d.bases = [] := by
  have hnil : ∀ e ∈ Hierarchy.builtin.defs, e.bases = [] := by decide
  exact hnil d (mem_of_defOf? hd)

/-- Bases are declared, and before the class. -/
theorem WellFormed.base {h : Hierarchy} (hw : h.WellFormed) {c b : ClassRef} {d : ClassDef}
    (hd : h.find? c = some d) (hb : b ∈ d.bases) : h.Has b ∧ b.id < c.id := by
  induction hw with
  | builtin => simp [bases_of_builtin hd] at hb
  | @declare h d' hw hbases ih =>
    rcases find?_declare_cases hd with ⟨hc, rfl⟩ | hd'
    · have hhas := hbases b hb
      exact ⟨hhas.declare _, hc ▸ hhas.lt⟩
    · obtain ⟨hhas, hlt⟩ := ih hd'
      exact ⟨hhas.declare _, hlt⟩

/-! ## Walks along bases -/

theorem isSubclassIn_cons {d : ClassDef} {older : List ClassDef} {c a : Nat}
    (hc : c < older.length) : isSubclassIn (d :: older) c a = isSubclassIn older c a := by
  have hself : isSubclassIn older c a = (c == a || isSubclassIn older c a) := by
    cases older <;> simp [isSubclassIn]
  rw [isSubclassIn, if_neg (Nat.ne_of_lt hc), ← hself]

theorem anyAncestorIn_cons {p : ClassDef → Bool} {d : ClassDef} {older : List ClassDef} {c : Nat}
    (hc : c < older.length) : anyAncestorIn p (d :: older) c = anyAncestorIn p older c :=
  if_neg (Nat.ne_of_lt hc)

theorem walkIn_cons {d : ClassDef} {older : List ClassDef} {c : ClassRef}
    (hc : c.id < older.length) : walkIn (d :: older) c = walkIn older c :=
  if_neg (Nat.ne_of_lt hc)

/-- Walks go by the bases of the declarations alone. -/
theorem walkIn_congr {defs defs' : List ClassDef}
    (h : List.Forall₂ (fun d d' => d.bases = d'.bases) defs defs') (c : ClassRef) :
    walkIn defs c = walkIn defs' c := by
  induction h generalizing c with
  | nil => rfl
  | cons hd hrest ih => rw [walkIn, walkIn, hrest.length_eq, hd, ih, funext ih]

theorem any_congr_mem {l : List ClassRef} {f g : ClassRef → Bool} (hfg : ∀ b ∈ l, f b = g b) :
    l.any f = l.any g := by
  rw [Bool.eq_iff_iff, List.any_eq_true, List.any_eq_true]
  exact exists_congr fun b => and_congr_right fun hb => by rw [hfg b hb]

/-- A walk that goes from the declaration of a class to its bases in the older declarations
satisfies an equation over all declarations: those after a base take no part. -/
theorem WellFormed.walk_eq {β : Type} (walk : List ClassDef → ClassRef → β)
    (next : ClassRef → ClassDef → (ClassRef → β) → β)
    (hnext : ∀ {c d} {f g : ClassRef → β}, (∀ b ∈ d.bases, f b = g b) → next c d f = next c d g)
    (hnew : ∀ {d older c}, c.id = older.length → walk (d :: older) c = next c d (walk older))
    (hold : ∀ {d older c}, c.id < older.length → walk (d :: older) c = walk older c)
    {h : Hierarchy} (hw : h.WellFormed) {c : ClassRef} {d : ClassDef} (hd : h.find? c = some d) :
    walk h.defs c = next c d (walk h.defs) := by
  have hlt : ∀ id d, defOf? h.defs id = some d → ∀ b ∈ d.bases, b.id < id :=
    fun id _ hid b hb => (hw.base (c := ⟨id, ""⟩) hid hb).2
  obtain ⟨defs⟩ := h
  clear hw
  change defOf? defs c.id = some d at hd
  induction defs with
  | nil => cases hd
  | cons e older ih =>
    have holder : ∀ id d, defOf? older id = some d → ∀ b ∈ d.bases, b.id < id := by
      intro id d hid
      have hid' : defOf? (e :: older) id = some d := by
        rw [defOf?_cons, if_neg (Nat.ne_of_lt (lt_of_defOf? hid)), hid]
      exact hlt id d hid'
    -- the older declarations are enough for the bases
    have hbase : ∀ b ∈ d.bases, walk older b = walk (e :: older) b := by
      intro b hb
      have hc := lt_of_defOf? hd
      have := hlt c.id d hd b hb
      simp only [List.length_cons] at hc
      exact (hold (by omega)).symm
    rw [defOf?_cons] at hd
    split_ifs at hd with hc
    · obtain rfl : e = d := Option.some.inj hd
      rw [hnew hc, hnext hbase]
    · rw [hold (lt_of_defOf? hd), ih holder hd, hnext hbase]

variable {h : Hierarchy} {c d a b : ClassRef} {decl : ClassDef}

theorem WellFormed.isSubclass_eq (hw : h.WellFormed) (hd : h.find? c = some decl) (a : ClassRef) :
    h.isSubclass c a = (c.same a || decl.bases.any fun b => h.isSubclass b a) := by
  refine hw.walk_eq (fun defs c => isSubclassIn defs c.id a.id)
    (fun c d f => c.same a || d.bases.any f) ?_ ?_ isSubclassIn_cons hd
  · intro c d f g hfg
    rw [any_congr_mem hfg]
  · intro d older c hc
    simp [isSubclassIn, hc, ClassRef.same]

theorem WellFormed.anyAncestor_eq (hw : h.WellFormed) (p : ClassDef → Bool)
    (hd : h.find? c = some decl) :
    anyAncestorIn p h.defs c.id =
      (p decl || decl.bases.any fun b => anyAncestorIn p h.defs b.id) := by
  refine hw.walk_eq (fun defs c => anyAncestorIn p defs c.id)
    (fun _ d f => p d || d.bases.any f) ?_ ?_ anyAncestorIn_cons hd
  · intro c d f g hfg
    rw [any_congr_mem hfg]
  · intro d older c hc
    simp [anyAncestorIn, hc]

theorem WellFormed.walkIn_eq (hw : h.WellFormed) (hd : h.find? c = some decl) :
    walkIn h.defs c = c :: decl.bases.flatMap (walkIn h.defs) := by
  refine hw.walk_eq walkIn (fun c d f => c :: d.bases.flatMap f) ?_ ?_ walkIn_cons hd
  · intro c d f g hfg
    rw [List.flatMap_congr hfg]
  · intro d older c hc
    simp [walkIn, hc]

/-! ## Ancestors -/

/-- Induction along bases. -/
theorem WellFormed.induction (hw : h.WellFormed) {motive : ClassRef → Prop}
    (step : ∀ c decl, h.Has c → h.find? c = some decl → (∀ b ∈ decl.bases, motive b) → motive c)
    (hc : h.Has c) : motive c := by
  induction hn : c.id using Nat.strong_induction_on generalizing c with
  | _ n ih =>
    subst hn
    obtain ⟨decl, hd, -⟩ := id hc
    refine step c decl hc hd fun b hb => ?_
    obtain ⟨hhas, hlt⟩ := hw.base hd hb
    exact ih b.id hlt hhas rfl

theorem isSubclass_self (h : Hierarchy) (c : ClassRef) : h.isSubclass c c = true := by
  unfold isSubclass
  cases h.defs <;> simp [isSubclassIn]

theorem WellFormed.mem_walkIn_iff (hw : h.WellFormed) (hc : h.Has c) :
    a ∈ walkIn h.defs c ↔ h.Has a ∧ h.isSubclass c a = true := by
  refine hw.induction (motive := fun c => a ∈ walkIn h.defs c ↔ _ ∧ h.isSubclass c a = true)
    (fun c decl hc hd ih => ?_) hc
  rw [hw.walkIn_eq hd, hw.isSubclass_eq hd, List.mem_cons, List.mem_flatMap, Bool.or_eq_true,
    List.any_eq_true, ClassRef.same_iff]
  constructor
  · rintro (rfl | ⟨b, hb, hab⟩)
    · exact ⟨hc, .inl rfl⟩
    · obtain ⟨ha, hsub⟩ := (ih b hb).1 hab
      exact ⟨ha, .inr ⟨b, hb, hsub⟩⟩
  · rintro ⟨ha, hid | ⟨b, hb, hsub⟩⟩
    · exact .inl (ha.eq_of_id hc hid.symm)
    · exact .inr ⟨b, hb, (ih b hb).2 ⟨ha, hsub⟩⟩

/-- Ancestors were declared before the class, or are the class. -/
theorem WellFormed.id_le_of_isSubclass (hw : h.WellFormed) (hc : h.Has c)
    (hsub : h.isSubclass c a = true) : a.id ≤ c.id := by
  refine hw.induction (motive := fun c => h.isSubclass c a = true → a.id ≤ c.id)
    (fun c decl _ hd ih hsub => ?_) hc hsub
  rw [hw.isSubclass_eq hd, Bool.or_eq_true, List.any_eq_true, ClassRef.same_iff] at hsub
  rcases hsub with hid | ⟨b, hb, hsub⟩
  · omega
  · have hle := ih b hb hsub
    have hlt := (hw.base hd hb).2
    omega

theorem WellFormed.isSubclass_trans (hw : h.WellFormed) (hc : h.Has c) (hca : h.isSubclass c a = true)
    (hab : h.isSubclass a b = true) : h.isSubclass c b = true := by
  refine hw.induction (motive := fun c => h.isSubclass c a = true → h.isSubclass c b = true)
    (fun c decl _ hd ih hsub => ?_) hc hca
  have hsub' := hsub
  rw [hw.isSubclass_eq hd, Bool.or_eq_true, List.any_eq_true, ClassRef.same_iff] at hsub'
  rcases hsub' with hid | ⟨d, hbase, hsub'⟩
  · rw [isSubclass, hid]
    exact hab
  · rw [hw.isSubclass_eq hd, Bool.or_eq_true, List.any_eq_true]
    exact .inr ⟨d, hbase, ih d hbase hsub'⟩

theorem WellFormed.isSubclass_antisymm (hw : h.WellFormed) (hc : h.Has c) (ha : h.Has a)
    (hca : h.isSubclass c a = true) (hac : h.isSubclass a c = true) : c = a :=
  hc.eq_of_id ha (le_antisymm (hw.id_le_of_isSubclass ha hac) (hw.id_le_of_isSubclass hc hca))

theorem keepLast_cons (c : ClassRef) (l : List ClassRef) :
    keepLast (c :: l) = if l.any c.same then keepLast l else c :: keepLast l := rfl

theorem keepLast_of_not_any {l : List ClassRef} (hl : l.any c.same = false) :
    keepLast (c :: l) = c :: keepLast l := by
  rw [keepLast_cons, hl]
  rfl

theorem mem_of_mem_keepLast {l : List ClassRef} (ha : a ∈ keepLast l) : a ∈ l := by
  induction l with
  | nil => cases ha
  | cons c rest ih =>
    rw [keepLast_cons] at ha
    split_ifs at ha with hs
    · exact List.mem_cons_of_mem _ (ih ha)
    · rcases List.mem_cons.1 ha with rfl | ha
      · exact List.mem_cons_self
      · exact List.mem_cons_of_mem _ (ih ha)

/-- No class is listed twice, under whatever names. -/
theorem nodup_ids_keepLast (l : List ClassRef) : ((keepLast l).map (·.id)).Nodup := by
  induction l with
  | nil => exact List.nodup_nil
  | cons c rest ih =>
    rw [keepLast_cons]
    split_ifs with hlater
    · exact ih
    · refine List.nodup_cons.2 ⟨fun hc => hlater ?_, ih⟩
      obtain ⟨a, ha, hid⟩ := List.mem_map.1 hc
      exact List.any_eq_true.2 ⟨a, mem_of_mem_keepLast ha, ClassRef.same_iff.2 hid.symm⟩

theorem nodup_mro (h : Hierarchy) (c : ClassRef) : (h.mro c).Nodup :=
  .of_map _ (nodup_ids_keepLast _)

/-- No class is dropped altogether. -/
theorem mem_keepLast_iff {l : List ClassRef} (hl : ∀ b ∈ l, h.Has b) :
    a ∈ keepLast l ↔ a ∈ l := by
  refine ⟨mem_of_mem_keepLast, fun ha => ?_⟩
  induction l with
  | nil => simp at ha
  | cons c rest ih =>
    have hrest := ih fun b hb => hl b (List.mem_cons_of_mem _ hb)
    rw [keepLast_cons]
    rcases List.mem_cons.1 ha with rfl | ha
    · split_ifs with hs
      · obtain ⟨b, hb, hid⟩ := List.any_eq_true.1 hs
        have hba : a = b := (hl a List.mem_cons_self).eq_of_id
          (hl b (List.mem_cons_of_mem _ hb)) (ClassRef.same_iff.1 hid)
        exact hrest (hba ▸ hb)
      · exact List.mem_cons_self
    · split_ifs
      · exact hrest ha
      · exact List.mem_cons_of_mem _ (hrest ha)

theorem WellFormed.mem_mro_iff (hw : h.WellFormed) (hc : h.Has c) :
    a ∈ h.mro c ↔ h.Has a ∧ h.isSubclass c a = true := by
  have hall : ∀ b ∈ walkIn h.defs c, h.Has b := fun b hb => ((hw.mem_walkIn_iff hc).1 hb).1
  rw [mro, mem_keepLast_iff hall, hw.mem_walkIn_iff hc]

/-- The order of lookup begins with the class itself. -/
theorem WellFormed.mro_eq_cons (hw : h.WellFormed) (hc : h.Has c) : ∃ l, h.mro c = c :: l := by
  obtain ⟨decl, hd, -⟩ := id hc
  refine ⟨keepLast (decl.bases.flatMap (walkIn h.defs)), ?_⟩
  rw [mro, hw.walkIn_eq hd]
  apply keepLast_of_not_any
  rw [List.any_eq_false]
  intro a ha
  obtain ⟨b, hb, hab⟩ := List.mem_flatMap.1 ha
  obtain ⟨hhas, hlt⟩ := hw.base hd hb
  have hle := hw.id_le_of_isSubclass hhas ((hw.mem_walkIn_iff hhas).1 hab).2
  rw [ClassRef.same_iff]
  omega

/-! ## Subclasses -/

theorem subclassesIn_cons (c : ClassRef) (d : ClassDef) (older : List ClassDef) :
    subclassesIn c (d :: older) =
      subclassesIn c older ++ List.replicate (d.bases.countP c.same) ⟨older.length, d.name⟩ := by
  rw [subclassesIn, List.map_const', List.countP_eq_length_filter]

/-- A declaration adds the new class behind the others, as often as it names the base. -/
theorem subclasses_declare (h : Hierarchy) (d : ClassDef) (c : ClassRef) :
    (h.declare d).subclasses c =
      h.subclasses c ++ List.replicate (d.bases.countP c.same) (h.nextRef d.name) :=
  subclassesIn_cons c d h.defs

theorem mem_subclassesIn_iff {defs : List ClassDef} :
    d ∈ subclassesIn c defs ↔
      ∃ decl, defOf? defs d.id = some decl ∧ decl.name = d.name ∧
        ∃ b ∈ decl.bases, c.id = b.id := by
  induction defs with
  | nil => simp [subclassesIn, defOf?]
  | cons decl older ih =>
    have hnew : d ∈ List.replicate (decl.bases.countP c.same) ⟨older.length, decl.name⟩ ↔
        d = ⟨older.length, decl.name⟩ ∧ ∃ b ∈ decl.bases, c.id = b.id := by
      rw [List.mem_replicate, ← Nat.pos_iff_ne_zero, List.countP_pos_iff, and_comm]
      simp only [ClassRef.same_iff]
    rw [subclassesIn_cons, List.mem_append, ih, hnew]
    by_cases hid : d.id = older.length
    · have hnone : defOf? older d.id = none := by
        cases hsome : defOf? older d.id with
        | none => rfl
        | some e => exact absurd (lt_of_defOf? hsome) (by omega)
      rw [defOf?_cons, if_pos hid, hnone]
      constructor
      · rintro (⟨_, he, -⟩ | ⟨rfl, hb⟩)
        · cases he
        · exact ⟨decl, rfl, rfl, hb⟩
      · rintro ⟨e, he, hname, hb⟩
        obtain rfl : decl = e := Option.some.inj he
        cases d
        exact .inr ⟨by rw [hname, ← hid], hb⟩
    · rw [defOf?_cons, if_neg hid]
      have hne : d ≠ ⟨older.length, decl.name⟩ := fun he => hid (by rw [he])
      simp [hne]

theorem mem_subclasses_iff :
    d ∈ h.subclasses c ↔
      ∃ decl, h.find? d = some decl ∧ decl.name = d.name ∧ ∃ b ∈ decl.bases, c.id = b.id :=
  mem_subclassesIn_iff

theorem has_of_mem_subclasses (hd : d ∈ h.subclasses c) : h.Has d := by
  obtain ⟨decl, hdecl, hname, -⟩ := mem_subclasses_iff.1 hd
  exact ⟨decl, hdecl, hname⟩

/-- The subclasses of a class, at any distance, are reached through direct subclasses. -/
theorem WellFormed.isSubclass_induction (hw : h.WellFormed) {motive : ClassRef → Prop}
    (ha : h.Has a) (self : motive a)
    (step : ∀ b d, h.isSubclass b a = true → motive b → d ∈ h.subclasses b → motive d)
    (hc : h.Has c) (hsub : h.isSubclass c a = true) : motive c := by
  refine hw.induction (motive := fun c => h.isSubclass c a = true → motive c)
    (fun c decl hc hd ih hsub => ?_) hc hsub
  rw [hw.isSubclass_eq hd, Bool.or_eq_true, List.any_eq_true, ClassRef.same_iff] at hsub
  rcases hsub with hid | ⟨b, hb, hsub⟩
  · exact hc.eq_of_id ha hid ▸ self
  · obtain ⟨e, he, hname⟩ := hc
    obtain rfl : decl = e := Option.some.inj (hd.symm.trans he)
    exact step b c hsub (ih b hb hsub) (mem_subclasses_iff.2 ⟨decl, hd, hname, b, hb, rfl⟩)

/-! ## Capabilities -/

/-- A subclass has what a class has by itself or by inheritance. -/
theorem WellFormed.anyAncestor_of_mem_subclasses (hw : h.WellFormed) {p : ClassDef → Bool}
    (hd : d ∈ h.subclasses c) (hp : anyAncestorIn p h.defs c.id = true) :
    anyAncestorIn p h.defs d.id = true := by
  obtain ⟨decl, hdecl, -, b, hb, hid⟩ := mem_subclasses_iff.1 hd
  rw [hw.anyAncestor_eq p hdecl, Bool.or_eq_true, List.any_eq_true]
  exact .inr ⟨b, hb, hid ▸ hp⟩

theorem WellFormed.isInterface_of_mem_subclasses (hw : h.WellFormed) (hd : d ∈ h.subclasses c)
    (hi : h.isInterface c = true) : h.isInterface d = true :=
  hw.anyAncestor_of_mem_subclasses hd hi

/-- The built-in classes keep what they have by themselves. -/
theorem WellFormed.anyAncestor_builtin (hw : h.WellFormed) (p : ClassDef → Bool) {id : Nat}
    (hid : id < Hierarchy.builtin.defs.length) :
    anyAncestorIn p h.defs id = anyAncestorIn p Hierarchy.builtin.defs id := by
  have hlen : Hierarchy.builtin.defs.length ≤ h.defs.length ∧
      anyAncestorIn p h.defs id = anyAncestorIn p Hierarchy.builtin.defs id := by
    induction hw with
    | builtin => exact ⟨le_rfl, rfl⟩
    | declare _ _ ih =>
      refine ⟨Nat.le_succ_of_le ih.1, ?_⟩
      exact (anyAncestorIn_cons (lt_of_lt_of_le hid ih.1)).trans ih.2
  exact hlen.2

end HintSchema.Hierarchy
