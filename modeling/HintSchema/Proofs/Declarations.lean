import HintSchema.Proofs.Lineage
import HintSchema.Proofs.UnionKeys
import HintSchema.Schema.Graph

/-!
# Types over declarations

A type is over a hierarchy and a table of aliases when its classes are declared and its aliases are
those of the table (`TypeExpr.Over`); it is normal when its unions are such as `TypeExpr.unionOf`
builds them (`TypeExpr.Normal`).  The environment of a build is well formed when all hints it holds
are over its declarations (`BuildEnv.WellFormed`).  Types of one key have one rank
(`rank_eq_of_key`), which goes down from a type to its parts.
-/

namespace HintSchema

/-- The name and the supertype of each alias, by id. -/
abbrev AliasTable := Nat → Option (String × TypeExpr)

namespace TypeExpr

def isUnion : TypeExpr → Bool
  | .union _ => true
  | _ => false

mutual

/-- All classes of a type are declared, and its aliases are those of the table. -/
def Over (h : Hierarchy) (aliases : AliasTable) : TypeExpr → Prop
  | .cls c => h.Has c
  | .union members => OverAll h aliases members
  | .aliasOf id name supertype => aliases id = some (name, supertype)
  | .generic _ args => OverAll h aliases args
  | .noneType | .forward _ => True

def OverAll (h : Hierarchy) (aliases : AliasTable) : List TypeExpr → Prop
  | [] => True
  | e :: rest => e.Over h aliases ∧ OverAll h aliases rest

end

mutual

/-- The unions of a type, those inside the supertypes of aliases apart, have no unions among their
members, no two members of one key, and not just one member. -/
def Normal : TypeExpr → Prop
  | .union members =>
    NormalAll members ∧ (∀ e ∈ members, e.isUnion = false) ∧ (keys members).Nodup ∧
      members.length ≠ 1
  | .generic _ args => NormalAll args
  | .cls _ | .noneType | .aliasOf .. | .forward _ => True

def NormalAll : List TypeExpr → Prop
  | [] => True
  | e :: rest => e.Normal ∧ NormalAll rest

end

theorem overAll_iff {h : Hierarchy} {aliases : AliasTable} {es : List TypeExpr} :
    OverAll h aliases es ↔ ∀ e ∈ es, e.Over h aliases := by
  induction es with
  | nil => exact iff_of_true trivial nofun
  | cons e rest ih =>
    rw [List.forall_mem_cons, ← ih]
    rfl

theorem normalAll_iff {es : List TypeExpr} : NormalAll es ↔ ∀ e ∈ es, e.Normal := by
  induction es with
  | nil => exact iff_of_true trivial nofun
  | cons e rest ih =>
    rw [List.forall_mem_cons, ← ih]
    rfl

/-! ## Rank -/

mutual

/-- How deep a type is nested, supertypes of aliases included; a union with the type of the absent
value is deeper than one without. -/
def rank : TypeExpr → Nat
  | .union members => maxRank members + if members.any isNone then 2 else 1
  | .aliasOf _ _ supertype => supertype.rank + 1
  | .generic _ args => maxRank args + 1
  | .cls _ | .noneType | .forward _ => 0

/-- The greatest rank in a list. -/
def maxRank : List TypeExpr → Nat
  | [] => 0
  | e :: rest => max e.rank (maxRank rest)

end

theorem rank_union (es : List TypeExpr) :
    (union es).rank = maxRank es + if es.any isNone then 2 else 1 := rfl

theorem rank_aliasOf (id : Nat) (name : String) (supertype : TypeExpr) :
    (aliasOf id name supertype).rank = supertype.rank + 1 := rfl

theorem rank_generic (kind : GenericKind) (es : List TypeExpr) :
    (generic kind es).rank = maxRank es + 1 := rfl

theorem maxRank_cons (e : TypeExpr) (es : List TypeExpr) :
    maxRank (e :: es) = max e.rank (maxRank es) := rfl

theorem rank_le_maxRank {e : TypeExpr} {es : List TypeExpr} (he : e ∈ es) :
    e.rank ≤ maxRank es := by
  induction es with
  | nil => simp at he
  | cons e' rest ih =>
    rw [maxRank_cons]
    rcases List.mem_cons.1 he with rfl | he
    · exact le_max_left _ _
    · exact (ih he).trans (le_max_right _ _)

theorem maxRank_le {es : List TypeExpr} {n : Nat} (h : ∀ e ∈ es, e.rank ≤ n) :
    maxRank es ≤ n := by
  induction es with
  | nil => exact Nat.zero_le n
  | cons e rest ih =>
    rw [maxRank_cons]
    exact max_le (h e List.mem_cons_self) (ih fun e' he' => h e' (List.mem_cons_of_mem _ he'))

theorem key_eq_noneType_iff {e : TypeExpr} : e.key = .noneType ↔ e = .noneType := by
  refine ⟨fun h => ?_, congrArg key⟩
  cases e with
  | noneType => rfl
  | cls | union | aliasOf | generic | forward => cases h

theorem isUnion_eq_of_key {d e : TypeExpr} (h : d.key = e.key) : d.isUnion = e.isUnion := by
  cases d <;> cases e <;> first | rfl | cases h

theorem isNone_eq_of_key {d e : TypeExpr} (h : d.key = e.key) : d.isNone = e.isNone := by
  cases d <;> cases e <;> first | rfl | cases h

theorem any_isNone_iff {es : List TypeExpr} : es.any isNone = true ↔ .noneType ∈ es.map key := by
  rw [List.any_eq_true, List.mem_map]
  refine exists_congr fun e => and_congr_right fun _ => ?_
  rw [key_eq_noneType_iff]
  cases e <;> simp [isNone]

theorem key_union (es : List TypeExpr) : (union es).key = .ofMembers (es.map key) :=
  congrArg TypeKey.ofMembers (keys_eq_map es)

theorem key_generic (kind : GenericKind) (es : List TypeExpr) :
    (generic kind es).key = .generic kind (es.map key) :=
  congrArg (TypeKey.generic kind) (keys_eq_map es)

/-- The types that have the key of a union are unions with the same keys of members. -/
theorem eq_union_of_key {es : List TypeExpr} {e : TypeExpr} (h : (union es).key = e.key) :
    ∃ es', e = .union es' ∧ ∀ k, k ∈ es.map key ↔ k ∈ es'.map key := by
  cases e with
  | union es' =>
    rw [key_union, key_union] at h
    exact ⟨es', rfl, TypeKey.ofMembers_inj.1 h⟩
  | _ => cases h

theorem eq_generic_of_key {kind : GenericKind} {es : List TypeExpr} {e : TypeExpr}
    (h : (generic kind es).key = e.key) :
    ∃ es', e = .generic kind es' ∧ es.map key = es'.map key := by
  cases e with
  | generic kind' es' =>
    rw [key_generic, key_generic, TypeKey.generic.injEq] at h
    exact ⟨es', by rw [h.1], h.2⟩
  | _ => cases h

theorem eq_aliasOf_of_key {h : Hierarchy} {aliases : AliasTable} {id : Nat} {name : String}
    {supertype e : TypeExpr} (ho : (aliasOf id name supertype).Over h aliases)
    (ho' : e.Over h aliases) (hk : (aliasOf id name supertype).key = e.key) :
    e = .aliasOf id name supertype := by
  cases e with
  | aliasOf id' name' supertype' =>
    obtain rfl : id = id' := TypeKey.aliasOf.inj hk
    have heq : some (name, supertype) = some (name', supertype') := Eq.trans (Eq.symm ho) ho'
    simp only [Option.some.injEq, Prod.mk.injEq] at heq
    rw [heq.1, heq.2]
  | _ => cases hk

theorem eq_cls_of_key {h : Hierarchy} {aliases : AliasTable} {c : ClassRef} {e : TypeExpr}
    (ho : (cls c).Over h aliases) (ho' : e.Over h aliases) (hk : (cls c).key = e.key) :
    e = .cls c := by
  cases e with
  | cls c' =>
    have hid : c.id = c'.id := TypeKey.cls.inj hk
    rw [Hierarchy.Has.eq_of_id ho ho' hid]
  | _ => cases hk

/-- Keys decide how deep the parts can be. -/
theorem maxRank_le_of_keys {es es' : List TypeExpr}
    (hrank : ∀ e ∈ es, ∀ e' ∈ es', e.key = e'.key → e.rank ≤ e'.rank)
    (hkeys : ∀ k, k ∈ es.map key → k ∈ es'.map key) : maxRank es ≤ maxRank es' := by
  refine maxRank_le fun e he => ?_
  obtain ⟨e', he', hk⟩ := List.mem_map.1 (hkeys e.key (List.mem_map_of_mem he))
  exact (hrank e he e' he' hk.symm).trans (rank_le_maxRank he')

theorem rank_le_of_key {h : Hierarchy} {aliases : AliasTable} {e e' : TypeExpr}
    (ho : e.Over h aliases) (ho' : e'.Over h aliases) (hk : e.key = e'.key) :
    e.rank ≤ e'.rank := by
  match e with
  | .cls c | .noneType | .forward t => exact Nat.zero_le _
  | .aliasOf id name supertype => rw [eq_aliasOf_of_key ho ho' hk]
  | .union es =>
    obtain ⟨es', rfl, hkeys⟩ := eq_union_of_key hk
    have ho := overAll_iff.1 ho
    have ho' := overAll_iff.1 ho'
    have hle : maxRank es ≤ maxRank es' :=
      maxRank_le_of_keys (fun d hd d' hd' hk => rank_le_of_key (ho d hd) (ho' d' hd') hk)
        fun k => (hkeys k).1
    have hnone : es.any isNone = es'.any isNone := by
      rw [Bool.eq_iff_iff, any_isNone_iff, any_isNone_iff, hkeys]
    rw [rank_union, rank_union, hnone]
    omega
  | .generic kind es =>
    obtain ⟨es', rfl, hkeys⟩ := eq_generic_of_key hk
    have ho := overAll_iff.1 ho
    have ho' := overAll_iff.1 ho'
    have hle : maxRank es ≤ maxRank es' :=
      maxRank_le_of_keys (fun d hd d' hd' hk => rank_le_of_key (ho d hd) (ho' d' hd') hk)
        fun k hmem => hkeys ▸ hmem
    rw [rank_generic, rank_generic]
    omega
termination_by sizeOf e
decreasing_by
  all_goals simp_wf
  all_goals have := List.sizeOf_lt_of_mem hd
  all_goals omega

theorem rank_eq_of_key {h : Hierarchy} {aliases : AliasTable} {e e' : TypeExpr}
    (ho : e.Over h aliases) (ho' : e'.Over h aliases) (hk : e.key = e'.key) : e.rank = e'.rank :=
  le_antisymm (rank_le_of_key ho ho' hk) (rank_le_of_key ho' ho hk.symm)

/-! ## Chains of aliases -/

variable {h : Hierarchy} {aliases : AliasTable}

theorem over_ultimate (hs : ∀ {id name s}, aliases id = some (name, s) → s.Over h aliases)
    {e : TypeExpr} (ho : e.Over h aliases) : e.ultimate.Over h aliases := by
  match e with
  | .aliasOf id name s => exact over_ultimate (e := s) hs (hs ho)
  | .cls _ | .noneType | .union _ | .generic _ _ | .forward _ => exact ho

theorem normal_ultimate (hs : ∀ {id name s}, aliases id = some (name, s) → s.Over h aliases)
    (hn : ∀ {id name s}, aliases id = some (name, s) → s.Normal) {e : TypeExpr}
    (ho : e.Over h aliases) (he : e.Normal) : e.ultimate.Normal := by
  match e with
  | .aliasOf id name s => exact normal_ultimate (e := s) hs hn (hs ho) (hn ho)
  | .cls _ | .noneType | .union _ | .generic _ _ | .forward _ => exact he

theorem rank_ultimate_le (e : TypeExpr) : e.ultimate.rank ≤ e.rank := by
  match e with
  | .aliasOf _ _ s => exact (rank_ultimate_le s).trans (Nat.le_succ _)
  | .cls _ | .noneType | .union _ | .generic _ _ | .forward _ => exact le_rfl

end TypeExpr

/-! ## Environments -/

section Environments

variable (h : Hierarchy) (aliases : AliasTable)

/-- The classes and aliases that a hint mentions itself are declared. -/
def Hint.Over : Hint → Prop
  | .text _ => True
  | .expr type => type.Over h aliases

/-- The classes and aliases that a member mentions are declared, that of its value included. -/
def Member.Over : Member → Prop
  | .property p => p.returns.Over h aliases
  | .method m => m.returns.Over h aliases ∧ ∀ p ∈ m.params, p.hint.Over h aliases
  | .value v => h.Has v.classRef

/-- The classes and aliases that a class mentions are declared. -/
def ClassDef.Over (d : ClassDef) : Prop :=
  (∀ p ∈ d.hints, p.2.Over h aliases) ∧ ∀ p ∈ d.members, p.2.Over h aliases

variable {h aliases}

/-- What an environment mentions is declared: its classes in the hierarchy, its aliases in the
table, which has the built-in alias too. -/
structure BuildEnv.WellFormed (env : BuildEnv) (aliases : AliasTable) : Prop where
  hierarchy : env.hierarchy.WellFormed
  identifier : aliases 0 = some ("ID", .cls .str)
  supertypes : ∀ {id name s}, aliases id = some (name, s) → s.Over env.hierarchy aliases
  bindings : ∀ {name hint}, env.ns.get? name = some hint → hint.Over env.hierarchy aliases
  classes : ∀ {d}, d ∈ env.hierarchy.defs → d.Over env.hierarchy aliases

end Environments

theorem ClassDef.over_of_texts {h : Hierarchy} {aliases : AliasTable} {d : ClassDef}
    (htexts : (d.hints.all fun p => p.2.text?.isSome) = true) :
    ∀ p ∈ d.hints, p.2.Over h aliases := by
  intro p hp
  have htext := List.all_eq_true.1 htexts p hp
  obtain ⟨name, source | type⟩ := p
  · trivial
  · cases htext

theorem Hierarchy.has_of_no_bases {h : Hierarchy} {d : ClassDef} (hd : d.bases = []) :
    ∀ b ∈ d.bases, h.Has b := by
  intro b hb
  rw [hd] at hb
  cases hb

/-! ## A sample -/

namespace Sample

/-- The built-in alias alone. -/
def aliases : AliasTable := fun id => if id = 0 then some ("ID", .cls .str) else none

theorem of_aliases {P : TypeExpr → Prop} (hstr : P (.cls .str)) {id : Nat} {name : String}
    {s : TypeExpr} (h : aliases id = some (name, s)) : P s := by
  simp only [aliases, Option.ite_none_right_eq_some, Option.some.injEq, Prod.mk.injEq] at h
  rwa [← h.2.2]

def shape : ClassRef := ⟨6, "Shape"⟩

def square : ClassRef := ⟨7, "Square"⟩

def cube : ClassRef := ⟨8, "Cube"⟩

def drawing : ClassRef := ⟨9, "Drawing"⟩

def dot : ClassRef := ⟨10, "Dot"⟩

def canvas : ClassRef := ⟨12, "Canvas"⟩

/-- A method with two parameters of one name. -/
def stamp : Method where
  name := "stamp"
  doc := none
  params := [⟨"mark", .expr (.cls dot), none⟩, ⟨"mark", .expr (.cls .int), none⟩]
  returns := .expr (.cls .int)
  body := .arg "mark"

/-- The declared classes in their order.  Drawings are of shapes: an interface with a class below it
and another one below that, which no hint mentions.  On a canvas dots are only mentioned by a
parameter that another one of its name follows. -/
def declarations : List ClassDef :=
  [{ (ClassDef.named "Shape").annotate "name" (.expr (.cls .str)) with
      capabilities := { interface := true } },
    { (ClassDef.named "Square").annotate "side" (.expr (.cls .int)) with
      bases := [shape], capabilities := { object := true } },
    { ClassDef.named "Cube" with bases := [square] },
    { ((ClassDef.named "Drawing").annotate "id" (.expr .identifier)).annotate "shapes"
        (.expr (.listOf (.union [.cls shape, .noneType]))) with
      capabilities := { object := true } },
    { (ClassDef.named "Dot").annotate "size" (.expr (.cls .int)) with
      capabilities := { interface := true } },
    { ClassDef.named "Ring" with bases := [dot] },
    { (ClassDef.named "Canvas").addMethod stamp with capabilities := { object := true } }]

def hierarchy : Hierarchy := declarations.foldl Hierarchy.declare .builtin

def env : BuildEnv := ⟨hierarchy, {}, {}⟩

theorem wellFormed_hierarchy : hierarchy.WellFormed := by
  have hnone := @Hierarchy.has_of_no_bases
  have hone : ∀ {h : Hierarchy} {d : ClassDef} {c : ClassRef}, d.bases = [c] → h.Has c →
      ∀ b ∈ d.bases, h.Has b := by
    intro h d c hd hc b hb
    rw [hd, List.mem_singleton] at hb
    exact hb ▸ hc
  refine .declare (.declare (.declare (.declare (.declare (.declare (.declare .builtin
    (hnone rfl)) (hone rfl ⟨_, rfl, rfl⟩)) (hone rfl ⟨_, rfl, rfl⟩)) (hnone rfl)) (hnone rfl))
    (hone rfl ⟨_, rfl, rfl⟩)) (hnone rfl)

theorem wellFormed : env.WellFormed aliases where
  hierarchy := wellFormed_hierarchy
  identifier := rfl
  supertypes := of_aliases ⟨_, rfl, rfl⟩
  bindings h := by cases h
  classes := by
    have hstr : hierarchy.Has .str := ⟨_, rfl, rfl⟩
    have hint : hierarchy.Has .int := ⟨_, rfl, rfl⟩
    have hshape : hierarchy.Has shape := ⟨_, rfl, rfl⟩
    have hdot : hierarchy.Has dot := ⟨_, rfl, rfl⟩
    have hbuiltin : ∀ d ∈ Hierarchy.builtin.defs, d.Over hierarchy aliases := by
      have hempty : ∀ d ∈ Hierarchy.builtin.defs, d.hints = [] ∧ d.members = [] := by
        simp [Hierarchy.builtin]
      intro d hd
      obtain ⟨hhints, hmembers⟩ := hempty d hd
      simp [ClassDef.Over, hhints, hmembers]
    have hdeclared : ∀ d ∈ declarations, d.Over hierarchy aliases := by
      simp only [declarations, List.forall_mem_cons, List.not_mem_nil, false_implies, implies_true,
        and_true]
      refine ⟨?_, ?_, ?_, ?_, ?_, ?_, ?_⟩ <;>
        simp [ClassDef.Over, ClassDef.named, ClassDef.annotate, ClassDef.addMethod,
          ClassDef.addMember, ClassDef.declare, Keyed.put, Hint.Over, Member.Over, TypeExpr.Over,
          TypeExpr.OverAll, TypeExpr.listOf, TypeExpr.identifier, stamp, aliases, hstr, hint,
          hshape, hdot]
    intro d hd
    have hdefs : env.hierarchy.defs = declarations.reverse ++ Hierarchy.builtin.defs := rfl
    rw [hdefs, List.mem_append, List.mem_reverse] at hd
    exact hd.elim (hdeclared d) (hbuiltin d)

end Sample

end HintSchema
