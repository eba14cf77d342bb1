import Mathlib.Logic.Function.Basic
import HintSchema.Proofs.Locations
import HintSchema.Proofs.Standing

/-!
# Subclasses against bases

A class names its bases when it is declared, and is entered then in a list of each of them, so the
classes hold lists of their direct subclasses that only ever grow (`Hierarchy.Register`).  What a
declaration adds to a list is what the new class says of the base (`subclasses_declare`).  So after
any sequence of declarations the lists and the bases are one relation, and a walk down the lists meets
the classes that have its first class among their ancestors (`Hierarchy.MirrorsBases`).  Below an
interface all of them have nodes of their own (`BuildEnv.MapsTo`).
-/

namespace HintSchema

open Relation

/-! ## Lists of subclasses -/

namespace Hierarchy

variable {h : Hierarchy} {b c d : ClassRef} {decl : ClassDef}

/-- The direct subclasses that each class was told of, by the id of the class. -/
abbrev Register := Nat → List ClassRef

/-- Enters a class in the lists of its bases, once for each time that it names the base. -/
def Register.enter (r : Register) (bases : List ClassRef) (c : ClassRef) : Register :=
  bases.foldl (fun r b => Function.update r b.id (r b.id ++ [c])) r

/-- The lists after some declarations, the newest first: every class was entered when it was
declared. -/
def registerIn : List ClassDef → Register
  | [] => fun _ => []
  | d :: older => (registerIn older).enter d.bases ⟨older.length, d.name⟩

def register (h : Hierarchy) : Register := registerIn h.defs

theorem Register.enter_apply (r : Register) (bases : List ClassRef) (c b : ClassRef) :
    r.enter bases c b.id = r b.id ++ List.replicate (bases.countP b.same) c := by
  unfold enter
  induction bases generalizing r with
  | nil => simp
  | cons a rest ih =>
    rw [List.foldl_cons, ih]
    by_cases hid : b.id = a.id
    · rw [hid, Function.update_self, List.countP_cons_of_pos (ClassRef.same_iff.2 hid),
        List.replicate_succ, List.append_assoc]
      rfl
    · rw [Function.update_of_ne hid,
        List.countP_cons_of_neg fun hsame => hid (ClassRef.same_iff.1 hsame)]

/-- The subclasses that are read off the declarations are the ones that were entered. -/
theorem subclasses_eq_register (h : Hierarchy) (c : ClassRef) :
    h.subclasses c = h.register c.id := by
  rw [register, subclasses]
  induction h.defs with
  | nil => rfl
  | cons d older ih => rw [registerIn, Register.enter_apply, ← ih, subclassesIn_cons]

/-- A class that is there after a declaration is the new one, or was there before. -/
theorem Has.declare_cases {new : ClassDef} (hd : (h.declare new).Has d)
    (hdecl : (h.declare new).find? d = some decl) :
    (d = h.nextRef new.name ∧ new = decl) ∨ (h.Has d ∧ h.find? d = some decl) := by
  obtain ⟨e, he, hname⟩ := hd
  obtain rfl : decl = e := Option.some.inj (hdecl.symm.trans he)
  rcases find?_declare_cases hdecl with ⟨hid, rfl⟩ | hold
  · exact .inl ⟨by rw [nextRef, hname, ← hid], rfl⟩
  · exact .inr ⟨⟨decl, hold, hname⟩, hold⟩

namespace WellFormed

variable (hw : h.WellFormed)
include hw

/-- A class is in the list of another one as often as it names it. -/
theorem count_subclasses (hd : h.Has d) (hdecl : h.find? d = some decl) (c : ClassRef) :
    (h.subclasses c).count d = decl.bases.countP c.same := by
  induction hw with
  | builtin =>
    rw [bases_of_builtin hdecl]
    rfl
  | @declare h new hw _ ih =>
    rw [subclasses_declare, List.count_append]
    rcases hd.declare_cases hdecl with ⟨rfl, rfl⟩ | ⟨hhas, hold⟩
    · -- the new class is in no list yet
      have hnot : h.nextRef new.name ∉ h.subclasses c := fun hmem =>
        (has_of_mem_subclasses hmem).lt.ne rfl
      rw [List.count_eq_zero_of_not_mem hnot, List.count_replicate_self, Nat.zero_add]
    · have hnot : d ∉ List.replicate (new.bases.countP c.same) (h.nextRef new.name) := fun hmem =>
        hhas.lt.ne (congrArg ClassRef.id (List.eq_of_mem_replicate hmem))
      rw [List.count_eq_zero_of_not_mem hnot, ih hhas hold, Nat.add_zero]

/-- Bases that mean a declared class are references to it under its own name. -/
theorem countP_same (hc : h.Has c) (hdecl : h.find? d = some decl) :
    decl.bases.countP c.same = decl.bases.count c := by
  refine List.countP_congr fun b hb => ?_
  rw [ClassRef.same_iff, beq_iff_eq]
  exact ⟨fun hid => (hw.base hdecl hb).1.eq_of_id hc hid.symm, fun he => by rw [he]⟩

/-- Subclasses are listed in the order of their declaration. -/
theorem pairwise_subclasses (c : ClassRef) :
    (h.subclasses c).Pairwise fun a b => a.id ≤ b.id := by
  induction hw with
  | builtin => exact .nil
  | @declare h new hw _ ih =>
    rw [subclasses_declare, List.pairwise_append]
    refine ⟨ih, List.pairwise_replicate.2 (.inr le_rfl), fun a ha b hb => ?_⟩
    rw [List.eq_of_mem_replicate hb]
    exact (has_of_mem_subclasses ha).lt.le

end WellFormed

/-! ## Down the lists and up the bases -/

/-- A class is met from another one by taking subclasses any number of times. -/
abbrev Reaches (h : Hierarchy) : ClassRef → ClassRef → Prop :=
  ReflTransGen fun a b => b ∈ h.subclasses a

theorem Has.of_reaches (hc : h.Has c) (hreach : h.Reaches c d) : h.Has d := by
  cases hreach with
  | refl => exact hc
  | tail _ hmem => exact has_of_mem_subclasses hmem

namespace WellFormed

variable (hw : h.WellFormed)
include hw

/-- The direct subclasses of a class have its ancestors. -/
theorem isSubclass_of_mem_subclasses (hmem : d ∈ h.subclasses b) (hsub : h.isSubclass b c = true) :
    h.isSubclass d c = true := by
  obtain ⟨decl, hdecl, -, base, hbase, hid⟩ := mem_subclasses_iff.1 hmem
  rw [isSubclass, hid] at hsub
  rw [hw.isSubclass_eq hdecl, Bool.or_eq_true, List.any_eq_true]
  exact .inr ⟨base, hbase, hsub⟩

theorem isSubclass_of_reaches (hreach : h.Reaches c d) : h.isSubclass d c = true := by
  induction hreach with
  | refl => exact h.isSubclass_self c
  | tail _ hmem ih => exact hw.isSubclass_of_mem_subclasses hmem ih

theorem reaches_of_isSubclass (hc : h.Has c) (hd : h.Has d) (hsub : h.isSubclass d c = true) :
    h.Reaches c d := by
  refine hw.isSubclass_induction (motive := h.Reaches c) hc .refl ?_ hd hsub
  intro b d _ hreach hmem
  exact hreach.tail hmem

theorem isInterface_of_reaches (hi : h.isInterface c = true) (hreach : h.Reaches c d) :
    h.isInterface d = true := by
  induction hreach with
  | refl => exact hi
  | tail _ hmem ih => exact hw.isInterface_of_mem_subclasses hmem ih

end WellFormed

end Hierarchy

/-! ## Nodes of classes -/

namespace BuildEnv

variable {env : BuildEnv} {aliases : AliasTable} {c : ClassRef} {g : Graph} {kind : NodeKind}

/-- The types of a class are of a kind: a node that is made for the class is one of the class and of
the kind, and in any graph that calls make of the empty one the class is translated to such a
node. -/
structure MapsTo (env : BuildEnv) (c : ClassRef) (kind : NodeKind) : Prop where
  made : ∀ ann g, ∃ node : Node, node.body.class? = some c ∧ node.kind = kind ∧
    (env.mapClass ann c).exec g = (.ok (.named (node.refAt g.nodes.size)), g.grow node)
  translated : ∀ aliases g, env.WellFormed aliases → env.Reachable aliases g → ∃ n g',
    (env.translateClass c).exec g = (.ok (.named n), g') ∧ g'.IsType n c ∧ n.kind = kind

/-- A class with a capability is never refused, and what it becomes is its node. -/
theorem WellFormed.exists_translateClass (hw : env.WellFormed aliases)
    (hg : env.Reachable aliases g) (hc : env.hierarchy.Has c)
    (hkind : env.hierarchy.kind? c = some kind) : ∃ n g',
      (env.translateClass c).exec g = (.ok (.named n), g') ∧ g'.IsType n c ∧ n.kind = kind := by
  have hd := hw.domain_typed
  have hP : env.Typed aliases (.ofClass c none) := hw.typed_of_given (.ofClass hc)
  have hfails := failsOnly_translateClass (E := fun _ => False) (by rw [hkind]; rfl) g
  have hmoves := hd.moves_translateNullable hw hP g
  rcases hr : (env.translateNullable (.ofClass c none)).exec g with ⟨e | t, g'⟩
  · rw [translateClass, hr] at hfails
    exact (hfails e rfl).elim
  · rw [hr] at hmoves
    have hv : Graph.Valid env (env.Typed aliases) g' :=
      (Graph.Learns.grows hmoves).valid (hw.valid_of_reachable hg)
    obtain ⟨t', ht', rfl⟩ := hd.cached_of_translateNullable hw hP hr
    obtain ⟨i, node, hn, hclass, hnodeKind, rfl⟩ := hd.type_of_class hv hc hkind ht'
    exact ⟨node.refAt i, g', hr, ⟨node, hn, hclass⟩, hnodeKind⟩

theorem mapsTo_of_kind? (hc : env.hierarchy.Has c) (hkind : env.hierarchy.kind? c = some kind) :
    env.MapsTo c kind where
  made ann g := by
    obtain ⟨node, hnode, hnodeKind⟩ := exists_of_kind? hkind
    refine ⟨node, (classNode_spec hnode).1, hnodeKind, ?_⟩
    rw [mapClass, hnode]
    rfl
  translated aliases g hw hg := hw.exists_translateClass hg hc hkind

end BuildEnv

/-! ## The two views of inheritance -/

namespace Hierarchy

variable {h : Hierarchy}

/-- The lists of subclasses that classes hold say the same as the bases that classes name. -/
structure MirrorsBases (h : Hierarchy) : Prop where
  registered : ∀ c, h.subclasses c = h.register c.id
  declared : ∀ c d, d ∈ h.subclasses c → h.Has d
  count : ∀ c d decl, h.Has c → h.Has d → h.find? d = some decl →
    (h.subclasses c).count d = decl.bases.count c
  order : ∀ c, (h.subclasses c).Pairwise fun a b => a.id ≤ b.id
  reaches : ∀ c d, h.Has c → h.Has d → (h.Reaches c d ↔ h.isSubclass d c = true)
  interfaces : ∀ c d, h.Has c → h.isInterface c = true → h.Reaches c d →
    h.isInterface d = true ∧ ∀ env : BuildEnv, env.hierarchy = h →
      env.MapsTo d (if h.isObject d then .object else .interface)

/-- After any sequence of declarations a class is in the list of another one as often as it names it
as a base, in the order of declaration; the lists lead down from a class to all those that have it
among their ancestors; and those below an interface are mapped to nodes of objects or interfaces. -/
theorem WellFormed.mirrorsBases (hw : h.WellFormed) : h.MirrorsBases := by
  refine ⟨h.subclasses_eq_register, fun c d => has_of_mem_subclasses,
    fun c d decl hc hd hdecl => ?_, hw.pairwise_subclasses, fun c d hc hd => ?_,
    fun c d hc hi hreach => ?_⟩
  · rw [hw.count_subclasses hd hdecl, hw.countP_same hc hdecl]
  · exact ⟨hw.isSubclass_of_reaches, hw.reaches_of_isSubclass hc hd⟩
  · have hinterface := hw.isInterface_of_reaches hi hreach
    refine ⟨hinterface, ?_⟩
    rintro env rfl
    refine BuildEnv.mapsTo_of_kind? (hc.of_reaches hreach) ?_
    rw [kind?, if_pos hinterface]
    split_ifs <;> rfl

end Hierarchy

namespace Sample

def animal : ClassRef := ⟨6, "Animal"⟩

def swimmer : ClassRef := ⟨7, "Swimmer"⟩

def flyer : ClassRef := ⟨8, "Flyer"⟩

def duck : ClassRef := ⟨9, "Duck"⟩

/-- A duck is a swimmer and a flyer, and says twice that it is a swimmer.  All of them are animals,
and these are an interface. -/
def flock : Hierarchy :=
  [{ ClassDef.named "Animal" with capabilities := { interface := true } },
    { ClassDef.named "Swimmer" with bases := [animal] },
    { ClassDef.named "Flyer" with bases := [animal] },
    { ClassDef.named "Duck" with
      bases := [swimmer, flyer, swimmer], capabilities := { object := true } }].foldl
    Hierarchy.declare .builtin

theorem wellFormed_flock : flock.WellFormed := by
  refine .declare (.declare (.declare (.declare .builtin ?_) ?_) ?_) ?_
  · exact nofun
  · exact List.forall_mem_singleton.2 ⟨_, rfl, rfl⟩
  · exact List.forall_mem_singleton.2 ⟨_, rfl, rfl⟩
  · simp only [List.forall_mem_cons]
    exact ⟨⟨_, rfl, rfl⟩, ⟨_, rfl, rfl⟩, ⟨_, rfl, rfl⟩, nofun⟩

/-- Ducks are listed twice with swimmers.  From animals they are met as objects, and no flyer is met
from swimmers. -/
theorem mirrorsBases_flock : flock.WellFormed ∧ flock.register swimmer.id = [duck, duck] ∧
    flock.subclasses swimmer = [duck, duck] ∧ flock.Reaches animal duck ∧
    ¬ flock.Reaches swimmer flyer ∧ flock.isInterface duck = true ∧
    (⟨flock, {}, {}⟩ : BuildEnv).MapsTo duck .object := by
  have hanimal : flock.Has animal := ⟨_, rfl, rfl⟩
  have hduck : flock.Has duck := ⟨_, rfl, rfl⟩
  have hmirrors := wellFormed_flock.mirrorsBases
  have hregister : flock.register swimmer.id = [duck, duck] := (hmirrors.registered swimmer).symm
  have hreach : flock.Reaches animal duck := (hmirrors.reaches animal duck hanimal hduck).2 rfl
  have hapart : ¬ flock.Reaches swimmer flyer := by
    rw [hmirrors.reaches swimmer flyer ⟨_, rfl, rfl⟩ ⟨_, rfl, rfl⟩]
    decide
  obtain ⟨hinterface, hmaps⟩ := hmirrors.interfaces animal duck hanimal rfl hreach
  exact ⟨wellFormed_flock, hregister, rfl, hreach, hapart, hinterface, hmaps _ rfl⟩

end Sample

end HintSchema
