import HintSchema.Proofs.Inhabitants
import HintSchema.Proofs.Memory

/-!
# Names of enumerations

A name of an enumeration stands for the first variant whose value equals its own
(`EnumType.FirstEqual`): all readers give the member of that variant, and both the member and the
value of the name are written as that variant's name.  Names are therefore written as they were read
just when no two values are equal (`EnumType.names_round_trip`).  For this the values must be there
before the class of the enumeration is, as they are for classes declared one after the other
(`Hierarchy.VariantsOlder`).  The enumerations of a schema, and those that a build has made at any
time, have the variants of their classes for values (`BuildEnv.WellFormed.isOf_of_reachable`).
-/

namespace HintSchema

/-! ## Equality of values -/

theorem Binary64.numEq_comm (x y : Binary64) : x.numEq y = y.numEq x := by
  rw [numEq, numEq, BEq.comm (a := x.bits), Bool.and_comm (!x.isNaN), Bool.and_comm x.isZero]

namespace Value

mutual

/-- Values are equal to each other or not at all. -/
theorem equal_comm : ∀ v w : Value, v.equal w = w.equal v
  | .list vs, w => by
    cases w with
    | list ws => exact equalAll_comm vs ws
    | null | bool | int | float | str | object | enum | sealed => rfl
  | .float x, w => by
    cases w with
    | float y => exact x.numEq_comm y
    | null | bool | int | str | list | object | enum | sealed => rfl
  | .enum c m, w => by
    cases w with
    | enum d n => simp only [equal, ClassRef.same, BEq.comm (a := c.id), BEq.comm (a := m)]
    | null | bool | int | float | str | list | object | sealed => rfl
  | .null, w | .bool _, w | .int _, w | .str _, w | .object _ _ _, w | .sealed _ _ _, w => by
    cases w <;> first
      | rfl
      | exact BEq.comm

theorem equalAll_comm : ∀ vs ws : List Value, equalAll vs ws = equalAll ws vs
  | [], [] | [], _ :: _ | _ :: _, [] => rfl
  | v :: vs, w :: ws => by rw [equalAll, equalAll, equal_comm v w, equalAll_comm vs ws]

end

end Value

/-! ## Variants of declared classes -/

theorem ClassDef.nodup_addVariant {d : ClassDef} {name : String} {value : Value}
    (h : (Keyed.keys d.variants).Nodup) :
    (Keyed.keys (d.addVariant name value).variants).Nodup := by
  have hput : (d.addVariant name value).variants = Keyed.putAll d.variants [(name, value)] := rfl
  rw [hput]
  exact Keyed.nodup_keys_putAll h

namespace Hierarchy

variable {h : Hierarchy} {c : ClassRef} {d : ClassDef}

/-- The variants of each class have distinct names, and values of classes that were declared before
it. -/
def VariantsOlder (h : Hierarchy) : Prop := ∀ c d, h.find? c = some d →
  (Keyed.keys d.variants).Nodup ∧ ∀ p ∈ d.variants, p.2.classRef.id < c.id

theorem variantsOlder_builtin : Hierarchy.builtin.VariantsOlder := by
  intro c d hd
  have hnone : ∀ d ∈ Hierarchy.builtin.defs, d.variants.isEmpty = true := by decide
  rw [List.isEmpty_iff.1 (hnone d (mem_of_defOf? hd))]
  exact ⟨List.nodup_nil, List.forall_mem_nil _⟩

/-- A class is declared with values that are there already. -/
theorem VariantsOlder.declare (hh : h.VariantsOlder) (hnames : (Keyed.keys d.variants).Nodup)
    (hvalues : ∀ p ∈ d.variants, p.2.classRef.id < h.defs.length) :
    (h.declare d).VariantsOlder := by
  intro c d' hd'
  rcases find?_declare_cases hd' with ⟨hc, rfl⟩ | hd'
  · exact ⟨hnames, hc ▸ hvalues⟩
  · exact hh c d' hd'

theorem VariantsOlder.variants (hh : h.VariantsOlder) (c : ClassRef) :
    (Keyed.keys (h.variants c)).Nodup ∧ ∀ p ∈ h.variants c, p.2.classRef.id < c.id := by
  rw [Hierarchy.variants]
  cases hd : h.find? c with
  | none => exact ⟨List.nodup_nil, List.forall_mem_nil _⟩
  | some d => exact hh c d hd

end Hierarchy

namespace EnumType

variable {e : EnumType} {h : Hierarchy} {values : List (String × Value)} {name m : String}
  {v : Value}

/-- The values of an enumeration are the variants of its class. -/
def IsOf (e : EnumType) (h : Hierarchy) : Prop := e.values = h.variants e.c

/-! ## The first equal value -/

/-- The name of the first value that equals a value. -/
inductive FirstEqual (v : Value) : List (String × Value) → String → Prop
  | here {p : String × Value} {rest : List (String × Value)} :
      p.2.equal v = true → FirstEqual v (p :: rest) p.1
  | later {p : String × Value} {rest : List (String × Value)} {m : String} :
      p.2.equal v = false → FirstEqual v rest m → FirstEqual v (p :: rest) m

theorem FirstEqual.find? (hm : FirstEqual v values m) :
    ∃ w, values.find? (fun p => p.2.equal v) = some (m, w) := by
  induction hm with
  | here hp => exact ⟨_, List.find?_cons_of_pos hp⟩
  | later hp _ ih =>
    obtain ⟨w, hw⟩ := ih
    exact ⟨w, by rw [List.find?_cons_of_neg (by simp [hp]), hw]⟩

theorem FirstEqual.mem_keys (hm : FirstEqual v values m) : m ∈ Keyed.keys values := by
  obtain ⟨w, hw⟩ := hm.find?
  exact List.mem_map_of_mem (List.mem_of_find?_eq_some hw)

theorem FirstEqual.unique {m' : String} (hm : FirstEqual v values m)
    (hm' : FirstEqual v values m') : m = m' := by
  obtain ⟨w, hw⟩ := hm.find?
  obtain ⟨w', hw'⟩ := hm'.find?
  exact congrArg Prod.fst (Option.some.inj (hw.symm.trans hw'))

theorem exists_firstEqual (hmem : (name, v) ∈ values) (hv : v.equal v = true) :
    ∃ m, FirstEqual v values m := by
  induction values with
  | nil => cases hmem
  | cons p rest ih =>
    cases hp : p.2.equal v with
    | true => exact ⟨p.1, .here hp⟩
    | false =>
      rcases List.mem_cons.1 hmem with rfl | hmem
      · rw [hv] at hp
        cases hp
      · obtain ⟨m, hm⟩ := ih hmem
        exact ⟨m, .later hp hm⟩

/-- The values that equal themselves are each the first one of their name, and no other, just when
they are pairwise unequal. -/
theorem forall_firstEqual_iff (hnames : (Keyed.keys values).Nodup)
    (hself : ∀ p ∈ values, p.2.equal p.2 = true) :
    (∀ p ∈ values, FirstEqual p.2 values p.1) ↔
      values.Pairwise fun p q => p.2.equal q.2 = false := by
  induction values with
  | nil => simp
  | cons p rest ih =>
    obtain ⟨hp, hrest⟩ := List.nodup_cons.1 hnames
    have hne : ∀ q ∈ rest, p.1 ≠ q.1 := fun q hq he =>
      hp (he ▸ List.mem_map_of_mem hq)
    have htail : ∀ q ∈ rest, FirstEqual q.2 (p :: rest) q.1 ↔
        p.2.equal q.2 = false ∧ FirstEqual q.2 rest q.1 := by
      intro q hq
      constructor
      · intro hfirst
        generalize hname : q.1 = name at hfirst
        cases hfirst with
        | here => exact absurd hname.symm (hne q hq)
        | later hpq hfirst => exact ⟨hpq, hfirst⟩
      · rintro ⟨hpq, hfirst⟩
        exact .later hpq hfirst
    rw [List.forall_mem_cons, List.pairwise_cons,
      ← ih hrest fun q hq => hself q (List.mem_cons_of_mem _ hq)]
    have hhead : FirstEqual p.2 (p :: rest) p.1 := .here (hself p List.mem_cons_self)
    rw [and_iff_right hhead, forall₂_congr htail]
    exact forall₂_and

/-! ## Reading and writing names -/

theorem parseName_of_firstEqual (hnames : (Keyed.keys e.values).Nodup)
    (hmem : (name, v) ∈ e.values) (hm : FirstEqual v e.values m) :
    e.parseName name = .ok (.enum e.c m) := by
  obtain ⟨w, hw⟩ := hm.find?
  rw [parseName, Keyed.get?_of_mem hnames hmem]
  dsimp only
  rw [hw]

theorem parseName_of_not_mem (hname : name ∉ Keyed.keys e.values) :
    e.parseName name = .error (.noEnumValue name e.name) := by
  rw [parseName, Keyed.get?_eq_none_iff.2 hname]

theorem serialize_member (e : EnumType) (m : String) : e.serialize (.enum e.c m) = .ok m := by
  simp [serialize]

/-- What is no member of the enumeration is written as the first value that equals it. -/
theorem serialize_of_firstEqual (hv : v.classRef.id ≠ e.c.id) (hm : FirstEqual v e.values m) :
    e.serialize v = .ok m := by
  obtain ⟨w, hw⟩ := hm.find?
  cases v with
  | enum c name =>
    have hsame : c.same e.c = false := by
      rw [← Bool.not_eq_true, ClassRef.same_iff]
      exact hv
    simp [serialize, hsame, hw]
  | null | bool | int | float | str | list | object | sealed => simp [serialize, hw]

/-- Reading a name and writing what it stands for gives the name of the first equal value. -/
theorem serialize_of_parseName (hnames : (Keyed.keys e.values).Nodup)
    (hmem : (name, v) ∈ e.values) (hm : FirstEqual v e.values m) :
    (e.parseName name >>= e.serialize) = .ok m := by
  rw [parseName_of_firstEqual hnames hmem hm]
  exact serialize_member e m

/-- The name of a value that equals itself is read, in whichever way it is given, as the member of the
first variant with an equal value, and both this member and the value are written as that variant.
Names come back for themselves just when no two values are equal.  Other names and what is no name
are refused. -/
theorem names_round_trip (hh : h.VariantsOlder) (he : e.IsOf h) :
    (∀ name v, (name, v) ∈ e.values → v.equal v = true → ∃ m, FirstEqual v e.values m ∧
      h.variant e.c m = some (.enum e.c m) ∧
      e.parseValue (.str name) = .ok (.enum e.c m) ∧
      e.parseLiteral (.enum name) = .ok (.enum e.c m) ∧
      e.parseLiteral (.str name) = .ok (.enum e.c m) ∧
      e.serialize (.enum e.c m) = .ok m ∧ e.serialize v = .ok m) ∧
    ((∀ p ∈ e.values, p.2.equal p.2 = true) →
      ((∀ p ∈ e.values, (e.parseValue (.str p.1) >>= e.serialize) = .ok p.1) ↔
        ∀ p ∈ e.values, ∀ q ∈ e.values, p.1 ≠ q.1 → p.2.equal q.2 = false)) ∧
    (∀ name, name ∉ Keyed.keys e.values →
      e.parseValue (.str name) = .error (.noEnumValue name e.name) ∧
      e.parseLiteral (.enum name) = .error (.noEnumValue name e.name) ∧
      e.parseLiteral (.str name) = .error (.noEnumValue name e.name)) ∧
    (∀ w, (∀ name, w ≠ .str name) → e.parseValue w = .error (.enumFromWire e.name w.text)) ∧
    ∀ l, (∀ name, l ≠ .enum name ∧ l ≠ .str name) →
      e.parseLiteral l = .error (.enumFromLiteral e.name l.text) := by
  obtain ⟨hnames, holder⟩ := hh.variants e.c
  rw [← he] at hnames holder
  refine ⟨fun name v hmem hv => ?_, fun hself => ?_, fun name hname => ?_, fun w hw => ?_,
    fun l hl => ?_⟩
  · obtain ⟨m, hm⟩ := exists_firstEqual hmem hv
    have hparse := parseName_of_firstEqual hnames hmem hm
    have hvariant : h.variant e.c m = some (.enum e.c m) := by
      rw [Hierarchy.variant, ← he, if_pos ((Keyed.contains_iff_mem_keys _ _).2 hm.mem_keys)]
    exact ⟨m, hm, hvariant, hparse, hparse, hparse, serialize_member e m,
      serialize_of_firstEqual (Nat.ne_of_lt (holder _ hmem)) hm⟩
  · have hcomes : ∀ p ∈ e.values, (e.parseValue (.str p.1) >>= e.serialize) = .ok p.1 ↔
        FirstEqual p.2 e.values p.1 := by
      intro p hp
      obtain ⟨m, hm⟩ := exists_firstEqual hp (hself p hp)
      have hserialize : (e.parseValue (.str p.1) >>= e.serialize) = .ok m :=
        serialize_of_parseName hnames hp hm
      rw [hserialize]
      constructor
      · rintro ⟨⟩
        exact hm
      · exact fun hp' => congrArg Except.ok (hm.unique hp')
    rw [forall₂_congr hcomes, forall_firstEqual_iff hnames hself]
    constructor
    · intro hpair p hp q hq hpq
      have : Std.Symm fun p q : String × Value => p.2.equal q.2 = false :=
        ⟨fun p q h => by rw [Value.equal_comm, h]⟩
      exact hpair.forall hp hq fun heq => hpq (congrArg Prod.fst heq)
    · intro hunequal
      refine (List.pairwise_map.1 hnames).imp_of_mem fun {p q} hp hq hpq => ?_
      exact hunequal p hp q hq hpq
  · have hparse := parseName_of_not_mem hname
    exact ⟨hparse, hparse, hparse⟩
  · cases w with
    | str name => exact absurd rfl (hw name)
    | null | bool | number | list | object => rfl
  · cases l with
    | enum name => exact absurd rfl (hl name).1
    | str name => exact absurd rfl (hl name).2
    | null | bool | number | binary | list | object => rfl

end EnumType

/-! ## Nodes of enumerations -/

/-- The enumerations among the types of a schema that describes the classes have their variants. -/
theorem Schema.Describes.isOf {s : Schema} {h : Hierarchy} (hs : s.Describes h) {n : NodeRef}
    {c : ClassRef} {values : List (String × Value)} (hn : n ∈ s.types)
    (hbody : s.body n = .enum c values) : (EnumType.mk n.name c values).IsOf h :=
  hs.enums n hn c values hbody

/-- So have those that were made so far at any time of a build. -/
theorem BuildEnv.WellFormed.isOf_of_reachable {env : BuildEnv} {aliases : AliasTable} {g : Graph}
    (hw : env.WellFormed aliases) (hg : env.Reachable aliases g) {i : Nat} {node : Node}
    {c : ClassRef} {values : List (String × Value)} (hn : g.nodes[i]? = some node)
    (hbody : node.body = .enum c values) :
    (EnumType.mk node.name c values).IsOf env.hierarchy :=
  BuildEnv.values_of_node (hw.valid_of_reachable hg) hn hbody

namespace Sample

def coin : ClassRef := ⟨6, "Coin"⟩

/-- Coins, two of which have equal values. -/
def coins : Hierarchy :=
  Hierarchy.builtin.declare
    { (((ClassDef.named "Coin").addVariant "ONE" (.int 1)).addVariant "UNIT"
        (.float (.ofInt 1))).addVariant "TWO" (.int 2) with
      capabilities := { enumeration := true } }

theorem variantsOlder_coins : coins.VariantsOlder := by
  refine Hierarchy.variantsOlder_builtin.declare ?_ (by decide)
  have hnone : (Keyed.keys (ClassDef.named "Coin").variants).Nodup := List.nodup_nil
  exact ClassDef.nodup_addVariant (ClassDef.nodup_addVariant (ClassDef.nodup_addVariant hnone))

def coinType : EnumType := ⟨"Coin", coin, coins.variants coin⟩

/-- A unit is the coin of value one, as which its value is written too. -/
theorem names_round_trip_unit :
    coinType.parseValue (.str "UNIT") = .ok (.enum coin "ONE") ∧
      coinType.serialize (.float (.ofInt 1)) = .ok "ONE" := by
  have hself : (Value.float (.ofInt 1)).equal (.float (.ofInt 1)) = true := by decide +kernel
  have hfirst : EnumType.FirstEqual (.float (.ofInt 1)) coinType.values "ONE" :=
    .here (p := ("ONE", .int 1)) (by decide +kernel)
  obtain ⟨m, hm, -, hparse, -, -, -, hserialize⟩ :=
    (EnumType.names_round_trip (e := coinType) variantsOlder_coins rfl).1 "UNIT" _
      (List.mem_cons_of_mem _ List.mem_cons_self) hself
  obtain rfl := hm.unique hfirst
  exact ⟨hparse, hserialize⟩

end Sample

end HintSchema
