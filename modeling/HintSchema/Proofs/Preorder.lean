import HintSchema.Proofs.Termination

/-!
# The order of a type map

`Schema.InPreorder` lists, by recursion, some types and all that they mention: depth first, each
type before what it mentions and where it is met first.  Over any linked graph, cyclic or not, a
walk with its explicit stack ends, finds a conflict exactly where two types of one name can be
reached, and otherwise makes the type map in that order (`close_in_preorder`).
-/

namespace HintSchema

variable {g : Graph} {nodes : Array Node} {roots seen todo found : List NodeRef} {n : NodeRef}

/-- What a type mentions, in the order of its parts: fields, each followed by its arguments, and then
interfaces; or the fields of an input type; or the members of a union. -/
def NodeBody.mentions : NodeBody → List NodeRef
  | .object _ fields interfaces => fieldReferences (fields.getD []) ++ interfaces.getD []
  | .interface _ fields => fieldReferences (fields.getD [])
  | .input _ fields => (fields.getD []).map fun (_, t) => t.node
  | .union _ members => members.getD []
  | .enum .. | .scalar _ => []

theorem NodeBody.references_eq_mentions (b : NodeBody) : b.references = b.mentions := by
  cases b <;> simp [references, mentions, fields, interfaces, inputFields, members, fieldReferences]

/-- All that the nodes of a graph mention are nodes of the graph. -/
def Graph.Linked (g : Graph) : Prop :=
  ∀ (i : Nat) (node : Node), g.nodes[i]? = some node → ∀ m ∈ node.body.mentions, g.Refers m

namespace Schema

/-- What the node with a type's number mentions. -/
def mentionsOf (nodes : Array Node) (n : NodeRef) : List NodeRef :=
  match nodes[n.id]? with
  | some node => node.body.mentions
  | none => []

theorem referencesOf_eq_mentionsOf (nodes : Array Node) (n : NodeRef) :
    referencesOf nodes n = mentionsOf nodes n := by
  unfold referencesOf mentionsOf
  cases nodes[n.id]? with
  | none => rfl
  | some node => exact node.body.references_eq_mentions

theorem refers_of_mem_referencesOf (hlinked : g.Linked) (n : NodeRef) :
    ∀ m ∈ referencesOf g.nodes n, g.Refers m := by
  intro m hm
  rw [referencesOf_eq_mentionsOf, mentionsOf] at hm
  cases hnode : g.nodes[n.id]? with
  | none =>
    rw [hnode] at hm
    cases hm
  | some node =>
    rw [hnode] at hm
    exact hlinked _ node hnode m hm

/-- The types that can be reached from some types through what types mention. -/
inductive Reaches (nodes : Array Node) (roots : List NodeRef) : NodeRef → Prop
  | root {n : NodeRef} : n ∈ roots → Reaches nodes roots n
  | mention {m n : NodeRef} :
      Reaches nodes roots n → m ∈ mentionsOf nodes n → Reaches nodes roots m

/-- Two nodes of one name can be reached from some types. -/
def Clash (nodes : Array Node) (roots : List NodeRef) : Prop :=
  ∃ m n, Reaches nodes roots m ∧ Reaches nodes roots n ∧ m.id ≠ n.id ∧ m.name = n.name

/-! ## Preorder -/

/-- The types to do, and all that they mention, in depth-first preorder and without those seen
before: a new type, then what it mentions, then the rest. -/
inductive InPreorder (nodes : Array Node) : List NodeRef → List NodeRef → List NodeRef → Prop
  | done {seen : List NodeRef} : InPreorder nodes seen [] []
  | again {n : NodeRef} {seen todo found : List NodeRef} :
      n ∈ seen → InPreorder nodes seen todo found → InPreorder nodes seen (n :: todo) found
  | first {n : NodeRef} {seen todo below after : List NodeRef} :
      n ∉ seen → InPreorder nodes (seen ++ [n]) (mentionsOf nodes n) below →
      InPreorder nodes (seen ++ n :: below) todo after →
      InPreorder nodes seen (n :: todo) (n :: below ++ after)

/-- There is one preorder at most. -/
theorem InPreorder.unique {found' : List NodeRef} (h : InPreorder nodes seen todo found)
    (h' : InPreorder nodes seen todo found') : found = found' := by
  induction h generalizing found' with
  | done =>
    cases h'
    rfl
  | again hmem _ ih =>
    cases h' with
    | again _ h' => exact ih h'
    | first hnew => exact absurd hmem hnew
  | first hnew _ _ ihbelow ihafter =>
    cases h' with
    | again hmem => exact absurd hmem hnew
    | first _ hbelow hafter =>
      obtain rfl := ihbelow hbelow
      rw [ihafter hafter]

/-- What is to do may be done in two parts. -/
theorem InPreorder.of_append {xs ys : List NodeRef} (h : InPreorder nodes seen (xs ++ ys) found) :
    ∃ front back, found = front ++ back ∧ InPreorder nodes seen xs front ∧
      InPreorder nodes (seen ++ front) ys back := by
  generalize htodo : xs ++ ys = todo at h
  induction h generalizing xs with
  | done =>
    obtain ⟨rfl, rfl⟩ := List.append_eq_nil_iff.1 htodo
    exact ⟨[], [], rfl, .done, .done⟩
  | @again n seen todo found hmem hrest ih =>
    cases xs with
    | nil =>
      obtain rfl : ys = n :: todo := htodo
      refine ⟨[], found, rfl, .done, ?_⟩
      rw [List.append_nil]
      exact .again hmem hrest
    | cons m xs =>
      obtain ⟨rfl, hxs⟩ := List.cons.inj htodo
      obtain ⟨front, back, rfl, hfront, hback⟩ := ih hxs
      exact ⟨front, back, rfl, .again hmem hfront, hback⟩
  | @first n seen todo below after hnew hbelow hafter _ ih =>
    cases xs with
    | nil =>
      obtain rfl : ys = n :: todo := htodo
      refine ⟨[], n :: below ++ after, rfl, .done, ?_⟩
      rw [List.append_nil]
      exact .first hnew hbelow hafter
    | cons m xs =>
      obtain ⟨rfl, hxs⟩ := List.cons.inj htodo
      obtain ⟨front, back, rfl, hfront, hback⟩ := ih hxs
      refine ⟨m :: below ++ front, back, (List.append_assoc ..).symm,
        .first hnew hbelow hfront, ?_⟩
      rwa [List.append_assoc] at hback

/-! ## Walks -/

section Walks

variable {stack : List NodeRef} {typeMap result : List (String × NodeRef)}
  {r : Except SchemaError (List (String × NodeRef))}

/-- A listed name tells which node is met. -/
theorem Names.mem_values {m : NodeRef} (hnames : Names g typeMap) (hn : g.Refers n)
    (hseen : Keyed.get? typeMap n.name = some m) (hid : m.id = n.id) :
    n ∈ Keyed.values typeMap := by
  have hmem := Keyed.mem_of_get? hseen
  have heq : m = n := (hnames.refers _ hmem).eq_of_id hn hid
  exact heq ▸ List.mem_map_of_mem hmem

/-- A node whose name is new is not listed. -/
theorem Names.not_mem_values (hnames : Names g typeMap)
    (hnew : Keyed.get? typeMap n.name = none) : n ∉ Keyed.values typeMap := by
  intro hmem
  obtain ⟨p, hp, rfl⟩ := List.mem_map.1 hmem
  exact Keyed.get?_eq_none_iff.1 hnew (List.mem_map.2 ⟨p, hp, hnames.named p hp⟩)

theorem values_append (typeMap : List (String × NodeRef)) (n : NodeRef) :
    Keyed.values (typeMap ++ [(n.name, n)]) = Keyed.values typeMap ++ [n] := by
  simp [Keyed.values]

/-- What a walk adds to a type map, it adds in preorder. -/
theorem Walks.inPreorder (hlinked : g.Linked) (hstack : ∀ n ∈ stack, g.Refers n)
    (hnames : Names g typeMap) (h : Walks g.nodes stack typeMap r) (hr : r = .ok result) :
    ∃ found, Keyed.values result = Keyed.values typeMap ++ found ∧
      InPreorder g.nodes (Keyed.values typeMap) stack found := by
  induction h with
  | done =>
    cases hr
    exact ⟨[], (List.append_nil _).symm, .done⟩
  | skip hseen hid _ ih =>
    obtain ⟨found, hvalues, hfound⟩ :=
      ih (fun m hm => hstack m (List.mem_cons_of_mem _ hm)) hnames hr
    have hn := hstack _ List.mem_cons_self
    exact ⟨found, hvalues, .again (hnames.mem_values hn hseen hid) hfound⟩
  | conflict => cases hr
  | @visit n stack typeMap r hnew _ ih =>
    have hn := hstack n List.mem_cons_self
    have hnext : ∀ m ∈ referencesOf g.nodes n ++ stack, g.Refers m := by
      intro m hm
      rcases List.mem_append.1 hm with hm | hm
      · exact refers_of_mem_referencesOf hlinked n m hm
      · exact hstack m (List.mem_cons_of_mem _ hm)
    obtain ⟨found, hvalues, hfound⟩ := ih hnext (hnames.append hn hnew) hr
    rw [values_append] at hvalues hfound
    rw [referencesOf_eq_mentionsOf] at hfound
    -- the explicit stack holds what `n` mentions in front of what was to do already
    obtain ⟨below, after, rfl, hbelow, hafter⟩ := hfound.of_append
    refine ⟨n :: below ++ after, by simp [hvalues], ?_⟩
    rw [List.append_assoc] at hafter
    exact .first (hnames.not_mem_values hnew) hbelow hafter

/-- A walk fails only with a conflict, and only where two types of one name can be reached. -/
theorem Walks.clash_of_error {e : SchemaError} (h : Walks nodes stack typeMap r)
    (hstack : ∀ n ∈ stack, Reaches nodes roots n)
    (hlisted : ∀ p ∈ typeMap, p.1 = p.2.name ∧ Reaches nodes roots p.2) (hr : r = .error e) :
    Clash nodes roots ∧ ∃ name, e = .conflictingTypeName name := by
  induction h with
  | done => cases hr
  | skip _ _ _ ih => exact ih (fun m hm => hstack m (List.mem_cons_of_mem _ hm)) hlisted hr
  | @conflict n m _ _ hseen hid =>
    cases hr
    obtain ⟨hname, hm⟩ := hlisted _ (Keyed.mem_of_get? hseen)
    exact ⟨⟨m, n, hm, hstack n List.mem_cons_self, hid, hname.symm⟩, n.name, rfl⟩
  | @visit n stack typeMap r _ _ ih =>
    have hn := hstack n List.mem_cons_self
    refine ih (fun m hm => ?_) (fun p hp => ?_) hr
    · rcases List.mem_append.1 hm with hm | hm
      · exact .mention hn (referencesOf_eq_mentionsOf nodes n ▸ hm)
      · exact hstack m (List.mem_cons_of_mem _ hm)
    · rcases List.mem_append.1 hp with hp | hp
      · exact hlisted p hp
      · rw [List.mem_singleton.1 hp]
        exact ⟨rfl, hn⟩

end Walks

/-! ## Closing -/

/-- A schema lists the types that can be reached from some types, each once and under its own name, in
preorder; so all that a listed type mentions is found under its name. -/
structure ListsInPreorder (nodes : Array Node) (roots : List NodeRef) (s : Schema) : Prop where
  typeMap : s.typeMap = s.types.map fun n => (n.name, n)
  nodup : s.types.Nodup
  mem_iff : ∀ n, n ∈ s.types ↔ Reaches nodes roots n
  preorder : ∀ found, InPreorder nodes [] roots found ↔ found = s.types
  mentioned : ∀ n ∈ s.types, ∀ m ∈ mentionsOf nodes n, s.type? m.name = some m

/-- The types of a closed schema are those that can be reached. -/
theorem Closes.mem_types_iff {s : Schema} (h : Closes g roots s) :
    n ∈ s.types ↔ Reaches g.nodes roots n := by
  refine ⟨h.least _ (fun m hm => .root hm) (fun n hn m hm => ?_) n, fun hn => ?_⟩
  · exact .mention hn (referencesOf_eq_mentionsOf g.nodes n ▸ hm)
  · induction hn with
    | root hn => exact h.sub _ hn
    | @mention m n _ hm ih => exact h.closed n ih m (referencesOf_eq_mentionsOf g.nodes n ▸ hm)

theorem Closes.typeMap_eq {s : Schema} (h : Closes g roots s) :
    s.typeMap = s.types.map fun n => (n.name, n) := by
  rw [types, Keyed.values, List.map_map]
  refine (List.map_congr_left fun p hp => ?_).trans (List.map_id _) |>.symm
  exact Prod.ext (h.names.named p hp).symm rfl

theorem Closes.nodup_types {s : Schema} (h : Closes g roots s) : s.types.Nodup := by
  have hnodup := h.names.nodup
  rw [h.typeMap_eq, Keyed.keys, List.map_map] at hnodup
  exact hnodup.of_map _

theorem Closes.type?_eq {s : Schema} (h : Closes g roots s) (hn : n ∈ s.types) :
    s.type? n.name = some n := by
  refine Keyed.get?_of_mem h.names.nodup ?_
  rw [h.typeMap_eq]
  exact List.mem_map.2 ⟨n, hn, rfl⟩

/-- A closed schema whose types are in preorder lists them so. -/
theorem Closes.listsInPreorder {s : Schema} (h : Closes g roots s)
    (hpre : InPreorder g.nodes [] roots s.types) : ListsInPreorder g.nodes roots s where
  typeMap := h.typeMap_eq
  nodup := h.nodup_types
  mem_iff _ := h.mem_types_iff
  preorder _ := ⟨fun h' => h'.unique hpre, fun heq => heq ▸ hpre⟩
  mentioned n hn m hm :=
    h.type?_eq (h.closed n hn m ((referencesOf_eq_mentionsOf g.nodes n).symm ▸ hm))

/-- A closed schema has no two types of one name. -/
theorem Closes.not_clash {s : Schema} (h : Closes g roots s) : ¬ Clash g.nodes roots := by
  rintro ⟨m, n, hm, hn, hid, hname⟩
  have heq := h.names.eq_of_name (h.mem_types_iff.2 hm) (h.mem_types_iff.2 hn) hname
  exact hid (congrArg NodeRef.id heq)

/-- Closing a schema over any linked graph ends, with the one outcome of the walk that no fuel bounds.
It gives a conflict if and only if two nodes of one name can be reached from the roots and the
further types; otherwise the type map lists what can be reached, once each, in preorder. -/
theorem close_in_preorder {query : NodeRef} {mutation : Option NodeRef} {extra : List NodeRef}
    (hlinked : g.Linked) (hroots : ∀ n ∈ query :: (mutation.toList ++ extra), g.Refers n) :
    (∃ r, (∀ r', Walks g.nodes (query :: (mutation.toList ++ extra)) [] r' ↔ r' = r) ∧
      close g.nodes query mutation extra =
        r.map fun typeMap => ⟨g.nodes, query, mutation, extra, typeMap⟩) ∧
    ((∃ name, close g.nodes query mutation extra = .error (.conflictingTypeName name)) ↔
      Clash g.nodes (query :: (mutation.toList ++ extra))) ∧
    (¬ Clash g.nodes (query :: (mutation.toList ++ extra)) →
      ∃ s, close g.nodes query mutation extra = .ok s ∧
        ListsInPreorder g.nodes (query :: (mutation.toList ++ extra)) s) := by
  have hrefs := refers_of_mem_referencesOf hlinked
  have hnil : Names g [] := ⟨by simp, by simp, by simp [Keyed.keys]⟩
  have hwalks := walks_walk hrefs hroots hnil (lt_walkBound g.nodes _)
  have hspec := fun s => close_spec (s := s) hrefs hroots
  have hclose : close g.nodes query mutation extra =
      (walk g.nodes (walkBound g.nodes (query :: (mutation.toList ++ extra)))
        (query :: (mutation.toList ++ extra)) []).map
        fun typeMap => ⟨g.nodes, query, mutation, extra, typeMap⟩ := by
    rw [close]
    generalize walk _ _ _ _ = r
    cases r <;> rfl
  rw [hclose] at hspec ⊢
  generalize walk _ _ _ _ = r at hwalks hspec ⊢
  refine ⟨⟨r, fun r' => ⟨fun h => h.unique hwalks, fun h => h ▸ hwalks⟩, rfl⟩, ?_⟩
  cases r with
  | error e =>
    obtain ⟨hclash, name, rfl⟩ := hwalks.clash_of_error (fun n hn => .root hn) (by simp) rfl
    exact ⟨⟨fun _ => hclash, fun _ => ⟨name, rfl⟩⟩, fun hno => absurd hclash hno⟩
  | ok typeMap =>
    obtain ⟨-, -, -, hcloses⟩ := hspec _ rfl
    obtain ⟨found, hvalues, hfound⟩ := hwalks.inPreorder hlinked hroots hnil rfl
    obtain rfl : Keyed.values typeMap = found := hvalues
    refine ⟨⟨?_, fun hclash => absurd hclash hcloses.not_clash⟩,
      fun _ => ⟨_, rfl, hcloses.listsInPreorder hfound⟩⟩
    rintro ⟨name, h⟩
    cases h

end Schema

namespace Sample

/-- A field that is looked up as an attribute. -/
def plainField (name : String) (type : TypeRef) (args : List (String × ArgumentDef)) : FieldDef :=
  ⟨name, none, type, args, .attribute, .attribute name⟩

def person : NodeRef := ⟨0, .object, "Person"⟩

def named : NodeRef := ⟨1, .interface, "Named"⟩

def filter : NodeRef := ⟨2, .input, "Filter"⟩

/-- Persons with friends, who are found with filters made of filters, and the interface of persons,
which leads back to them. -/
def friends : Graph where
  nodes := #[
    ⟨"Person", none, .object ⟨6, "Person"⟩
      (some [("friends", plainField "friends" (.list (.named person))
        [("by", ⟨"by", .named filter, none⟩)])])
      (some [named])⟩,
    ⟨"Named", none, .interface ⟨7, "Named"⟩
      (some [("holder", plainField "holder" (.named person) [])])⟩,
    ⟨"Filter", none, .input ⟨8, "Filter"⟩
      (some [("both", .list (.nonNull (.named filter)))])⟩]

theorem refers_friends : friends.Refers person ∧ friends.Refers named ∧ friends.Refers filter :=
  ⟨⟨_, rfl, rfl⟩, ⟨_, rfl, rfl⟩, ⟨_, rfl, rfl⟩⟩

theorem linked_friends : friends.Linked := by
  have hall : ∀ node ∈ friends.nodes.toList, ∀ m ∈ node.body.mentions,
      m ∈ [person, named, filter] := by decide
  intro i node hnode m hm
  have hmem := hall node (Array.mem_toList_iff.2 (Array.mem_of_getElem? hnode)) m hm
  obtain ⟨hperson, hnamed, hfilter⟩ := refers_friends
  simp only [List.mem_cons, List.not_mem_nil, or_false] at hmem
  rcases hmem with rfl | rfl | rfl <;> assumption

/-- What fields mention comes before the interfaces. -/
theorem close_in_preorder_friends :
    ∃ s, Schema.close friends.nodes person none [filter] = .ok s ∧
      Schema.ListsInPreorder friends.nodes [person, filter] s ∧
      s.types = [person, filter, named] := by
  have hroots : ∀ n ∈ person :: ((none : Option NodeRef).toList ++ [filter]), friends.Refers n := by
    simpa using ⟨refers_friends.1, refers_friends.2.2⟩
  obtain ⟨-, hclash, hok⟩ := Schema.close_in_preorder linked_friends hroots
  obtain ⟨s, hs, htypes⟩ : ∃ s, Schema.close friends.nodes person none [filter] = .ok s ∧
      decide (s.types = [person, filter, named]) = true :=
    exists_ok_of_any (by decide +kernel)
  refine ⟨s, hs, ?_, of_decide_eq_true htypes⟩
  obtain ⟨s', hs', hlists⟩ := hok fun hbad => by
    obtain ⟨name, hname⟩ := hclash.2 hbad
    cases hs.symm.trans hname
  cases hs.symm.trans hs'
  exact hlists

end Sample

end HintSchema
