import HintSchema.Proofs.Outcome
import HintSchema.Schema.Closure

/-!
# Courses without a bound

`BuildEnv.building` gives what a build does when its loops have no bound: rounds of realizing go on
until no node lacks a part (`BuildEnv.realizingAll`), rounds of discovery until no interface waits to
be crawled (`BuildEnv.discovering`), and a walk until its stack is empty (`Schema.Walks`).  A course
lists the nodes it realizes.  There is one at most (`building_unique`), and none where a loop does
not end.
-/

namespace HintSchema

/-- What may be done from a graph: the ids of the nodes that are realized, and the outcome. -/
abbrev Course (α : Type) := Graph → List Nat → Except SchemaError α × Graph → Prop

namespace Course

variable {α β ω : Type}

/-- A step without loops, which realizes no node. -/
def of (m : Build α) : Course α := fun g ids r => ids = [] ∧ m.exec g = r

/-- A course and then another one, unless the first fails. -/
inductive Then (m : Course α) (f : α → Course β) : Graph → List Nat → Except SchemaError β × Graph → Prop
  | failed {g g' : Graph} {ids : List Nat} {e : SchemaError} :
      m g ids (.error e, g') → Then m f g ids (.error e, g')
  | next {g g' : Graph} {ids ids' : List Nat} {a : α} {r : Except SchemaError β × Graph} :
      m g ids (.ok a, g') → f a g' ids' r → Then m f g (ids ++ ids') r

/-- Rounds over what there is to do, until there is nothing or a round fails. -/
inductive Loop (todo : Graph → List ω) (round : List ω → α → Course α) :
    α → Graph → List Nat → Except SchemaError α × Graph → Prop
  | done {a : α} {g : Graph} : todo g = [] → Loop todo round a g [] (.ok a, g)
  | failed {a : α} {g g' : Graph} {ids : List Nat} {e : SchemaError} :
      todo g ≠ [] → round (todo g) a g ids (.error e, g') → Loop todo round a g ids (.error e, g')
  | next {a b : α} {g g' : Graph} {ids ids' : List Nat} {r : Except SchemaError α × Graph} :
      todo g ≠ [] → round (todo g) a g ids (.ok b, g') → Loop todo round b g' ids' r →
      Loop todo round a g (ids ++ ids') r

end Course

/-- The outcome of walking the types on a stack and what they mention. -/
inductive Schema.Walks (nodes : Array Node) : List NodeRef → List (String × NodeRef) →
    Except SchemaError (List (String × NodeRef)) → Prop
  | done {typeMap : List (String × NodeRef)} : Walks nodes [] typeMap (.ok typeMap)
  | skip {n seen : NodeRef} {stack : List NodeRef} {typeMap : List (String × NodeRef)}
      {r : Except SchemaError (List (String × NodeRef))} :
      Keyed.get? typeMap n.name = some seen → seen.id = n.id → Walks nodes stack typeMap r →
      Walks nodes (n :: stack) typeMap r
  | conflict {n seen : NodeRef} {stack : List NodeRef} {typeMap : List (String × NodeRef)} :
      Keyed.get? typeMap n.name = some seen → seen.id ≠ n.id →
      Walks nodes (n :: stack) typeMap (.error (.conflictingTypeName n.name))
  | visit {n : NodeRef} {stack : List NodeRef} {typeMap : List (String × NodeRef)}
      {r : Except SchemaError (List (String × NodeRef))} :
      Keyed.get? typeMap n.name = none →
      Walks nodes (referencesOf nodes n ++ stack) (typeMap ++ [(n.name, n)]) r →
      Walks nodes (n :: stack) typeMap r

namespace BuildEnv

/-- Realizing some nodes, one after the other. -/
def realizing (env : BuildEnv) (ids : List Nat) : Course Unit :=
  fun g ids' r => ids' = ids ∧ (ids.forM env.realize).exec g = r

/-- Rounds of realizing until no node lacks a part. -/
def realizingAll (env : BuildEnv) (visit : List Nat → List Nat) : Course Unit :=
  Course.Loop Graph.pending (fun ids _ => env.realizing (visit ids)) ()

/-- Rounds of including subclasses, until no interface met waits for it. -/
def discovering (env : BuildEnv) (visit : List Nat → List Nat) (extra : List NodeRef) :
    Course (List NodeRef) :=
  Course.Loop env.uncrawled (fun cs extra =>
    Course.Then (.of (cs.foldlM env.crawl extra)) fun extra =>
      Course.Then (env.realizingAll visit) fun _ => .of (pure extra)) extra

/-- Closing a schema over some types of the graph. -/
def closing (query : NodeRef) (mutation : Option NodeRef) (extra : List NodeRef) : Course Schema :=
  fun g ids r => ids = [] ∧ ∃ typeMap,
    Schema.Walks g.nodes (query :: (mutation.toList ++ extra)) [] typeMap ∧
      r = (typeMap.map fun typeMap => ⟨g.nodes, query, mutation, extra, typeMap⟩, g)

/-- Building the schema of root classes. -/
def building (env : BuildEnv) (visit : List Nat → List Nat) (query : ClassRef)
    (mutation : Option ClassRef) : Course Schema :=
  Course.Then (.of (env.translateRoot "query" query)) fun queryNode =>
    Course.Then (.of (mutation.mapM (env.translateRoot "mutation"))) fun mutationNode =>
      Course.Then (env.realizingAll visit) fun _ =>
        Course.Then (env.discovering visit []) fun extra => closing queryNode mutationNode extra

end BuildEnv

/-! ## One outcome -/

namespace Course

variable {α β ω : Type}

/-- From each graph there is one way to go at most. -/
def Unique (m : Course α) : Prop :=
  ∀ g ids r ids' r', m g ids r → m g ids' r' → ids = ids' ∧ r = r'

theorem unique_of (m : Build α) : Unique (of m) := by
  rintro g ids r ids' r' ⟨rfl, rfl⟩ ⟨rfl, rfl⟩
  exact ⟨rfl, rfl⟩

theorem Unique.next {m : Course α} {f : α → Course β} (hm : Unique m) (hf : ∀ a, Unique (f a)) :
    Unique (Then m f) := by
  intro g ids r ids' r' h h'
  cases h with
  | failed h =>
    cases h' with
    | failed h' =>
      obtain ⟨rfl, he⟩ := hm _ _ _ _ _ h h'
      cases he
      exact ⟨rfl, rfl⟩
    | next h' => cases (hm _ _ _ _ _ h h').2
  | next h hrest =>
    cases h' with
    | failed h' => cases (hm _ _ _ _ _ h h').2
    | next h' hrest' =>
      obtain ⟨rfl, he⟩ := hm _ _ _ _ _ h h'
      cases he
      obtain ⟨rfl, rfl⟩ := hf _ _ _ _ _ _ hrest hrest'
      exact ⟨rfl, rfl⟩

theorem unique_loop {todo : Graph → List ω} {round : List ω → α → Course α}
    (hround : ∀ items a, Unique (round items a)) (a : α) : Unique (Loop todo round a) := by
  intro g ids r ids' r' h
  induction h generalizing ids' r' with
  | done hdone =>
    intro h'
    cases h' with
    | done => exact ⟨rfl, rfl⟩
    | failed htodo | next htodo => exact absurd hdone htodo
  | failed htodo h =>
    intro h'
    cases h' with
    | done hdone => exact absurd hdone htodo
    | failed _ h' =>
      obtain ⟨rfl, he⟩ := hround _ _ _ _ _ _ _ h h'
      cases he
      exact ⟨rfl, rfl⟩
    | next _ h' => cases (hround _ _ _ _ _ _ _ h h').2
  | next htodo h _ ih =>
    intro h'
    cases h' with
    | done hdone => exact absurd hdone htodo
    | failed _ h' => cases (hround _ _ _ _ _ _ _ h h').2
    | next _ h' hrest' =>
      obtain ⟨rfl, he⟩ := hround _ _ _ _ _ _ _ h h'
      cases he
      obtain ⟨rfl, rfl⟩ := ih _ _ hrest'
      exact ⟨rfl, rfl⟩

end Course

theorem Schema.Walks.unique {nodes : Array Node} {stack : List NodeRef}
    {typeMap : List (String × NodeRef)} {r r' : Except SchemaError (List (String × NodeRef))}
    (h : Walks nodes stack typeMap r) (h' : Walks nodes stack typeMap r') : r = r' := by
  induction h with
  | done =>
    cases h'
    rfl
  | skip hseen hid _ ih =>
    cases h' with
    | skip _ _ h' => exact ih h'
    | conflict hseen' hid' =>
      cases hseen.symm.trans hseen'
      exact absurd hid hid'
    | visit hnew => cases hseen.symm.trans hnew
  | conflict hseen hid =>
    cases h' with
    | skip hseen' hid' =>
      cases hseen.symm.trans hseen'
      exact absurd hid' hid
    | conflict => rfl
    | visit hnew => cases hseen.symm.trans hnew
  | visit hnew _ ih =>
    cases h' with
    | skip hseen | conflict hseen => cases hseen.symm.trans hnew
    | visit _ h' => exact ih h'

namespace BuildEnv

variable {env : BuildEnv} {visit : List Nat → List Nat}

theorem realizingAll_unique : Course.Unique (env.realizingAll visit) := by
  refine Course.unique_loop (fun items _ => ?_) ()
  rintro g ids r ids' r' ⟨rfl, rfl⟩ ⟨rfl, rfl⟩
  exact ⟨rfl, rfl⟩

theorem discovering_unique (extra : List NodeRef) : Course.Unique (env.discovering visit extra) :=
  Course.unique_loop (fun _ _ => (Course.unique_of _).next fun _ =>
    realizingAll_unique.next fun _ => Course.unique_of _) extra

theorem closing_unique (query : NodeRef) (mutation : Option NodeRef) (extra : List NodeRef) :
    Course.Unique (closing query mutation extra) := by
  rintro g ids r ids' r' ⟨rfl, typeMap, hwalk, rfl⟩ ⟨rfl, typeMap', hwalk', rfl⟩
  rw [hwalk.unique hwalk']
  exact ⟨rfl, rfl⟩

/-- A build goes one way at most, whether it fails or not. -/
theorem building_unique (query : ClassRef) (mutation : Option ClassRef) :
    Course.Unique (env.building visit query mutation) :=
  (Course.unique_of _).next fun _ => (Course.unique_of _).next fun _ => realizingAll_unique.next fun _ =>
    (discovering_unique []).next fun extra => closing_unique _ _ extra

end BuildEnv

end HintSchema
