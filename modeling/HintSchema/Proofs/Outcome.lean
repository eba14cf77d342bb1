import Mathlib.Data.List.Forall2
import Mathlib.Logic.Relation
import HintSchema.Schema.Graph

/-!
# Outcomes of computations

What a successful outcome says about the parts of a computation that may fail, about those of an
evaluation, and about those of a build step, which changes the graph besides (`Build.exec`).  `Build.Moves` says that a build step
changes the graph by steps of a relation only, whether it succeeds or fails.
-/

namespace HintSchema

open Relation

/-! ## Computations that may fail -/

section Fallible

variable {α β ε : Type}

theorem ok_of_bind {x : Except ε α} {f : α → Except ε β} {b : β} (h : (x >>= f) = .ok b) :
    ∃ a, x = .ok a ∧ f a = .ok b := by
  cases x with
  | error e => cases h
  | ok a => exact ⟨a, rfl, h⟩

theorem ok_of_map {x : Except ε α} {f : α → β} {b : β} (h : x.map f = .ok b) :
    ∃ a, x = .ok a ∧ b = f a := by
  cases x with
  | error e => cases h
  | ok a => exact ⟨a, rfl, (Except.ok.inj h).symm⟩

theorem ok_of_toOption {x : Except ε α} {a : α} (h : x.toOption = some a) : x = .ok a := by
  cases x with
  | error e => cases h
  | ok a' => exact congrArg Except.ok (Option.some.inj h)

theorem exists_ok_of_any {x : Except ε α} {p : α → Bool} (h : x.toOption.any p = true) :
    ∃ a, x = .ok a ∧ p a = true := by
  obtain ⟨a, ha, hp⟩ := (Option.any_eq_true p _).1 h
  exact ⟨a, ok_of_toOption ha, hp⟩

theorem exists_of_mem_filterMapM {f : α → Except ε (Option β)} {as : List α} {bs : List β} {b : β}
    (h : as.filterMapM f = .ok bs) (hb : b ∈ bs) : ∃ a ∈ as, f a = .ok (some b) := by
  induction as generalizing bs with
  | nil =>
    cases h
    cases hb
  | cons a rest ih =>
    rw [List.filterMapM_cons] at h
    obtain ⟨o, ho, h⟩ := ok_of_bind h
    have hrest : ∀ {bs'}, rest.filterMapM f = .ok bs' → b ∈ bs' → ∃ a' ∈ a :: rest,
        f a' = .ok (some b) := by
      intro bs' hbs' hb
      obtain ⟨a', ha', h⟩ := ih hbs' hb
      exact ⟨a', List.mem_cons_of_mem _ ha', h⟩
    cases o with
    | none => exact hrest h hb
    | some b' =>
      obtain ⟨bs', hbs', h⟩ := ok_of_bind h
      cases h
      rcases List.mem_cons.1 hb with rfl | hb
      · exact ⟨a, List.mem_cons_self, ho⟩
      · exact hrest hbs' hb

theorem forall₂_of_mapM {f : α → Except ε β} {as : List α} {bs : List β}
    (h : as.mapM f = .ok bs) : List.Forall₂ (fun a b => f a = .ok b) as bs := by
  induction as generalizing bs with
  | nil =>
    cases h
    exact .nil
  | cons a rest ih =>
    rw [List.mapM_cons] at h
    obtain ⟨b, hb, h⟩ := ok_of_bind h
    obtain ⟨bs', hbs', h⟩ := ok_of_bind h
    cases h
    exact .cons hb (ih hbs')

/-- Whatever a step of a successful `filterMapM` gives is among its results. -/
theorem exists_of_filterMapM {f : α → Except ε (Option β)} {as : List α} {bs : List β} {a : α}
    (h : as.filterMapM f = .ok bs) (ha : a ∈ as) : ∃ o, f a = .ok o ∧ ∀ b, o = some b → b ∈ bs := by
  induction as generalizing bs with
  | nil => cases ha
  | cons a' rest ih =>
    rw [List.filterMapM_cons] at h
    obtain ⟨o, ho, h⟩ := ok_of_bind h
    cases o with
    | none =>
      rcases List.mem_cons.1 ha with rfl | ha
      · exact ⟨none, ho, fun b hb => by cases hb⟩
      · exact ih h ha
    | some b =>
      obtain ⟨bs', hbs', h⟩ := ok_of_bind h
      cases h
      rcases List.mem_cons.1 ha with rfl | ha
      · exact ⟨some b, ho, fun b' hb' => Option.some.inj hb' ▸ List.mem_cons_self⟩
      · obtain ⟨o, ho', hmem⟩ := ih hbs' ha
        exact ⟨o, ho', fun b' hb' => List.mem_cons_of_mem _ (hmem b' hb')⟩

theorem sublist_of_filterMapM {γ : Type} {f : α → Except ε (Option β)} {k : α → γ} {k' : β → γ}
    {as : List α} {bs : List β} (h : as.filterMapM f = .ok bs)
    (hk : ∀ a b, f a = .ok (some b) → k' b = k a) : (bs.map k').Sublist (as.map k) := by
  induction as generalizing bs with
  | nil =>
    cases h
    exact .slnil
  | cons a rest ih =>
    rw [List.filterMapM_cons] at h
    obtain ⟨o, ho, h⟩ := ok_of_bind h
    cases o with
    | none => exact (ih h).cons _
    | some b =>
      obtain ⟨bs', hbs', h⟩ := ok_of_bind h
      cases h
      rw [List.map_cons, List.map_cons, hk a b ho]
      exact (ih hbs').cons_cons _

theorem mapM_filter {f : α → Except ε β} {p : α → Bool} {q : β → Bool} {as : List α} {bs : List β}
    (h : as.mapM f = .ok bs) (hq : ∀ a b, f a = .ok b → q b = p a) :
    (as.filter p).mapM f = .ok (bs.filter q) := by
  induction as generalizing bs with
  | nil =>
    cases h
    rfl
  | cons a rest ih =>
    rw [List.mapM_cons] at h
    obtain ⟨b, hb, h⟩ := ok_of_bind h
    obtain ⟨bs', hbs', h⟩ := ok_of_bind h
    cases h
    rw [List.filter_cons, List.filter_cons, hq a b hb]
    split_ifs
    · rw [List.mapM_cons, hb, ih hbs']
      rfl
    · exact ih hbs'

/-- A computation over a list fails at the first item that fails. -/
theorem mapM_eq_error_iff {f : α → Except ε β} {as : List α} {e : ε} :
    as.mapM f = .error e ↔ ∃ before a after, as = before ++ a :: after ∧
      (∀ x ∈ before, ∃ b, f x = .ok b) ∧ f a = .error e := by
  constructor
  · intro h
    induction as with
    | nil => cases h
    | cons a rest ih =>
      rw [List.mapM_cons] at h
      cases ha : f a with
      | error e' =>
        rw [ha] at h
        cases h
        exact ⟨[], a, rest, rfl, by simp, ha⟩
      | ok b =>
        have hrest : rest.mapM f = .error e := by
          rw [ha] at h
          cases hbs : rest.mapM f with
          | error e' =>
            rw [hbs] at h
            cases h
            rfl
          | ok bs =>
            rw [hbs] at h
            cases h
        obtain ⟨before, a', after, rfl, hbefore, ha'⟩ := ih hrest
        exact ⟨a :: before, a', after, rfl, List.forall_mem_cons.2 ⟨⟨b, ha⟩, hbefore⟩, ha'⟩
  · rintro ⟨before, a, after, rfl, hbefore, ha⟩
    induction before with
    | nil =>
      rw [List.nil_append, List.mapM_cons, ha]
      rfl
    | cons x before ih =>
      obtain ⟨⟨b, hb⟩, hbefore⟩ := List.forall_mem_cons.1 hbefore
      rw [List.cons_append, List.mapM_cons, hb]
      show (List.mapM f (before ++ a :: after) >>= _) = _
      rw [ih hbefore]
      rfl

theorem filterMapM_congr {f g : α → Except ε (Option β)} {as : List α} (h : ∀ a ∈ as, f a = g a) :
    as.filterMapM f = as.filterMapM g := by
  induction as with
  | nil => rfl
  | cons a rest ih =>
    obtain ⟨ha, hrest⟩ := List.forall_mem_cons.1 h
    rw [List.filterMapM_cons, List.filterMapM_cons, ha, ih hrest]

theorem exists_of_forall₂_exists {γ : Type} {R : α → β → Prop} {k : β → γ} {as : List α}
    {cs : List γ} (h : List.Forall₂ (fun a c => ∃ b, R a b ∧ c = k b) as cs) :
    ∃ bs, List.Forall₂ R as bs ∧ cs = bs.map k := by
  induction h with
  | nil => exact ⟨[], .nil, rfl⟩
  | cons hc _ ih =>
    obtain ⟨b, hb, rfl⟩ := hc
    obtain ⟨bs, hbs, rfl⟩ := ih
    exact ⟨b :: bs, .cons hb hbs, rfl⟩

theorem forall₂_of_zip {R : α → β → Prop} {as : List α} {bs : List β}
    (hlen : bs.length = as.length) (h : ∀ p ∈ as.zip bs, R p.1 p.2) : List.Forall₂ R as bs :=
  List.forall₂_iff_zip.2 ⟨hlen.symm, fun hp => h _ hp⟩

theorem exists_forall₂ {R : α → β → Prop} {as : List α} (h : ∀ a ∈ as, ∃ b, R a b) :
    ∃ bs, List.Forall₂ R as bs := by
  induction as with
  | nil => exact ⟨[], .nil⟩
  | cons a as ih =>
    obtain ⟨⟨b, hb⟩, hrest⟩ := List.forall_mem_cons.1 h
    obtain ⟨bs, hbs⟩ := ih hrest
    exact ⟨b :: bs, .cons hb hbs⟩

theorem exists_right_of_forall₂ {R : α → β → Prop} {as : List α} {bs : List β} {a : α}
    (h : List.Forall₂ R as bs) (ha : a ∈ as) : ∃ b ∈ bs, R a b := by
  induction h with
  | nil => cases ha
  | cons hR _ ih =>
    rcases List.mem_cons.1 ha with rfl | ha
    · exact ⟨_, List.mem_cons_self, hR⟩
    · obtain ⟨b, hb, hR'⟩ := ih ha
      exact ⟨b, List.mem_cons_of_mem _ hb, hR'⟩

theorem exists_left_of_forall₂ {R : α → β → Prop} {as : List α} {bs : List β} {b : β}
    (h : List.Forall₂ R as bs) (hb : b ∈ bs) : ∃ a ∈ as, R a b :=
  exists_right_of_forall₂ h.flip hb

theorem forall₂_of_common {γ : Type} {R : α → β → Prop} {S : α → γ → Prop} {T : β → γ → Prop}
    {as : List α} {bs : List β} {cs : List γ} (h : List.Forall₂ R as bs)
    (h' : List.Forall₂ S as cs) (hT : ∀ a ∈ as, ∀ {b c}, R a b → S a c → T b c) :
    List.Forall₂ T bs cs := by
  induction h generalizing cs with
  | nil =>
    cases h'
    exact .nil
  | cons hR _ ih =>
    cases h' with
    | cons hS hrest =>
      exact .cons (hT _ List.mem_cons_self hR hS)
        (ih hrest fun a ha => hT a (List.mem_cons_of_mem _ ha))

/-! ### Two computations -/

/-- Where the first computation gives a value, the second one gives a value in a relation to it. -/
def Yields (V : α → β → Prop) (x : Except ε α) (y : Except ε β) : Prop :=
  ∀ a, x = .ok a → ∃ b, y = .ok b ∧ V a b

section Yields

variable {α' β' : Type} {V : α → α' → Prop} {W : β → β' → Prop} {x : Except ε α} {x' : Except ε α'}

theorem yields_ok {a : α} {a' : α'} (h : V a a') :
    Yields V (.ok a : Except ε α) (.ok a') := by
  intro b hb
  cases hb
  exact ⟨a', rfl, h⟩

theorem Yields.bind {f : α → Except ε β} {f' : α' → Except ε β'} (hx : Yields V x x')
    (hf : ∀ {a a'}, V a a' → Yields W (f a) (f' a')) : Yields W (x >>= f) (x' >>= f') := by
  intro b hb
  obtain ⟨a, ha, hb⟩ := ok_of_bind hb
  obtain ⟨a', rfl, hV⟩ := hx a ha
  exact hf hV b hb

theorem yields_mapM {f : α → Except ε β} {f' : α' → Except ε β'} {as : List α} {as' : List α'}
    (h : List.Forall₂ V as as') (hf : ∀ {a a'}, V a a' → Yields W (f a) (f' a')) :
    Yields (List.Forall₂ W) (as.mapM f) (as'.mapM f') := by
  induction h with
  | nil => exact yields_ok .nil
  | cons hV _ ih =>
    rw [List.mapM_cons, List.mapM_cons]
    exact (hf hV).bind fun hb => ih.bind fun hbs => yields_ok (.cons hb hbs)

theorem yields_filterMapM {f : α → Except ε (Option β)} {f' : α' → Except ε (Option β')}
    {as : List α} {as' : List α'} (h : List.Forall₂ V as as')
    (hf : ∀ {a a'}, V a a' → Yields (Option.Rel W) (f a) (f' a')) :
    Yields (List.Forall₂ W) (as.filterMapM f) (as'.filterMapM f') := by
  induction h with
  | nil => exact yields_ok .nil
  | cons hV _ ih =>
    rw [List.filterMapM_cons, List.filterMapM_cons]
    refine (hf hV).bind fun {o o'} ho => ?_
    cases ho with
    | none => exact ih
    | some hb => exact ih.bind fun hbs => yields_ok (.cons hb hbs)

end Yields

end Fallible

/-! ## Evaluations -/

section Eval

variable {α β : Type} {i j : Nat}

theorem ok_of_eval_bind {m : Eval α} {f : α → Eval β} {b : β} (h : (m >>= f) i = .ok (b, j)) :
    ∃ a k, m i = .ok (a, k) ∧ f a k = .ok (b, j) := by
  obtain ⟨⟨a, k⟩, ha, hb⟩ := ok_of_bind h
  exact ⟨a, k, ha, hb⟩

theorem eval_bind_ok {m : Eval α} {a : α} {k : Nat} (h : m i = .ok (a, k)) (f : α → Eval β) :
    (m >>= f) i = f a k := by
  show (m i >>= fun p => f p.1 p.2) = _
  rw [h]
  rfl

theorem eval_bind_error {m : Eval α} {e : Failure} (h : m i = .error e) (f : α → Eval β) :
    (m >>= f) i = .error e := by
  show (m i >>= fun p => f p.1 p.2) = _
  rw [h]
  rfl

theorem ok_of_eval_liftM {x : Except Failure α} {a : α} (h : (liftM x : Eval α) i = .ok (a, j)) :
    x = .ok a := by
  cases x with
  | error e => cases h
  | ok b =>
    cases h
    rfl

end Eval

/-! ## Build steps -/

namespace Build

variable {α β : Type} {S S' : Graph → Graph → Prop} {m : Build α} {f : α → Build β}
  {g g' : Graph} {a : α} {b : β}

/-- The outcome of a build step in a graph, and the graph it leaves. -/
def exec (m : Build α) (g : Graph) : Except SchemaError α × Graph := m.run g

theorem exec_get (g : Graph) : (get : Build Graph).exec g = (.ok g, g) := rfl

theorem exec_liftM (x : Except SchemaError α) (g : Graph) :
    (liftM x : Build α).exec g = (x, g) := rfl

theorem exec_bind_ok (h : m.exec g = (.ok a, g')) : (m >>= f).exec g = (f a).exec g' := by
  show ExceptT.bindCont f (m.exec g).1 (m.exec g).2 = _
  rw [h]
  rfl

theorem exec_bind_error {e : SchemaError} (h : m.exec g = (.error e, g')) :
    (m >>= f).exec g = (.error e, g') := by
  show ExceptT.bindCont f (m.exec g).1 (m.exec g).2 = _
  rw [h]
  rfl

theorem exec_get_bind {k : Graph → Build β} : ((get : Build Graph) >>= k).exec g = (k g).exec g :=
  exec_bind_ok (exec_get g)

theorem exists_of_exec_fst {r : Except SchemaError α} (h : (m.exec g).1 = r) :
    ∃ g', m.exec g = (r, g') :=
  ⟨(m.exec g).2, Prod.ext h rfl⟩

theorem ok_of_exec_bind {g'' : Graph} (h : (m >>= f).exec g = (.ok b, g'')) :
    ∃ a g', m.exec g = (.ok a, g') ∧ (f a).exec g' = (.ok b, g'') := by
  rcases hm : m.exec g with ⟨_ | a, g'⟩
  · rw [exec_bind_error hm] at h
    cases h
  · rw [exec_bind_ok hm] at h
    exact ⟨a, g', rfl, h⟩

theorem ok_of_exec_liftM {x : Except SchemaError α} (h : (liftM x : Build α).exec g = (.ok a, g')) :
    x = .ok a ∧ g = g' := by
  rw [exec_liftM, Prod.mk.injEq] at h
  exact h

/-! ### Changes of the graph -/

/-- Whatever its outcome, a build step changes the graph by steps of a relation. -/
def Moves (S : Graph → Graph → Prop) (m : Build α) : Prop := ∀ g, ReflTransGen S g (m.exec g).2

theorem Moves.of_exec (hm : Moves S m) {r : Except SchemaError α} (h : m.exec g = (r, g')) :
    ReflTransGen S g g' := by
  have hg := hm g
  rwa [h] at hg

theorem Moves.mono (hm : Moves S m) (h : ∀ g g', S g g' → S' g g') : Moves S' m :=
  fun g => ReflTransGen.mono h _ _ (hm g)

theorem moves_pure (a : α) : Moves S (pure a : Build α) := fun _ => .refl

theorem moves_throw (e : SchemaError) : Moves S (throw e : Build α) := fun _ => .refl

theorem moves_modify {change : Graph → Graph} (h : ∀ g, S g (change g)) :
    Moves S (modify change : Build Unit) := fun g => .single (h g)

theorem Moves.bind (hm : Moves S m) (hf : ∀ a, Moves S (f a)) : Moves S (m >>= f) := by
  intro g
  rcases h : m.exec g with ⟨e | a, g'⟩
  · rw [exec_bind_error h]
    exact hm.of_exec h
  · rw [exec_bind_ok h]
    exact (hm.of_exec h).trans (hf a g')

theorem moves_liftM_bind {x : Except SchemaError α} (hf : ∀ a, x = .ok a → Moves S (f a)) :
    Moves S ((liftM x : Build α) >>= f) := by
  intro g
  cases x with
  | error e =>
    rw [exec_bind_error (exec_liftM _ g)]
  | ok a =>
    rw [exec_bind_ok (exec_liftM _ g)]
    exact hf a rfl g

theorem Moves.map (hm : Moves S m) (k : α → β) : Moves S (k <$> m) := by
  rw [map_eq_pure_bind]
  exact hm.bind fun a => moves_pure (k a)

theorem moves_mapM {f : α → Build β} {as : List α} (hf : ∀ a ∈ as, Moves S (f a)) :
    Moves S (as.mapM f) := by
  induction as with
  | nil => exact moves_pure []
  | cons a rest ih =>
    rw [List.mapM_cons]
    refine (hf a List.mem_cons_self).bind fun b => ?_
    exact (ih fun a' ha' => hf a' (List.mem_cons_of_mem _ ha')).bind fun bs => moves_pure _

theorem moves_filterMapM {f : α → Build (Option β)} {as : List α} (hf : ∀ a ∈ as, Moves S (f a)) :
    Moves S (as.filterMapM f) := by
  induction as with
  | nil => exact moves_pure []
  | cons a rest ih =>
    rw [List.filterMapM_cons]
    refine (hf a List.mem_cons_self).bind fun b => ?_
    have hrest := ih fun a' ha' => hf a' (List.mem_cons_of_mem _ ha')
    cases b with
    | none => exact hrest
    | some b => exact hrest.bind fun bs => moves_pure _

theorem moves_foldlM {f : β → α → Build β} {as : List α} (hf : ∀ b, ∀ a ∈ as, Moves S (f b a))
    (b : β) : Moves S (as.foldlM f b) := by
  induction as generalizing b with
  | nil => exact moves_pure b
  | cons a rest ih =>
    rw [List.foldlM_cons]
    exact (hf b a List.mem_cons_self).bind fun b' =>
      ih (fun b a' ha' => hf b a' (List.mem_cons_of_mem _ ha')) b'

section Results

variable {R : Graph → α → β → Prop} {as : List α}
  (hstable : ∀ {g g' a b}, ReflTransGen S g g' → R g a b → R g' a b)
include hstable

/-- What holds of each result when it is made, and stays, holds of all results in the end. -/
theorem forall₂_of_exec_mapM {f : α → Build β} {bs : List β} (hf : ∀ a ∈ as, Moves S (f a))
    (hR : ∀ a ∈ as, ∀ {g b g'}, (f a).exec g = (.ok b, g') → R g' a b)
    (h : (as.mapM f).exec g = (.ok bs, g')) : List.Forall₂ (R g') as bs := by
  induction as generalizing g bs with
  | nil =>
    cases h
    exact .nil
  | cons a rest ih =>
    rw [List.mapM_cons] at h
    obtain ⟨b, g₁, hb, h⟩ := ok_of_exec_bind h
    obtain ⟨bs', g₂, hbs', h⟩ := ok_of_exec_bind h
    cases h
    have hf' : ∀ a' ∈ rest, Moves S (f a') := fun a' ha' => hf a' (List.mem_cons_of_mem _ ha')
    refine .cons (hstable ((moves_mapM hf').of_exec hbs') (hR a List.mem_cons_self hb)) ?_
    exact ih hf' (fun a' ha' => hR a' (List.mem_cons_of_mem _ ha')) hbs'

end Results

section Options

variable {R : Graph → α → Option β → Prop} {as : List α}
  (hstable : ∀ {g g' a b}, ReflTransGen S g g' → R g a b → R g' a b)
include hstable

theorem forall₂_of_exec_filterMapM {f : α → Build (Option β)} {bs : List β}
    (hf : ∀ a ∈ as, Moves S (f a))
    (hR : ∀ a ∈ as, ∀ {g b g'}, (f a).exec g = (.ok b, g') → R g' a b)
    (h : (as.filterMapM f).exec g = (.ok bs, g')) :
    ∃ os : List (Option β), List.Forall₂ (R g') as os ∧ bs = os.filterMap id := by
  induction as generalizing g bs with
  | nil =>
    cases h
    exact ⟨[], .nil, rfl⟩
  | cons a rest ih =>
    rw [List.filterMapM_cons] at h
    have hf' : ∀ a' ∈ rest, Moves S (f a') := fun a' ha' => hf a' (List.mem_cons_of_mem _ ha')
    have hR' := fun a' ha' => @hR a' (List.mem_cons_of_mem _ ha')
    obtain ⟨o, g₁, ho, h⟩ := ok_of_exec_bind h
    cases o with
    | none =>
      obtain ⟨os, hos, rfl⟩ := ih hf' hR' h
      refine ⟨none :: os, .cons ?_ hos, rfl⟩
      exact hstable ((moves_filterMapM hf').of_exec h) (hR a List.mem_cons_self ho)
    | some b =>
      obtain ⟨bs', g₂, hbs', h⟩ := ok_of_exec_bind h
      cases h
      obtain ⟨os, hos, rfl⟩ := ih hf' hR' hbs'
      refine ⟨some b :: os, .cons ?_ hos, rfl⟩
      exact hstable ((moves_filterMapM hf').of_exec hbs') (hR a List.mem_cons_self ho)

end Options

end Build

end HintSchema
