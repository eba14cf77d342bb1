import HintSchema.Proofs.Encounters
import HintSchema.Proofs.InStep

/-!
# The order of realizing

A union is what its first reference makes it: it goes by the name that is written there, and below a
layer that is met again no name is asked for.  So a build depends on the order in which its rounds
visit their nodes (`Sample.order_matters`), but only where the unions that it can meet do not agree
on their names: otherwise any two orders both fail or both show the same types
(`outcome_eq_of_agree`).
-/

namespace HintSchema

variable {env : BuildEnv} {aliases : AliasTable} {query : ClassRef} {mutation : Option ClassRef}
  {visit visit' : List Nat → List Nat} {s : Schema} {g : Graph}

namespace BuildEnv

/-- What a build shows of its types, unless it fails. -/
def outcome (env : BuildEnv) (visit : List Nat → List Nat) (query : ClassRef)
    (mutation : Option ClassRef) : Option (List TypeShown) :=
  ((env.buildVisiting visit query mutation).exec {}).1.toOption.map Schema.shownTypes

/-- Of two builds that show the same types as soon as one of them succeeds, both fail or both show the
same types. -/
theorem outcome_eq_of_exists {env' : BuildEnv}
    (h : ∀ {s g}, (env.buildVisiting visit query mutation).exec {} = (.ok s, g) →
      ∃ s' g', (env'.buildVisiting visit' query mutation).exec {} = (.ok s', g') ∧
        s.shownTypes = s'.shownTypes)
    (h' : ∀ {s g}, (env'.buildVisiting visit' query mutation).exec {} = (.ok s, g) →
      ∃ s' g', (env.buildVisiting visit query mutation).exec {} = (.ok s', g') ∧
        s.shownTypes = s'.shownTypes) :
    env.outcome visit query mutation = env'.outcome visit' query mutation := by
  unfold outcome
  rcases hrun : (env.buildVisiting visit query mutation).exec {} with ⟨e | s, g⟩ <;>
    rcases hrun' : (env'.buildVisiting visit' query mutation).exec {} with ⟨e' | s', g'⟩
  · rfl
  · obtain ⟨s, g, hok, -⟩ := h' hrun'
    cases hrun.symm.trans hok
  · obtain ⟨s', g', hok, -⟩ := h hrun
    cases hrun'.symm.trans hok
  · obtain ⟨_, _, hok, hshown⟩ := h hrun
    cases hrun'.symm.trans hok
    exact congrArg some hshown

/-- Where the unions that a build can meet agree on their names, a build that succeeds in one order
succeeds in any other, and shows the same types. -/
theorem exists_build_of_agree (hw : env.WellFormed aliases)
    (hnormal : ∀ {id name s}, aliases id = some (name, s) → s.Normal)
    (hroots : ∀ c ∈ query :: mutation.toList, env.hierarchy.Has c)
    (hagree : env.UnionsAgree (query :: mutation.toList)) (hvisit : ∀ l, (visit l).Perm l)
    (hvisit' : ∀ l, (visit' l).Perm l)
    (h : (env.buildVisiting visit query mutation).exec {} = (.ok s, g)) :
    ∃ s' g', (env.buildVisiting visit' query mutation).exec {} = (.ok s', g') ∧
      s.shownTypes = s'.shownTypes := by
  have hr := regular_met hw hnormal hroots
  have hP : ∀ c ∈ query :: mutation.toList,
      env.Met (query :: mutation.toList) (.ofClass c none) := fun _ hc => .root hc
  have hgrow := h
  rw [buildVisiting_eq] at hgrow
  obtain ⟨roots, g₁, hgrow, -⟩ := Build.ok_of_exec_bind hgrow
  have hc := hr.coherent_met hw (hr.grow_spec hw hvisit hP hgrow) hagree
  exact hc.exists_build hw hvisit hvisit' hP h

/-- Where the unions that a build can meet agree on their names, any two orders of realizing both
fail, or both succeed and show the same types. -/
theorem outcome_eq_of_agree (hw : env.WellFormed aliases)
    (hnormal : ∀ {id name s}, aliases id = some (name, s) → s.Normal)
    (hroots : ∀ c ∈ query :: mutation.toList, env.hierarchy.Has c)
    (hagree : env.UnionsAgree (query :: mutation.toList)) (hvisit : ∀ l, (visit l).Perm l)
    (hvisit' : ∀ l, (visit' l).Perm l) :
    env.outcome visit query mutation = env.outcome visit' query mutation :=
  outcome_eq_of_exists (exists_build_of_agree hw hnormal hroots hagree hvisit hvisit')
    (exists_build_of_agree hw hnormal hroots hagree hvisit' hvisit)

end BuildEnv

/-! ## Owners and towns -/

namespace Sample

/-- Whether a hint is one of the owner's: of a class, or of the pet, which may be absent. -/
def isOwners : ResolvedHint → Bool
  | .cls _ c => c ∈ [owner, cat, dog, .int]
  | .optional _ (.union head members) | .union head members =>
    (unionName (.union head members)).toOption == some "Pet" && members.all fun
      | .cls _ c => c ∈ [cat, dog]
      | _ => false
  | _ => false

theorem isOwners_of_class {c : ClassRef} {node : Node} {ann : ResolvedHint}
    (hc : c ∈ [owner, cat, dog, .int]) (hn : townEnv.classNode c = some node)
    (ha : ann ∈ townEnv.partHints node.body ++ townEnv.crawlHints node.body) :
    isOwners ann = true := by
  have hall : ([owner, cat, dog, .int].all fun c => (townEnv.classNode c).all fun node =>
      (townEnv.partHints node.body ++ townEnv.crawlHints node.body).all isOwners) = true := by
    decide +kernel
  have hnode := List.all_eq_true.1 hall c hc
  rw [hn] at hnode
  exact List.all_eq_true.1 hnode ann ha

theorem isOwners_of_member {head : ResolvedHead} {members : List ResolvedHint} {ann : ResolvedHint}
    (h : isOwners (.union head members) = true) (ha : ann ∈ members) : isOwners ann = true := by
  have hmember := List.all_eq_true.1 (Bool.and_eq_true_iff.1 h).2 ann ha
  cases ann with
  | cls head c =>
    have hc : c ∈ [cat, dog] := of_decide_eq_true hmember
    have hown : c ∈ [cat, dog] ++ [.int] := List.mem_append_left _ hc
    exact decide_eq_true (List.mem_cons_of_mem _ hown)
  | list | optional | union | aliasOf => cases hmember

theorem isOwners_of_met {ann : ResolvedHint} (h : townEnv.Met [owner] ann) :
    isOwners ann = true := by
  induction h with
  | root hc => exact decide_eq_true (List.mem_append_left [cat, dog, .int] hc)
  | @layer ann inner wrap _ hl ih =>
    cases ann with
    | optional head below =>
      cases hl
      cases inner with
      | union => exact ih
      | cls | list | optional | aliasOf => cases ih
    | cls | union => cases hl
    | list | aliasOf => cases ih
  | part _ hn ha ih =>
    rcases BuildEnv.WellFormed.ownNode_cases hn with
      ⟨head, c, rfl, hc⟩ | ⟨head, members, name, rfl, rfl⟩ | ⟨head, base, s, rfl, rfl⟩
    · exact isOwners_of_class (of_decide_eq_true ih) hc (List.mem_append_left _ ha)
    · exact isOwners_of_member ih ha
    · cases ha
  | crawl _ hn ha ih =>
    rcases BuildEnv.WellFormed.ownNode_cases hn with
      ⟨head, c, rfl, hc⟩ | ⟨head, members, name, rfl, rfl⟩ | ⟨head, base, s, rfl, rfl⟩
    · exact isOwners_of_class (of_decide_eq_true ih) hc (List.mem_append_right _ ha)
    · cases ha
    · cases ha

/-- The only union that an owner brings in is the pet. -/
theorem unionsAgree_owner : townEnv.UnionsAgree [owner] := by
  have hpet : ∀ {head members}, townEnv.Met [owner] (.union head members) →
      unionName (.union head members) = .ok "Pet" := fun h =>
    ok_of_toOption (beq_iff_eq.1 (Bool.and_eq_true_iff.1 (isOwners_of_met h)).1)
  exact fun _ _ _ _ h h' _ => ⟨"Pet", hpet h, hpet h'⟩

/-- What an owner brings in is the same in any order. -/
theorem outcome_eq_owner : (townEnv.outcome id owner none).isSome = true ∧
    townEnv.outcome id owner none = townEnv.outcome List.reverse owner none := by
  refine ⟨by decide +kernel, ?_⟩
  exact BuildEnv.outcome_eq_of_agree wellFormed_town normal_of_aliases
    (Hierarchy.has_of_root ⟨_, rfl, rfl⟩) unionsAgree_owner (fun l => .refl l) List.reverse_perm

/-- In a town the guests of a shelter are refused, unless the owner's pet was met before. -/
theorem order_matters : ¬ ∀ visit visit' : List Nat → List Nat, (∀ l, (visit l).Perm l) →
    (∀ l, (visit' l).Perm l) →
    townEnv.outcome visit town none = townEnv.outcome visit' town none := by
  intro hall
  have h := hall id List.reverse (fun l => .refl l) List.reverse_perm
  have hok : (townEnv.outcome id town none).isSome = true := by decide +kernel
  have herror : (townEnv.outcome List.reverse town none).isSome = false := by decide +kernel
  rw [h, herror] at hok
  cases hok

end Sample

end HintSchema
