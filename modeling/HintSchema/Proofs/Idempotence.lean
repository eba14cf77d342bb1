import HintSchema.Proofs.Peeling
import HintSchema.Proofs.Unresolved

/-!
# Evaluating a type again

Building a union flattens one level only, so a union is normal just when its members were normal
before it was built.  Evaluation sees to that, through bindings, quotes and unions made by hand, and
leaves a type that no namespace has anything to add to: a normal type in which no reference stands
evaluates to itself (`Namespace.evalExpr_eq_self`, `Namespace.eval_idempotent`).
-/

namespace HintSchema

namespace TypeExpr

theorem Normal.of_standsIn {d e : TypeExpr} (hn : e.Normal) (h : d.StandsIn e) : d.Normal := by
  induction h with
  | self => exact hn
  | member hm _ ih => exact ih (normalAll_iff.1 hn.1 _ hm)
  | arg hm _ ih => exact ih (normalAll_iff.1 hn _ hm)

end TypeExpr

namespace Namespace

open TypeExpr

variable {lookup : Lookup} {depth : Nat} {ns : Namespace} {hint : Hint} {e : TypeExpr}

mutual

/-- A normal type in which no reference stands evaluates to itself. -/
theorem evalExpr_eq_self : ∀ {e : TypeExpr}, e.Normal →
    (∀ source, ¬ (forward source).StandsIn e) → evalExpr lookup depth e = .ok e
  | .forward source, _, hfree => absurd .self (hfree source)
  | .union members, hn, hfree => by
    obtain ⟨hall, hflat, hnodup, hlen⟩ := hn
    have hmembers : evalExprs lookup depth members = .ok members :=
      evalExprs_eq_self (normalAll_iff.1 hall) fun m hm source h => hfree source (.member hm h)
    rw [keys_eq_map] at hnodup
    rw [evalExpr, hmembers]
    exact congrArg Except.ok (unionOf_eq_union hflat hnodup hlen)
  | .generic kind args, hn, hfree => by
    have hargs : evalExprs lookup depth args = .ok args :=
      evalExprs_eq_self (normalAll_iff.1 hn) fun a ha source h => hfree source (.arg ha h)
    rw [evalExpr, hargs]
    rfl
  | .cls _, _, _ | .noneType, _, _ | .aliasOf .., _, _ => rfl

theorem evalExprs_eq_self : ∀ {es : List TypeExpr}, (∀ e ∈ es, e.Normal) →
    (∀ e ∈ es, ∀ source, ¬ (forward source).StandsIn e) → evalExprs lookup depth es = .ok es
  | [], _, _ => rfl
  | e :: rest, hn, hfree => by
    obtain ⟨hne, hnrest⟩ := List.forall_mem_cons.1 hn
    obtain ⟨hfe, hfrest⟩ := List.forall_mem_cons.1 hfree
    rw [evalExprs, evalExpr_eq_self hne hfe, evalExprs_eq_self hnrest hfrest]
    rfl

end

/-- The unions in a type that a hint evaluates to, those inside the supertypes of aliases apart, have
no unions among their members, no two members of one key, and not just one member.  The type
evaluates to itself in every namespace. -/
theorem eval_idempotent (he : ns.eval hint = .ok e) :
    (∀ members, (TypeExpr.union members).StandsIn e →
      (∀ m ∈ members, m.isUnion = false) ∧ (members.map key).Nodup ∧ members.length ≠ 1) ∧
    ∀ ns' : Namespace, ns'.eval (.expr e) = .ok e := by
  have hn : e.Normal := normal_of_eval he
  refine ⟨fun members h => ?_, fun ns' => ?_⟩
  · obtain ⟨-, hflat, hnodup, hlen⟩ := hn.of_standsIn h
    exact ⟨hflat, keys_eq_map members ▸ hnodup, hlen⟩
  · rw [eval_eq]
    exact evalExpr_eq_self hn (not_standsIn_of_eval he)

end Namespace

namespace Sample

/-- A union of unions, one of which is bound to a name, with a list of a union of one. -/
def tangled : TypeExpr :=
  .union [.union [.forward "Pet", .noneType], .forward "Optional[Cat]",
    .listOf (.union [.forward "Dog"])]

/-- What the union is once it is evaluated. -/
def untangled : TypeExpr := .union [.cls cat, .cls dog, .noneType, .listOf (.cls dog)]

/-- Where no name is bound any more, the untangled union is evaluated to itself. -/
theorem eval_idempotent_untangled : townNames.eval (.expr tangled) = .ok untangled ∧
    (untangled.members.map TypeExpr.key).Nodup ∧
    Namespace.eval {} (.expr untangled) = .ok untangled := by
  have heval : townNames.eval (.expr tangled) = .ok untangled := by cbv
  obtain ⟨hunions, hself⟩ := Namespace.eval_idempotent heval
  exact ⟨heval, (hunions _ .self).2.1, hself {}⟩

end Sample

end HintSchema
