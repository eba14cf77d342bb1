import HintSchema.Field
import HintSchema.Proofs.Entries
import HintSchema.Proofs.Outcome

/-!
# What fields are made of

A field is made of a hint of its class or of a member that no hint hides, and of the resolved hints
that these were declared with.  Each function on the way is inverted once: what it gives says what
its parts gave (`mem_describeFields`, `fieldOf_of_memberField`, `resolveParam_eq_ok_iff`).
-/

namespace HintSchema

variable {h : Hierarchy} {ns : Namespace} {c : ClassRef} {name : String} {f : FieldDescriptor}

/-! ## Hints -/

theorem ResolvedHint.ofHint_eq_ok_iff {hint : Hint} {origin : Origin} {ann : ResolvedHint} :
    ofHint ns hint origin = .ok ann ↔
      ∃ e, ns.eval hint = .ok e ∧ ofExpr (some hint) (some origin) e = .ok ann := by
  rw [ofHint]
  cases ns.eval hint <;> simp

/-- The type of a parameter, given what its hint evaluates to. -/
def Param.widened (p : Param) (e : TypeExpr) : TypeExpr :=
  match p.default with
  | some .null => e.optional
  | _ => e

theorem resolveParam_eq_ok_iff {m : Method} {p : Param} {r : ResolvedParam} :
    resolveParam ns c m p = .ok r ↔
      ∃ e ann, ns.eval p.hint = .ok e ∧ ResolvedHint.ofExpr (some p.hint)
        (some ⟨memberSite c m.name, p.name⟩) (p.widened e) = .ok ann ∧
        r = ⟨p.name, ann, p.default⟩ := by
  rw [resolveParam]
  cases ns.eval p.hint with
  | error => simp
  | ok e =>
    constructor
    · intro hr
      obtain ⟨ann, hann, hr⟩ := ok_of_bind hr
      exact ⟨e, ann, rfl, hann, (Except.ok.inj hr).symm⟩
    · rintro ⟨_, ann, he, hann, rfl⟩
      cases he
      show (ResolvedHint.ofExpr _ _ (p.widened e) >>= _) = _
      rw [hann]
      rfl

theorem forall₂_of_resolveHints {hints : List (String × ResolvedHint)}
    (hhints : resolveHints h ns c = .ok hints) :
    List.Forall₂ (fun decl p => p.1 = decl.1 ∧
        ResolvedHint.ofHint ns decl.2.2 ⟨decl.2.1.name, decl.1⟩ = .ok p.2)
      (h.allHints c) hints := by
  refine (forall₂_of_mapM hhints).imp fun decl p hp => ?_
  obtain ⟨ann, hann, hp⟩ := ok_of_bind hp
  cases hp
  exact ⟨rfl, hann⟩

/-! ## Members -/

/-- The field of a member, one kind of member after the other. -/
inductive FieldOf (ns : Namespace) (c : ClassRef) (name : String) : Member → FieldDescriptor → Prop
  | property {p : Property} {hint : ResolvedHint} :
      ResolvedHint.ofHint ns p.returns ⟨memberSite c p.name, "return"⟩ = .ok hint →
      FieldOf ns c name (.property p)
        { name, hint, description := p.doc, source := .property, resolver := .attribute name }
  | method {m : Method} {args : List ResolvedParam} {returns : ResolvedHint} :
      List.Forall₂ (fun p r => resolveParam ns c m p = .ok r) m.params args →
      ResolvedHint.ofHint ns m.returns ⟨memberSite c m.name, "return"⟩ = .ok returns →
      FieldOf ns c name (.method m)
        { name, hint := returns, args, description := m.doc, source := .method,
          resolver := .method m }
  | value {v : Value} :
      FieldOf ns c name (.value v)
        { name, hint := .ofClass v.classRef (some ⟨c.name, name⟩), source := .inferredAttribute,
          resolver := .attribute name }

theorem FieldOf.name_eq {member : Member} (hf : FieldOf ns c name member f) : f.name = name := by
  cases hf <;> rfl

theorem fieldOf_of_memberField {hinted : String → Bool} {member : Member}
    (hf : memberField ns c hinted name member = .ok (some f)) : FieldOf ns c name member f := by
  cases member with
  | property p =>
    obtain ⟨hint, hhint, hf⟩ := ok_of_bind hf
    cases hf
    exact .property hhint
  | method m =>
    obtain ⟨⟨args, returns⟩, hm, hf⟩ := ok_of_bind hf
    obtain ⟨_, hargs, hm⟩ := ok_of_bind hm
    obtain ⟨_, hreturns, hm⟩ := ok_of_bind hm
    cases hm
    cases hf
    exact .method (forall₂_of_mapM hargs) hreturns
  | value v =>
    unfold memberField at hf
    split_ifs at hf
    · cases hf
    · cases hf
      exact .value

/-- A member has a field unless it is a value with a hint. -/
theorem memberField_eq_none_iff {hinted : String → Bool} {m : Member}
    {o : Option FieldDescriptor} (ho : memberField ns c hinted name m = .ok o) :
    o = none ↔ (∃ v, m = .value v) ∧ hinted name = true := by
  cases m with
  | property p =>
    obtain ⟨ann, -, ho⟩ := ok_of_bind ho
    cases ho
    simp
  | method m =>
    obtain ⟨r, -, ho⟩ := ok_of_bind ho
    cases ho
    simp
  | value v =>
    unfold memberField at ho
    split_ifs at ho with hname
    · cases ho
      simp [hname]
    · cases ho
      simp [hname]

/-! ## Classes -/

/-- A field of a class is that of a hint, or that of a member whose name has no hint. -/
theorem mem_describeFields {ds : List FieldDescriptor} (hds : describeFields h ns c = .ok ds)
    (hf : f ∈ ds) : ∃ hints, resolveHints h ns c = .ok hints ∧
      ((∃ p ∈ hints, isPrivate p.1 = false ∧ f = hintField p.1 p.2) ∨
        ∃ p ∈ h.dir c, isPrivate p.1 = false ∧ p.1 ∉ Keyed.keys hints ∧
          FieldOf ns c p.1 p.2 f) := by
  obtain ⟨hints, hhints, hds⟩ := ok_of_bind hds
  obtain ⟨members, hmembers, hds⟩ := ok_of_bind hds
  cases hds
  refine ⟨hints, hhints, ?_⟩
  obtain ⟨⟨name, f⟩, hmem, rfl⟩ := List.mem_map.1 hf
  rcases Keyed.mem_putAll_cases (Keyed.nodup_keys_ofList _) hmem with hmem | ⟨hmem, hnot⟩
  · obtain ⟨p, hshown, he⟩ := List.mem_map.1 hmem
    cases he
    obtain ⟨hp, hpublic⟩ := List.mem_filter.1 hshown
    exact .inl ⟨p, hp, by simpa using hpublic, rfl⟩
  · obtain ⟨f', hf', he⟩ := List.mem_map.1 (Keyed.mem_ofList hmem)
    cases he
    obtain ⟨p, hvisible, hfield⟩ := exists_of_mem_filterMapM hmembers hf'
    obtain ⟨hp, hpublic⟩ := List.mem_filter.1 hvisible
    have hof := fieldOf_of_memberField hfield
    replace hpublic : isPrivate p.1 = false := by simpa using hpublic
    refine .inr ⟨p, hp, hpublic, fun hkey => hnot ?_, hof⟩
    obtain ⟨q, hq, hname⟩ := List.mem_map.1 hkey
    have hshown : q ∈ hints.filter fun p => !isPrivate p.1 :=
      List.mem_filter.2 ⟨hq, by rw [hname, hpublic]; rfl⟩
    rw [hof.name_eq, ← hname, Keyed.keys, List.map_map]
    exact List.mem_map_of_mem hshown

end HintSchema
