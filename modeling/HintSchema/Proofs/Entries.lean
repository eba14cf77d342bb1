import Mathlib.Data.List.Induction
import Mathlib.Data.List.Nodup
import HintSchema.Keyed

/-!
# Entries that were put

Entries made with `Keyed.putAll` are among those that were put (`mem_putAll`), each key once
(`nodup_keys_ofList`); pairs without a repeated key are kept as they are (`ofList_eq_self`).  Under a
key stands what was put under it last (`get?_putAll`).
-/

namespace HintSchema.Keyed

variable {α : Type} {entries pairs : List (String × α)} {p : String × α} {k : String} {v : α}

theorem mem_of_get? (h : get? entries k = some v) : (k, v) ∈ entries := by
  induction entries with
  | nil => cases h
  | cons e rest ih =>
    obtain ⟨k', v'⟩ := e
    rw [get?_cons] at h
    split_ifs at h with hk
    · cases h
      exact hk ▸ List.mem_cons_self
    · exact List.mem_cons_of_mem _ (ih h)

theorem mem_put (h : p ∈ put entries k v) : p = (k, v) ∨ p ∈ entries := by
  induction entries with
  | nil => exact .inl (List.mem_singleton.1 h)
  | cons e rest ih =>
    obtain ⟨k', v'⟩ := e
    unfold put at h
    split_ifs at h with hk
    · rcases List.mem_cons.1 h with rfl | h
      · exact .inl (by rw [hk])
      · exact .inr (List.mem_cons_of_mem _ h)
    · rcases List.mem_cons.1 h with rfl | h
      · exact .inr List.mem_cons_self
      · exact (ih h).imp_right (List.mem_cons_of_mem _)

theorem putAll_cons (entries : List (String × α)) (p : String × α) (pairs : List (String × α)) :
    putAll entries (p :: pairs) = putAll (put entries p.1 p.2) pairs := rfl

theorem mem_putAll (h : p ∈ putAll entries pairs) : p ∈ entries ∨ p ∈ pairs := by
  induction pairs generalizing entries with
  | nil => exact .inl h
  | cons q rest ih =>
    rw [putAll_cons] at h
    rcases ih h with h | h
    · rcases mem_put h with rfl | h
      · exact .inr List.mem_cons_self
      · exact .inl h
    · exact .inr (List.mem_cons_of_mem _ h)

theorem mem_ofList (h : p ∈ ofList pairs) : p ∈ pairs :=
  (mem_putAll h).resolve_left List.not_mem_nil

theorem nodup_keys_putAll (h : (keys entries).Nodup) : (keys (putAll entries pairs)).Nodup := by
  induction pairs generalizing entries with
  | nil => exact h
  | cons q rest ih =>
    rw [putAll_cons]
    apply ih
    rw [keys_put]
    split_ifs with hk
    · exact h
    · exact List.nodup_append.2 ⟨h, List.nodup_singleton _, by
        rintro a ha b hb rfl
        exact hk (List.mem_singleton.1 hb ▸ ha)⟩

theorem nodup_keys_ofList (pairs : List (String × α)) : (keys (ofList pairs)).Nodup :=
  nodup_keys_putAll List.nodup_nil

theorem put_of_not_mem (h : k ∉ keys entries) : put entries k v = entries ++ [(k, v)] := by
  induction entries with
  | nil => rfl
  | cons e rest ih =>
    obtain ⟨k', v'⟩ := e
    rw [keys, List.map_cons, List.mem_cons, not_or] at h
    rw [put, if_neg (Ne.symm h.1), ih h.2, List.cons_append]

theorem putAll_of_nodup (h : (keys (entries ++ pairs)).Nodup) :
    putAll entries pairs = entries ++ pairs := by
  induction pairs generalizing entries with
  | nil => rw [List.append_nil]; rfl
  | cons q rest ih =>
    have hq : q.1 ∉ keys entries := by
      rw [keys, List.map_append, List.map_cons, List.nodup_append] at h
      exact fun hmem => h.2.2 _ hmem _ List.mem_cons_self rfl
    have hsplit : entries ++ q :: rest = entries ++ [(q.1, q.2)] ++ rest := by simp
    rw [putAll_cons, put_of_not_mem hq, hsplit]
    exact ih (hsplit ▸ h)

/-- Pairs whose keys are distinct stay as they are. -/
theorem ofList_eq_self (h : (keys pairs).Nodup) : ofList pairs = pairs :=
  putAll_of_nodup h

theorem perm_insertSorted (e : String × α) (entries : List (String × α)) :
    (insertSorted e entries).Perm (e :: entries) := by
  induction entries with
  | nil => exact .refl _
  | cons e' rest ih =>
    unfold insertSorted
    split_ifs
    · exact (ih.cons e').trans (.swap e e' rest)
    · exact .refl _

theorem perm_sorted (entries : List (String × α)) : (sorted entries).Perm entries := by
  induction entries with
  | nil => exact .refl _
  | cons e rest ih => exact (perm_insertSorted e (sorted rest)).trans (ih.cons e)

theorem mem_sorted : p ∈ sorted entries ↔ p ∈ entries := (perm_sorted entries).mem_iff

theorem nodup_keys_sorted_iff : (keys (sorted entries)).Nodup ↔ (keys entries).Nodup :=
  ((perm_sorted entries).map Prod.fst).nodup_iff

/-! ## Entries that correspond -/

/-- Entries under the same keys, with values in a relation. -/
abbrev Alike {α β : Type} (S : α → β → Prop) : List (String × α) → List (String × β) → Prop :=
  List.Forall₂ fun p q => p.1 = q.1 ∧ S p.2 q.2

section Alike

variable {β : Type} {S : α → β → Prop} {others otherPairs : List (String × β)}

theorem Alike.rel_get? (h : Alike S entries others) (k : String) :
    Option.Rel S (get? entries k) (get? others k) := by
  induction h with
  | nil => exact .none
  | @cons p q _ _ hpq _ ih =>
    obtain ⟨k', v⟩ := p
    obtain ⟨k'', w⟩ := q
    obtain ⟨rfl, hvw⟩ : k' = k'' ∧ S v w := hpq
    rw [get?_cons, get?_cons]
    split_ifs
    · exact .some hvw
    · exact ih

theorem Alike.contains_eq (h : Alike S entries others) (k : String) :
    contains entries k = contains others k := by
  have hget := h.rel_get? k
  rw [contains, contains]
  generalize get? entries k = o at hget ⊢
  generalize get? others k = o' at hget ⊢
  cases hget <;> rfl

theorem Alike.filter (h : Alike S entries others) (p : String → Bool) :
    Alike S (entries.filter fun e => p e.1) (others.filter fun e => p e.1) :=
  List.rel_filter (fun _ _ he => iff_of_eq (congrArg (p · = true) he.1)) h

theorem Alike.map_eq {γ : Type} (h : Alike S entries others) (f : String → α → γ)
    (f' : String → β → γ) (hf : ∀ {k v w}, S v w → f k v = f' k w) :
    entries.map (fun p => f p.1 p.2) = others.map fun p => f' p.1 p.2 := by
  induction h with
  | nil => rfl
  | @cons p q _ _ hpq _ ih => rw [List.map_cons, List.map_cons, ih, ← hpq.1, hf hpq.2]

theorem Alike.put {w : β} (h : Alike S entries others) (k : String) (hv : S v w) :
    Alike S (put entries k v) (Keyed.put others k w) := by
  induction h with
  | nil => exact .cons ⟨rfl, hv⟩ .nil
  | @cons p q _ _ hpq hrest ih =>
    rw [Keyed.put, Keyed.put, hpq.1]
    split_ifs
    · exact .cons ⟨rfl, hv⟩ hrest
    · exact .cons ⟨rfl, hpq.2⟩ ih

theorem Alike.putAll (h : Alike S entries others) (hpairs : Alike S pairs otherPairs) :
    Alike S (putAll entries pairs) (Keyed.putAll others otherPairs) := by
  induction hpairs generalizing entries others with
  | nil => exact h
  | @cons p q _ _ hpq _ ih =>
    rw [putAll_cons, putAll_cons, ← hpq.1]
    exact ih (h.put p.1 hpq.2)

/-- Entries that are put pairwise, under the same keys, correspond. -/
theorem forall₂_ofList (h : Alike S pairs otherPairs) : Alike S (ofList pairs) (ofList otherPairs) :=
  Alike.putAll .nil h

theorem Alike.insertSorted {p : String × α} {q : String × β} (h : Alike S entries others)
    (hpq : p.1 = q.1 ∧ S p.2 q.2) : Alike S (insertSorted p entries) (insertSorted q others) := by
  induction h with
  | nil => exact .cons hpq .nil
  | @cons p' q' _ _ hpq' hrest ih =>
    rw [Keyed.insertSorted, Keyed.insertSorted, hpq.1, hpq'.1]
    split_ifs
    · exact .cons hpq' ih
    · exact .cons hpq (.cons hpq' hrest)

theorem Alike.sorted (h : Alike S entries others) : Alike S (sorted entries) (sorted others) := by
  induction h with
  | nil => exact .nil
  | cons hpq _ ih => exact ih.insertSorted hpq

end Alike

/-! ## Looking up what was put -/

theorem get?_append (entries pairs : List (String × α)) (k : String) :
    get? (entries ++ pairs) k = (get? entries k).or (get? pairs k) := by
  induction entries with
  | nil => rfl
  | cons e rest ih =>
    obtain ⟨k', v⟩ := e
    rw [List.cons_append, get?_cons, get?_cons, ih]
    split_ifs <;> rfl

theorem get?_eq_none_iff : get? entries k = none ↔ k ∉ keys entries := by
  rw [← contains_iff_mem_keys, contains]
  cases get? entries k <;> simp

theorem get?_of_mem (hnodup : (keys entries).Nodup) (h : (k, v) ∈ entries) :
    get? entries k = some v := by
  cases hget : get? entries k with
  | none => exact absurd (List.mem_map_of_mem h) (get?_eq_none_iff.1 hget)
  | some w =>
    have heq := List.inj_on_of_nodup_map hnodup h (mem_of_get? hget) rfl
    exact congrArg some (Prod.mk.inj heq).2.symm

theorem get?_of_perm {others : List (String × α)} (hperm : others.Perm entries)
    (hnodup : (keys entries).Nodup) (k : String) : get? others k = get? entries k := by
  cases hget : get? entries k with
  | none =>
    rw [get?_eq_none_iff, keys, (hperm.map Prod.fst).mem_iff]
    exact get?_eq_none_iff.1 hget
  | some v =>
    apply get?_of_mem
    · exact (hperm.map Prod.fst).nodup_iff.2 hnodup
    · exact hperm.mem_iff.2 (mem_of_get? hget)

theorem get?_sorted (hnodup : (keys entries).Nodup) (k : String) :
    get? (sorted entries) k = get? entries k :=
  get?_of_perm (perm_sorted entries) hnodup k

theorem get?_putAll (entries pairs : List (String × α)) (k : String) :
    get? (putAll entries pairs) k = (get? (ofList pairs) k).or (get? entries k) := by
  induction pairs generalizing entries with
  | nil => rfl
  | cons p rest ih =>
    rw [ofList, putAll_cons, putAll_cons, ih, ih, get?_put, put, get?_cons, get?_nil]
    cases get? (ofList rest) k with
    | none => split_ifs <;> rfl
    | some v => rfl

theorem keys_cons (p : String × α) (entries : List (String × α)) :
    keys (p :: entries) = p.1 :: keys entries := rfl

theorem keys_eq_iff {β : Type} {entries : List (String × α)} {others : List (String × β)} :
    keys others = keys entries ↔ List.Forall₂ (fun p q => q.1 = p.1) entries others := by
  rw [eq_comm, keys, keys, ← List.forall₂_eq_eq_eq, List.forall₂_map_left_iff,
    List.forall₂_map_right_iff]
  exact ⟨fun h => h.imp fun _ _ => Eq.symm, fun h => h.imp fun _ _ => Eq.symm⟩

theorem mem_keys_putAll : k ∈ keys (putAll entries pairs) ↔ k ∈ keys entries ∨ k ∈ keys pairs := by
  induction pairs generalizing entries with
  | nil => exact (or_iff_left List.not_mem_nil).symm
  | cons p rest ih =>
    rw [putAll_cons, ih, keys_put, keys_cons, List.mem_cons, ← or_assoc]
    refine or_congr_left ?_
    split_ifs with hk
    · exact ⟨.inl, fun h => h.elim id fun he => he ▸ hk⟩
    · rw [List.mem_append, List.mem_singleton]

/-- What was there stays unless something is put under its key. -/
theorem mem_putAll_cases (hnodup : (keys entries).Nodup) (h : p ∈ putAll entries pairs) :
    p ∈ pairs ∨ p ∈ entries ∧ p.1 ∉ keys pairs := by
  have hget := get?_of_mem (nodup_keys_putAll hnodup) h
  rw [get?_putAll, Option.or_eq_some_iff] at hget
  rcases hget with hget | ⟨hnone, hget⟩
  · exact .inl (mem_ofList (mem_of_get? hget))
  · refine .inr ⟨mem_of_get? hget, fun hk => get?_eq_none_iff.1 hnone ?_⟩
    exact mem_keys_putAll.2 (.inr hk)

theorem get?_ofList_cons (p : String × α) (pairs : List (String × α)) (k : String) :
    get? (ofList (p :: pairs)) k =
      (get? (ofList pairs) k).or (if p.1 = k then some p.2 else none) := by
  rw [ofList, putAll_cons, get?_putAll]
  rfl

/-- Only the pairs of a key decide over its value. -/
theorem get?_ofList_filter (pairs : List (String × α)) (k : String) :
    get? (ofList (pairs.filter (·.1 == k))) k = get? (ofList pairs) k := by
  induction pairs with
  | nil => rfl
  | cons p rest ih =>
    rw [get?_ofList_cons, List.filter_cons]
    split_ifs with hp hk hk
    · rw [get?_ofList_cons, ih, if_pos hk]
    · exact absurd (beq_iff_eq.1 hp) hk
    · exact absurd (beq_iff_eq.2 hk) hp
    · rw [ih, Option.or_none]

theorem get?_ofList_map {β : Type} (f : α → β) (pairs : List (String × α)) (k : String) :
    get? (ofList (pairs.map fun p => (p.1, f p.2))) k = (get? (ofList pairs) k).map f := by
  induction pairs with
  | nil => rfl
  | cons p rest ih =>
    rw [List.map_cons, get?_ofList_cons, get?_ofList_cons, ih]
    cases get? (ofList rest) k with
    | none => dsimp only; split_ifs <;> rfl
    | some v => rfl

/-! ## Entries that are left out -/

section Filter

variable (q : String → Bool)

theorem keys_filter : keys (entries.filter fun p => q p.1) = (keys entries).filter q :=
  List.filter_map.symm

theorem get?_filter (h : q k = true) : get? (entries.filter fun p => q p.1) k = get? entries k := by
  induction entries with
  | nil => rfl
  | cons e rest ih =>
    obtain ⟨k', v'⟩ := e
    rw [List.filter_cons]
    by_cases hk : k' = k
    · simp [hk, h, get?_cons]
    · split_ifs <;> simp [get?_cons, hk, ih]

theorem filter_put (entries : List (String × α)) (k : String) (v : α) :
    (put entries k v).filter (fun p => q p.1) =
      if q k then put (entries.filter fun p => q p.1) k v else entries.filter fun p => q p.1 := by
  induction entries with
  | nil => by_cases h : q k = true <;> simp [put, h]
  | cons e rest ih =>
    obtain ⟨k', v'⟩ := e
    by_cases hk : k' = k
    · subst hk
      by_cases h : q k' = true <;> simp [put, h]
    · by_cases h : q k' = true <;> by_cases h' : q k = true <;> simp_all [put]

theorem filter_putAll (entries pairs : List (String × α)) :
    (putAll entries pairs).filter (fun p => q p.1) =
      putAll (entries.filter fun p => q p.1) (pairs.filter fun p => q p.1) := by
  induction pairs generalizing entries with
  | nil => rfl
  | cons p rest ih =>
    rw [putAll_cons, ih, filter_put, List.filter_cons]
    split_ifs
    · rfl
    · rfl

end Filter

/-! ## The order of keys -/

/-- Keys that were there keep their places; the new ones follow in the order in which they are put. -/
theorem keys_putAll (h : (keys pairs).Nodup) :
    keys (putAll entries pairs) =
      keys entries ++ (keys pairs).filter fun k => k ∉ keys entries := by
  induction pairs generalizing entries with
  | nil => exact (List.append_nil _).symm
  | cons p rest ih =>
    obtain ⟨hp, hrest⟩ := List.nodup_cons.1 h
    rw [putAll_cons, ih hrest, keys_put, keys_cons, List.filter_cons]
    by_cases hk : p.1 ∈ keys entries
    · simp [hk]
    · rw [if_neg hk, if_pos (by simpa using hk), List.append_assoc, List.singleton_append]
      congr 2
      refine List.filter_congr fun k hmem => ?_
      have hne : k ≠ p.1 := fun he => hp (he ▸ hmem)
      simp [hne]

theorem le_of_key_lt {k k' : String} (h : k < k') : k ≤ k' :=
  String.not_lt.1 fun h' => String.lt_irrefl k (String.lt_trans h h')

theorem pairwise_insertSorted (e : String × α) (h : (keys entries).Pairwise (· ≤ ·)) :
    (keys (insertSorted e entries)).Pairwise (· ≤ ·) := by
  induction entries with
  | nil => exact List.pairwise_singleton _ _
  | cons e' rest ih =>
    obtain ⟨hle, hrest⟩ := List.pairwise_cons.1 h
    unfold insertSorted
    split_ifs with hlt
    · refine List.pairwise_cons.2 ⟨fun k hk => ?_, ih hrest⟩
      rcases List.mem_cons.1 (((perm_insertSorted e rest).map Prod.fst).mem_iff.1 hk) with rfl | hk
      · exact le_of_key_lt hlt
      · exact hle k hk
    · have hle' : e.1 ≤ e'.1 := String.not_lt.1 hlt
      refine List.pairwise_cons.2 ⟨fun k hk => ?_, h⟩
      rcases List.mem_cons.1 hk with rfl | hk
      · exact hle'
      · exact String.le_trans hle' (hle k hk)

theorem pairwise_le_sorted (entries : List (String × α)) :
    (keys (sorted entries)).Pairwise (· ≤ ·) := by
  induction entries with
  | nil => exact .nil
  | cons e rest ih => exact pairwise_insertSorted e ih

theorem pairwise_lt_sorted (h : (keys entries).Nodup) :
    (keys (sorted entries)).Pairwise (· < ·) := by
  refine ((pairwise_le_sorted entries).and (nodup_keys_sorted_iff.2 h)).imp fun {k k'} hkk => ?_
  by_contra hlt
  exact hkk.2 (String.le_antisymm hkk.1 (String.not_lt.1 hlt))

/-- Entries that are left out make no difference to the order of the others. -/
theorem sorted_filter (h : (keys entries).Nodup) (q : String × α → Bool) :
    sorted (entries.filter q) = (sorted entries).filter q := by
  have hperm : ((sorted entries).filter q).Perm (entries.filter q) := (perm_sorted entries).filter q
  have hsorted := fun es : List (String × α) => List.pairwise_map.1 (pairwise_le_sorted es)
  refine List.Perm.eq_of_pairwise (fun p p' hp hp' hle hle' => ?_) (hsorted _)
    ((hsorted entries).sublist List.filter_sublist) ((perm_sorted _).trans hperm.symm)
  have hmem : ∀ {p}, p ∈ entries.filter q → p ∈ entries := fun hp => (List.mem_filter.1 hp).1
  exact List.inj_on_of_nodup_map h (hmem (mem_sorted.1 hp)) (hmem (hperm.mem_iff.1 hp'))
    (String.le_antisymm hle hle')

/-! ## Names in the order in which they are met -/

section EraseDups

variable {names : List String}

theorem eraseDups_concat (names : List String) (k : String) :
    (names ++ [k]).eraseDups = if k ∈ names then names.eraseDups else names.eraseDups ++ [k] := by
  rw [List.eraseDups_append]
  split_ifs with hk
  · simp [List.removeAll, hk]
  · simp [List.removeAll, hk, List.eraseDups_cons]

theorem nodup_eraseDups (names : List String) : names.eraseDups.Nodup := by
  induction names using List.reverseRecOn with
  | nil => exact List.nodup_nil
  | append_singleton names k ih =>
    rw [eraseDups_concat]
    split_ifs with hk
    · exact ih
    · refine List.nodup_append.2 ⟨ih, List.nodup_singleton k, ?_⟩
      rintro a ha b hb rfl
      exact hk (List.mem_singleton.1 hb ▸ List.mem_eraseDups.1 ha)

/-- Names that are added to a list unless they are in it. -/
theorem foldl_eraseDups (names added : List String) :
    added.foldl (fun acc k => if k ∈ acc then acc else acc ++ [k]) names.eraseDups =
      (names ++ added).eraseDups := by
  induction added generalizing names with
  | nil => rw [List.append_nil, List.foldl_nil]
  | cons k rest ih =>
    have hstep : (names ++ [k]).eraseDups =
        if k ∈ names.eraseDups then names.eraseDups else names.eraseDups ++ [k] := by
      rw [eraseDups_concat]
      simp only [List.mem_eraseDups]
    rw [List.foldl_cons, ← hstep, ih, List.append_assoc, List.singleton_append]

theorem keys_putAll_eraseDups (h : keys entries = names.eraseDups) :
    keys (putAll entries pairs) = (names ++ keys pairs).eraseDups := by
  induction pairs generalizing entries names with
  | nil => exact h.trans (congrArg List.eraseDups (List.append_nil names).symm)
  | cons p rest ih =>
    have hput : keys (put entries p.1 p.2) = (names ++ [p.1]).eraseDups := by
      rw [keys_put, h, eraseDups_concat]
      simp only [List.mem_eraseDups]
    rw [putAll_cons, ih hput, keys_cons, List.append_assoc, List.singleton_append]

theorem keys_ofList (pairs : List (String × α)) : keys (ofList pairs) = (keys pairs).eraseDups := by
  have hnil : keys ([] : List (String × α)) = ([] : List String).eraseDups := rfl
  rw [ofList, keys_putAll_eraseDups hnil, List.nil_append]

end EraseDups

end HintSchema.Keyed
