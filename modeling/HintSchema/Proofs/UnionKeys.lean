import Mathlib.Data.List.Perm.Basic
import Mathlib.Order.Basic
import Mathlib.Data.List.Nodup
import HintSchema.TypeKey

/-!
# Keys of unions

The key of a union keeps the keys of its members in increasing order, each once, so it says which
keys the members have and nothing else (`ofMembers_inj`).
-/

namespace HintSchema.TypeKey

variable {k k' : TypeKey} {ks ls : List TypeKey}

theorem mem_insert_iff : k ∈ insert k' ks ↔ k = k' ∨ k ∈ ks := by
  induction ks with
  | nil => simp [insert]
  | cons l rest ih =>
    unfold insert
    split_ifs with he hlt
    · subst he
      simp
    · simp
    · simp only [List.mem_cons, ih]
      tauto

theorem mem_foldr_insert_iff : k ∈ ks.foldr insert [] ↔ k ∈ ks := by
  induction ks with
  | nil => simp
  | cons l rest ih => rw [List.foldr_cons, mem_insert_iff, ih, List.mem_cons]

/-- Words are in increasing order. -/
def Increasing (ks : List TypeKey) : Prop := ks.Pairwise fun a b => a.code < b.code

theorem code_lt_of_not_lt (hne : k ≠ k') (hlt : ¬ k.code < k'.code) : k'.code < k.code := by
  have hle := List.not_lt.1 hlt
  rcases List.le_iff_lt_or_eq.1 hle with h | h
  · exact h
  · exact absurd (code_inj.1 h.symm) hne

theorem Increasing.insert (h : Increasing ks) : Increasing (insert k ks) := by
  induction ks with
  | nil => simp [TypeKey.insert, Increasing]
  | cons l rest ih =>
    obtain ⟨hl, hrest⟩ := List.pairwise_cons.1 h
    unfold TypeKey.insert
    split_ifs with he hlt
    · exact h
    · refine List.pairwise_cons.2 ⟨fun b hb => ?_, h⟩
      rcases List.mem_cons.1 hb with rfl | hb
      · exact hlt
      · exact List.lt_trans hlt (hl b hb)
    · refine List.pairwise_cons.2 ⟨fun b hb => ?_, ih hrest⟩
      rcases mem_insert_iff.1 hb with rfl | hb
      · exact code_lt_of_not_lt he hlt
      · exact hl b hb

theorem increasing_foldr_insert (ks : List TypeKey) : Increasing (ks.foldr insert []) := by
  induction ks with
  | nil => exact List.Pairwise.nil
  | cons k rest ih => exact ih.insert

theorem Increasing.nodup (h : Increasing ks) : ks.Nodup := by
  refine List.Pairwise.imp (fun {a b} hlt => ?_) h
  rintro rfl
  exact List.lt_irrefl _ hlt

theorem Increasing.eq_of_mem_iff (hk : Increasing ks) (hl : Increasing ls)
    (h : ∀ k, k ∈ ks ↔ k ∈ ls) : ks = ls := by
  have hperm : ks.Perm ls := (List.perm_ext_iff_of_nodup hk.nodup hl.nodup).2 h
  refine hperm.eq_of_pairwise (fun a b _ _ hab hba => ?_) hk hl
  exact absurd (List.lt_trans hab hba) (List.lt_irrefl _)

/-- Unions have one key when their members have the same keys, in any order and any number. -/
theorem ofMembers_inj : ofMembers ks = ofMembers ls ↔ ∀ k, k ∈ ks ↔ k ∈ ls := by
  simp only [ofMembers, TypeKey.union.injEq]
  constructor
  · intro h k
    have hk : k ∈ ks.foldr insert [] ↔ k ∈ ls.foldr insert [] := by rw [h]
    simpa only [mem_foldr_insert_iff] using hk
  · intro h
    refine (increasing_foldr_insert ks).eq_of_mem_iff (increasing_foldr_insert ls) fun k => ?_
    rw [mem_foldr_insert_iff, mem_foldr_insert_iff, h k]

end HintSchema.TypeKey
