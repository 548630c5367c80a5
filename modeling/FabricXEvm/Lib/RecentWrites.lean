import Mathlib.Tactic
import FabricXEvm.Lib.FinMap

/-!
# The last write within a window

A map from keys to the number of the batch that wrote them last, from which the entries of
a batch are dropped once it falls out of a window.  `Answers` says what such a map is good
for: within the window it tells whether a key was written after the first `n` batches.
Recording a batch keeps it, whichever keys are looked at for dropping, since only those whose
last write falls out of the window are dropped.
-/

namespace RecentWrites

variable {κ : Type} [DecidableEq κ]

/-- The batch that wrote a key last, zero for none. -/
def lastOf (m : FinMap κ Nat) (k : κ) : Nat := (m.lookup k).getD 0

/-- The map answers for the last `window` of the batches. -/
structure Answers (m : FinMap κ Nat) (window : Nat) (batches : List (List κ)) : Prop where
  le : ∀ k, lastOf m k ≤ batches.length
  since : ∀ k n, n ≤ batches.length → batches.length ≤ n + window →
    (n < lastOf m k ↔ ∃ keys ∈ batches.drop n, k ∈ keys)

theorem answers_empty (window : Nat) : Answers (∅ : FinMap κ Nat) window [] where
  le k := le_rfl
  since k n _ _ := by
    have hlast : lastOf (∅ : FinMap κ Nat) k = 0 := rfl
    simp [hlast]

theorem lastOf_foldl_insert (keys : List κ) (seq : Nat) (m : FinMap κ Nat) (k : κ) :
    lastOf (keys.foldl (fun m k => m.insert k seq) m) k =
      if k ∈ keys then seq else lastOf m k := by
  induction keys generalizing m with
  | nil => rfl
  | cons a keys ih =>
      rw [List.foldl_cons, ih]
      by_cases hk : k ∈ keys
      · simp [hk]
      · rw [if_neg hk, lastOf, FinMap.lookup_insert_if]
        by_cases ha : k = a <;> simp [ha, hk, lastOf]

/-- Dropping keys changes only those whose last write is out of the window. -/
theorem lastOf_foldl_erase (keys : List κ) (window seq : Nat) (m : FinMap κ Nat) (k : κ) :
    lastOf (keys.foldl (fun m k => if lastOf m k + window = seq then m.erase k else m) m) k =
        lastOf m k ∨
      lastOf (keys.foldl (fun m k => if lastOf m k + window = seq then m.erase k else m) m) k = 0 ∧
        lastOf m k + window = seq := by
  induction keys generalizing m with
  | nil => exact .inl rfl
  | cons a keys ih =>
      rw [List.foldl_cons]
      split
      next ha =>
        by_cases hk : k = a
        · subst hk
          have hzero : lastOf (m.erase k) k = 0 := by simp [lastOf]
          rcases ih (m.erase k) with h | ⟨h, _⟩
          · exact .inr ⟨h.trans hzero, ha⟩
          · exact .inr ⟨h, ha⟩
        · have hsame : lastOf (m.erase a) k = lastOf m k := by
            rw [lastOf, FinMap.lookup_erase_if, if_neg hk, lastOf]
          simpa only [hsame] using ih (m.erase a)
      next => exact ih m

/-- A further batch is recorded, after some keys that fall out of the window are dropped. -/
theorem Answers.record {m : FinMap κ Nat} {window : Nat} {batches : List (List κ)}
    (hm : Answers m window batches) (dropped keys : List κ) :
    Answers
      (keys.foldl (fun m k => m.insert k (batches.length + 1))
        (dropped.foldl
          (fun m k => if lastOf m k + window = batches.length + 1 then m.erase k else m) m))
      window (batches ++ [keys]) := by
  have hlen : (batches ++ [keys]).length = batches.length + 1 := by simp
  have hdrop := lastOf_foldl_erase dropped window (batches.length + 1) m
  refine ⟨fun k => ?_, fun k n hn hwin => ?_⟩
  · rw [lastOf_foldl_insert, hlen]
    have hle := hm.le k
    split
    · exact le_rfl
    · rcases hdrop k with h | ⟨h, _⟩ <;> omega
  · rw [lastOf_foldl_insert]
    rw [hlen] at hn hwin
    rcases Nat.lt_or_ge batches.length n with hlt | hle
    · -- No batch is left, and the last write is in one of them.
      have hnil : (batches ++ [keys]).drop n = [] := List.drop_eq_nil_of_le (by omega)
      have hold := hm.le k
      rw [hnil]
      simp only [List.not_mem_nil, false_and, exists_false, iff_false, not_lt]
      split
      · omega
      · rcases hdrop k with h | ⟨h, _⟩ <;> omega
    · rw [List.drop_append_of_le_length hle]
      have hsince := hm.since k n hle (by omega)
      by_cases hk : k ∈ keys
      · simp only [hk, if_true]
        exact ⟨fun _ => ⟨keys, by simp, hk⟩, fun _ => by omega⟩
      · simp only [hk, if_false]
        have hlast : n < lastOf (dropped.foldl (fun m k =>
            if lastOf m k + window = batches.length + 1 then m.erase k else m) m) k ↔
            n < lastOf m k := by
          rcases hdrop k with h | ⟨h, hout⟩ <;> omega
        rw [hlast, hsince]
        simp [List.mem_append, or_and_right, exists_or, hk]

end RecentWrites
