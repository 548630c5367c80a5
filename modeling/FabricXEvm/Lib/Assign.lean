import Mathlib.Data.List.Nodup
import Mathlib.Logic.Function.Basic

/-!
# Assignments

A map with a value for every key, and lists of assignments to it.  The last assignment of a
key decides (`all_of_mem`), so a map that agrees elsewhere may be put in place of the first
one.  Hence making the last assignments of a list once more changes nothing, also when some
of them had only been made in part (`all_again`).
-/

namespace Assign

variable {κ : Type} [DecidableEq κ] {ν : κ → Type} {m m' : (k : κ) → ν k}
  {ws xs ys : List (Σ k, ν k)} {k : κ}

/-- The map after the assignments, from left to right. -/
def all (m : (k : κ) → ν k) (ws : List (Σ k, ν k)) : (k : κ) → ν k :=
  ws.foldl (fun m w => Function.update m w.1 w.2) m

theorem all_append : all m (xs ++ ys) = all (all m xs) ys := List.foldl_append

theorem all_of_notMem (h : k ∉ ws.map Sigma.fst) : all m ws k = m k := by
  induction ws generalizing m with
  | nil => rfl
  | cons w ws ih =>
      rw [List.map_cons, List.mem_cons, not_or] at h
      exact (ih h.2).trans (Function.update_of_ne h.1 _ _)

/-- The last assignment of a key decides. -/
theorem all_of_mem (h : k ∈ ws.map Sigma.fst) : all m ws k = all m' ws k := by
  induction ws generalizing m m' with
  | nil => cases h
  | cons w ws ih =>
      by_cases hmem : k ∈ ws.map Sigma.fst
      · exact ih hmem
      · rw [List.map_cons, List.mem_cons] at h
        cases h.resolve_right hmem
        change all (Function.update m w.1 w.2) ws w.1 = all (Function.update m' w.1 w.2) ws w.1
        rw [all_of_notMem hmem, all_of_notMem hmem, Function.update_self, Function.update_self]

/-- A key that is assigned once has that value. -/
theorem all_of_nodup (hnodup : (ws.map Sigma.fst).Nodup) {v : ν k} (h : ⟨k, v⟩ ∈ ws) :
    all m ws k = v := by
  induction ws generalizing m with
  | nil => cases h
  | cons w ws ih =>
      rw [List.map_cons, List.nodup_cons] at hnodup
      rcases List.mem_cons.mp h with rfl | h
      · exact (all_of_notMem hnodup.1).trans (Function.update_self _ _ _)
      · exact ih hnodup.2 h

/-- If the last assignments lead from `m` to where all of them lead from `m'`, then making
more of them from `m` leads there as well. -/
theorem all_again (h : all m ys = all m' (xs ++ ys)) : all m (xs ++ ys) = all m' (xs ++ ys) := by
  funext k
  by_cases hmem : k ∈ (xs ++ ys).map Sigma.fst
  · exact all_of_mem hmem
  · have hys : k ∉ ys.map Sigma.fst := fun hk =>
      hmem (by rw [List.map_append]; exact List.mem_append_right _ hk)
    rw [← h, all_of_notMem hmem, all_of_notMem hys]

end Assign
