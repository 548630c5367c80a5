import Mathlib.Tactic

/-!
# Maps as lists

A map whose values carry their own key, kept as the list of its values in the order in
which the keys were first assigned.  `upsert` is the assignment.  A key has at most one
value, and a lookup after an assignment gives the assigned value at its key and what was
there before at the others.
-/

namespace ListMap

variable {α κ : Type} [DecidableEq κ] {keyOf : α → κ}

/-- `m[key] = v`. -/
def upsert (keyOf : α → κ) (v : α) : List α → List α
  | [] => [v]
  | w :: ws => if keyOf w = keyOf v then v :: ws else w :: upsert keyOf v ws

/-- Assigning a key adds it to the keys, at the end, unless it is there. -/
theorem keys_upsert (v : α) (l : List α) :
    (upsert keyOf v l).map keyOf =
      if keyOf v ∈ l.map keyOf then l.map keyOf else l.map keyOf ++ [keyOf v] := by
  induction l with
  | nil => rfl
  | cons w ws ih =>
      rw [upsert]
      by_cases hw : keyOf w = keyOf v
      · simp [hw]
      · have hv : keyOf v ≠ keyOf w := fun h => hw h.symm
        rw [if_neg hw, List.map_cons, ih]
        simp only [List.map_cons, List.mem_cons, hv, false_or]
        split <;> rfl

theorem mem_upsert {v w : α} {l : List α} (h : w ∈ upsert keyOf v l) : w = v ∨ w ∈ l := by
  induction l with
  | nil => exact .inl (List.mem_singleton.mp h)
  | cons x xs ih =>
      rw [upsert] at h
      split at h
      next =>
        rcases List.mem_cons.mp h with rfl | h
        · exact .inl rfl
        · exact .inr (List.mem_cons_of_mem x h)
      next =>
        rcases List.mem_cons.mp h with rfl | h
        · exact .inr List.mem_cons_self
        · exact (ih h).imp_right (List.mem_cons_of_mem x)

theorem mem_keys_upsert (v : α) (l : List α) (key : κ) :
    key ∈ (upsert keyOf v l).map keyOf ↔ key = keyOf v ∨ key ∈ l.map keyOf := by
  rw [keys_upsert]
  split
  next h => exact ⟨.inr, by rintro (rfl | hk); exacts [h, hk]⟩
  next => rw [List.mem_append, List.mem_singleton, or_comm]

theorem nodup_upsert (v : α) {l : List α} (h : (l.map keyOf).Nodup) :
    ((upsert keyOf v l).map keyOf).Nodup := by
  rw [keys_upsert]
  split
  next => exact h
  next hv => exact h.append (List.nodup_singleton _) (by simpa using hv)

/-- The map after `m[key] = v`. -/
theorem find?_upsert (v : α) (l : List α) (key : κ) :
    (upsert keyOf v l).find? (keyOf · = key) =
      if keyOf v = key then some v else l.find? (keyOf · = key) := by
  induction l with
  | nil => by_cases hk : keyOf v = key <;> simp [upsert, hk]
  | cons w ws ih =>
      rw [upsert]
      by_cases hw : keyOf w = keyOf v
      · rw [if_pos hw, List.find?_cons, List.find?_cons, hw]
        by_cases hk : keyOf v = key <;> simp [hk]
      · rw [if_neg hw, List.find?_cons, List.find?_cons, ih]
        by_cases hk : keyOf w = key
        · have hv : keyOf v ≠ key := fun h => hw (hk.trans h.symm)
          simp [hk, hv]
        · simp [hk]

/-- With distinct keys, the elements are the values of their keys. -/
theorem mem_iff_find? {l : List α} (h : (l.map keyOf).Nodup) {v : α} :
    v ∈ l ↔ l.find? (keyOf · = keyOf v) = some v := by
  constructor
  · intro hv
    induction l with
    | nil => cases hv
    | cons w ws ih =>
        obtain ⟨hw, hws⟩ := List.nodup_cons.mp h
        rcases List.mem_cons.mp hv with rfl | hv
        · exact List.find?_cons_of_pos (by simp)
        · rw [List.find?_cons_of_neg, ih hws hv]
          intro hkey
          exact hw (of_decide_eq_true hkey ▸ List.mem_map_of_mem hv)
  · exact List.mem_of_find?_eq_some

/-- Assigning the values of a list one by one keeps the last one of each key. -/
theorem mem_foldl_upsert (l : List α) {v : α} :
    v ∈ l.foldl (fun m w => upsert keyOf w m) [] ↔
      (l.filter (keyOf · = keyOf v)).getLast? = some v := by
  have hkeys : ((l.foldl (fun m w => upsert keyOf w m) []).map keyOf).Nodup := by
    induction l using List.reverseRecOn with
    | nil => exact List.nodup_nil
    | append_singleton l w ih =>
        rw [List.foldl_append]
        exact nodup_upsert w ih
  have hfind : ∀ key, (l.foldl (fun m w => upsert keyOf w m) []).find? (keyOf · = key) =
      (l.filter (keyOf · = key)).getLast? := by
    intro key
    clear hkeys
    induction l using List.reverseRecOn with
    | nil => rfl
    | append_singleton l w ih =>
        rw [List.foldl_append]
        refine (find?_upsert w _ key).trans ?_
        rw [ih, List.filter_append]
        by_cases hw : keyOf w = key
        · simp [hw]
        · simp [hw]
  rw [mem_iff_find? hkeys, hfind]

end ListMap
