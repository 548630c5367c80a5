import Mathlib.Data.List.AList

/-!
# Finite maps

`FinMap κ α` is Mathlib's association list at a constant family: what a `map[κ]α` of Go
is.  The lookup lemmas are stated with an `if`, for maps under a variable key.
-/

abbrev FinMap (κ α : Type) := AList fun _ : κ => α

namespace FinMap

variable {κ α : Type} [DecidableEq κ]

theorem lookup_insert_if (m : FinMap κ α) (k k' : κ) (v : α) :
    (m.insert k v).lookup k' = if k' = k then some v else m.lookup k' := by
  split
  next h =>
    subst h
    exact m.lookup_insert
  next h => exact AList.lookup_insert_ne h

theorem lookup_erase_if (m : FinMap κ α) (k k' : κ) :
    (m.erase k).lookup k' = if k' = k then none else m.lookup k' := by
  split
  next h =>
    subst h
    exact m.lookup_erase k'
  next h => exact AList.lookup_erase_ne h

theorem keys_insert_of_notMem {m : FinMap κ α} {k : κ} (h : k ∉ m.keys) (v : α) :
    (m.insert k v).keys = k :: m.keys := by
  rw [AList.keys_insert, List.erase_of_not_mem h]

theorem keys_erase_sublist (m : FinMap κ α) (k : κ) : (m.erase k).keys.Sublist m.keys := by
  rw [AList.keys_erase]
  exact List.erase_sublist

/-- The entries of a map, one of them apart. -/
theorem entries_perm_of_lookup {m : FinMap κ α} {k : κ} {v : α} (h : m.lookup k = some v) :
    m.entries.Perm (⟨k, v⟩ :: (m.erase k).entries) := by
  have hmem : (⟨k, v⟩ : Σ _ : κ, α) ∈ m.entries := AList.mem_lookup_iff.mp h
  obtain ⟨w, l₁, l₂, hl₁, hentries, herase⟩ := List.exists_of_kerase (List.mem_keys_of_mem hmem)
  have hkv : w = v := by
    have hw : (⟨k, w⟩ : Σ _ : κ, α) ∈ m.entries := by
      rw [hentries]
      exact List.mem_append_right _ List.mem_cons_self
    exact Option.some.inj ((AList.mem_lookup_iff.mpr hw).symm.trans h)
  have herase : (m.erase k).entries = l₁ ++ l₂ := herase
  rw [herase, hentries, hkv]
  exact List.perm_middle

/-- A map made by insertions has the last value inserted at a key. -/
theorem lookup_foldl_insert (key : α → κ) (l : List α) (m : FinMap κ α) (k : κ) :
    (l.foldl (fun m a => m.insert (key a) a) m).lookup k =
      (l.filter (key · = k)).getLast?.or (m.lookup k) := by
  induction l generalizing m with
  | nil => rfl
  | cons a l ih =>
      rw [List.foldl_cons, ih, lookup_insert_if, List.filter_cons]
      by_cases hk : key a = k
      · rw [if_pos hk.symm, if_pos (by simpa using hk), List.getLast?_cons]
        cases (l.filter (key · = k)).getLast? <;> rfl
      · rw [if_neg (Ne.symm hk), if_neg (by simpa using hk)]

/-- Change or remove the value of a key. -/
def alter (f : α → Option α) (k : κ) (m : FinMap κ α) : FinMap κ α :=
  match m.lookup k with
  | none => m
  | some v =>
    match f v with
    | none => m.erase k
    | some v => m.insert k v

theorem lookup_alter (f : α → Option α) (k k' : κ) (m : FinMap κ α) :
    (alter f k m).lookup k' = if k' = k then (m.lookup k').bind f else m.lookup k' := by
  unfold alter
  split
  next h =>
    split
    next heq => rw [heq, h]; rfl
    next => rfl
  next v h =>
    split
    next hf =>
      rw [lookup_erase_if]
      split
      next heq => rw [heq, h, Option.bind_some, hf]
      next => rfl
    next w hf =>
      rw [lookup_insert_if]
      split
      next heq => rw [heq, h, Option.bind_some, hf]
      next => rfl

/-- A loop over the keys that changes or removes each value. -/
def alterAll (f : α → Option α) (m : FinMap κ α) : FinMap κ α :=
  m.keys.foldl (fun m k => alter f k m) m

theorem lookup_foldl_alter (f : α → Option α) {ks : List κ} (hks : ks.Nodup) (m : FinMap κ α)
    (k : κ) : (ks.foldl (fun m k => alter f k m) m).lookup k =
      if k ∈ ks then (m.lookup k).bind f else m.lookup k := by
  induction ks generalizing m with
  | nil => rfl
  | cons k' ks ih =>
      obtain ⟨hk', hks⟩ := List.nodup_cons.mp hks
      rw [List.foldl_cons, ih hks, lookup_alter]
      by_cases heq : k = k'
      · subst heq
        simp [hk']
      · simp [heq]

theorem lookup_alterAll (f : α → Option α) (m : FinMap κ α) (k : κ) :
    (alterAll f m).lookup k = (m.lookup k).bind f := by
  rw [alterAll, lookup_foldl_alter f m.keys_nodup]
  split
  next => rfl
  next hk =>
    have hnone : m.lookup k = none := by
      rw [AList.lookup_eq_none]
      exact hk
    rw [hnone]
    rfl

end FinMap
