import Mathlib.Order.Lattice
import Mathlib.Tactic

/-!
# Ordered stores

A key-value store that keeps its entries in the order of the keys, as an LSM tree or a
B-tree does.  Changes are made in batches, which apply as a whole.  An iterator walks the
entries from a lower bound on.

The entries are a list with increasing keys.  Everything is stated through `get`: what it
gives after a batch (`get_put`, `get_delete`, `write_append`), what an iterator visits
(`mem_scan`), what it finds first (`head?_scan`), and what it has seen when it stops at the
first key that is too large (`mem_takeWhile_scan`).
-/

/-- A store, with its entries in the order of the keys. -/
structure OrderedStore (κ ν : Type) [LinearOrder κ] where
  entries : List (κ × ν)
  sorted : entries.Pairwise fun e e' => e.1 < e'.1

namespace OrderedStore

variable {κ ν : Type} [LinearOrder κ]

/-! ## Operations -/

/-- The store without entries. -/
def empty : OrderedStore κ ν := ⟨[], .nil⟩

/-- The value of a key. -/
def get (s : OrderedStore κ ν) (k : κ) : Option ν :=
  (s.entries.find? fun e => e.1 = k).map Prod.snd

/-- Insert or replace an entry. -/
def insertEntry (k : κ) (v : ν) : List (κ × ν) → List (κ × ν)
  | [] => [(k, v)]
  | e :: es =>
      if k < e.1 then (k, v) :: e :: es
      else if e.1 = k then (k, v) :: es
      else e :: insertEntry k v es

theorem mem_insertEntry {k : κ} {v : ν} {es : List (κ × ν)} {e : κ × ν}
    (h : e ∈ insertEntry k v es) : e = (k, v) ∨ e ∈ es := by
  induction es with
  | nil => exact .inl (List.mem_singleton.mp h)
  | cons e' es ih =>
      rw [insertEntry] at h
      split at h
      next => exact List.mem_cons.mp h
      next =>
        split at h
        next => exact (List.mem_cons.mp h).imp_right (List.mem_cons_of_mem _)
        next =>
          rcases List.mem_cons.mp h with rfl | h
          · exact .inr List.mem_cons_self
          · exact (ih h).imp_right (List.mem_cons_of_mem _)

theorem sorted_insertEntry (k : κ) (v : ν) {es : List (κ × ν)}
    (hs : es.Pairwise fun e e' => e.1 < e'.1) :
    (insertEntry k v es).Pairwise fun e e' => e.1 < e'.1 := by
  induction es with
  | nil => exact List.pairwise_singleton _ _
  | cons e es ih =>
      rw [List.pairwise_cons] at hs
      rw [insertEntry]
      split
      next hlt =>
        refine .cons (fun e' he' => ?_) (.cons hs.1 hs.2)
        rcases List.mem_cons.mp he' with rfl | he'
        · exact hlt
        · exact hlt.trans (hs.1 e' he')
      next hnlt =>
        split
        next heq => exact .cons (fun e' he' => heq ▸ hs.1 e' he') hs.2
        next hne =>
          refine .cons (fun e' he' => ?_) (ih hs.2)
          rcases mem_insertEntry he' with rfl | he'
          · exact lt_of_le_of_ne (not_lt.mp hnlt) hne
          · exact hs.1 e' he'

/-- Set the value of a key. -/
def put (s : OrderedStore κ ν) (k : κ) (v : ν) : OrderedStore κ ν :=
  ⟨insertEntry k v s.entries, sorted_insertEntry k v s.sorted⟩

/-- Remove a key. -/
def delete (s : OrderedStore κ ν) (k : κ) : OrderedStore κ ν :=
  ⟨s.entries.filter fun e => e.1 ≠ k, s.sorted.filter _⟩

/-- One change of a batch. -/
inductive Change (κ ν : Type) where
  | put (k : κ) (v : ν)
  | delete (k : κ)

def apply (s : OrderedStore κ ν) : Change κ ν → OrderedStore κ ν
  | .put k v => s.put k v
  | .delete k => s.delete k

/-- Apply a batch; a later change of a key replaces an earlier one. -/
def write (s : OrderedStore κ ν) (batch : List (Change κ ν)) : OrderedStore κ ν :=
  batch.foldl apply s

/-- What an iterator visits: the entries from `lo` on whose keys are in range. -/
def scan (s : OrderedStore κ ν) (lo : κ) (inRange : κ → Bool) : List (κ × ν) :=
  s.entries.filter fun e => lo ≤ e.1 && inRange e.1

/-! ## Point reads -/

theorem find?_eq_some {es : List (κ × ν)} (hs : es.Pairwise fun e e' => e.1 < e'.1) {k : κ}
    {e : κ × ν} : es.find? (fun e => e.1 = k) = some e ↔ e ∈ es ∧ e.1 = k := by
  induction es with
  | nil => simp
  | cons e' es ih =>
      rw [List.pairwise_cons] at hs
      rw [List.find?_cons]
      by_cases hk : e'.1 = k
      · simp only [hk, decide_true, Option.some.injEq, List.mem_cons]
        constructor
        · rintro rfl
          exact ⟨.inl rfl, hk⟩
        · rintro ⟨rfl | hmem, he⟩
          · rfl
          · exact absurd (hs.1 e hmem) (by rw [hk, he]; exact lt_irrefl k)
      · simp only [hk, decide_false, ih hs.2, List.mem_cons]
        constructor
        · rintro ⟨hmem, he⟩
          exact ⟨.inr hmem, he⟩
        · rintro ⟨rfl | hmem, he⟩
          · exact absurd he hk
          · exact ⟨hmem, he⟩

/-- The entries are the keys with their values. -/
theorem mem_entries (s : OrderedStore κ ν) {k : κ} {v : ν} :
    (k, v) ∈ s.entries ↔ s.get k = some v := by
  rw [get, Option.map_eq_some_iff]
  constructor
  · intro h
    exact ⟨(k, v), (find?_eq_some s.sorted).mpr ⟨h, rfl⟩, rfl⟩
  · rintro ⟨e, he, rfl⟩
    obtain ⟨hmem, rfl⟩ := (find?_eq_some s.sorted).mp he
    exact hmem

@[simp] theorem get_empty (k : κ) : (empty : OrderedStore κ ν).get k = none := rfl

theorem find?_insertEntry (k k' : κ) (v : ν) (es : List (κ × ν)) :
    (insertEntry k v es).find? (fun e => e.1 = k') =
      if k' = k then some (k, v) else es.find? fun e => e.1 = k' := by
  induction es with
  | nil =>
      by_cases hk : k' = k
      · simp [insertEntry, hk]
      · simp [insertEntry, hk, Ne.symm hk]
  | cons e es ih =>
      rw [insertEntry]
      by_cases hk : k' = k
      · subst hk
        split
        next => simp
        next =>
          split
          next => simp
          next hne => simp [hne, ih]
      · have hk' : k ≠ k' := Ne.symm hk
        split
        next => simp [List.find?_cons, hk']
        next =>
          split
          next heq => simp [heq, hk']
          next => simp only [List.find?_cons, ih, if_neg hk]

theorem get_put (s : OrderedStore κ ν) (k k' : κ) (v : ν) :
    (s.put k v).get k' = if k' = k then some v else s.get k' := by
  rw [get, put, find?_insertEntry]
  split <;> rfl

theorem get_delete (s : OrderedStore κ ν) (k k' : κ) :
    (s.delete k).get k' = if k' = k then none else s.get k' := by
  ext v
  rw [← mem_entries, delete, List.mem_filter, mem_entries]
  by_cases hk : k' = k <;> simp [hk]

/-! ## Batches -/

theorem write_append (s : OrderedStore κ ν) (b b' : List (Change κ ν)) :
    s.write (b ++ b') = (s.write b).write b' :=
  List.foldl_append ..

/-- A batch of deletes. -/
theorem get_write_deletes (s : OrderedStore κ ν) (ks : List κ) (k : κ) :
    (s.write (ks.map .delete)).get k = if k ∈ ks then none else s.get k := by
  induction ks generalizing s with
  | nil => rfl
  | cons k' ks ih =>
      rw [List.map_cons]
      change ((s.delete k').write (ks.map .delete)).get k = _
      rw [ih, get_delete]
      by_cases hk : k = k' <;> simp [hk]

theorem get_write_deletes_eq_some (s : OrderedStore κ ν) {ks : List κ} {k : κ} {v : ν} :
    (s.write (ks.map .delete)).get k = some v ↔ k ∉ ks ∧ s.get k = some v := by
  rw [get_write_deletes]
  split
  next h => simp [h]
  next h => simp [h]

/-! ## Iterators -/

theorem mem_scan (s : OrderedStore κ ν) {lo k : κ} {inRange : κ → Bool} {v : ν} :
    (k, v) ∈ s.scan lo inRange ↔ s.get k = some v ∧ lo ≤ k ∧ inRange k = true := by
  rw [scan, List.mem_filter, mem_entries]
  simp

theorem sorted_scan (s : OrderedStore κ ν) (lo : κ) (inRange : κ → Bool) :
    (s.scan lo inRange).Pairwise fun e e' => e.1 < e'.1 :=
  s.sorted.filter _

/-- The first entry an iterator finds is the one with the least key. -/
theorem head?_scan (s : OrderedStore κ ν) {lo : κ} {inRange : κ → Bool} {e : κ × ν} :
    (s.scan lo inRange).head? = some e ↔
      e ∈ s.scan lo inRange ∧ ∀ e' ∈ s.scan lo inRange, e.1 ≤ e'.1 := by
  have hs := s.sorted_scan lo inRange
  cases hscan : s.scan lo inRange with
  | nil => simp
  | cons e₁ es =>
      rw [hscan, List.pairwise_cons] at hs
      rw [List.head?_cons, Option.some.injEq]
      constructor
      · rintro rfl
        refine ⟨List.mem_cons_self, fun e' he' => ?_⟩
        rcases List.mem_cons.mp he' with rfl | he'
        · exact le_rfl
        · exact (hs.1 e' he').le
      · rintro ⟨hmem, hle⟩
        rcases List.mem_cons.mp hmem with rfl | hmem
        · rfl
        · exact absurd (hs.1 e hmem) (not_lt.mpr (hle e₁ List.mem_cons_self))

/-- An iterator that stops at the first key past a bound has visited all keys below it. -/
theorem mem_takeWhile_scan (s : OrderedStore κ ν) {lo : κ} {inRange : κ → Bool} {p : κ × ν → Bool}
    (hp : ∀ e ∈ s.scan lo inRange, ∀ e' ∈ s.scan lo inRange, e.1 < e'.1 → p e' = true → p e = true)
    {e : κ × ν} :
    e ∈ (s.scan lo inRange).takeWhile p ↔ e ∈ s.scan lo inRange ∧ p e = true := by
  have hs := s.sorted_scan lo inRange
  generalize s.scan lo inRange = es at hp hs
  induction es with
  | nil => simp
  | cons e' es ih =>
      rw [List.pairwise_cons] at hs
      have ih : e ∈ es.takeWhile p ↔ e ∈ es ∧ p e = true :=
        ih (fun a ha b hb => hp a (List.mem_cons_of_mem _ ha) b (List.mem_cons_of_mem _ hb)) hs.2
      rw [List.takeWhile_cons]
      split
      next hpe =>
        rw [List.mem_cons, List.mem_cons, ih]
        constructor
        · rintro (rfl | ⟨hmem, hpe⟩)
          · exact ⟨.inl rfl, hpe⟩
          · exact ⟨.inr hmem, hpe⟩
        · rintro ⟨rfl | hmem, hpe⟩
          · exact .inl rfl
          · exact .inr ⟨hmem, hpe⟩
      next hpe =>
        constructor
        · intro h
          cases h
        · rintro ⟨hmem, he⟩
          rcases List.mem_cons.mp hmem with rfl | hmem'
          · exact absurd he hpe
          · exact absurd (hp e' List.mem_cons_self e hmem (hs.1 e hmem') he) hpe

end OrderedStore
