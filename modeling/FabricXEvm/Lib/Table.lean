import Mathlib.Data.List.Nodup

/-!
# Tables with constraints

A table of a relational database, as far as inserts with `ON CONFLICT (target) DO
NOTHING` need it.  The rows are a list, oldest first.  A schema says which rows pass
the column checks, which column the conflict clause names, and when two rows violate
one of the other uniqueness constraints.

The order of the tests is the database's: a row that fails a check is an error even
when its target value is taken, and a row whose target value is taken is skipped even
when it would violate another constraint as well.  Foreign keys concern only the rows
that do get in.
-/

/-- Why an insert is refused. -/
inductive Violation where
  | check
  | unique
  | foreignKey
deriving DecidableEq, Repr

structure Schema (ρ κ : Type) where
  /-- The `CHECK` and `NOT NULL` constraints of one row. -/
  check : ρ → Bool
  /-- The column of the conflict clause. -/
  target : ρ → κ
  /-- A stored row and a new one share a value that must be unique, other than the
  target. -/
  clash : ρ → ρ → Bool

namespace Schema

variable {ρ κ : Type} [DecidableEq κ] {s : Schema ρ κ} {rows rows' : List ρ} {row r : ρ}
  {references : Bool} {k : κ}

/-- Insert a row.  `references` says whether the rows its foreign keys name exist. -/
def insert (s : Schema ρ κ) (references : Bool) (row : ρ) (rows : List ρ) :
    Except Violation (List ρ) :=
  if s.check row = false then .error .check
  else if rows.any (fun r => s.target r = s.target row) then .ok rows
  else if rows.any (fun r => s.clash r row) then .error .unique
  else if references = false then .error .foreignKey
  else .ok (rows ++ [row])

/-- What an insert that is not refused does. -/
theorem insert_ok (h : s.insert references row rows = .ok rows') :
    s.check row = true ∧
      ((∃ r ∈ rows, s.target r = s.target row) ∧ rows' = rows ∨
        (∀ r ∈ rows, s.target r ≠ s.target row) ∧ (∀ r ∈ rows, s.clash r row = false) ∧
          references = true ∧ rows' = rows ++ [row]) := by
  unfold insert at h
  split at h
  · cases h
  next hcheck =>
    refine ⟨by simpa using hcheck, ?_⟩
    split at h
    next htaken =>
      left
      exact ⟨by simpa using htaken, (Except.ok.inj h).symm⟩
    next hfree =>
      split at h
      · cases h
      next hclash =>
        split at h
        · cases h
        next hrefs =>
          right
          exact ⟨by simpa using hfree, by simpa using hclash, by simpa using hrefs,
            (Except.ok.inj h).symm⟩

/-- Rows are never lost or changed. -/
theorem mem_of_insert (h : s.insert references row rows = .ok rows') (hr : r ∈ rows) : r ∈ rows' := by
  obtain ⟨_, ⟨_, rfl⟩ | ⟨_, _, _, rfl⟩⟩ := insert_ok h
  · exact hr
  · exact List.mem_append_left _ hr

theorem eq_or_mem_of_insert (h : s.insert references row rows = .ok rows') (hr : r ∈ rows') :
    r ∈ rows ∨ r = row := by
  obtain ⟨_, ⟨_, rfl⟩ | ⟨_, _, _, rfl⟩⟩ := insert_ok h
  · exact .inl hr
  · simpa using hr

/-- After an insert the row's target value is taken. -/
theorem exists_target_of_insert (h : s.insert references row rows = .ok rows') :
    ∃ r ∈ rows', s.target r = s.target row := by
  obtain ⟨_, ⟨hr, rfl⟩ | ⟨_, _, _, rfl⟩⟩ := insert_ok h
  · exact hr
  · exact ⟨row, by simp, rfl⟩

/-- A row whose target value is free and that clashes with none goes in. -/
theorem insert_new (hcheck : s.check row = true) (hfree : ∀ r ∈ rows, s.target r ≠ s.target row)
    (hclash : ∀ r ∈ rows, s.clash r row = false) :
    s.insert true row rows = .ok (rows ++ [row]) := by
  unfold insert
  rw [if_neg (by simp [hcheck]), if_neg (by simpa using hfree), if_neg (by simpa using hclash),
    if_neg (by simp)]

/-- An insert is refused for a clash only if there is one. -/
theorem clash_of_insert (h : s.insert references row rows = .error .unique) :
    (∀ r ∈ rows, s.target r ≠ s.target row) ∧ ∃ r ∈ rows, s.clash r row = true := by
  unfold insert at h
  split at h
  · cases h
  · split at h
    · cases h
    next hfree =>
      split at h
      next hclash => exact ⟨by simpa using hfree, by simpa using hclash⟩
      next => split at h <;> cases h

/-- Two tables that agree up to `f`, of which the second refuses nothing the first
accepts, agree after an insert. -/
theorem insert_sim {α : Type} {f : ρ → α} {row' : ρ} {out : List ρ}
    (hrows : rows'.map f = rows.map f)
    (htarget : ∀ {a b c d}, f a = f b → f c = f d → (s.target a = s.target c ↔ s.target b = s.target d))
    (hrow : f row' = f row) (hcheck : s.check row = true → s.check row' = true)
    (hclash : ∀ r ∈ rows, ∀ r' ∈ rows', f r' = f r → s.clash r row = false →
      s.clash r' row' = false)
    (h : s.insert references row rows = .ok out) :
    ∃ out', s.insert true row' rows' = .ok out' ∧ out'.map f = out.map f := by
  -- A row of either table has a counterpart in the other.
  have hback : ∀ r' ∈ rows', ∃ r ∈ rows, f r' = f r := by
    intro r' hr'
    obtain ⟨r, hr, heq⟩ := List.mem_map.mp (hrows ▸ List.mem_map_of_mem hr')
    exact ⟨r, hr, heq.symm⟩
  obtain ⟨hc, ⟨⟨r, hr, htaken⟩, rfl⟩ | ⟨hfree, hnone, _, rfl⟩⟩ := insert_ok h
  · obtain ⟨r', hr', heq⟩ := List.mem_map.mp (hrows.symm ▸ List.mem_map_of_mem hr)
    refine ⟨rows', ?_, hrows⟩
    unfold insert
    rw [if_neg (by simp [hcheck hc]), if_pos]
    simpa using ⟨r', hr', (htarget heq hrow).mpr htaken⟩
  · refine ⟨rows' ++ [row'], insert_new (hcheck hc) ?_ ?_, by simp [hrows, hrow]⟩
    · intro r' hr' htaken
      obtain ⟨r, hr, heq⟩ := hback r' hr'
      exact hfree r hr ((htarget heq hrow).mp htaken)
    · intro r' hr'
      obtain ⟨r, hr, heq⟩ := hback r' hr'
      exact hclash r hr r' hr' heq (hnone r hr)

/-- The row would pass the checks, and its target value is taken. -/
def Has (s : Schema ρ κ) (rows : List ρ) (row : ρ) : Prop :=
  s.check row = true ∧ ∃ r ∈ rows, s.target r = s.target row

omit [DecidableEq κ] in
theorem Has.mono (h : s.Has rows row) (hsub : rows ⊆ rows') : s.Has rows' row := by
  obtain ⟨hcheck, r, hr, htarget⟩ := h
  exact ⟨hcheck, r, hsub hr, htarget⟩

theorem has_of_insert (h : s.insert references row rows = .ok rows') : s.Has rows' row :=
  ⟨(insert_ok h).1, exists_target_of_insert h⟩

/-- Inserting a row once more changes nothing. -/
theorem Has.insert_eq (h : s.Has rows row) : s.insert references row rows = .ok rows := by
  obtain ⟨hcheck, r, hr, htarget⟩ := h
  unfold insert
  rw [if_neg (by simp [hcheck]), if_pos]
  simpa using ⟨r, hr, htarget⟩

/-- A table that keeps its constraints. -/
structure Valid (s : Schema ρ κ) (rows : List ρ) : Prop where
  check : ∀ r ∈ rows, s.check r = true
  targets : (rows.map s.target).Nodup
  clashFree : rows.Pairwise fun r r' => s.clash r r' = false

omit [DecidableEq κ] in
theorem valid_nil : s.Valid [] where
  check _ hr := absurd hr List.not_mem_nil
  targets := List.nodup_nil
  clashFree := .nil

theorem Valid.insert (hrows : s.Valid rows) (h : s.insert references row rows = .ok rows') :
    s.Valid rows' := by
  obtain ⟨hcheck, ⟨_, rfl⟩ | ⟨hfree, hclash, _, rfl⟩⟩ := insert_ok h
  · exact hrows
  · refine ⟨fun r hr => ?_, ?_, ?_⟩
    · rcases List.mem_append.mp hr with hr | hr
      · exact hrows.check r hr
      · rw [List.mem_singleton.mp hr]
        exact hcheck
    · rw [List.map_append, List.nodup_append]
      refine ⟨hrows.targets, List.nodup_singleton _, fun k hk k' hk' => ?_⟩
      obtain ⟨r, hr, rfl⟩ := List.mem_map.mp hk
      rw [List.mem_singleton.mp hk']
      exact hfree r hr
    · rw [List.pairwise_append]
      refine ⟨hrows.clashFree, List.pairwise_singleton _ _, fun r hr r' hr' => ?_⟩
      rw [List.mem_singleton.mp hr']
      exact hclash r hr

omit [DecidableEq κ] in
theorem Valid.eq_of_target (hrows : s.Valid rows) (hr : r ∈ rows) (hrow : row ∈ rows)
    (h : s.target r = s.target row) : r = row :=
  List.inj_on_of_nodup_map hrows.targets hr hrow h

/-- In a valid table each row is the one found for its target value. -/
theorem Valid.find? (hrows : s.Valid rows) (hr : r ∈ rows) (h : s.target r = k) :
    rows.find? (fun r => s.target r = k) = some r := by
  obtain ⟨x, hx⟩ : ∃ x, rows.find? (fun r => s.target r = k) = some x :=
    Option.isSome_iff_exists.mp (List.find?_isSome.mpr ⟨r, hr, by simpa using h⟩)
  have hmem := List.mem_of_find?_eq_some hx
  have htarget : s.target x = k := by simpa using List.find?_some hx
  rw [hx, hrows.eq_of_target hmem hr (htarget.trans h.symm)]

/-- The rows with one target value. -/
theorem Valid.filter (hrows : s.Valid rows) (hr : r ∈ rows) (h : s.target r = k) :
    rows.filter (fun r => s.target r = k) = [r] := by
  have hnodup : (rows.filter fun r => s.target r = k).Nodup :=
    (List.Nodup.of_map _ hrows.targets).filter _
  refine List.perm_singleton.mp ((List.perm_ext_iff_of_nodup hnodup (List.nodup_singleton r)).mpr
    fun x => ?_)
  rw [List.mem_filter, List.mem_singleton, decide_eq_true_eq]
  constructor
  · rintro ⟨hx, htarget⟩
    exact hrows.eq_of_target hx hr (htarget.trans h.symm)
  · rintro rfl
    exact ⟨hr, h⟩

/-- The row found for a target value is the first one that was inserted for it. -/
theorem find?_insert (h : s.insert references row rows = .ok rows') (k : κ) :
    rows'.find? (fun r => s.target r = k) =
      (rows.find? fun r => s.target r = k).or
        ([row].find? fun r => s.target r = k) := by
  obtain ⟨_, ⟨⟨r, hr, hrow⟩, rfl⟩ | ⟨_, _, _, rfl⟩⟩ := insert_ok h
  · by_cases hk : s.target row = k
    · obtain ⟨x, hx⟩ : ∃ x, rows'.find? (fun r => s.target r = k) = some x :=
        Option.isSome_iff_exists.mp (List.find?_isSome.mpr ⟨r, hr, by simpa using hrow.trans hk⟩)
      rw [hx, Option.some_or]
    · simp [hk]
  · rw [List.find?_append]

/-- The rows are the first ones of their target value among those that were given. -/
def Firsts (s : Schema ρ κ) (given rows : List ρ) : Prop :=
  ∀ k, rows.find? (fun r => s.target r = k) = given.find? fun r => s.target r = k

theorem Firsts.insert {given : List ρ} (h : s.Firsts given rows)
    (hins : s.insert references row rows = .ok rows') : s.Firsts (given ++ [row]) rows' := by
  intro k
  rw [find?_insert hins, h k, List.find?_append]

theorem Firsts.find?_of_mem {given : List ρ} (h : s.Firsts given rows) (hrows : s.Valid rows)
    (hr : r ∈ rows) : given.find? (fun r' => s.target r' = s.target r) = some r :=
  (h _).symm.trans (hrows.find? hr rfl)

theorem Firsts.mem_of_find? {given : List ρ} (h : s.Firsts given rows)
    (hfind : given.find? (fun r' => s.target r' = k) = some r) : r ∈ rows :=
  List.mem_of_find?_eq_some ((h k).trans hfind)

end Schema

/-- The pairs of rows of two tables that belong together. -/
def Table.join {α β : Type} (as : List α) (bs : List β) (on : α → β → Bool) : List (α × β) :=
  as.flatMap fun a => (bs.filter (on a)).map fun b => (a, b)

/-- The first components of a join in which each row has one partner, with a condition on the
partner. -/
theorem Table.map_fst_join {α β : Type} {as : List α} {bs : List β} {on : α → β → Bool}
    {p : β → Bool} {q : α → Bool} (h : ∀ a ∈ as, ∃ b, bs.filter (on a) = [b] ∧ p b = q a) :
    ((Table.join as bs on).filter fun r => p r.2).map Prod.fst = as.filter q := by
  induction as with
  | nil => rfl
  | cons a as ih =>
      have ih := ih fun a ha => h a (List.mem_cons_of_mem _ ha)
      obtain ⟨b, hb, hpq⟩ := h a List.mem_cons_self
      unfold Table.join at ih ⊢
      rw [List.flatMap_cons, List.filter_append, List.map_append, ih, hb, List.filter_cons, ← hpq]
      cases hp : p b with
      | false => simp [hp]
      | true => simp [hp]

/-- A search for what only one row can meet. -/
theorem Table.find?_eq_some_iff {ρ : Type} {rows : List ρ} {p : ρ → Bool}
    (h : ∀ r ∈ rows, ∀ r' ∈ rows, p r = true → p r' = true → r = r') {r : ρ} :
    rows.find? p = some r ↔ r ∈ rows ∧ p r = true := by
  constructor
  · intro hr
    exact ⟨List.mem_of_find?_eq_some hr, List.find?_some hr⟩
  · rintro ⟨hr, hp⟩
    obtain ⟨r', hr'⟩ := Option.isSome_iff_exists.mp (List.find?_isSome.mpr ⟨r, hr, hp⟩)
    rw [hr', h r' (List.mem_of_find?_eq_some hr') r hr (List.find?_some hr') hp]

/-- Rows in the order of a number have the numbers from 0 on exactly if there is no gap. -/
theorem Table.numbered_iff {ρ : Type} {rows : List ρ} {f : ρ → Int}
    (hsorted : rows.Pairwise fun r r' => f r < f r') :
    (∃ c : Nat, ∀ i, (∃ r ∈ rows, f r = i) ↔ 0 ≤ i ∧ i < c) ↔
      ∀ (i : Nat) r, rows[i]? = some r → f r = i := by
  constructor
  · rintro ⟨c, hc⟩
    have hmap : rows.map f = (List.range c).map Nat.cast := by
      have hlt : (rows.map f).Pairwise (· < ·) := List.pairwise_map.mpr hsorted
      have hlt' : ((List.range c).map (Nat.cast : Nat → Int)).Pairwise (· < ·) :=
        List.pairwise_map.mpr (List.pairwise_lt_range.imp Int.ofNat_lt.mpr)
      refine List.Perm.eq_of_pairwise (fun a b _ _ h h' => absurd h (Int.lt_asymm h')) hlt hlt' ?_
      refine (List.perm_ext_iff_of_nodup (hlt.imp Int.ne_of_lt) (hlt'.imp Int.ne_of_lt)).mpr fun i => ?_
      rw [List.mem_map, List.mem_map, hc i]
      constructor
      · rintro ⟨hnonneg, hlt⟩
        exact ⟨i.toNat, List.mem_range.mpr (by omega), by omega⟩
      · rintro ⟨n, hn, rfl⟩
        have := List.mem_range.mp hn
        omega
    intro i r hr
    have hget := congrArg (·[i]?) hmap
    simp only [List.getElem?_map, hr, Option.map_some] at hget
    obtain ⟨n, hn, heq⟩ := Option.map_eq_some_iff.mp hget.symm
    obtain ⟨hlt, hn⟩ := List.getElem?_eq_some_iff.mp hn
    rw [← heq, ← hn, List.getElem_range]
  · intro h
    refine ⟨rows.length, fun i => ?_⟩
    constructor
    · rintro ⟨r, hr, rfl⟩
      obtain ⟨n, hn⟩ := List.getElem?_of_mem hr
      have := (List.getElem?_eq_some_iff.mp hn).1
      rw [h n r hn]
      omega
    · rintro ⟨hnonneg, hlt⟩
      have hi : i.toNat < rows.length := by omega
      exact ⟨_, List.getElem_mem hi, by rw [h i.toNat _ (List.getElem?_eq_getElem hi)]; omega⟩
