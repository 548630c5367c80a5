import FabricXEvm.Storage.Parity

/-!
# Rewinding RevertibleLightKVS

Runs of `Handle` and `RevertToBlock`.  The taken slots of the history are a list of
snapshots in the order of their numbers, where only the placeholder may share its number
with the next one; and every key of them is in the current snapshot (`Holds`).

A revert cuts the history at its target.  Heights below the number of the target are read
from what is left, as before.  If an older snapshot stands in for the target there are
heights between its number and the new tip, and these lose it: they are read from the
snapshot before it (`RevertibleLightKVS.rewinds_iff`).
-/

namespace Storage

open Blocks

/-- What a read of a key shows: its value, unless it is absent or deleted. -/
def shown (data : Data) (key : Bytes) : Option (Option Bytes) :=
  (data key).bind fun r => if r.isDelete then none else some r.value

/-- What `Get` shows of a key: its value, unless it is absent or deleted. -/
def Reader.shows (r : Reader) (ns key : Bytes) : Option (Option Bytes) :=
  match r.get ns key with
  | .ok (some record) => if record.isDelete then none else some record.value
  | _ => none

theorem shows_snapshot (s : Snapshot) (ns key : Bytes) :
    Reader.shows ⟨some s⟩ ns key = shown s.data (fullKey ns key) := by
  unfold Reader.shows shown Reader.get record
  dsimp only
  cases s.data (fullKey ns key) with
  | none => rfl
  | some r => rfl

/-- A revert leaves the values of its target. -/
theorem shown_mergedData {current target : Data} {key : Bytes}
    (h : (target key).isSome → (current key).isSome) :
    shown (mergedData current target) key = shown target key := by
  unfold shown mergedData
  cases htarget : target key with
  | none =>
      cases current key with
      | none => rfl
      | some currentValue => rfl
  | some targetValue =>
      obtain ⟨currentValue, hcurrent⟩ := Option.isSome_iff_exists.mp (h (htarget ▸ rfl))
      rw [hcurrent]
      rfl

/-! ## Scans -/

section Scans

variable {hs front rest : List Snapshot} {s : Snapshot} {m n : Nat}

/-- A scan of a history without free slots. -/
abbrev scan (hs : List Snapshot) (n : Nat) : Scan := scanHistory (hs.map some) n

/-- The reader for what a scan found. -/
def Scan.reader (found : Scan) (n : Nat) : Except SnapshotError Reader :=
  match found.exact, found.best with
  | some (exact, _), _ => .ok ⟨some exact⟩
  | none, some (best, _) => .ok ⟨some best⟩
  | none, none => .error (.notFound n)

theorem scan_concat (hs : List Snapshot) (s : Snapshot) (n : Nat) :
    scan (hs ++ [s]) n = Scan.visit n (scan hs n) (some s, hs.length) := by
  simp [scan, scanHistory, List.zipIdx_append]

/-- Free slots are passed over. -/
theorem scanHistory_free (slots : List (Option Snapshot)) (k n : Nat) :
    scanHistory (slots ++ List.replicate k none) n = scanHistory slots n := by
  induction k with
  | zero => simp
  | succ k ih =>
      rw [List.replicate_succ', ← List.append_assoc, scanHistory, List.zipIdx_append,
        List.foldl_append]
      exact ih

theorem visit_later {acc : Scan} {i : Nat} (h : n < s.blockNumber) :
    Scan.visit n acc (some s, i) = acc := by
  unfold Scan.visit
  dsimp only
  rw [if_neg h.ne', if_neg fun hlt => absurd hlt.1 h.le.not_gt]

/-- Snapshots past the height are passed over. -/
theorem scan_later (h : ∀ s ∈ rest, n < s.blockNumber) : scan (front ++ rest) n = scan front n := by
  induction rest using List.reverseRecOn with
  | nil => rw [List.append_nil]
  | append_singleton rest s ih =>
      rw [← List.append_assoc, scan_concat, visit_later (h s (by simp))]
      exact ih fun s' hs' => h s' (List.mem_append_left _ hs')

/-- What a scan finds. -/
structure Scan.Of (hs : List Snapshot) (n : Nat) (found : Scan) : Prop where
  exact_none : found.exact = none → ∀ s ∈ hs, s.blockNumber ≠ n
  exact_some : ∀ s i, found.exact = some (s, i) → ∃ front rest, hs = front ++ s :: rest ∧
    front.length = i ∧ s.blockNumber = n
  best_none : found.best = none → ∀ s ∈ hs, ¬ s.blockNumber < n
  best_some : ∀ s i, found.best = some (s, i) → ∃ front rest, hs = front ++ s :: rest ∧
    front.length = i ∧ s.blockNumber < n ∧
    (∀ s' ∈ front, s'.blockNumber < n → s'.blockNumber < s.blockNumber) ∧
    ∀ s' ∈ rest, s'.blockNumber < n → s'.blockNumber ≤ s.blockNumber

/-- What one snapshot changes in a scan. -/
theorem visit_cases (n : Nat) (acc : Scan) (s : Snapshot) (i : Nat) :
    (s.blockNumber = n ∧ Scan.visit n acc (some s, i) = { acc with exact := some (s, i) }) ∨
    (s.blockNumber < n ∧ (∀ b ∈ acc.best, b.1.blockNumber < s.blockNumber) ∧
      Scan.visit n acc (some s, i) = { acc with best := some (s, i) }) ∨
    (s.blockNumber ≠ n ∧ Scan.visit n acc (some s, i) = acc ∧
      (s.blockNumber < n → ∃ b ∈ acc.best, s.blockNumber ≤ b.1.blockNumber)) := by
  unfold Scan.visit
  dsimp only
  by_cases heq : s.blockNumber = n
  · exact .inl ⟨heq, if_pos heq⟩
  · rw [if_neg heq]
    by_cases hlt : s.blockNumber < n ∧ acc.best.all (·.1.blockNumber < s.blockNumber) = true
    · refine .inr (.inl ⟨hlt.1, fun b hb => ?_, if_pos hlt⟩)
      exact of_decide_eq_true ((Option.all_eq_true _ _).mp hlt.2 b hb)
    · refine .inr (.inr ⟨heq, if_neg hlt, fun hn => ?_⟩)
      have hnot : ¬ acc.best.all (·.1.blockNumber < s.blockNumber) = true := fun h => hlt ⟨hn, h⟩
      cases hbest : acc.best with
      | none => exact absurd (by rw [hbest]; rfl) hnot
      | some b =>
          refine ⟨b, rfl, ?_⟩
          rw [hbest] at hnot
          simpa using hnot

section Visits

variable {hs : List Snapshot} {found : Scan}

/-- A snapshot found before is found in the longer list. -/
theorem Scan.Of.exact_some_skip (h : Scan.Of hs n found) (s : Snapshot) :
    ∀ s' i, found.exact = some (s', i) → ∃ front rest, hs ++ [s] = front ++ s' :: rest ∧
      front.length = i ∧ s'.blockNumber = n := by
  intro s' i hs'
  obtain ⟨front, rest, rfl, hlen, hnum⟩ := h.exact_some s' i hs'
  exact ⟨front, rest ++ [s], by rw [List.append_assoc, List.cons_append], hlen, hnum⟩

theorem Scan.Of.exact_none_skip (h : Scan.Of hs n found) (hne : s.blockNumber ≠ n)
    (hnone : found.exact = none) : ∀ s' ∈ hs ++ [s], s'.blockNumber ≠ n := by
  intro s' hs'
  rcases List.mem_append.mp hs' with hs' | hs'
  · exact h.exact_none hnone s' hs'
  · rw [List.mem_singleton.mp hs']
    exact hne

theorem Scan.Of.best_none_skip (h : Scan.Of hs n found)
    (hle : s.blockNumber < n → ∃ b ∈ found.best, s.blockNumber ≤ b.1.blockNumber)
    (hnone : found.best = none) : ∀ s' ∈ hs ++ [s], ¬ s'.blockNumber < n := by
  intro s' hs' hlt
  rcases List.mem_append.mp hs' with hs' | hs'
  · exact h.best_none hnone s' hs' hlt
  · rw [List.mem_singleton.mp hs'] at hlt
    obtain ⟨b, hb, -⟩ := hle hlt
    rw [hnone] at hb
    cases hb

/-- The best snapshot stays the best one when the next one is not past it. -/
theorem Scan.Of.best_some_skip (h : Scan.Of hs n found)
    (hle : s.blockNumber < n → ∃ b ∈ found.best, s.blockNumber ≤ b.1.blockNumber) :
    ∀ s' i, found.best = some (s', i) → ∃ front rest, hs ++ [s] = front ++ s' :: rest ∧
      front.length = i ∧ s'.blockNumber < n ∧
      (∀ r ∈ front, r.blockNumber < n → r.blockNumber < s'.blockNumber) ∧
      ∀ r ∈ rest, r.blockNumber < n → r.blockNumber ≤ s'.blockNumber := by
  intro s' i hs'
  obtain ⟨front, rest, rfl, hlen, hlt, hfront, hrest⟩ := h.best_some s' i hs'
  refine ⟨front, rest ++ [s], by rw [List.append_assoc, List.cons_append], hlen, hlt, hfront,
    fun r hr hrn => ?_⟩
  rcases List.mem_append.mp hr with hr | hr
  · exact hrest r hr hrn
  · rw [List.mem_singleton.mp hr] at hrn ⊢
    obtain ⟨b, hb, hsb⟩ := hle hrn
    cases hs'.symm.trans hb
    exact hsb

/-- A snapshot past the best one is past all that are below the height. -/
theorem Scan.Of.past_best (h : Scan.Of hs n found)
    (hbest : ∀ b ∈ found.best, b.1.blockNumber < s.blockNumber) :
    ∀ r ∈ hs, r.blockNumber < n → r.blockNumber < s.blockNumber := by
  intro r hr hrn
  cases hcase : found.best with
  | none => exact absurd hrn (h.best_none hcase r hr)
  | some b =>
      have hb := hbest b hcase
      obtain ⟨front, rest, rfl, -, -, hfront, hrest⟩ := h.best_some b.1 b.2 hcase
      rcases List.mem_append.mp hr with hr | hr
      · exact (hfront r hr hrn).trans hb
      · rcases List.mem_cons.mp hr with rfl | hr
        · exact hb
        · exact (hrest r hr hrn).trans_lt hb

end Visits

theorem scan_of (hs : List Snapshot) (n : Nat) : Scan.Of hs n (scan hs n) := by
  induction hs using List.reverseRecOn with
  | nil => exact ⟨fun _ _ h => (nomatch h), fun _ _ h => (nomatch h), fun _ _ h => (nomatch h),
      fun _ _ h => (nomatch h)⟩
  | append_singleton hs s ih =>
      rw [scan_concat]
      rcases visit_cases n (scan hs n) s hs.length with
        ⟨heq, hvisit⟩ | ⟨hlt, hbest, hvisit⟩ | ⟨hne, hvisit, hle⟩
      · have hle : s.blockNumber < n → ∃ b ∈ (scan hs n).best, s.blockNumber ≤ b.1.blockNumber :=
          fun hlt => absurd heq hlt.ne
        rw [hvisit]
        refine ⟨nofun, ?_, ih.best_none_skip hle, ih.best_some_skip hle⟩
        rintro s' i hs'
        cases hs'
        exact ⟨hs, [], rfl, rfl, heq⟩
      · rw [hvisit]
        refine ⟨ih.exact_none_skip hlt.ne, ih.exact_some_skip s, nofun, ?_⟩
        rintro s' i hs'
        cases hs'
        exact ⟨hs, [], rfl, rfl, hlt, ih.past_best hbest, nofun⟩
      · rw [hvisit]
        exact ⟨ih.exact_none_skip hne, ih.exact_some_skip s, ih.best_none_skip hle,
          ih.best_some_skip hle⟩

/-- What a revert takes of a scan; an older snapshot only for a number before the tip. -/
def Scan.target (found : Scan) (before : Bool) : Option (Snapshot × Nat) :=
  if found.exact.isNone && before then found.best else found.exact

/-- There is a target of the number, or an older one if that may stand in. -/
theorem isSome_target (hs : List Snapshot) (n : Nat) (before : Bool) :
    (Scan.target (scan hs n) before).isSome ↔
      ∃ s ∈ hs, s.blockNumber = n ∨ s.blockNumber < n ∧ before = true := by
  have hscan := scan_of hs n
  unfold Scan.target
  cases hexact : (scan hs n).exact with
  | some found =>
      obtain ⟨front, rest, hsplit, -, hnumber⟩ := hscan.exact_some found.1 found.2 hexact
      exact iff_of_true rfl ⟨found.1, by simp [hsplit], .inl hnumber⟩
  | none =>
      have hnone := hscan.exact_none hexact
      cases before with
      | false =>
          refine iff_of_false nofun ?_
          rintro ⟨s, hs, heq | ⟨-, hfalse⟩⟩
          · exact hnone s hs heq
          · cases hfalse
      | true =>
          change (scan hs n).best.isSome = true ↔ _
          cases hbest : (scan hs n).best with
          | some found =>
              obtain ⟨front, rest, hsplit, -, hbelow, -⟩ := hscan.best_some found.1 found.2 hbest
              exact iff_of_true rfl ⟨found.1, by simp [hsplit], .inr ⟨hbelow, rfl⟩⟩
          | none =>
              refine iff_of_false nofun ?_
              rintro ⟨s, hs, heq | ⟨hbelow, -⟩⟩
              · exact hnone s hs heq
              · exact hscan.best_none hbest s hs hbelow

end Scans

/-! ## Runs -/

namespace RevertibleLightKVS

/-- A store of some size after calls of `Handle` and `RevertToBlock`, and the blocks that it
has applied.  Failed calls change nothing. -/
inductive Runs (historySize : Nat) : List Block → RevertibleLightKVS → Prop where
  | new : Runs historySize [] (.new historySize)
  | applied {applied : List Block} {kvs kvs' : RevertibleLightKVS} (h : Runs historySize applied kvs)
      {b : Block} (hpast : kvs.current.Past b) (hok : kvs.handle b = .ok kvs') :
      Runs historySize (applied ++ [b]) kvs'
  | skipped {applied : List Block} {kvs : RevertibleLightKVS} (h : Runs historySize applied kvs)
      {b : Block} (hpast : ¬ kvs.current.Past b) :
      Runs historySize applied (kept kvs (kvs.handle b))
  | reverted {applied : List Block} {kvs : RevertibleLightKVS} (h : Runs historySize applied kvs)
      (blockNumber : Nat) : Runs historySize applied (kept kvs (kvs.revertToBlock blockNumber))

/-- The number of the first is below that of the second, unless it is the placeholder's. -/
def Before (s s' : Snapshot) : Prop :=
  s.blockNumber < s'.blockNumber ∨ s.placeholder = true ∧ s.blockNumber = 0 ∧ s'.blockNumber = 0

/-- What is not past the tip is before the next block. -/
theorem before_of_past {current s s' : Snapshot} {b : Block}
    (hplaceholder : current.placeholder = true → current.blockNumber = 0)
    (hpast : current.Past b) (h : s = current ∨ Before s current)
    (hnumber : s'.blockNumber = b.number) : Before s s' := by
  unfold Before
  rw [hnumber]
  rcases hpast with hpast | hpast
  · have hzero := hplaceholder hpast
    rcases h with rfl | hlt | ⟨hs, hs0, -⟩
    · rcases Nat.eq_zero_or_pos b.number with hb | hb
      · exact .inr ⟨hpast, hzero, hb⟩
      · exact .inl (by omega)
    · omega
    · rcases Nat.eq_zero_or_pos b.number with hb | hb
      · exact .inr ⟨hs, hs0, hb⟩
      · exact .inl (by omega)
  · rcases h with rfl | hlt | ⟨-, hs0, -⟩
    · exact .inl hpast
    · exact .inl (hlt.trans hpast)
    · exact .inl (by omega)

/-- The taken slots are these snapshots. -/
structure Holds (kvs : RevertibleLightKVS) (historySize : Nat) (hs : List Snapshot) : Prop where
  slots : kvs.history = hs.map some ++ List.replicate (historySize - hs.length) none
  count : kvs.nextIndex = hs.length
  fits : hs.length ≤ historySize
  placeholder : kvs.current.placeholder = true → kvs.current.blockNumber = 0
  order : (hs ++ [kvs.current]).Pairwise Before
  keys : ∀ s ∈ hs, ∀ key, (s.data key).isSome → (kvs.current.data key).isSome

variable {kvs kvs' : RevertibleLightKVS} {historySize : Nat} {hs : List Snapshot}

theorem Holds.new (historySize : Nat) :
    (RevertibleLightKVS.new historySize).Holds historySize [] where
  slots := rfl
  count := rfl
  fits := Nat.zero_le _
  placeholder _ := rfl
  order := List.pairwise_singleton _ _
  keys _ h := nomatch h

theorem Holds.length (h : kvs.Holds historySize hs) : kvs.history.length = historySize := by
  rw [h.slots, List.length_append, List.length_map, List.length_replicate]
  exact Nat.add_sub_cancel' h.fits

/-- The first free slot is taken. -/
theorem set_free (hs : List Snapshot) (k : Nat) (s : Snapshot) :
    (hs.map some ++ List.replicate (k + 1) none).set hs.length (some s) =
      (hs ++ [s]).map some ++ List.replicate k none := by
  simp [List.replicate_succ]

/-- Updates do not take keys away. -/
theorem isSome_applyUpdates {data : Data} {key : Bytes} (us : List KeyValueVersion)
    (h : (data key).isSome) : (applyUpdates data us key).isSome := by
  rw [applyUpdates_eq_foldl]
  induction us generalizing data with
  | nil => exact h
  | cons u us ih =>
      refine ih ?_
      by_cases hkey : key = u.key
      · subst hkey
        rw [put_self]
        rfl
      · rwa [put_of_ne _ hkey]

/-- The snapshots of the history after a block: the old tip is added, and the oldest snapshot
may go. -/
def pushed (historySize : Nat) (hs : List Snapshot) (current : Snapshot) : List Snapshot :=
  (hs ++ [current]).drop (hs.length + 1 - historySize)

/-- The history after a block. -/
theorem Holds.push (h : kvs.Holds historySize hs) (hsize : historySize < 2 ^ 32) (blockNum : Nat)
    (us : List KeyValueVersion) :
    let hs' := pushed historySize hs kvs.current
    (kvs.applyBlockSequential blockNum us).history =
        hs'.map some ++ List.replicate (historySize - hs'.length) none ∧
      (kvs.applyBlockSequential blockNum us).nextIndex = hs'.length ∧ hs'.length ≤ historySize := by
  have hlen := h.length
  have hfits := h.fits
  unfold applyBlockSequential
  dsimp only
  split
  next hzero =>
    obtain rfl : hs = [] := List.length_eq_zero_iff.mp (by omega)
    obtain rfl : historySize = 0 := by omega
    exact ⟨h.slots, h.count, h.fits⟩
  next hpos =>
    rw [h.count, hlen]
    split
    next hfull =>
      -- no slot is free
      have hpushed : pushed historySize hs kvs.current = hs.tail ++ [kvs.current] := by
        rw [pushed, hfull, Nat.add_sub_cancel_left, List.drop_append_of_le_length (by omega),
          List.drop_one]
      rw [hpushed]
      refine ⟨?_, ?_, ?_⟩
      · rw [h.slots, hfull, Nat.sub_self, List.replicate_zero, List.append_nil, List.length_append,
          List.length_tail, List.length_singleton, Nat.sub_add_cancel (by omega), hfull,
          Nat.sub_self, List.replicate_zero, List.append_nil, List.map_append, List.map_tail]
        rfl
      · rw [List.length_append, List.length_tail, List.length_singleton,
          Nat.sub_add_cancel (by omega), Nat.mod_eq_of_lt (by omega)]
      · rw [List.length_append, List.length_tail, List.length_singleton]
        omega
    next hfree =>
      have hlt : hs.length < historySize := lt_of_le_of_ne h.fits hfree
      have hpushed : pushed historySize hs kvs.current = hs ++ [kvs.current] := by
        rw [pushed, Nat.sub_eq_zero_of_le hlt, List.drop_zero]
      rw [hpushed]
      refine ⟨?_, ?_, ?_⟩
      · have hfree : historySize - hs.length = historySize - (hs ++ [kvs.current]).length + 1 := by
          rw [List.length_append, List.length_singleton]
          omega
        rw [h.slots, hfree]
        exact set_free hs _ kvs.current
      · rw [List.length_append, List.length_singleton, Nat.mod_eq_of_lt (by omega)]
      · rw [List.length_append, List.length_singleton]
        exact hlt

theorem Holds.handle (h : kvs.Holds historySize hs) (hsize : historySize < 2 ^ 32) {b : Block}
    (hpast : kvs.current.Past b) :
    (kvs.applyBlockSequential b.number (blockUpdates b)).Holds historySize
      (pushed historySize hs kvs.current) := by
  obtain ⟨hslots, hcount, hfits⟩ := h.push hsize b.number (blockUpdates b)
  have hsub : (pushed historySize hs kvs.current).Sublist (hs ++ [kvs.current]) :=
    List.drop_sublist _ _
  refine ⟨hslots, hcount, hfits, ?_, ?_, ?_⟩
  · rw [current_applyBlockSequential]
    exact nofun
  · rw [current_applyBlockSequential]
    refine List.pairwise_append.mpr ⟨h.order.sublist hsub, List.pairwise_singleton _ _, ?_⟩
    intro s hs s' hs'
    rw [List.mem_singleton.mp hs']
    -- the numbers of the history are not past the old tip
    have hold : s = kvs.current ∨ Before s kvs.current := by
      rcases List.mem_append.mp (hsub.subset hs) with hmem | hmem
      · exact .inr ((List.pairwise_append.mp h.order).2.2 s hmem _ (List.mem_singleton_self _))
      · exact .inl (List.mem_singleton.mp hmem)
    exact before_of_past h.placeholder hpast hold rfl
  · rw [current_applyBlockSequential]
    intro s hs key hkey
    refine isSome_applyUpdates _ ?_
    rcases List.mem_append.mp (hsub.subset hs) with hmem | hmem
    · exact h.keys s hmem key hkey
    · rwa [← List.mem_singleton.mp hmem]

/-! ## Reverts -/

/-- The snapshot a revert goes back to: that of the number, or else the latest before it. -/
inductive Target (hs : List Snapshot) (n : Nat) (s : Snapshot) (i : Nat) : Prop where
  | exact (h : (scan hs n).exact = some (s, i))
  | older (hnone : (scan hs n).exact = none) (h : (scan hs n).best = some (s, i))

theorem Holds.scan_eq (h : kvs.Holds historySize hs) (n : Nat) :
    scanHistory kvs.history n = scan hs n := by
  rw [h.slots, scanHistory_free]

/-- A revert fails without a target, and else leaves the slots before it. -/
theorem Holds.nextIndex_revert (h : kvs.Holds historySize hs) {n : Nat}
    (hne : kvs.current.blockNumber ≠ n) :
    (kvs.revertToBlock n).toOption.map nextIndex =
      (Scan.target (scan hs n) (n < kvs.current.blockNumber)).map (·.2) := by
  unfold revertToBlock
  rw [if_neg hne, h.scan_eq]
  unfold Scan.target
  dsimp only
  generalize (if (scan hs n).exact.isNone && decide (n < kvs.current.blockNumber) then
    (scan hs n).best else (scan hs n).exact) = target
  cases target with
  | none => rfl
  | some found => rfl

/-- The slots from the target on are freed. -/
theorem free_from (front rest : List Snapshot) (k : Nat) :
    ((front ++ rest).map some ++ List.replicate k none).mapIdx (fun i slot =>
        if front.length ≤ i ∧ i < (front ++ rest).length then none else slot) =
      front.map some ++ List.replicate (rest.length + k) none := by
  have hfront : (front.map some).mapIdx (fun i slot =>
      if front.length ≤ i ∧ i < (front ++ rest).length then none else slot) = front.map some := by
    refine List.mapIdx_eq_iff.mpr fun i => ?_
    rcases Nat.lt_or_ge i front.length with hlt | hge
    · simp [hlt]
    · simp [List.getElem?_eq_none hge]
  rw [List.map_append, List.append_assoc, List.mapIdx_append, hfront]
  congr 1
  refine List.eq_replicate_iff.mpr ⟨by simp, fun slot hslot => ?_⟩
  obtain ⟨i, hi, rfl⟩ := List.mem_mapIdx.mp hslot
  rw [List.length_map]
  split
  next => rfl
  next hfree =>
    rw [List.getElem_append_right (by simp at hfree ⊢; omega), List.getElem_replicate]

/-- The target is a snapshot of the history. -/
theorem Target.split {n i : Nat} {s : Snapshot} (h : Target hs n s i) :
    ∃ front rest, hs = front ++ s :: rest ∧ front.length = i ∧ s.blockNumber ≤ n := by
  cases h with
  | exact h =>
      obtain ⟨front, rest, hsplit, hlen, hn⟩ := (scan_of hs n).exact_some s i h
      exact ⟨front, rest, hsplit, hlen, hn.le⟩
  | older hnone h =>
      obtain ⟨front, rest, hsplit, hlen, hn, -⟩ := (scan_of hs n).best_some s i h
      exact ⟨front, rest, hsplit, hlen, hn.le⟩

/-- A revert either finds itself at the block or cuts the history at its target. -/
theorem Holds.revert (h : kvs.Holds historySize hs) {n : Nat} (hok : kvs.revertToBlock n = .ok kvs') :
    (kvs.current.blockNumber = n ∧ kvs' = kvs) ∨
      ∃ front s rest, hs = front ++ s :: rest ∧ kvs.current.blockNumber ≠ n ∧
        Target hs n s front.length ∧ s.blockNumber ≤ n ∧
        kvs'.current = { blockNumber := n, data := mergedData kvs.current.data s.data } ∧
        kvs'.history = front.map some ++ List.replicate (historySize - front.length) none ∧
        kvs'.nextIndex = front.length := by
  unfold revertToBlock at hok
  split at hok
  next heq => exact .inl ⟨heq, (Except.ok.inj hok).symm⟩
  next hne =>
    rw [h.scan_eq] at hok
    dsimp only at hok
    split at hok
    next => cases hok
    next s i htarget =>
      cases hok
      have hfound : Target hs n s i := by
        cases hexact : (scan hs n).exact with
        | some found =>
            rw [hexact] at htarget
            cases htarget
            exact .exact hexact
        | none =>
            rw [hexact] at htarget
            split at htarget
            next => exact .older hexact htarget
            next => cases htarget
      obtain ⟨front, rest, rfl, rfl, hle⟩ := hfound.split
      refine .inr ⟨front, s, rest, rfl, hne, hfound, hle, rfl, ?_, rfl⟩
      change kvs.history.mapIdx _ = _
      rw [h.slots, h.count, free_from]
      congr 2
      have hfits := h.fits
      rw [List.length_append] at hfits ⊢
      omega

/-- The history that is left. -/
theorem Holds.cut {front rest : List Snapshot} {s : Snapshot} {n : Nat}
    (h : kvs.Holds historySize (front ++ s :: rest)) (hle : s.blockNumber ≤ n)
    (hcurrent : kvs'.current = { blockNumber := n, data := mergedData kvs.current.data s.data })
    (hhistory : kvs'.history = front.map some ++ List.replicate (historySize - front.length) none)
    (hnext : kvs'.nextIndex = front.length) : kvs'.Holds historySize front := by
  have hfits := h.fits
  rw [List.length_append] at hfits
  refine ⟨hhistory, hnext, by omega, ?_, ?_, ?_⟩
  · rw [hcurrent]
    exact nofun
  · rw [hcurrent]
    obtain ⟨horder, -, -⟩ := List.pairwise_append.mp h.order
    obtain ⟨hfront, -, hbefore⟩ := List.pairwise_append.mp horder
    refine List.pairwise_append.mpr ⟨hfront, List.pairwise_singleton _ _, fun f hf s' hs' => ?_⟩
    rw [List.mem_singleton.mp hs']
    unfold Before
    rcases hbefore f hf s List.mem_cons_self with hlt | ⟨hplace, hzero, -⟩
    · exact .inl (hlt.trans_le hle)
    · rcases Nat.eq_zero_or_pos n with hn | hn
      · exact .inr ⟨hplace, hzero, hn⟩
      · exact .inl (hzero ▸ hn)
  · rw [hcurrent]
    intro f hf key hkey
    have := h.keys f (List.mem_append_left _ hf) key hkey
    change ((kvs.current.data key).map _).isSome = true
    rwa [Option.isSome_map]

theorem Holds.reverted (h : kvs.Holds historySize hs) {n : Nat}
    (hok : kvs.revertToBlock n = .ok kvs') : ∃ hs', kvs'.Holds historySize hs' := by
  rcases h.revert hok with ⟨-, rfl⟩ | ⟨front, s, rest, rfl, -, -, hle, hcurrent, hhistory, hnext⟩
  · exact ⟨hs, h⟩
  · exact ⟨front, h.cut hle hcurrent hhistory hnext⟩

theorem Runs.holds {applied : List Block} (h : Runs historySize applied kvs)
    (hsize : historySize < 2 ^ 32) : ∃ hs, kvs.Holds historySize hs := by
  induction h with
  | new => exact ⟨[], .new historySize⟩
  | applied _ hpast hok ih =>
      obtain ⟨hs, hholds⟩ := ih
      cases (replayGuard_next hpast).symm.trans hok
      exact ⟨_, hholds.handle hsize hpast⟩
  | @skipped _ kvs _ b hpast ih =>
      cases hcase : kvs.handle b with
      | error err => exact ih
      | ok kvs' =>
          rw [replayGuard_skip hpast hcase]
          exact ih
  | @reverted _ kvs _ blockNumber ih =>
      obtain ⟨hs, hholds⟩ := ih
      cases hcase : kvs.revertToBlock blockNumber with
      | error err => exact ⟨hs, hholds⟩
      | ok kvs' => exact hholds.reverted hcase

/-! ## Reads -/

/-- What a revert to block `b` should do to reads. -/
structure Rewinds (kvs kvs' : RevertibleLightKVS) (b : Nat) : Prop where
  tip : ∃ r r', kvs.newSnapshot (some b) = .ok r ∧ kvs'.newSnapshot none = .ok r' ∧
    ∀ ns key, Reader.shows r' ns key = Reader.shows r ns key
  older : ∀ n < b, ∀ r, kvs.newSnapshot (some n) = .ok r →
    (∃ err, kvs'.newSnapshot (some n) = .error err) ∨
      ∃ r', kvs'.newSnapshot (some n) = .ok r' ∧
        ∀ ns key, Reader.shows r' ns key = Reader.shows r ns key

section Reads

variable {front rest : List Snapshot} {s : Snapshot} {n b : Nat}

theorem Holds.newSnapshot_below (h : kvs.Holds historySize hs) (hn : n < kvs.current.blockNumber) :
    kvs.newSnapshot (some n) = Scan.reader (scan hs n) n := by
  rw [← h.scan_eq]
  exact if_neg (not_le.mpr hn)

theorem Target.reader {i : Nat} (h : Target hs n s i) :
    Scan.reader (scan hs n) n = .ok ⟨some s⟩ := by
  unfold Scan.reader
  cases h with
  | exact h => rw [h]
  | older hnone h => rw [hnone, h]

/-- Snapshots after one that is not the placeholder of number 0 have higher numbers. -/
theorem lt_of_order (h : (front ++ s :: rest).Pairwise Before) (hpos : n < s.blockNumber) :
    ∀ s' ∈ s :: rest, n < s'.blockNumber := by
  intro s' hs'
  rcases List.mem_cons.mp hs' with rfl | hs'
  · exact hpos
  · obtain ⟨-, hrest, -⟩ := List.pairwise_append.mp h
    rcases (List.pairwise_cons.mp hrest).1 s' hs' with hlt | ⟨-, hzero, -⟩
    · exact hpos.trans hlt
    · omega

/-- A scan at the number of a snapshot that is past all before it, or above, finds it. -/
theorem scan_last (hfront : ∀ f ∈ front, f.blockNumber < s.blockNumber) (hle : s.blockNumber ≤ n) :
    Scan.reader (scan (front ++ [s]) n) n = .ok ⟨some s⟩ := by
  rw [scan_concat]
  rcases visit_cases n (scan front n) s front.length with
    ⟨-, hvisit⟩ | ⟨-, -, hvisit⟩ | ⟨hne, -, hbest⟩
  · rw [hvisit]
    rfl
  · rw [hvisit, Scan.reader]
    have hnone : (scan front n).exact = none := by
      cases hexact : (scan front n).exact with
      | none => rfl
      | some found =>
          obtain ⟨_, _, rfl, -, hnumber⟩ := (scan_of front n).exact_some found.1 found.2 hexact
          have := hfront found.1 (by simp)
          omega
    rw [hnone]
  · obtain ⟨found, hfound, hge⟩ := hbest (lt_of_le_of_ne hle hne)
    obtain ⟨_, _, rfl, -⟩ := (scan_of front n).best_some found.1 found.2 hfound
    exact absurd (hfront found.1 (by simp)) hge.not_gt

/-- A scan above all numbers does not depend on the height. -/
theorem scan_congr {m : Nat} (hm : ∀ f ∈ front, f.blockNumber < m)
    (hn : ∀ f ∈ front, f.blockNumber < n) : scan front m = scan front n := by
  induction front using List.reverseRecOn with
  | nil => rfl
  | append_singleton front f ih =>
      have hfm := hm f (by simp)
      have hfn := hn f (by simp)
      rw [scan_concat, scan_concat, ih (fun f' hf' => hm f' (List.mem_append_left _ hf'))
        fun f' hf' => hn f' (List.mem_append_left _ hf')]
      unfold Scan.visit
      dsimp only
      rw [if_neg hfm.ne, if_neg hfn.ne]
      simp only [hfm, hfn, true_and]

/-- Heights below the number of the target are read as before. -/
theorem Holds.newSnapshot_same (h : kvs.Holds historySize (front ++ s :: rest))
    (h' : kvs'.Holds historySize front) (hb : kvs'.current.blockNumber = b) (hn : n < b)
    (htip : b ≤ kvs.current.blockNumber) (hlt : n < s.blockNumber) :
    kvs'.newSnapshot (some n) = kvs.newSnapshot (some n) := by
  obtain ⟨horder, -, -⟩ := List.pairwise_append.mp h.order
  rw [h.newSnapshot_below (hn.trans_le htip), h'.newSnapshot_below (hb ▸ hn),
    scan_later (lt_of_order horder hlt)]

/-- What an older snapshot that stands in for the target is after and before. -/
theorem older_bounds (horder : (front ++ s :: rest).Pairwise Before)
    (hnone : (scan (front ++ s :: rest) b).exact = none)
    (hbest : (scan (front ++ s :: rest) b).best = some (s, front.length)) (hne : front ≠ []) :
    (∀ f ∈ front, f.blockNumber < s.blockNumber) ∧ ∀ r ∈ rest, b < r.blockNumber := by
  obtain ⟨front', rest', hsplit, hlen, hlt, hfront, hrest⟩ :=
    (scan_of (front ++ s :: rest) b).best_some s front.length hbest
  obtain ⟨rfl, htail⟩ := List.append_inj hsplit hlen.symm
  cases htail
  obtain ⟨-, hafter, hbefore⟩ := List.pairwise_append.mp horder
  have hfront' : ∀ f ∈ front, f.blockNumber < s.blockNumber := by
    intro f hf
    refine hfront f hf ?_
    rcases hbefore f hf s List.mem_cons_self with h | ⟨-, hzero, hs⟩
    · exact h.trans hlt
    · omega
  refine ⟨hfront', fun r hr => ?_⟩
  -- the target is not the placeholder, since something is before it
  obtain ⟨f, hf⟩ := List.exists_mem_of_ne_nil front hne
  have hpos := hfront' f hf
  have hne : r.blockNumber ≠ b := (scan_of _ b).exact_none hnone r (by simp [hr])
  rcases (List.pairwise_cons.mp hafter).1 r hr with h | ⟨-, hzero, -⟩
  · have := hrest r hr
    omega
  · omega

/-- The heights that an older snapshot stood in for are then read from the one before it. -/
theorem Holds.newSnapshot_lost (h : kvs.Holds historySize (front ++ s :: rest))
    (h' : kvs'.Holds historySize front) (hb : kvs'.current.blockNumber = b)
    (htip : b ≤ kvs.current.blockNumber) (hnone : (scan (front ++ s :: rest) b).exact = none)
    (hbest : (scan (front ++ s :: rest) b).best = some (s, front.length)) (hne : front ≠ [])
    (hle : s.blockNumber ≤ n) (hn : n < b) :
    kvs.newSnapshot (some n) = .ok ⟨some s⟩ ∧
      ∃ s' i, (scan (front ++ s :: rest) s.blockNumber).best = some (s', i) ∧
        kvs'.newSnapshot (some n) = .ok ⟨some s'⟩ := by
  obtain ⟨horder, -, -⟩ := List.pairwise_append.mp h.order
  obtain ⟨hfront, hrest⟩ := older_bounds horder hnone hbest hne
  have hscan : ∀ m < b, scan (front ++ s :: rest) m = scan (front ++ [s]) m := by
    intro m hm
    rw [List.append_cons]
    exact scan_later fun r hr => hm.trans (hrest r hr)
  have hfrontn : ∀ f ∈ front, f.blockNumber < n := fun f hf => (hfront f hf).trans_le hle
  -- the scan of what is left
  have hexact : (scan front n).exact = none := by
    cases hexact : (scan front n).exact with
    | none => rfl
    | some found =>
        obtain ⟨_, _, rfl, -, hnumber⟩ := (scan_of front n).exact_some found.1 found.2 hexact
        have := hfrontn found.1 (by simp)
        omega
  obtain ⟨f, hf⟩ := List.exists_mem_of_ne_nil front hne
  have hsome : ∃ found, (scan front n).best = some found := by
    cases hbest : (scan front n).best with
    | none => exact absurd (hfrontn f hf) ((scan_of front n).best_none hbest f hf)
    | some found => exact ⟨found, rfl⟩
  obtain ⟨⟨s', i⟩, hfound⟩ := hsome
  refine ⟨?_, s', i, ?_, ?_⟩
  · rw [h.newSnapshot_below (hn.trans_le htip), hscan n hn, scan_last hfront hle]
  · rw [hscan _ (hle.trans_lt hn), scan_concat, scan_congr hfront hfrontn]
    unfold Scan.visit
    dsimp only
    rw [if_pos rfl]
    exact hfound
  · rw [h'.newSnapshot_below (hb ▸ hn)]
    unfold Scan.reader
    rw [hexact, hfound]

/-- Older heights are read as before, or not at all, if the snapshot that stood in shows what
the one before it shows. -/
theorem Holds.older_iff (h : kvs.Holds historySize (front ++ s :: rest))
    (h' : kvs'.Holds historySize front) (hb : kvs'.current.blockNumber = b)
    (htip : b ≤ kvs.current.blockNumber) (hnone : (scan (front ++ s :: rest) b).exact = none)
    (hbest : (scan (front ++ s :: rest) b).best = some (s, front.length)) :
    (∀ n < b, ∀ r, kvs.newSnapshot (some n) = .ok r →
      (∃ err, kvs'.newSnapshot (some n) = .error err) ∨
        ∃ r', kvs'.newSnapshot (some n) = .ok r' ∧
          ∀ ns key, Reader.shows r' ns key = Reader.shows r ns key) ↔
    ∀ s' i, (scan (front ++ s :: rest) s.blockNumber).best = some (s', i) →
      ∀ ns key, Reader.shows ⟨some s'⟩ ns key = Reader.shows ⟨some s⟩ ns key := by
  obtain ⟨-, -, -, -, hlt, -⟩ := (scan_of _ b).best_some s _ hbest
  have hsame : ∀ n < b, n < s.blockNumber →
      kvs'.newSnapshot (some n) = kvs.newSnapshot (some n) := fun n hn hns =>
    h.newSnapshot_same h' hb hn htip hns
  by_cases hne : front = []
  · -- nothing is left
    subst hne
    refine iff_of_true (fun n hn r hr => ?_) fun s' i hbest' => ?_
    · rcases Nat.lt_or_ge n s.blockNumber with hns | hns
      · exact .inr ⟨r, (hsame n hn hns).trans hr, fun _ _ => rfl⟩
      · exact .inl ⟨_, h'.newSnapshot_below (hb ▸ hn)⟩
    · obtain ⟨f, r, hsplit, -, hlt', -⟩ := (scan_of _ _).best_some s' i hbest'
      obtain ⟨horder, -, -⟩ := List.pairwise_append.mp h.order
      have := lt_of_order horder hlt' s' (by
        rw [← List.nil_append (s :: rest), hsplit]
        simp)
      exact absurd this (lt_irrefl _)
  · constructor
    · intro holder s' i hbest'
      obtain ⟨hread, s'', i', hbest'', hread'⟩ :=
        h.newSnapshot_lost h' hb htip hnone hbest hne le_rfl hlt
      cases hbest'.symm.trans hbest''
      rcases holder _ hlt _ hread with ⟨err, herr⟩ | ⟨r', hr', hshows⟩
      · cases herr.symm.trans hread'
      · cases hr'.symm.trans hread'
        exact hshows
    · intro hshows n hn r hr
      rcases Nat.lt_or_ge n s.blockNumber with hns | hns
      · exact .inr ⟨r, (hsame n hn hns).trans hr, fun _ _ => rfl⟩
      · obtain ⟨hread, s', i, hbest', hread'⟩ :=
          h.newSnapshot_lost h' hb htip hnone hbest hne hns hn
        cases hr.symm.trans hread
        exact .inr ⟨_, hread', hshows s' i hbest'⟩

end Reads

/-- If an older snapshot stands in for the block, it shows what the one before it shows. -/
def LosesNothing (kvs : RevertibleLightKVS) (b : Nat) : Prop :=
  kvs.current.blockNumber ≠ b → (scanHistory kvs.history b).exact = none →
    ∀ s i, (scanHistory kvs.history b).best = some (s, i) →
    ∀ s' i', (scanHistory kvs.history s.blockNumber).best = some (s', i') →
    ∀ ns key, Reader.shows ⟨some s'⟩ ns key = Reader.shows ⟨some s⟩ ns key

/-- In every run, a successful revert to a block at or below the tip rewinds exactly if no
height loses its snapshot. -/
theorem rewinds_iff {applied : List Block} (hruns : Runs historySize applied kvs)
    (hsize : historySize < 2 ^ 32) {b : Nat} (hb : b ≤ kvs.blockNumber)
    (hok : kvs.revertToBlock b = .ok kvs') : Rewinds kvs kvs' b ↔ kvs.LosesNothing b := by
  obtain ⟨hs, h⟩ := hruns.holds hsize
  rw [LosesNothing, h.scan_eq]
  rcases h.revert hok with
    ⟨htip, rfl⟩ | ⟨front, s, rest, rfl, hne, htarget, hle, hcurrent, hhistory, hnext⟩
  · have hread : kvs'.newSnapshot (some b) = .ok ⟨some kvs'.current⟩ := if_pos htip.le
    refine iff_of_true ⟨⟨_, _, hread, rfl, fun _ _ => rfl⟩, fun n hn r hr => ?_⟩ fun hne =>
      absurd htip hne
    exact .inr ⟨r, hr, fun _ _ => rfl⟩
  · have h' := h.cut hle hcurrent hhistory hnext
    have hb' : kvs'.current.blockNumber = b := by rw [hcurrent]
    have hread : kvs.newSnapshot (some b) = .ok ⟨some s⟩ := by
      rw [h.newSnapshot_below (lt_of_le_of_ne hb hne.symm), htarget.reader]
    have htip : ∃ r r', kvs.newSnapshot (some b) = .ok r ∧ kvs'.newSnapshot none = .ok r' ∧
        ∀ ns key, Reader.shows r' ns key = Reader.shows r ns key := by
      refine ⟨_, _, hread, rfl, fun ns key => ?_⟩
      rw [shows_snapshot, shows_snapshot, hcurrent]
      exact shown_mergedData fun hkey => h.keys s (by simp) _ hkey
    cases htarget with
    | exact hexact =>
        obtain ⟨-, -, -, -, hnumber⟩ := (scan_of _ b).exact_some s _ hexact
        refine iff_of_true ⟨htip, fun n hn r hr => ?_⟩ fun _ hnone => ?_
        · exact .inr ⟨r, (h.newSnapshot_same h' hb' hn hb (hnumber ▸ hn)).trans hr, fun _ _ => rfl⟩
        · cases hexact.symm.trans hnone
    | older hnone hbest =>
        have holder := h.older_iff h' hb' hb hnone hbest
        constructor
        · intro hrewinds _ _ s₀ i₀ hbest₀ s' i' hbest'
          cases hbest.symm.trans hbest₀
          rw [h.scan_eq] at hbest'
          exact holder.mp hrewinds.older s' i' hbest'
        · intro hloses
          refine ⟨htip, holder.mpr fun s' i' hbest' => ?_⟩
          exact hloses hne hnone s _ hbest s' i' (by rwa [h.scan_eq])

theorem Runs.next {applied : List Block} (h : Runs historySize applied kvs) (b : Block)
    (hpast : kvs.current.Past b) :
    Runs historySize (applied ++ [b]) (kvs.applyBlockSequential b.number (blockUpdates b)) :=
  h.applied hpast (replayGuard_next hpast)

/-- After blocks 1, 3 and 5. -/
theorem runs_gapped : ∃ kvs, Runs 4 [touch 1, touch 3, touch 5] kvs ∧
    kvs = (((RevertibleLightKVS.new 4).applyBlockSequential 1 (blockUpdates (touch 1)))
      |>.applyBlockSequential 3 (blockUpdates (touch 3))
      |>.applyBlockSequential 5 (blockUpdates (touch 5))) :=
  ⟨_, (((Runs.new.next (touch 1) (.inl rfl)).next (touch 3) (.inr (by decide))).next (touch 5)
    (.inr (by decide))), rfl⟩

/-- A revert to block 3, which has its own snapshot. -/
theorem rewinds_iff_exact : ∃ kvs kvs', Runs 4 [touch 1, touch 3, touch 5] kvs ∧
    kvs.revertToBlock 3 = .ok kvs' ∧ Rewinds kvs kvs' 3 := by
  obtain ⟨kvs, hruns, hkvs⟩ := runs_gapped
  obtain ⟨kvs', hok⟩ : ∃ kvs', kvs.revertToBlock 3 = .ok kvs' := by
    rw [hkvs]
    exact ⟨_, rfl⟩
  have hexact : (scanHistory kvs.history 3).exact.isSome := by
    rw [hkvs]
    rfl
  refine ⟨kvs, kvs', hruns, hok, (rewinds_iff hruns (by decide) ?_ hok).mpr fun _ hnone => ?_⟩
  · rw [hkvs]
    decide
  · rw [hnone] at hexact
    cases hexact

/-- A revert to block 4, for which block 3 stands in: block 3 then reads as block 1. -/
theorem stand_in_forgotten : ∃ kvs kvs' r r', Runs 4 [touch 1, touch 3, touch 5] kvs ∧
    kvs.revertToBlock 4 = .ok kvs' ∧ kvs.newSnapshot (some 3) = .ok r ∧
    Reader.shows r (ascii "evm") (ascii "k") = some (some [3]) ∧
    kvs'.newSnapshot (some 3) = .ok r' ∧
    Reader.shows r' (ascii "evm") (ascii "k") = some (some [1]) := by
  obtain ⟨kvs, hruns, rfl⟩ := runs_gapped
  exact ⟨_, _, _, _, hruns, rfl, rfl, rfl, rfl, rfl⟩

end RevertibleLightKVS

end Storage
