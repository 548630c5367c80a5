import Mathlib.Data.List.DropRight
import FabricXEvm.Lib.Ring
import FabricXEvm.Storage.Reference

/-!
# Historical reads of LightKVS

A block replaces the current snapshot and puts the old one in the ring.  After any
increasing blocks the ring holds the last of the snapshots replaced, among them at first the
placeholder of `newLightKVS` (`LightKVS.After`).  So a height is read from the snapshot
after the blocks up to it, or not at all, except that the placeholder answers for height 0:
it comes before the snapshot of a block 0, until it falls out of the ring
(`LightKVS.After.reads_iff`).
-/

namespace Storage

open Blocks

/-- The state after the valid writes of some blocks. -/
def foldWrites (blocks : List Block) : Data :=
  (blocks.flatMap blockUpdates).foldl put fun _ => none

/-- The current snapshot after some blocks. -/
def snapshotAfter (blocks : List Block) : Snapshot :=
  match blocks.getLast? with
  | none => { blockNumber := 0, data := fun _ => none, placeholder := true }
  | some b => { blockNumber := b.number, data := foldWrites blocks }

/-- The snapshots that some blocks replaced, in order. -/
def replaced (blocks : List Block) : List Snapshot :=
  (List.range blocks.length).map fun j => snapshotAfter (blocks.take j)

section Blocks

variable {blocks : List Block} {b : Block} {n j : Nat}

theorem foldWrites_concat (blocks : List Block) (b : Block) :
    foldWrites (blocks ++ [b]) = (blockUpdates b).foldl put (foldWrites blocks) := by
  simp [foldWrites, List.foldl_append]

/-- The state is the last write of each key. -/
theorem foldWrites_eq_latest (blocks : List Block) :
    foldWrites blocks = latest (blocks.flatMap blockUpdates) :=
  foldl_put_latest [] _

theorem snapshotAfter_data (blocks : List Block) : (snapshotAfter blocks).data = foldWrites blocks := by
  cases hlast : blocks.getLast? with
  | none =>
      rw [List.getLast?_eq_none_iff.mp hlast]
      rfl
  | some b => simp only [snapshotAfter, hlast]

theorem snapshotAfter_concat (blocks : List Block) (b : Block) :
    snapshotAfter (blocks ++ [b]) =
      { blockNumber := b.number, data := foldWrites (blocks ++ [b]) } := by
  simp [snapshotAfter]

theorem snapshotAfter_take (hj : j < blocks.length) :
    (snapshotAfter (blocks.take (j + 1))).blockNumber = blocks[j].number := by
  rw [List.take_succ_eq_append_getElem hj, snapshotAfter_concat]

theorem length_replaced (blocks : List Block) : (replaced blocks).length = blocks.length := by
  simp [replaced]

theorem getElem?_replaced {s : Snapshot} :
    (replaced blocks)[j]? = some s ↔ j < blocks.length ∧ s = snapshotAfter (blocks.take j) := by
  rw [List.getElem?_eq_some_iff]
  simp [replaced, eq_comm]

theorem replaced_concat (blocks : List Block) (b : Block) :
    replaced (blocks ++ [b]) = replaced blocks ++ [snapshotAfter blocks] := by
  rw [replaced, List.length_append, List.length_singleton, List.range_succ, List.map_append]
  congr 1
  · refine List.map_congr_left fun j hj => ?_
    rw [List.take_append_of_le_length (List.mem_range.mp hj).le]
  · simp

/-- Blocks in increasing order. -/
def Increasing (blocks : List Block) : Prop := blocks.Pairwise fun b b' => b.number < b'.number

/-- The blocks of a snapshot are not past its number. -/
theorem Increasing.le_snapshotAfter {front : List Block} (h : Increasing front) (hb : b ∈ front) :
    b.number ≤ (snapshotAfter front).blockNumber := by
  rcases List.eq_nil_or_concat' front with rfl | ⟨init, last, rfl⟩
  · cases hb
  · rw [snapshotAfter_concat]
    rcases List.mem_append.mp hb with hb | hb
    · exact ((List.pairwise_append.mp h).2.2 b hb last (List.mem_singleton_self last)).le
    · rw [List.mem_singleton.mp hb]

/-- Later blocks are. -/
theorem Increasing.snapshotAfter_lt {front back : List Block} (h : Increasing (front ++ back))
    (hne : front ≠ []) (hb : b ∈ back) : (snapshotAfter front).blockNumber < b.number := by
  obtain ⟨init, last, rfl⟩ := (List.eq_nil_or_concat' front).resolve_left hne
  rw [snapshotAfter_concat]
  exact (List.pairwise_append.mp h).2.2 last (by simp) b hb

/-- The blocks up to the number of the snapshot after some of them are those. -/
theorem Increasing.filter_snapshotAfter {front back : List Block}
    (h : Increasing (front ++ back)) (hne : front ≠ []) :
    (front ++ back).filter (fun b => b.number ≤ (snapshotAfter front).blockNumber) = front := by
  have hfront : Increasing front := (List.pairwise_append.mp h).1
  rw [List.filter_append, List.filter_eq_self.mpr, List.filter_eq_nil_iff.mpr, List.append_nil]
  · intro b hb
    simpa using h.snapshotAfter_lt hne hb
  · intro b hb
    exact decide_eq_true (hfront.le_snapshotAfter hb)

/-- At most the first of increasing blocks has number 0. -/
theorem Increasing.filter_zero (h : Increasing blocks) (hb : b ∈ blocks) (hzero : b.number = 0) :
    blocks.filter (fun b => b.number ≤ 0) = [b] := by
  cases blocks with
  | nil => cases hb
  | cons first rest =>
      obtain ⟨hfirst, -⟩ := List.pairwise_cons.mp h
      rcases List.mem_cons.mp hb with rfl | hb
      · rw [List.filter_cons_of_pos (by simp [hzero]), List.filter_eq_nil_iff.mpr]
        intro b' hb'
        have := hfirst b' hb'
        simp only [decide_eq_true_eq]
        omega
      · have := hfirst b hb
        omega

/-- The updates of a block are of keys of some namespace. -/
theorem key_blockUpdates {u : KeyValueVersion} (hu : u ∈ blockUpdates b) :
    ∃ ns key, u.key = fullKey ns key := by
  obtain ⟨tx, -, hu⟩ := List.mem_flatMap.mp hu
  rw [collectWrites] at hu
  split at hu
  next =>
    obtain ⟨nsrws, -, hu⟩ := List.mem_flatMap.mp hu
    obtain ⟨w, -, rfl⟩ := List.mem_map.mp hu
    exact ⟨nsrws.ns, w.key, rfl⟩
  next => cases hu

/-- A block that writes changes the empty state. -/
theorem exists_record_foldWrites (hb : blockUpdates b ≠ []) :
    ∃ ns key, record (foldWrites [b]) ns key ≠ none := by
  obtain ⟨u, hu⟩ := List.exists_mem_of_ne_nil _ hb
  obtain ⟨ns, key, hkey⟩ := key_blockUpdates hu
  refine ⟨ns, key, fun hnone => ?_⟩
  rw [record, Option.map_eq_none_iff, foldWrites_eq_latest, List.flatMap_singleton] at hnone
  have hmem := mem_writesOf.mpr ⟨hu, hkey⟩
  rw [lastOf_eq_none.mp hnone] at hmem
  cases hmem

end Blocks

/-! ## The ring -/

namespace LightKVS

variable {kvs : LightKVS} {historySize : Nat} {blocks : List Block} {b : Block} {n : Nat}

/-- The number of slots the index reaches. -/
abbrev ringSize (historySize : Nat) : Nat := historySize % 2 ^ 32

/-- A new store of some size after some blocks. -/
structure After (kvs : LightKVS) (historySize : Nat) (blocks : List Block) : Prop where
  current : kvs.current = snapshotAfter blocks
  size : kvs.history.length = historySize
  next : kvs.nextIndex = blocks.length % ringSize historySize
  ring : Ring.Holds (ringSize historySize) kvs.history (replaced blocks)

theorem After.new (historySize : Nat) (h : 0 < historySize % 2 ^ 32) :
    (LightKVS.new historySize h).After historySize [] where
  current := rfl
  size := List.length_replicate
  next := (Nat.zero_mod _).symm
  ring := Ring.Holds.empty _ _

/-- A block past the others replaces the current snapshot. -/
theorem After.handle (h : kvs.After historySize blocks)
    (hpast : ∀ b' ∈ blocks, b'.number < b.number) :
    ∃ kvs', kvs.handle b = .ok kvs' ∧ kvs'.After historySize (blocks ++ [b]) := by
  have htip : kvs.current.placeholder = true ∨ kvs.current.blockNumber < b.number := by
    rw [h.current]
    rcases List.eq_nil_or_concat' blocks with rfl | ⟨init, last, rfl⟩
    · exact .inl rfl
    · rw [snapshotAfter_concat]
      exact .inr (hpast last (by simp))
  refine ⟨_, handle_next htip, ?_⟩
  have hpos : 0 < ringSize historySize := by
    have := kvs.inRange
    rw [h.size] at this
    exact (Nat.zero_le _).trans_lt this
  constructor
  · change Snapshot.mk b.number (applyUpdates kvs.current.data (blockUpdates b)) false = _
    rw [h.current, snapshotAfter_concat, snapshotAfter_data, applyUpdates_eq_foldl,
      foldWrites_concat]
  · exact List.length_set.trans h.size
  · change (kvs.nextIndex + 1) % (kvs.history.length % 2 ^ 32) = _
    rw [h.size, h.next, List.length_append, List.length_singleton, Nat.mod_add_mod]
  · have hring := h.ring.push hpos (by rw [h.size]; exact Nat.mod_le _ _) (snapshotAfter blocks)
    rw [length_replaced, ← h.next, ← replaced_concat _ b, ← h.current] at hring
    exact hring

/-- Increasing blocks are all handled. -/
theorem After.run (hsize : 0 < historySize % 2 ^ 32) (h : Increasing blocks) :
    ∃ kvs, blocks.foldlM LightKVS.handle (LightKVS.new historySize hsize) = .ok kvs ∧
      kvs.After historySize blocks := by
  induction blocks using List.reverseRecOn with
  | nil => exact ⟨_, rfl, .new historySize hsize⟩
  | append_singleton blocks b ih =>
      obtain ⟨hblocks, -, hpast⟩ := List.pairwise_append.mp h
      obtain ⟨kvs, hrun, hkvs⟩ := ih hblocks
      obtain ⟨kvs', hb, hkvs'⟩ := hkvs.handle fun b' hb' =>
        hpast b' hb' b (List.mem_singleton_self b)
      refine ⟨kvs', ?_, hkvs'⟩
      rw [List.foldlM_append, hrun]
      change List.foldlM LightKVS.handle kvs [b] = _
      rw [List.foldlM_cons, hb]
      rfl

/-! ## Reads below the tip -/

/-- Heights below the tip are looked up in the ring. -/
theorem newSnapshot_below (hn : n < kvs.blockNumber) :
    kvs.newSnapshot (some n) =
      match kvs.history.find? fun s => s.any (·.blockNumber == n) with
      | some (some snapshot) => .ok ⟨some snapshot⟩
      | _ => .error (.notFound n) :=
  if_neg (not_le.mpr hn)

/-- A reader of an earlier height is of a snapshot in the ring. -/
theorem After.newSnapshot_ok (h : kvs.After historySize blocks) (hn : n < kvs.blockNumber)
    {r : Reader} (hr : kvs.newSnapshot (some n) = .ok r) :
    ∃ j < blocks.length, blocks.length ≤ j + ringSize historySize ∧
      (snapshotAfter (blocks.take j)).blockNumber = n ∧
      r = ⟨some (snapshotAfter (blocks.take j))⟩ := by
  rw [newSnapshot_below hn] at hr
  split at hr
  next s hfind =>
    cases hr
    have hnumber : s.blockNumber = n := by simpa using List.find?_some hfind
    obtain ⟨j, hj, hlast⟩ := h.ring.mem.mp (List.mem_of_find?_eq_some hfind)
    obtain ⟨hlt, rfl⟩ := getElem?_replaced.mp hj
    rw [length_replaced] at hlast
    exact ⟨j, hlt, hlast, hnumber, rfl⟩
  next => cases hr

/-- There is a reader of the height of every snapshot in the ring. -/
theorem After.newSnapshot_held (h : kvs.After historySize blocks) (hn : n < kvs.blockNumber)
    {j : Nat} (hj : j < blocks.length) (hlast : blocks.length ≤ j + ringSize historySize)
    (hnumber : (snapshotAfter (blocks.take j)).blockNumber = n) :
    ∃ r, kvs.newSnapshot (some n) = .ok r := by
  have hmem : some (snapshotAfter (blocks.take j)) ∈ kvs.history :=
    h.ring.mem.mpr ⟨j, getElem?_replaced.mpr ⟨hj, rfl⟩, by rwa [length_replaced]⟩
  rw [newSnapshot_below hn]
  cases hfind : kvs.history.find? fun s => s.any (·.blockNumber == n) with
  | none => exact absurd (List.find?_eq_none.mp hfind _ hmem) (by simp [hnumber])
  | some found =>
      cases found with
      | none => simpa using List.find?_some hfind
      | some s => exact ⟨_, rfl⟩

/-- The placeholder answers for height 0 as long as it is in the ring. -/
theorem After.newSnapshot_zero (h : kvs.After historySize blocks) (hn : 0 < kvs.blockNumber)
    (hlen : blocks.length ≤ ringSize historySize) :
    kvs.newSnapshot (some 0) = .ok ⟨some (snapshotAfter [])⟩ := by
  have hpos : 0 < blocks.length := by
    rw [blockNumber, h.current] at hn
    refine List.length_pos_of_ne_nil fun hnil => ?_
    rw [hnil] at hn
    cases hn
  have hfirst := h.ring.first (getElem?_replaced.mpr ⟨hpos, rfl⟩) (by rwa [length_replaced])
  obtain ⟨slots, hslots⟩ : ∃ slots, kvs.history = some (snapshotAfter []) :: slots := by
    cases hhist : kvs.history with
    | nil =>
        rw [hhist] at hfirst
        cases hfirst
    | cons slot slots =>
        rw [hhist] at hfirst
        exact ⟨slots, by rw [Option.some.inj hfirst, List.take_zero]⟩
  rw [newSnapshot_below hn, hslots, List.find?_cons_of_pos rfl]

/-- A reader of a height gives what the blocks up to it wrote. -/
def Reads (kvs : LightKVS) (blocks : List Block) (n : Nat) : Prop :=
  ∀ r, kvs.newSnapshot (some n) = .ok r → ∀ ns key,
    r.get ns key = .ok (record (foldWrites (blocks.filter (·.number ≤ n))) ns key)

/-- The heights below the tip that the history should have. -/
def Retains (kvs : LightKVS) (historySize : Nat) (blocks : List Block) : Prop :=
  ∀ b ∈ blocks.dropLast.rtake (min historySize blocks.dropLast.length),
    ∃ r, kvs.newSnapshot (some b.number) = .ok r

/-- A height is read exactly, unless the placeholder answers in place of a block 0 that
writes. -/
theorem After.reads_iff (h : kvs.After historySize blocks) (hinc : Increasing blocks)
    (hn : n < kvs.blockNumber) :
    kvs.Reads blocks n ↔ (n = 0 → blocks.length ≤ ringSize historySize →
      ∀ b ∈ blocks, b.number = 0 → blockUpdates b = []) := by
  constructor
  · rintro hreads rfl hlen b hb hzero
    by_contra hwrites
    obtain ⟨ns, key, hrecord⟩ := exists_record_foldWrites hwrites
    have hget := hreads _ (h.newSnapshot_zero hn hlen) ns key
    rw [hinc.filter_zero hb hzero] at hget
    exact hrecord (Except.ok.inj hget).symm
  · rintro hcond r hr ns key
    obtain ⟨j, hj, hlast, rfl, rfl⟩ := h.newSnapshot_ok hn hr
    change Except.ok (record (snapshotAfter _).data ns key) = _
    rw [snapshotAfter_data]
    congr 2
    by_cases hne : blocks.take j = []
    · -- the placeholder, which no block or one without writes comes before
      rw [hne]
      change foldWrites [] = foldWrites (blocks.filter fun b => b.number ≤ 0)
      by_cases hgenesis : ∃ b ∈ blocks, b.number = 0
      · obtain ⟨b, hb, hzero⟩ := hgenesis
        have hlen : blocks.length ≤ ringSize historySize := by
          rcases List.take_eq_nil_iff.mp hne with rfl | rfl
          · rwa [Nat.zero_add] at hlast
          · cases hb
        have hnone := hcond (by rw [hne]; rfl) hlen b hb hzero
        rw [hinc.filter_zero hb hzero, foldWrites, foldWrites, List.flatMap_singleton, hnone]
        rfl
      · rw [List.filter_eq_nil_iff.mpr]
        intro b hb hzero
        exact hgenesis ⟨b, hb, Nat.le_zero.mp (of_decide_eq_true hzero)⟩
    · have hfilter := hinc
      rw [← List.take_append_drop j blocks] at hfilter
      have := hfilter.filter_snapshotAfter hne
      rw [List.take_append_drop] at this
      rw [this]

/-- The blocks that the history should have, by position. -/
theorem mem_rtake_dropLast {k : Nat} :
    b ∈ blocks.dropLast.rtake (min k blocks.dropLast.length) ↔
      ∃ j, ∃ hj : j + 1 < blocks.length, blocks.length ≤ j + 1 + k ∧ blocks[j] = b := by
  rw [List.rtake, List.mem_drop_iff_getElem]
  simp only [List.length_dropLast, List.getElem_dropLast]
  constructor
  · rintro ⟨i, hi, rfl⟩
    exact ⟨_, by omega, by omega, rfl⟩
  · rintro ⟨j, hj, hlast, rfl⟩
    exact ⟨j - (blocks.length - 1 - min k (blocks.length - 1)), by omega, by congr 1; omega⟩

/-- The number of a block before the last is below the tip. -/
theorem After.below_tip (h : kvs.After historySize blocks) (hinc : Increasing blocks) {j : Nat}
    (hj : j + 1 < blocks.length) : blocks[j].number < kvs.blockNumber := by
  have htip : kvs.blockNumber = blocks[blocks.length - 1].number := by
    rw [blockNumber, h.current, ← snapshotAfter_take, Nat.sub_add_cancel (by omega),
      List.take_length]
  rw [htip]
  exact List.pairwise_iff_getElem.mp hinc j (blocks.length - 1) (by omega) (by omega) (by omega)

/-- The history has all the heights it should have, unless the ring is smaller than it. -/
theorem After.retains_iff (h : kvs.After historySize blocks) (hinc : Increasing blocks) :
    kvs.Retains historySize blocks ↔
      historySize < 2 ^ 32 ∨ blocks.length ≤ ringSize historySize + 1 := by
  constructor
  · intro hretains
    by_contra hbig
    rw [not_or, not_lt, not_le] at hbig
    obtain ⟨hbig, hlong⟩ := hbig
    have hsize : ringSize historySize < 2 ^ 32 := Nat.mod_lt _ (Nat.two_pow_pos 32)
    -- the last block whose snapshot has fallen out of the ring
    have hj : blocks.length - 2 - ringSize historySize + 1 < blocks.length := by omega
    obtain ⟨r, hr⟩ := hretains _ (mem_rtake_dropLast.mpr ⟨_, hj, by omega, rfl⟩)
    obtain ⟨j, hlt, hlast, hnumber, -⟩ := h.newSnapshot_ok (h.below_tip hinc hj) hr
    obtain ⟨i, rfl⟩ := Nat.exists_eq_succ_of_ne_zero (show j ≠ 0 by omega)
    rw [snapshotAfter_take (by omega)] at hnumber
    have := List.pairwise_iff_getElem.mp hinc _ i (by omega) (by omega)
      (show blocks.length - 2 - ringSize historySize < i by omega)
    omega
  · intro hsize b hb
    obtain ⟨j, hj, hlast, rfl⟩ := mem_rtake_dropLast.mp hb
    refine h.newSnapshot_held (h.below_tip hinc hj) hj ?_ (snapshotAfter_take (by omega))
    rcases hsize with hsize | hlen
    · rwa [ringSize, Nat.mod_eq_of_lt hsize]
    · omega

end LightKVS

/-- Increasing blocks are handled, and afterwards a read below the tip is exact and the
history complete, unless the placeholder hides a block 0 that writes or the length of the
history does not fit in 32 bits. -/
theorem newSnapshot_exact_iff {historySize : Nat} (hsize : 0 < historySize % 2 ^ 32)
    {blocks : List Block} (hinc : Increasing blocks) :
    ∃ kvs, blocks.foldlM LightKVS.handle (LightKVS.new historySize hsize) = .ok kvs ∧
      ∀ n < kvs.blockNumber, kvs.Reads blocks n ∧ kvs.Retains historySize blocks ↔
        (n = 0 → blocks.length ≤ historySize % 2 ^ 32 →
          ∀ b ∈ blocks, b.number = 0 → blockUpdates b = []) ∧
        (historySize < 2 ^ 32 ∨ blocks.length ≤ historySize % 2 ^ 32 + 1) := by
  obtain ⟨kvs, hrun, hkvs⟩ := LightKVS.After.run hsize hinc
  exact ⟨kvs, hrun, fun n hn => and_congr (hkvs.reads_iff hinc hn) (hkvs.retains_iff hinc)⟩

/-- With a history of one block, the placeholder is gone after block 1. -/
theorem newSnapshot_exact_iff_wrapped :
    ∃ kvs, [touch 0, touch 1, touch 2].foldlM LightKVS.handle (LightKVS.new 1 (by decide)) =
        .ok kvs ∧ kvs.blockNumber = 2 ∧
      ∀ n < 2, kvs.Reads [touch 0, touch 1, touch 2] n ∧
        kvs.Retains 1 [touch 0, touch 1, touch 2] := by
  obtain ⟨kvs, hrun, hiff⟩ := @newSnapshot_exact_iff 1 (by decide) [touch 0, touch 1, touch 2]
    (by simp [Increasing, touch])
  have htip : ([touch 0, touch 1, touch 2].foldlM LightKVS.handle
      (LightKVS.new 1 (by decide))).map LightKVS.blockNumber = .ok 2 := rfl
  rw [hrun] at htip
  have htip : kvs.blockNumber = 2 := Except.ok.inj htip
  refine ⟨kvs, hrun, htip, fun n hn => (hiff n (htip ▸ hn)).mpr ⟨fun _ hlen => ?_, .inl (by decide)⟩⟩
  exact absurd hlen (by decide)

/-- With two slots, height 0 is read as empty after blocks 0 and 1. -/
theorem placeholder_hides_genesis :
    ∃ kvs r, [touch 0, touch 1].foldlM LightKVS.handle (LightKVS.new 2 (by decide)) = .ok kvs ∧
      kvs.blockNumber = 1 ∧ kvs.newSnapshot (some 0) = .ok r ∧
      r.get (ascii "evm") (ascii "k") = .ok none ∧
      record (foldWrites ([touch 0, touch 1].filter (·.number ≤ 0))) (ascii "evm") (ascii "k") =
        some ⟨ascii "evm", ascii "k", 0, 0, 0, some [0], false, ascii "tx"⟩ :=
  ⟨_, _, rfl, rfl, rfl, rfl, rfl⟩

end Storage
