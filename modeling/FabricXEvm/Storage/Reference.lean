import FabricXEvm.Storage.LightKVS

/-!
# A store that never prunes

The log of all writes by valid transactions, in the order of the blocks.  The record of a
key as of a block is its last write in that block or an earlier one; its version is the
number of the writes before it (`recordAsOf`).

A record is *superseded* at a block when it is the last one before that block and the block
writes the key.  A block of a later write supersedes at most one record of each key, and a
record as of a block with later writes is superseded by the next of them.
-/

namespace Storage

open Blocks

/-- The last of the writes of one key, with its version. -/
def lastOf (ws : List KeyValueVersion) : Option ValueVersion :=
  ws.getLast?.map (·.at (ws.length - 1))

/-- The writes of a key. -/
def writesOf (log : List KeyValueVersion) (key : Bytes) : List KeyValueVersion :=
  log.filter fun u => u.key = key

/-- The record of a key just before a block. -/
def recordBefore (log : List KeyValueVersion) (block : Nat) (key : Bytes) : Option ValueVersion :=
  lastOf ((writesOf log key).filter fun u => u.blockNum < block)

/-- The record of a key as of a block. -/
def recordAsOf (log : List KeyValueVersion) (block : Nat) (key : Bytes) : Option ValueVersion :=
  lastOf ((writesOf log key).filter fun u => u.blockNum ≤ block)

/-- The latest record of a key. -/
def latest (log : List KeyValueVersion) (key : Bytes) : Option ValueVersion :=
  lastOf (writesOf log key)

/-- The reference store: the last block and the log. -/
structure Reference where
  head : Option Nat := none
  log : List KeyValueVersion := []

/-- A block that is not past the last one was applied before. -/
def Reference.handle (ref : Reference) (b : Block) : Reference :=
  match ref.head with
  | some head =>
      if b.number ≤ head then ref
      else { head := some b.number, log := ref.log ++ blockUpdates b }
  | none => { head := some b.number, log := ref.log ++ blockUpdates b }

/-! ## Logs -/

/-- A log in the order of its blocks. -/
def Ordered (log : List KeyValueVersion) : Prop :=
  log.Pairwise fun u u' => u.blockNum ≤ u'.blockNum

theorem mem_writesOf {log : List KeyValueVersion} {key : Bytes} {u : KeyValueVersion} :
    u ∈ writesOf log key ↔ u ∈ log ∧ u.key = key := by
  simp [writesOf]

theorem lastOf_append (ws : List KeyValueVersion) (u : KeyValueVersion) :
    lastOf (ws ++ [u]) = some (u.at ws.length) := by
  simp [lastOf]

theorem lastOf_eq_none {ws : List KeyValueVersion} : lastOf ws = none ↔ ws = [] := by
  simp [lastOf]

/-- The last write comes from the list, and no write is in a later block. -/
theorem lastOf_eq_some {ws : List KeyValueVersion} (hws : Ordered ws) {r : ValueVersion}
    (h : lastOf ws = some r) :
    ∃ u ∈ ws, r = u.at (ws.length - 1) ∧ ∀ w ∈ ws, w.blockNum ≤ r.blockNum := by
  induction ws using List.reverseRecOn with
  | nil => cases h
  | append_singleton ws u _ =>
      rw [lastOf_append] at h
      cases h
      refine ⟨u, List.mem_append_right _ (List.mem_singleton_self u), by simp, fun w hw => ?_⟩
      rcases List.mem_append.mp hw with hw | hw
      · exact (List.pairwise_append.mp hws).2.2 w hw u (List.mem_singleton_self u)
      · rw [List.mem_singleton.mp hw]
        exact Nat.le_refl _

theorem Ordered.filter {log : List KeyValueVersion} (h : Ordered log) (p : KeyValueVersion → Bool) :
    Ordered (log.filter p) :=
  List.Pairwise.filter p h

section Records

variable {log us : List KeyValueVersion} {key : Bytes} {block block' : Nat} {r r' : ValueVersion}

theorem recordAsOf_eq : recordAsOf log block key = recordBefore log (block + 1) key := by
  simp only [recordAsOf, recordBefore, Nat.lt_succ_iff]

/-- The record before a block is a write of the key, and no other one is closer to it. -/
theorem recordBefore_eq_some (hlog : Ordered log) (h : recordBefore log block key = some r) :
    (∃ u ∈ log, u.key = key ∧ u.blockNum < block ∧ ∃ version < log.length, r = u.at version) ∧
      ∀ w ∈ log, w.key = key → w.blockNum < block → w.blockNum ≤ r.blockNum := by
  obtain ⟨u, hu, hr, hmax⟩ := lastOf_eq_some ((hlog.filter _).filter _) h
  have hmem := List.mem_filter.mp hu
  obtain ⟨hlogu, hkey⟩ := mem_writesOf.mp hmem.1
  have hlen : ((writesOf log key).filter fun u => u.blockNum < block).length - 1 < log.length := by
    have hpos := List.length_pos_of_mem hu
    have hle := List.length_filter_le (fun u => decide (u.blockNum < block)) (writesOf log key)
    have hle' := List.length_filter_le (fun u : KeyValueVersion => decide (u.key = key)) log
    exact lt_of_lt_of_le (Nat.sub_one_lt_of_lt hpos) (hle.trans hle')
  refine ⟨⟨u, hlogu, hkey, of_decide_eq_true hmem.2, _, hlen, hr⟩, fun w hw hwkey hwblock => ?_⟩
  exact hmax w (List.mem_filter.mpr ⟨mem_writesOf.mpr ⟨hw, hwkey⟩, decide_eq_true hwblock⟩)

/-- The record before a block is of an earlier block. -/
theorem recordBefore_lt (hlog : Ordered log) (h : recordBefore log block key = some r) :
    r.blockNum < block := by
  obtain ⟨⟨u, _, _, hlt, _, _, rfl⟩, _⟩ := recordBefore_eq_some hlog h
  exact hlt

theorem recordBefore_isSome {w : KeyValueVersion} (hw : w ∈ log) (hkey : w.key = key)
    (hblock : w.blockNum < block) : ∃ r, recordBefore log block key = some r := by
  refine Option.ne_none_iff_exists'.mp fun hnone => ?_
  have hmem : w ∈ (writesOf log key).filter fun u => u.blockNum < block :=
    List.mem_filter.mpr ⟨mem_writesOf.mpr ⟨hw, hkey⟩, decide_eq_true hblock⟩
  rw [lastOf_eq_none.mp hnone] at hmem
  cases hmem

/-- Later writes do not change the record before a block. -/
theorem recordBefore_append (h : ∀ u ∈ us, block ≤ u.blockNum) :
    recordBefore (log ++ us) block key = recordBefore log block key := by
  have hnil : (writesOf us key).filter (fun u => u.blockNum < block) = [] := by
    refine List.filter_eq_nil_iff.mpr fun u hu => ?_
    have := h u (mem_writesOf.mp hu).1
    simpa using this
  simp only [recordBefore, writesOf, List.filter_append] at hnil ⊢
  rw [hnil, List.append_nil]

/-- The record is the same before two blocks if nothing in between writes the key. -/
theorem recordBefore_congr (hle : block ≤ block')
    (h : ∀ u ∈ log, u.key = key → u.blockNum < block' → u.blockNum < block) :
    recordBefore log block key = recordBefore log block' key := by
  refine congrArg lastOf (List.filter_congr fun u hu => ?_)
  obtain ⟨hlog, hkey⟩ := mem_writesOf.mp hu
  refine decide_eq_decide.mpr ⟨fun hlt => by omega, h u hlog hkey⟩

theorem recordBefore_eq_latest (h : ∀ u ∈ log, u.blockNum < block) :
    recordBefore log block key = latest log key := by
  refine congrArg lastOf (List.filter_eq_self.mpr fun u hu => ?_)
  exact decide_eq_true (h u (mem_writesOf.mp hu).1)

theorem latest_append (u : KeyValueVersion) :
    latest (log ++ [u]) key =
      if u.key = key then some (u.at (writesOf log key).length) else latest log key := by
  unfold latest writesOf
  rw [List.filter_append]
  by_cases hkey : u.key = key
  · simp [hkey, lastOf_append]
  · simp [hkey]

/-- The version of the latest record counts the writes before it. -/
theorem latest_version (h : latest log key = some r) :
    r.version + 1 = (writesOf log key).length := by
  obtain ⟨u, hu, rfl⟩ := Option.map_eq_some_iff.mp h
  have hpos := List.length_pos_of_mem (List.mem_of_getLast? hu)
  change (writesOf log key).length - 1 + 1 = _
  omega

/-- The version of the next write of a key is the number of its writes so far. -/
theorem nextVersion_latest (log : List KeyValueVersion) (key : Bytes) :
    nextVersion (latest log) key = (writesOf log key).length := by
  unfold nextVersion
  cases h : latest log key with
  | none => simp [lastOf_eq_none.mp h]
  | some r => exact latest_version h

/-- Putting writes one by one keeps the latest records of the log. -/
theorem foldl_put_latest (log us : List KeyValueVersion) :
    us.foldl put (latest log) = latest (log ++ us) := by
  induction us generalizing log with
  | nil => simp
  | cons u us ih =>
      have hput : put (latest log) u = latest (log ++ [u]) := by
        funext key
        rw [latest_append]
        by_cases hkey : u.key = key
        · subst hkey
          rw [put_self, nextVersion_latest, if_pos rfl]
        · rw [put_of_ne _ (Ne.symm hkey), if_neg hkey]
      rw [List.foldl_cons, hput, ih, List.append_assoc]
      rfl

/-! ## Superseded records -/

/-- `block` writes a key, and `r` is the key's record before it. -/
def Superseded (log : List KeyValueVersion) (key : Bytes) (r : ValueVersion) (block : Nat) : Prop :=
  recordBefore log block key = some r ∧ ∃ u ∈ log, u.key = key ∧ u.blockNum = block

/-- Records of one block are superseded at one block only. -/
theorem Superseded.unique (hlog : Ordered log) (h : Superseded log key r block)
    (h' : Superseded log key r' block') (heq : r.blockNum = r'.blockNum) :
    block = block' ∧ r = r' := by
  have hle : ∀ {r r' : ValueVersion} {block block' : Nat}, Superseded log key r block →
      Superseded log key r' block' → r.blockNum = r'.blockNum → block' ≤ block := by
    intro r r' block block' h h' heq
    by_contra hlt
    -- the write at the earlier block is closer to the later one
    obtain ⟨u, hu, hkey, rfl⟩ := h.2
    have hclose := (recordBefore_eq_some hlog h'.1).2 u hu hkey (not_le.mp hlt)
    have := recordBefore_lt hlog h.1
    omega
  obtain rfl : block = block' := le_antisymm (hle h' h heq.symm) (hle h h' heq)
  exact ⟨rfl, Option.some.inj (h.1.symm.trans h'.1)⟩

/-- A write at the end of the log supersedes the record before its block, unless the block
has written the key before. -/
theorem superseded_append {u : KeyValueVersion} (hle : ∀ w ∈ log, w.blockNum ≤ u.blockNum) :
    Superseded (log ++ [u]) key r block ↔ Superseded log key r block ∨
      key = u.key ∧ block = u.blockNum ∧ recordBefore log u.blockNum key = some r := by
  have hbefore : ∀ {block}, block ≤ u.blockNum →
      recordBefore (log ++ [u]) block key = recordBefore log block key := fun hb =>
    recordBefore_append fun w hw => by rwa [List.mem_singleton.mp hw]
  constructor
  · rintro ⟨hr, w, hw, hkey, rfl⟩
    rcases List.mem_append.mp hw with hw | hw
    · exact .inl ⟨(hbefore (hle w hw)).symm.trans hr, w, hw, hkey, rfl⟩
    · cases List.mem_singleton.mp hw
      exact .inr ⟨hkey.symm, rfl, (hbefore (Nat.le_refl _)).symm.trans hr⟩
  · rintro (⟨hr, w, hw, hkey, rfl⟩ | ⟨rfl, rfl, hr⟩)
    · exact ⟨(hbefore (hle w hw)).trans hr, w, List.mem_append_left _ hw, hkey, rfl⟩
    · exact ⟨(hbefore (Nat.le_refl _)).trans hr, u,
        List.mem_append_right _ (List.mem_singleton_self u), rfl, rfl⟩

/-- A record as of a block is superseded by the next block that writes the key. -/
theorem superseded_of_later (h : recordAsOf log block key = some r) {w : KeyValueVersion}
    (hw : w ∈ log) (hkey : w.key = key) (hlater : block < w.blockNum) :
    ∃ next, block < next ∧ Superseded log key r next := by
  classical
  have hex : ∃ next, block < next ∧ ∃ u ∈ log, u.key = key ∧ u.blockNum = next :=
    ⟨w.blockNum, hlater, w, hw, hkey, rfl⟩
  obtain ⟨hlt, hwrite⟩ := Nat.find_spec hex
  refine ⟨Nat.find hex, hlt, ?_, hwrite⟩
  rw [recordAsOf_eq] at h
  rw [← h]
  refine (recordBefore_congr hlt fun u hu hukey hublock => ?_).symm
  -- a write in between would be the next one
  by_contra hge
  exact Nat.find_min hex hublock ⟨by omega, u, hu, hukey, rfl⟩

end Records

/-- A block that writes one key. -/
def touch (n : Nat) : Block where
  number := n
  transactions := [{ id := ascii "tx", nsRWS := [⟨ascii "evm",
    { writes := [{ key := ascii "k", value := some [UInt8.ofNat n] }] }⟩] }]

theorem blockUpdates_touch (n : Nat) :
    blockUpdates (touch n) = [{ key := ascii "evm:k", value := some [UInt8.ofNat n], blockNum := n
                                txNum := 0, txID := ascii "tx", isDelete := false }] := rfl

end Storage
