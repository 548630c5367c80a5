import FabricXEvm.Storage.KeyLayout

/-!
# The tables of the database

What the bytes of a database mean: the current record of each key, and a set of retained
records, each with the block that superseded it.  The history has an entry for every
retained record and nothing else, and so has the index.

The changes a commit stages act on the tables one by one: a data write (`Tables.put`), a
record copied aside (`Tables.retain`), and the deletes of a prune (`Tables.prune`).  A scan
of the history finds the retained record of the highest block (`Tables.scan`).
-/

namespace Storage

open Blocks BigEndian

/-- A record kept as history: of which key, and the block that superseded it. -/
structure Retained where
  key : Bytes
  record : ValueVersion
  block : Nat

namespace Retained

def histKey (e : Retained) : Bytes := historyKey e.key e.record.blockNum e.record.txNum

def idxKey (e : Retained) : Bytes := indexKey e.block e.histKey

/-- Its place in the history. -/
def entry (e : Retained) : HistoryEntry := ⟨e.key, e.record.blockNum, e.record.txNum⟩

theorem head?_histKey (e : Retained) : e.histKey.head? = some prefixHistory := rfl

theorem head?_idxKey (e : Retained) : e.idxKey.head? = some prefixIndex := rfl

/-- The parts of the keys fit in their places. -/
structure Fits (e : Retained) : Prop where
  key : e.key.length < 2 ^ 32
  blockNum : e.record.blockNum < 2 ^ 64
  txNum : e.record.txNum < 2 ^ 64
  block : e.block < 2 ^ 64

theorem histKey_inj {e e' : Retained} (he : e.Fits) (he' : e'.Fits)
    (h : e.histKey = e'.histKey) : e.key = e'.key ∧ e.record.blockNum = e'.record.blockNum := by
  obtain ⟨hkey, hblock, -⟩ :=
    historyKey_inj he.key he'.key he.blockNum he'.blockNum he.txNum he'.txNum h
  exact ⟨hkey, hblock⟩

theorem idxKey_inj {e e' : Retained} (he : e.Fits) (he' : e'.Fits) (h : e.idxKey = e'.idxKey) :
    e.block = e'.block ∧ e.histKey = e'.histKey :=
  indexKey_inj he.block he'.block h

end Retained

/-- A set of retained records in which a key has one record of a block at most. -/
structure Retention (S : Set Retained) : Prop where
  fits : ∀ e ∈ S, e.Fits
  unique : ∀ e ∈ S, ∀ e' ∈ S, e.key = e'.key → e.record.blockNum = e'.record.blockNum → e = e'

/-- The database holds these current records, these retained ones, and these marks under
the meta keys. -/
structure Tables (db : Database) (current : Bytes → Option ValueVersion) (S : Set Retained)
    (marks : Bytes → Option Bytes) : Prop where
  data : ∀ key, key.length < 2 ^ 32 → db.get (dataKey key) = (current key).map encodeRecord
  history : ∀ {k raw}, k.head? = some prefixHistory →
    (db.get k = some raw ↔ ∃ e ∈ S, k = e.histKey ∧ raw = encodeRecord e.record)
  index : ∀ {k raw}, k.head? = some prefixIndex →
    (db.get k = some raw ↔ ∃ e ∈ S, k = e.idxKey ∧ raw = [])
  marked : ∀ {k}, k.head? = some prefixMeta → db.get k = marks k

namespace Tables

variable {db : Database} {current : Bytes → Option ValueVersion} {S : Set Retained}
  {marks : Bytes → Option Bytes}

/-! ## Changes -/

/-- A change of a meta key. -/
theorem put_meta (h : Tables db current S marks) {k : Bytes} (hk : k.head? = some prefixMeta)
    (v : Bytes) : Tables (db.put k v) current S (Function.update marks k (some v)) where
  data key hkey := by
    rw [OrderedStore.get_put, if_neg (ne_of_head? rfl hk (by decide)), h.data key hkey]
  history hk' := by
    rw [OrderedStore.get_put, if_neg (ne_of_head? hk' hk (by decide)), h.history hk']
  index hk' := by
    rw [OrderedStore.get_put, if_neg (ne_of_head? hk' hk (by decide)), h.index hk']
  marked {k'} hk' := by
    rw [OrderedStore.get_put, h.marked hk']
    by_cases heq : k' = k
    · rw [if_pos heq, heq, Function.update_self]
    · rw [if_neg heq, Function.update_of_ne heq]

/-- A current record is overwritten. -/
theorem put (h : Tables db current S marks) {key : Bytes} (hkey : key.length < 2 ^ 32)
    (r : ValueVersion) :
    Tables (db.put (dataKey key) (encodeRecord r)) (Function.update current key (some r)) S
      marks where
  data key' hkey' := by
    rw [OrderedStore.get_put]
    by_cases heq : key' = key
    · subst heq
      rw [if_pos rfl, Function.update_self]
      rfl
    · rw [if_neg fun hk => heq (dataKey_inj hkey' hkey hk), Function.update_of_ne heq,
        h.data key' hkey']
  history hk := by
    rw [OrderedStore.get_put, if_neg (ne_of_head? hk (head?_dataKey key) (by decide)),
      h.history hk]
  index hk := by
    rw [OrderedStore.get_put, if_neg (ne_of_head? hk (head?_dataKey key) (by decide)), h.index hk]
  marked hk := by
    rw [OrderedStore.get_put, if_neg (ne_of_head? hk (head?_dataKey key) (by decide)), h.marked hk]

/-- A record is copied aside under a new history key. -/
theorem retain (h : Tables db current S marks) {e : Retained}
    (hnew : ∀ e' ∈ S, e'.histKey ≠ e.histKey) :
    Tables (db.write (stageHistory e.block e.key e.record (encodeRecord e.record))) current
      (insert e S) marks := by
  have hget : ∀ k, (db.write (stageHistory e.block e.key e.record (encodeRecord e.record))).get k =
      if k = e.idxKey then some [] else if k = e.histKey then some (encodeRecord e.record)
        else db.get k := by
    intro k
    change ((db.put e.histKey (encodeRecord e.record)).put e.idxKey []).get k = _
    rw [OrderedStore.get_put, OrderedStore.get_put]
    split_ifs <;> rfl
  refine ⟨fun key hkey => ?_, fun {k raw} hk => ?_, fun {k raw} hk => ?_, fun {k} hk => ?_⟩
  · rw [hget, if_neg (ne_of_head? (head?_dataKey key) e.head?_idxKey (by decide)),
      if_neg (ne_of_head? (head?_dataKey key) e.head?_histKey (by decide)), h.data key hkey]
  · rw [hget, if_neg (ne_of_head? hk e.head?_idxKey (by decide))]
    by_cases hk' : k = e.histKey
    · rw [if_pos hk']
      constructor
      · intro hraw
        exact ⟨e, Set.mem_insert e S, hk', (Option.some.inj hraw).symm⟩
      · rintro ⟨e', rfl | he', hkey, rfl⟩
        · rfl
        · exact absurd (hkey.symm.trans hk') (hnew e' he')
    · rw [if_neg hk', h.history hk]
      constructor
      · rintro ⟨e', he', hkey⟩
        exact ⟨e', Set.mem_insert_of_mem e he', hkey⟩
      · rintro ⟨e', rfl | he', hkey⟩
        · exact absurd hkey.1 hk'
        · exact ⟨e', he', hkey⟩
  · by_cases hk' : k = e.idxKey
    · rw [hget, if_pos hk']
      constructor
      · intro hraw
        exact ⟨e, Set.mem_insert e S, hk', (Option.some.inj hraw).symm⟩
      · rintro ⟨e', _, _, rfl⟩
        rfl
    · rw [hget, if_neg hk', if_neg (ne_of_head? hk e.head?_histKey (by decide)), h.index hk]
      constructor
      · rintro ⟨e', he', hkey⟩
        exact ⟨e', Set.mem_insert_of_mem e he', hkey⟩
      · rintro ⟨e', rfl | he', hkey⟩
        · exact absurd hkey.1 hk'
        · exact ⟨e', he', hkey⟩
  · rw [hget, if_neg (ne_of_head? hk e.head?_idxKey (by decide)),
      if_neg (ne_of_head? hk e.head?_histKey (by decide)), h.marked hk]

/-! ## Pruning -/

/-- The block of an index key. -/
def indexBlock (k : Bytes) : Nat := decode ((k.drop 1).take 8)

theorem parseIndexKey_idxKey {e : Retained} (he : e.Fits) :
    parseIndexKey e.idxKey = .ok (e.block, e.histKey) :=
  parseIndexKey_indexKey he.block (List.cons_ne_nil _ _)

theorem indexBlock_idxKey {e : Retained} (he : e.Fits) : indexBlock e.idxKey = e.block := by
  have hparse := parseIndexKey_idxKey he
  rw [parseIndexKey] at hparse
  split at hparse
  next => cases hparse
  next => exact congrArg Prod.fst (Except.ok.inj hparse)

/-- What a pruning walk over well-formed index entries deletes. -/
theorem pruneIndex_ok (cutoff : Nat) {entries : List (Bytes × Bytes)}
    (h : ∀ x ∈ entries, ∃ e : Retained, e.Fits ∧ x.1 = e.idxKey) :
    ∃ ks : List Bytes, pruneIndex cutoff entries = .ok (ks.map .delete) ∧
      ∀ k, k ∈ ks ↔ ∃ e : Retained, e.Fits ∧ (k = e.histKey ∨ k = e.idxKey) ∧
        e.idxKey ∈ (entries.takeWhile fun x => indexBlock x.1 ≤ cutoff).map Prod.fst := by
  induction entries with
  | nil => exact ⟨[], rfl, by simp⟩
  | cons x entries ih =>
      obtain ⟨e, he, hx⟩ := h x List.mem_cons_self
      obtain ⟨key, v⟩ := x
      obtain rfl : key = e.idxKey := hx
      obtain ⟨ks, hks, hmem⟩ := ih fun y hy => h y (List.mem_cons_of_mem _ hy)
      have hblock := indexBlock_idxKey he
      rw [pruneIndex, parseIndexKey_idxKey he]
      dsimp only
      by_cases hcut : cutoff < e.block
      · refine ⟨[], if_pos hcut, fun k => ?_⟩
        rw [List.takeWhile_cons_of_neg (by simpa [hblock] using hcut)]
        simp
      · refine ⟨e.histKey :: e.idxKey :: ks, ?_, fun k => ?_⟩
        · rw [if_neg hcut, hks]
          rfl
        · rw [List.takeWhile_cons_of_pos (by simpa [hblock] using hcut), List.map_cons,
            List.mem_cons, List.mem_cons, hmem]
          constructor
          · rintro (rfl | rfl | ⟨e', he', hk, hin⟩)
            · exact ⟨e, he, .inl rfl, List.mem_cons_self⟩
            · exact ⟨e, he, .inr rfl, List.mem_cons_self⟩
            · exact ⟨e', he', hk, List.mem_cons_of_mem _ hin⟩
          · rintro ⟨e', he', hk, hin⟩
            rcases List.mem_cons.mp hin with hidx | hin
            · have hidx : e'.idxKey = e.idxKey := hidx
              rw [hidx, (Retained.idxKey_inj he' he hidx).2] at hk
              exact hk.imp_right .inl
            · exact .inr (.inr ⟨e', he', hk, hin⟩)

/-- What a prune at a cutoff deletes from a database. -/
theorem pruneIndex_newIterator (h : Tables db current S marks) (hS : Retention S) (cutoff : Nat) :
    ∃ ks : List Bytes, pruneIndex cutoff (newIterator db [prefixIndex] []) = .ok (ks.map .delete) ∧
      ∀ k, k ∈ ks ↔ ∃ e ∈ S, e.block ≤ cutoff ∧ (k = e.histKey ∨ k = e.idxKey) := by
  have hscan : ∀ x, x ∈ newIterator db [prefixIndex] [] ↔ ∃ e ∈ S, x = (e.idxKey, []) := by
    rintro ⟨k, raw⟩
    rw [mem_newIterator]
    constructor
    · rintro ⟨hget, -, rest, rfl⟩
      obtain ⟨e, he, hk, rfl⟩ := (h.index rfl).mp hget
      exact ⟨e, he, by rw [← hk]⟩
    · rintro ⟨e, he, heq⟩
      cases heq
      exact ⟨(h.index e.head?_idxKey).mpr ⟨e, he, rfl, rfl⟩, le_append [prefixIndex] _,
        List.prefix_append [prefixIndex] _⟩
  obtain ⟨ks, hks, hmem⟩ := @pruneIndex_ok cutoff (newIterator db [prefixIndex] []) fun x hx => by
    obtain ⟨e, he, rfl⟩ := (hscan x).mp hx
    exact ⟨e, hS.fits e he, rfl⟩
  refine ⟨ks, hks, fun k => ?_⟩
  -- the walk stops at the first index key past the cutoff
  have htake : ∀ x, x ∈ (newIterator db [prefixIndex] []).takeWhile
      (fun x => indexBlock x.1 ≤ cutoff) ↔ ∃ e ∈ S, e.block ≤ cutoff ∧ x = (e.idxKey, []) := by
    intro x
    rw [newIterator, OrderedStore.mem_takeWhile_scan, ← newIterator, hscan]
    · constructor
      · rintro ⟨⟨e, he, rfl⟩, hcut⟩
        have hcut := of_decide_eq_true hcut
        rw [indexBlock_idxKey (hS.fits e he)] at hcut
        exact ⟨e, he, hcut, rfl⟩
      · rintro ⟨e, he, hcut, rfl⟩
        refine ⟨⟨e, he, rfl⟩, decide_eq_true ?_⟩
        rwa [indexBlock_idxKey (hS.fits e he)]
    · intro x hx y hy hlt hcut
      obtain ⟨e, he, rfl⟩ := (hscan x).mp hx
      obtain ⟨e', he', rfl⟩ := (hscan y).mp hy
      have hle := le_of_indexKey_lt (hS.fits e he).block hlt
      have hcut := of_decide_eq_true hcut
      rw [indexBlock_idxKey (hS.fits e' he')] at hcut
      refine decide_eq_true ?_
      rw [indexBlock_idxKey (hS.fits e he)]
      exact hle.trans hcut
  rw [hmem]
  constructor
  · rintro ⟨e, he, hk, hin⟩
    obtain ⟨x, hx, hidx⟩ := List.mem_map.mp hin
    obtain ⟨e', he', hcut, rfl⟩ := (htake x).mp hx
    have hhist := (Retained.idxKey_inj (hS.fits e' he') he hidx).2
    refine ⟨e', he', hcut, ?_⟩
    rw [hhist, show e'.idxKey = e.idxKey from hidx]
    exact hk
  · rintro ⟨e, he, hcut, hk⟩
    exact ⟨e, hS.fits e he, hk, List.mem_map_of_mem ((htake (e.idxKey, [])).mpr ⟨e, he, hcut, rfl⟩)⟩

/-- The deletes of a prune leave the records superseded after the cutoff. -/
theorem prune (h : Tables db current S marks) (hS : Retention S) {cutoff : Nat} {ks : List Bytes}
    (hks : ∀ k, k ∈ ks ↔ ∃ e ∈ S, e.block ≤ cutoff ∧ (k = e.histKey ∨ k = e.idxKey)) :
    Tables (db.write (ks.map .delete)) current { e ∈ S | cutoff < e.block } marks := by
  have hhist : ∀ e ∈ S, e.histKey ∈ ks ↔ e.block ≤ cutoff := by
    intro e he
    rw [hks]
    constructor
    · rintro ⟨e', he', hcut, hk | hk⟩
      · obtain ⟨hkey, hblock⟩ := Retained.histKey_inj (hS.fits e he) (hS.fits e' he') hk
        rwa [hS.unique e he e' he' hkey hblock]
      · exact absurd hk (ne_of_head? e.head?_histKey e'.head?_idxKey (by decide))
    · intro hcut
      exact ⟨e, he, hcut, .inl rfl⟩
  have hidx : ∀ e ∈ S, e.idxKey ∈ ks ↔ e.block ≤ cutoff := by
    intro e he
    rw [hks]
    constructor
    · rintro ⟨e', he', hcut, hk | hk⟩
      · exact absurd hk (ne_of_head? e.head?_idxKey e'.head?_histKey (by decide))
      · rwa [(Retained.idxKey_inj (hS.fits e he) (hS.fits e' he') hk).1]
    · intro hcut
      exact ⟨e, he, hcut, .inr rfl⟩
  have hother : ∀ {k : Bytes} {kind : UInt8}, k.head? = some kind → kind ≠ prefixHistory →
      kind ≠ prefixIndex → k ∉ ks := by
    intro k kind hk hh hi
    rw [hks]
    rintro ⟨e, _, _, hk' | hk'⟩
    · exact ne_of_head? hk e.head?_histKey hh hk'
    · exact ne_of_head? hk e.head?_idxKey hi hk'
  refine ⟨fun key hkey => ?_, fun {k raw} hk => ?_, fun {k raw} hk => ?_, fun {k} hk => ?_⟩
  · rw [OrderedStore.get_write_deletes, if_neg, h.data key hkey]
    exact hother (head?_dataKey key) (by decide) (by decide)
  · rw [OrderedStore.get_write_deletes_eq_some, h.history hk]
    constructor
    · rintro ⟨hnot, e, he, rfl, rfl⟩
      exact ⟨e, ⟨he, not_le.mp fun hcut => hnot ((hhist e he).mpr hcut)⟩, rfl, rfl⟩
    · rintro ⟨e, ⟨he, hcut⟩, rfl, rfl⟩
      exact ⟨fun hin => absurd ((hhist e he).mp hin) (not_le.mpr hcut), e, he, rfl, rfl⟩
  · rw [OrderedStore.get_write_deletes_eq_some, h.index hk]
    constructor
    · rintro ⟨hnot, e, he, rfl, rfl⟩
      exact ⟨e, ⟨he, not_le.mp fun hcut => hnot ((hidx e he).mpr hcut)⟩, rfl, rfl⟩
    · rintro ⟨e, ⟨he, hcut⟩, rfl, rfl⟩
      exact ⟨fun hin => absurd ((hidx e he).mp hin) (not_le.mpr hcut), e, he, rfl, rfl⟩
  · rw [OrderedStore.get_write_deletes, if_neg, h.marked hk]
    exact hother hk (by decide) (by decide)

/-! ## Reads -/

theorem currentRecord_eq (h : Tables db current S marks) {key : Bytes} (hkey : key.length < 2 ^ 32)
    (hfits : ∀ r, current key = some r → RecordFits r) :
    currentRecord db key = .ok ((current key).map fun r => (r, encodeRecord r)) := by
  rw [currentRecord, h.data key hkey]
  cases hcur : current key with
  | none => rfl
  | some r =>
      simp only [Option.map_some, decodeRecord_encodeRecord (hfits r hcur)]

/-- The history entries are those of the retained records. -/
theorem historyOf (h : Tables db current S marks) (hS : Retention S) :
    HistoryOf db (Retained.entry '' S) where
  fits := by
    rintro _ ⟨e, he, rfl⟩
    exact ⟨(hS.fits e he).key, (hS.fits e he).blockNum, (hS.fits e he).txNum⟩
  stored {k} hk := by
    rw [Option.isSome_iff_exists, Set.exists_mem_image]
    constructor
    · rintro ⟨raw, hraw⟩
      obtain ⟨e, he, hkey, -⟩ := (h.history hk).mp hraw
      exact ⟨e, he, hkey⟩
    · rintro ⟨e, he, hkey⟩
      exact ⟨encodeRecord e.record, (h.history hk).mpr ⟨e, he, hkey, rfl⟩⟩

/-- What a scan of the history visits: the retained records of the key that are not after
the block. -/
theorem mem_historyScan (h : Tables db current S marks) (hS : Retention S) {key : Bytes}
    (hkey : key.length < 2 ^ 32) {n : Nat} (hn : n < 2 ^ 64) {x : Bytes × Bytes} :
    x ∈ newIterator db (historyPrefix key) (u64be (not64 n)) ↔
      ∃ e ∈ S, e.key = key ∧ e.record.blockNum ≤ n ∧
        x = (e.histKey, encodeRecord e.record) := by
  obtain ⟨k, raw⟩ := x
  rw [(h.historyOf hS).mem_seek hkey hn, Set.exists_mem_image]
  constructor
  · rintro ⟨hget, e, he, rfl, hekey, hle⟩
    obtain ⟨e', he', hk, rfl⟩ := (h.history rfl).mp hget
    obtain ⟨hkey', hblock⟩ := Retained.histKey_inj (hS.fits e he) (hS.fits e' he') hk
    obtain rfl := hS.unique e he e' he' hkey' hblock
    exact ⟨e, he, hekey, hle, rfl⟩
  · rintro ⟨e, he, hekey, hle, heq⟩
    cases heq
    exact ⟨(h.history e.head?_histKey).mpr ⟨e, he, rfl, rfl⟩, e, he, rfl, hekey, hle⟩

/-- A scan of the history finds the retained record of the highest block. -/
theorem scan_some (h : Tables db current S marks) (hS : Retention S) {e : Retained} (he : e ∈ S)
    {n : Nat} (hn : n < 2 ^ 64) (hle : e.record.blockNum ≤ n)
    (hmax : ∀ e' ∈ S, e'.key = e.key → e'.record.blockNum ≤ n →
      e'.record.blockNum ≤ e.record.blockNum) :
    (newIterator db (historyPrefix e.key) (u64be (not64 n))).head? =
      some (e.histKey, encodeRecord e.record) := by
  have hkey := (hS.fits e he).key
  refine db.head?_scan.mpr ⟨(h.mem_historyScan hS hkey hn).mpr ⟨e, he, rfl, hle, rfl⟩, fun x hx => ?_⟩
  obtain ⟨e', he', hkey', hle', rfl⟩ := (h.mem_historyScan hS hkey hn).mp hx
  rcases (hmax e' he' hkey' hle').lt_or_eq with hlt | heq
  · have hfits := (h.historyOf hS).fits
    refine (HistoryEntry.bytes_le (hfits e.entry ⟨e, he, rfl⟩) (hfits e'.entry ⟨e', he', rfl⟩)
      hkey').mpr ?_
    exact Prod.Lex.toLex_le_toLex.mpr (.inl hlt)
  · rw [hS.unique e' he' e he hkey' heq]

theorem scan_none (h : Tables db current S marks) (hS : Retention S) {key : Bytes}
    (hkey : key.length < 2 ^ 32) {n : Nat} (hn : n < 2 ^ 64)
    (hnone : ∀ e ∈ S, e.key = key → n < e.record.blockNum) :
    (newIterator db (historyPrefix key) (u64be (not64 n))).head? = none := by
  refine List.head?_eq_none_iff.mpr (List.eq_nil_iff_forall_not_mem.mpr fun x hx => ?_)
  obtain ⟨e, he, hkey', hle, -⟩ := (h.mem_historyScan hS hkey hn).mp hx
  exact absurd hle (not_le.mpr (hnone e he hkey'))

end Tables

end Storage
