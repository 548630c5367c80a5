import FabricXEvm.Storage.PebbleTables
import FabricXEvm.Storage.Reference

/-!
# Commits of the pebble store

The database against the log of all writes: the current records are the latest of the log,
and the retained ones are those superseded at the oldest retained block or after it
(`retainedSince`).  A commit keeps that, for the log with the block's writes and a possibly
later oldest block (`PebbleKVS.Inv.applyBlock`).
-/

namespace Storage

open Blocks BigEndian

/-- An update whose parts fit in the formats of the database and in memory. -/
structure UpdateFits (u : KeyValueVersion) : Prop where
  key : u.key.length < 2 ^ 32
  blockNum : u.blockNum < 2 ^ 64
  txNum : u.txNum < 2 ^ 64
  size : u.txID.length + (u.value.getD []).length < 2 ^ 62

/-- A log of fewer than 2^64 updates that fit, in the order of the blocks. -/
structure LogOk (log : List KeyValueVersion) : Prop where
  ordered : Ordered log
  fits : ∀ u ∈ log, UpdateFits u
  length : log.length < 2 ^ 64

/-- The records superseded at a block or after it. -/
def retainedSince (log : List KeyValueVersion) (oldest : Nat) : Set Retained :=
  { e | Superseded log e.key e.record e.block ∧ oldest ≤ e.block }

section Log

variable {log us : List KeyValueVersion} {key : Bytes} {block oldest n : Nat} {r : ValueVersion}

theorem UpdateFits.record {u : KeyValueVersion} (h : UpdateFits u) {version : Nat}
    (hversion : version < 2 ^ 64) : RecordFits (u.at version) where
  blockNum := h.blockNum
  txNum := h.txNum
  version := hversion
  length := by
    have hsize := h.size
    have hlen : ∀ n, (Uvarint.encode n).length ≤ 10 := Uvarint.length_encode_le
    have h₁ := hlen u.blockNum
    have h₂ := hlen u.txNum
    have h₃ := hlen version
    have h₄ := hlen u.txID.length
    simp only [encodeRecord, KeyValueVersion.at, lengthPrefixed, List.length_cons,
      List.length_append]
    cases hvalue : u.value with
    | none => simp only [List.length_nil]; omega
    | some value =>
        have h₅ := hlen value.length
        rw [hvalue, Option.getD_some] at hsize
        simp only [List.length_append]
        omega

/-- Every record of a log that fits does. -/
theorem LogOk.recordBefore (hlog : LogOk log) (h : recordBefore log block key = some r) :
    RecordFits r ∧ ∃ u ∈ log, u.key = key := by
  obtain ⟨⟨u, hu, hkey, _, version, hversion, rfl⟩, _⟩ := recordBefore_eq_some hlog.ordered h
  exact ⟨(hlog.fits u hu).record (hversion.trans hlog.length), u, hu, hkey⟩

theorem LogOk.latest (hlog : LogOk log) (h : latest log key = some r) : RecordFits r := by
  rw [← @recordBefore_eq_latest log key (2 ^ 64) fun u hu => (hlog.fits u hu).blockNum] at h
  exact (hlog.recordBefore h).1

theorem LogOk.retention (hlog : LogOk log) (oldest : Nat) :
    Retention (retainedSince log oldest) where
  fits := by
    rintro e ⟨⟨hr, w, hw, -, hblock⟩, -⟩
    obtain ⟨hrecord, u, hu, hkey⟩ := hlog.recordBefore hr
    exact { key := hkey ▸ (hlog.fits u hu).key
            blockNum := hrecord.blockNum
            txNum := hrecord.txNum
            block := hblock ▸ (hlog.fits w hw).blockNum }
  unique := by
    rintro ⟨key, r, block⟩ ⟨h, -⟩ ⟨key', r', block'⟩ ⟨h', -⟩ hkey hblock
    obtain rfl : key = key' := hkey
    obtain ⟨rfl, rfl⟩ := h.unique hlog.ordered h' hblock
    rfl

/-- The records superseded before a block do not depend on its writes. -/
theorem superseded_append_lt (hus : ∀ u ∈ us, u.blockNum = n) (hblock : block < n) :
    Superseded (log ++ us) key r block ↔ Superseded log key r block := by
  have hbefore : recordBefore (log ++ us) block key = recordBefore log block key :=
    recordBefore_append fun u hu => (hus u hu).symm ▸ hblock.le
  rw [Superseded, Superseded, hbefore]
  refine and_congr_right fun _ => ⟨?_, ?_⟩
  · rintro ⟨u, hu, hkey, rfl⟩
    rcases List.mem_append.mp hu with hu | hu
    · exact ⟨u, hu, hkey, rfl⟩
    · exact absurd (hus u hu) hblock.ne
  · rintro ⟨u, hu, hkey⟩
    exact ⟨u, List.mem_append_left us hu, hkey⟩

end Log

/-- A write that supersedes nothing new. -/
theorem retainedSince_append {log : List KeyValueVersion} {u : KeyValueVersion} {oldest : Nat}
    (hle : ∀ w ∈ log, w.blockNum ≤ u.blockNum)
    (h : ∀ r, recordBefore log u.blockNum u.key = some r → Superseded log u.key r u.blockNum) :
    retainedSince (log ++ [u]) oldest = retainedSince log oldest := by
  ext ⟨key, r, block⟩
  refine and_congr_left fun _ => (superseded_append hle).trans ⟨?_, .inl⟩
  rintro (hold | ⟨rfl, rfl, hr⟩)
  · exact hold
  · exact h r hr

/-- A write that supersedes a record. -/
theorem retainedSince_insert {log : List KeyValueVersion} {u : KeyValueVersion} {oldest : Nat}
    {prev : ValueVersion} (hle : ∀ w ∈ log, w.blockNum ≤ u.blockNum)
    (h : recordBefore log u.blockNum u.key = some prev) (hold : oldest ≤ u.blockNum) :
    retainedSince (log ++ [u]) oldest = insert ⟨u.key, prev, u.blockNum⟩ (retainedSince log oldest) := by
  ext ⟨key, r, block⟩
  rw [Set.mem_insert_iff]
  constructor
  · rintro ⟨hsup, hblock⟩
    rcases (superseded_append hle).mp hsup with hsup | ⟨hkey, hb, hr⟩
    · exact .inr ⟨hsup, hblock⟩
    · obtain rfl : key = u.key := hkey
      obtain rfl : block = u.blockNum := hb
      cases h.symm.trans hr
      exact .inl rfl
  · rintro (heq | ⟨hsup, hblock⟩)
    · cases heq
      exact ⟨(superseded_append hle).mpr (.inr ⟨rfl, rfl, h⟩), hold⟩
    · exact ⟨(superseded_append hle).mpr (.inl hsup), hblock⟩

/-! ## The writes of a block -/

section Stage

variable {db : Database} {log us : List KeyValueVersion} {n oldest : Nat}
  {marks : Bytes → Option Bytes} {u : KeyValueVersion} {staged : Staged}

/-- What was staged for some of the writes of a block. -/
structure StageOk (db : Database) (log us : List KeyValueVersion) (oldest : Nat)
    (marks : Bytes → Option Bytes) (staged : Staged) : Prop where
  tables : Tables (db.write staged.batch) (latest (log ++ us)) (retainedSince (log ++ us) oldest)
    marks
  versions : ∀ key, staged.nextVersion key =
    if key ∈ us.map KeyValueVersion.key then some (writesOf (log ++ us) key).length else none

/-- A write joins the staged ones, at its version, after the tables were brought in line
with what it supersedes. -/
theorem StageOk.write (h : StageOk db log us oldest marks staged) (hkey : u.key.length < 2 ^ 32)
    {history : Batch}
    (htables : Tables (db.write (staged.batch ++ history)) (latest (log ++ us))
      (retainedSince (log ++ (us ++ [u])) oldest) marks) :
    StageOk db log (us ++ [u]) oldest marks
      (stageWrite staged u (writesOf (log ++ us) u.key).length history) where
  tables := by
    have hput := htables.put hkey (u.at (writesOf (log ++ us) u.key).length)
    have hlatest : Function.update (latest (log ++ us)) u.key
        (some (u.at (writesOf (log ++ us) u.key).length)) = latest (log ++ (us ++ [u])) := by
      funext key
      rw [← List.append_assoc, latest_append]
      by_cases hk : u.key = key
      · subst hk
        rw [Function.update_self, if_pos rfl]
      · rw [Function.update_of_ne (Ne.symm hk), if_neg hk]
    rw [hlatest] at hput
    rw [stageWrite, OrderedStore.write_append]
    exact hput
  versions key := by
    have hwrites : writesOf (log ++ (us ++ [u])) key =
        writesOf (log ++ us) key ++ if u.key = key then [u] else [] := by
      rw [← List.append_assoc, writesOf, List.filter_append]
      by_cases hk : u.key = key <;> simp [hk, writesOf]
    rw [stageWrite]
    by_cases hk : key = u.key
    · subst hk
      simp [hwrites]
    · have hk' : u.key ≠ key := Ne.symm hk
      simp [hk, hk', hwrites, h.versions key]

theorem writesOf_append_of_notMem {key : Bytes} (h : key ∉ us.map KeyValueVersion.key) :
    writesOf (log ++ us) key = writesOf log key := by
  have hnil : writesOf us key = [] := by
    refine List.filter_eq_nil_iff.mpr fun w hw => ?_
    have hk : w.key ≠ key := by
      rintro rfl
      exact h (List.mem_map_of_mem hw)
    simpa using hk
  rw [writesOf, List.filter_append, ← writesOf, ← writesOf, hnil, List.append_nil]

/-- The current record of a key is not in its history. -/
theorem histKey_ne_current {key : Bytes} {prev : ValueVersion} {block : Nat} (hlog : LogOk log)
    (hkey : key.length < 2 ^ 32) (hblock : block < 2 ^ 64)
    (hprev : recordBefore log block key = some prev)
    (hbefore : ∀ w ∈ log, w.key = key → w.blockNum < block) :
    ∀ e ∈ retainedSince log oldest, e.histKey ≠ (⟨key, prev, block⟩ : Retained).histKey := by
  rintro ⟨key', r, block'⟩ he hhist
  obtain ⟨hrecord, -⟩ := hlog.recordBefore hprev
  obtain ⟨hkeys, hblocks⟩ := Retained.histKey_inj ((hlog.retention oldest).fits _ he)
    ⟨hkey, hrecord.blockNum, hrecord.txNum, hblock⟩ hhist
  obtain rfl : key' = key := hkeys
  obtain ⟨⟨hr, w, hw, hwkey, rfl⟩, -⟩ := he
  dsimp only at hr hwkey hblocks
  have hclose := (recordBefore_eq_some hlog.ordered hprev).2 w hw hwkey (hbefore w hw hwkey)
  have hearlier := recordBefore_lt hlog.ordered hr
  omega

/-- One turn of the loop over the writes of a block. -/
theorem StageOk.step (h : StageOk db log us oldest marks staged)
    (hdb : Tables db (latest log) (retainedSince log oldest) marks) (hlog : LogOk (log ++ us))
    (hbefore : ∀ w ∈ log, w.blockNum < n) (hus : ∀ w ∈ us, w.blockNum = n)
    (hu : UpdateFits u) (hn : u.blockNum = n) (hold : oldest ≤ n) :
    ∃ staged', stageUpdate db n staged u = .ok staged' ∧
      StageOk db log (us ++ [u]) oldest marks staged' := by
  subst hn
  have hle : ∀ w ∈ log ++ us, w.blockNum ≤ u.blockNum := by
    intro w hw
    rcases List.mem_append.mp hw with hw | hw
    · exact (hbefore w hw).le
    · exact (hus w hw).le
  unfold stageUpdate
  rw [h.versions u.key]
  by_cases hseen : u.key ∈ us.map KeyValueVersion.key
  · -- the block has written the key before
    rw [if_pos hseen]
    refine ⟨_, rfl, h.write hu.key ?_⟩
    obtain ⟨w, hw, hwkey⟩ := List.mem_map.mp hseen
    rw [List.append_nil, ← List.append_assoc, retainedSince_append hle fun r hr =>
      ⟨hr, w, List.mem_append_right log hw, hwkey, hus w hw⟩]
    exact h.tables
  · rw [if_neg hseen]
    have hlatest : recordBefore (log ++ us) u.blockNum u.key = latest log u.key := by
      rw [recordBefore_append fun w hw => (hus w hw).ge, recordBefore_eq_latest hbefore]
    have hcurrent := hdb.currentRecord_eq hu.key fun r hr =>
      (hlog.recordBefore (hlatest.trans hr)).1
    rw [hcurrent]
    cases hprev : latest log u.key with
    | none =>
        have hversion : (writesOf (log ++ us) u.key).length = 0 := by
          rw [writesOf_append_of_notMem hseen, lastOf_eq_none.mp hprev]
          rfl
        refine ⟨stageWrite staged u 0 [], rfl, hversion ▸ h.write hu.key ?_⟩
        rw [List.append_nil, ← List.append_assoc, retainedSince_append hle fun r hr =>
          absurd (hr.symm.trans (hlatest.trans hprev)) (Option.some_ne_none r)]
        exact h.tables
    | some prev =>
        have hbefore' : recordBefore (log ++ us) u.blockNum u.key = some prev :=
          hlatest.trans hprev
        have hversion : (writesOf (log ++ us) u.key).length = prev.version + 1 := by
          rw [writesOf_append_of_notMem hseen, latest_version hprev]
        refine ⟨stageWrite staged u (prev.version + 1)
          (stageHistory u.blockNum u.key prev (encodeRecord prev)), rfl,
          hversion ▸ h.write hu.key ?_⟩
        rw [← List.append_assoc, retainedSince_insert hle hbefore' hold,
          OrderedStore.write_append]
        refine h.tables.retain (e := ⟨u.key, prev, u.blockNum⟩) ?_
        refine histKey_ne_current hlog hu.key hu.blockNum hbefore' fun w hw hwkey => ?_
        rcases List.mem_append.mp hw with hw | hw
        · exact hbefore w hw
        · exact absurd (hwkey ▸ List.mem_map_of_mem hw) hseen

/-- All the writes of a block. -/
theorem stage_ok (hdb : Tables db (latest log) (retainedSince log oldest) marks)
    (hlog : LogOk (log ++ us)) (hbefore : ∀ w ∈ log, w.blockNum < n)
    (hus : ∀ w ∈ us, w.blockNum = n) (hold : oldest ≤ n) :
    ∃ staged, us.foldlM (stageUpdate db n) {} = .ok staged ∧
      StageOk db log us oldest marks staged := by
  induction us using List.reverseRecOn with
  | nil =>
      refine ⟨{}, rfl, ?_, fun key => rfl⟩
      rw [List.append_nil]
      exact hdb
  | append_singleton us u ih =>
      rw [← List.append_assoc] at hlog
      have hlog' : LogOk (log ++ us) :=
        { ordered := (List.pairwise_append.mp hlog.ordered).1
          fits := fun w hw => hlog.fits w (List.mem_append_left _ hw)
          length := lt_of_le_of_lt (by simp) hlog.length }
      have hmem : u ∈ us ++ [u] := List.mem_append_right us (List.mem_singleton_self u)
      have hus' : ∀ w ∈ us, w.blockNum = n := fun w hw => hus w (List.mem_append_left _ hw)
      obtain ⟨staged, hstaged, hok⟩ := ih hlog' hus'
      obtain ⟨staged', hstep, hok'⟩ := hok.step hdb hlog' hbefore hus'
        (hlog.fits u (List.mem_append_right _ (List.mem_singleton_self u))) (hus u hmem) hold
      refine ⟨staged', ?_, hok'⟩
      rw [List.foldlM_append, hstaged, bind_ok, List.foldlM_cons, hstep, bind_ok]
      rfl

end Stage

/-! ## Pruning -/

/-- The marks of a store: the checkpoint, and the oldest retained block once there is one. -/
def marksOf (head : Option Nat) (oldest : Nat) : Bytes → Option Bytes := fun k =>
  if k = metaBlockKey then head.map u64be
  else if k = metaOldestKey then (if oldest = 0 then none else some (u64be oldest))
  else none

theorem marksOf_block (head : Option Nat) (oldest n : Nat) :
    Function.update (marksOf head oldest) metaBlockKey (some (u64be n)) =
      marksOf (some n) oldest := by
  funext k
  by_cases hk : k = metaBlockKey
  · rw [hk, Function.update_self]
    rfl
  · rw [Function.update_of_ne hk, marksOf, marksOf, if_neg hk, if_neg hk]

theorem marksOf_oldest (head : Option Nat) (oldest : Nat) {n : Nat} (hn : 0 < n) :
    Function.update (marksOf head oldest) metaOldestKey (some (u64be n)) = marksOf head n := by
  funext k
  by_cases hk : k = metaOldestKey
  · rw [hk, Function.update_self, marksOf, if_neg (by decide), if_pos rfl, if_neg hn.ne']
  · rw [Function.update_of_ne hk, marksOf, marksOf, if_neg hk, if_neg hk]

theorem lowestPinned_le {openReaders : List (Nat × Nat)} {r : Nat × Nat} (hr : r ∈ openReaders) :
    lowestPinned openReaders ≤ r.1 := by
  have hfold : ∀ (rs : List (Nat × Nat)) (lowest : Nat),
      rs.foldl (fun lowest r => if r.1 < lowest then r.1 else lowest) lowest ≤ lowest := by
    intro rs
    induction rs with
    | nil => exact fun lowest => Nat.le_refl lowest
    | cons r rs ih =>
        intro lowest
        refine (ih _).trans ?_
        dsimp only
        split
        next hlt => exact hlt.le
        next => exact Nat.le_refl lowest
  unfold lowestPinned
  generalize 2 ^ 64 - 1 = lowest
  induction openReaders generalizing lowest with
  | nil => cases hr
  | cons r' rs ih =>
      rcases List.mem_cons.mp hr with rfl | hr
      · refine (hfold rs _).trans ?_
        dsimp only
        split
        next => exact Nat.le_refl _
        next hge => exact not_lt.mp hge
      · exact ih hr _

namespace PebbleKVS

theorem cutoff_le (p : PebbleKVS) (n : Nat) : p.cutoff n ≤ n - p.historySize - 1 := by
  unfold cutoff
  dsimp only
  split <;> omega

theorem cutoff_le_pin (p : PebbleKVS) (n : Nat) {r : Nat × Nat} (hr : r ∈ p.openReaders) :
    p.cutoff n ≤ r.1 := by
  have := lowestPinned_le hr
  unfold cutoff
  dsimp only
  split <;> omega

/-- The oldest retained block after a commit. -/
def oldestAfter (p : PebbleKVS) (n : Nat) : Nat :=
  if n < p.historySize + 1 then p.oldestRetained else max p.oldestRetained (p.cutoff n + 1)

/-- What pruning does to the tables a block has been written to. -/
theorem pruneLocked_ok {p : PebbleKVS} {log us : List KeyValueVersion} {n : Nat} {head : Option Nat}
    {marks : Bytes → Option Bytes}
    (hdb : Tables p.db (latest log) (retainedSince log p.oldestRetained) marks) (hlog : LogOk log)
    (hlog' : LogOk (log ++ us)) (hus : ∀ w ∈ us, w.blockNum = n) {db : Database}
    (hstaged : Tables db (latest (log ++ us)) (retainedSince (log ++ us) p.oldestRetained)
      (marksOf head p.oldestRetained)) :
    ∃ deletes oldest, p.pruneLocked n = .ok (deletes, oldest) ∧
      (if 0 < oldest then oldest else p.oldestRetained) = p.oldestAfter n ∧
      Tables (db.write deletes) (latest (log ++ us)) (retainedSince (log ++ us) (p.oldestAfter n))
        (marksOf head (p.oldestAfter n)) := by
  unfold pruneLocked oldestAfter
  by_cases hsmall : n < p.historySize + 1
  · refine ⟨[], 0, by rw [if_pos hsmall], by rw [if_pos hsmall]; rfl, ?_⟩
    rw [if_pos hsmall]
    exact hstaged
  · have hcut : p.cutoff n < n := by
      have := p.cutoff_le n
      omega
    obtain ⟨ks, hks, hmem⟩ := hdb.pruneIndex_newIterator (hlog.retention _) (p.cutoff n)
    -- what goes was superseded before this block
    have hmem' : ∀ k, k ∈ ks ↔ ∃ e ∈ retainedSince (log ++ us) p.oldestRetained,
        e.block ≤ p.cutoff n ∧ (k = e.histKey ∨ k = e.idxKey) := by
      intro k
      rw [hmem]
      refine exists_congr fun e => ?_
      constructor
      · rintro ⟨⟨hsup, hold⟩, hle, hk⟩
        exact ⟨⟨(superseded_append_lt hus (hle.trans_lt hcut)).mpr hsup, hold⟩, hle, hk⟩
      · rintro ⟨⟨hsup, hold⟩, hle, hk⟩
        exact ⟨⟨(superseded_append_lt hus (hle.trans_lt hcut)).mp hsup, hold⟩, hle, hk⟩
    have hpruned := hstaged.prune (hlog'.retention _) hmem'
    have hset : { e ∈ retainedSince (log ++ us) p.oldestRetained | p.cutoff n < e.block } =
        retainedSince (log ++ us) (max p.oldestRetained (p.cutoff n + 1)) := by
      ext e
      constructor
      · rintro ⟨⟨hsup, hold⟩, hlater⟩
        exact ⟨hsup, max_le hold hlater⟩
      · rintro ⟨hsup, hmax⟩
        exact ⟨⟨hsup, (le_max_left _ _).trans hmax⟩, (le_max_right _ _).trans hmax⟩
    rw [hset] at hpruned
    simp only [if_neg hsmall, hks, bind_ok]
    by_cases hold : p.cutoff n + 1 ≤ p.oldestRetained
    · rw [max_eq_left hold] at hpruned ⊢
      exact ⟨ks.map .delete, 0, if_pos hold, rfl, hpruned⟩
    · rw [max_eq_right (not_le.mp hold).le] at hpruned ⊢
      refine ⟨_, _, if_neg hold, if_pos (Nat.succ_pos _), ?_⟩
      rw [OrderedStore.write_append, ← marksOf_oldest head p.oldestRetained (Nat.succ_pos _)]
      exact hpruned.put_meta rfl _

end PebbleKVS

/-! ## The store -/

/-- A database that holds the reference's log, with the history since `oldest`. -/
structure Stored (db : Database) (ref : Reference) (oldest : Nat) : Prop where
  log : LogOk ref.log
  tables : Tables db (latest ref.log) (retainedSince ref.log oldest) (marksOf ref.head oldest)
  upTo : ∀ u ∈ ref.log, ∃ head, ref.head = some head ∧ u.blockNum ≤ head
  head : ref.head.getD 0 < 2 ^ 64
  oldest : oldest ≤ ref.head.getD 0

/-- A running store: the memory agrees with the database. -/
structure PebbleKVS.Inv (p : PebbleKVS) (ref : Reference) : Prop where
  stored : Stored p.db ref p.oldestRetained
  current : p.currentBlock = ref.head.getD 0
  checkpoint : p.hasCheckpoint = ref.head.isSome

/-- An empty database holds an empty log. -/
theorem Stored.empty : Stored .empty {} 0 := by
  have hnone : ∀ e, e ∉ retainedSince [] 0 := fun e he => nomatch he.1.1
  refine
    { log := ⟨.nil, fun _ hu => (nomatch hu), Nat.two_pow_pos 64⟩
      tables := ⟨fun key _ => rfl, fun {k raw} _ => ?_, fun {k raw} _ => ?_, fun {k} _ => ?_⟩
      upTo := fun _ hu => nomatch hu
      head := Nat.two_pow_pos 64
      oldest := Nat.le_refl 0 }
  · exact ⟨(nomatch ·), fun ⟨e, he, _⟩ => absurd he (hnone e)⟩
  · exact ⟨(nomatch ·), fun ⟨e, he, _⟩ => absurd he (hnone e)⟩
  · simp [marksOf]

/-- A block that fits after a log. -/
structure BlockFits (log : List KeyValueVersion) (b : Block) : Prop where
  number : b.number < 2 ^ 64
  updates : ∀ u ∈ blockUpdates b, UpdateFits u
  length : (log ++ blockUpdates b).length < 2 ^ 64

theorem blockNum_blockUpdates {b : Block} {u : KeyValueVersion} (hu : u ∈ blockUpdates b) :
    u.blockNum = b.number := by
  obtain ⟨tx, -, hu⟩ := List.mem_flatMap.mp hu
  rw [collectWrites] at hu
  split at hu
  next =>
    obtain ⟨nsrws, -, hu⟩ := List.mem_flatMap.mp hu
    obtain ⟨w, -, rfl⟩ := List.mem_map.mp hu
    rfl
  next => cases hu

namespace PebbleKVS

variable {p : PebbleKVS} {ref : Reference} {b : Block}

/-- A block past the head is applied. -/
theorem Inv.applyBlock (h : p.Inv ref) (hb : BlockFits ref.log b)
    (hpast : ∀ head, ref.head = some head → head < b.number) :
    ∃ p', p.applyBlock b.number (blockUpdates b) = .ok p' ∧
      p'.Inv ⟨some b.number, ref.log ++ blockUpdates b⟩ ∧ p'.openReaders = p.openReaders ∧
      p'.oldestRetained = p.oldestAfter b.number := by
  have hstored := h.stored
  have hbefore : ∀ w ∈ ref.log, w.blockNum < b.number := by
    intro w hw
    obtain ⟨head, hhead, hle⟩ := hstored.upTo w hw
    exact hle.trans_lt (hpast head hhead)
  have hus : ∀ w ∈ blockUpdates b, w.blockNum = b.number := fun w => blockNum_blockUpdates
  have hlog : LogOk (ref.log ++ blockUpdates b) :=
    { ordered := by
        refine List.pairwise_append.mpr ⟨hstored.log.ordered, ?_, fun w hw u hu => ?_⟩
        · exact List.pairwise_of_forall_mem_list fun u hu w hw => by rw [hus u hu, hus w hw]
        · rw [hus u hu]
          exact (hbefore w hw).le
      fits := by
        intro u hu
        rcases List.mem_append.mp hu with hu | hu
        · exact hstored.log.fits u hu
        · exact hb.updates u hu
      length := hb.length }
  have hold : p.oldestRetained ≤ b.number := by
    refine hstored.oldest.trans ?_
    cases hhead : ref.head with
    | none => exact Nat.zero_le _
    | some head => exact (hpast head hhead).le
  obtain ⟨staged, hstage, hok⟩ := stage_ok hstored.tables hlog hbefore hus hold
  obtain ⟨deletes, oldest, hprune, hnew, htables⟩ :=
    pruneLocked_ok hstored.tables hstored.log hlog hus hok.tables
  unfold PebbleKVS.applyBlock
  rw [hstage, bind_ok, hprune, bind_ok]
  refine ⟨_, rfl, ⟨⟨hlog, ?_, ?_, hb.number, ?_⟩, rfl, rfl⟩, rfl, hnew⟩
  · change Tables _ _ (retainedSince _ (if 0 < oldest then oldest else p.oldestRetained))
      (marksOf _ (if 0 < oldest then oldest else p.oldestRetained))
    rw [hnew, OrderedStore.write_append, OrderedStore.write_append, ← marksOf_block ref.head]
    exact htables.put_meta rfl _
  · intro u hu
    refine ⟨b.number, rfl, ?_⟩
    rcases List.mem_append.mp hu with hu | hu
    · exact (hbefore u hu).le
    · exact (hus u hu).le
  · change (if 0 < oldest then oldest else p.oldestRetained) ≤ b.number
    rw [hnew, oldestAfter]
    split
    next => exact hold
    next hbig =>
      have := p.cutoff_le b.number
      exact max_le hold (by omega)

/-- A block that is not past the head changes nothing, and the next one is applied. -/
theorem Inv.handle (h : p.Inv ref) (hb : BlockFits ref.log b) :
    (ref.handle b = ref ∧ ∀ p', p.handle b = .ok p' → p' = p) ∨
      ∃ p', p.handle b = .ok p' ∧ p'.Inv (ref.handle b) ∧ p'.openReaders = p.openReaders ∧
        p'.oldestRetained = p.oldestAfter b.number ∧
        (∀ head, ref.head = some head → head < b.number) ∧
        ref.handle b = ⟨some b.number, ref.log ++ blockUpdates b⟩ := by
  by_cases hpast : ∀ head, ref.head = some head → head < b.number
  · have hnext : ref.handle b = ⟨some b.number, ref.log ++ blockUpdates b⟩ := by
      unfold Reference.handle
      split
      next head hhead => rw [if_neg (not_le.mpr (hpast head hhead))]
      next => rfl
    have hcommit : p.handle b = p.applyBlock b.number (blockUpdates b) := by
      unfold PebbleKVS.handle commitBlock
      rw [h.checkpoint, h.current]
      refine if_neg ?_
      cases hhead : ref.head with
      | none => simp
      | some head => simpa using hpast head hhead
    obtain ⟨p', hp', hinv, hreaders, hold⟩ := h.applyBlock hb hpast
    exact .inr ⟨p', hcommit.trans hp', hnext ▸ hinv, hreaders, hold, hpast, hnext⟩
  · obtain ⟨head, hhead, hle⟩ : ∃ head, ref.head = some head ∧ b.number ≤ head := by
      simpa using hpast
    refine .inl ⟨?_, fun p' hp' => ?_⟩
    · simp only [Reference.handle, hhead, if_pos hle]
    · unfold PebbleKVS.handle commitBlock at hp'
      rw [h.checkpoint, h.current, hhead, Option.isSome_some, Option.getD_some,
        if_pos (by simpa using hle)] at hp'
      split at hp'
      next => exact (Except.ok.inj hp').symm
      next =>
        cases hv : p.verifyTipReplay (blockUpdates b) with
        | error err =>
            rw [hv] at hp'
            cases hp'
        | ok _ =>
            rw [hv] at hp'
            exact (Except.ok.inj hp').symm

end PebbleKVS

theorem readMeta_of_some {db : Database} {key : Bytes} {n : Nat} (hn : n < 2 ^ 64)
    (h : db.get key = some (u64be n)) : readMeta db key = .ok (n, true) := by
  rw [readMeta, h]
  simp [decode_u64be hn]

/-- The oldest retained block is kept in the database. -/
theorem Stored.readMeta_oldest {db : Database} {ref : Reference} {oldest : Nat}
    (h : Stored db ref oldest) : ∃ found, readMeta db metaOldestKey = .ok (oldest, found) := by
  have hget := h.tables.marked (k := metaOldestKey) rfl
  rw [marksOf, if_neg (by decide), if_pos rfl] at hget
  by_cases hzero : oldest = 0
  · rw [if_pos hzero] at hget
    exact ⟨false, by rw [readMeta, hget, hzero]⟩
  · rw [if_neg hzero] at hget
    exact ⟨true, readMeta_of_some (h.oldest.trans_lt h.head) hget⟩

/-- A database is opened again with what it holds. -/
theorem Stored.open {db : Database} {ref : Reference} {oldest : Nat} (h : Stored db ref oldest)
    (historySize : Int) :
    ∃ p, PebbleKVS.new db historySize = .ok p ∧ p.Inv ref ∧ p.openReaders = [] := by
  have hblock : readMeta db metaBlockKey = .ok (ref.head.getD 0, ref.head.isSome) := by
    have hget := h.tables.marked (k := metaBlockKey) rfl
    cases hhead : ref.head with
    | none =>
        rw [hhead] at hget
        rw [readMeta, hget]
        rfl
    | some head =>
        rw [hhead] at hget
        exact readMeta_of_some (by simpa [hhead] using h.head) hget
  obtain ⟨found, holdest⟩ := h.readMeta_oldest
  unfold PebbleKVS.new
  rw [hblock, bind_ok, holdest]
  exact ⟨_, rfl, ⟨h, rfl, rfl⟩, rfl⟩

end Storage
