import FabricXEvm.Storage.Replay
import FabricXEvm.Storage.Rewind

/-!
# Read versions after reverts

A peer validates a read against the version it holds for the key, and its ledger is never
rewound.  `RevertToBlock` keeps the version info of the current records, so each record has
the block, the transaction and the count of the key's last write on the ledger, whatever was
reverted (`Runs.stamp`).

The delete flag of a record comes from the target of the revert, and a `StateDB` leaves out
the version of a deleted key.  Which blocks the tip stands for follows from the numbers of the
blocks and of the targets alone (`Branches`), and a record is a tombstone exactly if the key
is gone from these blocks (`tracked`).  So a read has the peer's version exactly if the key is
gone from the blocks that no revert took back just when it is gone from the ledger
(`records_iff`).
-/

namespace Storage

open Blocks Execution Execution.StateDB

/-- The writes on the peer's ledger. -/
def ledger (applied : List Block) : List KeyValueVersion := applied.flatMap blockUpdates

/-- The version the peer holds for a key: none if its last write was a delete. -/
def peerVersion (monotonicVersions : Bool) (log : List KeyValueVersion) (key : Bytes) :
    Option Version :=
  match (writesOf log key).getLast? with
  | none => none
  | some w =>
      if w.isDelete then none
      else if monotonicVersions then some { blockNum := (writesOf log key).length - 1 }
      else some { blockNum := w.blockNum, txNum := w.txNum }

/-- There is no record, or it is a tombstone. -/
def gone (r : Option ValueVersion) : Bool := r.all (·.isDelete)

/-- The version info of a record. -/
def ValueVersion.info (r : ValueVersion) : Version × Nat := (r.stamp, r.version)

/-- The peer's version is that of the latest record. -/
theorem peerVersion_eq (monotonicVersions : Bool) (log : List KeyValueVersion) (key : Bytes) :
    peerVersion monotonicVersions log key = (latest log key).bind (·.seen monotonicVersions) := by
  unfold peerVersion latest lastOf
  cases (writesOf log key).getLast? with
  | none => rfl
  | some w => rfl

/-- Records with the same version info are read with the same version exactly if both are
there or both are gone. -/
theorem seen_eq_iff {r r' : Option ValueVersion}
    (h : r.map ValueVersion.info = r'.map ValueVersion.info) (monotonicVersions : Bool) :
    r.bind (·.seen monotonicVersions) = r'.bind (·.seen monotonicVersions) ↔ gone r = gone r' := by
  cases r with
  | none =>
      cases r' with
      | none => exact iff_of_true rfl rfl
      | some r' => cases h
  | some r =>
      cases r' with
      | none => cases h
      | some r' =>
          obtain ⟨hstamp, hversion⟩ : r.stamp = r'.stamp ∧ r.version = r'.version :=
            Prod.mk.inj (Option.some.inj h)
          change r.seen monotonicVersions = r'.seen monotonicVersions ↔ r.isDelete = r'.isDelete
          unfold ValueVersion.seen
          rw [hstamp, hversion]
          cases r.isDelete with
          | false =>
              cases r'.isDelete with
              | false => exact iff_of_true rfl rfl
              | true => cases monotonicVersions <;> exact iff_of_false nofun nofun
          | true =>
              cases r'.isDelete with
              | false => cases monotonicVersions <;> exact iff_of_false nofun nofun
              | true => exact iff_of_true rfl rfl

/-! ## Version info along a run -/

theorem nextVersion_eq_info (data : Data) (key : Bytes) :
    nextVersion data key = (((data key).map ValueVersion.info).map (·.2 + 1)).getD 0 := by
  unfold nextVersion
  cases data key with
  | none => rfl
  | some r => rfl

/-- Every record has the version info of the last write of the log. -/
def Stamped (data : Data) (log : List KeyValueVersion) : Prop :=
  ∀ key, (data key).map ValueVersion.info = (latest log key).map ValueVersion.info

theorem Stamped.put {data : Data} {log : List KeyValueVersion} (h : Stamped data log)
    (u : KeyValueVersion) : Stamped (put data u) (log ++ [u]) := by
  intro key
  rw [latest_append]
  by_cases hkey : u.key = key
  · subst hkey
    rw [put_self, if_pos rfl, nextVersion_eq_info, h u.key, ← nextVersion_eq_info,
      nextVersion_latest]
  · rw [put_of_ne _ (Ne.symm hkey), if_neg hkey]
    exact h key

theorem Stamped.applyUpdates {data : Data} {log : List KeyValueVersion} (h : Stamped data log)
    (us : List KeyValueVersion) : Stamped (applyUpdates data us) (log ++ us) := by
  rw [applyUpdates_eq_foldl]
  induction us generalizing data log with
  | nil => rwa [List.append_nil]
  | cons u us ih =>
      rw [List.append_cons]
      exact ih (h.put u)

/-- A revert does not touch the version info. -/
theorem Stamped.merged {data : Data} {log : List KeyValueVersion} (h : Stamped data log)
    (target : Data) : Stamped (mergedData data target) log := by
  intro key
  rw [← h key]
  unfold mergedData
  rw [Option.map_map]
  cases data key with
  | none => rfl
  | some r => cases target key <;> rfl

namespace RevertibleLightKVS

variable {kvs : RevertibleLightKVS} {historySize : Nat} {applied : List Block}

/-- A revert that goes through leaves the tip, or merges some snapshot into it. -/
theorem current_revertToBlock {kvs' : RevertibleLightKVS} {b : Nat}
    (h : kvs.revertToBlock b = .ok kvs') :
    kvs' = kvs ∨ ∃ target : Snapshot,
      kvs'.current = { blockNumber := b, data := mergedData kvs.current.data target.data } := by
  unfold revertToBlock at h
  split at h
  next => exact .inl (Except.ok.inj h).symm
  next =>
    dsimp only at h
    split at h
    next => cases h
    next target i _ =>
      cases h
      exact .inr ⟨target, rfl⟩

/-- In every run the records have the version info of the ledger. -/
theorem Runs.stamp (h : Runs historySize applied kvs) :
    Stamped kvs.current.data (ledger applied) := by
  induction h with
  | new => exact fun _ => rfl
  | @applied applied kvs _ _ b hpast hok ih =>
      cases (replayGuard_next hpast).symm.trans hok
      rw [current_applyBlockSequential, ledger, List.flatMap_append, List.flatMap_singleton]
      exact ih.applyUpdates _
  | @skipped _ kvs _ b hpast ih =>
      cases hcase : kvs.handle b with
      | error err => exact ih
      | ok kvs' =>
          rw [replayGuard_skip hpast hcase]
          exact ih
  | @reverted _ kvs _ blockNumber ih =>
      cases hcase : kvs.revertToBlock blockNumber with
      | error err => exact ih
      | ok kvs' =>
          rcases current_revertToBlock hcase with rfl | ⟨target, hcurrent⟩
          · exact ih
          · change Stamped kvs'.current.data _
            rw [hcurrent]
            exact ih.merged target.data

/-! ## What the tip stands for -/

/-- The key was never written by the blocks, or last by a delete. -/
def goneFrom (blocks : List Block) (key : Bytes) : Bool :=
  (writesOf (ledger blocks) key).getLast?.all (·.isDelete)

theorem gone_latest (blocks : List Block) (key : Bytes) :
    gone (latest (ledger blocks) key) = goneFrom blocks key := by
  unfold gone goneFrom latest lastOf
  cases (writesOf (ledger blocks) key).getLast? with
  | none => rfl
  | some w => rfl

/-- A call of the store. -/
inductive Call where
  | handle (b : Block)
  | revertToBlock (blockNumber : Nat)

/-- The store after a call; failed ones change nothing. -/
def call (kvs : RevertibleLightKVS) : Call → RevertibleLightKVS
  | .handle b => kept kvs (kvs.handle b)
  | .revertToBlock blockNumber => kept kvs (kvs.revertToBlock blockNumber)

/-- The store after some calls. -/
def after (historySize : Nat) (calls : List Call) : RevertibleLightKVS :=
  calls.foldl call (.new historySize)

theorem after_concat (historySize : Nat) (calls : List Call) (c : Call) :
    after historySize (calls ++ [c]) = (after historySize calls).call c := by
  rw [after, List.foldl_append]
  rfl

theorem kept_handle_past {b : Block} (hpast : kvs.current.Past b) :
    kept kvs (kvs.handle b) = kvs.applyBlockSequential b.number (blockUpdates b) := by
  rw [handle, replayGuard_next hpast]
  rfl

theorem kept_handle_not_past {b : Block} (hpast : ¬ kvs.current.Past b) :
    kept kvs (kvs.handle b) = kvs := by
  cases hcase : kvs.handle b with
  | error err => rfl
  | ok kvs' => exact replayGuard_skip hpast hcase

/-- A snapshot, as the blocks that it stands for. -/
structure Branch where
  number : Nat := 0
  blocks : List Block := []
  placeholder : Bool := false

/-- The branch of the tip, those of the history, oldest first, and the blocks on the ledger. -/
structure Branches where
  tip : Branch := { placeholder := true }
  past : List Branch := []
  ledger : List Block := []

namespace Branches

/-- A block past the tip goes on top of it. -/
def handle (historySize : Nat) (v : Branches) (b : Block) : Branches :=
  if v.tip.placeholder = true ∨ v.tip.number < b.number then
    { tip := { number := b.number, blocks := v.tip.blocks ++ [b] }
      past := (v.past ++ [v.tip]).drop (v.past.length + 1 - historySize)
      ledger := v.ledger ++ [b] }
  else v

/-- The slot that a revert goes back to, by the numbers in the history. -/
def slot (v : Branches) (blockNumber : Nat) : Option Nat :=
  let found := scan (v.past.map fun e => { blockNumber := e.number, data := fun _ => none })
    blockNumber
  (Scan.target found (blockNumber < v.tip.number)).map (·.2)

/-- A revert goes back to the blocks of its target. -/
def revertToBlock (v : Branches) (blockNumber : Nat) : Branches :=
  if v.tip.number = blockNumber then v
  else
    match v.slot blockNumber with
    | none => v
    | some i =>
        match v.past[i]? with
        | none => v
        | some e =>
            { v with tip := { number := blockNumber, blocks := e.blocks }, past := v.past.take i }

def call (historySize : Nat) (v : Branches) : Call → Branches
  | .handle b => v.handle historySize b
  | .revertToBlock blockNumber => v.revertToBlock blockNumber

/-- The branches after some calls. -/
def after (historySize : Nat) (calls : List Call) : Branches :=
  calls.foldl (call historySize) {}

theorem after_concat (historySize : Nat) (calls : List Call) (c : Call) :
    after historySize (calls ++ [c]) = (after historySize calls).call historySize c := by
  rw [after, List.foldl_append]
  rfl

end Branches

/-- The snapshot has the number of the branch, and tombstones for what is gone from it. -/
structure Branch.Of (e : Branch) (s : Snapshot) : Prop where
  number : e.number = s.blockNumber
  placeholder : e.placeholder = s.placeholder
  gone : ∀ key, gone (s.data key) = goneFrom e.blocks key

/-- The branches are those of the store with these snapshots. -/
structure Branches.Of (v : Branches) (kvs : RevertibleLightKVS) (hs : List Snapshot) : Prop where
  tip : v.tip.Of kvs.current
  past : List.Forall₂ Branch.Of v.past hs

/-! ### Blocks -/

theorem gone_put (data : Data) (u : KeyValueVersion) (key : Bytes) :
    gone (put data u key) = if u.key = key then u.isDelete else gone (data key) := by
  by_cases hkey : u.key = key
  · subst hkey
    rw [put_self, if_pos rfl]
    rfl
  · rw [put_of_ne _ (Ne.symm hkey), if_neg hkey]

/-- The last write of a key decides on its record. -/
theorem gone_applyUpdates (data : Data) (us : List KeyValueVersion) (key : Bytes) :
    gone (applyUpdates data us key) =
      ((writesOf us key).getLast?.map (·.isDelete)).getD (gone (data key)) := by
  rw [applyUpdates_eq_foldl]
  induction us using List.reverseRecOn with
  | nil => rfl
  | append_singleton us u ih =>
      rw [List.foldl_append, List.foldl_cons, List.foldl_nil, gone_put, ih, writesOf, writesOf,
        List.filter_append]
      by_cases hkey : u.key = key
      · simp [hkey]
      · simp [hkey]

theorem goneFrom_concat (blocks : List Block) (b : Block) (key : Bytes) :
    goneFrom (blocks ++ [b]) key =
      ((writesOf (blockUpdates b) key).getLast?.map (·.isDelete)).getD (goneFrom blocks key) := by
  have hwrites : writesOf (ledger (blocks ++ [b])) key =
      writesOf (ledger blocks) key ++ writesOf (blockUpdates b) key := by
    rw [ledger, List.flatMap_append, List.flatMap_singleton, writesOf, List.filter_append]
    rfl
  unfold goneFrom
  rw [hwrites, List.getLast?_append]
  cases (writesOf (blockUpdates b) key).getLast? with
  | none => rfl
  | some w => rfl

/-- A block that is taken. -/
theorem Branches.Of.handle {v : Branches} {hs : List Snapshot} (h : v.Of kvs hs)
    (historySize : Nat) {b : Block} (hpast : kvs.current.Past b) :
    (v.handle historySize b).ledger = v.ledger ++ [b] ∧
      (v.handle historySize b).Of (kvs.applyBlockSequential b.number (blockUpdates b))
        (pushed historySize hs kvs.current) := by
  have hnew : v.tip.placeholder = true ∨ v.tip.number < b.number := by
    rw [h.tip.placeholder, h.tip.number]
    exact hpast
  unfold Branches.handle
  rw [if_pos hnew]
  refine ⟨rfl, ⟨?_, ?_⟩⟩
  · rw [current_applyBlockSequential]
    refine ⟨rfl, rfl, fun key => ?_⟩
    change gone (applyUpdates kvs.current.data (blockUpdates b) key) = _
    rw [gone_applyUpdates, goneFrom_concat, h.tip.gone]
  · rw [pushed, ← h.past.length_eq]
    exact List.forall₂_drop _ (List.rel_append h.past (.cons h.tip .nil))

/-- A block that is not past the tip. -/
theorem Branches.Of.handle_skip {v : Branches} {hs : List Snapshot} (h : v.Of kvs hs)
    (historySize : Nat) {b : Block} (hpast : ¬ kvs.current.Past b) :
    v.handle historySize b = v := by
  unfold Branches.handle
  rw [h.tip.placeholder, h.tip.number]
  exact if_neg hpast

/-! ### Reverts -/

/-- The numbers and the slots that a scan found. -/
def places (found : Scan) : Option (Nat × Nat) × Option (Nat × Nat) :=
  (found.exact.map fun x => (x.1.blockNumber, x.2), found.best.map fun x => (x.1.blockNumber, x.2))

theorem places_visit {acc acc' : Scan} (h : places acc = places acc') {s s' : Snapshot}
    (hs : s.blockNumber = s'.blockNumber) (n i : Nat) :
    places (Scan.visit n acc (some s, i)) = places (Scan.visit n acc' (some s', i)) := by
  obtain ⟨hexact, hbest⟩ := Prod.mk.inj h
  have hall : acc.best.all (·.1.blockNumber < s.blockNumber) =
      acc'.best.all (·.1.blockNumber < s'.blockNumber) := by
    have hnumbers : ∀ best : Option (Snapshot × Nat), best.all (·.1.blockNumber < s.blockNumber) =
        (best.map fun x => (x.1.blockNumber, x.2)).all (·.1 < s.blockNumber) := by
      intro best
      cases best <;> rfl
    rw [hnumbers, hbest, ← hnumbers, hs]
  unfold Scan.visit
  dsimp only
  rw [hall, hs]
  split
  next => simp [places, hs, hbest]
  next =>
    split
    next => simp [places, hs, hexact]
    next => exact h

/-- A scan looks at the numbers only. -/
theorem places_scan {hs hs' : List Snapshot}
    (h : hs.map Snapshot.blockNumber = hs'.map Snapshot.blockNumber) (n : Nat) :
    places (scan hs n) = places (scan hs' n) := by
  induction hs using List.reverseRecOn generalizing hs' with
  | nil =>
      obtain rfl : hs' = [] := by simpa using h.symm
      rfl
  | append_singleton hs s ih =>
      rcases List.eq_nil_or_concat hs' with rfl | ⟨hs', s', rfl⟩
      · simp at h
      · rw [List.concat_eq_append, List.map_append, List.map_append] at h
        obtain ⟨hfront, hlast⟩ := List.append_inj' h rfl
        have hlen : hs.length = hs'.length := by simpa using congrArg List.length hfront
        rw [List.concat_eq_append, scan_concat, scan_concat, hlen]
        exact places_visit (ih hfront) (List.singleton_inj.mp hlast) n _

/-- Where a target is follows from what the scan found where. -/
theorem slot_target (found : Scan) (before : Bool) :
    (Scan.target found before).map (·.2) =
      (if (places found).1.isNone && before then (places found).2 else (places found).1).map (·.2) := by
  unfold Scan.target places
  cases found.exact with
  | some x => rfl
  | none =>
      cases before with
      | false => rfl
      | true => cases found.best <;> rfl

/-- The slot is that of the snapshot which the store goes back to. -/
theorem Branches.Of.slot_eq {v : Branches} {hs : List Snapshot}
    (hholds : kvs.Holds historySize hs) (h : v.Of kvs hs) {n : Nat}
    (hne : kvs.current.blockNumber ≠ n) :
    v.slot n = (kvs.revertToBlock n).toOption.map RevertibleLightKVS.nextIndex := by
  have hnumbers : (v.past.map fun e => ({ blockNumber := e.number, data := fun _ => none } :
      Snapshot)).map Snapshot.blockNumber = hs.map Snapshot.blockNumber := by
    rw [List.map_map]
    exact List.forall₂_eq_eq_eq ▸ List.forall₂_map_left_iff.mpr
      (List.forall₂_map_right_iff.mpr (h.past.imp fun _ _ he => he.number))
  unfold Branches.slot
  rw [hholds.nextIndex_revert hne, slot_target, slot_target, places_scan hnumbers, h.tip.number]

/-- Under the records of the tip, the tombstones are those of the target. -/
theorem gone_mergedData {current target : Data} {key : Bytes}
    (h : (target key).isSome → (current key).isSome) :
    gone (mergedData current target key) = gone (target key) := by
  unfold mergedData
  cases htarget : target key with
  | none => cases current key <;> rfl
  | some targetValue =>
      obtain ⟨currentValue, hcurrent⟩ := Option.isSome_iff_exists.mp (h (htarget ▸ rfl))
      rw [hcurrent]
      rfl

/-- A revert. -/
theorem Branches.Of.revertToBlock {v : Branches} {hs : List Snapshot}
    (hholds : kvs.Holds historySize hs) (h : v.Of kvs hs) (n : Nat) :
    (v.revertToBlock n).ledger = v.ledger ∧ ∃ hs',
      (kept kvs (kvs.revertToBlock n)).Holds historySize hs' ∧
      (v.revertToBlock n).Of (kept kvs (kvs.revertToBlock n)) hs' := by
  unfold Branches.revertToBlock
  rw [h.tip.number]
  by_cases hne : kvs.current.blockNumber = n
  · rw [if_pos hne, RevertibleLightKVS.revertToBlock, if_pos hne]
    exact ⟨rfl, hs, hholds, h⟩
  · rw [if_neg hne, h.slot_eq hholds hne]
    cases hok : kvs.revertToBlock n with
    | error err => exact ⟨rfl, hs, hholds, h⟩
    | ok kvs' =>
        rcases hholds.revert hok with
          ⟨heq, _⟩ | ⟨front, s, rest, rfl, -, -, hle, hcurrent, hhistory, hnext⟩
        · exact absurd heq hne
        · have hfront := List.forall₂_take front.length h.past
          have hrest := List.forall₂_drop front.length h.past
          rw [List.take_left] at hfront
          rw [List.drop_left] at hrest
          obtain ⟨e, erest, he, -, hdrop⟩ := List.forall₂_cons_right_iff.mp hrest
          have hslot : v.past[front.length]? = some e := by
            rw [← List.head?_drop, hdrop]
            rfl
          dsimp only [Except.toOption, Option.map_some, kept]
          rw [hnext, hslot]
          refine ⟨rfl, front, hholds.cut hle hcurrent hhistory hnext, ⟨?_, hfront⟩⟩
          rw [hcurrent]
          refine ⟨rfl, rfl, fun key => ?_⟩
          rw [← he.gone key]
          exact gone_mergedData (hholds.keys s (by simp) key)

/-- The tip stands for the blocks of its branch, and the run has applied those of the ledger. -/
theorem tracked (hsize : historySize < 2 ^ 32) (calls : List Call) :
    Runs historySize (Branches.after historySize calls).ledger (after historySize calls) ∧
      ∃ hs, (after historySize calls).Holds historySize hs ∧
        (Branches.after historySize calls).Of (after historySize calls) hs := by
  induction calls using List.reverseRecOn with
  | nil => exact ⟨.new, [], .new historySize, ⟨rfl, rfl, fun _ => rfl⟩, .nil⟩
  | append_singleton calls c ih =>
      obtain ⟨hruns, hs, hholds, hof⟩ := ih
      rw [after_concat, Branches.after_concat]
      cases c with
      | handle b =>
          by_cases hpast : (after historySize calls).current.Past b
          · obtain ⟨hledger, hof'⟩ := hof.handle historySize hpast
            have htaken := kept_handle_past hpast
            refine ⟨?_, pushed historySize hs (after historySize calls).current, ?_, ?_⟩
            · rw [Branches.call, hledger, RevertibleLightKVS.call, htaken]
              exact hruns.next b hpast
            · rw [RevertibleLightKVS.call, htaken]
              exact hholds.handle hsize hpast
            · rw [RevertibleLightKVS.call, htaken]
              exact hof'
          · rw [Branches.call, hof.handle_skip historySize hpast, RevertibleLightKVS.call,
              kept_handle_not_past hpast]
            exact ⟨hruns, hs, hholds, hof⟩
      | revertToBlock n =>
          obtain ⟨hledger, hs', hholds', hof'⟩ := hof.revertToBlock hholds n
          exact ⟨by rw [Branches.call, hledger]; exact hruns.reverted n, hs', hholds', hof'⟩

/-! ## Reads -/

/-- Every read of the key through a `StateDB` has this version in the read set. -/
structure Records (env : Backing) (key : Bytes) (version : Option Version) : Prop where
  read : ∀ s : StateDB, ∃ value s', getStateFromStore key env s = .ok (.ok value, s') ∧
    ({ key, version } : KVRead) ∈ s'.result.reads
  kept : ∀ ops t, runOps env ops .new = .ok t → ∀ r ∈ t.result.reads, r.key = key →
    r.version = version

/-- On committed data, a key is read with the version of its record and no other. -/
theorem records_iff_seen {env : Backing} {snapshot : Snapshot}
    (hstore : env.store = Reader.get ⟨some snapshot⟩) (key : Bytes) (version : Option Version) :
    Records env key version ↔
      (snapshot.data (fullKey env.ns key)).bind (·.seen env.monotonicVersions) = version := by
  have hget : ∀ k, env.store env.ns k = .ok (record snapshot.data env.ns k) := by
    intro k
    rw [hstore]
    rfl
  rw [← readOf_record]
  constructor
  · intro h
    obtain ⟨value, s', hs', hmem⟩ := h.read .new
    cases (getStateFromStore_ok (hget key)).symm.trans hs'
    exact (congrArg KVRead.version (List.mem_singleton.mp hmem)).symm
  · rintro rfl
    refine ⟨fun s => ⟨_, _, getStateFromStore_ok (hget key), ?_⟩, fun ops t hrun r hr hkey => ?_⟩
    · change _ ∈ reads (s.journal ++ [_])
      rw [reads_append]
      refine List.mem_of_find?_eq_some ((ListMap.find?_upsert _ _ key).trans ?_)
      rw [if_pos (readOf_key _ _ _)]
      exact congrArg (fun k => some (KVRead.mk k _)) (readOf_key _ key _)
    · have hnew : EntriesOk env .new := fun _ h => nomatch h
      obtain ⟨_, record, hrecord, hr⟩ := hnew.runOps hrun _ (mem_of_mem_reads hr)
      subst hkey
      cases (hget r.key).symm.trans hrecord
      exact congrArg KVRead.version hr

/-- After any calls, a read through a `StateDB` on the tip has the version the peer holds, exactly
if the key is gone from the blocks of the tip's branch just when it is gone from the ledger. -/
theorem records_iff (hsize : historySize < 2 ^ 32) (calls : List Call) {r : Reader}
    (hr : (after historySize calls).newSnapshot none = .ok r) (env : Backing)
    (hstore : env.store = r.get) (key : Bytes) :
    let branches := Branches.after historySize calls
    Records env key
        (peerVersion env.monotonicVersions (ledger branches.ledger) (fullKey env.ns key)) ↔
      goneFrom branches.tip.blocks (fullKey env.ns key) =
        goneFrom branches.ledger (fullKey env.ns key) := by
  obtain ⟨hruns, hs, -, hof⟩ := tracked hsize calls
  cases hr
  dsimp only
  rw [records_iff_seen hstore, peerVersion_eq, seen_eq_iff (hruns.stamp _), gone_latest,
    hof.tip.gone]

/-- An empty block 1, and blocks 2 and 3 that write a key. -/
def writing : List Call :=
  [.handle { number := 1, transactions := [] }, .handle (touch 2), .handle (touch 3)]

/-- A backing on a reader. -/
def onReader (r : Reader) : Backing where
  keccak := fun _ => 0
  ns := ascii "evm"
  store := r.get
  monotonicVersions := true

/-- After a revert to block 2 the key is read with version 1, that of its second write on the
ledger. -/
theorem records_iff_written : ∃ r,
    (after 4 (writing ++ [.revertToBlock 2])).newSnapshot none = .ok r ∧
      Records (onReader r) (ascii "k") (some { blockNum := 1 }) := by
  have hsize : 4 < 2 ^ 32 := by decide
  exact ⟨_, rfl, (records_iff hsize (writing ++ [.revertToBlock 2]) rfl (onReader _) rfl
    (ascii "k")).mpr (by decide)⟩

/-- After a revert to block 1 the key has a tombstone.  A read of it has no version, and the
peer holds version 1. -/
theorem tombstone_of_written : ∃ r value s',
    (after 4 (writing ++ [.revertToBlock 1])).newSnapshot none = .ok r ∧
      getStateFromStore (ascii "k") (onReader r) .new = .ok (value, s') ∧
      s'.result.reads = [{ key := ascii "k", version := none }] ∧
      peerVersion true (ledger (Branches.after 4 (writing ++ [.revertToBlock 1])).ledger)
        (ascii "evm:k") = some { blockNum := 1 } :=
  ⟨_, _, _, rfl, rfl, rfl, rfl⟩

end RevertibleLightKVS

end Storage
