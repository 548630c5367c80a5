import FabricXEvm.Storage.History
import FabricXEvm.Storage.PebbleRuns
import FabricXEvm.Storage.RevertibleLightKVS

/-!
# The stores side by side

`LightKVS`, `RevertibleLightKVS` and `PebbleKVS` get the same blocks, and readers of the tip
are opened and closed on the three of them together.  The pebble store may also be closed
and opened again.

The blocks committed so far determine the tip of each store (`Parity.Inv`).  A reader keeps
the snapshot after the blocks that were committed when it was opened; in the pebble store it
keeps the number of the last of them, which is 0 if there was none.  So a reader opened
before the first block sees a block 0 there, and nowhere else (`Parity.tip_reads_iff`).
-/

namespace Storage

open Blocks

/-- The three stores.  Reader `i` of the in-memory stores belongs to snapshot `i` of the
pebble store. -/
structure Parity where
  light : LightKVS
  revertible : RevertibleLightKVS
  world : World := World.init
  readers : List (Reader × Reader) := []
  committed : List Block := []

/-- A store after a call that may have failed. -/
def kept {ε σ : Type} (old : σ) : Except ε σ → σ
  | .ok new => new
  | .error _ => old

namespace Parity

def init (historySize : Nat) (h : 0 < historySize % 2 ^ 32) (revertSize : Nat) : Parity where
  light := .new historySize h
  revertible := .new revertSize

/-- A block is new if it is past the ones committed. -/
def IsNew (committed : List Block) (b : Block) : Prop :=
  ∀ b' ∈ committed.getLast?, b'.number < b.number

instance (committed : List Block) (b : Block) : Decidable (IsNew committed b) :=
  inferInstanceAs (Decidable (∀ b' ∈ committed.getLast?, b'.number < b.number))

inductive Step : Parity → Parity → Prop where
  | handle {s : Parity} {p : PebbleKVS} (hstore : s.world.store = .running p) (b : Block)
      (hfits : BlockFits s.world.ref.log b) :
      Step s
        { s with
          light := kept s.light (s.light.handle b)
          revertible := kept s.revertible (s.revertible.handle b)
          world := { s.world with
            store := .running (match p.handle b with
              | .ok p' => p'
              | .error _ => p)
            ref := s.world.ref.handle b }
          committed := if IsNew s.committed b then s.committed ++ [b] else s.committed }
  | newSnapshot {s : Parity} {p p' : PebbleKVS} (hstore : s.world.store = .running p)
      {snap : PebbleSnapshot} {light revertible : Reader}
      (hnew : p.newSnapshot none = .ok (p', snap))
      (hlight : s.light.newSnapshot none = .ok light)
      (hrevertible : s.revertible.newSnapshot none = .ok revertible) :
      Step s
        { s with
          world := { s.world with
            store := .running p'
            snapshots := s.world.snapshots ++ [⟨snap, s.world.session, s.world.ref.head.isSome⟩] }
          readers := s.readers ++ [(light, revertible)] }
  | close {s : Parity} {p : PebbleKVS} (hstore : s.world.store = .running p) {i : Nat}
      {o : Opened} (hi : s.world.snapshots[i]? = some o) (hsession : o.session = s.world.session) :
      Step s
        { s with
          world := { s.world with
            store := .running (p.closeSnapshot o.snap).1
            snapshots := s.world.snapshots.set i { o with snap := (p.closeSnapshot o.snap).2 } }
          readers := s.readers.set i (⟨none⟩, ⟨none⟩) }
  | closeStore {s : Parity} {p : PebbleKVS} (hstore : s.world.store = .running p) :
      Step s { s with world := { s.world with store := .closed p.db } }
  | openStore {s : Parity} {db : Database} {p : PebbleKVS} (hstore : s.world.store = .closed db)
      (historySize : Int) (hsize : 1 ≤ historySize) (hnew : PebbleKVS.new db historySize = .ok p) :
      Step s
        { s with world := { s.world with store := .running p, session := s.world.session + 1 } }

/-- Any number of steps. -/
inductive Steps (s : Parity) : Parity → Prop where
  | refl : Steps s s
  | tail {s' s'' : Parity} (hrun : Steps s s') (hstep : Step s' s'') : Steps s s''

def Reachable (s : Parity) : Prop :=
  ∃ historySize h revertSize, (init historySize h revertSize).Steps s

/-! ## The invariant -/

/-- A reader of the three stores that was opened after the first `n` blocks. -/
structure OpenedAfter (committed : List Block) (o : Opened) (rs : Reader × Reader) (n : Nat) :
    Prop where
  le : n ≤ committed.length
  light : rs.1 = ⟨some (snapshotAfter (committed.take n))⟩
  revertible : rs.2 = ⟨some (snapshotAfter (committed.take n))⟩
  pebble : o.snap.lastBlock = (snapshotAfter (committed.take n)).blockNumber
  after : o.afterCommit = true ↔ 0 < n

/-- What the blocks committed so far determine. -/
structure Inv (s : Parity) : Prop where
  world : s.world.Inv
  increasing : Increasing s.committed
  log : s.world.ref.log = s.committed.flatMap blockUpdates
  head : s.world.ref.head = s.committed.getLast?.map (·.number)
  light : s.light.current = snapshotAfter s.committed
  revertible : s.revertible.current = snapshotAfter s.committed
  length : s.readers.length = s.world.snapshots.length
  readers : ∀ (i : Nat) (o : Opened) (rs : Reader × Reader), s.world.snapshots[i]? = some o →
    s.readers[i]? = some rs → o.snap.closed = false → ∃ n, OpenedAfter s.committed o rs n

theorem Inv.init (historySize : Nat) (h : 0 < historySize % 2 ^ 32) (revertSize : Nat) :
    (Parity.init historySize h revertSize).Inv where
  world := World.Inv.init
  increasing := List.Pairwise.nil
  log := rfl
  head := rfl
  light := rfl
  revertible := rfl
  length := rfl
  readers _ _ _ hi := nomatch hi

section Committed

variable {committed : List Block} {b : Block}

/-- New blocks are the ones past the tip of the stores. -/
theorem past_snapshotAfter : (snapshotAfter committed).Past b ↔ IsNew committed b := by
  rw [Snapshot.Past, IsNew, snapshotAfter]
  cases committed.getLast? with
  | none => simp
  | some last => simp

theorem IsNew.increasing (hnew : IsNew committed b) (h : Increasing committed) :
    Increasing (committed ++ [b]) := by
  refine List.pairwise_append.mpr ⟨h, List.pairwise_singleton _ _, fun b' hb' b'' hb'' => ?_⟩
  rw [List.mem_singleton.mp hb'']
  rcases List.eq_nil_or_concat' committed with rfl | ⟨init, last, rfl⟩
  · cases hb'
  · have hlast : last.number < b.number := hnew last (by simp)
    rcases List.mem_append.mp hb' with hb' | hb'
    · exact ((List.pairwise_append.mp h).2.2 b' hb' last (List.mem_singleton_self last)).trans hlast
    · rwa [List.mem_singleton.mp hb']

/-- The snapshot after one more block. -/
theorem snapshotAfter_applyUpdates (committed : List Block) (b : Block) :
    Snapshot.mk b.number (applyUpdates (snapshotAfter committed).data (blockUpdates b)) false =
      snapshotAfter (committed ++ [b]) := by
  rw [snapshotAfter_concat, snapshotAfter_data, applyUpdates_eq_foldl, foldWrites_concat]

theorem blockNumber_snapshotAfter (committed : List Block) :
    (snapshotAfter committed).blockNumber = (committed.getLast?.map (·.number)).getD 0 := by
  rw [snapshotAfter]
  cases committed.getLast? with
  | none => rfl
  | some last => rfl

theorem closed_closeSnapshot (p : PebbleKVS) (snap : PebbleSnapshot) :
    (p.closeSnapshot snap).2.closed = true := by
  unfold PebbleKVS.closeSnapshot
  split
  next hclosed => exact hclosed
  next => rfl

/-- The blocks after a delivery. -/
theorem head_handle {ref : Reference} (hhead : ref.head = committed.getLast?.map (·.number)) :
    ref.handle b = if IsNew committed b then ⟨some b.number, ref.log ++ blockUpdates b⟩ else ref := by
  rw [Reference.handle, hhead]
  cases hlast : committed.getLast? with
  | none =>
      refine (if_pos fun last hb' => ?_).symm
      rw [hlast] at hb'
      cases hb'
  | some last =>
      have hiff : IsNew committed b ↔ ¬ b.number ≤ last.number := by
        rw [IsNew, hlast]
        simp
      by_cases hle : b.number ≤ last.number
      · rw [if_neg (hiff.not_left.mpr hle)]
        exact if_pos hle
      · rw [if_pos (hiff.mpr hle)]
        exact if_neg hle

/-- A store that keeps its tip from such a guard has the tip after the delivery. -/
theorem kept_replayGuard {σ : Type} {kvs next : σ} (current : σ → Snapshot)
    (h : current kvs = snapshotAfter committed)
    (hnext : current next = snapshotAfter (committed ++ [b])) :
    current (kept kvs (replayGuard (current kvs) b kvs next)) =
      snapshotAfter (if IsNew committed b then committed ++ [b] else committed) := by
  by_cases hnew : IsNew committed b
  · rw [if_pos hnew, replayGuard_next (by rwa [h, past_snapshotAfter])]
    exact hnext
  · rw [if_neg hnew, ← h]
    cases hguard : replayGuard (current kvs) b kvs next with
    | error err => rfl
    | ok kvs' =>
        rw [replayGuard_skip (by rwa [h, past_snapshotAfter]) hguard]
        rfl

end Committed

/-- Later blocks do not change what a reader was opened on. -/
theorem OpenedAfter.append {committed : List Block} {o : Opened} {rs : Reader × Reader} {n : Nat}
    (h : OpenedAfter committed o rs n) (more : List Block) :
    OpenedAfter (committed ++ more) o rs n := by
  have htake : (committed ++ more).take n = committed.take n :=
    List.take_append_of_le_length h.le
  refine ⟨?_, ?_, ?_, ?_, h.after⟩
  · rw [List.length_append]
    exact h.le.trans (Nat.le_add_right _ _)
  · rw [htake]
    exact h.light
  · rw [htake]
    exact h.revertible
  · rw [htake]
    exact h.pebble

variable {s s' : Parity}

theorem Inv.handle (h : s.Inv) {p : PebbleKVS} (hstore : s.world.store = .running p) {b : Block}
    (hfits : BlockFits s.world.ref.log b) :
    Inv { s with
      light := kept s.light (s.light.handle b)
      revertible := kept s.revertible (s.revertible.handle b)
      world := { s.world with
        store := .running (match p.handle b with
          | .ok p' => p'
          | .error _ => p)
        ref := s.world.ref.handle b }
      committed := if IsNew s.committed b then s.committed ++ [b] else s.committed } where
  world := h.world.handle hstore hfits
  increasing := by
    dsimp only
    split
    next hnew => exact hnew.increasing h.increasing
    next => exact h.increasing
  log := by
    dsimp only
    rw [head_handle h.head]
    split
    next => rw [List.flatMap_append, List.flatMap_singleton, h.log]
    next => exact h.log
  head := by
    dsimp only
    rw [head_handle h.head]
    split
    next => simp
    next => exact h.head
  light := by
    refine kept_replayGuard LightKVS.current h.light ?_
    rw [← snapshotAfter_applyUpdates, ← h.light]
    rfl
  revertible := by
    refine kept_replayGuard RevertibleLightKVS.current h.revertible ?_
    rw [← snapshotAfter_applyUpdates, ← h.revertible]
    exact s.revertible.current_applyBlockSequential _ _
  length := h.length
  readers i o rs hi hr hopen := by
    obtain ⟨n, hn⟩ := h.readers i o rs hi hr hopen
    dsimp only
    split
    next => exact ⟨n, hn.append [b]⟩
    next => exact ⟨n, hn⟩

theorem Inv.newSnapshot (h : s.Inv) {p p' : PebbleKVS} (hstore : s.world.store = .running p)
    {snap : PebbleSnapshot} (hnew : p.newSnapshot none = .ok (p', snap)) :
    Inv { s with
      world := { s.world with
        store := .running p'
        snapshots := s.world.snapshots ++ [⟨snap, s.world.session, s.world.ref.head.isSome⟩] }
      readers := s.readers ++ [(⟨some s.light.current⟩, ⟨some s.revertible.current⟩)] } where
  world := h.world.newSnapshot hstore hnew
  increasing := h.increasing
  log := h.log
  head := h.head
  light := h.light
  revertible := h.revertible
  length := by simp [h.length]
  readers i o rs hi hr hopen := by
    dsimp only at hi hr ⊢
    rcases Nat.lt_or_ge i s.world.snapshots.length with hlt | hge
    · rw [List.getElem?_append_left hlt] at hi
      rw [List.getElem?_append_left (h.length ▸ hlt)] at hr
      exact h.readers i o rs hi hr hopen
    · -- the new reader is of all the blocks
      rw [List.getElem?_append_right hge] at hi
      rw [List.getElem?_append_right (h.length ▸ hge), h.length] at hr
      have hlast : i - s.world.snapshots.length = 0 := by
        simpa using (List.getElem?_eq_some_iff.mp hi).1
      rw [hlast] at hi hr
      cases hi
      cases hr
      obtain ⟨q, hq⟩ := (h.world.running p hstore).newSnapshot_none
      cases hnew.symm.trans hq
      refine ⟨s.committed.length, le_rfl, ?_, ?_, ?_, ?_⟩
      · rw [List.take_length, h.light]
      · rw [List.take_length, h.revertible]
      · rw [List.take_length, blockNumber_snapshotAfter, h.head]
      · rw [h.head, Option.isSome_map, List.getLast?_isSome, List.length_pos_iff]

theorem Inv.close (h : s.Inv) {p : PebbleKVS} (hstore : s.world.store = .running p) {i : Nat}
    {o : Opened} (hi : s.world.snapshots[i]? = some o) (hsession : o.session = s.world.session) :
    Inv { s with
      world := { s.world with
        store := .running (p.closeSnapshot o.snap).1
        snapshots := s.world.snapshots.set i { o with snap := (p.closeSnapshot o.snap).2 } }
      readers := s.readers.set i (⟨none⟩, ⟨none⟩) } where
  world := h.world.close hstore hi hsession
  increasing := h.increasing
  log := h.log
  head := h.head
  light := h.light
  revertible := h.revertible
  length := by simp [h.length]
  readers j o' rs hj hr hopen := by
    dsimp only at hj hr ⊢
    by_cases hij : i = j
    · subst hij
      obtain ⟨hlt, -⟩ := List.getElem?_eq_some_iff.mp hi
      rw [List.getElem?_set_self hlt] at hj
      cases hj
      rw [closed_closeSnapshot] at hopen
      cases hopen
    · rw [List.getElem?_set_ne hij] at hj hr
      exact h.readers j o' rs hj hr hopen

theorem Inv.step (h : s.Inv) (hstep : Step s s') : s'.Inv := by
  cases hstep with
  | handle hstore b hfits => exact h.handle hstore hfits
  | newSnapshot hstore hnew hlight hrevertible =>
      cases hlight
      cases hrevertible
      exact h.newSnapshot hstore hnew
  | close hstore hi hsession => exact h.close hstore hi hsession
  | closeStore hstore =>
      exact { h with world := h.world.closeStore hstore }
  | openStore hstore historySize hsize hnew =>
      exact { h with world := h.world.openStore hstore hnew }

theorem Inv.steps (h : s.Inv) (hrun : s.Steps s') : s'.Inv := by
  induction hrun with
  | refl => exact h
  | tail _ hstep ih => exact ih.step hstep

theorem Reachable.inv (h : s.Reachable) : s.Inv := by
  obtain ⟨historySize, hsize, revertSize, hrun⟩ := h
  exact (Inv.init historySize hsize revertSize).steps hrun

/-- Blocks are only added. -/
theorem Steps.committed (hrun : s.Steps s') : ∃ more, s'.committed = s.committed ++ more := by
  induction hrun with
  | refl => exact ⟨[], (List.append_nil _).symm⟩
  | tail _ hstep ih =>
      obtain ⟨more, hmore⟩ := ih
      cases hstep with
      | handle hstore b hfits =>
          dsimp only
          split
          next => exact ⟨more ++ [b], by rw [hmore, List.append_assoc]⟩
          next => exact ⟨more, hmore⟩
      | newSnapshot | close | closeStore | openStore => exact ⟨more, hmore⟩

/-! ## Reads -/

/-- The record as of a height that separates two logs. -/
theorem recordAsOf_append {log us : List KeyValueVersion} {height : Nat}
    (hlog : ∀ u ∈ log, u.blockNum ≤ height) (hus : ∀ u ∈ us, height < u.blockNum) (key : Bytes) :
    recordAsOf (log ++ us) height key = latest log key := by
  rw [recordAsOf_eq, recordBefore_append hus,
    recordBefore_eq_latest fun u hu => Nat.lt_succ_of_le (hlog u hu)]

namespace OpenedAfter

variable {committed : List Block} {o : Opened} {rs : Reader × Reader} {n : Nat}

/-- The blocks that a reader was opened after. -/
theorem earlier (h : OpenedAfter committed o rs n) (hinc : Increasing committed) :
    ∀ u ∈ (committed.take n).flatMap blockUpdates, u.blockNum ≤ o.snap.lastBlock := by
  intro u hu
  obtain ⟨b, hb, hu⟩ := List.mem_flatMap.mp hu
  have htake : Increasing (committed.take n) := hinc.sublist (List.take_sublist n committed)
  rw [blockNum_blockUpdates hu, h.pebble]
  exact htake.le_snapshotAfter hb

/-- The blocks since then, if the reader does not take a block 0 for one of its own. -/
theorem later (h : OpenedAfter committed o rs n) (hinc : Increasing committed)
    (hgenesis : o.afterCommit = false → ∀ b ∈ committed, b.number = 0 → blockUpdates b = []) :
    ∀ u ∈ (committed.drop n).flatMap blockUpdates, o.snap.lastBlock < u.blockNum := by
  intro u hu
  obtain ⟨b, hb, hub⟩ := List.mem_flatMap.mp hu
  rw [blockNum_blockUpdates hub, h.pebble]
  by_cases hn : n = 0
  · subst hn
    have hafter : o.afterCommit = false := by
      rw [← Bool.not_eq_true, h.after]
      exact lt_irrefl 0
    refine Nat.pos_of_ne_zero fun hzero => ?_
    rw [hgenesis hafter b hb hzero] at hub
    cases hub
  · rw [← List.take_append_drop n committed] at hinc
    refine hinc.snapshotAfter_lt (fun hnil => ?_) hb
    rcases List.take_eq_nil_iff.mp hnil with hzero | hzero
    · exact hn hzero
    · have := h.le
      rw [hzero] at this
      exact hn (Nat.le_zero.mp this)

theorem lastBlock_le (h : OpenedAfter committed o rs n) (hinc : Increasing committed) :
    o.snap.lastBlock ≤ (snapshotAfter committed).blockNumber := by
  rw [h.pebble, blockNumber_snapshotAfter]
  cases hlast : (committed.take n).getLast? with
  | none => exact Nat.zero_le _
  | some last => exact hinc.le_snapshotAfter (List.mem_of_mem_take (List.mem_of_getLast? hlast))

end OpenedAfter

/-- The three readers give the same record for every key; the read from the pebble store
starts in `s` and ends in `s'`. -/
def TipReads (s s' : Parity) (o : Opened) (rs : Reader × Reader) : Prop :=
  ∀ ns key, (fullKey ns key).length < 2 ^ 32 → ∃ r, rs.1.get ns key = .ok r ∧
    rs.2.get ns key = .ok r ∧
    o.snap.getAcross s.world.store.db s'.world.store.db ns key = .ok r

/-- A reader in memory has the records of its blocks. -/
theorem get_snapshotAfter (blocks : List Block) (ns key : Bytes) :
    Reader.get ⟨some (snapshotAfter blocks)⟩ ns key =
      .ok ((latest (blocks.flatMap blockUpdates) (fullKey ns key)).map (·.under ns key)) := by
  rw [← foldWrites_eq_latest, ← snapshotAfter_data]
  rfl

/-- A live reader is read from the pebble store as of its height. -/
theorem Inv.getAcross {s₀ s : Parity} (h₀ : s₀.Inv) (h : s.Inv) {o : Opened}
    (ho : o ∈ s.world.snapshots) (hlive : o.Live s.world) {rs : Reader × Reader} {n : Nat}
    (hn : OpenedAfter s.committed o rs n) {more : List Block}
    (hmore : s.committed = s₀.committed ++ more)
    (hlater : ∀ u ∈ more.flatMap blockUpdates, o.snap.lastBlock < u.blockNum) {ns key : Bytes}
    (hkey : (fullKey ns key).length < 2 ^ 32) :
    o.snap.getAcross s₀.world.store.db s.world.store.db ns key =
      .ok ((recordAsOf s.world.ref.log o.snap.lastBlock (fullKey ns key)).map (·.under ns key)) := by
  have hheight : o.snap.lastBlock < 2 ^ 64 := by
    obtain ⟨oldest, hstored⟩ := h.world.stored
    have hle := hn.lastBlock_le h.increasing
    rw [blockNumber_snapshotAfter, ← h.head] at hle
    exact hle.trans_lt hstored.head
  have hlog : s.world.ref.log = s₀.world.ref.log ++ more.flatMap blockUpdates := by
    rw [h.log, h₀.log, hmore, List.flatMap_append]
  exact (h₀.world.getAcross h.world ho hlive hheight hlog hlater hkey).1

/-- A reader that was opened after a block, or that no block 0 came after, reads its blocks
everywhere. -/
theorem Inv.tipReads {s₀ s : Parity} (h₀ : s₀.Inv) (h : s.Inv) {more : List Block}
    (hmore : s.committed = s₀.committed ++ more) {i : Nat} {o : Opened} {rs : Reader × Reader}
    (hi₀ : s₀.world.snapshots[i]? = some o) (hi : s.world.snapshots[i]? = some o)
    (hr : s.readers[i]? = some rs) (hlive : o.Live s.world)
    (hgenesis : o.afterCommit = false → ∀ b ∈ s.committed, b.number = 0 → blockUpdates b = []) :
    TipReads s₀ s o rs := by
  intro ns key hkey
  obtain ⟨n, hn⟩ := h.readers i o rs hi hr hlive.2.1
  -- the reader in the first state
  have hlt₀ : i < s₀.readers.length := by
    rw [h₀.length]
    exact (List.getElem?_eq_some_iff.mp hi₀).1
  obtain ⟨n₀, hn₀⟩ := h₀.readers i o _ hi₀ (List.getElem?_eq_getElem hlt₀) hlive.2.1
  have hlater : ∀ u ∈ more.flatMap blockUpdates, o.snap.lastBlock < u.blockNum := by
    have happend := hn₀.append more
    rw [← hmore] at happend
    intro u hu
    refine happend.later h.increasing hgenesis u ?_
    rw [hmore, List.drop_append_of_le_length hn₀.le, List.flatMap_append]
    exact List.mem_append_right _ hu
  refine ⟨_, ?_, ?_, h₀.getAcross h (List.mem_of_getElem? hi) hlive hn hmore hlater hkey⟩
  all_goals
    rw [h.log, ← List.take_append_drop n s.committed, List.flatMap_append,
      recordAsOf_append (hn.earlier h.increasing) (hn.later h.increasing hgenesis)]
  · rw [hn.light, get_snapshotAfter]
  · rw [hn.revertible, get_snapshotAfter]

/-- A reader opened before the first block takes a block 0 for one of its own. -/
theorem Inv.genesis_unseen (h : s.Inv) {i : Nat} {o : Opened} {rs : Reader × Reader}
    (hi : s.world.snapshots[i]? = some o) (hr : s.readers[i]? = some rs)
    (hlive : o.Live s.world) (hreads : TipReads s s o rs) (hbefore : o.afterCommit = false)
    {b : Block} (hb : b ∈ s.committed) (hzero : b.number = 0) : blockUpdates b = [] := by
  refine List.eq_nil_iff_forall_not_mem.mpr fun u hu => ?_
  obtain ⟨n, hn⟩ := h.readers i o rs hi hr hlive.2.1
  obtain rfl : n = 0 := by
    by_contra hne
    rw [hn.after.mpr (Nat.pos_of_ne_zero hne)] at hbefore
    cases hbefore
  have hlog : u ∈ s.world.ref.log := h.log ▸ List.mem_flatMap.mpr ⟨b, hb, hu⟩
  obtain ⟨oldest, hstored⟩ := h.world.stored
  obtain ⟨ns, key, hkey⟩ := key_blockUpdates hu
  have hfits := (hstored.log.fits u hlog).key
  rw [hkey] at hfits
  obtain ⟨r, hlight, -, hpebble⟩ := hreads ns key hfits
  rw [hn.light, get_snapshotAfter] at hlight
  cases hlight
  rw [h.getAcross h (List.mem_of_getElem? hi) hlive hn (List.append_nil _).symm
    (fun _ hu => nomatch hu) hfits] at hpebble
  -- the pebble store has a record as of height 0
  have hheight : o.snap.lastBlock = 0 := hn.pebble
  obtain ⟨r, hr⟩ := recordBefore_isSome hlog hkey
    (by rw [blockNum_blockUpdates hu, hzero]; exact Nat.succ_pos o.snap.lastBlock)
  rw [recordAsOf_eq, hr] at hpebble
  cases hpebble

/-- In every run the stores report the same block number, and a reader of the tip gives the
same records from all of them, whenever it is read, unless it was opened before the first
block and that is a block 0 with writes. -/
theorem tip_reads_iff {s₀ s : Parity} (hreach : s₀.Reachable) (hrun : s₀.Steps s) :
    (∀ p, s.world.store = .running p →
      s.light.blockNumber = p.blockNumber ∧ s.revertible.blockNumber = p.blockNumber) ∧
    ∀ (i : Nat) (o : Opened) (rs : Reader × Reader), s₀.world.snapshots[i]? = some o →
      s.world.snapshots[i]? = some o → s.readers[i]? = some rs → o.Live s.world →
      (TipReads s s o rs ↔
        (o.afterCommit = false → ∀ b ∈ s.committed, b.number = 0 → blockUpdates b = [])) ∧
      ((o.afterCommit = false → ∀ b ∈ s.committed, b.number = 0 → blockUpdates b = []) →
        TipReads s₀ s o rs) := by
  have h₀ := hreach.inv
  have h := h₀.steps hrun
  obtain ⟨more, hmore⟩ := hrun.committed
  constructor
  · intro p hp
    have hpebble : p.blockNumber = (snapshotAfter s.committed).blockNumber := by
      rw [blockNumber_snapshotAfter, ← h.head]
      exact (h.world.running p hp).current
    rw [hpebble, LightKVS.blockNumber, h.light, RevertibleLightKVS.blockNumber, h.revertible]
    exact ⟨rfl, rfl⟩
  · intro i o rs hi₀ hi hr hlive
    refine ⟨⟨fun hreads hbefore b hb hzero => ?_, ?_⟩, h₀.tipReads h hmore hi₀ hi hr hlive⟩
    · exact h.genesis_unseen hi hr hlive hreads hbefore hb hzero
    · exact h.tipReads h (List.append_nil _).symm hi hi hr hlive

/-- A run that starts with an opened pebble store. -/
theorem exists_opened : ∃ (s : Parity) (p : PebbleKVS), s.Reachable ∧
    s.world.store = .running p ∧ s.world.session = 1 ∧ s.world.snapshots = [] ∧
    s.readers = [] ∧ s.committed = [] := by
  obtain ⟨p, hp, -, -⟩ := Stored.empty.open 1
  exact ⟨_, p, ⟨1, by decide, 1, Steps.refl.tail (.openStore rfl 1 (le_refl 1) hp)⟩,
    rfl, rfl, rfl, rfl, rfl⟩

theorem Reachable.steps (h : s.Reachable) (hrun : s.Steps s') : s'.Reachable := by
  obtain ⟨historySize, hsize, revertSize, hinit⟩ := h
  refine ⟨historySize, hsize, revertSize, ?_⟩
  induction hrun with
  | refl => exact hinit
  | tail _ hstep ih => exact ih.tail hstep

/-- A run goes on with a new reader. -/
theorem Reachable.exists_newSnapshot (h : s.Reachable) {p : PebbleKVS}
    (hstore : s.world.store = .running p) : ∃ (s' : Parity) (p' : PebbleKVS), s.Steps s' ∧
      s'.world.store = .running p' ∧ s'.world.session = s.world.session ∧
      s'.world.snapshots = s.world.snapshots ++ [⟨{ lastBlock := s.world.ref.head.getD 0 },
        s.world.session, s.world.ref.head.isSome⟩] ∧
      s'.readers = s.readers ++ [(⟨some s.light.current⟩, ⟨some s.revertible.current⟩)] ∧
      s'.committed = s.committed := by
  obtain ⟨q, hq⟩ := (h.inv.world.running p hstore).newSnapshot_none
  exact ⟨_, q, Steps.refl.tail (.newSnapshot hstore hq rfl rfl), rfl, rfl, rfl, rfl, rfl⟩

/-- A run goes on with a block. -/
theorem Reachable.exists_handle (h : s.Reachable) {p : PebbleKVS}
    (hstore : s.world.store = .running p) (b : Block)
    (hfits : BlockFits (s.committed.flatMap blockUpdates) b) :
    ∃ (s' : Parity) (p' : PebbleKVS), s.Steps s' ∧ s'.world.store = .running p' ∧
      s'.world.session = s.world.session ∧ s'.world.snapshots = s.world.snapshots ∧
      s'.readers = s.readers ∧
      s'.committed = if IsNew s.committed b then s.committed ++ [b] else s.committed := by
  rw [← h.inv.log] at hfits
  exact ⟨_, _, Steps.refl.tail (.handle hstore b hfits), rfl, rfl, rfl, rfl, rfl⟩

/-- A reader opened at block 0 reads the same from all stores while block 1 comes in. -/
theorem tip_reads_iff_next :
    ∃ (s₀ s : Parity) (o : Opened) (rs : Reader × Reader), s₀.Reachable ∧ s₀.Steps s ∧
      s₀.committed = [touch 0] ∧ s.committed = [touch 0, touch 1] ∧ o.snap.lastBlock = 0 ∧
      s.world.snapshots[0]? = some o ∧ s.readers[0]? = some rs ∧ TipReads s₀ s o rs := by
  obtain ⟨s₁, p₁, h₁, hp₁, hs₁, hsn₁, hr₁, hc₁⟩ := exists_opened
  obtain ⟨s₂, p₂, hrun₂, hp₂, hs₂, hsn₂, hr₂, hc₂⟩ := h₁.exists_handle hp₁ (touch 0)
    (touch_fits (by decide) (by rw [hc₁]; decide))
  have h₂ := h₁.steps hrun₂
  have hc₂ : s₂.committed = [touch 0] := by
    rw [hc₂, hc₁]
    exact if_pos fun _ hb => nomatch hb
  obtain ⟨s₃, p₃, hrun₃, hp₃, hs₃, hsn₃, hr₃, hc₃⟩ := h₂.exists_newSnapshot hp₂
  have h₃ := h₂.steps hrun₃
  have hc₃ : s₃.committed = [touch 0] := hc₃.trans hc₂
  obtain ⟨s₄, p₄, hrun₄, hp₄, hs₄, hsn₄, hr₄, hc₄⟩ := h₃.exists_handle hp₃ (touch 1)
    (touch_fits (by decide) (by rw [hc₃]; decide))
  have hc₄ : s₄.committed = [touch 0, touch 1] := by
    rw [hc₄, hc₃]
    exact if_pos fun _ hb => by cases hb; decide
  have hhead : s₂.world.ref.head = some 0 := by
    rw [h₂.inv.head, hc₂]
    rfl
  rw [hsn₂, hsn₁, hhead, hs₂, hs₁] at hsn₃
  rw [hr₂, hr₁] at hr₃
  have hsnap : s₃.world.snapshots[0]? = some ⟨{ lastBlock := 0 }, 1, true⟩ := by rw [hsn₃]; rfl
  have hreader : s₄.readers[0]? = some (⟨some s₂.light.current⟩, ⟨some s₂.revertible.current⟩) := by
    rw [hr₄, hr₃]
    rfl
  have hsnap' := hsnap
  rw [← hsn₄] at hsnap'
  have hlive : (Opened.mk { lastBlock := 0 } 1 true).Live s₄.world :=
    ⟨by rw [hs₄, hs₃, hs₂, hs₁], rfl, p₄, hp₄⟩
  have hreads := (tip_reads_iff h₃ hrun₄).2 0 _ _ hsnap hsnap' hreader hlive
  exact ⟨s₃, s₄, _, _, h₃, hrun₄, hc₃, hc₄, rfl, hsnap', hreader,
    hreads.2 fun hbefore => nomatch hbefore⟩

/-- A reader opened before block 0 sees it in the pebble store only. -/
theorem genesis_seen_by_pebble :
    ∃ (s : Parity) (o : Opened) (rs : Reader × Reader), s.Reachable ∧
      s.world.snapshots[0]? = some o ∧ s.readers[0]? = some rs ∧ o.Live s.world ∧
      rs.1.get (ascii "evm") (ascii "k") = .ok none ∧
      rs.2.get (ascii "evm") (ascii "k") = .ok none ∧
      o.snap.getAcross s.world.store.db s.world.store.db (ascii "evm") (ascii "k") =
        .ok (some ⟨ascii "evm", ascii "k", 0, 0, 0, some [0], false, ascii "tx"⟩) := by
  obtain ⟨s₁, p₁, h₁, hp₁, hs₁, hsn₁, hr₁, hc₁⟩ := exists_opened
  obtain ⟨s₂, p₂, hrun₂, hp₂, hs₂, hsn₂, hr₂, hc₂⟩ := h₁.exists_newSnapshot hp₁
  have h₂ := h₁.steps hrun₂
  obtain ⟨s₃, p₃, hrun₃, hp₃, hs₃, hsn₃, hr₃, hc₃⟩ := h₂.exists_handle hp₂ (touch 0)
    (touch_fits (by decide) (by rw [hc₂, hc₁]; decide))
  have h₃ := (h₂.steps hrun₃).inv
  have hc₃ : s₃.committed = [touch 0] := by
    rw [hc₃, hc₂, hc₁]
    exact if_pos fun _ hb => nomatch hb
  have hhead : s₁.world.ref.head = none := by
    rw [h₁.inv.head, hc₁]
    rfl
  have hsnap : s₃.world.snapshots[0]? = some ⟨{ lastBlock := 0 }, 1, false⟩ := by
    rw [hsn₃, hsn₂, hsn₁, hhead, hs₁]
    rfl
  have hreader : s₃.readers[0]? = some (⟨some (snapshotAfter [])⟩, ⟨some (snapshotAfter [])⟩) := by
    rw [hr₃, hr₂, hr₁, h₁.inv.light, h₁.inv.revertible, hc₁]
    rfl
  have hlive : (Opened.mk { lastBlock := 0 } 1 false).Live s₃.world :=
    ⟨by rw [hs₃, hs₂, hs₁], rfl, p₃, hp₃⟩
  obtain ⟨n, hn⟩ := h₃.readers 0 _ _ hsnap hreader rfl
  refine ⟨s₃, _, _, h₂.steps hrun₃, hsnap, hreader, hlive, rfl, rfl, ?_⟩
  rw [h₃.getAcross h₃ (List.mem_of_getElem? hsnap) hlive hn (List.append_nil _).symm
    (fun _ hu => nomatch hu) (by decide), h₃.log, hc₃]
  rfl

end Parity

end Storage
