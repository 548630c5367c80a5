import FabricXEvm.Storage.PebbleCommit

/-!
# Runs of the pebble store

A store that handles blocks, hands out snapshots, and is closed and opened again, in any
order.  The reference store runs along and sees the blocks only.

A snapshot holds the pruning back: the oldest retained block is never more than one past its
height (`World.Inv.held`).  So whatever its `Get` needs is there, and it answers as the
reference does as of its height, also when blocks are committed between its two parts
(`getAcross_exact`).
-/

namespace Storage

open Blocks BigEndian

/-- A store that is running, or the database of one that was closed. -/
inductive StoreState where
  | running (p : PebbleKVS)
  | closed (db : Database)

def StoreState.db : StoreState → Database
  | .running p => p.db
  | .closed db => db

/-- A snapshot that was handed out: in which session of the store, and whether anything had
been committed by then. -/
structure Opened where
  snap : PebbleSnapshot
  session : Nat
  afterCommit : Bool

/-- A snapshot with its flag set. -/
def Opened.markClosed (o : Opened) : Opened := { o with snap := { o.snap with closed := true } }

structure World where
  store : StoreState
  session : Nat := 0
  snapshots : List Opened := []
  ref : Reference := {}

/-- An empty directory. -/
def World.init : World := { store := .closed .empty }

/-- The snapshot is open, and the store it was opened on is running. -/
def Opened.Live (o : Opened) (w : World) : Prop :=
  o.session = w.session ∧ o.snap.closed = false ∧ ∃ p, w.store = .running p

/-- The steps of a world.  A read does not change it. -/
inductive World.Step : World → World → Prop where
  | handle {w : World} {p : PebbleKVS} (hstore : w.store = .running p) (b : Block)
      (hfits : BlockFits w.ref.log b) :
      World.Step w
        { w with
          store := .running (match p.handle b with
            | .ok p' => p'
            | .error _ => p)
          ref := w.ref.handle b }
  | newSnapshot {w : World} {p p' : PebbleKVS} (hstore : w.store = .running p)
      (blockNumber : Option Nat) {s : PebbleSnapshot}
      (hnew : p.newSnapshot blockNumber = .ok (p', s)) :
      World.Step w
        { w with
          store := .running p'
          snapshots := w.snapshots ++ [⟨s, w.session, w.ref.head.isSome⟩] }
  | close {w : World} {p : PebbleKVS} (hstore : w.store = .running p) {i : Nat} {o : Opened}
      (hi : w.snapshots[i]? = some o) (hsession : o.session = w.session) :
      World.Step w
        { w with
          store := .running (p.closeSnapshot o.snap).1
          snapshots := w.snapshots.set i { o with snap := (p.closeSnapshot o.snap).2 } }
  /-- A snapshot of a store that is closed releases its reader there. -/
  | closeLeftOver {w : World} {i : Nat} {o : Opened} (hi : w.snapshots[i]? = some o)
      (hsession : o.session ≠ w.session ∨ ∃ db, w.store = .closed db) :
      World.Step w { w with snapshots := w.snapshots.set i o.markClosed }
  | closeStore {w : World} {p : PebbleKVS} (hstore : w.store = .running p) :
      World.Step w { w with store := .closed p.db }
  | openStore {w : World} {db : Database} {p : PebbleKVS} (hstore : w.store = .closed db)
      (historySize : Int) (hsize : 1 ≤ historySize) (hnew : PebbleKVS.new db historySize = .ok p) :
      World.Step w { w with store := .running p, session := w.session + 1 }

/-- Any number of steps. -/
inductive World.Steps (w : World) : World → Prop where
  | refl : World.Steps w w
  | tail {w' w'' : World} (hrun : World.Steps w w') (hstep : World.Step w' w'') : World.Steps w w''

def World.Reachable (w : World) : Prop := World.init.Steps w

/-! ## Readers -/

theorem readersAt_upsert (rs : List (Nat × Nat)) (bn n height : Nat) :
    readersAt (ListMap.upsert Prod.fst (bn, n) rs) height =
      if bn = height then n else readersAt rs height := by
  rw [readersAt, ListMap.find?_upsert]
  split <;> rfl

theorem readersAt_filter (rs : List (Nat × Nat)) (bn height : Nat) :
    readersAt (rs.filter fun r => r.1 ≠ bn) height =
      if bn = height then 0 else readersAt rs height := by
  induction rs with
  | nil => simp [readersAt]
  | cons r rs ih =>
      unfold readersAt at ih ⊢
      by_cases hr : r.1 = bn
      · rw [List.filter_cons_of_neg (by simpa using hr), ih]
        by_cases hh : bn = height
        · rw [if_pos hh, if_pos hh]
        · rw [if_neg hh, if_neg hh, List.find?_cons_of_neg (by simpa [hr] using hh)]
      · rw [List.filter_cons_of_pos (by simpa using hr)]
        by_cases hh : r.1 = height
        · rw [List.find?_cons_of_pos (by simpa using hh), List.find?_cons_of_pos (by simpa using hh),
            if_neg fun h => hr (hh.trans h.symm)]
        · rw [List.find?_cons_of_neg (by simpa using hh), List.find?_cons_of_neg (by simpa using hh),
            ih]

theorem mem_of_readersAt {rs : List (Nat × Nat)} {height : Nat} (h : 0 < readersAt rs height) :
    ∃ r ∈ rs, r.1 = height := by
  unfold readersAt at h
  cases hfind : rs.find? fun r => r.1 = height with
  | none =>
      rw [hfind] at h
      cases h
  | some r => exact ⟨r, List.mem_of_find?_eq_some hfind, by simpa using List.find?_some hfind⟩

/-! ## The invariant -/

/-- The number of live snapshots of a height. -/
def World.liveAt (w : World) (height : Nat) : Nat :=
  w.snapshots.countP fun o =>
    o.session = w.session && (!o.snap.closed && o.snap.lastBlock = height)

structure World.Inv (w : World) : Prop where
  running : ∀ p, w.store = .running p → p.Inv w.ref
  closed : ∀ db, w.store = .closed db → ∃ oldest, Stored db w.ref oldest
  sessions : ∀ o ∈ w.snapshots, o.session ≤ w.session
  after : ∀ o ∈ w.snapshots, o.afterCommit = true →
    ∃ head, w.ref.head = some head ∧ o.snap.lastBlock ≤ head
  pins : ∀ p, w.store = .running p → ∀ height, readersAt p.openReaders height = w.liveAt height
  held : ∀ p, w.store = .running p → ∀ o ∈ w.snapshots, o.session = w.session →
    o.snap.closed = false → p.oldestRetained ≤ o.snap.lastBlock + 1

theorem World.Inv.init : World.init.Inv where
  running _ h := nomatch h
  closed db h := by
    cases h
    exact ⟨0, .empty⟩
  sessions _ h := nomatch h
  after _ h := nomatch h
  pins _ h := nomatch h
  held _ h := nomatch h

namespace World

variable {w : World} {p p' : PebbleKVS}

/-- `ref'` is `ref` after some more blocks. -/
def Later (ref ref' : Reference) : Prop :=
  ∀ head, ref.head = some head → ∃ head', ref'.head = some head' ∧ head ≤ head' ∧
    ∃ us, ref'.log = ref.log ++ us ∧ ∀ u ∈ us, head < u.blockNum

theorem later_handle (ref : Reference) (b : Block) : Later ref (ref.handle b) := by
  intro head hhead
  unfold Reference.handle
  rw [hhead]
  dsimp only
  split
  next => exact ⟨head, hhead, Nat.le_refl head, [], (List.append_nil _).symm, fun u hu => nomatch hu⟩
  next hpast =>
    refine ⟨b.number, rfl, (not_le.mp hpast).le, _, rfl, fun u hu => ?_⟩
    rw [blockNum_blockUpdates hu]
    exact not_le.mp hpast

theorem Later.refl (ref : Reference) : Later ref ref := fun head hhead =>
  ⟨head, hhead, Nat.le_refl head, [], (List.append_nil _).symm, fun _ hu => nomatch hu⟩

theorem Later.trans {r₁ r₂ r₃ : Reference} (h : Later r₁ r₂) (h' : Later r₂ r₃) : Later r₁ r₃ := by
  intro head hhead
  obtain ⟨head₂, hhead₂, hle₂, us, hlog, hus⟩ := h head hhead
  obtain ⟨head₃, hhead₃, hle₃, vs, hlog', hvs⟩ := h' head₂ hhead₂
  refine ⟨head₃, hhead₃, hle₂.trans hle₃, us ++ vs, by rw [hlog', hlog, List.append_assoc], ?_⟩
  intro u hu
  rcases List.mem_append.mp hu with hu | hu
  · exact hus u hu
  · exact hle₂.trans_lt (hvs u hu)

/-- Pruning does not reach what a pinned height needs. -/
theorem oldestAfter_le {n height : Nat} (hpin : 0 < readersAt p.openReaders height)
    (hold : p.oldestRetained ≤ height + 1) : p.oldestAfter n ≤ height + 1 := by
  obtain ⟨r, hr, rfl⟩ := mem_of_readersAt hpin
  unfold PebbleKVS.oldestAfter
  split
  next => exact hold
  next => exact max_le hold (Nat.succ_le_succ (p.cutoff_le_pin n hr))

/-- A live snapshot is counted. -/
theorem liveAt_pos {o : Opened} (ho : o ∈ w.snapshots) (hsession : o.session = w.session)
    (hopen : o.snap.closed = false) : 0 < w.liveAt o.snap.lastBlock := by
  refine List.countP_pos_iff.mpr ⟨o, ho, ?_⟩
  simp [hsession, hopen]

theorem Inv.handle (h : w.Inv) (hstore : w.store = .running p) {b : Block}
    (hfits : BlockFits w.ref.log b) :
    Inv { w with
      store := .running (match p.handle b with
        | .ok p' => p'
        | .error _ => p)
      ref := w.ref.handle b } := by
  have hkeep : ∀ o ∈ w.snapshots, o.afterCommit = true →
      ∃ head, (w.ref.handle b).head = some head ∧ o.snap.lastBlock ≤ head := by
    intro o ho hafter
    obtain ⟨head, hhead, hle⟩ := h.after o ho hafter
    obtain ⟨head', hhead', hle', -⟩ := later_handle w.ref b head hhead
    exact ⟨head', hhead', hle.trans hle'⟩
  rcases (h.running p hstore).handle hfits with ⟨href, hsame⟩ | ⟨p', hp', hinv, hreaders, hold, -, -⟩
  · have hp : (match p.handle b with
        | .ok p' => p'
        | .error _ => p) = p := by
      cases hcase : p.handle b with
      | ok p' => exact hsame p' hcase
      | error err => rfl
    rw [hp]
    rw [href] at hkeep ⊢
    exact
      { running := fun q hq => by cases hq; exact h.running p hstore
        closed := fun db hdb => nomatch hdb
        sessions := h.sessions
        after := hkeep
        pins := fun q hq => by cases hq; exact h.pins p hstore
        held := fun q hq => by cases hq; exact h.held p hstore }
  · rw [hp']
    refine
      { running := fun q hq => by cases hq; exact hinv
        closed := fun db hdb => nomatch hdb
        sessions := h.sessions
        after := hkeep
        pins := fun q hq => by cases hq; rw [hreaders]; exact h.pins p hstore
        held := fun q hq o ho hsession hopen => ?_ }
    cases hq
    rw [hold]
    refine oldestAfter_le ?_ (h.held p hstore o ho hsession hopen)
    rw [h.pins p hstore]
    exact liveAt_pos ho hsession hopen

theorem pinnedHeight_le (head : Nat) (blockNumber : Option Nat) :
    pinnedHeight head blockNumber ≤ head := by
  cases blockNumber with
  | none => exact Nat.le_refl head
  | some n =>
      rw [pinnedHeight]
      split
      next hlt => exact hlt.le
      next => exact Nat.le_refl head

theorem newSnapshot_ok {blockNumber : Option Nat} {s : PebbleSnapshot}
    (h : p.newSnapshot blockNumber = .ok (p', s)) :
    ∃ height ≤ p.currentBlock, p.oldestRetained ≤ height ∧ s = { lastBlock := height } ∧
      p' = { p with openReaders :=
        ListMap.upsert Prod.fst (height, readersAt p.openReaders height + 1) p.openReaders } := by
  unfold PebbleKVS.newSnapshot at h
  dsimp only at h
  generalize hbn : pinnedHeight p.currentBlock blockNumber = height at h
  split at h
  next => cases h
  next hold =>
    cases h
    exact ⟨height, hbn ▸ pinnedHeight_le p.currentBlock blockNumber, not_lt.mp hold, rfl, rfl⟩

theorem Inv.newSnapshot (h : w.Inv) (hstore : w.store = .running p) {blockNumber : Option Nat}
    {s : PebbleSnapshot} (hnew : p.newSnapshot blockNumber = .ok (p', s)) :
    Inv { w with
      store := .running p'
      snapshots := w.snapshots ++ [⟨s, w.session, w.ref.head.isSome⟩] } := by
  obtain ⟨height, hle, hold, rfl, rfl⟩ := newSnapshot_ok hnew
  have hinv := h.running p hstore
  refine
    { running := fun q hq => by cases hq; exact ⟨hinv.stored, hinv.current, hinv.checkpoint⟩
      closed := fun db hdb => nomatch hdb
      sessions := fun o ho => ?_
      after := fun o ho hafter => ?_
      pins := fun q hq height' => ?_
      held := fun q hq o ho hsession hopen => ?_ }
  · rcases List.mem_append.mp ho with ho | ho
    · exact h.sessions o ho
    · rw [List.mem_singleton.mp ho]
  · rcases List.mem_append.mp ho with ho | ho
    · exact h.after o ho hafter
    · cases List.mem_singleton.mp ho
      obtain ⟨head, hhead⟩ := Option.isSome_iff_exists.mp hafter
      rw [hinv.current, hhead] at hle
      exact ⟨head, hhead, hle⟩
  · cases hq
    have hnew := h.pins p hstore
    rw [readersAt_upsert, hnew, hnew]
    simp only [liveAt, List.countP_append, List.countP_cons, List.countP_nil]
    by_cases hh : height = height'
    · simp [hh]
    · simp [hh]
  · cases hq
    rcases List.mem_append.mp ho with ho | ho
    · exact h.held p hstore o ho hsession hopen
    · cases List.mem_singleton.mp ho
      exact hold.trans (Nat.le_succ height)

/-- Closing a snapshot takes it out of the live ones of its height. -/
theorem countP_markClosed {i : Nat} {o : Opened} (hi : w.snapshots[i]? = some o) (height : Nat) :
    liveAt { w with snapshots := w.snapshots.set i o.markClosed } height =
      w.liveAt height - if o.session = w.session ∧ o.snap.closed = false ∧ o.snap.lastBlock = height
        then 1 else 0 := by
  obtain ⟨hlt, hget⟩ := List.getElem?_eq_some_iff.mp hi
  simp only [liveAt]
  rw [List.countP_set hlt, hget]
  simp [Opened.markClosed]

/-- A snapshot is closed, and the store has the readers that are left. -/
theorem Inv.markClosed (h : w.Inv) {i : Nat} {o : Opened} (hi : w.snapshots[i]? = some o)
    {store : StoreState}
    (hrunning : ∀ p', store = .running p' → ∃ p, w.store = .running p ∧ p'.Inv w.ref ∧
      p'.oldestRetained = p.oldestRetained ∧ ∀ height, readersAt p'.openReaders height =
        liveAt { w with snapshots := w.snapshots.set i o.markClosed } height)
    (hclosed : ∀ db, store = .closed db → w.store = .closed db) :
    Inv { w with store, snapshots := w.snapshots.set i o.markClosed } where
  running p' hp' := by
    obtain ⟨p, -, hinv, -⟩ := hrunning p' hp'
    exact hinv
  closed db hdb := h.closed db (hclosed db hdb)
  sessions o' ho' := by
    rcases List.mem_or_eq_of_mem_set ho' with ho' | rfl
    · exact h.sessions o' ho'
    · exact h.sessions o (List.mem_of_getElem? hi)
  after o' ho' hafter := by
    rcases List.mem_or_eq_of_mem_set ho' with ho' | rfl
    · exact h.after o' ho' hafter
    · exact h.after o (List.mem_of_getElem? hi) hafter
  pins p' hp' := by
    obtain ⟨p, -, -, -, hpins⟩ := hrunning p' hp'
    exact hpins
  held p' hp' o' ho' hsession hopen := by
    obtain ⟨p, hp, -, hold, -⟩ := hrunning p' hp'
    rcases List.mem_or_eq_of_mem_set ho' with ho' | rfl
    · rw [hold]
      exact h.held p hp o' ho' hsession hopen
    · cases hopen

theorem Inv.close (h : w.Inv) (hstore : w.store = .running p) {i : Nat} {o : Opened}
    (hi : w.snapshots[i]? = some o) (hsession : o.session = w.session) :
    Inv { w with
      store := .running (p.closeSnapshot o.snap).1
      snapshots := w.snapshots.set i { o with snap := (p.closeSnapshot o.snap).2 } } := by
  have ho : o ∈ w.snapshots := List.mem_of_getElem? hi
  unfold PebbleKVS.closeSnapshot
  cases hclosed : o.snap.closed with
  | true =>
      -- a second call
      obtain ⟨hlt, hget⟩ := List.getElem?_eq_some_iff.mp hi
      have hset : w.snapshots.set i { o with snap := o.snap } = w.snapshots := by
        rw [← hget]
        exact List.set_getElem_self hlt
      rw [if_pos rfl]
      dsimp only
      rw [hset, ← hstore]
      exact h
  | false =>
      have hinv := h.running p hstore
      have hpos := liveAt_pos ho hsession hclosed
      have hpins : ∀ height, readersAt (p.releaseReader o.snap.lastBlock).openReaders height =
          liveAt { w with snapshots := w.snapshots.set i o.markClosed } height := by
        intro height
        rw [countP_markClosed hi, ← h.pins p hstore]
        rw [← h.pins p hstore] at hpos
        unfold PebbleKVS.releaseReader
        dsimp only
        split
        next hmany =>
          rw [readersAt_upsert]
          by_cases hh : o.snap.lastBlock = height
          · simp [hh, hsession, hclosed]
          · simp [hh]
        next hone =>
          rw [readersAt_filter]
          by_cases hh : o.snap.lastBlock = height
          · subst hh
            simp only [if_pos, hsession, hclosed, and_self]
            omega
          · simp [hh]
      refine h.markClosed hi (fun p' hp' => ?_) fun db hdb => ?_
      · cases hp'
        exact ⟨p, hstore, ⟨hinv.stored, hinv.current, hinv.checkpoint⟩, rfl, hpins⟩
      · cases hdb

theorem Inv.closeLeftOver (h : w.Inv) {i : Nat} {o : Opened} (hi : w.snapshots[i]? = some o)
    (hsession : o.session ≠ w.session ∨ ∃ db, w.store = .closed db) :
    Inv { w with snapshots := w.snapshots.set i o.markClosed } := by
  refine h.markClosed hi (fun p hp => ⟨p, hp, h.running p hp, rfl, fun height => ?_⟩) fun _ => id
  rw [countP_markClosed hi, h.pins p hp]
  rcases hsession with hne | ⟨db, hdb⟩
  · simp [hne]
  · cases hp.symm.trans hdb

theorem Inv.closeStore (h : w.Inv) (hstore : w.store = .running p) :
    Inv { w with store := .closed p.db } where
  running _ hp := nomatch hp
  closed db hdb := by
    cases hdb
    exact ⟨_, (h.running p hstore).stored⟩
  sessions := h.sessions
  after := h.after
  pins _ hp := nomatch hp
  held _ hp := nomatch hp

theorem Inv.openStore (h : w.Inv) {db : Database} (hstore : w.store = .closed db)
    {historySize : Int} (hnew : PebbleKVS.new db historySize = .ok p) :
    Inv { w with store := .running p, session := w.session + 1 } := by
  obtain ⟨oldest, hstored⟩ := h.closed db hstore
  obtain ⟨q, hq, hinv, hreaders⟩ := hstored.open historySize
  cases hq.symm.trans hnew
  have hold : ∀ o ∈ w.snapshots, o.session ≠ w.session + 1 := fun o ho =>
    (Nat.lt_succ_of_le (h.sessions o ho)).ne
  refine
    { running := fun q hq => by cases hq; exact hinv
      closed := fun db hdb => nomatch hdb
      sessions := fun o ho => (h.sessions o ho).trans (Nat.le_succ _)
      after := h.after
      pins := fun q hq height => ?_
      held := fun q hq o ho hsession => absurd hsession (hold o ho) }
  cases hq
  rw [hreaders]
  refine (List.countP_eq_zero.mpr fun o ho => ?_).symm
  simp [hold o ho]

theorem Inv.step {w' : World} (h : w.Inv) (hstep : Step w w') : w'.Inv := by
  cases hstep with
  | handle hstore b hfits => exact h.handle hstore hfits
  | newSnapshot hstore blockNumber hnew => exact h.newSnapshot hstore hnew
  | close hstore hi hsession => exact h.close hstore hi hsession
  | closeLeftOver hi hsession => exact h.closeLeftOver hi hsession
  | closeStore hstore => exact h.closeStore hstore
  | openStore hstore historySize _ hnew => exact h.openStore hstore hnew

theorem Inv.steps {w' : World} (h : w.Inv) (hrun : w.Steps w') : w'.Inv := by
  induction hrun with
  | refl => exact h
  | tail _ hstep ih => exact ih.step hstep

/-- The database of any world holds the log. -/
theorem Inv.stored (h : w.Inv) : ∃ oldest, Stored w.store.db w.ref oldest := by
  cases hstore : w.store with
  | running p => exact ⟨_, (h.running p hstore).stored⟩
  | closed db => exact h.closed db hstore

theorem Steps.later {w' : World} (hrun : w.Steps w') : Later w.ref w'.ref := by
  induction hrun with
  | refl => exact .refl w.ref
  | tail _ hstep ih =>
      cases hstep with
      | handle _ b _ => exact ih.trans (later_handle _ b)
      | newSnapshot | close | closeLeftOver | closeStore | openStore => exact ih

end World

/-! ## Reads -/

section Reads

variable {log us : List KeyValueVersion} {key : Bytes} {height : Nat}

/-- The latest record, if it is not after the height, is the record as of the height. -/
theorem recordAsOf_of_latest (hlog : Ordered log) {r : ValueVersion} (h : latest log key = some r)
    (hle : r.blockNum ≤ height) : recordAsOf log height key = some r := by
  obtain ⟨u, hu, rfl, hmax⟩ := lastOf_eq_some (hlog.filter _) h
  rw [← h]
  refine congrArg lastOf (List.filter_eq_self.mpr fun w hw => decide_eq_true ?_)
  exact (hmax w hw).trans hle

/-- A scan of the history gives the record as of a height that later writes superseded. -/
theorem getHistory_eq {db : Database} {ref : Reference} {oldest : Nat}
    (h : Stored db ref oldest) {s : PebbleSnapshot} {ns key : Bytes}
    (hkey : (fullKey ns key).length < 2 ^ 32) (hheight : s.lastBlock < 2 ^ 64)
    (hheld : oldest ≤ s.lastBlock + 1)
    (hlater : ∀ r, recordAsOf ref.log s.lastBlock (fullKey ns key) = some r →
      ∃ u ∈ ref.log, u.key = fullKey ns key ∧ s.lastBlock < u.blockNum) :
    s.getHistory db ns key =
      .ok ((recordAsOf ref.log s.lastBlock (fullKey ns key)).map (·.under ns key)) := by
  have hret := h.log.retention oldest
  unfold PebbleSnapshot.getHistory
  cases hrec : recordAsOf ref.log s.lastBlock (fullKey ns key) with
  | none =>
      rw [h.tables.scan_none hret hkey hheight]
      · rfl
      · -- a retained record that is not after the height would be a write
        rintro ⟨k, r, block⟩ ⟨⟨hr, -⟩, -⟩ hk
        obtain rfl : k = fullKey ns key := hk
        by_contra hle
        obtain ⟨⟨u, hu, hukey, -, _, -, rfl⟩, -⟩ := recordBefore_eq_some h.log.ordered hr
        obtain ⟨r', hr'⟩ := recordBefore_isSome hu hukey (Nat.lt_succ_of_le (not_lt.mp hle))
        rw [recordAsOf_eq] at hrec
        cases hrec.symm.trans hr'
  | some r =>
      obtain ⟨u, hu, hukey, hlt⟩ := hlater r hrec
      obtain ⟨next, hnext, hsup⟩ := superseded_of_later hrec hu hukey hlt
      have hrec' := hrec
      rw [recordAsOf_eq] at hrec'
      have hmem : (⟨fullKey ns key, r, next⟩ : Retained) ∈ retainedSince ref.log oldest :=
        ⟨hsup, hheld.trans hnext⟩
      have hle : r.blockNum ≤ s.lastBlock :=
        Nat.le_of_lt_succ (recordBefore_lt h.log.ordered hrec')
      rw [h.tables.scan_some hret hmem hheight hle]
      · simp only [decodeRecord_encodeRecord (h.log.recordBefore hrec').1, Option.map_some]
      · -- no retained record is closer to the height
        rintro ⟨k, r', block⟩ ⟨⟨hr', -⟩, -⟩ hk hle'
        obtain rfl : k = fullKey ns key := hk
        obtain ⟨⟨v, hv, hvkey, -, _, -, rfl⟩, -⟩ := recordBefore_eq_some h.log.ordered hr'
        exact (recordBefore_eq_some h.log.ordered hrec').2 v hv hvkey (Nat.lt_succ_of_le hle')

end Reads

/-- A `Get` on a live snapshot gives the record as of the snapshot's height when it made its
first part, if no write since then is of that height. -/
theorem World.Inv.getAcross {w w' : World} (hinv : w.Inv) (hinv' : w'.Inv) {o : Opened}
    (ho : o ∈ w'.snapshots) (hlive : o.Live w') (hheight : o.snap.lastBlock < 2 ^ 64)
    {us : List KeyValueVersion} (hlog : w'.ref.log = w.ref.log ++ us)
    (hus : ∀ u ∈ us, o.snap.lastBlock < u.blockNum) {ns key : Bytes}
    (hkey : (fullKey ns key).length < 2 ^ 32) :
    o.snap.getAcross w.store.db w'.store.db ns key =
        .ok ((recordAsOf w'.ref.log o.snap.lastBlock (fullKey ns key)).map (·.under ns key)) ∧
      recordAsOf w'.ref.log o.snap.lastBlock (fullKey ns key) =
        recordAsOf w.ref.log o.snap.lastBlock (fullKey ns key) := by
  obtain ⟨hsession, hopen, p, hp⟩ := hlive
  obtain ⟨oldest, hstored⟩ := hinv.stored
  have hstored' := (hinv'.running p hp).stored
  have hsame : recordAsOf w'.ref.log o.snap.lastBlock (fullKey ns key) =
      recordAsOf w.ref.log o.snap.lastBlock (fullKey ns key) := by
    rw [recordAsOf_eq, recordAsOf_eq, hlog]
    exact recordBefore_append hus
  refine ⟨?_, hsame⟩
  have hheld := hinv'.held p hp o ho hsession hopen
  have hdb : w'.store.db = p.db := by rw [hp]; rfl
  have hcurrent := hstored.tables.currentRecord_eq hkey fun r => hstored.log.latest
  rw [PebbleSnapshot.getAcross, PebbleSnapshot.getCurrent, hopen, hcurrent, hdb]
  cases hlatest : latest w.ref.log (fullKey ns key) with
  | none =>
      refine getHistory_eq hstored' hkey hheight hheld fun r hr => ?_
      -- the key was never written
      rw [hsame, recordAsOf_eq] at hr
      obtain ⟨⟨u, hu, hukey, -⟩, -⟩ := recordBefore_eq_some hstored.log.ordered hr
      have hmem := mem_writesOf.mpr ⟨hu, hukey⟩
      rw [lastOf_eq_none.mp hlatest] at hmem
      cases hmem
  | some r =>
      by_cases hle : r.blockNum ≤ o.snap.lastBlock
      · rw [hsame, recordAsOf_of_latest hstored.log.ordered hlatest hle]
        simp only [Option.map_some, Bool.false_eq_true, if_false, if_pos hle]
        rfl
      · simp only [Option.map_some, Bool.false_eq_true, if_false, if_neg hle]
        refine getHistory_eq hstored' hkey hheight hheld fun _ _ => ?_
        obtain ⟨u, hu, rfl, -⟩ := lastOf_eq_some (hstored.log.ordered.filter _) hlatest
        obtain ⟨hmem, hukey⟩ := mem_writesOf.mp hu
        exact ⟨u, hlog ▸ List.mem_append_left us hmem, hukey, not_le.mp hle⟩

/-- A `Get` on a live snapshot that was opened after the first commit gives the record of
the reference store as of the snapshot's height, whatever happened in the meantime and
between its two parts. -/
theorem getAcross_exact {w w' : World} (hw : w.Reachable) (hrun : w.Steps w') {i : Nat}
    {o : Opened} (hi : w.snapshots[i]? = some o) (hi' : w'.snapshots[i]? = some o)
    (hlive : o.Live w') (hafter : o.afterCommit = true) {ns key : Bytes}
    (hkey : (fullKey ns key).length < 2 ^ 32) :
    o.snap.getAcross w.store.db w'.store.db ns key =
        .ok ((recordAsOf w'.ref.log o.snap.lastBlock (fullKey ns key)).map (·.under ns key)) ∧
      recordAsOf w'.ref.log o.snap.lastBlock (fullKey ns key) =
        recordAsOf w.ref.log o.snap.lastBlock (fullKey ns key) := by
  have hinv := World.Inv.init.steps hw
  obtain ⟨head, hhead, hle⟩ := hinv.after o (List.mem_of_getElem? hi) hafter
  obtain ⟨head', hhead', hle', us, hlog, hus⟩ := hrun.later head hhead
  obtain ⟨oldest, hstored⟩ := hinv.stored
  have hheight : o.snap.lastBlock < 2 ^ 64 := by
    have := hstored.head
    rw [hhead, Option.getD_some] at this
    exact hle.trans_lt this
  exact hinv.getAcross (hinv.steps hrun) (List.mem_of_getElem? hi') hlive hheight hlog
    (fun u hu => hle.trans_lt (hus u hu)) hkey

/-- The tip can always be read. -/
theorem PebbleKVS.Inv.newSnapshot_none {p : PebbleKVS} {ref : Reference} (h : p.Inv ref) :
    ∃ p', p.newSnapshot none = .ok (p', { lastBlock := ref.head.getD 0 }) := by
  have hold : ¬ p.currentBlock < p.oldestRetained := by
    rw [h.current]
    exact not_lt.mpr h.stored.oldest
  rw [← h.current]
  exact ⟨_, if_neg hold⟩

theorem touch_fits {n : Nat} (hn : n < 2 ^ 64) {log : List KeyValueVersion}
    (hlog : log.length < 2 ^ 64 - 1) : BlockFits log (touch n) where
  number := hn
  updates u hu := by
    rw [blockUpdates_touch, List.mem_singleton] at hu
    subst hu
    refine ⟨?_, hn, ?_, ?_⟩
    · change (ascii "evm:k").length < 2 ^ 32
      decide
    · exact Nat.two_pow_pos 64
    · change 2 + 1 < 2 ^ 62
      decide
  length := by
    rw [List.length_append, blockUpdates_touch, List.length_singleton]
    omega

/-- A running world handles such a block. -/
theorem World.Steps.handleTouch {w w' : World} (h : w.Steps w') {p : PebbleKVS}
    (hstore : w'.store = .running p) (ref : Reference) (href : w'.ref = ref) (n : Nat)
    (hn : n < 2 ^ 64) (hlog : ref.log.length < 2 ^ 64 - 1) :
    ∃ w'' p', w.Steps w'' ∧ w''.store = .running p' ∧ w''.session = w'.session ∧
      w''.snapshots = w'.snapshots ∧ w''.ref = ref.handle (touch n) := by
  subst href
  exact ⟨_, _, h.tail (.handle hstore (touch n) (touch_fits hn hlog)), rfl, rfl, rfl, rfl⟩

/-- With a window of one block, a snapshot of block 1 still reads its record after block 4,
and the first part of the read was made before block 2. -/
theorem getAcross_exact_pinned :
    ∃ (w w' : World) (o : Opened), w.Reachable ∧ w.Steps w' ∧ w.ref.head = some 1 ∧
      w'.ref.head = some 4 ∧ o.snap.lastBlock = 1 ∧
      o.snap.getAcross w.store.db w'.store.db (ascii "evm") (ascii "k") =
        .ok (some ⟨ascii "evm", ascii "k", 1, 0, 0, some [1], false, ascii "tx"⟩) := by
  obtain ⟨p, hp, -, -⟩ := Stored.empty.open 1
  have hopen : World.Reachable { store := .running p, session := 1 } :=
    World.Steps.refl.tail (.openStore rfl 1 (le_refl 1) hp)
  obtain ⟨w₁, p₁, h₁, hp₁, hs₁, hsn₁, hr₁⟩ := hopen.handleTouch rfl {} rfl 1 (by decide) (by decide)
  obtain ⟨q, hq⟩ := ((World.Inv.init.steps h₁).running p₁ hp₁).newSnapshot_none
  have hsnap := h₁.tail (.newSnapshot hp₁ none hq)
  rw [hs₁, hsn₁, hr₁] at hsnap
  let ref := ({} : Reference).handle (touch 1)
  obtain ⟨w₂, p₂, h₂, hp₂, hs₂, hsn₂, hr₂⟩ :=
    World.Steps.refl.handleTouch (w := World.mk (.running q) 1 _ ref) rfl ref rfl 2 (by decide)
      (by decide)
  obtain ⟨w₃, p₃, h₃, hp₃, hs₃, hsn₃, hr₃⟩ := h₂.handleTouch hp₂ _ hr₂ 3 (by decide) (by decide)
  obtain ⟨w₄, p₄, h₄, hp₄, hs₄, hsn₄, hr₄⟩ := h₃.handleTouch hp₃ _ hr₃ 4 (by decide) (by decide)
  have hsn : w₄.snapshots = _ := hsn₄.trans (hsn₃.trans hsn₂)
  have hs : w₄.session = 1 := hs₄.trans (hs₃.trans hs₂)
  have hexact := @getAcross_exact _ _ hsnap h₄ 0 _ rfl (by rw [hsn]; rfl)
    ⟨hs.symm, rfl, p₄, hp₄⟩ rfl (ascii "evm") (ascii "k") (by decide)
  rw [hr₄] at hexact
  exact ⟨_, w₄, _, hsnap, h₄, rfl, by rw [hr₄]; rfl, rfl, hexact.1.trans rfl⟩

end Storage
