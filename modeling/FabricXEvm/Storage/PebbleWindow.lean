import FabricXEvm.Lib.Loops
import FabricXEvm.Storage.PebbleRuns

/-!
# The window of the pebble store

What a store that is always opened with one history size keeps.  Pruning stops at the
window, so the oldest retained block is never past the first height of it; it only moves
forward, and the database has it too (`World.Kept`).  The index has an entry for each entry
of the history and nothing else, since both hold one set of retained records.  And a commit
with no reader open prunes up to the window, whatever earlier pins had held back.
-/

namespace Storage

open Blocks

/-! ## Entries -/

/-- The history keys in a database. -/
def historyKeys (db : Database) : Set Bytes :=
  { k | k.head? = some prefixHistory ∧ (db.get k).isSome }

/-- The index keys in a database. -/
def indexKeys (db : Database) : Set Bytes :=
  { k | k.head? = some prefixIndex ∧ (db.get k).isSome }

/-- The history key that an index key names. -/
def namedKey (k : Bytes) : Bytes :=
  match parseIndexKey k with
  | .ok (_, histKey) => histKey
  | .error _ => []

section Entries

variable {db : Database} {ref : Reference} {oldest : Nat}

theorem mem_historyKeys (h : Stored db ref oldest) {k : Bytes} :
    k ∈ historyKeys db ↔ ∃ e ∈ retainedSince ref.log oldest, k = e.histKey := by
  constructor
  · rintro ⟨hk, hget⟩
    obtain ⟨raw, hraw⟩ := Option.isSome_iff_exists.mp hget
    obtain ⟨e, he, hkey, -⟩ := (h.tables.history hk).mp hraw
    exact ⟨e, he, hkey⟩
  · rintro ⟨e, he, rfl⟩
    refine ⟨e.head?_histKey, Option.isSome_iff_exists.mpr ⟨encodeRecord e.record, ?_⟩⟩
    exact (h.tables.history e.head?_histKey).mpr ⟨e, he, rfl, rfl⟩

theorem mem_indexKeys (h : Stored db ref oldest) {k : Bytes} :
    k ∈ indexKeys db ↔ ∃ e ∈ retainedSince ref.log oldest, k = e.idxKey := by
  constructor
  · rintro ⟨hk, hget⟩
    obtain ⟨raw, hraw⟩ := Option.isSome_iff_exists.mp hget
    obtain ⟨e, he, hkey, -⟩ := (h.tables.index hk).mp hraw
    exact ⟨e, he, hkey⟩
  · rintro ⟨e, he, rfl⟩
    refine ⟨e.head?_idxKey, Option.isSome_iff_exists.mpr ⟨[], ?_⟩⟩
    exact (h.tables.index e.head?_idxKey).mpr ⟨e, he, rfl, rfl⟩

theorem namedKey_idxKey {e : Retained} (he : e.Fits) : namedKey e.idxKey = e.histKey := by
  have hne : e.histKey ≠ [] := fun hnil => nomatch hnil ▸ e.head?_histKey
  rw [namedKey, Retained.idxKey, parseIndexKey_indexKey he.block hne]

/-- Every index entry names a history entry of its own, and all of them are named. -/
theorem Stored.index_bijOn (h : Stored db ref oldest) :
    Set.BijOn namedKey (indexKeys db) (historyKeys db) := by
  have hret := h.log.retention oldest
  refine ⟨fun k hk => ?_, fun k hk k' hk' heq => ?_, fun k hk => ?_⟩
  · obtain ⟨e, he, rfl⟩ := (mem_indexKeys h).mp hk
    rw [namedKey_idxKey (hret.fits e he)]
    exact (mem_historyKeys h).mpr ⟨e, he, rfl⟩
  · obtain ⟨e, he, rfl⟩ := (mem_indexKeys h).mp hk
    obtain ⟨e', he', rfl⟩ := (mem_indexKeys h).mp hk'
    rw [namedKey_idxKey (hret.fits e he), namedKey_idxKey (hret.fits e' he')] at heq
    obtain ⟨hkey, hblock⟩ := Retained.histKey_inj (hret.fits e he) (hret.fits e' he') heq
    rw [hret.unique e he e' he' hkey hblock]
  · obtain ⟨e, he, rfl⟩ := (mem_historyKeys h).mp hk
    exact ⟨e.idxKey, (mem_indexKeys h).mpr ⟨e, he, rfl⟩, namedKey_idxKey (hret.fits e he)⟩

end Entries

/-! ## Runs with one history size -/

namespace World

/-- Any number of steps in which every store that runs has the history size `S`. -/
inductive StepsAt (S : Nat) (w : World) : World → Prop where
  | refl : StepsAt S w w
  | tail {w' w'' : World} (hrun : StepsAt S w w') (hstep : Step w' w'')
      (hsize : ∀ p, w''.store = .running p → p.historySize = S) : StepsAt S w w''

theorem StepsAt.steps {S : Nat} {w w' : World} (h : StepsAt S w w') : w.Steps w' := by
  induction h with
  | refl => exact .refl
  | tail _ hstep _ ih => exact ih.tail hstep

/-- The history since `oldest` is there, and that is not past the window. -/
structure Kept (S : Nat) (w : World) (oldest : Nat) : Prop where
  stored : Stored w.store.db w.ref oldest
  window : oldest ≤ w.ref.head.getD 0 - S
  memory : ∀ p, w.store = .running p → p.oldestRetained = oldest ∧ p.historySize = S
  readers : ∀ p, w.store = .running p → ∀ r ∈ p.openReaders, 0 < r.2

theorem Kept.init (S : Nat) : Kept S World.init 0 where
  stored := .empty
  window := Nat.zero_le _
  memory _ h := nomatch h
  readers _ h := nomatch h

theorem db_new {db : Database} {historySize : Int} {p : PebbleKVS}
    (h : PebbleKVS.new db historySize = .ok p) : p.db = db := by
  unfold PebbleKVS.new at h
  obtain ⟨block, -, h⟩ := Except.of_bind_ok h
  obtain ⟨oldest, -, h⟩ := Except.of_bind_ok h
  cases h
  rfl

/-- The oldest retained block of a database. -/
theorem stored_unique {db : Database} {ref ref' : Reference} {oldest oldest' : Nat}
    (h : Stored db ref oldest) (h' : Stored db ref' oldest') : oldest = oldest' := by
  obtain ⟨found, hread⟩ := h.readMeta_oldest
  obtain ⟨found', hread'⟩ := h'.readMeta_oldest
  cases hread.symm.trans hread'
  rfl

theorem oldestAfter_window {p : PebbleKVS} {n head : Nat} (hle : head ≤ n)
    (hwindow : p.oldestRetained ≤ head - p.historySize) :
    p.oldestRetained ≤ p.oldestAfter n ∧ p.oldestAfter n ≤ n - p.historySize := by
  have hcut := p.cutoff_le n
  unfold PebbleKVS.oldestAfter
  split
  next => exact ⟨le_rfl, by omega⟩
  next hbig => exact ⟨le_max_left _ _, max_le (by omega) (by omega)⟩

variable {S oldest : Nat} {w w' : World} {p p' : PebbleKVS}

/-- A store that runs. -/
theorem Kept.of_running (hstore : w.store = .running p) (hstored : Stored p.db w.ref oldest)
    (hwindow : oldest ≤ w.ref.head.getD 0 - S) (hold : p.oldestRetained = oldest)
    (hsize : p.historySize = S) (hreaders : ∀ r ∈ p.openReaders, 0 < r.2) : Kept S w oldest where
  stored := by
    rw [hstore]
    exact hstored
  window := hwindow
  memory q hq := by
    cases hstore.symm.trans hq
    exact ⟨hold, hsize⟩
  readers q hq := by
    cases hstore.symm.trans hq
    exact hreaders

theorem Kept.stored_db (h : Kept S w oldest) (hstore : w.store = .running p) :
    Stored p.db w.ref oldest := by
  have hstored := h.stored
  rw [hstore] at hstored
  exact hstored

theorem Kept.handle (h : Kept S w oldest) (hinv : w.Inv) (hstore : w.store = .running p)
    {b : Block} (hfits : BlockFits w.ref.log b)
    (hsize : ∀ q, StoreState.running (match p.handle b with
        | .ok p' => p'
        | .error _ => p) = .running q → q.historySize = S) :
    ∃ oldest', oldest ≤ oldest' ∧ Kept S { w with
      store := .running (match p.handle b with
        | .ok p' => p'
        | .error _ => p)
      ref := w.ref.handle b } oldest' := by
  obtain ⟨hold, hS⟩ := h.memory p hstore
  rcases (hinv.running p hstore).handle hfits with
    ⟨href, hsame⟩ | ⟨q, hq, hqinv, hreaders, hqold, hpast, hnext⟩
  · have hp : (match p.handle b with
        | .ok p' => p'
        | .error _ => p) = p := by
      cases hcase : p.handle b with
      | ok p' => exact hsame p' hcase
      | error err => rfl
    rw [hp, href]
    exact ⟨oldest, le_rfl, .of_running rfl (h.stored_db hstore) h.window hold hS
      (h.readers p hstore)⟩
  · rw [hq] at hsize ⊢
    have hwindow := h.window
    have hle : w.ref.head.getD 0 ≤ b.number := by
      cases hhead : w.ref.head with
      | none => exact Nat.zero_le _
      | some head => exact (hpast head hhead).le
    rw [← hold, ← hS] at hwindow
    obtain ⟨hmono, hbound⟩ := oldestAfter_window hle hwindow
    rw [← hqold] at hmono hbound
    refine ⟨q.oldestRetained, hold ▸ hmono,
      .of_running rfl hqinv.stored ?_ rfl (hsize q rfl) (hreaders ▸ h.readers p hstore)⟩
    rw [hnext, ← hS]
    exact hbound

theorem Kept.newSnapshot (h : Kept S w oldest) (hstore : w.store = .running p)
    {blockNumber : Option Nat} {s : PebbleSnapshot}
    (hnew : p.newSnapshot blockNumber = .ok (p', s)) :
    Kept S { w with
      store := .running p'
      snapshots := w.snapshots ++ [⟨s, w.session, w.ref.head.isSome⟩] } oldest := by
  obtain ⟨hold, hS⟩ := h.memory p hstore
  have hstored := h.stored_db hstore
  obtain ⟨height, -, -, -, rfl⟩ := newSnapshot_ok hnew
  refine .of_running rfl hstored h.window hold hS fun r hr => ?_
  rcases ListMap.mem_upsert hr with rfl | hr
  · exact Nat.succ_pos _
  · exact h.readers p hstore r hr

/-- A release leaves counted readers only. -/
theorem releaseReader_pos {bn : Nat} (h : ∀ r ∈ p.openReaders, 0 < r.2) :
    ∀ r ∈ (p.releaseReader bn).openReaders, 0 < r.2 := by
  intro r hr
  unfold PebbleKVS.releaseReader at hr
  dsimp only at hr
  split at hr
  next hmany =>
    rcases ListMap.mem_upsert hr with rfl | hr
    · exact Nat.sub_pos_of_lt hmany
    · exact h r hr
  next => exact h r (List.mem_of_mem_filter hr)

theorem Kept.close (h : Kept S w oldest) (hstore : w.store = .running p) {i : Nat} (o : Opened) :
    Kept S { w with
      store := .running (p.closeSnapshot o.snap).1
      snapshots := w.snapshots.set i { o with snap := (p.closeSnapshot o.snap).2 } } oldest := by
  obtain ⟨hold, hS⟩ := h.memory p hstore
  have hstored := h.stored_db hstore
  unfold PebbleKVS.closeSnapshot
  split
  next => exact .of_running rfl hstored h.window hold hS (h.readers p hstore)
  next => exact .of_running rfl hstored h.window hold hS (releaseReader_pos (h.readers p hstore))

/-- One step keeps the window and does not move the oldest block back. -/
theorem Kept.step (h : Kept S w oldest) (hinv : w.Inv) (hstep : Step w w')
    (hsize : ∀ p, w'.store = .running p → p.historySize = S) :
    ∃ oldest', oldest ≤ oldest' ∧ Kept S w' oldest' := by
  cases hstep with
  | handle hstore b hfits => exact h.handle hinv hstore hfits hsize
  | newSnapshot hstore blockNumber hnew => exact ⟨oldest, le_rfl, h.newSnapshot hstore hnew⟩
  | close hstore hi hsession => exact ⟨oldest, le_rfl, h.close hstore _⟩
  | closeLeftOver hi hsession => exact ⟨oldest, le_rfl, h.stored, h.window, h.memory, h.readers⟩
  | closeStore hstore =>
      exact ⟨oldest, le_rfl, h.stored_db hstore, h.window, fun _ hq => (nomatch hq),
        fun _ hq => nomatch hq⟩
  | @openStore db p hstore historySize _ hnew =>
      have hstored := h.stored
      rw [hstore] at hstored
      obtain ⟨q, hq, hqinv, hreaders⟩ := hstored.open historySize
      cases hnew.symm.trans hq
      have hdb : Stored p.db w.ref oldest := by
        rw [db_new hnew]
        exact hstored
      refine ⟨oldest, le_rfl, .of_running rfl hdb h.window (stored_unique hqinv.stored hdb)
        (hsize p rfl) ?_⟩
      rw [hreaders]
      exact fun r hr => nomatch hr

theorem Kept.steps (h : Kept S w oldest) (hinv : w.Inv) (hrun : StepsAt S w w') :
    ∃ oldest', oldest ≤ oldest' ∧ Kept S w' oldest' := by
  induction hrun with
  | refl => exact ⟨oldest, le_rfl, h⟩
  | tail hrun hstep hsize ih =>
      obtain ⟨oldest₁, hle₁, h₁⟩ := ih
      obtain ⟨oldest₂, hle₂, h₂⟩ := h₁.step (hinv.steps hrun.steps) hstep hsize
      exact ⟨oldest₂, hle₁.trans hle₂, h₂⟩

/-! ## Commits with no reader open -/

/-- No snapshot of the store that runs is open. -/
def NoReaders (w : World) : Prop :=
  ∀ o ∈ w.snapshots, o.session = w.session → o.snap.closed = true

theorem openReaders_nil (h : Kept S w oldest) (hinv : w.Inv) (hstore : w.store = .running p)
    (hnone : w.NoReaders) : p.openReaders = [] := by
  refine List.eq_nil_iff_forall_not_mem.mpr fun r hr => ?_
  have hcount : readersAt p.openReaders r.1 = 0 := by
    rw [hinv.pins p hstore]
    refine List.countP_eq_zero.mpr fun o ho => ?_
    by_cases hsession : o.session = w.session
    · simp [hnone o ho hsession]
    · simp [hsession]
  unfold readersAt at hcount
  cases hfind : p.openReaders.find? fun r' => r'.1 = r.1 with
  | none => exact absurd (List.find?_eq_none.mp hfind r hr) (by simp)
  | some r' =>
      rw [hfind] at hcount
      exact absurd hcount (h.readers p hstore r' (List.mem_of_find?_eq_some hfind)).ne'

/-- Without pins, pruning goes up to the window. -/
theorem window_le_oldestAfter {n : Nat} (hnil : p.openReaders = []) (hn : n < 2 ^ 64) :
    n - p.historySize ≤ p.oldestAfter n := by
  have hcut : p.cutoff n = n - p.historySize - 1 := by
    have hlow : lowestPinned p.openReaders = 2 ^ 64 - 1 := by rw [hnil]; rfl
    unfold PebbleKVS.cutoff
    dsimp only
    rw [hlow, if_neg (by omega)]
  unfold PebbleKVS.oldestAfter
  split
  next => omega
  next =>
    rw [hcut]
    omega

/-- The heights of the window are read. -/
theorem Kept.newSnapshot_window (h : Kept S w oldest) (hinv : w.Inv)
    (hstore : w.store = .running p) {n : Nat} (hlow : p.currentBlock ≤ n + S)
    (hhigh : n ≤ p.currentBlock) :
    ∃ p', p.newSnapshot (some n) = .ok (p', { lastBlock := n }) := by
  have hpinned : pinnedHeight p.currentBlock (some n) = n := by
    rw [pinnedHeight]
    split
    next => rfl
    next hge => exact le_antisymm (not_lt.mp hge) hhigh
  have hold : ¬ n < p.oldestRetained := by
    have hwindow := h.window
    rw [← (hinv.running p hstore).current] at hwindow
    rw [(h.memory p hstore).1]
    omega
  unfold PebbleKVS.newSnapshot
  dsimp only
  rw [hpinned, if_neg hold]
  exact ⟨_, rfl⟩

/-- What a commit with no reader open leaves of the history. -/
theorem Kept.commit (h : Kept S w oldest) (hinv : w.Inv) (hstore : w.store = .running p)
    {b : Block} (hfits : BlockFits w.ref.log b)
    (hpast : ∀ head, w.ref.head = some head → head < b.number) (hnone : w.NoReaders) :
    ∃ p', p.handle b = .ok p' ∧ p'.currentBlock = b.number ∧
      ∀ k ∈ historyKeys p'.db, ∃ e : Retained, k = e.histKey ∧
        Superseded (w.ref.handle b).log e.key e.record e.block ∧ b.number < e.block + S + 1 := by
  rcases (hinv.running p hstore).handle hfits with
    ⟨href, -⟩ | ⟨q, hq, hqinv, -, hqold, -, hnext⟩
  · -- the block is past the head
    exfalso
    rw [Reference.handle] at href
    cases hhead : w.ref.head with
    | none =>
        rw [hhead] at href
        cases hhead.symm.trans (congrArg Reference.head href).symm
    | some head =>
        rw [hhead] at href
        dsimp only at href
        rw [if_neg (not_le.mpr (hpast head hhead))] at href
        have := hhead.symm.trans (congrArg Reference.head href).symm
        exact (hpast head hhead).ne (Option.some.inj this)
  · refine ⟨q, hq, ?_, fun k hk => ?_⟩
    · rw [hqinv.current, hnext]
      rfl
    · obtain ⟨e, ⟨hsup, hold⟩, rfl⟩ := (mem_historyKeys hqinv.stored).mp hk
      have hprune := window_le_oldestAfter (openReaders_nil h hinv hstore hnone) hfits.number
      rw [← hqold, (h.memory p hstore).2] at hprune
      exact ⟨e, rfl, hsup, by omega⟩

end World

/-- In every run with history size `S`: the heights of the window are admitted; the oldest
retained block does not go back, and memory and database agree on it; index and history
correspond; and a commit with no reader open leaves nothing superseded before the window. -/
theorem window_kept {S : Nat} {w₀ w : World} (h₀ : World.init.StepsAt S w₀)
    (hrun : w₀.StepsAt S w) :
    (∀ p, w.store = .running p → ∀ n, p.currentBlock ≤ n + S → n ≤ p.currentBlock →
      ∃ p', p.newSnapshot (some n) = .ok (p', { lastBlock := n })) ∧
    (∃ oldest₀ oldest found₀ found,
      readMeta w₀.store.db metaOldestKey = .ok (oldest₀, found₀) ∧
      readMeta w.store.db metaOldestKey = .ok (oldest, found) ∧ oldest₀ ≤ oldest ∧
      (∀ p, w₀.store = .running p → p.oldestRetained = oldest₀) ∧
      ∀ p, w.store = .running p → p.oldestRetained = oldest) ∧
    Set.BijOn namedKey (indexKeys w.store.db) (historyKeys w.store.db) ∧
    ∀ p b, w.store = .running p → BlockFits w.ref.log b →
      (∀ head, w.ref.head = some head → head < b.number) → w.NoReaders →
      ∃ p', p.handle b = .ok p' ∧ p'.currentBlock = b.number ∧
        ∀ k ∈ historyKeys p'.db, ∃ e : Retained, k = e.histKey ∧
          Superseded (w.ref.handle b).log e.key e.record e.block ∧
          b.number < e.block + S + 1 := by
  have hinv₀ := World.Inv.init.steps h₀.steps
  have hinv := hinv₀.steps hrun.steps
  obtain ⟨oldest₀, -, hkept₀⟩ := (World.Kept.init S).steps World.Inv.init h₀
  obtain ⟨oldest, hle, hkept⟩ := hkept₀.steps hinv₀ hrun
  obtain ⟨found₀, hread₀⟩ := hkept₀.stored.readMeta_oldest
  obtain ⟨found, hread⟩ := hkept.stored.readMeta_oldest
  refine ⟨fun p hp n hlow hhigh => hkept.newSnapshot_window hinv hp hlow hhigh, ?_,
    hkept.stored.index_bijOn, fun p b hp hfits hpast hnone => hkept.commit hinv hp hfits hpast hnone⟩
  exact ⟨oldest₀, oldest, found₀, found, hread₀, hread, hle,
    fun p hp => (hkept₀.memory p hp).1, fun p hp => (hkept.memory p hp).1⟩

theorem historySize_handle {p p' : PebbleKVS} {b : Block} (h : p.handle b = .ok p') :
    p'.historySize = p.historySize := by
  unfold PebbleKVS.handle PebbleKVS.commitBlock at h
  split at h
  next =>
    split at h
    next => rw [← Except.ok.inj h]
    next =>
      obtain ⟨_, -, h⟩ := Except.of_bind_ok h
      rw [← Except.ok.inj h]
  next =>
    obtain ⟨staged, -, h⟩ := Except.of_bind_ok h
    obtain ⟨pruned, -, h⟩ := Except.of_bind_ok h
    rw [← Except.ok.inj h]

/-- A run goes on with a block of one write. -/
theorem World.StepsAt.handleTouch {S : Nat} {w w' : World} (h : w.StepsAt S w') {p : PebbleKVS}
    (hstore : w'.store = .running p) (hsize : p.historySize = S) (ref : Reference)
    (href : w'.ref = ref) (n : Nat) (hn : n < 2 ^ 64) (hlog : ref.log.length < 2 ^ 64 - 1) :
    ∃ w'' p', w.StepsAt S w'' ∧ w''.store = .running p' ∧ p'.historySize = S ∧
      w''.snapshots = w'.snapshots ∧ w''.ref = ref.handle (touch n) := by
  subst href
  have hkeep : (match p.handle (touch n) with
      | .ok p' => p'
      | .error _ => p).historySize = S := by
    cases hcase : p.handle (touch n) with
    | ok p' => exact (historySize_handle hcase).trans hsize
    | error err => exact hsize
  refine ⟨_, _, h.tail (.handle hstore (touch n) (touch_fits hn hlog)) fun q hq => ?_, rfl, hkeep,
    rfl, rfl⟩
  cases hq
  exact hkeep

/-- With a window of one block, after blocks 1, 2 and 4: heights 3 and 4 are admitted, and
block 6 leaves nothing that was superseded before block 5. -/
theorem window_kept_gapped :
    ∃ (w : World) (p p' : PebbleKVS), World.init.StepsAt 1 w ∧ w.store = .running p ∧
      w.ref.head = some 4 ∧ (∃ q, p.newSnapshot (some 3) = .ok (q, { lastBlock := 3 })) ∧
      p.handle (touch 6) = .ok p' ∧
      ∀ k ∈ historyKeys p'.db, ∃ e : Retained, k = e.histKey ∧ 5 ≤ e.block := by
  obtain ⟨p, hp, -, -⟩ := Stored.empty.open 1
  have hsize : p.historySize = 1 := by
    unfold PebbleKVS.new at hp
    cases hp
    rfl
  have hopen : World.init.StepsAt 1 { store := .running p, session := 1 } :=
    World.StepsAt.refl.tail (.openStore rfl 1 (le_refl 1) hp) fun q hq => by cases hq; exact hsize
  obtain ⟨w₁, p₁, h₁, hp₁, hs₁, hsn₁, hr₁⟩ :=
    hopen.handleTouch rfl hsize {} rfl 1 (by decide) (by decide)
  obtain ⟨w₂, p₂, h₂, hp₂, hs₂, hsn₂, hr₂⟩ := h₁.handleTouch hp₁ hs₁ _ hr₁ 2 (by decide) (by decide)
  obtain ⟨w₄, p₄, h₄, hp₄, hs₄, hsn₄, hr₄⟩ := h₂.handleTouch hp₂ hs₂ _ hr₂ 4 (by decide) (by decide)
  obtain ⟨hadmitted, -, -, hcommit⟩ := window_kept h₄ .refl
  have hhead : w₄.ref.head = some 4 := by rw [hr₄]; rfl
  have hcurrent : p₄.currentBlock = 4 := by
    rw [((World.Inv.init.steps h₄.steps).running p₄ hp₄).current, hhead]
    rfl
  obtain ⟨p', hp', -, hleft⟩ := hcommit p₄ (touch 6) hp₄
    (touch_fits (by decide) (by rw [hr₄]; decide))
    (fun head h => by cases hhead.symm.trans h; decide)
    (fun o ho => by rw [hsn₄, hsn₂, hsn₁] at ho; cases ho)
  refine ⟨w₄, p₄, p', h₄, hp₄, hhead, hadmitted p₄ hp₄ 3 (by rw [hcurrent]) (by rw [hcurrent]; decide),
    hp', fun k hk => ?_⟩
  obtain ⟨e, he, -, hlt⟩ := hleft k hk
  refine ⟨e, he, ?_⟩
  change 6 < e.block + 1 + 1 at hlt
  omega

end Storage
