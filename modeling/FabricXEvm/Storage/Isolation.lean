import FabricXEvm.Execution.StoreView
import FabricXEvm.Storage.PebbleRuns
import FabricXEvm.Storage.Replay

/-!
# Simulations on the pebble store

An endorser simulates a transaction, or answers a call, on a snapshot of its store.  Each read
goes to the database at that moment.  Meanwhile blocks are committed, history is pruned, and
other simulations open and close snapshots of their own.

The simulation notices none of it.  It ends as it does on the fixed state as of the height of
its snapshot, the one that `LightKVS` would hand out (`Simulated.isolated`).
-/

namespace Storage

open Blocks Execution

/-- A backing whose store gives these answers. -/
def Config.on (cfg : Config) (answers : ReadStore) : Backing where
  keccak := cfg.keccak
  ns := cfg.ns
  store := answers
  monotonicVersions := cfg.monotonicVersions

/-- `resolveStateBlockRef`: the height that a call asks for.  No number and a negative one are the
latest, and `Uint64` keeps the low 64 bits. -/
def resolveStateBlockRef : Option Int → Option Nat
  | none => none
  | some blockNumber => if blockNumber < 0 then none else some (blockNumber.toNat % 2 ^ 64)

section Simulations

variable {α : Type} (cfg : Config) (text : GetError → StoreError) (i : Nat) (o : Opened)

/-- What reads of the snapshot at `i` may answer between two states of the world.  The two parts
of each read see states of their own, while the snapshot is live. -/
def Answers (w w' : World) (answers : ReadStore) : Prop :=
  ∀ ns key, ∃ w₁ w₂, w.Steps w₁ ∧ w₁.Steps w₂ ∧ w₂.Steps w' ∧ w₂.snapshots[i]? = some o ∧
    o.Live w₂ ∧ answers ns key = (o.snap.getAcross w₁.store.db w₂.store.db ns key).mapError text

/-- A caller on a `StateDB` over the snapshot, in a world that goes on during and between its
operations. -/
inductive Simulated :
    World → Caller α → StateDB → Except Panic (α × List Step × StateDB) → Prop where
  | done {w : World} {a : α} {s : StateDB} : Simulated w (.done a) s (.ok (a, [], s))
  | panic {w w' : World} {answers : ReadStore} {op : Op} {next : Ret → Caller α} {s : StateDB}
      {p : Panic} (hrun : w.Steps w') (hreads : Answers text i o w w' answers)
      (hop : op.exec (cfg.on answers) s = .error p) : Simulated w (.call op next) s (.error p)
  | call {w w' : World} {answers : ReadStore} {op : Op} {next : Ret → Caller α} {s s' : StateDB}
      {r : Ret} {outcome : Except Panic (α × List Step × StateDB)} (hrun : w.Steps w')
      (hreads : Answers text i o w w' answers) (hop : op.exec (cfg.on answers) s = .ok (r, s'))
      (hrest : Simulated w' (next r) s' outcome) :
      Simulated w (.call op next) s
        (outcome.map fun out => (out.1, ⟨op, r, s, s'⟩ :: out.2.1, out.2.2))

end Simulations

/-! ## The state as of a height -/

/-- The snapshot's height was reached. -/
def World.Reached (w : World) (height : Nat) : Prop :=
  ∃ head, w.ref.head = some head ∧ height ≤ head

section Fixed

variable {w w' : World} {height : Nat}

/-- Later blocks do not change the state as of a height that was reached. -/
theorem World.Steps.recordAsOf_eq (hrun : w.Steps w') (hreached : w.Reached height) :
    recordAsOf w'.ref.log height = recordAsOf w.ref.log height := by
  obtain ⟨head, hhead, hle⟩ := hreached
  obtain ⟨-, -, -, us, hlog, hus⟩ := hrun.later head hhead
  funext key
  rw [Storage.recordAsOf_eq, Storage.recordAsOf_eq, hlog]
  exact recordBefore_append fun u hu => hle.trans_lt (hus u hu)

theorem World.Reached.steps (hreached : w.Reached height) (hrun : w.Steps w') :
    w'.Reached height := by
  obtain ⟨head, hhead, hle⟩ := hreached
  obtain ⟨head', hhead', hle', -⟩ := hrun.later head hhead
  exact ⟨head', hhead', hle.trans hle'⟩

theorem World.Steps.trans {w'' : World} (hrun : w.Steps w') (hrun' : w'.Steps w'') :
    w.Steps w'' := by
  induction hrun' with
  | refl => exact hrun
  | tail _ hstep ih => exact ih.tail hstep

theorem World.Reached.lt (hreached : w.Reached height) (hinv : w.Inv) : height < 2 ^ 64 := by
  obtain ⟨head, hhead, hle⟩ := hreached
  obtain ⟨oldest, hstored⟩ := hinv.stored
  have hhead64 := hstored.head
  rw [hhead, Option.getD_some] at hhead64
  exact hle.trans_lt hhead64

variable {cfg : Config} {text : GetError → StoreError} {i : Nat} {o : Opened}

/-- Whatever the world does, a read answers as the state as of the height of its snapshot. -/
theorem Answers.eq_record {answers : ReadStore} (h : Answers text i o w w' answers)
    (hinv : w.Inv) (hreached : w.Reached o.snap.lastBlock) {ns key : Bytes}
    (hkey : (fullKey ns key).length < 2 ^ 32) :
    answers ns key = .ok (record (recordAsOf w.ref.log o.snap.lastBlock) ns key) := by
  obtain ⟨w₁, w₂, h₁, h₂, -, hi, hlive, hanswer⟩ := h ns key
  have hreached₁ := hreached.steps h₁
  obtain ⟨head, hhead, hle⟩ := id hreached₁
  obtain ⟨-, -, -, us, hlog, hus⟩ := h₂.later head hhead
  have hinv₁ := hinv.steps h₁
  have hget := (hinv₁.getAcross (hinv₁.steps h₂) (List.mem_of_getElem? hi) hlive
    (hreached₁.lt hinv₁) hlog (fun u hu => hle.trans_lt (hus u hu)) hkey).1
  rw [hanswer, hget, h₂.recordAsOf_eq hreached₁, h₁.recordAsOf_eq hreached]
  rfl

/-- The answers during an operation look like the fixed state. -/
theorem Answers.sameView {answers : ReadStore} (h : Answers text i o w w' answers)
    (hinv : w.Inv) (hreached : w.Reached o.snap.lastBlock)
    (hns : cfg.ns.length + 1 + longestKey < 2 ^ 32) :
    SameView (cfg.on answers) (cfg.backing (recordAsOf w.ref.log o.snap.lastBlock)) := by
  refine ⟨rfl, rfl, rfl, fun key hkey => ?_⟩
  have hfull : (fullKey cfg.ns key).length < 2 ^ 32 := by
    have hlen : (fullKey cfg.ns key).length = cfg.ns.length + 1 + key.length := by
      rw [fullKey, List.length_append, List.length_append]
      rfl
    omega
  change (answers cfg.ns key).map _ = _
  rw [h.eq_record hinv hreached hfull]
  rfl

/-- A simulation ends as on the fixed state. -/
theorem Simulated.eq_run {α : Type} {c : Caller α} {s : StateDB}
    {outcome : Except Panic (α × List Step × StateDB)}
    (h : Simulated cfg text i o w c s outcome) (hinv : w.Inv)
    (hreached : w.Reached o.snap.lastBlock) (hns : cfg.ns.length + 1 + longestKey < 2 ^ 32) :
    outcome = c.run (cfg.backing (recordAsOf w.ref.log o.snap.lastBlock)) s := by
  induction h with
  | done => rfl
  | panic hrun hreads hop =>
      rw [Op.same_exec (hreads.sameView hinv hreached hns)] at hop
      simp only [Caller.run, hop]
  | call hrun hreads hop _ ih =>
      rw [Op.same_exec (hreads.sameView hinv hreached hns)] at hop
      rw [ih (hinv.steps hrun) (hreached.steps hrun), hrun.recordAsOf_eq hreached]
      simp only [Caller.run, hop]
      generalize Caller.run _ _ _ = rest
      cases rest with
      | error p => rfl
      | ok out => rfl

/-- A simulation on a snapshot that a running store hands out, at the latest block or at an older
one, ends as on the state as of the height of the snapshot.  That state is the same ever since
the height was reached, so a call of a past block has the same answer at any time later. -/
theorem Simulated.isolated {α : Type} {c : Caller α} {w₀ : World} {p p' : PebbleKVS}
    {snap : PebbleSnapshot} {blockNumber : Option Int}
    {outcome : Except Panic (α × List Step × StateDB)} (hw : w₀.Reachable) (hrun : w₀.Steps w)
    (hstore : w.store = .running p)
    (hnew : p.newSnapshot (resolveStateBlockRef blockNumber) = .ok (p', snap))
    (hreached : w₀.Reached snap.lastBlock) (hns : cfg.ns.length + 1 + longestKey < 2 ^ 32)
    (h : Simulated cfg text w.snapshots.length ⟨snap, w.session, w.ref.head.isSome⟩
      { w with
        store := .running p'
        snapshots := w.snapshots ++ [⟨snap, w.session, w.ref.head.isSome⟩] } c .new outcome) :
    snap.lastBlock = pinnedHeight (w.ref.head.getD 0) (resolveStateBlockRef blockNumber) ∧
      outcome = c.run (cfg.backing (recordAsOf w₀.ref.log snap.lastBlock)) .new := by
  have hinv := World.Inv.init.steps (World.Steps.trans hw hrun)
  refine ⟨?_, ?_⟩
  · rw [← (hinv.running p hstore).current]
    unfold PebbleKVS.newSnapshot at hnew
    dsimp only at hnew
    split at hnew
    next => cases hnew
    next => cases hnew; rfl
  · rw [← hrun.recordAsOf_eq hreached]
    exact h.eq_run (hinv.newSnapshot hstore hnew) (hreached.steps (hrun.tail (.newSnapshot hstore _ hnew)))
      hns

end Fixed

/-! ### A call of block 1 -/

/-- An operation whose reads all see one state of the database. -/
theorem Simulated.call_at {α : Type} {cfg : Config} {text : GetError → StoreError} {i : Nat}
    {o : Opened} {w w' : World} (hinv : w.Inv) (hreached : w.Reached o.snap.lastBlock)
    (hns : cfg.ns.length + 1 + longestKey < 2 ^ 32) (hrun : w.Steps w')
    (hi : w'.snapshots[i]? = some o) (hlive : o.Live w') {op : Op} {next : Ret → Caller α}
    {s s' : StateDB} {r : Ret} {outcome : Except Panic (α × List Step × StateDB)}
    (hop : op.exec (cfg.backing (recordAsOf w.ref.log o.snap.lastBlock)) s = .ok (r, s'))
    (hrest : Simulated cfg text i o w' (next r) s' outcome) :
    Simulated cfg text i o w (.call op next) s
      (outcome.map fun out => (out.1, ⟨op, r, s, s'⟩ :: out.2.1, out.2.2)) := by
  have hreads : Answers text i o w w' fun ns key =>
      (o.snap.getAcross w'.store.db w'.store.db ns key).mapError text :=
    fun ns key => ⟨w', w', hrun, .refl, .refl, hi, hlive, rfl⟩
  refine .call hrun hreads ?_ hrest
  rw [Op.same_exec (hreads.sameView hinv hreached hns)]
  exact hop

def evmConfig : Config := ⟨fun _ => 0, ascii "evm", true⟩

def nonceOf (addr : Address) : Caller Ret := .call (.getNonce addr) .done

/-- The nonce is read at block 1 after block 3, with a window of one block. -/
theorem Simulated.isolated_nonceOf : ∃ (w : World) (p p' : PebbleKVS) (snap : PebbleSnapshot)
    (outcome : Except Panic (Ret × List Step × StateDB)),
    w.Reachable ∧ w.store = .running p ∧ p.newSnapshot none = .ok (p', snap) ∧
      Simulated evmConfig (fun _ => "") w.snapshots.length ⟨snap, w.session, w.ref.head.isSome⟩
        { w with
          store := .running p'
          snapshots := w.snapshots ++ [⟨snap, w.session, w.ref.head.isSome⟩] }
        (nonceOf 7) .new outcome ∧
      snap.lastBlock = 1 ∧
      outcome = (nonceOf 7).run (evmConfig.backing (recordAsOf w.ref.log 1)) .new := by
  obtain ⟨p, hp, -, -⟩ := Stored.empty.open 1
  have hopen : World.Reachable { store := .running p, session := 1 } :=
    World.Steps.refl.tail (.openStore rfl 1 (le_refl 1) hp)
  obtain ⟨w, p₁, h₁, hp₁, -, -, hr₁⟩ := hopen.handleTouch rfl {} rfl 1 (by decide) (by decide)
  have hinv := World.Inv.init.steps h₁
  obtain ⟨q, hq⟩ := (hinv.running p₁ hp₁).newSnapshot_none
  have hhead : w.ref.head = some 1 := by rw [hr₁]; rfl
  rw [hhead, Option.getD_some] at hq
  have hreached : w.Reached 1 := ⟨1, hhead, le_refl 1⟩
  have hns : evmConfig.ns.length + 1 + longestKey < 2 ^ 32 := by decide
  let o : Opened := ⟨{ lastBlock := 1 }, w.session, w.ref.head.isSome⟩
  let w₁ : World := { w with store := .running q, snapshots := w.snapshots ++ [o] }
  have href₁ : w₁.ref = ({} : Reference).handle (touch 1) := hr₁
  obtain ⟨w₂, p₂, h₂, hp₂, hs₂, hsn₂, hr₂⟩ :=
    World.Steps.refl.handleTouch (w := w₁) rfl _ href₁ 2 (by decide) (by decide)
  obtain ⟨w₃, p₃, h₃, hp₃, hs₃, hsn₃, -⟩ := h₂.handleTouch hp₂ _ hr₂ 3 (by decide) (by decide)
  obtain ⟨r, s, hop⟩ : ∃ r s, (Op.getNonce 7).exec
      (evmConfig.backing (recordAsOf w₁.ref.log o.snap.lastBlock)) .new = .ok (r, s) := by
    rw [href₁]
    exact ⟨_, _, rfl⟩
  have hi : w₃.snapshots[w.snapshots.length]? = some o := by
    rw [hsn₃, hsn₂]
    exact List.getElem?_concat_length
  have hreached₁ : w₁.Reached o.snap.lastBlock := hreached
  obtain ⟨outcome, hsim⟩ : ∃ outcome,
      Simulated evmConfig (fun _ => "") w.snapshots.length o w₁ (nonceOf 7) .new outcome :=
    ⟨_, .call_at (hinv.newSnapshot hp₁ hq) hreached₁ hns h₃ hi
      ⟨(hs₃.trans hs₂).symm, rfl, p₃, hp₃⟩ hop .done⟩
  have hnew : p₁.newSnapshot (resolveStateBlockRef none) = .ok (q, { lastBlock := 1 }) := hq
  exact ⟨w, p₁, q, _, _, h₁, hp₁, hq, hsim, rfl,
    (Simulated.isolated h₁ .refl hp₁ hnew hreached hns hsim).2⟩

end Storage
