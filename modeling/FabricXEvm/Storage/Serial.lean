import FabricXEvm.Execution.StoreView
import FabricXEvm.Storage.Replay

/-!
# Serializability

Transactions are simulated on committed states that may be old when they commit.  The ledger
is still what a serial execution gives: each valid transaction run on the ledger that the
ones before it left, one at a time and in commit order (`Serial`).

When a transaction is valid, the versions it read are the current ones, and a version
determines a value.  So the ledger at its commit shows it the same as the one it was
simulated on, and a simulation there would have ended with the same read-write set.

The ledger checks only the reads of the endorsement.  The reads that a reverted frame took
back are not among them, so that they are still current is a condition on the run.
-/

namespace Storage

open Blocks Execution Execution.StateDB

/-! ## Executors that do not look at the previous value of a slot -/

section Blind

variable {α β τ μ : Type}

theorem blind_bind {c : Caller α} (hc : c.Blind) {f : α → Caller β} (hf : ∀ a, (f a).Blind) :
    (c.bind f).Blind := by
  induction hc with
  | done a => exact hf a
  | call _ hset ih => exact .call ih fun a slot v hop r r' => by rw [hset a slot v hop r r']

theorem blind_prepareMessage (h : Executor τ μ) (tx : τ) : (h.prepareMessage tx).Blind := by
  unfold Executor.prepareMessage
  split
  next => exact .done _
  next =>
    refine .call (fun r => ?_) (by simp)
    split
    next =>
      split
      next => exact .done _
      next => split <;> exact .done _
    next => exact .done _

/-- `Send` looks at a previous value only if go-ethereum does. -/
theorem blind_send {h : Executor τ μ} (hblind : ∀ msg, (h.geth.applyMessage msg).Blind) (tx : τ) :
    (h.send tx).Blind := by
  refine blind_bind (blind_prepareMessage h tx) fun prepared => ?_
  cases prepared with
  | error err => exact .done _
  | ok msg =>
      refine .call (fun snapshot => ?_) (by simp)
      refine blind_bind (hblind _) fun result => ?_
      cases result with
      | error err => exact .call (fun _ => .done _) (by simp)
      | ok result => exact .done _

end Blind

/-! ## The reads of a simulation -/

theorem entriesOk_new (env : Backing) : EntriesOk env .new := fun _ he => by cases he

/-- Every read of a run is one of the store, also those that were taken back. -/
theorem read_of_trace {env : Backing} {s t : StateDB} {steps : List Step}
    (htrace : Trace env s steps t) (hs : EntriesOk env s) {r : KVRead}
    (hr : r ∈ t.result.reads ++ discardedReads steps) :
    ∃ record, env.store env.ns r.key = .ok record ∧
      r = readOf env.monotonicVersions r.key record := by
  induction htrace with
  | nil =>
      rw [discardedReads, List.flatMap_nil, List.append_nil] at hr
      obtain ⟨op, hok⟩ := hs _ (mem_of_mem_reads hr)
      exact hok
  | @cons op ret s s' t steps hop _ ih =>
      simp only [discardedReads, List.flatMap_cons, List.mem_append] at hr ih
      rcases hr with hend | hcut | hlater
      · exact ih (hs.exec hop) (.inl hend)
      · obtain ⟨op, hok⟩ := hs _ (List.mem_of_mem_drop (mem_readEntries.mp hcut))
        exact hok
      · exact ih (hs.exec hop) (.inr hlater)

/-- The deletes of a read-write set carry no value. -/
theorem tombstones_result {env : Backing} {t : StateDB} (ht : EntriesOk env t) {w : KVWrite}
    (hw : w ∈ t.result.writes) (hdel : w.isDelete = true) : w.value = none := by
  obtain ⟨op, hok⟩ := ht _ (mem_of_mem_writes hw)
  obtain ⟨val, hval⟩ := Op.MayWrite.eq_writeOf hok
  rw [hval, writeOf] at hdel ⊢
  split at hdel
  next h => rw [if_pos h]
  next => cases hdel

/-! ## What the ledger shows -/

section Views

variable {cfg : Config} {data data' : Data} {stamp stamp' : Version} {key : Bytes}

theorem DataOk.probed_record (hd : DataOk data stamp) (ns key : Bytes) :
    probed (record data ns key) = wordOf (valueOf data ns key) := by
  rw [valueOf_eq]
  unfold record
  cases he : data (fullKey ns key) with
  | none => rfl
  | some e =>
      simp only [Option.map_some, Option.bind_some, probed]
      split
      next hdel =>
        rw [hd.tombstones he hdel]
        rfl
      next => rfl

/-- Along the history of the ledger, the version of a key determines what it shows. -/
theorem Evolves.view_eq (h : Evolves data data') (hd : DataOk data stamp)
    (hd' : DataOk data' stamp') (hv : versionOf cfg data key = versionOf cfg data' key) :
    View.of cfg.monotonicVersions (record data cfg.ns key) =
      View.of cfg.monotonicVersions (record data' cfg.ns key) := by
  have hval := h.value_eq hd hd' hv
  have hprev : probed (record data cfg.ns key) = probed (record data' cfg.ns key) := by
    rw [hd.probed_record, hd'.probed_record, hval]
  have hver := hv
  unfold versionOf at hver
  rw [readOf_eq, readOf_eq] at hver
  exact View.ext hval hver hprev

/-- A run on an earlier ledger, all whose reads are current, is a run on the current one. -/
theorem run_on_current {α : Type} {c : Caller α} (hc : c.Blind) {a : α} {steps : List Step}
    {t : StateDB} (hrun : c.run (cfg.backing data) .new = .ok (a, steps, t))
    (h : Evolves data data') (hd : DataOk data stamp) (hd' : DataOk data' stamp')
    (hcurrent : ∀ r ∈ t.result.reads ++ discardedReads steps,
      r.version = versionOf cfg data' r.key) :
    ∃ steps', c.run (cfg.backing data') .new = .ok (a, steps', t) := by
  have hconfig : SameConfig (cfg.backing data) (cfg.backing data') :=
    ⟨rfl, rfl, rfl, fun _ => rfl⟩
  refine Caller.run_of_views hc hrun hconfig fun r hr => ?_
  obtain ⟨record, hrec, hread⟩ := read_of_trace (Caller.run_trace hrun) (entriesOk_new _) hr
  cases hrec
  have hold : r.version = versionOf cfg data r.key := congrArg KVRead.version hread
  exact congrArg Except.ok (h.view_eq hd hd' (hold.symm.trans (hcurrent r hr)))

end Views

/-! ## Runs of the network, with what their simulations took back -/

/-- An endorsement, with the reads its simulation took back. -/
structure Simulation (τ : Type) extends Endorsement τ where
  discarded : List KVRead

section Runs

variable {τ μ : Type} (h : Executor τ μ) (cfg : Config)

/-- The transaction was simulated on `data`, and not rejected. -/
structure SimulatedOn (data : Data) (sim : Simulation τ) : Prop where
  run : ∃ applied steps t, (h.send sim.tx).run (cfg.backing data) .new = .ok (applied, steps, t) ∧
    (∀ err, applied.err ≠ some (.txRejected err)) ∧ sim.rws = t.result ∧
    sim.discarded = discardedReads steps

/-- The runs of a network from the ledger `data₀`, where no valid transaction depends on a
read that was taken back and is no longer current. -/
inductive NetRun (data₀ : Data) : Network τ → List (Simulation τ) → Prop where
  | init {stamp : Version} (hdata : DataOk data₀ stamp) :
      NetRun data₀ { current := data₀, stamp } []
  | endorse {n : Network τ} {sims : List (Simulation τ)} {sim : Simulation τ} {data : Data}
      (hn : NetRun data₀ n sims) (hdata : data ∈ n.current :: n.earlier)
      (hsim : SimulatedOn h cfg data sim) :
      NetRun data₀ { n with endorsed := sim.toEndorsement :: n.endorsed } (sim :: sims)
  | commit {n : Network τ} {sims : List (Simulation τ)} {sim : Simulation τ}
      (hn : NetRun data₀ n sims) (hsim : sim ∈ sims) (stamp : Version) (txID : Bytes)
      (hstamp : before n.stamp stamp)
      (hcurrent : mvccValid cfg n.current sim.rws = true →
        ∀ r ∈ sim.discarded, r.version = versionOf cfg n.current r.key) :
      NetRun data₀ (n.commit cfg sim.toEndorsement stamp txID) sims

/-- The commits as a serial execution: each valid transaction is run on the ledger that the
ones before it left, and an invalid one does nothing. -/
inductive Serial : Data → List (Commit τ) → Data → Prop where
  | nil {data : Data} : Serial data [] data
  | valid {data data' : Data} {commits : List (Commit τ)} {tx : τ} {rws : ReadWriteSet}
      (stamp : Version) (txID : Bytes) (hrun : h.endorse (cfg.backing data) tx = .ok (some rws))
      (hrest : Serial (applyWrites cfg data stamp txID rws) commits data') :
      Serial data (⟨tx, true, data⟩ :: commits) data'
  | invalid {data data' : Data} {commits : List (Commit τ)} {tx : τ}
      (hrest : Serial data commits data') : Serial data (⟨tx, false, data⟩ :: commits) data'

variable {h cfg}

theorem Serial.append {d₁ d₂ d₃ : Data} {commits commits' : List (Commit τ)}
    (hs : Serial h cfg d₁ commits d₂) (hs' : Serial h cfg d₂ commits' d₃) :
    Serial h cfg d₁ (commits ++ commits') d₃ := by
  induction hs with
  | nil => exact hs'
  | valid stamp txID hrun _ ih => exact .valid stamp txID hrun (ih hs')
  | invalid _ ih => exact .invalid (ih hs')

/-- A simulation that was not rejected is an endorsement. -/
theorem endorse_of_run {env : Backing} {tx : τ} {applied : Applied} {steps : List Step}
    {t : StateDB} (hrun : (h.send tx).run env .new = .ok (applied, steps, t))
    (haccept : ∀ err, applied.err ≠ some (.txRejected err)) :
    h.endorse env tx = .ok (some t.result) := by
  unfold Executor.endorse
  rw [hrun]
  dsimp only
  split
  next err herr => exact absurd herr (haccept err)
  next => rfl

/-- The invariant of a run. -/
structure SerialInv (h : Executor τ μ) (cfg : Config) (data₀ : Data) (n : Network τ)
    (sims : List (Simulation τ)) : Prop where
  ledger : DataOk n.current n.stamp
  history : ∀ data ∈ n.current :: n.earlier,
    Evolves data n.current ∧ ∃ stamp, DataOk data stamp
  simulated : ∀ sim ∈ sims, ∃ data ∈ n.current :: n.earlier, SimulatedOn h cfg data sim
  serial : Serial h cfg data₀ n.commits n.current

/-- The ledger moves on to `data` with a commit that a serial execution makes too. -/
theorem SerialInv.advance {data₀ : Data} {n : Network τ} {sims : List (Simulation τ)}
    (hinv : SerialInv h cfg data₀ n sims) {data : Data} {stamp : Version} {c : Commit τ}
    (hev : Evolves n.current data) (hdata : DataOk data stamp)
    (hserial : Serial h cfg n.current [c] data) :
    SerialInv h cfg data₀ { n with
      current := data, earlier := n.current :: n.earlier, stamp, commits := n.commits ++ [c] }
      sims where
  ledger := hdata
  history d hd := by
    rcases List.mem_cons.mp hd with rfl | hd
    · exact ⟨Evolves.refl _, stamp, hdata⟩
    · exact ⟨(hinv.history d hd).1.trans hev, (hinv.history d hd).2⟩
  simulated sim hsim := by
    obtain ⟨d, hd, hrun⟩ := hinv.simulated sim hsim
    exact ⟨d, List.mem_cons_of_mem _ hd, hrun⟩
  serial := hinv.serial.append hserial

/-- A simulation on an earlier ledger that is valid now would end the same way now. -/
theorem SerialInv.rerun {data₀ : Data} {n : Network τ} {sims : List (Simulation τ)}
    (hinv : SerialInv h cfg data₀ n sims) (hblind : ∀ msg, (h.geth.applyMessage msg).Blind)
    {data : Data} (hdata : data ∈ n.current :: n.earlier) {tx : τ} {applied : Applied}
    {steps : List Step} {t : StateDB}
    (hrun : (h.send tx).run (cfg.backing data) .new = .ok (applied, steps, t))
    (hvalid : mvccValid cfg n.current t.result = true)
    (hcurrent : ∀ r ∈ discardedReads steps, r.version = versionOf cfg n.current r.key) :
    ∃ steps', (h.send tx).run (cfg.backing n.current) .new = .ok (applied, steps', t) := by
  obtain ⟨hev, stamp, hok⟩ := hinv.history data hdata
  refine run_on_current (blind_send hblind tx) hrun hev hok hinv.ledger fun r hr => ?_
  rcases List.mem_append.mp hr with hkept | hcut
  · exact eq_of_beq (List.all_eq_true.mp hvalid r hkept)
  · exact hcurrent r hcut

theorem SerialInv.commit {data₀ : Data} {n : Network τ} {sims : List (Simulation τ)}
    (hinv : SerialInv h cfg data₀ n sims) (hblind : ∀ msg, (h.geth.applyMessage msg).Blind)
    {data : Data} (hdata : data ∈ n.current :: n.earlier) {sim : Simulation τ}
    (hsim : SimulatedOn h cfg data sim) {stamp : Version} (txID : Bytes)
    (hstamp : before n.stamp stamp)
    (hcurrent : mvccValid cfg n.current sim.rws = true →
      ∀ r ∈ sim.discarded, r.version = versionOf cfg n.current r.key) :
    SerialInv h cfg data₀ (n.commit cfg sim.toEndorsement stamp txID) sims := by
  unfold Network.commit
  cases hvalid : mvccValid cfg n.current sim.rws with
  | false =>
      exact hinv.advance (Evolves.refl _) (hinv.ledger.later hstamp) (.invalid .nil)
  | true =>
      obtain ⟨applied, steps, t, hrun, haccept, hrws, hdisc⟩ := hsim.run
      obtain ⟨steps', hnow⟩ := hinv.rerun hblind hdata hrun (hrws ▸ hvalid)
        (hdisc ▸ hcurrent hvalid)
      have hentries := (Caller.run_trace hrun).entriesOk (entriesOk_new _)
      have hnodup : (sim.rws.writes.map KVWrite.key).Nodup := hrws ▸ nodup_writes t.journal
      have htomb : ∀ w ∈ sim.rws.writes, w.isDelete = true → w.value = none := by
        rw [hrws]
        exact fun w hw => tombstones_result hentries hw
      refine hinv.advance (evolves_applyWrites hinv.ledger hstamp hnodup)
        (dataOk_applyWrites hinv.ledger hstamp hnodup htomb) ?_
      exact .valid stamp txID (hrws ▸ endorse_of_run hnow haccept) .nil

theorem NetRun.inv {data₀ : Data} {n : Network τ} {sims : List (Simulation τ)}
    (hblind : ∀ msg, (h.geth.applyMessage msg).Blind) (hn : NetRun h cfg data₀ n sims) :
    SerialInv h cfg data₀ n sims := by
  induction hn with
  | @init stamp hdata =>
      refine ⟨hdata, fun d hd => ?_, fun sim hsim => ?_, .nil⟩
      · rw [List.mem_singleton.mp hd]
        exact ⟨Evolves.refl _, stamp, hdata⟩
      · cases hsim
  | @endorse n sims sim data _ hdata hsim ih =>
      refine ⟨ih.ledger, ih.history, fun sim' hmem => ?_, ih.serial⟩
      rcases List.mem_cons.mp hmem with rfl | hmem
      · exact ⟨data, hdata, hsim⟩
      · exact ih.simulated sim' hmem
  | commit _ hsim stamp txID hstamp hcurrent ih =>
      obtain ⟨data, hdata, hrun⟩ := ih.simulated _ hsim
      exact ih.commit hblind hdata hrun txID hstamp hcurrent

/-- The commits of every run, in their order, are a serial execution of their transactions
from the first ledger to the present one. -/
theorem serializable {data₀ : Data} {n : Network τ} {sims : List (Simulation τ)}
    (hblind : ∀ msg, (h.geth.applyMessage msg).Blind) (hn : NetRun h cfg data₀ n sims) :
    Serial h cfg data₀ n.commits n.current :=
  (hn.inv hblind).serial

end Runs

theorem blind_applyPing (msg : Message Unit) : (applyPing msg).Blind := by
  refine .call (fun r => ?_) (by simp)
  split
  next => exact .call (fun _ => .done _) (by simp)
  next => exact .done _

/-- The first ping of an account, simulated on an empty ledger. -/
def pinged (sender : Address) : Simulation Ping where
  tx := ⟨sender, 0⟩
  rws :=
    { reads := [⟨nonceKey emptyLedger sender, none⟩]
      writes := [writeOf (nonceKey emptyLedger sender) (uint64ToBytes 1)] }
  discarded := []

def pingConfig : Config := ⟨emptyLedger.keccak, emptyLedger.ns, false⟩

/-- Three transactions simulated on one ledger: the second is a copy of the first and stale
when it commits, and the third commits on a ledger that has moved on. -/
theorem netRun_pings : ∃ (n : Network Ping) (sims : List (Simulation Ping)),
    NetRun pinger pingConfig (fun _ => none) n sims ∧
      n.commits.map (fun c => (c.tx.sender, c.valid)) = [(1, true), (1, false), (2, true)] := by
  have hinit : NetRun pinger pingConfig (fun _ => none)
      { current := fun _ => none, stamp := ⟨0, 0⟩ } [] := .init ⟨(nomatch ·), (nomatch ·)⟩
  have hkept : ∀ sender data, mvccValid pingConfig data (pinged sender).rws = true →
      ∀ r ∈ (pinged sender).discarded, r.version = versionOf pingConfig data r.key := by
    intro sender data _ r hr
    cases hr
  have hsim : SimulatedOn pinger pingConfig (fun _ => none) (pinged 1) :=
    ⟨_, _, _, rfl, (fun err herr => by cases herr), rfl, rfl⟩
  have hsim' : SimulatedOn pinger pingConfig (fun _ => none) (pinged 2) :=
    ⟨_, _, _, rfl, (fun err herr => by cases herr), rfl, rfl⟩
  have hfirst := hinit.endorse (List.mem_cons_self ..) hsim
  have hsecond := hfirst.endorse (List.mem_cons_self ..) hsim'
  have hone : pinged 1 ∈ [pinged 2, pinged 1] := List.mem_cons_of_mem _ (List.mem_cons_self ..)
  have hvalid := hsecond.commit hone ⟨1, 0⟩ [1] (.inl Nat.one_pos) (hkept 1 _)
  have hstale := hvalid.commit hone ⟨2, 0⟩ [2] (.inl Nat.one_lt_two) (hkept 1 _)
  have hlast := hstale.commit (List.mem_cons_self ..) ⟨3, 0⟩ [3] (.inl (Nat.lt_succ_self 2))
    (hkept 2 _)
  exact ⟨_, _, hlast, by decide⟩

theorem serializable_pings :
    ∃ (n : Network Ping) (sims : List (Simulation Ping)),
      NetRun pinger pingConfig (fun _ => none) n sims ∧
      n.commits.map (fun c => (c.tx.sender, c.valid)) = [(1, true), (1, false), (2, true)] ∧
      Serial pinger pingConfig (fun _ => none) n.commits n.current := by
  obtain ⟨n, sims, hn, hcommits⟩ := netRun_pings
  exact ⟨n, sims, hn, hcommits, serializable blind_applyPing hn⟩

end Storage
