import FabricXEvm.Execution.WorldRuns
import FabricXEvm.Storage.Serial

/-!
# The ledger as a sequence of worlds

The ledger of a network holds accounts, and its valid transactions change them as if they
were executed one after the other on the machine of worlds: without journals, without read
and write sets, and without endorsements on old states (`ledger_refines`).
The conditions are those of the serial execution, and that the machine defines the transactions.

This puts three steps together.  The commits are a serial execution.  In it, a transaction
runs on a `StateDB` as it does on the machine.  And once its writes are committed, the ledger
holds the accounts of the world it ended with.
-/

namespace Storage

open Blocks Execution Execution.StateDB

/-! ## A commit -/

section Commit

variable {cfg : Config} {data : Data} {stamp : Version} {txID : Bytes} {t : StateDB}

/-- The value of a key after a commit is the one the committed state showed. -/
theorem value_of_applyWrites (ht : EntriesOk (cfg.backing data) t) (key : Bytes) :
    value (cfg.backing data) t key =
      .ok (valueOf (applyWrites cfg data stamp txID t.result) cfg.ns key) := by
  rw [valueOf_eq, applyWrites_eq]
  unfold value
  cases hlast : lastWrite t.journal key with
  | some w =>
      obtain ⟨_, rfl⟩ := mem_of_lastWrite hlast
      have hw : w ∈ t.result.writes := mem_writes_iff (.refl _) hlast
      have hnodup : (t.result.writes.map KVWrite.key).Nodup := nodup_writes t.journal
      rw [foldl_put_written hnodup _ hw]
      refine congrArg Except.ok ?_
      change visible w = w.value
      unfold visible
      split
      next hdel => exact (tombstones_result ht hw hdel).symm
      next => rfl
  | none =>
      rw [foldl_put_unwritten _ (notMem_keys_of_lastWrite (.refl _) hlast)]
      exact reader_get { blockNumber := 0, data } cfg.ns key

theorem holds_applyWrites {accounts : Accounts} {w : Execution.World}
    (h : Holds (cfg.backing data) accounts) (ht : EntriesOk (cfg.backing data) t)
    (hw : Shows (cfg.backing data) t w) :
    Holds (cfg.backing (applyWrites cfg data stamp txID t.result)) w.toAccounts where
  fields f := by
    obtain ⟨val, hval, hread⟩ := hw.fields f
    refine ⟨_, rfl, ?_⟩
    rw [value_of_applyWrites ht] at hval
    rw [← Except.ok.inj hval] at hread
    exact hread
  tombstones {key r} hrec hdel := by
    obtain ⟨e, he, rfl⟩ := Option.map_eq_some_iff.mp (Except.ok.inj hrec)
    have hnodup : (t.result.writes.map KVWrite.key).Nodup := nodup_writes t.journal
    rcases applyWrites_cases hnodup (fullKey cfg.ns key) with ⟨write, hwrite, hnew⟩ | hsame
    · cases he.symm.trans hnew
      exact tombstones_result ht hwrite hdel
    · have hold : data (fullKey cfg.ns key) = some e := hsame.symm.trans he
      have hstore : (cfg.backing data).store cfg.ns key = .ok (record data cfg.ns key) := rfl
      rw [record, hold] at hstore
      exact h.tombstones hstore hdel

end Commit

/-! ## Serial execution on worlds -/

section Runs

variable {τ μ : Type} (h : Executor τ μ) (cfg : Config)

/-- The valid transactions of the commits, executed one after the other on the accounts. -/
inductive Executes : Accounts → List (Commit τ) → Accounts → Prop where
  | nil {accounts : Accounts} : Executes accounts [] accounts
  | valid {accounts accounts' : Accounts} {commits : List (Commit τ)} {c : Commit τ}
      {applied : Applied} {m : Machine} (hvalid : c.valid = true)
      (hrun : (h.send c.tx).onWorld cfg.keccak accounts (.start accounts) = some (applied, m))
      (haccept : ∀ err, applied.err ≠ some (.txRejected err))
      (hrest : Executes m.world.toAccounts commits accounts') :
      Executes accounts (c :: commits) accounts'
  | invalid {accounts accounts' : Accounts} {commits : List (Commit τ)} {c : Commit τ}
      (hinvalid : c.valid = false) (hrest : Executes accounts commits accounts') :
      Executes accounts (c :: commits) accounts'

/-- The machine defines the transaction of a commit, on the accounts of the ledger before it. -/
def Defined (c : Commit τ) : Prop :=
  ∀ accounts, Holds (cfg.backing c.before) accounts →
    ∃ out, (h.send c.tx).onWorld cfg.keccak accounts (.start accounts) = some out

variable {h cfg}

/-- An endorsement is a run that was not rejected. -/
theorem run_of_endorse {env : Backing} {tx : τ} {rws : ReadWriteSet}
    (hend : h.endorse env tx = .ok (some rws)) :
    ∃ applied steps t, (h.send tx).run env .new = .ok (applied, steps, t) ∧
      (∀ err, applied.err ≠ some (.txRejected err)) ∧ rws = t.result := by
  unfold Executor.endorse at hend
  cases hrun : (h.send tx).run env .new with
  | error p =>
      rw [hrun] at hend
      cases hend
  | ok out =>
      obtain ⟨applied, steps, t⟩ := out
      rw [hrun] at hend
      dsimp only at hend
      split at hend
      next => cases hend
      next haccept =>
        cases hend
        exact ⟨applied, steps, t, rfl, fun err herr => haccept err herr, rfl⟩

/-- A serial execution on ledgers is one on the accounts they hold. -/
theorem Serial.executes {data data' : Data} {commits : List (Commit τ)}
    (hs : Serial h cfg data commits data')
    (hdefined : ∀ c ∈ commits, c.valid = true → Defined h cfg c) {accounts : Accounts}
    (haccounts : Holds (cfg.backing data) accounts) :
    ∃ accounts', Holds (cfg.backing data') accounts' ∧
      Executes h cfg accounts commits accounts' := by
  induction hs generalizing accounts with
  | nil => exact ⟨accounts, haccounts, .nil⟩
  | @valid data data' commits tx rws stamp txID hrun _ ih =>
      obtain ⟨⟨applied, m⟩, hworld⟩ :=
        hdefined _ List.mem_cons_self rfl accounts haccounts
      obtain ⟨steps, t, hdb, hrefines⟩ :=
        Caller.run_refines_from haccounts haccounts.refines_new hworld
      obtain ⟨applied', steps', t', hdb', haccept, rfl⟩ := run_of_endorse hrun
      cases hdb.symm.trans hdb'
      have hentries := (Caller.run_trace hdb).entriesOk (entriesOk_new _)
      obtain ⟨accounts', hholds, hexec⟩ :=
        ih (fun c hc => hdefined c (List.mem_cons_of_mem _ hc))
          (holds_applyWrites haccounts hentries hrefines.shows)
      exact ⟨accounts', hholds, .valid rfl hworld haccept hexec⟩
  | invalid _ ih =>
      obtain ⟨accounts', hholds, hexec⟩ :=
        ih (fun c hc => hdefined c (List.mem_cons_of_mem _ hc)) haccounts
      exact ⟨accounts', hholds, .invalid rfl hexec⟩

/-- The ledger holds the accounts that the valid transactions make when they are executed one
after the other, in commit order, from the accounts of the first ledger.  This is for runs in
which the reads that a valid transaction discarded are still current when it commits, for an EVM
that makes nothing of the previous value `SetState` returns, and for transactions that the
machine defines. -/
theorem ledger_refines {data₀ : Data} {n : Network τ} {sims : List (Simulation τ)}
    (hblind : ∀ msg, (h.geth.applyMessage msg).Blind) (hn : NetRun h cfg data₀ n sims)
    (hdefined : ∀ c ∈ n.commits, c.valid = true → Defined h cfg c) {accounts : Accounts}
    (haccounts : Holds (cfg.backing data₀) accounts) :
    ∃ accounts', Holds (cfg.backing n.current) accounts' ∧
      Executes h cfg accounts n.commits accounts' :=
  (hn.inv hblind).serial.executes hdefined haccounts

end Runs

/-- A ping is defined on all accounts. -/
theorem defined_pinger (cfg : Config) (c : Commit Ping) : Defined pinger cfg c := by
  intro accounts _
  refine Caller.onWorld_defined ?_ rfl
  have happly : ∀ msg, (applyPing msg).Only Op.Unconditional := by
    intro msg
    refine .call trivial fun r => ?_
    split
    next => exact .call trivial fun _ => .done _
    next => exact .done _
  refine .bind (.call trivial fun r => ?_) fun prepared => ?_
  · split
    next =>
      split
      next => exact .done _
      next => split <;> exact .done _
    next => exact .done _
  · cases prepared with
    | error err => exact .done _
    | ok msg =>
        refine .call trivial fun snapshot => .bind (happly _) fun result => ?_
        cases result with
        | error err => exact .call trivial fun _ => .done _
        | ok result => exact .done _

theorem ledger_refines_pings :
    ∃ (n : Network Ping) (sims : List (Simulation Ping)) (accounts : Accounts),
      NetRun pinger pingConfig (fun _ => none) n sims ∧
      n.commits.map (fun c => (c.tx.sender, c.valid)) = [(1, true), (1, false), (2, true)] ∧
      Holds (pingConfig.backing n.current) accounts ∧
      Executes pinger pingConfig noAccounts n.commits accounts := by
  obtain ⟨n, sims, hn, hcommits⟩ := netRun_pings
  obtain ⟨accounts, hholds, hexec⟩ := ledger_refines blind_applyPing hn
    (fun c _ _ => defined_pinger pingConfig c) (holds_noAccounts fun _ => rfl)
  exact ⟨n, sims, accounts, hn, hcommits, hholds, hexec⟩

end Storage
