import FabricXEvm.Execution.Executor
import FabricXEvm.Execution.Nonce
import FabricXEvm.Execution.Result

/-!
# What an endorsement carries

An endorsed read-write set depends on the sender's nonce at the value the transaction
carries, and writes a higher one (`Endorsed`).  The read is made before the executor's
snapshot, so no revert of the EVM takes it back.  Every other nonce it writes is not below
the one in the store, and depends on it.

`GethOk` is what is assumed of go-ethereum.
-/

namespace Execution

open Blocks StateDB

/-- The message of some transaction, up to the gas fields that `execute` sets. -/
def Geth.Carries {τ μ : Type} (geth : Geth τ μ) (msg : Message μ) : Prop :=
  ∃ tx sent, geth.transactionToMessage tx = .ok sent ∧ msg.sender = sent.sender ∧
    msg.nonce = sent.nonce ∧ msg.rest = sent.rest

/-- The assumptions on go-ethereum.  `ApplyMessage` of a transaction's message, run from a
state that a `StateDB` can be in, writes the sender's nonce above the message's when it
returns no error, reverts only to snapshots opened after it was entered, and writes nonces
only on top of what it read in the same or an enclosing frame. -/
structure GethOk {τ μ : Type} (geth : Geth τ μ) : Prop where
  message : ∀ {tx sender msg}, geth.sender tx = .ok sender →
    geth.transactionToMessage tx = .ok msg → msg.sender = sender ∧ msg.nonce = geth.nonce tx
  bumps : ∀ {msg env s result steps t}, geth.Carries msg → Reachable env s →
    (geth.applyMessage msg).run env s = .ok (.ok result, steps, t) →
    ∃ v, lastWrite t.journal (nonceKey env msg.sender) =
      some (writeOf (nonceKey env msg.sender) (uint64ToBytes v)) ∧ msg.nonce < v
  reverts : ∀ {msg env s result steps t}, geth.Carries msg → Reachable env s →
    (geth.applyMessage msg).run env s = .ok (result, steps, t) →
    ∀ st ∈ steps, ∀ revid, st.op = .revertToSnapshot revid → s.nextRevisionId ≤ revid
  nonces : ∀ {msg env s result steps t}, geth.Carries msg → Reachable env s →
    (geth.applyMessage msg).run env s = .ok (result, steps, t) → NonceDiscipline steps

/-- What holds of the read-write set endorsed for a transaction of `sender` with `nonce`. -/
structure Endorsed (env : Backing) (sender : Address) (nonce : UInt64) (rws : ReadWriteSet) :
    Prop where
  reads : ∀ r ∈ rws.reads, ∃ record, env.store env.ns r.key = .ok record ∧
    r = readOf env.monotonicVersions r.key record
  gate : nonceKey env sender ∈ rws.reads.map KVRead.key
  current : storeNonce env sender = some nonce
  nodup : (rws.writes.map KVWrite.key).Nodup
  tombstones : ∀ w ∈ rws.writes, w.isDelete = true → w.value = none
  bump : ∃ v, writeOf (nonceKey env sender) (uint64ToBytes v) ∈ rws.writes ∧ nonce < v
  covered : ∀ w ∈ rws.writes, ∀ a, w.key = nonceKey env a →
    ∃ v, w = writeOf (nonceKey env a) (uint64ToBytes v) ∧
      nonceKey env a ∈ rws.reads.map KVRead.key ∧ ∃ m, storeNonce env a = some m ∧ m ≤ v

/-! ## Traces from a fresh `StateDB` -/

/-- The entries of a journal are reads of the store and writes of the operations. -/
def EntriesOk (env : Backing) (s : StateDB) : Prop :=
  ∀ e ∈ s.journal, ∃ op : Op, EntryOk env (op.MayWrite env) e

theorem EntriesOk.exec {env : Backing} {s t : StateDB} (h : EntriesOk env s) {op : Op} {r : Ret}
    (hop : op.exec env s = .ok (r, t)) : EntriesOk env t := by
  intro e he
  rcases Op.exec_entry hop he with hold | hnew
  · exact h e hold
  · exact ⟨op, hnew⟩

theorem Trace.entriesOk {env : Backing} {s t : StateDB} {steps : List Step}
    (htrace : Trace env s steps t) (h : EntriesOk env s) : EntriesOk env t := by
  induction htrace with
  | nil => exact h
  | cons hop _ ih => exact ih (h.exec hop)

theorem EntriesOk.runOps {env : Backing} {ops : List Op} {s t : StateDB} (h : EntriesOk env s)
    (hrun : runOps env ops s = .ok t) : EntriesOk env t := by
  induction ops generalizing s with
  | nil =>
      cases hrun
      exact h
  | cons op ops ih =>
      simp only [Execution.runOps] at hrun
      split at hrun
      next r s' hop => exact ih (h.exec hop) hrun
      next => cases hrun

/-- A snapshot stays valid until it, or an older one, is reverted to. -/
theorem Op.keeps_revisions {op : Op} {env : Backing} {s t u : StateDB} {r : Ret} (hs : s.Inv)
    (hv : s.validRevisions <+: t.validRevisions) (hop : op.exec env t = .ok (r, u))
    (hrev : ∀ revid, op = .revertToSnapshot revid → s.nextRevisionId ≤ revid) :
    s.validRevisions <+: u.validRevisions := by
  cases Op.exec_moves hop with
  | append _ hmove => rwa [hmove.validRevisions]
  | @selfDestruct a _ t' hmove =>
      have hmark : (markSelfDestructed a t').validRevisions = t'.validRevisions := by
        unfold markSelfDestructed
        split <;> rfl
      rwa [hmark, hmove.validRevisions]
  | prepare => exact hv
  | snapshot => exact hv.trans (List.prefix_append _ _)
  | @revert revid =>
      rcases revertToSnapshot_cases revid t with ⟨_, heq⟩ | ⟨idx, rev, _, hget, hid, heq⟩
      · rwa [heq]
      · rw [heq]
        refine List.prefix_take_iff.mpr ⟨hv, ?_⟩
        by_contra hlt
        obtain ⟨later, hlater⟩ := hv
        rw [← hlater, List.getElem?_append_left (Nat.lt_of_not_le hlt)] at hget
        have hold := hs.ids rev (List.mem_of_getElem? hget)
        have hnew := hrev revid rfl
        omega

/-- While only later snapshots are reverted to, everything before stays. -/
theorem Trace.journal_mono {env : Backing} {s t u : StateDB} {steps : List Step}
    (htrace : Trace env t steps u) (hs : s.Inv) (hlater : Later s t)
    (hv : s.validRevisions <+: t.validRevisions)
    (hrev : ∀ st ∈ steps, ∀ revid, st.op = .revertToSnapshot revid → s.nextRevisionId ≤ revid) :
    s.journal <+: u.journal := by
  induction htrace with
  | nil => exact hlater.journal hs hv
  | cons hop _ ih =>
      exact ih (hlater.exec hop) (Op.keeps_revisions hs hv hop (hrev _ List.mem_cons_self))
        fun st hst => hrev st (List.mem_cons_of_mem _ hst)

/-! ## The endorsement -/

/-- The journal after an applied message, as a read-write set. -/
theorem endorsed_of_journal {env : Backing} {t : StateDB} {sender : Address} {nonce v : UInt64}
    (hentries : EntriesOk env t) (hnonces : NoncesOk env t)
    (hread : ∃ r, .read r ∈ t.journal ∧ r.key = nonceKey env sender)
    (hcurrent : storeNonce env sender = some nonce)
    (hlast : lastWrite t.journal (nonceKey env sender) =
      some (writeOf (nonceKey env sender) (uint64ToBytes v))) (hlt : nonce < v) :
    Endorsed env sender nonce t.result where
  reads r hr := by
    obtain ⟨op, hok⟩ := hentries _ (mem_of_mem_reads hr)
    exact hok
  gate := by
    obtain ⟨r, hr, hk⟩ := hread
    exact hk ▸ mem_keys_reads hr
  current := hcurrent
  nodup := nodup_writes t.journal
  tombstones w hw hdel := by
    obtain ⟨op, hok⟩ := hentries _ (mem_of_mem_writes hw)
    obtain ⟨val, hval⟩ := Op.MayWrite.eq_writeOf hok
    rw [hval, writeOf] at hdel ⊢
    split at hdel
    next h => rw [if_pos h]
    next => cases hdel
  bump := by
    refine ⟨v, ?_, hlt⟩
    rw [← find?_writes] at hlast
    exact List.mem_of_find?_eq_some hlast
  covered w hw a hk := by
    obtain ⟨n, hn⟩ := List.mem_iff_getElem?.mp (mem_of_mem_writes hw)
    obtain ⟨u, hu, hcov⟩ := hnonces n w a hn hk
    obtain ⟨r, hr, hrk⟩ := hcov.read
    exact ⟨u, hu, hrk ▸ mem_keys_reads (List.mem_of_mem_take hr), hcov.le⟩

/-- A fresh `StateDB` returns the store's nonce. -/
theorem storeNonce_of_getNonce {env : Backing} {a : Address} {n : UInt64} {t : StateDB}
    (h : getNonce a env .new = .ok (n, t)) : storeNonce env a = some n := by
  have hret : ret (getNonce a) env .new = .ok n := by
    rw [ret, h]
    rfl
  have hfresh : lastWrite StateDB.new.journal (nonceKey env a) = none := rfl
  rw [ret_getNonce indexOk_new] at hret
  simp only [value, hfresh] at hret
  unfold storeNonce
  cases hstore : env.store env.ns (nonceKey env a) with
  | error err =>
      rw [hstore] at hret
      cases hret
  | ok record =>
      rw [hstore] at hret
      simp only [Except.map] at hret
      split at hret
      next n' hn' =>
        cases hret
        exact hn'
      next => cases hret

section Endorse

variable {τ μ : Type} {h : Executor τ μ}

/-- A message is prepared only at the sender's nonce, which is read first. -/
theorem Executor.prepareMessage_ok {env : Backing} {tx : τ} {msg : Message μ} {steps : List Step}
    {s : StateDB} (hrun : (h.prepareMessage tx).run env .new = .ok (.ok msg, steps, s)) :
    ∃ sender, h.geth.sender tx = .ok sender ∧ h.geth.transactionToMessage tx = .ok msg ∧
      Op.exec (.getNonce sender) env .new = .ok (.uint64 (h.geth.nonce tx), s) := by
  unfold prepareMessage at hrun
  cases hsender : h.geth.sender tx with
  | error err =>
      rw [hsender] at hrun
      cases hrun
  | ok sender =>
      rw [hsender] at hrun
      obtain ⟨r, s', steps', hop, rfl, hrest⟩ := Caller.run_call_ok hrun
      obtain ⟨n, s'', hget, hret⟩ := Comp.of_bind_ok hop
      cases hret
      dsimp only at hrest
      split at hrest
      next => cases hrest
      next hlow =>
        split at hrest
        next => cases hrest
        next hhigh =>
          have hn : n = h.geth.nonce tx :=
            UInt64.le_antisymm (UInt64.not_lt.mp hlow) (UInt64.not_lt.mp hhigh)
          obtain ⟨hmsg, hend⟩ := Prod.mk.inj (Except.ok.inj hrest)
          obtain ⟨_, rfl⟩ := Prod.mk.inj hend
          exact ⟨sender, rfl, hmsg, hn ▸ hop⟩

/-- A message that is not rejected was applied under a snapshot. -/
theorem Executor.applyMessage_ok {env : Backing} {msg : Message μ} {applied : Applied}
    {steps : List Step} {s t : StateDB}
    (hrun : (h.applyMessage msg).run env s = .ok (applied, steps, t))
    (haccept : ∀ err, applied.err ≠ some (.txRejected err)) :
    ∃ result steps', (h.geth.applyMessage msg).run env s.snapshot = .ok (.ok result, steps', t) := by
  obtain ⟨r, s', steps', hop, rfl, hrest⟩ := Caller.run_call_ok hrun
  cases hop
  obtain ⟨result, u, steps₁, steps₂, happly, hrest, rfl⟩ := Caller.run_bind_ok hrest
  cases result with
  | error err =>
      obtain ⟨_, _, _, _, _, hdone⟩ := Caller.run_call_ok hrest
      cases hdone
      exact absurd rfl (haccept err)
  | ok result =>
      cases hrest
      exact ⟨result, steps₁, happly⟩

/-- A message applied right after its sender's nonce was read. -/
theorem endorsed_of_run {geth : Geth τ μ} {env : Backing} {msg : Message μ} {s t : StateDB}
    {result : ExecutionResult} {steps : List Step} (hg : GethOk geth) (hopen : Open env)
    (hmsg : geth.Carries msg)
    (hnonce : Op.exec (.getNonce msg.sender) env .new = .ok (.uint64 msg.nonce, s))
    (happly : (geth.applyMessage msg).run env s.snapshot = .ok (.ok result, steps, t)) :
    Endorsed env msg.sender msg.nonce t.result := by
  have htrace := Caller.run_trace happly
  have hreach : Reachable env s.snapshot := by
    refine ⟨[.getNonce msg.sender, .snapshot], ?_⟩
    simp only [runOps, hnonce]
    rfl
  obtain ⟨n, s', hget, hret⟩ := Comp.of_bind_ok hnonce
  cases hret
  have hnew : NoncesOk env .new := .of_no_writes fun w hw => by cases hw
  have hs : s.Inv := Inv.new.exec hnonce
  have hn : NoncesOk env s := hnew.exec hnonce fun _ _ h => False.elim h
  have he : EntriesOk env s := EntriesOk.exec (fun e he => by cases he) hnonce
  have hread := (covered_of_getNonce hopen indexOk_new hnew hget).read
  have hkept : s.snapshot.journal <+: t.journal :=
    htrace.journal_mono hs.snapshot (.refl _) List.prefix_rfl (hg.reverts hmsg hreach happly)
  obtain ⟨v, hlast, hlt⟩ := hg.bumps hmsg hreach happly
  refine endorsed_of_journal (htrace.entriesOk he) ?_ ?_ (storeNonce_of_getNonce hget) hlast hlt
  · have hnonces := hg.nonces hmsg hreach happly
    exact htrace.noncesOk hopen (List.nil_append steps ▸ hnonces) hs.snapshot hn
      fun _ hmem => by cases hmem
  · obtain ⟨r, hr, hk⟩ := hread
    exact ⟨r, hkept.subset hr, hk⟩

/-- What `Execute` endorses. -/
theorem Executor.endorsed {env : Backing} {tx : τ} {rws : ReadWriteSet} (hg : GethOk h.geth)
    (hopen : Open env) (hrun : h.endorse env tx = .ok (some rws)) :
    ∃ sender, h.geth.sender tx = .ok sender ∧ Endorsed env sender (h.geth.nonce tx) rws := by
  unfold endorse at hrun
  cases hsend : (h.send tx).run env .new with
  | error p =>
      rw [hsend] at hrun
      cases hrun
  | ok out =>
      obtain ⟨applied, steps, t⟩ := out
      rw [hsend] at hrun
      dsimp only at hrun
      split at hrun
      next => cases hrun
      next haccept =>
        cases hrun
        obtain ⟨prepared, s, steps₁, steps₂, hprep, hexec, rfl⟩ := Caller.run_bind_ok hsend
        cases prepared with
        | error err =>
            cases hexec
            exact absurd rfl (haccept err)
        | ok msg =>
            obtain ⟨sender, hsender, hmsg, hnonce⟩ := prepareMessage_ok hprep
            obtain ⟨result, steps₃, happly⟩ :=
              applyMessage_ok hexec fun err herr => haccept err herr
            obtain ⟨hfrom, hmsgNonce⟩ := hg.message hsender hmsg
            refine ⟨sender, hsender, hfrom ▸ hmsgNonce ▸ ?_⟩
            rw [← hfrom, ← hmsgNonce] at hnonce
            have hend := endorsed_of_run hg hopen (by exact ⟨tx, msg, hmsg, rfl, rfl, rfl⟩)
              (by exact hnonce) happly
            exact hend

end Endorse

end Execution
