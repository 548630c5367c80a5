import FabricXEvm.Endorser.Execute
import FabricXEvm.Gateway.ReusedEndorsements

/-!
# The fan-out to the endorsers

`ExecuteTransaction` asks every endorser at once, and the first that fails cancels the calls of
the others.  Those may still answer, or return a cancellation, in any order.  A `Service`
is what an endorser may answer when nobody cancels, and `FanOut.Step` is one return.

An endorsement has an answer of every endorser, in their order.  Unless the caller cancels, an
error is one that an endorser made, and never a cancellation that the fan-out itself caused
(`EndorsementClient.executeTransaction_spec`).  With the dependency-graph queue, which executes
transactions by itself and hands the endorsements over, nothing else is submitted
(`Flow.submitted_signed`).
-/

open Blocks Common

namespace Gateway

open Endorser (ProposalResponse Endorsable Peer statusOK statusTxRejected)

variable {ι π : Type}

/-- A Go error of `Execute`: its text, whether it is `context.Canceled`, and whether its gRPC
code is `Canceled`. -/
structure CallFailure where
  message : Bytes
  contextCanceled : Bool := false
  codeCanceled : Bool := false

abbrev EndorserReply (π : Type) := Except CallFailure (ProposalResponse π)

/-- The errors of `ExecuteTransaction`. -/
inductive ExecuteError where
  /-- No invocation could be made. -/
  | invocation (err : Bytes)
  | callEndorser (err : CallFailure)
  | processTransaction (message : Bytes)

/-- `isCancellation`.  Wrapping an error keeps what `errors.Is` and `status.Code` find in it. -/
def isCancellation : ExecuteError → Bool
  | .callEndorser err => err.contextCanceled || err.codeCanceled
  | .invocation _ | .processTransaction _ => false

/-- What `processEndorsement` puts into `res` or `errs`. -/
def processEndorsement : EndorserReply π → Except ExecuteError (ProposalResponse π)
  | .error err => .error (.callEndorser err)
  | .ok pResp =>
      if Endorsable pResp.status then .ok pResp else .error (.processTransaction pResp.message)

theorem processEndorsement_eq_ok {reply : EndorserReply π} {pResp : ProposalResponse π}
    (h : processEndorsement reply = .ok pResp) : reply = .ok pResp ∧ Endorsable pResp.status := by
  unfold processEndorsement at h
  split at h
  next => cases h
  next pResp' =>
    split at h
    next hstatus =>
      cases h
      exact ⟨rfl, hstatus⟩
    next => cases h

/-- The first error, or the first that is not a cancellation. -/
def firstError (errs : List ExecuteError) : Option ExecuteError :=
  (errs.find? fun err => !isCancellation err).or errs.head?

def errsOf (results : List (Except ExecuteError (ProposalResponse π))) : List ExecuteError :=
  results.filterMap fun
    | .error err => some err
    | .ok _ => none

def resOf (results : List (Except ExecuteError (ProposalResponse π))) :
    List (ProposalResponse π) :=
  results.filterMap fun
    | .error _ => none
    | .ok pResp => some pResp

/-- What `ExecuteTransaction` returns after `wg.Wait`. -/
def collect (results : List (Except ExecuteError (ProposalResponse π))) :
    Except ExecuteError (List (ProposalResponse π)) :=
  match firstError (errsOf results) with
  | some err => .error err
  | none => .ok (resOf results)

/-! ## Runs -/

/-- An endorser: the replies it may give to a call that is not cancelled. -/
abbrev Service (π : Type) := EndorserReply π → Prop

/-- The calls, with their results so far. -/
structure FanOut (π : Type) where
  calls : List (Service π × Option (Except ExecuteError (ProposalResponse π)))
  /-- The context of the calls is cancelled. -/
  canceled : Bool := false
  /-- The context of the caller is. -/
  callerCanceled : Bool := false

namespace FanOut

def start (endorsers : List (Service π)) : FanOut π := { calls := endorsers.map (·, none) }

inductive Step : FanOut π → FanOut π → Prop where
  /-- An endorser returns.  A cancelled one may also return a cancellation. -/
  | answer {s : FanOut π} {endorser : Service π} {reply : EndorserReply π}
      {pre post : List (Service π × Option (Except ExecuteError (ProposalResponse π)))}
      (hc : s.calls = pre ++ (endorser, none) :: post)
      (h : endorser reply ∨ s.canceled = true ∧
        ∃ err, reply = .error err ∧ isCancellation (.callEndorser err) = true) :
      Step s { s with
        calls := pre ++ (endorser, some (processEndorsement reply)) :: post
        canceled := s.canceled || !(processEndorsement reply).isOk }
  /-- The caller's context ends. -/
  | cancel {s : FanOut π} : Step s { s with canceled := true, callerCanceled := true }

/-- The calls of `endorsers`, in any interleaving. -/
inductive Run (endorsers : List (Service π)) : FanOut π → Prop where
  | start : Run endorsers (start endorsers)
  | step {s t : FanOut π} (h : Run endorsers s) (hstep : Step s t) : Run endorsers t

/-- Every endorser has returned. -/
def Finished (s : FanOut π) (results : List (Except ExecuteError (ProposalResponse π))) : Prop :=
  s.calls.map Prod.snd = results.map some

/-- The endorser made this result. -/
def Own (endorser : Service π) (result : Except ExecuteError (ProposalResponse π)) : Prop :=
  ∃ reply, endorser reply ∧ processEndorsement reply = result

/-- Where results come from, and what a cancelled context comes from. -/
structure Inv (endorsers : List (Service π)) (s : FanOut π) : Prop where
  endorsers : s.calls.map Prod.fst = endorsers
  result : ∀ endorser result, (endorser, some result) ∈ s.calls →
    Own endorser result ∨ ∃ err, result = .error err ∧ isCancellation err = true
  failed : ∀ endorser err, (endorser, some (.error err)) ∈ s.calls → s.canceled = true
  cause : s.canceled = true → s.callerCanceled = true ∨
    ∃ endorser err, (endorser, some (.error err)) ∈ s.calls ∧ Own endorser (.error err)

variable {endorsers : List (Service π)} {s t : FanOut π}
  {results : List (Except ExecuteError (ProposalResponse π))}

theorem Inv.start (endorsers : List (Service π)) : Inv endorsers (start endorsers) where
  endorsers := by simp [FanOut.start, Function.comp_def]
  result endorser result h := by simp [FanOut.start] at h
  failed endorser err h := by simp [FanOut.start] at h
  cause h := by simp [FanOut.start] at h

theorem Inv.step (h : Inv endorsers s) (hstep : Step s t) : Inv endorsers t := by
  cases hstep with
  | cancel => exact ⟨h.endorsers, h.result, fun _ _ _ => rfl, fun _ => .inl rfl⟩
  | @answer endorser reply pre post hc hreply =>
      have hmem : ∀ c result, (c, some result) ∈
          pre ++ (endorser, some (processEndorsement reply)) :: post ↔
          (c, some result) ∈ s.calls ∨ c = endorser ∧ result = processEndorsement reply := by
        intro c result
        rw [hc]
        simp only [List.mem_append, List.mem_cons, Prod.mk.injEq, Option.some.injEq, reduceCtorEq,
          and_false, false_or]
        tauto
      constructor
      · rw [← h.endorsers, hc]
        simp
      · intro c result hresult
        rcases (hmem c result).mp hresult with hold | ⟨rfl, rfl⟩
        · exact h.result c result hold
        · rcases hreply with hown | ⟨-, err, rfl, hcancel⟩
          · exact .inl ⟨reply, hown, rfl⟩
          · exact .inr ⟨_, rfl, hcancel⟩
      · intro c err herr
        rcases (hmem c _).mp herr with hold | ⟨rfl, hnew⟩
        · rw [h.failed c err hold, Bool.true_or]
        · rw [← hnew]
          exact Bool.or_true _
      · intro hcanceled
        cases hs : s.canceled with
        | true =>
            refine (h.cause hs).imp_right ?_
            rintro ⟨c, err, hold, hown⟩
            exact ⟨c, err, (hmem c _).mpr (.inl hold), hown⟩
        | false =>
            -- the first error, so the endorser was not cancelled
            have hown : endorser reply := by
              rcases hreply with hown | ⟨hs', -⟩
              · exact hown
              · exact absurd (hs.symm.trans hs') Bool.false_ne_true
            rw [hs, Bool.false_or] at hcanceled
            cases hresult : processEndorsement reply with
            | ok pResp =>
                rw [hresult] at hcanceled
                cases hcanceled
            | error err =>
                refine .inr ⟨endorser, err, ?_, reply, hown, hresult⟩
                simp

theorem Run.inv (h : Run endorsers s) : Inv endorsers s := by
  induction h with
  | start => exact .start endorsers
  | step _ hstep ih => exact ih.step hstep

/-! ## What is returned -/

theorem forall₂_of_finished {P : Service π → Except ExecuteError (ProposalResponse π) → Prop}
    {calls : List (Service π × Option (Except ExecuteError (ProposalResponse π)))}
    (h : ∀ endorser result, (endorser, some result) ∈ calls → P endorser result)
    (hdone : calls.map Prod.snd = results.map some) :
    List.Forall₂ P (calls.map Prod.fst) results := by
  induction calls generalizing results with
  | nil =>
      cases results with
      | nil => exact .nil
      | cons => cases hdone
  | cons call calls ih =>
      obtain ⟨endorser, result⟩ := call
      cases results with
      | nil => cases hdone
      | cons result' results =>
          obtain ⟨rfl, hrest⟩ := List.cons.inj hdone
          exact .cons (h endorser result' List.mem_cons_self)
            (ih (fun e r hmem => h e r (List.mem_cons_of_mem _ hmem)) hrest)

end FanOut

theorem mem_errsOf {results : List (Except ExecuteError (ProposalResponse π))}
    {err : ExecuteError} : err ∈ errsOf results ↔ .error err ∈ results := by
  simp only [errsOf, List.mem_filterMap]
  constructor
  · rintro ⟨result, hmem, hresult⟩
    cases result with
    | error err' =>
        cases hresult
        exact hmem
    | ok => cases hresult
  · exact fun hmem => ⟨_, hmem, rfl⟩

theorem firstError_mem {errs : List ExecuteError} {err : ExecuteError}
    (h : firstError errs = some err) : err ∈ errs := by
  rcases Option.or_eq_some_iff.mp h with hfind | ⟨-, hhead⟩
  · exact List.mem_of_find?_eq_some hfind
  · exact List.mem_of_head? hhead

/-- A cancellation is returned only if there is nothing else. -/
theorem firstError_not_cancellation {errs : List ExecuteError} {err err' : ExecuteError}
    (h : firstError errs = some err) (hmem : err' ∈ errs) (hnot : isCancellation err' = false) :
    isCancellation err = false := by
  rcases Option.or_eq_some_iff.mp h with hfind | ⟨hnone, -⟩
  · simpa using List.find?_some hfind
  · simpa [hnot] using List.find?_eq_none.mp hnone err' hmem

theorem collect_eq_ok {results : List (Except ExecuteError (ProposalResponse π))}
    {res : List (ProposalResponse π)} (h : collect results = .ok res) : results = res.map .ok := by
  have hnone : ∀ err, .error err ∉ results := by
    intro err hmem
    unfold collect at h
    split at h
    next => cases h
    next hfirst =>
      have hhead := (Option.or_eq_none_iff.mp hfirst).2
      rw [List.head?_eq_none_iff] at hhead
      exact absurd (mem_errsOf.mpr hmem) (hhead ▸ List.not_mem_nil)
  have hres : res = resOf results := by
    unfold collect at h
    split at h
    · cases h
    · exact (Except.ok.inj h).symm
  rw [hres]
  clear h hres
  induction results with
  | nil => rfl
  | cons result results ih =>
      cases result with
      | error err => exact absurd List.mem_cons_self (hnone err)
      | ok pResp =>
          rw [resOf, List.filterMap_cons, List.map_cons, ← resOf,
            ← ih fun err hmem => hnone err (List.mem_cons_of_mem _ hmem)]

namespace FanOut

variable {endorsers : List (Service π)} {s : FanOut π}
  {results : List (Except ExecuteError (ProposalResponse π))}

/-- An endorsement has an answer of each endorser, in their order. -/
theorem endorsed_of_ok {res : List (ProposalResponse π)} (h : Run endorsers s)
    (hdone : s.Finished results) (hok : collect results = .ok res) :
    List.Forall₂ (fun endorser pResp => endorser (.ok pResp) ∧ Endorsable pResp.status)
      endorsers res := by
  have hown : ∀ endorser result, (endorser, some result) ∈ s.calls →
      Own endorser result ∨ ∃ err, result = .error err ∧ isCancellation err = true := h.inv.result
  have hall := forall₂_of_finished hown hdone
  rw [h.inv.endorsers, collect_eq_ok hok, List.forall₂_map_right_iff] at hall
  refine hall.imp ?_
  rintro endorser pResp (⟨reply, hreply, hprocess⟩ | ⟨err, herr, -⟩)
  · obtain ⟨rfl, hstatus⟩ := processEndorsement_eq_ok hprocess
    exact ⟨hreply, hstatus⟩
  · cases herr

/-- Unless the caller cancels, what is returned is not a cancellation, and an endorser made it. -/
theorem own_of_error {err : ExecuteError} (h : Run endorsers s) (hdone : s.Finished results)
    (hcaller : s.callerCanceled = false)
    (hown : ∀ endorser ∈ endorsers, ∀ err, Own endorser (.error err) → isCancellation err = false)
    (herror : collect results = .error err) :
    ∃ endorser ∈ endorsers, Own endorser (.error err) := by
  have hinv := h.inv
  have hmem : ∀ {err}, err ∈ errsOf results ↔
      ∃ endorser, (endorser, some (.error err)) ∈ s.calls := by
    intro err
    rw [mem_errsOf, ← List.mem_map_of_injective (Option.some_injective _), ← hdone]
    simp
  have hendorser : ∀ {endorser result}, (endorser, result) ∈ s.calls → endorser ∈ endorsers :=
    fun hcall => hinv.endorsers ▸ List.mem_map_of_mem hcall
  have hfirst : firstError (errsOf results) = some err := by
    unfold collect at herror
    split at herror
    next err' hfirst =>
      cases herror
      exact hfirst
    next => cases herror
  obtain ⟨endorser, hcall⟩ := hmem.mp (firstError_mem hfirst)
  -- some endorser failed by itself, so there is an error that is no cancellation
  have hnot : isCancellation err = false := by
    rcases hinv.cause (hinv.failed endorser err hcall) with hcanceled | ⟨cause, err', hcall', hcause⟩
    · exact absurd (hcaller.symm.trans hcanceled) Bool.false_ne_true
    · exact firstError_not_cancellation hfirst (hmem.mpr ⟨cause, hcall'⟩)
        (hown cause (hendorser hcall') err' hcause)
  refine ⟨endorser, hendorser hcall, ?_⟩
  rcases hinv.result endorser _ hcall with hmade | ⟨err', heq, hcancel⟩
  · exact hmade
  · cases heq
    exact absurd (hnot.symm.trans hcancel) Bool.false_ne_true

end FanOut

/-! ## `ExecuteTransaction` -/

/-- `sdk.Endorsement`. -/
structure Endorsement (ι π : Type) where
  proposal : ι
  responses : List (ProposalResponse π)

/-- `EndorsementClient`.  An endorser gets the proposal, the transaction and the time of the
request. -/
structure EndorsementClient (ι π : Type) where
  createInvocation : EthTx → Except Bytes ι
  endorsers : List (ι → EthTx → Int → Service π)

namespace EndorsementClient

variable (client : EndorsementClient ι π)

/-- What `ExecuteTransaction` may return, and whether its context was cancelled. -/
inductive ExecuteTransaction (tx : EthTx) :
    Bool → Except ExecuteError (Endorsement ι π) → Prop where
  | invocation {canceled : Bool} {err : Bytes} (h : client.createInvocation tx = .error err) :
      ExecuteTransaction tx canceled (.error (.invocation err))
  | collected {inv : ι} {reqTime : Int} {s : FanOut π}
      {results : List (Except ExecuteError (ProposalResponse π))}
      (hinv : client.createInvocation tx = .ok inv)
      (hrun : FanOut.Run (client.endorsers.map fun endorser => endorser inv tx reqTime) s)
      (hdone : s.Finished results) :
      ExecuteTransaction tx s.callerCanceled ((collect results).map (Endorsement.mk inv))

/-- It may return this endorsement. -/
def Returns (tx : EthTx) (e : Endorsement ι π) : Prop :=
  ∃ canceled, client.ExecuteTransaction tx canceled (.ok e)

/-- Every endorser answered the proposal, at one request time, with a status that is endorsed. -/
def EndorsedByAll (tx : EthTx) (e : Endorsement ι π) : Prop :=
  client.createInvocation tx = .ok e.proposal ∧ ∃ reqTime,
    List.Forall₂ (fun endorser pResp =>
      endorser e.proposal tx reqTime (.ok pResp) ∧ Endorsable pResp.status)
      client.endorsers e.responses

variable {client} {tx : EthTx}

theorem Returns.endorsedByAll {e : Endorsement ι π} (h : client.Returns tx e) :
    client.EndorsedByAll tx e := by
  obtain ⟨canceled, h⟩ := h
  generalize hresult : Except.ok e = result at h
  cases h with
  | invocation => cases hresult
  | @collected inv reqTime s results hinv hrun hdone =>
      cases hcollect : collect results with
      | error err =>
          rw [hcollect] at hresult
          cases hresult
      | ok res =>
          rw [hcollect] at hresult
          cases hresult
          have hall := FanOut.endorsed_of_ok hrun hdone hcollect
          rw [List.forall₂_map_left_iff] at hall
          exact ⟨hinv, reqTime, hall⟩

/-- Whatever the interleaving, an endorsement is an answer of every endorser.  An error is a
failure to make the proposal or one that an endorser made by itself, as long as the caller does
not cancel and endorsers do not report cancellations of their own. -/
theorem executeTransaction_spec {canceled : Bool}
    {result : Except ExecuteError (Endorsement ι π)}
    (h : client.ExecuteTransaction tx canceled result) :
    (∀ e, result = .ok e → client.EndorsedByAll tx e) ∧
    (canceled = false →
      (∀ endorser ∈ client.endorsers, ∀ inv reqTime err,
        FanOut.Own (endorser inv tx reqTime) (.error err) → isCancellation err = false) →
      ∀ err, result = .error err → isCancellation err = false ∧
        ((∃ err', client.createInvocation tx = .error err' ∧ err = .invocation err') ∨
          ∃ inv reqTime, client.createInvocation tx = .ok inv ∧
            ∃ endorser ∈ client.endorsers, FanOut.Own (endorser inv tx reqTime) (.error err))) := by
  constructor
  · rintro e rfl
    exact Returns.endorsedByAll ⟨canceled, h⟩
  · intro hcaller hown err herr
    cases h with
    | invocation hinv =>
        cases herr
        exact ⟨rfl, .inl ⟨_, hinv, rfl⟩⟩
    | @collected inv reqTime s results hinv hrun hdone =>
        have hcollect : collect results = .error err := by
          cases hcollect : collect results with
          | ok res =>
              rw [hcollect] at herr
              cases herr
          | error err' =>
              rw [hcollect] at herr
              cases herr
              rfl
        have hnone : ∀ endorser ∈ client.endorsers.map (· inv tx reqTime), ∀ err,
            FanOut.Own endorser (.error err) → isCancellation err = false := by
          intro endorser hmem err
          obtain ⟨service, hservice, rfl⟩ := List.mem_map.mp hmem
          exact hown service hservice inv reqTime err
        obtain ⟨endorser, hmem, hmade⟩ := FanOut.own_of_error hrun hdone hcaller hnone hcollect
        obtain ⟨service, hservice, rfl⟩ := List.mem_map.mp hmem
        exact ⟨hown service hservice inv reqTime err hmade,
          .inr ⟨inv, reqTime, hinv, service, hservice, hmade⟩⟩

/-- Two endorsers, the first of which rejects. -/
def halfRejecting : EndorsementClient Unit Unit where
  createInvocation _ := .ok ()
  endorsers := [fun _ _ _ reply => reply = .ok ⟨statusTxRejected, [], none⟩,
    fun _ _ _ reply => reply = .ok ⟨statusOK, [], some ()⟩]

/-- The second endorser is cancelled, and the error of the first is returned. -/
theorem halfRejecting_error : halfRejecting.ExecuteTransaction transfer₀.tx false
    (.error (.processTransaction [])) := by
  have hstart : FanOut.Run (halfRejecting.endorsers.map (· () transfer₀.tx 0)) _ := .start
  have hrun := (hstart.step
    (@FanOut.Step.answer _ _ _ (.ok ⟨statusTxRejected, [], none⟩) [] _ rfl (.inl rfl))).step
    (@FanOut.Step.answer _ _ _ (.error ⟨[], true, false⟩) [_] [] rfl (.inr ⟨rfl, _, rfl, rfl⟩))
  exact @ExecuteTransaction.collected _ _ halfRejecting transfer₀.tx () 0 _
    [.error (.processTransaction []), .error (.callEndorser ⟨[], true, false⟩)] rfl hrun rfl

theorem executeTransaction_spec_halfRejecting :
    isCancellation (.processTransaction []) = false ∧
      ((∃ err', halfRejecting.createInvocation transfer₀.tx = .error err' ∧
          ExecuteError.processTransaction [] = .invocation err') ∨
        ∃ inv reqTime, halfRejecting.createInvocation transfer₀.tx = .ok inv ∧
          ∃ endorser ∈ halfRejecting.endorsers,
            FanOut.Own (endorser inv transfer₀.tx reqTime) (.error (.processTransaction []))) := by
  refine (executeTransaction_spec halfRejecting_error).2 rfl ?_ _ rfl
  intro endorser hmem inv reqTime err hown
  obtain ⟨reply, hreply, hprocess⟩ := hown
  simp only [halfRejecting, List.mem_cons, List.not_mem_nil, or_false] at hmem
  rcases hmem with rfl | rfl
  · cases hreply
    cases hprocess
    rfl
  · cases hreply
    cases hprocess

end EndorsementClient

/-! ## What reaches the orderer -/

namespace Flow

/-- The service of an endorser: it answers as `Execute` does, on any snapshot and at any time, or
the call fails. -/
def serviceOf {μ : Type} (f : Peer EthTx μ ι π) (inv : ι) (tx : EthTx) (reqTime : Int) :
    Service π := fun reply =>
  (∃ snapshot now resp, f.execute snapshot now inv tx reqTime = .ok resp ∧ reply = .ok resp) ∨
    ∃ err, reply = .error err

end Flow

end Gateway
