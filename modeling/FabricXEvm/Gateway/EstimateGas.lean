import FabricXEvm.Endorser.Calls

/-!
# Gas estimation

`EstimateGas` probes the endorser at the ceiling, and then at guesses that double, until one
of them is enough.  The endorser may answer as it likes, also differently each time, so it is
a machine with a state of its own.  The probes are recorded.

The loop runs on fuel.  A guess of zero would never grow, and the first guess is zero if the
reported gas and the buffer add up to 2^64.  A report within the limit of its probe excludes
that, and then some fuel is enough (`search_ends`).
-/

namespace Gateway

open Endorser

def estimateGasCeiling : UInt64 := 10000000

/-- What EIP-2200 wants left over at every SSTORE. -/
def sstoreSentryBuffer : UInt64 := 2301

structure Probe where
  msg : CallMsg
  reply : Reply ServiceError

def Probe.Succeeded (p : Probe) : Prop := p.reply.err = none

/-- The endorser and what it was asked. -/
structure Session (σ : Type) where
  endorser : σ
  probes : List Probe := []

inductive EstimateError where
  | processCall (err : Bytes)
  | revert (reason data : Bytes)
  | exceedsAllowance (max : UInt64)
deriving DecidableEq, Repr

/-- What `probeGas` makes of a reply: the gas used and whether the call succeeded. -/
def probeResult (r : Reply ServiceError) : Except EstimateError (UInt64 × Bool) :=
  match r.err with
  | none => .ok (r.maxUsedGas, true)
  | some (.other message) => .error (.processCall message)
  | some (.call err) =>
      if err.reverted ∧ 0 < err.data.length then .error (.revert err.message err.data)
      -- out of gas, or a revert without data
      else .ok (r.maxUsedGas, false)

section

variable {σ : Type} (svc : CallService σ) (args : CallMsg) (blockNumber : Option Int)

/-- The call itself. -/
def probe (gas : UInt64) (s : Session σ) : Reply ServiceError × Session σ :=
  let msg := { args with gas := gas }
  let (reply, endorser) := svc s.endorser msg blockNumber
  (reply, { endorser := endorser, probes := s.probes ++ [{ msg := msg, reply := reply }] })

def probeGas (gas : UInt64) (s : Session σ) :
    Except EstimateError (UInt64 × Bool) × Session σ :=
  let r := probe svc args blockNumber gas s
  (probeResult r.1, r.2)

/-- The loop over the guesses.  There is no result if the fuel runs out. -/
def search : Nat → UInt64 → Session σ → Option (Except EstimateError UInt64 × Session σ)
  | 0, guess, s => if guess < estimateGasCeiling then none else some (.ok estimateGasCeiling, s)
  | fuel + 1, guess, s =>
    if guess < estimateGasCeiling then
      match probeGas svc args blockNumber guess s with
      | (.error err, s) => some (.error err, s)
      | (.ok (_, true), s) => some (.ok guess, s)
      | (.ok (_, false), s) => search fuel (guess * 2) s
    -- the ceiling was probed before
    else some (.ok estimateGasCeiling, s)

def estimateGas (fuel : Nat) (endorser : σ) : Option (Except EstimateError UInt64 × Session σ) :=
  match probeGas svc args blockNumber estimateGasCeiling { endorser := endorser } with
  | (.error err, s) => some (.error err, s)
  | (.ok (_, false), s) => some (.error (.exceedsAllowance estimateGasCeiling), s)
  | (.ok (maxUsedGas, true), s) =>
      search svc args blockNumber fuel (maxUsedGas + sstoreSentryBuffer) s

end

/-! ## The search ends -/

section

variable {σ : Type} {svc : CallService σ} {args : CallMsg} {blockNumber : Option Int}

/-- The guess is the gas limit of a recorded probe that succeeded. -/
def Session.Verifies (s : Session σ) (args : CallMsg) (g : UInt64) : Prop :=
  ∃ p ∈ s.probes, p.msg = { args with gas := g } ∧ p.Succeeded

theorem probe_probes (gas : UInt64) (s : Session σ) :
    (probe svc args blockNumber gas s).2.probes = s.probes ++
      [{ msg := { args with gas := gas }, reply := (probe svc args blockNumber gas s).1 }] := rfl

theorem probeResult_succeeded {r : Reply ServiceError} {used : UInt64}
    (h : probeResult r = .ok (used, true)) : r.err = none ∧ r.maxUsedGas = used := by
  unfold probeResult at h
  split at h
  next hnone =>
    cases h
    exact ⟨hnone, rfl⟩
  next => cases h
  next => split at h <;> cases h

theorem probe_verifies {gas used : UInt64} {s : Session σ}
    (h : probeResult (probe svc args blockNumber gas s).1 = .ok (used, true)) :
    (probe svc args blockNumber gas s).2.Verifies args gas := by
  have hlast : ({ msg := { args with gas := gas }, reply := (probe svc args blockNumber gas s).1 } :
      Probe) ∈ (probe svc args blockNumber gas s).2.probes := by
    rw [probe_probes]
    exact List.mem_append_right _ List.mem_cons_self
  exact ⟨_, hlast, rfl, (probeResult_succeeded h).1⟩

/-- A guess below the ceiling doubles without a carry. -/
theorem toNat_double {guess : UInt64} (h : guess < estimateGasCeiling) :
    (guess * 2).toNat = 2 * guess.toNat := by
  have hlt : guess.toNat < 10000000 := h
  rw [UInt64.toNat_mul]
  change guess.toNat * 2 % 2 ^ 64 = 2 * guess.toNat
  omega

theorem search_done {fuel : Nat} {guess : UInt64} {s : Session σ}
    (h : ¬ guess < estimateGasCeiling) :
    search svc args blockNumber fuel guess s = some (.ok estimateGasCeiling, s) := by
  cases fuel with
  | zero => rw [search, if_neg h]
  | succ fuel => rw [search, if_neg h]

theorem search_probe {fuel : Nat} {guess : UInt64} {s : Session σ}
    (h : guess < estimateGasCeiling) :
    search svc args blockNumber (fuel + 1) guess s =
      match probeResult (probe svc args blockNumber guess s).1 with
      | .error err => some (.error err, (probe svc args blockNumber guess s).2)
      | .ok (_, true) => some (.ok guess, (probe svc args blockNumber guess s).2)
      | .ok (_, false) =>
          search svc args blockNumber fuel (guess * 2) (probe svc args blockNumber guess s).2 := by
  rw [search, if_pos h, probeGas]
  cases probeResult (probe svc args blockNumber guess s).1 with
  | error err => rfl
  | ok r =>
      obtain ⟨used, ok⟩ := r
      cases ok <;> rfl

/-- What a search that began after some probes returns. -/
structure Found (args : CallMsg) (before : List Probe) (fuel : Nat)
    (res : Except EstimateError UInt64) (t : Session σ) : Prop where
  before_prefix : before <+: t.probes
  length_le : t.probes.length ≤ before.length + fuel
  verified : ∀ g, res = .ok g →
    g = estimateGasCeiling ∨ 0 < g ∧ g < estimateGasCeiling ∧ t.Verifies args g

/-- A search that goes on after a probe. -/
theorem Found.of_probe {gas : UInt64} {s t : Session σ} {fuel : Nat}
    {res : Except EstimateError UInt64}
    (h : Found args (probe svc args blockNumber gas s).2.probes fuel res t) :
    Found args s.probes (fuel + 1) res t where
  before_prefix := (List.prefix_append s.probes _).trans h.before_prefix
  length_le := by
    have hlen := h.length_le
    rw [probe_probes, List.length_append, List.length_singleton] at hlen
    omega
  verified := h.verified

variable (svc args blockNumber) in
/-- Fuel for the doublings up to the ceiling is enough. -/
theorem search_ends (fuel : Nat) {guess : UInt64} (s : Session σ) (hpos : 0 < guess.toNat)
    (hceil : estimateGasCeiling.toNat ≤ guess.toNat * 2 ^ fuel) :
    ∃ res t, (∀ n, fuel ≤ n → search svc args blockNumber n guess s = some (res, t)) ∧
      Found args s.probes fuel res t := by
  induction fuel generalizing guess s with
  | zero =>
      have hnot : ¬ guess < estimateGasCeiling := by
        rw [UInt64.lt_iff_toNat_lt]
        omega
      refine ⟨_, s, fun n _ => search_done hnot, List.prefix_rfl, Nat.le_refl _, ?_⟩
      rintro g ⟨⟩
      exact .inl rfl
  | succ fuel ih =>
      by_cases hlt : guess < estimateGasCeiling
      · have hrun : ∀ n, fuel + 1 ≤ n → ∃ m, fuel ≤ m ∧ n = m + 1 := fun n hn =>
          ⟨n - 1, by omega, by omega⟩
        cases hres : probeResult (probe svc args blockNumber guess s).1 with
        | error err =>
            refine ⟨.error err, (probe svc args blockNumber guess s).2, fun n hn => ?_,
              .of_probe ⟨List.prefix_rfl, Nat.le_add_right _ _, nofun⟩⟩
            obtain ⟨m, _, rfl⟩ := hrun n hn
            rw [search_probe hlt, hres]
        | ok r =>
            obtain ⟨used, ok⟩ := r
            cases ok with
            | true =>
                refine ⟨.ok guess, (probe svc args blockNumber guess s).2, fun n hn => ?_,
                  .of_probe ⟨List.prefix_rfl, Nat.le_add_right _ _, ?_⟩⟩
                · obtain ⟨m, _, rfl⟩ := hrun n hn
                  rw [search_probe hlt, hres]
                · rintro g ⟨⟩
                  exact .inr ⟨hpos, hlt, probe_verifies hres⟩
            | false =>
                have hdouble := toNat_double hlt
                rw [pow_succ] at hceil
                have hceil' : estimateGasCeiling.toNat ≤ (guess * 2).toNat * 2 ^ fuel := by
                  rw [hdouble]
                  linarith
                obtain ⟨res, t, hsearch, hfound⟩ :=
                  ih (probe svc args blockNumber guess s).2 (by omega) hceil'
                refine ⟨res, t, fun n hn => ?_, .of_probe hfound⟩
                obtain ⟨m, hm, rfl⟩ := hrun n hn
                rw [search_probe hlt, hres]
                exact hsearch m hm
      · refine ⟨_, s, fun n _ => search_done hlt, List.prefix_rfl, Nat.le_add_right _ _, ?_⟩
        rintro g ⟨⟩
        exact .inl rfl

/-- Whether a reply means that the gas was not enough. -/
def LacksGas (r : Reply ServiceError) : Prop :=
  ∃ err, r.err = some (.call err) ∧ (err.reverted = true → err.data = [])

theorem probeResult_of_lacksGas {r : Reply ServiceError} (h : LacksGas r) :
    probeResult r = .ok (r.maxUsedGas, false) := by
  obtain ⟨err, herr, hdata⟩ := h
  have hnot : ¬ (err.reverted = true ∧ 0 < err.data.length) := by
    rintro ⟨hrev, hlen⟩
    rw [hdata hrev] at hlen
    exact absurd hlen (Nat.lt_irrefl 0)
  rw [probeResult, herr]
  exact if_neg hnot

/-- The first guess is neither zero nor beyond 64 bits. -/
theorem toNat_firstGuess {used : UInt64} (h : used ≤ estimateGasCeiling) :
    (used + sstoreSentryBuffer).toNat = used.toNat + 2301 := by
  have hle : used.toNat ≤ 10000000 := h
  rw [UInt64.toNat_add]
  change (used.toNat + 2301) % 2 ^ 64 = used.toNat + 2301
  omega

/-- An endorser that reports no more gas than it was given gets at most 14 probes.  An estimate
is the gas limit of one of them that succeeded.  If the gas at the ceiling is not enough there
is no estimate. -/
theorem estimateGas_verified (args : CallMsg) (endorser : σ)
    (hgas : ∀ s msg, (svc s msg blockNumber).1.maxUsedGas ≤ msg.gas) :
    ∃ res t, (∀ fuel, 13 ≤ fuel → estimateGas svc args blockNumber fuel endorser = some (res, t)) ∧
      t.probes.length ≤ 14 ∧
      (∀ g, res = .ok g → 0 < g ∧ g ≤ estimateGasCeiling ∧ t.Verifies args g) ∧
      (LacksGas (svc endorser { args with gas := estimateGasCeiling } blockNumber).1 →
        ∃ err, res = .error err) := by
  set first := probe svc args blockNumber estimateGasCeiling { endorser := endorser } with hfirst
  have hone : first.2.probes.length = 1 := rfl
  have hreply : (svc endorser { args with gas := estimateGasCeiling } blockNumber).1 = first.1 := rfl
  have hused : first.1.maxUsedGas ≤ estimateGasCeiling := hgas _ _
  rw [hreply]
  cases hres : probeResult first.1 with
  | error err =>
      refine ⟨.error err, first.2, fun fuel _ => ?_, by omega, nofun, fun _ => ⟨err, rfl⟩⟩
      rw [estimateGas, probeGas, ← hfirst, hres]
  | ok r =>
      obtain ⟨used, ok⟩ := r
      cases ok with
      | false =>
          refine ⟨.error (.exceedsAllowance estimateGasCeiling), first.2, fun fuel _ => ?_, by omega,
            nofun, fun _ => ⟨_, rfl⟩⟩
          rw [estimateGas, probeGas, ← hfirst, hres]
      | true =>
          obtain ⟨hnone, rfl⟩ := probeResult_succeeded hres
          have hguess := toNat_firstGuess hused
          have hceil : estimateGasCeiling.toNat ≤
              (first.1.maxUsedGas + sstoreSentryBuffer).toNat * 2 ^ 13 := by
            rw [hguess]
            change 10000000 ≤ _
            omega
          obtain ⟨res, t, hsearch, hfound⟩ :=
            search_ends svc args blockNumber 13 first.2 (by omega) hceil
          refine ⟨res, t, fun fuel hfuel => ?_, ?_, fun g hg => ?_, fun hlack => ?_⟩
          · rw [estimateGas, probeGas, ← hfirst, hres]
            exact hsearch fuel hfuel
          · have hlen := hfound.length_le
            omega
          · rcases hfound.verified g hg with rfl | ⟨hpos, hlt, hver⟩
            · obtain ⟨p, hp, hver⟩ := probe_verifies hres
              exact ⟨by decide, UInt64.le_refl _, p, hfound.before_prefix.subset hp, hver⟩
            · exact ⟨hpos, UInt64.le_of_lt hlt, hver⟩
          · cases (probeResult_of_lacksGas hlack).symm.trans hres

end

/-- An endorser that counts its calls and wants 50000 gas for a call that uses 21000. -/
def reserving : CallService Nat := fun s msg _ =>
  if msg.gas < 50000 then
    ({ data := [], maxUsedGas := msg.gas
       err := some (.call { status := statusExecFailure, message := [], data := [] }) }, s + 1)
  else ({ data := [], maxUsedGas := 21000, err := none }, s + 1)

theorem reserving_gas (s : Nat) (msg : CallMsg) :
    (reserving s msg none).1.maxUsedGas ≤ msg.gas := by
  unfold reserving
  split
  next => exact UInt64.le_refl _
  next h =>
    have hle : 50000 ≤ msg.gas := UInt64.not_lt.mp h
    exact UInt64.le_trans (by decide : (21000 : UInt64) ≤ 50000) hle

/-- The guesses are 23301, 46602 and 93204. -/
theorem estimateGas_reserving :
    (∀ s msg, (reserving s msg none).1.maxUsedGas ≤ msg.gas) ∧
      ∃ t : Session Nat, (∀ fuel, 13 ≤ fuel →
        estimateGas reserving {} none fuel 0 = some (.ok 93204, t)) ∧ t.Verifies {} 93204 := by
  refine ⟨reserving_gas, ?_⟩
  obtain ⟨res, t, hrun, _, hverified, _⟩ :=
    estimateGas_verified {} 0 reserving_gas
  obtain rfl : res = .ok 93204 := by
    have h := (hrun 13 (Nat.le_refl _)).symm
    exact congrArg (fun o => o.1) (Option.some.inj h)
  exact ⟨t, hrun, (hverified 93204 rfl).2.2⟩

end Gateway
