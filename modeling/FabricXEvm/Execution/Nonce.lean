import FabricXEvm.Execution.Frames
import FabricXEvm.Execution.Observe

/-!
# Nonce writes and the reads that cover them

A nonce write is *covered* when the journal has a read of that nonce before it, and the
nonce in the store is not above the one written.  A caller that writes nonces only on top
of what it read, in the same or an enclosing frame, journals covered writes only: a revert
that takes back the read takes back the write as well.
-/

namespace Execution

open Blocks StateDB

/-- The nonce of an account in the store, `none` if it cannot be read. -/
def storeNonce (env : Backing) (a : Address) : Option UInt64 :=
  match env.store env.ns (nonceKey env a) with
  | .ok record => bytesToUint64 ((record.bind (·.value)).getD [])
  | .error _ => none

/-- The operation writes `v` as the nonce of `a`. -/
def Op.WritesNonce : Op → Address → UInt64 → Prop
  | .setNonce a v, b, w => a = b ∧ v = w
  | .createAccount a, b, w => a = b ∧ w = 0
  | _, _, _ => False

/-- The step returns `v` as the nonce of `a`, or says that there is none. -/
def Step.ReadsNonce (st : Step) (a : Address) (v : UInt64) : Prop :=
  match st.op, st.ret with
  | .getNonce b, .uint64 w => b = a ∧ w = v
  | .exist b, .bool false => b = a ∧ v = 0
  | .empty b, .bool true => b = a ∧ v = 0
  | _, _ => False

/-- Every nonce write of a trace is on top of an earlier read, made while only snapshots
that are still valid at the write were open. -/
def NonceDiscipline (steps : List Step) : Prop :=
  ∀ past st future, steps = past ++ st :: future → ∀ a v, st.op.WritesNonce a v →
    ∃ st' ∈ past, ∃ r ≤ v, st'.ReadsNonce a r ∧
      st'.after.validRevisions <+: st.before.validRevisions

theorem NonceDiscipline.nil : NonceDiscipline [] := by
  intro past st future hsteps
  simp at hsteps

/-- One more step, on top of a read. -/
theorem NonceDiscipline.concat {steps : List Step} (h : NonceDiscipline steps) (st : Step)
    (hst : ∀ a v, st.op.WritesNonce a v → ∃ st' ∈ steps, ∃ r ≤ v, st'.ReadsNonce a r ∧
      st'.after.validRevisions <+: st.before.validRevisions) :
    NonceDiscipline (steps ++ [st]) := by
  intro past st' future hsteps a v hw
  rcases List.eq_nil_or_concat future with rfl | ⟨future, last, rfl⟩
  · obtain ⟨rfl, hlast⟩ := List.append_inj' hsteps rfl
    cases hlast
    exact hst a v hw
  · rw [List.concat_eq_append, ← List.cons_append, ← List.append_assoc] at hsteps
    exact h past st' future (List.append_inj' hsteps rfl).1 a v hw

/-- One more step that writes no nonce. -/
theorem NonceDiscipline.quiet {steps : List Step} (h : NonceDiscipline steps) (st : Step)
    (hst : ∀ a v, ¬ st.op.WritesNonce a v) : NonceDiscipline (steps ++ [st]) :=
  h.concat st fun a v hw => absurd hw (hst a v)

/-- The journal `j` has a read of the nonce of `a`, and the store's is at most `v`. -/
structure Covered (env : Backing) (j : List JournalEntry) (a : Address) (v : UInt64) : Prop where
  read : ∃ r, .read r ∈ j ∧ r.key = nonceKey env a
  le : ∃ m, storeNonce env a = some m ∧ m ≤ v

theorem Covered.mono {env : Backing} {j j' : List JournalEntry} {a : Address} {v w : UInt64}
    (h : Covered env j a v) (hj : j ⊆ j') (hv : v ≤ w) : Covered env j' a w := by
  obtain ⟨r, hr, hk⟩ := h.read
  obtain ⟨m, hm, hle⟩ := h.le
  exact ⟨⟨r, hj hr, hk⟩, m, hm, UInt64.le_trans hle hv⟩

/-- Every nonce write in the journal is covered by what comes before it. -/
def NoncesOk (env : Backing) (s : StateDB) : Prop :=
  ∀ n w a, s.journal[n]? = some (.write w) → w.key = nonceKey env a →
    ∃ v, w = writeOf (nonceKey env a) (uint64ToBytes v) ∧ Covered env (s.journal.take n) a v

/-- The nonce writes of an operation. -/
theorem Op.MayWrite.nonce {env : Backing} {op : Op} {w : KVWrite} (h : op.MayWrite env w)
    {a : Address} (hk : w.key = nonceKey env a) :
    ∃ v, op.WritesNonce a v ∧ w = writeOf (nonceKey env a) (uint64ToBytes v) := by
  obtain ⟨f, hf, hfk⟩ := h.field
  have heq : f = .nonce a := Field.key_inj (hfk.symm.trans hk)
  subst heq
  cases op with
  | createAccount b =>
      have hb : a = b := by simpa [fields] using hf
      subst hb
      rcases h with rfl | rfl
      · rw [writeOf_key] at hk
        cases (Field.key_inj hk : Field.balance a = .nonce a)
      · exact ⟨0, ⟨rfl, rfl⟩, rfl⟩
  | setNonce b v =>
      have hb : a = b := by simpa [fields] using hf
      subst hb
      exact ⟨v, ⟨rfl, rfl⟩, h⟩
  | _ => simp [fields] at hf

namespace NoncesOk

variable {env : Backing} {s t : StateDB}

/-- A journal without writes. -/
theorem of_no_writes (h : ∀ w, .write w ∉ s.journal) : NoncesOk env s :=
  fun _ w _ hn _ => absurd (List.mem_of_getElem? hn) (h w)

theorem take (h : NoncesOk env s) (n : Nat) (hj : t.journal = s.journal.take n) :
    NoncesOk env t := by
  intro k w a hk hkey
  rw [hj, List.getElem?_take] at hk
  split at hk
  next hlt =>
    rw [hj, List.take_take, Nat.min_eq_left hlt.le]
    exact h k w a hk hkey
  next => cases hk

/-- Appending writes that the journal covers. -/
theorem append (h : NoncesOk env s) {W : KVWrite → Prop} (hmove : (appending env W).rel s t)
    (hW : ∀ w a, W w → w.key = nonceKey env a → ∃ v,
      w = writeOf (nonceKey env a) (uint64ToBytes v) ∧ Covered env s.journal a v) :
    NoncesOk env t := by
  obtain ⟨es, hj, hes⟩ := hmove
  intro n w a hn hk
  rw [hj] at hn ⊢
  rcases Nat.lt_or_ge n s.journal.length with hlt | hge
  · rw [List.getElem?_append_left hlt] at hn
    rw [List.take_append_of_le_length hlt.le]
    exact h n w a hn hk
  · rw [List.getElem?_append_right hge] at hn
    obtain ⟨v, hw, hcov⟩ := hW w a (hes _ (List.mem_of_getElem? hn)) hk
    refine ⟨v, hw, hcov.mono ?_ (UInt64.le_refl v)⟩
    rw [List.take_append, List.take_of_length_le hge]
    exact List.subset_append_left _ _

theorem getter (h : NoncesOk env s) {α : Type} {m : DB α}
    (hm : Comp.Moves (appending env fun _ => False) env m) {a : α} (hrun : m env s = .ok (a, t)) :
    NoncesOk env t :=
  h.append (hm hrun) fun _ _ hw _ => hw.elim

/-- One operation whose nonce writes are covered. -/
theorem exec (h : NoncesOk env s) {op : Op} {r : Ret} (hop : op.exec env s = .ok (r, t))
    (hcov : ∀ a v, op.WritesNonce a v → Covered env s.journal a v) : NoncesOk env t := by
  by_cases hrev : ∃ revid, op = .revertToSnapshot revid
  · obtain ⟨revid, rfl⟩ := hrev
    cases hop
    rcases revertToSnapshot_cases revid s with ⟨_, heq⟩ | ⟨idx, rev, _, _, _, heq⟩
    · rw [heq]
      exact h
    · rw [heq]
      exact h.take rev.journalIndex rfl
  · refine h.append (Op.exec_appending (fun revid hr => hrev ⟨revid, hr⟩) hop) ?_
    intro w a hw hk
    obtain ⟨v, hwrites, rfl⟩ := hw.nonce hk
    exact ⟨v, rfl, hcov a v hwrites⟩

end NoncesOk

/-! ## Reading a nonce -/

/-- A key without a write is read from the store, and the read is journaled. -/
theorem mem_journal_of_getState {env : Backing} {s t : StateDB} (h : IndexOk s) {key : Bytes}
    {r : Except StoreError (Option Bytes)} (hrun : getState key env s = .ok (r, t))
    (hnone : lastWrite s.journal key = none) {record : Option WriteRecord}
    (hstore : env.store env.ns key = .ok record) :
    .read (readOf env.monotonicVersions key record) ∈ t.journal := by
  have hj : getStateFromJournal key env s = _ := getStateFromJournal_run h key
  rw [hnone] at hj
  unfold getState at hrun
  rw [Comp.bind_run_ok hj] at hrun
  have hread := getStateFromStore_ok (s := { s with writeIdx := some (buildIndex s.journal) }) hstore
  cases hread.symm.trans hrun
  exact List.mem_append_right _ (List.mem_singleton_self _)

/-- The store answers every key of the namespace. -/
def Open (env : Backing) : Prop := ∀ key, ∃ record, env.store env.ns key = .ok record

theorem Open.value {env : Backing} (h : Open env) (s : StateDB) (key : Bytes) :
    ∃ val, value env s key = .ok val := by
  unfold StateDB.value
  cases lastWrite s.journal key with
  | some w => exact ⟨_, rfl⟩
  | none =>
      obtain ⟨record, hstore⟩ := h key
      exact ⟨record.bind (·.value), by simp only [hstore]; rfl⟩

section Reads

variable {env : Backing} {s t : StateDB} {a : Address}

theorem visible_writeOf_nonce (key : Bytes) (v : UInt64) :
    visible (writeOf key (uint64ToBytes v)) = some (uint64ToBytes v) := by
  rw [writeOf, if_neg (uint64ToBytes_ne_nil v)]
  rfl

/-- Whatever a nonce is read from, the journal covers the value read. -/
theorem covered_of_getState (hopen : Open env) (hi : IndexOk s) (hn : NoncesOk env s)
    {val : Option Bytes} (hrun : getState (nonceKey env a) env s = .ok (.ok val, t))
    {v : UInt64} (hv : bytesToUint64 (val.getD []) = some v) : Covered env t.journal a v := by
  obtain ⟨t', hval, _⟩ := getState_run hi env (nonceKey env a)
  have hvalue : value env s (nonceKey env a) = .ok val :=
    congrArg Prod.fst (Except.ok.inj (hval.symm.trans hrun))
  have hgrow : s.journal ⊆ t.journal := by
    obtain ⟨es, hj, _⟩ := moves_getState (W := fun _ => False) (nonceKey env a) hrun
    rw [hj]
    exact List.subset_append_left _ _
  cases hlast : lastWrite s.journal (nonceKey env a) with
  | some w =>
      -- from a write in the journal, which is covered itself
      obtain ⟨hmem, hk⟩ := mem_of_lastWrite hlast
      obtain ⟨n, hn'⟩ := List.mem_iff_getElem?.mp hmem
      obtain ⟨u, rfl, hcov⟩ := hn n w a hn' hk
      simp only [value, hlast, visible_writeOf_nonce] at hvalue
      cases hvalue
      rw [Option.getD_some, bytesToUint64_uint64ToBytes] at hv
      cases hv
      exact hcov.mono (List.Subset.trans (List.take_subset _ _) hgrow) (UInt64.le_refl v)
  | none =>
      obtain ⟨record, hstore⟩ := hopen (nonceKey env a)
      simp only [value, hlast, hstore] at hvalue
      cases hvalue
      refine ⟨⟨_, mem_journal_of_getState hi hrun hlast hstore, readOf_key _ _ _⟩, v, ?_, ?_⟩
      · rw [storeNonce, hstore]
        exact hv
      · exact UInt64.le_refl v

theorem covered_of_getNonce (hopen : Open env) (hi : IndexOk s) (hn : NoncesOk env s)
    {v : UInt64} (hrun : getNonce a env s = .ok (v, t)) : Covered env t.journal a v := by
  unfold getNonce at hrun
  rw [Comp.bind_run_ok rfl] at hrun
  obtain ⟨r, t', hget, hrest⟩ := Comp.of_bind_ok hrun
  cases r with
  | error err => cases hrest
  | ok val =>
      dsimp only at hrest
      cases hb : bytesToUint64 (val.getD []) with
      | none =>
          rw [hb] at hrest
          cases hrest
      | some n =>
          rw [hb] at hrest
          cases hrest
          exact covered_of_getState hopen hi hn hget hb

/-- `Exist` says no only after it read the nonce. -/
theorem covered_of_exist (hopen : Open env) (hi : IndexOk s) (hn : NoncesOk env s)
    (hrun : exist a env s = .ok (false, t)) : Covered env t.journal a 0 := by
  unfold exist at hrun
  rw [Comp.bind_run_ok rfl] at hrun
  obtain ⟨bal, s₁, hbal, hrun⟩ := Comp.of_bind_ok hrun
  have hi₁ : IndexOk s₁ := by
    obtain ⟨t', hget, hsame⟩ := getState_run hi env (balKey env a)
    cases hget.symm.trans hbal
    exact hsame.index
  have hn₁ := hn.getter (moves_getState _) hbal
  split at hrun
  next => cases hrun
  next =>
    obtain ⟨nonce, s₂, hnonce, hrun⟩ := Comp.of_bind_ok hrun
    split at hrun
    next => cases hrun
    next habsent =>
      obtain ⟨code, s₃, hcode, hrun⟩ := Comp.of_bind_ok hrun
      have hend : s₃ = t := congrArg Prod.snd (Except.ok.inj hrun)
      obtain ⟨es, hj, _⟩ := moves_getState (W := fun _ => False) _ hcode
      have hgrow : s₂.journal ⊆ t.journal := by
        rw [← hend, hj]
        exact List.subset_append_left _ _
      -- the store is open, so the nonce is absent
      have hval : nonce = .ok none := by
        obtain ⟨t', hget, _⟩ := getState_run hi₁ env (nonceKey env a)
        have hvalue : value env s₁ (nonceKey env a) = nonce :=
          congrArg Prod.fst (Except.ok.inj (hget.symm.trans hnonce))
        obtain ⟨val, hok⟩ := hopen.value s₁ (nonceKey env a)
        rw [← hvalue, hok] at habsent ⊢
        cases val with
        | none => rfl
        | some val => exact absurd rfl habsent
      subst hval
      exact (covered_of_getState hopen hi₁ hn₁ hnonce rfl).mono hgrow (UInt64.le_refl 0)

/-- `Empty` says yes only after it read a nonce of zero. -/
theorem covered_of_empty (hopen : Open env) (hi : IndexOk s) (hn : NoncesOk env s)
    (hrun : empty a env s = .ok (true, t)) : Covered env t.journal a 0 := by
  unfold empty at hrun
  obtain ⟨balance, s₁, hbal, hrun⟩ := Comp.of_bind_ok hrun
  have hn₁ := hn.getter (moves_getBalance a) hbal
  have hi₁ := ((local_getBalance a).moves hbal).index hi
  split at hrun
  next => cases hrun
  next =>
    obtain ⟨nonce, s₂, hnonce, hrun⟩ := Comp.of_bind_ok hrun
    split at hrun
    next => cases hrun
    next hzero =>
      obtain ⟨size, s₃, hsize, hrun⟩ := Comp.of_bind_ok hrun
      have hend : s₃ = t := congrArg Prod.snd (Except.ok.inj hrun)
      have hgrow : s₂.journal ⊆ t.journal :=
        hend ▸ ((local_getCodeSize a).moves hsize).journal.subset
      have hnonce0 : nonce = 0 := by
        rw [UInt64.not_lt] at hzero
        exact UInt64.le_antisymm hzero (UInt64.zero_le)
      rw [← hnonce0]
      exact (covered_of_getNonce hopen hi₁ hn₁ hnonce).mono hgrow (UInt64.le_refl _)

end Reads

/-- A step that reads a nonce leaves a journal that covers it. -/
theorem Step.ReadsNonce.covered {env : Backing} {st : Step} {a : Address} {v : UInt64}
    (h : st.ReadsNonce a v) (hopen : Open env) (hi : IndexOk st.before)
    (hn : NoncesOk env st.before) (hop : st.op.exec env st.before = .ok (st.ret, st.after)) :
    Covered env st.after.journal a v := by
  obtain ⟨op, ret, before, after⟩ := st
  unfold Step.ReadsNonce at h
  dsimp only at h hi hn hop ⊢
  split at h
  next b w =>
    obtain ⟨rfl, rfl⟩ := h
    obtain ⟨n, t, hrun, hret⟩ := Comp.of_bind_ok hop
    cases hret
    exact covered_of_getNonce hopen hi hn hrun
  next b =>
    obtain ⟨rfl, rfl⟩ := h
    obtain ⟨found, t, hrun, hret⟩ := Comp.of_bind_ok hop
    cases hret
    exact covered_of_exist hopen hi hn hrun
  next b =>
    obtain ⟨rfl, rfl⟩ := h
    obtain ⟨found, t, hrun, hret⟩ := Comp.of_bind_ok hop
    cases hret
    exact covered_of_empty hopen hi hn hrun
  next => exact h.elim

/-! ## A disciplined trace -/

/-- What is known of the steps before a state: the nonces they read are covered, and the
state was reached from theirs. -/
def PastOk (env : Backing) (past : List Step) (s : StateDB) : Prop :=
  ∀ st ∈ past, st.after.Inv ∧ Later st.after s ∧
    ∀ a v, st.ReadsNonce a v → Covered env st.after.journal a v

/-- Along a disciplined trace every nonce write stays covered. -/
theorem Trace.noncesOk {env : Backing} {s t : StateDB} {past steps : List Step}
    (htrace : Trace env s steps t) (hopen : Open env) (hdisc : NonceDiscipline (past ++ steps))
    (hs : s.Inv) (hn : NoncesOk env s) (hpast : PastOk env past s) : NoncesOk env t := by
  induction htrace generalizing past with
  | nil => exact hn
  | @cons op r s s' t steps hop _ ih =>
      have hs' := hs.exec hop
      -- a nonce write is covered by a read whose frames are still open
      have hcov : ∀ a v, op.WritesNonce a v → Covered env s.journal a v := by
        intro a v hw
        obtain ⟨st', hmem, r', hle, hread, hframes⟩ := hdisc past ⟨op, r, s, s'⟩ steps rfl a v hw
        obtain ⟨hinv, hlater, hreads⟩ := hpast st' hmem
        exact (hreads a r' hread).mono (hlater.journal hinv hframes).subset hle
      refine @ih (past ++ [⟨op, r, s, s'⟩]) ?_ hs' (hn.exec hop hcov) ?_
      · rwa [List.append_assoc]
      · intro st hst
        rcases List.mem_append.mp hst with hst | hst
        · obtain ⟨hinv, hlater, hreads⟩ := hpast st hst
          exact ⟨hinv, hlater.exec hop, hreads⟩
        · rw [List.mem_singleton.mp hst]
          exact ⟨hs', .refl s', fun a v hread => hread.covered hopen hs.index hn hop⟩

end Execution
