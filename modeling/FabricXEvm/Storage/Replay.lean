import FabricXEvm.Execution.Endorsement
import FabricXEvm.Execution.Revert
import FabricXEvm.Storage.Commit

/-!
# Replay protection

Signed transactions are endorsed against committed states, each of them any number of times
and against states that may be old by now.  The endorsements are committed in any order
under the ledger's rule: a transaction is valid when every version it read is the key's
current one, and the writes of a valid one give their keys new versions.

A version determines a value along the history of the ledger (`Evolves.value_eq`).  So a
valid transaction sees, when it commits, the nonces it was endorsed with.  Its own is the
one in the store, and it leaves a higher one behind; no transaction ever lowers a nonce.
Hence the valid transactions of a sender have increasing nonces (`nonces_increase`).
-/

namespace Storage

open Blocks Execution Execution.StateDB

/-- How a network reads its ledger. -/
structure Config where
  keccak : Bytes → Hash
  ns : Bytes
  monotonicVersions : Bool

/-- A backing on some committed data. -/
def Config.backing (cfg : Config) (data : Data) : Backing where
  keccak := cfg.keccak
  ns := cfg.ns
  store := Reader.get ⟨some { blockNumber := 0, data }⟩
  monotonicVersions := cfg.monotonicVersions

theorem Config.open_backing (cfg : Config) (data : Data) : Open (cfg.backing data) :=
  fun key => ⟨record data cfg.ns key, rfl⟩

/-! ## Versions and values -/

/-- The position of the write a record comes from. -/
def ValueVersion.stamp (e : ValueVersion) : Version := ⟨e.blockNum, e.txNum⟩

/-- Positions in the ledger, by block and then by transaction. -/
def before (v w : Version) : Prop :=
  v.blockNum < w.blockNum ∨ v.blockNum = w.blockNum ∧ v.txNum < w.txNum

theorem before.trans {u v w : Version} (h : before u v) (h' : before v w) : before u w := by
  unfold before at *
  omega

theorem before.ne {v w : Version} (h : before v w) : v ≠ w := by
  rintro rfl
  unfold before at h
  omega

/-- Data whose tombstones are empty and whose writes are not after `stamp`. -/
structure DataOk (data : Data) (stamp : Version) : Prop where
  tombstones : ∀ {key e}, data key = some e → e.isDelete = true → e.value = none
  stamps : ∀ {key e}, data key = some e → e.stamp = stamp ∨ before e.stamp stamp

/-- A later position in the ledger. -/
theorem DataOk.later {data : Data} {stamp stamp' : Version} (hd : DataOk data stamp)
    (hstamp : before stamp stamp') : DataOk data stamp' where
  tombstones := hd.tombstones
  stamps he := by
    rcases hd.stamps he with heq | hlt
    · exact .inr (heq ▸ hstamp)
    · exact .inr (hlt.trans hstamp)

/-- `data'` came after `data`: a record is still there, or a later write replaced it. -/
def Evolves (data data' : Data) : Prop :=
  ∀ ⦃key e⦄, data key = some e → ∃ e', data' key = some e' ∧
    (e' = e ∨ e.version < e'.version ∧ before e.stamp e'.stamp)

theorem Evolves.refl (data : Data) : Evolves data data := fun _ _ h => ⟨_, h, .inl rfl⟩

theorem Evolves.trans {d₁ d₂ d₃ : Data} (h : Evolves d₁ d₂) (h' : Evolves d₂ d₃) :
    Evolves d₁ d₃ := by
  intro key e he
  obtain ⟨e₂, he₂, h₂⟩ := h he
  obtain ⟨e₃, he₃, h₃⟩ := h' he₂
  refine ⟨e₃, he₃, ?_⟩
  rcases h₂ with rfl | ⟨hv₂, hs₂⟩
  · exact h₃
  · rcases h₃ with rfl | ⟨hv₃, hs₃⟩
    · exact .inr ⟨hv₂, hs₂⟩
    · exact .inr ⟨hv₂.trans hv₃, hs₂.trans hs₃⟩

/-- The value of a key in the ledger. -/
def valueOf (data : Data) (ns key : Bytes) : Option Bytes :=
  (record data ns key).bind (·.value)

/-- The version of a key in the ledger, none for an absent or deleted key. -/
def versionOf (cfg : Config) (data : Data) (key : Bytes) : Option Version :=
  (readOf cfg.monotonicVersions key (record data cfg.ns key)).version

/-- The version a read of the record has. -/
def ValueVersion.seen (monotonicVersions : Bool) (e : ValueVersion) : Option Version :=
  if e.isDelete then none
  else if monotonicVersions then some { blockNum := e.version }
  else some e.stamp

theorem readOf_record (monotonicVersions : Bool) (data : Data) (ns key : Bytes) :
    (readOf monotonicVersions key (record data ns key)).version =
      (data (fullKey ns key)).bind (·.seen monotonicVersions) := by
  unfold record
  cases data (fullKey ns key) with
  | none => rfl
  | some e =>
      simp only [Option.map_some, Option.bind_some, readOf, ValueVersion.seen]
      split
      next => rfl
      next => split <;> rfl

theorem versionOf_eq (cfg : Config) (data : Data) (key : Bytes) :
    versionOf cfg data key = (data (fullKey cfg.ns key)).bind (·.seen cfg.monotonicVersions) :=
  readOf_record cfg.monotonicVersions data cfg.ns key

theorem valueOf_eq (data : Data) (ns key : Bytes) :
    valueOf data ns key = (data (fullKey ns key)).bind (·.value) := by
  unfold valueOf record
  cases data (fullKey ns key) <;> rfl

/-- A later write of a key has another version, unless both are deletes. -/
theorem ValueVersion.seen_eq {monotonicVersions : Bool} {e e' : ValueVersion}
    (h : e.seen monotonicVersions = e'.seen monotonicVersions)
    (hlater : e.version < e'.version ∧ before e.stamp e'.stamp) :
    e.isDelete = true ∧ e'.isDelete = true := by
  unfold seen at h
  cases hd : e.isDelete with
  | true =>
      cases hd' : e'.isDelete with
      | true => exact ⟨rfl, rfl⟩
      | false =>
          rw [hd, hd'] at h
          cases monotonicVersions <;> cases h
  | false =>
      cases hd' : e'.isDelete with
      | true =>
          rw [hd, hd'] at h
          cases monotonicVersions <;> cases h
      | false =>
          rw [hd, hd'] at h
          cases monotonicVersions with
          | true =>
              have hv : e.version = e'.version := by simpa using h
              omega
          | false => exact absurd (by simpa using h) hlater.2.ne

/-- Along the history of the ledger, the version of a key determines its value. -/
theorem Evolves.value_eq {cfg : Config} {data data' : Data} {stamp stamp' : Version} {key : Bytes}
    (h : Evolves data data') (hd : DataOk data stamp) (hd' : DataOk data' stamp')
    (hv : versionOf cfg data key = versionOf cfg data' key) :
    valueOf data cfg.ns key = valueOf data' cfg.ns key := by
  rw [versionOf_eq, versionOf_eq] at hv
  rw [valueOf_eq, valueOf_eq]
  cases he : data (fullKey cfg.ns key) with
  | none =>
      rw [he, Option.bind_none] at hv
      cases he' : data' (fullKey cfg.ns key) with
      | none => rfl
      | some e' =>
          -- absent before, so deleted by now
          rw [he', Option.bind_some, ValueVersion.seen] at hv
          split at hv
          next hdel => exact (hd'.tombstones he' hdel).symm
          next => split at hv <;> cases hv
  | some e =>
      obtain ⟨e', he', hsame⟩ := h he
      rw [he, he', Option.bind_some, Option.bind_some] at hv
      rw [he']
      rcases hsame with rfl | hlater
      · rfl
      · obtain ⟨hdel, hdel'⟩ := ValueVersion.seen_eq hv hlater
        rw [Option.bind_some, Option.bind_some, hd.tombstones he hdel, hd'.tombstones he' hdel']

/-! ## The network -/

/-- An endorsed transaction. -/
structure Endorsement (τ : Type) where
  tx : τ
  rws : ReadWriteSet

/-- A committed transaction: whether it was valid, and the ledger just before it. -/
structure Commit (τ : Type) where
  tx : τ
  valid : Bool
  before : Data

/-- The ledger with all its earlier states, what was endorsed, and what was committed, in
order. -/
structure Network (τ : Type) where
  current : Data
  earlier : List Data := []
  stamp : Version
  endorsed : List (Endorsement τ) := []
  commits : List (Commit τ) := []

/-- The ledger's rule: every version read is the current one. -/
def mvccValid (cfg : Config) (data : Data) (rws : ReadWriteSet) : Bool :=
  rws.reads.all fun r => r.version == versionOf cfg data r.key

/-- The data after the writes of a valid transaction. -/
def applyWrites (cfg : Config) (data : Data) (stamp : Version) (txID : Bytes)
    (rws : ReadWriteSet) : Data :=
  applyUpdates data (collectWrites [⟨cfg.ns, rws⟩] stamp.blockNum stamp.txNum txID true)

/-- Commit an endorsement at a position. -/
def Network.commit {τ : Type} (cfg : Config) (n : Network τ) (e : Endorsement τ) (stamp : Version)
    (txID : Bytes) : Network τ :=
  let valid := mvccValid cfg n.current e.rws
  { n with
    current := if valid then applyWrites cfg n.current stamp txID e.rws else n.current
    earlier := n.current :: n.earlier
    stamp := stamp
    commits := n.commits ++ [⟨e.tx, valid, n.current⟩] }

section Network

variable {τ μ : Type} (h : Executor τ μ) (cfg : Config)

/-- The steps of a network: endorse a transaction against some committed state, or commit an
endorsement, possibly again, at the next position. -/
inductive NetStep : Network τ → Network τ → Prop where
  | endorse {n : Network τ} {tx : τ} {data : Data} {rws : ReadWriteSet}
      (hdata : data ∈ n.current :: n.earlier)
      (hrun : h.endorse (cfg.backing data) tx = .ok (some rws)) :
      NetStep n { n with endorsed := ⟨tx, rws⟩ :: n.endorsed }
  | commit {n : Network τ} {e : Endorsement τ} (he : e ∈ n.endorsed) (stamp : Version)
      (txID : Bytes) (hstamp : before n.stamp stamp) : NetStep n (n.commit cfg e stamp txID)

/-- The networks reached from a ledger without endorsements. -/
inductive NetReachable : Network τ → Prop where
  | init {data : Data} {stamp : Version} (hdata : DataOk data stamp) :
      NetReachable { current := data, stamp }
  | step {n n' : Network τ} (hn : NetReachable n) (hstep : NetStep h cfg n n') : NetReachable n'

end Network

/-! ## A valid commit -/

section ValidCommit

variable {cfg : Config} {data : Data} {stamp stamp' : Version} {txID : Bytes} {rws : ReadWriteSet}

theorem applyWrites_eq (cfg : Config) (data : Data) (stamp : Version) (txID : Bytes)
    (rws : ReadWriteSet) :
    applyWrites cfg data stamp txID rws =
      (rws.writes.map (updateOf cfg.ns stamp.blockNum stamp.txNum txID)).foldl put data := by
  rw [applyWrites, applyUpdates_eq_foldl, collectWrites_single]

/-- A record after a commit: the transaction's own, or the one before. -/
theorem applyWrites_cases (hnodup : (rws.writes.map KVWrite.key).Nodup) (key : Bytes) :
    (∃ w ∈ rws.writes, applyWrites cfg data stamp' txID rws key =
        some ((updateOf cfg.ns stamp'.blockNum stamp'.txNum txID w).at (nextVersion data key))) ∨
      applyWrites cfg data stamp' txID rws key = data key := by
  rw [applyWrites_eq]
  rcases foldl_put_cases data (nodup_updates hnodup) key with ⟨u, hu, _, hrec⟩ | hsame
  · obtain ⟨w, hw, rfl⟩ := List.mem_map.mp hu
    exact .inl ⟨w, hw, hrec⟩
  · exact .inr hsame

theorem dataOk_applyWrites (hd : DataOk data stamp) (hstamp : before stamp stamp')
    (hnodup : (rws.writes.map KVWrite.key).Nodup)
    (htomb : ∀ w ∈ rws.writes, w.isDelete = true → w.value = none) :
    DataOk (applyWrites cfg data stamp' txID rws) stamp' where
  tombstones {key e} he hdel := by
    rcases applyWrites_cases hnodup key with ⟨w, hw, hrec⟩ | hsame
    · cases hrec.symm.trans he
      exact htomb w hw hdel
    · exact hd.tombstones (hsame ▸ he) hdel
  stamps {key e} he := by
    rcases applyWrites_cases hnodup key with ⟨w, hw, hrec⟩ | hsame
    · cases hrec.symm.trans he
      exact .inl rfl
    · exact (hd.later hstamp).stamps (hsame ▸ he)

theorem evolves_applyWrites (hd : DataOk data stamp) (hstamp : before stamp stamp')
    (hnodup : (rws.writes.map KVWrite.key).Nodup) :
    Evolves data (applyWrites cfg data stamp' txID rws) := by
  intro key e he
  rcases applyWrites_cases hnodup key with ⟨w, hw, hrec⟩ | hsame
  · refine ⟨_, hrec, .inr ⟨?_, ?_⟩⟩
    · simp [KeyValueVersion.at, nextVersion, he]
    · change before e.stamp stamp'
      rcases hd.stamps he with heq | hlt
      · exact heq ▸ hstamp
      · exact hlt.trans hstamp
  · exact ⟨e, hsame.trans he, .inl rfl⟩

end ValidCommit

section Nonces

variable {cfg : Config} {data cur : Data} {stamp stamp' : Version} {sender : Address}
  {nonce : UInt64} {rws : ReadWriteSet}

/-- The nonce of an account in some committed data. -/
def nonceAt (cfg : Config) (data : Data) (a : Address) : Option UInt64 :=
  storeNonce (cfg.backing data) a

/-- The key of a nonce is the same whatever the data. -/
theorem nonceAt_eq (data' : Data) (a : Address) :
    nonceAt cfg data a =
      bytesToUint64 ((valueOf data cfg.ns (nonceKey (cfg.backing data') a)).getD []) := rfl

/-- When an endorsement is valid, what it read has not changed. -/
theorem value_eq_of_valid (hend : Endorsed (cfg.backing data) sender nonce rws)
    (hev : Evolves data cur) (hd : DataOk data stamp) (hc : DataOk cur stamp')
    (hvalid : mvccValid cfg cur rws = true) {key : Bytes} (hkey : key ∈ rws.reads.map KVRead.key) :
    valueOf data cfg.ns key = valueOf cur cfg.ns key := by
  obtain ⟨r, hr, rfl⟩ := List.mem_map.mp hkey
  refine hev.value_eq hd hc ?_
  have hcur : r.version = versionOf cfg cur r.key := by
    simpa using List.all_eq_true.mp hvalid r hr
  obtain ⟨record, hrec, hread⟩ := hend.reads r hr
  cases hrec
  have hold : r.version = versionOf cfg data r.key := congrArg KVRead.version hread
  exact hold.symm.trans hcur

theorem nonceAt_eq_of_valid (hend : Endorsed (cfg.backing data) sender nonce rws)
    (hev : Evolves data cur) (hd : DataOk data stamp) (hc : DataOk cur stamp')
    (hvalid : mvccValid cfg cur rws = true) {a : Address}
    (hkey : nonceKey (cfg.backing data) a ∈ rws.reads.map KVRead.key) :
    nonceAt cfg data a = nonceAt cfg cur a := by
  rw [nonceAt_eq data, nonceAt_eq data, value_eq_of_valid hend hev hd hc hvalid hkey]

/-- The nonce of an account after its nonce key was written. -/
theorem nonceAt_written {txID : Bytes} (hnodup : (rws.writes.map KVWrite.key).Nodup)
    {a : Address} {v : UInt64}
    (hw : writeOf (nonceKey (cfg.backing data) a) (uint64ToBytes v) ∈ rws.writes) :
    nonceAt cfg (applyWrites cfg cur stamp txID rws) a = some v := by
  have hrec := @foldl_put_written cfg.ns stamp.blockNum stamp.txNum txID _ hnodup cur _ hw
  rw [writeOf_key] at hrec
  rw [nonceAt_eq data, valueOf_eq, applyWrites_eq, hrec]
  simp [updateOf, KeyValueVersion.at, writeOf, uint64ToBytes_ne_nil]

theorem nonceAt_unwritten {txID : Bytes} {a : Address}
    (hkey : nonceKey (cfg.backing data) a ∉ rws.writes.map KVWrite.key) :
    nonceAt cfg (applyWrites cfg cur stamp txID rws) a = nonceAt cfg cur a := by
  rw [nonceAt_eq data, nonceAt_eq data, valueOf_eq, valueOf_eq, applyWrites_eq,
    foldl_put_unwritten cur hkey]

/-- A valid transaction lowers no nonce. -/
theorem nonceAt_mono {stamp₂ : Version} {txID : Bytes}
    (hend : Endorsed (cfg.backing data) sender nonce rws) (hev : Evolves data cur)
    (hd : DataOk data stamp) (hc : DataOk cur stamp')
    (hvalid : mvccValid cfg cur rws = true) {a : Address} {m : UInt64}
    (hm : nonceAt cfg cur a = some m) :
    ∃ v, nonceAt cfg (applyWrites cfg cur stamp₂ txID rws) a = some v ∧ m ≤ v := by
  by_cases hkey : nonceKey (cfg.backing data) a ∈ rws.writes.map KVWrite.key
  · obtain ⟨w, hw, hwkey⟩ := List.mem_map.mp hkey
    obtain ⟨v, rfl, hread, m', hm', hle⟩ := hend.covered w hw a hwkey
    have hsame : nonceAt cfg cur a = some m' :=
      (nonceAt_eq_of_valid hend hev hd hc hvalid hread).symm.trans hm'
    cases hm.symm.trans hsame
    exact ⟨v, nonceAt_written hend.nodup hw, hle⟩
  · exact ⟨m, (nonceAt_unwritten hkey).trans hm, UInt64.le_refl m⟩

end Nonces

/-! ## Runs of the network -/

section Runs

variable {τ μ : Type} (h : Executor τ μ) (cfg : Config)

/-- Two commits, the first of them earlier: if both are valid and of one sender, the later
one has the higher nonce. -/
def Ascending (c c' : Commit τ) : Prop :=
  c.valid = true → c'.valid = true → ∀ sender, h.geth.sender c.tx = .ok sender →
    h.geth.sender c'.tx = .ok sender → h.geth.nonce c.tx < h.geth.nonce c'.tx

/-- A valid commit has the nonce its sender has in the ledger just before. -/
def Current (c : Commit τ) : Prop :=
  c.valid = true → ∃ sender, h.geth.sender c.tx = .ok sender ∧
    nonceAt cfg c.before sender = some (h.geth.nonce c.tx)

/-- The sender of a valid commit has moved on. -/
def Passed (data : Data) (c : Commit τ) : Prop :=
  c.valid = true → ∀ sender, h.geth.sender c.tx = .ok sender →
    ∃ m, nonceAt cfg data sender = some m ∧ h.geth.nonce c.tx < m

/-- The endorsement was made on `data`. -/
def EndorsedOn (data : Data) (e : Endorsement τ) : Prop :=
  ∃ sender, h.geth.sender e.tx = .ok sender ∧
    Endorsed (cfg.backing data) sender (h.geth.nonce e.tx) e.rws

/-- The invariant of a network. -/
structure NetInv (n : Network τ) : Prop where
  ledger : DataOk n.current n.stamp
  history : ∀ data ∈ n.current :: n.earlier,
    Evolves data n.current ∧ ∃ stamp, DataOk data stamp
  endorsed : ∀ e ∈ n.endorsed, ∃ data ∈ n.current :: n.earlier, EndorsedOn h cfg data e
  ordered : n.commits.Pairwise (Ascending h)
  exact : ∀ c ∈ n.commits, Current h cfg c
  passed : ∀ c ∈ n.commits, Passed h cfg n.current c

variable {h cfg}

theorem NetInv.init {data : Data} {stamp : Version} (hdata : DataOk data stamp) :
    NetInv h cfg { current := data, stamp } where
  ledger := hdata
  history d hd := by
    rw [List.mem_singleton.mp hd]
    exact ⟨Evolves.refl data, stamp, hdata⟩
  endorsed _ he := nomatch he
  ordered := .nil
  exact _ hc := nomatch hc
  passed _ hc := nomatch hc

theorem NetInv.endorse {n : Network τ} (hinv : NetInv h cfg n) (hg : GethOk h.geth) {tx : τ}
    {data : Data} {rws : ReadWriteSet} (hdata : data ∈ n.current :: n.earlier)
    (hrun : h.endorse (cfg.backing data) tx = .ok (some rws)) :
    NetInv h cfg { n with endorsed := ⟨tx, rws⟩ :: n.endorsed } :=
  { hinv with
    endorsed := by
      intro e he
      rcases List.mem_cons.mp he with rfl | he
      · exact ⟨data, hdata, h.endorsed hg (cfg.open_backing data) hrun⟩
      · exact hinv.endorsed e he }

/-- The ledger moves on to `data` with a commit. -/
theorem NetInv.advance {n : Network τ} (hinv : NetInv h cfg n) {data : Data} {stamp : Version}
    {c : Commit τ} (hev : Evolves n.current data) (hdata : DataOk data stamp)
    (hmono : ∀ {a m}, nonceAt cfg n.current a = some m → ∃ v, nonceAt cfg data a = some v ∧ m ≤ v)
    (hbefore : c.before = n.current) (hcurrent : Current h cfg c) (hpassed : Passed h cfg data c) :
    NetInv h cfg { n with
      current := data, earlier := n.current :: n.earlier, stamp, commits := n.commits ++ [c] } where
  ledger := hdata
  history d hd := by
    rcases List.mem_cons.mp hd with rfl | hd
    · exact ⟨Evolves.refl _, stamp, hdata⟩
    · exact ⟨(hinv.history d hd).1.trans hev, (hinv.history d hd).2⟩
  endorsed e he := by
    obtain ⟨d, hd, hend⟩ := hinv.endorsed e he
    exact ⟨d, List.mem_cons_of_mem _ hd, hend⟩
  ordered := by
    refine List.pairwise_append.mpr ⟨hinv.ordered, List.pairwise_singleton _ _, ?_⟩
    intro c₀ hc₀ c' hc' hvalid₀ hvalid sender hs₀ hs
    cases List.mem_singleton.mp hc'
    -- the earlier commit's sender has passed its nonce, and the new one has the current nonce
    obtain ⟨m, hm, hlt⟩ := hinv.passed c₀ hc₀ hvalid₀ sender hs₀
    obtain ⟨sender', hs', hnonce⟩ := hcurrent hvalid
    cases hs.symm.trans hs'
    rw [hbefore] at hnonce
    cases hm.symm.trans hnonce
    exact hlt
  exact c' hc' := by
    rcases List.mem_append.mp hc' with hold | hnew
    · exact hinv.exact c' hold
    · rw [List.mem_singleton.mp hnew]
      exact hcurrent
  passed c' hc' := by
    rcases List.mem_append.mp hc' with hold | hnew
    · intro hvalid sender hs
      obtain ⟨m, hm, hlt⟩ := hinv.passed c' hold hvalid sender hs
      obtain ⟨v, hv, hle⟩ := hmono hm
      exact ⟨v, hv, UInt64.lt_of_lt_of_le hlt hle⟩
    · rw [List.mem_singleton.mp hnew]
      exact hpassed

theorem NetInv.commit {n : Network τ} (hinv : NetInv h cfg n) {e : Endorsement τ}
    (he : e ∈ n.endorsed) {stamp : Version} {txID : Bytes} (hstamp : before n.stamp stamp) :
    NetInv h cfg (n.commit cfg e stamp txID) := by
  unfold Network.commit
  cases hvalid : mvccValid cfg n.current e.rws with
  | false =>
      refine hinv.advance (Evolves.refl _) (hinv.ledger.later hstamp) ?_ rfl ?_ ?_
      · intro a m hm
        exact ⟨m, hm, UInt64.le_refl m⟩
      · intro hc
        cases hc
      · intro hc
        cases hc
  | true =>
      obtain ⟨data, hdata, sender, hsender, hend⟩ := hinv.endorsed e he
      obtain ⟨hev, stamp₀, hok⟩ := hinv.history data hdata
      have hnonce : nonceAt cfg n.current sender = some (h.geth.nonce e.tx) :=
        (nonceAt_eq_of_valid hend hev hok hinv.ledger hvalid hend.gate).symm.trans hend.current
      refine hinv.advance (evolves_applyWrites hinv.ledger hstamp hend.nodup)
        (dataOk_applyWrites hinv.ledger hstamp hend.nodup hend.tombstones)
        (nonceAt_mono hend hev hok hinv.ledger hvalid) rfl ?_ ?_
      · intro _
        exact ⟨sender, hsender, hnonce⟩
      · intro _ sender' hsender'
        cases hsender.symm.trans hsender'
        obtain ⟨v, hv, hlt⟩ := hend.bump
        exact ⟨v, nonceAt_written hend.nodup hv, hlt⟩

theorem NetReachable.inv {n : Network τ} (hg : GethOk h.geth) (hn : NetReachable h cfg n) :
    NetInv h cfg n := by
  induction hn with
  | init hdata => exact .init hdata
  | step _ hstep ih =>
      cases hstep with
      | endorse hdata hrun => exact ih.endorse hg hdata hrun
      | commit he stamp txID hstamp => exact ih.commit he hstamp

/-- In every run the valid transactions of each sender have strictly increasing nonces in
commit order, and each one's nonce is the one its sender has just before it commits. -/
theorem nonces_increase {n : Network τ} (hg : GethOk h.geth) (hn : NetReachable h cfg n) :
    n.commits.Pairwise (Ascending h) ∧ ∀ c ∈ n.commits, Current h cfg c :=
  ⟨(hn.inv hg).ordered, (hn.inv hg).exact⟩

end Runs

/-! ## A run -/

/-- A transaction that uses up its nonce. -/
structure Ping where
  sender : Address
  nonce : UInt64

/-- go-ethereum for such transactions, with some `core.ApplyMessage`. -/
def pings (applyMessage : Message Unit → Caller (Except String ExecutionResult)) :
    Executor Ping Unit where
  geth :=
    { sender := fun tx => .ok tx.sender
      nonce := Ping.nonce
      transactionToMessage := fun tx => .ok
        { sender := tx.sender, nonce := tx.nonce, gasLimit := 0, gasPrice := 0, gasFeeCap := 0,
          gasTipCap := 0, rest := () }
      applyMessage
      unpackRevert := fun _ => none }
  maxTxGas := 0

/-- `core.ApplyMessage` of a transaction that does nothing else. -/
def applyPing (msg : Message Unit) : Caller (Except String ExecutionResult) :=
  .call (.getNonce msg.sender) fun ret =>
    if ret = .uint64 msg.nonce ∧ msg.nonce < msg.nonce + 1 then
      .call (.setNonce msg.sender (msg.nonce + 1)) fun _ => .done (.ok ⟨[], 21000, 21000, none⟩)
    else .done (.error "nonce")

/-- An executor of pings. -/
def pinger : Executor Ping Unit := pings applyPing

/-- A call that is reverted. -/
def revertTo (snapshot : Ret) : Caller (Except String ExecutionResult) :=
  let revid := match snapshot with
    | .int id => id
    | _ => 0
  .call (.revertToSnapshot revid) fun _ =>
    .done (.ok ⟨[], 21000, 21000, some .executionReverted⟩)

/-- The call of account `2`, which is created for it if there is none, and reverts. -/
def revertedCall : Caller (Except String ExecutionResult) :=
  .call .snapshot fun snapshot =>
    .call (.exist 2) fun ret =>
      if ret = .bool false then .call (.createAccount 2) fun _ => revertTo snapshot
      else revertTo snapshot

/-- `core.ApplyMessage` of a transaction whose call reverts after its nonce is used up. -/
def applyBounce (msg : Message Unit) : Caller (Except String ExecutionResult) :=
  .call (.getNonce msg.sender) fun ret =>
    if ret = .uint64 msg.nonce ∧ msg.nonce < msg.nonce + 1 then
      .call (.setNonce msg.sender (msg.nonce + 1)) fun _ => revertedCall
    else .done (.error "nonce")

/-- An executor of such transactions. -/
def bouncer : Executor Ping Unit := pings applyBounce

/-- Taking back the frame of `s`. -/
theorem revertTo_run {env : Backing} {s t u : StateDB} {ops : List Op} {steps : List Step}
    {result : Except String ExecutionResult} (hs : s.Inv)
    (hframe : runOps env ops s.snapshot = .ok u) (hafter : ∀ op ∈ ops, op.After s.nextRevisionId)
    (hrun : (revertTo (.int s.nextRevisionId)).run env u = .ok (result, steps, t)) :
    t.journal = s.journal ∧ steps = [⟨.revertToSnapshot s.nextRevisionId, .unit, u, t⟩] := by
  obtain ⟨r, t', steps', hrevert, rfl, hdone⟩ := Caller.run_call_ok hrun
  cases hdone
  cases hrevert
  exact ⟨(revertToSnapshot_spec hs hframe hafter).1, rfl⟩

/-- A reverted call leaves the journal as it was, and writes a nonce only where it saw that
there is none. -/
theorem revertedCall_run {env : Backing} {s t : StateDB} {steps past : List Step}
    {result : Except String ExecutionResult} (hs : s.Inv) (hpast : NonceDiscipline past)
    (hrun : revertedCall.run env s = .ok (result, steps, t)) :
    t.journal = s.journal ∧ NonceDiscipline (past ++ steps) ∧
      ∀ st ∈ steps, ∀ revid, st.op = .revertToSnapshot revid → revid = s.nextRevisionId := by
  obtain ⟨r, s', steps', hsnap, rfl, hrest⟩ := Caller.run_call_ok hrun
  cases hsnap
  obtain ⟨there, u, steps', hexist, rfl, hcall⟩ := Caller.run_call_ok hrest
  have hopened := (hpast.quiet ⟨.snapshot, .int s.nextRevisionId, s, s.snapshot⟩
    fun _ _ hw => hw.elim).quiet ⟨.exist 2, there, s.snapshot, u⟩ fun _ _ hw => hw.elim
  split at hcall
  next hnew =>
    subst hnew
    obtain ⟨r, u', steps', hcreate, rfl, hback⟩ := Caller.run_call_ok hcall
    have hframe : runOps env [.exist 2, .createAccount 2] s.snapshot = .ok u' := by
      simp only [runOps, hexist, hcreate]
    obtain ⟨hjournal, rfl⟩ := revertTo_run hs hframe (by simp [Op.After]) hback
    refine ⟨hjournal, ?_, by simp⟩
    have hcreated := hopened.concat ⟨.createAccount 2, r, u, u'⟩ fun a v hw => by
      obtain ⟨rfl, rfl⟩ := hw
      exact ⟨_, List.mem_append_right _ (List.mem_singleton_self _), 0, UInt64.le_refl 0,
        ⟨rfl, rfl⟩, List.prefix_rfl⟩
    simpa using hcreated.quiet ⟨.revertToSnapshot s.nextRevisionId, .unit, u', t⟩
      fun _ _ hw => hw.elim
  next =>
    have hframe : runOps env [.exist 2] s.snapshot = .ok u := by
      simp only [runOps, hexist]
    obtain ⟨hjournal, rfl⟩ := revertTo_run hs hframe (by simp [Op.After]) hcall
    refine ⟨hjournal, ?_, by simp⟩
    simpa using hopened.quiet ⟨.revertToSnapshot s.nextRevisionId, .unit, u, t⟩
      fun _ _ hw => hw.elim

/-- A bounce uses up the nonce and takes back the rest. -/
theorem applyBounce_run {msg : Message Unit} {env : Backing} {s t : StateDB}
    {result : Except String ExecutionResult} {steps : List Step} (hs : s.Inv)
    (hrun : (applyBounce msg).run env s = .ok (result, steps, t)) :
    NonceDiscipline steps ∧
      (∀ st ∈ steps, ∀ revid, st.op = .revertToSnapshot revid → s.nextRevisionId ≤ revid) ∧
      (∀ out, result = .ok out → msg.nonce < msg.nonce + 1 ∧
        lastWrite t.journal (nonceKey env msg.sender) =
          some (writeOf (nonceKey env msg.sender) (uint64ToBytes (msg.nonce + 1)))) := by
  obtain ⟨r, s', steps', hget, rfl, hrest⟩ := Caller.run_call_ok hrun
  have hread := NonceDiscipline.nil.quiet ⟨.getNonce msg.sender, r, s, s'⟩ fun _ _ hw => hw.elim
  have hs' : s'.Inv := hs.exec hget
  split at hrest
  next hok =>
    obtain ⟨rfl, hlt⟩ := hok
    obtain ⟨r', u, steps', hset, rfl, hcall⟩ := Caller.run_call_ok hrest
    have hwritten := hread.concat ⟨.setNonce msg.sender (msg.nonce + 1), r', s', u⟩ fun a v hw => by
      obtain ⟨rfl, rfl⟩ := hw
      exact ⟨_, List.mem_singleton_self _, msg.nonce, UInt64.le_of_lt hlt, ⟨rfl, rfl⟩,
        List.prefix_rfl⟩
    obtain ⟨hjournal, hdiscipline, hreverts⟩ := revertedCall_run (hs'.exec hset) hwritten hcall
    refine ⟨hdiscipline, ?_, fun out _ => ⟨hlt, ?_⟩⟩
    · intro st hst revid hop
      simp only [List.mem_cons] at hst
      rcases hst with rfl | rfl | hst
      · cases hop
      · cases hop
      · rw [hreverts st hst revid hop]
        exact ((Later.refl s).exec hget |>.exec hset).nextRevisionId
    · cases hset
      rw [hjournal]
      simp only [putState, lastWrite_append_write, writeOf_key, if_true]
  next =>
    cases hrest
    refine ⟨hread, ?_, fun out hout => by cases hout⟩
    intro st hst revid hop
    cases List.mem_singleton.mp hst
    cases hop

theorem gethOk_bouncer : GethOk bouncer.geth where
  message hs hm := by
    cases hs
    cases hm
    exact ⟨rfl, rfl⟩
  bumps _ hs hrun := by
    obtain ⟨hlt, hlast⟩ := (applyBounce_run hs.inv hrun).2.2 _ rfl
    exact ⟨_, hlast, hlt⟩
  reverts _ hs hrun := (applyBounce_run hs.inv hrun).2.1
  nonces _ hs hrun := (applyBounce_run hs.inv hrun).1

/-- The read-write set of a bounce of account `1`: the created account is not in it. -/
def bounceRws (version : Option Version) (nonce : UInt64) : ReadWriteSet where
  reads := [⟨nonceKey emptyLedger 1, version⟩]
  writes := [writeOf (nonceKey emptyLedger 1) (uint64ToBytes (nonce + 1))]

/-- A transaction that reverts, endorsed twice on one state, of which one copy becomes valid,
and the next transaction of its sender. -/
theorem nonces_increase_resubmitted :
    ∃ (cfg : Config) (n : Network Ping), NetReachable bouncer cfg n ∧
      n.commits.map (fun c => (c.tx.nonce, c.valid)) = [(0, true), (0, false), (1, true)] ∧
      n.commits.Pairwise (Ascending bouncer) ∧ ∀ c ∈ n.commits, Current bouncer cfg c := by
  let cfg : Config := ⟨emptyLedger.keccak, emptyLedger.ns, false⟩
  have hinit : NetReachable bouncer cfg { current := fun _ => none, stamp := ⟨0, 0⟩ } :=
    .init ⟨(nomatch ·), (nomatch ·)⟩
  have hfirst := hinit.step (.endorse (List.mem_cons_self ..)
    (rfl : bouncer.endorse (cfg.backing _) ⟨1, 0⟩ = .ok (some (bounceRws none 0))))
  have hsecond := hfirst.step (.endorse (List.mem_cons_self ..)
    (rfl : bouncer.endorse (cfg.backing _) ⟨1, 0⟩ = .ok (some (bounceRws none 0))))
  have hvalid := hsecond.step (.commit (List.mem_cons_self ..) ⟨1, 0⟩ [1] (.inl Nat.one_pos))
  have hstale := hvalid.step (.commit (List.mem_cons_self ..) ⟨2, 0⟩ [2] (.inl Nat.one_lt_two))
  -- the second copy is stale, and leaves the data of the first
  have hread : bouncer.endorse (cfg.backing (applyWrites cfg (fun _ => none) ⟨1, 0⟩ [1]
      (bounceRws none 0))) ⟨1, 1⟩ = .ok (some (bounceRws (some ⟨1, 0⟩) 1)) := by decide +kernel
  have hnext := hstale.step (.endorse (List.mem_cons_self ..) hread)
  have hlast := hnext.step (.commit (List.mem_cons_self ..) ⟨3, 0⟩ [3] (.inl (Nat.lt_succ_self 2)))
  exact ⟨cfg, _, hlast, by decide, nonces_increase gethOk_bouncer hlast⟩

end Storage
