import FabricXEvm.Gateway.Trie
import FabricXEvm.Storage.Commit

/-!
# The trie and the endorser's store

The write sets of a chain of blocks go to the endorser's `LightKVS` and to the gateway's
trie.  Every write is the write of a value to a field (`MayWrite.fieldWrite`).  For each
field there is one value that the store has a record of, and the trie has it as well, or
its misreading if the field is a storage slot (`Commits.tracks`).

Balances, nonces and code agree.  A slot agrees exactly if it is zero, since the endorser
writes the 32 bytes of a word and the trie reads hex text (`Commits.agree_iff`).
-/

open Blocks Execution Execution.StateDB Storage

namespace Gateway

/-! ## Writes of fields -/

/-- The write of a slot.  Zero is written as a delete. -/
def slotWrite (keccak : Bytes → Hash) (a : Address) (slot v : Hash) : KVWrite :=
  writeOf (storeKey keccak a slot) (if v = 0 then [] else v.bytes)

/-- The write the endorser journals for a value of a field. -/
def fieldWrite (keccak : Bytes → Hash) : (f : Field) → FieldVal f → KVWrite
  | .balance a, v => writeOf (accKey keccak a (ascii "bal")) (uint256ToBytes v)
  | .nonce a, n => writeOf (accKey keccak a (ascii "nonce")) (uint64ToBytes n)
  | .code a, code => writeOf (accKey keccak a (ascii "code")) code
  | .slot a slot, v => slotWrite keccak a slot v

/-- The value the trie has for it. -/
def trieVal : (f : Field) → FieldVal f → FieldVal f
  | .slot _ _, v => misread v
  | .balance _, v => v
  | .nonce _, n => n
  | .code _, code => code

/-- The bytes stored for a value of a field. -/
def Encodes : (f : Field) → Option Bytes → FieldVal f → Prop
  | .balance _, val, v => bytesToUint256 (val.getD []) = v
  | .nonce _, val, n => bytesToUint64 (val.getD []) = some n
  | .code _, val, code => val.getD [] = code
  | .slot _ _, val, v => wordOf val = v

theorem key_fieldWrite (env : Backing) (f : Field) (v : FieldVal f) :
    (fieldWrite env.keccak f v).key = f.key env := by
  cases f <;> exact writeOf_key _ _

theorem applyWrite_fieldWrite (keccak : Bytes → Hash) (f : Field) (v : FieldVal f) :
    applyWrite (fieldWrite keccak f v) = some ⟨f, trieVal f v⟩ := by
  cases f with
  | balance a => exact applyWrite_balance keccak a v
  | nonce a => exact applyWrite_nonce keccak a v
  | code a => exact applyWrite_code keccak a v
  | slot a slot => exact applyWrite_slot keccak a slot v

theorem getD_writeOf (key value : Bytes) : (writeOf key value).value.getD [] = value := by
  unfold writeOf
  split
  next h => exact h.symm
  next => rfl

theorem wordOf_slotWrite (keccak : Bytes → Hash) (a : Address) (slot v : Hash) :
    wordOf (slotWrite keccak a slot v).value = v := by
  unfold wordOf slotWrite
  rw [getD_writeOf]
  by_cases hv : v = 0
  · rw [if_pos hv, if_pos List.length_nil, hv]
  · rw [if_neg hv, if_neg (by rw [Hash.length_bytes]; decide), bytesToHash_bytes]

theorem encodes_fieldWrite (keccak : Bytes → Hash) (f : Field) (v : FieldVal f) :
    Encodes f (fieldWrite keccak f v).value v := by
  cases f with
  | balance a =>
      change bytesToUint256 ((writeOf _ _).value.getD []) = v
      rw [getD_writeOf]
      exact bytesToUint256_uint256ToBytes v
  | nonce a =>
      change bytesToUint64 ((writeOf _ _).value.getD []) = some v
      rw [getD_writeOf]
      exact bytesToUint64_uint64ToBytes v
  | code a => exact getD_writeOf _ _
  | slot a slot => exact wordOf_slotWrite keccak a slot v

/-- An operation writes values of fields. -/
theorem MayWrite.fieldWrite {env : Backing} {op : Op} {w : KVWrite} (h : op.MayWrite env w) :
    ∃ f v, w = fieldWrite env.keccak f v := by
  cases op with
  | createAccount a =>
      rcases h with rfl | rfl
      · exact ⟨.balance a, (0 : BitVec 256), rfl⟩
      · exact ⟨.nonce a, (0 : UInt64), rfl⟩
  | createContract a => exact ⟨.code a, ([] : Bytes), h⟩
  | addBalance a v | subBalance a v | selfDestruct a =>
      obtain ⟨balance, rfl⟩ := h
      exact ⟨.balance a, balance, rfl⟩
  | setNonce a n => exact ⟨.nonce a, n, h⟩
  | setCode a code => exact ⟨.code a, code, h⟩
  | setState a slot v => exact ⟨.slot a slot, v, h⟩
  | _ => exact h.elim

/-- What `Result` lists are writes of fields. -/
theorem fieldWrite_of_result {env : Backing} {ops : List Op} {t : StateDB}
    (hrun : runOps env ops .new = .ok t) {w : KVWrite} (hw : w ∈ t.result.writes) :
    ∃ f v, w = fieldWrite env.keccak f v := by
  rcases runOps_writes hrun (mem_of_mem_writes hw) with hnew | ⟨op, _, hop⟩
  · cases hnew
  · exact MayWrite.fieldWrite hop

/-! ## Runs -/

/-- Two transactions with one write set of a `StateDB`, whose writes may be in different
orders, or two that are not valid. -/
structure SameSet (keccak : Bytes → Hash) (ns : Bytes) (tx tx' : Transaction) : Prop where
  valid : tx'.valid = tx.valid
  produced : tx.valid = true → ∃ (env : Backing) (ops : List Op) (t : StateDB)
    (rws rws' : ReadWriteSet), env.keccak = keccak ∧ runOps env ops .new = .ok t ∧
      tx.nsRWS = [⟨ns, rws⟩] ∧ tx'.nsRWS = [⟨ns, rws'⟩] ∧
      rws.writes.Perm t.result.writes ∧ rws'.writes.Perm t.result.writes

/-- The store and the trie after the same blocks. -/
inductive Commits (keccak : Bytes → Hash) (ns : Bytes) : LightKVS → TrieState → Prop where
  | new (historySize : Nat) (h : 0 < historySize % 2 ^ 32) :
      Commits keccak ns (.new historySize h) .empty
  | block {kvs kvs' : LightKVS} {ts : TrieState} {b b' : Block} (hrun : Commits keccak ns kvs ts)
      (hsets : List.Forall₂ (SameSet keccak ns) b.transactions b'.transactions)
      (hpast : kvs.current.Past b) (hok : kvs.handle b = .ok kvs') :
      Commits keccak ns kvs' (ts.commit b')

/-- The store has a record of one value of each field, and the trie has that value, or its
misreading. -/
def Tracks (env : Backing) (ns : Bytes) (data : Data) (ts : TrieState) : Prop :=
  ∀ f, ∃ v, Encodes f ((data (fullKey ns (f.key env))).bind (·.value)) v ∧ ts f = trieVal f v

section Transactions

variable {env : Backing} {ns : Bytes} {data : Data} {ts : TrieState} {tx tx' : Transaction}

/-- The setters for writes of fields, by their keys. -/
theorem keys_setters {ws : List KVWrite} (h : ∀ w ∈ ws, ∃ f v, w = fieldWrite env.keccak f v) :
    ((ws.filterMap applyWrite).map Sigma.fst).map (Field.key env) = ws.map KVWrite.key := by
  induction ws with
  | nil => rfl
  | cons w ws ih =>
      obtain ⟨f, v, rfl⟩ := h w List.mem_cons_self
      rw [List.filterMap_cons_some (applyWrite_fieldWrite _ f v), List.map_cons, List.map_cons,
        List.map_cons, ih fun w hw => h w (List.mem_cons_of_mem _ hw), key_fieldWrite]

theorem Tracks.transaction (h : Tracks env ns data ts) (hset : SameSet env.keccak ns tx tx')
    (blockNum txNum : Nat) (txID : Bytes) :
    Tracks env ns ((collectWrites tx.nsRWS blockNum txNum txID tx.valid).foldl put data)
      (Assign.all ts (settersOf tx')) := by
  unfold settersOf
  rw [hset.valid]
  cases hvalid : tx.valid with
  | false => exact h
  | true =>
      obtain ⟨env', ops, t, rws, rws', hkeccak, hrun, hrws, hrws', hperm, hperm'⟩ :=
        hset.produced hvalid
      rw [hrws, hrws', collectWrites_single, if_pos rfl, List.flatMap_singleton]
      have hfields : ∀ w ∈ t.result.writes, ∃ f v, w = fieldWrite env.keccak f v := by
        rw [← hkeccak]
        exact fun w => fieldWrite_of_result hrun
      have hnodup : (rws.writes.map KVWrite.key).Nodup :=
        (hperm.map KVWrite.key).nodup_iff.mpr (nodup_writes t.journal)
      have hkeys := keys_setters fun w hw => hfields w (hperm'.mem_iff.mp hw)
      have hnodup' : ((rws'.writes.filterMap applyWrite).map Sigma.fst).Nodup := by
        refine List.Nodup.of_map (Field.key env) ?_
        rw [hkeys]
        exact (hperm'.map KVWrite.key).nodup_iff.mpr (nodup_writes t.journal)
      intro f
      by_cases hmem : f.key env ∈ t.result.writes.map KVWrite.key
      · -- the set writes the field
        obtain ⟨w, hw, hkey⟩ := List.mem_map.mp hmem
        obtain ⟨g, v, rfl⟩ := hfields w hw
        obtain rfl := Field.key_inj ((key_fieldWrite env g v).symm.trans hkey)
        refine ⟨v, ?_, Assign.all_of_nodup hnodup' ?_⟩
        · rw [← hkey, foldl_put_written hnodup data (hperm.mem_iff.mpr hw)]
          exact encodes_fieldWrite env.keccak g v
        · exact List.mem_filterMap.mpr
            ⟨_, hperm'.mem_iff.mpr hw, applyWrite_fieldWrite env.keccak g v⟩
      · have hnot : f.key env ∉ rws.writes.map KVWrite.key := fun hk =>
          hmem ((hperm.map KVWrite.key).mem_iff.mp hk)
        have hnot' : f ∉ (rws'.writes.filterMap applyWrite).map Sigma.fst := fun hk => by
          have := List.mem_map_of_mem (f := Field.key env) hk
          rw [hkeys] at this
          exact hmem ((hperm'.map KVWrite.key).mem_iff.mp this)
        rw [foldl_put_unwritten data hnot, Assign.all_of_notMem hnot']
        exact h f

theorem Tracks.block {txs txs' : List Transaction} (h : Tracks env ns data ts)
    (hsets : List.Forall₂ (SameSet env.keccak ns) txs txs') (blockNum : Nat) :
    Tracks env ns
      ((txs.flatMap fun tx =>
        collectWrites tx.nsRWS blockNum (uint64OfInt tx.number) tx.id tx.valid).foldl put data)
      (Assign.all ts (txs'.flatMap settersOf)) := by
  induction hsets generalizing data ts with
  | nil => exact h
  | cons hset _ ih =>
      rw [List.flatMap_cons, List.flatMap_cons, List.foldl_append, Assign.all_append]
      exact ih (h.transaction hset _ _ _)

end Transactions

theorem Commits.tracks {env : Backing} {ns : Bytes} {kvs : LightKVS} {ts : TrieState}
    (h : Commits env.keccak ns kvs ts) : Tracks env ns kvs.current.data ts := by
  induction h with
  | new historySize h =>
      intro f
      refine ⟨TrieState.empty f, ?_, ?_⟩
      · cases f <;> rfl
      · cases f <;> rfl
  | @block kvs kvs' ts b b' _ hsets hpast hok ih =>
      cases (LightKVS.handle_next hpast).symm.trans hok
      change Tracks env ns (applyUpdates kvs.current.data (blockUpdates b)) _
      rw [applyUpdates_eq_foldl]
      exact ih.block hsets b.number

/-! ## Reads -/

/-- The trie has what a `StateDB` reads. -/
structure Agree (ts : TrieState) (env : Backing) : Prop where
  balance : ∀ a, ret (getBalance a) env .new = .ok (ts (.balance a))
  nonce : ∀ a, ret (getNonce a) env .new = .ok (ts (.nonce a))
  code : ∀ a, (ret (getCode a) env .new).map (·.getD []) = .ok (ts (.code a))
  storage : ∀ a slot, ret (getStateSlot a slot) env .new = .ok (ts (.slot a slot))

theorem value_tip {env : Backing} {snapshot : Snapshot}
    (hstore : env.store = Reader.get ⟨some snapshot⟩) (key : Bytes) :
    value env .new key = .ok ((snapshot.data (fullKey env.ns key)).bind (·.value)) := by
  change (env.store env.ns key).map _ = _
  rw [hstore, reader_get]

/-- On the tip, the getters read the values that the store has records of. -/
theorem Tracks.reads {env : Backing} {snapshot : Snapshot} {ts : TrieState}
    (h : Tracks env env.ns snapshot.data ts) (hstore : env.store = Reader.get ⟨some snapshot⟩) :
    (∀ a, ret (getBalance a) env .new = .ok (ts (.balance a))) ∧
      (∀ a, ret (getNonce a) env .new = .ok (ts (.nonce a))) ∧
      (∀ a, (ret (getCode a) env .new).map (·.getD []) = .ok (ts (.code a))) ∧
      ∀ a slot, ∃ v, ret (getStateSlot a slot) env .new = .ok v ∧ ts (.slot a slot) = misread v := by
  have hvalue := value_tip hstore
  refine ⟨fun a => ?_, fun a => ?_, fun a => ?_, fun a slot => ?_⟩
  · obtain ⟨v, hv, hts⟩ := h (.balance a)
    rw [ret_getBalance indexOk_new, hvalue, hts]
    exact congrArg Except.ok hv
  · obtain ⟨n, hn, hts⟩ := h (.nonce a)
    have hread : bytesToUint64
        (((snapshot.data (fullKey env.ns (nonceKey env a))).bind (·.value)).getD []) = some n := hn
    rw [ret_getNonce indexOk_new, hvalue]
    simp only [hread]
    exact congrArg Except.ok hts.symm
  · obtain ⟨code, hcode, hts⟩ := h (.code a)
    rw [ret_getCode indexOk_new, hvalue, hts]
    exact congrArg Except.ok hcode
  · obtain ⟨v, hv, hts⟩ := h (.slot a slot)
    refine ⟨v, ?_, hts⟩
    rw [ret_getStateSlot indexOk_new, hvalue]
    exact congrArg Except.ok hv

/-- After any blocks of write sets, the trie has what a `StateDB` on the store's tip reads,
exactly if every storage slot reads zero there. -/
theorem Commits.agree_iff {env : Backing} {kvs : LightKVS} {ts : TrieState} {r : Reader}
    (h : Commits env.keccak env.ns kvs ts) (hr : kvs.newSnapshot none = .ok r)
    (hstore : env.store = r.get) :
    Agree ts env ↔ ∀ a slot, ret (getStateSlot a slot) env .new = .ok 0 := by
  cases hr
  obtain ⟨hbalance, hnonce, hcode, hslot⟩ := h.tracks.reads hstore
  constructor
  · intro hagree a slot
    obtain ⟨v, hv, hts⟩ := hslot a slot
    have heq := hagree.storage a slot
    rw [hv, hts] at heq
    rw [hv, (misread_eq_iff v).mp (Except.ok.inj heq).symm]
  · intro hzero
    refine ⟨hbalance, hnonce, hcode, fun a slot => ?_⟩
    obtain ⟨v, hv, hts⟩ := hslot a slot
    rw [hzero a slot] at hv
    cases hv
    rw [hzero a slot, hts]
    rfl

/-- A block with one transaction that makes some writes. -/
def blockOf (ws : List KVWrite) : Block where
  number := 1
  transactions := [{ id := ascii "tx", nsRWS := [⟨emptyLedger.ns, { writes := ws }⟩] }]

/-- A backing on the tip of a store. -/
def onTip (kvs : LightKVS) : Backing := { emptyLedger with store := kvs.get }

/-- One write set, committed to both. -/
theorem commits_blockOf {ops : List Op} {t : StateDB} (hrun : runOps emptyLedger ops .new = .ok t) :
    ∃ kvs, Commits emptyLedger.keccak emptyLedger.ns kvs
        (TrieState.empty.commit (blockOf t.result.writes)) ∧
      kvs.current.data =
        applyUpdates (fun _ => none) (blockUpdates (blockOf t.result.writes)) := by
  refine ⟨_, .block (.new 2 (by decide)) (b := blockOf t.result.writes) (.cons ⟨rfl, fun _ => ?_⟩
    .nil) (.inl rfl) (LightKVS.handle_next (.inl rfl)), rfl⟩
  exact ⟨emptyLedger, ops, t, _, _, rfl, hrun, rfl, rfl, .refl _, .refl _⟩

/-- A block that pays an account. -/
theorem Commits.agree_iff_paid : ∃ kvs t, runOps emptyLedger [.addBalance 1 7] .new = .ok t ∧
    Commits emptyLedger.keccak emptyLedger.ns kvs (TrieState.empty.commit (blockOf t.result.writes)) ∧
      Agree (TrieState.empty.commit (blockOf t.result.writes)) (onTip kvs) := by
  have hrun : runOps emptyLedger [.addBalance 1 7] .new = .ok _ := rfl
  obtain ⟨kvs, hcommits, hdata⟩ := commits_blockOf hrun
  refine ⟨kvs, _, hrun, hcommits,
    (@Commits.agree_iff (onTip kvs) kvs _ _ hcommits rfl rfl).mpr fun a slot => ?_⟩
  have hnone : kvs.current.data (fullKey (onTip kvs).ns (storeKey (onTip kvs).keccak a slot)) =
      none := by
    rw [hdata, applyUpdates_eq_foldl]
    refine foldl_put_of_notMem _ fun hmem => ?_
    exact accKey_ne_storeKey (fullKey_inj (List.mem_singleton.mp hmem)).symm
  rw [ret_getStateSlot indexOk_new, value_tip rfl, hnone]
  rfl

/-- A block that sets a slot to 9: the store reads 9, and the trie has 0. -/
theorem slot_lost : ∃ kvs ts, Commits emptyLedger.keccak emptyLedger.ns kvs ts ∧
    ret (getStateSlot 2 3) (onTip kvs) .new = .ok 9 ∧ ts (.slot 2 3) = (0 : Hash) := by
  have hrun : runOps emptyLedger [.setState 2 3 9] .new = .ok _ := rfl
  obtain ⟨kvs, hcommits, hdata⟩ := commits_blockOf hrun
  have hread : ret (getStateSlot 2 3) (onTip kvs) .new = .ok 9 := by
    rw [ret_getStateSlot indexOk_new, value_tip rfl, hdata]
    rfl
  obtain ⟨-, -, -, hslot⟩ := (@Commits.tracks (onTip kvs) _ _ _ hcommits).reads rfl
  obtain ⟨v, hv, hts⟩ := hslot 2 3
  cases hread.symm.trans hv
  have hzero : misread 9 = 0 := by decide
  exact ⟨kvs, _, hcommits, hread, hts.trans hzero⟩

end Gateway
