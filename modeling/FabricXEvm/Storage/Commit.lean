import FabricXEvm.Execution.Observe
import FabricXEvm.Execution.Invariant
import FabricXEvm.Execution.Result
import FabricXEvm.Storage.LightKVS

/-!
# Committing a write set

A `StateDB` shows its own uncommitted writes.  Once its write set is committed to the store
it was opened on, a fresh `StateDB` on the new tip shows the same accounts and slots
(`commit_equiv`).  The journal, the flattening of the journal into one write per key, and
the store's records all agree on the value of every key, so every getter agrees.
-/

namespace Storage

open Blocks Execution Execution.StateDB

/-- Two `StateDB`s give the same accounts and slots. -/
structure SameAccounts (e₁ : Backing) (s : StateDB) (e₂ : Backing) (t : StateDB) : Prop where
  getBalance : ∀ a, ret (StateDB.getBalance a) e₁ s = ret (StateDB.getBalance a) e₂ t
  getNonce : ∀ a, ret (StateDB.getNonce a) e₁ s = ret (StateDB.getNonce a) e₂ t
  getCode : ∀ a, ret (StateDB.getCode a) e₁ s = ret (StateDB.getCode a) e₂ t
  getState : ∀ a slot, ret (getStateSlot a slot) e₁ s = ret (getStateSlot a slot) e₂ t
  exist : ∀ a, ret (StateDB.exist a) e₁ s = ret (StateDB.exist a) e₂ t
  empty : ∀ a, ret (StateDB.empty a) e₁ s = ret (StateDB.empty a) e₂ t

/-- The getters see a state through the values of its keys only. -/
theorem SameAccounts.of_value {env : Backing} {store : ReadStore} {s t : StateDB}
    (hs : IndexOk s) (ht : IndexOk t) (h : value { env with store } s = value env t) :
    SameAccounts { env with store } s env t := by
  have hbal : ∀ a, ret (StateDB.getBalance a) { env with store } s =
      ret (StateDB.getBalance a) env t := fun a => by
    rw [ret_getBalance hs, ret_getBalance ht, h]
    rfl
  have hnonce : ∀ a, ret (StateDB.getNonce a) { env with store } s =
      ret (StateDB.getNonce a) env t := fun a => by
    rw [ret_getNonce hs, ret_getNonce ht, h]
    rfl
  have hcode : ∀ a, ret (StateDB.getCode a) { env with store } s =
      ret (StateDB.getCode a) env t := fun a => by
    rw [ret_getCode hs, ret_getCode ht, h]
    rfl
  exact
    { getBalance := hbal
      getNonce := hnonce
      getCode := hcode
      getState := fun a slot => by
        rw [ret_getStateSlot hs, ret_getStateSlot ht, h]
      exist := fun a => by
        rw [ret_exist hs, ret_exist ht, h]
        rfl
      empty := fun a => by
        rw [ret_empty hs, ret_empty ht, hbal, hnonce, hcode] }

/-! ## The updates of a write set -/

section Updates

variable {ns : Bytes} {blockNum txNum : Nat} {txID : Bytes} {rws : ReadWriteSet}

/-- The update a write becomes. -/
def updateOf (ns : Bytes) (blockNum txNum : Nat) (txID : Bytes) (w : KVWrite) :
    KeyValueVersion where
  key := fullKey ns w.key
  value := w.value
  blockNum := blockNum
  txNum := txNum
  txID := txID
  isDelete := w.isDelete

theorem collectWrites_single :
    collectWrites [⟨ns, rws⟩] blockNum txNum txID true =
      rws.writes.map (updateOf ns blockNum txNum txID) := by
  simp only [collectWrites, List.flatMap_cons, List.flatMap_nil, List.append_nil, if_true]
  rfl

theorem blockUpdates_single {b : Block} {tx : Transaction} (hb : b.transactions = [tx])
    (hvalid : tx.valid = true) (hrws : tx.nsRWS = [⟨ns, rws⟩]) :
    blockUpdates b = rws.writes.map (updateOf ns b.number (uint64OfInt tx.number) tx.id) := by
  simp only [blockUpdates, hb, List.flatMap_cons, List.flatMap_nil, List.append_nil, hvalid, hrws,
    collectWrites_single]

theorem nodup_updates {ws : List KVWrite} (h : (ws.map KVWrite.key).Nodup) :
    ((ws.map (updateOf ns blockNum txNum txID)).map KeyValueVersion.key).Nodup := by
  rw [List.map_map]
  change (ws.map (fullKey ns ∘ KVWrite.key)).Nodup
  rw [← List.map_map]
  exact h.map fun _ _ => fullKey_inj

/-- The record of a written key. -/
theorem foldl_put_written {ws : List KVWrite} (hnodup : (ws.map KVWrite.key).Nodup) (data : Data)
    {w : KVWrite} (hw : w ∈ ws) :
    (ws.map (updateOf ns blockNum txNum txID)).foldl put data (fullKey ns w.key) =
      some ((updateOf ns blockNum txNum txID w).at (nextVersion data (fullKey ns w.key))) :=
  foldl_put_of_mem data (nodup_updates hnodup) (List.mem_map_of_mem hw)

/-- The record of any other key. -/
theorem foldl_put_unwritten {ws : List KVWrite} (data : Data) {key : Bytes}
    (hkey : key ∉ ws.map KVWrite.key) :
    (ws.map (updateOf ns blockNum txNum txID)).foldl put data (fullKey ns key) =
      data (fullKey ns key) := by
  refine foldl_put_of_notMem data fun hmem => hkey ?_
  rw [List.map_map] at hmem
  obtain ⟨w, hw, hk⟩ := List.mem_map.mp hmem
  rw [← fullKey_inj hk]
  exact List.mem_map_of_mem hw

end Updates

/-- The journal's value of a written key is the value the write carries. -/
theorem visible_eq {env : Backing} {ops : List Op} {t : StateDB}
    (hrun : runOps env ops .new = .ok t) {w : KVWrite} (hw : .write w ∈ t.journal) :
    visible w = w.value := by
  rcases runOps_writes hrun hw with hnew | ⟨op, _, hop⟩
  · cases hnew
  · obtain ⟨val, hval⟩ := hop.eq_writeOf
    rw [hval, writeOf]
    split <;> rfl

/-- What the store returns for a key, as a value. -/
theorem reader_get (snapshot : Snapshot) (ns key : Bytes) :
    ((Reader.mk (some snapshot)).get ns key).map (·.bind (·.value)) =
      .ok ((snapshot.data (fullKey ns key)).bind (·.value)) := by
  simp only [Reader.get, record, Except.map]
  cases snapshot.data (fullKey ns key) <;> rfl

/-- The writes listed by `Result` are the journal's latest, in whatever order. -/
theorem mem_writes_iff {ws : List KVWrite} {t : StateDB} (hws : ws.Perm t.result.writes)
    {w : KVWrite} (hw : lastWrite t.journal w.key = some w) : w ∈ ws := by
  refine hws.mem_iff.mpr (List.mem_of_find?_eq_some (p := (·.key = w.key)) ?_)
  rw [← hw]
  exact find?_writes t.journal w.key

theorem notMem_keys_of_lastWrite {ws : List KVWrite} {t : StateDB}
    (hws : ws.Perm t.result.writes) {key : Bytes} (h : lastWrite t.journal key = none) :
    key ∉ ws.map KVWrite.key := by
  intro hmem
  obtain ⟨w, hw, hk⟩ := List.mem_map.mp ((hws.map KVWrite.key).mem_iff.mp hmem)
  rw [← find?_writes, List.find?_eq_none] at h
  exact h w hw (by simpa using hk)

/-- Committing the write set of a `StateDB` as the one valid transaction of the next block,
its writes in any order: a fresh `StateDB` on the new tip gives the same accounts and slots,
and a field that no operation wrote keeps its record. -/
theorem commit_equiv {kvs : LightKVS} {reader : Reader} (env : Backing) {ops : List Op}
    {t : StateDB} {b : Block} {tx : Transaction} {rws : ReadWriteSet}
    (hopen : kvs.newSnapshot none = .ok reader) (henv : env.store = reader.get)
    (hrun : runOps env ops .new = .ok t) (hb : b.transactions = [tx]) (hvalid : tx.valid = true)
    (hrws : tx.nsRWS = [⟨env.ns, rws⟩]) (hws : rws.writes.Perm t.result.writes)
    (hnext : kvs.current.placeholder = true ∨ kvs.current.blockNumber < b.number) :
    ∃ kvs' reader', kvs.handle b = .ok kvs' ∧ kvs'.newSnapshot none = .ok reader' ∧
      SameAccounts { env with store := reader'.get } .new env t ∧
      ∀ f : Field, (∀ op ∈ ops, f ∉ op.fields) →
        reader'.get env.ns (f.key env) = reader.get env.ns (f.key env) := by
  cases hopen
  have hnodup : (rws.writes.map KVWrite.key).Nodup :=
    (hws.map KVWrite.key).nodup_iff.mpr (nodup_writes t.journal)
  have hdata : (kvs.applyBlock b.number (blockUpdates b)).current.data =
      (rws.writes.map (updateOf env.ns b.number (uint64OfInt tx.number) tx.id)).foldl put
        kvs.current.data := by
    rw [LightKVS.applyBlock, applyUpdates_eq_foldl, blockUpdates_single hb hvalid hrws]
  refine ⟨_, _, LightKVS.handle_next hnext, rfl, ?_, ?_⟩
  · refine .of_value indexOk_new (Reachable.inv ⟨ops, hrun⟩).index (funext fun key => ?_)
    have hfresh : lastWrite StateDB.new.journal key = none := rfl
    simp only [value, hfresh, henv, reader_get, hdata]
    cases hlast : lastWrite t.journal key with
    | some w =>
        obtain ⟨hmem, rfl⟩ := mem_of_lastWrite hlast
        dsimp only
        rw [visible_eq hrun hmem, foldl_put_written hnodup _ (mem_writes_iff hws hlast)]
        rfl
    | none =>
        rw [foldl_put_unwritten _ (notMem_keys_of_lastWrite hws hlast)]
  · intro f hf
    -- a write of the field's key would be a write of the field
    have hkey : f.key env ∉ rws.writes.map KVWrite.key := by
      refine notMem_keys_of_lastWrite hws ?_
      by_contra hsome
      obtain ⟨w, hw⟩ := Option.ne_none_iff_exists'.mp hsome
      obtain ⟨hmem, hk⟩ := mem_of_lastWrite hw
      rcases runOps_writes hrun hmem with hnew | ⟨op, hop, hmay⟩
      · cases hnew
      · obtain ⟨g, hg, hgk⟩ := hmay.field
        exact hf op hop (Field.key_inj (hk.symm.trans hgk) ▸ hg)
    simp only [Reader.get, record, hdata, foldl_put_unwritten _ hkey]

/-! ### The second block of a ledger -/

/-- The writes of some operations, in reverse. -/
def reversedWrites (env : Backing) (ops : List Op) : List KVWrite :=
  match runOps env ops .new with
  | .ok t => t.result.writes.reverse
  | .error _ => []

def blockOfOps (env : Backing) (number : Nat) (ops : List Op) : Block where
  number
  transactions := [{ id := ascii "tx", nsRWS := [⟨env.ns, { writes := reversedWrites env ops }⟩] }]

/-- A store with a first block that pays an account and makes a contract with a slot. -/
def deployed : LightKVS :=
  (LightKVS.new 2 (by decide)).applyBlock 0 (blockUpdates (blockOfOps emptyLedger 0
    [.addBalance 1 7, .setNonce 1 1, .createContract 2, .setCode 2 [96], .setState 2 3 9]))

/-- A second block moves a balance, clears the slot, and sets another slot, which is reverted. -/
theorem commit_equiv_deployed :
    let env : Backing := { emptyLedger with store := deployed.get }
    let ops : List Op := [.setNonce 1 2, .snapshot, .subBalance 1 3, .addBalance 2 3,
      .setState 2 3 0, .snapshot, .setState 2 4 8, .revertToSnapshot 1]
    ∃ t kvs' reader', runOps env ops .new = .ok t ∧ t.result.writes.length = 4 ∧
      deployed.handle (blockOfOps env 1 ops) = .ok kvs' ∧ kvs'.newSnapshot none = .ok reader' ∧
      SameAccounts { env with store := reader'.get } .new env t ∧
      ∀ f : Field, (∀ op ∈ ops, f ∉ op.fields) →
        reader'.get env.ns (f.key env) = deployed.get env.ns (f.key env) := by
  intro env ops
  obtain ⟨t, hrun, hwrites⟩ : ∃ t, runOps env ops .new = .ok t ∧ t.result.writes.length = 4 :=
    ⟨_, rfl, by decide +kernel⟩
  have hperm : (reversedWrites env ops).Perm t.result.writes := by
    rw [reversedWrites, hrun]
    exact List.reverse_perm _
  obtain ⟨kvs', reader', hkvs', hreader', hsame⟩ :=
    commit_equiv env rfl rfl hrun (b := blockOfOps env 1 ops) rfl rfl rfl hperm (.inr (by decide))
  exact ⟨t, kvs', reader', hrun, hwrites, hkvs', hreader', hsame⟩

end Storage
