import FabricXEvm.Lib.Loops
import FabricXEvm.Storage.Parity

/-!
# Redelivery of the tip

Both stores check a block with the number of the tip against what they have, one final write
of each key.  `LightKVS` compares it with the latest record of the key, whichever block that
is of, and no value if it is a delete.  `PebbleKVS` asks for a record of the tip and always
compares the values.  Either way a nil value is the same as an empty one.

So the two agree, and reject whatever the tip block did not write, exactly if the writes
that `LightKVS` accepts are all of the tip and have the same value there (`redelivery_iff`).
-/

namespace Storage

open Blocks

/-- The final write of a key among some updates. -/
def finalWrite (us : List KeyValueVersion) (key : Bytes) : Option KeyValueVersion :=
  (writesOf us key).getLast?

/-- Two writes that are the same to a redelivery. -/
structure SameWrite (u t : KeyValueVersion) : Prop where
  txID : u.txID = t.txID
  isDelete : u.isDelete = t.isDelete
  value : u.isDelete = false → u.value = t.value

/-- The record has what `LightKVS` compares of a write. -/
structure Matches (u : KeyValueVersion) (r : ValueVersion) : Prop where
  isDelete : r.isDelete = u.isDelete
  txID : r.txID = u.txID
  value : u.isDelete = false → r.value.getD [] = u.value.getD []

/-- The record has what `PebbleKVS` compares of a write. -/
structure TipMatches (u : KeyValueVersion) (r : ValueVersion) : Prop where
  blockNum : r.blockNum = u.blockNum
  isDelete : r.isDelete = u.isDelete
  value : r.value.getD [] = u.value.getD []
  txID : r.txID = u.txID

/-- The latest record of each key is as wanted of the key's final write. -/
def Accepts (wanted : KeyValueVersion → ValueVersion → Prop) (data : Data)
    (us : List KeyValueVersion) : Prop :=
  ∀ key u, finalWrite us key = some u → ∃ r, data key = some r ∧ wanted u r

section Final

variable {us : List KeyValueVersion} {u : KeyValueVersion} {key : Bytes}

theorem finalWrite_mem (h : finalWrite us key = some u) : u ∈ us ∧ u.key = key :=
  mem_writesOf.mp (List.mem_of_getLast? h)

theorem mem_final : u ∈ us.foldl (fun final u => ListMap.upsert KeyValueVersion.key u final) [] ↔
    finalWrite us u.key = some u :=
  ListMap.mem_foldl_upsert us

/-- A record comes from the final write of its key. -/
theorem latest_append_some (log : List KeyValueVersion) (h : finalWrite us key = some u) :
    ∃ version, latest (log ++ us) key = some (u.at version) := by
  refine ⟨(writesOf (log ++ us) key).length - 1, ?_⟩
  rw [latest, lastOf, writesOf, List.filter_append, List.getLast?_append]
  rw [finalWrite, writesOf] at h
  rw [h]
  rfl

theorem latest_append_none (log : List KeyValueVersion) (h : finalWrite us key = none) :
    latest (log ++ us) key = latest log key := by
  rw [finalWrite, List.getLast?_eq_none_iff, writesOf] at h
  rw [latest, writesOf, List.filter_append, h, List.append_nil]
  rfl

end Final

/-! ## The checks -/

theorem verifyKey_ok {current : Snapshot} {u : KeyValueVersion} :
    verifyKey current u = .ok () ↔ ∃ r, current.data u.key = some r ∧ Matches u r := by
  unfold verifyKey
  cases current.data u.key with
  | none => simp
  | some r =>
      simp only [Option.some.injEq, exists_eq_left']
      constructor
      · intro h
        split at h
        next => cases h
        next hdel =>
          split at h
          next => cases h
          next htx =>
            split at h
            next => cases h
            next hval =>
              refine ⟨not_not.mp hdel, not_not.mp htx, fun hput => ?_⟩
              simpa [hput] using hval
      · rintro ⟨hdel, htx, hval⟩
        rw [if_neg (not_not.mpr hdel), if_neg (not_not.mpr htx), if_neg]
        cases hput : u.isDelete with
        | true => simp
        | false => simp [hval hput]

theorem verifyReplay_ok {current : Snapshot} {us : List KeyValueVersion} :
    verifyReplay current us = .ok () ↔ Accepts Matches current.data us := by
  rw [verifyReplay, Except.forM_ok]
  constructor
  · intro h key u hu
    obtain ⟨-, rfl⟩ := finalWrite_mem hu
    exact verifyKey_ok.mp (h u (mem_final.mpr hu))
  · intro h u hu
    exact verifyKey_ok.mpr (h u.key u (mem_final.mp hu))

namespace PebbleKVS

variable {p : PebbleKVS} {ref : Reference} {us : List KeyValueVersion} {u : KeyValueVersion}

theorem Inv.verifyTipKey_ok (h : p.Inv ref) (hkey : u.key.length < 2 ^ 32) :
    p.verifyTipKey u = .ok () ↔ ∃ r, latest ref.log u.key = some r ∧ TipMatches u r := by
  rw [verifyTipKey, h.stored.tables.currentRecord_eq hkey fun r => h.stored.log.latest]
  cases latest ref.log u.key with
  | none => simp
  | some r =>
      simp only [Option.map_some, Option.some.injEq, exists_eq_left']
      constructor
      · intro hok
        split at hok
        next => cases hok
        next hblock =>
          split at hok
          next => cases hok
          next hsame =>
            simp only [not_or, not_not] at hblock hsame
            exact ⟨hblock, hsame.1, hsame.2.1, hsame.2.2⟩
      · rintro ⟨hblock, hdel, hval, htx⟩
        rw [if_neg (not_not.mpr hblock), if_neg (by simp [hdel, hval, htx])]

theorem Inv.verifyTipReplay_ok (h : p.Inv ref) (hkeys : ∀ u ∈ us, u.key.length < 2 ^ 32) :
    p.verifyTipReplay us = .ok () ↔ Accepts TipMatches (latest ref.log) us := by
  rw [verifyTipReplay, Except.forM_ok]
  constructor
  · intro hok key u hu
    obtain ⟨hmem, rfl⟩ := finalWrite_mem hu
    exact (h.verifyTipKey_ok (hkeys u hmem)).mp (hok u (mem_final.mpr hu))
  · intro hok u hu
    have hfinal := mem_final.mp hu
    exact (h.verifyTipKey_ok (hkeys u (finalWrite_mem hfinal).1)).mpr (hok u.key u hfinal)

/-- A redelivery of the tip is verified. -/
theorem Inv.handle_tip (h : p.Inv ref) {b : Block} (hb : ref.head = some b.number) :
    p.handle b = (do p.verifyTipReplay (blockUpdates b); return p) := by
  rw [PebbleKVS.handle, commitBlock, h.checkpoint, h.current, hb]
  simp

end PebbleKVS

/-! ## The verdicts -/

/-- The record is of a block and has the value of the write: that of a delete up to nil. -/
structure OfBlock (number : Nat) (u : KeyValueVersion) (r : ValueVersion) : Prop where
  blockNum : r.blockNum = number
  value : u.isDelete = false → r.value = u.value
  deleted : u.isDelete = true → r.value.getD [] = u.value.getD []

theorem TipMatches.matches {u : KeyValueVersion} {r : ValueVersion} (h : TipMatches u r) :
    Matches u r :=
  ⟨h.isDelete, h.txID, fun _ => h.value⟩

theorem Matches.tipMatches {u : KeyValueVersion} {r : ValueVersion} (h : Matches u r)
    (hblock : OfBlock u.blockNum u r) : TipMatches u r := by
  refine ⟨hblock.blockNum, h.isDelete, ?_, h.txID⟩
  cases hdel : u.isDelete with
  | false => exact h.value hdel
  | true => exact hblock.deleted hdel

/-- A record of the last block comes from its final write of the key. -/
theorem finalWrite_of_latest {log us : List KeyValueVersion} {number : Nat}
    (hlog : ∀ u ∈ log, u.blockNum < number) {key : Bytes} {r : ValueVersion}
    (hr : latest (log ++ us) key = some r) (hnumber : r.blockNum = number) :
    ∃ t version, finalWrite us key = some t ∧ r = t.at version := by
  cases hfinal : finalWrite us key with
  | some t =>
      obtain ⟨version, hversion⟩ := latest_append_some log hfinal
      exact ⟨t, version, rfl, Option.some.inj (hr.symm.trans hversion)⟩
  | none =>
      rw [latest_append_none log hfinal] at hr
      obtain ⟨u, hu, rfl⟩ := Option.map_eq_some_iff.mp hr
      have := hlog u (mem_writesOf.mp (List.mem_of_getLast? hu)).1
      exact absurd hnumber this.ne

/-- What a redelivery of the number of the tip should do. -/
structure Redelivered (light : LightKVS) (pebble : PebbleKVS) (tip b : Block) : Prop where
  rejects : ∀ key u, finalWrite (blockUpdates b) key = some u →
    (¬ ∃ t, finalWrite (blockUpdates tip) key = some t ∧ SameWrite u t) →
    (∃ err, light.handle b = .error err) ∧ ∃ err, pebble.handle b = .error err
  accepts : b = tip → light.handle b = .ok light ∧ pebble.handle b = .ok pebble
  unchanged : (∀ light', light.handle b = .ok light' → light' = light) ∧
    ∀ pebble', pebble.handle b = .ok pebble' → pebble' = pebble
  sameVerdict : (∃ light', light.handle b = .ok light') ↔ ∃ pebble', pebble.handle b = .ok pebble'

/-- A call that leaves its store alone and succeeds if `P` holds. -/
structure Checks {ε σ : Type} (result : Except ε σ) (kvs : σ) (P : Prop) : Prop where
  ok : P → result = .ok kvs
  error : ¬ P → ∃ err, result = .error err
  same : ∀ kvs', result = .ok kvs' → kvs' = kvs ∧ P

theorem checks_of_eq {ε σ : Type} {check : Except ε Unit} {kvs : σ} {P : Prop}
    (h : check = .ok () ↔ P) {result : Except ε σ} (hresult : result = (do check; return kvs)) :
    Checks result kvs P := by
  subst hresult
  cases check with
  | ok _ =>
      have hP : P := h.mp rfl
      exact ⟨fun _ => rfl, fun hnot => absurd hP hnot, fun _ hok => ⟨(Except.ok.inj hok).symm, hP⟩⟩
  | error err =>
      have hP : ¬ P := fun hP => nomatch h.mpr hP
      exact ⟨fun hp => absurd hp hP, fun _ => ⟨err, rfl⟩, fun _ hok => nomatch hok⟩

/-- If `PebbleKVS` accepts no more than `LightKVS`, all depends on what the latter accepts. -/
theorem redelivered_iff_of_checks {light : LightKVS} {pebble : PebbleKVS} {tip b : Block}
    {L P : Prop} (hlight : Checks (light.handle b) light L)
    (hpebble : Checks (pebble.handle b) pebble P) (hweak : P → L) (hself : b = tip → P) :
    Redelivered light pebble tip b ↔
      (L → P ∧ ∀ key u, finalWrite (blockUpdates b) key = some u →
        ∃ t, finalWrite (blockUpdates tip) key = some t ∧ SameWrite u t) := by
  constructor
  · intro h hL
    obtain ⟨pebble', hok⟩ := h.sameVerdict.mp ⟨_, hlight.ok hL⟩
    refine ⟨(hpebble.same pebble' hok).2, fun key u hu => ?_⟩
    by_contra hne
    obtain ⟨err, herr⟩ := (h.rejects key u hu hne).1
    cases herr.symm.trans (hlight.ok hL)
  · intro h
    refine ⟨fun key u hu hne => ?_, fun heq => ?_, ?_, ?_⟩
    · have hnot : ¬ L := fun hL => hne ((h hL).2 key u hu)
      exact ⟨hlight.error hnot, hpebble.error fun hP => hnot (hweak hP)⟩
    · exact ⟨hlight.ok (hweak (hself heq)), hpebble.ok (hself heq)⟩
    · exact ⟨fun _ hok => (hlight.same _ hok).1, fun _ hok => (hpebble.same _ hok).1⟩
    · constructor
      · rintro ⟨light', hok⟩
        exact ⟨pebble, hpebble.ok (h (hlight.same light' hok).2).1⟩
      · rintro ⟨pebble', hok⟩
        exact ⟨light, hlight.ok (hweak (hpebble.same pebble' hok).2)⟩

section Verdicts

variable {log : List KeyValueVersion} {tip b : Block}

/-- What both stores compare holds of the block first delivered. -/
theorem accepts_self (log : List KeyValueVersion) (b : Block) :
    Accepts TipMatches (latest (log ++ blockUpdates b)) (blockUpdates b) := by
  intro key u hu
  obtain ⟨version, hr⟩ := latest_append_some log hu
  exact ⟨_, hr, rfl, rfl, rfl, rfl⟩

/-- The records that `LightKVS` accepts are of the tip iff it rejects what the tip did not
write and `PebbleKVS` agrees with it. -/
theorem accepts_iff (hlog : ∀ u ∈ log, u.blockNum < tip.number) (hb : b.number = tip.number) :
    (Accepts Matches (latest (log ++ blockUpdates tip)) (blockUpdates b) →
      Accepts (OfBlock tip.number) (latest (log ++ blockUpdates tip)) (blockUpdates b)) ↔
    (Accepts Matches (latest (log ++ blockUpdates tip)) (blockUpdates b) →
      Accepts TipMatches (latest (log ++ blockUpdates tip)) (blockUpdates b) ∧
      ∀ key u, finalWrite (blockUpdates b) key = some u →
        ∃ t, finalWrite (blockUpdates tip) key = some t ∧ SameWrite u t) := by
  have hnumber : ∀ {key u}, finalWrite (blockUpdates b) key = some u → u.blockNum = tip.number :=
    fun hu => (blockNum_blockUpdates (finalWrite_mem hu).1).trans hb
  refine forall_congr' fun hlight => ⟨fun hblock => ⟨fun key u hu => ?_, fun key u hu => ?_⟩, ?_⟩
  · obtain ⟨r, hr, hmatch⟩ := hlight key u hu
    obtain ⟨r', hr', hof⟩ := hblock key u hu
    cases hr.symm.trans hr'
    exact ⟨r, hr, hmatch.tipMatches (by rwa [hnumber hu])⟩
  · obtain ⟨r, hr, hmatch⟩ := hlight key u hu
    obtain ⟨r', hr', hof⟩ := hblock key u hu
    cases hr.symm.trans hr'
    obtain ⟨t, version, ht, rfl⟩ := finalWrite_of_latest hlog hr hof.blockNum
    exact ⟨t, ht, hmatch.txID.symm, hmatch.isDelete.symm, fun hput => (hof.value hput).symm⟩
  · rintro ⟨hpebble, hsame⟩ key u hu
    obtain ⟨r, hr, hmatch⟩ := hpebble key u hu
    have hblock := hmatch.blockNum.trans (hnumber hu)
    obtain ⟨t, ht, hut⟩ := hsame key u hu
    obtain ⟨t', version, ht', rfl⟩ := finalWrite_of_latest hlog hr hblock
    cases ht.symm.trans ht'
    exact ⟨_, hr, hblock, fun hput => (hut.value hput).symm, fun _ => hmatch.value⟩

end Verdicts

namespace Parity

variable {s : Parity} {p : PebbleKVS} {tip b : Block}

theorem Inv.light_checks (h : s.Inv) (htip : s.committed.getLast? = some tip)
    (hb : b.number = tip.number) :
    Checks (s.light.handle b) s.light
      (Accepts Matches (latest s.world.ref.log) (blockUpdates b)) := by
  have hnew : ¬ IsNew s.committed b := fun hnew => by
    have := hnew tip htip
    omega
  have hnumber : b.number = s.light.current.blockNumber := by
    rw [hb, h.light, blockNumber_snapshotAfter, htip]
    rfl
  refine checks_of_eq ?_ (replayGuard_tip (by rwa [h.light, past_snapshotAfter]) hnumber)
  rw [verifyReplay_ok, h.light, snapshotAfter_data, foldWrites_eq_latest, h.log]

theorem Inv.pebble_checks (h : s.Inv) (hstore : s.world.store = .running p)
    (htip : s.committed.getLast? = some tip) (hb : b.number = tip.number)
    (hkeys : ∀ u ∈ blockUpdates b, u.key.length < 2 ^ 32) :
    Checks (p.handle b) p (Accepts TipMatches (latest s.world.ref.log) (blockUpdates b)) := by
  have hp := h.world.running p hstore
  refine checks_of_eq (hp.verifyTipReplay_ok hkeys) (hp.handle_tip ?_)
  rw [h.head, htip, hb]
  rfl

/-- The log up to the tip, and the updates of the tip. -/
theorem Inv.log_tip (h : s.Inv) (htip : s.committed.getLast? = some tip) :
    ∃ log, s.world.ref.log = log ++ blockUpdates tip ∧ ∀ u ∈ log, u.blockNum < tip.number := by
  obtain ⟨init, hinit⟩ := List.getLast?_eq_some_iff.mp htip
  refine ⟨init.flatMap blockUpdates, ?_, fun u hu => ?_⟩
  · rw [h.log, hinit, List.flatMap_append, List.flatMap_singleton]
  · obtain ⟨b', hb', hu⟩ := List.mem_flatMap.mp hu
    have hinc := h.increasing
    rw [hinit] at hinc
    rw [blockNum_blockUpdates hu]
    exact (List.pairwise_append.mp hinc).2.2 b' hb' tip (List.mem_singleton_self tip)

end Parity

/-- In every reachable state of the two stores, a redelivery of the number of the tip is
treated as it should exactly if the final writes that match the latest records of their keys
match records of the tip, with the same value. -/
theorem redelivery_iff {s : Parity} (hreach : s.Reachable) {p : PebbleKVS}
    (hstore : s.world.store = .running p) {tip b : Block}
    (htip : s.committed.getLast? = some tip) (hb : b.number = tip.number)
    (hkeys : ∀ u ∈ blockUpdates b, u.key.length < 2 ^ 32) :
    Redelivered s.light p tip b ↔
      (Accepts Matches (foldWrites s.committed) (blockUpdates b) →
        Accepts (OfBlock tip.number) (foldWrites s.committed) (blockUpdates b)) := by
  have hinv := hreach.inv
  obtain ⟨log, hlog, hbefore⟩ := hinv.log_tip htip
  have hlight := hinv.light_checks htip hb
  have hpebble := hinv.pebble_checks hstore htip hb hkeys
  rw [foldWrites_eq_latest, ← hinv.log]
  rw [hlog] at hlight hpebble ⊢
  rw [accepts_iff hbefore hb]
  refine redelivered_iff_of_checks hlight hpebble (fun h key u hu => ?_) fun heq => ?_
  · obtain ⟨r, hr, hmatch⟩ := h key u hu
    exact ⟨r, hr, hmatch.matches⟩
  · subst heq
    exact accepts_self log b

theorem finalWrite_touch {n : Nat} {key : Bytes} {u : KeyValueVersion}
    (h : finalWrite (blockUpdates (touch n)) key = some u) :
    key = ascii "evm:k" ∧ u = { key := ascii "evm:k", value := some [UInt8.ofNat n], blockNum := n
                                txNum := 0, txID := ascii "tx", isDelete := false } := by
  obtain ⟨hu, rfl⟩ := finalWrite_mem h
  rw [blockUpdates_touch, List.mem_singleton] at hu
  rw [hu]
  exact ⟨rfl, rfl⟩

theorem keys_touch {n : Nat} : ∀ u ∈ blockUpdates (touch n), u.key.length < 2 ^ 32 := by
  intro u hu
  rw [blockUpdates_touch, List.mem_singleton] at hu
  subst hu
  change (ascii "evm:k").length < 2 ^ 32
  decide

/-- Block 1 is redelivered as it was. -/
theorem redelivery_iff_identical :
    ∃ (s : Parity) (p : PebbleKVS), s.Reachable ∧ s.world.store = .running p ∧
      s.committed = [touch 1] ∧ Redelivered s.light p (touch 1) (touch 1) := by
  obtain ⟨s₁, p₁, h₁, hp₁, -, -, -, hc₁⟩ := Parity.exists_opened
  obtain ⟨s, p, hrun, hp, -, -, -, hc⟩ := h₁.exists_handle hp₁ (touch 1)
    (touch_fits (by decide) (by rw [hc₁]; decide))
  have hc : s.committed = [touch 1] := by
    rw [hc, hc₁]
    exact if_pos fun _ hb => nomatch hb
  have hreach := h₁.steps hrun
  refine ⟨s, p, hreach, hp, hc, ?_⟩
  refine (redelivery_iff hreach hp (by rw [hc]; rfl) rfl keys_touch).mpr fun _ key u hu => ?_
  obtain ⟨rfl, rfl⟩ := finalWrite_touch hu
  rw [hc]
  exact ⟨_, rfl, rfl, fun _ => rfl, nofun⟩

/-- Block 2 has no writes, and is redelivered with the write of block 1: `LightKVS` takes it
for its own. -/
theorem older_write_accepted :
    ∃ (s : Parity) (p : PebbleKVS) (tip b : Block), s.Reachable ∧ s.world.store = .running p ∧
      s.committed = [touch 1, tip] ∧ b.number = tip.number ∧ blockUpdates tip = [] ∧
      (∃ u, finalWrite (blockUpdates b) (ascii "evm:k") = some u) ∧
      s.light.handle b = .ok s.light ∧ ∃ err, p.handle b = .error err := by
  obtain ⟨s₁, p₁, h₁, hp₁, -, -, -, hc₁⟩ := Parity.exists_opened
  obtain ⟨s₂, p₂, hrun₂, hp₂, -, -, -, hc₂⟩ := h₁.exists_handle hp₁ (touch 1)
    (touch_fits (by decide) (by rw [hc₁]; decide))
  have hc₂ : s₂.committed = [touch 1] := by
    rw [hc₂, hc₁]
    exact if_pos fun _ hb => nomatch hb
  have h₂ := h₁.steps hrun₂
  obtain ⟨s, p, hrun, hp, -, -, -, hc⟩ := h₂.exists_handle hp₂ { number := 2, transactions := [] }
    ⟨by decide, fun _ hu => (nomatch hu), by rw [hc₂]; decide⟩
  have hc : s.committed = [touch 1, { number := 2, transactions := [] }] := by
    rw [hc, hc₂]
    exact if_pos fun _ hb => by cases hb; decide
  have hreach := h₂.steps hrun
  have hlog : s.world.ref.log = blockUpdates (touch 1) := by
    rw [hreach.inv.log, hc]
    rfl
  -- block 1 under the number 2
  let b : Block := { touch 1 with number := 2 }
  have hupdates : blockUpdates b = [{ key := ascii "evm:k", value := some [1], blockNum := 2
                                      txNum := 0, txID := ascii "tx", isDelete := false }] := rfl
  have htip : s.committed.getLast? = some { number := 2, transactions := [] } := by rw [hc]; rfl
  refine ⟨s, p, _, b, hreach, hp, hc, rfl, rfl, ⟨_, rfl⟩, ?_, ?_⟩
  · refine (hreach.inv.light_checks (b := b) htip rfl).ok fun key u hu => ?_
    obtain ⟨hmem, rfl⟩ := finalWrite_mem hu
    rw [hupdates, List.mem_singleton] at hmem
    subst hmem
    rw [hlog]
    exact ⟨_, rfl, rfl, rfl, fun _ => rfl⟩
  · refine (hreach.inv.pebble_checks (b := b) hp htip rfl fun u hu => ?_).error fun haccepts => ?_
    · rw [hupdates, List.mem_singleton] at hu
      subst hu
      change (ascii "evm:k").length < 2 ^ 32
      decide
    · obtain ⟨r, hr, hmatch⟩ := haccepts (ascii "evm:k") _ rfl
      rw [hlog] at hr
      cases hr
      cases hmatch.blockNum

end Storage
