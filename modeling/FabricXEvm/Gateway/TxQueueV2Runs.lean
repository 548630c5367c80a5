import FabricXEvm.Gateway.TxQueueV2Links

/-!
# Runs of the participant queue

`Inv` holds in every run, whatever hashes complete.  Its core: two tracked entries that
share a participant are linked, a blocker is tracked, and a waiting entry is blocked only by
entries that do not wait or are newer than it.  So no two tracked entries that are ready or
pending share a participant, and the newest waiting entry waits for one of those.
-/

open Blocks Common

namespace Gateway

namespace TxQueueV2

variable {q q' : TxQueueV2} {e w b x : Nat}

/-! ## The participant map -/

/-- Who is listed under a participant. -/
def listed (m : FinMap Bytes (List Nat)) (p : Bytes) : List Nat := (m.lookup p).getD []

theorem listed_join (e : Nat) {participants : List Bytes} (hnodup : participants.Nodup)
    (m : FinMap Bytes (List Nat)) (p : Bytes) :
    (participants.foldl (fun m p => m.insert p ((m.lookup p).getD [] ++ [e])) m).lookup p =
      if p ∈ participants then some (listed m p ++ [e]) else m.lookup p := by
  induction participants generalizing m with
  | nil => simp
  | cons p' participants ih =>
      obtain ⟨hnot, hnodup⟩ := List.nodup_cons.mp hnodup
      rw [List.foldl_cons, ih hnodup]
      by_cases hp : p = p'
      · subst hp
        simp [hnot, AList.lookup_insert, listed]
      · simp [hp, listed, AList.lookup_insert_ne hp]

/-- What `leave` makes of a list. -/
def leaveList (e : Nat) (txList : Option (List Nat)) : Option (List Nat) :=
  match txList with
  | none => none
  | some txList =>
      if (removeFromSlice txList e).length = 0 then none else some (removeFromSlice txList e)

theorem lookup_leave (e : Nat) (m : FinMap Bytes (List Nat)) (p p' : Bytes) :
    (leave e m p').lookup p = if p = p' then leaveList e (m.lookup p) else m.lookup p := by
  unfold leave
  split
  next hnone =>
    split
    next hp =>
      subst hp
      rw [hnone]
      rfl
    next => rfl
  next txList hsome =>
    dsimp only
    split
    next hempty =>
      rw [FinMap.lookup_erase_if]
      split
      next hp =>
        subst hp
        rw [hsome, leaveList, if_pos hempty]
      next => rfl
    next hleft =>
      rw [FinMap.lookup_insert_if]
      split
      next hp =>
        subst hp
        rw [hsome, leaveList, if_neg hleft]
      next => rfl

theorem lookup_leaveAll (e : Nat) {participants : List Bytes} (hnodup : participants.Nodup)
    (m : FinMap Bytes (List Nat)) (p : Bytes) :
    (participants.foldl (leave e) m).lookup p =
      if p ∈ participants then leaveList e (m.lookup p) else m.lookup p := by
  induction participants generalizing m with
  | nil => simp
  | cons p' participants ih =>
      obtain ⟨hnot, hnodup⟩ := List.nodup_cons.mp hnodup
      rw [List.foldl_cons, ih hnodup, lookup_leave]
      by_cases hp : p = p'
      · subst hp
        simp [hnot]
      · simp [hp]

theorem leaveList_getD (e : Nat) (txList : Option (List Nat)) :
    ((leaveList e txList).getD []).Perm ((txList.getD []).erase e) := by
  cases txList with
  | none => exact .nil
  | some txList =>
      have hperm := removeFromSlice_perm txList e
      unfold leaveList
      dsimp only
      split
      next hempty =>
        rw [List.length_eq_zero_iff.mp hempty] at hperm
        exact hperm
      next => exact hperm

theorem leaveList_ne_nil (e : Nat) {txList : Option (List Nat)} : leaveList e txList ≠ some [] := by
  unfold leaveList
  split
  next => exact nofun
  next =>
    split
    next => exact nofun
    next hleft =>
      intro hnil
      exact hleft (by rw [Option.some.inj hnil]; rfl)

/-! ## The invariant -/

/-- The entries share a participant. -/
def Share (a b : TxEntry) : Prop := ∃ p, p ∈ a.participants ∧ p ∈ b.participants

structure Inv (q : TxQueueV2) : Prop where
  lists : Lists q
  hash : ∀ {h e}, q.hashMap.lookup h = some e → (q.entries e).txHash = h ∧ e < q.made
  pending : ∀ {e}, q.Tracked e → (q.entries e).state = .pending →
    (q.pendingMap.lookup (q.entries e).txHash).isSome
  listed : ∀ p e, e ∈ listed q.participantMap p ↔ q.Tracked e ∧ p ∈ (q.entries e).participants
  listedNodup : ∀ p, (TxQueueV2.listed q.participantMap p).Nodup
  nonempty : ∀ p, q.participantMap.lookup p ≠ some []
  participants : ∀ {e}, e < q.made → (q.entries e).participants.Nodup
  blockers : ∀ {e b}, e < q.made → b ∈ (q.entries e).isBlockedBy →
    q.Tracked b ∧ ((q.entries b).state = .waiting → e < b)
  links : ∀ {e b}, e < q.made → q.Tracked b →
    (q.entries e).isBlockedBy.count b = (q.entries b).blocks.count e
  blocks : ∀ {e b}, q.Tracked b → e ∈ (q.entries b).blocks → e < q.made
  linked : ∀ {a b}, q.Tracked a → q.Tracked b → a ≠ b → Share (q.entries a) (q.entries b) →
    a ∈ (q.entries b).isBlockedBy ∨ b ∈ (q.entries a).isBlockedBy

theorem Inv.empty : Inv {} where
  lists := ⟨fun e => by simp, fun e => by simp, .nil, .nil, fun e he => nomatch he⟩
  hash := nofun
  pending := fun h => nomatch h
  listed := fun p e => ⟨nofun, fun h => nomatch h.1⟩
  listedNodup := fun p => .nil
  nonempty := fun p => nofun
  participants := fun he => nomatch he
  blockers := fun he => nomatch he
  links := fun he => nomatch he
  blocks := fun h => nomatch h
  linked := fun h => nomatch h

theorem Inv.made (h : Inv q) (he : q.Tracked e) : e < q.made := (h.hash he).2

/-- Only states and the lists of them change, and no entry starts to wait. -/
theorem Inv.of_states (h : Inv q) {state : Nat → EntryState}
    (hentries : ∀ x, q'.entries x = { q.entries x with state := state x })
    (hmade : q'.made = q.made) (hhash : q'.hashMap = q.hashMap)
    (hparticipants : q'.participantMap = q.participantMap) (hlists : Lists q')
    (hpending : ∀ {e}, q.Tracked e → state e = .pending →
      (q'.pendingMap.lookup (q.entries e).txHash).isSome)
    (hwaiting : ∀ e, state e = .waiting → (q.entries e).state = .waiting) : Inv q' := by
  have htracked : ∀ x, q'.Tracked x ↔ q.Tracked x := fun x => by
    rw [Tracked, Tracked, hhash, hentries]
  refine
    { lists := hlists
      hash := fun hk => ?_
      pending := fun {x} hx hp => ?_
      listed := fun p x => ?_
      listedNodup := fun p => hparticipants ▸ h.listedNodup p
      nonempty := fun p => hparticipants ▸ h.nonempty p
      participants := fun {x} hx => ?_
      blockers := fun {x b} hx hb => ?_
      links := fun {x b} hx hb => ?_
      blocks := fun {x b} hb hx => ?_
      linked := fun {a b} ha hb hne hshare => ?_ }
  · rw [hmade, hentries]
    exact h.hash (hhash ▸ hk)
  · rw [hentries] at hp ⊢
    exact hpending ((htracked x).mp hx) hp
  · rw [hparticipants, h.listed, htracked, hentries]
  · rw [hentries]
    exact h.participants (hmade ▸ hx)
  · rw [hentries] at hb
    obtain ⟨hb', hlt⟩ := h.blockers (hmade ▸ hx) hb
    rw [htracked, hentries]
    exact ⟨hb', fun hwait => hlt (hwaiting b hwait)⟩
  · rw [hentries, hentries]
    exact h.links (hmade ▸ hx) ((htracked b).mp hb)
  · rw [hentries] at hx
    rw [hmade]
    exact h.blocks ((htracked b).mp hb) hx
  · rw [hentries, hentries] at hshare ⊢
    exact h.linked ((htracked a).mp ha) ((htracked b).mp hb) hne hshare

/-! ### Dequeue -/

/-- What `Dequeue` does: the first ready entry becomes pending. -/
structure Dequeues (q q' : TxQueueV2) (e : Nat) (rest : List Nat) : Prop where
  first : q.readyList = e :: rest
  readyList : q'.readyList = rest
  waitingList : q'.waitingList = q.waitingList
  made : q'.made = q.made
  hashMap : q'.hashMap = q.hashMap
  participantMap : q'.participantMap = q.participantMap
  pendingMap : q'.pendingMap = q.pendingMap.insert (q.entries e).txHash (q.entries e).tx
  entries : ∀ x, q'.entries x =
    { q.entries x with state := if x = e then .pending else (q.entries x).state }

theorem dequeue_spec {tx : EthTx} (h : q.dequeue = some (tx, q')) :
    ∃ e rest, tx = (q.entries e).tx ∧ Dequeues q q' e rest := by
  unfold dequeue at h
  split at h
  next => exact nomatch h
  next e rest hready =>
    obtain ⟨rfl, rfl⟩ := Prod.mk.inj (Option.some.inj h)
    refine ⟨e, rest, rfl, hready, rfl, rfl, rfl, rfl, rfl, rfl, fun x => ?_⟩
    simp only [update, Function.update_apply]
    split
    next hx => rw [hx]
    next => rfl

theorem Inv.dequeue (h : Inv q) {tx : EthTx} (hq : q.dequeue = some (tx, q')) : Inv q' := by
  obtain ⟨e, rest, -, hd⟩ := dequeue_spec hq
  have hlists := h.lists
  have hnodup := hlists.readyNodup
  rw [hd.first] at hnodup
  obtain ⟨hnot, hnodup⟩ := List.nodup_cons.mp hnodup
  obtain ⟨hmade, hstate⟩ := (hlists.ready e).mp (by rw [hd.first]; exact List.mem_cons_self ..)
  have hunblocked : (q.entries e).isBlockedBy = [] := by
    by_contra hne
    have := (hlists.blocked e hmade).mpr hne
    rw [hstate] at this
    exact nomatch this
  refine h.of_states hd.entries hd.made hd.hashMap hd.participantMap
    ⟨fun x => ?_, fun x => ?_, hd.readyList ▸ hnodup, hd.waitingList ▸ hlists.waitingNodup,
      fun x hx => ?_⟩ (fun {x} hx hp => ?_) (fun x hx => ?_)
  · have hmem := hlists.ready x
    rw [hd.first, List.mem_cons] at hmem
    rw [hd.readyList, hd.made, hd.entries]
    by_cases hxe : x = e
    · subst hxe
      simp [hnot]
    · simpa [hxe] using hmem
  · rw [hd.waitingList, hd.made, hlists.waiting, hd.entries]
    by_cases hxe : x = e
    · simp [hxe, hstate]
    · simp [hxe]
  · rw [hd.entries]
    by_cases hxe : x = e
    · simp [hxe, hunblocked]
    · simpa [hxe] using hlists.blocked x (hd.made ▸ hx)
  · rw [hd.pendingMap, FinMap.lookup_insert_if]
    split
    next => rfl
    next hne =>
      have hxe : x ≠ e := fun heq => hne (by rw [heq])
      rw [if_neg hxe] at hp
      exact h.pending hx hp
  · split at hx
    next => exact nomatch hx
    next => exact hx

/-! ### Complete -/

/-- What `completeUnlocked` does when the entry is found: the entry goes out of the way of
all others, and out of the maps. -/
structure Completes (q q' : TxQueueV2) (hash : Bytes) (e : Nat) : Prop where
  lists : Lists q'
  made : q'.made = q.made
  hashMap : q'.hashMap = q.hashMap.erase hash
  pendingMap : q'.pendingMap = q.pendingMap.erase hash
  participantMap : q'.participantMap =
    (q.entries e).participants.foldl (leave e) q.participantMap
  tx : ∀ x, (q'.entries x).tx = (q.entries x).tx
  txHash : ∀ x, (q'.entries x).txHash = (q.entries x).txHash
  participants : ∀ x, (q'.entries x).participants = (q.entries x).participants
  blocks : ∀ x, (q'.entries x).blocks = (q.entries x).blocks
  others : ∀ x b, b ≠ e →
    (q'.entries x).isBlockedBy.count b = (q.entries x).isBlockedBy.count b
  gone : ∀ x, x < q.made → e ∉ (q'.entries x).isBlockedBy
  state : ∀ x, (q'.entries x).state = (q.entries x).state ∨
    (q.entries x).state = .waiting ∧ (q'.entries x).state = .ready
  perm : (q'.readyList ++ q'.waitingList).Perm (q.readyList ++ q.waitingList)

theorem complete_unknown {hash : Bytes} (h : q.hashMap.lookup hash = none) :
    q.complete hash = { q with pendingMap := q.pendingMap.erase hash } := by
  simp only [complete, h]

theorem complete_spec (h : Inv q) {hash : Bytes} (he : q.hashMap.lookup hash = some e) :
    Completes q (q.complete hash) hash e := by
  obtain ⟨hhash, hmade⟩ := h.hash he
  have htracked : q.Tracked e := by rw [Tracked, hhash, he]
  have hcomplete : q.complete hash =
      { (q.entries e).blocks.foldl (unblock e) { q with pendingMap := q.pendingMap.erase hash } with
        hashMap := q.hashMap.erase hash
        participantMap := (q.entries e).participants.foldl (leave e) q.participantMap } := by
    simp only [complete, he]
  have hlists : Lists { q with pendingMap := q.pendingMap.erase hash } :=
    ⟨h.lists.ready, h.lists.waiting, h.lists.readyNodup, h.lists.waitingNodup, h.lists.blocked⟩
  have hun := unblockAll_spec hlists (fun w hw => h.blocks htracked hw)
    (fun w hw => h.links hw htracked)
  have hl := hun.lists
  rw [hcomplete]
  exact
    { lists := ⟨hl.ready, hl.waiting, hl.readyNodup, hl.waitingNodup, hl.blocked⟩
      made := hun.same.made
      hashMap := rfl
      pendingMap := hun.same.pendingMap
      participantMap := rfl
      tx := hun.same.tx
      txHash := hun.same.txHash
      participants := hun.same.participants
      blocks := hun.same.blocks
      others := hun.others
      gone := fun x hx => List.count_eq_zero.mp (hun.left x hx)
      state := hun.state
      perm := hun.perm }

theorem Completes.tracked {hash : Bytes} (hc : Completes q q' hash e) (h : Inv q)
    (he : q.hashMap.lookup hash = some e) (x : Nat) : q'.Tracked x ↔ q.Tracked x ∧ x ≠ e := by
  rw [Tracked, Tracked, hc.hashMap, hc.txHash, FinMap.lookup_erase_if]
  obtain ⟨hhash, -⟩ := h.hash he
  split
  next hx =>
    rw [hx, he]
    refine ⟨nofun, fun ⟨hsome, hne⟩ => ?_⟩
    exact absurd (Option.some.inj hsome).symm hne
  next hx => exact ⟨fun ht => ⟨ht, fun hxe => hx (hxe ▸ hhash)⟩, And.left⟩

theorem Completes.mem_isBlockedBy {hash : Bytes} (hc : Completes q q' hash e) (hb : b ≠ e) :
    b ∈ (q'.entries x).isBlockedBy ↔ b ∈ (q.entries x).isBlockedBy := by
  rw [← List.count_pos_iff, ← List.count_pos_iff, hc.others x b hb]

/-- A completed entry leaves the lists of its participants. -/
theorem Completes.listed_perm {hash : Bytes} (hc : Completes q q' hash e)
    (hnodup : (q.entries e).participants.Nodup) (p : Bytes) :
    (listed q'.participantMap p).Perm
      (if p ∈ (q.entries e).participants then (listed q.participantMap p).erase e
        else listed q.participantMap p) := by
  rw [listed, hc.participantMap, lookup_leaveAll e hnodup]
  split
  next => exact leaveList_getD e _
  next => exact .refl _

theorem Completes.mem_listed {hash : Bytes} (hc : Completes q q' hash e) (h : Inv q)
    (he : q.hashMap.lookup hash = some e) (p : Bytes) (x : Nat) :
    x ∈ listed q'.participantMap p ↔ q'.Tracked x ∧ p ∈ (q'.entries x).participants := by
  rw [(hc.listed_perm (h.participants (h.hash he).2) p).mem_iff, hc.tracked h he, hc.participants]
  split
  next hp =>
    rw [(h.listedNodup p).mem_erase_iff, h.listed]
    tauto
  next hp =>
    rw [h.listed]
    constructor
    · rintro ⟨hx, hpx⟩
      exact ⟨⟨hx, fun hxe => hp (hxe ▸ hpx)⟩, hpx⟩
    · rintro ⟨⟨hx, -⟩, hpx⟩
      exact ⟨hx, hpx⟩

theorem Completes.inv {hash : Bytes} (hc : Completes q q' hash e) (h : Inv q)
    (he : q.hashMap.lookup hash = some e) : Inv q' := by
  have hnodup : (q.entries e).participants.Nodup := h.participants (h.hash he).2
  have htracked := hc.tracked h he
  refine
    { lists := hc.lists
      hash := fun {k x} hk => ?_
      pending := fun {x} hx hp => ?_
      listed := hc.mem_listed h he
      listedNodup := fun p => ?_
      nonempty := fun p => ?_
      participants := fun {x} hx => ?_
      blockers := fun {x b} hx hb => ?_
      links := fun {x b} hx hb => ?_
      blocks := fun {x b} hb hx => ?_
      linked := fun {a b} ha hb hne hshare => ?_ }
  · rw [hc.hashMap, FinMap.lookup_erase_if] at hk
    split at hk
    next => exact nomatch hk
    next => rw [hc.made, hc.txHash]; exact h.hash hk
  · obtain ⟨hx, hxe⟩ := (htracked x).mp hx
    have hne : (q.entries x).txHash ≠ hash := by
      intro heq
      rw [Tracked, heq, he] at hx
      exact hxe (Option.some.inj hx).symm
    rw [hc.pendingMap, hc.txHash, FinMap.lookup_erase_if, if_neg hne]
    apply h.pending hx
    obtain hsame | ⟨-, hready⟩ := hc.state x
    · exact hsame.symm.trans hp
    · rw [hready] at hp
      exact nomatch hp
  · rw [(hc.listed_perm hnodup p).nodup_iff]
    split
    next => exact (h.listedNodup p).erase e
    next => exact h.listedNodup p
  · rw [hc.participantMap, lookup_leaveAll e hnodup]
    split
    next => exact leaveList_ne_nil e
    next => exact h.nonempty p
  · rw [hc.participants]
    exact h.participants (hc.made ▸ hx)
  · rw [hc.made] at hx
    have hbe : b ≠ e := fun hbe => hc.gone x hx (hbe ▸ hb)
    obtain ⟨hb', hlt⟩ := h.blockers hx ((hc.mem_isBlockedBy hbe).mp hb)
    refine ⟨(htracked b).mpr ⟨hb', hbe⟩, fun hwait => hlt ?_⟩
    obtain hsame | ⟨hold, -⟩ := hc.state b
    · exact hsame.symm.trans hwait
    · exact hold
  · obtain ⟨hb, hbe⟩ := (htracked b).mp hb
    rw [hc.others x b hbe, hc.blocks]
    exact h.links (hc.made ▸ hx) hb
  · rw [hc.blocks] at hx
    rw [hc.made]
    exact h.blocks ((htracked b).mp hb).1 hx
  · obtain ⟨ha, hae⟩ := (htracked a).mp ha
    obtain ⟨hb, hbe⟩ := (htracked b).mp hb
    rw [hc.mem_isBlockedBy hae, hc.mem_isBlockedBy hbe]
    apply h.linked ha hb hne
    rwa [Share, hc.participants, hc.participants] at hshare

theorem Inv.complete (h : Inv q) (hash : Bytes) : Inv (q.complete hash) := by
  cases he : q.hashMap.lookup hash with
  | some e => exact (complete_spec h he).inv h he
  | none =>
      rw [complete_unknown he]
      refine h.of_states (fun x => rfl) rfl rfl rfl
        ⟨h.lists.ready, h.lists.waiting, h.lists.readyNodup, h.lists.waitingNodup, h.lists.blocked⟩
        (fun {x} hx hp => ?_) (fun x hx => hx)
      have hne : (q.entries x).txHash ≠ hash := by
        intro heq
        rw [Tracked, heq, he] at hx
        exact nomatch hx
      show ((q.pendingMap.erase hash).lookup _).isSome
      rw [FinMap.lookup_erase_if, if_neg hne]
      exact h.pending hx hp

/-! ### Enqueue -/

variable {d : Decoders} {r : TxReader} {tx : EthTx}

theorem mem_sharing (h : Inv q) {participants : List Bytes} :
    x ∈ q.sharing participants ↔
      q.Tracked x ∧ ∃ p, p ∈ participants ∧ p ∈ (q.entries x).participants := by
  simp only [sharing, List.mem_flatMap]
  constructor
  · rintro ⟨p, hp, hx⟩
    obtain ⟨ht, hpx⟩ := (h.listed p x).mp hx
    exact ⟨ht, p, hp, hpx⟩
  · rintro ⟨ht, p, hp, hpx⟩
    exact ⟨p, hp, (h.listed p x).mpr ⟨ht, hpx⟩⟩

theorem mem_newLinks {participants : List Bytes} :
    (x, b) ∈ q.newLinks participants ↔
      x = q.made ∧ b ∈ q.conflictingTxs participants ∨
        b = q.made ∧ x ∈ q.waitingTxsToBlock participants := by
  simp only [newLinks, List.mem_append, List.mem_map, Prod.mk.injEq]
  constructor
  · rintro (⟨c, hc, rfl, rfl⟩ | ⟨c, hc, rfl, rfl⟩)
    · exact .inl ⟨rfl, hc⟩
    · exact .inr ⟨rfl, hc⟩
  · rintro (⟨rfl, hc⟩ | ⟨rfl, hc⟩)
    · exact .inl ⟨b, hc, rfl, rfl⟩
    · exact .inr ⟨x, hc, rfl, rfl⟩

/-- What `Enqueue` does when the hash is not tracked. -/
structure Enqueues (q q' : TxQueueV2) (tx : EthTx) (participants : List Bytes) : Prop where
  unknown : q.hashMap.lookup tx.hash = none
  made : q'.made = q.made + 1
  hashMap : q'.hashMap = q.hashMap.insert tx.hash q.made
  pendingMap : q'.pendingMap = q.pendingMap
  participantMap : q'.participantMap =
    participants.foldl (fun m p => m.insert p ((m.lookup p).getD [] ++ [q.made])) q.participantMap
  readyList : q'.readyList = if 0 < (q.conflictingTxs participants).length then q.readyList
    else q.readyList ++ [q.made]
  waitingList : q'.waitingList = if 0 < (q.conflictingTxs participants).length then
    q.waitingList ++ [q.made] else q.waitingList
  entry : (q'.entries q.made).tx = tx ∧ (q'.entries q.made).txHash = tx.hash ∧
    (q'.entries q.made).participants = participants ∧ (q'.entries q.made).state =
      if 0 < (q.conflictingTxs participants).length then .waiting else .ready
  static : ∀ {x}, x ≠ q.made → (q'.entries x).tx = (q.entries x).tx ∧
    (q'.entries x).txHash = (q.entries x).txHash ∧
    (q'.entries x).participants = (q.entries x).participants ∧
    (q'.entries x).state = (q.entries x).state
  isBlockedBy : ∀ x b, (q'.entries x).isBlockedBy.count b =
    (if x = q.made then 0 else (q.entries x).isBlockedBy.count b) +
      (q.newLinks participants).count (x, b)
  blocks : ∀ x b, (q'.entries b).blocks.count x =
    (if b = q.made then 0 else (q.entries b).blocks.count x) +
      (q.newLinks participants).count (x, b)

theorem enqueue_spec (h : q.enqueue d r tx = .ok q') :
    Enqueues q q' tx (participantsForTx d r tx) := by
  unfold enqueue at h
  split at h
  next => exact nomatch h
  next hunknown =>
    rw [Option.not_isSome_iff_eq_none] at hunknown
    obtain rfl := Except.ok.inj h
    generalize participantsForTx d r tx = participants
    obtain ⟨hmade, hhash, hpending, hpart, hready, hwaiting, hentries⟩ :=
      links_spec (q.place tx participants) (q.newLinks participants)
    refine
      { unknown := hunknown, made := hmade, hashMap := hhash, pendingMap := hpending
        participantMap := hpart, readyList := hready, waitingList := hwaiting
        entry := ?_, static := fun {x} hx => ?_, isBlockedBy := fun x b => ?_
        blocks := fun x b => ?_ }
    · rw [hentries]
      simp [place]
    · rw [hentries]
      simp [place, Function.update_of_ne hx]
    · rw [hentries, List.count_append, count_second]
      congr 1
      by_cases hx : x = q.made
      · simp [hx, place]
      · simp [hx, place]
    · rw [hentries, List.count_append, count_first]
      congr 1
      by_cases hb : b = q.made
      · simp [hb, place]
      · simp [hb, place]

theorem Enqueues.tracked {participants : List Bytes} (he : Enqueues q q' tx participants)
    (x : Nat) : q'.Tracked x ↔ x = q.made ∨ q.Tracked x := by
  by_cases hx : x = q.made
  · subst hx
    rw [Tracked, he.hashMap, he.entry.2.1]
    exact ⟨fun _ => .inl rfl, fun _ => AList.lookup_insert _⟩
  · rw [Tracked, Tracked, he.hashMap, (he.static hx).2.1, FinMap.lookup_insert_if]
    split
    next hhash =>
      rw [hhash, he.unknown]
      refine ⟨fun hsome => absurd (Option.some.inj hsome).symm hx, ?_⟩
      rintro (hmade | hnone)
      · exact absurd hmade hx
      · exact nomatch hnone
    next => exact ⟨.inr, fun ht => ht.resolve_left hx⟩

theorem mem_conflictingTxs (h : Inv q) {participants : List Bytes} :
    x ∈ q.conflictingTxs participants ↔ (q.Tracked x ∧ ∃ p, p ∈ participants ∧
      p ∈ (q.entries x).participants) ∧ (q.entries x).state ≠ .waiting := by
  rw [conflictingTxs, List.mem_dedup, List.mem_filter, mem_sharing h, decide_eq_true_eq]

theorem mem_waitingTxsToBlock (h : Inv q) {participants : List Bytes} :
    x ∈ q.waitingTxsToBlock participants ↔ (q.Tracked x ∧ ∃ p, p ∈ participants ∧
      p ∈ (q.entries x).participants) ∧ (q.entries x).state = .waiting := by
  rw [waitingTxsToBlock, List.mem_filter, mem_sharing h, decide_eq_true_eq]

theorem Enqueues.mem_isBlockedBy {participants : List Bytes} (he : Enqueues q q' tx participants) :
    b ∈ (q'.entries x).isBlockedBy ↔
      x ≠ q.made ∧ b ∈ (q.entries x).isBlockedBy ∨ (x, b) ∈ q.newLinks participants := by
  rw [← List.count_pos_iff, he.isBlockedBy, ← List.count_pos_iff, ← List.count_pos_iff]
  split
  next hx => simp [hx]
  next hx => omega

theorem Enqueues.lists {participants : List Bytes} (he : Enqueues q q' tx participants)
    (h : Inv q) : Lists q' := by
  have hl := h.lists
  have hfresh : q.made ∉ q.readyList ∧ q.made ∉ q.waitingList :=
    ⟨fun hm => Nat.lt_irrefl _ ((hl.ready _).mp hm).1, fun hm => Nat.lt_irrefl _ ((hl.waiting _).mp hm).1⟩
  obtain ⟨-, -, -, hstate⟩ := he.entry
  refine ⟨fun x => ?_, fun x => ?_, ?_, ?_, fun x hx => ?_⟩
  · rw [he.readyList, he.made]
    by_cases hx : x = q.made
    · subst hx
      rw [hstate]
      split <;> simp [hfresh]
    · have hlt : x < q.made + 1 ↔ x < q.made := by omega
      rw [(he.static hx).2.2.2, hlt, ← hl.ready]
      split <;> simp [hx]
  · rw [he.waitingList, he.made]
    by_cases hx : x = q.made
    · subst hx
      rw [hstate]
      split <;> simp [hfresh]
    · have hlt : x < q.made + 1 ↔ x < q.made := by omega
      rw [(he.static hx).2.2.2, hlt, ← hl.waiting]
      split <;> simp [hx]
  · rw [he.readyList]
    split
    next => exact hl.readyNodup
    next =>
      rw [← List.concat_eq_append]
      exact hl.readyNodup.concat hfresh.1
  · rw [he.waitingList]
    split
    next =>
      rw [← List.concat_eq_append]
      exact hl.waitingNodup.concat hfresh.2
    next => exact hl.waitingNodup
  · have hmem : ∀ {l : List Nat}, l ≠ [] ↔ ∃ b, b ∈ l := fun {l} =>
      ⟨List.exists_mem_of_ne_nil l, fun ⟨b, hb⟩ => List.ne_nil_of_mem hb⟩
    rw [hmem]
    simp only [he.mem_isBlockedBy, mem_newLinks, mem_waitingTxsToBlock h]
    by_cases hxe : x = q.made
    · subst hxe
      have hnot : ¬ q.Tracked q.made := fun ht => Nat.lt_irrefl _ (h.made ht)
      simp only [hstate, hnot, ne_eq, not_true_eq_false, false_and, and_false, or_false, false_or,
        true_and, ← hmem, ← List.length_pos_iff]
      split <;> simp_all
    · rw [(he.static hxe).2.2.2, hl.blocked x (by rw [he.made] at hx; omega), hmem]
      constructor
      · rintro ⟨b, hb⟩
        exact ⟨b, .inl ⟨hxe, hb⟩⟩
      · rintro ⟨b, ⟨-, hb⟩ | ⟨hxe', -⟩ | ⟨-, -, hwait⟩⟩
        · exact ⟨b, hb⟩
        · exact absurd hxe' hxe
        · exact hwait

section EnqueueInv

variable {participants : List Bytes}

theorem Enqueues.old (he : Enqueues q q' tx participants) (hx : x < q'.made) (hne : x ≠ q.made) :
    x < q.made := by
  rw [he.made] at hx
  omega

theorem Inv.ne_made (h : Inv q) (hx : q.Tracked x) : x ≠ q.made := (h.made hx).ne

theorem Inv.made_not_listed (h : Inv q) (p : Bytes) : q.made ∉ TxQueueV2.listed q.participantMap p :=
  fun hm => h.ne_made ((h.listed p _).mp hm).1 rfl

/-- The new entry comes last in the lists of its participants. -/
theorem Enqueues.listed_eq (he : Enqueues q q' tx participants) (hparts : participants.Nodup)
    (p : Bytes) : listed q'.participantMap p =
      if p ∈ participants then listed q.participantMap p ++ [q.made]
      else listed q.participantMap p := by
  rw [listed, he.participantMap, listed_join q.made hparts]
  split <;> rfl

theorem Enqueues.mem_listed (he : Enqueues q q' tx participants) (hparts : participants.Nodup)
    (h : Inv q) (p : Bytes) (x : Nat) :
    x ∈ listed q'.participantMap p ↔ q'.Tracked x ∧ p ∈ (q'.entries x).participants := by
  rw [he.listed_eq hparts, he.tracked]
  by_cases hx : x = q.made
  · subst hx
    rw [he.entry.2.2.1]
    split
    next hp => simp [hp]
    next hp => simp [hp, h.made_not_listed p]
  · rw [(he.static hx).2.2.1]
    split
    next => simp [hx, h.listed]
    next => simp [hx, h.listed]

theorem Enqueues.hash_of_lookup (he : Enqueues q q' tx participants) (h : Inv q) {k : Bytes}
    (hk : q'.hashMap.lookup k = some x) : (q'.entries x).txHash = k ∧ x < q'.made := by
  rw [he.hashMap, FinMap.lookup_insert_if] at hk
  rw [he.made]
  split at hk
  next hkey =>
    obtain rfl := Option.some.inj hk
    exact ⟨he.entry.2.1.trans hkey.symm, Nat.lt_succ_self _⟩
  next =>
    obtain ⟨hx, hm⟩ := h.hash hk
    rw [(he.static hm.ne).2.1]
    exact ⟨hx, Nat.lt_succ_of_lt hm⟩

/-- A blocker of an entry is tracked, and newer than the entry if it waits. -/
theorem Enqueues.blocker (he : Enqueues q q' tx participants) (h : Inv q) (hx : x < q'.made)
    (hb : b ∈ (q'.entries x).isBlockedBy) :
    q'.Tracked b ∧ ((q'.entries b).state = .waiting → x < b) := by
  rw [he.tracked]
  obtain ⟨hxe, hb⟩ | hlink := he.mem_isBlockedBy.mp hb
  · obtain ⟨hb', hwait⟩ := h.blockers (he.old hx hxe) hb
    rw [(he.static (h.ne_made hb')).2.2.2]
    exact ⟨.inr hb', hwait⟩
  · obtain ⟨-, hb⟩ | ⟨rfl, hx'⟩ := mem_newLinks.mp hlink
    · obtain ⟨⟨hb', -⟩, hstate'⟩ := (mem_conflictingTxs h).mp hb
      rw [(he.static (h.ne_made hb')).2.2.2]
      exact ⟨.inr hb', fun hwait => absurd hwait hstate'⟩
    · exact ⟨.inl rfl, fun _ => h.made ((mem_waitingTxsToBlock h).mp hx').1.1⟩

/-- Both ends of a link count it alike. -/
theorem Enqueues.count_links (he : Enqueues q q' tx participants) (h : Inv q) (hx : x < q'.made)
    (hb : q'.Tracked b) : (q'.entries x).isBlockedBy.count b = (q'.entries b).blocks.count x := by
  rw [he.isBlockedBy, he.blocks]
  congr 1
  obtain rfl | hb := (he.tracked b).mp hb
  · rw [if_pos rfl]
    split
    next hxe => rfl
    next hxe =>
      exact List.count_eq_zero.mpr fun hm => h.ne_made (h.blockers (he.old hx hxe) hm).1 rfl
  · rw [if_neg (h.ne_made hb)]
    split
    next hxe =>
      exact (List.count_eq_zero.mpr fun hm => Nat.lt_irrefl _ (h.blocks hb (hxe ▸ hm))).symm
    next hxe => exact h.links (he.old hx hxe) hb

theorem Enqueues.blocked_lt (he : Enqueues q q' tx participants) (h : Inv q) (hb : q'.Tracked b)
    (hx : x ∈ (q'.entries b).blocks) : x < q'.made := by
  rw [he.made]
  rw [← List.count_pos_iff, he.blocks] at hx
  have hcases : (b ≠ q.made ∧ x ∈ (q.entries b).blocks) ∨ (x, b) ∈ q.newLinks participants := by
    rw [← List.count_pos_iff, ← List.count_pos_iff]
    split at hx <;> omega
  obtain ⟨hbe, hx⟩ | hlink := hcases
  · exact Nat.lt_succ_of_lt (h.blocks (((he.tracked b).mp hb).resolve_left hbe) hx)
  · obtain ⟨rfl, -⟩ | ⟨-, hx⟩ := mem_newLinks.mp hlink
    · exact Nat.lt_succ_self _
    · exact Nat.lt_succ_of_lt (h.made ((mem_waitingTxsToBlock h).mp hx).1.1)

/-- A new entry is linked to every tracked one it shares a participant with. -/
theorem Enqueues.links_new (he : Enqueues q q' tx participants) (h : Inv q) (hx : q.Tracked x)
    (hshare : Share (q'.entries q.made) (q'.entries x)) :
    (q.made, x) ∈ q.newLinks participants ∨ (x, q.made) ∈ q.newLinks participants := by
  rw [Share, he.entry.2.2.1, (he.static (h.ne_made hx)).2.2.1] at hshare
  rw [mem_newLinks, mem_newLinks]
  by_cases hwait : (q.entries x).state = .waiting
  · exact .inr (.inr ⟨rfl, (mem_waitingTxsToBlock h).mpr ⟨⟨hx, hshare⟩, hwait⟩⟩)
  · exact .inl (.inl ⟨rfl, (mem_conflictingTxs h).mpr ⟨⟨hx, hshare⟩, hwait⟩⟩)

theorem Enqueues.links_sharing (he : Enqueues q q' tx participants) (h : Inv q) {a b : Nat}
    (ha : q'.Tracked a) (hb : q'.Tracked b) (hab : a ≠ b)
    (hshare : Share (q'.entries a) (q'.entries b)) :
    a ∈ (q'.entries b).isBlockedBy ∨ b ∈ (q'.entries a).isBlockedBy := by
  rw [he.mem_isBlockedBy, he.mem_isBlockedBy]
  obtain rfl | ha := (he.tracked a).mp ha
  · have hb := ((he.tracked b).mp hb).resolve_left (Ne.symm hab)
    obtain hl | hl := he.links_new h hb hshare
    · exact .inr (.inr hl)
    · exact .inl (.inr hl)
  · obtain rfl | hb := (he.tracked b).mp hb
    · have hswap : Share (q'.entries q.made) (q'.entries a) := by
        obtain ⟨p, hpa, hpb⟩ := hshare
        exact ⟨p, hpb, hpa⟩
      obtain hl | hl := he.links_new h ha hswap
      · exact .inl (.inr hl)
      · exact .inr (.inr hl)
    · rw [Share, (he.static (h.ne_made ha)).2.2.1, (he.static (h.ne_made hb)).2.2.1] at hshare
      obtain hl | hl := h.linked ha hb hab hshare
      · exact .inl (.inl ⟨h.ne_made hb, hl⟩)
      · exact .inr (.inl ⟨h.ne_made ha, hl⟩)

theorem Enqueues.inv (he : Enqueues q q' tx participants) (hparts : participants.Nodup)
    (h : Inv q) : Inv q' := by
  refine
    { lists := he.lists h
      hash := he.hash_of_lookup h
      pending := fun {x} hx hp => ?_
      listed := he.mem_listed hparts h
      listedNodup := fun p => ?_
      nonempty := fun p => ?_
      participants := fun {x} hx => ?_
      blockers := he.blocker h
      links := he.count_links h
      blocks := he.blocked_lt h
      linked := he.links_sharing h }
  · obtain rfl | hx := (he.tracked x).mp hx
    · rw [he.entry.2.2.2] at hp
      split at hp <;> exact nomatch hp
    · obtain ⟨-, hxhash, -, hxstate⟩ := he.static (h.ne_made hx)
      rw [he.pendingMap, hxhash]
      exact h.pending hx (hxstate ▸ hp)
  · rw [he.listed_eq hparts]
    split
    next =>
      rw [← List.concat_eq_append]
      exact (h.listedNodup p).concat (h.made_not_listed p)
    next => exact h.listedNodup p
  · rw [he.participantMap, listed_join q.made hparts]
    split
    next => simp
    next => exact h.nonempty p
  · by_cases hxe : x = q.made
    · rw [hxe, he.entry.2.2.1]
      exact hparts
    · rw [(he.static hxe).2.2.1]
      exact h.participants (he.old hx hxe)

end EnqueueInv

/-! ### The runs -/

theorem Inv.handleTx (h : Inv q) (tx : Domain.Transaction) : Inv (q.handleTx tx) := by
  have hone := h.complete (bytesToHash tx.txHash)
  exact hone.of_states (fun x => rfl) rfl rfl rfl
    ⟨hone.lists.ready, hone.lists.waiting, hone.lists.readyNodup, hone.lists.waitingNodup,
      hone.lists.blocked⟩ (fun hx hp => hone.pending hx hp) (fun x hx => hx)

theorem Inv.handle (h : Inv q) (block : Domain.Block) : Inv (q.handle block) := by
  unfold TxQueueV2.handle
  induction block.transactions generalizing q with
  | nil => exact h
  | cons tx txs ih => exact ih (h.handleTx tx)

theorem reachable_inv {ok : TxQueueV2 → QueueCall → Prop} {s : Serving TxQueueV2}
    (h : s.Reachable (interface d r) {} ok) : Inv s.queue := by
  induction h with
  | start => exact Inv.empty
  | @step s call _ _ ih =>
      cases call with
      | enqueue tx =>
          simp only [Serving.step]
          split
          next q' hq => exact (enqueue_spec hq).inv (participantsForTx_nodup d r tx) ih
          next => exact ih
      | dequeue =>
          simp only [Serving.step]
          split
          next => exact ih
          next tx q' hq => exact ih.dequeue hq
      | complete hash => exact ih.complete hash
      | handle block => exact ih.handle block

end TxQueueV2

end Gateway
