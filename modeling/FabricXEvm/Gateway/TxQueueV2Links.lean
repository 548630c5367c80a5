import FabricXEvm.Gateway.TxQueueV2

/-!
# The links between the entries of the participant queue

What the loops of `Enqueue` and `completeUnlocked` do to the entries.  `Lists` says that
the two lists hold exactly the ready and the waiting entries, and that an entry waits
exactly when it is blocked.  `links_spec` gives the entries after all the links of a new
one are made, `unblockAll_spec` those after an entry is taken out of the way.
-/

open Blocks Common

namespace Gateway

/-! ## Slices -/

theorem removeFromSlice_perm (slice : List Nat) (target : Nat) :
    (removeFromSlice slice target).Perm (slice.erase target) := by
  induction slice with
  | nil => exact .nil
  | cons item rest ih =>
      rw [removeFromSlice]
      split
      next heq =>
        subst heq
        rw [List.erase_cons_head]
        cases hlast : rest.getLast? with
        | none =>
            rw [List.getLast?_eq_none_iff.mp hlast]
        | some last =>
            obtain ⟨init, rfl⟩ := List.getLast?_eq_some_iff.mp hlast
            simpa using (List.perm_append_singleton last init).symm
      next hne =>
        rw [List.erase_cons_tail (by simpa using hne)]
        exact ih.cons item

namespace TxQueueV2

variable {q q' q'' : TxQueueV2} {e w b : Nat}

/-- The entry is found by its hash. -/
def Tracked (q : TxQueueV2) (e : Nat) : Prop := q.hashMap.lookup (q.entries e).txHash = some e

/-- The two lists hold the ready and the waiting entries. -/
structure Lists (q : TxQueueV2) : Prop where
  ready : ∀ e, e ∈ q.readyList ↔ e < q.made ∧ (q.entries e).state = .ready
  waiting : ∀ e, e ∈ q.waitingList ↔ e < q.made ∧ (q.entries e).state = .waiting
  readyNodup : q.readyList.Nodup
  waitingNodup : q.waitingList.Nodup
  blocked : ∀ e, e < q.made → ((q.entries e).state = .waiting ↔ (q.entries e).isBlockedBy ≠ [])

/-- Only states, blockers and the two lists differ. -/
structure Same (q q' : TxQueueV2) : Prop where
  made : q'.made = q.made
  hashMap : q'.hashMap = q.hashMap
  pendingMap : q'.pendingMap = q.pendingMap
  participantMap : q'.participantMap = q.participantMap
  tx : ∀ w, (q'.entries w).tx = (q.entries w).tx
  txHash : ∀ w, (q'.entries w).txHash = (q.entries w).txHash
  participants : ∀ w, (q'.entries w).participants = (q.entries w).participants
  blocks : ∀ w, (q'.entries w).blocks = (q.entries w).blocks

theorem Same.refl (q : TxQueueV2) : Same q q :=
  ⟨rfl, rfl, rfl, rfl, fun _ => rfl, fun _ => rfl, fun _ => rfl, fun _ => rfl⟩

theorem Same.trans (h : Same q q') (h' : Same q' q'') : Same q q'' where
  made := h'.made.trans h.made
  hashMap := h'.hashMap.trans h.hashMap
  pendingMap := h'.pendingMap.trans h.pendingMap
  participantMap := h'.participantMap.trans h.participantMap
  tx := fun w => (h'.tx w).trans (h.tx w)
  txHash := fun w => (h'.txHash w).trans (h.txHash w)
  participants := fun w => (h'.participants w).trans (h.participants w)
  blocks := fun w => (h'.blocks w).trans (h.blocks w)

/-! ## Taking an entry out of the way -/

/-- `q'` is `q` with `e` out of the way of all entries but those of `todo`. -/
structure Unblocked (e : Nat) (q q' : TxQueueV2) (todo : List Nat) : Prop where
  lists : Lists q'
  same : Same q q'
  others : ∀ w b, b ≠ e →
    (q'.entries w).isBlockedBy.count b = (q.entries w).isBlockedBy.count b
  left : ∀ w, w < q.made → (q'.entries w).isBlockedBy.count e = todo.count w
  state : ∀ w, (q'.entries w).state = (q.entries w).state ∨
    (q.entries w).state = .waiting ∧ (q'.entries w).state = .ready
  perm : (q'.readyList ++ q'.waitingList).Perm (q.readyList ++ q.waitingList)

/-- What `unblock` does to the entry, and that it leaves the others. -/
theorem unblock_entries (e : Nat) (q : TxQueueV2) (w x : Nat) :
    (unblock e q w).entries x =
      if x = w then
        { q.entries w with
          isBlockedBy := removeFromSlice (q.entries w).isBlockedBy e
          state := if (removeFromSlice (q.entries w).isBlockedBy e).length = 0 then .ready
            else (q.entries w).state }
      else q.entries x := by
  unfold unblock
  dsimp only
  split
  next =>
    show Function.update q.entries w _ x = _
    rw [Function.update_apply]
  next =>
    show Function.update q.entries w _ x = _
    rw [Function.update_apply]

theorem unblock_same (e : Nat) (q : TxQueueV2) (w : Nat) : Same q (unblock e q w) := by
  have hframe : (unblock e q w).made = q.made ∧ (unblock e q w).hashMap = q.hashMap ∧
      (unblock e q w).pendingMap = q.pendingMap ∧
      (unblock e q w).participantMap = q.participantMap := by
    unfold unblock
    dsimp only
    split <;> exact ⟨rfl, rfl, rfl, rfl⟩
  obtain ⟨hmade, hhash, hpending, hparticipant⟩ := hframe
  refine ⟨hmade, hhash, hpending, hparticipant, fun x => ?_, fun x => ?_, fun x => ?_,
    fun x => ?_⟩
  all_goals
    rw [unblock_entries]
    split
    next hx => rw [hx]
    next => rfl

/-- Unblocking a waiting entry keeps the lists in order. -/
theorem unblock_lists (h : Lists q) (hw : w < q.made) (hwait : (q.entries w).state = .waiting) :
    Lists (unblock e q w) ∧ ((unblock e q w).readyList ++ (unblock e q w).waitingList).Perm
      (q.readyList ++ q.waitingList) := by
  have hmem : w ∈ q.waitingList := (h.waiting w).mpr ⟨hw, hwait⟩
  have hnot : w ∉ q.readyList := fun hr => by
    have := ((h.ready w).mp hr).2
    rw [hwait] at this
    exact nomatch this
  have hentries := unblock_entries e q w
  have hmade := (unblock_same e q w).made
  by_cases hempty : (removeFromSlice (q.entries w).isBlockedBy e).length = 0
  · have hready : (unblock e q w).readyList = q.readyList ++ [w] := by simp [unblock, hempty]
    have hwaiting : (unblock e q w).waitingList = q.waitingList.erase w := by
      simp [unblock, hempty]
    refine ⟨⟨fun x => ?_, fun x => ?_, ?_, ?_, fun x hx => ?_⟩, ?_⟩
    · rw [hready, hmade, hentries, List.mem_append, List.mem_singleton, h.ready]
      by_cases hxw : x = w
      · simp [hxw, hempty, hw]
      · simp [hxw]
    · rw [hwaiting, hmade, hentries, h.waitingNodup.mem_erase_iff, h.waiting]
      by_cases hxw : x = w
      · simp [hxw, hempty]
      · simp [hxw]
    · rw [hready, ← List.concat_eq_append]
      exact h.readyNodup.concat hnot
    · rw [hwaiting]
      exact h.waitingNodup.erase w
    · rw [hentries]
      by_cases hxw : x = w
      · have := List.length_eq_zero_iff.mp hempty
        simp [hxw, this]
      · simpa [hxw] using h.blocked x (hmade ▸ hx)
    · rw [hready, hwaiting, List.append_assoc]
      exact (List.perm_cons_erase hmem).symm.append_left _
  · have hready : (unblock e q w).readyList = q.readyList := by simp [unblock, hempty, update]
    have hwaiting : (unblock e q w).waitingList = q.waitingList := by
      simp [unblock, hempty, update]
    refine ⟨⟨fun x => ?_, fun x => ?_, ?_, ?_, fun x hx => ?_⟩, ?_⟩
    · rw [hready, hmade, hentries, h.ready]
      by_cases hxw : x = w
      · simp [hxw, hempty]
      · simp [hxw]
    · rw [hwaiting, hmade, hentries, h.waiting]
      by_cases hxw : x = w
      · simp [hxw, hempty]
      · simp [hxw]
    · rw [hready]
      exact h.readyNodup
    · rw [hwaiting]
      exact h.waitingNodup
    · rw [hentries]
      by_cases hxw : x = w
      · simp only [hxw, if_pos, hempty, if_false]
        exact ⟨fun _ hnil => hempty (by rw [hnil]; rfl), fun _ => hwait⟩
      · simpa [hxw] using h.blocked x (hmade ▸ hx)
    · rw [hready, hwaiting]

theorem Unblocked.step {todo : List Nat} (h : Unblocked e q q' (w :: todo)) (hw : w < q.made) :
    Unblocked e q (unblock e q' w) todo := by
  have hleft := h.left w hw
  rw [List.count_cons_self] at hleft
  have hmem : e ∈ (q'.entries w).isBlockedBy := List.count_pos_iff.mp (by omega)
  have hw' : w < q'.made := h.same.made ▸ hw
  have hwait : (q'.entries w).state = .waiting :=
    (h.lists.blocked w hw').mpr (List.ne_nil_of_mem hmem)
  obtain ⟨hlists, hperm⟩ := unblock_lists (e := e) h.lists hw' hwait
  have hcount : ∀ b, (removeFromSlice (q'.entries w).isBlockedBy e).count b =
      ((q'.entries w).isBlockedBy.erase e).count b := fun b =>
    (removeFromSlice_perm _ e).count_eq b
  refine ⟨hlists, h.same.trans (unblock_same e q' w), fun x b hb => ?_, fun x hx => ?_, fun x => ?_,
    hperm.trans h.perm⟩
  · rw [← h.others x b hb, unblock_entries]
    split
    next hxw =>
      subst hxw
      show (removeFromSlice _ e).count b = _
      rw [hcount, List.count_erase_of_ne hb]
    next => rfl
  · rw [unblock_entries]
    split
    next hxw =>
      subst hxw
      show (removeFromSlice _ e).count e = _
      rw [hcount, List.count_erase_self]
      omega
    next hxw =>
      rw [h.left x hx, List.count_cons_of_ne (Ne.symm hxw)]
  · rw [unblock_entries]
    split
    next hxw =>
      subst hxw
      dsimp only
      split
      next =>
        refine .inr ⟨?_, rfl⟩
        obtain hsame | ⟨hold, -⟩ := h.state x
        · exact hsame.symm.trans hwait
        · exact hold
      next => exact h.state x
    next => exact h.state x

theorem Unblocked.all {todo : List Nat} (h : Unblocked e q q' todo) (hmade : ∀ w ∈ todo, w < q.made) :
    Unblocked e q (todo.foldl (unblock e) q') [] := by
  induction todo generalizing q' with
  | nil => exact h
  | cons w todo ih =>
      exact ih (h.step (hmade w (List.mem_cons_self ..)))
        fun w hw => hmade w (List.mem_cons_of_mem _ hw)

/-- All entries that `e` blocks are unblocked. -/
theorem unblockAll_spec (h : Lists q) (hmade : ∀ w ∈ (q.entries e).blocks, w < q.made)
    (hlinks : ∀ w, w < q.made →
      (q.entries w).isBlockedBy.count e = (q.entries e).blocks.count w) :
    Unblocked e q ((q.entries e).blocks.foldl (unblock e) q) [] :=
  Unblocked.all ⟨h, .refl q, fun _ _ _ => rfl, hlinks, fun _ => .inl rfl, .refl _⟩ hmade

/-! ## The links of a new entry -/

/-- Links add blockers and blocked entries, and nothing else. -/
theorem links_spec (q : TxQueueV2) (pairs : List (Nat × Nat)) :
    let q' := pairs.foldl (fun q p => q.link p.1 p.2) q
    q'.made = q.made ∧ q'.hashMap = q.hashMap ∧ q'.pendingMap = q.pendingMap ∧
      q'.participantMap = q.participantMap ∧ q'.readyList = q.readyList ∧
      q'.waitingList = q.waitingList ∧
      ∀ x, q'.entries x = { q.entries x with
        isBlockedBy := (q.entries x).isBlockedBy ++ (pairs.filter (·.1 = x)).map (·.2)
        blocks := (q.entries x).blocks ++ (pairs.filter (·.2 = x)).map (·.1) } := by
  induction pairs generalizing q with
  | nil => simp
  | cons p pairs ih =>
      obtain ⟨hmade, hhash, hpending, hpart, hready, hwaiting, hentries⟩ := ih (q.link p.1 p.2)
      refine ⟨hmade, hhash, hpending, hpart, hready, hwaiting, fun x => ?_⟩
      have hlink : (q.link p.1 p.2).entries x = { q.entries x with
          isBlockedBy := (q.entries x).isBlockedBy ++ if p.1 = x then [p.2] else []
          blocks := (q.entries x).blocks ++ if p.2 = x then [p.1] else [] } := by
        simp only [link, update, Function.update_apply]
        by_cases h₁ : x = p.1 <;> by_cases h₂ : x = p.2
        · simp [← h₁, ← h₂]
        · simp [← h₁, h₂, Ne.symm h₂]
        · simp [h₁, Ne.symm h₁, ← h₂]
        · simp [h₁, h₂, Ne.symm h₁, Ne.symm h₂]
      rw [List.foldl_cons, hentries, hlink]
      by_cases h₁ : p.1 = x <;> by_cases h₂ : p.2 = x <;> simp [h₁, h₂]

theorem count_second (pairs : List (Nat × Nat)) (x b : Nat) :
    ((pairs.filter (·.1 = x)).map (·.2)).count b = pairs.count (x, b) := by
  induction pairs with
  | nil => rfl
  | cons p pairs ih =>
      rw [List.filter_cons, List.count_cons, ← ih]
      by_cases h₁ : p.1 = x
      · by_cases h₂ : p.2 = b
        · simp [h₁, h₂, Prod.ext_iff]
        · simp [h₁, h₂, Prod.ext_iff]
      · simp [h₁, Prod.ext_iff]

theorem count_first (pairs : List (Nat × Nat)) (x b : Nat) :
    ((pairs.filter (·.2 = b)).map (·.1)).count x = pairs.count (x, b) := by
  induction pairs with
  | nil => rfl
  | cons p pairs ih =>
      rw [List.filter_cons, List.count_cons, ← ih]
      by_cases h₁ : p.2 = b
      · by_cases h₂ : p.1 = x
        · simp [h₁, h₂, Prod.ext_iff]
        · simp [h₁, h₂, Prod.ext_iff]
      · simp [h₁, Prod.ext_iff]

end TxQueueV2

end Gateway
