import FabricXEvm.Storage.Rewind

/-!
# What RevertibleLightKVS can go back to

A caller notes the number of the tip, and wants its values back later.  `Recalls` says what
the store then has for the number: it is still the tip, or the last snapshot with it is in
the history, or it fell out of the window and no older one stands in for it.

Blocks above the number keep this (`Recalls.slide`).  So do reverts to numbers that are
noted and not below it (`Recalls.revert`), which bring back the values of their own number.
`Reaches` says from the numbers in the store when a revert goes through.
-/

namespace Storage

open Blocks

namespace RevertibleLightKVS

/-- What is left of the data `data` of the tip, which had the number `n`. -/
inductive Recalls (kvs : RevertibleLightKVS) (hs : List Snapshot) (n : Nat) (data : Data) :
    Prop where
  | tip (hn : kvs.current.blockNumber = n) (hdata : shown kvs.current.data = shown data)
  | past {front s rest} (hn : n < kvs.current.blockNumber) (hsplit : hs = front ++ s :: rest)
      (hnumber : s.blockNumber = n) (hrest : ∀ r ∈ rest, n < r.blockNumber)
      (hdata : shown s.data = shown data)
  | forgotten (hn : n < kvs.current.blockNumber) (hall : ∀ s ∈ hs, n < s.blockNumber)

variable {kvs kvs' : RevertibleLightKVS} {historySize m n : Nat} {hs hs' front rest : List Snapshot}
  {s : Snapshot} {data data' : Data}

/-- A window that slides over a list holds an element with all that come after it, or only
such ones. -/
theorem suffix_split (h : hs' <:+ front ++ s :: rest) :
    (∃ front', hs' = front' ++ s :: rest) ∨ hs' <:+ rest := by
  rcases List.suffix_or_suffix_of_suffix h (List.suffix_append front (s :: rest)) with h | ⟨front', h⟩
  · rcases List.suffix_cons_iff.mp h with rfl | h
    · exact .inl ⟨[], rfl⟩
    · exact .inr h
  · exact .inl ⟨front', h.symm⟩

/-- The tip and the last snapshot with the number move on in the window. -/
theorem Recalls.slide (h : Recalls kvs hs n data) (hsuffix : hs' <:+ hs ++ [kvs.current])
    (hn : n < kvs'.current.blockNumber) : Recalls kvs' hs' n data := by
  cases h with
  | tip htip hdata =>
      rcases suffix_split hsuffix with ⟨front, hsplit⟩ | hnil
      · exact .past hn hsplit htip nofun hdata
      · refine .forgotten hn fun s hs => ?_
        rw [List.suffix_nil.mp hnil] at hs
        exact nomatch hs
  | @past front s rest hlt hsplit hnumber hrest hdata =>
      have hall : ∀ r ∈ rest ++ [kvs.current], n < r.blockNumber := by
        simpa only [List.forall_mem_append, List.forall_mem_singleton] using ⟨hrest, hlt⟩
      rw [hsplit, List.append_assoc, List.cons_append] at hsuffix
      rcases suffix_split hsuffix with ⟨front, hsplit⟩ | hsuffix
      · exact .past hn hsplit hnumber hall hdata
      · exact .forgotten hn fun r hr => hall r (hsuffix.subset hr)
  | forgotten hlt hall =>
      refine .forgotten hn fun s hs => ?_
      rcases List.mem_append.mp (hsuffix.subset hs) with hmem | hmem
      · exact hall s hmem
      · rwa [List.mem_singleton.mp hmem]

/-- A scan for a number finds the last snapshot with it. -/
theorem scan_exact (front : List Snapshot) (hnumber : s.blockNumber = n) (hrest : ∀ r ∈ rest, n < r.blockNumber) :
    (scan (front ++ s :: rest) n).exact = some (s, front.length) := by
  have hsplit : front ++ s :: rest = (front ++ [s]) ++ rest := by simp
  rw [hsplit, scan_later hrest, scan_concat, Scan.visit]
  simp only [hnumber, if_true]

/-- A revert to the number goes back to it. -/
theorem Target.split_eq {front' rest' : List Snapshot} {s' : Snapshot}
    (h : Target (front ++ s :: rest) n s front.length)
    (hsplit : front ++ s :: rest = front' ++ s' :: rest') (hnumber : s'.blockNumber = n)
    (hrest : ∀ r ∈ rest', n < r.blockNumber) : front = front' ∧ s = s' ∧ rest = rest' := by
  have hexact := scan_exact front' hnumber hrest
  rw [← hsplit] at hexact
  cases h with
  | older hnone => exact nomatch hnone.symm.trans hexact
  | exact h =>
      obtain ⟨-, hlength⟩ := Prod.mk.inj (Option.some.inj (h.symm.trans hexact))
      obtain ⟨rfl, htail⟩ := List.append_inj hsplit hlength
      obtain ⟨rfl, rfl⟩ := List.cons.inj htail
      exact ⟨rfl, rfl, rfl⟩

/-- A split at a lower number lies in the first part of a split. -/
theorem split_below {front' rest' : List Snapshot} {s' : Snapshot}
    (hsplit : front ++ s :: rest = front' ++ s' :: rest') (hlt : s'.blockNumber < s.blockNumber)
    (hrest : ∀ r ∈ rest, s.blockNumber < r.blockNumber) :
    ∃ between, front = front' ++ s' :: between ∧ rest' = between ++ s :: rest := by
  rcases List.append_eq_append_iff.mp hsplit with ⟨between, rfl, htail⟩ | ⟨between, rfl, htail⟩
  · -- the lower number would come after
    cases between with
    | nil =>
        obtain ⟨rfl, -⟩ := List.cons.inj htail
        exact absurd hlt (lt_irrefl _)
    | cons r between =>
        obtain ⟨-, rfl⟩ := List.cons.inj htail
        exact absurd (hrest s' (by simp)) hlt.le.not_gt
  · cases between with
    | nil =>
        obtain ⟨rfl, -⟩ := List.cons.inj htail
        exact absurd hlt (lt_irrefl _)
    | cons r between =>
        obtain ⟨rfl, rfl⟩ := List.cons.inj htail
        exact ⟨between, rfl, rfl⟩

/-- After a revert to a noted number the values of the tip are those noted, and the numbers
noted up to it are still recalled. -/
theorem Recalls.revert (h : kvs.Holds historySize hs) (hn : Recalls kvs hs n data)
    (hok : kvs.revertToBlock n = .ok kvs') :
    ∃ hs', kvs'.Holds historySize hs' ∧ shown kvs'.current.data = shown data ∧
      ∀ m data', m ≤ n → Recalls kvs hs m data' → Recalls kvs' hs' m data' := by
  rcases h.revert hok with
    ⟨htip, rfl⟩ | ⟨front, s, rest, rfl, hne, htarget, hle, hcurrent, hhistory, hnext⟩
  · refine ⟨hs, h, ?_, fun _ _ _ hm => hm⟩
    cases hn with
    | tip _ hdata => exact hdata
    | past hlt => exact absurd htip hlt.ne'
    | forgotten hlt => exact absurd htip hlt.ne'
  · have htip : kvs'.current.blockNumber = n := by rw [hcurrent]
    have hshown : shown kvs'.current.data = shown s.data := by
      rw [hcurrent]
      exact funext fun key => shown_mergedData fun hkey => h.keys s (by simp) key hkey
    refine ⟨front, h.cut hle hcurrent hhistory hnext, ?_⟩
    cases hn with
    | tip htip => exact absurd htip hne
    | forgotten _ hall => exact absurd (hall s (by simp)) hle.not_gt
    | past hlt hsplit hnumber hrest hdata =>
        obtain ⟨rfl, rfl, rfl⟩ := htarget.split_eq hsplit hnumber hrest
        refine ⟨hshown.trans hdata, fun m data' hm hrecalls => ?_⟩
        cases hrecalls with
        | tip htip => exact absurd hlt (htip ▸ hm).not_gt
        | forgotten _ hall =>
            have hbelow := hall s (by simp)
            rw [hnumber] at hbelow
            exact .forgotten (htip ▸ hbelow) fun r hr => hall r (List.mem_append_left _ hr)
        | past _ hsplit' hnumber' hrest' hdata' =>
            rcases hm.lt_or_eq with hbelow | rfl
            · obtain ⟨between, hfront, rfl⟩ :=
                split_below hsplit' (by omega) (hnumber ▸ hrest)
              refine .past (htip ▸ hbelow) hfront hnumber' (fun r hr => hrest' r ?_) hdata'
              exact List.mem_append_left _ hr
            · obtain ⟨-, rfl, -⟩ := htarget.split_eq hsplit' hnumber' hrest'
              exact .tip htip (hshown.trans hdata')

/-- The number is that of the tip or of a snapshot in the history, or an older snapshot can
stand in for it. -/
def Reaches (kvs : RevertibleLightKVS) (n : Nat) : Prop :=
  n = kvs.blockNumber ∨ ∃ s, some s ∈ kvs.history ∧
    (s.blockNumber = n ∨ s.blockNumber < n ∧ n < kvs.blockNumber)

theorem Holds.mem_history (h : kvs.Holds historySize hs) : some s ∈ kvs.history ↔ s ∈ hs := by
  rw [h.slots]
  simp [List.mem_replicate]

/-- A revert goes through exactly to the numbers that are reached. -/
theorem Holds.revert_ok_iff (h : kvs.Holds historySize hs) (n : Nat) :
    (∃ kvs', kvs.revertToBlock n = .ok kvs') ↔ kvs.Reaches n := by
  unfold Reaches blockNumber
  by_cases htip : kvs.current.blockNumber = n
  · exact iff_of_true ⟨kvs, if_pos htip⟩ (.inl htip.symm)
  · have hok : (∃ kvs', kvs.revertToBlock n = .ok kvs') ↔
        (Scan.target (scan hs n) (n < kvs.current.blockNumber)).isSome := by
      rw [← Option.isSome_map, ← h.nextIndex_revert htip, Option.isSome_map]
      cases kvs.revertToBlock n with
      | error e => simp [Except.toOption]
      | ok kvs' => simp [Except.toOption]
    rw [hok, isSome_target]
    simp only [h.mem_history, Ne.symm htip, false_or, decide_eq_true_eq]

/-- A revert changes nothing only at the tip. -/
theorem revert_self_iff (hok : kvs.revertToBlock n = .ok kvs') :
    kvs' = kvs ↔ n = kvs.blockNumber := by
  have htip : kvs'.blockNumber = n := by
    unfold revertToBlock at hok
    split at hok
    next heq =>
      cases hok
      exact heq
    next =>
      dsimp only at hok
      split at hok
      · cases hok
      · cases hok
        rfl
  constructor
  · rintro rfl
    exact htip.symm
  · intro heq
    exact (Except.ok.inj ((if_pos heq.symm).symm.trans hok)).symm

end RevertibleLightKVS

end Storage
