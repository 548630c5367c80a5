import FabricXEvm.Lib.FinMap
import FabricXEvm.Storage.WorldLedger

/-!
# Priming the ledger

`StatePrimer` writes accounts into the ledger for tests: its setters work on a `StateDB`, and
`Commit` submits the read-write set as a transaction.  There is no operation that sets a
balance, so `SetBalance` adds or subtracts what is missing.

`LoadFromJSON` sets one account after the other while it ranges over a map, and so does
`SetStorage` with the slots, in an order that Go leaves open.  With `primed` as what an
allocation means, the ledger holds it after the commit, whichever order it was (`load_primes`).
Two keys of the file that name one account, in different cases say, would bring the order back.
The machine of worlds carries the proof: nothing here looks at a journal.
-/

namespace Gateway

open Blocks Execution

/-- An entry of an allocation, parsed. -/
structure AllocEntry where
  nonce : Option UInt64
  code : Bytes
  balance : Option Int
  storage : FinMap Hash Hash

/-- `uint256.MustFromBig` takes the balance. -/
def AllocEntry.Fits (e : AllocEntry) : Prop := ∀ b ∈ e.balance, b < 2 ^ 256

namespace StatePrimer

/-! ## The setters -/

/-- `SetBalance`, of a balance that fits. -/
def setBalance (addr : Address) : Option Int → Caller Unit
  | none => .done ()
  | some balance =>
      if balance < 0 then .done ()
      else
        let target := BitVec.ofInt 256 balance
        .call (.getBalance addr) fun
          | .word current =>
              if current < target then
                .call (.addBalance addr (target - current)) fun _ => .done ()
              else if target < current then
                .call (.subBalance addr (current - target)) fun _ => .done ()
              else .done ()
          | _ => .done ()

/-- `SetStorage`, with the slots in the order of the loop. -/
def setStorage (addr : Address) : List (Σ _ : Hash, Hash) → Caller Unit
  | [] => .done ()
  | ⟨slot, value⟩ :: slots => .call (.setState addr slot value) fun _ => setStorage addr slots

/-- `SetAccount`. -/
def setAccount (addr : Address) (e : AllocEntry) : Caller Unit :=
  .call (.createAccount addr) fun _ =>
    Caller.bind
      (match e.nonce with
        | some nonce => .call (.setNonce addr nonce) fun _ => .done ()
        | none => .done ())
      fun _ =>
        .call (.setCode addr e.code) fun _ =>
          (setBalance addr e.balance).bind fun _ => setStorage addr e.storage.entries

/-- The loop of `LoadFromJSON`, over what it parses.  The keys of the file are texts: here each
of them names another account, and each key of a `storage` another slot. -/
def load : List (Σ _ : Address, AllocEntry) → Caller Unit
  | [] => .done ()
  | ⟨addr, e⟩ :: rest => (setAccount addr e).bind fun _ => load rest

/-! ## What an allocation means -/

/-- The balance an entry stands for, absent when it is zero. -/
def target (e : AllocEntry) : Option (BitVec 256) :=
  match e.balance with
  | some balance => if 0 < balance then some (BitVec.ofInt 256 balance) else none
  | none => none

/-- The accounts of the allocation are as it says, except that they keep the slots it does not
name.  All other accounts are as before. -/
def primed (alloc : Address → Option AllocEntry) (before : Accounts) : Accounts where
  balance addr := ((alloc addr).map target).getD (before.balance addr)
  nonce addr := ((alloc addr).map fun e => some (e.nonce.getD 0)).getD (before.nonce addr)
  code addr :=
    ((alloc addr).map fun e => if e.code = [] then none else some e.code).getD (before.code addr)
  storage addr slot :=
    (((alloc addr).bind fun e => e.storage.lookup slot)).getD (before.storage addr slot)

/-! ## On the machine -/

section Machine

variable {keccak : Bytes → Hash} {base : Accounts} {m : Machine} {w : World} {addr : Address}

theorem onWorld_bind {α β : Type} {c : Caller α} {f : α → Caller β} {a : α} {m m' : Machine}
    (h : c.onWorld keccak base m = some (a, m')) :
    (c.bind f).onWorld keccak base m = (f a).onWorld keccak base m' := by
  induction c generalizing m with
  | done b =>
      cases h
      rfl
  | call op next ih =>
      simp only [Caller.bind, Caller.onWorld] at h ⊢
      split at h
      next => cases h
      next r m₁ _ => exact ih r h

/-- The world with a balance, which is not written when it is there. -/
def balanced (addr : Address) (balance : Option Int) (w : World) : World :=
  match balance with
  | none => w
  | some balance =>
      if balance < 0 ∨ w.balanceOf addr = BitVec.ofInt 256 balance then w
      else w.setBalance addr (BitVec.ofInt 256 balance)

theorem onWorld_setBalance (balance : Option Int) :
    (setBalance addr balance).onWorld keccak base m =
      some ((), { m with world := balanced addr balance m.world }) := by
  cases balance with
  | none => rfl
  | some balance =>
      by_cases hneg : balance < 0
      · simp [setBalance, balanced, hneg, Caller.onWorld]
      · simp only [setBalance, balanced, hneg, if_false, false_or, Caller.onWorld, Machine.exec,
          World.exec, Option.map_some]
        generalize BitVec.ofInt 256 balance = target
        generalize hcurrent : m.world.balanceOf addr = current
        by_cases hraise : current < target
        · have hne : target - current ≠ 0#256 := by bv_omega
          have hsum : current + (target - current) = target := by bv_omega
          have hdiff : current ≠ target := by bv_omega
          simp [hraise, hdiff, hne, hsum, hcurrent, Caller.onWorld, Machine.exec, World.exec]
        by_cases hlower : target < current
        · have hne : current - target ≠ 0#256 := by bv_omega
          have hsub : current - (current - target) = target := by bv_omega
          have hdiff : current ≠ target := by bv_omega
          simp [hraise, hlower, hdiff, hne, hsub, hcurrent, Caller.onWorld, Machine.exec,
            World.exec]
        · obtain rfl : current = target := by bv_omega
          simp [Caller.onWorld]

/-- The world with some slots. -/
def slotted (addr : Address) (slots : List (Σ _ : Hash, Hash)) (w : World) : World :=
  slots.foldl (fun w p => w.setStorage addr p.1 p.2) w

theorem onWorld_setStorage (slots : List (Σ _ : Hash, Hash)) :
    (setStorage addr slots).onWorld keccak base m =
      some ((), { m with world := slotted addr slots m.world }) := by
  induction slots generalizing m with
  | nil => rfl
  | cons p slots ih => exact ih

/-- The world with a new account that has a nonce and code. -/
def created (addr : Address) (e : AllocEntry) (w : World) : World :=
  let fresh := ((w.setBalance addr 0).setNonce addr 0).create addr
  let numbered := match e.nonce with
    | some nonce => fresh.setNonce addr nonce
    | none => fresh
  numbered.setCode addr e.code

/-- The world with an account. -/
def withAccount (addr : Address) (e : AllocEntry) (w : World) : World :=
  slotted addr e.storage.entries (balanced addr e.balance (created addr e w))

theorem onWorld_setAccount (e : AllocEntry) :
    (setAccount addr e).onWorld keccak base m =
      some ((), { m with world := withAccount addr e m.world }) := by
  obtain ⟨nonce, code, balance, storage⟩ := e
  have hlast : ∀ m : Machine, (Caller.call (.setCode addr code) fun _ =>
      (setBalance addr balance).bind fun _ => setStorage addr storage.entries).onWorld keccak base
        m = some ((), { m with
          world := slotted addr storage.entries
            (balanced addr balance (m.world.setCode addr code)) }) := by
    intro m
    exact (onWorld_bind (onWorld_setBalance balance)).trans (onWorld_setStorage _)
  cases nonce with
  | none => exact hlast _
  | some nonce => exact hlast _

theorem toAccounts_slotted (slots : List (Σ _ : Hash, Hash)) (h : slots.NodupKeys) :
    (slotted addr slots w).toAccounts =
      { w.toAccounts with
        storage := Function.update w.storage addr fun slot =>
          (slots.dlookup slot).getD (w.storage addr slot) } := by
  induction slots generalizing w with
  | nil => simp [slotted]
  | cons p slots ih =>
      obtain ⟨slot, value⟩ := p
      obtain ⟨hnew, hrest⟩ := List.nodupKeys_cons.mp h
      refine (ih hrest).trans ?_
      ext a k
      · rfl
      · rfl
      · rfl
      · by_cases ha : a = addr
        · subst ha
          by_cases hk : k = slot
          · subst hk
            simp [World.setStorage, List.dlookup_eq_none.mpr hnew]
          · simp [World.setStorage, hk, List.dlookup_cons_ne slots (⟨slot, value⟩ : Σ _, Hash) hk]
        · simp [World.setStorage, ha]

theorem ofInt_eq_zero {b : Int} (hfit : b < 2 ^ 256) (hneg : ¬ b < 0) :
    BitVec.ofInt 256 b = 0#256 ↔ ¬ 0 < b := by
  rw [← BitVec.toNat_inj, BitVec.toNat_ofInt, BitVec.toNat_ofNat]
  omega

/-- A new account has no balance, so that of the entry is all of it. -/
theorem toAccounts_balanced {e : AllocEntry} (hfits : e.Fits) (hnone : w.balance addr = none) :
    (balanced addr e.balance w).toAccounts =
      { w.toAccounts with balance := Function.update w.balance addr (target e) } := by
  have hsame : Function.update w.balance addr none = w.balance := by
    rw [← hnone, Function.update_eq_self]
  unfold balanced target
  cases hbalance : e.balance with
  | none => simp [hsame]
  | some b =>
      have hzero := ofInt_eq_zero (hfits b hbalance)
      by_cases hneg : b < 0
      · simp [hneg, not_lt.mpr hneg.le, hsame]
      · by_cases hpos : 0 < b
        · have hne : BitVec.ofInt 256 b ≠ 0#256 := fun h => (hzero hneg).mp h hpos
          simp [World.balanceOf, World.setBalance, hnone, hneg, hpos, hne, hne.symm]
        · simp [World.balanceOf, hnone, hneg, hpos, (hzero hneg).mpr hpos, hsame]

theorem toAccounts_created {e : AllocEntry} :
    (created addr e w).toAccounts =
      { balance := Function.update w.balance addr none
        nonce := Function.update w.nonce addr (some (e.nonce.getD 0))
        code := Function.update w.code addr (if e.code = [] then none else some e.code)
        storage := w.storage } := by
  unfold created
  cases e.nonce <;> simp [World.setBalance, World.setNonce, World.setCode, World.create]

/-- One account, and no other. -/
def single (addr : Address) (e : AllocEntry) : Address → Option AllocEntry :=
  fun a => if a = addr then some e else none

theorem toAccounts_withAccount {e : AllocEntry} (hfits : e.Fits) :
    (withAccount addr e w).toAccounts = primed (single addr e) w.toAccounts := by
  have hnone : (created addr e w).balance addr = none := by
    simp [toAccounts_created]
  rw [withAccount, toAccounts_slotted _ e.storage.nodupKeys, toAccounts_balanced hfits hnone,
    toAccounts_created]
  unfold primed single
  ext a k <;> by_cases ha : a = addr
  all_goals
    first
    | subst ha
      simp [AList.lookup]
    | simp [ha]

/-- An account that is set after another one. -/
theorem primed_primed {e : AllocEntry} {alloc : Address → Option AllocEntry} {before : Accounts}
    (hnew : alloc addr = none) :
    primed alloc (primed (single addr e) before) =
      primed (fun a => if a = addr then some e else alloc a) before := by
  unfold primed single
  ext a k <;> by_cases ha : a = addr
  all_goals
    first
    | subst ha
      simp [hnew]
    | simp [ha]

theorem onWorld_load (entries : List (Σ _ : Address, AllocEntry)) (hkeys : entries.NodupKeys)
    (hfits : ∀ p ∈ entries, p.2.Fits) :
    ∃ w, (load entries).onWorld keccak base m = some ((), { m with world := w }) ∧
      w.toAccounts = primed (fun addr => entries.dlookup addr) m.world.toAccounts := by
  induction entries generalizing m with
  | nil => exact ⟨m.world, rfl, rfl⟩
  | cons p rest ih =>
      obtain ⟨addr, e⟩ := p
      obtain ⟨hnew, hrest⟩ := List.nodupKeys_cons.mp hkeys
      have hset : (setAccount addr e).onWorld keccak base m = _ := onWorld_setAccount e
      obtain ⟨w, hw, haccounts⟩ := ih (m := { m with world := withAccount addr e m.world }) hrest
        fun p hp => hfits p (List.mem_cons_of_mem _ hp)
      refine ⟨w, (onWorld_bind hset).trans hw, haccounts.trans ?_⟩
      rw [toAccounts_withAccount (hfits _ List.mem_cons_self),
        primed_primed (List.dlookup_eq_none.mpr hnew)]
      refine congrArg (primed · _) (funext fun a => ?_)
      split
      next ha =>
        subst ha
        exact (List.dlookup_cons_eq rest a e).symm
      next ha => exact (List.dlookup_cons_ne rest (⟨addr, e⟩ : Σ _, AllocEntry) ha).symm

end Machine

/-! ## On the ledger -/

/-- Whatever the ledger held, and in whatever order the loop sets the accounts, the setters run
without a fault, and once their writes are committed the ledger holds what the allocation
says. -/
theorem load_primes {cfg : Storage.Config} {data : Storage.Data} {accounts : Accounts}
    (hholds : Holds (cfg.backing data) accounts) {alloc order : FinMap Address AllocEntry}
    (horder : order.entries.Perm alloc.entries) (hfits : ∀ p ∈ alloc.entries, p.2.Fits) :
    ∃ steps t, (load order.entries).run (cfg.backing data) .new = .ok ((), steps, t) ∧
      ∀ stamp txID, Holds (cfg.backing (Storage.applyWrites cfg data stamp txID t.result))
        (primed alloc.lookup accounts) := by
  obtain ⟨w, hworld, haccounts⟩ : ∃ w : World, (load order.entries).onWorld cfg.keccak accounts
      (.start accounts) = some ((), { Machine.start accounts with world := w }) ∧
      w.toAccounts = primed (fun addr => order.entries.dlookup addr) accounts :=
    onWorld_load order.entries order.nodupKeys fun p hp => hfits p (horder.mem_iff.mp hp)
  have hlookup : (fun addr => order.entries.dlookup addr) = alloc.lookup :=
    funext fun addr => AList.perm_lookup horder
  obtain ⟨steps, t, hrun, hrefines⟩ :=
    Caller.run_refines_from hholds hholds.refines_new hworld
  have hentries := (Caller.run_trace hrun).entriesOk (Storage.entriesOk_new _)
  refine ⟨steps, t, hrun, fun stamp txID => ?_⟩
  rw [← hlookup, ← haccounts]
  exact Storage.holds_applyWrites hholds hentries hrefines.shows

def richEntry : AllocEntry where
  nonce := some 7
  code := []
  balance := some 5
  storage := ∅

def codeEntry : AllocEntry where
  nonce := none
  code := [0x60]
  balance := none
  storage := AList.insert 3 4 ∅

/-- An account with a balance, and a contract. -/
def twoAccounts : FinMap Address AllocEntry := AList.insert 1 richEntry (AList.insert 2 codeEntry ∅)

/-- The same map, in the other order. -/
def otherOrder : FinMap Address AllocEntry := AList.insert 2 codeEntry (AList.insert 1 richEntry ∅)

theorem load_primes_twoAccounts :
    ∃ steps t, (load otherOrder.entries).run (Storage.pingConfig.backing fun _ => none) .new =
        .ok ((), steps, t) ∧
      (∀ stamp txID, Holds
        (Storage.pingConfig.backing
          (Storage.applyWrites Storage.pingConfig (fun _ => none) stamp txID t.result))
        (primed twoAccounts.lookup noAccounts)) ∧
      (primed twoAccounts.lookup noAccounts).balance 1 = some 5 ∧
      (primed twoAccounts.lookup noAccounts).storage 2 3 = 4 := by
  have hempty : Holds (Storage.pingConfig.backing fun _ => none) noAccounts :=
    holds_noAccounts fun _ => rfl
  have hentries : twoAccounts.entries = [⟨1, richEntry⟩, ⟨2, codeEntry⟩] := rfl
  have hother : otherOrder.entries = [⟨2, codeEntry⟩, ⟨1, richEntry⟩] := rfl
  have horder : otherOrder.entries.Perm twoAccounts.entries := by
    rw [hentries, hother]
    exact List.Perm.swap _ _ _
  have hfits : ∀ p ∈ twoAccounts.entries, p.2.Fits := by
    intro p hp
    rw [hentries] at hp
    simp only [List.mem_cons, List.not_mem_nil, or_false] at hp
    rcases hp with rfl | rfl <;> simp [AllocEntry.Fits, richEntry, codeEntry]
  obtain ⟨steps, t, hrun, hholds⟩ := load_primes hempty horder hfits
  exact ⟨steps, t, hrun, hholds, rfl, rfl⟩

end StatePrimer

end Gateway
