import FabricXEvm.Gateway.NonceGate

/-!
# The entries of the nonce gate

The gate is read through `NonceGate.entry`, the state that is cached for a sender.  Every
critical section but the reaper's works on one sender: `Sets g g' A e` says that it leaves
`e` as the entry of `A` and every other entry alone, and that the pointers to entries that
stay are still good.  Sections compose by `Sets.trans`.  The reaper works on all entries;
`Prunes g g'` says what it may do.
-/

open Blocks Common

namespace Gateway

namespace NonceGate

/-! ## Entries -/

/-- The state cached for a sender. -/
def entry (g : NonceGate) (A : Bytes) : Option SenderState := (g.entries.lookup A).map g.states

/-- The next nonce cached for a sender. -/
def expected (g : NonceGate) (A : Bytes) : Option Nat := (g.entry A).bind SenderState.next

/-- Cached pointers are to states that were made, each under its own sender. -/
structure Wf (g : NonceGate) : Prop where
  made : ∀ {A ref}, g.entries.lookup A = some ref → ref < g.made
  sender : ∀ {A ref}, g.entries.lookup A = some ref → (g.states ref).sender = A

/-- The entry of `A` is now `e`, and nothing else changed. -/
structure Sets (g g' : NonceGate) (A : Bytes) (e : Option SenderState) : Prop where
  wf : g'.Wf
  self : g'.entry A = e
  others : ∀ B, B ≠ A → g'.entry B = g.entry B
  points : ∀ {B ref}, g.entries.lookup B = some ref → (B = A → e.isSome) →
    g'.entries.lookup B = some ref

variable {g g' g'' : NonceGate} {A B : Bytes} {ref : Nat} {ss : SenderState}

theorem Wf.ref_ne (h : g.Wf) (hA : g.entries.lookup A = some ref) {ref' : Nat}
    (hB : g.entries.lookup B = some ref') (hne : B ≠ A) : ref' ≠ ref := by
  intro hrr
  subst hrr
  exact hne ((h.sender hB).symm.trans (h.sender hA))

theorem entry_of_points (hA : g.entries.lookup A = some ref) :
    g.entry A = some (g.states ref) := by
  rw [entry, hA]
  rfl

theorem Sets.trans {e e' : Option SenderState} (h : Sets g g' A e) (hs : e.isSome)
    (h' : Sets g' g'' A e') : Sets g g'' A e' where
  wf := h'.wf
  self := h'.self
  others := fun B hB => (h'.others B hB).trans (h.others B hB)
  points := fun hB he => h'.points (h.points hB fun _ => hs) he

theorem Sets.entry_eq {e : Option SenderState} (h : Sets g g' A e) (B : Bytes) :
    g'.entry B = if B = A then e else g.entry B := by
  split
  next hBA =>
    subst hBA
    exact h.self
  next hBA => exact h.others B hBA

/-! ### One pointer -/

theorem update_sets (hg : g.Wf) (hA : g.entries.lookup A = some ref)
    {f : SenderState → SenderState} (hf : (f (g.states ref)).sender = (g.states ref).sender) :
    Sets g (g.update ref f) A (some (f (g.states ref))) where
  wf :=
    { made := fun h => hg.made h
      sender := fun {B ref'} h => by
        show (Function.update g.states ref (f (g.states ref)) ref').sender = B
        rw [Function.update_apply]
        split
        next hr =>
          subst hr
          exact hf.trans (hg.sender h)
        next => exact hg.sender h }
  self := by
    rw [entry_of_points (g := g.update ref f) hA]
    simp [update]
  others := fun B hB => by
    show (g.entries.lookup B).map (Function.update g.states ref _) = (g.entries.lookup B).map g.states
    cases hl : g.entries.lookup B with
    | none => rfl
    | some ref' =>
        simp [Function.update_of_ne (hg.ref_ne hA hl hB)]
  points := fun h _ => h

/-- The index by hash is no part of an entry. -/
theorem Sets.withHash {e : Option SenderState} (h : Sets g g' A e) (byHash : FinMap Bytes EthTx) :
    Sets g { g' with byHash } A e where
  wf := ⟨fun h' => h.wf.made h', fun h' => h.wf.sender h'⟩
  self := h.self
  others := h.others
  points := h.points

/-- What is known of a sender: its entry, or a new one. -/
def known (g : NonceGate) (A : Bytes) : SenderState := (g.entry A).getD { sender := A }

theorem known_of_entry (h : g.entry A = some ss) : g.known A = ss := by
  rw [known, h]
  rfl

theorem known_of_points (hA : g.entries.lookup A = some ref) : g.known A = g.states ref :=
  known_of_entry (entry_of_points hA)

theorem known_next (g : NonceGate) (A : Bytes) : (g.known A).next = g.expected A := by
  unfold known expected
  cases g.entry A <;> rfl

/-- The entry that `acquire` pins. -/
def pinned (g : NonceGate) (A : Bytes) : SenderState :=
  { g.known A with refs := (g.known A).refs + 1 }

theorem acquire_sets (hg : g.Wf) (A : Bytes) :
    Sets g (g.acquire A).1 A (some (g.pinned A)) ∧
      (g.acquire A).1.entries.lookup A = some (g.acquire A).2 := by
  cases hA : g.entries.lookup A with
  | some ref =>
      have hacq : g.acquire A = (g.update ref fun ss => { ss with refs := ss.refs + 1 }, ref) := by
        simp only [acquire, hA]
      rw [hacq, pinned, known_of_points hA]
      exact ⟨update_sets (f := fun ss => { ss with refs := ss.refs + 1 }) hg hA rfl, hA⟩
  | none =>
      have hacq : g.acquire A = ({ g with
          states := Function.update g.states g.made { sender := A, refs := 1 }
          made := g.made + 1
          entries := g.entries.insert A g.made }, g.made) := by
        simp only [acquire, hA]
      have hentry : g.entry A = none := by rw [entry, hA]; rfl
      have hpinned : g.pinned A = { sender := A, refs := 1 } := by
        rw [pinned, known, hentry]
        rfl
      rw [hacq, hpinned]
      refine ⟨⟨⟨?_, ?_⟩, ?_, ?_, ?_⟩, AList.lookup_insert _⟩
      · intro B ref h
        rw [FinMap.lookup_insert_if] at h
        split at h
        next => exact Option.some.inj h ▸ Nat.lt_succ_self _
        next => exact Nat.lt_succ_of_lt (hg.made h)
      · intro B ref h
        rw [FinMap.lookup_insert_if] at h
        split at h
        next hBA =>
          obtain rfl := Option.some.inj h
          simp [hBA]
        next => simpa [Function.update_of_ne (hg.made h).ne] using hg.sender h
      · simp [entry, AList.lookup_insert]
      · intro B hB
        rw [entry, FinMap.lookup_insert_if, if_neg hB, entry]
        cases hl : g.entries.lookup B with
        | none => rfl
        | some ref =>
            show some (Function.update g.states g.made _ ref) = some (g.states ref)
            rw [Function.update_of_ne (hg.made hl).ne]
      · intro B ref h _
        have hBA : B ≠ A := by
          intro hBA
          rw [hBA, hA] at h
          exact nomatch h
        rw [FinMap.lookup_insert_if, if_neg hBA]
        exact h

/-- What `release` leaves of an entry. -/
def unpin (ss : SenderState) : Option SenderState :=
  if 0 < ss.refs - 1 ∨ ss.next.isSome ∨ 0 < ss.parked.entries.length then
    some { ss with refs := ss.refs - 1 }
  else none

theorem erase_sets (hg : g.Wf) (A : Bytes) :
    Sets g { g with entries := g.entries.erase A } A none where
  wf :=
    { made := fun {B ref} h => by
        rw [FinMap.lookup_erase_if] at h
        split at h
        next => exact nomatch h
        next => exact hg.made h
      sender := fun {B ref} h => by
        rw [FinMap.lookup_erase_if] at h
        split at h
        next => exact nomatch h
        next => exact hg.sender h }
  self := by simp [entry, AList.lookup_erase]
  others := fun B hB => by simp [entry, hB]
  points := fun {B ref} h hs => by
    have hBA : B ≠ A := fun hBA => nomatch hs hBA
    rw [FinMap.lookup_erase_if, if_neg hBA]
    exact h

theorem release_sets (hg : g.Wf) (hA : g.entries.lookup A = some ref) :
    Sets g (g.release ref) A (unpin (g.states ref)) := by
  have hupdate : Sets g (g.update ref fun ss => { ss with refs := ss.refs - 1 }) A
      (some { g.states ref with refs := (g.states ref).refs - 1 }) := update_sets hg hA rfl
  rw [release, unpin]
  split
  next => exact hupdate
  next =>
    rw [hg.sender hA]
    exact hupdate.trans rfl (erase_sets hupdate.wf A)

/-! ### Parking -/

theorem park_sets (hg : g.Wf) (hA : g.entries.lookup A = some ref) (tx : EthTx) (now : Int) :
    Sets g (g.park ref tx now) A
      (some { g.states ref with parked := (g.states ref).parked.insert tx.nonce ⟨tx, now⟩ }) :=
  (update_sets hg hA rfl).withHash _

theorem erase_of_lookup_none {m : FinMap Nat ParkedTx} {n : Nat} (h : m.lookup n = none) :
    m.erase n = m := by
  apply AList.ext
  exact List.kerase_of_notMem_keys (AList.lookup_eq_none.mp h)

theorem unpark_sets (hg : g.Wf) (hA : g.entries.lookup A = some ref) (nonce : Nat) :
    Sets g (g.unpark ref nonce).1 A
      (some { g.states ref with parked := (g.states ref).parked.erase nonce }) := by
  cases hp : (g.states ref).parked.lookup nonce with
  | none =>
      rw [unpark, hp, erase_of_lookup_none hp]
      exact ⟨hg, entry_of_points hA, fun _ _ => rfl, fun h _ => h⟩
  | some p =>
      rw [unpark, hp]
      exact (update_sets hg hA rfl).withHash _

theorem unpark_tx (g : NonceGate) (ref nonce : Nat) :
    (g.unpark ref nonce).2 = ((g.states ref).parked.lookup nonce).map ParkedTx.tx := by
  unfold unpark
  cases (g.states ref).parked.lookup nonce <;> rfl

theorem unparkAll_sets (hg : g.Wf) (hA : g.entries.lookup A = some ref) (nonces : List Nat) :
    Sets g (g.unparkAll ref nonces) A
      (some { g.states ref with
        parked := nonces.foldl (fun m n => AList.erase n m) (g.states ref).parked }) := by
  induction nonces generalizing g with
  | nil => exact ⟨hg, entry_of_points hA, fun _ _ => rfl, fun h _ => h⟩
  | cons n nonces ih =>
      have hone := unpark_sets hg hA n
      have hA' := hone.points hA fun _ => rfl
      have hstate : (g.unpark ref n).1.states ref =
          { g.states ref with parked := (g.states ref).parked.erase n } := by
        have := (entry_of_points hA').symm.trans hone.self
        exact Option.some.inj this
      have hrest := ih hone.wf hA'
      rw [hstate] at hrest
      exact hone.trans rfl hrest

theorem lookup_eraseAll (m : FinMap Nat ParkedTx) (nonces : List Nat) (k : Nat) :
    (nonces.foldl (fun m n => AList.erase n m) m).lookup k =
      if k ∈ nonces then none else m.lookup k := by
  induction nonces generalizing m with
  | nil => simp
  | cons n nonces ih =>
      show (nonces.foldl _ (AList.erase n m)).lookup k = _
      rw [ih, FinMap.lookup_erase_if]
      by_cases hk : k ∈ nonces
      · simp [hk]
      · simp [hk]

/-! ### Admit -/

/-- An entry with a next nonce stays. -/
theorem release_known_sets (hg : g.Wf) (hA : g.entries.lookup A = some ref) {N : Nat}
    (hN : (g.states ref).next = some N) :
    Sets g (g.release ref) A (some { g.states ref with refs := (g.states ref).refs - 1 }) := by
  have hsets := release_sets hg hA
  have hkeep : unpin (g.states ref) =
      some { g.states ref with refs := (g.states ref).refs - 1 } := by
    simp [unpin, hN]
  rwa [hkeep] at hsets

theorem raise_eq (e : Option Nat) (n : Nat) : raise e n = some (max (e.getD n) n) := by
  cases e with
  | none => simp [raise]
  | some m =>
      simp only [raise, Option.getD_some]
      split <;> congr 1 <;> omega

/-- What the end of `Admit` does to an entry whose next nonce is `N`: at most it parks
the transaction, above `N`. -/
structure Settles (ss ss' : SenderState) (N : Nat) (tx : EthTx) : Prop where
  next : ss'.next = some N
  refs : ss'.refs = ss.refs
  parked : ∀ {n p}, ss'.parked.lookup n = some p →
    ss.parked.lookup n = some p ∨ N < n ∧ n = tx.nonce ∧ p.tx = tx

theorem settle_sets (hg : g.Wf) (hA : g.entries.lookup A = some ref) {N : Nat}
    (hN : (g.states ref).next = some N) (tx : EthTx) (now : Int) :
    ∃ ss', Sets g (g.settle ref tx now).1 A (some ss') ∧ Settles (g.states ref) ss' N tx ∧
      ((g.settle ref tx now).2 = .enqueue → tx.nonce = N) := by
  have hseen : Sets g (g.update ref fun ss => { ss with lastSeen := now }) A
      (some { g.states ref with lastSeen := now }) := update_sets hg hA rfl
  have hstate : (g.update ref fun ss => { ss with lastSeen := now }).states ref =
      { g.states ref with lastSeen := now } := by simp [update]
  have hsame : Settles (g.states ref) { g.states ref with lastSeen := now } N tx :=
    ⟨hN, rfl, fun h => .inl h⟩
  simp only [settle, hstate, hN, Option.getD_some]
  split
  next => exact ⟨_, hseen, hsame, nofun⟩
  split
  next heq => exact ⟨_, hseen, hsame, fun _ => heq⟩
  split
  next => exact ⟨_, hseen, hsame, nofun⟩
  next hlow hne _ =>
    have hpark := park_sets hseen.wf (hseen.points hA fun _ => rfl) tx now
    rw [hstate] at hpark
    refine ⟨_, hseen.trans rfl hpark, ⟨hN, rfl, ?_⟩, nofun⟩
    intro n p hp
    change ((g.states ref).parked.insert tx.nonce ⟨tx, now⟩).lookup n = some p at hp
    rw [FinMap.lookup_insert_if] at hp
    split at hp
    next hn =>
      obtain rfl := Option.some.inj hp
      exact .inr ⟨by omega, hn, rfl⟩
    next => exact .inl hp

/-- The pointer that a section got, with the state behind it. -/
theorem Sets.states_eq {e : SenderState} (h : Sets g g' A (some e))
    (hA : g'.entries.lookup A = some ref) : g'.states ref = e := by
  have := (entry_of_points hA).symm.trans h.self
  exact Option.some.inj this

/-- The end of `Admit` with its `release`. -/
theorem settle_release_sets (hg : g.Wf) (hA : g.entries.lookup A = some ref) {N : Nat}
    (hN : (g.states ref).next = some N) (tx : EthTx) (now : Int) :
    ∃ ss', Sets g ((g.settle ref tx now).1.release ref) A (some ss') ∧
      Settles { g.states ref with refs := (g.states ref).refs - 1 } ss' N tx ∧
      ((g.settle ref tx now).2 = .enqueue → tx.nonce = N) := by
  obtain ⟨ss', hsets, hsettles, henq⟩ := settle_sets hg hA hN tx now
  have hA' := hsets.points hA fun _ => rfl
  have hstate := hsets.states_eq hA'
  have hrelease := release_known_sets hsets.wf hA' (hstate ▸ hsettles.next)
  rw [hstate] at hrelease
  exact ⟨_, hsets.trans rfl hrelease,
    ⟨hsettles.next, congrArg (· - 1) hsettles.refs, hsettles.parked⟩, henq⟩

/-- A call that ends in one section found the next nonce. -/
theorem admit_known (hg : g.Wf) {tx : EthTx} {now : Int} {r : AdmitResult}
    (h : g.admitTx A tx now = (g', ref, some r)) :
    ∃ ss' N, g.expected A = some N ∧ Sets g g' A (some ss') ∧ Settles (g.known A) ss' N tx ∧
      (r = .enqueue → tx.nonce = N) := by
  obtain ⟨hsets, hpoints⟩ := acquire_sets hg A
  have hstate := hsets.states_eq hpoints
  simp only [admitTx] at h
  split at h
  next => exact nomatch h
  next N hN =>
    obtain ⟨ss', hsets', hsettles, henq⟩ := settle_release_sets hsets.wf hpoints hN tx now
    rw [hstate] at hN hsettles
    obtain ⟨rfl, hrest⟩ := Prod.mk.inj h
    obtain rfl := Option.some.inj (Prod.mk.inj hrest).2
    exact ⟨ss', N, (known_next g A).symm.trans hN, hsets.trans rfl hsets', hsettles, henq⟩

/-- A call that goes to read the store did not. -/
theorem admit_unknown (hg : g.Wf) {tx : EthTx} {now : Int}
    (h : g.admitTx A tx now = (g', ref, none)) :
    g.expected A = none ∧ Sets g g' A (some (g.pinned A)) ∧ g'.entries.lookup A = some ref := by
  obtain ⟨hsets, hpoints⟩ := acquire_sets hg A
  simp only [admitTx] at h
  split at h
  next hN =>
    rw [hsets.states_eq hpoints] at hN
    obtain ⟨rfl, hrest⟩ := Prod.mk.inj h
    obtain rfl := (Prod.mk.inj hrest).1
    exact ⟨(known_next g A).symm.trans hN, hsets, hpoints⟩
  next => exact nomatch congrArg (·.2.2) h

/-- A call that read the store. -/
theorem admitSeeded_sets (hg : g.Wf) (hA : g.entries.lookup A = some ref) {tx : EthTx}
    {seed : Nat} {now : Int} {r : Option AdmitResult}
    (h : g.admitSeeded ref tx (some seed) now = (g', r)) :
    ∃ ss' N, N = max ((g.expected A).getD seed) seed ∧ Sets g g' A (some ss') ∧
      Settles { g.known A with refs := (g.known A).refs - 1 } ss' N tx ∧
      (r = some .enqueue → tx.nonce = N) := by
  have hraise : Sets g (g.update ref fun ss => { ss with next := raise ss.next seed }) A
      (some { g.states ref with next := raise (g.states ref).next seed }) := update_sets hg hA rfl
  have hA' := hraise.points hA fun _ => rfl
  have hstate := hraise.states_eq hA'
  obtain ⟨ss', hsets, hsettles, henq⟩ := settle_release_sets hraise.wf hA'
    (by rw [hstate, raise_eq]) tx now
  rw [hstate] at hsettles
  obtain ⟨rfl, rfl⟩ := Prod.mk.inj h
  rw [← known_next, known_of_points hA]
  exact ⟨ss', _, rfl, hraise.trans rfl hsets,
    ⟨hsettles.next, hsettles.refs, hsettles.parked⟩, fun hr => henq (Option.some.inj hr)⟩

/-! ### Observe -/

theorem dropSpent_sets (hg : g.Wf) (hA : g.entries.lookup A = some ref) (next : Nat) :
    ∃ parked : FinMap Nat ParkedTx,
      Sets g (g.dropSpent ref next) A (some { g.states ref with parked := parked }) ∧
      ∀ n, parked.lookup n = if n < next then none else (g.states ref).parked.lookup n := by
  refine ⟨_, unparkAll_sets hg hA _, fun n => ?_⟩
  rw [lookup_eraseAll]
  by_cases hn : n < next
  · by_cases hk : n ∈ (g.states ref).parked.keys
    · simp [hn, hk]
    · have hnone : (g.states ref).parked.lookup n = none := AList.lookup_eq_none.mpr hk
      simp [hn, hnone]
  · simp [hn]

/-- The end of `Observe` for one sender, whose next nonce is `N`. -/
theorem promote_sets (hg : g.Wf) (hA : g.entries.lookup A = some ref) {N : Nat}
    (hN : (g.states ref).next = some N) :
    ∃ ss', Sets g (((g.dropSpent ref N).unpark ref N).1.release ref) A (some ss') ∧
      ss'.next = some N ∧ ss'.refs = (g.states ref).refs - 1 ∧
      (∀ {k p}, ss'.parked.lookup k = some p →
        (g.states ref).parked.lookup k = some p ∧ N < k) ∧
      ((g.dropSpent ref N).unpark ref N).2 =
        ((g.states ref).parked.lookup N).map ParkedTx.tx := by
  obtain ⟨parked, hdrop, hlookup⟩ := dropSpent_sets hg hA N
  have hA₁ := hdrop.points hA fun _ => rfl
  have hstate₁ := hdrop.states_eq hA₁
  have hunpark := unpark_sets hdrop.wf hA₁ N
  have hA₂ := hunpark.points hA₁ fun _ => rfl
  have hstate₂ := hunpark.states_eq hA₂
  rw [hstate₁] at hstate₂
  have hrelease := release_known_sets hunpark.wf hA₂ (by rw [hstate₂]; exact hN)
  rw [hstate₂] at hrelease
  refine ⟨_, hdrop.trans rfl (hunpark.trans rfl hrelease), hN, rfl, ?_, ?_⟩
  · intro k p hp
    change (parked.erase N).lookup k = some p at hp
    rw [FinMap.lookup_erase_if, hlookup] at hp
    split at hp
    next => exact nomatch hp
    split at hp
    next => exact nomatch hp
    next => exact ⟨hp, by omega⟩
  · rw [unpark_tx, hstate₁]
    show (parked.lookup N).map ParkedTx.tx = _
    rw [hlookup, if_neg (Nat.lt_irrefl N)]

/-- One sender of a block: its next nonce is raised, what it has parked is above the next
nonce, and the transaction that was parked at it is handed over. -/
theorem observeSender_sets (hg : g.Wf) (now : Int) (A : Bytes) (n : Nat) :
    ∃ ss' N, N = max ((g.expected A).getD (nonceAfter n)) (nonceAfter n) ∧
      Sets g (g.observeSender now A n).1 A (some ss') ∧ ss'.next = some N ∧
      ss'.refs = (g.known A).refs ∧
      (∀ {k p}, ss'.parked.lookup k = some p → (g.known A).parked.lookup k = some p ∧ N < k) ∧
      (g.observeSender now A n).2 = ((g.known A).parked.lookup N).map ParkedTx.tx := by
  obtain ⟨hacquire, hA⟩ := acquire_sets hg A
  have hstate := hacquire.states_eq hA
  generalize hg₁ : (g.acquire A).1 = g₁ at hacquire hA hstate
  generalize hr : (g.acquire A).2 = ref at hA hstate
  have hraise : Sets g₁ (g₁.update ref fun ss =>
      { ss with next := raise ss.next (nonceAfter n), lastSeen := now }) A
      (some { g₁.states ref with
        next := raise (g₁.states ref).next (nonceAfter n), lastSeen := now }) :=
    update_sets hacquire.wf hA rfl
  have hA₁ := hraise.points hA fun _ => rfl
  have hstate₁ := hraise.states_eq hA₁
  generalize hg₂ : (g₁.update ref fun ss =>
    { ss with next := raise ss.next (nonceAfter n), lastSeen := now }) = g₂ at hraise hA₁ hstate₁
  have hnext : (g₂.states ref).next =
      some (max ((g.expected A).getD (nonceAfter n)) (nonceAfter n)) := by
    rw [hstate₁, hstate, ← raise_eq, ← known_next]
    rfl
  generalize max ((g.expected A).getD (nonceAfter n)) (nonceAfter n) = N at hnext
  have hobserve : g.observeSender now A n =
      (((g₂.dropSpent ref N).unpark ref N).1.release ref,
        ((g₂.dropSpent ref N).unpark ref N).2) := by
    simp only [observeSender, hg₁, hr, hg₂, hnext, Option.getD_some]
  obtain ⟨ss', hsets, hN, hrefs, hparked, htx⟩ := promote_sets hraise.wf hA₁ hnext
  rw [hstate₁, hstate] at hrefs hparked htx
  rw [hobserve]
  exact ⟨ss', N, rfl, hacquire.trans rfl (hraise.trans rfl hsets), hN, hrefs, hparked, htx⟩

/-! ### The reaper -/

/-- What the reaper does: an entry that stays lost some parked transactions, and an entry
that somebody holds stays. -/
structure Prunes (g g' : NonceGate) : Prop where
  wf : g'.Wf
  entry : ∀ {B ss'}, g'.entry B = some ss' → ∃ ss, g.entry B = some ss ∧ ss'.next = ss.next ∧
    ss'.refs = ss.refs ∧ ∀ {n p}, ss'.parked.lookup n = some p → ss.parked.lookup n = some p
  points : ∀ {B ref}, g.entries.lookup B = some ref → (g.states ref).refs ≠ 0 →
    g'.entries.lookup B = some ref

theorem Prunes.refl (hg : g.Wf) : Prunes g g :=
  ⟨hg, fun h => ⟨_, h, rfl, rfl, fun h => h⟩, fun h _ => h⟩

theorem Prunes.trans (h : Prunes g g') (h' : Prunes g' g'') : Prunes g g'' where
  wf := h'.wf
  entry := fun hB => by
    obtain ⟨ss', hB', hnext', hrefs', hparked'⟩ := h'.entry hB
    obtain ⟨ss, hB'', hnext, hrefs, hparked⟩ := h.entry hB'
    exact ⟨ss, hB'', hnext'.trans hnext, hrefs'.trans hrefs, fun hp => hparked (hparked' hp)⟩
  points := fun {B ref} hB hrefs => by
    have hB' := h.points hB hrefs
    obtain ⟨ss, hss, -, hsame, -⟩ := h.entry (entry_of_points hB')
    rw [entry_of_points hB] at hss
    obtain rfl := Option.some.inj hss
    exact h'.points hB' (hsame ▸ hrefs)

theorem expireSender_prunes (hg : g.Wf) (now : Int) (hA : g.entries.lookup A = some ref) :
    Prunes g (g.expireSender now ref) ∧ ∀ {B ref'}, g.entries.lookup B = some ref' →
      (g.expireSender now ref).entries.lookup B = some ref' := by
  have hsets := unparkAll_sets hg hA
    (((g.states ref).parked.entries.filter fun e => g.ttl < now - e.2.parkedAt).map Sigma.fst)
  have hpoints := fun {B ref'} (h : g.entries.lookup B = some ref') => hsets.points h fun _ => rfl
  refine ⟨⟨hsets.wf, ?_, fun h _ => hpoints h⟩, hpoints⟩
  intro B ss' hB
  change (g.unparkAll ref _).entry B = some ss' at hB
  rw [hsets.entry_eq] at hB
  split at hB
  next hBA =>
    obtain rfl := Option.some.inj hB
    refine ⟨g.states ref, hBA ▸ entry_of_points hA, rfl, rfl, ?_⟩
    intro n p hp
    change (List.foldl (fun m n => AList.erase n m) (g.states ref).parked _).lookup n = _ at hp
    rw [lookup_eraseAll] at hp
    split at hp
    next => exact nomatch hp
    next => exact hp
  next => exact ⟨ss', hB, rfl, rfl, fun h => h⟩

theorem expire_prunes (hg : g.Wf) (now : Int) : Prunes g (g.expire now) := by
  have hfold : ∀ (es : List (Σ _ : Bytes, Nat)) (g : NonceGate), g.Wf →
      (∀ e ∈ es, g.entries.lookup e.1 = some e.2) →
      Prunes g (es.foldl (fun g e => g.expireSender now e.2) g) := by
    intro es
    induction es with
    | nil => exact fun g hg _ => Prunes.refl hg
    | cons e es ih =>
        intro g hg hes
        obtain ⟨hone, hpoints⟩ := expireSender_prunes hg now (hes e (List.mem_cons_self ..))
        exact hone.trans (ih _ hone.wf fun e he => hpoints (hes e (List.mem_cons_of_mem _ he)))
  exact hfold g.entries.entries g hg fun e he => AList.mem_lookup_iff.mpr he

theorem older_cases {o : Option Nat} {r r' : Nat} (h : g.older o r' = some r) :
    o = some r ∨ r = r' ∧ g.evictable r' = true := by
  unfold older at h
  split at h
  next hev =>
    cases o with
    | none => exact .inr ⟨(Option.some.inj h).symm, hev⟩
    | some o =>
        dsimp only at h
        split at h
        next => exact .inr ⟨(Option.some.inj h).symm, hev⟩
        next => exact .inl h
  next => exact .inl h

theorem oldest_spec {order : List Nat} (h : g.oldest order = some ref) :
    ref ∈ order ∧ g.evictable ref = true := by
  have hfold : ∀ (rest : List Nat) (o : Option Nat),
      (∀ r, o = some r → r ∈ order ∧ g.evictable r = true) → (∀ r ∈ rest, r ∈ order) →
      ∀ r, rest.foldl g.older o = some r → r ∈ order ∧ g.evictable r = true := by
    intro rest
    induction rest with
    | nil => exact fun o ho _ r hr => ho r hr
    | cons r' rest ih =>
        intro o ho hmem
        refine ih _ (fun r hr => ?_) fun r hr => hmem r (List.mem_cons_of_mem _ hr)
        cases older_cases hr with
        | inl hold => exact ho r hold
        | inr hnew =>
            obtain ⟨rfl, hev⟩ := hnew
            exact ⟨hmem _ (List.mem_cons_self ..), hev⟩
  exact hfold order none nofun (fun r hr => hr) ref h

theorem evicts_prunes (hg : g.Wf) (h : Evicts g g') : Prunes g g' := by
  induction h with
  | done => exact Prunes.refl hg
  | stuck => exact Prunes.refl hg
  | @evict g g' order ref _ hperm holdest _ ih =>
      obtain ⟨hmem, hev⟩ := oldest_spec holdest
      obtain ⟨⟨A, ref'⟩, he, rfl⟩ := List.mem_map.mp (hperm.mem_iff.mp hmem)
      have hA : g.entries.lookup A = some ref' := AList.mem_lookup_iff.mpr he
      simp only [evictable, Bool.and_eq_true, decide_eq_true_eq] at hev
      simp only [hg.sender hA] at ih
      have hsets := erase_sets hg A
      refine Prunes.trans ⟨hsets.wf, ?_, ?_⟩ (ih hsets.wf)
      · intro B ss' hB
        rw [hsets.entry_eq] at hB
        split at hB
        next => exact nomatch hB
        next => exact ⟨ss', hB, rfl, rfl, fun h => h⟩
      · intro B ref hB hrefs
        refine hsets.points hB fun hBA => ?_
        subst hBA
        rw [hA] at hB
        obtain rfl := Option.some.inj hB
        exact absurd hev.1 hrefs

end NonceGate

end Gateway
