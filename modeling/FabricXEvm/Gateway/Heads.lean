import FabricXEvm.Gateway.FilterPolling
import FabricXEvm.Lib.Channels

/-!
# Subscriptions to new heads

A subscriber of `newHeads` gets a channel.  Blocks are sent to the channels of the live
subscribers under the lock of `FilterAPI`.  `Close` closes the channels under the lock, but
`Unsubscribe` takes the subscriber out under the lock and closes its channel after that, while
other calls go on.

A channel is owned by its live subscriber, or by the call that is about to close it.  So the
steps are steps of channels with one owner (`Step.channels`), and nothing happens to a channel
after it was closed.  The counters follow the live subscribers (`Counted`).

`Unsubscribe` reads the API pointer of the subscription twice, and another call may set it to
nil in between.  Then the call panics on a nil pointer.
-/

open Blocks

namespace Gateway

/-- `HeadsBuffer`. -/
def headsBuffer : Int := 16

structure HeadSub (κ : Type) where
  ch : Nat
  /-- The key of the connection, if there is one. -/
  conn : Option κ

/-- What a subscriber holds. -/
structure HeadSubscription where
  /-- The API pointer is not nil. -/
  api : Bool
  id : Nat
  ch : Nat
deriving DecidableEq, Repr

/-- A buffered channel. -/
structure Chan where
  cap : Nat
  buf : List Domain.Block := []

/-- Where a call of `Unsubscribe` is. -/
inductive UnsubscribeCall where
  /-- The pointer was not nil. -/
  | entered (sub : Nat)
  /-- The subscriber was taken out, its channel is to be closed. -/
  | closing (sub ch : Nat)
  /-- The pointer is to be set to nil. -/
  | leaving (sub : Nat)
  | returned
  | panicked

/-- The channel that a call is about to close. -/
def UnsubscribeCall.owned : UnsubscribeCall → Option Nat
  | .closing _ ch => some ch
  | _ => none

inductive SubscribeError where
  | globalLimit (max : Int)
  | connectionLimit (max : Int)
deriving DecidableEq, Repr

/-- The part of `FilterAPI` that subscriptions use, with the channels, the subscriptions
handed out and the running calls. -/
structure Heads (κ : Type) where
  limits : Limits
  headSubs : FinMap Nat (HeadSub κ) := ∅
  /-- The live subscribers of each connection. -/
  connSubs : FinMap κ Int := ∅
  nextHeadID : Nat := 0
  closed : Bool := false
  chans : List Chan := []
  /-- What was done with the channels. -/
  log : List (Channels.Event Domain.Block) := []
  subs : List HeadSubscription := []
  calls : List UnsubscribeCall := []

namespace Heads

variable {κ : Type} [DecidableEq κ]

/-! ## Critical sections -/

/-- `connSubs[conn]`. -/
def connCount (s : Heads κ) (conn : κ) : Int := (s.connSubs.lookup conn).getD 0

/-- `connSubs[conn]++`. -/
def incConn (s : Heads κ) : Option κ → FinMap κ Int
  | none => s.connSubs
  | some conn => s.connSubs.insert conn (s.connCount conn + 1)

/-- `connSubs[conn]--`, where a count that is used up is deleted. -/
def decConn (s : Heads κ) : Option κ → FinMap κ Int
  | none => s.connSubs
  | some conn =>
      if s.connCount conn - 1 ≤ 0 then s.connSubs.erase conn
      else s.connSubs.insert conn (s.connCount conn - 1)

def closeChan (s : Heads κ) (ch : Nat) : Heads κ := { s with log := s.log ++ [.close ch] }

/-- How many blocks a slow subscriber may lag. -/
def chanCap (buffer : Int) : Nat := if buffer < 1 then headsBuffer.toNat else buffer.toNat

def subscribeHeadsForConn (s : Heads κ) (conn : Option κ) (buffer : Int) :
    Heads κ × Except SubscribeError HeadSubscription :=
  let ch := s.chans.length
  let s : Heads κ := { s with chans := s.chans ++ [{ cap := chanCap buffer }] }
  if s.closed then (s.closeChan ch, .ok { api := false, id := 0, ch := ch })
  else if s.limits.maxSubscriptionsGlobal ≤ s.headSubs.entries.length then
    (s.closeChan ch, .error (.globalLimit s.limits.maxSubscriptionsGlobal))
  else if conn.any fun conn => s.limits.maxSubscriptionsPerConn ≤ s.connCount conn then
    (s.closeChan ch, .error (.connectionLimit s.limits.maxSubscriptionsPerConn))
  else
    let id := s.nextHeadID + 1
    ({ s with
        nextHeadID := id
        headSubs := s.headSubs.insert id { ch := ch, conn := conn }
        connSubs := s.incConn conn },
      .ok { api := true, id := id, ch := ch })

/-- `unsubscribeHeads` up to the unlock, with the channel it closes after that. -/
def unsubscribeHeads (s : Heads κ) (id : Nat) : Heads κ × Option Nat :=
  match s.headSubs.lookup id with
  | none => (s, none)
  | some sub =>
    ({ s with
        headSubs := s.headSubs.erase id
        connSubs := s.decConn sub.conn },
      some sub.ch)

/-- The locked part of `Close`. -/
def close (s : Heads κ) : Heads κ :=
  if s.closed then s
  else
    -- closeHeadSubsLocked
    { s with
      closed := true
      log := s.log ++ s.headSubs.entries.map fun e => .close e.2.ch
      headSubs := ∅
      connSubs := ∅ }

/-- The `select` of `fanOutHeads`: a send if there is room. -/
def offer (b : Domain.Block) (s : Heads κ) (ch : Nat) : Heads κ :=
  match s.chans[ch]? with
  | none => s
  | some chan =>
    if chan.buf.length < chan.cap then
      { s with chans := s.chans.set ch { chan with buf := chan.buf ++ [b] }
               log := s.log ++ [.send ch b] }
    else { s with log := s.log ++ [.drop ch b] }

def fanOutHeads (s : Heads κ) (b : Domain.Block) : Heads κ :=
  (s.headSubs.entries.map fun e => e.2.ch).foldl (offer b) s

/-! ## Interleavings -/

/-- What `Unsubscribe` does between its two reads of the pointer and the close. -/
def enterUnsubscribe (s : Heads κ) (sub : Nat) (h : HeadSubscription) :
    Heads κ × UnsubscribeCall :=
  if h.api then
    match s.unsubscribeHeads h.id with
    | (s, none) => (s, .leaving sub)
    | (s, some ch) => (s, .closing sub ch)
  else (s, .panicked)

inductive Step : Heads κ → Heads κ → Prop where
  | subscribe {s s' : Heads κ} {conn buffer h}
      (hsub : s.subscribeHeadsForConn conn buffer = (s', .ok h)) :
      Step s { s' with subs := s'.subs ++ [h] }
  | refused {s s' : Heads κ} {conn buffer e}
      (hsub : s.subscribeHeadsForConn conn buffer = (s', .error e)) : Step s s'
  /-- `Unsubscribe` finds the pointer set.  With nil it returns at once. -/
  | unsubscribe {s : Heads κ} {sub h} (hsub : s.subs[sub]? = some h) (hapi : h.api = true) :
      Step s { s with calls := s.calls ++ [.entered sub] }
  /-- The critical section, after the pointer was read again. -/
  | lock {s s' : Heads κ} {l r sub h call} (hcalls : s.calls = l ++ .entered sub :: r)
      (hsub : s.subs[sub]? = some h) (henter : s.enterUnsubscribe sub h = (s', call)) :
      Step s { s' with calls := l ++ call :: r }
  | closeChan {s : Heads κ} {l r sub ch} (hcalls : s.calls = l ++ .closing sub ch :: r) :
      Step s { s.closeChan ch with calls := l ++ .leaving sub :: r }
  | leave {s : Heads κ} {l r sub h} (hcalls : s.calls = l ++ .leaving sub :: r)
      (hsub : s.subs[sub]? = some h) :
      Step s { s with subs := s.subs.set sub { h with api := false }, calls := l ++ .returned :: r }
  | fanOut (s : Heads κ) (b : Domain.Block) : Step s (s.fanOutHeads b)
  | receive {s : Heads κ} {ch chan b buf} (hchan : s.chans[ch]? = some chan)
      (hbuf : chan.buf = b :: buf) : Step s { s with chans := s.chans.set ch { chan with buf := buf } }
  | close (s : Heads κ) : Step s s.close

/-- The states that any interleaving leads to. -/
inductive Reachable (limits : Limits) : Heads κ → Prop where
  | new : Reachable limits { limits := mergePartialLimits limits }
  | step {s s'} (h : Reachable limits s) (hstep : Heads.Step s s') : Reachable limits s'

/-! ## What the critical sections do -/

variable {s s' : Heads κ}

/-- A refused subscriber gets a channel that is closed at once. -/
theorem subscribe_cases {conn : Option κ} {buffer : Int}
    {res : Except SubscribeError HeadSubscription}
    (h : s.subscribeHeadsForConn conn buffer = (s', res)) :
    ∃ chan : Chan,
      s' = { s with chans := s.chans ++ [chan], log := s.log ++ [.close s.chans.length] } ∨
      (s.headSubs.entries.length : Int) < s.limits.maxSubscriptionsGlobal ∧
        (∀ k, conn = some k → s.connCount k < s.limits.maxSubscriptionsPerConn) ∧
        s' = { s with
          chans := s.chans ++ [chan]
          nextHeadID := s.nextHeadID + 1
          headSubs := s.headSubs.insert (s.nextHeadID + 1) { ch := s.chans.length, conn := conn }
          connSubs := s.incConn conn } := by
  unfold subscribeHeadsForConn at h
  dsimp only at h
  refine ⟨{ cap := chanCap buffer }, ?_⟩
  split at h
  · exact .inl (Prod.mk.inj h).1.symm
  · split at h
    · exact .inl (Prod.mk.inj h).1.symm
    next hglobal =>
      split at h
      · exact .inl (Prod.mk.inj h).1.symm
      next hconn =>
        refine .inr ⟨Int.not_le.mp hglobal, ?_, (Prod.mk.inj h).1.symm⟩
        rintro k rfl
        exact Int.not_le.mp fun hle => hconn (decide_eq_true hle)

/-- A subscriber is taken out, or nothing happens. -/
theorem enter_cases {sub : Nat} {h : HeadSubscription} {call : UnsubscribeCall}
    (henter : s.enterUnsubscribe sub h = (s', call)) :
    s' = s ∧ (∀ sub ch, call ≠ .closing sub ch) ∨
      ∃ id hs, s.headSubs.lookup id = some hs ∧ call = .closing sub hs.ch ∧
        s' = { s with headSubs := s.headSubs.erase id, connSubs := s.decConn hs.conn } := by
  unfold enterUnsubscribe unsubscribeHeads at henter
  split at henter
  next =>
    cases hlookup : s.headSubs.lookup h.id with
    | none =>
        rw [hlookup] at henter
        obtain ⟨rfl, rfl⟩ := Prod.mk.inj henter
        exact .inl ⟨rfl, by simp⟩
    | some hs =>
        rw [hlookup] at henter
        obtain ⟨rfl, rfl⟩ := Prod.mk.inj henter
        exact .inr ⟨h.id, hs, hlookup, rfl, rfl⟩
  next =>
    obtain ⟨rfl, rfl⟩ := Prod.mk.inj henter
    exact .inl ⟨rfl, by simp⟩

/-! ## Channels have one owner -/

/-- The channels, owned by live subscribers and by calls. -/
def channels (s : Heads κ) : Channels.State Domain.Block where
  made := s.chans.length
  owned := (s.headSubs.entries.map fun e => e.2.ch) ++ s.calls.filterMap UnsubscribeCall.owned
  log := s.log

/-- Ids are given in order. -/
def IdsBelow (s : Heads κ) : Prop := ∀ id ∈ s.headSubs, id ≤ s.nextHeadID

omit [DecidableEq κ] in
open Relation in
theorem offer_channels (b : Domain.Block) {chs : List Nat} :
    ∀ {s : Heads κ}, (∀ ch ∈ chs, ch ∈ s.channels.owned) →
      ReflTransGen Channels.Step s.channels (chs.foldl (offer b) s).channels ∧
        (chs.foldl (offer b) s).headSubs = s.headSubs ∧
        (chs.foldl (offer b) s).connSubs = s.connSubs ∧
        (chs.foldl (offer b) s).limits = s.limits ∧
        (chs.foldl (offer b) s).nextHeadID = s.nextHeadID := by
  induction chs with
  | nil => exact fun _ => ⟨.refl, rfl, rfl, rfl, rfl⟩
  | cons ch chs ih =>
      intro s hchs
      have hch := hchs ch List.mem_cons_self
      have hrest : ∀ ch ∈ chs, ch ∈ s.channels.owned := fun x hx => hchs x (List.mem_cons_of_mem ch hx)
      rw [List.foldl_cons, offer]
      cases s.chans[ch]? with
      | none => exact ih hrest
      | some chan =>
          dsimp only
          split
          next =>
            obtain ⟨hsteps, hsame⟩ := @ih { s with
              chans := s.chans.set ch { chan with buf := chan.buf ++ [b] }
              log := s.log ++ [.send ch b] } hrest
            refine ⟨.trans (.single ?_) hsteps, hsame⟩
            have hstep := Channels.Step.send hch b
            simpa only [channels, List.length_set] using hstep
          next =>
            obtain ⟨hsteps, hsame⟩ := @ih { s with log := s.log ++ [.drop ch b] } hrest
            exact ⟨.trans (.single (Channels.Step.drop hch b)) hsteps, hsame⟩

omit [DecidableEq κ] in
theorem entries_insert_next (h : IdsBelow s) (sub : HeadSub κ) :
    (s.headSubs.insert (s.nextHeadID + 1) sub).entries =
      ⟨s.nextHeadID + 1, sub⟩ :: s.headSubs.entries := by
  refine AList.entries_insert_of_notMem fun hmem => ?_
  exact absurd (h _ hmem) (Nat.not_succ_le_self _)

theorem filterMap_owned (l r : List UnsubscribeCall) (call : UnsubscribeCall) :
    (l ++ call :: r).filterMap UnsubscribeCall.owned =
      l.filterMap UnsubscribeCall.owned ++
        (call.owned.toList ++ r.filterMap UnsubscribeCall.owned) := by
  rw [List.filterMap_append, List.filterMap_cons]
  cases call.owned <;> rfl

open Relation in
theorem channels_subscribe (hids : IdsBelow s) {conn : Option κ} {buffer : Int}
    {res : Except SubscribeError HeadSubscription}
    (h : s.subscribeHeadsForConn conn buffer = (s', res)) :
    ReflTransGen Channels.Step s.channels s'.channels := by
  obtain ⟨chan, rfl | ⟨_, _, rfl⟩⟩ := subscribe_cases h
  · refine .tail (.single (.make s.channels)) ?_
    have hclose := Channels.Step.close (c := { s.channels with
      made := s.channels.made + 1, owned := s.channels.made :: s.channels.owned }) (.refl _)
    simpa [channels] using hclose
  · have hmake := Channels.Step.make s.channels
    refine .single ?_
    rw [channels, channels, entries_insert_next hids, List.length_append]
    exact hmake

open Relation in
theorem channels_enter {sub : Nat} {h : HeadSubscription} {call : UnsubscribeCall}
    {l r : List UnsubscribeCall} (hcalls : s.calls = l ++ .entered sub :: r)
    (henter : s.enterUnsubscribe sub h = (s', call)) :
    ReflTransGen Channels.Step s.channels { s' with calls := l ++ call :: r }.channels := by
  obtain ⟨rfl, hcall⟩ | ⟨id, hs, hlookup, rfl, rfl⟩ := enter_cases henter
  · have howned : call.owned = none := by
      cases call with
      | closing sub ch => exact absurd rfl (hcall sub ch)
      | _ => rfl
    rw [channels, channels, hcalls, filterMap_owned, filterMap_owned, howned]
    exact .refl
  · -- the channel passes from the subscriber to the call
    have hlive := (FinMap.entries_perm_of_lookup hlookup).map fun e => e.2.ch
    refine .single (.pass ?_)
    rw [channels, hcalls, filterMap_owned, filterMap_owned]
    refine (hlive.append_right _).trans ?_
    simp only [UnsubscribeCall.owned, Option.toList, List.map_cons, List.nil_append,
      List.cons_append]
    rw [← List.append_assoc, ← List.append_assoc]
    exact List.perm_middle.symm

open Relation in
/-- Every step is a sequence of steps on channels with one owner. -/
theorem Step.channels (hids : IdsBelow s) (hstep : Heads.Step s s') :
    ReflTransGen Channels.Step s.channels s'.channels := by
  cases hstep with
  | subscribe hsub =>
      have hsteps := channels_subscribe hids hsub
      exact hsteps
  | refused hsub => exact channels_subscribe hids hsub
  | unsubscribe =>
      simp only [Heads.channels, filterMap_owned, UnsubscribeCall.owned, Option.toList_none,
        List.filterMap_nil, List.append_nil]
      exact .refl
  | lock hcalls hsub henter => exact channels_enter hcalls henter
  | @closeChan l r sub ch hcalls =>
      refine .single (.close ?_)
      rw [Heads.channels, hcalls, filterMap_owned, filterMap_owned]
      simp only [UnsubscribeCall.owned, Option.toList, List.cons_append, List.nil_append]
      rw [← List.append_assoc, ← List.append_assoc]
      exact List.perm_middle
  | leave hcalls hsub =>
      rw [Heads.channels, Heads.channels, hcalls, filterMap_owned, filterMap_owned]
      exact .refl
  | fanOut b =>
      exact (offer_channels b fun ch hch => List.mem_append_left _ hch).1
  | receive hchan hbuf =>
      rw [Heads.channels, Heads.channels, List.length_set]
  | close =>
      rw [Heads.close]
      split
      next => exact .refl
      next =>
        have hclose := Channels.run_closeAll s.chans.length (s.headSubs.entries.map fun e => e.2.ch)
          (s.calls.filterMap UnsubscribeCall.owned) s.log
        rw [List.map_map] at hclose
        exact hclose

/-! ## Counters -/

/-- The live subscribers of a connection. -/
def live (s : Heads κ) (conn : κ) : Nat := s.headSubs.entries.countP fun e => e.2.conn = some conn

structure Counted (limits : Limits) (s : Heads κ) : Prop where
  limits_eq : s.limits = mergePartialLimits limits
  ids : IdsBelow s
  counters : ∀ conn, s.connCount conn = s.live conn
  globalCap : (s.headSubs.entries.length : Int) ≤ max 0 limits.maxSubscriptionsGlobal
  connCap : ∀ conn, (s.live conn : Int) ≤ max 0 limits.maxSubscriptionsPerConn

theorem caps_merge (limits : Limits) :
    (mergePartialLimits limits).maxSubscriptionsGlobal = limits.maxSubscriptionsGlobal ∧
      (mergePartialLimits limits).maxSubscriptionsPerConn = limits.maxSubscriptionsPerConn := by
  unfold mergePartialLimits
  split <;> exact ⟨rfl, rfl⟩

theorem getD_incConn (s : Heads κ) (conn : Option κ) (k : κ) :
    ((s.incConn conn).lookup k).getD 0 = s.connCount k + if conn = some k then 1 else 0 := by
  cases conn with
  | none => simp [incConn, connCount]
  | some conn =>
      rw [incConn, FinMap.lookup_insert_if]
      by_cases heq : conn = k
      · simp [heq]
      · simp [heq, Ne.symm heq, connCount]

theorem getD_decConn (s : Heads κ) (conn : Option κ) (hpos : ∀ k, conn = some k → 0 < s.connCount k)
    (k : κ) :
    ((s.decConn conn).lookup k).getD 0 = s.connCount k - if conn = some k then 1 else 0 := by
  cases conn with
  | none => simp [decConn, connCount]
  | some conn =>
      have hpos := hpos conn rfl
      rw [decConn]
      by_cases heq : conn = k
      · subst heq
        split
        next hlast =>
          rw [FinMap.lookup_erase_if, if_pos rfl, if_pos rfl, Option.getD_none]
          omega
        next => rw [FinMap.lookup_insert_if, if_pos rfl, if_pos rfl, Option.getD_some]
      · have hne : ¬some conn = some k := by simpa using heq
        simp only [hne, if_false, Int.sub_zero]
        split
        next => rw [FinMap.lookup_erase_if, if_neg (Ne.symm heq)]; rfl
        next => rw [FinMap.lookup_insert_if, if_neg (Ne.symm heq)]; rfl

variable {limits : Limits}

theorem Counted.subscribe (h : Counted limits s) {conn : Option κ} {buffer : Int}
    {res : Except SubscribeError HeadSubscription}
    (hsub : s.subscribeHeadsForConn conn buffer = (s', res)) : Counted limits s' := by
  obtain ⟨chan, rfl | ⟨hglobal, hconn, rfl⟩⟩ := subscribe_cases hsub
  · exact ⟨h.limits_eq, h.ids, h.counters, h.globalCap, h.connCap⟩
  obtain ⟨hmaxGlobal, hmaxConn⟩ := caps_merge limits
  rw [h.limits_eq, hmaxGlobal] at hglobal
  have hentries := entries_insert_next h.ids { ch := s.chans.length, conn := conn }
  have hlive : ∀ k, (s.headSubs.insert (s.nextHeadID + 1)
      { ch := s.chans.length, conn := conn }).entries.countP (fun e => e.2.conn = some k) =
        s.live k + if conn = some k then 1 else 0 := by
    intro k
    rw [hentries, List.countP_cons, live]
    simp
  refine ⟨h.limits_eq, ?_, fun k => ?_, ?_, fun k => ?_⟩
  · intro id hid
    rcases AList.mem_insert _ |>.mp hid with rfl | hid
    · exact Nat.le_refl _
    · exact Nat.le_succ_of_le (h.ids id hid)
  · rw [connCount, getD_incConn, live, hlive, h.counters k]
    split <;> simp
  · rw [hentries, List.length_cons]
    omega
  · rw [live, hlive]
    have hcap := h.connCap k
    split
    next heq =>
      have hlt := hconn k heq
      rw [h.counters k, h.limits_eq, hmaxConn] at hlt
      omega
    next => simpa using hcap

theorem Counted.enter (h : Counted limits s) {sub : Nat} {hd : HeadSubscription}
    {call : UnsubscribeCall} (henter : s.enterUnsubscribe sub hd = (s', call)) :
    Counted limits s' := by
  obtain ⟨rfl, _⟩ | ⟨id, hs, hlookup, _, rfl⟩ := enter_cases henter
  · exact h
  have hperm := FinMap.entries_perm_of_lookup hlookup
  have hlive : ∀ k, s.live k = (s.headSubs.erase id).entries.countP (fun e => e.2.conn = some k) +
      if hs.conn = some k then 1 else 0 := by
    intro k
    rw [live, hperm.countP_eq, List.countP_cons]
    simp
  have hpos : ∀ k, hs.conn = some k → 0 < s.connCount k := by
    intro k heq
    rw [h.counters k, hlive k, if_pos heq]
    omega
  refine ⟨h.limits_eq, ?_, fun k => ?_, ?_, fun k => ?_⟩
  · intro id' hid'
    exact h.ids id' (AList.mem_erase.mp hid').2
  · rw [connCount, getD_decConn _ _ hpos, h.counters k, hlive k, live]
    split <;> simp
  · have hlen := hperm.length_eq
    have hcap := h.globalCap
    rw [hlen, List.length_cons] at hcap
    dsimp only
    omega
  · have hcap := h.connCap k
    rw [hlive k] at hcap
    dsimp only [live]
    omega

/-- The other critical sections do not touch the tables. -/
theorem Counted.of_eq (h : Counted limits s) (hlimits : s'.limits = s.limits)
    (hsubs : s'.headSubs = s.headSubs) (hconns : s'.connSubs = s.connSubs)
    (hnext : s'.nextHeadID = s.nextHeadID) : Counted limits s' := by
  obtain ⟨hlimitsEq, hids, hcounters, hglobal, hconn⟩ := h
  simp only [IdsBelow, connCount, live] at hids hcounters hconn
  rw [← hlimits] at hlimitsEq
  rw [← hsubs] at hids hcounters hglobal hconn
  rw [← hnext] at hids
  rw [← hconns] at hcounters
  exact ⟨hlimitsEq, hids, hcounters, hglobal, hconn⟩

theorem Counted.close (h : Counted limits s) : Counted limits s.close := by
  rw [Heads.close]
  split
  next => exact h
  next =>
    refine ⟨h.limits_eq, ?_, fun conn => rfl, Int.le_max_left .., fun conn => Int.le_max_left ..⟩
    intro id hid
    exact absurd hid (AList.notMem_empty id)

theorem Counted.step (h : Counted limits s) (hstep : Heads.Step s s') : Counted limits s' := by
  cases hstep with
  | subscribe hsub => exact (h.subscribe hsub).of_eq rfl rfl rfl rfl
  | refused hsub => exact h.subscribe hsub
  | unsubscribe => exact h.of_eq rfl rfl rfl rfl
  | lock hcalls hsub henter => exact (h.enter henter).of_eq rfl rfl rfl rfl
  | closeChan hcalls => exact h.of_eq rfl rfl rfl rfl
  | leave hcalls hsub => exact h.of_eq rfl rfl rfl rfl
  | fanOut b =>
      obtain ⟨_, hsubs, hconns, hlimits, hnext⟩ :=
        offer_channels (s := s) b fun ch hch => List.mem_append_left _ hch
      exact h.of_eq hlimits hsubs hconns hnext
  | receive hchan hbuf => exact h.of_eq rfl rfl rfl rfl
  | close => exact h.close

theorem Reachable.counted (h : Reachable limits s) : Counted limits s := by
  induction h with
  | new =>
      refine ⟨rfl, ?_, fun conn => rfl, Int.le_max_left .., fun conn => Int.le_max_left ..⟩
      intro id hid
      exact absurd hid (AList.notMem_empty id)
  | step _ hstep ih => exact ih.step hstep

/-- Every interleaving is a run over channels with one owner. -/
theorem Reachable.safe (h : Reachable limits s) : Channels.Safe s.log := by
  have hrun : Relation.ReflTransGen Channels.Step ⟨0, [], []⟩ s.channels := by
    induction h with
    | new => exact .refl
    | step h hstep ih => exact ih.trans (hstep.channels h.counted.ids)
  exact Channels.safe_of_run hrun

/-- In every interleaving a channel is closed at most once and nothing is sent on it, or offered
to it, after that.  The counters are those of the live subscribers, within both caps.  A cap
below zero is a cap of zero. -/
theorem Reachable.closed_once_and_counted (h : Reachable limits s) :
    (∀ pre post ch, s.log = pre ++ .close ch :: post →
      .close ch ∉ post ∧ ∀ b, .send ch b ∉ post ∧ .drop ch b ∉ post) ∧
    (∀ conn, s.connCount conn = s.live conn) ∧
    (s.headSubs.entries.length : Int) ≤ max 0 limits.maxSubscriptionsGlobal ∧
    ∀ conn, (s.live conn : Int) ≤ max 0 limits.maxSubscriptionsPerConn := by
  have hcounted := h.counted
  refine ⟨fun pre post ch hlog => ?_, hcounted.counters, hcounted.globalCap, hcounted.connCap⟩
  have hafter := h.safe.close_unique hlog
  refine ⟨fun hclose => hafter _ hclose rfl, fun b => ⟨fun hsend => ?_, fun hdrop => ?_⟩⟩
  · exact hafter _ hsend rfl
  · exact hafter _ hdrop rfl

/-- Two calls of `Unsubscribe` for one subscription.  Both pass the lock before the first one
closes the channel. -/
def racingUnsubscribe : Heads Nat where
  limits := defaultLimits
  nextHeadID := 1
  chans := [{ cap := 16 }]
  log := [.close 0]
  subs := [{ api := false, id := 1, ch := 0 }]
  calls := [.returned, .leaving 0]

theorem reachable_racingUnsubscribe : Reachable defaultLimits racingUnsubscribe := by
  have hnew : Reachable defaultLimits { limits := defaultLimits : Heads Nat } := .new
  have hlive := hnew.step (.subscribe (rfl : subscribeHeadsForConn _ (some 7) 0 = (_, .ok _)))
  have htwo := (hlive.step (@Step.unsubscribe _ _ _ 0 _ rfl rfl)).step (@Step.unsubscribe _ _ _ 0 _ rfl rfl)
  have hfirst := htwo.step (.lock (l := []) rfl rfl rfl)
  have hsecond := hfirst.step (.lock (l := [.closing 0 0]) rfl rfl rfl)
  have hclosed := hsecond.step (.closeChan (l := []) rfl)
  have hleft := hclosed.step (.leave (l := []) rfl rfl)
  exact hleft

theorem racingUnsubscribe_closed_once :
    Reachable defaultLimits racingUnsubscribe ∧
      ∀ pre post ch, racingUnsubscribe.log = pre ++ .close ch :: post → .close ch ∉ post :=
  ⟨reachable_racingUnsubscribe, fun pre post ch hlog =>
    (reachable_racingUnsubscribe.closed_once_and_counted.1 pre post ch hlog).1⟩

end Heads

end Gateway
