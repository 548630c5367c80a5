import Mathlib.Data.List.DropRight
import FabricXEvm.Gateway.LiveFilters
import FabricXEvm.Lib.FinMap

/-!
# Polling filters

`FilterAPI` keeps a buffer for each installed filter.  `Handle` appends what a block has for
it and cuts the buffer to the most recent entries, `GetFilterChanges` drains it.  Everything
happens under one lock, so an interleaving is a sequence of operations.

`Tracked` is what a filter is for its owner: a deadline, and the blocks handled since it was
installed or last polled.  It follows from the operations on that filter alone, the handled
blocks and the sweeps (`track_eq_track_filter`).  After any run each poll returns what the
tracked blocks have for the filter (`getFilterChanges_eq`).
-/

open Blocks Common

namespace Gateway

/-! ## The API -/

/-- `Type` of a polling filter; `UnknownSubscription` is never installed. -/
inductive Subscription where
  | logs
  | blocks
deriving DecidableEq, Repr

structure Filter where
  typ : Subscription
  expiresAt : Int
  hashes : List Bytes := []
  crit : FilterCriteria := {}
  logs : List TypesLog := []

structure Limits where
  maxFilters : Int
  maxSubscriptionsPerConn : Int
  maxSubscriptionsGlobal : Int
  maxFilterBuffer : Int
deriving DecidableEq, Repr

def defaultLimits : Limits where
  maxFilters := 1000
  maxSubscriptionsPerConn := 1
  maxSubscriptionsGlobal := 1000
  maxFilterBuffer := 1024

def mergePartialLimits (l : Limits) : Limits :=
  if l.maxFilterBuffer ≤ 0 then { l with maxFilterBuffer := defaultLimits.maxFilterBuffer } else l

/-- The part of `FilterAPI` that polling uses. -/
structure FilterAPI where
  timeout : Int
  limits : Limits
  filters : FinMap Bytes Filter := ∅

def newFilterAPI (timeout : Int) (limits : Limits) : FilterAPI where
  timeout := timeout
  limits := mergePartialLimits limits

/-- What the RPC methods answer. -/
inductive Reply where
  | id (id : Bytes)
  | limitExceeded (max : Int)
  | removed (existed : Bool)
  | hashes (hashes : List Bytes)
  | logs (logs : List TypesLog)
  /-- `GetFilterLogs` goes on with a query of the criteria, without the lock. -/
  | query (crit : FilterCriteria)
  | notFound
  | done

def appendCapped {α : Type} (buf items : List α) (max : Int) : List α :=
  let buf := buf ++ items
  if 0 < max ∧ max < buf.length then buf.drop (buf.length - max.toNat) else buf

namespace FilterAPI

/-- `deliverOneLocked`, for a filter that is there. -/
def deliverOne (capN : Int) (hash : Bytes) (blockLogs : List TypesLog) (f : Filter) : Filter :=
  match f.typ with
  | .blocks => { f with hashes := appendCapped f.hashes [hash] capN }
  | .logs =>
    let matched := f.crit.matchLogs blockLogs
    if 0 < matched.length then { f with logs := appendCapped f.logs matched capN } else f

/-- The first part of `Handle`.  The logs are extracted once, if a filter needs them. -/
def handle (d : Decoders) (api : FilterAPI) (b : Block) : FilterAPI :=
  let needLogs := api.filters.entries.any fun e => e.2.typ = .logs
  let blockLogs := if needLogs then logsFromBlock d b else []
  let hash := bytesToHash b.hash
  { api with
    filters := api.filters.alterAll fun f =>
      some (deliverOne api.limits.maxFilterBuffer hash blockLogs f) }

/-- `install`; the id is the one `rpc.NewID` returned. -/
def install (api : FilterAPI) (typ : Subscription) (crit : FilterCriteria) (id : Bytes)
    (now : Int) : FilterAPI × Reply :=
  if api.limits.maxFilters ≤ api.filters.entries.length then
    (api, .limitExceeded api.limits.maxFilters)
  else
    let f : Filter := { typ := typ, expiresAt := now + api.timeout }
    let f := match typ with
      | .blocks => f
      | .logs => { f with crit := crit }
    ({ api with filters := api.filters.insert id f }, .id id)

def newBlockFilter (api : FilterAPI) (id : Bytes) (now : Int) : FilterAPI × Reply :=
  api.install .blocks {} id now

def newFilter (api : FilterAPI) (crit : FilterCriteria) (id : Bytes) (now : Int) :
    FilterAPI × Reply :=
  api.install .logs crit id now

def uninstallFilter (api : FilterAPI) (id : Bytes) : FilterAPI × Reply :=
  match api.filters.lookup id with
  | none => (api, .removed false)
  | some _ => ({ api with filters := api.filters.erase id }, .removed true)

/-- `resetDeadlineLocked`; `none` if the deadline has passed and the filter is gone. -/
def resetDeadline (api : FilterAPI) (id : Bytes) (f : Filter) (now : Int) :
    FilterAPI × Option Filter :=
  if now < f.expiresAt then
    let f := { f with expiresAt := now + api.timeout }
    ({ api with filters := api.filters.insert id f }, some f)
  else ({ api with filters := api.filters.erase id }, none)

def getFilterChanges (api : FilterAPI) (id : Bytes) (now : Int) : FilterAPI × Reply :=
  match api.filters.lookup id with
  | none => (api, .notFound)
  | some f =>
    match api.resetDeadline id f now with
    | (api, none) => (api, .notFound)
    | (api, some f) =>
      match f.typ with
      | .blocks =>
          ({ api with filters := api.filters.insert id { f with hashes := [] } }, .hashes f.hashes)
      | .logs => ({ api with filters := api.filters.insert id { f with logs := [] } }, .logs f.logs)

/-- The locked part of `GetFilterLogs`. -/
def getFilterLogs (api : FilterAPI) (id : Bytes) (now : Int) : FilterAPI × Reply :=
  match api.filters.lookup id with
  | none => (api, .notFound)
  | some f =>
    if f.typ ≠ .logs then (api, .notFound)
    else
      match api.resetDeadline id f now with
      | (api, none) => (api, .notFound)
      | (api, some f) => (api, .query f.crit)

/-- A tick of `timeoutLoop`. -/
def sweep (api : FilterAPI) (now : Int) : FilterAPI :=
  { api with
    filters := api.filters.alterAll fun f => if now < f.expiresAt then some f else none }

/-- What happens under the lock. -/
inductive Op where
  | newBlockFilter (id : Bytes) (now : Int)
  | newFilter (crit : FilterCriteria) (id : Bytes) (now : Int)
  | uninstallFilter (id : Bytes)
  | getFilterChanges (id : Bytes) (now : Int)
  | getFilterLogs (id : Bytes) (now : Int)
  | handle (b : Block)
  | sweep (now : Int)

def exec (d : Decoders) (api : FilterAPI) : Op → FilterAPI × Reply
  | .newBlockFilter id now => api.newBlockFilter id now
  | .newFilter crit id now => api.newFilter crit id now
  | .uninstallFilter id => api.uninstallFilter id
  | .getFilterChanges id now => api.getFilterChanges id now
  | .getFilterLogs id now => api.getFilterLogs id now
  | .handle b => (api.handle d b, .done)
  | .sweep now => (api.sweep now, .done)

/-- A sequence of operations: the API afterwards, and what was done and answered. -/
def run (d : Decoders) (api : FilterAPI) : List Op → FilterAPI × List (Op × Reply)
  | [] => (api, [])
  | op :: ops =>
      let (api, reply) := api.exec d op
      let (api, trace) := api.run d ops
      (api, (op, reply) :: trace)

/-! ## A filter alone -/

/-- A filter as its owner sees it. -/
structure Tracked where
  typ : Subscription
  crit : FilterCriteria := {}
  expiresAt : Int
  /-- The blocks handled since it was installed or last polled. -/
  blocks : List Block := []

/-- The filter is used before its deadline, or is gone. -/
def Tracked.renew (timeout now : Int) (t : Tracked) : Option Tracked :=
  if now < t.expiresAt then some { t with expiresAt := now + timeout } else none

def trackStep (timeout : Int) (id : Bytes) (t : Option Tracked) : Op × Reply → Option Tracked
  | (.newBlockFilter id' now, .id _) =>
      if id' = id then some { typ := .blocks, expiresAt := now + timeout } else t
  | (.newFilter crit id' now, .id _) =>
      if id' = id then some { typ := .logs, crit := crit, expiresAt := now + timeout } else t
  | (.uninstallFilter id', _) => if id' = id then none else t
  | (.getFilterChanges id' now, _) =>
      if id' = id then (t.bind (Tracked.renew timeout now)).map ({ · with blocks := [] }) else t
  | (.getFilterLogs id' now, _) =>
      if id' = id then t.bind fun t => if t.typ = .logs then t.renew timeout now else some t else t
  | (.handle b, _) => t.map fun t => { t with blocks := t.blocks ++ [b] }
  | (.sweep now, _) => t.filter fun t => now < t.expiresAt
  | _ => t

def track (timeout : Int) (id : Bytes) (trace : List (Op × Reply)) : Option Tracked :=
  trace.foldl (trackStep timeout id) none

/-- The hashes of the tracked blocks, or their logs that the criteria accept: the most recent
`cap` of them. -/
def Tracked.changes (d : Decoders) (cap : Nat) (t : Tracked) : Reply :=
  match t.typ with
  | .blocks => .hashes ((t.blocks.map fun b => bytesToHash b.hash).rtake cap)
  | .logs => .logs ((t.blocks.flatMap fun b => t.crit.matchLogs (logsFromBlock d b)).rtake cap)

/-- What a poll answers for a tracked filter. -/
def answer (d : Decoders) (cap : Nat) (now : Int) : Option Tracked → Reply
  | none => .notFound
  | some t => if now < t.expiresAt then t.changes d cap else .notFound

/-- An operation on the filter, or one on all of them. -/
def Op.concerns (id : Bytes) : Op → Bool
  | .newBlockFilter id' _ => id' = id
  | .newFilter _ id' _ => id' = id
  | .uninstallFilter id' => id' = id
  | .getFilterChanges id' _ => id' = id
  | .getFilterLogs id' _ => id' = id
  | .handle _ => true
  | .sweep _ => true

/-- Operations on other filters do not matter. -/
theorem trackStep_of_other {timeout : Int} {id : Bytes} {t : Option Tracked} {e : Op × Reply}
    (h : e.1.concerns id = false) : trackStep timeout id t e = t := by
  obtain ⟨op, reply⟩ := e
  cases op with
  | newBlockFilter id' now =>
      have hne : id' ≠ id := of_decide_eq_false h
      cases reply <;> simp [trackStep, hne]
  | newFilter crit id' now =>
      have hne : id' ≠ id := of_decide_eq_false h
      cases reply <;> simp [trackStep, hne]
  | uninstallFilter id' => exact if_neg (of_decide_eq_false h)
  | getFilterChanges id' now => exact if_neg (of_decide_eq_false h)
  | getFilterLogs id' now => exact if_neg (of_decide_eq_false h)
  | handle b => cases h
  | sweep now => cases h

theorem track_eq_track_filter (timeout : Int) (id : Bytes) (trace : List (Op × Reply)) :
    track timeout id trace = track timeout id (trace.filter fun e => e.1.concerns id) := by
  unfold track
  generalize (none : Option Tracked) = t
  induction trace generalizing t with
  | nil => rfl
  | cons e trace ih =>
      rw [List.foldl_cons, List.filter_cons]
      cases h : e.1.concerns id with
      | false => rw [trackStep_of_other h, ih, if_neg (by simp)]
      | true => rw [if_pos rfl, List.foldl_cons, ih]

/-! ## Buffers -/

theorem rtake_rtake_append {α : Type} (l items : List α) (n : Nat) :
    (l.rtake n ++ items).rtake n = (l ++ items).rtake n := by
  simp only [List.rtake_eq_reverse_take_reverse, List.reverse_append, List.reverse_reverse,
    List.take_append, List.take_take]
  congr 3
  omega

theorem appendCapped_eq {α : Type} (buf items : List α) {max : Int} (h : 0 < max) :
    appendCapped buf items max = (buf ++ items).rtake max.toNat := by
  unfold appendCapped
  dsimp only
  split
  next => rfl
  next hle => rw [List.rtake, Nat.sub_eq_zero_of_le (by omega), List.drop_zero]

theorem maxFilterBuffer_pos (limits : Limits) : 0 < (mergePartialLimits limits).maxFilterBuffer := by
  unfold mergePartialLimits
  split
  next => exact (by decide : 0 < defaultLimits.maxFilterBuffer)
  next h => exact Int.not_le.mp h

/-- The filter of the API that a tracked one stands for. -/
def Tracked.filter (d : Decoders) (cap : Nat) (t : Tracked) : Filter :=
  match t.typ with
  | .blocks =>
      { typ := .blocks, expiresAt := t.expiresAt, crit := t.crit
        hashes := (t.blocks.map fun b => bytesToHash b.hash).rtake cap }
  | .logs =>
      { typ := .logs, expiresAt := t.expiresAt, crit := t.crit
        logs := (t.blocks.flatMap fun b => t.crit.matchLogs (logsFromBlock d b)).rtake cap }

/-- Delivering a block adds it to the tracked ones. -/
theorem deliverOne_filter {d : Decoders} {max : Int} (hmax : 0 < max) (b : Block) (t : Tracked) :
    deliverOne max (bytesToHash b.hash) (logsFromBlock d b) (t.filter d max.toNat) =
      { t with blocks := t.blocks ++ [b] }.filter d max.toNat := by
  obtain ⟨typ, crit, expiresAt, blocks⟩ := t
  cases typ with
  | blocks =>
      simp only [deliverOne, Tracked.filter, appendCapped_eq _ _ hmax, rtake_rtake_append,
        List.map_append, List.map_cons, List.map_nil]
  | logs =>
      simp only [deliverOne, Tracked.filter, appendCapped_eq _ _ hmax, rtake_rtake_append,
        List.flatMap_append, List.flatMap_cons, List.flatMap_nil, List.append_nil]
      split
      next => rfl
      next hnone =>
        rw [List.length_eq_zero_iff.mp (Nat.eq_zero_of_not_pos hnone), List.append_nil]

theorem lookup_handle (d : Decoders) (api : FilterAPI) (b : Block) (id : Bytes) :
    (api.handle d b).filters.lookup id = (api.filters.lookup id).map
      (deliverOne api.limits.maxFilterBuffer (bytesToHash b.hash) (logsFromBlock d b)) := by
  rw [handle, FinMap.lookup_alterAll]
  cases h : api.filters.lookup id with
  | none => rfl
  | some f =>
      rw [Option.bind_some, Option.map_some]
      cases htyp : f.typ with
      | blocks => simp only [deliverOne, htyp]
      | logs =>
          have hneed : api.filters.entries.any (fun e => e.2.typ = .logs) = true :=
            List.any_eq_true.mpr ⟨⟨id, f⟩, AList.mem_lookup_iff.mp h, decide_eq_true htyp⟩
          rw [if_pos hneed]

/-! ## What a poll answers -/

section

variable {d : Decoders} {timeout : Int} {limits : Limits} {id : Bytes} {api : FilterAPI}
  {t : Option Tracked}

/-- The most recent entries that a buffer keeps. -/
def bufferCap (limits : Limits) : Nat := (mergePartialLimits limits).maxFilterBuffer.toNat

/-- The API holds what is tracked for the filter. -/
structure Follows (d : Decoders) (timeout : Int) (limits : Limits) (id : Bytes) (api : FilterAPI)
    (t : Option Tracked) : Prop where
  timeout_eq : api.timeout = timeout
  limits_eq : api.limits = mergePartialLimits limits
  lookup_eq : api.filters.lookup id = t.map (Tracked.filter d (bufferCap limits))

theorem Follows.install (h : Follows d timeout limits id api t) (typ : Subscription)
    (crit : FilterCriteria) (hcrit : typ = .blocks → crit = {}) (id' : Bytes) (now : Int) :
    Follows d timeout limits id (api.install typ crit id' now).1
      (match (api.install typ crit id' now).2 with
        | .id _ =>
            if id' = id then some { typ := typ, crit := crit, expiresAt := now + timeout } else t
        | _ => t) := by
  unfold FilterAPI.install
  split
  next => exact h
  next =>
    refine ⟨h.timeout_eq, h.limits_eq, ?_⟩
    dsimp only
    rw [FinMap.lookup_insert_if, h.timeout_eq]
    by_cases heq : id' = id
    · rw [if_pos heq.symm, if_pos heq]
      cases typ with
      | blocks => simp [Tracked.filter, hcrit]
      | logs => simp [Tracked.filter]
    · rw [if_neg (Ne.symm heq), if_neg heq, h.lookup_eq]

theorem Follows.uninstallFilter (h : Follows d timeout limits id api t) (id' : Bytes) :
    Follows d timeout limits id (api.uninstallFilter id').1 (if id' = id then none else t) := by
  unfold FilterAPI.uninstallFilter
  split
  next hnone =>
    refine ⟨h.timeout_eq, h.limits_eq, ?_⟩
    split
    next heq =>
      rw [← heq, hnone]
      rfl
    next => exact h.lookup_eq
  next =>
    refine ⟨h.timeout_eq, h.limits_eq, ?_⟩
    dsimp only
    rw [FinMap.lookup_erase_if]
    by_cases heq : id' = id
    · rw [if_pos heq.symm, if_pos heq]
      rfl
    · rw [if_neg (Ne.symm heq), if_neg heq, h.lookup_eq]

/-- A filter that is used is renewed, or gone. -/
theorem Follows.resetDeadline {t : Tracked} (h : Follows d timeout limits id api (some t))
    (now : Int) :
    Follows d timeout limits id (api.resetDeadline id (t.filter d (bufferCap limits)) now).1
        (t.renew timeout now) ∧
      (api.resetDeadline id (t.filter d (bufferCap limits)) now).2 =
        (t.renew timeout now).map (Tracked.filter d (bufferCap limits)) := by
  obtain ⟨typ, crit, expiresAt, blocks⟩ := t
  have hexp : (Tracked.filter d (bufferCap limits) ⟨typ, crit, expiresAt, blocks⟩).expiresAt =
      expiresAt := by cases typ <;> rfl
  have hrenew : { Tracked.filter d (bufferCap limits) ⟨typ, crit, expiresAt, blocks⟩ with
      expiresAt := now + timeout } =
        Tracked.filter d (bufferCap limits) ⟨typ, crit, now + timeout, blocks⟩ := by
    cases typ <;> rfl
  unfold FilterAPI.resetDeadline Tracked.renew
  rw [hexp, h.timeout_eq, hrenew]
  split
  next => exact ⟨⟨rfl, h.limits_eq, AList.lookup_insert _⟩, rfl⟩
  next => exact ⟨⟨rfl, h.limits_eq, AList.lookup_erase id _⟩, rfl⟩

/-- Operations on other ids leave the filter as it is. -/
theorem Follows.of_lookup_eq (h : Follows d timeout limits id api t) {api' : FilterAPI}
    (htimeout : api'.timeout = api.timeout) (hlimits : api'.limits = api.limits)
    (hlookup : api'.filters.lookup id = api.filters.lookup id) :
    Follows d timeout limits id api' t :=
  ⟨htimeout.trans h.timeout_eq, hlimits.trans h.limits_eq, hlookup.trans h.lookup_eq⟩

theorem resetDeadline_other {id' : Bytes} (hne : id' ≠ id) (api : FilterAPI) (f : Filter)
    (now : Int) :
    (api.resetDeadline id' f now).1.timeout = api.timeout ∧
      (api.resetDeadline id' f now).1.limits = api.limits ∧
      (api.resetDeadline id' f now).1.filters.lookup id = api.filters.lookup id := by
  unfold FilterAPI.resetDeadline
  split
  next => exact ⟨rfl, rfl, AList.lookup_insert_ne hne.symm⟩
  next => exact ⟨rfl, rfl, AList.lookup_erase_ne hne.symm⟩

/-- A poll of the filter answers with what is tracked, and starts over. -/
theorem Follows.getFilterChanges (h : Follows d timeout limits id api t) (now : Int) :
    Follows d timeout limits id (api.getFilterChanges id now).1
        ((t.bind (Tracked.renew timeout now)).map ({ · with blocks := [] })) ∧
      (api.getFilterChanges id now).2 = answer d (bufferCap limits) now t := by
  cases t with
  | none =>
      rw [FilterAPI.getFilterChanges, h.lookup_eq]
      exact ⟨h, rfl⟩
  | some t =>
      obtain ⟨hreset, hfilter⟩ := h.resetDeadline now
      rw [FilterAPI.getFilterChanges, h.lookup_eq, Option.map_some]
      dsimp only
      rw [Option.bind_some, answer]
      generalize hres : api.resetDeadline id (t.filter d (bufferCap limits)) now = res at hreset hfilter
      obtain ⟨api', o⟩ := res
      dsimp only at hreset hfilter
      subst hfilter
      by_cases hlive : now < t.expiresAt
      · rw [Tracked.renew, if_pos hlive] at hreset ⊢
        rw [if_pos hlive]
        obtain ⟨typ, crit, expiresAt, blocks⟩ := t
        cases typ with
        | blocks =>
            refine ⟨⟨hreset.timeout_eq, hreset.limits_eq, ?_⟩, rfl⟩
            simp [Tracked.filter]
        | logs =>
            refine ⟨⟨hreset.timeout_eq, hreset.limits_eq, ?_⟩, rfl⟩
            simp [Tracked.filter]
      · rw [Tracked.renew, if_neg hlive] at hreset ⊢
        rw [if_neg hlive]
        exact ⟨hreset, rfl⟩

theorem Follows.getFilterLogs (h : Follows d timeout limits id api t) (now : Int) :
    Follows d timeout limits id (api.getFilterLogs id now).1
      (t.bind fun t => if t.typ = .logs then t.renew timeout now else some t) := by
  cases t with
  | none =>
      rw [FilterAPI.getFilterLogs, h.lookup_eq]
      exact h
  | some t =>
      obtain ⟨hreset, -⟩ := h.resetDeadline now
      have htyp : (t.filter d (bufferCap limits)).typ = t.typ := by
        unfold Tracked.filter
        split
        next h => exact h.symm
        next h => exact h.symm
      rw [FilterAPI.getFilterLogs, h.lookup_eq, Option.map_some]
      dsimp only
      rw [htyp, Option.bind_some]
      by_cases hlogs : t.typ = .logs
      · rw [if_neg (not_not.mpr hlogs), if_pos hlogs]
        split
        next api' hres =>
          rw [hres] at hreset
          exact hreset
        next api' f hres =>
          rw [hres] at hreset
          exact hreset
      · rw [if_pos hlogs, if_neg hlogs]
        exact h

/-- What a poll or a query of another filter leaves alone. -/
theorem Follows.of_other (h : Follows d timeout limits id api t) {id' : Bytes} (hne : id' ≠ id)
    (now : Int) :
    Follows d timeout limits id (api.getFilterChanges id' now).1 t ∧
      Follows d timeout limits id (api.getFilterLogs id' now).1 t := by
  unfold FilterAPI.getFilterChanges FilterAPI.getFilterLogs
  cases api.filters.lookup id' with
  | none => exact ⟨h, h⟩
  | some f =>
      obtain ⟨htimeout, hlimits, hlookup⟩ := resetDeadline_other hne api f now
      have hreset := h.of_lookup_eq htimeout hlimits hlookup
      dsimp only
      generalize api.resetDeadline id' f now = res at hreset ⊢
      obtain ⟨api', o⟩ := res
      constructor
      · cases o with
        | none => exact hreset
        | some f =>
            dsimp only
            split
            next =>
              exact hreset.of_lookup_eq rfl rfl (AList.lookup_insert_ne hne.symm)
            next =>
              exact hreset.of_lookup_eq rfl rfl (AList.lookup_insert_ne hne.symm)
      · split
        next => exact h
        next =>
          cases o with
          | none => exact hreset
          | some f => exact hreset

theorem Follows.handle (h : Follows d timeout limits id api t) (b : Block) :
    Follows d timeout limits id (api.handle d b)
      (t.map fun t => { t with blocks := t.blocks ++ [b] }) := by
  refine ⟨h.timeout_eq, h.limits_eq, ?_⟩
  rw [lookup_handle, h.lookup_eq, h.limits_eq, Option.map_map, Option.map_map]
  congr 1
  funext t
  exact deliverOne_filter (maxFilterBuffer_pos limits) b t

theorem Follows.sweep (h : Follows d timeout limits id api t) (now : Int) :
    Follows d timeout limits id (api.sweep now) (t.filter fun t => now < t.expiresAt) := by
  refine ⟨h.timeout_eq, h.limits_eq, ?_⟩
  rw [FilterAPI.sweep, FinMap.lookup_alterAll, h.lookup_eq]
  cases t with
  | none => rfl
  | some t =>
      have hexp : (t.filter d (bufferCap limits)).expiresAt = t.expiresAt := by
        unfold Tracked.filter
        split <;> rfl
      rw [Option.map_some, Option.bind_some, hexp, Option.filter_some]
      by_cases hlive : now < t.expiresAt
      · simp [hlive]
      · simp [hlive]

/-- What is tracked follows each operation. -/
theorem Follows.exec (h : Follows d timeout limits id api t) (op : Op) :
    Follows d timeout limits id (api.exec d op).1
      (trackStep timeout id t (op, (api.exec d op).2)) := by
  cases op with
  | newBlockFilter id' now =>
      have hinst := h.install .blocks {} (fun _ => rfl) id' now
      unfold FilterAPI.exec FilterAPI.newBlockFilter trackStep
      cases hreply : (api.install .blocks {} id' now).2 <;> rw [hreply] at hinst <;> exact hinst
  | newFilter crit id' now =>
      have hinst := h.install .logs crit nofun id' now
      unfold FilterAPI.exec FilterAPI.newFilter trackStep
      cases hreply : (api.install .logs crit id' now).2 <;> rw [hreply] at hinst <;> exact hinst
  | uninstallFilter id' => exact h.uninstallFilter id'
  | getFilterChanges id' now =>
      by_cases heq : id' = id
      · subst heq
        simpa [FilterAPI.exec, trackStep] using (h.getFilterChanges now).1
      · simpa [FilterAPI.exec, trackStep, heq] using (h.of_other heq now).1
  | getFilterLogs id' now =>
      by_cases heq : id' = id
      · subst heq
        simpa [FilterAPI.exec, trackStep] using h.getFilterLogs now
      · simpa [FilterAPI.exec, trackStep, heq] using (h.of_other heq now).2
  | handle b => exact h.handle b
  | sweep now => exact h.sweep now

theorem Follows.run (h : Follows d timeout limits id api t) (ops : List Op) :
    Follows d timeout limits id (api.run d ops).1
      ((api.run d ops).2.foldl (trackStep timeout id) t) := by
  induction ops generalizing api t with
  | nil => exact h
  | cons op ops ih => exact ih (h.exec op)

end

/-- After any sequence of operations, a poll of a filter answers with what the blocks handled
since its installation or last poll have for it, and this depends on no operation on another
filter. -/
theorem getFilterChanges_eq (d : Decoders) (timeout : Int) (limits : Limits) (ops : List Op)
    (id : Bytes) (now : Int) :
    let (api, trace) := (newFilterAPI timeout limits).run d ops
    (api.getFilterChanges id now).2 =
        answer d (bufferCap limits) now (track timeout id trace) ∧
      track timeout id trace = track timeout id (trace.filter fun e => e.1.concerns id) := by
  have hnew : Follows d timeout limits id (newFilterAPI timeout limits) none := ⟨rfl, rfl, rfl⟩
  constructor
  · exact ((hnew.run ops).getFilterChanges now).2
  · exact track_eq_track_filter timeout id _

/-- Three blocks for a buffer of two, then one more. -/
example :
    let block (n : UInt8) : Op := .handle { number := n.toNat, hash := List.replicate 32 n }
    let ops : List Op := [.newBlockFilter [1] 0, block 1, block 2, block 3, .getFilterChanges [1] 1,
      block 4, .getFilterChanges [1] 2]
    (((newFilterAPI 5 { defaultLimits with maxFilterBuffer := 2 }).run sampleDecoders ops).2.filterMap
      fun e => match e.2 with
        | .hashes hashes => some (hashes.map List.head?)
        | _ => none) = [[some 2, some 3], [some 4]] := by
  rfl

end FilterAPI

end Gateway
