import FabricXEvm.Baseline.Diff
import FabricXEvm.Lib.Loops

/-!
# Results of Go tests

`parseGoTestJSON` reads the event stream of `go test -json`.  A test has the status of its last
terminal event, and a test without one is a failure.  Of the tree of subtests, which is read off
the slashes in their names, only the leaves are reported.

So a failure is reported exactly if a leaf failed or did not end (`exists_fail_iff`).  A parent
that fails by itself, after its subtests passed, is not reported.
-/

namespace Baseline

open Blocks

/-! ## Events -/

inductive Action where
  | output
  | pass
  | fail
  | skip
  /-- Any other text. -/
  | other
deriving DecidableEq, Repr

/-- The status that an action ends a test with. -/
def Action.terminal : Action → Option Status
  | .pass => some .pass
  | .fail => some .fail
  | .skip => some .skip
  | _ => none

structure GoTestEvent where
  action : Action
  /-- Empty for an event of the package. -/
  test : Bytes
  output : Bytes := []
deriving DecidableEq, Repr

/-- What is used of the Go library. -/
structure GoLib where
  /-- `bytes.TrimSpace` and `strings.TrimSpace`. -/
  trimSpace : Bytes → Bytes
  /-- `json.Unmarshal` into an event. -/
  unmarshal : Bytes → Except Bytes GoTestEvent

inductive GoTestError where
  | parse (err : Bytes)
  /-- `bufio.ErrTooLong`. -/
  | tooLong
deriving DecidableEq, Repr

/-- The buffer of the scanner. -/
def maxTokenSize : Nat := 16 * 1024 * 1024

/-- The parts of a byte string between line breaks. -/
def splitLines : Bytes → List Bytes
  | [] => [[]]
  | c :: cs =>
      if c = 10 then [] :: splitLines cs
      else
        match splitLines cs with
        | [] => [[c]]
        | l :: ls => (c :: l) :: ls

/-- `bufio.ScanLines`, without its `dropCR`: no empty line after the last line break. -/
def scanLines (data : Bytes) : List Bytes :=
  let lines := splitLines data
  if lines.getLast? = some [] then lines.dropLast else lines

def dropCR (line : Bytes) : Bytes := if line.getLast? = some 13 then line.dropLast else line

/-! ## Parsing -/

structure TestInfo where
  status : Option Status := none
  output : Bytes := []
deriving DecidableEq, Repr

structure TestInfos where
  infos : FinMap Bytes TestInfo := ∅
  order : List Bytes := []

def TestInfo.add (info : TestInfo) (ev : GoTestEvent) : TestInfo :=
  match ev.action with
  | .output => { info with output := info.output ++ ev.output }
  | .pass => { info with status := some .pass }
  | .fail => { info with status := some .fail }
  | .skip => { info with status := some .skip }
  | .other => info

def TestInfos.add (s : TestInfos) (ev : GoTestEvent) : TestInfos :=
  if ev.test = [] then s
  else
    match s.infos.lookup ev.test with
    | some info => { s with infos := s.infos.insert ev.test (info.add ev) }
    | none =>
        { infos := s.infos.insert ev.test (TestInfo.add {} ev), order := s.order ++ [ev.test] }

/-- The event of a line; a blank line has none. -/
def decodeLine (go : GoLib) (line : Bytes) : Except GoTestError (Option GoTestEvent) :=
  if maxTokenSize ≤ line.length then .error .tooLong
  else
    let line := go.trimSpace (dropCR line)
    if line = [] then .ok none
    else
      match go.unmarshal line with
      | .ok ev => .ok (some ev)
      | .error err => .error (.parse err)

def scanLine (go : GoLib) (s : TestInfos) (line : Bytes) : Except GoTestError TestInfos := do
  match ← decodeLine go line with
  | none => return s
  | some ev => return s.add ev

/-- The names that end before a slash of this one. -/
def ancestors (name : Bytes) : List Bytes :=
  (List.range name.length).filterMap fun i =>
    if name[i]? = some 47 then some (name.take i) else none

/-- `cleanGoTestOutput`: the lines of the output that are not blank and no banner. -/
def cleanGoTestOutput (go : GoLib) (raw : Bytes) : Bytes :=
  let kept := ((splitLines raw).map go.trimSpace).filter fun line =>
    line ≠ [] ∧ ¬ (ascii "=== ").isPrefixOf line ∧ ¬ (ascii "--- ").isPrefixOf line
  (kept.intersperse [10]).flatten

def didNotComplete : String :=
  "test did not complete (no pass/fail/skip event — binary may have crashed)"

def toResult (go : GoLib) (name : Bytes) (info : TestInfo) : Result :=
  match info.status with
  | none => { id := name, status := .fail, message := didNotComplete.toUTF8.toList }
  | some .fail => { id := name, status := .fail, message := cleanGoTestOutput go info.output }
  | some status => { id := name, status := status }

def parseGoTestJSON (go : GoLib) (data : Bytes) : Except GoTestError (List Result) := do
  let s ← (scanLines data).foldlM (scanLine go) {}
  let hasChildren := s.order.flatMap ancestors
  return (s.order.filter (· ∉ hasChildren)).map fun name =>
    toResult go name ((s.infos.lookup name).getD {})

/-! ## What is read off a stream -/

/-- The events of a stream. -/
def eventsOf (go : GoLib) (data : Bytes) : List GoTestEvent :=
  (scanLines data).filterMap fun line => (decodeLine go line).toOption.join

theorem scan_eq {go : GoLib} {data : Bytes} {s : TestInfos}
    (h : (scanLines data).foldlM (scanLine go) {} = .ok s) :
    s = (eventsOf go data).foldl TestInfos.add {} := by
  refine Except.foldlM_ok (fun done s => s = (done.filterMap fun line =>
    (decodeLine go line).toOption.join).foldl TestInfos.add {}) h rfl ?_
  rintro done s line s' rfl hline
  obtain ⟨ev, hev, hadd⟩ := Except.of_bind_ok hline
  rw [List.filterMap_append, List.foldl_append]
  cases ev with
  | none =>
      cases hadd
      simp [hev, Except.toOption]
  | some ev =>
      cases hadd
      simp [hev, Except.toOption]

def Reported (evs : List GoTestEvent) (name : Bytes) : Prop :=
  name ≠ [] ∧ ∃ ev ∈ evs, ev.test = name

instance (evs : List GoTestEvent) (name : Bytes) : Decidable (Reported evs name) :=
  inferInstanceAs (Decidable (name ≠ [] ∧ ∃ ev ∈ evs, ev.test = name))

/-- The status of the last terminal event of a test. -/
def lastTerminal (evs : List GoTestEvent) (name : Bytes) : Option Status :=
  ((evs.filter (·.test = name)).filterMap (·.action.terminal)).getLast?

theorem lastTerminal_append (evs : List GoTestEvent) (ev : GoTestEvent) (name : Bytes) :
    lastTerminal (evs ++ [ev]) name =
      if ev.test = name then ev.action.terminal.or (lastTerminal evs name)
      else lastTerminal evs name := by
  rw [lastTerminal, List.filter_append, List.filterMap_append]
  by_cases htest : ev.test = name
  · rw [if_pos htest, List.filter_singleton, decide_eq_true htest]
    cases hterm : ev.action.terminal <;> simp [hterm, lastTerminal]
  · simp [htest, lastTerminal]

theorem status_add (info : TestInfo) (ev : GoTestEvent) :
    (info.add ev).status = ev.action.terminal.or info.status := by
  unfold TestInfo.add
  cases ev.action <;> simp [Action.terminal]

/-- The tables hold the tests of the events so far. -/
structure Tracks (evs : List GoTestEvent) (s : TestInfos) : Prop where
  order : ∀ name, name ∈ s.order ↔ Reported evs name
  infos : ∀ name, Reported evs name →
    ∃ info, s.infos.lookup name = some info ∧ info.status = lastTerminal evs name
  unknown : ∀ name, ¬ Reported evs name → s.infos.lookup name = none

theorem reported_append {evs : List GoTestEvent} {ev : GoTestEvent} {name : Bytes} :
    Reported (evs ++ [ev]) name ↔ Reported evs name ∨ ev.test = name ∧ name ≠ [] := by
  simp only [Reported, List.mem_append, List.mem_singleton]
  constructor
  · rintro ⟨hne, e, he | rfl, htest⟩
    · exact .inl ⟨hne, e, he, htest⟩
    · exact .inr ⟨htest, hne⟩
  · rintro (⟨hne, e, he, htest⟩ | ⟨htest, hne⟩)
    · exact ⟨hne, e, .inl he, htest⟩
    · exact ⟨hne, ev, .inr rfl, htest⟩

/-- The entry of the test of an event, new or not. -/
theorem Tracks.lookup_add {evs : List GoTestEvent} {s : TestInfos} (h : Tracks evs s)
    {ev : GoTestEvent} (hne : ev.test ≠ []) : ∃ info,
      info.status = lastTerminal (evs ++ [ev]) ev.test ∧
      (s.add ev).infos = s.infos.insert ev.test info ∧
      ∀ name, name ∈ (s.add ev).order ↔ name ∈ s.order ∨ name = ev.test := by
  rw [TestInfos.add, if_neg hne, lastTerminal_append, if_pos rfl]
  cases hlookup : s.infos.lookup ev.test with
  | some info =>
      have hreported : Reported evs ev.test := by
        by_contra hnot
        rw [h.unknown _ hnot] at hlookup
        cases hlookup
      obtain ⟨info', hinfo', hstatus⟩ := h.infos _ hreported
      obtain rfl : info' = info := Option.some.inj (hinfo'.symm.trans hlookup)
      refine ⟨info'.add ev, by rw [status_add, hstatus], rfl, fun name => ?_⟩
      refine (or_iff_left_of_imp ?_).symm
      rintro rfl
      exact (h.order _).mpr hreported
  | none =>
      have hreported : ¬ Reported evs ev.test := by
        intro hreported
        obtain ⟨info, hinfo, _⟩ := h.infos _ hreported
        rw [hinfo] at hlookup
        cases hlookup
      have hnone : lastTerminal evs ev.test = none := by
        have hempty : evs.filter (·.test = ev.test) = [] := by
          rw [List.filter_eq_nil_iff]
          intro e he
          simpa using fun htest => hreported ⟨hne, e, he, htest⟩
        rw [lastTerminal, hempty]
        rfl
      exact ⟨TestInfo.add {} ev, by rw [status_add, hnone], rfl, fun name => by simp⟩

theorem Tracks.add {evs : List GoTestEvent} {s : TestInfos} (h : Tracks evs s) (ev : GoTestEvent) :
    Tracks (evs ++ [ev]) (s.add ev) := by
  by_cases hne : ev.test = []
  · -- an event of the package
    have hsame : ∀ name, Reported (evs ++ [ev]) name ↔ Reported evs name := by
      intro name
      rw [reported_append]
      refine or_iff_left_of_imp ?_
      rintro ⟨htest, hname⟩
      exact absurd (htest.symm.trans hne) hname
    rw [TestInfos.add, if_pos hne]
    refine ⟨fun name => (h.order name).trans (hsame name).symm, fun name hname => ?_, fun name hname =>
      h.unknown name fun hrep => hname ((hsame name).mpr hrep)⟩
    rw [lastTerminal_append, if_neg fun htest => hname.1 (htest.symm.trans hne)]
    exact h.infos name ((hsame name).mp hname)
  · obtain ⟨info, hstatus, hinfos, horder⟩ := h.lookup_add hne
    refine ⟨fun name => ?_, fun name hname => ?_, fun name hname => ?_⟩
    · rw [horder, h.order, reported_append]
      refine or_congr_right ⟨?_, fun htest => htest.1.symm⟩
      rintro rfl
      exact ⟨rfl, hne⟩
    · rw [hinfos, FinMap.lookup_insert_if]
      by_cases htest : name = ev.test
      · subst htest
        exact ⟨info, if_pos rfl, hstatus⟩
      · rw [if_neg htest, lastTerminal_append, if_neg (Ne.symm htest)]
        exact h.infos name ((reported_append.mp hname).resolve_right fun hev => htest hev.1.symm)
    · rw [reported_append, not_or] at hname
      have htest : name ≠ ev.test := by
        rintro rfl
        exact hname.2 ⟨rfl, hne⟩
      rw [hinfos, FinMap.lookup_insert_if, if_neg htest]
      exact h.unknown name hname.1

theorem tracks_events (evs : List GoTestEvent) : Tracks evs (evs.foldl TestInfos.add {}) := by
  induction evs using List.reverseRecOn with
  | nil => exact ⟨fun name => by simp [Reported], fun name hname => by simp [Reported] at hname,
      fun name _ => rfl⟩
  | append_singleton evs ev ih =>
      rw [List.foldl_append]
      exact ih.add ev

/-! ## Leaves -/

theorem mem_ancestors_iff {x name : Bytes} : x ∈ ancestors name ↔ ∃ rest, name = x ++ 47 :: rest := by
  simp only [ancestors, List.mem_filterMap, List.mem_range]
  constructor
  · rintro ⟨i, hi, h⟩
    split at h
    next hslash =>
      cases h
      refine ⟨name.drop (i + 1), ?_⟩
      have hget : name[i] = 47 := by
        rw [List.getElem?_eq_getElem hi] at hslash
        exact Option.some.inj hslash
      rw [← hget, ← List.drop_eq_getElem_cons hi, List.take_append_drop]
    next => cases h
  · rintro ⟨rest, rfl⟩
    exact ⟨x.length, by simp, by simp⟩

/-- A test that failed or did not end. -/
def Bad (evs : List GoTestEvent) (name : Bytes) : Prop :=
  Reported evs name ∧ (lastTerminal evs name = some .fail ∨ lastTerminal evs name = none)

instance (evs : List GoTestEvent) (name : Bytes) : Decidable (Bad evs name) :=
  inferInstanceAs (Decidable (Reported evs name ∧
    (lastTerminal evs name = some .fail ∨ lastTerminal evs name = none)))

/-- A test without subtests. -/
def Leaf (evs : List GoTestEvent) (name : Bytes) : Prop :=
  Reported evs name ∧ ∀ rest, ¬ Reported evs (name ++ 47 :: rest)

theorem toResult_fail_iff (go : GoLib) (name : Bytes) (info : TestInfo) :
    (toResult go name info).status = .fail ↔ info.status = some .fail ∨ info.status = none := by
  unfold toResult
  split <;> simp_all

/-- The failures that are reported are those of the leaves. -/
theorem exists_fail_iff {go : GoLib} {data : Bytes} {results : List Result}
    (h : parseGoTestJSON go data = .ok results) :
    (∃ r ∈ results, r.status = .fail) ↔
      ∃ name, Leaf (eventsOf go data) name ∧ Bad (eventsOf go data) name := by
  obtain ⟨s, hscan, hresults⟩ := Except.of_bind_ok h
  have htracks : Tracks (eventsOf go data) s := by
    rw [scan_eq hscan]
    exact tracks_events _
  cases hresults
  have hleaf : ∀ name, name ∈ s.order.filter (· ∉ s.order.flatMap ancestors) ↔
      Leaf (eventsOf go data) name := by
    intro name
    rw [List.mem_filter, decide_eq_true_iff, htracks.order, Leaf]
    refine and_congr_right fun _ => ?_
    simp only [List.mem_flatMap, mem_ancestors_iff, htracks.order]
    constructor
    · rintro hnot rest hrep
      exact hnot ⟨_, hrep, rest, rfl⟩
    · rintro hnot ⟨name', hrep, rest, rfl⟩
      exact hnot rest hrep
  constructor
  · rintro ⟨r, hr, hfail⟩
    obtain ⟨name, hname, rfl⟩ := List.mem_map.mp hr
    have hleafName := (hleaf name).mp hname
    obtain ⟨info, hinfo, hstatus⟩ := htracks.infos name hleafName.1
    rw [hinfo, Option.getD_some, toResult_fail_iff, hstatus] at hfail
    exact ⟨name, hleafName, hleafName.1, hfail⟩
  · rintro ⟨name, hleafName, hrep, hbad⟩
    obtain ⟨info, hinfo, hstatus⟩ := htracks.infos name hrep
    refine ⟨_, List.mem_map.mpr ⟨name, (hleaf name).mpr hleafName, rfl⟩, ?_⟩
    rw [hinfo, Option.getD_some, toResult_fail_iff, hstatus]
    exact hbad

/-- A bad run looks bad exactly if a leaf is bad. -/
theorem surfaces_iff {go : GoLib} {data : Bytes} {results : List Result}
    (h : parseGoTestJSON go data = .ok results) :
    ((∃ name, Bad (eventsOf go data) name) → ∃ r ∈ results, r.status = .fail) ↔
      ((∃ name, Bad (eventsOf go data) name) →
        ∃ name, Leaf (eventsOf go data) name ∧ Bad (eventsOf go data) name) := by
  rw [exists_fail_iff h]

/-! ### A subtest passes and its parent fails -/

/-- The text of a string field of a JSON object, if it has no escapes. -/
def stringField (name : Bytes) : Bytes → Bytes
  | [] => []
  | c :: cs =>
      if (name ++ ascii ":\"").isPrefixOf (c :: cs) then
        ((c :: cs).drop (name.length + 2)).takeWhile (· != 34)
      else stringField name cs

/-- The lines that `go test -json` prints, with spaces around them. -/
def plainJSON : GoLib where
  trimSpace line := ((line.dropWhile (· ≤ 32)).reverse.dropWhile (· ≤ 32)).reverse
  unmarshal line :=
    if line.head? = some 123 then
      let action := stringField (ascii "\"Action\"") line
      .ok {
        action :=
          if action = ascii "output" then .output
          else if action = ascii "pass" then .pass
          else if action = ascii "fail" then .fail
          else if action = ascii "skip" then .skip
          else .other
        test := stringField (ascii "\"Test\"") line
        output := stringField (ascii "\"Output\"") line }
    else .error (ascii "invalid character")

/-- A line of `go test -json`. -/
def eventLine (action test : Bytes) : Bytes :=
  ascii "\x7b\"Action\":\"" ++ action ++ ascii "\",\"Test\":\"" ++ test ++ ascii "\"\x7d\n"

/-- A test with two subtests, of which the second one fails. -/
def failingLeaf : Bytes :=
  eventLine (ascii "run") (ascii "T") ++ eventLine (ascii "run") (ascii "T/b") ++
    eventLine (ascii "pass") (ascii "T/b") ++ eventLine (ascii "run") (ascii "T/c") ++
      eventLine (ascii "fail") (ascii "T/c") ++ eventLine (ascii "fail") (ascii "T")

/-- A test whose only subtest passes, and which fails then. -/
def failingParent : Bytes :=
  eventLine (ascii "run") (ascii "T") ++ eventLine (ascii "run") (ascii "T/b") ++
    eventLine (ascii "pass") (ascii "T/b") ++ eventLine (ascii "fail") (ascii "T")

theorem surfaces_failingLeaf :
    ∃ results, parseGoTestJSON plainJSON failingLeaf = .ok results ∧
      ∃ name, Leaf (eventsOf plainJSON failingLeaf) name ∧
        Bad (eventsOf plainJSON failingLeaf) name := by
  have hparse : parseGoTestJSON plainJSON failingLeaf =
      .ok [{ id := ascii "T/b", status := .pass }, { id := ascii "T/c", status := .fail }] := rfl
  have hbad : Bad (eventsOf plainJSON failingLeaf) (ascii "T") := by decide +kernel
  exact ⟨_, hparse, (surfaces_iff hparse).mp (fun _ => ⟨_, .tail _ (.head _), rfl⟩) ⟨_, hbad⟩⟩

theorem failingParent_looks_clean :
    parseGoTestJSON plainJSON failingParent = .ok [{ id := ascii "T/b", status := .pass }] ∧
      Bad (eventsOf plainJSON failingParent) (ascii "T") := by
  have hparse : parseGoTestJSON plainJSON failingParent =
      .ok [{ id := ascii "T/b", status := .pass }] := rfl
  exact ⟨hparse, by decide +kernel⟩

end Baseline
