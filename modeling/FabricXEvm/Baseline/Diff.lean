import FabricXEvm.Blocks
import FabricXEvm.Lib.FinMap

/-!
# Baselines of known failures

The tool compares the results of a test run with a baseline, a list of the failures that are
expected.  `diff` says which failures are regressions and which entries are stale, and
`reconcile` drops the stale entries and adds one for each regression.

The same run against the new baseline is clean unless an entry was dropped that it still needs
(`regressions_reconcile_iff`).  Entries are dropped by id.  So an id that fails in one file and
passes in another loses the entry that covers the failure, and a pattern entry goes with a
stale entry that has its label.
-/

namespace Baseline

open Blocks

/-! ## Results and entries -/

inductive Status where
  | pass
  | fail
  | skip
deriving DecidableEq, Repr

structure Result where
  id : Bytes
  status : Status
  message : Bytes := []
  file : Bytes := []
deriving DecidableEq, Repr

structure Entry where
  id : Bytes
  cause : Bytes := []
  note : Bytes := []
  flaky : Bool := false
  idPattern : Bytes := []
  messagePattern : Bytes := []
deriving DecidableEq, Repr

def Entry.isPattern (e : Entry) : Bool := e.idPattern ≠ [] ∨ e.messagePattern ≠ []

structure DiffResult where
  regressions : List Result := []
  stale : List Entry := []
  expected : List (Result × Entry) := []
  /-- Without a result if the test did not run. -/
  quarantined : List (Option Result × Entry) := []
deriving DecidableEq, Repr

/-- The status of an id in another file. -/
structure Inconsistent where
  id : Bytes
  before : Status
  after : Status
deriving DecidableEq, Repr

/-- The loop of `loadResults` over the results of all files. -/
def loadResult (acc : FinMap Bytes Result × List Result) (r : Result) :
    Except Inconsistent (FinMap Bytes Result × List Result) :=
  let (seen, all) := acc
  match seen.lookup r.id with
  | none => .ok (seen.insert r.id r, all ++ [r])
  | some prev =>
      if prev.status = r.status ∧ prev.message = r.message then .ok (seen, all)
      else if prev.file ≠ [] ∧ r.file ≠ [] ∧ prev.file ≠ r.file then .ok (seen, all ++ [r])
      else .error { id := r.id, before := prev.status, after := r.status }

def loadResults (parsed : List (List Result)) : Except Inconsistent (List Result) :=
  (parsed.flatten.foldlM loadResult (∅, [])).map Prod.snd

/-! ## Comparing -/

/-- `regexp.Compile`, with `MatchString` of what it returns. -/
abbrev Regexp := Bytes → Option (Bytes → Bool)

structure CompiledPattern where
  entry : Entry
  id : Bytes → Bool
  message : Bytes → Bool

def compile (re : Regexp) (e : Entry) : Option CompiledPattern :=
  if e.isPattern then do
    let id ← re e.idPattern
    let message ← re e.messagePattern
    return { entry := e, id := id, message := message }
  else none

def compilePatterns (re : Regexp) (baseline : List Entry) : List CompiledPattern :=
  baseline.filterMap (compile re)

def matchPattern (patterns : List CompiledPattern) (r : Result) : Option Entry :=
  (patterns.find? fun p => p.id r.id && p.message r.message).map (·.entry)

/-- The entries that name a test. -/
def literal (baseline : List Entry) : List Entry := baseline.filter fun e => !e.isPattern

/-- The entry of each id; the last one counts. -/
def byID (entries : List Entry) : FinMap Bytes Entry :=
  entries.foldl (fun m e => m.insert e.id e) ∅

/-- What the `switch` of `Diff` finds. -/
inductive Verdict where
  | quarantined (e : Entry)
  | expected (e : Entry)
  | regression
  | stale (e : Entry)
  | fine
deriving DecidableEq, Repr

def judge (entries : FinMap Bytes Entry) (patterns : List CompiledPattern) (r : Result) :
    Verdict :=
  match entries.lookup r.id with
  | some entry =>
      if entry.flaky then .quarantined entry
      else if r.status = .fail then .expected entry
      else .stale entry
  | none =>
      if r.status = .fail then
        match matchPattern patterns r with
        | some pe => .quarantined pe
        | none => .regression
      else .fine

def addResult (verdict : Result → Verdict) (out : DiffResult) (r : Result) : DiffResult :=
  match verdict r with
  | .quarantined e => { out with quarantined := out.quarantined ++ [(some r, e)] }
  | .expected e => { out with expected := out.expected ++ [(r, e)] }
  | .regression => { out with regressions := out.regressions ++ [r] }
  | .stale e => { out with stale := out.stale ++ [e] }
  | .fine => out

/-- An entry whose test may not have run. -/
def addEntry (seen : List Bytes) (out : DiffResult) (e : Entry) : DiffResult :=
  if e.id ∈ seen then out
  else if e.flaky then { out with quarantined := out.quarantined ++ [(none, e)] }
  else { out with stale := out.stale ++ [e] }

def diff (re : Regexp) (results : List Result) (baseline : List Entry) : DiffResult :=
  let entries := byID (literal baseline)
  let patterns := compilePatterns re baseline
  let out := results.foldl (addResult (judge entries patterns)) {}
  (literal baseline).foldl (addEntry (results.map (·.id))) out

/-! ## Updating -/

def isSpace (c : UInt8) : Bool := c = 9 ∨ c = 10 ∨ c = 12 ∨ c = 13 ∨ c = 32

/-- The signature `^the method (\S+) does not exist/is not available$`. -/
def missingMethod (message : Bytes) : Option Bytes :=
  let before := ascii "the method "
  let after := ascii " does not exist/is not available"
  let name := (message.drop before.length).take (message.length - before.length - after.length)
  if name ≠ [] ∧ !name.any isSpace ∧ message = before ++ name ++ after then some name else none

def inferCause (message : Bytes) : Bytes :=
  match missingMethod message with
  | some name => name
  | none =>
      if (ascii "insufficient funds for gas * price + value").isPrefixOf message then
        ascii "insufficient-funds"
      else []

/-- An entry that has no cause gets one from the message of its failure. -/
def backfill (messageByID : FinMap Bytes Bytes) (e : Entry) : Entry :=
  if e.cause = [] then { e with cause := inferCause ((messageByID.lookup e.id).getD []) } else e

def reconcile (baseline : List Entry) (d : DiffResult) : List Entry :=
  let stale := d.stale.map (·.id)
  let messageByID : FinMap Bytes Bytes :=
    d.expected.foldl (fun m exp => m.insert exp.2.id exp.1.message) ∅
  (baseline.filter fun e => e.id ∉ stale).map (backfill messageByID) ++
    d.regressions.map fun r => { id := r.id, cause := inferCause r.message }

/-! ## What a comparison finds -/

variable {re : Regexp} {results : List Result} {baseline : List Entry}

/-- The entry that counts for an id. -/
def entryFor (baseline : List Entry) (id : Bytes) : Option Entry :=
  ((literal baseline).filter (·.id = id)).getLast?

theorem lookup_byID (id : Bytes) : (byID (literal baseline)).lookup id = entryFor baseline id := by
  rw [byID, FinMap.lookup_foldl_insert, entryFor, AList.lookup_empty, Option.or_none]

def Listed (baseline : List Entry) (id : Bytes) : Prop := ∃ e ∈ literal baseline, e.id = id

theorem entryFor_eq_none_iff {id : Bytes} : entryFor baseline id = none ↔ ¬ Listed baseline id := by
  rw [entryFor, List.getLast?_eq_none_iff, List.filter_eq_nil_iff, Listed]
  simp

theorem listed_of_entryFor {id : Bytes} {e : Entry} (h : entryFor baseline id = some e) :
    e ∈ literal baseline ∧ e.id = id := by
  have hmem := List.mem_of_getLast? h
  simpa using hmem

/-- A pattern entry that takes a failure. -/
def Matches (re : Regexp) (e : Entry) (r : Result) : Prop :=
  e.isPattern = true ∧ ∃ id message, re e.idPattern = some id ∧
    re e.messagePattern = some message ∧ id r.id = true ∧ message r.message = true

theorem compile_eq_some_iff {e : Entry} {p : CompiledPattern} :
    compile re e = some p ↔ e.isPattern = true ∧ re e.idPattern = some p.id ∧
      re e.messagePattern = some p.message ∧ p.entry = e := by
  obtain ⟨entry, id, message⟩ := p
  unfold compile
  split
  next hpattern =>
    simp only [hpattern, Option.bind_eq_bind, Option.bind_eq_some_iff, Option.pure_def,
      Option.some.injEq, CompiledPattern.mk.injEq, true_and]
    constructor
    · rintro ⟨_, hid, _, hmessage, rfl, rfl, rfl⟩
      exact ⟨hid, hmessage, rfl⟩
    · rintro ⟨hid, hmessage, rfl⟩
      exact ⟨id, hid, message, hmessage, rfl, rfl, rfl⟩
  next hpattern => simp [hpattern]

theorem matchPattern_eq_none_iff {r : Result} :
    matchPattern (compilePatterns re baseline) r = none ↔ ∀ e ∈ baseline, ¬ Matches re e r := by
  rw [matchPattern, Option.map_eq_none_iff, List.find?_eq_none]
  constructor
  · rintro h e he ⟨hpattern, id, message, hid, hmessage, hmatch, hmatch'⟩
    have hcompile : compile re e = some ⟨e, id, message⟩ :=
      compile_eq_some_iff.mpr ⟨hpattern, hid, hmessage, rfl⟩
    exact h _ (List.mem_filterMap.mpr ⟨e, he, hcompile⟩) (by simp [hmatch, hmatch'])
  · intro h p hp hmatch
    obtain ⟨e, he, hcompile⟩ := List.mem_filterMap.mp hp
    obtain ⟨hpattern, hid, hmessage, _⟩ := compile_eq_some_iff.mp hcompile
    obtain ⟨hmatch, hmatch'⟩ := Bool.and_eq_true_iff.mp hmatch
    exact h e he ⟨hpattern, p.id, p.message, hid, hmessage, hmatch, hmatch'⟩

theorem regressions_results (verdict : Result → Verdict) (out : DiffResult) :
    (results.foldl (addResult verdict) out).regressions =
      out.regressions ++ results.filter (verdict · = .regression) := by
  induction results generalizing out with
  | nil => simp
  | cons r results ih =>
      rw [List.foldl_cons, ih, List.filter_cons, addResult]
      cases verdict r <;> simp

theorem regressions_entries (seen : List Bytes) (entries : List Entry) (out : DiffResult) :
    (entries.foldl (addEntry seen) out).regressions = out.regressions := by
  induction entries generalizing out with
  | nil => rfl
  | cons e entries ih =>
      rw [List.foldl_cons, ih, addEntry]
      split
      · rfl
      · split <;> rfl

/-- An unlisted failure that no pattern takes. -/
theorem judge_eq_regression_iff {r : Result} :
    judge (byID (literal baseline)) (compilePatterns re baseline) r = .regression ↔
      r.status = .fail ∧ ¬ Listed baseline r.id ∧ ∀ e ∈ baseline, ¬ Matches re e r := by
  rw [judge, lookup_byID, ← entryFor_eq_none_iff, ← matchPattern_eq_none_iff]
  cases entryFor baseline r.id with
  | some e => by_cases hflaky : e.flaky <;> by_cases hfail : r.status = .fail <;> simp [hflaky, hfail]
  | none =>
      cases matchPattern (compilePatterns re baseline) r <;>
        by_cases hfail : r.status = .fail <;> simp [hfail]

theorem mem_regressions {r : Result} :
    r ∈ (diff re results baseline).regressions ↔
      r ∈ results ∧ r.status = .fail ∧ ¬ Listed baseline r.id ∧
        ∀ e ∈ baseline, ¬ Matches re e r := by
  rw [diff, regressions_entries, regressions_results, List.nil_append, List.mem_filter,
    decide_eq_true_iff, judge_eq_regression_iff]

/-! ## What an update drops -/

def Verdict.staleEntry : Verdict → Option Entry
  | .stale e => some e
  | _ => none

theorem stale_results (verdict : Result → Verdict) (out : DiffResult) :
    (results.foldl (addResult verdict) out).stale =
      out.stale ++ results.filterMap fun r => (verdict r).staleEntry := by
  induction results generalizing out with
  | nil => simp
  | cons r results ih =>
      rw [List.foldl_cons, ih, List.filterMap_cons, addResult]
      cases verdict r <;> simp [Verdict.staleEntry]

theorem stale_entries (seen : List Bytes) (entries : List Entry) (out : DiffResult) :
    (entries.foldl (addEntry seen) out).stale =
      out.stale ++ entries.filter fun e => e.id ∉ seen ∧ e.flaky = false := by
  induction entries generalizing out with
  | nil => simp
  | cons e entries ih =>
      rw [List.foldl_cons, ih, List.filter_cons, addEntry]
      by_cases hseen : e.id ∈ seen <;> by_cases hflaky : e.flaky <;> simp [hseen, hflaky]

/-- The ids whose entries an update drops: a test that did not fail, or did not run. -/
def Dropped (results : List Result) (baseline : List Entry) (id : Bytes) : Prop :=
  (∃ e, entryFor baseline id = some e ∧ e.flaky = false ∧
    ∃ r ∈ results, r.id = id ∧ r.status ≠ .fail) ∨
  (∃ e ∈ literal baseline, e.id = id ∧ e.flaky = false ∧ ∀ r ∈ results, r.id ≠ id)

theorem judge_eq_stale_iff {r : Result} {e : Entry} :
    (judge (byID (literal baseline)) (compilePatterns re baseline) r).staleEntry = some e ↔
      entryFor baseline r.id = some e ∧ e.flaky = false ∧ r.status ≠ .fail := by
  rw [judge, lookup_byID]
  cases entryFor baseline r.id with
  | some e' =>
      by_cases hflaky : e'.flaky <;> by_cases hfail : r.status = .fail <;>
        simp [hflaky, hfail, Verdict.staleEntry]
      · rintro rfl
        exact hflaky
      · rintro rfl
        simpa using hflaky
  | none =>
      cases matchPattern (compilePatterns re baseline) r <;>
        by_cases hfail : r.status = .fail <;> simp [hfail, Verdict.staleEntry]

theorem mem_stale_iff {id : Bytes} :
    id ∈ (diff re results baseline).stale.map (·.id) ↔ Dropped results baseline id := by
  rw [diff, stale_entries, stale_results, List.nil_append, List.map_append, List.mem_append]
  refine or_congr ?_ ?_
  · simp only [List.mem_map, List.mem_filterMap, judge_eq_stale_iff]
    constructor
    · rintro ⟨e, ⟨r, hr, hentry, hflaky, hstatus⟩, rfl⟩
      obtain ⟨_, hid⟩ := listed_of_entryFor hentry
      exact ⟨e, hid ▸ hentry, hflaky, r, hr, hid.symm, hstatus⟩
    · rintro ⟨e, hentry, hflaky, r, hr, rfl, hstatus⟩
      exact ⟨e, ⟨r, hr, hentry, hflaky, hstatus⟩, (listed_of_entryFor hentry).2⟩
  · simp only [List.mem_map, List.mem_filter, decide_eq_true_iff, not_exists, not_and]
    constructor
    · rintro ⟨e, ⟨he, hseen, hflaky⟩, rfl⟩
      exact ⟨e, he, rfl, hflaky, hseen⟩
    · rintro ⟨e, he, rfl, hflaky, hseen⟩
      exact ⟨e, ⟨he, hseen, hflaky⟩, rfl⟩

theorem backfill_same (messageByID : FinMap Bytes Bytes) (e : Entry) :
    (backfill messageByID e).id = e.id ∧ (backfill messageByID e).isPattern = e.isPattern ∧
      ∀ r, Matches re (backfill messageByID e) r ↔ Matches re e r := by
  unfold backfill
  split <;> exact ⟨rfl, rfl, fun r => Iff.rfl⟩

/-- The entries after an update. -/
theorem mem_reconcile_iff {e : Entry} :
    e ∈ reconcile baseline (diff re results baseline) ↔
      (∃ e₀ ∈ baseline, ¬ Dropped results baseline e₀.id ∧ backfill (((diff re results
        baseline).expected.foldl (fun m exp => m.insert exp.2.id exp.1.message) ∅)) e₀ = e) ∨
      ∃ r ∈ (diff re results baseline).regressions,
        { id := r.id, cause := inferCause r.message } = e := by
  rw [reconcile, List.mem_append, List.mem_map, List.mem_map]
  simp only [List.mem_filter, decide_eq_true_iff, mem_stale_iff, and_assoc]

theorem listed_reconcile_iff {id : Bytes} :
    Listed (reconcile baseline (diff re results baseline)) id ↔
      Listed baseline id ∧ ¬ Dropped results baseline id ∨
        ∃ r ∈ (diff re results baseline).regressions, r.id = id := by
  simp only [Listed, literal, List.mem_filter, Bool.not_eq_true']
  constructor
  · rintro ⟨e, ⟨he, hliteral⟩, rfl⟩
    rcases mem_reconcile_iff.mp he with ⟨e₀, he₀, hkept, rfl⟩ | ⟨r, hr, rfl⟩
    · obtain ⟨hid, hpattern, _⟩ := @backfill_same re _ e₀
      rw [hid]
      exact .inl ⟨⟨e₀, ⟨he₀, hpattern ▸ hliteral⟩, rfl⟩, hkept⟩
    · exact .inr ⟨r, hr, rfl⟩
  · rintro (⟨⟨e₀, ⟨he₀, hliteral⟩, rfl⟩, hkept⟩ | ⟨r, hr, rfl⟩)
    · obtain ⟨hid, hpattern, _⟩ := @backfill_same re _ e₀
      exact ⟨_, ⟨mem_reconcile_iff.mpr (.inl ⟨e₀, he₀, hkept, rfl⟩), hpattern.trans hliteral⟩, hid⟩
    · exact ⟨_, ⟨mem_reconcile_iff.mpr (.inr ⟨r, hr, rfl⟩), rfl⟩, rfl⟩

theorem matches_reconcile_iff {r : Result} :
    (∃ e ∈ reconcile baseline (diff re results baseline), Matches re e r) ↔
      ∃ e ∈ baseline, Matches re e r ∧ ¬ Dropped results baseline e.id := by
  constructor
  · rintro ⟨e, he, hmatches⟩
    rcases mem_reconcile_iff.mp he with ⟨e₀, he₀, hkept, rfl⟩ | ⟨r', _, rfl⟩
    · exact ⟨e₀, he₀, ((backfill_same _ e₀).2.2 r).mp hmatches, hkept⟩
    · cases hmatches.1
  · rintro ⟨e, he, hmatches, hkept⟩
    exact ⟨_, mem_reconcile_iff.mpr (.inl ⟨e, he, hkept, rfl⟩),
      ((backfill_same _ e).2.2 r).mpr hmatches⟩

/-- What still covers the failures of a run.  A listed one needs its entry, an unlisted one gets
an entry if no pattern takes it.  Each of them may also have a pattern that stays. -/
def StillCovered (re : Regexp) (results : List Result) (baseline : List Entry) : Prop :=
  ∀ r ∈ results, r.status = .fail →
    (Listed baseline r.id ∧ ¬ Dropped results baseline r.id) ∨
    (¬ Listed baseline r.id ∧ ∃ r' ∈ results, r'.id = r.id ∧ r'.status = .fail ∧
      ∀ e ∈ baseline, ¬ Matches re e r') ∨
    ∃ e ∈ baseline, Matches re e r ∧ ¬ Dropped results baseline e.id

/-- A run is clean against the baseline it updated exactly if what it needs was not dropped. -/
theorem regressions_reconcile_iff (re : Regexp) (results : List Result) (baseline : List Entry) :
    (diff re results (reconcile baseline (diff re results baseline))).regressions = [] ↔
      StillCovered re results baseline := by
  have hcovered : ∀ r, (¬ Listed (reconcile baseline (diff re results baseline)) r.id ∧
      ∀ e ∈ reconcile baseline (diff re results baseline), ¬ Matches re e r) ↔
      ¬ (Listed baseline r.id ∧ ¬ Dropped results baseline r.id ∨
        (∃ r' ∈ (diff re results baseline).regressions, r'.id = r.id) ∨
        ∃ e ∈ baseline, Matches re e r ∧ ¬ Dropped results baseline e.id) := by
    intro r
    rw [← matches_reconcile_iff, ← or_assoc, ← listed_reconcile_iff, not_or]
    refine and_congr_right fun _ => ?_
    simp only [not_exists, not_and]
  rw [List.eq_nil_iff_forall_not_mem]
  refine forall_congr' fun r => ?_
  rw [mem_regressions, hcovered r, not_and, not_and, not_not]
  refine imp_congr_right fun _ => imp_congr_right fun _ => ?_
  refine or_congr_right (or_congr_left ?_)
  constructor
  · rintro ⟨r', hr', hid⟩
    obtain ⟨hmem, hfail, hunlisted, hunmatched⟩ := mem_regressions.mp hr'
    exact ⟨hid ▸ hunlisted, r', hmem, hid, hfail, hunmatched⟩
  · rintro ⟨hunlisted, r', hmem, hid, hfail, hunmatched⟩
    exact ⟨r', mem_regressions.mpr ⟨hmem, hfail, hid ▸ hunlisted, hunmatched⟩, hid⟩

/-- A test that two files have, which fails in one of them. -/
def sharedTest : List Result :=
  [{ id := ascii "ERC721 mints", status := .fail, file := ascii "ERC721.test.js" },
    { id := ascii "ERC721 mints", status := .pass, file := ascii "ERC721Enumerable.test.js" }]

/-- Its entry is expected and stale at once.  It is dropped, and the failure becomes a
regression. -/
theorem sharedTest_regresses :
    loadResults [sharedTest] = .ok sharedTest ∧
      (diff (fun _ => none) sharedTest [{ id := ascii "ERC721 mints" }]).regressions = [] ∧
      (diff (fun _ => none) sharedTest (reconcile [{ id := ascii "ERC721 mints" }]
        (diff (fun _ => none) sharedTest [{ id := ascii "ERC721 mints" }]))).regressions ≠ [] := by
  decide

end Baseline
