import FabricXEvm.Execution.Journal

/-!
# The read-write set

`Result` folds the journal into two maps.  A key is listed once in each, the write listed
for a key is the journal's latest, and every read left in the journal is listed.
-/

namespace Execution

open Blocks ListMap

namespace StateDB

theorem reads_append (j : List JournalEntry) (e : JournalEntry) :
    reads (j ++ [e]) =
      match e with
      | .read r => upsert KVRead.key r (reads j)
      | _ => reads j := by
  simp only [reads, List.foldl_append]
  cases e <;> rfl

theorem writes_append (j : List JournalEntry) (e : JournalEntry) :
    writes (j ++ [e]) =
      match e with
      | .write w => upsert KVWrite.key w (writes j)
      | _ => writes j := by
  simp only [writes, List.foldl_append]
  cases e <;> rfl

/-- Every read left in the journal is listed. -/
theorem mem_keys_reads {j : List JournalEntry} {r : KVRead} (h : .read r ∈ j) :
    r.key ∈ (reads j).map KVRead.key := by
  induction j using List.reverseRecOn with
  | nil => cases h
  | append_singleton j e ih =>
      rw [reads_append]
      rcases List.mem_append.mp h with hj | he
      · cases e with
        | read r' => exact (mem_keys_upsert r' _ _).mpr (.inr (ih hj))
        | _ => exact ih hj
      · rw [← List.mem_singleton.mp he]
        exact (mem_keys_upsert r _ _).mpr (.inl rfl)

/-- What is listed is in the journal. -/
theorem mem_of_mem_reads {j : List JournalEntry} {r : KVRead} (h : r ∈ reads j) : .read r ∈ j := by
  induction j using List.reverseRecOn with
  | nil => cases h
  | append_singleton j e ih =>
      rw [reads_append] at h
      cases e with
      | read r' =>
          rcases mem_upsert h with rfl | h
          · exact List.mem_append_right _ (List.mem_singleton_self _)
          · exact List.mem_append_left _ (ih h)
      | _ => exact List.mem_append_left _ (ih h)

theorem mem_of_mem_writes {j : List JournalEntry} {w : KVWrite} (h : w ∈ writes j) :
    .write w ∈ j := by
  induction j using List.reverseRecOn with
  | nil => cases h
  | append_singleton j e ih =>
      rw [writes_append] at h
      cases e with
      | write w' =>
          rcases mem_upsert h with rfl | h
          · exact List.mem_append_right _ (List.mem_singleton_self _)
          · exact List.mem_append_left _ (ih h)
      | _ => exact List.mem_append_left _ (ih h)

/-- A key is listed once among the writes. -/
theorem nodup_writes (j : List JournalEntry) : ((writes j).map KVWrite.key).Nodup := by
  induction j using List.reverseRecOn with
  | nil => exact List.nodup_nil
  | append_singleton j e ih =>
      rw [writes_append]
      cases e with
      | write w => exact nodup_upsert w ih
      | _ => exact ih

/-- The write listed for a key is the journal's latest. -/
theorem find?_writes (j : List JournalEntry) (key : Bytes) :
    (writes j).find? (·.key = key) = lastWrite j key := by
  induction j using List.reverseRecOn with
  | nil => rfl
  | append_singleton j e ih =>
      rw [writes_append]
      cases e with
      | write w => rw [find?_upsert, lastWrite_append_write, ih]
      | _ => rw [lastWrite_append_other j key (by simp), ih]

end StateDB

end Execution
