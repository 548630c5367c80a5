import FabricXEvm.Storage.PebbleKVS
import Mathlib.Data.Prod.Lex

/-!
# The layout of the keys

A reader of an old height seeks one entry of the history: the first key under the prefix of a
state key, from the complement of the height on.  Length prefixes keep the entries of different
state keys apart, also if one key starts with the other, and complemented numbers put the newest
entry first.  So what it finds is the last version of the state key that is not after the height
(`HistoryOf.findsLatest`).

`StoreKey` lists the keys of a database.  Different ones have different bytes
(`StoreKey.bytes_inj`).
-/

namespace Storage

open Blocks BigEndian

theorem mem_newIterator {db : Database} {front start k v : Bytes} :
    (k, v) ∈ newIterator db front start ↔ db.get k = some v ∧ front ++ start ≤ k ∧ front <+: k := by
  rw [newIterator, OrderedStore.mem_scan, List.isPrefixOf_iff_prefix]

/-! ## History entries -/

/-- A record kept as history: its state key, block and transaction. -/
structure HistoryEntry where
  key : Bytes
  block : Nat
  tx : Nat
deriving DecidableEq, Repr

namespace HistoryEntry

def bytes (e : HistoryEntry) : Bytes := historyKey e.key e.block e.tx

/-- The versions of a key are ordered by block, and then by transaction. -/
def version (e : HistoryEntry) : Nat ×ₗ Nat := toLex (e.block, e.tx)

/-- A key shorter than 2^32 bytes, and 64-bit numbers. -/
structure Fits (e : HistoryEntry) : Prop where
  key : e.key.length < 2 ^ 32
  block : e.block < 2 ^ 64
  tx : e.tx < 2 ^ 64

theorem bytes_inj {e e' : HistoryEntry} (he : e.Fits) (he' : e'.Fits) (h : e.bytes = e'.bytes) :
    e = e' := by
  obtain ⟨key, block, tx⟩ := e
  obtain ⟨rfl, rfl, rfl⟩ := historyKey_inj he.key he'.key he.block he'.block he.tx he'.tx h
  rfl

/-- Later versions of a key come first. -/
theorem bytes_le {e e' : HistoryEntry} (he : e.Fits) (he' : e'.Fits) (hkey : e'.key = e.key) :
    e.bytes ≤ e'.bytes ↔ e'.version ≤ e.version := by
  rw [← not_lt, ← not_lt (a := e.version), bytes, bytes, hkey,
    historyKey_lt he'.block he.block he'.tx he.tx, version, version, Prod.Lex.toLex_lt_toLex]

end HistoryEntry

/-- The database has these history entries, and no other key with their first byte. -/
structure HistoryOf (db : Database) (H : Set HistoryEntry) : Prop where
  fits : ∀ e ∈ H, e.Fits
  stored : ∀ {k}, k.head? = some prefixHistory → ((db.get k).isSome ↔ ∃ e ∈ H, k = e.bytes)

/-- What a seek from the height `n` finds is the last version of the key that is not after it. -/
def FindsLatest (db : Database) (H : Set HistoryEntry) (key : Bytes) (n : Nat) : Prop :=
  match (newIterator db (historyPrefix key) (u64be (not64 n))).head? with
  | some (k, v) => db.get k = some v ∧ ∃ e ∈ H, k = e.bytes ∧ e.key = key ∧ e.block ≤ n ∧
      ∀ e' ∈ H, e'.key = key → e'.block ≤ n → e'.version ≤ e.version
  | none => ∀ e ∈ H, e.key = key → n < e.block

namespace HistoryOf

variable {db : Database} {H : Set HistoryEntry} {key : Bytes} {n : Nat}

theorem empty : HistoryOf .empty ∅ where
  fits e he := nomatch he
  stored _ := by simp

/-- One more entry is stored. -/
theorem put (h : HistoryOf db H) {e : HistoryEntry} (he : e.Fits) (v : Bytes) :
    HistoryOf (db.put e.bytes v) (insert e H) where
  fits := by
    rintro e' (rfl | he')
    · exact he
    · exact h.fits e' he'
  stored {k} hk := by
    rw [OrderedStore.get_put, Set.exists_mem_insert]
    split
    next heq => simp [heq]
    next hne => simp [hne, h.stored hk]

/-- A seek visits the versions of the key that are not after the height. -/
theorem mem_seek (h : HistoryOf db H) (hkey : key.length < 2 ^ 32) (hn : n < 2 ^ 64)
    {k v : Bytes} : (k, v) ∈ newIterator db (historyPrefix key) (u64be (not64 n)) ↔
      db.get k = some v ∧ ∃ e ∈ H, k = e.bytes ∧ e.key = key ∧ e.block ≤ n := by
  rw [mem_newIterator]
  refine and_congr_right fun hget => ?_
  constructor
  · rintro ⟨hle, rest, rfl⟩
    obtain ⟨e, he, hk⟩ := (h.stored rfl).mp (by rw [hget]; rfl)
    obtain ⟨-, rfl, -⟩ := keyForState_append_inj hkey (h.fits e he).key hk
    rw [hk] at hle
    exact ⟨e, he, hk, rfl, (le_historyKey hn (h.fits e he).block).mp hle⟩
  · rintro ⟨e, he, rfl, rfl, hle⟩
    exact ⟨(le_historyKey hn (h.fits e he).block).mpr hle, List.prefix_append _ _⟩

theorem findsLatest (h : HistoryOf db H) (hkey : key.length < 2 ^ 32) (hn : n < 2 ^ 64) :
    FindsLatest db H key n := by
  -- every version not after the height is visited
  have hvisit : ∀ e ∈ H, e.key = key → e.block ≤ n →
      ∃ v, (e.bytes, v) ∈ newIterator db (historyPrefix key) (u64be (not64 n)) := by
    intro e he hekey hle
    obtain ⟨v, hv⟩ := Option.isSome_iff_exists.mp ((h.stored rfl).mpr ⟨e, he, rfl⟩)
    exact ⟨v, (h.mem_seek hkey hn).mpr ⟨hv, e, he, rfl, hekey, hle⟩⟩
  unfold FindsLatest
  split
  next k v hhead =>
    obtain ⟨hmem, hfirst⟩ := db.head?_scan.mp hhead
    obtain ⟨hget, e, he, rfl, hekey, hle⟩ := (h.mem_seek hkey hn).mp hmem
    refine ⟨hget, e, he, rfl, hekey, hle, fun e' he' hekey' hle' => ?_⟩
    obtain ⟨v', hv'⟩ := hvisit e' he' hekey' hle'
    exact (HistoryEntry.bytes_le (h.fits e he) (h.fits e' he') (hekey'.trans hekey.symm)).mp
      (hfirst _ hv')
  next hnone =>
    intro e he hekey
    rw [← not_le]
    intro hle
    obtain ⟨v, hv⟩ := hvisit e he hekey hle
    rw [List.head?_eq_none_iff.mp hnone] at hv
    cases hv

end HistoryOf

/-! ## Kinds of keys -/

/-- The keys of a database.  An index key is of the block that superseded a history entry. -/
inductive StoreKey where
  | data (key : Bytes)
  | history (e : HistoryEntry)
  | index (block : Nat) (e : HistoryEntry)
  | metaBlock
  | metaOldest
deriving DecidableEq, Repr

namespace StoreKey

def bytes : StoreKey → Bytes
  | .data key => dataKey key
  | .history e => e.bytes
  | .index block e => indexKey block e.bytes
  | .metaBlock => metaBlockKey
  | .metaOldest => metaOldestKey

def Fits : StoreKey → Prop
  | .data key => key.length < 2 ^ 32
  | .history e => e.Fits
  | .index block e => block < 2 ^ 64 ∧ e.Fits
  | .metaBlock => True
  | .metaOldest => True

/-- The first byte. -/
def kind : StoreKey → UInt8
  | .data _ => prefixData
  | .history _ => prefixHistory
  | .index _ _ => prefixIndex
  | .metaBlock => prefixMeta
  | .metaOldest => prefixMeta

theorem head?_bytes (k : StoreKey) : k.bytes.head? = some k.kind := by
  cases k <;> rfl

theorem kind_eq {k k' : StoreKey} (h : k.bytes = k'.bytes) : k.kind = k'.kind := by
  have hhead := k.head?_bytes
  rw [h, k'.head?_bytes] at hhead
  exact (Option.some.inj hhead).symm

/-- Keys never collide: neither those of different kinds nor those of one kind. -/
theorem bytes_inj {k k' : StoreKey} (hk : k.Fits) (hk' : k'.Fits) (h : k.bytes = k'.bytes) :
    k = k' := by
  have hkind := kind_eq h
  cases k with
  | data key =>
      cases k' with
      | data key' => rw [dataKey_inj hk hk' h]
      | _ => exact absurd hkind (of_decide_eq_false rfl)
  | history e =>
      cases k' with
      | history e' => rw [HistoryEntry.bytes_inj hk hk' h]
      | _ => exact absurd hkind (of_decide_eq_false rfl)
  | index block e =>
      cases k' with
      | index block' e' =>
          obtain ⟨rfl, hbytes⟩ := indexKey_inj hk.1 hk'.1 h
          rw [HistoryEntry.bytes_inj hk.2 hk'.2 hbytes]
      | _ => exact absurd hkind (of_decide_eq_false rfl)
  | metaBlock =>
      cases k' with
      | metaBlock => rfl
      | metaOldest => exact absurd h (by decide)
      | _ => exact absurd hkind (of_decide_eq_false rfl)
  | metaOldest =>
      cases k' with
      | metaBlock => exact absurd h (by decide)
      | metaOldest => rfl
      | _ => exact absurd hkind (of_decide_eq_false rfl)

end StoreKey

/-- The layout: a seek finds the last version of its key at a height, keys never collide, and
index keys are in the order of their blocks and parse back. -/
theorem keyLayout_sound :
    (∀ {db H}, HistoryOf db H → ∀ {key : Bytes}, key.length < 2 ^ 32 → ∀ {n}, n < 2 ^ 64 →
      FindsLatest db H key n) ∧
    Set.InjOn StoreKey.bytes { k | k.Fits } ∧
    (∀ {block block' : Nat} (e e' : HistoryEntry), block < block' → block' < 2 ^ 64 →
      (StoreKey.index block e).bytes < (StoreKey.index block' e').bytes) ∧
    ∀ {block : Nat} (e : HistoryEntry), block < 2 ^ 64 →
      parseIndexKey (StoreKey.index block e).bytes = .ok (block, e.bytes) := by
  refine ⟨fun h _ hkey _ hn => h.findsLatest hkey hn, fun k hk k' hk' h => ?_, ?_, ?_⟩
  · exact StoreKey.bytes_inj hk hk' h
  · intro block block' e e' hlt hblock'
    exact indexKey_lt e.bytes e'.bytes hlt hblock'
  · intro block e hblock
    exact parseIndexKey_indexKey hblock (List.cons_ne_nil _ _)

/-- Two versions of one block, and a version of a key that starts with theirs. -/
def threeVersions : Database :=
  ((OrderedStore.empty.put (HistoryEntry.mk [1] 3 0).bytes []).put
    (HistoryEntry.mk [1] 3 2).bytes []).put (HistoryEntry.mk [1, 3] 4 0).bytes []

theorem historyOf_threeVersions :
    HistoryOf threeVersions {⟨[1, 3], 4, 0⟩, ⟨[1], 3, 2⟩, ⟨[1], 3, 0⟩} := by
  have h := ((HistoryOf.empty.put (e := ⟨[1], 3, 0⟩) ⟨by decide, by decide, by decide⟩ []).put
    (e := ⟨[1], 3, 2⟩) ⟨by decide, by decide, by decide⟩ []).put
    (e := ⟨[1, 3], 4, 0⟩) ⟨by decide, by decide, by decide⟩ []
  rwa [insert_empty_eq] at h

theorem threeVersions_at_four :
    FindsLatest threeVersions {⟨[1, 3], 4, 0⟩, ⟨[1], 3, 2⟩, ⟨[1], 3, 0⟩} [1] 4 ∧
      (newIterator threeVersions (historyPrefix [1]) (u64be (not64 4))).head? =
        some ((HistoryEntry.mk [1] 3 2).bytes, []) :=
  ⟨keyLayout_sound.1 historyOf_threeVersions (by decide) (by decide), by decide +kernel⟩

end Storage
