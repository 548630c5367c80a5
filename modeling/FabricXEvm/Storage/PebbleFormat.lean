import FabricXEvm.Lib.Uvarint
import FabricXEvm.Storage.LightKVS

/-!
# The pebble store's keys and values

Four kinds of keys, told apart by their first byte.  The current record of a state key is
under its data key.  A record that was superseded is under a history key, where block and
transaction are complemented, so that byte order is newest first.  Every history key is
named once more by an index key, in the order of the superseding blocks.  The meta keys hold
the checkpoint and the oldest block history still answers for.

Keys of states shorter than 2^32 bytes determine what they are made of, and a record can be
read back (`decodeRecord_encodeRecord`).
-/

namespace Storage

open Blocks BigEndian

/-! ## Keys -/

def prefixData : UInt8 := 100
def prefixHistory : UInt8 := 104
def prefixIndex : UInt8 := 105
def prefixMeta : UInt8 := 109

def metaBlockKey : Bytes := prefixMeta :: ascii "block"
def metaOldestKey : Bytes := prefixMeta :: ascii "oldest"

def u64be (v : Nat) : Bytes := encode 8 v

/-- The complement of a 64-bit number. -/
def not64 (v : Nat) : Nat := 2 ^ 64 - 1 - v

/-- `keyForState`; the length is cut to 32 bits. -/
def keyForState (kind : UInt8) (fullKey : Bytes) : Bytes :=
  kind :: (encode 4 fullKey.length ++ fullKey)

def dataKey (fullKey : Bytes) : Bytes := keyForState prefixData fullKey

def historyPrefix (fullKey : Bytes) : Bytes := keyForState prefixHistory fullKey

def historyKey (fullKey : Bytes) (block tx : Nat) : Bytes :=
  historyPrefix fullKey ++ (u64be (not64 block) ++ u64be (not64 tx))

def indexKey (block : Nat) (histKey : Bytes) : Bytes :=
  prefixIndex :: (u64be block ++ histKey)

/-- What a read of the store can fail with: a value that does not parse, or a panic in the
parsing of one. -/
inductive PebbleError where
  | corrupt (what : String)
  | panic (what : String)
deriving DecidableEq, Repr

def parseIndexKey (k : Bytes) : Except PebbleError (Nat × Bytes) :=
  if k.length ≤ 1 + 8 then .error (.corrupt "history index key")
  else .ok (decode ((k.drop 1).take 8), k.drop 9)

/-! ## Keys determine their parts -/

theorem u64be_inj {m n : Nat} (hm : m < 2 ^ 64) (hn : n < 2 ^ 64) (h : u64be m = u64be n) :
    m = n :=
  encode_inj hm hn h

@[simp] theorem length_u64be (v : Nat) : (u64be v).length = 8 := length_encode 8 v

theorem decode_u64be {v : Nat} (hv : v < 2 ^ 64) : decode (u64be v) = v := by
  rw [u64be, decode_encode]
  exact Nat.mod_eq_of_lt hv

theorem not64_lt (v : Nat) : not64 v < 2 ^ 64 := by
  unfold not64
  omega

theorem not64_inj {m n : Nat} (hm : m < 2 ^ 64) (hn : n < 2 ^ 64) (h : not64 m = not64 n) :
    m = n := by
  unfold not64 at h
  omega

/-- A state key is a prefix of no other state key of its kind. -/
theorem keyForState_append_inj {kind kind' : UInt8} {k k' x y : Bytes} (hk : k.length < 2 ^ 32)
    (hk' : k'.length < 2 ^ 32) (h : keyForState kind k ++ x = keyForState kind' k' ++ y) :
    kind = kind' ∧ k = k' ∧ x = y := by
  simp only [keyForState, List.cons_append, List.cons.injEq, List.append_assoc] at h
  obtain ⟨hkind, h⟩ := h
  obtain ⟨hlen, h⟩ := List.append_inj h (by rw [length_encode, length_encode])
  have hlen : k.length = k'.length := encode_inj hk hk' hlen
  obtain ⟨rfl, hxy⟩ := List.append_inj h hlen
  exact ⟨hkind, rfl, hxy⟩

theorem dataKey_inj {k k' : Bytes} (hk : k.length < 2 ^ 32) (hk' : k'.length < 2 ^ 32)
    (h : dataKey k = dataKey k') : k = k' :=
  (keyForState_append_inj (x := []) (y := []) hk hk' (congrArg (· ++ []) h)).2.1

theorem historyKey_inj {k k' : Bytes} {b b' t t' : Nat} (hk : k.length < 2 ^ 32)
    (hk' : k'.length < 2 ^ 32) (hb : b < 2 ^ 64) (hb' : b' < 2 ^ 64) (ht : t < 2 ^ 64)
    (ht' : t' < 2 ^ 64) (h : historyKey k b t = historyKey k' b' t') :
    k = k' ∧ b = b' ∧ t = t' := by
  obtain ⟨-, hkey, hrest⟩ := keyForState_append_inj hk hk' h
  obtain ⟨hblock, htx⟩ := List.append_inj hrest (by rw [length_u64be, length_u64be])
  exact ⟨hkey, not64_inj hb hb' (u64be_inj (not64_lt b) (not64_lt b') hblock),
    not64_inj ht ht' (u64be_inj (not64_lt t) (not64_lt t') htx)⟩

theorem indexKey_inj {c c' : Nat} {k k' : Bytes} (hc : c < 2 ^ 64) (hc' : c' < 2 ^ 64)
    (h : indexKey c k = indexKey c' k') : c = c' ∧ k = k' := by
  obtain ⟨hblock, hkey⟩ := List.append_inj (List.cons.inj h).2 (by rw [length_u64be, length_u64be])
  exact ⟨u64be_inj hc hc' hblock, hkey⟩

theorem parseIndexKey_indexKey {c : Nat} {k : Bytes} (hc : c < 2 ^ 64) (hk : k ≠ []) :
    parseIndexKey (indexKey c k) = .ok (c, k) := by
  have hlen : ¬ (indexKey c k).length ≤ 1 + 8 := by
    have := List.length_pos_iff.mpr hk
    simp only [indexKey, List.length_cons, List.length_append, length_u64be]
    omega
  have htake : ((indexKey c k).drop 1).take 8 = u64be c :=
    List.take_left' (length_u64be c)
  have hdrop : (indexKey c k).drop 9 = k := List.drop_left' (length_u64be c)
  rw [parseIndexKey, if_neg hlen, htake, hdrop, decode_u64be hc]

@[simp] theorem head?_dataKey (k : Bytes) : (dataKey k).head? = some prefixData := rfl

/-- Keys of different kinds differ. -/
theorem ne_of_head? {k k' : Bytes} {kind kind' : UInt8} (hk : k.head? = some kind)
    (hk' : k'.head? = some kind') (h : kind ≠ kind') : k ≠ k' := by
  rintro rfl
  exact h (Option.some.inj (hk.symm.trans hk'))

/-! ## Byte order of the keys -/

theorem u64be_lt {m n : Nat} (hm : m < 2 ^ 64) (hn : n < 2 ^ 64) : u64be m < u64be n ↔ m < n :=
  encode_lt hm hn

theorem u64be_not64_lt {m n : Nat} (hm : m < 2 ^ 64) (hn : n < 2 ^ 64) :
    u64be (not64 m) < u64be (not64 n) ↔ n < m := by
  rw [u64be_lt (not64_lt m) (not64_lt n)]
  unfold not64
  omega

/-- History keys of a state are in descending order of block and transaction. -/
theorem historyKey_lt {k : Bytes} {b b' t t' : Nat} (hb : b < 2 ^ 64) (hb' : b' < 2 ^ 64)
    (ht : t < 2 ^ 64) (ht' : t' < 2 ^ 64) :
    historyKey k b t < historyKey k b' t' ↔ b' < b ∨ b' = b ∧ t' < t := by
  have heq : u64be (not64 b) = u64be (not64 b') ↔ b' = b := by
    constructor
    · intro h
      exact (not64_inj hb hb' (u64be_inj (not64_lt b) (not64_lt b') h)).symm
    · rintro rfl
      rfl
  rw [historyKey, historyKey, append_lt_append rfl,
    append_lt_append (by rw [length_u64be, length_u64be]), u64be_not64_lt hb hb', heq,
    u64be_not64_lt ht ht']
  simp

/-- A scan from the complement of a block starts at the records of that block. -/
theorem le_historyKey {k : Bytes} {n b t : Nat} (hn : n < 2 ^ 64) (hb : b < 2 ^ 64) :
    historyPrefix k ++ u64be (not64 n) ≤ historyKey k b t ↔ b ≤ n := by
  have hlt : historyKey k b t < historyPrefix k ++ u64be (not64 n) ↔ n < b := by
    conv_lhs => rw [historyKey, ← List.append_nil (u64be (not64 n))]
    rw [append_lt_append rfl, append_lt_append (by rw [length_u64be, length_u64be]),
      u64be_not64_lt hb hn]
    simp
  rw [← not_lt, hlt, not_lt]

/-- Index keys are in the order of their blocks. -/
theorem indexKey_lt {c c' : Nat} (k k' : Bytes) (h : c < c') (hc' : c' < 2 ^ 64) :
    indexKey c k < indexKey c' k' := by
  rw [indexKey, indexKey, List.cons_lt_cons_iff,
    append_lt_append (by rw [length_u64be, length_u64be])]
  exact .inr ⟨rfl, .inl ((u64be_lt (h.trans hc') hc').mpr h)⟩

theorem le_of_indexKey_lt {c c' : Nat} {k k' : Bytes} (hc : c < 2 ^ 64)
    (h : indexKey c k < indexKey c' k') : c ≤ c' := by
  by_contra hlt
  exact absurd h (indexKey_lt k' k (not_le.mp hlt) hc).asymm

/-! ## Records

The `record` of the source has the fields of a `ValueVersion`. -/

def flagIsDelete : UInt8 := 1
def flagValueNonNil : UInt8 := 2

def flagsOf (r : ValueVersion) : UInt8 :=
  (if r.isDelete then flagIsDelete else 0) ||| (if r.value.isSome then flagValueNonNil else 0)

/-- A length and that many bytes. -/
def lengthPrefixed (bs : Bytes) : Bytes := Uvarint.encode bs.length ++ bs

/-- `encodeRecord`. -/
def encodeRecord (r : ValueVersion) : Bytes :=
  flagsOf r :: (Uvarint.encode r.blockNum ++ (Uvarint.encode r.txNum ++
    (Uvarint.encode r.version ++ (lengthPrefixed r.txID ++
      match r.value with
      | some value => lengthPrefixed value
      | none => []))))

/-- Read a number at `pos`; the new position comes with it. -/
def readUvarint (raw : Bytes) (pos : Nat) (what : String) : Except PebbleError (Nat × Nat) :=
  match Uvarint.decode (raw.drop pos) with
  | some (x, n) => .ok (x, pos + n)
  | none => .error (.corrupt what)

/-- Read `len` bytes at `pos`.  The end is computed in signed 64-bit arithmetic, so a huge
length can make it come before the start, and then there is a panic. -/
def readBytes (raw : Bytes) (pos len : Nat) (what fault : String) : Except PebbleError Bytes :=
  let stop := Int.bmod (pos + len) (2 ^ 64)
  if (raw.length : Int) < stop then .error (.corrupt what)
  else if stop < pos then .error (.panic fault)
  else .ok ((raw.drop pos).take (stop.toNat - pos))

/-- The fields of a record, after its flags. -/
def decodeFields (raw : Bytes) (flags : UInt8) : Except PebbleError ValueVersion := do
  let (blockNum, pos) ← readUvarint raw 1 "block num"
  let (txNum, pos) ← readUvarint raw pos "tx num"
  let (version, pos) ← readUvarint raw pos "version"
  let (txIDLen, pos) ← readUvarint raw pos "txid length"
  let txID ← readBytes raw pos txIDLen "txid overruns value" "slice bounds out of range"
  let pos := pos + txIDLen
  let value ←
    if flags &&& flagValueNonNil ≠ 0 then do
      let (valLen, pos) ← readUvarint raw pos "value length"
      -- the copy is allocated before the bytes are sliced
      let value ← readBytes raw pos valLen "value overruns value" "makeslice: len out of range"
      pure (some value)
    else pure none
  return { blockNum, txNum, version, value, isDelete := flags &&& flagIsDelete ≠ 0, txID }

/-- `decodeRecord`. -/
def decodeRecord : Bytes → Except PebbleError ValueVersion
  | [] => .error (.corrupt "empty value")
  | flags :: rest => decodeFields (flags :: rest) flags

/-- A record whose numbers fit in 64 bits and whose encoding fits in memory. -/
structure RecordFits (r : ValueVersion) : Prop where
  blockNum : r.blockNum < 2 ^ 64
  txNum : r.txNum < 2 ^ 64
  version : r.version < 2 ^ 64
  length : (encodeRecord r).length < 2 ^ 63

theorem readUvarint_append (front : Bytes) {raw rest : Bytes} {n : Nat} (what : String)
    (hn : n < 2 ^ 64) (hraw : raw = front ++ (Uvarint.encode n ++ rest)) :
    readUvarint raw front.length what = .ok (n, (front ++ Uvarint.encode n).length) := by
  rw [readUvarint, hraw, List.drop_left, Uvarint.decode_encode hn, List.length_append]

theorem readBytes_append (front : Bytes) {raw bs rest : Bytes} (what fault : String)
    (hlen : raw.length < 2 ^ 63) (hraw : raw = front ++ (bs ++ rest)) :
    readBytes raw front.length bs.length what fault = .ok bs := by
  have hle : front.length + bs.length ≤ raw.length := by
    rw [hraw, List.length_append, List.length_append]
    omega
  have hstop : Int.bmod (front.length + bs.length) (2 ^ 64) = front.length + bs.length := by
    apply Int.bmod_eq_of_le
    · omega
    · omega
  have htake : ((front.length : Int) + bs.length).toNat - front.length = bs.length := by omega
  have hdrop : raw.drop front.length = bs ++ rest := by rw [hraw, List.drop_left]
  unfold readBytes
  rw [hstop]
  dsimp only
  rw [if_neg (by omega), if_neg (by omega), htake, hdrop, List.take_left]

theorem flagsOf_isDelete (r : ValueVersion) :
    decide (flagsOf r &&& flagIsDelete ≠ 0) = r.isDelete := by
  unfold flagsOf
  cases r.isDelete <;> cases r.value.isSome <;> decide

theorem flagsOf_value (r : ValueVersion) :
    flagsOf r &&& flagValueNonNil ≠ 0 ↔ r.value.isSome = true := by
  unfold flagsOf
  cases r.isDelete <;> cases r.value.isSome <;> decide

theorem bind_ok {ε α β : Type} (a : α) (f : α → Except ε β) : (Except.ok a >>= f) = f a := by
  simp only [bind, Except.bind]

theorem decodeRecord_of_head {raw : Bytes} {flags : UInt8} (h : raw.head? = some flags) :
    decodeRecord raw = decodeFields raw flags := by
  cases raw with
  | nil => cases h
  | cons b rest =>
      cases h
      rfl

/-- A record that was written is read back, with nil and empty values kept apart. -/
theorem decodeRecord_encodeRecord {r : ValueVersion} (h : RecordFits r) :
    decodeRecord (encodeRecord r) = .ok r := by
  have hlen := h.length
  have htxID : r.txID.length < 2 ^ 64 := by
    simp only [encodeRecord, lengthPrefixed, List.length_cons, List.length_append] at hlen
    omega
  -- the strings before each field
  obtain ⟨f₁, hf₁⟩ : ∃ f : Bytes, f = [flagsOf r] := ⟨_, rfl⟩
  obtain ⟨f₂, hf₂⟩ : ∃ f : Bytes, f = f₁ ++ Uvarint.encode r.blockNum := ⟨_, rfl⟩
  obtain ⟨f₃, hf₃⟩ : ∃ f : Bytes, f = f₂ ++ Uvarint.encode r.txNum := ⟨_, rfl⟩
  obtain ⟨f₄, hf₄⟩ : ∃ f : Bytes, f = f₃ ++ Uvarint.encode r.version := ⟨_, rfl⟩
  obtain ⟨f₅, hf₅⟩ : ∃ f : Bytes, f = f₄ ++ Uvarint.encode r.txID.length := ⟨_, rfl⟩
  obtain ⟨f₆, hf₆⟩ : ∃ f : Bytes, f = f₅ ++ r.txID := ⟨_, rfl⟩
  generalize hraw : encodeRecord r = raw at hlen ⊢
  have hraw : raw = f₆ ++ (match r.value with
      | some value => lengthPrefixed value
      | none => []) := by
    simp [← hraw, encodeRecord, lengthPrefixed, hf₁, hf₂, hf₃, hf₄, hf₅, hf₆]
  have h₁ : readUvarint raw f₁.length "block num" = .ok (r.blockNum, f₂.length) :=
    hf₂ ▸ readUvarint_append f₁ _ h.blockNum (by simpa [hf₂, hf₃, hf₄, hf₅, hf₆] using hraw)
  have h₂ : readUvarint raw f₂.length "tx num" = .ok (r.txNum, f₃.length) :=
    hf₃ ▸ readUvarint_append f₂ _ h.txNum (by simpa [hf₃, hf₄, hf₅, hf₆] using hraw)
  have h₃ : readUvarint raw f₃.length "version" = .ok (r.version, f₄.length) :=
    hf₄ ▸ readUvarint_append f₃ _ h.version (by simpa [hf₄, hf₅, hf₆] using hraw)
  have h₄ : readUvarint raw f₄.length "txid length" = .ok (r.txID.length, f₅.length) :=
    hf₅ ▸ readUvarint_append f₄ _ htxID (by simpa [hf₅, hf₆] using hraw)
  have h₅ : readBytes raw f₅.length r.txID.length "txid overruns value"
      "slice bounds out of range" = .ok r.txID :=
    readBytes_append f₅ _ _ hlen (by simpa [hf₆] using hraw)
  have hpos : f₅.length + r.txID.length = f₆.length := by rw [hf₆, List.length_append]
  have hdec : decodeRecord raw = decodeFields raw (flagsOf r) :=
    decodeRecord_of_head (by rw [hraw, hf₆, hf₅, hf₄, hf₃, hf₂, hf₁]; rfl)
  have hone : f₁.length = 1 := by rw [hf₁]; rfl
  rw [hdec, decodeFields, ← hone, h₁, bind_ok]
  dsimp only
  rw [h₂, bind_ok]
  dsimp only
  rw [h₃, bind_ok]
  dsimp only
  rw [h₄, bind_ok]
  dsimp only
  rw [h₅, bind_ok, hpos]
  cases hv : r.value with
  | none =>
      rw [if_neg (by rw [flagsOf_value, hv]; decide), pure_bind, flagsOf_isDelete, ← hv]
      rfl
  | some value =>
      rw [hv] at hraw
      have hvalue : value.length < 2 ^ 64 := by
        rw [hraw] at hlen
        simp only [lengthPrefixed, List.length_append] at hlen
        omega
      have h₆ := readUvarint_append f₆ "value length" hvalue hraw
      have hend : raw = f₆ ++ Uvarint.encode value.length ++ (value ++ []) := by
        rw [hraw, List.append_nil, List.append_assoc]
        rfl
      have h₇ := readBytes_append _ "value overruns value" "makeslice: len out of range" hlen hend
      rw [if_pos (by rw [flagsOf_value, hv]; rfl), h₆, bind_ok]
      dsimp only
      rw [h₇, bind_ok, pure_bind, flagsOf_isDelete, ← hv]
      rfl

end Storage
