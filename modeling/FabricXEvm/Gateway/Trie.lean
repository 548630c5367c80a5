import FabricXEvm.Execution.Writes
import FabricXEvm.Lib.Assign

/-!
# The state trie

The gateway keeps the world state in a Merkle trie of its own, which it updates with the
write sets of the committed transactions.  go-ethereum's state database is a map of account
fields and storage slots here.

A write is read off its ledger key: `acc:<address>:<field>` or `str:<address>:<slot>`, with
addresses and slots in hex.  `applyWrite` says which field it sets and to what.  A storage
value is read as hex text, too.
-/

open Blocks Execution

namespace Gateway

/-! ## Text -/

/-- `strings.SplitN(s, ":", n)`. -/
def splitN : Nat → Bytes → List Bytes
  | 0, _ => []
  | 1, s => [s]
  | n + 2, s =>
      match s.dropWhile (· != 58) with
      | [] => [s]
      | _ :: rest => s.takeWhile (· != 58) :: splitN (n + 1) rest

/-- `common.Hex2Bytes`, which keeps what `hex.DecodeString` decoded before an error. -/
def hex2Bytes (s : Bytes) : Bytes := (decodeString s).1

/-- `common.FromHex`. -/
def fromHex (s : Bytes) : Bytes :=
  let s := if s.take 2 = ascii "0x" ∨ s.take 2 = ascii "0X" then s.drop 2 else s
  hex2Bytes (if s.length % 2 = 1 then 48 :: s else s)

/-- `common.HexToAddress`. -/
def hexToAddress (s : Bytes) : Address := BitVec.ofNat 160 (BigEndian.decode (fromHex s))

/-- `common.HexToHash`. -/
def hexToHash (s : Bytes) : Hash := Execution.bytesToHash (fromHex s)

/-! ## Writes -/

/-- The values of a field. -/
def FieldVal : Field → Type
  | .balance _ => BitVec 256
  | .nonce _ => UInt64
  | .code _ => Bytes
  | .slot _ _ => Hash

/-- go-ethereum's state database. -/
abbrev TrieState := (f : Field) → FieldVal f

/-- The call of a setter of the state database. -/
abbrev Setter := Σ f, FieldVal f

/-- `applyAccountWrite`, with the setter it calls. -/
def applyAccountWrite (w : KVWrite) : Option Setter :=
  match splitN 3 w.key with
  | [_, hexAddr, field] =>
      let addr := hexToAddress hexAddr
      let value := w.value.getD []
      if field = ascii "bal" then
        if w.isDelete || value.length = 0 then some ⟨.balance addr, (0 : BitVec 256)⟩
        else some ⟨.balance addr, BitVec.ofNat 256 (BigEndian.decode value)⟩
      else if field = ascii "nonce" then
        if w.isDelete then some ⟨.nonce addr, (0 : UInt64)⟩
        else if value.length = 8 then
          some ⟨.nonce addr, UInt64.ofNat (BigEndian.decode value)⟩
        else none
      else if field = ascii "code" then
        if w.isDelete then some ⟨.code addr, ([] : Bytes)⟩ else some ⟨.code addr, value⟩
      else none
  | _ => none

/-- `applyStorageWrite`, with the setter it calls. -/
def applyStorageWrite (w : KVWrite) : Option Setter :=
  match splitN 3 w.key with
  | [_, hexAddr, hexSlot] =>
      let addr := hexToAddress hexAddr
      let slot := hexToHash hexSlot
      if w.isDelete then some ⟨.slot addr slot, (0 : Hash)⟩
      else some ⟨.slot addr slot, hexToHash (w.value.getD [])⟩
  | _ => none

/-- `applyWrite`.  Keys with other prefixes are ignored. -/
def applyWrite (w : KVWrite) : Option Setter :=
  if ascii "acc:" <+: w.key then applyAccountWrite w
  else if ascii "str:" <+: w.key then applyStorageWrite w
  else none

/-- The setters `Commit` calls for a transaction, none if it is not valid. -/
def settersOf (tx : Transaction) : List Setter :=
  if tx.valid then tx.nsRWS.flatMap fun nsRWS => nsRWS.rws.writes.filterMap applyWrite else []

/-- The setters `Commit` calls for a block. -/
def setters (block : Block) : List Setter := block.transactions.flatMap settersOf

namespace TrieState

/-- The state of the empty trie. -/
def empty : TrieState
  | .balance _ => (0 : BitVec 256)
  | .nonce _ => (0 : UInt64)
  | .code _ => ([] : Bytes)
  | .slot _ _ => (0 : Hash)

/-- `Commit`: the state after a block. -/
def commit (sdb : TrieState) (block : Block) : TrieState := Assign.all sdb (setters block)

end TrieState

/-! ## Reading back what the endorser writes -/

theorem hex2Bytes_cons {a b : UInt8} {x y : Nat} (ha : fromHexChar a = some x)
    (hb : fromHexChar b = some y) (s : Bytes) :
    hex2Bytes (a :: b :: s) = UInt8.ofNat (16 * x + y) :: hex2Bytes s := by
  simp only [hex2Bytes, decodeString, ha, hb]

/-- An even number of hex digits is read as the number they denote. -/
theorem decode_hex2Bytes : ∀ {cs : Bytes} {ds : List Nat}, cs.map fromHexChar = ds.map some →
    (∀ d ∈ ds, d < 16) → cs.length % 2 = 0 →
    2 * (hex2Bytes cs).length = cs.length ∧
      BigEndian.decode (hex2Bytes cs) = BigEndian.value 16 ds
  | [], [], _, _, _ => ⟨rfl, rfl⟩
  | [], _ :: _, h, _, _ => nomatch h
  | [_], _, _, _, heven => absurd heven Nat.one_ne_zero
  | _ :: _ :: _, [], h, _, _ => nomatch h
  | _ :: _ :: _, [_], h, _, _ => by simp at h
  | a :: b :: cs, x :: y :: ds, h, hlt, heven => by
      simp only [List.map_cons, List.cons.injEq] at h
      obtain ⟨ha, hb, hcs⟩ := h
      have hx : x < 16 := hlt x (by simp)
      have hy : y < 16 := hlt y (by simp)
      obtain ⟨hlen, hval⟩ := decode_hex2Bytes hcs (fun d hd => hlt d (by simp [hd]))
        (by simp only [List.length_cons] at heven; omega)
      have hds : ds.length = cs.length := by simpa using (congrArg List.length hcs).symm
      have hbyte : (UInt8.ofNat (16 * x + y)).toNat = 16 * x + y := by
        rw [UInt8.toNat_ofNat']
        omega
      have hpow : 256 ^ (hex2Bytes cs).length = 16 ^ ds.length := by
        rw [hds, ← hlen, pow_mul]
        norm_num
      rw [hex2Bytes_cons ha hb]
      refine ⟨by simp only [List.length_cons]; omega, ?_⟩
      change (UInt8.ofNat (16 * x + y)).toNat * 256 ^ ((hex2Bytes cs).map UInt8.toNat).length +
        BigEndian.decode (hex2Bytes cs) =
          x * 16 ^ (ds.length + 1) + (y * 16 ^ ds.length + BigEndian.value 16 ds)
      rw [hval, hbyte, List.length_map, hpow]
      ring

/-- `FromHex` of a `0x` string with an even number of digits. -/
theorem decode_fromHex {cs : Bytes} {ds : List Nat} (h : cs.map fromHexChar = ds.map some)
    (hlt : ∀ d ∈ ds, d < 16) (heven : cs.length % 2 = 0) :
    BigEndian.decode (fromHex (ascii "0x" ++ cs)) = BigEndian.value 16 ds := by
  have hs : fromHex (ascii "0x" ++ cs) = hex2Bytes cs := by
    have hdrop : (ascii "0x" ++ cs).drop 2 = cs := rfl
    have htake : (ascii "0x" ++ cs).take 2 = ascii "0x" := rfl
    unfold fromHex
    simp only [htake, hdrop, true_or, if_true]
    rw [if_neg (by omega)]
  rw [hs]
  exact (decode_hex2Bytes h hlt heven).2

theorem hexToAddress_hex (keccak : Bytes → Hash) (addr : Address) :
    hexToAddress (addr.hex keccak) = addr := by
  unfold hexToAddress Address.hex
  rw [decode_fromHex (map_fromHexChar_checksum _ _ (BigEndian.digits_lt (by omega) 40 _) (by simp))
    (BigEndian.digits_lt (by omega) 40 _) (by simp), BigEndian.value_digits]
  refine BitVec.eq_of_toNat_eq ?_
  rw [BitVec.toNat_ofNat, show (16 : Nat) ^ 40 = 2 ^ 160 by norm_num, Nat.mod_mod,
    Nat.mod_eq_of_lt addr.isLt]

theorem hexToHash_hex (h : Hash) : hexToHash h.hex = h := by
  unfold hexToHash Execution.bytesToHash Hash.hex
  rw [decode_fromHex (map_fromHexChar _ (BigEndian.digits_lt (by omega) 64 _))
    (BigEndian.digits_lt (by omega) 64 _) (by simp), BigEndian.value_digits]
  refine BitVec.eq_of_toNat_eq ?_
  rw [BitVec.toNat_ofNat, show (16 : Nat) ^ 64 = 2 ^ 256 by norm_num, Nat.mod_mod,
    Nat.mod_eq_of_lt h.isLt]

theorem splitN_cons {a rest : Bytes} (n : Nat) (h : ∀ c ∈ a, c ≠ 58) :
    splitN (n + 2) (a ++ 58 :: rest) = a :: splitN (n + 1) rest := by
  have hpos : ∀ c ∈ a, (c != 58) = true := fun c hc => by simpa using h c hc
  rw [splitN, List.dropWhile_append_of_pos hpos, List.takeWhile_append_of_pos hpos]
  simp

theorem hexByte_ne_colon {d : Nat} (hd : d < 16) (hashDigit : Nat) :
    checksumByte (hexByte d) hashDigit ≠ 58 := by
  intro h
  have := fromHexChar_checksumByte hd hashDigit
  rw [h] at this
  cases this

/-- A text without a colon, as a test. -/
theorem ne_colon {tag : Bytes} (h : tag.all (· != 58) = true) : ∀ c ∈ tag, c ≠ 58 := by
  simpa using h

theorem Address.hex_ne_colon (keccak : Bytes → Hash) (addr : Address) :
    ∀ c ∈ addr.hex keccak, c ≠ 58 := by
  intro c hc
  rcases List.mem_append.mp hc with hc | hc
  · exact ne_colon (by decide) c hc
  · obtain ⟨i, hi, rfl⟩ := List.getElem_of_mem hc
    rw [List.getElem_zipWith, List.getElem_map]
    exact hexByte_ne_colon (BigEndian.digits_lt (by omega) 40 _ _ (List.getElem_mem _)) _

/-- The three parts of a ledger key. -/
theorem splitN_key {tag : Bytes} (htag : ∀ c ∈ tag, c ≠ 58) (keccak : Bytes → Hash)
    (addr : Address) (tail : Bytes) :
    splitN 3 (tag ++ 58 :: (addr.hex keccak ++ 58 :: tail)) = [tag, addr.hex keccak, tail] := by
  rw [splitN_cons 1 htag, splitN_cons 0 (Address.hex_ne_colon keccak addr)]
  rfl

section Writes

variable (keccak : Bytes → Hash) (a : Address)

theorem splitN_accKey (field : Bytes) :
    splitN 3 (accKey keccak a field) = [ascii "acc", a.hex keccak, field] := by
  have h := @splitN_key (ascii "acc") (ne_colon (by decide)) keccak a field
  simpa [accKey, ascii] using h

theorem splitN_storeKey (slot : Hash) :
    splitN 3 (storeKey keccak a slot) = [ascii "str", a.hex keccak, slot.hex] := by
  have h := @splitN_key (ascii "str") (ne_colon (by decide)) keccak a slot.hex
  simpa [storeKey, ascii] using h

theorem applyWrite_accKey {w : KVWrite} {field : Bytes} (h : w.key = accKey keccak a field) :
    applyWrite w = applyAccountWrite w := by
  rw [applyWrite, if_pos]
  rw [h, accKey, List.append_assoc, List.append_assoc]
  exact List.prefix_append _ _

theorem applyWrite_storeKey {w : KVWrite} {slot : Hash} (h : w.key = storeKey keccak a slot) :
    applyWrite w = applyStorageWrite w := by
  have hstr : ascii "str:" <+: w.key := by
    rw [h, storeKey, List.append_assoc, List.append_assoc]
    exact List.prefix_append _ _
  rw [applyWrite, if_neg, if_pos hstr]
  intro hacc
  have hlen : (ascii "acc:").length = (ascii "str:").length := by decide
  have heq := (List.prefix_of_prefix_length_le hacc hstr hlen.le).eq_of_length hlen
  exact absurd heq (by decide)

theorem applyWrite_balance (v : BitVec 256) :
    applyWrite (StateDB.writeOf (accKey keccak a (ascii "bal")) (uint256ToBytes v)) =
      some ⟨.balance a, v⟩ := by
  rw [applyWrite_accKey keccak a (StateDB.writeOf_key _ _), applyAccountWrite,
    StateDB.writeOf_key, splitN_accKey]
  dsimp only
  rw [hexToAddress_hex, if_pos rfl]
  have hback := bytesToUint256_uint256ToBytes v
  by_cases hempty : uint256ToBytes v = []
  · rw [StateDB.writeOf, if_pos hempty]
    rw [hempty] at hback
    exact congrArg some (congrArg (Sigma.mk (Field.balance a)) hback)
  · rw [StateDB.writeOf, if_neg hempty, if_neg (by simpa using hempty)]
    exact congrArg some (congrArg (Sigma.mk (Field.balance a)) hback)

theorem applyWrite_nonce (n : UInt64) :
    applyWrite (StateDB.writeOf (accKey keccak a (ascii "nonce")) (uint64ToBytes n)) =
      some ⟨.nonce a, n⟩ := by
  rw [applyWrite_accKey keccak a (StateDB.writeOf_key _ _), applyAccountWrite,
    StateDB.writeOf_key, splitN_accKey]
  dsimp only
  have hlen : (uint64ToBytes n).length = 8 := by simp [uint64ToBytes]
  have hlt : n.toNat < 256 ^ 8 := by
    have := n.toNat_lt
    norm_num
    omega
  rw [hexToAddress_hex, if_neg (by decide), if_pos rfl, StateDB.writeOf,
    if_neg (uint64ToBytes_ne_nil n), if_neg Bool.false_ne_true, Option.getD_some, if_pos hlen,
    uint64ToBytes, BigEndian.decode_encode, Nat.mod_eq_of_lt hlt, UInt64.ofNat_toNat]

theorem applyWrite_code (code : Bytes) :
    applyWrite (StateDB.writeOf (accKey keccak a (ascii "code")) code) = some ⟨.code a, code⟩ := by
  rw [applyWrite_accKey keccak a (StateDB.writeOf_key _ _), applyAccountWrite,
    StateDB.writeOf_key, splitN_accKey]
  dsimp only
  rw [hexToAddress_hex, if_neg (by decide), if_neg (by decide), if_pos rfl, StateDB.writeOf]
  by_cases hempty : code = []
  · rw [if_pos hempty, hempty]
    rfl
  · rw [if_neg hempty]
    rfl

/-- The raw bytes of a word, read as hex text. -/
def misread (v : Hash) : Hash := if v = 0 then 0 else hexToHash v.bytes

theorem applyWrite_slot (slot v : Hash) :
    applyWrite (StateDB.writeOf (storeKey keccak a slot) (if v = 0 then [] else v.bytes)) =
      some ⟨.slot a slot, misread v⟩ := by
  rw [applyWrite_storeKey keccak a (StateDB.writeOf_key _ _), applyStorageWrite,
    StateDB.writeOf_key, splitN_storeKey]
  dsimp only
  rw [hexToAddress_hex, hexToHash_hex, misread]
  by_cases hv : v = 0
  · rw [if_pos hv, if_pos hv]
    rfl
  · have hne : v.bytes ≠ [] := fun h => by
      have := v.length_bytes
      rw [h] at this
      cases this
    rw [if_neg hv, if_neg hv, StateDB.writeOf, if_neg hne]
    rfl

end Writes

/-! ## Storage values -/

theorem length_hex2Bytes : ∀ cs : Bytes, 2 * (hex2Bytes cs).length ≤ cs.length
  | [] => le_rfl
  | [_] => Nat.zero_le _
  | a :: b :: cs => by
      have ih := length_hex2Bytes cs
      rw [hex2Bytes, decodeString]
      split
      · simp only [List.length_cons]
        unfold hex2Bytes at ih
        omega
      · exact Nat.zero_le _

/-- Text of 32 characters is read as 16 bytes at most. -/
theorem length_fromHex {s : Bytes} (h : s.length = 32) : (fromHex s).length ≤ 16 := by
  unfold fromHex
  dsimp only
  have hlen : ∀ t : Bytes, t.length % 2 = 0 → t.length ≤ 32 →
      (hex2Bytes (if t.length % 2 = 1 then 48 :: t else t)).length ≤ 16 := by
    intro t heven ht
    rw [if_neg (by omega)]
    have := length_hex2Bytes t
    omega
  split
  · exact hlen _ (by rw [List.length_drop]; omega) (by rw [List.length_drop]; omega)
  · exact hlen s (by omega) (by omega)

/-- Text that starts with a zero byte is not hex. -/
theorem fromHex_zero {s : Bytes} (heven : s.length % 2 = 1) : fromHex (0 :: s) = [] := by
  cases s with
  | nil => rfl
  | cons c s =>
      have htake : ∀ x : UInt8, (0 :: c :: s).take 2 ≠ [48, x] := by simp
      unfold fromHex
      rw [if_neg (by rintro (h | h) <;> exact htake _ h)]
      dsimp only
      rw [if_neg (by simp only [List.length_cons] at heven ⊢; omega), hex2Bytes]
      rfl

/-- No word but zero survives. -/
theorem misread_eq_iff (v : Hash) : misread v = v ↔ v = 0 := by
  constructor
  · intro h
    by_contra hv
    rw [misread, if_neg hv] at h
    -- a misread word has no more than 16 bytes, so the text starts with a zero byte
    have hsmall : v.toNat < 256 ^ 16 := by
      rw [← h, hexToHash, Execution.bytesToHash, BitVec.toNat_ofNat]
      calc BigEndian.decode (fromHex v.bytes) % 2 ^ 256
          ≤ BigEndian.decode (fromHex v.bytes) := Nat.mod_le _ _
        _ < 256 ^ (fromHex v.bytes).length := BigEndian.decode_lt _
        _ ≤ 256 ^ 16 := Nat.pow_le_pow_right (by omega) (length_fromHex v.length_bytes)
    have hbytes : v.bytes = 0 :: BigEndian.encode 31 v.toNat := by
      have hzero : v.toNat / 256 ^ 31 % 256 = 0 := by
        rw [Nat.div_eq_of_lt (hsmall.trans_le (Nat.pow_le_pow_right (by omega) (by omega)))]
      rw [Hash.bytes, BigEndian.encode, BigEndian.digits, hzero]
      rfl
    rw [hexToHash, hbytes, fromHex_zero (by simp)] at h
    exact hv h.symm
  · rintro rfl
    rfl

end Gateway
