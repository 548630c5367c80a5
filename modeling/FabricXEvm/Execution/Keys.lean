import FabricXEvm.Blocks

/-!
# Ledger keys and value encodings

A `StateDB` keeps every account field and every storage slot under its own ledger key.
The keys are text: `accKey` names a field of an account and `storeKey` a slot, both with
the address in the checksummed hex of go-ethereum's `Address.Hex`.  The checksum picks
the case of each letter by a Keccak hash of the lower-case digits, so the hash is a
parameter here and nothing below depends on which function it is.

`accKey_inj`, `storeKey_inj` and `accKey_ne_storeKey` say that no two fields or slots
share a key.  They rest on `Address.hex_inj`: whatever the case of its letters, a hex
string determines its digits.
-/

namespace Execution

open Blocks (ascii)
open BigEndian

/-- `common.Address`. -/
abbrev Address := BitVec 160

/-- `common.Hash`, a 32-byte word. -/
abbrev Hash := BitVec 256

/-! ## Hex -/

/-- The lower-case hex digit of a number below 16. -/
def hexByte (d : Nat) : UInt8 :=
  if d < 10 then UInt8.ofNat (48 + d) else UInt8.ofNat (87 + d)

/-- `fromHexChar` of Go: the number a hex digit denotes, in either case. -/
def fromHexChar (c : UInt8) : Option Nat :=
  if 48 ≤ c ∧ c ≤ 57 then some (c.toNat - 48)
  else if 97 ≤ c ∧ c ≤ 102 then some (c.toNat - 87)
  else if 65 ≤ c ∧ c ≤ 70 then some (c.toNat - 55)
  else none

/-- `hex.DecodeString`: the bytes up to the first error, and whether there was none. -/
def decodeString : Bytes → Bytes × Bool
  | [] => ([], true)
  | [_] => ([], false)
  | a :: b :: s =>
      match fromHexChar a, fromHexChar b with
      | some x, some y =>
          let (bytes, ok) := decodeString s
          (UInt8.ofNat (16 * x + y) :: bytes, ok)
      | _, _ => ([], false)

/-- One step of the EIP-55 checksum: a letter whose hash digit exceeds 7 is put in
upper case. -/
def checksumByte (c : UInt8) (hashDigit : Nat) : UInt8 :=
  if 57 < c.toNat ∧ 7 < hashDigit then c - 32 else c

/-- `Address.Hex`, with the EIP-55 checksum. -/
def Address.hex (keccak : Bytes → Hash) (addr : Address) : Bytes :=
  let buf := (digits 16 40 addr.toNat).map hexByte
  let hash := digits 16 64 (keccak buf).toNat
  ascii "0x" ++ List.zipWith checksumByte buf hash

/-- `Hash.Hex`. -/
def Hash.hex (h : Hash) : Bytes := ascii "0x" ++ (digits 16 64 h.toNat).map hexByte

/-- Neither case of a digit loses it. -/
theorem fromHexChar_checksumByte {d : Nat} (hd : d < 16) (hashDigit : Nat) :
    fromHexChar (checksumByte (hexByte d) hashDigit) = some d := by
  by_cases hh : 7 < hashDigit
  · interval_cases d <;> simp [checksumByte, hexByte, fromHexChar, hh]
  · interval_cases d <;> simp [checksumByte, hexByte, fromHexChar, hh]

theorem fromHexChar_hexByte {d : Nat} (hd : d < 16) : fromHexChar (hexByte d) = some d := by
  have h := fromHexChar_checksumByte hd 0
  rwa [checksumByte, if_neg (by omega)] at h

/-- The digits of a checksummed string are recovered, as long as the hash has a digit
for each of them. -/
theorem map_fromHexChar_checksum : ∀ (ds hash : List Nat), (∀ d ∈ ds, d < 16) →
    ds.length ≤ hash.length →
    (List.zipWith checksumByte (ds.map hexByte) hash).map fromHexChar = ds.map some
  | [], _, _, _ => by simp
  | d :: ds, [], _, hlen => by simp at hlen
  | d :: ds, h :: hash, hlt, hlen => by
      have hd : d < 16 := hlt d List.mem_cons_self
      have htail : ∀ e ∈ ds, e < 16 := fun e he => hlt e (List.mem_cons_of_mem d he)
      have hlen' : ds.length ≤ hash.length := by simpa using hlen
      simp only [List.map_cons, List.zipWith_cons_cons, fromHexChar_checksumByte hd,
        map_fromHexChar_checksum ds hash htail hlen']

/-- Hex digits without a checksum. -/
theorem map_fromHexChar (ds : List Nat) (hlt : ∀ d ∈ ds, d < 16) :
    (ds.map hexByte).map fromHexChar = ds.map some := by
  rw [List.map_map]
  exact List.map_congr_left fun d hd => fromHexChar_hexByte (hlt d hd)

theorem Address.length_hex (keccak : Bytes → Hash) (addr : Address) :
    (addr.hex keccak).length = 42 := by
  simp [Address.hex, ascii]

theorem Address.hex_inj {keccak : Bytes → Hash} {a b : Address}
    (h : a.hex keccak = b.hex keccak) : a = b := by
  have hbody := List.append_cancel_left h
  have hdigits := congrArg (List.map fromHexChar) hbody
  rw [map_fromHexChar_checksum _ _ (digits_lt (by omega) 40 _) (by simp),
    map_fromHexChar_checksum _ _ (digits_lt (by omega) 40 _) (by simp)] at hdigits
  have hpow : (2 : Nat) ^ 160 = 16 ^ 40 := by norm_num
  exact BitVec.eq_of_toNat_eq (digits_inj (hpow ▸ a.isLt) (hpow ▸ b.isLt)
    (List.map_injective_iff.mpr (Option.some_injective _) hdigits))

theorem Hash.hex_inj {g h : Hash} (e : g.hex = h.hex) : g = h := by
  have hbody := List.append_cancel_left e
  have hdigits := congrArg (List.map fromHexChar) hbody
  rw [map_fromHexChar _ (digits_lt (by omega) 64 _),
    map_fromHexChar _ (digits_lt (by omega) 64 _)] at hdigits
  have hpow : (2 : Nat) ^ 256 = 16 ^ 64 := by norm_num
  exact BitVec.eq_of_toNat_eq (digits_inj (hpow ▸ g.isLt) (hpow ▸ h.isLt)
    (List.map_injective_iff.mpr (Option.some_injective _) hdigits))

/-! ## Keys -/

/-- `accKey`: the key of an account field. -/
def accKey (keccak : Bytes → Hash) (addr : Address) (typ : Bytes) : Bytes :=
  ascii "acc:" ++ addr.hex keccak ++ ascii ":" ++ typ

/-- `storeKey`: the key of a storage slot. -/
def storeKey (keccak : Bytes → Hash) (addr : Address) (slot : Hash) : Bytes :=
  ascii "str:" ++ addr.hex keccak ++ ascii ":" ++ slot.hex

theorem accKey_inj {keccak : Bytes → Hash} {a b : Address} {t u : Bytes}
    (h : accKey keccak a t = accKey keccak b u) : a = b ∧ t = u := by
  simp only [accKey, List.append_assoc, List.append_cancel_left_eq] at h
  obtain ⟨haddr, hrest⟩ := List.append_inj h
    (by rw [Address.length_hex, Address.length_hex])
  exact ⟨Address.hex_inj haddr, List.append_cancel_left hrest⟩

theorem storeKey_inj {keccak : Bytes → Hash} {a b : Address} {r s : Hash}
    (h : storeKey keccak a r = storeKey keccak b s) : a = b ∧ r = s := by
  simp only [storeKey, List.append_assoc, List.append_cancel_left_eq] at h
  obtain ⟨haddr, hrest⟩ := List.append_inj h
    (by rw [Address.length_hex, Address.length_hex])
  exact ⟨Address.hex_inj haddr, Hash.hex_inj (List.append_cancel_left hrest)⟩

theorem accKey_ne_storeKey {keccak : Bytes → Hash} {a b : Address} {t : Bytes} {s : Hash} :
    accKey keccak a t ≠ storeKey keccak b s := by
  intro h
  have hfirst := congrArg List.head? h
  simp [accKey, storeKey, ascii] at hfirst

/-! ## Values -/

/-- `uint256ToBytes`: minimal big-endian, so zero is the empty string. -/
def uint256ToBytes (u : BitVec 256) : Bytes := trim (encode 32 u.toNat)

/-- `bytesToUint256`.  More than 32 bytes are truncated, as `uint256.FromBig` does. -/
def bytesToUint256 (b : Bytes) : BitVec 256 := BitVec.ofNat 256 (decode b)

/-- `uint64ToBytes`: always eight bytes. -/
def uint64ToBytes (val : UInt64) : Bytes := encode 8 val.toNat

/-- `bytesToUint64`.  A non-empty slice shorter than eight bytes makes
`binary.BigEndian.Uint64` panic, which is `none` here. -/
def bytesToUint64 (b : Bytes) : Option UInt64 :=
  if b = [] then some 0
  else if b.length < 8 then none
  else some (UInt64.ofNat (decode (b.take 8)))

/-- `Hash.Bytes`. -/
def Hash.bytes (h : Hash) : Bytes := encode 32 h.toNat

/-- `common.BytesToHash`: the last 32 bytes. -/
def bytesToHash (b : Bytes) : Hash := BitVec.ofNat 256 (decode b)

/-- `Address.Bytes`. -/
def Address.bytes (addr : Address) : Bytes := encode 20 addr.toNat

@[simp] theorem bytesToUint256_uint256ToBytes (u : BitVec 256) :
    bytesToUint256 (uint256ToBytes u) = u := by
  refine BitVec.eq_of_toNat_eq ?_
  rw [bytesToUint256, uint256ToBytes, decode_trim, decode_encode, BitVec.toNat_ofNat,
    show (256 : Nat) ^ 32 = 2 ^ 256 by norm_num, Nat.mod_mod, Nat.mod_eq_of_lt u.isLt]

@[simp] theorem bytesToHash_bytes (h : Hash) : bytesToHash h.bytes = h := by
  refine BitVec.eq_of_toNat_eq ?_
  rw [bytesToHash, Hash.bytes, decode_encode, BitVec.toNat_ofNat,
    show (256 : Nat) ^ 32 = 2 ^ 256 by norm_num, Nat.mod_mod, Nat.mod_eq_of_lt h.isLt]

theorem Hash.length_bytes (h : Hash) : h.bytes.length = 32 := length_encode 32 _

theorem uint64ToBytes_ne_nil (val : UInt64) : uint64ToBytes val ≠ [] := by
  intro h
  have hlen := congrArg List.length h
  simp [uint64ToBytes] at hlen

@[simp] theorem bytesToUint64_uint64ToBytes (val : UInt64) :
    bytesToUint64 (uint64ToBytes val) = some val := by
  have hlen : (uint64ToBytes val).length = 8 := by simp [uint64ToBytes]
  have hlt : val.toNat < 256 ^ 8 := by
    have := val.toNat_lt
    norm_num
    omega
  rw [bytesToUint64, if_neg (uint64ToBytes_ne_nil val), if_neg (by omega),
    List.take_of_length_le (by omega), uint64ToBytes, decode_encode, Nat.mod_eq_of_lt hlt,
    UInt64.ofNat_toNat]

end Execution
