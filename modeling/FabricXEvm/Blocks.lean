import FabricXEvm.Lib.BigEndian

/-!
# Blocks, transactions and read-write sets

The data the fabric-x SDK's `blocks` package hands to this repository: what a
read-write set is, what a committed transaction carries, and the record a store
returns for a key.  Only the fields some function of the development reads are here.

A `[]byte` whose nil and empty values are told apart somewhere (`Value`) is an
`Option Bytes`, with `none` for nil.  Unsigned 64-bit numbers are natural numbers; the
places that depend on the width (the encodings of the pebble store, the conversions to
SQL integers) say so themselves.
-/

namespace Blocks

/-- The version a read was made at.  Fabric fills both numbers; Fabric-X carries the
key's own counter in `blockNum`. -/
structure Version where
  blockNum : Nat
  txNum : Nat := 0
deriving DecidableEq, Repr

/-- A read and the version it saw, `none` when the key was absent or deleted. -/
structure KVRead where
  key : Bytes
  version : Option Version := none
deriving DecidableEq, Repr

structure KVWrite where
  key : Bytes
  isDelete : Bool := false
  value : Option Bytes := none
deriving DecidableEq, Repr

structure ReadWriteSet where
  reads : List KVRead := []
  writes : List KVWrite := []
deriving DecidableEq, Repr

structure NsReadWriteSet where
  ns : Bytes
  rws : ReadWriteSet
deriving DecidableEq, Repr

/-- What a store returns for a key. -/
structure WriteRecord where
  ns : Bytes
  key : Bytes
  blockNum : Nat
  txNum : Nat
  /-- The number of writes of this key before this one. -/
  version : Nat
  value : Option Bytes
  isDelete : Bool
  txID : Bytes
deriving DecidableEq, Repr

/-- The SDK's protocol-neutral commit status. -/
inductive Status where
  | unknown
  | committed
  | mvccConflict
  | invalidSignature
  | other (code : Nat)
deriving DecidableEq, Repr

/-- There is exactly one valid status. -/
def Status.valid : Status → Bool
  | .committed => true
  | _ => false

@[simp] theorem Status.valid_iff (s : Status) : s.valid = true ↔ s = .committed := by
  cases s <;> simp [Status.valid]

structure Transaction where
  id : Bytes
  number : Int := 0
  status : Status := .committed
  eventName : Bytes := []
  inputArgs : List Bytes := []
  payload : Bytes := []
  event : Bytes := []
  nsRWS : List NsReadWriteSet := []
deriving DecidableEq, Repr

def Transaction.valid (tx : Transaction) : Bool := tx.status.valid

structure Block where
  number : Nat
  hash : Bytes := []
  parentHash : Bytes := []
  timestamp : Int := 0
  transactions : List Transaction := []
deriving DecidableEq, Repr

/-- The conversion `uint64(n)` of a signed 64-bit number. -/
def uint64OfInt (n : Int) : Nat := (n % 2 ^ 64).toNat

/-- The conversion `int64(n)` of an unsigned 64-bit number. -/
def int64 (n : Nat) : Int := if n < 2 ^ 63 then n else n - 2 ^ 64

theorem uint64OfInt_int64 {n : Nat} (hn : n < 2 ^ 64) : uint64OfInt (int64 n) = n := by
  unfold uint64OfInt int64
  split <;> omega

theorem int64_inj {m n : Nat} (hm : m < 2 ^ 64) (hn : n < 2 ^ 64) (h : int64 m = int64 n) :
    m = n := by
  rw [← uint64OfInt_int64 hm, h, uint64OfInt_int64 hn]

theorem int64_of_lt {n : Nat} (hn : n < 2 ^ 63) : int64 n = n := if_pos hn

/-- The bytes of an ASCII literal. -/
def ascii (s : String) : Bytes := s.toList.map fun c => UInt8.ofNat c.toNat

end Blocks
