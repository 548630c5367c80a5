import FabricXEvm.Storage.PebbleFormat

/-!
# Decoding records

A record that was written is read back, so different records have different encodings
(`encodeRecord_faithful`).

A byte string that nobody wrote is reported as corrupt, or read as a record made of its parts,
unless one of its two length fields is so large that the end of what it announces overflows.
Then the bounds check passes and the slice, or the allocation of the copy, panics
(`reported_iff_lengthsFit`).
-/

namespace Storage

open Blocks

/-! ## Records that were written -/

/-- The encoding of a record determines it. -/
theorem encodeRecord_faithful {r : ValueVersion} (h : RecordFits r) :
    decodeRecord (encodeRecord r) = .ok r ∧
      ∀ r', RecordFits r' → r ≠ r' → encodeRecord r ≠ encodeRecord r' := by
  constructor
  · exact decodeRecord_encodeRecord h
  · intro r' h' hne heq
    have hr : decodeRecord (encodeRecord r) = .ok r' := by
      rw [heq]
      exact decodeRecord_encodeRecord h'
    rw [decodeRecord_encodeRecord h] at hr
    exact hne (Except.ok.inj hr)

/-- An empty value and no value, under the largest numbers. -/
theorem encodeRecord_faithful_empty :
    let r : ValueVersion :=
      { blockNum := 2 ^ 64 - 1, txNum := 2 ^ 64 - 1, version := 2 ^ 64 - 1, value := some [],
        isDelete := false, txID := [] }
    decodeRecord (encodeRecord r) = .ok r ∧
      encodeRecord r ≠ encodeRecord { r with value := none } := by
  have hfits : ∀ value : Option Bytes, value = some [] ∨ value = none →
      RecordFits { blockNum := 2 ^ 64 - 1, txNum := 2 ^ 64 - 1, version := 2 ^ 64 - 1,
                   value := value, isDelete := false, txID := [] } := by
    rintro value (rfl | rfl)
    · exact ⟨by decide, by decide, by decide, by decide⟩
    · exact ⟨by decide, by decide, by decide, by decide⟩
  obtain ⟨hdecode, hinj⟩ := encodeRecord_faithful (hfits (some []) (.inl rfl))
  exact ⟨hdecode, hinj _ (hfits none (.inr rfl)) (by simp)⟩

/-! ## Any byte string -/

/-- What stands before the tx id, and where that starts. -/
structure Header where
  blockNum : Nat
  txNum : Nat
  version : Nat
  txIDLen : Nat
  pos : Nat

def readHeader (raw : Bytes) : Except PebbleError Header := do
  let (blockNum, pos) ← readUvarint raw 1 "block num"
  let (txNum, pos) ← readUvarint raw pos "tx num"
  let (version, pos) ← readUvarint raw pos "version"
  let (txIDLen, pos) ← readUvarint raw pos "txid length"
  return { blockNum, txNum, version, txIDLen, pos }

/-- The length of the value after the tx id, and where the value starts. -/
def readValueLen (raw : Bytes) (h : Header) : Except PebbleError (Nat × Nat) :=
  readUvarint raw (h.pos + h.txIDLen) "value length"

/-- The lengths that are read end below 2^63. -/
structure LengthsFit (raw : Bytes) : Prop where
  txID : ∀ h, readHeader raw = .ok h → h.pos + h.txIDLen < 2 ^ 63
  value : ∀ flags h len pos, raw.head? = some flags → flags &&& flagValueNonNil ≠ 0 →
    readHeader raw = .ok h → readValueLen raw h = .ok (len, pos) → pos + len < 2 ^ 63

/-- An error is returned, or a record whose tx id and value are contiguous parts of the
input. -/
def Reported (raw : Bytes) : Prop :=
  match decodeRecord raw with
  | .ok r => r.txID <:+: raw ∧ ∀ value, r.value = some value → value <:+: raw
  | .error (.corrupt _) => True
  | .error (.panic _) => False

/-- The value of a record whose tx id ends at `pos`. -/
def readValue (raw : Bytes) (flags : UInt8) (pos : Nat) : Except PebbleError (Option Bytes) :=
  if flags &&& flagValueNonNil ≠ 0 then do
    let (valLen, pos) ← readUvarint raw pos "value length"
    let value ← readBytes raw pos valLen "value overruns value" "makeslice: len out of range"
    pure (some value)
  else pure none

theorem decodeFields_eq (raw : Bytes) (flags : UInt8) :
    decodeFields raw flags = (do
      let h ← readHeader raw
      let txID ← readBytes raw h.pos h.txIDLen "txid overruns value" "slice bounds out of range"
      let value ← readValue raw flags (h.pos + h.txIDLen)
      return { blockNum := h.blockNum, txNum := h.txNum, version := h.version, value,
               isDelete := flags &&& flagIsDelete ≠ 0, txID }) := by
  by_cases hvalue : flags &&& flagValueNonNil ≠ 0
  · simp only [decodeFields, readHeader, readValue, if_pos hvalue, bind_assoc, pure_bind]
  · simp only [decodeFields, readHeader, readValue, if_neg hvalue, bind_assoc, pure_bind]

theorem readUvarint_cases (raw : Bytes) (pos : Nat) (what : String) :
    readUvarint raw pos what = .error (.corrupt what) ∨
      ∃ x stop, readUvarint raw pos what = .ok (x, stop) ∧ x < 2 ^ 64 ∧ pos ≤ stop ∧
        stop ≤ raw.length := by
  rw [readUvarint]
  cases h : Uvarint.decode (raw.drop pos) with
  | none => exact .inl rfl
  | some r =>
      obtain ⟨hx, hn⟩ := Uvarint.decode_bounds h
      rw [List.length_drop] at hn
      by_cases hpos : pos ≤ raw.length
      · exact .inr ⟨r.1, pos + r.2, rfl, hx, by omega, by omega⟩
      · rw [List.drop_eq_nil_of_le (by omega)] at h
        cases h

/-- A header that does not parse is corrupt. -/
theorem readHeader_cases (raw : Bytes) :
    (∃ what, readHeader raw = .error (.corrupt what)) ∨
      ∃ h, readHeader raw = .ok h ∧ h.txIDLen < 2 ^ 64 ∧ h.pos ≤ raw.length := by
  rcases readUvarint_cases raw 1 "block num" with h₁ | ⟨blockNum, p₁, h₁, -⟩
  · exact .inl ⟨_, by rw [readHeader, h₁]; rfl⟩
  rcases readUvarint_cases raw p₁ "tx num" with h₂ | ⟨txNum, p₂, h₂, -⟩
  · exact .inl ⟨_, by rw [readHeader, h₁, bind_ok]; dsimp only; rw [h₂]; rfl⟩
  rcases readUvarint_cases raw p₂ "version" with h₃ | ⟨version, p₃, h₃, -⟩
  · exact .inl ⟨_, by simp only [readHeader, h₁, h₂, h₃, bind_ok]; rfl⟩
  rcases readUvarint_cases raw p₃ "txid length" with h₄ | ⟨txIDLen, p₄, h₄, hlen, -, hpos⟩
  · exact .inl ⟨_, by simp only [readHeader, h₁, h₂, h₃, h₄, bind_ok]; rfl⟩
  · exact .inr ⟨⟨blockNum, txNum, version, txIDLen, p₄⟩,
      by simp only [readHeader, h₁, h₂, h₃, h₄, bind_ok]; rfl, hlen, hpos⟩

/-- Where the end does not overflow the bounds check is the right one. -/
theorem readBytes_of_lt {raw : Bytes} {pos len : Nat} (what fault : String)
    (h : pos + len < 2 ^ 63) :
    readBytes raw pos len what fault =
      if raw.length < pos + len then .error (.corrupt what) else .ok ((raw.drop pos).take len) := by
  have hstop : Int.bmod (pos + len) (2 ^ 64) = pos + len :=
    Int.bmod_eq_of_le (by omega) (by omega)
  have htake : ((pos : Int) + len).toNat - pos = len := by omega
  unfold readBytes
  rw [hstop]
  dsimp only
  rw [htake]
  by_cases hover : raw.length < pos + len
  · rw [if_pos hover, if_pos (by omega)]
  · rw [if_neg hover, if_neg (by omega), if_neg (by omega)]

/-- An end that overflows is before the start. -/
theorem readBytes_of_le {raw : Bytes} {pos len : Nat} (what fault : String)
    (hpos : pos ≤ raw.length) (hlen : len < 2 ^ 64) (hraw : raw.length < 2 ^ 63)
    (h : 2 ^ 63 ≤ pos + len) : readBytes raw pos len what fault = .error (.panic fault) := by
  have hstop : Int.bmod (pos + len) (2 ^ 64) = pos + len - 2 ^ 64 := by
    have hsub : ((pos : Int) + len) = (pos + len - 2 ^ 64) + (2 ^ 64 : Nat) := by omega
    conv_lhs => rw [hsub, Int.add_bmod_right]
    apply Int.bmod_eq_of_le
    · omega
    · omega
  unfold readBytes
  rw [hstop]
  dsimp only
  rw [if_neg (by omega), if_pos (by omega)]

theorem infix_of_take_drop (raw : Bytes) (pos len : Nat) : (raw.drop pos).take len <:+: raw :=
  (List.take_prefix len _).isInfix.trans (List.drop_suffix pos raw).isInfix

theorem readValue_of_valueless {raw : Bytes} {flags : UInt8} {pos : Nat}
    (h : ¬ flags &&& flagValueNonNil ≠ 0) : readValue raw flags pos = .ok none :=
  if_neg h

/-- Without overflow a value is corrupt, absent, or a part of the input. -/
theorem readValue_of_fit {raw : Bytes} {flags : UInt8} {pos : Nat}
    (hfit : flags &&& flagValueNonNil ≠ 0 →
      ∀ len p, readUvarint raw pos "value length" = .ok (len, p) → p + len < 2 ^ 63) :
    (∃ what, readValue raw flags pos = .error (.corrupt what)) ∨
      ∃ value, readValue raw flags pos = .ok value ∧ ∀ bs, value = some bs → bs <:+: raw := by
  by_cases hflag : flags &&& flagValueNonNil ≠ 0
  · rw [readValue, if_pos hflag]
    rcases readUvarint_cases raw pos "value length" with h | ⟨len, p, h, -⟩
    · rw [h]
      exact .inl ⟨_, rfl⟩
    · rw [h, bind_ok]
      dsimp only
      rw [readBytes_of_lt _ _ (hfit hflag len p h)]
      split
      · exact .inl ⟨_, rfl⟩
      · refine .inr ⟨_, rfl, ?_⟩
        rintro bs ⟨⟩
        exact infix_of_take_drop raw p len
  · exact .inr ⟨none, readValue_of_valueless hflag, fun _ h => by cases h⟩

theorem reported_of_lengthsFit {raw : Bytes} (hfit : LengthsFit raw) : Reported raw := by
  cases raw with
  | nil => trivial
  | cons flags rest =>
      rw [Reported, decodeRecord, decodeFields_eq]
      rcases readHeader_cases (flags :: rest) with ⟨what, h⟩ | ⟨hd, h, -, -⟩
      · rw [h]
        trivial
      rw [h, bind_ok, readBytes_of_lt _ _ (hfit.txID hd h)]
      by_cases hover : (flags :: rest).length < hd.pos + hd.txIDLen
      · rw [if_pos hover]
        trivial
      rw [if_neg hover, bind_ok]
      have hvalue := readValue_of_fit fun hflag len p hread =>
        hfit.value flags hd len p rfl hflag h hread
      rcases hvalue with ⟨what, hv⟩ | ⟨value, hv, hinfix⟩
      · rw [hv]
        trivial
      · rw [hv, bind_ok]
        exact ⟨infix_of_take_drop _ _ _, hinfix⟩

theorem not_reported_of_panic {raw : Bytes} (fault : String)
    (h : decodeRecord raw = .error (.panic fault)) : ¬ Reported raw := by
  rw [Reported, h]
  exact id

theorem lengthsFit_of_reported {raw : Bytes} (hraw : raw.length < 2 ^ 63) (hrep : Reported raw) :
    LengthsFit raw := by
  cases raw with
  | nil =>
      constructor
      · intro hd hh
        cases hh
      · intro flags hd len pos hflags
        cases hflags
  | cons flags rest =>
      rcases readHeader_cases (flags :: rest) with ⟨what, h⟩ | ⟨hd, h, htxID, hpos⟩
      · constructor
        · intro hd hh
          cases h.symm.trans hh
        · intro flags' hd len pos hflags hflag hh
          cases h.symm.trans hh
      have hfirst : hd.pos + hd.txIDLen < 2 ^ 63 := by
        by_contra hover
        refine not_reported_of_panic "slice bounds out of range" ?_ hrep
        rw [decodeRecord, decodeFields_eq, h, bind_ok,
          readBytes_of_le _ _ hpos htxID hraw (by omega)]
        rfl
      refine ⟨fun hd' hh => Except.ok.inj (h.symm.trans hh) ▸ hfirst, ?_⟩
      intro flags' hd' len pos hflags hflag hh hlen
      cases hflags
      obtain rfl : hd = hd' := Except.ok.inj (h.symm.trans hh)
      by_contra hover
      rcases readUvarint_cases (flags :: rest) (hd.pos + hd.txIDLen) "value length" with
        hread | ⟨len', pos', hread, hlen', hstart, hstop⟩
      · cases hread.symm.trans hlen
      obtain ⟨rfl, rfl⟩ : len' = len ∧ pos' = pos :=
        Prod.mk.inj (Except.ok.inj (hread.symm.trans hlen))
      refine not_reported_of_panic "makeslice: len out of range" ?_ hrep
      rw [decodeRecord, decodeFields_eq, h, bind_ok, readBytes_of_lt _ _ hfirst,
        if_neg (by omega), bind_ok, readValue, if_pos hflag, hread, bind_ok]
      dsimp only
      rw [readBytes_of_le _ _ hstop hlen' hraw (by omega)]
      rfl

/-- Every byte string is reported or read from its parts, unless a length in it overflows. -/
theorem reported_iff_lengthsFit {raw : Bytes} (hraw : raw.length < 2 ^ 63) :
    Reported raw ↔ LengthsFit raw := by
  constructor
  · exact lengthsFit_of_reported hraw
  · exact reported_of_lengthsFit

/-- Three zeros and the length 2^64 - 1, which is -1 as a signed number. -/
def hugeTxID : Bytes := [0, 0, 0, 0, 255, 255, 255, 255, 255, 255, 255, 255, 255, 1]

/-- A record that ends before its tx id does. -/
def shortTxID : Bytes := [0, 0, 0, 0, 5, 65]

theorem reported_shortTxID :
    shortTxID.length < 2 ^ 63 ∧ LengthsFit shortTxID ∧ Reported shortTxID := by
  have hlen : shortTxID.length < 2 ^ 63 := by decide
  have hrep : Reported shortTxID := trivial
  exact ⟨hlen, (reported_iff_lengthsFit hlen).mp hrep, hrep⟩

/-- The slice of a tx id of length -1. -/
theorem decodeRecord_hugeTxID :
    decodeRecord hugeTxID = .error (.panic "slice bounds out of range") ∧ ¬ Reported hugeTxID := by
  have hheader : readHeader hugeTxID = .ok ⟨0, 0, 0, 2 ^ 64 - 1, 14⟩ := by rfl
  have hpanic : decodeRecord hugeTxID = .error (.panic "slice bounds out of range") := by
    rw [decodeRecord_of_head rfl, decodeFields_eq, hheader, bind_ok,
      readBytes_of_le _ _ (by decide) (by decide) (by decide) (by decide)]
    rfl
  exact ⟨hpanic, not_reported_of_panic _ hpanic⟩

end Storage
