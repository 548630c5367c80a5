import FabricXEvm.Lib.BigEndian

/-!
# Variable-length integers

Go's `encoding/binary` format for unsigned 64-bit numbers: seven bits to a byte, the lowest
first, with the high bit set on every byte but the last.  A number takes ten bytes at most,
and a tenth byte above one is an overflow.  Reading a number that was written gives it back
and says how many bytes it took (`decode_encode`).
-/

namespace Uvarint

/-- `AppendUvarint` with at most `fuel` bytes before the last. -/
def encodeAux : Nat → Nat → Bytes
  | 0, x => [UInt8.ofNat x]
  | fuel + 1, x =>
      if x < 128 then [UInt8.ofNat x] else UInt8.ofNat (x % 128 + 128) :: encodeAux fuel (x / 128)

/-- `AppendUvarint` of a 64-bit number. -/
def encode (x : Nat) : Bytes := encodeAux 9 x

/-- `Uvarint` after `i` bytes that denote `x`. -/
def decodeAux (i x : Nat) : Bytes → Option (Nat × Nat)
  | [] => none
  | b :: bs =>
      if i = 10 then none
      else if b.toNat < 128 then
        if i = 9 ∧ 1 < b.toNat then none else some (x + b.toNat * 2 ^ (7 * i), i + 1)
      else decodeAux (i + 1) (x + b.toNat % 128 * 2 ^ (7 * i)) bs

/-- `Uvarint`: the number and how many bytes it took.  `none` is a count of zero or below,
which is a short buffer or an overflow. -/
def decode (buf : Bytes) : Option (Nat × Nat) := decodeAux 0 0 buf

theorem toNat_byte {n : Nat} (h : n < 256) : (UInt8.ofNat n).toNat = n :=
  UInt8.toNat_ofNat_of_lt' h

theorem decodeAux_encodeAux {fuel i : Nat} (hi : i + fuel = 9) {n : Nat}
    (hn : n < 2 ^ (7 * fuel + 1)) (x : Nat) (rest : Bytes) :
    decodeAux i x (encodeAux fuel n ++ rest) =
      some (x + n * 2 ^ (7 * i), i + (encodeAux fuel n).length) := by
  induction fuel generalizing i n x with
  | zero =>
      have hb : (UInt8.ofNat n).toNat = n := toNat_byte (by simp at hn; omega)
      have hi : i = 9 := by omega
      have hn : n < 2 := by simpa using hn
      simp only [encodeAux, List.cons_append, List.nil_append, decodeAux, hb]
      rw [if_neg (by omega), if_pos (by omega), if_neg (by omega)]
      rfl
  | succ fuel ih =>
      rw [encodeAux]
      by_cases hsmall : n < 128
      · have hb : (UInt8.ofNat n).toNat = n := toNat_byte (by omega)
        rw [if_pos hsmall]
        simp only [List.cons_append, List.nil_append, decodeAux, hb]
        rw [if_neg (by omega), if_pos hsmall, if_neg (by omega)]
        rfl
      · have hb : (UInt8.ofNat (n % 128 + 128)).toNat = n % 128 + 128 :=
          toNat_byte (by omega)
        have hpow : 2 ^ (7 * (fuel + 1) + 1) = 128 * 2 ^ (7 * fuel + 1) := by ring
        have hshift : 2 ^ (7 * (i + 1)) = 128 * 2 ^ (7 * i) := by ring
        rw [if_neg hsmall]
        simp only [List.cons_append, decodeAux, hb]
        rw [if_neg (by omega), if_neg (by omega), ih (by omega) (by omega), hshift,
          List.length_cons]
        -- the low seven bits and the rest
        have hsplit : n % 128 + 128 * (n / 128) = n := Nat.mod_add_div n 128
        have hmod : (n % 128 + 128) % 128 = n % 128 := by omega
        refine congrArg some (Prod.ext ?_ ?_)
        · change x + (n % 128 + 128) % 128 * 2 ^ (7 * i) + n / 128 * (128 * 2 ^ (7 * i)) =
            x + n * 2 ^ (7 * i)
          rw [hmod]
          conv_rhs => rw [← hsplit]
          ring
        · change i + 1 + _ = i + (_ + 1)
          omega

theorem decode_encode {n : Nat} (hn : n < 2 ^ 64) (rest : Bytes) :
    decode (encode n ++ rest) = some (n, (encode n).length) := by
  rw [decode, encode, decodeAux_encodeAux (by rfl) hn]
  simp

theorem decodeAux_bounds {i x : Nat} (hi : i ≤ 10) (hx : x < 2 ^ (7 * i)) {buf : Bytes} {y n : Nat}
    (h : decodeAux i x buf = some (y, n)) : y < 2 ^ 64 ∧ n ≤ i + buf.length := by
  induction buf generalizing i x with
  | nil => simp [decodeAux] at h
  | cons b bs ih =>
      rw [decodeAux] at h
      by_cases hten : i = 10
      · simp [hten] at h
      rw [if_neg hten] at h
      have hshift : 2 ^ (7 * (i + 1)) = 128 * 2 ^ (7 * i) := by ring
      by_cases hlast : b.toNat < 128
      · rw [if_pos hlast] at h
        by_cases hover : i = 9 ∧ 1 < b.toNat
        · simp [hover] at h
        rw [if_neg hover] at h
        cases h
        have hy : x + b.toNat * 2 ^ (7 * i) < 2 ^ 64 := by
          -- the tenth byte has one bit, the bytes before it seven
          rcases Nat.lt_or_ge i 9 with hi | hi
          · have hle : 2 ^ (7 * (i + 1)) ≤ 2 ^ 63 := Nat.pow_le_pow_right (by omega) (by omega)
            have hb : b.toNat * 2 ^ (7 * i) ≤ 127 * 2 ^ (7 * i) :=
              Nat.mul_le_mul_right _ (by omega)
            omega
          · have hi : i = 9 := by omega
            subst hi
            omega
        exact ⟨hy, by rw [List.length_cons]; omega⟩
      · rw [if_neg hlast] at h
        have hb : b.toNat % 128 * 2 ^ (7 * i) ≤ 127 * 2 ^ (7 * i) :=
          Nat.mul_le_mul_right _ (by omega)
        obtain ⟨hy, hn⟩ := ih (by omega) (by omega) h
        exact ⟨hy, by rw [List.length_cons]; omega⟩

/-- A number that was read fits in 64 bits, and its bytes were there. -/
theorem decode_bounds {buf : Bytes} {y n : Nat} (h : decode buf = some (y, n)) :
    y < 2 ^ 64 ∧ n ≤ buf.length := by
  simpa using decodeAux_bounds (by omega) (by simp) h

theorem length_encodeAux_le (fuel n : Nat) : (encodeAux fuel n).length ≤ fuel + 1 := by
  induction fuel generalizing n with
  | zero => exact Nat.le_refl 1
  | succ fuel ih =>
      rw [encodeAux]
      split
      next => exact Nat.le_add_left 1 (fuel + 1)
      next => exact Nat.succ_le_succ (ih (n / 128))

theorem length_encode_le (n : Nat) : (encode n).length ≤ 10 := length_encodeAux_le 9 n

end Uvarint
