import Mathlib.Data.List.Lex
import Mathlib.Data.Nat.ModEq
import Mathlib.Tactic

/-!
# Positional notation, most significant digit first

`digits b w n` are the low `w` digits of `n` in base `b`, and `value b` reads a digit
string back.  Reading back what was written truncates as a fixed-width machine integer
does (`value_digits`), so below the bound the digits determine the number.

Byte strings are the case `b = 256`.  `encode w n` is the low `w` bytes of `n` and
`decode` reads any byte string.  `trim` drops leading zero bytes, which turns a
fixed-width encoding into the minimal one without changing what it denotes.  `minimal n` is
the minimal one of any number.

Byte strings are ordered byte by byte.  Encodings of one width are in the order of the
numbers (`encode_lt`), also as the first part of longer strings.
-/

/-- A byte string.  Go's `string` and non-nil `[]byte` are both this. -/
abbrev Bytes := List UInt8

instance lawfulBEqBytes : LawfulBEq Bytes := inferInstance

namespace BigEndian

/-! ## Digits in any base -/

/-- The low `w` digits of `n` in base `b`, most significant first. -/
def digits (b : Nat) : Nat → Nat → List Nat
  | 0, _ => []
  | w + 1, n => n / b ^ w % b :: digits b w n

/-- The number a digit string denotes. -/
def value (b : Nat) : List Nat → Nat
  | [] => 0
  | d :: ds => d * b ^ ds.length + value b ds

@[simp] theorem length_digits (b w n : Nat) : (digits b w n).length = w := by
  induction w with
  | zero => rfl
  | succ w ih => simp [digits, ih]

theorem value_digits (b w n : Nat) : value b (digits b w n) = n % b ^ w := by
  induction w with
  | zero => simp [digits, value, Nat.mod_one]
  | succ w ih =>
      rw [digits, value, ih, length_digits, Nat.mod_pow_succ]
      ring

theorem digits_lt {b : Nat} (hb : 0 < b) (w n : Nat) : ∀ d ∈ digits b w n, d < b := by
  induction w with
  | zero => simp [digits]
  | succ w ih =>
      intro d hd
      rcases List.mem_cons.mp hd with h | h
      · exact h ▸ Nat.mod_lt _ hb
      · exact ih d h

/-- Below the bound the digits determine the number. -/
theorem digits_inj {b w m n : Nat} (hm : m < b ^ w) (hn : n < b ^ w)
    (h : digits b w m = digits b w n) : m = n := by
  have hv := congrArg (value b) h
  rwa [value_digits, value_digits, Nat.mod_eq_of_lt hm, Nat.mod_eq_of_lt hn] at hv

/-! ## Bytes -/

/-- The low `w` bytes of `n`, most significant first. -/
def encode (w n : Nat) : Bytes := (digits 256 w n).map UInt8.ofNat

/-- The number a byte string denotes, most significant byte first. -/
def decode (bs : Bytes) : Nat := value 256 (bs.map UInt8.toNat)

/-- The byte string without its leading zero bytes. -/
def trim (bs : Bytes) : Bytes := bs.dropWhile (· == 0)

@[simp] theorem length_encode (w n : Nat) : (encode w n).length = w := by
  simp [encode]

/-- The bytes of an encoding are its digits. -/
theorem map_toNat_encode (w n : Nat) : (encode w n).map UInt8.toNat = digits 256 w n := by
  rw [encode, List.map_map]
  conv_rhs => rw [← List.map_id (digits 256 w n)]
  refine List.map_congr_left fun d hd => ?_
  have hlt : d < 256 := digits_lt (by omega) w n d hd
  simp only [Function.comp_apply, UInt8.toNat_ofNat', id_eq]
  omega

theorem decode_encode (w n : Nat) : decode (encode w n) = n % 256 ^ w := by
  rw [decode, map_toNat_encode, value_digits]

theorem encode_inj {w m n : Nat} (hm : m < 256 ^ w) (hn : n < 256 ^ w)
    (h : encode w m = encode w n) : m = n := by
  have hd := congrArg decode h
  rwa [decode_encode, decode_encode, Nat.mod_eq_of_lt hm, Nat.mod_eq_of_lt hn] at hd

theorem decode_cons (c : UInt8) (bs : Bytes) :
    decode (c :: bs) = c.toNat * 256 ^ bs.length + decode bs := by
  simp [decode, value]

theorem decode_lt (bs : Bytes) : decode bs < 256 ^ bs.length := by
  induction bs with
  | nil => exact Nat.one_pos
  | cons c bs ih =>
      rw [decode_cons, List.length_cons, pow_succ]
      have hc := c.toNat_lt
      have hmul : c.toNat * 256 ^ bs.length ≤ 255 * 256 ^ bs.length :=
        Nat.mul_le_mul_right _ (by omega)
      omega

/-- Leading zeros do not count. -/
theorem decode_trim (bs : Bytes) : decode (trim bs) = decode bs := by
  induction bs with
  | nil => rfl
  | cons c bs ih =>
      by_cases hc : c = 0
      · subst hc
        rw [decode_cons, UInt8.toNat_zero, Nat.zero_mul, Nat.zero_add, ← ih]
        rfl
      · rw [trim, List.dropWhile_cons_of_neg (by simpa using hc)]

/-- The bytes of a number without leading zeros.  Zero has none. -/
def minimal (n : Nat) : Bytes := trim (encode (Nat.log 256 n + 1) n)

@[simp] theorem decode_minimal (n : Nat) : decode (minimal n) = n := by
  have hlt : n < 256 ^ (Nat.log 256 n + 1) := Nat.lt_pow_succ_log_self (by omega) n
  rw [minimal, decode_trim, decode_encode, Nat.mod_eq_of_lt hlt]

/-! ## Byte order -/

instance linearOrderUInt8 : LinearOrder UInt8 where
  le_refl := UInt8.le_refl
  le_trans _ _ _ := UInt8.le_trans
  le_antisymm _ _ := UInt8.le_antisymm
  le_total := UInt8.le_total
  lt_iff_le_not_ge a b := by
    rw [UInt8.not_le]
    exact ⟨fun h => ⟨UInt8.le_of_lt h, h⟩, And.right⟩
  toDecidableLE := inferInstance
  toDecidableEq := inferInstance
  toDecidableLT := inferInstance

/-- Strings with parts of one length: the first parts decide, then the rest. -/
theorem append_lt_append {a b x y : Bytes} (hlen : a.length = b.length) :
    a ++ x < b ++ y ↔ a < b ∨ a = b ∧ x < y := by
  induction a generalizing b with
  | nil =>
      cases List.length_eq_zero_iff.mp hlen.symm
      simp
  | cons c a ih =>
      cases b with
      | nil => cases hlen
      | cons d b =>
          rw [List.cons_append, List.cons_append, List.cons_lt_cons_iff, List.cons_lt_cons_iff,
            ih (Nat.succ.inj hlen), List.cons.injEq]
          tauto

/-- A string comes after its prefixes. -/
theorem le_append (a b : Bytes) : a ≤ a ++ b := by
  rw [← not_lt, ← List.append_nil a, List.append_assoc, append_lt_append rfl]
  simp

theorem encode_lt_of_mod_lt {w m n : Nat} (h : m % 256 ^ w < n % 256 ^ w) :
    encode w m < encode w n := by
  induction w with
  | zero =>
      rw [pow_zero, Nat.mod_one, Nat.mod_one] at h
      exact absurd h (lt_irrefl 0)
  | succ w ih =>
      rw [Nat.mod_pow_succ, Nat.mod_pow_succ] at h
      change UInt8.ofNat (m / 256 ^ w % 256) :: encode w m <
        UInt8.ofNat (n / 256 ^ w % 256) :: encode w n
      rw [List.cons_lt_cons_iff]
      have hr : m % 256 ^ w < 256 ^ w := Nat.mod_lt _ (by positivity)
      have hq : n % 256 ^ w < 256 ^ w := Nat.mod_lt _ (by positivity)
      have ha : m / 256 ^ w % 256 < 256 := Nat.mod_lt _ (by omega)
      have hb : n / 256 ^ w % 256 < 256 := Nat.mod_lt _ (by omega)
      rcases lt_trichotomy (m / 256 ^ w % 256) (n / 256 ^ w % 256) with hlt | heq | hgt
      · left
        rw [UInt8.lt_iff_toNat_lt, UInt8.toNat_ofNat_of_lt' ha, UInt8.toNat_ofNat_of_lt' hb]
        exact hlt
      · right
        rw [heq] at h ⊢
        exact ⟨rfl, ih (Nat.lt_of_add_lt_add_right h)⟩
      · have hmul := Nat.mul_le_mul_left (256 ^ w) (Nat.succ_le_of_lt hgt)
        rw [Nat.mul_succ] at hmul
        omega

/-- Encodings of one width are in the order of the numbers. -/
theorem encode_lt {w m n : Nat} (hm : m < 256 ^ w) (hn : n < 256 ^ w) :
    encode w m < encode w n ↔ m < n := by
  have hlt : ∀ {i j : Nat}, j < 256 ^ w → i < j → encode w i < encode w j := fun hj hij =>
    encode_lt_of_mod_lt (by rwa [Nat.mod_eq_of_lt hj, Nat.mod_eq_of_lt (hij.trans hj)])
  refine ⟨fun h => ?_, hlt hn⟩
  rcases lt_trichotomy m n with hmn | rfl | hmn
  · exact hmn
  · exact absurd h (lt_irrefl _)
  · exact absurd h (hlt hm hmn).asymm

end BigEndian
