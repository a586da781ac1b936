/-
This file develops big-endian byte strings as numerals in base 256: the value a
byte string denotes, and the shortest byte string of a number. Length-prefixed
encodings store a size in this form, with the shortest string as the only
canonical one, so a decoder that reads a size back needs the round trip and the
facts that the shortest string has no leading zero byte and has a bounded
length. The value is the fold that a shift-and-or loop computes; the shortest
string is read off Mathlib's base-256 digits.
-/

import Mathlib.Data.Nat.Digits.Lemmas
import Mathlib.Data.List.Induction
import Mathlib.Data.List.GetD

namespace BigEndian

/-- The number a big-endian byte string denotes: each byte shifts the value left
by eight bits and fills the low byte. -/
def ofBytes (bytes : List UInt8) : Nat :=
  bytes.foldl (fun value byte => value * 256 + byte.toNat) 0

/-- The shortest big-endian byte string of a number. Zero has the empty one. -/
def toBytes (value : Nat) : List UInt8 :=
  ((Nat.digits 256 value).map UInt8.ofNat).reverse

/-! ### The value of a byte string -/

theorem foldl_value (bytes : List UInt8) (start : Nat) :
    bytes.foldl (fun value byte => value * 256 + byte.toNat) start =
      start * 256 ^ bytes.length + ofBytes bytes := by
  induction bytes generalizing start with
  | nil => simp [ofBytes]
  | cons byte rest inductionHypothesis =>
    simp only [List.foldl_cons, ofBytes, List.length_cons]
    rw [inductionHypothesis, inductionHypothesis (0 * 256 + byte.toNat), pow_succ]
    ring

@[simp] theorem ofBytes_nil : ofBytes [] = 0 := rfl

theorem ofBytes_cons (byte : UInt8) (rest : List UInt8) :
    ofBytes (byte :: rest) = byte.toNat * 256 ^ rest.length + ofBytes rest := by
  rw [ofBytes, List.foldl_cons, foldl_value]
  simp

theorem ofBytes_append (front back : List UInt8) :
    ofBytes (front ++ back) = ofBytes front * 256 ^ back.length + ofBytes back := by
  rw [ofBytes, List.foldl_append, foldl_value]
  rfl

/-- Reading a byte string agrees with the base-256 digits read from the low end. -/
theorem ofBytes_eq_ofDigits (bytes : List UInt8) :
    ofBytes bytes = Nat.ofDigits 256 (bytes.reverse.map UInt8.toNat) := by
  induction bytes using List.reverseRecOn with
  | nil => rfl
  | append_singleton front byte inductionHypothesis =>
    rw [ofBytes_append, inductionHypothesis, List.reverse_append, List.reverse_singleton,
      List.singleton_append, List.map_cons, Nat.ofDigits_cons]
    simp [ofBytes]
    ring

theorem ofBytes_lt (bytes : List UInt8) : ofBytes bytes < 256 ^ bytes.length := by
  induction bytes with
  | nil => simp
  | cons byte rest inductionHypothesis =>
    rw [ofBytes_cons, List.length_cons, pow_succ']
    have byteBound : byte.toNat < 256 := byte.toNat_lt
    nlinarith [Nat.one_le_two_pow (n := 8 * rest.length),
      show 0 < 256 ^ rest.length from by positivity]

/-- Of two byte strings of one length, the one with the smaller first byte is
the smaller number. -/
theorem ofBytes_cons_lt_of_lt {a b : UInt8} {as bs : List UInt8} (sameLength : as.length = bs.length)
    (smaller : a.toNat < b.toNat) : ofBytes (a :: as) < ofBytes (b :: bs) := by
  rw [ofBytes_cons, ofBytes_cons, ← sameLength]
  have restBound := ofBytes_lt as
  calc a.toNat * 256 ^ as.length + ofBytes as < a.toNat * 256 ^ as.length + 256 ^ as.length :=
        Nat.add_lt_add_left restBound _
    _ = (a.toNat + 1) * 256 ^ as.length := by rw [add_mul, one_mul]
    _ ≤ b.toNat * 256 ^ as.length := Nat.mul_le_mul_right _ smaller
    _ ≤ b.toNat * 256 ^ as.length + ofBytes bs := Nat.le_add_right _ _

/-- Behind one first byte, byte strings of one length compare as their rests. -/
theorem ofBytes_cons_lt_cons_iff (a : UInt8) {as bs : List UInt8} (sameLength : as.length = bs.length) :
    ofBytes (a :: as) < ofBytes (a :: bs) ↔ ofBytes as < ofBytes bs := by
  rw [ofBytes_cons, ofBytes_cons, ← sameLength]
  exact Nat.add_lt_add_iff_left

/-! ### Bytes and bits of the value -/

theorem ofBytes_replicate_zero (count : Nat) : ofBytes (List.replicate count 0) = 0 := by
  induction count with
  | zero => rfl
  | succ count inductionHypothesis =>
    rw [List.replicate_succ, ofBytes_cons, inductionHypothesis]
    simp

/-- Leading zero bytes do not change the value. -/
theorem ofBytes_zeros_append (count : Nat) (bytes : List UInt8) :
    ofBytes (List.replicate count 0 ++ bytes) = ofBytes bytes := by
  rw [ofBytes_append, ofBytes_replicate_zero, Nat.zero_mul, Nat.zero_add]

/-- The byte j places from the end is digit j of the value in base 256.
Induction on the string from its last byte. -/
theorem getD_eq_ofBytes_div (bytes : List UInt8) {j : Nat} (inside : j < bytes.length) :
    (bytes.getD (bytes.length - 1 - j) 0).toNat = ofBytes bytes / 256 ^ j % 256 := by
  induction bytes using List.reverseRecOn generalizing j with
  | nil => exact absurd inside (Nat.not_lt_zero j)
  | append_singleton front byte inductionHypothesis =>
    have value : ofBytes (front ++ [byte]) = ofBytes front * 256 + byte.toNat := by
      rw [ofBytes_append, List.length_singleton, Nat.pow_one]
      simp [ofBytes]
    rw [List.length_append, List.length_singleton] at inside ⊢
    rw [value]
    cases j with
    | zero =>
      rw [List.getD_eq_getElem _ _ (by simp), List.getElem_append_right (by omega)]
      simp only [Nat.add_sub_cancel, Nat.sub_zero, Nat.sub_self, List.getElem_singleton, Nat.pow_zero,
        Nat.div_one]
      have := byte.toNat_lt
      omega
    | succ j =>
      have earlier : front.length + 1 - 1 - (j + 1) = front.length - 1 - j := by omega
      rw [earlier, List.getD_append _ _ _ _ (by omega), inductionHypothesis (by omega), Nat.pow_succ,
        Nat.mul_comm (256 ^ j), ← Nat.div_div_eq_div_mul]
      have := byte.toNat_lt
      congr 2
      omega

/-- Bit i of the value is bit i % 8 of the byte i / 8 places from the end. -/
theorem testBit_ofBytes (bytes : List UInt8) {i : Nat} (inside : i < 8 * bytes.length) :
    (ofBytes bytes).testBit i = (bytes.getD (bytes.length - 1 - i / 8) 0).toNat.testBit (i % 8) := by
  rw [getD_eq_ofBytes_div bytes (by omega), show (256 : Nat) = 2 ^ 8 from rfl, ← Nat.pow_mul,
    Nat.testBit_mod_two_pow, Nat.testBit_div_two_pow]
  have split : i % 8 + 8 * (i / 8) = i := Nat.mod_add_div i 8
  rw [split]
  simp [Nat.mod_lt i (show 0 < 8 by decide)]

/-! ### The shortest byte string -/

theorem digits_lt {value digit : Nat} (member : digit ∈ Nat.digits 256 value) : digit < 256 :=
  Nat.digits_lt_base (by decide) member

theorem toNat_ofNat_digit {digit : Nat} (bound : digit < 256) :
    (UInt8.ofNat digit).toNat = digit := by
  rw [UInt8.toNat_ofNat']
  exact Nat.mod_eq_of_lt (by omega)

@[simp] theorem toBytes_zero : toBytes 0 = [] := by
  simp [toBytes]

theorem length_toBytes (value : Nat) : (toBytes value).length = (Nat.digits 256 value).length := by
  simp [toBytes]

theorem ofBytes_toBytes (value : Nat) : ofBytes (toBytes value) = value := by
  rw [ofBytes_eq_ofDigits, toBytes, List.reverse_reverse, List.map_map]
  have digitsFixed : (Nat.digits 256 value).map (UInt8.toNat ∘ UInt8.ofNat) =
      Nat.digits 256 value := by
    conv_rhs => rw [← List.map_id (Nat.digits 256 value)]
    refine List.map_congr_left fun digit member => ?_
    exact toNat_ofNat_digit (digits_lt member)
  rw [digitsFixed, Nat.ofDigits_digits]

theorem toBytes_eq_nil_iff (value : Nat) : toBytes value = [] ↔ value = 0 := by
  simp [toBytes, Nat.digits_eq_nil_iff_eq_zero]

/-- The shortest string of a positive number does not start with a zero byte. -/
theorem head_toBytes_ne_zero {value : Nat} (positive : value ≠ 0) :
    ∀ byte rest, toBytes value = byte :: rest → byte ≠ 0 := by
  intro byte rest split
  have digitsNonempty : Nat.digits 256 value ≠ [] := Nat.digits_ne_nil_iff_ne_zero.mpr positive
  have lastDigit := Nat.getLast_digit_ne_zero 256 positive
  have headIsLast : byte = UInt8.ofNat ((Nat.digits 256 value).getLast digitsNonempty) := by
    have reversed := congrArg List.head? split
    rw [toBytes, List.head?_reverse, List.getLast?_map, List.getLast?_eq_some_getLast digitsNonempty]
      at reversed
    simpa using reversed.symm
  intro zero
  apply lastDigit
  have bound := digits_lt (List.getLast_mem digitsNonempty)
  rw [← toNat_ofNat_digit bound, ← headIsLast, zero]
  rfl

/-- A number below 256 ^ k has a shortest string of at most k bytes. -/
theorem length_toBytes_le {value width : Nat} (bound : value < 256 ^ width) :
    (toBytes value).length ≤ width := by
  rw [length_toBytes]
  exact (Nat.digits_length_le_iff (by decide) value).mpr bound

/-- A byte string without a leading zero byte is the shortest string of its
value: a decoder that rejects leading zeros reads back only what toBytes writes. -/
theorem toBytes_ofBytes {bytes : List UInt8} (leading : bytes.head? ≠ some 0) :
    toBytes (ofBytes bytes) = bytes := by
  have digits : Nat.digits 256 (Nat.ofDigits 256 (bytes.reverse.map UInt8.toNat)) =
      bytes.reverse.map UInt8.toNat := by
    apply Nat.digits_ofDigits 256 (by decide)
    · intro digit member
      obtain ⟨byte, -, rfl⟩ := List.mem_map.mp member
      exact byte.toNat_lt
    · -- the last digit is the leading byte
      intro nonempty
      rw [List.getLast_map, List.getLast_reverse]
      intro zero
      apply leading
      rw [List.head?_eq_some_head (by simpa using nonempty)]
      congr 1
      exact UInt8.toNat_inj.mp zero
  rw [toBytes, ofBytes_eq_ofDigits, digits, List.map_map]
  simp [Function.comp_def, UInt8.ofNat_toNat]

/-! ### Fixed-width strings -/

/-- The big-endian string of a number in exactly width bytes: the low width
bytes of a number that needs more. -/
def padded : Nat → Nat → List UInt8
  | 0, _ => []
  | width + 1, value => padded width (value / 256) ++ [UInt8.ofNat value]

@[simp] theorem length_padded (width value : Nat) : (padded width value).length = width := by
  induction width generalizing value with
  | zero => rfl
  | succ width inductionHypothesis => simp [padded, inductionHypothesis]

theorem ofBytes_padded (width value : Nat) : ofBytes (padded width value) = value % 256 ^ width := by
  induction width generalizing value with
  | zero => simp [padded, Nat.mod_one]
  | succ width inductionHypothesis =>
    rw [padded, ofBytes_append, inductionHypothesis, Nat.pow_succ, Nat.mul_comm (256 ^ width) 256,
      Nat.mod_mul]
    simp only [ofBytes, List.foldl_cons, List.foldl_nil, UInt8.toNat_ofNat', List.length_singleton,
      Nat.pow_one]
    omega

/-- The low bytes of a wider fixed-width string are the narrower string. -/
theorem drop_padded (front width value : Nat) :
    (padded (front + width) value).drop front = padded width value := by
  induction width generalizing value with
  | zero => simp [padded]
  | succ width inductionHypothesis =>
    rw [← Nat.add_assoc, padded, List.drop_append_of_le_length (by simp), inductionHypothesis, padded]

end BigEndian
