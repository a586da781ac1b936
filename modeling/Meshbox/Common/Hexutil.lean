/-
This file models the hex encodings of common/hexutil/hexutil.go, with the
parts of encoding/hex, strconv and fmt they call, as Go 1.9 has them. Strings
are byte strings, indexed as Go indexes them.

Decode and Encode are hex.DecodeString and hex.Encode behind a 0x. The
quantities are numbers written with no leading zero: EncodeUint64 and EncodeBig
write the base-16 digits of strconv's formatBits, and DecodeUint64 reads them
with strconv.ParseUint. DecodeBig assembles its number from machine words of
bigWordNibbles digits each, taken from the right of the digit string, with
the last word starting at the front, and hands the words to big.Int.SetBits.

The proofs read every parser as one equation: the value of a digit string is
Nat.ofDigits of its nibbles, least significant first, and a loop is that value
or ErrSyntax. The three round trips follow, and so does the converse for
DecodeBig: what it accepts is canonical, and encoding its value gives the input
back, lower-cased.
-/

import Mathlib.Data.Nat.Digits.Lemmas
import Mathlib.Data.FinEnum

namespace Meshbox.Hexutil

/-! ### Errors -/

def ErrEmptyString : String := "empty hex string"

def ErrSyntax : String := "invalid hex string"

def ErrMissingPrefix : String := "hex string without 0x prefix"

def ErrOddLength : String := "hex string of odd length"

def ErrEmptyNumber : String := "hex string \"0x\""

def ErrLeadingZero : String := "hex number with leading zero digits"

def ErrUint64Range : String := "hex number > 64 bits"

def ErrBig256Range : String := "hex number > 256 bits"

/-- The errors of the library calls that mapError translates: strconv's
NumError with ErrRange or ErrSyntax, and encoding/hex's InvalidByteError and
ErrLength. -/
inductive LibError where
  | ErrRange
  | ErrSyntax
  | InvalidByteError (byte : UInt8)
  | ErrLength
deriving DecidableEq, Repr

def mapError : LibError → String
  | .ErrRange => ErrUint64Range
  | .ErrSyntax => ErrSyntax
  | .InvalidByteError _ => ErrSyntax
  | .ErrLength => ErrOddLength

/-! ### Digits -/

/-- The digit of a value below 16, lower case: hextable[v] of encoding/hex,
and digits[v] of strconv. -/
def hexDigit (v : Nat) : UInt8 :=
  if v < 10 then '0'.toUInt8 + UInt8.ofNat v else 'a'.toUInt8 + UInt8.ofNat (v - 10)

/-- decodeNibble: the value of a hex digit of either case, none for badNibble. -/
def decodeNibble (c : UInt8) : Option Nat :=
  if '0'.toUInt8 ≤ c ∧ c ≤ '9'.toUInt8 then some (c - '0'.toUInt8).toNat
  else if 'A'.toUInt8 ≤ c ∧ c ≤ 'F'.toUInt8 then some (c - 'A'.toUInt8 + 10).toNat
  else if 'a'.toUInt8 ≤ c ∧ c ≤ 'f'.toUInt8 then some (c - 'a'.toUInt8 + 10).toNat
  else none

/-- fromHexChar of encoding/hex: the same digits, tested lower case first. -/
def fromHexChar (c : UInt8) : Option Nat :=
  if '0'.toUInt8 ≤ c ∧ c ≤ '9'.toUInt8 then some (c - '0'.toUInt8).toNat
  else if 'a'.toUInt8 ≤ c ∧ c ≤ 'f'.toUInt8 then some (c - 'a'.toUInt8 + 10).toNat
  else if 'A'.toUInt8 ≤ c ∧ c ≤ 'F'.toUInt8 then some (c - 'A'.toUInt8 + 10).toNat
  else none

/-- The nibbles of a digit string, most significant first; none if a byte is
no hex digit. -/
def nibblesOf (s : List UInt8) : Option (List Nat) :=
  s.mapM decodeNibble

/-- A byte in lower case, as the claim of canonical output compares it. -/
def lower (c : UInt8) : UInt8 :=
  if 'A'.toUInt8 ≤ c ∧ c ≤ 'Z'.toUInt8 then c + 32 else c

/-! ### encoding/hex and Decode, Encode -/

/-- hex.Encode: two digits for each byte, high nibble first. -/
def hexEncode (src : List UInt8) : List UInt8 :=
  src.flatMap fun (v : UInt8) => [hexDigit (v >>> 4).toNat, hexDigit (v &&& 0x0f).toNat]

/-- The loop of hex.Decode over the pairs of src. -/
def decodePairs : List UInt8 → Except LibError (List UInt8)
  | a :: b :: rest =>
    match fromHexChar a with
    | none => .error (.InvalidByteError a)
    | some high =>
      match fromHexChar b with
      | none => .error (.InvalidByteError b)
      | some low => (UInt8.ofNat (high * 16 + low) :: ·) <$> decodePairs rest
  | _ => .ok []

/-- hex.DecodeString: ErrLength for an odd length, before any digit is read. -/
def hexDecodeString (s : List UInt8) : Except LibError (List UInt8) :=
  if s.length % 2 = 1 then .error .ErrLength else decodePairs s

def has0xPrefix (input : List UInt8) : Bool :=
  2 ≤ input.length && input[0]? == some '0'.toUInt8 &&
    (input[1]? == some 'x'.toUInt8 || input[1]? == some 'X'.toUInt8)

/-- Decode decodes a hex string with 0x prefix. -/
def Decode (input : List UInt8) : Except String (List UInt8) :=
  if input.length = 0 then .error ErrEmptyString
  else if !has0xPrefix input then .error ErrMissingPrefix
  else (hexDecodeString (input.drop 2)).mapError mapError

/-- Encode encodes b as a hex string with 0x prefix. -/
def Encode (b : List UInt8) : List UInt8 :=
  ['0'.toUInt8, 'x'.toUInt8] ++ hexEncode b

/-! ### Quantities -/

/-- checkNumber: the digits after the 0x of a quantity, of which there is at
least one and no leading zero unless it is the only one. -/
def checkNumber (input : List UInt8) : Except String (List UInt8) :=
  if input.length = 0 then .error ErrEmptyString
  else if !has0xPrefix input then .error ErrMissingPrefix
  else
    let input := input.drop 2
    if input.length = 0 then .error ErrEmptyNumber
    else if 1 < input.length ∧ input[0]? = some '0'.toUInt8 then .error ErrLeadingZero
    else .ok input

/-- The loop of strconv's formatBits for base 16: while u has more than one
digit, the digit u & 15 goes in front and u is shifted right by 4. Each turn
takes a digit off, so u + 1 turns are enough. -/
def formatLoop : Nat → Nat → List UInt8 → List UInt8
  | 0, _, acc => acc
  | fuel + 1, u, acc =>
    if 16 ≤ u then formatLoop fuel (u >>> 4) (hexDigit (u &&& 15) :: acc) else hexDigit u :: acc

/-- The base-16 digits of u, as strconv.FormatUint and fmt's %x of a big.Int
write them: lower case, no leading zero, 0 for zero. -/
def formatBits (u : Nat) : List UInt8 :=
  formatLoop (u + 1) u []

/-- EncodeUint64 encodes i as a hex string with 0x prefix. -/
def EncodeUint64 (i : UInt64) : List UInt8 :=
  ['0'.toUInt8, 'x'.toUInt8] ++ formatBits i.toNat

/-- The digit strconv.ParseUint reads from a byte, before it compares it with
the base: none for a byte that is neither a digit nor a letter. -/
def parseDigit (d : UInt8) : Option Nat :=
  if '0'.toUInt8 ≤ d ∧ d ≤ '9'.toUInt8 then some (d - '0'.toUInt8).toNat
  else if 'a'.toUInt8 ≤ d ∧ d ≤ 'z'.toUInt8 then some (d - 'a'.toUInt8 + 10).toNat
  else if 'A'.toUInt8 ≤ d ∧ d ≤ 'Z'.toUInt8 then some (d - 'A'.toUInt8 + 10).toNat
  else none

/-- The loop of strconv.ParseUint in base 16 with bitSize 64. cutoff is
maxUint64 / 16 + 1, the least n with n * 16 past 64 bits; n1 < n tests a
sum that wrapped. -/
def parseUintLoop : List UInt8 → Nat → Except LibError Nat
  | [], n => .ok n
  | d :: rest, n =>
    match parseDigit d with
    | none => .error .ErrSyntax
    | some v =>
      if 16 ≤ v then .error .ErrSyntax
      else if (2 ^ 64 - 1) / 16 + 1 ≤ n then .error .ErrRange
      else
        let n1 := n * 16 + v
        if n1 < n ∨ 2 ^ 64 - 1 < n1 then .error .ErrRange else parseUintLoop rest n1

/-- strconv.ParseUint(s, 16, 64). -/
def ParseUint (s : List UInt8) : Except LibError Nat :=
  if s.length < 1 then .error .ErrSyntax else parseUintLoop s 0

/-- DecodeUint64 decodes a hex string with 0x prefix as a quantity. -/
def DecodeUint64 (input : List UInt8) : Except String UInt64 := do
  let raw ← checkNumber input
  match ParseUint raw with
  | .ok dec => .ok (UInt64.ofNat dec)
  | .error err => .error (mapError err)

/-- The digits of a big.Word on a 64-bit platform. -/
def bigWordNibbles : Nat := 16

/-- One turn of DecodeBig's inner loop: the next digit folded into the word,
ErrSyntax at a byte that is no hex digit. -/
def nibbleStep (word : Nat) (c : UInt8) : Except String Nat :=
  match decodeNibble c with
  | none => .error ErrSyntax
  | some nib => .ok (word * 16 + nib)

/-- One word of DecodeBig: the digits of raw[start:end], most significant
first. -/
def decodeWord (chunk : List UInt8) : Except String Nat :=
  chunk.foldlM nibbleStep 0

/-- The word loop of DecodeBig: count words, the first from the bigWordNibbles
digits that end at stop, each next one from the digits before, and the last
ones from the front or from nothing. -/
def wordsLoop (raw : List UInt8) : Nat → Nat → Except String (List Nat)
  | 0, _ => .ok []
  | count + 1, stop => do
    let start := stop - bigWordNibbles
    let word ← decodeWord ((raw.take stop).drop start)
    let words ← wordsLoop raw count start
    .ok (word :: words)

/-- big.Int.SetBits: words of 64 bits, least significant first. -/
def setBits (words : List Nat) : Nat :=
  words.foldr (fun word rest => word + 2 ^ 64 * rest) 0

/-- DecodeBig decodes a hex string with 0x prefix as a quantity. Numbers larger
than 256 bits are not accepted. -/
def DecodeBig (input : List UInt8) : Except String Nat := do
  let raw ← checkNumber input
  if 64 < raw.length then .error ErrBig256Range
  else
    let words ← wordsLoop raw (raw.length / bigWordNibbles + 1) raw.length
    .ok (setBits words)

/-- EncodeBig encodes bigint as a hex string with 0x prefix: fmt's %#x, which
writes a minus sign in front of a negative number. -/
def EncodeBig (bigint : Int) : List UInt8 :=
  if bigint.natAbs = 0 then ['0'.toUInt8, 'x'.toUInt8, '0'.toUInt8]
  else (if bigint < 0 then ['-'.toUInt8] else []) ++ ['0'.toUInt8, 'x'.toUInt8] ++ formatBits bigint.natAbs

/-! ### Single digits -/

theorem decodeNibble_hexDigit {v : Nat} (small : v < 16) : decodeNibble (hexDigit v) = some v := by
  have everyDigit : ∀ v : Fin 16, decodeNibble (hexDigit v) = some v := by decide
  exact everyDigit ⟨v, small⟩

theorem parseDigit_hexDigit {v : Nat} (small : v < 16) : parseDigit (hexDigit v) = some v := by
  have everyDigit : ∀ v : Fin 16, parseDigit (hexDigit v) = some v := by decide
  exact everyDigit ⟨v, small⟩

theorem hexDigit_eq_zero_iff {v : Nat} (small : v < 16) : hexDigit v = '0'.toUInt8 ↔ v = 0 := by
  have everyDigit : ∀ v : Fin 16, hexDigit v = '0'.toUInt8 ↔ v.val = 0 := by decide
  exact everyDigit ⟨v, small⟩

set_option maxRecDepth 4000 in
/-- What decodeNibble reads is a digit, and writing it back gives the byte in
lower case. -/
theorem decodeNibble_spec {c : UInt8} {v : Nat} (decoded : decodeNibble c = some v) :
    v < 16 ∧ hexDigit v = lower c ∧ (v = 0 ↔ c = '0'.toUInt8) := by
  have everyByte : ∀ c : UInt8, ((decodeNibble c).map fun v =>
      decide (v < 16) && hexDigit v == lower c && (v == 0) == (c == '0'.toUInt8)) ≠ some false := by
    decide
  have atByte := everyByte c
  rw [decoded] at atByte
  simpa using atByte

/-! ### Digit strings -/

theorem nibblesOf_cons (c : UInt8) (s : List UInt8) :
    nibblesOf (c :: s) = (decodeNibble c).bind fun v => (nibblesOf s).bind fun vs => some (v :: vs) := by
  unfold nibblesOf
  rw [List.mapM_cons]
  rfl

theorem nibblesOf_map_hexDigit (ds : List Nat) (small : ∀ d ∈ ds, d < 16) :
    nibblesOf (ds.map hexDigit) = some ds := by
  induction ds with
  | nil => rfl
  | cons d ds inductionHypothesis =>
    rw [List.map_cons, nibblesOf_cons, decodeNibble_hexDigit (small d List.mem_cons_self),
      inductionHypothesis fun d member => small d (List.mem_cons_of_mem _ member)]
    rfl

/-- The nibbles of a digit string: one per byte, each below 16, each written
back as the byte in lower case. -/
theorem nibblesOf_spec {s : List UInt8} {ns : List Nat} (decoded : nibblesOf s = some ns) :
    ns.length = s.length ∧ (∀ v ∈ ns, v < 16) ∧ ns.map hexDigit = s.map lower := by
  induction s generalizing ns with
  | nil =>
    cases decoded
    simp
  | cons c s inductionHypothesis =>
    rw [nibblesOf_cons] at decoded
    cases nibble : decodeNibble c with
    | none => rw [nibble] at decoded; cases decoded
    | some v =>
      cases rest : nibblesOf s with
      | none => rw [nibble, rest] at decoded; cases decoded
      | some vs =>
        rw [nibble, rest] at decoded
        cases decoded
        obtain ⟨small, lowered, -⟩ := decodeNibble_spec nibble
        obtain ⟨lengths, smallRest, loweredRest⟩ := inductionHypothesis rest
        refine ⟨by simp [lengths], ?_, by simp [lowered, loweredRest]⟩
        intro w member
        rcases List.mem_cons.mp member with same | later
        · exact same ▸ small
        · exact smallRest w later

/-! ### The digits a number is written with -/

/-- The digits formatBits writes for u, most significant first. -/
def hexDigitsOf (u : Nat) : List Nat :=
  if u = 0 then [0] else (Nat.digits 16 u).reverse

theorem formatLoop_eq (fuel u : Nat) (acc : List UInt8) (positive : 0 < u)
    (enough : (Nat.digits 16 u).length ≤ fuel) :
    formatLoop fuel u acc = (Nat.digits 16 u).reverse.map hexDigit ++ acc := by
  induction fuel generalizing u acc with
  | zero =>
    have noDigits := List.eq_nil_of_length_eq_zero (Nat.le_zero.mp enough)
    exact absurd (Nat.digits_eq_nil_iff_eq_zero.mp noDigits) (Nat.pos_iff_ne_zero.mp positive)
  | succ fuel inductionHypothesis =>
    have digits := Nat.digits_def' (by decide : 1 < 16) positive
    rw [formatLoop]
    by_cases large : 16 ≤ u
    · rw [if_pos large, Nat.shiftRight_eq_div_pow, show (15 : Nat) = 2 ^ 4 - 1 from rfl,
        Nat.and_two_pow_sub_one_eq_mod, show (2 : Nat) ^ 4 = 16 from rfl]
      rw [digits, List.length_cons] at enough
      rw [inductionHypothesis (u / 16) _ (by omega) (by omega), digits]
      simp
    · rw [if_neg large, Nat.digits_of_lt 16 u (by omega) (by omega)]
      rfl

theorem formatBits_eq (u : Nat) : formatBits u = (hexDigitsOf u).map hexDigit := by
  unfold formatBits hexDigitsOf
  by_cases zero : u = 0
  · subst zero
    rfl
  · rw [if_neg zero, formatLoop_eq _ _ _ (Nat.pos_of_ne_zero zero), List.append_nil]
    exact (Nat.digits_length_le_iff (by decide) u).mpr (Nat.lt_pow_self (by decide) |>.trans
      (Nat.pow_lt_pow_right (by decide) (Nat.lt_succ_self u)))

/-- hexDigitsOf writes u: its digits are below 16, there is at least one, the
first is 0 only for zero, and their value is u. -/
theorem hexDigitsOf_spec (u : Nat) :
    (∀ d ∈ hexDigitsOf u, d < 16) ∧ hexDigitsOf u ≠ [] ∧
      ((hexDigitsOf u).head? = some 0 → u = 0) ∧ Nat.ofDigits 16 (hexDigitsOf u).reverse = u := by
  unfold hexDigitsOf
  by_cases zero : u = 0
  · subst zero
    simp
  · have nonempty : Nat.digits 16 u ≠ [] := Nat.digits_ne_nil_iff_ne_zero.mpr zero
    rw [if_neg zero, List.reverse_reverse, Nat.ofDigits_digits]
    refine ⟨fun d member => Nat.digits_lt_base (by decide) (List.mem_reverse.mp member),
      List.reverse_ne_nil_iff.mpr nonempty, fun leading => ?_, rfl⟩
    rw [List.head?_reverse, List.getLast?_eq_some_getLast nonempty, Option.some.injEq] at leading
    exact absurd leading (Nat.getLast_digit_ne_zero 16 zero)

theorem length_hexDigitsOf_le {u width : Nat} (fits : u < 16 ^ width) (positive : 0 < width) :
    (hexDigitsOf u).length ≤ width := by
  unfold hexDigitsOf
  split
  · rw [List.length_singleton]
    exact positive
  · rw [List.length_reverse]
    exact (Nat.digits_length_le_iff (by decide) u).mpr fits

/-- A digit string with no leading zero, unless it is 0 alone, is the one
hexDigitsOf writes for its value. -/
theorem hexDigitsOf_ofDigits {ns : List Nat} (small : ∀ v ∈ ns, v < 16) (nonempty : ns ≠ [])
    (noLeading : ns.head? = some 0 → ns = [0]) : hexDigitsOf (Nat.ofDigits 16 ns.reverse) = ns := by
  by_cases single : ns = [0]
  · subst single
    rfl
  have leading : ns.head? ≠ some 0 := fun zero => single (noLeading zero)
  have lastNonzero : ∀ (nonempty : ns.reverse ≠ []), ns.reverse.getLast nonempty ≠ 0 := by
    intro nonempty zero
    apply leading
    rw [← List.getLast?_reverse, List.getLast?_eq_some_getLast nonempty, zero]
  have digits : Nat.digits 16 (Nat.ofDigits 16 ns.reverse) = ns.reverse :=
    Nat.digits_ofDigits 16 (by decide) ns.reverse (fun v member => small v (List.mem_reverse.mp member))
      lastNonzero
  have nonzero : Nat.ofDigits 16 ns.reverse ≠ 0 := by
    intro zero
    rw [zero, Nat.digits_zero] at digits
    exact nonempty (List.reverse_eq_nil_iff.mp digits.symm)
  rw [hexDigitsOf, if_neg nonzero, digits, List.reverse_reverse]

/-! ### The loops of the parsers -/

/-- decodeWord as one equation: the value of the chunk's nibbles, or ErrSyntax. -/
theorem foldlM_nibbleStep (chunk : List UInt8) (word : Nat) :
    chunk.foldlM nibbleStep word =
      match nibblesOf chunk with
      | none => .error ErrSyntax
      | some ns => .ok (word * 16 ^ ns.length + Nat.ofDigits 16 ns.reverse) := by
  induction chunk generalizing word with
  | nil =>
    simp [nibblesOf]
    rfl
  | cons c chunk inductionHypothesis =>
    rw [List.foldlM_cons, nibblesOf_cons]
    cases nibble : decodeNibble c with
    | none => simp [nibbleStep, nibble]; rfl
    | some v =>
      simp only [nibbleStep, nibble, Option.bind_some]
      show chunk.foldlM nibbleStep (word * 16 + v) = _
      rw [inductionHypothesis]
      cases nibblesOf chunk with
      | none => rfl
      | some ns =>
        show _ = Except.ok (word * 16 ^ (ns.length + 1) + Nat.ofDigits 16 (v :: ns).reverse)
        rw [Nat.ofDigits_reverse_cons, Except.ok.injEq]
        ring

theorem decodeWord_eq (chunk : List UInt8) :
    decodeWord chunk =
      match nibblesOf chunk with
      | none => .error ErrSyntax
      | some ns => .ok (Nat.ofDigits 16 ns.reverse) := by
  rw [decodeWord, foldlM_nibbleStep]
  cases nibblesOf chunk <;> simp

theorem nibblesOf_append (front back : List UInt8) :
    nibblesOf (front ++ back) =
      (nibblesOf front).bind fun ns => (nibblesOf back).bind fun ms => some (ns ++ ms) := by
  unfold nibblesOf
  rw [List.mapM_append]
  rfl

/-- The word loop as one equation: the words assembled from the first stop
digits make their value, or the loop stops with ErrSyntax. Each turn takes
bigWordNibbles digits, and a word is worth 16 ^ bigWordNibbles = 2 ^ 64 times
the one before it. -/
theorem wordsLoop_eq (raw : List UInt8) (count stop : Nat) (within : stop ≤ raw.length)
    (covered : stop ≤ count * bigWordNibbles) :
    setBits <$> wordsLoop raw count stop =
      match nibblesOf (raw.take stop) with
      | none => .error ErrSyntax
      | some ns => .ok (Nat.ofDigits 16 ns.reverse) := by
  induction count generalizing stop with
  | zero =>
    have empty : stop = 0 := by rw [Nat.zero_mul] at covered; omega
    subst empty
    rfl
  | succ count inductionHypothesis =>
    have split := List.take_append_drop (stop - bigWordNibbles) (raw.take stop)
    rw [List.take_take, Nat.min_eq_left (Nat.sub_le _ _)] at split
    have front := inductionHypothesis (stop - bigWordNibbles) (by omega)
      (by rw [Nat.succ_mul] at covered; omega)
    rw [← split, nibblesOf_append]
    simp only [wordsLoop]
    rw [decodeWord_eq]
    cases chunkNibbles : nibblesOf ((raw.take stop).drop (stop - bigWordNibbles)) with
    | none => cases nibblesOf (raw.take (stop - bigWordNibbles)) <;> rfl
    | some chunk =>
      cases frontWords : wordsLoop raw count (stop - bigWordNibbles) with
      | error err =>
        rw [frontWords] at front
        cases frontNibbles : nibblesOf (raw.take (stop - bigWordNibbles)) with
        | none =>
          rw [frontNibbles] at front
          cases front
          rfl
        | some ns => rw [frontNibbles] at front; cases front
      | ok words =>
        rw [frontWords] at front
        cases frontNibbles : nibblesOf (raw.take (stop - bigWordNibbles)) with
        | none => rw [frontNibbles] at front; cases front
        | some ns =>
          rw [frontNibbles] at front
          have value : setBits words = Nat.ofDigits 16 ns.reverse := Except.ok.inj front
          show Except.ok (Nat.ofDigits 16 chunk.reverse + 2 ^ 64 * setBits words) =
            Except.ok (Nat.ofDigits 16 (ns ++ chunk).reverse)
          rw [value, List.reverse_append, Nat.ofDigits_append, List.length_reverse]
          by_cases full : bigWordNibbles ≤ stop
          · have chunkLength : chunk.length = 16 := by
              rw [(nibblesOf_spec chunkNibbles).1, List.length_drop, List.length_take]
              unfold bigWordNibbles at full ⊢
              omega
            rw [chunkLength]
            rfl
          · have noFront : stop - bigWordNibbles = 0 := by omega
            rw [noFront, List.take_zero] at frontNibbles
            cases frontNibbles
            rfl

/-- DecodeBig as one equation: the value of the digits checkNumber passes, if
there are at most 64 and all are hex digits. -/
theorem DecodeBig_eq (input : List UInt8) :
    DecodeBig input =
      match checkNumber input with
      | .error err => .error err
      | .ok raw =>
        if 64 < raw.length then .error ErrBig256Range
        else
          match nibblesOf raw with
          | none => .error ErrSyntax
          | some ns => .ok (Nat.ofDigits 16 ns.reverse) := by
  unfold DecodeBig
  cases checkNumber input with
  | error err => rfl
  | ok raw =>
    show (if 64 < raw.length then _ else _) = (if 64 < raw.length then _ else _)
    by_cases tooLong : 64 < raw.length
    · rw [if_pos tooLong, if_pos tooLong]
    · rw [if_neg tooLong, if_neg tooLong]
      have loop := wordsLoop_eq raw (raw.length / bigWordNibbles + 1) raw.length (Nat.le_refl _)
        (by unfold bigWordNibbles; omega)
      rw [List.take_length] at loop
      rw [← loop]
      cases wordsLoop raw (raw.length / bigWordNibbles + 1) raw.length <;> rfl

/-! ### checkNumber -/

theorem checkNumber_of_digits {marker : UInt8} {digits : List UInt8}
    (isMarker : marker = 'x'.toUInt8 ∨ marker = 'X'.toUInt8) (nonempty : digits ≠ [])
    (noLeading : digits.head? = some '0'.toUInt8 → digits = ['0'.toUInt8]) :
    checkNumber ('0'.toUInt8 :: marker :: digits) = .ok digits := by
  have marked : has0xPrefix ('0'.toUInt8 :: marker :: digits) = true := by
    rcases isMarker with same | same <;> simp [has0xPrefix, same]
  unfold checkNumber
  rw [if_neg (by simp), if_neg (by simp [marked])]
  simp only [List.drop_succ_cons, List.drop_zero]
  rw [if_neg (by simpa using nonempty)]
  rw [if_neg]
  rintro ⟨long, leading⟩
  rw [← List.head?_eq_getElem?] at leading
  rw [noLeading leading] at long
  exact absurd long (by decide)

/-- What checkNumber passes: the input is 0x or 0X and the digits, at least
one, with no leading zero unless it stands alone. -/
theorem checkNumber_ok {input raw : List UInt8} (checked : checkNumber input = .ok raw) :
    ∃ marker, input = '0'.toUInt8 :: marker :: raw ∧ (marker = 'x'.toUInt8 ∨ marker = 'X'.toUInt8) ∧
      raw ≠ [] ∧ (raw.head? = some '0'.toUInt8 → raw = ['0'.toUInt8]) := by
  match input with
  | [] => simp [checkNumber] at checked
  | [_] => simp [checkNumber, has0xPrefix] at checked
  | zero :: marker :: digits =>
    cases marked : has0xPrefix (zero :: marker :: digits) with
    | false => simp [checkNumber, marked] at checked
    | true =>
    have flags := marked
    simp only [has0xPrefix, List.length_cons, List.getElem?_cons_zero, List.getElem?_cons_succ,
      List.getElem?_cons_zero, Bool.and_eq_true, decide_eq_true_eq, beq_iff_eq, Option.some.injEq,
      Bool.or_eq_true] at flags
    obtain ⟨⟨-, isZero⟩, isMarker⟩ := flags
    unfold checkNumber at checked
    rw [if_neg (by simp), if_neg (by simp [marked])] at checked
    simp only [List.drop_succ_cons, List.drop_zero] at checked
    split at checked
    · cases checked
    rename_i nonempty
    split at checked
    · cases checked
    rename_i notLeading
    cases checked
    refine ⟨marker, by rw [isZero], isMarker, fun empty => nonempty (by simp [empty]), fun leading => ?_⟩
    match raw, leading with
    | [_], leading => simpa using leading
    | c :: d :: rest, leading =>
      exact absurd ⟨by simp, by rw [← List.head?_eq_getElem?]; exact leading⟩ notLeading

theorem checkNumber_formatBits (u : Nat) {marker : UInt8}
    (isMarker : marker = 'x'.toUInt8 ∨ marker = 'X'.toUInt8) :
    checkNumber ('0'.toUInt8 :: marker :: formatBits u) = .ok (formatBits u) := by
  obtain ⟨small, nonempty, leadingZero, -⟩ := hexDigitsOf_spec u
  refine checkNumber_of_digits isMarker (by simpa [formatBits_eq] using nonempty) fun leading => ?_
  rw [formatBits_eq] at leading ⊢
  cases digits : hexDigitsOf u with
  | nil => exact absurd digits nonempty
  | cons d rest =>
    rw [digits, List.map_cons, List.head?_cons, Option.some.injEq,
      hexDigit_eq_zero_iff (small d (by simp [digits]))] at leading
    subst leading
    have zero := leadingZero (by simp [digits])
    subst zero
    have single : rest = [] := by simpa [hexDigitsOf] using digits.symm
    subst single
    rfl

/-! ### The round trips -/

set_option maxRecDepth 4000 in
/-- A pair of digits hex.Encode writes decodes to its byte. -/
theorem fromHexChar_encode (v : UInt8) :
    fromHexChar (hexDigit (v >>> 4).toNat) = some (v >>> 4).toNat ∧
      fromHexChar (hexDigit (v &&& 0x0f).toNat) = some (v &&& 0x0f).toNat ∧
      UInt8.ofNat ((v >>> 4).toNat * 16 + (v &&& 0x0f).toNat) = v := by
  have everyByte : ∀ v : UInt8, fromHexChar (hexDigit (v >>> 4).toNat) = some (v >>> 4).toNat ∧
      fromHexChar (hexDigit (v &&& 0x0f).toNat) = some (v &&& 0x0f).toNat ∧
      UInt8.ofNat ((v >>> 4).toNat * 16 + (v &&& 0x0f).toNat) = v := by
    decide
  exact everyByte v

theorem decodePairs_hexEncode (b : List UInt8) :
    (hexEncode b).length % 2 = 0 ∧ decodePairs (hexEncode b) = .ok b := by
  induction b with
  | nil => exact ⟨rfl, rfl⟩
  | cons v rest inductionHypothesis =>
    obtain ⟨high, low, byte⟩ := fromHexChar_encode v
    have encoded : hexEncode (v :: rest) =
        hexDigit (v >>> 4).toNat :: hexDigit (v &&& 0x0f).toNat :: hexEncode rest := rfl
    have even := inductionHypothesis.1
    rw [encoded, List.length_cons, List.length_cons, decodePairs, high, low]
    refine ⟨by omega, ?_⟩
    show (UInt8.ofNat ((v >>> 4).toNat * 16 + (v &&& 0x0f).toNat) :: ·) <$> decodePairs (hexEncode rest) = _
    rw [inductionHypothesis.2, byte]
    rfl

theorem Decode_Encode (b : List UInt8) : Decode (Encode b) = .ok b := by
  obtain ⟨even, pairs⟩ := decodePairs_hexEncode b
  unfold Decode Encode hexDecodeString
  rw [if_neg (by simp), if_neg (by simp [has0xPrefix])]
  simp only [List.cons_append, List.nil_append, List.drop_succ_cons, List.drop_zero]
  rw [if_neg (by omega), pairs]
  rfl

/-- strconv.ParseUint reads digits whose value fits in 64 bits: the cutoff
and the range test never fire, since every prefix is worth no more than the
whole. -/
theorem parseUintLoop_map_hexDigit (ds : List Nat) (small : ∀ d ∈ ds, d < 16) (n : Nat)
    (fits : n * 16 ^ ds.length + Nat.ofDigits 16 ds.reverse < 2 ^ 64) :
    parseUintLoop (ds.map hexDigit) n = .ok (n * 16 ^ ds.length + Nat.ofDigits 16 ds.reverse) := by
  induction ds generalizing n with
  | nil => simp [parseUintLoop]
  | cons d rest inductionHypothesis =>
    have digit := small d List.mem_cons_self
    have whole : n * 16 ^ (rest.length + 1) + Nat.ofDigits 16 (d :: rest).reverse =
        (n * 16 + d) * 16 ^ rest.length + Nat.ofDigits 16 rest.reverse := by
      rw [Nat.ofDigits_reverse_cons]
      ring
    rw [List.length_cons, whole] at fits ⊢
    have power : 1 ≤ 16 ^ rest.length := Nat.one_le_pow _ _ (by decide)
    have scaled : n * 16 + d ≤ (n * 16 + d) * 16 ^ rest.length := Nat.le_mul_of_pos_right _ power
    rw [List.map_cons, parseUintLoop, parseDigit_hexDigit digit]
    simp only
    rw [if_neg (by omega), if_neg (by omega), if_neg (by omega)]
    exact inductionHypothesis (fun d member => small d (List.mem_cons_of_mem _ member)) _ fits

theorem DecodeUint64_EncodeUint64 (i : UInt64) : DecodeUint64 (EncodeUint64 i) = .ok i := by
  obtain ⟨small, nonempty, -, value⟩ := hexDigitsOf_spec i.toNat
  have parsed : ParseUint (formatBits i.toNat) = .ok i.toNat := by
    have loop := parseUintLoop_map_hexDigit (hexDigitsOf i.toNat) small 0
      (by rw [Nat.zero_mul, Nat.zero_add, value]; exact i.toNat_lt)
    rw [Nat.zero_mul, Nat.zero_add, value] at loop
    unfold ParseUint
    rw [formatBits_eq, if_neg (by simpa [List.length_pos_iff] using nonempty), loop]
  unfold DecodeUint64 EncodeUint64
  simp only [List.cons_append, List.nil_append]
  rw [checkNumber_formatBits _ (Or.inl rfl)]
  show (match ParseUint (formatBits i.toNat) with
    | .ok dec => Except.ok (UInt64.ofNat dec)
    | .error err => .error (mapError err)) = _
  rw [parsed]
  show Except.ok (UInt64.ofNat i.toNat) = _
  rw [UInt64.ofNat_toNat]

theorem EncodeBig_ofNat (x : Nat) : EncodeBig x = ['0'.toUInt8, 'x'.toUInt8] ++ formatBits x := by
  unfold EncodeBig
  by_cases zero : x = 0
  · subst zero
    rfl
  · rw [if_neg (by simpa using zero), if_neg (by omega)]
    rfl

theorem DecodeBig_EncodeBig (x : Nat) (fits : x < 2 ^ 256) : DecodeBig (EncodeBig x) = .ok x := by
  obtain ⟨small, -, -, value⟩ := hexDigitsOf_spec x
  have short : (hexDigitsOf x).length ≤ 64 :=
    length_hexDigitsOf_le (by rw [show (16 : Nat) ^ 64 = 2 ^ 256 by norm_num]; exact fits) (by decide)
  rw [DecodeBig_eq, EncodeBig_ofNat]
  simp only [List.cons_append, List.nil_append]
  rw [checkNumber_formatBits _ (Or.inl rfl)]
  show (if 64 < (formatBits x).length then _ else _) = _
  rw [formatBits_eq, List.length_map, if_neg (by omega), nibblesOf_map_hexDigit _ small]
  exact congrArg Except.ok value

theorem nibblesOf_head {c : UInt8} {rest : List UInt8} {ns : List Nat}
    (decoded : nibblesOf (c :: rest) = some ns) :
    ∃ v vs, ns = v :: vs ∧ decodeNibble c = some v ∧ nibblesOf rest = some vs := by
  rw [nibblesOf_cons] at decoded
  cases nibble : decodeNibble c with
  | none => rw [nibble] at decoded; cases decoded
  | some v =>
    cases others : nibblesOf rest with
    | none => rw [nibble, others] at decoded; cases decoded
    | some vs =>
      rw [nibble, others] at decoded
      exact ⟨v, vs, (Option.some.inj decoded).symm, rfl, rfl⟩

theorem decodeNibble_ne_none {s : List UInt8} {ns : List Nat} (decoded : nibblesOf s = some ns) :
    ∀ c ∈ s, decodeNibble c ≠ none := by
  induction s generalizing ns with
  | nil => simp
  | cons c rest inductionHypothesis =>
    obtain ⟨v, vs, -, nibble, others⟩ := nibblesOf_head decoded
    intro d member
    rcases List.mem_cons.mp member with same | later
    · rw [same, nibble]
      simp
    · exact inductionHypothesis others d later

/-- What DecodeBig accepts is canonical: 0x or 0X, one to 64 hex digits, no
leading zero unless the digits are 0 alone; and EncodeBig writes the value
back as the input in lower case. -/
theorem DecodeBig_canonical {s : List UInt8} {x : Nat} (decoded : DecodeBig s = .ok x) :
    (∃ marker digits, s = '0'.toUInt8 :: marker :: digits ∧
      (marker = 'x'.toUInt8 ∨ marker = 'X'.toUInt8) ∧ 1 ≤ digits.length ∧ digits.length ≤ 64 ∧
      (∀ c ∈ digits, decodeNibble c ≠ none) ∧
      (digits.head? = some '0'.toUInt8 → digits = ['0'.toUInt8])) ∧
    EncodeBig x = s.map lower := by
  rw [DecodeBig_eq] at decoded
  cases checked : checkNumber s with
  | error err => rw [checked] at decoded; cases decoded
  | ok raw =>
    rw [checked] at decoded
    dsimp only at decoded
    obtain ⟨marker, shape, isMarker, nonempty, noLeading⟩ := checkNumber_ok checked
    by_cases tooLong : 64 < raw.length
    · rw [if_pos tooLong] at decoded
      cases decoded
    rw [if_neg tooLong] at decoded
    cases digits : nibblesOf raw with
    | none => rw [digits] at decoded; cases decoded
    | some ns =>
      rw [digits] at decoded
      cases decoded
      obtain ⟨lengths, small, lowered⟩ := nibblesOf_spec digits
      refine ⟨⟨marker, raw, shape, isMarker, List.length_pos_iff.mpr nonempty, by omega,
        decodeNibble_ne_none digits, noLeading⟩, ?_⟩
      have nsLeading : ns.head? = some 0 → ns = [0] := by
        intro leading
        match raw, ns, digits, leading with
        | c :: rest, v :: vs, digits, leading =>
          obtain ⟨w, ws, same, nibble, -⟩ := nibblesOf_head digits
          cases same
          cases leading
          have isZero := (decodeNibble_spec nibble).2.2.mp rfl
          have single := noLeading (by simp [isZero])
          cases single
          cases digits
          rfl
      have canonical := hexDigitsOf_ofDigits small
        (fun empty => nonempty (List.length_eq_zero_iff.mp (by rw [← lengths, empty]; rfl))) nsLeading
      rw [EncodeBig_ofNat, formatBits_eq, canonical, lowered, shape]
      rcases isMarker with same | same <;> rw [same] <;> rfl

/-- Hex quantities and byte strings round-trip, and DecodeBig accepts only
canonical quantities. -/
theorem hexutil_round_trips :
    (∀ x : Int, 0 ≤ x → x < 2 ^ 256 → DecodeBig (EncodeBig x) = .ok x.toNat) ∧
    (∀ i : UInt64, DecodeUint64 (EncodeUint64 i) = .ok i) ∧
    (∀ b : List UInt8, Decode (Encode b) = .ok b) ∧
    (∀ s x, DecodeBig s = .ok x →
      (∃ marker digits, s = '0'.toUInt8 :: marker :: digits ∧
        (marker = 'x'.toUInt8 ∨ marker = 'X'.toUInt8) ∧ 1 ≤ digits.length ∧ digits.length ≤ 64 ∧
        (∀ c ∈ digits, decodeNibble c ≠ none) ∧
        (digits.head? = some '0'.toUInt8 → digits = ['0'.toUInt8])) ∧
      EncodeBig x = s.map lower) := by
  refine ⟨fun x nonnegative fits => ?_, DecodeUint64_EncodeUint64, Decode_Encode,
    fun s x decoded => DecodeBig_canonical decoded⟩
  have natural : x = (x.toNat : Int) := (Int.toNat_of_nonneg nonnegative).symm
  rw [natural]
  exact DecodeBig_EncodeBig x.toNat (by omega)

/-- The round trips at 255, at 0x1234, at the bytes de ad, and the text 0xFf,
which DecodeBig reads as 255 and EncodeBig writes back in lower case. -/
theorem hexutil_round_trips_sample :
    DecodeBig (EncodeBig 255) = .ok 255 ∧ DecodeUint64 (EncodeUint64 0x1234) = .ok 0x1234 ∧
      Decode (Encode [0xde, 0xad]) = .ok [0xde, 0xad] ∧
      EncodeBig 255 = ['0'.toUInt8, 'x'.toUInt8, 'F'.toUInt8, 'f'.toUInt8].map lower :=
  ⟨hexutil_round_trips.1 255 (by decide) (by decide), hexutil_round_trips.2.1 0x1234,
    hexutil_round_trips.2.2.1 [0xde, 0xad], (hexutil_round_trips.2.2.2 _ 255 rfl).2⟩

end Meshbox.Hexutil
