/-
This file models the three key encodings of trie/encoding.go. KEYBYTES is the
key as given; HEX spends one byte per nibble and ends with the terminator 16
when the key leads to a value; COMPACT packs two nibbles per byte behind a flag
byte holding the terminator and parity flags. Nodes in memory carry HEX keys,
nodes on disk COMPACT ones.

compactToHex reads the flag nibble of its first byte without checking that
there is one: on the empty string it indexes an empty slice, which the model
returns as none. The shape of every HEX key it produces, nibbles below 16 with
an optional final terminator, is what the proof walker relies on.
-/

import Mathlib.Data.List.Basic
import Mathlib.Data.Fintype.Basic

namespace Meshbox.Trie

/-- hasTerm: whether a HEX key ends with the terminator 16. -/
def hasTerm (s : List UInt8) : Bool :=
  s.getLast? = some 16

/-- decodeNibbles: packs each pair of nibbles into one byte. Callers pass an even
number of nibbles (hexToCompact moves an odd first nibble into the flag byte and
hexToKeybytes panics first), so a trailing unpaired nibble, where the source
would index past the end, never occurs. -/
def decodeNibbles : List UInt8 → List UInt8
  | high :: low :: rest => ((high <<< 4) ||| low) :: decodeNibbles rest
  | _ => []

/-- keybytesToHex: the nibbles of each byte, high first, and the terminator. -/
def keybytesToHex (str : List UInt8) : List UInt8 :=
  str.flatMap (fun b => [b / 16, b % 16]) ++ [16]

/-- hexToCompact: the flag byte (terminator bit 5, odd-length bit 4, and the first
nibble when the length is odd) followed by the remaining nibbles in pairs. -/
def hexToCompact (hex : List UInt8) : List UInt8 :=
  let terminator : UInt8 := if hasTerm hex then 1 else 0
  let nibbles := if hasTerm hex then hex.dropLast else hex
  match nibbles.length % 2, nibbles with
  | 1, first :: rest => ((terminator <<< 5) ||| ((1 : UInt8) <<< 4) ||| first) :: decodeNibbles rest
  | _, _ => (terminator <<< 5) :: decodeNibbles nibbles

/-- compactToHex: the HEX key of a COMPACT one. The flag nibble is read as
base[0] on the expanded key; for the empty string that slice is empty and the
source panics with an index out of range, returned here as none. -/
def compactToHex (compact : List UInt8) : Option (List UInt8) :=
  match (keybytesToHex compact).dropLast with
  | [] => none
  | first :: rest =>
    -- apply the terminator flag, then drop the flag nibble and the padding nibble
    let base := if first ≥ 2 then first :: rest ++ [16] else first :: rest
    let chop := 2 - (first &&& 1)
    some (base.drop chop.toNat)

/-- hexToKeybytes: the bytes of a HEX key of even length; an odd length panics
("can't convert hex key of odd length"), returned here as none. -/
def hexToKeybytes (hex : List UInt8) : Option (List UInt8) :=
  let nibbles := if hasTerm hex then hex.dropLast else hex
  if nibbles.length % 2 ≠ 0 then none else some (decodeNibbles nibbles)

/-- prefixLen: the length of the common prefix of a and b. -/
def prefixLen : List UInt8 → List UInt8 → Nat
  | x :: xs, y :: ys => if x = y then prefixLen xs ys + 1 else 0
  | _, _ => 0

/-! ### Nibble arithmetic -/

/-- A statement about every byte follows from the 256 cases of its value, which
decide can check. -/
theorem forall_byte {P : UInt8 → Prop} (cases : ∀ value : Fin 256, P (UInt8.ofNat value)) :
    ∀ b, P b := by
  intro b
  simpa using cases ⟨b.toNat, b.toNat_lt⟩

/-- A byte splits into its high and low nibble. -/
theorem div_mod_sixteen (b : UInt8) : b / 16 < 16 ∧ b % 16 < 16 := by
  simp only [UInt8.lt_iff_toNat_lt, UInt8.toNat_div, UInt8.toNat_mod]
  have byteBound := b.toNat_lt
  constructor <;> simp <;> omega

set_option maxRecDepth 4000 in
/-- The flag nibble's parity bit chops one or two nibbles. -/
theorem chop_le_two (first : UInt8) : (2 - (first &&& 1)).toNat ≤ 2 :=
  @forall_byte (fun first => (2 - (first &&& 1)).toNat ≤ 2) (by decide) first

theorem nibble_pack_fin : ∀ high low : Fin 16,
    ((UInt8.ofNat high <<< 4) ||| UInt8.ofNat low) / 16 = UInt8.ofNat high ∧
      ((UInt8.ofNat high <<< 4) ||| UInt8.ofNat low) % 16 = UInt8.ofNat low := by
  decide

theorem toNat_lt_sixteen {b : UInt8} (small : b < 16) : b.toNat < 16 := by
  rw [UInt8.lt_iff_toNat_lt] at small
  simpa using small

/-- Packing two nibbles into a byte and splitting it again gives them back. -/
theorem nibble_pack {high low : UInt8} (highSmall : high < 16) (lowSmall : low < 16) :
    ((high <<< 4) ||| low) / 16 = high ∧ ((high <<< 4) ||| low) % 16 = low := by
  have packed := nibble_pack_fin ⟨high.toNat, toNat_lt_sixteen highSmall⟩
    ⟨low.toNat, toNat_lt_sixteen lowSmall⟩
  simpa using packed

/-! ### HEX keys -/

/-- The shape of a HEX key: nibbles below 16, then optionally the terminator. -/
def IsHex (key : List UInt8) : Prop :=
  ∃ nibbles : List UInt8, (∀ nibble ∈ nibbles, nibble < 16) ∧
    (key = nibbles ∨ key = nibbles ++ [16])

theorem flatMap_nibbles_small (str : List UInt8) :
    ∀ nibble ∈ str.flatMap (fun b => [b / 16, b % 16]), nibble < 16 := by
  intro nibble member
  simp only [List.mem_flatMap, List.mem_cons, List.not_mem_nil, or_false] at member
  obtain ⟨b, _, high | low⟩ := member
  · exact high ▸ (div_mod_sixteen b).1
  · exact low ▸ (div_mod_sixteen b).2

theorem keybytesToHex_isHex (str : List UInt8) : IsHex (keybytesToHex str) :=
  ⟨_, flatMap_nibbles_small str, Or.inr rfl⟩

theorem length_flatMap_nibbles (str : List UInt8) :
    (str.flatMap (fun b => [b / 16, b % 16])).length = 2 * str.length := by
  induction str with
  | nil => rfl
  | cons b rest inductionHypothesis =>
    rw [List.flatMap_cons, List.length_append, inductionHypothesis]
    simp only [List.length_cons, List.length_nil]
    omega

theorem length_keybytesToHex (str : List UInt8) :
    (keybytesToHex str).length = 2 * str.length + 1 := by
  rw [keybytesToHex, List.length_append, length_flatMap_nibbles]
  rfl

theorem dropLast_keybytesToHex (str : List UInt8) :
    (keybytesToHex str).dropLast = str.flatMap (fun b => [b / 16, b % 16]) := by
  simp [keybytesToHex]

/-- compactToHex panics exactly on the empty string. -/
theorem compactToHex_eq_none_iff (compact : List UInt8) :
    compactToHex compact = none ↔ compact = [] := by
  cases compact with
  | nil => simp [compactToHex, keybytesToHex]
  | cons b rest => simp [compactToHex, dropLast_keybytesToHex]

/-- Every key compactToHex produces is a HEX key. -/
theorem compactToHex_isHex {compact key : List UInt8} (decoded : compactToHex compact = some key) :
    IsHex key := by
  unfold compactToHex at decoded
  rw [dropLast_keybytesToHex] at decoded
  split at decoded
  · cases decoded
  · rename_i first rest split
    have small := flatMap_nibbles_small compact
    rw [split] at small
    have restSmall : ∀ nibble ∈ rest, nibble < 16 := fun nibble member =>
      small nibble (List.mem_cons_of_mem _ member)
    cases decoded
    have dropSmall (count : Nat) : ∀ nibble ∈ (first :: rest).drop count, nibble < 16 :=
      fun nibble member => small nibble (List.mem_of_mem_drop member)
    split
    · rename_i flagged
      refine ⟨(first :: rest).drop (2 - (first &&& 1)).toNat, dropSmall _, Or.inr ?_⟩
      have chopBound : (2 - (first &&& 1)).toNat ≤ (first :: rest).length := by
        have chopSmall := chop_le_two first
        have lengthEq := length_flatMap_nibbles compact
        rw [split, List.length_cons] at lengthEq
        rw [List.length_cons]
        omega
      exact List.drop_append_of_le_length chopBound
    · exact ⟨_, dropSmall _, Or.inl rfl⟩

/-! ### COMPACT keys read back -/

/-- Splitting the packed bytes of an even number of nibbles gives the nibbles
back. -/
theorem flatMap_decodeNibbles (nibbles : List UInt8) (small : ∀ nibble ∈ nibbles, nibble < 16)
    (even : nibbles.length % 2 = 0) :
    (decodeNibbles nibbles).flatMap (fun b => [b / 16, b % 16]) = nibbles := by
  induction nibbles using decodeNibbles.induct with
  | case1 high low rest inductionHypothesis =>
    have highSmall := small high List.mem_cons_self
    have lowSmall := small low (List.mem_cons_of_mem _ List.mem_cons_self)
    obtain ⟨highBack, lowBack⟩ := nibble_pack highSmall lowSmall
    rw [decodeNibbles, List.flatMap_cons, highBack, lowBack,
      inductionHypothesis (fun nibble member => small nibble (by simp [member]))
        (by simp only [List.length_cons] at even; omega)]
    rfl
  | case2 rest notPair =>
    cases rest with
    | nil => rfl
    | cons first tail =>
      cases tail with
      | nil => simp at even
      | cons second more => exact absurd rfl (notPair first second more)

theorem length_decodeNibbles (nibbles : List UInt8) :
    (decodeNibbles nibbles).length = nibbles.length / 2 := by
  induction nibbles using decodeNibbles.induct with
  | case1 high low rest inductionHypothesis =>
    rw [decodeNibbles, List.length_cons, inductionHypothesis]
    simp only [List.length_cons]
    omega
  | case2 rest notPair =>
    cases rest with
    | nil => rfl
    | cons first tail =>
      cases tail with
      | nil => simp [decodeNibbles]
      | cons second more => exact absurd rfl (notPair first second more)

set_option maxRecDepth 4000 in
/-- The flag byte of hexToCompact split into nibbles: the high one holds the
terminator and parity flags, the low one the first nibble of an odd key. -/
theorem flag_nibbles (term : Bool) (first : UInt8) (small : first < 16) :
    let flag : UInt8 := (if term then (1 : UInt8) else 0) <<< 5
    flag / 16 = (if term then 2 else 0) ∧ flag % 16 = 0 ∧
      (flag ||| (1 : UInt8) <<< 4 ||| first) / 16 = (if term then 3 else 1) ∧
      (flag ||| (1 : UInt8) <<< 4 ||| first) % 16 = first := by
  revert small
  revert first
  cases term <;>
    exact @forall_byte (fun first => first < 16 → _) (by decide)

/-- compactToHex reads from the parity bit of the high nibble how many nibbles
to chop: two for an even key, one for an odd one. -/
theorem flag_chop (term : Bool) :
    (2 - ((if term then 2 else 0 : UInt8) &&& 1)).toNat = 2 ∧
      (2 - ((if term then 3 else 1 : UInt8) &&& 1)).toNat = 1 := by
  cases term <;> decide

theorem hasTerm_append_terminator (nibbles : List UInt8) : hasTerm (nibbles ++ [16]) = true := by
  simp [hasTerm]

theorem hasTerm_of_small {nibbles : List UInt8} (small : ∀ nibble ∈ nibbles, nibble < 16) :
    hasTerm nibbles = false := by
  cases last : nibbles.getLast? with
  | none => simp [hasTerm, last]
  | some final =>
    have finalSmall := small final (List.mem_of_getLast? last)
    simp only [hasTerm, last, Option.some.injEq, decide_eq_false_iff_not]
    intro isTerminator
    rw [isTerminator] at finalSmall
    exact absurd finalSmall (by decide)

/-- A HEX key is its nibbles followed by the terminator when it has one. -/
theorem IsHex.exists_term {key : List UInt8} (hex : IsHex key) :
    ∃ nibbles term, (∀ nibble ∈ nibbles, nibble < 16) ∧
      key = nibbles ++ (if term then [16] else []) ∧ hasTerm key = term := by
  obtain ⟨nibbles, small, shape⟩ := hex
  rcases shape with rfl | rfl
  · exact ⟨key, false, small, by simp, hasTerm_of_small small⟩
  · exact ⟨nibbles, true, small, by simp, hasTerm_append_terminator nibbles⟩

/-- compactToHex takes a HEX key back from hexToCompact. -/
theorem compactToHex_hexToCompact {key : List UInt8} (hex : IsHex key) :
    compactToHex (hexToCompact key) = some key := by
  obtain ⟨nibbles, term, small, rfl, termEq⟩ := hex.exists_term
  have stripped : (if term = true then (nibbles ++ if term = true then [16] else []).dropLast
      else nibbles ++ if term = true then [16] else []) = nibbles := by
    cases term <;> simp
  obtain ⟨evenChop, oddChop⟩ := flag_chop term
  unfold hexToCompact
  simp only [termEq, stripped]
  split
  next _ _ first rest odd =>
    -- an odd key: its first nibble shares the flag byte
    have restSmall : ∀ nibble ∈ rest, nibble < 16 := fun nibble member =>
      small nibble (List.mem_cons_of_mem _ member)
    obtain ⟨-, -, oddHigh, oddLow⟩ := flag_nibbles term first (small first List.mem_cons_self)
    unfold compactToHex
    rw [dropLast_keybytesToHex, List.flatMap_cons, oddHigh, oddLow,
      flatMap_decodeNibbles rest restSmall (by simp only [List.length_cons] at odd; omega)]
    -- with a terminator the flag byte and the first nibble are chopped off
    cases term
    · simp
    · simp at oddChop ⊢
      simp [oddChop]
  next _ _ notOdd =>
    -- an even key: a padding nibble follows the flags
    rename_i nibbles _ _
    have even : nibbles.length % 2 = 0 := by
      cases nibbles with
      | nil => rfl
      | cons first rest =>
        by_contra odd
        exact notOdd first rest (by omega) rfl
    obtain ⟨evenHigh, evenLow, -, -⟩ := flag_nibbles term 0 (by decide)
    unfold compactToHex
    rw [dropLast_keybytesToHex, List.flatMap_cons, evenHigh, evenLow,
      flatMap_decodeNibbles nibbles small even]
    cases term
    · simp
    · simp at evenChop ⊢
      simp [evenChop]

/-- A COMPACT key is at most one byte longer than its HEX key. -/
theorem length_hexToCompact_le (key : List UInt8) : (hexToCompact key).length ≤ key.length + 1 := by
  have stripped : (if hasTerm key then key.dropLast else key).length ≤ key.length := by
    split <;> simp
  unfold hexToCompact
  simp only
  generalize (if hasTerm key then key.dropLast else key) = nibbles at stripped ⊢
  split
  next _ _ first rest _ =>
    simp only [List.length_cons, length_decodeNibbles] at stripped ⊢
    omega
  next =>
    simp only [List.length_cons, length_decodeNibbles]
    omega


/-! ### KEYBYTES keys read back -/

set_option maxRecDepth 4000 in
/-- A byte is its high nibble shifted up and joined to its low nibble. -/
theorem nibble_join (b : UInt8) : (b / 16) <<< 4 ||| b % 16 = b :=
  @forall_byte (fun b => (b / 16) <<< 4 ||| b % 16 = b) (by decide) b

/-- Packing the nibbles of a byte string gives the string back. -/
theorem decodeNibbles_flatMap (str : List UInt8) :
    decodeNibbles (str.flatMap (fun b => [b / 16, b % 16])) = str := by
  induction str with
  | nil => rfl
  | cons b rest inductionHypothesis =>
    rw [List.flatMap_cons, List.cons_append, List.cons_append, List.nil_append, decodeNibbles,
      nibble_join, inductionHypothesis]

/-- hexToKeybytes takes a key back from keybytesToHex. -/
theorem hexToKeybytes_keybytesToHex (str : List UInt8) :
    hexToKeybytes (keybytesToHex str) = some str := by
  have term : hasTerm (keybytesToHex str) = true := hasTerm_append_terminator _
  have even : (str.flatMap (fun b => [b / 16, b % 16])).length % 2 = 0 := by
    rw [length_flatMap_nibbles]
    omega
  simp only [hexToKeybytes, term, if_true, dropLast_keybytesToHex, even, ne_eq, not_true_eq_false,
    if_false, decodeNibbles_flatMap]

/-! ### COMPACT keys

The strings hexToCompact writes are exactly those whose flag byte has nothing
above the terminator and parity flags and no first nibble unless the parity
flag is set; compactToHex inverts hexToCompact on all of them.
-/

/-- A COMPACT key as hexToCompact writes it. -/
def IsCompact : List UInt8 → Prop
  | [] => False
  | flag :: _ => flag / 16 < 4 ∧ (flag / 16 % 2 = 0 → flag % 16 = 0)

instance : DecidablePred IsCompact := fun compact =>
  match compact with
  | [] => isFalse id
  | _ :: _ => inferInstanceAs (Decidable (_ ∧ _))

set_option maxRecDepth 4000 in
/-- The flag byte of a COMPACT key is what hexToCompact writes for the
terminator and parity flags of its high nibble and the first nibble of its
low one. -/
theorem compact_flag : ∀ flag : UInt8, flag / 16 < 4 ∧ (flag / 16 % 2 = 0 → flag % 16 = 0) →
    ((flag / 16 % 2 = 0 → (if 2 ≤ flag / 16 then 1 else 0 : UInt8) <<< 5 = flag) ∧
      (flag / 16 % 2 = 1 →
        (if 2 ≤ flag / 16 then 1 else 0 : UInt8) <<< 5 ||| (1 : UInt8) <<< 4 ||| flag % 16 = flag)) :=
  @forall_byte (fun flag => flag / 16 < 4 ∧ (flag / 16 % 2 = 0 → flag % 16 = 0) →
    ((flag / 16 % 2 = 0 → (if 2 ≤ flag / 16 then 1 else 0 : UInt8) <<< 5 = flag) ∧
      (flag / 16 % 2 = 1 →
        (if 2 ≤ flag / 16 then 1 else 0 : UInt8) <<< 5 ||| (1 : UInt8) <<< 4 ||| flag % 16 = flag)))
    (by decide)

set_option maxRecDepth 4000 in
/-- A byte is even or odd. -/
theorem byte_mod_two : ∀ b : UInt8, b % 2 = 0 ∨ b % 2 = 1 :=
  @forall_byte (fun b => b % 2 = 0 ∨ b % 2 = 1) (by decide)

theorem isHex_append_flag {nibbles : List UInt8} (small : ∀ nibble ∈ nibbles, nibble < 16)
    (term : Bool) : IsHex (nibbles ++ if term then [16] else []) :=
  ⟨nibbles, small, by cases term <;> simp⟩

theorem hasTerm_append_flag {nibbles : List UInt8} (small : ∀ nibble ∈ nibbles, nibble < 16)
    (term : Bool) : hasTerm (nibbles ++ if term then [16] else []) = term := by
  cases term
  · simpa using hasTerm_of_small small
  · exact hasTerm_append_terminator nibbles

/-- hexToCompact strips the terminator it finds behind the nibbles. -/
theorem stripped_append_flag {nibbles : List UInt8} (small : ∀ nibble ∈ nibbles, nibble < 16)
    (term : Bool) :
    (if hasTerm (nibbles ++ if term then [16] else []) then (nibbles ++ if term then [16] else []).dropLast
      else nibbles ++ if term then [16] else []) = nibbles := by
  rw [hasTerm_append_flag small term]
  cases term <;> simp

/-- hexToCompact of an odd key: its first nibble goes into the flag byte. -/
theorem hexToCompact_append_flag_odd {first : UInt8} {rest : List UInt8}
    (small : ∀ nibble ∈ first :: rest, nibble < 16) (even : rest.length % 2 = 0) (term : Bool) :
    hexToCompact ((first :: rest) ++ if term then [16] else []) =
      (((if term then 1 else 0 : UInt8) <<< 5) ||| ((1 : UInt8) <<< 4) ||| first) :: decodeNibbles rest := by
  have odd : (first :: rest).length % 2 = 1 := by
    rw [List.length_cons]
    omega
  simp only [hexToCompact]
  rw [stripped_append_flag small term, hasTerm_append_flag small term, odd]
  rfl

/-- hexToCompact of an even key: the flag byte holds the flags alone. -/
theorem hexToCompact_append_flag_even {nibbles : List UInt8} (small : ∀ nibble ∈ nibbles, nibble < 16)
    (even : nibbles.length % 2 = 0) (term : Bool) :
    hexToCompact (nibbles ++ if term then [16] else []) =
      ((if term then 1 else 0 : UInt8) <<< 5) :: decodeNibbles nibbles := by
  simp only [hexToCompact]
  rw [stripped_append_flag small term, hasTerm_append_flag small term, even]
  split
  · contradiction
  · rfl

/-- Every COMPACT key hexToCompact writes is well formed. -/
theorem hexToCompact_isCompact {key : List UInt8} (hex : IsHex key) : IsCompact (hexToCompact key) := by
  obtain ⟨nibbles, term, small, rfl, -⟩ := hex.exists_term
  rcases Nat.mod_two_eq_zero_or_one nibbles.length with even | odd
  · rw [hexToCompact_append_flag_even small even term]
    obtain ⟨evenHigh, evenLow, -, -⟩ := flag_nibbles term 0 (by decide)
    simp only [IsCompact, evenHigh, evenLow]
    cases term <;> decide
  · obtain _ | ⟨first, rest⟩ := nibbles
    · simp at odd
    rw [List.length_cons] at odd
    rw [hexToCompact_append_flag_odd small (by omega) term]
    obtain ⟨-, -, oddHigh, oddLow⟩ := flag_nibbles term first (small first List.mem_cons_self)
    simp only [IsCompact, oddHigh, oddLow]
    cases term <;> simp

/-- Every well-formed COMPACT key is written by hexToCompact: from the nibbles
of its bytes, behind the first nibble when the parity flag is set and before
the terminator when the terminator flag is. -/
theorem exists_hexToCompact_of_isCompact {compact : List UInt8} (wellFormed : IsCompact compact) :
    ∃ key, IsHex key ∧ hexToCompact key = compact := by
  obtain _ | ⟨flag, rest⟩ := compact
  · exact absurd wellFormed id
  have restSmall := flatMap_nibbles_small rest
  have restEven : (rest.flatMap (fun b => [b / 16, b % 16])).length % 2 = 0 := by
    rw [length_flatMap_nibbles]
    omega
  obtain ⟨evenFlag, oddFlag⟩ := compact_flag flag wellFormed
  let term := decide (2 ≤ flag / 16)
  rcases byte_mod_two (flag / 16) with parity | parity
  · -- an even key: the nibbles of the other bytes
    refine ⟨_ ++ if term then [16] else [], isHex_append_flag restSmall term, ?_⟩
    rw [hexToCompact_append_flag_even restSmall restEven, decodeNibbles_flatMap]
    simpa [term, apply_ite] using evenFlag parity
  · -- an odd key: the flag byte's low nibble comes first
    have small : ∀ nibble ∈ flag % 16 :: rest.flatMap (fun b => [b / 16, b % 16]), nibble < 16 := by
      intro nibble member
      rcases List.mem_cons.mp member with rfl | inRest
      · exact (div_mod_sixteen flag).2
      · exact restSmall nibble inRest
    refine ⟨_ ++ if term then [16] else [], isHex_append_flag small term, ?_⟩
    rw [hexToCompact_append_flag_odd small restEven, decodeNibbles_flatMap]
    simpa [term, apply_ite] using oddFlag parity

/-- hexToCompact takes a well-formed COMPACT key back from compactToHex. -/
theorem hexToCompact_compactToHex {compact : List UInt8} (wellFormed : IsCompact compact) :
    (compactToHex compact).map hexToCompact = some compact := by
  obtain ⟨key, hex, rfl⟩ := exists_hexToCompact_of_isCompact wellFormed
  rw [compactToHex_hexToCompact hex]
  rfl

/-- The three encodings are mutually inverse on their domains: COMPACT to HEX
and back on HEX keys, HEX to KEYBYTES and back on every byte string, and HEX to
COMPACT and back on every key hexToCompact writes. -/
theorem trie_key_encodings_round_trip :
    (∀ key, IsHex key → compactToHex (hexToCompact key) = some key) ∧
      (∀ str, hexToKeybytes (keybytesToHex str) = some str) ∧
      (∀ compact, (∃ key, IsHex key ∧ hexToCompact key = compact) →
        (compactToHex compact).map hexToCompact = some compact) := by
  refine ⟨fun key hex => compactToHex_hexToCompact hex, hexToKeybytes_keybytesToHex, ?_⟩
  rintro compact ⟨key, hex, rfl⟩
  exact hexToCompact_compactToHex (hexToCompact_isCompact hex)

/-- The round trips at the hex key 1 2 3 with its terminator, and at the bytes
12 34. -/
theorem trie_key_encodings_round_trip_sample :
    compactToHex (hexToCompact [1, 2, 3, 16]) = some [1, 2, 3, 16] ∧
      hexToKeybytes (keybytesToHex [0x12, 0x34]) = some [0x12, 0x34] ∧
      (compactToHex (hexToCompact [1, 2, 3, 16])).map hexToCompact = some (hexToCompact [1, 2, 3, 16]) := by
  -- the nibbles are checked one at a time: with all of Mathlib in scope, decide on
  -- a bounded quantifier over UInt8 picks the Fintype instance and runs through the type
  have small : ∀ nibble ∈ ([1, 2, 3] : List UInt8), nibble < 16 := by
    intro nibble member
    simp only [List.mem_cons, List.mem_nil_iff, or_false] at member
    rcases member with rfl | rfl | rfl <;> decide
  have hex : IsHex [1, 2, 3, 16] := ⟨[1, 2, 3], small, Or.inr rfl⟩
  exact ⟨trie_key_encodings_round_trip.1 _ hex, trie_key_encodings_round_trip.2.1 _,
    trie_key_encodings_round_trip.2.2 _ ⟨_, hex, rfl⟩⟩

end Meshbox.Trie
