/-
This file models compression/rle/read_write.go, the run-length encoding of
Ethereum data. Compress cuts its input into chunks: the byte 0xfe, escaped as
0xfe 0xff; a run of two to 255 zero bytes, written as 0xfe and the run length
plus two; the Keccak-256 hashes of the empty string and of the empty list,
written as 0xfe 0xfd and 0xfe 0xfe; and any other byte as it is. Decompress
reads a token 0xfe together with the byte after it.

The length byte of a zero run is taken modulo 256 and shares its values with
the three escape codes: runs of 251, 252 and 253 zeros are written as 0xfe 0xfd,
0xfe 0xfe and 0xfe 0xff, and come back as a hash or as one byte 0xfe. Every
input without a run of more than 250 zeros comes back as it was.
-/

import Mathlib.Data.List.Infix

namespace Meshbox.Rle

/-- The escape token. -/
def token : UInt8 := 0xfe

/-- The code of the hash of the empty string. -/
def emptyShaToken : UInt8 := 0xfd

/-- The code of the hash of the empty list. -/
def emptyListShaToken : UInt8 := 0xfe

/-- The code of the token itself. -/
def tokenToken : UInt8 := 0xff

/-- empty: crypto.Keccak256 of the empty string. -/
def empty : List UInt8 :=
  [0xc5, 0xd2, 0x46, 0x01, 0x86, 0xf7, 0x23, 0x3c, 0x92, 0x7e, 0x7d, 0xb2, 0xdc, 0xc7, 0x03, 0xc0,
    0xe5, 0x00, 0xb6, 0x53, 0xca, 0x82, 0x27, 0x3b, 0x7b, 0xfa, 0xd8, 0x04, 0x5d, 0x85, 0xa4, 0x70]

/-- emptyList: crypto.Keccak256 of the RLP empty string 0x80. -/
def emptyList : List UInt8 :=
  [0x56, 0xe8, 0x1f, 0x17, 0x1b, 0xcc, 0x55, 0xa6, 0xff, 0x83, 0x45, 0xe6, 0x92, 0xc0, 0xf8, 0x6e,
    0x5b, 0x48, 0xe0, 0x1b, 0x99, 0x6c, 0xad, 0xc0, 0x01, 0x62, 0x2f, 0xb5, 0xe3, 0x63, 0xb4, 0x21]

/-! ### Decompress -/

/-- What Decompress writes for the byte after a token: a hash, the token, or as
many zero bytes as the byte minus two, in byte arithmetic. -/
def expansion (code : UInt8) : List UInt8 :=
  if code = emptyShaToken then empty
  else if code = emptyListShaToken then emptyList
  else if code = tokenToken then [token]
  else List.replicate (code - 2).toNat 0

/-- Decompress: a token and the byte after it expanded, any other byte copied; a
token at the end is an error. -/
def Decompress : List UInt8 → Except String (List UInt8)
  | [] => .ok []
  | byte :: rest =>
    if byte = token then
      match rest with
      | [] => .error "error reading bytes. token encountered without proceeding bytes"
      | code :: after => (Decompress after).map (expansion code ++ ·)
    else (Decompress rest).map (byte :: ·)

/-! ### Compress -/

/-- The zero bytes at the front of dat, at most bound of them: the loop of
compressChunk counts up to 255. -/
def leadingZeros : Nat → List UInt8 → Nat
  | bound + 1, 0 :: rest => leadingZeros bound rest + 1
  | _, _ => 0

/-- compressChunk: the encoding of the chunk at the front of a non-empty input,
and the number of bytes it covers. -/
def compressChunk (first : UInt8) (rest : List UInt8) : List UInt8 × Nat :=
  if first = token then ([token, tokenToken], 1)
  else if first = 0 ∧ rest.head? = some 0 then
    ([token, UInt8.ofNat (leadingZeros 255 (first :: rest) + 2)], leadingZeros 255 (first :: rest))
  else if 32 ≤ (first :: rest).length ∧ (first :: rest).take 32 = empty then ([token, emptyShaToken], 32)
  else if 32 ≤ (first :: rest).length ∧ (first :: rest).take 32 = emptyList then
    ([token, emptyListShaToken], 32)
  else ([first], 1)

theorem leadingZeros_pos (bound : Nat) (rest : List UInt8) : 1 ≤ leadingZeros (bound + 1) (0 :: rest) := by
  simp [leadingZeros]

/-- Every chunk covers at least one byte. -/
theorem one_le_compressChunk (first : UInt8) (rest : List UInt8) : 1 ≤ (compressChunk first rest).2 := by
  unfold compressChunk
  split
  · exact Nat.le_refl 1
  · split
    · next zero =>
      rw [zero.1]
      exact leadingZeros_pos 254 rest
    · split
      · decide
      · split
        · decide
        · exact Nat.le_refl 1

/-- Compress: the input cut into chunks from the front, each replaced by its
encoding. -/
def Compress (dat : List UInt8) : List UInt8 :=
  match dat with
  | [] => []
  | first :: rest =>
    (compressChunk first rest).1 ++ Compress ((first :: rest).drop (compressChunk first rest).2)
termination_by dat.length
decreasing_by
  have covers := one_le_compressChunk first rest
  simp only [List.length_drop, List.length_cons]
  omega

/-! ### Reading chunks back -/

theorem Decompress_token (code : UInt8) (after : List UInt8) :
    Decompress (token :: code :: after) = (Decompress after).map (expansion code ++ ·) := by
  simp [Decompress]

theorem Decompress_byte {byte : UInt8} (notToken : byte ≠ token) (rest : List UInt8) :
    Decompress (byte :: rest) = (Decompress rest).map (byte :: ·) := by
  cases rest <;> simp [Decompress, notToken]

/-- The length byte of a run of two to 250 zeros is none of the escape codes,
and expands back to the run. -/
theorem expansion_run {j : Nat} (small : j ≤ 250) : expansion (UInt8.ofNat (j + 2)) = List.replicate j 0 := by
  have code : (UInt8.ofNat (j + 2)).toNat = j + 2 := by
    rw [UInt8.toNat_ofNat']
    exact Nat.mod_eq_of_lt (by omega)
  have notCode (escape : UInt8) (large : 253 ≤ escape.toNat) : UInt8.ofNat (j + 2) ≠ escape := by
    intro same
    have lengths := congrArg UInt8.toNat same
    omega
  have length : (UInt8.ofNat (j + 2) - 2).toNat = j := by
    rw [UInt8.toNat_sub, code]
    simp only [UInt8.reduceToNat]
    omega
  rw [expansion, if_neg (notCode _ (by decide)), if_neg (notCode _ (by decide)), if_neg (notCode _ (by decide)),
    length]

/-- The bytes a run covers are zeros. -/
theorem take_leadingZeros (bound : Nat) (dat : List UInt8) :
    dat.take (leadingZeros bound dat) = List.replicate (leadingZeros bound dat) 0 := by
  fun_induction leadingZeros bound dat with
  | case1 bound rest inductionHypothesis =>
    rw [List.take_succ_cons, inductionHypothesis, List.replicate_succ]
  | case2 => rfl

theorem leadingZeros_replicate {bound j : Nat} (small : j ≤ bound) :
    leadingZeros bound (List.replicate j 0) = j := by
  induction j generalizing bound with
  | zero => cases bound <;> rfl
  | succ j inductionHypothesis =>
    obtain ⟨bound, rfl⟩ : ∃ below, bound = below + 1 := ⟨bound - 1, by omega⟩
    rw [List.replicate_succ, leadingZeros, inductionHypothesis (by omega)]

/-- In an input without 251 zeros in a row, a run chunk is at most 250 long. -/
theorem leadingZeros_le_of_no_run {dat : List UInt8} (noRun : ¬ List.replicate 251 0 <:+: dat) :
    leadingZeros 255 dat ≤ 250 := by
  by_contra long
  apply noRun
  have zeros := take_leadingZeros 255 dat
  have starts : List.replicate 251 (0 : UInt8) <+: dat := by
    have inRun : List.replicate 251 (0 : UInt8) <+: List.replicate (leadingZeros 255 dat) 0 := by
      rw [List.prefix_iff_eq_take, List.length_replicate, List.take_replicate, Nat.min_eq_left (by omega)]
    rw [← zeros] at inRun
    exact inRun.trans (List.take_prefix _ _)
  exact starts.isInfix

/-- Each chunk of an input without 251 zeros in a row reads back as the bytes it
covers. -/
theorem Decompress_chunk {first : UInt8} {rest : List UInt8} (noRun : ¬ List.replicate 251 0 <:+: first :: rest)
    (more : List UInt8) :
    Decompress ((compressChunk first rest).1 ++ more) =
      (Decompress more).map ((first :: rest).take (compressChunk first rest).2 ++ ·) := by
  unfold compressChunk
  split
  · next isToken =>
    rw [isToken]
    exact Decompress_token tokenToken more
  · next notToken =>
    split
    · next zeros =>
      obtain ⟨rfl, -⟩ := zeros
      rw [List.cons_append, List.cons_append, List.nil_append, Decompress_token, take_leadingZeros,
        expansion_run (leadingZeros_le_of_no_run noRun)]
    · split
      · next isEmpty =>
        rw [isEmpty.2]
        exact Decompress_token emptyShaToken more
      · split
        · next isEmptyList =>
          rw [isEmptyList.2]
          exact Decompress_token emptyListShaToken more
        · exact Decompress_byte notToken more

/-- Every input without a run of more than 250 zeros comes back from
compression as it was. -/
theorem Decompress_Compress {dat : List UInt8} (noRun : ¬ List.replicate 251 0 <:+: dat) :
    Decompress (Compress dat) = .ok dat := by
  induction dat using Compress.induct with
  | case1 => rw [Compress]; rfl
  | case2 first rest inductionHypothesis =>
    have restNoRun : ¬ List.replicate 251 0 <:+: (first :: rest).drop (compressChunk first rest).2 :=
      fun inRest => noRun (inRest.trans (List.drop_suffix _ _).isInfix)
    rw [Compress, Decompress_chunk noRun, inductionHypothesis restNoRun]
    simp only [Except.map, List.take_append_drop]

/-- Data with a token, a short zero run and the empty-string hash round-trips. -/
theorem Decompress_Compress_sample :
    ¬ List.replicate 251 0 <:+: (token :: 0 :: 0 :: 7 :: empty) ∧
      Decompress (Compress (token :: 0 :: 0 :: 7 :: empty)) = .ok (token :: 0 :: 0 :: 7 :: empty) :=
  ⟨by decide, Decompress_Compress (by decide)⟩

/-! ### Runs that collide with the escape codes -/

/-- A run of two to 255 zeros is written as one chunk. -/
theorem Compress_replicate {j : Nat} (two : 2 ≤ j) (small : j ≤ 255) :
    Compress (List.replicate j 0) = [token, UInt8.ofNat (j + 2)] := by
  obtain ⟨k, rfl⟩ : ∃ k, j = k + 2 := ⟨j - 2, by omega⟩
  have count : leadingZeros 255 (0 :: 0 :: List.replicate k 0) = k + 2 := by
    simpa only [List.replicate_succ] using leadingZeros_replicate small
  have chunk : compressChunk 0 (0 :: List.replicate k 0) = ([token, UInt8.ofNat (k + 2 + 2)], k + 2) := by
    rw [compressChunk, if_neg (by decide), if_pos ⟨rfl, rfl⟩, count]
  rw [List.replicate_succ, List.replicate_succ, Compress, chunk]
  simp [Compress]

/-- A run of 251, 252 or 253 zeros gets the length byte 0xfd, 0xfe or 0xff and
comes back as the hash of the empty string, the hash of the empty list, or the
single byte 0xfe. -/
theorem Decompress_Compress_escaped_run {j : Nat} (escaped : 251 ≤ j ∧ j ≤ 253) :
    Decompress (Compress (List.replicate j 0)) = .ok (expansion (UInt8.ofNat (j + 2))) ∧
      expansion (UInt8.ofNat (j + 2)) ≠ List.replicate j 0 := by
  refine ⟨?_, ?_⟩
  · rw [Compress_replicate (by omega) (by omega), Decompress_token]
    simp [Decompress, Except.map]
  · rcases (by omega : j = 251 ∨ j = 252 ∨ j = 253) with rfl | rfl | rfl <;> decide

/-- 251 zero bytes come back as the 32-byte hash of the empty string. -/
theorem Decompress_Compress_251_zeros :
    (251 ≤ 251 ∧ 251 ≤ 253) ∧
      Decompress (Compress (List.replicate 251 0)) = .ok (expansion (UInt8.ofNat (251 + 2))) ∧
        expansion (UInt8.ofNat (251 + 2)) ≠ List.replicate 251 0 :=
  ⟨⟨by decide, by decide⟩, Decompress_Compress_escaped_run ⟨by decide, by decide⟩⟩

example : expansion (UInt8.ofNat (251 + 2)) = empty := by decide

end Meshbox.Rle
