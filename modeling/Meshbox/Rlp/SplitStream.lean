/-
This file compares the two RLP readers of rlp: the slice-level Split of
raw.go, which trie nodes and proofs are read with, and the streaming decoder
of decode.go, whose Raw returns the next value with its header. Both read the
same headers, reject a long-form size below 56 or with a leading zero byte, and
reject a value longer than the input. They part on a string header of size 1
around a byte below 0x80: Split's readKind rejects it as not canonical, while
the stream's readKind accepts it, and only Bytes checks it afterwards, not Raw.
-/

import Meshbox.Rlp.StreamRoundTrip

namespace Meshbox.Rlp

/-! ### A single byte in a string header -/

/-- Raw reads a one-byte string header around a byte below 0x80, which Split
rejects: for every such byte and whatever follows it, Split returns
ErrCanonSize and Raw returns the two bytes. -/
theorem Raw_reads_what_Split_rejects (c : UInt8) (small : c < 0x80) (rest : List UInt8) :
    Split (0x81 :: c :: rest) = .error .canonSize ∧
      ∃ s', (NewStream (0x81 :: c :: rest) (0x81 :: c :: rest).length).Raw = .ok [0x81, c] s' := by
  constructor
  · simp [Split, readKind, readHeader, small]
  · simp [Stream.Raw, Stream.Kind, Stream.readKind, Stream.readByte, Stream.willRead, Stream.readFull,
      NewStream, advanceTop, puthead]

/-- The input 0x81 0x05: Split rejects it, Raw returns it whole. -/
theorem Raw_reads_what_Split_rejects_five :
    Split [0x81, 0x05] = .error .canonSize ∧
      ∃ s', (NewStream [0x81, 0x05] 2).Raw = .ok [0x81, 0x05] s' :=
  Raw_reads_what_Split_rejects 0x05 (by decide) []

end Meshbox.Rlp
