/-
This file models the slice-level RLP reader of rlp/raw.go and the byte-level
writer of rlp/encode.go. The reader splits one value off the front of a byte
string: readKind classifies the header byte, readSize reads a long-form size,
and both reject what a canonical writer never produces (a one-byte string
header around a byte below 0x80, a long-form size below 56 or with a leading
zero byte) and sizes that run past the input. The writer is given on value
trees, byte strings and lists of trees, as encodeString and puthead lay them
out; the list-header bookkeeping of encbuf only defers where the headers go and
is not modelled.
-/

import Meshbox.Library.BigEndian

namespace Meshbox.Rlp

/-- The kind of an RLP value, as rlp.Kind. -/
inductive Kind where
  | Byte
  | String
  | List
deriving DecidableEq, Repr

/-- The errors the slice-level reader returns: io.ErrUnexpectedEOF and the
rlp package's ErrCanonSize, ErrValueTooLarge, ErrExpectedString and
ErrExpectedList. -/
inductive Error where
  | unexpectedEOF
  | canonSize
  | valueTooLarge
  | expectedString
  | expectedList
deriving DecidableEq, Repr

/-! ### Reading one value -/

/-- readSize: the big-endian size in the first slen bytes. Sizes below 56 and
sizes with a leading zero byte are not canonical. -/
def readSize (b : List UInt8) (slen : Nat) : Except Error Nat :=
  if b.length < slen then .error .unexpectedEOF
  else
    let s := BigEndian.ofBytes (b.take slen)
    if s < 56 ∨ b.head? = some 0 then .error .canonSize else .ok s

/-- The switch of readKind on the first byte b of the input (rest follows it):
the kind, the size of the header and the size of the content. -/
def readHeader (b : UInt8) (rest : List UInt8) : Except Error (Kind × Nat × Nat) :=
  if b < 0x80 then .ok (.Byte, 0, 1)
  else if b < 0xB8 then
    -- Reject strings that should have been single bytes.
    if (b - 0x80).toNat = 1 ∧ rest.head?.any (fun next => next < 128) then .error .canonSize
    else .ok (.String, 1, (b - 0x80).toNat)
  else if b < 0xC0 then
    (readSize rest (b - 0xB7).toNat).map fun size => (.String, (b - 0xB7).toNat + 1, size)
  else if b < 0xF8 then .ok (.List, 1, (b - 0xC0).toNat)
  else
    (readSize rest (b - 0xF7).toNat).map fun size => (.List, (b - 0xF7).toNat + 1, size)

/-- readKind: the header of the first value, rejecting content that runs past
the input. -/
def readKind (buf : List UInt8) : Except Error (Kind × Nat × Nat) :=
  match buf with
  | [] => .error .unexpectedEOF
  | b :: rest =>
    match readHeader b rest with
    | .error err => .error err
    | .ok (k, tagsize, contentsize) =>
      if contentsize > buf.length - tagsize then .error .valueTooLarge
      else .ok (k, tagsize, contentsize)

/-- Split: the kind and content of the first value and the bytes after it. -/
def Split (b : List UInt8) : Except Error (Kind × List UInt8 × List UInt8) :=
  match readKind b with
  | .error err => .error err
  | .ok (k, ts, cs) => .ok (k, (b.drop ts).take cs, b.drop (ts + cs))

/-- SplitString: the content of a leading string (or single byte) and the rest. -/
def SplitString (b : List UInt8) : Except Error (List UInt8 × List UInt8) :=
  match Split b with
  | .error err => .error err
  | .ok (k, content, rest) => if k = .List then .error .expectedString else .ok (content, rest)

/-- SplitList: the content of a leading list and the rest. -/
def SplitList (b : List UInt8) : Except Error (List UInt8 × List UInt8) :=
  match Split b with
  | .error err => .error err
  | .ok (k, content, rest) => if k ≠ .List then .error .expectedList else .ok (content, rest)

/-! ### Header sizes -/

theorem readSize_ok {b : List UInt8} {slen size : Nat} (read : readSize b slen = .ok size) :
    slen ≤ b.length ∧ 56 ≤ size := by
  unfold readSize at read
  split at read
  · cases read
  · dsimp only at read
    split at read
    · cases read
    · rename_i short canonical
      cases read
      exact ⟨by omega, by omega⟩

/-- Every header covers at least one byte: a single byte is its own content, and
every other header has a tag byte. -/
theorem readHeader_pos {b : UInt8} {rest : List UInt8} {k : Kind} {tagsize contentsize : Nat}
    (read : readHeader b rest = .ok (k, tagsize, contentsize)) : 0 < tagsize + contentsize := by
  unfold readHeader at read
  split at read
  · cases read; omega
  split at read
  · split at read
    · cases read
    · cases read; omega
  split at read
  · cases sizeRead : readSize rest (b - 0xB7).toNat with
    | error err => rw [sizeRead] at read; cases read
    | ok size => rw [sizeRead] at read; cases read; omega
  split at read
  · cases read; omega
  · cases sizeRead : readSize rest (b - 0xF7).toNat with
    | error err => rw [sizeRead] at read; cases read
    | ok size => rw [sizeRead] at read; cases read; omega

/-- A long-form header never claims more tag bytes than the input has. -/
theorem readHeader_tagsize_le {b : UInt8} {rest : List UInt8} {k : Kind}
    {tagsize contentsize : Nat} (read : readHeader b rest = .ok (k, tagsize, contentsize)) :
    tagsize ≤ rest.length + 1 := by
  unfold readHeader at read
  split at read
  · cases read; omega
  split at read
  · split at read
    · cases read
    · cases read; omega
  split at read
  · cases sizeRead : readSize rest (b - 0xB7).toNat with
    | error err => rw [sizeRead] at read; cases read
    | ok size =>
      rw [sizeRead] at read
      cases read
      have := (readSize_ok sizeRead).1
      omega
  split at read
  · cases read; omega
  · cases sizeRead : readSize rest (b - 0xF7).toNat with
    | error err => rw [sizeRead] at read; cases read
    | ok size =>
      rw [sizeRead] at read
      cases read
      have := (readSize_ok sizeRead).1
      omega

/-- What readKind accepts lies within the input and is not empty. -/
theorem readKind_ok {buf : List UInt8} {k : Kind} {tagsize contentsize : Nat}
    (read : readKind buf = .ok (k, tagsize, contentsize)) :
    0 < tagsize + contentsize ∧ tagsize + contentsize ≤ buf.length := by
  cases buf with
  | nil => cases read
  | cons b rest =>
    simp only [readKind] at read
    cases headerRead : readHeader b rest with
    | error err => rw [headerRead] at read; cases read
    | ok header =>
      obtain ⟨kind, tags, content⟩ := header
      rw [headerRead] at read
      simp only at read
      split at read
      · cases read
      · rename_i fits
        cases read
        have positive := readHeader_pos headerRead
        have tagBound := readHeader_tagsize_le headerRead
        simp only [List.length_cons] at fits ⊢
        omega

/-- A list header has a tag byte. -/
theorem readHeader_list_tagsize {b : UInt8} {rest : List UInt8} {tagsize contentsize : Nat}
    (read : readHeader b rest = .ok (.List, tagsize, contentsize)) : 1 ≤ tagsize := by
  unfold readHeader at read
  split at read
  · cases read
  split at read
  · split at read
    · cases read
    · cases read
  split at read
  · cases sizeRead : readSize rest (b - 0xB7).toNat with
    | error err => rw [sizeRead] at read; cases read
    | ok size => rw [sizeRead] at read; cases read
  split at read
  · cases read; omega
  · cases sizeRead : readSize rest (b - 0xF7).toNat with
    | error err => rw [sizeRead] at read; cases read
    | ok size => rw [sizeRead] at read; cases read; omega

theorem readKind_list_tagsize {buf : List UInt8} {tagsize contentsize : Nat}
    (read : readKind buf = .ok (.List, tagsize, contentsize)) : 1 ≤ tagsize := by
  cases buf with
  | nil => cases read
  | cons b rest =>
    simp only [readKind] at read
    cases headerRead : readHeader b rest with
    | error err => rw [headerRead] at read; cases read
    | ok header =>
      obtain ⟨kind, tags, content⟩ := header
      rw [headerRead] at read
      simp only at read
      split at read
      · cases read
      · cases read
        exact readHeader_list_tagsize headerRead

/-- Split takes a non-empty value off the front: what follows is shorter. -/
theorem Split_rest_length {b : List UInt8} {k : Kind} {content rest : List UInt8}
    (split : Split b = .ok (k, content, rest)) : rest.length < b.length := by
  unfold Split at split
  cases read : readKind b with
  | error err => rw [read] at split; cases split
  | ok header =>
    obtain ⟨kind, tagsize, contentsize⟩ := header
    rw [read] at split
    cases split
    have bounds := readKind_ok read
    simp only [List.length_drop]
    omega

/-- The content of a list is shorter than the input, which also holds its header. -/
theorem Split_list_content_length {b : List UInt8} {content rest : List UInt8}
    (split : Split b = .ok (.List, content, rest)) : content.length < b.length := by
  unfold Split at split
  cases read : readKind b with
  | error err => rw [read] at split; cases split
  | ok header =>
    obtain ⟨kind, tagsize, contentsize⟩ := header
    rw [read] at split
    simp only [Except.ok.injEq, Prod.mk.injEq] at split
    obtain ⟨rfl, rfl, rfl⟩ := split
    have bounds := readKind_ok read
    have tagged := readKind_list_tagsize read
    simp only [List.length_take, List.length_drop]
    omega

theorem SplitString_rest_length {b content rest : List UInt8}
    (split : SplitString b = .ok (content, rest)) : rest.length < b.length := by
  unfold SplitString at split
  cases splitResult : Split b with
  | error err => rw [splitResult] at split; cases split
  | ok result =>
    obtain ⟨kind, content', rest'⟩ := result
    rw [splitResult] at split
    simp only at split
    split at split
    · cases split
    · cases split
      exact Split_rest_length splitResult

theorem SplitList_content_length {b content rest : List UInt8}
    (split : SplitList b = .ok (content, rest)) : content.length < b.length := by
  unfold SplitList at split
  cases splitResult : Split b with
  | error err => rw [splitResult] at split; cases split
  | ok result =>
    obtain ⟨kind, content', rest'⟩ := result
    rw [splitResult] at split
    simp only at split
    split at split
    · cases split
    · rename_i isList
      cases split
      simp only [ne_eq, Decidable.not_not] at isList
      subst isList
      exact Split_list_content_length splitResult

set_option linter.unusedVariables false in
/-- CountValues: the number of values that follow one another in b. -/
def CountValues (b : List UInt8) : Except Error Nat :=
  match b with
  | [] => .ok 0
  | first :: rest =>
    match read : readKind (first :: rest) with
    | .error err => .error err
    | .ok (_, tagsize, size) =>
      match CountValues ((first :: rest).drop (tagsize + size)) with
      | .error err => .error err
      | .ok count => .ok (count + 1)
termination_by b.length
decreasing_by
  have bounds := readKind_ok read
  simp only [List.length_drop]
  omega

/-- Counting goes past the first value and adds one. -/
theorem CountValues_of_readKind {first : UInt8} {rest : List UInt8} {kind : Kind}
    {tagsize size : Nat} (read : readKind (first :: rest) = .ok (kind, tagsize, size)) :
    CountValues (first :: rest) =
      (CountValues ((first :: rest).drop (tagsize + size))).map (· + 1) := by
  rw [CountValues]
  split
  · rename_i err failed
    rw [read] at failed
    cases failed
  · rename_i kind' tagsize' size' read'
    rw [read] at read'
    cases read'
    cases CountValues ((first :: rest).drop (tagsize + size)) <;> rfl

/-! ### Writing values -/

/-- puthead: a string or list header for a payload of the given size. Short
payloads add their size to the small tag; long ones store the shortest
big-endian size after the large tag plus its byte count, as putint and intsize
compute it. -/
def puthead (smalltag largetag : UInt8) (size : Nat) : List UInt8 :=
  if size < 56 then [smalltag + UInt8.ofNat size]
  else (largetag + UInt8.ofNat (BigEndian.toBytes size).length) :: BigEndian.toBytes size

/-- encodeString: a single byte below 0x80 is its own encoding, every other
string gets a string header. -/
def encodeString (b : List UInt8) : List UInt8 :=
  match b with
  | [byte] => if byte ≤ 0x7F then [byte] else puthead 0x80 0xB7 1 ++ b
  | _ => puthead 0x80 0xB7 b.length ++ b

/-- An RLP value: a byte string or a list of values. The writers of byte slices,
structs and arrays produce one of the two. -/
inductive Item where
  | str (bytes : List UInt8)
  | list (items : List Item)
deriving Repr

mutual

/-- The encoding of a value. -/
def Item.encode : Item → List UInt8
  | .str bytes => encodeString bytes
  | .list items => puthead 0xC0 0xF7 (encodeList items).length ++ encodeList items

/-- The concatenated encodings of the elements of a list. -/
def encodeList : List Item → List UInt8
  | [] => []
  | item :: rest => item.encode ++ encodeList rest

end

end Meshbox.Rlp
