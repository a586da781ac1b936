/-
This file models the streaming RLP decoder of rlp/decode.go, reading from a
bytes.Reader as DecodeBytes does. A Stream reads a value's header with Kind,
which caches the kind and size of the value ahead until the value is read, and
keeps a stack of the open lists with the position reached in each. Every read
goes through willRead, which charges it to the innermost list and to the
remaining input, so that no value runs past its list or past the input. Once a
list's content is used up, Kind reports EOL, and ListEnd closes the list and
charges its size to the enclosing one.

The operations return the stream along with a value or an error, as the
methods of the source update their receiver before they return. The decoder of
interface{} values, decodeInterface, recurses into lists through
decodeListSlice and the element loop decodeSliceElems; the recursion runs on a
budget, and none says that the budget ran out.
-/

import Meshbox.Rlp.RoundTrip

namespace Meshbox.Rlp

/-- The errors of the stream decoder: the rlp package's EOL, ErrExpectedString,
ErrExpectedList, ErrCanonSize, ErrElemTooLarge, ErrValueTooLarge,
ErrMoreThanOneValue, errNotInList and errNotAtEOL, and io.EOF and
io.ErrUnexpectedEOF. -/
inductive StreamError where
  | EOL
  | ErrExpectedString
  | ErrExpectedList
  | ErrCanonSize
  | ErrElemTooLarge
  | ErrValueTooLarge
  | ErrMoreThanOneValue
  | errNotInList
  | errNotAtEOL
  | EOF
  | ErrUnexpectedEOF
deriving DecidableEq, Repr

/-- listpos: the position reached within an open list and the list's size. -/
structure listpos where
  pos : Nat
  size : Nat
deriving DecidableEq, Repr

/-- Stream: the unread input of the reader, the remaining input length when the
stream is limited, the kind, size and single byte of the value ahead (kind none
stands for -1: the header must be read again), the sticky error of the last
readKind, and the open lists, the innermost first. The auxiliary uintbuf only
stages readUint's bytes and is not modelled. -/
structure Stream where
  r : List UInt8
  remaining : Nat
  limited : Bool
  kind : Option Kind
  size : Nat
  byteval : UInt8
  kinderr : Option StreamError
  stack : List listpos
deriving DecidableEq, Repr

/-- The outcome of a stream operation: a value or an error, with the stream. -/
abbrev Result (α : Type) := EStateM.Result StreamError Stream α

/-- The stack with the innermost list's position advanced by n, as willRead and
ListEnd advance s.stack[len(s.stack)-1].pos. -/
def advanceTop (stack : List listpos) (n : Nat) : List listpos :=
  match stack with
  | [] => []
  | tos :: rest => { tos with pos := tos.pos + n } :: rest

/-- NewStream over a bytes.Reader of b: the input limit is inputLimit when it is
not zero and the reader's length otherwise, so the stream is limited. -/
def NewStream (b : List UInt8) (inputLimit : Nat) : Stream :=
  { r := b, remaining := if inputLimit > 0 then inputLimit else b.length, limited := true,
    kind := none, size := 0, byteval := 0, kinderr := none, stack := [] }

namespace Stream

/-- willRead: charges n bytes to the innermost list and to the remaining input. -/
def willRead (s : Stream) (n : Nat) : Result Unit :=
  let s := { s with kind := none }
  -- check list overflow
  if s.stack.head?.any (fun tos => n > tos.size - tos.pos) then .error .ErrElemTooLarge s
  else
    let s := { s with stack := advanceTop s.stack n }
    if s.limited then
      if n > s.remaining then .error .ErrValueTooLarge s
      else .ok () { s with remaining := s.remaining - n }
    else .ok () s

/-- readByte: one byte of the input. -/
def readByte (s : Stream) : Result UInt8 :=
  match s.willRead 1 with
  | .error err s => .error err s
  | .ok () s =>
    match s.r with
    | [] => .error .ErrUnexpectedEOF s
    | b :: rest => .ok b { s with r := rest }

/-- readFull: the next n bytes of the input. A bytes.Reader hands out what it
holds until it is exhausted, and then io.EOF. -/
def readFull (s : Stream) (n : Nat) : Result (List UInt8) :=
  match s.willRead n with
  | .error err s => .error err s
  | .ok () s =>
    if n ≤ s.r.length then .ok (s.r.take n) { s with r := s.r.drop n }
    else .error .ErrUnexpectedEOF { s with r := [] }

/-- readUint: a big-endian size of the given number of bytes, which must not
start with a zero byte. -/
def readUint (s : Stream) (size : Nat) : Result Nat :=
  match size with
  | 0 => .ok 0 { s with kind := none }
  | 1 =>
    match s.readByte with
    | .error err s => .error err s
    | .ok b s => .ok b.toNat s
  | size =>
    match s.readFull size with
    | .error err s => .error err s
    | .ok buf s => if buf.head? = some 0 then .error .ErrCanonSize s else .ok (BigEndian.ofBytes buf) s

/-- The long-form branches of readKind: the size in the sizesize bytes after the
tag, which is not canonical below 56. -/
def readLongSize (s : Stream) (kind : Kind) (sizesize : Nat) : (Kind × Nat × Option StreamError) × Stream :=
  match s.readUint sizesize with
  | .error err s => ((kind, 0, some err), s)
  | .ok size s => ((kind, size, if size < 56 then some .ErrCanonSize else none), s)

/-- readKind: the kind and size of the value ahead, read from its header, and the
error that goes with them. -/
def readKind (s : Stream) : (Kind × Nat × Option StreamError) × Stream :=
  match s.readByte with
  | .error err s =>
    -- At toplevel, adjust the error to actual EOF.
    let err := if s.stack = [] ∧ (err = .ErrUnexpectedEOF ∨ err = .ErrValueTooLarge) then .EOF else err
    ((.Byte, 0, some err), s)
  | .ok b s =>
    let s := { s with byteval := 0 }
    if b < 0x80 then ((.Byte, 0, none), { s with byteval := b })
    else if b < 0xB8 then ((.String, (b - 0x80).toNat, none), s)
    else if b < 0xC0 then s.readLongSize .String (b - 0xB7).toNat
    else if b < 0xF8 then ((.List, (b - 0xC0).toNat, none), s)
    else s.readLongSize .List (b - 0xF7).toNat

/-- Kind: the kind and size of the next value. The first call reads the header
and checks that the value fits its list, or the input at toplevel; later calls
return the cached kind, size and error until the value is read. -/
def Kind (s : Stream) : Result (Rlp.Kind × Nat) :=
  match s.kind with
  | some kind =>
    match s.kinderr with
    | some err => .error err s
    | none => .ok (kind, s.size) s
  | none =>
    let s := { s with kinderr := none }
    -- Don't read further if we're at the end of the innermost list.
    if s.stack.head?.any (fun tos => tos.pos = tos.size) then .error .EOL s
    else
      let ((kind, size, kinderr), s) := s.readKind
      let kinderr : Option StreamError :=
        match kinderr with
        | some err => some err
        | none =>
          match s.stack with
          | [] => if s.limited ∧ size > s.remaining then some .ErrValueTooLarge else none
          | tos :: _ => if size > tos.size - tos.pos then some .ErrElemTooLarge else none
      let s := { s with kind := some kind, size := size, kinderr := kinderr }
      match kinderr with
      | some err => .error err s
      | none => .ok (kind, size) s

/-- Bytes: the contents of a string, or the single byte of its header. A string
of one byte below 0x80 is not canonical. -/
def Bytes (s : Stream) : Result (List UInt8) :=
  match s.Kind with
  | .error err s => .error err s
  | .ok (kind, size) s =>
    match kind with
    | .Byte => .ok [s.byteval] { s with kind := none }
    | .String =>
      match s.readFull size with
      | .error err s => .error err s
      | .ok b s =>
        if size = 1 ∧ b.head?.any (fun first => first < 128) then .error .ErrCanonSize s else .ok b s
    | .List => .error .ErrExpectedString s

/-- Raw: the next value with its header. A single byte is returned as it is;
for a string or a list, Kind has read the header already, so the content is
read and a new header is put in front of it. -/
def Raw (s : Stream) : Result (List UInt8) :=
  match s.Kind with
  | .error err s => .error err s
  | .ok (kind, size) s =>
    match kind with
    | .Byte => .ok [s.byteval] { s with kind := none }
    | kind =>
      match s.readFull size with
      | .error err s => .error err s
      | .ok content s =>
        .ok ((if kind = .String then puthead 0x80 0xB7 size else puthead 0xC0 0xF7 size) ++ content) s

/-- List: enters a list and returns its size. -/
def List (s : Stream) : Result Nat :=
  match s.Kind with
  | .error err s => .error err s
  | .ok (kind, size) s =>
    if kind ≠ .List then .error .ErrExpectedList s
    else .ok size { s with stack := ⟨0, size⟩ :: s.stack, kind := none, size := 0 }

/-- ListEnd: leaves a list whose content is used up, and charges its size to the
enclosing list. -/
def ListEnd (s : Stream) : Result Unit :=
  match s.stack with
  | [] => .error .errNotInList s
  | tos :: rest =>
    if tos.pos ≠ tos.size then .error .errNotAtEOL s
    else .ok () { s with stack := advanceTop rest tos.size, kind := none, size := 0 }

end Stream

variable {α : Type}

/-- decodeSliceElems: elements decoded with elemdec until it reports EOL. The
loop of the source is unbounded; it runs on fuel here. -/
def decodeSliceElems (elemdec : Stream → Option (Result α)) : Nat → Stream → Option (Result (List α))
  | 0, _ => none
  | fuel + 1, s =>
    match elemdec s with
    | none => none
    | some (.error .EOL s) => some (.ok [] s)
    | some (.error err s) => some (.error err s)
    | some (.ok value s) =>
      match decodeSliceElems elemdec fuel s with
      | some (.ok values s) => some (.ok (value :: values) s)
      | result => result

/-- decodeListSlice: a list decoded into a slice of its elements, up to the
list's end. -/
def decodeListSlice (elemdec : Stream → Option (Result α)) (fuel : Nat) (s : Stream) :
    Option (Result (List α)) :=
  match s.List with
  | .error err s => some (.error err s)
  | .ok size s =>
    if size = 0 then
      match s.ListEnd with
      | .ok () s => some (.ok [] s)
      | .error err s => some (.error err s)
    else
      match decodeSliceElems elemdec fuel s with
      | some (.ok values s) =>
        match s.ListEnd with
        | .ok () s => some (.ok values s)
        | .error err s => some (.error err s)
      | result => result

/-- decodeInterface: the decoder of an interface{} value. A list decodes to a
[]interface{} of its elements, anything else through Bytes to a []byte. The
recursion into the elements of a list runs on fuel, which also bounds the
element loop. -/
def decodeInterface : Nat → Stream → Option (Result Item)
  | fuel, s =>
    match s.Kind with
    | .error err s => some (.error err s)
    | .ok (kind, _) s =>
      if kind = .List then
        match fuel with
        | 0 => none
        | fuel + 1 =>
          match decodeListSlice (decodeInterface fuel) fuel s with
          | none => none
          | some (.ok items s) => some (.ok (.list items) s)
          | some (.error err s) => some (.error err s)
      else
        match s.Bytes with
        | .ok b s => some (.ok (.str b) s)
        | .error err s => some (.error err s)

/-- DecodeBytes into an interface{}: one value that takes up the whole input. The
budget of b.length + 1 always suffices. -/
def DecodeBytes (b : List UInt8) : Option (Except StreamError Item) :=
  match decodeInterface (b.length + 1) (NewStream b b.length) with
  | none => none
  | some (.error err _) => some (.error err)
  | some (.ok val s) => some (if s.r.length > 0 then .error .ErrMoreThanOneValue else .ok val)

/-! ### Reading charges the innermost list and the input -/

namespace Stream

/-- n more bytes fit the innermost list and, when the stream is limited, the
remaining input. -/
def Room (s : Stream) (n : Nat) : Prop :=
  (∀ tos ∈ s.stack.head?, n ≤ tos.size - tos.pos) ∧ (s.limited = true → n ≤ s.remaining)

/-- The stream once willRead has charged n bytes. -/
def charged (s : Stream) (n : Nat) : Stream :=
  { s with kind := none, stack := advanceTop s.stack n,
           remaining := if s.limited then s.remaining - n else s.remaining }

/-- The innermost list is used up: Kind reports EOL. -/
def AtEOL (s : Stream) : Prop :=
  ∃ tos rest, s.stack = tos :: rest ∧ tos.pos = tos.size

end Stream

/-- s' is s after reading bytes: they were the front of s's input, and they are
charged to the innermost list and to the remaining input. What else the stream
holds is the cache of the value ahead. -/
structure Reads (s : Stream) (bytes : List UInt8) (s' : Stream) : Prop where
  input : s.r = bytes ++ s'.r
  limited : s'.limited = s.limited
  remaining : s'.remaining = if s.limited then s.remaining - bytes.length else s.remaining
  stack : s'.stack = advanceTop s.stack bytes.length

@[simp] theorem advanceTop_zero (stack : List listpos) : advanceTop stack 0 = stack := by
  cases stack <;> rfl

theorem advanceTop_advanceTop (stack : List listpos) (a b : Nat) :
    advanceTop (advanceTop stack a) b = advanceTop stack (a + b) := by
  cases stack with
  | nil => rfl
  | cons tos rest => simp [advanceTop, Nat.add_assoc]

theorem Reads.refl (s : Stream) : Reads s [] s :=
  ⟨rfl, rfl, by cases s.limited <;> simp, by simp⟩

/-- Reads compose: reading one string and then another reads both. -/
theorem Reads.trans {s s₁ s₂ : Stream} {first second : List UInt8} (one : Reads s first s₁)
    (two : Reads s₁ second s₂) : Reads s (first ++ second) s₂ where
  input := by rw [one.input, two.input, List.append_assoc]
  limited := two.limited.trans one.limited
  remaining := by
    rw [two.remaining, one.remaining, one.limited]
    cases s.limited <;> simp [Nat.sub_sub]
  stack := by rw [two.stack, one.stack, advanceTop_advanceTop, List.length_append]

/-- What fits after a read is what was left of the room. -/
theorem Reads.room {s s' : Stream} {bytes : List UInt8} {n : Nat} (reads : Reads s bytes s')
    (room : s.Room (bytes.length + n)) : s'.Room n := by
  obtain ⟨fits, enough⟩ := room
  constructor
  · intro tos member
    rw [reads.stack] at member
    cases stack : s.stack with
    | nil => simp [stack, advanceTop] at member
    | cons top rest =>
      simp only [stack, advanceTop, List.head?_cons, Option.mem_def, Option.some_inj] at member
      subst member
      have := fits top (by simp [stack])
      simp only
      omega
  · intro limited
    rw [reads.limited] at limited
    rw [reads.remaining, if_pos limited]
    have := enough limited
    omega

/-- Charging the bytes at the front of the input reads them. -/
theorem reads_charged (s : Stream) {bytes rest : List UInt8} {n : Nat} (input : s.r = bytes ++ rest)
    (length : bytes.length = n) : Reads s bytes { s.charged n with r := rest } := by
  subst length
  exact ⟨input, rfl, rfl, rfl⟩

theorem room_mono {s : Stream} {n m : Nat} (room : s.Room n) (le : m ≤ n) : s.Room m :=
  ⟨fun tos member => Nat.le_trans le (room.1 tos member), fun limited => Nat.le_trans le (room.2 limited)⟩

/-! ### willRead, readByte and readFull -/

theorem willRead_of_room {s : Stream} {n : Nat} (room : s.Room n) :
    s.willRead n = .ok () (s.charged n) := by
  obtain ⟨fits, enough⟩ := room
  have inList : (s.stack.head?.any fun tos => decide (n > tos.size - tos.pos)) = false := by
    cases top : s.stack.head? with
    | none => rfl
    | some tos =>
      have := fits tos top
      simp only [Option.any_some, decide_eq_false_iff_not, gt_iff_lt, Nat.not_lt]
      exact this
  unfold Stream.willRead Stream.charged
  simp only [inList, Bool.false_eq_true, if_false]
  cases limited : s.limited with
  | false => simp
  | true => simp [Nat.not_lt.mpr (enough limited)]

theorem room_of_willRead {s s' : Stream} {n : Nat} {u : Unit} (read : s.willRead n = .ok u s') :
    s.Room n := by
  unfold Stream.willRead at read
  dsimp only at read
  split at read
  · cases read
  · rename_i inList
    constructor
    · intro tos member
      simp only [Option.mem_def] at member
      simp only [member, Option.any_some, decide_eq_true_eq, gt_iff_lt, Nat.not_lt] at inList
      exact inList
    · intro limited
      simp only [limited, if_true] at read
      split at read
      · cases read
      · omega

theorem willRead_error {s s' : Stream} {n : Nat} {err : StreamError}
    (read : s.willRead n = .error err s') : err = .ErrElemTooLarge ∨ err = .ErrValueTooLarge := by
  unfold Stream.willRead at read
  dsimp only at read
  split at read
  · cases read
    exact .inl rfl
  · split at read
    · split at read
      · cases read
        exact .inr rfl
      · cases read
    · cases read

theorem readByte_of_room {s : Stream} {b : UInt8} {rest : List UInt8} (room : s.Room 1)
    (input : s.r = b :: rest) : s.readByte = .ok b { s.charged 1 with r := rest } := by
  unfold Stream.readByte
  rw [willRead_of_room room]
  simp only [Stream.charged, input]

theorem readByte_inv {s s' : Stream} {b : UInt8} (read : s.readByte = .ok b s') :
    ∃ rest, s.Room 1 ∧ s.r = b :: rest ∧ s' = { s.charged 1 with r := rest } := by
  unfold Stream.readByte at read
  split at read
  · cases read
  · rename_i s₁ charge
    have room := room_of_willRead charge
    rw [willRead_of_room room] at charge
    cases charge
    split at read
    · cases read
    · rename_i b' rest input
      cases read
      exact ⟨rest, room, input, rfl⟩

theorem readByte_error {s s' : Stream} {err : StreamError} (read : s.readByte = .error err s') :
    err = .ErrElemTooLarge ∨ err = .ErrValueTooLarge ∨ err = .ErrUnexpectedEOF := by
  unfold Stream.readByte at read
  split at read
  · cases read
    rename_i charge
    rcases willRead_error charge with tooLarge | tooLarge
    · exact .inl tooLarge
    · exact .inr (.inl tooLarge)
  · split at read
    · cases read
      exact .inr (.inr rfl)
    · cases read

theorem readFull_of_room {s : Stream} {n : Nat} (room : s.Room n) (enough : n ≤ s.r.length) :
    s.readFull n = .ok (s.r.take n) { s.charged n with r := s.r.drop n } := by
  unfold Stream.readFull
  rw [willRead_of_room room]
  simp only [Stream.charged, enough, ↓reduceIte]

theorem readFull_inv {s s' : Stream} {n : Nat} {b : List UInt8} (read : s.readFull n = .ok b s') :
    s.Room n ∧ n ≤ s.r.length ∧ b = s.r.take n ∧ s' = { s.charged n with r := s.r.drop n } := by
  unfold Stream.readFull at read
  split at read
  · cases read
  · rename_i s₁ charge
    have room := room_of_willRead charge
    rw [willRead_of_room room] at charge
    cases charge
    split at read
    · rename_i enough
      cases read
      exact ⟨room, enough, rfl, rfl⟩
    · cases read

theorem readFull_error {s s' : Stream} {n : Nat} {err : StreamError} (read : s.readFull n = .error err s') :
    err = .ErrElemTooLarge ∨ err = .ErrValueTooLarge ∨ err = .ErrUnexpectedEOF := by
  unfold Stream.readFull at read
  split at read
  · cases read
    rename_i charge
    rcases willRead_error charge with tooLarge | tooLarge
    · exact .inl tooLarge
    · exact .inr (.inl tooLarge)
  · split at read
    · cases read
    · cases read
      exact .inr (.inr rfl)

/-! ### readUint and readLongSize -/

/-- readUint reads back a size of one to eight bytes that has no leading zero. -/
theorem readUint_of_bytes {s : Stream} {buf rest : List UInt8} (positive : 0 < buf.length)
    (room : s.Room buf.length) (input : s.r = buf ++ rest) (leading : buf.head? ≠ some 0) :
    ∃ s', s.readUint buf.length = .ok (BigEndian.ofBytes buf) s' ∧ Reads s buf s' ∧ s'.kind = none := by
  match buf, positive with
  | [b], _ =>
    refine ⟨{ s.charged 1 with r := rest }, ?_, reads_charged s input rfl, rfl⟩
    simp only [List.length_singleton, Stream.readUint, readByte_of_room room input]
    simp [BigEndian.ofBytes]
  | b :: c :: more, _ =>
    have enough : (b :: c :: more).length ≤ s.r.length := by simp [input]
    have read := readFull_of_room room enough
    rw [input, List.take_left, List.drop_left] at read
    refine ⟨{ s.charged (b :: c :: more).length with r := rest }, ?_, reads_charged s input rfl, rfl⟩
    simp only [List.length_cons, Stream.readUint] at read ⊢
    rw [read]
    simp only [leading, ↓reduceIte]

/-- What readUint accepts: a big-endian size of the bytes it read, without a
leading zero byte when there are two or more. -/
theorem readUint_inv {s s' : Stream} {n size : Nat} (positive : 0 < n)
    (read : s.readUint n = .ok size s') :
    ∃ buf, buf.length = n ∧ size = BigEndian.ofBytes buf ∧ (2 ≤ n → buf.head? ≠ some 0) ∧
      Reads s buf s' ∧ s'.kind = none := by
  match n, positive with
  | 1, _ =>
    simp only [Stream.readUint] at read
    split at read
    · cases read
    · rename_i b s₁ byteRead
      cases read
      obtain ⟨rest, -, input, rfl⟩ := readByte_inv byteRead
      exact ⟨[b], rfl, by simp [BigEndian.ofBytes], by omega, reads_charged s input rfl, rfl⟩
  | k + 2, _ =>
    simp only [Stream.readUint] at read
    split at read
    · cases read
    · rename_i buf s₁ fullRead
      obtain ⟨room, enough, rfl, rfl⟩ := readFull_inv fullRead
      split at read
      · cases read
      · rename_i leading
        cases read
        have length : (s.r.take (k + 2)).length = k + 2 := by simp [enough]
        exact ⟨s.r.take (k + 2), length, rfl, fun _ => leading,
          reads_charged s (List.take_append_drop (k + 2) s.r).symm length, rfl⟩

theorem readUint_error {s s' : Stream} {n : Nat} {err : StreamError} (read : s.readUint n = .error err s') :
    err ≠ .EOL := by
  unfold Stream.readUint at read
  split at read
  · cases read
  · split at read
    · rcases readByte_error (by assumption) with rfl | rfl | rfl <;> cases read <;> decide
    · cases read
  · split at read
    · rcases readFull_error (by assumption) with rfl | rfl | rfl <;> cases read <;> decide
    · split at read
      · cases read
        decide
      · cases read

/-- The long form of a size of at least 56 reads back. -/
theorem readLongSize_toBytes {s : Stream} {size : Nat} {rest : List UInt8} (kind : Kind)
    (large : 56 ≤ size) (room : s.Room (BigEndian.toBytes size).length)
    (input : s.r = BigEndian.toBytes size ++ rest) :
    ∃ s', s.readLongSize kind (BigEndian.toBytes size).length = ((kind, size, none), s') ∧
      Reads s (BigEndian.toBytes size) s' ∧ s'.kind = none := by
  have positive : size ≠ 0 := by omega
  have nonempty : BigEndian.toBytes size ≠ [] := by
    rw [ne_eq, BigEndian.toBytes_eq_nil_iff]
    exact positive
  have leading : (BigEndian.toBytes size).head? ≠ some 0 := by
    cases split : BigEndian.toBytes size with
    | nil => exact absurd split nonempty
    | cons first more =>
      simpa using BigEndian.head_toBytes_ne_zero positive first more split
  obtain ⟨s', read, reads, rearmed⟩ :=
    readUint_of_bytes (List.length_pos_iff.mpr nonempty) room input leading
  refine ⟨s', ?_, reads, rearmed⟩
  rw [Stream.readLongSize, read, BigEndian.ofBytes_toBytes]
  simp [Nat.not_lt.mpr large]

/-- What a long form accepts: a size of at least 56 in its shortest big-endian
form. -/
theorem readLongSize_inv {s s' : Stream} {kind kind' : Kind} {n size : Nat} (positive : 0 < n)
    (read : s.readLongSize kind n = ((kind', size, none), s')) :
    kind' = kind ∧ 56 ≤ size ∧ (BigEndian.toBytes size).length = n ∧
      Reads s (BigEndian.toBytes size) s' ∧ s'.kind = none := by
  unfold Stream.readLongSize at read
  split at read
  · cases read
  · rename_i size' s₁ uintRead
    simp only [Prod.mk.injEq] at read
    obtain ⟨⟨rfl, same, checked⟩, rfl⟩ := read
    subst size'
    have large : 56 ≤ size := by
      by_contra small
      simp [Nat.lt_of_not_le small] at checked
    obtain ⟨buf, length, rfl, leading, reads, rearmed⟩ := readUint_inv positive uintRead
    -- one byte of at least 56 is no zero byte either
    have noZero : buf.head? ≠ some 0 := by
      by_cases two : 2 ≤ n
      · exact leading two
      · obtain ⟨b, rfl⟩ := List.length_eq_one_iff.mp (by omega : buf.length = 1)
        intro zero
        simp only [List.head?_cons, Option.some_inj] at zero
        simp [zero, BigEndian.ofBytes] at large
    rw [BigEndian.toBytes_ofBytes noZero]
    exact ⟨rfl, large, length, reads, rearmed⟩

theorem readLongSize_error {s s' : Stream} {kind kind' : Kind} {n size : Nat} {err : StreamError}
    (read : s.readLongSize kind n = ((kind', size, some err), s')) : err ≠ .EOL := by
  unfold Stream.readLongSize at read
  split at read
  · rename_i err' s₁ uintRead
    simp only [Prod.mk.injEq, Option.some_inj] at read
    obtain ⟨⟨-, -, rfl⟩, -⟩ := read
    exact readUint_error uintRead
  · simp only [Prod.mk.injEq] at read
    obtain ⟨⟨-, -, checked⟩, -⟩ := read
    split at checked
    · cases checked
      decide
    · cases checked

/-! ### readKind -/

/-- The header puthead writes for a string or a list of the given size; a single
byte has none of its own and is counted with the strings. -/
def header (kind : Kind) (size : Nat) : List UInt8 :=
  match kind with
  | .Byte => puthead 0x80 0xB7 size
  | .String => puthead 0x80 0xB7 size
  | .List => puthead 0xC0 0xF7 size

/-- A tag byte is its base plus its offset from the base. -/
theorem base_add_offset {base b : UInt8} {offset : Nat} (tagged : base.toNat + offset = b.toNat) :
    base + UInt8.ofNat offset = b := by
  apply UInt8.toNat_inj.mp
  rw [toNat_add_ofNat (by have := b.toNat_lt; omega)]
  exact tagged

section Tags

/-! The switch of readKind on the header byte, one range at a time. -/

variable {s s₁ : Stream} {b : UInt8} (read : s.readByte = .ok b s₁)
include read

theorem readKind_of_byte (high : b.toNat < 0x80) :
    s.readKind = ((.Byte, 0, none), { s₁ with byteval := b }) := by
  have isByte : b < 0x80 := by rw [UInt8.lt_iff_toNat_lt]; simpa using high
  simp only [Stream.readKind, read, isByte, ↓reduceIte]

theorem readKind_of_string (low : 0x80 ≤ b.toNat) (high : b.toNat < 0xB8) :
    s.readKind = ((.String, b.toNat - 0x80, none), { s₁ with byteval := 0 }) := by
  have notByte : ¬ b < 0x80 := by rw [UInt8.lt_iff_toNat_lt]; simpa using low
  have isString : b < 0xB8 := by rw [UInt8.lt_iff_toNat_lt]; simpa using high
  have offset : (b - 0x80).toNat = b.toNat - 0x80 := toNat_sub_base (by simp; omega)
  simp only [Stream.readKind, read, notByte, isString, offset, ↓reduceIte]

theorem readKind_of_long_string (low : 0xB8 ≤ b.toNat) (high : b.toNat < 0xC0) :
    s.readKind = { s₁ with byteval := 0 }.readLongSize .String (b.toNat - 0xB7) := by
  have notByte : ¬ b < 0x80 := by rw [UInt8.lt_iff_toNat_lt]; simp; omega
  have notString : ¬ b < 0xB8 := by rw [UInt8.lt_iff_toNat_lt]; simpa using low
  have isLong : b < 0xC0 := by rw [UInt8.lt_iff_toNat_lt]; simpa using high
  have offset : (b - 0xB7).toNat = b.toNat - 0xB7 := toNat_sub_base (by simp; omega)
  simp only [Stream.readKind, read, notByte, notString, isLong, offset, ↓reduceIte]

theorem readKind_of_list (low : 0xC0 ≤ b.toNat) (high : b.toNat < 0xF8) :
    s.readKind = ((.List, b.toNat - 0xC0, none), { s₁ with byteval := 0 }) := by
  have notByte : ¬ b < 0x80 := by rw [UInt8.lt_iff_toNat_lt]; simp; omega
  have notString : ¬ b < 0xB8 := by rw [UInt8.lt_iff_toNat_lt]; simp; omega
  have notLong : ¬ b < 0xC0 := by rw [UInt8.lt_iff_toNat_lt]; simpa using low
  have isList : b < 0xF8 := by rw [UInt8.lt_iff_toNat_lt]; simpa using high
  have offset : (b - 0xC0).toNat = b.toNat - 0xC0 := toNat_sub_base (by simp; omega)
  simp only [Stream.readKind, read, notByte, notString, notLong, isList, offset, ↓reduceIte]

theorem readKind_of_long_list (low : 0xF8 ≤ b.toNat) :
    s.readKind = { s₁ with byteval := 0 }.readLongSize .List (b.toNat - 0xF7) := by
  have notByte : ¬ b < 0x80 := by rw [UInt8.lt_iff_toNat_lt]; simp; omega
  have notString : ¬ b < 0xB8 := by rw [UInt8.lt_iff_toNat_lt]; simp; omega
  have notLong : ¬ b < 0xC0 := by rw [UInt8.lt_iff_toNat_lt]; simp; omega
  have notList : ¬ b < 0xF8 := by rw [UInt8.lt_iff_toNat_lt]; simpa using low
  have offset : (b - 0xF7).toNat = b.toNat - 0xF7 := toNat_sub_base (by simp; omega)
  simp only [Stream.readKind, read, notByte, notString, notLong, notList, offset, ↓reduceIte]

end Tags

/-- A single byte below 0x80 is its own header. -/
theorem readKind_byte {s : Stream} {b : UInt8} {rest : List UInt8} (room : s.Room 1)
    (input : s.r = b :: rest) (small : b.toNat < 0x80) :
    s.readKind = ((.Byte, 0, none), { s.charged 1 with r := rest, byteval := b }) :=
  readKind_of_byte (readByte_of_room room input) small

/-- A one-byte header: the tag is the base plus the size. -/
theorem readKind_short {s s' : Stream} {kind : Kind} {tag : UInt8} {size : Nat} {rest : List UInt8}
    (room : s.Room 1) (input : s.r = tag :: rest)
    (branch : ∀ s₁, s.readByte = .ok tag s₁ → s.readKind = ((kind, size, none), { s₁ with byteval := 0 }))
    (after : s' = { s.charged 1 with r := rest, byteval := 0 }) :
    s.readKind = ((kind, size, none), s') ∧ Reads s [tag] s' ∧ s'.kind = none := by
  subst after
  exact ⟨branch _ (readByte_of_room room input), ⟨input, rfl, rfl, rfl⟩, rfl⟩

/-- A long header: the tag, then the size in its shortest big-endian form. -/
theorem readKind_long {s : Stream} {kind : Kind} {tag : UInt8} {size : Nat} {rest : List UInt8}
    (large : 56 ≤ size) (room : s.Room (1 + (BigEndian.toBytes size).length))
    (input : s.r = tag :: (BigEndian.toBytes size ++ rest))
    (branch : ∀ s₁, s.readByte = .ok tag s₁ →
      s.readKind = { s₁ with byteval := 0 }.readLongSize kind (BigEndian.toBytes size).length) :
    ∃ s', s.readKind = ((kind, size, none), s') ∧ Reads s (tag :: BigEndian.toBytes size) s' ∧
      s'.kind = none := by
  let s₁ : Stream := { s.charged 1 with r := BigEndian.toBytes size ++ rest, byteval := 0 }
  have tagRead₁ : Reads s [tag] s₁ := ⟨input, rfl, rfl, rfl⟩
  obtain ⟨s', longRead, sizeRead, rearmed⟩ :=
    readLongSize_toBytes (s := s₁) kind large (tagRead₁.room room) rfl
  refine ⟨s', ?_, tagRead₁.trans sizeRead, rearmed⟩
  rw [branch _ (readByte_of_room (room_mono room (by omega)) input)]
  exact longRead

/-- The header puthead writes for a string or a list reads back, for every size
the writer's uint64 sizes can hold. -/
theorem readKind_header {s : Stream} {kind : Kind} {size : Nat} {rest : List UInt8}
    (notByte : kind ≠ .Byte) (bound : size < 2 ^ 64) (room : s.Room (header kind size).length)
    (input : s.r = header kind size ++ rest) :
    ∃ s', s.readKind = ((kind, size, none), s') ∧ Reads s (header kind size) s' ∧ s'.kind = none := by
  by_cases short : size < 56
  · -- a single tag byte, the base plus the size
    cases kind with
    | Byte => exact absurd rfl notByte
    | String =>
      rw [header, puthead_short short] at room input ⊢
      have tag : (0x80 + UInt8.ofNat size : UInt8).toNat = 0x80 + size := toNat_add_ofNat (by simp; omega)
      refine ⟨_, readKind_short room input (fun s₁ read => ?_) rfl⟩
      rw [readKind_of_string read (by omega) (by omega), tag, Nat.add_sub_cancel_left]
    | List =>
      rw [header, puthead_short short] at room input ⊢
      have tag : (0xC0 + UInt8.ofNat size : UInt8).toNat = 0xC0 + size := toNat_add_ofNat (by simp; omega)
      refine ⟨_, readKind_short room input (fun s₁ read => ?_) rfl⟩
      rw [readKind_of_list read (by omega) (by omega), tag, Nat.add_sub_cancel_left]
  · -- the tag counts the bytes of the size that follows it
    obtain ⟨one, eight⟩ := length_toBytes_bounds (Nat.le_of_not_lt short) bound
    cases kind with
    | Byte => exact absurd rfl notByte
    | String =>
      rw [header, puthead_long short] at room input ⊢
      have tag : (0xB7 + UInt8.ofNat (BigEndian.toBytes size).length : UInt8).toNat =
          0xB7 + (BigEndian.toBytes size).length := toNat_add_ofNat (by simp; omega)
      refine readKind_long (Nat.le_of_not_lt short) (by simpa [Nat.add_comm] using room) input
        (fun s₁ read => ?_)
      rw [readKind_of_long_string read (by omega) (by omega), tag, Nat.add_sub_cancel_left]
    | List =>
      rw [header, puthead_long short] at room input ⊢
      have tag : (0xF7 + UInt8.ofNat (BigEndian.toBytes size).length : UInt8).toNat =
          0xF7 + (BigEndian.toBytes size).length := toNat_add_ofNat (by simp; omega)
      refine readKind_long (Nat.le_of_not_lt short) (by simpa [Nat.add_comm] using room) input
        (fun s₁ read => ?_)
      rw [readKind_of_long_list read (by omega), tag, Nat.add_sub_cancel_left]

/-- What readKind accepts: a single byte below 0x80, or the header puthead writes
for a string or a list of the size it returns. Every size is checked for a
leading zero and against 56, so the header is the one the writer writes. -/
theorem readKind_inv {s s' : Stream} {kind : Kind} {size : Nat}
    (read : s.readKind = ((kind, size, none), s')) :
    s'.kind = none ∧
      ((kind = .Byte ∧ size = 0 ∧ s'.byteval.toNat < 0x80 ∧ Reads s [s'.byteval] s') ∨
        (kind ≠ .Byte ∧ Reads s (header kind size) s')) := by
  cases byteRead : s.readByte with
  | error err s₁ => simp [Stream.readKind, byteRead] at read
  | ok b s₁ =>
    obtain ⟨rest, room, input, rfl⟩ := readByte_inv byteRead
    have tagRead : Reads s [b] { s.charged 1 with r := rest, byteval := 0 } := ⟨input, rfl, rfl, rfl⟩
    have bound := b.toNat_lt
    by_cases byte : b.toNat < 0x80
    · rw [readKind_of_byte byteRead byte] at read
      simp only [Prod.mk.injEq] at read
      obtain ⟨⟨rfl, rfl, -⟩, rfl⟩ := read
      exact ⟨rfl, .inl ⟨rfl, rfl, byte, ⟨input, rfl, rfl, rfl⟩⟩⟩
    by_cases string : b.toNat < 0xB8
    · rw [readKind_of_string byteRead (by omega) string] at read
      simp only [Prod.mk.injEq] at read
      obtain ⟨⟨rfl, rfl, -⟩, rfl⟩ := read
      have headerIs : header .String (b.toNat - 0x80) = [b] := by
        rw [header, puthead_short (by omega), base_add_offset (b := b) (by simp; omega)]
      refine ⟨rfl, .inr ⟨by decide, ?_⟩⟩
      rw [headerIs]
      exact tagRead
    by_cases longString : b.toNat < 0xC0
    · rw [readKind_of_long_string byteRead (by omega) longString] at read
      obtain ⟨rfl, large, length, sizeRead, rearmed⟩ := readLongSize_inv (by omega) read
      have headerIs : header .String size = b :: BigEndian.toBytes size := by
        rw [header, puthead_long (by omega), length, base_add_offset (b := b) (by simp; omega)]
      refine ⟨rearmed, .inr ⟨by decide, ?_⟩⟩
      rw [headerIs]
      exact tagRead.trans sizeRead
    by_cases list : b.toNat < 0xF8
    · rw [readKind_of_list byteRead (by omega) list] at read
      simp only [Prod.mk.injEq] at read
      obtain ⟨⟨rfl, rfl, -⟩, rfl⟩ := read
      have headerIs : header .List (b.toNat - 0xC0) = [b] := by
        rw [header, puthead_short (by omega), base_add_offset (b := b) (by simp; omega)]
      refine ⟨rfl, .inr ⟨by decide, ?_⟩⟩
      rw [headerIs]
      exact tagRead
    · rw [readKind_of_long_list byteRead (by omega)] at read
      obtain ⟨rfl, large, length, sizeRead, rearmed⟩ := readLongSize_inv (by omega) read
      have headerIs : header .List size = b :: BigEndian.toBytes size := by
        rw [header, puthead_long (by omega), length, base_add_offset (b := b) (by simp; omega)]
      refine ⟨rearmed, .inr ⟨by decide, ?_⟩⟩
      rw [headerIs]
      exact tagRead.trans sizeRead

/-- readKind never reports EOL: its errors come from reading and from the
canonical size checks. -/
theorem readKind_error {s s' : Stream} {kind : Kind} {size : Nat} {err : StreamError}
    (read : s.readKind = ((kind, size, some err), s')) : err ≠ .EOL := by
  cases byteRead : s.readByte with
  | error err' s₁ =>
    simp only [Stream.readKind, byteRead, Prod.mk.injEq, Option.some_inj] at read
    obtain ⟨⟨-, -, rfl⟩, -⟩ := read
    split
    · decide
    · rcases readByte_error byteRead with rfl | rfl | rfl <;> decide
  | ok b s₁ =>
    have bound := b.toNat_lt
    by_cases byte : b.toNat < 0x80
    · simp [readKind_of_byte byteRead byte] at read
    by_cases string : b.toNat < 0xB8
    · simp [readKind_of_string byteRead (by omega) string] at read
    by_cases longString : b.toNat < 0xC0
    · rw [readKind_of_long_string byteRead (by omega) longString] at read
      exact readLongSize_error read
    by_cases list : b.toNat < 0xF8
    · simp [readKind_of_list byteRead (by omega) list] at read
    · rw [readKind_of_long_list byteRead (by omega)] at read
      exact readLongSize_error read

/-! ### Kind, Bytes, List and ListEnd -/

theorem atEOL_iff (s : Stream) :
    (s.stack.head?.any fun tos => decide (tos.pos = tos.size)) = true ↔ s.AtEOL := by
  cases stack : s.stack with
  | nil => simp [Stream.AtEOL, stack]
  | cons tos rest => simp [Stream.AtEOL, stack]

theorem Kind_cached {s : Stream} {kind : Kind} (cached : s.kind = some kind) (noError : s.kinderr = none) :
    s.Kind = .ok (kind, s.size) s := by
  simp [Stream.Kind, cached, noError]

/-- At the end of the innermost list, Kind reports EOL and reads nothing. -/
theorem Kind_EOL {s : Stream} (rearmed : s.kind = none) (atEnd : s.AtEOL) :
    s.Kind = .error .EOL { s with kinderr := none } := by
  have check := (atEOL_iff s).mpr atEnd
  simp only [Stream.Kind, rearmed]
  rw [if_pos check]

/-- Kind reads the header of the value ahead and caches it, when the value fits
its list, or the input at toplevel. -/
theorem Kind_read {s s₁ : Stream} {kind : Kind} {size : Nat} (rearmed : s.kind = none)
    (notEnd : ¬ s.AtEOL) (read : { s with kinderr := none }.readKind = ((kind, size, none), s₁))
    (fits : s₁.Room size) :
    s.Kind = .ok (kind, size) { s₁ with kind := some kind, size := size, kinderr := none } := by
  have check : ¬ (s.stack.head?.any fun tos => decide (tos.pos = tos.size)) = true :=
    fun atEnd => notEnd ((atEOL_iff s).mp atEnd)
  -- neither the toplevel check nor the list check fails
  have noError : (match s₁.stack with
      | [] => if s₁.limited = true ∧ size > s₁.remaining then some StreamError.ErrValueTooLarge else none
      | tos :: _ => if size > tos.size - tos.pos then some StreamError.ErrElemTooLarge else none) =
      none := by
    obtain ⟨inList, enough⟩ := fits
    cases stack : s₁.stack with
    | nil =>
      have : ¬ (s₁.limited = true ∧ size > s₁.remaining) := fun ⟨limited, tooLarge⟩ =>
        Nat.lt_irrefl _ (Nat.lt_of_lt_of_le tooLarge (enough limited))
      simp only [this, ↓reduceIte]
    | cons tos rest =>
      have := inList tos (by simp [stack])
      simp only [gt_iff_lt, Nat.not_lt.mpr this, ↓reduceIte]
  obtain ⟨r, remaining, limited, kind₀, size₀, byteval, kinderr, stack⟩ := s
  dsimp only at rearmed read check
  subst rearmed
  simp only [Stream.Kind]
  rw [if_neg check]
  simp only [read, noError]

/-- What Kind does when it reads a header. -/
theorem Kind_inv {s s₂ : Stream} {kind : Kind} {size : Nat} (rearmed : s.kind = none)
    (result : s.Kind = .ok (kind, size) s₂) :
    ∃ s₁, { s with kinderr := none }.readKind = ((kind, size, none), s₁) ∧
      s₂ = { s₁ with kind := some kind, size := size, kinderr := none } := by
  obtain ⟨r, remaining, limited, kind₀, size₀, byteval, kinderr, stack⟩ := s
  dsimp only at rearmed ⊢
  subst rearmed
  simp only [Stream.Kind] at result
  split at result
  · cases result
  · rcases readResult : Stream.readKind ⟨r, remaining, limited, none, size₀, byteval, none, stack⟩ with
      ⟨⟨kind', size', kinderr'⟩, s₁⟩
    rw [readResult] at result
    cases kinderr' with
    | some err => cases result
    | none =>
      dsimp only at result
      split at result
      · cases result
      · rename_i fits
        cases result
        exact ⟨s₁, rfl, by rw [fits]⟩

/-- Kind reports EOL only at the end of the innermost list, and then reads
nothing. -/
theorem Kind_EOL_inv {s s' : Stream} (rearmed : s.kind = none) (result : s.Kind = .error .EOL s') :
    s.AtEOL ∧ s' = { s with kinderr := none } := by
  obtain ⟨r, remaining, limited, kind₀, size₀, byteval, kinderr, stack⟩ := s
  dsimp only at rearmed ⊢
  subst rearmed
  simp only [Stream.Kind] at result
  split at result
  · rename_i atEnd
    cases result
    exact ⟨(atEOL_iff _).mp atEnd, rfl⟩
  · rcases readResult : Stream.readKind ⟨r, remaining, limited, none, size₀, byteval, none, stack⟩ with
      ⟨⟨kind', size', kinderr'⟩, s₁⟩
    rw [readResult] at result
    cases kinderr' with
    | some err =>
      cases result
      exact absurd rfl (readKind_error readResult)
    | none =>
      -- the checks that the value fits report ErrValueTooLarge or ErrElemTooLarge
      dsimp only at result
      split at result
      · rename_i err tooLarge
        cases result
        split at tooLarge
        · split at tooLarge <;> cases tooLarge
        · split at tooLarge <;> cases tooLarge
      · cases result

theorem Bytes_byte {s : Stream} (cached : s.kind = some .Byte) (noError : s.kinderr = none) :
    s.Bytes = .ok [s.byteval] { s with kind := none } := by
  simp only [Stream.Bytes, Kind_cached cached noError]

/-- Bytes reads the contents of a string whose header Kind has cached. -/
theorem Bytes_string {s : Stream} {b rest : List UInt8} (cached : s.kind = some .String)
    (noError : s.kinderr = none) (room : s.Room s.size) (input : s.r = b ++ rest)
    (length : b.length = s.size)
    (canonical : ¬ (s.size = 1 ∧ b.head?.any (fun first => first < 128))) :
    s.Bytes = .ok b { s.charged s.size with r := rest } := by
  have enough : s.size ≤ s.r.length := by rw [input, List.length_append]; omega
  have taken : s.r.take s.size = b := by rw [input, ← length, List.take_left]
  have dropped : s.r.drop s.size = rest := by rw [input, ← length, List.drop_left]
  simp only [Stream.Bytes, Kind_cached cached noError, readFull_of_room room enough, taken, dropped]
  rw [if_neg canonical]

/-- What Bytes accepts of a string: as many bytes as the header says, and not a
single byte below 0x80. -/
theorem Bytes_string_inv {s s' : Stream} {b : List UInt8} (cached : s.kind = some .String)
    (noError : s.kinderr = none) (result : s.Bytes = .ok b s') :
    b.length = s.size ∧ ¬ (s.size = 1 ∧ b.head?.any (fun first => first < 128)) ∧ Reads s b s' ∧
      s'.kind = none := by
  simp only [Stream.Bytes, Kind_cached cached noError] at result
  split at result
  · cases result
  · rename_i b' s₁ fullRead
    obtain ⟨room, enough, rfl, rfl⟩ := readFull_inv fullRead
    split at result
    · cases result
    · rename_i canonical
      cases result
      have length : (s.r.take s.size).length = s.size := by simp [enough]
      exact ⟨length, canonical, reads_charged s (List.take_append_drop s.size s.r).symm length, rfl⟩

theorem Bytes_error {s s' : Stream} {kind : Kind} {err : StreamError} (cached : s.kind = some kind)
    (noError : s.kinderr = none) (result : s.Bytes = .error err s') : err ≠ .EOL := by
  simp only [Stream.Bytes, Kind_cached cached noError] at result
  split at result
  · cases result
  · split at result
    · rename_i fullRead
      cases result
      rcases readFull_error fullRead with rfl | rfl | rfl <;> decide
    · split at result
      · cases result
        decide
      · cases result
  · cases result
    decide

theorem List_cached {s : Stream} (cached : s.kind = some .List) (noError : s.kinderr = none) :
    s.List = .ok s.size { s with stack := ⟨0, s.size⟩ :: s.stack, kind := none, size := 0 } := by
  simp [Stream.List, Kind_cached cached noError]

theorem ListEnd_ok {s : Stream} {tos : listpos} {rest : List listpos} (stack : s.stack = tos :: rest)
    (atEnd : tos.pos = tos.size) :
    s.ListEnd = .ok () { s with stack := advanceTop rest tos.size, kind := none, size := 0 } := by
  simp [Stream.ListEnd, stack, atEnd]

theorem ListEnd_inv {s s' : Stream} {u : Unit} (result : s.ListEnd = .ok u s') :
    ∃ tos rest, s.stack = tos :: rest ∧ tos.pos = tos.size ∧
      s' = { s with stack := advanceTop rest tos.size, kind := none, size := 0 } := by
  unfold Stream.ListEnd at result
  split at result
  · cases result
  · rename_i tos rest stack
    split at result
    · cases result
    · rename_i atEnd
      cases result
      exact ⟨tos, rest, stack, Decidable.of_not_not atEnd, rfl⟩

theorem ListEnd_error {s s' : Stream} {err : StreamError} (result : s.ListEnd = .error err s') :
    err ≠ .EOL := by
  unfold Stream.ListEnd at result
  split at result
  · cases result
    decide
  · split at result
    · cases result
      decide
    · cases result

end Meshbox.Rlp
