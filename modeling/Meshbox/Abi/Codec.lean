/-
This file models the contract ABI codec of accounts/abi. Pack checks each Go
value against its type, writes one head slot per argument (32 bytes times Size
for a fixed array), and appends the payloads of strings, byte strings and
slices after the heads, with their offsets in the head slots. Unpack reads the
arguments back through toGoType, which follows those offsets.

Go values are the reflect values Pack reads and Unpack builds: integers with
their reflect kind (a *big.Int has kind Ptr), booleans, strings, and slices and
arrays with the kind of their element type; a []byte is a slice of uint8 and an
address a [20]uint8 array. Go's int is 64 bits wide: the offsets and lengths
read from the data go through int(...), which wraps, and so do the sums over
them. Slicing out of range aborts, as Go does.
-/

import Meshbox.Library.Outcome
import Meshbox.Library.BigEndian

namespace Meshbox.Abi

/-- reflect.Kind, for the kinds the codec meets. -/
inductive Kind where
  | Bool
  | Int8
  | Int16
  | Int32
  | Int64
  | Uint8
  | Uint16
  | Uint32
  | Uint64
  | Ptr
  | String
  | Slice
  | Array
deriving DecidableEq, Repr

/-- Type: an ABI type as NewType builds it, by its enumerator T and the parts
of Type that each one reads. -/
inductive AbiType where
  | IntTy (size : Nat)
  | UintTy (size : Nat)
  | BoolTy
  | StringTy
  | SliceTy (elem : AbiType)
  | ArrayTy (elem : AbiType) (size : Nat)
  | AddressTy
  | FixedBytesTy (size : Nat)
  | BytesTy
deriving DecidableEq, Repr

/-- reflectIntKindAndType: the Go integer kind of an ABI integer, a *big.Int
beyond 64 bits. -/
def reflectIntKind (unsigned : Bool) (size : Nat) : Kind :=
  match size with
  | 8 => if unsigned then .Uint8 else .Int8
  | 16 => if unsigned then .Uint16 else .Int16
  | 32 => if unsigned then .Uint32 else .Int32
  | 64 => if unsigned then .Uint64 else .Int64
  | _ => .Ptr

namespace AbiType

/-- Type.Kind, as NewType sets it. -/
def Kind : AbiType → Abi.Kind
  | .IntTy size => reflectIntKind false size
  | .UintTy size => reflectIntKind true size
  | .BoolTy => .Bool
  | .StringTy => .String
  | .SliceTy _ => .Slice
  | .ArrayTy _ _ => .Array
  | .AddressTy => .Array
  | .FixedBytesTy _ => .Array
  | .BytesTy => .Slice

/-- Type.Size, as NewType sets it; zero where it sets none. -/
def Size : AbiType → Nat
  | .IntTy size | .UintTy size | .FixedBytesTy size => size
  | .ArrayTy _ size => size
  | .AddressTy => 20
  | _ => 0

/-- Whether Type.T is ArrayTy. -/
def isArray : AbiType → Bool
  | .ArrayTy _ _ => true
  | _ => false

/-- requiresLengthPrefix: strings, byte strings and slices are written after
the heads. -/
def requiresLengthPrefix : AbiType → Bool
  | .StringTy | .BytesTy | .SliceTy _ => true
  | _ => false

end AbiType

/-- A Go value as reflect sees it. -/
inductive Value where
  | int (kind : Kind) (value : Int)
  | bool (value : Bool)
  | string (bytes : List UInt8)
  | slice (elemKind : Kind) (elements : List Value)
  | array (elemKind : Kind) (elements : List Value)
deriving Repr

/-- Argument: an ABI argument; Pack and Unpack read its Type (here abiType)
and whether it is indexed. -/
structure Argument where
  abiType : AbiType
  Indexed : Bool

/-- The errors of the codec, with the values their messages print. -/
inductive AbiError where
  /-- typeErr: "abi: cannot use %v as type %v as argument". -/
  | typeErr
  /-- Pack: "argument count mismatch: %d for %d". -/
  | argumentCountMismatch (given expected : Nat)
  /-- errBadBool: "abi: improperly encoded boolean value". -/
  | errBadBool
  /-- toGoType and lengthPrefixPointsTo: "abi: cannot marshal in to go type:
  length insufficient %d require %d". -/
  | lengthInsufficient (length require : Int)
  /-- lengthPrefixPointsTo: "abi: cannot marshal in to go slice: offset %d would
  go over slice boundary (len=%d)". -/
  | sliceOverBoundary (length offset : Int)
  /-- forEachUnpack: "abi: cannot marshal in to go array: offset %d would go
  over slice boundary (len=%d)". -/
  | arrayOverBoundary (length offset : Int)
  /-- unpackAtomic: "abi: attempting to unpack indexed variable into element.". -/
  | indexedElement
deriving DecidableEq, Repr

/-! ### Go values -/

namespace Value

/-- Value.Kind. -/
def Kind : Value → Abi.Kind
  | .int kind _ => kind
  | .bool _ => .Bool
  | .string _ => .String
  | .slice _ _ => .Slice
  | .array _ _ => .Array

/-- Value.Len, of a string, a slice or an array. -/
def Len : Value → Nat
  | .string bytes => bytes.length
  | .slice _ elements | .array _ elements => elements.length
  | _ => 0

/-- The elements of a slice or an array. -/
def elements : Value → List Value
  | .slice _ elements | .array _ elements => elements
  | _ => []

/-- The kind of a slice's or an array's element type. -/
def elemKind : Value → Option Abi.Kind
  | .slice kind _ | .array kind _ => some kind
  | _ => none

/-- A uint8 value as a byte. -/
def byte : Value → UInt8
  | .int _ value => UInt8.ofNat value.toNat
  | _ => 0

/-- Value.Bytes of a byte slice, or of a byte array once mustArrayToByteSlice
has copied it; reflect aborts on any other value. -/
def Bytes : Value → Outcome AbiError (List UInt8)
  | .slice .Uint8 elements | .array .Uint8 elements => .ok (elements.map byte)
  | _ => .panic

end Value

/-! ### Pack -/

/-- math.U256 written with math.PaddedBigBytes: the two's complement of a
number in 256 bits. -/
def U256 (value : Int) : List UInt8 := BigEndian.padded 32 (value % 2 ^ 256).toNat

/-- common.RightPadBytes: zeros appended up to l bytes. -/
def RightPadBytes (slice : List UInt8) (l : Nat) : List UInt8 :=
  if l ≤ slice.length then slice else slice ++ List.replicate (l - slice.length) 0

/-- common.LeftPadBytes: zeros prepended up to l bytes. -/
def LeftPadBytes (slice : List UInt8) (l : Nat) : List UInt8 :=
  if l ≤ slice.length then slice else List.replicate (l - slice.length) 0 ++ slice

/-- packNum: a Go integer or *big.Int in 256 bits. -/
def packNum : Value → Outcome AbiError (List UInt8)
  | .int _ value => .ok (U256 value)
  | _ => .panic

/-- packBytesSlice: the count l, then the bytes padded to a multiple of 32. -/
def packBytesSlice (bytes : List UInt8) (l : Nat) : List UInt8 :=
  U256 l ++ RightPadBytes bytes ((l + 31) / 32 * 32)

/-- packElement: one value of an atomic type. -/
def packElement (t : AbiType) (reflectValue : Value) : Outcome AbiError (List UInt8) :=
  match t, reflectValue with
  | .IntTy _, v | .UintTy _, v => packNum v
  | .StringTy, .string bytes => .ok (packBytesSlice bytes bytes.length)
  | .AddressTy, v => do
    let bytes ← v.Bytes
    pure (LeftPadBytes bytes 32)
  | .BoolTy, .bool b => .ok (BigEndian.padded 32 (if b then 1 else 0))
  | .BytesTy, v => do
    let bytes ← v.Bytes
    pure (packBytesSlice bytes v.Len)
  | .FixedBytesTy _, v => do
    let bytes ← v.Bytes
    pure (RightPadBytes bytes 32)
  | _, _ => .panic

/-- sliceTypeCheck: a slice or array value against a slice or array type. An
array of arrays is checked through its first element, which aborts when there
is none. -/
def sliceTypeCheck : AbiType → Value → Outcome AbiError Unit
  | t, val =>
    if val.Kind ≠ .Slice ∧ val.Kind ≠ .Array then .error .typeErr
    else if t.isArray ∧ val.Len ≠ t.Size then .error .typeErr
    else
      match t with
      | .SliceTy (.SliceTy inner) | .ArrayTy (.SliceTy inner) _ =>
        match val.elements with
        | first :: _ => sliceTypeCheck (.SliceTy inner) first
        | [] => if val.elemKind = some Kind.Slice then .ok () else .error .typeErr
      | .SliceTy (.ArrayTy inner size) | .ArrayTy (.ArrayTy inner size) _ =>
        match val.elements with
        | first :: _ => sliceTypeCheck (.ArrayTy inner size) first
        | [] => .panic
      | .SliceTy elem | .ArrayTy elem _ =>
        if val.elemKind = some elem.Kind then .ok () else .error .typeErr
      | _ => .error .typeErr

/-- typeCheck: a value against its type. -/
def typeCheck (t : AbiType) (value : Value) : Outcome AbiError Unit :=
  match t with
  | .SliceTy _ | .ArrayTy _ _ => sliceTypeCheck t value
  | _ =>
    if t.Kind ≠ value.Kind then .error .typeErr
    else
      match t with
      | .FixedBytesTy size => if size ≠ value.Len then .error .typeErr else .ok ()
      | _ => .ok ()

/-- Type.pack: a value of a slice or array type packed element by element, a
slice behind its element count; any other value by packElement. -/
def AbiType.pack : AbiType → Value → Outcome AbiError (List UInt8)
  | t, v => do
    typeCheck t v
    match t with
    | .SliceTy elem => do
      let packed ← v.elements.mapM elem.pack
      pure (packBytesSlice packed.flatten v.Len)
    | .ArrayTy elem _ => do
      let packed ← v.elements.mapM elem.pack
      pure packed.flatten
    | _ => packElement t v

/-- The head slots an argument takes: Size of them for an array, one otherwise. -/
def headSize (t : AbiType) : Nat := if t.isArray then 32 * t.Size else 32

/-- One argument of the loop of Pack: a value written in its head slot, or its
offset written there and the value appended to the variable part. -/
def packArgument (inputOffset : Nat) (packed : List UInt8 × List UInt8) (input : Argument × Value) :
    Outcome AbiError (List UInt8 × List UInt8) := do
  let (ret, variableInput) := packed
  let bytes ← input.1.abiType.pack input.2
  if input.1.abiType.requiresLengthPrefix then
    let offset := inputOffset + variableInput.length
    pure (ret ++ U256 offset, variableInput ++ bytes)
  else
    pure (ret ++ bytes, variableInput)

/-- Arguments.Pack: the heads, then the variable part. -/
def Pack (arguments : List Argument) (args : List Value) : Outcome AbiError (List UInt8) :=
  if args.length ≠ arguments.length then .error (.argumentCountMismatch args.length arguments.length)
  else do
    let inputOffset := (arguments.map fun abiArg => headSize abiArg.abiType).sum
    let (ret, variableInput) ← (arguments.zip args).foldlM (packArgument inputOffset) ([], [])
    pure (ret ++ variableInput)

/-! ### Unpack -/

/-- Go's int arithmetic: two's complement in 64 bits. -/
def wrapInt (x : Int) : Int := (x + 2 ^ 63) % 2 ^ 64 - 2 ^ 63

/-- output[low:high]: Go aborts unless 0 ≤ low ≤ high ≤ len(output). -/
def sliceBytes (output : List UInt8) (low high : Int) : Outcome AbiError (List UInt8) :=
  if 0 ≤ low ∧ low ≤ high ∧ high ≤ output.length then
    .ok ((output.drop low.toNat).take (high - low).toNat)
  else .panic

/-- int(binary.BigEndian.Uint64(...)) of eight bytes. -/
def readInt (word : List UInt8) : Int := wrapInt (BigEndian.ofBytes word)

/-- The two's complement value of a number of the given width in bits. -/
def toSigned (bits : Nat) (value : Nat) : Int :=
  if value < 2 ^ (bits - 1) then value else (value : Int) - 2 ^ bits

/-- readInteger: the low bytes of a word as a Go integer of the kind, or the
whole word as a *big.Int by SetBytes. -/
def readInteger (kind : Kind) (b : List UInt8) : Int :=
  match kind with
  | .Uint8 => BigEndian.ofBytes (b.drop (b.length - 1))
  | .Uint16 => BigEndian.ofBytes (b.drop (b.length - 2))
  | .Uint32 => BigEndian.ofBytes (b.drop (b.length - 4))
  | .Uint64 => BigEndian.ofBytes (b.drop (b.length - 8))
  | .Int8 => toSigned 8 (BigEndian.ofBytes (b.drop (b.length - 1)))
  | .Int16 => toSigned 16 (BigEndian.ofBytes (b.drop (b.length - 2)))
  | .Int32 => toSigned 32 (BigEndian.ofBytes (b.drop (b.length - 4)))
  | .Int64 => toSigned 64 (BigEndian.ofBytes (b.drop (b.length - 8)))
  | _ => BigEndian.ofBytes b

/-- readBool: zeros, then a last byte of 0 or 1. -/
def readBool (word : List UInt8) : Outcome AbiError Bool :=
  if (word.take 31).any (· ≠ 0) then .error .errBadBool
  else
    match (word[31]? : Option UInt8) with
    | some 0 => .ok false
    | some 1 => .ok true
    | _ => .error .errBadBool

/-- A byte string as a Go byte array or slice of uint8 values. -/
def byteValues (bytes : List UInt8) : List Value := bytes.map fun b => .int .Uint8 b.toNat

/-- lengthPrefixPointsTo: the offset in the word at index, then the length at
the offset; the payload follows the length. -/
def lengthPrefixPointsTo (index : Int) (output : List UInt8) : Outcome AbiError (Int × Int) := do
  let offsetWord ← sliceBytes output (wrapInt (index + 24)) (wrapInt (index + 32))
  let offset := readInt offsetWord
  if wrapInt (offset + 32) > output.length then
    .error (.sliceOverBoundary output.length (wrapInt (offset + 32)))
  else
    let lengthWord ← sliceBytes output (wrapInt (offset + 24)) (wrapInt (offset + 32))
    let length := readInt lengthWord
    if wrapInt (wrapInt (offset + 32) + length) > output.length then
      .error (.lengthInsufficient output.length (wrapInt (wrapInt (offset + 32) + length)))
    else
      pure (wrapInt (offset + 32), length)

/-- forEachUnpack: size elements from start, each read by decodeElem at its
slot; an element that is an array takes Size slots. reflect.MakeSlice aborts on
a count beyond the data, which only a wrapped bound check lets through. -/
def forEachUnpack (t : AbiType) (decodeElem : Int → Outcome AbiError Value) (output : List UInt8)
    (start size : Int) : Outcome AbiError Value := do
  if wrapInt (start + wrapInt (32 * size)) > output.length then
    .error (.arrayOverBoundary output.length (wrapInt (start + wrapInt (32 * size))))
  else
    let slice ← sliceBytes output start (wrapInt (start + wrapInt (size * 32)))
    if (slice.length : Int) ≠ 32 * size then .panic
    else
      match t with
      | .SliceTy elem | .ArrayTy elem _ =>
        let stride : Int := if elem.isArray then elem.Size else 1
        let elements ← (List.range size.toNat).mapM fun j => decodeElem (wrapInt (start + stride * 32 * j))
        pure (if t.isArray then .array elem.Kind elements else .slice elem.Kind elements)
      | _ => .panic

/-- toGoType: the value of a type at index. -/
def toGoType : AbiType → Int → List UInt8 → Outcome AbiError Value
  | t, index, output =>
    if wrapInt (index + 32) > output.length then
      .error (.lengthInsufficient output.length (wrapInt (index + 32)))
    else
      match t with
      | .SliceTy elem => do
        let (begin, length) ← lengthPrefixPointsTo index output
        forEachUnpack t (fun i => toGoType elem i output) output begin length
      | .ArrayTy elem size => do
        let _ ← sliceBytes output index (wrapInt (index + 32))
        forEachUnpack t (fun i => toGoType elem i output) output index size
      | .StringTy => do
        let (begin, length) ← lengthPrefixPointsTo index output
        let bytes ← sliceBytes output begin (wrapInt (begin + length))
        pure (.string bytes)
      | .BytesTy => do
        let (begin, length) ← lengthPrefixPointsTo index output
        let bytes ← sliceBytes output begin (wrapInt (begin + length))
        pure (.slice .Uint8 (byteValues bytes))
      | .IntTy _ | .UintTy _ => do
        let returnOutput ← sliceBytes output index (wrapInt (index + 32))
        pure (.int t.Kind (readInteger t.Kind returnOutput))
      | .BoolTy => do
        let returnOutput ← sliceBytes output index (wrapInt (index + 32))
        let b ← readBool returnOutput
        pure (.bool b)
      | .AddressTy => do
        let returnOutput ← sliceBytes output index (wrapInt (index + 32))
        pure (.array .Uint8 (byteValues (returnOutput.drop (returnOutput.length - 20))))
      | .FixedBytesTy size => do
        let returnOutput ← sliceBytes output index (wrapInt (index + 32))
        let bytes ← sliceBytes returnOutput 0 size
        pure (.array .Uint8 (byteValues bytes))

/-- One argument of the loop of unpackTuple: i counts the arguments that are
not indexed, j the extra slots of the arrays before. -/
def unpackStep (output : List UInt8) (state : Int × Int × List Value) (arg : Argument) :
    Outcome AbiError (Int × Int × List Value) :=
  let (i, j, values) := state
  if arg.Indexed then .ok state
  else do
    let i := i + 1
    let marshalledValue ← toGoType arg.abiType ((i + j) * 32) output
    let j := if arg.abiType.isArray then j + arg.abiType.Size - 1 else j
    pure (i, j, values ++ [marshalledValue])

/-- unpackTuple: the arguments that are not indexed, read from their heads. -/
def unpackTuple (arguments : List Argument) (output : List UInt8) : Outcome AbiError (List Value) := do
  let (_, _, values) ← arguments.foldlM (unpackStep output) (-1, 0, [])
  pure values

/-- unpackAtomic: the one argument, read from the start. -/
def unpackAtomic (arguments : List Argument) (output : List UInt8) : Outcome AbiError (List Value) :=
  match arguments with
  | [] => .panic
  | arg :: _ =>
    if arg.Indexed then .error .indexedElement
    else do
      let marshalledValue ← toGoType arg.abiType 0 output
      pure [marshalledValue]

/-- Arguments.Unpack: the values of the arguments, as set into a matching
output. -/
def Unpack (arguments : List Argument) (data : List UInt8) : Outcome AbiError (List Value) :=
  if arguments.length > 1 then unpackTuple arguments data else unpackAtomic arguments data

/-! ### Words -/

@[simp] theorem length_U256 (value : Int) : (U256 value).length = 32 := by
  simp [U256]

/-- A 256-bit word reads back as the number modulo 2 ^ 256. -/
theorem ofBytes_U256 (value : Int) : (BigEndian.ofBytes (U256 value) : Int) = value % 2 ^ 256 := by
  have inRange : (value % 2 ^ 256).toNat < 256 ^ 32 := by omega
  rw [U256, BigEndian.ofBytes_padded, Nat.mod_eq_of_lt inRange]
  omega

theorem sliceBytes_all (output : List UInt8) : sliceBytes output 0 output.length = .ok output := by
  simp [sliceBytes]

/-- At the start of a 32-byte output toGoType's bound check passes and the
word is the whole output. -/
theorem word_at_start {word : List UInt8} (thirtyTwo : word.length = 32) :
    ¬ (wrapInt (0 + 32) > (word.length : Int)) ∧ sliceBytes word 0 (wrapInt (0 + 32)) = .ok word := by
  have small : wrapInt (0 + 32) = 32 := by decide
  rw [small]
  refine ⟨by rw [thirtyTwo]; decide, by simpa [thirtyTwo] using sliceBytes_all word⟩

/-- An integer type reads the whole of a 32-byte output. -/
theorem toGoType_integer_word {t : AbiType} (integer : ∃ size, t = .IntTy size ∨ t = .UintTy size)
    {word : List UInt8} (thirtyTwo : word.length = 32) :
    toGoType t 0 word = .ok (.int t.Kind (readInteger t.Kind word)) := by
  obtain ⟨fits, whole⟩ := word_at_start thirtyTwo
  obtain ⟨size, rfl | rfl⟩ := integer
  all_goals
    rw [toGoType, if_neg fits, whole]
    rfl

theorem toGoType_bool_word {word : List UInt8} (thirtyTwo : word.length = 32) :
    toGoType .BoolTy 0 word = (do let b ← readBool word; pure (.bool b)) := by
  obtain ⟨fits, whole⟩ := word_at_start thirtyTwo
  rw [toGoType, if_neg fits, whole]
  rfl

/-- A value of an integer type packs to its 256-bit word. -/
theorem pack_integer {t : AbiType} (integer : ∃ size, t = .IntTy size ∨ t = .UintTy size) (value : Int) :
    t.pack (.int t.Kind value) = .ok (U256 value) := by
  obtain ⟨size, rfl | rfl⟩ := integer
  all_goals simp [AbiType.pack, typeCheck, Value.Kind, packElement, packNum]

/-- One argument written in its head slot is all that Pack writes. -/
theorem Pack_single (t : AbiType) (static : t.requiresLengthPrefix = false) (v : Value) :
    Pack [⟨t, false⟩] [v] = t.pack v := by
  simp only [Pack, packArgument, List.length_cons, List.length_nil, ne_eq, not_true_eq_false, if_false,
    List.zip_cons_cons, List.zip_nil_right, List.foldlM_cons, List.foldlM_nil, static]
  cases t.pack v <;> simp

/-- The low k bytes of a 256-bit word are the number modulo 2 ^ (8 * k). -/
theorem ofBytes_drop_U256 (value : Int) {k : Nat} (le : k ≤ 32) :
    (BigEndian.ofBytes ((U256 value).drop (32 - k)) : Int) = value % 2 ^ (8 * k) := by
  have low := BigEndian.drop_padded (32 - k) k (value % 2 ^ 256).toNat
  rw [Nat.sub_add_cancel le] at low
  have divides : (2 : Int) ^ (8 * k) ∣ 2 ^ 256 := pow_dvd_pow 2 (by omega)
  rw [U256, low, BigEndian.ofBytes_padded, Int.natCast_emod, Int.toNat_of_nonneg (by omega),
    show ((256 ^ k : Nat) : Int) = 2 ^ (8 * k) by rw [pow_mul]; norm_num, Int.emod_emod_of_dvd _ divides]

theorem reflectIntKind_wide {unsigned : Bool} {size : Nat} (not8 : size ≠ 8) (not16 : size ≠ 16)
    (not32 : size ≠ 32) (not64 : size ≠ 64) : reflectIntKind unsigned size = .Ptr := by
  unfold reflectIntKind
  split <;> simp_all

/-- The low k bytes of a word give back a value below 2 ^ (8 * k). -/
theorem ofBytes_drop_U256_of_lt {value : Int} {k : Nat} (le : k ≤ 32) (nonneg : 0 ≤ value)
    (below : value < 2 ^ (8 * k)) : (BigEndian.ofBytes ((U256 value).drop (32 - k)) : Int) = value := by
  rw [ofBytes_drop_U256 value le]
  exact Int.emod_eq_of_lt nonneg below

/-- A Go integer kind reads the low size / 8 bytes of a word: as they are when
unsigned, by their two's complement when signed. -/
theorem readInteger_machine (unsigned : Bool) {size : Nat}
    (machine : size = 8 ∨ size = 16 ∨ size = 32 ∨ size = 64) {word : List UInt8} (thirtyTwo : word.length = 32) :
    readInteger (reflectIntKind unsigned size) word =
      if unsigned then (BigEndian.ofBytes (word.drop (32 - size / 8)) : Int)
      else toSigned size (BigEndian.ofBytes (word.drop (32 - size / 8))) := by
  rcases machine with rfl | rfl | rfl | rfl <;> cases unsigned <;> simp [reflectIntKind, readInteger, thirtyTwo]

theorem machine_or_wide (size : Nat) :
    (size = 8 ∨ size = 16 ∨ size = 32 ∨ size = 64) ∨ ∀ unsigned, reflectIntKind unsigned size = .Ptr := by
  by_cases machine : size = 8 ∨ size = 16 ∨ size = 32 ∨ size = 64
  · exact .inl machine
  · refine .inr fun unsigned => reflectIntKind_wide ?_ ?_ ?_ ?_ <;> omega

/-- An unsigned value of at most 256 bits reads back from its word: the Go
kinds from their low bytes, a wider type by SetBytes. -/
theorem readInteger_U256_unsigned {size : Nat} (bits : size ≤ 256) {value : Int} (nonneg : 0 ≤ value)
    (below : value < 2 ^ size) : readInteger (reflectIntKind true size) (U256 value) = value := by
  rcases machine_or_wide size with machine | wide
  · rw [readInteger_machine true machine (length_U256 value), if_pos rfl]
    have bytes : 8 * (size / 8) = size := by omega
    exact ofBytes_drop_U256_of_lt (by omega) nonneg (by rwa [bytes])
  · have fits : value < 2 ^ 256 := lt_of_lt_of_le below (pow_le_pow_right₀ (by norm_num) bits)
    rw [wide true]
    simp only [readInteger, ofBytes_U256]
    omega

/-- The range a signed integer type reads back: that of its Go kind, and the
non-negative values of a wider type, which SetBytes reads as unsigned. -/
def signedRange (size : Nat) (value : Int) : Prop :=
  if reflectIntKind false size = .Ptr then 0 ≤ value ∧ value < 2 ^ 255
  else -2 ^ (size - 1) ≤ value ∧ value < 2 ^ (size - 1)

/-- The two's complement reading of the low bytes: a value in the signed range
of the width comes back. -/
theorem toSigned_of_emod {bits : Nat} (positive : 0 < bits) {value : Int} {low : Nat}
    (reads : (low : Int) = value % 2 ^ bits) (inRange : -2 ^ (bits - 1) ≤ value ∧ value < 2 ^ (bits - 1)) :
    toSigned bits low = value := by
  have double : (2 : Int) ^ bits = 2 * 2 ^ (bits - 1) := by
    rw [← pow_succ']
    congr 1
    omega
  have halfPositive : (0 : Int) < 2 ^ (bits - 1) := by positivity
  -- the low bits are the value when it is not negative, and 2 ^ bits above it otherwise
  have lowValue : (low : Int) = if 0 ≤ value then value else value + 2 ^ bits := by
    rw [reads]
    split
    · exact Int.emod_eq_of_lt (by assumption) (by omega)
    · rw [show value % 2 ^ bits = (value + 2 ^ bits) % 2 ^ bits from (Int.add_emod_right _ _).symm]
      exact Int.emod_eq_of_lt (by omega) (by omega)
  have halfCast : ((2 ^ (bits - 1) : Nat) : Int) = 2 ^ (bits - 1) := by push_cast; rfl
  unfold toSigned
  split
  · rename_i small
    have : (low : Int) < 2 ^ (bits - 1) := by rw [← halfCast]; exact_mod_cast small
    split at lowValue <;> omega
  · rename_i large
    have : (2 : Int) ^ (bits - 1) ≤ low := by rw [← halfCast]; exact_mod_cast Nat.le_of_not_lt large
    split at lowValue <;> omega

/-- A signed value in its range reads back from its word: the Go kinds by
their two's complement, a wider type by SetBytes. -/
theorem readInteger_U256_signed {size : Nat} {value : Int} (inRange : signedRange size value) :
    readInteger (reflectIntKind false size) (U256 value) = value := by
  unfold signedRange at inRange
  rcases machine_or_wide size with machine | wide
  · have goKind : reflectIntKind false size ≠ .Ptr := by
      rcases machine with rfl | rfl | rfl | rfl <;> decide
    rw [if_neg goKind] at inRange
    rw [readInteger_machine false machine (length_U256 value), if_neg Bool.false_ne_true]
    have bytes : 8 * (size / 8) = size := by omega
    exact toSigned_of_emod (by omega) (by rw [ofBytes_drop_U256 value (by omega), bytes]) inRange
  · rw [if_pos (wide false)] at inRange
    rw [wide false]
    simp only [readInteger, ofBytes_U256]
    omega

theorem Unpack_single (t : AbiType) (data : List UInt8) :
    Unpack [⟨t, false⟩] data = (do let value ← toGoType t 0 data; pure [value]) := by
  simp [Unpack, unpackAtomic]

/-! ### What Unpack gets back -/


/-- A negative value of a signed integer type wider than 64 bits comes back
as its two's complement, 2 ^ 256 above it: readInteger reads the word with
SetBytes, as unsigned. And an offset word whose int value is negative passes
lengthPrefixPointsTo's bound check, so that reading the length slices before
the data and aborts. -/
theorem Unpack_Pack_wide_signed (size : Nat) (wide : reflectIntKind false size = .Ptr) (value : Int)
    (negative : value < 0) (inRange : -2 ^ 255 ≤ value) :
    Pack [⟨.IntTy size, false⟩] [.int .Ptr value] = .ok (U256 value) ∧
      Unpack [⟨.IntTy size, false⟩] (U256 value) = .ok [.int .Ptr (value + 2 ^ 256)] ∧
      Unpack [⟨.BytesTy, false⟩] (List.replicate 24 0 ++ [255, 255, 255, 255, 255, 255, 255, 224]) =
        .panic := by
  have packed : Pack [⟨.IntTy size, false⟩] [.int .Ptr value] = .ok (U256 value) := by
    rw [Pack_single _ rfl, ← wide]
    exact pack_integer ⟨size, .inl rfl⟩ value
  have unsigned : Unpack [⟨.IntTy size, false⟩] (U256 value) = .ok [.int .Ptr (value + 2 ^ 256)] := by
    have twosComplement : value % 2 ^ 256 = value + 2 ^ 256 := by omega
    rw [Unpack_single, toGoType_integer_word ⟨size, .inl rfl⟩ (length_U256 value)]
    simp only [AbiType.Kind, wide, readInteger, ofBytes_U256, twosComplement]
    rfl
  -- the offset word 0xffffffffffffffe0 is int -32, and the length is read from output[-8:0]
  have aborts : Unpack [⟨.BytesTy, false⟩]
      (List.replicate 24 0 ++ [255, 255, 255, 255, 255, 255, 255, 224]) = .panic := by
    have fits : ¬ (wrapInt (0 + 32) > ((List.replicate 24 (0 : UInt8) ++
        [255, 255, 255, 255, 255, 255, 255, 224]).length : Int)) := by decide
    have negativeOffset : lengthPrefixPointsTo 0
        (List.replicate 24 0 ++ [255, 255, 255, 255, 255, 255, 255, 224]) = .panic := by decide
    rw [Unpack_single, toGoType, if_neg fits]
    simp only [negativeOffset]
    rfl
  exact ⟨packed, unsigned, aborts⟩

/-- int256 -1 packs to thirty-two 0xff bytes and comes back as 2 ^ 256 - 1. -/
theorem Unpack_Pack_wide_signed_minus_one :
    reflectIntKind false 256 = .Ptr ∧ (-1 : Int) < 0 ∧ -2 ^ 255 ≤ (-1 : Int) ∧
      (Pack [⟨.IntTy 256, false⟩] [.int .Ptr (-1)] = .ok (U256 (-1)) ∧
        Unpack [⟨.IntTy 256, false⟩] (U256 (-1)) = .ok [.int .Ptr (-1 + 2 ^ 256)] ∧
        Unpack [⟨.BytesTy, false⟩] (List.replicate 24 0 ++ [255, 255, 255, 255, 255, 255, 255, 224]) =
          .panic) :=
  ⟨rfl, by decide, by decide, Unpack_Pack_wide_signed 256 rfl (-1) (by decide) (by decide)⟩

/-- The integer and boolean values one head slot holds and gives back: an
unsigned value of at most 256 bits, a signed value in signedRange, a boolean;
each with the Go kind NewType gives its type. -/
def WordValue : AbiType → Value → Prop
  | .UintTy size, .int kind value => kind = reflectIntKind true size ∧ size ≤ 256 ∧ 0 ≤ value ∧ value < 2 ^ size
  | .IntTy size, .int kind value => kind = reflectIntKind false size ∧ signedRange size value
  | .BoolTy, .bool _ => True
  | _, _ => False

theorem readBool_padded (b : Bool) : readBool (BigEndian.padded 32 (if b then 1 else 0)) = .ok b := by
  cases b <;> decide

theorem Unpack_Pack_word (t : AbiType) (v : Value) (holds : WordValue t v) :
    ∃ word, Pack [⟨t, false⟩] [v] = .ok word ∧ Unpack [⟨t, false⟩] word = .ok [v] := by
  cases t <;> cases v <;> simp only [WordValue] at holds
  case UintTy.int size kind value =>
    obtain ⟨rfl, bits, nonneg, below⟩ := holds
    refine ⟨U256 value, ?_, ?_⟩
    · rw [Pack_single _ rfl]
      exact pack_integer ⟨size, .inr rfl⟩ value
    · rw [Unpack_single, toGoType_integer_word ⟨size, .inr rfl⟩ (length_U256 value)]
      simp only [AbiType.Kind, readInteger_U256_unsigned bits nonneg below]
      rfl
  case IntTy.int size kind value =>
    obtain ⟨rfl, inRange⟩ := holds
    refine ⟨U256 value, ?_, ?_⟩
    · rw [Pack_single _ rfl]
      exact pack_integer ⟨size, .inl rfl⟩ value
    · rw [Unpack_single, toGoType_integer_word ⟨size, .inl rfl⟩ (length_U256 value)]
      simp only [AbiType.Kind, readInteger_U256_signed inRange]
      rfl
  case BoolTy.bool b =>
    refine ⟨BigEndian.padded 32 (if b then 1 else 0), ?_, ?_⟩
    · rw [Pack_single _ rfl]
      simp [AbiType.pack, typeCheck, AbiType.Kind, Value.Kind, packElement]
    · rw [Unpack_single, toGoType_bool_word (by simp), readBool_padded]
      rfl

/-- int8 -5 goes through one head slot and back. -/
theorem Unpack_Pack_word_int8 :
    WordValue (.IntTy 8) (.int .Int8 (-5)) ∧
      ∃ word, Pack [⟨.IntTy 8, false⟩] [.int .Int8 (-5)] = .ok word ∧
        Unpack [⟨.IntTy 8, false⟩] word = .ok [.int .Int8 (-5)] := by
  have holds : WordValue (.IntTy 8) (.int .Int8 (-5)) := ⟨rfl, by unfold signedRange; decide⟩
  exact ⟨holds, Unpack_Pack_word _ _ holds⟩

end Meshbox.Abi
