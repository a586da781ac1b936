/-
This file models the typed decoders of rlp/decode.go that a struct of unsigned
integers, big integers, byte arrays and byte slices goes through, as Decode
fills in a state.Account. Each decoder reads from a Stream and returns its value
or an error with the stream it leaves; together they run in EStateM over the
stream. The errors with a fixed text become decodeErrors that name the Go type
being decoded and, from the struct decoder, the field they were found in.
-/

import Mathlib
import Meshbox.Rlp.Stream

namespace Meshbox.Rlp

/-- The errors of the typed decoders: a stream error passed through, ErrCanonInt
and errUintOverflow, and a decodeError with its text, the Go type it names and
its context, innermost first. -/
inductive DecodeError where
  | stream (err : StreamError)
  | ErrCanonInt
  | errUintOverflow
  | decodeError (msg : String) (typ : String) (ctx : List String)
deriving DecidableEq, Repr

/-- A typed decoder over the stream. -/
abbrev Decoder (α : Type) := EStateM DecodeError Stream α

/-- wrapStreamError: the errors with a fixed text become decodeErrors naming typ;
any other passes through. -/
def wrapStreamError (err : DecodeError) (typ : String) : DecodeError :=
  match err with
  | .ErrCanonInt => .decodeError "non-canonical integer (leading zero bytes)" typ []
  | .stream .ErrCanonSize => .decodeError "non-canonical size information" typ []
  | .stream .ErrExpectedList => .decodeError "expected input list" typ []
  | .stream .ErrExpectedString => .decodeError "expected input string or byte" typ []
  | .errUintOverflow => .decodeError "input string too long" typ []
  | .stream .errNotAtEOL => .decodeError "input list has too many elements" typ []
  | err => err

/-- addErrorContext: ctx appended to the context of a decodeError. -/
def addErrorContext (err : DecodeError) (ctx : String) : DecodeError :=
  match err with
  | .decodeError msg typ stack => .decodeError msg typ (stack ++ [ctx])
  | err => err

/-- A stream operation as a decoder, its error wrapped for typ. -/
def wrapped {α : Type} (op : Stream → Result α) (typ : String) : Decoder α := fun s =>
  match op s with
  | .ok value s => .ok value s
  | .error err s => .error (wrapStreamError (.stream err) typ) s

namespace Stream

/-- uint: an unsigned integer of at most maxbits bits, in canonical form: no
leading zero byte, and a value below 128 only as a single byte. -/
def uint (maxbits : Nat) : Decoder Nat := fun s =>
  match s.Kind with
  | .error err s => .error (.stream err) s
  | .ok (kind, size) s =>
    match kind with
    | .Byte =>
      if s.byteval = 0 then .error .ErrCanonInt s else .ok s.byteval.toNat { s with kind := none }
    | .String =>
      if size > maxbits / 8 then .error .errUintOverflow s
      else
        match s.readUint size with
        -- Adjust error because we're not reading a size right now.
        | .error .ErrCanonSize s => .error .ErrCanonInt s
        | .error err s => .error (.stream err) s
        | .ok v s => if size > 0 ∧ v < 128 then .error (.stream .ErrCanonSize) s else .ok v s
    | .List => .error (.stream .ErrExpectedString) s

end Stream

/-- decodeUint: an unsigned integer of the given width. -/
def decodeUint (typ : String) (bits : Nat) : Decoder Nat := fun s =>
  match Stream.uint bits s with
  | .error err s => .error (wrapStreamError err typ) s
  | .ok num s => .ok num s

/-- decodeBigInt: a big integer from the bytes of a string, which must not start
with a zero byte. -/
def decodeBigInt (typ : String) : Decoder Nat := fun s =>
  match wrapped Stream.Bytes typ s with
  | .error err s => .error err s
  | .ok b s =>
    if b.head? = some 0 then .error (wrapStreamError .ErrCanonInt typ) s
    else .ok (BigEndian.ofBytes b) s

/-- decodeByteArray: a byte array of length vlen from a string of exactly that
length, or from a single byte when vlen is one. -/
def decodeByteArray (typ : String) (vlen : Nat) : Decoder (List UInt8) := fun s =>
  match s.Kind with
  | .error err s => .error (.stream err) s
  | .ok (kind, size) s =>
    match kind with
    | .Byte =>
      if vlen = 0 then .error (.decodeError "input string too long" typ []) s
      else if vlen > 1 then .error (.decodeError "input string too short" typ []) s
      else
        -- the error of Uint is dropped, and the value is then zero
        match Stream.uint 64 s with
        | .ok bv s => .ok [UInt8.ofNat bv] s
        | .error _ s => .ok [0] s
    | .String =>
      if vlen < size then .error (.decodeError "input string too long" typ []) s
      else if vlen > size then .error (.decodeError "input string too short" typ []) s
      else
        match s.readFull vlen with
        | .error err s => .error (.stream err) s
        | .ok slice s =>
          -- Reject cases where single byte encoding should have been used.
          if size = 1 ∧ slice.head?.any (· < 128) then
            .error (wrapStreamError (.stream .ErrCanonSize) typ) s
          else .ok slice s
    | .List => .error (wrapStreamError (.stream .ErrExpectedString) typ) s

/-- decodeByteSlice: the bytes of a string. -/
def decodeByteSlice (typ : String) : Decoder (List UInt8) :=
  wrapped Stream.Bytes typ

/-- One field of a struct decoder: EOL means the list has too few elements for
the struct typ, and any other error records the field's name. -/
def structField {α : Type} (typ name : String) (dec : Decoder α) : Decoder α := fun s =>
  match dec s with
  | .error (.stream .EOL) s => .error (.decodeError "too few elements" typ []) s
  | .error err s => .error (addErrorContext err ("." ++ name)) s
  | .ok value s => .ok value s

end Meshbox.Rlp
