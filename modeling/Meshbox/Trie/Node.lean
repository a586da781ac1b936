/-
This file models the node types of trie/node.go and their decoder. A node is a
full node of seventeen children (sixteen nibbles and a value slot), a short node
of a HEX key and one child, a hash reference to a node stored elsewhere, or a
value. Full and short nodes carry cache flags: the node's hash when it is known,
the cache generation it was loaded or created in, and whether it has changes
that are not yet written to the database.

decodeNode parses the RLP encoding of a node. The recursion goes through
embedded children (decodeRef), so it runs on ever shorter suffixes of the
input: the four functions are one well-founded mutual recursion on the length
of the buffer, ordered within one length by which function calls which.
-/

import Meshbox.Library.Outcome
import Meshbox.Rlp.Raw
import Meshbox.Trie.Encoding
import Mathlib

namespace Meshbox.Trie

open Meshbox.Rlp

/-- nodeFlag: the cached hash of the node (none for nil), its cache generation,
and whether it has changes that must be written to the database. -/
structure nodeFlag where
  hash : Option (List UInt8)
  gen : UInt16
  dirty : Bool
deriving DecidableEq, Repr

/-- A trie node. nil is the empty interface value; a full node's children are
indexed by the nibbles and, at 16, the value slot. -/
inductive Node where
  | nil
  | fullNode (Children : Fin 17 → Node) (flags : nodeFlag)
  | shortNode (Key : List UInt8) (Val : Node) (flags : nodeFlag)
  | hashNode (hash : List UInt8)
  | valueNode (value : List UInt8)

/-- The length of a node hash. -/
def hashLen : Nat := 32

/-! ### Decoding errors -/

/-- The errors decodeNode produces before any context is added. -/
inductive DecodeCause where
  /-- io.ErrUnexpectedEOF on an empty buffer. -/
  | unexpectedEOF
  /-- "decode error: %v" when the input is not a list. -/
  | decodeError (err : Rlp.Error)
  /-- An RLP error passed through unchanged. -/
  | rlp (err : Rlp.Error)
  /-- "invalid number of list elements: %v". -/
  | invalidElementCount (count : Nat)
  /-- "invalid value node: %v". -/
  | invalidValueNode (err : Rlp.Error)
  /-- "oversized embedded node (size is %d bytes, want size < %d)". -/
  | oversizedEmbedded (size : Nat)
  /-- "invalid RLP string size %d (want 0 or 32)". -/
  | invalidStringSize (size : Nat)
deriving DecidableEq, Repr

/-- An error of decodeNode: a plain error, or a decodeError that records the
path to the invalid child, innermost context first. -/
inductive NodeError where
  | plain (cause : DecodeCause)
  | decodeError (what : DecodeCause) (stack : List String)
deriving DecidableEq, Repr

/-- wrapError: appends a context to the path of a decodeError, or starts one. -/
def wrapError (err : NodeError) (ctx : String) : NodeError :=
  match err with
  | .plain cause => .decodeError cause [ctx]
  | .decodeError what stack => .decodeError what (stack ++ [ctx])

/-- The errors an RLP split returns, unchanged. -/
def liftRlp {α : Type} : Except Rlp.Error α → Outcome NodeError α
  | .ok value => .ok value
  | .error err => .error (.plain (.rlp err))

/-! ### The decoder -/

/-- The body of decodeRef, with the decoder of an embedded node passed in: one
child reference is an embedded node (a list no longer than a hash), the empty
node (an empty string) or a hash (a 32-byte string). The embedded decoder is
only ever run on buf itself. -/
def decodeRefWith (buf : List UInt8)
    (decodeEmbedded : (b : List UInt8) → b.length ≤ buf.length → Outcome NodeError Node) :
    Outcome NodeError (Node × List UInt8) :=
  match Split buf with
  | .error err => .error (.plain (.rlp err))
  | .ok (kind, val, rest) =>
    if kind = .List then
      -- 'embedded' node reference. The encoding must be smaller than a hash.
      let size := buf.length - rest.length
      if size > hashLen then .error (.plain (.oversizedEmbedded size))
      else
        match decodeEmbedded buf (Nat.le_refl _) with
        | .ok n => .ok (n, rest)
        | .error err => .error err
        | .panic => .panic
    else if kind = .String ∧ val.length = 0 then .ok (.nil, rest)
    else if kind = .String ∧ val.length = 32 then .ok (.hashNode val, rest)
    else .error (.plain (.invalidStringSize val.length))

/-- A decoded reference is taken off the front: what follows it is shorter. -/
theorem decodeRefWith_rest_length {buf : List UInt8}
    {decodeEmbedded : (b : List UInt8) → b.length ≤ buf.length → Outcome NodeError Node}
    {child : Node} {rest : List UInt8}
    (decoded : decodeRefWith buf decodeEmbedded = .ok (child, rest)) :
    rest.length < buf.length := by
  unfold decodeRefWith at decoded
  cases split : Split buf with
  | error err => rw [split] at decoded; cases decoded
  | ok result =>
    obtain ⟨kind, val, rest'⟩ := result
    rw [split] at decoded
    have shorter := Split_rest_length split
    simp only at decoded
    split at decoded
    · split at decoded
      · cases decoded
      · split at decoded
        · cases decoded
          exact shorter
        · cases decoded
        · cases decoded
    · split at decoded
      · cases decoded
        exact shorter
      · split at decoded
        · cases decoded
          exact shorter
        · cases decoded

set_option linter.unusedVariables false in
mutual

/-- decodeNode: parses the RLP encoding of a trie node; hash is the key it was
stored under, nil for an embedded node. The count of list elements chooses
between a short node (two) and a full node (seventeen); a failed count reads
as zero. -/
def decodeNode (hash : Option (List UInt8)) (buf : List UInt8) (cachegen : UInt16) :
    Outcome NodeError Node :=
  match buf with
  | [] => .error (.plain .unexpectedEOF)
  | first :: tail =>
    match split : SplitList (first :: tail) with
    | .error err => .error (.plain (.decodeError err))
    | .ok (elems, _) =>
      match (CountValues elems).toOption.getD 0 with
      | 2 => (decodeShort hash elems cachegen).mapError (wrapError · "short")
      | 17 => (decodeFull hash elems cachegen).mapError (wrapError · "full")
      | count => .error (.plain (.invalidElementCount count))
termination_by (buf.length, 0)
decreasing_by
  all_goals
    have shorter := SplitList_content_length split
    exact Prod.Lex.left _ _ shorter

/-- decodeShort: a short node from its two list elements. A key with the
terminator leads to a value, any other key to a child reference. -/
def decodeShort (hash : Option (List UInt8)) (elems : List UInt8) (cachegen : UInt16) :
    Outcome NodeError Node :=
  match split : SplitString elems with
  | .error err => .error (.plain (.rlp err))
  | .ok (kbuf, rest) =>
    let flag : nodeFlag := { hash := hash, gen := cachegen, dirty := false }
    match compactToHex kbuf with
    | none => .panic
    | some key =>
      if hasTerm key then
        -- value node
        match SplitString rest with
        | .error err => .error (.plain (.invalidValueNode err))
        | .ok (val, _) => .ok (.shortNode key (.valueNode val) flag)
      else
        match decodeRefWith rest (fun b _ => decodeNode none b cachegen) with
        | .ok (r, _) => .ok (.shortNode key r flag)
        | .error err => .error (wrapError err "val")
        | .panic => .panic
termination_by (elems.length, 1)
decreasing_by
  have shorter := SplitString_rest_length split
  exact Prod.Lex.left _ _ (by omega)

/-- decodeFull: a full node from its seventeen list elements: sixteen child
references and the value slot, nil when the value is empty. -/
def decodeFull (hash : Option (List UInt8)) (elems : List UInt8) (cachegen : UInt16) :
    Outcome NodeError Node :=
  match decodeChildren elems cachegen 0 with
  | .ok (children, rest) =>
    match SplitString rest with
    | .error err => .error (.plain (.rlp err))
    | .ok (val, _) =>
      let valueSlot : Node := if val.length > 0 then .valueNode val else .nil
      .ok (.fullNode (fun index => if index.val < 16 then children.getD index.val .nil
        else valueSlot) { hash := hash, gen := cachegen, dirty := false })
  | .error err => .error err
  | .panic => .panic
termination_by (elems.length, 2)
decreasing_by
  exact Prod.Lex.right _ (by decide)

/-- The loop of decodeFull from child i on: the references decoded in order and
the bytes after them. A failing child's error records its index. -/
def decodeChildren (elems : List UInt8) (cachegen : UInt16) (i : Nat) :
    Outcome NodeError (List Node × List UInt8) :=
  if i < 16 then
    match decoded : decodeRefWith elems (fun b _ => decodeNode none b cachegen) with
    | .ok (cld, rest) =>
      match decodeChildren rest cachegen (i + 1) with
      | .ok (children, final) => .ok (cld :: children, final)
      | .error err => .error err
      | .panic => .panic
    | .error err => .error (wrapError err ("[" ++ toString i ++ "]"))
    | .panic => .panic
  else .ok ([], elems)
termination_by (elems.length, 1)
decreasing_by
  all_goals first
    | exact Prod.Lex.left _ _ (decodeRefWith_rest_length decoded)
    | rename_i bounded
      rcases Nat.lt_or_eq_of_le bounded with shorter | same
      · exact Prod.Lex.left _ _ shorter
      · rw [same]
        exact Prod.Lex.right _ (by decide)

end

/-- decodeRef: one child reference, decoding an embedded node with decodeNode. -/
def decodeRef (buf : List UInt8) (cachegen : UInt16) : Outcome NodeError (Node × List UInt8) :=
  decodeRefWith buf (fun b _ => decodeNode none b cachegen)

/-! ### Unfolding the decoder -/

theorem decodeNode_of_split {hash : Option (List UInt8)} {buf elems after : List UInt8}
    {cachegen : UInt16} (split : SplitList buf = .ok (elems, after)) :
    decodeNode hash buf cachegen =
      match (CountValues elems).toOption.getD 0 with
      | 2 => (decodeShort hash elems cachegen).mapError (wrapError · "short")
      | 17 => (decodeFull hash elems cachegen).mapError (wrapError · "full")
      | count => .error (.plain (.invalidElementCount count)) := by
  cases buf with
  | nil => simp [SplitList, Split, readKind] at split
  | cons first tail =>
    rw [decodeNode]
    split
    · rename_i err failed
      rw [split] at failed
      cases failed
    · rename_i elems' after' splitEq
      rw [split] at splitEq
      cases splitEq
      rfl

/-- The empty string opens every encoding whose first byte is 0x80. -/
theorem SplitString_empty (rest : List UInt8) : SplitString (0x80 :: rest) = .ok ([], rest) := by
  have header : readHeader 0x80 rest = .ok (.String, 1, 0) := by
    simp [readHeader]
  simp [SplitString, Split, readKind, header]

/-- A short node whose key is the empty string makes decodeShort panic: the key
goes to compactToHex unchecked. -/
theorem decodeShort_empty_key (hash : Option (List UInt8)) (rest : List UInt8)
    (cachegen : UInt16) : decodeShort hash (0x80 :: rest) cachegen = .panic := by
  rw [decodeShort]
  split
  · rename_i err failed
    rw [SplitString_empty] at failed
    cases failed
  · rename_i kbuf rest' splitEq
    rw [SplitString_empty] at splitEq
    simp only [Except.ok.injEq, Prod.mk.injEq] at splitEq
    obtain ⟨rfl, rfl⟩ := splitEq
    simp [compactToHex, keybytesToHex]

/-- Every two-element node encoding whose key element is the empty string makes
decodeNode panic, whatever the second element, the hash and the generation. -/
theorem decodeNode_empty_key_panics {hash : Option (List UInt8)} {buf rest after : List UInt8}
    (cachegen : UInt16) (split : SplitList buf = .ok (0x80 :: rest, after))
    (count : CountValues (0x80 :: rest) = .ok 2) : decodeNode hash buf cachegen = .panic := by
  rw [decodeNode_of_split split, count]
  show Outcome.mapError _ (decodeShort hash (0x80 :: rest) cachegen) = .panic
  rw [decodeShort_empty_key]
  rfl

/-! ### The node shapes a trie sync decodes -/

/-- An empty blob, what AddSubTrie reads for a hash the database lacks, does not
decode. -/
theorem decodeNode_nil (hash : Option (List UInt8)) (cachegen : UInt16) :
    decodeNode hash [] cachegen = .error (.plain .unexpectedEOF) := by
  rw [decodeNode]

section ShortNodes

variable {flag : UInt8} {key child : List UInt8}

theorem SplitList_short_hash (hashLength : child.length = 32) :
    SplitList ([0xe2, flag, 0xa0] ++ child) = .ok (flag :: 0xa0 :: child, []) := by
  simp [SplitList, Split, readKind, readHeader, hashLength]

theorem CountValues_short_hash (byte : flag < 0x80) (hashLength : child.length = 32) :
    CountValues (flag :: 0xa0 :: child) = .ok 2 := by
  have first : readKind (flag :: 0xa0 :: child) = .ok (.Byte, 0, 1) := by
    simp [readKind, readHeader, byte]
  have second : readKind (0xa0 :: child) = .ok (.String, 1, 32) := by
    simp [readKind, readHeader, hashLength]
  rw [CountValues_of_readKind first]
  simp only [Nat.zero_add, List.drop_one, List.tail_cons]
  rw [CountValues_of_readKind second]
  simp [List.drop_eq_nil_of_le, hashLength, CountValues]
  rfl

/-- A short node of a one-byte compact key without the terminator and a hash
reference decodes to the key and the hash. -/
theorem decodeNode_short_hash (wantHash : Option (List UInt8)) (cachegen : UInt16)
    (byte : flag < 0x80) (compact : compactToHex [flag] = some key)
    (extension : hasTerm key = false) (hashLength : child.length = 32) :
    decodeNode wantHash ([0xe2, flag, 0xa0] ++ child) cachegen =
      .ok (.shortNode key (.hashNode child) { hash := wantHash, gen := cachegen, dirty := false }) := by
  have keyBytes : SplitString (flag :: 0xa0 :: child) = .ok ([flag], 0xa0 :: child) := by
    simp [SplitString, Split, readKind, readHeader, byte]
  have ref : Split (0xa0 :: child) = .ok (.String, child, []) := by
    simp [Split, readKind, readHeader, hashLength, List.drop_eq_nil_of_le]
  rw [decodeNode_of_split (SplitList_short_hash hashLength), CountValues_short_hash byte hashLength]
  show Outcome.mapError _ (decodeShort wantHash _ cachegen) = _
  rw [decodeShort]
  split
  · rename_i err failed
    rw [keyBytes] at failed
    cases failed
  · rename_i kbuf rest splitEq
    rw [keyBytes] at splitEq
    cases splitEq
    simp [compact, extension, decodeRefWith, ref, hashLength]

section LongLeaf

variable {value : List UInt8} {len : UInt8}

theorem readKind_long_string (size : len.toNat = value.length) (long : 56 ≤ value.length) :
    readKind (0xb8 :: len :: value) = .ok (.String, 2, value.length) := by
  have nonzero : len ≠ 0 := by
    rintro rfl
    simp at size
    omega
  have canonical : ¬ value.length < 56 := by omega
  simp [readKind, readHeader, readSize, BigEndian.ofBytes, size, nonzero, canonical, Except.map]

variable {flag outer : UInt8} {key : List UInt8}

theorem SplitList_long_leaf (outerSize : outer.toNat = value.length + 3)
    (long : 56 ≤ value.length) :
    SplitList ([0xf8, outer, flag, 0xb8, len] ++ value) = .ok (flag :: 0xb8 :: len :: value, []) := by
  have nonzero : outer ≠ 0 := by
    rintro rfl
    simp at outerSize
  have canonical : ¬ value.length + 3 < 56 := by omega
  simp [SplitList, Split, readKind, readHeader, readSize, BigEndian.ofBytes, outerSize, nonzero,
    canonical, Except.map]
  omega

theorem CountValues_long_leaf (byte : flag < 0x80) (size : len.toNat = value.length)
    (long : 56 ≤ value.length) :
    CountValues (flag :: 0xb8 :: len :: value) = .ok 2 := by
  have first : readKind (flag :: 0xb8 :: len :: value) = .ok (.Byte, 0, 1) := by
    simp [readKind, readHeader, byte]
  rw [CountValues_of_readKind first]
  simp only [Nat.zero_add, List.drop_one, List.tail_cons]
  rw [CountValues_of_readKind (readKind_long_string size long)]
  have used : (0xb8 :: len :: value).drop (2 + value.length) = [] :=
    List.drop_eq_nil_of_le (by simp; omega)
  rw [used, CountValues]
  rfl

/-- A short node of a one-byte compact key with the terminator and a value of
56 bytes or more decodes to the key and the value. -/
theorem decodeNode_long_leaf (wantHash : Option (List UInt8)) (cachegen : UInt16)
    (byte : flag < 0x80) (compact : compactToHex [flag] = some key) (leaf : hasTerm key = true)
    (outerSize : outer.toNat = value.length + 3) (size : len.toNat = value.length)
    (long : 56 ≤ value.length) :
    decodeNode wantHash ([0xf8, outer, flag, 0xb8, len] ++ value) cachegen =
      .ok (.shortNode key (.valueNode value) { hash := wantHash, gen := cachegen, dirty := false }) := by
  have keyBytes : SplitString (flag :: 0xb8 :: len :: value) = .ok ([flag], 0xb8 :: len :: value) := by
    simp [SplitString, Split, readKind, readHeader, byte]
  have valueBytes : SplitString (0xb8 :: len :: value) = .ok (value, []) := by
    simp [SplitString, Split, readKind_long_string size long]
    omega
  rw [decodeNode_of_split (SplitList_long_leaf outerSize long), CountValues_long_leaf byte size long]
  show Outcome.mapError _ (decodeShort wantHash _ cachegen) = _
  rw [decodeShort]
  split
  · rename_i err failed
    rw [keyBytes] at failed
    cases failed
  · rename_i kbuf rest splitEq
    rw [keyBytes] at splitEq
    cases splitEq
    simp [compact, leaf, valueBytes]

end LongLeaf

end ShortNodes

end Meshbox.Trie
