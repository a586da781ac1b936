/-
This file models the proof walker of trie/proof.go. VerifyProof starts at the
root hash and, turn after turn, looks the wanted hash up in the proof database,
decodes the node stored there and walks it along the rest of the key with get,
until get ends at a value, at nothing, or at a hash naming the next node. The
loop has no bound and the proof database is the peer's: a node that sends the
walk back to a hash already visited makes it run forever, and a node that
decodeNode cannot handle makes it panic.

get itself is safe on every node decodeNode produces, when it is given a HEX key
with its terminator: such keys stay non-empty down to every full node, and the
value slot of a decoded full node is never a node to descend into.
-/

import Meshbox.Library.Loop
import Meshbox.Common.Types
import Meshbox.Trie.Node
import Meshbox.Trie.Hasher

namespace Meshbox.Trie

open Meshbox.Rlp

set_option linter.dupNamespace false

/-- get: walks tn along key to where the walk leaves the node: the rest of the
key and the hash node reached, nil, or the value. A key that is not there gives
nil. A full node indexes the key's first nibble; an empty key or an index past
the seventeen children panics, returned here as none. -/
def get (tn : Node) (key : List UInt8) : Option (List UInt8 × Node) :=
  match tn with
  | .shortNode nKey val _ =>
    if key.length < nKey.length ∨ nKey ≠ key.take nKey.length then some ([], .nil)
    else get val (key.drop nKey.length)
  | .fullNode children _ =>
    match key with
    | [] => none
    | index :: rest =>
      if bounded : index.toNat < 17 then get (children ⟨index.toNat, bounded⟩) rest else none
  | .hashNode _ => some (key, tn)
  | .nil => some (key, .nil)
  | .valueNode _ => some ([], tn)

/-- The errors of VerifyProof, with the index of the proof node they concern:
"proof node %d (hash %064x) missing" and "bad proof node %d: %v". -/
inductive ProofError where
  | missing (index : Nat) (hash : List UInt8)
  | badNode (index : Nat) (err : NodeError)
deriving DecidableEq, Repr

/-- The variables of VerifyProof's loop: the loop index, the rest of the HEX
key and the hash of the node to fetch next. -/
structure ProofState where
  index : Nat
  key : List UInt8
  wantHash : List UInt8
deriving DecidableEq, Repr

/-- One turn of VerifyProof's loop. It returns the value (none for nil) and the
number of proof nodes used, or continues at the hash get reached. A node of
another kind matches no case of the type switch, and the loop goes round again
with the same key and hash. -/
def verifyStep (proofDb : List UInt8 → Option (List UInt8)) (state : ProofState) :
    Outcome ProofError ((Option (List UInt8) × Nat) ⊕ ProofState) :=
  match proofDb state.wantHash with
  | none => .error (.missing state.index state.wantHash)
  | some buf =>
    match decodeNode (some state.wantHash) buf 0 with
    | .error err => .error (.badNode state.index err)
    | .panic => .panic
    | .ok n =>
      match get n state.key with
      | none => .panic
      | some (_, .nil) => .ok (.inl (none, state.index))
      | some (keyrest, .hashNode cld) =>
        .ok (.inr { index := state.index + 1, key := keyrest, wantHash := cld })
      | some (_, .valueNode cld) => .ok (.inl (some cld, state.index + 1))
      | some _ => .ok (.inr { state with index := state.index + 1 })

/-- VerifyProof: checks a merkle proof for key against rootHash, running the
loop for at most fuel turns (none when they run out). It gives the value at key
(none when the trie does not hold key) and the number of proof nodes used. -/
def VerifyProof (fuel : Nat) (rootHash : Hash) (key : List UInt8)
    (proofDb : List UInt8 → Option (List UInt8)) :
    Option (Outcome ProofError (Option (List UInt8) × Nat)) :=
  Loop.run (verifyStep proofDb) fuel { index := 0, key := keybytesToHex key, wantHash := rootHash.toList }

/-! ### Proof databases that break the walk -/

/-- A proof database holding one node, buf, under the hash root. -/
def singleNodeDb (root : List UInt8) (buf : List UInt8) : List UInt8 → Option (List UInt8) :=
  fun hash => if hash = root then some buf else none

/-- The short node of an empty compact key and an empty value. -/
theorem SplitList_empty_key : SplitList [0xc2, 0x80, 0x80] = .ok ([0x80, 0x80], []) := by
  decide

theorem CountValues_empty_key : CountValues [0x80, 0x80] = .ok 2 := by
  have header : readKind [0x80, 0x80] = .ok (.String, 1, 0) := by decide
  have second : readKind [0x80] = .ok (.String, 1, 0) := by decide
  rw [CountValues_of_readKind header]
  simp only [Nat.add_zero, List.drop_one, List.tail_cons]
  rw [CountValues_of_readKind second]
  simp only [Nat.add_zero, List.drop_one, List.tail_cons]
  rw [CountValues]
  rfl

theorem decodeNode_and_VerifyProof_panic (hash : Option (List UInt8)) (cachegen : UInt16)
    (fuel : Nat) (rootHash : Hash) (key : List UInt8) :
    decodeNode hash [0xc2, 0x80, 0x80] cachegen = .panic ∧
      VerifyProof (fuel + 1) rootHash key (singleNodeDb rootHash.toList [0xc2, 0x80, 0x80]) =
        some .panic := by
  have decodePanics (hash : Option (List UInt8)) (cachegen : UInt16) :
      decodeNode hash [0xc2, 0x80, 0x80] cachegen = .panic :=
    decodeNode_empty_key_panics cachegen SplitList_empty_key CountValues_empty_key
  refine ⟨decodePanics hash cachegen, ?_⟩
  apply Loop.run_succ_of_panic
  simp only [verifyStep, singleNodeDb, ↓reduceIte, decodePanics]

/-- A short node with an empty key over a 32-byte hash: the walk passes it
without using up any of the key. -/
def selfReference (hash : List UInt8) : List UInt8 :=
  [0xe2, 0x00, 0xa0] ++ hash

section SelfReference

variable {hash : List UInt8}

/-- The node decodes to a short node with the empty key, whose child is the
hash it is stored under. -/
theorem decodeNode_selfReference (wantHash : Option (List UInt8)) (hashLength : hash.length = 32) :
    decodeNode wantHash (selfReference hash) 0 =
      .ok (.shortNode [] (.hashNode hash) { hash := wantHash, gen := 0, dirty := false }) :=
  -- the flag byte 0x00 is an even key without the terminator: the empty key
  decodeNode_short_hash wantHash 0 (by decide) (by decide) (by decide) hashLength

end SelfReference

/-- A proof whose root node points back at the root hash keeps VerifyProof
going round for as many turns as it is given. -/
theorem VerifyProof_selfReference_diverges (fuel : Nat) (rootHash : Hash) (key : List UInt8) :
    VerifyProof fuel rootHash key (singleNodeDb rootHash.toList (selfReference rootHash.toList)) =
      none := by
  have hashLength : rootHash.toList.length = 32 := by simp
  refine Loop.run_eq_none_of_invariant (fun state => state.wantHash = rootHash.toList) ?_ fuel _ rfl
  intro state atRoot
  refine ⟨{ index := state.index + 1, key := state.key, wantHash := rootHash.toList }, ?_, rfl⟩
  simp [verifyStep, singleNodeDb, atRoot, decodeNode_selfReference _ hashLength, get]

/-! ### Proofs of a key -/

/-- The variables of Prove's path loop: the rest of the HEX key, the node
reached, and the nodes passed. -/
structure ProvePath where
  key : List UInt8
  tn : Node
  nodes : List Node

namespace Trie

variable (keccak : List UInt8 → Meshbox.Hash) (t : Trie)

/-- One turn of Prove's path loop. The loop ends when the key is used up or the
walk reaches nil. A short node that the key leaves ends the walk at nil; a
full node takes the key's first nibble; a hash node is resolved in place. A
value node before the end of the key panics as an invalid node. -/
def proveStep (state : ProvePath) : Outcome MissingNodeError (List Node ⊕ ProvePath) :=
  match state.key, state.tn with
  | [], _ => .ok (.inl state.nodes)
  | _, .nil => .ok (.inl state.nodes)
  | key, .shortNode nKey val flags =>
    if key.length < nKey.length ∨ nKey ≠ key.take nKey.length then
      -- The trie doesn't contain the key.
      .ok (.inr ⟨key, .nil, state.nodes ++ [.shortNode nKey val flags]⟩)
    else .ok (.inr ⟨key.drop nKey.length, val, state.nodes ++ [.shortNode nKey val flags]⟩)
  | index :: rest, .fullNode children flags =>
    if bounded : index.toNat < 17 then
      .ok (.inr ⟨rest, children ⟨index.toNat, bounded⟩, state.nodes ++ [.fullNode children flags]⟩)
    else .panic
  | key, .hashNode hash =>
    t.resolveHash hash [] >>= fun tn => .ok (.inr ⟨key, tn, state.nodes⟩)
  | _, .valueNode _ => .panic

/-- The loop of Prove over the nodes of the path, from the i-th on: each node
with its children collapsed becomes a proof element when it is stored by its
hash or is the root, the first fromLevel of them skipped. none when hashing a
node panics. -/
def proveNodes : List Node → Nat → Nat → MemDatabase → Option MemDatabase
  | [], _, _, proofDb => some proofDb
  | n :: rest, i, fromLevel, proofDb =>
    match hasher.hashChildren keccak ⟨0, 0⟩ n none with
    | none => none
    | some (n, _, _) =>
      let hn := (hasher.store keccak n none false).1
      let isHash := match hn with
        | .hashNode _ => true
        | _ => false
      if isHash = true ∨ i = 0 then
        if 0 < fromLevel then proveNodes rest (i + 1) (fromLevel - 1) proofDb
        else
          let enc := n.toItem.encode
          let hash := match hn with
            | .hashNode hash => hash
            | _ => (keccak enc).toList
          proveNodes rest (i + 1) fromLevel (proofDb.Put hash enc)
      else proveNodes rest (i + 1) fromLevel proofDb

/-- Prove: the proof database with the proof elements of key written to it, the
path loop run for at most fuel turns (none when they run out). A node the
database does not hold is the resolver's error; a hasher that panics panics. -/
def Prove (fuel : Nat) (key : List UInt8) (fromLevel : Nat) (proofDb : MemDatabase) :
    Option (Outcome MissingNodeError MemDatabase) :=
  (Loop.run t.proveStep fuel ⟨keybytesToHex key, t.root, []⟩).map fun result =>
    result >>= fun nodes =>
      match proveNodes keccak nodes 0 fromLevel proofDb with
      | some proofDb => .ok proofDb
      | none => .panic

end Trie

/-- An empty trie, opened at the zero hash over any database, proves every key
with no proof element at all. Its hash is the empty root, so VerifyProof looks
that up in the proof database and reports proof node 0 missing, though the
trie answers the key with nil. -/
theorem Prove_empty_trie_unverifiable (keccak : List UInt8 → Meshbox.Hash) (db : MemDatabase)
    (key : List UInt8) (fromLevel fuel : Nat) :
    New zeroRoot db = .ok ⟨.nil, db, zeroRoot, 0, 0⟩ ∧
      (⟨.nil, db, zeroRoot, 0, 0⟩ : Trie).Prove keccak (fuel + 1) key fromLevel NewMemDatabase =
        some (.ok NewMemDatabase) ∧
      (⟨.nil, db, zeroRoot, 0, 0⟩ : Trie).Hash keccak = some (emptyRoot, ⟨.nil, db, zeroRoot, 0, 0⟩) ∧
      (⟨.nil, db, zeroRoot, 0, 0⟩ : Trie).TryGet (fuel + 1) key = some (.ok (none, ⟨.nil, db, zeroRoot, 0, 0⟩)) ∧
      VerifyProof (fuel + 1) emptyRoot key NewMemDatabase.Get =
        some (.error (.missing 0 emptyRoot.toList)) := by
  have emptyHash : BytesToHash emptyRoot.toList = emptyRoot := by decide
  refine ⟨?_, ?_, ?_, ?_, ?_⟩
  · simp [New, zeroRoot]
  · have pathEnds : (⟨.nil, db, zeroRoot, 0, 0⟩ : Trie).proveStep ⟨keybytesToHex key, .nil, []⟩ = .ok (.inl []) := by
      simp [Trie.proveStep, keybytesToHex]
    simp only [Trie.Prove, Loop.run_succ_of_return fuel pathEnds, Option.map_some]
    rfl
  · simp only [Trie.Hash, Trie.hashRoot, emptyHash]
  · simp [Trie.TryGet, Trie.tryGet]
  · simp [VerifyProof, Loop.run, verifyStep, NewMemDatabase, MemDatabase.Get]

end Meshbox.Trie
