/-
This file models the reads and writes of trie/trie.go: Trie.TryGet with
tryGet, Trie.TryUpdate with insert, Trie.TryDelete with delete, and New, over
the in-memory database of ethdb. A trie holds its root node, which may contain
hash nodes that stand for subtries not loaded yet; each operation resolves the
hash nodes on its path from the database as it reaches them.

tryGet, insert and delete recurse into the nodes they resolve, so on a database
that sends a path back to a hash it came from they recurse forever. They take
fuel here, one unit for every call, and give none when it runs out.

The in-memory database is kept as the list of its writes, the newest first:
Get reads the newest value written under a key, as the Go map holds it, and the
list also records every value a key ever had.
-/

import Meshbox.Trie.Node
import Meshbox.Common.Types

namespace Meshbox.Trie

set_option linter.dupNamespace false

/-! ### The database -/

/-- MemDatabase: the in-memory key-value store, as its writes, the newest first. -/
structure MemDatabase where
  writes : List (List UInt8 × List UInt8)

namespace MemDatabase

/-- Get: the value last written under key. -/
def Get (db : MemDatabase) (key : List UInt8) : Option (List UInt8) :=
  (db.writes.find? (·.1 = key)).map Prod.snd

/-- Put: value written under key. -/
def Put (db : MemDatabase) (key value : List UInt8) : MemDatabase :=
  ⟨(key, value) :: db.writes⟩

end MemDatabase

/-- NewMemDatabase: an empty database. -/
def NewMemDatabase : MemDatabase := ⟨[]⟩

/-! ### Tries -/

/-- MissingNodeError: the hash of a node the database does not hold, and the
HEX path to it. -/
structure MissingNodeError where
  NodeHash : List UInt8
  Path : List UInt8
deriving DecidableEq, Repr

/-- emptyRoot: the root hash of an empty trie, the Keccak-256 hash of the
encoding of the empty string. -/
def emptyRoot : Hash :=
  #v[0x56, 0xe8, 0x1f, 0x17, 0x1b, 0xcc, 0x55, 0xa6, 0xff, 0x83, 0x45, 0xe6, 0x92, 0xc0, 0xf8, 0x6e,
    0x5b, 0x48, 0xe0, 0x1b, 0x99, 0x6c, 0xad, 0xc0, 0x01, 0x62, 0x2f, 0xb5, 0xe3, 0x63, 0xb4, 0x21]

/-- The zero hash, common.Hash{}. -/
def zeroRoot : Hash := Vector.replicate 32 0

/-- BytesToHash: the last 32 bytes, padded with zero bytes in front. -/
def BytesToHash (bytes : List UInt8) : Hash :=
  let kept := bytes.drop (bytes.length - 32)
  Vector.ofFn fun index => (List.replicate (32 - kept.length) 0 ++ kept).getD index.val 0

/-- Trie: the root node, the database it loads nodes from, the root it was
opened at, and the cache generation and the number of generations to keep. -/
structure Trie where
  root : Node
  db : MemDatabase
  originalRoot : Hash
  cachegen : UInt16
  cachelimit : UInt16

/-- concat: the two keys one after the other, in a new slice. -/
def concat (s1 s2 : List UInt8) : List UInt8 :=
  s1 ++ s2

/-- The index of the child left in a full node after a delete: the loop over
the children gives -1 when none is left, the index when one is, and -2 when
two or more are. -/
def remainingChild (children : Fin 17 → Node) : Int :=
  (List.finRange 17).foldl (fun pos index =>
    match children index with
    | .nil => pos
    | _ => if pos = -1 then index.val else -2) (-1)

namespace Trie

variable (t : Trie)

/-- newFlag: the flags of a node created now, dirty and of this generation. -/
def newFlag : nodeFlag :=
  { hash := none, gen := t.cachegen, dirty := true }

/-- resolveHash: the node stored under a hash, decoded in this generation. A
hash the database does not hold is a MissingNodeError; a stored node that does
not decode panics (mustDecodeNode). -/
def resolveHash (n : List UInt8) (pfx : List UInt8) : Outcome MissingNodeError Node :=
  match t.db.Get n with
  | none => .error ⟨n, pfx⟩
  | some enc =>
    match decodeNode (some n) enc t.cachegen with
    | .ok dec => .ok dec
    | _ => .panic

/-- resolve: a hash node resolved, any other node as it is. -/
def resolve (n : Node) (pfx : List UInt8) : Outcome MissingNodeError Node :=
  match n with
  | .hashNode hash => t.resolveHash hash pfx
  | _ => .ok n

/-- tryGet: the value the key reaches from origNode, reading the key from
position pos on; the node with the hash nodes resolved on the way put in place,
and whether any was. A full node indexes the key at pos, which panics past its
end. -/
def tryGet : Nat → Node → List UInt8 → Nat →
    Option (Outcome MissingNodeError (Option (List UInt8) × Node × Bool))
  | 0, _, _, _ => none
  | fuel + 1, origNode, key, pos =>
    match origNode with
    | .nil => some (.ok (none, .nil, false))
    | .valueNode value => some (.ok (some value, origNode, false))
    | .shortNode nKey nVal flags =>
      if key.length - pos < nKey.length ∨ nKey ≠ (key.drop pos).take nKey.length then
        -- key not found in trie
        some (.ok (none, origNode, false))
      else
        (tryGet fuel nVal key (pos + nKey.length)).map fun result =>
          result >>= fun (value, newnode, didResolve) =>
            .ok (value, if didResolve then .shortNode nKey newnode { flags with gen := t.cachegen }
              else origNode, didResolve)
    | .fullNode children flags =>
      match key[pos]? with
      | none => some .panic
      | some index =>
        if bounded : index.toNat < 17 then
          (tryGet fuel (children ⟨index.toNat, bounded⟩) key (pos + 1)).map fun result =>
            result >>= fun (value, newnode, didResolve) =>
              .ok (value, if didResolve then
                  .fullNode (Function.update children ⟨index.toNat, bounded⟩ newnode)
                    { flags with gen := t.cachegen }
                else origNode, didResolve)
        else some .panic
    | .hashNode hash =>
      match t.resolveHash hash (key.take pos) with
      | .error err => some (.error err)
      | .panic => some .panic
      | .ok child =>
        (tryGet fuel child key pos).map fun result =>
          result >>= fun (value, newnode, _) => .ok (value, newnode, true)

/-- insert: value put at key below n, whose path from the root is pfx; whether
anything changed, and the new node. An unchanged node is returned as it was,
and a changed one is new, with new flags. -/
def insert : Nat → Node → List UInt8 → List UInt8 → Node →
    Option (Outcome MissingNodeError (Bool × Node))
  | 0, _, _, _, _ => none
  | fuel + 1, n, pfx, key, value =>
    if key.length = 0 then
      match n, value with
      | .valueNode v, .valueNode w => some (.ok (v ≠ w, value))
      -- the value's type assertion fails
      | .valueNode _, _ => some .panic
      | _, _ => some (.ok (true, value))
    else
      match n with
      | .shortNode nKey nVal _ =>
        let matchlen := prefixLen key nKey
        -- If the whole key matches, keep this short node as is and only update the value.
        if matchlen = nKey.length then
          (insert fuel nVal (pfx ++ key.take matchlen) (key.drop matchlen) value).map fun result =>
            result >>= fun (dirty, nn) =>
              if !dirty then .ok (false, n) else .ok (true, .shortNode nKey nn t.newFlag)
        else
          -- Otherwise branch out at the index where they differ.
          match nKey[matchlen]?, key[matchlen]? with
          | some nIndex, some kIndex =>
            if nBounded : nIndex.toNat < 17 then
              if kBounded : kIndex.toNat < 17 then
                (insert fuel .nil (pfx ++ nKey.take (matchlen + 1)) (nKey.drop (matchlen + 1)) nVal).bind
                  fun first =>
                    match first with
                    | .ok (_, nChild) =>
                      (insert fuel .nil (pfx ++ key.take (matchlen + 1)) (key.drop (matchlen + 1))
                        value).map fun second =>
                        second >>= fun (_, kChild) =>
                          let branch : Node := .fullNode
                            (Function.update (Function.update (fun _ => .nil) ⟨nIndex.toNat, nBounded⟩
                              nChild) ⟨kIndex.toNat, kBounded⟩ kChild) t.newFlag
                          -- Replace this shortNode with the branch if it occurs at index 0.
                          if matchlen = 0 then .ok (true, branch)
                          -- Otherwise, replace it with a short node leading up to the branch.
                          else .ok (true, .shortNode (key.take matchlen) branch t.newFlag)
                    | .error err => some (.error err)
                    | .panic => some .panic
              else some .panic
            else some .panic
          | _, _ => some .panic
      | .fullNode children _ =>
        match key with
        | [] => some .panic
        | index :: rest =>
          if bounded : index.toNat < 17 then
            (insert fuel (children ⟨index.toNat, bounded⟩) (pfx ++ [index]) rest value).map fun result =>
              result >>= fun (dirty, nn) =>
                if !dirty then .ok (false, n)
                else .ok (true, .fullNode (Function.update children ⟨index.toNat, bounded⟩ nn) t.newFlag)
          else some .panic
      | .nil => some (.ok (true, .shortNode key value t.newFlag))
      | .hashNode hash =>
        -- We've hit a part of the trie that isn't loaded yet. Load the node and insert into it.
        match t.resolveHash hash pfx with
        | .error err => some (.error err)
        | .panic => some .panic
        | .ok rn =>
          (insert fuel rn pfx key value).map fun result =>
            result >>= fun (dirty, nn) => if !dirty then .ok (false, rn) else .ok (true, nn)
      | .valueNode _ => some .panic

/-- The end of delete at a full node with a child deleted: a full node with one
child left becomes a short node, its key the child's index, with a short child
merged into it; a full node with more children stays. -/
def deleteReduce (children : Fin 17 → Node) (pfx : List UInt8) : Outcome MissingNodeError (Bool × Node) :=
  let pos := remainingChild children
  if 0 ≤ pos then
    if bounded : pos.toNat < 17 then
      let child := children ⟨pos.toNat, bounded⟩
      if pos ≠ 16 then
        -- If the remaining entry is a short node, it replaces n and its key gets the missing
        -- nibble tacked to the front. Since the entry might not be loaded yet, resolve it just
        -- for this check.
        t.resolve child pfx >>= fun cnode =>
          match cnode with
          | .shortNode cKey cVal _ => .ok (true, .shortNode (UInt8.ofNat pos.toNat :: cKey) cVal t.newFlag)
          | _ => .ok (true, .shortNode [UInt8.ofNat pos.toNat] child t.newFlag)
      -- Otherwise, n is replaced by a one-nibble short node containing the child.
      else .ok (true, .shortNode [UInt8.ofNat pos.toNat] child t.newFlag)
    else .panic
  -- n still contains at least two values and cannot be reduced.
  else .ok (true, .fullNode children t.newFlag)

/-- delete: key removed below n, whose path from the root is pfx; whether
anything changed, and the new node, reduced to minimal form on the way up. -/
def delete : Nat → Node → List UInt8 → List UInt8 → Option (Outcome MissingNodeError (Bool × Node))
  | 0, _, _, _ => none
  | fuel + 1, n, pfx, key =>
    match n with
    | .shortNode nKey nVal _ =>
      let matchlen := prefixLen key nKey
      -- don't replace n on mismatch
      if matchlen < nKey.length then some (.ok (false, n))
      -- remove n entirely for whole matches
      else if matchlen = key.length then some (.ok (true, .nil))
      else
        (delete fuel nVal (pfx ++ key.take nKey.length) (key.drop nKey.length)).map fun result =>
          result >>= fun (dirty, child) =>
            if !dirty then .ok (false, n)
            else
              match child with
              -- Merge the nodes to avoid creating a shortNode{..., shortNode{...}}.
              | .shortNode childKey childVal _ =>
                .ok (true, .shortNode (concat nKey childKey) childVal t.newFlag)
              | _ => .ok (true, .shortNode nKey child t.newFlag)
    | .fullNode children _ =>
      match key with
      | [] => some .panic
      | index :: rest =>
        if bounded : index.toNat < 17 then
          (delete fuel (children ⟨index.toNat, bounded⟩) (pfx ++ [index]) rest).map fun result =>
            result >>= fun (dirty, nn) =>
              if !dirty then .ok (false, n)
              else t.deleteReduce (Function.update children ⟨index.toNat, bounded⟩ nn) pfx
        else some .panic
    | .valueNode _ => some (.ok (true, .nil))
    | .nil => some (.ok (false, .nil))
    | .hashNode hash =>
      -- We've hit a part of the trie that isn't loaded yet. Load the node and delete from it.
      match t.resolveHash hash pfx with
      | .error err => some (.error err)
      | .panic => some .panic
      | .ok rn =>
        (delete fuel rn pfx key).map fun result =>
          result >>= fun (dirty, nn) => if !dirty then .ok (false, rn) else .ok (true, nn)

/-! ### The trie's entry points -/

/-- TryGet: the value stored for key; a hash node resolved on the way is kept
in place. -/
def TryGet (fuel : Nat) (key : List UInt8) : Option (Outcome MissingNodeError (Option (List UInt8) × Trie)) :=
  (t.tryGet fuel t.root (keybytesToHex key) 0).map fun result =>
    result >>= fun (value, newroot, didResolve) =>
      .ok (value, if didResolve then { t with root := newroot } else t)

/-- TryUpdate: value stored for key; an empty value deletes the key. -/
def TryUpdate (fuel : Nat) (key value : List UInt8) : Option (Outcome MissingNodeError Trie) :=
  let k := keybytesToHex key
  if value.length ≠ 0 then
    (t.insert fuel t.root [] k (.valueNode value)).map fun result =>
      result >>= fun (_, n) => .ok { t with root := n }
  else
    (t.delete fuel t.root [] k).map fun result =>
      result >>= fun (_, n) => .ok { t with root := n }

/-- TryDelete: any value stored for key removed. -/
def TryDelete (fuel : Nat) (key : List UInt8) : Option (Outcome MissingNodeError Trie) :=
  (t.delete fuel t.root [] (keybytesToHex key)).map fun result =>
    result >>= fun (_, n) => .ok { t with root := n }

/-- SetCacheLimit: the number of cache generations to keep. -/
def SetCacheLimit (l : UInt16) : Trie :=
  { t with cachelimit := l }

end Trie

/-- New: a trie over db at root. The zero hash and emptyRoot open an empty
trie; any other root is resolved from the database at once. -/
def New (root : Hash) (db : MemDatabase) : Outcome MissingNodeError Trie :=
  let trie : Trie := ⟨.nil, db, root, 0, 0⟩
  if root ≠ zeroRoot ∧ root ≠ emptyRoot then
    trie.resolveHash root.toList [] >>= fun rootnode => .ok { trie with root := rootnode }
  else .ok trie

end Meshbox.Trie
