import Mathlib
import Meshbox.Library.Outcome

/-
This file models the tree chunker of swarm/storage: TreeChunker.Split, which
cuts a document into a tree of chunks, and the LazyChunkReader that Join
returns, whose ReadAt reads a section of the document back from the chunks.
A chunk's data starts with the size of its subtree as 8 little-endian bytes;
a leaf then holds up to chunkSize bytes of the document, and an inner chunk the
keys of its children, each hashSize bytes. Split is modelled in the order its
recursion reads the input, with the hashing done as soon as a chunk is
complete; the chunks go to a store, newest first.

ReadAt visits the children of a chunk that cover [off, off + len(b)) and
takes each child's key from the parent's data without checking the number of
children. When off + len(b) runs past the end of a document of several chunks,
the index of a child goes past the keys the parent holds, and the slice of the
parent's data panics.

Go's goroutines in join write disjoint parts of the buffer, and a panic in any
of them ends the program: the model reads the children independently, and the
whole read panics if one of them does.
-/

namespace Meshbox.Swarm

/-- What Split and ReadAt return as errors. -/
inductive SwarmError where
  | readFailed
  | chunkNotFound
  | rootNotFound
  deriving DecidableEq, Repr

/-- Chunk: its key, its data (the 8-byte size, then the content), and the size
of the subtree it covers. -/
structure Chunk where
  Key : List UInt8
  SData : List UInt8
  Size : Int
  deriving DecidableEq, Repr

/-- The chunks stored so far, newest first. -/
abbrev Store := List Chunk

/-- retrieve: the chunk stored under key, if any. -/
def retrieve (store : Store) (key : List UInt8) : Option Chunk := store.find? (·.Key == key)

/-- The Go slice s[a:b]: none where it panics. -/
def slice (s : List UInt8) (a b : Int) : Option (List UInt8) :=
  if 0 ≤ a ∧ a ≤ b ∧ b ≤ s.length then some ((s.drop a.toNat).take (b - a).toNat) else none

/-- binary.LittleEndian.PutUint64 of uint64(size). -/
def putUint64 (size : Int) : List UInt8 :=
  (List.range 8).map fun i => UInt8.ofNat ((size % 2 ^ 64).toNat / 256 ^ i)

/-- copy(dst, src) into a fresh zeroed slice of length n. -/
def copyInto (n : Nat) (src : List UInt8) : List UInt8 := src.take n ++ List.replicate (n - src.length) 0

@[simp] theorem length_copyInto (n : Nat) (src : List UInt8) : (copyInto n src).length = n := by
  simp only [copyInto, List.length_append, List.length_take, List.length_replicate]
  omega

theorem copyInto_self {n : Nat} {src : List UInt8} (sized : src.length = n) : copyInto n src = src := by
  simp [copyInto, ← sized]

@[simp] theorem length_putUint64 (size : Int) : (putUint64 size).length = 8 := by
  simp [putUint64]

/-- TreeChunker: the number of branches and the hash size; chunkSize is their product. -/
structure TreeChunker where
  branches : Int
  hashSize : Int

namespace TreeChunker

def chunkSize (c : TreeChunker) : Int := c.hashSize * c.branches

section Split

variable (c : TreeChunker) (hashFunc : List UInt8 → List UInt8 → List UInt8)

/-- hashChunk: the key hashes the size bytes and the content; the chunk goes to the store. -/
def hashChunk (chunk : List UInt8) (size : Int) (store : Store) : List UInt8 × Store :=
  let h := hashFunc (chunk.take 8) (chunk.drop 8)
  (h, { Key := h, SData := chunk, Size := size } :: store)

/-- split at depth, for a subtree of treeSize covering size bytes of data: the
key of its root, what is left of the input, and the store. A subtree smaller
than treeSize moves down a level; at depth 0 a leaf reads size bytes. -/
def split : Nat → Int → Int → List UInt8 → Store → Outcome SwarmError (List UInt8 × List UInt8 × Store)
  | 0, _, size, data, store =>
    -- the reader must yield size bytes before its end
    if (data.length : Int) < size then .error .readFailed
    else
      let chunkData := putUint64 size ++ data.take size.toNat
      let (key, store) := hashChunk hashFunc chunkData size store
      .ok (key, data.drop size.toNat, store)
  | depth + 1, treeSize, size, data, store =>
    if size < treeSize then split depth (treeSize.tdiv c.branches) size data store
    else
      let branchCnt := (size + treeSize - 1).tdiv treeSize
      -- each child covers treeSize bytes, the last one the rest
      let children := (List.range branchCnt.toNat).foldl
        (fun (acc : Outcome SwarmError (List UInt8 × List UInt8 × Store)) (i : Nat) =>
        acc.bind fun (keys, data, store) =>
          let pos := (i : Int) * treeSize
          let secSize := if size - pos < treeSize then size - pos else treeSize
          (split depth (treeSize.tdiv c.branches) secSize data store).bind fun (key, data, store) =>
            .ok (keys ++ copyInto c.hashSize.toNat key, data, store)) (.ok ([], data, store))
      children.bind fun (keys, data, store) =>
        let (key, store) := hashChunk hashFunc (putUint64 size ++ keys) size store
        .ok (key, data, store)

/-- The depth of the tree for a document of size bytes and the size of the
subtrees below its root: the chunk size multiplied by the branches until it
reaches size. The loop runs at most size times for two branches or more. -/
def treeDepth (size : Int) : Nat → Nat → Int → Nat × Int
  | 0, depth, treeSize => (depth, treeSize)
  | fuel + 1, depth, treeSize => if treeSize < size then treeDepth size fuel (depth + 1) (treeSize * c.branches) else (depth, treeSize)

/-- Split: the root key of the document and the store with its chunks. -/
def Split (data : List UInt8) (size : Int) (store : Store) : Outcome SwarmError (List UInt8 × Store) :=
  let (depth, treeSize) := c.treeDepth size (size.toNat + 1) 0 c.chunkSize
  (c.split hashFunc depth (treeSize.tdiv c.branches) size data store).bind fun (key, _, store) =>
    .ok (copyInto c.hashSize.toNat key, store)

end Split

/-! ### Reading -/

/-- The outcome of reading the children of a chunk independently: a panic of
one ends everything, else the first error, else every child's bytes. -/
def gather : List (Outcome SwarmError α) → Outcome SwarmError (List α)
  | [] => .ok []
  | .panic :: _ => .panic
  | .error err :: rest => match gather rest with
    | .panic => .panic
    | _ => .error err
  | .ok value :: rest => (gather rest).bind fun values => .ok (value :: values)

theorem gather_panic {results : List (Outcome SwarmError α)} (member : Outcome.panic ∈ results) :
    gather results = .panic := by
  induction results with
  | nil => cases member
  | cons result rest inductionHypothesis =>
    rcases List.mem_cons.mp member with first | later
    · subst first
      rfl
    · have restPanics := inductionHypothesis later
      cases result <;> simp [gather, restPanics, Outcome.bind]

/-- Writes bytes into b from position pos, as a child's slice of b does. -/
def writeAt (b : List UInt8) (pos : Nat) (bytes : List UInt8) : List UInt8 :=
  b.take pos ++ bytes ++ b.drop (pos + bytes.length)

variable (c : TreeChunker)

/-- join: the bytes [off, eoff) of the subtree of chunk written into b. A
chunk smaller than treeSize moves down a level; a leaf copies its content;
an inner chunk reads each child that covers part of the range. -/
def join (store : Store) : Nat → List UInt8 → Int → Int → Int → Chunk → Outcome SwarmError (List UInt8)
  | 0, b, off, eoff, _, chunk =>
    let extra := 8 + eoff - chunk.SData.length
    let eoff := if extra > 0 then eoff - extra else eoff
    match slice chunk.SData (8 + off) (8 + eoff) with
    | none => .panic
    | some content => .ok (writeAt b 0 (content.take b.length))
  | depth + 1, b, off, eoff, treeSize, chunk =>
    if chunk.Size < treeSize then join store depth b off eoff (treeSize.tdiv c.branches) chunk
    else
      let start := off.tdiv treeSize
      let stop := (eoff + treeSize - 1).tdiv treeSize
      let children := (List.range (stop - start).toNat).map fun (k : Nat) =>
        let i := start + k
        let roff := i * treeSize
        let soff := if roff < off then off else roff
        let seoff := if roff + treeSize > eoff then eoff else roff + treeSize
        match slice chunk.SData (8 + i * c.hashSize) (8 + (i + 1) * c.hashSize) with
        | none => .panic
        | some childKey =>
          match retrieve store childKey with
          | none => .error .chunkNotFound
          | some child =>
            match slice b (soff - off) (seoff - off) with
            | none => .panic
            | some part =>
              (join store depth part (soff - roff) (seoff - roff) (treeSize.tdiv c.branches) child).bind fun part =>
                .ok ((soff - off).toNat, part)
      (gather children).bind fun parts =>
        .ok (parts.foldl (fun b (pos, part) => writeAt b pos part) b)

/-- LazyChunkReader.ReadAt on the document under key: the buffer after the
read, the count it returns, and whether it returns io.EOF. -/
def ReadAt (store : Store) (key : List UInt8) (b : List UInt8) (off : Int) :
    Outcome SwarmError (List UInt8 × Nat × Bool) :=
  if b.length = 0 then .ok (b, 0, false)
  else
    match retrieve store key with
    | none => .error .rootNotFound
    | some root =>
      let size := root.Size
      let (depth, treeSize) := c.treeDepth size (size.toNat + 1) 0 c.chunkSize
      (c.join store depth b off (off + b.length) (treeSize.tdiv c.branches) root).bind fun b =>
        .ok (b, b.length, decide (off + b.length ≥ size))

end TreeChunker

/-! ### A read past the end of a document of two chunks -/

/-- Two branches of 32-byte hashes: chunks of 64 bytes. -/
def twoBranches : TreeChunker := { branches := 2, hashSize := 32 }

/-- Split cuts 65 bytes into leaves of 64 and 1 bytes under a root that holds
their two keys, stored last. -/
theorem Split_two_leaves (hashFunc : List UInt8 → List UInt8 → List UInt8)
    (hashes : ∀ span content, (hashFunc span content).length = 32) (d : List UInt8) (sized : d.length = 65) :
    ∃ root rest, twoBranches.Split hashFunc d 65 [] = .ok (root.Key, root :: rest) ∧ root.Size = 65 ∧
      root.SData.length = 72 := by
  -- the leaves are stored first, the second on top of the first, and the root on top
  let first := hashFunc (putUint64 64) (d.take 64)
  let second := hashFunc (putUint64 1) ((d.drop 64).take 1)
  refine ⟨{ Key := hashFunc (putUint64 65) (first ++ second), SData := putUint64 65 ++ (first ++ second), Size := 65 },
    [{ Key := second, SData := putUint64 1 ++ (d.drop 64).take 1, Size := 1 },
     { Key := first, SData := putUint64 64 ++ d.take 64, Size := 64 }], ?_, rfl, ?_⟩
  · have two : List.range 2 = [0, 1] := rfl
    have depth : twoBranches.treeDepth 65 ((65 : Int).toNat + 1) 0 twoBranches.chunkSize = (1, 128) := by decide
    rw [TreeChunker.Split, depth]
    simp [TreeChunker.split, sized, TreeChunker.hashChunk, twoBranches, Int.tdiv, two, Outcome.bind,
      copyInto_self (hashes _ _), first, second]
  · simp [first, second, hashes]

/-- On a root of two keys covering 65 bytes, a read of 200 bytes from offset 0
visits four children, and the key of the third lies past the root's data. -/
theorem ReadAt_two_keys_past_end (store : Store) (root : Chunk) (found : retrieve store root.Key = some root)
    (size : root.Size = 65) (keys : root.SData.length = 72) (b : List UInt8) (long : b.length = 200) :
    twoBranches.ReadAt store root.Key b 0 = .panic := by
  have depth : twoBranches.treeDepth 65 ((65 : Int).toNat + 1) 0 twoBranches.chunkSize = (1, 128) := by decide
  have half : Int.tdiv 128 twoBranches.branches = 64 := by decide
  simp only [TreeChunker.ReadAt, found, size, depth, long, half]
  have joined : twoBranches.join store 1 b 0 (0 + ((200 : Nat) : Int)) 64 root = .panic := by
    simp only [TreeChunker.join, size]
    rw [if_neg (by decide), TreeChunker.gather_panic]
    · rfl
    · -- the third child's key would be the root's bytes 72 to 104
      refine List.mem_map.mpr ⟨2, List.mem_range.mpr (by decide), ?_⟩
      simp [slice, keys, twoBranches]
  rw [joined]
  rfl

/-- For every hash of 32 bytes and every document of 65 bytes, reading back
200 bytes from offset 0 of what Split stored panics. -/
theorem ReadAt_past_end_panics (hashFunc : List UInt8 → List UInt8 → List UInt8)
    (hashes : ∀ span content, (hashFunc span content).length = 32) (d : List UInt8) (sized : d.length = 65)
    (b : List UInt8) (long : b.length = 200) :
    (twoBranches.Split hashFunc d 65 []).bind (fun (key, store) => twoBranches.ReadAt store key b 0) = .panic := by
  obtain ⟨root, rest, split, size, keys⟩ := Split_two_leaves hashFunc hashes d sized
  have found : retrieve (root :: rest) root.Key = some root := by simp [retrieve]
  rw [split]
  exact ReadAt_two_keys_past_end (root :: rest) root found size keys b long

/-- Zero hashes, a document of 65 zero bytes and a buffer of 200. -/
theorem ReadAt_past_end_panics_zeros :
    (twoBranches.Split (fun _ _ => List.replicate 32 0) (List.replicate 65 0) 65 []).bind
      (fun (key, store) => twoBranches.ReadAt store key (List.replicate 200 0) 0) = .panic :=
  ReadAt_past_end_panics (fun _ _ => List.replicate 32 0) (fun _ _ => List.length_replicate) (List.replicate 65 0)
    List.length_replicate (List.replicate 200 0) List.length_replicate

end Meshbox.Swarm
