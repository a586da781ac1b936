import Mathlib

/-!
# The binary Merkle tree hasher of bmt/bmt.go

Hasher cuts a chunk of at most count segments into double segments, one per
leaf of a prebuilt Tree, and sends each finished double segment up the tree;
two arrivals meet at a node through its toggled state, and the second one
hashes the node's left and right values and climbs on. Sum finalises the path
of the last, possibly partial, segment (finalise's zig-zag marks the nodes that
only have a left side), writes that segment and receives the root's value on
the result channel. ReadFrom feeds a reader's bytes through Write and Sum.

The goroutines that writeSegment starts run to completion here, one after the
other in the order they are started: one of the interleavings the source
allows. The reference hasher of bmt_r.go, RefHasher, splits the data at the
largest power-of-two span below its length and hashes the halves.

The base hash is a function of the bytes written to it since its last Reset,
as hash.Hash gives it: h.Reset(); h.Write(x); h.Write(y); h.Sum(nil) is
hash (x ++ y).
-/

namespace Meshbox.Bmt

/-- A base hash: the hash.Hash that BaseHasher builds, as the function from
the bytes written to it to its Sum(nil), and its Size. -/
structure BaseHasher where
  hash : List UInt8 → List UInt8
  Size : Nat

/-- depth's loop: how often l halves before it reaches 0, on fuel (n halvings
are more than enough for l ≤ n). -/
def depthLoop : Nat → Nat → Nat
  | 0, _ => 0
  | fuel + 1, l => if l > 0 then depthLoop fuel (l / 2) + 1 else 0

/-- depth: the index of the leaves' level for n segments. -/
def depth (n : Nat) : Nat := depthLoop n ((n - 1) / 2)

/-! ### Tree and TreePool -/

/-- Node: a segment hasher of the tree. Its parent is the node at the level
above with half its index (the source's parent pointer); state is the counter
that toggle increments. -/
structure Node where
  level : Nat
  index : Nat
  initial : Bool
  root : Bool
  isLeft : Bool
  unbalanced : Bool
  state : Nat
  left : List UInt8
  right : List UInt8
  deriving Inhabited, Repr, DecidableEq

def NewNode (level index : Nat) : Node :=
  { level, index, initial := index == 0, root := false, isLeft := index % 2 == 0,
    unbalanced := false, state := 0, left := [], right := [] }

/-- toggle: increments the node's state and reports whether the caller is the
first of the two arrivals. -/
def Node.toggle (n : Node) : Bool × Node :=
  ((n.state + 1) % 2 == 1, { n with state := n.state + 1 })

/-- Tree: the nodes level by level, the root's level first; the last level is
the leaves. -/
structure Tree where
  levels : List (List Node)
  deriving Inhabited, Repr, DecidableEq

namespace Tree

def leafLevel (t : Tree) : Nat := t.levels.length - 1

def node (t : Tree) (level index : Nat) : Node := (t.levels.getD level []).getD index default

def modify (t : Tree) (level index : Nat) (f : Node → Node) : Tree :=
  { levels := t.levels.modify level fun nodes => nodes.modify index f }

/-- The node at (level, index) exists: the source's pointer to it is not nil. -/
def InRange (t : Tree) (level index : Nat) : Prop :=
  level < t.levels.length ∧ index < (t.levels.getD level []).length

theorem node_modify_self {t : Tree} {level index : Nat} (range : t.InRange level index)
    (f : Node → Node) : (t.modify level index f).node level index = f (t.node level index) := by
  obtain ⟨levelIn, indexIn⟩ := range
  simp only [node, modify, List.getD_eq_getElem?_getD, List.getElem?_modify,
    List.getElem?_eq_getElem levelIn] at indexIn ⊢
  simp only [Option.getD_some] at indexIn
  simp [List.getElem?_eq_getElem indexIn]

@[simp] theorem inRange_modify {t : Tree} {level index level' index' : Nat} (f : Node → Node) :
    (t.modify level index f).InRange level' index' ↔ t.InRange level' index' := by
  simp only [InRange, modify, List.length_modify, List.getD_eq_getElem?_getD, List.getElem?_modify]
  by_cases same : level = level'
  · subst same
    cases t.levels[level]? <;> simp
  · simp [same]

@[simp] theorem leafLevel_modify (t : Tree) (level index : Nat) (f : Node → Node) :
    (t.modify level index f).leafLevel = t.leafLevel := by
  simp [leafLevel, modify]

end Tree

/-- NewTree: the root and, for each level down to depth segmentCount, twice as
many nodes as the level above. -/
def NewTree (segmentCount : Nat) : Tree :=
  { levels := (List.range (depth segmentCount + 1)).map fun level =>
      (List.range (2 ^ level)).map fun index =>
        if level = 0 then { NewNode 0 0 with root := true } else NewNode level index }

theorem NewTree_leafLevel (n : Nat) : (NewTree n).leafLevel = depth n := by
  simp [NewTree, Tree.leafLevel]

theorem NewTree_inRange (n : Nat) {level index : Nat} (within : level ≤ depth n)
    (below : index < 2 ^ level) : (NewTree n).InRange level index := by
  simp [NewTree, Tree.InRange, List.getD_eq_getElem?_getD, Nat.lt_succ_of_le within, below]

/-- Every node of a new tree at the start of its level is initial. -/
theorem NewTree_initial (n : Nat) {level : Nat} (within : level ≤ depth n) :
    ((NewTree n).node level 0).initial = true := by
  have first : 0 < 2 ^ level := Nat.two_pow_pos level
  by_cases top : level = 0 <;>
    simp [NewTree, Tree.node, List.getD_eq_getElem?_getD, Nat.lt_succ_of_le within, first, top, NewNode]

/-- TreePool: the free trees (the channel c, oldest first) and how many trees
the pool has made. -/
structure TreePool where
  c : List Tree
  SegmentSize : Nat
  SegmentCount : Nat
  Capacity : Nat
  count : Nat

def NewTreePool (hasher : BaseHasher) (segmentCount capacity : Nat) : TreePool :=
  { c := [], SegmentSize := hasher.Size, SegmentCount := segmentCount, Capacity := capacity,
    count := 0 }

namespace TreePool

/-- Reserve: a free tree, or a new one while the pool is below capacity. At
capacity with no free tree the source blocks until one is released: none. -/
def Reserve (p : TreePool) : Option (Tree × TreePool) :=
  if p.count = p.Capacity then
    match p.c with
    | [] => none
    | t :: c => some (t, { p with c })
  else
    match p.c with
    | t :: c => some (t, { p with c })
    | [] => some (NewTree p.SegmentCount, { p with count := p.count + 1 })

def Release (p : TreePool) (t : Tree) : TreePool := { p with c := p.c ++ [t] }

end TreePool

/-! ### Hasher -/

/-- Hasher: the reusable hasher; result holds the values sent on the result
channel and not yet received. -/
structure Hasher where
  pool : TreePool
  bmt : Option Tree
  blocksize : Nat
  count : Nat
  size : Nat
  cur : Nat
  segment : List UInt8
  depth : Nat
  result : List (List UInt8)
  hash : List UInt8
  blockLength : Option (List UInt8)

def New (p : TreePool) : Hasher :=
  { pool := p, bmt := none, blocksize := p.SegmentSize, count := p.SegmentCount,
    size := p.SegmentSize, cur := 0, segment := [], depth := depth p.SegmentCount, result := [],
    hash := [], blockLength := none }

namespace Hasher

variable (hasher : BaseHasher)

/-- getTree: reserves a tree from the pool unless the hasher holds one. -/
def getTree (self : Hasher) : Option Hasher :=
  match self.bmt with
  | some _ => some self
  | none => do
    let (t, pool) ← self.pool.Reserve
    some { self with bmt := some t, pool }

def Reset (self : Hasher) : Option Hasher := do
  let self ← self.getTree
  some { self with blockLength := none }

def ResetWithLength (self : Hasher) (l : List UInt8) : Option Hasher := do
  let self ← self.Reset
  some { self with blockLength := some l }

/-- One turn of run's loop at a node: s is stored on the side it comes from.
The first of two arrivals stops there (none); the second one, or the only one
at an unbalanced node, computes the node's value: the hash of its two sides,
or, coming from the left of an unbalanced node above the bottom, its left side
as it is. -/
def runStep (d i level index : Nat) (isLeft : Bool) (s : List UInt8) (t : Tree) :
    Option (List UInt8) × Tree :=
  let t := t.modify level index fun n => if isLeft then { n with left := s } else { n with right := s }
  let n := t.node level index
  let (waiting, t) :=
    if n.unbalanced then (false, t) else (n.toggle.1, t.modify level index fun n => n.toggle.2)
  if waiting then (none, t)
  else if !n.unbalanced || !isLeft || (i == 0 && d == 0) then (some (hasher.hash (n.left ++ n.right)), t)
  else (some (n.left ++ n.right), t)

/-- run's loop: climbs from a node towards the root, recording each value in
hash, until it waits at a node or sends the root's value on the result
channel. A node above the top one is a nil parent in the source: none. -/
def runLoop (d : Nat) : (level index : Nat) → (isLeft : Bool) → (i : Nat) → List UInt8 → Tree →
    Hasher → Option (Tree × Hasher)
  | level, index, isLeft, i, s, t, self =>
    match runStep hasher d i level index isLeft s t with
    | (none, t) => some (t, self)
    | (some s, t) =>
      let self := { self with hash := s }
      if (t.node level index).root then some (t, { self with result := self.result ++ [s] })
      else
        match level with
        | 0 => none
        | level + 1 => runLoop d level (index / 2) (t.node (level + 1) index).isLeft (i + 1) s t self

def run (d level index i : Nat) (s : List UInt8) (t : Tree) (self : Hasher) :
    Option (Tree × Hasher) :=
  runLoop hasher d level index (i % 2 == 0) i s t self

/-- writeSegment: a double segment is hashed and sent up from its leaf's
parent; a single segment goes into its leaf's left side. -/
def writeSegment (i : Nat) (s : List UInt8) (d : Nat) (self : Hasher) : Option Hasher := do
  let t ← self.bmt
  let leaf := t.leafLevel
  let n := t.node leaf i
  if s.length > self.size ∧ leaf > 0 then
    let s := hasher.hash s
    if n.root then some { self with result := self.result ++ [s] }
    else
      let (t, self) ← run hasher d (leaf - 1) (i / 2) n.index s t self
      some { self with bmt := some t }
  else
    let (t, self) ← run hasher d leaf i (i * 2) s t self
    some { self with bmt := some t }

/-- finalise's loop: along the path of the last segment, marks a node
unbalanced when the path enters it from the left and clears its right side,
up to the first initial node, which becomes the root of the smaller tree the
data spans; returns how many levels it climbed. -/
def finaliseLoop : (level index : Nat) → (isLeft : Bool) → (d : Nat) → Tree → Option (Nat × Tree)
  | level, index, isLeft, d, t =>
    let t := t.modify level index fun n => { n with unbalanced := isLeft, right := [] }
    if (t.node level index).initial then some (d, t.modify level index fun n => { n with root := true })
    else
      match level with
      | 0 => none
      | level + 1 => finaliseLoop level (index / 2) (t.node (level + 1) index).isLeft (d + 1) t

def finalise (level index i : Nat) (t : Tree) : Option (Nat × Tree) :=
  finaliseLoop level index (i % 2 == 0) 0 t

/-- releaseTree's loop: clears the unbalanced flags on the path from a leaf,
and the root flags below the top. -/
def clearPath : (level index : Nat) → Tree → Tree
  | level, index, t =>
    let t := t.modify level index fun n =>
      { n with unbalanced := false, root := if level > 0 then false else n.root }
    match level with
    | 0 => t
    | level + 1 => clearPath level (index / 2) t

/-- releaseTree: gives the tree back to the pool and forgets the open
segment. -/
def releaseTree (self : Hasher) : Hasher :=
  let self :=
    match self.bmt with
    | some t => { self with pool := self.pool.Release (clearPath t.leafLevel self.cur t), bmt := none }
    | none => self
  { self with cur := 0, segment := [] }

/-- Sum: finalises the path of the open segment, writes it and receives the
root's value; with a block length, the hash of the length and that value.
Sum ignores its argument, as the source does. When no value has been sent,
the source blocks: none. -/
def Sum (self : Hasher) (_b : List UInt8) : Option (List UInt8 × Hasher) := do
  let t ← self.bmt
  let leaf := t.leafLevel
  let j := self.cur
  -- a full double segment enters at its leaf's parent, a partial one at the leaf
  let (level, index, i) :=
    if self.segment.length > self.size ∧ self.cur > 0 ∧ leaf > 0 then (leaf - 1, self.cur / 2, self.cur)
    else (leaf, self.cur, self.cur * 2)
  let (d, t) ← finalise level index i t
  let self ← writeSegment hasher j self.segment d { self with bmt := some t }
  match self.result with
  | [] => none
  | c :: result =>
    let self := releaseTree { self with result }
    match self.blockLength with
    | none => some (c, self)
    | some blockLength => some (hasher.hash (blockLength ++ c), self)

/-- Write's loop: while bytes remain and the open segment is not the last one,
pushes the full open segment and takes the next one from b; remaining counts
the leaves after the open one. A slice past the end of b panics: none. -/
def writeLoop (b : List UInt8) : (remaining : Nat) → (need size : Int) → (rest i : Nat) →
    List UInt8 → Hasher → Option (List UInt8 × Nat × Hasher)
  | 0, _, _, _, i, s, self => some (s, i, self)
  | remaining + 1, need, size, rest, i, s, self =>
    if need > 0 then do
      let self ← writeSegment hasher i s self.depth self
      let need := need - size
      let size := if need < 0 then size + need else size
      if size < 0 ∨ rest + size.toNat > b.length then none
      else
        writeLoop b remaining need size (rest + size.toNat) (i + 1)
          ((b.drop rest).take size.toNat) self
    else some (s, i, self)

/-- Write: fills the open segment from b and pushes every segment it
completes, up to the chunk's capacity. -/
def Write (self : Hasher) (b : List UInt8) : Option (Nat × Hasher) :=
  let l := b.length
  if l = 0 then some (0, self)
  else
    let s := self.segment
    let i := self.cur
    let count := (self.count + 1) / 2
    let need : Int := self.count * self.size - self.cur * 2 * self.size
    let size : Int := if need > self.size then 2 * self.size else self.size
    let need := if l < need then (l : Int) else need
    -- the bytes that complete the open segment
    let rest := size - s.length
    let rest := if need < rest then need else rest
    if rest < 0 then none
    else do
      let s := s ++ b.take rest.toNat
      let need := need - rest
      let (s, i, self) ← writeLoop hasher b (count - 1 - i) need size rest.toNat i s self
      some (l, { self with segment := s, cur := i })

/-- The errors ReadFrom returns: the reader's io.EOF, and EOC with the hash of
a chunk that filled up. -/
inductive ReadError where
  | EOF
  | EOC (Hash : List UInt8)
  deriving Repr, DecidableEq

/-- Read of a bytes.Reader over r into a buffer of n bytes: the next n bytes,
and io.EOF once nothing remains. -/
def readBytes (r : List UInt8) (n : Nat) : List UInt8 × Option ReadError × List UInt8 :=
  if r = [] then ([], some .EOF, r) else (r.take n, none, r.drop n)

/-- ReadFrom's loop over the reads of a bytes.Reader, on fuel: each read
before the last takes at least a byte, so the reader's length plus one is
enough. The bytes of the read that ends the loop go to Sum, which ignores
them. -/
def readFromLoop (bufsize : Nat) : (fuel read : Nat) → List UInt8 → Hasher →
    Option ((Nat × Option ReadError) × Hasher)
  | 0, _, _, _ => none
  | fuel + 1, read, r, self =>
    let (data, err, r) := readBytes r bufsize
    let read := read + data.length
    if err = some .EOF ∨ read = bufsize then do
      let (hash, self) ← Sum hasher self data
      some ((read, if read = bufsize then some (.EOC hash) else err), self)
    else if err ≠ none then some ((read, err), self)
    else do
      let (_, self) ← Write hasher self data
      readFromLoop bufsize fuel read r self

/-- ReadFrom: reads until the chunk is full or the reader ends, over a buffer
of the chunk's free bytes. -/
def ReadFrom (self : Hasher) (r : List UInt8) : Option ((Nat × Option ReadError) × Hasher) :=
  let bufsize := self.size * self.count - self.size * self.cur - self.segment.length
  readFromLoop hasher bufsize (r.length + 1) 0 r self

end Hasher

/-! ### The reference hasher of bmt_r.go -/

structure RefHasher where
  span : Nat
  -- the source's section: two segments
  sectionSize : Nat
  cap : Nat
  h : BaseHasher

/-- NewRefHasher's loop: doubles c from 2 while it is below count, on fuel. -/
def doubleLoop (count : Nat) : Nat → Nat → Nat
  | 0, c => c
  | fuel + 1, c => if c < count then doubleLoop count fuel (c * 2) else c

def NewRefHasher (hasher : BaseHasher) (count : Nat) : RefHasher :=
  let hashsize := hasher.Size
  let maxsize := hashsize * count
  let c := doubleLoop count count 2
  let c := if c > 2 then c / 2 else c
  { sectionSize := 2 * hashsize, span := c * hashsize, cap := maxsize, h := hasher }

/-- hash's inner loop: halves s while it is at least l, on fuel. -/
def halveLoop (l : Nat) : Nat → Nat → Nat
  | 0, s => s
  | fuel + 1, s => if s ≥ l then halveLoop l fuel (s / 2) else s

namespace RefHasher

/-- hash: data longer than a section splits at the largest power-of-two span
below its length; the left part is hashed, and the right part too when it is
longer than a segment. The recursion runs on fuel (none when it runs out). -/
def hash (rh : RefHasher) : Nat → List UInt8 → Nat → Option (List UInt8)
  | 0, _, _ => none
  | fuel + 1, d, s => do
    let l := d.length
    let (left, right) ←
      if l > rh.sectionSize then do
        let s := halveLoop l (s + 1) s
        let left ← rh.hash fuel (d.take s) s
        let right ← if l - s > rh.sectionSize / 2 then rh.hash fuel (d.drop s) s else some (d.drop s)
        some (left, right)
      else some (d, [])
    some (rh.h.hash (left ++ right))

/-- Hash: the reference BMT hash of at most cap bytes of d. -/
def Hash (rh : RefHasher) (d : List UInt8) : Option (List UInt8) :=
  let d := if d.length > rh.cap then d.take rh.cap else d
  rh.hash (d.length + 1) d rh.span

end RefHasher


/-! ### A hasher with nothing written

Sum of a hasher whose open segment is empty finalises and writes at the first
leaf alone: the leaf becomes the root of a one-node tree and its value is the
base hash of no bytes. -/

namespace Hasher

variable (hasher : BaseHasher)

/-- finalise at an initial node: the node is the root of the tree the data
spans, marked unbalanced when the path enters it from the left, with its right
side cleared. -/
theorem finaliseLoop_initial {t : Tree} {level index : Nat} (isLeft : Bool) (d : Nat)
    (range : t.InRange level index) (initial : (t.node level index).initial = true) :
    ∃ t', finaliseLoop level index isLeft d t = some (d, t') ∧ t'.InRange level index ∧
      t'.leafLevel = t.leafLevel ∧ (t'.node level index).unbalanced = isLeft ∧
      (t'.node level index).right = [] ∧ (t'.node level index).root = true := by
  rw [finaliseLoop.eq_def]
  simp only [Tree.node_modify_self range, initial, if_true]
  refine ⟨_, rfl, ?_, ?_, ?_, ?_, ?_⟩ <;> simp [Tree.node_modify_self, range]

/-- run at the bottom of a one-node tree: the node is unbalanced, so nobody
waits there; it hashes its sides and sends the value as the root's. -/
theorem runLoop_single {t : Tree} {level index : Nat} (s : List UInt8) (self : Hasher)
    (range : t.InRange level index) (unbalanced : (t.node level index).unbalanced = true)
    (root : (t.node level index).root = true) :
    runLoop hasher 0 level index true 0 s t self =
      some (t.modify level index (fun n => { n with left := s }),
        { self with hash := hasher.hash (s ++ (t.node level index).right),
                    result := self.result ++ [hasher.hash (s ++ (t.node level index).right)] }) := by
  rw [runLoop.eq_def]
  simp [runStep, Tree.node_modify_self range, unbalanced, root]

/-- Sum with nothing written: the base hash of no bytes, whatever the tree
held before, once the first leaf exists and is initial. -/
theorem Sum_of_nothing_written {self : Hasher} {t : Tree} (tree : self.bmt = some t)
    (cur : self.cur = 0) (empty : self.segment = []) (nothingSent : self.result = [])
    (noLength : self.blockLength = none) (first : t.InRange t.leafLevel 0)
    (initial : (t.node t.leafLevel 0).initial = true) (b : List UInt8) :
    ∃ self', self.Sum hasher b = some (hasher.hash [], self') := by
  obtain ⟨t₁, finalised, range₁, leaf₁, unbalanced₁, right₁, root₁⟩ :=
    finaliseLoop_initial true 0 first initial
  simp only [Sum, tree, cur, empty, List.length_nil, finalise]
  simp [finalised, writeSegment, run, leaf₁, runLoop_single hasher [] _ range₁ unbalanced₁ root₁,
    right₁, nothingSent, releaseTree, noLength]

/-- ReadFrom on a hasher with nothing written, over a reader that holds
exactly the chunk's free bytes: the first read fills the buffer, and the loop
ends in Sum, which drops the bytes just read. The hash in EOC is the hash of
no bytes. -/
theorem ReadFrom_of_nothing_written {self : Hasher} {t : Tree} (tree : self.bmt = some t)
    (cur : self.cur = 0) (empty : self.segment = []) (nothingSent : self.result = [])
    (noLength : self.blockLength = none) (first : t.InRange t.leafLevel 0)
    (initial : (t.node t.leafLevel 0).initial = true) {d : List UInt8}
    (full : d.length = self.size * self.count) :
    ∃ self', self.ReadFrom hasher d = some ((d.length, some (.EOC (hasher.hash []))), self') := by
  have bufsize : self.size * self.count - self.size * self.cur - self.segment.length = d.length := by
    simp [cur, empty, full]
  simp only [ReadFrom, bufsize]
  rw [readFromLoop]
  by_cases nothing : d = []
  · -- an empty reader ends at once with io.EOF
    subst nothing
    obtain ⟨self', summed⟩ := Sum_of_nothing_written hasher tree cur empty nothingSent
      noLength first initial []
    exact ⟨self', by simp [readBytes, summed]⟩
  · -- one read takes the whole chunk
    obtain ⟨self', summed⟩ := Sum_of_nothing_written hasher tree cur empty nothingSent
      noLength first initial d
    exact ⟨self', by simp [readBytes, nothing, summed]⟩

end Hasher

/-- A new pool below its capacity makes a new tree for the first hasher that
resets. -/
theorem Reset_New (hasher : BaseHasher) (count capacity : Nat) (pooled : 0 < capacity) :
    ∃ self, (New (NewTreePool hasher count capacity)).Reset = some self ∧
      self.bmt = some (NewTree count) ∧ self.cur = 0 ∧ self.segment = [] ∧ self.result = [] ∧
      self.blockLength = none ∧ self.size = hasher.Size ∧ self.count = count := by
  have belowCapacity : (0 : Nat) ≠ capacity := Nat.ne_of_lt pooled
  simp [Hasher.Reset, Hasher.getTree, New, NewTreePool, TreePool.Reserve, belowCapacity]

theorem Hash_nil (hasher : BaseHasher) (count : Nat) :
    (NewRefHasher hasher count).Hash [] = some (hasher.hash []) := by
  simp [RefHasher.Hash, RefHasher.hash, NewRefHasher]

/-- ReadFrom of a full chunk on a freshly reset hasher returns, in EOC, the
reference hash of the empty chunk, whatever the chunk holds: the bytes of its
last read reach only Sum, which ignores them. -/
theorem ReadFrom_full_chunk_hashes_nothing (hasher : BaseHasher) (count capacity : Nat)
    (pooled : 0 < capacity) (d : List UInt8) (full : d.length = hasher.Size * count) :
    ∃ self self', (New (NewTreePool hasher count capacity)).Reset = some self ∧
      self.ReadFrom hasher d = some ((d.length, some (.EOC (hasher.hash []))), self') ∧
      (NewRefHasher hasher count).Hash [] = some (hasher.hash []) := by
  obtain ⟨self, reset, tree, cur, empty, nothingSent, noLength, size, segments⟩ :=
    Reset_New hasher count capacity pooled
  have leaf := NewTree_leafLevel count
  obtain ⟨self', readFrom⟩ := Hasher.ReadFrom_of_nothing_written hasher tree cur empty
    nothingSent noLength (by rw [leaf]; exact NewTree_inRange count (Nat.le_refl _) (Nat.two_pow_pos _))
    (by rw [leaf]; exact NewTree_initial count (Nat.le_refl _)) (by rw [size, segments, full])
  exact ⟨self, self', reset, readFrom, Hash_nil hasher count⟩

/-- A base hash of size 32 that brackets what it hashes. -/
def bracketHash : BaseHasher := { hash := fun b => [0xFF] ++ b ++ [0xFE], Size := 32 }

/-- Two segments of sevens: ReadFrom returns the bracket of nothing, while the
reference hash is the bracket of the data. -/
theorem ReadFrom_full_chunk_hashes_nothing_sevens :
    (∃ self self', (New (NewTreePool bracketHash 2 1)).Reset = some self ∧
      self.ReadFrom bracketHash (List.replicate 64 7) =
        some ((64, some (.EOC (bracketHash.hash []))), self') ∧
      (NewRefHasher bracketHash 2).Hash [] = some (bracketHash.hash [])) ∧
    (NewRefHasher bracketHash 2).Hash (List.replicate 64 7) ≠ some (bracketHash.hash []) :=
  ⟨ReadFrom_full_chunk_hashes_nothing bracketHash 2 1 (by decide) (List.replicate 64 7) (by decide),
    by decide⟩

end Meshbox.Bmt
