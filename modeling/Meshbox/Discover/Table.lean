import Meshbox.Common.Types
import Meshbox.Library.BigEndian
import Meshbox.Library.SortSearch
import Meshbox.Library.BoundedInsert

/-
This file models the node table of p2p/discover. The table keeps, for each
logarithmic distance from its own node, a bucket of at most bucketSize nodes,
most recently active first. add moves a known node to the front of its bucket
or puts a new one there; on a full bucket it pings the last entry, with the
table's mutex released, and replaces it only if the ping fails and the entry is
still last. stuff appends nodes to buckets with room, delete removes one.
closest gathers every entry into a list kept in order of XOR distance to a
target and cut to the number of results.

add is split at the ping: its first half marks the last entry as contested and
leaves a pending add, which a later event completes with the ping's answer.
A run is any sequence of adds, answers (to any pending add, in any order),
stuffs and deletes, so it covers every interleaving the mutex allows. Every
bucket keeps its invariant along every run: at most bucketSize entries, of
distinct IDs, all at the bucket's distance. closest returns the first entries
of the table in stable order of distance.

A node is the part of Node the table reads: its ID, the hash sha by which
distances are measured (a field, as in the source, where tests set it apart
from the ID), and the contested flag. Go's pointer to a node is its value here;
an answer clears the flag of the entry with the pinged node's ID.
-/

namespace Meshbox.Discover

open BigEndian

/-- NodeID: a node's 512-bit public key. -/
abbrev NodeID := Vector UInt8 64

structure Node where
  ID : NodeID
  sha : Meshbox.Hash
  contested : Bool
  deriving DecidableEq

def bucketSize : Nat := 16

def hashBits : Nat := 32 * 8

def nBuckets : Nat := hashBits + 1

/-! ### Distances -/

/-- distcmp: compares the distances of a and b to target byte by byte; 1 when
b is closer, -1 when a is closer, 0 when they are equal. -/
def distcmpLoop : List UInt8 → List UInt8 → List UInt8 → Int
  | t :: target, a :: as, b :: bs =>
    let da := a ^^^ t
    let db := b ^^^ t
    if da > db then 1 else if da < db then -1 else distcmpLoop target as bs
  | _, _, _ => 0

def distcmp (target a b : Meshbox.Hash) : Int := distcmpLoop target.toList a.toList b.toList

/-- lzcount: the number of leading zero bits of a byte. -/
def lzcount (x : UInt8) : Nat := if x = 0 then 8 else 7 - x.toNat.log2

def logdistLoop : List UInt8 → List UInt8 → Nat → Nat
  | x :: as, y :: bs, lz => if x ^^^ y = 0 then logdistLoop as bs (lz + 8) else lz + lzcount (x ^^^ y)
  | _, _, lz => lz

/-- logdist: log2 of a XOR b, the number of bits after the leading zeros. -/
def logdist (a b : Meshbox.Hash) : Nat := 32 * 8 - logdistLoop a.toList b.toList 0

theorem logdist_lt (a b : Meshbox.Hash) : logdist a b < nBuckets := by
  unfold logdist nBuckets hashBits
  omega

/-- The XOR distance of a to target as a number, the bytes read big-endian. -/
def dist (target a : Meshbox.Hash) : Nat := ofBytes (List.zipWith (· ^^^ ·) a.toList target.toList)

theorem distcmpLoop_eq : ∀ (target as bs : List UInt8), as.length = target.length → bs.length = target.length →
    distcmpLoop target as bs =
      if ofBytes (List.zipWith (· ^^^ ·) bs target) < ofBytes (List.zipWith (· ^^^ ·) as target) then 1
      else if ofBytes (List.zipWith (· ^^^ ·) as target) < ofBytes (List.zipWith (· ^^^ ·) bs target) then -1
      else 0
  | [], [], [], _, _ => rfl
  | t :: target, a :: as, b :: bs, aLength, bLength => by
    have restA : (List.zipWith (· ^^^ ·) as target).length = (List.zipWith (· ^^^ ·) bs target).length := by
      simp only [List.length_zipWith]
      simp only [List.length_cons, Nat.add_right_cancel_iff] at aLength bLength
      omega
    -- the first differing byte decides; equal first bytes leave it to the rest
    rcases Nat.lt_trichotomy (a ^^^ t).toNat (b ^^^ t).toNat with closer | same | farther
    · have ordered : ofBytes (List.zipWith (· ^^^ ·) (a :: as) (t :: target)) <
          ofBytes (List.zipWith (· ^^^ ·) (b :: bs) (t :: target)) := ofBytes_cons_lt_of_lt restA closer
      have notFarther : ¬ (a ^^^ t) > (b ^^^ t) := by rw [gt_iff_lt, UInt8.lt_iff_toNat_lt]; omega
      simp only [distcmpLoop, if_neg notFarther, if_pos (UInt8.lt_iff_toNat_lt.mpr closer),
        if_neg (Nat.not_lt.mpr (Nat.le_of_lt ordered)), if_pos ordered]
    · have equal : a ^^^ t = b ^^^ t := UInt8.toNat_inj.mp same
      have fartherRest : ofBytes (List.zipWith (· ^^^ ·) (b :: bs) (t :: target)) <
          ofBytes (List.zipWith (· ^^^ ·) (a :: as) (t :: target)) ↔
            ofBytes (List.zipWith (· ^^^ ·) bs target) < ofBytes (List.zipWith (· ^^^ ·) as target) := by
        show ofBytes ((b ^^^ t) :: _) < ofBytes ((a ^^^ t) :: _) ↔ _
        rw [equal]
        exact ofBytes_cons_lt_cons_iff _ restA.symm
      have nearerRest : ofBytes (List.zipWith (· ^^^ ·) (a :: as) (t :: target)) <
          ofBytes (List.zipWith (· ^^^ ·) (b :: bs) (t :: target)) ↔
            ofBytes (List.zipWith (· ^^^ ·) as target) < ofBytes (List.zipWith (· ^^^ ·) bs target) := by
        show ofBytes ((a ^^^ t) :: _) < ofBytes ((b ^^^ t) :: _) ↔ _
        rw [equal]
        exact ofBytes_cons_lt_cons_iff _ restA
      simp only [distcmpLoop, equal, UInt8.lt_irrefl, gt_iff_lt, if_false, fartherRest, nearerRest]
      exact distcmpLoop_eq target as bs (by simpa using aLength) (by simpa using bLength)
    · have ordered : ofBytes (List.zipWith (· ^^^ ·) (b :: bs) (t :: target)) <
          ofBytes (List.zipWith (· ^^^ ·) (a :: as) (t :: target)) := ofBytes_cons_lt_of_lt restA.symm farther
      simp only [distcmpLoop, gt_iff_lt, if_pos (UInt8.lt_iff_toNat_lt.mpr farther), if_pos ordered]
  | [], _ :: _, _, aLength, _ => by simp at aLength
  | [], [], _ :: _, _, bLength => by simp at bLength
  | _ :: _, [], _, aLength, _ => by simp at aLength
  | _ :: _, _ :: _, [], _, bLength => by simp at bLength

/-- distcmp compares the distances as numbers. -/
theorem distcmp_eq (target a b : Meshbox.Hash) :
    distcmp target a b =
      if dist target b < dist target a then 1 else if dist target a < dist target b then -1 else 0 :=
  distcmpLoop_eq target.toList a.toList b.toList (by simp) (by simp)

theorem distcmp_pos_iff (target a b : Meshbox.Hash) : distcmp target a b > 0 ↔ dist target b < dist target a := by
  rw [distcmp_eq]
  split_ifs <;> simp_all

theorem distcmp_nonpos_iff (target a b : Meshbox.Hash) : distcmp target a b ≤ 0 ↔ dist target a ≤ dist target b := by
  rw [← not_lt, ← not_lt, gt_iff_lt.symm, distcmp_pos_iff]

/-! ### Buckets -/

/-- bucket.bump: the entry with n's ID, if any, is taken out and n goes to the
front in its place. -/
def bump (entries : List Node) (n : Node) : Option (List Node) :=
  match entries.findIdx? (·.ID == n.ID) with
  | some i => some (n :: (entries.take i ++ entries.drop (i + 1)))
  | none => none

/-- bucket.replace: n goes to the front, shifting the entries down and the last
one out of a full bucket, unless its ID is there already or the bucket is full
and its last entry is not last. -/
def replace (entries : List Node) (n : Node) (last : Option Node) : Option (List Node) :=
  if entries.any (·.ID == n.ID) then none
  else if entries.length = bucketSize ∧
      (match last with
       | none => true
       | some last => (entries[bucketSize - 1]?).map Node.ID != some last.ID) = true then none
  else if entries.length < bucketSize then some (n :: entries)
  else some (n :: entries.dropLast)

/-- A bucket's invariant: at most bucketSize entries, of distinct IDs, each at
logarithmic distance i from the table's own node. -/
structure BucketOk (own : Node) (i : Nat) (entries : List Node) : Prop where
  bounded : entries.length ≤ bucketSize
  distinct : (entries.map Node.ID).Nodup
  atDistance : ∀ n ∈ entries, logdist own.sha n.sha = i

theorem BucketOk.sublist {own : Node} {i : Nat} {entries kept : List Node} (ok : BucketOk own i entries)
    (sub : kept.Sublist entries) : BucketOk own i kept :=
  ⟨le_trans sub.length_le ok.bounded, (sub.map Node.ID).nodup ok.distinct,
    fun n member => ok.atDistance n (sub.subset member)⟩

/-- Entries with the same IDs and hashes in the same places, such as after a
change of contested flags, keep the invariant. -/
theorem BucketOk.of_keys {own : Node} {i : Nat} {entries changed : List Node} (ok : BucketOk own i entries)
    (ids : changed.map Node.ID = entries.map Node.ID) (shas : changed.map Node.sha = entries.map Node.sha) :
    BucketOk own i changed := by
  refine ⟨?_, ids ▸ ok.distinct, fun n member => ?_⟩
  · have sameLength := congrArg List.length ids
    simp only [List.length_map] at sameLength
    exact sameLength ▸ ok.bounded
  · have hashed : n.sha ∈ entries.map Node.sha := shas ▸ List.mem_map_of_mem member
    obtain ⟨m, member', same⟩ := List.mem_map.mp hashed
    rw [← same]
    exact ok.atDistance m member'

/-- Changing an entry's flags changes neither its ID nor its hash. -/
theorem BucketOk.map_flags {own : Node} {i : Nat} {entries : List Node} (ok : BucketOk own i entries) (f : Node → Node)
    (sameID : ∀ e, (f e).ID = e.ID) (sameSha : ∀ e, (f e).sha = e.sha) : BucketOk own i (entries.map f) :=
  ok.of_keys (by simp [List.map_map, Function.comp_def, sameID]) (by simp [List.map_map, Function.comp_def, sameSha])

theorem BucketOk.set_flags {own : Node} {i : Nat} {entries : List Node} (ok : BucketOk own i entries) {k : Nat}
    {e changed : Node} (at_k : entries[k]? = some e) (sameID : changed.ID = e.ID) (sameSha : changed.sha = e.sha) :
    BucketOk own i (entries.set k changed) := by
  obtain ⟨inside, atK⟩ := List.getElem?_eq_some_iff.mp at_k
  refine ok.of_keys ?_ ?_
  · apply List.ext_getElem?
    intro j
    by_cases same : j = k
    · subst same
      simp [atK, sameID, inside]
    · simp [Ne.symm same]
  · apply List.ext_getElem?
    intro j
    by_cases same : j = k
    · subst same
      simp [atK, sameSha, inside]
    · simp [Ne.symm same]

theorem bump_ok {self n : Node} {i : Nat} {entries bumped : List Node} (ok : BucketOk self i entries)
    (here : logdist self.sha n.sha = i) (bumps : bump entries n = some bumped) : BucketOk self i bumped := by
  unfold bump at bumps
  split at bumps
  · rename_i j found
    cases bumps
    obtain ⟨inside, sameID, _⟩ := List.findIdx?_eq_some_iff_getElem.mp found
    have split : entries = entries.take j ++ entries[j] :: entries.drop (j + 1) := by simp
    -- n takes the place of the entry with its ID: the IDs are the same up to order
    have ids : ((n :: (entries.take j ++ entries.drop (j + 1))).map Node.ID).Perm (entries.map Node.ID) := by
      conv_rhs => rw [split]
      rw [beq_iff_eq] at sameID
      simp only [List.map_cons, List.map_append, sameID]
      exact List.perm_middle.symm
    refine ⟨?_, ids.nodup_iff.mpr ok.distinct, fun m member => ?_⟩
    · have := ok.bounded
      simp only [List.length_cons, List.length_append, List.length_take, List.length_drop]
      omega
    · rcases List.mem_cons.mp member with rfl | rest
      · exact here
      · refine ok.atDistance m ?_
        rw [split, List.mem_append, List.mem_cons]
        rcases List.mem_append.mp rest with front | back
        · exact Or.inl front
        · exact Or.inr (Or.inr back)
  · cases bumps

theorem replace_ok {self n : Node} {i : Nat} {entries replaced : List Node} {last : Option Node}
    (ok : BucketOk self i entries) (here : logdist self.sha n.sha = i) (replaces : replace entries n last = some replaced) :
    BucketOk self i replaced := by
  unfold replace at replaces
  split_ifs at replaces with present refused room
  · -- room left: n goes in front of all the entries
    cases replaces
    have fresh : n.ID ∉ entries.map Node.ID := by
      simp only [List.any_eq_true, beq_iff_eq, not_exists, not_and] at present
      simpa using fun m member sameID => present m member sameID
    exact ⟨by simp only [List.length_cons]; unfold bucketSize at room ⊢; omega,
      List.nodup_cons.mpr ⟨fresh, ok.distinct⟩,
      fun m member => (List.mem_cons.mp member).elim (fun same => same ▸ here) (ok.atDistance m)⟩
  · -- a full bucket: the last entry makes room
    cases replaces
    have fresh : n.ID ∉ entries.map Node.ID := by
      simp only [List.any_eq_true, beq_iff_eq, not_exists, not_and] at present
      simpa using fun m member sameID => present m member sameID
    have kept : entries.dropLast.Sublist entries := List.dropLast_sublist entries
    refine ⟨?_, List.nodup_cons.mpr ⟨fun member => fresh ((kept.map Node.ID).subset member),
      (kept.map Node.ID).nodup ok.distinct⟩,
      fun m member => (List.mem_cons.mp member).elim (fun same => same ▸ here) (fun rest => ok.atDistance m (kept.subset rest))⟩
    have := ok.bounded
    simp only [List.length_cons, List.length_dropLast]
    unfold bucketSize at this room ⊢
    omega

/-! ### The table -/

/-- Table: the table's own node and its buckets, one per distance. -/
structure Table where
  self : Node
  buckets : Fin nBuckets → List Node

/-- newTable: every bucket empty. -/
def newTable (self : Node) : Table := { self, buckets := fun _ => [] }

namespace Table

/-- The bucket of a node: tab.buckets[logdist(tab.self.sha, n.sha)]. -/
def bucketOf (tab : Table) (n : Node) : Fin nBuckets := ⟨logdist tab.self.sha n.sha, logdist_lt _ _⟩

def setBucket (tab : Table) (i : Fin nBuckets) (entries : List Node) : Table :=
  { tab with buckets := Function.update tab.buckets i entries }

/-- Every entry of every bucket, bucket after bucket. -/
def nodes (tab : Table) : List Node := (List.finRange nBuckets).flatMap tab.buckets

/-- The Kademlia invariant of the table: every bucket is in order. -/
def Kademlia (tab : Table) : Prop := ∀ i : Fin nBuckets, BucketOk tab.self i (tab.buckets i)

@[simp] theorem self_setBucket (tab : Table) (i : Fin nBuckets) (entries : List Node) :
    (tab.setBucket i entries).self = tab.self := rfl

@[simp] theorem buckets_setBucket_self (tab : Table) (i : Fin nBuckets) (entries : List Node) :
    (tab.setBucket i entries).buckets i = entries := by
  simp [setBucket]

theorem buckets_setBucket_of_ne (tab : Table) {i j : Fin nBuckets} (entries : List Node) (other : j ≠ i) :
    (tab.setBucket i entries).buckets j = tab.buckets j := by
  simp [setBucket, Function.update_of_ne other]

theorem Kademlia.setBucket {tab : Table} (kademlia : tab.Kademlia) {i : Fin nBuckets} {entries : List Node}
    (ok : BucketOk tab.self i.val entries) : (tab.setBucket i entries).Kademlia := by
  intro j
  by_cases same : j = i
  · subst same
    simpa using ok
  · simpa [buckets_setBucket_of_ne _ _ same] using kademlia j

/-- stuff: each node other than the table's own goes at the end of its bucket
unless its ID is there or the bucket is full. -/
def stuff (tab : Table) (nodes : List Node) : Table :=
  nodes.foldl (fun tab n =>
    if n.ID = tab.self.ID then tab
    else
      let bucket := tab.buckets (tab.bucketOf n)
      if bucket.any (·.ID == n.ID) then tab
      else if bucket.length < bucketSize then tab.setBucket (tab.bucketOf n) (bucket ++ [n])
      else tab) tab

/-- delete: the first entry with the node's ID leaves its bucket. -/
def delete (tab : Table) (node : Node) : Table :=
  let b := tab.bucketOf node
  match (tab.buckets b).findIdx? (·.ID == node.ID) with
  | some i => tab.setBucket b ((tab.buckets b).eraseIdx i)
  | none => tab

/-- An add waiting, with the mutex released, for the ping of oldest. -/
structure PendingAdd where
  new : Node
  oldest : Node

/-- add up to the ping: a known node is bumped; in a full bucket the last
entry is marked contested and pinged, unless it is contested already; in a
bucket with room the node is put in front. -/
def addBegin (tab : Table) (new : Node) : Table × Option PendingAdd :=
  let b := tab.bucketOf new
  match bump (tab.buckets b) new with
  | some entries => (tab.setBucket b entries, none)
  | none =>
    if (tab.buckets b).length = bucketSize then
      match (tab.buckets b)[bucketSize - 1]? with
      | some oldest =>
        if oldest.contested then (tab, none)
        else (tab.setBucket b ((tab.buckets b).set (bucketSize - 1) { oldest with contested := true }),
          some { new, oldest })
      | none => (tab, none)
    else
      match replace (tab.buckets b) new none with
      | some entries => (tab.setBucket b entries, none)
      | none => (tab, none)

/-- add after the ping: the flag is cleared, and if the ping was not answered
the new node replaces oldest, if that is still the last entry. -/
def addEnd (tab : Table) (pending : PendingAdd) (responded : Bool) : Table :=
  let b := tab.bucketOf pending.new
  let tab := tab.setBucket b ((tab.buckets b).map fun e =>
    if e.ID = pending.oldest.ID then { e with contested := false } else e)
  if responded then tab
  else
    match replace (tab.buckets b) pending.new (some pending.oldest) with
    | some entries => tab.setBucket b entries
    | none => tab

end Table

/-! ### Every operation keeps every bucket in order -/

namespace Table

variable {tab : Table}

theorem Kademlia.addBegin (kademlia : tab.Kademlia) (new : Node) : (tab.addBegin new).1.Kademlia := by
  have here : logdist tab.self.sha new.sha = (tab.bucketOf new).val := rfl
  have ok := kademlia (tab.bucketOf new)
  unfold Table.addBegin
  dsimp only
  split
  · rename_i entries bumped
    exact kademlia.setBucket (bump_ok ok here bumped)
  · split
    · -- a full bucket: its last entry is marked and pinged, or left to the add pinging it
      split
      · rename_i oldest oldestAt
        split
        · exact kademlia
        · exact kademlia.setBucket (ok.set_flags oldestAt rfl rfl)
      · exact kademlia
    · split
      · rename_i entries replaced
        exact kademlia.setBucket (replace_ok ok here replaced)
      · exact kademlia

theorem Kademlia.addEnd (kademlia : tab.Kademlia) (pending : PendingAdd) (responded : Bool) :
    (tab.addEnd pending responded).Kademlia := by
  have here : logdist tab.self.sha pending.new.sha = (tab.bucketOf pending.new).val := rfl
  -- clearing the flag keeps the bucket in order
  have cleared := kademlia.setBucket (i := tab.bucketOf pending.new)
    ((kademlia (tab.bucketOf pending.new)).map_flags
      (fun e => if e.ID = pending.oldest.ID then { e with contested := false } else e)
      (fun e => by split <;> rfl) (fun e => by split <;> rfl))
  unfold Table.addEnd
  dsimp only
  split
  · exact cleared
  · split
    · rename_i entries replaced
      refine cleared.setBucket (replace_ok (cleared (tab.bucketOf pending.new)) ?_ replaced)
      exact here
    · exact cleared

theorem Kademlia.stuff (kademlia : tab.Kademlia) (nodes : List Node) : (tab.stuff nodes).Kademlia := by
  unfold Table.stuff
  induction nodes generalizing tab with
  | nil => exact kademlia
  | cons n rest inductionHypothesis =>
    simp only [List.foldl_cons]
    apply inductionHypothesis
    split_ifs with own present room
    · exact kademlia
    · exact kademlia
    · -- n goes at the end of a bucket with room that does not hold its ID
      have ok := kademlia (tab.bucketOf n)
      have fresh : n.ID ∉ (tab.buckets (tab.bucketOf n)).map Node.ID := by
        simp only [List.any_eq_true, beq_iff_eq, not_exists, not_and] at present
        simpa using fun m member sameID => present m member sameID
      refine kademlia.setBucket ⟨?_, ?_, fun m member => ?_⟩
      · simp only [List.length_append, List.length_cons, List.length_nil]
        unfold bucketSize at room ⊢
        omega
      · rw [List.map_append, List.nodup_append]
        refine ⟨ok.distinct, List.nodup_singleton _, fun a first b second same => ?_⟩
        simp only [List.map_cons, List.map_nil, List.mem_singleton] at second
        rw [same, second] at first
        exact fresh first
      · rcases List.mem_append.mp member with old | added
        · exact ok.atDistance m old
        · rw [List.mem_singleton.mp added]
          rfl
    · exact kademlia

theorem Kademlia.delete (kademlia : tab.Kademlia) (node : Node) : (tab.delete node).Kademlia := by
  unfold Table.delete
  dsimp only
  split
  · rename_i i _
    exact kademlia.setBucket ((kademlia (tab.bucketOf node)).sublist (List.eraseIdx_sublist _ _))
  · exact kademlia

end Table

/-! ### Runs -/

/-- The table with the adds that wait for their pings. -/
structure Discovery where
  tab : Table
  pending : List Table.PendingAdd

/-- What happens to the table: an add up to its ping, the answer to the ping
of one waiting add, a stuff, or a delete. -/
inductive Event where
  | add (new : Node)
  | answer (which : Nat) (responded : Bool)
  | stuff (nodes : List Node)
  | delete (node : Node)

def Event.apply (s : Discovery) : Event → Discovery
  | .add new =>
    let (tab, waiting) := s.tab.addBegin new
    { tab, pending := s.pending ++ waiting.toList }
  | .answer which responded =>
    match s.pending[which]? with
    | some pending => { tab := s.tab.addEnd pending responded, pending := s.pending.eraseIdx which }
    | none => s
  | .stuff nodes => { s with tab := s.tab.stuff nodes }
  | .delete node => { s with tab := s.tab.delete node }

def run (s : Discovery) (events : List Event) : Discovery := events.foldl Event.apply s

theorem Event.apply_kademlia {s : Discovery} (kademlia : s.tab.Kademlia) (event : Event) :
    (event.apply s).tab.Kademlia := by
  cases event with
  | add new => exact kademlia.addBegin new
  | answer which responded =>
    simp only [Event.apply]
    split
    · exact kademlia.addEnd _ responded
    · exact kademlia
  | stuff nodes => exact kademlia.stuff nodes
  | delete node => exact kademlia.delete node

theorem run_kademlia : ∀ (events : List Event) (s : Discovery), s.tab.Kademlia → (run s events).tab.Kademlia := by
  intro events
  induction events with
  | nil => intro s kademlia; exact kademlia
  | cons event rest inductionHypothesis =>
    intro s kademlia
    exact inductionHypothesis _ (Event.apply_kademlia kademlia event)

theorem newTable_kademlia (self : Node) : (newTable self).Kademlia := fun _ =>
  ⟨by simp [newTable, bucketSize], by simp [newTable], fun _ member => by simp [newTable] at member⟩

/-! ### closest -/

/-- nodesByDistance.push: n goes before the first entry farther from target,
found by sort.Search, and the list keeps at most maxElems entries. -/
def push (target : Meshbox.Hash) (entries : List Node) (n : Node) (maxElems : Int) : List Node :=
  let ix := SortSearch.Search entries.length fun i =>
    (entries[i]?.map fun e => decide (distcmp target e.sha n.sha > 0)).getD false
  let entries := if (entries.length : Int) < maxElems then entries ++ [n] else entries
  if ix = entries.length then entries
  -- copy(h.entries[ix+1:], h.entries[ix:]); h.entries[ix] = n
  else (entries.take ix ++ n :: entries.drop ix).take entries.length

/-- closest: every entry of every bucket pushed into a list by distance to
target, of at most nresults entries. -/
def Table.closest (tab : Table) (target : Meshbox.Hash) (nresults : Int) : List Node :=
  tab.nodes.foldl (fun close n => push target close n nresults) []

section Closest

open BoundedInsert

variable (target : Meshbox.Hash)

/-- The distance by which closest orders the nodes. -/
def distanceOf (n : Node) : Nat := dist target n.sha

/-- On a list in order of distance and within the bound, push is the ordered
insertion cut to the bound. -/
theorem push_eq {entries : List Node} (n : Node) {k : Nat}
    (sorted : entries.Pairwise fun x y => distanceOf target x ≤ distanceOf target y) (within : entries.length ≤ k) :
    push target entries n k = (entries.orderedInsert (before (distanceOf target)) n).take k := by
  -- sort.Search finds where the ordered insertion puts n
  have search : SortSearch.Search entries.length (fun i =>
      (entries[i]?.map fun e => decide (distcmp target e.sha n.sha > 0)).getD false) =
      entries.findIdx fun e => decide (before (distanceOf target) n e) := by
    refine SortSearch.Search_eq_findIdx entries _ ?_ fun i inside => ?_
    · refine sorted.imp fun {x y} closer farther => ?_
      simp only [before, decide_eq_true_eq] at farther ⊢
      exact lt_of_lt_of_le farther closer
    · simp only [List.getElem?_eq_getElem inside, Option.map_some, Option.getD_some, before, distanceOf]
      exact decide_eq_decide.mpr (distcmp_pos_iff _ _ _)
  have inserted := orderedInsert_eq_take_findIdx (before (distanceOf target)) n entries
  have placed : entries.findIdx (fun e => decide (before (distanceOf target) n e)) ≤ entries.length :=
    List.findIdx_le_length
  generalize entries.findIdx (fun e => decide (before (distanceOf target) n e)) = ix at search inserted placed
  unfold push
  simp only [search, inserted]
  by_cases room : (entries.length : Int) < k
  · -- n is appended and then moved into place: the list grows by one
    rw [if_pos room, List.length_append, List.length_singleton, if_neg (by omega),
      List.take_append_of_le_length placed, List.drop_append_of_le_length placed]
    have whole : (entries.take ix ++ n :: entries.drop ix).length = entries.length + 1 := by
      simp only [List.length_append, List.length_take, List.length_cons, List.length_drop]
      omega
    rw [List.take_of_length_le (by omega : (entries.take ix ++ n :: entries.drop ix).length ≤ k),
      show entries.take ix ++ n :: (entries.drop ix ++ [n]) = (entries.take ix ++ n :: entries.drop ix) ++ [n] by simp,
      List.take_left' whole]
  · -- a full list: n moves in and the last entry out, or n is left out
    have full : entries.length = k := by omega
    rw [if_neg room]
    by_cases atEnd : ix = entries.length
    · rw [if_pos atEnd, atEnd, List.drop_length, List.take_length, ← full, List.take_left' rfl]
    · rw [if_neg atEnd, full]

/-- closest is the first nresults of the table's nodes in stable order of
distance. -/
theorem closest_eq (tab : Table) (k : Nat) : tab.closest target k = (inserted (distanceOf target) tab.nodes).take k := by
  unfold Table.closest
  suffices cut : ∀ (nodes acc : List Node), acc.Pairwise (fun x y => distanceOf target x ≤ distanceOf target y) →
      acc.length ≤ k → nodes.foldl (fun close n => push target close n k) acc =
        nodes.foldl (fun acc a => (acc.orderedInsert (before (distanceOf target)) a).take k) acc by
    rw [cut tab.nodes [] List.Pairwise.nil (Nat.zero_le k)]
    have once := foldl_take_orderedInsert (before (distanceOf target)) k tab.nodes []
    rw [List.take_nil] at once
    rw [once, inserted]
  intro nodes
  induction nodes with
  | nil => intro acc _ _; rfl
  | cons n rest inductionHypothesis =>
    intro acc sorted within
    simp only [List.foldl_cons]
    rw [push_eq target n sorted within]
    -- the cut insertion is again in order and within the bound
    exact inductionHypothesis _ ((pairwise_orderedInsert _ n acc sorted).sublist (List.take_sublist _ _))
      (List.length_take_le _ _)

end Closest

/-! ### The Kademlia table -/

/-- Along every interleaving of adds (with the mutex released during their
pings), answers, stuffs and deletes from a new table, every bucket holds at
most bucketSize nodes of distinct IDs at its distance; and closest(target, k)
returns min(k, table size) nodes of the table in order of distance, none of the
others closer than the last. -/
theorem table_keeps_kademlia_invariant :
    (∀ (self : Node) (events : List Event), (run { tab := newTable self, pending := [] } events).tab.Kademlia) ∧
    ∀ (tab : Table) (target : Meshbox.Hash) (k : Nat),
      (tab.closest target k).length = min k tab.nodes.length ∧
      (tab.closest target k).Pairwise (fun a b => distcmp target a.sha b.sha ≤ 0) ∧
      (tab.closest target k).Subperm tab.nodes ∧
      ∀ n ∈ tab.nodes, n ∉ tab.closest target k →
        ∀ last ∈ (tab.closest target k).getLast?, distcmp target last.sha n.sha ≤ 0 := by
  refine ⟨fun self events => run_kademlia events _ (newTable_kademlia self), fun tab target k => ?_⟩
  have perm := BoundedInsert.inserted_perm (distanceOf target) tab.nodes
  have sorted := BoundedInsert.pairwise_inserted (distanceOf target) tab.nodes
  rw [closest_eq]
  refine ⟨by rw [List.length_take, perm.length_eq], ?_, ?_, fun n member outside last lastKept => ?_⟩
  · exact (sorted.sublist (List.take_sublist _ _)).imp fun closer => (distcmp_nonpos_iff _ _ _).mpr closer
  · exact (List.take_sublist _ _).subperm.trans perm.subperm
  · exact (distcmp_nonpos_iff _ _ _).mpr
      (BoundedInsert.le_of_not_mem_take _ sorted k (perm.mem_iff.mpr member) outside lastKept)

end Meshbox.Discover
