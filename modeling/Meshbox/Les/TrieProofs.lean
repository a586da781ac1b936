/-
Merkle proofs of trie entries between a les server and a light client
(les/handler.go, les/odr_requests.go). The server answers each request of a
proofs message on the trie the request names with what Prove writes for the
request's key: under les/1 into a NodeList of its own, under les/2 into one
NodeSet for the whole message, sent as the set's NodeList. The light client's
TrieRequest.Validate builds a NodeSet of the nodes of the reply and runs
VerifyProof on it against the state root it asked about; under les/2 it reads
the set through a readTraceDB and rejects the reply when the set holds a node
VerifyProof did not read.

Prove writes the proof elements of the key, the root and the big nodes of its
path, and VerifyProof on a database that holds nodes under their hashes reads
exactly these (the walk of Proving, with the reads it makes). So the exchange
works both ways. The proof a server sends for a trie that spells out a tree is
accepted under both versions, and the node set kept answers the key with the
tree's value. Whatever nodes a peer sends, a reply Validate accepts makes the
node set kept answer with the tree's value, and under les/2 the set holds the
proof elements and nothing else, unless two of the encodings involved collide.

The header and account lookups that give a request's trie enter as a function
trieOf; the flow control that may reject a message (reject) is left out.
-/

import Meshbox.Light.NodeSet
import Meshbox.Trie.Proving

namespace Meshbox.Les

open Meshbox.Trie Meshbox.Light Meshbox.Rlp Radix

/-! ### Reading a proof through a readTraceDB -/

/-- readTraceDB: a database reader that records, as a set, the keys it is
asked for. -/
structure readTraceDB where
  db : List UInt8 → Option (List UInt8)
  reads : List (List UInt8)

/-- Get: the key recorded, and read from the database below. -/
def readTraceDB.Get (db : readTraceDB) (k : List UInt8) : Option (List UInt8) × readTraceDB :=
  (db.db k, { db with reads := db.reads.insert k })

/-- One turn of VerifyProof reading its proof database through a readTraceDB:
the turn's one read, of the wanted hash, goes through Get, which records it. -/
def verifyStepReads (state : ProofState × readTraceDB) :
    Outcome ProofError (((Option (List UInt8) × Nat) × readTraceDB) ⊕ (ProofState × readTraceDB)) :=
  let traced := (state.2.Get state.1.wantHash).2
  verifyStep (fun hash => (state.2.Get hash).1) state.1 >>= fun turn =>
    .ok (turn.map (fun result => (result, traced)) fun next => (next, traced))

/-- VerifyProof on a readTraceDB: its result, and the reader with the keys read. -/
def VerifyProofReads (fuel : Nat) (rootHash : Hash) (key : List UInt8) (proofDb : readTraceDB) :
    Option (Outcome ProofError ((Option (List UInt8) × Nat) × readTraceDB)) :=
  Loop.run verifyStepReads fuel ({ index := 0, key := keybytesToHex key, wantHash := rootHash.toList }, proofDb)

/-! ### The light client -/

/-- A reply to a proofs request as Validate takes it: a les/1 ProofsV1 message
with a node list per request, a les/2 ProofsV2 message with one node list, or a
message of another type. -/
inductive ProofsMsg where
  | MsgProofsV1 (proofs : List (List (List UInt8)))
  | MsgProofsV2 (proofs : List (List UInt8))
  | other

/-- The nodes a reply carries. -/
def ProofsMsg.nodes : ProofsMsg → List (List UInt8)
  | .MsgProofsV1 proofs => proofs.flatten
  | .MsgProofsV2 proofs => proofs
  | .other => []

/-- The errors of Validate: "merkle proof verification failed" wraps the
error of VerifyProof. -/
inductive ValidateError where
  | errInvalidEntryCount
  | verificationFailed (err : ProofError)
  | errUselessNodes
  | errInvalidMessageType
deriving DecidableEq, Repr

/-- The outcome of Validate from the outcome of VerifyProof: the node set kept
when the proof checks out. -/
def verified {α : Type} (nodeSet : NodeSet) : Outcome ProofError α → Outcome ValidateError NodeSet
  | .ok _ => .ok nodeSet
  | .error err => .error (.verificationFailed err)
  | .panic => .panic

/-- TrieRequest.Validate: checks a reply to a request for key in the trie of
root, running VerifyProof for at most fuel turns (none when they run out), and
gives the node set it keeps as the request's proof. -/
def TrieRequest.Validate (keccak : List UInt8 → Hash) (fuel : Nat) (root : Hash) (key : List UInt8)
    (msg : ProofsMsg) : Option (Outcome ValidateError NodeSet) :=
  match msg with
  | .MsgProofsV1 proofs =>
    match proofs with
    | [proof] =>
      let nodeSet := NodeList.NodeSet keccak proof
      (VerifyProof fuel root key nodeSet.Get).map (verified nodeSet)
    | _ => some (.error .errInvalidEntryCount)
  | .MsgProofsV2 proofs =>
    let nodeSet := NodeList.NodeSet keccak proofs
    (VerifyProofReads fuel root key ⟨nodeSet.Get, []⟩).map fun outcome =>
      match outcome with
      | .ok result =>
        -- check if all nodes have been read by VerifyProof
        if result.2.reads.length ≠ nodeSet.KeyCount then .error .errUselessNodes else .ok nodeSet
      | .error err => .error (.verificationFailed err)
      | .panic => .panic
  | .other => some (.error .errInvalidMessageType)

/-! ### The server -/

/-- ProofReq: a request for the proof of Key in the trie of the block BHash, or
in the storage trie of the account AccKey there, from level FromLevel on. -/
structure ProofReq where
  BHash : Hash
  AccKey : List UInt8
  Key : List UInt8
  FromLevel : Nat

/-- softResponseLimit: the size a reply stops growing at, 2 MiB. -/
def softResponseLimit : Nat :=
  2 * 1024 * 1024

/-- Prove into another DatabaseWriter: the Puts Prove makes, made on the writer
in order. Prove fails only in its path loop, before its first Put, so a failed
Prove leaves the writer as it was; the handlers ignore its error. -/
def proveInto {W : Type} (keccak : List UInt8 → Hash) (t : Trie) (fuel : Nat) (key : List UInt8) (fromLevel : Nat)
    (put : W → List UInt8 → List UInt8 → W) (writer : W) : Option (Outcome Empty W) :=
  (t.Prove keccak fuel key fromLevel NewMemDatabase).map fun proved =>
    match proved with
    | .ok proofDb => .ok (proofDb.writes.reverse.foldl (fun writer write => put writer write.1 write.2) writer)
    | .error _ => .ok writer
    | .panic => .panic

/-- The proofs of a GetProofsV1 message, bytes the size of those before: each
request's proof from level 0 into a NodeList of its own, until softResponseLimit
bytes are sent. trieOf gives the trie a request names, none when the header or
the account is not found. -/
def GetProofsV1 (keccak : List UInt8 → Hash) (trieOf : ProofReq → Option Trie) (fuel : Nat) :
    List ProofReq → Nat → Option (Outcome Empty (List (List (List UInt8))))
  | [], _ => some (.ok [])
  | req :: reqs, bytes =>
    if softResponseLimit ≤ bytes then some (.ok [])
    else
      match trieOf req with
      | none => GetProofsV1 keccak trieOf fuel reqs bytes
      | some tr =>
        match proveInto keccak tr fuel req.Key 0 NodeList.Put [] with
        | none => none
        | some (.ok proof) =>
          (GetProofsV1 keccak trieOf fuel reqs (bytes + NodeList.DataSize proof)).map fun rest =>
            rest >>= fun proofs => .ok (proof :: proofs)
        | some (.error err) => err.elim
        | some .panic => some .panic

/-- The node set of a GetProofsV2 message, from nodes: each request's proof
from its level into the one set, until it holds softResponseLimit bytes. The
reply is the set's NodeList. -/
def GetProofsV2 (keccak : List UInt8 → Hash) (trieOf : ProofReq → Option Trie) (fuel : Nat) :
    List ProofReq → NodeSet → Option (Outcome Empty NodeSet)
  | [], nodes => some (.ok nodes)
  | req :: reqs, nodes =>
    if softResponseLimit ≤ nodes.DataSize then some (.ok nodes)
    else
      match trieOf req with
      | none => GetProofsV2 keccak trieOf fuel reqs nodes
      | some tr =>
        match proveInto keccak tr fuel req.Key req.FromLevel NodeSet.Put nodes with
        | none => none
        | some (.ok nodes) => GetProofsV2 keccak trieOf fuel reqs nodes
        | some (.error err) => err.elim
        | some .panic => some .panic

/-! ### The reads VerifyProof makes -/

theorem verifyStepReads_eq (state : ProofState × readTraceDB) :
    verifyStepReads state = verifyStep state.2.db state.1 >>= fun turn =>
      .ok (turn.map (fun result => (result, { state.2 with reads := state.2.reads.insert state.1.wantHash }))
        fun next => (next, { state.2 with reads := state.2.reads.insert state.1.wantHash })) :=
  rfl

/-- Reading the proof database through a readTraceDB leaves VerifyProof's
result as it is. -/
theorem VerifyProofReads_result (fuel : Nat) (rootHash : Hash) (key : List UInt8) (proofDb : readTraceDB) :
    (VerifyProofReads fuel rootHash key proofDb).map (fun outcome => outcome >>= fun result => .ok result.1) =
      VerifyProof fuel rootHash key proofDb.db := by
  -- a turn is VerifyProof's turn on the database below, which stays the same
  have projects : ∀ current : ProofState × readTraceDB, current.2.db = proofDb.db →
      (verifyStepReads current >>= fun turn => .ok (Sum.map Prod.fst Prod.fst turn)) =
        verifyStep proofDb.db current.1 := by
    intro current same
    rw [verifyStepReads_eq, same, Outcome.bind_assoc]
    cases verifyStep proofDb.db current.1 with
    | ok turn => cases turn <;> rfl
    | error err => rfl
    | panic => rfl
  have keeps : ∀ current next : ProofState × readTraceDB, current.2.db = proofDb.db →
      verifyStepReads current = .ok (.inr next) → next.2.db = proofDb.db := by
    intro current next same stepped
    rw [verifyStepReads_eq] at stepped
    obtain ⟨turn, -, mapped⟩ := Outcome.bind_eq_ok.mp stepped
    cases turn with
    | inl result => cases mapped
    | inr following =>
      cases mapped
      exact same
  exact Loop.run_project (fun state => state.2.db = proofDb.db) Prod.fst Prod.fst projects keeps fuel _ rfl

section Walk

variable {keccak : List UInt8 → Hash} {tree : HexTree} {key : List UInt8} {proofDb : List UInt8 → Option (List UInt8)}

variable (keccak tree key proofDb) in
/-- Where VerifyProof's loop on a readTraceDB over proofDb stands on the walk
along key: at a node sub, the root or a big node, whose hash it wants next,
with the hashes of the proof elements before sub read, each once and each
found, and no others. -/
structure WalkReads (sub : HexTree) (state : ProofState × readTraceDB) : Prop where
  reached : Reached tree key sub state.1.key
  wanted : state.1.wantHash = hashOf keccak sub
  rootOrBig : sub = tree ∨ Big keccak sub
  db : state.2.db = proofDb
  nodup : state.2.reads.Nodup
  found : ∀ hash ∈ state.2.reads, (proofDb hash).isSome
  reads : ∀ hash, hash ∈ state.2.reads ∨ hash ∈ (sub :: bigsAfter keccak sub state.1.key).map (hashOf keccak) ↔
    hash ∈ (proofElements keccak tree key).map (hashOf keccak)

variable (keccak tree key proofDb) in
/-- What VerifyProof's loop on a readTraceDB over proofDb returns at the end of
the walk along key: the tree's value at the key, with the hashes of the proof
elements read, each once and each found, and no others. -/
structure ReadsAll (result : (Option (List UInt8) × Nat) × readTraceDB) : Prop where
  value : result.1.1 = tree.find key
  nodup : result.2.reads.Nodup
  found : ∀ hash ∈ result.2.reads, (proofDb hash).isSome
  reads : ∀ hash, hash ∈ result.2.reads ↔ hash ∈ (proofElements keccak tree key).map (hashOf keccak)

/-- A turn at a node adds the node's hash to the hashes read. -/
theorem reads_insert_iff {reads : List (List UInt8)} {sub : HexTree} {more : List HexTree} {hash : List UInt8} :
    hash ∈ reads.insert (hashOf keccak sub) ∨ hash ∈ more.map (hashOf keccak) ↔
      hash ∈ reads ∨ hash ∈ (sub :: more).map (hashOf keccak) := by
  simp only [List.mem_insert_iff, List.map_cons, List.mem_cons]
  tauto

/-- One turn of VerifyProof on a readTraceDB at a node of the walk whose
encoding the database holds under its hash: the turn reads the node's hash and
returns at the end of the walk, or goes on to the next big node with a shorter
rest of the key. -/
theorem verifyStepReads_walk {sub : HexTree} {state : ProofState × readTraceDB}
    (walk : WalkReads keccak tree key proofDb sub state) (fits : (encoding keccak sub).length < 2 ^ 64)
    (held : proofDb (hashOf keccak sub) = some (encoding keccak sub)) :
    (∃ result, verifyStepReads state = .ok (.inl result) ∧ ReadsAll keccak tree key proofDb result) ∨
      ∃ next, verifyStepReads state = .ok (.inr next) ∧ (∃ child, WalkReads keccak tree key proofDb child next) ∧
        next.1.key.length < state.1.key.length := by
  -- the turn reads the node's hash, which the database holds
  have nodup : (state.2.reads.insert (hashOf keccak sub)).Nodup := walk.nodup.insert
  have found : ∀ hash ∈ state.2.reads.insert (hashOf keccak sub), (proofDb hash).isSome := by
    intro hash member
    rcases List.mem_insert_iff.mp member with rfl | old
    · rw [held]
      rfl
    · exact walk.found hash old
  have stepAt : verifyStep state.2.db state.1 = verifyStep proofDb state.1 := by rw [walk.db]
  rw [verifyStepReads_eq, stepAt, walk.wanted]
  rcases verifyStep_reached walk.reached walk.wanted fits held with
    ⟨used, returns, last⟩ | ⟨child, rest, continues, big, below, shorter, next⟩
  · -- no big node lies below: the node was the last proof element
    refine .inl ⟨_, by rw [returns]; rfl, ⟨rfl, nodup, found, fun hash => ?_⟩⟩
    have before := walk.reads hash
    rw [last] at before
    rw [← before, ← reads_insert_iff, List.map_nil, List.mem_nil_iff, or_false]
  · -- the next big node is the next proof element
    refine .inr ⟨(⟨state.1.index + 1, rest, hashOf keccak child⟩, { state.2 with reads := state.2.reads.insert _ }),
      by rw [continues]; rfl, ⟨child, below, rfl, .inr big, walk.db, nodup, found, fun hash => ?_⟩, shorter⟩
    rw [reads_insert_iff, ← next]
    exact walk.reads hash

/-- VerifyProof on a readTraceDB starts at the root, having read nothing. -/
theorem walkReads_start (canonical : tree.Canonical) (keys : HexKeys tree) (nonempty : tree ≠ .empty)
    (key : List UInt8) (proofDb : List UInt8 → Option (List UInt8)) :
    WalkReads keccak tree (keybytesToHex key) proofDb tree
      ({ index := 0, key := keybytesToHex key, wantHash := (rootHash keccak tree).toList }, ⟨proofDb, []⟩) := by
  have reached := Reached.root canonical keys nonempty key
  refine ⟨reached, rootHash_toList nonempty, .inl rfl, rfl, List.nodup_nil, (fun _ member => by cases member),
    fun hash => ?_⟩
  rw [proofElements_of_ne_nil (List.ne_nil_of_mem reached.mem_path)]
  simp only [List.mem_nil_iff, false_or]

/-- Completeness with the reads: on a proof database holding every proof
element of the key under its hash, VerifyProof on a readTraceDB returns the
tree's value, having read the hashes of the proof elements and no others. -/
theorem VerifyProofReads_of_held (canonical : tree.Canonical) (keys : HexKeys tree) (nonempty : tree ≠ .empty)
    (fits : ∀ node ∈ nodes tree, (encoding keccak node).length < 2 ^ 64) (key : List UInt8)
    (held : ∀ sub ∈ proofElements keccak tree (keybytesToHex key), proofDb (hashOf keccak sub) = some (encoding keccak sub))
    {fuel : Nat} (enough : (keybytesToHex key).length < fuel) :
    ∃ result, VerifyProofReads fuel (rootHash keccak tree) key ⟨proofDb, []⟩ = some (.ok result) ∧
      ReadsAll keccak tree (keybytesToHex key) proofDb result := by
  refine Loop.run_of_measure (fun state => ∃ sub, WalkReads keccak tree (keybytesToHex key) proofDb sub state)
    (fun state => state.1.key.length) _ ?_ fuel _ ⟨tree, walkReads_start canonical keys nonempty key proofDb⟩ enough
  -- each turn reads a proof element and shortens the rest of the key
  rintro state ⟨sub, walk⟩
  exact verifyStepReads_walk walk (fits sub walk.reached.node)
    (held sub (mem_proofElements walk.reached.mem_path walk.rootOrBig))

/-- Soundness with the reads: on a proof database holding each entry under the
hash of the entry, VerifyProof on a readTraceDB returns nothing but the tree's
value, having read the hashes of the proof elements and no others, unless two
of the database's entries or the tree's encodings collide. -/
theorem VerifyProofReads_sound {encodings : List UInt8 → Prop} (collisionless : Collisionless keccak encodings)
    (fitting : ∀ enc, encodings enc → enc.length < 2 ^ 64) (canonical : tree.Canonical) (keys : HexKeys tree)
    (nonempty : tree ≠ .empty) (allowed : ∀ node ∈ nodes tree, encodings (encoding keccak node))
    (consistent : ∀ hash buf, proofDb hash = some buf → hash = (keccak buf).toList ∧ encodings buf)
    {fuel : Nat} {key : List UInt8} {result : (Option (List UInt8) × Nat) × readTraceDB}
    (ran : VerifyProofReads fuel (rootHash keccak tree) key ⟨proofDb, []⟩ = some (.ok result)) :
    ReadsAll keccak tree (keybytesToHex key) proofDb result := by
  -- at a node of the walk the database holds the node's encoding, or nothing and the turn fails
  have turn : ∀ state, (∃ sub, WalkReads keccak tree (keybytesToHex key) proofDb sub state) →
      (∃ err, verifyStepReads state = .error err) ∨
        (∃ result, verifyStepReads state = .ok (.inl result) ∧ ReadsAll keccak tree (keybytesToHex key) proofDb result) ∨
        ∃ next, verifyStepReads state = .ok (.inr next) ∧ ∃ child, WalkReads keccak tree (keybytesToHex key) proofDb child next := by
    rintro state ⟨sub, walk⟩
    rcases held_or_missing collisionless consistent (allowed sub walk.reached.node) with missing | held
    · have stepAt : verifyStep state.2.db state.1 = .error (.missing state.1.index state.1.wantHash) := by
        rw [walk.db, verifyStep, walk.wanted, missing]
      exact .inl ⟨_, by rw [verifyStepReads_eq, stepAt]; rfl⟩
    · rcases verifyStepReads_walk walk (fitting _ (allowed sub walk.reached.node)) held with
        ⟨result, returns, all⟩ | ⟨next, continues, onWalk, -⟩
      · exact .inr (.inl ⟨result, returns, all⟩)
      · exact .inr (.inr ⟨next, continues, onWalk⟩)
  exact Loop.post_of_turn _ _ turn fuel _ result ⟨tree, walkReads_start canonical keys nonempty key proofDb⟩ ran

end Walk

/-! ### What the server sends -/

/-- A node list takes the nodes put into it, in order. -/
theorem foldl_NodeList_Put (writes : List (List UInt8 × List UInt8)) :
    ∀ n : List (List UInt8), writes.foldl (fun n write => NodeList.Put n write.1 write.2) n = n ++ writes.map Prod.snd := by
  induction writes with
  | nil => intro n; exact (List.append_nil n).symm
  | cons write writes inductionHypothesis =>
    intro n
    rw [List.foldl_cons, inductionHypothesis, NodeList.Put, List.map_cons, List.append_assoc, List.singleton_append]

section Server

variable {keccak : List UInt8 → Hash} {encodings : List UInt8 → Prop} (collisionless : Collisionless keccak encodings)
  (fits : ∀ enc, encodings enc → enc.length < 2 ^ 64) {t : Trie} {tree : HexTree}
  (spells : t.Spells keccak encodings tree) (allowed : ∀ node ∈ nodes tree, encodings (encoding keccak node))

include collisionless fits spells allowed

/-- Prove into another writer, from level 0, puts the proof elements of the
key, the root first, each under its hash. -/
theorem proveInto_eq {W : Type} (key : List UInt8) {fuel : Nat} (enough : 2 * (keybytesToHex key).length + 2 < fuel)
    (put : W → List UInt8 → List UInt8 → W) (writer : W) :
    proveInto keccak t fuel key 0 put writer =
      some (.ok (((proofElements keccak tree (keybytesToHex key)).map (proofEntry keccak)).foldl
        (fun writer write => put writer write.1 write.2) writer)) := by
  rw [proveInto, Trie.Prove_writes collisionless fits spells allowed key NewMemDatabase enough, Option.map_some]
  simp only [NewMemDatabase, List.append_nil, List.reverse_reverse]

/-- Under les/1 the server sends, for a request on a trie that spells out a
tree, the encodings of the key's proof elements, the root first. -/
theorem GetProofsV1_served (trieOf : ProofReq → Option Trie) (req : ProofReq) (named : trieOf req = some t)
    {fuel : Nat} (enough : 2 * (keybytesToHex req.Key).length + 2 < fuel) :
    GetProofsV1 keccak trieOf fuel [req] 0 =
      some (.ok [(proofElements keccak tree (keybytesToHex req.Key)).map (encoding keccak)]) := by
  have sent : ((proofElements keccak tree (keybytesToHex req.Key)).map (proofEntry keccak)).map Prod.snd =
      (proofElements keccak tree (keybytesToHex req.Key)).map (encoding keccak) := by
    rw [List.map_map]
    rfl
  simp only [GetProofsV1, if_neg (show ¬ softResponseLimit ≤ 0 by decide), named,
    proveInto_eq collisionless fits spells allowed req.Key enough, foldl_NodeList_Put, List.nil_append, sent]
  rfl

/-- Under les/2 the server's node set for a request on a trie that spells out a
tree, from level 0, is the set of the key's proof elements under their hashes. -/
theorem GetProofsV2_served (trieOf : ProofReq → Option Trie) (req : ProofReq) (named : trieOf req = some t)
    (level : req.FromLevel = 0) {fuel : Nat} (enough : 2 * (keybytesToHex req.Key).length + 2 < fuel) :
    GetProofsV2 keccak trieOf fuel [req] NewNodeSet =
      some (.ok (NewNodeSet.putAll ((proofElements keccak tree (keybytesToHex req.Key)).map (proofEntry keccak)))) := by
  simp only [GetProofsV2, if_neg (show ¬ softResponseLimit ≤ NewNodeSet.DataSize by decide), named, level,
    proveInto_eq collisionless fits spells allowed req.Key enough]
  rfl

end Server

/-! ### The node sets on both sides -/

section NodeSets

variable {keccak : List UInt8 → Hash} {encodings : List UInt8 → Prop} {elements : List HexTree}

/-- The set of a run of Puts of nodes under their hashes answers a hash with
the first of the nodes that has it. -/
theorem putAll_proofEntry_Get (hash : List UInt8) :
    (NewNodeSet.putAll (elements.map (proofEntry keccak))).Get hash = (elements.map (proofEntry keccak)).lookup hash := by
  rw [NodeSet.Get_putAll]
  rfl

/-- The server's node set holds nothing but encodings of the nodes put. -/
theorem served_nodes {node : List UInt8} (member : node ∈ (NewNodeSet.putAll (elements.map (proofEntry keccak))).NodeList) :
    ∃ sub ∈ elements, node = encoding keccak sub := by
  obtain ⟨entry, inDb, rfl⟩ := List.mem_map.mp member
  have found := NodeSet.Get_of_mem inDb
  rw [putAll_proofEntry_Get] at found
  obtain ⟨sub, inElements, same⟩ := List.mem_map.mp (NodeSet.mem_of_lookup found)
  exact ⟨sub, inElements, (congrArg Prod.snd same).symm⟩

/-- The server's node set holds the encoding of every node put, when no two of
the encodings collide. -/
theorem served_has (collisionless : Collisionless keccak encodings)
    (within : ∀ sub ∈ elements, encodings (encoding keccak sub)) {sub : HexTree} (member : sub ∈ elements) :
    encoding keccak sub ∈ (NewNodeSet.putAll (elements.map (proofEntry keccak))).NodeList := by
  -- the set holds the node's hash, under the encoding of a node put with that hash
  have isSome : ((NewNodeSet.putAll (elements.map (proofEntry keccak))).Get (hashOf keccak sub)).isSome := by
    rw [putAll_proofEntry_Get, List.lookup_isSome_iff]
    exact ⟨_, List.mem_map_of_mem member, beq_self_eq_true _⟩
  obtain ⟨node, found⟩ := Option.isSome_iff_exists.mp isSome
  have entry := found
  rw [putAll_proofEntry_Get] at entry
  obtain ⟨other, otherMember, same⟩ := List.mem_map.mp (NodeSet.mem_of_lookup entry)
  have hashes : keccak (encoding keccak other) = keccak (encoding keccak sub) :=
    Vector.toList_inj.mp (congrArg Prod.fst same)
  have encoded : node = encoding keccak sub :=
    (congrArg Prod.snd same).symm.trans (collisionless.1 _ _ (within other otherMember) (within sub member) hashes)
  rw [← encoded]
  exact List.mem_map.mpr ⟨_, NodeSet.mem_of_Get found, rfl⟩

/-- The node set of a list of nodes, each one of the encodings, holds each
under its hash. -/
theorem received_consistent {sent : List (List UInt8)} (received : ∀ node ∈ sent, encodings node) :
    ∀ hash buf, (NodeList.NodeSet keccak sent).Get hash = some buf → hash = (keccak buf).toList ∧ encodings buf :=
  fun _ buf held => ⟨(NodeList.NodeSet_consistent held).1, received buf (NodeList.NodeSet_consistent held).2⟩

/-- The node set of a list of nodes, none colliding with the tree's encodings,
holds a node of the tree under its hash when the list has its encoding. -/
theorem NodeSet_held (collisionless : Collisionless keccak encodings) {sent : List (List UInt8)}
    (received : ∀ node ∈ sent, encodings node) {sub : HexTree} (subAllowed : encodings (encoding keccak sub))
    (member : encoding keccak sub ∈ sent) :
    (NodeList.NodeSet keccak sent).Get (hashOf keccak sub) = some (encoding keccak sub) := by
  rcases held_or_missing collisionless (received_consistent received) subAllowed with missing | held
  · -- the list has the encoding, so the set has the hash
    have isSome : ((NodeList.NodeSet keccak sent).Get (hashOf keccak sub)).isSome := NodeList.NodeSet_isSome member
    rw [missing] at isSome
    cases isSome
  · exact held

/-- The node set of a list of encodings of nodes, which has each of them, holds
the hashes of the nodes and no others. -/
theorem NodeSet_keys {sent : List (List UInt8)} (received : ∀ node ∈ sent, ∃ sub ∈ elements, node = encoding keccak sub)
    (has : ∀ sub ∈ elements, encoding keccak sub ∈ sent) (hash : List UInt8) :
    hash ∈ (NodeList.NodeSet keccak sent).keys ↔ hash ∈ elements.map (hashOf keccak) := by
  rw [← NodeSet.Get_isSome_iff, Option.isSome_iff_exists, List.mem_map]
  constructor
  · rintro ⟨node, found⟩
    obtain ⟨hashed, inSent⟩ := NodeList.NodeSet_consistent found
    obtain ⟨sub, member, rfl⟩ := received node inSent
    exact ⟨sub, member, hashed.symm⟩
  · rintro ⟨sub, member, rfl⟩
    exact Option.isSome_iff_exists.mp (NodeList.NodeSet_isSome (has sub member))

/-- A node set whose keys a walk read, as many as the set holds, holds the
hashes of the proof elements and no others. -/
theorem keys_of_reads {tree : HexTree} {key : List UInt8} {nodeSet : NodeSet}
    {result : (Option (List UInt8) × Nat) × readTraceDB} (all : ReadsAll keccak tree key nodeSet.Get result)
    (counted : result.2.reads.length = nodeSet.KeyCount) (hash : List UInt8) :
    hash ∈ nodeSet.keys ↔ hash ∈ (proofElements keccak tree key).map (hashOf keccak) := by
  -- every key read is held, and there are as many reads as keys
  have within : result.2.reads ⊆ nodeSet.keys := fun read member => NodeSet.Get_isSome_iff.mp (all.found read member)
  have fewer : nodeSet.keys.length ≤ result.2.reads.length := by
    rw [counted, NodeSet.keys, List.length_map]
    rfl
  have same := (all.nodup.subperm within).perm_of_length_le fewer
  rw [← same.mem_iff]
  exact all.reads hash

/-- A node set holding each entry under the hash of the entry, whose keys are
the hashes of the proof elements, holds the proof elements' encodings under
their hashes and nothing else, when no two encodings collide. -/
theorem Get_iff_proofElements (collisionless : Collisionless keccak encodings) {tree : HexTree} {key : List UInt8}
    (elementAllowed : ∀ sub ∈ proofElements keccak tree key, encodings (encoding keccak sub)) {nodeSet : NodeSet}
    (consistent : ∀ hash buf, nodeSet.Get hash = some buf → hash = (keccak buf).toList ∧ encodings buf)
    (keyed : ∀ hash, hash ∈ nodeSet.keys ↔ hash ∈ (proofElements keccak tree key).map (hashOf keccak))
    (hash node : List UInt8) :
    nodeSet.Get hash = some node ↔ ∃ sub ∈ proofElements keccak tree key, hash = hashOf keccak sub ∧ node = encoding keccak sub := by
  constructor
  · intro found
    have isSome : (nodeSet.Get hash).isSome := by rw [found]; rfl
    obtain ⟨sub, member, rfl⟩ := List.mem_map.mp ((keyed hash).mp (NodeSet.Get_isSome_iff.mp isSome))
    rcases held_or_missing collisionless consistent (elementAllowed sub member) with missing | held
    · rw [missing] at found
      cases found
    · rw [held] at found
      cases found
      exact ⟨sub, member, rfl, rfl⟩
  · rintro ⟨sub, member, rfl, rfl⟩
    rcases held_or_missing collisionless consistent (elementAllowed sub member) with missing | held
    · have isSome := NodeSet.Get_isSome_iff.mpr ((keyed _).mpr (List.mem_map_of_mem member))
      rw [missing] at isSome
      cases isSome
    · exact held

/-- The proof elements of a key of a trie's tree are among the encodings the
tree's nodes are. -/
theorem proofElements_allowed {tree : HexTree} (canonical : tree.Canonical) (keys : HexKeys tree)
    (allowed : ∀ node ∈ nodes tree, encodings (encoding keccak node)) (key : List UInt8) :
    ∀ sub ∈ proofElements keccak tree key, encodings (encoding keccak sub) :=
  fun sub member => allowed sub (pathNodes_subset_nodes tree key canonical keys.hexShaped (proofElements_subset member))

end NodeSets

/-! ### Validate -/

/-- What Validate accepts: a les/1 reply of one node list on whose node set
VerifyProof returns, or a les/2 reply on whose node set VerifyProof returns,
having read as many keys as the set holds; the set kept is the reply's. -/
theorem Validate_eq_ok {keccak : List UInt8 → Hash} {fuel : Nat} {root : Hash} {key : List UInt8} {msg : ProofsMsg}
    {stored : NodeSet} (accepted : TrieRequest.Validate keccak fuel root key msg = some (.ok stored)) :
    (∃ proof result, msg = .MsgProofsV1 [proof] ∧
        VerifyProof fuel root key (NodeList.NodeSet keccak proof).Get = some (.ok result) ∧
        stored = NodeList.NodeSet keccak proof) ∨
      ∃ proofs result, msg = .MsgProofsV2 proofs ∧
        VerifyProofReads fuel root key ⟨(NodeList.NodeSet keccak proofs).Get, []⟩ = some (.ok result) ∧
        result.2.reads.length = (NodeList.NodeSet keccak proofs).KeyCount ∧ stored = NodeList.NodeSet keccak proofs := by
  cases msg with
  | MsgProofsV1 proofs =>
    -- one node list, or the entry count is wrong
    rcases proofs with _ | ⟨proof, _ | ⟨second, more⟩⟩
    · cases accepted
    · obtain ⟨outcome, ran, checked⟩ := Option.map_eq_some_iff.mp accepted
      cases outcome with
      | ok result =>
        cases checked
        exact .inl ⟨proof, result, rfl, ran, rfl⟩
      | error err => cases checked
      | panic => cases checked
    · cases accepted
  | MsgProofsV2 proofs =>
    obtain ⟨outcome, ran, checked⟩ := Option.map_eq_some_iff.mp accepted
    cases outcome with
    | ok result =>
      dsimp only at checked
      split at checked
      · cases checked
      · next counted =>
        cases checked
        exact .inr ⟨proofs, result, rfl, ran, not_not.mp counted, rfl⟩
    | error err => cases checked
    | panic => cases checked
  | other => cases accepted

section Exchange

variable {keccak : List UInt8 → Hash} {encodings : List UInt8 → Prop} (collisionless : Collisionless keccak encodings)
  (fits : ∀ enc, encodings enc → enc.length < 2 ^ 64) {tree : HexTree}
  (allowed : ∀ node ∈ nodes tree, encodings (encoding keccak node))

include collisionless fits allowed

/-- A reply of encodings of proof elements of the key, among them every proof
element's, is accepted under both versions of the protocol, and the node set
kept answers the key with the tree's value. -/
theorem Validate_of_proofElements (canonical : tree.Canonical) (keys : HexKeys tree) (nonempty : tree ≠ .empty)
    (key : List UInt8) (sent : List (List UInt8))
    (received : ∀ node ∈ sent, ∃ sub ∈ proofElements keccak tree (keybytesToHex key), node = encoding keccak sub)
    (has : ∀ sub ∈ proofElements keccak tree (keybytesToHex key), encoding keccak sub ∈ sent)
    {fuel : Nat} (enough : (keybytesToHex key).length < fuel) :
    TrieRequest.Validate keccak fuel (rootHash keccak tree) key (.MsgProofsV1 [sent]) =
        some (.ok (NodeList.NodeSet keccak sent)) ∧
      TrieRequest.Validate keccak fuel (rootHash keccak tree) key (.MsgProofsV2 sent) =
        some (.ok (NodeList.NodeSet keccak sent)) ∧
      ∃ used, VerifyProof fuel (rootHash keccak tree) key (NodeList.NodeSet keccak sent).Get =
        some (.ok (tree.find (keybytesToHex key), used)) := by
  have elementAllowed := proofElements_allowed canonical keys allowed (keybytesToHex key)
  have sentAllowed : ∀ node ∈ sent, encodings node := by
    intro node member
    obtain ⟨sub, inElements, rfl⟩ := received node member
    exact elementAllowed sub inElements
  -- the set of the reply holds every proof element under its hash
  have held : ∀ sub ∈ proofElements keccak tree (keybytesToHex key),
      (NodeList.NodeSet keccak sent).Get (hashOf keccak sub) = some (encoding keccak sub) :=
    fun sub member => NodeSet_held collisionless sentAllowed (elementAllowed sub member) (has sub member)
  have fitting : ∀ node ∈ nodes tree, (encoding keccak node).length < 2 ^ 64 :=
    fun node member => fits _ (allowed node member)
  obtain ⟨used, verified⟩ := VerifyProof_of_held canonical keys nonempty fitting key
    (fun sub onPath rootOrBig => held sub (mem_proofElements onPath rootOrBig)) enough
  obtain ⟨result, ran, all⟩ := VerifyProofReads_of_held canonical keys nonempty fitting key held enough
  -- VerifyProof reads every key of the set
  have counted : result.2.reads.length = (NodeList.NodeSet keccak sent).KeyCount := by
    have same := (List.perm_ext_iff_of_nodup all.nodup (NodeList.NodeSet keccak sent).unique).mpr
      fun hash => (all.reads hash).trans (NodeSet_keys received has hash).symm
    rw [same.length_eq, List.length_map]
    rfl
  refine ⟨?_, ?_, used, verified⟩
  · simp only [TrieRequest.Validate, verified, Option.map_some]
    rfl
  · simp only [TrieRequest.Validate, ran, Option.map_some, counted, ne_eq, not_true_eq_false, if_false]

/-- The proof exchange of les is complete. For a request from level 0 on a trie
that spells out a tree that is not empty, the proof the server sends under
les/1, and the node set it sends under les/2 in whatever order the set's nodes
go out, are accepted by Validate against the tree's root hash, and the node set
kept answers the key with the tree's value. -/
theorem Validate_accepts_served {t : Trie} (spells : t.Spells keccak encodings tree) (nonempty : tree ≠ .empty)
    (trieOf : ProofReq → Option Trie) (req : ProofReq) (named : trieOf req = some t) (level : req.FromLevel = 0)
    {fuel : Nat} (enough : 2 * (keybytesToHex req.Key).length + 2 < fuel) :
    (∃ proof, GetProofsV1 keccak trieOf fuel [req] 0 = some (.ok [proof]) ∧
        TrieRequest.Validate keccak fuel (rootHash keccak tree) req.Key (.MsgProofsV1 [proof]) =
          some (.ok (NodeList.NodeSet keccak proof)) ∧
        ∃ used, VerifyProof fuel (rootHash keccak tree) req.Key (NodeList.NodeSet keccak proof).Get =
          some (.ok (tree.find (keybytesToHex req.Key), used))) ∧
      ∃ nodes, GetProofsV2 keccak trieOf fuel [req] NewNodeSet = some (.ok nodes) ∧
        ∀ sent, sent.Perm nodes.NodeList →
          TrieRequest.Validate keccak fuel (rootHash keccak tree) req.Key (.MsgProofsV2 sent) =
            some (.ok (NodeList.NodeSet keccak sent)) ∧
          ∃ used, VerifyProof fuel (rootHash keccak tree) req.Key (NodeList.NodeSet keccak sent).Get =
            some (.ok (tree.find (keybytesToHex req.Key), used)) := by
  have shorter : (keybytesToHex req.Key).length < fuel := by omega
  have elementAllowed := proofElements_allowed spells.canonical spells.keys allowed (keybytesToHex req.Key)
  refine ⟨⟨_, GetProofsV1_served collisionless fits spells allowed trieOf req named enough, ?_⟩,
    _, GetProofsV2_served collisionless fits spells allowed trieOf req named level enough, fun sent perm => ?_⟩
  · -- les/1: the proof is the encodings of the proof elements, in order
    have received : ∀ node ∈ (proofElements keccak tree (keybytesToHex req.Key)).map (encoding keccak),
        ∃ sub ∈ proofElements keccak tree (keybytesToHex req.Key), node = encoding keccak sub := by
      intro node member
      obtain ⟨sub, inElements, rfl⟩ := List.mem_map.mp member
      exact ⟨sub, inElements, rfl⟩
    obtain ⟨accepted, -, verified⟩ := Validate_of_proofElements collisionless fits allowed spells.canonical
      spells.keys nonempty req.Key _ received (fun sub member => List.mem_map_of_mem member) shorter
    exact ⟨accepted, verified⟩
  · -- les/2: the nodes sent are the encodings of the proof elements, in any order
    obtain ⟨-, accepted, verified⟩ := Validate_of_proofElements collisionless fits allowed spells.canonical
      spells.keys nonempty req.Key sent (fun node member => served_nodes (perm.mem_iff.mp member))
      (fun sub member => perm.mem_iff.mpr (served_has collisionless elementAllowed member)) shorter
    exact ⟨accepted, verified⟩

/-- The proof exchange of les is sound. Whatever nodes a peer sends, none of
them colliding with the encodings of a tree that is not empty, a reply that
Validate accepts against the tree's root hash leaves a node set that answers
the key with the tree's value, none when the tree does not hold the key. Under
les/2 the set kept holds the key's proof elements under their hashes and
nothing else. -/
theorem TrieRequest.Validate_sound (canonical : tree.Canonical) (keys : HexKeys tree) (nonempty : tree ≠ .empty)
    (msg : ProofsMsg) (received : ∀ node ∈ msg.nodes, encodings node) {fuel : Nat} {key : List UInt8}
    {stored : NodeSet} (accepted : TrieRequest.Validate keccak fuel (rootHash keccak tree) key msg = some (.ok stored)) :
    (∃ used, VerifyProof fuel (rootHash keccak tree) key stored.Get = some (.ok (tree.find (keybytesToHex key), used))) ∧
      ∀ proofs, msg = .MsgProofsV2 proofs → ∀ hash node, stored.Get hash = some node ↔
        ∃ sub ∈ proofElements keccak tree (keybytesToHex key), hash = hashOf keccak sub ∧ node = encoding keccak sub := by
  rcases Validate_eq_ok accepted with ⟨proof, ⟨value, used⟩, rfl, ran, rfl⟩ | ⟨proofs, result, rfl, ran, counted, rfl⟩
  · -- les/1: VerifyProof returned on the node set kept
    have consistent : ∀ hash buf, (NodeList.NodeSet keccak proof).Get hash = some buf →
        hash = (keccak buf).toList ∧ encodings buf :=
      received_consistent fun node member => received node (List.mem_flatten.mpr ⟨proof, List.mem_singleton_self _, member⟩)
    refine ⟨⟨used, ?_⟩, fun _ isV2 => by cases isV2⟩
    rw [ran, VerifyProof_sound collisionless fits canonical keys nonempty allowed consistent ran]
  · -- les/2: the walk read the whole set, so the set holds the proof elements and no more
    have consistent : ∀ hash buf, (NodeList.NodeSet keccak proofs).Get hash = some buf →
        hash = (keccak buf).toList ∧ encodings buf :=
      received_consistent received
    have all := VerifyProofReads_sound collisionless fits canonical keys nonempty allowed consistent ran
    have projected := VerifyProofReads_result fuel (rootHash keccak tree) key ⟨(NodeList.NodeSet keccak proofs).Get, []⟩
    rw [ran, Option.map_some] at projected
    refine ⟨⟨result.1.2, ?_⟩, fun _ _ hash node => ?_⟩
    · rw [← projected, ← all.value]
      rfl
    · exact Get_iff_proofElements collisionless (proofElements_allowed canonical keys allowed _) consistent
        (keys_of_reads all counted) hash node

end Exchange

/-- A request for the key [0x10] of the two-key trie, from level 0. -/
def twoKeyReq : ProofReq :=
  ⟨zeroRoot, [], [0x10], 0⟩

theorem Validate_accepts_served_two_keys :
    (∃ proof, GetProofsV1 twoKeyKeccak (fun _ => some twoKeyTrie) 9 [twoKeyReq] 0 = some (.ok [proof]) ∧
        TrieRequest.Validate twoKeyKeccak 9 (rootHash twoKeyKeccak (canonOf (values [] twoKeyRun))) [0x10] (.MsgProofsV1 [proof]) =
          some (.ok (NodeList.NodeSet twoKeyKeccak proof)) ∧
        ∃ used, VerifyProof 9 (rootHash twoKeyKeccak (canonOf (values [] twoKeyRun))) [0x10]
          (NodeList.NodeSet twoKeyKeccak proof).Get = some (.ok ((canonOf (values [] twoKeyRun)).find (keybytesToHex [0x10]), used))) ∧
      ∃ nodes, GetProofsV2 twoKeyKeccak (fun _ => some twoKeyTrie) 9 [twoKeyReq] NewNodeSet = some (.ok nodes) ∧
        ∀ sent, sent.Perm nodes.NodeList →
          TrieRequest.Validate twoKeyKeccak 9 (rootHash twoKeyKeccak (canonOf (values [] twoKeyRun))) [0x10] (.MsgProofsV2 sent) =
            some (.ok (NodeList.NodeSet twoKeyKeccak sent)) ∧
          ∃ used, VerifyProof 9 (rootHash twoKeyKeccak (canonOf (values [] twoKeyRun))) [0x10]
            (NodeList.NodeSet twoKeyKeccak sent).Get = some (.ok ((canonOf (values [] twoKeyRun)).find (keybytesToHex [0x10]), used)) :=
  Validate_accepts_served twoKey_collisionless twoKey_fits
    (fun node member => encoding_mem_runEncodings twoKeyRun node member) twoKeyTrie_spells twoKey_nonempty
    (fun _ => some twoKeyTrie) twoKeyReq rfl rfl (by decide)

/-- The proof of the key [0x10] of the two-key tree: the encodings of its proof
elements, the full node at the root and the leaf it refers to by hash. -/
def twoKeyProof : List (List UInt8) :=
  (proofElements twoKeyKeccak (canonOf (values [] twoKeyRun)) (keybytesToHex [0x10])).map (encoding twoKeyKeccak)

theorem Validate_sound_two_keys :
    (∃ used, VerifyProof 9 (rootHash twoKeyKeccak (canonOf (values [] twoKeyRun))) [0x10] (NodeList.NodeSet twoKeyKeccak twoKeyProof).Get =
        some (.ok ((canonOf (values [] twoKeyRun)).find (keybytesToHex [0x10]), used))) ∧
      ∀ proofs, ProofsMsg.MsgProofsV2 twoKeyProof = .MsgProofsV2 proofs → ∀ hash node,
        (NodeList.NodeSet twoKeyKeccak twoKeyProof).Get hash = some node ↔
          ∃ sub ∈ proofElements twoKeyKeccak (canonOf (values [] twoKeyRun)) (keybytesToHex [0x10]),
            hash = hashOf twoKeyKeccak sub ∧ node = encoding twoKeyKeccak sub := by
  have allowed : ∀ node ∈ nodes (canonOf (values [] twoKeyRun)),
      encoding twoKeyKeccak node ∈ runEncodings twoKeyKeccak [] twoKeyRun :=
    fun node member => encoding_mem_runEncodings twoKeyRun node member
  have elements : ∀ node ∈ twoKeyProof, ∃ sub ∈ proofElements twoKeyKeccak (canonOf (values [] twoKeyRun)) (keybytesToHex [0x10]),
      node = encoding twoKeyKeccak sub := by
    intro node member
    obtain ⟨sub, inElements, rfl⟩ := List.mem_map.mp member
    exact ⟨sub, inElements, rfl⟩
  have received : ∀ node ∈ (ProofsMsg.MsgProofsV2 twoKeyProof).nodes, node ∈ runEncodings twoKeyKeccak [] twoKeyRun := by
    intro node member
    obtain ⟨sub, inElements, rfl⟩ := elements node member
    exact proofElements_allowed twoKeyTrie_spells.canonical twoKeyTrie_spells.keys allowed _ sub inElements
  have accepted := (Validate_of_proofElements twoKey_collisionless twoKey_fits allowed twoKeyTrie_spells.canonical
    twoKeyTrie_spells.keys twoKey_nonempty [0x10] twoKeyProof elements (fun sub member => List.mem_map_of_mem member)
    (show (keybytesToHex [0x10]).length < 9 by decide)).2.1
  exact TrieRequest.Validate_sound twoKey_collisionless twoKey_fits allowed twoKeyTrie_spells.canonical
    twoKeyTrie_spells.keys twoKey_nonempty _ received accepted

end Meshbox.Les
