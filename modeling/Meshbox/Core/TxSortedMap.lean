import Meshbox.Core.TxList
import Meshbox.Library.HeapUp
import Meshbox.Library.KeySorted

/-!
# The representation of txSortedMap

txSortedMap keeps an account's transactions in a Go map from nonces to
transactions, with a heap of the nonces and, once Flatten has sorted them, the
transactions in nonce order. Its invariant: every transaction is stored under
its own nonce, the heap holds exactly those nonces, each once and in heap
order, and a cache is the transactions sorted by nonce.

Every operation keeps the invariant, and each is stated against the sorted
transactions: Forward takes the ones below a nonce, a prefix; Cap takes all
but the first n, the highest nonce first; Ready takes the run of consecutive
nonces at the front; Filter and Remove take what they select; Flatten returns
them all. The loops of Forward and Ready pop the heap's root, which is the
lowest nonce, so each iteration takes the first sorted transaction.
-/

namespace Meshbox.Core

open KeySorted

/-! ### The nonce heap and the sorted transactions -/

/-- The rank of a nonce in the heap: the lower nonce ranks higher, and so sits
nearer the root. -/
def nonceRank (nonce : Nat) : OrderDual Nat := OrderDual.toDual nonce

theorem nonceLess_ranks (index : List Nat) : Heap.RanksBy nonceLess nonceRank index := by
  intro i j x y _ _ _
  simp [nonceLess, nonceRank]

/-- The map's transactions in increasing nonce order, as Flatten sorts them. -/
def byNonce (items : List (Nat × Transaction)) : List Transaction :=
  sortBy Transaction.Nonce (items.map (·.2))

@[simp] theorem byNonce_nil : byNonce [] = [] := by
  simp [byNonce, sortBy]

/-- Selecting entries by their transaction selects their transactions. -/
theorem map_filter_tx (items : List (Nat × Transaction)) (p : Transaction → Bool) :
    (items.filter fun entry => p entry.2).map (·.2) = (items.map (·.2)).filter p := by
  rw [List.filter_map]
  rfl

/-- Every transaction is stored under its own nonce, and no nonce twice. -/
structure Keyed (items : List (Nat × Transaction)) : Prop where
  nonce : ∀ entry ∈ items, entry.2.Nonce = entry.1
  distinct : (items.map (·.1)).Nodup

namespace Keyed

variable {items : List (Nat × Transaction)}

theorem nonces (keyed : Keyed items) : (items.map (·.2)).map Transaction.Nonce = items.map (·.1) := by
  rw [List.map_map]
  exact List.map_congr_left fun entry mem => keyed.nonce entry mem

theorem nodup (keyed : Keyed items) : ((items.map (·.2)).map Transaction.Nonce).Nodup :=
  keyed.nonces ▸ keyed.distinct

theorem filter (keyed : Keyed items) (p : Nat × Transaction → Bool) : Keyed (items.filter p) where
  nonce entry mem := keyed.nonce entry (List.mem_of_mem_filter mem)
  distinct := (List.filter_sublist.map _).nodup keyed.distinct

/-- Selecting entries by their nonce selects their transactions by it. -/
theorem map_filter (keyed : Keyed items) (p : Nat → Bool) :
    (items.filter fun entry => p entry.1).map (·.2) = (items.map (·.2)).filter fun tx => p tx.Nonce := by
  rw [List.filter_map]
  congr 1
  exact List.filter_congr fun entry mem => by simp [keyed.nonce entry mem]

theorem byNonce_filter (keyed : Keyed items) (p : Nat → Bool) :
    byNonce (items.filter fun entry => p entry.1) = (byNonce items).filter fun tx => p tx.Nonce := by
  rw [byNonce, keyed.map_filter, sortBy_filter keyed.nodup]
  rfl

/-- Selecting entries by their transaction selects the sorted transactions. -/
theorem byNonce_filter_tx (keyed : Keyed items) (p : Transaction → Bool) :
    byNonce (items.filter fun entry => p entry.2) = (byNonce items).filter p := by
  rw [byNonce, byNonce, map_filter_tx, sortBy_filter keyed.nodup]

theorem pairwise_byNonce (keyed : Keyed items) : (byNonce items).Pairwise fun a b => a.Nonce < b.Nonce :=
  pairwise_sortBy keyed.nodup

/-- The nonces of the sorted transactions are the keys, in some order. -/
theorem keys_perm (keyed : Keyed items) : ((byNonce items).map Transaction.Nonce).Perm (items.map (·.1)) :=
  keyed.nonces ▸ (sortBy_perm _).map _

theorem nodup_byNonce (keyed : Keyed items) : ((byNonce items).map Transaction.Nonce).Nodup :=
  keyed.keys_perm.nodup_iff.mpr keyed.distinct

theorem mem_byNonce (keyed : Keyed items) {tx : Transaction} (mem : tx ∈ byNonce items) :
    tx.Nonce ∈ items.map (·.1) :=
  keyed.keys_perm.mem_iff.mp (List.mem_map_of_mem mem)

/-- A stored transaction is the one stored under its nonce. -/
theorem get_nonce (keyed : Keyed items) {tx : Transaction} (mem : tx ∈ items.map (·.2)) :
    GoMap.get items tx.Nonce = some tx := by
  obtain ⟨entry, stored, rfl⟩ := List.mem_map.mp mem
  rw [keyed.nonce entry stored]
  exact GoMap.get_of_mem keyed.distinct stored

/-- Under a key there is a transaction of that nonce. -/
theorem exists_get (keyed : Keyed items) {key : Nat} (mem : key ∈ items.map (·.1)) :
    ∃ tx, GoMap.get items key = some tx ∧ tx.Nonce = key ∧ tx ∈ items.map (·.2) := by
  obtain ⟨entry, stored, rfl⟩ := List.mem_map.mp mem
  exact ⟨entry.2, GoMap.get_of_mem keyed.distinct stored, keyed.nonce entry stored, List.mem_map_of_mem stored⟩

end Keyed

/-- A heap holding the keys less one, once each, after that one is taken. -/
theorem perm_filter_ne {rest keys : List Nat} {key : Nat} (perm : (key :: rest).Perm keys)
    (distinct : keys.Nodup) : rest.Perm (keys.filter fun k => k ≠ key) := by
  have restNodup : (key :: rest).Nodup := perm.nodup_iff.mpr distinct
  have kept : rest.filter (fun k => k ≠ key) = rest :=
    List.filter_eq_self.mpr fun k mem => by
      have := List.nodup_cons.mp restNodup
      simp only [ne_eq, decide_eq_true_eq]
      rintro rfl
      exact this.1 mem
  have filtered := perm.filter fun k => k ≠ key
  rw [List.filter_cons_of_neg (by simp), kept] at filtered
  exact filtered

namespace txSortedMap

/-- The heap holds exactly the nonces of the transactions, each once, in heap
order, and each transaction is stored under its own nonce. -/
structure Indexed (m : txSortedMap) : Prop where
  keyed : Keyed m.items
  perm : m.index.Perm (m.items.map (·.1))
  ordered : Heap.OrderedFrom nonceRank m.index 0 m.index.length

/-- The invariant of txSortedMap: the heap indexes the transactions, and a
cache is the transactions sorted by nonce. -/
structure Valid (m : txSortedMap) : Prop extends m.Indexed where
  cached : ∀ cache, m.cache = some cache → cache = byNonce m.items

namespace Indexed

variable {m : txSortedMap}

theorem items_nil (indexed : m.Indexed) (empty : m.index = []) : m.items = [] := by
  have keys := indexed.perm
  rw [empty] at keys
  exact List.map_eq_nil_iff.mp keys.nil_eq.symm

/-- The heap's root is the lowest nonce. -/
theorem root_le (indexed : m.Indexed) {least : Nat} {rest : List Nat} (root : m.index = least :: rest) :
    ∀ key ∈ m.items.map (·.1), least ≤ key := by
  intro key mem
  obtain ⟨pos, atPos⟩ := List.mem_iff_getElem?.mp (indexed.perm.mem_iff.mpr mem)
  have below : pos < m.index.length := (List.getElem?_eq_some_iff.mp atPos).1
  have ranked := indexed.ordered.root_max (Nat.le_refl _) (by rw [root]; rfl) pos key below atPos
  simpa [nonceRank] using ranked

/-- The transaction at the heap's root comes first in nonce order, before the
others. -/
theorem byNonce_root (indexed : m.Indexed) {least : Nat} {rest : List Nat} (root : m.index = least :: rest) :
    ∃ tx, GoMap.get m.items least = some tx ∧ tx.Nonce = least ∧
      byNonce m.items = tx :: byNonce (GoMap.delete m.items least) := by
  have stored : least ∈ m.items.map (·.1) := indexed.perm.mem_iff.mp (root ▸ List.mem_cons_self)
  obtain ⟨tx, found, nonce, mem⟩ := indexed.keyed.exists_get stored
  refine ⟨tx, found, nonce, ?_⟩
  have lowest : ∀ other ∈ m.items.map (·.2), tx.Nonce ≤ other.Nonce := by
    intro other otherMem
    rw [nonce]
    exact indexed.root_le root _ (indexed.keyed.nonces ▸ List.mem_map_of_mem otherMem)
  rw [byNonce, byNonce, GoMap.delete, indexed.keyed.map_filter (fun key => decide (key ≠ least)),
    sortBy_eq_cons indexed.keyed.nodup mem lowest, nonce]

/-- Popping the root and deleting its transaction keeps the heap indexing the
map. -/
theorem pop (indexed : m.Indexed) {least : Nat} {rest : List Nat} (root : m.index = least :: rest) :
    Indexed { m with items := GoMap.delete m.items least, index := (Heap.pop nonceLess m.index).1 } where
  keyed := indexed.keyed.filter _
  perm := by
    show (Heap.pop nonceLess m.index).1.Perm ((GoMap.delete m.items least).map (·.1))
    rw [GoMap.keys_delete, root]
    exact (Heap.pop_perm nonceLess least rest).trans (perm_filter_ne (root ▸ indexed.perm) indexed.keyed.distinct)
  ordered := Heap.pop_ordered (nonceLess_ranks _) indexed.ordered

/-- The cache is no part of the index. -/
theorem setCache (indexed : m.Indexed) (cache : Option (List Transaction)) : Indexed { m with cache } :=
  ⟨indexed.keyed, indexed.perm, indexed.ordered⟩

end Indexed

/-! ### Forward -/

section Forward

variable {threshold fuel : Nat} {m : txSortedMap} {removed : List Transaction}

theorem forwardLoop_nil (empty : m.index = []) : forwardLoop threshold fuel m removed = (m, removed) := by
  cases fuel <;> simp [forwardLoop, empty]

theorem forwardLoop_stop {least : Nat} {rest : List Nat} (root : m.index = least :: rest) (above : ¬ least < threshold) :
    forwardLoop threshold (fuel + 1) m removed = (m, removed) := by
  simp [forwardLoop, root, above]

theorem forwardLoop_pop {least : Nat} {rest : List Nat} {tx : Transaction} (root : m.index = least :: rest)
    (below : least < threshold) (found : GoMap.get m.items least = some tx) :
    forwardLoop threshold (fuel + 1) m removed =
      forwardLoop threshold fuel { m with items := GoMap.delete m.items least, index := (Heap.pop nonceLess m.index).1 }
        (removed ++ [tx]) := by
  have popped : (Heap.pop nonceLess m.index).2 = some least := by rw [Heap.pop_snd, root]; rfl
  rw [forwardLoop, root]
  simp only [below, if_true]
  rw [← root, popped]
  simp [found]

/-- Nothing of a map whose nonces are all at least threshold is below it. -/
theorem forward_nothing_below (indexed : m.Indexed) (above : ∀ key ∈ m.items.map (·.1), threshold ≤ key) :
    (byNonce m.items).filter (·.Nonce < threshold) = [] ∧
      m.items.filter (fun entry => threshold ≤ entry.1) = m.items := by
  constructor
  · exact List.filter_eq_nil_iff.mpr fun tx mem => by
      simpa using above _ (indexed.keyed.mem_byNonce mem)
  · exact List.filter_eq_self.mpr fun entry mem => by simpa using above _ (List.mem_map_of_mem mem)

/-- Forward's loop pops the transactions below threshold in nonce order.
Induction on the fuel, which the heap's length bounds. -/
theorem forwardLoop_spec (fuel : Nat) : ∀ (m : txSortedMap) (removed : List Transaction), m.Indexed →
    m.index.length ≤ fuel →
      (forwardLoop threshold fuel m removed).2 = removed ++ (byNonce m.items).filter (·.Nonce < threshold) ∧
      (forwardLoop threshold fuel m removed).1.items = m.items.filter (fun entry => threshold ≤ entry.1) ∧
      (forwardLoop threshold fuel m removed).1.Indexed ∧
      (forwardLoop threshold fuel m removed).1.cache = m.cache := by
  -- a stopped loop returns the map, which has nothing below threshold
  have stopped : ∀ (m : txSortedMap) (removed : List Transaction), m.Indexed →
      (∀ key ∈ m.items.map (·.1), threshold ≤ key) →
      removed = removed ++ (byNonce m.items).filter (·.Nonce < threshold) ∧
        m.items = m.items.filter (fun entry => threshold ≤ entry.1) ∧ m.Indexed ∧ m.cache = m.cache := by
    intro m removed indexed above
    obtain ⟨none, all⟩ := forward_nothing_below indexed above
    exact ⟨by rw [none, List.append_nil], all.symm, indexed, rfl⟩
  induction fuel with
  | zero =>
    intro m removed indexed enough
    have empty : m.index = [] := List.eq_nil_of_length_eq_zero (by omega)
    rw [forwardLoop_nil empty]
    exact stopped m removed indexed (by simp [indexed.items_nil empty])
  | succ fuel inductionHypothesis =>
    intro m removed indexed enough
    cases root : m.index with
    | nil =>
      rw [forwardLoop_nil root]
      exact stopped m removed indexed (by simp [indexed.items_nil root])
    | cons least rest =>
      by_cases below : least < threshold
      · obtain ⟨tx, found, nonce, sorted⟩ := indexed.byNonce_root root
        rw [forwardLoop_pop root below found]
        have popped := indexed.pop root
        obtain ⟨removedSpec, itemsSpec, indexedAfter, cacheSpec⟩ :=
          inductionHypothesis _ (removed ++ [tx]) popped (by simp [root] at enough ⊢; omega)
        refine ⟨?_, ?_, indexedAfter, cacheSpec⟩
        · rw [removedSpec, sorted, List.filter_cons_of_pos (by simpa [nonce] using below)]
          simp
        · rw [itemsSpec]
          show (List.filter (·.1 ≠ least) m.items).filter _ = _
          rw [List.filter_filter]
          exact List.filter_congr fun entry _ => by
            by_cases atLeast : threshold ≤ entry.1
            · simp [atLeast, show entry.1 ≠ least by omega]
            · simp [atLeast]
      · rw [forwardLoop_stop root below]
        exact stopped m removed indexed fun key mem => le_trans (not_lt.mp below) (indexed.root_le root key mem)

/-- Forward removes and returns exactly the transactions below threshold, in
nonce order. A cache loses the same transactions, its prefix below threshold. -/
theorem Forward_spec (valid : m.Valid) (threshold : Nat) :
    (m.Forward threshold).1 = (byNonce m.items).filter (·.Nonce < threshold) ∧
      (m.Forward threshold).2.items = m.items.filter (fun entry => threshold ≤ entry.1) ∧
      (m.Forward threshold).2.Valid := by
  obtain ⟨removedSpec, itemsSpec, indexed, _⟩ :=
    @forwardLoop_spec threshold m.index.length m [] valid.toIndexed (Nat.le_refl _)
  rw [List.nil_append] at removedSpec
  generalize looped : forwardLoop threshold m.index.length m [] = result at removedSpec itemsSpec indexed
  have forwarded : m.Forward threshold = (result.2, { result.1 with cache := m.cache.map (·.drop result.2.length) }) := by
    rw [Forward, looped]
  rw [forwarded]
  refine ⟨removedSpec, itemsSpec, indexed.setCache _, ?_⟩
  intro cache cached
  obtain ⟨old, oldCache, rfl⟩ := Option.map_eq_some_iff.mp cached
  have below : ∀ a ∈ byNonce m.items, ∀ b ∈ byNonce m.items, a.Nonce < b.Nonce →
      decide (b.Nonce < threshold) = true → decide (a.Nonce < threshold) = true := by
    intro a _ b _ lower bBelow
    simp only [decide_eq_true_eq] at bBelow ⊢
    omega
  show old.drop result.2.length = byNonce result.1.items
  rw [valid.cached old oldCache, removedSpec, itemsSpec, valid.keyed.byNonce_filter (fun key => decide (threshold ≤ key)),
    drop_length_filter valid.keyed.pairwise_byNonce below]
  exact List.filter_congr fun tx _ => by
    rw [← decide_not]
    exact decide_eq_decide.mpr Nat.not_lt

end Forward

/-! ### Filter -/

/-- Filter removes and returns exactly the transactions filter selects; it
rebuilds the heap when it removed any. -/
theorem Filter_spec {m : txSortedMap} (valid : m.Valid) (filter : Transaction → Bool) :
    (m.Filter filter).1 = (m.items.map (·.2)).filter filter ∧
      (m.Filter filter).2.items = m.items.filter (fun entry => !filter entry.2) ∧
      (m.Filter filter).2.Valid := by
  have removedEq := map_filter_tx m.items filter
  by_cases selected : ((m.items.filter fun entry => filter entry.2).map (·.2)).length > 0
  · have unfolded : m.Filter filter = ((m.items.filter fun entry => filter entry.2).map (·.2),
        { items := m.items.filter fun entry => !filter entry.2,
          index := Heap.init nonceLess ((m.items.filter fun entry => !filter entry.2).map (·.1)), cache := none }) := by
      simp only [Filter, selected, if_true]
    rw [unfolded]
    exact ⟨removedEq, rfl, ⟨valid.keyed.filter _, Heap.init_perm _ _, Heap.init_ordered (nonceLess_ranks _)⟩,
      fun _ none => by cases none⟩
  · -- nothing was selected, so every transaction is kept
    have noneSelected : m.items.filter (fun entry => filter entry.2) = [] := by
      simpa using selected
    have kept : m.items.filter (fun entry => !filter entry.2) = m.items :=
      List.filter_eq_self.mpr fun entry mem => by
        simpa using List.filter_eq_nil_iff.mp noneSelected entry mem
    have unfolded : m.Filter filter = ((m.items.filter fun entry => filter entry.2).map (·.2), m) := by
      simp only [Filter, selected, if_false, kept]
    rw [unfolded]
    exact ⟨removedEq, kept.symm, valid⟩

/-! ### Cap -/

section Cap

variable {m : txSortedMap}

/-- Heap sorted: the heap's nonces in increasing order are the nonces of the
sorted transactions. -/
theorem Indexed.mergeSort_index (indexed : m.Indexed) :
    m.index.mergeSort (fun a b => decide (a ≤ b)) = (byNonce m.items).map Transaction.Nonce := by
  have perm : ((byNonce m.items).map Transaction.Nonce).Perm m.index := indexed.keyed.keys_perm.trans indexed.perm.symm
  show sortBy id m.index = _
  exact sortBy_eq (by simpa using perm.nodup_iff.mp indexed.keyed.nodup_byNonce) perm
    (List.pairwise_map.mpr indexed.keyed.pairwise_byNonce)

/-- What Cap computes when it drops: the transactions past threshold, and the
map of the others with the heap of their nonces. -/
theorem Cap_eq (valid : m.Valid) {threshold : Nat} (exceeds : ¬ m.items.length ≤ threshold) :
    m.Cap threshold =
      (((byNonce m.items).drop threshold).reverse,
        { items := m.items.filter fun entry => entry.1 ∉ ((byNonce m.items).drop threshold).map Transaction.Nonce,
          index := Heap.init nonceLess (((byNonce m.items).take threshold).map Transaction.Nonce),
          cache := m.cache.map fun cache => cache.take (cache.length - ((byNonce m.items).drop threshold).length) }) := by
  have lengthEq : (byNonce m.items).length = m.items.length := by simp [byNonce, sortBy]
  have whole : ((byNonce m.items).map Transaction.Nonce).take m.items.length = (byNonce m.items).map Transaction.Nonce :=
    List.take_of_length_le (by simp [lengthEq])
  -- each dropped nonce finds its transaction
  have drops : ((((byNonce m.items).drop threshold).reverse).map Transaction.Nonce).filterMap (GoMap.get m.items) =
      ((byNonce m.items).drop threshold).reverse := by
    rw [List.filterMap_map]
    refine (List.filterMap_congr fun tx mem => ?_).trans List.filterMap_some
    exact valid.keyed.get_nonce ((sortBy_perm _).mem_iff.mp (List.mem_of_mem_drop (List.mem_reverse.mp mem)))
  have deleted : ((((byNonce m.items).drop threshold).reverse).map Transaction.Nonce).foldl GoMap.delete m.items =
      m.items.filter fun entry => entry.1 ∉ ((byNonce m.items).drop threshold).map Transaction.Nonce := by
    rw [GoMap.foldl_delete]
    exact List.filter_congr fun entry _ => by simp [List.map_reverse]
  simp only [Cap, if_neg exceeds]
  rw [valid.mergeSort_index, whole, ← List.map_drop, ← List.map_reverse, drops, deleted, ← List.map_take,
    List.length_reverse]

/-- Cap removes and returns the transactions past the threshold lowest
nonces, the highest first, and keeps the others. -/
theorem Cap_spec (valid : m.Valid) (threshold : Nat) :
    (m.Cap threshold).1 = ((byNonce m.items).drop threshold).reverse ∧
      byNonce (m.Cap threshold).2.items = (byNonce m.items).take threshold ∧
      (m.Cap threshold).2.Valid := by
  have lengthEq : (byNonce m.items).length = m.items.length := by simp [byNonce, sortBy]
  by_cases fits : m.items.length ≤ threshold
  · simp only [Cap, if_pos fits]
    exact ⟨by rw [List.drop_eq_nil_of_le (by omega), List.reverse_nil],
      (List.take_of_length_le (by omega)).symm, valid⟩
  · rw [Cap_eq valid fits]
    have distinct := valid.keyed.nodup_byNonce
    -- the transactions kept are the first threshold in nonce order
    have kept : byNonce (m.items.filter fun entry => entry.1 ∉ ((byNonce m.items).drop threshold).map Transaction.Nonce) =
        (byNonce m.items).take threshold := by
      rw [valid.keyed.byNonce_filter (fun key => decide (key ∉ ((byNonce m.items).drop threshold).map Transaction.Nonce))]
      exact filter_not_mem_drop distinct threshold
    have keyed := valid.keyed.filter fun entry => decide (entry.1 ∉ ((byNonce m.items).drop threshold).map Transaction.Nonce)
    refine ⟨rfl, kept, ⟨keyed, ?_, Heap.init_ordered (nonceLess_ranks _)⟩, ?_⟩
    · exact (Heap.init_perm _ _).trans (kept ▸ keyed.keys_perm)
    · intro cache cached
      obtain ⟨old, oldCache, rfl⟩ := Option.map_eq_some_iff.mp cached
      rw [valid.cached old oldCache, kept, List.length_drop]
      congr 1
      omega

end Cap

/-! ### Remove -/

/-- Remove deletes the transaction of the nonce, and the nonce from the heap. -/
theorem Remove_spec {m : txSortedMap} (valid : m.Valid) (nonce : Nat) :
    (m.Remove nonce).1 = (GoMap.get m.items nonce).isSome ∧
      (m.Remove nonce).2.items = GoMap.delete m.items nonce ∧ (m.Remove nonce).2.Valid := by
  cases found : GoMap.get m.items nonce with
  | none =>
    -- no transaction of the nonce: nothing to delete
    have absent := GoMap.get_eq_none_iff.mp found
    have nothing : GoMap.delete m.items nonce = m.items :=
      List.filter_eq_self.mpr fun entry mem => by
        have stored : entry.1 ∈ m.items.map (·.1) := List.mem_map_of_mem mem
        have different : entry.1 ≠ nonce := fun same => absent (same ▸ stored)
        simpa using different
    have unfolded : m.Remove nonce = (false, m) := by
      simp only [Remove, found, Option.isNone_none, if_true]
    rw [unfolded]
    exact ⟨rfl, nothing.symm, valid⟩
  | some tx =>
    have present : nonce ∈ m.index := valid.perm.mem_iff.mpr (List.mem_map_of_mem (GoMap.mem_of_get found))
    obtain ⟨i, position⟩ : ∃ i, m.index.findIdx? (· = nonce) = some i := by
      cases finds : m.index.findIdx? (· = nonce) with
      | none => exact absurd present (by simpa using List.findIdx?_eq_none_iff.mp finds nonce)
      | some i => exact ⟨i, rfl⟩
    obtain ⟨inside, atI, _⟩ := List.findIdx?_eq_some_iff_getElem.mp position
    have atNonce : m.index[i] = nonce := by simpa using atI
    have unfolded : m.Remove nonce =
        (true, { items := GoMap.delete m.items nonce, index := (Heap.remove nonceLess m.index i).1, cache := none }) := by
      simp only [Remove, found, Option.isNone_some, Bool.false_eq_true, if_false, position]
    rw [unfolded]
    refine ⟨rfl, rfl, ⟨⟨valid.keyed.filter _, ?_, Heap.remove_ordered inside (nonceLess_ranks _) valid.ordered⟩,
      fun _ none => by cases none⟩⟩
    -- the heap less the nonce holds the keys less the nonce
    show (Heap.remove nonceLess m.index i).1.Perm ((GoMap.delete m.items nonce).map (·.1))
    rw [GoMap.keys_delete]
    have removed := Heap.remove_perm nonceLess m.index inside
    rw [atNonce] at removed
    exact perm_filter_ne (removed.trans valid.perm) valid.keyed.distinct

/-! ### Ready -/

section Ready

variable {next fuel : Nat} {m : txSortedMap} {ready : List Transaction}

theorem readyLoop_nil (empty : m.index = []) : readyLoop fuel next m ready = (m, ready) := by
  cases fuel <;> simp [readyLoop, empty]

theorem readyLoop_stop {least : Nat} {rest : List Nat} (root : m.index = least :: rest) (other : least ≠ next) :
    readyLoop (fuel + 1) next m ready = (m, ready) := by
  simp [readyLoop, root, other]

theorem readyLoop_pop {rest : List Nat} {tx : Transaction} (root : m.index = next :: rest)
    (found : GoMap.get m.items next = some tx) :
    readyLoop (fuel + 1) next m ready =
      readyLoop fuel (next + 1) { m with items := GoMap.delete m.items next, index := (Heap.pop nonceLess m.index).1 }
        (ready ++ [tx]) := by
  conv_lhs => rw [readyLoop, root]
  simp [found, root]

/-- Ready's loop takes the run of consecutive nonces from next at the front of
the sorted transactions, up to the first nonce missing. Induction on the fuel,
which the heap's length bounds. -/
theorem readyLoop_spec (fuel : Nat) : ∀ (next : Nat) (m : txSortedMap) (ready : List Transaction), m.Indexed →
    m.index.length ≤ fuel → (∀ key ∈ m.items.map (·.1), next ≤ key) →
      ∃ run, (readyLoop fuel next m ready).2 = ready ++ run ∧
        byNonce m.items = run ++ byNonce (readyLoop fuel next m ready).1.items ∧
        run.map (·.Nonce) = List.range' next run.length ∧
        (∀ tx ∈ (byNonce (readyLoop fuel next m ready).1.items).head?, tx.Nonce ≠ next + run.length) ∧
        (readyLoop fuel next m ready).1.Indexed ∧ (readyLoop fuel next m ready).1.cache = m.cache := by
  -- a loop that stops at once takes nothing: the lowest nonce is not next
  have stopped : ∀ (next : Nat) (m : txSortedMap) (ready : List Transaction), m.Indexed →
      (∀ tx ∈ (byNonce m.items).head?, tx.Nonce ≠ next) →
      ∃ run, ready = ready ++ run ∧ byNonce m.items = run ++ byNonce m.items ∧
        run.map (·.Nonce) = List.range' next run.length ∧
        (∀ tx ∈ (byNonce m.items).head?, tx.Nonce ≠ next + run.length) ∧ m.Indexed ∧ m.cache = m.cache :=
    fun _ _ _ indexed notNext => ⟨[], by simp, by simp, rfl, by simpa using notNext, indexed, rfl⟩
  induction fuel with
  | zero =>
    intro next m ready indexed enough _
    have empty : m.index = [] := List.eq_nil_of_length_eq_zero (by omega)
    rw [readyLoop_nil empty]
    exact stopped next m ready indexed (by simp [indexed.items_nil empty])
  | succ fuel inductionHypothesis =>
    intro next m ready indexed enough atLeast
    cases root : m.index with
    | nil =>
      rw [readyLoop_nil root]
      exact stopped next m ready indexed (by simp [indexed.items_nil root])
    | cons least rest =>
      obtain ⟨tx, found, nonce, sorted⟩ := indexed.byNonce_root root
      by_cases same : least = next
      · subst same
        rw [readyLoop_pop root found]
        -- the others' nonces are above the one taken
        have above : ∀ key ∈ (GoMap.delete m.items least).map (·.1), least + 1 ≤ key := by
          intro key mem
          rw [GoMap.keys_delete, List.mem_filter] at mem
          have different : key ≠ least := by simpa using mem.2
          have := atLeast key mem.1
          omega
        obtain ⟨run, runSpec, sortedSpec, consecutive, maximal, indexedAfter, cacheSpec⟩ :=
          inductionHypothesis (least + 1) _ (ready ++ [tx]) (indexed.pop root)
            (by simp [root] at enough ⊢; omega) above
        refine ⟨tx :: run, by simp [runSpec], ?_, ?_, ?_, indexedAfter, cacheSpec⟩
        · rw [sorted, sortedSpec]
          rfl
        · rw [List.map_cons, consecutive, nonce, List.length_cons, List.range'_succ]
        · intro later first
          have := maximal later first
          simp only [List.length_cons]
          omega
      · rw [readyLoop_stop root same]
        exact stopped next m ready indexed (by simp [sorted, nonce, same])

/-- Ready takes nothing when the lowest nonce is above start, and otherwise
removes and returns the maximal run of consecutive nonces from the lowest. -/
theorem Ready_spec (valid : m.Valid) (start : Nat) :
    byNonce m.items = (m.Ready start).1 ++ byNonce (m.Ready start).2.items ∧
      (∀ lowest ∈ (byNonce m.items).head?,
        (start < lowest.Nonce → (m.Ready start).1 = []) ∧
        (lowest.Nonce ≤ start →
          (m.Ready start).1.map (·.Nonce) = List.range' lowest.Nonce (m.Ready start).1.length ∧
          ∀ next ∈ (byNonce (m.Ready start).2.items).head?, next.Nonce ≠ lowest.Nonce + (m.Ready start).1.length)) ∧
      (m.Ready start).2.Valid := by
  cases root : m.index with
  | nil =>
    have unfolded : m.Ready start = ([], m) := by simp [Ready, root]
    rw [unfolded, valid.items_nil root]
    exact ⟨rfl, by simp, valid⟩
  | cons least rest =>
    obtain ⟨tx, found, nonce, sorted⟩ := valid.byNonce_root root
    by_cases late : start < least
    · have unfolded : m.Ready start = ([], m) := by simp [Ready, root, late]
      rw [unfolded]
      refine ⟨rfl, fun lowest first => ?_, valid⟩
      rw [sorted, List.head?_cons, Option.mem_some_iff] at first
      subst first
      exact ⟨fun _ => rfl, fun early => absurd late (by omega)⟩
    · obtain ⟨run, runSpec, sortedSpec, consecutive, maximal, indexed, _⟩ :=
        readyLoop_spec (rest.length + 1) least m [] valid.toIndexed (by simp [root]) (valid.root_le root)
      generalize looped : readyLoop (rest.length + 1) least m [] = result at runSpec sortedSpec maximal indexed
      have unfolded : m.Ready start = (result.2, { result.1 with cache := none }) := by
        simp [Ready, root, late, looped]
      rw [unfolded, runSpec, List.nil_append]
      refine ⟨sortedSpec, fun lowest first => ?_, indexed.setCache none, fun _ none => by cases none⟩
      rw [sorted, List.head?_cons, Option.mem_some_iff] at first
      subst first
      exact ⟨fun early => absurd early (by omega), fun _ => ⟨nonce ▸ consecutive, nonce ▸ maximal⟩⟩

end Ready

/-! ### Put and Flatten -/

/-- Put keeps the invariant: a new nonce is pushed on the heap, and the cache
is dropped. -/
theorem Put_valid {m : txSortedMap} (valid : m.Valid) (tx : Transaction) : (m.Put tx).Valid := by
  have keyed : Keyed (GoMap.set m.items tx.Nonce tx) := by
    refine ⟨fun entry mem => ?_, ?_⟩
    · rcases GoMap.mem_set mem with rfl | old
      · rfl
      · exact valid.keyed.nonce entry old
    · rw [GoMap.keys_set]
      split
      · exact valid.keyed.distinct
      · rename_i absent
        refine List.nodup_append.mpr ⟨valid.keyed.distinct, List.nodup_singleton _, fun key mem other added => ?_⟩
        rw [List.mem_singleton.mp added]
        exact fun same => absent (same ▸ mem)
  cases found : GoMap.get m.items tx.Nonce with
  | none =>
    have absent := GoMap.get_eq_none_iff.mp found
    have unfolded : m.Put tx =
        { items := GoMap.set m.items tx.Nonce tx, index := Heap.push nonceLess m.index tx.Nonce, cache := none } := by
      simp [Put, found]
    rw [unfolded]
    refine ⟨⟨keyed, ?_, Heap.push_ordered (nonceLess_ranks _) valid.ordered⟩, fun _ none => by cases none⟩
    -- the new nonce joins the heap and the keys
    show (Heap.push nonceLess m.index tx.Nonce).Perm ((GoMap.set m.items tx.Nonce tx).map (·.1))
    rw [GoMap.keys_set, if_neg absent]
    exact (Heap.push_perm _ _ _).trans ((valid.perm.cons _).trans (List.perm_append_singleton _ _).symm)
  | some old =>
    have present : tx.Nonce ∈ m.items.map (·.1) := List.mem_map_of_mem (GoMap.mem_of_get found)
    have unfolded : m.Put tx = { items := GoMap.set m.items tx.Nonce tx, index := m.index, cache := none } := by
      simp [Put, found]
    rw [unfolded]
    refine ⟨⟨keyed, ?_, valid.ordered⟩, fun _ none => by cases none⟩
    show m.index.Perm ((GoMap.set m.items tx.Nonce tx).map (·.1))
    rw [GoMap.keys_set, if_pos present]
    exact valid.perm

/-- Flatten returns the transactions in strictly increasing nonce order, and
caches them. -/
theorem Flatten_spec {m : txSortedMap} (valid : m.Valid) :
    m.Flatten.1 = byNonce m.items ∧ m.Flatten.1.Pairwise (fun a b => a.Nonce < b.Nonce) ∧
      m.Flatten.2.items = m.items ∧ m.Flatten.2.Valid := by
  have flat : m.Flatten.1 = byNonce m.items := by
    cases cached : m.cache with
    | none => simp [Flatten, cached, byNonce, sortBy]
    | some cache => simp [Flatten, cached, valid.cached cache cached]
  refine ⟨flat, flat ▸ valid.keyed.pairwise_byNonce, rfl, valid.toIndexed.setCache _, fun cache cached => ?_⟩
  have same : some m.Flatten.1 = some cache := cached
  rw [← Option.some_inj.mp same, flat]
  rfl

/-! ### Runs of operations -/

/-- The operations of txSortedMap, with their arguments. -/
inductive Op where
  | Put (tx : Transaction)
  | Forward (threshold : Nat)
  | Filter (filter : Transaction → Bool)
  | Cap (threshold : Nat)
  | Remove (nonce : Nat)
  | Ready (start : Nat)
  | Flatten

/-- The map an operation leaves. -/
def Op.apply : Op → txSortedMap → txSortedMap
  | .Put tx, m => m.Put tx
  | .Forward threshold, m => (m.Forward threshold).2
  | .Filter filter, m => (m.Filter filter).2
  | .Cap threshold, m => (m.Cap threshold).2
  | .Remove nonce, m => (m.Remove nonce).2
  | .Ready start, m => (m.Ready start).2
  | .Flatten, m => m.Flatten.2

/-- The map a sequence of operations leaves. -/
def run (m : txSortedMap) (ops : List Op) : txSortedMap := ops.foldl (fun m op => op.apply m) m

theorem newTxSortedMap_valid : newTxSortedMap.Valid where
  keyed := ⟨by simp [newTxSortedMap], by simp [newTxSortedMap]⟩
  perm := List.Perm.refl _
  ordered := fun _ _ _ _ below => absurd below (by simp [newTxSortedMap])
  cached _ none := by cases none

theorem Op.apply_valid {m : txSortedMap} (valid : m.Valid) (op : Op) : (op.apply m).Valid := by
  cases op with
  | Put tx => exact Put_valid valid tx
  | Forward threshold => exact (Forward_spec valid threshold).2.2
  | Filter filter => exact (Filter_spec valid filter).2.2
  | Cap threshold => exact (Cap_spec valid threshold).2.2
  | Remove nonce => exact (Remove_spec valid nonce).2.2
  | Ready start => exact (Ready_spec valid start).2.2
  | Flatten => exact (Flatten_spec valid).2.2.2

/-- The invariant holds after every sequence of operations. Induction on the
sequence, one operation a step. -/
theorem run_valid {m : txSortedMap} (valid : m.Valid) (ops : List Op) : (run m ops).Valid := by
  induction ops generalizing m with
  | nil => exact valid
  | cons op ops inductionHypothesis => exact inductionHypothesis (op.apply_valid valid)

end txSortedMap

end Meshbox.Core
