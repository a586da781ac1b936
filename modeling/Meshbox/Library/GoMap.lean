/-
A Go map as the list of its entries, in the order a range over it visits them.
The language leaves that order unspecified; a model fixes one. Assignment
replaces an entry in place or adds one at the end, delete drops the entry.
-/

import Mathlib.Data.List.Nodup

namespace GoMap

variable {κ ν : Type} [DecidableEq κ]

/-- The value stored under a key. -/
def get (m : List (κ × ν)) (key : κ) : Option ν :=
  (m.find? (·.1 = key)).map (·.2)

/-- The assignment m[key] = value. -/
def set (m : List (κ × ν)) (key : κ) (value : ν) : List (κ × ν) :=
  if m.any (·.1 = key) then m.map fun entry => if entry.1 = key then (key, value) else entry
  else m ++ [(key, value)]

/-- delete(m, key). -/
def delete (m : List (κ × ν)) (key : κ) : List (κ × ν) :=
  m.filter (·.1 ≠ key)

/-! ### Reading a map -/

variable {m : List (κ × ν)} {key : κ} {value : ν}

theorem get_eq_none_iff : get m key = none ↔ key ∉ m.map Prod.fst := by
  rw [get, Option.map_eq_none_iff, List.find?_eq_none, List.mem_map]
  constructor
  · rintro none ⟨entry, mem, rfl⟩
    exact none entry mem (by simp)
  · intro absent entry mem same
    exact absent ⟨entry, mem, by simpa using same⟩

theorem mem_of_get (found : get m key = some value) : (key, value) ∈ m := by
  obtain ⟨entry, findsEntry, rfl⟩ := Option.map_eq_some_iff.mp found
  have sameKey : entry.1 = key := by simpa using List.find?_some findsEntry
  rw [← sameKey]
  exact List.mem_of_find?_eq_some findsEntry

/-- In a map whose keys are distinct, the value stored under a key is the one
its entry holds. -/
theorem get_of_mem (distinct : (m.map Prod.fst).Nodup) (mem : (key, value) ∈ m) : get m key = some value := by
  induction m with
  | nil => cases mem
  | cons entry rest inductionHypothesis =>
    rw [List.map_cons, List.nodup_cons] at distinct
    by_cases here : entry.1 = key
    · -- the entry is the one of the key, as no later entry has it
      have same : entry = (key, value) := by
        rcases List.mem_cons.mp mem with same | later
        · exact same.symm
        · exact absurd (here ▸ List.mem_map_of_mem (f := Prod.fst) later) distinct.1
      simp [get, same]
    · have later : (key, value) ∈ rest := by
        rcases List.mem_cons.mp mem with same | later
        · exact absurd (by rw [← same]) here
        · exact later
      simpa [get, here] using inductionHypothesis distinct.2 later

/-- A map of distinct keys holds the entry of a key and, apart from it, the
map with the key deleted. -/
theorem perm_cons_delete [DecidableEq ν] (distinct : (m.map Prod.fst).Nodup) (mem : (key, value) ∈ m) :
    m.Perm ((key, value) :: delete m key) := by
  have erased : m.erase (key, value) = delete m key := by
    rw [(List.Nodup.of_map Prod.fst distinct).erase_eq_filter]
    refine List.filter_congr fun entry stored => ?_
    -- an entry is the key's entry exactly when it has the key
    have same : entry = (key, value) ↔ entry.1 = key :=
      ⟨fun same => by rw [same], fun sameKey => List.inj_on_of_nodup_map distinct stored mem sameKey⟩
    by_cases sameKey : entry.1 = key
    · simp [same.mpr sameKey]
    · have different : entry ≠ (key, value) := fun equal => sameKey (same.mp equal)
      simp [sameKey, different]
  rw [← erased]
  exact List.perm_cons_erase mem

/-! ### Updating a map -/

theorem mem_set {entry : κ × ν} (mem : entry ∈ set m key value) : entry = (key, value) ∨ entry ∈ m := by
  unfold set at mem
  split at mem
  · obtain ⟨old, wasThere, replaced⟩ := List.mem_map.mp mem
    split at replaced
    · exact Or.inl replaced.symm
    · exact Or.inr (replaced ▸ wasThere)
  · rcases List.mem_append.mp mem with wasThere | added
    · exact Or.inr wasThere
    · exact Or.inl (List.mem_singleton.mp added)

/-- After the assignment m[key] = value, m[key] reads value. -/
theorem get_set_self : get (set m key value) key = some value := by
  unfold set
  split
  · rename_i present
    obtain ⟨entry, mem, same⟩ := List.any_eq_true.mp present
    -- the first entry of the key is the one the assignment wrote
    have found : ((m.map fun entry => if entry.1 = key then (key, value) else entry).find? (·.1 = key)).isSome := by
      rw [List.find?_isSome]
      exact ⟨(key, value), List.mem_map.mpr ⟨entry, mem, by simp_all⟩, by simp⟩
    obtain ⟨written, finds⟩ := Option.isSome_iff_exists.mp found
    have writtenKey : written.1 = key := by simpa using List.find?_some finds
    obtain ⟨old, -, rfl⟩ := List.mem_map.mp (List.mem_of_find?_eq_some finds)
    have oldKey : old.1 = key := by
      by_contra different
      simp [different] at writtenKey
    simp [get, finds, oldKey]
  · rename_i absent
    have none : m.find? (·.1 = key) = none := by
      have gone : ∀ other, (key, other) ∉ m := by simpa using absent
      rw [List.find?_eq_none]
      intro entry mem same
      have sameKey : entry.1 = key := by simpa using same
      exact gone entry.2 (by rw [← sameKey]; exact mem)
    simp [get, List.find?_append, none]

/-- Assignment keeps the keys of the map and adds a new key at the end. -/
theorem keys_set :
    (set m key value).map Prod.fst = if key ∈ m.map Prod.fst then m.map Prod.fst else m.map Prod.fst ++ [key] := by
  unfold set
  by_cases present : key ∈ m.map Prod.fst
  · have anyKey : m.any (·.1 = key) = true := by
      obtain ⟨entry, mem, same⟩ := List.mem_map.mp present
      exact List.any_eq_true.mpr ⟨entry, mem, by simp [same]⟩
    rw [if_pos anyKey, if_pos present, List.map_map]
    refine List.map_congr_left fun entry _ => ?_
    by_cases here : entry.1 = key <;> simp [here]
  · have noKey : m.any (·.1 = key) = false :=
      List.any_eq_false.mpr fun entry mem same => present (List.mem_map.mpr ⟨entry, mem, by simpa using same⟩)
    simp [noKey, present]

theorem keys_delete (m : List (κ × ν)) (key : κ) :
    (delete m key).map Prod.fst = (m.map Prod.fst).filter (· ≠ key) := by
  rw [delete, List.filter_map]
  rfl

/-- A key of m after the assignment m[key] = value is key or a key of m. -/
theorem mem_keys_set {other : κ} :
    other ∈ (set m key value).map Prod.fst ↔ other = key ∨ other ∈ m.map Prod.fst := by
  rw [keys_set]
  split
  · rename_i present
    constructor
    · exact Or.inr
    · rintro (rfl | kept)
      · exact present
      · exact kept
  · simp [or_comm]

/-- The keys of m after delete(m, key) are those of m but key. -/
theorem mem_keys_delete {other : κ} :
    other ∈ (delete m key).map Prod.fst ↔ other ≠ key ∧ other ∈ m.map Prod.fst := by
  rw [keys_delete, List.mem_filter]
  simp [and_comm]

/-- Deleting keys one after the other drops the entries of those keys. -/
theorem foldl_delete (keys : List κ) (m : List (κ × ν)) :
    keys.foldl delete m = m.filter fun entry => entry.1 ∉ keys := by
  induction keys generalizing m with
  | nil => simp
  | cons k keys inductionHypothesis =>
    rw [List.foldl_cons, inductionHypothesis, delete, List.filter_filter]
    refine List.filter_congr fun entry _ => ?_
    by_cases deleted : entry.1 = k <;> simp [deleted]

end GoMap
