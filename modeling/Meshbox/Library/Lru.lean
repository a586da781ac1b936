/-
A least-recently-used cache of bounded size, as simplelru keeps one: the
entries in order of use, the most recent first. Get moves the entry it finds to
the front; Add puts its entry at the front, replacing an entry of the same key,
and drops the oldest entry when the cache would grow past its size.

The size bound is a field of the cache, so that no operation can build a cache
holding more entries than it may.
-/

import Mathlib.Data.List.Basic

namespace Lru

/-- A cache of at most size entries, the most recently used first. -/
structure Cache (κ ν : Type) where
  size : Nat
  entries : List (κ × ν)
  bounded : entries.length ≤ size

variable {κ ν : Type} [DecidableEq κ]

/-- Get: the value cached for key, the entry moved to the front. -/
def Cache.Get (cache : Cache κ ν) (key : κ) : Option ν × Cache κ ν :=
  match found : cache.entries.find? (·.1 = key) with
  | some (_, value) =>
    (some value,
      { cache with
        entries := (key, value) :: cache.entries.filter (·.1 ≠ key)
        bounded := by
          have dropped : (cache.entries.filter (·.1 ≠ key)).length < cache.entries.length :=
            List.length_filter_lt_length_iff_exists.mpr
              ⟨_, List.mem_of_find?_eq_some found, by simpa using List.find?_some found⟩
          have := cache.bounded
          simp only [List.length_cons]
          omega })
  | none => (none, cache)

/-- Add: value cached for key at the front, the oldest entry dropped when the
cache is over its size. -/
def Cache.Add (cache : Cache κ ν) (key : κ) (value : ν) : Cache κ ν :=
  let entries := (key, value) :: cache.entries.filter (·.1 ≠ key)
  if overfull : cache.size < entries.length then
    { cache with
      entries := entries.dropLast
      bounded := by
        have kept : (cache.entries.filter (·.1 ≠ key)).length ≤ cache.entries.length :=
          List.length_filter_le _ _
        have := cache.bounded
        simp only [List.length_dropLast, List.length_cons, entries]
        omega }
  else
    { cache with
      entries := entries
      bounded := Nat.le_of_not_lt overfull }

/-- The empty cache of a size. -/
def Cache.New (size : Nat) : Cache κ ν :=
  ⟨size, [], Nat.zero_le size⟩

end Lru
