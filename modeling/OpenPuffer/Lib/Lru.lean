import Mathlib

/-!
# Least recently used

A cache of bounded size as the list of its entries, the least recently used first.
An entry that is used moves to the end.  A new key takes a free place if there is
one, and otherwise the place of the first entry.
-/

universe u v

/-- At most `max` entries, one for each key. -/
structure Lru (κ : Type u) (ν : Type v) (max : Nat) where
  pos : 0 < max
  /-- Least recently used first. -/
  entries : List (κ × ν)
  nodup : (entries.map Prod.fst).Nodup
  length_le : entries.length ≤ max

namespace Lru

open List

variable {κ : Type u} {ν : Type v} {max : Nat}

def empty (pos : 0 < max) : Lru κ ν max where
  pos
  entries := []
  nodup := List.nodup_nil
  length_le := Nat.zero_le max

def keys (l : Lru κ ν max) : List κ := l.entries.map Prod.fst

theorem length_keys (l : Lru κ ν max) : l.keys.length = l.entries.length := length_map _

theorem mem_keys {l : Lru κ ν max} {k : κ} : k ∈ l.keys ↔ ∃ v, (k, v) ∈ l.entries := by
  simp [keys]

def dropOldest (l : Lru κ ν max) : Lru κ ν max where
  pos := l.pos
  entries := l.entries.tail
  nodup := List.map_tail ▸ l.nodup.tail
  length_le := (List.tail_sublist l.entries).length_le.trans l.length_le

/-- The oldest entry has its key to itself. -/
theorem mem_dropOldest {l : Lru κ ν max} {e : κ × ν} {rest : List (κ × ν)}
    (h : l.entries = e :: rest) {j : κ} {w : ν} :
    (j, w) ∈ l.dropOldest.entries ↔ (j, w) ∈ l.entries ∧ j ≠ e.1 := by
  have hnodup := l.nodup
  rw [h] at hnodup
  have hnot : e.1 ∉ rest.map Prod.fst := (nodup_cons.mp hnodup).1
  simp only [dropOldest, h, tail_cons, mem_cons]
  constructor
  · intro hmem
    exact ⟨.inr hmem, fun hj => hnot (hj ▸ mem_map_of_mem hmem)⟩
  · rintro ⟨rfl | hmem, hj⟩
    · exact absurd rfl hj
    · exact hmem

variable [DecidableEq κ]

def find (l : Lru κ ν max) (k : κ) : Option ν := (l.entries.find? (·.1 = k)).map Prod.snd

def remove (l : Lru κ ν max) (k : κ) : Lru κ ν max where
  pos := l.pos
  entries := l.entries.filter (·.1 != k)
  nodup := l.nodup.sublist (List.filter_sublist.map Prod.fst)
  length_le := List.filter_sublist.length_le.trans l.length_le

/-- A place for a key: its own, a free one, or that of the least recently used. -/
def makeRoom (l : Lru κ ν max) (k : κ) : Lru κ ν max :=
  if k ∈ l.keys then l.remove k
  else if l.entries.length < max then l
  else l.dropOldest

variable {l : Lru κ ν max} {k j : κ} {v w : ν}

theorem notMem_keys_remove (l : Lru κ ν max) (k : κ) : k ∉ (l.remove k).keys := by
  simp [keys, remove]

theorem length_remove_lt (h : k ∈ l.keys) : (l.remove k).entries.length < max := by
  obtain ⟨e, he, hk⟩ := mem_map.mp h
  refine lt_of_lt_of_le (length_filter_lt_length_iff_exists.mpr ⟨e, he, ?_⟩) l.length_le
  simp [hk]

theorem notMem_keys_makeRoom (l : Lru κ ν max) (k : κ) : k ∉ (l.makeRoom k).keys := by
  unfold makeRoom
  split
  · exact notMem_keys_remove l k
  · next habsent =>
    split
    · exact habsent
    · intro hmem
      rw [keys, dropOldest, map_tail] at hmem
      exact habsent (mem_of_mem_tail hmem)

theorem length_makeRoom_lt (l : Lru κ ν max) (k : κ) : (l.makeRoom k).entries.length < max := by
  unfold makeRoom
  split
  · next hmem => exact length_remove_lt hmem
  · split
    · assumption
    · have hle := l.length_le
      have hpos := l.pos
      simp only [dropOldest, length_tail]
      omega

/-- The entry is the most recent one now. -/
def insert (l : Lru κ ν max) (k : κ) (v : ν) : Lru κ ν max where
  pos := l.pos
  entries := (l.makeRoom k).entries ++ [(k, v)]
  nodup := by
    rw [List.map_append]
    exact List.concat_eq_append ▸ (l.makeRoom k).nodup.concat (notMem_keys_makeRoom l k)
  length_le := by
    rw [List.length_append]
    exact length_makeRoom_lt l k

/-- Use an entry and change its value. -/
def modify (l : Lru κ ν max) (k : κ) (f : ν → ν) : Lru κ ν max :=
  match l.find k with
  | none => l
  | some v => l.insert k (f v)

/-! ## Its entries -/

theorem find_eq_some : l.find k = some v ↔ (k, v) ∈ l.entries := by
  unfold find
  constructor
  · intro h
    obtain ⟨⟨j, w⟩, hfound, rfl⟩ := Option.map_eq_some_iff.mp h
    have hj : j = k := by simpa using find?_some hfound
    exact hj ▸ mem_of_find?_eq_some hfound
  · intro h
    obtain ⟨⟨j, w⟩, hfound⟩ := Option.isSome_iff_exists.mp
      (find?_isSome.mpr ⟨(k, v), h, decide_eq_true rfl⟩ :
        (l.entries.find? (·.1 = k)).isSome = true)
    have hj : j = k := by simpa using find?_some hfound
    have heq := inj_on_of_nodup_map l.nodup (mem_of_find?_eq_some hfound) h hj
    rw [hfound, heq]
    rfl

theorem mem_remove : (j, w) ∈ (l.remove k).entries ↔ (j, w) ∈ l.entries ∧ j ≠ k := by
  simp [remove]

theorem keys_remove (l : Lru κ ν max) (k : κ) : (l.remove k).keys = l.keys.erase k := by
  calc (l.remove k).keys = l.keys.filter (· != k) := by
        simp only [keys, remove, filter_map]
        rfl
    _ = l.keys.erase k := (l.nodup.erase_eq_filter k).symm

end Lru
