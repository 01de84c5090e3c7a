import Mathlib

/-!
# Consecutive blocks of numbers

A list of counts lays out blocks of consecutive numbers: block `c` has the numbers from
`start counts c` on, which is the sum of the counts before it.  Every number below the total
lies in exactly one block (`exists_block`, `block_unique`), so a sum over all numbers is a sum
over the blocks (`sum_range_sum`).
-/

namespace Blocks

open List

/-- The first number of a block. -/
def start (counts : List Nat) (c : Nat) : Nat := (counts.take c).sum

variable {counts : List Nat} {c c' i i' n n' : Nat}

theorem lt_length (h : counts[c]? = some n) : c < counts.length :=
  (List.getElem?_eq_some_iff.mp h).choose

@[simp] theorem start_zero (counts : List Nat) : start counts 0 = 0 := rfl

theorem start_of_length_le (h : counts.length ≤ c) : start counts c = counts.sum := by
  rw [start, take_of_length_le h]

@[simp] theorem start_length (counts : List Nat) : start counts counts.length = counts.sum :=
  start_of_length_le (Nat.le_refl _)

theorem start_succ (h : counts[c]? = some n) : start counts (c + 1) = start counts c + n := by
  rw [start, start, take_add_one, h, sum_append]
  simp

theorem start_mono (counts : List Nat) (h : c ≤ c') : start counts c ≤ start counts c' := by
  obtain ⟨k, rfl⟩ := Nat.exists_eq_add_of_le h
  rw [start, start, take_add, sum_append]
  exact Nat.le_add_right _ _

theorem start_append_of_le (counts more : List Nat) (h : c ≤ counts.length) :
    start (counts ++ more) c = start counts c := by
  rw [start, take_append_of_le_length h, start]

/-- A block ends before a later one starts. -/
theorem start_add_le (h : counts[c]? = some n) (hlt : c < c') :
    start counts c + n ≤ start counts c' := by
  rw [← start_succ h]
  exact start_mono counts hlt

/-- A block ends before the total. -/
theorem start_add_le_sum (h : counts[c]? = some n) : start counts c + n ≤ counts.sum := by
  rw [← start_length counts]
  exact start_add_le h (lt_length h)

/-- A number below the total lies in a block. -/
theorem exists_block {f : Nat} (h : f < counts.sum) :
    ∃ c n i, counts[c]? = some n ∧ i < n ∧ f = start counts c + i := by
  induction counts generalizing f with
  | nil => exact absurd h (Nat.not_lt_zero f)
  | cons count counts ih =>
    by_cases hlt : f < count
    · exact ⟨0, count, f, rfl, hlt, (Nat.zero_add f).symm⟩
    · rw [sum_cons] at h
      obtain ⟨c, n, i, hc, hi, hf⟩ := ih (f := f - count) (by omega)
      refine ⟨c + 1, n, i, hc, hi, ?_⟩
      have hstart : start (count :: counts) (c + 1) = count + start counts c := by
        rw [start, take_succ_cons, sum_cons, start]
      omega

/-- A number lies in one block only, at one position. -/
theorem block_unique (h : counts[c]? = some n) (h' : counts[c']? = some n') (hi : i < n)
    (hi' : i' < n') (heq : start counts c + i = start counts c' + i') : c = c' ∧ i = i' := by
  rcases Nat.lt_trichotomy c c' with hlt | rfl | hlt
  · have := start_add_le h hlt
    omega
  · exact ⟨rfl, by omega⟩
  · have := start_add_le h' hlt
    omega

section Sum

variable {M : Type*} [AddCommMonoid M]

/-- A sum over the numbers of the first blocks. -/
theorem sum_range_start (counts : List Nat) (g : Nat → M) {k : Nat} (hk : k ≤ counts.length) :
    ∑ f ∈ Finset.range (start counts k), g f
      = ∑ c ∈ Finset.range k, ∑ i ∈ Finset.range (counts.getD c 0), g (start counts c + i) := by
  induction k with
  | zero => rfl
  | succ k ih =>
    have hcount : counts[k]? = some (counts.getD k 0) := by
      rw [getD_eq_getElem?_getD, getElem?_eq_getElem hk, Option.getD_some]
    rw [Finset.sum_range_succ, ← ih (Nat.le_of_succ_le hk), start_succ hcount,
      Finset.sum_range_add]

/-- A sum over all numbers is a sum over the blocks. -/
theorem sum_range_sum (counts : List Nat) (g : Nat → M) :
    ∑ f ∈ Finset.range counts.sum, g f
      = ∑ c ∈ Finset.range counts.length,
          ∑ i ∈ Finset.range (counts.getD c 0), g (start counts c + i) := by
  rw [← sum_range_start counts g (Nat.le_refl _), start_length]

end Sum

/-! ## A block that grows -/

theorem start_grow_of_le (counts : List Nat) (h : c' ≤ c) :
    start (counts.modify c (· + 1)) c' = start counts c' := by
  rw [start, start, take_modify, modify_eq_self]
  rw [length_take]
  omega

theorem start_grow_of_lt (h : counts[c]? = some n) (hlt : c < c') :
    start (counts.modify c (· + 1)) c' = start counts c' + 1 := by
  induction c', hlt using Nat.le_induction with
  | base =>
    have hgrown : (counts.modify c (· + 1))[c]? = some (n + 1) := by
      simp [h]
    rw [start_succ hgrown, start_succ h, start_grow_of_le counts (Nat.le_refl c)]
    rfl
  | succ c' hlt ih =>
    cases hc' : counts[c']? with
    | none =>
      have hlen := getElem?_eq_none_iff.mp hc'
      have hlen' : (counts.modify c (· + 1)).length ≤ c' := by
        rw [length_modify]
        exact hlen
      rw [start_of_length_le (Nat.le_succ_of_le hlen),
        start_of_length_le (Nat.le_succ_of_le hlen')]
      rw [start_of_length_le hlen, start_of_length_le hlen'] at ih
      exact ih
    | some m =>
      have hsame : (counts.modify c (· + 1))[c']? = some m := by
        simp [hc', Nat.ne_of_lt (Nat.lt_of_succ_le hlt)]
      rw [start_succ hsame, start_succ hc', ih, Nat.add_right_comm]

end Blocks
