import Mathlib

/-!
# The best elements of a list

A ranking sorts a list and keeps the first `k` elements.  `Ranks r key l` says that on the
elements of `l` the relation compares keys of a linear order, and that no two have the same
key.  An element is kept iff fewer than `k` elements have a smaller key (`Ranks.mem_take`), so a
part of a list has the same best `k` elements iff it contains them (`Ranks.take_eq_iff`).
-/

universe u v

namespace TopK

open List

variable {α : Type u} {K : Type v} [LinearOrder K]

/-- On the elements of a list the relation is the order of their keys, and the keys
are distinct. -/
structure Ranks (r : α → α → Prop) (key : α → K) (l : List α) : Prop where
  rel : ∀ a ∈ l, ∀ b ∈ l, (r a b ↔ key a ≤ key b)
  nodup : (l.map key).Nodup

/-- How many elements have a smaller key. -/
def before (key : α → K) (l : List α) (x : α) : Nat := l.countP fun y => key y < key x

section Sorted

variable {key : α → K}

/-- In a list that is sorted by key, the first elements are those with few elements
before them. -/
theorem mem_take_of_pairwise {l : List α} (h : l.Pairwise fun a b => key a < key b) (x : α)
    (k : Nat) : x ∈ l.take k ↔ x ∈ l ∧ before key l x < k := by
  induction l generalizing k with
  | nil => simp
  | cons a l ih =>
    obtain ⟨hhead, htail⟩ := pairwise_cons.mp h
    cases k with
    | zero => simp
    | succ k =>
      rw [take_succ_cons, mem_cons, mem_cons, ih htail]
      constructor
      · rintro (rfl | ⟨hx, hlt⟩)
        · have hnone : before key (x :: l) x = 0 := by
            refine countP_eq_zero.mpr fun y hy => ?_
            rcases mem_cons.mp hy with rfl | hy
            · simp
            · simpa using (hhead y hy).le
          exact ⟨.inl rfl, by omega⟩
        · refine ⟨.inr hx, ?_⟩
          rw [before, countP_cons_of_pos (by simpa using hhead x hx)]
          exact Nat.succ_lt_succ hlt
      · rintro ⟨rfl | hx, hlt⟩
        · exact .inl rfl
        · rw [before, countP_cons_of_pos (by simpa using hhead x hx)] at hlt
          exact .inr ⟨hx, Nat.lt_of_succ_lt_succ hlt⟩

theorem before_mono {l : List α} {x y : α} (h : key x ≤ key y) :
    before key l x ≤ before key l y := by
  refine countP_mono_left fun z _ hz => ?_
  have hlt : key z < key x := by simpa using hz
  simpa using hlt.trans_le h

theorem before_le_of_subset {l l' : List α} (hnodup : (l'.map key).Nodup) (hsub : l' ⊆ l) (x : α) :
    before key l' x ≤ before key l x :=
  (subperm_of_subset (Nodup.of_map key hnodup) hsub).countP_le _

end Sorted

namespace Ranks

variable {r : α → α → Prop} [DecidableRel r] {key : α → K} {l l' : List α}

section

variable (h : Ranks r key l)

include h

omit [DecidableRel r] in
theorem subset (hsub : l' ⊆ l) (hnodup : (l'.map key).Nodup) :
    Ranks r key l' :=
  ⟨fun a ha b hb => h.rel a (hsub ha) b (hsub hb), hnodup⟩

/-- On this list the sort by the relation is the sort by keys. -/
theorem insertionSort_eq :
    l.insertionSort r = l.insertionSort fun a b => key a ≤ key b := by
  have hmap := map_insertionSort r (fun a b => key a ≤ key b) id l h.rel
  rwa [map_id, map_id] at hmap

theorem pairwise :
    (l.insertionSort r).Pairwise fun a b => key a < key b := by
  have : Std.Total fun a b : α => key a ≤ key b := ⟨fun a b => le_total (key a) (key b)⟩
  have : IsTrans α fun a b => key a ≤ key b := ⟨fun _ _ _ hab hbc => hab.trans hbc⟩
  have hle : (l.insertionSort r).Pairwise fun a b => key a ≤ key b := by
    rw [h.insertionSort_eq]
    exact pairwise_insertionSort _ l
  have hne : (l.insertionSort r).Pairwise fun a b => key a ≠ key b := by
    have hperm := (perm_insertionSort r l).map key
    exact pairwise_map.mp (hperm.nodup_iff.mpr h.nodup)
  exact (hle.and hne).imp fun hab => lt_of_le_of_ne hab.1 hab.2

/-- An element is among the best `k` iff fewer than `k` are better. -/
theorem mem_take (x : α) (k : Nat) :
    x ∈ (l.insertionSort r).take k ↔ x ∈ l ∧ before key l x < k := by
  rw [mem_take_of_pairwise h.pairwise, mem_insertionSort, before, before,
    (perm_insertionSort r l).countP_eq]

/-- If at least `k` elements are better, then `k` of them are the best `k`. -/
theorem take_subset_of_le_before {x : α} {k : Nat}
    (hk : k ≤ before key l x) :
    ((l.insertionSort r).take k).length = k ∧
      ∀ y ∈ (l.insertionSort r).take k, key y < key x := by
  constructor
  · rw [length_take, length_insertionSort]
    exact Nat.min_eq_left (hk.trans countP_le_length)
  · intro y hy
    refine lt_of_not_ge fun hle => ?_
    exact Nat.not_lt.mpr (hk.trans (before_mono hle)) ((h.mem_take y k).mp hy).2

/-- A part of a list has the same best `k` elements iff it contains them. -/
theorem take_eq_iff (hsub : l' ⊆ l) (hnodup : (l'.map key).Nodup) (k : Nat) :
    (l'.insertionSort r).take k = (l.insertionSort r).take k ↔
      ∀ x ∈ (l.insertionSort r).take k, x ∈ l' := by
  have h' := h.subset hsub hnodup
  constructor
  · intro heq x hx
    rw [← heq] at hx
    exact ((h'.mem_take x k).mp hx).1
  · intro hkept
    have : Std.Irrefl fun a b : α => key a < key b := ⟨fun a => lt_irrefl (key a)⟩
    have : Std.Antisymm fun a b : α => key a < key b :=
      ⟨fun a b hab hba => absurd hba (lt_asymm hab)⟩
    refine (h'.pairwise.sublist (take_sublist _ _)).eq_of_mem_iff
      (h.pairwise.sublist (take_sublist _ _)) fun x => ?_
    constructor
    · intro hx
      obtain ⟨hmem, hlt⟩ := (h'.mem_take x k).mp hx
      refine (h.mem_take x k).mpr ⟨hsub hmem, ?_⟩
      by_contra hge
      obtain ⟨hlen, hbetter⟩ := h.take_subset_of_le_before (Nat.not_lt.mp hge)
      have hall : ((l.insertionSort r).take k).countP (fun y => key y < key x) = k := by
        rw [countP_eq_length.mpr fun y hy => by simpa using hbetter y hy, hlen]
      have hle : before key ((l.insertionSort r).take k) x ≤ before key l' x := by
        refine before_le_of_subset ?_ hkept x
        exact pairwise_map.mpr
          ((h.pairwise.sublist (take_sublist _ _)).imp fun hlt => hlt.ne)
      rw [before, hall] at hle
      omega
    · intro hx
      have hlt := ((h.mem_take x k).mp hx).2
      exact (h'.mem_take x k).mpr ⟨hkept x hx, (before_le_of_subset hnodup hsub x).trans_lt hlt⟩

/-- What is among the best `k` of a list is among the best `k` of every part that has
it. -/
theorem mem_take_of_mem_take (hsub : l' ⊆ l) (hnodup : (l'.map key).Nodup)
    {x : α} {k : Nat} (hx : x ∈ (l.insertionSort r).take k) (hmem : x ∈ l') :
    x ∈ (l'.insertionSort r).take k := by
  have hlt := ((h.mem_take x k).mp hx).2
  exact ((h.subset hsub hnodup).mem_take x k).mpr
    ⟨hmem, (before_le_of_subset hnodup hsub x).trans_lt hlt⟩

end

end Ranks

end TopK
