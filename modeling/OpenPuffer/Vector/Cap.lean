import OpenPuffer.Vector.Layout

/-!
# The size of the clusters

Maintenance ends with at most `maxRounds` rounds that split clusters with more than
`maxClusterMembers` members.  If two centroids do not divide a cluster, a round spreads its
members over the cell and counts that as progress, even if all of them come back.

If two centroids divide a cluster, and its halves in turn, until every group fits (`CanSplit`),
a round makes real progress.  What is left to do in a cell is its `overflow` and how often the
limit of `maxSplitsPerCluster` splits can be reached before the cell is full (`roundsFor`).  A
round lowers the sum over all cells (`tryEach_roundsLeft`), by one cluster in the worst case:
the ids of a round are collected at its start, and a split moves those of the later cells up.
-/

namespace OpenPuffer

open Finset CentroidIndexL0

namespace VectorIndex

/-! ## What is left to do -/

/-- The number of clusters that so many members need besides the first one. -/
def overflow (n : Nat) : Nat := (n - 1) / maxClusterMembers

theorem overflow_add_le (m n : Nat) : overflow m + overflow n ≤ overflow (m + n) := by
  simp only [overflow, maxClusterMembers]
  omega

/-- The size of a cluster. -/
def load (idx : VectorIndex) (f : Nat) : Nat := (membersAt idx.clusters f).length

def cellOverflow (idx : VectorIndex) (c : Nat) : Nat :=
  ∑ i ∈ Finset.range (idx.fineCount c), overflow (idx.load (idx.l0.globalFineId c i))

/-- No cluster of a cell that is not full is too large. -/
def Capped (idx : VectorIndex) : Prop :=
  ∀ f c i, idx.l0.coarseLocalFromGlobal f = some (c, i) →
    idx.fineCount c < maxFinePerCoarse → idx.load f ≤ maxClusterMembers

section Split

variable {idx idx' : VectorIndex} {c count i : Nat} {left right : List ClusterMember}

theorem IsSplit.load_eq {fineId : Nat} (hs : IsSplit idx c count fineId left right idx') :
    idx.load fineId = left.length + right.length := by
  have hcard := congrArg Multiset.card hs.halves
  rw [Multiset.card_add] at hcard
  exact hcard.symm

section

variable (hc : idx.l0.fineCounts[c]? = some count)

include hc

theorem IsSplit.fineCount_self {fineId : Nat}
    (hs : IsSplit idx c count fineId left right idx') : idx'.fineCount c = count + 1 :=
  fineCount_eq (hs.getElem?_counts hc)

variable (hi : i < count) (hs : IsSplit idx c count (idx.l0.globalFineId c i) left right idx')

include hi hs

theorem IsSplit.cellOverflow_of_ne {c' : Nat} (hne : c' ≠ c) :
    idx'.cellOverflow c' = idx.cellOverflow c' := by
  rw [cellOverflow, hs.fineCount_of_ne hne]
  refine sum_congr rfl fun j hj => ?_
  rw [load, hs.membersAt_of_ne hc hi hne (mem_range.mp hj), load]

theorem IsSplit.cellOverflow_self :
    idx'.cellOverflow c + overflow (idx.load (idx.l0.globalFineId c i))
      = idx.cellOverflow c + overflow left.length + overflow right.length := by
  have hmem : i ∈ range count := mem_range.mpr hi
  have hat : ∀ j < count + 1, idx'.load (idx'.l0.globalFineId c j)
      = if j = count then right.length else if j = i then left.length
        else idx.load (idx.l0.globalFineId c j) := by
    intro j hj
    rw [load, hs.membersAt_self hi hj, apply_ite List.length, apply_ite List.length]
    rfl
  have hrest : ∑ j ∈ (range count).erase i,
      overflow (idx'.load (idx'.l0.globalFineId c j))
      = ∑ j ∈ (range count).erase i, overflow (idx.load (idx.l0.globalFineId c j)) := by
    refine sum_congr rfl fun j hj => ?_
    obtain ⟨hji, hj⟩ := mem_erase.mp hj
    have hlt := mem_range.mp hj
    rw [hat j (Nat.lt_succ_of_lt hlt), if_neg (Nat.ne_of_lt hlt), if_neg hji]
  rw [cellOverflow, hs.fineCount_self hc, sum_range_succ, cellOverflow, fineCount_eq hc,
    ← add_sum_erase _ _ hmem,
    ← add_sum_erase _ (fun j => overflow (idx.load (idx.l0.globalFineId c j))) hmem,
    hat i (Nat.lt_succ_of_lt hi), hat count (Nat.lt_succ_self count), if_pos rfl, if_pos rfl,
    if_neg (Nat.ne_of_lt hi)]
  omega

end

end Split

section Quantized

variable (q : Quantizer) (o : IterOrder Nat) {idx idx' : VectorIndex}

/-- Two centroids divide the members, and the halves in turn, until all groups fit in a
cluster. -/
inductive Divides (dim : Nat) (metric : DistanceMetric) : List ClusterMember → Prop
  | fits {ms : List ClusterMember} (h : ms.length ≤ maxClusterMembers) : Divides dim metric ms
  | split {ms : List ClusterMember} (hsep : Separated q dim metric ms)
      (hleft : Divides dim metric (halves q dim metric ms).1)
      (hright : Divides dim metric (halves q dim metric ms).2) : Divides dim metric ms

variable {q} in
theorem Divides.of_large {dim : Nat} {metric : DistanceMetric} {ms : List ClusterMember}
    (h : Divides q dim metric ms) (hlarge : maxClusterMembers < ms.length) :
    Separated q dim metric ms ∧ Divides q dim metric (halves q dim metric ms).1 ∧
      Divides q dim metric (halves q dim metric ms).2 := by
  cases h with
  | fits hfits => exact absurd hlarge (Nat.not_lt.mpr hfits)
  | split hsep hleft hright => exact ⟨hsep, hleft, hright⟩

/-- The clusters of the cells that are not full can be divided until they fit. -/
def CanSplit (idx : VectorIndex) : Prop :=
  ∀ c, ∀ i < idx.fineCount c, idx.fineCount c < maxFinePerCoarse →
    Divides q idx.l0.dimensions idx.l0.distanceMetric
      (membersAt idx.clusters (idx.l0.globalFineId c i))

variable {q} in
/-- A split passes on what it leaves to divide. -/
theorem IsSplit.canSplit {c count i : Nat} {left right : List ClusterMember}
    (hc : idx.l0.fineCounts[c]? = some count) (hi : i < count)
    (hs : IsSplit idx c count (idx.l0.globalFineId c i) left right idx')
    (hhalves : VectorIndex.halves q idx.l0.dimensions idx.l0.distanceMetric
      (membersAt idx.clusters (idx.l0.globalFineId c i)) = (left, right))
    (hlarge : maxClusterMembers < idx.load (idx.l0.globalFineId c i)) (h : idx.CanSplit q) :
    idx'.CanSplit q := by
  intro c' j hj hroom
  have hdims : idx'.l0.dimensions = idx.l0.dimensions := by rw [hs.l0]
  have hmetric : idx'.l0.distanceMetric = idx.l0.distanceMetric := by rw [hs.l0]
  rw [hdims, hmetric]
  by_cases hne : c' = c
  · subst hne
    have hcount := fineCount_eq hc
    rw [hs.fineCount_self hc] at hj hroom
    obtain ⟨-, hleft, hright⟩ := (h c' i (by omega) (by omega)).of_large hlarge
    rw [hhalves] at hleft hright
    rw [hs.membersAt_self hi hj]
    split
    · exact hright
    split
    · exact hleft
    · exact h c' j (by omega) (by omega)
  · rw [hs.fineCount_of_ne hne] at hj hroom
    rw [hs.membersAt_of_ne hc hi hne hj]
    exact h c' j hj hroom

/-- Some splits of clusters of one cell. -/
structure SplitRun (idx idx' : VectorIndex) (c splits : Nat) : Prop where
  steps : Steps q idx idx'
  others : ∀ c', c' ≠ c →
    idx'.fineCount c' = idx.fineCount c' ∧ idx'.cellOverflow c' = idx.cellOverflow c'
  count : idx'.fineCount c = idx.fineCount c + splits
  overflow : idx'.cellOverflow c ≤ idx.cellOverflow c
  canSplit : idx.CanSplit q → idx'.CanSplit q

variable {q} in
theorem SplitRun.refl (idx : VectorIndex) (c : Nat) : SplitRun q idx idx c 0 :=
  ⟨.refl, fun _ _ => ⟨rfl, rfl⟩, rfl, Nat.le_refl _, id⟩

variable {q} in
theorem SplitRun.head {idx₁ : VectorIndex} {c count i splits : Nat}
    {left right : List ClusterMember} (hc : idx.l0.fineCounts[c]? = some count) (hi : i < count)
    (hs : IsSplit idx c count (idx.l0.globalFineId c i) left right idx₁)
    (hmay : MaySplit idx c (idx.l0.globalFineId c i))
    (hhalves : halves q idx.l0.dimensions idx.l0.distanceMetric
      (membersAt idx.clusters (idx.l0.globalFineId c i)) = (left, right))
    (hsep : Separated q idx.l0.dimensions idx.l0.distanceMetric
      (membersAt idx.clusters (idx.l0.globalFineId c i)))
    (h : SplitRun q idx₁ idx' c splits) : SplitRun q idx idx' c (splits + 1) where
  steps := .head (.split hc hi hs hmay hsep) h.steps
  others := fun c' hne => ⟨(h.others c' hne).1.trans (hs.fineCount_of_ne hne),
    (h.others c' hne).2.trans (hs.cellOverflow_of_ne hc hi hne)⟩
  count := by
    rw [h.count, hs.fineCount_self hc, fineCount_eq hc]
    omega
  overflow := by
    have hself := hs.cellOverflow_self hc hi
    have hhalves := overflow_add_le left.length right.length
    rw [← hs.load_eq] at hhalves
    have := h.overflow
    omega
  canSplit := fun hcan => h.canSplit (hs.canSplit hc hi hhalves hmay.2 hcan)

/-- Where no cluster is too large there is nothing to split. -/
theorem Capped.canSplit (h : idx.Capped) : idx.CanSplit q := by
  intro c i hi hroom
  obtain ⟨count, -, hc, -⟩ :=
    getElem?_of_inCell ⟨Nat.le_add_right _ _, Nat.add_lt_add_left hi (idx.l0.globalIdStart c)⟩
  exact .fits (h _ c i (coarseLocal_globalFineId hc (fineCount_eq hc ▸ hi)) hroom)

theorem OneCell.of_length (h : idx.l0.fineCounts.length = 1) :
    idx.OneCell := by
  have hzero : ∀ c m, m ∈ idx.cellMembers c → c = 0 := by
    intro c m hm
    by_contra hne
    rw [cellMembers_of_length_le (by omega)] at hm
    exact absurd hm (Multiset.notMem_zero m)
  intro c c' m m' hm hm' _
  rw [hzero c m hm, hzero c' m' hm']

end Quantized

end VectorIndex

end OpenPuffer
