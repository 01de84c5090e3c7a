import OpenPuffer.Vector.Maintenance

/-!
# The layout of the cells

Fine ids are numbered through all cells.  `Layout` says that the rest of an index agrees with
the counts: each cell has its centroids and starts at the sum of the counts before it, and every
cluster stands under an id below the total.  Then the members of the index are those of its
cells (`members_eq_sum_cellMembers`).  A step of maintenance keeps the layout and the members of
each cell.
-/

namespace OpenPuffer

open Finset Option Blocks CentroidIndexL0

/-! ## Positions -/

theorem CentroidIndexL0.locate_eq {fineId : Nat} {counts : List Nat} {j count i : Nat}
    (coarseId offset : Nat) (hj : counts[j]? = some count) (hi : i < count)
    (hid : fineId = offset + Blocks.start counts j + i) :
    locate fineId coarseId offset counts = some (coarseId + j, i) := by
  induction counts generalizing coarseId offset j with
  | nil => cases hj
  | cons n counts ih =>
    rw [locate]
    cases j with
    | zero =>
      cases hj
      rw [start_zero] at hid
      rw [if_pos (by omega), hid]
      simp
    | succ j =>
      have hstart : start (n :: counts) (j + 1) = n + start counts j := by
        rw [start, List.take_succ_cons, List.sum_cons, start]
      rw [if_neg (by omega), ih (coarseId + 1) (offset + n) hj (by omega)]
      congr 2
      omega

variable {l0 : CentroidIndexL0} {c f : Nat}

/-- A position of a cell is located there. -/
theorem CentroidIndexL0.coarseLocal_globalFineId {count i : Nat}
    (hc : l0.fineCounts[c]? = some count) (hi : i < count) :
    l0.coarseLocalFromGlobal (l0.globalFineId c i) = some (c, i) := by
  rw [coarseLocalFromGlobal, locate_eq 0 0 hc hi, Nat.zero_add]
  rw [Nat.zero_add]
  rfl

theorem CentroidIndexL0.getElem?_of_inCell (h : l0.InCell c f) :
    ∃ count i, l0.fineCounts[c]? = some count ∧ i < count ∧
      f = l0.globalFineId c i := by
  rw [InCell, List.getD_eq_getElem?_getD] at h
  cases hc : l0.fineCounts[c]? with
  | none =>
    rw [hc, getD_none] at h
    omega
  | some count =>
    rw [hc, getD_some] at h
    exact ⟨count, f - l0.globalIdStart c, rfl, by omega, by rw [globalFineId]; omega⟩

/-- An id belongs to one cell only. -/
theorem CentroidIndexL0.InCell.unique {c' : Nat} (h : l0.InCell c f) (h' : l0.InCell c' f) :
    c = c' := by
  obtain ⟨count, i, hc, hi, hf⟩ := getElem?_of_inCell h
  obtain ⟨count', i', hc', hi', hf'⟩ := getElem?_of_inCell h'
  exact (block_unique hc hc' hi hi' (hf.symm.trans hf')).1

theorem CentroidIndexL0.InCell.lt_sum (h : l0.InCell c f) : f < l0.fineCounts.sum := by
  obtain ⟨count, i, hc, hi, hf⟩ := getElem?_of_inCell h
  have := start_add_le_sum hc
  rw [hf, globalFineId, globalIdStart, ← start]
  omega

theorem CentroidIndexL0.exists_inCell (h : f < l0.fineCounts.sum) : ∃ c, l0.InCell c f := by
  obtain ⟨c, count, i, hc, hi, hf⟩ := exists_block h
  exact ⟨c, hf ▸ inCell_globalFineId hc hi⟩

namespace VectorIndex

/-! ## The members of a cell -/

def cellMembers (idx : VectorIndex) (c : Nat) : Multiset ClusterMember :=
  ∑ i ∈ Finset.range (idx.fineCount c),
    (membersAt idx.clusters (idx.l0.globalFineId c i) : Multiset ClusterMember)

variable {idx idx' : VectorIndex} {c : Nat} {clusters : HashMap Nat ClusterSegment}

theorem fineCount_eq {count : Nat} (hc : idx.l0.fineCounts[c]? = some count) :
    idx.fineCount c = count := by
  rw [fineCount, List.getD_eq_getElem?_getD, hc, getD_some]

theorem cellMembers_of_length_le (h : idx.l0.fineCounts.length ≤ c) : idx.cellMembers c = 0 := by
  rw [cellMembers, fineCount, List.getD_eq_getElem?_getD, List.getElem?_eq_none h]
  rfl

theorem mem_cellMembers {m : ClusterMember} :
    m ∈ idx.cellMembers c ↔ ∃ f, idx.l0.InCell c f ∧ m ∈ membersAt idx.clusters f := by
  rw [cellMembers, Multiset.mem_sum]
  constructor
  · rintro ⟨i, hi, hm⟩
    refine ⟨_, ?_, hm⟩
    have hlt := mem_range.mp hi
    exact ⟨Nat.le_add_right _ _, Nat.add_lt_add_left hlt _⟩
  · rintro ⟨f, ⟨hle, hlt⟩, hm⟩
    refine ⟨f - idx.l0.globalIdStart c, mem_range.mpr ?_, ?_⟩
    · rw [fineCount]
      omega
    · rw [globalFineId, Nat.add_sub_cancel' hle]
      exact hm

/-- Two indexes with the same members at the ids of a cell. -/
theorem cellMembers_congr
    (h : ∀ f, idx.l0.InCell c f → membersAt clusters f = membersAt idx.clusters f) :
    cellMembers { idx with clusters } c = idx.cellMembers c := by
  refine sum_congr rfl fun i hi => ?_
  have hlt := mem_range.mp hi
  refine congrArg _ (h _ ?_)
  exact ⟨Nat.le_add_right _ _, Nat.add_lt_add_left hlt _⟩

/-! ## The layout -/

/-- The cells, the centroids and the clusters agree with the counts. -/
structure Layout (idx : VectorIndex) : Prop where
  complete : idx.Complete
  starts : ∀ c l1, idx.l1.lookup c = some l1 →
    c < idx.l0.fineCounts.length ∧ l1.globalIdStart = idx.l0.globalIdStart c
  named : Named idx.clusters
  bound : ∀ f cl, idx.clusters.lookup f = some cl → f < idx.l0.numFineTotal

/-- An index has finitely many cells and clusters. -/
theorem layout_iff : idx.Layout ↔
    (idx.l0.centroids.length = idx.l0.fineCounts.length ∧
      idx.l0.numCoarse = idx.l0.fineCounts.length ∧
      idx.l0.numFineTotal = idx.l0.fineCounts.sum) ∧
    (∀ c < idx.l0.fineCounts.length, ∀ count ∈ idx.l0.fineCounts[c]?,
      (idx.l1.lookup c).any (fun l1 => l1.numFine = count ∧ l1.centroids.length = count) = true) ∧
    (∀ c ∈ idx.l1.keys, ∀ l1 ∈ idx.l1.lookup c, l1.coarseId = c ∧
      c < idx.l0.fineCounts.length ∧ l1.globalIdStart = idx.l0.globalIdStart c) ∧
    ∀ f ∈ idx.clusters.keys, ∀ cl ∈ idx.clusters.lookup f,
      cl.centroidId = f ∧ f < idx.l0.numFineTotal := by
  constructor
  · intro h
    refine ⟨⟨h.complete.coarse, h.complete.numCoarse, h.complete.total⟩, fun c _ count hc => ?_,
      fun c _ l1 hl1 => ⟨h.complete.ids c l1 hl1, h.starts c l1 hl1⟩,
      fun f _ cl hcl => ⟨h.named f cl hcl, h.bound f cl hcl⟩⟩
    obtain ⟨l1, hl1, hcount⟩ := h.complete.cell c count hc
    rw [hl1]
    exact decide_eq_true hcount
  · rintro ⟨⟨hcoarse, hnum, htotal⟩, hcell, hl1s, hclusters⟩
    have hkey : ∀ c l1, idx.l1.lookup c = some l1 → c ∈ idx.l1.keys := fun c l1 hl1 =>
      Finmap.mem_keys.mpr (Finmap.mem_of_lookup_eq_some hl1)
    have hid : ∀ f cl, idx.clusters.lookup f = some cl → f ∈ idx.clusters.keys := fun f cl hcl =>
      Finmap.mem_keys.mpr (Finmap.mem_of_lookup_eq_some hcl)
    refine ⟨⟨hcoarse, hnum, fun c count hc => ?_,
      fun c l1 hl1 => (hl1s c (hkey c l1 hl1) l1 hl1).1, htotal⟩,
      fun c l1 hl1 => (hl1s c (hkey c l1 hl1) l1 hl1).2,
      fun f cl hcl => (hclusters f (hid f cl hcl) cl hcl).1,
      fun f cl hcl => (hclusters f (hid f cl hcl) cl hcl).2⟩
    have hany := hcell c (List.getElem?_eq_some_iff.mp hc).1 count hc
    obtain ⟨l1, hl1, hcount⟩ := (any_eq_true _ _).mp hany
    exact ⟨l1, hl1, of_decide_eq_true hcount⟩

instance (idx : VectorIndex) : Decidable idx.Layout := decidable_of_iff _ layout_iff.symm

theorem Layout.members_eq_sum_cellMembers (h : idx.Layout) :
    idx.members = ∑ c ∈ Finset.range idx.l0.fineCounts.length, idx.cellMembers c := by
  have hkeys : idx.clusters.keys ⊆ range idx.l0.fineCounts.sum := by
    intro f hf
    obtain ⟨cl, hcl⟩ := Finmap.mem_iff.mp (Finmap.mem_keys.mp hf)
    rw [mem_range, ← h.complete.total]
    exact h.bound f cl hcl
  rw [members, memberBag_eq_sum _ hkeys]
  exact sum_range_sum idx.l0.fineCounts fun f =>
    (membersAt idx.clusters f : Multiset ClusterMember)

/-- If only one cell may differ and the members are the same, no cell differs. -/
theorem cellMembers_eq_of_others (h : idx.Layout) (h' : idx'.Layout)
    (hmembers : idx'.members = idx.members)
    (hlen : idx'.l0.fineCounts.length = idx.l0.fineCounts.length)
    (hothers : ∀ c', c' ≠ c → idx'.cellMembers c' = idx.cellMembers c') (c' : Nat) :
    idx'.cellMembers c' = idx.cellMembers c' := by
  by_cases hc' : c' = c
  · subst hc'
    rcases Nat.lt_or_ge c' idx.l0.fineCounts.length with hlt | hge
    · rw [h.members_eq_sum_cellMembers, h'.members_eq_sum_cellMembers, hlen,
        ← add_sum_erase _ _ (mem_range.mpr hlt),
        ← add_sum_erase _ idx.cellMembers (mem_range.mpr hlt)] at hmembers
      have hrest : ∑ c ∈ (range idx.l0.fineCounts.length).erase c', idx'.cellMembers c
          = ∑ c ∈ (range idx.l0.fineCounts.length).erase c', idx.cellMembers c :=
        sum_congr rfl fun c hc => hothers c (ne_of_mem_erase hc)
      rw [hrest] at hmembers
      exact add_right_cancel hmembers
    · rw [cellMembers_of_length_le hge, cellMembers_of_length_le (hlen ▸ hge)]
  · exact hothers c' hc'

/-! ## Steps keep the layout -/

theorem Layout.within (h : idx.Layout) (hw : Within idx c clusters) :
    Layout { idx with clusters } where
  complete := (h.complete.setClusters hw.bag).complete
  starts := h.starts
  named := hw.changes.named h.named
  bound := by
    intro f cl hcl
    by_cases hf : idx.l0.InCell c f
    · rw [h.complete.total]
      exact hf.lt_sum
    · rw [hw.changes.outside f hf] at hcl
      exact h.bound f cl hcl

theorem Layout.cellMembers_within (h : idx.Layout) (hw : Within idx c clusters) (c' : Nat) :
    cellMembers { idx with clusters } c' = idx.cellMembers c' := by
  refine cellMembers_eq_of_others h (h.within hw) hw.bag rfl (c := c) (fun c'' hne => ?_) c'
  refine cellMembers_congr fun f hf => ?_
  rw [membersAt, hw.changes.outside f fun hin => hne (hf.unique hin), membersAt]

theorem named_shiftClusters (h : Named clusters) (pivot : Nat) :
    Named (shiftClusters pivot clusters) := by
  intro f cl hcl
  rcases Nat.lt_or_ge pivot f with hlt | hge
  · rw [lookup_shiftClusters_of_lt _ _ hlt, map_eq_some_iff] at hcl
    obtain ⟨old, -, rfl⟩ := hcl
    rfl
  · rw [lookup_shiftClusters _ _ hge] at hcl
    split at hcl
    · cases hcl
    · exact h f cl hcl

theorem named_splitClusters (h : Named clusters) (segmentId pivot fineId : Nat)
    (left right : List ClusterMember) :
    Named (splitClusters segmentId pivot fineId left right clusters) := by
  refine Named.insert ?_ rfl
  intro f cl hcl
  rw [HashMap.lookup_modify] at hcl
  split at hcl
  · rename_i hf
    obtain ⟨old, -, rfl⟩ := map_eq_some_iff.mp hcl
    exact hf.symm
  · exact named_shiftClusters h pivot f cl hcl

/-- A split adds one id. -/
theorem lt_of_lookup_splitClusters {total : Nat}
    (h : ∀ f cl, clusters.lookup f = some cl → f < total) {pivot fineId : Nat}
    (hpivot : pivot ≤ total) (segmentId : Nat) (left right : List ClusterMember) {f : Nat}
    {cl : ClusterSegment}
    (hcl : (splitClusters segmentId pivot fineId left right clusters).lookup f = some cl) :
    f < total + 1 := by
  have hshift : ∀ cl, (shiftClusters pivot clusters).lookup f = some cl → f < total + 1 := by
    intro cl hcl
    rcases Nat.lt_or_ge pivot f with hlt | hge
    · rw [lookup_shiftClusters_of_lt _ _ hlt, map_eq_some_iff] at hcl
      obtain ⟨old, hold, -⟩ := hcl
      have := h (f - 1) old hold
      omega
    · omega
  rw [splitClusters, HashMap.lookup_insert_ite] at hcl
  split at hcl
  · omega
  · rw [HashMap.lookup_modify] at hcl
    split at hcl
    · obtain ⟨old, hold, -⟩ := map_eq_some_iff.mp hcl
      exact hshift old hold
    · exact hshift cl hcl

section Split

variable {idx idx' : VectorIndex} {c count i : Nat} {left right : List ClusterMember}

theorem Layout.isSplit (h : idx.Layout) (hc : idx.l0.fineCounts[c]? = some count)
    {fineId : Nat} (hs : IsSplit idx c count fineId left right idx') : idx'.Layout where
  complete := hs.becomes.complete
  starts := by
    intro c' l1' hl1'
    obtain ⟨l1, hl1, hstart'⟩ := hs.starts c' l1' hl1'
    obtain ⟨hlt, hstart⟩ := h.starts c' l1 hl1
    rw [hs.counts, List.length_modify, globalIdStart, hs.counts, hstart', hstart]
    refine ⟨hlt, ?_⟩
    by_cases hcc : c < c'
    · rw [if_pos ⟨hcc, hlt⟩]
      exact (start_grow_of_lt hc hcc).symm
    · rw [if_neg fun hboth => hcc hboth.1]
      exact (start_grow_of_le _ (Nat.not_lt.mp hcc)).symm
  named := by
    obtain ⟨segmentId, hclusters⟩ := hs.clusters
    rw [hclusters]
    exact named_splitClusters h.named _ _ _ _ _
  bound := by
    intro f cl hcl
    obtain ⟨segmentId, hclusters⟩ := hs.clusters
    rw [hclusters] at hcl
    have htotal : idx'.l0.numFineTotal = idx.l0.numFineTotal + 1 := by
      rw [hs.becomes.complete.total, hs.counts, sum_modify_succ hc, h.complete.total]
    rw [htotal]
    refine lt_of_lookup_splitClusters h.bound ?_ _ _ _ hcl
    rw [h.complete.total]
    exact start_add_le_sum hc

theorem IsSplit.fineCount_of_ne {fineId : Nat} (hs : IsSplit idx c count fineId left right idx')
    {c' : Nat} (hne : c' ≠ c) : idx'.fineCount c' = idx.fineCount c' := by
  rw [fineCount, fineCount, hs.counts]
  simp [Ne.symm hne]

variable (hc : idx.l0.fineCounts[c]? = some count) (hi : i < count)
  (hs : IsSplit idx c count (idx.l0.globalFineId c i) left right idx')

include hi hs

theorem IsSplit.membersAt_eq (g : Nat) :
    membersAt idx'.clusters g
      = if g = idx.l0.globalIdStart c + count then right
        else if g = idx.l0.globalFineId c i then left
        else if g < idx.l0.globalIdStart c + count then membersAt idx.clusters g
        else membersAt idx.clusters (g - 1) := by
  have hsome : membersAt idx.clusters (idx.l0.globalFineId c i) ≠ [] := by
    intro hnil
    have hsum := hs.halves
    rw [hnil, Multiset.coe_add, Multiset.coe_eq_coe, List.perm_nil, List.append_eq_nil_iff] at hsum
    exact hs.left_ne hsum.1
  obtain ⟨cl, hcl, -⟩ := lookup_of_membersAt_ne_nil hsome
  obtain ⟨segmentId, hclusters⟩ := hs.clusters
  rw [hclusters]
  exact membersAt_splitClusters (Nat.add_lt_add_left hi _) hcl segmentId left right g

include hc in
/-- The clusters of the other cells keep their members under their new ids. -/
theorem IsSplit.membersAt_of_ne {c' : Nat} (hne : c' ≠ c) {j : Nat} (hj : j < idx.fineCount c') :
    membersAt idx'.clusters (idx'.l0.globalFineId c' j)
      = membersAt idx.clusters (idx.l0.globalFineId c' j) := by
  have hin : idx.l0.InCell c' (idx.l0.globalFineId c' j) :=
    ⟨Nat.le_add_right _ _, Nat.add_lt_add_left hj _⟩
  obtain ⟨count', j', hc', hj', hjj⟩ := getElem?_of_inCell hin
  obtain rfl : j = j' := Nat.add_left_cancel hjj
  have hold : idx.l0.globalFineId c' j = start idx.l0.fineCounts c' + j := rfl
  have hnew : idx'.l0.globalFineId c' j
      = start (idx.l0.fineCounts.modify c (· + 1)) c' + j := by
    rw [← hs.counts]
    rfl
  have hfine : idx.l0.globalFineId c i = start idx.l0.fineCounts c + i := rfl
  have hpivot : idx.l0.globalIdStart c = start idx.l0.fineCounts c := rfl
  rw [hs.membersAt_eq hi]
  rcases Nat.lt_or_gt_of_ne hne with hlt | hgt
  · have hbefore := start_add_le hc' hlt
    rw [start_grow_of_le _ (Nat.le_of_lt hlt), ← hold] at hnew
    rw [hnew, if_neg (by omega), if_neg (by omega), if_pos (by omega)]
  · have hafter := start_add_le hc hgt
    rw [start_grow_of_lt hc hgt] at hnew
    have hprev : idx'.l0.globalFineId c' j - 1 = idx.l0.globalFineId c' j := by
      omega
    rw [if_neg (by omega), if_neg (by omega), if_neg (by omega), hprev]

/-- In its own cell a split leaves one half in place and appends the other one. -/
theorem IsSplit.membersAt_self {j : Nat} (hj : j < count + 1) :
    membersAt idx'.clusters (idx'.l0.globalFineId c j)
      = if j = count then right else if j = i then left
        else membersAt idx.clusters (idx.l0.globalFineId c j) := by
  rw [hs.membersAt_eq hi]
  simp only [globalFineId, hs.globalIdStart, Nat.add_left_cancel_iff]
  split
  · rfl
  · rename_i hlast
    split
    · rfl
    · rw [if_pos (by omega)]

include hc in
theorem IsSplit.cellMembers_of_ne {c' : Nat} (hne : c' ≠ c) :
    idx'.cellMembers c' = idx.cellMembers c' := by
  rw [cellMembers, hs.fineCount_of_ne hne]
  refine sum_congr rfl fun j hj => congrArg _ ?_
  exact hs.membersAt_of_ne hc hi hne (mem_range.mp hj)

end Split

/-- A step keeps the layout and the members of each cell. -/
theorem Step.layout {q : Quantizer} (hstep : Step q idx idx') (h : idx.Layout) :
    idx'.Layout ∧ ∀ c, idx'.cellMembers c = idx.cellMembers c := by
  cases hstep with
  | split hc hi hs _ _ =>
    have hlayout := h.isSplit hc hs
    refine ⟨hlayout, cellMembers_eq_of_others h hlayout hs.becomes.members ?_ fun c' hne =>
      hs.cellMembers_of_ne hc hi hne⟩
    rw [hs.counts, List.length_modify]
  | within hw => exact ⟨h.within hw, h.cellMembers_within hw⟩
  | centroids hl1s hkeep =>
    refine ⟨⟨(h.complete.setL1 hl1s hkeep).complete, ?_, h.named, h.bound⟩, fun _ => rfl⟩
    intro c l1' hl1'
    rw [hl1s, map_eq_some_iff] at hl1'
    obtain ⟨l1, hl1, rfl⟩ := hl1'
    obtain ⟨centroids, -, heq⟩ := hkeep c l1
    rw [heq]
    exact h.starts c l1 hl1
  | prune =>
    refine ⟨⟨(h.complete.setClusters (memberBag_pruneEmpty _)).complete, h.starts, ?_, ?_⟩,
      fun c => cellMembers_congr fun f _ => membersAt_pruneEmpty _ f⟩
    · refine h.named.filterMap fun f cl cl' hcl => ?_
      split at hcl
      · cases hcl
      · cases hcl
        rfl
    · intro f cl hcl
      rw [pruneEmptyClusters, pruneEmpty, HashMap.lookup_filterMap,
        bind_eq_some_iff] at hcl
      obtain ⟨old, hold, -⟩ := hcl
      exact h.bound f old hold
  | count =>
    exact ⟨⟨⟨h.complete.coarse, h.complete.numCoarse, h.complete.cell, h.complete.ids,
      h.complete.total⟩, h.starts, h.named, h.bound⟩, fun _ => rfl⟩

theorem Steps.layout {q : Quantizer} (hsteps : Steps q idx idx') (h : idx.Layout) :
    idx'.Layout ∧ ∀ c, idx'.cellMembers c = idx.cellMembers c := by
  induction hsteps with
  | refl => exact ⟨h, fun _ => rfl⟩
  | tail _ hstep ih =>
    obtain ⟨hlayout, hcells⟩ := hstep.layout ih.1
    exact ⟨hlayout, fun c => (hcells c).trans (ih.2 c)⟩

end VectorIndex

end OpenPuffer
