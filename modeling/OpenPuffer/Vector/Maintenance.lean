import OpenPuffer.Vector.Members

/-!
# What maintenance does

Maintenance is a sequence of a few kinds of steps (`Step`): a cluster is split and the ids after
its cell move up, the clusters of one cell exchange members, centroids move, empty clusters go.
Every operation of the source is traced once, to such steps, so maintenance loses and duplicates
no member (`runIncrementalMaintenance_spec`).  Only the moves to a nearer centroid are no such
steps in general: they look a document up by its id.
-/

namespace OpenPuffer

open HashMap List CentroidIndexL0

/-! ## Changes in one cell -/

/-- A fine id belongs to a coarse cell. -/
def CentroidIndexL0.InCell (l0 : CentroidIndexL0) (c f : Nat) : Prop :=
  l0.globalIdStart c ≤ f ∧ f < l0.globalIdStart c + l0.fineCounts.getD c 0

theorem CentroidIndexL0.inCell_globalFineId {l0 : CentroidIndexL0} {c count i : Nat}
    (hc : l0.fineCounts[c]? = some count) (hi : i < count) : l0.InCell c (l0.globalFineId c i) := by
  rw [globalFineId, InCell, getD_eq_getElem?_getD, hc,
    Option.getD_some]
  omega

/-- Every cluster has its key as its id. -/
def Named (clusters : HashMap Nat ClusterSegment) : Prop :=
  ∀ f cl, clusters.lookup f = some cl → cl.centroidId = f

variable {clusters : HashMap Nat ClusterSegment}

theorem Named.insert (h : Named clusters) {f : Nat} {cl : ClusterSegment}
    (hcl : cl.centroidId = f) : Named (clusters.insert f cl) := by
  intro g cl' hg
  rw [lookup_insert_ite] at hg
  split at hg
  · rename_i hgf
    cases hg
    rw [hcl, hgf]
  · exact h g cl' hg

theorem Named.erase (h : Named clusters) (f : Nat) : Named (clusters.erase f) := by
  intro g cl hg
  rw [lookup_erase_ite] at hg
  split at hg
  · cases hg
  · exact h g cl hg

theorem Named.extendCluster (h : Named clusters) (segmentId f : Nat) (ms : List ClusterMember) :
    Named (extendCluster segmentId f ms clusters) := by
  refine h.insert ?_
  rw [getOr]
  cases hf : clusters.lookup f with
  | none => rfl
  | some cl => exact h f cl hf

theorem Named.filterMap (h : Named clusters) {g : Nat → ClusterSegment → Option ClusterSegment}
    (hg : ∀ f cl cl', g f cl = some cl' → cl'.centroidId = cl.centroidId) :
    Named (clusters.filterMap g) := by
  intro f cl' hf
  rw [lookup_filterMap, Option.bind_eq_some_iff] at hf
  obtain ⟨cl, hcl, hcl'⟩ := hf
  exact (hg f cl cl' hcl').trans (h f cl hcl)

/-- Clusters `t` that come from `s` by changes in one cell. -/
structure LocalTo (l0 : CentroidIndexL0) (c : Nat) (s t : HashMap Nat ClusterSegment) : Prop where
  outside : ∀ f, ¬l0.InCell c f → t.lookup f = s.lookup f
  named : Named s → Named t

namespace LocalTo

variable {l0 : CentroidIndexL0} {c f : Nat} {s t : HashMap Nat ClusterSegment}

theorem refl (l0 : CentroidIndexL0) (c : Nat) (s : HashMap Nat ClusterSegment) :
    LocalTo l0 c s s :=
  ⟨fun _ _ => rfl, id⟩

theorem erase (h : LocalTo l0 c s t) (hf : l0.InCell c f) : LocalTo l0 c s (t.erase f) where
  outside := by
    intro g hg
    have hne : g ≠ f := by
      rintro rfl
      exact hg hf
    rw [lookup_erase_ite, if_neg hne]
    exact h.outside g hg
  named := fun hs => (h.named hs).erase f

theorem insert (h : LocalTo l0 c s t) (hf : l0.InCell c f) {cl : ClusterSegment}
    (hcl : Named t → cl.centroidId = f) : LocalTo l0 c s (t.insert f cl) where
  outside := by
    intro g hg
    have hne : g ≠ f := by
      rintro rfl
      exact hg hf
    rw [lookup_insert_ite, if_neg hne]
    exact h.outside g hg
  named := fun hs => (h.named hs).insert (hcl (h.named hs))

theorem extendCluster (h : LocalTo l0 c s t) (hf : l0.InCell c f) (segmentId : Nat)
    (ms : List ClusterMember) : LocalTo l0 c s (extendCluster segmentId f ms t) where
  outside := by
    intro g hg
    have hne : g ≠ f := by
      rintro rfl
      exact hg hf
    rw [OpenPuffer.extendCluster, entry, lookup_insert_ite, if_neg hne]
    exact h.outside g hg
  named := fun hs => (h.named hs).extendCluster segmentId f ms

end LocalTo

namespace VectorIndex

/-- Clusters that come from those of an index by moving members in one cell. -/
structure Within (idx : VectorIndex) (c : Nat) (clusters : HashMap Nat ClusterSegment) : Prop where
  bag : memberBag clusters = idx.members
  changes : LocalTo idx.l0 c idx.clusters clusters

/-! ## Splitting -/

/-- The clusters after a split: the ids from the pivot on move up, one half stays and
the other one gets the pivot as its id. -/
def splitClusters (segmentId pivot fineId : Nat) (left right : List ClusterMember)
    (clusters : HashMap Nat ClusterSegment) : HashMap Nat ClusterSegment :=
  ((shiftClusters pivot clusters).modify fineId fun c =>
      { c with members := left, centroidId := fineId }).insert pivot
    { segmentId, centroidId := pivot, members := right }

variable {clusters : HashMap Nat ClusterSegment} {fineId : Nat}

theorem memberBag_splitClusters {pivot : Nat} (hlt : fineId < pivot) {c : ClusterSegment}
    (hc : clusters.lookup fineId = some c) {left right : List ClusterMember}
    (hsum : (left + right : Multiset ClusterMember) = c.members) (segmentId : Nat) :
    memberBag (splitClusters segmentId pivot fineId left right clusters)
      = memberBag clusters := by
  have hkept : (shiftClusters pivot clusters).lookup fineId = some c := by
    rw [lookup_shiftClusters _ _ (Nat.le_of_lt hlt), if_neg (Nat.ne_of_lt hlt)]
    exact hc
  have hfree : ((shiftClusters pivot clusters).modify fineId fun c =>
      { c with members := left, centroidId := fineId }).lookup pivot = none := by
    rw [lookup_modify, if_neg (Nat.ne_of_gt hlt),
      lookup_shiftClusters _ _ (Nat.le_refl _), if_pos rfl]
  have hall : memberBag clusters
      = c.members + memberBag ((shiftClusters pivot clusters).erase fineId) := by
    rw [← memberBag_shiftClusters pivot clusters]
    exact flatten_erase _ hkept
  rw [splitClusters, memberBag_insert, erase_of_lookup_none hfree,
    memberBag_modify hkept, hall, ← hsum, ← add_assoc, add_comm (right : Multiset ClusterMember)]

theorem membersAt_splitClusters {pivot : Nat} (hlt : fineId < pivot) {c : ClusterSegment}
    (hc : clusters.lookup fineId = some c) (segmentId : Nat) (left right : List ClusterMember)
    (g : Nat) :
    membersAt (splitClusters segmentId pivot fineId left right clusters) g
      = if g = pivot then right else if g = fineId then left
        else if g < pivot then membersAt clusters g else membersAt clusters (g - 1) := by
  rw [membersAt, splitClusters, lookup_insert_ite]
  split
  · rfl
  rename_i hpivot
  rw [lookup_modify]
  split
  · rename_i hfine
    rw [lookup_shiftClusters _ _ (hfine ▸ Nat.le_of_lt hlt), if_neg hpivot, hfine, hc]
    rfl
  split
  · rename_i hlow
    rw [lookup_shiftClusters _ _ (Nat.le_of_lt hlow), if_neg hpivot, membersAt]
  · rw [lookup_shiftClusters_of_lt _ _ (by omega), membersAt]
    cases clusters.lookup (g - 1) <;> rfl

theorem bucket_add_bucket (assign : HashMap String Nat) (members : List ClusterMember) :
    (bucket assign 2 members 0 + bucket assign 2 members 1 : Multiset ClusterMember)
      = members := by
  have hsum := sum_bucket assign (Nat.zero_lt_two) members
  simpa [range_succ] using hsum

theorem lookup_of_membersAt_ne_nil (h : membersAt clusters fineId ≠ []) :
    ∃ c, clusters.lookup fineId = some c ∧ c.members = membersAt clusters fineId := by
  rw [membersAt] at h ⊢
  cases hl : clusters.lookup fineId with
  | none =>
    rw [hl] at h
    exact absurd rfl h
  | some c => exact ⟨c, rfl, rfl⟩

section Quantized

variable (q : Quantizer) (o : IterOrder Nat)

structure IsSplit (idx : VectorIndex) (c count fineId : Nat) (left right : List ClusterMember)
    (idx' : VectorIndex) : Prop where
  becomes : Becomes idx idx' idx.members
  l0 : idx'.l0 = { idx.l0 with
    fineCounts := idx.l0.fineCounts.modify c (· + 1)
    numFineTotal := idx.l0.numFineTotal + 1 }
  starts : ∀ c' l1', idx'.l1.lookup c' = some l1' → ∃ l1, idx.l1.lookup c' = some l1 ∧
    l1'.globalIdStart = l1.globalIdStart
      + if c < c' ∧ c' < idx.l0.fineCounts.length then 1 else 0
  clusters : ∃ segmentId, idx'.clusters
    = splitClusters segmentId (idx.l0.globalIdStart c + count) fineId left right idx.clusters
  halves : (left + right : Multiset ClusterMember) = membersAt idx.clusters fineId
  left_ne : left ≠ []
  right_ne : right ≠ []

/-- The loop may split a cluster in two halves. -/
def MaySplit (idx : VectorIndex) (c fineId : Nat) : Prop :=
  idx.canAddFineCentroidForSplit c = true ∧
    maxClusterMembers < (membersAt idx.clusters fineId).length

variable {idx idx' : VectorIndex} {c count fineId : Nat} {left right : List ClusterMember}

section

variable (h : IsSplit idx c count fineId left right idx')

include h

theorem IsSplit.counts :
    idx'.l0.fineCounts = idx.l0.fineCounts.modify c (· + 1) := by
  rw [h.l0]

theorem IsSplit.getElem?_counts
    (hc : idx.l0.fineCounts[c]? = some count) : idx'.l0.fineCounts[c]? = some (count + 1) := by
  simp [h.counts, hc]

theorem IsSplit.globalIdStart :
    idx'.l0.globalIdStart c = idx.l0.globalIdStart c := by
  rw [CentroidIndexL0.globalIdStart, h.counts]
  exact Blocks.start_grow_of_le _ (Nat.le_refl c)

end

/-- The halves in which two centroids divide some members. -/
def halves (dim : Nat) (metric : DistanceMetric) (members : List ClusterMember) :
    List ClusterMember × List ClusterMember :=
  let pairs := membersAsPairs members dim
  let assign := assignToCentroids q.scoreVector pairs (q.kmeansCentroids pairs 2 dim metric) metric
  (bucket assign 2 members 0, bucket assign 2 members 1)

/-- Two centroids divide the members. -/
def Separated (dim : Nat) (metric : DistanceMetric) (members : List ClusterMember) : Prop :=
  (halves q dim metric members).1 ≠ [] ∧ (halves q dim metric members).2 ≠ []

/-- What the loop does with two halves is a split. -/
theorem exists_isSplit (h : idx.Complete) (hc : idx.l0.fineCounts[c]? = some count)
    (hcell : fineId < idx.l0.globalIdStart c + count)
    (hsum : (left + right : Multiset ClusterMember) = membersAt idx.clusters fineId)
    (hleft : left ≠ []) (hright : right ≠ []) (localFine : Nat) (c₀ c₁ : Vec) :
    ∃ grown idx', idx.appendFineCentroid c c₁ = .ok (grown, count) ∧
      grown.l0.globalFineId c count = idx.l0.globalIdStart c + count ∧
      idx' = { grown.setFineCentroid c localFine c₀ with
        clusters := ((grown.setFineCentroid c localFine c₀).clusters.modify fineId fun cl =>
            { cl with members := left, centroidId := fineId }).insert
          (idx.l0.globalIdStart c + count)
          { segmentId := (grown.setFineCentroid c localFine c₀).l0.segmentId
            centroidId := idx.l0.globalIdStart c + count
            members := right } } ∧
      IsSplit idx c count fineId left right idx' ∧
      membersAt idx'.clusters fineId = left ∧
      membersAt idx'.clusters (idx.l0.globalIdStart c + count) = right := by
  obtain ⟨grown, happend, hgrown, hl0, hstarts, hshift⟩ := appendFineCentroid_spec h hc c₁
  have hsome : membersAt idx.clusters fineId ≠ [] := by
    intro hnil
    rw [hnil, Multiset.coe_add, Multiset.coe_eq_coe, perm_nil, append_eq_nil_iff] at hsum
    exact hleft hsum.1
  obtain ⟨cl, hcl, hmem⟩ := lookup_of_membersAt_ne_nil hsome
  have hset := hgrown.keeping (hgrown.complete.setFineCentroid c localFine c₀)
  have hclusters : ((grown.setFineCentroid c localFine c₀).clusters.modify fineId fun cl =>
        { cl with members := left, centroidId := fineId }).insert
        (idx.l0.globalIdStart c + count)
        { segmentId := (grown.setFineCentroid c localFine c₀).l0.segmentId
          centroidId := idx.l0.globalIdStart c + count
          members := right }
      = splitClusters grown.l0.segmentId (idx.l0.globalIdStart c + count) fineId left right
          idx.clusters := by
    rw [splitClusters, ← hshift]
    rfl
  have hbag := memberBag_splitClusters hcell hcl (hsum.trans (congrArg _ hmem.symm))
    grown.l0.segmentId
  refine ⟨grown, _, happend, ?_, rfl, ⟨?_, hl0, ?_, ⟨_, hclusters⟩, hsum, hleft, hright⟩,
    ?_, ?_⟩
  · rw [globalFineId, hl0]
    congr 1
    exact Blocks.start_grow_of_le _ (Nat.le_refl c)
  · refine hset.keeping (hset.complete.setClusters ?_)
    rw [hclusters]
    exact hbag.trans hset.members.symm
  · intro c' l1' hl1'
    rw [setFineCentroid, lookup_modify] at hl1'
    split at hl1'
    · obtain ⟨l1, hl1, rfl⟩ := Option.map_eq_some_iff.mp hl1'
      exact hstarts c' l1 hl1
    · exact hstarts c' l1' hl1'
  · rw [hclusters, membersAt_splitClusters hcell hcl, if_neg (Nat.ne_of_lt hcell), if_pos rfl]
  · rw [hclusters, membersAt_splitClusters hcell hcl, if_pos rfl]

/-- There are two centroids for more members than fit in a cluster. -/
theorem exists_two_centroids (dim : Nat) (metric : DistanceMetric) {members : List ClusterMember}
    (h : maxClusterMembers < members.length) :
    ∃ c₀ c₁, q.kmeansCentroids (membersAsPairs members dim) 2 dim metric = [c₀, c₁] := by
  have hlen := q.length_kmeansCentroids (membersAsPairs members dim) 2 dim metric Nat.zero_lt_two
  have hpairs : (membersAsPairs members dim).length = members.length := length_map _
  have hmany : 2 ≤ members.length := Nat.le_trans (by decide) (Nat.le_of_lt h)
  rw [hpairs, Nat.min_eq_left hmany] at hlen
  exact length_eq_two.mp hlen

/-- A turn of the loop ends it without a change, or splits the cluster and goes on with
the larger half. -/
theorem binarySplitLoop_succ (n : Nat) (h : idx.Complete)
    (hc : idx.l0.fineCounts[c]? = some count) (fineId : Nat)
    (hcell : fineId < idx.l0.globalIdStart c + count) (localFine : Nat) (progress : Bool) :
    (binarySplitLoop q c (n + 1) idx fineId localFine progress = .ok (idx, progress) ∧
      (MaySplit idx c fineId →
        ¬Separated q idx.l0.dimensions idx.l0.distanceMetric (membersAt idx.clusters fineId))) ∨
    ∃ left right idx' fineId' localFine', IsSplit idx c count fineId left right idx' ∧
      MaySplit idx c fineId ∧
      halves q idx.l0.dimensions idx.l0.distanceMetric (membersAt idx.clusters fineId)
        = (left, right) ∧
      Separated q idx.l0.dimensions idx.l0.distanceMetric (membersAt idx.clusters fineId) ∧
      (fineId' = fineId ∧ right.length ≤ left.length ∨
        fineId' = idx.l0.globalIdStart c + count ∧ left.length < right.length) ∧
      binarySplitLoop q c (n + 1) idx fineId localFine progress
        = binarySplitLoop q c n idx' fineId' localFine' true := by
  rw [binarySplitLoop]
  simp only
  split
  · rename_i hadd
    exact .inl ⟨rfl, fun hmay => absurd hmay.1 hadd⟩
  rename_i hadd
  split
  · rename_i hsmall
    exact .inl ⟨rfl, fun hmay => absurd hmay.2 (Nat.not_lt.mpr hsmall)⟩
  rename_i hbig
  have hmay : MaySplit idx c fineId := ⟨not_not.mp hadd, Nat.not_le.mp hbig⟩
  obtain ⟨c₀, c₁, hcentroids⟩ :=
    exists_two_centroids q idx.l0.dimensions idx.l0.distanceMetric hmay.2
  have hhalves : halves q idx.l0.dimensions idx.l0.distanceMetric (membersAt idx.clusters fineId)
      = (_, _) := rfl
  rw [hcentroids] at hhalves ⊢
  simp only
  generalize assignToCentroids q.scoreVector _ _ _ = assign at hhalves ⊢
  have hsum := bucket_add_bucket assign (membersAt idx.clusters fineId)
  rw [Separated, hhalves]
  generalize bucket assign 2 (membersAt idx.clusters fineId) 0 = left at hsum ⊢
  generalize bucket assign 2 (membersAt idx.clusters fineId) 1 = right at hsum ⊢
  split
  · rename_i hempty
    refine .inl ⟨rfl, fun _ hsep => ?_⟩
    rw [Bool.or_eq_true, List.isEmpty_iff, List.isEmpty_iff] at hempty
    exact hempty.elim hsep.1 hsep.2
  · rename_i hnonempty
    rw [Bool.or_eq_true, List.isEmpty_iff, List.isEmpty_iff, not_or] at hnonempty
    obtain ⟨grown, idx', happend, hnew, heq, hsplit, hleft, hright⟩ :=
      exists_isSplit h hc hcell hsum hnonempty.1 hnonempty.2 localFine c₀ c₁
    rw [happend]
    simp only [bind, Except.bind, hnew]
    simp only [heq] at hleft hright
    rw [hleft, hright, ← heq]
    split
    · rename_i hle
      exact .inr ⟨left, right, idx', _, _, hsplit, hmay, rfl, hnonempty, .inl ⟨rfl, hle⟩, rfl⟩
    · rename_i hlt
      exact .inr ⟨left, right, idx', _, _, hsplit, hmay, rfl, hnonempty,
        .inr ⟨rfl, Nat.not_le.mp hlt⟩, rfl⟩

/-! ## Steps -/

inductive Step : VectorIndex → VectorIndex → Prop
  | split {idx idx' : VectorIndex} {c count i : Nat} {left right : List ClusterMember} :
      idx.l0.fineCounts[c]? = some count → i < count →
      IsSplit idx c count (idx.l0.globalFineId c i) left right idx' →
      MaySplit idx c (idx.l0.globalFineId c i) →
      Separated q idx.l0.dimensions idx.l0.distanceMetric
        (membersAt idx.clusters (idx.l0.globalFineId c i)) → Step idx idx'
  | within {idx : VectorIndex} {c : Nat} {clusters : HashMap Nat ClusterSegment} :
      Within idx c clusters → Step idx { idx with clusters }
  | centroids {idx : VectorIndex} {l1s : HashMap Nat CentroidIndexL1}
      {f : Nat → CentroidIndexL1 → CentroidIndexL1} :
      (∀ c, l1s.lookup c = (idx.l1.lookup c).map (f c)) →
      (∀ c l1, ∃ centroids, centroids.length = l1.centroids.length ∧
        f c l1 = { l1 with centroids }) → Step idx { idx with l1 := l1s }
  | prune (idx : VectorIndex) : Step idx idx.pruneEmptyClusters
  | count (idx : VectorIndex) (maintenancePasses : Nat) :
      Step idx { idx with l0 := { idx.l0 with maintenancePasses } }

abbrev Steps : VectorIndex → VectorIndex → Prop := Relation.ReflTransGen (Step q)

variable {q} in
theorem Step.becomes (h : Step q idx idx') (hc : idx.Complete) : Becomes idx idx' idx.members := by
  cases h with
  | split _ _ hsplit _ _ => exact hsplit.becomes
  | within hwithin => exact hc.setClusters hwithin.bag
  | centroids hl1s hkeep => exact hc.setL1 hl1s hkeep
  | prune => exact hc.setClusters (memberBag_pruneEmpty _)
  | count =>
    exact ⟨⟨hc.coarse, hc.numCoarse, hc.cell, hc.ids, hc.total⟩, rfl, rfl, rfl, rfl, rfl,
      Nat.le_refl _⟩

variable {q} in
theorem Steps.becomes (h : Steps q idx idx') (hc : idx.Complete) :
    Becomes idx idx' idx.members := by
  induction h with
  | refl => exact .refl hc
  | tail _ hstep ih => exact ih.keeping (hstep.becomes ih.complete)

/-! ## Splitting takes steps -/

theorem binarySplitLoop_steps (n : Nat) (h : idx.Complete)
    (hc : idx.l0.fineCounts[c]? = some count) {i : Nat} (hi : i < count) (localFine : Nat)
    (progress : Bool) :
    ∃ idx' p, binarySplitLoop q c n idx (idx.l0.globalFineId c i) localFine progress
        = .ok (idx', p) ∧ Steps q idx idx' := by
  induction n generalizing idx count i localFine progress with
  | zero => exact ⟨idx, progress, rfl, .refl⟩
  | succ n ih =>
    have hcell : idx.l0.globalFineId c i < idx.l0.globalIdStart c + count :=
      Nat.add_lt_add_left hi _
    rcases binarySplitLoop_succ q n h hc _ hcell localFine progress with
      ⟨hstop, -⟩ | ⟨left, right, idx₁, fineId', localFine', hsplit, hmay, -, hsep, hnext, hrun⟩
    · exact ⟨idx, progress, hstop, .refl⟩
    · obtain ⟨i', hi', hid⟩ : ∃ i' < count + 1, fineId' = idx₁.l0.globalFineId c i' := by
        simp only [globalFineId, hsplit.globalIdStart]
        rcases hnext with ⟨hid, -⟩ | ⟨hid, -⟩
        · exact ⟨i, Nat.lt_succ_of_lt hi, hid⟩
        · exact ⟨count, Nat.lt_succ_self count, hid⟩
      obtain ⟨idx', p, hrun', hend⟩ := ih hsplit.becomes.complete (hsplit.getElem?_counts hc)
        hi' localFine' true
      rw [← hid] at hrun'
      exact ⟨idx', p, hrun.trans hrun', .head (.split hc hi hsplit hmay hsep) hend⟩

/-- An operation that takes steps on complete indexes and never fails on them. -/
def TakesSteps (f : VectorIndex → Nat → Except String (VectorIndex × Bool)) : Prop :=
  ∀ idx fineId, idx.Complete → ∃ idx' p, f idx fineId = .ok (idx', p) ∧ Steps q idx idx'

theorem takesSteps_binarySplit : TakesSteps q (tryBinarySplitOversizedCluster q) := by
  intro idx fineId h
  rw [tryBinarySplitOversizedCluster]
  split
  · exact ⟨idx, false, rfl, .refl⟩
  · rename_i c i hloc
    obtain ⟨count, hc, hi, rfl⟩ := coarseLocal_spec hloc
    exact binarySplitLoop_steps q _ h hc hi i false

theorem Within.refl (idx : VectorIndex) (c : Nat) : Within idx c idx.clusters :=
  ⟨rfl, .refl _ _ _⟩

/-- Taking a cluster out and putting it back. -/
theorem Within.setCluster (idx : VectorIndex) (hin : idx.l0.InCell c fineId) :
    Within idx c ((idx.clusters.erase fineId).insert fineId
      { segmentId := idx.l0.segmentId, centroidId := fineId
        members := membersAt idx.clusters fineId }) where
  bag := by
    rw [insert_erase, memberBag_insert]
    exact (memberBag_erase idx.clusters fineId).symm
  changes := ((LocalTo.refl _ _ _).erase hin).insert hin fun _ => rfl

/-- Taking an empty cluster out. -/
theorem Within.erase (idx : VectorIndex) (hin : idx.l0.InCell c fineId)
    (hempty : membersAt idx.clusters fineId = []) : Within idx c (idx.clusters.erase fineId) where
  bag := by
    have hall := memberBag_erase idx.clusters fineId
    rw [hempty, Multiset.coe_nil, zero_add] at hall
    exact hall.symm
  changes := (LocalTo.refl _ _ _).erase hin

theorem memberBag_placeBuckets (segmentId : Nat) (ms : Nat → List ClusterMember)
    (target : Nat → Nat) (is : List Nat) (st : HashMap Nat ClusterSegment × Bool) :
    memberBag (is.foldl (fun (st : HashMap Nat ClusterSegment × Bool) i =>
        if (ms i).isEmpty then st
        else (extendCluster segmentId (target i) (ms i) st.1, true)) st).1
      = (is.map fun i => (ms i : Multiset ClusterMember)).sum + memberBag st.1 := by
  induction is generalizing st with
  | nil => simp
  | cons i is ih =>
    rw [foldl_cons, ih, map_cons, sum_cons]
    split
    · rename_i hempty
      rw [isEmpty_iff.mp hempty, Multiset.coe_nil, zero_add]
    · rw [memberBag_extendCluster, add_left_comm, add_assoc]

theorem localTo_placeBuckets {l0 : CentroidIndexL0} {s : HashMap Nat ClusterSegment}
    (segmentId : Nat) (ms : Nat → List ClusterMember) (target : Nat → Nat)
    (htarget : ∀ i, l0.InCell c (target i)) (is : List Nat)
    {st : HashMap Nat ClusterSegment × Bool} (h : LocalTo l0 c s st.1) :
    LocalTo l0 c s (is.foldl (fun (st : HashMap Nat ClusterSegment × Bool) i =>
      if (ms i).isEmpty then st
      else (extendCluster segmentId (target i) (ms i) st.1, true)) st).1 := by
  induction is generalizing st with
  | nil => exact h
  | cons i is ih =>
    rw [foldl_cons]
    apply ih
    split
    · exact h
    · exact h.extendCluster (htarget i) segmentId (ms i)

/-- An operation that moves members in the cell of its cluster, if the cluster has
one. -/
def MovesWithin (f : VectorIndex → Nat → Except String (VectorIndex × Bool)) : Prop :=
  ∀ idx fineId, idx.Complete →
    (idx.l0.coarseLocalFromGlobal fineId = none → f idx fineId = .ok (idx, false)) ∧
    ∀ c i, idx.l0.coarseLocalFromGlobal fineId = some (c, i) →
      ∃ clusters p, f idx fineId = .ok ({ idx with clusters }, p) ∧ Within idx c clusters

variable {q} in
theorem MovesWithin.takesSteps {f : VectorIndex → Nat → Except String (VectorIndex × Bool)}
    (hf : MovesWithin f) : TakesSteps q f := by
  intro idx fineId h
  obtain ⟨hnone, hsome⟩ := hf idx fineId h
  cases hloc : idx.l0.coarseLocalFromGlobal fineId with
  | none => exact ⟨idx, false, hnone hloc, .refl⟩
  | some ci =>
    obtain ⟨clusters, p, hrun, hwithin⟩ := hsome ci.1 ci.2 hloc
    exact ⟨_, p, hrun, .single (.within hwithin)⟩

theorem movesWithin_multishard : MovesWithin (tryMultishardOversizedCluster q) := by
  intro idx fineId h
  rw [tryMultishardOversizedCluster]
  refine ⟨fun hnone => by rw [hnone], fun c i hloc => ?_⟩
  obtain ⟨count, hc, hi, hid⟩ := coarseLocal_spec hloc
  have hin : idx.l0.InCell c fineId := hid ▸ inCell_globalFineId hc hi
  rw [hloc]
  simp only
  split
  · split
    · rename_i hempty
      exact ⟨_, _, rfl, .erase idx hin (isEmpty_iff.mp hempty)⟩
    · exact ⟨_, _, rfl, .setCluster idx hin⟩
  · rename_i hbig
    obtain ⟨l1, hl1, hnum, -⟩ := h.cell c count hc
    rw [hl1]
    simp only
    split
    · exact ⟨_, _, rfl, .setCluster idx hin⟩
    · refine ⟨_, _, rfl, ?_, ?_⟩
      · rw [memberBag_placeBuckets, sum_bucket]
        · exact (memberBag_erase idx.clusters fineId).symm
        · omega
      · refine localTo_placeBuckets _ _ _ (fun j => ?_) _ ((LocalTo.refl _ _ _).erase hin)
        refine inCell_globalFineId hc ?_
        rw [hnum, Nat.max_eq_left (Nat.succ_le_of_lt (Nat.zero_lt_of_lt hi))]
        exact Nat.mod_lt _ (Nat.zero_lt_of_lt hi)

/-- Cutting a sorted list of members. -/
theorem coe_drop_add_take (members : List ClusterMember) (f : ClusterMember → Fp)
    (r : Fp × ClusterMember → Fp × ClusterMember → Prop) [DecidableRel r] (n : Nat) :
    ((((members.map fun m => (f m, m)).insertionSort r).drop n).map Prod.snd +
      (((members.map fun m => (f m, m)).insertionSort r).take n).map Prod.snd :
        Multiset ClusterMember) = members := by
  have hperm := (perm_insertionSort r (members.map fun m => (f m, m))).map Prod.snd
  rw [add_comm, Multiset.coe_add, ← map_append, take_append_drop]
  exact Multiset.coe_eq_coe.mpr (hperm.trans (by simp [Function.comp_def]))

theorem leastLoaded_lt {n sourceFine i : Nat} (h : idx.leastLoaded c n sourceFine = some i) :
    i < n := by
  rw [leastLoaded, Option.map_eq_some_iff] at h
  obtain ⟨b, hb, rfl⟩ := h
  revert b
  refine foldlRecOn (motive := fun best => ∀ b : Nat × Nat, best = some b → b.1 < n)
    (range n) _
    (fun b hb => by cases hb) ?_
  intro best hbest j hj b hb
  have hlt := mem_range.mp hj
  dsimp only at hb
  split at hb
  · exact hbest b hb
  · split at hb
    · cases hb
      exact hlt
    · split at hb
      · cases hb
        exact hlt
      · exact hbest b hb

theorem movesWithin_relocate : MovesWithin (relocateExcessWithinCoarse q) := by
  intro idx source h
  rw [relocateExcessWithinCoarse]
  refine ⟨fun hnone => by rw [hnone], fun c i hloc => ?_⟩
  obtain ⟨count, hc, hi, hid⟩ := coarseLocal_spec hloc
  have hin : idx.l0.InCell c source := hid ▸ inCell_globalFineId hc hi
  obtain ⟨l1, hl1, hnum, -⟩ := h.cell c count hc
  rw [hloc]
  simp only [hl1]
  split
  · exact ⟨_, _, rfl, .refl idx c⟩
  rename_i hexcess
  split
  · exact ⟨_, _, rfl, .refl idx c⟩
  rename_i target htarget
  have hsome : membersAt idx.clusters source ≠ [] := by
    intro hnil
    simp [hnil] at hexcess
  obtain ⟨cl, hcl, hmem⟩ := lookup_of_membersAt_ne_nil hsome
  refine ⟨_, _, rfl, ?_, ?_⟩
  · rw [memberBag_extendCluster, memberBag_modify hcl, ← add_assoc, add_comm (Multiset.ofList _),
      coe_drop_add_take]
    exact (memberBag_erase idx.clusters source).symm
  · generalize map Prod.snd (drop _ _) = keep
    generalize map Prod.snd (take _ _) = moved
    have hkept : LocalTo idx.l0 c idx.clusters
        (idx.clusters.insert source { cl with members := keep }) :=
      (LocalTo.refl _ _ _).insert hin fun hnamed => hnamed source cl hcl
    rw [HashMap.modify, hcl]
    refine hkept.extendCluster ?_ _ moved
    exact inCell_globalFineId hc (hnum ▸ leastLoaded_lt htarget)

variable {q} in
theorem tryEach_steps {f : VectorIndex → Nat → Except String (VectorIndex × Bool)}
    (hf : TakesSteps q f) (ids : List Nat) (h : idx.Complete) :
    ∃ idx' p, tryEach f ids idx = .ok (idx', p) ∧ Steps q idx idx' := by
  induction ids generalizing idx with
  | nil => exact ⟨idx, false, rfl, .refl⟩
  | cons fineId ids ih =>
    obtain ⟨idx₁, p₁, hrun₁, h₁⟩ := hf idx fineId h
    obtain ⟨idx₂, p₂, hrun₂, h₂⟩ := ih (h₁.becomes h).complete
    refine ⟨idx₂, p₁ || p₂, ?_, h₁.trans h₂⟩
    simp only [tryEach, hrun₁, hrun₂, bind, Except.bind]

theorem splitRounds_steps (n : Nat) (h : idx.Complete) :
    ∃ idx', splitRounds q o n idx = .ok idx' ∧ Steps q idx idx' := by
  induction n generalizing idx with
  | zero => exact ⟨idx, rfl, .refl⟩
  | succ n ih =>
    rw [splitRounds]
    split
    · exact ⟨idx, rfl, .refl⟩
    generalize map Prod.fst _ = oversized
    obtain ⟨idx₁, p₁, hrun₁, h₁⟩ := tryEach_steps (takesSteps_binarySplit q) oversized h
    obtain ⟨idx₂, p₂, hrun₂, h₂⟩ :=
      tryEach_steps (movesWithin_multishard q).takesSteps oversized (h₁.becomes h).complete
    have h₂' : Steps q idx idx₂ := h₁.trans h₂
    obtain ⟨idx₃, p₃, hrun₃, h₃⟩ :=
      tryEach_steps (movesWithin_relocate q).takesSteps oversized (h₂'.becomes h).complete
    have h₃' : Steps q idx idx₃ := h₂'.trans h₃
    simp only [hrun₁, hrun₂, hrun₃, bind, Except.bind]
    split
    · obtain ⟨idx', hrun, hend⟩ := ih (h₁.becomes h).complete
      exact ⟨idx', hrun, h₁.trans hend⟩
    split
    · obtain ⟨idx', hrun, hend⟩ := ih (h₂'.becomes h).complete
      exact ⟨idx', hrun, h₂'.trans hend⟩
    split
    · obtain ⟨idx', hrun, hend⟩ := ih (h₃'.becomes h).complete
      exact ⟨idx', hrun, h₃'.trans hend⟩
    · exact ⟨idx₃, rfl, h₃'⟩

/-! ## Merging and moving -/

theorem head_topMCentroids_lt (centroids : List Vec) (h : centroids ≠ []) (v : Vec)
    (metric : DistanceMetric) :
    (topMCentroids q.scoreVector centroids v metric 1).head?.getD 0 < centroids.length := by
  cases hhead : (topMCentroids q.scoreVector centroids v metric 1).head? with
  | none => exact length_pos_iff.mpr h
  | some i => exact mem_topMCentroids_lt (mem_of_head? hhead)

theorem mergeTinyCluster_steps (h : idx.Complete) (fineId : Nat) :
    Steps q idx (mergeTinyCluster q idx fineId) := by
  rw [mergeTinyCluster]
  split
  · exact .refl
  rename_i c i hloc
  obtain ⟨count, hc, hi, hid⟩ := coarseLocal_spec hloc
  have hin : idx.l0.InCell c fineId := hid ▸ inCell_globalFineId hc hi
  obtain ⟨l1, hl1, -, hlen⟩ := h.cell c count hc
  split
  · rename_i hnil
    exact .single (.within (.erase idx hin hnil))
  rename_i m ms hmem
  have hset := Within.setCluster idx hin
  rw [hmem] at hset
  simp only [hl1]
  split
  · exact .single (.within hset)
  split
  · exact .single (.within hset)
  · refine .single (.within (c := c) ⟨?_, ?_⟩)
    · have hall := memberBag_erase idx.clusters fineId
      rw [hmem] at hall
      rw [memberBag_extendCluster]
      exact hall.symm
    · refine ((LocalTo.refl _ _ _).erase hin).extendCluster ?_ _ _
      have hne : l1.centroids ≠ [] := ne_nil_of_length_pos (hlen ▸ Nat.zero_lt_of_lt hi)
      exact inCell_globalFineId hc (hlen ▸ head_topMCentroids_lt q _ hne _ _)

variable {q} in
theorem foldl_steps {α : Type} {f : VectorIndex → α → VectorIndex}
    (hf : ∀ idx a, idx.Complete → Steps q idx (f idx a)) (l : List α) (h : idx.Complete) :
    Steps q idx (l.foldl f idx) := by
  induction l generalizing idx with
  | nil => exact .refl
  | cons a l ih =>
    have hstep := hf idx a h
    exact hstep.trans (ih (hstep.becomes h).complete)

theorem perm_cons_eraseP {p : ClusterMember → Bool} {l : List ClusterMember} {m : ClusterMember}
    (h : l.find? p = some m) : l.Perm (m :: l.eraseP p) := by
  obtain ⟨hm, as, bs, rfl, has⟩ := find?_eq_some_iff_append.mp h
  have hnot : ∀ a ∈ as, ¬p a = true := by simpa using has
  rw [eraseP_append_right _ hnot, eraseP_cons_of_pos hm]
  exact perm_middle

theorem moveMember_becomes (h : idx.Complete) (move : String × Nat) :
    Becomes idx (moveMember o idx move) idx.members := by
  rw [moveMember]
  split
  · exact .refl h
  rename_i fineId cluster hfind
  split
  · exact .refl h
  rename_i m hm
  apply h.setClusters
  have hlookup := mem_iter.mp (mem_of_find?_eq_some hfind)
  have hall : memberBag idx.clusters = cluster.members + memberBag (idx.clusters.erase fineId) :=
    flatten_erase _ hlookup
  rw [memberBag_extendCluster, memberBag_insert, members, hall,
    Multiset.coe_eq_coe.mpr (perm_cons_eraseP hm), ← add_assoc]
  rfl

theorem reassignDriftedMembers_becomes (h : idx.Complete) :
    Becomes idx (reassignDriftedMembers q o idx) idx.members := by
  rw [reassignDriftedMembers]
  generalize flatMap _ _ = moves
  induction moves generalizing idx with
  | nil => exact .refl h
  | cons move moves ih =>
    have hstep := moveMember_becomes o h move
    exact hstep.keeping (ih hstep.complete)

/-- Refreshing changes centroids, not their number. -/
theorem refreshL1_keeps (idx : VectorIndex) (c : Nat) (l1 : CentroidIndexL1) :
    ∃ centroids, centroids.length = l1.centroids.length ∧
      refreshL1 q idx c l1 = { l1 with centroids } := by
  rw [refreshL1]
  generalize range l1.numFine = is
  induction is generalizing l1 with
  | nil => exact ⟨_, rfl, rfl⟩
  | cons i is ih =>
    rw [foldl_cons]
    dsimp only
    split
    · exact ih l1
    · split
      · exact ih l1
      · obtain ⟨centroids, hlen, heq⟩ := ih { l1 with centroids := l1.centroids.set i _ }
        exact ⟨centroids, hlen.trans length_set, heq⟩

theorem lookup_refreshFineCentroids (idx : VectorIndex) (c : Nat) :
    (refreshFineCentroids q idx).l1.lookup c = (idx.l1.lookup c).map (refreshL1 q idx c) := by
  rw [refreshFineCentroids, lookup_filterMap]
  cases idx.l1.lookup c <;> rfl

/-! ## Maintenance -/

/-- The phases of maintenance: steps, the moves to nearer centroids, steps, and a last
round of splitting. -/
theorem runIncrementalMaintenance_phases (h : idx.Complete) (hfine : idx.l0.numFineTotal ≠ 0)
    (hcoarse : idx.l0.centroids ≠ []) :
    ∃ merged last idx', Steps q idx merged ∧ Steps q (reassignDriftedMembers q o merged) last ∧
      maintainToLastSplits q o idx = .ok last ∧ splitOversizedClusters q o last = .ok idx' ∧
      Steps q last idx' ∧ runIncrementalMaintenance q o idx = .ok idx' := by
  have hnot : ¬(idx.l0.numFineTotal = 0 ∨ idx.l0.centroids.isEmpty = true) := by
    rw [List.isEmpty_iff]
    exact not_or.mpr ⟨hfine, hcoarse⟩
  rw [runIncrementalMaintenance, if_neg hnot, maintainToLastSplits, if_neg hnot]
  simp only
  have h₀ : Steps q idx (pruneEmptyClusters { idx with l0 := { idx.l0 with
      maintenancePasses := min (idx.l0.maintenancePasses + 1) (2 ^ 32 - 1) } }) :=
    .tail (.single (.count idx _)) (.prune _)
  obtain ⟨split, hrun, hsplit⟩ := splitRounds_steps q o maxRounds (h₀.becomes h).complete
  have h₁ : Steps q idx split := h₀.trans hsplit
  have h₂ : Steps q idx (mergeTinyClusters q o split) :=
    h₁.trans (foldl_steps (fun _ a h => mergeTinyCluster_steps q h a) _ (h₁.becomes h).complete)
  have hmoved := reassignDriftedMembers_becomes q o (h₂.becomes h).complete
  have h₃ : Steps q (reassignDriftedMembers q o (mergeTinyClusters q o split))
      (pruneEmptyClusters (refreshFineCentroids q
        (reassignDriftedMembers q o (mergeTinyClusters q o split)))) :=
    .tail (.single (.centroids (lookup_refreshFineCentroids q _) (refreshL1_keeps q _))) (.prune _)
  obtain ⟨last, hrun', hlast⟩ := splitRounds_steps q o maxRounds
    (h₃.becomes hmoved.complete).complete
  rw [splitOversizedClusters, hrun]
  exact ⟨_, _, last, h₂, h₃, rfl, hrun', hlast, hrun'⟩

theorem runIncrementalMaintenance_spec (h : idx.Complete) :
    ∃ idx', runIncrementalMaintenance q o idx = .ok idx' ∧ Becomes idx idx' idx.members := by
  by_cases hnone : idx.l0.numFineTotal = 0 ∨ idx.l0.centroids.isEmpty = true
  · exact ⟨idx, by rw [runIncrementalMaintenance, if_pos hnone], .refl h⟩
  · rw [List.isEmpty_iff, not_or] at hnone
    obtain ⟨merged, last, idx', hmerged, hlast, -, -, hend, hrun⟩ :=
      runIncrementalMaintenance_phases q o h hnone.1 hnone.2
    have h₁ := hmerged.becomes h
    have h₂ := h₁.keeping (reassignDriftedMembers_becomes q o h₁.complete)
    have h₃ := h₂.keeping (hlast.becomes h₂.complete)
    exact ⟨idx', hrun, h₃.keeping (hend.becomes h₃.complete)⟩

end Quantized

end VectorIndex

end OpenPuffer
