import OpenPuffer.Vector.Index

/-!
# Queries on a vector index

A query takes the best coarse cells, in each of them the best fine centroids, and reads the
clusters of these.  A cell with routing parts is searched through its best parts.  An index with
at most 32 fine centroids is read whole.  The documents of the probed clusters are the candidate
pool (`annPoolDocIds`), and `queryAnn` stays inside it.  Scores are an argument (`Scorer`).
-/

namespace OpenPuffer

open List

/-- Scores of a query and a stored vector, in `f64` and in `f32` arithmetic. -/
structure Scorer where
  scoreVector : Vec → Vec → DistanceMetric → Fp
  scoreVectorF32 : Vec → Vec → DistanceMetric → Fp

/-- The scores of the source. -/
def scorer : Scorer := ⟨scoreVector, scoreVectorF32⟩

/-! ## Probe widths -/

namespace CentroidIndexL0

def probeCoarseCount (l0 : CentroidIndexL0) : Nat :=
  if l0.numFineTotal ≤ 32 then l0.numCoarse else max (min l0.probeCoarse l0.numCoarse) 1

def probeFineCountForNumFine (l0 : CentroidIndexL0) (numFine : Nat) : Nat :=
  if l0.numFineTotal ≤ 32 then numFine else max (min l0.probeFine numFine) 1

def probeFineCount (l0 : CentroidIndexL0) (l1 : CentroidIndexL1) : Nat :=
  l0.probeFineCountForNumFine l1.numFine

/-- How many routing parts of a cell are searched. -/
def probeL2Count (l0 : CentroidIndexL0) (l2Parts : Nat) : Nat :=
  if l2Parts ≤ 1 then 0
  else if l0.numFineTotal ≤ 32 then l2Parts
  else max (min l0.probeFine l2Parts) 1

end CentroidIndexL0

def CentroidRouting.l2CountForCoarse (routing : CentroidRouting) (coarseId : Nat) : Nat :=
  routing.l2Counts.getD coarseId 0

/-- The components of a member as `f32` values. -/
def ClusterMember.asF32Slice (m : ClusterMember) (dim : Nat) : Vec :=
  match m.vectorF16 with
  | some bytes => f16LeBytesToF32Vec bytes dim
  | none => (m.vector.take dim).map Format.binary32.convert

section Scored

variable (s : Scorer)

/-- The `topK` best members of a cluster. -/
def ClusterSegment.scoreMembers (c : ClusterSegment) (query : Vec) (metric : DistanceMetric)
    (topK dim : Nat) (element : VectorElement) : List (String × Fp) :=
  let scored :=
    match element with
    | .f32 => c.members.map fun m => (m.docId, s.scoreVector query m.vector metric)
    | .f16 =>
      let queryF32 := (query.take dim).map Format.binary32.convert
      c.members.map fun m => (m.docId, s.scoreVectorF32 queryF32 (m.asF32Slice dim) metric)
  (sortRanked scored).take topK

/-! ## The descent -/

section Parts

variable (l0 : CentroidIndexL0) (l1 : HashMap Nat CentroidIndexL1)
  (routing : Option CentroidRouting) (l2 : HashMap (Nat × Nat) CentroidIndexL2) (query : Vec)

/-- The best score of the centroids of a routing part. -/
def l2Score (seg : CentroidIndexL2) : Fp :=
  (seg.centroids.map fun c => s.scoreVector query c l0.distanceMetric).foldl Fp.max (.inf true)

/-- The routing parts of a cell that have centroids, the best one first. -/
def rankL2 (coarseId l2Parts : Nat) : List (Nat × Fp) :=
  sortRanked <| (List.range l2Parts).filterMap fun l2Id =>
    (l2.lookup (coarseId, l2Id)).bind fun seg =>
      if seg.centroids.isEmpty then none else some (l2Id, l2Score s l0 query seg)

/-- The fine ids to probe in a routing part. -/
def probeL2 (seg : CentroidIndexL2) : List Nat :=
  let fineM := l0.probeFineCountForNumFine seg.numFine
  (topMCentroids s.scoreVector seg.centroids query l0.distanceMetric fineM).map fun localFine =>
    -- `u32::saturating_add`
    min (seg.globalFineStart + localFine) (2 ^ 32 - 1)

/-- The fine ids to probe in a coarse cell. -/
def probeCell (coarseId : Nat) : List Nat :=
  let l2Parts := (routing.map fun r => r.l2CountForCoarse coarseId).getD 0
  let ranked := rankL2 s l0 l2 query coarseId l2Parts
  if 1 < l2Parts ∧ l2.keys ≠ ∅ ∧ ranked ≠ [] then
    (ranked.take (l0.probeL2Count l2Parts)).flatMap fun r =>
      ((l2.lookup (coarseId, r.1)).map (probeL2 s l0 query)).getD []
  else
    match l1.lookup coarseId with
    | none => []
    | some seg =>
      (topMCentroids s.scoreVector seg.centroids query l0.distanceMetric
        (l0.probeFineCount seg)).map (l0.globalFineId coarseId)

/-- The fine ids to probe, ascending and without repetitions. -/
def probeFineCentroidsParts : List Nat :=
  if query.length ≠ l0.dimensions then []
  else
    let coarseIds :=
      topMCentroids s.scoreVector l0.centroids query l0.distanceMetric l0.probeCoarseCount
    (IterOrder.sorted Nat).toList
      (coarseIds.flatMap (probeCell s l0 l1 routing l2 query)).toFinset

end Parts

/-- Keep the better score of a document. -/
def raiseScore (scores : HashMap String Fp) (e : String × Fp) : HashMap String Fp :=
  match scores.lookup e.1 with
  | none => scores.insert e.1 e.2
  | some old => if old.lt e.2 then scores.insert e.1 e.2 else scores

namespace VectorIndex

def probeFineCentroids (idx : VectorIndex) (query : Vec) : List Nat :=
  probeFineCentroidsParts s idx.l0 idx.l1 idx.routing idx.l2 query

def candidateDocIds (idx : VectorIndex) (query : Vec) : Finset String :=
  ((idx.probeFineCentroids s query).flatMap fun fineId =>
    (membersAt idx.clusters fineId).map ClusterMember.docId).toFinset

/-- All documents of the probed clusters. -/
def annPoolDocIds (idx : VectorIndex) (query : Vec) : Finset String := idx.candidateDocIds s query

/-- Add the best members of a probed cluster to the scores. -/
def scoreCluster (idx : VectorIndex) (query : Vec) (topK : Nat) (scores : HashMap String Fp)
    (fineId : Nat) : HashMap String Fp :=
  match idx.clusters.lookup fineId with
  | none => scores
  | some c =>
    (c.scoreMembers s query idx.l0.distanceMetric (saturatingMul topK 4) idx.l0.dimensions
      idx.l0.vectorElement).foldl raiseScore scores

/-- The `topK` best documents of the probed clusters. -/
def queryAnn (o : IterOrder String) (idx : VectorIndex) (query : Vec) (topK : Nat) :
    List (String × Fp) :=
  if query.length ≠ idx.l0.dimensions then []
  else
    let scores := (idx.probeFineCentroids s query).foldl (idx.scoreCluster s query topK) ∅
    (sortRanked (HashMap.iter o scores)).take topK

end VectorIndex

/-! ## Results stay in the pool -/

theorem mem_of_mem_scoreMembers {c : ClusterSegment} {query : Vec} {metric : DistanceMetric}
    {topK dim : Nat} {element : VectorElement} {e : String × Fp}
    (h : e ∈ c.scoreMembers s query metric topK dim element) :
    e.1 ∈ c.members.map ClusterMember.docId := by
  have hsorted := mem_of_mem_take h
  rw [sortRanked, mem_insertionSort] at hsorted
  cases element with
  | f32 =>
    obtain ⟨m, hm, rfl⟩ := mem_map.mp hsorted
    exact mem_map_of_mem hm
  | f16 =>
    obtain ⟨m, hm, rfl⟩ := mem_map.mp hsorted
    exact mem_map_of_mem hm

theorem mem_raiseScore {scores : HashMap String Fp} {e : String × Fp} {id : String}
    (h : id ∈ raiseScore scores e) : id ∈ scores ∨ id = e.1 := by
  simp only [raiseScore] at h
  split at h
  · exact (Finmap.mem_insert.mp h).symm
  · split at h
    · exact (Finmap.mem_insert.mp h).symm
    · exact .inl h

theorem mem_raiseScores {es : List (String × Fp)} {scores : HashMap String Fp} {id : String}
    (h : id ∈ es.foldl raiseScore scores) : id ∈ scores ∨ id ∈ es.map Prod.fst := by
  induction es generalizing scores with
  | nil => exact .inl h
  | cons e es ih =>
    rw [map_cons, mem_cons]
    rcases ih h with hmem | hmem
    · exact (mem_raiseScore hmem).imp_right .inl
    · exact .inr (.inr hmem)

namespace VectorIndex

variable {idx : VectorIndex} {query : Vec} {topK : Nat}

theorem mem_scoreCluster {fineId : Nat} {scores : HashMap String Fp} {id : String}
    (h : id ∈ idx.scoreCluster s query topK scores fineId) :
    id ∈ scores ∨ id ∈ (membersAt idx.clusters fineId).map ClusterMember.docId := by
  rw [scoreCluster] at h
  rw [membersAt]
  cases hc : idx.clusters.lookup fineId with
  | none =>
    rw [hc] at h
    exact .inl h
  | some c =>
    rw [hc] at h
    refine (mem_raiseScores h).imp_right fun hid => ?_
    obtain ⟨e, he, rfl⟩ := mem_map.mp hid
    exact mem_of_mem_scoreMembers s he

theorem mem_scoreClusters {fineIds : List Nat} {scores : HashMap String Fp} {id : String}
    (h : id ∈ fineIds.foldl (idx.scoreCluster s query topK) scores) :
    id ∈ scores ∨ ∃ fineId ∈ fineIds,
      id ∈ (membersAt idx.clusters fineId).map ClusterMember.docId := by
  induction fineIds generalizing scores with
  | nil => exact .inl h
  | cons fineId fineIds ih =>
    rcases ih h with hmem | ⟨other, hother, hid⟩
    · refine (mem_scoreCluster s hmem).imp_right fun hid => ?_
      exact ⟨fineId, mem_cons_self, hid⟩
    · exact .inr ⟨other, mem_cons_of_mem _ hother, hid⟩

/-- Scoring cluster members finds no document outside the pool. -/
theorem queryAnn_mem_pool {o : IterOrder String} {e : String × Fp}
    (h : e ∈ idx.queryAnn s o query topK) : e.1 ∈ idx.annPoolDocIds s query := by
  rw [queryAnn] at h
  split at h
  · cases h
  · have hsorted := mem_of_mem_take h
    rw [sortRanked, mem_insertionSort] at hsorted
    have hmem := Finmap.mem_of_lookup_eq_some (HashMap.mem_iter.mp hsorted)
    rcases mem_scoreClusters s hmem with hempty | ⟨fineId, hfine, hid⟩
    · exact absurd hempty (Finmap.notMem_empty)
    · exact mem_toFinset.mpr (mem_flatMap.mpr ⟨fineId, hfine, hid⟩)

end VectorIndex

end Scored

end OpenPuffer
