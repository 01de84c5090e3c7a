import OpenPuffer.Vector.Kmeans

/-!
# The two-level vector index

Documents are grouped in coarse cells, each cell in fine clusters.  The coarse centroids are in
`CentroidIndexL0`, the fine ones of a cell in its `CentroidIndexL1`, and the members of a fine
cluster in its `ClusterSegment`.  Fine clusters are numbered through all cells, so a new cluster
in a cell shifts the ids of all later cells.  `VectorIndex.build` makes an index from documents,
`VectorIndex.applyDelta` removes and assigns documents and then runs maintenance.

Ids and counters are `u32` in the source and `Nat` here.
-/

namespace OpenPuffer

/-! ## Constants -/

/-- Coarse centroids that are probed. -/
def defaultProbeCoarse : Nat := 4

/-- Fine centroids per probed cell. -/
def defaultProbeFine : Nat := 2

/-- Most coarse centroids of a v2 index. -/
def maxCoarseCentroids : Nat := 16

/-- Most coarse centroids of a v3 index. -/
def maxCoarseCentroidsV3 : Nat := 256

/-- Most fine centroids per coarse cell of a v2 index. -/
def maxFinePerCoarse : Nat := 256

/-- Most fine centroids per v3 cell. -/
def maxFinePerCoarseV3 : Nat := 8

/-- A v3 cell with more fine centroids gets a second routing level. -/
def l2SplitFineThreshold : Nat := 32

/-- Documents that a v3 cell is sized for. -/
def v3TargetDocsPerCoarse : Nat := 500

/-- A v3 build plans for fewer objects. -/
def v3IndexObjectCap : Nat := 500

/-- Documents per cluster before a rebuild. -/
def rebuildDocMultiplier : Nat := 4

/-- A cluster with more members is split. -/
def maxClusterMembers : Nat := 512

/-- A cluster with at most this many members is merged. -/
def mergeClusterMaxMembers : Nat := 2

/-- Passes after which an index is rebuilt. -/
def rebuildScheduledMaintenancePasses : Nat := 256

/-! ## Types -/

/-- One document of a cluster.  An `f16` column stores packed bytes. -/
structure ClusterMember where
  docId : String
  vector : Vec := []
  vectorF16 : Option (List UInt8) := none
deriving DecidableEq

/-- The member for a vector of a column. -/
def ClusterMember.fromValues (docId : String) (values : Vec) : VectorElement → ClusterMember
  | .f32 => { docId, vector := values }
  | .f16 => { docId, vectorF16 := some (f64SliceToF16Le values) }

/-- The coarse centroid table. -/
structure CentroidIndexL0 where
  segmentId : Nat := 0
  vectorField : String := ""
  dimensions : Nat := 0
  numCoarse : Nat := 0
  numFineTotal : Nat := 0
  probeCoarse : Nat := defaultProbeCoarse
  probeFine : Nat := defaultProbeFine
  distanceMetric : DistanceMetric := .cosineDistance
  vectorElement : VectorElement := .f32
  /-- Number of fine centroids per coarse cell. -/
  fineCounts : List Nat := []
  centroids : List Vec := []
  annVersion : Nat := annVersionV2
  hasRouting : Bool := false
  /-- Maintenance passes since the last build. -/
  maintenancePasses : Nat := 0
deriving DecidableEq

/-- Number of second-level routing parts per coarse cell. -/
structure CentroidRouting where
  annVersion : Nat
  segmentId : Nat
  vectorField : String
  dimensions : Nat
  l2Counts : List Nat
deriving DecidableEq

/-- A routing part of a coarse cell. -/
structure CentroidIndexL2 where
  segmentId : Nat
  coarseId : Nat
  l2Id : Nat
  globalFineStart : Nat
  numFine : Nat
  centroids : List Vec
deriving DecidableEq

/-- The fine centroids of a coarse cell. -/
structure CentroidIndexL1 where
  segmentId : Nat
  coarseId : Nat
  globalIdStart : Nat
  numFine : Nat
  centroids : List Vec
deriving DecidableEq

/-- The members of one fine centroid. -/
structure ClusterSegment where
  segmentId : Nat := 0
  centroidId : Nat := 0
  members : List ClusterMember := []
deriving DecidableEq

/-- The objects of an index. -/
structure VectorIndex where
  l0 : CentroidIndexL0 := {}
  l1 : HashMap Nat CentroidIndexL1 := ∅
  clusters : HashMap Nat ClusterSegment := ∅
  routing : Option CentroidRouting := none
  l2 : HashMap (Nat × Nat) CentroidIndexL2 := ∅
deriving DecidableEq

/-- Probe widths and layout of a build. -/
structure AnnBuildConfig where
  probeCoarse : Nat := defaultProbeCoarse
  probeFine : Nat := defaultProbeFine
  annVersion : Nat := annVersionV2

namespace CentroidIndexL0

/-- The v3 layout. -/
def isV3 (l0 : CentroidIndexL0) : Bool := l0.annVersion ≥ annVersionV3

/-- The first fine id of a coarse cell. -/
def globalIdStart (l0 : CentroidIndexL0) (coarseId : Nat) : Nat :=
  (l0.fineCounts.take coarseId).sum

/-- The fine id of a position in a cell. -/
def globalFineId (l0 : CentroidIndexL0) (coarseId localFine : Nat) : Nat :=
  l0.globalIdStart coarseId + localFine

/-- Most fine centroids a coarse cell should have. -/
def maxFine (l0 : CentroidIndexL0) : Nat :=
  if l0.isV3 then maxFinePerCoarseV3 else maxFinePerCoarse

/-- The coarse cell of a fine id and its position there, from cell `coarseId` on
whose first fine id is `offset`. -/
def locate (fineId : Nat) : (coarseId offset : Nat) → List Nat → Option (Nat × Nat)
  | _, _, [] => none
  | coarseId, offset, count :: counts =>
    if fineId < offset + count then some (coarseId, fineId - offset)
    else locate fineId (coarseId + 1) (offset + count) counts

/-- The inverse of `globalFineId`. -/
def coarseLocalFromGlobal (l0 : CentroidIndexL0) (fineId : Nat) : Option (Nat × Nat) :=
  locate fineId 0 0 l0.fineCounts

end CentroidIndexL0

/-! ## Clusters -/

/-- Append members to a cluster; a new cluster gets the segment id. -/
def extendCluster (segmentId fineId : Nat) (ms : List ClusterMember)
    (clusters : HashMap Nat ClusterSegment) : HashMap Nat ClusterSegment :=
  clusters.entry { segmentId, centroidId := fineId } fineId fun c =>
    { c with members := c.members ++ ms }

/-- The members of a fine id, none if it has no cluster. -/
def membersAt (clusters : HashMap Nat ClusterSegment) (fineId : Nat) : List ClusterMember :=
  ((clusters.lookup fineId).map ClusterSegment.members).getD []

/-- Drop the clusters without members. -/
def pruneEmpty (clusters : HashMap Nat ClusterSegment) : HashMap Nat ClusterSegment :=
  clusters.filterMap fun _ c => if c.members.isEmpty then none else some c

/-- Take a document out of every cluster. -/
def removeMember (docId : String) (clusters : HashMap Nat ClusterSegment) :
    HashMap Nat ClusterSegment :=
  clusters.filterMap fun _ c =>
    some { c with members := c.members.filter fun m => m.docId ≠ docId }

/-- Move every cluster from `pivot` on to the next id, the last one first. -/
def shiftClusters (pivot : Nat) (clusters : HashMap Nat ClusterSegment) :
    HashMap Nat ClusterSegment :=
  let oldIds := ((IterOrder.sorted Nat).toList (clusters.keys.filter (pivot ≤ ·))).reverse
  let (taken, rest) := clusters.takeAll oldIds
  rest.insertAll (taken.map fun e => (e.1 + 1, { e.2 with centroidId := e.1 + 1 }))

/-- The vector of a member, unpacked. -/
def memberAsF64 (m : ClusterMember) (dim : Nat) : Vec :=
  match m.vectorF16 with
  | some bytes => f16LeBytesToF32Vec bytes dim
  | none => m.vector

/-- The points of k-means. -/
def membersAsPairs (members : List ClusterMember) (dim : Nat) : List (String × Vec) :=
  members.map fun m => (m.docId, memberAsF64 m dim)

/-! ## Sizes of a build -/

/-- `(n as f64).sqrt().ceil() as usize`. -/
def sqrtCeil (n : Nat) : Nat := (Format.binary64.sqrt (.num (roundNat n))).val.ceil.toNat

/-- `Ord::clamp`. -/
def clamp (x low high : Nat) : Nat := min (max x low) high

/-- Coarse cells for `n` documents. -/
def numCoarseV2 (n : Nat) : Nat :=
  if n ≤ 32 then 1
  else min (clamp (max (sqrtCeil n / 4) 4) 1 n) maxCoarseCentroids

/-- Fine clusters for `n` documents of a cell. -/
def numFineV2 (n : Nat) : Nat :=
  if n = 0 then 0 else min (clamp (sqrtCeil n) 1 n) maxFinePerCoarse

/-- `numFineV2` with the limit of v3. -/
def numFineV3 (n : Nat) : Nat :=
  if n = 0 then 0 else min (clamp (sqrtCeil n) 1 n) maxFinePerCoarseV3

/-- Estimated number of objects of a v3 layout. -/
def v3L1ClusterObjectCountEstimate (n kCoarse : Nat) : Nat :=
  if kCoarse = 0 then 0
  else kCoarse + kCoarse * numFineV3 ((n + kCoarse - 1) / kCoarse)

/-- Lower the number of coarse cells while too many objects are expected. -/
def lowerCoarseV3 (n : Nat) : Nat → Nat
  | 0 => 0
  | k + 1 =>
    if k + 1 > 8 ∧ v3L1ClusterObjectCountEstimate n (k + 1) ≥ v3IndexObjectCap then
      lowerCoarseV3 n k
    else k + 1

/-- Coarse cells of v3, under the object cap. -/
def numCoarseV3 (n : Nat) : Nat :=
  if n ≤ 32 then 1
  else lowerCoarseV3 n (min (clamp (max (n / v3TargetDocsPerCoarse) 8) 8 n) maxCoarseCentroidsV3)

def numCoarseForVersion (n annVersion : Nat) : Nat :=
  if n = 0 then 0 else if annVersion ≥ annVersionV3 then numCoarseV3 n else numCoarseV2 n

def numFineForVersion (n annVersion : Nat) : Nat :=
  if n = 0 then 0 else if annVersion ≥ annVersionV3 then numFineV3 n else numFineV2 n

namespace VectorIndex

/-- How many documents are members. -/
def docCount (idx : VectorIndex) : Nat :=
  (idx.clusters.entries.map fun e => e.2.members.length).sum

/-- The index is empty, old or full. -/
def needsFullRebuild (idx : VectorIndex) : Bool :=
  let n := idx.docCount
  let k := idx.l0.numFineTotal
  if k = 0 ∨ n = 0 then true
  else if idx.l0.maintenancePasses ≥ rebuildScheduledMaintenancePasses then true
  else
    let hierarchyFull := idx.l0.fineCounts.all fun c => c ≥ idx.l0.maxFine
    hierarchyFull && n > k * rebuildDocMultiplier

section Quantized

variable (q : Quantizer) (o : IterOrder Nat)

/-! ## Building -/

/-- Take the vector of a document, unless it is empty or its length differs from
that of the first one. -/
def collectPair (field : String) (found : Nat × List (String × Vec)) (doc : Document) :
    Nat × List (String × Vec) :=
  match extractVector doc.attributes field with
  | .error _ => found
  | .ok v =>
    if v.isEmpty then found
    else if found.1 = 0 then (v.length, found.2 ++ [(doc.id, v)])
    else if v.length ≠ found.1 then found
    else (found.1, found.2 ++ [(doc.id, v)])

/-- The dimension of a build and its vectors. -/
def collectPairs (field : String) (docs : List Document) : Nat × List (String × Vec) :=
  docs.foldl (collectPair field) (0, [])

/-- What a build shares between its cells. -/
structure BuildParams where
  segmentId : Nat
  metric : DistanceMetric
  element : VectorElement
  dimensions : Nat
  annVersion : Nat

/-- The cells built so far. -/
structure BuildState where
  l1 : HashMap Nat CentroidIndexL1 := ∅
  clusters : HashMap Nat ClusterSegment := ∅
  l2 : HashMap (Nat × Nat) CentroidIndexL2 := ∅
  l2Counts : List Nat := []
  fineCounts : List Nat := []
  globalStart : Nat := 0

/-- The second-level parts of a cell with many fine centroids. -/
def buildL2 (segmentId coarseId globalStart kFine parts : Nat) (fineVecs : List Vec)
    (l2 : HashMap (Nat × Nat) CentroidIndexL2) : HashMap (Nat × Nat) CentroidIndexL2 :=
  let chunk := max ((kFine + parts - 1) / parts) 1
  (List.range parts).foldl
    (fun l2 l2Id =>
      let start := l2Id * chunk
      let slice := (fineVecs.drop start).take (min ((l2Id + 1) * chunk) kFine - start)
      if slice.isEmpty then l2
      else
        l2.insert (coarseId, l2Id)
          { segmentId, coarseId, l2Id, globalFineStart := globalStart + start
            numFine := slice.length, centroids := slice })
    l2

/-- Build one coarse cell from its documents. -/
def buildCell (p : BuildParams) (byCoarse : HashMap Nat (List (String × Vec))) (st : BuildState)
    (coarseId : Nat) : BuildState :=
  let cellDocs := byCoarse.getOr [] coarseId
  let kFine := numFineForVersion cellDocs.length p.annVersion
  let fineVecs :=
    if cellDocs.isEmpty then [] else q.kmeansCentroids cellDocs kFine p.dimensions p.metric
  let fineAssign := assignToCentroids q.scoreVector cellDocs fineVecs p.metric
  let parts :=
    if p.annVersion ≥ annVersionV3 ∧ kFine > l2SplitFineThreshold then
      (kFine + l2SplitFineThreshold - 1) / l2SplitFineThreshold
    else 0
  { l1 := st.l1.insert coarseId
      { segmentId := p.segmentId, coarseId, globalIdStart := st.globalStart
        numFine := fineVecs.length, centroids := fineVecs }
    l2 := buildL2 p.segmentId coarseId st.globalStart kFine parts fineVecs st.l2
    l2Counts := st.l2Counts ++ [parts]
    fineCounts := st.fineCounts ++ [kFine]
    clusters := cellDocs.foldl
      (fun cs d =>
        extendCluster p.segmentId (st.globalStart + fineAssign.getOr 0 d.1)
          [.fromValues d.1 d.2 p.element] cs)
      st.clusters
    globalStart := st.globalStart + kFine }

/-- Build an index from documents; `none` if none of them has a vector. -/
def build (segmentId : Nat) (field : String) (metric : DistanceMetric) (docs : List Document)
    (schema : Json) (cfg : AnnBuildConfig) : Option VectorIndex :=
  let element := vectorElementForField schema field
  let (dimensions, pairs) := collectPairs field docs
  if pairs.isEmpty then none
  else
    let kCoarse := numCoarseForVersion pairs.length cfg.annVersion
    let coarseVecs := q.kmeansCentroids pairs kCoarse dimensions metric
    let coarseAssign := assignToCentroids q.scoreVector pairs coarseVecs metric
    let byCoarse := HashMap.groupBy (fun d => coarseAssign.getOr 0 d.1) pairs
    let p : BuildParams := { segmentId, metric, element, dimensions, annVersion := cfg.annVersion }
    let st := (List.range kCoarse).foldl (buildCell q p byCoarse) {}
    let useV3 := cfg.annVersion ≥ annVersionV3
    let hasRouting := useV3 && st.l2Counts.any fun c => c > 1
    some
      { l0 :=
          { segmentId
            vectorField := field
            dimensions
            numCoarse := kCoarse
            numFineTotal := st.globalStart
            probeCoarse := max (min cfg.probeCoarse kCoarse) 1
            probeFine := max cfg.probeFine 1
            distanceMetric := metric
            vectorElement := element
            fineCounts := st.fineCounts
            centroids := coarseVecs
            annVersion := if useV3 then annVersionV3 else annVersionV2
            hasRouting
            maintenancePasses := 0 }
        l1 := st.l1
        clusters := st.clusters
        routing :=
          if hasRouting then
            some { annVersion := annVersionV3, segmentId, vectorField := field, dimensions
                   l2Counts := st.l2Counts }
          else none
        l2 := st.l2 }

/-! ## Assigning a document -/

/-- Insert a document into its nearest cluster. -/
def assignDocToNearest (idx : VectorIndex) (docId : String) (v : Vec) :
    Except String VectorIndex :=
  let metric := idx.l0.distanceMetric
  let coarse := (topMCentroids q.scoreVector idx.l0.centroids v metric 1).head?.getD 0
  match idx.l1.lookup coarse with
  | none => .error s!"missing L1 segment for coarse {coarse}"
  | some l1 =>
    let localFine := (topMCentroids q.scoreVector l1.centroids v metric 1).head?.getD 0
    let fineId := idx.l0.globalFineId coarse localFine
    .ok
      { idx with
        clusters := extendCluster idx.l0.segmentId fineId
          [.fromValues docId v idx.l0.vectorElement] idx.clusters }

/-- Remove a document. -/
def removeDoc (idx : VectorIndex) (docId : String) : VectorIndex :=
  { idx with clusters := removeMember docId idx.clusters }

/-! ## Splitting oversized clusters -/

/-- Append a fine centroid to a cell; later fine ids move up by one. -/
def appendFineCentroid (idx : VectorIndex) (coarseId : Nat) (centroid : Vec) :
    Except String (VectorIndex × Nat) :=
  match idx.l1.lookup coarseId with
  | none => .error s!"missing L1 for coarse {coarseId}"
  | some l1 =>
    let newLocal := l1.numFine
    let centroids := l1.centroids ++ [centroid]
    let l1s := idx.l1.insert coarseId { l1 with centroids, numFine := centroids.length }
    let later := List.range' (coarseId + 1) (idx.l0.numCoarse - (coarseId + 1))
    .ok
      ({ idx with
         l0 :=
           { idx.l0 with
             fineCounts := idx.l0.fineCounts.modify coarseId (· + 1)
             numFineTotal := idx.l0.numFineTotal + 1 }
         l1 := later.foldl
           (fun m c => m.modify c fun l => { l with globalIdStart := l.globalIdStart + 1 }) l1s
         clusters := shiftClusters (idx.l0.globalIdStart coarseId + newLocal) idx.clusters },
       newLocal)

/-- Fine centroids of a cell. -/
def fineCount (idx : VectorIndex) (coarseId : Nat) : Nat := idx.l0.fineCounts.getD coarseId 0

/-- The size of the largest cluster of a cell. -/
def maxClusterMembersInCoarse (idx : VectorIndex) (coarseId : Nat) : Nat :=
  let start := idx.l0.globalIdStart coarseId
  let stop := start + idx.fineCount coarseId
  (idx.clusters.keys.filter fun f => start ≤ f ∧ f < stop).sup fun f =>
    (membersAt idx.clusters f).length

/-- The cell has room. -/
def canAddFineCentroid (idx : VectorIndex) (coarseId : Nat) : Bool :=
  idx.fineCount coarseId < idx.l0.maxFine

/-- A cell with an oversized cluster may exceed the cap of its layout. -/
def canAddFineCentroidForSplit (idx : VectorIndex) (coarseId : Nat) : Bool :=
  if idx.maxClusterMembersInCoarse coarseId ≤ maxClusterMembers then
    idx.canAddFineCentroid coarseId
  else idx.fineCount coarseId < maxFinePerCoarse

/-- Replace a fine centroid. -/
def setFineCentroid (idx : VectorIndex) (coarseId localFine : Nat) (centroid : Vec) :
    VectorIndex :=
  { idx with
    l1 := idx.l1.modify coarseId fun l =>
      { l with centroids := l.centroids.set localFine centroid } }

/-- The members that the assignment sends to a bucket; the last bucket takes
what lies beyond it. -/
def bucket (assign : HashMap String Nat) (k : Nat) (members : List ClusterMember) (i : Nat) :
    List ClusterMember :=
  members.filter fun m => min (assign.getOr 0 m.docId) (k - 1) = i

/-- Split a cluster in two, and the larger half again, while its cell has room. -/
def binarySplitLoop (coarseId : Nat) : Nat → VectorIndex → (fineId localFine : Nat) →
    (progress : Bool) → Except String (VectorIndex × Bool)
  | 0, idx, _, _, progress => .ok (idx, progress)
  | n + 1, idx, fineId, localFine, progress =>
    let members := membersAt idx.clusters fineId
    let pairs := membersAsPairs members idx.l0.dimensions
    let metric := idx.l0.distanceMetric
    if ¬idx.canAddFineCentroidForSplit coarseId then .ok (idx, progress)
    else if members.length ≤ maxClusterMembers then .ok (idx, progress)
    else
      match q.kmeansCentroids pairs 2 idx.l0.dimensions metric with
      | c₀ :: c₁ :: rest =>
        let assign := assignToCentroids q.scoreVector pairs (c₀ :: c₁ :: rest) metric
        let left := bucket assign 2 members 0
        let right := bucket assign 2 members 1
        if left.isEmpty || right.isEmpty then .ok (idx, progress)
        else do
          let (grown, newLocal) ← idx.appendFineCentroid coarseId c₁
          let newGlobal := grown.l0.globalFineId coarseId newLocal
          let split := grown.setFineCentroid coarseId localFine c₀
          let clusters := split.clusters.modify fineId fun c =>
            { c with members := left, centroidId := fineId }
          let idx' :=
            { split with
              clusters := clusters.insert newGlobal
                { segmentId := split.l0.segmentId, centroidId := newGlobal
                  members := right } }
          if (membersAt idx'.clusters fineId).length
              ≥ (membersAt idx'.clusters newGlobal).length then
            let localFine' :=
              ((idx'.l0.coarseLocalFromGlobal fineId).map Prod.snd).getD localFine
            binarySplitLoop coarseId n idx' fineId localFine' true
          else binarySplitLoop coarseId n idx' newGlobal newLocal true
      | _ => .ok (idx, progress)

/-- Splits of one cluster in a round. -/
def maxSplitsPerCluster : Nat := 64

/-- Split a cluster in two while it is too large. -/
def tryBinarySplitOversizedCluster (idx : VectorIndex) (fineId : Nat) :
    Except String (VectorIndex × Bool) :=
  match idx.l0.coarseLocalFromGlobal fineId with
  | none => .ok (idx, false)
  | some (coarseId, localFine) =>
    binarySplitLoop q coarseId maxSplitsPerCluster idx fineId localFine false

/-- Replace the members of a cluster. -/
def setCluster (idx : VectorIndex) (fineId : Nat) (members : List ClusterMember) : VectorIndex :=
  { idx with
    clusters := idx.clusters.insert fineId
      { segmentId := idx.l0.segmentId, centroidId := fineId, members } }

/-- Spread the members of a cluster over the existing clusters of its cell. -/
def tryMultishardOversizedCluster (idx : VectorIndex) (fineId : Nat) :
    Except String (VectorIndex × Bool) :=
  match idx.l0.coarseLocalFromGlobal fineId with
  | none => .ok (idx, false)
  | some (coarseId, _) =>
    let members := membersAt idx.clusters fineId
    let removed := { idx with clusters := idx.clusters.erase fineId }
    if members.length ≤ maxClusterMembers then
      .ok (if members.isEmpty then removed else removed.setCluster fineId members, false)
    else
      match idx.l1.lookup coarseId with
      | none => .ok (removed.setCluster fineId members, false)
      | some l1 =>
        let numFine := max l1.numFine 1
        let wanted := (members.length + maxClusterMembers - 1) / maxClusterMembers
        let k := min (min (max (min numFine wanted) 2) numFine) members.length
        let pairs := membersAsPairs members idx.l0.dimensions
        let subs := q.kmeansCentroids pairs k idx.l0.dimensions idx.l0.distanceMetric
        if subs.isEmpty then .ok (removed.setCluster fineId members, false)
        else
          let assign := assignToCentroids q.scoreVector pairs subs idx.l0.distanceMetric
          let placed := (List.range k).foldl
            (fun (st : HashMap Nat ClusterSegment × Bool) i =>
              let ms := bucket assign k members i
              if ms.isEmpty then st
              else
                (extendCluster idx.l0.segmentId (idx.l0.globalFineId coarseId (i % numFine))
                  ms st.1, true))
            (removed.clusters, false)
          .ok ({ idx with clusters := placed.1 }, placed.2)

/-- The least loaded cluster of a cell other than the source. -/
def leastLoaded (idx : VectorIndex) (coarseId numFine sourceFine : Nat) : Option Nat :=
  ((List.range numFine).foldl
    (fun (best : Option (Nat × Nat)) i =>
      let global := idx.l0.globalFineId coarseId i
      if global = sourceFine then best
      else
        let load := (membersAt idx.clusters global).length
        match best with
        | none => some (i, load)
        | some b => if load < b.2 then some (i, load) else best)
    none).map Prod.fst

/-- Move the excess of a cluster to the least loaded one of its cell. -/
def relocateExcessWithinCoarse (idx : VectorIndex) (sourceFine : Nat) :
    Except String (VectorIndex × Bool) :=
  match idx.l0.coarseLocalFromGlobal sourceFine with
  | none => .ok (idx, false)
  | some (coarseId, _) =>
    let members := membersAt idx.clusters sourceFine
    let excess := members.length - maxClusterMembers
    if excess = 0 then .ok (idx, false)
    else
      match idx.l1.lookup coarseId with
      | none => .ok (idx, false)
      | some l1 =>
        match idx.leastLoaded coarseId l1.numFine sourceFine with
        | none => .ok (idx, false)
        | some targetLocal =>
          let target := idx.l0.globalFineId coarseId targetLocal
          let centroid := l1.centroids.getD targetLocal []
          -- there are more members than the maximum, so some are moved
          let scored := members.map fun m =>
            (q.scoreVector (memberAsF64 m idx.l0.dimensions) centroid
              idx.l0.distanceMetric, m)
          let sorted := scored.insertionSort fun a b =>
            (b.1.partialCmp a.1).getD .eq ≠ .gt
          let splitAt := min excess (sorted.length - 1)
          let moved := (sorted.take splitAt).map Prod.snd
          let keep := (sorted.drop splitAt).map Prod.snd
          let kept := idx.clusters.modify sourceFine fun c => { c with members := keep }
          .ok ({ idx with clusters := extendCluster idx.l0.segmentId target moved kept },
            true)

/-- Try an operation on several clusters. -/
def tryEach (f : VectorIndex → Nat → Except String (VectorIndex × Bool)) :
    List Nat → VectorIndex → Except String (VectorIndex × Bool)
  | [], idx => .ok (idx, false)
  | fineId :: rest, idx => do
    let (idx, p) ← f idx fineId
    let (idx, p') ← tryEach f rest idx
    .ok (idx, p || p')

/-- Rounds of splitting: in two, over the cell, by moving the excess. -/
def splitRounds : Nat → VectorIndex → Except String VectorIndex
  | 0, idx => .ok idx
  | n + 1, idx =>
    let oversized := ((HashMap.iter o idx.clusters).filter fun e =>
      e.2.members.length > maxClusterMembers).map Prod.fst
    if oversized.isEmpty then .ok idx
    else do
      let (idx, progress) ← tryEach (tryBinarySplitOversizedCluster q) oversized idx
      if progress then splitRounds n idx
      else do
        let (idx, progress) ← tryEach (tryMultishardOversizedCluster q) oversized idx
        if progress then splitRounds n idx
        else do
          let (idx, progress) ← tryEach (relocateExcessWithinCoarse q) oversized idx
          if progress then splitRounds n idx else .ok idx

/-- Rounds of splits in one pass. -/
def maxRounds : Nat := 128

/-- Split what is too large. -/
def splitOversizedClusters (idx : VectorIndex) : Except String VectorIndex :=
  splitRounds q o maxRounds idx

/-! ## Merging and moving -/

/-- Merge one tiny cluster into the cluster of the nearest centroid. -/
def mergeTinyCluster (idx : VectorIndex) (fineId : Nat) : VectorIndex :=
  match idx.l0.coarseLocalFromGlobal fineId with
  | none => idx
  | some (coarseId, _) =>
    let removed := { idx with clusters := idx.clusters.erase fineId }
    match membersAt idx.clusters fineId with
    | [] => removed
    | m :: ms =>
      -- without the cell's centroids the members are not put back
      match idx.l1.lookup coarseId with
      | none => removed
      | some l1 =>
        let sample := memberAsF64 m idx.l0.dimensions
        let targetLocal :=
          (topMCentroids q.scoreVector l1.centroids sample
            idx.l0.distanceMetric 1).head?.getD 0
        let target := idx.l0.globalFineId coarseId targetLocal
        if target = fineId then removed.setCluster fineId (m :: ms)
        else if (membersAt removed.clusters target).length + (m :: ms).length
            > maxClusterMembers then
          removed.setCluster fineId (m :: ms)
        else
          { removed with
            clusters := extendCluster idx.l0.segmentId target (m :: ms) removed.clusters }

/-- Merge all tiny clusters. -/
def mergeTinyClusters (idx : VectorIndex) : VectorIndex :=
  let tiny := ((HashMap.iter o idx.clusters).filter fun e =>
    0 < e.2.members.length ∧ e.2.members.length ≤ mergeClusterMaxMembers).map Prod.fst
  tiny.foldl (mergeTinyCluster q) idx

/-- Where the members of a cluster should go. -/
def driftedMembers (idx : VectorIndex) (e : Nat × ClusterSegment) : List (String × Nat) :=
  match idx.l0.coarseLocalFromGlobal e.1 with
  | none => []
  | some (coarseId, currentLocal) =>
    match idx.l1.lookup coarseId with
    | none => []
    | some l1 =>
      e.2.members.filterMap fun m =>
        let v := memberAsF64 m idx.l0.dimensions
        let bestLocal :=
          (topMCentroids q.scoreVector l1.centroids v idx.l0.distanceMetric 1).head?.getD
            currentLocal
        let dest := idx.l0.globalFineId coarseId bestLocal
        if bestLocal ≠ currentLocal ∧
            (membersAt idx.clusters dest).length < maxClusterMembers then
          some (m.docId, dest)
        else none

/-- Move the first member with an id to another cluster. -/
def moveMember (idx : VectorIndex) (move : String × Nat) : VectorIndex :=
  let (docId, dest) := move
  match (HashMap.iter o idx.clusters).find? fun e => e.2.members.any fun m => m.docId = docId with
  | none => idx
  | some (fineId, cluster) =>
    match cluster.members.find? fun m => m.docId = docId with
    | none => idx
    | some m =>
      let rest := { cluster with members := cluster.members.eraseP fun m => m.docId = docId }
      { idx with
        clusters := extendCluster idx.l0.segmentId dest [m] (idx.clusters.insert fineId rest) }

/-- Move members to a nearer centroid. -/
def reassignDriftedMembers (idx : VectorIndex) : VectorIndex :=
  let moves := (HashMap.iter o idx.clusters).flatMap (driftedMembers q idx)
  moves.foldl (moveMember o) idx

/-- Move the fine centroids of a cell to the means of their clusters. -/
def refreshL1 (idx : VectorIndex) (coarseId : Nat) (l1 : CentroidIndexL1) : CentroidIndexL1 :=
  (List.range l1.numFine).foldl
    (fun l i =>
      let members := membersAt idx.clusters (idx.l0.globalFineId coarseId i)
      if members.isEmpty then l
      else
        let pairs := membersAsPairs members idx.l0.dimensions
        match q.kmeansCentroids pairs 1 idx.l0.dimensions idx.l0.distanceMetric with
        | [] => l
        | c :: _ => { l with centroids := l.centroids.set i c })
    l1

/-- Move all fine centroids. -/
def refreshFineCentroids (idx : VectorIndex) : VectorIndex :=
  { idx with
    l1 := HashMap.filterMap (fun coarseId l1 => some (refreshL1 q idx coarseId l1)) idx.l1 }

/-- `pruneEmpty` on an index. -/
def pruneEmptyClusters (idx : VectorIndex) : VectorIndex :=
  { idx with clusters := pruneEmpty idx.clusters }

/-- Split, merge and move, then refresh the centroids: maintenance up to its last splits. -/
def maintainToLastSplits (idx : VectorIndex) : Except String VectorIndex :=
  if idx.l0.numFineTotal = 0 ∨ idx.l0.centroids.isEmpty then .ok idx
  else do
    let counted :=
      { idx with
        l0 := { idx.l0 with maintenancePasses := min (idx.l0.maintenancePasses + 1) (2 ^ 32 - 1) } }
    let split ← splitOversizedClusters q o counted.pruneEmptyClusters
    let moved := reassignDriftedMembers q o (mergeTinyClusters q o split)
    .ok (pruneEmptyClusters (refreshFineCentroids q moved))

/-- The maintenance after a delta. -/
def runIncrementalMaintenance (idx : VectorIndex) : Except String VectorIndex :=
  if idx.l0.numFineTotal = 0 ∨ idx.l0.centroids.isEmpty then .ok idx
  else do splitOversizedClusters q o (← maintainToLastSplits q o idx)

/-! ## Deltas -/

/-- Replace a document. -/
def upsertDoc (idx : VectorIndex) (doc : Document) : Except String VectorIndex :=
  let removed := idx.removeDoc doc.id
  match extractVector doc.attributes idx.l0.vectorField with
  | .error _ => .ok removed
  | .ok v =>
    if v.length ≠ idx.l0.dimensions then .ok removed
    else removed.assignDocToNearest q doc.id v

/-- Merge deletes and upserts, then run maintenance. -/
def applyDelta (idx : VectorIndex) (upserts : List Document) (deletes : List String) :
    Except String VectorIndex :=
  if idx.l0.dimensions = 0 ∨ idx.l0.centroids.isEmpty then .ok idx
  else do
    let upserted ← upserts.foldlM (upsertDoc q) (deletes.foldl removeDoc idx)
    upserted.runIncrementalMaintenance q o

end Quantized

end VectorIndex

end OpenPuffer
