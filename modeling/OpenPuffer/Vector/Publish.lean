import OpenPuffer.Vector.Index

/-!
# Publishing and loading a vector index

The objects of a vector field have fixed keys, so every publication overwrites those of the one
before, the coarse table last.  Nothing is deleted.  A load reads the coarse table and then as
many cells and clusters as it says.  A cluster that has become empty is not written, and its
last version is still there for the next load.  `reloads_as_itself_iff` says which publications
reload as themselves.

Encoding and decoding are taken to round-trip.
-/

namespace OpenPuffer

open List HashMap VectorIndex

/-! ## Objects -/

structure VectorObjects where
  l0 : Option CentroidIndexL0 := none
  l1 : HashMap Nat CentroidIndexL1 := ∅
  clusters : HashMap Nat ClusterSegment := ∅
  routing : Option CentroidRouting := none
  l2 : HashMap (Nat × Nat) CentroidIndexL2 := ∅

/-- One PUT.  The key of a cell's centroids is the id that is stored with them. -/
inductive VectorPut where
  | l1 (segment : CentroidIndexL1)
  | cluster (fineId : Nat) (segment : ClusterSegment)
  | routing (segment : CentroidRouting)
  | l2 (id : Nat × Nat) (segment : CentroidIndexL2)
  | l0 (segment : CentroidIndexL0)

namespace VectorObjects

def put (objs : VectorObjects) : VectorPut → VectorObjects
  | .l1 segment => { objs with l1 := objs.l1.insert segment.coarseId segment }
  | .cluster fineId segment => { objs with clusters := objs.clusters.insert fineId segment }
  | .routing segment => { objs with routing := some segment }
  | .l2 id segment => { objs with l2 := objs.l2.insert id segment }
  | .l0 segment => { objs with l0 := some segment }

def putAll (objs : VectorObjects) (puts : List VectorPut) : VectorObjects := puts.foldl put objs

end VectorObjects

/-- The orders in which a publication happens to see the maps of an index. -/
structure PutOrder where
  l1 : IterOrder Nat := .sorted Nat
  clusters : IterOrder Nat := .sorted Nat
  l2 : IterOrder (Nat × Nat) := IterOrder.sorted (Lex (Nat × Nat))

/-- The objects that the coarse table refers to, group by group. -/
def VectorIndex.dependentPuts (o : PutOrder) (idx : VectorIndex) : List VectorPut :=
  (HashMap.iter o.l1 idx.l1).map (fun e => .l1 e.2) ++
    ((HashMap.iter o.clusters idx.clusters).map (fun e => .cluster e.1 e.2) ++
      (idx.routing.toList.map .routing ++
        (HashMap.iter o.l2 idx.l2).map fun e => .l2 e.1 e.2))

/-- The PUTs of a publication, the coarse table last. -/
def VectorIndex.writeVectorIndex (o : PutOrder) (idx : VectorIndex) : List VectorPut :=
  idx.dependentPuts o ++ [.l0 idx.l0]

/-! ## Probe widths of a loaded table -/

/-- `C + C × F + 4`. -/
def clusterGetUpperBoundForProbes (coarse fine : Nat) : Nat :=
  max coarse 1 + max coarse 1 * max fine 1 + 4

/-- `as u32`. -/
def asU32 (n : Nat) : Nat := n % 2 ^ 32

/-- The fine width that leaves room for `c` coarse cells. -/
def fineRoom (maxClusters c : Nat) : Nat :=
  if c > 0 then asU32 (max ((maxClusters - 4 - c) / c) 1) else 1

/-- Lower the coarse width until the bound is met. -/
def lowerProbes (maxClusters : Nat) : (c f : Nat) → Nat × Nat
  | 0, f => (1, max f 1)
  | c + 1, f =>
    if c + 1 > 1 ∧ clusterGetUpperBoundForProbes (c + 1) f > maxClusters then
      lowerProbes maxClusters c (fineRoom maxClusters c)
    else (c + 1, max f 1)

def clampProbeWidthsToClusterCap (coarse fine maxClusters : Nat) : Nat × Nat :=
  let c := max coarse 1
  let fOrig := max fine 1
  if clusterGetUpperBoundForProbes c fOrig ≤ maxClusters then (c, fOrig)
  else
    let c := min c (asU32 (max ((maxClusters - 4) / 2) 1))
    let f := max (min fOrig (fineRoom maxClusters c)) 1
    if clusterGetUpperBoundForProbes c f ≤ maxClusters then (c, f)
    else lowerProbes maxClusters c 1

namespace CentroidIndexL0

/-- A v3 namespace takes the probe widths of the process, if it has any, and not
those of the build. -/
def alignWithNamespaceMeta (l0 : CentroidIndexL0) (m : NamespaceMeta)
    (build : Option AnnBuildConfig) : CentroidIndexL0 :=
  if m.preferredAnnVersion < annVersionV3 then l0
  else
    let probes := build.getD {}
    { l0 with
      annVersion := max l0.annVersion annVersionV3
      probeCoarse :=
        if build.isSome || l0.probeCoarse = 0 then probes.probeCoarse else l0.probeCoarse
      probeFine := if build.isSome || l0.probeFine = 0 then probes.probeFine else l0.probeFine }

def clampProbePlanForQuery (l0 : CentroidIndexL0) (maxClusters : Nat) : CentroidIndexL0 :=
  if l0.numFineTotal ≤ 32 then l0
  else
    let origCoarse := max l0.probeCoarse 1
    let origFine := max l0.probeFine 1
    let (coarse, fine) := clampProbeWidthsToClusterCap origCoarse origFine maxClusters
    if coarse ≠ origCoarse ∨ fine ≠ origFine then
      { l0 with probeCoarse := coarse, probeFine := fine }
    else l0

end CentroidIndexL0

/-! ## Loading -/

/-- The settings of a process that matter to a load. -/
structure LoadEnv where
  annBuild : AnnBuildConfig := {}
  /-- `OPENPUFFER_ANN_MAX_PROBE_CLUSTERS`. -/
  maxProbeClusters : Nat := 64

section Load

variable (env : LoadEnv) (m : NamespaceMeta) (field : String)

/-- The table of a field.  `legacy` are the objects without a field in their
keys. -/
def loadVectorL0ForField (objs legacy : VectorObjects) : Option CentroidIndexL0 := do
  let cfg ← (effectiveVectorFields m).find? fun f => f.name = field
  if cfg.segmentId = 0 ∨ m.indexCursor = 0 ∨ cfg.dimensions = 0 then none
  else
    let l0 ← objs.l0.or (if vectorIndexUsesLegacyPaths m field then legacy.l0 else none)
    some ((l0.alignWithNamespaceMeta m (some env.annBuild)).clampProbePlanForQuery
      env.maxProbeClusters)

/-- The objects of the ids below a bound that are there. -/
def loadRange {β : Type} (n : Nat) (objects legacy : HashMap Nat β) (useLegacy : Bool) :
    HashMap Nat β :=
  (List.range n).foldl
    (fun out id =>
      match (objects.lookup id).or (if useLegacy then legacy.lookup id else none) with
      | none => out
      | some object => out.insert id object)
    ∅

/-- The whole index of a field. -/
def loadVectorIndexFullForField (objs legacy : VectorObjects) : Option VectorIndex := do
  let l0 ← loadVectorL0ForField env m field objs legacy
  if l0.numFineTotal = 0 then none
  else
    let useLegacy := vectorIndexUsesLegacyPaths m field
    some
      { l0
        l1 := loadRange l0.numCoarse objs.l1 legacy.l1 useLegacy
        clusters := loadRange l0.numFineTotal objs.clusters legacy.clusters useLegacy
        routing := none
        l2 := ∅ }

end Load

/-! ## What a publication stores -/

namespace VectorPut

def cluster? : VectorPut → Option (Nat × ClusterSegment)
  | .cluster fineId segment => some (fineId, segment)
  | _ => none

def l0? : VectorPut → Option CentroidIndexL0
  | .l0 segment => some segment
  | _ => none

/-- The centroids of a PUT, with their key. -/
def l1? : VectorPut → Option (Nat × CentroidIndexL1)
  | .l1 segment => some (segment.coarseId, segment)
  | _ => none

end VectorPut

namespace VectorObjects

theorem clusters_putAll (objs : VectorObjects) (puts : List VectorPut) :
    (objs.putAll puts).clusters = objs.clusters.insertAll (puts.filterMap VectorPut.cluster?) := by
  induction puts generalizing objs with
  | nil => rfl
  | cons p puts ih =>
    rw [putAll, foldl_cons, ← putAll, ih]
    cases p <;> rfl

theorem l1_putAll (objs : VectorObjects) (puts : List VectorPut) :
    (objs.putAll puts).l1 = objs.l1.insertAll (puts.filterMap VectorPut.l1?) := by
  induction puts generalizing objs with
  | nil => rfl
  | cons p puts ih =>
    rw [putAll, foldl_cons, ← putAll, ih]
    cases p <;> rfl

theorem l0_putAll (objs : VectorObjects) (puts : List VectorPut) :
    (objs.putAll puts).l0 = (puts.filterMap VectorPut.l0?).getLast?.or objs.l0 := by
  induction puts generalizing objs with
  | nil => rfl
  | cons p puts ih =>
    rw [putAll, foldl_cons, ← putAll, ih]
    cases p with
    | l0 segment =>
      show _ = ((segment :: puts.filterMap VectorPut.l0?).getLast?).or objs.l0
      rw [getLast?_cons]
      cases (puts.filterMap VectorPut.l0?).getLast? <;> rfl
    | _ => rfl

end VectorObjects

namespace VectorIndex

theorem cluster?_dependentPuts (o : PutOrder) (idx : VectorIndex) :
    (idx.dependentPuts o).filterMap VectorPut.cluster? = HashMap.iter o.clusters idx.clusters := by
  simp [dependentPuts, Function.comp_def, VectorPut.cluster?]

theorem l1?_dependentPuts (o : PutOrder) (idx : VectorIndex) :
    (idx.dependentPuts o).filterMap VectorPut.l1?
      = (HashMap.iter o.l1 idx.l1).map fun e => (e.2.coarseId, e.2) := by
  simp [dependentPuts, Function.comp_def, VectorPut.l1?]

theorem l0?_dependentPuts (o : PutOrder) (idx : VectorIndex) :
    (idx.dependentPuts o).filterMap VectorPut.l0? = [] := by
  simp [dependentPuts, VectorPut.l0?]

end VectorIndex

def VectorObjects.publish (objs : VectorObjects) (o : PutOrder) (idx : VectorIndex) :
    VectorObjects :=
  objs.putAll (idx.writeVectorIndex o)

theorem clusters_publish (objs : VectorObjects) (o : PutOrder) (idx : VectorIndex) :
    (objs.publish o idx).clusters = idx.clusters ∪ objs.clusters := by
  rw [VectorObjects.publish, VectorObjects.clusters_putAll, writeVectorIndex,
    filterMap_append, cluster?_dependentPuts]
  exact (congrArg _ (append_nil _)).trans (insertAll_iter _ _ _)

theorem l0_publish (objs : VectorObjects) (o : PutOrder) (idx : VectorIndex) :
    (objs.publish o idx).l0 = some idx.l0 := by
  rw [VectorObjects.publish, VectorObjects.l0_putAll, writeVectorIndex,
    filterMap_append, l0?_dependentPuts]
  rfl

/-- Centroids that carry the id of their cell are stored under it. -/
theorem l1_publish {idx : VectorIndex}
    (hids : ∀ c l1, idx.l1.lookup c = some l1 → l1.coarseId = c) (objs : VectorObjects)
    (o : PutOrder) : (objs.publish o idx).l1 = idx.l1 ∪ objs.l1 := by
  have hkeys : (iter o.l1 idx.l1).map (fun e => (e.2.coarseId, e.2))
      = iter o.l1 idx.l1 := by
    refine (map_congr_left fun e he => ?_).trans (map_id _)
    rw [hids e.1 e.2 (mem_iter.mp he)]
    rfl
  rw [VectorObjects.publish, VectorObjects.l1_putAll, writeVectorIndex,
    filterMap_append, l1?_dependentPuts, hkeys]
  exact (congrArg _ (append_nil _)).trans (insertAll_iter _ _ _)

/-! ## What a load finds -/

theorem lookup_loadRange {β : Type} (n : Nat) (objects legacy : HashMap Nat β) (useLegacy : Bool)
    (id : Nat) :
    (loadRange n objects legacy useLegacy).lookup id
      = if id < n then (objects.lookup id).or (if useLegacy then legacy.lookup id else none)
        else none := by
  induction n with
  | zero => rfl
  | succ n ih =>
    rw [loadRange, range_succ, foldl_append, ← loadRange, foldl_cons]
    by_cases hid : id = n
    · subst hid
      cases (objects.lookup id).or (if useLegacy then legacy.lookup id else none) with
      | none => simp [ih]
      | some c => simp
    · have hlt : id < n + 1 ↔ id < n := by omega
      cases (objects.lookup n).or (if useLegacy then legacy.lookup n else none) with
      | none => simp [ih, hlt]
      | some c => simp [ih, hid, hlt]

/-- The objects that a load reads: those of the field, then those under old
keys. -/
def VectorObjects.orLegacy (objs : VectorObjects) (m : NamespaceMeta) (field : String)
    (legacy : VectorObjects) : VectorObjects :=
  if vectorIndexUsesLegacyPaths m field then
    { objs with
      l0 := objs.l0.or legacy.l0
      l1 := objs.l1 ∪ legacy.l1
      clusters := objs.clusters ∪ legacy.clusters }
  else objs

theorem loadRange_union {β : Type} (n : Nat) (objects legacy : HashMap Nat β) :
    loadRange n objects legacy true = loadRange n (objects ∪ legacy) ∅ false := by
  apply ext_lookup
  simp [lookup_loadRange, lookup_union_or]

theorem loadRange_unused {β : Type} (n : Nat) (objects legacy : HashMap Nat β) :
    loadRange n objects legacy false = loadRange n objects ∅ false := by
  apply ext_lookup
  simp [lookup_loadRange]

/-- The coarse table as a process uses it. -/
def LoadEnv.table (env : LoadEnv) (m : NamespaceMeta) (l0 : CentroidIndexL0) : CentroidIndexL0 :=
  (l0.alignWithNamespaceMeta m (some env.annBuild)).clampProbePlanForQuery env.maxProbeClusters

/-- Only the layout version and the probe widths are adjusted. -/
theorem LoadEnv.table_eq (env : LoadEnv) (m : NamespaceMeta) (l0 : CentroidIndexL0) :
    ∃ version coarse fine, env.table m l0
      = { l0 with annVersion := version, probeCoarse := coarse, probeFine := fine } := by
  rw [LoadEnv.table]
  have halign : ∃ version coarse fine, l0.alignWithNamespaceMeta m (some env.annBuild)
      = { l0 with annVersion := version, probeCoarse := coarse, probeFine := fine } := by
    rw [CentroidIndexL0.alignWithNamespaceMeta]
    split
    · exact ⟨l0.annVersion, l0.probeCoarse, l0.probeFine, rfl⟩
    · exact ⟨_, _, _, rfl⟩
  obtain ⟨version, coarse, fine, halign⟩ := halign
  rw [halign, CentroidIndexL0.clampProbePlanForQuery]
  split
  · exact ⟨version, coarse, fine, rfl⟩
  · simp only
    split
    · exact ⟨version, _, _, rfl⟩
    · exact ⟨version, coarse, fine, rfl⟩

@[simp] theorem LoadEnv.numFineTotal_table (env : LoadEnv) (m : NamespaceMeta)
    (l0 : CentroidIndexL0) : (env.table m l0).numFineTotal = l0.numFineTotal := by
  obtain ⟨version, coarse, fine, h⟩ := env.table_eq m l0
  rw [h]

structure NamespaceMeta.ListsIndex (m : NamespaceMeta) (field : String) : Prop where
  cursor : m.indexCursor ≠ 0
  column : ∃ cfg, (effectiveVectorFields m).find? (fun f => f.name = field) = some cfg ∧
    cfg.segmentId ≠ 0 ∧ cfg.dimensions ≠ 0

/-- The index that a load puts together. -/
def VectorObjects.assemble (objs : VectorObjects) (env : LoadEnv) (m : NamespaceMeta)
    (l0 : CentroidIndexL0) : VectorIndex where
  l0 := env.table m l0
  l1 := loadRange (env.table m l0).numCoarse objs.l1 ∅ false
  clusters := loadRange (env.table m l0).numFineTotal objs.clusters ∅ false

variable {m : NamespaceMeta} {field : String}

theorem loadVectorL0_eq (h : m.ListsIndex field) (env : LoadEnv) (objs legacy : VectorObjects) :
    loadVectorL0ForField env m field objs legacy
      = (objs.orLegacy m field legacy).l0.map (env.table m) := by
  obtain ⟨cfg, hfind, hseg, hdims⟩ := h.column
  rw [loadVectorL0ForField, hfind, VectorObjects.orLegacy]
  simp only [bind, Option.bind, hseg, h.cursor, hdims]
  cases vectorIndexUsesLegacyPaths m field with
  | true =>
    simp only [if_true]
    cases objs.l0.or legacy.l0 <;> rfl
  | false =>
    simp only [Bool.false_eq_true, if_false]
    cases objs.l0 <;> rfl

theorem load_eq (h : m.ListsIndex field) (env : LoadEnv) (objs legacy : VectorObjects) :
    loadVectorIndexFullForField env m field objs legacy
      = (objs.orLegacy m field legacy).l0.bind fun l0 =>
        if l0.numFineTotal = 0 then none
        else some ((objs.orLegacy m field legacy).assemble env m l0) := by
  rw [loadVectorIndexFullForField, loadVectorL0_eq h]
  cases (objs.orLegacy m field legacy).l0 with
  | none => rfl
  | some l0 =>
    simp only [Option.map_some, bind, Option.bind, LoadEnv.numFineTotal_table,
      VectorObjects.assemble, VectorObjects.orLegacy]
    cases vectorIndexUsesLegacyPaths m field with
    | true => simp only [loadRange_union, if_true]
    | false =>
      simp only [loadRange_unused _ _ legacy.l1, loadRange_unused _ _ legacy.clusters,
        Bool.false_eq_true, if_false]

theorem listsIndex_of_load {env : LoadEnv} {objs legacy : VectorObjects} {idx : VectorIndex}
    (h : loadVectorIndexFullForField env m field objs legacy = some idx) : m.ListsIndex field := by
  obtain ⟨l0, hl0, -⟩ := Option.bind_eq_some_iff.mp h
  obtain ⟨cfg, hfind, hl0⟩ := Option.bind_eq_some_iff.mp hl0
  split at hl0
  · cases hl0
  · rename_i hnot
    simp only [not_or] at hnot
    exact ⟨hnot.2.1, cfg, hfind, hnot.1, hnot.2.2⟩

@[simp] theorem numFineTotal_assemble (objs : VectorObjects) (env : LoadEnv) (m : NamespaceMeta)
    (l0 : CentroidIndexL0) :
    (objs.assemble env m l0).l0.numFineTotal = l0.numFineTotal :=
  env.numFineTotal_table m l0

theorem membersAt_union_of_some {s t : HashMap Nat ClusterSegment} {fineId : Nat}
    {c : ClusterSegment} (h : s.lookup fineId = some c) :
    membersAt (s ∪ t) fineId = membersAt s fineId := by
  rw [membersAt, lookup_union_or, membersAt, h, Option.some_or]

theorem membersAt_union_of_none {s t : HashMap Nat ClusterSegment} {fineId : Nat}
    (h : s.lookup fineId = none) : membersAt (s ∪ t) fineId = membersAt t fineId := by
  rw [membersAt, lookup_union_or, h, membersAt, Option.none_or]

/-- The members of a loaded cluster. -/
theorem membersAt_assemble (objs : VectorObjects) (env : LoadEnv) (m : NamespaceMeta)
    (l0 : CentroidIndexL0) (fineId : Nat) :
    membersAt (objs.assemble env m l0).clusters fineId
      = if fineId < l0.numFineTotal then membersAt objs.clusters fineId else [] := by
  rw [membersAt, VectorObjects.assemble, lookup_loadRange, LoadEnv.numFineTotal_table]
  simp only [Bool.false_eq_true, if_false, Option.or_none]
  split <;> rfl

/-! ## Histories of publications -/

/-- The latest cluster of an id among some indexes. -/
def lastCluster (fineId : Nat) : List VectorIndex → Option ClusterSegment
  | [] => none
  | v :: vs => (lastCluster fineId vs).or (v.clusters.lookup fineId)

/-- Publish one index after the other. -/
def VectorObjects.publishAll (objs : VectorObjects) (vs : List (PutOrder × VectorIndex)) :
    VectorObjects :=
  vs.foldl (fun objs v => objs.publish v.1 v.2) objs

theorem lookup_publishAll (vs : List (PutOrder × VectorIndex)) (objs : VectorObjects)
    (fineId : Nat) :
    (objs.publishAll vs).clusters.lookup fineId
      = (lastCluster fineId (vs.map Prod.snd)).or (objs.clusters.lookup fineId) := by
  induction vs generalizing objs with
  | nil => rfl
  | cons v vs ih =>
    rw [VectorObjects.publishAll, foldl_cons, ← VectorObjects.publishAll, ih,
      clusters_publish, lookup_union_or, map_cons, lastCluster, Option.or_assoc]

/-- A publication reloads as itself exactly if every id below its number of
clusters that it has no cluster for has no members in the latest version before
it. -/
theorem reloads_as_itself_iff {m : NamespaceMeta} {field : String} (hlists : m.ListsIndex field)
    (hkeys : vectorIndexUsesLegacyPaths m field = false)
    (env : LoadEnv) (legacy : VectorObjects) (earlier : List (PutOrder × VectorIndex))
    (o : PutOrder) (v : VectorIndex) :
    (∀ fineId < v.l0.numFineTotal, ∃ loaded,
        loadVectorIndexFullForField env m field
          (VectorObjects.publishAll {} (earlier ++ [(o, v)])) legacy = some loaded ∧
        loaded.l0.numFineTotal = v.l0.numFineTotal ∧
        membersAt loaded.clusters fineId = membersAt v.clusters fineId) ↔
      ∀ fineId < v.l0.numFineTotal, v.clusters.lookup fineId = none →
        ∀ c, lastCluster fineId (earlier.map Prod.snd) = some c → c.members = [] := by
  have hpub : (VectorObjects.publishAll {} (earlier ++ [(o, v)])).orLegacy m field legacy
      = (VectorObjects.publishAll {} earlier).publish o v := by
    simp [VectorObjects.publishAll, VectorObjects.orLegacy, hkeys]
  rw [load_eq hlists, hpub, l0_publish]
  refine forall_congr' fun fineId => forall_congr' fun hlt => ?_
  have hsome : v.l0.numFineTotal ≠ 0 := Nat.ne_of_gt (Nat.zero_lt_of_lt hlt)
  simp only [Option.bind_some, if_neg hsome, Option.some.injEq, exists_eq_left', membersAt_assemble,
    if_pos hlt, clusters_publish]
  cases hown : v.clusters.lookup fineId with
  | some c => simp [membersAt_union_of_some hown]
  | none =>
    rw [membersAt_union_of_none hown, membersAt, lookup_publishAll, membersAt, hown]
    cases lastCluster fineId (earlier.map Prod.snd) with
    | none => simp
    | some c => simp

def indexedMeta : NamespaceMeta where
  indexCursor := 1
  walCommitSeq := 1
  vectorFields := [⟨"emb", 1, .f32, 1, [1]⟩]

theorem listsIndex_indexedMeta : indexedMeta.ListsIndex "emb" where
  cursor := by decide
  column := ⟨_, rfl, by decide, by decide⟩

/-- Publish the index of some documents, reload it and apply a delta. -/
def buildThenDelta (docs upserts : List Document) (deletes : List String) :
    Option (VectorIndex × VectorIndex) := do
  let v ← VectorIndex.build quantizer 1 "emb" .euclideanSquared docs .null {}
  let loaded ← loadVectorIndexFullForField {} indexedMeta "emb" (VectorObjects.publish {} {} v) {}
  let v' ← (loaded.applyDelta quantizer (.sorted Nat) upserts deletes).toOption
  some (v, v')

/-- An update of the only document reloads as itself. -/
theorem updated_index_reloads :
    ∃ v v', buildThenDelta [pointDoc "a" 1] [pointDoc "a" 2] [] = some (v, v') ∧
      0 < v'.l0.numFineTotal ∧
      ∀ fineId < v'.l0.numFineTotal, ∃ loaded,
        loadVectorIndexFullForField {} indexedMeta "emb"
          (VectorObjects.publishAll {} [({}, v), ({}, v')]) {} = some loaded ∧
        loaded.l0.numFineTotal = v'.l0.numFineTotal ∧
        membersAt loaded.clusters fineId = membersAt v'.clusters fineId := by
  have hrun : (buildThenDelta [pointDoc "a" 1] [pointDoc "a" 2] []).map
      (fun h => (h.2.l0.numFineTotal, (h.2.clusters.lookup 0).isSome)) = some (1, true) := by
    decide +kernel
  obtain ⟨⟨v, v'⟩, hv, hend⟩ := Option.map_eq_some_iff.mp hrun
  obtain ⟨hfine, hcluster⟩ := Prod.mk.inj hend
  simp only at hfine hcluster
  refine ⟨v, v', hv, by omega, ?_⟩
  refine (reloads_as_itself_iff listsIndex_indexedMeta rfl {} {} [({}, v)] {} v').mpr ?_
  intro fineId hlt hnone
  have hzero : fineId = 0 := by omega
  rw [hzero] at hnone
  rw [hnone] at hcluster
  cases hcluster

/-- A deleted document is in the reloaded index. -/
theorem emptied_cluster_reappears :
    ∃ v v' loaded, buildThenDelta [pointDoc "a" 1] [] ["a"] = some (v, v') ∧
      loadVectorIndexFullForField {} indexedMeta "emb"
        (VectorObjects.publishAll {} [({}, v), ({}, v')]) {} = some loaded ∧
      0 < v'.l0.numFineTotal ∧ membersAt v'.clusters 0 = [] ∧
      (membersAt loaded.clusters 0).map ClusterMember.docId = ["a"] := by
  have hrun : ((buildThenDelta [pointDoc "a" 1] [] ["a"]).bind fun h =>
      (loadVectorIndexFullForField {} indexedMeta "emb"
        (VectorObjects.publishAll {} [({}, h.1), ({}, h.2)]) {}).map fun loaded =>
          (h.2.l0.numFineTotal, membersAt h.2.clusters 0,
            (membersAt loaded.clusters 0).map ClusterMember.docId)) = some (1, [], ["a"]) := by
    decide +kernel
  obtain ⟨⟨v, v'⟩, hv, hload⟩ := Option.bind_eq_some_iff.mp hrun
  obtain ⟨loaded, hloaded, hend⟩ := Option.map_eq_some_iff.mp hload
  simp only [Prod.mk.injEq] at hend
  exact ⟨v, v', loaded, hv, hloaded, by omega, hend.2.1, hend.2.2⟩

end OpenPuffer
