import OpenPuffer.Store
import OpenPuffer.Vector.Exhaustive
import OpenPuffer.Vector.Publish

/-!
# Loading what one query probes

From the coarse table a query knows the cells that it will descend into, so it fetches the
centroids of these cells and their routing parts, runs the descent on what it has, and fetches
the clusters that the descent names.  The load without a cache fails if an object of its first
rounds is missing (`fetchColdVectorProbed`), the one with a cache skips it
(`loadVectorIndexProbedForQuery`).

The descent of the query that an index was loaded for is the descent over everything that is
stored (`probeFineCentroids_probed`), so the query finds the documents that it finds in a full
load.  Another query reaches the cells that the two have in common, and the clusters that the
first one reaches too (`LoadCovers`).
-/

namespace OpenPuffer

open List VectorIndex

/-! ## Keys -/

def vectorIndexPrefix (ns field : String) : String :=
  if field.isEmpty then s!"{rootDir}{ns}/index/" else s!"{rootDir}{ns}/index/{field}/"

def eightDigits (n : Nat) : String := String.ofList ((Nat.toDigits 10 n).leftpad 8 '0')

/-- The field in the keys of the tables, the centroids and the clusters. -/
def keyField (m : NamespaceMeta) (field : String) : String :=
  if vectorIndexUsesLegacyPaths m field then "" else field

def CentroidIndexL0.key (ns field : String) : String :=
  vectorIndexPrefix ns field ++ "centroids-l0.bin"

def CentroidIndexL1.key (ns field : String) (coarseId : Nat) : String :=
  vectorIndexPrefix ns field ++ s!"centroids-l1-{eightDigits coarseId}.bin"

def CentroidIndexL2.key (ns field : String) (id : Nat × Nat) : String :=
  vectorIndexPrefix ns field ++ s!"centroids-l2-{eightDigits id.1}-{eightDigits id.2}.bin"

/-! ## Rounds of requests -/

section Rounds

variable {κ β : Type} [DecidableEq κ]

/-- The objects of a round that are there. -/
def fetchRoundOptional (ids : List κ) (objects : HashMap κ β) : HashMap κ β :=
  ids.foldl
    (fun out id =>
      match objects.lookup id with
      | none => out
      | some object => out.insert id object)
    ∅

/-- All objects of a round.  The requests run at the same time, so of several missing
keys any may be the one that is reported; here it is the first. -/
def fetchRound (key : κ → String) (ids : List κ) (objects : HashMap κ β) :
    Except String (HashMap κ β) :=
  match ids.find? fun id => (objects.lookup id).isNone with
  | some id => .error s!"object not found: {key id}"
  | none => .ok (fetchRoundOptional ids objects)

theorem lookup_foldl_fetch (ids : List κ) (objects out : HashMap κ β) (k : κ) :
    (ids.foldl
      (fun out id =>
        match objects.lookup id with
        | none => out
        | some object => out.insert id object) out).lookup k
      = if k ∈ ids then (objects.lookup k).or (out.lookup k) else out.lookup k := by
  induction ids generalizing out with
  | nil => rfl
  | cons id ids ih =>
    rw [foldl_cons, ih]
    by_cases hk : k = id
    · subst hk
      cases objects.lookup k <;> simp
    · cases hid : objects.lookup id <;> simp [hk]

theorem lookup_fetchRoundOptional (ids : List κ) (objects : HashMap κ β) (k : κ) :
    (fetchRoundOptional ids objects).lookup k = if k ∈ ids then objects.lookup k else none := by
  rw [fetchRoundOptional, lookup_foldl_fetch]
  simp

theorem eq_of_fetchRound {key : κ → String} {ids : List κ} {objects got : HashMap κ β}
    (h : fetchRound key ids objects = .ok got) : got = fetchRoundOptional ids objects := by
  rw [fetchRound] at h
  split at h
  · cases h
  · exact (Except.ok.inj h).symm

end Rounds

/-! ## Stored indexes -/

/-- The objects of a vector field.  A routing part is stored under its own ids. -/
structure StoredVectorIndex extends VectorObjects where
  l2_ids : ∀ id seg, l2.lookup id = some seg → (seg.coarseId, seg.l2Id) = id

theorem l2_ids_empty (id : Nat × Nat) (seg : CentroidIndexL2)
    (h : Finmap.lookup id (∅ : HashMap (Nat × Nat) CentroidIndexL2) = some seg) :
    (seg.coarseId, seg.l2Id) = id := by
  cases h

instance : Inhabited StoredVectorIndex := ⟨{ l2_ids := l2_ids_empty }⟩

/-- Everything that is stored, under a table. -/
def StoredVectorIndex.whole (stored : StoredVectorIndex) (l0 : CentroidIndexL0) : VectorIndex where
  l0
  l1 := loadRange l0.numCoarse stored.l1 ∅ false
  clusters := stored.clusters
  routing := if l0.hasRouting then stored.routing else none
  l2 := stored.l2

/-! ## The load of one query -/

section Load

variable (s : Scorer) (l0 : CentroidIndexL0)

def CentroidIndexL0.nearestCoarse (query : Vec) (m : Nat) : List Nat :=
  topMCentroids s.scoreVector l0.centroids query l0.distanceMetric m

/-- The cells whose centroids the query needs. -/
def l1KeysForQueryProbe (query : Vec) : List Nat :=
  l0.nearestCoarse s query l0.probeCoarseCount

/-- The routing parts that the query needs: all those of its cells. -/
def l2KeysForQueryProbe (routing : CentroidRouting) (query : Vec) : List (Nat × Nat) :=
  (l0.nearestCoarse s query l0.probeCoarseCount).flatMap fun coarseId =>
    let l2Count := routing.l2CountForCoarse coarseId
    if l2Count ≤ 1 then [] else (List.range l2Count).map fun l2Id => (coarseId, l2Id)

def decodeL1Probed (fetched : VectorObjects) : HashMap Nat CentroidIndexL1 :=
  loadRange l0.numCoarse fetched.l1 ∅ false

def decodeRoutingProbed (fetched : VectorObjects) : Option CentroidRouting :=
  if l0.hasRouting then fetched.routing else none

def decodeL2Probed (fetched : VectorObjects) (keys : List (Nat × Nat)) :
    HashMap (Nat × Nat) CentroidIndexL2 :=
  keys.foldl
    (fun l2 key =>
      match fetched.l2.lookup key with
      | none => l2
      | some seg => l2.insert (seg.coarseId, seg.l2Id) seg)
    ∅

def decodeClustersProbed (fetched : VectorObjects) (fineIds : List Nat) :
    HashMap Nat ClusterSegment :=
  fetchRoundOptional fineIds fetched.clusters

/-- The parts to fetch once the routing is there. -/
def l2KeysAfterRouting (fetched : VectorObjects) (query : Vec) : List (Nat × Nat) :=
  ((decodeRoutingProbed l0 fetched).map fun r => l2KeysForQueryProbe s l0 r query).getD []

/-- The clusters to fetch once the centroids are there. -/
def clusterKeysForQueryAfterL1 (fetched : VectorObjects) (query : Vec) : List Nat :=
  let l2 := decodeL2Probed fetched (l2KeysAfterRouting s l0 fetched query)
  probeFineCentroidsParts s l0 (decodeL1Probed l0 fetched) (decodeRoutingProbed l0 fetched) l2
    query

/-- The index of what was fetched, and the number of clusters that the query
probes. -/
def assembleVectorIndexProbed (fetched : VectorObjects) (query : Vec) : VectorIndex × Nat :=
  let l1 := decodeL1Probed l0 fetched
  let routing := decodeRoutingProbed l0 fetched
  let l2 := decodeL2Probed fetched (l2KeysAfterRouting s l0 fetched query)
  let fineIds := probeFineCentroidsParts s l0 l1 routing l2 query
  ({ l0, l1, clusters := decodeClustersProbed fetched fineIds, routing, l2 },
    min fineIds.length (2 ^ 32 - 1))

/-- The load through the cache: what is missing is skipped. -/
def loadVectorIndexProbedForQuery (stored : StoredVectorIndex) (query : Vec) :
    VectorIndex × Nat :=
  let fetched : VectorObjects :=
    { l1 := fetchRoundOptional (l1KeysForQueryProbe s l0 query) stored.l1
      routing := if l0.hasRouting then stored.routing else none }
  let fetched :=
    { fetched with l2 := fetchRoundOptional (l2KeysAfterRouting s l0 fetched query) stored.l2 }
  let fetched :=
    { fetched with
      clusters := fetchRoundOptional (clusterKeysForQueryAfterL1 s l0 fetched query)
        stored.clusters }
  assembleVectorIndexProbed s l0 fetched query

/-- The load without a cache: only the routing and the clusters may be missing. -/
def fetchColdVectorProbed (env : LoadEnv) (ns : String) (m : NamespaceMeta) (field : String)
    (stored : StoredVectorIndex) (query : Vec) : Except String (VectorIndex × Nat) := do
  let l0 := l0.clampProbePlanForQuery env.maxProbeClusters
  let l1 ← fetchRound (CentroidIndexL1.key ns (keyField m field)) (l1KeysForQueryProbe s l0 query)
    stored.l1
  let fetched : VectorObjects := { l1, routing := if l0.hasRouting then stored.routing else none }
  let l2 ← fetchRound (CentroidIndexL2.key ns field) (l2KeysAfterRouting s l0 fetched query)
    stored.l2
  let fetched := { fetched with l2 }
  let fetched :=
    { fetched with
      clusters := fetchRoundOptional (clusterKeysForQueryAfterL1 s l0 fetched query)
        stored.clusters }
  .ok (assembleVectorIndexProbed s l0 fetched query)

end Load

/-- Without a missing object the two loads agree. -/
theorem fetchColdVectorProbed_eq {s : Scorer} {l0 : CentroidIndexL0} {env : LoadEnv} {ns : String}
    {m : NamespaceMeta} {field : String} {stored : StoredVectorIndex} {query : Vec}
    {got : VectorIndex × Nat}
    (h : fetchColdVectorProbed s l0 env ns m field stored query = .ok got) :
    got = loadVectorIndexProbedForQuery s (l0.clampProbePlanForQuery env.maxProbeClusters) stored
      query := by
  obtain ⟨l1, hl1, h⟩ := bind_eq_ok.mp h
  obtain ⟨l2, hl2, h⟩ := bind_eq_ok.mp h
  rw [eq_of_fetchRound hl1] at hl2 h
  rw [eq_of_fetchRound hl2] at h
  exact (Except.ok.inj h).symm

/-! ## What was loaded -/

section Probed

variable (s : Scorer) (l0 : CentroidIndexL0) (stored : StoredVectorIndex) (query : Vec)

/-- The index that is loaded for a query. -/
def probedIndex : VectorIndex := (loadVectorIndexProbedForQuery s l0 stored query).1

/-- The routing of a table that says it has one. -/
def storedRouting : Option CentroidRouting := if l0.hasRouting then stored.routing else none

/-- The routing parts of the cells of a query. -/
def neededL2 : List (Nat × Nat) :=
  ((storedRouting l0 stored).map fun r => l2KeysForQueryProbe s l0 r query).getD []

theorem probedIndex_routing :
    (probedIndex s l0 stored query).routing = storedRouting l0 stored := by
  show (if l0.hasRouting then (if l0.hasRouting then stored.routing else none) else none) = _
  rw [storedRouting]
  split <;> rfl

theorem lookup_probedIndex_l1 (coarseId : Nat) :
    (probedIndex s l0 stored query).l1.lookup coarseId
      = if coarseId ∈ l1KeysForQueryProbe s l0 query then
          (stored.whole l0).l1.lookup coarseId
        else none := by
  show (loadRange l0.numCoarse
    (fetchRoundOptional (l1KeysForQueryProbe s l0 query) stored.l1) ∅ false).lookup coarseId = _
  rw [StoredVectorIndex.whole, lookup_loadRange, lookup_loadRange, lookup_fetchRoundOptional]
  split <;> split <;> rfl

/-- Parts under their own ids are decoded under their keys. -/
theorem decodeL2Probed_eq {fetched : VectorObjects}
    (hids : ∀ id seg, fetched.l2.lookup id = some seg → (seg.coarseId, seg.l2Id) = id)
    (keys : List (Nat × Nat)) :
    decodeL2Probed fetched keys = fetchRoundOptional keys fetched.l2 := by
  rw [decodeL2Probed]
  congr 1
  funext l2 key
  cases hkey : fetched.l2.lookup key with
  | none => rfl
  | some seg => exact congrArg (fun id => l2.insert id seg) (hids key seg hkey)

theorem lookup_probedIndex_l2 (id : Nat × Nat) :
    (probedIndex s l0 stored query).l2.lookup id
      = if id ∈ neededL2 s l0 stored query then stored.l2.lookup id else none := by
  have hrouting : (if l0.hasRouting then storedRouting l0 stored else none)
      = storedRouting l0 stored := probedIndex_routing s l0 stored query
  show (decodeL2Probed { l2 := fetchRoundOptional (((if l0.hasRouting then storedRouting l0 stored
    else none).map fun r => l2KeysForQueryProbe s l0 r query).getD []) stored.l2 }
    (((if l0.hasRouting then storedRouting l0 stored else none).map
      fun r => l2KeysForQueryProbe s l0 r query).getD [])).lookup id = _
  rw [hrouting, ← neededL2, decodeL2Probed_eq]
  · rw [lookup_fetchRoundOptional, lookup_fetchRoundOptional]
    split <;> rfl
  · intro id seg hseg
    rw [lookup_fetchRoundOptional] at hseg
    split at hseg
    · exact stored.l2_ids id seg hseg
    · cases hseg

theorem lookup_probedIndex_clusters (fineId : Nat) :
    (probedIndex s l0 stored query).clusters.lookup fineId
      = if fineId ∈ (probedIndex s l0 stored query).probeFineCentroids s query then
          stored.clusters.lookup fineId
        else none := by
  show (fetchRoundOptional ((probedIndex s l0 stored query).probeFineCentroids s query)
    (fetchRoundOptional ((probedIndex s l0 stored query).probeFineCentroids s query)
      stored.clusters)).lookup fineId = _
  rw [lookup_fetchRoundOptional, lookup_fetchRoundOptional]
  split <;> rfl

end Probed

/-! ## The descent over a part of an index -/

theorem mem_rankL2 {s : Scorer} {l0 : CentroidIndexL0}
    {l2 : HashMap (Nat × Nat) CentroidIndexL2} {query : Vec} {coarseId l2Parts : Nat}
    {r : Nat × Fp} (h : r ∈ rankL2 s l0 l2 query coarseId l2Parts) :
    r.1 < l2Parts ∧ (coarseId, r.1) ∈ l2 := by
  rw [rankL2, sortRanked, mem_insertionSort] at h
  obtain ⟨l2Id, hrange, hbind⟩ := mem_filterMap.mp h
  obtain ⟨seg, hseg, hr⟩ := Option.bind_eq_some_iff.mp hbind
  split at hr
  · cases hr
  · cases hr
    exact ⟨mem_range.mp hrange, Finmap.mem_of_lookup_eq_some hseg⟩

/-- A cell whose parts have centroids is searched through its parts. -/
theorem probeCell_eq (s : Scorer) (l0 : CentroidIndexL0) (l1 : HashMap Nat CentroidIndexL1)
    (routing : Option CentroidRouting) (l2 : HashMap (Nat × Nat) CentroidIndexL2) (query : Vec)
    (coarseId : Nat) :
    probeCell s l0 l1 routing l2 query coarseId
      = (let l2Parts := (routing.map fun r => r.l2CountForCoarse coarseId).getD 0
        let ranked := rankL2 s l0 l2 query coarseId l2Parts
        if 1 < l2Parts ∧ ranked ≠ [] then
          (ranked.take (l0.probeL2Count l2Parts)).flatMap fun r =>
            ((l2.lookup (coarseId, r.1)).map (probeL2 s l0 query)).getD []
        else
          ((l1.lookup coarseId).map fun seg =>
            (topMCentroids s.scoreVector seg.centroids query l0.distanceMetric
              (l0.probeFineCount seg)).map (l0.globalFineId coarseId)).getD []) := by
  rw [probeCell]
  generalize (routing.map fun r => r.l2CountForCoarse coarseId).getD 0 = l2Parts
  have hkeys : rankL2 s l0 l2 query coarseId l2Parts ≠ [] → l2.keys ≠ ∅ := by
    intro hranked hempty
    obtain ⟨r, hr⟩ := exists_mem_of_ne_nil _ hranked
    have hmem := Finmap.mem_keys.mpr (mem_rankL2 hr).2
    rw [hempty] at hmem
    exact Finset.notMem_empty _ hmem
  have hcond : (1 < l2Parts ∧ l2.keys ≠ ∅ ∧ rankL2 s l0 l2 query coarseId l2Parts ≠ []) ↔
      1 < l2Parts ∧ rankL2 s l0 l2 query coarseId l2Parts ≠ [] :=
    and_congr_right fun _ => and_iff_right_of_imp hkeys
  simp only [hcond]
  cases l1.lookup coarseId <;> rfl

/-- The descent into a cell looks at the centroids and the routing parts of that cell
only. -/
theorem probeCell_congr (s : Scorer) (l0 : CentroidIndexL0) {l1 l1' : HashMap Nat CentroidIndexL1}
    (routing : Option CentroidRouting) {l2 l2' : HashMap (Nat × Nat) CentroidIndexL2} (query : Vec)
    {coarseId : Nat} (hl1 : l1.lookup coarseId = l1'.lookup coarseId)
    (hl2 : 1 < (routing.map fun r => r.l2CountForCoarse coarseId).getD 0 →
      ∀ l2Id < (routing.map fun r => r.l2CountForCoarse coarseId).getD 0,
        l2.lookup (coarseId, l2Id) = l2'.lookup (coarseId, l2Id)) :
    probeCell s l0 l1 routing l2 query coarseId
      = probeCell s l0 l1' routing l2' query coarseId := by
  rw [probeCell_eq, probeCell_eq, hl1]
  generalize (routing.map fun r => r.l2CountForCoarse coarseId).getD 0 = l2Parts at hl2 ⊢
  by_cases hparts : 1 < l2Parts
  · have hrank : rankL2 s l0 l2 query coarseId l2Parts
        = rankL2 s l0 l2' query coarseId l2Parts := by
      rw [rankL2]
      congr 1
      refine filterMap_congr fun l2Id hmem => ?_
      rw [hl2 hparts l2Id (mem_range.mp hmem)]
    simp only [hrank]
    congr 1
    refine flatMap_congr fun r hr => ?_
    rw [hl2 hparts r.1 (mem_rankL2 (mem_of_mem_take hr)).1]
  · simp [hparts]

section Same

variable (s : Scorer) (l0 : CentroidIndexL0) (stored : StoredVectorIndex) (query : Vec)

theorem mem_neededL2 {coarseId l2Id : Nat} (hcoarse : coarseId ∈ l1KeysForQueryProbe s l0 query)
    (hparts : 1 < ((storedRouting l0 stored).map fun r => r.l2CountForCoarse coarseId).getD 0)
    (hid : l2Id < ((storedRouting l0 stored).map fun r => r.l2CountForCoarse coarseId).getD 0) :
    (coarseId, l2Id) ∈ neededL2 s l0 stored query := by
  rw [neededL2]
  cases hrouting : storedRouting l0 stored with
  | none =>
    rw [hrouting] at hparts
    exact absurd hparts (by simp)
  | some r =>
    rw [hrouting] at hparts hid
    refine mem_flatMap.mpr ⟨coarseId, hcoarse, ?_⟩
    simp only [Option.map_some, Option.getD_some] at hparts hid
    rw [if_neg (by omega)]
    exact mem_map.mpr ⟨l2Id, mem_range.mpr hid, rfl⟩

theorem mem_cells_of_neededL2 {id : Nat × Nat} (h : id ∈ neededL2 s l0 stored query) :
    id.1 ∈ l1KeysForQueryProbe s l0 query := by
  rw [neededL2] at h
  cases hrouting : storedRouting l0 stored with
  | none =>
    rw [hrouting] at h
    cases h
  | some r =>
    rw [hrouting] at h
    obtain ⟨c, hc, hid⟩ := mem_flatMap.mp h
    dsimp only at hid
    split at hid
    · cases hid
    · obtain ⟨l2Id, -, rfl⟩ := mem_map.mp hid
      exact hc

/-- The fine ids to probe in a cell of the whole index. -/
def wholeCell (coarseId : Nat) : List Nat :=
  probeCell s l0 (stored.whole l0).l1 (storedRouting l0 stored) stored.l2 query coarseId

variable (last : Vec)

/-- An index that was loaded for one query has its cells for every other one. -/
theorem probeCell_probed (coarseId : Nat) :
    probeCell s l0 (probedIndex s l0 stored last).l1 (storedRouting l0 stored)
        (probedIndex s l0 stored last).l2 query coarseId
      = if coarseId ∈ l1KeysForQueryProbe s l0 last then wholeCell s l0 stored query coarseId
        else [] := by
  split
  · rename_i hcoarse
    apply probeCell_congr
    · rw [lookup_probedIndex_l1, if_pos hcoarse]
    · intro hparts l2Id hid
      rw [lookup_probedIndex_l2, if_pos (mem_neededL2 s l0 stored last hcoarse hparts hid)]
  · rename_i hother
    have hl1 : (probedIndex s l0 stored last).l1.lookup coarseId = none := by
      rw [lookup_probedIndex_l1, if_neg hother]
    have hranked (n : Nat) :
        rankL2 s l0 (probedIndex s l0 stored last).l2 query coarseId n = [] := by
      refine eq_nil_iff_forall_not_mem.mpr fun r hr => ?_
      obtain ⟨seg, hseg⟩ := Finmap.mem_iff.mp (mem_rankL2 hr).2
      rw [lookup_probedIndex_l2] at hseg
      split at hseg
      · rename_i hneeded
        exact hother (mem_cells_of_neededL2 s l0 stored last hneeded)
      · cases hseg
    rw [probeCell_eq, hl1]
    simp [hranked]

/-- The query that an index was loaded for probes what it would probe in the whole
index. -/
theorem probeFineCentroids_probed :
    (probedIndex s l0 stored query).probeFineCentroids s query
      = (stored.whole l0).probeFineCentroids s query := by
  have hcells : (l1KeysForQueryProbe s l0 query).flatMap
      (probeCell s l0 (probedIndex s l0 stored query).l1 (storedRouting l0 stored)
        (probedIndex s l0 stored query).l2 query)
      = (l1KeysForQueryProbe s l0 query).flatMap (wholeCell s l0 stored query) :=
    flatMap_congr fun c hc => by rw [probeCell_probed, if_pos hc]
  rw [probeFineCentroids, probedIndex_routing, probeFineCentroidsParts]
  exact congrArg
    (fun fineIds => if query.length ≠ l0.dimensions then []
      else (IterOrder.sorted Nat).toList fineIds.toFinset) hcells

theorem mem_probe_whole {f : Nat} :
    f ∈ (stored.whole l0).probeFineCentroids s query ↔ query.length = l0.dimensions ∧
      ∃ c ∈ l1KeysForQueryProbe s l0 query, f ∈ wholeCell s l0 stored query c :=
  mem_probe_iff s

/-- The other query probes the cells that the two have in common. -/
theorem mem_probe_probed {f : Nat} :
    f ∈ (probedIndex s l0 stored last).probeFineCentroids s query ↔
      query.length = l0.dimensions ∧ ∃ c ∈ l1KeysForQueryProbe s l0 query,
        c ∈ l1KeysForQueryProbe s l0 last ∧ f ∈ wholeCell s l0 stored query c := by
  have hcell (c : Nat) : f ∈ probeCell s l0 (probedIndex s l0 stored last).l1
      (storedRouting l0 stored) (probedIndex s l0 stored last).l2 query c ↔
      c ∈ l1KeysForQueryProbe s l0 last ∧ f ∈ wholeCell s l0 stored query c := by
    rw [probeCell_probed]
    split
    · rename_i hc
      exact (and_iff_right hc).symm
    · rename_i hc
      exact iff_of_false not_mem_nil fun h => hc h.1
  simp only [← hcell]
  rw [mem_probe_iff, probedIndex_routing]
  rfl

/-- What is loaded for one query is enough for another one: every cluster with members that
the other reaches in the whole index is reached by the first as well, and the other reaches
it through a cell that both probe. -/
def LoadCovers : Prop :=
  ∀ f ∈ (stored.whole l0).probeFineCentroids s query, membersAt stored.clusters f ≠ [] →
    f ∈ (stored.whole l0).probeFineCentroids s last ∧
      ∃ c ∈ l1KeysForQueryProbe s l0 query, c ∈ l1KeysForQueryProbe s l0 last ∧
        f ∈ wholeCell s l0 stored query c

instance : Decidable (LoadCovers s l0 stored query last) :=
  inferInstanceAs (Decidable (∀ f ∈ (stored.whole l0).probeFineCentroids s query,
    membersAt stored.clusters f ≠ [] → f ∈ (stored.whole l0).probeFineCentroids s last ∧
      ∃ c ∈ l1KeysForQueryProbe s l0 query, _))

/-- A query is served by what is loaded for it. -/
theorem covers_self : LoadCovers s l0 stored query query := by
  intro f hf _
  obtain ⟨-, c, hc, hcell⟩ := (mem_probe_whole s l0 stored query).mp hf
  exact ⟨hf, c, hc, hc, hcell⟩

/-- No document is in two of the clusters that a query reaches. -/
def OneCluster : Prop :=
  ∀ f ∈ (stored.whole l0).probeFineCentroids s query,
    ∀ f' ∈ (stored.whole l0).probeFineCentroids s query, ∀ m ∈ membersAt stored.clusters f,
      ∀ m' ∈ membersAt stored.clusters f', m.docId = m'.docId → f = f'

theorem membersAt_probed (f : Nat) :
    membersAt (probedIndex s l0 stored last).clusters f
      = if f ∈ (stored.whole l0).probeFineCentroids s last then membersAt stored.clusters f
        else [] := by
  rw [membersAt, lookup_probedIndex_clusters, probeFineCentroids_probed]
  split <;> rfl

/-- If the other query finds in what is loaded the documents that it finds in the whole
index, each in one cluster, the load covers it. -/
theorem covers_of_annPool (hone : OneCluster s l0 stored query)
    (hpool : (probedIndex s l0 stored last).annPoolDocIds s query
      = (stored.whole l0).annPoolDocIds s query) : LoadCovers s l0 stored query last := by
  intro f hf hsome
  obtain ⟨m, hm⟩ := exists_mem_of_ne_nil _ hsome
  have hid : m.docId ∈ (probedIndex s l0 stored last).annPoolDocIds s query := by
    rw [hpool]
    exact mem_toFinset.mpr (mem_flatMap.mpr ⟨f, hf, mem_map_of_mem hm⟩)
  obtain ⟨f', hf', hid'⟩ := mem_flatMap.mp (mem_toFinset.mp hid)
  obtain ⟨m', hm', hsame⟩ := mem_map.mp hid'
  obtain ⟨hlength, c, hc, hcommon, hcell⟩ := (mem_probe_probed s l0 stored query last).mp hf'
  rw [membersAt_probed] at hm'
  split at hm'
  · rename_i hlast
    have hwhole := (mem_probe_whole s l0 stored query).mpr ⟨hlength, c, hc, hcell⟩
    obtain rfl := hone f hf f' hwhole m hm m' hm' hsame.symm
    exact ⟨hlast, c, hc, hcommon, hcell⟩
  · cases hm'

end Same

/-! ## Answers -/

section Answers

variable (s : Scorer)

/-- The clusters with members that a query probes. -/
def VectorIndex.probedSegments (idx : VectorIndex) (query : Vec) : List ClusterSegment :=
  ((idx.probeFineCentroids s query).filter fun f => membersAt idx.clusters f ≠ []).filterMap
    idx.clusters.lookup

theorem scoreCluster_of_empty {idx : VectorIndex} {f : Nat} (h : membersAt idx.clusters f = [])
    (query : Vec) (topK : Nat) (scores : HashMap String Fp) :
    idx.scoreCluster s query topK scores f = scores := by
  rw [scoreCluster]
  cases hc : idx.clusters.lookup f with
  | none => rfl
  | some c =>
    have hnone : c.members = [] := by
      rw [membersAt, hc] at h
      exact h
    cases idx.l0.vectorElement <;> simp [ClusterSegment.scoreMembers, hnone, sortRanked]

/-- An answer comes from the table and the probed clusters that have members. -/
theorem answers_congr {idx idx' : VectorIndex} {query : Vec} (hl0 : idx.l0 = idx'.l0)
    (h : idx.probedSegments s query = idx'.probedSegments s query) :
    idx.annPoolDocIds s query = idx'.annPoolDocIds s query ∧
      ∀ o topK, idx.queryAnn s o query topK = idx'.queryAnn s o query topK := by
  have hpool (idx : VectorIndex) : idx.annPoolDocIds s query
      = ((idx.probedSegments s query).flatMap fun c =>
          c.members.map ClusterMember.docId).toFinset := by
    ext id
    simp only [annPoolDocIds, candidateDocIds, probedSegments, mem_toFinset, mem_flatMap,
      mem_filterMap, mem_filter, decide_eq_true_eq]
    constructor
    · rintro ⟨f, hf, hid⟩
      have hsome : membersAt idx.clusters f ≠ [] := by
        intro hnil
        rw [hnil] at hid
        cases hid
      obtain ⟨c, hc, hmem⟩ := lookup_of_membersAt_ne_nil hsome
      exact ⟨c, ⟨f, ⟨hf, hsome⟩, hc⟩, hmem ▸ hid⟩
    · rintro ⟨c, ⟨f, ⟨hf, -⟩, hc⟩, hid⟩
      refine ⟨f, hf, ?_⟩
      rw [membersAt, hc]
      exact hid
  have hscores (idx : VectorIndex) (topK : Nat) :
      (idx.probeFineCentroids s query).foldl (idx.scoreCluster s query topK) ∅
        = (idx.probedSegments s query).foldl (fun scores c =>
          (c.scoreMembers s query idx.l0.distanceMetric (saturatingMul topK 4) idx.l0.dimensions
            idx.l0.vectorElement).foldl raiseScore scores) ∅ := by
    rw [probedSegments, foldl_filterMap, foldl_filter]
    refine foldl_ext _ _ _ fun scores f _ => ?_
    split
    · rw [scoreCluster]
      cases idx.clusters.lookup f <;> rfl
    · rename_i hnone
      exact scoreCluster_of_empty s (not_not.mp fun hne => hnone (decide_eq_true hne)) _ _ _
  refine ⟨by rw [hpool, hpool, h], fun o topK => ?_⟩
  rw [queryAnn, queryAnn, hscores, hscores, h, hl0]

theorem exists_probe_sorted (idx : VectorIndex) (query : Vec) :
    ∃ ids : Finset Nat, idx.probeFineCentroids s query = (IterOrder.sorted Nat).toList ids := by
  rw [probeFineCentroids, probeFineCentroidsParts]
  split
  · exact ⟨∅, (eq_nil_iff_forall_not_mem.mpr fun f hf =>
      Finset.notMem_empty f ((IterOrder.mem_toList _ _ f).mp hf)).symm⟩
  · exact ⟨_, rfl⟩

theorem probedSegments_congr {idx idx' : VectorIndex} {query : Vec}
    (hprobe : ∀ f, f ∈ idx.probeFineCentroids s query ∧ membersAt idx.clusters f ≠ [] ↔
      f ∈ idx'.probeFineCentroids s query ∧ membersAt idx'.clusters f ≠ [])
    (hlookup : ∀ f ∈ idx'.probeFineCentroids s query, membersAt idx'.clusters f ≠ [] →
      idx.clusters.lookup f = idx'.clusters.lookup f) :
    idx.probedSegments s query = idx'.probedSegments s query := by
  obtain ⟨ids, hids⟩ := exists_probe_sorted s idx query
  obtain ⟨ids', hids'⟩ := exists_probe_sorted s idx' query
  have hsame : (idx.probeFineCentroids s query).filter
        (fun f => decide (membersAt idx.clusters f ≠ []))
      = (idx'.probeFineCentroids s query).filter
        (fun f => decide (membersAt idx'.clusters f ≠ [])) := by
    rw [hids, hids']
    refine IterOrder.filter_sorted_congr fun f => ?_
    have hf := hprobe f
    rw [hids, hids', IterOrder.mem_toList, IterOrder.mem_toList] at hf
    rw [decide_eq_true_eq, decide_eq_true_eq, hf]
  rw [probedSegments, probedSegments, hsame]
  refine filterMap_congr fun f hf => ?_
  obtain ⟨hmem, hsome⟩ := mem_filter.mp hf
  exact hlookup f hmem (of_decide_eq_true hsome)

/-- A query that the load covers finds the clusters of the whole index. -/
theorem probedSegments_of_covers {l0 : CentroidIndexL0} {stored : StoredVectorIndex}
    {query last : Vec} (h : LoadCovers s l0 stored query last) :
    (probedIndex s l0 stored last).probedSegments s query
      = (stored.whole l0).probedSegments s query := by
  refine probedSegments_congr s (fun f => ⟨?_, ?_⟩) fun f hf hsome => ?_
  · rintro ⟨hf, hsome⟩
    rw [membersAt_probed] at hsome
    obtain ⟨hlength, c, hc, -, hcell⟩ := (mem_probe_probed s l0 stored query last).mp hf
    split at hsome
    · exact ⟨(mem_probe_whole s l0 stored query).mpr ⟨hlength, c, hc, hcell⟩, hsome⟩
    · exact absurd rfl hsome
  · rintro ⟨hf, hsome⟩
    obtain ⟨hlast, hcells⟩ := h f hf hsome
    rw [membersAt_probed, if_pos hlast]
    have hlength := ((mem_probe_whole s l0 stored query).mp hf).1
    exact ⟨(mem_probe_probed s l0 stored query last).mpr ⟨hlength, hcells⟩, hsome⟩
  · rw [lookup_probedIndex_clusters, probeFineCentroids_probed, if_pos (h f hf hsome).1]
    rfl

end Answers

/-! ## The load of a whole index -/

section Full

variable {env : LoadEnv} {m : NamespaceMeta} {field : String} {stored : StoredVectorIndex}
  {idx : VectorIndex}

/-- Without a routing, only ids that the table counts are probed. -/
theorem VectorIndex.Complete.lt_of_mem_probe {s : Scorer} {query : Vec} (h : idx.Complete)
    (hrouting : idx.routing = none) {f : Nat} (hf : f ∈ idx.probeFineCentroids s query) :
    f < idx.l0.numFineTotal := by
  obtain ⟨-, c, hc, hf⟩ := (mem_probe_iff s).mp hf
  have hcount := getElem?_eq_getElem (h.coarse ▸ mem_topMCentroids_lt hc)
  obtain ⟨l1, hl1, -, hlen⟩ := h.cell c _ hcount
  simp only [probeCell, hrouting, Option.map_none, Option.getD_none, hl1] at hf
  obtain ⟨i, hi, rfl⟩ := mem_map.mp hf
  have hlt := Nat.add_lt_add_left (hlen ▸ mem_topMCentroids_lt hi) (idx.l0.globalIdStart c)
  exact h.total ▸ hlt.trans_le (Blocks.start_add_le_sum hcount)

/-- A small index is loaded whole for every query. -/
theorem covers_of_small {s : Scorer} {l0 : CentroidIndexL0} {query last : Vec}
    (h : (stored.whole l0).Complete) (hrouting : l0.hasRouting = false)
    (hsmall : l0.numFineTotal ≤ 32) (hlast : last.length = l0.dimensions) :
    LoadCovers s l0 stored query last := by
  have hnone : (stored.whole l0).routing = none := by simp [StoredVectorIndex.whole, hrouting]
  have hparts (c : Nat) : (stored.whole l0).l2Parts c ≤ 1 := by simp [l2Parts, hnone]
  intro f hf _
  obtain ⟨c, hcell⟩ := h.exists_cell s hsmall hparts (h.lt_of_mem_probe hnone hf)
  exact ⟨(mem_probe_whole s l0 stored last).mpr ⟨hlast, c, hcell last⟩,
    c, (hcell query).1, (hcell last).1, (hcell query).2⟩

variable (hload : loadVectorIndexFullForField env m field
  (if vectorIndexUsesLegacyPaths m field then {} else stored.toVectorObjects)
  stored.toVectorObjects = some idx)

include hload

/-- The full load leaves the routing and the clusters beyond the count out. -/
theorem full_parts : idx.l1 = loadRange idx.l0.numCoarse stored.l1 ∅ false ∧ idx.routing = none ∧
    ∀ f < idx.l0.numFineTotal, idx.clusters.lookup f = stored.clusters.lookup f := by
  obtain ⟨l0, -, hload⟩ := Option.bind_eq_some_iff.mp hload
  split at hload
  · cases hload
  · obtain rfl := Option.some.inj hload
    refine ⟨HashMap.ext_lookup fun c => ?_, rfl, fun f hf => ?_⟩
    · simp only [lookup_loadRange]
      cases vectorIndexUsesLegacyPaths m field <;> simp
    · rw [lookup_loadRange, if_pos hf]
      cases vectorIndexUsesLegacyPaths m field <;> simp

/-- What is loaded for a query answers it as the whole index does, whatever is left in
the store from larger indexes. -/
theorem probed_answers_as_full (h : idx.Complete) (hrouting : idx.l0.hasRouting = false)
    (s : Scorer) (query : Vec) :
    (probedIndex s idx.l0 stored query).probeFineCentroids s query
        = idx.probeFineCentroids s query ∧
      ∀ o topK, (probedIndex s idx.l0 stored query).queryAnn s o query topK
        = idx.queryAnn s o query topK := by
  obtain ⟨hl1, hnone, hclusters⟩ := full_parts hload
  have hcell (c : Nat) : probeCell s idx.l0 idx.l1 none stored.l2 query c
      = probeCell s idx.l0 idx.l1 none idx.l2 query c :=
    probeCell_congr s idx.l0 none query rfl fun hparts => absurd hparts (Nat.not_lt_zero 1)
  have hprobe : (stored.whole idx.l0).probeFineCentroids s query
      = idx.probeFineCentroids s query := by
    simp only [probeFineCentroids, probeFineCentroidsParts, StoredVectorIndex.whole, hnone,
      hrouting, ← hl1, Bool.false_eq_true, if_false, funext hcell]
  have hlookup (f : Nat) (hf : f ∈ idx.probeFineCentroids s query) :
      stored.clusters.lookup f = idx.clusters.lookup f :=
    (hclusters f (h.lt_of_mem_probe hnone hf)).symm
  have hwhole : (stored.whole idx.l0).probedSegments s query = idx.probedSegments s query := by
    refine probedSegments_congr s (fun f => ?_) fun f hf _ => hlookup f hf
    rw [hprobe]
    refine and_congr_right fun hf => ?_
    rw [membersAt, membersAt, ← hlookup f hf]
    rfl
  have hsegments := (probedSegments_of_covers s (covers_self s idx.l0 stored query)).trans hwhole
  have hl0 : (probedIndex s idx.l0 stored query).l0 = idx.l0 := rfl
  exact ⟨(probeFineCentroids_probed ..).trans hprobe, (answers_congr s hl0 hsegments).2⟩

end Full

/-- Five cells of seven clusters, with the default probe widths. -/
def fiveCells : CentroidIndexL0 where
  vectorField := "emb"
  dimensions := 2
  numCoarse := 5
  numFineTotal := 35
  distanceMetric := .euclideanSquared
  fineCounts := [7, 7, 7, 7, 7]
  centroids :=
    [[.num 10, .num 0], [.num 0, .num 10], [.num 1, .num 9], [.num 2, .num 8], [.num 3, .num 7]]

/-- The stored index, with one document in the first cell, one in the second, and a cluster
from a larger index. -/
def eastAndNorth : StoredVectorIndex where
  l0 := some fiveCells
  l1 := (∅ : HashMap Nat CentroidIndexL1).insertAll <| fiveCells.centroids.zipIdx.map fun c =>
    (c.2, ⟨0, c.2, 7 * c.2, 7, List.replicate 7 c.1⟩)
  clusters := (∅ : HashMap Nat ClusterSegment).insertAll
    [(0, { members := [{ docId := "east", vector := [.num 10, .num 0] }] }),
      (7, { centroidId := 7, members := [{ docId := "north", vector := [.num 0, .num 10] }] }),
      (40, { centroidId := 40, members := [{ docId := "gone", vector := [.num 0, .num 10] }] })]
  l2_ids := l2_ids_empty

def cellsMeta : NamespaceMeta :=
  { indexCursor := 1, vectorFields := [⟨"emb", 2, .f32, 1, []⟩] }

/-- The query is answered from four of the five cells. -/
theorem probed_answers_fiveCells : ∃ idx,
    loadVectorIndexFullForField {} cellsMeta "emb" eastAndNorth.toVectorObjects {} = some idx ∧
      0 ∉ (probedIndex scorer idx.l0 eastAndNorth [.num 0, .num 10]).l1 ∧
      (probedIndex scorer idx.l0 eastAndNorth [.num 0, .num 10]).queryAnn scorer (.sorted String)
        [.num 0, .num 10] 2 = [("north", .negZero)] := by
  have h := @probed_answers_as_full {} cellsMeta "emb" eastAndNorth _ rfl
    (Layout.complete (by decide +kernel)) rfl scorer [.num 0, .num 10]
  exact ⟨_, rfl, by decide +kernel, (h.2 _ 2).trans (by decide +kernel)⟩

end OpenPuffer
