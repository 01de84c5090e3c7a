import OpenPuffer.Lib.FpOrder
import OpenPuffer.Lib.TopK
import OpenPuffer.Vector.Cells
import OpenPuffer.Vector.Query

/-!
# Small indexes are searched exactly

An index with at most 32 fine centroids and no routing is read whole (`mem_probeFineCentroids`).
Each cluster then gives only its best `4 * topK` members and the merged list is cut at `topK`.
Neither cut loses one of the best `topK` members of the index
(`TopK.Ranks.mem_take_of_mem_take`).  Scores are compared through a map `place`.
-/

namespace OpenPuffer

open List HashMap

/-! ## Ranking keys -/

section RankKey

variable {R : Type} [LinearOrder R] (place : Fp → R)

/-- Better scores first, ties by ascending id. -/
def rankKey (e : String × Fp) : Lex (Rᵒᵈ × String) := toLex (OrderDual.toDual (place e.2), e.1)

/-- Two scores are compared like their places. -/
def Places (x y : Fp) : Prop := x.partialCmp y = some (compare (place x) (place y))

variable {place}

omit [LinearOrder R] in
theorem nodup_rankKey {l : List (String × Fp)} (h : (l.map Prod.fst).Nodup) :
    (l.map (rankKey place)).Nodup := by
  refine Nodup.of_map (fun k => (ofLex k).2) ?_
  rw [map_map]
  exact h

theorem rankCmp_ne_gt_iff {a b : String × Fp} (h : Places place b.2 a.2) :
    rankCmp a b ≠ .gt ↔ rankKey place a ≤ rankKey place b := by
  rw [rankCmp, h, Option.getD_some, ne_eq, Ordering.then_eq_gt, Prod.Lex.le_iff]
  have hid : compare a.1 b.1 = .gt ↔ b.1 < a.1 := compare_gt_iff_gt
  rw [compare_gt_iff_gt, compare_eq_iff_eq, hid]
  constructor
  · intro hnot
    rcases lt_trichotomy (place b.2) (place a.2) with hlt | heq | hgt
    · exact .inl hlt
    · refine .inr ⟨congrArg OrderDual.toDual heq.symm, ?_⟩
      exact not_lt.mp fun hlt => hnot (.inr ⟨heq, hlt⟩)
    · exact absurd (.inl hgt) hnot
  · rintro (hlt | ⟨heq, hle⟩) (hgt | ⟨hsame, hgt⟩)
    · exact lt_asymm hgt hlt
    · exact (ne_of_lt hlt) (congrArg OrderDual.toDual hsame.symm)
    · exact (ne_of_lt hgt) (OrderDual.toDual_inj.mp heq)
    · exact absurd hgt (not_lt.mpr hle)

theorem ranks_rankCmp {l : List (String × Fp)}
    (hplaces : ∀ a ∈ l, ∀ b ∈ l, Places place a.2 b.2) (hids : (l.map Prod.fst).Nodup) :
    TopK.Ranks (fun a b => rankCmp a b ≠ .gt) (rankKey place) l :=
  ⟨fun a ha b hb => rankCmp_ne_gt_iff (hplaces b hb a ha), nodup_rankKey hids⟩

end RankKey

/-! ## Every cluster is probed -/

theorem mem_topMCentroids_of_le {scoreFn : Vec → Vec → DistanceMetric → Fp} {centroids : List Vec}
    {m i : Nat} (hi : i < centroids.length) (hm : centroids.length ≤ m) (query : Vec)
    (metric : DistanceMetric) : i ∈ topMCentroids scoreFn centroids query metric m := by
  rw [topMCentroids, Nat.min_eq_right hm, take_of_length_le]
  · refine mem_map.mpr ⟨(i, scoreFn query centroids[i] metric), ?_, rfl⟩
    rw [sortRanked, mem_insertionSort, mem_map]
    exact ⟨(centroids[i], i), mem_zipIdx_iff_getElem?.mpr (getElem?_eq_getElem hi), rfl⟩
  · rw [sortRanked, length_insertionSort, length_map, length_zipIdx]

namespace VectorIndex

variable (s : Scorer)

def l2Parts (idx : VectorIndex) (c : Nat) : Nat :=
  (idx.routing.map fun r => r.l2CountForCoarse c).getD 0

/-- A cell only has routing parts if it has more than 32 fine centroids. -/
def RoutingFits (idx : VectorIndex) : Prop := ∀ c, 1 < idx.l2Parts c → 32 < idx.fineCount c

/-- The cells of a build so far: none has routing parts, and in a v3 build none has more
than eight fine centroids. -/
structure SmallCells (p : BuildParams) (cells : Nat) (st : BuildState) : Prop where
  l2 : st.l2 = ∅
  l2Counts : ∀ c ∈ st.l2Counts, c = 0
  globalStart : annVersionV3 ≤ p.annVersion → st.globalStart ≤ maxFinePerCoarseV3 * cells

section Build

variable {q : Quantizer} {p : BuildParams} {byCoarse : HashMap Nat (List (String × Vec))}

theorem SmallCells.buildCell {cells : Nat} {st : BuildState} (h : SmallCells p cells st)
    (coarseId : Nat) : SmallCells p (cells + 1) (buildCell q p byCoarse st coarseId) := by
  have hfine : ∀ n, annVersionV3 ≤ p.annVersion →
      numFineForVersion n p.annVersion ≤ maxFinePerCoarseV3 := by
    intro n hv
    rw [numFineForVersion, numFineV3]
    split
    · exact Nat.zero_le _
    · exact Nat.min_le_right _ _
  have hparts : ∀ n, ¬ (p.annVersion ≥ annVersionV3 ∧
      numFineForVersion n p.annVersion > l2SplitFineThreshold) := by
    rintro n ⟨hv, hn⟩
    exact absurd (hn.trans_le (hfine n hv)) (by decide)
  simp only [VectorIndex.buildCell, hparts]
  refine ⟨h.l2, fun c hc => ?_, fun hv => ?_⟩
  · rcases mem_append.mp hc with hc | hc
    · exact h.l2Counts c hc
    · exact mem_singleton.mp hc
  · exact Nat.add_le_add (h.globalStart hv) (hfine _ hv)

theorem smallCells_build (n : Nat) :
    SmallCells p n ((List.range n).foldl (buildCell q p byCoarse) {}) := by
  induction n with
  | zero => exact ⟨rfl, fun c hc => (nomatch hc), fun _ => Nat.le_refl 0⟩
  | succ n ih =>
    rw [range_succ, foldl_append]
    exact ih.buildCell n

variable {segmentId : Nat} {field : String} {metric : DistanceMetric} {docs : List Document}
  {schema : Json} {cfg : AnnBuildConfig} {idx : VectorIndex}

/-- A build makes no routing parts, and the fine centroids of a v3 build are at most eight
times its coarse ones. -/
theorem build_unrouted (h : build q segmentId field metric docs schema cfg = some idx) :
    idx.l0.hasRouting = false ∧ idx.routing = none ∧ idx.l2 = ∅ ∧
      idx.l0.numCoarse = numCoarseForVersion (collectPairs field docs).2.length cfg.annVersion ∧
      (annVersionV3 ≤ cfg.annVersion →
        idx.l0.numFineTotal ≤ maxFinePerCoarseV3 * idx.l0.numCoarse) := by
  rw [build] at h
  simp only at h
  split at h
  · cases h
  generalize hp : BuildParams.mk segmentId metric _ _ cfg.annVersion = p at h
  generalize (groupBy _ (collectPairs field docs).2 :
    HashMap Nat (List (String × Vec))) = byCoarse at h
  have hsmall : SmallCells p _ ((range _).foldl (VectorIndex.buildCell q p byCoarse) {}) :=
    smallCells_build (numCoarseForVersion (collectPairs field docs).2.length cfg.annVersion)
  generalize (range _).foldl (VectorIndex.buildCell q p byCoarse) {} = st at h hsmall
  have hno : (st.l2Counts.any fun c => c > 1) = false := by
    rw [any_eq_false]
    intro c hc
    simp [hsmall.l2Counts c hc]
  rw [hno, Bool.and_false] at h
  cases h
  exact ⟨rfl, rfl, hsmall.l2, rfl, fun hv => hsmall.globalStart (by rw [← hp]; exact hv)⟩

end Build

theorem Layout.l2Parts_le {idx : VectorIndex} (h : idx.Layout) (hfits : idx.RoutingFits)
    (hsmall : idx.l0.numFineTotal ≤ 32) (c : Nat) : idx.l2Parts c ≤ 1 := by
  by_contra hlt
  have hcount := hfits c (Nat.not_le.mp hlt)
  have hle : idx.fineCount c ≤ idx.l0.fineCounts.sum := by
    rw [fineCount, getD_eq_getElem?_getD]
    cases hc : idx.l0.fineCounts[c]? with
    | none => exact Nat.zero_le _
    | some count => exact le_sum_of_mem (mem_of_getElem? hc)
  rw [h.complete.total] at hsmall
  omega

/-- In a small index without routing parts every query probes a fine id in its cell. -/
theorem Complete.exists_cell {idx : VectorIndex} (h : idx.Complete)
    (hsmall : idx.l0.numFineTotal ≤ 32) (hrouting : ∀ c, idx.l2Parts c ≤ 1) {f : Nat}
    (hf : f < idx.l0.numFineTotal) : ∃ c, ∀ query,
      c ∈ topMCentroids s.scoreVector idx.l0.centroids query idx.l0.distanceMetric
        idx.l0.probeCoarseCount ∧ f ∈ probeCell s idx.l0 idx.l1 idx.routing idx.l2 query c := by
  rw [h.total] at hf
  obtain ⟨c, count, i, hc, hi, hfine⟩ := Blocks.exists_block hf
  obtain ⟨l1, hl1, hnum, hlen⟩ := h.cell c count hc
  refine ⟨c, fun query => ⟨mem_topMCentroids_of_le ?_ ?_ _ _, ?_⟩⟩
  · rw [h.coarse]
    exact (List.getElem?_eq_some_iff.mp hc).1
  · rw [CentroidIndexL0.probeCoarseCount, if_pos hsmall, h.coarse, h.numCoarse]
  · have hlocal : i ∈ topMCentroids s.scoreVector l1.centroids query idx.l0.distanceMetric
        (idx.l0.probeFineCount l1) := by
      refine mem_topMCentroids_of_le (hlen ▸ hi) ?_ _ _
      rw [CentroidIndexL0.probeFineCount, CentroidIndexL0.probeFineCountForNumFine, if_pos hsmall,
        hlen, hnum]
    rw [probeCell, if_neg fun hparts => Nat.not_lt.mpr (hrouting c) hparts.1, hl1]
    exact List.mem_map.mpr ⟨i, hlocal, hfine.symm⟩

/-- A query of the right length descends into its best cells. -/
theorem mem_probe_iff {idx : VectorIndex} {query : Vec} {f : Nat} :
    f ∈ idx.probeFineCentroids s query ↔ query.length = idx.l0.dimensions ∧
      ∃ c ∈ topMCentroids s.scoreVector idx.l0.centroids query idx.l0.distanceMetric
          idx.l0.probeCoarseCount, f ∈ probeCell s idx.l0 idx.l1 idx.routing idx.l2 query c := by
  rw [probeFineCentroids, probeFineCentroidsParts]
  split
  · rename_i hlength
    exact iff_of_false List.not_mem_nil fun h => hlength h.1
  · rename_i hlength
    rw [IterOrder.mem_toList, List.mem_toFinset, List.mem_flatMap]
    exact (and_iff_right (not_not.mp hlength)).symm

/-- Every cluster of a small index is probed. -/
theorem Layout.mem_probeFineCentroids {idx : VectorIndex} (h : idx.Layout)
    (hsmall : idx.l0.numFineTotal ≤ 32) (hrouting : ∀ c, idx.l2Parts c ≤ 1) {query : Vec}
    (hquery : query.length = idx.l0.dimensions) {f : Nat} (hf : f < idx.l0.numFineTotal) :
    f ∈ idx.probeFineCentroids s query := by
  obtain ⟨c, hcell⟩ := h.complete.exists_cell s hsmall hrouting hf
  exact (mem_probe_iff s).mpr ⟨hquery, c, hcell query⟩

/-! ## The scores of an index -/

/-- The score of a member in the arithmetic of its element type. -/
def memberScore (idx : VectorIndex) (query : Vec) (m : ClusterMember) : Fp :=
  match idx.l0.vectorElement with
  | .f32 => s.scoreVector query m.vector idx.l0.distanceMetric
  | .f16 =>
    s.scoreVectorF32 ((query.take idx.l0.dimensions).map Format.binary32.convert)
      (m.asF32Slice idx.l0.dimensions) idx.l0.distanceMetric

def scored (idx : VectorIndex) (query : Vec) (ms : List ClusterMember) : List (String × Fp) :=
  ms.map fun m => (m.docId, idx.memberScore s query m)

def allScored (idx : VectorIndex) (query : Vec) : List (String × Fp) :=
  (idx.clusters.iter (IterOrder.sorted Nat)).flatMap fun e => idx.scored s query e.2.members

/-- The best `topK` members of all clusters, by descending score and ascending id. -/
def exactTopK {R : Type} [LinearOrder R] (place : Fp → R) (idx : VectorIndex) (query : Vec)
    (topK : Nat) : List (String × Fp) :=
  ((idx.allScored s query).insertionSort fun a b => rankKey place a ≤ rankKey place b).take topK

variable {idx : VectorIndex}

theorem map_fst_scored (query : Vec) (ms : List ClusterMember) :
    (idx.scored s query ms).map Prod.fst = ms.map ClusterMember.docId := by
  rw [scored, map_map]
  rfl

/-- Every member is scored once. -/
theorem coe_allScored (query : Vec) :
    (idx.allScored s query : Multiset (String × Fp))
      = idx.members.map fun m => (m.docId, idx.memberScore s query m) := by
  rw [members, memberBag, flatten_eq_flatMap (IterOrder.sorted Nat), Multiset.map_coe,
    map_flatMap]
  rfl

theorem nodup_allScored (query : Vec) (honce : (idx.members.map ClusterMember.docId).Nodup) :
    ((idx.allScored s query).map Prod.fst).Nodup := by
  rw [← Multiset.coe_nodup, ← Multiset.map_coe, coe_allScored, Multiset.map_map]
  exact honce

variable {s} {query : Vec}

theorem mem_members {m : ClusterMember} :
    m ∈ idx.members ↔ ∃ f, m ∈ membersAt idx.clusters f := by
  rw [members, memberBag, flatten_eq_flatMap (IterOrder.sorted Nat), Multiset.mem_coe,
    mem_flatMap]
  constructor
  · rintro ⟨⟨f, c⟩, hc, hm⟩
    refine ⟨f, ?_⟩
    rw [membersAt, mem_iter.mp hc]
    exact hm
  · rintro ⟨f, hm⟩
    obtain ⟨c, hc, hcm⟩ := lookup_of_membersAt_ne_nil (ne_nil_of_mem hm)
    exact ⟨(f, c), mem_iter.mpr hc, hcm ▸ hm⟩

theorem mem_allScored {e : String × Fp} :
    e ∈ idx.allScored s query ↔ ∃ f, e ∈ idx.scored s query (membersAt idx.clusters f) := by
  rw [← Multiset.mem_coe, coe_allScored, Multiset.mem_map]
  simp only [scored, mem_map, mem_members]
  constructor
  · rintro ⟨m, ⟨f, hm⟩, heq⟩
    exact ⟨f, m, hm, heq⟩
  · rintro ⟨f, m, hm, heq⟩
    exact ⟨m, ⟨f, hm⟩, heq⟩

/-- The pool of a small index are all its documents. -/
theorem Layout.mem_annPoolDocIds (h : idx.Layout) (hsmall : idx.l0.numFineTotal ≤ 32)
    (hrouting : ∀ c, idx.l2Parts c ≤ 1) (hquery : query.length = idx.l0.dimensions) {id : String} :
    id ∈ idx.annPoolDocIds s query ↔ id ∈ idx.members.map ClusterMember.docId := by
  rw [annPoolDocIds, candidateDocIds, mem_toFinset, mem_flatMap, Multiset.mem_map]
  simp only [mem_map]
  constructor
  · rintro ⟨f, -, m, hm, rfl⟩
    exact ⟨m, mem_members.mpr ⟨f, hm⟩, rfl⟩
  · rintro ⟨m, hm, rfl⟩
    obtain ⟨f, hf⟩ := mem_members.mp hm
    obtain ⟨c, hc, -⟩ := lookup_of_membersAt_ne_nil (ne_nil_of_mem hf)
    exact ⟨f, h.mem_probeFineCentroids s hsmall hrouting hquery (h.bound f c hc), m, hf, rfl⟩

theorem places_allScored {R : Type} [LinearOrder R] {place : Fp → R}
    (hplaces : ∀ m ∈ idx.members, ∀ m' ∈ idx.members,
      Places place (idx.memberScore s query m) (idx.memberScore s query m'))
    (a : String × Fp) (ha : a ∈ idx.allScored s query) (b : String × Fp)
    (hb : b ∈ idx.allScored s query) : Places place a.2 b.2 := by
  rw [← Multiset.mem_coe, coe_allScored, Multiset.mem_map] at ha hb
  obtain ⟨m, hm, rfl⟩ := ha
  obtain ⟨m', hm', rfl⟩ := hb
  exact hplaces m hm m' hm'

/-! ## The cut of each cluster -/

variable (s idx query) in
/-- What a probed cluster gives. -/
def cutAt (topK f : Nat) : List (String × Fp) :=
  (sortRanked (idx.scored s query (membersAt idx.clusters f))).take (saturatingMul topK 4)

theorem scoreCluster_eq (topK : Nat) (scores : HashMap String Fp) (f : Nat) :
    idx.scoreCluster s query topK scores f
      = (idx.cutAt s query topK f).foldl raiseScore scores := by
  rw [scoreCluster, cutAt, membersAt]
  cases idx.clusters.lookup f with
  | none => simp [scored, sortRanked]
  | some c =>
    simp only [scored, memberScore]
    cases idx.l0.vectorElement with
    | f32 => rfl
    | f16 => rfl

theorem foldl_scoreCluster (topK : Nat) (fineIds : List Nat) (scores : HashMap String Fp) :
    fineIds.foldl (idx.scoreCluster s query topK) scores
      = (fineIds.flatMap (idx.cutAt s query topK)).foldl raiseScore scores := by
  induction fineIds generalizing scores with
  | nil => rfl
  | cons f fineIds ih =>
    rw [foldl_cons, ih, scoreCluster_eq, flatMap_cons, foldl_append]

theorem mem_scored_of_mem_cutAt {topK f : Nat} {e : String × Fp}
    (h : e ∈ idx.cutAt s query topK f) :
    e ∈ idx.scored s query (membersAt idx.clusters f) :=
  (mem_insertionSort _).mp (mem_of_mem_take h)

/-- Clusters at different ids have no document in common. -/
theorem nodup_flatMap_membersAt (honce : (idx.members.map ClusterMember.docId).Nodup)
    {fineIds : List Nat} (hids : fineIds.Nodup) :
    (fineIds.flatMap fun f => (membersAt idx.clusters f).map ClusterMember.docId).Nodup := by
  have hle : ((fineIds.flatMap (membersAt idx.clusters) : List ClusterMember) :
      Multiset ClusterMember) ≤ idx.members := by
    rw [members, memberBag_eq_sum (fineIds.toFinset ∪ idx.clusters.keys)
      Finset.subset_union_right]
    refine le_trans (le_of_eq ?_) (Finset.sum_le_sum_of_subset Finset.subset_union_left)
    rw [← Multiset.coe_bind, Multiset.bind, Multiset.join, Finset.sum,
      toFinset_val, dedup_eq_self.mpr hids]
  rw [← map_flatMap]
  exact Multiset.nodup_of_le (Multiset.map_le_map hle) honce

variable (s query) in
theorem nodup_flatMap_cutAt (honce : (idx.members.map ClusterMember.docId).Nodup) (topK : Nat)
    {fineIds : List Nat} (hids : fineIds.Nodup) :
    ((fineIds.flatMap (idx.cutAt s query topK)).map Prod.fst).Nodup := by
  obtain ⟨hone, hdisjoint⟩ := nodup_flatMap.mp (nodup_flatMap_membersAt honce hids)
  have hsub : ∀ f, (idx.cutAt s query topK f).map Prod.fst
      ⊆ (membersAt idx.clusters f).map ClusterMember.docId := by
    intro f id hid
    obtain ⟨e, he, rfl⟩ := mem_map.mp hid
    rw [← map_fst_scored s query]
    exact mem_map_of_mem (mem_scored_of_mem_cutAt he)
  rw [map_flatMap]
  refine nodup_flatMap.mpr ⟨fun f hf => ?_, hdisjoint.imp fun hab => ?_⟩
  · have hsorted : ((sortRanked (idx.scored s query (membersAt idx.clusters f))).map
        Prod.fst).Nodup := by
      rw [sortRanked, ((perm_insertionSort _ _).map Prod.fst).nodup_iff, map_fst_scored]
      exact hone f hf
    exact hsorted.sublist ((take_sublist _ _).map _)
  · exact fun id ha hb => hab (hsub _ ha) (hsub _ hb)

end VectorIndex

/-- Scores of different documents do not meet. -/
theorem lookup_raiseScores {es : List (String × Fp)} (hids : (es.map Prod.fst).Nodup)
    {scores : HashMap String Fp} (hnew : ∀ e ∈ es, scores.lookup e.1 = none) (id : String)
    (v : Fp) : (es.foldl raiseScore scores).lookup id = some v ↔
      (id, v) ∈ es ∨ scores.lookup id = some v := by
  induction es generalizing scores with
  | nil => simp
  | cons e es ih =>
    obtain ⟨hhead, htail⟩ := nodup_cons.mp hids
    have hstep : raiseScore scores e = scores.insert e.1 e.2 := by
      rw [raiseScore, hnew e mem_cons_self]
    have hnew' : ∀ e' ∈ es, (raiseScore scores e).lookup e'.1 = none := by
      intro e' he'
      have hne : e'.1 ≠ e.1 := fun heq => hhead (heq ▸ mem_map_of_mem he')
      rw [hstep, lookup_insert_ite, if_neg hne]
      exact hnew e' (mem_cons_of_mem _ he')
    rw [foldl_cons, ih htail hnew', hstep, lookup_insert_ite, mem_cons]
    by_cases hid : id = e.1
    · have hold : scores.lookup id = none := hid ▸ hnew e mem_cons_self
      have hpair : (id, v) = e ↔ e.2 = v := by
        rw [hid, Prod.ext_iff]
        simp [eq_comm]
      rw [if_pos hid, hold, hpair]
      simp [or_comm]
    · have hpair : (id, v) ≠ e := fun heq => hid (congrArg Prod.fst heq)
      rw [if_neg hid]
      simp [hpair]

namespace VectorIndex

/-- The best `topK` members of the whole index are in the cuts of their clusters. -/
theorem mem_cutAt_of_mem_take {s : Scorer} {idx : VectorIndex} {query : Vec} {R : Type}
    [LinearOrder R] {place : Fp → R}
    (hranks : TopK.Ranks (fun a b => rankCmp a b ≠ .gt) (rankKey place) (idx.allScored s query))
    (honce : (idx.members.map ClusterMember.docId).Nodup) {topK : Nat} (htop : topK ≤ u64Max)
    {e : String × Fp} (he : e ∈ (sortRanked (idx.allScored s query)).take topK) :
    ∃ f, e ∈ idx.cutAt s query topK f := by
  obtain ⟨f, hf⟩ := mem_allScored.mp ((hranks.mem_take e topK).mp he).1
  refine ⟨f, ?_⟩
  have hsub : idx.scored s query (membersAt idx.clusters f) ⊆ idx.allScored s query :=
    fun e he => mem_allScored.mpr ⟨f, he⟩
  have hnodup : ((idx.scored s query (membersAt idx.clusters f)).map Prod.fst).Nodup := by
    have hone := nodup_flatMap_membersAt honce (nodup_singleton f)
    rwa [flatMap_singleton, ← map_fst_scored s query] at hone
  have hcut := hranks.mem_take_of_mem_take hsub (nodup_rankKey hnodup) he hf
  refine take_subset_take_left _ ?_ hcut
  rw [saturatingMul]
  omega

/-- Neither the cut of a cluster nor the last one loses one of the best members. -/
theorem Layout.queryAnn_exhaustive (s : Scorer) {R : Type} [LinearOrder R] (place : Fp → R)
    (o : IterOrder String) {idx : VectorIndex} (h : idx.Layout)
    (hsmall : idx.l0.numFineTotal ≤ 32) (hrouting : ∀ c, idx.l2Parts c ≤ 1)
    (honce : (idx.members.map ClusterMember.docId).Nodup) {query : Vec}
    (hquery : query.length = idx.l0.dimensions)
    (hplaces : ∀ m ∈ idx.members, ∀ m' ∈ idx.members,
      Places place (idx.memberScore s query m) (idx.memberScore s query m'))
    {topK : Nat} (htop : topK ≤ u64Max) :
    idx.queryAnn s o query topK = idx.exactTopK s place query topK := by
  have hids := nodup_allScored s query honce
  have hranks := ranks_rankCmp (places_allScored hplaces) hids
  have hprobe : (idx.probeFineCentroids s query).Nodup := by
    rw [probeFineCentroids, probeFineCentroidsParts, if_neg (not_not.mpr hquery)]
    exact IterOrder.nodup _ _
  have hnodup := nodup_flatMap_cutAt s query honce topK hprobe
  rw [queryAnn, if_neg (not_not.mpr hquery), foldl_scoreCluster, exactTopK,
    ← hranks.insertionSort_eq]
  have hentries (e : String × Fp) : e ∈ iter o
      (((idx.probeFineCentroids s query).flatMap (idx.cutAt s query topK)).foldl raiseScore ∅) ↔
      ∃ f ∈ idx.probeFineCentroids s query, e ∈ idx.cutAt s query topK f := by
    rw [mem_iter, lookup_raiseScores hnodup fun e _ => Finmap.lookup_empty e.1]
    simp
  refine (hranks.take_eq_iff ?_ (nodup_rankKey (nodup_iter o _)) topK).mpr ?_
  · intro e he
    obtain ⟨f, -, hf⟩ := (hentries e).mp he
    exact mem_allScored.mpr ⟨f, mem_scored_of_mem_cutAt hf⟩
  · intro e he
    obtain ⟨f, hf⟩ := mem_cutAt_of_mem_take hranks honce htop he
    refine (hentries e).mpr ⟨f, h.mem_probeFineCentroids s hsmall hrouting hquery ?_, hf⟩
    have hsome : membersAt idx.clusters f ≠ [] := by
      intro hnil
      have hmem := mem_scored_of_mem_cutAt hf
      rw [hnil] at hmem
      cases hmem
    obtain ⟨c, hc, -⟩ := lookup_of_membersAt_ne_nil hsome
    exact h.bound f c hc

/-- A small index without routing answers a query with the best members of all its
clusters. -/
theorem queryAnn_eq_exactTopK (s : Scorer) {R : Type} [LinearOrder R] (place : Fp → R)
    (o : IterOrder String) {idx : VectorIndex} (h : idx.Layout)
    (hsmall : idx.l0.numFineTotal ≤ 32) (hrouting : idx.routing = none)
    (honce : (idx.members.map ClusterMember.docId).Nodup) {query : Vec}
    (hquery : query.length = idx.l0.dimensions)
    (hplaces : ∀ m ∈ idx.members, ∀ m' ∈ idx.members,
      Places place (idx.memberScore s query m) (idx.memberScore s query m'))
    {topK : Nat} (htop : topK ≤ u64Max) :
    idx.queryAnn s o query topK = idx.exactTopK s place query topK := by
  refine h.queryAnn_exhaustive s place o hsmall (fun c => ?_) honce hquery hplaces htop
  rw [l2Parts, hrouting]
  exact Nat.zero_le 1

/-- Three points in two clusters of one cell. -/
def threePoints : VectorIndex where
  l0 :=
    { dimensions := 1, numCoarse := 1, numFineTotal := 2, fineCounts := [2],
      centroids := [[.num 2]], distanceMetric := .euclideanSquared }
  l1 := (∅ : HashMap Nat CentroidIndexL1).insert 0 ⟨0, 0, 0, 2, [[.num 1], [.num 2]]⟩
  clusters :=
    ((∅ : HashMap Nat ClusterSegment).insert 0
      { centroidId := 0, members := [⟨"far", [.num 0], none⟩] }).insert 1
      { centroidId := 1, members := [⟨"tie", [.num 3], none⟩, ⟨"near", [.num 1], none⟩] }

/-- Both clusters are read, and of two points at the same distance the one with the
smaller id comes first. -/
theorem queryAnn_threePoints :
    threePoints.queryAnn scorer (.sorted String) [.num 2] 2
      = threePoints.exactTopK scorer Fp.place [.num 2] 2 ∧
    threePoints.exactTopK scorer Fp.place [.num 2] 2
      = [("near", .num (-1)), ("tie", .num (-1))] := by
  refine ⟨queryAnn_eq_exactTopK scorer Fp.place (.sorted String) (by decide +kernel)
    (by decide) rfl (by decide +kernel) rfl ?_ (by decide), by decide +kernel⟩
  have hnum : ∀ m ∈ threePoints.members, threePoints.memberScore scorer [.num 2] m ≠ .nan := by
    decide +kernel
  exact fun m hm m' hm' => Fp.partialCmp_eq_compare (hnum m hm) (hnum m' hm')

end VectorIndex

end OpenPuffer
