import OpenPuffer.Search.Vector
import OpenPuffer.Vector.Probed

/-!
# Queries on probed indexes

Before a query runs, the vector rankers of its `rank_by` tree are collected, and for each field
the part of its index is loaded that the query vector probes.  Of several rankers on one field
only the last one decides what is loaded.  Another ranker on the field finds its candidates if
the last one reaches every cluster with members that it reaches, and in a cell that both probe
(`CoversTree`).  If no document is in two clusters this is necessary (`probed_transparent`).

Names are taken to be valid, and the rounds that only concern the text index are left out.
-/

namespace OpenPuffer

open List HashMap Finmap Except

/-! ## `rank_by` trees -/

inductive Ranker where
  | vector (field : String) (query : Vec)
  | bm25 (field query : String)
  | sum (subs : List Ranker)
  | product (subs : List Ranker)

namespace Ranker

inductive HasVector (field : String) (query : Vec) : Ranker → Prop
  | here : HasVector field query (.vector field query)
  | sum {subs : List Ranker} {sub : Ranker} (hmem : sub ∈ subs) (h : HasVector field query sub) :
      HasVector field query (.sum subs)
  | product {subs : List Ranker} {sub : Ranker} (hmem : sub ∈ subs)
      (h : HasVector field query sub) : HasVector field query (.product subs)

mutual

def collectVectorProbeSpecs (out : List (String × Vec)) : Ranker → List (String × Vec)
  | .vector field query => out ++ [(field, query)]
  | .sum subs => collectSubs out subs
  | .product subs => collectSubs out subs
  | .bm25 _ _ => out

/-- The loop over the parts of a sum or a product. -/
def collectSubs (out : List (String × Vec)) : List Ranker → List (String × Vec)
  | [] => out
  | sub :: subs => collectSubs (collectVectorProbeSpecs out sub) subs

end

/-- The vector rankers of a tree, from left to right. -/
def vectorProbeSpecs (ranker : Ranker) : List (String × Vec) := ranker.collectVectorProbeSpecs []

variable {field : String} {query : Vec}

theorem hasVector_vector {f : String} {q : Vec} :
    HasVector field query (.vector f q) ↔ (field, query) = (f, q) := by
  constructor
  · rintro ⟨⟩
    rfl
  · rintro ⟨⟩
    exact .here

theorem hasVector_sum {subs : List Ranker} :
    HasVector field query (.sum subs) ↔ ∃ sub ∈ subs, HasVector field query sub := by
  constructor
  · rintro (_ | ⟨hmem, h⟩)
    exact ⟨_, hmem, h⟩
  · rintro ⟨sub, hmem, h⟩
    exact .sum hmem h

theorem hasVector_product {subs : List Ranker} :
    HasVector field query (.product subs) ↔ ∃ sub ∈ subs, HasVector field query sub := by
  constructor
  · rintro (_ | _ | ⟨hmem, h⟩)
    exact ⟨_, hmem, h⟩
  · rintro ⟨sub, hmem, h⟩
    exact .product hmem h

mutual

theorem mem_collectVectorProbeSpecs (out : List (String × Vec)) (ranker : Ranker) :
    (field, query) ∈ collectVectorProbeSpecs out ranker ↔
      (field, query) ∈ out ∨ HasVector field query ranker := by
  cases ranker with
  | vector f q =>
    rw [collectVectorProbeSpecs, List.mem_append, List.mem_singleton, hasVector_vector]
  | bm25 f q =>
    rw [collectVectorProbeSpecs]
    exact ⟨.inl, fun h => h.resolve_right fun hv => nomatch hv⟩
  | sum subs => rw [collectVectorProbeSpecs, mem_collectSubs, hasVector_sum]
  | product subs => rw [collectVectorProbeSpecs, mem_collectSubs, hasVector_product]

theorem mem_collectSubs (out : List (String × Vec)) (subs : List Ranker) :
    (field, query) ∈ collectSubs out subs ↔
      (field, query) ∈ out ∨ ∃ sub ∈ subs, HasVector field query sub := by
  cases subs with
  | nil => simp [collectSubs]
  | cons sub subs =>
    rw [collectSubs, mem_collectSubs, mem_collectVectorProbeSpecs, or_assoc]
    simp

end

variable {field : String} {query : Vec} {ranker : Ranker} {vectors : HashMap String VectorIndex}

/-- The pairs that are probed are the vector rankers of the tree. -/
theorem mem_vectorProbeSpecs :
    (field, query) ∈ ranker.vectorProbeSpecs ↔ ranker.HasVector field query := by
  rw [vectorProbeSpecs, mem_collectVectorProbeSpecs]
  simp

end Ranker

/-! ## Loading for the probes of a tree -/

/-- The vector part of a loaded namespace.  A table waits in `coldVectorL0` until its
field is probed. -/
structure LoadedVectors where
  vectors : HashMap String VectorIndex := ∅
  coldVectorL0 : HashMap String CentroidIndexL0 := ∅
  annProbedClusters : Nat := 0

/-- The process and the namespace of a load. -/
structure ProbeEnv where
  scores : Scorer := scorer
  env : LoadEnv := {}
  /-- The disk cache is off. -/
  coldBatch : Bool := false
  /-- The order in which the map of the probes is seen. -/
  order : IterOrder String := .sorted String
  name : String := ""
  metaJson : NamespaceMeta := .empty
  stored : String → StoredVectorIndex

namespace ProbeEnv

variable (p : ProbeEnv)

/-- The tables of the fields that have an index. -/
def fetchColdVectorL0 : Except String (HashMap String CentroidIndexL0) :=
  ((effectiveVectorFields p.metaJson).filter fun cfg =>
    cfg.segmentId > 0 ∧ p.metaJson.indexCursor > 0 ∧ cfg.dimensions > 0).foldlM
      (fun l0ByField cfg =>
        match (p.stored cfg.name).l0 with
        | none =>
          let key := CentroidIndexL0.key p.name (keyField p.metaJson cfg.name)
          .error s!"object not found: {key}"
        | some l0 =>
          if l0.numFineTotal > 0 then
            .ok (l0ByField.insert cfg.name
              ((l0.alignWithNamespaceMeta p.metaJson none).clampProbePlanForQuery
                p.env.maxProbeClusters))
          else .ok l0ByField)
      ∅

/-- Of several probes of a field the last one stays. -/
def byField (probes : List (String × Vec)) : HashMap String Vec :=
  (∅ : HashMap String Vec).insertAll probes

/-- The index of a field for a query, and the number of clusters it probes. -/
def loadProbed (field : String) (l0 : CentroidIndexL0) (query : Vec) :
    Except String (VectorIndex × Nat) :=
  if p.coldBatch then
    fetchColdVectorProbed p.scores l0 p.env p.name p.metaJson field (p.stored field) query
  else .ok (loadVectorIndexProbedForQuery p.scores l0 (p.stored field) query)

/-- Load the index of one field, unless it is there or has no table. -/
def probeField (loaded : LoadedVectors) (probe : String × Vec) : Except String LoadedVectors :=
  let (field, query) := probe
  if field ∈ loaded.vectors then .ok loaded
  else
    match loaded.coldVectorL0.lookup field with
    | none => .ok loaded
    | some l0 => do
      let (vindex, probedClusters) ← p.loadProbed field l0 query
      .ok
        { vectors := loaded.vectors.insert field vindex
          coldVectorL0 := loaded.coldVectorL0.erase field
          annProbedClusters := min (loaded.annProbedClusters + probedClusters) (2 ^ 32 - 1) }

/-- The tables to start from.  Without a cache they may not have been fetched yet. -/
def coldTables (loaded : LoadedVectors) : Except String (HashMap String CentroidIndexL0) :=
  if p.coldBatch ∧ loaded.coldVectorL0.keys = ∅ then p.fetchColdVectorL0
  else .ok loaded.coldVectorL0

def finishColdVectorProbes (loaded : LoadedVectors) (probes : List (String × Vec)) :
    Except String LoadedVectors :=
  if probes.isEmpty then .ok loaded
  else do
    let coldVectorL0 ← p.coldTables loaded
    if coldVectorL0.keys = ∅ then .ok { loaded with coldVectorL0 }
    else
      (HashMap.iter p.order (byField probes)).foldlM p.probeField { loaded with coldVectorL0 }

/-! ## What is loaded -/

variable {probes : List (String × Vec)} {field : String} {query : Vec}
  {loaded after : LoadedVectors}

variable {p}

theorem probeField_cases {probe : String × Vec} (h : p.probeField loaded probe = .ok after) :
    (after = loaded ∧ (probe.1 ∈ loaded.vectors ∨ loaded.coldVectorL0.lookup probe.1 = none)) ∨
      ∃ l0 got, loaded.coldVectorL0.lookup probe.1 = some l0 ∧
        p.loadProbed probe.1 l0 probe.2 = .ok got ∧
        after.vectors = loaded.vectors.insert probe.1 got.1 ∧
        after.coldVectorL0 = loaded.coldVectorL0.erase probe.1 := by
  obtain ⟨field, query⟩ := probe
  simp only [probeField] at h
  split at h
  · rename_i hmem
    exact .inl ⟨(ok.inj h).symm, .inl hmem⟩
  · cases hl0 : loaded.coldVectorL0.lookup field with
    | none =>
      rw [hl0] at h
      exact .inl ⟨(ok.inj h).symm, .inr rfl⟩
    | some l0 =>
      rw [hl0] at h
      obtain ⟨got, hgot, h⟩ := bind_eq_ok.mp h
      obtain rfl := ok.inj h
      exact .inr ⟨l0, got, rfl, hgot, rfl, rfl⟩

/-- The index of a field was there before, or it was loaded for a probe of the
field. -/
theorem lookup_of_probeFields (h : probes.foldlM p.probeField loaded = .ok after)
    {vindex : VectorIndex} (hindex : after.vectors.lookup field = some vindex) :
    loaded.vectors.lookup field = some vindex ∨
      ∃ query l0 got, (field, query) ∈ probes ∧ loaded.coldVectorL0.lookup field = some l0 ∧
        p.loadProbed field l0 query = .ok got ∧ vindex = got.1 := by
  induction probes generalizing loaded with
  | nil =>
    obtain rfl := ok.inj h
    exact .inl hindex
  | cons probe probes ih =>
    obtain ⟨next, hnext, hafter⟩ := bind_eq_ok.mp h
    have hrest := ih hafter
    rcases probeField_cases hnext with ⟨rfl, -⟩ | ⟨l0, got, hl0, hgot, hvectors, htables⟩
    · exact hrest.imp_right fun ⟨query, l0, got, hmem, hfound⟩ =>
        ⟨query, l0, got, mem_cons_of_mem _ hmem, hfound⟩
    · rw [hvectors, htables, lookup_insert_ite, lookup_erase_ite] at hrest
      split at hrest
      · rename_i heq
        subst heq
        rcases hrest with hrest | ⟨_, _, _, _, hnone, _⟩
        · have hindex := (Option.some.inj hrest).symm
          exact .inr ⟨probe.2, l0, got, mem_cons_self, hl0, hgot, hindex⟩
        · cases hnone
      · exact hrest.imp_right fun ⟨query, l0, got, hmem, hfound⟩ =>
          ⟨query, l0, got, mem_cons_of_mem _ hmem, hfound⟩

/-- Every probed field that has an index or a table has an index afterwards. -/
theorem mem_of_probeFields (h : probes.foldlM p.probeField loaded = .ok after)
    (hprobed : field ∈ loaded.vectors ∨ field ∈ probes.map Prod.fst)
    (htable : field ∈ loaded.vectors ∨ field ∈ loaded.coldVectorL0) : field ∈ after.vectors := by
  induction probes generalizing loaded with
  | nil =>
    obtain rfl := ok.inj h
    exact hprobed.resolve_right not_mem_nil
  | cons probe probes ih =>
    obtain ⟨next, hnext, hrest⟩ := bind_eq_ok.mp h
    rcases probeField_cases hnext with ⟨rfl, hkept⟩ | ⟨l0, got, -, -, hvectors, htables⟩
    · refine ih hrest ?_ htable
      rw [map_cons, mem_cons] at hprobed
      rcases hprobed with hmem | rfl | hmem
      · exact .inl hmem
      · refine .inl (hkept.elim id fun hnone => htable.resolve_right ?_)
        exact lookup_eq_none.mp hnone
      · exact .inr hmem
    · apply ih hrest
      · rw [hvectors, mem_insert]
        rw [map_cons, mem_cons] at hprobed
        tauto
      · rw [hvectors, htables, mem_insert, mem_erase]
        tauto

/-- The table that a load works with. -/
def queryTable (p : ProbeEnv) (l0 : CentroidIndexL0) : CentroidIndexL0 :=
  if p.coldBatch then l0.clampProbePlanForQuery p.env.maxProbeClusters else l0

/-- Either load yields the probed index. -/
theorem eq_probedIndex_of_loadProbed {l0 : CentroidIndexL0} {got : VectorIndex × Nat}
    (h : p.loadProbed field l0 query = .ok got) :
    got.1 = probedIndex p.scores (p.queryTable l0) (p.stored field) query := by
  rw [loadProbed] at h
  rw [queryTable]
  split at h
  · rename_i hcold
    rw [if_pos hcold]
    exact congrArg Prod.fst (fetchColdVectorProbed_eq h)
  · rename_i hwarm
    rw [if_neg hwarm]
    exact congrArg Prod.fst (ok.inj h).symm

/-- What is loaded for a field is what the last probe of the field needs. -/
theorem lookup_of_finish {tables cold : HashMap String CentroidIndexL0}
    (hcold : p.coldTables { coldVectorL0 := tables } = .ok cold)
    (h : p.finishColdVectorProbes { coldVectorL0 := tables } probes = .ok loaded)
    (field : String) :
    loaded.vectors.lookup field = ((byField probes).lookup field).bind fun last =>
      (cold.lookup field).map fun l0 =>
        probedIndex p.scores (p.queryTable l0) (p.stored field) last := by
  rw [finishColdVectorProbes] at h
  split at h
  · rename_i hempty
    obtain rfl := ok.inj h
    rw [isEmpty_iff.mp hempty]
    rfl
  · obtain ⟨tables', htables, h⟩ := bind_eq_ok.mp h
    obtain rfl := ok.inj (hcold.symm.trans htables)
    split at h
    · rename_i hnone
      obtain rfl := ok.inj h
      have hfield : cold.lookup field = none :=
        lookup_eq_none.mpr fun hmem => Finset.notMem_empty field (hnone ▸ mem_keys.mpr hmem)
      rw [hfield]
      cases (byField probes).lookup field <;> rfl
    · cases hindex : loaded.vectors.lookup field with
      | none =>
        symm
        rw [Option.bind_eq_none_iff]
        intro last hlast
        rw [Option.map_eq_none_iff, lookup_eq_none]
        intro htable
        have hprobed : (field, last) ∈ iter p.order (byField probes) := mem_iter.mpr hlast
        exact lookup_eq_none.mp hindex
          (mem_of_probeFields h (.inr (mem_map_of_mem hprobed)) (.inr htable))
      | some vindex =>
        rcases lookup_of_probeFields h hindex with hold | ⟨query, l0, got, hmem, hl0, hgot, rfl⟩
        · cases hold
        · rw [mem_iter.mp hmem, Option.bind_some, hl0, eq_probedIndex_of_loadProbed hgot]
          rfl

end ProbeEnv

/-! ## Candidates from probed and from whole indexes -/

def QueryPlanner.withVectors (planner : QueryPlanner) (vectors : HashMap String VectorIndex) :
    QueryPlanner :=
  { planner with ctx := { planner.ctx with vectors } }

/-- The whole index of every loaded field, with the table that was loaded. -/
def LoadedVectors.whole (loaded : LoadedVectors) (stored : String → StoredVectorIndex) :
    HashMap String VectorIndex :=
  loaded.vectors.filterMap fun field vindex => some ((stored field).whole vindex.l0)

/-- Every vector ranker of a tree finds the candidates that it finds in whole
indexes. -/
def ProbeEnv.ServesWhole (p : ProbeEnv) (loaded : LoadedVectors) (ranker : Ranker) : Prop :=
  ∀ field query, ranker.HasVector field query →
    ∀ (o : IterOrder String) (planner : QueryPlanner) (stats : QueryStats),
      (collectVectorCandidates o p.scores (planner.withVectors loaded.vectors) stats field query).1
        = (collectVectorCandidates o p.scores (planner.withVectors (loaded.whole p.stored)) stats
            field query).1

theorem LoadedVectors.lookup_whole (loaded : LoadedVectors) (stored : String → StoredVectorIndex)
    (field : String) : (loaded.whole stored).lookup field
      = (loaded.vectors.lookup field).map fun vindex => (stored field).whole vindex.l0 := by
  rw [LoadedVectors.whole, lookup_filterMap]
  cases loaded.vectors.lookup field <;> rfl

/-- Candidates depend on the indexes only through the answers that the one of the field
gives. -/
theorem collectVectorCandidates_congr (o : IterOrder String) {s : Scorer} (planner : QueryPlanner)
    (stats : QueryStats) {vectors' : HashMap String VectorIndex} {vindex vindex' : VectorIndex}
    (hindex : vectors.lookup field = some vindex) (hindex' : vectors'.lookup field = some vindex')
    (hl0 : vindex.l0 = vindex'.l0)
    (hsegments : vindex.probedSegments s query = vindex'.probedSegments s query) :
    collectVectorCandidates o s (planner.withVectors vectors) stats field query
      = collectVectorCandidates o s (planner.withVectors vectors') stats field query := by
  obtain ⟨hpool, hann⟩ := answers_congr s hl0 hsegments
  have hindexed : indexedVectorCandidates o s (planner.withVectors vectors) field query
      = indexedVectorCandidates o s (planner.withVectors vectors') field query := by
    simp only [indexedVectorCandidates, QueryPlanner.withVectors, hindex, hindex', hl0, hpool, hann]
    rfl
  rw [collectVectorCandidates, collectVectorCandidates, hindexed]
  simp only [QueryPlanner.withVectors, hindex, hindex']
  rfl

/-- An eventual query that takes the whole pool. -/
def poolOnly : QueryPlanner where
  ctx := { docs := ∅, consistency := .eventual, annRerank := some true }
  candidatePool := 80

/-- The candidates of this query are the pool of the index. -/
theorem candidates_of_pool {s : Scorer} {vindex : VectorIndex}
    (hindex : vectors.lookup field = some vindex) (hlength : query.length = vindex.l0.dimensions) :
    (collectVectorCandidates (.sorted String) s (poolOnly.withVectors vectors) {} field query).1
      = vindex.annPoolDocIds s query := by
  simp only [collectVectorCandidates, indexedVectorCandidates, QueryPlanner.withVectors, hindex,
    if_pos hlength]
  simp [poolOnly, QueryContext.forEachTail, QueryContext.annRerankEnabled,
    QueryContext.insertIndexed, QueryContext.useTail]

/-! ## Several query vectors on one field -/

/-- For every ranker of a tree, the load for the last query vector of its field covers its
own query vector, under the table of the field. -/
def ProbeEnv.CoversTree (p : ProbeEnv) (cold : HashMap String CentroidIndexL0) (ranker : Ranker) :
    Prop :=
  ∀ field query, ranker.HasVector field query →
    ∀ last l0, (byField ranker.vectorProbeSpecs).lookup field = some last →
      cold.lookup field = some l0 →
        LoadCovers p.scores (p.queryTable l0) (p.stored field) query last

/-- No vector ranker of a tree reaches a document in two clusters. -/
def ProbeEnv.OneClusterTree (p : ProbeEnv) (cold : HashMap String CentroidIndexL0)
    (ranker : Ranker) : Prop :=
  ∀ field query, ranker.HasVector field query → ∀ l0, cold.lookup field = some l0 →
    OneCluster p.scores (p.queryTable l0) (p.stored field) query

/-- Every vector ranker of a tree finds the candidates that it finds in whole indexes, if
the load for the last query vector of its field covers it, and only if it does, where no
document is in two clusters. -/
theorem probed_transparent {p : ProbeEnv} {tables cold : HashMap String CentroidIndexL0}
    {ranker : Ranker} {loaded : LoadedVectors}
    (hcold : p.coldTables { coldVectorL0 := tables } = .ok cold)
    (hload : p.finishColdVectorProbes { coldVectorL0 := tables } ranker.vectorProbeSpecs
      = .ok loaded) :
    (p.CoversTree cold ranker → p.ServesWhole loaded ranker) ∧
      (p.OneClusterTree cold ranker → p.ServesWhole loaded ranker → p.CoversTree cold ranker) := by
  refine ⟨fun hcovers field query hquery o planner stats => ?_,
    fun hone hserves field query hquery last l0 hlast hl0 => ?_⟩
  · have hlookup := ProbeEnv.lookup_of_finish hcold hload field
    have hwhole := loaded.lookup_whole p.stored field
    cases hindex : loaded.vectors.lookup field with
    | none =>
      rw [hindex] at hwhole
      simp only [collectVectorCandidates, indexedVectorCandidates, QueryPlanner.withVectors, hindex,
        hwhole]
      rfl
    | some vindex =>
      rw [hindex] at hlookup hwhole
      obtain ⟨last, hlast, hvindex⟩ := Option.bind_eq_some_iff.mp hlookup.symm
      obtain ⟨l0, hl0, rfl⟩ := Option.map_eq_some_iff.mp hvindex
      have hsegments :=
        probedSegments_of_covers p.scores (hcovers field query hquery last l0 hlast hl0)
      rw [collectVectorCandidates_congr o planner stats hindex hwhole rfl hsegments]
  · have hindex := ProbeEnv.lookup_of_finish hcold hload field
    have hwhole := loaded.lookup_whole p.stored field
    rw [hlast, Option.bind_some, hl0, Option.map_some] at hindex
    rw [hindex, Option.map_some] at hwhole
    by_cases hlength : query.length = (p.queryTable l0).dimensions
    · have heq := hserves field query hquery (.sorted String) poolOnly {}
      rw [candidates_of_pool hindex hlength, candidates_of_pool hwhole hlength] at heq
      exact covers_of_annPool _ _ _ _ _ (hone field query hquery l0 hl0) heq
    · intro f hf
      exact absurd ((mem_probe_whole _ _ _ _).mp hf).1 hlength

/-! ## A large and a small index -/

/-- A namespace of two fields, read without a cache. -/
def coldNamespace : ProbeEnv where
  coldBatch := true
  stored := fun field =>
    if field = "emb" then eastAndNorth
    else
      { l1 := VectorIndex.threePoints.l1
        clusters := VectorIndex.threePoints.clusters
        l2_ids := l2_ids_empty }

def coldL0 : HashMap String CentroidIndexL0 :=
  ((∅ : HashMap String CentroidIndexL0).insert "emb" fiveCells).insert "v"
    VectorIndex.threePoints.l0

/-- Two query vectors on each field, close to each other on the large index. -/
def nearVectors : Ranker :=
  .sum [.vector "emb" [.num 0, .num 9], .vector "v" [.num 2], .product [.bm25 "text" "north",
    .vector "emb" [.num 0, .num 10], .vector "v" [.num 7]]]

theorem nearVectors_served :
    ∃ loaded, coldNamespace.finishColdVectorProbes { coldVectorL0 := coldL0 }
        nearVectors.vectorProbeSpecs = .ok loaded ∧
      ("emb" ∈ loaded.vectors ∧ "v" ∈ loaded.vectors) ∧
      coldNamespace.ServesWhole loaded nearVectors := by
  have hrun : ((coldNamespace.finishColdVectorProbes { coldVectorL0 := coldL0 }
      nearVectors.vectorProbeSpecs).toOption.map fun loaded =>
        decide ("emb" ∈ loaded.vectors ∧ "v" ∈ loaded.vectors)) = some true := by
    decide +kernel
  obtain ⟨loaded, hloaded, hmem⟩ := Option.map_eq_some_iff.mp hrun
  have hfinish := toOption_eq_some.mp hloaded
  refine ⟨loaded, hfinish, of_decide_eq_true hmem, (probed_transparent rfl hfinish).1 ?_⟩
  have hemb (query : Vec) (hquery : query = [.num 0, .num 9] ∨ query = [.num 0, .num 10]) :
      LoadCovers scorer (coldNamespace.queryTable fiveCells) eastAndNorth query
        [.num 0, .num 10] := by
    rcases hquery with rfl | rfl
    · decide +kernel
    · exact covers_self _ _ _ _
  have hv (query : Vec) : LoadCovers scorer (coldNamespace.queryTable VectorIndex.threePoints.l0)
      (coldNamespace.stored "v") query [.num 7] :=
    covers_of_small (VectorIndex.Layout.complete (by decide +kernel)) rfl (by decide) rfl
  intro field query hquery last l0 hlast hl0
  have hspec : (field = "emb" ∧ (query = [.num 0, .num 9] ∨ query = [.num 0, .num 10])) ∨
      field = "v" := by
    have hmem := Ranker.mem_vectorProbeSpecs.mpr hquery
    simp [nearVectors, Ranker.vectorProbeSpecs, Ranker.collectVectorProbeSpecs,
      Ranker.collectSubs] at hmem
    tauto
  rcases hspec with ⟨rfl, hspec⟩ | rfl
  · obtain rfl : [.num 0, .num 10] = last := Option.some.inj hlast
    obtain rfl : fiveCells = l0 := Option.some.inj hl0
    exact hemb query hspec
  · obtain rfl : [.num 7] = last := Option.some.inj hlast
    obtain rfl : VectorIndex.threePoints.l0 = l0 := Option.some.inj hl0
    exact hv query

/-- A strong query over the two documents. -/
def twoDocs : QueryPlanner where
  ctx :=
    { docs := ((∅ : DocMap).insert "east" ((∅ : Attributes).insert "emb"
        (.arr [.num (.posInt 10), .num (.posInt 0)]))).insert "north" ((∅ : Attributes).insert "emb"
        (.arr [.num (.posInt 0), .num (.posInt 10)])) }
  candidatePool := 80

/-- Two rankers on one field that ask for different vectors. -/
def apart : Ranker := .sum [.vector "emb" [.num 10, .num 0], .vector "emb" [.num 0, .num 10]]

/-- The first ranker does not find the document next to its vector. -/
theorem apart_loses_east :
    apart.HasVector "emb" [.num 10, .num 0] ∧
      ∃ loaded, coldNamespace.finishColdVectorProbes { coldVectorL0 := coldL0 }
          apart.vectorProbeSpecs = .ok loaded ∧
        (collectVectorCandidates (.sorted String) scorer (twoDocs.withVectors loaded.vectors) {}
          "emb" [.num 10, .num 0]).1 = ∅ ∧
        (collectVectorCandidates (.sorted String) scorer
          (twoDocs.withVectors (loaded.whole coldNamespace.stored)) {} "emb"
          [.num 10, .num 0]).1 = {"east"} := by
  have hrun : ((coldNamespace.finishColdVectorProbes { coldVectorL0 := coldL0 }
      apart.vectorProbeSpecs).toOption.map fun loaded =>
        decide ((collectVectorCandidates (.sorted String) scorer
          (twoDocs.withVectors loaded.vectors) {} "emb" [.num 10, .num 0]).1 = ∅ ∧
        (collectVectorCandidates (.sorted String) scorer
          (twoDocs.withVectors (loaded.whole coldNamespace.stored)) {} "emb"
          [.num 10, .num 0]).1 = {"east"})) = some true := by
    decide +kernel
  obtain ⟨loaded, hloaded, hfacts⟩ := Option.map_eq_some_iff.mp hrun
  exact ⟨.sum mem_cons_self .here, loaded, toOption_eq_some.mp hloaded,
    of_decide_eq_true hfacts⟩

end OpenPuffer
