import OpenPuffer.Search.Execute
import OpenPuffer.Vector.Coverage
import OpenPuffer.Vector.Exhaustive

/-!
# Filtered vector search

An index with at most 32 fine centroids is read whole.  Without a re-rank a vector query on it
is still not exact: the index is asked for the best `max (8 * top_k) 64` documents *before* the
filter is applied and the documents of the tail are taken out.  A query returns the best `top_k`
of the matching documents if and only if the whole pool is re-ranked, or each of them is in the
tail or among the best of the index (`filtered_search_exact_iff`).
-/

namespace OpenPuffer

/-! ## What a query asks for -/

/-- A request asks for the best documents by one vector ranker. -/
structure QueryRequest.AsksVector (req : QueryRequest) (filter : Option FilterExpr) (topK : Nat)
    (field : String) (query : Vec) : Prop where
  filter : parseOptional (fun v => (parseFilter v).mapError .filter) req.filters = .ok filter
  topK : parseTopK req.topK = .ok topK
  consistency : QueryConsistency.parse req.consistency = .ok .strong
  ranker : parseRankBy req.rankBy = .ok (.vector field query)
  orderBy : parseOptional parseOrderBy req.orderBy = .ok none

/-- The vectors of a field are indexed in a small index, up to the tail. -/
structure QueryContext.IndexesField (ctx : QueryContext) (field : String) (idx : VectorIndex)
    (indexed : DocMap) (entries : List WalEntry) : Prop where
  index : ctx.vectors.lookup field = some idx
  layout : idx.Layout
  routing : idx.RoutingFits
  small : idx.l0.numFineTotal ≤ 32
  element : idx.l0.vectorElement = .f32
  holds : idx.members = vectorMembers field .f32 indexed
  tail : ctx.CoversTail indexed entries
  dims : ∀ id doc v, ctx.docs.get id = some doc → extractVector doc.attributes field = .ok v →
    v.length = idx.l0.dimensions

/-- The documents that satisfy the filter and have a vector in the field. -/
def matchingVectorDocs (ctx : QueryContext) (filter : Option FilterExpr) (field : String) :
    Finset String :=
  ctx.docs.idsWhere fun doc =>
    filter.all (evalFilter · doc) && (extractVector doc.attributes field).isOk

section Scored

variable {R : Type} (env : SearchEnv R Fp) (metric : DistanceMetric) (ctx : QueryContext)
  (field : String) (query : Vec)

def docScores (ids : Finset String) : List (String × Fp) :=
  (env.order.toList ids).filterMap fun id =>
    (ctx.docs.get id).map fun doc => (id, vectorRawScore env metric doc field query)

/-- The best `topK` matching documents, by score and then id. -/
def exactAnswer (filter : Option FilterExpr) (topK : Nat) : List (String × Fp) :=
  ((docScores env metric ctx field query (matchingVectorDocs ctx filter field)).insertionSort
    fun a b => rankKey Fp.place a ≤ rankKey Fp.place b).take topK

variable {env metric ctx field query}

theorem mem_docScores {ids : Finset String} {e : String × Fp} :
    e ∈ docScores env metric ctx field query ids ↔ e.1 ∈ ids ∧
      ∃ doc, ctx.docs.get e.1 = some doc ∧ e.2 = vectorRawScore env metric doc field query := by
  simp only [docScores, List.mem_filterMap, env.order.mem_toList, Option.map_eq_some_iff]
  constructor
  · rintro ⟨id, hid, doc, hdoc, rfl⟩
    exact ⟨hid, doc, hdoc, rfl⟩
  · rintro ⟨hid, doc, hdoc, hscore⟩
    exact ⟨e.1, hid, doc, hdoc, Prod.ext rfl hscore.symm⟩

theorem nodup_docScores (ids : Finset String) :
    ((docScores env metric ctx field query ids).map Prod.fst).Nodup := by
  refine nodup_filterMap_fst (env.order.nodup ids) fun id e he => ?_
  obtain ⟨doc, -, rfl⟩ := Option.map_eq_some_iff.mp he
  rfl

variable (env metric field query) in
/-- Candidates that exist are scored by their documents. -/
theorem scoreCandidates_eq_docScores [Field R] [LinearOrder R] {ids : Finset String}
    (h : ∀ id ∈ ids, id ∈ ctx.docs) :
    (if ids = ∅ then [] else scoreCandidates env metric ctx ids (.vector field query))
      = docScores env metric ctx field query ids := by
  split
  · rename_i hempty
    rw [docScores, hempty, List.eq_nil_iff_forall_not_mem.mpr fun id hid =>
      absurd ((env.order.mem_toList ∅ id).mp hid) (Finset.notMem_empty id)]
    rfl
  · rw [scoreCandidates, docScores]
    refine List.filterMap_congr fun id hid => ?_
    obtain ⟨doc, hdoc⟩ := DocMap.mem_iff_get.mp (h id ((env.order.mem_toList _ _).mp hid))
    simp only [hdoc, Option.map_some]

end Scored

/-! ## The candidates of a strong vector query -/

section Candidates

variable {ctx : QueryContext} {field : String} {idx : VectorIndex} {indexed : DocMap}
  {entries : List WalEntry}

/-- An index and a tail that are there for a strong query are there for the context. -/
theorem QueryContext.IndexesField.strong (h : ctx.IndexesField field idx indexed entries) :
    QueryContext.IndexesField { ctx with consistency := .strong } field idx indexed entries :=
  ⟨h.index, h.layout, h.routing, h.small, h.element, h.holds, ⟨h.tail.docs, h.tail.tail⟩, h.dims⟩

/-- Outside the tail, the members are the documents with a vector. -/
theorem QueryContext.IndexesField.mem_members (h : ctx.IndexesField field idx indexed entries)
    {id : String} (hid : id ∉ ctx.tailDocIds) :
    id ∈ idx.members.map ClusterMember.docId ↔
      ∃ doc, ctx.docs.get id = some doc ∧ (extractVector doc.attributes field).isOk = true := by
  rw [h.holds, Multiset.mem_map, h.tail.get_eq hid]
  constructor
  · rintro ⟨m, hm, rfl⟩
    obtain ⟨doc, v, hdoc, hv, -⟩ := mem_vectorMembers.mp hm
    exact ⟨doc, hdoc, by rw [hv]; rfl⟩
  · rintro ⟨doc, hdoc, hok⟩
    cases hv : extractVector doc.attributes field with
    | error e =>
      rw [hv] at hok
      cases hok
    | ok v =>
      refine ⟨.fromValues id v .f32, mem_vectorMembers.mpr ⟨doc, v, ?_, hv, ?_⟩,
        docId_fromValues id v .f32⟩
      · rw [docId_fromValues]
        exact hdoc
      · rw [docId_fromValues]

/-- What the index is asked for. -/
def foundIds (s : Scorer) (o : IterOrder String) (idx : VectorIndex) (query : Vec) (rerank : Bool)
    (pool : Nat) : Finset String :=
  if rerank then idx.annPoolDocIds s query
  else ((idx.queryAnn s o query pool).map Prod.fst).toFinset

theorem foundIds_subset {s : Scorer} {o : IterOrder String} {query : Vec} {rerank : Bool}
    {pool : Nat} {id : String} (h : id ∈ foundIds s o idx query rerank pool) :
    id ∈ idx.annPoolDocIds s query := by
  rw [foundIds] at h
  split at h
  · exact h
  · obtain ⟨e, he, rfl⟩ := List.mem_map.mp (List.mem_toFinset.mp h)
    exact VectorIndex.queryAnn_mem_pool s he

section Collected

variable {R : Type} [Field R] [LinearOrder R] {env : SearchEnv R Fp} {query : Vec} {pool : Nat}

/-- A strong query collects documents with a vector: those of the tail, and those that
the index finds. -/
theorem mem_collectCandidates (h : ctx.IndexesField field idx indexed entries)
    (hstrong : ctx.consistency = .strong) (hquery : query.length = idx.l0.dimensions)
    {id : String} :
    id ∈ (collectCandidates env ⟨ctx, pool, env.annRerankFromEnv⟩ {} (.vector field query)).1 ↔
      (∃ doc, ctx.docs.get id = some doc ∧ (extractVector doc.attributes field).isOk = true) ∧
      (id ∈ ctx.tailDocIds ∨
        id ∈ foundIds env.scores env.order idx query
          (ctx.annRerankEnabled env.annRerankFromEnv) pool) := by
  have hvector : ∀ doc, ctx.docs.get id = some doc →
      (hasVectorOf field query.length doc = true ↔
        (extractVector doc.attributes field).isOk = true) := by
    intro doc hdoc
    rw [hasVectorOf]
    cases hv : extractVector doc.attributes field with
    | error e => exact Iff.rfl
    | ok v => simp [h.dims id doc v hdoc hv, hquery, Except.toBool]
  have hindexed : indexedVectorCandidates env.order env.scores ⟨ctx, pool, env.annRerankFromEnv⟩
      field query = ctx.insertIndexed ∅ (foundIds env.scores env.order idx query
        (ctx.annRerankEnabled env.annRerankFromEnv) pool) := by
    simp only [indexedVectorCandidates, h.index, hquery, if_true, foundIds]
    split
    · rfl
    · rfl
  have hcollected : id ∈ (collectVectorCandidates env.order env.scores
      ⟨ctx, pool, env.annRerankFromEnv⟩ {} field query).1 ↔
      (id ∈ foundIds env.scores env.order idx query
        (ctx.annRerankEnabled env.annRerankFromEnv) pool ∧ id ∉ ctx.tailDocIds) ∨
      (id ∈ ctx.tailDocIds ∧ id ∈ ctx.docs.idsWhere (hasVectorOf field query.length)) := by
    simp only [collectVectorCandidates, h.index, Option.isNone_some, Bool.false_eq_true,
      false_and, if_false]
    rw [QueryContext.mem_forEachTail hstrong, hindexed, QueryContext.mem_insertIndexed hstrong]
    simp
  simp only [collectCandidates]
  rw [QueryContext.mem_filterExistingDocs hstrong, hcollected, DocMap.mem_idsWhere]
  by_cases htail : id ∈ ctx.tailDocIds
  · simp only [htail, not_true, and_false, false_or, true_and, true_or, and_true]
    constructor
    · rintro ⟨⟨doc, hdoc, hv⟩, -⟩
      exact ⟨doc, hdoc, (hvector doc hdoc).mp hv⟩
    · rintro ⟨doc, hdoc, hv⟩
      exact ⟨⟨doc, hdoc, (hvector doc hdoc).mpr hv⟩, DocMap.mem_iff_get.mpr ⟨doc, hdoc⟩⟩
  · simp only [htail, not_false_eq_true, and_true, false_and, or_false, false_or]
    constructor
    · rintro ⟨hfound, -⟩
      have hmember := (h.layout.mem_annPoolDocIds h.small
        (h.layout.l2Parts_le h.routing h.small) hquery).mp (foundIds_subset hfound)
      exact ⟨(h.mem_members htail).mp hmember, hfound⟩
    · rintro ⟨⟨doc, hdoc, -⟩, hfound⟩
      exact ⟨hfound, DocMap.mem_iff_get.mpr ⟨doc, hdoc⟩⟩

def allowedIds (ctx : QueryContext) (filter : Option FilterExpr) (ids : Finset String) :
    Finset String :=
  match filter with
  | none => ids
  | some expr => ids ∩ ctx.docs.idsWhere (evalFilter expr)

theorem mem_allowedIds {filter : Option FilterExpr} {ids : Finset String} {id : String}
    {doc : Document} (hdoc : ctx.docs.get id = some doc) :
    id ∈ allowedIds ctx filter ids ↔ id ∈ ids ∧ filter.all (evalFilter · doc) = true := by
  cases filter with
  | none => simp [allowedIds]
  | some expr =>
    rw [allowedIds, Finset.mem_inter, DocMap.mem_idsWhere]
    simp [hdoc]

theorem validateQueryVectorDims_of_index (m : NamespaceMeta)
    (hindex : ctx.vectors.lookup field = some idx) (hquery : query.length = idx.l0.dimensions) :
    validateQueryVectorDims m ctx field query = .ok () := by
  simp [validateQueryVectorDims, hindex, hquery]

theorem runQuery_vector_rows (m : NamespaceMeta) (harith : env.arith = .binary64)
    (h : ctx.IndexesField field idx indexed entries) (hstrong : ctx.consistency = .strong)
    (hquery : query.length = idx.l0.dimensions) {filter : Option FilterExpr}
    (hmatch : ∀ expr, filter = some expr → matchingDocIdsForFilter env.order ctx expr
      = some (ctx.docs.idsWhere (evalFilter expr))) (topK : Nat) :
    (runQuery env m ctx filter topK (.vector field query) none).map QueryResponse.rows
      = .ok ((sortRanked (docScores env m.distanceMetric ctx field query
        (allowedIds ctx filter (collectCandidates env
          ⟨ctx, max (saturatingMul topK 8) 64, env.annRerankFromEnv⟩ {}
          (.vector field query)).1))).take topK) := by
  have hretain (ids : Finset String) :
      retainAllowed env ctx filter ids = .ok (allowedIds ctx filter ids) := by
    cases filter with
    | none => rfl
    | some expr => rw [retainAllowed, hmatch expr rfl, allowedIds]
  have hexist : ∀ id ∈ allowedIds ctx filter (collectCandidates env
      ⟨ctx, max (saturatingMul topK 8) 64, env.annRerankFromEnv⟩ {} (.vector field query)).1,
      id ∈ ctx.docs := by
    intro id hid
    have hcollected : id ∈ (collectCandidates env
        ⟨ctx, max (saturatingMul topK 8) 64, env.annRerankFromEnv⟩ {} (.vector field query)).1 := by
      cases filter with
      | none => exact hid
      | some expr => exact (Finset.mem_inter.mp hid).1
    obtain ⟨⟨doc, hdoc, -⟩, -⟩ := (mem_collectCandidates h hstrong hquery).mp hcollected
    exact DocMap.mem_iff_get.mpr ⟨doc, hdoc⟩
  have hscored := scoreCandidates_eq_docScores env m.distanceMetric field query hexist
  simp only [runQuery, validateRankerVectorDims, validateQueryVectorDims_of_index m h.index hquery,
    hretain, bind, Except.bind, hscored, harith]
  rfl

end Collected

/-! ## Exact answers -/

section Answer

variable {R : Type} {env : SearchEnv R Fp} {metric : DistanceMetric} {query : Vec}
  {filter : Option FilterExpr}

theorem mem_matchingVectorDocs {id : String} {doc : Document} (hdoc : ctx.docs.get id = some doc) :
    id ∈ matchingVectorDocs ctx filter field ↔
      filter.all (evalFilter · doc) = true ∧ (extractVector doc.attributes field).isOk = true := by
  rw [matchingVectorDocs, DocMap.mem_idsWhere]
  simp [hdoc]

variable (filter) in
/-- The scores of the matching documents compare. -/
theorem ranks_docScores (hidx : ctx.IndexesField field idx indexed entries)
    (hquery : query.length = idx.l0.dimensions)
    (hnum : ∀ id doc v, ctx.docs.get id = some doc → extractVector doc.attributes field = .ok v →
      env.scoreVector query v metric ≠ .nan) :
    TopK.Ranks (fun a b => rankCmp a b ≠ .gt) (rankKey Fp.place)
      (docScores env metric ctx field query (matchingVectorDocs ctx filter field)) := by
  have hscores : ∀ e ∈ docScores env metric ctx field query
      (matchingVectorDocs ctx filter field), e.2 ≠ .nan := by
    intro e he
    obtain ⟨hmem, doc, hdoc, hscore⟩ := mem_docScores.mp he
    have hok := ((mem_matchingVectorDocs hdoc).mp hmem).2
    rw [hscore, vectorRawScore]
    cases hv : extractVector doc.attributes field with
    | error e =>
      rw [hv] at hok
      cases hok
    | ok v =>
      simp only [hidx.dims _ doc v hdoc hv, hquery, if_true]
      exact hnum _ doc v hdoc hv
  exact ranks_rankCmp
    (fun a ha b hb => Fp.partialCmp_eq_compare (hscores a ha) (hscores b hb)) (nodup_docScores _)

variable [Field R] [LinearOrder R] {pool : Nat}

section

variable (hidx : ctx.IndexesField field idx indexed entries)

include hidx

variable (env filter pool) in
/-- Of the matching documents, a strong query keeps those of the tail and those that the
index finds. -/
theorem mem_allowedIds_collected
    (hstrong : ctx.consistency = .strong) (hquery : query.length = idx.l0.dimensions)
    (id : String) :
    id ∈ allowedIds ctx filter (collectCandidates env ⟨ctx, pool, env.annRerankFromEnv⟩ {}
        (.vector field query)).1 ↔
      id ∈ matchingVectorDocs ctx filter field ∧
        (id ∈ ctx.tailDocIds ∨ id ∈ foundIds env.scores env.order idx query
          (ctx.annRerankEnabled env.annRerankFromEnv) pool) := by
  cases hdoc : ctx.docs.get id with
  | none =>
    have hcollected : id ∉ (collectCandidates env ⟨ctx, pool, env.annRerankFromEnv⟩ {}
        (.vector field query)).1 := by
      rw [mem_collectCandidates hidx hstrong hquery]
      simp [hdoc]
    have hmatching : id ∉ matchingVectorDocs ctx filter field := by
      rw [matchingVectorDocs, DocMap.mem_idsWhere]
      simp [hdoc]
    have hallowed : id ∉ allowedIds ctx filter (collectCandidates env
        ⟨ctx, pool, env.annRerankFromEnv⟩ {} (.vector field query)).1 := by
      cases filter with
      | none => exact hcollected
      | some expr => exact fun hid => hcollected (Finset.mem_inter.mp hid).1
    exact iff_of_false hallowed fun h => hmatching h.1
  | some doc =>
    rw [mem_allowedIds hdoc, mem_collectCandidates hidx hstrong hquery,
      mem_matchingVectorDocs hdoc]
    simp only [hdoc, Option.some.injEq, exists_eq_left']
    tauto

/-- With a re-rank the index finds every document outside the tail. -/
theorem mem_foundIds_rerank
    (hquery : query.length = idx.l0.dimensions) {s : Scorer} {o : IterOrder String} {id : String}
    (hid : id ∈ matchingVectorDocs ctx filter field) (htail : id ∉ ctx.tailDocIds) :
    id ∈ foundIds s o idx query true pool := by
  obtain ⟨doc, hdoc, hboth⟩ := DocMap.mem_idsWhere.mp hid
  refine (hidx.layout.mem_annPoolDocIds hidx.small
    (hidx.layout.l2Parts_le hidx.routing hidx.small) hquery).mpr ?_
  exact (hidx.mem_members htail).mpr ⟨doc, hdoc, (Bool.and_eq_true_iff.mp hboth).2⟩

/-- Without one it finds its best members. -/
theorem foundIds_of_no_rerank
    (hquery : query.length = idx.l0.dimensions) {s : Scorer} {o : IterOrder String}
    (hnum : ∀ mem ∈ idx.members, idx.memberScore s query mem ≠ .nan) (hpool : pool ≤ u64Max) :
    foundIds s o idx query false pool
      = ((idx.exactTopK s Fp.place query pool).map Prod.fst).toFinset := by
  have honce : (idx.members.map ClusterMember.docId).Nodup := by
    rw [hidx.holds]
    exact nodup_vectorMembers indexed
  rw [foundIds, hidx.layout.queryAnn_exhaustive s Fp.place o hidx.small
    (hidx.layout.l2Parts_le hidx.routing hidx.small) honce hquery
    (fun m hm m' hm' => Fp.partialCmp_eq_compare (hnum m hm) (hnum m' hm')) hpool]
  rfl

end

end Answer

/-- A strong query by one vector ranker on a small index returns the best matching
documents if and only if it re-ranks, or each of them is in the tail or in the pool that
is taken from the index before the filter. -/
theorem filtered_search_exact_iff {R : Type} [Field R] [LinearOrder R] (env : SearchEnv R Fp)
    (harith : env.arith = .binary64) (m : NamespaceMeta) {req : QueryRequest}
    {filter : Option FilterExpr} {topK : Nat} {query : Vec}
    (hreq : req.AsksVector filter topK field query)
    (hidx : ctx.IndexesField field idx indexed entries)
    (hquery : query.length = idx.l0.dimensions)
    (hmatch : ∀ expr, filter = some expr →
      matchingDocIdsForFilter env.order { ctx with consistency := .strong } expr
        = some (ctx.docs.idsWhere (evalFilter expr)))
    (hnum : ∀ id doc v, ctx.docs.get id = some doc → extractVector doc.attributes field = .ok v →
      env.scoreVector query v m.distanceMetric ≠ .nan)
    (hindexed : ∀ mem ∈ idx.members, idx.memberScore env.scores query mem ≠ .nan) :
    (executeQuery env m ctx req).map QueryResponse.rows
        = .ok (exactAnswer env m.distanceMetric ctx field query filter topK) ↔
      ctx.annRerankEnabled env.annRerankFromEnv = true ∨
        ∀ e ∈ exactAnswer env m.distanceMetric ctx field query filter topK,
          e.1 ∈ ctx.tailDocIds ∨ e.1 ∈ (idx.exactTopK env.scores Fp.place query
            (max (saturatingMul topK 8) 64)).map Prod.fst := by
  have hstrong := hidx.strong
  have hexec : executeQuery env m ctx req = runQuery env m { ctx with consistency := .strong }
      filter topK (.vector field query) none := by
    simp only [executeQuery, hreq.filter, hreq.topK, hreq.consistency, hreq.ranker, hreq.orderBy,
      bind, Except.bind]
  have hpool : max (saturatingMul topK 8) 64 ≤ u64Max := by
    rw [saturatingMul, u64Max]
    omega
  have hranks := ranks_docScores filter hidx hquery hnum
  have hkept := mem_allowedIds_collected env filter (max (saturatingMul topK 8) 64) hstrong rfl
    hquery
  rw [hexec, runQuery_vector_rows m harith hstrong rfl hquery hmatch, Except.ok.injEq,
    exactAnswer, ← hranks.insertionSort_eq]
  refine (hranks.take_eq_iff (fun e he => ?_) (nodup_rankKey (nodup_docScores _)) topK).trans ?_
  · obtain ⟨hid, hscore⟩ := mem_docScores.mp he
    exact mem_docScores.mpr ⟨((hkept _).mp hid).1, hscore⟩
  have hcandidate : ∀ e ∈ ((docScores env m.distanceMetric ctx field query
      (matchingVectorDocs ctx filter field)).insertionSort
        fun a b => rankCmp a b ≠ .gt).take topK,
      (e ∈ docScores env m.distanceMetric { ctx with consistency := .strong } field query
        (allowedIds { ctx with consistency := .strong } filter (collectCandidates env
          ⟨{ ctx with consistency := .strong }, max (saturatingMul topK 8) 64,
            env.annRerankFromEnv⟩ {} (.vector field query)).1) ↔
      e.1 ∈ ctx.tailDocIds ∨ e.1 ∈ foundIds env.scores env.order idx query
        (ctx.annRerankEnabled env.annRerankFromEnv) (max (saturatingMul topK 8) 64)) := by
    intro e he
    obtain ⟨hid, hscore⟩ := mem_docScores.mp ((hranks.mem_take e topK).mp he).1
    rw [mem_docScores, hkept]
    constructor
    · exact fun h => h.1.2
    · exact fun h => ⟨⟨hid, h⟩, hscore⟩
  rw [forall₂_congr hcandidate]
  cases hrerank : ctx.annRerankEnabled env.annRerankFromEnv with
  | true =>
    refine iff_of_true (fun e he => ?_) (.inl rfl)
    obtain ⟨hid, -⟩ := mem_docScores.mp ((hranks.mem_take e topK).mp he).1
    by_cases htail : e.1 ∈ ctx.tailDocIds
    · exact .inl htail
    · exact .inr (mem_foundIds_rerank hidx hquery hid htail)
  | false =>
    rw [foundIds_of_no_rerank hidx hquery hindexed hpool]
    simp only [List.mem_toFinset, Bool.false_eq_true, false_or]

end Candidates

/-! ## Queries on points -/

/-- Double precision, with the iteration orders of sorted maps. -/
def floatEnv : SearchEnv Rat Fp where
  order := .sorted String
  clusterOrder := .sorted Nat
  text := asciiEnv
  isWhitespace := Char.isWhitespace
  ln := subOne
  ofBm25 := Format.binary64.round
  scores := scorer
  arith := .binary64
  scoreVector := scoreVector
  scoreVectorF32 := scoreVectorF32

/-- A map has finitely many vectors. -/
theorem forall_vectors {docs : DocMap} {field : String} {P : Vec → Prop}
    (h : ∀ id ∈ docs.keys, ∀ doc ∈ docs.get id,
      ∀ v ∈ (extractVector doc.attributes field).toOption, P v)
    (id : String) (doc : Document) (v : Vec) (hdoc : docs.get id = some doc)
    (hv : extractVector doc.attributes field = .ok v) : P v :=
  h id (Finmap.mem_keys.mpr (DocMap.mem_iff_get.mpr ⟨doc, hdoc⟩)) doc hdoc v
    (toOption_eq_some.mpr hv)

/-- A document at a point, with or without the tag that is asked for. -/
def pointAttrs (x : Nat) (tagged : Bool) : Attributes :=
  let attrs := (∅ : Attributes).insert "emb" (.arr [.num (.posInt x)])
  if tagged then attrs.insert "tag" (.str "x") else attrs

def onePointCluster (points : List (String × Nat)) : VectorIndex where
  l0 :=
    { vectorField := "emb", dimensions := 1, numCoarse := 1, numFineTotal := 1
      fineCounts := [1], centroids := [[.num 0]], distanceMetric := .euclideanSquared }
  l1 := (∅ : HashMap Nat CentroidIndexL1).insert 0 ⟨0, 0, 0, 1, [[.num 0]]⟩
  clusters := (∅ : HashMap Nat ClusterSegment).insert 0
    { members := points.map fun p => ⟨p.1, [.num p.2], none⟩ }

def euclideanMeta : NamespaceMeta := { distanceMetric := .euclideanSquared }

/-- The best tagged document by distance from zero. -/
def nearestTagged : QueryRequest where
  rankBy := .arr [.str "vector", .str "ANN", .str "emb", .arr [.num (.posInt 0)]]
  topK := some 1
  filters := some (.arr [.str "tag", .str "Eq", .str "x"])

def taggedFilter : FilterExpr := .cmp "tag" .eq (.string "x")

theorem nearestTagged_asks :
    nearestTagged.AsksVector (some taggedFilter) 1 "emb" [.num 0] :=
  ⟨rfl, rfl, rfl, rfl, rfl⟩

/-- Indexed points, and documents that are written after them. -/
def pointContext (indexed : DocMap) (points : List (String × Nat)) (entry : WalEntry) :
    QueryContext where
  docs := applyEntry indexed entry
  vectors := (∅ : HashMap String VectorIndex).insert "emb" (onePointCluster points)
  tailDocIds := walTouchedDocIds [entry]

theorem pointContext_indexes {indexed : DocMap} {points : List (String × Nat)} {entry : WalEntry}
    (hholds : ((points.map fun p => ⟨p.1, [.num p.2], none⟩ : List ClusterMember) :
      Multiset ClusterMember) = vectorMembers "emb" .f32 indexed)
    (hdims : ∀ id ∈ (applyEntry indexed entry).keys, ∀ doc ∈ (applyEntry indexed entry).get id,
      ∀ v ∈ (extractVector doc.attributes "emb").toOption, v.length = 1) :
    (pointContext indexed points entry).IndexesField "emb" (onePointCluster points) indexed
      [entry] where
  index := HashMap.lookup_insert_ite _ _ _ _
  layout := by
    have hnil : (onePointCluster []).Layout := by decide +kernel
    obtain ⟨hcounts, hcells, hstarts, -⟩ := VectorIndex.layout_iff.mp hnil
    refine VectorIndex.layout_iff.mpr ⟨hcounts, hcells, hstarts, fun f _ cl hcl => ?_⟩
    rw [onePointCluster, HashMap.lookup_insert_ite] at hcl
    split at hcl
    · rename_i hf
      cases hcl
      exact ⟨hf.symm, hf ▸ Nat.zero_lt_one⟩
    · cases hcl
  routing := fun c hc => nomatch hc
  small := (by decide : 1 ≤ 32)
  element := rfl
  holds := by
    rw [← hholds]
    exact add_zero _
  tail := ⟨rfl, Finset.Subset.refl _⟩
  dims := forall_vectors hdims

def plainDocs : DocMap := (∅ : DocMap).insert "plain" (pointAttrs 1 false)

def taggedWrite : WalEntry := { upserts := [⟨"tagged", pointAttrs 2 true⟩] }

/-- A tagged document of the tail is found. -/
theorem nearest_tagged_in_tail :
    (executeQuery floatEnv euclideanMeta (pointContext plainDocs [("plain", 1)] taggedWrite)
        nearestTagged).map QueryResponse.rows
      = .ok (exactAnswer floatEnv .euclideanSquared
        (pointContext plainDocs [("plain", 1)] taggedWrite) "emb" [.num 0]
        (some taggedFilter) 1) ∧
    exactAnswer floatEnv .euclideanSquared (pointContext plainDocs [("plain", 1)] taggedWrite)
      "emb" [.num 0] (some taggedFilter) 1 = [("tagged", .num (-4))] := by
  have hanswer : exactAnswer floatEnv .euclideanSquared
      (pointContext plainDocs [("plain", 1)] taggedWrite) "emb" [.num 0] (some taggedFilter) 1
      = [("tagged", .num (-4))] := by
    decide +kernel
  refine ⟨(filtered_search_exact_iff floatEnv rfl euclideanMeta nearestTagged_asks
    (pointContext_indexes (by decide +kernel) (by decide +kernel)) rfl
    (fun expr _ => matchingDocIdsForFilter_of_no_index rfl) (forall_vectors (by decide +kernel))
    (by decide +kernel)).mpr (.inr ?_), hanswer⟩
  intro e he
  have hmem : e ∈ [("tagged", Fp.num (-4))] := hanswer ▸ he
  rw [List.mem_singleton.mp hmem]
  exact .inl (by decide +kernel)

/-- Sixty-four documents at zero, and a tagged one at a distance. -/
def crowdedPoints : List (String × Nat) :=
  (List.range 64).map (fun i => (String.singleton (Char.ofNat (i + 48)), 0)) ++ [("tagged", 1)]

def crowdedDocs : DocMap :=
  crowdedPoints.foldr (fun p docs => docs.insert p.1 (pointAttrs p.2 (p.2 = 1))) ∅

/-- The sixty-four other documents fill the pool, and the only match is lost. -/
theorem crowded_match_is_lost :
    nearestTagged.AsksVector (some taggedFilter) 1 "emb" [.num 0] ∧
      (pointContext crowdedDocs crowdedPoints {}).IndexesField "emb"
        (onePointCluster crowdedPoints) crowdedDocs [{}] ∧
      (executeQuery floatEnv euclideanMeta (pointContext crowdedDocs crowdedPoints {})
        nearestTagged).map QueryResponse.rows = .ok [] ∧
      exactAnswer floatEnv .euclideanSquared (pointContext crowdedDocs crowdedPoints {}) "emb"
        [.num 0] (some taggedFilter) 1 = [("tagged", .num (-1))] := by
  refine ⟨nearestTagged_asks, pointContext_indexes ?_ ?_, ?_, ?_⟩
  · decide +kernel
  · decide +kernel
  · decide +kernel
  · decide +kernel

end OpenPuffer
