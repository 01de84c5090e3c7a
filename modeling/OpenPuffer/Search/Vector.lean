import OpenPuffer.Search.Context

/-!
# Vector candidates

The candidates of a vector ranker come from the vector index of the field, and from the
documents of the tail that have a vector of the length of the query.  A field without an index
is scanned only when no candidate was found before, so one matching document in the tail hides
all the others (`strong_vector_candidates_iff`).
-/

namespace OpenPuffer

/-! ## Collecting candidates -/

/-- The document has a vector of the given length in the field. -/
def hasVectorOf (field : String) (length : Nat) (doc : Document) : Bool :=
  match extractVector doc.attributes field with
  | .ok v => v.length = length
  | .error _ => false

def indexedVectorCandidates (o : IterOrder String) (s : Scorer) (planner : QueryPlanner)
    (field : String) (query : Vec) : Finset String :=
  match planner.ctx.vectors.lookup field with
  | none => ∅
  | some vindex =>
    if query.length = vindex.l0.dimensions then
      if planner.ctx.annRerankEnabled planner.annRerankFromEnv then
        planner.ctx.insertIndexed ∅ (vindex.annPoolDocIds s query)
      else
        let hits := vindex.queryAnn s o query planner.candidatePool
        planner.ctx.insertIndexed ∅ (hits.map Prod.fst).toFinset
    else ∅

def collectVectorCandidates (o : IterOrder String) (s : Scorer) (planner : QueryPlanner)
    (stats : QueryStats) (field : String) (query : Vec) : Finset String × QueryStats :=
  let ctx := planner.ctx
  let (ids, stats) := ctx.forEachTail o (ctx.insertMatching (hasVectorOf field query.length))
    (indexedVectorCandidates o s planner field query) stats
  if (ctx.vectors.lookup field).isNone ∧ ids = ∅ then
    ctx.fullScan (hasVectorOf field query.length) ids stats
  else (ids, stats)

/-! ## Without an index -/

section NoIndex

variable {planner : QueryPlanner} {field : String}

/-- The candidates are those of the tail, or all of them if the tail has none. -/
theorem collectVectorCandidates_of_no_index (o : IterOrder String) (s : Scorer)
    (stats : QueryStats) (query : Vec) (hstrong : planner.ctx.consistency = .strong)
    (hindex : planner.ctx.vectors.lookup field = none) {found : Finset String}
    (hfound : planner.ctx.docs.idsWhere (hasVectorOf field query.length) = found) :
    (collectVectorCandidates o s planner stats field query).1
      = if found ∩ planner.ctx.tailDocIds = ∅ then found
        else found ∩ planner.ctx.tailDocIds := by
  have hvisited : (planner.ctx.forEachTail o
      (planner.ctx.insertMatching (hasVectorOf field query.length)) ∅ stats).1
      = found ∩ planner.ctx.tailDocIds := by
    ext id
    rw [QueryContext.mem_forEachTail hstrong, hfound, Finset.mem_inter]
    simp only [Finset.notMem_empty, false_or]
    exact and_comm
  simp only [collectVectorCandidates, indexedVectorCandidates, hindex, Option.isNone_none,
    true_and, hvisited]
  split
  · rename_i hempty
    rw [QueryContext.fullScan, hempty, hfound]
    exact Finset.empty_union found
  · rfl

/-- A strong vector query without an index finds exactly the documents with a
vector of the length of the query if and only if none of them is in the tail or all
of them are. -/
theorem strong_vector_candidates_iff (o : IterOrder String) (s : Scorer) (stats : QueryStats)
    (query : Vec) (hstrong : planner.ctx.consistency = .strong)
    (hindex : planner.ctx.vectors.lookup field = none) :
    (collectVectorCandidates o s planner stats field query).1
      = planner.ctx.docs.idsWhere (hasVectorOf field query.length) ↔
      (∀ id ∈ planner.ctx.tailDocIds, ∀ doc, planner.ctx.docs.get id = some doc →
        hasVectorOf field query.length doc = false) ∨
      (∀ id doc, planner.ctx.docs.get id = some doc → hasVectorOf field query.length doc = true →
        id ∈ planner.ctx.tailDocIds) := by
  generalize hfound : planner.ctx.docs.idsWhere (hasVectorOf field query.length) = found
  rw [collectVectorCandidates_of_no_index o s stats query hstrong hindex hfound]
  have hnone : found ∩ planner.ctx.tailDocIds = ∅ ↔
      ∀ id ∈ planner.ctx.tailDocIds, ∀ doc, planner.ctx.docs.get id = some doc →
        hasVectorOf field query.length doc = false := by
    rw [← Finset.disjoint_iff_inter_eq_empty, Finset.disjoint_right, ← hfound]
    simp only [DocMap.mem_idsWhere, not_exists, not_and, Bool.not_eq_true]
  have hall : found ∩ planner.ctx.tailDocIds = found ↔
      ∀ id doc, planner.ctx.docs.get id = some doc → hasVectorOf field query.length doc = true →
        id ∈ planner.ctx.tailDocIds := by
    rw [Finset.inter_eq_left, Finset.subset_iff, ← hfound]
    simp only [DocMap.mem_idsWhere, forall_exists_index, and_imp]
  rw [← hnone, ← hall]
  split
  · rename_i hempty
    exact iff_of_true rfl (.inl hempty)
  · rename_i hsome
    exact ⟨.inr, fun h => h.resolve_left hsome⟩

end NoIndex

/-! ## A field that has no index -/

/-- Two documents with a vector each. -/
def unindexedDocs : DocMap :=
  let attrs := (∅ : Attributes).insert "emb" (.arr [.num (.posInt 1), .num (.posInt 0)])
  ((∅ : DocMap).insert "a" attrs).insert "b" attrs

def thirdVector : WalEntry :=
  { upserts := [⟨"c", (∅ : Attributes).insert "emb" (.arr [.num (.posInt 0), .num (.posInt 1)])⟩] }

/-- The two documents were indexed, without a vector index for their field. -/
def beforeWrite : QueryPlanner where
  ctx := { docs := unindexedDocs }
  candidatePool := 80

def afterWrite : QueryPlanner where
  ctx :=
    { docs := applyEntry unindexedDocs thirdVector
      tailDocIds := walTouchedDocIds [thirdVector] }
  candidatePool := 80

/-- With nothing in the tail the scan finds both documents. -/
theorem vector_query_scans :
    (collectVectorCandidates (.sorted String) scorer beforeWrite {} "emb" [.num 1, .num 0]).1
      = beforeWrite.ctx.docs.idsWhere (hasVectorOf "emb" 2) :=
  (strong_vector_candidates_iff _ scorer {} [.num 1, .num 0] rfl rfl).mpr
    (.inl fun _ hid => absurd hid (Finset.notMem_empty _))

/-- The write of a third document removes the other two from the candidates. -/
theorem write_hides_vectors :
    beforeWrite.ctx.consistency = .strong ∧ beforeWrite.ctx.vectors.lookup "emb" = none ∧
      afterWrite.ctx.consistency = .strong ∧ afterWrite.ctx.vectors.lookup "emb" = none ∧
      (collectVectorCandidates (.sorted String) scorer beforeWrite {} "emb" [.num 1, .num 0]).1
        = {"a", "b"} ∧
      (collectVectorCandidates (.sorted String) scorer afterWrite {} "emb" [.num 1, .num 0]).1
        = {"c"} ∧
      afterWrite.ctx.docs.idsWhere (hasVectorOf "emb" 2) = {"a", "b", "c"} := by
  refine ⟨rfl, rfl, rfl, rfl, ?_, ?_, ?_⟩
  · decide +kernel
  · decide +kernel
  · decide +kernel

end OpenPuffer
