import OpenPuffer.Index.Bm25
import OpenPuffer.Search.Context

/-!
# BM25 candidates

The candidates of a BM25 ranker come from the full-text segment for the documents outside the
tail, and from the requested field for the documents of the tail.  A namespace has one full-text
segment, and a query may ask for another field.  Outside the tail the candidates are then the
documents whose text in the field *of the segment* shares a term with the query
(`strong_bm25_candidates_iff`).
-/

namespace OpenPuffer

open QueryContext DocMap

variable {R : Type} [Field R] [LinearOrder R]

/-! ## Collecting candidates -/

/-- The text of a document scores, for a field and a query. -/
def scoresInField (ln : R → R) (env : TextEnv) (field : String) (query : List Char) (avgdl : R)
    (numDocs : Nat) (doc : Document) : Bool :=
  0 < bm25DocScore ln env (extractIndexText env doc field) query avgdl numDocs

/-- What the segment contributes. -/
def indexedBm25Candidates (o : IterOrder String) (ln : R → R) (env : TextEnv)
    (planner : QueryPlanner) (query : List Char) : Finset String :=
  match planner.ctx.fts with
  | none => ∅
  | some fts =>
    let ids := planner.ctx.insertIndexed ∅ (fts.candidateDocIds env query)
    let hits := fts.queryBm25 ln env o query planner.candidatePool
    planner.ctx.insertIndexed ids (hits.map Prod.fst).toFinset

def collectBm25Candidates (o : IterOrder String) (ln : R → R) (env : TextEnv)
    (planner : QueryPlanner) (stats : QueryStats) (field : String) (query : List Char) :
    Finset String × QueryStats :=
  let ctx := planner.ctx
  let avgdl := (ctx.fts.map FtsSegment.avgDocLen).getD 1
  let numDocs := max ((ctx.fts.map FtsSegment.numDocs).getD 1) 1
  let (ids, stats) := ctx.forEachTail o
    (ctx.insertMatching (scoresInField ln env field query avgdl numDocs))
    (indexedBm25Candidates o ln env planner query) stats
  if ctx.fts.isNone ∧ ids = ∅ then
    ctx.fullScan (scoresInField ln env field query 1 1) ids stats
  else (ids, stats)

/-! ## What a strong query finds -/

/-- The text of a document in a field shares a token with the query. -/
def sharesToken (env : TextEnv) (field : String) (query : List Char) (doc : Document) : Bool :=
  (tokenize env query).any fun term => term ∈ docTokens env field doc

/-- The segment holds the indexed documents.  Before the first pass there is
none. -/
def QueryContext.FtsHolds (env : TextEnv) (ctx : QueryContext) (indexed : DocMap) : Prop :=
  match ctx.fts with
  | none => indexed = ∅
  | some seg => seg.Represents env indexed

section Strong

variable [IsStrictOrderedRing R] {ln : R → R} {env : TextEnv} {planner : QueryPlanner}
  {indexed : DocMap} {entries : List WalEntry}

theorem scoresInField_eq (hln : ∀ x, 1 < x → 0 < ln x) (field : String) (query : List Char)
    (avgdl : R) (numDocs : Nat) :
    scoresInField ln env field query avgdl numDocs = sharesToken env field query := by
  funext doc
  rw [Bool.eq_iff_iff, scoresInField, decide_eq_true_iff, bm25DocScore_pos_iff env hln, sharesToken,
    List.any_eq_true]
  refine exists_congr fun term => and_congr_right fun _ => ?_
  rw [decide_eq_true_iff]
  exact Iff.rfl

omit [IsStrictOrderedRing R] in
/-- The segment contributes the documents outside the tail whose text in the field
of the segment shares a term with the query. -/
theorem mem_indexedBm25Candidates (o : IterOrder String) (query : List Char)
    (hctx : planner.ctx.CoversTail indexed entries) (hstrong : planner.ctx.consistency = .strong)
    {seg : FtsSegment} (hfts : planner.ctx.fts = some seg) (hseg : seg.Represents env indexed)
    {id : String} :
    id ∈ indexedBm25Candidates o ln env planner query ↔
      id ∉ planner.ctx.tailDocIds ∧
        id ∈ planner.ctx.docs.idsWhere (sharesToken env seg.field query) := by
  have hcandidates : id ∈ seg.candidateDocIds env query ↔
      ∃ doc, indexed.get id = some doc ∧ sharesToken env seg.field query doc = true := by
    rw [(FtsSegment.represents_iff.mp hseg).mem_candidateDocIds env, FtsSegment.termsOf]
    cases indexed.get id with
    | none => simp
    | some doc => simp [sharesToken]
  have hhits : id ∈ ((seg.queryBm25 ln env o query planner.candidatePool).map Prod.fst).toFinset →
      id ∈ seg.candidateDocIds env query := by
    intro h
    obtain ⟨e, he, rfl⟩ := List.mem_map.mp (List.mem_toFinset.mp h)
    exact FtsSegment.queryBm25_mem_candidates ln env he
  rw [indexedBm25Candidates, hfts]
  simp only [mem_insertIndexed hstrong, Finset.notMem_empty, false_or]
  rw [mem_idsWhere]
  by_cases htail : id ∈ planner.ctx.tailDocIds
  · simp [htail]
  · rw [hctx.get_eq htail, ← hcandidates]
    simp only [htail, not_false_eq_true, and_true, true_and]
    exact ⟨fun h => h.elim (fun hfound => hfound) hhits, .inl⟩

/-- With a segment, a strong query takes the field of the segment outside the tail
and the requested field in the tail. -/
theorem mem_collectBm25Candidates (hln : ∀ x, 1 < x → 0 < ln x) (o : IterOrder String)
    (stats : QueryStats) (field : String) (query : List Char)
    (hctx : planner.ctx.CoversTail indexed entries) (hstrong : planner.ctx.consistency = .strong)
    {seg : FtsSegment} (hfts : planner.ctx.fts = some seg) (hseg : seg.Represents env indexed)
    (id : String) :
    id ∈ planner.ctx.filterExistingDocs
        (collectBm25Candidates o ln env planner stats field query).1 ↔
      ∃ doc, planner.ctx.docs.get id = some doc ∧
        (if id ∈ planner.ctx.tailDocIds then sharesToken env field query doc
          else sharesToken env seg.field query doc) = true := by
  have hcollected : (collectBm25Candidates o ln env planner stats field query).1
      = (planner.ctx.forEachTail o (planner.ctx.insertMatching (sharesToken env field query))
          (indexedBm25Candidates o ln env planner query) stats).1 := by
    simp only [collectBm25Candidates, scoresInField_eq hln, hfts, Option.isNone_some,
      Bool.false_eq_true, false_and, if_false]
  rw [hcollected, mem_filterExistingDocs hstrong,
    mem_forEachTail hstrong,
    mem_indexedBm25Candidates o query hctx hstrong hfts hseg, mem_idsWhere,
    mem_idsWhere, mem_iff_get]
  by_cases htail : id ∈ planner.ctx.tailDocIds
  · simp only [htail, not_true_eq_false, false_and, true_and, false_or, if_true]
    exact ⟨And.left, fun h => ⟨h, h.imp fun _ => And.left⟩⟩
  · simp only [htail, not_false_eq_true, false_and, true_and, or_false, if_false]
    exact ⟨And.left, fun h => ⟨h, h.imp fun _ => And.left⟩⟩

/-- Before the first pass every document is in the tail. -/
theorem collectBm25Candidates_of_no_segment (hln : ∀ x, 1 < x → 0 < ln x) (o : IterOrder String)
    (stats : QueryStats) (field : String) (query : List Char)
    (hctx : planner.ctx.CoversTail ∅ entries) (hstrong : planner.ctx.consistency = .strong)
    (hfts : planner.ctx.fts = none) :
    (collectBm25Candidates o ln env planner stats field query).1
      = planner.ctx.docs.idsWhere (sharesToken env field query) := by
  have htail : ∀ id ∈ planner.ctx.docs.idsWhere (sharesToken env field query),
      id ∈ planner.ctx.tailDocIds := by
    intro id hid
    obtain ⟨doc, hdoc, -⟩ := mem_idsWhere.mp hid
    by_contra hnot
    rw [hctx.get_eq hnot] at hdoc
    cases hdoc
  have hvisited : (planner.ctx.forEachTail o
      (planner.ctx.insertMatching (sharesToken env field query)) ∅ stats).1
      = planner.ctx.docs.idsWhere (sharesToken env field query) := by
    ext id
    rw [mem_forEachTail hstrong]
    simp only [Finset.notMem_empty, false_or]
    exact ⟨And.right, fun hid => ⟨htail id hid, hid⟩⟩
  simp only [collectBm25Candidates, scoresInField_eq hln, indexedBm25Candidates, hfts]
  split
  · rename_i hempty
    rw [fullScan, hvisited, Finset.union_self]
  · exact hvisited

/-- A strong BM25 query finds exactly the documents whose text in the requested
field shares a token with the query if and only if, on every document outside the
tail, the field of the segment and the requested field agree on whether they share
one. -/
theorem strong_bm25_candidates_iff (hln : ∀ x, 1 < x → 0 < ln x) (o : IterOrder String)
    (stats : QueryStats) (field : String) (query : List Char)
    (hctx : planner.ctx.CoversTail indexed entries) (hstrong : planner.ctx.consistency = .strong)
    (hfts : planner.ctx.FtsHolds env indexed) :
    planner.ctx.filterExistingDocs
        (collectBm25Candidates o ln env planner stats field query).1
      = planner.ctx.docs.idsWhere (sharesToken env field query) ↔
      ∀ seg, planner.ctx.fts = some seg → ∀ id ∉ planner.ctx.tailDocIds, ∀ doc,
        planner.ctx.docs.get id = some doc →
          sharesToken env seg.field query doc = sharesToken env field query doc := by
  rw [FtsHolds] at hfts
  cases hseg : planner.ctx.fts with
  | none =>
    rw [hseg] at hfts
    subst hfts
    refine iff_of_true ?_ nofun
    rw [collectBm25Candidates_of_no_segment hln o stats field query hctx hstrong hseg]
    ext id
    rw [mem_filterExistingDocs hstrong, and_iff_left_iff_imp]
    intro hid
    exact mem_iff_get.mpr ((mem_idsWhere.mp hid).imp fun _ => And.left)
  | some seg =>
    rw [hseg] at hfts
    rw [eq_idsWhere_iff
      (mem_collectBm25Candidates hln o stats field query hctx hstrong hseg hfts)]
    simp

end Strong

/-! ## A namespace with two text fields -/

def textSpec : Json := .obj [("full_text_search", .bool true), ("type", .str "string")]

def articleSchema : Json := .obj [("body", textSpec), ("title", textSpec)]

def article (title body : String) : Attributes :=
  ((∅ : Attributes).insert "title" (.str title)).insert "body" (.str body)

def articleDocs : DocMap := (∅ : DocMap).insert "a" (article "Rust" "a borrow checker")

def articleIndex : FtsSegment :=
  .build asciiEnv 1 (primaryFtsField articleSchema)
    ((HashMap.iter (.sorted String) articleDocs).map fun p => ⟨p.1, p.2⟩)

/-- A second article that was written after the first had been indexed. -/
def articleTail : WalEntry := { upserts := [⟨"b", article "More Rust" "a borrow"⟩] }

def articlePlanner : QueryPlanner where
  ctx :=
    { docs := applyEntry articleDocs articleTail
      fts := some articleIndex
      tailDocIds := {"b"} }
  candidatePool := 80

theorem articlePlanner_coversTail : articlePlanner.ctx.CoversTail articleDocs [articleTail] :=
  ⟨rfl, by decide⟩

theorem articlePlanner_ftsHolds : articlePlanner.ctx.FtsHolds asciiEnv articleDocs :=
  FtsSegment.represents_build asciiEnv (articleDocs.lists_iter _) 1 _

/-- A function with the sign of the logarithm. -/
def subOne (x : Rat) : Rat := x - 1

/-- A query for the field of the segment finds both articles. -/
theorem body_query_finds_articles :
    articlePlanner.ctx.filterExistingDocs
        (collectBm25Candidates (.sorted String) subOne asciiEnv articlePlanner {} "body"
          "borrow".toList).1
      = articlePlanner.ctx.docs.idsWhere (sharesToken asciiEnv "body" "borrow".toList) := by
  refine (strong_bm25_candidates_iff (fun _ => sub_pos.mpr) _ _ _ _ articlePlanner_coversTail rfl
    articlePlanner_ftsHolds).mpr ?_
  intro seg hseg id _ doc _
  cases hseg
  have hfield : articleIndex.field = "body" := by
    decide +kernel
  rw [hfield]

/-- The segment is built for `body`.  A query for `title`, which the schema makes
searchable too, finds the article in the tail and misses the indexed one. -/
theorem title_query_misses_indexed_article :
    primaryFtsField articleSchema = "body" ∧ "title" ∈ indexFieldsFromSchema articleSchema ∧
      articleIndex.field = primaryFtsField articleSchema ∧
      articlePlanner.ctx.CoversTail articleDocs [articleTail] ∧
      articlePlanner.ctx.consistency = .strong ∧
      articlePlanner.ctx.FtsHolds asciiEnv articleDocs ∧
      articlePlanner.ctx.filterExistingDocs
        (collectBm25Candidates (.sorted String) subOne asciiEnv articlePlanner {} "title"
          "rust".toList).1 = {"b"} ∧
      articlePlanner.ctx.docs.idsWhere (sharesToken asciiEnv "title" "rust".toList)
        = {"a", "b"} := by
  refine ⟨by decide +kernel, by decide +kernel, by decide +kernel, articlePlanner_coversTail, rfl,
    articlePlanner_ftsHolds, ?_, ?_⟩
  · decide +kernel
  · decide +kernel

end OpenPuffer
