import OpenPuffer.Index.Delta
import OpenPuffer.Pinned
import OpenPuffer.Vector.Query

/-!
# Query contexts

A query sees the documents of a namespace, the loaded index segments, and the *tail*: the ids
that the log has touched since the segments were written.  A strong query looks at the
documents of the tail itself, an eventual one only takes what the segments say.
`QueryContext.CoversTail` says that outside the tail the documents are the indexed ones.
-/

namespace OpenPuffer

/-! ## Documents with a property -/

/-- The ids of the documents that pass a test. -/
def DocMap.idsWhere (docs : DocMap) (p : Document → Bool) : Finset String :=
  docs.keys.filter fun id => (docs.get id).any p

theorem DocMap.mem_iff_get {docs : DocMap} {id : String} :
    id ∈ docs ↔ ∃ doc, docs.get id = some doc := by
  rw [← Finmap.lookup_isSome, Option.isSome_iff_exists, DocMap.get]
  simp

theorem DocMap.mem_idsWhere {docs : DocMap} {p : Document → Bool} {id : String} :
    id ∈ docs.idsWhere p ↔ ∃ doc, docs.get id = some doc ∧ p doc = true := by
  simp only [idsWhere, Finset.mem_filter, Finmap.mem_keys, DocMap.mem_iff_get]
  constructor
  · rintro ⟨⟨doc, hdoc⟩, hp⟩
    rw [hdoc] at hp
    exact ⟨doc, hdoc, hp⟩
  · rintro ⟨doc, hdoc, hp⟩
    exact ⟨⟨doc, hdoc⟩, by rw [hdoc]; exact hp⟩

/-! ## Contexts -/

structure QueryContext where
  docs : DocMap
  fts : Option FtsSegment := none
  /-- Vector indexes by field. -/
  vectors : HashMap String VectorIndex := ∅
  filterIndex : Option FilterSegment := none
  tailDocIds : Finset String := ∅
  consistency : QueryConsistency := .strong
  /-- Take the whole probed pool as candidates; the environment decides if this
  is absent. -/
  annRerank : Option Bool := none

/-- Counters of the documents that a query looked at one by one. -/
structure QueryStats where
  fullScanDocs : Nat := 0
  tailDocsExamined : Nat := 0
deriving DecidableEq

structure QueryPlanner where
  ctx : QueryContext
  /-- How many candidates are asked of an index. -/
  candidatePool : Nat
  /-- `OPENPUFFER_ANN_RERANK` is set. -/
  annRerankFromEnv : Bool := false

def QueryContext.annRerankEnabled (ctx : QueryContext) (fromEnv : Bool) : Bool :=
  ctx.annRerank.getD fromEnv

def walTouchedDocIds (entries : List WalEntry) : Finset String :=
  (entries.flatMap fun e => e.deletes ++ e.writtenIds).toFinset

theorem notMem_walTouchedDocIds {id : String} {entries : List WalEntry} :
    id ∉ walTouchedDocIds entries ↔ ∀ e ∈ entries, id ∉ e.writtenIds ∧ id ∉ e.deletes := by
  simp only [walTouchedDocIds, List.mem_toFinset, List.mem_flatMap, List.mem_append, not_exists,
    not_and, not_or]
  exact forall₂_congr fun _ _ => and_comm

namespace QueryContext

variable (ctx : QueryContext)

def useTail : Bool :=
  match ctx.consistency with
  | .strong => true
  | .eventual => false

/-- Strong queries only return documents that exist. -/
def filterExistingDocs (ids : Finset String) : Finset String :=
  match ctx.consistency with
  | .eventual => ids
  | .strong => ids.filter fun id => id ∈ ctx.docs

/-- Insert what an index returned, except for the documents of the tail. -/
def insertIndexed (ids found : Finset String) : Finset String :=
  ids ∪ found.filter fun id => !(ctx.useTail && id ∈ ctx.tailDocIds)

/-- Insert a document of the tail that passes a test. -/
def insertMatching (p : Document → Bool) (ids : Finset String) (id : String) : Finset String :=
  if (ctx.docs.get id).any p then insert id ids else ids

/-- Visit the ids of the tail, in the order of the set. -/
def forEachTail (o : IterOrder String) (f : Finset String → String → Finset String)
    (ids : Finset String) (stats : QueryStats) : Finset String × QueryStats :=
  if ctx.useTail then
    ((o.toList ctx.tailDocIds).foldl f ids,
      { stats with tailDocsExamined := stats.tailDocsExamined + ctx.tailDocIds.card })
  else (ids, stats)

/-- Insert every document of the namespace that passes a test. -/
def fullScan (p : Document → Bool) (ids : Finset String) (stats : QueryStats) :
    Finset String × QueryStats :=
  (ids ∪ ctx.docs.idsWhere p,
    { stats with fullScanDocs := stats.fullScanDocs + ctx.docs.keys.card })

/-! ## What a strong query collects -/

variable {ctx}

theorem useTail_of_strong (h : ctx.consistency = .strong) : ctx.useTail = true := by
  simp [useTail, h]

variable {ids : Finset String} {id k : String} {p : Document → Bool}

theorem mem_filterExistingDocs (h : ctx.consistency = .strong) :
    id ∈ ctx.filterExistingDocs ids ↔ id ∈ ids ∧ id ∈ ctx.docs := by
  simp [filterExistingDocs, h]

theorem mem_insertIndexed (h : ctx.consistency = .strong) {found : Finset String} :
    id ∈ ctx.insertIndexed ids found ↔ id ∈ ids ∨ (id ∈ found ∧ id ∉ ctx.tailDocIds) := by
  simp [insertIndexed, useTail_of_strong h]

theorem mem_insertMatching :
    k ∈ ctx.insertMatching p ids id ↔ k ∈ ids ∨ (k = id ∧ k ∈ ctx.docs.idsWhere p) := by
  have hwhere : k ∈ ctx.docs.idsWhere p ↔ (ctx.docs.get k).any p = true := by
    rw [DocMap.mem_idsWhere]
    cases ctx.docs.get k with
    | none => simp
    | some doc => simp
  rw [insertMatching, hwhere]
  split
  · rename_i hp
    rw [Finset.mem_insert]
    constructor
    · rintro (rfl | hk)
      · exact .inr ⟨rfl, hp⟩
      · exact .inl hk
    · rintro (hk | ⟨rfl, -⟩)
      · exact .inr hk
      · exact .inl rfl
  · rename_i hp
    constructor
    · exact .inl
    · rintro (hk | ⟨rfl, hk⟩)
      · exact hk
      · exact absurd hk hp

theorem mem_insertMatchings (visited : List String) :
    k ∈ visited.foldl (ctx.insertMatching p) ids ↔
      k ∈ ids ∨ (k ∈ visited ∧ k ∈ ctx.docs.idsWhere p) := by
  induction visited generalizing ids with
  | nil => simp
  | cons id visited ih =>
    rw [List.foldl_cons, ih, mem_insertMatching, List.mem_cons]
    tauto

/-- The tail contributes its documents that pass the test. -/
theorem mem_forEachTail (h : ctx.consistency = .strong) {o : IterOrder String}
    {stats : QueryStats} :
    k ∈ (ctx.forEachTail o (ctx.insertMatching p) ids stats).1 ↔
      k ∈ ids ∨ (k ∈ ctx.tailDocIds ∧ k ∈ ctx.docs.idsWhere p) := by
  rw [forEachTail, if_pos (useTail_of_strong h), mem_insertMatchings, o.mem_toList]

/-! ## Contexts and the log -/

/-- The context shows the indexed documents after some further entries, and its
tail has every id that these touch. -/
structure CoversTail (ctx : QueryContext) (indexed : DocMap) (entries : List WalEntry) :
    Prop where
  docs : ctx.docs = entries.foldl applyEntry indexed
  tail : walTouchedDocIds entries ⊆ ctx.tailDocIds

/-- A document outside the tail is the one that was indexed. -/
theorem CoversTail.get_eq {indexed : DocMap} {entries : List WalEntry}
    (h : ctx.CoversTail indexed entries) (hid : id ∉ ctx.tailDocIds) :
    ctx.docs.get id = indexed.get id := by
  have huntouched := notMem_walTouchedDocIds.mp fun hmem => hid (h.tail hmem)
  rw [DocMap.get, DocMap.get, h.docs, lookup_applyEntries_of_untouched huntouched]

/-- Ids that were chosen with a test of their own outside the tail are the
documents that pass the test of the tail exactly if the tests agree outside it. -/
theorem eq_idsWhere_iff {q : Document → Bool}
    (hids : ∀ id, id ∈ ids ↔ ∃ doc, ctx.docs.get id = some doc ∧
      (if id ∈ ctx.tailDocIds then p doc else q doc) = true) :
    ids = ctx.docs.idsWhere p ↔
      ∀ id ∉ ctx.tailDocIds, ∀ doc, ctx.docs.get id = some doc → q doc = p doc := by
  rw [Finset.ext_iff]
  constructor
  · intro h id htail doc hdoc
    have hid := h id
    rw [hids, DocMap.mem_idsWhere] at hid
    simp only [hdoc, htail, if_false, Option.some.injEq, exists_eq_left'] at hid
    exact Bool.eq_iff_iff.mpr hid
  · intro h id
    rw [hids, DocMap.mem_idsWhere]
    refine exists_congr fun doc => and_congr_right fun hdoc => ?_
    split
    · exact Iff.rfl
    · rename_i htail
      rw [h id htail doc hdoc]

end QueryContext

end OpenPuffer
