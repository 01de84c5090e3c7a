import OpenPuffer.Index.Delta
import OpenPuffer.Vector.Coverage

/-!
# Index passes and the vector index

A pass summarises its WAL entries in one list of deletes and one of upserts (`Index.Delta`).  An
index that has no clusters yet is built from the upserts, and the deletes are ignored.
Otherwise the delta is applied, and if the result asks for it, the index is built again.

The index has the right members after every pass (`passes_cover_documents`) if every document
that a pass writes is there at its end, and the pass that builds the index does not replace a
vector.
-/

namespace OpenPuffer

open List VectorIndex

/-! ## One pass -/

/-- What a pass reads besides the documents and indexes at the index cursor, and
the orders in which it happens to see hash maps. -/
structure PassInput where
  entries : List WalEntry
  toSeq : Nat
  schema : Json
  distanceMetric : DistanceMetric := .cosineDistance
  annBuild : AnnBuildConfig := {}
  clusterOrder : IterOrder Nat := .sorted Nat
  docOrder : IterOrder String := .sorted String

namespace VectorIndex

/-- The index that a pass makes of the one it loaded.  `docs` are the documents
at the end of the pass. -/
def indexDelta (q : Quantizer) (field : String) (p : PassInput) (docs : DocMap)
    (upserts : List Document) (deletes : List String) (loaded : VectorIndex) :
    Except String VectorIndex :=
  let build := fun ds => build q p.toSeq field p.distanceMetric ds p.schema p.annBuild
  if loaded.l0.numFineTotal = 0 then .ok ((build upserts).getD loaded)
  else do
    let vindex ← loaded.applyDelta q p.clusterOrder upserts deletes
    if vindex.needsFullRebuild then
      let allDocs := (HashMap.iter p.docOrder docs).map fun e => ⟨e.1, e.2⟩
      .ok ((build allDocs).getD vindex)
    else .ok vindex

/-- Mark the parts of an index with the segment id of a pass. -/
def setSegmentId (toSeq : Nat) (idx : VectorIndex) : VectorIndex :=
  { idx with
    l0 := { idx.l0 with segmentId := toSeq }
    l1 := HashMap.filterMap (fun _ l1 => some { l1 with segmentId := toSeq }) idx.l1
    clusters := HashMap.filterMap (fun _ c => some { c with segmentId := toSeq }) idx.clusters }

end VectorIndex

/-- The documents at the index cursor and the indexes of the last pass. -/
structure IndexState where
  docs : DocMap := ∅
  segs : Segments
  vindex : VectorIndex := {}

/-- One pass for one vector field. -/
def indexWalRange (q : Quantizer) (env : TextEnv) (field : String) (st : IndexState)
    (p : PassInput) : Except String IndexState := do
  let delta := streamIndexDeltaFromWal env p.schema st.docs st.segs p.entries
  let docs := p.entries.foldl applyEntry st.docs
  let vindex ← st.vindex.indexDelta q field p docs delta.upserts delta.deletes
  .ok
    { docs
      segs :=
        { fts := { delta.segs.fts with segmentId := p.toSeq }
          filter := { delta.segs.filter with segmentId := p.toSeq } }
      vindex := if vindex.l0.numFineTotal > 0 then vindex.setSegmentId p.toSeq else vindex }

def indexPasses (q : Quantizer) (env : TextEnv) (field : String) :
    Machine IndexState PassInput :=
  ⟨fun st p => (indexWalRange q env field st p).toOption⟩

/-- Every document that the pass writes is there at its end, and if it builds
the index from upserts, it does not replace a vector. -/
structure PassInput.Summarizes (field : String) (st : IndexState) (p : PassInput) : Prop where
  survive : WritesSurvive st.docs p.entries
  last : st.vindex.l0.numFineTotal = 0 → (∀ e ∈ p.entries, e.patches = []) →
    VectorsLast field (p.entries.flatMap WalEntry.intoDocuments)

instance (field : String) (st : IndexState) (p : PassInput) : Decidable (p.Summarizes field st) :=
  decidable_of_iff (_ ∧ _) ⟨fun h => ⟨h.1, h.2⟩, fun h => ⟨h.survive, h.last⟩⟩

/-! ## What a pass keeps -/

namespace VectorIndex

theorem mergeable_hasDim (field : String) (d : Nat) : Mergeable (HasDim field d) where
  empty := by
    intro v h
    cases h
  merge := by
    intro doc patch hdoc hpatch v h
    rw [extractVector, lookup_mergeDocumentAttributes] at h
    cases hp : patch.lookup field with
    | none =>
      rw [hp] at h
      exact hdoc v h
    | some j =>
      refine hpatch v ?_
      rw [extractVector, hp]
      rw [hp] at h
      exact h

theorem memberBag_setSegmentId (toSeq : Nat) (clusters : HashMap Nat ClusterSegment) :
    memberBag (HashMap.filterMap (fun _ c => some { c with segmentId := toSeq }) clusters)
      = memberBag clusters := by
  rw [memberBag, HashMap.flatten_filterMap]
  rfl

variable {idx : VectorIndex}

/-- Marking changes no member. -/
theorem setSegmentId_becomes (h : idx.Complete) (toSeq : Nat) :
    Becomes idx (idx.setSegmentId toSeq) idx.members where
  complete := by
    refine ⟨h.coarse, h.numCoarse, ?_, ?_, h.total⟩
    · intro c count hc
      obtain ⟨l1, hl1, hnum, hlen⟩ := h.cell c count hc
      refine ⟨{ l1 with segmentId := toSeq }, ?_, hnum, hlen⟩
      rw [setSegmentId, HashMap.lookup_filterMap, hl1]
      rfl
    · intro c l1' hl1'
      rw [setSegmentId, HashMap.lookup_filterMap, Option.bind_eq_some_iff] at hl1'
      obtain ⟨l1, hl1, hmark⟩ := hl1'
      cases hmark
      exact h.ids c l1 hl1
  members := memberBag_setSegmentId toSeq idx.clusters
  field := rfl
  dimensions := rfl
  element := rfl
  centroids := rfl
  grows := Nat.le_refl _

/-- An index with clusters that has one member per document with a vector. -/
structure Covers (field : String) (d : Nat) (docs : DocMap) (idx : VectorIndex) : Prop where
  complete : idx.Complete
  built : 0 < idx.l0.numFineTotal
  vectorField : idx.l0.vectorField = field
  dimensions : idx.l0.dimensions = d
  positive : d ≠ 0
  centroids : idx.l0.centroids ≠ []
  members : idx.members = vectorMembers field idx.l0.vectorElement docs

theorem Covers.becomes {field : String} {d : Nat} {docs docs' : DocMap} {idx' : VectorIndex}
    {bag : Multiset ClusterMember} (h : Covers field d docs idx) (hb : Becomes idx idx' bag)
    (hbag : bag = vectorMembers field idx.l0.vectorElement docs') : Covers field d docs' idx' where
  complete := hb.complete
  built := Nat.lt_of_lt_of_le h.built hb.grows
  vectorField := hb.field.trans h.vectorField
  dimensions := hb.dimensions.trans h.dimensions
  positive := h.positive
  centroids := hb.centroids ▸ h.centroids
  members := by
    rw [hb.members, hbag, hb.element]

/-- The index covers the documents, or it has not been built and no document has
a vector to index. -/
inductive Follows (field : String) (d : Nat) (docs : DocMap) (idx : VectorIndex) : Prop where
  | covers (h : Covers field d docs idx)
  | unbuilt (h : idx.l0.numFineTotal = 0)
      (hnone : d = 0 ∨ ∀ element, vectorMembers field element docs = 0)

section Quantized

variable (q : Quantizer) {field : String} {d : Nat}

variable {p : PassInput} {list : List Document} {docs : DocMap}

section

variable (hdim : ∀ doc ∈ list, HasDim field d doc.attributes)

include hdim

/-- Nothing is built from empty vectors. -/
theorem dim_ne_zero_of_build {idx : VectorIndex}
    (h : build q p.toSeq field p.distanceMetric list p.schema p.annBuild = some idx) :
    d ≠ 0 ∧ (collectPairs field list).2 ≠ [] := by
  have hsome : (collectPairs field list).2 ≠ [] := by
    intro hnil
    rw [build] at h
    simp [hnil] at h
  refine ⟨?_, hsome⟩
  rintro rfl
  exact hsome (collectPairs_of_zero hdim)

/-- A build covers documents whose vectors are those of its list. -/
theorem covers_of_build {idx : VectorIndex}
    (hdocs : ∀ element, vectorMembers field element docs
      = (list.map (memberOf field element)).sum)
    (h : build q p.toSeq field p.distanceMetric list p.schema p.annBuild = some idx) :
    Covers field d docs idx := by
  obtain ⟨hd, hsome⟩ := dim_ne_zero_of_build q hdim h
  obtain ⟨hcomplete, hbuilt, hcentroids, hfield, hdims, helement, hmembers⟩ := build_spec q h
  have hpairs := collectPairs_spec hd (vectorElementForField p.schema field) hdim
  refine ⟨hcomplete, hbuilt, hfield, hdims.trans (hpairs.2 hsome), hd, hcentroids, ?_⟩
  rw [hmembers, hpairs.1, helement, hdocs]

theorem members_of_build_eq_none
    (h : build q p.toSeq field p.distanceMetric list p.schema p.annBuild = none) :
    d = 0 ∨ ∀ element, (list.map (memberOf field element)).sum = 0 := by
  by_cases hd : d = 0
  · exact .inl hd
  · right
    intro element
    rw [← (collectPairs_spec hd element hdim).1]
    have hnil : (collectPairs field list).2 = [] := by
      rw [build] at h
      simp only at h
      split at h
      · exact isEmpty_iff.mp ‹_›
      · cases h
    rw [hnil]
    rfl

end

theorem foldl_bagErase_zero (deletes : List String) : deletes.foldl bagErase 0 = 0 := by
  induction deletes with
  | nil => rfl
  | cons id deletes ih => exact ih

/-- A pass that finds no index builds one from its upserts. -/
theorem indexDelta_of_unbuilt {loaded : VectorIndex} {upserts : List Document}
    (hzero : loaded.l0.numFineTotal = 0)
    (hnone : d = 0 ∨ ∀ element, vectorMembers field element docs = 0)
    (hdim : ∀ doc ∈ upserts, HasDim field d doc.attributes) (hlast : VectorsLast field upserts)
    (final : DocMap) (deletes : List String) :
    ∃ idx, loaded.indexDelta q field p final upserts deletes = .ok idx ∧
      Follows field d (docs.mergeDelta upserts deletes) idx := by
  have hsum : (∀ element, vectorMembers field element docs = 0) → ∀ element,
      vectorMembers field element (docs.mergeDelta upserts deletes)
        = (upserts.map (memberOf field element)).sum := by
    intro hempty element
    rw [vectorMembers_mergeDelta, hempty, foldl_bagErase_zero,
      foldl_bagInsert_of_vectorsLast hlast, add_zero]
    exact fun m hm => absurd hm (Multiset.notMem_zero m)
  refine ⟨_, if_pos hzero, ?_⟩
  simp only
  cases hbuild : build q p.toSeq field p.distanceMetric upserts p.schema p.annBuild with
  | some idx =>
    have hempty := hnone.resolve_left (dim_ne_zero_of_build q hdim hbuild).1
    exact .covers (covers_of_build q hdim (hsum hempty) hbuild)
  | none =>
    refine .unbuilt hzero (hnone.elim .inl fun hempty => ?_)
    refine (members_of_build_eq_none q hdim hbuild).imp_right fun hzero' element => ?_
    rw [hsum hempty, hzero']

/-- A pass over an index merges its delta, or builds it again from the documents
at its end. -/
theorem indexDelta_of_covers {final : DocMap} {loaded : VectorIndex} {upserts : List Document}
    (hcov : Covers field d docs loaded) (hfinal : final.All (HasDim field d))
    (hdim : ∀ doc ∈ upserts, HasDim field d doc.attributes) (deletes : List String) :
    ∃ idx, loaded.indexDelta q field p final upserts deletes = .ok idx ∧
      (Covers field d (docs.mergeDelta upserts deletes) idx ∨ Covers field d final idx) := by
  obtain ⟨idx, hrun, hidx⟩ := applyDelta_spec q p.clusterOrder hcov.complete
    (hcov.dimensions ▸ hcov.positive) hcov.centroids
    (by rw [hcov.vectorField, hcov.dimensions]; exact hdim) deletes
  have hnext : Covers field d (docs.mergeDelta upserts deletes) idx := by
    refine hcov.becomes hidx ?_
    rw [vectorMembers_mergeDelta, hcov.members, hcov.vectorField]
  rw [indexDelta, if_neg (Nat.ne_of_gt hcov.built), hrun]
  simp only [bind, Except.bind]
  split
  · refine ⟨_, rfl, ?_⟩
    cases hbuild : build q p.toSeq field p.distanceMetric
        ((HashMap.iter p.docOrder final).map fun e => ⟨e.1, e.2⟩) p.schema p.annBuild with
    | none => exact .inl hnext
    | some rebuilt =>
      have hlists := final.lists_iter p.docOrder
      refine .inr (covers_of_build q ?_ (fun _ => vectorMembers_eq_sum hlists) hbuild)
      intro doc hdoc
      exact hfinal doc.id doc.attributes ((hlists.mem doc).mp hdoc)
  · exact ⟨_, rfl, .inl hnext⟩

end Quantized

theorem Follows.setSegmentId {field : String} {d : Nat} {docs : DocMap}
    (h : Follows field d docs idx) (toSeq : Nat) :
    Follows field d docs
      (if idx.l0.numFineTotal > 0 then idx.setSegmentId toSeq else idx) := by
  cases h with
  | covers hcov =>
    rw [if_pos hcov.built]
    exact .covers (hcov.becomes (setSegmentId_becomes hcov.complete toSeq) hcov.members)
  | unbuilt hzero hnone =>
    rw [if_neg (Nat.not_lt.mpr (Nat.le_of_eq hzero))]
    exact .unbuilt hzero hnone

end VectorIndex

/-! ## Runs -/

open VectorIndex (HasDim)

/-- The index follows documents with vectors of one length. -/
structure IndexState.Indexed (field : String) (d : Nat) (st : IndexState) : Prop where
  dims : st.docs.All (HasDim field d)
  follows : VectorIndex.Follows field d st.docs st.vindex

section Runs

variable (q : Quantizer) (env : TextEnv) {field : String} {d : Nat}

theorem vectorsLast_indexDelta {entries : List WalEntry}
    (h : (∀ e ∈ entries, e.patches = []) →
      VectorsLast field (entries.flatMap WalEntry.intoDocuments))
    (o : IterOrder String) (docs : DocMap) :
    VectorsLast field (indexDeltaFromWalEntries o docs entries).1 := by
  rw [indexDeltaFromWalEntries]
  cases hp : hasPatches entries with
  | true => exact vectorsLast_of_nodup (DocMap.lists_iter _ o).nodup
  | false => exact h (hasPatches_eq_false_iff.mp hp)

variable {st : IndexState}

/-- One pass. -/
theorem IndexState.Indexed.indexWalRange {p : PassInput} (h : st.Indexed field d)
    (hdim : ∀ e ∈ p.entries, e.All (HasDim field d)) (hsum : p.Summarizes field st) :
    ∃ st', indexWalRange q env field st p = .ok st' ∧ st'.Indexed field d := by
  have hmergeable := mergeable_hasDim field d
  obtain ⟨hups, hdels⟩ := streamIndexDelta_eq env p.schema st.docs st.segs p.entries
  have hdims := h.dims.applyEntries hmergeable hdim
  have hupserts := all_indexDelta hmergeable h.dims hdim env.order
  have hmerge := mergeDelta_indexDelta hsum.survive env.order
  have hpass : ∃ idx, st.vindex.indexDelta q field p (p.entries.foldl applyEntry st.docs)
      (indexDeltaFromWalEntries env.order st.docs p.entries).1
      (indexDeltaFromWalEntries env.order st.docs p.entries).2 = .ok idx ∧
      Follows field d (p.entries.foldl applyEntry st.docs) idx := by
    cases h.follows with
    | unbuilt hzero hnone =>
      have hrun := indexDelta_of_unbuilt q (p := p) hzero hnone hupserts
        (vectorsLast_indexDelta (hsum.last hzero) env.order st.docs)
        (p.entries.foldl applyEntry st.docs)
        (indexDeltaFromWalEntries env.order st.docs p.entries).2
      rw [hmerge] at hrun
      exact hrun
    | covers hcov =>
      obtain ⟨idx, hrun, hidx⟩ := indexDelta_of_covers q (p := p) hcov hdims hupserts
        (indexDeltaFromWalEntries env.order st.docs p.entries).2
      rw [hmerge, or_self] at hidx
      exact ⟨idx, hrun, .covers hidx⟩
  obtain ⟨idx, hrun, hfollows⟩ := hpass
  rw [OpenPuffer.indexWalRange, hups, hdels, hrun]
  exact ⟨_, rfl, hdims, hfollows.setSegmentId p.toSeq⟩

theorem step_indexPasses {st' : IndexState} {p : PassInput} :
    (indexPasses q env field).step st p = some st' ↔ indexWalRange q env field st p = .ok st' :=
  toOption_eq_some

theorem docs_indexPasses {u : IndexState} {passes : List PassInput}
    (h : (indexPasses q env field).run st passes = some u) :
    u.docs = (passes.flatMap PassInput.entries).foldl applyEntry st.docs := by
  induction passes generalizing st with
  | nil =>
    cases h
    rfl
  | cons p passes ih =>
    obtain ⟨st', hstep, hrest⟩ := Machine.run_cons_some.mp h
    rw [flatMap_cons, foldl_append, ih hrest]
    congr 1
    have hok := (step_indexPasses q env).mp hstep
    rw [indexWalRange] at hok
    simp only [bind, Except.bind] at hok
    split at hok
    · cases hok
    · cases hok
      rfl

/-- After every pass of an indexer whose passes can be summarised, an index that
has been built has one member per document with a vector, with its latest
vector. -/
theorem passes_cover_documents (field : String) (d : Nat) (segs : Segments)
    (passes : List PassInput)
    (hdim : ∀ p ∈ passes, ∀ e ∈ p.entries, e.All (HasDim field d))
    (hsum : (indexPasses q env field).Along (fun st p => p.Summarizes field st) { segs } passes)
    {done : List PassInput} (hdone : done <+: passes) :
    ∃ u, (indexPasses q env field).run { segs } done = some u ∧
      (0 < u.vindex.l0.numFineTotal →
        u.vindex.members = vectorMembers field u.vindex.l0.vectorElement
          (replay (done.flatMap PassInput.entries))) := by
  obtain ⟨rest, rfl⟩ := hdone
  have hguard := (Machine.along_of_forall _ _ hdim).and hsum
  have hinit : IndexState.Indexed field d { segs } := by
    refine ⟨?_, .unbuilt rfl (.inr fun _ => vectorMembers_empty)⟩
    intro id attrs h
    cases h
  have hstep : ∀ st p, IndexState.Indexed field d st →
      (∀ e ∈ p.entries, e.All (HasDim field d)) ∧ p.Summarizes field st →
      ∃ st', (indexPasses q env field).step st p = some st' ∧ IndexState.Indexed field d st' := by
    rintro st p hst ⟨hp, hp'⟩
    obtain ⟨st', hrun, hst'⟩ := hst.indexWalRange q env hp hp'
    exact ⟨st', (step_indexPasses q env).mpr hrun, hst'⟩
  obtain ⟨u, hrun, hinv⟩ := Machine.run_total hstep hinit (Machine.along_of_append hguard)
  refine ⟨u, hrun, ?_⟩
  intro hbuilt
  have hdocs := docs_indexPasses q env hrun
  cases hinv.follows with
  | covers hcov =>
    rw [hcov.members, hdocs]
    rfl
  | unbuilt hzero => exact absurd hzero (Nat.ne_of_gt hbuilt)

end Runs

/-- An entry that writes documents with a vector of one component. -/
def putPoints (points : List (String × Int)) (deletes : List String := []) : WalEntry where
  upserts := points.map fun p => documentToUpsert (pointDoc p.1 p.2)
  deletes

theorem all_hasDim_putPoints (points : List (String × Int)) (deletes : List String) :
    (putPoints points deletes).All (HasDim "emb" 1) where
  upserts := by
    intro u hu v hv
    obtain ⟨p, -, rfl⟩ := mem_map.mp hu
    cases hv
    rfl
  patches := fun p hp => absurd hp not_mem_nil

/-- A pass creates three documents with two entries.  The next one moves one of them,
deletes another and adds a fourth. -/
def twoPasses : List PassInput :=
  [{ entries := [putPoints [("a", 1), ("b", 2)], putPoints [("c", 3)]], toSeq := 2,
     schema := .null },
    { entries := [putPoints [("a", 5)] ["b"], putPoints [("d", 4)]], toSeq := 4, schema := .null }]

/-- The index has the last vectors of the documents that are left. -/
theorem passes_cover_twoPasses :
    ∃ u, (indexPasses quantizer asciiEnv "emb").run { segs := ⟨{}, {}⟩ } twoPasses = some u ∧
      0 < u.vindex.l0.numFineTotal ∧
      u.vindex.members = vectorMembers "emb" u.vindex.l0.vectorElement
        (replay (twoPasses.flatMap PassInput.entries)) := by
  have hguard : (indexPasses quantizer asciiEnv "emb").Along
      (fun st p => p.Summarizes "emb" st) { segs := ⟨{}, {}⟩ } twoPasses := by
    decide +kernel
  obtain ⟨u, hrun, hmembers⟩ := passes_cover_documents quantizer asciiEnv "emb" 1 ⟨{}, {}⟩
    twoPasses (by simp [twoPasses, all_hasDim_putPoints]) hguard (prefix_refl _)
  have hbuilt : ((indexPasses quantizer asciiEnv "emb").run { segs := ⟨{}, {}⟩ }
      twoPasses).map (fun u => decide (0 < u.vindex.l0.numFineTotal)) = some true := by
    decide +kernel
  rw [hrun] at hbuilt
  have hpos : 0 < u.vindex.l0.numFineTotal := of_decide_eq_true (Option.some.inj hbuilt)
  exact ⟨u, hrun, hpos, hmembers hpos⟩

def createAndDeletePass : PassInput where
  entries := [putPoints [("a", 1)], putPoints [] ["a"]]
  toSeq := 2
  schema := .null

/-- A document that is created and deleted in one pass stays in the index. -/
theorem pass_indexes_deleted_document :
    ∃ (p : PassInput) (u : IndexState), (∀ e ∈ p.entries, e.All (HasDim "emb" 1)) ∧
      (indexPasses quantizer asciiEnv "emb").run { segs := ⟨{}, {}⟩ } [p] = some u ∧
      0 < u.vindex.l0.numFineTotal ∧ replay p.entries = ∅ ∧
      u.vindex.members ≠ vectorMembers "emb" u.vindex.l0.vectorElement (replay p.entries) := by
  have hrun : ((indexPasses quantizer asciiEnv "emb").run { segs := ⟨{}, {}⟩ }
      [createAndDeletePass]).map
        (fun u => (u.vindex.l0.numFineTotal, u.vindex.members.card)) = some (1, 1) := by
    decide +kernel
  obtain ⟨u, hu, hend⟩ := Option.map_eq_some_iff.mp hrun
  obtain ⟨hfine, hcard⟩ := Prod.mk.inj hend
  have hgone : replay createAndDeletePass.entries = ∅ := by
    decide +kernel
  refine ⟨createAndDeletePass, u, ?_, hu, ?_, hgone, ?_⟩
  · intro e he
    simp only [createAndDeletePass, mem_cons, not_mem_nil, or_false] at he
    rcases he with rfl | rfl <;> exact all_hasDim_putPoints _ _
  · rw [hfine]
    exact Nat.zero_lt_one
  · rw [hgone]
    intro hzero
    rw [hzero] at hcard
    cases hcard

end OpenPuffer
