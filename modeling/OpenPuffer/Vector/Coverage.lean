import OpenPuffer.Vector.Maintenance

/-!
# The members an index should have

The index of a field should have one member per document with a vector there.  `vectorMembers`
is this multiset for a document map.  A delta of vectors of the index's dimension does the same
to it and to the index (`applyDelta_spec`).  A build places every vector it is given
(`build_spec`).
-/

namespace OpenPuffer

open Multiset HashMap

/-! ## Members of documents -/

def memberOf (field : String) (element : VectorElement) (doc : Document) :
    Multiset ClusterMember :=
  match extractVector doc.attributes field with
  | .error _ => 0
  | .ok v => {.fromValues doc.id v element}

/-- Drop the members with an id. -/
def bagErase (bag : Multiset ClusterMember) (id : String) : Multiset ClusterMember :=
  bag.filter fun m => m.docId ≠ id

/-- Replace the members with the id of a document. -/
def bagInsert (field : String) (element : VectorElement) (bag : Multiset ClusterMember)
    (doc : Document) : Multiset ClusterMember :=
  memberOf field element doc + bagErase bag doc.id

/-- One member per document with a vector. -/
def vectorMembers (field : String) (element : VectorElement) (docs : DocMap) :
    Multiset ClusterMember :=
  docs.entries.bind fun e => memberOf field element ⟨e.1, e.2⟩

section Bags

variable {field : String} {element : VectorElement}

@[simp] theorem docId_fromValues (id : String) (v : Vec) (element : VectorElement) :
    (ClusterMember.fromValues id v element).docId = id := by
  cases element <;> rfl

variable {m : ClusterMember} {docs : DocMap}

theorem docId_of_mem_memberOf {doc : Document} (h : m ∈ memberOf field element doc) :
    m.docId = doc.id := by
  rw [memberOf] at h
  split at h
  · exact absurd h (notMem_zero m)
  · rw [mem_singleton.mp h, docId_fromValues]

theorem isOk_of_mem_memberOf {doc : Document} (h : m ∈ memberOf field element doc) :
    (extractVector doc.attributes field).isOk = true := by
  rw [memberOf] at h
  split at h
  · exact absurd h (notMem_zero m)
  · rename_i v hv
    rw [hv]
    rfl

theorem bagErase_memberOf_self (doc : Document) :
    bagErase (memberOf field element doc) doc.id = 0 := by
  rw [bagErase, filter_eq_nil]
  intro m hm hne
  exact hne (docId_of_mem_memberOf hm)

@[simp] theorem bagErase_add (bag bag' : Multiset ClusterMember) (id : String) :
    bagErase (bag + bag') id = bagErase bag id + bagErase bag' id :=
  filter_add _ _ _

theorem vectorMembers_empty : vectorMembers field element ∅ = 0 := rfl

theorem vectorMembers_insert_of_none (field : String) (element : VectorElement) (doc : Document)
    (h : docs.lookup doc.id = none) :
    vectorMembers field element (docs.insert doc.id doc.attributes)
      = memberOf field element doc + vectorMembers field element docs := by
  rw [vectorMembers, Finmap.entries_insert_of_notMem (Finmap.lookup_eq_none.mp h),
    cons_bind]
  rfl

theorem mem_vectorMembers :
    m ∈ vectorMembers field element docs ↔
      ∃ doc v, docs.get m.docId = some doc ∧ extractVector doc.attributes field = .ok v ∧
        m = .fromValues m.docId v element := by
  rw [vectorMembers, mem_bind]
  constructor
  · rintro ⟨⟨id, attrs⟩, he, hm⟩
    have hid := docId_of_mem_memberOf hm
    rw [memberOf] at hm
    split at hm
    · exact absurd hm (notMem_zero m)
    · rename_i v hv
      refine ⟨⟨id, attrs⟩, v, ?_, hv, hid ▸ mem_singleton.mp hm⟩
      rw [DocMap.get, hid, Finmap.lookup_eq_some_iff.mpr he]
      rfl
  · rintro ⟨doc, v, hdoc, hv, hm⟩
    rw [DocMap.get, Option.map_eq_some_iff] at hdoc
    obtain ⟨attrs, hattrs, rfl⟩ := hdoc
    refine ⟨⟨m.docId, attrs⟩, Finmap.lookup_eq_some_iff.mp hattrs, ?_⟩
    rw [memberOf, hv]
    exact mem_singleton.mpr hm

/-- Every document is a member at most once. -/
theorem nodup_vectorMembers (docs : DocMap) :
    ((vectorMembers field element docs).map ClusterMember.docId).Nodup := by
  have hle : ∀ entries : Multiset (Sigma fun _ : String => Attributes),
      (entries.bind fun e => memberOf field element ⟨e.1, e.2⟩).map ClusterMember.docId
        ≤ entries.map Sigma.fst := by
    intro entries
    induction entries using Multiset.induction_on with
    | empty => exact le_refl _
    | cons e entries ih =>
      have hone : (memberOf field element ⟨e.1, e.2⟩).map ClusterMember.docId ≤ {e.1} := by
        rw [memberOf]
        split
        · exact Multiset.zero_le _
        · simp
      rw [Multiset.cons_bind, Multiset.map_add, Multiset.map_cons]
      exact add_le_add hone ih
  exact Multiset.nodup_of_le (hle docs.entries) (Multiset.nodup_keys.mpr docs.nodupKeys)

/-- No member has the id of an absent document. -/
theorem bagErase_vectorMembers_of_none {id : String} (h : docs.lookup id = none) :
    bagErase (vectorMembers field element docs) id = vectorMembers field element docs := by
  rw [bagErase, filter_eq_self]
  intro m hm heq
  obtain ⟨e, he, hme⟩ := mem_bind.mp hm
  have hid : e.1 = id := (docId_of_mem_memberOf hme).symm.trans heq
  have hsome := Finmap.lookup_eq_some_iff.mpr he
  rw [hid, h] at hsome
  cases hsome

theorem vectorMembers_erase (docs : DocMap) (id : String) :
    vectorMembers field element (docs.erase id)
      = bagErase (vectorMembers field element docs) id := by
  cases h : docs.lookup id with
  | none => rw [erase_of_lookup_none h, bagErase_vectorMembers_of_none h]
  | some attrs =>
    have hgone : (docs.erase id).lookup id = none := Finmap.lookup_erase id docs
    have hsplit := vectorMembers_insert_of_none field element ⟨id, attrs⟩ hgone
    rw [insert_erase, insert_of_lookup h] at hsplit
    rw [hsplit, bagErase_add, bagErase_memberOf_self, zero_add,
      bagErase_vectorMembers_of_none hgone]

theorem vectorMembers_insert (docs : DocMap) (doc : Document) :
    vectorMembers field element (docs.insert doc.id doc.attributes)
      = bagInsert field element (vectorMembers field element docs) doc := by
  rw [← insert_erase, vectorMembers_insert_of_none _ _ _ (Finmap.lookup_erase doc.id docs),
    vectorMembers_erase, bagInsert]

theorem vectorMembers_mergeDelta (docs : DocMap) (upserts : List Document)
    (deletes : List String) :
    vectorMembers field element (docs.mergeDelta upserts deletes)
      = upserts.foldl (bagInsert field element)
        (deletes.foldl bagErase (vectorMembers field element docs)) := by
  have hdeleted : vectorMembers field element (deletes.foldl (fun ds id => ds.erase id) docs)
      = deletes.foldl bagErase (vectorMembers field element docs) := by
    induction deletes generalizing docs with
    | nil => rfl
    | cons id deletes ih => rw [List.foldl_cons, List.foldl_cons, ih, vectorMembers_erase]
  rw [DocMap.mergeDelta, ← hdeleted]
  generalize deletes.foldl (fun ds id => ds.erase id) docs = docs₁
  induction upserts generalizing docs₁ with
  | nil => rfl
  | cons doc upserts ih => rw [List.foldl_cons, List.foldl_cons, ih, vectorMembers_insert]

/-- A version with a vector is the last one of its document. -/
def VectorsLast (field : String) (upserts : List Document) : Prop :=
  upserts.Pairwise fun a b => (extractVector a.attributes field).isOk = true → a.id ≠ b.id

instance (field : String) (upserts : List Document) : Decidable (VectorsLast field upserts) :=
  inferInstanceAs (Decidable (List.Pairwise _ upserts))

theorem vectorsLast_of_nodup {upserts : List Document} (h : (upserts.map Document.id).Nodup) :
    VectorsLast field upserts := by
  refine List.Pairwise.imp ?_ (List.pairwise_map.mp h)
  intro a b hne _
  exact hne

theorem foldl_bagInsert_of_vectorsLast {upserts : List Document} {bag : Multiset ClusterMember}
    (hlast : VectorsLast field upserts) (hnew : ∀ m ∈ bag, ∀ doc ∈ upserts, m.docId ≠ doc.id) :
    upserts.foldl (bagInsert field element) bag
      = (upserts.map (memberOf field element)).sum + bag := by
  induction upserts generalizing bag with
  | nil => simp
  | cons doc upserts ih =>
    obtain ⟨hfirst, hrest⟩ := List.pairwise_cons.mp hlast
    have hkeep : bagErase bag doc.id = bag := by
      rw [bagErase, filter_eq_self]
      exact fun m hm => hnew m hm doc List.mem_cons_self
    have hnew' : ∀ m ∈ bagInsert field element bag doc, ∀ d ∈ upserts, m.docId ≠ d.id := by
      intro m hm d hd
      rw [bagInsert, hkeep, mem_add] at hm
      rcases hm with hm | hm
      · rw [docId_of_mem_memberOf hm]
        exact hfirst d hd (isOk_of_mem_memberOf hm)
      · exact hnew m hm d (List.mem_cons_of_mem _ hd)
    rw [List.foldl_cons, ih hrest hnew', bagInsert, hkeep, List.map_cons, List.sum_cons,
      add_left_comm, add_assoc]

theorem vectorMembers_eq_sum {list : List Document} (h : docs.Lists list) :
    vectorMembers field element docs = (list.map (memberOf field element)).sum := by
  rw [← h.mergeDelta_empty, vectorMembers_mergeDelta,
    foldl_bagInsert_of_vectorsLast (vectorsLast_of_nodup h.nodup)]
  · exact add_zero _
  · exact fun m hm => absurd hm (notMem_zero m)

end Bags

namespace VectorIndex

section Quantized

variable (q : Quantizer) (o : IterOrder Nat)

/-! ## Deltas -/

/-- All vectors in the field have the given length. -/
def HasDim (field : String) (d : Nat) (attrs : Attributes) : Prop :=
  ∀ v, extractVector attrs field = .ok v → v.length = d

instance (field : String) (d : Nat) : DecidablePred (HasDim field d) := fun attrs =>
  match h : extractVector attrs field with
  | .error _ => isTrue fun v hv => by
    rw [h] at hv
    cases hv
  | .ok v => decidable_of_iff (v.length = d) (by simp [HasDim, h])

variable {idx : VectorIndex} {field : String} {docs : List Document}

theorem removeDoc_becomes (h : idx.Complete) (id : String) :
    Becomes idx (idx.removeDoc id) (bagErase idx.members id) :=
  h.setClusters (memberBag_removeMember id idx.clusters)

theorem assignDocToNearest_spec (h : idx.Complete) (hc : idx.l0.centroids ≠ []) (id : String)
    (v : Vec) :
    ∃ idx', idx.assignDocToNearest q id v = .ok idx' ∧
      Becomes idx idx' ({.fromValues id v idx.l0.vectorElement} + idx.members) := by
  have hlt := head_topMCentroids_lt q idx.l0.centroids hc v idx.l0.distanceMetric
  rw [h.coarse] at hlt
  obtain ⟨l1, hl1, -, -⟩ := h.lookup_l1 hlt
  rw [assignDocToNearest]
  simp only [hl1]
  exact ⟨_, rfl, h.setClusters (memberBag_extendCluster _ _ _ _)⟩

/-- The member that an upsert adds to an index of the given dimension: none if the
vector has another length. -/
def indexedMember (field : String) (element : VectorElement) (d : Nat) (doc : Document) :
    Multiset ClusterMember :=
  if HasDim field d doc.attributes then memberOf field element doc else 0

/-- An upsert on the members of an index of the given dimension. -/
def bagUpsert (field : String) (element : VectorElement) (d : Nat)
    (bag : Multiset ClusterMember) (doc : Document) : Multiset ClusterMember :=
  indexedMember field element d doc + bagErase bag doc.id

theorem upsertDoc_spec (h : idx.Complete) (hc : idx.l0.centroids ≠ []) (doc : Document) :
    ∃ idx', upsertDoc q idx doc = .ok idx' ∧
      Becomes idx idx' (bagUpsert idx.l0.vectorField idx.l0.vectorElement idx.l0.dimensions
        idx.members doc) := by
  have hremoved := removeDoc_becomes h doc.id
  rw [upsertDoc, bagUpsert, indexedMember, memberOf]
  cases hv : extractVector doc.attributes idx.l0.vectorField with
  | error e =>
    refine ⟨_, rfl, ?_⟩
    rw [ite_self, zero_add]
    exact hremoved
  | ok v =>
    have hdim : HasDim idx.l0.vectorField idx.l0.dimensions doc.attributes
        ↔ v.length = idx.l0.dimensions := by
      simp [HasDim, hv]
    by_cases hlen : v.length = idx.l0.dimensions
    · obtain ⟨idx', hrun, hassigned⟩ := assignDocToNearest_spec q hremoved.complete
        (hremoved.centroids ▸ hc) doc.id v
      rw [hremoved.members] at hassigned
      rw [if_pos (hdim.mpr hlen)]
      simp only [hlen, ne_eq]
      exact ⟨idx', hrun, hremoved.trans hassigned⟩
    · rw [if_neg (mt hdim.mp hlen), zero_add]
      simp only [hlen, ne_eq]
      exact ⟨_, rfl, hremoved⟩

theorem foldlM_upsertDoc_spec (upserts : List Document) (h : idx.Complete)
    (hc : idx.l0.centroids ≠ []) :
    ∃ idx', upserts.foldlM (upsertDoc q) idx = .ok idx' ∧
      Becomes idx idx' (upserts.foldl
        (bagUpsert idx.l0.vectorField idx.l0.vectorElement idx.l0.dimensions) idx.members) := by
  induction upserts generalizing idx with
  | nil => exact ⟨idx, rfl, .refl h⟩
  | cons doc upserts ih =>
    obtain ⟨idx₁, hrun₁, h₁⟩ := upsertDoc_spec q h hc doc
    obtain ⟨idx₂, hrun₂, h₂⟩ := ih h₁.complete (h₁.centroids ▸ hc)
    rw [h₁.field, h₁.element, h₁.dimensions, h₁.members] at h₂
    refine ⟨idx₂, ?_, h₁.trans h₂⟩
    rw [List.foldlM_cons, hrun₁]
    exact hrun₂

theorem foldl_removeDoc_becomes (deletes : List String) (h : idx.Complete) :
    Becomes idx (deletes.foldl removeDoc idx) (deletes.foldl bagErase idx.members) := by
  induction deletes generalizing idx with
  | nil => exact .refl h
  | cons id deletes ih =>
    have hstep := removeDoc_becomes h id
    have hrest := ih hstep.complete
    rw [hstep.members] at hrest
    exact hstep.trans hrest

/-- The writes come first, then the maintenance. -/
theorem applyDelta_eq (hd : idx.l0.dimensions ≠ 0) (hc : idx.l0.centroids ≠ [])
    {upserts : List Document} {deletes : List String} {upserted : VectorIndex}
    (hrun : upserts.foldlM (upsertDoc q) (deletes.foldl removeDoc idx) = .ok upserted) :
    idx.applyDelta q o upserts deletes = runIncrementalMaintenance q o upserted := by
  have hnot : ¬(idx.l0.dimensions = 0 ∨ idx.l0.centroids.isEmpty = true) := by
    rw [List.isEmpty_iff]
    exact not_or.mpr ⟨hd, hc⟩
  rw [applyDelta, if_neg hnot, hrun]
  rfl

/-- A delta on the members of an index: the deletes, then the upserts. -/
theorem applyDelta_becomes (h : idx.Complete) (hd : idx.l0.dimensions ≠ 0)
    (hc : idx.l0.centroids ≠ []) (upserts : List Document) (deletes : List String) :
    ∃ idx', idx.applyDelta q o upserts deletes = .ok idx' ∧
      Becomes idx idx' (upserts.foldl
        (bagUpsert idx.l0.vectorField idx.l0.vectorElement idx.l0.dimensions)
        (deletes.foldl bagErase idx.members)) := by
  have hdeleted := foldl_removeDoc_becomes deletes h
  obtain ⟨upserted, hrun, hupserted⟩ := foldlM_upsertDoc_spec q upserts hdeleted.complete
    (hdeleted.centroids ▸ hc)
  rw [hdeleted.field, hdeleted.element, hdeleted.dimensions, hdeleted.members] at hupserted
  have hboth := hdeleted.trans hupserted
  obtain ⟨idx', hrun', hend⟩ := runIncrementalMaintenance_spec q o hboth.complete
  exact ⟨idx', (applyDelta_eq q o hd hc hrun).trans hrun', hboth.keeping hend⟩

/-- If all vectors have the dimension of the index, a delta does to its members what
it does to those of the documents. -/
theorem applyDelta_spec (h : idx.Complete) (hd : idx.l0.dimensions ≠ 0)
    (hc : idx.l0.centroids ≠ []) {upserts : List Document}
    (hdim : ∀ doc ∈ upserts, HasDim idx.l0.vectorField idx.l0.dimensions doc.attributes)
    (deletes : List String) :
    ∃ idx', idx.applyDelta q o upserts deletes = .ok idx' ∧
      Becomes idx idx' (upserts.foldl (bagInsert idx.l0.vectorField idx.l0.vectorElement)
        (deletes.foldl bagErase idx.members)) := by
  obtain ⟨idx', hrun, hidx⟩ := applyDelta_becomes q o h hd hc upserts deletes
  refine ⟨idx', hrun, ?_⟩
  have hsame : ∀ bag, ∀ doc ∈ upserts,
      bagUpsert idx.l0.vectorField idx.l0.vectorElement idx.l0.dimensions bag doc
        = bagInsert idx.l0.vectorField idx.l0.vectorElement bag doc := by
    intro bag doc hdoc
    rw [bagUpsert, indexedMember, if_pos (hdim doc hdoc), bagInsert]
  rwa [List.foldl_ext _ _ _ hsame] at hidx

/-! ## The vectors of a build -/

def pairMembers (element : VectorElement) (pairs : List (String × Vec)) :
    Multiset ClusterMember :=
  (pairs : Multiset (String × Vec)).map fun p => .fromValues p.1 p.2 element

theorem collectPair_of_ok {doc : Document} {v : Vec}
    (hv : extractVector doc.attributes field = .ok v) (hlen : v.length ≠ 0)
    {found : Nat × List (String × Vec)} (hfound : found.1 = 0 ∨ found.1 = v.length) :
    collectPair field found doc = (v.length, found.2 ++ [(doc.id, v)]) := by
  have hne : v.isEmpty = false := by
    cases v with
    | nil => exact absurd rfl hlen
    | cons => rfl
  rw [collectPair]
  simp only [hv, hne, Bool.false_eq_true, if_false]
  rcases hfound with h0 | h
  · rw [if_pos h0]
  · simp [h]

/-- If all vectors have one length, a build uses all of them. -/
theorem foldl_collectPair {d : Nat} (hd : d ≠ 0) (element : VectorElement)
    (hdim : ∀ doc ∈ docs, HasDim field d doc.attributes) (found : Nat × List (String × Vec))
    (hfound : found.2 = [] ∧ found.1 = 0 ∨ found.1 = d) :
    pairMembers element (docs.foldl (collectPair field) found).2
        = pairMembers element found.2 + (docs.map (memberOf field element)).sum ∧
      ((docs.foldl (collectPair field) found).2 ≠ [] →
        (docs.foldl (collectPair field) found).1 = d) := by
  induction docs generalizing found with
  | nil =>
    refine ⟨by simp, ?_⟩
    exact fun hne => hfound.resolve_left fun h => hne h.1
  | cons doc docs ih =>
    have hrest : ∀ e ∈ docs, HasDim field d e.attributes :=
      fun e he => hdim e (List.mem_cons_of_mem doc he)
    rw [List.foldl_cons, List.map_cons, List.sum_cons, memberOf]
    cases hv : extractVector doc.attributes field with
    | error e =>
      have hskip : collectPair field found doc = found := by
        rw [collectPair, hv]
      rw [hskip, zero_add]
      exact ih hrest found hfound
    | ok v =>
      have hlen := hdim doc List.mem_cons_self v hv
      subst hlen
      have htake := collectPair_of_ok hv hd (hfound.imp_left And.right)
      obtain ⟨hmem, hdims⟩ := ih hrest _ (.inr (congrArg Prod.fst htake))
      refine ⟨?_, hdims⟩
      rw [hmem, htake, ← add_assoc]
      congr 1
      simp [pairMembers, ← coe_add]

theorem collectPairs_spec {d : Nat} (hd : d ≠ 0) (element : VectorElement)
    (hdim : ∀ doc ∈ docs, HasDim field d doc.attributes) :
    pairMembers element (collectPairs field docs).2 = (docs.map (memberOf field element)).sum ∧
      ((collectPairs field docs).2 ≠ [] → (collectPairs field docs).1 = d) := by
  obtain ⟨hmem, hdims⟩ := foldl_collectPair hd element hdim (0, []) (.inl ⟨rfl, rfl⟩)
  exact ⟨hmem.trans (zero_add _), hdims⟩

/-- Empty vectors are not indexed. -/
theorem collectPairs_of_zero (hdim : ∀ doc ∈ docs, HasDim field 0 doc.attributes) :
    (collectPairs field docs).2 = [] := by
  have hskip : ∀ doc ∈ docs, ∀ found, collectPair field found doc = found := by
    intro doc hdoc found
    rw [collectPair]
    split
    · rfl
    · rename_i v hv
      rw [List.length_eq_zero_iff.mp (hdim doc hdoc v hv)]
      rfl
  rw [collectPairs]
  clear hdim
  induction docs with
  | nil => rfl
  | cons doc docs ih =>
    rw [List.foldl_cons, hskip doc List.mem_cons_self]
    exact ih fun e he => hskip e (List.mem_cons_of_mem doc he)

/-! ## Sizes of a build -/

theorem numFineForVersion_bounds {n : Nat} (hn : 0 < n) (annVersion : Nat) :
    0 < numFineForVersion n annVersion ∧ numFineForVersion n annVersion ≤ n := by
  simp only [numFineForVersion, numFineV3, numFineV2, clamp, maxFinePerCoarse, maxFinePerCoarseV3]
  split
  · omega
  · split <;> omega

theorem lowerCoarseV3_bounds (n : Nat) {k : Nat} (hk : 0 < k) :
    0 < lowerCoarseV3 n k ∧ lowerCoarseV3 n k ≤ k := by
  induction k with
  | zero => omega
  | succ k ih =>
    rw [lowerCoarseV3]
    split
    · rename_i h
      omega
    · omega

theorem numCoarseForVersion_bounds {n : Nat} (hn : 0 < n) (annVersion : Nat) :
    0 < numCoarseForVersion n annVersion ∧ numCoarseForVersion n annVersion ≤ n := by
  have hlow := lowerCoarseV3_bounds n
    (k := min (clamp (max (n / v3TargetDocsPerCoarse) 8) 8 n) maxCoarseCentroidsV3)
  simp only [numCoarseForVersion, numCoarseV3, numCoarseV2, clamp, maxCoarseCentroids,
    maxCoarseCentroidsV3] at hlow ⊢
  split
  · omega
  · split
    · split
      · omega
      · have := hlow (by omega)
        omega
    · split <;> omega

theorem assignToCentroids_lt (pairs : List (String × Vec)) {centroids : List Vec}
    (h : centroids ≠ []) (metric : DistanceMetric) (id : String) :
    (assignToCentroids q.scoreVector pairs centroids metric).getOr 0 id < centroids.length := by
  have hfold : ∀ out : HashMap String Nat, out.getOr 0 id < centroids.length →
      (pairs.foldl (fun out p => out.insert p.1
        (nearestCentroidId q.scoreVector p.2 centroids metric)) out).getOr 0 id
        < centroids.length := by
    induction pairs with
    | nil => exact fun _ hout => hout
    | cons p pairs ih =>
      intro out hout
      refine ih _ ?_
      rw [getOr, lookup_insert_ite]
      split
      · exact nearestCentroidId_lt _ _ h _
      · exact hout
  exact hfold ∅ (List.length_pos_iff.mpr h)

/-! ## The cells of a build -/

theorem sum_pairMembers (element : VectorElement) {g : String × Vec → Nat} {k : Nat}
    (pairs : List (String × Vec)) (h : ∀ d ∈ pairs, g d < k) :
    ((List.range k).map fun c => pairMembers element (pairs.filter fun d => g d = c)).sum
      = pairMembers element pairs := by
  have hall := congrArg
    (mapAddMonoidHom fun p => ClusterMember.fromValues p.1 p.2 element)
    (sum_filter_eq g pairs h)
  rw [map_list_sum, List.map_map] at hall
  exact hall

theorem memberBag_placePairs (segmentId : Nat) (element : VectorElement)
    (target : String × Vec → Nat) (pairs : List (String × Vec))
    (clusters : HashMap Nat ClusterSegment) :
    memberBag (pairs.foldl (fun cs d =>
        extendCluster segmentId (target d) [.fromValues d.1 d.2 element] cs) clusters)
      = pairMembers element pairs + memberBag clusters := by
  induction pairs generalizing clusters with
  | nil => simp [pairMembers]
  | cons d pairs ih =>
    rw [List.foldl_cons, ih, memberBag_extendCluster, ← add_assoc]
    congr 1
    rw [add_comm]
    rfl

/-- The state of a build after its first `n` cells. -/
structure Built (p : BuildParams) (cells : Nat → List (String × Vec)) (n : Nat)
    (st : BuildState) : Prop where
  counts : st.fineCounts
    = (List.range n).map fun c => numFineForVersion (cells c).length p.annVersion
  start : st.globalStart = st.fineCounts.sum
  cell : ∀ c < n, ∃ l1, st.l1.lookup c = some l1 ∧
    l1.numFine = numFineForVersion (cells c).length p.annVersion ∧
    l1.centroids.length = numFineForVersion (cells c).length p.annVersion
  ids : ∀ c l1, st.l1.lookup c = some l1 → l1.coarseId = c
  members : memberBag st.clusters
    = ((List.range n).map fun c => pairMembers p.element (cells c)).sum

theorem length_fineVecs (p : BuildParams) (cell : List (String × Vec)) :
    (if cell.isEmpty then []
      else q.kmeansCentroids cell (numFineForVersion cell.length p.annVersion) p.dimensions
        p.metric).length = numFineForVersion cell.length p.annVersion := by
  cases cell with
  | nil => rfl
  | cons d cell =>
    obtain ⟨hpos, hle⟩ := numFineForVersion_bounds
      (List.length_pos_iff.mpr (List.cons_ne_nil d cell)) p.annVersion
    rw [if_neg (by simp), q.length_kmeansCentroids _ _ _ _ hpos]
    exact Nat.min_eq_left hle

theorem Built.next {p : BuildParams} {byCoarse : HashMap Nat (List (String × Vec))} {n : Nat}
    {st : BuildState} (h : Built p (byCoarse.getOr []) n st) :
    Built p (byCoarse.getOr []) (n + 1) (buildCell q p byCoarse st n) where
  counts := by
    rw [buildCell, h.counts, List.range_succ, List.map_append]
    rfl
  start := by
    rw [buildCell, h.start]
    simp
  cell := by
    intro c hc
    rw [buildCell, lookup_insert_ite]
    rcases Nat.lt_succ_iff_lt_or_eq.mp hc with hlt | rfl
    · rw [if_neg (Nat.ne_of_lt hlt)]
      exact h.cell c hlt
    · rw [if_pos rfl]
      exact ⟨_, rfl, length_fineVecs q p _, length_fineVecs q p _⟩
  ids := by
    intro c l1 hl1
    rw [buildCell, lookup_insert_ite] at hl1
    split at hl1
    · rename_i hcn
      cases hl1
      exact hcn.symm
    · exact h.ids c l1 hl1
  members := by
    rw [buildCell, memberBag_placePairs, h.members, List.range_succ, add_comm]
    simp

theorem built_foldl (p : BuildParams) (byCoarse : HashMap Nat (List (String × Vec))) (n : Nat) :
    Built p (byCoarse.getOr []) n ((List.range n).foldl (buildCell q p byCoarse) {}) := by
  induction n with
  | zero =>
    refine ⟨rfl, rfl, fun c hc => absurd hc (Nat.not_lt_zero c), ?_, rfl⟩
    intro c l1 hl1
    cases hl1
  | succ n ih =>
    rw [List.range_succ, List.foldl_append]
    exact ih.next q

/-- A build places each of its vectors once. -/
theorem build_spec {segmentId : Nat} {metric : DistanceMetric} {schema : Json}
    {cfg : AnnBuildConfig} (h : build q segmentId field metric docs schema cfg = some idx) :
    idx.Complete ∧ 0 < idx.l0.numFineTotal ∧ idx.l0.centroids ≠ [] ∧
      idx.l0.vectorField = field ∧ idx.l0.dimensions = (collectPairs field docs).1 ∧
      idx.l0.vectorElement = vectorElementForField schema field ∧
      idx.members = pairMembers (vectorElementForField schema field)
        (collectPairs field docs).2 := by
  rw [build] at h
  generalize collectPairs field docs = found at h ⊢
  obtain ⟨dimensions, pairs⟩ := found
  simp only at h
  split at h
  · cases h
  rename_i hsome
  have hne : pairs ≠ [] := fun hnil => hsome (List.isEmpty_iff.mpr hnil)
  obtain ⟨hkpos, hkle⟩ :=
    numCoarseForVersion_bounds (List.length_pos_iff.mpr hne) cfg.annVersion
  generalize hk : numCoarseForVersion pairs.length cfg.annVersion = k at h hkpos hkle
  have hlen : (q.kmeansCentroids pairs k dimensions metric).length = k := by
    rw [q.length_kmeansCentroids _ _ _ _ hkpos]
    exact Nat.min_eq_left hkle
  generalize q.kmeansCentroids pairs k dimensions metric = coarseVecs at h hlen
  have hcoarse : coarseVecs ≠ [] := List.ne_nil_of_length_pos (hlen ▸ hkpos)
  have hassign := assignToCentroids_lt q pairs hcoarse metric
  generalize assignToCentroids q.scoreVector pairs coarseVecs metric = assign at h hassign
  generalize hp : (BuildParams.mk segmentId metric (vectorElementForField schema field) dimensions
    cfg.annVersion) = p at h
  have hbuilt := built_foldl q p (groupBy (fun d => assign.getOr 0 d.1) pairs) k
  generalize (List.range k).foldl (buildCell q p _) {} = st at h hbuilt
  cases h
  have hcells : ∀ c, (groupBy (fun d => assign.getOr 0 d.1) pairs).getOr [] c
      = pairs.filter fun d => assign.getOr 0 d.1 = c := getOr_groupBy _ pairs
  have hcount : st.fineCounts.length = k := by
    rw [hbuilt.counts, List.length_map, List.length_range]
  refine ⟨⟨?_, ?_, ?_, hbuilt.ids, hbuilt.start⟩, ?_, hcoarse, rfl, rfl, rfl, ?_⟩
  · exact hlen.trans hcount.symm
  · exact hcount.symm
  · intro c count hcount
    rw [hbuilt.counts, List.getElem?_map, Option.map_eq_some_iff] at hcount
    obtain ⟨c', hc', rfl⟩ := hcount
    obtain ⟨hlt, rfl⟩ := List.getElem?_eq_some_iff.mp hc'
    rw [List.length_range] at hlt
    rw [List.getElem_range]
    exact hbuilt.cell c hlt
  · obtain ⟨d, rest, rfl⟩ := List.exists_cons_of_ne_nil hne
    show 0 < st.globalStart
    rw [hbuilt.start, hbuilt.counts]
    have hd : assign.getOr 0 d.1 < k := hlen ▸ hassign d.1
    have hmem : numFineForVersion ((groupBy (fun d => assign.getOr 0 d.1)
        (d :: rest)).getOr [] (assign.getOr 0 d.1)).length p.annVersion ∈
        (List.range k).map fun c => numFineForVersion ((groupBy
          (fun d => assign.getOr 0 d.1) (d :: rest)).getOr [] c).length p.annVersion :=
      List.mem_map.mpr ⟨_, List.mem_range.mpr hd, rfl⟩
    refine Nat.lt_of_lt_of_le (numFineForVersion_bounds ?_ p.annVersion).1
      (List.le_sum_of_mem hmem)
    rw [hcells]
    simp
  · show memberBag st.clusters = _
    rw [hbuilt.members]
    subst hp
    simp only [hcells]
    exact sum_pairMembers _ pairs fun d _ => hlen ▸ hassign d.1

end Quantized

end VectorIndex

end OpenPuffer
