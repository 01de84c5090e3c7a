import OpenPuffer.Vector.Coverage

/-!
# What a delta leaves in the index

`VectorIndex.applyDelta` erases the deleted ids, replaces the upserted documents one after the
other, and runs maintenance, which keeps the members.  So a member stays if its id is neither
deleted nor upserted, and of the versions of an upserted document the last one counts
(`foldl_replace`).  An index without a dimension or coarse centroids is returned as it is.
-/

namespace OpenPuffer

open Multiset

namespace VectorIndex

/-! ## Last versions -/

def lastVersions : List Document → List Document
  | [] => []
  | doc :: docs =>
    if doc.id ∈ docs.map Document.id then lastVersions docs else doc :: lastVersions docs

theorem mem_of_mem_lastVersions {doc : Document} {docs : List Document}
    (h : doc ∈ lastVersions docs) : doc ∈ docs := by
  induction docs with
  | nil => exact h
  | cons d docs ih =>
    rw [lastVersions] at h
    split at h
    · exact List.mem_cons_of_mem d (ih h)
    · rcases List.mem_cons.mp h with rfl | hrest
      · exact List.mem_cons_self
      · exact List.mem_cons_of_mem d (ih hrest)

theorem nodup_lastVersions (docs : List Document) :
    ((lastVersions docs).map Document.id).Nodup := by
  induction docs with
  | nil => exact List.nodup_nil
  | cons doc docs ih =>
    rw [lastVersions]
    split
    · exact ih
    · rename_i hnew
      rw [List.map_cons, List.nodup_cons]
      refine ⟨fun hmem => hnew ?_, ih⟩
      obtain ⟨d, hd, hid⟩ := List.mem_map.mp hmem
      exact List.mem_map.mpr ⟨d, mem_of_mem_lastVersions hd, hid⟩

section Bags

variable {field : String} {element : VectorElement} {d : Nat}

theorem foldl_bagErase (deletes : List String) (bag : Multiset ClusterMember) :
    deletes.foldl bagErase bag = bag.filter fun m => m.docId ∉ deletes := by
  induction deletes generalizing bag with
  | nil => simp
  | cons id deletes ih =>
    rw [List.foldl_cons, ih, bagErase, filter_filter]
    refine filter_congr fun m _ => ?_
    rw [List.mem_cons, not_or, and_comm]

/-- Replacing documents one after the other: of the members with the id of one of
them, those of its last version remain. -/
theorem foldl_replace {g : Document → Multiset ClusterMember}
    (hg : ∀ doc, ∀ m ∈ g doc, m.docId = doc.id) (upserts : List Document)
    (bag : Multiset ClusterMember) :
    upserts.foldl (fun bag doc => g doc + bagErase bag doc.id) bag
      = (bag.filter fun m => m.docId ∉ upserts.map Document.id)
        + ((lastVersions upserts).map g).sum := by
  induction upserts generalizing bag with
  | nil => simp [lastVersions]
  | cons doc upserts ih =>
    have hold : (bagErase bag doc.id).filter (fun m => m.docId ∉ upserts.map Document.id)
        = bag.filter fun m => m.docId ∉ (doc :: upserts).map Document.id := by
      rw [bagErase, filter_filter]
      refine filter_congr fun m _ => ?_
      rw [List.map_cons, List.mem_cons, not_or, and_comm]
    rw [List.foldl_cons, ih, filter_add, hold, lastVersions]
    by_cases hlater : doc.id ∈ upserts.map Document.id
    · have hgone : (g doc).filter (fun m => m.docId ∉ upserts.map Document.id) = 0 :=
        filter_eq_nil.mpr fun m hm => by
          rw [hg doc m hm]
          exact not_not.mpr hlater
      rw [hgone, if_pos hlater, zero_add]
    · have hkept : (g doc).filter (fun m => m.docId ∉ upserts.map Document.id) = g doc :=
        filter_eq_self.mpr fun m hm => by
          rw [hg doc m hm]
          exact hlater
      have hsum : ((doc :: lastVersions upserts).map g).sum
          = g doc + ((lastVersions upserts).map g).sum := by
        rw [List.map_cons, List.sum_cons]
      rw [hkept, if_neg hlater, hsum, add_left_comm, add_assoc]

theorem foldl_replace_foldl_bagErase {g : Document → Multiset ClusterMember}
    (hg : ∀ doc, ∀ m ∈ g doc, m.docId = doc.id) (upserts : List Document) (deletes : List String)
    (bag : Multiset ClusterMember) :
    upserts.foldl (fun bag doc => g doc + bagErase bag doc.id) (deletes.foldl bagErase bag)
      = (bag.filter fun m => m.docId ∉ deletes ∧ m.docId ∉ upserts.map Document.id)
        + ((lastVersions upserts).map g).sum := by
  rw [foldl_replace hg, foldl_bagErase, filter_filter]
  congr 1
  exact filter_congr fun m _ => and_comm

theorem docId_of_mem_indexedMember {doc : Document} {m : ClusterMember}
    (h : m ∈ indexedMember field element d doc) : m.docId = doc.id := by
  rw [indexedMember] at h
  split at h
  · exact docId_of_mem_memberOf h
  · exact absurd h (notMem_zero m)

end Bags

/-- Each document gives at most one member, with its id. -/
theorem map_docId_sum_indexedMember_le (field : String) (element : VectorElement) (d : Nat)
    (docs : List Document) :
    ((docs.map (indexedMember field element d)).sum).map ClusterMember.docId
      ≤ (docs.map Document.id : Multiset String) := by
  induction docs with
  | nil => exact zero_le _
  | cons doc docs ih =>
    have hone : (indexedMember field element d doc).map ClusterMember.docId ≤ {doc.id} := by
      rw [indexedMember, memberOf]
      split
      · split
        · exact zero_le _
        · rw [map_singleton, docId_fromValues]
      · exact zero_le _
    rw [List.map_cons, List.sum_cons, map_add, List.map_cons, ← cons_coe,
      ← singleton_add]
    exact add_le_add hone ih

def deltaMembers (idx : VectorIndex) (upserts : List Document) (deletes : List String) :
    Multiset ClusterMember :=
  (idx.members.filter fun m => m.docId ∉ deletes ∧ m.docId ∉ upserts.map Document.id)
    + ((lastVersions upserts).map
        (indexedMember idx.l0.vectorField idx.l0.vectorElement idx.l0.dimensions)).sum

theorem applyDelta_becomes_deltaMembers (q : Quantizer) (o : IterOrder Nat) {idx : VectorIndex}
    (h : idx.Complete) (hd : idx.l0.dimensions ≠ 0) (hc : idx.l0.centroids ≠ [])
    (upserts : List Document) (deletes : List String) :
    ∃ idx', idx.applyDelta q o upserts deletes = .ok idx' ∧
      Becomes idx idx' (idx.deltaMembers upserts deletes) := by
  obtain ⟨idx', hrun, hidx⟩ := applyDelta_becomes q o h hd hc upserts deletes
  refine ⟨idx', hrun, ?_⟩
  have hall : upserts.foldl
      (bagUpsert idx.l0.vectorField idx.l0.vectorElement idx.l0.dimensions)
      (deletes.foldl bagErase idx.members) = idx.deltaMembers upserts deletes :=
    foldl_replace_foldl_bagErase (fun _ _ => docId_of_mem_indexedMember) upserts deletes _
  rwa [hall] at hidx

/-- A delta leaves the members whose id it does not mention and one member for each
upserted document whose last version has a vector of the dimension of the index. -/
theorem applyDelta_maintains_members (q : Quantizer) (o : IterOrder Nat) (idx : VectorIndex)
    (h : idx.Complete) (hd : idx.l0.dimensions ≠ 0) (hc : idx.l0.centroids ≠ [])
    (hone : (idx.members.map ClusterMember.docId).Nodup) (upserts : List Document)
    (deletes : List String) :
    ∃ idx', idx.applyDelta q o upserts deletes = .ok idx' ∧
      idx'.members = (idx.members.filter fun m =>
          m.docId ∉ deletes ∧ m.docId ∉ upserts.map Document.id)
        + ((lastVersions upserts).map
            (indexedMember idx.l0.vectorField idx.l0.vectorElement idx.l0.dimensions)).sum ∧
      (idx'.members.map ClusterMember.docId).Nodup := by
  obtain ⟨idx', hrun, hidx⟩ := applyDelta_becomes_deltaMembers q o h hd hc upserts deletes
  refine ⟨idx', hrun, hidx.members, ?_⟩
  rw [hidx.members, deltaMembers, map_add, nodup_add]
  have hids := map_docId_sum_indexedMember_le idx.l0.vectorField idx.l0.vectorElement
    idx.l0.dimensions (lastVersions upserts)
  refine ⟨?_, nodup_of_le hids (nodup_lastVersions upserts), ?_⟩
  · exact nodup_of_le (map_le_map (filter_le _ _)) hone
  · rw [disjoint_left]
    intro id hold hnew
    obtain ⟨m, hm, rfl⟩ := mem_map.mp hold
    obtain ⟨doc, hdoc, hid⟩ := List.mem_map.mp (mem_of_le hids hnew)
    exact (mem_filter.mp hm).2.2
      (List.mem_map.mpr ⟨doc, mem_of_mem_lastVersions hdoc, hid⟩)

/-- Of two documents one is deleted and one upserted twice, the last time with
another vector. -/
theorem applyDelta_maintains_two_documents :
    ∃ idx idx', build quantizer 0 "emb" .cosineDistance
        [pointDoc "a" 1, pointDoc "b" 1] .null {} = some idx ∧
      idx.applyDelta quantizer (.sorted Nat)
        [pointDoc "a" 2, pointDoc "a" 3] ["b"] = .ok idx' ∧
      idx'.members = {⟨"a", [.num 3], none⟩} := by
  have hbuilt : (build quantizer 0 "emb" .cosineDistance
      [pointDoc "a" 1, pointDoc "b" 1] .null {}).map (fun idx => decide
        (idx.l0.dimensions ≠ 0 ∧ (idx.members.map ClusterMember.docId).Nodup ∧
          idx.deltaMembers [pointDoc "a" 2, pointDoc "a" 3] ["b"]
            = {⟨"a", [.num 3], none⟩})) = some true := by
    decide +kernel
  obtain ⟨idx, hidx, hfacts⟩ := Option.map_eq_some_iff.mp hbuilt
  obtain ⟨hd, hone, hend⟩ := of_decide_eq_true hfacts
  obtain ⟨hcomplete, -, hc, -⟩ := build_spec quantizer hidx
  obtain ⟨idx', hrun, hmembers, -⟩ := applyDelta_maintains_members quantizer (.sorted Nat) idx
    hcomplete hd hc hone [pointDoc "a" 2, pointDoc "a" 3] ["b"]
  exact ⟨idx, idx', hidx, hrun, hmembers.trans hend⟩

/-- An index without coarse centroids keeps a member that is deleted. -/
theorem applyDelta_without_centroids_keeps_deleted :
    ∃ (idx : VectorIndex) (m : ClusterMember), idx.Complete ∧ idx.members = {m} ∧
      idx.applyDelta quantizer (.sorted Nat) [] [m.docId] = .ok idx := by
  refine ⟨{ clusters := (∅ : HashMap Nat ClusterSegment).insert 0 ⟨0, 0, [⟨"a", [.num 1], none⟩]⟩ },
    ⟨"a", [.num 1], none⟩, ⟨rfl, rfl, ?_, ?_, rfl⟩, by decide +kernel, rfl⟩
  · intro c count hc
    cases hc
  · intro c l1 hl1
    cases hl1

end VectorIndex

end OpenPuffer
