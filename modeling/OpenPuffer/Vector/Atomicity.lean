import OpenPuffer.Lib.Overwrite
import OpenPuffer.Vector.Members
import OpenPuffer.Vector.Publish

/-!
# Publications that stop half-way

The coarse table is written last, so a publication that stops before it leaves the old table
with some of the new clusters.  The PUTs inside each group come in any order, so every set of
clusters can be the set of those written (`stopped_cases`, `halfWritten_exists`).  Which
publications are atomic for readers is then a question for `Lib.Overwrite`.
-/

namespace OpenPuffer

open List Finmap VectorObjects VectorIndex VectorPut

def clusterSet (clusters : HashMap Nat ClusterSegment) (fineId : Nat) : Set ClusterMember :=
  {x | x ∈ membersAt clusters fineId}

def VectorIndex.memberSet (idx : VectorIndex) : Set ClusterMember :=
  Overwrite.all (clusterSet idx.clusters)

/-! ## States of a stopped publication -/

def PutOrder.clustersFirst (T : Finset Nat) : PutOrder where
  clusters := .first T (.sorted Nat)

namespace VectorObjects

/-- The coarse table is the old one, and the clusters of some ids are new. -/
structure HalfWritten (objs : VectorObjects) (idx : VectorIndex) (T : Finset Nat)
    (stopped : VectorObjects) : Prop where
  l0 : stopped.l0 = objs.l0
  clusters : ∀ fineId, stopped.clusters.lookup fineId
    = if fineId ∈ T then idx.clusters.lookup fineId else objs.clusters.lookup fineId

/-- Some of the dependent objects have been written. -/
theorem halfWritten_of_take (objs : VectorObjects) (o : PutOrder) (idx : VectorIndex) (k : Nat) :
    ∃ T ⊆ idx.clusters.keys,
      HalfWritten objs idx T (objs.putAll ((idx.dependentPuts o).take k)) := by
  have htake := take_prefix k (idx.dependentPuts o)
  have hclusters := htake.filterMap cluster?
  have hl0 := htake.filterMap l0?
  rw [cluster?_dependentPuts] at hclusters
  rw [l0?_dependentPuts, prefix_nil] at hl0
  have hentries : ∀ e ∈ ((idx.dependentPuts o).take k).filterMap cluster?,
      idx.clusters.lookup e.1 = some e.2 := fun e he => HashMap.mem_iter.mp (hclusters.subset he)
  refine ⟨((((idx.dependentPuts o).take k).filterMap cluster?).map Prod.fst).toFinset,
    ?_, ?_, ?_⟩
  · intro fineId hid
    obtain ⟨e, he, rfl⟩ := mem_map.mp (mem_toFinset.mp hid)
    exact mem_keys.mpr (mem_of_lookup_eq_some (hentries e he))
  · rw [l0_putAll, hl0]
    rfl
  · intro fineId
    rw [clusters_putAll, HashMap.lookup_insertAll_of_entries hentries]
    simp only [mem_toFinset]

def entriesOf (idx : VectorIndex) (T : Finset Nat) : List (Nat × ClusterSegment) :=
  ((IterOrder.sorted Nat).toList T).filterMap fun k =>
    (idx.clusters.lookup k).map fun c => (k, c)

theorem mem_entriesOf {idx : VectorIndex} {T : Finset Nat} {e : Nat × ClusterSegment} :
    e ∈ entriesOf idx T ↔ e.1 ∈ T ∧ idx.clusters.lookup e.1 = some e.2 := by
  simp only [entriesOf, mem_filterMap, IterOrder.mem_toList, Option.map_eq_some_iff]
  constructor
  · rintro ⟨k, hk, c, hc, rfl⟩
    exact ⟨hk, hc⟩
  · rintro ⟨hk, hc⟩
    exact ⟨e.1, hk, e.2, hc, rfl⟩

/-- Every set of clusters can be the set of those written. -/
theorem halfWritten_exists (objs : VectorObjects) (idx : VectorIndex) {T : Finset Nat}
    (hT : T ⊆ idx.clusters.keys) :
    ∃ k ≤ (idx.dependentPuts (.clustersFirst T)).length,
      HalfWritten objs idx T
        (objs.putAll ((idx.dependentPuts (.clustersFirst T)).take k)) := by
  let front : List VectorPut := (HashMap.iter (.sorted Nat) idx.l1).map (fun e => .l1 e.2) ++
    (entriesOf idx T).map fun e => .cluster e.1 e.2
  have hsplit : ∃ rest, idx.dependentPuts (.clustersFirst T) = front ++ rest := by
    refine ⟨(entriesOf idx (idx.clusters.keys \ T)).map (fun e => .cluster e.1 e.2) ++
      (idx.routing.toList.map .routing ++
        (HashMap.iter (PutOrder.clustersFirst T).l2 idx.l2).map fun e => .l2 e.1 e.2), ?_⟩
    have hiter : HashMap.iter (PutOrder.clustersFirst T).clusters idx.clusters
        = entriesOf idx T ++ entriesOf idx (idx.clusters.keys \ T) := by
      rw [HashMap.iter, PutOrder.clustersFirst, IterOrder.first, filterMap_append,
        Finset.inter_eq_right.mpr hT]
      rfl
    rw [dependentPuts, hiter, map_append]
    simp only [front, append_assoc]
    rfl
  obtain ⟨rest, hrest⟩ := hsplit
  refine ⟨front.length, ?_, ?_, ?_⟩
  · rw [hrest]
    exact (prefix_append front rest).length_le
  · rw [hrest, take_left, l0_putAll]
    have hnone : front.filterMap l0? = [] := by
      simp [front, Function.comp_def, l0?]
    rw [hnone]
    rfl
  · intro fineId
    have hentries : front.filterMap cluster? = entriesOf idx T := by
      simp [front, Function.comp_def, cluster?]
    have hmem : fineId ∈ (entriesOf idx T).map Prod.fst ↔ fineId ∈ T := by
      constructor
      · intro h
        obtain ⟨e, he, rfl⟩ := mem_map.mp h
        exact (mem_entriesOf.mp he).1
      · intro h
        obtain ⟨c, hc⟩ := mem_iff.mp (mem_keys.mp (hT h))
        exact mem_map.mpr ⟨(fineId, c), mem_entriesOf.mpr ⟨h, hc⟩, rfl⟩
    rw [hrest, take_left, clusters_putAll, hentries,
      HashMap.lookup_insertAll_of_entries fun e he => (mem_entriesOf.mp he).2]
    simp only [hmem]

/-- The states in which a publication can stop. -/
theorem stopped_cases (objs : VectorObjects) (o : PutOrder) (idx : VectorIndex) (k : Nat) :
    (∃ T ⊆ idx.clusters.keys,
      HalfWritten objs idx T (objs.putAll ((idx.writeVectorIndex o).take k))) ∨
    objs.putAll ((idx.writeVectorIndex o).take k) = objs.publish o idx := by
  rw [writeVectorIndex]
  by_cases hk : k ≤ (idx.dependentPuts o).length
  · left
    rw [take_append_of_le_length hk]
    exact halfWritten_of_take objs o idx k
  · right
    rw [take_of_length_le]
    · rfl
    · rw [length_append, length_singleton]
      omega

end VectorObjects

/-! ## What a reader loads -/

/-- Old keys are never written. -/
theorem orLegacy_putAll (m : NamespaceMeta) (field : String) (legacy objs : VectorObjects)
    (puts : List VectorPut) :
    (objs.putAll puts).orLegacy m field legacy = (objs.orLegacy m field legacy).putAll puts := by
  induction puts generalizing objs with
  | nil => rfl
  | cons p puts ih =>
    rw [putAll, foldl_cons, ← putAll, ih,
      putAll, putAll, foldl_cons]
    congr 1
    rw [orLegacy, orLegacy]
    cases vectorIndexUsesLegacyPaths m field with
    | false => rfl
    | true => cases p <;> simp [put, insert_union]

/-- The ids of clusters that a reader of the old table sees overwritten. -/
def overwrites (stored idx : VectorIndex) : Set Nat :=
  {fineId | fineId < stored.l0.numFineTotal ∧ fineId ∈ idx.clusters.keys}

variable {idx : VectorIndex}

theorem memberSet_halfWritten {objs stopped : VectorObjects} {T : Finset Nat}
    (h : objs.HalfWritten idx T stopped) (env : LoadEnv) (m : NamespaceMeta)
    (l0 : CentroidIndexL0) :
    (stopped.assemble env m l0).memberSet
      = Overwrite.mixed (clusterSet (objs.assemble env m l0).clusters) (clusterSet idx.clusters)
        {fineId | fineId < l0.numFineTotal ∧ fineId ∈ T} := by
  ext x
  simp only [memberSet, Overwrite.all, Overwrite.mixed, clusterSet, membersAt_assemble]
  refine exists_congr fun fineId => ?_
  by_cases hlt : fineId < l0.numFineTotal
  · by_cases hT : fineId ∈ T
    · simp [hlt, hT, membersAt, h.clusters]
    · simp [hT, membersAt, h.clusters]
  · simp [hlt]

/-- The members below the new number of clusters once everything is written. -/
def settled (objs : VectorObjects) (idx : VectorIndex) : Set ClusterMember :=
  {x | ∃ fineId < idx.l0.numFineTotal, x ∈ membersAt (idx.clusters ∪ objs.clusters) fineId}

theorem memberSet_publish (objs : VectorObjects) (o : PutOrder) (idx : VectorIndex)
    (env : LoadEnv) (m : NamespaceMeta) :
    ((objs.publish o idx).assemble env m idx.l0).memberSet = settled objs idx := by
  ext x
  simp only [memberSet, Overwrite.all, clusterSet, membersAt_assemble, clusters_publish]
  refine exists_congr fun fineId => ?_
  by_cases hlt : fineId < idx.l0.numFineTotal
  · simp [hlt]
  · simp [hlt]

/-! ## Atomic publications -/

/-- When no stop of a publication shows a reader a mixture.  `stored` is what is
loaded before, from the objects `objs`. -/
structure PublishesAtomically (objs : VectorObjects) (stored idx : VectorIndex) : Prop where
  built : 0 < idx.l0.numFineTotal
  kept : Overwrite.Kept (clusterSet stored.clusters) (clusterSet idx.clusters)
    (overwrites stored idx) idx.memberSet
  together : Overwrite.Hidden (clusterSet stored.clusters) (clusterSet idx.clusters)
      (overwrites stored idx) idx.memberSet ∨
    ∃ F, Overwrite.SwitchAt (clusterSet stored.clusters) (clusterSet idx.clusters)
      (overwrites stored idx) idx.memberSet F
  settles : settled objs idx = stored.memberSet ∨ settled objs idx = idx.memberSet

/-- After every prefix of the PUTs, in every order, a load succeeds with the old
or the new members exactly if the publication meets the conditions. -/
theorem publication_atomic_iff {env : LoadEnv} {m : NamespaceMeta} {field : String}
    {objs legacy : VectorObjects} {stored : VectorIndex}
    (hload : loadVectorIndexFullForField env m field objs legacy = some stored)
    (idx : VectorIndex) :
    (∀ o k, ∃ loaded,
        loadVectorIndexFullForField env m field
          (objs.putAll ((idx.writeVectorIndex o).take k)) legacy = some loaded ∧
        (loaded.memberSet = stored.memberSet ∨ loaded.memberSet = idx.memberSet)) ↔
      PublishesAtomically (objs.orLegacy m field legacy) stored idx := by
  have hlists := listsIndex_of_load hload
  simp only [load_eq hlists, orLegacy_putAll] at hload ⊢
  generalize objs.orLegacy m field legacy = objs at hload ⊢
  obtain ⟨l0, hl0, hstored⟩ := Option.bind_eq_some_iff.mp hload
  split at hstored
  · cases hstored
  rename_i hfine
  cases hstored
  have hnew : ∀ fineId ∈ overwrites (objs.assemble env m l0) idx,
      clusterSet idx.clusters fineId ⊆ idx.memberSet := fun fineId _ x hx => ⟨fineId, hx⟩
  have hhalf : ∀ {stopped : VectorObjects} {T : Finset Nat}, objs.HalfWritten idx T stopped →
      (stopped.l0.bind fun l0 =>
        if l0.numFineTotal = 0 then none else some (stopped.assemble env m l0))
        = some (stopped.assemble env m l0) := by
    intro stopped T h
    rw [h.l0, hl0, Option.bind_some, if_neg hfine]
  constructor
  · intro hall
    have hatomic : Overwrite.Atomic (clusterSet (objs.assemble env m l0).clusters)
        (clusterSet idx.clusters) (overwrites (objs.assemble env m l0) idx) idx.memberSet := by
      classical
      intro T hT
      obtain ⟨k, hk, hstop⟩ := objs.halfWritten_exists idx
        (Finset.filter_subset (· ∈ T) idx.clusters.keys)
      obtain ⟨loaded, hloaded, hsets⟩ := hall _ k
      rw [writeVectorIndex, take_append_of_le_length hk, hhalf hstop] at hloaded
      cases hloaded
      have hsame : {fineId | fineId < l0.numFineTotal ∧
          fineId ∈ idx.clusters.keys.filter (· ∈ T)} = T := by
        ext fineId
        simp only [Finset.mem_filter]
        refine ⟨fun h => h.2.2, fun h => ?_⟩
        have hK := hT h
        rw [overwrites, numFineTotal_assemble] at hK
        exact ⟨hK.1, hK.2, h⟩
      rw [memberSet_halfWritten hstop, hsame] at hsets
      exact hsets
    obtain ⟨hkept, htogether⟩ := (Overwrite.overwrite_atomic_iff hnew).mp hatomic
    obtain ⟨loaded, hloaded, hsets⟩ := hall {} (idx.writeVectorIndex {}).length
    rw [take_length, ← publish, l0_publish, Option.bind_some] at hloaded
    split at hloaded
    · cases hloaded
    · rename_i hbuilt
      cases hloaded
      rw [memberSet_publish] at hsets
      exact ⟨Nat.pos_of_ne_zero hbuilt, hkept, htogether, hsets⟩
  · rintro ⟨hbuilt, hkept, htogether, hsettles⟩ o k
    have hatomic := (Overwrite.overwrite_atomic_iff hnew).mpr ⟨hkept, htogether⟩
    rcases objs.stopped_cases o idx k with ⟨T, hT, hstop⟩ | hdone
    · refine ⟨_, hhalf hstop, ?_⟩
      rw [memberSet_halfWritten hstop]
      refine hatomic _ fun fineId h => ?_
      rw [overwrites, numFineTotal_assemble]
      exact ⟨h.1, hT h.2⟩
    · rw [hdone, l0_publish, Option.bind_some, if_neg (Nat.ne_of_gt hbuilt)]
      refine ⟨_, rfl, ?_⟩
      rw [memberSet_publish]
      exact hsettles

/-- A publication that writes all clusters and changes one of them is atomic. -/
theorem publishesAtomically_of_one_change {objs : VectorObjects} {stored : VectorIndex} (k : Nat)
    (hbuilt : 0 < idx.l0.numFineTotal) (hkeys : idx.clusters.keys = .range idx.l0.numFineTotal)
    (hsame : ∀ fineId, fineId ≠ k →
      membersAt stored.clusters fineId = membersAt idx.clusters fineId) :
    PublishesAtomically objs stored idx := by
  have hatomic : Overwrite.Atomic (clusterSet stored.clusters) (clusterSet idx.clusters)
      (overwrites stored idx) idx.memberSet := by
    intro T _
    have hother : ∀ {fineId}, fineId ≠ k → ∀ x, (fineId ∈ T ∧ x ∈ clusterSet idx.clusters fineId ∨
        fineId ∉ T ∧ x ∈ clusterSet stored.clusters fineId) ↔
          x ∈ clusterSet idx.clusters fineId := by
      intro fineId hne x
      simp only [clusterSet, hsame fineId hne]
      tauto
    by_cases hk : k ∈ T
    · right
      ext x
      refine exists_congr fun fineId => ?_
      by_cases hid : fineId = k
      · simp [hid, hk]
      · exact hother hid x
    · left
      ext x
      refine exists_congr fun fineId => ?_
      by_cases hid : fineId = k
      · simp [hid, hk]
      · rw [hother hid, clusterSet, clusterSet, hsame fineId hid]
  have hnew : ∀ fineId ∈ overwrites stored idx,
      clusterSet idx.clusters fineId ⊆ idx.memberSet := fun fineId _ x hx => ⟨fineId, hx⟩
  obtain ⟨hkept, htogether⟩ := (Overwrite.overwrite_atomic_iff hnew).mp hatomic
  have hmem : ∀ fineId, fineId ∈ idx.clusters ↔ fineId < idx.l0.numFineTotal := by
    intro fineId
    rw [← Finmap.mem_keys, hkeys, Finset.mem_range]
  refine ⟨hbuilt, hkept, htogether, .inr ?_⟩
  ext x
  refine exists_congr fun fineId => ?_
  by_cases hlt : fineId < idx.l0.numFineTotal
  · obtain ⟨c, hc⟩ := Finmap.mem_iff.mp ((hmem fineId).mpr hlt)
    rw [membersAt_union_of_some hc]
    exact and_iff_right hlt
  · have hnone := Finmap.lookup_eq_none.mpr (mt (hmem fineId).mp hlt)
    simp [hlt, clusterSet, membersAt, hnone]

/-- An update of one of two documents is atomic. -/
theorem publication_of_one_update :
    ∃ v v' stored, buildThenDelta [pointDoc "a" 0, pointDoc "b" 10] [pointDoc "a" 1] []
        = some (v, v') ∧ v'.l0.numFineTotal = 2 ∧
      loadVectorIndexFullForField {} indexedMeta "emb" (VectorObjects.publish {} {} v) {}
        = some stored ∧
      ∀ o k, ∃ loaded,
        loadVectorIndexFullForField {} indexedMeta "emb"
          ((VectorObjects.publish {} {} v).putAll ((v'.writeVectorIndex o).take k)) {}
            = some loaded ∧
        (loaded.memberSet = stored.memberSet ∨ loaded.memberSet = v'.memberSet) := by
  have hrun : (buildThenDelta [pointDoc "a" 0, pointDoc "b" 10] [pointDoc "a" 1] []).map
      (fun h => decide (h.1.l0.numFineTotal = 2 ∧ h.2.l0.numFineTotal = 2 ∧
        h.2.clusters.keys = .range h.2.l0.numFineTotal ∧
        membersAt (publish {} {} h.1).clusters 1 = membersAt h.2.clusters 1)) = some true := by
    decide +kernel
  obtain ⟨⟨v, v'⟩, hv, hend⟩ := Option.map_eq_some_iff.mp hrun
  obtain ⟨htwo, htwo', hkeys, hother⟩ := of_decide_eq_true hend
  simp only at htwo htwo' hkeys hother
  have hload : loadVectorIndexFullForField {} indexedMeta "emb" (publish {} {} v) {}
      = some ((publish {} {} v).assemble {} indexedMeta v.l0) := by
    rw [load_eq listsIndex_indexedMeta]
    show ((publish {} {} v).l0.bind _) = _
    rw [l0_publish, Option.bind_some, if_neg (by omega)]
    rfl
  refine ⟨v, v', _, hv, htwo', hload, (publication_atomic_iff hload v').mpr ?_⟩
  refine publishesAtomically_of_one_change 0 (by omega) hkeys fun fineId hne => ?_
  rw [membersAt_assemble, htwo]
  by_cases hone : fineId = 1
  · rw [hone]
    exact hother
  · have hnone : v'.clusters.lookup fineId = none := by
      rw [Finmap.lookup_eq_none, ← Finmap.mem_keys, hkeys, Finset.mem_range]
      omega
    rw [if_neg (by omega), membersAt, hnone]
    rfl

theorem mem_memberSet {x : ClusterMember} : x ∈ idx.memberSet ↔ x ∈ idx.members := by
  simp only [memberSet, Overwrite.all, clusterSet, membersAt]
  rw [members, memberBag, HashMap.flatten, Multiset.mem_bind]
  constructor
  · rintro ⟨fineId, hx⟩
    cases hc : idx.clusters.lookup fineId with
    | none =>
      rw [hc] at hx
      cases hx
    | some c =>
      rw [hc] at hx
      exact ⟨⟨fineId, c⟩, lookup_eq_some_iff.mp hc, hx⟩
  · rintro ⟨e, he, hx⟩
    refine ⟨e.1, ?_⟩
    rw [lookup_eq_some_iff.mpr he]
    exact hx

/-- Both documents of an index are updated, and the publication stops after the
first cluster: a reader finds one new and one old vector. -/
theorem stopped_publication_mixes :
    ∃ v v' stored loaded, buildThenDelta [pointDoc "a" 0, pointDoc "b" 10]
        [pointDoc "a" 1, pointDoc "b" 9] [] = some (v, v') ∧
      loadVectorIndexFullForField {} indexedMeta "emb" (VectorObjects.publish {} {} v) {}
        = some stored ∧
      loadVectorIndexFullForField {} indexedMeta "emb"
        ((VectorObjects.publish {} {} v).putAll ((v'.writeVectorIndex {}).take 2)) {}
          = some loaded ∧
      loaded.memberSet ≠ stored.memberSet ∧ loaded.memberSet ≠ v'.memberSet := by
  have hrun : ((buildThenDelta [pointDoc "a" 0, pointDoc "b" 10]
      [pointDoc "a" 1, pointDoc "b" 9] []).bind fun h =>
      (loadVectorIndexFullForField {} indexedMeta "emb" (publish {} {} h.1) {}).bind
        fun stored =>
      (loadVectorIndexFullForField {} indexedMeta "emb"
        ((publish {} {} h.1).putAll ((h.2.writeVectorIndex {}).take 2)) {}).map
        fun loaded =>
          (decide (.fromValues "a" [.num 1] .f32 ∈ loaded.members),
            decide (.fromValues "a" [.num 1] .f32 ∈ stored.members),
            decide (.fromValues "b" [.num 10] .f32 ∈ loaded.members),
            decide (.fromValues "b" [.num 10] .f32 ∈ h.2.members)))
        = some (true, false, true, false) := by
    decide +kernel
  obtain ⟨⟨v, v'⟩, hv, hrest⟩ := Option.bind_eq_some_iff.mp hrun
  obtain ⟨stored, hstored, hrest⟩ := Option.bind_eq_some_iff.mp hrest
  obtain ⟨loaded, hloaded, hend⟩ := Option.map_eq_some_iff.mp hrest
  simp only [Prod.mk.injEq, decide_eq_true_eq, decide_eq_false_iff_not] at hend
  obtain ⟨hnew, hnot, hold, hgone⟩ := hend
  simp only [← mem_memberSet] at hnew hnot hold hgone
  refine ⟨v, v', stored, loaded, hv, hstored, hloaded, ?_, ?_⟩
  · exact fun heq => hnot (heq ▸ hnew)
  · exact fun heq => hgone (heq ▸ hold)

end OpenPuffer
