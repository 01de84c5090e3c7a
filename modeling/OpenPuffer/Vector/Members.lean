import OpenPuffer.Lib.Blocks
import OpenPuffer.Vector.Index

/-!
# The members of an index

The members of an index are those of all its clusters, as a multiset.

An index is complete if each coarse cell has its centroids, as many as its count
says.  `Becomes` says what one operation does to a complete index: it stays
complete, keeps its field, dimension and element type, never loses clusters, and
ends with the given members.
-/

namespace OpenPuffer

open HashMap Option

/-! ## Bags of members -/

def memberBag (clusters : HashMap Nat ClusterSegment) : Multiset ClusterMember :=
  clusters.flatten fun c => (c.members : Multiset ClusterMember)

theorem memberBag_extendCluster (segmentId fineId : Nat) (ms : List ClusterMember)
    (clusters : HashMap Nat ClusterSegment) :
    memberBag (extendCluster segmentId fineId ms clusters) = ms + memberBag clusters := by
  apply flatten_entry (fun c : ClusterSegment => (c.members : Multiset ClusterMember))
  · rfl
  · intro c
    rw [← Multiset.coe_add, add_comm]

/-- A cluster and the others. -/
theorem memberBag_erase (clusters : HashMap Nat ClusterSegment) (fineId : Nat) :
    memberBag clusters = membersAt clusters fineId + memberBag (clusters.erase fineId) := by
  rw [membersAt]
  cases h : clusters.lookup fineId with
  | none => simp [erase_of_lookup_none h]
  | some c => exact flatten_erase _ h

/-- The bag is the sum over any ids that include those of the clusters. -/
theorem memberBag_eq_sum (ids : Finset Nat) {clusters : HashMap Nat ClusterSegment}
    (h : clusters.keys ⊆ ids) :
    memberBag clusters = ∑ f ∈ ids, (membersAt clusters f : Multiset ClusterMember) := by
  induction ids using Finset.induction_on generalizing clusters with
  | empty =>
    have hnone : clusters = ∅ := by
      apply ext_lookup
      intro f
      rw [Finmap.lookup_empty, Finmap.lookup_eq_none]
      exact fun hf => absurd (h hf) (Finset.notMem_empty f)
    rw [hnone]
    rfl
  | insert f ids hf ih =>
    have hkeys : (clusters.erase f).keys ⊆ ids := by
      intro g hg
      rw [Finmap.keys_erase, Finset.mem_erase] at hg
      exact Finset.mem_of_mem_insert_of_ne (h hg.2) hg.1
    rw [Finset.sum_insert hf, memberBag_erase clusters f, ih hkeys]
    congr 1
    refine Finset.sum_congr rfl fun g hg => ?_
    have hne : g ≠ f := fun heq => hf (heq ▸ hg)
    rw [membersAt, lookup_erase_ite, if_neg hne, membersAt]

theorem memberBag_congr {s t : HashMap Nat ClusterSegment}
    (h : ∀ f, membersAt s f = membersAt t f) : memberBag s = memberBag t := by
  rw [memberBag_eq_sum (s.keys ∪ t.keys) Finset.subset_union_left,
    memberBag_eq_sum (s.keys ∪ t.keys) Finset.subset_union_right]
  simp only [h]

theorem memberBag_insert (clusters : HashMap Nat ClusterSegment) (fineId : Nat)
    (c : ClusterSegment) :
    memberBag (clusters.insert fineId c) = c.members + memberBag (clusters.erase fineId) :=
  flatten_insert _ clusters fineId c

theorem memberBag_modify {clusters : HashMap Nat ClusterSegment} {fineId : Nat}
    {c : ClusterSegment} (h : clusters.lookup fineId = some c)
    (f : ClusterSegment → ClusterSegment) :
    memberBag (clusters.modify fineId f)
      = (f c).members + memberBag (clusters.erase fineId) := by
  rw [HashMap.modify, h]
  exact memberBag_insert clusters fineId (f c)

theorem memberBag_pruneEmpty (clusters : HashMap Nat ClusterSegment) :
    memberBag (pruneEmpty clusters) = memberBag clusters := by
  rw [memberBag, pruneEmpty, flatten_filterMap, memberBag, flatten]
  congr 1
  funext e
  split
  · rename_i h
    rw [List.isEmpty_iff.mp h]
    rfl
  · rfl

theorem membersAt_pruneEmpty (clusters : HashMap Nat ClusterSegment) (f : Nat) :
    membersAt (pruneEmpty clusters) f = membersAt clusters f := by
  rw [membersAt, pruneEmpty, lookup_filterMap, membersAt]
  cases clusters.lookup f with
  | none => rfl
  | some cl =>
    rw [bind_some]
    split
    · rename_i hempty
      exact (List.isEmpty_iff.mp hempty).symm
    · rfl

theorem memberBag_removeMember (docId : String) (clusters : HashMap Nat ClusterSegment) :
    memberBag (removeMember docId clusters)
      = (memberBag clusters).filter fun m => m.docId ≠ docId := by
  rw [memberBag, removeMember, flatten_filterMap, memberBag, flatten,
    Multiset.filter_bind]
  congr 1

/-! ## Shifting ids -/

section Shift

variable (pivot : Nat) (clusters : HashMap Nat ClusterSegment)

private def shiftedIds : List Nat :=
  ((IterOrder.sorted Nat).toList (clusters.keys.filter (pivot ≤ ·))).reverse

private theorem mem_shiftedIds (j : Nat) :
    j ∈ shiftedIds pivot clusters ↔ clusters.lookup j ≠ none ∧ pivot ≤ j := by
  rw [shiftedIds, List.mem_reverse, (IterOrder.sorted Nat).mem_toList, Finset.mem_filter,
    Finmap.mem_keys, ne_eq, Finmap.lookup_eq_none, not_not]

private theorem lookup_rest (j : Nat) :
    (clusters.takeAll (shiftedIds pivot clusters)).2.lookup j
      = if pivot ≤ j then none else clusters.lookup j := by
  rw [lookup_takeAll]
  by_cases hj : pivot ≤ j
  · cases hl : clusters.lookup j with
    | none => simp
    | some c => simp [mem_shiftedIds, hl]
  · simp [mem_shiftedIds, hj]

/-- The ids after the shift. -/
private theorem keys_moved {j : Nat} (h : j ∈ ((clusters.takeAll (shiftedIds pivot clusters)).1.map
    fun e => (e.1 + 1, { e.2 with centroidId := e.1 + 1 })).map Prod.fst) : pivot < j := by
  rw [List.map_map] at h
  obtain ⟨e, he, rfl⟩ := List.mem_map.mp h
  have hmem := (keys_takeAll _ _).subset (List.mem_map_of_mem he)
  have hle := ((mem_shiftedIds pivot clusters e.1).mp hmem).2
  exact Nat.lt_succ_of_le hle

/-- Ids below the pivot are not moved, and the pivot is free. -/
theorem lookup_shiftClusters {j : Nat} (h : j ≤ pivot) :
    (shiftClusters pivot clusters).lookup j = if j = pivot then none else clusters.lookup j := by
  have hnot : j ∉ ((clusters.takeAll (shiftedIds pivot clusters)).1.map
      fun e => (e.1 + 1, { e.2 with centroidId := e.1 + 1 })).map Prod.fst :=
    fun hj => absurd (keys_moved pivot clusters hj) (Nat.not_lt.mpr h)
  rw [shiftClusters, ← shiftedIds]
  rw [lookup_insertAll_of_notMem hnot, lookup_rest]
  rcases Nat.lt_or_eq_of_le h with hlt | rfl
  · rw [if_neg (Nat.not_le.mpr hlt), if_neg (Nat.ne_of_lt hlt)]
  · rw [if_pos (Nat.le_refl j), if_pos rfl]

/-- Ids from the pivot on move up by one. -/
theorem lookup_shiftClusters_of_lt {j : Nat} (h : pivot < j) :
    (shiftClusters pivot clusters).lookup j
      = (clusters.lookup (j - 1)).map fun c => { c with centroidId := j } := by
  have hmoved : ∀ c, (j, c) ∈ ((clusters.takeAll (shiftedIds pivot clusters)).1.map
      fun e => (e.1 + 1, { e.2 with centroidId := e.1 + 1 }))
      ↔ (clusters.lookup (j - 1)).map (fun c => { c with centroidId := j }) = some c := by
    intro c
    rw [map_eq_some_iff, List.mem_map]
    constructor
    · rintro ⟨⟨k, old⟩, hold, heq⟩
      obtain ⟨hk, rfl⟩ := Prod.mk.inj heq
      have hlookup := (mem_takeAll.mp hold).2
      refine ⟨old, ?_, by rw [← hk]⟩
      rw [← hlookup]
      congr 1
      omega
    · rintro ⟨old, hold, rfl⟩
      have hj : j - 1 + 1 = j := by omega
      refine ⟨(j - 1, old), mem_takeAll.mpr ⟨?_, hold⟩, by simp only [hj]⟩
      exact (mem_shiftedIds pivot clusters (j - 1)).mpr ⟨by simp [hold], by omega⟩
  have hrest : (clusters.takeAll (shiftedIds pivot clusters)).2.lookup j = none := by
    rw [lookup_rest, if_pos (Nat.le_of_lt h)]
  rw [shiftClusters, ← shiftedIds]
  cases hlookup : (insertAll _ _).lookup j with
  | some c =>
    rcases mem_of_lookup_insertAll hlookup with hmem | hold
    · exact ((hmoved c).mp hmem).symm
    · rw [hrest] at hold
      cases hold
  | none =>
    cases hold : (clusters.lookup (j - 1)).map fun c => { c with centroidId := j } with
    | none => rfl
    | some c =>
      have hkey := List.mem_map_of_mem (f := Prod.fst) ((hmoved c).mpr hold)
      rw [Finmap.lookup_eq_none, mem_insertAll, not_or] at hlookup
      exact absurd hkey hlookup.1

theorem memberBag_shiftClusters :
    memberBag (shiftClusters pivot clusters) = memberBag clusters := by
  have hnodup : (((clusters.takeAll (shiftedIds pivot clusters)).1.map
      fun e => (e.1 + 1, { e.2 with centroidId := e.1 + 1 })).map Prod.fst).Nodup := by
    have hids : (shiftedIds pivot clusters).Nodup :=
      List.nodup_reverse.mpr ((IterOrder.sorted Nat).nodup _)
    have htaken := (keys_takeAll (shiftedIds pivot clusters) clusters).nodup hids
    have hmap := htaken.map (Nat.succ_injective)
    rw [List.map_map] at hmap ⊢
    exact hmap
  have hnew : ∀ j ∈ ((clusters.takeAll (shiftedIds pivot clusters)).1.map
      fun e => (e.1 + 1, { e.2 with centroidId := e.1 + 1 })).map Prod.fst,
      (clusters.takeAll (shiftedIds pivot clusters)).2.lookup j = none := by
    intro j hj
    rw [lookup_rest, if_pos (Nat.le_of_lt (keys_moved pivot clusters hj))]
  rw [shiftClusters, ← shiftedIds, memberBag, flatten_insertAll _ hnodup hnew,
    List.map_map, memberBag, flatten_takeAll _ (shiftedIds pivot clusters) clusters]
  rfl

end Shift

/-! ## Buckets -/

/-- Elements below a bound, sorted into buckets. -/
theorem sum_filter_eq {β : Type} (g : β → Nat) {k : Nat} (l : List β) (h : ∀ b ∈ l, g b < k) :
    ((List.range k).map fun i => (l.filter fun b => g b = i : Multiset β)).sum = l := by
  induction l with
  | nil => simp
  | cons b l ih =>
    have hsplit : ∀ i, ((b :: l).filter fun b => g b = i : Multiset β)
        = (if g b = i then {b} else 0) + (l.filter fun b => g b = i : Multiset β) := by
      intro i
      by_cases hi : g b = i
      · simp [hi]
      · simp [hi]
    have hone : ((List.range k).map fun i => (if g b = i then {b} else 0 : Multiset β)).sum
        = {b} := by
      have hb := h b List.mem_cons_self
      show (∑ i ∈ Finset.range k, (if g b = i then {b} else 0 : Multiset β)) = {b}
      simp [hb]
    simp only [hsplit, List.sum_map_add, hone, ih fun c hc => h c (List.mem_cons_of_mem b hc)]
    rfl

theorem sum_bucket (assign : HashMap String Nat) {k : Nat} (hk : 0 < k)
    (members : List ClusterMember) :
    ((List.range k).map fun i => (VectorIndex.bucket assign k members i :
      Multiset ClusterMember)).sum = members := by
  apply sum_filter_eq
  omega

namespace VectorIndex

/-! ## Complete cells -/

/-- Every coarse cell has its centroids, as many as its count says, and they carry
the id of the cell. -/
structure Complete (idx : VectorIndex) : Prop where
  coarse : idx.l0.centroids.length = idx.l0.fineCounts.length
  numCoarse : idx.l0.numCoarse = idx.l0.fineCounts.length
  cell : ∀ c count, idx.l0.fineCounts[c]? = some count →
    ∃ l1, idx.l1.lookup c = some l1 ∧ l1.numFine = count ∧ l1.centroids.length = count
  ids : ∀ c l1, idx.l1.lookup c = some l1 → l1.coarseId = c
  total : idx.l0.numFineTotal = idx.l0.fineCounts.sum

def members (idx : VectorIndex) : Multiset ClusterMember := memberBag idx.clusters

/-- An index after an operation that leaves it with the given members. -/
structure Becomes (idx idx' : VectorIndex) (bag : Multiset ClusterMember) : Prop where
  complete : idx'.Complete
  members : idx'.members = bag
  field : idx'.l0.vectorField = idx.l0.vectorField
  dimensions : idx'.l0.dimensions = idx.l0.dimensions
  element : idx'.l0.vectorElement = idx.l0.vectorElement
  centroids : idx'.l0.centroids = idx.l0.centroids
  grows : idx.l0.numFineTotal ≤ idx'.l0.numFineTotal

variable {idx : VectorIndex} {bag : Multiset ClusterMember} {c : Nat}

theorem Becomes.refl (h : idx.Complete) : Becomes idx idx idx.members :=
  ⟨h, rfl, rfl, rfl, rfl, rfl, Nat.le_refl _⟩

theorem Becomes.trans {idx' idx'' : VectorIndex} {bag' : Multiset ClusterMember}
    (h : Becomes idx idx' bag) (h' : Becomes idx' idx'' bag') : Becomes idx idx'' bag' where
  complete := h'.complete
  members := h'.members
  field := h'.field.trans h.field
  dimensions := h'.dimensions.trans h.dimensions
  element := h'.element.trans h.element
  centroids := h'.centroids.trans h.centroids
  grows := h.grows.trans h'.grows

/-- Two steps, the second of which keeps the members. -/
theorem Becomes.keeping {idx' idx'' : VectorIndex} (h : Becomes idx idx' bag)
    (h' : Becomes idx' idx'' idx'.members) : Becomes idx idx'' bag := by
  have hboth := h.trans h'
  rw [h.members] at hboth
  exact hboth

theorem Complete.setClusters (h : idx.Complete) {clusters : HashMap Nat ClusterSegment}
    (hbag : memberBag clusters = bag) : Becomes idx { idx with clusters } bag :=
  ⟨⟨h.coarse, h.numCoarse, h.cell, h.ids, h.total⟩, hbag, rfl, rfl, rfl, rfl, Nat.le_refl _⟩

theorem Complete.lookup_l1 (h : idx.Complete) (hc : c < idx.l0.fineCounts.length) :
    ∃ l1, idx.l1.lookup c = some l1 ∧ l1.numFine = idx.l0.fineCounts[c] ∧
      l1.centroids.length = idx.l0.fineCounts[c] :=
  h.cell c _ (List.getElem?_eq_getElem hc)

/-! ## Positions of fine ids -/

theorem locate_eq_some {fineId : Nat} {counts : List Nat} {coarseId offset i : Nat}
    (h : CentroidIndexL0.locate fineId coarseId offset counts = some (c, i))
    (hoff : offset ≤ fineId) :
    ∃ j, c = coarseId + j ∧ ∃ count, counts[j]? = some count ∧ i < count ∧
      fineId = offset + (counts.take j).sum + i := by
  induction counts generalizing coarseId offset with
  | nil => cases h
  | cons count counts ih =>
    rw [CentroidIndexL0.locate] at h
    split at h
    · rename_i hlt
      cases h
      exact ⟨0, rfl, count, rfl, by omega, by simp; omega⟩
    · obtain ⟨j, hc, n, hn, hi, hid⟩ := ih h (by omega)
      refine ⟨j + 1, by omega, n, hn, hi, ?_⟩
      rw [List.take_succ_cons, List.sum_cons]
      omega

/-- A fine id lies in its cell. -/
theorem coarseLocal_spec {l0 : CentroidIndexL0} {fineId i : Nat}
    (h : l0.coarseLocalFromGlobal fineId = some (c, i)) :
    ∃ count, l0.fineCounts[c]? = some count ∧ i < count ∧ fineId = l0.globalIdStart c + i := by
  obtain ⟨j, hc, count, hcount, hi, hid⟩ := locate_eq_some h (Nat.zero_le _)
  rw [Nat.zero_add] at hc hid
  subst hc
  exact ⟨count, hcount, hi, hid⟩

/-! ## A new fine centroid -/

theorem sum_modify_succ {l : List Nat} {n : Nat} (h : l[c]? = some n) :
    (l.modify c (· + 1)).sum = l.sum + 1 := by
  induction l generalizing c with
  | nil => cases h
  | cons a l ih =>
    cases c with
    | zero => simp; omega
    | succ c =>
      simp [ih h]
      omega

/-- Moving the first ids of later cells changes nothing else. -/
theorem lookup_moveStarts (later : List Nat) (l1s : HashMap Nat CentroidIndexL1) (c : Nat) :
    (later.foldl (fun m c => m.modify c fun l =>
        { l with globalIdStart := l.globalIdStart + 1 }) l1s).lookup c
      = (l1s.lookup c).map fun l =>
          { l with globalIdStart := l.globalIdStart + later.count c } := by
  induction later generalizing l1s with
  | nil => simp
  | cons j later ih =>
    rw [List.foldl_cons, ih, lookup_modify]
    by_cases hcj : c = j
    · rw [if_pos hcj, map_map, hcj, List.count_cons_self]
      congr 1
      funext l
      simp only [Function.comp_apply]
      congr 1
      omega
    · rw [if_neg hcj, List.count_cons_of_ne (Ne.symm hcj)]

theorem appendFineCentroid_spec (h : idx.Complete) {count : Nat}
    (hc : idx.l0.fineCounts[c]? = some count) (centroid : Vec) :
    ∃ idx', idx.appendFineCentroid c centroid = .ok (idx', count) ∧
      Becomes idx idx' idx.members ∧
      idx'.l0 = { idx.l0 with
        fineCounts := idx.l0.fineCounts.modify c (· + 1)
        numFineTotal := idx.l0.numFineTotal + 1 } ∧
      (∀ c' l1', idx'.l1.lookup c' = some l1' → ∃ l1, idx.l1.lookup c' = some l1 ∧
        l1'.globalIdStart = l1.globalIdStart
          + if c < c' ∧ c' < idx.l0.fineCounts.length then 1 else 0) ∧
      idx'.clusters = shiftClusters (idx.l0.globalIdStart c + count) idx.clusters := by
  obtain ⟨l1, hl1, rfl, hlen⟩ := h.cell c count hc
  simp only [appendFineCentroid, hl1]
  refine ⟨_, rfl, ⟨⟨?_, ?_, ?_, ?_, ?_⟩, ?_, rfl, rfl, rfl, rfl, Nat.le_succ _⟩, rfl, ?_, rfl⟩
  · rw [List.length_modify]
    exact h.coarse
  · rw [List.length_modify]
    exact h.numCoarse
  · intro c' count' hc'
    rw [List.getElem?_modify, map_eq_map, map_eq_some_iff] at hc'
    obtain ⟨old, hold, rfl⟩ := hc'
    rw [lookup_moveStarts, lookup_insert_ite]
    by_cases hcc : c' = c
    · subst hcc
      rw [hc] at hold
      cases hold
      refine ⟨_, by rw [if_pos rfl]; rfl, ?_, ?_⟩
      · simp [hlen]
      · simp [hlen]
    · obtain ⟨l1₀, hl1₀, hn₀, hlen₀⟩ := h.cell c' old hold
      refine ⟨_, by rw [if_neg hcc, hl1₀]; rfl, ?_, ?_⟩
      · simp [hn₀, Ne.symm hcc]
      · simp [hlen₀, Ne.symm hcc]
  · intro c' l1' hl1'
    rw [lookup_moveStarts, lookup_insert_ite, map_eq_some_iff] at hl1'
    obtain ⟨l1₀, hl1₀, rfl⟩ := hl1'
    split at hl1₀
    · rename_i hcc
      cases hl1₀
      rw [hcc]
      exact h.ids c l1 hl1
    · exact h.ids c' l1₀ hl1₀
  · rw [sum_modify_succ hc, h.total]
  · exact memberBag_shiftClusters _ _
  · intro c' l1' hl1'
    have hcount : (List.range' (c + 1) (idx.l0.numCoarse - (c + 1))).count c'
        = if c < c' ∧ c' < idx.l0.fineCounts.length then 1 else 0 := by
      rw [List.Nodup.count List.nodup_range', h.numCoarse]
      congr 1
      rw [List.mem_range'_1, eq_iff_iff]
      omega
    rw [lookup_moveStarts, lookup_insert_ite, hcount, map_eq_some_iff] at hl1'
    obtain ⟨l1₀, hl1₀, rfl⟩ := hl1'
    split at hl1₀
    · rename_i hcc
      cases hl1₀
      exact ⟨l1, hcc ▸ hl1, rfl⟩
    · exact ⟨l1₀, hl1₀, rfl⟩

/-- Only centroids change, not their number. -/
theorem Complete.setL1 (h : idx.Complete) {l1s : HashMap Nat CentroidIndexL1}
    {f : Nat → CentroidIndexL1 → CentroidIndexL1}
    (hl1s : ∀ c, l1s.lookup c = (idx.l1.lookup c).map (f c))
    (hkeep : ∀ c l1, ∃ centroids, centroids.length = l1.centroids.length ∧
      f c l1 = { l1 with centroids }) : Becomes idx { idx with l1 := l1s } idx.members := by
  refine ⟨⟨h.coarse, h.numCoarse, ?_, ?_, h.total⟩, rfl, rfl, rfl, rfl, rfl, Nat.le_refl _⟩
  · intro c count hc
    obtain ⟨l1, hl1, hnum, hlen⟩ := h.cell c count hc
    obtain ⟨centroids, hlen', heq⟩ := hkeep c l1
    refine ⟨{ l1 with centroids }, ?_, hnum, hlen'.trans hlen⟩
    rw [hl1s, hl1, map_some, heq]
  · intro c l1' hl1'
    rw [hl1s, map_eq_some_iff] at hl1'
    obtain ⟨l1, hl1, rfl⟩ := hl1'
    obtain ⟨centroids, -, heq⟩ := hkeep c l1
    rw [heq]
    exact h.ids c l1 hl1

theorem Complete.setFineCentroid (h : idx.Complete) (c i : Nat) (centroid : Vec) :
    Becomes idx (idx.setFineCentroid c i centroid) idx.members := by
  refine h.setL1 (f := fun c' l1 =>
    if c' = c then { l1 with centroids := l1.centroids.set i centroid } else l1) ?_ ?_
  · intro c'
    rw [lookup_modify]
    split
    · rfl
    · exact map_id_apply.symm
  · intro c' l1
    split
    · exact ⟨_, List.length_set, rfl⟩
    · exact ⟨_, rfl, rfl⟩

end VectorIndex

end OpenPuffer
