import OpenPuffer.Lib.Machine
import OpenPuffer.Vector.Cells
import OpenPuffer.Vector.Delta

/-!
# The layout through builds and deltas

A build lays the cells out one after the other, and maintenance keeps the layout
(`Steps.layout`).  The moves to a nearer centroid stay in their cell as long as the members with
one id are in one cell (`OneCell`).  What can break the layout is an assignment: a coarse cell
without documents has no fine centroid, but keeps its coarse one, and a document assigned to it
is put under the first id after the cell.  If the nearest cell has a fine centroid, the document
is put in that cell (`assignDocToNearest_layout`).
-/

namespace OpenPuffer

open Multiset HashMap CentroidIndexL0

namespace VectorIndex

/-! ## Moves to a nearer centroid -/

/-- The members with one id are in one cell. -/
def OneCell (idx : VectorIndex) : Prop :=
  ∀ c c' m m', m ∈ idx.cellMembers c → m' ∈ idx.cellMembers c' → m.docId = m'.docId → c = c'

theorem OneCell.congr {idx idx' : VectorIndex} (h : idx.OneCell)
    (hcells : ∀ c, idx'.cellMembers c = idx.cellMembers c) : idx'.OneCell := by
  intro c c' m m' hm hm'
  rw [hcells] at hm hm'
  exact h c c' m m' hm hm'

/-- A move of a document to a cluster of its cell. -/
def MoveFits (idx : VectorIndex) (move : String × Nat) : Prop :=
  ∃ c, idx.l0.InCell c move.2 ∧ ∃ m ∈ idx.cellMembers c, m.docId = move.1

section Quantized

variable (q : Quantizer) (o : IterOrder Nat)

variable {idx : VectorIndex} {m : ClusterMember} {upserts docs : List Document} {segmentId : Nat}
  {field : String}

theorem driftedMembers_fit (h : idx.Layout) {e : Nat × ClusterSegment}
    (he : idx.clusters.lookup e.1 = some e.2) {move : String × Nat}
    (hmove : move ∈ driftedMembers q idx e) : MoveFits idx move := by
  rw [driftedMembers] at hmove
  split at hmove
  · cases hmove
  rename_i c i hloc
  obtain ⟨count, hc, hi, hid⟩ := coarseLocal_spec hloc
  obtain ⟨l1, hl1, -, hlen⟩ := h.complete.cell c count hc
  simp only [hl1] at hmove
  obtain ⟨m, hm, hsome⟩ := List.mem_filterMap.mp hmove
  split at hsome
  · cases hsome
    refine ⟨c, inCell_globalFineId hc ?_, m, mem_cellMembers.mpr ⟨e.1, ?_, ?_⟩, rfl⟩
    · cases hhead : (topMCentroids q.scoreVector l1.centroids
          (memberAsF64 m idx.l0.dimensions) idx.l0.distanceMetric 1).head? with
      | none => exact hi
      | some j => exact hlen ▸ mem_topMCentroids_lt (List.mem_of_head? hhead)
    · exact hid ▸ inCell_globalFineId hc hi
    · rw [membersAt, he]
      exact hm
  · cases hsome

/-- A move to a cluster of the cell of the document changes that cell only. -/
theorem moveMember_within (h : idx.Layout) (hone : idx.OneCell) {move : String × Nat}
    (hfit : MoveFits idx move) :
    ∃ c clusters, moveMember o idx move = { idx with clusters } ∧ Within idx c clusters := by
  obtain ⟨c, hdest, m', hm', hid'⟩ := hfit
  have hbag := (moveMember_becomes o h.complete move).members
  rw [moveMember] at hbag ⊢
  split
  · exact ⟨c, idx.clusters, rfl, .refl idx c⟩
  rename_i fineId cluster hfind
  split
  · exact ⟨c, idx.clusters, rfl, .refl idx c⟩
  rename_i m hm
  have hlookup := mem_iter.mp (List.mem_of_find?_eq_some hfind)
  have hid : m.docId = move.1 := by simpa using List.find?_some hm
  have hin : idx.l0.InCell c fineId := by
    have hlt := h.bound fineId cluster hlookup
    rw [h.complete.total] at hlt
    obtain ⟨c₁, hc₁⟩ := exists_inCell hlt
    have hmem : m ∈ idx.cellMembers c₁ := by
      refine mem_cellMembers.mpr ⟨fineId, hc₁, ?_⟩
      rw [membersAt, hlookup]
      exact List.mem_of_find?_eq_some hm
    rw [← hone c₁ c m m' hmem hm' (hid.trans hid'.symm)]
    exact hc₁
  refine ⟨c, _, rfl, ?_, ?_⟩
  · rw [hfind] at hbag
    simp only [hm] at hbag
    exact hbag
  · refine (LocalTo.insert (.refl _ _ _) hin fun hnamed => ?_).extendCluster hdest _ _
    exact hnamed fineId cluster hlookup

theorem foldl_moveMember_steps (moves : List (String × Nat)) (h : idx.Layout) (hone : idx.OneCell)
    (hfit : ∀ move ∈ moves, MoveFits idx move) : Steps q idx (moves.foldl (moveMember o) idx) := by
  induction moves generalizing idx with
  | nil => exact .refl
  | cons move moves ih =>
    obtain ⟨c, clusters, heq, hw⟩ :=
      moveMember_within o h hone (hfit move List.mem_cons_self)
    rw [List.foldl_cons, heq]
    have hcells := h.cellMembers_within hw
    refine .head (.within hw) (ih (h.within hw) (hone.congr hcells) fun move' hmove' => ?_)
    obtain ⟨c', hdest, m, hm, hid⟩ := hfit move' (List.mem_cons_of_mem move hmove')
    exact ⟨c', hdest, m, (hcells c').symm ▸ hm, hid⟩

theorem reassignDriftedMembers_steps (h : idx.Layout) (hone : idx.OneCell) :
    Steps q idx (reassignDriftedMembers q o idx) := by
  refine foldl_moveMember_steps q o _ h hone fun move hmove => ?_
  obtain ⟨e, he, hmove⟩ := List.mem_flatMap.mp hmove
  exact driftedMembers_fit q h (mem_iter.mp he) hmove

/-- In an index with a layout all of maintenance takes steps. -/
theorem runIncrementalMaintenance_takesSteps (h : idx.Layout) (hone : idx.OneCell) :
    ∃ idx', runIncrementalMaintenance q o idx = .ok idx' ∧ Steps q idx idx' := by
  by_cases hnone : idx.l0.numFineTotal = 0 ∨ idx.l0.centroids.isEmpty = true
  · exact ⟨idx, by rw [runIncrementalMaintenance, if_pos hnone], .refl⟩
  · rw [List.isEmpty_iff, not_or] at hnone
    obtain ⟨merged, last, idx', hmerged, hlast, -, -, hend, hrun⟩ :=
      runIncrementalMaintenance_phases q o h.complete hnone.1 hnone.2
    obtain ⟨h₁, hcells⟩ := hmerged.layout h
    have hmoved := reassignDriftedMembers_steps q o h₁ (hone.congr hcells)
    exact ⟨idx', hrun, hmerged.trans (hmoved.trans (hlast.trans hend))⟩

/-! ## Assigning documents -/

def nearestCoarse (l0 : CentroidIndexL0) (v : Vec) : Nat :=
  (topMCentroids q.scoreVector l0.centroids v l0.distanceMetric 1).head?.getD 0

/-- The cell nearest to the vector of a document has a fine centroid, if the document
has a vector of the dimension of the index. -/
def HasFineCell (l0 : CentroidIndexL0) (doc : Document) : Prop :=
  ∀ v, extractVector doc.attributes l0.vectorField = .ok v → v.length = l0.dimensions →
    l0.fineCounts.getD (nearestCoarse q l0 v) 0 ≠ 0

instance (l0 : CentroidIndexL0) (doc : Document) : Decidable (HasFineCell q l0 doc) :=
  match h : extractVector doc.attributes l0.vectorField with
  | .error _ => isTrue fun v hv => by
    rw [h] at hv
    cases hv
  | .ok v => decidable_of_iff
      (v.length = l0.dimensions → l0.fineCounts.getD (nearestCoarse q l0 v) 0 ≠ 0)
      (by simp [HasFineCell, h])

/-- The member that an upsert adds to a cell. -/
def placedMember (l0 : CentroidIndexL0) (c : Nat) (doc : Document) : Multiset ClusterMember :=
  match extractVector doc.attributes l0.vectorField with
  | .error _ => 0
  | .ok v =>
    if v.length = l0.dimensions ∧ nearestCoarse q l0 v = c then
      {.fromValues doc.id v l0.vectorElement}
    else 0

theorem mem_placedMember {l0 : CentroidIndexL0} {c : Nat} {doc : Document}
    (h : m ∈ placedMember q l0 c doc) : ∃ v, extractVector doc.attributes l0.vectorField = .ok v ∧
      nearestCoarse q l0 v = c ∧ m.docId = doc.id := by
  rw [placedMember] at h
  split at h
  · exact absurd h (notMem_zero m)
  rename_i v hv
  split at h
  · rename_i hplace
    rw [mem_singleton.mp h]
    exact ⟨v, hv, hplace.2, docId_fromValues _ _ _⟩
  · exact absurd h (notMem_zero m)

theorem cellMembers_extendCluster (idx : VectorIndex) {c₀ f : Nat} (hf : idx.l0.InCell c₀ f)
    (segmentId : Nat) (ms : List ClusterMember) (c : Nat) :
    cellMembers { idx with clusters := extendCluster segmentId f ms idx.clusters } c
      = (if c₀ = c then (ms : Multiset ClusterMember) else 0) + idx.cellMembers c := by
  have hat : ∀ g, (membersAt (extendCluster segmentId f ms idx.clusters) g :
      Multiset ClusterMember)
      = (if g = f then (ms : Multiset ClusterMember) else 0) + membersAt idx.clusters g := by
    intro g
    rw [membersAt, extendCluster, entry, lookup_insert_ite]
    by_cases hgf : g = f
    · rw [if_pos hgf, if_pos hgf, hgf, membersAt, getOr]
      cases idx.clusters.lookup f with
      | none => simp
      | some cl =>
        rw [coe_add, coe_eq_coe]
        exact List.perm_append_comm
    · rw [if_neg hgf, if_neg hgf, zero_add, membersAt]
  have hsum : ∑ i ∈ Finset.range (idx.fineCount c),
      (if idx.l0.globalFineId c i = f then (ms : Multiset ClusterMember) else 0)
      = if c₀ = c then (ms : Multiset ClusterMember) else 0 := by
    by_cases hcc : c₀ = c
    · subst hcc
      obtain ⟨count, j, hc, hj, rfl⟩ := getElem?_of_inCell hf
      have hpos : ∀ i, idx.l0.globalFineId c₀ i = idx.l0.globalFineId c₀ j ↔ i = j := by
        intro i
        rw [globalFineId, globalFineId, Nat.add_left_cancel_iff]
      simp only [hpos, fineCount_eq hc, if_true]
      rw [Finset.sum_ite_eq' _ _ fun _ => (ms : Multiset ClusterMember),
        if_pos (Finset.mem_range.mpr hj)]
    · rw [if_neg hcc]
      refine Finset.sum_eq_zero fun i hi => if_neg fun hid => hcc ?_
      refine hf.unique (hid ▸ ⟨Nat.le_add_right _ _, ?_⟩)
      exact Nat.add_lt_add_left (Finset.mem_range.mp hi) _
  rw [cellMembers]
  simp only [hat]
  rw [Finset.sum_add_distrib]
  exact congrArg (· + idx.cellMembers c) hsum

/-- A document whose nearest cell has a fine centroid is put in that cell. -/
theorem assignDocToNearest_layout (h : idx.Layout) (id : String) {v : Vec}
    (hfine : idx.l0.fineCounts.getD (nearestCoarse q idx.l0 v) 0 ≠ 0) :
    ∃ idx', idx.assignDocToNearest q id v = .ok idx' ∧ idx'.Layout ∧ idx'.l0 = idx.l0 ∧
      ∀ c, idx'.cellMembers c
        = (if nearestCoarse q idx.l0 v = c then {.fromValues id v idx.l0.vectorElement} else 0)
          + idx.cellMembers c := by
  obtain ⟨count, hcount⟩ : ∃ count,
      idx.l0.fineCounts[nearestCoarse q idx.l0 v]? = some count := by
    cases hc : idx.l0.fineCounts[nearestCoarse q idx.l0 v]? with
    | none => exact absurd (by rw [List.getD_eq_getElem?_getD, hc]; rfl) hfine
    | some count => exact ⟨count, rfl⟩
  rw [List.getD_eq_getElem?_getD, hcount] at hfine
  obtain ⟨l1, hl1, -, hlen⟩ := h.complete.cell _ count hcount
  have hne : l1.centroids ≠ [] := by
    intro hnil
    rw [hnil] at hlen
    exact hfine hlen.symm
  have hin := inCell_globalFineId hcount
    (hlen ▸ head_topMCentroids_lt q l1.centroids hne v idx.l0.distanceMetric)
  rw [assignDocToNearest]
  rw [← nearestCoarse, hl1]
  refine ⟨_, rfl, ⟨?_, h.starts, h.named.extendCluster _ _ _, ?_⟩, rfl,
    cellMembers_extendCluster idx hin _ _⟩
  · exact (h.complete.setClusters rfl).complete
  · intro f cl hcl
    rw [extendCluster, entry, lookup_insert_ite] at hcl
    split at hcl
    · rename_i hf
      rw [hf, h.complete.total]
      exact hin.lt_sum
    · exact h.bound f cl hcl

theorem removeDoc_layout (h : idx.Layout) (id : String) :
    (idx.removeDoc id).Layout ∧
      ∀ c, (idx.removeDoc id).cellMembers c = bagErase (idx.cellMembers c) id := by
  refine ⟨⟨(h.complete.setClusters rfl).complete, h.starts, ?_, ?_⟩, fun c => ?_⟩
  · refine h.named.filterMap fun f cl cl' hcl => ?_
    cases hcl
    rfl
  · intro f cl hcl
    rw [removeDoc, removeMember, lookup_filterMap, Option.bind_eq_some_iff] at hcl
    obtain ⟨old, hold, -⟩ := hcl
    exact h.bound f old hold
  · have hat : ∀ f, (membersAt (removeMember id idx.clusters) f : Multiset ClusterMember)
        = bagErase (membersAt idx.clusters f) id := by
      intro f
      rw [membersAt, removeMember, lookup_filterMap, membersAt]
      cases idx.clusters.lookup f <;> rfl
    have hsum : ∀ (is : Finset Nat) (g : Nat → Multiset ClusterMember),
        bagErase (∑ i ∈ is, g i) id = ∑ i ∈ is, bagErase (g i) id := by
      intro is g
      induction is using Finset.induction_on with
      | empty => rfl
      | insert i is hi ih => rw [Finset.sum_insert hi, Finset.sum_insert hi, bagErase_add, ih]
    rw [cellMembers, cellMembers, hsum]
    exact Finset.sum_congr rfl fun i _ => hat _

theorem foldl_removeDoc_layout (deletes : List String) (h : idx.Layout) :
    (deletes.foldl removeDoc idx).Layout ∧ (deletes.foldl removeDoc idx).l0 = idx.l0 ∧
      ∀ c, (deletes.foldl removeDoc idx).cellMembers c
        = deletes.foldl bagErase (idx.cellMembers c) := by
  induction deletes generalizing idx with
  | nil => exact ⟨h, rfl, fun _ => rfl⟩
  | cons id deletes ih =>
    obtain ⟨hremoved, hcells⟩ := removeDoc_layout h id
    obtain ⟨hrest, hl0, hcells'⟩ := ih hremoved
    refine ⟨hrest, hl0, fun c => ?_⟩
    rw [List.foldl_cons, hcells', hcells, List.foldl_cons]

theorem upsertDoc_layout (h : idx.Layout) {doc : Document} (hfine : HasFineCell q idx.l0 doc) :
    ∃ idx', upsertDoc q idx doc = .ok idx' ∧ idx'.Layout ∧ idx'.l0 = idx.l0 ∧
      ∀ c, idx'.cellMembers c
        = placedMember q idx.l0 c doc + bagErase (idx.cellMembers c) doc.id := by
  obtain ⟨hremoved, hcells⟩ := removeDoc_layout h doc.id
  simp only [upsertDoc, placedMember]
  cases hv : extractVector doc.attributes idx.l0.vectorField with
  | error e =>
    refine ⟨_, rfl, hremoved, rfl, fun c => ?_⟩
    rw [hcells, zero_add]
  | ok v =>
    by_cases hlen : v.length = idx.l0.dimensions
    · obtain ⟨idx', hrun, hlayout, hl0, hplaced⟩ :=
        assignDocToNearest_layout q hremoved doc.id (hfine v hv hlen)
      simp only [hlen, ne_eq, true_and]
      refine ⟨idx', hrun, hlayout, hl0, fun c => ?_⟩
      rw [hplaced, hcells]
      rfl
    · simp only [hlen, ne_eq, false_and, if_false]
      refine ⟨_, rfl, hremoved, rfl, fun c => ?_⟩
      rw [hcells, zero_add]

theorem foldlM_upsertDoc_layout (upserts : List Document) (h : idx.Layout)
    (hfine : ∀ doc ∈ upserts, HasFineCell q idx.l0 doc) :
    ∃ idx', upserts.foldlM (upsertDoc q) idx = .ok idx' ∧ idx'.Layout ∧ idx'.l0 = idx.l0 ∧
      ∀ c, idx'.cellMembers c
        = upserts.foldl (fun bag doc => placedMember q idx.l0 c doc + bagErase bag doc.id)
          (idx.cellMembers c) := by
  induction upserts generalizing idx with
  | nil => exact ⟨idx, rfl, h, rfl, fun _ => rfl⟩
  | cons doc upserts ih =>
    obtain ⟨idx₁, hrun₁, h₁, hl0₁, hcells₁⟩ :=
      upsertDoc_layout q h (hfine doc List.mem_cons_self)
    obtain ⟨idx₂, hrun₂, h₂, hl0₂, hcells₂⟩ := ih h₁ fun d hd =>
      hl0₁.symm ▸ hfine d (List.mem_cons_of_mem doc hd)
    refine ⟨idx₂, ?_, h₂, hl0₂.trans hl0₁, fun c => ?_⟩
    · rw [List.foldlM_cons, hrun₁]
      exact hrun₂
    · rw [hcells₂, hcells₁, hl0₁, List.foldl_cons]

def deltaCell (idx : VectorIndex) (upserts : List Document) (deletes : List String) (c : Nat) :
    Multiset ClusterMember :=
  ((idx.cellMembers c).filter fun m => m.docId ∉ deletes ∧ m.docId ∉ upserts.map Document.id)
    + ((lastVersions upserts).map (placedMember q idx.l0 c)).sum

theorem mem_deltaCell {deletes : List String} {c : Nat} : m ∈ deltaCell q idx upserts deletes c ↔
      (m ∈ idx.cellMembers c ∧ m.docId ∉ deletes ∧ m.docId ∉ upserts.map Document.id) ∨
      ∃ doc ∈ lastVersions upserts, m ∈ placedMember q idx.l0 c doc := by
  have hsum : ((lastVersions upserts).map (placedMember q idx.l0 c)).sum
      = Multiset.bind (lastVersions upserts) (placedMember q idx.l0 c) := by
    rw [Multiset.bind, Multiset.map_coe, Multiset.join, Multiset.sum_coe]
  rw [deltaCell, Multiset.mem_add, Multiset.mem_filter, hsum, Multiset.mem_bind]
  rfl

/-- A delta keeps the members with one id in one cell. -/
theorem OneCell.deltaCell {idx' : VectorIndex} (h : idx.OneCell) {deletes : List String}
    (hcells : ∀ c, idx'.cellMembers c = deltaCell q idx upserts deletes c) : idx'.OneCell := by
  intro c c' m m' hm hm' hid
  rw [hcells, mem_deltaCell] at hm hm'
  have hnew : ∀ {c m}, (∃ doc ∈ lastVersions upserts, m ∈ placedMember q idx.l0 c doc) →
      m.docId ∈ upserts.map Document.id := by
    rintro c m ⟨doc, hdoc, hplaced⟩
    obtain ⟨v, -, -, hmid⟩ := mem_placedMember q hplaced
    exact List.mem_map.mpr ⟨doc, mem_of_mem_lastVersions hdoc, hmid.symm⟩
  rcases hm with ⟨hold, -, hkept⟩ | hplaced
  · rcases hm' with ⟨hold', -, -⟩ | hplaced'
    · exact h c c' m m' hold hold' hid
    · exact absurd (hid ▸ hnew hplaced') hkept
  · rcases hm' with ⟨-, -, hkept'⟩ | hplaced'
    · exact absurd (hid ▸ hnew hplaced) hkept'
    · obtain ⟨doc, hdoc, hm⟩ := hplaced
      obtain ⟨doc', hdoc', hm'⟩ := hplaced'
      obtain ⟨v, hv, hnear, hmid⟩ := mem_placedMember q hm
      obtain ⟨v', hv', hnear', hmid'⟩ := mem_placedMember q hm'
      have hsame : doc = doc' := List.inj_on_of_nodup_map (nodup_lastVersions upserts) hdoc hdoc'
        (hmid.symm.trans (hid.trans hmid'))
      subst hsame
      rw [hv] at hv'
      cases hv'
      exact hnear.symm.trans hnear'

/-- If the nearest cell of every upserted document has a fine centroid, a delta puts
each document in its nearest cell, and then takes steps. -/
theorem applyDelta_takesSteps (h : idx.Layout) (hone : idx.OneCell) (hd : idx.l0.dimensions ≠ 0)
    (hc : idx.l0.centroids ≠ []) (hfine : ∀ doc ∈ upserts, HasFineCell q idx.l0 doc)
    (deletes : List String) :
    ∃ upserted idx', idx.applyDelta q o upserts deletes = .ok idx' ∧ Steps q upserted idx' ∧
      upserted.Layout ∧ upserted.l0 = idx.l0 ∧
      ∀ c, upserted.cellMembers c = deltaCell q idx upserts deletes c := by
  obtain ⟨hdeleted, hl0, hcells⟩ := foldl_removeDoc_layout deletes h
  obtain ⟨upserted, hrun, hupserted, hl0', hcells'⟩ :=
    foldlM_upsertDoc_layout q upserts hdeleted (hl0.symm ▸ hfine)
  have hdelta : ∀ c, upserted.cellMembers c = deltaCell q idx upserts deletes c := by
    intro c
    rw [hcells', hcells, hl0]
    refine foldl_replace_foldl_bagErase (fun doc m hm => ?_) upserts deletes _
    obtain ⟨-, -, -, hid⟩ := mem_placedMember q hm
    exact hid
  obtain ⟨idx', hrun', hsteps⟩ :=
    runIncrementalMaintenance_takesSteps q o hupserted (hone.deltaCell q hdelta)
  exact ⟨upserted, idx', (applyDelta_eq q o hd hc hrun).trans hrun', hsteps, hupserted,
    hl0'.trans hl0, hdelta⟩

theorem applyDelta_layout (h : idx.Layout) (hone : idx.OneCell) (hd : idx.l0.dimensions ≠ 0)
    (hc : idx.l0.centroids ≠ []) (hfine : ∀ doc ∈ upserts, HasFineCell q idx.l0 doc)
    (deletes : List String) :
    ∃ idx', idx.applyDelta q o upserts deletes = .ok idx' ∧ idx'.Layout ∧ idx'.OneCell ∧
      ∀ c, idx'.cellMembers c = deltaCell q idx upserts deletes c := by
  obtain ⟨upserted, idx', hrun, hsteps, hupserted, -, hdelta⟩ :=
    applyDelta_takesSteps q o h hone hd hc hfine deletes
  obtain ⟨hlayout, hkept⟩ := hsteps.layout hupserted
  have hend : ∀ c, idx'.cellMembers c = deltaCell q idx upserts deletes c :=
    fun c => (hkept c).trans (hdelta c)
  exact ⟨idx', hrun, hlayout, hone.deltaCell q hend, hend⟩

/-! ## Builds -/

/-- What holds of every cluster and its members, after placing vectors. -/
theorem forall_placePairs {total : Nat} {element : VectorElement} {P : Nat → ClusterMember → Prop}
    {target : String × Vec → Nat} {pairs : List (String × Vec)}
    (hnew : ∀ d ∈ pairs, target d < total ∧ P (target d) (.fromValues d.1 d.2 element))
    {clusters : HashMap Nat ClusterSegment}
    (h : ∀ f cl, clusters.lookup f = some cl → f < total ∧ ∀ m ∈ cl.members, P f m) (f : Nat)
    (cl : ClusterSegment) (hcl : (pairs.foldl (fun cs d => extendCluster segmentId (target d)
      [.fromValues d.1 d.2 element] cs) clusters).lookup f = some cl) :
    f < total ∧ ∀ m ∈ cl.members, P f m := by
  induction pairs generalizing clusters with
  | nil => exact h f cl hcl
  | cons d pairs ih =>
    obtain ⟨hlt, hP⟩ := hnew d List.mem_cons_self
    refine ih (fun e he => hnew e (List.mem_cons_of_mem d he)) (fun g cl' hcl' => ?_) hcl
    simp only [extendCluster, entry, lookup_insert_ite] at hcl'
    split at hcl'
    · rename_i hg
      cases hcl'
      subst hg
      refine ⟨hlt, fun m hm => ?_⟩
      rcases List.mem_append.mp hm with hold | hone
      · rw [getOr] at hold
        cases hl : clusters.lookup (target d) with
        | none =>
          rw [hl] at hold
          exact absurd hold List.not_mem_nil
        | some old =>
          rw [hl] at hold
          exact (h _ old hl).2 m hold
      · rw [List.mem_singleton.mp hone]
        exact hP
    · exact h g cl' hcl'

theorem named_placePairs (segmentId : Nat) (element : VectorElement)
    (target : String × Vec → Nat) (pairs : List (String × Vec))
    {clusters : HashMap Nat ClusterSegment} (h : Named clusters) :
    Named (pairs.foldl (fun cs d => extendCluster segmentId (target d)
      [.fromValues d.1 d.2 element] cs) clusters) := by
  induction pairs generalizing clusters with
  | nil => exact h
  | cons d pairs ih => exact ih (h.extendCluster _ _ _)

/-- A member of a cell of a build. -/
def BuiltIn (cells : Nat → List (String × Vec)) (counts : List Nat) (f : Nat)
    (m : ClusterMember) : Prop :=
  ∃ c count i, counts[c]? = some count ∧ i < count ∧ f = Blocks.start counts c + i ∧
    m.docId ∈ (cells c).map Prod.fst

/-- The layout of a build after its first `n` cells. -/
structure BuiltLayout (cells : Nat → List (String × Vec)) (n : Nat) (st : BuildState) : Prop where
  length : st.fineCounts.length = n
  starts : ∀ c l1, st.l1.lookup c = some l1 →
    c < n ∧ l1.globalIdStart = Blocks.start st.fineCounts c
  named : Named st.clusters
  clusters : ∀ f cl, st.clusters.lookup f = some cl →
    f < st.globalStart ∧ ∀ m ∈ cl.members, BuiltIn cells st.fineCounts f m

theorem BuiltIn.append {cells : Nat → List (String × Vec)} {counts : List Nat} {f : Nat}
    (h : BuiltIn cells counts f m) (k : Nat) : BuiltIn cells (counts ++ [k]) f m := by
  obtain ⟨c, count, i, hc, hi, hf, hm⟩ := h
  have hlt := Blocks.lt_length hc
  refine ⟨c, count, i, ?_, hi, ?_, hm⟩
  · rw [List.getElem?_append_left hlt, hc]
  · rw [Blocks.start_append_of_le _ _ (Nat.le_of_lt hlt), hf]

theorem BuiltLayout.next {p : BuildParams} {byCoarse : HashMap Nat (List (String × Vec))} {n : Nat}
    {st : BuildState} (h : BuiltLayout (byCoarse.getOr []) n st)
    (hstart : st.globalStart = st.fineCounts.sum) :
    BuiltLayout (byCoarse.getOr []) (n + 1) (buildCell q p byCoarse st n) := by
  have hn : Blocks.start (st.fineCounts
      ++ [numFineForVersion (byCoarse.getOr [] n).length p.annVersion]) n = st.globalStart := by
    rw [Blocks.start_append_of_le _ _ (Nat.le_of_eq h.length.symm), ← h.length,
      Blocks.start_length, hstart]
  refine ⟨?_, ?_, named_placePairs _ _ _ _ h.named, ?_⟩
  · rw [buildCell, List.length_append, h.length]
    rfl
  · intro c l1 hl1
    rw [buildCell, lookup_insert_ite] at hl1
    rw [buildCell]
    split at hl1
    · rename_i hcn
      cases hl1
      subst hcn
      exact ⟨Nat.lt_succ_self c, hn.symm⟩
    · obtain ⟨hlt, hold⟩ := h.starts c l1 hl1
      refine ⟨Nat.lt_succ_of_lt hlt, ?_⟩
      rw [hold, Blocks.start_append_of_le _ _ (h.length ▸ Nat.le_of_lt hlt)]
  · rw [buildCell]
    refine forall_placePairs (fun d hd => ?_) fun f cl hcl => ?_
    · have hne : byCoarse.getOr [] n ≠ [] := List.ne_nil_of_mem hd
      have hlen := length_fineVecs q p (byCoarse.getOr [] n)
      obtain ⟨hpos, -⟩ := numFineForVersion_bounds (List.length_pos_iff.mpr hne) p.annVersion
      have hassign := assignToCentroids_lt q (byCoarse.getOr [] n)
        (List.ne_nil_of_length_pos (hlen ▸ hpos)) p.metric d.1
      rw [hlen] at hassign
      refine ⟨Nat.add_lt_add_left hassign _, n, _, _, ?_, hassign, ?_, ?_⟩
      · rw [← h.length]
        simp
      · rw [hn]
      · rw [docId_fromValues]
        exact List.mem_map_of_mem hd
    · obtain ⟨hlt, hmem⟩ := h.clusters f cl hcl
      exact ⟨Nat.lt_of_lt_of_le hlt (Nat.le_add_right _ _), fun m hm => (hmem m hm).append _⟩

theorem builtLayout_foldl (p : BuildParams) (byCoarse : HashMap Nat (List (String × Vec)))
    (n : Nat) :
    BuiltLayout (byCoarse.getOr []) n ((List.range n).foldl (buildCell q p byCoarse) {}) := by
  induction n with
  | zero =>
    refine ⟨rfl, ?_, ?_, ?_⟩
    · intro c l1 hl1
      cases hl1
    · intro f cl hcl
      cases hcl
    · intro f cl hcl
      cases hcl
  | succ n ih =>
    rw [List.range_succ, List.foldl_append]
    exact ih.next q (built_foldl q p byCoarse n).start

/-- A dimension is found with the first vector. -/
theorem collectPairs_dim_ne_zero (h : (collectPairs field docs).2 ≠ []) :
    (collectPairs field docs).1 ≠ 0 := by
  have hfold : ∀ (docs : List Document) (found : Nat × List (String × Vec)),
      (found.2 ≠ [] → found.1 ≠ 0) → (docs.foldl (collectPair field) found).2 ≠ [] →
        (docs.foldl (collectPair field) found).1 ≠ 0 := by
    intro docs
    induction docs with
    | nil => exact fun found hfound => hfound
    | cons doc docs ih =>
      intro found hfound
      refine ih _ ?_
      rw [collectPair]
      split
      · exact hfound
      · rename_i v hv
        split
        · exact hfound
        · rename_i hempty
          split
          · exact fun _ hzero => hempty (List.isEmpty_iff.mpr (List.length_eq_zero_iff.mp hzero))
          · rename_i hdim
            split
            · exact hfound
            · exact fun _ => hdim
  exact hfold docs (0, []) (fun hne => absurd rfl hne) h

/-- The clusters of a build, cell by cell; every id is assigned to one cell. -/
theorem builtLayout_of_build {metric : DistanceMetric} {schema : Json} {cfg : AnnBuildConfig}
    (h : build q segmentId field metric docs schema cfg = some idx) :
    ∃ (cells : Nat → List (String × Vec)) (assign : String → Nat) (st : BuildState),
      (∀ c, ∀ id ∈ (cells c).map Prod.fst, assign id = c) ∧
      BuiltLayout cells idx.l0.fineCounts.length st ∧ idx.l1 = st.l1 ∧
      idx.clusters = st.clusters ∧ idx.l0.fineCounts = st.fineCounts ∧
      idx.l0.numFineTotal = st.globalStart := by
  rw [build] at h
  generalize collectPairs field docs = found at h
  simp only at h
  split at h
  · cases h
  generalize numCoarseForVersion _ cfg.annVersion = k at h
  generalize q.kmeansCentroids _ k _ metric = coarseVecs at h
  generalize assignToCentroids q.scoreVector _ coarseVecs metric = assign at h
  generalize BuildParams.mk segmentId metric _ _ cfg.annVersion = p at h
  have hbuilt := builtLayout_foldl q p (groupBy (fun d => assign.getOr 0 d.1) found.2) k
  have hlen := hbuilt.length
  generalize (List.range k).foldl (buildCell q p _) {} = st at h hbuilt hlen
  cases h
  refine ⟨_, assign.getOr 0, st, fun c id hid => ?_, hlen.symm ▸ hbuilt, rfl, rfl, rfl, rfl⟩
  obtain ⟨d, hd, rfl⟩ := List.mem_map.mp hid
  rw [getOr_groupBy, List.mem_filter] at hd
  exact of_decide_eq_true hd.2

/-- A build lays out its cells and puts the documents with one id in one cell. -/
theorem build_layout {metric : DistanceMetric} {schema : Json} {cfg : AnnBuildConfig}
    (h : build q segmentId field metric docs schema cfg = some idx) :
    idx.Layout ∧ idx.OneCell ∧ idx.l0.dimensions ≠ 0 := by
  obtain ⟨hcomplete, -, -, -, hdim, -, -⟩ := build_spec q h
  obtain ⟨cells, assign, st, hassign, hbuilt, hl1, hclusters, hcounts, htotal⟩ :=
    builtLayout_of_build q h
  refine ⟨⟨hcomplete, ?_, hclusters ▸ hbuilt.named, ?_⟩, ?_, ?_⟩
  · intro c l1 hlookup
    rw [hl1] at hlookup
    rw [globalIdStart, hcounts, hbuilt.length]
    exact hbuilt.starts c l1 hlookup
  · intro f cl hcl
    rw [hclusters] at hcl
    rw [htotal]
    exact (hbuilt.clusters f cl hcl).1
  · have hcell : ∀ c m, m ∈ idx.cellMembers c → assign m.docId = c := by
      intro c m hm
      obtain ⟨f, hin, hm⟩ := mem_cellMembers.mp hm
      obtain ⟨cl, hcl, hmem⟩ := lookup_of_membersAt_ne_nil (List.ne_nil_of_mem hm)
      rw [← hmem] at hm
      rw [hclusters] at hcl
      obtain ⟨c', count', i', hc', hi', hf', hid⟩ := (hbuilt.clusters f cl hcl).2 m hm
      obtain ⟨count, i, hc, hi, hf⟩ := getElem?_of_inCell hin
      rw [← hcounts] at hc' hf'
      rw [← (Blocks.block_unique hc' hc hi' hi (hf'.symm.trans hf)).1]
      exact hassign c' _ hid
    intro c c' m m' hm hm' hid
    rw [← hcell c m hm, ← hcell c' m' hm', hid]
  · rw [hdim]
    refine collectPairs_dim_ne_zero fun hnil => ?_
    rw [build] at h
    simp [hnil] at h

/-! ## Sequences of deltas -/

/-- One call of `applyDelta`, with the order in which maps are iterated. -/
structure Delta where
  order : IterOrder Nat
  upserts : List Document := []
  deletes : List String := []

def deltas : Machine VectorIndex Delta where
  step idx d := (idx.applyDelta q d.order d.upserts d.deletes).toOption

/-- An index to which deltas apply. -/
structure Laid (idx : VectorIndex) : Prop where
  layout : idx.Layout
  oneCell : idx.OneCell
  dimensions : idx.l0.dimensions ≠ 0
  centroids : idx.l0.centroids ≠ []

/-- Every upserted document with a vector is, in its last version, in a cluster of
the cell nearest to its vector. -/
def Placed (idx : VectorIndex) (upserts : List Document) (idx' : VectorIndex) : Prop :=
  ∀ doc ∈ lastVersions upserts, ∀ v, extractVector doc.attributes idx.l0.vectorField = .ok v →
    v.length = idx.l0.dimensions → ∃ f i,
      idx'.l0.coarseLocalFromGlobal f = some (nearestCoarse q idx.l0 v, i) ∧
      .fromValues doc.id v idx.l0.vectorElement ∈ membersAt idx'.clusters f

theorem Laid.step (h : idx.Laid) {d : Delta} (hfine : ∀ doc ∈ d.upserts, HasFineCell q idx.l0 doc) :
    ∃ idx', (deltas q).step idx d = some idx' ∧ idx'.Laid ∧ Placed q idx d.upserts idx' := by
  obtain ⟨idx', hrun, hlayout, hone, hcells⟩ := applyDelta_layout q d.order h.layout h.oneCell
    h.dimensions h.centroids hfine d.deletes
  obtain ⟨idx'', hrun', hbecomes⟩ := applyDelta_becomes q d.order h.layout.complete h.dimensions
    h.centroids d.upserts d.deletes
  obtain rfl : idx' = idx'' := Except.ok.inj (hrun.symm.trans hrun')
  refine ⟨idx', congrArg Except.toOption hrun, ⟨hlayout, hone, ?_, ?_⟩, ?_⟩
  · rw [hbecomes.dimensions]
    exact h.dimensions
  · rw [hbecomes.centroids]
    exact h.centroids
  · intro doc hdoc v hv hlen
    have hmem : .fromValues doc.id v idx.l0.vectorElement
        ∈ idx'.cellMembers (nearestCoarse q idx.l0 v) := by
      rw [hcells]
      refine (mem_deltaCell q).mpr (.inr ⟨doc, hdoc, ?_⟩)
      simp only [placedMember, hv]
      rw [if_pos ⟨hlen, trivial⟩]
      exact mem_singleton_self _
    obtain ⟨f, hin, hf⟩ := mem_cellMembers.mp hmem
    obtain ⟨count, i, hc, hi, rfl⟩ := getElem?_of_inCell hin
    exact ⟨_, i, coarseLocal_globalFineId hc hi, hf⟩

/-- The members of an index are found under the ids below the total. -/
theorem Layout.exists_of_mem_members (h : idx.Layout) (hm : m ∈ idx.members) :
    ∃ f < idx.l0.numFineTotal, m ∈ membersAt idx.clusters f := by
  rw [h.members_eq_sum_cellMembers, mem_sum] at hm
  obtain ⟨c, -, hm⟩ := hm
  obtain ⟨f, hin, hm⟩ := mem_cellMembers.mp hm
  exact ⟨f, h.complete.total ▸ hin.lt_sum, hm⟩

/-- An index that is built and then changed by deltas has its layout, can be loaded by
the ids below the total, and has every upserted document in its nearest cell, if no
document is upserted whose nearest cell has no fine centroid. -/
theorem deltas_keep_layout (segmentId : Nat) (field : String) (metric : DistanceMetric)
    (docs : List Document) (schema : Json) (cfg : AnnBuildConfig) (idx : VectorIndex)
    (hbuild : build q segmentId field metric docs schema cfg = some idx) (ds : List Delta)
    (hfine : (deltas q).Along (fun t d => ∀ doc ∈ d.upserts, HasFineCell q t.l0 doc) idx ds) :
    (∃ idx', (deltas q).run idx ds = some idx') ∧
    (∀ t, (deltas q).Visits idx ds t → t.Layout ∧
      ∀ m ∈ t.members, ∃ f < t.l0.numFineTotal, m ∈ membersAt t.clusters f) ∧
    (deltas q).Along (fun t d => ∀ t', (deltas q).step t d = some t' → Placed q t d.upserts t')
      idx ds := by
  obtain ⟨hlayout, hone, hdim⟩ := build_layout q hbuild
  have hlaid : idx.Laid := ⟨hlayout, hone, hdim, (build_spec q hbuild).2.2.1⟩
  have hkeep : ∀ t d t', t.Laid → (∀ doc ∈ d.upserts, HasFineCell q t.l0 doc) →
      (deltas q).step t d = some t' → t'.Laid ∧ Placed q t d.upserts t' := by
    intro t d t' ht hd hstep
    obtain ⟨t'', hstep', hboth⟩ := ht.step q hd
    rw [hstep] at hstep'
    cases hstep'
    exact hboth
  refine ⟨?_, ?_, ?_⟩
  · obtain ⟨idx', hrun, -⟩ := Machine.run_total (m := deltas q) (I := Laid)
      (fun t d ht hd => (ht.step q hd).imp fun _ h => ⟨h.1, h.2.1⟩) hlaid hfine
    exact ⟨idx', hrun⟩
  · intro t ht
    have htlaid : t.Laid := Machine.visits_invariant
      (fun t d t' ht hd hstep => (hkeep t d t' ht hd hstep).1) hlaid hfine ht
    exact ⟨htlaid.layout, fun m hm => htlaid.layout.exists_of_mem_members hm⟩
  · exact Machine.along_of_invariant (fun t d t' ht hd hstep => (hkeep t d t' ht hd hstep).1)
      (fun t d ht hd t' hstep => (hkeep t d t' ht hd hstep).2) hlaid hfine

end Quantized

/-- Three deltas that add, move and delete documents. -/
def threeDeltas : List Delta :=
  [{ order := .sorted Nat, upserts := [pointDoc "c" 2, pointDoc "d" 9] },
    { order := .sorted Nat, upserts := [pointDoc "a" 8], deletes := ["b"] },
    { order := .sorted Nat, upserts := [pointDoc "e" 5, pointDoc "c" 11] }]

theorem deltas_keep_layout_threeDeltas :
    ∃ idx idx', build quantizer 0 "emb" .euclideanSquared [pointDoc "a" 0, pointDoc "b" 10] .null {}
        = some idx ∧ 1 < idx.l0.numFineTotal ∧
      (deltas quantizer).run idx threeDeltas = some idx' ∧ idx'.Layout := by
  have hbuilt : (build quantizer 0 "emb" .euclideanSquared [pointDoc "a" 0, pointDoc "b" 10] .null
      {}).map (fun idx => decide (1 < idx.l0.numFineTotal ∧ (deltas quantizer).Along
        (fun t d => ∀ doc ∈ d.upserts, HasFineCell quantizer t.l0 doc) idx threeDeltas))
        = some true := by
    decide +kernel
  obtain ⟨idx, hidx, hfacts⟩ := Option.map_eq_some_iff.mp hbuilt
  obtain ⟨hclusters, hfine⟩ := of_decide_eq_true hfacts
  obtain ⟨⟨idx', hrun⟩, hlayout, -⟩ := deltas_keep_layout quantizer 0 "emb" .euclideanSquared
    [pointDoc "a" 0, pointDoc "b" 10] .null {} idx hidx threeDeltas hfine
  exact ⟨idx, idx', hidx, hclusters, hrun, (hlayout idx' (Machine.visits_end hrun)).1⟩

/-- Thirty-two documents in one direction and one without a direction. -/
def pointsAndZero : List Document :=
  (List.range 32).map (fun i => pointDoc (toString i) 1) ++ [pointDoc "zero" 0]

/-- The document without a direction is picked as a centroid, but it is assigned to the
first cell like all others, as every centroid has the same score for it.  Its own cell
stays empty, and it is the nearest one to a vector in the opposite direction.  That
document is stored under the total, where it is not loaded. -/
theorem empty_cell_breaks_layout :
    ∃ idx idx', build quantizer 0 "emb" .cosineDistance pointsAndZero .null {} = some idx ∧
      (deltas quantizer).run idx
        [{ order := .sorted Nat, upserts := [pointDoc "opposite" (-1)] }] = some idx' ∧
      ¬idx'.Layout ∧ ⟨"opposite", [.num (-1)], none⟩ ∈ idx'.members ∧
      ∀ f < idx'.l0.numFineTotal, ⟨"opposite", [.num (-1)], none⟩ ∉ membersAt idx'.clusters f := by
  have hrun : ((build quantizer 0 "emb" .cosineDistance pointsAndZero .null {}).bind fun idx =>
      ((deltas quantizer).run idx
        [{ order := .sorted Nat, upserts := [pointDoc "opposite" (-1)] }]).map
      fun t => decide (⟨"opposite", [.num (-1)], none⟩ ∈ t.members ∧
        ∀ f < t.l0.numFineTotal, ⟨"opposite", [.num (-1)], none⟩ ∉ membersAt t.clusters f))
      = some true := by
    decide +kernel
  obtain ⟨idx, hidx, hrun⟩ := Option.bind_eq_some_iff.mp hrun
  obtain ⟨idx', hrun, hfacts⟩ := Option.map_eq_some_iff.mp hrun
  obtain ⟨hmem, hnot⟩ := of_decide_eq_true hfacts
  refine ⟨idx, idx', hidx, hrun, fun hlayout => ?_, hmem, hnot⟩
  obtain ⟨f, hlt, hf⟩ := hlayout.exists_of_mem_members hmem
  exact hnot f hlt hf

end VectorIndex

end OpenPuffer
