import OpenPuffer.View.Eventual

/-!
# The two loaders

`load` replays the segments after the snapshot, gives the sequence of the snapshot to every
document that is left, and walks over the segments once more to record which of them touch it.
The batched cold load records while it replays, and gives the sequence of the snapshot to the
documents that have none in the end.

The documents are the same.  But a document of the snapshot that the segments only patch has the
sequence of its last patch in one view (`lookup_warmSeqs_of_no_upsert`) and that of the snapshot
in the other (`lookup_coldSeqs_of_no_upsert`).
-/

namespace OpenPuffer

open Option HashMap List NamespaceView

/-! ## Stored namespaces -/

/-- The snapshot that the metadata records is stored, and every segment after it. -/
structure Store.Complete (st : Store) (m : NamespaceMeta) : Prop where
  snapshot : 0 < m.walSnapshotSeq → ∃ snap ∈ st.snapshot, snap.seq = m.walSnapshotSeq
  segment : ∀ seq, m.walSnapshotSeq < seq → seq ≤ m.walCommitSeq → st.wal seq ≠ none
  lt_max : m.walSnapshotSeq < u64Max

/-- A document of the snapshot that a segment after the cursor patches is deleted
or upserted by a segment after the snapshot.  This matters only if the snapshot is
not ahead of the cursor. -/
def Store.PatchesReplaced (st : Store) (m : NamespaceMeta) : Prop :=
  0 < m.walSnapshotSeq → m.walSnapshotSeq ≤ m.indexCursor →
    ∀ snap ∈ st.snapshot, ∀ seq e, m.indexCursor < seq → seq ≤ m.walCommitSeq →
      st.wal seq = some e → ∀ p ∈ e.patches, p.id ∈ snap.docs →
        ∃ seq' e', m.walSnapshotSeq < seq' ∧ seq' ≤ m.walCommitSeq ∧ st.wal seq' = some e' ∧
          (p.id ∈ e'.deletes ∨ p.id ∈ e'.upserts.map WalUpsert.id)

/-- Two views with the same documents, of which the same ones are indexed. -/
structure NamespaceView.Agree (v v' : NamespaceView) : Prop where
  docs : v.docs = v'.docs
  applied : v.lastAppliedWalSeq = v'.lastAppliedWalSeq
  indexed : ∀ id, v.docs.lookup id ≠ none →
    ((v.docLastWalSeq.lookup id).getD 0 ≤ v.metadata.indexCursor ↔
      (v'.docLastWalSeq.lookup id).getD 0 ≤ v'.metadata.indexCursor)

/-- An eventual query does not tell such views apart. -/
theorem NamespaceView.Agree.docsForQuery_eq {v v' : NamespaceView} (h : v.Agree v')
    (hmeta : v.metadata = v'.metadata) (skipWalTail : Bool) :
    v.docsForQuery skipWalTail = v'.docsForQuery skipWalTail := by
  unfold docsForQuery
  rw [← h.docs, ← hmeta]
  split
  · rfl
  · refine ext_lookup fun id => ?_
    rw [lookup_filterMap, lookup_filterMap]
    cases hdoc : v.docs.lookup id with
    | none => rfl
    | some doc =>
      have hiff := h.indexed id (by simp [hdoc])
      rw [← hmeta] at hiff
      simp only [hiff]

variable {st : Store} {m : NamespaceMeta}

theorem Store.Complete.entries (h : st.Complete m) :
    ∃ es, HoldsEntries st.wal (m.walSnapshotSeq + 1) es ∧
      es.length = m.walCommitSeq - m.walSnapshotSeq := by
  refine ⟨(List.range (m.walCommitSeq - m.walSnapshotSeq)).map fun i =>
    (st.wal (m.walSnapshotSeq + 1 + i)).getD {}, ?_, by rw [List.length_map, List.length_range]⟩
  intro i e he
  rw [List.getElem?_map, map_eq_some_iff] at he
  obtain ⟨j, hj, rfl⟩ := he
  obtain ⟨hlt, rfl⟩ := List.getElem?_eq_some_iff.mp hj
  rw [List.length_range] at hlt
  rw [List.getElem_range]
  obtain ⟨f, hf⟩ := ne_none_iff_exists'.mp
    (h.segment (m.walSnapshotSeq + 1 + i) (by omega) (by omega))
  rw [hf]
  rfl

/-- Both loaders start from the recorded snapshot. -/
theorem Store.Complete.baseline (h : st.Complete m) :
    ∃ base snapshot, loadBaseline st m = (base, m.walSnapshotSeq) ∧
      coldSnapshot st m = .ok snapshot ∧
      (match snapshot with
        | some snap => (snap.intoDocs, snap.seq)
        | none => (∅, 0)) = (base, m.walSnapshotSeq) ∧
      (0 < m.walSnapshotSeq → ∀ snap ∈ st.snapshot, snap.docs = base) := by
  rcases Nat.eq_zero_or_pos m.walSnapshotSeq with hzero | hpos
  · have hnot : ¬ 0 < m.walSnapshotSeq := by omega
    refine ⟨∅, none, ?_, ?_, ?_, fun hpos => absurd hpos hnot⟩
    · rw [loadBaseline, if_neg hnot, hzero]
    · rw [coldSnapshot, if_neg hnot]
    · rw [hzero]
  · obtain ⟨snap, hmem, hseq⟩ := h.snapshot hpos
    have hstored : st.snapshot = some snap := hmem
    refine ⟨snap.docs, some snap, ?_, ?_, ?_, fun _ snap' hmem' => ?_⟩
    · rw [loadBaseline, if_pos hpos, st.reader_snapshot, hstored]
      simp only [hseq, if_true, WalSnapshot.intoDocs]
    · rw [coldSnapshot, if_pos hpos, st.reader_snapshot, hstored]
    · simp only [WalSnapshot.intoDocs, hseq]
    · cases hstored.symm.trans hmem'
      rfl

/-! ## The sequences of the two views -/

/-- Rows that do not delete a document keep it. -/
theorem lookup_foldl_applyOp_of_no_delete {id : String} {ops : List DocOp} {docs : DocMap}
    (h : DocOp.delete id ∉ ops) (hdoc : docs.lookup id ≠ none) :
    (ops.foldl applyOp docs).lookup id ≠ none := by
  induction ops generalizing docs with
  | nil => exact hdoc
  | cons op ops ih =>
    refine ih (fun hmem => h (mem_cons_of_mem _ hmem)) ?_
    obtain ⟨attrs, hattrs⟩ := ne_none_iff_exists'.mp hdoc
    rw [lookup_applyOp, hattrs]
    split
    · rename_i hid
      cases op with
      | delete i => exact absurd (by rw [← hid]; exact mem_cons_self) h
      | upsert _ _ => exact some_ne_none _
      | patch _ _ => exact some_ne_none _
    · exact some_ne_none _

section Entries

variable {base : DocMap} {es : List WalEntry} {id : String}

theorem kept_of_no_delete (hbase : id ∈ base) (hdel : ∀ e ∈ es, id ∉ e.deletes) :
    (es.foldl applyEntry base).lookup id ≠ none := by
  rw [foldl_applyEntry]
  refine lookup_foldl_applyOp_of_no_delete (fun hop => ?_) ?_
  · obtain ⟨e, he, hop⟩ := mem_flatMap.mp hop
    exact hdel e he (mem_ops_delete.mp hop)
  · exact fun hnone => Finmap.lookup_eq_none.mp hnone hbase

/-- What was known before does not matter for a document that an entry upserts. -/
theorem lookup_recordSeqs_of_upsert (first : Nat) (map map' : HashMap String Nat)
    (hdoc : (es.foldl applyEntry base).lookup id ≠ none)
    (hup : ∃ e ∈ es, id ∈ e.upserts.map WalUpsert.id) :
    ∃ q, (recordSeqs map first es).lookup id = some q ∧
      (recordSeqs map' first es).lookup id = some q := by
  obtain ⟨e, he, hid⟩ := hup
  have hnamed : ∀ map : HashMap String Nat, ∃ k e, es[k]? = some e ∧
      (id ∈ e.deletes ∨ id ∈ e.writtenIds) ∧
      (∀ k' e', es[k']? = some e' → id ∈ e'.deletes ∨ id ∈ e'.writtenIds → k' ≤ k) ∧
      (recordSeqs map first es).lookup id = some (first + k) := by
    intro map
    rcases recordSeqs_last hdoc (fun hno => absurd hid (hno e he)) with hlast | ⟨hnone, -⟩
    · exact hlast
    · exact absurd (.inr (mem_append_left _ hid)) (hnone e he)
  obtain ⟨k, f, hf, hfid, hmax, hq⟩ := hnamed map
  obtain ⟨k', f', hf', hfid', hmax', hq'⟩ := hnamed map'
  have heq : k = k' := Nat.le_antisymm (hmax' k f hf hfid) (hmax k' f' hf' hfid')
  exact ⟨first + k, hq, heq ▸ hq'⟩

/-- `load` gives a document that no entry upserts the sequence of its last patch,
or that of the snapshot. -/
theorem lookup_warmSeqs_of_no_upsert (s : Nat)
    (hdoc : (es.foldl applyEntry base).lookup id ≠ none)
    (hup : ∀ e ∈ es, id ∉ e.upserts.map WalUpsert.id) :
    ∃ q, (recordSeqs (HashMap.constKeys (es.foldl applyEntry base) s) (s + 1) es).lookup id
        = some q ∧ s ≤ q ∧
      ∀ i, s ≤ i → (q ≤ i ↔ ∀ k e, es[k]? = some e → i < s + 1 + k →
        id ∉ e.patches.map WalPatch.id) := by
  have hseed : (constKeys (es.foldl applyEntry base) s).lookup id = some s := by
    obtain ⟨attrs, hattrs⟩ := ne_none_iff_exists'.mp hdoc
    rw [lookup_constKeys, hattrs]
    rfl
  have hnames : ∀ e ∈ es, (id ∈ e.deletes ∨ id ∈ e.writtenIds) ↔
      id ∈ e.patches.map WalPatch.id := by
    intro e he
    refine ⟨?_, fun hp => .inr (mem_append_right _ hp)⟩
    rintro (hdel | hwritten)
    · exact absurd hdel ((kept_of_no_upsert hdoc hup).2 e he)
    · rcases mem_append.mp hwritten with hu | hp
      · exact absurd hu (hup e he)
      · exact hp
  rcases recordSeqs_last hdoc (fun _ => by rw [hseed]; exact some_ne_none s) with
    ⟨k, e, he, hid, hmax, hq⟩ | ⟨hnone, hq⟩
  · refine ⟨s + 1 + k, hq, by omega, fun i hi => ⟨fun hle k' e' he' hlt hp => ?_, fun hno => ?_⟩⟩
    · have hk := hmax k' e' he' ((hnames e' (mem_of_getElem? he')).mpr hp)
      omega
    · refine Nat.le_of_not_lt fun hlt => hno k e he hlt ?_
      exact (hnames e (mem_of_getElem? he)).mp hid
  · refine ⟨s, hq.trans hseed, Nat.le_refl s, fun i hi => ⟨fun _ k e he _ hp => ?_, fun _ => hi⟩⟩
    have hmem := mem_of_getElem? he
    exact hnone e hmem ((hnames e hmem).mpr hp)

/-- The batched cold load gives it the sequence of the snapshot. -/
theorem lookup_coldSeqs_of_no_upsert (s : Nat)
    (hdoc : (es.foldl applyEntry base).lookup id ≠ none)
    (hup : ∀ e ∈ es, id ∉ e.upserts.map WalUpsert.id) :
    (recordSeqs ∅ (s + 1) es ∪ HashMap.constKeys (es.foldl applyEntry base) s :
        HashMap String Nat).lookup id = some s := by
  obtain ⟨attrs, hattrs⟩ := ne_none_iff_exists'.mp hdoc
  rw [lookup_union_or, lookup_recordSeqs_of_no_upsert hup rfl, lookup_constKeys,
    hattrs]
  rfl

/-- The two maps compare alike with a cursor exactly if every document that is
only patched has its patches up to the cursor, or the snapshot is ahead of it. -/
theorem seqs_compare_iff (base : DocMap) (es : List WalEntry) (s cursor : Nat) :
    (∀ id, (es.foldl applyEntry base).lookup id ≠ none →
      (((recordSeqs (HashMap.constKeys (es.foldl applyEntry base) s) (s + 1) es).lookup id).getD 0
          ≤ cursor ↔
        ((recordSeqs ∅ (s + 1) es ∪ HashMap.constKeys (es.foldl applyEntry base) s :
          HashMap String Nat).lookup id).getD 0 ≤ cursor)) ↔
      (s ≤ cursor → ∀ k e, es[k]? = some e → cursor < s + 1 + k → ∀ p ∈ e.patches, p.id ∈ base →
        ∃ e' ∈ es, p.id ∈ e'.deletes ∨ p.id ∈ e'.upserts.map WalUpsert.id) := by
  constructor
  · intro hall hs k e he hk p hp hbase
    by_contra hnone
    have hup : ∀ e' ∈ es, p.id ∉ e'.upserts.map WalUpsert.id :=
      fun e' he' hid => hnone ⟨e', he', .inr hid⟩
    have hdoc : (es.foldl applyEntry base).lookup p.id ≠ none :=
      kept_of_no_delete hbase fun e' he' hid => hnone ⟨e', he', .inl hid⟩
    obtain ⟨q, hq, -, hiff⟩ := lookup_warmSeqs_of_no_upsert s hdoc hup
    have hsame := hall p.id hdoc
    rw [hq, lookup_coldSeqs_of_no_upsert s hdoc hup] at hsame
    exact (hiff cursor hs).mp (hsame.mpr hs) k e he hk (mem_map_of_mem hp)
  · intro hreplaced id hdoc
    by_cases hup : ∃ e ∈ es, id ∈ e.upserts.map WalUpsert.id
    · obtain ⟨q, hq, hq'⟩ := lookup_recordSeqs_of_upsert (s + 1)
        (constKeys (es.foldl applyEntry base) s) ∅ hdoc hup
      rw [hq, lookup_union_or, hq', some_or]
    · have hno : ∀ e ∈ es, id ∉ e.upserts.map WalUpsert.id := fun e he hid => hup ⟨e, he, hid⟩
      obtain ⟨q, hq, hsq, hiff⟩ := lookup_warmSeqs_of_no_upsert s hdoc hno
      obtain ⟨hbase, hdel⟩ := kept_of_no_upsert hdoc hno
      rw [hq, lookup_coldSeqs_of_no_upsert s hdoc hno, getD_some]
      refine ⟨fun hle => Nat.le_trans hsq hle, fun hs => (hiff cursor hs).mpr ?_⟩
      intro k e he hk hid
      obtain ⟨p, hp, rfl⟩ := mem_map.mp hid
      obtain ⟨e', he', hid | hid⟩ := hreplaced hs k e he hk p hp hbase
      · exact hdel e' he' hid
      · exact hno e' he' hid

end Entries

/-! ## Loading in the two ways -/

theorem Store.patchesReplaced_iff {base : DocMap} {es : List WalEntry} (h : st.Complete m)
    (hheld : HoldsEntries st.wal (m.walSnapshotSeq + 1) es)
    (hlen : es.length = m.walCommitSeq - m.walSnapshotSeq)
    (hdocs : 0 < m.walSnapshotSeq → ∀ snap ∈ st.snapshot, snap.docs = base) :
    st.PatchesReplaced m ↔ (0 < m.walSnapshotSeq → m.walSnapshotSeq ≤ m.indexCursor →
      ∀ k e, es[k]? = some e → m.indexCursor < m.walSnapshotSeq + 1 + k →
        ∀ p ∈ e.patches, p.id ∈ base →
          ∃ e' ∈ es, p.id ∈ e'.deletes ∨ p.id ∈ e'.upserts.map WalUpsert.id) := by
  have hentry : ∀ {seq e}, m.walSnapshotSeq < seq → seq ≤ m.walCommitSeq → st.wal seq = some e →
      ∃ k, seq = m.walSnapshotSeq + 1 + k ∧ es[k]? = some e := by
    intro seq e h1 h2 he
    refine ⟨seq - m.walSnapshotSeq - 1, by omega, ?_⟩
    rw [← hheld.wal_eq (by omega), ← he]
    congr 1
    omega
  refine forall_congr' fun hpos => forall_congr' fun hle => ?_
  obtain ⟨snap, hsnap, -⟩ := h.snapshot hpos
  constructor
  · intro hall k e he hk p hp hbase
    have hlt := (List.getElem?_eq_some_iff.mp he).1
    obtain ⟨seq, e', h1, h2, he', hid⟩ := hall snap hsnap (m.walSnapshotSeq + 1 + k) e hk (by omega)
      (hheld k e he) p hp (by rw [hdocs hpos snap hsnap]; exact hbase)
    obtain ⟨k', -, hk'⟩ := hentry h1 h2 he'
    exact ⟨e', List.mem_of_getElem? hk', hid⟩
  · intro hall snap' hsnap' seq e h1 h2 he p hp hbase
    obtain ⟨k, rfl, hk⟩ := hentry (by omega) h2 he
    rw [hdocs hpos snap' hsnap'] at hbase
    obtain ⟨e', he', hid⟩ := hall k e hk h1 p hp hbase
    obtain ⟨k', hk'⟩ := List.mem_iff_getElem?.mp he'
    have hlt := (List.getElem?_eq_some_iff.mp hk').1
    exact ⟨m.walSnapshotSeq + 1 + k', e', by omega, by omega, hheld k' e' hk', hid⟩

/-- On a complete namespace both loads succeed.  The views agree, and an eventual
query reads the same from both, exactly if the recorded snapshot is a committed
one and no document of it is only patched, after the cursor. -/
theorem loaders_agree_iff {st : Store} {m : NamespaceMeta} (h : st.Complete m) (etag : Nat) :
    ∃ warm cold, NamespaceView.load st (some (m, etag)) = .ok warm ∧
      NamespaceView.loadColdBatched st (some (m, etag)) true = .ok cold ∧
      (warm.Agree cold ∧ warm.docsForQuery true = cold.docsForQuery true ↔
        m.walSnapshotSeq ≤ m.walCommitSeq ∧ st.PatchesReplaced m) := by
  obtain ⟨es, hheld, hlen⟩ := h.entries
  obtain ⟨base, snapshot, hbase, hsnapshot, hstart, hdocs⟩ := h.baseline
  obtain ⟨segments, hsegments, hcold⟩ := hheld.reader.coldSegments_eq h.lt_max
    ((List.length_map _).trans hlen)
  refine ⟨_, _, load_of_baseline etag hbase hheld hlen h.lt_max,
    loadColdBatched_of_snapshot etag hstart hsnapshot hsegments hcold hlen h.lt_max
      (Nat.le_refl _), ?_⟩
  rw [Store.patchesReplaced_iff h hheld hlen hdocs, and_iff_left_of_imp
    fun hagree => hagree.docsForQuery_eq rfl true]
  have hcompare := seqs_compare_iff base es m.walSnapshotSeq m.indexCursor
  constructor
  · intro hagree
    have happlied := hagree.applied
    dsimp only at happlied
    refine ⟨by omega, fun hpos => hcompare.mp fun id hdoc => ?_⟩
    have hindexed := hagree.indexed id hdoc
    rw [if_pos hpos, if_pos hpos] at hindexed
    exact hindexed
  · rintro ⟨hle, hreplaced⟩
    refine ⟨rfl, Nat.max_eq_right hle, fun id hdoc => ?_⟩
    split
    · rename_i hpos
      exact hcompare.mpr (hreplaced hpos) id hdoc
    · exact Iff.rfl

/-- A namespace that was compacted with one document, `a`, and one more entry. -/
def compactedStore (e : WalEntry) : Store where
  metaJson := .absent
  wal seq := if seq = 2 then some e else none
  snapshot := some ⟨1, (∅ : DocMap).insert "a" ∅⟩

/-- The snapshot is indexed, the entry after it is not. -/
def compactedMeta : NamespaceMeta :=
  { NamespaceMeta.empty with walCommitSeq := 2, walSnapshotSeq := 1, indexCursor := 1 }

theorem complete_compactedStore (e : WalEntry) : (compactedStore e).Complete compactedMeta where
  snapshot _ := ⟨_, rfl, rfl⟩
  segment seq h1 h2 := by
    have hseq : seq = 2 := Nat.le_antisymm h2 h1
    subst hseq
    exact some_ne_none e
  lt_max := by decide

/-- A document that is upserted and patched is hidden in both views. -/
theorem loaders_agree_upserted :
    let st := compactedStore { upserts := [⟨"a", ∅⟩], patches := [⟨"a", ∅⟩] }
    ∃ warm cold, load st (some (compactedMeta, 0)) = .ok warm ∧
      loadColdBatched st (some (compactedMeta, 0)) true = .ok cold ∧
      warm.Agree cold ∧ warm.docsForQuery true = cold.docsForQuery true := by
  obtain ⟨warm, cold, hwarm, hcold, hiff⟩ := loaders_agree_iff
    (complete_compactedStore { upserts := [⟨"a", ∅⟩], patches := [⟨"a", ∅⟩] }) 0
  refine ⟨warm, cold, hwarm, hcold, hiff.mpr ⟨by decide, ?_⟩⟩
  rintro - - snap - seq e h1 h2 he p hp -
  obtain rfl : seq = 2 := Nat.le_antisymm h2 h1
  cases he
  cases mem_singleton.mp hp
  exact ⟨2, _, by decide, by decide, rfl, .inr mem_cons_self⟩

/-- A document of the snapshot that is patched and not indexed yet: one view hides
it, the other shows the patched version. -/
theorem patched_document_differs :
    let attrs : Attributes := (∅ : Attributes).insert "seen" (.bool true)
    let st := compactedStore { patches := [⟨"a", attrs⟩] }
    st.Complete compactedMeta ∧
    ∃ warm cold, load st (some (compactedMeta, 0)) = .ok warm ∧
      loadColdBatched st (some (compactedMeta, 0)) true = .ok cold ∧
      (warm.docLastWalSeq.lookup "a" = some 2 ∧ (warm.docsForQuery true).lookup "a" = none) ∧
      (cold.docLastWalSeq.lookup "a" = some 1 ∧
        (cold.docsForQuery true).lookup "a" = some attrs) ∧
      ¬ (warm.Agree cold ∧ warm.docsForQuery true = cold.docsForQuery true) := by
  intro attrs st
  refine ⟨complete_compactedStore _, ?_⟩
  obtain ⟨warm, hwarm, hread⟩ : ∃ warm, load st (some (compactedMeta, 0)) = .ok warm ∧
      warm.docLastWalSeq.lookup "a" = some 2 ∧ (warm.docsForQuery true).lookup "a" = none :=
    ⟨_, rfl, by decide +kernel⟩
  obtain ⟨cold, hcold, hread'⟩ :
      ∃ cold, loadColdBatched st (some (compactedMeta, 0)) true = .ok cold ∧
        cold.docLastWalSeq.lookup "a" = some 1 ∧ (cold.docsForQuery true).lookup "a" = some attrs :=
    ⟨_, rfl, by decide +kernel⟩
  refine ⟨warm, cold, hwarm, hcold, hread, hread', fun hsame => ?_⟩
  have hlookup := congrArg (fun docs : DocMap => docs.lookup "a") hsame.2
  rw [hread.2, hread'.2] at hlookup
  cases hlookup

end OpenPuffer
