import OpenPuffer.Store

/-!
# Pinned namespace views

A process keeps a document map per namespace and advances it as the log grows: by a batch the
process committed itself (`applyCommitted`), by the segments since the last one (`catchUp`), and
by loads from scratch.  The functions that read `meta.json` take what was fetched as an argument,
since other processes may commit in between.

A view is current up to its sequence when the rest of the log brings it to the documents of the
whole log (`NamespaceView.Tracks`).
-/

namespace OpenPuffer

open List

structure NamespaceView where
  docs : DocMap
  metadata : NamespaceMeta
  metaEtag : Option Nat
  /-- Last WAL sequence applied into `docs`. -/
  lastAppliedWalSeq : Nat
  /-- Last WAL sequence that touched each document. -/
  docLastWalSeq : HashMap String Nat

namespace NamespaceView

def empty : NamespaceView := ⟨∅, .empty, none, 0, ∅⟩

end NamespaceView

/-- Deletes remove an id, upserts set it, patches set it if it is known. -/
def updateDocWalSeqMap (map : HashMap String Nat) (seq : Nat) (e : WalEntry) :
    HashMap String Nat :=
  let deleted := e.deletes.foldl (fun m id => m.erase id) map
  let upserted := e.intoDocuments.foldl (fun m d => m.insert d.id seq) deleted
  e.patches.foldl (fun m p => if p.id ∈ m then m.insert p.id seq else m) upserted

def buildDocLastWalSeq (r : WalReader) (m : NamespaceMeta) (seedDocs : DocMap) :
    Except String (HashMap String Nat) :=
  let seeded := if m.walSnapshotSeq > 0 then HashMap.constKeys seedDocs m.walSnapshotSeq else ∅
  let first := if m.walSnapshotSeq > 0 then saturatingAdd m.walSnapshotSeq 1 else 1
  (seqRange first m.walCommitSeq).foldlM
    (fun map seq => (readWalEntry r seq).map fun e => updateDocWalSeqMap map seq e) seeded

/-- First segment of a batched cold load. -/
def walCommitReplayFrom (m : NamespaceMeta) : Option Nat :=
  if m.walSnapshotSeq > 0 then walReplayFrom m.walSnapshotSeq m.walCommitSeq
  else if m.walCommitSeq > 0 then some 1
  else none

/-- The snapshot of a cold load, fetched if one is recorded. -/
def coldSnapshot (r : WalReader) (m : NamespaceMeta) : Except String (Option WalSnapshot) :=
  if m.walSnapshotSeq > 0 then
    match r.snapshot with
    | some snap => .ok (some snap)
    | none => .error "object not found: wal/snapshot.bin"
  else .ok none

/-- The segments of a cold load.  A missing one fails the round. -/
def coldSegments (r : WalReader) (m : NamespaceMeta) : Except String (Nat → Option Segment) :=
  match walCommitReplayFrom m with
  | none => .ok fun _ => none
  | some first =>
    let seqs := seqRange first m.walCommitSeq
    (seqs.mapM (readWalSegment r)).map fun _ seq => if seq ∈ seqs then r.wal seq else none

/-- One turn of the loop of a cold load. -/
def coldReplay (threshold : Nat) (segments : Nat → Option Segment)
    (acc : DocMap × HashMap String Nat) (seq : Nat) :
    Except String (DocMap × HashMap String Nat) :=
  match segments seq with
  | none => .ok acc
  | some segment => do
    match ← segment.replayed with
    | none => pure acc
    | some e =>
      pure (applyEntry acc.1 e,
        if seq > threshold then updateDocWalSeqMap acc.2 seq e else acc.2)

namespace NamespaceView

/-- Apply a committed batch locally, after a flush. -/
def applyCommitted (v : NamespaceView) (seq : Nat) (e : WalEntry) : NamespaceView where
  docs := applyEntry v.docs e
  metadata :=
    if seq > v.metadata.walCommitSeq then { v.metadata with walCommitSeq := seq } else v.metadata
  metaEtag := v.metaEtag
  lastAppliedWalSeq := seq
  docLastWalSeq := updateDocWalSeqMap v.docLastWalSeq seq e

/-- The loop of `catch_up`.  A segment that cannot be read leaves the view as far
as the loop came. -/
def applySegments (r : WalReader) : NamespaceView → List Nat → NamespaceView × Except String Unit
  | v, [] => (v, .ok ())
  | v, seq :: rest =>
    match readWalEntry r seq with
    | .error msg => (v, .error msg)
    | .ok e =>
      applySegments r
        { v with
          docs := applyEntry v.docs e
          docLastWalSeq := updateDocWalSeqMap v.docLastWalSeq seq e }
        rest

/-- Fetch new segments since `lastAppliedWalSeq`, for metadata just fetched. -/
def catchUp (r : WalReader) (fetched : MetaRead) (v : NamespaceView) :
    NamespaceView × Except String Bool :=
  match fetched with
  | none => (v, .ok false)
  | some (m, etag) =>
    if m.walCommitSeq ≤ v.lastAppliedWalSeq then
      ({ v with metadata := m, metaEtag := some etag }, .ok false)
    else if m.walSnapshotSeq > v.lastAppliedWalSeq then
      -- a compaction may have deleted segments up to the snapshot
      match loadDocsAtWalCommit r m with
      | .error msg => (v, .error msg)
      | .ok (docs, last) =>
        match buildDocLastWalSeq r m docs with
        | .error msg => ({ v with docs }, .error msg)
        | .ok map =>
          ({ docs, metadata := m, metaEtag := some etag, lastAppliedWalSeq := last,
             docLastWalSeq := map }, .ok true)
    else
      let first := saturatingAdd v.lastAppliedWalSeq 1
      match applySegments r v (seqRange first m.walCommitSeq) with
      | (v', .error msg) => (v', .error msg)
      | (v', .ok ()) =>
        ({ v' with metadata := m, metaEtag := some etag, lastAppliedWalSeq := m.walCommitSeq },
          .ok true)

/-- Cold load: full replay.  No `meta.json` is an empty namespace. -/
def load (r : WalReader) (fetched : MetaRead) : Except String NamespaceView :=
  match fetched with
  | none => .ok .empty
  | some (m, etag) => do
    let (docs, last) ← loadDocsAtWalCommit r m
    let map ← buildDocLastWalSeq r m docs
    pure
      { docs, metadata := m, metaEtag := some etag, lastAppliedWalSeq := last,
        docLastWalSeq := map }

/-- Cold load without disk cache.  With `includeWal` off only the metadata is
used, and the documents stay empty. -/
def loadColdBatched (r : WalReader) (fetched : MetaRead) (includeWal : Bool) :
    Except String NamespaceView :=
  match fetched with
  | none => .ok .empty
  | some (m, etag) =>
    if !includeWal then
      .ok { empty with metadata := m, metaEtag := some etag }
    else do
      let snapshot ← coldSnapshot r m
      let segments ← coldSegments r m
      let (docs, lastApplied) :=
        match snapshot with
        | some snap => (snap.intoDocs, snap.seq)
        | none => (∅, 0)
      let threshold := max lastApplied m.walSnapshotSeq
      let seqs :=
        match walReplayFrom lastApplied m.walCommitSeq with
        | some first => seqRange first m.walCommitSeq
        | none => []
      let (docs, map) ← seqs.foldlM (coldReplay threshold segments) (docs, ∅)
      let map :=
        if m.walSnapshotSeq > 0 then map ∪ HashMap.constKeys docs m.walSnapshotSeq else map
      pure
        { docs, metadata := m, metaEtag := some etag, lastAppliedWalSeq := m.walCommitSeq,
          docLastWalSeq := map }

/-- Apply the entry at a sequence: one turn of the loop of `catch_up`. -/
def record (v : NamespaceView) (seq : Nat) (e : WalEntry) : NamespaceView :=
  { v with docs := applyEntry v.docs e, docLastWalSeq := updateDocWalSeqMap v.docLastWalSeq seq e }

/-- Apply entries at consecutive sequences. -/
def replayFrom (v : NamespaceView) (first : Nat) : List WalEntry → NamespaceView
  | [] => v
  | e :: es => (v.record first e).replayFrom (first + 1) es

end NamespaceView

/-- The sequences that touched each document, after entries at consecutive
sequences. -/
def recordSeqs (map : HashMap String Nat) (first : Nat) : List WalEntry → HashMap String Nat
  | [] => map
  | e :: es => recordSeqs (updateDocWalSeqMap map first e) (first + 1) es

namespace NamespaceView

theorem docs_replayFrom (v : NamespaceView) (first : Nat) (es : List WalEntry) :
    (v.replayFrom first es).docs = es.foldl applyEntry v.docs := by
  induction es generalizing v first with
  | nil => rfl
  | cons e es ih =>
    rw [replayFrom, ih]
    rfl

theorem docLastWalSeq_replayFrom (v : NamespaceView) (first : Nat) (es : List WalEntry) :
    (v.replayFrom first es).docLastWalSeq = recordSeqs v.docLastWalSeq first es := by
  induction es generalizing v first with
  | nil => rfl
  | cons e es ih =>
    rw [replayFrom, ih]
    rfl

theorem lastAppliedWalSeq_replayFrom (v : NamespaceView) (first : Nat) (es : List WalEntry) :
    (v.replayFrom first es).lastAppliedWalSeq = v.lastAppliedWalSeq := by
  induction es generalizing v first with
  | nil => rfl
  | cons e es ih => exact ih _ _

/-! ## Tracking a log -/

/-- The rest of the log brings the view to the documents of the whole log. -/
def Tracks (v : NamespaceView) (log : List WalEntry) : Prop :=
  v.lastAppliedWalSeq ≤ log.length ∧
    (log.drop v.lastAppliedWalSeq).foldl applyEntry v.docs = replay log

variable {v : NamespaceView} {log : List WalEntry}

theorem Tracks.mono {log' : List WalEntry} (h : v.Tracks log) (hext : log <+: log') :
    v.Tracks log' := by
  obtain ⟨more, rfl⟩ := hext
  obtain ⟨hle, hdocs⟩ := h
  refine ⟨by rw [length_append]; omega, ?_⟩
  rw [drop_append_of_le_length hle, foldl_append, hdocs, ← replay_append]

/-- A view that shows the log up to `d`, and only claims to show it up to `c`. -/
theorem tracks_of_take {d : Nat} (hdocs : v.docs = replay (log.take d))
    (hle : v.lastAppliedWalSeq ≤ d) (hd : d ≤ log.length) : v.Tracks log := by
  refine ⟨by omega, ?_⟩
  have hsplit : log.take v.lastAppliedWalSeq ++ (log.take d).drop v.lastAppliedWalSeq
      = log.take d := by
    rw [drop_take, ← take_add, Nat.add_sub_of_le hle]
  have hrest : (log.take d).drop v.lastAppliedWalSeq ++ log.drop d
      = log.drop v.lastAppliedWalSeq := by
    rw [← drop_append_of_le_length (by rw [length_take]; omega), take_append_drop]
  have hcatch := foldl_applyEntry_catch_up v.docs (log.take v.lastAppliedWalSeq)
    ((log.take d).drop v.lastAppliedWalSeq) (log.drop d)
    (by rw [hsplit, hdocs, ← replay_append, take_append_drop])
  rw [hsplit, take_append_drop, hrest] at hcatch
  exact hcatch

/-- A view that is up to date shows the log. -/
theorem Tracks.docs_eq (h : v.Tracks log) (hle : log.length ≤ v.lastAppliedWalSeq) :
    v.docs = replay log := by
  have hdocs := h.2
  rw [drop_eq_nil_of_le hle] at hdocs
  exact hdocs

/-- Applying a committed batch keeps the view on the log, as long as it does not
skip a sequence.  An old batch only moves the view back. -/
theorem Tracks.applyCommitted {seq : Nat} {e : WalEntry} (h : v.Tracks log)
    (hentry : entryAt log seq = some e ∨ (seq = 0 ∧ e = {}))
    (hgap : seq ≤ v.lastAppliedWalSeq + 1) : (v.applyCommitted seq e).Tracks log := by
  obtain ⟨hle, hdocs⟩ := h
  have hback : ∀ k, k ≤ v.lastAppliedWalSeq →
      (log.drop k).foldl applyEntry v.docs = replay log := by
    intro k hk
    have hrest : (log.drop k).take (v.lastAppliedWalSeq - k) ++ log.drop v.lastAppliedWalSeq
        = log.drop k := by
      have hdrop : log.drop v.lastAppliedWalSeq = (log.drop k).drop (v.lastAppliedWalSeq - k) := by
        rw [List.drop_drop, Nat.add_sub_of_le hk]
      rw [hdrop, List.take_append_drop]
    have hcatch := foldl_applyEntry_catch_up v.docs (log.take k)
      ((log.drop k).take (v.lastAppliedWalSeq - k)) (log.drop v.lastAppliedWalSeq)
      (by rw [List.append_assoc, hrest, List.take_append_drop, hdocs])
    rw [List.append_assoc, hrest, List.take_append_drop] at hcatch
    exact hcatch
  rcases hentry with hsome | ⟨rfl, rfl⟩
  · cases seq with
    | zero => cases hsome
    | succ k =>
      rw [entryAt_succ] at hsome
      obtain ⟨hk, hek⟩ := List.getElem?_eq_some_iff.mp hsome
      refine ⟨hk, ?_⟩
      have hstep := hback k (by omega)
      rw [List.drop_eq_getElem_cons hk, hek] at hstep
      exact hstep
  · exact ⟨Nat.zero_le _, hback 0 (Nat.zero_le _)⟩

end NamespaceView

/-! ## Reading from a store that holds the log -/

/-- Every segment of the log is present, and the snapshot is one of the log. -/
structure Store.Holds (st : Store) (log : List WalEntry) : Prop where
  segment : ∀ seq, 1 ≤ seq → seq ≤ log.length → st.wal seq = entryAt log seq
  snapshot_le : ∀ snap ∈ st.snapshot, snap.seq ≤ log.length
  snapshot_docs : ∀ snap ∈ st.snapshot, snap.docs = replay (log.take snap.seq)
  lt_max : log.length < u64Max

variable {st : Store} {log es : List WalEntry} {m : NamespaceMeta} {first : Nat}

theorem Store.Holds.entries (h : st.Holds log) (w : Nat) {n : Nat} (hn : n ≤ log.length) :
    HoldsEntries st.wal (w + 1) ((log.take n).drop w) :=
  .of_log fun seq h1 h2 => h.segment seq (by omega) (by omega)

theorem Store.Holds.loadDocs_eq (h : st.Holds log) (hlen : m.walCommitSeq ≤ log.length)
    (hsnap : m.walSnapshotSeq ≤ m.walCommitSeq) :
    loadDocsAtWalCommit st m = .ok (replay (log.take m.walCommitSeq), m.walCommitSeq) := by
  have hmax := h.lt_max
  have hheld : ∀ w seq, w < seq → seq ≤ m.walCommitSeq → st.wal seq = entryAt log seq :=
    fun w seq h1 h2 => h.segment seq (by omega) (by omega)
  rcases loadBaseline_cases h.snapshot_docs m with ⟨snap, -, hseq, hbase⟩ | hbase
  · exact loadDocsAtWalCommit_eq hbase (by omega) (by omega) hlen (hheld _)
  · exact loadDocsAtWalCommit_eq hbase (by decide) (Nat.zero_le _) hlen (hheld _)

theorem slice_eq_drop_take (log : List WalEntry) (w n : Nat) :
    slice log (w + 1) (n - w) = (log.take n).drop w := by
  rw [slice, Nat.add_sub_cancel, drop_take]

/-- The sequences of a load: those after the snapshot are read off the log, the
other documents get that of the snapshot. -/
def loadedSeqs (log : List WalEntry) (m : NamespaceMeta) : HashMap String Nat :=
  let docs := replay (log.take m.walCommitSeq)
  recordSeqs (if m.walSnapshotSeq > 0 then HashMap.constKeys docs m.walSnapshotSeq else ∅)
    (m.walSnapshotSeq + 1) ((log.take m.walCommitSeq).drop m.walSnapshotSeq)

theorem foldl_updateDocWalSeqMap_zipIdx (es : List WalEntry) (first : Nat)
    (map : HashMap String Nat) :
    (es.zipIdx first).foldl (fun mp p => updateDocWalSeqMap mp p.2 p.1) map
      = recordSeqs map first es := by
  induction es generalizing first map with
  | nil => rfl
  | cons e es ih => exact ih (first + 1) (updateDocWalSeqMap map first e)

/-- The first segment after the snapshot, or the first one of all. -/
theorem first_after_snapshot (seq : Nat) (hmax : seq < u64Max) :
    (if seq > 0 then saturatingAdd seq 1 else 1) = seq + 1 := by
  split
  · exact saturatingAdd_one_of_lt hmax
  · omega

/-- The sequences of a load are read off the segments after the snapshot. -/
theorem HoldsEntries.buildDocLastWalSeq_eq (h : HoldsEntries st.wal (m.walSnapshotSeq + 1) es)
    (hmax : m.walSnapshotSeq < u64Max) (hlen : es.length = m.walCommitSeq - m.walSnapshotSeq)
    (docs : DocMap) :
    buildDocLastWalSeq st m docs
      = .ok (recordSeqs
          (if m.walSnapshotSeq > 0 then HashMap.constKeys docs m.walSnapshotSeq else ∅)
          (m.walSnapshotSeq + 1) es) := by
  have hrange : m.walCommitSeq + 1 - (m.walSnapshotSeq + 1) = es.length := by omega
  simp only [buildDocLastWalSeq, first_after_snapshot _ hmax, seqRange, hrange]
  rw [← foldl_updateDocWalSeqMap_zipIdx]
  exact h.foldlM_readWalEntry (fun mp seq e => updateDocWalSeqMap mp seq e) _

theorem Store.Holds.buildDocLastWalSeq_eq (h : st.Holds log) (hlen : m.walCommitSeq ≤ log.length)
    (hsnap : m.walSnapshotSeq ≤ m.walCommitSeq) :
    buildDocLastWalSeq st m (replay (log.take m.walCommitSeq)) = .ok (loadedSeqs log m) := by
  have hmax := h.lt_max
  exact (h.entries _ hlen).buildDocLastWalSeq_eq (by omega) (length_entries _ hlen) _

theorem HoldsEntries.applySegments_eq (h : HoldsEntries st.wal first es) (v : NamespaceView) :
    NamespaceView.applySegments st v (List.range' first es.length)
      = (v.replayFrom first es, .ok ()) := by
  induction es generalizing first v with
  | nil => rfl
  | cons e es ih =>
    rw [length_cons, range'_succ, NamespaceView.applySegments,
      readWalEntry_eq_ok.mpr h.head]
    exact ih h.tail (v.record first e)

theorem take_length_of_extends {log₀ : List WalEntry} (hpre : log₀ <+: log) :
    log.take log₀.length = log₀ := by
  obtain ⟨more, rfl⟩ := hpre
  exact take_left

/-- What `catch_up` does on a store that holds the log. -/
theorem Store.Holds.catchUp_ite (h : st.Holds log) {etag : Nat} (v : NamespaceView)
    (hlen : m.walCommitSeq ≤ log.length) (hsnap : m.walSnapshotSeq ≤ m.walCommitSeq) :
    NamespaceView.catchUp st (some (m, etag)) v
      = if m.walCommitSeq ≤ v.lastAppliedWalSeq then
          ({ v with metadata := m, metaEtag := some etag }, .ok false)
        else if m.walSnapshotSeq > v.lastAppliedWalSeq then
          (⟨replay (log.take m.walCommitSeq), m, some etag, m.walCommitSeq, loadedSeqs log m⟩,
            .ok true)
        else
          ({ v.replayFrom (v.lastAppliedWalSeq + 1)
              ((log.take m.walCommitSeq).drop v.lastAppliedWalSeq) with
             metadata := m, metaEtag := some etag, lastAppliedWalSeq := m.walCommitSeq },
            .ok true) := by
  have hmax := h.lt_max
  simp only [NamespaceView.catchUp]
  split
  · rfl
  · split
    · rw [h.loadDocs_eq hlen hsnap]
      simp only [h.buildDocLastWalSeq_eq hlen hsnap]
    · have hrest : m.walCommitSeq + 1 - (v.lastAppliedWalSeq + 1)
          = ((log.take m.walCommitSeq).drop v.lastAppliedWalSeq).length := by
        rw [length_entries _ hlen, Nat.add_sub_add_right]
      rw [saturatingAdd_one_of_lt (by omega), seqRange, hrest,
        (h.entries _ hlen).applySegments_eq]

/-- `catch_up` brings a tracking view to the commit point it fetched. -/
theorem Store.Holds.catchUp_eq {log₀ : List WalEntry} (h : st.Holds log) (hpre : log₀ <+: log)
    {etag : Nat} {v : NamespaceView} (hcommit : m.walCommitSeq = log₀.length)
    (hsnap : m.walSnapshotSeq ≤ m.walCommitSeq) (ht : v.Tracks log₀) :
    ∃ v' b, NamespaceView.catchUp st (some (m, etag)) v = (v', .ok b) ∧
      v'.docs = replay log₀ ∧ v'.lastAppliedWalSeq = log₀.length := by
  have hlen : m.walCommitSeq ≤ log.length := hcommit ▸ hpre.length_le
  have hlast := ht.1
  have htake : log.take m.walCommitSeq = log₀ := by rw [hcommit, take_length_of_extends hpre]
  rw [h.catchUp_ite v hlen hsnap, htake]
  split
  · exact ⟨_, _, rfl, ht.docs_eq (by omega), by dsimp only; omega⟩
  · split
    · exact ⟨_, _, rfl, rfl, hcommit⟩
    · refine ⟨_, _, rfl, ?_, hcommit⟩
      rw [NamespaceView.docs_replayFrom]
      exact ht.2

/-- What a load yields from a baseline at the recorded snapshot. -/
theorem load_of_baseline {base : DocMap} (etag : Nat)
    (hbase : loadBaseline st m = (base, m.walSnapshotSeq))
    (hheld : HoldsEntries st.wal (m.walSnapshotSeq + 1) es)
    (hlen : es.length = m.walCommitSeq - m.walSnapshotSeq) (hmax : m.walSnapshotSeq < u64Max) :
    NamespaceView.load st (some (m, etag))
      = .ok ⟨es.foldl applyEntry base, m, some etag, max m.walSnapshotSeq m.walCommitSeq,
          recordSeqs (if m.walSnapshotSeq > 0 then
              HashMap.constKeys (es.foldl applyEntry base) m.walSnapshotSeq else ∅)
            (m.walSnapshotSeq + 1) es⟩ := by
  simp only [NamespaceView.load, loadDocsAtWalCommit_of_baseline hbase hmax hheld hlen, bind,
    Except.bind, hheld.buildDocLastWalSeq_eq hmax hlen, pure, Except.pure]

theorem Store.Holds.load_eq (h : st.Holds log) (etag : Nat) (hlen : m.walCommitSeq ≤ log.length)
    (hsnap : m.walSnapshotSeq ≤ m.walCommitSeq) :
    NamespaceView.load st (some (m, etag))
      = .ok ⟨replay (log.take m.walCommitSeq), m, some etag, m.walCommitSeq, loadedSeqs log m⟩ := by
  simp only [NamespaceView.load, h.loadDocs_eq hlen hsnap, bind, Except.bind,
    h.buildDocLastWalSeq_eq hlen hsnap, pure, Except.pure]

/-! ## The batched cold load -/

theorem HoldsEntries.mapM_readWalSegment {r : WalReader} {segs : List Segment}
    (h : HoldsEntries r.wal first segs) :
    (List.range' first segs.length).mapM (readWalSegment r) = .ok segs := by
  induction segs generalizing first with
  | nil => rfl
  | cons segment segs ih =>
    rw [length_cons, range'_succ, mapM_cons]
    simp only [readWalSegment, h.head, ih h.tail, bind, Except.bind, pure, Except.pure]

/-- A cold load records every segment, since all are newer than its snapshot. -/
theorem HoldsEntries.foldlM_coldReplay {segments : Nat → Option Segment} {threshold : Nat}
    (h : HoldsEntries segments first (es.map .of)) (hnew : threshold < first)
    (acc : DocMap × HashMap String Nat) :
    (List.range' first es.length).foldlM (coldReplay threshold segments) acc
      = .ok (es.foldl applyEntry acc.1, recordSeqs acc.2 first es) := by
  induction es generalizing first acc with
  | nil => rfl
  | cons e es ih =>
    rw [length_cons, range'_succ, foldlM_cons, coldReplay, h.head]
    simp only [Segment.of, if_pos hnew, bind, Except.bind, pure, Except.pure]
    exact ih h.tail (Nat.lt_succ_of_lt hnew) _

/-- A cold load replays the segments after the snapshot that it starts from. -/
theorem coldReplay_seqs {w n : Nat} (hmax : w < u64Max) (hlen : n = m.walCommitSeq - w) :
    (match walReplayFrom w m.walCommitSeq with
      | some first => seqRange first m.walCommitSeq
      | none => []) = List.range' (w + 1) n := by
  rcases Nat.lt_or_ge w m.walCommitSeq with hlt | hge
  · rw [walReplayFrom_eq_some hmax hlt]
    simp only [seqRange, hlen, Nat.add_sub_add_right]
  · rw [walReplayFrom_eq_none hmax hge, hlen, Nat.sub_eq_zero_of_le hge]
    rfl

/-- The recorded snapshot is stored, or a newer one. -/
def Store.Records (st : Store) (m : NamespaceMeta) : Prop :=
  0 < m.walSnapshotSeq → ∃ snap ∈ st.snapshot, m.walSnapshotSeq ≤ snap.seq

/-- The sequence that a cold load starts from: that of the stored snapshot, if
the metadata records one. -/
def Store.coldBase (st : Store) (m : NamespaceMeta) : Nat :=
  if 0 < m.walSnapshotSeq then (st.snapshot.map WalSnapshot.seq).getD 0 else 0

theorem Store.Records.le_coldBase (h : st.Records m) : m.walSnapshotSeq ≤ st.coldBase m := by
  unfold Store.coldBase
  split
  · rename_i hpos
    obtain ⟨snap, hmem, hle⟩ := h hpos
    have hstored : st.snapshot = some snap := hmem
    rw [hstored]
    exact hle
  · omega

theorem Store.Holds.coldBase_le (h : st.Holds log) (m : NamespaceMeta) :
    st.coldBase m ≤ log.length := by
  unfold Store.coldBase
  split
  · cases hs : st.snapshot with
    | none => exact Nat.zero_le _
    | some snap => exact h.snapshot_le snap hs
  · exact Nat.zero_le _

/-- The documents and the sequence that a cold load starts from. -/
theorem Store.Holds.coldSnapshot_eq (h : st.Holds log) (hrec : st.Records m) :
    ∃ snapshot, coldSnapshot st m = .ok snapshot ∧
      (match snapshot with
        | some snap => (snap.intoDocs, snap.seq)
        | none => (∅, 0)) = (replay (log.take (st.coldBase m)), st.coldBase m) := by
  rcases Nat.eq_zero_or_pos m.walSnapshotSeq with hzero | hpos
  · have hnot : ¬ 0 < m.walSnapshotSeq := by omega
    refine ⟨none, by rw [coldSnapshot, if_neg hnot], ?_⟩
    rw [Store.coldBase, if_neg hnot]
    rfl
  · obtain ⟨snap, hmem, -⟩ := hrec hpos
    have hstored : st.snapshot = some snap := hmem
    refine ⟨some snap, by rw [coldSnapshot, if_pos hpos, st.reader_snapshot, hstored], ?_⟩
    rw [Store.coldBase, if_pos hpos, hstored]
    simp only [WalSnapshot.intoDocs, h.snapshot_docs snap hmem, Option.map_some, Option.getD_some]

/-- A cold fetch of something starts after the recorded snapshot. -/
theorem walCommitReplayFrom_eq (hmax : m.walSnapshotSeq < u64Max)
    (h : m.walSnapshotSeq < m.walCommitSeq) :
    walCommitReplayFrom m = some (m.walSnapshotSeq + 1) := by
  unfold walCommitReplayFrom
  split
  · exact walReplayFrom_eq_some hmax h
  · rw [if_pos (by omega)]
    congr 1
    omega

/-- A cold fetch returns the segments after the recorded snapshot. -/
theorem HoldsEntries.coldSegments_eq {r : WalReader} {segs : List Segment}
    (h : HoldsEntries r.wal (m.walSnapshotSeq + 1) segs)
    (hmax : m.walSnapshotSeq < u64Max) (hlen : segs.length = m.walCommitSeq - m.walSnapshotSeq) :
    ∃ segments, coldSegments r m = .ok segments ∧
      HoldsEntries segments (m.walSnapshotSeq + 1) segs := by
  rcases Nat.lt_or_ge m.walSnapshotSeq m.walCommitSeq with hlt | hge
  · have hrange : seqRange (m.walSnapshotSeq + 1) m.walCommitSeq
        = List.range' (m.walSnapshotSeq + 1) segs.length := by
      rw [seqRange, hlen, Nat.add_sub_add_right]
    refine ⟨fun seq => if seq ∈ seqRange (m.walSnapshotSeq + 1) m.walCommitSeq then r.wal seq
      else none, ?_, ?_⟩
    · rw [coldSegments, walCommitReplayFrom_eq hmax hlt]
      simp only [hrange, h.mapM_readWalSegment, Except.map]
    · intro i segment hsegment
      have hi := (List.getElem?_eq_some_iff.mp hsegment).1
      dsimp only
      rw [if_pos (mem_seqRange.mpr (by omega))]
      exact h i segment hsegment
  · have hfrom : walCommitReplayFrom m = none := by
      unfold walCommitReplayFrom
      split
      · exact walReplayFrom_eq_none hmax hge
      · rw [if_neg (by omega)]
    refine ⟨fun _ => none, by rw [coldSegments, hfrom], ?_⟩
    rw [List.length_eq_zero_iff.mp (show segs.length = 0 by omega)]
    exact fun _ _ h => by cases h

/-- The sequences of a cold load from `base`: those of the segments it replays,
and that of the snapshot for the documents that no segment recorded. -/
def coldSeqs (log : List WalEntry) (m : NamespaceMeta) (base : Nat) : HashMap String Nat :=
  let map := recordSeqs ∅ (base + 1) ((log.take m.walCommitSeq).drop base)
  if m.walSnapshotSeq > 0 then
    map ∪ HashMap.constKeys (replay (log.take (max base m.walCommitSeq))) m.walSnapshotSeq
  else map

/-- A batched cold load is a loop over the segments after its snapshot. -/
theorem loadColdBatched_eq_map {r : WalReader} {base : DocMap} {w n : Nat}
    {snapshot : Option WalSnapshot} {segments : Nat → Option Segment} (etag : Nat)
    (hstart : (match snapshot with
      | some snap => (snap.intoDocs, snap.seq)
      | none => (∅, 0)) = (base, w)) (hsnapshot : coldSnapshot r m = .ok snapshot)
    (hsegments : coldSegments r m = .ok segments) (hmax : w < u64Max)
    (hlen : n = m.walCommitSeq - w) :
    NamespaceView.loadColdBatched r (some (m, etag)) true
      = ((List.range' (w + 1) n).foldlM (coldReplay (max w m.walSnapshotSeq) segments)
          (base, ∅)).map fun read => ⟨read.1, m, some etag, m.walCommitSeq,
            if m.walSnapshotSeq > 0 then read.2 ∪ HashMap.constKeys read.1 m.walSnapshotSeq
            else read.2⟩ := by
  simp only [NamespaceView.loadColdBatched, hsnapshot, hsegments, bind, Except.bind, pure,
    Except.pure, Bool.not_true, Bool.false_eq_true, if_false, hstart, coldReplay_seqs hmax hlen]
  rfl

/-- What a batched cold load yields from a snapshot and the entries after it. -/
theorem loadColdBatched_of_snapshot {base : DocMap} {w : Nat} {snapshot : Option WalSnapshot}
    {segments : Nat → Option Segment} (etag : Nat) (hstart : (match snapshot with
      | some snap => (snap.intoDocs, snap.seq)
      | none => (∅, 0)) = (base, w)) (hsnapshot : coldSnapshot st m = .ok snapshot)
    (hsegments : coldSegments st m = .ok segments)
    (hheld : HoldsEntries segments (w + 1) (es.map .of))
    (hlen : es.length = m.walCommitSeq - w) (hmax : w < u64Max) (hle : m.walSnapshotSeq ≤ w) :
    NamespaceView.loadColdBatched st (some (m, etag)) true
      = .ok ⟨es.foldl applyEntry base, m, some etag, m.walCommitSeq,
          if m.walSnapshotSeq > 0 then
            recordSeqs ∅ (w + 1) es ∪
              HashMap.constKeys (es.foldl applyEntry base) m.walSnapshotSeq
          else recordSeqs ∅ (w + 1) es⟩ := by
  rw [loadColdBatched_eq_map etag hstart hsnapshot hsegments hmax hlen,
    hheld.foldlM_coldReplay (by omega)]
  rfl

/-- A batched cold load shows the log up to the metadata, or up to the stored
snapshot if that is newer. -/
theorem Store.Holds.loadColdBatched_eq (h : st.Holds log) (etag : Nat)
    (hlen : m.walCommitSeq ≤ log.length) (hrec : st.Records m) :
    NamespaceView.loadColdBatched st (some (m, etag)) true
      = .ok ⟨replay (log.take (max (st.coldBase m) m.walCommitSeq)), m, some etag, m.walCommitSeq,
          coldSeqs log m (st.coldBase m)⟩ := by
  have hmax := h.lt_max
  have hle := hrec.le_coldBase
  have hbase := h.coldBase_le m
  obtain ⟨snapshot, hsnapshot, hstart⟩ := h.coldSnapshot_eq hrec
  obtain ⟨segments, hseg, hheld⟩ := (h.entries _ hlen).reader.coldSegments_eq (by omega)
    ((length_map _).trans (length_entries _ hlen))
  generalize st.coldBase m = base at hle hbase hstart ⊢
  have hrest := hheld.drop (base - m.walSnapshotSeq)
  rw [← map_drop, drop_drop, Nat.add_right_comm, Nat.add_sub_of_le hle] at hrest
  have hdocs : ((log.take m.walCommitSeq).drop base).foldl applyEntry (replay (log.take base))
      = replay (log.take (max base m.walCommitSeq)) := by
    rcases Nat.le_total base m.walCommitSeq with hbc | hcb
    · rw [replay_take_drop log hbc, Nat.max_eq_right hbc]
    · rw [drop_eq_nil_of_le (by rw [length_take]; omega), Nat.max_eq_left hcb]
      rfl
  rw [loadColdBatched_of_snapshot etag hstart hsnapshot hseg hrest (length_entries _ hlen)
    (by omega) hle, hdocs]
  rfl

end OpenPuffer
