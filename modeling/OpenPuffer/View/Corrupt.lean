import OpenPuffer.Index.Delta
import OpenPuffer.View
import OpenPuffer.Wal.Format

/-!
# Segments that do not decode

The readers of the log, over segments that are bytes.  `replay_wal_range` and the batched cold
load ask for the corrupt policy, so under `skip` they replay the segments that decode.
`read_wal_entry` does not ask.  A load rebuilds the sequences of its documents with it, and
`catch_up` and an index pass read each segment with it.  So the policy reaches the batched cold
load only: each of the others succeeds exactly if all segments it walks over decode.
-/

namespace OpenPuffer

open List NamespaceView

/-- The WAL objects of a namespace. -/
structure RawStore where
  /-- `wal/{seq}`. -/
  wal : Nat → Option (List UInt8)
  /-- `wal/snapshot.bin`. -/
  snapshot : Option WalSnapshot

/-- What the decoders make of bytes. -/
def Segment.ofBytes (codec : WalCodec) (policy : WalCorruptPolicy) (seq : Nat)
    (bytes : List UInt8) : Segment where
  entry := (decodeSegment codec bytes (some seq)).mapError fun _ => "decode wal entry"
  replayed := decodeSegmentWithPolicy codec bytes seq policy

def RawStore.reader (codec : WalCodec) (policy : WalCorruptPolicy) (st : RawStore) : WalReader :=
  ⟨fun seq => (st.wal seq).map (.ofBytes codec policy seq), st.snapshot⟩

namespace WalReader

section Stream

variable (r : WalReader) (env : TextEnv) (schema : Json)

/-- The documents at the cursor are only fetched if an entry has patches. -/
def indexDeltaFromWalEntries (indexCursor : Nat) (entries : List WalEntry) :
    Except String (List Document × List String) :=
  if hasPatches entries then
    (docsAtIndexCursor r indexCursor).map fun docs =>
      collectIndexDelta env.order docs entries
  else .ok (entries.flatMap WalEntry.intoDocuments, entries.flatMap WalEntry.deletes)

/-- The loop of an index pass over `fromSeq..=toSeq`, at the segments still to
read. -/
def streamSegments (indexCursor fromSeq toSeq : Nat) (initial : Segments) :
    StreamState → List Nat → Except String StreamState
  | acc, [] => .ok acc
  | acc, seq :: rest =>
    match readWalEntry r seq with
    | .error msg => .error msg
    | .ok entry =>
      if entry.patches ≠ [] then do
        let entries ← replayWalEntries r fromSeq toSeq
        let (u, d) ← r.indexDeltaFromWalEntries env indexCursor entries
        pure { segs := initial.applyDelta env schema u d, upserts := u, deletes := d }
      else
        streamSegments indexCursor fromSeq toSeq initial
          { segs := acc.segs.applyDelta env schema entry.intoDocuments entry.deletes
            upserts := acc.upserts ++ entry.intoDocuments
            deletes := acc.deletes ++ entry.deletes }
          rest

def streamIndexDeltaFromWal (indexCursor fromSeq toSeq : Nat) (segs : Segments) :
    Except String StreamState :=
  r.streamSegments env schema indexCursor fromSeq toSeq segs { segs }
    (seqRange fromSeq toSeq)

end Stream

end WalReader

namespace RawStore

variable {codec : WalCodec} {policy : WalCorruptPolicy} {st : RawStore}

/-! ## Reading single segments -/

variable {seq first : Nat} {bytes : List UInt8} {segs : List (List UInt8)}

theorem readWalEntry_of_decoded {e : WalEntry} (hw : st.wal seq = some bytes)
    (hd : codec.decoded bytes = some e) : readWalEntry (st.reader codec policy) seq = .ok e := by
  simp only [readWalEntry, readWalSegment, reader, hw, Option.map_some, Segment.ofBytes,
    decodeSegment_of_decoded hd]
  rfl

theorem readWalEntry_of_corrupt (hw : st.wal seq = some bytes) (hd : codec.decoded bytes = none) :
    readWalEntry (st.reader codec policy) seq = .error "decode wal entry" := by
  obtain ⟨c, hc⟩ := decodeSegment_of_not_decoded hd (some seq)
  simp only [readWalEntry, readWalSegment, reader, hw, Option.map_some, Segment.ofBytes, hc]
  rfl

theorem replayWalSegment_skip (hw : st.wal seq = some bytes) (docs : DocMap) :
    replayWalSegment (st.reader codec .skip) docs seq
      = .ok ((codec.decoded bytes).toList.foldl applyEntry docs) := by
  simp only [replayWalSegment, readWalSegment, reader, hw, Option.map_some, Segment.ofBytes,
    decodeSegmentWithPolicy_skip]
  rfl

/-! ## Reading consecutive segments -/

/-- Segments at consecutive sequences. -/
abbrev Stored (wal : Nat → Option (List UInt8)) (first : Nat) (segs : List (List UInt8)) : Prop :=
  HoldsEntries wal first segs

def AllDecode (codec : WalCodec) (segs : List (List UInt8)) : Prop :=
  ∀ bytes ∈ segs, codec.decoded bytes ≠ none

theorem allDecode_cons {e : WalEntry} (hd : codec.decoded bytes = some e) :
    AllDecode codec (bytes :: segs) ↔ AllDecode codec segs := by
  rw [AllDecode, forall_mem_cons, hd]
  exact and_iff_right (Option.some_ne_none e)

theorem not_allDecode_cons (hd : codec.decoded bytes = none) :
    ¬ AllDecode codec (bytes :: segs) :=
  fun hall => hall bytes mem_cons_self hd

/-- The documents after the segments that decode. -/
def readable (codec : WalCodec) (docs : DocMap) (segs : List (List UInt8)) : DocMap :=
  (segs.filterMap codec.decoded).foldl applyEntry docs

theorem readable_nil (docs : DocMap) : readable codec docs [] = docs := rfl

theorem readable_cons (docs : DocMap) (bytes : List UInt8) (segs : List (List UInt8)) :
    readable codec docs (bytes :: segs)
      = readable codec ((codec.decoded bytes).toList.foldl applyEntry docs) segs := by
  unfold readable
  cases hd : codec.decoded bytes with
  | none => rw [filterMap_cons_none hd]; rfl
  | some e => rw [filterMap_cons_some hd]; rfl

theorem readable_append (docs : DocMap) (segs more : List (List UInt8)) :
    readable codec docs (segs ++ more) = readable codec (readable codec docs segs) more := by
  rw [readable, filterMap_append, foldl_append]
  rfl

/-- A replay with the policy skips the segments that do not decode. -/
theorem Stored.foldlM_replayWalSegment (h : Stored st.wal first segs) (docs : DocMap) :
    (List.range' first segs.length).foldlM (replayWalSegment (st.reader codec .skip)) docs
      = .ok (readable codec docs segs) := by
  induction segs generalizing first docs with
  | nil => rfl
  | cons bytes segs ih =>
    rw [length_cons, range'_succ, foldlM_cons, replayWalSegment_skip h.head,
      readable_cons]
    exact ih h.tail _

/-- A loop over `read_wal_entry` comes to its end exactly if all segments decode. -/
theorem Stored.foldlM_readWalEntry {β : Type} (f : β → Nat → WalEntry → β)
    (h : Stored st.wal first segs) (b : β) :
    (∃ r, (List.range' first segs.length).foldlM
        (fun b seq => (readWalEntry (st.reader codec policy) seq).map fun e => f b seq e) b
          = .ok r) ↔
      AllDecode codec segs := by
  induction segs generalizing first b with
  | nil => exact iff_of_true ⟨b, rfl⟩ (forall_mem_nil _)
  | cons bytes segs ih =>
    rw [length_cons, range'_succ, foldlM_cons]
    cases hd : codec.decoded bytes with
    | none =>
      rw [readWalEntry_of_corrupt h.head hd]
      exact iff_of_false (fun h => by cases h.choose_spec) (not_allDecode_cons hd)
    | some e =>
      rw [readWalEntry_of_decoded h.head hd, allDecode_cons hd]
      exact ih h.tail (f b first e)

theorem Stored.applySegments_iff (h : Stored st.wal first segs) (v v' : NamespaceView) :
    applySegments (st.reader codec policy) v (List.range' first segs.length) = (v', .ok ()) ↔
      AllDecode codec segs ∧ v.replayFrom first (segs.filterMap codec.decoded) = v' := by
  induction segs generalizing first v with
  | nil =>
    exact ⟨fun hv => ⟨forall_mem_nil _, congrArg Prod.fst hv⟩, fun hv => congrArg (·, _) hv.2⟩
  | cons bytes segs ih =>
    rw [length_cons, range'_succ, applySegments]
    cases hd : codec.decoded bytes with
    | none =>
      rw [readWalEntry_of_corrupt h.head hd]
      exact iff_of_false (fun h => by cases h) fun hall => not_allDecode_cons hd hall.1
    | some e =>
      rw [readWalEntry_of_decoded h.head hd, allDecode_cons hd, filterMap_cons_some hd]
      exact ih h.tail (v.record first e)

theorem Stored.mapM_readWalEntry_iff (h : Stored st.wal first segs) (entries : List WalEntry) :
    (List.range' first segs.length).mapM (readWalEntry (st.reader codec policy)) = .ok entries ↔
      AllDecode codec segs ∧ segs.filterMap codec.decoded = entries := by
  induction segs generalizing first entries with
  | nil => exact ⟨fun h => ⟨forall_mem_nil _, Except.ok.inj h⟩, fun h => congrArg Except.ok h.2⟩
  | cons bytes segs ih =>
    rw [length_cons, range'_succ, mapM_cons]
    cases hd : codec.decoded bytes with
    | none =>
      rw [readWalEntry_of_corrupt h.head hd]
      exact iff_of_false (fun h => by cases h) fun hall => not_allDecode_cons hd hall.1
    | some e =>
      rw [readWalEntry_of_decoded h.head hd, allDecode_cons hd, filterMap_cons_some hd]
      constructor
      · intro hread
        obtain ⟨rest, hrest, hcons⟩ := (bind_eq_ok (x := mapM _ _)).mp hread
        obtain ⟨hall, rfl⟩ := (ih h.tail rest).mp hrest
        exact ⟨hall, Except.ok.inj hcons⟩
      · rintro ⟨hall, rfl⟩
        exact (bind_eq_ok (x := mapM _ _)).mpr ⟨_, (ih h.tail _).mpr ⟨hall, rfl⟩, rfl⟩

/-- The segments as the readers see them. -/
theorem Stored.reader (h : Stored st.wal first segs) (codec : WalCodec)
    (policy : WalCorruptPolicy) : HoldsEntries (st.reader codec policy).wal first
      ((segs.zipIdx first).map fun p => .ofBytes codec policy p.2 p.1) := by
  intro i segment hsegment
  rw [getElem?_map, getElem?_zipIdx, Option.map_map] at hsegment
  obtain ⟨bytes, hbytes, rfl⟩ := Option.map_eq_some_iff.mp hsegment
  exact congrArg (Option.map _) (h i bytes hbytes)

/-- A cold load skips the segments that do not decode. -/
theorem foldlM_coldReplay_skip {segments : Nat → Option Segment}
    (h : HoldsEntries segments first
      ((segs.zipIdx first).map fun p => .ofBytes codec .skip p.2 p.1))
    (threshold : Nat) (acc : DocMap × HashMap String Nat) :
    ∃ map, (List.range' first segs.length).foldlM (coldReplay threshold segments) acc
      = .ok (readable codec acc.1 segs, map) := by
  induction segs generalizing first acc with
  | nil => exact ⟨acc.2, rfl⟩
  | cons bytes segs ih =>
    rw [length_cons, range'_succ, foldlM_cons, coldReplay, h.head, readable_cons]
    simp only [Segment.ofBytes, decodeSegmentWithPolicy_skip, bind, Except.bind, pure, Except.pure]
    cases codec.decoded bytes with
    | none => exact ih h.tail acc
    | some e => exact ih h.tail _

/-! ## Index passes -/

section Stream

variable {env : TextEnv} {schema : Json} {cursor first last : Nat} {initial : Segments}

variable {docs : DocMap} {segs : List (List UInt8)}

section

variable (hdocs : docsAtIndexCursor (st.reader codec policy) cursor = .ok docs)

include hdocs

theorem indexDeltaFromWalEntries_eq (entries : List WalEntry) :
    (st.reader codec policy).indexDeltaFromWalEntries env cursor entries
      = .ok (indexDeltaFromWalEntries env.order docs entries) := by
  rw [WalReader.indexDeltaFromWalEntries, indexDeltaFromWalEntries, hdocs]
  split <;> rfl

/-- A corrupt segment stops the loop, or the fetch of all segments at an entry
with patches before it. -/
theorem Stored.streamSegments_iff {whole : List (List UInt8)}
    (hread : ∀ all, replayWalEntries (st.reader codec policy) first last = .ok all ↔
      AllDecode codec whole ∧ whole.filterMap codec.decoded = all) {seq : Nat}
    (h : Stored st.wal seq segs) (hrest : AllDecode codec whole ↔ AllDecode codec segs)
    (acc r : StreamState) :
    (st.reader codec policy).streamSegments env schema cursor first last initial acc
        (List.range' seq segs.length) = .ok r ↔
      AllDecode codec segs ∧ streamEntries env schema docs initial
        (whole.filterMap codec.decoded) acc (segs.filterMap codec.decoded) = r := by
  induction segs generalizing seq acc with
  | nil => exact ⟨fun hr => ⟨forall_mem_nil _, Except.ok.inj hr⟩, fun hr => congrArg _ hr.2⟩
  | cons bytes segs ih =>
    rw [length_cons, range'_succ, WalReader.streamSegments]
    cases hd : codec.decoded bytes with
    | none =>
      rw [readWalEntry_of_corrupt h.head hd]
      exact iff_of_false (fun h => by cases h) fun hall => not_allDecode_cons hd hall.1
    | some e =>
      rw [allDecode_cons hd] at hrest
      rw [readWalEntry_of_decoded h.head hd, allDecode_cons hd, filterMap_cons_some hd,
        streamEntries]
      dsimp only
      split
      · rw [← hrest]
        constructor
        · intro hstream
          obtain ⟨all, hall, hstream⟩ := bind_eq_ok.mp hstream
          obtain ⟨hwhole, rfl⟩ := (hread all).mp hall
          rw [indexDeltaFromWalEntries_eq hdocs] at hstream
          exact ⟨hwhole, Except.ok.inj hstream⟩
        · rintro ⟨hwhole, rfl⟩
          refine bind_eq_ok.mpr ⟨_, (hread _).mpr ⟨hwhole, rfl⟩, ?_⟩
          rw [indexDeltaFromWalEntries_eq hdocs]
          rfl
      · exact ih h.tail hrest _

/-- A pass over stored segments succeeds exactly if they all decode, and then
streams their entries. -/
theorem Stored.streamIndexDelta_iff
    (hfirst : 1 ≤ first) (hlen : last + 1 - first = segs.length) (h : Stored st.wal first segs)
    (r : StreamState) :
    (st.reader codec policy).streamIndexDeltaFromWal env schema cursor first last initial = .ok r ↔
      AllDecode codec segs ∧
        streamIndexDeltaFromWal env schema docs initial
          (segs.filterMap codec.decoded) = r := by
  rw [WalReader.streamIndexDeltaFromWal, seqRange, hlen]
  rcases Nat.eq_zero_or_pos segs.length with hzero | hpos
  · obtain rfl := length_eq_zero_iff.mp hzero
    exact ⟨fun hr => ⟨forall_mem_nil _, Except.ok.inj hr⟩, fun hr => congrArg _ hr.2⟩
  · refine h.streamSegments_iff hdocs (fun all => ?_) .rfl _ r
    rw [replayWalEntries, if_neg (by omega), seqRange, hlen]
    exact h.mapM_readWalEntry_iff all

end

end Stream

/-! ## Stored namespaces -/

/-- A namespace with the documents `base` at its snapshot and the segments `segs`
after it.  The snapshot is the one that the metadata records. -/
structure Holds (st : RawStore) (m : NamespaceMeta) (base : DocMap) (segs : List (List UInt8)) :
    Prop where
  no_snapshot : m.walSnapshotSeq = 0 → st.snapshot = none ∧ base = ∅
  snapshot : 0 < m.walSnapshotSeq → st.snapshot = some ⟨m.walSnapshotSeq, base⟩
  segments : Stored st.wal (m.walSnapshotSeq + 1) segs
  commit : m.walCommitSeq = m.walSnapshotSeq + segs.length
  lt_max : m.walCommitSeq < u64Max

section Holds

variable {m : NamespaceMeta} {base : DocMap} {segs : List (List UInt8)}

variable {k n : Nat}

/-- The segments from the `k`-th after the snapshot to the `n`-th. -/
theorem Holds.stored (h : st.Holds m base segs) :
    Stored st.wal (m.walSnapshotSeq + k + 1) ((segs.take n).drop k) := by
  intro i bytes hb
  rw [getElem?_drop, getElem?_take] at hb
  split at hb
  · rw [show m.walSnapshotSeq + k + 1 + i = m.walSnapshotSeq + 1 + (k + i) by omega]
    exact h.segments _ _ hb
  · cases hb

theorem readable_take_drop (codec : WalCodec) (docs : DocMap) (segs : List (List UInt8))
    (h : k ≤ n) :
    readable codec (readable codec docs (segs.take k)) ((segs.take n).drop k)
      = readable codec docs (segs.take n) := by
  have hsplit := take_append_drop k (segs.take n)
  rw [take_take, Nat.min_eq_left h] at hsplit
  rw [← readable_append, hsplit]

section

variable (h : st.Holds m base segs)

include h

/-- Replay with the policy, from the documents at one sequence to those at a later
one. -/
theorem Holds.replayWalRange_skip (codec : WalCodec) (hk : k < n)
    (hn : n ≤ segs.length) :
    replayWalRange (st.reader codec .skip) (readable codec base (segs.take k))
        (m.walSnapshotSeq + k + 1) (m.walSnapshotSeq + n)
      = .ok (readable codec base (segs.take n)) := by
  have hlen : m.walSnapshotSeq + n + 1 - (m.walSnapshotSeq + k + 1)
      = ((segs.take n).drop k).length := by
    rw [length_drop, length_take]
    omega
  rw [replayWalRange, if_neg (by omega), seqRange, hlen, h.stored.foldlM_replayWalSegment,
    readable_take_drop codec base segs (Nat.le_of_lt hk)]

theorem Holds.loadBaseline_eq :
    loadBaseline (st.reader codec policy) m = (base, m.walSnapshotSeq) := by
  rcases Nat.eq_zero_or_pos m.walSnapshotSeq with hzero | hpos
  · rw [loadBaseline, if_neg (by omega), (h.no_snapshot hzero).2, hzero]
  · rw [loadBaseline, if_pos hpos]
    simp only [reader, h.snapshot hpos, if_true, WalSnapshot.intoDocs]

theorem Holds.loadDocs_skip :
    loadDocsAtWalCommit (st.reader codec .skip) m
      = .ok (readable codec base segs, m.walCommitSeq) := by
  have hmax := h.lt_max
  have hcommit := h.commit
  simp only [loadDocsAtWalCommit, h.loadBaseline_eq]
  rcases Nat.eq_zero_or_pos segs.length with hzero | hpos
  · rw [walReplayFrom_eq_none (by omega) (by omega), length_eq_zero_iff.mp hzero]
    rw [hzero] at hcommit
    rw [hcommit]
    rfl
  · have hreplay := h.replayWalRange_skip codec hpos (Nat.le_refl _)
    rw [take_zero, readable_nil, take_length, ← hcommit] at hreplay
    rw [walReplayFrom_eq_some (by omega) (by omega)]
    simp only [hreplay, Except.map]

/-- The sequences of a load are read without the policy. -/
theorem Holds.buildDocLastWalSeq_iff (docs : DocMap) :
    (∃ map, buildDocLastWalSeq (st.reader codec .skip) m docs = .ok map) ↔
      AllDecode codec segs := by
  have hmax := h.lt_max
  have hcommit := h.commit
  have hfirst := first_after_snapshot m.walSnapshotSeq (by omega)
  have hlen : m.walCommitSeq + 1 - (m.walSnapshotSeq + 1) = segs.length := by omega
  simp only [buildDocLastWalSeq, hfirst, seqRange, hlen]
  exact h.segments.foldlM_readWalEntry (fun map seq e => updateDocWalSeqMap map seq e) _

theorem Holds.load_iff (etag : Nat) :
    (∃ v, load (st.reader codec .skip) (some (m, etag)) = .ok v ∧
        v.docs = readable codec base segs) ↔
      AllDecode codec segs := by
  rw [← h.buildDocLastWalSeq_iff (readable codec base segs)]
  simp only [load, h.loadDocs_skip, bind, Except.bind]
  cases buildDocLastWalSeq (st.reader codec .skip) m (readable codec base segs) with
  | error msg =>
    exact iff_of_false (fun h => by cases h.choose_spec.1) fun h => by cases h.choose_spec
  | ok map => exact iff_of_true ⟨_, rfl, rfl⟩ ⟨map, rfl⟩

theorem Holds.coldSnapshot_ok (codec : WalCodec) :
    ∃ snapshot, coldSnapshot (st.reader codec .skip) m = .ok snapshot ∧
      (match snapshot with
        | some snap => (snap.intoDocs, snap.seq)
        | none => (∅, 0)) = (base, m.walSnapshotSeq) := by
  rcases Nat.eq_zero_or_pos m.walSnapshotSeq with hzero | hpos
  · refine ⟨none, by rw [coldSnapshot, if_neg (by omega)], ?_⟩
    rw [hzero, (h.no_snapshot hzero).2]
  · refine ⟨some ⟨m.walSnapshotSeq, base⟩, ?_, rfl⟩
    rw [coldSnapshot, if_pos hpos]
    simp only [reader, h.snapshot hpos]

theorem Holds.loadColdBatched_ok (codec : WalCodec) (etag : Nat) :
    ∃ v, loadColdBatched (st.reader codec .skip) (some (m, etag)) true = .ok v ∧
      v.docs = readable codec base segs := by
  have hmax := h.lt_max
  have hcommit := h.commit
  have hlen : segs.length = m.walCommitSeq - m.walSnapshotSeq := by omega
  obtain ⟨snapshot, hsnapshot, hstart⟩ := h.coldSnapshot_ok codec
  obtain ⟨segments, hsegments, hheld⟩ := (h.segments.reader codec .skip).coldSegments_eq
    (by omega) (by rw [length_map, length_zipIdx, hlen])
  obtain ⟨map, hmap⟩ := foldlM_coldReplay_skip hheld (max m.walSnapshotSeq m.walSnapshotSeq)
    (base, ∅)
  rw [loadColdBatched_eq_map etag hstart hsnapshot hsegments (by omega) hlen, hmap]
  exact ⟨_, rfl, rfl⟩

end

/-- A view that shows the namespace at an earlier sequence.  One from before the
snapshot is reloaded, so nothing is asked of its documents. -/
structure Earlier (codec : WalCodec) (m : NamespaceMeta) (base : DocMap)
    (segs : List (List UInt8)) (v : NamespaceView) : Prop where
  le_commit : v.lastAppliedWalSeq ≤ m.walCommitSeq
  docs : m.walSnapshotSeq ≤ v.lastAppliedWalSeq →
    v.docs = readable codec base (segs.take (v.lastAppliedWalSeq - m.walSnapshotSeq))

theorem Holds.catchUp_iff (h : st.Holds m base segs) {v : NamespaceView}
    (hv : Earlier codec m base segs v) (etag : Nat) :
    (∃ v' b, catchUp (st.reader codec .skip) (some (m, etag)) v = (v', .ok b) ∧
        v'.docs = readable codec base segs) ↔
      AllDecode codec (segs.drop (v.lastAppliedWalSeq - m.walSnapshotSeq)) := by
  have hmax := h.lt_max
  have hcommit := h.commit
  have hle := hv.le_commit
  simp only [catchUp]
  split
  · rename_i hdone
    have hall : segs.length ≤ v.lastAppliedWalSeq - m.walSnapshotSeq := by omega
    have hdocs := hv.docs (by omega)
    rw [take_of_length_le hall] at hdocs
    rw [drop_eq_nil_of_le hall]
    exact iff_of_true ⟨_, _, rfl, hdocs⟩ (forall_mem_nil _)
  · split
    · rename_i hold
      rw [Nat.sub_eq_zero_of_le (Nat.le_of_lt hold), drop_zero,
        ← h.buildDocLastWalSeq_iff (readable codec base segs), h.loadDocs_skip]
      dsimp only
      cases buildDocLastWalSeq (st.reader codec .skip) m (readable codec base segs) with
      | error msg =>
        refine iff_of_false ?_ fun h => by cases h.choose_spec
        rintro ⟨_, _, herr, -⟩
        cases herr
      | ok map => exact iff_of_true ⟨_, _, rfl, rfl⟩ ⟨map, rfl⟩
    · rename_i hnot hnew
      obtain ⟨k, hk⟩ : ∃ k, v.lastAppliedWalSeq = m.walSnapshotSeq + k :=
        Nat.exists_eq_add_of_le (by omega)
      have hstored := h.stored (k := k) (n := segs.length)
      have hdocs := hv.docs (by omega)
      rw [hk, Nat.add_sub_cancel_left] at hdocs ⊢
      rw [take_length] at hstored
      have hlen : m.walCommitSeq + 1 - (m.walSnapshotSeq + k + 1) = (segs.drop k).length := by
        rw [length_drop]
        omega
      rw [saturatingAdd_one_of_lt (by omega), seqRange, hlen]
      have happly (v' : NamespaceView) :
          applySegments (st.reader codec .skip) v _ = (v', .ok ()) ↔ _ :=
        hstored.applySegments_iff v v'
      cases hrun : applySegments (st.reader codec .skip) v (range' (m.walSnapshotSeq + k + 1)
          (segs.drop k).length) with
      | mk v₁ res =>
        rw [hrun] at happly
        cases res with
        | error msg =>
          refine iff_of_false ?_ fun hall => ?_
          · rintro ⟨_, _, hok, -⟩
            cases hok
          · cases (happly _).mpr ⟨hall, rfl⟩
        | ok _ =>
          obtain ⟨hall, rfl⟩ := (happly v₁).mp rfl
          refine iff_of_true ⟨_, _, rfl, ?_⟩ hall
          rw [docs_replayFrom, hdocs]
          have hreadable := readable_take_drop codec base segs (show k ≤ segs.length by omega)
          rw [take_length] at hreadable
          exact hreadable

theorem Holds.docsAtIndexCursor_skip (h : st.Holds m base segs) (codec : WalCodec)
    (hk : k ≤ segs.length) :
    docsAtIndexCursor (st.reader codec .skip) (m.walSnapshotSeq + k)
      = .ok (readable codec base (segs.take k)) := by
  have hmax := h.lt_max
  have hcommit := h.commit
  have hbase : m.walSnapshotSeq + k ≠ 0 →
      cursorBaseline (st.reader codec .skip).snapshot (m.walSnapshotSeq + k)
        = (base, m.walSnapshotSeq + 1) := by
    intro hpos
    rw [reader]
    rcases Nat.eq_zero_or_pos m.walSnapshotSeq with hzero | hsnap
    · rw [(h.no_snapshot hzero).1, (h.no_snapshot hzero).2, hzero]
      rfl
    · rw [h.snapshot hsnap, cursorBaseline, if_pos (Nat.le_add_right _ _),
        saturatingAdd_one_of_lt (show m.walSnapshotSeq < u64Max by omega)]
      rfl
  rw [docsAtIndexCursor]
  split
  · rename_i hzero
    obtain ⟨hs, rfl⟩ : m.walSnapshotSeq = 0 ∧ k = 0 := by omega
    rw [(h.no_snapshot hs).2]
    rfl
  · rename_i hpos
    rw [hbase hpos]
    dsimp only
    rcases Nat.eq_zero_or_pos k with rfl | hk0
    · rw [if_neg (by omega), take_zero, readable_nil]
    · have hreplay := h.replayWalRange_skip codec hk0 hk
      rw [take_zero, readable_nil] at hreplay
      rw [if_pos (by omega), hreplay]

theorem Holds.streamIndexDelta_iff (h : st.Holds m base segs) (env : TextEnv) (schema : Json)
    (hk : k ≤ n) (hn : n ≤ segs.length) {initial : Segments}
    (hinit : initial.Represent env schema (readable codec base (segs.take k))) :
    (∃ r, (st.reader codec .skip).streamIndexDeltaFromWal env schema (m.walSnapshotSeq + k)
          (m.walSnapshotSeq + k + 1) (m.walSnapshotSeq + n) initial = .ok r ∧
        r.segs.Represent env schema (readable codec base (segs.take n))) ↔
      AllDecode codec ((segs.take n).drop k) ∧
        ((∀ e ∈ ((segs.take n).drop k).filterMap codec.decoded, e.patches = []) ∨
          WritesSurvive (readable codec base (segs.take k))
            (((segs.take n).drop k).filterMap codec.decoded)) := by
  have hlen : m.walSnapshotSeq + n + 1 - (m.walSnapshotSeq + k + 1)
      = ((segs.take n).drop k).length := by
    rw [length_drop, length_take]
    omega
  have hdocs := h.docsAtIndexCursor_skip codec (hk.trans hn)
  have hstream : ∀ r, (st.reader codec .skip).streamIndexDeltaFromWal env schema
      (m.walSnapshotSeq + k) (m.walSnapshotSeq + k + 1) (m.walSnapshotSeq + n) initial
        = .ok r ↔ _ :=
    h.stored.streamIndexDelta_iff hdocs (by omega) hlen
  simp only [hstream, and_assoc, exists_and_left, exists_eq_left']
  rw [← readable_take_drop codec base segs hk]
  refine and_congr_right fun _ => ?_
  generalize ((segs.take n).drop k) = rest
  cases hp : hasPatches (rest.filterMap codec.decoded) with
  | false =>
    exact iff_of_true (represent_of_no_patches hinit hp)
      (.inl (hasPatches_eq_false_iff.mp hp))
  | true =>
    have hsome : ¬∀ e ∈ rest.filterMap codec.decoded, e.patches = [] := by
      rw [← hasPatches_eq_false_iff, hp]
      exact Bool.false_ne_true.symm
    rw [or_iff_right hsome]
    exact represent_iff_of_patches hinit hp

/-- Under the policy `skip` a batched cold load shows the segments that decode.
A load does so exactly if all segments after the snapshot decode, `catch_up` if
those after the view do.  An index pass needs that of the segments it covers, and
that its summary is right. -/
theorem skip_policy_reads_iff (h : st.Holds m base segs) (codec : WalCodec) (etag : Nat) :
    (∃ v, loadColdBatched (st.reader codec .skip) (some (m, etag)) true = .ok v ∧
      v.docs = readable codec base segs) ∧
    ((∃ v, load (st.reader codec .skip) (some (m, etag)) = .ok v ∧
        v.docs = readable codec base segs) ↔
      AllDecode codec segs) ∧
    (∀ v, Earlier codec m base segs v →
      ((∃ v' b, catchUp (st.reader codec .skip) (some (m, etag)) v = (v', .ok b) ∧
          v'.docs = readable codec base segs) ↔
        AllDecode codec (segs.drop (v.lastAppliedWalSeq - m.walSnapshotSeq)))) ∧
    (∀ env schema k n initial, k ≤ n → n ≤ segs.length →
      initial.Represent env schema (readable codec base (segs.take k)) →
      ((∃ r, (st.reader codec .skip).streamIndexDeltaFromWal env schema (m.walSnapshotSeq + k)
            (m.walSnapshotSeq + k + 1) (m.walSnapshotSeq + n) initial = .ok r ∧
          r.segs.Represent env schema (readable codec base (segs.take n))) ↔
        AllDecode codec ((segs.take n).drop k) ∧
          ((∀ e ∈ ((segs.take n).drop k).filterMap codec.decoded, e.patches = []) ∨
            WritesSurvive (readable codec base (segs.take k))
              (((segs.take n).drop k).filterMap codec.decoded)))) :=
  ⟨h.loadColdBatched_ok codec etag, h.load_iff etag, fun _ hv => h.catchUp_iff hv etag,
    fun env schema _ _ _ hk hn hinit => h.streamIndexDelta_iff env schema hk hn hinit⟩

end Holds

/-- A namespace without a snapshot. -/
def ofSegments (segs : List (List UInt8)) : RawStore where
  wal seq := if seq = 0 then none else segs[seq - 1]?
  snapshot := none

theorem holds_ofSegments (segs : List (List UInt8)) (h : segs.length < u64Max) :
    (ofSegments segs).Holds { NamespaceMeta.empty with walCommitSeq := segs.length } ∅ segs where
  no_snapshot := fun _ => ⟨rfl, rfl⟩
  snapshot := fun hpos => absurd hpos (Nat.lt_irrefl 0)
  segments := by
    intro i bytes hb
    have hseq : NamespaceMeta.empty.walSnapshotSeq + 1 + i = i + 1 := by
      rw [show NamespaceMeta.empty.walSnapshotSeq = 0 from rfl]
      omega
    simp only [ofSegments, hseq, Nat.add_one_ne_zero, if_false, Nat.add_sub_cancel, hb]
  commit := (Nat.zero_add _).symm
  lt_max := h

/-- Every payload holds the same row. -/
def rowCodec : WalCodec where
  deserialize := fun _ => .ok { upserts := [⟨"a", ∅⟩] }
  crc32 := fun _ => 0

/-- A truncated segment does not hide the one before it from a cold load. -/
theorem skip_policy_reads_truncated :
    ∃ v, loadColdBatched ((ofSegments [[2], []]).reader rowCodec .skip)
        (some ({ NamespaceMeta.empty with walCommitSeq := 2 }, 1)) true = .ok v ∧
      v.docs = (∅ : DocMap).insert "a" ∅ :=
  (skip_policy_reads_iff (holds_ofSegments [[2], []] (by decide)) rowCodec 1).1

/-- With an empty segment a load, `catch_up` of a new view and an index pass all
fail. -/
theorem truncated_segment_stops_reads :
    let st := ofSegments [[]]
    let m := { NamespaceMeta.empty with walCommitSeq := 1 }
    st.Holds m ∅ [[]] ∧
      load (st.reader rowCodec .skip) (some (m, 1)) = .error "decode wal entry" ∧
      (catchUp (st.reader rowCodec .skip) (some (m, 1)) .empty).2 = .error "decode wal entry" ∧
      (st.reader rowCodec .skip).streamIndexDeltaFromWal asciiEnv .null 0 1 1
          { fts := {}, filter := {} } = .error "decode wal entry" :=
  ⟨holds_ofSegments [[]] (by decide), rfl, rfl, rfl⟩

end RawStore

end OpenPuffer
