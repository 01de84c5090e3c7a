import OpenPuffer.Meta
import OpenPuffer.Wal
import OpenPuffer.Lib.Cell

/-!
# The objects of one namespace

A namespace is three kinds of objects: `meta.json`, which is written under a condition on its
tag, the WAL segments `wal/{seq}`, and `wal/snapshot.bin`.  Here are the store, the way a failed
GET of `meta.json` is read, and the functions that rebuild the documents.  WAL objects are kept
decoded.
-/

namespace OpenPuffer

open List

/-- The objects of a namespace. -/
structure Store where
  /-- `meta.json` and its tag. -/
  metaJson : Cell NamespaceMeta
  /-- `wal/{seq}`. -/
  wal : Nat → Option WalEntry
  /-- `wal/snapshot.bin`. -/
  snapshot : Option WalSnapshot

/-- A read of `meta.json`: nothing, or a version and its tag. -/
abbrev MetaRead := Option (NamespaceMeta × Nat)

/-- What a writer works on: an absent object is the default metadata. -/
def MetaRead.metaOrDefault : MetaRead → NamespaceMeta
  | none => .empty
  | some (m, _) => m

/-- The stored `wal_commit_seq`, `0` for an absent namespace. -/
def Store.commitSeq (st : Store) : Nat := (MetaRead.metaOrDefault st.metaJson.current).walCommitSeq

/-! ## Object keys -/

def rootDir : String := "openpuffer/"

def metaKey (ns : String) : String := rootDir ++ ns ++ "/meta.json"

def snapshotKey (ns : String) : String := rootDir ++ ns ++ "/wal/snapshot.bin"

/-! ## Reading `meta.json` -/

/-- What a failed request says about itself. -/
structure ServiceError where
  isNoSuchKey : Bool := false
  code : Option String := none
  message : String := ""
deriving DecidableEq, Repr

/-- The reply to a GET of a missing object. -/
def ServiceError.noSuchKey : ServiceError where
  isNoSuchKey := true
  code := some "NoSuchKey"
  message := "NoSuchKey"

/-- The reply to a conditional PUT whose condition does not hold. -/
def ServiceError.preconditionFailed : ServiceError where
  code := some "PreconditionFailed"
  message := "PreconditionFailed"

/-- `get_meta_json`: some errors are read as an absent object.  For
`meta.json` that includes every error whose text mentions an unhandled error. -/
def getMetaJson (key : String) (reply : Except ServiceError (NamespaceMeta × Nat)) :
    Except String MetaRead :=
  match reply with
  | .ok found => .ok (some found)
  | .error e =>
    if e.isNoSuchKey || e.code = some "NoSuchKey" || e.code = some "NotFound" then .ok none
    else if e.code = some "NoSuchBucket" then .error "S3 bucket not found"
    else
      let msg := e.message
      if "/meta.json".toList <:+ key.toList ∧
          (contains msg.toList "unhandled error" ∨ contains msg.toList "NotFound") then
        .ok none
      else .error s!"get object {key}: {msg}"

/-- The reply of a store that answers truthfully. -/
def Store.getMeta (st : Store) : Except ServiceError (NamespaceMeta × Nat) :=
  match st.metaJson.current with
  | some found => .ok found
  | none => .error .noSuchKey

theorem getMetaJson_getMeta (key : String) (st : Store) :
    getMetaJson key st.getMeta = .ok st.metaJson.current := by
  unfold Store.getMeta
  cases h : st.metaJson.current with
  | none => rfl
  | some found => rfl

/-! ## Reading the snapshot -/

/-- `read_wal_snapshot`: only a missing key is read as an absent object. -/
def readWalSnapshot (key : String) (reply : Except ServiceError WalSnapshot) :
    Except String (Option WalSnapshot) :=
  match reply with
  | .ok snap => .ok (some snap)
  | .error e =>
    if e.isNoSuchKey then .ok none
    else
      let msg := e.message
      .error s!"get object {key}: {msg}"

/-- The reply of a store that answers truthfully. -/
def Store.getSnapshot (st : Store) : Except ServiceError WalSnapshot :=
  match st.snapshot with
  | some snap => .ok snap
  | none => .error .noSuchKey

theorem readWalSnapshot_getSnapshot (key : String) (st : Store) :
    readWalSnapshot key st.getSnapshot = .ok st.snapshot := by
  unfold Store.getSnapshot
  cases h : st.snapshot with
  | none => rfl
  | some snap => rfl

/-! ## Reading the log -/

/-- The sequences `a..=b`. -/
def seqRange (a b : Nat) : List Nat := List.range' a (b + 1 - a)

variable {seq w commit first last : Nat} {st : Store} {e : WalEntry} {log es : List WalEntry}
  {wal : Nat → Option WalEntry}

theorem mem_seqRange {a b : Nat} : seq ∈ seqRange a b ↔ a ≤ seq ∧ seq ≤ b := by
  rw [seqRange, mem_range'_1]
  omega

/-- What the two decoders make of a segment.  The second one follows the corrupt policy and
may skip the segment. -/
structure Segment where
  entry : Except String WalEntry
  replayed : Except String (Option WalEntry)

/-- A segment that holds an entry. -/
def Segment.of (e : WalEntry) : Segment := ⟨.ok e, .ok (some e)⟩

/-- The log as its readers see it. -/
structure WalReader where
  wal : Nat → Option Segment
  snapshot : Option WalSnapshot

def Store.reader (st : Store) : WalReader := ⟨fun seq => (st.wal seq).map .of, st.snapshot⟩

instance : Coe Store WalReader := ⟨Store.reader⟩

@[simp] theorem Store.reader_snapshot (st : Store) : st.reader.snapshot = st.snapshot := rfl

def readWalSegment (r : WalReader) (seq : Nat) : Except String Segment :=
  match r.wal seq with
  | some segment => .ok segment
  | none => .error s!"read wal {seq}: object not found"

/-- Fetch and decode one segment. -/
def readWalEntry (r : WalReader) (seq : Nat) : Except String WalEntry := do
  let segment ← readWalSegment r seq
  segment.entry

theorem readWalEntry_of_some (h : st.wal seq = some e) : readWalEntry st seq = .ok e := by
  simp only [readWalEntry, readWalSegment, Store.reader, h, Option.map_some]
  rfl

theorem readWalEntry_of_none (h : st.wal seq = none) :
    readWalEntry st seq = .error s!"read wal {seq}: object not found" := by
  simp only [readWalEntry, readWalSegment, Store.reader, h, Option.map_none]
  rfl

theorem readWalEntry_eq_ok : readWalEntry st seq = .ok e ↔ st.wal seq = some e := by
  cases h : st.wal seq with
  | none => simp [readWalEntry_of_none h]
  | some e' => simp [readWalEntry_of_some h]

/-- Fetch the segments `fromSeq..=toSeq` without applying them. -/
def replayWalEntries (r : WalReader) (fromSeq toSeq : Nat) : Except String (List WalEntry) :=
  if fromSeq = 0 ∨ toSeq = 0 ∨ fromSeq > toSeq then .ok []
  else (seqRange fromSeq toSeq).mapM (readWalEntry r)

/-- Fetch a segment and replay it, unless it is skipped. -/
def replayWalSegment (r : WalReader) (docs : DocMap) (seq : Nat) : Except String DocMap := do
  let segment ← readWalSegment r seq
  let entry ← segment.replayed
  pure (entry.toList.foldl applyEntry docs)

theorem replayWalSegment_eq (st : Store) (docs : DocMap) (seq : Nat) :
    replayWalSegment st docs seq = (readWalEntry st seq).map fun e => applyEntry docs e := by
  simp only [replayWalSegment, readWalEntry, readWalSegment, Store.reader]
  cases st.wal seq <;> rfl

/-- Replay the segments `fromSeq..=toSeq` into `docs`. -/
def replayWalRange (r : WalReader) (docs : DocMap) (fromSeq toSeq : Nat) : Except String DocMap :=
  if fromSeq = 0 ∨ toSeq = 0 ∨ fromSeq > toSeq then .ok docs
  else (seqRange fromSeq toSeq).foldlM (replayWalSegment r) docs

/-- First segment to fetch when a snapshot exists at `snapshotSeq`. -/
def walReplayFrom (snapshotSeq walCommitSeq : Nat) : Option Nat :=
  if walCommitSeq = 0 then none
  else
    let first := saturatingAdd snapshotSeq 1
    if first > walCommitSeq then none else some (max first 1)

theorem walReplayFrom_eq_none (hmax : w < u64Max) (h : commit ≤ w) :
    walReplayFrom w commit = none := by
  simp only [walReplayFrom, saturatingAdd_one_of_lt hmax]
  split
  · rfl
  · rw [if_pos (by omega)]

theorem walReplayFrom_eq_some (hmax : w < u64Max) (h : w < commit) :
    walReplayFrom w commit = some (w + 1) := by
  simp only [walReplayFrom, saturatingAdd_one_of_lt hmax]
  rw [if_neg (by omega), if_neg (by omega), Nat.max_eq_left (by omega)]

theorem walReplayFrom_pos (h : walReplayFrom w commit = some first) : 1 ≤ first := by
  simp only [walReplayFrom] at h
  split at h
  · cases h
  · split at h
    · cases h
    · cases h
      exact Nat.le_max_right _ _

/-- The snapshot a load may start from: the stored one, if `meta.json` records
exactly its sequence. -/
def loadBaseline (r : WalReader) (m : NamespaceMeta) : DocMap × Nat :=
  if m.walSnapshotSeq > 0 then
    match r.snapshot with
    | some snap => if snap.seq = m.walSnapshotSeq then (snap.intoDocs, snap.seq) else (∅, 0)
    | none => (∅, 0)
  else (∅, 0)

theorem loadBaseline_congr {r r' : WalReader} (h : r.snapshot = r'.snapshot) (m : NamespaceMeta) :
    loadBaseline r m = loadBaseline r' m := by
  rw [loadBaseline, loadBaseline, h]

/-- The document map at `m.walCommitSeq` and the last sequence applied. -/
def loadDocsAtWalCommit (r : WalReader) (m : NamespaceMeta) : Except String (DocMap × Nat) :=
  let (docs, lastApplied) := loadBaseline r m
  match walReplayFrom lastApplied m.walCommitSeq with
  | none => .ok (docs, lastApplied)
  | some first =>
    (replayWalRange r docs first m.walCommitSeq).map fun ds => (ds, m.walCommitSeq)

/-- Where the replay for an index cursor starts: after the stored snapshot if
it is not ahead of the cursor, else at the beginning. -/
def cursorBaseline (snapshot : Option WalSnapshot) (indexCursor : Nat) : DocMap × Nat :=
  match snapshot with
  | some snap =>
    if snap.seq ≤ indexCursor then (snap.intoDocs, saturatingAdd snap.seq 1) else (∅, 1)
  | none => (∅, 1)

/-- All documents up to `indexCursor`. -/
def docsAtIndexCursor (r : WalReader) (indexCursor : Nat) : Except String DocMap :=
  if indexCursor = 0 then .ok ∅
  else
    let (docs, replayFrom) := cursorBaseline r.snapshot indexCursor
    if replayFrom ≤ indexCursor then replayWalRange r docs replayFrom indexCursor
    else .ok docs

theorem docsAtIndexCursor_of_baseline {r : WalReader} {cursor : Nat} {docs : DocMap}
    (hpos : cursor ≠ 0) (hb : cursorBaseline r.snapshot cursor = (docs, first)) :
    docsAtIndexCursor r cursor
      = if first ≤ cursor then replayWalRange r docs first cursor else .ok docs := by
  rw [docsAtIndexCursor, if_neg hpos, hb]

/-! ## What the readers return

`entryAt log seq` is the entry a log commits at `seq`.  The readers agree with
a log on the segments that hold its entries. -/

/-- The entry committed at `seq`; sequences start at `1`. -/
def entryAt (log : List WalEntry) (seq : Nat) : Option WalEntry :=
  if seq = 0 then none else log[seq - 1]?

theorem entryAt_succ (log : List WalEntry) (k : Nat) : entryAt log (k + 1) = log[k]? := by
  simp [entryAt]

theorem entryAt_isSome (log : List WalEntry) (h1 : 1 ≤ seq) (h2 : seq ≤ log.length) :
    ∃ e, entryAt log seq = some e := by
  obtain ⟨k, rfl⟩ : ∃ k, seq = k + 1 := ⟨seq - 1, by omega⟩
  exact ⟨log[k], getElem?_eq_getElem (by omega)⟩

theorem entryAt_append_left {more : List WalEntry} (h : seq ≤ log.length) :
    entryAt (log ++ more) seq = entryAt log seq := by
  cases seq with
  | zero => rfl
  | succ k =>
    exact getElem?_append_left (by omega)

theorem entryAt_append_of_some (h : entryAt log seq = some e) (more : List WalEntry) :
    entryAt (log ++ more) seq = some e := by
  cases seq with
  | zero => cases h
  | succ k =>
    rw [entryAt_succ] at h ⊢
    rw [List.getElem?_append_left (List.getElem?_eq_some_iff.mp h).1, h]

theorem entryAt_concat (log : List WalEntry) (e : WalEntry) :
    entryAt (log ++ [e]) (log.length + 1) = some e := by
  rw [entryAt_succ, getElem?_append_right (Nat.le_refl _), Nat.sub_self]
  rfl

/-- The entries `first..=first + n - 1` of a log. -/
def slice (log : List WalEntry) (first n : Nat) : List WalEntry := (log.drop (first - 1)).take n

theorem slice_succ {n : Nat} (h : entryAt log first = some e) :
    slice log first (n + 1) = e :: slice log (first + 1) n := by
  cases first with
  | zero => cases h
  | succ k =>
    rw [entryAt_succ] at h
    obtain ⟨hk, hek⟩ := List.getElem?_eq_some_iff.mp h
    simp only [slice, Nat.add_sub_cancel, List.drop_eq_getElem_cons hk, hek, List.take_succ_cons]

section Holds

variable {α : Type} {wal : Nat → Option α} {e : α} {es : List α}

/-- The entries, or segments, from `first` on. -/
def HoldsEntries (wal : Nat → Option α) (first : Nat) (es : List α) : Prop :=
  ∀ i e, es[i]? = some e → wal (first + i) = some e

theorem HoldsEntries.head (h : HoldsEntries wal first (e :: es)) : wal first = some e := h 0 e rfl

theorem HoldsEntries.tail (h : HoldsEntries wal first (e :: es)) :
    HoldsEntries wal (first + 1) es := by
  intro i f hf
  rw [Nat.add_assoc, Nat.add_comm 1 i]
  exact h (i + 1) f hf

theorem HoldsEntries.wal_eq (h : HoldsEntries wal first es) {k : Nat} (hk : k < es.length) :
    wal (first + k) = es[k]? := by
  rw [getElem?_eq_getElem hk]
  exact h k es[k] (getElem?_eq_getElem hk)

theorem HoldsEntries.drop (h : HoldsEntries wal first es) (k : Nat) :
    HoldsEntries wal (first + k) (es.drop k) := by
  intro i e he
  rw [getElem?_drop] at he
  rw [Nat.add_assoc]
  exact h (k + i) e he

end Holds

theorem HoldsEntries.reader (h : HoldsEntries st.wal first es) :
    HoldsEntries st.reader.wal first (es.map .of) := by
  intro i segment hsegment
  rw [getElem?_map] at hsegment
  obtain ⟨e, he, rfl⟩ := Option.map_eq_some_iff.mp hsegment
  exact congrArg (Option.map Segment.of) (h i e he)

theorem HoldsEntries.of_log {n : Nat} (h : ∀ seq, w < seq → seq ≤ n → wal seq = entryAt log seq) :
    HoldsEntries wal (w + 1) ((log.take n).drop w) := by
  intro i e he
  rw [getElem?_drop, getElem?_take] at he
  split at he
  · rw [h (w + 1 + i) (by omega) (by omega), Nat.add_right_comm, entryAt_succ, he]
  · cases he

theorem length_entries (n : Nat) (hn : n ≤ log.length) : ((log.take n).drop w).length = n - w := by
  rw [length_drop, length_take, Nat.min_eq_left hn]

/-- A loop over `read_wal_entry` folds what the segments hold. -/
theorem HoldsEntries.foldlM_readWalEntry {β : Type} (f : β → Nat → WalEntry → β)
    (h : HoldsEntries st.wal first es) (b : β) :
    (List.range' first es.length).foldlM
        (fun b seq => (readWalEntry st seq).map fun e => f b seq e) b
      = .ok ((es.zipIdx first).foldl (fun b p => f b p.2 p.1) b) := by
  induction es generalizing first b with
  | nil => rfl
  | cons e es ih =>
    rw [length_cons, range'_succ, foldlM_cons, readWalEntry_eq_ok.mpr h.head]
    exact ih h.tail (f b first e)

/-- Replaying a range with a missing segment fails. -/
theorem foldlM_readWalEntry_missing :
    ∀ (n first : Nat) (docs : DocMap) (seq : Nat), first ≤ seq → seq < first + n →
      st.wal seq = none →
      ∃ msg, (List.range' first n).foldlM
          (fun ds seq => (readWalEntry st seq).map fun e => applyEntry ds e) docs = .error msg
  | 0, first, _, seq, h1, h2, _ => by omega
  | n + 1, first, docs, seq, h1, h2, hmiss => by
    rw [List.range'_succ, List.foldlM_cons]
    cases hw : st.wal first with
    | none =>
      refine ⟨s!"read wal {first}: object not found", ?_⟩
      rw [readWalEntry_of_none hw]
      rfl
    | some e =>
      have hne : first ≠ seq := by
        intro heq
        rw [heq, hmiss] at hw
        cases hw
      obtain ⟨msg, hmsg⟩ := foldlM_readWalEntry_missing n (first + 1) (applyEntry docs e) seq
        (by omega) (by omega) hmiss
      refine ⟨msg, ?_⟩
      rw [readWalEntry_of_some hw]
      exact hmsg

/-- Replaying segments folds the entries they hold. -/
theorem HoldsEntries.replayWalRange_eq (h : HoldsEntries st.wal (w + 1) es) (hpos : 0 < es.length)
    (docs : DocMap) :
    replayWalRange st docs (w + 1) (w + es.length) = .ok (es.foldl applyEntry docs) := by
  have hfold := h.foldlM_readWalEntry (fun ds _ e => applyEntry ds e) docs
  rw [← foldl_map, zipIdx_map_fst] at hfold
  have hlen : w + es.length + 1 - (w + 1) = es.length := by omega
  rw [replayWalRange, if_neg (by omega), seqRange, hlen, funext₂ (replayWalSegment_eq st)]
  exact hfold

theorem replayWalRange_missing {docs : DocMap} (h1 : 1 ≤ first) (hs1 : first ≤ seq)
    (hs2 : seq ≤ last) (hmiss : st.wal seq = none) :
    ∃ msg, replayWalRange st docs first last = .error msg := by
  rw [replayWalRange, if_neg (by omega), funext₂ (replayWalSegment_eq st)]
  exact foldlM_readWalEntry_missing _ _ _ seq hs1 (by omega) hmiss

/-- Fetching a range succeeds exactly with the entries its segments hold. -/
theorem mapM_readWalEntry :
    ∀ (n first : Nat) (es : List WalEntry),
      (List.range' first n).mapM (readWalEntry st) = .ok es ↔
        es.length = n ∧ ∀ i < n, st.wal (first + i) = es[i]?
  | 0, first, es => by
    constructor
    · intro h
      cases h
      exact ⟨rfl, fun i hi => absurd hi (Nat.not_lt_zero i)⟩
    · rintro ⟨hlen, -⟩
      rw [List.length_eq_zero_iff.mp hlen]
      rfl
  | n + 1, first, es => by
    rw [List.range'_succ, List.mapM_cons]
    constructor
    · intro h
      obtain ⟨e, he, hrest⟩ := bind_eq_ok.mp h
      obtain ⟨rest, hr, hes⟩ := bind_eq_ok.mp hrest
      cases hes
      obtain ⟨hlen, hall⟩ := (mapM_readWalEntry n (first + 1) rest).mp hr
      refine ⟨by rw [length_cons, hlen], ?_⟩
      intro i hi
      cases i with
      | zero => exact readWalEntry_eq_ok.mp he
      | succ i =>
        rw [getElem?_cons_succ, ← hall i (by omega)]
        congr 1
        omega
    · rintro ⟨hlen, hall⟩
      cases es with
      | nil => cases hlen
      | cons e rest =>
        refine bind_eq_ok.mpr ⟨e, readWalEntry_eq_ok.mpr (hall 0 (by omega)), ?_⟩
        refine bind_eq_ok.mpr ⟨rest, ?_, rfl⟩
        refine (mapM_readWalEntry n (first + 1) rest).mpr ⟨Nat.succ.inj hlen, ?_⟩
        intro i hi
        rw [← getElem?_cons_succ, ← hall (i + 1) (by omega)]
        congr 1
        omega

/-- The whole log is read back exactly when every segment holds its entry. -/
theorem replayWalEntries_one :
    replayWalEntries st 1 last = .ok es ↔
      es.length = last ∧ ∀ seq, 1 ≤ seq → seq ≤ last → st.wal seq = entryAt es seq := by
  have hshift : (∀ i < last, st.wal (1 + i) = es[i]?) ↔
      ∀ seq, 1 ≤ seq → seq ≤ last → st.wal seq = entryAt es seq := by
    constructor
    · intro h seq h1 h2
      obtain ⟨i, rfl⟩ : ∃ i, seq = i + 1 := ⟨seq - 1, by omega⟩
      rw [entryAt_succ, ← h i (by omega), Nat.add_comm]
    · intro h i hi
      rw [Nat.add_comm, h (i + 1) (by omega) (by omega), entryAt_succ]
  cases last with
  | zero =>
    rw [← hshift]
    simp [replayWalEntries]
  | succ n =>
    rw [← hshift]
    exact mapM_readWalEntry (n + 1) 1 es

theorem replay_take_of_entryAt (h : entryAt log seq = some e) :
    applyEntry (replay (log.take (seq - 1))) e = replay (log.take seq) := by
  cases seq with
  | zero => cases h
  | succ k =>
    rw [entryAt_succ] at h
    rw [take_add_one, h, ← replay_concat]
    rfl

theorem replay_take_drop (log : List WalEntry) {n : Nat} (h : w ≤ n) :
    ((log.take n).drop w).foldl applyEntry (replay (log.take w)) = replay (log.take n) := by
  rw [drop_take, ← replay_append, ← take_add, Nat.add_sub_of_le h]

/-- Replay from a baseline at `w`. -/
theorem replayWalRange_from (hw : w < last) (hlast : last ≤ log.length)
    (hheld : ∀ seq, w + 1 ≤ seq → seq ≤ last → st.wal seq = entryAt log seq) :
    replayWalRange st (replay (log.take w)) (w + 1) last = .ok (replay (log.take last)) := by
  have hlen := length_entries (w := w) last hlast
  have hrange := (HoldsEntries.of_log hheld).replayWalRange_eq (by omega) (replay (log.take w))
  rw [hlen, Nat.add_sub_of_le (by omega), replay_take_drop log (by omega)] at hrange
  exact hrange

/-- The baseline of a load is the snapshot that the metadata records, or nothing. -/
theorem loadBaseline_cases (h : ∀ snap ∈ st.snapshot, snap.docs = replay (log.take snap.seq))
    (m : NamespaceMeta) :
    (∃ snap ∈ st.snapshot, snap.seq = m.walSnapshotSeq ∧
        loadBaseline st m = (replay (log.take snap.seq), snap.seq)) ∨
      loadBaseline st m = (replay (log.take 0), 0) := by
  unfold loadBaseline
  split
  · split
    · rename_i snap hsnap
      split
      · rename_i hseq
        exact .inl ⟨snap, hsnap, hseq, by rw [WalSnapshot.intoDocs, h snap hsnap]⟩
      · exact .inr rfl
    · exact .inr rfl
  · exact .inr rfl

/-- A load replays the segments after its baseline. -/
theorem loadDocsAtWalCommit_of_baseline {m : NamespaceMeta} {base : DocMap}
    (hbase : loadBaseline st m = (base, w)) (hmax : w < u64Max)
    (hheld : HoldsEntries st.wal (w + 1) es) (hlen : es.length = m.walCommitSeq - w) :
    loadDocsAtWalCommit st m = .ok (es.foldl applyEntry base, max w m.walCommitSeq) := by
  simp only [loadDocsAtWalCommit, hbase]
  rcases Nat.lt_or_ge w m.walCommitSeq with hlt | hge
  · have hrange := hheld.replayWalRange_eq (by omega) base
    rw [hlen, Nat.add_sub_of_le (Nat.le_of_lt hlt)] at hrange
    rw [walReplayFrom_eq_some hmax hlt, Nat.max_eq_right (Nat.le_of_lt hlt)]
    simp only [hrange, Except.map]
  · rw [walReplayFrom_eq_none hmax hge, Nat.max_eq_left hge,
      length_eq_zero_iff.mp (show es.length = 0 by omega)]
    rfl

/-- A load from a baseline that agrees with the log, over segments that hold its
entries, yields the documents at the commit point. -/
theorem loadDocsAtWalCommit_eq {m : NamespaceMeta}
    (hbase : loadBaseline st m = (replay (log.take w), w)) (hmax : w < u64Max)
    (hw : w ≤ m.walCommitSeq) (hlen : m.walCommitSeq ≤ log.length)
    (hheld : ∀ seq, w < seq → seq ≤ m.walCommitSeq → st.wal seq = entryAt log seq) :
    loadDocsAtWalCommit st m = .ok (replay (log.take m.walCommitSeq), m.walCommitSeq) := by
  have hload := loadDocsAtWalCommit_of_baseline hbase hmax (.of_log hheld)
    (length_entries m.walCommitSeq hlen)
  rw [replay_take_drop log hw, Nat.max_eq_right hw] at hload
  exact hload

end OpenPuffer
