import OpenPuffer.Cluster.Observer
import OpenPuffer.View

/-!
# A load next to a compaction

A load fetches `meta.json` once and then reads the snapshot that this version records, the
segments after it twice, and the tail that is not indexed.  A compaction in between stores
another snapshot and deletes segments.

`Reader` is a load or a `catch_up` before its next request, and `Reader.needs` are the segments
it still has to read.  The load succeeds exactly if at every moment all of them are stored, and
then shows the log as it was at some moment since it began.
-/

namespace OpenPuffer

open Option List

/-- The segments that are not indexed, for the tail of a query. -/
def unindexedWalTailRange (m : NamespaceMeta) : Option (Nat × Nat) :=
  if m.indexCursor ≥ m.walCommitSeq then none
  else
    let last := m.walCommitSeq
    let first :=
      if m.walSnapshotSeq > 0 then
        (walReplayFrom m.walSnapshotSeq last).getD (saturatingAdd m.indexCursor 1)
      else saturatingAdd m.indexCursor 1
    if first > last then none else some (first, last)

/-- The segments of a replay that starts after `lastApplied`. -/
def replaySeqs (m : NamespaceMeta) (lastApplied : Nat) : List Nat :=
  match walReplayFrom lastApplied m.walCommitSeq with
  | none => []
  | some first => seqRange first m.walCommitSeq

/-- The segments that `build_doc_last_wal_seq` reads. -/
def buildSeqs (m : NamespaceMeta) : List Nat :=
  seqRange (if m.walSnapshotSeq > 0 then saturatingAdd m.walSnapshotSeq 1 else 1) m.walCommitSeq

def tailSeqs (m : NamespaceMeta) : List Nat :=
  match unindexedWalTailRange m with
  | none => []
  | some (first, last) => seqRange first last

inductive ReadCall where
  | load
  | catchUp (v : NamespaceView)

/-- The view that `catch_up` is called on is one of the log. -/
def ReadCall.Valid (sh : Shared) : ReadCall → Prop
  | .load => True
  | .catchUp v => v.Tracks sh.log ∧ v.metadata.walCommitSeq ≤ sh.log.length

/-- A load before its next request.  The last read is that of the tail, after
which the view is handed out. -/
inductive Reader where
  | fetch (call : ReadCall)
  -- load_docs_at_wal_commit
  | snapshot (m : NamespaceMeta) (etag : Nat)
  | replay (m : NamespaceMeta) (etag : Nat) (docs : DocMap) (seqs : List Nat)
  -- build_doc_last_wal_seq
  | build (m : NamespaceMeta) (etag : Nat) (docs : DocMap) (last : Nat)
      (map : HashMap String Nat) (seqs : List Nat)
  -- the loop of catch_up
  | advance (m : NamespaceMeta) (etag : Nat) (v : NamespaceView) (seqs : List Nat)
  | tail (fetched : MetaRead) (v : NamespaceView) (seqs : List Nat)
  | done (fetched : MetaRead) (v : NamespaceView)
  | failed (msg : String)

namespace Reader

/-! ## The next request -/

def tailing (fetched : MetaRead) (v : NamespaceView) : List Nat → Reader
  | [] => .done fetched v
  | seqs => .tail fetched v seqs

/-- The view is complete but for the tail. -/
def loaded (fetched : MetaRead) (v : NamespaceView) : Reader :=
  tailing fetched v (tailSeqs v.metadata)

def building (m : NamespaceMeta) (etag : Nat) (docs : DocMap) (last : Nat)
    (map : HashMap String Nat) : List Nat → Reader
  | [] => loaded (some (m, etag)) ⟨docs, m, some etag, last, map⟩
  | seqs => .build m etag docs last map seqs

def startBuild (m : NamespaceMeta) (etag : Nat) (docs : DocMap) (last : Nat) : Reader :=
  building m etag docs last
    (if m.walSnapshotSeq > 0 then HashMap.constKeys docs m.walSnapshotSeq else ∅) (buildSeqs m)

def replaying (m : NamespaceMeta) (etag : Nat) (docs : DocMap) : List Nat → Reader
  | [] => startBuild m etag docs m.walCommitSeq
  | seqs => .replay m etag docs seqs

def startReplay (m : NamespaceMeta) (etag : Nat) (docs : DocMap) (lastApplied : Nat) : Reader :=
  match walReplayFrom lastApplied m.walCommitSeq with
  | none => startBuild m etag docs lastApplied
  | some first => replaying m etag docs (seqRange first m.walCommitSeq)

def startLoad (m : NamespaceMeta) (etag : Nat) : Reader :=
  if m.walSnapshotSeq > 0 then .snapshot m etag else startReplay m etag ∅ 0

def advancing (m : NamespaceMeta) (etag : Nat) (v : NamespaceView) : List Nat → Reader
  | [] =>
    loaded (some (m, etag))
      { v with metadata := m, metaEtag := some etag, lastAppliedWalSeq := m.walCommitSeq }
  | seqs => .advance m etag v seqs

/-- What a call does with the metadata it fetched. -/
def fetched (call : ReadCall) (read : MetaRead) : Reader :=
  match call, read with
  | .load, none => loaded none .empty
  | .load, some (m, etag) => startLoad m etag
  | .catchUp v, none => loaded none v
  | .catchUp v, some (m, etag) =>
    if m.walCommitSeq ≤ v.lastAppliedWalSeq then
      loaded (some (m, etag)) { v with metadata := m, metaEtag := some etag }
    else if m.walSnapshotSeq > v.lastAppliedWalSeq then startLoad m etag
    else
      advancing m etag v (seqRange (saturatingAdd v.lastAppliedWalSeq 1) m.walCommitSeq)

/-- Go on with a segment, if it can be read. -/
def withEntry (st : Store) (seq : Nat) (next : WalEntry → Reader) : Reader :=
  match readWalEntry st seq with
  | .ok e => next e
  | .error msg => .failed msg

/-- Send the next request. -/
def read (st : Store) : Reader → Option Reader
  | .fetch call => some (fetched call st.metaJson.current)
  | .snapshot m etag =>
    let (docs, lastApplied) := loadBaseline st m
    some (startReplay m etag docs lastApplied)
  | .replay m etag docs (seq :: rest) =>
    some (withEntry st seq fun e => replaying m etag (applyEntry docs e) rest)
  | .build m etag docs last map (seq :: rest) =>
    some (withEntry st seq fun e =>
      building m etag docs last (updateDocWalSeqMap map seq e) rest)
  | .advance m etag v (seq :: rest) =>
    some (withEntry st seq fun e => advancing m etag (v.record seq e) rest)
  | .tail fetched v (seq :: rest) => some (withEntry st seq fun _ => tailing fetched v rest)
  | .replay _ _ _ [] | .build _ _ _ _ _ [] | .advance _ _ _ [] | .tail _ _ [] => none
  | .done .. | .failed _ => none

/-- The segments that are still to be read. -/
def needs (st : Store) : Reader → List Nat
  | .snapshot m _ => replaySeqs m (loadBaseline st m).2 ++ buildSeqs m ++ tailSeqs m
  | .replay m _ _ seqs => seqs ++ buildSeqs m ++ tailSeqs m
  | .build m _ _ _ _ seqs => seqs ++ tailSeqs m
  | .advance m _ _ seqs => seqs ++ tailSeqs m
  | .tail _ _ seqs => seqs
  | .fetch _ | .done .. | .failed _ => []

def isFailed : Reader → Bool
  | .failed _ => true
  | _ => false

def isDone : Reader → Bool
  | .done .. => true
  | _ => false

/-- Everything that the load still has to read is stored. -/
def OnCourse (st : Store) (r : Reader) : Prop :=
  ∀ seq ∈ r.needs st, st.wal seq ≠ none

instance (st : Store) (r : Reader) : Decidable (r.OnCourse st) :=
  inferInstanceAs (Decidable (∀ seq ∈ r.needs st, _))

/-! ## What is still to be read -/

/-- How many requests go before the first segment. -/
def stage : Reader → Nat
  | .fetch _ => 2
  | .snapshot .. => 1
  | _ => 0

/-- A reader that only has segments to read has one to read next. -/
def Ready : Reader → Prop
  | .replay _ _ _ seqs | .build _ _ _ _ _ seqs | .advance _ _ _ seqs | .tail _ _ seqs =>
    seqs ≠ []
  | _ => True

/-- A reader that has not failed, with its plan. -/
structure Plans (st : Store) (r : Reader) (seqs : List Nat) : Prop where
  needs_eq : r.needs st = seqs
  not_failed : r.isFailed = false
  stage_eq : r.stage = 0
  ready : r.Ready

section Plans

variable (st : Store)

theorem plans_tailing (fetched : MetaRead) (v : NamespaceView) (seqs : List Nat) :
    Plans st (tailing fetched v seqs) seqs := by
  cases seqs with
  | nil => exact ⟨rfl, rfl, rfl, trivial⟩
  | cons seq rest => exact ⟨rfl, rfl, rfl, cons_ne_nil seq rest⟩

theorem plans_loaded (fetched : MetaRead) (v : NamespaceView) :
    Plans st (loaded fetched v) (tailSeqs v.metadata) := plans_tailing st _ _ _

theorem plans_building (m : NamespaceMeta) (etag : Nat) (docs : DocMap) (last : Nat)
    (map : HashMap String Nat) (seqs : List Nat) :
    Plans st (building m etag docs last map seqs) (seqs ++ tailSeqs m) := by
  cases seqs with
  | nil => exact plans_loaded st _ _
  | cons seq rest => exact ⟨rfl, rfl, rfl, cons_ne_nil seq rest⟩

theorem plans_replaying (m : NamespaceMeta) (etag : Nat) (docs : DocMap) (seqs : List Nat) :
    Plans st (replaying m etag docs seqs) (seqs ++ buildSeqs m ++ tailSeqs m) := by
  cases seqs with
  | nil => exact plans_building st _ _ _ _ _ _
  | cons seq rest => exact ⟨rfl, rfl, rfl, cons_ne_nil seq rest⟩

theorem plans_startReplay (m : NamespaceMeta) (etag : Nat) (docs : DocMap) (lastApplied : Nat) :
    Plans st (startReplay m etag docs lastApplied)
      (replaySeqs m lastApplied ++ buildSeqs m ++ tailSeqs m) := by
  unfold startReplay replaySeqs
  split
  · exact plans_building st _ _ _ _ _ _
  · exact plans_replaying st _ _ _ _

theorem plans_advancing (m : NamespaceMeta) (etag : Nat) (v : NamespaceView) (seqs : List Nat) :
    Plans st (advancing m etag v seqs) (seqs ++ tailSeqs m) := by
  cases seqs with
  | nil => exact plans_loaded st _ _
  | cons seq rest => exact ⟨rfl, rfl, rfl, cons_ne_nil seq rest⟩

/-- The reply to the first request leads to the snapshot or to segments. -/
theorem fetched_cases (call : ReadCall) (read : MetaRead) :
    (∃ m etag, fetched call read = .snapshot m etag) ∨
      ∃ seqs, Plans st (fetched call read) seqs := by
  have hload : ∀ m etag, (∃ m' etag', startLoad m etag = .snapshot m' etag') ∨
      ∃ seqs, Plans st (startLoad m etag) seqs := by
    intro m etag
    unfold startLoad
    split
    · exact .inl ⟨_, _, rfl⟩
    · exact .inr ⟨_, plans_startReplay st _ _ _ _⟩
  cases call with
  | load =>
    cases read with
    | none => exact .inr ⟨_, plans_loaded st _ _⟩
    | some found => exact hload _ _
  | catchUp v =>
    cases read with
    | none => exact .inr ⟨_, plans_loaded st _ _⟩
    | some found =>
      simp only [fetched]
      split
      · exact .inr ⟨_, plans_loaded st _ _⟩
      · split
        · exact hload _ _
        · exact .inr ⟨_, plans_advancing st _ _ _ _⟩

end Plans

/-- A request that reads a segment of the plan fails exactly if it is gone. -/
theorem withEntry_cases (st : Store) (seq : Nat) (next : WalEntry → Reader) :
    (∃ e, st.wal seq = some e ∧ withEntry st seq next = next e) ∨
      (st.wal seq = none ∧ (withEntry st seq next).isFailed = true) := by
  rw [withEntry]
  cases hw : st.wal seq with
  | none => exact .inr ⟨rfl, by rw [readWalEntry_of_none hw]; rfl⟩
  | some e => exact .inl ⟨e, rfl, by rw [readWalEntry_of_some hw]⟩

/-- What a request does to the plan. -/
inductive ReadOutcome (st : Store) (r r' : Reader) : Prop where
  /-- Nothing was on the plan before, or all of it still is. -/
  | kept (not_failed : r'.isFailed = false) (ready : r'.Ready) (sooner : r'.stage < r.stage)
      (sub : r.needs st ⊆ r'.needs st)
  /-- The segment that was read is off the plan. -/
  | taken (seq : Nat) (not_failed : r'.isFailed = false) (ready : r'.Ready)
      (stage_eq : r'.stage = 0) (stored : st.wal seq ≠ none)
      (needs_eq : r.needs st = seq :: r'.needs st)
  | missed (seq : Nat) (failed : r'.isFailed = true) (mem : seq ∈ r.needs st)
      (gone : st.wal seq = none)

variable {st : Store} {r r' : Reader} {seq w : Nat} {m : NamespaceMeta}

theorem readOutcome_withEntry {next : WalEntry → Reader} {rest : List Nat}
    (hneeds : r.needs st = seq :: rest) (hnext : ∀ e, Plans st (next e) rest) :
    ReadOutcome st r (withEntry st seq next) := by
  rcases withEntry_cases st seq next with ⟨e, hw, he⟩ | ⟨hw, hfailed⟩
  · rw [he]
    obtain ⟨hplan, hok, hstage, hready⟩ := hnext e
    refine .taken seq hok hready hstage (by rw [hw]; exact some_ne_none e) ?_
    rw [hneeds, hplan]
  · exact .missed seq hfailed (by rw [hneeds]; exact mem_cons_self) hw

theorem readOutcome (h : r.read st = some r') : ReadOutcome st r r' := by
  cases r with
  | fetch call =>
    obtain rfl := some.inj h
    rcases fetched_cases st call st.metaJson.current with ⟨m, etag, heq⟩ | ⟨seqs, hplan⟩
    · rw [heq]
      exact .kept rfl trivial (Nat.lt_succ_self 1) (nil_subset _)
    · exact .kept hplan.not_failed hplan.ready (hplan.stage_eq ▸ Nat.succ_pos 1)
        (nil_subset _)
  | snapshot m etag =>
    have hnext : r' = startReplay m etag (loadBaseline st m).1 (loadBaseline st m).2 :=
      (some.inj h).symm
    have hplan := plans_startReplay st m etag (loadBaseline st m).1 (loadBaseline st m).2
    rw [hnext]
    exact .kept hplan.not_failed hplan.ready (hplan.stage_eq ▸ Nat.one_pos)
      (by rw [hplan.needs_eq]; exact fun _ hmem => hmem)
  | replay m etag docs seqs =>
    cases seqs with
    | nil => cases h
    | cons seq rest =>
      obtain rfl := some.inj h
      exact readOutcome_withEntry rfl fun _ => plans_replaying st _ _ _ _
  | build m etag docs last map seqs =>
    cases seqs with
    | nil => cases h
    | cons seq rest =>
      obtain rfl := some.inj h
      exact readOutcome_withEntry rfl fun _ => plans_building st _ _ _ _ _ _
  | advance m etag v seqs =>
    cases seqs with
    | nil => cases h
    | cons seq rest =>
      obtain rfl := some.inj h
      exact readOutcome_withEntry rfl fun _ => plans_advancing st _ _ _ _
  | tail fetched v seqs =>
    cases seqs with
    | nil => cases h
    | cons seq rest =>
      obtain rfl := some.inj h
      exact readOutcome_withEntry rfl fun _ => plans_tailing st _ _ _
  | done | failed => cases h

theorem OnCourse.isFailed_read (h : r.OnCourse st) (hread : r.read st = some r') :
    r'.isFailed = false := by
  cases readOutcome hread with
  | kept hok | taken _ hok => exact hok
  | missed seq _ hmem hgone => exact absurd hgone (h seq hmem)

theorem onCourse_of_read (hread : r.read st = some r') (hok : r'.isFailed = false)
    (h : r'.OnCourse st) : r.OnCourse st := by
  cases readOutcome hread with
  | kept _ _ _ hsub => exact fun seq hmem => h seq (hsub hmem)
  | taken seq _ _ _ hw hneeds =>
    rw [OnCourse, hneeds]
    exact forall_mem_cons.mpr ⟨hw, h⟩
  | missed _ hfailed =>
    rw [hok] at hfailed
    cases hfailed

theorem isFailed_of_read (hread : r.read st = some r') : r.isFailed = false := by
  cases r with
  | failed msg => cases hread
  | _ => rfl

/-- The reader has an answer. -/
def finished (r : Reader) : Bool := r.isDone || r.isFailed

/-! ## What a reader knows -/

/-- Metadata that was stored at some earlier moment. -/
structure Known (sh : Shared) (m : NamespaceMeta) : Prop where
  commit_le : m.walCommitSeq ≤ sh.log.length
  snapshot_le : m.walSnapshotSeq ≤ m.walCommitSeq
  recorded : m.walSnapshotSeq ≤ sh.store.storedMeta.walSnapshotSeq

/-- The view shows the log up to the commit point that was fetched. -/
def Current (sh : Shared) (fetched : MetaRead) (v : NamespaceView) : Prop :=
  fetched.metaOrDefault.walCommitSeq ≤ sh.log.length ∧
    v.docs = OpenPuffer.replay (sh.log.take fetched.metaOrDefault.walCommitSeq)

/-- The segments from `w + 1` to the commit point. -/
def after (m : NamespaceMeta) (w : Nat) : List Nat :=
  List.range' (w + 1) (m.walCommitSeq - w)

def Facts (sh : Shared) : Reader → Prop
  | .fetch call => call.Valid sh
  | .snapshot m _ => Known sh m
  | .replay m _ docs seqs =>
    Known sh m ∧ ∃ w, w ≤ m.walCommitSeq ∧ seqs = after m w ∧
      docs = OpenPuffer.replay (sh.log.take w)
  | .build m _ docs _ _ seqs =>
    Known sh m ∧ docs = OpenPuffer.replay (sh.log.take m.walCommitSeq) ∧
      ∀ seq ∈ seqs, seq ≤ m.walCommitSeq
  | .advance m _ v seqs =>
    Known sh m ∧ ∃ w, w ≤ m.walCommitSeq ∧ seqs = after m w ∧
      ((sh.log.take m.walCommitSeq).drop w).foldl applyEntry v.docs
        = OpenPuffer.replay (sh.log.take m.walCommitSeq)
  | .tail fetched v seqs => Current sh fetched v ∧ ∀ seq ∈ seqs, seq ≤ sh.log.length
  | .done fetched v => Current sh fetched v
  | .failed _ => True

theorem unindexedWalTailRange_last {range : Nat × Nat} (h : unindexedWalTailRange m = some range) :
    range.2 = m.walCommitSeq := by
  grind [unindexedWalTailRange]

theorem le_of_mem_tailSeqs (h : seq ∈ tailSeqs m) : seq ≤ m.walCommitSeq := by
  unfold tailSeqs at h
  split at h
  · cases h
  · rename_i first last hrange
    rw [← unindexedWalTailRange_last hrange]
    exact (mem_seqRange.mp h).2

theorem le_of_mem_buildSeqs (h : seq ∈ buildSeqs m) :
    seq ≤ m.walCommitSeq := (mem_seqRange.mp h).2

theorem le_of_mem_replaySeqs (h : seq ∈ replaySeqs m w) : seq ≤ m.walCommitSeq := by
  unfold replaySeqs at h
  split at h
  · cases h
  · exact (mem_seqRange.mp h).2

theorem after_self (m : NamespaceMeta) : after m m.walCommitSeq = [] := by
  rw [after, Nat.sub_self]
  rfl

theorem after_of_lt (h : w < m.walCommitSeq) : after m w = (w + 1) :: after m (w + 1) := by
  rw [after, show m.walCommitSeq - w = m.walCommitSeq - (w + 1) + 1 by omega]
  rfl

/-- The head of the segments after `w`. -/
theorem after_eq_cons {rest : List Nat} (h : seq :: rest = after m w) :
    w < m.walCommitSeq ∧ seq = w + 1 ∧ rest = after m (w + 1) := by
  have hlt : w < m.walCommitSeq := by
    by_contra hge
    rw [after, Nat.sub_eq_zero_of_le (Nat.le_of_not_lt hge)] at h
    cases h
  rw [after_of_lt hlt] at h
  exact ⟨hlt, (cons.inj h).1, (cons.inj h).2⟩

theorem le_of_mem_after (h : seq ∈ after m w) : seq ≤ m.walCommitSeq := by
  rw [after, mem_range'_1] at h
  omega

theorem seqRange_eq_after (m : NamespaceMeta) (w : Nat) :
    seqRange (w + 1) m.walCommitSeq = after m w := by
  rw [seqRange, Nat.add_sub_add_right, after]

section Facts

variable {sh : Shared} {m : NamespaceMeta} {etag : Nat}

variable {v : NamespaceView} {docs : DocMap} {w : Nat}

theorem facts_tailing {fetched : MetaRead} {seqs : List Nat} (h : Current sh fetched v)
    (hseqs : ∀ seq ∈ seqs, seq ≤ sh.log.length) : Facts sh (tailing fetched v seqs) := by
  cases seqs with
  | nil => exact h
  | cons seq rest => exact ⟨h, hseqs⟩

theorem facts_loaded {fetched : MetaRead} (h : Current sh fetched v)
    (hle : v.metadata.walCommitSeq ≤ sh.log.length) : Facts sh (loaded fetched v) :=
  facts_tailing h fun _ hmem => (le_of_mem_tailSeqs hmem).trans hle

theorem facts_building {last : Nat} {map : HashMap String Nat} {seqs : List Nat} (hk : Known sh m)
    (hdocs : docs = OpenPuffer.replay (sh.log.take m.walCommitSeq))
    (hseqs : ∀ seq ∈ seqs, seq ≤ m.walCommitSeq) :
    Facts sh (building m etag docs last map seqs) := by
  cases seqs with
  | nil => exact facts_loaded ⟨hk.commit_le, hdocs⟩ hk.commit_le
  | cons seq rest => exact ⟨hk, hdocs, hseqs⟩

theorem facts_replaying (hk : Known sh m) (hw : w ≤ m.walCommitSeq)
    (hdocs : docs = OpenPuffer.replay (sh.log.take w)) :
    Facts sh (replaying m etag docs (after m w)) := by
  rcases Nat.eq_or_lt_of_le hw with rfl | hlt
  · rw [after_self]
    exact facts_building hk hdocs fun _ hmem => le_of_mem_buildSeqs hmem
  · rw [after_of_lt hlt]
    exact ⟨hk, w, hw, (after_of_lt hlt).symm, hdocs⟩

theorem facts_startReplay (hk : Known sh m) (hmax : m.walCommitSeq < u64Max)
    (hw : w ≤ m.walCommitSeq) (hdocs : docs = OpenPuffer.replay (sh.log.take w)) :
    Facts sh (startReplay m etag docs w) := by
  unfold startReplay
  rcases Nat.eq_or_lt_of_le hw with rfl | hlt
  · rw [walReplayFrom_eq_none hmax (Nat.le_refl _)]
    exact facts_building hk hdocs fun _ hmem => le_of_mem_buildSeqs hmem
  · rw [walReplayFrom_eq_some (by omega) hlt]
    dsimp only
    rw [seqRange_eq_after]
    exact facts_replaying hk hw hdocs

theorem facts_startLoad (hk : Known sh m) (hmax : m.walCommitSeq < u64Max) :
    Facts sh (startLoad m etag) := by
  unfold startLoad
  split
  · exact hk
  · exact facts_startReplay hk hmax (Nat.zero_le _) rfl

theorem facts_advancing (hk : Known sh m) (hw : w ≤ m.walCommitSeq)
    (hdocs : ((sh.log.take m.walCommitSeq).drop w).foldl applyEntry v.docs
      = OpenPuffer.replay (sh.log.take m.walCommitSeq)) :
    Facts sh (advancing m etag v (after m w)) := by
  rcases Nat.eq_or_lt_of_le hw with rfl | hlt
  · rw [drop_eq_nil_of_le (length_take_le _ _)] at hdocs
    rw [after_self]
    exact facts_loaded ⟨hk.commit_le, hdocs⟩ hk.commit_le
  · rw [after_of_lt hlt]
    exact ⟨hk, w, hw, (after_of_lt hlt).symm, hdocs⟩

/-- The version that is stored is one of the log. -/
theorem known_of_current (h : SoloHeld sh) (hcur : sh.store.metaJson.current = some (m, etag)) :
    Known sh m ∧ m.walCommitSeq = sh.log.length := by
  have hmeta : sh.store.storedMeta = m := storedMeta_of_current hcur
  have hcommit : m.walCommitSeq = sh.log.length := by
    rw [h.length_eq, commitSeq_of_current hcur]
  have hcursor : m.indexCursor ≤ sh.store.commitSeq := hmeta ▸ h.cursor_le
  have hrecorded := h.recorded_le_cursor
  rw [hmeta] at hrecorded
  have hlen := h.length_eq
  exact ⟨⟨by omega, by omega, by rw [hmeta]⟩, hcommit⟩

theorem facts_fetched (h : SoloHeld sh) {call : ReadCall} (hcall : call.Valid sh) :
    Facts sh (fetched call sh.store.metaJson.current) := by
  have hmax := h.lt_max
  have hlen := h.length_eq
  cases hcur : sh.store.metaJson.current with
  | none =>
    have hzero : sh.log.length = 0 := by
      rw [hlen, Store.commitSeq, hcur]
      rfl
    cases call with
    | load => exact facts_loaded ⟨Nat.zero_le _, rfl⟩ (Nat.zero_le _)
    | catchUp v =>
      obtain ⟨htracks, hmeta⟩ := hcall
      have hdocs := htracks.docs_eq (by omega)
      rw [length_eq_zero_iff.mp hzero] at hdocs
      exact facts_loaded ⟨Nat.zero_le _, hdocs⟩ hmeta
  | some found =>
    obtain ⟨m, etag⟩ := found
    obtain ⟨hk, hcommit⟩ := known_of_current h hcur
    have hall : sh.log.take m.walCommitSeq = sh.log := by rw [hcommit, take_length]
    cases call with
    | load => exact facts_startLoad hk (by omega)
    | catchUp v =>
      obtain ⟨htracks, -⟩ := hcall
      simp only [fetched]
      split
      · have hdocs := htracks.docs_eq (by omega)
        refine facts_loaded ⟨hk.commit_le, ?_⟩ hk.commit_le
        change v.docs = OpenPuffer.replay (sh.log.take m.walCommitSeq)
        rw [hall, hdocs]
      · split
        · exact facts_startLoad hk (by omega)
        · rw [saturatingAdd_one_of_lt (by omega), seqRange_eq_after]
          refine facts_advancing hk (by omega) ?_
          rw [hall]
          exact htracks.2

theorem entryAt_of_stored (h : SoloHeld sh) {seq : Nat} {e : WalEntry} (h1 : 1 ≤ seq)
    (h2 : seq ≤ sh.log.length) (hw : sh.store.wal seq = some e) : entryAt sh.log seq = some e := by
  rcases h.held seq h1 (by rw [← h.length_eq]; exact h2) with hnone | heq
  · rw [hw] at hnone
    cases hnone
  · rw [← heq, hw]

theorem drop_of_entryAt {log : List WalEntry} {n : Nat} {e : WalEntry} (hw : w < n)
    (he : entryAt log (w + 1) = some e) : (log.take n).drop w = e :: (log.take n).drop (w + 1) := by
  rw [entryAt_succ] at he
  obtain ⟨hlt, he⟩ := List.getElem?_eq_some_iff.mp he
  have hlen : w < (log.take n).length := by
    rw [List.length_take]
    omega
  rw [List.drop_eq_getElem_cons hlen, List.getElem_take, he]

theorem facts_withEntry {seq : Nat} {next : WalEntry → Reader}
    (h : ∀ e, sh.store.wal seq = some e → Facts sh (next e)) :
    Facts sh (withEntry sh.store seq next) := by
  rcases withEntry_cases sh.store seq next with ⟨e, he, heq⟩ | ⟨hnone, -⟩
  · exact heq ▸ h e he
  · rw [withEntry, readWalEntry_of_none hnone]
    trivial

theorem Facts.read (h : SoloHeld sh) {r r' : Reader} (hr : Facts sh r)
    (hread : r.read sh.store = some r') : Facts sh r' := by
  have hmax := h.lt_max
  have hlen := h.length_eq
  cases r with
  | fetch call =>
    obtain rfl := some.inj hread
    exact facts_fetched h hr
  | snapshot m etag =>
    have hnext : r' = startReplay m etag (loadBaseline sh.store m).1
        (loadBaseline sh.store m).2 := (some.inj hread).symm
    have hk : Known sh m := hr
    have hcommit := hk.commit_le
    rw [hnext]
    rcases loadBaseline_cases h.snapshot_docs m with ⟨snap, -, hseq, hbase⟩ | hbase
    · rw [hbase]
      exact facts_startReplay hk (by omega) (hseq ▸ hk.snapshot_le) rfl
    · rw [hbase]
      exact facts_startReplay hk (by omega) (Nat.zero_le _) rfl
  | replay m etag docs seqs =>
    cases seqs with
    | nil => cases hread
    | cons seq rest =>
      obtain rfl := some.inj hread
      obtain ⟨hk, w, hw, hseqs, hdocs⟩ := hr
      obtain ⟨hlt, rfl, rfl⟩ := after_eq_cons hseqs
      have hcommit := hk.commit_le
      refine facts_withEntry fun e hstored => facts_replaying hk hlt ?_
      rw [hdocs]
      exact replay_take_of_entryAt (entryAt_of_stored h (by omega) (by omega) hstored)
  | build m etag docs last map seqs =>
    cases seqs with
    | nil => cases hread
    | cons seq rest =>
      obtain rfl := some.inj hread
      obtain ⟨hk, hdocs, hseqs⟩ := hr
      exact facts_withEntry fun e _ =>
        facts_building hk hdocs fun k hmem => hseqs k (mem_cons_of_mem seq hmem)
  | advance m etag v seqs =>
    cases seqs with
    | nil => cases hread
    | cons seq rest =>
      obtain rfl := some.inj hread
      obtain ⟨hk, w, hw, hseqs, hdocs⟩ := hr
      obtain ⟨hlt, rfl, rfl⟩ := after_eq_cons hseqs
      have hcommit := hk.commit_le
      refine facts_withEntry fun e hstored => facts_advancing hk hlt ?_
      rw [drop_of_entryAt hlt (entryAt_of_stored h (by omega) (by omega) hstored)] at hdocs
      exact hdocs
  | tail fetched v seqs =>
    cases seqs with
    | nil => cases hread
    | cons seq rest =>
      obtain rfl := some.inj hread
      obtain ⟨hcurrent, hseqs⟩ := hr
      exact facts_withEntry fun e _ =>
        facts_tailing hcurrent fun k hmem => hseqs k (mem_cons_of_mem seq hmem)
  | done | failed => cases hread

end Facts

/-! ## The process goes on -/

section Advances

variable {sh sh' : Shared}

theorem Known.advances {m : NamespaceMeta} (hadv : sh.Advances sh') (h : Known sh m) :
    Known sh' m where
  commit_le := h.commit_le.trans hadv.log.length_le
  snapshot_le := h.snapshot_le
  recorded := h.recorded.trans hadv.recorded

theorem Current.advances {fetched : MetaRead} {v : NamespaceView} (hadv : sh.Advances sh')
    (h : Current sh fetched v) : Current sh' fetched v := by
  refine ⟨h.1.trans hadv.log.length_le, ?_⟩
  rw [take_of_extends hadv.log h.1]
  exact h.2

variable {r : Reader}

theorem Facts.advances (hadv : sh.Advances sh') (h : Facts sh r) : Facts sh' r := by
  have hlog := hadv.log
  have hlen := hlog.length_le
  cases r with
  | fetch call =>
    cases call with
    | load => trivial
    | catchUp v => exact ⟨h.1.mono hlog, h.2.trans hlen⟩
  | snapshot m etag => exact Known.advances hadv h
  | replay m etag docs seqs =>
    obtain ⟨hk, w, hw, hseqs, hdocs⟩ := h
    have hcommit := hk.commit_le
    refine ⟨hk.advances hadv, w, hw, hseqs, ?_⟩
    rw [take_of_extends hlog (by omega)]
    exact hdocs
  | build m etag docs last map seqs =>
    obtain ⟨hk, hdocs, hseqs⟩ := h
    refine ⟨hk.advances hadv, ?_, hseqs⟩
    rw [take_of_extends hlog hk.commit_le]
    exact hdocs
  | advance m etag v seqs =>
    obtain ⟨hk, w, hw, hseqs, hdocs⟩ := h
    refine ⟨hk.advances hadv, w, hw, hseqs, ?_⟩
    rw [take_of_extends hlog hk.commit_le]
    exact hdocs
  | tail fetched v seqs =>
    exact ⟨Current.advances hadv h.1, fun seq hmem => (h.2 seq hmem).trans hlen⟩
  | done fetched v => exact Current.advances hadv h
  | failed msg => trivial

theorem le_of_mem_plan {m : NamespaceMeta} {seqs : List Nat} {seq : Nat}
    (hseqs : seq ∈ seqs → seq ≤ m.walCommitSeq) (h : seq ∈ seqs ++ buildSeqs m ++ tailSeqs m) :
    seq ≤ m.walCommitSeq := by
  rcases mem_append.mp h with h | h
  · exact (mem_append.mp h).elim hseqs le_of_mem_buildSeqs
  · exact le_of_mem_tailSeqs h

/-- A plan is made of committed segments. -/
theorem Facts.needs_le (h : Facts sh r) {st : Store} {seq : Nat} (hmem : seq ∈ r.needs st) :
    seq ≤ sh.log.length := by
  cases r with
  | fetch | done | failed => cases hmem
  | snapshot m etag =>
    have hk : Known sh m := h
    exact (le_of_mem_plan le_of_mem_replaySeqs hmem).trans hk.commit_le
  | replay m etag docs seqs =>
    obtain ⟨hk, w, hw, rfl, -⟩ := h
    exact (le_of_mem_plan le_of_mem_after hmem).trans hk.commit_le
  | build m etag docs last map seqs =>
    obtain ⟨hk, -, hseqs⟩ := h
    refine Nat.le_trans ?_ hk.commit_le
    exact (mem_append.mp hmem).elim (hseqs seq) le_of_mem_tailSeqs
  | advance m etag v seqs =>
    obtain ⟨hk, w, hw, rfl, -⟩ := h
    refine Nat.le_trans ?_ hk.commit_le
    exact (mem_append.mp hmem).elim le_of_mem_after le_of_mem_tailSeqs
  | tail fetched v seqs => exact h.2 seq hmem

/-- Without a baseline a replay reads all segments. -/
theorem replaySeqs_subset (m : NamespaceMeta) (w : Nat) : replaySeqs m w ⊆ replaySeqs m 0 := by
  intro seq hmem
  unfold replaySeqs at hmem ⊢
  split at hmem
  · cases hmem
  · rename_i first hfirst
    obtain ⟨h1, h2⟩ := mem_seqRange.mp hmem
    have hpos := walReplayFrom_pos hfirst
    rw [walReplayFrom_eq_some (by decide) (by omega)]
    exact mem_seqRange.mpr ⟨by omega, h2⟩

/-- The process can only make a plan longer: a snapshot that it stores is newer
than the recorded one, so a load that still has to read it starts over. -/
theorem Facts.needs_subset (hadv : sh.Advances sh') (h : Facts sh r) :
    r.needs sh.store ⊆ r.needs sh'.store := by
  cases r with
  | snapshot m etag =>
    have hk : Known sh m := h
    have hrecorded := hk.recorded
    have hbase : (loadBaseline sh'.store m).2 = (loadBaseline sh.store m).2 ∨
        (loadBaseline sh'.store m).2 = 0 := by
      rcases hadv.snapshot with hsame | ⟨snap, hnew, hlt⟩
      · left
        have hreader : sh'.store.reader.snapshot = sh.store.reader.snapshot := hsame
        rw [loadBaseline_congr hreader]
      · right
        simp only [loadBaseline, Store.reader_snapshot, hnew]
        rw [if_neg (show ¬snap.seq = m.walSnapshotSeq by omega), ite_self]
    intro seq hmem
    simp only [needs, mem_append] at hmem ⊢
    rcases hbase with hbase | hbase
    · rw [hbase]
      exact hmem
    · rw [hbase]
      exact hmem.imp_left (Or.imp_left fun hreplay => replaySeqs_subset m _ hreplay)
  | _ => exact fun _ hmem => hmem

/-- A reader that is on course after a step of the process was so before. -/
theorem Facts.onCourse_of_advances (hheld : SoloHeld sh) (hadv : sh.Advances sh') (h : Facts sh r)
    (hc : r.OnCourse sh'.store) : r.OnCourse sh.store := by
  intro seq hmem hgone
  have hle := h.needs_le hmem
  rw [hheld.length_eq] at hle
  exact hc seq (h.needs_subset hadv hmem) (hadv.gone seq hle hgone)

end Advances

/-! ## The commits that are seen -/

section Sees

variable {n etag : Nat} {docs : DocMap} {v : NamespaceView} {found : MetaRead} {seqs : List Nat}

/-- The version that was fetched has the first `n` commits. -/
def Sees (n : Nat) : Reader → Prop
  | .fetch _ | .failed _ => True
  | .snapshot m _ | .replay m _ _ _ | .build m _ _ _ _ _ | .advance m _ _ _ => n ≤ m.walCommitSeq
  | .tail fetched _ _ | .done fetched _ => n ≤ fetched.metaOrDefault.walCommitSeq

theorem sees_tailing (h : n ≤ found.metaOrDefault.walCommitSeq) :
    Sees n (tailing found v seqs) := by
  cases seqs <;> exact h

section Version

variable (h : n ≤ m.walCommitSeq)

include h

theorem sees_building {last : Nat} {map : HashMap String Nat} :
    Sees n (building m etag docs last map seqs) := by
  cases seqs with
  | nil => exact sees_tailing h
  | cons => exact h

theorem sees_replaying : Sees n (replaying m etag docs seqs) := by
  cases seqs with
  | nil => exact sees_building h
  | cons => exact h

theorem sees_startReplay : Sees n (startReplay m etag docs w) := by
  unfold startReplay
  split
  · exact sees_building h
  · exact sees_replaying h

theorem sees_startLoad : Sees n (startLoad m etag) := by
  unfold startLoad
  split
  · exact h
  · exact sees_startReplay h

theorem sees_advancing : Sees n (advancing m etag v seqs) := by
  cases seqs with
  | nil => exact sees_tailing h
  | cons => exact h

end Version

theorem sees_fetched {call : ReadCall} (h : n ≤ found.metaOrDefault.walCommitSeq) :
    Sees n (fetched call found) := by
  unfold fetched
  split
  · exact sees_tailing h
  · exact sees_startLoad h
  · exact sees_tailing h
  · split
    · exact sees_tailing h
    · split
      · exact sees_startLoad h
      · exact sees_advancing h

theorem sees_withEntry {next : WalEntry → Reader} (h : ∀ e, Sees n (next e)) :
    Sees n (withEntry st seq next) := by
  unfold withEntry
  split
  · exact h _
  · trivial

/-- Only the first request chooses a version: the one that is stored then. -/
theorem Sees.read (hst : n ≤ st.commitSeq) (h : Sees n r) (hread : r.read st = some r') :
    Sees n r' := by
  unfold Reader.read at hread
  split at hread
  · exact some.inj hread ▸ sees_fetched hst
  · exact some.inj hread ▸ sees_startReplay h
  · exact some.inj hread ▸ sees_withEntry fun _ => sees_replaying h
  · exact some.inj hread ▸ sees_withEntry fun _ => sees_building h
  · exact some.inj hread ▸ sees_withEntry fun _ => sees_advancing h
  · exact some.inj hread ▸ sees_withEntry fun _ => sees_tailing h
  all_goals cases hread

end Sees

end Reader

/-! ## Runs -/

section Runs

variable {P R : Type} [DecidableEq P] [DecidableEq R] {ns : String} {proc : P → R}

def Observed.OnCourse (s : Observed P R Reader) : Prop :=
  s.observer.OnCourse s.cluster.shared.store

instance (s : Observed P R Reader) : Decidable s.OnCourse :=
  inferInstanceAs (Decidable (Reader.OnCourse _ _))

/-- What holds between the steps of a process with a reader. -/
def ReaderInv (proc : P → R) (s : Observed P R Reader) : Prop :=
  SoloInv proc s.cluster ∧ s.observer.Facts s.cluster.shared

variable {s s' : Observed P R Reader} {a : ObservedAction P}

theorem ReaderInv.step (hone : ∀ p q, proc p = proc q) (h : ReaderInv proc s)
    (ha : s.AppendsSucceed a) (hstep : (observed ns proc Reader.read).step s a = some s') :
    ReaderInv proc s' :=
  observed_step (T := Reader.Facts) hone (fun _ _ _ _ _ hadv hf => hf.advances hadv)
    (fun _ _ _ hheld hread hf => hf.read hheld hread) h ha hstep

/-- A reader that goes on, and is on course after a step, was so before. -/
theorem ReaderInv.onCourse_of_step (hone : ∀ p q, proc p = proc q) (h : ReaderInv proc s)
    (ha : s.AppendsSucceed a) (hstep : (observed ns proc Reader.read).step s a = some s')
    (hc : s'.observer.isFailed = false ∧ s'.OnCourse) :
    s.observer.isFailed = false ∧ s.OnCourse := by
  cases a with
  | run a =>
    obtain ⟨c, hrun, rfl⟩ := map_eq_some_iff.mp hstep
    exact ⟨hc.1, h.2.onCourse_of_advances h.1.held (h.1.step hone ha hrun).2 hc.2⟩
  | read =>
    obtain ⟨r, hread, rfl⟩ := map_eq_some_iff.mp hstep
    exact ⟨Reader.isFailed_of_read hread, Reader.onCourse_of_read hread hc.1 hc.2⟩

/-- A step from a state in which the reader is on course does not make it fail. -/
theorem isFailed_step (hstep : (observed ns proc Reader.read).step s a = some s')
    (hok : s.observer.isFailed = false) (hc : s.OnCourse) : s'.observer.isFailed = false := by
  cases a with
  | run a =>
    obtain ⟨c, -, rfl⟩ := map_eq_some_iff.mp hstep
    exact hok
  | read =>
    obtain ⟨r, hread, rfl⟩ := map_eq_some_iff.mp hstep
    exact Reader.OnCourse.isFailed_read hc hread

/-- One load or `catch_up` next to one process.  It shows the documents at the
commit point that it fetched exactly if at every step all segments that it still
has to read are stored. -/
theorem load_succeeds_iff_on_course (hone : ∀ p q, proc p = proc q) {s₀ s : Cluster P R}
    {before : List (Action P)} (hidle : s₀.Idle) (hheld : SoloHeld s₀.shared)
    (happ₀ : (cluster ns proc).Along Cluster.AppendsSucceed s₀ before)
    (hbefore : (cluster ns proc).run s₀ before = some s)
    {call : ReadCall} (hcall : call.Valid s.shared) {as : List (ObservedAction P)}
    {t : Observed P R Reader}
    (happ : (observed ns proc Reader.read).Along Observed.AppendsSucceed ⟨s, .fetch call⟩ as)
    (hrun : (observed ns proc Reader.read).run ⟨s, .fetch call⟩ as = some t)
    (hfinished : t.observer.finished = true) :
    (∃ fetched v, t.observer = .done fetched v ∧
        v.docs = replay (t.cluster.shared.log.take fetched.metaOrDefault.walCommitSeq)) ↔
      (observed ns proc Reader.read).Along (fun u _ => u.OnCourse) ⟨s, .fetch call⟩ as := by
  have hinv₀ : SoloInv proc s := hidle.soloInv_of_run hone hheld happ₀ hbefore
  have hinv : ReaderInv proc ⟨s, .fetch call⟩ := ⟨hinv₀, hcall⟩
  constructor
  · rintro ⟨fetched, v, hdone, -⟩
    have ht : t.observer.isFailed = false ∧ t.OnCourse := by
      rw [Observed.OnCourse, hdone]
      exact ⟨rfl, fun _ hmem => absurd hmem not_mem_nil⟩
    have hback := Machine.along_of_end (fun u a u' hu ha hs => hu.step hone ha hs)
      (fun u a u' hu ha hs hc => hu.onCourse_of_step hone ha hs hc) hinv happ hrun ht
    exact hback.2.imp fun _ _ hc => hc.2
  · intro hcourse
    have hend : ReaderInv proc t ∧ t.observer.isFailed = false := by
      refine Machine.run_invariant
        (I := fun u => ReaderInv proc u ∧ u.observer.isFailed = false)
        (G := fun u a => u.AppendsSucceed a ∧ u.OnCourse) ?_ ⟨hinv, rfl⟩ (happ.and hcourse) hrun
      exact fun u a u' hu hg hs => ⟨hu.1.step hone hg.1 hs, isFailed_step hs hu.2 hg.2⟩
    obtain ⟨⟨-, hfacts⟩, hok⟩ := hend
    rw [Reader.finished, hok, Bool.or_false] at hfinished
    cases hobs : t.observer with
    | done fetched v =>
      rw [hobs] at hfacts
      exact ⟨fetched, v, rfl, hfacts.2⟩
    | _ =>
      rw [hobs] at hfinished
      cases hfinished

end Runs

theorem SoloHeld.empty : SoloHeld .empty :=
  ⟨SnapshotHeld.empty, by rintro _ ⟨⟩, Nat.le_refl 0⟩

/-- Eleven commits, an index pass and a compaction, and one more commit. -/
def compactedOnce : List (Action (Fin 1)) := compactOnce 0 ++ appends 0 1

theorem compactedOnce_isSome :
    ((cluster "ns" fun _ : Fin 1 => ()).run (.init .empty) compactedOnce).isSome = true := by
  decide +kernel

/-- A load after a compaction.  An index pass commits before it has read the one
segment that it needs. -/
def loadDuringIndex : List (ObservedAction (Fin 1)) :=
  [.read, .read] ++ (indexPass 0).map .run ++ [.read, .read, .read]

theorem load_succeeds_during_index :
    ∃ s t, (cluster "ns" fun _ : Fin 1 => ()).run (.init .empty) compactedOnce = some s ∧
      (observed "ns" (fun _ : Fin 1 => ()) Reader.read).run ⟨s, .fetch .load⟩ loadDuringIndex
        = some t ∧
      ∃ fetched v, t.observer = .done fetched v ∧
        v.docs = replay (t.cluster.shared.log.take fetched.metaOrDefault.walCommitSeq) := by
  have hs := (some_get compactedOnce_isSome).symm
  have hend : ((observed "ns" (fun _ : Fin 1 => ()) Reader.read).run
      ⟨get _ compactedOnce_isSome, .fetch .load⟩ loadDuringIndex).map
      (fun t => t.observer.finished) = some true := by
    decide +kernel
  obtain ⟨t, ht, hfinished⟩ := map_eq_some_iff.mp hend
  refine ⟨_, t, hs, ht, (load_succeeds_iff_on_course (fun _ _ => rfl) (Cluster.init_idle _)
    SoloHeld.empty ?_ hs (show ReadCall.load.Valid _ from trivial) ?_ ht hfinished).mpr ?_⟩
  · decide +kernel
  · decide +kernel
  · decide +kernel

/-- A load or `catch_up` that ends next to one process has seen every commit from
before it began: its documents are those of a prefix of the log that is as long. -/
theorem load_sees_commits {P R : Type} [DecidableEq P] [DecidableEq R] {ns : String} {proc : P → R}
    (hone : ∀ p q, proc p = proc q) {s₀ s : Cluster P R} {before : List (Action P)}
    (hidle : s₀.Idle) (hheld : SoloHeld s₀.shared)
    (happ₀ : (cluster ns proc).Along Cluster.AppendsSucceed s₀ before)
    (hbefore : (cluster ns proc).run s₀ before = some s)
    {call : ReadCall} (hcall : call.Valid s.shared) {as : List (ObservedAction P)}
    {t : Observed P R Reader}
    (happ : (observed ns proc Reader.read).Along Observed.AppendsSucceed ⟨s, .fetch call⟩ as)
    (hrun : (observed ns proc Reader.read).run ⟨s, .fetch call⟩ as = some t)
    {fetched : MetaRead} {v : NamespaceView} (hdone : t.observer = .done fetched v) :
    ∃ k, s.shared.log.length ≤ k ∧ k ≤ t.cluster.shared.log.length ∧
      v.docs = replay (t.cluster.shared.log.take k) := by
  have hinv : SoloInv proc s := hidle.soloInv_of_run hone hheld happ₀ hbefore
  obtain ⟨-, hfacts, -, hsees⟩ := Machine.run_invariant (s := ⟨s, .fetch call⟩)
    (fun _ _ _ h ha hs => observed_step
      (T := fun sh (r : Reader) => r.Facts sh ∧ s.shared.log.length ≤ sh.log.length ∧
        r.Sees s.shared.log.length) hone
      (fun _ _ _ _ _ hadv h => ⟨h.1.advances hadv, h.2.1.trans hadv.log.length_le, h.2.2⟩)
      (fun _ _ _ hheld hread h =>
        ⟨h.1.read hheld hread, h.2.1, h.2.2.read (hheld.length_eq ▸ h.2.1) hread⟩) h ha hs)
    ⟨hinv, hcall, Nat.le_refl _, trivial⟩ happ hrun
  rw [hdone] at hfacts hsees
  exact ⟨_, hsees, hfacts⟩

theorem load_sees_during_index :
    ∃ s t fetched v k,
      (cluster "ns" fun _ : Fin 1 => ()).run (.init .empty) compactedOnce = some s ∧
      (observed "ns" (fun _ : Fin 1 => ()) Reader.read).run ⟨s, .fetch .load⟩ loadDuringIndex
        = some t ∧ t.observer = .done fetched v ∧
      s.shared.log.length ≤ k ∧ v.docs = replay (t.cluster.shared.log.take k) := by
  have hs := (some_get compactedOnce_isSome).symm
  have hend : ((observed "ns" (fun _ : Fin 1 => ()) Reader.read).run
      ⟨get _ compactedOnce_isSome, .fetch .load⟩ loadDuringIndex).map
      (fun t => t.observer.isDone) = some true := by
    decide +kernel
  obtain ⟨t, ht, hdone⟩ := map_eq_some_iff.mp hend
  cases hobs : t.observer with
  | done fetched v =>
    obtain ⟨k, hk, -, hdocs⟩ := load_sees_commits (fun _ _ => rfl) (Cluster.init_idle _)
      SoloHeld.empty (by decide +kernel) hs (show ReadCall.load.Valid _ from trivial)
      (by decide +kernel) ht hobs
    exact ⟨_, t, fetched, v, k, hs, ht, hobs, hk, hdocs⟩
  | _ =>
    rw [hobs] at hdone
    cases hdone

/-- A load fetches the metadata after eleven commits.  Before it reads the first
segment, an index pass and a compaction of the same process run to their end. -/
def loadDuringCompaction : List (ObservedAction (Fin 1)) :=
  (appends (0 : Fin 1) 11).map .run ++
    .read :: (indexPass (0 : Fin 1) ++ compactReads 0 11 ++ compactWrites 0 8).map .run ++ [.read]

theorem compaction_breaks_load :
    (observed "ns" (fun _ : Fin 1 => ()) Reader.read).Along Observed.AppendsSucceed
        ⟨.init .empty, .fetch .load⟩ loadDuringCompaction ∧
      ((observed "ns" (fun _ : Fin 1 => ()) Reader.read).run ⟨.init .empty, .fetch .load⟩
        loadDuringCompaction).map (fun t => t.observer.isFailed) = some true := by
  refine ⟨?_, ?_⟩
  · decide +kernel
  · decide +kernel

end OpenPuffer
