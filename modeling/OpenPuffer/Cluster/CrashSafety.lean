import OpenPuffer.Cluster.Compaction
import OpenPuffer.Cluster.Faults

/-!
# Loading while a compaction is interrupted

A reader starts from the stored snapshot only if `meta.json` records exactly its sequence, and
from segment `1` otherwise.  A compaction stores the snapshot first and records it second.  For
one process, a load at the stored commit point succeeds in every state of a run if and only if
every PUT of a snapshot finds all committed segments in place.
-/

namespace OpenPuffer

open Store

/-- Every committed segment is present. -/
def Store.Full (st : Store) : Prop := ∀ seq ∈ List.range' 1 st.commitSeq, st.wal seq ≠ none

instance (st : Store) : Decidable st.Full :=
  inferInstanceAs (Decidable (∀ seq ∈ List.range' 1 st.commitSeq, st.wal seq ≠ none))

variable {st : Store} {sh : Shared} {t : Task} {ns : String} {r : Reply}
  {built : List (String × Nat)}

theorem Store.full_iff : st.Full ↔ ∀ seq, 1 ≤ seq → seq ≤ st.commitSeq → st.wal seq ≠ none := by
  simp only [Full, List.mem_range'_1]
  constructor
  · exact fun h seq h1 h2 => h seq (by omega)
  · exact fun h seq hmem => h seq (by omega) (by omega)

def Store.storedMeta (st : Store) : NamespaceMeta := MetaRead.metaOrDefault st.metaJson.current

/-- A load with the stored metadata yields the documents at the commit point. -/
def Loads (sh : Shared) : Prop :=
  loadDocsAtWalCommit sh.store sh.store.storedMeta = .ok (replay sh.log, sh.store.commitSeq)

/-- The stored snapshot is the recorded one, and the segments above it are
present. -/
def Store.Recorded (st : Store) : Prop :=
  ∃ snap ∈ st.snapshot, snap.seq = st.storedMeta.walSnapshotSeq ∧ 1 ≤ snap.seq ∧
    ∀ seq, snap.seq < seq → seq ≤ st.commitSeq → st.wal seq ≠ none

/-- What a single process keeps: the snapshot is not ahead of the cursor, and a
reader can start from the recorded snapshot or from the first segment. -/
structure LoadHeld (sh : Shared) : Prop extends SnapshotHeld sh where
  snapshot_le_cursor : ∀ snap ∈ sh.store.snapshot, snap.seq ≤ sh.store.storedMeta.indexCursor
  loadable : sh.store.Full ∨ sh.store.Recorded

/-! ## Loading -/

theorem loadDocs_of_baseline {w : Nat} (h : SnapshotHeld sh)
    (hbase : loadBaseline sh.store sh.store.storedMeta = (replay (sh.log.take w), w))
    (hw : w ≤ sh.store.commitSeq)
    (hheld : ∀ seq, w < seq → seq ≤ sh.store.commitSeq → sh.store.wal seq ≠ none) : Loads sh := by
  have hlen := h.length_eq
  have hcommit : sh.store.storedMeta.walCommitSeq = sh.store.commitSeq := rfl
  have hload := loadDocsAtWalCommit_eq hbase (Nat.lt_of_le_of_lt hw h.lt_max) hw
    (Nat.le_of_eq hlen.symm) (by
      intro seq h1 h2
      rcases h.held seq (by omega) h2 with hnone | heq
      · exact absurd hnone (hheld seq h1 h2)
      · exact heq)
  rw [hcommit, ← hlen, List.take_length, hlen] at hload
  exact hload

theorem LoadHeld.loads (h : LoadHeld sh) : Loads sh := by
  rcases h.loadable with hfull | ⟨snap, hmem, hseq, hpos, habove⟩
  · have hheld : ∀ w seq, w < seq → seq ≤ sh.store.commitSeq → sh.store.wal seq ≠ none :=
      fun w seq h1 h2 => full_iff.mp hfull seq (by omega) h2
    rcases loadBaseline_cases h.snapshot_docs sh.store.storedMeta with
      ⟨snap, hmem, -, hbase⟩ | hbase
    · exact loadDocs_of_baseline h.toSnapshotHeld hbase (h.snapshot_le snap hmem) (hheld _)
    · exact loadDocs_of_baseline h.toSnapshotHeld hbase (Nat.zero_le _) (hheld _)
  · have hbase : loadBaseline sh.store sh.store.storedMeta
        = (replay (sh.log.take snap.seq), snap.seq) := by
      have hstored : sh.store.snapshot = some snap := hmem
      simp only [loadBaseline, Store.reader_snapshot, hstored, ← hseq, if_true,
        WalSnapshot.intoDocs, h.snapshot_docs snap hmem]
      rw [if_pos (by omega)]
    exact loadDocs_of_baseline h.toSnapshotHeld hbase (h.snapshot_le snap hmem) habove

/-- Without the recorded snapshot, a load with a segment missing fails. -/
theorem not_loads (seq : Nat) (h1 : 1 ≤ seq) (h2 : seq ≤ sh.store.commitSeq)
    (hgone : sh.store.wal seq = none)
    (hother : ∀ snap ∈ sh.store.snapshot, snap.seq ≠ sh.store.storedMeta.walSnapshotSeq) :
    ¬ Loads sh := by
  intro hload
  have hbase : loadBaseline sh.store sh.store.storedMeta = (∅, 0) := by
    simp only [loadBaseline]
    split
    · split
      · rename_i snap hsnap
        rw [if_neg (hother snap hsnap)]
      · rfl
    · rfl
  have hcommit : sh.store.storedMeta.walCommitSeq = sh.store.commitSeq := rfl
  have hfrom : walReplayFrom 0 sh.store.commitSeq = some 1 :=
    walReplayFrom_eq_some (by decide) (by omega)
  obtain ⟨msg, hmsg⟩ : ∃ msg, replayWalRange sh.store ∅ 1 sh.store.commitSeq = .error msg :=
    replayWalRange_missing (Nat.le_refl 1) h1 h2 hgone
  simp only [Loads, loadDocsAtWalCommit, hbase, hcommit, hfrom, hmsg] at hload
  cases hload

/-! ## What the holder of the lock knows -/

def Task.isAppend : Task → Bool
  | .appendGet .. | .appendPutWal .. | .appendPutMeta .. | .appendDelete .. => true
  | _ => false

/-- Inside the lock of the only process, what was read is current. -/
def CurrentFacts (sh : Shared) : Task → Prop
  | .indexPutMeta _ _ prep => sh.store.metaJson.current = some prep.read
  | .compactGetSnapshot _ read => sh.store.metaJson.current = some read.found
  | .compactGetWal _ read _ _ => sh.store.metaJson.current = some read.found
  | .compactPutSnapshot _ read _ => sh.store.metaJson.current = some read.found
  | .compactPutMeta _ read =>
    sh.store.metaJson.current = some read.found ∧
      ∃ snap ∈ sh.store.snapshot, snap.seq = read.cursor
  | .compactDelete seqs =>
    sh.store.Recorded ∧ ∀ seq ∈ seqs, seq ≤ sh.store.storedMeta.walSnapshotSeq
  | t => t.isAppend = true → HolderFacts sh t

theorem HolderFacts.currentFacts (h : HolderFacts sh t) : CurrentFacts sh t := by
  cases t with
  | idle | appendGet | appendPutWal | appendPutMeta | appendDelete => exact fun _ => h
  | _ => cases h

theorem CurrentFacts.holderFacts (h : CurrentFacts sh t) (happend : t.isAppend = true) :
    HolderFacts sh t := by
  cases t with
  | appendGet | appendPutWal | appendPutMeta | appendDelete => exact h rfl
  | _ => cases happend

theorem CurrentFacts.of_isFresh (h : t.isFresh = true) : CurrentFacts sh t := by
  cases t with
  | idle | appendGet => exact fun _ => trivial
  | indexGet | indexRecheck | indexLock | indexGetLocked | compactCheck | compactLock
  | compactGet => exact fun h => nomatch h
  | _ => cases h

/-- The reply to an append is truthful, and its counter can still grow. -/
def Cluster.AppendsSucceed {P R : Type} (s : Cluster P R) : Action P → Prop
  | .send p r _ =>
    (s.task p).isAppend = true → r = .ok ∧ s.shared.store.commitSeq + 1 < u64Max
  | _ => True

theorem Reply.spares_ok (hlt : st.commitSeq < u64Max) (t : Task) : Reply.ok.Spares ns st t := by
  cases t with
  | appendGet c attempt tries =>
    intro h
    rw [fetchMeta_ok] at h
    cases hc : st.metaJson.current with
    | none => rfl
    | some found =>
      rw [hc] at h
      cases h
  | appendPutWal c attempt tries read => exact hlt
  | appendPutMeta c attempt prep => exact fun _ _ => rfl
  | _ => trivial

/-! ## Requests of the only process -/

/-- What a request of a task with current facts satisfies, beyond
`Effect.Sound`. -/
def Effect.Tidy (st : Store) : Effect → Prop
  | .commit m _ =>
    m.indexCursor = st.storedMeta.indexCursor ∧
      m.walSnapshotSeq = st.storedMeta.walSnapshotSeq ∧ m.walCommitSeq < u64Max
  | .putMeta m =>
    st.storedMeta.indexCursor ≤ m.indexCursor ∧ m.walCommitSeq = st.commitSeq ∧
      (m.walSnapshotSeq = st.storedMeta.walSnapshotSeq ∨
        ∃ snap ∈ st.snapshot, snap.seq = m.walSnapshotSeq ∧ 1 ≤ snap.seq ∧
          st.commitSeq ≤ snap.seq)
  | .putSnapshot snap =>
    snap.seq = st.storedMeta.indexCursor ∧ st.storedMeta.walSnapshotSeq < snap.seq
  | .deleteWal seq => st.Recorded ∧ seq ≤ st.storedMeta.walSnapshotSeq
  | _ => True

theorem storedMeta_of_current {found : NamespaceMeta × Nat} (h : st.metaJson.current = some found) :
    st.storedMeta = found.1 := by
  rw [storedMeta, h]
  rfl

theorem CurrentFacts.tidy (ht : CurrentFacts sh t)
    (happ : t.isAppend = true → r = .ok ∧ sh.store.commitSeq + 1 < u64Max) :
    (taskStep ns sh.store r built t).effect.Tidy sh.store := by
  refine taskStep_effect_of_writes (Q := Effect.Tidy sh.store) trivial ?_
  intro eff hw
  cases hw with
  | putWal | undoWal => trivial
  | @commit c attempt prep _ =>
    obtain ⟨hread, -, -⟩ := ht rfl
    obtain ⟨-, hlt⟩ := happ rfl
    obtain ⟨hseq, hcursor, hsnap⟩ := metaAfterWalCommitOptions_counters prep.prepared
    have hmeta : sh.store.storedMeta = prep.read.metaOrDefault := by
      rw [storedMeta, hread]
    refine ⟨by rw [hcursor, hmeta], by rw [hsnap, hmeta], ?_⟩
    rw [hseq, nextSeq_of_current hread (by omega)]
    exact hlt
  | @index call attempt prep _ =>
    have hmeta := storedMeta_of_current ht
    obtain ⟨plan, ann, hprep⟩ := prep.prepared
    obtain ⟨hcommit, hidx, hsnap, hlt, -⟩ := metaAfterIndexCommit_counters hprep
    refine ⟨by rw [hmeta]; omega, ?_, Or.inl (by rw [hmeta, hsnap])⟩
    rw [hcommit, commitSeq_of_current ht]
  | @putSnapshot attempt read docs =>
    obtain ⟨-, -, -, hlt⟩ := needsWalCompaction_iff.mp read.needed
    have hmeta := storedMeta_of_current ht
    refine ⟨?_, ?_⟩
    · rw [hmeta]
      rfl
    · rw [hmeta]
      exact hlt
  | @compact attempt read _ =>
    obtain ⟨hread, snap, hmem, hseq⟩ := ht
    obtain ⟨hcaught, -, hpos, -⟩ := needsWalCompaction_iff.mp read.needed
    have hcommit := commitSeq_of_current hread
    refine ⟨?_, hcommit.symm, Or.inr ⟨snap, hmem, hseq, ?_, ?_⟩⟩
    · rw [storedMeta_of_current hread]
      exact Nat.le_refl _
    · rw [hseq]
      exact Nat.one_le_of_lt hpos
    · rw [hseq, hcommit]
      exact hcaught
  | deleteWal => exact ⟨ht.1, ht.2 _ List.mem_cons_self⟩

theorem CurrentFacts.keeps (ht : CurrentFacts sh t)
    (happ : t.isAppend = true → r = .ok ∧ sh.store.commitSeq + 1 < u64Max) :
    (taskStep ns sh.store r built t).effect.Keeps sh.store := by
  cases t with
  | appendGet | appendPutWal | appendPutMeta | appendDelete =>
    obtain ⟨rfl, hlt⟩ := happ rfl
    exact HolderFacts.keeps (ht rfl) (Reply.spares_ok (by omega) _)
  | _ =>
    refine taskStep_effect_of_writes (Q := Effect.Keeps sh.store) trivial ?_
    intro eff hw
    cases hw <;> trivial

def Store.SnapshotLeCursor (st : Store) : Prop :=
  ∀ snap ∈ st.snapshot, snap.seq ≤ st.storedMeta.indexCursor

/-- The snapshots of one process get newer. -/
theorem Effect.Tidy.keepsSnapshot {eff : Effect} (h : st.SnapshotLeCursor) (htidy : eff.Tidy st) :
    eff.KeepsSnapshot st := by
  cases eff with
  | putSnapshot snap =>
    intro old hmem
    have hle := h old hmem
    rw [htidy.1]
    exact hle
  | commit m e => exact htidy.2.2
  | _ => trivial

theorem Effect.Tidy.snapshotLeCursor {eff : Effect} (h : st.SnapshotLeCursor)
    (htidy : eff.Tidy st) : (st.apply eff).SnapshotLeCursor := by
  cases eff with
  | commit m e =>
    intro snap hmem
    exact (h snap hmem).trans (Nat.le_of_eq htidy.1.symm)
  | putMeta m =>
    intro snap hmem
    exact (h snap hmem).trans htidy.1
  | putSnapshot snap =>
    rintro _ ⟨⟩
    exact Nat.le_of_eq htidy.1
  | none | putWal | undoWal | deleteWal => exact h

/-- A snapshot is stored only while every committed segment is present. -/
def Effect.OnFullLog (st : Store) : Effect → Prop
  | .putSnapshot _ => st.Full
  | _ => True

instance (st : Store) (eff : Effect) : Decidable (eff.OnFullLog st) :=
  match eff with
  | .putSnapshot _ => inferInstanceAs (Decidable st.Full)
  | .none | .putWal .. | .undoWal _ | .commit .. | .putMeta _ | .deleteWal _ => isTrue trivial

/-- A change of a segment above the commit point does not matter to readers. -/
theorem loadable_setWal {seq : Nat} {e : Option WalEntry} (h : st.Full ∨ st.Recorded)
    (hcase : st.commitSeq < seq ∨ e ≠ none) :
    (st.setWal seq e).Full ∨ (st.setWal seq e).Recorded := by
  have hkeep : ∀ k, k ≤ st.commitSeq → st.wal k ≠ none → (st.setWal seq e).wal k ≠ none := by
    intro k hk hne
    rw [wal_setWal]
    split
    · rename_i hks
      rcases hcase with hlt | hsome
      · omega
      · exact hsome
    · exact hne
  rcases h with hfull | ⟨snap, hmem, hseq, hpos, habove⟩
  · refine Or.inl (full_iff.mpr ?_)
    exact fun k h1 h2 => hkeep k h2 (full_iff.mp hfull k h1 h2)
  · exact Or.inr ⟨snap, hmem, hseq, hpos, fun k h1 h2 => hkeep k h2 (habove k h1 h2)⟩

/-- Deleting a segment below the recorded snapshot does not matter either. -/
theorem Store.Recorded.deleteWal {seq : Nat} (h : st.Recorded)
    (hle : seq ≤ st.storedMeta.walSnapshotSeq) : (st.setWal seq none).Recorded := by
  obtain ⟨snap, hmem, hseq, hpos, habove⟩ := h
  refine ⟨snap, hmem, hseq, hpos, ?_⟩
  intro k h1 h2
  rw [wal_setWal, if_neg (by omega)]
  exact habove k h1 h2

/-- A commit adds a segment that is present. -/
theorem loadable_commit {m : NamespaceMeta} {e : WalEntry} (h : sh.store.Full ∨ sh.store.Recorded)
    (hsound : (Effect.commit m e).Sound sh) (hk : (Effect.commit m e).Keeps sh.store)
    (htidy : (Effect.commit m e).Tidy sh.store) :
    (sh.store.putMeta m).Full ∨ (sh.store.putMeta m).Recorded := by
  have hlast := hk.walCommitSeq_eq hsound.1
  have hnew : ∀ k, k ≤ m.walCommitSeq → (k ≤ sh.store.commitSeq → sh.store.wal k ≠ none) →
      sh.store.wal k ≠ none := by
    intro k hle hold
    rcases Nat.lt_or_ge sh.store.commitSeq k with hlt | hle
    · obtain rfl : k = m.walCommitSeq := by omega
      rw [hk.2]
      exact Option.some_ne_none e
    · exact hold hle
  rcases h with hfull | ⟨snap, hmem, hseq, hpos, habove⟩
  · refine Or.inl (full_iff.mpr ?_)
    exact fun k h1 h2 => hnew k h2 fun hle => full_iff.mp hfull k h1 hle
  · exact Or.inr ⟨snap, hmem, hseq.trans htidy.2.1.symm, hpos,
      fun k h1 h2 => hnew k h2 fun hle => habove k h1 hle⟩

/-- New metadata records the same snapshot, or a stored one that covers the log. -/
theorem loadable_putMeta {m : NamespaceMeta} (h : st.Full ∨ st.Recorded)
    (htidy : (Effect.putMeta m).Tidy st) : (st.putMeta m).Full ∨ (st.putMeta m).Recorded := by
  obtain ⟨-, hcommit, hcase⟩ := htidy
  have hcommit' : (st.putMeta m).commitSeq = st.commitSeq := hcommit
  rcases hcase with hsame | ⟨snap, hmem, hseq, hpos, hcaught⟩
  · rcases h with hfull | ⟨snap, hmem, hseq, hpos, habove⟩
    · refine Or.inl (full_iff.mpr ?_)
      intro k h1 h2
      exact full_iff.mp hfull k h1 (hcommit' ▸ h2)
    · refine Or.inr ⟨snap, hmem, hseq.trans hsame.symm, hpos, ?_⟩
      intro k h1 h2
      exact habove k h1 (hcommit' ▸ h2)
  · refine Or.inr ⟨snap, hmem, hseq, hpos, ?_⟩
    omega

theorem LoadHeld.after {o : Outcome} (h : LoadHeld sh) (hsound : o.effect.Sound sh)
    (hkeeps : o.effect.Keeps sh.store) (htidy : o.effect.Tidy sh.store)
    (hfull : o.effect.OnFullLog sh.store) : LoadHeld (sh.after o) := by
  have hheld := h.toSnapshotHeld.after hsound hkeeps (htidy.keepsSnapshot h.snapshot_le_cursor)
  refine ⟨hheld, htidy.snapshotLeCursor h.snapshot_le_cursor, ?_⟩
  change (sh.store.apply o.effect).Full ∨ (sh.store.apply o.effect).Recorded
  revert hsound hkeeps htidy hfull
  cases o.effect with
  | none => exact fun _ _ _ _ => h.loadable
  | putWal seq e =>
    exact fun _ _ _ _ => loadable_setWal h.loadable (Or.inr (Option.some_ne_none e))
  | undoWal seq => exact fun _ hkeeps _ _ => loadable_setWal h.loadable (Or.inl hkeeps)
  | commit m e =>
    exact fun hsound hkeeps htidy _ => loadable_commit h.loadable hsound hkeeps htidy
  | putMeta m => exact fun _ _ htidy _ => loadable_putMeta h.loadable htidy
  | putSnapshot snap => exact fun _ _ _ hfull => Or.inl hfull
  | deleteWal seq => exact fun _ _ htidy _ => Or.inr (htidy.1.deleteWal htidy.2)

/-- A task that does not write leaves the objects as they are. -/
theorem Shared.store_after_read (h : ∀ eff, ¬ t.Writes sh.store eff) :
    (sh.after (taskStep ns sh.store r built t)).store = sh.store :=
  taskStep_effect_of_writes (Q := fun eff => sh.store.apply eff = sh.store) rfl
    fun eff hw => absurd hw (h eff)

/-- What the holder knows depends on the objects only. -/
theorem CurrentFacts.congr {sh' : Shared} (hstore : sh'.store = sh.store) (h : CurrentFacts sh t) :
    CurrentFacts sh' t := by
  cases t <;> simpa only [CurrentFacts, HolderFacts, hstore] using h

theorem CurrentFacts.compactReplay {attempt : Nat} {read : CompactionRead} {docs : DocMap}
    {seq : Nat} (h : sh.store.metaJson.current = some read.found) :
    CurrentFacts sh (compactReplay attempt read docs seq) := by
  unfold OpenPuffer.compactReplay
  split
  · exact h
  · exact h

theorem CurrentFacts.after (ht : CurrentFacts sh t)
    (happ : t.isAppend = true → r = .ok ∧ sh.store.commitSeq + 1 < u64Max) :
    CurrentFacts (sh.after (taskStep ns sh.store r built t))
      (taskStep ns sh.store r built t).task := by
  by_cases happend : t.isAppend = true
  · obtain ⟨rfl, hlt⟩ := happ happend
    have hholder := CurrentFacts.holderFacts ht happend
    exact (HolderFacts.after hholder (Reply.spares_ok (by omega) _)).currentFacts
  have hnext := taskStep_next ns sh.store r built t
  generalize (taskStep ns sh.store r built t).task = t' at hnext ⊢
  cases hnext with
  | fresh hfresh => exact CurrentFacts.of_isFresh hfresh
  | appendRead | putAgain | prepared | conflict => exact absurd rfl happend
  | indexPrepared hf =>
    exact CurrentFacts.congr (Shared.store_after_read fun _ hw => nomatch hw)
      (fetchMeta_eq_some hf)
  | compactRead hf =>
    exact CurrentFacts.congr (Shared.store_after_read fun _ hw => nomatch hw)
      (fetchMeta_eq_some hf)
  | snapshotRead =>
    exact CurrentFacts.congr (Shared.store_after_read fun _ hw => nomatch hw)
      (CurrentFacts.compactReplay ht)
  | walRead =>
    exact CurrentFacts.congr (Shared.store_after_read fun _ hw => nomatch hw)
      (CurrentFacts.compactReplay ht)
  | @snapshotStored attempt read docs hr =>
    subst hr
    exact ⟨ht, .fromDocs read.cursor docs, rfl, rfl⟩
  | @cursorStored attempt read hr hhit =>
    subst hr
    obtain ⟨-, snap, hmem, hseq⟩ := ht
    obtain ⟨hcaught, -, hpos, -⟩ := needsWalCompaction_iff.mp read.needed
    have hstore : (sh.after (taskStep ns sh.store .ok built (.compactPutMeta attempt read))).store
        = sh.store.putMeta read.newMeta := by
      simp [Shared.after, taskStep, hhit, Reply.applied, Effect.onlyIf, apply]
    simp only [CurrentFacts, hstore]
    refine ⟨⟨snap, hmem, hseq, ?_, ?_⟩, ?_⟩
    · rw [hseq]
      exact Nat.one_le_of_lt hpos
    · intro k h1 h2
      have h2' : k ≤ read.found.1.walCommitSeq := h2
      rw [hseq, CompactionRead.cursor] at h1
      omega
    · intro k hk
      have hmem := mem_walSeqsToDelete hk
      change k ≤ read.cursor
      omega
  | @deleted seq rest =>
    obtain ⟨hrec, hle⟩ := ht
    have hrest : ∀ k ∈ rest, k ≤ sh.store.storedMeta.walSnapshotSeq :=
      fun k hk => hle k (List.mem_cons_of_mem seq hk)
    simp only [taskStep, Effect.onlyIf]
    split
    · exact ⟨hrec.deleteWal (hle seq List.mem_cons_self), hrest⟩
    · exact ⟨hrec, hrest⟩

/-! ## Runs -/

section Runs

variable {P R : Type} [DecidableEq P] [DecidableEq R] {ns : String} {proc : P → R}

variable {s s' : Cluster P R} {a : Action P}

/-- A step of one process whose appends succeed keeps what its tasks know.  An
invariant of the objects has to survive the requests that such a process sends. -/
theorem step_invariant_of_current {I : Shared → Prop} (hone : ∀ p q, proc p = proc q)
    (ha : s.AppendsSucceed a) (hstep : (cluster ns proc).step s a = some s') (hl : s.Locked proc)
    (hheld : SnapshotHeld s.shared) (hcursor : s.shared.store.SnapshotLeCursor)
    (hfacts : ∀ p, CompactFacts s.shared (s.task p) ∧ CurrentFacts s.shared (s.task p))
    (hI : I s.shared) (hafter : ∀ p r built, a = .send p r built →
      let o := taskStep ns s.shared.store r built (s.task p)
      o.effect.Sound s.shared → o.effect.Keeps s.shared.store → o.effect.Tidy s.shared.store →
        I (s.shared.after o)) :
    s'.Locked proc ∧ I s'.shared ∧
      ∀ p, CompactFacts s'.shared (s'.task p) ∧ CurrentFacts s'.shared (s'.task p) := by
  have hfresh : ∀ sh t, Task.isFresh t = true → CompactFacts sh t ∧ CurrentFacts sh t :=
    fun sh t ht => ⟨CompactFacts.of_isFresh ht, CurrentFacts.of_isFresh ht⟩
  refine step_invariant_of_one_process (T := fun sh t => CompactFacts sh t ∧ CurrentFacts sh t)
    hone hstep hl hI hfacts (fun t ht => hfresh _ t ht.isFresh)
    (fun sh sh' t hout _ => hfresh sh' t (Task.isFresh_of_not_holdsLock hout)) ?_
  rintro p r built rfl -
  obtain ⟨hcompact, hcurrent⟩ := hfacts p
  have htidy : (taskStep ns s.shared.store r built (s.task p)).effect.Tidy s.shared.store :=
    hcurrent.tidy ha
  exact ⟨hafter p r built rfl (hcompact.sound hheld) (hcurrent.keeps ha) htidy,
    hcompact.after hheld (htidy.keepsSnapshot hcursor), hcurrent.after ha⟩

/-- What holds between the steps of a guarded run of one process. -/
structure CrashInv (proc : P → R) (s : Cluster P R) : Prop where
  locked : s.Locked proc
  held : LoadHeld s.shared
  facts : ∀ p, CompactFacts s.shared (s.task p) ∧ CurrentFacts s.shared (s.task p)

theorem CrashInv.step (hone : ∀ p q, proc p = proc q) (h : CrashInv proc s)
    (ha : s.AppendsSucceed a) (hfull : (s.effect ns a).OnFullLog s.shared.store)
    (hstep : (cluster ns proc).step s a = some s') : CrashInv proc s' := by
  obtain ⟨hl, hheld, hfacts⟩ := step_invariant_of_current (I := LoadHeld) hone ha hstep h.locked
    h.held.toSnapshotHeld h.held.snapshot_le_cursor h.facts h.held (by
      rintro p r built rfl o hsound hkeeps htidy
      exact h.held.after hsound hkeeps htidy hfull)
  exact ⟨hl, hheld, hfacts⟩

/-- A snapshot stored over an incomplete log makes the next load fail. -/
theorem CrashInv.onFullLog (h : CrashInv proc s) (ha : s.AppendsSucceed a)
    (hstep : (cluster ns proc).step s a = some s') (hload : Loads s'.shared) :
    (s.effect ns a).OnFullLog s.shared.store := by
  cases a with
  | send p r built =>
    obtain ⟨o, ho, -, rfl⟩ := step_eq_some hstep
    rcases outcome_cases ho with ⟨p', r', built', heq, -, rfl⟩ | ⟨t, -, hmove⟩
    · cases heq
      have htidy : (taskStep ns s.shared.store r built (s.task p)).effect.Tidy s.shared.store :=
        (h.facts p).2.tidy ha
      change (taskStep ns s.shared.store r built (s.task p)).effect.OnFullLog s.shared.store
      cases heff : (taskStep ns s.shared.store r built (s.task p)).effect with
      | putSnapshot snap =>
        rw [heff] at htidy
        refine full_iff.mpr ?_
        intro seq h1 h2 hgone
        have hshared : (s.after proc p
            (taskStep ns s.shared.store r built (s.task p))).shared.store
            = { s.shared.store with snapshot := some snap } := by
          simp only [Cluster.after, Shared.after, heff, apply]
        refine not_loads seq h1 ?_ ?_ ?_ hload
        · rw [Action.thread, hshared]
          exact h2
        · rw [Action.thread, hshared]
          exact hgone
        · rw [Action.thread, hshared]
          rintro _ ⟨⟩
          exact Nat.ne_of_gt htidy.2
      | _ => trivial
    · cases hmove
  | _ => trivial

/-- In a run of one process whose appends succeed, a load with the stored
metadata yields the documents at the commit point in every state exactly if
every snapshot is stored while all committed segments are present. -/
theorem loads_iff_snapshots_on_full_log (hone : ∀ p q, proc p = proc q) {s t : Cluster P R}
    {as : List (Action P)} (hidle : s.Idle) (hheld : LoadHeld s.shared)
    (happ : (cluster ns proc).Along Cluster.AppendsSucceed s as)
    (hr : (cluster ns proc).run s as = some t) :
    (∀ u, (cluster ns proc).Visits s as u → Loads u.shared) ↔
      (cluster ns proc).Along (fun v a => (v.effect ns a).OnFullLog v.shared.store) s as := by
  have hinv : CrashInv proc s := by
    refine ⟨hidle.locked, hheld, ?_⟩
    intro p
    rw [hidle.1 p]
    exact ⟨CompactFacts.of_isFresh rfl, CurrentFacts.of_isFresh rfl⟩
  exact Machine.along_iff (I := CrashInv proc) (fun u hu => hu.held.loads)
    (fun u a u' hu ha hg hs => hu.step hone ha hg hs)
    (fun u a u' hu ha hs hl => hu.onFullLog ha hs hl) hinv happ hr

end Runs

theorem LoadHeld.empty : LoadHeld .empty := by
  refine ⟨SnapshotHeld.empty, ?_, Or.inl (by decide)⟩
  rintro _ ⟨⟩

instance {P R : Type} (s : Cluster P R) (a : Action P) : Decidable (s.AppendsSucceed a) :=
  match a with
  | .send p r _ =>
    match r with
    | .ok => decidable_of_iff ((s.task p).isAppend = true → s.shared.store.commitSeq + 1 < u64Max)
        (by simp [Cluster.AppendsSucceed])
    | .error .. => decidable_of_iff (¬ (s.task p).isAppend = true)
        (by simp [Cluster.AppendsSucceed])
  | .start .. | .acquire _ | .stop _ => isTrue trivial

/-- The first compaction stops between its snapshot and its commit, and a second
one completes it. -/
def interruptedOnce : List (Action (Fin 1)) :=
  appends 0 11 ++ indexPass 0 ++ compactReads 0 11 ++ sends 0 1 ++
    .stop 0 :: .start 0 .compact :: compactReads 0 0 ++ compactWrites 0 8

theorem interruptedOnce_loads :
    ∃ u, (cluster "ns" fun _ : Fin 1 => ()).run (.init .empty) interruptedOnce = some u ∧
      u.shared.store.wal 8 = none ∧ Loads u.shared := by
  obtain ⟨u, hu, hwal⟩ : ∃ u, (cluster "ns" fun _ : Fin 1 => ()).run (.init .empty) interruptedOnce
      = some u ∧ u.shared.store.wal 8 = none := by
    decide +kernel
  refine ⟨u, hu, hwal, (loads_iff_snapshots_on_full_log (fun _ _ => rfl) (Cluster.init_idle _)
    LoadHeld.empty ?_ hu).mpr ?_ u (Machine.visits_end hu)⟩
  · decide +kernel
  · decide +kernel

/-- After a complete compaction and one more commit, the next compaction stops
between its snapshot and its commit. -/
def interruptedTwice : List (Action (Fin 1)) :=
  compactOnce 0 ++ appends 0 1 ++ indexPass 0 ++ compactReads 0 1 ++ sends 0 1 ++ [.stop 0]

theorem interruptedTwice_breaks_load :
    (cluster "ns" fun _ : Fin 1 => ()).Along Cluster.AppendsSucceed (.init .empty)
        interruptedTwice ∧
      ∃ u, (cluster "ns" fun _ : Fin 1 => ()).run (.init .empty) interruptedTwice = some u ∧
        ¬ Loads u.shared := by
  refine ⟨by decide +kernel, ?_⟩
  obtain ⟨u, hu, hfail⟩ : ∃ u, (cluster "ns" fun _ : Fin 1 => ()).run (.init .empty)
      interruptedTwice = some u ∧
        (loadDocsAtWalCommit u.shared.store u.shared.store.storedMeta).isOk = false := by
    decide +kernel
  refine ⟨u, hu, ?_⟩
  intro hload
  rw [hload] at hfail
  cases hfail

end OpenPuffer
