import OpenPuffer.Cluster.Durability

/-!
# Compaction by several processes

A compaction stores a snapshot of the log up to the index cursor and then deletes the segments
below it.  The PUT of the snapshot carries no condition, so a slow compactor can replace a
newer snapshot by an older one after the segments between the two are gone.  When no PUT does
that (`Effect.KeepsSnapshot`), the snapshot and the remaining segments always determine the
documents.
-/

namespace OpenPuffer

open List Store

/-- No snapshot is replaced by an older one, and the counter stays below its
maximum. -/
def Effect.KeepsSnapshot (st : Store) : Effect → Prop
  | .putSnapshot snap => ∀ old ∈ st.snapshot, old.seq ≤ snap.seq
  | .commit m _ => m.walCommitSeq < u64Max
  | _ => True

instance (st : Store) (eff : Effect) : Decidable (eff.KeepsSnapshot st) :=
  match eff with
  | .putSnapshot _ => inferInstanceAs (Decidable (∀ old ∈ st.snapshot, _))
  | .commit _ _ => inferInstanceAs (Decidable (_ < _))
  | .none | .putWal .. | .undoWal _ | .putMeta _ | .deleteWal _ => isTrue trivial

def Store.Covers (st : Store) (seq : Nat) : Prop := ∃ snap ∈ st.snapshot, seq ≤ snap.seq

/-- The snapshot and the segments agree with the log, and the snapshot covers
every segment that is gone. -/
structure SnapshotHeld (sh : Shared) : Prop where
  length_eq : sh.log.length = sh.store.commitSeq
  lt_max : sh.store.commitSeq < u64Max
  held : ∀ seq, 1 ≤ seq → seq ≤ sh.store.commitSeq →
    sh.store.wal seq = none ∨ sh.store.wal seq = entryAt sh.log seq
  snapshot_le : ∀ snap ∈ sh.store.snapshot, snap.seq ≤ sh.store.commitSeq
  snapshot_docs : ∀ snap ∈ sh.store.snapshot, snap.docs = replay (sh.log.take snap.seq)
  covered : ∀ seq, 1 ≤ seq → seq ≤ sh.store.commitSeq → sh.store.wal seq = none →
    sh.store.Covers seq
  cursor_le : (MetaRead.metaOrDefault sh.store.metaJson.current).indexCursor ≤ sh.store.commitSeq

/-! ## The documents are determined -/

variable {sh : Shared} {t : Task} {ns : String} {r : Reply}

/-- Segments above the snapshot are present. -/
theorem SnapshotHeld.held_above (h : SnapshotHeld sh) {seq : Nat} (h1 : 1 ≤ seq)
    (h2 : seq ≤ sh.store.commitSeq) (habove : ∀ snap ∈ sh.store.snapshot, snap.seq < seq) :
    sh.store.wal seq = entryAt sh.log seq := by
  rcases h.held seq h1 h2 with hnone | heq
  · obtain ⟨snap, hmem, hle⟩ := h.covered seq h1 h2 hnone
    have := habove snap hmem
    omega
  · exact heq

theorem SnapshotHeld.docsAtIndexCursor_eq (h : SnapshotHeld sh) :
    docsAtIndexCursor sh.store sh.store.commitSeq = .ok (replay sh.log) := by
  have hlen := h.length_eq
  have hmax := h.lt_max
  rcases Nat.eq_zero_or_pos sh.store.commitSeq with hzero | hpos
  · rw [length_eq_zero_iff.mp (hlen.trans hzero), docsAtIndexCursor, if_pos hzero]
    rfl
  · cases hsnap : sh.store.snapshot with
    | none =>
      have hbase : cursorBaseline sh.store.snapshot sh.store.commitSeq = (∅, 1) := by
        rw [hsnap]
        rfl
      have hrange : replayWalRange sh.store (replay (sh.log.take 0)) (0 + 1) sh.store.commitSeq
          = .ok (replay (sh.log.take sh.store.commitSeq)) := by
        refine replayWalRange_from hpos (Nat.le_of_eq hlen.symm) ?_
        intro seq h1 h2
        exact h.held_above (by omega) h2 (by simp [hsnap])
      rw [docsAtIndexCursor_of_baseline (by omega) hbase, if_pos (by omega)]
      rw [← hlen, take_length, hlen] at hrange
      exact hrange
    | some snap =>
      have hle := h.snapshot_le snap hsnap
      have hbase : cursorBaseline sh.store.snapshot sh.store.commitSeq
          = (replay (sh.log.take snap.seq), snap.seq + 1) := by
        rw [hsnap, cursorBaseline, if_pos hle, WalSnapshot.intoDocs, h.snapshot_docs snap hsnap,
          saturatingAdd_one_of_lt (by omega)]
      rw [docsAtIndexCursor_of_baseline (by omega) hbase]
      split
      · rw [replayWalRange_from (by omega) (Nat.le_of_eq hlen.symm), ← hlen, take_length]
        intro seq h1 h2
        refine h.held_above (by omega) h2 ?_
        intro snap' hmem
        rw [hsnap] at hmem
        cases hmem
        omega
      · rw [take_of_length_le (by omega)]

/-! ## What the tasks know -/

/-- The shared part only grows: reads stay reads, the log gets longer and the
snapshot newer. -/
structure Shared.Extends (sh sh' : Shared) : Prop where
  seen : ∀ read, sh.store.metaJson.Seen read → sh'.store.metaJson.Seen read
  log : sh.log <+: sh'.log
  covers : ∀ seq, sh.store.Covers seq → sh'.store.Covers seq

/-- A compaction works on metadata it read, whose cursor the log has reached. -/
def CompactionRead.Valid (sh : Shared) (read : CompactionRead) : Prop :=
  sh.store.metaJson.Seen (some read.found) ∧ read.cursor ≤ sh.log.length

def CompactFacts (sh : Shared) : Task → Prop
  | .appendPutWal _ _ _ read => sh.store.metaJson.Seen read
  | .appendPutMeta _ _ prep => sh.store.metaJson.Seen prep.read
  | .indexPutMeta _ _ prep => sh.store.metaJson.Seen (some prep.read)
  | .compactGetSnapshot _ read => read.Valid sh
  | .compactGetWal _ read docs seq =>
    read.Valid sh ∧ 1 ≤ seq ∧ seq ≤ read.cursor ∧ docs = replay (sh.log.take (seq - 1))
  | .compactPutSnapshot _ read docs => read.Valid sh ∧ docs = replay (sh.log.take read.cursor)
  | .compactPutMeta _ read => read.Valid sh ∧ sh.store.Covers read.cursor
  | .compactDelete seqs => ∀ seq ∈ seqs, sh.store.Covers seq
  | _ => True

theorem CompactFacts.of_isFresh (h : t.isFresh = true) : CompactFacts sh t := by
  cases t <;> trivial

theorem take_of_extends {log log' : List WalEntry} (h : log <+: log') {n : Nat}
    (hn : n ≤ log.length) : log'.take n = log.take n := by
  obtain ⟨more, rfl⟩ := h
  exact take_append_of_le_length hn

theorem CompactionRead.Valid.mono {sh' : Shared} {read : CompactionRead} (hext : sh.Extends sh')
    (h : read.Valid sh) : read.Valid sh' :=
  ⟨hext.seen _ h.1, Nat.le_trans h.2 hext.log.length_le⟩

theorem CompactFacts.mono {sh' : Shared} (hext : sh.Extends sh') (h : CompactFacts sh t) :
    CompactFacts sh' t := by
  cases t with
  | appendPutWal c attempt tries read => exact hext.seen _ h
  | appendPutMeta c attempt prep => exact hext.seen _ h
  | indexPutMeta call attempt prep => exact hext.seen _ h
  | compactGetSnapshot attempt read => exact CompactionRead.Valid.mono hext h
  | compactGetWal attempt read docs seq =>
    obtain ⟨hvalid, h1, h2, hdocs⟩ := h
    have hle := hvalid.2
    refine ⟨hvalid.mono hext, h1, h2, ?_⟩
    rw [take_of_extends hext.log (by omega), hdocs]
  | compactPutSnapshot attempt read docs =>
    obtain ⟨hvalid, hdocs⟩ := h
    refine ⟨hvalid.mono hext, ?_⟩
    rw [take_of_extends hext.log hvalid.2, hdocs]
  | compactPutMeta attempt read => exact ⟨h.1.mono hext, hext.covers _ h.2⟩
  | compactDelete seqs => exact fun seq hmem => hext.covers _ (h seq hmem)
  | _ => trivial

/-- A request extends the shared part, unless it stores an older snapshot. -/
theorem Shared.extends_after {o : Outcome} (hk : o.effect.KeepsSnapshot sh.store) :
    sh.Extends (sh.after o) where
  seen := fun read h => Seen_apply h
  log := prefix_append _ _
  covers := by
    rintro seq ⟨snap, hmem, hle⟩
    cases heff : o.effect with
    | putSnapshot new =>
      simp only [heff] at hk
      refine ⟨new, ?_, Nat.le_trans hle (hk snap hmem)⟩
      simp [Shared.after, heff, apply]
    | _ =>
      refine ⟨snap, ?_, hle⟩
      simpa [Shared.after, heff, apply, setWal, putMeta] using hmem

/-! ## What a request does -/

/-- What the requests of tasks that know their facts satisfy. -/
def Effect.Sound (sh : Shared) : Effect → Prop
  | .none => True
  | .putWal .. => True
  | .undoWal _ => True
  | .commit m _ =>
    m.walCommitSeq = saturatingAdd sh.store.commitSeq 1 ∧ m.indexCursor ≤ sh.store.commitSeq
  | .putMeta m => m.walCommitSeq = sh.store.commitSeq ∧ m.indexCursor ≤ sh.store.commitSeq
  | .putSnapshot snap =>
    snap.seq ≤ sh.store.commitSeq ∧ snap.docs = replay (sh.log.take snap.seq)
  | .deleteWal seq => sh.store.Covers seq

theorem commitSeq_of_current {st : Store} {found : NamespaceMeta × Nat}
    (h : st.metaJson.current = some found) : st.commitSeq = found.1.walCommitSeq := by
  rw [commitSeq, h]
  rfl

theorem CompactFacts.sound {built : List (String × Nat)} (hI : SnapshotHeld sh)
    (ht : CompactFacts sh t) : (taskStep ns sh.store r built t).effect.Sound sh := by
  have hcursor := hI.cursor_le
  have hlen := hI.length_eq
  refine taskStep_effect_of_writes (Q := Effect.Sound sh) trivial ?_
  intro eff hw
  cases hw with
  | putWal | undoWal => trivial
  | @commit c attempt prep hhit =>
    have hcur : sh.store.metaJson.current = prep.read := Cell.Seen.eq_of_matches ht hhit
    obtain ⟨-, hidx, -⟩ := metaAfterWalCommitOptions_counters prep.prepared
    refine ⟨prep.walCommitSeq_eq ht hhit, ?_⟩
    rw [hidx, ← hcur]
    exact hcursor
  | @index call attempt prep hhit =>
    have hstored := commitSeq_of_current (Cell.Seen.eq_of_matches ht hhit)
    obtain ⟨plan, ann, hprep⟩ := prep.prepared
    obtain ⟨hcommit, hidx, -, -, hle⟩ := metaAfterIndexCommit_counters hprep
    exact ⟨hcommit.trans hstored.symm, by omega⟩
  | putSnapshot =>
    obtain ⟨hvalid, hdocs⟩ := ht
    exact ⟨by rw [← hlen]; exact hvalid.2, hdocs⟩
  | compact hhit =>
    obtain ⟨hvalid, -⟩ := ht
    have hstored := commitSeq_of_current (Cell.Seen.eq_of_matches hvalid.1 hhit)
    exact ⟨hstored.symm, by rw [← hlen]; exact hvalid.2⟩
  | deleteWal => exact ht _ mem_cons_self

section

variable (h : SnapshotHeld sh)

include h

/-- The part of the invariant about segments is kept by a change of segments
that only touches sequences above the commit point or covered ones. -/
theorem SnapshotHeld.setWal {seq : Nat} {e : Option WalEntry}
    (hcase : sh.store.commitSeq < seq ∨ (e ≠ none ∧ sh.store.wal seq = e) ∨
      (e = none ∧ sh.store.Covers seq)) :
    SnapshotHeld { sh with store := sh.store.setWal seq e } where
  length_eq := h.length_eq
  lt_max := h.lt_max
  held := by
    intro k h1 h2
    have h2' : k ≤ sh.store.commitSeq := h2
    simp only [wal_setWal]
    split
    · rename_i hk
      subst hk
      rcases hcase with hlt | ⟨-, hsame⟩ | ⟨hnone, -⟩
      · omega
      · rw [← hsame]
        exact h.held k h1 h2'
      · exact Or.inl hnone
    · exact h.held k h1 h2'
  snapshot_le := h.snapshot_le
  snapshot_docs := h.snapshot_docs
  covered := by
    intro k h1 h2 hgone
    have h2' : k ≤ sh.store.commitSeq := h2
    simp only [wal_setWal] at hgone
    split at hgone
    · rename_i hk
      subst hk
      rcases hcase with hlt | ⟨hne, -⟩ | ⟨-, hcov⟩
      · omega
      · exact absurd hgone hne
      · exact hcov
    · exact h.covered k h1 h2' hgone
  cursor_le := h.cursor_le

/-- New metadata with the same commit point. -/
theorem SnapshotHeld.putMeta {m : NamespaceMeta}
    (hcommit : m.walCommitSeq = sh.store.commitSeq) (hcursor : m.indexCursor ≤ sh.store.commitSeq) :
    SnapshotHeld { sh with store := sh.store.putMeta m } := by
  have hseq : (sh.store.putMeta m).commitSeq = sh.store.commitSeq := hcommit
  refine ⟨?_, ?_, ?_, ?_, h.snapshot_docs, ?_, ?_⟩
  · rw [hseq]
    exact h.length_eq
  · rw [hseq]
    exact h.lt_max
  · rw [hseq]
    exact h.held
  · rw [hseq]
    exact h.snapshot_le
  · rw [hseq]
    exact h.covered
  · rw [hseq]
    exact hcursor

/-- A snapshot of the log that covers what the stored one covers. -/
theorem SnapshotHeld.putSnapshot {snap : WalSnapshot}
    (hsound : (Effect.putSnapshot snap).Sound sh)
    (hnewer : (Effect.putSnapshot snap).KeepsSnapshot sh.store) :
    SnapshotHeld { sh with store := { sh.store with snapshot := some snap } } := by
  refine ⟨h.length_eq, h.lt_max, h.held, ?_, ?_, ?_, h.cursor_le⟩
  · rintro _ ⟨⟩
    exact hsound.1
  · rintro _ ⟨⟩
    exact hsound.2
  · intro seq h1 h2 hgone
    obtain ⟨old, hmem, hle⟩ := h.covered seq h1 h2 hgone
    exact ⟨snap, rfl, Nat.le_trans hle (hnewer old hmem)⟩

/-- A commit of the entry that its segment holds. -/
theorem SnapshotHeld.commit {m : NamespaceMeta} {e : WalEntry}
    (hsound : (Effect.commit m e).Sound sh) (hk : (Effect.commit m e).Keeps sh.store)
    (hmax : m.walCommitSeq < u64Max) :
    SnapshotHeld { sh with store := sh.store.putMeta m, log := sh.log ++ [e] } := by
  obtain ⟨hnext, hcursor⟩ := hsound
  have hlen := h.length_eq
  have hseq := hk.walCommitSeq_eq hnext
  refine ⟨?_, hmax, ?_, ?_, ?_, ?_, ?_⟩
  · simp only [commitSeq_putMeta, length_append, length_singleton]
    omega
  · intro k h1 h2
    simp only [commitSeq_putMeta] at h2
    rcases Nat.lt_or_ge sh.log.length k with hlt | hle
    · obtain rfl : k = sh.log.length + 1 := by omega
      rw [entryAt_concat, hlen, ← hseq]
      exact Or.inr hk.2
    · rw [entryAt_append_left hle]
      exact h.held k h1 (by omega)
  · intro snap hmem
    have := h.snapshot_le snap hmem
    simp only [commitSeq_putMeta]
    omega
  · intro snap hmem
    rw [take_append_of_le_length (by rw [hlen]; exact h.snapshot_le snap hmem)]
    exact h.snapshot_docs snap hmem
  · intro k h1 h2 hgone
    simp only [commitSeq_putMeta] at h2
    rcases Nat.lt_or_ge sh.store.commitSeq k with hlt | hle
    · obtain rfl : k = m.walCommitSeq := by omega
      rw [wal_putMeta, hk.2] at hgone
      cases hgone
    · exact h.covered k h1 hle hgone
  · change m.indexCursor ≤ m.walCommitSeq
    omega

theorem SnapshotHeld.after {o : Outcome} (hsound : o.effect.Sound sh)
    (hk : o.effect.Keeps sh.store) (hsnap : o.effect.KeepsSnapshot sh.store) :
    SnapshotHeld (sh.after o) := by
  suffices hsuff : SnapshotHeld
      { sh with store := sh.store.apply o.effect, log := sh.log ++ o.effect.committed } from
    ⟨hsuff.1, hsuff.2, hsuff.3, hsuff.4, hsuff.5, hsuff.6, hsuff.7⟩
  revert hsound hk hsnap
  cases o.effect with
  | commit m e => exact fun hsound hk hmax => h.commit hsound hk hmax
  | none =>
    intro _ _ _
    simp only [Effect.committed, append_nil]
    exact h
  | putWal seq e =>
    intro _ hk _
    simp only [Effect.committed, append_nil]
    rcases hk with hlt | hsame
    · exact h.setWal (Or.inl hlt)
    · exact h.setWal (Or.inr (Or.inl ⟨Option.some_ne_none e, hsame⟩))
  | undoWal seq =>
    intro _ hk _
    simp only [Effect.committed, append_nil]
    exact h.setWal (Or.inl hk)
  | deleteWal seq =>
    intro hsound _ _
    simp only [Effect.committed, append_nil]
    exact h.setWal (Or.inr (Or.inr ⟨rfl, hsound⟩))
  | putMeta m =>
    intro hsound _ _
    simp only [Effect.committed, append_nil]
    exact h.putMeta hsound.1 hsound.2
  | putSnapshot snap =>
    intro hsound _ hnewer
    simp only [Effect.committed, append_nil]
    exact h.putSnapshot hsound hnewer

end

/-! ## What a task knows after its own request -/

theorem CompactFacts.compactReplay {attempt : Nat} {read : CompactionRead} {docs : DocMap}
    {seq : Nat} (hvalid : read.Valid sh) (h1 : 1 ≤ seq) (h2 : seq ≤ read.cursor + 1)
    (hdocs : docs = replay (sh.log.take (seq - 1))) :
    CompactFacts sh (compactReplay attempt read docs seq) := by
  unfold OpenPuffer.compactReplay
  split
  · rename_i hle
    exact ⟨hvalid, h1, hle, hdocs⟩
  · obtain rfl : seq = read.cursor + 1 := by omega
    exact ⟨hvalid, hdocs⟩

/-- The replay of a compaction starts from documents of the log. -/
theorem SnapshotHeld.cursorBaseline_eq (h : SnapshotHeld sh) {snapshot : Option WalSnapshot}
    (cursor : Nat) (hf : fetchSnapshot ns sh.store r = .ok snapshot) :
    1 ≤ (cursorBaseline snapshot cursor).2 ∧ (cursorBaseline snapshot cursor).2 ≤ cursor + 1 ∧
      (cursorBaseline snapshot cursor).1
        = replay (sh.log.take ((cursorBaseline snapshot cursor).2 - 1)) := by
  cases snapshot with
  | none =>
    refine ⟨Nat.le_refl 1, ?_, rfl⟩
    change 1 ≤ cursor + 1
    omega
  | some snap =>
    have hstored : snap ∈ sh.store.snapshot := by
      rcases fetchSnapshot_eq_ok hf with heq | hnone
      · exact heq.symm
      · cases hnone
    simp only [cursorBaseline]
    split
    · rename_i hle
      have hmax := h.lt_max
      have hsnap := h.snapshot_le snap hstored
      rw [saturatingAdd_one_of_lt (by omega)]
      refine ⟨by omega, by omega, ?_⟩
      exact h.snapshot_docs snap hstored
    · refine ⟨Nat.le_refl 1, ?_, rfl⟩
      change 1 ≤ cursor + 1
      omega

theorem SnapshotHeld.valid_of_fetchMeta (h : SnapshotHeld sh) (read : CompactionRead)
    (hf : fetchMeta ns sh.store r = .ok (some read.found)) : read.Valid sh := by
  refine ⟨seen_of_fetchMeta hf, ?_⟩
  have hcursor := h.cursor_le
  rw [fetchMeta_eq_some hf] at hcursor
  rw [h.length_eq]
  exact hcursor

/-- What a task knows after its own request.  Except for the PUT of a snapshot,
it knew as much before the request took effect. -/
theorem CompactFacts.after {built : List (String × Nat)} (hI : SnapshotHeld sh)
    (ht : CompactFacts sh t) (hk : (taskStep ns sh.store r built t).effect.KeepsSnapshot sh.store) :
    CompactFacts (sh.after (taskStep ns sh.store r built t))
      (taskStep ns sh.store r built t).task := by
  have hext := Shared.extends_after hk
  have hnext := taskStep_next ns sh.store r built t
  generalize (taskStep ns sh.store r built t).task = t' at hnext ⊢
  cases hnext with
  | fresh hfresh => exact CompactFacts.of_isFresh hfresh
  | appendRead hf => exact CompactFacts.mono hext (seen_of_fetchMeta hf)
  | putAgain => exact CompactFacts.mono hext ht
  | prepared hread =>
    subst hread
    exact CompactFacts.mono hext ht
  | conflict => trivial
  | indexPrepared hf => exact CompactFacts.mono hext (seen_of_fetchMeta hf)
  | compactRead hf => exact CompactFacts.mono hext (hI.valid_of_fetchMeta _ hf)
  | @snapshotRead attempt read snapshot hf =>
    obtain ⟨h1, h2, hdocs⟩ := hI.cursorBaseline_eq read.cursor hf
    exact CompactFacts.mono hext (CompactFacts.compactReplay ht h1 h2 hdocs)
  | @walRead attempt read docs seq e hwal =>
    obtain ⟨hvalid, h1, h2, hdocs⟩ := ht
    have hlen := hI.length_eq
    have hcursor := hvalid.2
    refine CompactFacts.mono hext (CompactFacts.compactReplay hvalid (by omega) (by omega) ?_)
    rcases hI.held seq h1 (by omega) with hnone | heq
    · rw [hwal] at hnone
      cases hnone
    · rw [hdocs]
      exact replay_take_of_entryAt (heq.symm.trans hwal)
  | @snapshotStored attempt read docs hr =>
    subst hr
    refine ⟨CompactionRead.Valid.mono hext ht.1, ?_⟩
    exact ⟨.fromDocs read.cursor docs, rfl, Nat.le_refl _⟩
  | cursorStored =>
    obtain ⟨hvalid, snap, hmem, hle⟩ := ht
    refine CompactFacts.mono hext fun seq hseq => ?_
    have := mem_walSeqsToDelete hseq
    exact ⟨snap, hmem, by omega⟩
  | @deleted seq rest =>
    have hrest : CompactFacts sh (.compactDelete rest) :=
      fun k hk => ht k (mem_cons_of_mem seq hk)
    exact CompactFacts.mono hext hrest

/-! ## Runs -/

/-- No committed data is lost: a segment that is gone is covered by the stored
snapshot, the snapshot holds exactly the documents at its sequence, and the two
determine the documents at the commit point. -/
structure Recoverable (sh : Shared) : Prop where
  covered : ∀ seq, 1 ≤ seq → seq ≤ sh.store.commitSeq → sh.store.wal seq = none →
    ∃ snap, sh.store.snapshot = some snap ∧ seq ≤ snap.seq
  snapshot_docs : ∀ snap, sh.store.snapshot = some snap →
    snap.seq ≤ sh.store.commitSeq ∧ snap.docs = replay (sh.log.take snap.seq)
  determined : docsAtIndexCursor sh.store sh.store.commitSeq = .ok (replay sh.log)

theorem SnapshotHeld.recoverable (h : SnapshotHeld sh) : Recoverable sh where
  covered := h.covered
  snapshot_docs := fun snap hmem => ⟨h.snapshot_le snap hmem, h.snapshot_docs snap hmem⟩
  determined := h.docsAtIndexCursor_eq

section Runs

variable {P R : Type} [DecidableEq P] [DecidableEq R] {ns : String} {proc : P → R}

/-- What holds between the steps of a guarded run. -/
structure CompactInv (proc : P → R) (s : Cluster P R) : Prop where
  locked : s.Locked proc
  held : SnapshotHeld s.shared
  facts : ∀ p, CompactFacts s.shared (s.task p)

theorem CompactInv.step {s s' : Cluster P R} {a : Action P} (h : CompactInv proc s)
    (hk : (s.effect ns a).Keeps s.shared.store)
    (hsnap : (s.effect ns a).KeepsSnapshot s.shared.store)
    (hstep : (cluster ns proc).step s a = some s') : CompactInv proc s' := by
  obtain ⟨hl, hheld, hfacts⟩ := step_invariant (I := SnapshotHeld) (T := CompactFacts) hstep
    h.locked h.held h.facts (fun t ht => CompactFacts.of_isFresh ht.isFresh)
    (by
      rintro p r built rfl -
      exact ⟨h.held.after ((h.facts p).sound h.held) hk hsnap, (h.facts p).after h.held hsnap⟩)
    (by
      rintro p r built q rfl - -
      exact (h.facts q).mono (Shared.extends_after hsnap))
  exact ⟨hl, hheld, hfacts⟩

/-- Appends, index passes and compactions of any number of processes lose no
committed data, as long as every append keeps its own segment and no PUT of a
snapshot replaces one of a higher sequence. -/
theorem compaction_recoverable {s u : Cluster P R} {as : List (Action P)}
    (hidle : s.Idle) (hheld : SnapshotHeld s.shared)
    (hguard : (cluster ns proc).Along (fun v a => (v.effect ns a).Keeps v.shared.store ∧
      (v.effect ns a).KeepsSnapshot v.shared.store) s as)
    (hvisit : (cluster ns proc).Visits s as u) : Recoverable u.shared := by
  have hstep : ∀ v a v', CompactInv proc v → ((v.effect ns a).Keeps v.shared.store ∧
      (v.effect ns a).KeepsSnapshot v.shared.store) →
      (cluster ns proc).step v a = some v' → CompactInv proc v' :=
    fun v a v' hv hg hs => hv.step hg.1 hg.2 hs
  have hinv : CompactInv proc s := by
    refine ⟨hidle.locked, hheld, ?_⟩
    intro p
    rw [hidle.1 p]
    trivial
  exact (Machine.visits_invariant hstep hinv hguard hvisit).held.recoverable

end Runs

theorem SnapshotHeld.empty : SnapshotHeld .empty := by
  have hnone : ∀ seq, 1 ≤ seq → ¬ seq ≤ Shared.empty.store.commitSeq := by
    intro seq h1 h2
    change seq ≤ 0 at h2
    omega
  refine ⟨rfl, by decide, ?_, ?_, ?_, ?_, Nat.le_refl 0⟩
  · exact fun seq h1 h2 => absurd h2 (hnone seq h1)
  · rintro _ ⟨⟩
  · rintro _ ⟨⟩
  · exact fun seq h1 h2 => absurd h2 (hnone seq h1)

section Schedules

variable {P : Type}

/-- The next `n` requests of a thread, answered truthfully. -/
def sends (p : P) (n : Nat) : List (Action P) := List.replicate n (.send p .ok [])

def appends (p : P) (n : Nat) : List (Action P) :=
  (List.replicate n (appendRun p { entry := oneDoc "a" })).flatten

/-- An index pass up to its commit.  The thread goes on to check for a compaction. -/
def indexPass (p : P) : List (Action P) :=
  .start p (.index {}) :: sends p 2 ++ .acquire p :: sends p 2

/-- A compaction that replays `n` segments, up to its first write. -/
def compactReads (p : P) (n : Nat) : List (Action P) :=
  sends p 1 ++ .acquire p :: sends p (2 + n)

/-- The writes of a compaction that deletes `n` segments. -/
def compactWrites (p : P) (n : Nat) : List (Action P) := sends p (3 + n)

/-- Eleven commits, an index pass and a compaction of one thread. -/
def compactOnce (p : P) : List (Action P) :=
  appends p 11 ++ indexPass p ++ compactReads p 11 ++ compactWrites p 8

end Schedules

theorem compactOnce_recoverable :
    ∃ u, (cluster "ns" (id : Fin 2 → Fin 2)).run (.init .empty) (compactOnce 0) = some u ∧
      u.shared.store.wal 8 = none ∧ Recoverable u.shared := by
  obtain ⟨u, hu, hwal⟩ : ∃ u, (cluster "ns" (id : Fin 2 → Fin 2)).run (.init .empty)
      (compactOnce 0) = some u ∧ u.shared.store.wal 8 = none := by
    decide +kernel
  refine ⟨u, hu, hwal, compaction_recoverable (Cluster.init_idle _) SnapshotHeld.empty ?_
    (Machine.visits_end hu)⟩
  decide +kernel

/-- Thread `0` reads everything for a snapshot at `11` and is slow to store it.
Meanwhile thread `1` compacts at `11`, commits four more entries and compacts at
`15`, which deletes the segments up to `12`.  Then thread `0` stores its
snapshot. -/
def slowCompactor : List (Action (Fin 2)) :=
  appends 1 11 ++ indexPass 1 ++ .start 0 .compact :: compactReads 0 11 ++ compactReads 1 11 ++
    compactWrites 1 8 ++ appends 1 4 ++ indexPass 1 ++ compactReads 1 4 ++ compactWrites 1 12 ++
    sends 0 1

theorem slowCompactor_loses_segment :
    (cluster "ns" (id : Fin 2 → Fin 2)).Along
        (fun v a => (v.effect "ns" a).Keeps v.shared.store) (.init .empty) slowCompactor ∧
      ∃ u, (cluster "ns" (id : Fin 2 → Fin 2)).run (.init .empty) slowCompactor = some u ∧
      u.shared.store.commitSeq = 15 ∧ u.shared.store.wal 12 = none ∧
      (u.shared.store.snapshot.map fun snap => snap.seq) = some 11 ∧ ¬ Recoverable u.shared := by
  obtain ⟨u, hu, hcommit, hwal, hsnap⟩ : ∃ u, (cluster "ns" (id : Fin 2 → Fin 2)).run
      (.init .empty) slowCompactor = some u ∧ u.shared.store.commitSeq = 15 ∧
        u.shared.store.wal 12 = none ∧
        (u.shared.store.snapshot.map fun snap => snap.seq) = some 11 := by
    decide +kernel
  refine ⟨by decide +kernel, u, hu, hcommit, hwal, hsnap, ?_⟩
  intro hrec
  obtain ⟨snap, hstored, hle⟩ := hrec.covered 12 (by omega) (by omega) hwal
  rw [hstored, Option.map_some, Option.some.injEq] at hsnap
  omega

end OpenPuffer
