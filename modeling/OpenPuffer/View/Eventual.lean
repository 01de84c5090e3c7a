import OpenPuffer.View.Stamps

/-!
# Eventual reads

An eventual query is served from the newest documents of the view, without those whose last
sequence is beyond the index cursor of the metadata it holds.  Every eventual query refreshes
the metadata and not the documents.  It sees the documents at the cursor without every document
that an entry after the cursor touches, up to the last entry the view has applied
(`Recorded.lookup_docsForQuery`).
-/

namespace OpenPuffer

open HashMap NamespaceView Pinned

namespace NamespaceView

/-- The documents for a query.  Eventual consistency omits those that are not in
`index/` yet. -/
def docsForQuery (v : NamespaceView) (skipWalTail : Bool) : DocMap :=
  if !skipWalTail || v.metadata.indexCursor ≥ v.metadata.walCommitSeq then v.docs
  else v.docs.filterMap fun id doc =>
    if (v.docLastWalSeq.lookup id).getD 0 ≤ v.metadata.indexCursor then some doc else none

/-- The view shows the documents after `shown` entries.  From `base` on, the
sequences tell which documents are touched after a cursor, up to the sequence of
the view. -/
structure Recorded (v : NamespaceView) (log : List WalEntry) (shown base : Nat) : Prop where
  le : v.lastAppliedWalSeq ≤ shown
  shown_le : shown ≤ log.length
  docs : v.docs = replay (log.take shown)
  seqs : ∀ id, v.docs.lookup id ≠ none →
    (replay (log.take v.lastAppliedWalSeq)).lookup id ≠ none →
    ∃ q, v.docLastWalSeq.lookup id = some q ∧
      ∀ i, base ≤ i → (q ≤ i ↔ ¬ Touched log i v.lastAppliedWalSeq id)

variable {v : NamespaceView} {log : List WalEntry} {base : Nat}

/-- What an eventual query sees. -/
theorem Recorded.lookup_docsForQuery (h : v.Recorded log v.lastAppliedWalSeq v.metadata.indexCursor)
    (hle : v.lastAppliedWalSeq ≤ v.metadata.walCommitSeq) (id : String) :
    (v.docsForQuery true).lookup id
      = if Touched log v.metadata.indexCursor v.lastAppliedWalSeq id then none
        else (replay (log.take (min v.lastAppliedWalSeq v.metadata.indexCursor))).lookup id := by
  have hnone : v.lastAppliedWalSeq ≤ v.metadata.indexCursor →
      ¬ Touched log v.metadata.indexCursor v.lastAppliedWalSeq id := by
    intro hc htouched
    obtain ⟨seq, e, h1, h2, -⟩ := touched_iff.mp htouched
    omega
  have hkept : ¬ Touched log v.metadata.indexCursor v.lastAppliedWalSeq id →
      v.docs.lookup id
        = (replay (log.take (min v.lastAppliedWalSeq v.metadata.indexCursor))).lookup id := by
    intro hnot
    rw [h.docs]
    rcases Nat.le_total v.lastAppliedWalSeq v.metadata.indexCursor with hc | hc
    · rw [Nat.min_eq_left hc]
    · rw [Nat.min_eq_right hc]
      exact lookup_replay_of_not_touched hc hnot
  unfold docsForQuery
  by_cases hcursor : v.metadata.indexCursor ≥ v.metadata.walCommitSeq
  · rw [if_pos (by simp [hcursor]), if_neg (hnone (by omega))]
    exact hkept (hnone (by omega))
  · rw [if_neg (by simpa using hcursor), lookup_filterMap]
    cases hdoc : v.docs.lookup id with
    | none =>
      by_cases htouched : Touched log v.metadata.indexCursor v.lastAppliedWalSeq id
      · rw [if_pos htouched]
        rfl
      · rw [if_neg htouched, ← hkept htouched, hdoc]
        rfl
    | some doc =>
      obtain ⟨q, hq, hiff⟩ := h.seqs id (by simp [hdoc]) (by rw [← h.docs]; simp [hdoc])
      simp only [Option.bind_some, hq, Option.getD_some, hiff _ (Nat.le_refl _)]
      by_cases htouched : Touched log v.metadata.indexCursor v.lastAppliedWalSeq id
      · rw [if_neg (not_not.mpr htouched), if_pos htouched]
      · rw [if_pos htouched, if_neg htouched, ← hkept htouched, hdoc]

theorem Recorded.mono {log' : List WalEntry} {shown base' : Nat} (h : v.Recorded log shown base)
    (hpre : log <+: log') (hbase : base ≤ base') : v.Recorded log' shown base' := by
  obtain ⟨more, rfl⟩ := hpre
  have htake : ∀ k, k ≤ log.length → (log ++ more).take k = log.take k :=
    fun k hk => List.take_append_of_le_length hk
  have hle := h.le
  have hshown := h.shown_le
  refine ⟨hle, by rw [List.length_append]; omega, by rw [htake _ hshown]; exact h.docs, ?_⟩
  intro id hdoc hold
  rw [htake _ (by omega)] at hold
  obtain ⟨q, hq, hiff⟩ := h.seqs id hdoc hold
  refine ⟨q, hq, fun i hi => ?_⟩
  rw [hiff i (by omega), Touched, Touched, htake _ (by omega)]

/-- The entries after a sequence that the view has applied bring it to a later one, also if
it has applied some of them. -/
theorem Recorded.advance {shown k n : Nat} (h : v.Recorded log shown base)
    (hk : k ≤ v.lastAppliedWalSeq) (hn : shown ≤ n) (hlen : n ≤ log.length) (m : NamespaceMeta)
    (etag : Option Nat) :
    Recorded { v.replayFrom (k + 1) ((log.take n).drop k) with
      metadata := m, metaEtag := etag, lastAppliedWalSeq := n } log n base := by
  have hle := h.le
  have hdocs : ((log.take n).drop k).foldl applyEntry v.docs = replay (log.take n) := by
    have htrack : Tracks { v with lastAppliedWalSeq := k } (log.take n) := by
      refine tracks_of_take (d := shown) ?_ (hk.trans hle) (by rw [List.length_take]; omega)
      rw [List.take_take, Nat.min_eq_left hn]
      exact h.docs
    exact htrack.2
  refine ⟨Nat.le_refl n, hlen, by rw [← hdocs, docs_replayFrom], ?_⟩
  rintro id - hdoc
  dsimp only at hdoc ⊢
  have hthere : ¬ Upserted log k n id →
      v.docs.lookup id ≠ none ∧ (replay (log.take v.lastAppliedWalSeq)).lookup id ≠ none := by
    intro hnot
    have hlate : ¬ Upserted log shown n id := fun hup => hnot (hup.mono (hk.trans hle))
    refine ⟨?_, lookup_replay_of_not_upserted (by omega) (fun hup => hnot (hup.mono hk)) hdoc⟩
    rw [h.docs]
    exact lookup_replay_of_not_upserted hn hlate hdoc
  have hknown : ¬ Upserted log k n id → v.docLastWalSeq.lookup id ≠ none := by
    intro hnot
    obtain ⟨hshown, hold⟩ := hthere hnot
    obtain ⟨q, hq, -⟩ := h.seqs id hshown hold
    simp [hq]
  obtain ⟨q, hq, hcases⟩ := recordSeqs_spec (by omega) v.docLastWalSeq hdoc hknown
  refine ⟨q, by rw [docLastWalSeq_replayFrom]; exact hq, fun i hi => ?_⟩
  rcases hcases with hiff | ⟨hnot, hold⟩
  · exact hiff i
  · obtain ⟨hshown, hbefore⟩ := hthere fun hup => hnot hup.touched
    obtain ⟨q', hq', hiff⟩ := h.seqs id hshown hbefore
    rw [hold] at hq'
    cases hq'
    rw [hiff i hi, not_iff_not]
    constructor
    · exact fun ht => ht.mono (Nat.le_refl i) (by omega)
    · intro ht
      rcases ht.split v.lastAppliedWalSeq with hearly | hlate
      · exact hearly
      · exact absurd (hlate.mono hk (Nat.le_refl n)) hnot

/-- A load records what a later cursor needs. -/
theorem recorded_load {m : NamespaceMeta} (etag : Option Nat) (hlen : m.walCommitSeq ≤ log.length)
    (hsnap : m.walSnapshotSeq ≤ m.walCommitSeq) (hbase : m.walSnapshotSeq ≤ base) :
    Recorded ⟨replay (log.take m.walCommitSeq), m, etag, m.walCommitSeq, loadedSeqs log m⟩
      log m.walCommitSeq base := by
  refine ⟨Nat.le_refl _, hlen, rfl, ?_⟩
  rintro id - hdoc
  obtain ⟨doc, hsome⟩ := Option.ne_none_iff_exists'.mp hdoc
  have hknown : ¬ Upserted log m.walSnapshotSeq m.walCommitSeq id →
      (if m.walSnapshotSeq > 0 then
        constKeys (replay (log.take m.walCommitSeq)) m.walSnapshotSeq else ∅).lookup id
          = some m.walSnapshotSeq := by
    intro hnot
    split
    · rw [lookup_constKeys, hsome]
      rfl
    · have hbefore := lookup_replay_of_not_upserted hsnap hnot hdoc
      rw [show m.walSnapshotSeq = 0 by omega] at hbefore
      exact absurd rfl hbefore
  obtain ⟨q, hq, hcases⟩ := recordSeqs_spec hsnap _ hdoc
    fun hnot => Option.ne_none_iff_exists'.mpr ⟨_, hknown hnot⟩
  refine ⟨q, hq, fun i hi => ?_⟩
  rcases hcases with hiff | ⟨hnot, hold⟩
  · exact hiff i
  · rw [hknown fun hup => hnot hup.touched] at hold
    cases hold
    exact ⟨fun _ ht => hnot (ht.mono (by omega) (Nat.le_refl _)), fun _ => by omega⟩

/-- The entries that a cold load replays and that patch a document, after the
cursor, also upsert it: only then the patch is recorded. -/
def PatchesRecorded (log : List WalEntry) (m : NamespaceMeta) (base : Nat) : Prop :=
  ∀ e ∈ (log.take m.walCommitSeq).drop (max m.indexCursor base), ∀ p ∈ e.patches,
    Upserted log base m.walCommitSeq p.id ∨ p.id ∉ replay (log.take m.walCommitSeq)

/-- A batched cold load that records its patches records what a later cursor
needs. -/
theorem recorded_cold {m : NamespaceMeta} (etag : Option Nat) (hlen : m.walCommitSeq ≤ log.length)
    (hbase : base ≤ log.length) (hsnap : m.walSnapshotSeq ≤ base)
    (hnone : m.walSnapshotSeq = 0 → base = 0) (hpatch : PatchesRecorded log m base) :
    Recorded ⟨replay (log.take (max base m.walCommitSeq)), m, etag, m.walCommitSeq,
      coldSeqs log m base⟩ log (max base m.walCommitSeq) (max m.indexCursor base) := by
  refine ⟨Nat.le_max_right _ _, Nat.max_le.mpr ⟨hbase, hlen⟩, rfl, ?_⟩
  intro id hshown hdoc
  dsimp only at hshown hdoc ⊢
  rcases Nat.lt_or_ge m.walCommitSeq base with hlt | hge
  · obtain ⟨doc, hsome⟩ := Option.ne_none_iff_exists'.mp hshown
    have hseqs : coldSeqs log m base
        = constKeys (replay (log.take (max base m.walCommitSeq))) m.walSnapshotSeq := by
      rw [coldSeqs, List.drop_eq_nil_of_le (by rw [List.length_take]; omega), if_pos (by omega)]
      exact Finmap.empty_union
    refine ⟨m.walSnapshotSeq, ?_, fun i hi => ?_⟩
    · rw [hseqs, lookup_constKeys, hsome]
      rfl
    · refine ⟨fun _ ht => ?_, fun _ => by omega⟩
      obtain ⟨seq, e, h1, h2, -⟩ := touched_iff.mp ht
      omega
  · rw [Nat.max_eq_right hge] at hshown
    by_cases hup : Upserted log base m.walCommitSeq id
    · obtain ⟨q, hq, hcases⟩ := recordSeqs_spec hge ∅ hdoc fun hnot => absurd hup hnot
      refine ⟨q, ?_, fun i _ => ?_⟩
      · simp only [coldSeqs]
        split
        · rw [lookup_union_or, hq]
          rfl
        · exact hq
      · rcases hcases with hiff | ⟨-, hold⟩
        · exact hiff i
        · cases hold
    · have hbefore := lookup_replay_of_not_upserted hge hup hdoc
      have hpos : 0 < m.walSnapshotSeq := by
        by_contra hzero
        rw [hnone (by omega)] at hbefore
        exact hbefore rfl
      obtain ⟨doc, hsome⟩ := Option.ne_none_iff_exists'.mp hshown
      have hrows : (recordSeqs ∅ (base + 1) ((log.take m.walCommitSeq).drop base)).lookup id
          = none :=
        lookup_recordSeqs_of_no_upsert (fun e he hid => hup ⟨e, he, hid⟩) rfl
      refine ⟨m.walSnapshotSeq, ?_, fun i hi => ⟨fun _ ht => ?_, fun _ => by omega⟩⟩
      · simp only [coldSeqs]
        rw [if_pos hpos, lookup_union_or, hrows, lookup_constKeys,
          Nat.max_eq_right hge, hsome]
        rfl
      · obtain ⟨seq, e, h1, h2, he, hid⟩ := touched_iff.mp ht
        rcases hid with hdel | hwritten
        · exact (kept_of_not_upserted hge hup hdoc).2 e
            (mem_drop_take.mpr ⟨seq, by omega, h2, he⟩) hdel
        · rcases List.mem_append.mp hwritten with hmem | hmem
          · exact hup ⟨e, mem_drop_take.mpr ⟨seq, by omega, h2, he⟩, hmem⟩
          · obtain ⟨p, hp, rfl⟩ := List.mem_map.mp hmem
            rcases hpatch e (mem_drop_take.mpr ⟨seq, by omega, h2, he⟩) p hp with hyes | hnot
            · exact hup hyes
            · exact hnot (Finmap.mem_of_lookup_eq_some hsome)

end NamespaceView

instance (log : List WalEntry) (m : NamespaceMeta) (base : Nat) :
    Decidable (NamespaceView.PatchesRecorded log m base) :=
  inferInstanceAs (Decidable (∀ e ∈ (log.take m.walCommitSeq).drop (max m.indexCursor base),
    ∀ p ∈ e.patches, Upserted log base m.walCommitSeq p.id ∨
      p.id ∉ replay (log.take m.walCommitSeq)))

/-! ## Namespaces with an index cursor -/

/-- The stored index cursor. -/
def World.cursor (w : World) : Nat := w.read.metaOrDefault.indexCursor

/-- Snapshots are taken at the index cursor, and only committed entries are
indexed. -/
structure World.Sound (w : World) : Prop where
  recorded_le : w.read.metaOrDefault.walSnapshotSeq ≤ w.cursor
  cursor_le : w.cursor ≤ w.read.metaOrDefault.walCommitSeq
  stored_le : ∀ snap ∈ w.snapshot, snap.seq ≤ w.cursor

instance (w : World) : Decidable w.Sound :=
  decidable_of_iff ((w.read.metaOrDefault.walSnapshotSeq ≤ w.cursor ∧
      w.cursor ≤ w.read.metaOrDefault.walCommitSeq) ∧ ∀ snap ∈ w.snapshot, snap.seq ≤ w.cursor)
    ⟨fun h => ⟨h.1.1, h.1.2, h.2⟩, fun h => ⟨⟨h.recorded_le, h.cursor_le⟩, h.stored_le⟩⟩

/-- Metadata fetched from a sound namespace when its log was `log₀`. -/
structure World.SoundFetch (w : World) (read : MetaRead) (log₀ : List WalEntry) : Prop
    extends w.Fetched read log₀ where
  recorded_le_cursor : read.metaOrDefault.walSnapshotSeq ≤ read.metaOrDefault.indexCursor
  cursor_le : read.metaOrDefault.indexCursor ≤ w.cursor

variable {w w' : World} {log₀ : List WalEntry} {v : NamespaceView} {fetched : MetaRead} {s : Pinned}

theorem World.Sound.fetch (h : w.Sound) : w.SoundFetch w.read w.log :=
  { w.fetched_read with recorded_le_cursor := h.recorded_le, cursor_le := Nat.le_refl _ }

theorem World.SoundFetch.mono {read : MetaRead} (h : w.SoundFetch read log₀) (hext : w.Extends w')
    (hcursor : w.cursor ≤ w'.cursor) : w'.SoundFetch read log₀ :=
  { h.toFetched.mono hext with
    recorded_le_cursor := h.recorded_le_cursor
    cursor_le := Nat.le_trans h.cursor_le hcursor }

/-! ## Steps of a pinned view -/

/-- Other processes only commit, index and compact. -/
def Pinned.SoundMove (s : Pinned) : ViewAction → Prop
  | .commit w => w.Sound ∧ s.world.cursor ≤ w.cursor
  | _ => True

/-- A task about to load from segments records the patches after the cursor. -/
def ViewTask.PatchesRecorded (w : World) : ViewTask → Prop
  | .cold (.batched true) _ (some (m, _)) =>
    NamespaceView.PatchesRecorded w.log m (w.store.coldBase m)
  | _ => True

/-- A committed batch is the next one of the view it is applied to, or the last one
again, and a cold load records the patches after the cursor. -/
def Pinned.Orderly (s : Pinned) : ViewAction → Prop
  | .committed seq _ _ =>
    ∀ v ∈ s.view, seq = v.lastAppliedWalSeq + 1 ∨ seq = v.lastAppliedWalSeq
  | .reads => s.task.PatchesRecorded s.world
  | _ => True

instance (s : Pinned) (a : ViewAction) : Decidable (s.SoundMove a) :=
  match a with
  | .commit _ => inferInstanceAs (Decidable (_ ∧ _))
  | .query _ _ | .viewSnapshot _ | .reads | .fetch | .committed _ _ _ => isTrue trivial

instance (w : World) (t : ViewTask) : Decidable (t.PatchesRecorded w) :=
  match t with
  | .cold (.batched true) _ (some (m, _)) =>
    inferInstanceAs (Decidable (NamespaceView.PatchesRecorded w.log m (w.store.coldBase m)))
  | .cold (.batched true) _ none | .cold (.batched false) _ _ | .cold .full _ _ | .free
  | .catchUp _ _ _ | .loaded _ => isTrue trivial

instance (s : Pinned) (a : ViewAction) : Decidable (s.Orderly a) :=
  match a with
  | .committed _ _ _ => inferInstanceAs (Decidable (∀ v ∈ s.view, _))
  | .reads => inferInstanceAs (Decidable (s.task.PatchesRecorded s.world))
  | .commit _ | .query _ _ | .viewSnapshot _ | .fetch => isTrue trivial

/-- A pinned view shows the log up to its sequence, with metadata that is no
older. -/
structure NamespaceView.Held (v : NamespaceView) (w : World) : Prop where
  recorded : v.Recorded w.log v.lastAppliedWalSeq v.metadata.indexCursor
  applied_le : v.lastAppliedWalSeq ≤ v.metadata.walCommitSeq
  cursor_le : v.metadata.indexCursor ≤ w.cursor

/-- A view in the hands of a task will be right for a cursor that is fetched
later. -/
structure NamespaceView.Ready (v : NamespaceView) (log : List WalEntry) (cursor bound : Nat) :
    Prop where
  recorded : ∃ shown base, v.Recorded log shown base ∧ base ≤ cursor
  cursor_le : v.metadata.indexCursor ≤ bound

def ViewTask.Keeps (w : World) : ViewTask → Prop
  | .free => True
  | .catchUp v _ fetched =>
    ∃ log₀, w.SoundFetch fetched log₀ ∧
      v.Ready log₀ fetched.metaOrDefault.indexCursor w.cursor
  | .cold _ _ fetched => ∃ log₀, w.SoundFetch fetched log₀
  | .loaded v => v.Ready w.log w.cursor w.cursor

theorem NamespaceView.Held.mono (h : v.Held w) (hext : w.Extends w')
    (hcursor : w.cursor ≤ w'.cursor) : v.Held w' :=
  ⟨h.recorded.mono hext.1 (Nat.le_refl _), h.applied_le, Nat.le_trans h.cursor_le hcursor⟩

theorem ViewTask.Keeps.mono {t : ViewTask} (h : t.Keeps w) (hext : w.Extends w')
    (hcursor : w.cursor ≤ w'.cursor) : t.Keeps w' := by
  cases t with
  | free => trivial
  | catchUp v pinned fetched =>
    obtain ⟨log₀, hf, hr⟩ := h
    exact ⟨log₀, hf.mono hext hcursor, hr.recorded, Nat.le_trans hr.cursor_le hcursor⟩
  | cold loader strong fetched =>
    obtain ⟨log₀, hf⟩ := h
    exact ⟨log₀, hf.mono hext hcursor⟩
  | loaded v =>
    obtain ⟨shown, base, hrec, hbase⟩ := h.recorded
    exact ⟨⟨shown, base, hrec.mono hext.1 (Nat.le_refl _), Nat.le_trans hbase hcursor⟩,
      Nat.le_trans h.cursor_le hcursor⟩

/-- A refresh only moves the cursor. -/
theorem NamespaceView.Held.refresh (h : v.Held w) : (v.refresh w.read).Held w := by
  cases hread : w.read with
  | none => exact h
  | some found =>
    obtain ⟨m, etag⟩ := found
    have hcursor : w.cursor = m.indexCursor := by
      rw [World.cursor, hread]
      rfl
    have hcommit : m.walCommitSeq = w.log.length := by
      rw [← w.commit_eq, hread]
      rfl
    have hc := h.cursor_le
    have hrec := h.recorded.mono (List.prefix_refl _) hc
    refine ⟨?_, ?_, Nat.le_of_eq hcursor.symm⟩
    · rw [hcursor] at hrec
      exact ⟨hrec.le, hrec.shown_le, hrec.docs, hrec.seqs⟩
    · have hle := h.recorded.shown_le
      change v.lastAppliedWalSeq ≤ m.walCommitSeq
      omega

/-- The next batch of a view, or its last one from a second writer. -/
theorem NamespaceView.Held.applyCommitted {seq : Nat} {e : WalEntry} (h : v.Held w)
    (hentry : entryAt w.log seq = some e ∨ (seq = 0 ∧ e = {}))
    (hseq : seq = v.lastAppliedWalSeq + 1 ∨ seq = v.lastAppliedWalSeq) :
    (v.applyCommitted seq e).Held w := by
  cases seq with
  | zero =>
    obtain rfl : e = {} := by
      rcases hentry with hsome | ⟨-, he⟩
      · cases hsome
      · exact he
    have hlast : v.lastAppliedWalSeq = 0 := by omega
    have hsame : v.applyCommitted 0 {} = v := by
      cases v
      cases hlast
      rfl
    rw [hsame]
    exact h
  | succ k =>
    have hentry : entryAt w.log (k + 1) = some e :=
      hentry.resolve_right fun hzero => absurd hzero.1 (Nat.succ_ne_zero k)
    have hlt : k + 1 ≤ w.log.length := by
      rw [entryAt_succ] at hentry
      exact (List.getElem?_eq_some_iff.mp hentry).1
    have hone : (w.log.take (k + 1)).drop k = [e] := by
      rw [← slice_eq_drop_take, Nat.add_sub_cancel_left, slice_succ hentry]
      simp [slice]
    have hrec := h.recorded.advance (k := k) (by omega) (by omega) hlt
      (v.applyCommitted (k + 1) e).metadata v.metaEtag
    rw [hone] at hrec
    have hcursor : (v.applyCommitted (k + 1) e).metadata.indexCursor
        = v.metadata.indexCursor := by
      simp only [NamespaceView.applyCommitted]
      split <;> rfl
    refine ⟨by rw [hcursor]; exact hrec, ?_, by rw [hcursor]; exact h.cursor_le⟩
    simp only [NamespaceView.applyCommitted]
    split
    · exact Nat.le_refl _
    · omega

/-- A view that is caught up is held. -/
theorem NamespaceView.Ready.catchUp (hf : w.SoundFetch fetched log₀)
    (h : v.Ready log₀ fetched.metaOrDefault.indexCursor w.cursor) :
    ∃ v' b, NamespaceView.catchUp w.store fetched v = (v', .ok b) ∧ v'.Held w := by
  obtain ⟨⟨shown, base, hrec, hbase⟩, hcursor⟩ := h
  have hle := hrec.le
  have hshown := hrec.shown_le
  cases fetched with
  | none =>
    obtain rfl := hf.toFetched.log_eq_nil
    have hzero : v.lastAppliedWalSeq = 0 := Nat.le_zero.mp (Nat.le_trans hle hshown)
    refine ⟨v, false, rfl, ?_, by omega, hcursor⟩
    obtain rfl : shown = 0 := Nat.le_zero.mp hshown
    have hdocs : v.docs = ∅ := hrec.docs
    refine ⟨Nat.le_refl _, by omega, ?_, fun id hdoc => absurd (by rw [hdocs]; rfl) hdoc⟩
    rw [hzero]
    exact hdocs
  | some found =>
    obtain ⟨m, etag⟩ := found
    have hcommit : m.walCommitSeq = log₀.length := hf.commit_eq
    have hsnap : m.walSnapshotSeq ≤ m.walCommitSeq := hf.toFetched.snapshot_le_commit
    have hlen : m.walCommitSeq ≤ w.log.length := hf.toFetched.commit_le
    have hsnapc : m.walSnapshotSeq ≤ m.indexCursor := hf.recorded_le_cursor
    have hrec' := hrec.mono hf.log_le hbase
    rw [w.holds.catchUp_ite v hlen hsnap]
    split
    · rename_i hcaught
      obtain rfl : shown = v.lastAppliedWalSeq := by omega
      exact ⟨_, _, rfl, ⟨hrec'.le, hrec'.shown_le, hrec'.docs, hrec'.seqs⟩,
        by dsimp only; omega, hf.cursor_le⟩
    · split
      · exact ⟨_, _, rfl, recorded_load (some etag) hlen hsnap hsnapc, Nat.le_refl _,
          hf.cursor_le⟩
      · exact ⟨_, _, rfl, hrec'.advance (Nat.le_refl _) (by omega) hlen m (some etag),
          Nat.le_refl _, hf.cursor_le⟩

/-- What a cold load yields. -/
theorem World.SoundFetch.load (hf : w.SoundFetch fetched log₀) (hw : w.Sound) (loader : Loader)
    (hpatch : ∀ m etag, loader = .batched true → fetched = some (m, etag) →
      NamespaceView.PatchesRecorded w.log m (w.store.coldBase m)) :
    ∃ v, loader.load w.store fetched = .ok v ∧ v.Ready w.log w.cursor w.cursor ∧
      (loader ≠ .batched true → v.Held w) := by
  have hempty : ∀ (m : NamespaceMeta) (etag : Option Nat), m.indexCursor ≤ w.cursor →
      (⟨∅, m, etag, 0, ∅⟩ : NamespaceView).Held w := by
    intro m etag hm
    exact ⟨⟨Nat.le_refl 0, Nat.zero_le _, rfl, fun id hdoc => absurd rfl hdoc⟩, Nat.zero_le _, hm⟩
  have hready : ∀ v : NamespaceView, v.Held w → v.Ready w.log w.cursor w.cursor :=
    fun v hv => ⟨⟨_, _, hv.recorded, hv.cursor_le⟩, hv.cursor_le⟩
  cases fetched with
  | none =>
    have hheld : empty.Held w := hempty .empty none (Nat.zero_le _)
    cases loader with
    | full => exact ⟨_, rfl, hready _ hheld, fun _ => hheld⟩
    | batched includeWal => exact ⟨_, rfl, hready _ hheld, fun _ => hheld⟩
  | some found =>
    obtain ⟨m, etag⟩ := found
    have hsnap : m.walSnapshotSeq ≤ m.walCommitSeq := hf.toFetched.snapshot_le_commit
    have hlen : m.walCommitSeq ≤ w.log.length := hf.toFetched.commit_le
    have hcursor : m.indexCursor ≤ w.cursor := hf.cursor_le
    cases loader with
    | full =>
      have hheld : Held _ w :=
        ⟨recorded_load (some etag) hlen hsnap hf.recorded_le_cursor,
          Nat.le_refl _, hcursor⟩
      exact ⟨_, w.holds.load_eq etag hlen hsnap, hready _ hheld, fun _ => hheld⟩
    | batched includeWal =>
      cases includeWal with
      | false =>
        have hheld := hempty m (some etag) hcursor
        exact ⟨_, rfl, hready _ hheld, fun _ => hheld⟩
      | true =>
        have hrecords := hf.toFetched.records etag
        have hbase : w.store.coldBase m ≤ w.cursor := by
          unfold Store.coldBase
          split
          · cases hs : w.store.snapshot with
            | none => exact Nat.zero_le _
            | some snap => exact hw.stored_le snap hs
          · exact Nat.zero_le _
        refine ⟨_, w.holds.loadColdBatched_eq etag hlen hrecords, ⟨⟨_, _,
          recorded_cold (some etag) hlen (w.holds.coldBase_le m)
            hrecords.le_coldBase ?_ (hpatch m etag rfl rfl), ?_⟩, hcursor⟩,
          fun hne => absurd rfl hne⟩
        · intro hzero
          rw [Store.coldBase, if_neg (by omega)]
        · exact Nat.max_le.mpr ⟨hcursor, hbase⟩

/-! ## Runs -/

structure EventualInv (s : Pinned) : Prop where
  sound : s.world.Sound
  view : ∀ v, s.view = some v → v.Held s.world
  task : s.task.Keeps s.world

section

variable (h : EventualInv s)

include h

theorem EventualInv.start (loader : Loader) (strong : Bool) :
    (ViewTask.cold loader strong s.world.read).Keeps s.world :=
  ⟨s.world.log, h.sound.fetch⟩

theorem EventualInv.startStrong (diskCache : Bool) :
    EventualInv (s.startStrong diskCache) := by
  unfold Pinned.startStrong
  cases hv : s.view with
  | none => exact ⟨h.sound, nofun, h.start _ _⟩
  | some v =>
    have hheld := h.view v hv
    refine ⟨h.sound, ?_, s.world.log, h.sound.fetch, ⟨_, _, hheld.recorded, hheld.cursor_le⟩,
      hheld.cursor_le⟩
    rintro _ ⟨⟩
    exact hheld

theorem EventualInv.startEventual (diskCache : Bool) :
    EventualInv (s.startEventual diskCache) := by
  unfold Pinned.startEventual
  cases hv : s.view with
  | none => exact ⟨h.sound, nofun, h.start _ _⟩
  | some v =>
    refine ⟨h.sound, ?_, h.task⟩
    rintro _ ⟨⟩
    exact (h.view v hv).refresh

theorem EventualInv.afterCommit {seq : Nat} {e : WalEntry} (refreshed : Bool)
    (hentry : entryAt s.world.log seq = some e ∨ (seq = 0 ∧ e = {}))
    (hseq : ∀ v ∈ s.view, seq = v.lastAppliedWalSeq + 1 ∨ seq = v.lastAppliedWalSeq) :
    EventualInv (s.afterCommit seq e refreshed) := by
  unfold Pinned.afterCommit
  cases hv : s.view with
  | none => exact ⟨h.sound, nofun, h.start _ _⟩
  | some v =>
    have happlied := (h.view v hv).applyCommitted hentry (hseq v hv)
    refine ⟨h.sound, ?_, h.task⟩
    rintro _ ⟨⟩
    cases refreshed with
    | true => exact happlied.refresh
    | false => exact happlied

/-- A cold load that does not batch the segments yields a view for the pin. -/
theorem EventualInv.load {loader : Loader} {strong : Bool}
    (ht : s.task = .cold loader strong fetched) (horder : s.task.PatchesRecorded s.world)
    (hload : loader.load s.world.store fetched = .ok v) :
    v.Ready s.world.log s.world.cursor s.world.cursor ∧
      (loader ≠ .batched true → v.Held s.world) := by
  have htask := h.task
  rw [ht] at htask horder
  obtain ⟨log₀, hf⟩ := htask
  obtain ⟨v', hload', hready, hheld⟩ := hf.load h.sound loader (by
    rintro m etag rfl rfl
    exact horder)
  rw [hload] at hload'
  cases hload'
  exact ⟨hready, hheld⟩

end

/-- Loads that go straight to the pin do not batch the segments. -/
def ViewTask.Plain : ViewTask → Prop
  | .cold loader strong _ => strong = false → loader ≠ .batched true
  | _ => True

theorem ViewTask.plain_of_step {s' : Pinned} {a : ViewAction} (h : s.task.Plain)
    (hstep : pinned.step s a = some s') : s'.task.Plain := by
  cases steps_of_step hstep with
  | commit _ => exact h
  | startStrong _ _ =>
    unfold startStrong
    split
    · trivial
    · exact nofun
  | @startEventual diskCache ht =>
    unfold startEventual
    split
    · exact h
    · cases diskCache <;> exact fun _ => nofun
  | caughtUp _ _ => trivial
  | catchUpFailed _ _ => trivial
  | loaded _ _ => trivial
  | pinned _ _ => trivial
  | loadFailed _ _ => trivial
  | fetch _ => trivial
  | committed ht _ =>
    unfold afterCommit
    split
    · exact h
    · exact fun _ => nofun

theorem EventualInv.step {s' : Pinned} {a : ViewAction} (h : EventualInv s)
    (hplain : s.task.Plain) (hmove : s.SoundMove a) (horder : s.Orderly a)
    (hstep : pinned.step s a = some s') : EventualInv s' := by
  have htask := h.task
  cases steps_of_step hstep with
  | commit hext =>
    exact ⟨hmove.1, fun v hv => (h.view v hv).mono hext hmove.2, h.task.mono hext hmove.2⟩
  | startStrong _ _ => exact h.startStrong _
  | startEventual _ => exact h.startEventual _
  | caughtUp ht hcatch =>
    rw [ht] at htask
    obtain ⟨log₀, hf, hready⟩ := htask
    obtain ⟨v', b, hcatch', hheld⟩ := hready.catchUp hf
    rw [hcatch] at hcatch'
    cases hcatch'
    refine ⟨h.sound, ?_, trivial⟩
    rintro _ ⟨⟩
    exact hheld
  | catchUpFailed ht hcatch =>
    rw [ht] at htask
    obtain ⟨log₀, hf, hready⟩ := htask
    obtain ⟨v', b, hcatch', -⟩ := hready.catchUp hf
    rw [hcatch] at hcatch'
    cases hcatch'
  | loaded ht hload => exact ⟨h.sound, h.view, (h.load ht horder hload).1⟩
  | pinned ht hload =>
    rw [ht] at hplain
    refine ⟨h.sound, ?_, trivial⟩
    rintro _ ⟨⟩
    exact (h.load ht horder hload).2 (hplain rfl)
  | loadFailed _ _ => exact ⟨h.sound, h.view, trivial⟩
  | fetch ht =>
    rw [ht] at htask
    exact ⟨h.sound, h.view, s.world.log, h.sound.fetch, htask.recorded, htask.cursor_le⟩
  | committed _ hentry => exact h.afterCommit _ hentry horder

/-- The documents are those after some entry `c` of the log with
`first ≤ c ≤ last`. -/
def PastState (docs : DocMap) (log : List WalEntry) (first last : Nat) : Prop :=
  ∃ c, first ≤ c ∧ c ≤ last ∧ docs = replay (log.take c)

/-- After some entry from the cursor on, up to the last one that is applied, there is no
document that an entry after the cursor touches. -/
def TouchedAbsent (log : List WalEntry) (cursor applied : Nat) : Prop :=
  ∃ c, cursor ≤ c ∧ c ≤ applied ∧
    ∀ id, Touched log cursor applied id → id ∉ replay (log.take c)

/-- An eventual query sees a past state if the documents that were touched after the cursor
are all absent after one of the entries since then.  For a view that is up to date it sees
one only then. -/
theorem eventual_read_past {w : World} (hw : w.Sound) {as : List ViewAction} {u : Pinned}
    (hmove : pinned.Along Pinned.SoundMove (.init w) as)
    (horder : pinned.Along Pinned.Orderly (.init w) as) (hvisit : pinned.Visits (.init w) as u)
    {v : NamespaceView} (hv : u.view = some v) :
    (TouchedAbsent u.world.log v.metadata.indexCursor v.lastAppliedWalSeq →
      PastState (v.docsForQuery true) u.world.log v.metadata.indexCursor
        v.metadata.walCommitSeq) ∧
    (v.lastAppliedWalSeq = v.metadata.walCommitSeq →
      PastState (v.docsForQuery true) u.world.log v.metadata.indexCursor
        v.metadata.walCommitSeq →
      TouchedAbsent u.world.log v.metadata.indexCursor v.lastAppliedWalSeq) := by
  have hstep : ∀ s a s', EventualInv s ∧ s.task.Plain → s.SoundMove a ∧ s.Orderly a →
      pinned.step s a = some s' → EventualInv s' ∧ s'.task.Plain :=
    fun s a s' hI hG hs => ⟨hI.1.step hI.2 hG.1 hG.2 hs, ViewTask.plain_of_step hI.2 hs⟩
  have hinit : EventualInv (.init w) ∧ (init w).task.Plain :=
    ⟨⟨hw, (fun _ hv => nomatch hv), trivial⟩, trivial⟩
  have hinv := Machine.visits_invariant hstep hinit (hmove.and horder) hvisit
  have hheld := hinv.1.view v hv
  have hsees := hheld.recorded.lookup_docsForQuery hheld.applied_le
  constructor
  · rintro ⟨c, hc, hle, habsent⟩
    refine ⟨c, hc, hle.trans hheld.applied_le, ext_lookup fun id => ?_⟩
    rw [hsees]
    split
    · rename_i htouched
      exact (Finmap.lookup_eq_none.mpr (habsent id htouched)).symm
    · rename_i hnot
      rw [Nat.min_eq_right (hc.trans hle)]
      exact (lookup_replay_of_not_touched hc fun ht => hnot (ht.mono (Nat.le_refl _) hle)).symm
  · rintro hlast ⟨c, hc, hle, hdocs⟩
    refine ⟨c, hc, hlast ▸ hle, fun id htouched => Finmap.lookup_eq_none.mp ?_⟩
    rw [← hdocs, hsees, if_pos htouched]

/-- A namespace that is indexed up to a cursor and was never compacted. -/
def World.indexedTo (cursor : Nat) (log : List WalEntry) (h : log.length < u64Max) : World :=
  { World.ofLog log h with
    read := some ({ NamespaceMeta.empty with walCommitSeq := log.length, indexCursor := cursor }, 0)
    commit_eq := rfl
    recorded_le := Nat.zero_le _
    recorded := fun hpos => absurd hpos (Nat.lt_irrefl 0) }

/-- A strong read at the first entry, another one after a second entry, whose writer then
applies it again, and an eventual read.  Only the first entry is indexed. -/
def readsAround (second : WalEntry) : List ViewAction :=
  [.query .strong true, .reads, .fetch, .reads,
    .commit (.indexedTo 1 [oneDoc "a", second] (show 2 < u64Max by decide)),
    .query .strong true, .reads, .committed 2 second true, .query .eventual true]

/-- A second document is left out until it is indexed. -/
theorem insert_after_cursor_past :
    ∃ u v, pinned.run (.init (.indexedTo 1 [oneDoc "a"] (by decide))) (readsAround (oneDoc "b"))
        = some u ∧ u.view = some v ∧
      PastState (v.docsForQuery true) u.world.log v.metadata.indexCursor
        v.metadata.walCommitSeq := by
  obtain ⟨u, hu, ⟨v, hv, hcursor, hcommit, happlied⟩, hlog⟩ : ∃ u,
      pinned.run (.init (.indexedTo 1 [oneDoc "a"] (by decide))) (readsAround (oneDoc "b"))
        = some u ∧
      (∃ v, u.view = some v ∧ v.metadata.indexCursor = 1 ∧ v.metadata.walCommitSeq = 2 ∧
        v.lastAppliedWalSeq = 2) ∧ u.world.log = [oneDoc "a", oneDoc "b"] := by
    decide +kernel
  refine ⟨u, v, hu, hv, ?_⟩
  refine (eventual_read_past (by decide) (by decide +kernel) (by decide +kernel)
    (Machine.visits_end hu) hv).1 ?_
  rw [hcursor, happlied, hlog]
  refine ⟨1, Nat.le_refl 1, by decide, fun id htouched => ?_⟩
  have hid : id = "b" := by
    simpa [Touched, walTouchedDocIds, oneDoc, WalEntry.writtenIds] using htouched
  rw [hid]
  decide +kernel

/-- An updated document is missing, in both of its versions. -/
theorem update_after_cursor_hides :
    ∃ u v, pinned.run (.init (.indexedTo 1 [oneDoc "a"] (by decide)))
        (readsAround { patches := [⟨"a", ∅⟩] }) = some u ∧ u.view = some v ∧
      v.metadata.indexCursor = 1 ∧ v.metadata.walCommitSeq = 2 ∧
      (replay (u.world.log.take 1)).lookup "a" = some ∅ ∧
      (v.docsForQuery true).lookup "a" = none ∧
      ¬ PastState (v.docsForQuery true) u.world.log v.metadata.indexCursor
        v.metadata.walCommitSeq := by
  obtain ⟨u, hu, ⟨v, hv, hcursor, hcommit, hmissing⟩, hlog⟩ : ∃ u,
      pinned.run (.init (.indexedTo 1 [oneDoc "a"] (by decide)))
        (readsAround { patches := [⟨"a", ∅⟩] }) = some u ∧
      (∃ v, u.view = some v ∧ v.metadata.indexCursor = 1 ∧ v.metadata.walCommitSeq = 2 ∧
        (v.docsForQuery true).lookup "a" = none) ∧
      u.world.log = [oneDoc "a", { patches := [⟨"a", ∅⟩] }] := by
    decide +kernel
  refine ⟨u, v, hu, hv, hcursor, hcommit, ?_, hmissing, ?_⟩
  · rw [hlog]
    decide +kernel
  · rintro ⟨c, h1, h2, hdocs⟩
    rw [hdocs, hlog] at hmissing
    obtain rfl | rfl : c = 1 ∨ c = 2 := by omega
    · revert hmissing
      decide +kernel
    · revert hmissing
      decide +kernel

end OpenPuffer
