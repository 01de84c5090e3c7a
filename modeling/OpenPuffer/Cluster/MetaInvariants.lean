import OpenPuffer.Cluster.CrashSafety
import OpenPuffer.Columns

/-!
# What every stored version of the metadata satisfies

Appends, index commits and compactions compute a new `meta.json` from a version they read.
What one writer computes is sound if the version it read is (`NamespaceMeta.Sound`), and
follows that version (`NamespaceMeta.Follows`).  A PUT whose condition holds replaces exactly
the version that was read, so both carry over to the stored versions of every run.
-/

namespace OpenPuffer

open List

/-! ## Sound metadata -/

/-- At most two vector columns, with distinct names. -/
structure DistinctColumns (fields : List VectorFieldConfig) : Prop where
  length_le : fields.length ≤ maxVectorFields
  nodup : (fields.map VectorFieldConfig.name).Nodup

/-- The counters are ordered and fit a `u64`, the segments are those of the
cursor, and the vector columns are distinct. -/
structure NamespaceMeta.Sound (m : NamespaceMeta) : Prop where
  commit_le_max : m.walCommitSeq ≤ u64Max
  snapshot_le_cursor : m.walSnapshotSeq ≤ m.indexCursor
  cursor_le_commit : m.indexCursor ≤ m.walCommitSeq
  segments : 0 < m.indexCursor → m.ftsSegmentId = m.indexCursor ∧ m.filterSegmentId = m.indexCursor
  columns : DistinctColumns m.vectorFields

/-- Version `m'` may be stored next after `m`. -/
structure NamespaceMeta.Follows (m m' : NamespaceMeta) : Prop where
  commit_le : m.walCommitSeq ≤ m'.walCommitSeq
  commit_le_succ : m'.walCommitSeq ≤ m.walCommitSeq + 1
  cursor_le : m.indexCursor ≤ m'.indexCursor
  snapshot_le : m.walSnapshotSeq ≤ m'.walSnapshotSeq
  metric : 0 < m.walCommitSeq → m'.distanceMetric = m.distanceMetric

theorem NamespaceMeta.Sound.empty : NamespaceMeta.empty.Sound where
  commit_le_max := Nat.zero_le _
  snapshot_le_cursor := Nat.le_refl 0
  cursor_le_commit := Nat.le_refl 0
  segments := fun h => absurd h (Nat.lt_irrefl 0)
  columns := ⟨by decide, nodup_nil⟩

theorem NamespaceMeta.Follows.refl (m : NamespaceMeta) : m.Follows m :=
  ⟨Nat.le_refl _, Nat.le_succ _, Nat.le_refl _, Nat.le_refl _, fun _ => rfl⟩

/-! ## Vector columns -/

variable {fields : List VectorFieldConfig} {m : NamespaceMeta} {t : Task} {ns : String} {st : Store}
  {r : Reply} {built : List (String × Nat)} {sh : Shared}

/-- Refreshing a column, or adding it while there is room, keeps the columns
distinct. -/
theorem DistinctColumns.upsert (h : DistinctColumns fields) {name : String}
    {f : VectorFieldConfig → VectorFieldConfig} (hf : ∀ c, (f c).name = c.name)
    {new : VectorFieldConfig} (hnew : new.name = name) :
    DistinctColumns (if fields.any (fun c => c.name = name) then updateVectorField name f fields
      else if fields.length < maxVectorFields then fields ++ [new] else fields) := by
  have hnames := map_updateVectorField (g := VectorFieldConfig.name) name hf fields
  split
  · refine ⟨?_, by rw [hnames]; exact h.nodup⟩
    have hlen := congrArg length hnames
    simp only [length_map] at hlen
    rw [hlen]
    exact h.length_le
  · rename_i hfresh
    split
    · rename_i hroom
      refine ⟨by rw [length_append]; exact hroom, ?_⟩
      rw [map_append, nodup_append]
      refine ⟨h.nodup, by simp, ?_⟩
      simp only [any_eq_true, decide_eq_true_eq, not_exists, not_and] at hfresh
      simp only [map_cons, map_nil, mem_singleton, mem_map]
      rintro _ ⟨c, hc, rfl⟩ _ rfl
      rw [hnew]
      exact hfresh c hc
    · exact h

theorem DistinctColumns.hydrate (h : DistinctColumns fields) (schema : Json) (names : List String) :
    DistinctColumns (names.foldl (hydrateVectorField schema) fields) := by
  induction names generalizing fields with
  | nil => exact h
  | cons name names ih =>
    refine ih ?_
    simp only [hydrateVectorField]
    refine h.upsert ?_ ?_
    · exact fun _ => rfl
    · rfl

theorem DistinctColumns.index (h : DistinctColumns fields) (schema : Json) (toSeq : Nat)
    (built : List (String × Nat)) :
    DistinctColumns (built.foldl (indexVectorField schema toSeq) fields) := by
  induction built generalizing fields with
  | nil => exact h
  | cons b built ih =>
    refine ih ?_
    simp only [indexVectorField]
    refine h.upsert ?_ ?_
    · exact fun _ => rfl
    · rfl

/-- The columns an index pass brings along are distinct if those it read are. -/
theorem DistinctColumns.indexedVectorFields (h : DistinctColumns m.vectorFields) (toSeq : Nat)
    (built : List (String × Nat)) : DistinctColumns (indexedVectorFields m toSeq built) := by
  refine DistinctColumns.index ?_ m.schema toSeq built
  split
  · exact ⟨Nat.le_succ 1, nodup_singleton _⟩
  · exact h

/-! ## The writers -/

theorem resolveDistanceMetric_eq {requested : Option DistanceMetric} {metric : DistanceMetric}
    (h : resolveDistanceMetric m requested = .ok metric) (hpos : 0 < m.walCommitSeq) :
    metric = m.distanceMetric := by
  unfold resolveDistanceMetric at h
  split at h
  · cases h
    rfl
  · rw [if_neg (Nat.ne_of_gt hpos)] at h
    split at h
    · cases h
      rfl
    · cases h

/-- An append computes sound metadata that follows what it read. -/
theorem NamespaceMeta.Sound.walCommit {m' : NamespaceMeta} {seq : Nat} {patch : Option Json}
    {metric : Option DistanceMetric} (hm : m.Sound)
    (h : metaAfterWalCommitOptions m seq patch metric = .ok m') : m'.Sound ∧ m.Follows m' := by
  obtain ⟨hseq, schema, resolved, -, hresolved, rfl⟩ := metaAfterWalCommitOptions_inv h
  obtain ⟨name, dims, id, ids, heq⟩ := syncLegacyVectorFields_eq
    (hydrateVectorFieldsFromSchema { m with walCommitSeq := seq, schema })
  simp only [metaAtCommit, heq]
  have hcursor := hm.cursor_le_commit
  have hmax := hm.commit_le_max
  have hnext : m.walCommitSeq ≤ seq ∧ seq ≤ m.walCommitSeq + 1 ∧ seq ≤ u64Max := by
    rw [hseq, saturatingAdd]
    omega
  refine ⟨⟨hnext.2.2, hm.snapshot_le_cursor, ?_, hm.segments, hm.columns.hydrate schema _⟩,
    ⟨hnext.1, hnext.2.1, Nat.le_refl _, Nat.le_refl _, resolveDistanceMetric_eq hresolved⟩⟩
  exact Nat.le_trans hcursor hnext.1

/-- An index commit computes sound metadata that follows what it read. -/
theorem NamespaceMeta.Sound.indexCommit {m' : NamespaceMeta} {cursor ann : Nat} (hm : m.Sound)
    (hfields : DistinctColumns fields)
    (h : metaAfterIndexCommit m cursor cursor cursor fields ann = .ok m') :
    m'.Sound ∧ m.Follows m' := by
  obtain ⟨hcursor, hcommit, version, rfl⟩ := metaAfterIndexCommit_inv h
  obtain ⟨name, dims, id, ids, heq⟩ := syncLegacyVectorFields_eq
    { m with
      indexCursor := cursor
      ftsSegmentId := cursor
      ftsSegmentIds := pushSegmentId m.ftsSegmentIds cursor
      filterSegmentId := cursor
      filterSegmentIds := pushSegmentId m.filterSegmentIds cursor
      vectorFields := fields }
  simp only [metaAtCursor, heq]
  have hsnap := hm.snapshot_le_cursor
  refine ⟨⟨hm.commit_le_max, ?_, hcommit, fun _ => ⟨rfl, rfl⟩, hfields⟩,
    ⟨Nat.le_refl _, Nat.le_succ _, Nat.le_of_lt hcursor, Nat.le_refl _, fun _ => rfl⟩⟩
  exact Nat.le_trans hsnap (Nat.le_of_lt hcursor)

/-- A compaction records a snapshot at the cursor. -/
theorem NamespaceMeta.Sound.compaction {read : CompactionRead} (hm : read.found.1.Sound) :
    read.newMeta.Sound ∧ read.found.1.Follows read.newMeta :=
  ⟨⟨hm.commit_le_max, Nat.le_refl _, hm.cursor_le_commit, hm.segments, hm.columns⟩,
    ⟨Nat.le_refl _, Nat.le_succ _, Nat.le_refl _, hm.snapshot_le_cursor, fun _ => rfl⟩⟩

/-! ## What the tasks know -/

def Task.replaces : Task → Option MetaRead
  | .appendPutWal _ _ _ read => some read
  | .appendPutMeta _ _ prep => some prep.read
  | .indexPutMeta _ _ prep => some (some prep.read)
  | .compactGetSnapshot _ read | .compactGetWal _ read _ _ | .compactPutSnapshot _ read _
  | .compactPutMeta _ read => some (some read.found)
  | _ => none

/-- The columns an index pass brings along. -/
def Task.columns : Task → List VectorFieldConfig
  | .indexRecheck _ _ _ plan | .indexLock _ _ plan | .indexGetLocked _ _ _ plan =>
    plan.vectorFields
  | .indexPutMeta _ _ prep => prep.newMeta.vectorFields
  | _ => []

/-- A task replaces a version it has read, and brings distinct columns along. -/
structure MetaFacts (sh : Shared) (t : Task) : Prop where
  seen : ∀ read, t.replaces = some read → sh.store.metaJson.Seen read
  columns : DistinctColumns t.columns

theorem DistinctColumns.nil : DistinctColumns [] := ⟨Nat.zero_le _, nodup_nil⟩

theorem Task.replaces_of_isFresh (h : t.isFresh = true) : t.replaces = none := by
  cases t <;> first | rfl | cases h

theorem compactReplay_replaces (attempt : Nat) (read : CompactionRead) (docs : DocMap)
    (seq : Nat) : (compactReplay attempt read docs seq).replaces = some (some read.found) := by
  unfold compactReplay
  split <;> rfl

/-- A task that replaces a version after its request read it just now or did so
before. -/
theorem taskStep_replaces {read : MetaRead}
    (h : (taskStep ns st r built t).task.replaces = some read) :
    t.replaces = some read ∨ fetchMeta ns st r = .ok read := by
  have hnext := taskStep_next ns st r built t
  generalize (taskStep ns st r built t).task = t' at hnext h
  cases hnext with
  | fresh hfresh =>
    rw [Task.replaces_of_isFresh hfresh] at h
    cases h
  | appendRead hf | indexPrepared hf | compactRead hf =>
    cases h
    exact Or.inr hf
  | putAgain => exact Or.inl h
  | prepared hread =>
    subst hread
    exact Or.inl h
  | conflict | cursorStored | deleted => cases h
  | snapshotRead | walRead =>
    rw [compactReplay_replaces] at h
    exact Or.inl h
  | snapshotStored => exact Or.inl h

theorem columns_of_fetchMeta {tag : Nat} (hst : st.storedMeta.Sound)
    (h : fetchMeta ns st r = .ok (some (m, tag))) : DistinctColumns m.vectorFields := by
  have hcolumns := hst.columns
  rw [storedMeta_of_current (fetchMeta_eq_some h)] at hcolumns
  exact hcolumns

/-- The columns stay distinct through a request. -/
theorem taskStep_columns (hst : st.storedMeta.Sound) (ht : DistinctColumns t.columns) :
    DistinctColumns (taskStep ns st r built t).task.columns := by
  cases t with
  | indexGet call attempt tries =>
    simp only [taskStep, retryGet]
    split
    · rename_i m tag hf
      split
      · exact .nil
      · exact (columns_of_fetchMeta hst hf).indexedVectorFields _ built
    · exact .nil
    · split <;> exact .nil
  | indexRecheck call attempt tries plan =>
    simp only [taskStep, retryGet, indexContinue]
    repeat' split
    all_goals first | exact .nil | exact ht
  | indexLock call attempt plan => exact ht
  | indexGetLocked call attempt tries plan =>
    simp only [taskStep, retryGet, indexContinue, prepareIndex]
    repeat' split
    all_goals first
      | exact .nil
      | exact ht
      | rename_i hm; simp only [Task.columns, metaAfterIndexCommit_vectorFields hm]; exact ht
  | compactDelete seqs =>
    cases seqs with
    | nil => exact .nil
    | cons seq rest => exact .nil
  | _ =>
    simp only [taskStep, retryGet, prepareCommit, compactReplay]
    repeat' split
    all_goals exact .nil

theorem MetaFacts.of_moves {P R : Type} {s : Cluster P R} {a : Action P}
    (hfacts : ∀ p, MetaFacts s.shared (s.task p)) (h : s.Moves a t) : MetaFacts s.shared t := by
  refine ⟨?_, ?_⟩
  · intro read hread
    rw [Task.replaces_of_isFresh h.isFresh] at hread
    cases hread
  · cases a with
    | start p job =>
      cases h
      cases job <;> exact .nil
    | acquire p =>
      have hcolumns := (hfacts p).columns
      have hacquired : (s.task p).acquired = some t := h
      revert hcolumns hacquired
      cases s.task p <;> intro hcolumns hacquired <;> cases hacquired
      · exact hcolumns
      · exact .nil
    | send p r built => cases h
    | stop p =>
      cases h
      exact .nil

/-- What a request knows afterwards. -/
theorem MetaFacts.after (hst : sh.store.storedMeta.Sound) (ht : MetaFacts sh t) :
    MetaFacts (sh.after (taskStep ns sh.store r built t))
      (taskStep ns sh.store r built t).task := by
  refine ⟨?_, taskStep_columns hst ht.columns⟩
  intro read hread
  rcases taskStep_replaces hread with hold | hf
  · exact Seen_apply (ht.seen read hold)
  · exact Seen_apply (seen_of_fetchMeta hf)

theorem MetaFacts.other {o : Outcome} (ht : MetaFacts sh t) : MetaFacts (sh.after o) t :=
  ⟨fun read hread => Seen_apply (ht.seen read hread), ht.columns⟩

/-- A conditional PUT finds the version its task read. -/
theorem MetaFacts.storedMeta_eq (ht : MetaFacts sh t) (read : MetaRead)
    (hread : t.replaces = some read) (hhit : sh.store.metaJson.Matches read) :
    sh.store.storedMeta = read.metaOrDefault := by
  rw [Store.storedMeta, (ht.seen read hread).eq_of_matches hhit]

/-! ## Runs -/

/-- The metadata a write leaves is sound and follows the metadata before it. -/
theorem MetaFacts.effect (hst : sh.store.storedMeta.Sound) (ht : MetaFacts sh t) :
    let st' := sh.store.apply (taskStep ns sh.store r built t).effect
    st'.storedMeta.Sound ∧ sh.store.storedMeta.Follows st'.storedMeta := by
  have hcurrent := ht.storedMeta_eq
  refine taskStep_effect_of_writes
    (Q := fun eff => (sh.store.apply eff).storedMeta.Sound ∧
      sh.store.storedMeta.Follows (sh.store.apply eff).storedMeta) ⟨hst, .refl _⟩ ?_
  intro eff hw
  cases hw with
  | putWal | undoWal | putSnapshot | deleteWal => exact ⟨hst, .refl _⟩
  | @commit c attempt prep hhit =>
    have hread := hcurrent _ rfl hhit
    rw [hread] at hst ⊢
    exact hst.walCommit prep.prepared
  | @index call attempt prep hhit =>
    have hread : sh.store.storedMeta = prep.read.1 := hcurrent _ rfl hhit
    have hcolumns : DistinctColumns prep.newMeta.vectorFields := ht.columns
    obtain ⟨plan, ann, hprep⟩ := prep.prepared
    rw [metaAfterIndexCommit_vectorFields hprep] at hcolumns
    rw [hread] at hst ⊢
    exact hst.indexCommit hcolumns hprep
  | @compact attempt read hhit =>
    have hread : sh.store.storedMeta = read.found.1 := hcurrent _ rfl hhit
    rw [hread] at hst ⊢
    exact hst.compaction

section Runs

variable {P R : Type} [DecidableEq P] [DecidableEq R] {ns : String} {proc : P → R}

structure MetaInv (proc : P → R) (s : Cluster P R) : Prop where
  locked : s.Locked proc
  sound : s.shared.store.storedMeta.Sound
  facts : ∀ p, MetaFacts s.shared (s.task p)

theorem MetaInv.step {s s' : Cluster P R} {a : Action P} (h : MetaInv proc s)
    (hstep : (cluster ns proc).step s a = some s') :
    MetaInv proc s' ∧ s.shared.store.storedMeta.Follows s'.shared.store.storedMeta := by
  obtain ⟨hl, ⟨hsound, hfollows⟩, hfacts⟩ := step_invariant
    (I := fun sh => sh.store.storedMeta.Sound ∧
      s.shared.store.storedMeta.Follows sh.store.storedMeta)
    (T := MetaFacts) hstep h.locked ⟨h.sound, .refl _⟩ h.facts
    (fun t ht => .of_moves h.facts ht)
    (by
      rintro p r built rfl -
      exact ⟨(h.facts p).effect h.sound, (h.facts p).after h.sound⟩)
    (by
      rintro p r built q rfl - -
      exact (h.facts q).other)
  exact ⟨⟨hl, hsound, hfacts⟩, hfollows⟩

/-- Start with no `meta.json` and let any number of processes append, index and
compact.  Every version they store is sound, and every step leaves it or
replaces it by one that may follow it. -/
theorem stored_meta_sound {s u : Cluster P R} {as : List (Action P)} (hidle : s.Idle)
    (habsent : s.shared.store.metaJson.current = none) (hvisit : (cluster ns proc).Visits s as u) :
    u.shared.store.storedMeta.Sound ∧
      ∀ a u', (cluster ns proc).step u a = some u' →
        u.shared.store.storedMeta.Follows u'.shared.store.storedMeta := by
  have hinit : MetaInv proc s := by
    refine ⟨hidle.locked, ?_, ?_⟩
    · rw [Store.storedMeta, habsent]
      exact .empty
    · intro p
      rw [hidle.1 p]
      exact ⟨fun read hread => (by cases hread), .nil⟩
  have hinv : MetaInv proc u :=
    Machine.visits_keeps (fun v a v' hv hs => (hv.step hs).1) hinit hvisit
  exact ⟨hinv.sound, fun a u' hs => (hinv.step hs).2⟩

end Runs

/-- Two threads of two processes: the first commits eleven entries, indexes and
compacts them, the second commits one more. -/
theorem compactOnce_meta_sound :
    ∃ u, (cluster "ns" (id : Fin 2 → Fin 2)).run (.init .empty)
        (compactOnce 0 ++ appendRun 1 { entry := oneDoc "b" }) = some u ∧
      u.shared.store.storedMeta.walCommitSeq = 12 ∧
      u.shared.store.storedMeta.walSnapshotSeq = 11 ∧ u.shared.store.storedMeta.Sound := by
  obtain ⟨u, hu, hcommit, hsnap⟩ : ∃ u, (cluster "ns" (id : Fin 2 → Fin 2)).run (.init .empty)
      (compactOnce 0 ++ appendRun 1 { entry := oneDoc "b" }) = some u ∧
        u.shared.store.storedMeta.walCommitSeq = 12 ∧
        u.shared.store.storedMeta.walSnapshotSeq = 11 := by
    decide +kernel
  exact ⟨u, hu, hcommit, hsnap,
    (stored_meta_sound (Cluster.init_idle _) rfl (Machine.visits_end hu)).1⟩

end OpenPuffer
