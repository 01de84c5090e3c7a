import OpenPuffer.Buffer.Acknowledge

/-!
# The metric of an acknowledged write

The first commit of a namespace sets its distance metric, and a later commit that asks for
another one fails.  The check is made once for each batch, with the last metric that was asked
for.  So the metric of every acknowledged write is stored exactly if the requests of every
committed batch agree.
-/

namespace OpenPuffer

open Option Engine

/-! ## Metadata that keeps its metric -/

/-- The requested metric is stored, and no commit can change it. -/
def NamespaceMeta.Fixes (m : NamespaceMeta) (requested : Option DistanceMetric) : Prop :=
  ∀ d, requested = some d → m.walCommitSeq ≠ 0 ∧ m.distanceMetric = d

variable {m m' : NamespaceMeta}

theorem distanceMetric_of_commit {seq : Nat} {patch : Option Json}
    {metric : Option DistanceMetric} (h : metaAfterWalCommitOptions m seq patch metric = .ok m') :
    m'.walCommitSeq ≠ 0 ∧ resolveDistanceMetric m metric = .ok m'.distanceMetric := by
  obtain ⟨hseq, schema, resolved, -, hresolved, rfl⟩ := metaAfterWalCommitOptions_inv h
  refine ⟨?_, hresolved⟩
  rw [(metaAfterWalCommitOptions_counters h).1, hseq, saturatingAdd]
  have hmax : 0 < u64Max := by decide
  omega

/-- A commit stores the metric it asks for. -/
theorem fixes_of_commit {seq : Nat} {patch : Option Json} {metric : Option DistanceMetric}
    (h : metaAfterWalCommitOptions m seq patch metric = .ok m') : m'.Fixes metric := by
  obtain ⟨hpos, hresolved⟩ := distanceMetric_of_commit h
  rintro d rfl
  refine ⟨hpos, ?_⟩
  simp only [resolveDistanceMetric] at hresolved
  split at hresolved
  · exact (Except.ok.inj hresolved).symm
  · split at hresolved
    · rename_i heq
      exact (Except.ok.inj hresolved).symm.trans heq.symm
    · cases hresolved

namespace NamespaceMeta.Fixes

variable {m m' : NamespaceMeta} {requested : Option DistanceMetric}

theorem none (m : NamespaceMeta) : m.Fixes none := by
  intro d h
  cases h

theorem congr (h : m.Fixes requested) (hseq : m'.walCommitSeq = m.walCommitSeq)
    (hmetric : m'.distanceMetric = m.distanceMetric) : m'.Fixes requested := by
  intro d hd
  rw [hseq, hmetric]
  exact h d hd

theorem commit {seq : Nat} {patch : Option Json} {metric : Option DistanceMetric}
    (h : m.Fixes requested) (hcommit : metaAfterWalCommitOptions m seq patch metric = .ok m') :
    m'.Fixes requested := by
  intro d hd
  obtain ⟨hpos, hd'⟩ := h d hd
  obtain ⟨hpos', hresolved⟩ := distanceMetric_of_commit hcommit
  refine ⟨hpos', ?_⟩
  rw [← hd']
  cases metric with
  | none => exact (Except.ok.inj hresolved).symm
  | some asked =>
    simp only [resolveDistanceMetric, if_neg hpos] at hresolved
    split at hresolved
    · exact (Except.ok.inj hresolved).symm
    · cases hresolved

end NamespaceMeta.Fixes

theorem syncLegacyVectorFields_distanceMetric (m : NamespaceMeta) :
    (syncLegacyVectorFields m).distanceMetric = m.distanceMetric := by
  unfold syncLegacyVectorFields
  split
  · rfl
  · split <;> rfl

/-- The other writers of `meta.json`. -/
inductive MetaWriter where
  /-- An append of another process. -/
  | append (e : WalEntry) (schemaPatch : Option Json) (distanceMetric : Option DistanceMetric)
  | index (indexCursor ftsSegmentId filterSegmentId : Nat) (vectorFields : List VectorFieldConfig)
      (annVersion : Nat)
  | compact (snapshotSeq : Nat)

def MetaWriter.write (m : NamespaceMeta) : MetaWriter → Except String NamespaceMeta
  | .append _ schemaPatch distanceMetric =>
    metaAfterWalCommitOptions m (nextWalSeq m) schemaPatch distanceMetric
  | .index indexCursor ftsSegmentId filterSegmentId vectorFields annVersion =>
    metaAfterIndexCommit m indexCursor ftsSegmentId filterSegmentId vectorFields annVersion
  | .compact snapshotSeq => .ok { m with walSnapshotSeq := snapshotSeq }

/-- No writer of `meta.json` changes a metric that is fixed. -/
theorem NamespaceMeta.Fixes.write {requested : Option DistanceMetric} {w : MetaWriter}
    (h : m.Fixes requested) (hw : w.write m = .ok m') : m'.Fixes requested := by
  cases w with
  | append e schemaPatch distanceMetric => exact h.commit hw
  | index cursor fts filter fields ann =>
    obtain ⟨-, -, version, rfl⟩ := metaAfterIndexCommit_inv hw
    exact h.congr (metaAfterIndexCommit_counters hw).1
      (syncLegacyVectorFields_distanceMetric _)
  | compact snapshotSeq =>
    cases hw
    exact h.congr rfl rfl

/-! ## The machine -/

/-- The buffer and the metadata its batches are committed to. -/
structure MetricEngine (W T : Type) where
  engine : Engine W T
  stored : NamespaceMeta

inductive MetricAction (W T : Type) where
  | buffer (a : EngineAction W T)
  | other (w : MetaWriter)

namespace MetricEngine

variable {W T : Type}

/-- An empty buffer for a namespace. -/
def init (m : NamespaceMeta) : MetricEngine W T := ⟨.init, m⟩

variable [DecidableEq W] [DecidableEq T]

/-- `append_wal` succeeds only with metadata to store. -/
def step (cfg : WriteBufferConfig) (s : MetricEngine W T) :
    MetricAction W T → Option (MetricEngine W T)
  | .buffer (.otherCommit _) => none
  | .buffer (.appended t (.ok ())) =>
    match s.engine.tasks t with
    | .appending _ b =>
      match metaAfterWalCommitOptions s.stored (nextWalSeq s.stored) b.pending.schemaPatch
          b.pending.distanceMetric with
      | .ok m => (s.engine.step cfg (.appended t (.ok ()))).map (⟨·, m⟩)
      | .error _ => none
    | _ => none
  | .buffer a => (s.engine.step cfg a).map (⟨·, s.stored⟩)
  | .other w =>
    match w.write s.stored, w with
    | .ok m, .append e _ _ => (s.engine.step cfg (.otherCommit e)).map (⟨·, m⟩)
    | .ok m, _ => some ⟨s.engine, m⟩
    | .error _, _ => none

/-- What a step does to the buffer and to the metadata. -/
inductive Moves (cfg : WriteBufferConfig) (s : MetricEngine W T) :
    MetricAction W T → MetricEngine W T → Prop where
  | buffer {a e} : s.engine.Steps cfg a e → (∀ t, a ≠ .appended t (.ok ())) →
      Moves cfg s (.buffer a) ⟨e, s.stored⟩
  | appended {t all b m} : s.engine.tasks t = .appending all b →
      metaAfterWalCommitOptions s.stored (nextWalSeq s.stored) b.pending.schemaPatch
        b.pending.distanceMetric = .ok m →
      Moves cfg s (.buffer (.appended t (.ok ())))
        ⟨{ s.engine with log := s.engine.log ++ [b.pending.entry] }.setTask t
          (.recording all b (s.engine.log.length + 1)), m⟩
  | other {w m log} : w.write s.stored = .ok m →
      Moves cfg s (.other w) ⟨{ s.engine with log }, m⟩

end MetricEngine

def metricEngine (W T : Type) [DecidableEq W] [DecidableEq T] (cfg : WriteBufferConfig) :
    Machine (MetricEngine W T) (MetricAction W T) := ⟨MetricEngine.step cfg⟩

namespace MetricEngine

variable {W T : Type} [DecidableEq W] [DecidableEq T]

theorem moves_of_step {cfg : WriteBufferConfig} {s s' : MetricEngine W T} {a : MetricAction W T}
    (h : (metricEngine W T cfg).step s a = some s') : s.Moves cfg a s' := by
  change s.step cfg a = some s' at h
  have hbuffer : ∀ a, (s.engine.step cfg a).map (⟨·, s.stored⟩) = some s' →
      (∀ t, a ≠ .appended t (.ok ())) → s.Moves cfg (.buffer a) s' := by
    intro a hmap hnot
    obtain ⟨e, he, rfl⟩ := map_eq_some_iff.mp hmap
    exact .buffer (Engine.step_cases he) hnot
  cases a with
  | other w =>
    simp only [step] at h
    split at h
    · rename_i m e patch metric hw
      obtain ⟨e', he', rfl⟩ := map_eq_some_iff.mp h
      cases he'
      exact .other hw
    · rename_i m _ hw
      cases h
      exact .other hw
    · cases h
  | buffer a =>
    cases a with
    | otherCommit e => cases h
    | appended t result =>
      cases result with
      | error msg => exact hbuffer _ h (by simp)
      | ok done =>
        simp only [step] at h
        split at h
        · rename_i all b hphase
          split at h
          · rename_i m hm
            obtain ⟨e, he, rfl⟩ := map_eq_some_iff.mp h
            simp only [Engine.step, hphase, some.injEq] at he
            subst he
            exact .appended hphase hm
          · cases h
        · cases h
    | _ => exact hbuffer _ h (by simp)

end MetricEngine

/-! ## The invariant -/

namespace Engine

variable {W T : Type}

def metricOf (s : Engine W T) (w : W) : Option DistanceMetric :=
  (s.calls w).request.bind WriteRequest.distanceMetric

/-- The call was made, and if it asked for a metric the slot is filled. -/
def Lodged (s : Engine W T) (w : W) (slot : Option DistanceMetric) : Prop :=
  (s.calls w).request.isSome ∧ ((s.metricOf w).isSome → slot.isSome)

/-- The requests of a batch agree: each one that asks for a metric asks for the one
in the slot. -/
def OneMetric (s : Engine W T) (b : FlushBatch W) : Prop :=
  ∀ wt ∈ b.waiters, ∀ d ∈ s.metricOf wt.tx, b.pending.distanceMetric = some d

instance (s : Engine W T) (b : FlushBatch W) : Decidable (s.OneMetric b) :=
  inferInstanceAs (Decidable (∀ wt ∈ b.waiters, ∀ d ∈ s.metricOf wt.tx, _))

end Engine

/-- What is known about the metrics of a buffer whose batches go to `m`. -/
structure MetricInv {W T : Type} (m : NamespaceMeta) (s : Engine W T) : Prop where
  asked : ∀ w, (s.answers w).isSome → (s.calls w).request.isSome
  waiting : ∀ wt ∈ s.state.waiters, s.Lodged wt.tx s.state.distanceMetric
  batch : ∀ t b, (s.tasks t).batch = some b →
    ∀ wt ∈ b.waiters, s.Lodged wt.tx b.pending.distanceMetric
  recording : ∀ t all b seq, s.tasks t = .recording all b seq → m.Fixes b.pending.distanceMetric
  answered : ∀ w b, s.answers w = some (.ok b) → m.Fixes (s.metricOf w)

namespace MetricInv

variable {W T : Type} {m : NamespaceMeta} {s : Engine W T}

theorem init (m : NamespaceMeta) : MetricInv m (Engine.init : Engine W T) :=
  ⟨nofun, nofun, nofun, nofun, nofun⟩

theorem moveMeta (h : MetricInv m s) {m' : NamespaceMeta}
    (hfixes : ∀ requested, m.Fixes requested → m'.Fixes requested) : MetricInv m' s :=
  ⟨h.asked, h.waiting, h.batch, fun t all b seq ht => hfixes _ (h.recording t all b seq ht),
    fun w b hb => hfixes _ (h.answered w b hb)⟩

/-- The log does not matter. -/
theorem setLog (h : MetricInv m s) (log : List WalEntry) : MetricInv m { s with log } :=
  ⟨h.asked, h.waiting, h.batch, h.recording, h.answered⟩

variable {s' : Engine W T} {t : T} {p : FlushTask W} {all : Bool}

theorem quiet (h : MetricInv m s) (hq : s.Quiet s') : MetricInv m s' := by
  have hmetric : s'.metricOf = s.metricOf := by
    funext w
    rw [metricOf, metricOf, hq.requests]
  have hlodged : s'.Lodged = s.Lodged := by
    funext w slot
    rw [Lodged, Lodged, hmetric, hq.requests]
  refine ⟨?_, ?_, ?_, ?_, ?_⟩
  · intro w hw
    rw [hq.answers] at hw
    rw [hq.requests]
    exact h.asked w hw
  · rw [hq.waiters, hlodged, hq.pending]
    exact h.waiting
  · intro t b hb
    rw [hq.batches t b hb] at hb
    rw [hlodged]
    exact h.batch t b hb
  · exact fun t all b seq ht => h.recording t all b seq (hq.recording ht)
  · rw [hq.answers, hmetric]
    exact h.answered

theorem setTask [DecidableEq T] (h : MetricInv m s)
    (hbatch : ∀ b, p.batch = some b → ∀ wt ∈ b.waiters, s.Lodged wt.tx b.pending.distanceMetric)
    (hrecording : ∀ all b seq, p = .recording all b seq → m.Fixes b.pending.distanceMetric) :
    MetricInv m (s.setTask t p) := by
  refine ⟨h.asked, h.waiting, ?_, ?_, h.answered⟩
  · exact (Function.forall_update_iff s.tasks fun _ p => ∀ b, p.batch = some b →
      ∀ wt ∈ b.waiters, s.Lodged wt.tx b.pending.distanceMetric).mpr ⟨hbatch, fun r _ => h.batch r⟩
  · exact (Function.forall_update_iff s.tasks fun _ p => ∀ all b seq, p = .recording all b seq →
      m.Fixes b.pending.distanceMetric).mpr ⟨hrecording, fun r _ => h.recording r⟩

/-- A filled slot stays filled, and is filled by a write that asks for a metric. -/
theorem slot_enqueue (cfg : WriteBufferConfig) (st : BufferState W) (w : W) (req : WriteRequest) :
    (st.distanceMetric.isSome → (st.enqueue cfg w req).1.distanceMetric.isSome) ∧
      ∀ wt ∈ (st.enqueue cfg w req).1.waiters, wt ∈ st.waiters ∨
        (wt.tx = w ∧ (req.distanceMetric.isSome →
          (st.enqueue cfg w req).1.distanceMetric.isSome)) := by
  obtain ⟨state, msg | next, hres⟩ : ∃ state res, st.enqueue cfg w req = (state, res) :=
    ⟨_, _, rfl⟩
  · rw [hres, (BufferState.enqueue_error hres).1]
    exact ⟨id, fun _ => .inl⟩
  · obtain ⟨hadd, hwaiters, -, -⟩ := BufferState.enqueue_ok hres
    have hslot := Pending.distanceMetric_of_add hadd
    rw [hres]
    refine ⟨fun hsome => ?_, fun wt hwt => ?_⟩
    · rw [hslot, isSome_or, hsome, Bool.or_true]
    · rw [hwaiters, List.mem_append, List.mem_singleton] at hwt
      refine hwt.imp_right ?_
      rintro rfl
      refine ⟨rfl, fun hsome => ?_⟩
      rw [hslot, isSome_or, hsome, Bool.true_or]

section

variable (h : MetricInv m s)

include h

/-- A call hands its metric over, accepted or not. -/
theorem write [DecidableEq W] (cfg : WriteBufferConfig) {w : W}
    {req : WriteRequest} (hidle : s.calls w = .idle) :
    MetricInv m ({ s with
      state := (s.state.enqueue cfg w req).1
      queued := s.queued ++ [w] }.setCall w (.waiting req)) := by
  let s' : Engine W T := setCall
    { s with state := (s.state.enqueue cfg w req).1, queued := s.queued ++ [w] } w (.waiting req)
  have hself : (s'.calls w).request = some req :=
    congrArg WriteCall.request (calls_setCall_self _ w _)
  have hother : ∀ v, v ≠ w → (s'.calls v).request = (s.calls v).request :=
    fun v hv => congrArg WriteCall.request (calls_setCall_of_ne _ hv _)
  have hold : ∀ {v : W} {slot : Option DistanceMetric}, s.Lodged v slot → s'.Lodged v slot := by
    rintro v slot ⟨hmade, hfilled⟩
    have hvw : v ≠ w := by
      rintro rfl
      rw [hidle] at hmade
      cases hmade
    rw [Lodged, metricOf, hother v hvw]
    exact ⟨hmade, hfilled⟩
  obtain ⟨hslot, hwaiters⟩ := slot_enqueue cfg s.state w req
  refine ⟨?_, ?_, ?_, h.recording, ?_⟩
  · intro v hv
    by_cases hvw : v = w
    · rw [hvw, hself]
      rfl
    · rw [hother v hvw]
      exact h.asked v hv
  · intro wt hwt
    rcases hwaiters wt hwt with hmem | ⟨rfl, hfilled⟩
    · obtain ⟨hmade, hkept⟩ := hold (h.waiting wt hmem)
      exact ⟨hmade, fun hmetric => hslot (hkept hmetric)⟩
    · rw [Lodged, metricOf, hself]
      exact ⟨rfl, hfilled⟩
  · intro t b hb wt hwt
    exact hold (h.batch t b hb wt hwt)
  · intro v b hb
    have hvw : v ≠ w := by
      rintro rfl
      exact nomatch (answers_of_idle h.asked hidle).symm.trans hb
    rw [metricOf, hother v hvw]
    exact h.answered v b hb

theorem answer [DecidableEq W] {waiters : List (WriteWaiter W)}
    {result : WriteStats → Except String CommittedBatch}
    (hknown : ∀ wt ∈ waiters, (s.calls wt.tx).request.isSome)
    (hok : ∀ wt ∈ waiters, ∀ b, result wt.stats = .ok b → m.Fixes (s.metricOf wt.tx)) :
    MetricInv m (s.answer waiters result) := by
  obtain ⟨hasked, hanswered⟩ := answered_answer h.asked h.answered hknown hok
  exact ⟨hasked, h.waiting, h.batch, h.recording, hanswered⟩

theorem drain [DecidableEq T] :
    MetricInv m ({ s with state := {}, queued := [], appends := s.appends ++ [s.buffered] }.setTask
      t (.appending all s.buffered)) := by
  have hdrained : MetricInv m
      { s with state := {}, queued := [], appends := s.appends ++ [s.buffered] } :=
    ⟨h.asked, (fun _ hwt => nomatch hwt), h.batch, h.recording, h.answered⟩
  refine hdrained.setTask ?_ ?_
  · intro b hb
    cases hb
    exact h.waiting
  · intro _ _ _ hrec
    cases hrec

/-- Nobody who waits for an empty buffer asked for a metric. -/
theorem metricOf_of_isEmpty (hempty : s.state.isEmpty = true)
    {wt : WriteWaiter W} (hwt : wt ∈ s.state.waiters) : s.metricOf wt.tx = none := by
  rw [← not_isSome_iff_eq_none]
  intro hsome
  have hfilled := (h.waiting wt hwt).2 hsome
  rw [Pending.isEmpty_iff.mp hempty] at hfilled
  cases hfilled

theorem release [DecidableEq W] (hempty : s.state.isEmpty = true) :
    MetricInv m ({ s with state := { s.state with waiters := [] }, queued := [] }.answer
      s.state.waiters fun stats => .ok ⟨0, {}, stats⟩) := by
  have htaken : MetricInv m { s with state := { s.state with waiters := [] }, queued := [] } :=
    ⟨h.asked, (fun _ hwt => nomatch hwt), h.batch, h.recording, h.answered⟩
  refine htaken.answer (fun wt hwt => (h.waiting wt hwt).1) ?_
  intro wt hwt b _
  change m.Fixes (s.metricOf wt.tx)
  rw [h.metricOf_of_isEmpty hempty hwt]
  exact .none m

/-- The answers of a flush that failed or was committed. -/
theorem answerBatch [DecidableEq W] {b : FlushBatch W}
    {result : WriteStats → Except String CommittedBatch} (hb : (s.tasks t).batch = some b)
    (hok : ∀ wt ∈ b.waiters, ∀ c, result wt.stats = .ok c → m.Fixes (s.metricOf wt.tx)) :
    MetricInv m (s.answer b.waiters result) :=
  h.answer (fun wt hwt => (h.batch t b hb wt hwt).1) hok

theorem step [DecidableEq W] [DecidableEq T] {cfg : WriteBufferConfig} {a : EngineAction W T}
    (hsteps : s.Steps cfg a s') (hnot : ∀ t, a ≠ .appended t (.ok ()))
    (hone : ∀ t all b seq, a = .record t → s.tasks t = .recording all b seq → s.OneMetric b) :
    MetricInv m s' := by
  obtain ⟨u, heffect, hquiet⟩ := hsteps.effect
  refine quiet ?_ hquiet
  cases heffect with
  | quiet => exact h
  | write hidle => exact h.write cfg hidle
  | drain => exact h.drain
  | release hempty => exact h.release hempty
  | @committed t => exact absurd rfl (hnot t)
  | @failed t all b msg ht =>
    exact h.answerBatch (t := t) (by rw [ht]; rfl) fun _ _ _ hc => nomatch hc
  | @record t all b seq ht =>
    refine h.answerBatch (t := t) (by rw [ht]; rfl) ?_
    intro wt hwt c _ d hd
    exact h.recording t all b seq ht d (hone t all b seq rfl ht wt hwt d hd)

end

end MetricInv

namespace MetricEngine

variable {W T : Type}

/-- The metric of every acknowledged write is the stored one. -/
def MetricKept (s : MetricEngine W T) : Prop :=
  ∀ w b d, s.engine.answers w = some (.ok b) → s.engine.metricOf w = some d →
    s.stored.distanceMetric = d

/-- The requests of a batch that is acknowledged agree. -/
def BatchAgrees (s : MetricEngine W T) : MetricAction W T → Prop
  | .buffer (.record t) => ∀ b ∈ (s.engine.tasks t).batch, s.engine.OneMetric b
  | _ => True

instance (s : MetricEngine W T) (a : MetricAction W T) : Decidable (s.BatchAgrees a) :=
  match a with
  | .buffer (.record t) =>
    inferInstanceAs (Decidable (∀ b ∈ (s.engine.tasks t).batch, s.engine.OneMetric b))
  | .other _ => isTrue trivial
  | .buffer (.tick _) | .buffer (.otherCommit _) | .buffer (.write _ _) | .buffer (.abort _)
  | .buffer (.request _ _) | .buffer (.fire _ _) | .buffer (.flushAll _) | .buffer (.lock _)
  | .buffer (.cooled _) | .buffer (.drain _) | .buffer (.release _) | .buffer (.appended _ _)
  | .buffer (.store _) | .buffer (.recheck _) | .buffer (.rerequest _ _) | .buffer (.armFirst _ _)
  | .buffer (.armCooldown _ _) | .buffer (.armSecond _ _) => isTrue trivial

variable [DecidableEq W] [DecidableEq T] {cfg : WriteBufferConfig} {s s' : MetricEngine W T}
  {a : MetricAction W T}

/-- What a step keeps if the batch it acknowledges agrees. -/
theorem metricInv_step (h : MetricInv s.stored s.engine) (hagrees : s.BatchAgrees a)
    (hstep : (metricEngine W T cfg).step s a = some s') : MetricInv s'.stored s'.engine := by
  cases moves_of_step hstep with
  | @buffer a e hsteps hnot =>
    refine h.step hsteps hnot ?_
    rintro t all b seq rfl hphase
    exact hagrees b (by rw [hphase]; rfl)
  | @appended t all b m hphase hm =>
    refine ((h.moveMeta fun _ hfixes => hfixes.commit hm).setLog _).setTask ?_ ?_
    · intro b' hb
      cases hb
      exact h.batch t b (by rw [hphase]; rfl)
    · intro _ _ _ hrec
      cases hrec
      exact fixes_of_commit hm
  | other hw => exact (h.moveMeta fun _ hfixes => hfixes.write hw).setLog _

/-- A batch whose requests disagree leaves a write with a metric that is not
stored. -/
theorem batchAgrees_of_metricKept (h : MetricInv s.stored s.engine)
    (hstep : (metricEngine W T cfg).step s a = some s') (hkept : s'.MetricKept) :
    s.BatchAgrees a := by
  cases moves_of_step hstep with
  | other _ => trivial
  | appended _ _ => trivial
  | @buffer a e hsteps hnot =>
    cases hsteps with
    | @record t all b seq hphase =>
      intro b' hb' wt hwt d hd
      have hbatch : (s.engine.tasks t).batch = some b := by rw [hphase]; rfl
      obtain rfl : b = b' := some.inj (hbatch.symm.trans hb')
      have hstored : s.stored.distanceMetric = d := by
        rcases sendAnswers_cases b.waiters (fun stats => .ok ⟨seq, b.pending.entry, stats⟩)
          s.engine.answers wt.tx with ⟨wt', -, -, hanswer⟩ | ⟨hnone, -⟩
        · exact hkept wt.tx _ d hanswer hd
        · exact absurd (List.mem_map_of_mem hwt) hnone
      have hfilled := (h.batch t b hbatch wt hwt).2 (by rw [hd]; rfl)
      obtain ⟨d', hd'⟩ := isSome_iff_exists.mp hfilled
      rw [hd', ← hstored, (h.recording t all b seq hphase d' hd').2]
    | _ => trivial

end MetricEngine

/-- The metric of every acknowledged write is stored, from its answer on, exactly
if the requests of every acknowledged batch agree. -/
theorem metric_kept_iff {W T : Type} [DecidableEq W] [DecidableEq T] (cfg : WriteBufferConfig)
    (m : NamespaceMeta) {as : List (MetricAction W T)} {t : MetricEngine W T}
    (hrun : (metricEngine W T cfg).run (.init m) as = some t) :
    (∀ u, (metricEngine W T cfg).Visits (.init m) as u → u.MetricKept) ↔
      (metricEngine W T cfg).Along MetricEngine.BatchAgrees (.init m) as := by
  refine Machine.along_iff (I := fun s => MetricInv s.stored s.engine) (D := fun _ _ => True)
    ?_ ?_ ?_ (.init m) (Machine.along_of_forall _ _ fun _ _ => trivial) hrun
  · intro s h w b d hanswer hmetric
    exact (h.answered w b hanswer d hmetric).2
  · exact fun _ _ _ h _ hagrees hstep => MetricEngine.metricInv_step h hagrees hstep
  · exact fun _ _ _ h _ hstep hkept => MetricEngine.batchAgrees_of_metricKept h hstep hkept

/-- Two rows with a metric each, committed in one batch. -/
def twoMetrics (first second : DistanceMetric) : List (MetricAction (Fin 2) (Fin 1)) :=
  [.buffer (.write 0 { upserts := [⟨"a", ∅⟩], distanceMetric := some first }),
    .buffer (.write 1 { upserts := [⟨"b", ∅⟩], distanceMetric := some second }),
    .buffer (.tick 1000), .buffer (.fire 0 0), .buffer (.lock 0), .buffer (.cooled 0),
    .buffer (.drain 0), .buffer (.appended 0 (.ok ())), .buffer (.record 0)]

theorem same_metric_kept :
    ∃ s, (metricEngine (Fin 2) (Fin 1) {}).run (.init .empty)
        (twoMetrics .euclideanSquared .euclideanSquared) = some s ∧
      s.stored.distanceMetric = .euclideanSquared ∧ s.MetricKept := by
  obtain ⟨s, hs, hstored⟩ : ∃ s, (metricEngine (Fin 2) (Fin 1) {}).run (.init .empty)
      (twoMetrics .euclideanSquared .euclideanSquared) = some s ∧
        s.stored.distanceMetric = .euclideanSquared := by
    decide +kernel
  refine ⟨s, hs, hstored, (metric_kept_iff {} .empty hs).mpr ?_ s (Machine.visits_end hs)⟩
  decide +kernel

/-- Both writes are told that they are committed, and the first metric is gone. -/
theorem two_metrics_acknowledged :
    ∃ s b₀ b₁, (metricEngine (Fin 2) (Fin 1) {}).run (.init .empty)
        (twoMetrics .euclideanSquared .cosineDistance) = some s ∧
      s.engine.answers 0 = some (.ok b₀) ∧ s.engine.answers 1 = some (.ok b₁) ∧
      s.engine.metricOf 0 = some .euclideanSquared ∧ s.engine.metricOf 1 = some .cosineDistance ∧
      s.stored.distanceMetric = .cosineDistance ∧ ¬ s.MetricKept := by
  obtain ⟨s, hs, h₀, h₁, hm₀, hm₁, hstored⟩ : ∃ s,
      (metricEngine (Fin 2) (Fin 1) {}).run (.init .empty)
        (twoMetrics .euclideanSquared .cosineDistance) = some s ∧
      s.engine.answers 0 = some (.ok ⟨1, { upserts := [⟨"a", ∅⟩, ⟨"b", ∅⟩] }, {}⟩) ∧
      s.engine.answers 1 = some (.ok ⟨1, { upserts := [⟨"a", ∅⟩, ⟨"b", ∅⟩] }, {}⟩) ∧
      s.engine.metricOf 0 = some .euclideanSquared ∧ s.engine.metricOf 1 = some .cosineDistance ∧
      s.stored.distanceMetric = .cosineDistance := by
    decide +kernel
  refine ⟨s, _, _, hs, h₀, h₁, hm₀, hm₁, hstored, ?_⟩
  intro hkept
  exact nomatch hstored.symm.trans (hkept 0 _ _ h₀ hm₀)

end OpenPuffer
