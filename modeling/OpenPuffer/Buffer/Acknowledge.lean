import OpenPuffer.Buffer.Effects
import OpenPuffer.Store

/-!
# What an answer of the write buffer means

A write that is answered with a sequence has its rows in the entry committed there, and a
write that is answered with sequence 0 had nothing to commit.  The latter needs that nobody
who waits for an empty buffer has handed anything over.  A rejected write can break that: it
empties the slot of the schema patch.
-/

namespace OpenPuffer

open List Pending Engine

/-- The request has no row, schema patch or metric. -/
def WriteRequest.CarriesNothing (req : WriteRequest) : Prop :=
  req.upserts = [] ∧ req.patches = [] ∧ req.deletes = [] ∧ req.schemaPatch = none ∧
    req.distanceMetric = none

/-- The rows of `e` are in `f`, in one piece for each kind. -/
def WalEntry.Within (e f : WalEntry) : Prop :=
  e.upserts <:+: f.upserts ∧ e.patches <:+: f.patches ∧ e.deletes <:+: f.deletes

theorem infix_flatMap_of_mem {α β : Type} {f : α → List β} {a : α} {as : List α} (h : a ∈ as) :
    f a <:+: as.flatMap f := by
  obtain ⟨pre, post, rfl⟩ := append_of_mem h
  exact ⟨pre.flatMap f, post.flatMap f, by simp⟩

theorem WalEntry.within_concat {e : WalEntry} {es : List WalEntry} (h : e ∈ es) :
    e.Within (concat es) :=
  ⟨infix_flatMap_of_mem h, infix_flatMap_of_mem h, infix_flatMap_of_mem h⟩

theorem mergeSlot_none {slot patch : Option Json} (h : mergeSlot slot patch = (none, .ok ())) :
    slot = none ∧ patch = none := by
  cases patch with
  | none =>
    cases h
    exact ⟨rfl, rfl⟩
  | some patch =>
    cases slot with
    | none => cases h
    | some existing =>
      simp only [mergeSlot] at h
      split at h
      · cases h
      · cases h

/-- An accepted write leaves the queues empty only if nothing was queued. -/
theorem Pending.add_ok_isEmpty {p p' : Pending} {w : WriteRequest} (h : p.add w = (p', .ok ()))
    (hempty : p'.isEmpty = true) : p.isEmpty = true ∧ w.CarriesNothing := by
  obtain rfl := isEmpty_iff.mp hempty
  simp only [add] at h
  split at h
  · cases congrArg Prod.snd h
  · rename_i slot hslot
    simp only [extend, Prod.mk.injEq, mk.injEq, append_eq_nil_iff,
      Option.or_eq_none_iff, and_true] at h
    obtain ⟨⟨hpu, hwu⟩, ⟨hpp, hwp⟩, ⟨hpd, hwd⟩, rfl, hwm, hpm⟩ := h
    obtain ⟨hps, hws⟩ := mergeSlot_none hslot
    exact ⟨by simp [isEmpty, hpu, hpp, hpd, hps, hpm], hwu, hwp, hwd, hws, hwm⟩

namespace Engine

variable {W T : Type}

/-- The rows a call handed over. -/
def rows (s : Engine W T) (w : W) : WalEntry := (s.calls w).request.elim {} WriteRequest.entry

theorem rows_of_request {s : Engine W T} {w : W} {req : WriteRequest}
    (h : (s.calls w).request = some req) : s.rows w = req.entry := by
  rw [rows, h]
  rfl

theorem map_rows_setCall [DecidableEq W] (s : Engine W T) {w : W} {ws : List W} (h : w ∉ ws)
    (c : WriteCall) : ws.map (s.setCall w c).rows = ws.map s.rows := by
  refine map_congr_left fun v hv => ?_
  have hvw : v ≠ w := fun heq => h (heq ▸ hv)
  rw [rows, rows, calls_setCall_of_ne s hvw]

/-- An answer that is right. -/
def Acked (s : Engine W T) (w : W) (b : CommittedBatch) : Prop :=
  ∀ req, (s.calls w).request = some req →
    (0 < b.seq → entryAt s.log b.seq = some b.entry ∧ req.entry.Within b.entry) ∧
      (b.seq = 0 → req.CarriesNothing)

/-- Every call that returned `Ok` is right to do so, and no call's rows went into
two calls of `append_wal`, nor twice into one. -/
structure AckSound (s : Engine W T) : Prop where
  answered : ∀ w b, s.answers w = some (.ok b) → s.Acked w b
  appended : ∀ b ∈ s.appends, b.pending.entry = WalEntry.concat (b.sources.map s.rows)
  once : (s.appends.flatMap FlushBatch.sources).Nodup

/-- A schema patch that cannot be merged comes with a row, or finds a row or a
metric in the buffer. -/
def LeavesRows (s : Engine W T) : EngineAction W T → Prop
  | .write _ req =>
    match s.state.schemaPatch, req.schemaPatch with
    | some existing, some new =>
      (mergeSchema existing new).isOk ∨ 0 < (s.state.extend req).ops ∨
        s.state.distanceMetric.isSome
    | _, _ => True
  | _ => True

instance (s : Engine W T) (a : EngineAction W T) : Decidable (s.LeavesRows a) :=
  match a with
  | .write _ req =>
    match hslot : s.state.schemaPatch, hnew : req.schemaPatch with
    | some existing, some new =>
      decidable_of_iff ((mergeSchema existing new).isOk ∨ 0 < (s.state.extend req).ops ∨
        s.state.distanceMetric.isSome) (by simp only [LeavesRows, hslot, hnew])
    | none, _ => isTrue (by simp only [LeavesRows, hslot])
    | some _, none => isTrue (by simp only [LeavesRows, hslot, hnew])
  | .tick _ | .otherCommit _ | .abort _ | .request _ _ | .fire _ _ | .flushAll _ | .lock _
  | .cooled _ | .drain _ | .release _ | .appended _ _ | .record _ | .store _ | .recheck _
  | .rerequest _ _ | .armFirst _ _ | .armCooldown _ _ | .armSecond _ _ => isTrue trivial

theorem not_isEmpty_of_leavesRows {s : Engine W T} {w : W} {req : WriteRequest} {p : Pending}
    {msg : String} (h : s.LeavesRows (.write w req))
    (hadd : s.state.toPending.add req = (p, .error msg)) : ¬ p.isEmpty = true := by
  obtain ⟨rfl, existing, new, hslot, hnew, hmerge⟩ := add_error hadd
  simp only [LeavesRows, hslot, hnew, hmerge] at h
  intro hempty
  have hnone := isEmpty_iff.mp hempty
  rcases h with hok | hrows | hmetric
  · cases hok
  · have hops : (s.state.extend req).ops = 0 := congrArg ops hnone
    omega
  · have hgone : s.state.distanceMetric = none := congrArg distanceMetric hnone
    rw [hgone] at hmetric
    cases hmetric

end Engine

/-! ## The invariant -/

structure AckInv {W T : Type} (s : Engine W T) : Prop where
  known : ∀ w, w ∈ s.appends.flatMap FlushBatch.sources ++ s.queued → (s.calls w).request.isSome
  nodup : (s.appends.flatMap FlushBatch.sources ++ s.queued).Nodup
  queued : s.state.entry = WalEntry.concat (s.queued.map s.rows)
  waiters : ∀ wt ∈ s.state.waiters, wt.tx ∈ s.queued
  carried : s.state.isEmpty = true → ∀ wt ∈ s.state.waiters,
    ∀ req, (s.calls wt.tx).request = some req → req.CarriesNothing
  appended : ∀ b ∈ s.appends, b.pending.entry = WalEntry.concat (b.sources.map s.rows) ∧
    ∀ wt ∈ b.waiters, wt.tx ∈ b.sources
  batch : ∀ t b, (s.tasks t).batch = some b → b ∈ s.appends
  recording : ∀ t all b seq, s.tasks t = .recording all b seq →
    0 < seq ∧ entryAt s.log seq = some b.pending.entry
  asked : ∀ w, (s.answers w).isSome → (s.calls w).request.isSome
  answered : ∀ w b, s.answers w = some (.ok b) → s.Acked w b

namespace AckInv

variable {W T : Type} {s : Engine W T}

theorem sound (h : AckInv s) : s.AckSound :=
  ⟨h.answered, fun b hb => (h.appended b hb).1, (nodup_append.mp h.nodup).1⟩

theorem init : AckInv (Engine.init : Engine W T) :=
  ⟨nofun, nodup_nil, rfl, nofun, nofun, nofun, nofun, nofun, nofun, nofun⟩

variable {s' : Engine W T} {t : T} {p : FlushTask W} {all : Bool} {b : FlushBatch W}
  {req : WriteRequest} {w : W}

/-- Rows that are committed stay committed. -/
theorem acked_mono (hlog : s.log <+: s'.log)
    (hrequests : ∀ w, (s'.calls w).request = (s.calls w).request) {b : CommittedBatch}
    (h : s.Acked w b) : s'.Acked w b := by
  obtain ⟨rest, hrest⟩ := hlog
  intro req hreq
  rw [hrequests] at hreq
  obtain ⟨hcommitted, hempty⟩ := h req hreq
  refine ⟨fun hpos => ?_, hempty⟩
  obtain ⟨hentry, hwithin⟩ := hcommitted hpos
  rw [← hrest]
  exact ⟨entryAt_append_of_some hentry rest, hwithin⟩

theorem quiet (h : AckInv s) (hq : s.Quiet s') : AckInv s' := by
  have hrows : s'.rows = s.rows := by
    funext w
    rw [rows, rows, hq.requests]
  refine ⟨?_, ?_, ?_, ?_, ?_, ?_, ?_, ?_, ?_, ?_⟩
  · intro w hw
    rw [hq.appends, hq.queued] at hw
    rw [hq.requests]
    exact h.known w hw
  · rw [hq.appends, hq.queued]
    exact h.nodup
  · rw [hq.queued, hrows, hq.pending]
    exact h.queued
  · rw [hq.waiters, hq.queued]
    exact h.waiters
  · rw [hq.pending, hq.waiters]
    intro hempty wt hwt req hreq
    rw [hq.requests] at hreq
    exact h.carried hempty wt hwt req hreq
  · rw [hq.appends, hrows]
    exact h.appended
  · intro t b hb
    rw [hq.batches t b hb] at hb
    rw [hq.appends]
    exact h.batch t b hb
  · intro t all b seq ht
    obtain ⟨hpos, hentry⟩ := h.recording t all b seq (hq.recording ht)
    obtain ⟨rest, hrest⟩ := hq.log
    rw [← hrest]
    exact ⟨hpos, entryAt_append_of_some hentry rest⟩
  · intro w hw
    rw [hq.answers] at hw
    rw [hq.requests]
    exact h.asked w hw
  · intro w b hb
    rw [hq.answers] at hb
    exact acked_mono hq.log hq.requests (h.answered w b hb)

/-- The rows of a waiter are in the entry of its batch. -/
theorem within_batch (h : AckInv s) (hb : b ∈ s.appends) {wt : WriteWaiter W}
    (hwt : wt ∈ b.waiters) (hreq : (s.calls wt.tx).request = some req) :
    req.entry.Within b.pending.entry := by
  obtain ⟨hentry, hsources⟩ := h.appended b hb
  rw [hentry, ← rows_of_request hreq]
  exact WalEntry.within_concat (mem_map_of_mem (hsources wt hwt))

theorem answer [DecidableEq W] (h : AckInv s) {waiters : List (WriteWaiter W)}
    {result : WriteStats → Except String CommittedBatch}
    (hknown : ∀ wt ∈ waiters, (s.calls wt.tx).request.isSome)
    (hok : ∀ wt ∈ waiters, ∀ b, result wt.stats = .ok b → s.Acked wt.tx b) :
    AckInv (s.answer waiters result) := by
  obtain ⟨hasked, hanswered⟩ := answered_answer h.asked h.answered hknown hok
  exact ⟨h.known, h.nodup, h.queued, h.waiters, h.carried, h.appended, h.batch, h.recording,
    hasked, hanswered⟩

/-! ## Steps -/

/-- A call that has not started has no rows in the buffer or in a batch. -/
theorem not_mem_of_idle (h : AckInv s) (hidle : s.calls w = .idle) :
    w ∉ s.appends.flatMap FlushBatch.sources ++ s.queued := by
  intro hmem
  have hsome := h.known w hmem
  rw [hidle] at hsome
  cases hsome

/-- A write that leaves nothing to commit had nothing, and found nothing. -/
theorem carriesNothing_of_isEmpty {cfg : WriteBufferConfig}
    (hleaves : s.LeavesRows (.write w req))
    (hempty : (s.state.enqueue cfg w req).1.isEmpty = true) :
    s.state.isEmpty = true ∧ req.CarriesNothing := by
  simp only [BufferState.enqueue] at hempty
  split at hempty
  · rename_i pending msg hadd
    exact absurd hempty (not_isEmpty_of_leavesRows hleaves hadd)
  · rename_i pending hadd
    exact add_ok_isEmpty hadd hempty

section

variable (h : AckInv s)

include h

/-- A call hands its rows over, accepted or not. -/
theorem write [DecidableEq W] (cfg : WriteBufferConfig)
    (hidle : s.calls w = .idle) (hleaves : s.LeavesRows (.write w req)) :
    AckInv ({ s with state := (s.state.enqueue cfg w req).1, queued := s.queued ++ [w] }.setCall w
      (.waiting req)) := by
  let s' : Engine W T := setCall
    { s with state := (s.state.enqueue cfg w req).1, queued := s.queued ++ [w] } w (.waiting req)
  have hnew := h.not_mem_of_idle hidle
  have hself : (s'.calls w).request = some req :=
    congrArg WriteCall.request (calls_setCall_self _ w _)
  have hother : ∀ v, v ≠ w → (s'.calls v).request = (s.calls v).request :=
    fun v hv => congrArg WriteCall.request (calls_setCall_of_ne _ hv _)
  have hwaiters : ∀ wt ∈ s'.state.waiters, wt ∈ s.state.waiters ∨ wt.tx = w :=
    fun wt hwt => (BufferState.mem_enqueue_waiters hwt).imp_right fun heq => by rw [heq]
  refine ⟨?_, ?_, ?_, ?_, ?_, ?_, h.batch, h.recording, ?_, ?_⟩
  · intro v hv
    by_cases hvw : v = w
    · rw [hvw, hself]
      rfl
    · rw [hother v hvw]
      change v ∈ s.appends.flatMap FlushBatch.sources ++ (s.queued ++ [w]) at hv
      rw [← append_assoc] at hv
      exact h.known v ((mem_append.mp hv).resolve_right fun hmem =>
        hvw (mem_singleton.mp hmem))
  · change (s.appends.flatMap FlushBatch.sources ++ (s.queued ++ [w])).Nodup
    rw [← append_assoc]
    refine nodup_append.mpr ⟨h.nodup, nodup_singleton w, ?_⟩
    rintro a ha b hb rfl
    exact hnew (mem_singleton.mp hb ▸ ha)
  · change s'.state.entry = WalEntry.concat ((s.queued ++ [w]).map s'.rows)
    have hqueued : s.queued.map s'.rows = s.queued.map s.rows :=
      map_rows_setCall _ (fun hmem => hnew (mem_append_right _ hmem)) _
    have hentry : s'.state.entry = WalEntry.concat [s.state.entry, req.entry] :=
      BufferState.enqueue_entry cfg s.state w req
    rw [map_append, hqueued, hentry, h.queued, map_singleton,
      rows_of_request hself]
    simp [WalEntry.concat]
  · intro wt hwt
    rcases hwaiters wt hwt with hold | htx
    · exact mem_append_left _ (h.waiters wt hold)
    · exact mem_append_right _ (mem_singleton.mpr htx)
  · intro hempty wt hwt req' hreq'
    obtain ⟨hbefore, hnothing⟩ := carriesNothing_of_isEmpty hleaves hempty
    by_cases htx : wt.tx = w
    · rw [htx] at hreq'
      obtain rfl := Option.some.inj (hself.symm.trans hreq')
      exact hnothing
    · have hold := (hwaiters wt hwt).resolve_right htx
      rw [hother wt.tx htx] at hreq'
      exact h.carried hbefore wt hold req' hreq'
  · intro b hb
    obtain ⟨hentries, hsources⟩ := h.appended b hb
    have hw : w ∉ b.sources := fun hmem =>
      hnew (mem_append_left _ (mem_flatMap.mpr ⟨b, hb, hmem⟩))
    have hrows : b.sources.map s'.rows = b.sources.map s.rows := map_rows_setCall _ hw _
    exact ⟨hentries.trans (congrArg WalEntry.concat hrows.symm), hsources⟩
  · intro v hv
    by_cases hvw : v = w
    · rw [hvw, hself]
      rfl
    · rw [hother v hvw]
      exact h.asked v hv
  · intro v b hb req' hreq'
    have hvw : v ≠ w := by
      rintro rfl
      cases (answers_of_idle h.asked hidle).symm.trans hb
    rw [hother v hvw] at hreq'
    exact h.answered v b hb req' hreq'

theorem drain [DecidableEq T] :
    AckInv ({ s with state := {}, queued := [], appends := s.appends ++ [s.buffered] }.setTask t
      (.appending all s.buffered)) := by
  have hsources : (s.appends ++ [s.buffered]).flatMap FlushBatch.sources ++ []
      = s.appends.flatMap FlushBatch.sources ++ s.queued := by
    simp [buffered]
  refine ⟨?_, ?_, rfl, forall_mem_nil _, fun _ => forall_mem_nil _, ?_, ?_, ?_, h.asked, h.answered⟩
  · rw [setTask, hsources]
    exact h.known
  · rw [setTask, hsources]
    exact h.nodup
  · intro b hb
    rcases mem_append.mp hb with hold | hnew
    · exact h.appended b hold
    · obtain rfl := mem_singleton.mp hnew
      exact ⟨h.queued, h.waiters⟩
  · refine (Function.forall_update_iff s.tasks fun _ p => ∀ b, p.batch = some b →
      b ∈ s.appends ++ [s.buffered]).mpr ⟨?_, fun r _ b hb => ?_⟩
    · rintro _ ⟨⟩
      exact mem_append_right _ (mem_singleton_self _)
    · exact mem_append_left _ (h.batch r b hb)
  · exact (Function.forall_update_iff s.tasks fun _ p => ∀ all b seq, p = .recording all b seq →
      0 < seq ∧ entryAt s.log seq = some b.pending.entry).mpr
        ⟨fun _ _ _ h => (by cases h), fun r _ => h.recording r⟩

/-- The waiters of an empty buffer had nothing to commit. -/
theorem release [DecidableEq W] (hempty : s.state.isEmpty = true) :
    AckInv ({ s with state := { s.state with waiters := [] }, queued := [] }.answer s.state.waiters
      fun stats => .ok ⟨0, {}, stats⟩) := by
  have htaken : AckInv { s with state := { s.state with waiters := [] }, queued := [] } := by
    refine ⟨?_, ?_, ?_, nofun, nofun, h.appended, h.batch, h.recording, h.asked, h.answered⟩
    · intro w hw
      rw [append_nil] at hw
      exact h.known w (mem_append_left _ hw)
    · rw [append_nil]
      exact (nodup_append.mp h.nodup).1
    · change s.state.entry = WalEntry.concat []
      rw [isEmpty_iff.mp hempty]
      rfl
  refine htaken.answer ?_ ?_
  · intro wt hwt
    exact h.known wt.tx (mem_append_right _ (h.waiters wt hwt))
  · rintro wt hwt b hb req hreq
    cases hb
    exact ⟨fun hpos => absurd hpos (Nat.lt_irrefl 0), fun _ => h.carried hempty wt hwt req hreq⟩

theorem committed [DecidableEq T] (ht : s.tasks t = .appending all b) :
    AckInv ({ s with log := s.log ++ [b.pending.entry] }.setTask t
      (.recording all b (s.log.length + 1))) := by
  refine ⟨h.known, h.nodup, h.queued, h.waiters, h.carried, h.appended, ?_, ?_, h.asked, ?_⟩
  · refine (Function.forall_update_iff s.tasks fun _ p => ∀ b, p.batch = some b →
      b ∈ s.appends).mpr ⟨?_, fun r _ => h.batch r⟩
    rintro _ ⟨⟩
    exact h.batch t b (by rw [ht]; rfl)
  · refine (Function.forall_update_iff s.tasks fun _ p => ∀ all b' seq, p = .recording all b' seq →
      0 < seq ∧ entryAt (s.log ++ [b.pending.entry]) seq = some b'.pending.entry).mpr
        ⟨?_, fun r _ all' b' seq hb => ?_⟩
    · rintro _ _ _ ⟨⟩
      exact ⟨Nat.succ_pos _, entryAt_concat _ _⟩
    · exact (h.recording r all' b' seq hb).imp_right fun hentry =>
        entryAt_append_of_some hentry _
  · intro w b' hb
    refine acked_mono ?_ ?_ (h.answered w b' hb)
    · exact prefix_append _ _
    · exact fun _ => rfl

/-- The answers of a flush that failed or was committed. -/
theorem answerBatch [DecidableEq W]
    {result : WriteStats → Except String CommittedBatch} (hb : (s.tasks t).batch = some b)
    (hok : ∀ stats c, result stats = .ok c →
      c.entry = b.pending.entry ∧ 0 < c.seq ∧ entryAt s.log c.seq = some b.pending.entry) :
    AckInv (s.answer b.waiters result) := by
  have hb := h.batch t b hb
  refine h.answer ?_ ?_
  · intro wt hwt
    refine h.known wt.tx (mem_append_left _ (mem_flatMap.mpr ⟨b, hb, ?_⟩))
    exact (h.appended b hb).2 wt hwt
  · intro wt hwt c hc req hreq
    obtain ⟨hentry, hpos, hcommitted⟩ := hok wt.stats c hc
    rw [hentry]
    exact ⟨fun _ => ⟨hcommitted, h.within_batch hb hwt hreq⟩,
      fun hzero => absurd hzero (Nat.pos_iff_ne_zero.mp hpos)⟩

theorem step [DecidableEq W] [DecidableEq T] {cfg : WriteBufferConfig} {a : EngineAction W T}
    (hleaves : s.LeavesRows a) (hstep : (engine W T cfg).step s a = some s') :
    AckInv s' := by
  obtain ⟨u, heffect, hquiet⟩ := (step_cases hstep).effect
  refine quiet ?_ hquiet
  cases heffect with
  | quiet => exact h
  | write hidle => exact h.write cfg hidle hleaves
  | drain => exact h.drain
  | release hempty => exact h.release hempty
  | committed ht => exact h.committed ht
  | @failed t all b msg ht =>
    exact h.answerBatch (t := t) (by rw [ht]; rfl) fun _ _ hc => nomatch hc
  | @record t all b seq ht =>
    refine h.answerBatch (t := t) (by rw [ht]; rfl) ?_
    intro stats c hc
    cases hc
    exact ⟨rfl, h.recording t all b seq ht⟩

end

end AckInv

/-- In a run where no rejected write leaves the buffer empty, every answer is
right and every row goes into at most one call of `append_wal`. -/
theorem acknowledgements_sound {W T : Type} [DecidableEq W] [DecidableEq T]
    (cfg : WriteBufferConfig) {as : List (EngineAction W T)} {s : Engine W T}
    (hleaves : (engine W T cfg).Along Engine.LeavesRows .init as)
    (hv : (engine W T cfg).Visits .init as s) : s.AckSound := by
  have hstep : ∀ (s : Engine W T) a s', AckInv s → s.LeavesRows a →
      (engine W T cfg).step s a = some s' → AckInv s' :=
    fun _ _ _ hI hG hs => hI.step hG hs
  exact (Machine.visits_invariant hstep .init hleaves hv).sound

/-! ## A schema patch that is acknowledged and lost -/

/-- A writer declares two vector columns, another one adds a row and a third
column and is rejected, and the buffer is flushed. -/
def rejectedRow : List (EngineAction (Fin 2) (Fin 1)) :=
  [.write 0 { schemaPatch := some (vectorColumns ["u", "v"]) }, .write 1 thirdColumn, .abort 0,
    .request 0 0, .lock 0, .cooled 0, .drain 0, .appended 0 (.ok ()), .record 0]

/-- The same with a rejected request that has no row. -/
def rejectedPatch : List (EngineAction (Fin 2) (Fin 1)) :=
  [.write 0 { schemaPatch := some (vectorColumns ["u", "v"]) },
    .write 1 { schemaPatch := some (vectorColumns ["w"]) }, .abort 0, .request 0 0, .lock 0,
    .cooled 0, .drain 0, .release 0]

/-- The row of the rejected write keeps the buffer from being empty. -/
theorem rejectedRow_answers_sound :
    ∃ s, (engine (Fin 2) (Fin 1) {}).run .init rejectedRow = some s ∧
      s.answers 0 = some (.ok ⟨1, { upserts := [⟨"x", ∅⟩] }, {}⟩) ∧ s.AckSound := by
  obtain ⟨s, hs, hanswer⟩ : ∃ s, (engine (Fin 2) (Fin 1) {}).run .init rejectedRow = some s ∧
      s.answers 0 = some (.ok ⟨1, { upserts := [⟨"x", ∅⟩] }, {}⟩) := by
    decide +kernel
  refine ⟨s, hs, hanswer, ?_⟩
  refine acknowledgements_sound {} ?_ (Machine.visits_end hs)
  decide +kernel

/-- The first writer is told that there was nothing to commit. -/
theorem rejectedPatch_answer_unsound :
    ∃ s, (engine (Fin 2) (Fin 1) {}).run .init rejectedPatch = some s ∧
      (s.calls 0).request = some { schemaPatch := some (vectorColumns ["u", "v"]) } ∧
      s.answers 0 = some (.ok ⟨0, {}, {}⟩) ∧ s.log = [] ∧ ¬ s.AckSound := by
  obtain ⟨s, hs, hrequest, hanswer, hlog⟩ : ∃ s,
      (engine (Fin 2) (Fin 1) {}).run .init rejectedPatch = some s ∧
        (s.calls 0).request = some { schemaPatch := some (vectorColumns ["u", "v"]) } ∧
        s.answers 0 = some (.ok ⟨0, {}, {}⟩) ∧ s.log = [] := by
    decide +kernel
  refine ⟨s, hs, hrequest, hanswer, hlog, ?_⟩
  intro hsound
  obtain ⟨-, hnothing⟩ := hsound.answered 0 _ hanswer _ hrequest
  obtain ⟨-, -, -, hpatch, -⟩ := hnothing rfl
  cases hpatch

end OpenPuffer
