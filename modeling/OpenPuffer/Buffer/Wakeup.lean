import OpenPuffer.Buffer.Machine

/-!
# Who flushes a buffered write

A buffered write is flushed because a timer will fire, a flush task will look at the buffer
again, or a writer is about to request a flush.  Those who find a stored timer handle rely on
its timer, which may have fired.  `Punctual` excludes that a timer fires while a flush is past
its drain, and the early returns of `arm_cooldown_flush_timer` when a `try_lock` fails.
-/

namespace OpenPuffer

open BufferState

namespace FlushTask

variable {W : Type}

/-- A task of `request_flush` that has not reset `flush_running`. -/
def running : FlushTask W → Bool
  | .locking false | .cooling | .draining false | .releasing false | .appending false _
  | .recording false _ _ | .storing => true
  | _ => false

/-- A task of `request_flush` that has yet to take the stored timer handle. -/
def beforeTake : FlushTask W → Bool
  | .locking false | .cooling | .draining false | .releasing false => true
  | _ => false

/-- A task of `request_flush` that is not over. -/
def active : FlushTask W → Bool
  | .rechecking false | .requesting | .armFirst | .armCooldown | .armSecond _ => true
  | p => p.running

theorem running_of_beforeTake {p : FlushTask W} (h : p.beforeTake = true) : p.running = true := by
  cases p with
  | locking all | draining all | releasing all =>
    cases all with
    | true => cases h
    | false => rfl
  | cooling => rfl
  | idle | appending _ _ | recording _ _ _ | storing | rechecking _ | requesting | armFirst
  | armCooldown | armSecond _ => cases h

theorem active_of_running {p : FlushTask W} (h : p.running = true) : p.active = true := by
  cases p with
  | rechecking all =>
    cases all with
    | true => cases h
    | false => rfl
  | requesting | armFirst | armCooldown | armSecond _ => cases h
  | idle | locking _ | cooling | draining _ | releasing _ | appending _ _ | recording _ _ _
  | storing => exact h

/-- What others rely on is not lost when a task moves from `p` to `q`. -/
structure Keeps (p q : FlushTask W) : Prop where
  running : p.running = true → q.running = true
  beforeTake : p.beforeTake = true → q.beforeTake = true
  active : p.active = true → q.active = true

end FlushTask

def WriteCall.willRequest : WriteCall → Bool
  | .aborting _ | .requesting _ => true
  | _ => false

namespace Engine

variable {W T : Type}

/-- Some step to come flushes the buffer without another write. -/
def WillFlush (s : Engine W T) : Prop :=
  (∃ t, (s.tasks t).active = true) ∨ (∃ i, (s.timers.lookup i).isSome) ∨
    ∃ w, (s.calls w).willRequest = true

/-- No buffered row, schema patch or metric that somebody waits for is left
behind. -/
def NotStranded (s : Engine W T) : Prop :=
  s.state.hasWork = true → s.state.waiters ≠ [] → s.WillFlush

/-- A timer does not fire while a running flush is past its drain, and no
`try_lock` fails. -/
def Punctual (s : Engine W T) : EngineAction W T → Prop
  | .fire _ _ =>
    s.flushRunning = true → ∀ t, (s.tasks t).running = true → (s.tasks t).beforeTake = true
  | .armFirst _ locked | .armCooldown _ locked | .armSecond _ locked => locked = false
  | _ => True

instance [Fintype T] (s : Engine W T) (a : EngineAction W T) : Decidable (s.Punctual a) :=
  match a with
  | .fire _ _ => inferInstanceAs (Decidable (_ → ∀ _, _ → _))
  | .armFirst _ _ | .armCooldown _ _ | .armSecond _ _ => inferInstanceAs (Decidable (_ = _))
  | .tick _ | .otherCommit _ | .write _ _ | .abort _ | .request _ _ | .flushAll _ | .lock _
  | .cooled _ | .drain _ | .release _ | .appended _ _ | .record _ | .store _ | .recheck _
  | .rerequest _ _ => isTrue trivial

end Engine

/-! ## The invariant -/

structure WakeInv {W T : Type} (s : Engine W T) : Prop where
  running : s.flushRunning = true → ∃ t, (s.tasks t).running = true
  /-- A stored handle is that of a timer to come, or will be dropped. -/
  handle : ∀ i, s.state.timer = some i →
    (s.timers.lookup i).isSome ∨ ∃ t, (s.tasks t).beforeTake = true
  wake : s.NotStranded

namespace WakeInv

variable {W T : Type} {s : Engine W T}

variable {s' : Engine W T} {t : T} {p : FlushTask W} {all : Bool}

/-- Only the queue, the timers, the calls and the tasks matter. -/
theorem congr (h : WakeInv s) (hstate : s'.state = s.state)
    (hrunning : s'.flushRunning = s.flushRunning) (htimers : s'.timers = s.timers)
    (hcalls : s'.calls = s.calls) (htasks : s'.tasks = s.tasks) : WakeInv s' := by
  refine ⟨?_, ?_, ?_⟩
  · rw [hrunning, htasks]
    exact h.running
  · rw [hstate, htimers, htasks]
    exact h.handle
  · rw [Engine.NotStranded, Engine.WillFlush, hstate, htimers, hcalls, htasks]
    exact h.wake

/-- An empty buffer that nobody flushes. -/
theorem of_empty (hstate : s.state = {}) (hoff : s.flushRunning = false) : WakeInv s := by
  refine ⟨?_, ?_, ?_⟩
  · intro hon
    exact absurd (hoff.symm.trans hon) Bool.false_ne_true
  · intro i hi
    rw [hstate] at hi
    cases hi
  · intro hwork
    rw [hstate] at hwork
    cases hwork

theorem init : WakeInv (Engine.init : Engine W T) := of_empty rfl rfl

/-- A handle is as good as a wake-up. -/
theorem willFlush_of_handle (h : ∀ i, s.state.timer = some i →
      (s.timers.lookup i).isSome ∨ ∃ t, (s.tasks t).beforeTake = true)
    (htimer : s.state.timer.isSome) : s.WillFlush := by
  obtain ⟨i, hi⟩ := Option.isSome_iff_exists.mp htimer
  rcases h i hi with hleft | ⟨t, ht⟩
  · exact .inr (.inl ⟨i, hleft⟩)
  · exact .inl ⟨t, FlushTask.active_of_running (FlushTask.running_of_beforeTake ht)⟩

/-- A spawned timer flushes whatever is queued. -/
theorem armTimer (hrun : s.flushRunning = true → ∃ t, (s.tasks t).running = true)
    (deadline : Nat) :
    WakeInv { s with toNamespaceBuffer := s.armTimer deadline } := by
  have hnew : ((s.armTimer deadline).timers.lookup s.nextTimer).isSome := by
    simp [NamespaceBuffer.armTimer]
  refine ⟨hrun, ?_, ?_⟩
  · rintro _ ⟨⟩
    exact .inl hnew
  · intro _ _
    exact .inr (.inl ⟨s.nextTimer, hnew⟩)

theorem setCall [DecidableEq W] (h : WakeInv s) {w : W} {c : WriteCall}
    (hcall : (s.calls w).willRequest = true → c.willRequest = true) :
    WakeInv (s.setCall w c) := by
  refine ⟨h.running, h.handle, ?_⟩
  intro hwork hwait
  rcases h.wake hwork hwait with htask | htimer | ⟨v, hv⟩
  · exact .inl htask
  · exact .inr (.inl htimer)
  · refine .inr (.inr ⟨v, ?_⟩)
    by_cases hvw : v = w
    · rw [hvw] at hv
      simpa [hvw] using hcall hv
    · simpa [hvw] using hv

/-- A call that will request a flush wakes the buffer up. -/
theorem setCall_willRequest [DecidableEq W]
    (hrun : s.flushRunning = true → ∃ t, (s.tasks t).running = true)
    (hhandle : ∀ i, s.state.timer = some i →
      (s.timers.lookup i).isSome ∨ ∃ t, (s.tasks t).beforeTake = true)
    {w : W} {c : WriteCall} (hcall : c.willRequest = true) : WakeInv (s.setCall w c) := by
  refine ⟨hrun, hhandle, ?_⟩
  intro _ _
  exact .inr (.inr ⟨w, by simpa using hcall⟩)

/-- A task moves on.  It may lose what nobody relies on. -/
theorem setTask [DecidableEq T] (h : WakeInv s) {q : FlushTask W} (hphase : s.tasks t = p)
    (hrun : s.flushRunning = false ∨ (p.running = true → q.running = true))
    (htake : s.state.timer = none ∨ (p.beforeTake = true → q.beforeTake = true))
    (hwake : s.state.hasWork = false ∨ s.state.timer.isSome ∨
      (p.active = true → q.active = true)) : WakeInv (s.setTask t q) := by
  have htasks : ∀ (f : FlushTask W → Bool), (f p = true → f q = true) →
      ∀ r, f (s.tasks r) = true → f ((s.setTask t q).tasks r) = true := by
    intro f hf r hr
    by_cases hrt : r = t
    · rw [hrt, hphase] at hr
      simpa [hrt] using hf hr
    · simpa [hrt] using hr
  have hhandle : ∀ i, (s.setTask t q).state.timer = some i →
      ((s.setTask t q).timers.lookup i).isSome ∨
        ∃ r, ((s.setTask t q).tasks r).beforeTake = true := by
    intro i hi
    rcases htake with hnone | hkeep
    · exact absurd (hnone.symm.trans hi) (by simp)
    · rcases h.handle i hi with htimer | ⟨r, hr⟩
      · exact .inl htimer
      · exact .inr ⟨r, htasks _ hkeep r hr⟩
  refine ⟨?_, hhandle, ?_⟩
  · intro hon
    rcases hrun with hoff | hkeep
    · exact absurd (hoff.symm.trans hon) (by simp)
    · obtain ⟨r, hr⟩ := h.running hon
      exact ⟨r, htasks _ hkeep r hr⟩
  · intro hwork hwait
    rcases hwake with hidle | htimer | hkeep
    · exact absurd (hidle.symm.trans hwork) (by simp)
    · exact willFlush_of_handle hhandle htimer
    · rcases h.wake hwork hwait with ⟨r, hr⟩ | htimer | hcall
      · exact .inl ⟨r, htasks _ hkeep r hr⟩
      · exact .inr (.inl htimer)
      · exact .inr (.inr hcall)

theorem setTask_keeps [DecidableEq T] (h : WakeInv s) {q : FlushTask W} (hphase : s.tasks t = p)
    (hkeeps : p.Keeps q) : WakeInv (s.setTask t q) :=
  h.setTask hphase (.inr hkeeps.running) (.inr hkeeps.beforeTake) (.inr (.inr hkeeps.active))

/-- The waiters of a buffer without work are released. -/
theorem drainWaiters (h : WakeInv s) : WakeInv { s with state := s.state.drainWaiters.1 } := by
  rw [BufferState.drainWaiters]
  by_cases hempty : s.state.isEmpty
  · rw [if_pos hempty]
    exact ⟨h.running, fun _ h => (by cases h), fun _ hwait => absurd rfl hwait⟩
  · rw [if_neg hempty]
    exact ⟨h.running, fun _ h => (by cases h), h.wake⟩

/-- A flush is over, and its waiters have been answered. -/
theorem finishFlush [DecidableEq W] [DecidableEq T] (h : WakeInv s) {ok : Bool}
    {waiters : List (WriteWaiter W)} {result : WriteStats → Except String CommittedBatch}
    (hphase : s.tasks t = p) (hkeeps : p.Keeps (.afterFlush all ok)) :
    WakeInv ((s.answer waiters result).finishFlush t all ok) := by
  have hanswered : WakeInv { s.answer waiters result with flushLock := none } :=
    ⟨h.running, h.handle, h.wake⟩
  exact hanswered.setTask_keeps hphase hkeeps

theorem requestFlush [DecidableEq T] {spawn : T}
    (hrun : s.flushRunning = true → ∃ t, (s.tasks t).running = true)
    (hhandle : s.flushRunning = true → ∀ i, s.state.timer = some i →
      (s.timers.lookup i).isSome ∨ ∃ t, (s.tasks t).beforeTake = true) (hs : s.Requested spawn s') :
    WakeInv s' := by
  have hwake : ∀ u : Engine W T, (∃ t, (u.tasks t).running = true) → u.NotStranded :=
    fun u ⟨t, ht⟩ _ _ => .inl ⟨t, FlushTask.active_of_running ht⟩
  cases hs with
  | dropped hon => exact ⟨hrun, hhandle hon, hwake s (hrun hon)⟩
  | spawned =>
    have hspawn : ({ s with flushRunning := true }.setTask spawn (.locking false)).tasks spawn
        = .locking false := Engine.tasks_setTask_self _ _ _
    have hrunning : (({ s with flushRunning := true }.setTask spawn (.locking false)).tasks
        spawn).running = true := by
      rw [hspawn]
      rfl
    refine ⟨fun _ => ⟨spawn, hrunning⟩, fun _ _ => .inr ⟨spawn, ?_⟩, hwake _ ⟨spawn, hrunning⟩⟩
    rw [hspawn]
    rfl

/-! ## Steps -/

section

variable (h : WakeInv s)

include h

theorem enqueue [DecidableEq W] (cfg : WriteBufferConfig) {w : W}
    (req : WriteRequest) (hidle : s.calls w = .idle) : WakeInv (s.enqueue cfg w req) := by
  have hcall : ∀ c : WriteCall, (s.calls w).willRequest = true → c.willRequest = true := by
    intro c hw
    rw [hidle] at hw
    cases hw
  rw [Engine.enqueue, NamespaceBuffer.enqueue]
  generalize henq : s.state.enqueue cfg w req = res
  obtain ⟨state, msg | next⟩ := res
  · obtain ⟨rfl, hsome⟩ := enqueue_error henq
    refine setCall ?_ (hcall _)
    refine ⟨h.running, h.handle, ?_⟩
    intro _ hwait
    exact h.wake (Pending.hasWork_of_schemaPatch hsome) hwait
  · obtain ⟨-, -, htimer, hnext⟩ := enqueue_ok henq
    have hhandle : ∀ i, state.timer = some i →
        (s.timers.lookup i).isSome ∨ ∃ t, (s.tasks t).beforeTake = true :=
      fun i hi => h.handle i (htimer.symm.trans hi)
    cases next with
    | flushNow =>
      refine setCall_willRequest ?_ ?_ ?_
      · exact h.running
      · exact hhandle
      · rfl
    | armTimer =>
      refine setCall (armTimer (s := { s with state, queued := s.queued ++ [w] }) ?_ _) (hcall _)
      exact h.running
    | wait =>
      refine setCall ?_ (hcall _)
      refine ⟨h.running, hhandle, ?_⟩
      intro _ _
      exact willFlush_of_handle hhandle (timer_of_writeNext_wait hnext.symm)

theorem abort [DecidableEq W] {w : W} {req : WriteRequest} :
    WakeInv ({ s with toNamespaceBuffer := s.abortTimer }.setCall w (.requesting req)) := by
  refine setCall_willRequest ?_ ?_ ?_
  · exact h.running
  · intro i hi
    cases hi
  · rfl

/-- The fired timer finds a flush that has not drained yet, or starts one. -/
theorem fire [DecidableEq T] {i : Nat} {spawn : T}
    (hpunctual : s.flushRunning = true →
      ∀ t, (s.tasks t).running = true → (s.tasks t).beforeTake = true)
    (hs : { s with timers := s.timers.erase i }.Requested spawn s') : WakeInv s' := by
  refine requestFlush ?_ ?_ hs
  · exact h.running
  · intro hon j hj
    obtain ⟨t, ht⟩ := h.running hon
    exact .inr ⟨t, hpunctual hon t ht⟩

theorem drainBuffer [DecidableEq T] (hphase : s.tasks t = .draining all) :
    WakeInv (s.drainBuffer t all) := by
  rw [Engine.drainBuffer, NamespaceBuffer.drain, BufferState.drain]
  by_cases hempty : s.state.isEmpty
  · rw [if_pos hempty]
    exact h.setTask_keeps hphase (by cases all <;> exact ⟨id, id, id⟩)
  · rw [if_neg hempty]
    have hdrained : ∀ batch : FlushBatch W,
        WakeInv { s with state := {}, queued := [], appends := s.appends ++ [batch] } :=
      fun _ => ⟨h.running, (fun _ hi => by cases hi), (fun hwork => by cases hwork)⟩
    exact (hdrained _).setTask hphase (.inr (by cases all <;> exact id)) (.inl rfl) (.inl rfl)

theorem releaseWaiters [DecidableEq W] [DecidableEq T]
    (hphase : s.tasks t = .releasing all) : WakeInv (s.releaseWaiters t all) := by
  refine setTask (p := .releasing all) ?_ hphase (.inr ?_) (.inl ?_) (.inr (.inr ?_))
  · exact ⟨h.drainWaiters.running, h.drainWaiters.handle, h.drainWaiters.wake⟩
  · cases all <;> exact id
  · exact timer_drainWaiters s.state
  · cases all <;> exact id

theorem recheckBuffer [DecidableEq T] (cfg : WriteBufferConfig)
    (hphase : s.tasks t = .rechecking all) : WakeInv (s.recheckBuffer cfg t all) := by
  rw [Engine.recheckBuffer, NamespaceBuffer.recheck]
  cases hwork : s.state.hasWork with
  | true =>
    cases all with
    | true => exact h.setTask_keeps hphase ⟨id, id, id⟩
    | false =>
      rw [if_neg Bool.false_ne_true, if_pos rfl]
      split <;> exact h.setTask_keeps hphase ⟨id, id, id⟩
  | false => cases all <;> exact h.setTask hphase (.inr id) (.inr id) (.inl hwork)

/-- A task gives itself up to request a flush.  Others do not rely on it. -/
theorem rerequest [DecidableEq T] {spawn : T} (hphase : s.tasks t = .requesting)
    (hs : (s.setTask t .idle).Requested spawn s') : WakeInv s' := by
  have hothers : ∀ f : FlushTask W → Bool, f .requesting = false →
      (∃ r, f (s.tasks r) = true) → ∃ r, f ((s.setTask t .idle).tasks r) = true := by
    rintro f hf ⟨r, hr⟩
    have hrt : r ≠ t := by
      rintro rfl
      rw [hphase, hf] at hr
      cases hr
    exact ⟨r, by simpa [hrt] using hr⟩
  refine requestFlush ?_ ?_ hs
  · exact fun hon => hothers _ rfl (h.running hon)
  · exact fun _ i hi => (h.handle i hi).imp_right (hothers _ rfl)

theorem step [DecidableEq W] [DecidableEq T] {cfg : WriteBufferConfig} {a : EngineAction W T}
    (hpunctual : s.Punctual a) (hstep : (engine W T cfg).step s a = some s') :
    WakeInv s' := by
  cases Engine.step_cases hstep with
  | tick | otherCommit => exact ⟨h.running, h.handle, h.wake⟩
  | write hidle => exact h.enqueue cfg _ hidle
  | abort => exact h.abort
  | request _ hs =>
    refine requestFlush ?_ ?_ hs
    · exact h.running
    · exact fun _ => h.handle
  | fire _ _ hs => exact h.fire hpunctual hs
  | flushAll hphase => exact h.setTask_keeps hphase ⟨id, id, id⟩
  | @lock t all hphase _ =>
    have hlocked : WakeInv { s with flushLock := some t } := ⟨h.running, h.handle, h.wake⟩
    exact hlocked.setTask_keeps hphase (by cases all <;> exact ⟨id, id, id⟩)
  | cooled hphase _ => exact h.setTask_keeps hphase ⟨id, id, id⟩
  | drain hphase => exact h.drainBuffer hphase
  | release hphase => exact h.releaseWaiters hphase
  | @committed t all b hphase =>
    have hlogged : WakeInv { s with log := s.log ++ [b.pending.entry] } :=
      ⟨h.running, h.handle, h.wake⟩
    exact hlogged.setTask_keeps hphase (by cases all <;> exact ⟨id, id, id⟩)
  | @failed t all b msg hphase =>
    exact h.finishFlush hphase (by cases all <;> exact ⟨id, id, id⟩)
  | @record t all b seq hphase =>
    have hrecorded : WakeInv { s with lastCommittedAt := some s.now } :=
      ⟨h.running, h.handle, h.wake⟩
    exact hrecorded.finishFlush hphase (by cases all <;> exact ⟨id, id, id⟩)
  | store hphase =>
    have hoff : WakeInv { s with flushRunning := false } :=
      ⟨(fun hon => by cases hon), h.handle, h.wake⟩
    exact hoff.setTask hphase (.inl rfl) (.inr id) (.inr (.inr id))
  | recheck hphase => exact h.recheckBuffer cfg hphase
  | rerequest hphase hs => exact h.rerequest hphase hs
  | armFirstReturn hphase hreturn =>
    refine h.setTask hphase (.inr id) (.inr id) ?_
    rcases hreturn with hlocked | hnone | htimer
    · exact absurd (hpunctual.symm.trans hlocked) Bool.false_ne_true
    · exact .inl (Bool.eq_false_of_not_eq_true hnone)
    · exact .inr (.inl htimer)
  | armFirst hphase => exact h.setTask_keeps hphase ⟨id, id, id⟩
  | armCooldownReturn => cases hpunctual
  | armCooldown hphase => exact h.setTask_keeps hphase ⟨id, id, id⟩
  | armSecondReturn hphase hreturn =>
    refine h.setTask hphase (.inr id) (.inr id) (.inr (.inl ?_))
    refine hreturn.resolve_left fun hlocked => ?_
    exact absurd (hpunctual.symm.trans hlocked) Bool.false_ne_true
  | @armSecond t delay locked hphase =>
    exact (armTimer h.running _).setTask hphase (.inr id) (.inr id) (.inr (.inl rfl))

end

end WakeInv

/-- In a run of punctual steps no buffered write is left without somebody to
flush it. -/
theorem no_buffered_write_stranded {W T : Type} [DecidableEq W] [DecidableEq T]
    (cfg : WriteBufferConfig) {as : List (EngineAction W T)} {s : Engine W T}
    (hpunctual : (engine W T cfg).Along Engine.Punctual .init as)
    (hv : (engine W T cfg).Visits .init as s) : s.NotStranded := by
  have hstep : ∀ (s : Engine W T) a s', WakeInv s → s.Punctual a →
      (engine W T cfg).step s a = some s' → WakeInv s' :=
    fun _ _ _ hI hG hs => hI.step hG hs
  exact (Machine.visits_invariant hstep .init hpunctual hv).wake

/-! ## A lost wake-up -/

/-- One row from each of two writers.  The second one comes after the drain. -/
def twoWriters : List (EngineAction (Fin 2) (Fin 1)) :=
  [.write 0 { upserts := [⟨"a", ∅⟩] }, .tick 1000, .fire 0 0, .lock 0, .cooled 0, .drain 0,
    .write 1 { upserts := [⟨"b", ∅⟩] }]

def flushEnds : List (EngineAction (Fin 2) (Fin 1)) :=
  [.appended 0 (.ok ()), .record 0, .store 0, .recheck 0, .armFirst 0 false]

/-- The append takes less than the delay of the second writer's timer. -/
theorem quick_append_not_stranded :
    ∃ s, (engine (Fin 2) (Fin 1) {}).run .init (twoWriters ++ flushEnds) = some s ∧
      s.state.hasWork = true ∧ s.state.waiters = [⟨{}, 1⟩] ∧ s.NotStranded := by
  obtain ⟨s, hs, hwork, hwait⟩ : ∃ s, (engine (Fin 2) (Fin 1) {}).run .init
      (twoWriters ++ flushEnds) = some s ∧ s.state.hasWork = true ∧
        s.state.waiters = [⟨{}, 1⟩] := by
    decide +kernel
  refine ⟨s, hs, hwork, hwait, ?_⟩
  refine no_buffered_write_stranded {} ?_ (Machine.visits_end hs)
  decide +kernel

/-- The second writer's timer fires while the append is under way.  Its flush
request is dropped, its handle stays, and the flush arms no other timer. -/
theorem slow_append_strands_write :
    ∃ s, (engine (Fin 2) (Fin 1) {}).run .init
        (twoWriters ++ [.tick 1000, .fire 1 0] ++ flushEnds) = some s ∧
      s.state.upserts = [⟨"b", ∅⟩] ∧ s.state.waiters = [⟨{}, 1⟩] ∧ s.timers = ∅ ∧
      (∀ t, s.tasks t = .idle) ∧ (∀ w, (s.calls w).willRequest = false) ∧ ¬ s.NotStranded := by
  obtain ⟨s, hs, hups, hwait, htimers, htasks, hcalls, hwork⟩ : ∃ s,
      (engine (Fin 2) (Fin 1) {}).run .init (twoWriters ++ [.tick 1000, .fire 1 0] ++ flushEnds)
        = some s ∧ s.state.upserts = [⟨"b", ∅⟩] ∧ s.state.waiters = [⟨{}, 1⟩] ∧ s.timers = ∅ ∧
      (∀ t, s.tasks t = .idle) ∧ (∀ w, (s.calls w).willRequest = false) ∧
      s.state.hasWork = true := by
    decide +kernel
  refine ⟨s, hs, hups, hwait, htimers, htasks, hcalls, ?_⟩
  intro hlive
  rcases hlive hwork (by rw [hwait]; exact List.cons_ne_nil _ _) with ⟨t, ht⟩ | ⟨i, hi⟩ | ⟨w, hw⟩
  · rw [htasks t] at ht
    cases ht
  · rw [htimers] at hi
    cases hi
  · rw [hcalls w] at hw
    cases hw

end OpenPuffer
