import OpenPuffer.Buffer.Machine

/-!
# What a step does to rows and answers

Most steps of the group-commit machine leave the buffered rows, the batches and the answers
as they are (`Quiet`).  The others write, drain, commit or answer, and are quiet apart from
that (`Steps.effect`).  So an invariant about rows and answers has seven cases.
-/

namespace OpenPuffer

def FlushTask.batch {W : Type} : FlushTask W → Option (FlushBatch W)
  | .appending _ b => some b
  | .recording _ b _ => some b
  | _ => none

namespace Engine

variable {W T : Type} {s s' u : Engine W T}

/-- What the buffer holds, as a batch. -/
def buffered (s : Engine W T) : FlushBatch W := ⟨s.state.toPending, s.state.waiters, s.queued⟩

/-- Rows, batches and answers are as before, and the log may have grown. -/
structure Quiet (s s' : Engine W T) : Prop where
  buffered : s'.buffered = s.buffered
  appends : s'.appends = s.appends
  answers : s'.answers = s.answers
  requests : ∀ w, (s'.calls w).request = (s.calls w).request
  log : s.log <+: s'.log
  batches : ∀ t b, (s'.tasks t).batch = some b → s'.tasks t = s.tasks t

namespace Quiet

theorem refl (s : Engine W T) : s.Quiet s :=
  ⟨rfl, rfl, rfl, fun _ => rfl, List.prefix_rfl, fun _ _ _ => rfl⟩

theorem trans (h : s.Quiet u) (h' : u.Quiet s') : s.Quiet s' where
  buffered := h'.buffered.trans h.buffered
  appends := h'.appends.trans h.appends
  answers := h'.answers.trans h.answers
  requests := fun w => (h'.requests w).trans (h.requests w)
  log := h.log.trans h'.log
  batches := by
    intro t b hb
    have hlast := h'.batches t b hb
    rw [hlast] at hb
    exact hlast.trans (h.batches t b hb)

theorem pending (h : s.Quiet s') : s'.state.toPending = s.state.toPending :=
  congrArg FlushBatch.pending h.buffered

theorem waiters (h : s.Quiet s') : s'.state.waiters = s.state.waiters :=
  congrArg FlushBatch.waiters h.buffered

theorem queued (h : s.Quiet s') : s'.queued = s.queued := congrArg FlushBatch.sources h.buffered

theorem recording (h : s.Quiet s') {t : T} {all : Bool} {b : FlushBatch W} {seq : Nat}
    (ht : s'.tasks t = .recording all b seq) : s.tasks t = .recording all b seq := by
  rw [← h.batches t b (by rw [ht]; rfl)]
  exact ht

/-- Timers, locks and the clock do not matter. -/
theorem of_eq (hbuffered : s'.buffered = s.buffered) (happends : s'.appends = s.appends)
    (hanswers : s'.answers = s.answers) (hcalls : s'.calls = s.calls) (hlog : s'.log = s.log)
    (htasks : s'.tasks = s.tasks) : s.Quiet s' where
  buffered := hbuffered
  appends := happends
  answers := hanswers
  requests := fun w => by rw [hcalls]
  log := by rw [hlog]
  batches := fun t _ _ => congrFun htasks t

/-- A task goes on without a batch. -/
theorem setTask [DecidableEq T] (h : s.Quiet u) (t : T) {p : FlushTask W} (hp : p.batch = none) :
    s.Quiet (u.setTask t p) := by
  refine h.trans ⟨rfl, rfl, rfl, fun _ => rfl, List.prefix_rfl, ?_⟩
  intro r b hb
  by_cases hr : r = t
  · rw [hr, tasks_setTask_self, hp] at hb
    cases hb
  · exact tasks_setTask_of_ne u hr p

/-- A call goes on with its request. -/
theorem setCall [DecidableEq W] (h : s.Quiet u) {w : W} {c : WriteCall}
    (hc : c.request = (u.calls w).request) : s.Quiet (u.setCall w c) := by
  refine h.trans ⟨rfl, rfl, rfl, fun v => ?_, List.prefix_rfl, fun _ _ _ => rfl⟩
  by_cases hv : v = w
  · rw [hv, calls_setCall_self, hc]
  · rw [calls_setCall_of_ne u hv]

theorem requested [DecidableEq T] {spawn : T} (h : s.Quiet u) (hs : u.Requested spawn s') :
    s.Quiet s' := by
  cases hs with
  | dropped => exact h
  | spawned =>
    have hon : u.Quiet { u with flushRunning := true } := .of_eq rfl rfl rfl rfl rfl rfl
    exact (h.trans hon).setTask spawn rfl

theorem finishFlush [DecidableEq T] (s : Engine W T) (t : T) (all ok : Bool) :
    s.Quiet (s.finishFlush t all ok) := by
  have hunlocked : s.Quiet { s with flushLock := none } := .of_eq rfl rfl rfl rfl rfl rfl
  refine hunlocked.setTask t ?_
  cases all <;> cases ok <;> rfl

theorem recheckBuffer [DecidableEq T] (cfg : WriteBufferConfig) (s : Engine W T) (t : T)
    (all : Bool) : s.Quiet (s.recheckBuffer cfg t all) := by
  have hgoes : ∀ {p : FlushTask W}, p.batch = none → s.Quiet (s.setTask t p) :=
    fun hp => (refl s).setTask t hp
  rw [Engine.recheckBuffer, NamespaceBuffer.recheck]
  split
  · split <;> exact hgoes rfl
  · split
    · split <;> exact hgoes rfl
    · exact hgoes rfl

end Quiet

theorem answers_of_idle (hasked : ∀ w, (s.answers w).isSome → (s.calls w).request.isSome) {w : W}
    (hidle : s.calls w = .idle) : s.answers w = none := by
  rw [← Option.not_isSome_iff_eq_none]
  intro hsome
  have hrequest := hasked w hsome
  rw [hidle] at hrequest
  cases hrequest

/-- What is known of those who were answered before and of those who are answered now. -/
theorem answered_answer [DecidableEq W] {waiters : List (WriteWaiter W)}
    {result : WriteStats → Except String CommittedBatch} {P : W → Prop}
    {Q : W → CommittedBatch → Prop} (hasked : ∀ w, (s.answers w).isSome → P w)
    (hright : ∀ w b, s.answers w = some (.ok b) → Q w b) (hknown : ∀ wt ∈ waiters, P wt.tx)
    (hok : ∀ wt ∈ waiters, ∀ b, result wt.stats = .ok b → Q wt.tx b) :
    (∀ w, ((s.answer waiters result).answers w).isSome → P w) ∧
      ∀ w b, (s.answer waiters result).answers w = some (.ok b) → Q w b := by
  refine ⟨fun w hw => ?_, fun w b hb => ?_⟩
  · rcases sendAnswers_cases waiters result s.answers w with ⟨wt, hmem, rfl, -⟩ | ⟨-, hsame⟩
    · exact hknown wt hmem
    · exact hasked w (hsame ▸ hw)
  · rcases sendAnswers_cases waiters result s.answers w with ⟨wt, hmem, rfl, hnew⟩ | ⟨-, hsame⟩
    · exact hok wt hmem b (Option.some.inj (hnew.symm.trans hb))
    · exact hright w b (hsame ▸ hb)

variable [DecidableEq W] [DecidableEq T] {cfg : WriteBufferConfig}

/-- What a step does, up to a quiet change. -/
inductive Effect (cfg : WriteBufferConfig) (s : Engine W T) :
    EngineAction W T → Engine W T → Prop where
  | quiet {a} : Effect cfg s a s
  | write {w req} : s.calls w = .idle → Effect cfg s (.write w req)
      ({ s with state := (s.state.enqueue cfg w req).1, queued := s.queued ++ [w] }.setCall w
        (.waiting req))
  | drain {t all} : s.state.isEmpty = false → Effect cfg s (.drain t)
      ({ s with state := {}, queued := [], appends := s.appends ++ [s.buffered] }.setTask t
        (.appending all s.buffered))
  | release {t} : s.state.isEmpty = true → Effect cfg s (.release t)
      ({ s with state := { s.state with waiters := [] }, queued := [] }.answer s.state.waiters
        fun stats => .ok ⟨0, {}, stats⟩)
  | committed {t all b} : s.tasks t = .appending all b → Effect cfg s (.appended t (.ok ()))
      ({ s with log := s.log ++ [b.pending.entry] }.setTask t
        (.recording all b (s.log.length + 1)))
  | failed {t all b msg} : s.tasks t = .appending all b →
      Effect cfg s (.appended t (.error msg)) (s.answer b.waiters fun _ => .error msg)
  | record {t all b seq} : s.tasks t = .recording all b seq → Effect cfg s (.record t)
      (s.answer b.waiters fun stats => .ok ⟨seq, b.pending.entry, stats⟩)

omit [DecidableEq T] in
theorem quiet_enqueue (cfg : WriteBufferConfig) (s : Engine W T) (w : W) (req : WriteRequest) :
    ({ s with state := (s.state.enqueue cfg w req).1, queued := s.queued ++ [w] }.setCall w
      (.waiting req)).Quiet (s.enqueue cfg w req) := by
  have hset : ∀ {u : Engine W T} {c : WriteCall}, c.request = some req →
      (u.setCall w (.waiting req)).Quiet (u.setCall w c) := by
    intro u c hc
    have hmoved := (Quiet.refl (u.setCall w (.waiting req))).setCall (w := w) (c := c)
      (by rw [hc, calls_setCall_self]; rfl)
    rwa [setCall, setCall, Function.update_idem] at hmoved
  rw [Engine.enqueue, NamespaceBuffer.enqueue]
  generalize s.state.enqueue cfg w req = res
  obtain ⟨state, msg | next⟩ := res
  · exact hset rfl
  · cases next with
    | flushNow => exact hset rfl
    | armTimer => exact .of_eq rfl rfl rfl rfl rfl rfl
    | wait => exact .refl _

theorem Steps.effect {a : EngineAction W T} (h : Steps cfg s a s') :
    ∃ u, Effect cfg s a u ∧ u.Quiet s' := by
  have hquiet : s.Quiet s' → ∃ u, Effect cfg s a u ∧ u.Quiet s' := fun hq => ⟨s, .quiet, hq⟩
  have hgoes : ∀ {t p}, FlushTask.batch p = none → s.Quiet (s.setTask t p) :=
    fun hp => (Quiet.refl s).setTask _ hp
  cases h with
  | tick => exact hquiet (.of_eq rfl rfl rfl rfl rfl rfl)
  | otherCommit =>
    exact hquiet ⟨rfl, rfl, rfl, fun _ => rfl, List.prefix_append _ _, fun _ _ _ => rfl⟩
  | write hidle => exact ⟨_, .write hidle, quiet_enqueue cfg s _ _⟩
  | abort hcall =>
    have haborted : s.Quiet { s with toNamespaceBuffer := s.abortTimer } :=
      .of_eq rfl rfl rfl rfl rfl rfl
    exact hquiet (haborted.setCall (congrArg WriteCall.request hcall).symm)
  | @request w req _ _ hcall hs =>
    have hwaiting : s.Quiet (s.setCall w (.waiting req)) :=
      (Quiet.refl s).setCall (congrArg WriteCall.request hcall).symm
    exact hquiet (hwaiting.requested hs)
  | @fire i _ _ _ _ _ hs =>
    have hfired : s.Quiet { s with timers := s.timers.erase i } :=
      .of_eq rfl rfl rfl rfl rfl rfl
    exact hquiet (hfired.requested hs)
  | flushAll | cooled | armFirstReturn | armFirst | armCooldownReturn | armCooldown
  | armSecondReturn => exact hquiet (hgoes rfl)
  | @lock t all =>
    have hlocked : s.Quiet { s with flushLock := some t } := .of_eq rfl rfl rfl rfl rfl rfl
    exact hquiet (hlocked.setTask t (by cases all <;> rfl))
  | drain =>
    rw [drainBuffer, NamespaceBuffer.drain, BufferState.drain]
    cases hempty : s.state.isEmpty with
    | true => exact ⟨s, .quiet, hgoes rfl⟩
    | false => exact ⟨_, .drain hempty, .refl _⟩
  | @release t all =>
    have hfinish := fun u : Engine W T => Quiet.finishFlush u t all true
    rw [releaseWaiters, NamespaceBuffer.release, BufferState.drainWaiters]
    cases hempty : s.state.isEmpty with
    | true =>
      refine ⟨_, .release hempty, .trans ?_ (hfinish _)⟩
      exact .of_eq rfl rfl rfl rfl rfl rfl
    | false =>
      refine ⟨s, .quiet, .trans ?_ (hfinish _)⟩
      exact .of_eq rfl rfl rfl rfl rfl rfl
  | committed ht => exact ⟨_, .committed ht, .refl _⟩
  | failed ht => exact ⟨_, .failed ht, .finishFlush _ _ _ false⟩
  | record ht =>
    refine ⟨_, .record ht, .trans ?_ (.finishFlush _ _ _ true)⟩
    exact .of_eq rfl rfl rfl rfl rfl rfl
  | @store t =>
    have hstopped : s.Quiet { s with flushRunning := false } := .of_eq rfl rfl rfl rfl rfl rfl
    exact hquiet (hstopped.setTask t rfl)
  | recheck => exact hquiet (.recheckBuffer cfg s _ _)
  | @rerequest t _ _ _ hs =>
    have hgone : s.Quiet (s.setTask t .idle) := hgoes rfl
    exact hquiet (hgone.requested hs)
  | @armSecond t delay =>
    have harmed : s.Quiet { s with toNamespaceBuffer := s.armTimer (s.now + delay) } :=
      .of_eq rfl rfl rfl rfl rfl rfl
    exact hquiet (harmed.setTask t rfl)

end Engine

end OpenPuffer
