import OpenPuffer.Buffer.Machine

/-!
# The rate of commits

A flush of `request_flush` takes the flush lock, waits until the last commit is
`min_commit_interval` ago, and keeps the lock until its own commit is recorded.  So nobody
records a commit between the end of its wait and its append (`RateInv.step`).  `flush_all`
does not wait.  The moments of commits and appends are read off a run by `timeline`.
-/

namespace OpenPuffer

open Engine

namespace FlushTask

variable {W : Type}

def holdsLock : FlushTask W → Bool
  | .cooling | .draining _ | .releasing _ | .appending _ _ | .recording _ _ _ => true
  | _ => false

def mayCommit : FlushTask W → Bool
  | .draining _ | .appending _ _ | .recording _ _ _ => true
  | _ => false

def ofFlushAll : FlushTask W → Bool
  | .locking all | .draining all | .releasing all | .appending all _ | .recording all _ _
  | .rechecking all => all
  | _ => false

theorem holdsLock_of_mayCommit {p : FlushTask W} (h : p.mayCommit = true) :
    p.holdsLock = true := by
  cases p <;> first | rfl | cases h

end FlushTask

/-! ## Moments of a run -/

/-- What a run shows of its commits. -/
inductive CommitEvent where
  /-- A flush starts to append what it drained. -/
  | started (time : Nat)
  /-- The time of the last commit is set. -/
  | recorded (time : Nat)
deriving DecidableEq

def CommitEvent.time : CommitEvent → Nat
  | .started time => time
  | .recorded time => time

namespace Engine

variable {W T : Type}

/-- What a step shows. -/
def event (s : Engine W T) : EngineAction W T → Option CommitEvent
  | .drain _ => if s.state.drain.2.isSome then some (.started s.now) else none
  | .record _ => some (.recorded s.now)
  | _ => none

variable [DecidableEq W] [DecidableEq T]

/-- The commits of a run, in order. -/
def timeline (cfg : WriteBufferConfig) : Engine W T → List (EngineAction W T) → List CommitEvent
  | _, [] => []
  | s, a :: as =>
    match s.step cfg a with
    | none => []
    | some s' => (s.event a).toList ++ timeline cfg s' as

/-- The last commit is far enough in the past. -/
def Elapsed (cfg : WriteBufferConfig) (s : Engine W T) : Prop :=
  ∀ last, s.lastCommittedAt = some last → last + cfg.minCommitInterval ≤ s.now

end Engine

/-! ## The invariant -/

structure RateInv {W T : Type} (cfg : WriteBufferConfig) (s : Engine W T) : Prop where
  past : ∀ last, s.lastCommittedAt = some last → last ≤ s.now
  holder : ∀ t, (s.tasks t).holdsLock = true → s.flushLock = some t
  ordinary : ∀ t, (s.tasks t).ofFlushAll = false
  elapsed : ∀ t, (s.tasks t).mayCommit = true → s.Elapsed cfg

namespace RateInv

variable {W T : Type} {cfg : WriteBufferConfig} {s : Engine W T}

theorem init : RateInv cfg (Engine.init : Engine W T) where
  past := by
    intro last h
    cases h
  holder := by
    intro t h
    cases h
  ordinary := fun _ => rfl
  elapsed := by
    intro t h
    cases h

variable {s' : Engine W T} {t : T} {p : FlushTask W}

/-- Only the tasks, the lock and the times matter. -/
theorem congr (h : RateInv cfg s) (htasks : s'.tasks = s.tasks)
    (hlock : s'.flushLock = s.flushLock) (hlast : s'.lastCommittedAt = s.lastCommittedAt)
    (hnow : s'.now = s.now) : RateInv cfg s' where
  past := by
    rw [hlast, hnow]
    exact h.past
  holder := by
    rw [htasks, hlock]
    exact h.holder
  ordinary := by
    rw [htasks]
    exact h.ordinary
  elapsed := by
    intro t ht last heq
    rw [htasks] at ht
    rw [hlast] at heq
    rw [hnow]
    exact h.elapsed t ht last heq

theorem ofFlushAll_eq (h : RateInv cfg s) (ht : s.tasks t = p) :
    p.ofFlushAll = false := ht ▸ h.ordinary t

theorem tick (h : RateInv cfg s) (delay : Nat) : RateInv cfg { s with now := s.now + delay } where
  past := fun last hlast => (h.past last hlast).trans (Nat.le_add_right _ _)
  holder := h.holder
  ordinary := h.ordinary
  elapsed := fun t ht last hlast => (h.elapsed t ht last hlast).trans (Nat.le_add_right _ _)

variable [DecidableEq T]

theorem setTask (h : RateInv cfg s) (hholds : p.holdsLock = true → s.flushLock = some t)
    (hall : p.ofFlushAll = false) (hcommit : p.mayCommit = true → s.Elapsed cfg) :
    RateInv cfg (s.setTask t p) where
  past := h.past
  holder := by
    intro r hr
    by_cases heq : r = t
    · subst heq
      rw [tasks_setTask_self] at hr
      exact hholds hr
    · rw [tasks_setTask_of_ne s heq] at hr
      exact h.holder r hr
  ordinary := by
    intro r
    by_cases heq : r = t
    · rw [heq, tasks_setTask_self]
      exact hall
    · rw [tasks_setTask_of_ne s heq]
      exact h.ordinary r
  elapsed := by
    intro r hr
    by_cases heq : r = t
    · subst heq
      rw [tasks_setTask_self] at hr
      exact hcommit hr
    · rw [tasks_setTask_of_ne s heq] at hr
      exact h.elapsed r hr

/-- A task without the lock goes on. -/
theorem setTask_free (h : RateInv cfg s) (hp : p.holdsLock = false) (hall : p.ofFlushAll = false) :
    RateInv cfg (s.setTask t p) := by
  refine h.setTask ?_ hall ?_
  · intro hholds
    rw [hp] at hholds
    cases hholds
  · intro hcommit
    rw [FlushTask.holdsLock_of_mayCommit hcommit] at hp
    cases hp

theorem takeLock (h : RateInv cfg s) (hfree : s.flushLock = none) (t : T) :
    RateInv cfg ({ s with flushLock := some t }.setTask t .cooling) := by
  refine setTask (s := { s with flushLock := some t }) ⟨h.past, ?_, h.ordinary, h.elapsed⟩
    (fun _ => rfl) rfl ?_
  · intro r hr
    have hheld := h.holder r hr
    rw [hfree] at hheld
    cases hheld
  · exact fun hno => by cases hno

/-- The holder of the lock gives it back.  Nobody else is between the wait and
the commit, so the time of the last commit may change. -/
theorem giveLock (h : RateInv cfg s) (hholds : (s.tasks t).holdsLock = true)
    (hp : p.holdsLock = false) (hall : p.ofFlushAll = false)
    (htasks : s'.tasks = Function.update s.tasks t p)
    (hpast : ∀ last, s'.lastCommittedAt = some last → last ≤ s'.now) : RateInv cfg s' := by
  have hnobody : ∀ r, (s'.tasks r).holdsLock = false := by
    intro r
    rw [htasks]
    by_cases heq : r = t
    · rw [heq, Function.update_self]
      exact hp
    · rw [Function.update_of_ne heq]
      by_contra hr
      have hheld := h.holder r (by simpa using hr)
      rw [h.holder t hholds] at hheld
      exact heq (Option.some.inj hheld).symm
  refine ⟨hpast, ?_, ?_, ?_⟩
  · intro r hr
    rw [hnobody r] at hr
    cases hr
  · intro r
    rw [htasks]
    by_cases heq : r = t
    · rw [heq, Function.update_self]
      exact hall
    · rw [Function.update_of_ne heq]
      exact h.ordinary r
  · intro r hr
    have := FlushTask.holdsLock_of_mayCommit hr
    rw [hnobody r] at this
    cases this

/-- `request_flush` spawns a task that has no lock yet. -/
theorem requested {spawn : T} (hreq : s.Requested spawn s') (h : RateInv cfg s) :
    RateInv cfg s' := by
  cases hreq with
  | dropped => exact h
  | spawned =>
    refine setTask_free (s := { s with flushRunning := true }) ?_ rfl rfl
    exact h.congr rfl rfl rfl rfl

theorem drainBuffer (h : RateInv cfg s) (ht : s.tasks t = .draining false) :
    RateInv cfg (s.drainBuffer t false) := by
  have hholds : s.flushLock = some t := h.holder t (by rw [ht]; rfl)
  have helapsed : s.Elapsed cfg := h.elapsed t (by rw [ht]; rfl)
  rw [Engine.drainBuffer, NamespaceBuffer.drain]
  generalize s.state.drain = drained
  obtain ⟨state, _ | ⟨pending, waiters⟩⟩ := drained
  · refine setTask ?_ (fun _ => hholds) rfl ?_
    · exact h.congr rfl rfl rfl rfl
    · intro hno
      cases hno
  · refine setTask ?_ (fun _ => hholds) rfl (fun _ => helapsed)
    exact h.congr rfl rfl rfl rfl

theorem recheckBuffer (h : RateInv cfg s) (t : T) :
    RateInv cfg (s.recheckBuffer cfg t false) := by
  rw [Engine.recheckBuffer, NamespaceBuffer.recheck, if_neg Bool.false_ne_true]
  split
  · split <;> exact h.setTask_free rfl rfl
  · exact h.setTask_free rfl rfl

omit [DecidableEq T] in
/-- The cooldown is over when the last commit is long enough ago. -/
theorem elapsed_of_cooldown (h : RateInv cfg s) (hzero : s.cooldown cfg s.now = 0) :
    s.Elapsed cfg := by
  intro last hlast
  have hpast := h.past last hlast
  rw [NamespaceBuffer.cooldown, hlast] at hzero
  simp only [remainingCommitCooldown] at hzero
  omega

variable [DecidableEq W]

omit [DecidableEq T] in
theorem enqueue (h : RateInv cfg s) (w : W) (req : WriteRequest) :
    RateInv cfg (s.enqueue cfg w req) := by
  rw [Engine.enqueue, NamespaceBuffer.enqueue]
  generalize s.state.enqueue cfg w req = res
  obtain ⟨state, msg | next⟩ := res
  · exact h.congr rfl rfl rfl rfl
  · cases next <;> exact h.congr rfl rfl rfl rfl

theorem step (h : RateInv cfg s) {a : EngineAction W T} (hno : ∀ t, a ≠ .flushAll t)
    (hstep : Engine.Steps cfg s a s') : RateInv cfg s' := by
  cases hstep with
  | tick => exact h.tick _
  | otherCommit => exact h.congr rfl rfl rfl rfl
  | write => exact h.enqueue _ _
  | abort => exact h.congr rfl rfl rfl rfl
  | request _ hreq => exact requested hreq (h.congr rfl rfl rfl rfl)
  | fire _ _ hreq => exact requested hreq (h.congr rfl rfl rfl rfl)
  | flushAll => exact absurd rfl (hno _)
  | @lock t all ht hfree =>
    obtain rfl : all = false := h.ofFlushAll_eq ht
    exact h.takeLock hfree t
  | @cooled t ht hzero =>
    exact h.setTask (fun _ => h.holder t (by rw [ht]; rfl)) rfl
      (fun _ => h.elapsed_of_cooldown hzero)
  | @drain t all ht =>
    obtain rfl : all = false := h.ofFlushAll_eq ht
    exact h.drainBuffer ht
  | @release t all ht =>
    obtain rfl : all = false := h.ofFlushAll_eq ht
    exact h.giveLock (p := .storing) (by rw [ht]; rfl) rfl rfl rfl h.past
  | @committed t all b ht =>
    obtain rfl : all = false := h.ofFlushAll_eq ht
    refine setTask ?_ (fun _ => h.holder t (by rw [ht]; rfl)) rfl
      (fun _ => h.elapsed t (by rw [ht]; rfl))
    exact h.congr rfl rfl rfl rfl
  | @failed t all b msg ht =>
    obtain rfl : all = false := h.ofFlushAll_eq ht
    exact h.giveLock (p := .storing) (by rw [ht]; rfl) rfl rfl rfl h.past
  | @record t all b seq ht =>
    obtain rfl : all = false := h.ofFlushAll_eq ht
    refine h.giveLock (p := .storing) (by rw [ht]; rfl) rfl rfl rfl ?_
    rintro last ⟨⟩
    exact Nat.le_refl _
  | store =>
    refine setTask_free ?_ rfl rfl
    exact h.congr rfl rfl rfl rfl
  | @recheck t all ht =>
    obtain rfl : all = false := h.ofFlushAll_eq ht
    exact h.recheckBuffer t
  | rerequest _ hreq => exact requested hreq (h.setTask_free rfl rfl)
  | armFirstReturn | armFirst | armCooldownReturn | armCooldown | armSecondReturn =>
    exact h.setTask_free rfl rfl
  | armSecond =>
    refine setTask_free ?_ rfl rfl
    exact h.congr rfl rfl rfl rfl

/-- An append starts, and a commit is recorded, long enough after the last commit. -/
theorem elapsed_of_event (h : RateInv cfg s) {a : EngineAction W T}
    (hstep : Engine.Steps cfg s a s') {e : CommitEvent} (he : s.event a = some e) :
    e.time = s.now ∧ s.Elapsed cfg := by
  cases hstep with
  | @drain t all ht =>
    rw [event] at he
    split at he
    · cases he
      exact ⟨rfl, h.elapsed t (by rw [ht]; rfl)⟩
    · cases he
  | @record t all b seq ht =>
    cases he
    exact ⟨rfl, h.elapsed t (by rw [ht]; rfl)⟩
  | _ => cases he

end RateInv

namespace Engine

variable {W T : Type} [DecidableEq W] [DecidableEq T]

omit [DecidableEq W] in
theorem Requested.lastCommittedAt_eq {s s' : Engine W T} {spawn : T} (h : s.Requested spawn s') :
    s'.lastCommittedAt = s.lastCommittedAt := by
  cases h <;> rfl

/-- The time of the last commit is set when a commit is recorded, and at no other
time. -/
theorem Steps.lastCommittedAt_eq {cfg : WriteBufferConfig} {s s' : Engine W T}
    {a : EngineAction W T} (h : Steps cfg s a s') :
    s.event a = some (.recorded s.now) ∧ s'.lastCommittedAt = some s.now ∨
      (∀ time, s.event a ≠ some (.recorded time)) ∧ s'.lastCommittedAt = s.lastCommittedAt := by
  cases h with
  | record => exact .inl ⟨rfl, rfl⟩
  | drain =>
    refine .inr ⟨?_, ?_⟩
    · intro time
      rw [event]
      split <;> simp
    · rw [drainBuffer, NamespaceBuffer.drain]
      generalize s.state.drain = drained
      obtain ⟨state, _ | ⟨pending, waiters⟩⟩ := drained <;> rfl
  | write =>
    refine .inr ⟨fun _ => nofun, ?_⟩
    rw [enqueue, NamespaceBuffer.enqueue]
    generalize s.state.enqueue cfg _ _ = res
    obtain ⟨state, msg | next⟩ := res
    · rfl
    · cases next <;> rfl
  | request _ hreq => exact .inr ⟨fun _ => nofun, hreq.lastCommittedAt_eq⟩
  | fire _ _ hreq => exact .inr ⟨fun _ => nofun, hreq.lastCommittedAt_eq⟩
  | rerequest _ hreq => exact .inr ⟨fun _ => nofun, hreq.lastCommittedAt_eq⟩
  | _ => exact .inr ⟨fun _ => nofun, rfl⟩

end Engine

/-! ## Runs -/

/-- A commit is recorded long enough before everything that follows it. -/
def CommitEvent.Before (interval : Nat) (e e' : CommitEvent) : Prop :=
  ∀ time, e = .recorded time → time + interval ≤ e'.time

/-- The run lemma: what follows is long enough after the last commit as well. -/
theorem RateInv.timeline {W T : Type} [DecidableEq W] [DecidableEq T] {cfg : WriteBufferConfig}
    {s : Engine W T} (h : RateInv cfg s) {acts : List (EngineAction W T)}
    (hno : ∀ a ∈ acts, ∀ t, a ≠ .flushAll t) :
    (s.timeline cfg acts).Pairwise (CommitEvent.Before cfg.minCommitInterval) ∧
      ∀ e ∈ s.timeline cfg acts, ∀ last, s.lastCommittedAt = some last →
        last + cfg.minCommitInterval ≤ e.time := by
  induction acts generalizing s with
  | nil => exact ⟨.nil, by simp [Engine.timeline]⟩
  | cons a acts ih =>
    rw [Engine.timeline]
    cases hstep : s.step cfg a with
    | none => exact ⟨.nil, by simp⟩
    | some s' =>
      have hsteps := Engine.step_cases hstep
      obtain ⟨hpairs, hlater⟩ := ih (h.step (hno a List.mem_cons_self) hsteps)
        (fun b hb => hno b (List.mem_cons_of_mem a hb))
      have hnow : ∀ e, s.event a = some e → e.time = s.now ∧ s.Elapsed cfg :=
        fun e he => h.elapsed_of_event hsteps he
      have hpast : ∀ e ∈ s'.timeline cfg acts, ∀ last, s.lastCommittedAt = some last →
          last + cfg.minCommitInterval ≤ e.time := by
        intro e he last hlast
        rcases hsteps.lastCommittedAt_eq with ⟨hrec, hset⟩ | ⟨-, hsame⟩
        · have hle := h.past last hlast
          have := hlater e he s.now hset
          omega
        · exact hlater e he last (hsame.trans hlast)
      constructor
      · refine List.pairwise_append.mpr ⟨?_, hpairs, ?_⟩
        · cases s.event a with
          | none => exact .nil
          | some e => exact List.pairwise_singleton _ e
        · intro e he e' he' time hrecorded
          rw [Option.mem_toList] at he
          subst hrecorded
          rcases hsteps.lastCommittedAt_eq with ⟨hrec, hset⟩ | ⟨hnone, -⟩
          · rw [hrec] at he
            cases he
            exact hlater e' he' s.now hset
          · exact absurd he (hnone time)
      · intro e he last hlast
        rcases List.mem_append.mp he with he | he
        · obtain ⟨htime, helapsed⟩ := hnow e (Option.mem_toList.mp he)
          rw [htime]
          exact helapsed last hlast
        · exact hpast e he last hlast

theorem commits_rate_limited {W T : Type} [DecidableEq W] [DecidableEq T]
    (cfg : WriteBufferConfig) {acts : List (EngineAction W T)}
    (hno : ∀ a ∈ acts, ∀ t, a ≠ .flushAll t) :
    ((Engine.init : Engine W T).timeline cfg acts).Pairwise
      (CommitEvent.Before cfg.minCommitInterval) :=
  (RateInv.init.timeline hno).1

/-- Two writes that are flushed at once, one after the other.  The second flush
has to wait. -/
def twoFlushes : List (EngineAction (Fin 2) (Fin 1)) :=
  let flush (w : Fin 2) (wait : Nat) : List (EngineAction (Fin 2) (Fin 1)) :=
    [.write w { deletes := ["a"] }, .abort w, .request w 0, .lock 0, .tick wait, .cooled 0,
      .drain 0, .appended 0 (.ok ()), .tick 7, .record 0, .store 0, .recheck 0]
  flush 0 0 ++ flush 1 1000

theorem twoFlushes_rate_limited :
    (Engine.init : Engine (Fin 2) (Fin 1)).timeline { maxBatchOps := 1 } twoFlushes
        = [.started 0, .recorded 7, .started 1007, .recorded 1014] ∧
      ((Engine.init : Engine (Fin 2) (Fin 1)).timeline { maxBatchOps := 1 } twoFlushes).Pairwise
        (CommitEvent.Before 1000) := by
  refine ⟨by decide +kernel, commits_rate_limited { maxBatchOps := 1 } ?_⟩
  intro a ha t heq
  subst heq
  simp [twoFlushes] at ha

end OpenPuffer
