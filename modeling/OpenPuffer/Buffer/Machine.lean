import OpenPuffer.Buffer.GroupCommit

/-!
# The group-commit machine

The buffer of one namespace with the tasks around it: calls of `write`, timers, the flush
tasks that `request_flush` spawns, and `flush_all`.  Each section under a lock is one step, and
`append_wal` is one step too.  A stored timer handle says nothing about the timer: it stays
there when the timer has fired, and a drain drops it and leaves the timer running.

Besides the data of the source the state keeps which calls have rows in the buffer, and what
the calls of `append_wal` were given.
-/

namespace OpenPuffer

def remainingCommitCooldown (lastCommittedAt : Option Nat) (minInterval now : Nat) : Nat :=
  match lastCommittedAt with
  | none => 0
  | some t => minInterval - (now - t)

/-- How far a call of `write` is. -/
inductive WriteCall where
  | idle
  /-- The buffer is to be flushed now, and the timer is to be aborted first. -/
  | aborting (req : WriteRequest)
  | requesting (req : WriteRequest)
  | waiting (req : WriteRequest)
  | rejected (req : WriteRequest) (msg : String)

def WriteCall.request : WriteCall → Option WriteRequest
  | .idle => none
  | .aborting req => some req
  | .requesting req => some req
  | .waiting req => some req
  | .rejected req _ => some req

/-- A drained buffer. -/
structure FlushBatch (W : Type) where
  pending : Pending
  waiters : List (WriteWaiter W)
  /-- The calls whose rows these are. -/
  sources : List W
deriving DecidableEq

/-- How far a flush is.  With `all` set it belongs to `flush_all`, otherwise to
a task of `request_flush`. -/
inductive FlushTask (W : Type) where
  | idle
  /-- Waits for the flush lock. -/
  | locking (all : Bool)
  /-- Waits for the commit cooldown. -/
  | cooling
  | draining (all : Bool)
  /-- Found nothing to commit. -/
  | releasing (all : Bool)
  | appending (all : Bool) (batch : FlushBatch W)
  | recording (all : Bool) (batch : FlushBatch W) (seq : Nat)
  /-- The flush is over, `flush_running` is to be reset. -/
  | storing
  /-- Looks whether more has been queued. -/
  | rechecking (all : Bool)
  | requesting
  /-- The first `try_lock` of `arm_cooldown_flush_timer`. -/
  | armFirst
  /-- Its `try_lock` of the time of the last commit. -/
  | armCooldown
  /-- Its second `try_lock` of the state. -/
  | armSecond (delay : Nat)
deriving DecidableEq

/-- After `flush_namespace`.  `flush_all` stops at an error. -/
def FlushTask.afterFlush {W : Type} (all ok : Bool) : FlushTask W :=
  if all then if ok then .rechecking true else .idle else .storing

/-- The buffer of a namespace with its locks and timers. -/
structure NamespaceBuffer (W T : Type) where
  state : BufferState W := {}
  /-- Who holds the flush lock. -/
  flushLock : Option T := none
  lastCommittedAt : Option Nat := none
  flushRunning : Bool := false
  /-- The deadlines of the timers that hold this buffer and have not fired. -/
  timers : HashMap Nat Nat := ∅
  nextTimer : Nat := 0

/-! ## The sections of a buffer -/

section Sections

variable {W T : Type}

namespace NamespaceBuffer

/-- Spawn a timer and store its handle. -/
def armTimer (b : NamespaceBuffer W T) (deadline : Nat) : NamespaceBuffer W T :=
  { b with
    state := { b.state with timer := some b.nextTimer }
    timers := b.timers.insert b.nextTimer deadline
    nextTimer := b.nextTimer + 1 }

/-- Take the stored handle and abort its timer. -/
def abortTimer (b : NamespaceBuffer W T) : NamespaceBuffer W T :=
  { b with
    state := { b.state with timer := none }
    timers := b.state.timer.elim b.timers fun i => b.timers.erase i }

/-- The time until the next commit is allowed. -/
def cooldown (cfg : WriteBufferConfig) (b : NamespaceBuffer W T) (now : Nat) : Nat :=
  remainingCommitCooldown b.lastCommittedAt cfg.minCommitInterval now

/-- The first section of `write`, the timer it may spawn, and how the call goes on. -/
def enqueue (cfg : WriteBufferConfig) (b : NamespaceBuffer W T) (now : Nat) (w : W)
    (req : WriteRequest) : NamespaceBuffer W T × WriteCall :=
  match b.state.enqueue cfg w req with
  | (state, .error msg) => ({ b with state }, .rejected req msg)
  | (state, .ok .flushNow) => ({ b with state }, .aborting req)
  | (state, .ok .armTimer) => ({ b with state }.armTimer (now + cfg.maxDelay), .waiting req)
  | (state, .ok .wait) => ({ b with state }, .waiting req)

/-- The first section of a flush. -/
def drain (b : NamespaceBuffer W T) :
    NamespaceBuffer W T × Option (Pending × List (WriteWaiter W)) :=
  let (state, drained) := b.state.drain
  ({ b with state }, drained)

/-- The second section of a flush that found nothing. -/
def release (b : NamespaceBuffer W T) : NamespaceBuffer W T × List (WriteWaiter W) :=
  let (state, waiters) := b.state.drainWaiters
  ({ b with state }, waiters)

/-- What `after_flush_task` does about rows that came meanwhile: nothing, request
a flush, or arm a timer. -/
def recheck {α : Type} (cfg : WriteBufferConfig) (b : NamespaceBuffer W T) (now : Nat)
    (idle request arm : α) : α :=
  if b.state.hasWork then if b.cooldown cfg now = 0 then request else arm else idle

end NamespaceBuffer

variable [DecidableEq W]

/-- The channels of the calls after the waiters were sent their results. -/
def sendAnswers (waiters : List (WriteWaiter W))
    (result : WriteStats → Except String CommittedBatch)
    (answers : W → Option (Except String CommittedBatch)) (w : W) :
    Option (Except String CommittedBatch) :=
  match waiters.find? fun wt => wt.tx = w with
  | some wt => some (result wt.stats)
  | none => answers w

/-- The channel of a call gets what one of its waiters is sent, or nothing. -/
theorem sendAnswers_cases (waiters : List (WriteWaiter W))
    (result : WriteStats → Except String CommittedBatch)
    (answers : W → Option (Except String CommittedBatch)) (w : W) :
    (∃ wt ∈ waiters, wt.tx = w ∧ sendAnswers waiters result answers w = some (result wt.stats)) ∨
      (w ∉ waiters.map WriteWaiter.tx ∧ sendAnswers waiters result answers w = answers w) := by
  cases hfind : waiters.find? fun wt => wt.tx = w with
  | none =>
    refine .inr ⟨?_, by simp [sendAnswers, hfind]⟩
    simpa using hfind
  | some wt =>
    have htx := List.find?_some hfind
    exact .inl ⟨wt, List.mem_of_find?_eq_some hfind, of_decide_eq_true htx, by
      simp [sendAnswers, hfind]⟩

end Sections

/-! ## The machine -/

structure Engine (W T : Type) extends NamespaceBuffer W T where
  calls : W → WriteCall
  /-- What was sent to the channel of a call. -/
  answers : W → Option (Except String CommittedBatch)
  tasks : T → FlushTask W
  log : List WalEntry
  now : Nat
  /-- The calls whose rows are in the buffer. -/
  queued : List W
  /-- What `append_wal` was called with. -/
  appends : List (FlushBatch W)

inductive EngineAction (W T : Type) where
  | tick (delay : Nat)
  /-- Another process commits. -/
  | otherCommit (e : WalEntry)
  /-- The first section of `write`. -/
  | write (w : W) (req : WriteRequest)
  /-- The second section of a write that flushes. -/
  | abort (w : W)
  | request (w : W) (spawn : T)
  | fire (timer : Nat) (spawn : T)
  | flushAll (t : T)
  | lock (t : T)
  | cooled (t : T)
  | drain (t : T)
  | release (t : T)
  | appended (t : T) (result : Except String Unit)
  | record (t : T)
  | store (t : T)
  | recheck (t : T)
  | rerequest (t : T) (spawn : T)
  | armFirst (t : T) (locked : Bool)
  | armCooldown (t : T) (locked : Bool)
  | armSecond (t : T) (locked : Bool)

namespace Engine

variable {W T : Type}

def init : Engine W T where
  calls := fun _ => .idle
  answers := fun _ => none
  tasks := fun _ => .idle
  log := []
  now := 0
  queued := []
  appends := []

variable [DecidableEq W] [DecidableEq T]

def setCall (s : Engine W T) (w : W) (c : WriteCall) : Engine W T :=
  { s with calls := Function.update s.calls w c }

def setTask (s : Engine W T) (t : T) (p : FlushTask W) : Engine W T :=
  { s with tasks := Function.update s.tasks t p }

omit [DecidableEq T] in
@[simp] theorem calls_setCall_self (s : Engine W T) (w : W) (c : WriteCall) :
    (s.setCall w c).calls w = c := by simp [setCall]

omit [DecidableEq T] in
@[simp] theorem calls_setCall_of_ne (s : Engine W T) {v w : W} (h : v ≠ w) (c : WriteCall) :
    (s.setCall w c).calls v = s.calls v := by simp [setCall, h]

omit [DecidableEq W] in
@[simp] theorem tasks_setTask_self (s : Engine W T) (t : T) (p : FlushTask W) :
    (s.setTask t p).tasks t = p := by simp [setTask]

omit [DecidableEq W] in
@[simp] theorem tasks_setTask_of_ne (s : Engine W T) {r t : T} (h : r ≠ t) (p : FlushTask W) :
    (s.setTask t p).tasks r = s.tasks r := by simp [setTask, h]

/-- Send to the channels of the waiters. -/
def answer (s : Engine W T) (waiters : List (WriteWaiter W))
    (result : WriteStats → Except String CommittedBatch) : Engine W T :=
  { s with answers := sendAnswers waiters result s.answers }

/-- Start a flush task unless one is running. -/
def requestFlush (s : Engine W T) (spawn : T) : Option (Engine W T) :=
  if s.flushRunning then some s
  else
    match s.tasks spawn with
    | .idle => some ({ s with flushRunning := true }.setTask spawn (.locking false))
    | _ => none

def finishFlush (s : Engine W T) (t : T) (all ok : Bool) : Engine W T :=
  { s with flushLock := none }.setTask t (.afterFlush all ok)

/-- A call queues its request. -/
def enqueue (cfg : WriteBufferConfig) (s : Engine W T) (w : W) (req : WriteRequest) :
    Engine W T :=
  let (b, call) := s.toNamespaceBuffer.enqueue cfg s.now w req
  { s with toNamespaceBuffer := b, queued := s.queued ++ [w] }.setCall w call

/-- A flush takes the rows, or finds none. -/
def drainBuffer (s : Engine W T) (t : T) (all : Bool) : Engine W T :=
  match s.drain with
  | (b, none) => { s with toNamespaceBuffer := b }.setTask t (.releasing all)
  | (b, some (pending, waiters)) =>
    let batch := ⟨pending, waiters, s.queued⟩
    { s with toNamespaceBuffer := b, queued := [], appends := s.appends ++ [batch] }.setTask t
      (.appending all batch)

/-- The waiters of a flush that found nothing are told that they were committed at
sequence 0. -/
def releaseWaiters (s : Engine W T) (t : T) (all : Bool) : Engine W T :=
  let (b, waiters) := s.release
  let queued := if s.state.isEmpty then [] else s.queued
  ({ s with toNamespaceBuffer := b, queued }.answer waiters
    fun stats => .ok ⟨0, {}, stats⟩).finishFlush t all true

/-- What `after_flush_task` and `flush_all` do about rows that came meanwhile. -/
def recheckBuffer (cfg : WriteBufferConfig) (s : Engine W T) (t : T) (all : Bool) : Engine W T :=
  s.setTask t
    (if all then if s.state.hasWork then .locking true else .idle
    else s.recheck cfg s.now .idle .requesting .armFirst)

def step (cfg : WriteBufferConfig) (s : Engine W T) : EngineAction W T → Option (Engine W T)
  | .tick delay => some { s with now := s.now + delay }
  | .otherCommit e => some { s with log := s.log ++ [e] }
  | .write w req =>
    match s.calls w with
    | .idle => some (s.enqueue cfg w req)
    | _ => none
  | .abort w =>
    match s.calls w with
    | .aborting req =>
      some ({ s with toNamespaceBuffer := s.abortTimer }.setCall w (.requesting req))
    | _ => none
  | .request w spawn =>
    match s.calls w with
    | .requesting req => (s.setCall w (.waiting req)).requestFlush spawn
    | _ => none
  | .fire i spawn =>
    match s.timers.lookup i with
    | some deadline =>
      if deadline ≤ s.now then
        { s with timers := s.timers.erase i }.requestFlush spawn
      else none
    | none => none
  | .flushAll t =>
    match s.tasks t with
    | .idle => some (s.setTask t (.locking true))
    | _ => none
  | .lock t =>
    match s.tasks t, s.flushLock with
    | .locking all, none =>
      some ({ s with flushLock := some t }.setTask t (if all then .draining true else .cooling))
    | _, _ => none
  | .cooled t =>
    match s.tasks t with
    | .cooling => if s.cooldown cfg s.now = 0 then some (s.setTask t (.draining false)) else none
    | _ => none
  | .drain t =>
    match s.tasks t with
    | .draining all => some (s.drainBuffer t all)
    | _ => none
  | .release t =>
    match s.tasks t with
    | .releasing all => some (s.releaseWaiters t all)
    | _ => none
  | .appended t result =>
    match s.tasks t, result with
    | .appending all batch, .ok () =>
      some ({ s with log := s.log ++ [batch.pending.entry] }.setTask t
        (.recording all batch (s.log.length + 1)))
    | .appending all batch, .error msg =>
      some ((s.answer batch.waiters fun _ => .error msg).finishFlush t all false)
    | _, _ => none
  | .record t =>
    match s.tasks t with
    | .recording all batch seq =>
      some (({ s with lastCommittedAt := some s.now }.answer batch.waiters
        fun stats => .ok ⟨seq, batch.pending.entry, stats⟩).finishFlush t all true)
    | _ => none
  | .store t =>
    match s.tasks t with
    | .storing => some ({ s with flushRunning := false }.setTask t (.rechecking false))
    | _ => none
  | .recheck t =>
    match s.tasks t with
    | .rechecking all => some (s.recheckBuffer cfg t all)
    | _ => none
  | .rerequest t spawn =>
    match s.tasks t with
    | .requesting => (s.setTask t .idle).requestFlush spawn
    | _ => none
  | .armFirst t locked =>
    match s.tasks t with
    | .armFirst =>
      if locked ∨ ¬ s.state.hasWork ∨ s.state.timer.isSome then some (s.setTask t .idle)
      else some (s.setTask t .armCooldown)
    | _ => none
  | .armCooldown t locked =>
    match s.tasks t with
    | .armCooldown =>
      if locked then some (s.setTask t .idle)
      else some (s.setTask t (.armSecond (max (s.cooldown cfg s.now) 1)))
    | _ => none
  | .armSecond t locked =>
    match s.tasks t with
    | .armSecond delay =>
      if locked ∨ s.state.timer.isSome then some (s.setTask t .idle)
      else some ({ s with toNamespaceBuffer := s.armTimer (s.now + delay) }.setTask t .idle)
    | _ => none

/-! ## What a step can do -/

/-- `request_flush` starts a task or leaves things to the running one. -/
inductive Requested (s : Engine W T) (spawn : T) : Engine W T → Prop where
  | dropped : s.flushRunning = true → Requested s spawn s
  | spawned : s.flushRunning = false → s.tasks spawn = .idle →
      Requested s spawn ({ s with flushRunning := true }.setTask spawn (.locking false))

/-- The steps of the machine, case by case. -/
inductive Steps (cfg : WriteBufferConfig) (s : Engine W T) :
    EngineAction W T → Engine W T → Prop where
  | tick {delay} : Steps cfg s (.tick delay) { s with now := s.now + delay }
  | otherCommit {e} : Steps cfg s (.otherCommit e) { s with log := s.log ++ [e] }
  | write {w req} : s.calls w = .idle → Steps cfg s (.write w req) (s.enqueue cfg w req)
  | abort {w req} : s.calls w = .aborting req →
      Steps cfg s (.abort w)
        ({ s with toNamespaceBuffer := s.abortTimer }.setCall w (.requesting req))
  | request {w req spawn s'} : s.calls w = .requesting req →
      (s.setCall w (.waiting req)).Requested spawn s' → Steps cfg s (.request w spawn) s'
  | fire {i deadline spawn s'} : s.timers.lookup i = some deadline → deadline ≤ s.now →
      { s with timers := s.timers.erase i }.Requested spawn s' → Steps cfg s (.fire i spawn) s'
  | flushAll {t} : s.tasks t = .idle → Steps cfg s (.flushAll t) (s.setTask t (.locking true))
  | lock {t all} : s.tasks t = .locking all → s.flushLock = none →
      Steps cfg s (.lock t)
        ({ s with flushLock := some t }.setTask t (if all then .draining true else .cooling))
  | cooled {t} : s.tasks t = .cooling → s.cooldown cfg s.now = 0 →
      Steps cfg s (.cooled t) (s.setTask t (.draining false))
  | drain {t all} : s.tasks t = .draining all → Steps cfg s (.drain t) (s.drainBuffer t all)
  | release {t all} : s.tasks t = .releasing all →
      Steps cfg s (.release t) (s.releaseWaiters t all)
  | committed {t all b} : s.tasks t = .appending all b →
      Steps cfg s (.appended t (.ok ())) ({ s with log := s.log ++ [b.pending.entry] }.setTask t
        (.recording all b (s.log.length + 1)))
  | failed {t all b msg} : s.tasks t = .appending all b →
      Steps cfg s (.appended t (.error msg))
        ((s.answer b.waiters fun _ => .error msg).finishFlush t all false)
  | record {t all b seq} : s.tasks t = .recording all b seq →
      Steps cfg s (.record t) (({ s with lastCommittedAt := some s.now }.answer b.waiters
        fun stats => .ok ⟨seq, b.pending.entry, stats⟩).finishFlush t all true)
  | store {t} : s.tasks t = .storing →
      Steps cfg s (.store t) ({ s with flushRunning := false }.setTask t (.rechecking false))
  | recheck {t all} : s.tasks t = .rechecking all →
      Steps cfg s (.recheck t) (s.recheckBuffer cfg t all)
  | rerequest {t spawn s'} : s.tasks t = .requesting →
      (s.setTask t .idle).Requested spawn s' → Steps cfg s (.rerequest t spawn) s'
  /-- `arm_cooldown_flush_timer` returns early. -/
  | armFirstReturn {t locked} : s.tasks t = .armFirst →
      locked = true ∨ ¬ s.state.hasWork ∨ s.state.timer.isSome →
      Steps cfg s (.armFirst t locked) (s.setTask t .idle)
  | armFirst {t locked} : s.tasks t = .armFirst →
      Steps cfg s (.armFirst t locked) (s.setTask t .armCooldown)
  | armCooldownReturn {t} : s.tasks t = .armCooldown →
      Steps cfg s (.armCooldown t true) (s.setTask t .idle)
  | armCooldown {t} : s.tasks t = .armCooldown →
      Steps cfg s (.armCooldown t false) (s.setTask t (.armSecond (max (s.cooldown cfg s.now) 1)))
  | armSecondReturn {t delay locked} : s.tasks t = .armSecond delay →
      locked = true ∨ s.state.timer.isSome → Steps cfg s (.armSecond t locked) (s.setTask t .idle)
  | armSecond {t delay locked} : s.tasks t = .armSecond delay →
      Steps cfg s (.armSecond t locked)
        ({ s with toNamespaceBuffer := s.armTimer (s.now + delay) }.setTask t .idle)

omit [DecidableEq W] in
theorem requestFlush_cases {s s' : Engine W T} {spawn : T}
    (h : s.requestFlush spawn = some s') : s.Requested spawn s' := by
  simp only [requestFlush] at h
  split at h
  · rename_i hon
    cases h
    exact .dropped hon
  · rename_i hoff
    split at h
    · rename_i hidle
      cases h
      exact .spawned (Bool.eq_false_of_not_eq_true hoff) hidle
    · cases h

theorem step_cases {cfg : WriteBufferConfig} {s s' : Engine W T} {a : EngineAction W T}
    (h : s.step cfg a = some s') : Steps cfg s a s' := by
  cases a with
  | tick | otherCommit =>
    cases h
    constructor
  | write | abort | flushAll | drain | release | record | store | recheck =>
    simp only [step] at h
    split at h
    · rename_i hat
      cases h
      constructor
      exact hat
    · cases h
  | request =>
    simp only [step] at h
    split at h
    · rename_i hcall
      exact .request hcall (requestFlush_cases h)
    · cases h
  | fire =>
    simp only [step] at h
    split at h
    · rename_i hlookup
      split at h
      · rename_i hdue
        exact .fire hlookup hdue (requestFlush_cases h)
      · cases h
    · cases h
  | lock =>
    simp only [step] at h
    split at h
    · rename_i hphase hfree
      cases h
      exact .lock hphase hfree
    · cases h
  | cooled =>
    simp only [step] at h
    split at h
    · rename_i hphase
      split at h
      · rename_i hzero
        cases h
        exact .cooled hphase hzero
      · cases h
    · cases h
  | appended =>
    simp only [step] at h
    split at h
    · rename_i hphase
      cases h
      exact .committed hphase
    · rename_i hphase
      cases h
      exact .failed hphase
    · cases h
  | rerequest =>
    simp only [step] at h
    split at h
    · rename_i hphase
      exact .rerequest hphase (requestFlush_cases h)
    · cases h
  | armFirst =>
    simp only [step] at h
    split at h
    · rename_i hphase
      split at h
      · rename_i hreturn
        cases h
        exact .armFirstReturn hphase hreturn
      · cases h
        exact .armFirst hphase
    · cases h
  | armCooldown t locked =>
    simp only [step] at h
    split at h
    · rename_i hphase
      cases locked with
      | true =>
        cases h
        exact .armCooldownReturn hphase
      | false =>
        cases h
        exact .armCooldown hphase
    · cases h
  | armSecond =>
    simp only [step] at h
    split at h
    · rename_i hphase
      split at h
      · rename_i hreturn
        cases h
        exact .armSecondReturn hphase hreturn
      · cases h
        exact .armSecond hphase
    · cases h

end Engine

/-- The group-commit machine of one namespace. -/
def engine (W T : Type) [DecidableEq W] [DecidableEq T] (cfg : WriteBufferConfig) :
    Machine (Engine W T) (EngineAction W T) := ⟨Engine.step cfg⟩

end OpenPuffer
