import OpenPuffer.Buffer.Machine

/-!
# The map of write buffers

Calls, timers and tasks keep the buffer they were given, but `flush_namespace` gets a name and
looks the buffer up again, and `drop_namespace` removes the entry in between whenever it
likes.  The next writer then creates a new buffer, while the old one lives on with those who
hold it.

This is the machine of one namespace with all its buffers, numbered in the order of their
creation.  Their sections are those of the machine of a single buffer.
-/

namespace OpenPuffer

/-! ## Buffers, calls and tasks -/

/-- How far a call of `write` is, and which buffer it holds. -/
inductive HeldCall where
  | idle
  /-- Has its buffer and has not queued anything. -/
  | holding (buf : Nat) (req : WriteRequest)
  | entered (buf : Nat) (call : WriteCall)

/-- How far `flush_namespace` is with a buffer. -/
inductive FlushPhase (W : Type) where
  | locking
  | cooling
  | draining
  | releasing
  | appending (batch : FlushBatch W)
  | recording (batch : FlushBatch W) (seq : Nat)
deriving DecidableEq

/-- How far `after_flush_task` is. -/
inductive AfterPhase where
  | storing
  | rechecking
  | requesting
  | armFirst
  | armCooldown
  | armSecond (delay : Nat)
deriving DecidableEq

/-- A task that flushes.  The task of a flush request has a *home*, the buffer whose
handle it was given; `flush_all` has none. -/
inductive FlushJob (W : Type) where
  | idle
  /-- `flush_namespace` is about to look the buffer up. -/
  | looking (home : Option Nat)
  /-- It works on the buffer that it found. -/
  | flushing (home : Option Nat) (buf : Nat) (phase : FlushPhase W)
  | after (home : Nat) (phase : AfterPhase)
  /-- `flush_all` is about to look the buffer up again. -/
  | peeking
  | peeked (buf : Nat)
deriving DecidableEq

/-- After `flush_namespace`.  `flush_all` stops at an error. -/
def FlushJob.afterFlush {W : Type} (home : Option Nat) (ok : Bool) : FlushJob W :=
  match home with
  | some h => .after h .storing
  | none => if ok then .peeking else .idle

/-- The buffers of one namespace and everybody who works with them. -/
structure Manager (W T : Type) where
  /-- The buffer that the map has for the namespace. -/
  entry : Option Nat
  nextBuffer : Nat
  buffers : Nat → NamespaceBuffer W T
  calls : W → HeldCall
  /-- What was sent to the channel of a call. -/
  answers : W → Option (Except String CommittedBatch)
  tasks : T → FlushJob W
  log : List WalEntry
  now : Nat

inductive ManagerAction (W T : Type) where
  | tick (delay : Nat)
  | otherCommit (e : WalEntry)
  /-- A call of `write` gets its buffer. -/
  | bufferFor (w : W) (req : WriteRequest)
  | write (w : W)
  | abort (w : W)
  | request (w : W) (spawn : T)
  | fire (buf timer : Nat) (spawn : T)
  | dropNamespace
  | flushAll (t : T)
  /-- `flush_namespace` looks the buffer up. -/
  | look (t : T)
  | lock (t : T)
  | cooled (t : T)
  | drain (t : T)
  | release (t : T)
  | appended (t : T) (result : Except String Unit)
  | record (t : T)
  | store (t : T)
  | recheck (t : T)
  | rerequest (t : T) (spawn : T)
  | armFirst (t : T) (locked : Bool)
  | armCooldown (t : T) (locked : Bool)
  | armSecond (t : T) (locked : Bool)
  /-- `flush_all` looks the buffer up again. -/
  | peek (t : T)
  | again (t : T)

namespace Manager

variable {W T : Type}

def init : Manager W T where
  entry := none
  nextBuffer := 0
  buffers := fun _ => {}
  calls := fun _ => .idle
  answers := fun _ => none
  tasks := fun _ => .idle
  log := []
  now := 0

def setBuffer (s : Manager W T) (g : Nat) (b : NamespaceBuffer W T) : Manager W T :=
  { s with buffers := Function.update s.buffers g b }

variable [DecidableEq W] [DecidableEq T]

def setCall (s : Manager W T) (w : W) (c : HeldCall) : Manager W T :=
  { s with calls := Function.update s.calls w c }

def setTask (s : Manager W T) (t : T) (j : FlushJob W) : Manager W T :=
  { s with tasks := Function.update s.tasks t j }

/-- Send to the channels of the waiters. -/
def answer (s : Manager W T) (waiters : List (WriteWaiter W))
    (result : WriteStats → Except String CommittedBatch) : Manager W T :=
  { s with answers := sendAnswers waiters result s.answers }

/-- Get the buffer of the namespace, or make one. -/
def bufferFor (s : Manager W T) (w : W) (req : WriteRequest) : Manager W T :=
  match s.entry with
  | some g => s.setCall w (.holding g req)
  | none =>
    ({ s with entry := some s.nextBuffer, nextBuffer := s.nextBuffer + 1 }.setBuffer
      s.nextBuffer {}).setCall w (.holding s.nextBuffer req)

/-- A call queues its request. -/
def enqueue (cfg : WriteBufferConfig) (s : Manager W T) (w : W) (g : Nat) (req : WriteRequest) :
    Manager W T :=
  let (b, call) := (s.buffers g).enqueue cfg s.now w req
  (s.setBuffer g b).setCall w (.entered g call)

/-- Start a flush task unless one of this buffer is running. -/
def requestFlush (s : Manager W T) (g : Nat) (spawn : T) : Option (Manager W T) :=
  if (s.buffers g).flushRunning then some s
  else
    match s.tasks spawn with
    | .idle =>
      some ((s.setBuffer g { s.buffers g with flushRunning := true }).setTask spawn
        (.looking (some g)))
    | _ => none

/-- `flush_namespace` looks the buffer up.  Without an entry there is nothing to do. -/
def look (s : Manager W T) (t : T) (home : Option Nat) : Manager W T :=
  match s.entry with
  | some g => s.setTask t (.flushing home g .locking)
  | none => s.setTask t (.afterFlush home true)

def finishFlush (s : Manager W T) (t : T) (home : Option Nat) (g : Nat) (ok : Bool) :
    Manager W T :=
  (s.setBuffer g { s.buffers g with flushLock := none }).setTask t (.afterFlush home ok)

/-- The second section of a write that flushes. -/
def abortTimer (s : Manager W T) (w : W) (g : Nat) (req : WriteRequest) : Manager W T :=
  (s.setBuffer g (s.buffers g).abortTimer).setCall w (.entered g (.requesting req))

def lockBuffer (s : Manager W T) (t : T) (home : Option Nat) (g : Nat) : Manager W T :=
  (s.setBuffer g { s.buffers g with flushLock := some t }).setTask t
    (.flushing home g (if home = none then .draining else .cooling))

/-- A flush takes the rows, or finds none. -/
def drainBuffer (s : Manager W T) (t : T) (home : Option Nat) (g : Nat) : Manager W T :=
  match (s.buffers g).drain with
  | (_, none) => s.setTask t (.flushing home g .releasing)
  | (b, some (pending, waiters)) =>
    (s.setBuffer g b).setTask t (.flushing home g (.appending ⟨pending, waiters, []⟩))

/-- The waiters of a flush that found nothing are told that they were committed at
sequence 0. -/
def releaseWaiters (s : Manager W T) (t : T) (home : Option Nat) (g : Nat) : Manager W T :=
  let (b, waiters) := (s.buffers g).release
  ((s.setBuffer g b).answer waiters fun stats => .ok ⟨0, {}, stats⟩).finishFlush t home g true

/-- `append_wal` succeeds. -/
def commitBatch (s : Manager W T) (t : T) (home : Option Nat) (g : Nat) (b : FlushBatch W) :
    Manager W T :=
  { s with log := s.log ++ [b.pending.entry] }.setTask t
    (.flushing home g (.recording b (s.log.length + 1)))

def recordCommit (s : Manager W T) (t : T) (home : Option Nat) (g : Nat) (b : FlushBatch W)
    (seq : Nat) : Manager W T :=
  ((s.setBuffer g { s.buffers g with lastCommittedAt := some s.now }).answer b.waiters
    fun stats => .ok ⟨seq, b.pending.entry, stats⟩).finishFlush t home g true

def storeFlag (s : Manager W T) (t : T) (g : Nat) : Manager W T :=
  (s.setBuffer g { s.buffers g with flushRunning := false }).setTask t (.after g .rechecking)

/-- `arm_cooldown_flush_timer` spawns its timer. -/
def armCooldownTimer (s : Manager W T) (t : T) (g delay : Nat) : Manager W T :=
  (s.setBuffer g ((s.buffers g).armTimer (s.now + delay))).setTask t .idle

/-- What `after_flush_task` does about rows that came meanwhile. -/
def recheckBuffer (cfg : WriteBufferConfig) (s : Manager W T) (t : T) (g : Nat) : Manager W T :=
  s.setTask t ((s.buffers g).recheck cfg s.now .idle (.after g .requesting) (.after g .armFirst))

def step (cfg : WriteBufferConfig) (s : Manager W T) :
    ManagerAction W T → Option (Manager W T)
  | .tick delay => some { s with now := s.now + delay }
  | .otherCommit e => some { s with log := s.log ++ [e] }
  | .bufferFor w req =>
    match s.calls w with
    | .idle => some (s.bufferFor w req)
    | _ => none
  | .write w =>
    match s.calls w with
    | .holding g req => some (s.enqueue cfg w g req)
    | _ => none
  | .abort w =>
    match s.calls w with
    | .entered g (.aborting req) => some (s.abortTimer w g req)
    | _ => none
  | .request w spawn =>
    match s.calls w with
    | .entered g (.requesting req) =>
      (s.setCall w (.entered g (.waiting req))).requestFlush g spawn
    | _ => none
  | .fire g i spawn =>
    match (s.buffers g).timers.lookup i with
    | some deadline =>
      if deadline ≤ s.now then
        (s.setBuffer g { s.buffers g with timers := (s.buffers g).timers.erase i }).requestFlush
          g spawn
      else none
    | none => none
  | .dropNamespace => some { s with entry := none }
  | .flushAll t =>
    match s.tasks t, s.entry with
    | .idle, some _ => some (s.setTask t (.looking none))
    | _, _ => none
  | .look t =>
    match s.tasks t with
    | .looking home => some (s.look t home)
    | _ => none
  | .lock t =>
    match s.tasks t with
    | .flushing home g .locking =>
      if (s.buffers g).flushLock = none then some (s.lockBuffer t home g) else none
    | _ => none
  | .cooled t =>
    match s.tasks t with
    | .flushing home g .cooling =>
      if (s.buffers g).cooldown cfg s.now = 0 then some (s.setTask t (.flushing home g .draining))
      else none
    | _ => none
  | .drain t =>
    match s.tasks t with
    | .flushing home g .draining => some (s.drainBuffer t home g)
    | _ => none
  | .release t =>
    match s.tasks t with
    | .flushing home g .releasing => some (s.releaseWaiters t home g)
    | _ => none
  | .appended t result =>
    match s.tasks t, result with
    | .flushing home g (.appending batch), .ok () => some (s.commitBatch t home g batch)
    | .flushing home g (.appending batch), .error msg =>
      some ((s.answer batch.waiters fun _ => .error msg).finishFlush t home g false)
    | _, _ => none
  | .record t =>
    match s.tasks t with
    | .flushing home g (.recording batch seq) => some (s.recordCommit t home g batch seq)
    | _ => none
  | .store t =>
    match s.tasks t with
    | .after g .storing => some (s.storeFlag t g)
    | _ => none
  | .recheck t =>
    match s.tasks t with
    | .after g .rechecking => some (s.recheckBuffer cfg t g)
    | _ => none
  | .rerequest t spawn =>
    match s.tasks t with
    | .after g .requesting => (s.setTask t .idle).requestFlush g spawn
    | _ => none
  | .armFirst t locked =>
    match s.tasks t with
    | .after g .armFirst =>
      if locked ∨ ¬ (s.buffers g).state.hasWork ∨ (s.buffers g).state.timer.isSome then
        some (s.setTask t .idle)
      else some (s.setTask t (.after g .armCooldown))
    | _ => none
  | .armCooldown t locked =>
    match s.tasks t with
    | .after g .armCooldown =>
      if locked then some (s.setTask t .idle)
      else some (s.setTask t (.after g (.armSecond (max ((s.buffers g).cooldown cfg s.now) 1))))
    | _ => none
  | .armSecond t locked =>
    match s.tasks t with
    | .after g (.armSecond delay) =>
      if locked ∨ (s.buffers g).state.timer.isSome then some (s.setTask t .idle)
      else some (s.armCooldownTimer t g delay)
    | _ => none
  | .peek t =>
    match s.tasks t, s.entry with
    | .peeking, some g => some (s.setTask t (.peeked g))
    | .peeking, none => some (s.setTask t .idle)
    | _, _ => none
  | .again t =>
    match s.tasks t with
    | .peeked g =>
      if (s.buffers g).state.hasWork then some (s.setTask t (.looking none))
      else some (s.setTask t .idle)
    | _ => none

/-! ## What a step can do -/

/-- `request_flush` starts a task or leaves things to the running one. -/
inductive Requested (s : Manager W T) (g : Nat) (spawn : T) : Manager W T → Prop where
  | dropped : (s.buffers g).flushRunning = true → Requested s g spawn s
  | spawned : (s.buffers g).flushRunning = false → s.tasks spawn = .idle →
      Requested s g spawn ((s.setBuffer g { s.buffers g with flushRunning := true }).setTask spawn
        (.looking (some g)))

/-- The steps of the machine, case by case. -/
inductive Moves (cfg : WriteBufferConfig) (s : Manager W T) :
    ManagerAction W T → Manager W T → Prop where
  | tick {delay} : Moves cfg s (.tick delay) { s with now := s.now + delay }
  | otherCommit {e} : Moves cfg s (.otherCommit e) { s with log := s.log ++ [e] }
  | bufferFor {w req} : s.calls w = .idle → Moves cfg s (.bufferFor w req) (s.bufferFor w req)
  | write {w g req} : s.calls w = .holding g req →
      Moves cfg s (.write w) (s.enqueue cfg w g req)
  | abort {w g req} : s.calls w = .entered g (.aborting req) →
      Moves cfg s (.abort w) (s.abortTimer w g req)
  | request {w g req spawn s'} : s.calls w = .entered g (.requesting req) →
      (s.setCall w (.entered g (.waiting req))).Requested g spawn s' →
      Moves cfg s (.request w spawn) s'
  | fire {g i deadline spawn s'} : (s.buffers g).timers.lookup i = some deadline →
      (s.setBuffer g { s.buffers g with timers := (s.buffers g).timers.erase i }).Requested g spawn
        s' →
      Moves cfg s (.fire g i spawn) s'
  | dropNamespace : Moves cfg s .dropNamespace { s with entry := none }
  | flushAll {t} : s.tasks t = .idle → Moves cfg s (.flushAll t) (s.setTask t (.looking none))
  | look {t home} : s.tasks t = .looking home → Moves cfg s (.look t) (s.look t home)
  | lock {t home g} : s.tasks t = .flushing home g .locking →
      Moves cfg s (.lock t) (s.lockBuffer t home g)
  | cooled {t home g} : s.tasks t = .flushing home g .cooling →
      Moves cfg s (.cooled t) (s.setTask t (.flushing home g .draining))
  | drain {t home g} : s.tasks t = .flushing home g .draining →
      Moves cfg s (.drain t) (s.drainBuffer t home g)
  | release {t home g} : s.tasks t = .flushing home g .releasing →
      Moves cfg s (.release t) (s.releaseWaiters t home g)
  | committed {t home g b} : s.tasks t = .flushing home g (.appending b) →
      Moves cfg s (.appended t (.ok ())) (s.commitBatch t home g b)
  | failed {t home g b msg} : s.tasks t = .flushing home g (.appending b) →
      Moves cfg s (.appended t (.error msg))
        ((s.answer b.waiters fun _ => .error msg).finishFlush t home g false)
  | record {t home g b seq} : s.tasks t = .flushing home g (.recording b seq) →
      Moves cfg s (.record t) (s.recordCommit t home g b seq)
  | store {t g} : s.tasks t = .after g .storing →
      Moves cfg s (.store t) (s.storeFlag t g)
  | recheck {t g} : s.tasks t = .after g .rechecking →
      Moves cfg s (.recheck t) (s.recheckBuffer cfg t g)
  | rerequest {t g spawn s'} : s.tasks t = .after g .requesting →
      (s.setTask t .idle).Requested g spawn s' → Moves cfg s (.rerequest t spawn) s'
  /-- `arm_cooldown_flush_timer` returns early. -/
  | armFirstReturn {t g locked} : s.tasks t = .after g .armFirst →
      locked = true ∨ ¬ (s.buffers g).state.hasWork ∨ (s.buffers g).state.timer.isSome →
      Moves cfg s (.armFirst t locked) (s.setTask t .idle)
  | armFirst {t g locked} : s.tasks t = .after g .armFirst →
      Moves cfg s (.armFirst t locked) (s.setTask t (.after g .armCooldown))
  | armCooldownReturn {t g} : s.tasks t = .after g .armCooldown →
      Moves cfg s (.armCooldown t true) (s.setTask t .idle)
  | armCooldown {t g delay} : s.tasks t = .after g .armCooldown →
      Moves cfg s (.armCooldown t false) (s.setTask t (.after g (.armSecond delay)))
  | armSecondReturn {t g delay locked} : s.tasks t = .after g (.armSecond delay) →
      locked = true ∨ (s.buffers g).state.timer.isSome →
      Moves cfg s (.armSecond t locked) (s.setTask t .idle)
  | armSecond {t g delay locked} : s.tasks t = .after g (.armSecond delay) →
      Moves cfg s (.armSecond t locked) (s.armCooldownTimer t g delay)
  /-- `flush_all` looks on or stops. -/
  | peeks {t a j} : s.tasks t = .peeking ∨ (∃ g, s.tasks t = .peeked g) →
      j = .idle ∨ j = .looking none ∨ (∃ g, s.entry = some g ∧ j = .peeked g) →
      Moves cfg s a (s.setTask t j)

omit [DecidableEq W] in
theorem requestFlush_cases {s s' : Manager W T} {g : Nat} {spawn : T}
    (h : s.requestFlush g spawn = some s') : s.Requested g spawn s' := by
  simp only [requestFlush] at h
  split at h
  · rename_i hon
    cases h
    exact .dropped hon
  · rename_i hoff
    split at h
    · rename_i hidle
      cases h
      exact .spawned (Bool.eq_false_of_not_eq_true hoff) hidle
    · cases h

section Cases

variable {cfg : WriteBufferConfig} {s s' : Manager W T} {t : T} {locked : Bool}

theorem step_fire {g i : Nat} {spawn : T} (h : s.step cfg (.fire g i spawn) = some s') :
    Moves cfg s (.fire g i spawn) s' := by
  simp only [step] at h
  split at h
  · rename_i hlookup
    split at h
    · exact .fire hlookup (requestFlush_cases h)
    · cases h
  · cases h

theorem step_appended {result : Except String Unit}
    (h : s.step cfg (.appended t result) = some s') : Moves cfg s (.appended t result) s' := by
  simp only [step] at h
  split at h
  · rename_i hphase
    cases h
    exact .committed hphase
  · rename_i hphase
    cases h
    exact .failed hphase
  · cases h

theorem step_armFirst (h : s.step cfg (.armFirst t locked) = some s') :
    Moves cfg s (.armFirst t locked) s' := by
  simp only [step] at h
  split at h
  · rename_i hphase
    split at h
    · rename_i hreturn
      cases h
      exact .armFirstReturn hphase hreturn
    · cases h
      exact .armFirst hphase
  · cases h

theorem step_armCooldown (h : s.step cfg (.armCooldown t locked) = some s') :
    Moves cfg s (.armCooldown t locked) s' := by
  simp only [step] at h
  split at h
  · rename_i hphase
    cases locked with
    | true =>
      cases h
      exact .armCooldownReturn hphase
    | false =>
      cases h
      exact .armCooldown hphase
  · cases h

theorem step_armSecond (h : s.step cfg (.armSecond t locked) = some s') :
    Moves cfg s (.armSecond t locked) s' := by
  simp only [step] at h
  split at h
  · rename_i hphase
    split at h
    · rename_i hreturn
      cases h
      exact .armSecondReturn hphase hreturn
    · cases h
      exact .armSecond hphase
  · cases h

theorem step_peek (h : s.step cfg (.peek t) = some s') : Moves cfg s (.peek t) s' := by
  simp only [step] at h
  split at h
  · rename_i hphase hentry
    cases h
    exact .peeks (.inl hphase) (.inr (.inr ⟨_, hentry, rfl⟩))
  · rename_i hphase _
    cases h
    exact .peeks (.inl hphase) (.inl rfl)
  · cases h

theorem step_again (h : s.step cfg (.again t) = some s') : Moves cfg s (.again t) s' := by
  simp only [step] at h
  split at h
  · rename_i hphase
    split at h
    · cases h
      exact .peeks (.inr ⟨_, hphase⟩) (.inr (.inl rfl))
    · cases h
      exact .peeks (.inr ⟨_, hphase⟩) (.inl rfl)
  · cases h

theorem step_cases {a : ManagerAction W T} (h : s.step cfg a = some s') : Moves cfg s a s' := by
  cases a with
  | tick | otherCommit | dropNamespace =>
    cases h
    constructor
  | bufferFor | write | abort | look | drain | release | record | store | recheck =>
    simp only [step] at h
    split at h
    · rename_i hat
      cases h
      constructor
      exact hat
    · cases h
  | request =>
    simp only [step] at h
    split at h
    · rename_i hcall
      exact .request hcall (requestFlush_cases h)
    · cases h
  | fire => exact step_fire h
  | flushAll =>
    simp only [step] at h
    split at h
    · rename_i hphase _
      cases h
      exact .flushAll hphase
    · cases h
  | lock | cooled =>
    simp only [step] at h
    split at h
    · rename_i hphase
      split at h
      · cases h
        constructor
        exact hphase
      · cases h
    · cases h
  | appended => exact step_appended h
  | rerequest =>
    simp only [step] at h
    split at h
    · rename_i hphase
      exact .rerequest hphase (requestFlush_cases h)
    · cases h
  | armFirst => exact step_armFirst h
  | armCooldown => exact step_armCooldown h
  | armSecond => exact step_armSecond h
  | peek => exact step_peek h
  | again => exact step_again h

end Cases

end Manager

/-- The machine of the buffers of one namespace. -/
def manager (W T : Type) [DecidableEq W] [DecidableEq T] (cfg : WriteBufferConfig) :
    Machine (Manager W T) (ManagerAction W T) := ⟨Manager.step cfg⟩

end OpenPuffer
