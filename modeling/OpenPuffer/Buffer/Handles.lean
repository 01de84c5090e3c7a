import OpenPuffer.Buffer.Manager
import OpenPuffer.Buffer.Wakeup

/-!
# Buffers and their handles

Calls, timers and flush tasks hold on to the buffer that they were given, while
`flush_namespace` looks it up in the map.  A buffer together with those who hold it is an
engine of one buffer (`Manager.view`), so a buffer in the map has whatever an engine has to
flush it (`Woken`).
-/

namespace OpenPuffer

open List Function FlushJob Manager

/-! ## Handles -/

def HeldCall.buf : HeldCall → Option Nat
  | .idle => none
  | .holding g _ => some g
  | .entered g _ => some g

/-- The buffers that a task holds. -/
def FlushJob.bufs {W : Type} : FlushJob W → List Nat
  | .looking home => home.toList
  | .flushing home g _ => g :: home.toList
  | .after h _ => [h]
  | .peeked g => [g]
  | .idle | .peeking => []

def FlushJob.target {W : Type} : FlushJob W → Option Nat
  | .flushing _ g _ => some g
  | _ => none

/-- The buffer that a call has put its waiter in. -/
def HeldCall.queuedIn : HeldCall → Option Nat
  | .entered g (.aborting _) | .entered g (.requesting _) | .entered g (.waiting _) => some g
  | _ => none

def FlushJob.answering {W : Type} : FlushJob W → List W
  | .flushing _ _ (.appending b) | .flushing _ _ (.recording b _) => b.waiters.map WriteWaiter.tx
  | _ => []

/-- Handles are those of buffers that were created.  A task that flushes for the buffer
in the map works on it. -/
structure HandlesKnown {W T : Type} (s : Manager W T) : Prop where
  entry : ∀ g, s.entry = some g → g < s.nextBuffer
  calls : ∀ w g, (s.calls w).buf = some g → g < s.nextBuffer
  tasks : ∀ t, ∀ g ∈ (s.tasks t).bufs, g < s.nextBuffer
  timers : ∀ g i deadline, (s.buffers g).timers.lookup i = some deadline → g < s.nextBuffer
  home : ∀ t h g phase, s.tasks t = .flushing (some h) g phase → s.entry = some h → g = h

variable {W T : Type}

theorem HandlesKnown.init : HandlesKnown (Manager.init : Manager W T) where
  entry := fun g h => by cases h
  calls := fun w g h => by cases h
  tasks := fun t g h => by cases h
  timers := fun g i deadline h => by cases h
  home := fun t h g phase ht => by cases ht

/-! ## What a step changes

The sections under a lock are made of a few changes.  Only a new request, a drop, a drain
and a release concern the waiters. -/

namespace Manager

variable [DecidableEq W] [DecidableEq T]

inductive Change (s : Manager W T) : Manager W T → Prop where
  | pass (log : List WalEntry) (now : Nat) : Change s { s with log, now }
  /-- A buffer keeps its rows and its waiters. -/
  | touch {k : Nat} {b : NamespaceBuffer W T} : k < s.nextBuffer →
      b.state.toPending = (s.buffers k).state.toPending →
      b.state.waiters = (s.buffers k).state.waiters → Change s (s.setBuffer k b)
  /-- A call goes on with its buffer. -/
  | call {w : W} {g : Nat} {c c' : WriteCall} : s.calls w = .entered g c →
      (HeldCall.entered g c').queuedIn = (HeldCall.entered g c).queuedIn →
      Change s (s.setCall w (.entered g c'))
  /-- A task goes on, with the calls that it has not answered. -/
  | task {t : T} {j : FlushJob W} : (∀ g ∈ j.bufs, g < s.nextBuffer) →
      (∀ h g phase, j = .flushing (some h) g phase → s.entry = some h → g = h) →
      (∀ g, j.target = some g → (s.tasks t).target = some g ∨ s.entry = some g) →
      (∀ w ∈ j.answering, w ∈ (s.tasks t).answering) →
      (∀ w ∈ (s.tasks t).answering, w ∈ j.answering ∨ s.answers w ≠ none) →
      Change s (s.setTask t j)
  | answer {t : T} {waiters : List (WriteWaiter W)}
      (result : WriteStats → Except String CommittedBatch) :
      (s.tasks t).answering = waiters.map WriteWaiter.tx → Change s (s.answer waiters result)
  | create : s.entry = none →
      Change s (setBuffer { s with entry := some s.nextBuffer, nextBuffer := s.nextBuffer + 1 }
        s.nextBuffer {})
  | hold {w : W} {g : Nat} (req : WriteRequest) : s.calls w = .idle → s.entry = some g →
      Change s (s.setCall w (.holding g req))
  | drain {t : T} {home : Option Nat} {k : Nat} : s.tasks t = .flushing home k .draining →
      Change s ((s.setBuffer k { s.buffers k with state := {} }).setTask t
        (.flushing home k (.appending ⟨(s.buffers k).state.toPending,
          (s.buffers k).state.waiters, []⟩)))
  | release {t : T} {home : Option Nat} {k : Nat}
      (result : WriteStats → Except String CommittedBatch) :
      s.tasks t = .flushing home k .releasing →
      Change s (answer (s.setBuffer k { s.buffers k with
        state := (s.buffers k).state.drainWaiters.1 }) (s.buffers k).state.drainWaiters.2 result)

variable {s s' : Manager W T} {t : T} {home : Option Nat} {g : Nat} {p : FlushPhase W}

abbrev Changes : Manager W T → Manager W T → Prop := Relation.ReflTransGen Change

/-- A task goes on without a buffer that it has found, and has nobody to answer. -/
theorem change_plain {j : FlushJob W} (hbufs : ∀ g ∈ j.bufs, g < s.nextBuffer)
    (htarget : j.target = none) (hout : j.answering = [])
    (hkept : ∀ w ∈ (s.tasks t).answering, s.answers w ≠ none) : Change s (s.setTask t j) := by
  refine .task hbufs ?_ ?_ ?_ fun w hw => .inr (hkept w hw)
  · rintro h g phase rfl
    cases htarget
  · rw [htarget]
    nofun
  · rw [hout]
    nofun

/-- A flush goes on with its buffer. -/
theorem change_phase (ht : s.tasks t = .flushing home g p) {q : FlushPhase W}
    (hknown : ∀ k ∈ g :: home.toList, k < s.nextBuffer)
    (hhome : ∀ h, home = some h → s.entry = some h → g = h)
    (hsame : (FlushJob.flushing home g q).answering = (FlushJob.flushing home g p).answering) :
    Change s (s.setTask t (.flushing home g q)) := by
  have hanswering : (s.tasks t).answering = (flushing home g q).answering := by
    rw [ht, hsame]
  refine .task hknown ?_ ?_ ?_ ?_
  · rintro h k phase ⟨⟩
    exact hhome h rfl
  · intro k hk
    rw [ht]
    exact .inl hk
  · rw [hanswering]
    exact fun w hw => hw
  · rw [hanswering]
    exact fun w hw => .inl hw

theorem changes_requested {spawn : T} (hs : s.Requested g spawn s') (hg : g < s.nextBuffer) :
    Changes s s' := by
  cases hs with
  | dropped => exact .refl
  | spawned _ hidle =>
    refine .head ?_ (.single (change_plain ?_ rfl rfl ?_))
    · exact .touch hg rfl rfl
    · exact forall_mem_singleton.mpr hg
    · show ∀ w ∈ (s.tasks spawn).answering, _
      rw [hidle]
      nofun

/-- A flush that has answered its calls is over. -/
theorem changes_finishFlush (hknown : ∀ k ∈ g :: home.toList, k < s.nextBuffer)
    (hkept : ∀ w ∈ (s.tasks t).answering, s.answers w ≠ none) (ok : Bool) :
    Changes s (s.finishFlush t home g ok) := by
  obtain ⟨hg, hhome⟩ := forall_mem_cons.mp hknown
  refine .head ?_ (.single (change_plain ?_ ?_ ?_ hkept))
  · exact .touch hg rfl rfl
  · cases home with
    | some h => exact hhome
    | none => cases ok <;> nofun
  · cases home <;> cases ok <;> rfl
  · cases home <;> cases ok <;> rfl

omit [DecidableEq T] in
theorem answers_mono (waiters : List (WriteWaiter W))
    (result : WriteStats → Except String CommittedBatch) {w : W} (h : s.answers w ≠ none) :
    (s.answer waiters result).answers w ≠ none := by
  rcases sendAnswers_cases waiters result s.answers w with ⟨wt, -, -, hsent⟩ | ⟨-, hsame⟩
  · exact ne_of_eq_of_ne hsent (Option.some_ne_none _)
  · exact ne_of_eq_of_ne hsame h

omit [DecidableEq T] in
theorem answers_of_mem {waiters : List (WriteWaiter W)}
    (result : WriteStats → Except String CommittedBatch) {w : W}
    (h : w ∈ waiters.map WriteWaiter.tx) : (s.answer waiters result).answers w ≠ none := by
  rcases sendAnswers_cases waiters result s.answers w with ⟨wt, -, -, hsent⟩ | ⟨hnot, -⟩
  · exact ne_of_eq_of_ne hsent (Option.some_ne_none _)
  · exact absurd h hnot

theorem changes_bufferFor {w : W} (req : WriteRequest) (hidle : s.calls w = .idle) :
    Changes s (s.bufferFor w req) := by
  rw [bufferFor]
  cases hentry : s.entry with
  | some k => exact .single (.hold _ hidle hentry)
  | none => exact .tail (.single (.create hentry)) (.hold _ hidle rfl)

section Actions

variable (hknown : HandlesKnown s)

include hknown

omit [DecidableEq W] [DecidableEq T] in
theorem call_lt {w : W} {c : WriteCall} (hcall : s.calls w = .entered g c) : g < s.nextBuffer :=
  hknown.calls w g (by rw [hcall]; rfl)

omit [DecidableEq W] [DecidableEq T] in
theorem flush_lt (ht : s.tasks t = .flushing home g p) :
    ∀ k ∈ g :: home.toList, k < s.nextBuffer :=
  fun k hk => hknown.tasks t k (by rw [ht]; exact hk)

omit [DecidableEq W] [DecidableEq T] in
theorem after_lt {phase : AfterPhase} (ht : s.tasks t = .after g phase) :
    ∀ k ∈ [g], k < s.nextBuffer :=
  fun k hk => hknown.tasks t k (by rw [ht]; exact hk)

omit [DecidableEq W] [DecidableEq T] in
theorem flush_home (ht : s.tasks t = .flushing home g p) :
    ∀ h, home = some h → s.entry = some h → g = h :=
  fun h heq => hknown.home t h g p (heq ▸ ht)

theorem changes_look (ht : s.tasks t = .looking home) : Changes s (s.look t home) := by
  have hhome : ∀ k ∈ home.toList, k < s.nextBuffer := fun k hk =>
    hknown.tasks t k (by rw [ht]; exact hk)
  have hidle : ∀ {P : W → Prop}, ∀ w ∈ (s.tasks t).answering, P w := by
    rw [ht]
    exact forall_mem_nil _
  rw [look]
  cases hentry : s.entry with
  | some k =>
    refine .single (.task ?_ ?_ ?_ (forall_mem_nil _) hidle)
    · exact forall_mem_cons.mpr ⟨hknown.entry k hentry, hhome⟩
    · rintro h _ _ ⟨⟩ hh
      exact Option.some.inj (hentry.symm.trans hh)
    · rintro _ ⟨⟩
      exact .inr hentry
  | none => cases home <;> exact .single (change_plain hhome rfl rfl hidle)

theorem changes_lock (ht : s.tasks t = .flushing home g .locking) :
    Changes s (s.lockBuffer t home g) := by
  have hlt := flush_lt hknown ht
  have hhome := flush_home hknown ht
  have hset : s.Change (s.setBuffer g { s.buffers g with flushLock := some t }) :=
    .touch (hlt g mem_cons_self) rfl rfl
  refine .head hset (.single ?_)
  refine change_phase (p := .locking) ?_ ?_ ?_ ?_
  · exact ht
  · exact hlt
  · exact hhome
  · split <;> rfl

theorem changes_cooled (ht : s.tasks t = .flushing home g .cooling) :
    Changes s (s.setTask t (.flushing home g .draining)) :=
  .single (change_phase ht (flush_lt hknown ht) (flush_home hknown ht) rfl)

theorem changes_drainBuffer (ht : s.tasks t = .flushing home g .draining) :
    Changes s (s.drainBuffer t home g) := by
  rw [drainBuffer, NamespaceBuffer.drain, BufferState.drain]
  by_cases hempty : (s.buffers g).state.isEmpty
  · rw [if_pos hempty]
    exact .single (change_phase ht (flush_lt hknown ht) (flush_home hknown ht) rfl)
  · rw [if_neg hempty]
    exact .single (.drain ht)

theorem changes_releaseWaiters (ht : s.tasks t = .flushing home g .releasing) :
    Changes s (s.releaseWaiters t home g) := by
  have hlt := flush_lt hknown ht
  refine .head (.release _ ht) (changes_finishFlush ?_ ?_ true)
  · exact hlt
  · show ∀ w ∈ (s.tasks t).answering, _
    rw [ht]
    exact forall_mem_nil _

theorem changes_committed {b : FlushBatch W} (ht : s.tasks t = .flushing home g (.appending b)) :
    Changes s (s.commitBatch t home g b) := by
  have hlt := flush_lt hknown ht
  have hhome := flush_home hknown ht
  refine .tail (.single (.pass (s.log ++ [b.pending.entry]) s.now)) ?_
  refine change_phase (p := .appending b) ?_ ?_ ?_ rfl
  · exact ht
  · exact hlt
  · exact hhome

theorem changes_failed {b : FlushBatch W} (msg : String)
    (ht : s.tasks t = .flushing home g (.appending b)) :
    Changes s ((s.answer b.waiters fun _ => .error msg).finishFlush t home g false) := by
  have hlt := flush_lt hknown ht
  refine .head ?_ (changes_finishFlush ?_ ?_ false)
  · exact .answer (t := t) _ (by rw [ht]; rfl)
  · exact hlt
  · show ∀ w ∈ (s.tasks t).answering, _
    rw [ht]
    exact fun w hw => answers_of_mem _ hw

theorem changes_record {b : FlushBatch W} {seq : Nat}
    (ht : s.tasks t = .flushing home g (.recording b seq)) :
    Changes s (s.recordCommit t home g b seq) := by
  have hlt := flush_lt hknown ht
  have hset : s.Change (s.setBuffer g { s.buffers g with lastCommittedAt := some s.now }) :=
    .touch (hlt g mem_cons_self) rfl rfl
  refine .head hset (.head ?_ (changes_finishFlush ?_ ?_ true))
  · exact .answer (t := t) _ (by rw [show (s.setBuffer g _).tasks t = _ from ht]; rfl)
  · exact hlt
  · show ∀ w ∈ (s.tasks t).answering, _
    rw [ht]
    exact fun w hw => answers_of_mem _ hw

/-- A task goes on after its flush, or ends, and may have changed the flags and timers of its
home. -/
theorem changes_after {phase : AfterPhase} (ht : s.tasks t = .after g phase) {j : FlushJob W}
    (hj : j = .idle ∨ ∃ q, j = .after g q) {b : NamespaceBuffer W T}
    (hrows : b.state.toPending = (s.buffers g).state.toPending)
    (hwaiters : b.state.waiters = (s.buffers g).state.waiters) :
    Changes s ((s.setBuffer g b).setTask t j) := by
  have hanswering : ∀ w ∈ ((s.setBuffer g b).tasks t).answering,
      (s.setBuffer g b).answers w ≠ none := by
    show ∀ w ∈ (s.tasks t).answering, _
    rw [ht]
    exact forall_mem_nil _
  have hlt := after_lt hknown ht
  refine .head (.touch (hlt g mem_cons_self) hrows hwaiters) (.single ?_)
  rcases hj with rfl | ⟨q, rfl⟩
  · exact change_plain (forall_mem_nil _) rfl rfl hanswering
  · exact change_plain hlt rfl rfl hanswering

theorem changes_peeks (ht : s.tasks t = .peeking ∨ ∃ g, s.tasks t = .peeked g) {j : FlushJob W}
    (hj : j = .idle ∨ j = .looking none ∨ ∃ g, s.entry = some g ∧ j = .peeked g) :
    Changes s (s.setTask t j) := by
  have hidle : ∀ w ∈ (s.tasks t).answering, s.answers w ≠ none := by
    rcases ht with ht | ⟨k, ht⟩ <;> rw [ht] <;> exact forall_mem_nil _
  rcases hj with rfl | rfl | ⟨k, hentry, rfl⟩
  · exact .single (change_plain (forall_mem_nil _) rfl rfl hidle)
  · exact .single (change_plain (forall_mem_nil _) rfl rfl hidle)
  · refine .single (change_plain ?_ rfl rfl hidle)
    exact forall_mem_singleton.mpr (hknown.entry k hentry)

end Actions

/-- Every step but a request and a drop is made of changes. -/
theorem step_changes {cfg : WriteBufferConfig} {a : ManagerAction W T} (hknown : HandlesKnown s)
    (hstep : (manager W T cfg).step s a = some s') :
    (∃ w k req, a = .write w ∧ s.calls w = .holding k req ∧ s' = s.enqueue cfg w k req) ∨
      (a = .dropNamespace ∧ s' = { s with entry := none }) ∨ Changes s s' := by
  have hafter : ∀ {t g phase j}, s.tasks t = .after g phase →
      j = .idle ∨ (∃ q, j = .after g q) → Changes s (s.setTask t j) := by
    intro t g phase j ht hj
    have hsame := changes_after hknown ht hj (b := s.buffers g) rfl rfl
    rwa [setBuffer, update_eq_self] at hsame
  cases step_cases hstep with
  | @write w k req hcall => exact .inl ⟨w, k, req, rfl, hcall, rfl⟩
  | dropNamespace => exact .inr (.inl ⟨rfl, rfl⟩)
  | tick | otherCommit => exact .inr (.inr (.single (.pass _ _)))
  | bufferFor hidle => exact .inr (.inr (changes_bufferFor _ hidle))
  | abort hcall =>
    refine .inr (.inr (.head ?_ (.single (.call (s := s.setBuffer _ _) hcall rfl))))
    exact .touch (call_lt hknown hcall) rfl rfl
  | request hcall hs =>
    have hlt := call_lt hknown hcall
    refine .inr (.inr (.head ?_ (changes_requested hs hlt)))
    exact .call hcall rfl
  | fire htimer hs =>
    have hg := hknown.timers _ _ _ htimer
    refine .inr (.inr (.head ?_ (changes_requested hs hg)))
    exact .touch hg rfl rfl
  | flushAll ht =>
    refine .inr (.inr (.single (change_plain (forall_mem_nil _) rfl rfl ?_)))
    rw [ht]
    exact forall_mem_nil _
  | look ht => exact .inr (.inr (changes_look hknown ht))
  | lock ht => exact .inr (.inr (changes_lock hknown ht))
  | cooled ht => exact .inr (.inr (changes_cooled hknown ht))
  | drain ht => exact .inr (.inr (changes_drainBuffer hknown ht))
  | release ht => exact .inr (.inr (changes_releaseWaiters hknown ht))
  | committed ht => exact .inr (.inr (changes_committed hknown ht))
  | failed ht => exact .inr (.inr (changes_failed hknown _ ht))
  | record ht => exact .inr (.inr (changes_record hknown ht))
  | store ht => exact .inr (.inr (changes_after hknown ht (.inr ⟨_, rfl⟩) rfl rfl))
  | recheck ht =>
    refine .inr (.inr (hafter ht ?_))
    rw [NamespaceBuffer.recheck]
    split
    · split <;> exact .inr ⟨_, rfl⟩
    · exact .inl rfl
  | rerequest ht hs =>
    have hlt := after_lt hknown ht
    exact .inr (.inr ((hafter ht (.inl rfl)).trans (changes_requested hs (hlt _ mem_cons_self))))
  | armFirstReturn ht | armCooldownReturn ht | armSecondReturn ht =>
    exact .inr (.inr (hafter ht (.inl rfl)))
  | armFirst ht | armCooldown ht => exact .inr (.inr (hafter ht (.inr ⟨_, rfl⟩)))
  | armSecond ht => exact .inr (.inr (changes_after hknown ht (.inl rfl) rfl rfl))
  | peeks ht hj => exact .inr (.inr (changes_peeks hknown ht hj))

end Manager

namespace HandlesKnown

variable {s s' : Manager W T} {g : Nat} {t : T}

theorem setBuffer (h : HandlesKnown s) (hg : g < s.nextBuffer) (b : NamespaceBuffer W T) :
    HandlesKnown (s.setBuffer g b) where
  entry := h.entry
  calls := h.calls
  tasks := h.tasks
  timers := (forall_update_iff s.buffers fun k b => ∀ i deadline,
    b.timers.lookup i = some deadline → k < s.nextBuffer).mpr
      ⟨fun _ _ _ => hg, fun k _ => h.timers k⟩
  home := h.home

theorem setCall [DecidableEq W] (h : HandlesKnown s) {w : W} {c : HeldCall}
    (hc : ∀ g, c.buf = some g → g < s.nextBuffer) : HandlesKnown (s.setCall w c) where
  entry := h.entry
  calls := (forall_update_iff s.calls fun _ c => ∀ g, c.buf = some g →
    g < s.nextBuffer).mpr ⟨hc, fun v _ => h.calls v⟩
  tasks := h.tasks
  timers := h.timers
  home := h.home

theorem setTask [DecidableEq T] (h : HandlesKnown s) {j : FlushJob W}
    (hj : ∀ g ∈ j.bufs, g < s.nextBuffer)
    (hhome : ∀ k g phase, j = .flushing (some k) g phase → s.entry = some k → g = k) :
    HandlesKnown (s.setTask t j) where
  entry := h.entry
  calls := h.calls
  tasks := (forall_update_iff s.tasks fun _ j => ∀ g ∈ j.bufs,
    g < s.nextBuffer).mpr ⟨hj, fun r _ => h.tasks r⟩
  timers := h.timers
  home := (forall_update_iff s.tasks fun _ j => ∀ k g phase,
    j = .flushing (some k) g phase → s.entry = some k → g = k).mpr ⟨hhome, fun r _ => h.home r⟩

theorem create (h : HandlesKnown s) :
    HandlesKnown { s with entry := some s.nextBuffer, nextBuffer := s.nextBuffer + 1 } where
  entry := by rintro _ ⟨⟩; exact Nat.lt_succ_self _
  calls := fun w g hg => Nat.lt_succ_of_lt (h.calls w g hg)
  tasks := fun t g hg => Nat.lt_succ_of_lt (h.tasks t g hg)
  timers := fun g i d hg => Nat.lt_succ_of_lt (h.timers g i d hg)
  home := by
    rintro t k g phase ht ⟨⟩
    refine absurd (h.tasks t _ ?_) (Nat.lt_irrefl _)
    rw [ht]
    exact mem_cons_of_mem _ mem_cons_self

variable [DecidableEq W] [DecidableEq T]

theorem change (h : HandlesKnown s) (hc : s.Change s') : HandlesKnown s' := by
  cases hc with
  | pass | answer => exact ⟨h.entry, h.calls, h.tasks, h.timers, h.home⟩
  | touch hk => exact h.setBuffer hk _
  | call hcall =>
    refine h.setCall ?_
    rintro _ ⟨⟩
    exact h.calls _ _ (by rw [hcall]; rfl)
  | task hj hhome => exact h.setTask hj hhome
  | create => exact h.create.setBuffer (Nat.lt_succ_self _) _
  | hold _ _ hentry =>
    refine h.setCall ?_
    rintro _ ⟨⟩
    exact h.entry _ hentry
  | @drain t home k ht =>
    have hbufs : ∀ g ∈ k :: home.toList, g < s.nextBuffer := fun g hg =>
      h.tasks t g (by rw [ht]; exact hg)
    refine (h.setBuffer (hbufs k mem_cons_self) _).setTask hbufs ?_
    rintro j g phase ⟨⟩
    exact h.home t j k _ ht
  | @release t home k _ ht =>
    have hk : k < s.nextBuffer := h.tasks t k (by rw [ht]; exact mem_cons_self)
    have hset := h.setBuffer hk { s.buffers k with state := (s.buffers k).state.drainWaiters.1 }
    exact ⟨hset.entry, hset.calls, hset.tasks, hset.timers, hset.home⟩

theorem step {cfg : WriteBufferConfig} {a : ManagerAction W T} (h : HandlesKnown s)
    (hstep : (manager W T cfg).step s a = some s') : HandlesKnown s' := by
  rcases step_changes h hstep with ⟨w, k, req, -, hcall, rfl⟩ | ⟨-, rfl⟩ | hs
  · have hk : k < s.nextBuffer := h.calls w k (by rw [hcall]; rfl)
    refine (h.setBuffer hk _).setCall ?_
    rintro _ ⟨⟩
    exact hk
  · exact ⟨nofun, h.calls, h.tasks, h.timers, nofun⟩
  · clear hstep
    induction hs with
    | refl => exact h
    | tail _ hc ih => exact ih.change hc

theorem run {cfg : WriteBufferConfig} {as : List (ManagerAction W T)} (h : HandlesKnown s)
    (hrun : (manager W T cfg).run s as = some s') : HandlesKnown s' :=
  Machine.run_keeps (fun _ _ _ hknown hs => hknown.step hs) h hrun

end HandlesKnown

/-! ## One buffer as a machine of its own -/

/-- A flush as the buffer sees it.  A *guest* was not spawned for this buffer, and is
to it what `flush_all` is. -/
def FlushPhase.task {W : Type} (guest : Bool) : FlushPhase W → FlushTask W
  | .locking => .locking guest
  | .cooling => if guest then .draining true else .cooling
  | .draining => .draining guest
  | .releasing => .releasing guest
  | .appending batch => .appending guest batch
  | .recording batch seq => .recording guest batch seq

def AfterPhase.task {W : Type} : AfterPhase → FlushTask W
  | .storing => .storing
  | .rechecking => .rechecking false
  | .requesting => .requesting
  | .armFirst => .armFirst
  | .armCooldown => .armCooldown
  | .armSecond delay => .armSecond delay

/-- What a task does with a buffer. -/
def FlushJob.seenBy {W : Type} (g : Nat) : FlushJob W → FlushTask W
  | .looking home => if home = some g then .locking false else .idle
  | .flushing home buf phase => if buf = g then phase.task (home ≠ some g) else .idle
  | .after home phase => if home = g then phase.task else .idle
  | .idle | .peeking | .peeked _ => .idle

/-- What a call does with a buffer. -/
def HeldCall.seenBy (g : Nat) : HeldCall → WriteCall
  | .entered buf call => if buf = g then call else .idle
  | .idle | .holding _ _ => .idle

@[simp] theorem HeldCall.seenBy_entered_self (g : Nat) (call : WriteCall) :
    (HeldCall.entered g call).seenBy g = call := if_pos rfl

theorem HeldCall.seenBy_entered_of_ne {k g : Nat} (h : g ≠ k) (call : WriteCall) :
    (HeldCall.entered k call).seenBy g = .idle := if_neg fun heq => h heq.symm

theorem FlushJob.seenBy_after_self (g : Nat) (phase : AfterPhase) :
    (FlushJob.after g phase : FlushJob W).seenBy g = phase.task := if_pos rfl

theorem FlushJob.seenBy_after_of_ne {k g : Nat} (h : g ≠ k) (phase : AfterPhase) :
    (FlushJob.after k phase : FlushJob W).seenBy g = .idle := if_neg fun heq => h heq.symm

theorem FlushJob.seenBy_flushing_self (g : Nat) (home : Option Nat) (phase : FlushPhase W) :
    (FlushJob.flushing home g phase).seenBy g = phase.task (home ≠ some g) := if_pos rfl

theorem FlushJob.seenBy_flushing_of_ne {k g : Nat} (h : g ≠ k) (home : Option Nat)
    (phase : FlushPhase W) : (FlushJob.flushing home k phase).seenBy g = .idle :=
  if_neg fun heq => h heq.symm

/-- After its flush a task is done with every buffer but its home. -/
theorem FlushJob.seenBy_afterFlush {g : Nat} {home : Option Nat} (h : home ≠ some g) (ok : Bool) :
    (FlushJob.afterFlush home ok : FlushJob W).seenBy g = .idle := by
  cases home with
  | none => cases ok <;> rfl
  | some k => exact seenBy_after_of_ne (fun heq => h (congrArg some heq.symm)) _

/-- Nobody relies on a guest. -/
theorem FlushPhase.keeps_guest (phase : FlushPhase W) (q : FlushTask W) :
    (phase.task true).Keeps q := by
  cases phase <;> exact ⟨nofun, nofun, nofun⟩

namespace Manager

/-- A buffer with what is done to it. -/
def view (s : Manager W T) (g : Nat) : Engine W T where
  toNamespaceBuffer := s.buffers g
  calls := fun w => (s.calls w).seenBy g
  answers := s.answers
  tasks := fun t => (s.tasks t).seenBy g
  log := s.log
  now := s.now
  queued := []
  appends := []

theorem view_setTask [DecidableEq T] (s : Manager W T) (t : T) (j : FlushJob W) (g : Nat) :
    (s.setTask t j).view g = (s.view g).setTask t (j.seenBy g) := by
  have htasks : (fun r => ((s.setTask t j).tasks r).seenBy g)
      = update (fun r => (s.tasks r).seenBy g) t (j.seenBy g) := by
    funext r
    by_cases hr : r = t
    · subst hr
      simp [setTask]
    · simp [setTask, hr]
  simp only [view, Engine.setTask, ← htasks]
  rfl

variable {g : Nat} {s s' : Manager W T}

section

variable (s : Manager W T)

theorem view_setTask_same [DecidableEq T] {t : T} {j : FlushJob W}
    (h : j.seenBy g = (s.tasks t).seenBy g) : (s.setTask t j).view g = s.view g := by
  rw [view_setTask, h, Engine.setTask]
  congr 1
  exact update_eq_self t _

theorem view_setCall [DecidableEq W] (w : W) (c : HeldCall) (g : Nat) :
    (s.setCall w c).view g = (s.view g).setCall w (c.seenBy g) := by
  have hcalls : (fun v => ((s.setCall w c).calls v).seenBy g)
      = update (fun v => (s.calls v).seenBy g) w (c.seenBy g) := by
    funext v
    by_cases hv : v = w
    · subst hv
      simp [setCall]
    · simp [setCall, hv]
  simp only [view, Engine.setCall, ← hcalls]
  rfl

theorem view_setCall_same [DecidableEq W] {w : W} {c : HeldCall}
    (h : c.seenBy g = (s.calls w).seenBy g) : (s.setCall w c).view g = s.view g := by
  rw [view_setCall, h, Engine.setCall]
  congr 1
  exact update_eq_self w _

theorem view_setBuffer_of_ne {k : Nat} (h : g ≠ k) (b : NamespaceBuffer W T) :
    (s.setBuffer k b).view g = s.view g := by
  simp [view, setBuffer, h]

theorem view_setBuffer_self (g : Nat) (b : NamespaceBuffer W T) :
    (s.setBuffer g b).view g = { s.view g with toNamespaceBuffer := b } := by
  simp [view, setBuffer]

end

/-- A flush request for a buffer, as the buffer sees it. -/
theorem view_requested_self [DecidableEq T] {spawn : T} (hs : s.Requested g spawn s') :
    (s.view g).Requested spawn (s'.view g) := by
  cases hs with
  | dropped hon => exact .dropped hon
  | spawned hoff hidle =>
    have hseen : (s.view g).tasks spawn = .idle := by
      show (s.tasks spawn).seenBy g = _
      rw [hidle]
      rfl
    have hlooking : (looking (some g) : FlushJob W).seenBy g = .locking false :=
      if_pos rfl
    rw [view_setTask, view_setBuffer_self, hlooking]
    exact .spawned hoff hseen

theorem view_requested_of_ne [DecidableEq T] {k : Nat} (h : g ≠ k) {spawn : T}
    (hs : s.Requested k spawn s') : s'.view g = s.view g := by
  cases hs with
  | dropped => rfl
  | spawned hoff hidle =>
    rw [view_setTask_same, view_setBuffer_of_ne s h]
    show _ = (s.tasks spawn).seenBy g
    rw [hidle]
    exact if_neg fun heq => h (Option.some.inj heq).symm

theorem entry_requested [DecidableEq T] {k : Nat} {spawn : T} (hs : s.Requested k spawn s') :
    s'.entry = s.entry := by
  cases hs <;> rfl

end Manager

/-! ## Who drains the buffer in the map -/

/-- The buffer in the map is not left behind. -/
def Woken (s : Manager W T) : Prop := ∀ g, s.entry = some g → WakeInv (s.view g)

namespace Woken

theorem init : Woken (Manager.init : Manager W T) := fun g hg => by cases hg

variable {s s₁ s' : Manager W T} {k : Nat} {t : T}

theorem of_buffer (k : Nat) (h : Woken s) (hentry : s'.entry = s.entry)
    (hother : ∀ g, g ≠ k → s.entry = some g → s'.view g = s.view g)
    (hself : WakeInv (s.view k) → WakeInv (s'.view k)) : Woken s' := by
  intro g hg
  rw [hentry] at hg
  by_cases hgk : g = k
  · subst hgk
    exact hself (h g hg)
  · rw [hother g hgk hg]
    exact h g hg

section

variable (h : Woken s)

include h

theorem setBuffer {b : NamespaceBuffer W T}
    (hself : WakeInv (s.view k) → WakeInv { s.view k with toNamespaceBuffer := b }) :
    Woken (s.setBuffer k b) := by
  refine h.of_buffer k rfl (fun g hgk _ => view_setBuffer_of_ne s hgk b) ?_
  rw [view_setBuffer_self]
  exact hself

theorem answer [DecidableEq W] (waiters : List (WriteWaiter W))
    (result : WriteStats → Except String CommittedBatch) : Woken (s.answer waiters result) :=
  fun g hg => (h g hg).congr rfl rfl rfl rfl rfl

theorem setCall [DecidableEq W] {w : W} {c : HeldCall}
    (hother : ∀ g, g ≠ k → c.seenBy g = (s.calls w).seenBy g)
    (hself : WakeInv (s.view k) → WakeInv ((s.view k).setCall w (c.seenBy k))) :
    Woken (s.setCall w c) := by
  refine h.of_buffer k rfl (fun g hgk _ => view_setCall_same s (hother g hgk)) ?_
  rw [view_setCall]
  exact hself

theorem setTask [DecidableEq T] {j : FlushJob W}
    (hother : ∀ g, g ≠ k → s.entry = some g → j.seenBy g = (s.tasks t).seenBy g)
    (hself : WakeInv (s.view k) → WakeInv ((s.view k).setTask t (j.seenBy k))) :
    Woken (s.setTask t j) := by
  refine h.of_buffer k rfl (fun g hgk hg => view_setTask_same s (hother g hgk hg)) ?_
  rw [view_setTask]
  exact hself

/-- A task that has nothing to do with the buffer in the map moves on. -/
theorem setTask_same [DecidableEq T] {j : FlushJob W}
    (hj : ∀ g, j.seenBy g = (s.tasks t).seenBy g) : Woken (s.setTask t j) := by
  intro g hg
  rw [view_setTask_same s (hj g)]
  exact h g hg

theorem requested [DecidableEq T] {spawn : T} (hs : s₁.Requested k spawn s')
    (hentry : s₁.entry = s.entry) (hother : ∀ g, g ≠ k → s₁.view g = s.view g)
    (hself : WakeInv (s.view k) → (s₁.view k).Requested spawn (s'.view k) → WakeInv (s'.view k)) :
    Woken s' := by
  refine h.of_buffer k ((entry_requested hs).trans hentry) ?_ ?_
  · exact fun g hgk _ => (view_requested_of_ne hgk hs).trans (hother g hgk)
  · exact fun hwake => hself hwake (view_requested_self hs)

theorem bufferFor [DecidableEq W] [DecidableEq T] {w : W} (req : WriteRequest)
    (hidle : s.calls w = .idle) : Woken (s.bufferFor w req) := by
  rw [Manager.bufferFor]
  cases hentry : s.entry with
  | some k =>
    intro g hg
    rw [Manager.view_setCall_same]
    · exact h g hg
    · rw [hidle]
      rfl
  | none =>
    rintro _ ⟨⟩
    rw [Manager.view_setCall, Manager.view_setBuffer_self]
    exact WakeInv.of_empty rfl rfl

theorem enqueue [DecidableEq W] [DecidableEq T] (cfg : WriteBufferConfig) {w : W}
    {req : WriteRequest} (hcall : s.calls w = .holding k req) : Woken (s.enqueue cfg w k req) := by
  have hseen : ∀ g, (s.calls w).seenBy g = .idle := fun g => by rw [hcall]; rfl
  refine h.of_buffer k rfl (fun g hgk _ => ?_) fun hwake => ?_
  · rw [Manager.enqueue, Manager.view_setCall_same, Manager.view_setBuffer_of_ne s hgk]
    rw [HeldCall.seenBy_entered_of_ne hgk]
    exact (hseen g).symm
  · rw [Manager.enqueue, Manager.view_setCall, Manager.view_setBuffer_self,
      HeldCall.seenBy_entered_self]
    exact (hwake.enqueue cfg req (hseen k)).congr rfl rfl rfl rfl rfl

end

variable [DecidableEq T]

theorem look [DecidableEq W] (h : Woken s) {home : Option Nat}
    (ht : s.tasks t = .looking home) : Woken (s.look t home) := by
  rw [Manager.look]
  cases hentry : s.entry with
  | none => exact fun g hg => absurd (hentry.symm.trans hg) (by simp)
  | some k =>
    refine h.setTask (k := k) ?_ fun hwake => ?_
    · exact fun g hgk hg => absurd (Option.some.inj (hg.symm.trans hentry)) hgk
    have hseen : (s.view k).tasks t = if home = some k then .locking false else .idle :=
      congrArg (FlushJob.seenBy k) ht
    rw [FlushJob.seenBy_flushing_self]
    by_cases hhome : home = some k
    · rw [decide_eq_false (not_not.mpr hhome)]
      exact hwake.setTask_keeps (hseen.trans (if_pos hhome)) ⟨id, id, id⟩
    · exact hwake.setTask_keeps (hseen.trans (if_neg hhome)) ⟨nofun, nofun, nofun⟩

/-! ### Inside `flush_namespace` -/

section Flush

variable {home : Option Nat} {p : FlushPhase W}

omit [DecidableEq T] in
theorem seen_of_flushing (ht : s.tasks t = .flushing home k p) :
    (s.view k).tasks t = p.task (home ≠ some k) :=
  (congrArg (seenBy k) ht).trans (seenBy_flushing_self k home p)

/-- A flush goes on with its buffer. -/
theorem setPhase (h : Woken s) (ht : s.tasks t = .flushing home k p) {q : FlushPhase W}
    (hself : ∀ guest, (s.view k).tasks t = p.task guest → WakeInv (s.view k) →
      WakeInv ((s.view k).setTask t (q.task guest))) :
    Woken (s.setTask t (.flushing home k q)) := by
  refine h.setTask (k := k) (fun g hgk _ => ?_) fun hwake => ?_
  · rw [ht, seenBy_flushing_of_ne hgk, seenBy_flushing_of_ne hgk]
  · rw [seenBy_flushing_self]
    exact hself _ (seen_of_flushing ht) hwake

theorem setPhase_keeps (h : Woken s) (ht : s.tasks t = .flushing home k p) {q : FlushPhase W}
    (hkeeps : (p.task false).Keeps (q.task false)) : Woken (s.setTask t (.flushing home k q)) := by
  refine h.setPhase ht fun guest hseen hwake => hwake.setTask_keeps hseen ?_
  cases guest with
  | true => exact p.keeps_guest _
  | false => exact hkeeps

theorem drainBuffer [DecidableEq W] (h : Woken s) (ht : s.tasks t = .flushing home k .draining) :
    Woken (s.drainBuffer t home k) := by
  rw [Manager.drainBuffer, NamespaceBuffer.drain, BufferState.drain]
  by_cases hempty : (s.buffers k).state.isEmpty
  · rw [if_pos hempty]
    exact h.setPhase_keeps ht ⟨id, id, id⟩
  · rw [if_neg hempty]
    have hset : Woken (s.setBuffer k { s.buffers k with state := {} }) :=
      h.setBuffer fun hwake => ⟨hwake.running, fun _ h => (by cases h), fun h => by cases h⟩
    refine hset.setPhase ht fun guest hseen hwake => ?_
    rw [Manager.view_setBuffer_self] at hseen hwake ⊢
    refine hwake.setTask hseen (.inr ?_) (.inl rfl) (.inl rfl)
    cases guest <;> exact id

/-- A flush is over.  A guest leaves the buffer at once. -/
theorem finishFlush (h : Woken s) (hhome : ∀ g, home = some g → s.entry = some g → k = g)
    (ht : s.tasks t = .flushing home k p) {ok : Bool}
    (htake : (s.buffers k).state.timer = none ∨ (p.task false).beforeTake = false) :
    Woken (s.finishFlush t home k ok) := by
  have hset : Woken (s.setBuffer k { s.buffers k with flushLock := none }) :=
    h.setBuffer fun hwake => hwake.congr rfl rfl rfl rfl rfl
  refine hset.setTask (k := k) (fun g hgk hg => ?_) fun hwake => ?_
  · show _ = (s.tasks t).seenBy g
    rw [seenBy_afterFlush fun heq => hgk (hhome g heq hg).symm, ht,
      seenBy_flushing_of_ne hgk]
  have hseen := seen_of_flushing ht
  rw [view_setBuffer_self] at hwake ⊢
  by_cases heq : home = some k
  · rw [decide_eq_false (not_not.mpr heq)] at hseen
    have hstoring : (afterFlush (some k) ok : FlushJob W).seenBy k = .storing := if_pos rfl
    rw [heq, hstoring]
    refine hwake.setTask hseen (.inr fun _ => rfl) ?_ (.inr (.inr fun _ => rfl))
    exact htake.imp_right fun hno hyes => absurd (hno.symm.trans hyes) Bool.false_ne_true
  · rw [decide_eq_true heq] at hseen
    exact hwake.setTask_keeps hseen (p.keeps_guest _)

end Flush

/-! ### After a flush -/

section After

variable {p : AfterPhase}

omit [DecidableEq T] in
theorem seen_of_after (ht : s.tasks t = .after k p) : (s.view k).tasks t = p.task :=
  (congrArg (seenBy k) ht).trans (seenBy_after_self k p)

/-- A task goes on with its home. -/
theorem setAfter (h : Woken s) (ht : s.tasks t = .after k p) {q : AfterPhase}
    (hself : (s.view k).tasks t = p.task → WakeInv (s.view k) →
      WakeInv ((s.view k).setTask t q.task)) : Woken (s.setTask t (.after k q)) := by
  refine h.setTask (k := k) (fun g hgk _ => ?_) fun hwake => ?_
  · rw [ht, seenBy_after_of_ne hgk, seenBy_after_of_ne hgk]
  · rw [seenBy_after_self]
    exact hself (seen_of_after ht) hwake

theorem leave (h : Woken s) (ht : s.tasks t = .after k p)
    (hself : (s.view k).tasks t = p.task → WakeInv (s.view k) →
      WakeInv ((s.view k).setTask t .idle)) : Woken (s.setTask t .idle) := by
  refine h.setTask (k := k) (fun g hgk _ => ?_) fun hwake => hself (seen_of_after ht) hwake
  rw [ht, seenBy_after_of_ne hgk]
  rfl

end After

end Woken

end OpenPuffer
