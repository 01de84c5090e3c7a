import OpenPuffer.Buffer.Acknowledge
import OpenPuffer.Buffer.Handles

/-!
# Dropped buffers

`drop_namespace` takes the buffer out of the map and asks nobody.  A call that waits in it,
or is about to, is then waiting for a flush of a buffer that `flush_namespace` does not find:
the timer fires, the task finds another buffer or none, and when it is over it sees the rows
and asks for the next flush, which does not find them either (`Stranded.run`).  `Orderly` says
which runs lose nobody.
-/

namespace OpenPuffer

open Function Manager HeldCall BufferState WriteWaiter

/-! ## Runs that lose nobody -/

/-- The buffer that a call has looked up and not queued in yet. -/
def HeldCall.heldFor : HeldCall → Option Nat
  | .holding g _ => some g
  | _ => none

/-- A queued request leaves no waiter with nothing to flush: there are rows or a metric, or
the buffer or the request has something else and their schema patches can be merged. -/
def BufferState.LeavesWork {W : Type} (st : BufferState W) (req : WriteRequest) : Prop :=
  0 < (st.extend req).ops ∨ st.distanceMetric.isSome ∨
    (st.schemaPatch.isSome ∨ req.schemaPatch.isSome ∨ req.distanceMetric.isSome) ∧
      ∀ existing ∈ st.schemaPatch, ∀ new ∈ req.schemaPatch,
        (mergeSchema existing new).isOk ∨ st.waiters = []

instance {W : Type} [DecidableEq W] (st : BufferState W) (req : WriteRequest) :
    Decidable (st.LeavesWork req) :=
  inferInstanceAs (Decidable (_ ∨ _ ∨ _ ∧ ∀ existing ∈ st.schemaPatch, _))

theorem BufferState.LeavesWork.not_isEmpty {W : Type} {st st' : BufferState W} {req : WriteRequest}
    (h : st.LeavesWork req) {cfg : WriteBufferConfig} {w : W} {r : Except String WriteNext}
    (hres : st.enqueue cfg w req = (st', r)) (hwaiters : st'.waiters ≠ []) :
    st'.isEmpty = false := by
  refine Bool.eq_false_iff.mpr fun hempty => ?_
  have hnone : st'.toPending = {} := Pending.isEmpty_iff.mp hempty
  have hops := Pending.ops_add st.toPending req
  simp only [enqueue] at hres
  split at hres
  · rename_i pending msg hadd
    cases hres
    obtain rfl : pending = {} := hnone
    obtain ⟨hp, existing, new, hslot, hnew, hmerge⟩ := Pending.add_error hadd
    rw [hadd] at hops
    rcases h with hrows | hsome | ⟨-, hmerges⟩
    · exact Nat.ne_of_gt hrows hops.symm
    · rw [← show none = st.distanceMetric from congrArg Pending.distanceMetric hp] at hsome
      cases hsome
    · rcases hmerges existing hslot new hnew with hok | hnobody
      · rw [hmerge] at hok
        cases hok
      · exact hwaiters hnobody
  · rename_i pending hadd
    cases hres
    obtain rfl : pending = {} := hnone
    obtain ⟨hreq, hst⟩ := Option.or_eq_none_iff.mp (Pending.distanceMetric_of_add hadd).symm
    have hpatch := Pending.schemaPatch_of_add hadd
    rw [hadd] at hops
    rcases h with hrows | hsome | ⟨hsome, -⟩
    · exact Nat.ne_of_gt hrows hops.symm
    · rw [hst] at hsome
      cases hsome
    · simp_all
namespace Manager

variable {W T : Type}

/-- A call that has looked its buffer up leaves work when it queues its request. -/
def LeavesWork (s : Manager W T) : HeldCall → Prop
  | .holding g req => (s.buffers g).state.LeavesWork req
  | _ => True

instance [DecidableEq W] (s : Manager W T) (c : HeldCall) : Decidable (s.LeavesWork c) :=
  match c with
  | .holding g req => inferInstanceAs (Decidable ((s.buffers g).state.LeavesWork req))
  | .idle | .entered _ _ => isTrue trivial

/-- The namespace is dropped while nobody waits in its buffer or is about to, writes leave
something to flush, timers do not fire while a flush of their buffer is past its drain, and
no `try_lock` fails. -/
def Orderly (s : Manager W T) : ManagerAction W T → Prop
  | .dropNamespace => ∀ g ∈ s.entry,
      (s.buffers g).state.waiters = [] ∧ ∀ w, (s.calls w).heldFor ≠ some g
  | .write w => s.LeavesWork (s.calls w)
  | .fire g i spawn => (s.view g).Punctual (.fire i spawn)
  | .armFirst _ locked | .armCooldown _ locked | .armSecond _ locked => locked = false
  | _ => True

instance [DecidableEq W] [Fintype W] [Fintype T] (s : Manager W T) (a : ManagerAction W T) :
    Decidable (s.Orderly a) :=
  match a with
  | .dropNamespace => inferInstanceAs (Decidable (∀ g ∈ s.entry, _ ∧ ∀ _, _))
  | .write w => inferInstanceAs (Decidable (s.LeavesWork (s.calls w)))
  | .fire g i spawn => inferInstanceAs (Decidable ((s.view g).Punctual (.fire i spawn)))
  | .armFirst _ _ | .armCooldown _ _ | .armSecond _ _ => inferInstanceAs (Decidable (_ = _))
  | .tick _ | .otherCommit _ | .bufferFor _ _ | .abort _ | .request _ _ | .flushAll _ | .look _
  | .lock _ | .cooled _ | .drain _ | .release _ | .appended _ _ | .record _ | .store _
  | .recheck _ | .rerequest _ _ | .peek _ | .again _ => isTrue trivial

end Manager

/-! ## The buffer in the map along a run -/

namespace Woken

variable {W T : Type} {s s' : Manager W T} {w : W} {t : T} {k : Nat} {home : Option Nat}

theorem abort [DecidableEq W] (h : Woken s) {req : WriteRequest}
    (hcall : s.calls w = .entered k (.aborting req)) :
    Woken (s.abortTimer w k req) := by
  have hseen : (s.view k).calls w = .aborting req :=
    (congrArg (HeldCall.seenBy k) hcall).trans (HeldCall.seenBy_entered_self k _)
  have hset : Woken (s.setBuffer k (s.buffers k).abortTimer) :=
    h.setBuffer fun hwake => ⟨hwake.running, fun _ h => (by cases h), fun _ _ => .inr (.inr ⟨w, by
      show ((s.view k).calls w).willRequest = true; rw [hseen]; rfl⟩)⟩
  refine hset.setCall (k := k) (fun g hgk => ?_) fun hwake => ?_
  · rw [show (s.setBuffer k _).calls w = _ from hcall, HeldCall.seenBy_entered_of_ne hgk,
      HeldCall.seenBy_entered_of_ne hgk]
  · rw [HeldCall.seenBy_entered_self]
    exact hwake.setCall fun _ => rfl

variable [DecidableEq T]

theorem request [DecidableEq W] (h : Woken s) {req : WriteRequest} {spawn : T}
    (hcall : s.calls w = .entered k (.requesting req))
    (hs : (s.setCall w (.entered k (.waiting req))).Requested k spawn s') : Woken s' := by
  refine h.requested hs rfl (fun g hgk => Manager.view_setCall_same s ?_) fun hwake hreq => ?_
  · rw [hcall, HeldCall.seenBy_entered_of_ne hgk, HeldCall.seenBy_entered_of_ne hgk]
  · refine WakeInv.requestFlush ?_ ?_ hreq
    · exact hwake.running
    · exact fun _ => hwake.handle

theorem fire (h : Woken s) {i : Nat} {spawn : T} (hpunctual : (s.view k).Punctual (.fire i spawn))
    (hs : (s.setBuffer k { s.buffers k with timers := (s.buffers k).timers.erase i }).Requested k
      spawn s') : Woken s' := by
  refine h.requested hs rfl (fun g hgk => Manager.view_setBuffer_of_ne s hgk _)
    fun hwake hreq => ?_
  rw [Manager.view_setBuffer_self] at hreq
  exact hwake.fire hpunctual hreq

theorem lock (h : Woken s) (ht : s.tasks t = .flushing home k .locking) :
    Woken (s.lockBuffer t home k) := by
  have hset : Woken (s.setBuffer k { s.buffers k with flushLock := some t }) :=
    h.setBuffer fun hwake => hwake.congr rfl rfl rfl rfl rfl
  refine hset.setPhase_keeps ht ?_
  split <;> exact ⟨id, id, id⟩

theorem releaseWaiters [DecidableEq W] (h : Woken s)
    (hhome : ∀ g, home = some g → s.entry = some g → k = g)
    (ht : s.tasks t = .flushing home k .releasing) : Woken (s.releaseWaiters t home k) := by
  have hset : Woken (s.setBuffer k (s.buffers k).release.1) :=
    h.setBuffer fun hwake => hwake.drainWaiters.congr rfl rfl rfl rfl rfl
  refine (hset.answer _ _).finishFlush hhome ht (.inl ?_)
  simpa [Manager.answer, Manager.setBuffer, NamespaceBuffer.release] using
    BufferState.timer_drainWaiters (s.buffers k).state

theorem committed (h : Woken s) {b : FlushBatch W}
    (ht : s.tasks t = .flushing home k (.appending b)) :
    Woken (s.commitBatch t home k b) := by
  have hlogged : Woken { s with log := s.log ++ [b.pending.entry] } :=
    fun g hg => (h g hg).congr rfl rfl rfl rfl rfl
  exact hlogged.setPhase_keeps ht ⟨id, id, id⟩

theorem record [DecidableEq W] (h : Woken s) {b : FlushBatch W} {seq : Nat}
    (hhome : ∀ g, home = some g → s.entry = some g → k = g)
    (ht : s.tasks t = .flushing home k (.recording b seq)) :
    Woken (s.recordCommit t home k b seq) := by
  have hset : Woken (s.setBuffer k { s.buffers k with lastCommittedAt := some s.now }) :=
    h.setBuffer fun hwake => hwake.congr rfl rfl rfl rfl rfl
  exact (hset.answer _ _).finishFlush hhome ht (.inr rfl)

theorem store (h : Woken s) (ht : s.tasks t = .after k .storing) : Woken (s.storeFlag t k) := by
  have hset : Woken (s.setBuffer k { s.buffers k with flushRunning := false }) :=
    h.setBuffer fun hwake => ⟨fun h => (by cases h), hwake.handle, hwake.wake⟩
  refine hset.setAfter ht fun hseen hwake => hwake.setTask hseen (.inl ?_) (.inr id)
    (.inr (.inr id))
  rw [Manager.view_setBuffer_self]

theorem recheckBuffer [DecidableEq W] (h : Woken s) (cfg : WriteBufferConfig)
    (ht : s.tasks t = .after k .rechecking) : Woken (s.recheckBuffer cfg t k) := by
  rw [Manager.recheckBuffer, NamespaceBuffer.recheck]
  split
  · split <;> exact h.setAfter ht fun hseen hwake => hwake.setTask_keeps hseen ⟨id, id, id⟩
  · rename_i hwork
    exact h.leave ht fun hseen hwake => hwake.setTask hseen (.inr id) (.inr id)
      (.inl (Bool.eq_false_of_not_eq_true hwork))

theorem rerequest (h : Woken s) {spawn : T} (ht : s.tasks t = .after k .requesting)
    (hs : (s.setTask t .idle).Requested k spawn s') : Woken s' := by
  refine h.requested hs rfl (fun g hgk => Manager.view_setTask_same s ?_) fun hwake hreq => ?_
  · rw [ht, FlushJob.seenBy_after_of_ne hgk]
    rfl
  · rw [Manager.view_setTask] at hreq
    exact hwake.rerequest (Woken.seen_of_after ht) hreq

theorem armSecond (h : Woken s) {delay : Nat} (ht : s.tasks t = .after k (.armSecond delay)) :
    Woken (s.armCooldownTimer t k delay) := by
  have hset : Woken (s.setBuffer k ((s.buffers k).armTimer (s.now + delay))) :=
    h.setBuffer fun hwake => (WakeInv.armTimer hwake.running _).congr rfl rfl rfl rfl rfl
  refine hset.leave ht fun hseen hwake => hwake.setTask hseen (.inr id) (.inr id)
    (.inr (.inl ?_))
  rw [Manager.view_setBuffer_self]
  rfl

theorem peeks (h : Woken s) (ht : s.tasks t = .peeking ∨ ∃ g, s.tasks t = .peeked g)
    {j : FlushJob W} (hj : j = .idle ∨ j = .looking none ∨ ∃ g, s.entry = some g ∧ j = .peeked g) :
    Woken (s.setTask t j) := by
  refine h.setTask_same fun g => ?_
  have hold : (s.tasks t).seenBy g = .idle := by
    rcases ht with ht | ⟨k, ht⟩ <;> rw [ht] <;> rfl
  rcases hj with rfl | rfl | ⟨k, -, rfl⟩ <;> exact hold.symm

theorem step [DecidableEq W] {cfg : WriteBufferConfig} {a : ManagerAction W T}
    (hknown : HandlesKnown s) (h : Woken s) (horderly : s.Orderly a)
    (hstep : (manager W T cfg).step s a = some s') : Woken s' := by
  cases Manager.step_cases hstep with
  | tick | otherCommit => exact fun g hg => (h g hg).congr rfl rfl rfl rfl rfl
  | bufferFor hidle => exact h.bufferFor _ hidle
  | write hcall => exact h.enqueue cfg hcall
  | abort hcall => exact h.abort hcall
  | request hcall hs => exact h.request hcall hs
  | fire _ hs => exact h.fire horderly hs
  | dropNamespace => exact fun g hg => by cases hg
  | flushAll ht => exact h.setTask_same fun g => by rw [ht]; rfl
  | look ht => exact h.look ht
  | lock ht => exact h.lock ht
  | cooled ht => exact h.setPhase_keeps ht ⟨id, id, id⟩
  | drain ht => exact h.drainBuffer ht
  | release ht => exact h.releaseWaiters (Manager.flush_home hknown ht) ht
  | committed ht => exact h.committed ht
  | failed ht =>
    have hhome := Manager.flush_home hknown ht
    exact (h.answer _ _).finishFlush hhome ht (.inr rfl)
  | record ht => exact h.record (Manager.flush_home hknown ht) ht
  | store ht => exact h.store ht
  | recheck ht => exact h.recheckBuffer cfg ht
  | rerequest ht hs => exact h.rerequest ht hs
  | armFirstReturn ht hreturn =>
    refine h.leave ht fun hseen hwake => hwake.setTask hseen (.inr id) (.inr id) ?_
    rcases hreturn with hlocked | hnone | htimer
    · exact absurd (horderly.symm.trans hlocked) Bool.false_ne_true
    · exact .inl (Bool.eq_false_of_not_eq_true hnone)
    · exact .inr (.inl htimer)
  | armFirst ht | armCooldown ht =>
    exact h.setAfter ht fun hseen hwake => hwake.setTask_keeps hseen ⟨id, id, id⟩
  | armCooldownReturn => cases horderly
  | armSecondReturn ht hreturn =>
    refine h.leave ht fun hseen hwake => hwake.setTask hseen (.inr id) (.inr id) (.inr (.inl ?_))
    refine hreturn.resolve_left fun hlocked => ?_
    exact absurd (horderly.symm.trans hlocked) Bool.false_ne_true
  | armSecond ht => exact h.armSecond ht
  | peeks ht hj => exact h.peeks ht hj

end Woken

/-! ## Where a waiter is -/

namespace Manager

variable {W T : Type}

/-- A queued call is answered, about to be answered, or in its buffer. -/
def Lodged (s : Manager W T) (w : W) (g : Nat) : Prop :=
  s.answers w ≠ none ∨ (∃ t, w ∈ (s.tasks t).answering) ∨
    w ∈ (s.buffers g).state.waiters.map WriteWaiter.tx

end Manager

/-- Waiters are in the buffer of the map, with something to commit. -/
structure Custody {W T : Type} (s : Manager W T) : Prop where
  waits : ∀ g, (s.buffers g).state.waiters ≠ [] → s.entry = some g
  work : ∀ g, (s.buffers g).state.waiters ≠ [] → (s.buffers g).state.isEmpty = false
  holds : ∀ w g req, s.calls w = .holding g req → s.entry = some g
  lodged : ∀ w g, (s.calls w).queuedIn = some g → s.Lodged w g

namespace Custody

variable {W T : Type} {s : Manager W T}

theorem init : Custody (Manager.init : Manager W T) where
  waits := fun _ h => absurd rfl h
  work := fun _ h => absurd rfl h
  holds := fun _ _ _ h => by cases h
  lodged := fun _ _ h => by cases h

variable {t : T} {k : Nat} {b : NamespaceBuffer W T}

section

variable (h : Custody s)

include h

/-- A task moves on and keeps the calls it has to answer. -/
theorem setTask [DecidableEq T] {j : FlushJob W}
    (hj : ∀ w ∈ (s.tasks t).answering, w ∈ j.answering ∨ s.answers w ≠ none) :
    Custody (s.setTask t j) where
  waits := h.waits
  work := h.work
  holds := h.holds
  lodged := by
    intro w g hw
    rcases h.lodged w g hw with hanswered | ⟨r, hr⟩ | hwaits
    · exact .inl hanswered
    · by_cases hrt : r = t
      · subst hrt
        refine (hj w hr).elim (fun hmem => .inr (.inl ⟨r, ?_⟩)) .inl
        simpa [Manager.setTask] using hmem
      · exact .inr (.inl ⟨r, by simpa [Manager.setTask, hrt] using hr⟩)
    · exact .inr (.inr hwaits)

/-- A buffer changes.  Those who wait in it stay, or a flush has them. -/
theorem setBuffer (hentry : b.state.waiters ≠ [] → s.entry = some k)
    (hwork : b.state.waiters ≠ [] → b.state.isEmpty = false)
    (hkept : ∀ w ∈ (s.buffers k).state.waiters.map WriteWaiter.tx,
      (∃ t, w ∈ (s.tasks t).answering) ∨ w ∈ b.state.waiters.map WriteWaiter.tx) :
    Custody (s.setBuffer k b) where
  waits := (forall_update_iff s.buffers fun g b => b.state.waiters ≠ [] →
    s.entry = some g).mpr ⟨hentry, fun g _ => h.waits g⟩
  work := (forall_update_iff s.buffers fun _ b => b.state.waiters ≠ [] →
    b.state.isEmpty = false).mpr ⟨hwork, fun g _ => h.work g⟩
  holds := h.holds
  lodged := by
    intro w g hw
    refine (h.lodged w g hw).imp_right (Or.rec .inl fun hwaits => ?_)
    by_cases hgk : g = k
    · subst hgk
      simpa [Manager.setBuffer] using hkept w hwaits
    · exact .inr (by simpa [Manager.setBuffer, hgk] using hwaits)

theorem touch (hpending : b.state.toPending = (s.buffers k).state.toPending)
    (hwaiters : b.state.waiters = (s.buffers k).state.waiters) : Custody (s.setBuffer k b) := by
  refine h.setBuffer ?_ ?_ ?_ <;> rw [hwaiters]
  · exact h.waits k
  · rw [hpending]
    exact h.work k
  · exact fun w hw => .inr hw

theorem setCall [DecidableEq W] {w : W} {c : HeldCall}
    (hholds : ∀ g req, c = .holding g req → s.entry = some g)
    (hqueued : ∀ g, c.queuedIn = some g → s.Lodged w g) : Custody (s.setCall w c) where
  waits := h.waits
  work := h.work
  holds := (forall_update_iff s.calls fun _ c => ∀ g req, c = .holding g req →
    s.entry = some g).mpr ⟨hholds, fun v _ => h.holds v⟩
  lodged := (forall_update_iff s.calls fun v c => ∀ g, c.queuedIn = some g →
    s.Lodged v g).mpr ⟨hqueued, fun v _ => h.lodged v⟩

theorem answer [DecidableEq W] (waiters : List (WriteWaiter W))
    (result : WriteStats → Except String CommittedBatch) : Custody (s.answer waiters result) where
  waits := h.waits
  work := h.work
  holds := h.holds
  lodged := fun w g hw => (h.lodged w g hw).imp_left (answers_mono waiters result)

/-- A buffer is created when the map has none, so that nobody waits anywhere. -/
theorem create (hentry : s.entry = none) (k next : Nat) :
    Custody (Manager.setBuffer { s with entry := some k, nextBuffer := next } k {}) := by
  have hempty : ∀ g, (s.buffers g).state.waiters = [] := fun g => by
    by_contra hg
    exact absurd (hentry.symm.trans (h.waits g hg)) (by simp)
  have hcreated : Custody { s with entry := some k, nextBuffer := next } :=
    ⟨fun g hg => absurd (hempty g) hg, h.work,
      fun v g req hv => absurd (hentry.symm.trans (h.holds v g req hv)) (by simp), h.lodged⟩
  refine hcreated.setBuffer (fun _ => rfl) (fun hsome => absurd rfl hsome) ?_
  show ∀ w ∈ (s.buffers k).state.waiters.map tx, _
  rw [hempty k]
  nofun

/-- Nobody waits in an empty buffer, so a flush that finds one releases nobody. -/
theorem drainWaiters_eq (k : Nat) :
    (s.buffers k).state.drainWaiters.1.toPending = (s.buffers k).state.toPending ∧
      (s.buffers k).state.drainWaiters.1.waiters = (s.buffers k).state.waiters := by
  rw [drainWaiters]
  by_cases hempty : (s.buffers k).state.isEmpty
  · have hnone : (s.buffers k).state.waiters = [] := by
      by_contra hsome
      exact absurd ((h.work k hsome).symm.trans hempty) Bool.false_ne_true
    rw [if_pos hempty]
    exact ⟨rfl, hnone.symm⟩
  · rw [if_neg hempty]
    exact ⟨rfl, rfl⟩

theorem change [DecidableEq W] [DecidableEq T] {s' : Manager W T}
    (hc : s.Change s') : Custody s' := by
  cases hc with
  | pass => exact ⟨h.waits, h.work, h.holds, h.lodged⟩
  | touch _ hpending hwaiters => exact h.touch hpending hwaiters
  | @call w _ _ _ hcall hsame =>
    refine h.setCall nofun fun g hg => h.lodged w g ?_
    rw [hcall, ← hsame]
    exact hg
  | task _ _ _ _ hkept => exact h.setTask hkept
  | answer result => exact h.answer _ result
  | create hentry => exact h.create hentry _ _
  | hold _ _ hentry =>
    refine h.setCall ?_ nofun
    rintro _ _ ⟨⟩
    exact hentry
  | @drain t home k ht =>
    have htaken := h.setTask (t := t) (j := .flushing home k (.appending
      ⟨(s.buffers k).state.toPending, (s.buffers k).state.waiters, []⟩)) (by rw [ht]; nofun)
    refine htaken.setBuffer (fun hsome => absurd rfl hsome) (fun hsome => absurd rfl hsome) ?_
    exact fun w hw => .inl ⟨t, by simpa [Manager.setTask, FlushJob.answering] using hw⟩
  | @release _ _ k result ht =>
    obtain ⟨hpending, hwaiters⟩ := h.drainWaiters_eq k
    have hset : Custody (s.setBuffer k
      { s.buffers k with state := (s.buffers k).state.drainWaiters.1 }) := h.touch hpending hwaiters
    exact hset.answer _ result

/-- A call queues its request and its waiter. -/
theorem queue [DecidableEq W] {w : W} {req : WriteRequest}
    (hcall : s.calls w = .holding k req) (hwork : b.state.isEmpty = false)
    (hwaiters : b.state.waiters = (s.buffers k).state.waiters ++ [⟨req.stats, w⟩]) {c : WriteCall}
    (hc : (HeldCall.entered k c).queuedIn = some k) :
    Custody ((s.setBuffer k b).setCall w (.entered k c)) := by
  have hset : Custody (s.setBuffer k b) := by
    refine h.setBuffer (fun _ => h.holds w k req hcall) (fun _ => hwork) fun v hv => .inr ?_
    rw [hwaiters, List.map_append]
    exact List.mem_append_left _ hv
  refine hset.setCall nofun fun g hg => .inr (.inr ?_)
  obtain rfl : k = g := Option.some.inj (hc.symm.trans hg)
  simp [Manager.setBuffer, hwaiters]

theorem enqueue [DecidableEq W] [DecidableEq T] {cfg : WriteBufferConfig} {w : W}
    {req : WriteRequest} (hcall : s.calls w = .holding k req)
    (horderly : s.Orderly (.write w)) : Custody (s.enqueue cfg w k req) := by
  simp only [Manager.Orderly, hcall, Manager.LeavesWork] at horderly
  rw [Manager.enqueue, NamespaceBuffer.enqueue]
  generalize hres : (s.buffers k).state.enqueue cfg w req = res
  obtain ⟨state, msg | next⟩ := res
  · have hwaiters : state.waiters = (s.buffers k).state.waiters := by
      rw [(BufferState.enqueue_error hres).1]
    have hset : Custody (s.setBuffer k { s.buffers k with state }) := by
      refine h.setBuffer ?_ (horderly.not_isEmpty hres) ?_ <;> rw [hwaiters]
      · exact h.waits k
      · exact fun w hw => .inr hw
    refine hset.setCall (fun g req hc => ?_) (fun g hc => ?_) <;> cases hc
  · obtain ⟨-, hwaiters, -, -⟩ := BufferState.enqueue_ok hres
    have hwork : state.isEmpty = false :=
      horderly.not_isEmpty hres (by rw [hwaiters]; simp)
    cases next with
    | flushNow | wait => exact h.queue hcall hwork hwaiters rfl
    | armTimer => exact h.queue hcall hwork hwaiters rfl

end

theorem step [DecidableEq W] [DecidableEq T] {cfg : WriteBufferConfig} {s' : Manager W T}
    {a : ManagerAction W T} (hknown : HandlesKnown s) (h : Custody s) (horderly : s.Orderly a)
    (hstep : (manager W T cfg).step s a = some s') : Custody s' := by
  rcases step_changes hknown hstep with ⟨w, k, req, rfl, hcall, rfl⟩ | ⟨rfl, rfl⟩ | hs
  · exact h.enqueue hcall horderly
  · refine ⟨?_, h.work, ?_, h.lodged⟩
    · intro g hg
      exact absurd (horderly g (h.waits g hg)).1 hg
    · intro w g req hw
      exact absurd (by rw [hw]; rfl) ((horderly g (h.holds w g req hw)).2 w)
  · clear hstep
    induction hs with
    | refl => exact h
    | tail _ hc ih => exact ih.change hc

end Custody

/-! ## Nobody is lost -/

/-- The map has the buffer, and somebody is there to get it flushed. -/
def Manager.WillDrain {W T : Type} (s : Manager W T) (g : Nat) : Prop :=
  s.entry = some g ∧ (s.view g).WillFlush

/-- The buffer that somebody waits in will be drained. -/
theorem Custody.willDrain {W T : Type} {s : Manager W T} (h : Custody s) (hwoken : Woken s)
    {g : Nat} (hg : (s.buffers g).state.waiters ≠ []) : s.WillDrain g := by
  have hentry : s.entry = some g := h.waits g hg
  have hwork : (s.buffers g).state.hasWork = true := by
    rw [Pending.hasWork_eq_not_isEmpty, h.work g hg]
    rfl
  exact ⟨hentry, (hwoken g hentry).wake hwork hg⟩

/-- In an orderly run a call that has queued its waiter has its answer, or a flush has its
waiter, or it waits in the buffer of the map and that will be drained. -/
theorem no_waiter_lost {W T : Type} [DecidableEq W] [DecidableEq T] (cfg : WriteBufferConfig)
    {as : List (ManagerAction W T)} {s : Manager W T}
    (horderly : (manager W T cfg).Along Manager.Orderly .init as)
    (hv : (manager W T cfg).Visits .init as s) {w : W} {g : Nat}
    (hw : (s.calls w).queuedIn = some g) :
    s.answers w ≠ none ∨ (∃ t, w ∈ (s.tasks t).answering) ∨
      w ∈ (s.buffers g).state.waiters.map WriteWaiter.tx ∧ s.WillDrain g := by
  have hstep : ∀ (s : Manager W T) a s', HandlesKnown s ∧ Woken s ∧ Custody s → s.Orderly a →
      (manager W T cfg).step s a = some s' → HandlesKnown s' ∧ Woken s' ∧ Custody s' :=
    fun _ _ _ ⟨hknown, hwoken, hcustody⟩ hG hs =>
      ⟨hknown.step hs, hwoken.step hknown hG hs, hcustody.step hknown hG hs⟩
  have hinit : HandlesKnown (init : Manager W T) ∧ Woken (init : Manager W T) ∧
      Custody (init : Manager W T) := ⟨.init, .init, .init⟩
  obtain ⟨-, hwoken, hcustody⟩ := Machine.visits_invariant hstep hinit horderly hv
  refine (hcustody.lodged w g hw).imp_right (Or.imp_right fun hmem => ⟨hmem, ?_⟩)
  refine hcustody.willDrain hwoken fun hnone => ?_
  rw [hnone] at hmem
  cases hmem

/-- The first writer's row is committed by its timer's flush. -/
def firstCommitted : List (ManagerAction (Fin 2) (Fin 1)) :=
  [.bufferFor 0 { upserts := [⟨"a", ∅⟩] }, .write 0, .tick 1000, .fire 0 0 0, .look 0, .lock 0,
    .cooled 0, .drain 0, .appended 0 (.ok ()), .record 0, .store 0, .recheck 0]

/-- The namespace is dropped when its buffer is empty.  The next writer waits in a buffer of
its own. -/
theorem dropped_when_empty :
    ∃ s, (manager (Fin 2) (Fin 1) {}).run .init (firstCommitted ++
        [.dropNamespace, .bufferFor 1 { upserts := [⟨"b", ∅⟩] }, .write 1]) = some s ∧
      (s.calls 1).queuedIn = some 1 ∧
      1 ∈ (s.buffers 1).state.waiters.map WriteWaiter.tx ∧ s.WillDrain 1 := by
  obtain ⟨s, hs, hqueued, hnone, hidle⟩ : ∃ s, (manager (Fin 2) (Fin 1) {}).run .init
      (firstCommitted ++ [.dropNamespace, .bufferFor 1 { upserts := [⟨"b", ∅⟩] }, .write 1])
        = some s ∧ (s.calls 1).queuedIn = some 1 ∧ (s.answers 1).isNone ∧
          ∀ t, 1 ∉ (s.tasks t).answering := by
    decide +kernel
  refine ⟨s, hs, hqueued, ?_⟩
  have horderly : (manager (Fin 2) (Fin 1) {}).Along Orderly .init (firstCommitted ++
      [.dropNamespace, .bufferFor 1 { upserts := [⟨"b", ∅⟩] }, .write 1]) := by
    decide +kernel
  have hlodged := no_waiter_lost {} horderly (Machine.visits_end hs) hqueued
  rcases hlodged with hanswered | ⟨t, ht⟩ | hwaits
  · exact absurd (Option.isNone_iff_eq_none.mp hnone) hanswered
  · exact absurd ht (hidle t)
  · exact hwaits

/-! ## A lost waiter -/

/-- A call waits in a buffer that was dropped before a flush found it. -/
structure Stranded {W T : Type} (s : Manager W T) (w : W) (g : Nat) : Prop where
  known : g < s.nextBuffer
  gone : s.entry ≠ some g
  unfound : ∀ t, (s.tasks t).target ≠ some g
  queued : (s.calls w).queuedIn = some g
  waits : w ∈ (s.buffers g).state.waiters.map WriteWaiter.tx
  only : ∀ k < s.nextBuffer, k ≠ g → w ∉ (s.buffers k).state.waiters.map WriteWaiter.tx
  unanswered : s.answers w = none
  untaken : ∀ t, w ∉ (s.tasks t).answering

namespace Stranded

variable {W T : Type} {s : Manager W T} {w : W} {g : Nat}

variable {t : T} {k : Nat} {s' : Manager W T} {home : Option Nat}

section

variable (h : Stranded s w g)

include h

theorem setTask [DecidableEq T] {j : FlushJob W}
    (htarget : j.target ≠ some g) (hout : w ∉ j.answering) : Stranded (s.setTask t j) w g := by
  refine ⟨h.known, h.gone, ?_, h.queued, h.waits, h.only, h.unanswered, ?_⟩
  · exact (forall_update_iff s.tasks fun _ j => j.target ≠ some g).mpr
      ⟨htarget, fun r _ => h.unfound r⟩
  · exact (forall_update_iff s.tasks fun _ j => w ∉ j.answering).mpr
      ⟨hout, fun r _ => h.untaken r⟩

theorem setCall [DecidableEq W] {v : W} {c : HeldCall}
    (hc : v = w → c.queuedIn = some g) : Stranded (s.setCall v c) w g := by
  refine ⟨h.known, h.gone, h.unfound, ?_, h.waits, h.only, h.unanswered, h.untaken⟩
  exact (forall_update_iff s.calls fun v c => v = w → c.queuedIn = some g).mpr
    ⟨hc, fun r _ hr => hr ▸ h.queued⟩ w rfl

theorem setBuffer {b : NamespaceBuffer W T}
    (hkeep : k = g → w ∈ b.state.waiters.map WriteWaiter.tx)
    (hout : k < s.nextBuffer → k ≠ g → w ∉ b.state.waiters.map WriteWaiter.tx) :
    Stranded (s.setBuffer k b) w g := by
  refine ⟨h.known, h.gone, h.unfound, h.queued, ?_, ?_, h.unanswered, h.untaken⟩
  · exact (forall_update_iff s.buffers fun i b => i = g →
      w ∈ b.state.waiters.map tx).mpr ⟨hkeep, fun i _ hi => hi ▸ h.waits⟩ g rfl
  · exact (forall_update_iff s.buffers fun i b => i < s.nextBuffer → i ≠ g →
      w ∉ b.state.waiters.map tx).mpr ⟨hout, fun i _ => h.only i⟩

theorem touch {b : NamespaceBuffer W T}
    (hb : b.state.waiters = (s.buffers k).state.waiters) : Stranded (s.setBuffer k b) w g := by
  refine h.setBuffer ?_ ?_
  · rintro rfl
    rw [hb]
    exact h.waits
  · rw [hb]
    exact h.only k

theorem answer [DecidableEq W] {waiters : List (WriteWaiter W)}
    (hout : w ∉ waiters.map WriteWaiter.tx)
    (result : WriteStats → Except String CommittedBatch) :
    Stranded (s.answer waiters result) w g := by
  refine ⟨h.known, h.gone, h.unfound, h.queued, h.waits, h.only, ?_, h.untaken⟩
  rcases sendAnswers_cases waiters result s.answers w with ⟨wt, hmem, htx, -⟩ | ⟨-, hsame⟩
  · exact absurd (List.mem_map.mpr ⟨wt, hmem, htx⟩) hout
  · exact hsame.trans h.unanswered

theorem ne_of_call {v : W} (hv : (s.calls v).queuedIn = none) : v ≠ w := by
  rintro rfl
  exact absurd (hv.symm.trans h.queued) (by simp)

theorem create :
    Stranded (Manager.setBuffer { s with
      entry := some s.nextBuffer, nextBuffer := s.nextBuffer + 1 } s.nextBuffer {}) w g := by
  have hnew : g ≠ s.nextBuffer := h.known.ne
  refine ⟨?_, ?_, h.unfound, h.queued, ?_, ?_, h.unanswered, h.untaken⟩
  · exact h.known.trans (Nat.lt_succ_self _)
  · exact fun heq => hnew (Option.some.inj heq).symm
  · simpa [Manager.setBuffer, hnew] using h.waits
  · intro k hk hkg
    by_cases hkn : k = s.nextBuffer
    · simp [Manager.setBuffer, hkn]
    · have hlt : k < s.nextBuffer := lt_of_le_of_ne (Nat.lt_succ_iff.mp hk) hkn
      simpa [Manager.setBuffer, hkn] using h.only k hlt hkg

theorem enqueue [DecidableEq W] [DecidableEq T] (cfg : WriteBufferConfig)
    {v : W} {req : WriteRequest} (hv : s.calls v = .holding k req) :
    Stranded (s.enqueue cfg v k req) w g := by
  have hvw : v ≠ w := h.ne_of_call (by rw [hv]; rfl)
  have hmem : w ∈ ((s.buffers k).state.enqueue cfg v req).1.waiters.map WriteWaiter.tx ↔
      w ∈ (s.buffers k).state.waiters.map WriteWaiter.tx := by
    rw [BufferState.enqueue]
    split
    · exact Iff.rfl
    · simp [Ne.symm hvw]
  have hset : ∀ b : NamespaceBuffer W T,
      b.state.waiters = ((s.buffers k).state.enqueue cfg v req).1.waiters →
      ∀ c, Stranded ((s.setBuffer k b).setCall v c) w g := by
    intro b hb c
    refine (h.setBuffer ?_ ?_).setCall fun heq => absurd heq hvw
    · rintro rfl
      rw [hb]
      exact hmem.mpr h.waits
    · rw [hb]
      exact fun hk hkg hin => h.only k hk hkg (hmem.mp hin)
  rw [Manager.enqueue, NamespaceBuffer.enqueue]
  generalize (s.buffers k).state.enqueue cfg v req = res at hset
  obtain ⟨state, msg | next⟩ := res
  · exact hset _ rfl _
  · cases next <;> exact hset _ rfl _

section

variable (hknown : HandlesKnown s)

include hknown

/-- A flush works on other buffers, where the stranded call does not wait. -/
theorem not_mem_of_flushing {phase : FlushPhase W}
    (ht : s.tasks t = .flushing home k phase) :
    k ≠ g ∧ w ∉ (s.buffers k).state.waiters.map WriteWaiter.tx := by
  have hkg : k ≠ g := by
    rintro rfl
    exact h.unfound t (by rw [ht]; rfl)
  have hk : k < s.nextBuffer := hknown.tasks t k (by rw [ht]; exact List.mem_cons_self)
  exact ⟨hkg, h.only k hk hkg⟩

theorem change [DecidableEq W] [DecidableEq T]
    (hc : s.Change s') : Stranded s' w g := by
  cases hc with
  | pass => exact ⟨h.known, h.gone, h.unfound, h.queued, h.waits, h.only, h.unanswered, h.untaken⟩
  | touch _ _ hwaiters => exact h.touch hwaiters
  | call hcall hsame =>
    refine h.setCall ?_
    rintro rfl
    rw [hsame, ← hcall]
    exact h.queued
  | @task t j _ _ htarget hanswering _ =>
    refine h.setTask (fun hj => ?_) fun hw => h.untaken t (hanswering w hw)
    exact (htarget g hj).elim (h.unfound t) h.gone
  | @answer t _ result hanswering =>
    refine h.answer ?_ result
    rw [← hanswering]
    exact h.untaken t
  | create => exact h.create
  | hold _ hidle _ =>
    have hvw := h.ne_of_call (by rw [hidle]; rfl)
    exact h.setCall fun heq => absurd heq hvw
  | @drain t home k ht =>
    obtain ⟨hkg, hout⟩ := h.not_mem_of_flushing hknown ht
    have hset : Stranded (s.setBuffer k { s.buffers k with state := {} }) w g :=
      h.setBuffer (fun heq => absurd heq hkg) fun _ _ => List.not_mem_nil
    exact hset.setTask (fun heq => hkg (Option.some.inj heq)) hout
  | @release t home k result ht =>
    obtain ⟨hkg, hout⟩ := h.not_mem_of_flushing hknown ht
    rw [drainWaiters]
    by_cases hempty : (s.buffers k).state.isEmpty
    · rw [if_pos hempty]
      refine answer (h.setBuffer ?_ ?_) hout _
      · exact fun heq => absurd heq hkg
      · exact fun _ _ => List.not_mem_nil
    · rw [if_neg hempty]
      have hset : Stranded (s.setBuffer k { s.buffers k with
          state := { (s.buffers k).state with timer := none } }) w g := h.touch rfl
      refine hset.answer ?_ _
      exact List.not_mem_nil

theorem step [DecidableEq W] [DecidableEq T] {cfg : WriteBufferConfig} {a : ManagerAction W T}
    (hstep : (manager W T cfg).step s a = some s') :
    Stranded s' w g := by
  rcases step_changes hknown hstep with ⟨v, k, req, -, hcall, rfl⟩ | ⟨-, rfl⟩ | hs
  · exact h.enqueue cfg hcall
  · exact ⟨h.known, nofun, h.unfound, h.queued, h.waits, h.only, h.unanswered, h.untaken⟩
  · clear hstep
    have hkept : HandlesKnown s' ∧ Stranded s' w g := by
      induction hs with
      | refl => exact ⟨hknown, h⟩
      | tail _ hc ih => exact ⟨ih.1.change hc, ih.2.change ih.1 hc⟩
    exact hkept.2

/-- Whatever happens, a stranded call stays where it is. -/
theorem run [DecidableEq W] [DecidableEq T] {cfg : WriteBufferConfig}
    {as : List (ManagerAction W T)}
    (hrun : (manager W T cfg).run s as = some s') : Stranded s' w g := by
  have hstep : ∀ (s : Manager W T) a s', HandlesKnown s ∧ Stranded s w g →
      (manager W T cfg).step s a = some s' → HandlesKnown s' ∧ Stranded s' w g :=
    fun _ _ _ ⟨hknown, hstranded⟩ hs => ⟨hknown.step hs, hstranded.step hknown hs⟩
  exact (Machine.run_keeps hstep ⟨hknown, h⟩ hrun).2

end

end

end Stranded

/-- The namespace is dropped while a writer waits for its timer.  The next writer gets a
buffer of its own, and that is the one that the timer's flush finds. -/
def droppedWhileWaiting : List (ManagerAction (Fin 2) (Fin 1)) :=
  [.bufferFor 0 { upserts := [⟨"a", ∅⟩] }, .write 0, .dropNamespace,
    .bufferFor 1 { upserts := [⟨"b", ∅⟩] }, .write 1, .tick 1000, .fire 0 0 0, .look 0, .lock 0,
    .cooled 0, .drain 0, .appended 0 (.ok ()), .record 0]

/-- The second writer has its answer.  The first one, which holds its buffer and so keeps its
channel open, never gets one. -/
theorem drop_loses_waiter :
    ∃ s, (manager (Fin 2) (Fin 1) {}).run .init droppedWhileWaiting = some s ∧
      s.log = [{ upserts := [⟨"b", ∅⟩] }] ∧ (s.answers 1).isSome ∧
      (s.calls 0).queuedIn = some 0 ∧ 0 ∈ (s.buffers 0).state.waiters.map WriteWaiter.tx ∧
      ¬ s.WillDrain 0 ∧
      ∀ as s', (manager (Fin 2) (Fin 1) {}).run s as = some s' →
        s'.answers 0 = none ∧ (∀ t, 0 ∉ (s'.tasks t).answering) ∧ ¬ s'.WillDrain 0 := by
  obtain ⟨s, hs, hlog, hsecond, hlt, hgone, hunfound, hqueued, hwaits, honly, hnone, huntaken⟩ :
      ∃ s, (manager (Fin 2) (Fin 1) {}).run .init droppedWhileWaiting = some s ∧
        s.log = [{ upserts := [⟨"b", ∅⟩] }] ∧ (s.answers 1).isSome ∧
        0 < s.nextBuffer ∧ s.entry ≠ some 0 ∧ (∀ t, (s.tasks t).target ≠ some 0) ∧
        (s.calls 0).queuedIn = some 0 ∧ 0 ∈ (s.buffers 0).state.waiters.map tx ∧
        (∀ k < s.nextBuffer, k ≠ 0 → 0 ∉ (s.buffers k).state.waiters.map tx) ∧
        s.answers 0 = none ∧ ∀ t, 0 ∉ (s.tasks t).answering := by
    decide +kernel
  have hstranded : Stranded s 0 0 :=
    ⟨hlt, hgone, hunfound, hqueued, hwaits, honly, hnone, huntaken⟩
  have hknown : HandlesKnown s := HandlesKnown.init.run hs
  refine ⟨s, hs, hlog, hsecond, hqueued, hwaits, fun hdrain => hgone hdrain.1, ?_⟩
  intro as s' hs'
  have hlater := hstranded.run hknown hs'
  exact ⟨hlater.unanswered, hlater.untaken, fun hdrain => hlater.gone hdrain.1⟩

end OpenPuffer
