import OpenPuffer.Meta
import OpenPuffer.Wal
import OpenPuffer.Lib.Machine

/-!
# The write buffer of a namespace

Writes of a namespace are queued in memory and committed together as one WAL entry.  Here are
the buffer and its critical sections, each a function on the state behind the lock.  The first
section of `write` leaves early when the schema patch of the request cannot be merged; by then
the rows are queued and the slot of the pending schema patch is empty.
-/

namespace OpenPuffer

/-- Group-commit tuning, in milliseconds. -/
structure WriteBufferConfig where
  maxDelay : Nat := 1000
  maxBatchOps : Nat := 512
  /-- Minimum time between two commits of a namespace. -/
  minCommitInterval : Nat := 1000

/-- Per-request write stats. -/
structure WriteStats where
  rowsUpserted : Nat := 0
  rowsPatched : Nat := 0
  rowsDeleted : Nat := 0
  upsertedIds : Option (List String) := none
  deletedIds : Option (List String) := none
  rowsRemaining : Option Bool := none
deriving DecidableEq

/-- The arguments of `write`. -/
structure WriteRequest where
  upserts : List Document := []
  patches : List Document := []
  deletes : List String := []
  schemaPatch : Option Json := none
  distanceMetric : Option DistanceMetric := none
  stats : WriteStats := {}
deriving DecidableEq

def WriteRequest.entry (w : WriteRequest) : WalEntry :=
  .fromWrite w.upserts w.patches w.deletes

/-- What a buffer holds for the next commit. -/
structure Pending where
  upserts : List Document := []
  patches : List Document := []
  deletes : List String := []
  schemaPatch : Option Json := none
  distanceMetric : Option DistanceMetric := none
deriving DecidableEq

/-- A queued write and the channel that its answer goes to. -/
structure WriteWaiter (W : Type) where
  stats : WriteStats
  tx : W
deriving DecidableEq

/-- The state behind the lock of a buffer.  A timer is named by a number. -/
structure BufferState (W : Type) extends Pending where
  waiters : List (WriteWaiter W) := []
  timer : Option Nat := none
deriving DecidableEq

structure CommittedBatch where
  seq : Nat
  entry : WalEntry
  stats : WriteStats
deriving DecidableEq

namespace Pending

/-- All five queues and slots are empty. -/
def isEmpty (p : Pending) : Bool :=
  p.upserts.isEmpty && p.patches.isEmpty && p.deletes.isEmpty && p.schemaPatch.isNone &&
    p.distanceMetric.isNone

def ops (p : Pending) : Nat := p.upserts.length + p.patches.length + p.deletes.length

def metadataOnly (p : Pending) : Bool :=
  p.ops == 0 && (p.schemaPatch.isSome || p.distanceMetric.isSome)

/-- The test of `after_flush_task` and of `arm_cooldown_flush_timer`. -/
def hasWork (p : Pending) : Bool := p.ops > 0 || p.metadataOnly

def entry (p : Pending) : WalEntry := .fromWrite p.upserts p.patches p.deletes

theorem isEmpty_iff {p : Pending} : p.isEmpty = true ↔ p = {} := by
  obtain ⟨upserts, patches, deletes, schemaPatch, distanceMetric⟩ := p
  simp [isEmpty, and_assoc]

theorem hasWork_eq_not_isEmpty (p : Pending) : p.hasWork = !p.isEmpty := by
  obtain ⟨upserts, patches, deletes, schemaPatch, distanceMetric⟩ := p
  cases upserts <;> cases patches <;> cases deletes <;> cases schemaPatch <;>
    cases distanceMetric <;> simp [hasWork, isEmpty, metadataOnly, ops]

theorem hasWork_of_schemaPatch {p : Pending} (h : p.schemaPatch.isSome) : p.hasWork = true := by
  obtain ⟨patch, hpatch⟩ := Option.isSome_iff_exists.mp h
  simp [hasWork_eq_not_isEmpty, isEmpty, hpatch]

/-- The rows of a request at the end of the queues. -/
def extend (p : Pending) (w : WriteRequest) : Pending :=
  { p with
    upserts := p.upserts ++ w.upserts
    patches := p.patches ++ w.patches
    deletes := p.deletes ++ w.deletes }

end Pending

/-! ## The first section of `write` -/

/-- Merge a request's patch into the slot of the pending one.  The slot is
emptied before the merge, and a failed merge does not fill it again. -/
def mergeSlot (slot patch : Option Json) : Option Json × Except String Unit :=
  match patch, slot with
  | none, slot => (slot, .ok ())
  | some patch, none => (some patch, .ok ())
  | some patch, some existing =>
    match mergeSchema existing patch with
    | .ok merged => (some merged, .ok ())
    | .error msg => (none, .error msg)

/-- Queue the rows, the schema patch and the metric of a request. -/
def Pending.add (p : Pending) (w : WriteRequest) : Pending × Except String Unit :=
  match mergeSlot p.schemaPatch w.schemaPatch with
  | (slot, .error msg) => ({ p.extend w with schemaPatch := slot }, .error msg)
  | (slot, .ok ()) =>
    ({ p.extend w with
        schemaPatch := slot
        distanceMetric := w.distanceMetric.or p.distanceMetric }, .ok ())

/-- What a write does after its first section. -/
inductive WriteNext where
  | flushNow
  | armTimer
  | wait
deriving DecidableEq

namespace BufferState

variable {W : Type}

/-- Who flushes the buffer after a write: the writer, a new timer, or whoever
the stored timer belongs to. -/
def writeNext (cfg : WriteBufferConfig) (st : BufferState W) : WriteNext :=
  if st.ops ≥ cfg.maxBatchOps ∨ st.metadataOnly then .flushNow
  else if st.timer.isNone then .armTimer
  else .wait

/-- The first section of `write`. -/
def enqueue (cfg : WriteBufferConfig) (st : BufferState W) (tx : W) (w : WriteRequest) :
    BufferState W × Except String WriteNext :=
  match st.toPending.add w with
  | (pending, .error msg) => ({ st with toPending := pending }, .error msg)
  | (pending, .ok ()) =>
    let st' := { st with toPending := pending, waiters := st.waiters ++ [⟨w.stats, tx⟩] }
    (st', .ok (st'.writeNext cfg))

/-! ## The sections of `flush_namespace` -/

/-- The first section of a flush: take everything, unless there is nothing.  The
timer keeps running, only its handle is dropped. -/
def drain (st : BufferState W) : BufferState W × Option (Pending × List (WriteWaiter W)) :=
  if st.isEmpty then (st, none) else ({}, some (st.toPending, st.waiters))

/-- The second section of a flush that found nothing: take the waiters if there
is still nothing. -/
def drainWaiters (st : BufferState W) : BufferState W × List (WriteWaiter W) :=
  if st.isEmpty then ({ st with timer := none, waiters := [] }, st.waiters)
  else ({ st with timer := none }, [])

/-- Uncommitted rows on top of a committed document map. -/
def overlayPendingWrites (st : BufferState W) (docs : DocMap) : DocMap :=
  if st.upserts.isEmpty && st.patches.isEmpty && st.deletes.isEmpty then docs
  else applyEntry docs st.entry

end BufferState

/-! ## A rejected write -/

theorem mergeSlot_error {slot patch slot' : Option Json} {msg : String}
    (h : mergeSlot slot patch = (slot', .error msg)) :
    slot' = none ∧ ∃ existing new, slot = some existing ∧ patch = some new ∧
      mergeSchema existing new = .error msg := by
  cases patch with
  | none => cases h
  | some new =>
    cases slot with
    | none => cases h
    | some existing =>
      simp only [mergeSlot] at h
      split at h
      · cases h
      · rename_i hmerge
        cases h
        exact ⟨rfl, existing, new, rfl, rfl, hmerge⟩

theorem Pending.add_error {p p' : Pending} {w : WriteRequest} {msg : String}
    (h : p.add w = (p', .error msg)) :
    p' = { p.extend w with schemaPatch := none } ∧
      ∃ existing new, p.schemaPatch = some existing ∧ w.schemaPatch = some new ∧
        mergeSchema existing new = .error msg := by
  simp only [Pending.add] at h
  split at h
  · rename_i slot msg' hslot
    cases h
    obtain ⟨rfl, hmerge⟩ := mergeSlot_error hslot
    exact ⟨rfl, hmerge⟩
  · cases h

theorem Pending.ops_add (p : Pending) (w : WriteRequest) : (p.add w).1.ops = (p.extend w).ops := by
  rw [Pending.add]
  split <;> rfl

theorem isSome_mergeSlot {slot patch merged : Option Json}
    (h : mergeSlot slot patch = (merged, .ok ())) :
    merged.isSome = (slot.isSome || patch.isSome) := by
  cases patch with
  | none =>
    cases h
    exact (Bool.or_false _).symm
  | some new =>
    cases slot with
    | none =>
      cases h
      rfl
    | some existing =>
      simp only [mergeSlot] at h
      split at h <;> cases h
      rfl

/-- An accepted write leaves a schema patch if there was one or it has one. -/
theorem Pending.schemaPatch_of_add {p p' : Pending} {w : WriteRequest}
    (h : p.add w = (p', .ok ())) :
    p'.schemaPatch.isSome = (p.schemaPatch.isSome || w.schemaPatch.isSome) := by
  simp only [Pending.add] at h
  split at h
  · exact nomatch congrArg Prod.snd h
  · rename_i slot hslot
    cases h
    exact isSome_mergeSlot hslot

/-- The metric of an accepted write takes the place of the one before it. -/
theorem Pending.distanceMetric_of_add {p p' : Pending} {w : WriteRequest}
    (h : p.add w = (p', .ok ())) : p'.distanceMetric = w.distanceMetric.or p.distanceMetric := by
  simp only [Pending.add] at h
  split at h
  · exact nomatch congrArg Prod.snd h
  · cases h
    rfl

namespace BufferState

variable {W : Type}

variable {cfg : WriteBufferConfig} {st : BufferState W} {w : WriteRequest}

/-- A rejected write leaves its rows behind, and takes the schema patch of the
writes before it along. -/
theorem enqueue_error {st' : BufferState W} {tx : W} {msg : String}
    (h : st.enqueue cfg tx w = (st', .error msg)) :
    st' = { st with toPending := { st.toPending.extend w with schemaPatch := none } } ∧
      st.schemaPatch.isSome := by
  simp only [enqueue] at h
  split at h
  · rename_i pending msg' hadd
    cases h
    obtain ⟨rfl, existing, -, hslot, -⟩ := Pending.add_error hadd
    exact ⟨rfl, by rw [hslot]; rfl⟩
  · cases h

/-- An accepted write waits, and leaves the stored handle alone. -/
theorem enqueue_ok {st' : BufferState W} {tx : W} {next : WriteNext}
    (h : st.enqueue cfg tx w = (st', .ok next)) :
    st.toPending.add w = (st'.toPending, .ok ()) ∧ st'.waiters = st.waiters ++ [⟨w.stats, tx⟩] ∧
      st'.timer = st.timer ∧ next = st'.writeNext cfg := by
  simp only [enqueue] at h
  split at h
  · cases h
  · rename_i pending hadd
    cases h
    exact ⟨hadd, rfl, rfl, rfl⟩

/-- A write that just waits relies on a stored handle. -/
theorem timer_of_writeNext_wait (h : st.writeNext cfg = .wait) : st.timer.isSome := by
  unfold writeNext at h
  split at h
  · cases h
  · split at h
    · cases h
    · rename_i htimer
      exact Option.isSome_iff_ne_none.mpr fun hnone => htimer (by rw [hnone]; rfl)

theorem timer_drainWaiters (st : BufferState W) : st.drainWaiters.1.timer = none := by
  rw [drainWaiters]
  split <;> rfl

theorem mem_enqueue_waiters {tx : W} {wt : WriteWaiter W}
    (h : wt ∈ (st.enqueue cfg tx w).1.waiters) : wt ∈ st.waiters ∨ wt = ⟨w.stats, tx⟩ := by
  simp only [enqueue] at h
  split at h
  · exact .inl h
  · rcases List.mem_append.mp h with hold | hnew
    · exact .inl hold
    · exact .inr (List.mem_singleton.mp hnew)

/-- No rejected write leaves the buffer as it was. -/
theorem rejected_write_leaves_trace {cfg : WriteBufferConfig} {st st' : BufferState W} {tx : W}
    {w : WriteRequest} {msg : String} (h : st.enqueue cfg tx w = (st', .error msg)) :
    st'.toPending ≠ st.toPending := by
  obtain ⟨rfl, hsome⟩ := enqueue_error h
  intro heq
  have hslot : none = st.schemaPatch := congrArg Pending.schemaPatch heq
  rw [← hslot] at hsome
  cases hsome

end BufferState

/-- A schema patch that declares vector columns of two dimensions. -/
def vectorColumns (names : List String) : Json :=
  .obj (names.map fun name => (name, .str "[2]f32"))

/-- Writer 0 declares two vector columns and waits. -/
def twoColumnsQueued : BufferState (Fin 2) :=
  (BufferState.enqueue {} {} 0 { schemaPatch := some (vectorColumns ["u", "v"]) }).1

/-- A row and one vector column too many. -/
def thirdColumn : WriteRequest :=
  { upserts := [⟨"x", ∅⟩], schemaPatch := some (vectorColumns ["w"]) }

theorem thirdColumn_changes_queue :
    (twoColumnsQueued.enqueue {} 1 thirdColumn).1.toPending ≠ twoColumnsQueued.toPending := by
  have hrejected : (twoColumnsQueued.enqueue {} 1 thirdColumn).2
      = .error "namespace schema has 3 vector fields; maximum is 2" := by
    decide +kernel
  exact BufferState.rejected_write_leaves_trace (Prod.ext rfl hrejected)

/-- The rejected row is in the entry of the next flush, the accepted schema patch
is not, and writer 0 still waits for it. -/
theorem thirdColumn_row_committed :
    (twoColumnsQueued.enqueue {} 1 thirdColumn).2
        = .error "namespace schema has 3 vector fields; maximum is 2" ∧
      twoColumnsQueued.schemaPatch = some (vectorColumns ["u", "v"]) ∧
      (twoColumnsQueued.enqueue {} 1 thirdColumn).1.toPending ≠ twoColumnsQueued.toPending ∧
      (twoColumnsQueued.enqueue {} 1 thirdColumn).1.drain.2
        = some ({ upserts := [⟨"x", ∅⟩] }, [⟨{}, 0⟩]) := by
  decide +kernel

end OpenPuffer
