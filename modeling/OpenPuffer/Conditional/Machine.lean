import OpenPuffer.Pinned
import OpenPuffer.Filter
import OpenPuffer.Buffer.GroupCommit

/-!
# Conditional writes

A request with conditions reads the committed documents through the pinned view, lays the rows
of the buffer over them, keeps the rows whose condition holds there, and hands what is left to
the buffer.  No step holds a lock across the next one.  What the buffer has drained is
invisible until it is committed.

Besides the data of the source the state keeps which writes are queued and in flight, and the
order in which requests reached the buffer.
-/

namespace OpenPuffer

/-- The rows and conditions of a `write_documents` request. -/
structure ConditionalWrite where
  upserts : List Document := []
  patches : List Document := []
  deletes : List String := []
  upsertCondition : Option Json := none
  patchCondition : Option Json := none
  deleteCondition : Option Json := none
  returnAffectedIds : Bool := false
deriving DecidableEq

/-- A null condition is no condition. -/
def activeCondition (cond : Option Json) : Option Json := cond.filter fun v => !v.isNull

def keepRows {α : Type} (cond : Option Json) (test : FilterExpr → α → Bool) (rows : List α) :
    Except FilterError (List α) :=
  match activeCondition cond with
  | none => .ok rows
  | some v => (parseFilter v).map fun expr => rows.filter (test expr)

namespace ConditionalWrite

def unconditional (c : ConditionalWrite) : Bool :=
  (activeCondition c.upsertCondition).isNone && (activeCondition c.patchCondition).isNone &&
    (activeCondition c.deleteCondition).isNone

/-- What the request hands to the buffer after its conditions were evaluated on
`docs`, with the stats it reports. -/
def applied (c : ConditionalWrite) (docs : DocMap) : Except FilterError WriteRequest := do
  let upserts ← keepRows c.upsertCondition
    (fun expr d => shouldApplyUpsert expr (docs.get d.id) d) c.upserts
  let patches ← keepRows c.patchCondition
    (fun expr p => shouldApplyPatch expr (docs.get p.id) p) c.patches
  let deletes ← keepRows c.deleteCondition
    (fun expr id => shouldApplyDelete expr (docs.get id)) c.deletes
  .ok
    { upserts, patches, deletes
      stats :=
        { rowsUpserted := upserts.length
          rowsPatched := patches.length
          rowsDeleted := deletes.length
          upsertedIds := if c.returnAffectedIds then some (upserts.map Document.id) else none
          deletedIds := if c.returnAffectedIds then some deletes else none } }

def ids (c : ConditionalWrite) : List String :=
  c.upserts.map Document.id ++ c.patches.map Document.id ++ c.deletes

/-- The ids of the rows that have a condition. -/
def watched (c : ConditionalWrite) : List String :=
  (if (activeCondition c.upsertCondition).isSome then c.upserts.map Document.id else []) ++
    (if (activeCondition c.patchCondition).isSome then c.patches.map Document.id else []) ++
    (if (activeCondition c.deleteCondition).isSome then c.deletes else [])

end ConditionalWrite

/-! ## Requests in progress -/

/-- How far a request is. -/
inductive CondPhase where
  | idle
  /-- The request has conditions. -/
  | started (c : ConditionalWrite)
  /-- The namespace was found. -/
  | found (c : ConditionalWrite)
  /-- The committed documents were loaded. -/
  | snapshot (c : ConditionalWrite) (docs : DocMap)
  /-- The documents the conditions are evaluated on are complete. -/
  | evaluated (c : ConditionalWrite) (docs : DocMap)
  /-- The buffer has the rows that passed.  The answer comes later. -/
  | accepted (c : ConditionalWrite) (w : WriteRequest) (answer : Option CommittedBatch)
  /-- The pinned view has the batch, and the stats were reported. -/
  | published (c : ConditionalWrite) (w : WriteRequest) (answer : CommittedBatch)
  | failed (c : ConditionalWrite)

/-- The request and what it handed to the buffer. -/
def CondPhase.request : CondPhase → Option (ConditionalWrite × WriteRequest)
  | .accepted c w _ => some (c, w)
  | .published c w _ => some (c, w)
  | _ => none

def CondPhase.answer : CondPhase → Option CommittedBatch
  | .accepted _ _ answer => answer
  | .published _ _ answer => some answer
  | _ => none

def CondPhase.deliver (b : CommittedBatch) : CondPhase → CondPhase
  | .accepted c w none => .accepted c w (some b)
  | other => other

/-- A drained batch on its way to the log. -/
structure InFlight (R : Type) where
  pending : Pending
  waiters : List (WriteWaiter R)
  /-- The writes of the batch. -/
  writes : List WriteRequest

structure CondState (R : Type) where
  world : World
  view : Option NamespaceView
  buffer : BufferState R
  inFlight : Option (InFlight R)
  phase : R → CondPhase
  /-- The writes in the buffer. -/
  queued : List WriteRequest
  /-- The requests in the order in which they reached the buffer. -/
  order : List R

inductive CondAction (R : Type) where
  | start (r : R) (c : ConditionalWrite)
  /-- `namespace_exists`.  The first segment of an append counts. -/
  | existence (r : R) (found : Bool)
  /-- `load_view_snapshot`. -/
  | load (r : R) (diskCache : Bool)
  /-- `overlay_pending_writes`. -/
  | overlay (r : R)
  /-- Evaluate the conditions and enter the buffer. -/
  | enqueue (r : R)
  /-- The first section of a flush. -/
  | drain
  /-- The second section of a flush that found nothing. -/
  | release
  /-- The append of the drained batch commits. -/
  | commit (w : World)
  /-- The update of the pinned view after the answer. -/
  | publish (r : R) (refreshed : Bool)

/-- `load_view_snapshot` on the pinned view: the view afterwards, and the result. -/
def loadViewSnapshot (w : World) (diskCache : Bool) :
    Option NamespaceView → Option NamespaceView × Except String NamespaceView
  | some v =>
    match NamespaceView.catchUp w.store w.read v with
    | (v', .ok _) => (some v', .ok v')
    | (v', .error msg) => (some v', .error msg)
  | none =>
    match (if diskCache then Loader.full else .batched true).load w.store w.read with
    | .error msg => (none, .error msg)
    | .ok v =>
      match NamespaceView.catchUp w.store w.read v with
      | (v', .ok _) => (some v', .ok v')
      | (_, .error msg) => (none, .error msg)

/-- The pinned view after the writer of a batch updated it. -/
def publishedView (w : World) (b : CommittedBatch) (refreshed : Bool) :
    Option NamespaceView → Option NamespaceView
  | some v =>
    let applied := v.applyCommitted b.seq b.entry
    some (if refreshed then applied.refresh w.read else applied)
  | none => (NamespaceView.load w.store w.read).toOption

namespace CondState

variable {R : Type} [DecidableEq R]

def setPhase (s : CondState R) (r : R) (p : CondPhase) : CondState R :=
  { s with phase := Function.update s.phase r p }

/-- Answer the waiters of a batch. -/
def deliver (s : CondState R) (waiters : List (WriteWaiter R)) (seq : Nat) (e : WalEntry) :
    CondState R :=
  { s with
    phase := fun r =>
      match waiters.find? fun wt => wt.tx = r with
      | some wt => (s.phase r).deliver ⟨seq, e, wt.stats⟩
      | none => s.phase r }

def step (cfg : WriteBufferConfig) (s : CondState R) : CondAction R → Option (CondState R)
  | .start r c =>
    match s.phase r with
    | .idle => some (s.setPhase r (if c.unconditional then .evaluated c ∅ else .started c))
    | _ => none
  | .existence r found =>
    match s.phase r with
    | .started c =>
      if found then
        if s.world.read.isSome ∨ s.inFlight.isSome then some (s.setPhase r (.found c)) else none
      else if s.world.read.isNone then some (s.setPhase r (.evaluated c ∅))
      else none
    | _ => none
  | .load r diskCache =>
    match s.phase r with
    | .found c =>
      match loadViewSnapshot s.world diskCache s.view with
      | (view, .ok v) => some ({ s with view }.setPhase r (.snapshot c v.docs))
      | (view, .error _) => some ({ s with view }.setPhase r (.failed c))
    | _ => none
  | .overlay r =>
    match s.phase r with
    | .snapshot c docs =>
      some (s.setPhase r (.evaluated c (s.buffer.overlayPendingWrites docs)))
    | _ => none
  | .enqueue r =>
    match s.phase r with
    | .evaluated c docs =>
      match c.applied docs with
      | .ok w =>
        some ({ s with
          buffer := (s.buffer.enqueue cfg r w).1
          queued := s.queued ++ [w]
          order := s.order ++ [r] }.setPhase r (.accepted c w none))
      | .error _ => some (s.setPhase r (.failed c))
    | _ => none
  | .drain =>
    match s.inFlight, s.buffer.drain with
    | none, (buffer, some (pending, waiters)) =>
      some { s with buffer, inFlight := some ⟨pending, waiters, s.queued⟩, queued := [] }
    | _, _ => none
  | .release =>
    match s.inFlight, s.buffer.drainWaiters with
    | none, (buffer, waiters) => some ({ s with buffer }.deliver waiters 0 {})
    | _, _ => none
  | .commit w =>
    match s.inFlight with
    | some batch =>
      if s.world.Extends w ∧ w.log = s.world.log ++ [batch.pending.entry] then
        some ({ s with world := w, inFlight := none }.deliver batch.waiters w.log.length
          batch.pending.entry)
      else none
    | none => none
  | .publish r refreshed =>
    match s.phase r with
    | .accepted c w (some b) =>
      some ({ s with view := publishedView s.world b refreshed s.view }.setPhase r
        (.published c w b))
    | _ => none

/-- A process without requests: nothing is queued, and the pinned view, if there
is one, is not behind. -/
def start (w : World) (view : Option NamespaceView) : CondState R :=
  ⟨w, view, {}, none, fun _ => .idle, [], []⟩

end CondState

/-- The machine of one process and one namespace. -/
def conditional (R : Type) [DecidableEq R] (cfg : WriteBufferConfig) :
    Machine (CondState R) (CondAction R) := ⟨CondState.step cfg⟩

/-! ## Serial runs -/

/-- Run requests one after another.  Each hands over the rows whose condition
holds on the documents so far, and it is checked that this is what the request
is said to have handed over. -/
def serialRun (docs : DocMap) : List (ConditionalWrite × WriteRequest) → Option DocMap
  | [] => some docs
  | (c, w) :: rest =>
    if c.applied docs = .ok w then serialRun (applyEntry docs w.entry) rest else none

/-- Some serial order of the requests that reached the buffer explains what each
of them applied and reported, and what was committed. -/
def CondState.Linearizable {R : Type} (s : CondState R) (docs : DocMap) : Prop :=
  ∃ order : List R, order.Nodup ∧ (∀ r, r ∈ order ↔ (s.phase r).request.isSome) ∧
    (∃ final, serialRun docs (order.filterMap fun r => (s.phase r).request) = some final ∧
      (s.buffer.isEmpty → s.inFlight.isNone → replay s.world.log = final)) ∧
    ∀ r c w b, (s.phase r).request = some (c, w) → (s.phase r).answer = some b → b.stats = w.stats

end OpenPuffer
