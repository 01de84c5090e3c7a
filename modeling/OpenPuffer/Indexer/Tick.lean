import OpenPuffer.Cluster.Task

/-!
# One tick of the background indexer

A tick reads the metadata of every namespace, queues those that have work, largest backlog
first, gives each of them one index pass, and compacts the logs of those that are caught up.
An error of a pass is caught, any other ends the tick.

What other tasks do while the tick waits for the store is an argument (`TickEnv.moves`), and so
is the time that a pass takes and how far one that is cut off has come (`PassRun`).
-/

namespace OpenPuffer

/-! ## Reading `meta.json` -/

/-- What one attempt to read a `meta.json` gives. -/
inductive MetaReply where
  /-- A service error, or an object that can be parsed. -/
  | answer (reply : Except ServiceError (NamespaceMeta × Nat))
  /-- The body cannot be read. -/
  | bodyFailed
  /-- The body is not the JSON of a metadata record. -/
  | garbled

/-- The attempt fails. -/
def MetaReply.fails : MetaReply → Bool
  | .answer (.ok _) => false
  | .answer (.error _) | .bodyFailed | .garbled => true

/-- What an attempt returns. -/
def MetaReply.result (key : String) : MetaReply → Except String MetaRead
  | .answer reply => getMetaJson key reply
  | .bodyFailed => .error "read object body"
  | .garbled => .error "parse json object"

/-- The first success of a number of attempts, or the last error. -/
def getMetaAttempts (key : String) (reply : Nat → MetaReply) (attempt : Nat) :
    Nat → Except String MetaRead
  | 0 => (reply attempt).result key
  | more + 1 =>
    match (reply attempt).result key with
    | .ok found => .ok found
    | .error _ => getMetaAttempts key reply (attempt + 1) more

/-- `get_meta_json` with its retries. -/
def getMetaWithRetry (key : String) (reply : Nat → MetaReply) : Except String MetaRead :=
  getMetaAttempts key reply 0 (getRetries - 1)

/-- The stored metadata. -/
inductive MetaObject where
  | readable (m : NamespaceMeta)
  /-- The namespace has objects and no `meta.json`. -/
  | missing
  /-- Every attempt to read it fails, each in its own way. -/
  | unreadable (reply : Nat → MetaReply) (fails : ∀ i, (reply i).fails = true)

/-- The replies to successive attempts.  The tag does not matter here. -/
def MetaObject.reply : MetaObject → Nat → MetaReply
  | .readable m => fun _ => .answer (.ok (m, 0))
  | .missing => fun _ => .answer (.error .noSuchKey)
  | .unreadable reply _ => reply

/-- `fetch_meta`, without the tag. -/
def MetaObject.fetch (ns : String) (o : MetaObject) : Except String (Option NamespaceMeta) :=
  (getMetaWithRetry (metaKey ns) o.reply).map fun found => found.map Prod.fst

/-! ## Scheduling -/

/-- Milliseconds that a pass may take when several namespaces compete. -/
def maxIndexTimePerNsPerTick : Nat := 2000

/-- Backlog that gets two segments a tick. -/
def highIndexLagSegments : Nat := 4

/-- Backlog that gets a burst. -/
def burstIndexLagSegments : Nat := 8

/-- Segments of a burst. -/
def maxSegmentsBurstPerTick : Nat := 8

/-- The cursor is behind the commit counter. -/
def needsIndexing (m : NamespaceMeta) : Bool := m.indexCursor < m.walCommitSeq

/-- How far behind. -/
def unindexedWalSegments (m : NamespaceMeta) : Nat :=
  if m.walCommitSeq ≤ m.indexCursor then 0 else m.walCommitSeq - m.indexCursor

/-- What the scheduler sorts by. -/
def indexSchedulingLag (m : NamespaceMeta) : Nat := unindexedWalSegments m

/-- Segments that a pass may index. -/
def segmentsPerBackgroundTick (lag competing : Nat) : Nat :=
  if lag = 0 then 1
  else if competing ≤ 1 ∨ burstIndexLagSegments ≤ lag then
    max 1 (min lag maxSegmentsBurstPerTick)
  else if highIndexLagSegments ≤ lag then 2
  else 1

/-- Milliseconds that a pass may take. -/
def backgroundTickTimeLimit (lag competing : Nat) : Option Nat :=
  if competing ≤ 1 ∨ burstIndexLagSegments ≤ lag then none else some maxIndexTimePerNsPerTick

/-- Largest backlog first; names with the same lag keep their order. -/
def sortNamespacesByIndexLag (names : List String) (lag : HashMap String Nat) : List String :=
  names.insertionSort fun a b => lag.getOr 0 b ≤ lag.getOr 0 a

/-! ## The state of the indexer -/

/-- What another task does while the tick waits. -/
inductive Move where
  /-- A writer commits one WAL entry. -/
  | commit (ns : String)
  | wake (ns : String)
deriving DecidableEq

/-- How far a pass has come when it is cut off. -/
inductive PassProgress where
  | beforeCommit
  | committed
  | compacted
deriving DecidableEq

/-- One index pass: the milliseconds that it takes, and how far it has come if it is
cut off. -/
structure PassRun where
  duration : Nat
  progress : PassProgress := .beforeCommit

/-- What a tick does not decide itself. -/
structure TickEnv where
  /-- The moves of others at every time that the tick waits. -/
  moves : Nat → List Move
  /-- The pass over a namespace in this tick. -/
  pass : String → PassRun
  /-- The order in which a hash set yields names. -/
  order : IterOrder String

/-- The bucket and the work queue. -/
structure IndexerState where
  /-- The namespaces with objects. -/
  store : HashMap String MetaObject := ∅
  queue : List String := []
  queued : Finset String := ∅
  /-- How often the tick has waited. -/
  clock : Nat := 0

namespace IndexerState

/-- Store a metadata record. -/
def setMeta (s : IndexerState) (ns : String) (m : NamespaceMeta) : IndexerState :=
  { s with store := s.store.insert ns (.readable m) }

/-- A writer reads the metadata, so an unreadable one is not written. -/
def commit (s : IndexerState) (ns : String) : IndexerState :=
  match s.store.lookup ns with
  | some (.readable m) => s.setMeta ns { m with walCommitSeq := m.walCommitSeq + 1 }
  | some (.unreadable _ _) => s
  | some .missing | none => s.setMeta ns { walCommitSeq := 1 }

/-- Queue a namespace once. -/
def wake (s : IndexerState) (ns : String) : IndexerState :=
  if ns ∈ s.queued then s
  else { s with queued := insert ns s.queued, queue := s.queue ++ [ns] }

/-- The effect of a move. -/
def applyMove (s : IndexerState) : Move → IndexerState
  | .commit ns => s.commit ns
  | .wake ns => s.wake ns

/-- Wait once. -/
def pause (env : TickEnv) (s : IndexerState) : IndexerState :=
  (env.moves s.clock).foldl applyMove { s with clock := s.clock + 1 }

/-- `fetch_meta` on the store as it is. -/
def read (s : IndexerState) (ns : String) : Except String (Option NamespaceMeta) :=
  ((s.store.lookup ns).getD .missing).fetch ns

end IndexerState

/-! ## The tick -/

/-- The lags of some namespaces. -/
def lagMap (metas : List (String × NamespaceMeta)) : HashMap String Nat :=
  HashMap.insertAll (metas.map fun p => (p.1, indexSchedulingLag p.2)) ∅

/-- The namespace has segments to index or a log to compact. -/
def hasIndexerWork (m : NamespaceMeta) : Bool :=
  decide (0 < indexSchedulingLag m) || needsWalCompaction m

/-- What a tick returns and leaves. -/
structure TickResult where
  outcome : Except String Unit
  /-- The number of namespaces that compete. -/
  roundLen : Nat
  /-- The namespaces that `index_wal_range` was run for. -/
  ran : List String
  state : IndexerState

namespace TickEnv

variable (env : TickEnv)

/-- The metadata of the names that have one, or the first error. -/
def fetchAll :
    List String → IndexerState → Except String (List (String × NamespaceMeta)) × IndexerState
  | [], s => (.ok [], s)
  | ns :: names, s =>
    let s := s.pause env
    match s.read ns with
    | .error e => (.error e, s)
    | .ok found =>
      let (rest, s) := fetchAll names s
      (rest.map ((found.map (ns, ·)).toList ++ ·), s)

/-- The names of the namespaces that have objects, sorted. -/
def listNamespaceNames (s : IndexerState) : List String × IndexerState :=
  let s := s.pause env
  ((IterOrder.sorted String).toList s.store.keys, s)

/-- Queue the namespaces with a backlog. -/
def refreshWorkQueue (s : IndexerState) : Except String Unit × IndexerState :=
  let queued := s.queued
  let (listed, s) := env.listNamespaceNames s
  let (fetched, s) := env.fetchAll (env.order.toList (queued ∪ listed.toFinset)) s
  match fetched with
  | .error e => (.error e, s)
  | .ok metas =>
    let active := metas.filter fun p => hasIndexerWork p.2
    let queue := sortNamespacesByIndexLag (active.map Prod.fst) (lagMap active)
    (.ok (), { s with queue, queued := queue.toFinset })

/-- Record a snapshot at the cursor.  The second read and the write are under the
commit lock of the namespace. -/
def maybeCompactWal (ns : String) (s : IndexerState) : Except String Unit × IndexerState :=
  let s := s.pause env
  match s.read ns with
  | .error e => (.error e, s)
  | .ok none => (.ok (), s)
  | .ok (some m) =>
    if needsWalCompaction m then
      let s := s.pause env
      match s.read ns with
      | .error e => (.error e, s)
      | .ok none => (.ok (), s)
      | .ok (some m) =>
        if needsWalCompaction m then
          (.ok (), s.setMeta ns { m with walSnapshotSeq := m.indexCursor })
        else (.ok (), s)
    else (.ok (), s)

/-- Commit the new cursor and compact, as far as the pass comes. -/
def commitIndex (ns : String) (toSeq : Nat) (stop : PassProgress) (m : NamespaceMeta)
    (s : IndexerState) : IndexerState :=
  match stop with
  | .beforeCommit => s
  | .committed => s.setMeta ns { m with indexCursor := toSeq }
  | .compacted => (env.maybeCompactWal ns (s.setMeta ns { m with indexCursor := toSeq })).2

/-- The attempts of `index_wal_range`, as far as the cursor is concerned.  The indexes
are built between the first and the second read; the third read and the commit are
under the commit lock of the namespace. -/
def indexWalAttempts (ns : String) (maxSegments : Nat) (stop : PassProgress) :
    Nat → IndexerState → Except String Unit × IndexerState
  | 0, s => (.error "meta CAS failed after index retries", s)
  | attempts + 1, s =>
    let s := s.pause env
    match s.read ns with
    | .error e => (.error e, s)
    | .ok none => (.ok (), s)
    | .ok (some m) =>
      if m.walCommitSeq ≤ m.indexCursor then (.ok (), s)
      else
        let fromSeq := m.indexCursor + 1
        let toSeq := min m.walCommitSeq (fromSeq + (maxSegments - 1))
        let s := s.pause env
        match s.read ns with
        | .error e => (.error e, s)
        | .ok none => (.ok (), s)
        | .ok (some fresh) =>
          if fresh.walCommitSeq ≤ fresh.indexCursor ∨ toSeq ≤ fresh.indexCursor then
            (.ok (), s)
          else if fresh.walCommitSeq < toSeq then
            indexWalAttempts ns maxSegments stop attempts s
          else
            let s := s.pause env
            match s.read ns with
            | .error e => (.error e, s)
            | .ok none => (.ok (), s)
            | .ok (some fresh) =>
              if toSeq ≤ fresh.indexCursor then (.ok (), s)
              else if fresh.walCommitSeq < toSeq then
                indexWalAttempts ns maxSegments stop attempts s
              else (.ok (), env.commitIndex ns toSeq stop fresh s)

/-- `index_wal_range`. -/
def indexWalRange (ns : String) (maxSegments : Nat) (stop : PassProgress) (s : IndexerState) :
    Except String Unit × IndexerState :=
  env.indexWalAttempts ns maxSegments stop metaRetries s

/-- The pass over a namespace takes longer than the limit. -/
def isCutOff (ns : String) (limit : Option Nat) : Bool :=
  limit.any (· < (env.pass ns).duration)

/-- How far the pass over a namespace comes. -/
def passStop (ns : String) (limit : Option Nat) : PassProgress :=
  if env.isCutOff ns limit then (env.pass ns).progress else .compacted

/-- Whether there is more work after a pass.  A namespace that is caught up is
compacted. -/
def moreWork (ns : String) (s : IndexerState) : Except String Bool × IndexerState :=
  let s := s.pause env
  match s.read ns with
  | .error e => (.error e, s)
  | .ok none => (.ok false, s)
  | .ok (some m) =>
    (.ok (needsIndexing m || needsWalCompaction m),
      if needsIndexing m then s else (env.maybeCompactWal ns s).2)

/-- Index some segments within the limit.  The result tells whether there is more work. -/
def indexNamespaceTimeboxed (ns : String) (maxSegments : Nat) (limit : Option Nat)
    (s : IndexerState) : Except String Bool × IndexerState :=
  let (result, s) := env.indexWalRange ns (max maxSegments 1) (env.passStop ns limit) s
  match result, env.isCutOff ns limit with
  | .error e, false => (.error e, s)
  | .error _, true | .ok (), _ => env.moreWork ns s

/-- Put the namespace back if there is more work.  An error means a retry. -/
def requeue (ns : String) (result : Except String Bool) (s : IndexerState) : IndexerState :=
  match result with
  | .ok false => { s with queued := s.queued.erase ns }
  | .ok true | .error _ => { s with queue := s.queue ++ [ns] }

/-- The turn of a namespace that was taken from the queue. -/
def passOver (roundLen : Nat) (lagByNs : HashMap String Nat) (ns : String) (s : IndexerState) :
    IndexerState :=
  let lag := lagByNs.getOr 0 ns
  let (result, s) := env.indexNamespaceTimeboxed ns (segmentsPerBackgroundTick lag roundLen)
    (backgroundTickTimeLimit lag roundLen) s
  requeue ns result s

/-- A number of passes, with the names of the namespaces that got one. -/
def indexRound (roundLen : Nat) (lagByNs : HashMap String Nat) :
    Nat → IndexerState → List String × IndexerState
  | 0, s => ([], s)
  | passes + 1, s =>
    match s.queue with
    | [] => ([], s)
    | ns :: queue =>
      let s := env.passOver roundLen lagByNs ns { s with queue }
      let (ran, s) := indexRound roundLen lagByNs passes s
      (ns :: ran, s)

/-- Compact every namespace that needs it.  Errors of a compaction are caught. -/
def compactAll : List String → IndexerState → Except String Unit × IndexerState
  | [], s => (.ok (), s)
  | ns :: names, s =>
    let s := s.pause env
    match s.read ns with
    | .error e => (.error e, s)
    | .ok none => compactAll names s
    | .ok (some m) =>
      compactAll names (if needsWalCompaction m then (env.maybeCompactWal ns s).2 else s)

/-- Compact where it is due. -/
def compactionPass (s : IndexerState) : Except String Unit × IndexerState :=
  let (names, s) := env.listNamespaceNames s
  env.compactAll names s

/-- One round of the background indexer. -/
def tick (s : IndexerState) : TickResult :=
  let (refreshed, s) := env.refreshWorkQueue { s with clock := 0 }
  match refreshed with
  | .error e => { outcome := .error e, roundLen := 0, ran := [], state := s }
  | .ok () =>
    let roundLen := s.queue.length
    let s := s.pause env
    let (fetched, s) := env.fetchAll s.queue s
    match fetched with
    | .error e => { outcome := .error e, roundLen, ran := [], state := s }
    | .ok metas =>
      let (ran, s) := env.indexRound roundLen (lagMap metas) roundLen s
      let (outcome, s) := env.compactionPass s
      { outcome, roundLen, ran, state := s }

end TickEnv

end OpenPuffer
