import OpenPuffer.Cluster.Task
import OpenPuffer.Columns
import OpenPuffer.Vector.Passes
import OpenPuffer.Vector.Publish

/-!
# Indexers of several processes

Any number of processes run `index_wal_range` on one namespace, and this module follows the
objects of one vector field through their passes.  A pass

* reads `meta.json` and returns if there is nothing to index,
* loads the index of the field, one GET per object,
* computes the new index from the entries it covers,
* publishes it, one PUT per object,
* reads `meta.json` again and returns if another pass was faster,
* reads it once more and replaces it by a conditional PUT.

Only the conditional PUT orders the passes, and it comes last.  Meanwhile other processes append
to the log and compact it; of both only the change of `meta.json` is kept.  A GET may fail, which
ends the pass.  Of the indexes of other fields only the dimensions matter, which a call brings
along.
-/

namespace OpenPuffer

/-! ## The fields of a pass -/

/-- The first vector field of the schema, or else the first attribute of a
document that decodes as a vector. -/
def primaryVectorField (o : IterOrder String) (schema : Json) (sample : Option Document) :
    Option String :=
  match vectorFieldsFromSchema schema with
  | field :: _ => some field
  | [] =>
    sample.bind fun doc =>
      ((HashMap.iter o doc.attributes).find? fun e => (decodeVectorValue e.2).isOk).map Prod.fst

def vectorFieldsToIndex (o : IterOrder String) (schema : Json) (m : NamespaceMeta)
    (sample : Option Document) : List String :=
  let listed := m.vectorFields.map VectorFieldConfig.name
  let fields :=
    (if listed.isEmpty then vectorFieldsFromSchema schema else listed).take maxVectorFields
  if fields.isEmpty then
    if m.vectorField ≠ "" then [m.vectorField] else (primaryVectorField o schema sample).toList
  else fields

/-! ## Passes -/

/-- The settings of a pass, the orders in which it happens to see hash maps, and
the dimensions of the other indexes it builds. -/
structure PassCall where
  maxSegments : Option Nat := none
  env : LoadEnv := {}
  deltaOrder : IterOrder String := .sorted String
  sampleOrder : IterOrder String := .sorted String
  clusterOrder : IterOrder Nat := .sorted Nat
  docOrder : IterOrder String := .sorted String
  putOrder : PutOrder := {}
  others : String → Option Nat := fun _ => none

def PassCall.toIndexCall (call : PassCall) : IndexCall where
  maxSegments := call.maxSegments
  annVersion := call.env.annBuild.annVersion

/-- An object that a load reads after the coarse table. -/
inductive LoadKey where
  | l1 (coarseId : Nat)
  | cluster (fineId : Nat)

/-- A pass before its next request.  `m` is the metadata it read at its start. -/
inductive PassTask where
  | idle
  | reading (call : PassCall) (attempt : Nat)
  | opening (call : PassCall) (attempt : Nat) (m : NamespaceMeta)
  | loading (call : PassCall) (attempt : Nat) (m : NamespaceMeta) (got : VectorIndex)
      (todo : List LoadKey)
  | publishing (call : PassCall) (attempt : Nat) (m : NamespaceMeta) (vindex : VectorIndex)
  | writing (call : PassCall) (attempt : Nat) (m : NamespaceMeta) (dimensions : Nat)
      (todo : List VectorPut)
  | rechecking (call : PassCall) (attempt : Nat) (plan : IndexPlan)
  | locked (call : PassCall) (attempt : Nat) (plan : IndexPlan)
  | committing (call : PassCall) (attempt : Nat) (read : NamespaceMeta × Nat)
      (newMeta : NamespaceMeta)

/-- What the processes share: `meta.json`, the committed entries and the objects
of the field. -/
structure FieldStore where
  metaJson : Cell NamespaceMeta := .absent
  log : List WalEntry := []
  objs : VectorObjects := {}

namespace FieldStore

/-- The stored metadata, the default for an absent object. -/
def stored (sh : FieldStore) : NamespaceMeta := MetaRead.metaOrDefault sh.metaJson.current

def entries (sh : FieldStore) (call : PassCall) (m : NamespaceMeta) : List WalEntry :=
  (sh.log.take (indexTo call.toIndexCall m)).drop m.indexCursor

/-- The documents at a commit point. -/
def docsAt (sh : FieldStore) (seq : Nat) : DocMap := replay (sh.log.take seq)

/-- The upserts and deletes of a pass.  What it streams into its segments is this
delta (`streamIndexDelta_eq`). -/
def delta (sh : FieldStore) (call : PassCall) (m : NamespaceMeta) : List Document × List String :=
  indexDeltaFromWalEntries call.deltaOrder (sh.docsAt m.indexCursor) (sh.entries call m)

end FieldStore

/-- Add an object to a load if it is there. -/
def VectorObjects.getInto (objs : VectorObjects) (got : VectorIndex) : LoadKey → VectorIndex
  | .l1 coarseId =>
    match objs.l1.lookup coarseId with
    | none => got
    | some segment => { got with l1 := got.l1.insert coarseId segment }
  | .cluster fineId =>
    match objs.clusters.lookup fineId with
    | none => got
    | some segment => { got with clusters := got.clusters.insert fineId segment }

/-- The objects that the coarse table asks for. -/
def CentroidIndexL0.loadKeys (l0 : CentroidIndexL0) : List LoadKey :=
  (List.range l0.numCoarse).map .l1 ++ (List.range l0.numFineTotal).map .cluster

def PassTask.retry (call : PassCall) (attempt : Nat) : PassTask :=
  if attempt + 1 < metaRetries then .reading call (attempt + 1) else .idle

section Field

variable (q : Quantizer) (field : String)

/-- The columns that a pass passes on; `own` is the dimension of the field's
index if the pass has published one. -/
def FieldStore.plan (sh : FieldStore) (call : PassCall) (m : NamespaceMeta) (own : Option Nat) :
    IndexPlan where
  toSeq := indexTo call.toIndexCall m
  vectorFields :=
    indexedVectorFields m (indexTo call.toIndexCall m)
      ((vectorFieldsToIndex call.sampleOrder m.schema m (sh.delta call m).1.head?).filterMap
        fun name => (if name = field then own else call.others name).map fun dims => (name, dims))

/-- What a pass makes of the index it loaded. -/
def FieldStore.indexed (sh : FieldStore) (call : PassCall) (m : NamespaceMeta)
    (loaded : VectorIndex) : Except String VectorIndex := do
  let toSeq := indexTo call.toIndexCall m
  let p : PassInput :=
    { entries := sh.entries call m
      toSeq
      schema := m.schema
      distanceMetric := m.distanceMetric
      annBuild := call.env.annBuild
      clusterOrder := call.clusterOrder
      docOrder := call.docOrder }
  let vindex ← loaded.indexDelta q field p (sh.docsAt toSeq) (sh.delta call m).1 (sh.delta call m).2
  .ok (if vindex.l0.numFineTotal > 0 then vindex.setSegmentId toSeq else vindex)

/-- The next request of a pass, and the steps up to the one after it. -/
def PassTask.next (sh : FieldStore) : PassTask → FieldStore × PassTask
  | .idle => (sh, .idle)
  | .reading call attempt =>
    match sh.metaJson.current with
    | none => (sh, .idle)
    | some (m, _) =>
      if m.indexCursor ≥ m.walCommitSeq then (sh, .idle) else (sh, .opening call attempt m)
  | .opening call attempt m =>
    if field ∈ vectorFieldsToIndex call.sampleOrder m.schema m (sh.delta call m).1.head? then
      match loadVectorL0ForField call.env m field sh.objs {} with
      | none => (sh, .loading call attempt m {} [])
      | some l0 =>
        if l0.numFineTotal = 0 then (sh, .loading call attempt m {} [])
        else (sh, .loading call attempt m { l0 } l0.loadKeys)
    else (sh, .rechecking call attempt (sh.plan field call m none))
  | .loading call attempt m got (key :: todo) =>
    (sh, .loading call attempt m (sh.objs.getInto got key) todo)
  | .loading call attempt m got [] =>
    match sh.indexed q field call m got with
    | .error _ => (sh, .idle)
    | .ok vindex => (sh, .publishing call attempt m vindex)
  | .publishing call attempt m vindex =>
    if vindex.l0.numFineTotal > 0 then
      (sh, .writing call attempt m vindex.l0.dimensions (vindex.writeVectorIndex call.putOrder))
    else (sh, .rechecking call attempt (sh.plan field call m none))
  | .writing call attempt m dims (put :: todo) =>
    ({ sh with objs := sh.objs.put put }, .writing call attempt m dims todo)
  | .writing call attempt m dims [] =>
    (sh, .rechecking call attempt (sh.plan field call m (some dims)))
  | .rechecking call attempt plan =>
    match sh.metaJson.current with
    | none => (sh, .idle)
    | some (m, _) =>
      if m.indexCursor ≥ m.walCommitSeq then (sh, .idle)
      else if m.indexCursor ≥ plan.toSeq then (sh, .idle)
      else if plan.toSeq > m.walCommitSeq then (sh, .retry call attempt)
      else (sh, .locked call attempt plan)
  | .locked call attempt plan =>
    match sh.metaJson.current with
    | none => (sh, .idle)
    | some found =>
      if found.1.indexCursor ≥ plan.toSeq then (sh, .idle)
      else if plan.toSeq > found.1.walCommitSeq then (sh, .retry call attempt)
      else
        match metaAfterIndexCommit found.1 plan.toSeq plan.toSeq plan.toSeq plan.vectorFields
            call.env.annBuild.annVersion with
        | .error _ => (sh, .idle)
        | .ok newMeta => (sh, .committing call attempt found newMeta)
  | .committing call attempt read newMeta =>
    if sh.metaJson.Matches (some read) then
      ({ sh with metaJson := sh.metaJson.put newMeta }, .idle)
    else (sh, .retry call attempt)

end Field

/-! ## Runs -/

/-- The shared objects and a pass, or none, in each process. -/
structure Indexers (P : Type) where
  shared : FieldStore := {}
  tasks : P → PassTask := fun _ => .idle

inductive IndexersAction (P : Type) where
  /-- A process starts a pass. -/
  | begin (p : P) (call : PassCall)
  /-- A process sends the next request of its pass. -/
  | advance (p : P)
  /-- An append moves the commit point. -/
  | append (call : AppendCall)
  /-- A compaction records a snapshot at the cursor. -/
  | compact
  /-- A GET of a pass fails. -/
  | fail (p : P)

def PassTask.isIdle : PassTask → Bool
  | .idle => true
  | _ => false

/-- The next request is a GET. -/
def PassTask.gets : PassTask → Bool
  | .reading .. | .opening .. | .loading .. | .rechecking .. | .locked .. => true
  | .idle | .publishing .. | .writing .. | .committing .. => false

namespace Indexers

variable {P : Type}

/-- No pass is in progress. -/
def Quiet (s : Indexers P) : Prop := ∀ p, s.tasks p = .idle

end Indexers

def FieldStore.append (sh : FieldStore) (call : AppendCall) : Option FieldStore :=
  match metaAfterWalCommitOptions sh.stored (nextWalSeq sh.stored) call.schemaPatch
      call.distanceMetric with
  | .error _ => none
  | .ok m => some { sh with metaJson := sh.metaJson.put m, log := sh.log ++ [call.entry] }

def FieldStore.compact (sh : FieldStore) : Option FieldStore :=
  match sh.metaJson.current with
  | none => none
  | some (m, _) =>
    if needsWalCompaction m then
      some { sh with metaJson := sh.metaJson.put { m with walSnapshotSeq := m.indexCursor } }
    else none

/-- The processes, following one vector field. -/
def indexers {P : Type} [DecidableEq P] (q : Quantizer) (field : String) :
    Machine (Indexers P) (IndexersAction P) where
  step s
    | .begin p call =>
      if (s.tasks p).isIdle then
        some { s with tasks := Function.update s.tasks p (.reading call 0) }
      else none
    | .advance p =>
      if (s.tasks p).isIdle then none
      else
        let (shared, task) := (s.tasks p).next q field s.shared
        some { shared, tasks := Function.update s.tasks p task }
    | .append call => (s.shared.append call).map fun shared => { s with shared }
    | .compact => s.shared.compact.map fun shared => { s with shared }
    | .fail p =>
      if (s.tasks p).gets then some { s with tasks := Function.update s.tasks p .idle } else none

end OpenPuffer
