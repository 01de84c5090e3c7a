import OpenPuffer.Store

/-!
# Storage tasks

`append_wal`, `index_wal_range` and `maybe_compact_wal` are loops of storage requests.  A
`Task` is such a loop stopped before its next request, and `taskStep` sends that request.

A reply is part of the schedule.  A truthful reply reports what the store did, an error may be
reported for any request, and an errored PUT or DELETE may have taken effect (`Effect`).  Of an
index pass only its reads and writes of `meta.json` are kept.
-/

namespace OpenPuffer

def MetaRead.nextSeq (read : MetaRead) : Nat := nextWalSeq read.metaOrDefault

/-! ## Replies -/

/-- What the client is told about its request. -/
inductive Reply where
  /-- What the store did. -/
  | ok
  /-- A service error; a write may have been applied all the same. -/
  | error (e : ServiceError) (applied : Bool)

def Reply.failure : Reply → Option ServiceError
  | .ok => none
  | .error e _ => some e

def Reply.applied : Reply → Bool
  | .ok => true
  | .error _ applied => applied

/-- The answer to a GET whose truthful answer is `truth`. -/
def Reply.get {α : Type} (r : Reply) (truth : Except ServiceError α) : Except ServiceError α :=
  match r with
  | .ok => truth
  | .error e _ => .error e

/-- The error a conditional PUT reports, if any; `hit` says that its condition
holds. -/
def Reply.failureIf (r : Reply) (hit : Bool) : Option ServiceError :=
  match r with
  | .ok => if hit then none else some .preconditionFailed
  | .error e _ => some e

/-- A conflict that a loop answers by another attempt. -/
def ServiceError.retries (e : ServiceError) (attempt : Nat) : Bool :=
  e.code = some "PreconditionFailed" && attempt + 1 < metaRetries

/-- One GET of `meta.json`. -/
def fetchMeta (ns : String) (st : Store) (r : Reply) : Except String MetaRead :=
  getMetaJson (metaKey ns) (r.get st.getMeta)

theorem fetchMeta_ok (ns : String) (st : Store) :
    fetchMeta ns st .ok = .ok st.metaJson.current :=
  getMetaJson_getMeta (metaKey ns) st

variable {ns : String} {st : Store} {r : Reply}

/-- A GET of `meta.json` that succeeds reads the stored version, unless a fault
is taken for an absent object. -/
theorem fetchMeta_eq_ok {read : MetaRead} (h : fetchMeta ns st r = .ok read) :
    read = st.metaJson.current ∨ read = none := by
  cases r with
  | ok =>
    rw [fetchMeta_ok] at h
    cases h
    exact Or.inl rfl
  | error e applied =>
    simp only [fetchMeta, Reply.get, getMetaJson] at h
    repeat' split at h
    all_goals first
      | cases h; exact Or.inr rfl
      | cases h

theorem fetchMeta_eq_some {found : NamespaceMeta × Nat} (h : fetchMeta ns st r = .ok (some found)) :
    st.metaJson.current = some found := by
  rcases fetchMeta_eq_ok h with hcur | hnone
  · exact hcur.symm
  · cases hnone

theorem seen_of_fetchMeta {read : MetaRead} (h : fetchMeta ns st r = .ok read) :
    st.metaJson.Seen read := by
  rcases fetchMeta_eq_ok h with rfl | rfl
  · exact st.metaJson.seen_current
  · intro a t h
    cases h

def fetchSnapshot (ns : String) (st : Store) (r : Reply) : Except String (Option WalSnapshot) :=
  readWalSnapshot (snapshotKey ns) (r.get st.getSnapshot)

theorem fetchSnapshot_eq_ok {snapshot : Option WalSnapshot}
    (h : fetchSnapshot ns st r = .ok snapshot) : snapshot = st.snapshot ∨ snapshot = none := by
  cases r with
  | ok =>
    simp only [fetchSnapshot, Reply.get, readWalSnapshot_getSnapshot] at h
    cases h
    exact Or.inl rfl
  | error e applied =>
    simp only [fetchSnapshot, Reply.get, readWalSnapshot] at h
    split at h
    · cases h
      exact Or.inr rfl
    · cases h

/-! ## What the tasks carry -/

/-- The arguments of `append_wal`. -/
structure AppendCall where
  entry : WalEntry
  schemaPatch : Option Json := none
  distanceMetric : Option DistanceMetric := none

/-- The metadata an append is about to store, computed from what it read. -/
structure PreparedCommit (c : AppendCall) where
  read : MetaRead
  newMeta : NamespaceMeta
  prepared : metaAfterWalCommitOptions read.metaOrDefault read.nextSeq c.schemaPatch
    c.distanceMetric = .ok newMeta

/-- The arguments of `index_wal_range`. -/
structure IndexCall where
  maxSegments : Option Nat := none
  annVersion : Nat := annVersionV2

/-- What one attempt of an index pass has built. -/
structure IndexPlan where
  toSeq : Nat
  vectorFields : List VectorFieldConfig

/-- The metadata an index pass is about to store. -/
structure PreparedIndex where
  read : NamespaceMeta × Nat
  newMeta : NamespaceMeta
  prepared : ∃ plan : IndexPlan, ∃ ann, metaAfterIndexCommit read.1 plan.toSeq plan.toSeq
    plan.toSeq plan.vectorFields ann = .ok newMeta

/-- Metadata that asks for a compaction. -/
structure CompactionRead where
  found : NamespaceMeta × Nat
  needed : needsWalCompaction found.1 = true

def CompactionRead.cursor (read : CompactionRead) : Nat := read.found.1.indexCursor

def CompactionRead.newMeta (read : CompactionRead) : NamespaceMeta :=
  { read.found.1 with walSnapshotSeq := read.cursor }

/-- A loop before its next request.  `attempt` counts the rounds of the loop and
`tries` the failed requests of a `_with_retry` helper. -/
inductive Task where
  | idle
  -- append_wal
  | appendGet (c : AppendCall) (attempt tries : Nat)
  | appendPutWal (c : AppendCall) (attempt tries : Nat) (read : MetaRead)
  | appendPutMeta (c : AppendCall) (attempt : Nat) (prep : PreparedCommit c)
  | appendDelete (c : AppendCall) (attempt seq : Nat)
  -- index_wal_range
  | indexGet (call : IndexCall) (attempt tries : Nat)
  | indexRecheck (call : IndexCall) (attempt tries : Nat) (plan : IndexPlan)
  | indexLock (call : IndexCall) (attempt : Nat) (plan : IndexPlan)
  | indexGetLocked (call : IndexCall) (attempt tries : Nat) (plan : IndexPlan)
  | indexPutMeta (call : IndexCall) (attempt : Nat) (prep : PreparedIndex)
  -- maybe_compact_wal
  | compactCheck (tries : Nat)
  | compactLock
  | compactGet (attempt tries : Nat)
  | compactGetSnapshot (attempt : Nat) (read : CompactionRead)
  | compactGetWal (attempt : Nat) (read : CompactionRead) (docs : DocMap) (seq : Nat)
  | compactPutSnapshot (attempt : Nat) (read : CompactionRead) (docs : DocMap)
  | compactPutMeta (attempt : Nat) (read : CompactionRead)
  | compactDelete (seqs : List Nat)

/-- The task is inside the commit lock of its process. -/
def Task.holdsLock : Task → Bool
  | .appendGet .. | .appendPutWal .. | .appendPutMeta .. | .appendDelete .. => true
  | .indexGetLocked .. | .indexPutMeta .. => true
  | .compactGet .. | .compactGetSnapshot .. | .compactGetWal .. => true
  | .compactPutSnapshot .. | .compactPutMeta .. | .compactDelete .. => true
  | .idle | .indexGet .. | .indexRecheck .. | .indexLock .. => false
  | .compactCheck .. | .compactLock => false

/-- What a task that waits for the commit lock does once it has it. -/
def Task.acquired : Task → Option Task
  | .indexLock call attempt plan => some (.indexGetLocked call attempt 0 plan)
  | .compactLock => some (.compactGet 0 0)
  | _ => none

def Task.sends : Task → Bool
  | .idle | .indexLock .. | .compactLock => false
  | _ => true

/-! ## Effects -/

/-- What a request does to the objects of the namespace. -/
inductive Effect where
  | none
  /-- An append stores its segment. -/
  | putWal (seq : Nat) (e : WalEntry)
  /-- An append that lost the commit point deletes the segment it stored. -/
  | undoWal (seq : Nat)
  /-- An append moves the commit point. -/
  | commit (m : NamespaceMeta) (e : WalEntry)
  /-- Another writer replaces `meta.json`. -/
  | putMeta (m : NamespaceMeta)
  | putSnapshot (snap : WalSnapshot)
  /-- A compaction deletes a segment. -/
  | deleteWal (seq : Nat)

def Effect.onlyIf (eff : Effect) (b : Bool) : Effect := if b then eff else .none

/-- The store with `wal/{seq}` replaced. -/
def Store.setWal (st : Store) (seq : Nat) (e : Option WalEntry) : Store :=
  { st with wal := Function.update st.wal seq e }

def Store.putMeta (st : Store) (m : NamespaceMeta) : Store :=
  { st with metaJson := st.metaJson.put m }

def Store.apply (st : Store) : Effect → Store
  | .none => st
  | .putWal seq e => st.setWal seq (some e)
  | .undoWal seq => st.setWal seq Option.none
  | .commit m _ => st.putMeta m
  | .putMeta m => st.putMeta m
  | .putSnapshot snap => { st with snapshot := some snap }
  | .deleteWal seq => st.setWal seq Option.none

@[simp] theorem Store.wal_setWal (st : Store) (seq k : Nat) (e : Option WalEntry) :
    (st.setWal seq e).wal k = if k = seq then e else st.wal k := by
  simp [Store.setWal, Function.update_apply]

@[simp] theorem Store.commitSeq_setWal (st : Store) (seq : Nat) (e : Option WalEntry) :
    (st.setWal seq e).commitSeq = st.commitSeq := rfl

@[simp] theorem Store.wal_putMeta (st : Store) (m : NamespaceMeta) :
    (st.putMeta m).wal = st.wal := rfl

@[simp] theorem Store.commitSeq_putMeta (st : Store) (m : NamespaceMeta) :
    (st.putMeta m).commitSeq = m.walCommitSeq := rfl

def Effect.committed : Effect → List WalEntry
  | .commit _ e => [e]
  | _ => []

/-- A task after a request: its effect, how the task goes on, and what it
returns to its caller when it is an append that succeeded. -/
structure Outcome where
  effect : Effect := .none
  task : Task
  acked : Option (Nat × WalEntry) := none

/-! ## The loops -/

def getRetries : Nat := 4

def putRetries : Nat := 4

/-- After `put_wal_with_retry`: the new metadata, or the error that ends the
call and leaves the segment behind. -/
def prepareCommit (c : AppendCall) (attempt : Nat) (read : MetaRead) : Task :=
  match h : metaAfterWalCommitOptions read.metaOrDefault read.nextSeq c.schemaPatch
      c.distanceMetric with
  | .ok newMeta => .appendPutMeta c attempt ⟨read, newMeta, h⟩
  | .error _ => .idle

/-- The next round of an index pass. -/
def indexContinue (call : IndexCall) (attempt : Nat) : Task :=
  if attempt + 1 < metaRetries then .indexGet call (attempt + 1) 0 else .idle

/-- The last segment an index pass takes. -/
def indexTo (call : IndexCall) (m : NamespaceMeta) : Nat :=
  match call.maxSegments with
  | some n => min m.walCommitSeq (saturatingAdd (saturatingAdd m.indexCursor 1) (n - 1))
  | none => m.walCommitSeq

/-- A pass covers at least one segment and none beyond the commit point. -/
theorem indexTo_bounds {m : NamespaceMeta} (hbehind : m.indexCursor < m.walCommitSeq)
    (hmax : m.walCommitSeq ≤ u64Max) (call : IndexCall) :
    m.indexCursor < indexTo call m ∧ indexTo call m ≤ m.walCommitSeq := by
  rw [indexTo]
  split
  · simp only [saturatingAdd]
    omega
  · exact ⟨hbehind, Nat.le_refl _⟩

def prepareIndex (call : IndexCall) (attempt : Nat) (plan : IndexPlan)
    (found : NamespaceMeta × Nat) : Task :=
  match h : metaAfterIndexCommit found.1 plan.toSeq plan.toSeq plan.toSeq plan.vectorFields
      call.annVersion with
  | .ok newMeta => .indexPutMeta call attempt ⟨found, newMeta, plan, call.annVersion, h⟩
  | .error _ => .idle

/-- `docs_at_index_cursor` between two segments. -/
def compactReplay (attempt : Nat) (read : CompactionRead) (docs : DocMap) (seq : Nat) : Task :=
  if seq ≤ read.cursor then .compactGetWal attempt read docs seq
  else .compactPutSnapshot attempt read docs

/-- `get_meta_with_retry` after a failed request. -/
def retryGet (tries : Nat) (again : Task) : Outcome :=
  { task := if tries + 1 < getRetries then again else .idle }

/-- Send the next request of a task.  `built` are the vector indexes an index
pass finds something to build for. -/
def taskStep (ns : String) (st : Store) (r : Reply) (built : List (String × Nat)) :
    Task → Outcome
  | .idle => { task := .idle }
  | .appendGet c attempt tries =>
    match fetchMeta ns st r with
    | .ok read => { task := .appendPutWal c attempt 0 read }
    | .error _ => retryGet tries (.appendGet c attempt (tries + 1))
  | .appendPutWal c attempt tries read =>
    { effect := Effect.onlyIf (.putWal read.nextSeq c.entry) r.applied
      task :=
        match r.failure with
        | none => prepareCommit c attempt read
        | some _ =>
          if tries + 1 < putRetries then .appendPutWal c attempt (tries + 1) read
          else .idle }
  | .appendPutMeta c attempt prep =>
    let hit := decide (st.metaJson.Matches prep.read)
    { effect := Effect.onlyIf (.commit prep.newMeta c.entry) (r.applied && hit)
      task :=
        match r.failureIf hit with
        | none => .idle
        | some e =>
          if e.retries attempt then .appendDelete c attempt prep.read.nextSeq else .idle
      acked :=
        match r.failureIf hit with
        | none => some (prep.read.nextSeq, c.entry)
        | some _ => none }
  | .appendDelete c attempt seq =>
    { effect := Effect.onlyIf (.undoWal seq) r.applied
      task := .appendGet c (attempt + 1) 0 }
  | .indexGet call attempt tries =>
    match fetchMeta ns st r with
    | .ok (some (m, _)) =>
      if m.indexCursor ≥ m.walCommitSeq then { task := .idle }
      else
        let toSeq := indexTo call m
        { task := .indexRecheck call attempt 0 ⟨toSeq, indexedVectorFields m toSeq built⟩ }
    | .ok none => { task := .idle }
    | .error _ => retryGet tries (.indexGet call attempt (tries + 1))
  | .indexRecheck call attempt tries plan =>
    match fetchMeta ns st r with
    | .ok (some (m, _)) =>
      if m.indexCursor ≥ m.walCommitSeq then { task := .idle }
      else if m.indexCursor ≥ plan.toSeq then { task := .idle }
      else if plan.toSeq > m.walCommitSeq then { task := indexContinue call attempt }
      else { task := .indexLock call attempt plan }
    | .ok none => { task := .idle }
    | .error _ => retryGet tries (.indexRecheck call attempt (tries + 1) plan)
  | .indexLock call attempt plan => { task := .indexLock call attempt plan }
  | .indexGetLocked call attempt tries plan =>
    match fetchMeta ns st r with
    | .ok (some found) =>
      if found.1.indexCursor ≥ plan.toSeq then { task := .idle }
      else if plan.toSeq > found.1.walCommitSeq then { task := indexContinue call attempt }
      else { task := prepareIndex call attempt plan found }
    | .ok none => { task := .idle }
    | .error _ => retryGet tries (.indexGetLocked call attempt (tries + 1) plan)
  | .indexPutMeta call attempt prep =>
    let hit := decide (st.metaJson.Matches (some prep.read))
    { effect := Effect.onlyIf (.putMeta prep.newMeta) (r.applied && hit)
      task :=
        match r.failureIf hit with
        | none => .compactCheck 0
        | some e => if e.retries attempt then .indexGet call (attempt + 1) 0 else .idle }
  | .compactCheck tries =>
    match fetchMeta ns st r with
    | .ok (some (m, _)) =>
      if needsWalCompaction m then { task := .compactLock } else { task := .idle }
    | .ok none => { task := .idle }
    | .error _ => retryGet tries (.compactCheck (tries + 1))
  | .compactLock => { task := .compactLock }
  | .compactGet attempt tries =>
    match fetchMeta ns st r with
    | .ok (some found) =>
      if h : needsWalCompaction found.1 = true then
        { task := .compactGetSnapshot attempt ⟨found, h⟩ }
      else { task := .idle }
    | .ok none => { task := .idle }
    | .error _ => retryGet tries (.compactGet attempt (tries + 1))
  | .compactGetSnapshot attempt read =>
    match fetchSnapshot ns st r with
    | .ok snapshot =>
      let (docs, replayFrom) := cursorBaseline snapshot read.cursor
      { task := compactReplay attempt read docs replayFrom }
    | .error _ => { task := .idle }
  | .compactGetWal attempt read docs seq =>
    match r.failure, st.wal seq with
    | none, some e => { task := compactReplay attempt read (applyEntry docs e) (seq + 1) }
    | _, _ => { task := .idle }
  | .compactPutSnapshot attempt read docs =>
    { effect := Effect.onlyIf (.putSnapshot (.fromDocs read.cursor docs)) r.applied
      task :=
        match r.failure with
        | none => .compactPutMeta attempt read
        | some _ => .idle }
  | .compactPutMeta attempt read =>
    let hit := decide (st.metaJson.Matches (some read.found))
    { effect := Effect.onlyIf (.putMeta read.newMeta) (r.applied && hit)
      task :=
        match r.failureIf hit with
        | none => .compactDelete (walSeqsToDelete read.cursor walCompactKeep)
        | some e => if e.retries attempt then .compactGet (attempt + 1) 0 else .idle }
  | .compactDelete [] => { task := .idle }
  | .compactDelete (seq :: rest) =>
    { effect := Effect.onlyIf (.deleteWal seq) r.applied
      task := .compactDelete rest }

/-! ## What a request can do -/

inductive Task.Writes (st : Store) : Task → Effect → Prop where
  | putWal {c attempt tries read} :
      Writes st (.appendPutWal c attempt tries read) (.putWal read.nextSeq c.entry)
  | commit {c attempt} {prep : PreparedCommit c} : st.metaJson.Matches prep.read →
      Writes st (.appendPutMeta c attempt prep) (.commit prep.newMeta c.entry)
  | undoWal {c attempt seq} : Writes st (.appendDelete c attempt seq) (.undoWal seq)
  | index {call attempt} {prep : PreparedIndex} : st.metaJson.Matches (some prep.read) →
      Writes st (.indexPutMeta call attempt prep) (.putMeta prep.newMeta)
  | putSnapshot {attempt read docs} :
      Writes st (.compactPutSnapshot attempt read docs) (.putSnapshot (.fromDocs read.cursor docs))
  | compact {attempt read} : st.metaJson.Matches (some read.found) →
      Writes st (.compactPutMeta attempt read) (.putMeta read.newMeta)
  | deleteWal {seq rest} : Writes st (.compactDelete (seq :: rest)) (.deleteWal seq)

theorem Effect.onlyIf_cases {Q : Effect → Prop} {eff : Effect} {b : Bool} (hnone : Q .none)
    (heff : b = true → Q eff) : Q (eff.onlyIf b) := by
  unfold Effect.onlyIf
  split
  · rename_i hb
    exact heff hb
  · exact hnone

/-- A request changes nothing or is one of the writes. -/
theorem taskStep_effect_of_writes {built : List (String × Nat)} {t : Task} {Q : Effect → Prop}
    (hnone : Q .none) (hwrites : ∀ eff, t.Writes st eff → Q eff) :
    Q (taskStep ns st r built t).effect := by
  have hmatch : ∀ {read : MetaRead} {applied : Bool},
      (applied && decide (st.metaJson.Matches read)) = true → st.metaJson.Matches read :=
    fun hb => of_decide_eq_true (Bool.and_eq_true_iff.mp hb).2
  cases t with
  | idle | indexLock | compactLock => exact hnone
  | appendGet | indexGet | indexRecheck | indexGetLocked | compactCheck | compactGet
  | compactGetSnapshot | compactGetWal =>
    simp only [taskStep]
    repeat' split
    all_goals exact hnone
  | appendPutWal => exact Effect.onlyIf_cases hnone fun _ => hwrites _ .putWal
  | appendPutMeta => exact Effect.onlyIf_cases hnone fun hb => hwrites _ (.commit (hmatch hb))
  | appendDelete => exact Effect.onlyIf_cases hnone fun _ => hwrites _ .undoWal
  | indexPutMeta => exact Effect.onlyIf_cases hnone fun hb => hwrites _ (.index (hmatch hb))
  | compactPutSnapshot => exact Effect.onlyIf_cases hnone fun _ => hwrites _ .putSnapshot
  | compactPutMeta => exact Effect.onlyIf_cases hnone fun hb => hwrites _ (.compact (hmatch hb))
  | compactDelete seqs =>
    cases seqs with
    | nil => exact hnone
    | cons seq rest => exact Effect.onlyIf_cases hnone fun _ => hwrites _ .deleteWal

/-- Only a task inside the commit lock writes. -/
theorem taskStep_effect_of_not_holdsLock {built : List (String × Nat)} {t : Task}
    (h : t.holdsLock = false) : (taskStep ns st r built t).effect = .none := by
  refine taskStep_effect_of_writes (Q := fun eff => eff = .none) rfl ?_
  intro eff hw
  cases hw <;> cases h

/-- A task that has read nothing it still relies on. -/
def Task.isFresh : Task → Bool
  | .idle | .appendGet .. | .indexGet .. | .indexRecheck .. | .indexLock .. => true
  | .indexGetLocked .. | .compactCheck .. | .compactLock | .compactGet .. => true
  | _ => false

theorem Task.isFresh_of_not_holdsLock {t : Task} (h : t.holdsLock = false) :
    t.isFresh = true := by
  cases t <;> first | rfl | cases h

/-- What a task relies on after its request, besides what it relied on before. -/
inductive Task.Next (ns : String) (st : Store) (r : Reply) : Task → Task → Prop where
  | fresh {t t' : Task} : t'.isFresh = true → Next ns st r t t'
  | appendRead {c attempt tries read} : fetchMeta ns st r = .ok read →
      Next ns st r (.appendGet c attempt tries) (.appendPutWal c attempt 0 read)
  | putAgain {c attempt tries read} :
      Next ns st r (.appendPutWal c attempt tries read) (.appendPutWal c attempt (tries + 1) read)
  | prepared {c attempt tries read} {prep : PreparedCommit c} : prep.read = read →
      Next ns st r (.appendPutWal c attempt tries read) (.appendPutMeta c attempt prep)
  | conflict {c attempt} {prep : PreparedCommit c} :
      Next ns st r (.appendPutMeta c attempt prep) (.appendDelete c attempt prep.read.nextSeq)
  | indexPrepared {call attempt tries plan} {prep : PreparedIndex} :
      fetchMeta ns st r = .ok (some prep.read) →
      Next ns st r (.indexGetLocked call attempt tries plan) (.indexPutMeta call attempt prep)
  | compactRead {attempt tries} {read : CompactionRead} :
      fetchMeta ns st r = .ok (some read.found) →
      Next ns st r (.compactGet attempt tries) (.compactGetSnapshot attempt read)
  | snapshotRead {attempt read snapshot} : fetchSnapshot ns st r = .ok snapshot →
      Next ns st r (.compactGetSnapshot attempt read)
        (compactReplay attempt read (cursorBaseline snapshot read.cursor).1
          (cursorBaseline snapshot read.cursor).2)
  | walRead {attempt read docs seq e} : st.wal seq = some e →
      Next ns st r (.compactGetWal attempt read docs seq)
        (compactReplay attempt read (applyEntry docs e) (seq + 1))
  | snapshotStored {attempt read docs} : r = .ok →
      Next ns st r (.compactPutSnapshot attempt read docs) (.compactPutMeta attempt read)
  | cursorStored {attempt read} :
      r = .ok → st.metaJson.Matches (some read.found) →
      Next ns st r (.compactPutMeta attempt read)
        (.compactDelete (walSeqsToDelete read.cursor walCompactKeep))
  | deleted {seq rest} :
      Next ns st r (.compactDelete (seq :: rest)) (.compactDelete rest)

theorem Reply.eq_ok_of_failure (h : r.failure = none) : r = .ok := by
  cases r with
  | ok => rfl
  | error e applied => cases h

theorem Reply.eq_ok_of_failureIf {hit : Bool} (h : r.failureIf hit = none) :
    r = .ok ∧ hit = true := by
  cases r with
  | ok =>
    cases hit with
    | true => exact ⟨rfl, rfl⟩
    | false => cases h
  | error e applied => cases h

theorem taskStep_next (ns : String) (st : Store) (r : Reply) (built : List (String × Nat))
    (t : Task) : t.Next ns st r (taskStep ns st r built t).task := by
  cases t with
  | idle | indexLock | compactLock | appendDelete => exact .fresh rfl
  | indexGet | indexRecheck | indexPutMeta | compactCheck =>
    refine .fresh ?_
    simp only [taskStep, retryGet, indexContinue]
    repeat' split
    all_goals rfl
  | appendGet c attempt tries =>
    cases hf : fetchMeta ns st r with
    | ok read =>
      simp only [taskStep, hf]
      exact .appendRead hf
    | error msg =>
      simp only [taskStep, hf, retryGet]
      split <;> exact .fresh rfl
  | appendPutWal c attempt tries read =>
    simp only [taskStep, prepareCommit]
    split
    · split
      · exact .prepared rfl
      · exact .fresh rfl
    · split
      · exact .putAgain
      · exact .fresh rfl
  | appendPutMeta c attempt prep =>
    simp only [taskStep]
    split
    · exact .fresh rfl
    · split
      · exact .conflict
      · exact .fresh rfl
  | indexGetLocked call attempt tries plan =>
    simp only [taskStep, retryGet, indexContinue, prepareIndex]
    split
    · rename_i found hf
      split
      · exact .fresh rfl
      · split
        · split <;> exact .fresh rfl
        · split
          · exact .indexPrepared hf
          · exact .fresh rfl
    · exact .fresh rfl
    · split <;> exact .fresh rfl
  | compactGet attempt tries =>
    simp only [taskStep, retryGet]
    split
    · rename_i found hf
      split
      · exact .compactRead hf
      · exact .fresh rfl
    · exact .fresh rfl
    · split <;> exact .fresh rfl
  | compactGetSnapshot attempt read =>
    cases hf : fetchSnapshot ns st r with
    | ok snapshot =>
      simp only [taskStep, hf]
      exact .snapshotRead hf
    | error msg =>
      simp only [taskStep, hf]
      exact .fresh rfl
  | compactGetWal attempt read docs seq =>
    simp only [taskStep]
    split
    · rename_i hwal
      exact .walRead hwal
    · exact .fresh rfl
  | compactPutSnapshot attempt read docs =>
    simp only [taskStep]
    split
    · rename_i hok
      exact .snapshotStored (Reply.eq_ok_of_failure hok)
    · exact .fresh rfl
  | compactPutMeta attempt read =>
    simp only [taskStep]
    split
    · rename_i hok
      obtain ⟨hr, hhit⟩ := Reply.eq_ok_of_failureIf hok
      exact .cursorStored hr (of_decide_eq_true hhit)
    · split <;> exact .fresh rfl
  | compactDelete seqs =>
    cases seqs with
    | nil => exact .fresh rfl
    | cons seq rest => exact .deleted

end OpenPuffer
