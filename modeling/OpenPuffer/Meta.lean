import OpenPuffer.Schema

/-!
# Namespace metadata

`meta.json` is the commit point of a namespace.  Three writers compute a new
version of it from one they read: a WAL append, an index commit and a WAL
compaction.  This module has the record and the pure functions of the first
two; the third only sets `walSnapshotSeq`.
-/

namespace OpenPuffer

/-- How often a conditional PUT of `meta.json` is tried. -/
def metaRetries : Nat := 8

def annVersionV2 : Nat := 2

def annVersionV3 : Nat := 3

/-- One indexed vector column. -/
structure VectorFieldConfig where
  name : String
  dimensions : Nat
  element : VectorElement
  /-- WAL seq when the field's centroids and clusters were written. -/
  segmentId : Nat
  segmentIds : List Nat
deriving DecidableEq, Repr

inductive DistanceMetric where
  | cosineDistance
  | euclideanSquared
deriving DecidableEq, Repr

/-- Durable namespace state. -/
structure NamespaceMeta where
  /-- Last WAL sequence merged into the index. -/
  indexCursor : Nat := 0
  ftsSegmentId : Nat := 0
  ftsSegmentIds : List Nat := []
  vectorSegmentId : Nat := 0
  vectorSegmentIds : List Nat := []
  filterSegmentId : Nat := 0
  filterSegmentIds : List Nat := []
  vectorFields : List VectorFieldConfig := []
  vectorField : String := ""
  dimensions : Nat := 0
  /-- Last committed WAL sequence. -/
  walCommitSeq : Nat := 0
  /-- WAL sequence of the snapshot a compaction recorded, `0` for none. -/
  walSnapshotSeq : Nat := 0
  schema : Json := .obj []
  distanceMetric : DistanceMetric := .cosineDistance
  preferredAnnVersion : Nat := annVersionV2
deriving DecidableEq, Repr

/-- `NamespaceMeta::default`. -/
def NamespaceMeta.empty : NamespaceMeta := {}

/-- The sequence an append to this namespace takes. -/
def nextWalSeq (m : NamespaceMeta) : Nat := saturatingAdd m.walCommitSeq 1

/-! ## Distance metric -/

def metricName : DistanceMetric → String
  | .cosineDistance => "cosine_distance"
  | .euclideanSquared => "euclidean_squared"

/-- Set on the first WAL commit, enforced after it. -/
def resolveDistanceMetric (m : NamespaceMeta) (requested : Option DistanceMetric) :
    Except String DistanceMetric :=
  match requested with
  | none => .ok m.distanceMetric
  | some d =>
    if m.walCommitSeq = 0 then .ok d
    else if d = m.distanceMetric then .ok m.distanceMetric
    else
      let wanted := metricName d
      let stored := metricName m.distanceMetric
      .error s!"distance_metric {wanted} conflicts with namespace {stored}"

/-! ## Vector columns -/

/-- Change the first column of a name. -/
def updateVectorField (name : String) (f : VectorFieldConfig → VectorFieldConfig) :
    List VectorFieldConfig → List VectorFieldConfig
  | [] => []
  | c :: cs => if c.name = name then f c :: cs else c :: updateVectorField name f cs

/-- One name of the schema: refresh its column, or add it while there is room. -/
def hydrateVectorField (schema : Json) (fields : List VectorFieldConfig) (name : String) :
    List VectorFieldConfig :=
  let dims := (vectorDimensionsForField schema name).getD 0
  let element := vectorElementForField schema name
  if fields.any fun f => f.name = name then
    updateVectorField name
      (fun slot =>
        { slot with
          dimensions := if slot.segmentId = 0 then dims else slot.dimensions
          element := element })
      fields
  else if fields.length < maxVectorFields then
    fields ++ [{ name, dimensions := dims, element, segmentId := 0, segmentIds := [] }]
  else fields

/-- Make `vectorFields` reflect the vector columns the schema declares. -/
def hydrateVectorFieldsFromSchema (m : NamespaceMeta) : NamespaceMeta :=
  let names := (vectorFieldsFromSchema m.schema).take maxVectorFields
  { m with vectorFields := names.foldl (hydrateVectorField m.schema) m.vectorFields }

/-- Keep the single-column fields of old metadata aligned with the first column. -/
def syncLegacyVectorFields (m : NamespaceMeta) : NamespaceMeta :=
  match m.vectorFields with
  | first :: _ =>
    { m with
      vectorField := first.name
      dimensions := first.dimensions
      vectorSegmentId := first.segmentId
      vectorSegmentIds := first.segmentIds }
  | [] =>
    if m.vectorField ≠ "" ∧ m.dimensions > 0 then m
    else
      { m with
        vectorField := ""
        dimensions := 0
        vectorSegmentId := 0
        vectorSegmentIds := [] }

/-- The vector columns, with the single column of old metadata. -/
def effectiveVectorFields (m : NamespaceMeta) : List VectorFieldConfig :=
  if m.vectorFields ≠ [] then m.vectorFields
  else if m.vectorField = "" ∨ m.dimensions = 0 then []
  else
    [{ name := m.vectorField
       dimensions := m.dimensions
       element := .f32
       segmentId := m.vectorSegmentId
       segmentIds := m.vectorSegmentIds }]

/-- Whether the index of a column is under the keys of old metadata. -/
def vectorIndexUsesLegacyPaths (m : NamespaceMeta) (field : String) : Bool :=
  m.vectorFields = [] ∧ m.vectorField = field ∧ m.vectorSegmentId > 0

/-! ## The payloads of the writers -/

/-- The namespace schema with the patch of a batch merged into it. -/
def patchedSchema (m : NamespaceMeta) (schemaPatch : Option Json) : Except String Json :=
  match schemaPatch with
  | some patch => mergeSchema m.schema patch
  | none => .ok m.schema

/-- Metadata committed at `seq`, with its vector columns read off the schema. -/
def metaAtCommit (m : NamespaceMeta) (seq : Nat) (schema : Json) (metric : DistanceMetric) :
    NamespaceMeta :=
  { syncLegacyVectorFields (hydrateVectorFieldsFromSchema { m with walCommitSeq := seq, schema })
    with distanceMetric := metric }

/-- Metadata after appending WAL object `seq`. -/
def metaAfterWalCommitOptions (m : NamespaceMeta) (seq : Nat) (schemaPatch : Option Json)
    (distanceMetric : Option DistanceMetric) : Except String NamespaceMeta :=
  if seq ≠ saturatingAdd m.walCommitSeq 1 then
    let commit := m.walCommitSeq
    .error s!"wal seq {seq} does not follow commit point {commit}"
  else do
    let schema ← patchedSchema m schemaPatch
    let metric ← resolveDistanceMetric m distanceMetric
    pure (metaAtCommit m seq schema metric)

/-- Append a segment id to a generation chain, without consecutive duplicates. -/
def pushSegmentId (ids : List Nat) (id : Nat) : List Nat :=
  if id = 0 then ids
  else if ids.getLast? = some id then ids
  else ids ++ [id]

/-- Metadata with its cursor at `indexCursor` and the new segment generations. -/
def metaAtCursor (m : NamespaceMeta) (indexCursor ftsSegmentId filterSegmentId : Nat)
    (vectorFields : List VectorFieldConfig) : NamespaceMeta :=
  syncLegacyVectorFields
    { m with
      indexCursor
      ftsSegmentId
      ftsSegmentIds := pushSegmentId m.ftsSegmentIds ftsSegmentId
      filterSegmentId
      filterSegmentIds := pushSegmentId m.filterSegmentIds filterSegmentId
      vectorFields }

/-- Metadata after the indexer merged the WAL through `indexCursor`. -/
def metaAfterIndexCommit (m : NamespaceMeta) (indexCursor ftsSegmentId filterSegmentId : Nat)
    (vectorFields : List VectorFieldConfig) (indexerAnnVersion : Nat) :
    Except String NamespaceMeta :=
  if indexCursor > m.walCommitSeq then
    let commit := m.walCommitSeq
    .error s!"index_cursor {indexCursor} past wal_commit_seq {commit}"
  else if indexCursor ≤ m.indexCursor then
    let cursor := m.indexCursor
    .error s!"index_cursor {indexCursor} does not advance from {cursor}"
  else
    let moved := metaAtCursor m indexCursor ftsSegmentId filterSegmentId vectorFields
    .ok
      { moved with
        preferredAnnVersion :=
          if indexerAnnVersion ≥ annVersionV3 then annVersionV3 else moved.preferredAnnVersion }

/-! ## Vector columns after an index pass -/

/-- One vector index written at `toSeq`: refresh its column, or add it while
there is room. -/
def indexVectorField (schema : Json) (toSeq : Nat) (fields : List VectorFieldConfig)
    (built : String × Nat) : List VectorFieldConfig :=
  let (name, dims) := built
  let element := vectorElementForField schema name
  if fields.any fun f => f.name = name then
    updateVectorField name
      (fun f =>
        { f with
          dimensions := dims
          element := element
          segmentId := toSeq
          segmentIds := pushSegmentId f.segmentIds toSeq })
      fields
  else if fields.length < maxVectorFields then
    fields ++
      [{ name, dimensions := dims, element, segmentId := toSeq,
         segmentIds := pushSegmentId [] toSeq }]
  else fields

/-- The columns `index_wal_range` passes on, for the indexes it built.  Old
metadata with a single column and no list starts from that column. -/
def indexedVectorFields (m : NamespaceMeta) (toSeq : Nat) (built : List (String × Nat)) :
    List VectorFieldConfig :=
  let fields :=
    if m.vectorFields = [] ∧ m.vectorField ≠ "" ∧ m.dimensions > 0 then
      [{ name := m.vectorField
         dimensions := m.dimensions
         element := vectorElementForField m.schema m.vectorField
         segmentId := m.vectorSegmentId
         segmentIds := m.vectorSegmentIds }]
    else m.vectorFields
  built.foldl (indexVectorField m.schema toSeq) fields

/-! ## When to compact the log -/

def walCompactionThreshold : Nat := 10

def walCompactKeep : Nat := 3

def shouldCompactWal (m : NamespaceMeta) : Bool :=
  m.indexCursor ≥ m.walCommitSeq && m.walCommitSeq > walCompactionThreshold &&
    m.indexCursor > walCompactKeep

def needsWalCompaction (m : NamespaceMeta) : Bool :=
  shouldCompactWal m && m.walSnapshotSeq < m.indexCursor

/-- The segments a compaction deletes, `1..=indexCursor - keepK`. -/
def walSeqsToDelete (indexCursor keepK : Nat) : List Nat :=
  if indexCursor ≤ keepK then [] else List.range' 1 (indexCursor - keepK)

variable {m m' : NamespaceMeta} {cursor : Nat}

theorem needsWalCompaction_iff :
    needsWalCompaction m = true ↔
      m.walCommitSeq ≤ m.indexCursor ∧ 10 < m.walCommitSeq ∧ 3 < m.indexCursor ∧
        m.walSnapshotSeq < m.indexCursor := by
  simp [needsWalCompaction, shouldCompactWal, walCompactionThreshold, walCompactKeep, and_assoc]

theorem mem_walSeqsToDelete {keep seq : Nat} (h : seq ∈ walSeqsToDelete cursor keep) :
    1 ≤ seq ∧ seq + keep ≤ cursor := by
  unfold walSeqsToDelete at h
  split at h
  · cases h
  · rw [List.mem_range'_1] at h
    omega

/-! ## What the payloads keep -/

theorem syncLegacyVectorFields_counters (m : NamespaceMeta) :
    (syncLegacyVectorFields m).walCommitSeq = m.walCommitSeq ∧
      (syncLegacyVectorFields m).indexCursor = m.indexCursor ∧
      (syncLegacyVectorFields m).walSnapshotSeq = m.walSnapshotSeq := by
  unfold syncLegacyVectorFields
  split
  · exact ⟨rfl, rfl, rfl⟩
  · split <;> exact ⟨rfl, rfl, rfl⟩

/-- What an append computes, when it computes something. -/
theorem metaAfterWalCommitOptions_inv {seq : Nat} {patch : Option Json}
    {metric : Option DistanceMetric} (h : metaAfterWalCommitOptions m seq patch metric = .ok m') :
    seq = saturatingAdd m.walCommitSeq 1 ∧
      ∃ schema resolved, patchedSchema m patch = .ok schema ∧
        resolveDistanceMetric m metric = .ok resolved ∧
        m' = metaAtCommit m seq schema resolved := by
  unfold metaAfterWalCommitOptions at h
  split at h
  · cases h
  · rename_i hseq
    obtain ⟨schema, hschema, hrest⟩ := bind_eq_ok.mp h
    obtain ⟨resolved, hresolved, hm⟩ := bind_eq_ok.mp hrest
    cases hm
    exact ⟨not_not.mp hseq, schema, resolved, hschema, hresolved, rfl⟩

/-- What an index commit computes, when it computes something. -/
theorem metaAfterIndexCommit_inv {fts filter ann : Nat} {fields : List VectorFieldConfig}
    (h : metaAfterIndexCommit m cursor fts filter fields ann = .ok m') :
    m.indexCursor < cursor ∧ cursor ≤ m.walCommitSeq ∧
      ∃ version, m' =
        { metaAtCursor m cursor fts filter fields with preferredAnnVersion := version } := by
  unfold metaAfterIndexCommit at h
  split at h
  · cases h
  · split at h
    · cases h
    · rename_i hcommit hcursor
      cases h
      exact ⟨by omega, by omega, _, rfl⟩

/-- An append moves the commit point to its sequence and leaves the other
counters alone. -/
theorem metaAfterWalCommitOptions_counters {seq : Nat} {patch : Option Json}
    {metric : Option DistanceMetric} (h : metaAfterWalCommitOptions m seq patch metric = .ok m') :
    m'.walCommitSeq = seq ∧ m'.indexCursor = m.indexCursor ∧
      m'.walSnapshotSeq = m.walSnapshotSeq := by
  obtain ⟨-, schema, resolved, -, -, rfl⟩ := metaAfterWalCommitOptions_inv h
  exact syncLegacyVectorFields_counters _

/-- An index commit moves the cursor forward, to at most the commit point. -/
theorem metaAfterIndexCommit_counters {fts filter ann : Nat} {fields : List VectorFieldConfig}
    (h : metaAfterIndexCommit m cursor fts filter fields ann = .ok m') :
    m'.walCommitSeq = m.walCommitSeq ∧ m'.indexCursor = cursor ∧
      m'.walSnapshotSeq = m.walSnapshotSeq ∧ m.indexCursor < cursor ∧
      cursor ≤ m.walCommitSeq := by
  obtain ⟨hcursor, hcommit, version, rfl⟩ := metaAfterIndexCommit_inv h
  obtain ⟨h1, h2, h3⟩ : _ ∧ _ ∧ _ := syncLegacyVectorFields_counters _
  exact ⟨h1, h2, h3, hcursor, hcommit⟩

end OpenPuffer
