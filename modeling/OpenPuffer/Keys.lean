import OpenPuffer.Cluster.Clone
import OpenPuffer.Lib.LexicalPath
import OpenPuffer.Vector.Indexers
import OpenPuffer.Vector.Probed

/-!
# Names and object keys

The name of a namespace is checked when a request comes in (`validateNamespaceName`).  The name
of a vector column is checked only where a query plans what it probes
(`validateS3PathSegment`).  `FormedKey` says which keys the indexer, the compactor and a warm-up
form, and `HasPath` what they are as paths.
-/

namespace OpenPuffer

open List

open LexicalPath

/-! ## Checked names -/

def maxNamespaceNameLen : Nat := 128

def namespaceNameCharOk (c : Char) : Bool := c.isAlphanum || c = '-' || c = '_' || c = '.'

def validateNamespaceName (name : String) : Except String Unit :=
  if name = "" then .error "namespace name must not be empty"
  else if name.utf8ByteSize > maxNamespaceNameLen then
    .error s!"namespace name exceeds maximum length of {maxNamespaceNameLen} bytes"
  else if !name.toList.all namespaceNameCharOk then
    .error ("namespace name must match [A-Za-z0-9-_.]\x7b1,128\x7d " ++
      "(letters, digits, hyphen, underscore, dot)")
  else .ok ()

/-- `char::is_control`. -/
def isControl (c : Char) : Bool := c.toNat < 0x20 || (0x7f ≤ c.toNat && c.toNat < 0xa0)

def validateS3PathSegment (segment label : String) : Except String Unit :=
  if segment = "" then .ok ()
  else if contains segment.toList ".." then .error s!"{label} must not contain '..'"
  else if '/' ∈ segment.toList ∨ '\\' ∈ segment.toList then
    .error s!"{label} must not contain path separators"
  else if segment.toList.any isControl then
    .error s!"{label} must not contain control characters"
  else .ok ()

/-- A checked name is one name of a path, though not always a plain one: the checks let
`.` and `..` pass. -/
theorem no_slash_of_validateNamespaceName {name : String}
    (h : validateNamespaceName name = .ok ()) : name.toList ≠ [] ∧ '/' ∉ name.toList := by
  simp only [validateNamespaceName] at h
  split at h
  · cases h
  next hempty =>
  split at h
  · cases h
  split at h
  · cases h
  next hall =>
  refine ⟨fun hnil => hempty (String.toList_eq_nil_iff.mp hnil), fun hslash => ?_⟩
  rw [Bool.not_eq_true', Bool.not_eq_false, all_eq_true] at hall
  exact absurd (hall '/' hslash) (by decide)

theorem plain_of_validateNamespaceName {name : String} (h : validateNamespaceName name = .ok ())
    (hdot : name ≠ ".") (hdots : name ≠ "..") : Plain name.toList where
  ne_nil := (no_slash_of_validateNamespaceName h).1
  ne_dot heq := hdot (String.toList_inj.mp heq)
  ne_dots heq := hdots (String.toList_inj.mp heq)
  no_slash := (no_slash_of_validateNamespaceName h).2

theorem no_slash_of_validateS3PathSegment {segment label : String}
    (h : validateS3PathSegment segment label = .ok ()) :
    segment.toList ≠ ['.', '.'] ∧ '/' ∉ segment.toList := by
  simp only [validateS3PathSegment] at h
  split at h
  next hempty =>
    subst hempty
    exact ⟨by decide, by decide⟩
  next =>
  split at h
  · cases h
  next hdots =>
  split at h
  · cases h
  next hsep =>
  refine ⟨fun heq => hdots ?_, fun hslash => hsep (.inl hslash)⟩
  rw [heq]
  decide

/-! ## Keys -/

def FtsSegment.key (ns : String) (segmentId : Nat) : String :=
  s!"{rootDir}{ns}/index/fts-{eightDigits segmentId}.bin"

def FilterSegment.key (ns : String) (segmentId : Nat) : String :=
  s!"{rootDir}{ns}/index/filter-{eightDigits segmentId}.bin"

def ClusterSegment.key (ns field : String) (fineId : Nat) : String :=
  vectorIndexPrefix ns field ++ s!"clusters-{eightDigits fineId}.bin"

def CentroidRouting.key (ns field : String) : String :=
  vectorIndexPrefix ns field ++ "centroids-routing.bin"

/-- The keys of old metadata have no column name. -/
def CentroidIndexL0.legacyKey (ns : String) : String := CentroidIndexL0.key ns ""

def CentroidIndexL1.legacyKey (ns : String) (coarseId : Nat) : String :=
  CentroidIndexL1.key ns "" coarseId

def ClusterSegment.legacyKey (ns : String) (fineId : Nat) : String :=
  ClusterSegment.key ns "" fineId

def indexKeysForWarm (ns : String) (m : NamespaceMeta) : List String :=
  (if m.ftsSegmentId > 0 ∧ m.indexCursor > 0 then [FtsSegment.key ns m.ftsSegmentId] else []) ++
    (if m.filterSegmentId > 0 ∧ m.indexCursor > 0 then [FilterSegment.key ns m.filterSegmentId]
      else []) ++
    (effectiveVectorFields m).filterMap fun cfg =>
      if cfg.segmentId > 0 ∧ m.indexCursor > 0 ∧ cfg.dimensions > 0 then
        some (if vectorIndexUsesLegacyPaths m cfg.name then CentroidIndexL0.legacyKey ns
          else CentroidIndexL0.key ns cfg.name)
      else none

def walWarmMaxSegments : Nat := 128

def walKeysForWarm (ns : String) (m : NamespaceMeta) : List String :=
  if m.walCommitSeq = 0 then []
  else
    let keys := if m.walSnapshotSeq > 0 then [snapshotKey ns] else []
    let replayFrom :=
      if m.walSnapshotSeq > 0 then walReplayFrom m.walSnapshotSeq m.walCommitSeq else some 1
    match replayFrom with
    | none => keys
    | some first =>
      let span := min (m.walCommitSeq - first + 1) walWarmMaxSegments
      let start := max (m.walCommitSeq - (span - 1)) first
      keys ++ (List.range' start (m.walCommitSeq + 1 - start)).map (walKey ns)

/-- The column of a coarse table.  Old tables do not name it. -/
def tableField (m : NamespaceMeta) (l0 : CentroidIndexL0) : String :=
  if l0.vectorField = "" then m.vectorField else l0.vectorField

/-- What a warm-up asks for after it has read a coarse table.  `stored` says which
objects there are. -/
def tableKeysForWarm (ns : String) (m : NamespaceMeta) (stored : String → Bool)
    (l0 : CentroidIndexL0) : List String :=
  let field := tableField m l0
  let useLegacy := vectorIndexUsesLegacyPaths m field
  (List.range l0.numCoarse).flatMap (fun coarseId =>
      CentroidIndexL1.key ns field coarseId ::
        if useLegacy then [CentroidIndexL1.legacyKey ns coarseId] else []) ++
    (List.range l0.numFineTotal).flatMap fun fineId =>
      ClusterSegment.key ns field fineId ::
        if !stored (ClusterSegment.key ns field fineId) && useLegacy then
          [ClusterSegment.legacyKey ns fineId]
        else []

/-! ## Which keys are formed -/

/-- What the keys of a namespace are formed from. -/
structure KeySource where
  name : String
  valid : validateNamespaceName name = .ok ()
  record : NamespaceMeta
  /-- The first document of the batch that is indexed. -/
  sample : Option Document
  /-- The coarse tables that a warm-up reads. -/
  tables : List CentroidIndexL0
  stored : String → Bool
  order : IterOrder String

/-- The keys of the objects of one index, with the column name that they are formed
with. -/
inductive VectorKey (ns field : String) : String → Prop where
  | l0 : VectorKey ns field (CentroidIndexL0.key ns field)
  | l1 (coarseId : Nat) : VectorKey ns field (CentroidIndexL1.key ns field coarseId)
  | l2 (id : Nat × Nat) : VectorKey ns field (CentroidIndexL2.key ns field id)
  | routing : VectorKey ns field (CentroidRouting.key ns field)
  | cluster (fineId : Nat) : VectorKey ns field (ClusterSegment.key ns field fineId)

namespace KeySource

variable (n : KeySource)

/-- The columns that the indexer builds an index for. -/
def indexedFields : List String :=
  vectorFieldsToIndex n.order n.record.schema n.record n.sample

/-- The keys that the indexer, the compactor and a warm-up form. -/
inductive FormedKey : String → Prop where
  | metaJson : FormedKey (metaKey n.name)
  | wal (seq : Nat) : FormedKey (walKey n.name seq)
  | snapshot : FormedKey (snapshotKey n.name)
  | fts (segmentId : Nat) : FormedKey (FtsSegment.key n.name segmentId)
  | filter (segmentId : Nat) : FormedKey (FilterSegment.key n.name segmentId)
  | vector {field key : String} (hfield : field ∈ n.indexedFields)
      (hkey : VectorKey n.name field key) : FormedKey key
  | legacy {key : String} (hkey : VectorKey n.name "" key) : FormedKey key
  | warmIndex {key : String} (hkey : key ∈ indexKeysForWarm n.name n.record) : FormedKey key
  | warmWal {key : String} (hkey : key ∈ walKeysForWarm n.name n.record) : FormedKey key
  | warmTable {l0 : CentroidIndexL0} {key : String} (hl0 : l0 ∈ n.tables)
      (hkey : key ∈ tableKeysForWarm n.name n.record n.stored l0) : FormedKey key

/-- The columns whose names are in keys that are formed. -/
inductive KeyField : String → Prop where
  | indexed {field : String} (h : field ∈ n.indexedFields) : KeyField field
  | listed {cfg : VectorFieldConfig} (hcfg : cfg ∈ effectiveVectorFields n.record)
      (hindexed : cfg.segmentId > 0 ∧ n.record.indexCursor > 0 ∧ cfg.dimensions > 0)
      (hnew : vectorIndexUsesLegacyPaths n.record cfg.name = false) : KeyField cfg.name
  | table {l0 : CentroidIndexL0} (hl0 : l0 ∈ n.tables)
      (hparts : 0 < l0.numCoarse ∨ 0 < l0.numFineTotal) : KeyField (tableField n.record l0)

end KeySource

/-! ## Keys as paths -/

/-- The key of a file in some directories of a namespace. -/
def HasPath (ns : String) (dirs : List (List Char)) (key : String) : Prop :=
  ∃ file, Plain file ∧
    key.toList = ['/'].intercalate ("openpuffer".toList :: ns.toList :: (dirs ++ [file]))

def columnDirs (field : String) : List (List Char) :=
  if field = "" then ["index".toList] else ["index".toList, field.toList]

theorem slash_notMem_eightDigits (n : Nat) : '/' ∉ (eightDigits n).toList := by
  rw [eightDigits, String.toList_ofList, leftpad]
  intro h
  rcases mem_append.mp h with h | h
  · exact absurd (eq_of_mem_replicate h) (by decide)
  · exact absurd (Nat.isDigit_of_mem_toDigits (by decide) (by decide) h) (by decide)

theorem plain_eightDigits (n : Nat) : Plain (eightDigits n).toList := by
  refine Plain.of_length ?_ (slash_notMem_eightDigits n)
  rw [eightDigits, String.toList_ofList, length_leftpad]
  omega

/-- A plain stem with a number and the extension of the objects. -/
theorem plain_numbered (stem : String) (h : Plain stem.toList) (n : Nat) :
    Plain (stem ++ eightDigits n ++ ".bin").toList := by
  rw [String.toList_append, String.toList_append]
  exact (h.append (slash_notMem_eightDigits n)).append (by decide)

variable {ns field key : String}

theorem hasPath_column {file : String} (hkey : key = vectorIndexPrefix ns field ++ file)
    (hfile : Plain file.toList) : HasPath ns (columnDirs field) key := by
  refine ⟨file.toList, hfile, ?_⟩
  rw [hkey]
  by_cases h : field = "" <;> simp [vectorIndexPrefix, columnDirs, rootDir, h, toString]

/-- A key of the column index, with a number in its file name. -/
theorem hasPath_numbered (stem : String) (n : Nat)
    (hkey : key = vectorIndexPrefix ns field ++ (stem ++ eightDigits n ++ ".bin"))
    (hstem : 2 < stem.toList.length ∧ '/' ∉ stem.toList) : HasPath ns (columnDirs field) key :=
  hasPath_column hkey (plain_numbered stem (Plain.of_length hstem.1 hstem.2) n)

theorem VectorKey.hasPath (h : VectorKey ns field key) : HasPath ns (columnDirs field) key := by
  cases h with
  | l0 => exact hasPath_column rfl (Plain.of_length (by decide) (by decide))
  | l1 coarseId => exact hasPath_numbered "centroids-l1-" coarseId rfl (by decide)
  | l2 id =>
    refine hasPath_column rfl
      (plain_numbered ("centroids-l2-" ++ eightDigits id.1 ++ "-") ?_ id.2)
    rw [String.toList_append, String.toList_append]
    have hstem : Plain "centroids-l2-".toList := Plain.of_length (by decide) (by decide)
    exact (hstem.append (slash_notMem_eightDigits id.1)).append (by decide)
  | routing => exact hasPath_column rfl (Plain.of_length (by decide) (by decide))
  | cluster fineId => exact hasPath_numbered "clusters-" fineId rfl (by decide)

theorem hasPath_metaKey (ns : String) : HasPath ns [] (metaKey ns) :=
  ⟨"meta.json".toList, Plain.of_length (by decide) (by decide), by simp [metaKey, rootDir]⟩

theorem hasPath_snapshotKey (ns : String) : HasPath ns ["wal".toList] (snapshotKey ns) :=
  ⟨"snapshot.bin".toList, Plain.of_length (by decide) (by decide), by simp [snapshotKey, rootDir]⟩

theorem hasPath_walKey (ns : String) (seq : Nat) : HasPath ns ["wal".toList] (walKey ns seq) := by
  refine ⟨(eightDigits seq ++ ".bin").toList, ?_, ?_⟩
  · rw [String.toList_append]
    exact (plain_eightDigits seq).append (by decide)
  · rw [show walKey ns seq = rootDir ++ ns ++ "/wal/" ++ eightDigits seq ++ ".bin" from rfl]
    simp [rootDir]

theorem hasPath_ftsKey (ns : String) (segmentId : Nat) :
    HasPath ns (columnDirs "") (FtsSegment.key ns segmentId) := by
  refine hasPath_numbered "fts-" segmentId ?_ (by decide)
  simp [FtsSegment.key, vectorIndexPrefix, rootDir, toString, String.ext_iff]

theorem hasPath_filterKey (ns : String) (segmentId : Nat) :
    HasPath ns (columnDirs "") (FilterSegment.key ns segmentId) := by
  refine hasPath_numbered "filter-" segmentId ?_ (by decide)
  simp [FilterSegment.key, vectorIndexPrefix, rootDir, toString, String.ext_iff]

namespace KeySource

variable {n : KeySource}

/-- The directories in keys that are formed. -/
inductive KeyDirs (n : KeySource) : List (List Char) → Prop where
  | top : KeyDirs n []
  | wal : KeyDirs n ["wal".toList]
  | index : KeyDirs n (columnDirs "")
  | column {field : String} (h : n.KeyField field) : KeyDirs n (columnDirs field)

variable {key : String}

theorem hasPath_indexKeysForWarm (h : key ∈ indexKeysForWarm n.name n.record) :
    ∃ dirs, n.KeyDirs dirs ∧ HasPath n.name dirs key := by
  rw [indexKeysForWarm, mem_append, mem_append] at h
  rcases h with (h | h) | h
  · split at h
    · rw [mem_singleton.mp h]
      exact ⟨_, .index, hasPath_ftsKey _ _⟩
    · cases h
  · split at h
    · rw [mem_singleton.mp h]
      exact ⟨_, .index, hasPath_filterKey _ _⟩
    · cases h
  · obtain ⟨cfg, hcfg, hkey⟩ := mem_filterMap.mp h
    split at hkey
    next hindexed =>
      cases hlegacy : vectorIndexUsesLegacyPaths n.record cfg.name with
      | true =>
        rw [hlegacy, if_pos rfl] at hkey
        cases hkey
        exact ⟨_, .index, VectorKey.l0.hasPath⟩
      | false =>
        rw [hlegacy, if_neg Bool.false_ne_true] at hkey
        cases hkey
        exact ⟨_, .column (.listed hcfg hindexed hlegacy), VectorKey.l0.hasPath⟩
    next => cases hkey

theorem hasPath_walKeysForWarm (h : key ∈ walKeysForWarm n.name n.record) :
    HasPath n.name ["wal".toList] key := by
  have hkeys : ∀ {k}, k ∈ (if n.record.walSnapshotSeq > 0 then [snapshotKey n.name] else []) →
      HasPath n.name ["wal".toList] k := by
    intro k hk
    split at hk
    · rw [mem_singleton.mp hk]
      exact hasPath_snapshotKey _
    · cases hk
  simp only [walKeysForWarm] at h
  split at h
  · cases h
  split at h
  · exact hkeys h
  · rcases mem_append.mp h with h | h
    · exact hkeys h
    · obtain ⟨seq, -, rfl⟩ := mem_map.mp h
      exact hasPath_walKey _ _

/-- A key in the directory of its column, or the one of the old layout. -/
theorem hasPath_column_or_legacy {field own old : String} {legacy : Bool} (h : n.KeyField field)
    (hown : VectorKey n.name field own) (hold : VectorKey n.name "" old)
    (hkey : key ∈ own :: if legacy then [old] else []) :
    ∃ dirs, n.KeyDirs dirs ∧ HasPath n.name dirs key := by
  rcases mem_cons.mp hkey with rfl | hkey
  · exact ⟨_, .column h, hown.hasPath⟩
  · split at hkey
    · exact ⟨_, .index, mem_singleton.mp hkey ▸ hold.hasPath⟩
    · cases hkey

theorem hasPath_tableKeysForWarm {l0 : CentroidIndexL0} (hl0 : l0 ∈ n.tables)
    (h : key ∈ tableKeysForWarm n.name n.record n.stored l0) :
    ∃ dirs, n.KeyDirs dirs ∧ HasPath n.name dirs key := by
  rw [tableKeysForWarm, mem_append] at h
  rcases h with h | h
  · obtain ⟨coarseId, hid, hkey⟩ := mem_flatMap.mp h
    have hparts := Nat.zero_lt_of_lt (mem_range.mp hid)
    exact hasPath_column_or_legacy (.table hl0 (.inl hparts)) (.l1 coarseId) (.l1 coarseId) hkey
  · obtain ⟨fineId, hid, hkey⟩ := mem_flatMap.mp h
    have hparts := Nat.zero_lt_of_lt (mem_range.mp hid)
    exact hasPath_column_or_legacy (.table hl0 (.inr hparts)) (.cluster fineId) (.cluster fineId)
      hkey

theorem FormedKey.hasPath (h : n.FormedKey key) :
    ∃ dirs, n.KeyDirs dirs ∧ HasPath n.name dirs key := by
  cases h with
  | metaJson => exact ⟨_, .top, hasPath_metaKey _⟩
  | wal seq => exact ⟨_, .wal, hasPath_walKey _ seq⟩
  | snapshot => exact ⟨_, .wal, hasPath_snapshotKey _⟩
  | fts segmentId => exact ⟨_, .index, hasPath_ftsKey _ segmentId⟩
  | filter segmentId => exact ⟨_, .index, hasPath_filterKey _ segmentId⟩
  | vector hfield hkey => exact ⟨_, .column (.indexed hfield), hkey.hasPath⟩
  | legacy hkey => exact ⟨_, .index, hkey.hasPath⟩
  | warmIndex hkey => exact hasPath_indexKeysForWarm hkey
  | warmWal hkey => exact ⟨_, .wal, hasPath_walKeysForWarm hkey⟩
  | warmTable hl0 hkey => exact hasPath_tableKeysForWarm hl0 hkey

/-- Every column of `KeyField` is in some key. -/
theorem KeyField.exists_formedKey {field : String} (h : n.KeyField field) :
    ∃ key, n.FormedKey key ∧ VectorKey n.name field key := by
  cases h with
  | indexed hfield => exact ⟨_, .vector hfield .l0, .l0⟩
  | @listed cfg hcfg hindexed hnew =>
    refine ⟨_, .warmIndex ?_, .l0⟩
    rw [indexKeysForWarm, mem_append]
    refine .inr (mem_filterMap.mpr ⟨cfg, hcfg, ?_⟩)
    rw [if_pos hindexed, hnew, if_neg Bool.false_ne_true]
  | @table l0 hl0 hparts =>
    rcases hparts with hparts | hparts
    · refine ⟨_, .warmTable hl0 ?_, .l1 0⟩
      rw [tableKeysForWarm, mem_append]
      exact .inl (mem_flatMap.mpr ⟨0, mem_range.mpr hparts, mem_cons_self⟩)
    · refine ⟨_, .warmTable hl0 ?_, .cluster 0⟩
      rw [tableKeysForWarm, mem_append]
      exact .inr (mem_flatMap.mpr ⟨0, mem_range.mpr hparts, mem_cons_self⟩)

end KeySource

end OpenPuffer
