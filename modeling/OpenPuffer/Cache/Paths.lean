import OpenPuffer.Keys

/-!
# Where cached objects are stored

The cache stores an object in a file whose path is its key, below the directory of the bucket.
When a namespace is deleted or overwritten, its directory is removed.  The path is resolved by
the file system, so a name can lead out of that directory: a namespace may be called `.` or
`..` (`apart_iff`), and a vector column `../../other` (`confined_iff`).  There are no other
ways out.  The check that queries make on column names would be enough
(`contained_of_validateS3PathSegment`).
-/

namespace OpenPuffer

open List

open LexicalPath

structure CacheDir where
  /-- The directory that the process runs in. -/
  cwd : Location
  root : String
  bucket : String

namespace CacheDir

variable (d : CacheDir)

/-- `root.join(bucket)`. -/
def bucketPath : List Char := join d.root.toList d.bucket.toList

def localPath (s3Key : String) : List Char := join d.bucketPath s3Key.toList

def etagSidecar (path : List Char) : List Char := path ++ ".etag".toList

def namespacePath (ns : String) : List Char := join (join d.bucketPath rootDir.toList) ns.toList

def locate (path : List Char) : Location := location d.cwd path

def namespaceDir (ns : String) : Location := d.locate (d.namespacePath ns)

/-- Remove the directory of a namespace from the files of the cache. -/
def invalidateNamespace (ns : String) (files : List (List Char)) : List (List Char) :=
  files.filter fun path => ¬d.namespaceDir ns <+: d.locate path

/-- The files of the key are in the directory of the namespace. -/
def Holds (ns key : String) : Prop :=
  StrictlyBelow (d.namespaceDir ns) (d.locate (d.localPath key)) ∧
    StrictlyBelow (d.namespaceDir ns) (d.locate (etagSidecar (d.localPath key)))

/-- All files of a namespace are in its directory. -/
def Confined (n : KeySource) : Prop := ∀ key, n.FormedKey key → d.Holds n.name key

/-- Invalidating `a` removes no file of `b`. -/
def Spares (a b : KeySource) : Prop :=
  ∀ key, b.FormedKey key → ∀ path ∈ [d.localPath key, etagSidecar (d.localPath key)],
    ∀ files, path ∈ files → path ∈ d.invalidateNamespace a.name files

/-- The path of a column stays in the directory of the namespace, or returns to it. -/
def Contained (ns field : String) : Prop :=
  d.namespaceDir ns <+: resolve (d.namespaceDir ns ++ ["index".toList]) field.toList

instance (ns field : String) : Decidable (d.Contained ns field) :=
  inferInstanceAs (Decidable (_ <+: _))

/-! ## The files of a key -/

variable {d}

theorem plain_rootName : Plain "openpuffer".toList := Plain.of_length (by decide) (by decide)

variable {ns field : String} {a b : KeySource}

theorem namespaceDir_eq (h : '/' ∉ ns.toList) :
    d.namespaceDir ns = follow (d.locate d.bucketPath ++ ["openpuffer".toList]) ns.toList := by
  have habs : isAbsolute ns.toList = false := by
    rw [isAbsolute, decide_eq_false_iff_not]
    exact fun hhead => h (mem_of_mem_head? hhead)
  have hroot : resolve (d.locate d.bucketPath) rootDir.toList
      = d.locate d.bucketPath ++ ["openpuffer".toList] := by
    rw [show rootDir.toList = "openpuffer".toList ++ '/' :: [] by decide, resolve_append_slash,
      resolve_nil, resolve_plain _ plain_rootName]
  rw [namespaceDir, locate, namespacePath, location_join _ _ habs, location_join _ _ (by decide),
    resolve_of_no_slash _ h, ← hroot, locate]

/-- A path of the pieces of a key. -/
theorem locate_join_intercalate (h : '/' ∉ ns.toList) (dirs : List (List Char)) {file : List Char}
    (hfile : Plain file) :
    d.locate (join d.bucketPath
        (['/'].intercalate ("openpuffer".toList :: ns.toList :: (dirs ++ [file])))) =
      dirs.foldl resolve (d.namespaceDir ns) ++ [file] := by
  have habs : isAbsolute
      (['/'].intercalate ("openpuffer".toList :: ns.toList :: (dirs ++ [file]))) = false := by
    rw [intercalate_cons_cons]
    rfl
  rw [locate, location_join _ _ habs, resolve_intercalate, foldl_cons, foldl_cons,
    foldl_append, foldl_cons, foldl_nil, resolve_plain _ hfile,
    resolve_plain _ plain_rootName, resolve_of_no_slash _ h, namespaceDir_eq h, locate]

theorem holds_iff_of_hasPath {key : String} {dirs : List (List Char)} (h : '/' ∉ ns.toList)
    (hpath : HasPath ns dirs key) :
    d.Holds ns key ↔ d.namespaceDir ns <+: dirs.foldl resolve (d.namespaceDir ns) := by
  obtain ⟨file, hfile, hkey⟩ := hpath
  have hne : key.toList ≠ [] := by
    rw [hkey, intercalate_cons_cons]
    simp
  have hsidecar : key.toList ++ ".etag".toList = ['/'].intercalate
      ("openpuffer".toList :: ns.toList :: (dirs ++ [file ++ ".etag".toList])) := by
    rw [hkey]
    exact intercalate_concat_append ("openpuffer".toList :: ns.toList :: dirs) file _
  rw [Holds, etagSidecar, localPath, join_append _ hne, hsidecar, hkey,
    locate_join_intercalate h dirs hfile,
    locate_join_intercalate h dirs (hfile.append (by decide)), strictlyBelow_concat,
    strictlyBelow_concat, and_self]

theorem foldl_columnDirs (dir : Location) (field : String) :
    (columnDirs field).foldl resolve dir = resolve (dir ++ ["index".toList]) field.toList := by
  have hindex : resolve dir "index".toList = dir ++ ["index".toList] :=
    resolve_plain dir (Plain.of_length (by decide) (by decide))
  rw [columnDirs, ← hindex]
  split
  next h =>
    subst h
    rfl
  next => rfl

theorem holds_vectorKey {key : String} (h : '/' ∉ ns.toList) (hkey : VectorKey ns field key) :
    d.Holds ns key ↔ d.Contained ns field := by
  rw [holds_iff_of_hasPath h hkey.hasPath, foldl_columnDirs, Contained]

/-- The names of its columns decide whether a namespace stays in its directory. -/
theorem confined_iff (n : KeySource) :
    d.Confined n ↔ ∀ field, n.KeyField field → d.Contained n.name field := by
  have hslash := (no_slash_of_validateNamespaceName n.valid).2
  constructor
  · intro h field hfield
    obtain ⟨key, hformed, hkey⟩ := hfield.exists_formedKey
    exact (holds_vectorKey hslash hkey).mp (h key hformed)
  · intro h key hkey
    obtain ⟨dirs, hdirs, hpath⟩ := hkey.hasPath
    rw [holds_iff_of_hasPath hslash hpath]
    cases hdirs with
    | top => exact prefix_rfl
    | wal =>
      rw [foldl_cons, foldl_nil,
        resolve_plain _ (Plain.of_length (by decide) (by decide))]
      exact prefix_append _ _
    | index =>
      rw [foldl_columnDirs]
      exact prefix_append _ _
    | column hfield =>
      rw [foldl_columnDirs]
      exact h _ hfield

/-- The check of the query plans keeps a column in the directory. -/
theorem contained_of_validateS3PathSegment {label : String} (ns : String)
    (h : validateS3PathSegment field label = .ok ()) : d.Contained ns field := by
  obtain ⟨hdots, hslash⟩ := no_slash_of_validateS3PathSegment h
  rw [Contained, resolve_of_no_slash _ hslash, follow, if_neg hdots]
  split
  · exact prefix_append _ _
  · rw [append_assoc]
    exact prefix_append _ _

/-! ## Two namespaces -/

def OwnName (ns : String) : Prop := ns ≠ "." ∧ ns ≠ ".."

theorem namespaceDir_own {n : KeySource} (h : OwnName n.name) :
    d.namespaceDir n.name = d.locate d.bucketPath ++ ["openpuffer".toList] ++ [n.name.toList] := by
  rw [namespaceDir_eq (no_slash_of_validateNamespaceName n.valid).2,
    follow_plain _ (plain_of_validateNamespaceName n.valid h.1 h.2)]

theorem namespaceDir_dots : d.namespaceDir ".." = d.locate d.bucketPath := by
  rw [namespaceDir_eq (by decide)]
  exact dropLast_concat

theorem root_prefix_namespaceDir {n : KeySource} (h : n.name ≠ "..") :
    d.locate d.bucketPath ++ ["openpuffer".toList] <+: d.namespaceDir n.name := by
  have hdots : n.name.toList ≠ ['.', '.'] := fun heq => h (String.toList_inj.mp heq)
  rw [namespaceDir_eq (no_slash_of_validateNamespaceName n.valid).2, follow, if_neg hdots]
  split
  · exact prefix_rfl
  · exact prefix_append _ _

theorem bucket_prefix_namespaceDir (n : KeySource) :
    d.locate d.bucketPath <+: d.namespaceDir n.name := by
  by_cases h : n.name = ".."
  · rw [h, namespaceDir_dots]
  · exact (prefix_append _ _).trans (root_prefix_namespaceDir h)

/-- Of the directory of `.` or `..` and that of another namespace, one is in the other. -/
theorem not_apart_of_not_own (h : ¬OwnName a.name) :
    ¬Apart (d.namespaceDir a.name) (d.namespaceDir b.name) := by
  by_cases ha : a.name = ".."
  · rw [ha, namespaceDir_dots]
    exact not_apart_of_prefix (bucket_prefix_namespaceDir b)
  · have hdot : a.name = "." := not_not.mp fun hdot => h ⟨hdot, ha⟩
    by_cases hb : b.name = ".."
    · rw [hb, namespaceDir_dots]
      exact fun hapart => not_apart_of_prefix (bucket_prefix_namespaceDir a) hapart.symm
    · rw [hdot, namespaceDir_eq (by decide)]
      exact not_apart_of_prefix (root_prefix_namespaceDir hb)

theorem apart_iff (hne : a.name ≠ b.name) :
    Apart (d.namespaceDir a.name) (d.namespaceDir b.name) ↔ OwnName a.name ∧ OwnName b.name := by
  constructor
  · intro h
    constructor
    · exact not_not.mp fun ha => not_apart_of_not_own ha h
    · exact not_not.mp fun hb => not_apart_of_not_own hb h.symm
  · rintro ⟨ha, hb⟩
    rw [namespaceDir_own ha, namespaceDir_own hb]
    exact apart_siblings _ fun heq => hne (String.toList_inj.mp heq)

theorem Confined.spares (h : d.Confined b)
    (hapart : Apart (d.namespaceDir a.name) (d.namespaceDir b.name)) : d.Spares a b := by
  intro key hkey path hpath files hfiles
  refine mem_filter.mpr ⟨hfiles, decide_eq_true fun hbelow => hapart _ ⟨hbelow, ?_⟩⟩
  obtain ⟨hlocal, hsidecar⟩ := h key hkey
  rcases mem_pair.mp hpath with rfl | rfl
  · exact hlocal.1
  · exact hsidecar.1

/-- Two namespaces keep to their own directories, which are apart, and neither loses a
file when the other is invalidated, if and only if neither is named `.` or `..` and no
column name leads out. -/
theorem namespaces_kept_apart_iff (d : CacheDir) (a b : KeySource) (hne : a.name ≠ b.name) :
    (d.Confined a ∧ d.Confined b ∧ Apart (d.namespaceDir a.name) (d.namespaceDir b.name) ∧
      d.Spares a b ∧ d.Spares b a) ↔
    (OwnName a.name ∧ OwnName b.name) ∧
      (∀ field, a.KeyField field → d.Contained a.name field) ∧
      (∀ field, b.KeyField field → d.Contained b.name field) := by
  rw [← apart_iff hne, ← confined_iff, ← confined_iff]
  constructor
  · rintro ⟨ha, hb, hapart, -, -⟩
    exact ⟨hapart, ha, hb⟩
  · rintro ⟨hapart, ha, hb⟩
    exact ⟨ha, hb, hapart, hb.spares hapart, ha.spares hapart.symm⟩

/-- A namespace that nothing is known of but its schema. -/
def withSchema (name : String) (valid : validateNamespaceName name = .ok ()) (schema : Json) :
    KeySource where
  name
  valid
  record := { schema }
  sample := none
  tables := []
  stored := fun _ => false
  order := IterOrder.sorted String

theorem keyField_withSchema {name : String} {valid : validateNamespaceName name = .ok ()}
    {schema : Json} (h : (withSchema name valid schema).KeyField field) :
    field ∈ (withSchema name valid schema).indexedFields := by
  cases h with
  | indexed h => exact h
  | listed hcfg => cases hcfg
  | table hl0 => cases hl0

def columnSchema (field : String) : Json := .obj [(field, .str "[2]f32")]

def mine : KeySource := withSchema "mine" rfl (columnSchema "embedding")

def other : KeySource := withSchema "other" rfl (columnSchema "embedding")

def varCache : CacheDir := ⟨[], "/var/cache", "bkt"⟩

theorem embeddings_kept_apart :
    mine.name ≠ other.name ∧ varCache.Confined mine ∧ varCache.Confined other ∧
      Apart (varCache.namespaceDir mine.name) (varCache.namespaceDir other.name) ∧
      varCache.Spares mine other ∧ varCache.Spares other mine := by
  have hvalid : validateS3PathSegment "embedding" "vector field name" = .ok () := by
    decide +kernel
  have hmine : mine.indexedFields = ["embedding"] := by decide +kernel
  have hother : other.indexedFields = ["embedding"] := by decide +kernel
  refine ⟨by decide, (namespaces_kept_apart_iff varCache mine other (by decide)).mpr ⟨?_, ?_, ?_⟩⟩
  · exact ⟨⟨by decide, by decide⟩, by decide, by decide⟩
  · intro field h
    have hfield : field ∈ mine.indexedFields := keyField_withSchema h
    rw [hmine, mem_singleton] at hfield
    rw [hfield]
    exact contained_of_validateS3PathSegment _ hvalid
  · intro field h
    have hfield : field ∈ other.indexedFields := keyField_withSchema h
    rw [hother, mem_singleton] at hfield
    rw [hfield]
    exact contained_of_validateS3PathSegment _ hvalid

/-- A column of this namespace is cached in the directory of another one. -/
def climbing : KeySource := withSchema "mine" rfl (columnSchema "../../other")

def climbingKey : String := "openpuffer/mine/index/../../other/centroids-l0.bin"

theorem names_lead_out :
    mergeSchema (.obj []) (columnSchema "../../other") = .ok climbing.record.schema ∧
      climbing.FormedKey climbingKey ∧ ¬varCache.Holds "mine" climbingKey ∧
      varCache.invalidateNamespace "other" [varCache.localPath climbingKey] = [] ∧
      validateNamespaceName ".." = .ok () ∧ other.FormedKey (metaKey "other") ∧
      varCache.invalidateNamespace ".." [varCache.localPath (metaKey "other")] = [] ∧
      ¬Apart (varCache.namespaceDir "..") (varCache.namespaceDir "other") := by
  have hindexed : climbing.indexedFields = ["../../other"] := by decide +kernel
  have hkey : climbingKey = CentroidIndexL0.key "mine" "../../other" := by decide +kernel
  refine ⟨by decide +kernel, ?_, ?_, by decide +kernel, by decide +kernel, .metaJson,
    by decide +kernel, ?_⟩
  · rw [hkey]
    exact .vector (hindexed ▸ .head _) .l0
  · exact fun h => absurd h.1 (by decide +kernel)
  · exact not_apart_of_prefix (by decide +kernel)

end CacheDir

end OpenPuffer
