import OpenPuffer.Vector.Indexers

/-!
# The documents that stored objects stand for

A pass publishes before it commits, and may lose the conditional PUT.  So stored objects stand
for documents each of which is in its version at some commit point from the cursor on
(`Ahead`), and merging the delta of a later pass keeps this (`Ahead.mergeDelta`).

`Published` says that a load finds an index that covers given documents.  The GETs of a load put
together what `loadVectorIndexFullForField` returns (`load_of_table`).
-/

namespace OpenPuffer

open List

open VectorIndex (HasDim Covers Follows)

/-! ## Documents from a commit point on -/

/-- Every document is in its version at some commit point from `seq` on. -/
def Ahead (log : List WalEntry) (seq : Nat) (docs : DocMap) : Prop :=
  ∀ id, ∃ n, seq ≤ n ∧ n ≤ log.length ∧ docs.lookup id = (replay (log.take n)).lookup id

variable {log : List WalEntry} {docs : DocMap} {t : Nat}

theorem ahead_replay {seq : Nat} (h : seq ≤ log.length) : Ahead log seq (replay (log.take seq)) :=
  fun _ => ⟨seq, Nat.le_refl _, h, rfl⟩

theorem Ahead.mono {seq seq' : Nat} (h : Ahead log seq docs) (hle : seq' ≤ seq) :
    Ahead log seq' docs := by
  intro id
  obtain ⟨n, hseq, hn, hdoc⟩ := h id
  exact ⟨n, hle.trans hseq, hn, hdoc⟩

theorem Ahead.append {seq : Nat} (h : Ahead log seq docs) (more : List WalEntry) :
    Ahead (log ++ more) seq docs := by
  intro id
  obtain ⟨n, hseq, hn, hdoc⟩ := h id
  refine ⟨n, hseq, ?_, ?_⟩
  · rw [length_append]
    exact Nat.le_add_right_of_le hn
  · rw [take_append_of_le_length hn]
    exact hdoc

/-- At the end of the log there is only one version. -/
theorem Ahead.eq_replay (h : Ahead log log.length docs) : docs = replay log := by
  apply HashMap.ext_lookup
  intro id
  obtain ⟨n, hlow, hhigh, hdoc⟩ := h id
  rw [hdoc, Nat.le_antisymm hhigh hlow, take_length]

theorem take_eq_append_drop {n : Nat} (h : n ≤ t) :
    log.take t = log.take n ++ (log.take t).drop n := by
  have hsplit := (take_append_drop n (log.take t)).symm
  rw [take_take, Nat.min_eq_left h] at hsplit
  exact hsplit

/-- The entries between two commit points lead from one to the other. -/
theorem foldl_between {n : Nat} (h : n ≤ t) :
    ((log.take t).drop n).foldl applyEntry (replay (log.take n)) = replay (log.take t) := by
  rw [replay, ← foldl_append, ← take_eq_append_drop h]
  rfl

theorem drop_take_split {c n : Nat} (hcn : c ≤ n) (hnt : n ≤ t) (hn : n ≤ log.length) :
    (log.take t).drop c = (log.take n).drop c ++ (log.take t).drop n := by
  conv_lhs => rw [take_eq_append_drop hnt]
  rw [drop_append_of_le_length]
  rw [length_take]
  omega

/-- Merging the delta of later entries keeps documents that are ahead so. -/
theorem Ahead.mergeDelta {c : Nat} (h : Ahead log c docs) (hct : c ≤ t) (ht : t ≤ log.length)
    (hsurvive : WritesSurvive (replay (log.take c)) ((log.take t).drop c)) (o : IterOrder String) :
    Ahead log t (docs.mergeDelta
      (indexDeltaFromWalEntries o (replay (log.take c)) ((log.take t).drop c)).1
      (indexDeltaFromWalEntries o (replay (log.take c)) ((log.take t).drop c)).2) := by
  have hmerge := mergeDelta_indexDelta hsurvive o
  rw [foldl_between hct] at hmerge
  intro id
  rcases lookup_mergeDelta_cases docs (replay (log.take c))
    (indexDeltaFromWalEntries o (replay (log.take c)) ((log.take t).drop c)).1
    (indexDeltaFromWalEntries o (replay (log.take c)) ((log.take t).drop c)).2 id
    with hsame | ⟨hu, hd, hold⟩
  · refine ⟨t, Nat.le_refl t, ht, ?_⟩
    rw [hsame, hmerge]
  · have hconst : ∀ n, c ≤ n → n ≤ t →
        (replay (log.take n)).lookup id = (replay (log.take c)).lookup id := by
      intro n hcn hnt
      rw [drop_take_split hcn hnt (hnt.trans ht)] at hu hd
      rw [← foldl_between hcn]
      exact lookup_of_not_in_indexDelta hu hd
    obtain ⟨n, hcn, hn, hdoc⟩ := h id
    rw [hold]
    rcases Nat.le_total t n with htn | hnt
    · exact ⟨n, htn, hn, hdoc⟩
    · refine ⟨t, Nat.le_refl t, ht, ?_⟩
      rw [hdoc, hconst n hcn hnt, hconst t hct (Nat.le_refl t)]

/-! ## Loading object by object -/

theorem loadRange_succ {β : Type} (n : Nat) (objects : HashMap Nat β) :
    loadRange (n + 1) objects ∅ false
      = match objects.lookup n with
        | none => loadRange n objects ∅ false
        | some object => (loadRange n objects ∅ false).insert n object := by
  rw [loadRange, range_succ, foldl_append, ← loadRange, foldl_cons, foldl_nil]
  cases objects.lookup n <;> rfl

theorem foldl_getInto_l1 (objs : VectorObjects) (n : Nat) (l0 : CentroidIndexL0) :
    ((List.range n).map LoadKey.l1).foldl objs.getInto { l0 }
      = { l0, l1 := loadRange n objs.l1 ∅ false } := by
  induction n with
  | zero => rfl
  | succ n ih =>
    rw [range_succ, map_append, foldl_append, ih, loadRange_succ,
      map_singleton, foldl_cons, foldl_nil, VectorObjects.getInto]
    cases objs.l1.lookup n <;> rfl

theorem foldl_getInto_cluster (objs : VectorObjects) (n : Nat) (l0 : CentroidIndexL0)
    (l1 : HashMap Nat CentroidIndexL1) :
    ((List.range n).map LoadKey.cluster).foldl objs.getInto { l0, l1 }
      = { l0, l1, clusters := loadRange n objs.clusters ∅ false } := by
  induction n with
  | zero => rfl
  | succ n ih =>
    rw [range_succ, map_append, foldl_append, ih, loadRange_succ,
      map_singleton, foldl_cons, foldl_nil, VectorObjects.getInto]
    cases objs.clusters.lookup n <;> rfl

/-- The GETs of a load put its index together. -/
theorem foldl_getInto_loadKeys (objs : VectorObjects) (l0 : CentroidIndexL0) :
    l0.loadKeys.foldl objs.getInto { l0 }
      = { l0
          l1 := loadRange l0.numCoarse objs.l1 ∅ false
          clusters := loadRange l0.numFineTotal objs.clusters ∅ false } := by
  rw [CentroidIndexL0.loadKeys, foldl_append, foldl_getInto_l1, foldl_getInto_cluster]

@[simp] theorem orLegacy_empty (objs : VectorObjects) (m : NamespaceMeta) (field : String) :
    objs.orLegacy m field {} = objs := by
  rw [VectorObjects.orLegacy]
  split
  · simp
  · rfl

/-- What a load returns once its table has been read. -/
theorem load_of_table {env : LoadEnv} {m : NamespaceMeta} {field : String} {objs : VectorObjects}
    {l0 : CentroidIndexL0} (h : loadVectorL0ForField env m field objs {} = some l0) :
    loadVectorIndexFullForField env m field objs {}
      = if l0.numFineTotal = 0 then none else some (l0.loadKeys.foldl objs.getInto { l0 }) := by
  rw [loadVectorIndexFullForField, h, foldl_getInto_loadKeys]
  simp only [bind, Option.bind]
  split
  · rfl
  · cases vectorIndexUsesLegacyPaths m field with
    | true => simp only [loadRange_union, Finmap.union_empty]
    | false => rfl

/-! ## Published objects -/

section Field

variable {field : String} {d : Nat}

/-- The stored objects load as an index that covers the documents. -/
def Published (field : String) (d : Nat) (objs : VectorObjects) (docs : DocMap) : Prop :=
  ∃ l0, objs.l0 = some l0 ∧ ∀ env m, Covers field d docs (objs.assemble env m l0)

/-- The metadata names a segment of the field exactly if a load looks for it. -/
theorem listsIndex_iff {m : NamespaceMeta} (hm : m.NoLegacy) (hcursor : m.indexCursor ≠ 0)
    (hdims : ∀ seg n, indexedColumn m.vectorFields field = some (seg, n) → n ≠ 0) :
    m.ListsIndex field ↔ indexedColumn m.vectorFields field ≠ none := by
  constructor
  · rintro ⟨-, cfg, hfind, hseg, -⟩
    rw [effectiveVectorFields_eq hm] at hfind
    rw [indexedColumn, columnOf, hfind]
    simp [hseg]
  · intro h
    obtain ⟨⟨seg, n⟩, hcol⟩ := Option.ne_none_iff_exists'.mp h
    obtain ⟨cfg, hcfg, hval⟩ := Option.bind_eq_some_iff.mp hcol
    split at hval
    · cases hval
    · rename_i hseg
      cases hval
      refine ⟨hcursor, cfg, ?_, hseg, hdims _ _ hcol⟩
      rw [effectiveVectorFields_eq hm]
      exact hcfg

theorem Published.load {objs : VectorObjects} {docs : DocMap} (h : Published field d objs docs)
    {m : NamespaceMeta} (hlists : m.ListsIndex field) (env : LoadEnv) :
    ∃ idx, loadVectorIndexFullForField env m field objs {} = some idx ∧
      Covers field d docs idx := by
  obtain ⟨l0, hl0, hcov⟩ := h
  refine ⟨objs.assemble env m l0, ?_, hcov env m⟩
  have hbuilt := (hcov env m).built
  rw [numFineTotal_assemble] at hbuilt
  rw [load_eq hlists, orLegacy_empty, hl0]
  simp only [Option.bind_some, if_neg (Nat.ne_of_gt hbuilt)]

/-- A publication that overwrites every stored cluster in its range, and has no
members beyond it, loads as what was published. -/
theorem published_publish {v : VectorIndex} {docs : DocMap} (h : Covers field d docs v)
    (objs : VectorObjects) (o : PutOrder)
    (hkept : ∀ id < v.l0.numFineTotal, v.clusters.lookup id = none →
      membersAt objs.clusters id = [])
    (hrange : ∀ id, v.l0.numFineTotal ≤ id → membersAt v.clusters id = []) :
    Published field d (objs.publish o v) docs := by
  refine ⟨v.l0, l0_publish objs o v, ?_⟩
  intro env m
  have hmembers : ((objs.publish o v).assemble env m v.l0).members = v.members := by
    refine memberBag_congr fun id => ?_
    rw [membersAt_assemble, clusters_publish]
    split
    · rename_i hlt
      cases hid : v.clusters.lookup id with
      | some c => exact membersAt_union_of_some hid
      | none =>
        rw [membersAt_union_of_none hid, hkept id hlt hid, membersAt, hid]
        rfl
    · rename_i hge
      exact (hrange id (Nat.not_lt.mp hge)).symm
  obtain ⟨version, coarse, fine, htable⟩ := env.table_eq m v.l0
  have hl1 : ∀ c, ((objs.publish o v).assemble env m v.l0).l1.lookup c
      = if c < v.l0.fineCounts.length then (v.l1.lookup c).or (objs.l1.lookup c) else none := by
    intro c
    rw [VectorObjects.assemble]
    simp only [htable]
    rw [lookup_loadRange, l1_publish h.complete.ids, h.complete.numCoarse]
    simp [HashMap.lookup_union_or]
  have hl0 : ((objs.publish o v).assemble env m v.l0).l0
      = { v.l0 with annVersion := version, probeCoarse := coarse, probeFine := fine } := htable
  constructor
  case complete =>
    constructor
    case cell =>
      intro c count hc
      rw [hl0] at hc
      obtain ⟨l1, hcell, hnum, hlen⟩ := h.complete.cell c count hc
      refine ⟨l1, ?_, hnum, hlen⟩
      rw [hl1, if_pos (List.getElem?_eq_some_iff.mp hc).choose, hcell, Option.some_or]
    case ids =>
      intro c l1 hc
      rw [hl1] at hc
      split at hc
      · rename_i hlt
        obtain ⟨l1', hcell, -, -⟩ := h.complete.lookup_l1 hlt
        rw [hcell, Option.some_or] at hc
        cases hc
        exact h.complete.ids c _ hcell
      · cases hc
    all_goals rw [hl0]
    case coarse => exact h.complete.coarse
    case numCoarse => exact h.complete.numCoarse
    case total => exact h.complete.total
  case members =>
    rw [hmembers, hl0]
    exact h.members
  case positive => exact h.positive
  all_goals rw [hl0]
  case built => exact h.built
  case vectorField => exact h.vectorField
  case dimensions => exact h.dimensions
  case centroids => exact h.centroids

end Field

end OpenPuffer
