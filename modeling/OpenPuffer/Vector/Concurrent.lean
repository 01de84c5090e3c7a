import OpenPuffer.Vector.Reload

/-!
# Concurrent indexers and the published index

The members that a load finds should reflect all entries up to the stored cursor.  A pass that
publishes and then loses the conditional PUT leaves the objects ahead of the cursor, which is
harmless (`Ahead`).  A slow pass that publishes after a faster one has committed leaves them
behind it (`slow_pass_loses_document`).  `quiet_index_reflects_log` is for runs in which passes
do not overlap: what a pass read at its start then still holds (`PassTask.Facts`).
-/

namespace OpenPuffer

open Option List FieldStore VectorIndex PassTask

open VectorIndex (HasDim Covers Follows)

section Field

variable {field : String} {d : Nat}

/-! ## The conditions on a run -/

/-- What the next step of a pass asks for.  The field is listed when the pass
starts.  When it computes, the entries it covers can be summarised.  When it
starts to publish, it overwrites every stored cluster in its range that has
members, and it has no members beyond the range. -/
def PassTask.Covered (field : String) (sh : FieldStore) : PassTask → Prop
  | .opening _ _ m => field ∈ (m.vectorFields.map VectorFieldConfig.name).take maxVectorFields
  | .loading call _ m got [] =>
    WritesSurvive (sh.docsAt m.indexCursor) (sh.entries call m) ∧
      (got.l0.numFineTotal = 0 → (∀ e ∈ sh.entries call m, e.patches = []) →
        VectorsLast field ((sh.entries call m).flatMap WalEntry.intoDocuments))
  | .publishing _ _ _ v =>
    0 < v.l0.numFineTotal →
      (∀ id < v.l0.numFineTotal, v.clusters.lookup id = none →
        membersAt sh.objs.clusters id = []) ∧
      ∀ id ∈ v.clusters.keys, v.l0.numFineTotal ≤ id → membersAt v.clusters id = []
  | _ => True

/-- A pass starts only when no other is in progress, its steps meet their
conditions, and all vectors of the field have one length. -/
def Indexers.Serial {P : Type} (field : String) (d : Nat) (s : Indexers P) :
    IndexersAction P → Prop
  | .begin _ _ => ∀ p, (s.tasks p).isIdle = true
  | .advance p => (s.tasks p).Covered field s.shared
  | .append call => call.entry.All (HasDim field d) ∧ s.shared.stored.walCommitSeq < u64Max
  | .compact | .fail _ => True

instance (sh : FieldStore) (t : PassTask) : Decidable (t.Covered field sh) :=
  match t with
  | .opening .. => inferInstanceAs (Decidable (_ ∈ _))
  | .loading _ _ _ _ [] => inferInstanceAs (Decidable (_ ∧ (_ → _)))
  | .publishing .. => inferInstanceAs (Decidable (_ → _ ∧ _))
  | .loading _ _ _ _ (_ :: _) | .idle | .reading .. | .writing .. | .rechecking .. | .locked ..
  | .committing .. => isTrue trivial

instance {P : Type} [Fintype P] (s : Indexers P) (a : IndexersAction P) :
    Decidable (s.Serial field d a) :=
  match a with
  | .begin .. => inferInstanceAs (Decidable (∀ _, _))
  | .advance _ => inferInstanceAs (Decidable (PassTask.Covered _ _ _))
  | .append _ => inferInstanceAs (Decidable (_ ∧ _))
  | .compact | .fail _ => isTrue trivial

/-- A load finds one member per document with a vector, in a version at or after
the cursor, or there is no document with a vector at the cursor. -/
def FieldStore.Reflects (field : String) (env : LoadEnv) (sh : FieldStore) : Prop :=
  match loadVectorIndexFullForField env sh.stored field sh.objs {} with
  | none =>
    ∀ element, vectorMembers field element (sh.docsAt sh.stored.indexCursor) = 0
  | some idx =>
    ∃ docs, Ahead sh.log sh.stored.indexCursor docs ∧
      idx.members = vectorMembers field idx.l0.vectorElement docs

/-! ## What holds between the steps -/

namespace FieldStore

/-- What holds of the metadata and the log, whatever a pass has done to the
objects. -/
structure Consistent (field : String) (d : Nat) (sh : FieldStore) : Prop where
  commit : sh.stored.walCommitSeq = sh.log.length
  commit_le_max : sh.stored.walCommitSeq ≤ u64Max
  cursor_le : sh.stored.indexCursor ≤ sh.log.length
  dims : ∀ e ∈ sh.log, e.All (HasDim field d)
  noLegacy : sh.stored.NoLegacy
  column : ∀ seg n, indexedColumn sh.stored.vectorFields field = some (seg, n) →
    n ≠ 0 ∧ sh.stored.indexCursor ≠ 0
  unindexed : indexedColumn sh.stored.vectorFields field = none →
    ∀ element, vectorMembers field element (sh.docsAt sh.stored.indexCursor) = 0

/-- The objects have the documents from a commit point on. -/
def UpTo (field : String) (d : Nat) (sh : FieldStore) (seq : Nat) : Prop :=
  ∃ docs, Ahead sh.log seq docs ∧ Published field d sh.objs docs

/-- If the field is indexed, the objects have what the cursor says. -/
def Fresh (field : String) (d : Nat) (sh : FieldStore) : Prop :=
  indexedColumn sh.stored.vectorFields field ≠ none → sh.UpTo field d sh.stored.indexCursor

/-- The metadata that a pass read at its start is still right about the cursor
and the segment of the field. -/
structure Started (field : String) (sh : FieldStore) (m : NamespaceMeta) : Prop where
  cursor : m.indexCursor = sh.stored.indexCursor
  column : indexedColumn m.vectorFields field = indexedColumn sh.stored.vectorFields field
  behind : m.indexCursor < m.walCommitSeq
  commit_le : m.walCommitSeq ≤ sh.log.length
  commit_le_max : m.walCommitSeq ≤ u64Max
  noLegacy : m.NoLegacy

/-- What a pass is about to commit is published. -/
structure Planned (field : String) (d : Nat) (sh : FieldStore) (plan : IndexPlan) : Prop where
  pos : plan.toSeq ≠ 0
  le : plan.toSeq ≤ sh.log.length
  listed : (columnOf plan.vectorFields field).isSome = true
  built : ∀ seg n, indexedColumn plan.vectorFields field = some (seg, n) →
    n ≠ 0 ∧ sh.UpTo field d plan.toSeq
  unbuilt : indexedColumn plan.vectorFields field = none →
    ∀ element, vectorMembers field element (sh.docsAt plan.toSeq) = 0

/-- A computed index covers the documents at the end of the pass, or there was
nothing to build. -/
def Computed (field : String) (d : Nat) (sh : FieldStore) (m : NamespaceMeta) (toSeq : Nat)
    (v : VectorIndex) : Prop :=
  (∃ docs, Ahead sh.log toSeq docs ∧ Covers field d docs v) ∨
    (v.l0.numFineTotal = 0 ∧ indexedColumn m.vectorFields field = none ∧
      ∀ element, vectorMembers field element (sh.docsAt toSeq) = 0)

end FieldStore

/-- What holds in each phase of a pass. -/
def PassTask.Facts (field : String) (d : Nat) (sh : FieldStore) : PassTask → Prop
  | .idle | .reading .. => sh.Fresh field d
  | .opening _ _ m => sh.Fresh field d ∧ sh.Started field m
  | .loading call _ m got todo =>
    sh.Fresh field d ∧ sh.Started field m ∧
      field ∈ (m.vectorFields.map VectorFieldConfig.name).take maxVectorFields ∧
      todo.foldl sh.objs.getInto got
        = (loadVectorIndexFullForField call.env m field sh.objs {}).getD {}
  | .publishing call _ m v =>
    sh.Fresh field d ∧ sh.Started field m ∧
      field ∈ (m.vectorFields.map VectorFieldConfig.name).take maxVectorFields ∧
      sh.Computed field d m (indexTo call.toIndexCall m) v
  | .writing call _ m dims todo =>
    sh.Started field m ∧
      field ∈ (m.vectorFields.map VectorFieldConfig.name).take maxVectorFields ∧ dims ≠ 0 ∧
      FieldStore.UpTo field d { sh with objs := sh.objs.putAll todo }
        (indexTo call.toIndexCall m)
  | .rechecking _ _ plan | .locked _ _ plan => sh.Fresh field d ∧ sh.Planned field d plan
  | .committing call _ read newMeta =>
    sh.Fresh field d ∧ sh.metaJson.Seen (some read) ∧
      ∃ plan, sh.Planned field d plan ∧
        metaAfterIndexCommit read.1 plan.toSeq plan.toSeq plan.toSeq plan.vectorFields
          call.env.annBuild.annVersion = .ok newMeta

variable {sh sh' : FieldStore} {m : NamespaceMeta}

theorem FieldStore.docsAt_append {more : List WalEntry} {seq : Nat}
    (hlog : sh'.log = sh.log ++ more) (hseq : seq ≤ sh.log.length) :
    sh'.docsAt seq = sh.docsAt seq := by
  rw [docsAt, hlog, take_append_of_le_length hseq]
  rfl

/-! ## Appends and compactions -/

/-- A writer other than a pass adds to the log and leaves the cursor, the segment
of the field and its objects alone. -/
structure FieldStore.Extends (field : String) (sh sh' : FieldStore) : Prop where
  objs : sh'.objs = sh.objs
  log : ∃ more, sh'.log = sh.log ++ more
  cursor : sh'.stored.indexCursor = sh.stored.indexCursor
  column : indexedColumn sh'.stored.vectorFields field
    = indexedColumn sh.stored.vectorFields field
  seen : ∀ r, sh.metaJson.Seen r → sh'.metaJson.Seen r

namespace FieldStore.Extends

variable {sh sh' : FieldStore} (h : sh.Extends field sh')
include h

theorem length_le : sh.log.length ≤ sh'.log.length := by
  obtain ⟨more, hlog⟩ := h.log
  rw [hlog, length_append]
  exact Nat.le_add_right _ _

theorem docsAt {seq : Nat} (hseq : seq ≤ sh.log.length) : sh'.docsAt seq = sh.docsAt seq := by
  obtain ⟨more, hlog⟩ := h.log
  exact docsAt_append hlog hseq

theorem ahead {seq : Nat} {docs : DocMap} (ha : Ahead sh.log seq docs) :
    Ahead sh'.log seq docs := by
  obtain ⟨more, hlog⟩ := h.log
  rw [hlog]
  exact ha.append more

theorem upTo {seq : Nat} (hup : sh.UpTo field d seq) : sh'.UpTo field d seq := by
  obtain ⟨docs, ha, hpub⟩ := hup
  refine ⟨docs, h.ahead ha, ?_⟩
  rw [h.objs]
  exact hpub

theorem fresh (hf : sh.Fresh field d) : sh'.Fresh field d := by
  intro hcol
  rw [h.column] at hcol
  rw [h.cursor]
  exact h.upTo (hf hcol)

theorem started {m : NamespaceMeta} (hs : sh.Started field m) : sh'.Started field m where
  cursor := hs.cursor.trans h.cursor.symm
  column := hs.column.trans h.column.symm
  behind := hs.behind
  commit_le := hs.commit_le.trans h.length_le
  commit_le_max := hs.commit_le_max
  noLegacy := hs.noLegacy

theorem planned {plan : IndexPlan} (hp : sh.Planned field d plan) : sh'.Planned field d plan where
  pos := hp.pos
  le := hp.le.trans h.length_le
  listed := hp.listed
  built := fun seg n hcol => ⟨(hp.built seg n hcol).1, h.upTo (hp.built seg n hcol).2⟩
  unbuilt := by
    intro hcol element
    rw [h.docsAt hp.le]
    exact hp.unbuilt hcol element

theorem computed {m : NamespaceMeta} {toSeq : Nat} {v : VectorIndex}
    (hto : toSeq ≤ sh.log.length) (hc : sh.Computed field d m toSeq v) :
    sh'.Computed field d m toSeq v := by
  rcases hc with ⟨docs, ha, hcov⟩ | ⟨hzero, hcol, hnone⟩
  · exact .inl ⟨docs, h.ahead ha, hcov⟩
  · refine .inr ⟨hzero, hcol, ?_⟩
    rw [h.docsAt hto]
    exact hnone

/-- A pass in progress does not notice. -/
theorem facts {t : PassTask} (ht : t.Facts field d sh) : t.Facts field d sh' := by
  cases t with
  | idle | reading => exact h.fresh ht
  | opening => exact ⟨h.fresh ht.1, h.started ht.2⟩
  | loading call attempt m got todo =>
    obtain ⟨hf, hs, hlisted, hload⟩ := ht
    refine ⟨h.fresh hf, h.started hs, hlisted, ?_⟩
    rw [h.objs]
    exact hload
  | publishing call attempt m v =>
    obtain ⟨hf, hs, hlisted, hc⟩ := ht
    have hto := (indexTo_bounds hs.behind hs.commit_le_max call.toIndexCall).2
    exact ⟨h.fresh hf, h.started hs, hlisted, h.computed (hto.trans hs.commit_le) hc⟩
  | writing call attempt m dims todo =>
    obtain ⟨hs, hlisted, hdims, docs, ha, hpub⟩ := ht
    refine ⟨h.started hs, hlisted, hdims, docs, h.ahead ha, ?_⟩
    simp only [h.objs]
    exact hpub
  | rechecking | locked => exact ⟨h.fresh ht.1, h.planned ht.2⟩
  | committing call attempt read newMeta =>
    obtain ⟨hf, hseen, plan, hp, hnew⟩ := ht
    exact ⟨h.fresh hf, h.seen _ hseen, plan, h.planned hp, hnew⟩

end FieldStore.Extends

theorem FieldStore.append_spec {call : AppendCall} (hc : sh.Consistent field d)
    (hdim : call.entry.All (HasDim field d)) (hmax : sh.stored.walCommitSeq < u64Max)
    (h : sh.append call = some sh') : sh'.Consistent field d ∧ sh.Extends field sh' := by
  rw [append] at h
  split at h
  · cases h
  rename_i m hm
  cases h
  obtain ⟨hcommit, hcursor, -⟩ := metaAfterWalCommitOptions_counters hm
  rw [nextWalSeq, saturatingAdd_one_of_lt hmax] at hcommit
  have hext : sh.Extends field
      { sh with metaJson := sh.metaJson.put m, log := sh.log ++ [call.entry] } :=
    ⟨rfl, ⟨_, rfl⟩, hcursor, indexedColumn_walCommit hm field, fun _ hr => hr.put m⟩
  refine ⟨?_, hext⟩
  constructor
  case commit =>
    rw [length_append, ← hc.commit]
    exact hcommit
  case commit_le_max => exact Nat.le_trans (Nat.le_of_eq hcommit) hmax
  case cursor_le => exact (Nat.le_of_eq hcursor).trans (hc.cursor_le.trans hext.length_le)
  case dims =>
    intro e he
    rcases mem_append.mp he with hold | hnew
    · exact hc.dims e hold
    · rw [mem_singleton.mp hnew]
      exact hdim
  case noLegacy => exact hc.noLegacy.walCommit hm
  case column =>
    intro seg n hcol
    rw [hext.column] at hcol
    rw [hext.cursor]
    exact hc.column seg n hcol
  case unindexed =>
    intro hcol
    rw [hext.column] at hcol
    rw [hext.cursor, hext.docsAt hc.cursor_le]
    exact hc.unindexed hcol

theorem FieldStore.compact_spec (hc : sh.Consistent field d) (h : sh.compact = some sh') :
    sh'.Consistent field d ∧ sh.Extends field sh' := by
  rw [compact] at h
  split at h
  · cases h
  rename_i m tag hcur
  split at h
  · cases h
    have hstored : sh.stored = m := by rw [stored, hcur]; rfl
    rw [← hstored]
    refine ⟨⟨hc.commit, hc.commit_le_max, hc.cursor_le, hc.dims, hc.noLegacy, hc.column,
      hc.unindexed⟩, rfl, ⟨[], (append_nil _).symm⟩, rfl, rfl, fun _ hr => hr.put _⟩
  · cases h

/-! ## The steps of a pass -/

theorem vectorFieldsToIndex_of_listed
    (h : field ∈ (m.vectorFields.map VectorFieldConfig.name).take maxVectorFields)
    (o : IterOrder String) (sample : Option Document) :
    vectorFieldsToIndex o m.schema m sample
      = (m.vectorFields.map VectorFieldConfig.name).take maxVectorFields := by
  have htake := isEmpty_eq_false_iff.mpr (ne_nil_of_mem h)
  have hne := isEmpty_eq_false_iff.mpr (ne_nil_of_mem (mem_of_mem_take h))
  simp only [vectorFieldsToIndex, hne, htake, Bool.false_eq_true, if_false]

theorem isSome_columnOf_of_listed
    (h : field ∈ (m.vectorFields.map VectorFieldConfig.name).take maxVectorFields) :
    (columnOf m.vectorFields field).isSome = true := by
  rw [isSome_iff_ne_none, ne_eq, columnOf_eq_none, not_not]
  exact mem_of_mem_take h

/-- The columns that a pass passes on: the field's is new if the pass has
published its index. -/
theorem plan_column
    (hlisted : field ∈ (m.vectorFields.map VectorFieldConfig.name).take maxVectorFields)
    (sh : FieldStore) (call : PassCall) (hto : indexTo call.toIndexCall m ≠ 0) (own : Option Nat) :
    (columnOf (sh.plan field call m own).vectorFields field).isSome = true ∧
      indexedColumn (sh.plan field call m own).vectorFields field
        = (own.map fun n => (indexTo call.toIndexCall m, n)).or
          (if own.isSome then none else indexedColumn m.vectorFields field) := by
  have hcol := isSome_columnOf_of_listed hlisted
  have hbase : ¬(m.vectorFields = [] ∧ m.vectorField ≠ "" ∧ m.dimensions > 0) :=
    fun hnil => ne_nil_of_columnOf hcol hnil.1
  simp only [plan, indexedVectorFields, if_neg hbase]
  rw [vectorFieldsToIndex_of_listed hlisted]
  cases own with
  | none =>
    have hnot : field ∉ (((m.vectorFields.map VectorFieldConfig.name).take
        maxVectorFields).filterMap fun name =>
          (if name = field then none else call.others name).map fun dims =>
            (name, dims)).map Prod.fst := by
      intro hmem
      obtain ⟨b, hb, hname⟩ := mem_map.mp hmem
      obtain ⟨name, -, hval⟩ := mem_filterMap.mp hb
      obtain ⟨dims, hdims, rfl⟩ := map_eq_some_iff.mp hval
      rw [if_pos hname] at hdims
      cases hdims
    rw [indexedColumn, columnOf_index_of_not_mem hnot]
    exact ⟨hcol, rfl⟩
  | some n =>
    have hmem : (field, n) ∈ ((m.vectorFields.map VectorFieldConfig.name).take
        maxVectorFields).filterMap fun name =>
          (if name = field then some n else call.others name).map fun dims => (name, dims) :=
      mem_filterMap.mpr ⟨field, hlisted, by simp⟩
    have hindexed := indexedColumn_index_of_mem hto hmem
      (by
        intro b hb hname
        obtain ⟨name, -, hval⟩ := mem_filterMap.mp hb
        obtain ⟨dims, hdims, rfl⟩ := map_eq_some_iff.mp hval
        rw [if_pos hname] at hdims
        exact (some.inj hdims).symm)
      m.schema hcol
    refine ⟨?_, hindexed⟩
    obtain ⟨c, hc, -⟩ := bind_eq_some_iff.mp hindexed
    rw [hc]
    rfl

/-- What is loaded covers documents from the cursor on. -/
theorem load_spec (hc : sh.Consistent field d) (hf : sh.Fresh field d)
    (hcursor : m.indexCursor = sh.stored.indexCursor)
    (hcolumn : indexedColumn m.vectorFields field = indexedColumn sh.stored.vectorFields field)
    (hlegacy : m.NoLegacy) (env : LoadEnv) :
    (∃ docs, Ahead sh.log m.indexCursor docs ∧ ∃ idx,
        loadVectorIndexFullForField env m field sh.objs {} = some idx ∧ Covers field d docs idx) ∨
      (loadVectorIndexFullForField env m field sh.objs {} = none ∧
        indexedColumn m.vectorFields field = none) := by
  have hdims : ∀ seg n, indexedColumn m.vectorFields field = some (seg, n) →
      n ≠ 0 ∧ m.indexCursor ≠ 0 := by
    intro seg n hcol
    rw [hcolumn] at hcol
    rw [hcursor]
    exact hc.column seg n hcol
  cases hcol : indexedColumn m.vectorFields field with
  | some column =>
    obtain ⟨seg, n⟩ := column
    have hlists := (listsIndex_iff hlegacy (hdims seg n hcol).2
      fun seg n h => (hdims seg n h).1).mpr (by rw [hcol]; exact some_ne_none _)
    rw [hcolumn] at hcol
    obtain ⟨docs, ha, hpub⟩ := hf (by rw [hcol]; exact some_ne_none _)
    rw [← hcursor] at ha
    exact .inl ⟨docs, ha, hpub.load hlists env⟩
  | none =>
    refine .inr ⟨?_, rfl⟩
    rw [eq_none_iff_forall_ne_some]
    intro idx hload
    have hlists := listsIndex_of_load hload
    exact absurd hcol ((listsIndex_iff hlegacy hlists.cursor
      fun seg n h => (hdims seg n h).1).mp hlists)

theorem FieldStore.Consistent.all_docsAt (hc : sh.Consistent field d) (seq : Nat) :
    (sh.docsAt seq).All (HasDim field d) := by
  refine DocMap.All.applyEntries (mergeable_hasDim field d) ?_
    fun e he => hc.dims e (mem_of_mem_take he)
  intro id attrs h
  cases h

theorem indexed_spec (q : Quantizer) (hd : d ≠ 0) (hc : sh.Consistent field d)
    (hf : sh.Fresh field d) (hs : sh.Started field m) {call : PassCall} {got : VectorIndex}
    (hgot : got = (loadVectorIndexFullForField call.env m field sh.objs {}).getD {})
    (hsurvive : WritesSurvive (sh.docsAt m.indexCursor) (sh.entries call m))
    (hlast : got.l0.numFineTotal = 0 → (∀ e ∈ sh.entries call m, e.patches = []) →
      VectorsLast field ((sh.entries call m).flatMap WalEntry.intoDocuments)) :
    ∃ v, sh.indexed q field call m got = .ok v ∧
      sh.Computed field d m (indexTo call.toIndexCall m) v := by
  obtain ⟨hlow, hhigh⟩ := indexTo_bounds hs.behind hs.commit_le_max call.toIndexCall
  have hto := hhigh.trans hs.commit_le
  have hmergeable := mergeable_hasDim field d
  have hentries : ∀ e ∈ sh.entries call m, e.All (HasDim field d) :=
    fun e he => hc.dims e (mem_of_mem_take (mem_of_mem_drop he))
  have hupserts := all_indexDelta hmergeable (hc.all_docsAt m.indexCursor) hentries
    call.deltaOrder
  rw [indexed]
  rcases load_spec hc hf hs.cursor hs.column hs.noLegacy call.env with
    ⟨docs, ha, idx, hload, hcov⟩ | ⟨hload, hcol⟩
  · rw [hload] at hgot
    subst hgot
    obtain ⟨v, hrun, hv⟩ := indexDelta_of_covers q hcov
      (hc.all_docsAt (indexTo call.toIndexCall m)) hupserts (sh.delta call m).2
    refine ⟨_, by rw [delta] at hrun ⊢; rw [hrun]; rfl, .inl ?_⟩
    have hstamped : ∀ {docs : DocMap}, Covers field d docs v → Covers field d docs
        (if v.l0.numFineTotal > 0 then v.setSegmentId (indexTo call.toIndexCall m) else v) := by
      intro docs h
      rw [if_pos h.built]
      exact h.becomes (setSegmentId_becomes h.complete _) h.members
    rcases hv with hmerged | hrebuilt
    · exact ⟨_, ha.mergeDelta (Nat.le_of_lt hlow) hto hsurvive call.deltaOrder, hstamped hmerged⟩
    · exact ⟨_, ahead_replay hto, hstamped hrebuilt⟩
  · rw [hload, getD_none] at hgot
    subst hgot
    have hnone := hc.unindexed (hs.column ▸ hcol)
    rw [← hs.cursor] at hnone
    have hzero : ({} : VectorIndex).l0.numFineTotal = 0 := rfl
    obtain ⟨v, hrun, hv⟩ := indexDelta_of_unbuilt q hzero (.inr hnone) hupserts
      (vectorsLast_indexDelta (hlast rfl) call.deltaOrder _)
      (sh.docsAt (indexTo call.toIndexCall m)) (sh.delta call m).2
    have hmerge : (sh.docsAt m.indexCursor).mergeDelta (sh.delta call m).1 (sh.delta call m).2
        = sh.docsAt (indexTo call.toIndexCall m) :=
      (mergeDelta_indexDelta hsurvive call.deltaOrder).trans (foldl_between (Nat.le_of_lt hlow))
    refine ⟨_, by rw [delta] at hrun ⊢; rw [hrun]; rfl, ?_⟩
    rw [delta] at hmerge
    rw [delta, hmerge] at hv
    have hstamped := hv.setSegmentId (indexTo call.toIndexCall m)
    cases hstamped with
    | covers h => exact .inl ⟨_, ahead_replay hto, h⟩
    | unbuilt hzero hempty => exact .inr ⟨hzero, hcol, hempty.resolve_left hd⟩

theorem FieldStore.Consistent.setObjs (hc : sh.Consistent field d) (objs : VectorObjects) :
    FieldStore.Consistent field d { sh with objs } :=
  ⟨hc.commit, hc.commit_le_max, hc.cursor_le, hc.dims, hc.noLegacy, hc.column, hc.unindexed⟩

theorem facts_retry (hf : sh.Fresh field d) (call : PassCall) (attempt : Nat) :
    (PassTask.retry call attempt).Facts field d sh := by
  rw [retry]
  split
  · exact hf
  · exact hf

/-- The metadata of a pass that wins the conditional PUT. -/
theorem FieldStore.Planned.commit (hc : sh.Consistent field d) {plan : IndexPlan}
    (hp : sh.Planned field d plan) {newMeta : NamespaceMeta} {ann : Nat}
    (hnew : metaAfterIndexCommit sh.stored plan.toSeq plan.toSeq plan.toSeq plan.vectorFields ann
      = .ok newMeta) :
    FieldStore.Consistent field d { sh with metaJson := sh.metaJson.put newMeta } ∧
      FieldStore.Fresh field d { sh with metaJson := sh.metaJson.put newMeta } := by
  obtain ⟨hcommit, hcursor, -⟩ := metaAfterIndexCommit_counters hnew
  have hfields := metaAfterIndexCommit_vectorFields hnew
  have hstored : stored { sh with metaJson := sh.metaJson.put newMeta } = newMeta := rfl
  constructor
  · constructor
    case dims => exact hc.dims
    all_goals rw [hstored]
    case commit => exact hcommit.trans hc.commit
    case commit_le_max => exact (Nat.le_of_eq hcommit).trans hc.commit_le_max
    case cursor_le => exact (Nat.le_of_eq hcursor).trans hp.le
    case noLegacy =>
      intro hnil
      rw [hfields] at hnil
      exact absurd hnil (ne_nil_of_columnOf hp.listed)
    case column =>
      intro seg n hcol
      rw [hfields] at hcol
      rw [hcursor]
      exact ⟨(hp.built seg n hcol).1, hp.pos⟩
    case unindexed =>
      intro hcol
      rw [hfields] at hcol
      rw [hcursor]
      exact hp.unbuilt hcol
  · intro hcol
    rw [hstored, hfields] at hcol
    obtain ⟨⟨seg, n⟩, hsome⟩ := ne_none_iff_exists'.mp hcol
    rw [hstored, hcursor]
    exact (hp.built seg n hsome).2

/-! ## One step of a pass that runs alone -/

/-- The next request of a pass leaves the facts of the phase after it. -/
abbrev PassTask.NextHolds (q : Quantizer) (field : String) (d : Nat) (sh : FieldStore)
    (t : PassTask) : Prop :=
  (t.next q field sh).1.Consistent field d ∧
    (t.next q field sh).2.Facts field d (t.next q field sh).1

theorem FieldStore.stored_of_current {found : NamespaceMeta × Nat}
    (hcur : sh.metaJson.current = some found) : sh.stored = found.1 := by
  rw [FieldStore.stored, hcur]
  rfl

section Phases

variable (q : Quantizer) (hc : sh.Consistent field d) {call : PassCall} {attempt : Nat}

include hc

theorem nextHolds_reading (hf : (reading call attempt).Facts field d sh) :
    (reading call attempt).NextHolds q field d sh := by
  simp only [NextHolds, PassTask.next]
  split
  · exact ⟨hc, hf⟩
  · rename_i m tag hcur
    have hm : sh.stored = m := stored_of_current hcur
    split
    · exact ⟨hc, hf⟩
    · rename_i hbehind
      refine ⟨hc, hf, ?_⟩
      subst hm
      exact ⟨rfl, rfl, Nat.not_le.mp hbehind, Nat.le_of_eq hc.commit, hc.commit_le_max,
        hc.noLegacy⟩

theorem nextHolds_opening (ht : (opening call attempt m).Facts field d sh)
    (hlisted : field ∈ (m.vectorFields.map VectorFieldConfig.name).take maxVectorFields) :
    (opening call attempt m).NextHolds q field d sh := by
  obtain ⟨hf, hs⟩ := ht
  simp only [NextHolds, PassTask.next]
  rw [vectorFieldsToIndex_of_listed hlisted, if_pos hlisted]
  split
  · rename_i hl0
    refine ⟨hc, hf, hs, hlisted, ?_⟩
    rw [loadVectorIndexFullForField, hl0]
    rfl
  · rename_i l0 hl0
    split
    · rename_i hzero
      refine ⟨hc, hf, hs, hlisted, ?_⟩
      rw [load_of_table hl0, if_pos hzero]
      rfl
    · rename_i hsome
      refine ⟨hc, hf, hs, hlisted, ?_⟩
      rw [load_of_table hl0, if_neg hsome]
      rfl

theorem nextHolds_loading (hd : d ≠ 0) {got : VectorIndex} {todo : List LoadKey}
    (ht : (loading call attempt m got todo).Facts field d sh)
    (hcov : (loading call attempt m got todo).Covered field sh) :
    (loading call attempt m got todo).NextHolds q field d sh := by
  obtain ⟨hf, hs, hlisted, hload⟩ := ht
  cases todo with
  | cons key todo => exact ⟨hc, hf, hs, hlisted, hload⟩
  | nil =>
    obtain ⟨hsurvive, hlast⟩ := hcov
    have hgot : got = _ := hload
    obtain ⟨v, hrun, hv⟩ := indexed_spec q hd hc hf hs hgot hsurvive hlast
    simp only [NextHolds, PassTask.next, hrun]
    exact ⟨hc, hf, hs, hlisted, hv⟩

theorem nextHolds_publishing {v : VectorIndex}
    (ht : (publishing call attempt m v).Facts field d sh)
    (hcov : (publishing call attempt m v).Covered field sh) :
    (publishing call attempt m v).NextHolds q field d sh := by
  obtain ⟨hf, hs, hlisted, hv⟩ := ht
  obtain ⟨hlow, hhigh⟩ := indexTo_bounds hs.behind hs.commit_le_max call.toIndexCall
  simp only [NextHolds, PassTask.next]
  split
  · rename_i hpos
    rcases hv with ⟨docs, ha, hvcov⟩ | ⟨hzero, -⟩
    · obtain ⟨hkept, hrange⟩ := hcov hpos
      refine ⟨hc, hs, hlisted, ?_, docs, ha, ?_⟩
      · rw [hvcov.dimensions]
        exact hvcov.positive
      · refine published_publish hvcov sh.objs call.putOrder hkept ?_
        intro id hid
        by_cases hmem : id ∈ v.clusters.keys
        · exact hrange id hmem hid
        · rw [Finmap.mem_keys, ← Finmap.lookup_eq_none] at hmem
          rw [membersAt, hmem]
          rfl
    · exact absurd hzero (Nat.ne_of_gt hpos)
  · rename_i hnot
    rcases hv with ⟨docs, -, hvcov⟩ | ⟨-, hcol, hnone⟩
    · exact absurd hvcov.built hnot
    · obtain ⟨hlistedPlan, hplan⟩ :=
        plan_column hlisted sh call (Nat.ne_of_gt (Nat.zero_lt_of_lt hlow)) none
      have hplan' : indexedColumn (sh.plan field call m none).vectorFields field = none :=
        hplan.trans hcol
      refine ⟨hc, hf, Nat.ne_of_gt (Nat.zero_lt_of_lt hlow), hhigh.trans hs.commit_le,
        hlistedPlan, ?_, fun _ => hnone⟩
      intro seg n hsome
      rw [hplan'] at hsome
      cases hsome

theorem nextHolds_writing {dims : Nat} {todo : List VectorPut}
    (ht : (writing call attempt m dims todo).Facts field d sh) :
    (writing call attempt m dims todo).NextHolds q field d sh := by
  obtain ⟨hs, hlisted, hdims, hup⟩ := ht
  cases todo with
  | cons put todo =>
    exact ⟨hc.setObjs _,
      ⟨hs.cursor, hs.column, hs.behind, hs.commit_le, hs.commit_le_max, hs.noLegacy⟩,
      hlisted, hdims, hup⟩
  | nil =>
    have hup' : sh.UpTo field d (indexTo call.toIndexCall m) := hup
    obtain ⟨hlow, hhigh⟩ := indexTo_bounds hs.behind hs.commit_le_max call.toIndexCall
    obtain ⟨hlistedPlan, hplan⟩ :=
      plan_column hlisted sh call (Nat.ne_of_gt (Nat.zero_lt_of_lt hlow)) (some dims)
    have hplan' : indexedColumn (sh.plan field call m (some dims)).vectorFields field
        = some (indexTo call.toIndexCall m, dims) := hplan
    refine ⟨hc, ?_, Nat.ne_of_gt (Nat.zero_lt_of_lt hlow), hhigh.trans hs.commit_le,
      hlistedPlan, ?_, ?_⟩
    · obtain ⟨docs, ha, hpub⟩ := hup'
      exact fun _ => ⟨docs, ha.mono (hs.cursor ▸ Nat.le_of_lt hlow), hpub⟩
    · intro seg n hsome
      rw [hplan'] at hsome
      cases hsome
      exact ⟨hdims, hup'⟩
    · intro hnone
      rw [hplan'] at hnone
      cases hnone

theorem nextHolds_rechecking {plan : IndexPlan}
    (ht : (rechecking call attempt plan).Facts field d sh) :
    (rechecking call attempt plan).NextHolds q field d sh := by
  obtain ⟨hf, hp⟩ := ht
  simp only [NextHolds, PassTask.next]
  repeat' split
  all_goals first
    | exact ⟨hc, hf⟩
    | exact ⟨hc, facts_retry hf call attempt⟩
    | exact ⟨hc, hf, hp⟩

theorem nextHolds_locked {plan : IndexPlan} (ht : (locked call attempt plan).Facts field d sh) :
    (locked call attempt plan).NextHolds q field d sh := by
  obtain ⟨hf, hp⟩ := ht
  simp only [NextHolds, PassTask.next]
  split
  · exact ⟨hc, hf⟩
  · rename_i found hcur
    split
    · exact ⟨hc, hf⟩
    split
    · exact ⟨hc, facts_retry hf call attempt⟩
    split
    · exact ⟨hc, hf⟩
    · rename_i newMeta hnew
      refine ⟨hc, hf, ?_, plan, hp, hnew⟩
      rw [← hcur]
      exact sh.metaJson.seen_current

theorem nextHolds_committing {read : NamespaceMeta × Nat} {newMeta : NamespaceMeta}
    (ht : (committing call attempt read newMeta).Facts field d sh) :
    (committing call attempt read newMeta).NextHolds q field d sh := by
  obtain ⟨hf, hseen, plan, hp, hnew⟩ := ht
  simp only [NextHolds, PassTask.next]
  split
  · rename_i hhit
    rw [← stored_of_current (hseen.eq_of_matches hhit)] at hnew
    exact hp.commit hc hnew
  · exact ⟨hc, facts_retry hf call attempt⟩

theorem PassTask.Facts.next (hd : d ≠ 0) {t : PassTask} (ht : t.Facts field d sh)
    (hcov : t.Covered field sh) : t.NextHolds q field d sh := by
  cases t with
  | idle => exact ⟨hc, ht⟩
  | reading => exact nextHolds_reading q hc ht
  | opening => exact nextHolds_opening q hc ht hcov
  | loading => exact nextHolds_loading q hc hd ht hcov
  | publishing => exact nextHolds_publishing q hc ht hcov
  | writing => exact nextHolds_writing q hc ht
  | rechecking => exact nextHolds_rechecking q hc ht
  | locked => exact nextHolds_locked q hc ht
  | committing => exact nextHolds_committing q hc ht

end Phases

/-! ## Runs -/

section Runs

variable {P : Type}

/-- At most one pass is in progress, and its facts hold. -/
structure Indexers.Inv (field : String) (d : Nat) (s : Indexers P) : Prop where
  consistent : s.shared.Consistent field d
  alone : (s.Quiet ∧ s.shared.Fresh field d) ∨
    ∃ p, (∀ p', p' ≠ p → s.tasks p' = .idle) ∧ (s.tasks p).Facts field d s.shared

variable {t : PassTask} {s : Indexers P}

theorem PassTask.isIdle_iff : t.isIdle = true ↔ t = .idle := by
  cases t <;> simp [isIdle]

theorem Indexers.Inv.fresh (h : s.Inv field d) (hquiet : s.Quiet) : s.shared.Fresh field d := by
  rcases h.alone with ⟨-, hf⟩ | ⟨p, -, hp⟩
  · exact hf
  · rw [hquiet p] at hp
    exact hp

/-- A writer other than a pass. -/
theorem Indexers.Inv.extends (h : s.Inv field d) {shared : FieldStore}
    (hc : shared.Consistent field d) (hext : s.shared.Extends field shared) :
    Indexers.Inv field d { s with shared } := by
  refine ⟨hc, ?_⟩
  rcases h.alone with ⟨hquiet, hf⟩ | ⟨p, hothers, hp⟩
  · exact .inl ⟨hquiet, hext.fresh hf⟩
  · exact .inr ⟨p, hothers, hext.facts hp⟩

theorem inv_initial (field : String) (d : Nat) : Indexers.Inv field d ({} : Indexers P) where
  consistent :=
    { commit := rfl
      commit_le_max := Nat.zero_le _
      cursor_le := Nat.le_refl 0
      dims := fun e he => absurd he not_mem_nil
      noLegacy := fun _ => rfl
      column := fun seg n h => by cases h
      unindexed := fun _ _ => vectorMembers_empty }
  alone := .inl ⟨fun _ => rfl, fun h => absurd rfl h⟩

variable [DecidableEq P] (q : Quantizer)

/-- The only pass moves on. -/
theorem inv_update {p : P} (hothers : ∀ p', p' ≠ p → s.tasks p' = .idle) {shared : FieldStore}
    (hc : shared.Consistent field d) (ht : t.Facts field d shared) :
    Indexers.Inv field d { shared, tasks := Function.update s.tasks p t } := by
  refine ⟨hc, .inr ⟨p, ?_, ?_⟩⟩
  · intro p' hne
    exact (Function.update_of_ne hne _ _).trans (hothers p' hne)
  · simp only [Function.update_self]
    exact ht

/-- A pass in progress is the only one. -/
theorem Indexers.Inv.running (h : s.Inv field d) {p : P} (hp : s.tasks p ≠ .idle) :
    (∀ p', p' ≠ p → s.tasks p' = .idle) ∧ (s.tasks p).Facts field d s.shared := by
  rcases h.alone with ⟨hquiet, -⟩ | ⟨p₀, hothers, hfacts⟩
  · exact absurd (hquiet p) hp
  · have hsame : p = p₀ := by
      by_contra hne
      exact hp (hothers p hne)
    subst hsame
    exact ⟨hothers, hfacts⟩

theorem fresh_of_gets {sh : FieldStore} (ht : t.Facts field d sh) (hgets : t.gets = true) :
    sh.Fresh field d := by
  cases t with
  | reading => exact ht
  | opening | loading | rechecking | locked => exact ht.1
  | idle | publishing | writing | committing => cases hgets

theorem Indexers.Inv.step (hd : d ≠ 0) {s' : Indexers P} {a : IndexersAction P}
    (h : s.Inv field d) (hserial : s.Serial field d a)
    (hstep : (indexers q field).step s a = some s') : s'.Inv field d := by
  cases a with
  | begin p call =>
    have hquiet : s.Quiet := fun p' => isIdle_iff.mp (hserial p')
    simp only [indexers] at hstep
    split at hstep
    · cases hstep
      exact inv_update (fun p' _ => hquiet p') h.consistent (h.fresh hquiet)
    · cases hstep
  | advance p =>
    simp only [indexers] at hstep
    split at hstep
    · cases hstep
    · rename_i hrunning
      cases hstep
      obtain ⟨hothers, hfacts⟩ := h.running fun hidle =>
        hrunning (isIdle_iff.mpr hidle)
      obtain ⟨hc, ht⟩ := hfacts.next q h.consistent hd hserial
      exact inv_update hothers hc ht
  | append call =>
    obtain ⟨shared, happend, rfl⟩ := map_eq_some_iff.mp hstep
    obtain ⟨hc, hext⟩ := append_spec h.consistent hserial.1 hserial.2 happend
    exact h.extends hc hext
  | compact =>
    obtain ⟨shared, hcompact, rfl⟩ := map_eq_some_iff.mp hstep
    obtain ⟨hc, hext⟩ := compact_spec h.consistent hcompact
    exact h.extends hc hext
  | fail p =>
    simp only [indexers] at hstep
    split at hstep
    · rename_i hgets
      cases hstep
      obtain ⟨hothers, hfacts⟩ := h.running fun hidle => by
        rw [hidle] at hgets
        cases hgets
      exact inv_update hothers h.consistent (fresh_of_gets hfacts hgets)
    · cases hstep

/-- What a load finds while no pass is in progress. -/
theorem FieldStore.Fresh.reflects {sh : FieldStore} (hc : sh.Consistent field d)
    (hf : sh.Fresh field d) (env : LoadEnv) : sh.Reflects field env := by
  rw [Reflects]
  rcases load_spec hc hf rfl rfl hc.noLegacy env with ⟨docs, ha, idx, hload, hcov⟩ | ⟨hload, hcol⟩
  · rw [hload]
    exact ⟨docs, ha, hcov.members⟩
  · rw [hload]
    exact hc.unindexed hcol

/-- Let any number of processes index, append and compact, with passes that do not
overlap.  Whenever no pass is in progress, a load finds all entries up to the
stored cursor. -/
theorem quiet_index_reflects_log {field : String} {d : Nat} (hd : d ≠ 0)
    {as : List (IndexersAction P)} {u : Indexers P}
    (hserial : (indexers q field).Along (Indexers.Serial field d) {} as)
    (hvisit : (indexers q field).Visits {} as u) (hquiet : u.Quiet) (env : LoadEnv) :
    u.shared.Reflects field env := by
  have hinv : u.Inv field d :=
    Machine.visits_invariant (fun _ _ _ h hs hstep => h.step q hd hs hstep)
      (inv_initial field d) hserial hvisit
  exact (hinv.fresh hquiet).reflects hinv.consistent env

end Runs

end Field

/-- Append a document with a vector, with the schema of the field. -/
def appendVector (id : String) (x : Int) : AppendCall where
  entry := putPoints [(id, x)]
  schemaPatch := some (.obj [("emb", .str "[1]f32")])

/-- Requests of one process in a row. -/
def advances {P : Type} (p : P) (n : Nat) : List (IndexersAction P) := List.replicate n (.advance p)

/-- The first process indexes the first of two entries, then the other process the
second one. -/
def passesInTurn : List (IndexersAction (Fin 2)) :=
  [.append (appendVector "a" 1), .append (appendVector "b" 2),
    .begin 0 { maxSegments := some 1 }] ++ advances 0 11 ++ [.begin 1 {}] ++ advances 1 13

theorem passes_in_turn_reflect_log :
    ∃ u, (indexers quantizer "emb").run {} passesInTurn = some u ∧ u.Quiet ∧
      u.shared.stored.indexCursor = 2 ∧ u.shared.Reflects "emb" {} := by
  have hserial : (indexers quantizer "emb").Along (Indexers.Serial "emb" 1) {} passesInTurn := by
    decide +kernel
  have hrun : ((indexers quantizer "emb").run {} passesInTurn).map (fun u =>
      (u.shared.stored.indexCursor, decide (∀ p, (u.tasks p).isIdle = true)))
        = some (2, true) := by
    decide +kernel
  obtain ⟨u, hu, hend⟩ := map_eq_some_iff.mp hrun
  simp only [Prod.mk.injEq, decide_eq_true_eq] at hend
  have hquiet : u.Quiet := fun p => isIdle_iff.mp (hend.2 p)
  exact ⟨u, hu, hquiet, hend.1, quiet_index_reflects_log quantizer Nat.one_ne_zero hserial
    (Machine.visits_end hu) hquiet {}⟩

/-- The first process computes an index of the first entry, the other one indexes
both and commits, and only then the first one publishes. -/
def slowPass : List (IndexersAction (Fin 2)) :=
  [.append (appendVector "a" 1), .append (appendVector "b" 2),
    .begin 0 { maxSegments := some 1 }] ++ advances 0 3 ++ [.begin 1 {}] ++ advances 1 11 ++
    advances 0 6

/-- A slow pass overwrites the objects of a faster one, and a document at the
cursor is gone. -/
theorem slow_pass_loses_document :
    ∃ u, (indexers quantizer "emb").run {} slowPass = some u ∧ u.Quiet ∧
      u.shared.stored.indexCursor = 2 ∧
      (∀ e ∈ u.shared.log, e.All (VectorIndex.HasDim "emb" 1)) ∧
      ¬u.shared.Reflects "emb" {} := by
  have hrun : ((indexers quantizer "emb").run {} slowPass).map (fun u =>
      (u.shared.stored.indexCursor, u.shared.log.length,
        decide ((∀ p, (u.tasks p).isIdle = true) ∧
          ∀ e ∈ u.shared.log, e.All (HasDim "emb" 1)),
        (loadVectorIndexFullForField {} u.shared.stored "emb" u.shared.objs {}).map fun idx =>
          (idx.members.card,
            (vectorMembers "emb" idx.l0.vectorElement (replay u.shared.log)).card)))
        = some (2, 2, true, some (1, 2)) := by
    decide +kernel
  obtain ⟨u, hu, hend⟩ := map_eq_some_iff.mp hrun
  simp only [Prod.mk.injEq, decide_eq_true_eq] at hend
  obtain ⟨hcursor, hlength, ⟨hidle, hdims⟩, hload⟩ := hend
  have hquiet : u.Quiet := fun p => isIdle_iff.mp (hidle p)
  refine ⟨u, hu, hquiet, hcursor, hdims, ?_⟩
  intro hreflects
  obtain ⟨idx, hidx, hcards⟩ := map_eq_some_iff.mp hload
  obtain ⟨hcard, hcard'⟩ := Prod.mk.inj hcards
  rw [Reflects, hidx] at hreflects
  obtain ⟨docs, ha, hmembers⟩ := hreflects
  rw [hcursor.trans hlength.symm] at ha
  rw [hmembers, ha.eq_replay, hcard'] at hcard
  cases hcard

end OpenPuffer
