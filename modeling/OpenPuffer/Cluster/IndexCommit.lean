import OpenPuffer.Cluster.MetaInvariants

/-!
# The columns of an index commit

An index pass brings the vector columns along from the metadata it read at its start, and puts
them in place of those of a freshly read version.  A column that a commit declared in between
is dropped.  `index_commit_keeps_columns_iff` says which interleavings keep all columns.  The
segments are never a problem (`NamespaceMeta.SegmentsBounded`).
-/

namespace OpenPuffer

open Option List Machine Cluster VectorFieldConfig

/-! ## Segments lie below the cursor -/

/-- No column has a segment beyond the cursor. -/
structure NamespaceMeta.SegmentsBounded (m : NamespaceMeta) : Prop where
  columns : ∀ c ∈ m.vectorFields, c.segmentId ≤ m.indexCursor
  legacy : m.vectorSegmentId ≤ m.indexCursor

variable {m : NamespaceMeta} {fields : List VectorFieldConfig} {t : Task}

theorem NamespaceMeta.SegmentsBounded.sync (h : m.SegmentsBounded) :
    (syncLegacyVectorFields m).SegmentsBounded := by
  have hcursor := (syncLegacyVectorFields_counters m).2.1
  refine ⟨?_, ?_⟩
  · rw [vectorFields_syncLegacyVectorFields, hcursor]
    exact h.columns
  · rw [syncLegacyVectorFields]
    split
    · rename_i first rest hfields
      exact h.columns first (hfields ▸ mem_cons_self)
    · split
      · exact h.legacy
      · exact Nat.zero_le _

theorem segments_updateVectorField {name : String} {f : VectorFieldConfig → VectorFieldConfig}
    {n : Nat} (hf : ∀ c, c.segmentId ≤ n → (f c).segmentId ≤ n)
    (h : ∀ c ∈ fields, c.segmentId ≤ n) :
    ∀ c ∈ updateVectorField name f fields, c.segmentId ≤ n := by
  induction fields with
  | nil => exact h
  | cons b fields ih =>
    have hb := h b mem_cons_self
    have hrest : ∀ c ∈ fields, c.segmentId ≤ n := fun c hc => h c (mem_cons_of_mem b hc)
    rw [updateVectorField]
    split
    · exact forall_mem_cons.mpr ⟨hf b hb, hrest⟩
    · exact forall_mem_cons.mpr ⟨hb, ih hrest⟩

/-- Refreshing a column, or adding it while there is room, keeps a bound. -/
theorem segments_upsert {name : String} {f : VectorFieldConfig → VectorFieldConfig} {n : Nat}
    (hf : ∀ c, c.segmentId ≤ n → (f c).segmentId ≤ n) {new : VectorFieldConfig}
    (hnew : new.segmentId ≤ n) (h : ∀ c ∈ fields, c.segmentId ≤ n) :
    ∀ c ∈ (if fields.any (fun c => c.name = name) then updateVectorField name f fields
      else if fields.length < maxVectorFields then fields ++ [new] else fields),
      c.segmentId ≤ n := by
  split
  · exact segments_updateVectorField hf h
  · split
    · intro c hc
      rcases mem_append.mp hc with hold | hlast
      · exact h c hold
      · rw [mem_singleton.mp hlast]
        exact hnew
    · exact h

theorem segments_hydrate {n : Nat} (schema : Json) (names : List String)
    (h : ∀ c ∈ fields, c.segmentId ≤ n) :
    ∀ c ∈ names.foldl (hydrateVectorField schema) fields, c.segmentId ≤ n := by
  induction names generalizing fields with
  | nil => exact h
  | cons name names ih =>
    refine ih ?_
    refine segments_upsert ?_ ?_ h
    · exact fun _ hc => hc
    · exact Nat.zero_le _

theorem segments_index {toSeq : Nat} (schema : Json) (built : List (String × Nat))
    (h : ∀ c ∈ fields, c.segmentId ≤ toSeq) :
    ∀ c ∈ built.foldl (indexVectorField schema toSeq) fields, c.segmentId ≤ toSeq := by
  induction built generalizing fields with
  | nil => exact h
  | cons b built ih =>
    refine ih ?_
    refine segments_upsert ?_ ?_ h
    · exact fun _ _ => Nat.le_refl _
    · exact Nat.le_refl _

theorem NamespaceMeta.SegmentsBounded.indexedVectorFields (h : m.SegmentsBounded) {toSeq : Nat}
    (hto : m.indexCursor ≤ toSeq) (built : List (String × Nat)) :
    ∀ c ∈ indexedVectorFields m toSeq built, c.segmentId ≤ toSeq := by
  refine segments_index m.schema built ?_
  split
  · intro c hc
    rw [mem_singleton.mp hc]
    exact h.legacy.trans hto
  · exact fun c hc => (h.columns c hc).trans hto

theorem NamespaceMeta.SegmentsBounded.walCommit {m' : NamespaceMeta} {seq : Nat}
    {patch : Option Json} {metric : Option DistanceMetric} (hm : m.SegmentsBounded)
    (h : metaAfterWalCommitOptions m seq patch metric = .ok m') : m'.SegmentsBounded := by
  obtain ⟨-, schema, resolved, -, -, rfl⟩ := metaAfterWalCommitOptions_inv h
  obtain ⟨hcolumns, hlegacy⟩ := NamespaceMeta.SegmentsBounded.sync
    (m := hydrateVectorFieldsFromSchema { m with walCommitSeq := seq, schema })
    ⟨segments_hydrate schema _ hm.columns, hm.legacy⟩
  exact ⟨hcolumns, hlegacy⟩

theorem NamespaceMeta.SegmentsBounded.indexCommit {m' : NamespaceMeta}
    {cursor fts filter ann : Nat} (hm : m.SegmentsBounded)
    (hfields : ∀ c ∈ fields, c.segmentId ≤ cursor)
    (h : metaAfterIndexCommit m cursor fts filter fields ann = .ok m') : m'.SegmentsBounded := by
  obtain ⟨hlt, -, version, rfl⟩ := metaAfterIndexCommit_inv h
  obtain ⟨hcolumns, hlegacy⟩ := NamespaceMeta.SegmentsBounded.sync
    (m := { m with
      indexCursor := cursor
      ftsSegmentId := fts
      ftsSegmentIds := pushSegmentId m.ftsSegmentIds fts
      filterSegmentId := filter
      filterSegmentIds := pushSegmentId m.filterSegmentIds filter
      vectorFields := fields })
    ⟨hfields, hm.legacy.trans (Nat.le_of_lt hlt)⟩
  exact ⟨hcolumns, hlegacy⟩

/-! ## What the tasks carry -/

/-- The plan of an index pass between its first and its last read. -/
def Task.plan? : Task → Option IndexPlan
  | .indexRecheck _ _ _ plan | .indexLock _ _ plan | .indexGetLocked _ _ _ plan => some plan
  | _ => none

/-- The task is about to make the first read of a round. -/
def Task.isIndexGet : Task → Bool
  | .indexGet .. => true
  | _ => false

theorem plan_of_isIndexGet (h : t.isIndexGet = true) : t.plan? = none := by
  cases t <;> first | rfl | cases h

/-- The effect is the write of an index commit or a compaction. -/
def Effect.isPutMeta : Effect → Bool
  | .putMeta _ => true
  | _ => false

/-- Plans and prepared metadata are bounded. -/
structure Task.Bounded (t : Task) : Prop where
  plan : ∀ plan, t.plan? = some plan → ∀ c ∈ plan.vectorFields, c.segmentId ≤ plan.toSeq
  prepared : ∀ call attempt prep, t = .indexPutMeta call attempt prep →
    prep.newMeta.SegmentsBounded

theorem Task.Bounded.of_isFresh (hfresh : t.isFresh = true) (hplan : t.plan? = none) :
    t.Bounded := by
  refine ⟨?_, ?_⟩
  · intro plan h
    rw [hplan] at h
    cases h
  · rintro call attempt prep rfl
    cases hfresh

/-- A plan comes from the task before or from the first read of a pass. -/
theorem taskStep_plan {ns : String} {st : Store} {r : Reply} {built : List (String × Nat)}
    {plan : IndexPlan} (h : (taskStep ns st r built t).task.plan? = some plan) :
    t.plan? = some plan ∨
      ∃ call attempt tries m tag, t = .indexGet call attempt tries ∧
        fetchMeta ns st r = .ok (some (m, tag)) ∧ m.indexCursor < m.walCommitSeq ∧
        plan = ⟨indexTo call m, indexedVectorFields m (indexTo call m) built⟩ := by
  cases t with
  | indexGet call attempt tries =>
    simp only [taskStep, retryGet] at h
    split at h
    · rename_i m tag hf
      split at h
      · cases h
      · rename_i hbehind
        cases h
        exact .inr ⟨call, attempt, tries, m, tag, rfl, hf, Nat.not_le.mp hbehind, rfl⟩
    · cases h
    · split at h <;> cases h
  | indexRecheck call attempt tries plan' =>
    simp only [taskStep, retryGet, indexContinue] at h
    repeat' split at h
    all_goals first
      | cases h; exact .inl rfl
      | cases h
  | indexLock call attempt plan' =>
    cases h
    exact .inl rfl
  | indexGetLocked call attempt tries plan' =>
    simp only [taskStep, retryGet, indexContinue, prepareIndex] at h
    repeat' split at h
    all_goals first
      | cases h; exact .inl rfl
      | cases h
  | compactDelete seqs => cases seqs <;> cases h
  | _ =>
    simp only [taskStep, retryGet, prepareCommit, compactReplay] at h
    repeat' split at h
    all_goals cases h

/-- The metadata that a pass prepares from its plan. -/
theorem taskStep_prepared {ns : String} {st : Store} {r : Reply} {built : List (String × Nat)}
    {call : IndexCall} {attempt : Nat} {prep : PreparedIndex}
    (h : (taskStep ns st r built t).task = .indexPutMeta call attempt prep) :
    ∃ plan, t.plan? = some plan ∧ fetchMeta ns st r = .ok (some prep.read) ∧
      metaAfterIndexCommit prep.read.1 plan.toSeq plan.toSeq plan.toSeq plan.vectorFields
        call.annVersion = .ok prep.newMeta := by
  cases t with
  | indexGetLocked call' attempt' tries plan =>
    simp only [taskStep, retryGet, indexContinue, prepareIndex] at h
    split at h
    · rename_i found hf
      split at h
      · cases h
      split at h
      · split at h <;> cases h
      split at h
      · rename_i newMeta hnew
        cases h
        exact ⟨plan, rfl, hf, hnew⟩
      · cases h
    · cases h
    · split at h <;> cases h
  | compactDelete seqs => cases seqs <;> cases h
  | idle | indexLock | compactLock | appendDelete => cases h
  | _ =>
    simp only [taskStep, retryGet, indexContinue, prepareCommit, compactReplay] at h
    repeat' split at h
    all_goals cases h

theorem plan_of_acquired {t' : Task} (h : t.acquired = some t') : t'.plan? = t.plan? := by
  cases t <;> cases h <;> rfl

theorem plan_of_moves {P R : Type} {s : Cluster P R} {a : Action P} (h : s.Moves a t) :
    t.plan? = none ∨ t.plan? = (s.task a.thread).plan? := by
  cases a with
  | start p job =>
    cases h
    cases job <;> exact .inl rfl
  | acquire p => exact .inr (plan_of_acquired h)
  | send p r built => cases h
  | stop p =>
    cases h
    exact .inl rfl

/-! ## Stored metadata is bounded -/

section Runs

variable {P R : Type} {ns : String} {proc : P → R}

/-- What every reachable state satisfies. -/
structure ColumnInv (proc : P → R) (s : Cluster P R) : Prop where
  base : MetaInv proc s
  stored : s.shared.store.storedMeta.SegmentsBounded
  tasks : ∀ p, (s.task p).Bounded

variable {s s' : Cluster P R} {a : Action P} {r : Reply} {built : List (String × Nat)} {p : P}
  {plan : IndexPlan}

theorem Task.Bounded.of_moves (h : ∀ p, (s.task p).Bounded) {t : Task} (hm : s.Moves a t) :
    t.Bounded := by
  have hfresh := hm.isFresh
  refine ⟨?_, ?_⟩
  · intro plan hplan
    rcases plan_of_moves hm with hnone | hsame
    · rw [hnone] at hplan
      cases hplan
    · rw [hsame] at hplan
      exact (h a.thread).plan plan hplan
  · rintro call attempt prep rfl
    cases hfresh

theorem Task.Bounded.step {st : Store} (hsound : st.storedMeta.Sound)
    (hst : st.storedMeta.SegmentsBounded) {t : Task} (ht : t.Bounded) (r : Reply)
    (built : List (String × Nat)) : (taskStep ns st r built t).task.Bounded := by
  refine ⟨?_, ?_⟩
  · intro plan hplan
    rcases taskStep_plan hplan with hold | ⟨call, attempt, tries, m, tag, -, hf, hbehind, rfl⟩
    · exact ht.plan plan hold
    · have hm := storedMeta_of_current (fetchMeta_eq_some hf)
      rw [hm] at hsound hst
      have hto := (indexTo_bounds hbehind hsound.commit_le_max call).1
      exact hst.indexedVectorFields (Nat.le_of_lt hto) built
  · intro call attempt prep hprep
    obtain ⟨plan, hplan, hf, hnew⟩ := taskStep_prepared hprep
    have hm := storedMeta_of_current (fetchMeta_eq_some hf)
    rw [hm] at hst
    exact hst.indexCommit (ht.plan plan hplan) hnew

theorem SegmentsBounded.effect {sh : Shared} {t : Task}
    (hst : sh.store.storedMeta.SegmentsBounded) (hfacts : MetaFacts sh t) (ht : t.Bounded) :
    (sh.store.apply (taskStep ns sh.store r built t).effect).storedMeta.SegmentsBounded := by
  have hcurrent := hfacts.storedMeta_eq
  refine taskStep_effect_of_writes
    (Q := fun eff => (sh.store.apply eff).storedMeta.SegmentsBounded) hst ?_
  intro eff hw
  cases hw with
  | putWal | undoWal | putSnapshot | deleteWal => exact hst
  | @commit c attempt prep hhit =>
    rw [hcurrent _ rfl hhit] at hst
    exact hst.walCommit prep.prepared
  | @index call attempt prep hhit => exact ht.prepared call attempt prep rfl
  | @compact attempt read hhit =>
    have hread : sh.store.storedMeta = read.found.1 := hcurrent _ rfl hhit
    rw [hread] at hst
    exact ⟨hst.columns, hst.legacy⟩

theorem ColumnInv.initial (hidle : s.Idle) (habsent : s.shared.store.metaJson.current = none) :
    ColumnInv proc s := by
  have hempty : s.shared.store.storedMeta = .empty := by
    rw [Store.storedMeta, habsent]
    rfl
  refine ⟨⟨hidle.locked, by rw [hempty]; exact .empty, ?_⟩, ?_, ?_⟩
  · intro p
    rw [hidle.1 p]
    exact ⟨fun read hread => (by cases hread), .nil⟩
  · rw [hempty]
    exact ⟨fun c hc => absurd hc not_mem_nil, Nat.le_refl 0⟩
  · intro p
    rw [hidle.1 p]
    exact .of_isFresh rfl rfl

variable [DecidableEq P] [DecidableEq R]

theorem ColumnInv.step (h : ColumnInv proc s) (hstep : (cluster ns proc).step s a = some s') :
    ColumnInv proc s' := by
  obtain ⟨-, hstored, htasks⟩ := step_invariant
    (I := fun sh => sh.store.storedMeta.SegmentsBounded) (T := fun _ t => t.Bounded)
    hstep h.base.locked h.stored h.tasks (fun t ht => .of_moves h.tasks ht)
    (by
      rintro p r built rfl -
      exact ⟨SegmentsBounded.effect h.stored (h.base.facts p) (h.tasks p),
        (h.tasks p).step h.base.sound h.stored r built⟩)
    (by
      rintro p r built q rfl - -
      exact h.tasks q)
  exact ⟨(h.base.step hstep).1, hstored, htasks⟩

theorem columnInv_of_run {u : Cluster P R} {as : List (Action P)} (h : ColumnInv proc s)
    (hrun : (cluster ns proc).run s as = some u) : ColumnInv proc u :=
  run_keeps (fun _ _ _ hv hs => hv.step hs) h hrun

/-! ## Commits during a pass -/

def columnNames (m : NamespaceMeta) : List String := m.vectorFields.map VectorFieldConfig.name

/-- Apart from appends nobody writes `meta.json`, and thread `p` does not start
another round of its pass. -/
def Cluster.OnlyCommits (ns : String) (p : P) (s : Cluster P R) (a : Action P) : Prop :=
  (s.effect ns a).isPutMeta = false ∧ (a.thread = p → (s.task p).isIndexGet = false)

/-- A commit on given metadata adds only columns that the plan carries. -/
def Effect.AddsCarried (stored : NamespaceMeta) (plan : IndexPlan) : Effect → Prop
  | .commit m _ =>
    ∀ name ∈ columnNames m, name ∈ columnNames stored ∨
      name ∈ plan.vectorFields.map VectorFieldConfig.name
  | _ => True

instance (stored : NamespaceMeta) (plan : IndexPlan) (eff : Effect) :
    Decidable (eff.AddsCarried stored plan) :=
  match eff with
  | .commit m _ => inferInstanceAs (Decidable (∀ name ∈ columnNames m, _ ∨ _))
  | .none | .putWal .. | .undoWal _ | .putMeta _ | .putSnapshot _ | .deleteWal _ => isTrue trivial

def Cluster.AddsCarried (ns : String) (plan : IndexPlan) (s : Cluster P R) (a : Action P) : Prop :=
  (s.effect ns a).AddsCarried s.shared.store.storedMeta plan

instance (p : P) (s : Cluster P R) (a : Action P) : Decidable (s.OnlyCommits ns p a) :=
  inferInstanceAs (Decidable (_ ∧ (_ → _)))

instance (plan : IndexPlan) (s : Cluster P R) (a : Action P) :
    Decidable (s.AddsCarried ns plan a) :=
  inferInstanceAs (Decidable (Effect.AddsCarried _ _ _))

/-- What a pass in progress relies on: its plan, and the segments it read. -/
structure Underway (proc : P → R) (p : P) (plan : IndexPlan) (m₀ : NamespaceMeta)
    (s : Cluster P R) : Prop where
  inv : ColumnInv proc s
  plan : ∀ plan', (s.task p).plan? = some plan' → plan' = plan
  segments : ∀ name, indexedColumn s.shared.store.storedMeta.vectorFields name
    = indexedColumn m₀.vectorFields name

/-- A write of `meta.json` that is no index commit or compaction is an append. -/
theorem stored_of_onlyCommits (hinv : ColumnInv proc s) (honly : s.OnlyCommits ns p a)
    (hstep : (cluster ns proc).step s a = some s') :
    (s'.shared.store.storedMeta = s.shared.store.storedMeta ∧
        ∀ m e, s.effect ns a ≠ .commit m e) ∨
      ∃ m e seq patch metric, s.effect ns a = .commit m e ∧
        s'.shared.store.storedMeta = m ∧
        metaAfterWalCommitOptions s.shared.store.storedMeta seq patch metric = .ok m := by
  obtain ⟨o, ho, -, rfl⟩ := step_eq_some hstep
  rcases outcome_cases ho with ⟨p', r, built, rfl, -, rfl⟩ | ⟨t, rfl, ht⟩
  · have hfacts := hinv.base.facts p'
    have hnot : ∀ m, (taskStep ns s.shared.store r built (s.task p')).effect ≠ .putMeta m := by
      intro m hm
      have hfalse : (taskStep ns s.shared.store r built (s.task p')).effect.isPutMeta = false :=
        honly.1
      rw [hm] at hfalse
      cases hfalse
    show ((s.shared.store.apply (taskStep ns s.shared.store r built
        (s.task p')).effect).storedMeta = _ ∧
        ∀ m e, (taskStep ns s.shared.store r built (s.task p')).effect ≠ .commit m e) ∨
      ∃ m e seq patch metric, (taskStep ns s.shared.store r built (s.task p')).effect
          = .commit m e ∧
        (s.shared.store.apply (taskStep ns s.shared.store r built
          (s.task p')).effect).storedMeta = m ∧ _
    refine taskStep_effect_of_writes
      (Q := fun eff => (∀ m, eff ≠ .putMeta m) →
        ((s.shared.store.apply eff).storedMeta = s.shared.store.storedMeta ∧
            ∀ m e, eff ≠ .commit m e) ∨
          ∃ m e seq patch metric, eff = .commit m e ∧
            (s.shared.store.apply eff).storedMeta = m ∧
            metaAfterWalCommitOptions s.shared.store.storedMeta seq patch metric = .ok m)
      (fun _ => .inl ⟨rfl, fun m e h => (nomatch h)⟩) ?_ hnot
    intro eff hw hnot'
    revert hw
    generalize htask : s.task p' = t at hfacts
    intro hw
    cases hw with
    | putWal | undoWal | putSnapshot | deleteWal => exact .inl ⟨rfl, fun m e h => (nomatch h)⟩
    | @commit c attempt prep hhit =>
      refine .inr ⟨prep.newMeta, c.entry, prep.read.nextSeq, c.schemaPatch, c.distanceMetric,
        rfl, rfl, ?_⟩
      rw [Store.storedMeta, (hfacts.seen _ rfl).eq_of_matches hhit]
      exact prep.prepared
    | index | compact => exact absurd rfl (hnot' _)
  · refine .inl ⟨?_, ?_⟩
    · show (s.shared.after { task := t }).store.storedMeta = _
      rw [Shared.after_task]
    · intro m e h
      cases a with
      | send => cases ht
      | start | acquire | stop => cases h

/-- The plan of a thread that does not start another round stays the same. -/
theorem plan_of_onlyCommits (hplan : ∀ plan', (s.task p).plan? = some plan' → plan' = plan)
    (honly : s.OnlyCommits ns p a) (hstep : (cluster ns proc).step s a = some s') :
    ∀ plan', (s'.task p).plan? = some plan' → plan' = plan := by
  obtain ⟨o, ho, -, rfl⟩ := step_eq_some hstep
  intro plan' h
  by_cases hp : p = a.thread
  · have htask : (s.after proc a.thread o).task p = o.task := by
      rw [hp]
      exact Function.update_self ..
    rw [htask] at h
    rcases outcome_cases ho with ⟨p', r, built, rfl, -, rfl⟩ | ⟨t, rfl, ht⟩
    · have hp' : p = p' := hp
      subst hp'
      rcases taskStep_plan h with hold | ⟨call, attempt, tries, m, tag, hget, -⟩
      · exact hplan plan' hold
      · have hnot := honly.2 rfl
        rw [hget] at hnot
        cases hnot
    · rcases plan_of_moves ht with hnone | hsame
      · rw [hnone] at h
        cases h
      · rw [hsame, ← hp] at h
        exact hplan plan' h
  · have htask : (s.after proc a.thread o).task p = s.task p := Function.update_of_ne hp _ _
    rw [htask] at h
    exact hplan plan' h

theorem Underway.step {m₀ : NamespaceMeta} (h : Underway proc p plan m₀ s)
    (honly : s.OnlyCommits ns p a) (hstep : (cluster ns proc).step s a = some s') :
    Underway proc p plan m₀ s' := by
  refine ⟨h.inv.step hstep, plan_of_onlyCommits h.plan honly hstep, ?_⟩
  intro name
  rcases stored_of_onlyCommits h.inv honly hstep with
    ⟨hsame, -⟩ | ⟨m, e, seq, patch, metric, -, hstored, hm⟩
  · rw [hsame]
    exact h.segments name
  · rw [hstored, indexedColumn_walCommit hm]
    exact h.segments name

theorem columnNames_walCommit {m m' : NamespaceMeta} {seq : Nat} {patch : Option Json}
    {metric : Option DistanceMetric} (h : metaAfterWalCommitOptions m seq patch metric = .ok m')
    {name : String} (hname : name ∈ columnNames m) : name ∈ columnNames m' := by
  obtain ⟨schema, -, hfields⟩ := vectorFields_walCommit h
  have hsome : (columnOf m.vectorFields name).isSome = true := by
    rw [isSome_iff_ne_none, ne_eq, columnOf_eq_none, not_not]
    exact hname
  have hkept := isSome_columnOf_hydrate hsome schema
    ((vectorFieldsFromSchema schema).take maxVectorFields)
  rw [← hfields, isSome_iff_ne_none, ne_eq, columnOf_eq_none, not_not] at hkept
  exact hkept

/-- All stored columns are carried after a step exactly if they were before it and
it adds only carried ones. -/
theorem carried_step (hinv : ColumnInv proc s) (honly : s.OnlyCommits ns p a)
    (hstep : (cluster ns proc).step s a = some s') :
    (∀ name ∈ columnNames s'.shared.store.storedMeta,
        name ∈ plan.vectorFields.map VectorFieldConfig.name) ↔
      (∀ name ∈ columnNames s.shared.store.storedMeta,
        name ∈ plan.vectorFields.map VectorFieldConfig.name) ∧ s.AddsCarried ns plan a := by
  rcases stored_of_onlyCommits hinv honly hstep with
    ⟨hsame, hnone⟩ | ⟨m, e, seq, patch, metric, heff, hstored, hm⟩
  · have hadds : s.AddsCarried ns plan a := by
      rw [AddsCarried]
      revert hnone
      cases s.effect ns a with
      | commit m e => exact fun hnone => absurd rfl (hnone m e)
      | _ => exact fun _ => trivial
    rw [hsame]
    exact (and_iff_left hadds).symm
  · rw [hstored, AddsCarried, heff]
    constructor
    · intro hall
      exact ⟨fun name hname => hall name (columnNames_walCommit hm hname),
        fun name hname => .inr (hall name hname)⟩
    · rintro ⟨hold, hadds⟩ name hname
      exact (hadds name hname).elim (hold name) id

/-- The plan carries every column of the metadata it was made from, with a segment
that is not smaller. -/
theorem plan_carries {m : NamespaceMeta} (hm : m.SegmentsBounded) {toSeq : Nat}
    (hto : m.indexCursor ≤ toSeq) (built : List (String × Nat)) {c : VectorFieldConfig}
    {name : String} (hcol : columnOf m.vectorFields name = some c) :
    ∃ g, columnOf (indexedVectorFields m toSeq built) name = some g ∧
      c.segmentId ≤ g.segmentId := by
  have hsome : (columnOf m.vectorFields name).isSome = true := by
    rw [hcol]
    rfl
  have hbase : ¬(m.vectorFields = [] ∧ m.vectorField ≠ "" ∧ m.dimensions > 0) :=
    fun hnil => ne_nil_of_columnOf hsome hnil.1
  simp only [indexedVectorFields, if_neg hbase]
  exact columnOf_index_of_le hcol ((hm.columns c (mem_of_columnOf hcol)).trans hto) m.schema built

/-- What a plan keeps of given columns: their names are enough. -/
theorem keeps_columns_iff {stored m₀ : NamespaceMeta}
    (hdistinct : DistinctColumns stored.vectorFields)
    (hsegments : ∀ name, indexedColumn stored.vectorFields name
      = indexedColumn m₀.vectorFields name) {fields : List VectorFieldConfig}
    (hcarries : ∀ name c, columnOf m₀.vectorFields name = some c →
      ∃ g, columnOf fields name = some g ∧ c.segmentId ≤ g.segmentId) :
    (∀ f ∈ stored.vectorFields, ∃ g ∈ fields, g.name = f.name ∧ f.segmentId ≤ g.segmentId) ↔
      ∀ name ∈ columnNames stored, name ∈ fields.map VectorFieldConfig.name := by
  constructor
  · intro h name hname
    obtain ⟨f, hf, rfl⟩ := mem_map.mp hname
    obtain ⟨g, hg, hgname, -⟩ := h f hf
    exact mem_map.mpr ⟨g, hg, hgname⟩
  · intro h f hf
    by_cases hzero : f.segmentId = 0
    · obtain ⟨g, hg, hgname⟩ := mem_map.mp (h f.name (mem_map_of_mem hf))
      exact ⟨g, hg, hgname, hzero ▸ Nat.zero_le _⟩
    · have hcol := hsegments f.name
      rw [indexedColumn, columnOf_of_mem hdistinct.nodup hf, bind_some, if_neg hzero] at hcol
      obtain ⟨c, hc, hval⟩ := bind_eq_some_iff.mp hcol.symm
      split at hval
      · cases hval
      · obtain ⟨hseg, -⟩ := Prod.mk.inj (some.inj hval)
        obtain ⟨g, hg, hge⟩ := hcarries f.name c hc
        exact ⟨g, mem_of_columnOf hg, name_of_columnOf hg, hseg ▸ hge⟩

/-! ## A whole pass -/

/-- A request changes the shared part and the task of its thread. -/
theorem send_eq_some (h : (cluster ns proc).step s (.send p r built) = some s') :
    s'.task p = (taskStep ns s.shared.store r built (s.task p)).task ∧
      s'.shared = s.shared.after (taskStep ns s.shared.store r built (s.task p)) := by
  obtain ⟨o, ho, -, rfl⟩ := step_eq_some h
  rcases outcome_cases ho with ⟨p', r', built', ha, -, rfl⟩ | ⟨t, -, ht⟩
  · cases ha
    exact ⟨Function.update_self p _ s.task, rfl⟩
  · cases ht

theorem underway_of_read {s₁ : Cluster P R} (hinv : ColumnInv proc s)
    (hget : (s.task p).isIndexGet = true)
    (hread : (cluster ns proc).step s (.send p r built) = some s₁)
    (hplan : (s₁.task p).plan? = some plan) :
    Underway proc p plan s₁.shared.store.storedMeta s₁ ∧
      ∀ name c, columnOf s₁.shared.store.storedMeta.vectorFields name = some c →
        ∃ g, columnOf plan.vectorFields name = some g ∧ c.segmentId ≤ g.segmentId := by
  obtain ⟨htask, hshared⟩ := send_eq_some hread
  refine ⟨⟨hinv.step hread, ?_, fun _ => rfl⟩, ?_⟩
  · intro plan' h
    rw [hplan] at h
    exact (some.inj h).symm
  · rw [htask] at hplan
    rcases taskStep_plan hplan with hold | ⟨call', attempt, tries, m, tag, heq, hf, hbehind, rfl⟩
    · rw [plan_of_isIndexGet hget] at hold
      cases hold
    · rw [heq, Shared.after_of_not_holdsLock s.shared rfl] at hshared
      have hm : s.shared.store.storedMeta = m := storedMeta_of_current (fetchMeta_eq_some hf)
      have hsound := hinv.base.sound
      have hbounded := hinv.stored
      rw [hm] at hsound hbounded
      rw [hshared, hm]
      have hto := (indexTo_bounds hbehind hsound.commit_le_max call').1
      exact fun name c hcol => plan_carries hbounded (Nat.le_of_lt hto) built hcol

theorem prepared_of_read {u u' : Cluster P R} {call : IndexCall} {attempt : Nat}
    {prep : PreparedIndex} (hread : (cluster ns proc).step u (.send p r built) = some u')
    (hprep : u'.task p = .indexPutMeta call attempt prep) :
    ∃ plan, (u.task p).plan? = some plan ∧ prep.read.1 = u.shared.store.storedMeta ∧
      prep.newMeta.vectorFields = plan.vectorFields := by
  rw [(send_eq_some hread).1] at hprep
  obtain ⟨plan, hplan, hf, hnew⟩ := taskStep_prepared hprep
  exact ⟨plan, hplan, (storedMeta_of_current (fetchMeta_eq_some hf)).symm,
    metaAfterIndexCommit_vectorFields hnew⟩

/-- A pass reads the metadata at its start, others commit, and the pass prepares
its own commit from a version it reads afresh.  Every column of that version is
kept, with a segment that is not smaller, exactly if no commit in between added a
column that the pass does not carry. -/
theorem index_commit_keeps_columns_iff {s₀ s s₁ u u' : Cluster P R} {before as : List (Action P)}
    {p : P} {call : IndexCall} {attempt : Nat} {r r' : Reply} {built built' : List (String × Nat)}
    {plan : IndexPlan} {prep : PreparedIndex}
    (hidle : s₀.Idle) (habsent : s₀.shared.store.metaJson.current = none)
    (hbefore : (cluster ns proc).run s₀ before = some s)
    (hget : (s.task p).isIndexGet = true)
    (hread : (cluster ns proc).step s (.send p r built) = some s₁)
    (hplan : (s₁.task p).plan? = some plan)
    (hrun : (cluster ns proc).run s₁ as = some u)
    (honly : (cluster ns proc).Along (Cluster.OnlyCommits ns p) s₁ as)
    (hcommit : (cluster ns proc).step u (.send p r' built') = some u')
    (hprep : u'.task p = .indexPutMeta call attempt prep) :
    (∀ f ∈ prep.read.1.vectorFields, ∃ g ∈ prep.newMeta.vectorFields,
        g.name = f.name ∧ f.segmentId ≤ g.segmentId) ↔
      (cluster ns proc).Along (Cluster.AddsCarried ns plan) s₁ as := by
  obtain ⟨hstart, hcarries⟩ :=
    underway_of_read (columnInv_of_run (.initial hidle habsent) hbefore) hget hread hplan
  have hend :=
    Machine.run_invariant (fun _ _ _ hv ho hs => Underway.step hv ho hs) hstart honly hrun
  have hcarried := Machine.along_iff_end
    (P := fun v : Cluster P R => ∀ name ∈ columnNames v.shared.store.storedMeta,
      name ∈ plan.vectorFields.map VectorFieldConfig.name)
    (G := Cluster.AddsCarried ns plan) (B := fun _ => True)
    (fun _ _ _ hv ho hs => Underway.step hv ho hs) (fun _ _ _ _ _ => trivial)
    (fun _ _ _ hv ho hs _ => carried_step hv.inv ho hs) hstart honly hrun trivial
  have hfirst : ∀ name ∈ columnNames s₁.shared.store.storedMeta,
      name ∈ plan.vectorFields.map VectorFieldConfig.name := by
    intro name hname
    obtain ⟨c, hc⟩ := ne_none_iff_exists'.mp fun h => columnOf_eq_none.mp h hname
    obtain ⟨g, hg, -⟩ := hcarries name c hc
    exact mem_map.mpr ⟨g, mem_of_columnOf hg, name_of_columnOf hg⟩
  rw [and_iff_right hfirst] at hcarried
  obtain ⟨plan', hplan', hfresh, hnew⟩ := prepared_of_read hcommit hprep
  rw [hnew, hend.plan plan' hplan', hfresh, ← hcarried]
  exact keeps_columns_iff hend.inv.base.sound.columns hend.segments hcarries

end Runs

def declareVector : AppendCall where
  entry := oneDoc "b"
  schemaPatch := some (.obj [("emb", .str "[1]f32")])

/-- What a thread has prepared: the columns it read afresh and those it stores. -/
def Task.columnChange : Task → Option (List VectorFieldConfig × List VectorFieldConfig)
  | .indexPutMeta _ _ prep => some (prep.read.1.vectorFields, prep.newMeta.vectorFields)
  | _ => none

theorem columnChange_eq_some {fresh stored : List VectorFieldConfig}
    (h : t.columnChange = some (fresh, stored)) :
    ∃ call attempt prep, t = .indexPutMeta call attempt prep ∧ prep.read.1.vectorFields = fresh ∧
      prep.newMeta.vectorFields = stored := by
  cases t <;> cases h
  exact ⟨_, _, _, rfl, rfl, rfl⟩

/-- The column is declared before the pass, which indexes it, and another entry is
committed during the pass. -/
theorem index_commit_keeps_declared_column :
    ∃ (u u' : Cluster (Fin 2) (Fin 2)) (call : IndexCall) (attempt : Nat) (prep : PreparedIndex),
      (cluster "ns" id).run (.init .empty)
        (appendRun 0 declareVector ++ [.start 1 (.index {})] ++ [.send 1 .ok [("emb", 1)]] ++
          (appendRun 0 { entry := oneDoc "a" } ++ [.send 1 .ok [], .acquire 1])) = some u ∧
      (cluster "ns" id).step u (.send 1 .ok []) = some u' ∧
      u'.task 1 = .indexPutMeta call attempt prep ∧
      prep.read.1.vectorFields.map VectorFieldConfig.segmentId = [0] ∧
      prep.newMeta.vectorFields.map VectorFieldConfig.segmentId = [1] ∧
      ∀ f ∈ prep.read.1.vectorFields, ∃ g ∈ prep.newMeta.vectorFields,
        g.name = f.name ∧ f.segmentId ≤ g.segmentId := by
  have hend : (((cluster "ns" (id : Fin 2 → Fin 2)).run (.init .empty)
      (appendRun 0 declareVector ++ [.start 1 (.index {})])).bind fun s =>
        ((cluster "ns" id).step s (.send 1 .ok [("emb", 1)])).bind fun s₁ =>
          ((s₁.task 1).plan?).bind fun plan =>
            ((cluster "ns" id).run s₁
              (appendRun 0 { entry := oneDoc "a" } ++ [.send 1 .ok [], .acquire 1])).bind fun u =>
                ((cluster "ns" id).step u (.send 1 .ok [])).map fun u' =>
                  (((u'.task 1).columnChange.map fun ch =>
                      (ch.1.map segmentId, ch.2.map segmentId)),
                    decide ((s.task 1).isIndexGet = true ∧
                      (cluster "ns" id).Along (OnlyCommits "ns" 1) s₁
                        (appendRun 0 { entry := oneDoc "a" } ++ [.send 1 .ok [], .acquire 1]) ∧
                      (cluster "ns" id).Along (AddsCarried "ns" plan) s₁
                        (appendRun 0 { entry := oneDoc "a" } ++ [.send 1 .ok [], .acquire 1]))))
      = some (some ([0], [1]), true) := by
    decide +kernel
  obtain ⟨s, hs, hend⟩ := bind_eq_some_iff.mp hend
  obtain ⟨s₁, hs₁, hend⟩ := bind_eq_some_iff.mp hend
  obtain ⟨plan, hplan, hend⟩ := bind_eq_some_iff.mp hend
  obtain ⟨u, hu, hend⟩ := bind_eq_some_iff.mp hend
  obtain ⟨u', hu', hend⟩ := map_eq_some_iff.mp hend
  simp only [Prod.mk.injEq, decide_eq_true_eq] at hend
  obtain ⟨hchange, hget, honly, hadds⟩ := hend
  obtain ⟨ch, hch, hsegments⟩ := map_eq_some_iff.mp hchange
  obtain ⟨call, attempt, prep, hprep, hfresh, hstored⟩ := columnChange_eq_some hch
  obtain ⟨hold, hnew⟩ := Prod.mk.inj hsegments
  refine ⟨u, u', call, attempt, prep, ?_, hu', hprep, hfresh ▸ hold, hstored ▸ hnew,
    (index_commit_keeps_columns_iff (init_idle _) rfl hs hget hs₁ hplan hu honly hu'
      hprep).mpr hadds⟩
  refine run_append_some.mpr ⟨s₁, run_append_some.mpr ⟨s, hs, ?_⟩, hu⟩
  exact run_cons_some.mpr ⟨s₁, hs₁, rfl⟩

/-- A pass starts before the column is declared and drops it from the metadata. -/
theorem index_commit_drops_column :
    ∃ (u u' : Cluster (Fin 2) (Fin 2)) (call : IndexCall) (attempt : Nat) (prep : PreparedIndex),
      (cluster "ns" id).run (.init .empty)
        (appendRun 0 { entry := oneDoc "a" } ++ [.start 1 (.index {}), .send 1 .ok []] ++
          appendRun 0 declareVector ++ [.send 1 .ok [], .acquire 1]) = some u ∧
      (cluster "ns" id).step u (.send 1 .ok []) = some u' ∧
      u'.task 1 = .indexPutMeta call attempt prep ∧
      prep.read.1.vectorFields.map VectorFieldConfig.name = ["emb"] ∧
      prep.newMeta.vectorFields = [] := by
  have hend : (((cluster "ns" (id : Fin 2 → Fin 2)).run (.init .empty)
      (appendRun 0 { entry := oneDoc "a" } ++ [.start 1 (.index {}), .send 1 .ok []] ++
        appendRun 0 declareVector ++ [.send 1 .ok [], .acquire 1])).bind fun u =>
          ((cluster "ns" id).step u (.send 1 .ok [])).map fun u' =>
            (u'.task 1).columnChange.map fun ch => (ch.1.map name, ch.2))
      = some (some (["emb"], [])) := by
    decide +kernel
  obtain ⟨u, hu, hend⟩ := bind_eq_some_iff.mp hend
  obtain ⟨u', hu', hchange⟩ := map_eq_some_iff.mp hend
  obtain ⟨ch, hch, hnames⟩ := map_eq_some_iff.mp hchange
  obtain ⟨call, attempt, prep, hprep, hfresh, hstored⟩ := columnChange_eq_some hch
  obtain ⟨hread, hempty⟩ := Prod.mk.inj hnames
  exact ⟨u, u', call, attempt, prep, hu, hu', hprep, hfresh ▸ hread, hstored ▸ hempty⟩

end OpenPuffer
