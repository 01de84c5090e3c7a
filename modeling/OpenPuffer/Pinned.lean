import OpenPuffer.View
import OpenPuffer.Lib.Machine

/-!
# Reads from a pinned view

One process serves a namespace from its pinned view while other processes commit.  A strong
read fetches the metadata and brings the view to its commit point.  That works as long as the
view tracks the log, and every route keeps it tracking but one: `apply_committed` of a sequence
that is not the next one.
-/

namespace OpenPuffer

open NamespaceView

/-- A namespace whose committed objects are all present and readable. -/
structure World where
  log : List WalEntry
  /-- The stored `meta.json`. -/
  read : MetaRead
  snapshot : Option WalSnapshot
  commit_eq : read.metaOrDefault.walCommitSeq = log.length
  lt_max : log.length < u64Max
  snapshot_le : ∀ snap ∈ snapshot, snap.seq ≤ log.length
  snapshot_docs : ∀ snap ∈ snapshot, snap.docs = replay (log.take snap.seq)
  recorded_le : read.metaOrDefault.walSnapshotSeq ≤ log.length
  recorded : 0 < read.metaOrDefault.walSnapshotSeq →
    ∃ snap ∈ snapshot, read.metaOrDefault.walSnapshotSeq ≤ snap.seq

namespace World

def store (w : World) : Store := ⟨.holding w.read, entryAt w.log, w.snapshot⟩

theorem holds (w : World) : w.store.Holds w.log where
  segment := fun _ _ _ => rfl
  snapshot_le := w.snapshot_le
  snapshot_docs := w.snapshot_docs
  lt_max := w.lt_max

/-- The namespace moved on: more commits, and possibly a newer snapshot. -/
def Extends (w w' : World) : Prop :=
  w.log <+: w'.log ∧
    w.read.metaOrDefault.walSnapshotSeq ≤ w'.read.metaOrDefault.walSnapshotSeq

instance (w w' : World) : Decidable (w.Extends w') := inferInstanceAs (Decidable (_ ∧ _))

end World

/-! ## Operations of one `Storage` -/

inductive Loader where
  /-- `NamespaceView::load`. -/
  | full
  /-- `NamespaceView::load_cold_batched`. -/
  | batched (includeWal : Bool)

def Loader.load (st : Store) (fetched : MetaRead) : Loader → Except String NamespaceView
  | .full => NamespaceView.load st fetched
  | .batched includeWal => NamespaceView.loadColdBatched st fetched includeWal

inductive QueryConsistency where
  | strong
  | eventual

/-- Who holds the lock on the views, and how far it is. -/
inductive ViewTask where
  | free
  /-- `catch_up` has fetched the metadata. -/
  | catchUp (v : NamespaceView) (pinned : Bool) (fetched : MetaRead)
  /-- A cold load has fetched the metadata. -/
  | cold (loader : Loader) (strong : Bool) (fetched : MetaRead)
  /-- The cold load of a strong read is done, and `catch_up` comes next. -/
  | loaded (v : NamespaceView)

structure Pinned where
  world : World
  view : Option NamespaceView
  task : ViewTask
  /-- The metadata fetched by the strong read that has just succeeded. -/
  served : Option NamespaceMeta

inductive ViewAction where
  /-- Other processes move the namespace on. -/
  | commit (w : World)
  /-- `load_namespace_for_query`, up to its first fetch. -/
  | query (consistency : QueryConsistency) (diskCache : Bool)
  /-- `load_view_snapshot`, up to its first fetch. -/
  | viewSnapshot (diskCache : Bool)
  /-- The reads that follow a fetch. -/
  | reads
  /-- The fetch of `catch_up` after a cold load. -/
  | fetch
  /-- `write_documents` after its batch was committed. -/
  | committed (seq : Nat) (e : WalEntry) (refreshed : Bool)

/-- A refresh of the metadata without replay. -/
def NamespaceView.refresh (v : NamespaceView) : MetaRead → NamespaceView
  | some (m, etag) => { v with metadata := m, metaEtag := some etag }
  | none => v

namespace Pinned

/-- A strong read takes the lock. -/
def startStrong (s : Pinned) (diskCache : Bool) : Pinned :=
  match s.view with
  | some v => { s with task := .catchUp v true s.world.read, served := none }
  | none =>
    let loader := if diskCache then .full else .batched true
    { s with task := .cold loader true s.world.read, served := none }

def startEventual (s : Pinned) (diskCache : Bool) : Pinned :=
  match s.view with
  | some v => { s with view := some (v.refresh s.world.read), served := none }
  | none =>
    let loader := if diskCache then .full else .batched false
    { s with task := .cold loader false s.world.read, served := none }

/-- `write_documents` after its batch was committed: apply it to the pinned view,
or pin a view loaded from scratch. -/
def afterCommit (s : Pinned) (seq : Nat) (e : WalEntry) (refreshed : Bool) : Pinned :=
  match s.view with
  | some v =>
    let applied := v.applyCommitted seq e
    let view := if refreshed then applied.refresh s.world.read else applied
    { s with view := some view, served := none }
  | none => { s with task := .cold .full false s.world.read, served := none }

/-- Nothing is pinned yet. -/
def init (w : World) : Pinned := ⟨w, none, .free, none⟩

def step (s : Pinned) : ViewAction → Option Pinned
  | .commit w => if s.world.Extends w then some { s with world := w, served := none } else none
  | .query .strong diskCache =>
    match s.task with
    | .free => some (s.startStrong diskCache)
    | _ => none
  | .query .eventual diskCache =>
    match s.task with
    | .free => some (s.startEventual diskCache)
    | _ => none
  | .viewSnapshot diskCache =>
    match s.task, s.world.read with
    | .free, some _ => some (s.startStrong diskCache)
    | _, _ => none
  | .reads =>
    match s.task with
    | .catchUp v pinned fetched =>
      match NamespaceView.catchUp s.world.store fetched v with
      | (v', .ok _) =>
        some { s with view := some v', task := .free, served := some fetched.metaOrDefault }
      | (v', .error _) =>
        some { s with
          view := if pinned then some v' else s.view
          task := .free
          served := none }
    | .cold loader strong fetched =>
      match loader.load s.world.store fetched with
      | .ok v =>
        if strong then some { s with task := .loaded v, served := none }
        else some { s with view := some v, task := .free, served := none }
      | .error _ => some { s with task := .free, served := none }
    | _ => none
  | .fetch =>
    match s.task with
    | .loaded v => some { s with task := .catchUp v false s.world.read, served := none }
    | _ => none
  | .committed seq e refreshed =>
    match s.task with
    | .free =>
      if entryAt s.world.log seq = some e ∨ (seq = 0 ∧ e = {}) then
        some (s.afterCommit seq e refreshed)
      else none
    | _ => none

end Pinned

/-- The machine of one namespace of one `Storage`. -/
def pinned : Machine Pinned ViewAction := ⟨Pinned.step⟩

/-- What one step does. -/
inductive Pinned.Steps (s : Pinned) : ViewAction → Pinned → Prop where
  | commit {w : World} (hext : s.world.Extends w) :
      Steps s (.commit w) { s with world := w, served := none }
  | startStrong {a : ViewAction} {diskCache : Bool} (ht : s.task = .free)
      (ha : a = .query .strong diskCache ∨ a = .viewSnapshot diskCache) :
      Steps s a (s.startStrong diskCache)
  | startEventual {diskCache : Bool} (ht : s.task = .free) :
      Steps s (.query .eventual diskCache) (s.startEventual diskCache)
  | caughtUp {v v' : NamespaceView} {pinned b : Bool} {fetched : MetaRead}
      (ht : s.task = .catchUp v pinned fetched)
      (hcatch : NamespaceView.catchUp s.world.store fetched v = (v', .ok b)) :
      Steps s .reads
        { s with view := some v', task := .free, served := some fetched.metaOrDefault }
  | catchUpFailed {v v' : NamespaceView} {pinned : Bool} {fetched : MetaRead} {msg : String}
      (ht : s.task = .catchUp v pinned fetched)
      (hcatch : NamespaceView.catchUp s.world.store fetched v = (v', .error msg)) :
      Steps s .reads
        { s with view := if pinned then some v' else s.view, task := .free, served := none }
  | loaded {loader : Loader} {fetched : MetaRead} {v : NamespaceView}
      (ht : s.task = .cold loader true fetched)
      (hload : loader.load s.world.store fetched = .ok v) :
      Steps s .reads { s with task := .loaded v, served := none }
  | pinned {loader : Loader} {fetched : MetaRead} {v : NamespaceView}
      (ht : s.task = .cold loader false fetched)
      (hload : loader.load s.world.store fetched = .ok v) :
      Steps s .reads { s with view := some v, task := .free, served := none }
  | loadFailed {loader : Loader} {strong : Bool} {fetched : MetaRead} {msg : String}
      (ht : s.task = .cold loader strong fetched)
      (hload : loader.load s.world.store fetched = .error msg) :
      Steps s .reads { s with task := .free, served := none }
  | fetch {v : NamespaceView} (ht : s.task = .loaded v) :
      Steps s .fetch { s with task := .catchUp v false s.world.read, served := none }
  | committed {seq : Nat} {e : WalEntry} {refreshed : Bool} (ht : s.task = .free)
      (hentry : entryAt s.world.log seq = some e ∨ (seq = 0 ∧ e = {})) :
      Steps s (.committed seq e refreshed) (s.afterCommit seq e refreshed)

variable {s : Pinned} {w : World} {read : MetaRead} {log₀ : List WalEntry}

theorem Pinned.steps_of_step {s' : Pinned} {a : ViewAction} (h : pinned.step s a = some s') :
    s.Steps a s' := by
  change s.step a = some s' at h
  cases a with
  | commit w =>
    simp only [Pinned.step] at h
    split at h
    · rename_i hext
      cases h
      exact .commit hext
    · cases h
  | query consistency diskCache =>
    cases consistency with
    | strong =>
      simp only [Pinned.step] at h
      split at h
      · rename_i ht
        cases h
        exact .startStrong ht (.inl rfl)
      · cases h
    | eventual =>
      simp only [Pinned.step] at h
      split at h
      · rename_i ht
        cases h
        exact .startEventual ht
      · cases h
  | viewSnapshot diskCache =>
    simp only [Pinned.step] at h
    split at h
    · rename_i ht _
      cases h
      exact .startStrong ht (.inr rfl)
    · cases h
  | reads =>
    simp only [Pinned.step] at h
    split at h
    · rename_i ht
      split at h
      · rename_i hcatch
        cases h
        exact .caughtUp ht hcatch
      · rename_i hcatch
        cases h
        exact .catchUpFailed ht hcatch
    · rename_i strong _ ht
      split at h
      · rename_i hload
        cases strong with
        | true =>
          cases h
          exact .loaded ht hload
        | false =>
          cases h
          exact .pinned ht hload
      · rename_i hload
        cases h
        exact .loadFailed ht hload
    · cases h
  | fetch =>
    simp only [Pinned.step] at h
    split at h
    · rename_i ht
      cases h
      exact .fetch ht
    · cases h
  | committed seq e refreshed =>
    simp only [Pinned.step] at h
    split at h
    · rename_i ht
      split at h
      · rename_i hentry
        cases h
        exact .committed ht hentry
      · cases h
    · cases h

/-! ## What a fetch is worth later -/

/-- Metadata fetched from the namespace when its log was `log₀`. -/
structure World.Fetched (w : World) (read : MetaRead) (log₀ : List WalEntry) : Prop where
  log_le : log₀ <+: w.log
  commit_eq : read.metaOrDefault.walCommitSeq = log₀.length
  snapshot_le : read.metaOrDefault.walSnapshotSeq ≤ log₀.length
  recorded_le : read.metaOrDefault.walSnapshotSeq ≤ w.read.metaOrDefault.walSnapshotSeq

theorem World.fetched_read (w : World) : w.Fetched w.read w.log :=
  ⟨List.prefix_refl _, w.commit_eq, w.recorded_le, Nat.le_refl _⟩

theorem World.Fetched.mono {w' : World} (h : w.Fetched read log₀) (hext : w.Extends w') :
    w'.Fetched read log₀ :=
  ⟨h.log_le.trans hext.1, h.commit_eq, h.snapshot_le, Nat.le_trans h.recorded_le hext.2⟩

theorem World.Fetched.commit_le (h : w.Fetched read log₀) :
    read.metaOrDefault.walCommitSeq ≤ w.log.length :=
  h.commit_eq ▸ h.log_le.length_le

theorem World.Fetched.snapshot_le_commit (h : w.Fetched read log₀) :
    read.metaOrDefault.walSnapshotSeq ≤ read.metaOrDefault.walCommitSeq :=
  Nat.le_trans h.snapshot_le h.commit_eq.ge

/-- An absent `meta.json` was fetched before the first commit. -/
theorem World.Fetched.log_eq_nil (h : w.Fetched none log₀) : log₀ = [] :=
  List.length_eq_zero_iff.mp h.commit_eq.symm

theorem World.Fetched.catchUp_eq {v : NamespaceView} (h : w.Fetched read log₀)
    (ht : v.Tracks log₀) :
    ∃ v' b, NamespaceView.catchUp w.store read v = (v', .ok b) ∧ v'.docs = replay log₀ ∧
      v'.lastAppliedWalSeq = log₀.length := by
  cases read with
  | none =>
    obtain rfl := h.log_eq_nil
    have hlast : v.lastAppliedWalSeq = 0 := Nat.le_zero.mp ht.1
    exact ⟨v, false, rfl, ht.docs_eq (Nat.zero_le _), hlast⟩
  | some found =>
    exact w.holds.catchUp_eq h.log_le h.commit_eq h.snapshot_le_commit ht

/-- The snapshot that fetched metadata records is stored, or a newer one. -/
theorem World.Fetched.records {m : NamespaceMeta} (etag : Nat)
    (h : w.Fetched (some (m, etag)) log₀) : w.store.Records m := by
  intro hpos
  have hle : m.walSnapshotSeq ≤ w.read.metaOrDefault.walSnapshotSeq := h.recorded_le
  obtain ⟨snap, hmem, hsnap⟩ := w.recorded (by omega)
  exact ⟨snap, hmem, by omega⟩

/-- Every cold load yields a view that tracks the log. -/
theorem World.Fetched.load_eq (h : w.Fetched read log₀) (loader : Loader) :
    ∃ v, loader.load w.store read = .ok v ∧ v.Tracks w.log := by
  have hempty : ∀ u : NamespaceView, u.docs = ∅ → u.lastAppliedWalSeq = 0 → u.Tracks w.log := by
    intro u hdocs hlast
    refine tracks_of_take (d := 0) ?_ (Nat.le_of_eq hlast) (Nat.zero_le _)
    rw [hdocs]
    rfl
  cases read with
  | none =>
    cases loader with
    | full => exact ⟨_, rfl, hempty _ rfl rfl⟩
    | batched includeWal => exact ⟨_, rfl, hempty _ rfl rfl⟩
  | some found =>
    obtain ⟨m, etag⟩ := found
    have hlen : m.walCommitSeq ≤ w.log.length := h.commit_le
    cases loader with
    | full =>
      exact ⟨_, w.holds.load_eq etag hlen h.snapshot_le_commit,
        tracks_of_take rfl (Nat.le_refl _) hlen⟩
    | batched includeWal =>
      cases includeWal with
      | false => exact ⟨_, rfl, hempty _ rfl rfl⟩
      | true =>
        exact ⟨_, w.holds.loadColdBatched_eq etag hlen (h.records etag),
          tracks_of_take rfl (Nat.le_max_right _ _)
            (Nat.max_le.mpr ⟨w.holds.coldBase_le m, hlen⟩)⟩

theorem NamespaceView.Tracks.refresh {v : NamespaceView} {log : List WalEntry} (h : v.Tracks log)
    (read : MetaRead) : (v.refresh read).Tracks log := by
  cases read with
  | none => exact h
  | some found => exact h

/-! ## Runs -/

/-- What the task that holds the lock knows. -/
def ViewTask.Facts (w : World) : ViewTask → Prop
  | .free => True
  | .catchUp v _ fetched => ∃ log₀, w.Fetched fetched log₀ ∧ v.Tracks log₀
  | .cold _ _ fetched => ∃ log₀, w.Fetched fetched log₀
  | .loaded v => v.Tracks w.log

theorem ViewTask.Facts.mono {w' : World} {t : ViewTask} (h : t.Facts w) (hext : w.Extends w') :
    t.Facts w' := by
  cases t with
  | free => trivial
  | catchUp v pinned fetched =>
    obtain ⟨log₀, hf, ht⟩ := h
    exact ⟨log₀, hf.mono hext, ht⟩
  | cold loader strong fetched =>
    obtain ⟨log₀, hf⟩ := h
    exact ⟨log₀, hf.mono hext⟩
  | loaded v => exact Tracks.mono h hext.1

/-- The strong read that has just succeeded saw every write committed by the
metadata it fetched. -/
def Pinned.Fresh (s : Pinned) : Prop :=
  ∀ m, s.served = some m → m.walCommitSeq ≤ s.world.log.length ∧
    ∃ v, s.view = some v ∧ v.docs = replay (s.world.log.take m.walCommitSeq)

structure PinnedInv (s : Pinned) : Prop where
  view : ∀ v, s.view = some v → v.Tracks s.world.log
  task : s.task.Facts s.world
  fresh : s.Fresh

/-- A committed batch is applied to the pinned view only if the view has every
batch before it. -/
def Pinned.NoGap (s : Pinned) : ViewAction → Prop
  | .committed seq _ _ => ∀ v ∈ s.view, seq ≤ v.lastAppliedWalSeq + 1
  | _ => True

instance (s : Pinned) (a : ViewAction) : Decidable (s.NoGap a) :=
  match a with
  | .committed _ _ _ => inferInstanceAs (Decidable (∀ v ∈ s.view, _))
  | .commit _ | .query _ _ | .viewSnapshot _ | .reads | .fetch => isTrue trivial

/-- A step that serves nothing keeps the invariant if it keeps its other parts. -/
theorem PinnedInv.of_unserved (hserved : s.served = none)
    (hview : ∀ v, s.view = some v → v.Tracks s.world.log) (htask : s.task.Facts s.world) :
    PinnedInv s := by
  refine ⟨hview, htask, ?_⟩
  intro m hm
  rw [hserved] at hm
  cases hm

theorem PinnedInv.startStrong (h : PinnedInv s) (diskCache : Bool) :
    PinnedInv (s.startStrong diskCache) := by
  unfold Pinned.startStrong
  cases hv : s.view with
  | none => exact .of_unserved rfl (by simp) ⟨s.world.log, s.world.fetched_read⟩
  | some v =>
    refine .of_unserved rfl ?_ ⟨s.world.log, s.world.fetched_read, h.view v hv⟩
    rintro _ ⟨⟩
    exact h.view v hv

theorem PinnedInv.startEventual (h : PinnedInv s) (diskCache : Bool) :
    PinnedInv (s.startEventual diskCache) := by
  unfold Pinned.startEventual
  cases hv : s.view with
  | none => exact .of_unserved rfl (by simp) ⟨s.world.log, s.world.fetched_read⟩
  | some v =>
    refine .of_unserved rfl ?_ h.task
    rintro _ ⟨⟩
    exact (h.view v hv).refresh _

theorem PinnedInv.afterCommit (h : PinnedInv s) {seq : Nat} {e : WalEntry} (refreshed : Bool)
    (hentry : entryAt s.world.log seq = some e ∨ (seq = 0 ∧ e = {}))
    (hgap : ∀ v ∈ s.view, seq ≤ v.lastAppliedWalSeq + 1) :
    PinnedInv (s.afterCommit seq e refreshed) := by
  unfold Pinned.afterCommit
  cases hv : s.view with
  | none => exact .of_unserved rfl (by simp) ⟨s.world.log, s.world.fetched_read⟩
  | some v =>
    have htrack := (h.view v hv).applyCommitted hentry (hgap v hv)
    refine .of_unserved rfl ?_ h.task
    rintro _ ⟨⟩
    cases refreshed with
    | true => exact htrack.refresh _
    | false => exact htrack

theorem PinnedInv.step {s' : Pinned} {a : ViewAction} (h : PinnedInv s) (hgap : s.NoGap a)
    (hstep : pinned.step s a = some s') : PinnedInv s' := by
  have htask := h.task
  cases Pinned.steps_of_step hstep with
  | commit hext =>
    exact .of_unserved rfl (fun v hv => (h.view v hv).mono hext.1) (h.task.mono hext)
  | startStrong _ _ => exact h.startStrong _
  | startEventual _ => exact h.startEventual _
  | caughtUp ht hcatch =>
    rw [ht] at htask
    obtain ⟨log₀, hf, htrack⟩ := htask
    obtain ⟨v', b, hcatch', hdocs, hlast⟩ := hf.catchUp_eq htrack
    rw [hcatch] at hcatch'
    cases hcatch'
    have hshow := hdocs.trans (congrArg replay (take_length_of_extends hf.log_le).symm)
    refine ⟨?_, trivial, ?_⟩
    · rintro _ ⟨⟩
      exact tracks_of_take hshow (Nat.le_of_eq hlast) hf.log_le.length_le
    · rintro m ⟨⟩
      rw [hf.commit_eq]
      exact ⟨hf.log_le.length_le, _, rfl, hshow⟩
  | catchUpFailed ht hcatch =>
    rw [ht] at htask
    obtain ⟨log₀, hf, htrack⟩ := htask
    obtain ⟨v', b, hcatch', -⟩ := hf.catchUp_eq htrack
    rw [hcatch] at hcatch'
    cases hcatch'
  | loaded ht hload =>
    rw [ht] at htask
    obtain ⟨log₀, hf⟩ := htask
    obtain ⟨v, hload', htrack⟩ := hf.load_eq _
    rw [hload] at hload'
    cases hload'
    exact .of_unserved rfl h.view htrack
  | pinned ht hload =>
    rw [ht] at htask
    obtain ⟨log₀, hf⟩ := htask
    obtain ⟨v, hload', htrack⟩ := hf.load_eq _
    rw [hload] at hload'
    cases hload'
    refine .of_unserved rfl ?_ trivial
    rintro _ ⟨⟩
    exact htrack
  | loadFailed _ _ => exact .of_unserved rfl h.view trivial
  | fetch ht =>
    rw [ht] at htask
    exact .of_unserved rfl h.view ⟨s.world.log, s.world.fetched_read, htask⟩
  | committed _ hentry => exact h.afterCommit _ hentry hgap

theorem PinnedInv.init (w : World) : PinnedInv (.init w) :=
  .of_unserved rfl (fun _ hv => nomatch hv) trivial

/-- Every strong read sees what was committed when it fetched the metadata, as
long as no committed batch is applied over a gap. -/
theorem strong_read_fresh (w : World) {as : List ViewAction} {u : Pinned}
    (hgap : pinned.Along Pinned.NoGap (.init w) as) (hv : pinned.Visits (.init w) as u) :
    u.Fresh := by
  have hstep : ∀ s a s', PinnedInv s → s.NoGap a → pinned.step s a = some s' → PinnedInv s' :=
    fun _ _ _ hI hG hs => hI.step hG hs
  exact (Machine.visits_invariant hstep (.init w) hgap hv).fresh

/-- A namespace that was never compacted. -/
def World.ofLog (log : List WalEntry) (h : log.length < u64Max) : World where
  log := log
  read :=
    if log = [] then none else some ({ NamespaceMeta.empty with walCommitSeq := log.length }, 0)
  snapshot := none
  commit_eq := by cases log <;> rfl
  lt_max := h
  snapshot_le := fun _ hs => nomatch hs
  snapshot_docs := fun _ hs => nomatch hs
  recorded_le := by cases log <;> exact Nat.zero_le _
  recorded := by
    intro hpos
    cases log <;> exact absurd hpos (Nat.lt_irrefl 0)

theorem two_docs_fit : [oneDoc "a", oneDoc "b"].length < u64Max := by decide

/-- The first strong read pins a view, two batches are committed, and their
writers update the view in the order `seqs`. -/
def twoBatches (seqs : List (Nat × WalEntry)) : List ViewAction :=
  [.query .strong false, .reads, .fetch, .reads,
    .commit (.ofLog [oneDoc "a", oneDoc "b"] two_docs_fit)] ++
  seqs.map (fun (seq, e) => .committed seq e true) ++
  [.query .strong false, .reads]

theorem twoBatches_in_order_fresh :
    ∃ t, pinned.run (.init (.ofLog [] (by decide)))
        (twoBatches [(1, oneDoc "a"), (2, oneDoc "b")]) = some t ∧
      t.served.map NamespaceMeta.walCommitSeq = some 2 ∧ t.Fresh := by
  obtain ⟨t, ht, hserved⟩ : ∃ t, pinned.run (.init (.ofLog [] (by decide)))
      (twoBatches [(1, oneDoc "a"), (2, oneDoc "b")]) = some t ∧
        t.served.map NamespaceMeta.walCommitSeq = some 2 := by
    decide +kernel
  refine ⟨t, ht, hserved, strong_read_fresh _ ?_ (Machine.visits_end ht)⟩
  decide +kernel

/-- The second writer comes first.  The view moves to sequence 2 without the
first batch, and the strong read that follows finds nothing to fetch. -/
theorem twoBatches_out_of_order_stale :
    ∃ t v m, pinned.run (.init (.ofLog [] (by decide))) (twoBatches [(2, oneDoc "b")]) = some t ∧
      t.view = some v ∧ t.served = some m ∧ m.walCommitSeq = 2 ∧
      t.world.log = [oneDoc "a", oneDoc "b"] ∧ v.docs.lookup "a" = none ∧ ¬ t.Fresh := by
  obtain ⟨t, ht, ⟨v, hv, hlookup⟩, ⟨m, hm, hseq⟩, hlog⟩ : ∃ t,
      pinned.run (.init (.ofLog [] (by decide))) (twoBatches [(2, oneDoc "b")]) = some t ∧
        (∃ v, t.view = some v ∧ v.docs.lookup "a" = none) ∧
        (∃ m, t.served = some m ∧ m.walCommitSeq = 2) ∧
        t.world.log = [oneDoc "a", oneDoc "b"] := by
    decide +kernel
  refine ⟨t, v, m, ht, hv, hm, hseq, hlog, hlookup, ?_⟩
  intro hfresh
  obtain ⟨-, v', hv', hdocs⟩ := hfresh m hm
  rw [hv] at hv'
  cases hv'
  rw [hdocs, hlog, hseq] at hlookup
  revert hlookup
  decide +kernel

end OpenPuffer
