import OpenPuffer.Cluster.CrashSafety

/-!
# Reading along with one process

A reader of the objects of a namespace takes no lock: it sends one request after the other
while appends, index passes and compactions go on.  `observed` is the machine of one process
together with such an observer.  What an observer can rely on is a relation between the shared
part before and after a step of the process (`Shared.Advances`).
-/

namespace OpenPuffer

/-- What a single process keeps.  In contrast to `LoadHeld` nothing is said about
whether the stored metadata can be loaded. -/
structure SoloHeld (sh : Shared) : Prop extends SnapshotHeld sh where
  snapshot_le_cursor : sh.store.SnapshotLeCursor
  recorded_le_cursor : sh.store.storedMeta.walSnapshotSeq ≤ sh.store.storedMeta.indexCursor

/-- The log grows, segments that are gone do not come back, and the recorded
snapshot gets newer.  A snapshot is replaced by one that is not recorded yet. -/
structure Shared.Advances (sh sh' : Shared) : Prop where
  log : sh.log <+: sh'.log
  gone : ∀ seq, seq ≤ sh.store.commitSeq → sh.store.wal seq = none → sh'.store.wal seq = none
  recorded : sh.store.storedMeta.walSnapshotSeq ≤ sh'.store.storedMeta.walSnapshotSeq
  snapshot : sh'.store.snapshot = sh.store.snapshot ∨
    ∃ snap, sh'.store.snapshot = some snap ∧ sh.store.storedMeta.walSnapshotSeq < snap.seq

theorem Shared.Advances.refl (sh : Shared) : sh.Advances sh :=
  ⟨List.prefix_refl _, fun _ _ h => h, Nat.le_refl _, .inl rfl⟩

theorem Effect.Tidy.recorded_le {st : Store} {eff : Effect} (h : st.SnapshotLeCursor)
    (hle : st.storedMeta.walSnapshotSeq ≤ st.storedMeta.indexCursor) (htidy : eff.Tidy st) :
    (st.apply eff).storedMeta.walSnapshotSeq ≤ (st.apply eff).storedMeta.indexCursor := by
  cases eff with
  | commit m e =>
    change m.walSnapshotSeq ≤ m.indexCursor
    rw [htidy.1, htidy.2.1]
    exact hle
  | putMeta m =>
    obtain ⟨hcursor, -, hsame | ⟨snap, hmem, hseq, -, -⟩⟩ := htidy
    · change m.walSnapshotSeq ≤ m.indexCursor
      omega
    · have hsnap := h snap hmem
      change m.walSnapshotSeq ≤ m.indexCursor
      omega
  | none | putWal | undoWal | putSnapshot | deleteWal => exact hle

theorem SoloHeld.after {sh : Shared} {o : Outcome} (h : SoloHeld sh)
    (hsound : o.effect.Sound sh) (hkeeps : o.effect.Keeps sh.store)
    (htidy : o.effect.Tidy sh.store) : SoloHeld (sh.after o) where
  toSnapshotHeld :=
    h.toSnapshotHeld.after hsound hkeeps (htidy.keepsSnapshot h.snapshot_le_cursor)
  snapshot_le_cursor := htidy.snapshotLeCursor h.snapshot_le_cursor
  recorded_le_cursor := htidy.recorded_le h.snapshot_le_cursor h.recorded_le_cursor

theorem SoloHeld.advances {sh : Shared} {o : Outcome} (h : SoloHeld sh)
    (hkeeps : o.effect.Keeps sh.store) (htidy : o.effect.Tidy sh.store) :
    sh.Advances (sh.after o) := by
  refine ⟨List.prefix_append _ _, ?_, ?_, ?_⟩
  · intro seq hle hgone
    change (sh.store.apply o.effect).wal seq = none
    cases heff : o.effect with
    | putWal k e =>
      rw [heff] at hkeeps
      rw [Store.apply, Store.wal_setWal, if_neg]
      · exact hgone
      · rintro rfl
        rcases hkeeps with hlt | hsame
        · omega
        · rw [hgone] at hsame
          cases hsame
    | undoWal k | deleteWal k =>
      rw [Store.apply, Store.wal_setWal]
      split
      · rfl
      · exact hgone
    | none | commit | putMeta | putSnapshot => exact hgone
  · change _ ≤ (sh.store.apply o.effect).storedMeta.walSnapshotSeq
    cases heff : o.effect with
    | commit m e =>
      rw [heff] at htidy
      exact Nat.le_of_eq htidy.2.1.symm
    | putMeta m =>
      rw [heff] at htidy
      have hcommit := h.cursor_le
      have hrecorded := h.recorded_le_cursor
      change _ ≤ m.walSnapshotSeq
      obtain ⟨-, -, hsame | ⟨snap, -, hseq, -, hcaught⟩⟩ := htidy
      · omega
      · change sh.store.storedMeta.indexCursor ≤ _ at hcommit
        omega
    | none | putWal | undoWal | putSnapshot | deleteWal => exact Nat.le_refl _
  · change (sh.store.apply o.effect).snapshot = _ ∨ ∃ snap,
      (sh.store.apply o.effect).snapshot = some snap ∧ _
    cases heff : o.effect with
    | putSnapshot snap =>
      rw [heff] at htidy
      exact .inr ⟨snap, rfl, htidy.2⟩
    | none | putWal | undoWal | commit | putMeta | deleteWal => exact .inl rfl

section Process

variable {P R : Type} {ns : String} {proc : P → R}

/-- What holds between the steps of one process whose appends succeed. -/
structure SoloInv (proc : P → R) (s : Cluster P R) : Prop where
  locked : s.Locked proc
  held : SoloHeld s.shared
  facts : ∀ p, CompactFacts s.shared (s.task p) ∧ CurrentFacts s.shared (s.task p)

variable {s : Cluster P R}

theorem Cluster.Idle.soloInv (h : s.Idle) (hheld : SoloHeld s.shared) : SoloInv proc s := by
  refine ⟨h.locked, hheld, ?_⟩
  intro p
  rw [h.1 p]
  exact ⟨CompactFacts.of_isFresh rfl, CurrentFacts.of_isFresh rfl⟩

variable [DecidableEq P] [DecidableEq R]

theorem SoloInv.step {s' : Cluster P R} {a : Action P} (hone : ∀ p q, proc p = proc q)
    (h : SoloInv proc s) (ha : s.AppendsSucceed a) (hstep : (cluster ns proc).step s a = some s') :
    SoloInv proc s' ∧ s.shared.Advances s'.shared := by
  obtain ⟨hl, ⟨hheld, hadv⟩, hfacts⟩ := step_invariant_of_current
    (I := fun sh => SoloHeld sh ∧ s.shared.Advances sh) hone ha hstep h.locked
    h.held.toSnapshotHeld h.held.snapshot_le_cursor h.facts ⟨h.held, .refl _⟩ (by
      rintro p r built rfl o hsound hkeeps htidy
      exact ⟨h.held.after hsound hkeeps htidy, h.held.advances hkeeps htidy⟩)
  exact ⟨⟨hl, hheld, hfacts⟩, hadv⟩

theorem Cluster.Idle.soloInv_of_run {s₀ : Cluster P R} {as : List (Action P)} (h : s₀.Idle)
    (hone : ∀ p q, proc p = proc q) (hheld : SoloHeld s₀.shared)
    (happ : (cluster ns proc).Along Cluster.AppendsSucceed s₀ as)
    (hrun : (cluster ns proc).run s₀ as = some s) : SoloInv proc s :=
  Machine.run_invariant (fun _ _ _ hu ha hs => (hu.step hone ha hs).1) (h.soloInv hheld) happ hrun

end Process

/-! ## The observer -/

structure Observed (P R σ : Type) where
  cluster : Cluster P R
  observer : σ

inductive ObservedAction (P : Type) where
  /-- A step of the process. -/
  | run (a : Action P)
  /-- The next request of the observer. -/
  | read

section Observer

variable {P R σ : Type} [DecidableEq P] [DecidableEq R] (ns : String) (proc : P → R)

/-- The observer sends its requests between the steps of the process. -/
def observed (read : Store → σ → Option σ) : Machine (Observed P R σ) (ObservedAction P) where
  step s
    | .run a => ((cluster ns proc).step s.cluster a).map fun c => { s with cluster := c }
    | .read =>
      (read s.cluster.shared.store s.observer).map fun observer => { s with observer }

def Observed.AppendsSucceed (s : Observed P R σ) : ObservedAction P → Prop
  | .run a => s.cluster.AppendsSucceed a
  | .read => True

instance (s : Observed P R σ) (a : ObservedAction P) : Decidable (s.AppendsSucceed a) :=
  match a with
  | .run _ => inferInstanceAs (Decidable (Cluster.AppendsSucceed _ _))
  | .read => isTrue trivial

variable {ns proc}

/-- A fact about the objects and the observer is kept by a step, if it survives
what the process does and the requests of the observer. -/
theorem observed_step {read : Store → σ → Option σ} {T : Shared → σ → Prop}
    (hone : ∀ p q, proc p = proc q)
    (hrun : ∀ sh sh' g, SoloHeld sh → SoloHeld sh' → sh.Advances sh' → T sh g → T sh' g)
    (hread : ∀ sh g g', SoloHeld sh → read sh.store g = some g' → T sh g → T sh g')
    {s s' : Observed P R σ} {a : ObservedAction P}
    (h : SoloInv proc s.cluster ∧ T s.cluster.shared s.observer) (ha : s.AppendsSucceed a)
    (hstep : (observed ns proc read).step s a = some s') :
    SoloInv proc s'.cluster ∧ T s'.cluster.shared s'.observer := by
  obtain ⟨hinv, hT⟩ := h
  cases a with
  | run a =>
    obtain ⟨c, hc, rfl⟩ := Option.map_eq_some_iff.mp hstep
    obtain ⟨hinv', hadv⟩ := hinv.step hone ha hc
    exact ⟨hinv', hrun _ _ _ hinv.held hinv'.held hadv hT⟩
  | read =>
    obtain ⟨g, hg, rfl⟩ := Option.map_eq_some_iff.mp hstep
    exact ⟨hinv, hread _ _ _ hinv.held hg hT⟩

end Observer

end OpenPuffer
