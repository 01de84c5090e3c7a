import OpenPuffer.Cluster.Durability

/-!
# Appends of one process under storage faults

Inside one process the commit lock orders the appends.  Two faults turn against committed
segments: an error on the GET that is read as an absent object restarts the sequence at `1`,
and a conditional PUT that took effect but reports a failed precondition makes the writer
delete the segment it just committed.  Without these two (`Cluster.Spared`), every committed
segment stays.
-/

namespace OpenPuffer

/-- What an append knows inside the lock of the only process. -/
def HolderFacts (sh : Shared) : Task → Prop
  | .idle => True
  | .appendGet .. => True
  | .appendPutWal _ _ _ read => sh.store.metaJson.current = read
  | .appendPutMeta c _ prep =>
    sh.store.metaJson.current = prep.read ∧ sh.store.commitSeq < prep.read.nextSeq ∧
      sh.store.wal prep.read.nextSeq = some c.entry
  | .appendDelete _ _ seq => sh.store.commitSeq < seq
  | _ => False

variable {sh : Shared} {ns : String}

theorem HolderFacts.appendFacts {t : Task} (h : HolderFacts sh t) : AppendFacts sh t := by
  cases t with
  | idle => trivial
  | appendGet c attempt tries => trivial
  | appendPutWal c attempt tries read =>
    obtain rfl : sh.store.metaJson.current = read := h
    exact sh.store.metaJson.seen_current
  | appendPutMeta c attempt prep =>
    have hread : sh.store.metaJson.current = prep.read := h.1
    change sh.store.metaJson.Seen prep.read
    rw [← hread]
    exact sh.store.metaJson.seen_current
  | appendDelete c attempt seq => exact Nat.one_le_of_lt h
  | _ => cases h

def readsAbsent : Except String MetaRead → Bool
  | .ok none => true
  | _ => false

/-- The reply makes a writer in round `attempt` try again. -/
def Reply.retries (r : Reply) (attempt : Nat) : Bool :=
  match r.failure with
  | some e => e.retries attempt
  | none => false

/-- The reply to the request of a task spares the committed segments: a stored
`meta.json` is not read as absent, a conditional PUT that takes effect does not
report a failed precondition to a writer that will retry, and the counter of an
append can still grow. -/
def Reply.Spares (ns : String) (st : Store) (r : Reply) : Task → Prop
  | .appendGet .. => readsAbsent (fetchMeta ns st r) = true → st.metaJson.current = none
  | .appendPutWal .. => st.commitSeq < u64Max
  | .appendPutMeta _ attempt prep =>
    r.applied = true → st.metaJson.Matches prep.read → r.retries attempt = false
  | _ => True

instance (ns : String) (st : Store) (r : Reply) (t : Task) : Decidable (r.Spares ns st t) :=
  match t with
  | .appendGet .. => inferInstanceAs (Decidable (_ = true → _ = none))
  | .appendPutWal .. => inferInstanceAs (Decidable (_ < _))
  | .appendPutMeta .. => inferInstanceAs (Decidable (_ → _ → _ = false))
  | .idle | .appendDelete .. | .indexGet .. | .indexRecheck .. | .indexLock .. => isTrue trivial
  | .indexGetLocked .. | .indexPutMeta .. | .compactCheck .. | .compactLock => isTrue trivial
  | .compactGet .. | .compactGetSnapshot .. | .compactGetWal .. => isTrue trivial
  | .compactPutSnapshot .. | .compactPutMeta .. | .compactDelete .. => isTrue trivial

/-- A spared GET reads the stored version. -/
theorem fetchMeta_current {st : Store} {r : Reply} {read : MetaRead}
    (hspare : readsAbsent (fetchMeta ns st r) = true → st.metaJson.current = none)
    (h : fetchMeta ns st r = .ok read) : st.metaJson.current = read := by
  rcases fetchMeta_eq_ok h with hcur | hnone
  · exact hcur.symm
  · subst hnone
    exact hspare (by rw [h]; rfl)

theorem nextSeq_of_current {st : Store} {read : MetaRead} (hread : st.metaJson.current = read)
    (hlt : st.commitSeq < u64Max) : read.nextSeq = st.commitSeq + 1 := by
  subst hread
  exact saturatingAdd_one_of_lt hlt

/-- Requests of the only writer leave the committed segments alone. -/
theorem HolderFacts.keeps {r : Reply} {built : List (String × Nat)} {t : Task}
    (ht : HolderFacts sh t) (hr : r.Spares ns sh.store t) :
    (taskStep ns sh.store r built t).effect.Keeps sh.store := by
  refine taskStep_effect_of_writes (Q := Effect.Keeps sh.store) trivial ?_
  intro eff hw
  cases hw with
  | putWal =>
    refine Or.inl ?_
    rw [nextSeq_of_current ht hr]
    exact Nat.lt_succ_self _
  | @commit c attempt prep _ =>
    obtain ⟨-, hlt, hwal⟩ := ht
    have hseq := (metaAfterWalCommitOptions_counters prep.prepared).1
    exact ⟨hseq ▸ hlt, hseq ▸ hwal⟩
  | undoWal => exact ht
  | index | putSnapshot | compact | deleteWal => cases ht

theorem HolderFacts.after {r : Reply} {built : List (String × Nat)} {t : Task}
    (ht : HolderFacts sh t) (hr : r.Spares ns sh.store t) :
    HolderFacts (sh.after (taskStep ns sh.store r built t))
      (taskStep ns sh.store r built t).task := by
  cases t with
  | idle => trivial
  | appendGet c attempt tries =>
    cases hf : fetchMeta ns sh.store r with
    | ok read =>
      simp only [taskStep, hf]
      exact fetchMeta_current hr hf
    | error msg =>
      simp only [taskStep, hf, retryGet]
      split <;> trivial
  | appendPutWal c attempt tries read =>
    have hread : sh.store.metaJson.current = read := ht
    cases r with
    | ok =>
      simp only [taskStep, Reply.failure, prepareCommit]
      split
      · have hnext := nextSeq_of_current hread hr
        refine ⟨hread, ?_, ?_⟩
        · change sh.store.commitSeq < read.nextSeq
          omega
        · simp [Shared.after, Effect.onlyIf, Reply.applied, Store.apply]
      · trivial
    | error e applied =>
      simp only [taskStep, Reply.failure, Reply.applied]
      split
      · cases applied <;> exact hread
      · trivial
  | appendPutMeta c attempt prep =>
    obtain ⟨hread, hlt, hwal⟩ := ht
    have hhit : sh.store.metaJson.Matches prep.read := hread ▸ rfl
    cases r with
    | ok =>
      simp only [taskStep, Reply.failureIf, hhit, decide_true, if_true]
      trivial
    | error e applied =>
      simp only [taskStep, Reply.failureIf, Reply.applied]
      split
      · rename_i hretry
        cases applied with
        | true =>
          have hno : e.retries attempt = false := hr rfl hhit
          rw [hretry] at hno
          cases hno
        | false => exact hlt
      · trivial
  | appendDelete c attempt seq => trivial
  | _ => cases ht

section Runs

variable {P R : Type} {ns : String} {proc : P → R}

theorem Cluster.Moves.holderFacts {s : Cluster P R} {a : Action P} {t : Task}
    (h : s.Moves a t) (ha : a.AppendsOnly) (hfacts : ∀ p, HolderFacts s.shared (s.task p)) :
    HolderFacts s.shared t := by
  have happ := h.appendFacts ha fun p => (hfacts p).appendFacts
  have hfresh := h.isFresh
  cases t with
  | idle => trivial
  | appendGet c attempt tries => trivial
  | appendPutWal | appendPutMeta | appendDelete => cases hfresh
  | _ => cases happ

/-- The reply to a step spares the committed segments. -/
def Cluster.Spared (ns : String) (s : Cluster P R) : Action P → Prop
  | .send p r _ => r.Spares ns s.shared.store (s.task p)
  | _ => True

instance (s : Cluster P R) (a : Action P) : Decidable (s.Spared ns a) :=
  match a with
  | .send p r _ => inferInstanceAs (Decidable (r.Spares ns s.shared.store (s.task p)))
  | .start .. | .acquire _ | .stop _ => isTrue trivial

/-- What holds between the steps of a spared run of one process. -/
structure SurvivalInv (proc : P → R) (s : Cluster P R) : Prop where
  locked : s.Locked proc
  held : LogHeld s.shared
  facts : ∀ p, HolderFacts s.shared (s.task p)

variable [DecidableEq P] [DecidableEq R]

theorem SurvivalInv.step {s s' : Cluster P R} {a : Action P} (hone : ∀ p q, proc p = proc q)
    (h : SurvivalInv proc s) (ha : a.AppendsOnly) (hspare : s.Spared ns a)
    (hstep : (cluster ns proc).step s a = some s') : SurvivalInv proc s' := by
  obtain ⟨hl, hlog, hfacts⟩ := step_invariant_of_one_process (I := LogHeld) (T := HolderFacts)
    hone hstep h.locked h.held h.facts (fun t ht => ht.holderFacts ha h.facts)
    (by
      intro sh sh' t hout ht
      cases t with
      | idle => trivial
      | appendGet | appendPutWal | appendPutMeta | appendDelete => cases hout
      | _ => cases ht)
    (by
      rintro p r built rfl -
      exact ⟨h.held.after (append_effect (h.facts p).appendFacts) ((h.facts p).keeps hspare),
        (h.facts p).after hspare⟩)
  exact ⟨hl, hlog, hfacts⟩

/-- In a spared run of appends of one process, a segment keeps the entry it held
when the commit point reached it. -/
theorem committed_segments_survive (hone : ∀ p q, proc p = proc q) {s s₁ s₂ : Cluster P R}
    {as bs : List (Action P)} (hidle : s.Idle) (hlog : LogHeld s.shared)
    (has : ∀ a ∈ as ++ bs, a.AppendsOnly)
    (hr₁ : (cluster ns proc).run s as = some s₁) (hr₂ : (cluster ns proc).run s₁ bs = some s₂)
    (hspare : (cluster ns proc).Along (Cluster.Spared ns) s (as ++ bs)) :
    ∀ seq, 1 ≤ seq → seq ≤ s₁.shared.store.commitSeq →
      seq ≤ s₂.shared.store.commitSeq ∧
        ∃ e, s₁.shared.store.wal seq = some e ∧ s₂.shared.store.wal seq = some e := by
  intro seq h1 h2
  have hinv : SurvivalInv proc s := by
    refine ⟨hidle.locked, hlog, ?_⟩
    intro p
    rw [hidle.1 p]
    trivial
  have hstep : ∀ u a u', SurvivalInv proc u → (a.AppendsOnly ∧ u.Spared ns a) →
      (cluster ns proc).step u a = some u' → SurvivalInv proc u' :=
    fun u a u' hu ha hs => hu.step hone ha.1 ha.2 hs
  have hguard := (Machine.along_of_forall (m := cluster ns proc) s (as ++ bs) has).and hspare
  obtain ⟨hg₁, hg₂⟩ := (Machine.along_append hr₁).mp hguard
  have hinv₁ := Machine.run_invariant hstep hinv hg₁ hr₁
  have hinv₂ := Machine.run_invariant hstep hinv₁ hg₂ hr₂
  obtain ⟨more, hmore⟩ := log_grows hr₂
  have hle : s₁.shared.log.length ≤ s₂.shared.log.length := by
    rw [← hmore, List.length_append]
    omega
  have hlen₁ := hinv₁.held.length_eq
  have hlen₂ := hinv₂.held.length_eq
  obtain ⟨e, he⟩ := entryAt_isSome s₁.shared.log h1 (by omega)
  refine ⟨by omega, e, ?_, ?_⟩
  · rw [hinv₁.held.held seq h1 h2, he]
  · rw [hinv₂.held.held seq h1 (by omega), ← hmore, entryAt_append_left (by omega), he]

end Runs

def lostReply : Reply := .error { code := some "InternalError", message := "internal error" } true

/-- A GET is answered once by a throttling error, and a commit takes effect but
reports an internal error. -/
def harmlessFaults : List (Action (Fin 1)) :=
  [.start 0 (.append { entry := oneDoc "b" }),
    .send 0 (.error { code := some "SlowDown", message := "slow down" } false) [],
    .send 0 .ok [], .send 0 .ok [], .send 0 lostReply []]

theorem harmlessFaults_keep_segment :
    ∃ s₁ s₂, (cluster "ns" fun _ : Fin 1 => ()).run (.init .empty)
        (appendRun 0 { entry := oneDoc "a" }) = some s₁ ∧
      (cluster "ns" fun _ : Fin 1 => ()).run s₁ harmlessFaults = some s₂ ∧
      s₁.shared.store.commitSeq = 1 ∧
      ∃ e, s₁.shared.store.wal 1 = some e ∧ s₂.shared.store.wal 1 = some e := by
  obtain ⟨s₁, hr₁, hcommit⟩ : ∃ t, (cluster "ns" fun _ : Fin 1 => ()).run (.init .empty)
      (appendRun 0 { entry := oneDoc "a" }) = some t ∧ t.shared.store.commitSeq = 1 := by
    decide +kernel
  have hall : ((cluster "ns" fun _ : Fin 1 => ()).run (.init .empty)
      (appendRun 0 { entry := oneDoc "a" } ++ harmlessFaults)).isSome = true := by decide +kernel
  obtain ⟨s₂, hr⟩ := Option.isSome_iff_exists.mp hall
  obtain ⟨s₁', hr₁', hr₂⟩ := Machine.run_append_some.mp hr
  rw [hr₁] at hr₁'
  cases hr₁'
  refine ⟨s₁, s₂, hr₁, hr₂, hcommit, ?_⟩
  refine (committed_segments_survive (fun _ _ => rfl) (Cluster.init_idle _) LogHeld.empty ?_ hr₁
    hr₂ ?_ 1 (Nat.le_refl 1) (Nat.le_of_eq hcommit.symm)).2
  · simp [appendRun, harmlessFaults, Action.AppendsOnly]
  · decide +kernel

/-- The GET of a stored `meta.json` fails with an unhandled error, so the append
takes sequence `1` again, and its failed condition deletes the segment. -/
def misreadMeta : List (Action (Fin 1)) :=
  [.start 0 (.append { entry := oneDoc "b" }),
    .send 0 (.error { message := "unhandled error" } false) [],
    .send 0 .ok [], .send 0 .ok [], .send 0 .ok []]

/-- The commit takes effect, and its retried request reports a failed
precondition, so the writer deletes the segment it committed. -/
def misreportedCommit : List (Action (Fin 1)) :=
  [.start 0 (.append { entry := oneDoc "b" }), .send 0 .ok [], .send 0 .ok [],
    .send 0 (.error .preconditionFailed true) [], .send 0 .ok []]

theorem faults_lose_committed_segment :
    ∃ s₁ s₂ s₃, (cluster "ns" fun _ : Fin 1 => ()).run (.init .empty)
        (appendRun 0 { entry := oneDoc "a" }) = some s₁ ∧
      s₁.shared.store.commitSeq = 1 ∧ s₁.shared.store.wal 1 = some (oneDoc "a") ∧
      ((cluster "ns" fun _ : Fin 1 => ()).run s₁ misreadMeta = some s₂ ∧
        s₂.shared.store.commitSeq = 1 ∧ s₂.shared.store.wal 1 = none) ∧
      ((cluster "ns" fun _ : Fin 1 => ()).run s₁ misreportedCommit = some s₃ ∧
        s₃.shared.store.commitSeq = 2 ∧ s₃.shared.store.wal 2 = none) := by
  have h₁ : ((cluster "ns" fun _ : Fin 1 => ()).run (.init .empty)
      (appendRun 0 { entry := oneDoc "a" })).map
        (fun t => (t.shared.store.commitSeq, t.shared.store.wal 1))
          = some (1, some (oneDoc "a")) := by
    decide +kernel
  have h₂ : ((cluster "ns" fun _ : Fin 1 => ()).run (.init .empty)
      (appendRun 0 { entry := oneDoc "a" } ++ misreadMeta)).map
        (fun t => (t.shared.store.commitSeq, t.shared.store.wal 1)) = some (1, none) := by
    decide +kernel
  have h₃ : ((cluster "ns" fun _ : Fin 1 => ()).run (.init .empty)
      (appendRun 0 { entry := oneDoc "a" } ++ misreportedCommit)).map
        (fun t => (t.shared.store.commitSeq, t.shared.store.wal 2)) = some (2, none) := by
    decide +kernel
  obtain ⟨s₁, hr₁, heq₁⟩ := Option.map_eq_some_iff.mp h₁
  obtain ⟨s₂, hr₂, heq₂⟩ := Option.map_eq_some_iff.mp h₂
  obtain ⟨s₃, hr₃, heq₃⟩ := Option.map_eq_some_iff.mp h₃
  obtain ⟨hc₁, hw₁⟩ := Prod.mk.inj heq₁
  rw [Machine.run_append, hr₁] at hr₂ hr₃
  exact ⟨s₁, s₂, s₃, hr₁, hc₁, hw₁, ⟨hr₂, Prod.mk.inj heq₂⟩, ⟨hr₃, Prod.mk.inj heq₃⟩⟩

end OpenPuffer
