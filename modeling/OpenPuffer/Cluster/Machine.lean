import OpenPuffer.Cluster.Task
import OpenPuffer.Lib.Machine

/-!
# Processes over one namespace

Threads `P` belong to processes `R`.  Every thread runs one task at a time against the shared
store, and each process has one commit lock.  A step is one request of one thread.  A thread
may stop at any point, which releases its lock.

`step_invariant` is the rule the safety proofs use: what the request of one task does to the
shared part and to the task, and that the facts about every other task stand.
-/

namespace OpenPuffer

/-- What a thread can be asked to do. -/
inductive Job where
  | append (c : AppendCall)
  | index (call : IndexCall)
  | compact

def Job.task : Job → Task
  | .append c => .appendGet c 0 0
  | .index call => .indexGet call 0 0
  | .compact => .compactCheck 0

/-- The store and what has happened to it. -/
structure Shared where
  store : Store
  /-- The entries that moved the commit point, in order. -/
  log : List WalEntry
  /-- The appends that returned a sequence, with their entries. -/
  acked : List (Nat × WalEntry)

/-- A namespace nothing was written to. -/
def Shared.empty : Shared := ⟨⟨.absent, fun _ => none, none⟩, [], []⟩

def Shared.after (sh : Shared) (o : Outcome) : Shared where
  store := sh.store.apply o.effect
  log := sh.log ++ o.effect.committed
  acked := sh.acked ++ o.acked.toList

structure Cluster (P R : Type) where
  shared : Shared
  task : P → Task
  /-- Who holds the commit lock of a process. -/
  lock : R → Option P

inductive Action (P : Type) where
  | start (p : P) (job : Job)
  | acquire (p : P)
  | send (p : P) (r : Reply) (built : List (String × Nat))
  | stop (p : P)

def Action.thread {P : Type} : Action P → P
  | .start p _ | .acquire p | .send p _ _ | .stop p => p

def Task.isIdle : Task → Bool
  | .idle => true
  | _ => false

section Machine

variable {P R : Type} [DecidableEq P] [DecidableEq R] (ns : String) (proc : P → R)

/-- What an action makes of the task of its thread. -/
def Cluster.outcome (s : Cluster P R) : Action P → Option Outcome
  | .start p job => if (s.task p).isIdle then some { task := job.task } else none
  | .acquire p => (s.task p).acquired.map fun t => { task := t }
  | .send p r built =>
    if (s.task p).sends then some (taskStep ns s.shared.store r built (s.task p)) else none
  | .stop _ => some { task := .idle }

/-- The commit lock after thread `p` goes on as `t`. -/
def Cluster.relock (s : Cluster P R) (p : P) (t : Task) : R → Option P :=
  if t.holdsLock then Function.update s.lock (proc p) (some p)
  else if (s.task p).holdsLock then Function.update s.lock (proc p) none
  else s.lock

def Cluster.after (s : Cluster P R) (p : P) (o : Outcome) : Cluster P R where
  shared := s.shared.after o
  task := Function.update s.task p o.task
  lock := s.relock proc p o.task

/-- Thread `p` may go on as `t`: it is not about to enter a lock that is taken. -/
def Cluster.mayEnter (s : Cluster P R) (p : P) (t : Task) : Bool :=
  !t.holdsLock || (s.task p).holdsLock || (s.lock (proc p)).isNone

def Cluster.step (s : Cluster P R) (a : Action P) : Option (Cluster P R) :=
  (s.outcome ns a).bind fun o =>
    if s.mayEnter proc a.thread o.task then some (s.after proc a.thread o) else none

/-- The machine of one namespace. -/
def cluster : Machine (Cluster P R) (Action P) where
  step := Cluster.step ns proc

/-- What an action does to the objects. -/
def Cluster.effect (s : Cluster P R) : Action P → Effect
  | .send p r built => (taskStep ns s.shared.store r built (s.task p)).effect
  | _ => .none

/-- No thread runs and no lock is held. -/
def Cluster.Idle (s : Cluster P R) : Prop := (∀ p, s.task p = .idle) ∧ ∀ r, s.lock r = none

/-- All threads idle over a given shared part. -/
def Cluster.init (sh : Shared) : Cluster P R := ⟨sh, fun _ => .idle, fun _ => none⟩

/-- Every task inside a commit lock is its holder. -/
def Cluster.Locked (s : Cluster P R) : Prop :=
  ∀ p, (s.task p).holdsLock = true → s.lock (proc p) = some p

end Machine

/-- The task that an action without a request moves its thread to. -/
def Cluster.Moves {P R : Type} (s : Cluster P R) : Action P → Task → Prop
  | .start _ job, t => t = job.task
  | .acquire p, t => (s.task p).acquired = some t
  | .send .., _ => False
  | .stop _, t => t = .idle

section Steps

variable {P R : Type} {ns : String} {proc : P → R} {s s' : Cluster P R} {a : Action P}

theorem Cluster.Moves.isFresh {t : Task} (h : s.Moves a t) : t.isFresh = true := by
  cases a with
  | start p job =>
    cases h
    cases job <;> rfl
  | acquire p =>
    have h' : (s.task p).acquired = some t := h
    revert h'
    cases s.task p <;> intro h' <;> cases h' <;> rfl
  | send p r built => cases h
  | stop p =>
    cases h
    rfl

/-- An action sends a request or only moves its thread. -/
theorem outcome_cases {o : Outcome} (h : s.outcome ns a = some o) :
    (∃ p r built, a = .send p r built ∧ (s.task p).sends = true ∧
        o = taskStep ns s.shared.store r built (s.task p)) ∨
      ∃ t, o = { task := t } ∧ s.Moves a t := by
  cases a with
  | start p job =>
    simp only [Cluster.outcome] at h
    split at h
    · cases h
      exact Or.inr ⟨_, rfl, rfl⟩
    · cases h
  | acquire p =>
    obtain ⟨t, ht, rfl⟩ := Option.map_eq_some_iff.mp h
    exact Or.inr ⟨t, rfl, ht⟩
  | send p r built =>
    simp only [Cluster.outcome] at h
    split at h
    · rename_i hsends
      cases h
      exact Or.inl ⟨p, r, built, rfl, hsends, rfl⟩
    · cases h
  | stop p =>
    cases h
    exact Or.inr ⟨_, rfl, rfl⟩

/-- Two threads of one process are not both inside its commit lock. -/
theorem Cluster.Locked.excludes {p q : P} (hl : s.Locked proc) (hpq : q ≠ p)
    (hproc : proc q = proc p) (hp : (s.task p).holdsLock = true) :
    (s.task q).holdsLock = false := by
  cases hq : (s.task q).holdsLock with
  | false => rfl
  | true =>
    have h := hl q hq
    rw [hproc, hl p hp] at h
    cases h
    exact absurd rfl hpq

theorem Cluster.Idle.locked (h : s.Idle) : s.Locked proc := by
  intro p hp
  rw [h.1 p] at hp
  cases hp

theorem Cluster.init_idle (sh : Shared) : (Cluster.init sh : Cluster P R).Idle :=
  ⟨fun _ => rfl, fun _ => rfl⟩

theorem Shared.after_task (sh : Shared) (t : Task) : sh.after { task := t } = sh := by
  simp [Shared.after, Store.apply, Effect.committed]

/-- A task outside the commit lock leaves the shared part as it is. -/
theorem Shared.after_of_not_holdsLock (sh : Shared) {r : Reply} {built : List (String × Nat)}
    {t : Task} (h : t.holdsLock = false) : sh.after (taskStep ns sh.store r built t) = sh := by
  have hacked : (taskStep ns sh.store r built t).acked = none := by
    cases t with
    | appendPutMeta => cases h
    | idle | appendPutWal | appendDelete | indexLock | indexPutMeta | compactLock
    | compactPutSnapshot | compactPutMeta => rfl
    | compactDelete seqs => cases h
    | _ =>
      simp only [taskStep, retryGet]
      repeat' split
      all_goals rfl
  simp [Shared.after, taskStep_effect_of_not_holdsLock h, hacked, Store.apply, Effect.committed]

variable [DecidableEq P] [DecidableEq R]

theorem step_eq_some (h : (cluster ns proc).step s a = some s') :
    ∃ o, s.outcome ns a = some o ∧ s.mayEnter proc a.thread o.task = true ∧
      s' = s.after proc a.thread o := by
  obtain ⟨o, ho, hrest⟩ := Option.bind_eq_some_iff.mp h
  split at hrest
  · rename_i henter
    cases hrest
    exact ⟨o, ho, henter, rfl⟩
  · cases hrest

theorem Cluster.Locked.after {p : P} {o : Outcome} (hl : s.Locked proc)
    (henter : s.mayEnter proc p o.task = true) : (s.after proc p o).Locked proc := by
  intro q hq
  have hown : o.task.holdsLock = true → (s.lock (proc p) = none ∨ s.lock (proc p) = some p) := by
    intro ho
    simp only [Cluster.mayEnter, ho, Bool.not_true, Bool.false_or, Bool.or_eq_true,
      Option.isNone_iff_eq_none] at henter
    rcases henter with hheld | hfree
    · exact Or.inr (hl p hheld)
    · exact Or.inl hfree
  by_cases hqp : q = p
  · subst hqp
    have ho : o.task.holdsLock = true := by
      simpa [Cluster.after] using hq
    simp [Cluster.after, Cluster.relock, ho]
  · have hheld : (s.task q).holdsLock = true := by
      simpa [Cluster.after, Function.update_of_ne hqp] using hq
    have hlock := hl q hheld
    simp only [Cluster.after, Cluster.relock]
    split
    · rename_i ho
      by_cases hproc : proc q = proc p
      · rw [hproc] at hlock
        rcases hown ho with h | h <;> rw [h] at hlock <;> cases hlock
        exact absurd rfl hqp
      · rw [Function.update_of_ne hproc]
        exact hlock
    · split
      · rename_i hp
        by_cases hproc : proc q = proc p
        · have hlockp := hl p hp
          rw [← hproc, hlock] at hlockp
          cases hlockp
          exact absurd rfl hqp
        · rw [Function.update_of_ne hproc]
          exact hlock
      · exact hlock

/-- Facts about the shared part and about every task are kept by a step, if the
request of one task keeps them for itself and for the others. -/
theorem step_invariant {I : Shared → Prop} {T : Shared → Task → Prop}
    (hstep : (cluster ns proc).step s a = some s')
    (hl : s.Locked proc) (hI : I s.shared) (hT : ∀ p, T s.shared (s.task p))
    (hmove : ∀ t, s.Moves a t → T s.shared t)
    (hown : ∀ p r built, a = .send p r built → (s.task p).sends = true →
      let o := taskStep ns s.shared.store r built (s.task p)
      I (s.shared.after o) ∧ T (s.shared.after o) o.task)
    (hother : ∀ p r built q, a = .send p r built → (s.task p).sends = true → q ≠ p →
      T (s.shared.after (taskStep ns s.shared.store r built (s.task p))) (s.task q)) :
    s'.Locked proc ∧ I s'.shared ∧ ∀ p, T s'.shared (s'.task p) := by
  obtain ⟨o, ho, henter, rfl⟩ := step_eq_some hstep
  refine ⟨hl.after henter, ?_⟩
  rcases outcome_cases ho with ⟨p, r, built, rfl, hsends, rfl⟩ | ⟨t, rfl, ht⟩
  · obtain ⟨hI', hTp⟩ := hown p r built rfl hsends
    refine ⟨hI', ?_⟩
    exact (Function.forall_update_iff s.task _).mpr
      ⟨hTp, fun q hq => hother p r built q rfl hsends hq⟩
  · have hsame : (s.after proc a.thread { task := t }).shared = s.shared :=
      Shared.after_task s.shared t
    rw [hsame]
    refine ⟨hI, ?_⟩
    exact (Function.forall_update_iff s.task _).mpr ⟨hmove t ht, fun q _ => hT q⟩

/-- With one process, the facts about a task inside the lock only have to
survive the requests of that task. -/
theorem step_invariant_of_one_process {I : Shared → Prop} {T : Shared → Task → Prop}
    (hone : ∀ p q, proc p = proc q)
    (hstep : (cluster ns proc).step s a = some s')
    (hl : s.Locked proc) (hI : I s.shared) (hT : ∀ p, T s.shared (s.task p))
    (hmove : ∀ t, s.Moves a t → T s.shared t)
    (hout : ∀ sh sh' t, t.holdsLock = false → T sh t → T sh' t)
    (hown : ∀ p r built, a = .send p r built → (s.task p).sends = true →
      let o := taskStep ns s.shared.store r built (s.task p)
      I (s.shared.after o) ∧ T (s.shared.after o) o.task) :
    s'.Locked proc ∧ I s'.shared ∧ ∀ p, T s'.shared (s'.task p) := by
  refine step_invariant hstep hl hI hT hmove hown ?_
  intro p r built q ha hsends hqp
  cases hp : (s.task p).holdsLock with
  | true => exact hout _ _ _ (hl.excludes hqp (hone q p) hp) (hT q)
  | false =>
    rw [Shared.after_of_not_holdsLock s.shared hp]
    exact hT q

theorem log_grows {as : List (Action P)} (hr : (cluster ns proc).run s as = some s') :
    s.shared.log <+: s'.shared.log := by
  refine Machine.run_keeps (I := fun u => s.shared.log <+: u.shared.log) ?_ (List.prefix_refl _) hr
  intro u b u' hu hstep
  obtain ⟨o, -, -, rfl⟩ := step_eq_some hstep
  exact hu.trans (List.prefix_append _ _)

end Steps

end OpenPuffer
