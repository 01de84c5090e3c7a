import Mathlib

/-!
# Machines and their runs

A machine is a partial step function from a state and an action.  Everything a scheduler or an
environment may choose is in the action, so a run is a list of actions and can be evaluated.

A *guard* `G s a` says that action `a` is harmless in state `s`, and `Along G s as` that every
step of the run meets it.  `run_invariant` carries an invariant along a guarded run, and
`along_iff` makes it an equivalence when the guard is exact for one step.
-/

universe u v

/-! The processes of a small system are numbered.  These instances stand for themselves in
the numerals, where those that are found otherwise are proofs. -/

instance neZeroOne : NeZero 1 := ⟨one_ne_zero⟩

instance neZeroTwo : NeZero 2 := ⟨two_ne_zero⟩

instance neZeroThree : NeZero 3 := ⟨three_ne_zero⟩

/-- A partial step function.  Choices of the environment are actions. -/
structure Machine (σ : Type u) (α : Type v) where
  /-- One step, or `none` when the action is not enabled. -/
  step : σ → α → Option σ

namespace Machine

variable {σ : Type u} {α : Type v} (m : Machine σ α)

/-- Take the actions of a list in order. -/
def run : σ → List α → Option σ
  | s, [] => some s
  | s, a :: as => (m.step s a).bind fun s' => run s' as

/-- Every step of the run `as` from `s` meets the guard `G`. -/
def Along (G : σ → α → Prop) : σ → List α → Prop
  | _, [] => True
  | s, a :: as => G s a ∧ ∀ s', m.step s a = some s' → Along G s' as

/-- The states the run `as` visits after `s`, the last one included. -/
def Visits (s : σ) (as : List α) (t : σ) : Prop :=
  ∃ pre post, as = pre ++ post ∧ m.run s pre = some t

variable {m}

theorem run_cons (s : σ) (a : α) (as : List α) :
    m.run s (a :: as) = (m.step s a).bind fun s' => m.run s' as := rfl

variable {s t : σ} {as bs : List α} {G H D : σ → α → Prop} {I P : σ → Prop}

/-- A run that starts with `a` takes that step first. -/
theorem run_cons_some {a : α} :
    m.run s (a :: as) = some t ↔ ∃ s', m.step s a = some s' ∧ m.run s' as = some t := by
  rw [run_cons, Option.bind_eq_some_iff]

theorem run_append (s : σ) (as bs : List α) :
    m.run s (as ++ bs) = (m.run s as).bind fun s' => m.run s' bs := by
  induction as generalizing s with
  | nil => rfl
  | cons a as ih =>
    rw [List.cons_append, run_cons, run_cons]
    cases m.step s a with
    | none => rfl
    | some s' => exact ih s'

theorem run_append_some :
    m.run s (as ++ bs) = some t ↔ ∃ s', m.run s as = some s' ∧ m.run s' bs = some t := by
  rw [run_append, Option.bind_eq_some_iff]

/-! ## Guarded runs -/

theorem along_append (hr : m.run s as = some t) :
    m.Along G s (as ++ bs) ↔ m.Along G s as ∧ m.Along G t bs := by
  induction as generalizing s with
  | nil =>
    cases hr
    exact ⟨fun h => ⟨trivial, h⟩, fun h => h.2⟩
  | cons a as ih =>
    obtain ⟨s', hs, hr'⟩ := run_cons_some.mp hr
    have hone : ∀ s₁, m.step s a = some s₁ → s₁ = s' := by
      intro s₁ h₁
      exact Option.some.inj (h₁.symm.trans hs)
    constructor
    · rintro ⟨hg, hrest⟩
      obtain ⟨h1, h2⟩ := (ih hr').mp (hrest s' hs)
      refine ⟨⟨hg, ?_⟩, h2⟩
      intro s₁ h₁
      rw [hone s₁ h₁]
      exact h1
    · rintro ⟨⟨hg, hrest⟩, h2⟩
      refine ⟨hg, ?_⟩
      intro s₁ h₁
      rw [hone s₁ h₁]
      exact (ih hr').mpr ⟨hrest s' hs, h2⟩

theorem along_of_append (h : m.Along G s (as ++ bs)) : m.Along G s as := by
  induction as generalizing s with
  | nil => trivial
  | cons a as ih => exact ⟨h.1, fun s' hs => ih (h.2 s' hs)⟩

theorem Along.and :
    ∀ {s : σ} {as : List α}, m.Along G s as → m.Along H s as →
      m.Along (fun s a => G s a ∧ H s a) s as
  | _, [], _, _ => trivial
  | _, _ :: _, hG, hH => ⟨⟨hG.1, hH.1⟩, fun s' hs => (hG.2 s' hs).and (hH.2 s' hs)⟩

theorem Along.imp (h : ∀ s a, G s a → H s a) :
    ∀ {s : σ} {as : List α}, m.Along G s as → m.Along H s as
  | _, [], _ => trivial
  | s, a :: _, hG => ⟨h s a hG.1, fun s' hs => (hG.2 s' hs).imp h⟩

theorem along_of_forall {D : α → Prop} :
    ∀ (s : σ) (as : List α), (∀ a ∈ as, D a) → m.Along (fun _ a => D a) s as
  | _, [], _ => trivial
  | _, a :: as, h =>
    ⟨h a List.mem_cons_self,
      fun s' _ => along_of_forall s' as fun b hb => h b (List.mem_cons_of_mem a hb)⟩

/-- A decidable guard can be checked along a run. -/
def decidableAlong (G : σ → α → Prop) [∀ s a, Decidable (G s a)] :
    ∀ (s : σ) (as : List α), Decidable (m.Along G s as)
  | _, [] => isTrue trivial
  | s, [a] => decidable_of_iff (G s a) (by simp [Along])
  | s, a :: b :: as =>
    match hs : m.step s a with
    | none => decidable_of_iff (G s a) (by simp [Along, hs])
    | some s' =>
      have := decidableAlong G s' (b :: as)
      decidable_of_iff (G s a ∧ m.Along G s' (b :: as)) (by simp [Along, hs])

instance (G : σ → α → Prop) [∀ s a, Decidable (G s a)] (s : σ) (as : List α) :
    Decidable (m.Along G s as) :=
  decidableAlong G s as

/-- Whether a run ends in a state with a decidable property can be computed. -/
instance (o : Option σ) (P : σ → Prop) [DecidablePred P] : Decidable (∃ t, o = some t ∧ P t) :=
  match o with
  | none => isFalse (by simp)
  | some t => decidable_of_iff (P t) (by simp)

/-- An invariant that every guarded step keeps holds at the end of every
guarded run. -/
theorem run_invariant (hstep : ∀ s a s', I s → G s a → m.step s a = some s' → I s') :
    ∀ {s t : σ} {as : List α}, I s → m.Along G s as → m.run s as = some t → I t
  | s, t, [], hI, _, hr => by
    cases hr
    exact hI
  | s, t, a :: as, hI, hG, hr => by
    obtain ⟨s', hs, hr'⟩ := run_cons_some.mp hr
    exact run_invariant hstep (hstep s a s' hI hG.1 hs) (hG.2 s' hs) hr'

/-- If every guarded step out of an invariant state is enabled and keeps the
invariant, a guarded run is never stuck. -/
theorem run_total (hstep : ∀ s a, I s → G s a → ∃ s', m.step s a = some s' ∧ I s') (hI : I s)
    (hG : m.Along G s as) : ∃ t, m.run s as = some t ∧ I t := by
  induction as generalizing s with
  | nil => exact ⟨s, rfl, hI⟩
  | cons a as ih =>
    obtain ⟨s', hs, hI'⟩ := hstep s a hI hG.1
    obtain ⟨t, hr, ht⟩ := ih hI' (hG.2 s' hs)
    exact ⟨t, run_cons_some.mpr ⟨s', hs, hr⟩, ht⟩

/-- The invariant holds in every state a guarded run visits. -/
theorem visits_invariant (hstep : ∀ s a s', I s → G s a → m.step s a = some s' → I s') (hI : I s)
    (hG : m.Along G s as) (hv : m.Visits s as t) : I t := by
  obtain ⟨pre, post, rfl, hr⟩ := hv
  exact run_invariant hstep hI ((along_append hr).mp hG).1 hr

theorem visits_end (hr : m.run s as = some t) : m.Visits s as t :=
  ⟨as, [], (List.append_nil as).symm, hr⟩

/-- An invariant that every step keeps holds in every state that a run visits. -/
theorem visits_keeps (hstep : ∀ s a s', I s → m.step s a = some s' → I s') (hI : I s)
    (hv : m.Visits s as t) : I t :=
  visits_invariant (fun s a s' hI _ => hstep s a s' hI) hI
    (along_of_forall s as (D := fun _ => True) fun _ _ => trivial) hv

theorem run_keeps (hstep : ∀ s a s', I s → m.step s a = some s' → I s') (hI : I s)
    (hr : m.run s as = some t) : I t :=
  visits_keeps hstep hI (visits_end hr)

/-- What an invariant and a guard say of one step holds of every step of a guarded
run. -/
theorem along_of_invariant (hstep : ∀ s a s', I s → G s a → m.step s a = some s' → I s')
    (hH : ∀ s a, I s → G s a → H s a) (hI : I s) (hG : m.Along G s as) : m.Along H s as := by
  induction as generalizing s with
  | nil => trivial
  | cons a as ih =>
    exact ⟨hH s a hI hG.1, fun s' hs => ih (hstep s a s' hI hG.1 hs) (hG.2 s' hs)⟩

/-- If `P` can be traced back along every step, a run that ends in `P` was in `P`
before each of its steps. -/
theorem along_of_end (hstep : ∀ s a s', I s → D s a → m.step s a = some s' → I s')
    (hback : ∀ s a s', I s → D s a → m.step s a = some s' → P s' → P s) (hI : I s)
    (hD : m.Along D s as) (hr : m.run s as = some t) (ht : P t) :
    P s ∧ m.Along (fun u _ => P u) s as := by
  induction as generalizing s with
  | nil =>
    cases hr
    exact ⟨ht, trivial⟩
  | cons a as ih =>
    obtain ⟨s', hs, hr'⟩ := run_cons_some.mp hr
    obtain ⟨hP', hrest⟩ := ih (hstep s a s' hI hD.1 hs) (hD.2 s' hs) hr'
    have hP := hback s a s' hI hD.1 hs hP'
    refine ⟨hP, hP, ?_⟩
    intro s₁ h₁
    rw [hs] at h₁
    cases h₁
    exact hrest

/-- When a step of the domain `D` out of an invariant state keeps the invariant
if it is guarded, and breaks `P` at once if it is not, a run of the domain shows
`P` in all its states exactly if all its steps are guarded. -/
theorem along_iff (hIP : ∀ s, I s → P s)
    (hstep : ∀ s a s', I s → D s a → G s a → m.step s a = some s' → I s')
    (hbreak : ∀ s a s', I s → D s a → m.step s a = some s' → P s' → G s a) (hI : I s)
    (hD : m.Along D s as) (hr : m.run s as = some t) :
    (∀ u, m.Visits s as u → P u) ↔ m.Along G s as := by
  constructor
  · intro hP
    induction as generalizing s with
    | nil => trivial
    | cons a as ih =>
      obtain ⟨s', hs, hr'⟩ := run_cons_some.mp hr
      have hfirst : P s' := by
        refine hP s' ⟨[a], as, rfl, ?_⟩
        rw [run_cons, hs]
        rfl
      have hg : G s a := hbreak s a s' hI hD.1 hs hfirst
      refine ⟨hg, ?_⟩
      intro s₁ h₁
      rw [hs] at h₁
      cases h₁
      refine ih (hstep s a s' hI hD.1 hg hs) (hD.2 s' hs) hr' ?_
      rintro u ⟨pre, post, rfl, hu⟩
      refine hP u ⟨a :: pre, post, rfl, ?_⟩
      rw [run_cons, hs]
      exact hu
  · intro hG u hv
    have hboth : ∀ s a s', I s → D s a ∧ G s a → m.step s a = some s' → I s' :=
      fun s a s' hI h hs => hstep s a s' hI h.1 h.2 hs
    exact hIP u (visits_invariant hboth hI (hD.and hG) hv)

/-- When a step of the domain `D` to a state with `B` leads to `P` exactly from `P` and
under the guard, and `B` can be traced back, `P` holds at the end of a run to a state
with `B` exactly if it holds at the start and all steps are guarded. -/
theorem along_iff_end {B : σ → Prop}
    (hkeep : ∀ s a s', I s → D s a → m.step s a = some s' → I s')
    (hback : ∀ s a s', m.step s a = some s' → B s' → B s)
    (hstep : ∀ s a s', I s → D s a → m.step s a = some s' → B s' → (P s' ↔ P s ∧ G s a))
    (hI : I s) (hD : m.Along D s as) (hr : m.run s as = some t) (ht : B t) :
    P t ↔ P s ∧ m.Along G s as := by
  suffices h : B s ∧ (P t ↔ P s ∧ m.Along G s as) from h.2
  induction as generalizing s with
  | nil =>
    cases hr
    exact ⟨ht, (and_iff_left trivial).symm⟩
  | cons a as ih =>
    obtain ⟨s', hs, hr'⟩ := run_cons_some.mp hr
    obtain ⟨hB, hiff⟩ := ih (hkeep s a s' hI hD.1 hs) (hD.2 s' hs) hr'
    refine ⟨hback s a s' hs hB, ?_⟩
    rw [hiff, hstep s a s' hI hD.1 hs hB, and_assoc]
    refine and_congr_right fun _ => and_congr_right fun _ => ?_
    constructor
    · intro h s₁ h₁
      rw [hs] at h₁
      cases h₁
      exact h
    · exact fun h => h s' hs

end Machine
