import Mathlib

/-!
# Versioned cells

A cell is one object of a store whose every version has its own entity tag.  A conditional PUT
takes effect only while the version the writer read is still the stored one.  `Seen c r` says
that `r` was read from the cell at some earlier moment.  If the condition of a PUT holds, the
cell has not moved since the read (`Seen.eq_of_matches`).
-/

universe u

/-- A stored object with its tag.  Tags below `fresh` have been given out. -/
structure Cell (α : Type u) where
  /-- The stored version and its tag. -/
  current : Option (α × Nat)
  /-- The tag of the next version. -/
  fresh : Nat
  lt_fresh : ∀ a t, current = some (a, t) → t < fresh

namespace Cell

variable {α : Type u}

/-- No object. -/
def absent : Cell α := ⟨none, 0, by simp⟩

/-- A cell with a given version. -/
def holding (r : Option (α × Nat)) : Cell α :=
  ⟨r, (r.map fun p => p.2 + 1).getD 0, by
    rintro a t rfl
    exact Nat.lt_succ_self t⟩

/-- Store a version under a new tag. -/
def put (c : Cell α) (a : α) : Cell α :=
  ⟨some (a, c.fresh), c.fresh + 1, by
    intro b t h
    cases h
    exact Nat.lt_succ_self _⟩

/-- The precondition of a conditional PUT after reading `r`. -/
def Matches (c : Cell α) (r : Option (α × Nat)) : Prop :=
  c.current.map Prod.snd = r.map Prod.snd

instance (c : Cell α) (r : Option (α × Nat)) : Decidable (c.Matches r) :=
  inferInstanceAs (Decidable (_ = _))

/-- `r` was read from this cell at some earlier moment. -/
def Seen (c : Cell α) (r : Option (α × Nat)) : Prop :=
  ∀ a t, r = some (a, t) → t < c.fresh ∧ ∀ b, c.current = some (b, t) → b = a

theorem seen_current (c : Cell α) : c.Seen c.current := by
  intro a t h
  refine ⟨c.lt_fresh a t h, ?_⟩
  intro b hb
  rw [h] at hb
  cases hb
  rfl

/-- A read stays a read after another version is stored. -/
theorem Seen.put {c : Cell α} {r : Option (α × Nat)} (h : c.Seen r) (a : α) :
    (c.put a).Seen r := by
  intro b t hr
  obtain ⟨hlt, -⟩ := h b t hr
  refine ⟨Nat.lt_succ_of_lt hlt, ?_⟩
  intro b' hb'
  cases hb'
  exact absurd hlt (Nat.lt_irrefl _)

/-- A conditional PUT whose condition holds finds the version it read. -/
theorem Seen.eq_of_matches {c : Cell α} {r : Option (α × Nat)} (h : c.Seen r)
    (hm : c.Matches r) : c.current = r := by
  unfold Matches at hm
  cases hr : r with
  | none =>
    rw [hr] at hm
    simpa using hm
  | some p =>
    obtain ⟨a, t⟩ := p
    rw [hr, Option.map_some, Option.map_eq_some_iff] at hm
    obtain ⟨⟨b, t'⟩, hb, ht⟩ := hm
    cases ht
    rw [hb, (h a t hr).2 b hb]

end Cell
