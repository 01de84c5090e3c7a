import Mathlib

/-!
# Logs whose replay absorbs repetition

An action of operations on states is *regular* when an operation applied again leaves nothing
of its earlier application: `x x = x` and `x y x = y x`.  Overwrites, erasures and partial
overwrites of a record are regular.  The laws lift to lists of operations, so a state that has
seen some part of a log may be replayed from an earlier point (`foldl_catch_up`).
-/

universe u v

/-- An action in which a later application absorbs an earlier one. -/
structure RegularAction {σ : Type u} {o : Type v} (act : σ → o → σ) : Prop where
  idem : ∀ s x, act (act s x) x = act s x
  absorb : ∀ s x y, act (act (act s x) y) x = act (act s y) x

namespace RegularAction

variable {σ : Type u} {o : Type v} {act : σ → o → σ}

section

variable (h : RegularAction act)

include h

/-- One operation before a list that repeats it at its end is absorbed. -/
theorem foldl_absorb_one (x : o) (ys : List o) (s : σ) :
    act (ys.foldl act (act s x)) x = act (ys.foldl act s) x := by
  induction ys generalizing s with
  | nil => exact h.idem s x
  | cons y ys ih =>
    calc act (ys.foldl act (act (act s x) y)) x
        = act (ys.foldl act (act (act (act s x) y) x)) x := (ih _).symm
      _ = act (ys.foldl act (act (act s y) x)) x := by rw [h.absorb]
      _ = act (ys.foldl act (act s y)) x := ih _

/-- A list before a list that repeats it at its end is absorbed. -/
theorem foldl_absorb (xs ys : List o) (s : σ) :
    xs.foldl act (ys.foldl act (xs.foldl act s)) = xs.foldl act (ys.foldl act s) := by
  induction xs generalizing ys s with
  | nil => rfl
  | cons x xs ih =>
    have hx : act (ys.foldl act (xs.foldl act (act s x))) x
        = act (ys.foldl act (xs.foldl act s)) x := by
      have := h.foldl_absorb_one x (xs ++ ys) s
      rwa [List.foldl_append, List.foldl_append] at this
    have hxs := ih (ys ++ [x]) s
    simp only [List.foldl_append, List.foldl_cons, List.foldl_nil] at hxs
    calc xs.foldl act (act (ys.foldl act (xs.foldl act (act s x))) x)
        = xs.foldl act (act (ys.foldl act (xs.foldl act s)) x) := by rw [hx]
      _ = xs.foldl act (act (ys.foldl act s) x) := hxs

theorem foldl_idem (xs : List o) (s : σ) :
    xs.foldl act (xs.foldl act s) = xs.foldl act s :=
  h.foldl_absorb xs [] s

/-- Catching up from an earlier point.  If `bs` brings the state `s` to where
`as ++ bs` brings `s₀`, then so does the longer log `as ++ bs` itself. -/
theorem foldl_catch_up {s s₀ : σ} (as bs : List o)
    (hs : bs.foldl act s = (as ++ bs).foldl act s₀) :
    (as ++ bs).foldl act s = (as ++ bs).foldl act s₀ := by
  have hb : bs.foldl act (as.foldl act (bs.foldl act s)) = bs.foldl act (as.foldl act s) :=
    h.foldl_absorb bs as s
  calc (as ++ bs).foldl act s
      = bs.foldl act (as.foldl act s) := List.foldl_append
    _ = bs.foldl act (as.foldl act (bs.foldl act s)) := hb.symm
    _ = (as ++ bs).foldl act ((as ++ bs).foldl act s₀) := by rw [hs, ← List.foldl_append]
    _ = (as ++ bs).foldl act s₀ := h.foldl_idem _ _

/-- A log that was broken off may be started over. -/
theorem foldl_restart (as bs : List o) (s : σ) :
    (as ++ bs).foldl act (as.foldl act s) = (as ++ bs).foldl act s := by
  rw [List.foldl_append, List.foldl_append, h.foldl_idem]

/-- An action on tables whose operations each act on one entry. -/
theorem lift {S : Type*} {κ : Type*} [DecidableEq κ] {F : S → o → S}
    {entry : S → κ → σ} (key : o → κ) (hext : ∀ s t, (∀ k, entry s k = entry t k) → s = t)
    (hF : ∀ s x k, entry (F s x) k = if key x = k then act (entry s k) x else entry s k) :
    RegularAction F where
  idem := by
    intro s x
    apply hext
    intro k
    simp only [hF]
    by_cases hx : key x = k
    · simp only [hx, if_true]
      exact h.idem _ x
    · simp only [hx, if_false]
  absorb := by
    intro s x y
    apply hext
    intro k
    simp only [hF]
    by_cases hx : key x = k
    · by_cases hy : key y = k
      · simp only [hx, hy, if_true]
        exact h.absorb _ x y
      · simp only [hx, hy, if_true, if_false]
        exact h.idem _ x
    · simp only [hx, if_false]

end

end RegularAction
