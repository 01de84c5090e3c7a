import Mathlib

/-!
# Congruential generators modulo a power of two

A generator replaces its state `x` by `a * x + c`, modulo `2 ^ k`.  If `a` is one modulo
four and `c` is odd, then `2 ^ k` steps add `2 ^ k` modulo `2 ^ (k + 1)`
(`affine_two_pow`).  So a residue that is reached modulo `2 ^ k` is reached modulo
`2 ^ (k + 1)` at once or `2 ^ k` steps later, and every residue is reached.
-/

namespace Congruential

/-- A step without the reduction. -/
def affine (a c x : Nat) : Nat := a * x + c

/-- A step of a generator. -/
def next (a c k x : Nat) : Nat := affine a c x % 2 ^ k

variable {a c : Nat}

/-- Reducing at every step or at the end is the same. -/
theorem iterate_next_modEq (a c k n x : Nat) :
    (next a c k)^[n] x ≡ (affine a c)^[n] x [MOD 2 ^ k] := by
  induction n generalizing x with
  | zero => exact Nat.ModEq.refl x
  | succ n ih =>
    rw [Function.iterate_succ_apply', Function.iterate_succ_apply']
    exact (Nat.mod_modEq _ _).trans (((ih x).mul_left a).add_right c)

/-- The form of `2 ^ k` steps. -/
theorem exists_affine_two_pow (ha : a % 4 = 1) (hc : c % 2 = 1) (k : Nat) :
    ∃ u v, ∀ x, (affine a c)^[2 ^ k] x = x + 2 ^ k + 2 ^ (k + 1) * (2 * u * x + v) := by
  induction k with
  | zero =>
    refine ⟨a / 4, c / 2, fun x => ?_⟩
    have hac : a = 4 * (a / 4) + 1 ∧ c = 2 * (c / 2) + 1 := by omega
    rw [pow_zero, Function.iterate_one, affine]
    nth_rewrite 1 [hac.1, hac.2]
    ring
  | succ k ih =>
    obtain ⟨u, v, hsteps⟩ := ih
    refine ⟨u + 2 ^ (k + 1) * u ^ 2, v + u * 2 ^ k * (2 * v + 1), fun x => ?_⟩
    rw [pow_succ, Nat.mul_two, Function.iterate_add_apply, hsteps, hsteps]
    ring

theorem affine_two_pow (ha : a % 4 = 1) (hc : c % 2 = 1) (k x : Nat) :
    (affine a c)^[2 ^ k] x ≡ x + 2 ^ k [MOD 2 ^ (k + 1)] := by
  obtain ⟨u, v, hsteps⟩ := exists_affine_two_pow ha hc k
  rw [hsteps, Nat.ModEq, Nat.add_mul_mod_self_left]

/-- Numbers that agree modulo `m` agree modulo `2 * m`, or do so after adding `m`. -/
theorem modEq_or_add_modEq {m x y : Nat} (h : x ≡ y [MOD m]) :
    x ≡ y [MOD m * 2] ∨ x + m ≡ y [MOD m * 2] := by
  rcases Nat.eq_zero_or_pos m with rfl | hm
  · exact .inl h
  · simp only [Nat.ModEq, Nat.mod_mul, Nat.add_mod_right, Nat.add_div_right _ hm] at h ⊢
    rw [h]
    rcases Nat.mod_two_eq_zero_or_one (x / m) with hx | hx <;>
      rcases Nat.mod_two_eq_zero_or_one (y / m) with hy | hy
    · exact .inl (by rw [hx, hy])
    · exact .inr (by rw [Nat.succ_mod_two_eq_one_iff.mpr hx, hy])
    · exact .inr (by rw [Nat.succ_mod_two_eq_zero_iff.mpr hx, hy])
    · exact .inl (by rw [hx, hy])

/-- Every residue is reached in fewer than `2 ^ k` steps. -/
theorem reaches (ha : a % 4 = 1) (hc : c % 2 = 1) (k x y : Nat) :
    ∃ n < 2 ^ k, (next a c k)^[n] x ≡ y [MOD 2 ^ k] := by
  have hsteps : ∃ n < 2 ^ k, (affine a c)^[n] x ≡ y [MOD 2 ^ k] := by
    induction k with
    | zero => exact ⟨0, Nat.one_pos, Nat.modEq_one⟩
    | succ k ih =>
      obtain ⟨n, hn, hmod⟩ := ih
      rw [pow_succ]
      rcases modEq_or_add_modEq hmod with heq | heq
      · exact ⟨n, by omega, heq⟩
      · refine ⟨2 ^ k + n, by omega, ?_⟩
        rw [Function.iterate_add_apply]
        exact (affine_two_pow ha hc k _).trans heq
  obtain ⟨n, hn, hmod⟩ := hsteps
  exact ⟨n, hn, (iterate_next_modEq a c k n x).trans hmod⟩

end Congruential
