import OpenPuffer.Lib.FloatingPoint

/-!
# The order of floating point values

Values that are numbers are ordered like the extended rationals: `place` maps both
zeros to the same point and the infinities to the ends, and the comparison of two
numbers is that of their places.  NaN has no place of its own.
-/

namespace Fp

/-- The place of a number among the extended rationals. -/
def place : Fp → WithBot (WithTop Rat)
  | .num q => ((q : WithTop Rat) : WithBot (WithTop Rat))
  | .negZero => (((0 : Rat) : WithTop Rat) : WithBot (WithTop Rat))
  | .inf true => ⊥
  | .inf false => ((⊤ : WithTop Rat) : WithBot (WithTop Rat))
  | .nan => ⊥

variable {x y : Fp}

theorem isFinite_or_inf (h : x ≠ .nan) : x.isFinite = true ∨ ∃ neg, x = .inf neg := by
  cases x with
  | num q => exact .inl rfl
  | negZero => exact .inl rfl
  | inf neg => exact .inr ⟨neg, rfl⟩
  | nan => exact absurd rfl h

theorem place_of_isFinite (h : x.isFinite = true) :
    x.place = ((x.val : WithTop Rat) : WithBot (WithTop Rat)) := by
  cases x with
  | num q => rfl
  | negZero => rfl
  | inf neg => cases h
  | nan => cases h

theorem partialCmp_of_isFinite (hx : x.isFinite = true) (hy : y.isFinite = true) :
    x.partialCmp y = some (compareOfLessAndEq x.val y.val) := by
  cases x with
  | inf a => cases hx
  | nan => cases hx
  | num p =>
    cases y with
    | inf b => cases hy
    | nan => cases hy
    | num q => rfl
    | negZero => rfl
  | negZero =>
    cases y with
    | inf b => cases hy
    | nan => cases hy
    | num q => rfl
    | negZero => rfl

theorem partialCmp_inf_left (neg : Bool) (hy : y.isFinite = true) :
    (Fp.inf neg).partialCmp y = some (if neg then .lt else .gt) := by
  cases y <;> first | rfl | cases hy

theorem partialCmp_inf_right (hx : x.isFinite = true) (neg : Bool) :
    x.partialCmp (.inf neg) = some (if neg then .gt else .lt) := by
  cases x <;> first | rfl | cases hx

theorem place_lt_place (hx : x.isFinite = true) (hy : y.isFinite = true) :
    x.place < y.place ↔ x.val < y.val := by
  rw [place_of_isFinite hx, place_of_isFinite hy, WithBot.coe_lt_coe, WithTop.coe_lt_coe]

theorem bot_lt_place (hx : x.isFinite = true) : (Fp.inf true).place < x.place := by
  rw [place_of_isFinite hx]
  exact WithBot.bot_lt_coe _

theorem place_lt_top (hx : x.isFinite = true) : x.place < (Fp.inf false).place := by
  rw [place_of_isFinite hx]
  exact WithBot.coe_lt_coe.mpr (WithTop.coe_lt_top _)

/-- Numbers compare like their places. -/
theorem partialCmp_eq_compare (hx : x ≠ .nan) (hy : y ≠ .nan) :
    x.partialCmp y = some (compare x.place y.place) := by
  rcases isFinite_or_inf hx with hx | ⟨a, rfl⟩
  · rcases isFinite_or_inf hy with hy | ⟨b, rfl⟩
    · rw [partialCmp_of_isFinite hx hy, ← LinearOrder.compare_eq_compareOfLessAndEq]
      rcases lt_trichotomy x.val y.val with hlt | heq | hgt
      · rw [compare_lt_iff_lt.mpr hlt, compare_lt_iff_lt.mpr ((place_lt_place hx hy).mpr hlt)]
      · rw [compare_eq_iff_eq.mpr heq, compare_eq_iff_eq.mpr]
        rw [place_of_isFinite hx, place_of_isFinite hy, heq]
      · rw [compare_gt_iff_gt.mpr hgt, compare_gt_iff_gt.mpr ((place_lt_place hy hx).mpr hgt)]
    · rw [partialCmp_inf_right hx]
      cases b with
      | true => rw [compare_gt_iff_gt.mpr (bot_lt_place hx)]; rfl
      | false => rw [compare_lt_iff_lt.mpr (place_lt_top hx)]; rfl
  · rcases isFinite_or_inf hy with hy | ⟨b, rfl⟩
    · rw [partialCmp_inf_left a hy]
      cases a with
      | true => rw [compare_lt_iff_lt.mpr (bot_lt_place hy)]; rfl
      | false => rw [compare_gt_iff_gt.mpr (place_lt_top hy)]; rfl
    · revert a b
      decide

end Fp
