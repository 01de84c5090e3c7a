import OpenPuffer.Keys
import OpenPuffer.Vector.Exhaustive

/-!
# How many objects a v3 build has

A v3 build chooses its number of coarse cells from an estimate that takes all cells to be of one
size.  A cell never gets more than eight fine centroids, and as long as there are 500 documents
for every cell the estimate counts eight as well.  So there are at most 55 cells, and 55 cells
have at most 495 objects.
-/

namespace OpenPuffer

namespace VectorIndex

/-- The keys of the routing table and of its parts, sorted and without repetitions. -/
def allV3AuxKeys (idx : VectorIndex) (ns : String) : List String :=
  let field := idx.l0.vectorField
  let routing := if idx.l0.hasRouting then {CentroidRouting.key ns field} else ∅
  (IterOrder.sorted String).toList (routing ∪ idx.l2.keys.image (CentroidIndexL2.key ns field))

def indexObjectCount (idx : VectorIndex) : Nat :=
  idx.l0.numCoarse + idx.l0.numFineTotal + (idx.allV3AuxKeys "").length

end VectorIndex

/-- The root of a size is rounded up exactly. -/
def SqrtExact (n : Nat) : Prop := ∀ m ≤ n, IsLeast {r | m ≤ r ^ 2} (sqrtCeil m)

theorem numFineV3_of_le {m : Nat} (hm : 500 ≤ m) (hsqrt : SqrtExact m) :
    numFineV3 m = maxFinePerCoarseV3 := by
  have hroot : m ≤ sqrtCeil m ^ 2 := (hsqrt m (Nat.le_refl m)).1
  have height : 8 ≤ sqrtCeil m := by
    by_contra hlt
    have := Nat.pow_le_pow_left (show sqrtCeil m ≤ 7 by omega) 2
    omega
  rw [numFineV3, if_neg (by omega), clamp, maxFinePerCoarseV3]
  omega

/-- With 500 documents for every cell, the number of cells is lowered to 55. -/
theorem lowerCoarseV3_le {n : Nat} (hsqrt : SqrtExact n) (k : Nat) (hk : k * 500 ≤ n ∨ k ≤ 55) :
    lowerCoarseV3 n k ≤ 55 := by
  induction k with
  | zero => exact Nat.zero_le _
  | succ k ih =>
    rw [lowerCoarseV3]
    split
    · exact ih (hk.imp (Nat.mul_le_mul_right 500 (Nat.le_succ k)).trans Nat.le_of_succ_le)
    · rename_i hstop
      by_contra hlarge
      have hcell : 500 ≤ (n + (k + 1) - 1) / (k + 1) := by
        rw [Nat.le_div_iff_mul_le (Nat.succ_pos k)]
        omega
      have hcelln : (n + (k + 1) - 1) / (k + 1) ≤ n := by
        refine Nat.div_le_of_le_mul ?_
        have := Nat.mul_le_mul_left k (show 1 ≤ n by omega)
        rw [Nat.succ_mul]
        omega
      refine hstop ⟨by omega, ?_⟩
      rw [v3L1ClusterObjectCountEstimate, if_neg (Nat.succ_ne_zero k),
        numFineV3_of_le hcell fun m hm => hsqrt m (hm.trans hcelln)]
      simp only [v3IndexObjectCap, maxFinePerCoarseV3]
      omega

theorem numCoarseV3_le {n : Nat} (hsqrt : SqrtExact n) : numCoarseV3 n ≤ 55 := by
  rw [numCoarseV3]
  split
  · decide
  · refine lowerCoarseV3_le hsqrt _ ?_
    simp only [clamp, v3TargetDocsPerCoarse, maxCoarseCentroidsV3]
    omega

namespace VectorIndex

theorem length_collectPairs_le (field : String) (docs : List Document) :
    (collectPairs field docs).2.length ≤ docs.length := by
  induction docs using List.reverseRecOn with
  | nil => exact Nat.le_refl 0
  | append_singleton docs doc ih =>
    have hstep : ∀ found, (collectPair field found doc).2.length ≤ found.2.length + 1 := by
      intro found
      rw [collectPair]
      repeat' split
      all_goals simp
    rw [collectPairs, List.foldl_append, List.length_append]
    exact (hstep _).trans (Nat.add_le_add_right ih 1)

variable {q : Quantizer} {segmentId : Nat} {field : String} {metric : DistanceMetric}
  {docs : List Document} {schema : Json} {cfg : AnnBuildConfig} {idx : VectorIndex}

/-- A v3 build stays below the object cap, whatever its centroids and assignments are. -/
theorem build_indexObjectCount_lt (hsqrt : SqrtExact docs.length)
    (hv : annVersionV3 ≤ cfg.annVersion)
    (h : build q segmentId field metric docs schema cfg = some idx) :
    idx.indexObjectCount < v3IndexObjectCap := by
  obtain ⟨hrouting, -, hl2, hcoarse, hfine⟩ := build_unrouted h
  have haux : (idx.allV3AuxKeys "").length = 0 := by
    simp [allV3AuxKeys, hrouting, hl2, IterOrder.length_toList]
  have hcells : idx.l0.numCoarse ≤ 55 := by
    rw [hcoarse, numCoarseForVersion, if_pos hv]
    split
    · exact Nat.zero_le _
    · exact numCoarseV3_le fun m hm => hsqrt m (hm.trans (length_collectPairs_le field docs))
  have hfine := hfine hv
  rw [indexObjectCount, haux, v3IndexObjectCap]
  rw [maxFinePerCoarseV3] at hfine
  omega

theorem sqrtExact_of_checked {n : Nat} (h : ∀ m ≤ n, m ≤ sqrtCeil m ^ 2 ∧
    (sqrtCeil m = 0 ∨ (sqrtCeil m - 1) ^ 2 < m)) : SqrtExact n := by
  intro m hm
  obtain ⟨hle, hleast⟩ := h m hm
  refine ⟨hle, fun r hr => ?_⟩
  by_contra hlt
  have hpow := Nat.pow_le_pow_left (show r ≤ sqrtCeil m - 1 by omega) 2
  have hge : m ≤ r ^ 2 := hr
  omega

/-- Forty documents on a line. -/
def fortyPoints : List Document := (List.range 40).map fun i => pointDoc (toString i) i

/-- A build of forty documents, with several cells. -/
theorem indexObjectCount_fortyPoints : ∃ idx,
    build quantizer 1 "emb" .euclideanSquared fortyPoints .null { annVersion := 3 } = some idx ∧
      1 < idx.l0.numCoarse ∧ idx.indexObjectCount < v3IndexObjectCap := by
  have hbuild : (build quantizer 1 "emb" .euclideanSquared fortyPoints .null
      { annVersion := 3 }).map (fun idx => decide (1 < idx.l0.numCoarse)) = some true := by
    decide +kernel
  obtain ⟨idx, hidx, hcells⟩ := Option.map_eq_some_iff.mp hbuild
  have hsqrt : SqrtExact fortyPoints.length := sqrtExact_of_checked (by decide +kernel)
  exact ⟨idx, hidx, of_decide_eq_true hcells, build_indexObjectCount_lt hsqrt (by decide) hidx⟩

end VectorIndex

end OpenPuffer
