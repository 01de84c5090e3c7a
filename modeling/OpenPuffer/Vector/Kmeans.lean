import OpenPuffer.Meta
import OpenPuffer.Vector.Encoding

/-!
# Scores and centroids

Vectors are scored with `f64` or `f32` arithmetic, higher is better.  Centroids are picked by
k-means++ with a fixed pseudo-random generator, then ten rounds of Lloyd's iteration move them.
The index is proved correct for every `Quantizer`: any scores and any centroids, as long as
there are as many of them as asked for.
-/

namespace OpenPuffer

open List

/-! ## Scores -/

section Distance

variable (fmt : Format)

def cosine (a b : Vec) : Fp :=
  if a.length ≠ b.length ∨ a = [] then .num 0
  else
    let (dot, na, nb) := (a.zip b).foldl
      (fun (dot, na, nb) (x, y) =>
        (fmt.add dot (fmt.mul x y), fmt.add na (fmt.mul x x), fmt.add nb (fmt.mul y y)))
      (Fp.num 0, Fp.num 0, Fp.num 0)
    if na.eq (.num 0) ∨ nb.eq (.num 0) then .num 0
    else fmt.div dot (fmt.mul (fmt.sqrt na) (fmt.sqrt nb))

def euclid (a b : Vec) : Fp :=
  if a.length ≠ b.length then .inf false
  else
    (List.zipWith (fun x y => let d := fmt.sub x y; fmt.mul d d) a b).foldl fmt.add (.num 0)

/-- The score of a candidate, higher is better. -/
def score (query candidate : Vec) : DistanceMetric → Fp
  | .cosineDistance => cosine fmt query candidate
  | .euclideanSquared =>
    let d2 := euclid fmt query candidate
    if d2.isFinite then d2.neg else .inf true

end Distance

def cosineSimilarity : Vec → Vec → Fp := cosine .binary64

def euclideanSquared : Vec → Vec → Fp := euclid .binary64

def scoreVector : Vec → Vec → DistanceMetric → Fp := score .binary64

def scoreVectorF32 : Vec → Vec → DistanceMetric → Fp := score .binary32

/-! ## Rankings -/

/-- Better scores first, ties by ascending id. -/
def rankCmp {κ : Type} [Ord κ] (a b : κ × Fp) : Ordering :=
  ((b.2.partialCmp a.2).getD .eq).then (compare a.1 b.1)

def sortRanked {κ : Type} [Ord κ] (l : List (κ × Fp)) : List (κ × Fp) :=
  l.insertionSort fun a b => rankCmp a b ≠ .gt

section Nearest

variable (scoreFn : Vec → Vec → DistanceMetric → Fp)

/-- The first centroid with the best score. -/
def nearestCentroidId (v : Vec) (centroids : List Vec) (metric : DistanceMetric) : Nat :=
  (centroids.zipIdx.foldl
    (fun (best : Nat × Fp) (c : Vec × Nat) =>
      let s := scoreFn v c.1 metric
      if best.2.lt s then (c.2, s) else best)
    (0, .inf true)).1

/-- The `m` best centroids. -/
def topMCentroids (centroids : List Vec) (query : Vec) (metric : DistanceMetric) (m : Nat) :
    List Nat :=
  let ranked := sortRanked (centroids.zipIdx.map fun c => (c.2, scoreFn query c.1 metric))
  (ranked.take (min m centroids.length)).map Prod.fst

/-- The nearest centroid of every id; of two vectors under one id the later one
counts. -/
def assignToCentroids (pairs : List (String × Vec)) (centroids : List Vec)
    (metric : DistanceMetric) : HashMap String Nat :=
  pairs.foldl
    (fun out p => out.insert p.1 (nearestCentroidId scoreFn p.2 centroids metric)) ∅

end Nearest

/-! ## The pseudo-random generator -/

namespace XorShift64

def seed (n k : Nat) (pairs : List (String × Vec)) : UInt64 :=
  let s := UInt64.ofNat n * 0x9E3779B97F4A7C15 + UInt64.ofNat k
  let s :=
    match pairs with
    | [] => s
    | (_, v) :: _ =>
      (v.take 8).zipIdx.foldl
        (fun s x => s + UInt64.ofNat (Format.binary64.toBits x.1) * UInt64.ofNat (x.2 + 1)) s
  if s = 0 then 0xA0761D6478BD642F else s

def nextU64 (x : UInt64) : UInt64 :=
  let x := x ^^^ (x <<< 13)
  let x := x ^^^ (x >>> 7)
  x ^^^ (x <<< 17)

/-- The generator after the draw, and a value between 0 and 1. -/
def unitInterval (rng : UInt64) : UInt64 × Fp :=
  let x := nextU64 rng
  (x, Format.binary64.mul (Format.binary64.round x.toNat) (.num (Format.pow2 (-64))))

/-- The generator after the draw, and an index. -/
def index (rng : UInt64) (upper : Nat) : UInt64 × Nat :=
  if upper ≤ 1 then (rng, 0)
  else
    let x := nextU64 rng
    (x, x.toNat % upper)

end XorShift64

/-! ## k-means -/

def kmeansIters : Nat := 10

/-- `f64::EPSILON`. -/
def f64Epsilon : Fp := .num (Format.pow2 (-52))

/-- The weight of a point for k-means++. -/
def pointDistSq (v center : Vec) (metric : DistanceMetric) : Fp :=
  match metric with
  | .cosineDistance =>
    let d := (Format.binary64.sub (.num 1) (cosineSimilarity v center)).max (.num 0)
    Format.binary64.mul d d
  | .euclideanSquared => euclideanSquared v center

/-- The first position at which the running sum reaches `r`, or the last one. -/
def pickWeighted (r : Fp) : (acc : Fp) → (i : Nat) → List Fp → Nat
  | _, i, [] => i - 1
  | acc, i, d :: ds =>
    let acc := Format.binary64.add acc d
    if r.le acc then i else pickWeighted r acc (i + 1) ds

def pickCenter (pairs : List (String × Vec)) (metric : DistanceMetric)
    (state : UInt64 × List Vec) : UInt64 × List Vec :=
  let (rng, centroids) := state
  let distSq := pairs.map fun p =>
    centroids.foldl (fun m c => m.min (pointDistSq p.2 c metric)) (.inf false)
  let total := distSq.foldl Format.binary64.add (.num 0)
  let (rng, pick) :=
    if total.le f64Epsilon then (rng, centroids.length % pairs.length)
    else
      let (rng, unit) := XorShift64.unitInterval rng
      (rng, pickWeighted (Format.binary64.mul unit total) (.num 0) 0 distSq)
  (rng, centroids ++ [(pairs[pick]?.map Prod.snd).getD []])

def kmeansPlusPlusInit (pairs : List (String × Vec)) (k : Nat) (metric : DistanceMetric) :
    List Vec :=
  let (rng, first) := XorShift64.index (XorShift64.seed pairs.length k pairs) pairs.length
  let start := (rng, [(pairs[first]?.map Prod.snd).getD []])
  ((pickCenter pairs metric)^[k - 1] start).2

/-- Add a vector to the sum and the count of its nearest centroid.  The source
indexes the vector by dimension; all vectors of an index have the same. -/
def accumulate (metric : DistanceMetric) (centroids : List Vec) (sums : List (Vec × Nat))
    (v : Vec) : List (Vec × Nat) :=
  sums.modify (nearestCentroidId scoreVector v centroids metric) fun s =>
    (List.zipWith Format.binary64.add s.1 v, s.2 + 1)

/-- One round: every centroid with vectors moves to their mean. -/
def lloydRound (pairs : List (String × Vec)) (dim : Nat) (metric : DistanceMetric)
    (centroids : List Vec) : List Vec :=
  let sums := pairs.foldl (fun acc p => accumulate metric centroids acc p.2)
    (centroids.map fun _ => (List.replicate dim (.num 0), 0))
  List.zipWith
    (fun c s =>
      if s.2 > 0 then
        let inv := Format.binary64.div (.num 1) (.num s.2)
        s.1.map fun x => Format.binary64.mul x inv
      else c)
    centroids sums

def kmeansCentroids (pairs : List (String × Vec)) (k dim : Nat) (metric : DistanceMetric) :
    List Vec :=
  if pairs.isEmpty then []
  else if k ≥ pairs.length then pairs.map Prod.snd
  else (lloydRound pairs dim metric)^[kmeansIters] (kmeansPlusPlusInit pairs k metric)

/-! ## What the index relies on -/

/-- Scores of vectors and a choice of centroids. -/
structure Quantizer where
  scoreVector : Vec → Vec → DistanceMetric → Fp
  kmeansCentroids : List (String × Vec) → Nat → Nat → DistanceMetric → List Vec
  length_kmeansCentroids : ∀ pairs k dim metric, 0 < k →
    (kmeansCentroids pairs k dim metric).length = min k pairs.length

theorem length_kmeansPlusPlusInit (pairs : List (String × Vec)) {k : Nat} (hk : 0 < k)
    (metric : DistanceMetric) : (kmeansPlusPlusInit pairs k metric).length = k := by
  have hiter : ∀ n state, ((pickCenter pairs metric)^[n] state).2.length
      = state.2.length + n := by
    intro n
    induction n with
    | zero => exact fun _ => rfl
    | succ n ih =>
      intro state
      rw [Function.iterate_succ_apply, ih]
      simp only [pickCenter, length_append, length_singleton]
      omega
  simp only [kmeansPlusPlusInit, hiter, length_singleton]
  omega

theorem length_lloydRound (pairs : List (String × Vec)) (dim : Nat) (metric : DistanceMetric)
    (centroids : List Vec) :
    (lloydRound pairs dim metric centroids).length = centroids.length := by
  have hsums : ∀ sums : List (Vec × Nat),
      (pairs.foldl (fun acc p => accumulate metric centroids acc p.2) sums).length
        = sums.length := by
    induction pairs with
    | nil => exact fun _ => rfl
    | cons p pairs ih =>
      intro sums
      rw [foldl_cons, ih, accumulate, length_modify]
  rw [lloydRound, length_zipWith, hsums, length_map, min_self]

theorem length_kmeansCentroids (pairs : List (String × Vec)) (k dim : Nat)
    (metric : DistanceMetric) (hk : 0 < k) :
    (kmeansCentroids pairs k dim metric).length = min k pairs.length := by
  have hiter : ∀ n centroids, ((lloydRound pairs dim metric)^[n] centroids).length
      = centroids.length := by
    intro n
    induction n with
    | zero => exact fun _ => rfl
    | succ n ih =>
      intro centroids
      rw [Function.iterate_succ_apply, ih, length_lloydRound]
  rw [kmeansCentroids]
  split
  · rename_i hempty
    simp [isEmpty_iff.mp hempty]
  · split
    · rename_i hge
      rw [length_map, Nat.min_eq_right hge]
    · rw [hiter, length_kmeansPlusPlusInit pairs hk]
      omega

/-- The scores and centroids of the source. -/
def quantizer : Quantizer where
  scoreVector := scoreVector
  kmeansCentroids := kmeansCentroids
  length_kmeansCentroids := length_kmeansCentroids

/-! ## Positions -/

theorem nearestCentroidId_lt (scoreFn : Vec → Vec → DistanceMetric → Fp) (v : Vec)
    {centroids : List Vec} (h : centroids ≠ []) (metric : DistanceMetric) :
    nearestCentroidId scoreFn v centroids metric < centroids.length := by
  have hfold : ∀ (l : List (Vec × Nat)) (best : Nat × Fp), best.1 < centroids.length →
      (∀ c ∈ l, c.2 < centroids.length) →
      (l.foldl (fun (best : Nat × Fp) (c : Vec × Nat) =>
        if best.2.lt (scoreFn v c.1 metric) then (c.2, scoreFn v c.1 metric) else best)
        best).1 < centroids.length := by
    intro l
    induction l with
    | nil => exact fun _ hbest _ => hbest
    | cons c l ih =>
      intro best hbest hl
      rw [foldl_cons]
      refine ih _ ?_ fun d hd => hl d (mem_cons_of_mem c hd)
      split
      · exact hl c mem_cons_self
      · exact hbest
  refine hfold _ _ (length_pos_iff.mpr h) ?_
  rintro ⟨c, i⟩ hc
  exact (List.getElem?_eq_some_iff.mp (mk_mem_zipIdx_iff_getElem?.mp hc)).choose

theorem mem_topMCentroids_lt {scoreFn : Vec → Vec → DistanceMetric → Fp} {centroids : List Vec}
    {query : Vec} {metric : DistanceMetric} {m i : Nat}
    (h : i ∈ topMCentroids scoreFn centroids query metric m) : i < centroids.length := by
  obtain ⟨r, hr, rfl⟩ := mem_map.mp h
  have hsorted := mem_of_mem_take hr
  rw [sortRanked, mem_insertionSort] at hsorted
  obtain ⟨⟨c, j⟩, hc, rfl⟩ := mem_map.mp hsorted
  exact (List.getElem?_eq_some_iff.mp (mk_mem_zipIdx_iff_getElem?.mp hc)).choose

end OpenPuffer
