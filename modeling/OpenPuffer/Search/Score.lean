import OpenPuffer.Lib.Arithmetic
import OpenPuffer.Search.Bm25
import OpenPuffer.Search.Probed

/-!
# Scores of candidates

A vector or BM25 ranker gives each candidate its raw score.  A sum or a product first maps the
raw scores of each part to the interval from 0 to 1, by the least and the greatest one.  A sum
keeps a candidate if the combined score is positive or one of its raw scores is; a product keeps
it if the combined score is positive.  So a sum of one part drops the candidate with the least
raw score unless that is positive (`sum_of_one_vector_iff`).

Scores are computed in an `Arithmetic`.  BM25 scores come from an ordered field.
-/

namespace OpenPuffer

open List Extended Arithmetic

/-- What a query takes from the process: iteration orders, libraries, the arithmetic
of its scores and the environment. -/
structure SearchEnv (R S : Type) where
  order : IterOrder String
  clusterOrder : IterOrder Nat
  text : TextEnv
  /-- `char::is_whitespace`. -/
  isWhitespace : Char → Bool
  ln : R → R
  ofBm25 : R → S
  /-- The scores of the vector indexes. -/
  scores : Scorer
  arith : Arithmetic S
  scoreVector : Vec → Vec → DistanceMetric → S
  scoreVectorF32 : Vec → Vec → DistanceMetric → S
  /-- `OPENPUFFER_ANN_RERANK` is set. -/
  annRerankFromEnv : Bool := false

section Raw

variable {R S : Type} [Field R] [LinearOrder R] (env : SearchEnv R S)

/-! ## Raw scores -/

/-- BM25 of a text without a segment, with its number of words as average length. -/
def bm25ScoreLegacy (document query : List Char) : R :=
  let words := ((document.splitOnP env.isWhitespace).filter fun word => !word.isEmpty).length
  bm25DocScore env.ln env.text document query ((max words 1 : Nat) : R) 1

def bm25RawScore (ctx : QueryContext) (doc : Document) (field query : String) : S :=
  let text := extractIndexText env.text doc field
  env.ofBm25 <|
    match ctx.fts with
    | some fts => bm25DocScore env.ln env.text text query.toList fts.avgDocLen (max fts.numDocs 1)
    | none => bm25ScoreLegacy env text query.toList

/-- The score of the vector of a document, `-∞` if it has none of the length of the
query. -/
def vectorRawScore (metric : DistanceMetric) (doc : Document) (field : String) (query : Vec) : S :=
  match extractVector doc.attributes field with
  | .error _ => env.arith.inf true
  | .ok v =>
    if v.length = query.length then env.scoreVector query v metric else env.arith.inf true

def VectorIndex.scoreDocId (idx : VectorIndex) (docId : String) (query : Vec) : Option S :=
  if query.length ≠ idx.l0.dimensions then none
  else
    let members := (idx.clusters.iter env.clusterOrder).flatMap fun e => e.2.members
    (members.find? fun m => m.docId = docId).map fun m =>
      match idx.l0.vectorElement with
      | .f32 => env.scoreVector query m.vector idx.l0.distanceMetric
      | .f16 =>
        let queryF32 := (query.take idx.l0.dimensions).map Format.binary32.convert
        env.scoreVectorF32 queryF32 (m.asF32Slice idx.l0.dimensions) idx.l0.distanceMetric

end Raw

/-! ## Composite scores -/

section Composite

variable {S : Type} (a : Arithmetic S)

/-- The literal `1e-12`. -/
def tiny : Rat := mkRat 1 (10 ^ 12)

/-- Map a score to the interval from 0 to 1. -/
def normScore (low high score : S) : S :=
  if ! a.isFinite score then a.ofRat 0
  else if a.lt (a.abs (a.sub high low)) (a.ofRat tiny) then
    if a.lt (a.ofRat 0) score then a.ofRat 1 else a.ofRat 0
  else
    let span := a.max (a.sub high low) (a.ofRat tiny)
    a.clamp (a.div (a.sub score low) span) (a.ofRat 0) (a.ofRat 1)

def minMaxNormalize (scored : List (String × S)) : HashMap String S :=
  let finite := (scored.map Prod.snd).filter a.isFinite
  let low := finite.foldl a.min (a.inf false)
  let high := finite.foldl a.max (a.inf true)
  scored.foldl (fun out e => out.insert e.1 (normScore a low high e.2)) ∅

def anyPositiveRaw (signals : List (List (String × S))) : Finset String :=
  ((signals.flatten.filter fun e => a.isFinite e.2 && a.lt (a.ofRat 0) e.2).map
    Prod.fst).toFinset

/-- Combine the raw scores of the parts of a sum or a product. -/
def scoreComposite (order : IterOrder String) (signals : List (List (String × S)))
    (candidates : Finset String) (sum : Bool) : List (String × S) :=
  let perSignal := signals.map (minMaxNormalize a)
  (order.toList candidates).filterMap fun id =>
    let parts := perSignal.map fun norm => (norm.lookup id).getD (a.ofRat 0)
    let score := if sum then a.sum parts else a.product parts
    let keep :=
      if sum then
        a.isFinite score && (a.lt (a.ofRat 0) score || id ∈ anyPositiveRaw a signals)
      else a.isFinite score && a.lt (a.ofRat 0) score
    if keep then some (id, a.max score (a.ofRat 0)) else none

end Composite

section Candidates

variable {R S : Type} [Field R] [LinearOrder R] (env : SearchEnv R S) (metric : DistanceMetric)
  (ctx : QueryContext)

mutual

def scoreCandidates (candidates : Finset String) : Ranker → List (String × S)
  | .bm25 field query =>
    (env.order.toList candidates).filterMap fun id =>
      (ctx.docs.get id).map fun doc => (id, bm25RawScore env ctx doc field query)
  | .vector field query =>
    (env.order.toList candidates).filterMap fun id =>
      match ctx.docs.get id with
      | some doc => some (id, vectorRawScore env metric doc field query)
      | none =>
        (ctx.vectors.lookup field).bind fun vindex =>
          (vindex.scoreDocId env id query).map fun score => (id, score)
  | .sum subs => scoreComposite env.arith env.order (scoreSubs candidates subs) candidates true
  | .product subs =>
    scoreComposite env.arith env.order (scoreSubs candidates subs) candidates false

def scoreSubs (candidates : Finset String) : List Ranker → List (List (String × S))
  | [] => []
  | sub :: subs => scoreCandidates candidates sub :: scoreSubs candidates subs

end

end Candidates

/-! ## A sum of one vector ranker -/

/-- Scores of ids, in the order of the ids. -/
theorem nodup_filterMap_fst {S : Type} {ids : List String} (h : ids.Nodup)
    {f : String → Option (String × S)} (hf : ∀ id e, f id = some e → e.1 = id) :
    ((ids.filterMap f).map Prod.fst).Nodup := by
  have hsub : ((ids.filterMap f).map Prod.fst).Sublist ids := by
    clear h
    induction ids with
    | nil => exact nil_sublist _
    | cons id ids ih =>
      rw [filterMap_cons]
      cases he : f id with
      | none => exact ih.cons _
      | some e =>
        rw [map_cons, hf id e he]
        exact ih.cons_cons _
  exact hsub.nodup h

section SumOfOne

variable {R₀ R : Type} [Field R₀] [LinearOrder R₀] [Field R] [LinearOrder R]

/-- The highest and the lowest score differ by at least `1e-12`. -/
def Spread (raw : List (String × Extended R)) : Prop :=
  ∃ i j x y, (i, Extended.num x) ∈ raw ∧ (j, Extended.num y) ∈ raw ∧ (tiny : R) ≤ x - y

/-- Ids that occur in both lists compare in the same way. -/
def SameOrder (raw composite : List (String × Extended R)) : Prop :=
  ∀ i j x y x' y', (i, x) ∈ raw → (j, y) ∈ raw → (i, x') ∈ composite → (j, y') ∈ composite →
    x'.partialCmp y' = x.partialCmp y

def unitScore (low high x : R) : R :=
  if high - low < (tiny : R) then if 0 < x then 1 else 0 else (x - low) / (high - low)

variable [IsStrictOrderedRing R]

theorem tiny_pos : (0 : R) < (tiny : R) := by
  rw [Rat.cast_pos]
  decide +kernel

variable {low high : R} {pairs : List (String × R)} {id : String}

theorem normScore_num {x : R} (hlow : low ≤ x) (hhigh : x ≤ high) :
    normScore (.exact R) (.num low) (.num high) (.num x) = .num (unitScore low high x) := by
  have hspan : 0 ≤ high - low := sub_nonneg.mpr (hlow.trans hhigh)
  have hlit (q : Rat) : (exact R).ofRat q = .num q := rfl
  have hfinite : (exact R).isFinite (.num x) = true := rfl
  simp only [normScore, hlit, hfinite, exact_sub_num, exact_abs_num hspan,
    exact_lt_num, Rat.cast_zero, Rat.cast_one, unitScore, Bool.not_true,
    Bool.false_eq_true, if_false, decide_eq_true_eq]
  by_cases hclose : high - low < (tiny : R)
  · rw [if_pos hclose]
    split
    · rfl
    · rfl
  · have hpos : 0 < high - low := tiny_pos.trans_le (not_lt.mp hclose)
    rw [if_neg hclose, if_neg hclose, exact_max_num, max_eq_left (not_lt.mp hclose),
      exact_div_num _ hpos.ne']
    refine exact_clamp_num (div_nonneg (sub_nonneg.mpr hlow) hpos.le) ?_
    rw [div_le_one hpos]
    exact sub_le_sub_right hhigh low

theorem unitScore_nonneg {x : R} (hlow : low ≤ x) (hhigh : x ≤ high) :
    0 ≤ unitScore low high x := by
  rw [unitScore]
  split
  · split
    · exact zero_le_one
    · exact le_refl 0
  · exact div_nonneg (sub_nonneg.mpr hlow) (sub_nonneg.mpr (hlow.trans hhigh))

omit [IsStrictOrderedRing R] in
/-- The lowest score is only kept if it is positive. -/
theorem unitScore_low_pos (h : 0 < unitScore low high low) : 0 < low := by
  rw [unitScore] at h
  split at h
  · split at h
    · assumption
    · exact absurd h (lt_irrefl 0)
  · rw [sub_self, zero_div] at h
    exact absurd h (lt_irrefl 0)

def numScores (pairs : List (String × R)) : List (String × Extended R) :=
  pairs.map fun p => (p.1, .num p.2)

omit [Field R] [LinearOrder R] [IsStrictOrderedRing R] in
theorem exists_numScores {raw : List (String × Extended R)}
    (h : ∀ e ∈ raw, e.2.isFinite = true) : ∃ pairs, raw = numScores pairs := by
  induction raw with
  | nil => exact ⟨[], rfl⟩
  | cons e raw ih =>
    obtain ⟨pairs, rfl⟩ := ih fun e he => h e (mem_cons_of_mem _ he)
    obtain ⟨x, hx⟩ := exists_of_isFinite (h e mem_cons_self)
    refine ⟨(e.1, x) :: pairs, ?_⟩
    rw [numScores, numScores, map_cons, ← hx]

omit [Field R] [LinearOrder R] [IsStrictOrderedRing R] in
theorem mem_numScores {x : Extended R} :
    (id, x) ∈ numScores pairs ↔ ∃ y, x = .num y ∧ (id, y) ∈ pairs := by
  rw [numScores, mem_map]
  constructor
  · rintro ⟨p, hp, heq⟩
    cases heq
    exact ⟨p.2, rfl, hp⟩
  · rintro ⟨y, rfl, hp⟩
    exact ⟨(id, y), hp, rfl⟩

omit [Field R] [LinearOrder R] [IsStrictOrderedRing R] in
theorem map_fst_numScores (pairs : List (String × R)) :
    (numScores pairs).map Prod.fst = pairs.map Prod.fst := by
  rw [numScores, map_map]
  rfl

/-- The bounds that normalization finds, and what it makes of the scores. -/
theorem exists_minMaxNormalize (hids : (pairs.map Prod.fst).Nodup) :
    ∃ low high, (pairs = [] ∨ ∃ i, (i, low) ∈ pairs) ∧ (∀ p ∈ pairs, low ≤ p.2 ∧ p.2 ≤ high) ∧
      ∀ p ∈ pairs, (minMaxNormalize (.exact R) (numScores pairs)).lookup p.1
        = some (.num (unitScore low high p.2)) := by
  rcases eq_or_ne pairs [] with rfl | hne
  · exact ⟨0, 0, .inl rfl, by simp, by simp⟩
  have hfinite : ((numScores pairs).map Prod.snd).filter (exact R).isFinite
      = (pairs.map Prod.snd).map num := by
    rw [filter_eq_self.mpr, numScores, map_map, map_map]
    · rfl
    · intro x hx
      obtain ⟨e, he, rfl⟩ := mem_map.mp hx
      obtain ⟨y, hy, -⟩ := mem_numScores.mp he
      rw [hy]
      rfl
  have hsome : pairs.map Prod.snd ≠ [] := fun h => hne (map_eq_nil_iff.mp h)
  obtain ⟨low, hmem, hlow, hle⟩ := exists_foldl_min hsome
  obtain ⟨high, -, hhigh, hge⟩ := exists_foldl_max hsome
  have hbounds : ∀ p ∈ pairs, low ≤ p.2 ∧ p.2 ≤ high := fun p hp =>
    ⟨hle _ (mem_map_of_mem hp), hge _ (mem_map_of_mem hp)⟩
  refine ⟨low, high, ?_, hbounds, fun p hp => ?_⟩
  · obtain ⟨p, hp, rfl⟩ := mem_map.mp hmem
    exact .inr ⟨p.1, hp⟩
  · have hmap : minMaxNormalize (.exact R) (numScores pairs) = HashMap.insertAll
        (numScores (pairs.map fun p => (p.1, unitScore low high p.2))) ∅ := by
      have hlow' : ((pairs.map Prod.snd).map num).foldl (exact R).min
          ((exact R).inf false) = .num low := hlow
      have hhigh' : ((pairs.map Prod.snd).map num).foldl (exact R).max
          ((exact R).inf true) = .num high := hhigh
      simp only [minMaxNormalize, hfinite, hlow', hhigh']
      simp only [HashMap.insertAll, numScores, foldl_map]
      refine foldl_ext _ _ _ fun out p hp => ?_
      rw [normScore_num (hbounds p hp).1 (hbounds p hp).2]
    rw [hmap]
    refine HashMap.lookup_insertAll_of_mem ?_ ?_ ∅
    · rw [map_fst_numScores, map_map]
      exact hids
    · exact mem_numScores.mpr ⟨_, rfl, mem_map.mpr ⟨p, hp, rfl⟩⟩

theorem lookup_minMaxNormalize_of_notMem {S : Type} (a : Arithmetic S)
    {scored : List (String × S)} (h : id ∉ scored.map Prod.fst) :
    (minMaxNormalize a scored).lookup id = none := by
  simp only [minMaxNormalize]
  generalize ((scored.map Prod.snd).filter a.isFinite).foldl a.min (a.inf false) = low
  generalize ((scored.map Prod.snd).filter a.isFinite).foldl a.max (a.inf true) = high
  have hmap : scored.foldl (fun out e => out.insert e.1 (normScore a low high e.2)) ∅
      = HashMap.insertAll (scored.map fun e => (e.1, normScore a low high e.2)) ∅ := by
    rw [HashMap.insertAll, foldl_map]
  rw [hmap, HashMap.lookup_insertAll_of_notMem, Finmap.lookup_empty]
  rw [map_map]
  exact h

omit [IsStrictOrderedRing R] in
theorem mem_anyPositiveRaw :
    id ∈ anyPositiveRaw (.exact R) [numScores pairs] ↔ ∃ x, (id, x) ∈ pairs ∧ 0 < x := by
  have hpos (x : R) : ((exact R).isFinite (.num x) && (exact R).lt
      ((exact R).ofRat 0) (.num x)) = true ↔ 0 < x := by
    rw [exact_ofRat_zero, exact_lt_num]
    exact decide_eq_true_iff
  rw [anyPositiveRaw, mem_toFinset, mem_map, flatten_singleton]
  constructor
  · rintro ⟨e, he, rfl⟩
    obtain ⟨hmem, hx⟩ := mem_filter.mp he
    obtain ⟨x, heq, hmem⟩ := mem_numScores.mp hmem
    rw [heq] at hx
    exact ⟨x, hmem, (hpos x).mp hx⟩
  · rintro ⟨x, hmem, hx⟩
    exact ⟨(id, .num x), mem_filter.mpr ⟨mem_numScores.mpr ⟨x, rfl, hmem⟩, (hpos x).mpr hx⟩,
      rfl⟩

/-- What a sum of one signal keeps: a score above the lowest one, or a positive one. -/
theorem mem_scoreComposite_one (order : IterOrder String) (hids : (pairs.map Prod.fst).Nodup)
    {candidates : Finset String} (hsub : ∀ p ∈ pairs, p.1 ∈ candidates)
    (hbounds : ∀ p ∈ pairs, low ≤ p.2 ∧ p.2 ≤ high)
    (hnorm : ∀ p ∈ pairs, (minMaxNormalize (.exact R) (numScores pairs)).lookup p.1
      = some (.num (unitScore low high p.2))) (id : String) (s : Extended R) :
    (id, s) ∈ scoreComposite (.exact R) order [numScores pairs] candidates true ↔
      ∃ x, (id, x) ∈ pairs ∧ (0 < unitScore low high x ∨ 0 < x) ∧
        s = .num (unitScore low high x) := by
  have hzero := Extended.exact_ofRat_zero (R := R)
  have hsum (x : R) : (Arithmetic.exact R).sum [.num x] = .num x := by
    rw [Arithmetic.sum, foldl_cons, foldl_nil, hzero, Extended.exact_add_num, zero_add]
  have hfinite (x : R) : (Arithmetic.exact R).isFinite (.num x) = true := rfl
  have hunique : ∀ x y, (id, x) ∈ pairs → (id, y) ∈ pairs → x = y := fun x y hx hy =>
    congrArg Prod.snd (inj_on_of_nodup_map hids hx hy rfl)
  simp only [scoreComposite, map_cons, map_nil, mem_filterMap, order.mem_toList,
    if_true, Option.ite_none_right_eq_some, Option.some.injEq, Prod.mk.injEq]
  by_cases hin : id ∈ pairs.map Prod.fst
  · obtain ⟨⟨_, x⟩, hx, rfl⟩ := mem_map.mp hin
    have hnonneg := unitScore_nonneg (hbounds _ hx).1 (hbounds _ hx).2
    constructor
    · rintro ⟨k, -, hkeep, rfl, rfl⟩
      rw [hnorm _ hx, Option.getD_some, hsum, hzero, Extended.exact_lt_num, hfinite,
        Bool.true_and, Bool.or_eq_true, decide_eq_true_eq, decide_eq_true_eq,
        mem_anyPositiveRaw] at hkeep
      rw [hnorm _ hx, Option.getD_some, hsum, hzero, Extended.exact_max_num,
        max_eq_left hnonneg]
      refine ⟨x, hx, hkeep.imp_right ?_, rfl⟩
      rintro ⟨y, hy, hpos⟩
      exact hunique y x hy hx ▸ hpos
    · rintro ⟨y, hy, hkeep, rfl⟩
      obtain rfl := hunique y x hy hx
      refine ⟨_, hsub _ hx, ?_, rfl, ?_⟩
      · rw [hnorm _ hx, Option.getD_some, hsum, hzero, Extended.exact_lt_num, hfinite,
          Bool.true_and, Bool.or_eq_true, decide_eq_true_eq, decide_eq_true_eq,
          mem_anyPositiveRaw]
        exact hkeep.imp_right fun hpos => ⟨_, hx, hpos⟩
      · rw [hnorm _ hx, Option.getD_some, hsum, hzero, Extended.exact_max_num,
          max_eq_left hnonneg]
  · have hnone : (minMaxNormalize (.exact R) (numScores pairs)).lookup id = none := by
      refine lookup_minMaxNormalize_of_notMem _ ?_
      rwa [map_fst_numScores]
    constructor
    · rintro ⟨k, -, hkeep, rfl, -⟩
      rw [hnone, Option.getD_none, hzero, hsum, Extended.exact_lt_num, hfinite, Bool.true_and,
        Bool.or_eq_true, decide_eq_true_eq, decide_eq_true_eq, mem_anyPositiveRaw] at hkeep
      rcases hkeep with hpos | ⟨x, hx, -⟩
      · exact absurd hpos (lt_irrefl 0)
      · exact absurd (mem_map_of_mem hx) hin
    · rintro ⟨x, hx, -⟩
      exact absurd (mem_map_of_mem hx) hin

theorem compare_unitScore {x y : R} (h : ¬high - low < (tiny : R)) :
    compare (unitScore low high x) (unitScore low high y) = compare x y := by
  have hpos : 0 < high - low := tiny_pos.trans_le (not_lt.mp h)
  rw [unitScore, if_neg h, unitScore, if_neg h]
  rcases lt_trichotomy x y with hlt | rfl | hgt
  · rw [compare_lt_iff_lt.mpr hlt, compare_lt_iff_lt, div_lt_div_iff_of_pos_right hpos]
    exact sub_lt_sub_right hlt low
  · rw [compare_eq_iff_eq.mpr rfl, compare_eq_iff_eq.mpr rfl]
  · rw [compare_gt_iff_gt.mpr hgt, compare_gt_iff_gt, div_lt_div_iff_of_pos_right hpos]
    exact sub_lt_sub_right hgt low

variable (env : SearchEnv R₀ (Extended R)) (metric : DistanceMetric) (ctx : QueryContext)
  (field : String) (query : Vec) (candidates : Finset String)

omit [LinearOrder R] [Field R] [IsStrictOrderedRing R] in
/-- A vector ranker scores candidates, each of them once. -/
theorem scoreCandidates_vector_ids :
    ((scoreCandidates env metric ctx candidates (.vector field query)).map Prod.fst).Nodup ∧
      ∀ e ∈ scoreCandidates env metric ctx candidates (.vector field query),
        e.1 ∈ candidates := by
  have hfst : ∀ id e, (match ctx.docs.get id with
      | some doc => some (id, vectorRawScore env metric doc field query)
      | none => (ctx.vectors.lookup field).bind fun vindex =>
        (vindex.scoreDocId env id query).map fun score => (id, score)) = some e → e.1 = id := by
    intro id e he
    cases hdoc : ctx.docs.get id with
    | some doc =>
      rw [hdoc] at he
      cases he
      rfl
    | none =>
      rw [hdoc] at he
      obtain ⟨vindex, -, he⟩ := Option.bind_eq_some_iff.mp he
      obtain ⟨score, -, rfl⟩ := Option.map_eq_some_iff.mp he
      rfl
  rw [scoreCandidates]
  refine ⟨nodup_filterMap_fst (env.order.nodup candidates) hfst, fun e he => ?_⟩
  obtain ⟨id, hid, he⟩ := mem_filterMap.mp he
  rw [hfst id e he]
  exact (env.order.mem_toList _ _).mp hid

/-- A sum of one vector ranker keeps the candidates of the ranker, in the same order,
if and only if all raw scores are positive. -/
theorem sum_of_one_vector_iff (harith : env.arith = .exact R)
    (hfinite : ∀ e ∈ scoreCandidates env metric ctx candidates (.vector field query),
      e.2.isFinite = true) :
    ((∀ id, id ∈ (scoreCandidates env metric ctx candidates
          (.sum [.vector field query])).map Prod.fst ↔
        id ∈ (scoreCandidates env metric ctx candidates (.vector field query)).map Prod.fst) ∧
      (Spread (scoreCandidates env metric ctx candidates (.vector field query)) →
        SameOrder (scoreCandidates env metric ctx candidates (.vector field query))
          (scoreCandidates env metric ctx candidates (.sum [.vector field query])))) ↔
      ∀ id x, (id, .num x) ∈ scoreCandidates env metric ctx candidates (.vector field query) →
        0 < x := by
  obtain ⟨hids, hsub⟩ := scoreCandidates_vector_ids env metric ctx field query candidates
  have hsum : scoreCandidates env metric ctx candidates (.sum [.vector field query])
      = scoreComposite (.exact R) env.order
        [scoreCandidates env metric ctx candidates (.vector field query)] candidates true := by
    simp only [scoreCandidates, scoreSubs, harith]
  rw [hsum]
  obtain ⟨pairs, hpairs⟩ := exists_numScores hfinite
  rw [hpairs] at hids hsub ⊢
  rw [map_fst_numScores] at hids
  have hsub' : ∀ p ∈ pairs, p.1 ∈ candidates := fun p hp =>
    hsub _ (mem_numScores.mpr ⟨p.2, rfl, hp⟩)
  rw [map_fst_numScores]
  obtain ⟨low, high, hlow, hbounds, hnorm⟩ := exists_minMaxNormalize hids
  have hmem := mem_scoreComposite_one env.order hids hsub' hbounds hnorm
  constructor
  · rintro ⟨hsame, -⟩ id x hx
    obtain ⟨y, hy, hx⟩ := mem_numScores.mp hx
    cases hy
    rcases hlow with rfl | ⟨i, hi⟩
    · cases hx
    · obtain ⟨⟨_, s⟩, hs, rfl⟩ := mem_map.mp ((hsame i).mpr (mem_map_of_mem hi))
      obtain ⟨y, hy, hkeep, -⟩ := (hmem _ _).mp hs
      obtain rfl : y = low := congrArg Prod.snd (inj_on_of_nodup_map hids hy hi rfl)
      exact (hkeep.elim unitScore_low_pos fun hlow => hlow).trans_le (hbounds _ hx).1
  · intro hpos
    refine ⟨fun id => ?_, fun hspread => ?_⟩
    · constructor
      · intro hid
        obtain ⟨⟨_, s⟩, hs, rfl⟩ := mem_map.mp hid
        obtain ⟨x, hx, -⟩ := (hmem _ _).mp hs
        exact mem_map_of_mem hx
      · intro hid
        obtain ⟨⟨_, x⟩, hx, rfl⟩ := mem_map.mp hid
        have hx0 := hpos _ x (mem_numScores.mpr ⟨x, rfl, hx⟩)
        exact mem_map_of_mem ((hmem _ _).mpr ⟨x, hx, .inr hx0, rfl⟩)
    · have hwide : ¬high - low < (tiny : R) := by
        obtain ⟨i, j, x, y, hx, hy, hdiff⟩ := hspread
        obtain ⟨_, heq, hx⟩ := mem_numScores.mp hx
        cases heq
        obtain ⟨_, heq, hy⟩ := mem_numScores.mp hy
        cases heq
        exact not_lt.mpr (hdiff.trans (sub_le_sub (hbounds _ hx).2 (hbounds _ hy).1))
      intro i j x y x' y' hx hy hx' hy'
      obtain ⟨x, rfl, hxp⟩ := mem_numScores.mp hx
      obtain ⟨y, rfl, hyp⟩ := mem_numScores.mp hy
      obtain ⟨z, hz, -, rfl⟩ := (hmem _ _).mp hx'
      obtain rfl : z = x := congrArg Prod.snd (inj_on_of_nodup_map hids hz hxp rfl)
      obtain ⟨w, hw, -, rfl⟩ := (hmem _ _).mp hy'
      obtain rfl : w = y := congrArg Prod.snd (inj_on_of_nodup_map hids hw hyp rfl)
      exact congrArg some (compare_unitScore hwide)

end SumOfOne

/-! ## Scores without rounding -/

section Exact

variable {R : Type} [Field R] [LinearOrder R] (sqrt : R → R)

def exactCosine (a b : Vec) : R :=
  if a.length ≠ b.length ∨ a = [] then 0
  else
    let (dot, na, nb) := (a.zip b).foldl
      (fun (dot, na, nb) (x, y) =>
        (dot + x.val * y.val, na + x.val * x.val, nb + y.val * y.val)) ((0, 0, 0) : R × R × R)
    if na = 0 ∨ nb = 0 then 0 else dot / (sqrt na * sqrt nb)

/-- The score of a candidate with finite components. -/
def exactScore (query candidate : Vec) : DistanceMetric → Extended R
  | .cosineDistance => .num (exactCosine sqrt query candidate)
  | .euclideanSquared =>
    if query.length ≠ candidate.length then .inf true
    else
      .num (-(List.zipWith (fun x y => ((x.val - y.val : Rat) : R) * ((x.val - y.val : Rat) : R))
        query candidate).sum)

end Exact

/-- The root of a square. -/
def ratSqrt (q : Rat) : Rat := mkRat (Nat.sqrt q.num.natAbs) (Nat.sqrt q.den)

def exactEnv : SearchEnv Rat (Extended Rat) where
  order := .sorted String
  clusterOrder := .sorted Nat
  text := asciiEnv
  isWhitespace := Char.isWhitespace
  ln := subOne
  ofBm25 := .num
  scores := scorer
  arith := .exact Rat
  scoreVector := exactScore ratSqrt
  scoreVectorF32 := exactScore ratSqrt

/-- Two documents with vectors of length 5. -/
def slopes : QueryContext where
  docs :=
    ((∅ : DocMap).insert "flat"
      ((∅ : Attributes).insert "emb" (.arr [.num (.posInt 4), .num (.posInt 3)]))).insert "steep"
      ((∅ : Attributes).insert "emb" (.arr [.num (.posInt 3), .num (.posInt 4)]))

/-- Both cosines are positive, so the sum agrees with its part. -/
theorem sum_keeps_slopes :
    (∀ id, id ∈ (scoreCandidates exactEnv .cosineDistance slopes {"flat", "steep"}
          (.sum [.vector "emb" [.num 1, .num 0]])).map Prod.fst ↔
        id ∈ (scoreCandidates exactEnv .cosineDistance slopes {"flat", "steep"}
          (.vector "emb" [.num 1, .num 0])).map Prod.fst) ∧
      (Spread (scoreCandidates exactEnv .cosineDistance slopes {"flat", "steep"}
          (.vector "emb" [.num 1, .num 0])) →
        SameOrder (scoreCandidates exactEnv .cosineDistance slopes {"flat", "steep"}
            (.vector "emb" [.num 1, .num 0]))
          (scoreCandidates exactEnv .cosineDistance slopes {"flat", "steep"}
            (.sum [.vector "emb" [.num 1, .num 0]]))) := by
  have hraw : scoreCandidates exactEnv .cosineDistance slopes {"flat", "steep"}
      (.vector "emb" [.num 1, .num 0])
      = [("flat", .num (mkRat 4 5)), ("steep", .num (mkRat 3 5))] := by
    decide +kernel
  refine (sum_of_one_vector_iff exactEnv .cosineDistance slopes "emb" [.num 1, .num 0]
    {"flat", "steep"} rfl ?_).mpr ?_
  · rw [hraw]
    decide +kernel
  · rw [hraw]
    intro id x hx
    rcases mem_cons.mp hx with heq | hx
    · cases heq
      decide +kernel
    · cases mem_singleton.mp hx
      decide +kernel

/-- By distance from the first one, the second document has the least score and is
dropped from the sum. -/
theorem sum_drops_farthest :
    scoreCandidates exactEnv .euclideanSquared slopes {"flat", "steep"}
        (.vector "emb" [.num 4, .num 3]) = [("flat", .num 0), ("steep", .num (-2))] ∧
      scoreCandidates exactEnv .euclideanSquared slopes {"flat", "steep"}
        (.sum [.vector "emb" [.num 4, .num 3]]) = [("flat", .num 1)] ∧
      scoreCandidates exactEnv .cosineDistance slopes {"flat", "steep"}
        (.vector "emb" [.num 0, .num (-1)])
        = [("flat", .num (mkRat (-3) 5)), ("steep", .num (mkRat (-4) 5))] ∧
      scoreCandidates exactEnv .cosineDistance slopes {"flat", "steep"}
        (.sum [.vector "emb" [.num 0, .num (-1)]]) = [("flat", .num 1)] := by
  refine ⟨?_, ?_, ?_, ?_⟩
  · decide +kernel
  · decide +kernel
  · decide +kernel
  · decide +kernel

end OpenPuffer
