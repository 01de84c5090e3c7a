import OpenPuffer.Index.Fts

/-!
# BM25

A full-text segment finds the documents that have a term of the query and scores them.  A
document that is not in the segment is scored from its text alone.

The source computes scores as `f64`.  Here they are elements of an ordered field with a
function `ln`.  Candidates are the documents with a positive score, and a score is a sum of
quotients between `2 ^ -64` and `2 ^ 128`, so rounding does not change its sign.
-/

namespace OpenPuffer

open List

/-! ## Weights -/

section Weights

variable {R : Type} [Field R]

/-- `K1`, the saturation of term frequencies. -/
def bm25K1 : R := 6 / 5

/-- `B`, the influence of the document length. -/
def bm25B : R := 3 / 4

variable (ln : R → R)

/-- The inverse document frequency of a term that `df` of `n` documents have. -/
def idf (n df : R) : R := ln ((n - df + 1 / 2) / (df + 1 / 2) + 1)

/-- What a term adds to the score of a document of length `dl` that has it `tf`
times. -/
def termScore (n df tf dl avgdl : R) : R :=
  let num := tf * (bm25K1 + 1)
  let den := tf + bm25K1 * (1 - bm25B + bm25B * dl / avgdl)
  idf ln n df * num / den

end Weights

section Scores

variable {R : Type} [Field R] [LinearOrder R] (ln : R → R) (env : TextEnv)

/-! ## One document -/

/-- Add a term of the query to the score of a text with the given tokens. -/
def addTerm (tokens : List String) (avgdl : R) (numDocs : Nat) (score : R) (term : String) : R :=
  let tf := tokens.count term
  if tf = 0 then score
  else score + termScore ln (max numDocs 1 : Nat) 1 (tf : Nat) tokens.length (max avgdl 1)

/-- The score of a text, as if it were the only document with its terms. -/
def bm25DocScore (document query : List Char) (avgdl : R) (numDocs : Nat) : R :=
  let terms := tokenize env query
  let tokens := tokenize env document
  if terms.isEmpty ∨ tokens.isEmpty then 0
  else terms.foldl (addTerm ln tokens avgdl numDocs) 0

/-! ## Segments -/

namespace FtsSegment

variable (seg : FtsSegment)

def avgDocLen : R := if seg.numDocs = 0 then 1 else seg.totalDocLen / seg.numDocs

/-- The documents that have a term of the query. -/
def candidateDocIds (query : List Char) : Finset String :=
  ((tokenize env query).flatMap fun term => (seg.postingsAt term).map Posting.docId).toFinset

/-- Add the postings of a term to the scores. -/
def scoreTerm (scores : HashMap String R) (term : String) : HashMap String R :=
  let list := seg.postingsAt term
  list.foldl
    (fun scores p =>
      scores.entry 0 p.docId
        (· + termScore ln seg.numDocs list.length p.termFreq
          (HashMap.getOr (1 : Nat) seg.docLengths p.docId : Nat) seg.avgDocLen))
    scores

/-- Better scores first, ties by ascending id. -/
def ranksBefore (a b : String × R) : Prop := b.2 < a.2 ∨ (a.2 = b.2 ∧ a.1 ≤ b.1)

instance : DecidableRel (ranksBefore (R := R)) := fun _ _ => inferInstanceAs (Decidable (_ ∨ _))

/-- The `topK` best documents. -/
def queryBm25 (o : IterOrder String) (query : List Char) (topK : Nat) : List (String × R) :=
  let terms := tokenize env query
  if terms.isEmpty ∨ seg.numDocs = 0 then []
  else
    ((HashMap.iter o (terms.foldl (seg.scoreTerm ln) ∅)).insertionSort ranksBefore).take topK

end FtsSegment

/-! ## Positive scores -/

section Positive

variable [IsStrictOrderedRing R] {ln} (hln : ∀ x, 1 < x → 0 < ln x)

include hln

theorem idf_pos {n : R} (hn : 1 ≤ n) : 0 < idf ln n 1 := by
  refine hln _ (lt_add_of_pos_left _ (div_pos ?_ ?_))
  · linarith
  · norm_num

theorem termScore_pos {n tf dl avgdl : R} (hn : 1 ≤ n) (htf : 0 < tf) (hdl : 0 ≤ dl)
    (havg : 0 < avgdl) : 0 < termScore ln n 1 tf dl avgdl := by
  have hratio : 0 ≤ (bm25B : R) * dl / avgdl :=
    div_nonneg (mul_nonneg (by norm_num [bm25B]) hdl) havg.le
  have hlength : 0 < (1 : R) - bm25B + bm25B * dl / avgdl :=
    add_pos_of_pos_of_nonneg (by norm_num [bm25B]) hratio
  have hk : (0 : R) < bm25K1 := by
    norm_num [bm25K1]
  refine div_pos (mul_pos (idf_pos hln hn) (mul_pos htf (by linarith))) ?_
  exact add_pos htf (mul_pos hk hlength)

theorem addTerm_cases (tokens : List String) (avgdl : R) (numDocs : Nat) {score : R}
    (hscore : 0 ≤ score) (term : String) :
    (term ∈ tokens ∧ 0 < addTerm ln tokens avgdl numDocs score term) ∨
      (term ∉ tokens ∧ addTerm ln tokens avgdl numDocs score term = score) := by
  rw [addTerm]
  by_cases hmem : term ∈ tokens
  · have hcount : 0 < tokens.count term := count_pos_iff.mpr hmem
    refine .inl ⟨hmem, ?_⟩
    rw [if_neg hcount.ne']
    refine add_pos_of_nonneg_of_pos hscore (termScore_pos hln ?_ ?_ (Nat.cast_nonneg _) ?_)
    · exact_mod_cast le_max_right numDocs 1
    · exact_mod_cast hcount
    · exact lt_max_of_lt_right one_pos
  · exact .inr ⟨hmem, if_pos (count_eq_zero.mpr hmem)⟩

theorem foldl_addTerm_pos_iff (tokens : List String) (avgdl : R) (numDocs : Nat)
    (terms : List String) {score : R} (hscore : 0 ≤ score) :
    0 < terms.foldl (addTerm ln tokens avgdl numDocs) score ↔
      0 < score ∨ ∃ term ∈ terms, term ∈ tokens := by
  induction terms generalizing score with
  | nil => simp
  | cons term terms ih =>
    rw [foldl_cons]
    rcases addTerm_cases hln tokens avgdl numDocs hscore term with ⟨hmem, hpos⟩ | ⟨hmem, heq⟩
    · rw [ih hpos.le]
      exact iff_of_true (.inl hpos) (.inr ⟨term, mem_cons_self, hmem⟩)
    · rw [heq, ih hscore]
      simp [hmem]

/-- A text scores if it has a term of the query. -/
theorem bm25DocScore_pos_iff {document query : List Char} {avgdl : R} {numDocs : Nat} :
    0 < bm25DocScore ln env document query avgdl numDocs ↔
      ∃ term ∈ tokenize env query, term ∈ tokenize env document := by
  rw [bm25DocScore]
  split
  · rename_i hempty
    rcases hempty with hterms | htokens
    · simp [isEmpty_iff.mp hterms]
    · simp [isEmpty_iff.mp htokens]
  · rw [foldl_addTerm_pos_iff hln _ _ _ _ le_rfl]
    simp

end Positive

/-! ## Candidates of a segment -/

namespace FtsSegment

variable {seg : FtsSegment}

variable {query : List Char} {id : String}

theorem mem_candidateDocIds :
    id ∈ seg.candidateDocIds env query ↔
      ∃ term ∈ tokenize env query, ∃ p ∈ seg.postingsAt term, p.docId = id := by
  simp [candidateDocIds]

/-- A segment finds the documents that share a term with the query. -/
theorem Holds.mem_candidateDocIds {T : String → List String} (h : seg.Holds T) :
    id ∈ seg.candidateDocIds env query ↔ ∃ term ∈ tokenize env query, term ∈ T id := by
  rw [FtsSegment.mem_candidateDocIds]
  refine exists_congr fun term => and_congr_right fun _ => ?_
  constructor
  · rintro ⟨p, hp, rfl⟩
    exact ((h.postings term p).mp hp).1
  · intro hterm
    exact ⟨⟨id, (T id).count term⟩, (h.postings term _).mpr ⟨hterm, rfl⟩, rfl⟩

omit [LinearOrder R] in
theorem mem_scoreTerm {scores : HashMap String R} {term : String}
    (h : id ∈ seg.scoreTerm ln scores term) :
    id ∈ scores ∨ ∃ p ∈ seg.postingsAt term, p.docId = id := by
  have hfold : ∀ (list : List Posting) (f : Posting → R → R) (scores : HashMap String R),
      id ∈ list.foldl (fun scores p => scores.entry 0 p.docId (f p)) scores →
      id ∈ scores ∨ ∃ p ∈ list, p.docId = id := by
    intro list f
    induction list with
    | nil => exact fun scores h => .inl h
    | cons p list ih =>
      intro scores h
      rcases ih _ h with hmem | ⟨p', hp', hid⟩
      · rcases Finmap.mem_insert.mp hmem with rfl | hmem
        · exact .inr ⟨p, mem_cons_self, rfl⟩
        · exact .inl hmem
      · exact .inr ⟨p', mem_cons_of_mem p hp', hid⟩
  exact hfold _ _ scores h

/-- Scoring finds no document that shares no term with the query. -/
theorem queryBm25_mem_candidates {o : IterOrder String} {topK : Nat} {e : String × R}
    (h : e ∈ seg.queryBm25 ln env o query topK) : e.1 ∈ seg.candidateDocIds env query := by
  have hfold : ∀ (terms : List String) (scores : HashMap String R),
      e.1 ∈ terms.foldl (seg.scoreTerm ln) scores →
      e.1 ∈ scores ∨ ∃ term ∈ terms, ∃ p ∈ seg.postingsAt term, p.docId = e.1 := by
    intro terms
    induction terms with
    | nil => exact fun scores h => .inl h
    | cons term terms ih =>
      intro scores h
      rcases ih _ h with hmem | ⟨term', hterm', hp⟩
      · refine (mem_scoreTerm ln hmem).imp_right fun hp => ?_
        exact ⟨term, mem_cons_self, hp⟩
      · exact .inr ⟨term', mem_cons_of_mem term hterm', hp⟩
  rw [queryBm25] at h
  split at h
  · cases h
  · have hsorted := mem_of_mem_take h
    rw [mem_insertionSort] at hsorted
    have hmem := Finmap.mem_of_lookup_eq_some (HashMap.mem_iter.mp hsorted)
    rw [mem_candidateDocIds]
    exact (hfold _ _ hmem).resolve_left Finmap.notMem_empty

end FtsSegment

end Scores

end OpenPuffer
