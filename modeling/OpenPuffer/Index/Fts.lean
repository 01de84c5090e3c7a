import OpenPuffer.Index.Text

/-!
# Full-text segments

A segment maps every term to its postings, a document id and a frequency each, and keeps the
length of every document.  `FtsSegment.Holds` says what it holds in terms of the terms of every
document.  Adding and removing a document change these at one id.
-/

namespace OpenPuffer

open HashMap Function Multiset

/-- A document id and the frequency of the term in it. -/
structure Posting where
  docId : String
  termFreq : Nat
deriving DecidableEq

/-- An inverted index for one field, or for all string attributes if the field
is empty. -/
structure FtsSegment where
  segmentId : Nat := 0
  field : String := ""
  numDocs : Nat := 0
  totalDocLen : Nat := 0
  docLengths : HashMap String Nat := ∅
  postings : HashMap String (List Posting) := ∅

namespace FtsSegment

def postingsAt (seg : FtsSegment) (term : String) : List Posting := seg.postings.getOr [] term

section Changes

variable (env : TextEnv)

/-- Add a document.  One without terms leaves no trace. -/
def addDocument (seg : FtsSegment) (doc : Document) : FtsSegment :=
  let tokens := docTokens env seg.field doc
  if tokens.isEmpty then seg
  else
    { seg with
      docLengths := seg.docLengths.insert doc.id tokens.length
      totalDocLen := seg.totalDocLen + tokens.length
      numDocs := seg.numDocs + 1
      postings := tokens.dedup.foldl
        (fun ps term => ps.entry [] term fun list => list ++ [⟨doc.id, tokens.count term⟩])
        seg.postings }

/-- Remove a document, with every term that has no postings left. -/
def removeDocument (seg : FtsSegment) (docId : String) : FtsSegment :=
  match seg.docLengths.lookup docId with
  | none => seg
  | some len =>
    { seg with
      docLengths := seg.docLengths.erase docId
      totalDocLen := seg.totalDocLen - len
      numDocs := seg.numDocs - 1
      postings := seg.postings.prune [] fun list => list.filter fun p => p.docId ≠ docId }

/-- A fresh segment. -/
def build (segmentId : Nat) (field : String) (docs : List Document) : FtsSegment :=
  docs.foldl (addDocument env) { segmentId, field }

/-- Merge deletes and upserts into a segment. -/
def applyDelta (seg : FtsSegment) (upserts : List Document) (deletes : List String) : FtsSegment :=
  upserts.foldl (fun s doc => addDocument env (s.removeDocument doc.id) doc)
    (deletes.foldl removeDocument seg)

end Changes

/-! ## What a segment holds -/

/-- The segment holds the terms `T id` of every document, for a finite number of
documents with terms. -/
structure Holds (seg : FtsSegment) (T : String → List String) : Prop where
  docLengths : ∀ id, seg.docLengths.lookup id = if T id = [] then none else some (T id).length
  numDocs : seg.numDocs = seg.docLengths.entries.card
  totalDocLen : seg.totalDocLen = (seg.docLengths.entries.map fun e => e.2).sum
  postings : ∀ term p, p ∈ seg.postingsAt term ↔
    term ∈ T p.docId ∧ p.termFreq = (T p.docId).count term
  tidy : seg.postings.Tidy []

/-- Two segments with the same content.  Posting lists are compared as sets. -/
structure Same (seg seg' : FtsSegment) : Prop where
  field : seg.field = seg'.field
  numDocs : seg.numDocs = seg'.numDocs
  totalDocLen : seg.totalDocLen = seg'.totalDocLen
  docLengths : seg.docLengths = seg'.docLengths
  terms : ∀ term, seg.postings.lookup term = none ↔ seg'.postings.lookup term = none
  postings : ∀ term p, p ∈ seg.postingsAt term ↔ p ∈ seg'.postingsAt term

theorem holds_empty (segmentId : Nat) (field : String) :
    Holds { segmentId, field } fun _ => [] where
  docLengths := fun _ => rfl
  numDocs := rfl
  totalDocLen := rfl
  postings := by
    intro term p
    simp [postingsAt, getOr]
  tidy := tidy_empty []

/-- Pushing one posting under every term of a list without repetitions. -/
theorem getOr_pushAll (f : String → Posting) {terms : List String} (hnodup : terms.Nodup)
    (postings : HashMap String (List Posting)) (t : String) :
    HashMap.getOr [] (terms.foldl (fun ps term => ps.entry [] term (· ++ [f term])) postings) t
      = if t ∈ terms then postings.getOr [] t ++ [f t] else postings.getOr [] t := by
  induction terms generalizing postings with
  | nil => simp
  | cons term terms ih =>
    obtain ⟨hnot, hrest⟩ := List.nodup_cons.mp hnodup
    rw [List.foldl_cons, ih hrest, getOr_entry]
    by_cases ht : t = term
    · subst ht
      simp [hnot]
    · simp [ht]

theorem tidy_pushAll (f : String → Posting) (terms : List String)
    {postings : HashMap String (List Posting)} (h : postings.Tidy []) :
    HashMap.Tidy [] (terms.foldl (fun ps term => ps.entry [] term (· ++ [f term])) postings) := by
  induction terms generalizing postings with
  | nil => exact h
  | cons term terms ih => exact ih (h.entry (by simp))

theorem addDocument_field (env : TextEnv) (seg : FtsSegment) (doc : Document) :
    (addDocument env seg doc).field = seg.field := by
  simp only [addDocument]
  split <;> rfl

theorem removeDocument_field (seg : FtsSegment) (docId : String) :
    (seg.removeDocument docId).field = seg.field := by
  simp only [removeDocument]
  split <;> rfl

variable {T : String → List String} {seg : FtsSegment}

/-- Whether a posting is listed under a term after the terms of a new document
were pushed. -/
theorem mem_push_iff {list : List Posting} {term id : String} {p : Posting} {tokens : List String}
    (hold : p ∈ list ↔ term ∈ T p.docId ∧ p.termFreq = (T p.docId).count term)
    (habsent : T id = []) :
    (p ∈ if term ∈ tokens then list ++ [⟨id, tokens.count term⟩] else list) ↔
      term ∈ Function.update T id tokens p.docId ∧
        p.termFreq = (Function.update T id tokens p.docId).count term := by
  obtain ⟨docId, freq⟩ := p
  by_cases hp : docId = id
  · subst hp
    have hnot : (⟨docId, freq⟩ : Posting) ∉ list := by
      rw [hold, habsent]
      simp
    by_cases hterm : term ∈ tokens
    · simp [hterm, hnot]
    · simp [hterm, hnot]
  · by_cases hterm : term ∈ tokens
    · simp [hterm, hp, hold]
    · simp [hterm, hp, hold]

theorem Holds.add (h : seg.Holds T) (env : TextEnv) (doc : Document) (habsent : T doc.id = []) :
    (addDocument env seg doc).Holds (Function.update T doc.id (docTokens env seg.field doc)) := by
  simp only [addDocument]
  split
  · rename_i hnone
    rw [List.isEmpty_iff.mp hnone, ← habsent, update_eq_self]
    exact h
  · rename_i hsome
    rw [List.isEmpty_iff] at hsome
    generalize docTokens env seg.field doc = tokens at hsome ⊢
    have hnone : seg.docLengths.lookup doc.id = none := by rw [h.docLengths, if_pos habsent]
    have hentries := Finmap.entries_insert_of_notMem (b := tokens.length)
      (Finmap.lookup_eq_none.mp hnone)
    refine ⟨?_, ?_, ?_, ?_, ?_⟩
    · intro id
      simp only [lookup_insert_ite, update_apply]
      split
      · rfl
      · exact h.docLengths id
    · simp only [hentries, card_cons, h.numDocs]
    · simp only [hentries, map_cons, sum_cons, h.totalDocLen]
      omega
    · intro term p
      simp only [postingsAt,
        getOr_pushAll (fun t => ⟨doc.id, tokens.count t⟩) tokens.nodup_dedup, List.mem_dedup]
      exact mem_push_iff (h.postings term p) habsent
    · exact tidy_pushAll (fun t => ⟨doc.id, tokens.count t⟩) _ h.tidy

theorem Holds.remove (h : seg.Holds T) (docId : String) :
    (seg.removeDocument docId).Holds (Function.update T docId []) := by
  have hlen := h.docLengths docId
  simp only [removeDocument]
  split
  · rename_i hnone
    have habsent : T docId = [] := by
      by_contra hne
      rw [hnone, if_neg hne] at hlen
      cases hlen
    rw [← habsent, update_eq_self]
    exact h
  · rename_i len hsome
    have hsplit : (seg.docLengths.erase docId).insert docId len = seg.docLengths := by
      rw [insert_erase, insert_of_lookup hsome]
    have hentries := Finmap.entries_insert_of_notMem (b := len)
      (Finmap.lookup_eq_none.mp (Finmap.lookup_erase docId seg.docLengths))
    rw [hsplit] at hentries
    refine ⟨?_, ?_, ?_, ?_, ?_⟩
    · intro id
      simp only [lookup_erase_ite, update_apply]
      split
      · rfl
      · exact h.docLengths id
    · simp only [h.numDocs, hentries, card_cons, Nat.add_sub_cancel]
    · simp only [h.totalDocLen, hentries, map_cons, sum_cons,
        Nat.add_sub_cancel_left]
    · intro term p
      rw [postingsAt, getOr_prune rfl, List.mem_filter, ← postingsAt, h.postings]
      by_cases hp : p.docId = docId
      · simp [hp]
      · simp [hp]
    · exact tidy_prune _ _ _

/-- A term is present exactly if it has a posting. -/
theorem lookup_eq_none_iff (h : seg.postings.Tidy []) (term : String) :
    seg.postings.lookup term = none ↔ ∀ p, p ∉ seg.postingsAt term := by
  rw [h.lookup_eq_none_iff, ← postingsAt, List.eq_nil_iff_forall_not_mem]

/-- What a segment holds determines it. -/
theorem Holds.same {seg' : FtsSegment} (h : seg.Holds T) (h' : seg'.Holds T)
    (hfield : seg.field = seg'.field) : seg.Same seg' := by
  have hlengths : seg.docLengths = seg'.docLengths := by
    apply ext_lookup
    intro id
    rw [h.docLengths, h'.docLengths]
  have hpostings : ∀ term p, p ∈ seg.postingsAt term ↔ p ∈ seg'.postingsAt term := by
    intro term p
    rw [h.postings, h'.postings]
  refine ⟨hfield, by rw [h.numDocs, h'.numDocs, hlengths],
    by rw [h.totalDocLen, h'.totalDocLen, hlengths], hlengths, ?_, hpostings⟩
  intro term
  rw [lookup_eq_none_iff h.tidy, lookup_eq_none_iff h'.tidy]
  simp only [hpostings]

theorem Same.holds {seg' : FtsSegment} (hs : seg.Same seg') (h : seg'.Holds T) : seg.Holds T where
  docLengths := by
    rw [hs.docLengths]
    exact h.docLengths
  numDocs := by
    rw [hs.numDocs, hs.docLengths]
    exact h.numDocs
  totalDocLen := by
    rw [hs.totalDocLen, hs.docLengths]
    exact h.totalDocLen
  postings := by
    intro term p
    rw [hs.postings, h.postings]
  tidy := by
    intro term hempty
    have hnone : seg'.postings.lookup term = none := by
      rw [lookup_eq_none_iff h.tidy]
      intro p
      rw [← hs.postings, postingsAt, getOr, hempty]
      exact List.not_mem_nil
    rw [← hs.terms, hempty] at hnone
    cases hnone

/-! ## Segments and documents -/

section Documents

variable {env : TextEnv}

def termsOf (env : TextEnv) (field : String) (docs : DocMap) (id : String) : List String :=
  match docs.get id with
  | none => []
  | some doc => docTokens env field doc

/-- The segment is the one obtained by adding each document of the map once. -/
def Represents (env : TextEnv) (seg : FtsSegment) (docs : DocMap) : Prop :=
  ∃ list, docs.Lists list ∧ seg.Same (build env seg.segmentId seg.field list)

theorem termsOf_erase (field : String) (docs : DocMap) (id : String) :
    termsOf env field (docs.erase id) = Function.update (termsOf env field docs) id [] := by
  funext i
  simp only [termsOf, DocMap.get, lookup_erase_ite, update_apply]
  by_cases h : i = id
  · simp [h]
  · simp [h]

theorem termsOf_insert (field : String) (docs : DocMap) (doc : Document) :
    termsOf env field (docs.insert doc.id doc.attributes)
      = Function.update (termsOf env field docs) doc.id (docTokens env field doc) := by
  funext i
  simp only [termsOf, DocMap.get, lookup_insert_ite, update_apply]
  by_cases h : i = doc.id
  · simp [h]
  · simp [h]

/-- Adding and removing change the segment as they change the documents. -/
theorem mirrors (env : TextEnv) (field : String) :
    Mirrors (fun seg docs => seg.field = field ∧ seg.Holds (termsOf env field docs))
      removeDocument (addDocument env) where
  remove := by
    rintro seg docs id ⟨rfl, h⟩
    rw [termsOf_erase]
    exact ⟨removeDocument_field seg id, h.remove id⟩
  add := by
    rintro seg docs doc ⟨rfl, h⟩ hnew
    rw [termsOf_insert]
    exact ⟨addDocument_field env seg doc, h.add env doc (by simp [termsOf, DocMap.get, hnew])⟩

variable {docs : DocMap}

theorem holds_build (env : TextEnv) {list : List Document} (hlist : docs.Lists list)
    (segmentId : Nat) (field : String) :
    (build env segmentId field list).field = field ∧
      (build env segmentId field list).Holds (termsOf env field docs) :=
  (mirrors env field).build ⟨rfl, holds_empty segmentId field⟩ hlist

theorem represents_iff {seg : FtsSegment} :
    seg.Represents env docs ↔ seg.Holds (termsOf env seg.field docs) := by
  constructor
  · rintro ⟨list, hlist, hsame⟩
    exact hsame.holds (holds_build env hlist _ _).2
  · intro h
    have hlist := docs.lists_iter env.order
    obtain ⟨hfield, hbuilt⟩ := holds_build env hlist seg.segmentId seg.field
    exact ⟨_, hlist, h.same hbuilt hfield.symm⟩

theorem represents_build (env : TextEnv) {list : List Document} (hlist : docs.Lists list)
    (segmentId : Nat) (field : String) : (build env segmentId field list).Represents env docs := by
  obtain ⟨hfield, hholds⟩ := holds_build env hlist segmentId field
  rw [represents_iff, hfield]
  exact hholds

/-- A delta does to a segment what it does to the documents. -/
theorem Represents.applyDelta {seg : FtsSegment} (h : seg.Represents env docs)
    (upserts : List Document) (deletes : List String) :
    (applyDelta env seg upserts deletes).Represents env (docs.mergeDelta upserts deletes) := by
  obtain ⟨hfield, hholds⟩ :=
    (mirrors env seg.field).mergeDelta upserts deletes ⟨rfl, represents_iff.mp h⟩
  rw [represents_iff]
  rw [← hfield] at hholds
  exact hholds

end Documents

end FtsSegment

end OpenPuffer
