import OpenPuffer.Index.Fts

/-!
# A full-text segment along a history

A history is a sequence of deltas, applied to the empty segment.  The segment then holds the
last-written version of every id that was not deleted since (`lastVersion`).  The counters are
machine integers (`addDocument32`).  They are exact as long as fewer than `2 ^ 32` documents are
live at any time and none has `2 ^ 32` tokens (`Fits`).  The history shows in the order of the
postings, and nowhere else (`applyDeltas_content`).
-/

namespace OpenPuffer

open List Function

/-! ## Histories -/

/-- A document is written or an id is deleted. -/
inductive DocChange where
  | upsert (doc : Document)
  | delete (id : String)

namespace DocChange

def id : DocChange → String
  | .upsert doc => doc.id
  | .delete id => id

def version : DocChange → Option Document
  | .upsert doc => some doc
  | .delete _ => none

end DocChange

/-- The arguments of one `apply_delta`. -/
structure DocDelta where
  upserts : List Document := []
  deletes : List String := []

/-- Deletes come first. -/
def DocDelta.changes (d : DocDelta) : List DocChange :=
  d.deletes.map .delete ++ d.upserts.map .upsert

def changesOf (deltas : List DocDelta) : List DocChange := deltas.flatMap DocDelta.changes

/-- The last-written version of an id, if it was not deleted since. -/
def lastVersion (changes : List DocChange) (id : String) : Option Document :=
  (changes.reverse.find? fun c => c.id = id).bind DocChange.version

def liveIds (changes : List DocChange) : Finset String :=
  (changes.map DocChange.id).toFinset.filter fun id => (lastVersion changes id).isSome

def termsOfVersion (env : TextEnv) (field : String) (version : String → Option Document)
    (id : String) : List String :=
  ((version id).map (docTokens env field)).getD []

theorem lastVersion_concat (changes : List DocChange) (c : DocChange) :
    lastVersion (changes ++ [c]) = Function.update (lastVersion changes) c.id c.version := by
  funext id
  rw [lastVersion]
  by_cases h : c.id = id
  · simp [h]
  · simp [h, Ne.symm h, lastVersion]

theorem mem_liveIds {changes : List DocChange} {id : String} :
    id ∈ liveIds changes ↔ (lastVersion changes id).isSome = true := by
  rw [liveIds, Finset.mem_filter, mem_toFinset, and_iff_right_iff_imp]
  intro h
  obtain ⟨doc, hdoc⟩ := Option.isSome_iff_exists.mp h
  obtain ⟨c, hfind, -⟩ := Option.bind_eq_some_iff.mp hdoc
  have hid := find?_some hfind
  have hmem := mem_of_find?_eq_some hfind
  exact mem_map.mpr ⟨c, mem_reverse.mp hmem, of_decide_eq_true hid⟩

theorem card_liveIds_le (changes : List DocChange) : (liveIds changes).card ≤ changes.length :=
  calc (liveIds changes).card
      ≤ (changes.map DocChange.id).toFinset.card := Finset.card_filter_le _ _
    _ ≤ (changes.map DocChange.id).length := toFinset_card_le _
    _ = changes.length := length_map _

theorem termsOfVersion_update (env : TextEnv) (field : String)
    (version : String → Option Document) (id : String) (v : Option Document) :
    termsOfVersion env field (Function.update version id v)
      = Function.update (termsOfVersion env field version) id
          ((v.map (docTokens env field)).getD []) := by
  funext j
  simp only [termsOfVersion, update_apply]
  by_cases h : j = id
  · simp [h]
  · simp [h]

namespace FtsSegment

/-! ## Machine integers -/

section Machine

variable (env : TextEnv)

/-- `addDocument` with the integers of the source: lengths, frequencies and the number
of documents are 32 bits wide, the total length is 64 bits wide. -/
def addDocument32 (seg : FtsSegment) (doc : Document) : FtsSegment :=
  let tokens := docTokens env seg.field doc
  if tokens.isEmpty then seg
  else
    let len := tokens.length % 2 ^ 32
    { seg with
      docLengths := seg.docLengths.insert doc.id len
      totalDocLen := (seg.totalDocLen + len) % 2 ^ 64
      numDocs := (seg.numDocs + 1) % 2 ^ 32
      postings := tokens.dedup.foldl
        (fun ps term => ps.entry [] term fun list =>
          list ++ [⟨doc.id, tokens.count term % 2 ^ 32⟩])
        seg.postings }

def applyDelta32 (seg : FtsSegment) (upserts : List Document) (deletes : List String) :
    FtsSegment :=
  upserts.foldl (fun s doc => addDocument32 env (s.removeDocument doc.id) doc)
    (deletes.foldl removeDocument seg)

/-- A history from the empty segment. -/
def applyDeltas (segmentId : Nat) (field : String) (deltas : List DocDelta) : FtsSegment :=
  deltas.foldl (fun s d => applyDelta32 env s d.upserts d.deletes) { segmentId, field }

def applyChange (seg : FtsSegment) : DocChange → FtsSegment
  | .upsert doc => addDocument32 env (seg.removeDocument doc.id) doc
  | .delete id => seg.removeDocument id

theorem applyDelta32_eq (seg : FtsSegment) (d : DocDelta) :
    applyDelta32 env seg d.upserts d.deletes = d.changes.foldl (applyChange env) seg := by
  rw [DocDelta.changes, foldl_append, foldl_map, foldl_map]
  rfl

theorem applyDeltas_eq (segmentId : Nat) (field : String) (deltas : List DocDelta) :
    applyDeltas env segmentId field deltas
      = (changesOf deltas).foldl (applyChange env) { segmentId, field } := by
  rw [applyDeltas, changesOf, foldl_flatMap]
  simp only [applyDelta32_eq]

/-- Counters that do not overflow are exact. -/
theorem addDocument32_eq {seg : FtsSegment} {doc : Document}
    (hlen : (docTokens env seg.field doc).length < 2 ^ 32)
    (hnum : (addDocument env seg doc).numDocs < 2 ^ 32)
    (htotal : (addDocument env seg doc).totalDocLen < 2 ^ 64) :
    addDocument32 env seg doc = addDocument env seg doc := by
  simp only [addDocument32, addDocument] at hnum htotal ⊢
  generalize docTokens env seg.field doc = tokens at *
  split
  · rfl
  · rename_i hsome
    rw [if_neg hsome] at hnum htotal
    have hcount : ∀ term, tokens.count term % 2 ^ 32 = tokens.count term := by
      intro term
      exact Nat.mod_eq_of_lt (count_le_length.trans_lt hlen)
    simp only [hcount, Nat.mod_eq_of_lt hlen, Nat.mod_eq_of_lt hnum, Nat.mod_eq_of_lt htotal]

end Machine

variable {seg : FtsSegment} {T : String → List String}

/-- The counters of a segment with few documents and short documents. -/
theorem Holds.counters_lt (h : seg.Holds T) {live : Finset String}
    (hlive : ∀ id, T id ≠ [] → id ∈ live) (hcard : live.card < 2 ^ 32)
    (hlen : ∀ id, (T id).length < 2 ^ 32) : seg.numDocs < 2 ^ 32 ∧ seg.totalDocLen < 2 ^ 64 := by
  have hkeys : seg.docLengths.keys ⊆ live := by
    intro id hid
    obtain ⟨len, hlookup⟩ := Finmap.mem_iff.mp (Finmap.mem_keys.mp hid)
    refine hlive id fun hnil => ?_
    rw [h.docLengths, if_pos hnil] at hlookup
    cases hlookup
  have hnum : seg.docLengths.entries.card ≤ live.card := by
    have hle := Finset.card_le_card hkeys
    rwa [Finmap.keys, Finset.card_mk, Multiset.keys, Multiset.card_map] at hle
  have hvalue : ∀ n ∈ seg.docLengths.entries.map fun e => e.2, n ≤ 2 ^ 32 - 1 := by
    intro n hn
    obtain ⟨⟨id, len⟩, he, rfl⟩ := Multiset.mem_map.mp hn
    have hlookup := Finmap.lookup_eq_some_iff.mpr he
    rw [h.docLengths] at hlookup
    split at hlookup
    · cases hlookup
    · cases hlookup
      exact Nat.le_sub_one_of_lt (hlen id)
  have hsum := Multiset.sum_le_card_nsmul _ _ hvalue
  rw [Multiset.card_map, ← h.totalDocLen] at hsum
  refine ⟨h.numDocs ▸ hnum.trans_lt hcard, ?_⟩
  calc seg.totalDocLen
      ≤ seg.docLengths.entries.card * (2 ^ 32 - 1) := hsum
    _ ≤ (2 ^ 32 - 1) * (2 ^ 32 - 1) :=
        Nat.mul_le_mul_right _ (Nat.le_sub_one_of_lt (hnum.trans_lt hcard))
    _ < 2 ^ 64 := by decide

/-! ## One posting for each term -/

/-- The segment holds the terms of every document, each with exactly one posting. -/
structure Exact (seg : FtsSegment) (T : String → List String) : Prop extends Holds seg T where
  single : ∀ term id, (seg.postingsAt term).filter (fun p => p.docId = id)
    = if term ∈ T id then [⟨id, (T id).count term⟩] else []

theorem exact_empty (segmentId : Nat) (field : String) :
    Exact { segmentId, field } fun _ => [] where
  toHolds := holds_empty segmentId field
  single := by
    simp [postingsAt, HashMap.getOr]

theorem Exact.add (h : seg.Exact T) (env : TextEnv) (doc : Document) (habsent : T doc.id = []) :
    (addDocument env seg doc).Exact (Function.update T doc.id (docTokens env seg.field doc)) where
  toHolds := h.toHolds.add env doc habsent
  single := by
    intro term id
    have hold := h.single term id
    simp only [addDocument]
    split
    · rename_i hnone
      rw [isEmpty_iff.mp hnone, ← habsent, update_eq_self]
      exact hold
    · generalize docTokens env seg.field doc = tokens
      simp only [postingsAt, getOr_pushAll (fun t => ⟨doc.id, tokens.count t⟩) tokens.nodup_dedup]
      rw [← postingsAt]
      by_cases hid : id = doc.id
      · subst hid
        rw [habsent] at hold
        by_cases hterm : term ∈ tokens
        · simp [hterm, hold]
        · simp [hterm, hold]
      · by_cases hterm : term ∈ tokens
        · simp [hterm, hid, Ne.symm hid, hold]
        · simp [hterm, hid, hold]

theorem Exact.remove (h : seg.Exact T) (docId : String) :
    (seg.removeDocument docId).Exact (Function.update T docId []) where
  toHolds := h.toHolds.remove docId
  single := by
    intro term id
    have hold := h.single term id
    have hlen := h.docLengths docId
    simp only [removeDocument]
    split
    · rename_i hnone
      have habsent : T docId = [] := by
        by_contra hne
        rw [hnone, if_neg hne] at hlen
        cases hlen
      rw [← habsent, update_eq_self]
      exact hold
    · rw [postingsAt, HashMap.getOr_prune rfl, filter_filter, update_apply]
      by_cases hid : id = docId
      · subst hid
        simp
      · rw [if_neg hid, ← hold]
        refine filter_congr fun p _ => ?_
        by_cases hp : p.docId = id
        · simp [hp, hid]
        · simp [hp]

/-! ## Histories -/

/-- Fewer than `2 ^ 32` documents are live at any time, and every one is shorter than
`2 ^ 32` tokens. -/
structure Fits (env : TextEnv) (field : String) (changes : List DocChange) : Prop where
  live : ∀ p, p <+: changes → (liveIds p).card < 2 ^ 32
  tokens : ∀ doc, .upsert doc ∈ changes → (docTokens env field doc).length < 2 ^ 32

theorem Fits.of_prefix {env : TextEnv} {field : String} {changes p : List DocChange}
    (h : Fits env field changes) (hp : p <+: changes) : Fits env field p where
  live := fun q hq => h.live q (hq.trans hp)
  tokens := fun doc hdoc => h.tokens doc (hp.subset hdoc)

section Histories

variable {env : TextEnv} {field : String}

variable {changes : List DocChange}

theorem upsert_mem_of_lastVersion {id : String} {doc : Document}
    (h : lastVersion changes id = some doc) : .upsert doc ∈ changes := by
  obtain ⟨c, hfind, hversion⟩ := Option.bind_eq_some_iff.mp h
  have hmem := mem_reverse.mp (mem_of_find?_eq_some hfind)
  cases c with
  | upsert d =>
    cases hversion
    exact hmem
  | delete j => cases hversion

/-- The counters of a segment that holds the last versions. -/
theorem Fits.counters_lt (hfits : Fits env field changes) {seg : FtsSegment}
    (h : seg.Holds (termsOfVersion env field (lastVersion changes))) :
    seg.numDocs < 2 ^ 32 ∧ seg.totalDocLen < 2 ^ 64 := by
  refine h.counters_lt ?_ (hfits.live changes (prefix_refl _)) ?_
  · intro id hne
    rw [mem_liveIds]
    cases hversion : lastVersion changes id with
    | none => simp [termsOfVersion, hversion] at hne
    | some doc => rfl
  · intro id
    rw [termsOfVersion]
    cases hversion : lastVersion changes id with
    | none => simp
    | some doc => exact hfits.tokens doc (upsert_mem_of_lastVersion hversion)

theorem Exact.applyChange {c : DocChange} (hfits : Fits env field (changes ++ [c]))
    {seg : FtsSegment} (hfield : seg.field = field)
    (h : seg.Exact (termsOfVersion env field (lastVersion changes))) :
    (applyChange env seg c).field = field ∧
      (FtsSegment.applyChange env seg c).Exact
        (termsOfVersion env field (lastVersion (changes ++ [c]))) := by
  have hfield' : ∀ id, (seg.removeDocument id).field = field := by
    intro id
    rw [removeDocument_field, hfield]
  have hterms := termsOfVersion_update env field (lastVersion changes) c.id c.version
  rw [← lastVersion_concat] at hterms
  cases c with
  | delete id =>
    rw [hterms]
    exact ⟨hfield' id, h.remove id⟩
  | upsert doc =>
    have hadded := (h.remove doc.id).add env doc (update_self _ _ _)
    rw [hfield', update_idem] at hadded
    have hexact := hterms ▸ hadded
    obtain ⟨hnum, htotal⟩ := hfits.counters_lt hexact.toHolds
    have hlen : (docTokens env (seg.removeDocument doc.id).field doc).length < 2 ^ 32 := by
      rw [hfield']
      exact hfits.tokens doc (by simp)
    rw [FtsSegment.applyChange, addDocument32_eq env hlen hnum htotal]
    exact ⟨(addDocument_field env _ doc).trans (hfield' doc.id), hexact⟩

/-- A whole history. -/
theorem exact_applyChanges (segmentId : Nat) (hfits : Fits env field changes) :
    (changes.foldl (applyChange env) { segmentId, field }).field = field ∧
      (changes.foldl (applyChange env) { segmentId, field }).Exact
        (termsOfVersion env field (lastVersion changes)) := by
  induction changes using reverseRecOn with
  | nil => exact ⟨rfl, exact_empty segmentId field⟩
  | append_singleton changes c ih =>
    obtain ⟨hfield, hexact⟩ := ih (hfits.of_prefix (prefix_append _ _))
    rw [foldl_append]
    exact Exact.applyChange hfits hfield hexact

end Histories

/-! ## Up to the order of postings -/

/-- The segments differ at most in the order of their postings. -/
structure Reordered (seg seg' : FtsSegment) : Prop where
  segmentId : seg.segmentId = seg'.segmentId
  field : seg.field = seg'.field
  numDocs : seg.numDocs = seg'.numDocs
  totalDocLen : seg.totalDocLen = seg'.totalDocLen
  docLengths : seg.docLengths = seg'.docLengths
  postings : ∀ term, Option.Rel List.Perm (seg.postings.lookup term) (seg'.postings.lookup term)

theorem Exact.perm {seg' : FtsSegment} (h : seg.Exact T) (h' : seg'.Exact T) (term : String) :
    (seg.postingsAt term).Perm (seg'.postingsAt term) := by
  have hcount : ∀ (l : List Posting) (p : Posting),
      l.count p = (l.filter fun q => q.docId = p.docId).count p := by
    intro l p
    rw [count_filter (by simp)]
  refine perm_iff_count.mpr fun p => ?_
  rw [hcount (seg.postingsAt term), hcount (seg'.postingsAt term), h.single, h'.single]

theorem Exact.reordered {seg' : FtsSegment} (h : seg.Exact T) (h' : seg'.Exact T)
    (hid : seg.segmentId = seg'.segmentId) (hfield : seg.field = seg'.field) :
    seg.Reordered seg' := by
  have hsame := h.toHolds.same h'.toHolds hfield
  refine ⟨hid, hfield, hsame.numDocs, hsame.totalDocLen, hsame.docLengths, ?_⟩
  intro term
  have hperm := h.perm h' term
  have hnone := hsame.terms term
  rw [postingsAt, postingsAt, HashMap.getOr, HashMap.getOr] at hperm
  cases hl : seg.postings.lookup term with
  | none =>
    rw [hnone.mp hl]
    exact .none
  | some list =>
    cases hl' : seg'.postings.lookup term with
    | none =>
      rw [hnone.mpr hl'] at hl
      cases hl
    | some list' =>
      rw [hl, hl'] at hperm
      exact .some hperm

theorem applyChange_segmentId (env : TextEnv) (seg : FtsSegment) (c : DocChange) :
    (applyChange env seg c).segmentId = seg.segmentId := by
  have hremove : ∀ id, (seg.removeDocument id).segmentId = seg.segmentId := by
    intro id
    simp only [removeDocument]
    split <;> rfl
  cases c with
  | delete id => exact hremove id
  | upsert doc =>
    rw [applyChange, ← hremove doc.id]
    simp only [addDocument32]
    split <;> rfl

theorem applyChanges_segmentId (env : TextEnv) (changes : List DocChange) (seg : FtsSegment) :
    (changes.foldl (applyChange env) seg).segmentId = seg.segmentId := by
  induction changes generalizing seg with
  | nil => rfl
  | cons c changes ih => rw [foldl_cons, ih, applyChange_segmentId]

/-- After any history the segment holds the last versions: the length of every one that
has tokens and one posting for each of its terms with the term's frequency, nothing
else, no empty list, and exact counters.  A history with the same last versions gives
the same segment up to the order of postings. -/
theorem applyDeltas_content (env : TextEnv) (segmentId : Nat) (field : String)
    (deltas : List DocDelta) (hfits : Fits env field (changesOf deltas)) :
    (applyDeltas env segmentId field deltas).Exact
      (termsOfVersion env field (lastVersion (changesOf deltas))) ∧
    ∀ deltas', Fits env field (changesOf deltas') →
      lastVersion (changesOf deltas') = lastVersion (changesOf deltas) →
      (applyDeltas env segmentId field deltas').Reordered
        (applyDeltas env segmentId field deltas) := by
  obtain ⟨hfield, hexact⟩ := exact_applyChanges segmentId hfits
  rw [← applyDeltas_eq] at hfield hexact
  refine ⟨hexact, ?_⟩
  intro deltas' hfits' hversions
  obtain ⟨hfield', hexact'⟩ := exact_applyChanges segmentId hfits'
  rw [← applyDeltas_eq] at hfield' hexact'
  rw [hversions] at hexact'
  refine hexact'.reordered hexact ?_ (hfield'.trans hfield.symm)
  rw [applyDeltas_eq, applyDeltas_eq, applyChanges_segmentId, applyChanges_segmentId]

/-! ## Histories over three notes -/

theorem Fits.of_short {env : TextEnv} {field : String} {changes : List DocChange}
    (hlength : changes.length < 2 ^ 32)
    (htokens : ∀ c ∈ changes, c.version.all fun doc =>
      (docTokens env field doc).length < 2 ^ 32) : Fits env field changes where
  live := fun p hp => (card_liveIds_le p).trans_lt (hp.length_le.trans_lt hlength)
  tokens := fun doc hdoc => of_decide_eq_true (htokens (.upsert doc) hdoc)

def noteDoc (id body : String) : Document := ⟨id, (∅ : Attributes).insert "body" (.str body)⟩

/-- `a` is written again, `b` is deleted and `c` has only a stop word. -/
def noteHistory : List DocDelta :=
  [{ upserts := [noteDoc "a" "go", noteDoc "b" "rust go"] },
   { upserts := [noteDoc "c" "the", noteDoc "a" "rust, rust"], deletes := ["b"] }]

theorem noteHistory_content :
    (applyDeltas asciiEnv 1 "body" noteHistory).Exact
      (termsOfVersion asciiEnv "body" (lastVersion (changesOf noteHistory))) ∧
    termsOfVersion asciiEnv "body" (lastVersion (changesOf noteHistory)) "a" = ["rust", "rust"] ∧
    (applyDeltas asciiEnv 1 "body" noteHistory).postingsAt "rust" = [⟨"a", 2⟩] ∧
    (applyDeltas asciiEnv 1 "body" noteHistory).numDocs = 1 := by
  have hfits : Fits asciiEnv "body" (changesOf noteHistory) :=
    .of_short (by decide) (by decide +kernel)
  exact ⟨(applyDeltas_content asciiEnv 1 "body" noteHistory hfits).1, by decide +kernel,
    by decide +kernel, by decide +kernel⟩

/-- Two documents written in either order have the same last versions.  Their postings
are listed in the order of the writes. -/
theorem posting_order_shows_history :
    Fits asciiEnv "body" (changesOf [{ upserts := [noteDoc "a" "rust", noteDoc "b" "rust"] }]) ∧
    Fits asciiEnv "body" (changesOf [{ upserts := [noteDoc "b" "rust", noteDoc "a" "rust"] }]) ∧
    lastVersion (changesOf [{ upserts := [noteDoc "a" "rust", noteDoc "b" "rust"] }])
      = lastVersion (changesOf [{ upserts := [noteDoc "b" "rust", noteDoc "a" "rust"] }]) ∧
    (applyDeltas asciiEnv 1 "body"
        [{ upserts := [noteDoc "a" "rust", noteDoc "b" "rust"] }]).postingsAt "rust"
      = [⟨"a", 1⟩, ⟨"b", 1⟩] ∧
    (applyDeltas asciiEnv 1 "body"
        [{ upserts := [noteDoc "b" "rust", noteDoc "a" "rust"] }]).postingsAt "rust"
      = [⟨"b", 1⟩, ⟨"a", 1⟩] := by
  refine ⟨.of_short (by decide) (by decide +kernel), .of_short (by decide) (by decide +kernel),
    ?_, by decide +kernel, by decide +kernel⟩
  have htwo : ∀ c c' : DocChange, lastVersion [c, c']
      = update (update (lastVersion []) c.id c.version) c'.id c'.version := by
    intro c c'
    rw [← lastVersion_concat, ← lastVersion_concat]
    rfl
  exact (htwo _ _).trans ((update_comm (by decide) _ _ _).trans (htwo _ _).symm)

end FtsSegment

end OpenPuffer
