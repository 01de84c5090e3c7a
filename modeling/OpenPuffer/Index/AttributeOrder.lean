import OpenPuffer.Index.FtsHistory

/-!
# Indexing all attributes

With the empty field a document is indexed by the text of all its string attributes, joined by
spaces in the order of a hash map.  A space ends a token, so another order only permutes the
tokens, and adding a document does not see the permutation.
-/

namespace OpenPuffer

open List HashMap FtsSegment

/-- What a space does to the text.  Normalization does not look across it, and it is
neither a letter nor a number. -/
structure TextEnv.CutsAtSpace (env : TextEnv) : Prop where
  nfkc : ∀ a b, env.nfkc (a ++ ' ' :: b) = env.nfkc a ++ ' ' :: env.nfkc b
  space : isTokenChar env ' ' = false

variable {env : TextEnv}

/-! ## The tokenizer -/

/-- The tokens of a text that ends here. -/
def endText (env : TextEnv) (state : List String × List Char) : List String :=
  if state.2.isEmpty then state.1 else pushToken env state.1 state.2

theorem pushToken_append (out tokens : List String) (raw : List Char) :
    pushToken env (out ++ tokens) raw = out ++ pushToken env tokens raw := by
  simp only [pushToken]
  cases env.stemEnglish with
  | none =>
    split
    · rfl
    · exact append_assoc out tokens _
  | some stem =>
    dsimp only
    split
    · rfl
    · split
      · rfl
      · exact append_assoc out tokens _

theorem endText_append (out tokens : List String) (cur : List Char) :
    endText env (out ++ tokens, cur) = out ++ endText env (tokens, cur) := by
  unfold endText
  split
  · rfl
  · exact pushToken_append out tokens cur

/-- What was pushed before stays in front. -/
theorem foldl_tokenizeChar_append (out : List String) (text : List Char) (tokens : List String)
    (cur : List Char) :
    text.foldl (tokenizeChar env) (out ++ tokens, cur)
      = Prod.map (out ++ ·) id (text.foldl (tokenizeChar env) (tokens, cur)) := by
  induction text generalizing tokens cur with
  | nil => rfl
  | cons ch text ih =>
    rw [foldl_cons, foldl_cons]
    simp only [tokenizeChar]
    split
    · exact ih tokens (cur ++ [ch])
    · split
      · exact ih tokens cur
      · rw [pushToken_append]
        exact ih (pushToken env tokens cur) []

/-- A space ends the text before it. -/
theorem tokenizeChar_space (h : env.CutsAtSpace) (state : List String × List Char) :
    tokenizeChar env state ' ' = (endText env state, []) := by
  obtain ⟨tokens, cur⟩ := state
  simp only [tokenizeChar, endText, h.space, Bool.false_eq_true, if_false]
  split
  · next hempty => rw [isEmpty_iff.mp hempty]
  · rfl

theorem tokenize_join (h : env.CutsAtSpace) (a b : List Char) :
    tokenize env (a ++ ' ' :: b) = tokenize env a ++ tokenize env b := by
  have htokens : ∀ text, tokenize env text
      = endText env ((env.nfkc text).foldl (tokenizeChar env) ([], [])) := fun _ => rfl
  simp only [htokens, h.nfkc, foldl_append, foldl_cons, tokenizeChar_space h]
  rw [← append_nil (endText env (foldl _ _ (env.nfkc a))), foldl_tokenizeChar_append, append_nil]
  exact endText_append _ _ _

theorem tokenize_intercalate (h : env.CutsAtSpace) {parts : List (List Char)} (hne : parts ≠ []) :
    tokenize env ([' '].intercalate parts) = parts.flatMap (tokenize env) := by
  induction parts with
  | nil => exact absurd rfl hne
  | cons part parts ih =>
    cases parts with
    | nil => simp
    | cons next parts =>
      rw [intercalate_cons_cons, append_assoc, singleton_append, tokenize_join h,
        ih (cons_ne_nil next parts), ← flatMap_cons]

/-! ## Documents -/

theorem perm_iter {κ ν : Type} [DecidableEq κ] (o o' : IterOrder κ) (s : HashMap κ ν) :
    (s.iter o).Perm (s.iter o') :=
  Multiset.coe_eq_coe.mp ((coe_iter o s).trans (coe_iter o' s).symm)

theorem perm_docTokens (h : env.CutsAtSpace) (o : IterOrder String) (doc : Document) :
    (docTokens { env with order := o } "" doc).Perm (docTokens env "" doc) := by
  have hparts := (perm_iter o env.order doc.attributes).filterMap fun a =>
    a.2.asStr.map String.toList
  simp only [docTokens, extractIndexText, ne_eq, not_true_eq_false, if_false]
  generalize filterMap _ (iter o doc.attributes) = parts at hparts ⊢
  generalize filterMap _ (iter env.order doc.attributes) = parts' at hparts ⊢
  by_cases hnil : parts = []
  · subst hnil
    rw [nil_perm.mp hparts]
    exact .rfl
  · have hnil' : parts' ≠ [] := fun he => hnil (perm_nil.mp (he ▸ hparts))
    have hflat := hparts.flatMap_right (tokenize env)
    rw [← tokenize_intercalate h hnil, ← tokenize_intercalate h hnil'] at hflat
    exact hflat

/-- Two terms are pushed in any order. -/
theorem push_comm (f : String → Posting) (postings : HashMap String (List Posting))
    (s t : String) :
    (postings.entry [] s (· ++ [f s])).entry [] t (· ++ [f t])
      = (postings.entry [] t (· ++ [f t])).entry [] s (· ++ [f s]) := by
  by_cases h : s = t
  · rw [h]
  · apply ext_lookup
    intro term
    simp only [entry, getOr, lookup_insert_ite, h, Ne.symm h, if_false]
    by_cases ht : term = t
    · rw [if_pos ht, if_neg (ht ▸ Ne.symm h), if_pos ht]
    · rw [if_neg ht, if_neg ht]

theorem foldl_push_perm (f : String → Posting) {terms terms' : List String}
    (h : terms.Perm terms') (postings : HashMap String (List Posting)) :
    terms.foldl (fun ps term => ps.entry [] term (· ++ [f term])) postings
      = terms'.foldl (fun ps term => ps.entry [] term (· ++ [f term])) postings :=
  h.foldl_eq' (fun s _ t _ ps => push_comm f ps s t) postings

/-- A segment depends on the tokens of a document as a multiset. -/
theorem addDocument32_perm {env' : TextEnv} {seg : FtsSegment} {doc : Document}
    (h : (docTokens env seg.field doc).Perm (docTokens env' seg.field doc)) :
    addDocument32 env seg doc = addDocument32 env' seg doc := by
  simp only [addDocument32]
  generalize docTokens env seg.field doc = tokens at h ⊢
  generalize docTokens env' seg.field doc = tokens' at h ⊢
  rw [h.isEmpty_eq, h.length_eq]
  have hcount : ∀ term, tokens.count term = tokens'.count term := h.count_eq
  simp only [hcount, foldl_push_perm (fun t => ⟨doc.id, tokens'.count t % 2 ^ 32⟩) h.dedup]

/-- Tokenizing joins where the texts do, and with the empty field every order of the
attributes gives the same tokens up to their order and the same segment. -/
theorem addDocument_any_order (env : TextEnv) (h : env.CutsAtSpace) :
    (∀ a b, tokenize env (a ++ ' ' :: b) = tokenize env a ++ tokenize env b) ∧
      ∀ (seg : FtsSegment) (doc : Document) (o : IterOrder String), seg.field = "" →
        (docTokens { env with order := o } seg.field doc).Perm (docTokens env seg.field doc) ∧
          addDocument32 { env with order := o } seg doc = addDocument32 env seg doc := by
  refine ⟨tokenize_join h, ?_⟩
  intro seg doc o hfield
  have hperm : (docTokens { env with order := o } seg.field doc).Perm
      (docTokens env seg.field doc) := by
    rw [hfield]
    exact perm_docTokens h o doc
  exact ⟨hperm, addDocument32_perm hperm⟩

theorem asciiEnv_cutsAtSpace : asciiEnv.CutsAtSpace where
  nfkc := fun _ _ => rfl
  space := by decide

/-- Two attributes with a term in common. -/
def titleAndBody : Document :=
  ⟨"d", ((∅ : HashMap String Json).insert "title" (.str "Rust, the")).insert "body"
    (.str "fast rust")⟩

theorem titleAndBody_any_order :
    let env := { asciiEnv with order := .first {"title"} (.sorted String) }
    docTokens env "" titleAndBody = ["rust", "fast", "rust"] ∧
      docTokens asciiEnv "" titleAndBody = ["fast", "rust", "rust"] ∧
      addDocument32 env {} titleAndBody = addDocument32 asciiEnv {} titleAndBody :=
  ⟨by decide +kernel, by decide +kernel,
    ((addDocument_any_order asciiEnv asciiEnv_cutsAtSpace).2 {} titleAndBody _ rfl).2⟩

end OpenPuffer
