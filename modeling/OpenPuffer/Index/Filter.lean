import OpenPuffer.Filter
import OpenPuffer.Schema

/-!
# Attribute filter segments

A segment maps every field and value of that field to the ids of the documents that have it,
and keeps the set of all ids.  It answers a filter expression from its postings alone.  The key
of a value is a text with a tag in the source; a key is its tag and its value here.

`FilterSegment.Holds` says what a segment holds, and determines the segment.
-/

namespace OpenPuffer

open HashMap Option Function Finset

inductive ValueKey where
  | string (s : String)
  | bool (b : Bool)
  | number (x : Fp)
  | null
deriving DecidableEq

/-- The key of a value.  `$ref_new` has none: the source panics on it. -/
def valueKey : FilterValue → Option ValueKey
  | .string s => some (.string s)
  | .bool b => some (.bool b)
  | .number x => some (.number x)
  | .null => some .null
  | .refNew _ => none

def parseValueKey : ValueKey → Option FilterValue
  | .string s => some (.string s)
  | .bool b => some (.bool b)
  | .number x => some (.number x)
  | .null => none

/-- Document ids by field and value. -/
abbrev FilterPostings := HashMap String (HashMap ValueKey (Finset String))

structure FilterSegment where
  segmentId : Nat := 0
  /-- All document ids of the segment. -/
  allDocIds : Finset String := ∅
  postings : FilterPostings := ∅
deriving DecidableEq

/-- The ids under a field and a key. -/
def FilterPostings.idsAt (postings : FilterPostings) (field : String) (key : ValueKey) :
    Finset String :=
  (postings.getOr ∅ field).getOr ∅ key

/-- The key of a field of a document, if it has a scalar there. -/
def fieldKey (doc : Document) (field : String) : Option ValueKey :=
  (doc.attributes.lookup field).bind fun v => (attrToFilterValue v).bind valueKey

namespace FilterSegment

/-! ## Changes -/

section Changes

variable (o : IterOrder String)

/-- The filterable fields of the schema, or all attributes if it has none. -/
def indexedFields (fields : List String) (doc : Document) : List String :=
  if fields.isEmpty then o.toList doc.attributes.keys else fields

def addField (doc : Document) (postings : FilterPostings) (field : String) : FilterPostings :=
  match fieldKey doc field with
  | none => postings
  | some vk => postings.entry ∅ field fun m => m.entry ∅ vk fun ids => insert doc.id ids

def addDocument (fields : List String) (seg : FilterSegment) (doc : Document) : FilterSegment :=
  { seg with
    allDocIds := insert doc.id seg.allDocIds
    postings := (indexedFields o fields doc).foldl (addField doc) seg.postings }

/-- Remove a document, with every value and every field that has no ids left. -/
def removeDocument (seg : FilterSegment) (docId : String) : FilterSegment :=
  if docId ∈ seg.allDocIds then
    { seg with
      allDocIds := seg.allDocIds.erase docId
      postings := seg.postings.prune ∅ fun m => m.prune ∅ fun ids => ids.erase docId }
  else seg

/-- A fresh segment. -/
def build (segmentId : Nat) (schema : Json) (docs : List Document) : FilterSegment :=
  docs.foldl (addDocument o (filterFieldsFromSchema schema)) { segmentId }

/-- Merge deletes and upserts into a segment. -/
def applyDelta (schema : Json) (seg : FilterSegment) (upserts : List Document)
    (deletes : List String) : FilterSegment :=
  let fields := filterFieldsFromSchema schema
  upserts.foldl (fun s doc => addDocument o fields (s.removeDocument doc.id) doc)
    (deletes.foldl removeDocument seg)

end Changes

/-! ## Matching -/

/-- A range comparison of two values.  Values of different types do not
compare. -/
def cmpValues (lhs rhs : FilterValue) (op : CmpOp) : Bool :=
  let ord :=
    match lhs, rhs with
    | .number a, .number b => a.partialCmp b
    | .string a, .string b => some (compare a b)
    | .bool a, .bool b => some (compare a b)
    | _, _ => none
  match ord, op with
  | some .gt, .gt => true
  | some .gt, .gte => true
  | some .eq, .gte => true
  | some .lt, .lt => true
  | some .lt, .lte => true
  | some .eq, .lte => true
  | _, _ => false

/-- The ids under the keys of a field that compare with a value. -/
def rangeIds (m : HashMap ValueKey (Finset String)) (op : CmpOp) (value : FilterValue) :
    Finset String :=
  m.keys.biUnion fun vk =>
    if (parseValueKey vk).any (fun lhs => cmpValues lhs value op) then m.getOr ∅ vk else ∅

/-- The ids under the key of a value.  The key is only computed for a field that
has postings. -/
def equalIds (seg : FilterSegment) (field : String) (value : FilterValue) :
    Option (Finset String) :=
  match seg.postings.lookup field with
  | none => some ∅
  | some m => (valueKey value).map fun vk => m.getOr ∅ vk

def matchCmp (seg : FilterSegment) (field : String) (op : CmpOp) (value : FilterValue) :
    Option (Finset String) :=
  match op with
  | .eq => seg.equalIds field value
  | .ne => (seg.equalIds field value).map fun ids => seg.allDocIds \ ids
  | .gt | .gte | .lt | .lte =>
    match seg.postings.lookup field with
    | none => some ∅
    | some m => some (rangeIds m op value)

mutual

/-- The ids that match a filter according to the postings; `none` is a panic. -/
def matchingDocIds (seg : FilterSegment) : FilterExpr → Option (Finset String)
  | .and [] => some seg.allDocIds
  | .and (sub :: subs) => do
    let first ← matchingDocIds seg sub
    intersectDocIds seg first subs
  | .or subs => unionDocIds seg subs
  | .cmp field op value => seg.matchCmp field op value
termination_by structural e => e

def intersectDocIds (seg : FilterSegment) (acc : Finset String) :
    List FilterExpr → Option (Finset String)
  | [] => some acc
  | sub :: subs => do
    let ids ← matchingDocIds seg sub
    intersectDocIds seg (acc ∩ ids) subs
termination_by structural subs => subs

def unionDocIds (seg : FilterSegment) : List FilterExpr → Option (Finset String)
  | [] => some ∅
  | sub :: subs => do
    let ids ← matchingDocIds seg sub
    let rest ← unionDocIds seg subs
    some (ids ∪ rest)
termination_by structural subs => subs

end

end FilterSegment

/-! ## Nested postings -/

/-- No field without values and no value without ids. -/
structure FilterPostings.TidyAll (postings : FilterPostings) : Prop where
  fields : postings.Tidy ∅
  values : ∀ field, (postings.getOr ∅ field).Tidy ∅

namespace FilterPostings

theorem idsAt_entry (postings : FilterPostings) (f field : String) (vk key : ValueKey)
    (g : Finset String → Finset String) :
    idsAt (postings.entry ∅ f fun m => m.entry ∅ vk g) field key
      = if field = f ∧ key = vk then g (idsAt postings field key)
        else idsAt postings field key := by
  simp only [idsAt, getOr_entry]
  by_cases hf : field = f
  · subst hf
    simp only [if_true, getOr_entry, true_and]
  · simp only [hf, if_false, false_and]

theorem TidyAll.entry {postings : FilterPostings} (h : postings.TidyAll) (f : String)
    (vk : ValueKey) {g : Finset String → Finset String} (hg : ∀ ids, g ids ≠ ∅) :
    TidyAll (postings.entry ∅ f fun m => m.entry ∅ vk g) where
  fields := by
    refine h.fields.entry fun hempty => ?_
    have hlookup := HashMap.lookup_insert_ite (postings.getOr ∅ f) vk vk
      (g ((postings.getOr ∅ f).getOr ∅ vk))
    rw [← HashMap.entry, hempty, if_pos rfl] at hlookup
    cases hlookup
  values := by
    intro field
    rw [HashMap.getOr_entry]
    split
    · exact (h.values field).entry (hg _)
    · exact h.values field

theorem prune_empty (g : Finset String → Finset String) :
    HashMap.prune ∅ g (∅ : HashMap ValueKey (Finset String)) = ∅ := by
  apply ext_lookup
  intro key
  simp only [prune, lookup_filterMap, Finmap.lookup_empty, bind_none]

theorem idsAt_prune (postings : FilterPostings) {g : Finset String → Finset String}
    (hg : g ∅ = ∅) (field : String) (key : ValueKey) :
    idsAt (postings.prune ∅ fun m => m.prune ∅ g) field key = g (idsAt postings field key) := by
  rw [idsAt, getOr_prune (prune_empty g), getOr_prune hg]
  rfl

theorem tidyAll_prune (postings : FilterPostings) (g : Finset String → Finset String) :
    TidyAll (postings.prune ∅ fun m => m.prune ∅ g) where
  fields := tidy_prune _ _ _
  values := by
    intro field
    rw [getOr_prune (prune_empty g)]
    exact tidy_prune _ _ _

/-- Tidy postings are determined by the ids under every field and key. -/
theorem TidyAll.ext {postings postings' : FilterPostings} (h : postings.TidyAll)
    (h' : postings'.TidyAll)
    (heq : ∀ field key, postings.idsAt field key = postings'.idsAt field key) :
    postings = postings' := by
  refine h.fields.ext h'.fields fun field => ?_
  exact (h.values field).ext (h'.values field) (heq field)

end FilterPostings

namespace FilterSegment

/-! ## What a segment holds -/

/-- The segment holds the documents that have keys, each under its key of every
field. -/
structure Holds (seg : FilterSegment) (K : String → Option (String → Option ValueKey)) :
    Prop where
  allDocIds : ∀ id, id ∈ seg.allDocIds ↔ (K id).isSome
  postings : ∀ field key id,
    id ∈ seg.postings.idsAt field key ↔ (K id).bind (fun k => k field) = some key
  tidy : seg.postings.TidyAll

theorem holds_empty (segmentId : Nat) : Holds { segmentId } fun _ => none where
  allDocIds := by simp
  postings := by
    simp [FilterPostings.idsAt, getOr]
  tidy := ⟨tidy_empty ∅, fun _ => tidy_empty ∅⟩

variable {seg : FilterSegment} {K : String → Option (String → Option ValueKey)}

/-- What a segment holds determines it. -/
theorem Holds.eq {seg' : FilterSegment} (h : seg.Holds K) (h' : seg'.Holds K)
    (hid : seg.segmentId = seg'.segmentId) : seg = seg' := by
  have hids : seg.allDocIds = seg'.allDocIds := by
    ext id
    rw [h.allDocIds, h'.allDocIds]
  have hpostings : seg.postings = seg'.postings := by
    refine h.tidy.ext h'.tidy fun field key => ?_
    ext id
    rw [h.postings, h'.postings]
  cases seg
  cases seg'
  simp_all

/-- The keys under which a document is indexed. -/
def docKeys (fields : List String) (doc : Document) (field : String) : Option ValueKey :=
  if fields = [] ∨ field ∈ fields then fieldKey doc field else none

theorem mem_idsAt_addField (doc : Document) (postings : FilterPostings) (f field : String)
    (key : ValueKey) (id : String) :
    id ∈ (addField doc postings f).idsAt field key ↔
      id ∈ postings.idsAt field key ∨ (id = doc.id ∧ field = f ∧ fieldKey doc f = some key) := by
  rw [addField]
  cases fieldKey doc f with
  | none => simp
  | some vk =>
    simp only [FilterPostings.idsAt_entry]
    split
    · rename_i h
      obtain ⟨rfl, rfl⟩ := h
      simp [or_comm]
    · rename_i h
      grind

theorem mem_idsAt_addFields (doc : Document) (fields : List String) (postings : FilterPostings)
    (field : String) (key : ValueKey) (id : String) :
    id ∈ (fields.foldl (addField doc) postings).idsAt field key ↔
      id ∈ postings.idsAt field key ∨
        (id = doc.id ∧ field ∈ fields ∧ fieldKey doc field = some key) := by
  induction fields generalizing postings with
  | nil => simp
  | cons f fields ih =>
    rw [List.foldl_cons, ih, mem_idsAt_addField]
    grind

theorem tidyAll_addFields (doc : Document) (fields : List String) {postings : FilterPostings}
    (h : postings.TidyAll) : (fields.foldl (addField doc) postings).TidyAll := by
  induction fields generalizing postings with
  | nil => exact h
  | cons f fields ih =>
    refine ih ?_
    rw [addField]
    cases fieldKey doc f with
    | none => exact h
    | some vk => exact h.entry f vk fun ids => insert_ne_empty _ _

/-- A field of the document is visited exactly if it counts for the index. -/
theorem mem_indexedFields (o : IterOrder String) (fields : List String) (doc : Document)
    (field : String) (key : ValueKey) :
    (field ∈ indexedFields o fields doc ∧ fieldKey doc field = some key) ↔
      docKeys fields doc field = some key := by
  cases fields with
  | nil =>
    simp only [indexedFields, List.isEmpty_nil, if_true, o.mem_toList]
    refine ⟨And.right, fun h => ⟨?_, h⟩⟩
    obtain ⟨v, hv, -⟩ := bind_eq_some_iff.mp h
    exact Finmap.mem_keys.mpr (Finmap.mem_of_lookup_eq_some hv)
  | cons f fs =>
    simp only [indexedFields, docKeys]
    by_cases h : field ∈ f :: fs
    · simp [h]
    · simp [h]

theorem Holds.add (h : seg.Holds K) (o : IterOrder String) (fields : List String) (doc : Document)
    (habsent : K doc.id = none) :
    (addDocument o fields seg doc).Holds (Function.update K doc.id (docKeys fields doc)) where
  allDocIds := by
    intro id
    simp only [addDocument, mem_insert, h.allDocIds]
    by_cases hid : id = doc.id
    · simp [hid]
    · simp [hid]
  postings := by
    intro field key id
    simp only [addDocument, mem_idsAt_addFields, mem_indexedFields, h.postings]
    by_cases hid : id = doc.id
    · subst hid
      simp [habsent]
    · simp [hid]
  tidy := tidyAll_addFields doc _ h.tidy

theorem Holds.remove (h : seg.Holds K) (docId : String) :
    (seg.removeDocument docId).Holds (Function.update K docId none) := by
  rw [removeDocument]
  split
  · refine ⟨?_, ?_, FilterPostings.tidyAll_prune _ _⟩
    · intro id
      simp only [mem_erase, h.allDocIds]
      by_cases hid : id = docId
      · simp [hid]
      · simp [hid]
    · intro field key id
      rw [FilterPostings.idsAt_prune _ (erase_empty docId), mem_erase, h.postings]
      by_cases hid : id = docId
      · simp [hid]
      · simp [hid]
  · rename_i hnot
    rw [h.allDocIds, not_isSome_iff_eq_none] at hnot
    rw [← hnot, update_eq_self]
    exact h

/-! ## What a segment answers -/

/-- The value that the postings give to a comparison of a document with the given
keys. -/
def keyCmp (k : String → Option ValueKey) (field : String) (op : CmpOp) (value : FilterValue) :
    Bool :=
  match op with
  | .eq => (valueKey value).any fun vk => k field = some vk
  | .ne => !(valueKey value).any fun vk => k field = some vk
  | .gt | .gte | .lt | .lte => ((k field).bind parseValueKey).any fun lhs => cmpValues lhs value op

/-- The ids are those of the documents whose keys pass a test. -/
def Answers (K : String → Option (String → Option ValueKey)) (ids : Finset String)
    (test : (String → Option ValueKey) → Bool) : Prop :=
  ∀ id, id ∈ ids ↔ ∃ k, K id = some k ∧ test k = true

section Answers

variable {seg : FilterSegment} {K : String → Option (String → Option ValueKey)}
  {ids ids' : Finset String} {test test' : (String → Option ValueKey) → Bool}

theorem Answers.empty : Answers K ∅ fun _ => false := by
  intro id
  simp

theorem Answers.all (h : seg.Holds K) : Answers K seg.allDocIds fun _ => true := by
  intro id
  rw [h.allDocIds, isSome_iff_exists]
  simp

theorem Answers.inter (h : Answers K ids test) (h' : Answers K ids' test') :
    Answers K (ids ∩ ids') fun k => test k && test' k := by
  intro id
  rw [mem_inter, h id, h' id]
  cases K id with
  | none => simp
  | some k => simp

theorem Answers.union (h : Answers K ids test) (h' : Answers K ids' test') :
    Answers K (ids ∪ ids') fun k => test k || test' k := by
  intro id
  rw [mem_union, h id, h' id]
  cases K id with
  | none => simp
  | some k => simp

theorem Answers.diff (hseg : seg.Holds K) (h : Answers K ids test) :
    Answers K (seg.allDocIds \ ids) fun k => !test k := by
  intro id
  rw [mem_sdiff, Answers.all hseg id, h id]
  cases K id with
  | none => simp
  | some k => simp

theorem answers_idsAt (h : seg.Holds K) (field : String) (vk : ValueKey) :
    Answers K (seg.postings.idsAt field vk) fun k => k field = some vk := by
  intro id
  rw [h.postings, bind_eq_some_iff]
  simp

variable {value : FilterValue}

theorem answers_equalIds (h : seg.Holds K) (field : String) {vk : ValueKey}
    (hvk : valueKey value = some vk) :
    ∃ ids, seg.equalIds field value = some ids ∧ Answers K ids fun k => k field = some vk := by
  refine ⟨seg.postings.idsAt field vk, ?_, answers_idsAt h field vk⟩
  cases hlookup : seg.postings.lookup field with
  | none => simp [equalIds, FilterPostings.idsAt, getOr, hlookup]
  | some m => simp [equalIds, FilterPostings.idsAt, getOr, hlookup, hvk]

theorem answers_rangeIds (h : seg.Holds K) (field : String) (op : CmpOp) (value : FilterValue) :
    Answers K (rangeIds (seg.postings.getOr ∅ field) op value) fun k =>
      ((k field).bind parseValueKey).any fun lhs => cmpValues lhs value op := by
  intro id
  have hat : ∀ vk, id ∈ (seg.postings.getOr ∅ field).getOr ∅ vk ↔
      (K id).bind (fun k => k field) = some vk := fun vk => h.postings field vk id
  simp only [rangeIds, mem_biUnion]
  constructor
  · rintro ⟨vk, -, hid⟩
    split at hid
    · rename_i hcmp
      obtain ⟨k, hk, hfield⟩ := bind_eq_some_iff.mp ((hat vk).mp hid)
      exact ⟨k, hk, by rw [hfield]; exact hcmp⟩
    · cases hid
  · rintro ⟨k, hk, hcmp⟩
    cases hfield : k field with
    | none =>
      rw [hfield] at hcmp
      cases hcmp
    | some vk =>
      rw [hfield, bind_some] at hcmp
      have hid := (hat vk).mpr (by rw [hk]; exact hfield)
      refine ⟨vk, ?_, by rw [if_pos hcmp]; exact hid⟩
      by_contra hnone
      rw [Finmap.mem_keys, ← Finmap.lookup_eq_none] at hnone
      rw [getOr, hnone] at hid
      cases hid

/-- A comparison is answered from the keys of every document. -/
theorem answers_matchCmp (h : seg.Holds K) (field : String) (op : CmpOp) {vk : ValueKey}
    (hvk : valueKey value = some vk) :
    ∃ ids, seg.matchCmp field op value = some ids ∧
      Answers K ids fun k => keyCmp k field op value := by
  obtain ⟨ids, hequal, hids⟩ := answers_equalIds h field hvk
  have hrange : (match seg.postings.lookup field with
      | none => some ∅
      | some m => some (rangeIds m op value)) =
        some (rangeIds (seg.postings.getOr ∅ field) op value) := by
    rw [getOr]
    cases seg.postings.lookup field with
    | none => rfl
    | some m => rfl
  cases op with
  | eq =>
    refine ⟨ids, hequal, ?_⟩
    simp only [keyCmp, hvk]
    exact hids
  | ne =>
    refine ⟨seg.allDocIds \ ids, by rw [matchCmp, hequal]; rfl, ?_⟩
    simp only [keyCmp, hvk]
    exact hids.diff h
  | gt => exact ⟨_, hrange, answers_rangeIds h field .gt value⟩
  | gte => exact ⟨_, hrange, answers_rangeIds h field .gte value⟩
  | lt => exact ⟨_, hrange, answers_rangeIds h field .lt value⟩
  | lte => exact ⟨_, hrange, answers_rangeIds h field .lte value⟩

theorem exists_valueKey (h : (!value.isRefNew) = true) : ∃ vk, valueKey value = some vk := by
  cases value with
  | refNew field => cases h
  | string s => exact ⟨_, rfl⟩
  | number x => exact ⟨_, rfl⟩
  | bool b => exact ⟨_, rfl⟩
  | null => exact ⟨_, rfl⟩

mutual

/-- A segment answers a filter without references by evaluating it on the keys of
every document. -/
theorem answers_matchingDocIds (h : seg.Holds K) : ∀ e : FilterExpr, e.noRefNew = true →
    ∃ ids, seg.matchingDocIds e = some ids ∧ Answers K ids fun k => e.evalWith (keyCmp k)
  | .and [], _ => ⟨_, rfl, Answers.all h⟩
  | .and (sub :: subs), href => by
    obtain ⟨hsub, hsubs⟩ := Bool.and_eq_true_iff.mp href
    obtain ⟨first, hfirst, hanswer⟩ := answers_matchingDocIds h sub hsub
    obtain ⟨ids, hids, hall⟩ := answers_intersectDocIds h subs hsubs hanswer
    refine ⟨ids, ?_, hall⟩
    rw [matchingDocIds, hfirst]
    exact hids
  | .or subs, href => answers_unionDocIds h subs href
  | .cmp field op _, href => answers_matchCmp h field op (exists_valueKey href).choose_spec
termination_by structural e => e

theorem answers_intersectDocIds (h : seg.Holds K) : ∀ es : List FilterExpr,
    FilterExpr.allCmpsOf (fun _ _ value => !value.isRefNew) es = true →
    ∀ {acc test}, Answers K acc test →
    ∃ ids, seg.intersectDocIds acc es = some ids ∧
      Answers K ids fun k => test k && FilterExpr.evalWithAll (keyCmp k) es
  | [], _, acc, test, hacc => by
    refine ⟨acc, rfl, ?_⟩
    simpa only [FilterExpr.evalWithAll, Bool.and_true] using hacc
  | e :: es, href, acc, test, hacc => by
    obtain ⟨he, hes⟩ := Bool.and_eq_true_iff.mp href
    obtain ⟨ids, hids, hanswer⟩ := answers_matchingDocIds h e he
    obtain ⟨ids', hids', hall⟩ := answers_intersectDocIds h es hes (hacc.inter hanswer)
    refine ⟨ids', by rw [intersectDocIds, hids]; exact hids', ?_⟩
    simpa only [FilterExpr.evalWithAll, Bool.and_assoc] using hall
termination_by structural es => es

theorem answers_unionDocIds (h : seg.Holds K) : ∀ es : List FilterExpr,
    FilterExpr.allCmpsOf (fun _ _ value => !value.isRefNew) es = true →
    ∃ ids, seg.unionDocIds es = some ids ∧
      Answers K ids fun k => FilterExpr.evalWithAny (keyCmp k) es
  | [], _ => ⟨∅, rfl, Answers.empty⟩
  | e :: es, href => by
    obtain ⟨he, hes⟩ := Bool.and_eq_true_iff.mp href
    obtain ⟨ids, hids, hanswer⟩ := answers_matchingDocIds h e he
    obtain ⟨rest, hrest, hany⟩ := answers_unionDocIds h es hes
    refine ⟨ids ∪ rest, ?_, hanswer.union hany⟩
    rw [unionDocIds, hids, hrest]
    rfl
termination_by structural es => es

end

end Answers

/-! ## Segments and documents -/

def keysOf (fields : List String) (docs : DocMap) (id : String) :
    Option (String → Option ValueKey) :=
  (docs.get id).map (docKeys fields)

/-- The segment is the one obtained by adding each document of the map once. -/
def Represents (o : IterOrder String) (schema : Json) (seg : FilterSegment) (docs : DocMap) :
    Prop :=
  ∃ list, docs.Lists list ∧ seg = build o seg.segmentId schema list

theorem keysOf_erase (fields : List String) (docs : DocMap) (id : String) :
    keysOf fields (docs.erase id) = Function.update (keysOf fields docs) id none := by
  funext i
  simp only [keysOf, DocMap.get, lookup_erase_ite, update_apply]
  by_cases h : i = id
  · simp [h]
  · simp [h]

theorem keysOf_insert (fields : List String) (docs : DocMap) (doc : Document) :
    keysOf fields (docs.insert doc.id doc.attributes)
      = Function.update (keysOf fields docs) doc.id (docKeys fields doc) := by
  funext i
  simp only [keysOf, DocMap.get, lookup_insert_ite, update_apply]
  by_cases h : i = doc.id
  · simp [h]
  · simp [h]

theorem removeDocument_segmentId (seg : FilterSegment) (docId : String) :
    (seg.removeDocument docId).segmentId = seg.segmentId := by
  rw [removeDocument]
  split <;> rfl

section Documents

variable {o : IterOrder String} {schema : Json}

/-- Adding and removing change the segment as they change the documents. -/
theorem mirrors (o : IterOrder String) (fields : List String) (segmentId : Nat) :
    Mirrors (fun seg docs => seg.segmentId = segmentId ∧ seg.Holds (keysOf fields docs))
      removeDocument (addDocument o fields) where
  remove := by
    rintro seg docs id ⟨rfl, h⟩
    rw [keysOf_erase]
    exact ⟨removeDocument_segmentId seg id, h.remove id⟩
  add := by
    rintro seg docs doc ⟨rfl, h⟩ hnew
    rw [keysOf_insert]
    exact ⟨rfl, h.add o fields doc (by simp [keysOf, DocMap.get, hnew])⟩

variable {docs : DocMap}

theorem holds_build (o : IterOrder String) (schema : Json) {list : List Document}
    (hlist : docs.Lists list) (segmentId : Nat) :
    (build o segmentId schema list).segmentId = segmentId ∧
      (build o segmentId schema list).Holds (keysOf (filterFieldsFromSchema schema) docs) :=
  (mirrors o _ segmentId).build ⟨rfl, holds_empty segmentId⟩ hlist

theorem represents_iff {seg : FilterSegment} :
    seg.Represents o schema docs ↔ seg.Holds (keysOf (filterFieldsFromSchema schema) docs) := by
  constructor
  · rintro ⟨list, hlist, heq⟩
    rw [heq]
    exact (holds_build o schema hlist _).2
  · intro h
    have hlist := docs.lists_iter o
    obtain ⟨hid, hbuilt⟩ := holds_build o schema hlist seg.segmentId
    exact ⟨_, hlist, h.eq hbuilt hid.symm⟩

theorem represents_build (o : IterOrder String) (schema : Json) {list : List Document}
    (hlist : docs.Lists list) (segmentId : Nat) :
    (build o segmentId schema list).Represents o schema docs :=
  represents_iff.mpr (holds_build o schema hlist segmentId).2

/-- A delta does to a segment what it does to the documents. -/
theorem Represents.applyDelta {seg : FilterSegment} (h : seg.Represents o schema docs)
    (upserts : List Document) (deletes : List String) :
    (applyDelta o schema seg upserts deletes).Represents o schema
      (docs.mergeDelta upserts deletes) := by
  rw [represents_iff]
  exact ((mirrors o _ seg.segmentId).mergeDelta upserts deletes ⟨rfl, represents_iff.mp h⟩).2

end Documents

end FilterSegment

end OpenPuffer
