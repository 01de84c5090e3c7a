import OpenPuffer.Search.Context

/-!
# Filters and the filter index

Without a filter segment every document is evaluated.  With one, the segment answers for the
documents outside the tail, and a strong query evaluates those of the tail.  The segment and the
evaluator decide a comparison differently (`misread`):

- a comparison with null, on a document without a scalar in the field;
- a field that the schema does not make filterable, while the comparison holds;
- the field `id`, which is the document id for the evaluator only;
- the two zeros, which are equal and have different keys;
- an order between a boolean and a number, which only the evaluator has.

A strong filter chooses the documents that satisfy it exactly if negating the misread
comparisons changes the value of the filter on no document outside the tail.
-/

namespace OpenPuffer

open Option FilterValue FilterSegment

/-! ## Choosing documents -/

/-- Evaluate the filter on one document of the tail. -/
def correctTailDoc (ctx : QueryContext) (expr : FilterExpr) (ids : Finset String) (id : String) :
    Finset String :=
  match ctx.docs.get id with
  | none => ids.erase id
  | some doc => if evalFilter expr doc then insert id ids else ids.erase id

/-- The ids that match a filter; `none` is a panic. -/
def matchingDocIdsForFilter (o : IterOrder String) (ctx : QueryContext) (expr : FilterExpr) :
    Option (Finset String) :=
  match ctx.filterIndex with
  | none => some (ctx.docs.idsWhere (evalFilter expr))
  | some seg =>
    (seg.matchingDocIds expr).map fun ids =>
      match ctx.consistency with
      | .strong =>
        ((o.toList ctx.tailDocIds).foldl (correctTailDoc ctx expr) ids).filter fun id =>
          id ∈ ctx.docs
      | .eventual => ids

/-! ## Misread comparisons -/

/-- The order of two values satisfies the operator. -/
def CmpOp.holds (ord : Option Ordering) : CmpOp → Bool
  | .eq | .ne => false
  | .gt => ord = some .gt
  | .gte => ord = some .gt ∨ ord = some .eq
  | .lt => ord = some .lt
  | .lte => ord = some .lt ∨ ord = some .eq

/-- The comparison holds between two values.  For `Ne` this is equality. -/
def FilterValue.meets (op : CmpOp) (value own : FilterValue) : Bool :=
  match op with
  | .eq | .ne => own.eq value
  | .gt | .gte | .lt | .lte => op.holds (compareValues own value)

/-- Two strings, two numbers or two booleans. -/
def FilterValue.sameType : FilterValue → FilterValue → Bool
  | .string _, .string _ | .number _, .number _ | .bool _, .bool _ => true
  | _, _ => false

/-- The comparison holds between two values that a segment can compare: they are
the same, or for an order of the same type. -/
def FilterValue.meetsAlike (op : CmpOp) (value own : FilterValue) : Bool :=
  meets op value own &&
    match op with
    | .eq | .ne => own = value
    | .gt | .gte | .lt | .lte => own.sameType value

/-- The scalar of a document in a field that is indexed. -/
def indexedValue (fields : List String) (doc : Document) (field : String) : Option FilterValue :=
  if fields = [] ∨ field ∈ fields then (doc.attributes.lookup field).bind attrToFilterValue
  else none

/-- The segment decides the comparison differently from the evaluator. -/
def misread (fields : List String) (doc : Document) (field : String) (op : CmpOp)
    (value : FilterValue) : Bool :=
  match docFieldValue doc field with
  | none => value = .null ∧ (op = .eq ∨ op = .ne)
  | some own =>
    let posted := (indexedValue fields doc field).any (FilterValue.meetsAlike op value)
    FilterValue.meets op value own != posted

/-- The value of a filter on a document with the misread comparisons negated. -/
def evalMisread (fields : List String) (expr : FilterExpr) (doc : Document) : Bool :=
  expr.evalWith fun field op value =>
    evalCmp doc field op value none false ^^ misread fields doc field op value

/-! ## Scalars -/

/-- A value that an attribute can have. -/
inductive FilterValue.Scalar : FilterValue → Prop where
  | string (s : String) : Scalar (.string s)
  | bool (b : Bool) : Scalar (.bool b)
  | number (x : Fp) (h : x ≠ .nan) : Scalar (.number x)

theorem Number.asF64_ne_nan (n : Number) : n.asF64 ≠ .nan := by
  cases n with
  | posInt n => exact Fp.noConfusion
  | negInt n => exact Fp.noConfusion
  | float q => exact Fp.noConfusion
  | negZero => exact Fp.noConfusion

variable {own : FilterValue} {doc : Document} {field : String} {fields : List String}

theorem scalar_of_attr {v : Json} (h : attrToFilterValue v = some own) : own.Scalar := by
  cases v with
  | null => cases h
  | arr items => cases h
  | obj fields => cases h
  | str s =>
    cases h
    exact .string s
  | bool b =>
    cases h
    exact .bool b
  | num n =>
    cases h
    exact .number _ n.asF64_ne_nan

theorem scalar_of_docFieldValue (h : docFieldValue doc field = some own) : own.Scalar := by
  rw [docFieldValue] at h
  split at h
  · cases h
    exact .string doc.id
  · obtain ⟨v, -, hv⟩ := bind_eq_some_iff.mp h
    exact scalar_of_attr hv

theorem scalar_of_indexedValue (h : indexedValue fields doc field = some own) : own.Scalar := by
  rw [indexedValue] at h
  split at h
  · obtain ⟨v, -, hv⟩ := bind_eq_some_iff.mp h
    exact scalar_of_attr hv
  · cases h

/-- A document without a scalar in a field has no indexed one. -/
theorem indexedValue_eq_none (h : docFieldValue doc field = none) :
    indexedValue fields doc field = none := by
  rw [docFieldValue] at h
  split at h
  · cases h
  · rw [indexedValue, h, ite_self]

theorem Fp.eq_self {x : Fp} (h : x ≠ .nan) : x.eq x = true := by
  cases x with
  | num q => simp [Fp.eq, Fp.partialCmp, compareOfLessAndEq]
  | negZero => simp [Fp.eq, Fp.partialCmp, compareOfLessAndEq]
  | inf neg => simp [Fp.eq, Fp.partialCmp]
  | nan => exact absurd rfl h

namespace FilterValue

variable {own value : FilterValue}

theorem Scalar.eq_self (h : own.Scalar) : own.eq own = true := by
  cases h with
  | string s => simp [eq]
  | bool b => simp [eq]
  | number x hx => exact Fp.eq_self hx

theorem Scalar.eq_null (h : own.Scalar) : own.eq .null = false := by
  cases h with
  | string s => rfl
  | bool b => rfl
  | number x hx => rfl

/-- The key of a scalar is the key of no other value. -/
theorem Scalar.valueKey_eq_iff (h : own.Scalar) : valueKey own = valueKey value ↔ own = value := by
  cases h with
  | string s => cases value <;> simp [valueKey]
  | bool b => cases value <;> simp [valueKey]
  | number x hx => cases value <;> simp [valueKey]

theorem Scalar.meetsAlike_eq (h : own.Scalar) :
    meetsAlike .eq value own = decide (own = value) := by
  by_cases heq : own = value
  · subst heq
    simp [meetsAlike, meets, h.eq_self]
  · simp [meetsAlike, heq]

/-- Segments and the evaluator order two values of one type in the same way, and
a segment orders no others. -/
theorem cmpValues_eq (op : CmpOp) : FilterSegment.cmpValues own value op
    = op.holds (if own.sameType value then compareValues own value else none) := by
  unfold cmpValues
  cases own <;> cases value <;> simp only [compareValues]
  case number.number a b => rcases a.partialCmp b with _ | _ | _ | _ <;> cases op <;> rfl
  case string.string a b => cases compare a b <;> cases op <;> rfl
  case bool.bool a b => cases compare a b <;> cases op <;> rfl
  all_goals cases op <;> rfl

theorem cmpValues_of_order {op : CmpOp} (heq : op ≠ .eq) (hne : op ≠ .ne) :
    FilterSegment.cmpValues own value op = meetsAlike op value own := by
  have hnone : op.holds none = false := by
    cases op <;> rfl
  have hmeets : meetsAlike op value own
      = (op.holds (compareValues own value) && own.sameType value) := by
    cases op with
    | eq => exact absurd rfl heq
    | ne => exact absurd rfl hne
    | gt => rfl
    | gte => rfl
    | lt => rfl
    | lte => rfl
  rw [cmpValues_eq, hmeets]
  cases own.sameType value with
  | false => simpa using hnone
  | true => simp

/-- The key of a scalar can be read back. -/
theorem Scalar.parseValueKey_valueKey (h : own.Scalar) :
    (valueKey own).bind parseValueKey = some own := by
  cases h with
  | string s => rfl
  | bool b => rfl
  | number x hx => rfl

end FilterValue

/-! ## One comparison -/

section Comparison

variable {fields : List String} {doc : Document} {field : String} {value : FilterValue}

theorem docKeys_eq : FilterSegment.docKeys fields doc field
    = (indexedValue fields doc field).bind valueKey := by
  rw [docKeys, indexedValue]
  split
  · rw [fieldKey, bind_assoc]
  · rfl

/-- A segment decides a comparison from the indexed value. -/
theorem keyCmp_docKeys (op : CmpOp) (href : value.isRefNew = false) :
    FilterSegment.keyCmp (FilterSegment.docKeys fields doc) field op value
      = ((indexedValue fields doc field).any (FilterValue.meetsAlike op value) ^^ op = .ne) := by
  have hplain : (!value.isRefNew) = true := by
    rw [href]
    rfl
  obtain ⟨vk, hvk⟩ := exists_valueKey hplain
  have hequal : decide (docKeys fields doc field = some vk)
      = (indexedValue fields doc field).any (meetsAlike .eq value) := by
    rw [docKeys_eq]
    cases hi : indexedValue fields doc field with
    | none => rfl
    | some own =>
      have hscalar := scalar_of_indexedValue hi
      rw [any_some, hscalar.meetsAlike_eq, ← hvk]
      exact decide_eq_decide.mpr hscalar.valueKey_eq_iff
  have horder : op ≠ .eq → op ≠ .ne →
      ((docKeys fields doc field).bind parseValueKey).any
          (fun lhs => cmpValues lhs value op)
        = (indexedValue fields doc field).any (meetsAlike op value) := by
    intro heq hne
    rw [docKeys_eq]
    cases hi : indexedValue fields doc field with
    | none => rfl
    | some own =>
      rw [bind_some, (scalar_of_indexedValue hi).parseValueKey_valueKey]
      exact cmpValues_of_order heq hne
  cases op with
  | eq => simpa [keyCmp, hvk] using hequal
  | ne =>
    have hsame : meetsAlike .ne value = meetsAlike .eq value := rfl
    simpa [keyCmp, hvk, hsame] using hequal
  | gt => simpa [keyCmp] using horder (by decide) (by decide)
  | gte => simpa [keyCmp] using horder (by decide) (by decide)
  | lt => simpa [keyCmp] using horder (by decide) (by decide)
  | lte => simpa [keyCmp] using horder (by decide) (by decide)

/-- The evaluator decides it from the document's own value. -/
theorem evalCmp_eq (op : CmpOp) (href : value.isRefNew = false) :
    evalCmp doc field op value none false
      = match docFieldValue doc field with
        | none => (value = .null ∧ (op = .eq ∨ op = .ne)) ^^ op = .ne
        | some own => FilterValue.meets op value own ^^ op = .ne := by
  have hrhs : resolveRhs none false value = some value := by
    cases value with
    | refNew f => cases href
    | string s => rfl
    | number x => rfl
    | bool b => rfl
    | null => rfl
  cases hown : docFieldValue doc field with
  | none =>
    cases op <;> cases value <;> simp_all [evalCmp]
  | some own =>
    have hscalar := scalar_of_docFieldValue hown
    have hnull := hscalar.eq_null
    cases op <;> cases value <;> simp_all [evalCmp, meets, CmpOp.holds]

/-- The segment decides a comparison as the evaluator does, unless it misreads
it. -/
theorem keyCmp_eq_misread (op : CmpOp) (href : value.isRefNew = false) :
    FilterSegment.keyCmp (FilterSegment.docKeys fields doc) field op value
      = (evalCmp doc field op value none false ^^ misread fields doc field op value) := by
  rw [keyCmp_docKeys op href, evalCmp_eq op href, misread]
  generalize decide (op = .ne) = negated
  cases hown : docFieldValue doc field with
  | none =>
    rw [indexedValue_eq_none hown]
    generalize decide (value = .null ∧ (op = .eq ∨ op = .ne)) = absent
    cases absent <;> cases negated <;> rfl
  | some own =>
    simp only
    generalize meets op value own = m
    generalize (indexedValue fields doc field).any _ = n
    cases m <;> cases n <;> cases negated <;> rfl

end Comparison

/-- A segment evaluates a filter on a document with the misread comparisons
negated. -/
theorem evalWith_keyCmp (doc : Document) {expr : FilterExpr} (href : expr.noRefNew = true) :
    expr.evalWith (FilterSegment.keyCmp (FilterSegment.docKeys fields doc))
      = evalMisread fields expr doc := by
  refine FilterExpr.evalWith_congr (fun field op value hvalue => ?_) expr href
  exact keyCmp_eq_misread op (by simpa using hvalue)

/-- A filter is evaluated right on a document that no comparison of it misreads. -/
theorem evalMisread_eq_evalFilter {expr : FilterExpr}
    (h : expr.allCmps (fun field op value => !misread fields doc field op value) = true) :
    evalMisread fields expr doc = evalFilter expr doc := by
  rw [evalFilter, evalFilterWithNew_eq]
  refine FilterExpr.evalWith_congr (fun field op value hread => ?_) expr h
  rw [Bool.not_eq_true'] at hread
  rw [hread, Bool.xor_false]

/-! ## Filters on a context -/

section Context

variable {o : IterOrder String} {ctx : QueryContext} {expr : FilterExpr}

theorem mem_correctTailDoc {ids : Finset String} {k id : String} :
    id ∈ correctTailDoc ctx expr ids k ↔
      if id = k then id ∈ ctx.docs.idsWhere (evalFilter expr) else id ∈ ids := by
  rw [correctTailDoc]
  by_cases hid : id = k
  · subst hid
    rw [DocMap.mem_idsWhere]
    cases ctx.docs.get id with
    | none => simp
    | some doc => cases hp : evalFilter expr doc <;> simp [hp]
  · rw [if_neg hid]
    cases ctx.docs.get k with
    | none => simp [hid]
    | some doc => cases hp : evalFilter expr doc <;> simp [hp, hid]

/-- Documents that were visited are evaluated, the others stay. -/
theorem mem_correctTailDocs (visited : List String) {ids : Finset String} {id : String} :
    id ∈ visited.foldl (correctTailDoc ctx expr) ids ↔
      if id ∈ visited then id ∈ ctx.docs.idsWhere (evalFilter expr) else id ∈ ids := by
  induction visited generalizing ids with
  | nil => simp
  | cons k visited ih =>
    rw [List.foldl_cons, ih, mem_correctTailDoc]
    by_cases hlater : id ∈ visited
    · simp [hlater]
    · simp [hlater]

/-- Without a segment the filter is evaluated on every document. -/
theorem matchingDocIdsForFilter_of_no_index (h : ctx.filterIndex = none) :
    matchingDocIdsForFilter o ctx expr = some (ctx.docs.idsWhere (evalFilter expr)) := by
  rw [matchingDocIdsForFilter, h]

/-- What a strong query returns for a filter: the documents outside the tail that
satisfy it with the misread comparisons negated, and those of the tail that
satisfy it. -/
theorem strong_filter_answer {seg : FilterSegment} {schema : Json} {indexed : DocMap}
    {entries : List WalEntry} {o' : IterOrder String} (hctx : ctx.CoversTail indexed entries)
    (hstrong : ctx.consistency = .strong) (hindex : ctx.filterIndex = some seg)
    (hseg : seg.Represents o' schema indexed) (href : expr.noRefNew = true) :
    ∃ ids, matchingDocIdsForFilter o ctx expr = some ids ∧
      ∀ id, id ∈ ids ↔ ∃ doc, ctx.docs.get id = some doc ∧
        (if id ∈ ctx.tailDocIds then evalFilter expr doc
          else evalMisread (filterFieldsFromSchema schema) expr doc) = true := by
  obtain ⟨ids, hids, hanswer⟩ :=
    answers_matchingDocIds (represents_iff.mp hseg) expr href
  refine ⟨((o.toList ctx.tailDocIds).foldl (correctTailDoc ctx expr) ids).filter fun id =>
    id ∈ ctx.docs, ?_, ?_⟩
  · rw [matchingDocIdsForFilter, hindex]
    simp only [hids, hstrong, map_some]
  · intro id
    rw [Finset.mem_filter, mem_correctTailDocs, DocMap.mem_iff_get]
    simp only [o.mem_toList]
    by_cases htail : id ∈ ctx.tailDocIds
    · simp only [htail, DocMap.mem_idsWhere]
      exact ⟨And.left, fun h => ⟨h, h.imp fun _ => And.left⟩⟩
    · simp only [htail]
      rw [hanswer id, keysOf, ← hctx.get_eq htail]
      cases ctx.docs.get id with
      | none => simp
      | some doc => simp [evalWith_keyCmp doc href]

/-- A strong filter chooses exactly the documents that satisfy it if and only if
no document outside the tail changes its answer when the misread comparisons are
negated. -/
theorem strong_filter_matches_iff {seg : FilterSegment} {schema : Json} {indexed : DocMap}
    {entries : List WalEntry} {o' : IterOrder String} (hctx : ctx.CoversTail indexed entries)
    (hstrong : ctx.consistency = .strong) (hindex : ctx.filterIndex = some seg)
    (hseg : seg.Represents o' schema indexed) (href : expr.noRefNew = true) :
    matchingDocIdsForFilter o ctx expr = some (ctx.docs.idsWhere (evalFilter expr)) ↔
      ∀ id ∉ ctx.tailDocIds, ∀ doc, ctx.docs.get id = some doc →
        evalMisread (filterFieldsFromSchema schema) expr doc = evalFilter expr doc := by
  obtain ⟨ids, hrun, hids⟩ := strong_filter_answer (o := o) hctx hstrong hindex hseg href
  rw [hrun, some.injEq]
  exact QueryContext.eq_idsWhere_iff hids

end Context

/-! ## A namespace with an optional field -/

def tierSchema : Json := .obj [("tier", .str "string")]

/-- One document has a tier and one has none. -/
def tierDocs : DocMap :=
  (((∅ : DocMap).insert "a" ((∅ : Attributes).insert "tier" (.str "pro"))).insert "b" ∅)

def tierIndex : FilterSegment :=
  .build (.sorted String) 1 tierSchema
    ((HashMap.iter (.sorted String) tierDocs).map fun p => ⟨p.1, p.2⟩)

/-- A third document that was written after the two had been indexed. -/
def tierTail : WalEntry :=
  { upserts := [⟨"c", (∅ : Attributes).insert "tier" (.str "pro")⟩] }

def tierContext : QueryContext where
  docs := applyEntry tierDocs tierTail
  filterIndex := some tierIndex
  tailDocIds := {"c"}

theorem tierContext_coversTail : tierContext.CoversTail tierDocs [tierTail] :=
  ⟨rfl, by decide⟩

theorem tierIndex_represents : tierIndex.Represents (.sorted String) tierSchema tierDocs :=
  represents_build _ _ (tierDocs.lists_iter _) 1

/-- The documents of one tier are found, in the index and in the tail. -/
theorem tier_filter_matches :
    matchingDocIdsForFilter (.sorted String) tierContext (.cmp "tier" .eq (.string "pro"))
      = some (tierContext.docs.idsWhere (evalFilter (.cmp "tier" .eq (.string "pro")))) := by
  refine (strong_filter_matches_iff tierContext_coversTail rfl rfl tierIndex_represents rfl).mpr ?_
  intro id _ doc hdoc
  refine evalMisread_eq_evalFilter ?_
  have hread : ∀ id ∈ tierContext.docs.keys, (tierContext.docs.get id).all fun doc =>
      !misread (filterFieldsFromSchema tierSchema) doc "tier" .eq (.string "pro") := by
    decide +kernel
  have hid := hread id (Finmap.mem_keys.mpr (DocMap.mem_iff_get.mpr ⟨doc, hdoc⟩))
  rw [hdoc] at hid
  exact hid

/-- A document without the field satisfies `["tier", "Eq", null]`, and no posting
says so: once it is indexed the filter does not find it. -/
theorem indexed_document_without_field_is_missed :
    parseFilter (.arr [.str "tier", .str "Eq", .null]) = .ok (.cmp "tier" .eq .null) ∧
      (FilterExpr.cmp "tier" .eq .null).noRefNew = true ∧
      tierContext.CoversTail tierDocs [tierTail] ∧ tierContext.consistency = .strong ∧
      tierContext.filterIndex = some tierIndex ∧
      tierIndex.Represents (.sorted String) tierSchema tierDocs ∧
      matchingDocIdsForFilter (.sorted String) tierContext (.cmp "tier" .eq .null) = some ∅ ∧
      tierContext.docs.idsWhere (evalFilter (.cmp "tier" .eq .null)) = {"b"} := by
  refine ⟨rfl, rfl, tierContext_coversTail, rfl, rfl, tierIndex_represents, ?_, ?_⟩
  · decide +kernel
  · decide +kernel

end OpenPuffer
