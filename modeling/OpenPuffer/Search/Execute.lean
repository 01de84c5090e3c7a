import OpenPuffer.Search.Filter
import OpenPuffer.Search.Score

/-!
# Executing a query

A request is parsed and checked, the candidates of its `rank_by` tree are collected,
those that the filter does not allow are removed, and the rest is scored, sorted and
cut at `top_k`.

The attributes of the rows, the billing estimates and the timings are left out.
-/

namespace OpenPuffer

/-- Hits without a `top_k`. -/
def defaultTopK : Nat := 10

/-- Most hits of a query. -/
def maxTopK : Nat := 1200

/-- The body of a query. -/
structure QueryRequest where
  rankBy : Json
  topK : Option Nat := none
  filters : Option Json := none
  consistency : Option String := none
  orderBy : Option Json := none

/-- What a query fails with. -/
inductive QueryError where
  | message (text : String)
  | filter (e : FilterError)
  | vector (e : VectorError)
  /-- The filter index panics. -/
  | panicked
deriving DecidableEq

/-! ## Parsing -/

/-- Between one and the maximum. -/
def parseTopK : Option Nat → Except QueryError Nat
  | none => .ok defaultTopK
  | some 0 => .error (.message "top_k must be at least 1")
  | some n =>
    if maxTopK < n then .error (.message s!"top_k {n} exceeds maximum of {maxTopK}") else .ok n

/-- Strong by default. -/
def QueryConsistency.parse : Option String → Except QueryError QueryConsistency
  | none => .ok .strong
  | some s =>
    let lower := String.ofList (toAsciiLowercase s)
    if lower = "strong" then .ok .strong
    else if lower = "eventual" then .ok .eventual
    else .error (.message s!"unknown consistency mode: {lower} (use strong or eventual)")

/-- An absent or null member is not parsed. -/
def parseOptional {α : Type} (parse : Json → Except QueryError α) :
    Option Json → Except QueryError (Option α)
  | none => .ok none
  | some v => if v.isNull then .ok none else (parse v).map some

/-- `as_str` or an error. -/
def expectStr (v : Json) (text : String) : Except QueryError String :=
  match v.asStr with
  | none => .error (.message text)
  | some s => .ok s

/-- `[vector, ANN, field, query]` without its head. -/
def parseVectorRanker : List Json → Except QueryError Ranker
  | _ :: field :: query :: _ => do
    let field ← expectStr field "field must be string"
    let query ← (decodeVectorValue query).mapError .vector
    .ok (.vector field query)
  | _ => .error (.message "vector rank_by needs [vector, ANN, field, query]")

/-- `[BM25, field, query]` without its head. -/
def parseBm25Ranker : List Json → Except QueryError Ranker
  | field :: query :: _ => do
    let field ← expectStr field "field must be string"
    let query ← expectStr query "query must be string"
    .ok (.bm25 field query)
  | _ => .error (.message "BM25 rank_by needs [BM25, field, query]")

mutual

/-- A ranker, by the first items of its array. -/
def parseRankBy : Json → Except QueryError Ranker
  | .arr [] => .error (.message "rank_by array is empty")
  | .arr (head :: rest) =>
    match head.asStr with
    | none => .error (.message "rank_by[0] must be string")
    | some op =>
      if op = "vector" ∨ op = "Vector" then parseVectorRanker rest
      else if op = "BM25" ∨ op = "bm25" then parseBm25Ranker rest
      else if op = "Sum" ∨ op = "sum" then (parseRankers rest).map .sum
      else if op = "Product" ∨ op = "product" then (parseRankers rest).map .product
      else .error (.message s!"unknown rank_by operator: {op}")
  | _ => .error (.message "rank_by must be an array")
termination_by structural v => v

/-- The rankers of a sum or product. -/
def parseRankers : List Json → Except QueryError (List Ranker)
  | [] => .ok []
  | v :: vs => do
    let ranker ← parseRankBy v
    let rankers ← parseRankers vs
    .ok (ranker :: rankers)
termination_by structural vs => vs

end

/-! ## Order by an attribute -/

/-- A field to sort by. -/
structure OrderBy where
  field : String
  descending : Bool
deriving DecidableEq

/-- A field and a direction. -/
def parseOrderBy (v : Json) : Except QueryError OrderBy :=
  match v.asArray with
  | none => .error (.message "order_by must be a JSON array")
  | some (field :: dir :: _) => do
    let field ← expectStr field "order_by[0] must be a string field name"
    let dir ← expectStr dir "order_by[1] must be asc or desc"
    let lower := String.ofList (toAsciiLowercase dir)
    if lower = "asc" ∨ lower = "ascending" then .ok ⟨field, false⟩
    else if lower = "desc" ∨ lower = "descending" then .ok ⟨field, true⟩
    else .error (.message s!"unknown order_by direction: {lower} (use asc or desc)")
  | some _ => .error (.message "order_by needs [field, asc|desc]")

/-- What documents are sorted by. -/
inductive AttrSortKey where
  | null
  | number (x : Fp)
  | string (s : String)
deriving DecidableEq

/-- Null without the field. -/
def attrSortKey (doc : Option Document) (field : String) : AttrSortKey :=
  match doc.bind fun doc => doc.attributes.lookup field with
  | some (.str s) => .string s
  | some (.num n) => .number n.asF64
  | some (.bool b) => .number (if b then .num 1 else .num 0)
  | some .null | some (.arr _) | some (.obj _) | none => .null

/-- Nulls come first, then numbers, then strings. -/
def compareAttrKeys (a b : AttrSortKey) (descending : Bool) : Ordering :=
  let ord : Ordering :=
    match a, b with
    | .null, .null => .eq
    | .null, _ => .lt
    | _, .null => .gt
    | .number x, .number y => (x.partialCmp y).getD .eq
    | .string x, .string y => compare x y
    | .number _, .string _ => .lt
    | .string _, .number _ => .gt
  if descending then ord.swap else ord

/-- Compare two documents by their keys. -/
def compareDocsByAttribute (ctx : QueryContext) (idA idB : String) (ob : OrderBy) : Ordering :=
  let keyA := attrSortKey (ctx.docs.get idA) ob.field
  let keyB := attrSortKey (ctx.docs.get idB) ob.field
  compareAttrKeys keyA keyB ob.descending

/-! ## Lengths of query vectors -/

/-- A query vector of the wrong length. -/
def dimsError (len dim : Nat) (what field : String) : Except QueryError Unit :=
  .error (.message
    s!"query vector length {len} does not match {what} dimensions {dim} for field '{field}'")

/-- The length of the index, else of the metadata. -/
def validateQueryVectorDims (m : NamespaceMeta) (ctx : QueryContext) (field : String)
    (query : Vec) : Except QueryError Unit :=
  let len := query.length
  if query.isEmpty then .ok ()
  else
    match ctx.vectors.lookup field with
    | some vindex =>
      let dim := vindex.l0.dimensions
      if 0 < dim ∧ len ≠ dim then dimsError len dim "index" field else .ok ()
    | none =>
      match m.vectorFields.find? fun f => f.name = field with
      | some cfg =>
        -- the length is cast to `u32`
        if 0 < cfg.dimensions ∧ len % 2 ^ 32 ≠ cfg.dimensions then
          dimsError len cfg.dimensions "index" field
        else .ok ()
      | none =>
        if m.vectorField = field ∧ 0 < m.dimensions ∧ len ≠ m.dimensions then
          dimsError len m.dimensions "namespace" field
        else .ok ()

mutual

/-- All query vectors of a tree. -/
def validateRankerVectorDims (m : NamespaceMeta) (ctx : QueryContext) :
    Ranker → Except QueryError Unit
  | .vector field query => validateQueryVectorDims m ctx field query
  | .bm25 _ _ => .ok ()
  | .sum subs => validateSubs m ctx subs
  | .product subs => validateSubs m ctx subs

/-- The same for several rankers. -/
def validateSubs (m : NamespaceMeta) (ctx : QueryContext) : List Ranker → Except QueryError Unit
  | [] => .ok ()
  | sub :: subs => do
    validateRankerVectorDims m ctx sub
    validateSubs m ctx subs

end

/-! ## Candidates of a tree -/

/-- How candidates are merged. -/
inductive CandidateMerge where
  | union
  | intersection

/-- Merge with the next child. -/
def CandidateMerge.apply (prev child : Finset String) : CandidateMerge → Finset String
  | .union => prev ∪ child
  | .intersection => prev ∩ child

section Execute

variable {R S : Type} [Field R] [LinearOrder R] (env : SearchEnv R S)

mutual

/-- The candidates of a ranker that exist. -/
def collectCandidates (planner : QueryPlanner) (stats : QueryStats) :
    Ranker → Finset String × QueryStats
  | .bm25 field query =>
    let r := collectBm25Candidates env.order env.ln env.text planner stats field query.toList
    (planner.ctx.filterExistingDocs r.1, r.2)
  | .vector field query =>
    let r := collectVectorCandidates env.order env.scores planner stats field query
    (planner.ctx.filterExistingDocs r.1, r.2)
  | .sum subs =>
    let r := mergeChildCandidates planner .union none stats subs
    (planner.ctx.filterExistingDocs (r.1.getD ∅), r.2)
  | .product subs =>
    let r := mergeChildCandidates planner .intersection none stats subs
    (planner.ctx.filterExistingDocs (r.1.getD ∅), r.2)

/-- Merge the children in turn. -/
def mergeChildCandidates (planner : QueryPlanner) (merge : CandidateMerge)
    (acc : Option (Finset String)) (stats : QueryStats) :
    List Ranker → Option (Finset String) × QueryStats
  | [] => (acc, stats)
  | sub :: subs =>
    let child := collectCandidates planner stats sub
    let acc :=
      match acc with
      | none => child.1
      | some prev => merge.apply prev child.1
    mergeChildCandidates planner merge (some acc) child.2 subs

end

/-! ## The query -/

/-- Better scores first, then the attribute, then the id. -/
def rowCmp (a : Arithmetic S) (ctx : QueryContext) (orderBy : Option OrderBy)
    (x y : String × S) : Ordering :=
  let byScore := (a.partialCmp y.2 x.2).getD .eq
  match orderBy with
  | some ob => (byScore.then (compareDocsByAttribute ctx x.1 y.1 ob)).then (compare x.1 y.1)
  | none => byScore.then (compare x.1 y.1)

/-- The rows and the counters of a response. -/
structure QueryResponse (S : Type) where
  rows : List (String × S)
  approxNamespaceSize : Nat
  candidates : Nat
  scored : Nat
  exhaustiveSearchCount : Nat
deriving DecidableEq

/-- Keep the candidates that the filter allows. -/
def retainAllowed (ctx : QueryContext) (filter : Option FilterExpr) (candidates : Finset String) :
    Except QueryError (Finset String) :=
  match filter with
  | none => .ok candidates
  | some expr =>
    match matchingDocIdsForFilter env.order ctx expr with
    | none => .error .panicked
    | some allowed => .ok (candidates ∩ allowed)

/-- A query after parsing. -/
def runQuery (m : NamespaceMeta) (ctx : QueryContext) (filter : Option FilterExpr) (topK : Nat)
    (ranker : Ranker) (orderBy : Option OrderBy) : Except QueryError (QueryResponse S) := do
  validateRankerVectorDims m ctx ranker
  let planner : QueryPlanner :=
    { ctx
      candidatePool := max (saturatingMul topK 8) 64
      annRerankFromEnv := env.annRerankFromEnv }
  let (collected, stats) := collectCandidates env planner {} ranker
  let candidates ← retainAllowed env ctx filter collected
  let scored :=
    if candidates = ∅ then [] else scoreCandidates env m.distanceMetric ctx candidates ranker
  let ranked := scored.insertionSort fun x y => rowCmp env.arith ctx orderBy x y ≠ .gt
  .ok
    { rows := ranked.take topK
      approxNamespaceSize := ctx.docs.keys.card
      candidates := candidates.card
      scored := ranked.length
      exhaustiveSearchCount := saturatingAdd stats.fullScanDocs stats.tailDocsExamined }

/-- Answer a query over the snapshot `ctx`. -/
def executeQuery (m : NamespaceMeta) (ctx : QueryContext) (req : QueryRequest) :
    Except QueryError (QueryResponse S) := do
  let filter ← parseOptional (fun v => (parseFilter v).mapError .filter) req.filters
  let topK ← parseTopK req.topK
  let consistency ← QueryConsistency.parse req.consistency
  let ranker ← parseRankBy req.rankBy
  let orderBy ← parseOptional parseOrderBy req.orderBy
  runQuery env m { ctx with consistency } filter topK ranker orderBy

end Execute

end OpenPuffer
