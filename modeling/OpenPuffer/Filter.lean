import OpenPuffer.Lib.FloatingPoint
import OpenPuffer.Wal

/-!
# The filter language

A filter is a JSON array: `[field, op, value]`, or `And` and `Or` of filters.  `parseFilter`
turns it into a tree, and the tree is evaluated on one document.  Conditions of writes are
filters too, and may refer to the incoming row (`$ref_new`).  Numbers are compared as `f64`.
-/

namespace OpenPuffer

inductive CmpOp where
  | eq
  | ne
  | gt
  | gte
  | lt
  | lte
deriving DecidableEq, Repr

inductive FilterValue where
  | string (s : String)
  | number (x : Fp)
  | bool (b : Bool)
  | null
  /-- A field of the incoming row. -/
  | refNew (field : String)
deriving DecidableEq, Repr

inductive FilterExpr where
  | and (subs : List FilterExpr)
  | or (subs : List FilterExpr)
  | cmp (field : String) (op : CmpOp) (value : FilterValue)

/-! ## Numbers -/

/-- The nearest `f64` to a natural number, ties to even. -/
def roundNat (n : Nat) : Nat :=
  if n < 2 ^ 53 then n
  else
    let shift := n.log2 - 52
    let q := n / 2 ^ shift
    let rest := n % 2 ^ shift
    let half := 2 ^ (shift - 1)
    let up := half < rest ∨ (rest = half ∧ q % 2 = 1)
    (if up then q + 1 else q) * 2 ^ shift

/-- `Number::as_f64`. -/
def Number.asF64 : Number → Fp
  | .posInt n => .num (roundNat n)
  | .negInt n => .num (-(roundNat n.natAbs : Nat))
  | .float q => .num q
  | .negZero => .negZero

/-! ## Parsing -/

inductive FilterError where
  /-- `filter must be a JSON array`. -/
  | notArray
  /-- `filter array is empty`. -/
  | empty
  /-- `filter[0] must be a string operator or field name`. -/
  | head
  /-- `And filter requires a sub-array at index 1`. -/
  | andSubs
  /-- `Or filter requires a sub-array at index 1`. -/
  | orSubs
  /-- `comparison filter needs [field, Op, value]`. -/
  | arity
  /-- `filter operator must be a string`. -/
  | operator
  /-- `In filter value must be an array`. -/
  | inValue
  /-- `In filter value array cannot be empty`. -/
  | inEmpty
  /-- `unsupported filter operator: {other} (supported: Eq, Ne, Gt, Gte, Lt, Lte, In)`. -/
  | unsupported (other : String)
  /-- `filter value object must be ... (got {v})`. -/
  | valueObject (v : Json)
  /-- `filter value must be string, number, bool, null, or $ref_new (got {v})`. -/
  | value (v : Json)
deriving DecidableEq

def FilterValue.fromJson : Json → Except FilterError FilterValue
  | .str s => .ok (.string s)
  | .bool b => .ok (.bool b)
  | .num n => .ok (.number n.asF64)
  | .null => .ok .null
  | .obj [("$ref_new", .str field)] => .ok (.refNew field)
  | .obj fields => .error (.valueObject (.obj fields))
  | .arr items => .error (.value (.arr items))

def parseCmpOp (s : String) : Except FilterError CmpOp :=
  if s = "Eq" then .ok .eq
  else if s = "Ne" then .ok .ne
  else if s = "Gt" then .ok .gt
  else if s = "Gte" then .ok .gte
  else if s = "Lt" then .ok .lt
  else if s = "Lte" then .ok .lte
  else .error (.unsupported s)

/-- A comparison, without its field.  `In` is an `Or` of equalities. -/
def parseComparison (field : String) : List Json → Except FilterError FilterExpr
  | op :: value :: _ =>
    match op.asStr with
    | none => .error .operator
    | some "In" =>
      match value.asArray with
      | none => .error .inValue
      | some items => do
        let values ← items.mapM FilterValue.fromJson
        if values.isEmpty then .error .inEmpty
        else .ok (.or (values.map fun v => .cmp field .eq v))
    | some opStr => do
      let op ← parseCmpOp opStr
      let v ← FilterValue.fromJson value
      .ok (.cmp field op v)
  | _ => .error .arity

mutual

def parseFilter : Json → Except FilterError FilterExpr
  | .arr [] => .error .empty
  | .arr (head :: rest) =>
    match head.asStr with
    | none => .error .head
    | some field =>
      if field = "And" ∨ field = "and" then
        match rest with
        | .arr subs :: _ => (parseFilters subs).map .and
        | _ => .error .andSubs
      else if field = "Or" ∨ field = "or" then
        match rest with
        | .arr subs :: _ => (parseFilters subs).map .or
        | _ => .error .orSubs
      else parseComparison field rest
  | _ => .error .notArray
termination_by structural v => v

def parseFilters : List Json → Except FilterError (List FilterExpr)
  | [] => .ok []
  | v :: vs => do
    let e ← parseFilter v
    let es ← parseFilters vs
    .ok (e :: es)
termination_by structural vs => vs

end

/-! ## Evaluation -/

/-- Null, arrays and objects have no filter value. -/
def attrToFilterValue : Json → Option FilterValue
  | .str s => some (.string s)
  | .bool b => some (.bool b)
  | .num n => some (.number n.asF64)
  | .null | .arr _ | .obj _ => none

/-- The field `id` is the document's id. -/
def docFieldValue (doc : Document) (field : String) : Option FilterValue :=
  if field = "id" then some (.string doc.id)
  else (doc.attributes.lookup field).bind attrToFilterValue

/-- The right side of a comparison.  In a delete condition every `$ref_new` is
null. -/
def resolveRhs (newDoc : Option Document) (refNewNull : Bool) : FilterValue → Option FilterValue
  | .refNew field =>
    if refNewNull then some .null else newDoc.bind fun new => docFieldValue new field
  | other => some other

/-- The derived `PartialEq`: numbers are compared as floats. -/
def FilterValue.eq : FilterValue → FilterValue → Bool
  | .number a, .number b => a.eq b
  | l, r => l = r

def compareValues : FilterValue → FilterValue → Option Ordering
  | .number a, .number b => a.partialCmp b
  | .string a, .string b => some (compare a b)
  | .bool a, .bool b => some (compare a b)
  | .number a, .bool b => a.partialCmp (.num (if b then 1 else 0))
  | .bool a, .number b => Fp.partialCmp (.num (if a then 1 else 0)) b
  | _, _ => none

def evalCmp (doc : Document) (field : String) (op : CmpOp) (rhs : FilterValue)
    (newDoc : Option Document) (refNewNull : Bool) : Bool :=
  let lhs := docFieldValue doc field
  let rhs := resolveRhs newDoc refNewNull rhs
  match op with
  | .eq =>
    match lhs, rhs with
    | none, some .null => true
    | none, _ => false
    | some _, some .null => false
    | some l, some r => l.eq r
    | some _, none => false
  | .ne =>
    match lhs, rhs with
    | none, some .null => false
    | none, _ => true
    | some _, some .null => true
    | some l, some r => !l.eq r
    | some _, none => false
  | .gt => (lhs.bind fun l => rhs.bind (compareValues l)) = some .gt
  | .gte =>
    let ord := lhs.bind fun l => rhs.bind (compareValues l)
    ord = some .gt ∨ ord = some .eq
  | .lt => (lhs.bind fun l => rhs.bind (compareValues l)) = some .lt
  | .lte =>
    let ord := lhs.bind fun l => rhs.bind (compareValues l)
    ord = some .lt ∨ ord = some .eq

mutual

def evalFilterWithNew (doc : Document) (newDoc : Option Document) (refNewNull : Bool) :
    FilterExpr → Bool
  | .and subs => evalAll doc newDoc refNewNull subs
  | .or subs => evalAny doc newDoc refNewNull subs
  | .cmp field op value => evalCmp doc field op value newDoc refNewNull
termination_by structural e => e

def evalAll (doc : Document) (newDoc : Option Document) (refNewNull : Bool) :
    List FilterExpr → Bool
  | [] => true
  | e :: es => evalFilterWithNew doc newDoc refNewNull e && evalAll doc newDoc refNewNull es
termination_by structural es => es

def evalAny (doc : Document) (newDoc : Option Document) (refNewNull : Bool) :
    List FilterExpr → Bool
  | [] => false
  | e :: es => evalFilterWithNew doc newDoc refNewNull e || evalAny doc newDoc refNewNull es
termination_by structural es => es

end

def evalFilter (expr : FilterExpr) (doc : Document) : Bool :=
  evalFilterWithNew doc none false expr

/-! ## An expression over its comparisons

Every evaluator of a filter decides single comparisons and combines them in the
same way.  Two evaluators can then be compared one comparison at a time. -/

def FilterValue.isRefNew : FilterValue → Bool
  | .refNew _ => true
  | .string _ | .number _ | .bool _ | .null => false

namespace FilterExpr

mutual

/-- Every comparison of the expression passes a check. -/
def allCmps (p : String → CmpOp → FilterValue → Bool) : FilterExpr → Bool
  | .and subs => allCmpsOf p subs
  | .or subs => allCmpsOf p subs
  | .cmp field op value => p field op value
termination_by structural e => e

def allCmpsOf (p : String → CmpOp → FilterValue → Bool) : List FilterExpr → Bool
  | [] => true
  | e :: es => allCmps p e && allCmpsOf p es
termination_by structural es => es

end

mutual

/-- The value of an expression whose comparisons have the given values. -/
def evalWith (v : String → CmpOp → FilterValue → Bool) : FilterExpr → Bool
  | .and subs => evalWithAll v subs
  | .or subs => evalWithAny v subs
  | .cmp field op value => v field op value
termination_by structural e => e

def evalWithAll (v : String → CmpOp → FilterValue → Bool) : List FilterExpr → Bool
  | [] => true
  | e :: es => evalWith v e && evalWithAll v es
termination_by structural es => es

def evalWithAny (v : String → CmpOp → FilterValue → Bool) : List FilterExpr → Bool
  | [] => false
  | e :: es => evalWith v e || evalWithAny v es
termination_by structural es => es

end

/-- No comparison refers to an incoming row. -/
def noRefNew (e : FilterExpr) : Bool := e.allCmps fun _ _ value => !value.isRefNew

section Congruence

variable {p : String → CmpOp → FilterValue → Bool} {v w : String → CmpOp → FilterValue → Bool}

mutual

/-- Two evaluators that agree on the comparisons of an expression agree on it. -/
theorem evalWith_congr (h : ∀ field op value, p field op value = true →
    v field op value = w field op value) :
    ∀ e : FilterExpr, e.allCmps p = true → e.evalWith v = e.evalWith w
  | .and subs, hall => (evalWithList_congr h subs hall).1
  | .or subs, hall => (evalWithList_congr h subs hall).2
  | .cmp field op value, hall => h field op value hall
termination_by structural e => e

theorem evalWithList_congr (h : ∀ field op value, p field op value = true →
    v field op value = w field op value) :
    ∀ es : List FilterExpr, allCmpsOf p es = true →
      evalWithAll v es = evalWithAll w es ∧ evalWithAny v es = evalWithAny w es
  | [], _ => ⟨rfl, rfl⟩
  | e :: es, hall => by
    obtain ⟨he, hes⟩ := Bool.and_eq_true_iff.mp hall
    obtain ⟨hall', hany'⟩ := evalWithList_congr h es hes
    rw [evalWithAll, evalWithAll, evalWithAny, evalWithAny, evalWith_congr h e he, hall', hany']
    exact ⟨rfl, rfl⟩
termination_by structural es => es

end

end Congruence

end FilterExpr

section EvalWith

variable (doc : Document) (newDoc : Option Document) (refNewNull : Bool)

mutual

theorem evalFilterWithNew_eq : ∀ e : FilterExpr, evalFilterWithNew doc newDoc refNewNull e
    = e.evalWith fun field op value => evalCmp doc field op value newDoc refNewNull
  | .and subs => (evalSubs_eq subs).1
  | .or subs => (evalSubs_eq subs).2
  | .cmp _ _ _ => rfl
termination_by structural e => e

theorem evalSubs_eq : ∀ es : List FilterExpr,
    evalAll doc newDoc refNewNull es = FilterExpr.evalWithAll
        (fun field op value => evalCmp doc field op value newDoc refNewNull) es ∧
      evalAny doc newDoc refNewNull es = FilterExpr.evalWithAny
        (fun field op value => evalCmp doc field op value newDoc refNewNull) es
  | [] => ⟨rfl, rfl⟩
  | e :: es => by
    obtain ⟨hall, hany⟩ := evalSubs_eq es
    rw [evalAll, evalAny, FilterExpr.evalWithAll, FilterExpr.evalWithAny, evalFilterWithNew_eq e,
      hall, hany]
    exact ⟨rfl, rfl⟩
termination_by structural es => es

end

end EvalWith

/-! ## Conditions of writes -/

/-- Create if missing, otherwise evaluate on the current document. -/
def shouldApplyUpsert (expr : FilterExpr) (current : Option Document) (new : Document) : Bool :=
  match current with
  | none => true
  | some doc => evalFilterWithNew doc (some new) false expr

/-- Skip missing ids, otherwise evaluate on the current document. -/
def shouldApplyPatch (expr : FilterExpr) (current : Option Document) (patch : Document) : Bool :=
  match current with
  | none => false
  | some doc => evalFilterWithNew doc (some patch) false expr

/-- Skip missing ids, otherwise evaluate on the current document with every
`$ref_new` null. -/
def shouldApplyDelete (expr : FilterExpr) (current : Option Document) : Bool :=
  match current with
  | none => false
  | some doc => evalFilterWithNew doc none true expr

end OpenPuffer
