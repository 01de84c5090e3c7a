import OpenPuffer.Conditional.ByFilter
import OpenPuffer.Search.Execute

/-!
# Filters that the filter index cannot read

A filter of a query, a `delete_by_filter` or a `patch_by_filter` may contain `$ref_new`, which
is meant for conditions.  The evaluator gives it no value.  The filter index has no key for it
and panics, but only for `Eq` and `Ne`, and only for a field that has postings.  One such
comparison in a filter is enough (`FilterSegment.isSome_matchingDocIds`).
-/

namespace OpenPuffer

/-! ## The comparisons of a filter -/

namespace FilterSegment

/-- The comparison needs no key, or its value has one. -/
def hasKey (seg : FilterSegment) (field : String) (op : CmpOp) (value : FilterValue) : Bool :=
  !(value.isRefNew && (op = .eq || op = .ne) && (seg.postings.lookup field).isSome)

variable (seg : FilterSegment)

theorem isSome_valueKey (value : FilterValue) : (valueKey value).isSome = !value.isRefNew := by
  cases value <;> rfl

theorem isSome_equalIds (field : String) (value : FilterValue) :
    (seg.equalIds field value).isSome
      = !(value.isRefNew && (seg.postings.lookup field).isSome) := by
  rw [equalIds]
  cases seg.postings.lookup field with
  | none => simp
  | some m => simp [isSome_valueKey]

theorem isSome_matchCmp (field : String) (op : CmpOp) (value : FilterValue) :
    (seg.matchCmp field op value).isSome = seg.hasKey field op value := by
  cases op with
  | eq => simp [matchCmp, hasKey, isSome_equalIds]
  | ne => simp [matchCmp, hasKey, isSome_equalIds]
  | gt | gte | lt | lte =>
    rw [matchCmp]
    cases seg.postings.lookup field <;> simp [hasKey]

theorem isSome_intersectDocIds {subs : List FilterExpr} (acc : Finset String)
    (h : ∀ sub ∈ subs, (seg.matchingDocIds sub).isSome = sub.allCmps seg.hasKey) :
    (seg.intersectDocIds acc subs).isSome = FilterExpr.allCmpsOf seg.hasKey subs := by
  induction subs generalizing acc with
  | nil => rfl
  | cons sub subs ih =>
    obtain ⟨hsub, hsubs⟩ := List.forall_mem_cons.mp h
    rw [FilterExpr.allCmpsOf, ← hsub, intersectDocIds]
    cases seg.matchingDocIds sub with
    | none => rfl
    | some ids => exact ih (acc ∩ ids) hsubs

theorem isSome_unionDocIds {subs : List FilterExpr}
    (h : ∀ sub ∈ subs, (seg.matchingDocIds sub).isSome = sub.allCmps seg.hasKey) :
    (seg.unionDocIds subs).isSome = FilterExpr.allCmpsOf seg.hasKey subs := by
  induction subs with
  | nil => rfl
  | cons sub subs ih =>
    obtain ⟨hsub, hsubs⟩ := List.forall_mem_cons.mp h
    rw [FilterExpr.allCmpsOf, ← hsub, ← ih hsubs, unionDocIds]
    cases seg.matchingDocIds sub with
    | none => rfl
    | some ids => cases seg.unionDocIds subs <;> rfl

/-- The segment answers a filter if it has the key of every comparison. -/
theorem isSome_matchingDocIds :
    ∀ e : FilterExpr, (seg.matchingDocIds e).isSome = e.allCmps seg.hasKey
  | .and [] => rfl
  | .and (sub :: subs) => by
    have hsub := isSome_matchingDocIds sub
    rw [FilterExpr.allCmps, FilterExpr.allCmpsOf, ← hsub, matchingDocIds]
    cases seg.matchingDocIds sub with
    | none => rfl
    | some first => exact seg.isSome_intersectDocIds first fun e _ => isSome_matchingDocIds e
  | .or subs => seg.isSome_unionDocIds fun e _ => isSome_matchingDocIds e
  | .cmp field op value => seg.isSome_matchCmp field op value

end FilterSegment

/-! ## Queries and writes by filter -/

/-- There is no filter index, or it has the key of every comparison. -/
def QueryContext.hasKeys (ctx : QueryContext) (expr : FilterExpr) : Bool :=
  ctx.filterIndex.all fun seg => expr.allCmps seg.hasKey

theorem isSome_matchingDocIdsForFilter (o : IterOrder String) (ctx : QueryContext)
    (expr : FilterExpr) : (matchingDocIdsForFilter o ctx expr).isSome = ctx.hasKeys expr := by
  rw [matchingDocIdsForFilter, QueryContext.hasKeys]
  cases ctx.filterIndex with
  | none => rfl
  | some seg => rw [Option.isSome_map, seg.isSome_matchingDocIds, Option.all_some]

/-- The consistency makes no difference. -/
theorem matchingDocIdsForFilter_ne_none (o : IterOrder String) (ctx : QueryContext)
    (expr : FilterExpr) (consistency : QueryConsistency) :
    matchingDocIdsForFilter o { ctx with consistency } expr ≠ none
      ↔ ctx.hasKeys expr = true := by
  have hkeys : QueryContext.hasKeys { ctx with consistency } expr = ctx.hasKeys expr := rfl
  rw [← hkeys, ← isSome_matchingDocIdsForFilter o, Option.isSome_iff_ne_none]

/-- The filter of a `delete_by_filter` or a `patch_by_filter`. -/
theorem resolveIdsForFilter_ne_panic {filter : Json} {expr : FilterExpr} (o : IterOrder String)
    (ctx : QueryContext) (hparse : parseFilter filter = .ok expr) :
    resolveIdsForFilter o ctx filter ≠ .error .panic ↔ ctx.hasKeys expr = true := by
  rw [← matchingDocIdsForFilter_ne_none o ctx expr .strong]
  simp only [resolveIdsForFilter, hparse]
  cases matchingDocIdsForFilter o { ctx with consistency := .strong } expr <;> simp

section Query

variable {R S : Type} [Field R] [LinearOrder R] (env : SearchEnv R S)

/-- The filter of a query whose vectors have the right dimensions. -/
theorem runQuery_ne_panicked (m : NamespaceMeta) (ctx : QueryContext) (expr : FilterExpr)
    (topK : Nat) {ranker : Ranker} (orderBy : Option OrderBy)
    (hdims : validateRankerVectorDims m ctx ranker = .ok ()) :
    runQuery env m ctx (some expr) topK ranker orderBy ≠ .error .panicked
      ↔ ctx.hasKeys expr = true := by
  have hids := matchingDocIdsForFilter_ne_none env.order ctx expr ctx.consistency
  rw [← hids, runQuery, hdims]
  simp only [retainAllowed]
  cases matchingDocIdsForFilter env.order ctx expr with
  | none => exact ⟨fun h => absurd rfl h, fun h => absurd rfl h⟩
  | some allowed => exact ⟨fun _ => Option.some_ne_none _, fun _ h => by cases h⟩

/-- An accepted filter gets an answer, in a query and in a write by filter and with
either consistency, if and only if there is no filter index or none of its `Eq`, `Ne`
and `In` comparisons has a `$ref_new` value on a field with postings. -/
theorem accepted_filter_answered_iff (ctx : QueryContext) {filter : Json} {expr : FilterExpr}
    (hparse : parseFilter filter = .ok expr) :
    (∀ consistency, matchingDocIdsForFilter env.order { ctx with consistency } expr ≠ none ↔
      ctx.hasKeys expr = true) ∧
    (resolveIdsForFilter env.order ctx filter ≠ .error .panic ↔ ctx.hasKeys expr = true) ∧
    ∀ consistency m topK ranker orderBy,
      validateRankerVectorDims m { ctx with consistency } ranker = .ok () →
        (runQuery env m { ctx with consistency } (some expr) topK ranker orderBy
          ≠ .error .panicked ↔ ctx.hasKeys expr = true) := by
  refine ⟨?_, resolveIdsForFilter_ne_panic env.order ctx hparse, ?_⟩
  · intro consistency
    exact matchingDocIdsForFilter_ne_none env.order ctx expr consistency
  · intro consistency m topK ranker orderBy hdims
    exact runQuery_ne_panicked env m { ctx with consistency } expr topK orderBy hdims

end Query

/-! ## An accepted filter that panics -/

/-- `["And", [["tier", "In", ["pro", null]], ["tier", "Lt", {"$ref_new": "tier"}]]]`. -/
def readableFilter : Json :=
  .arr [.str "And", .arr [.arr [.str "tier", .str "In", .arr [.str "pro", .null]],
    .arr [.str "tier", .str "Lt", .obj [("$ref_new", .str "tier")]]]]

def readableExpr : FilterExpr :=
  .and [.or [.cmp "tier" .eq (.string "pro"), .cmp "tier" .eq .null],
    .cmp "tier" .lt (.refNew "tier")]

/-- A range comparison with `$ref_new` needs no key. -/
theorem readable_filter_answered :
    parseFilter readableFilter = .ok readableExpr ∧
    matchingDocIdsForFilter (.sorted String) { tierContext with consistency := .eventual }
      readableExpr ≠ none ∧
    resolveIdsForFilter (.sorted String) tierContext readableFilter ≠ .error .panic := by
  have hparse : parseFilter readableFilter = .ok readableExpr := rfl
  have hkeys : tierContext.hasKeys readableExpr = true := by
    decide +kernel
  obtain ⟨hids, hresolve, -⟩ := accepted_filter_answered_iff exactEnv tierContext hparse
  exact ⟨hparse, (hids .eventual).mpr hkeys, hresolve.mpr hkeys⟩

/-- `["Or", [["tier", "In", ["pro", {"$ref_new": "tier"}]]]]`. -/
def unreadableFilter : Json :=
  .arr [.str "Or", .arr [.arr [.str "tier", .str "In",
    .arr [.str "pro", .obj [("$ref_new", .str "tier")]]]]]

def unreadableExpr : FilterExpr :=
  .or [.or [.cmp "tier" .eq (.string "pro"), .cmp "tier" .eq (.refNew "tier")]]

/-- The filter is accepted.  With an index over the field it panics, in a query of
either consistency and in a write by filter; without an index it has an answer. -/
theorem accepted_filter_panics :
    parseFilter unreadableFilter = .ok unreadableExpr ∧
    matchingDocIdsForFilter (.sorted String) tierContext unreadableExpr = none ∧
    matchingDocIdsForFilter (.sorted String) { tierContext with consistency := .eventual }
      unreadableExpr = none ∧
    resolveIdsForFilter (.sorted String) tierContext unreadableFilter = .error .panic ∧
    matchingDocIdsForFilter (.sorted String) { tierContext with filterIndex := none }
      unreadableExpr = some {"a", "c"} := by
  have hparse : parseFilter unreadableFilter = .ok unreadableExpr := rfl
  have hkeys : ¬ tierContext.hasKeys unreadableExpr = true := by
    decide +kernel
  refine ⟨hparse, ?_, ?_, ?_, by decide +kernel⟩
  · exact not_ne_iff.mp fun h => hkeys ((matchingDocIdsForFilter_ne_none _ _ _ .strong).mp h)
  · exact not_ne_iff.mp fun h => hkeys ((matchingDocIdsForFilter_ne_none _ _ _ .eventual).mp h)
  · exact not_ne_iff.mp fun h => hkeys ((resolveIdsForFilter_ne_panic _ _ hparse).mp h)

end OpenPuffer
