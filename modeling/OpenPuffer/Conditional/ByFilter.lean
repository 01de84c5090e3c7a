import OpenPuffer.Conditional.Machine
import OpenPuffer.Search.Filter

/-!
# Writes by filter

The filters of a request are resolved to ids when the request comes in.  The ids of
`delete_by_filter` join its deletes, those of `patch_by_filter` its patches
(`mergePatches_cons`, `mergePatches_nil`).  The conditions of the request are meant for the
rows that it lists, and they see the merged rows.  So a resolved id needs the condition too,
and a listed row is judged with the attributes from the filter (`conditions_explicit_iff`).
-/

namespace OpenPuffer

open List

/-! ## Resolving and merging -/

/-- Cap the ids of a filter.  The flag tells whether some are left. -/
def capFilterBatch (ids : List String) (allowPartial : Bool) (maxRows : Nat) :
    Except String (List String × Bool) :=
  if ids.length ≤ maxRows then .ok (ids, false)
  else if allowPartial then .ok (ids.take maxRows, true)
  else
    .error (s!"filter matched {ids.length} documents; maximum per request is {maxRows} " ++
      "(set delete_by_filter_allow_partial or patch_by_filter_allow_partial to true to process " ++
      "in batches)")

/-- Why a request is not handed to the buffer. -/
inductive WriteError where
  | filter (e : FilterError)
  /-- A filter matched too many documents. -/
  | batch (msg : String)
  /-- The filter segment panics. -/
  | panic

/-- Resolve a filter against the indexes and the tail, with strong consistency. -/
def resolveIdsForFilter (o : IterOrder String) (ctx : QueryContext) (filter : Json) :
    Except WriteError (List String) :=
  match parseFilter filter with
  | .error e => .error (.filter e)
  | .ok expr =>
    match matchingDocIdsForFilter o { ctx with consistency := .strong } expr with
    | none => .error .panic
    | some ids => .ok (o.toList ids)

/-- A delete is listed once. -/
def addDelete (deletes : List String) (id : String) : List String :=
  if id ∈ deletes then deletes else deletes ++ [id]

def mergeDeletes (deletes resolved : List String) : List String :=
  resolved.foldl addDelete deletes

/-- The row has the attributes. -/
def Document.Carries (p : Document) (attrs : Attributes) : Prop :=
  ∀ k v, attrs.lookup k = some v → p.attributes.lookup k = some v

/-- A row with the attributes of a filter inserted. -/
def Document.withAttributes (p : Document) (attrs : Attributes) : Document :=
  ⟨p.id, mergeDocumentAttributes p.attributes attrs⟩

/-- The first row with the id gets the attributes, or there is a new row. -/
def addPatch (attrs : Attributes) (id : String) : List Document → List Document
  | [] => [⟨id, attrs⟩]
  | p :: ps => if p.id = id then p.withAttributes attrs :: ps else p :: addPatch attrs id ps

def mergePatches (attrs : Attributes) (patches : List Document) (resolved : List String) :
    List Document :=
  resolved.foldl (fun ps id => addPatch attrs id ps) patches

/-- A `write_documents` request with its filters. -/
structure FilterWrite extends ConditionalWrite where
  deleteByFilter : Option Json := none
  deleteByFilterAllowPartial : Bool := false
  patchByFilter : Option (Json × Attributes) := none
  patchByFilterAllowPartial : Bool := false

/-- What a request reads of the namespace.  Each filter is resolved on what is
loaded when its turn comes, and the conditions are evaluated on the documents of a
third load. -/
structure NamespaceReads where
  forDelete : QueryContext
  forPatch : QueryContext
  docs : DocMap

namespace FilterWrite

variable (o : IterOrder String) (maxRows : Nat)

/-- The ids of `delete_by_filter`, after the cap. -/
def resolvedDeletes (ctx : QueryContext) (r : FilterWrite) :
    Except WriteError (List String × Bool) :=
  match r.deleteByFilter with
  | none => .ok ([], false)
  | some filter =>
    if filter.isNull then .ok ([], false)
    else do
      let ids ← resolveIdsForFilter o ctx filter
      (capFilterBatch ids r.deleteByFilterAllowPartial maxRows).mapError .batch

/-- The ids of `patch_by_filter`, after the cap. -/
def resolvedPatches (ctx : QueryContext) (r : FilterWrite) :
    Except WriteError (List String × Bool) :=
  match r.patchByFilter with
  | none => .ok ([], false)
  | some (filter, _) => do
    let ids ← resolveIdsForFilter o ctx filter
    (capFilterBatch ids r.patchByFilterAllowPartial maxRows).mapError .batch

def patchAttrs (r : FilterWrite) : Attributes := (r.patchByFilter.map Prod.snd).getD ∅

/-- The rows that the conditions are evaluated on. -/
def merged (r : FilterWrite) (deletes patches : List String) : ConditionalWrite :=
  { r.toConditionalWrite with
    patches := mergePatches r.patchAttrs r.patches patches
    deletes := mergeDeletes r.deletes deletes }

/-- What the request hands to the buffer. -/
def writeDocuments (reads : NamespaceReads) (r : FilterWrite) : Except WriteError WriteRequest := do
  let (deletes, moreDeletes) ← r.resolvedDeletes o maxRows reads.forDelete
  let (patches, morePatches) ← r.resolvedPatches o maxRows reads.forPatch
  let w ← ((r.merged deletes patches).applied reads.docs).mapError .filter
  .ok { w with stats := { w.stats with
    rowsRemaining := if moreDeletes || morePatches then some true else none } }

end FilterWrite

/-! ## What conditions keep -/

/-- The row passes the condition.  A null condition is none. -/
def passes {α : Type} (cond : Option Json) (test : FilterExpr → α → Bool) (row : α) : Bool :=
  match activeCondition cond with
  | none => true
  | some v =>
    match parseFilter v with
    | .ok expr => test expr row
    | .error _ => false

theorem keepRows_eq_ok {α : Type} {cond : Option Json} {test : FilterExpr → α → Bool}
    {rows kept : List α} (h : keepRows cond test rows = .ok kept) :
    kept = rows.filter (passes cond test) := by
  unfold keepRows at h
  unfold passes
  cases hc : activeCondition cond with
  | none =>
    rw [hc] at h
    cases h
    exact (filter_true _).symm
  | some v =>
    rw [hc] at h
    dsimp only at h ⊢
    cases hp : parseFilter v with
    | error e =>
      rw [hp] at h
      cases h
    | ok expr =>
      rw [hp] at h
      cases h
      rfl

namespace ConditionalWrite

variable (c : ConditionalWrite) (docs : DocMap)

def upsertPasses : Document → Bool :=
  passes c.upsertCondition fun expr d => shouldApplyUpsert expr (docs.get d.id) d

def patchPasses : Document → Bool :=
  passes c.patchCondition fun expr p => shouldApplyPatch expr (docs.get p.id) p

def deletePasses : String → Bool :=
  passes c.deleteCondition fun expr id => shouldApplyDelete expr (docs.get id)

variable {c docs}

theorem rows_applied {w : WriteRequest} (h : c.applied docs = .ok w) :
    w.upserts = c.upserts.filter (c.upsertPasses docs) ∧
      w.patches = c.patches.filter (c.patchPasses docs) ∧
      w.deletes = c.deletes.filter (c.deletePasses docs) := by
  obtain ⟨upserts, hups, h⟩ := bind_eq_ok.mp h
  obtain ⟨patches, hpat, h⟩ := bind_eq_ok.mp h
  obtain ⟨deletes, hdel, h⟩ := bind_eq_ok.mp h
  cases h
  exact ⟨keepRows_eq_ok hups, keepRows_eq_ok hpat, keepRows_eq_ok hdel⟩

end ConditionalWrite

/-! ## The merged rows -/

theorem mem_mergeDeletes {deletes resolved : List String} {id : String} :
    id ∈ mergeDeletes deletes resolved ↔ id ∈ deletes ∨ id ∈ resolved := by
  induction resolved generalizing deletes with
  | nil => simp [mergeDeletes]
  | cons r resolved ih =>
    have hadd : id ∈ addDelete deletes r ↔ id ∈ deletes ∨ id = r := by
      unfold addDelete
      split
      · rename_i hr
        exact ⟨.inl, fun h => h.elim (fun h => h) fun h => h ▸ hr⟩
      · rw [mem_append, mem_singleton]
    rw [mergeDeletes, foldl_cons, ← mergeDeletes, ih, hadd, mem_cons, or_assoc]

section Patches

variable {attrs : Attributes} {patches : List Document} {resolved : List String}

/-- The first row takes its own id out of the resolved ones. -/
theorem mergePatches_cons (p : Document) (ps : List Document) (h : resolved.Nodup) :
    mergePatches attrs (p :: ps) resolved
      = (if p.id ∈ resolved then p.withAttributes attrs else p)
        :: mergePatches attrs ps (resolved.filter (· ≠ p.id)) := by
  induction resolved generalizing p ps with
  | nil => rfl
  | cons id resolved ih =>
    obtain ⟨hid, hnodup⟩ := nodup_cons.mp h
    rw [mergePatches, foldl_cons, ← mergePatches, addPatch]
    split
    · rename_i heq
      subst heq
      have hrest : (p.id :: resolved).filter (· ≠ p.id) = resolved.filter (· ≠ p.id) :=
        filter_cons_of_neg (by simp)
      have hsame : (p.withAttributes attrs).id = p.id := rfl
      rw [ih _ _ hnodup, hsame, if_neg hid, if_pos mem_cons_self, hrest]
    · rename_i hne
      have hrest : (id :: resolved).filter (· ≠ p.id) = id :: resolved.filter (· ≠ p.id) :=
        filter_cons_of_pos (by simp [Ne.symm hne])
      have hmem : p.id ∈ id :: resolved ↔ p.id ∈ resolved :=
        mem_cons.trans (or_iff_right hne)
      rw [ih _ _ hnodup, hrest]
      simp only [hmem]
      rfl

variable {id : String} {p q : Document}

theorem addPatch_of_notMem (h : ∀ p ∈ patches, p.id ≠ id) :
    addPatch attrs id patches = patches ++ [⟨id, attrs⟩] := by
  induction patches with
  | nil => rfl
  | cons p ps ih =>
    obtain ⟨hp, hps⟩ := forall_mem_cons.mp h
    rw [addPatch, if_neg hp, ih hps, cons_append]

/-- Without rows every resolved id gets one. -/
theorem mergePatches_nil (h : resolved.Nodup) :
    mergePatches attrs [] resolved = resolved.map fun id => ⟨id, attrs⟩ := by
  induction resolved using reverseRecOn with
  | nil => rfl
  | append_singleton resolved id ih =>
    obtain ⟨hnodup, -, hdisj⟩ := nodup_append'.mp h
    have hfold : resolved.foldl (fun ps id => addPatch attrs id ps) []
        = resolved.map fun id => ⟨id, attrs⟩ := ih hnodup
    rw [mergePatches, foldl_append, hfold, map_append]
    refine addPatch_of_notMem fun p hp heq => ?_
    obtain ⟨r, hr, rfl⟩ := mem_map.mp hp
    exact hdisj hr (mem_singleton.mpr heq)

/-- A listed row stays as it is, or it is the first one with a resolved id and
gets the attributes. -/
theorem merged_row (h : resolved.Nodup)
    (hpq : (p, q) ∈ patches.zip (mergePatches attrs patches resolved)) :
    q = p ∨ (p.id ∈ resolved ∧ patches.find? (·.id = p.id) = some p ∧
      q = p.withAttributes attrs) := by
  induction patches generalizing resolved with
  | nil => cases hpq
  | cons p₀ ps ih =>
    rw [mergePatches_cons _ _ h] at hpq
    rcases mem_cons.mp hpq with heq | hpq
    · cases heq
      split
      · rename_i hmem
        exact .inr ⟨hmem, find?_cons_of_pos (by simp), rfl⟩
      · exact .inl rfl
    · rcases ih (h.filter _) hpq with hsame | ⟨hmem, hfirst, hq⟩
      · exact .inl hsame
      · obtain ⟨hmem, hne⟩ := mem_filter.mp hmem
        refine .inr ⟨hmem, ?_, hq⟩
        rw [find?_cons_of_neg (by simpa using Ne.symm (of_decide_eq_true hne)), hfirst]

theorem merged_row_id (h : resolved.Nodup)
    (hpq : (p, q) ∈ patches.zip (mergePatches attrs patches resolved)) : q.id = p.id := by
  rcases merged_row h hpq with rfl | ⟨-, -, rfl⟩
  · rfl
  · rfl

/-- The first row with a resolved id gets the attributes. -/
theorem first_row_merged (attrs : Attributes) (h : resolved.Nodup) (hid : id ∈ resolved)
    (hfirst : patches.find? (·.id = id) = some p) :
    (p, p.withAttributes attrs) ∈ patches.zip (mergePatches attrs patches resolved) := by
  induction patches generalizing resolved with
  | nil => cases hfirst
  | cons p₀ ps ih =>
    rw [mergePatches_cons _ _ h]
    by_cases heq : p₀.id = id
    · rw [find?_cons_of_pos (by simpa using heq)] at hfirst
      cases hfirst
      rw [if_pos (heq ▸ hid)]
      exact mem_cons_self
    · rw [find?_cons_of_neg (by simpa using heq)] at hfirst
      refine mem_cons_of_mem _ (ih (h.filter _) ?_ hfirst)
      exact mem_filter.mpr ⟨hid, decide_eq_true (Ne.symm heq)⟩

/-- A resolved id that no row names gets a row. -/
theorem new_row_merged (h : resolved.Nodup) (hid : id ∈ resolved)
    (hnew : ∀ p ∈ patches, p.id ≠ id) :
    (⟨id, attrs⟩ : Document) ∈ mergePatches attrs patches resolved := by
  induction patches generalizing resolved with
  | nil =>
    rw [mergePatches_nil h]
    exact mem_map_of_mem hid
  | cons p₀ ps ih =>
    obtain ⟨hne, hnew⟩ := forall_mem_cons.mp hnew
    rw [mergePatches_cons _ _ h]
    refine mem_cons_of_mem _ (ih (h.filter _) ?_ hnew)
    exact mem_filter.mpr ⟨hid, decide_eq_true (Ne.symm hne)⟩

/-- There are no other rows. -/
theorem mem_mergePatches (h : resolved.Nodup) (hq : q ∈ mergePatches attrs patches resolved) :
    (∃ p, (p, q) ∈ patches.zip (mergePatches attrs patches resolved)) ∨
      (q.id ∈ resolved ∧ (∀ p ∈ patches, p.id ≠ q.id) ∧ q = ⟨q.id, attrs⟩) := by
  induction patches generalizing resolved with
  | nil =>
    rw [mergePatches_nil h] at hq
    obtain ⟨id, hid, rfl⟩ := mem_map.mp hq
    exact .inr ⟨hid, nofun, rfl⟩
  | cons p₀ ps ih =>
    rw [mergePatches_cons _ _ h] at hq ⊢
    rcases mem_cons.mp hq with rfl | hq
    · exact .inl ⟨p₀, mem_cons_self⟩
    · rcases ih (h.filter _) hq with ⟨p, hp⟩ | ⟨hmem, hnew, heq⟩
      · exact .inl ⟨p, mem_cons_of_mem _ hp⟩
      · obtain ⟨hmem, hne⟩ := mem_filter.mp hmem
        have hhead : p₀.id ≠ q.id := Ne.symm (of_decide_eq_true hne)
        exact .inr ⟨hmem, forall_mem_cons.mpr ⟨hhead, hnew⟩, heq⟩

/-- Every listed row is one of the merged ones. -/
theorem listed_row (attrs : Attributes) (h : resolved.Nodup) (hp : p ∈ patches) :
    ∃ q, (p, q) ∈ patches.zip (mergePatches attrs patches resolved) := by
  induction patches generalizing resolved with
  | nil => cases hp
  | cons p₀ ps ih =>
    rw [mergePatches_cons _ _ h]
    rcases mem_cons.mp hp with rfl | hp
    · exact ⟨_, mem_cons_self⟩
    · obtain ⟨q, hq⟩ := ih (h.filter _) hp
      exact ⟨q, mem_cons_of_mem _ hq⟩

theorem carries_withAttributes (p : Document) (attrs : Attributes) :
    (p.withAttributes attrs).Carries attrs := by
  intro k v hv
  rw [Document.withAttributes, mergeDocumentAttributes, HashMap.lookup_union_or, hv]
  rfl

theorem Document.Carries.withAttributes_eq (h : p.Carries attrs) : p.withAttributes attrs = p := by
  have hattrs : mergeDocumentAttributes p.attributes attrs = p.attributes := by
    refine HashMap.ext_lookup fun k => ?_
    rw [mergeDocumentAttributes, HashMap.lookup_union_or]
    cases hk : attrs.lookup k with
    | none => rfl
    | some v => exact (h k v hk).symm
  rw [Document.withAttributes, hattrs]

theorem id_of_find? (h : patches.find? (·.id = id) = some p) : p.id = id := by
  have hid := find?_some h
  exact of_decide_eq_true hid

variable {pass : Document → Bool}

/-- When a resolved id receives the attributes: its new row passes, or the row that
they were merged into does, or a listed row with them passes. -/
theorem receives_iff (h : resolved.Nodup) (hid : id ∈ resolved) :
    (∃ row ∈ (mergePatches attrs patches resolved).filter pass, row.id = id ∧ row.Carries attrs) ↔
      ((∀ p ∈ patches, p.id ≠ id) → pass ⟨id, attrs⟩) ∧
        ∀ p, patches.find? (·.id = id) = some p → pass (p.withAttributes attrs) ∨
          ∃ p' ∈ patches, p'.id = id ∧ pass p' ∧ p'.Carries attrs := by
  constructor
  · rintro ⟨row, hrow, rfl, hcarries⟩
    obtain ⟨hmem, hpass⟩ := mem_filter.mp hrow
    rcases mem_mergePatches h hmem with ⟨p, hp⟩ | ⟨-, hnew, heq⟩
    · refine ⟨fun hnew => absurd (merged_row_id h hp).symm (hnew p (of_mem_zip hp).1), ?_⟩
      intro first hfirst
      rcases merged_row h hp with rfl | ⟨-, hfirst', rfl⟩
      · exact .inr ⟨row, (of_mem_zip hp).1, rfl, hpass, hcarries⟩
      · have hsame : some first = some p := hfirst.symm.trans hfirst'
        cases hsame
        exact .inl hpass
    · refine ⟨fun _ => heq ▸ hpass, fun p hfirst => ?_⟩
      exact absurd (id_of_find? hfirst) (hnew p (mem_of_find?_eq_some hfirst))
  · rintro ⟨hnew, hfirst⟩
    have hkept : ∀ {q}, q ∈ mergePatches attrs patches resolved → pass q →
        q ∈ (mergePatches attrs patches resolved).filter pass :=
      fun hq hpass => mem_filter.mpr ⟨hq, hpass⟩
    cases hfind : patches.find? (·.id = id) with
    | none =>
      have hno : ∀ p ∈ patches, p.id ≠ id := by
        intro p hp
        simpa using find?_eq_none.mp hfind p hp
      exact ⟨_, hkept (new_row_merged h hid hno) (hnew hno), rfl, fun _ _ hv => hv⟩
    | some p =>
      have hp := first_row_merged attrs h hid hfind
      rcases hfirst p hfind with hpass | ⟨p', hp', rfl, hpass, hcarries⟩
      · exact ⟨_, hkept (of_mem_zip hp).2 hpass, show p.id = id from id_of_find? hfind,
          carries_withAttributes p attrs⟩
      · obtain ⟨q, hq⟩ := listed_row attrs h hp'
        have hsame : q = p' := by
          rcases merged_row h hq with rfl | ⟨-, -, rfl⟩
          · rfl
          · exact hcarries.withAttributes_eq
        exact ⟨p', hkept (hsame ▸ (of_mem_zip hq).2) hpass, rfl, hcarries⟩

/-- When the listed rows are judged as they were listed. -/
theorem judged_iff (h : resolved.Nodup) :
    (∀ p q, (p, q) ∈ patches.zip (mergePatches attrs patches resolved) →
      (q ∈ (mergePatches attrs patches resolved).filter pass ↔ pass p)) ↔
      ∀ id ∈ resolved, ∀ p, patches.find? (·.id = id) = some p →
        (pass (p.withAttributes attrs) ↔ pass p) := by
  have hkept : ∀ {p q}, (p, q) ∈ patches.zip (mergePatches attrs patches resolved) →
      (q ∈ (mergePatches attrs patches resolved).filter pass ↔ pass q) :=
    fun hpq => mem_filter.trans (and_iff_right (of_mem_zip hpq).2)
  constructor
  · intro hall id hid p hfirst
    have hpq := first_row_merged attrs h hid hfirst
    exact (hkept hpq).symm.trans (hall _ _ hpq)
  · intro hall p q hpq
    rw [hkept hpq]
    rcases merged_row h hpq with rfl | ⟨hid, hfirst, rfl⟩
    · rfl
    · exact hall p.id hid p hfirst

end Patches

/-! ## Conditions and resolved ids -/

theorem capFilterBatch_nodup {ids capped : List String} {allowPartial more : Bool} {maxRows : Nat}
    (h : capFilterBatch ids allowPartial maxRows = .ok (capped, more)) (hnodup : ids.Nodup) :
    capped.Nodup := by
  unfold capFilterBatch at h
  split at h
  · cases h
    exact hnodup
  · split at h
    · cases h
      exact (take_sublist _ _).nodup hnodup
    · cases h

theorem resolveIdsForFilter_nodup {o : IterOrder String} {ctx : QueryContext} {filter : Json}
    {ids : List String} (h : resolveIdsForFilter o ctx filter = .ok ids) : ids.Nodup := by
  unfold resolveIdsForFilter at h
  split at h
  · cases h
  · split at h
    · cases h
    · cases h
      exact o.nodup _

namespace FilterWrite

variable {o : IterOrder String} {maxRows : Nat} {r : FilterWrite}

theorem resolvedPatches_nodup {ctx : QueryContext} {patches : List String} {more : Bool}
    (h : r.resolvedPatches o maxRows ctx = .ok (patches, more)) : patches.Nodup := by
  unfold resolvedPatches at h
  split at h
  · cases h
    exact nodup_nil
  · obtain ⟨ids, hids, h⟩ := bind_eq_ok.mp h
    cases hcap : capFilterBatch ids r.patchByFilterAllowPartial maxRows with
    | error msg =>
      rw [hcap] at h
      cases h
    | ok capped =>
      rw [hcap] at h
      cases h
      exact capFilterBatch_nodup hcap (resolveIdsForFilter_nodup hids)

/-- The conditions of a request decide about the rows that it lists, and the ids
`deletes` and `patches` of its filters are deleted and patched in any case.  A
listed patch is in the merged rows together with what the filter added to it. -/
structure OnlyListed (r : FilterWrite) (docs : DocMap) (deletes patches : List String)
    (w : WriteRequest) : Prop where
  deleted : ∀ id ∈ deletes, id ∈ w.deletes
  patched : ∀ id ∈ patches, ∃ row ∈ w.patches, row.id = id ∧ row.Carries r.patchAttrs
  listedUpsert : ∀ d ∈ r.upserts, d ∈ w.upserts ↔ r.upsertPasses docs d
  listedDelete : ∀ id ∈ r.deletes, id ∉ deletes → (id ∈ w.deletes ↔ r.deletePasses docs id)
  listedPatch : ∀ p q, (p, q) ∈ r.patches.zip (mergePatches r.patchAttrs r.patches patches) →
    (q ∈ w.patches ↔ r.patchPasses docs p)

/-- The conditions hold for what the filters resolved to.  For an id that a listed
patch names, the condition judges the first such row as it judges it without the
attributes of the filter, and it holds for this row, or for another one that has
the attributes anyway. -/
structure FiltersPass (r : FilterWrite) (docs : DocMap) (deletes patches : List String) :
    Prop where
  deletes : ∀ id ∈ deletes, r.deletePasses docs id
  newRow : ∀ id ∈ patches, (∀ p ∈ r.patches, p.id ≠ id) →
    r.patchPasses docs ⟨id, r.patchAttrs⟩
  listedRow : ∀ id ∈ patches, ∀ p, r.patches.find? (·.id = id) = some p →
    (r.patchPasses docs (p.withAttributes r.patchAttrs) ↔ r.patchPasses docs p) ∧
      (r.patchPasses docs p ∨ ∃ p' ∈ r.patches, p'.id = id ∧ r.patchPasses docs p' ∧
        p'.Carries r.patchAttrs)

/-- The rows that a request hands to the buffer. -/
theorem rows_writeDocuments {reads : NamespaceReads} {deletes patches : List String}
    {moreDeletes morePatches : Bool} {w : WriteRequest}
    (hdel : r.resolvedDeletes o maxRows reads.forDelete = .ok (deletes, moreDeletes))
    (hpat : r.resolvedPatches o maxRows reads.forPatch = .ok (patches, morePatches))
    (hw : r.writeDocuments o maxRows reads = .ok w) :
    w.upserts = r.upserts.filter (r.upsertPasses reads.docs) ∧
      w.patches = (mergePatches r.patchAttrs r.patches patches).filter
        (r.patchPasses reads.docs) ∧
      w.deletes = (mergeDeletes r.deletes deletes).filter (r.deletePasses reads.docs) := by
  unfold writeDocuments at hw
  rw [hdel] at hw
  simp only [bind, Except.bind, hpat] at hw
  cases happ : (r.merged deletes patches).applied reads.docs with
  | error e =>
    rw [happ] at hw
    cases hw
  | ok w' =>
    rw [happ] at hw
    cases hw
    exact ConditionalWrite.rows_applied happ

/-- The conditions touch only the listed rows exactly if they hold for what the
filters resolved to. -/
theorem conditions_explicit_iff {reads : NamespaceReads} {deletes patches : List String}
    {moreDeletes morePatches : Bool} {w : WriteRequest}
    (hdel : r.resolvedDeletes o maxRows reads.forDelete = .ok (deletes, moreDeletes))
    (hpat : r.resolvedPatches o maxRows reads.forPatch = .ok (patches, morePatches))
    (hw : r.writeDocuments o maxRows reads = .ok w) :
    r.OnlyListed reads.docs deletes patches w ↔ r.FiltersPass reads.docs deletes patches := by
  obtain ⟨hups, hrows, hids⟩ := rows_writeDocuments hdel hpat hw
  have hnodup := resolvedPatches_nodup hpat
  have hdelete : ∀ id, id ∈ w.deletes ↔ (id ∈ r.deletes ∨ id ∈ deletes) ∧
      r.deletePasses reads.docs id := fun id => by rw [hids, mem_filter, mem_mergeDeletes]
  constructor
  · intro h
    have hjudged := (judged_iff hnodup).mp (hrows ▸ h.listedPatch)
    refine ⟨fun id hid => ((hdelete id).mp (h.deleted id hid)).2, fun id hid => ?_,
      fun id hid p hfirst => ⟨hjudged id hid p hfirst, ?_⟩⟩
    · exact ((receives_iff hnodup hid).mp (hrows ▸ h.patched id hid)).1
    · have hpass := ((receives_iff hnodup hid).mp (hrows ▸ h.patched id hid)).2 p hfirst
      rwa [hjudged id hid p hfirst] at hpass
  · intro h
    refine ⟨fun id hid => (hdelete id).mpr ⟨.inr hid, h.deletes id hid⟩, fun id hid => ?_,
      fun d hd => by rw [hups, mem_filter]; exact and_iff_right hd,
      fun id hid _ => (hdelete id).trans (and_iff_right (.inl hid)), ?_⟩
    · rw [hrows, receives_iff hnodup hid]
      refine ⟨h.newRow id hid, fun p hfirst => ?_⟩
      obtain ⟨hsame, hpass⟩ := h.listedRow id hid p hfirst
      rwa [hsame]
    · rw [hrows]
      exact (judged_iff hnodup).mpr fun id hid p hfirst => (h.listedRow id hid p hfirst).1

/-- The filter `["status", "Eq", s]`. -/
def statusIs (s : String) : Json := .arr [.str "status", .str "Eq", .str s]

def oldAndNew : DocMap :=
  ((∅ : DocMap).insert "a" ((∅ : Attributes).insert "status" (.str "old"))).insert "b"
    ((∅ : Attributes).insert "status" (.str "new"))

def readsOf (docs : DocMap) : NamespaceReads := ⟨{ docs }, { docs }, docs⟩

/-- Delete the old documents and mark the new ones, of which one is also listed,
under conditions. -/
def sweep (deleteCondition patchCondition : Json) : FilterWrite where
  patches := [⟨"b", (∅ : Attributes).insert "note" (.str "listed")⟩]
  deleteByFilter := some (statusIs "old")
  patchByFilter := some (statusIs "new", (∅ : Attributes).insert "seen" (.bool true))
  deleteCondition := some deleteCondition
  patchCondition := some patchCondition

/-- The conditions are the filters. -/
theorem sweep_only_listed :
    ∃ w, (sweep (statusIs "old") (statusIs "new")).writeDocuments (.sorted String) 5000
        (readsOf oldAndNew) = .ok w ∧
      (sweep (statusIs "old") (statusIs "new")).OnlyListed oldAndNew ["a"] ["b"] w := by
  have hdel : (sweep (statusIs "old") (statusIs "new")).resolvedDeletes (.sorted String) 5000
      (readsOf oldAndNew).forDelete = .ok (["a"], false) := by rfl
  have hpat : (sweep (statusIs "old") (statusIs "new")).resolvedPatches (.sorted String) 5000
      (readsOf oldAndNew).forPatch = .ok (["b"], false) := by rfl
  obtain ⟨w, hw⟩ : ∃ w, (sweep (statusIs "old") (statusIs "new")).writeDocuments (.sorted String)
      5000 (readsOf oldAndNew) = .ok w := ⟨_, rfl⟩
  refine ⟨w, hw, (conditions_explicit_iff hdel hpat hw).mpr ⟨by decide +kernel, ?_, ?_⟩⟩
  · intro id hid hnew
    cases mem_singleton.mp hid
    exact absurd rfl (hnew _ mem_cons_self)
  · intro id hid p hfirst
    cases mem_singleton.mp hid
    cases mem_singleton.mp (mem_of_find?_eq_some hfirst)
    exact ⟨by decide +kernel, .inl (by decide +kernel)⟩

/-- No document is archived, so the conditions keep nothing. -/
theorem sweep_keeps_nothing :
    let r := sweep (statusIs "archived") (statusIs "archived")
    r.resolvedDeletes (.sorted String) 5000 { docs := oldAndNew } = .ok (["a"], false) ∧
    r.resolvedPatches (.sorted String) 5000 { docs := oldAndNew } = .ok (["b"], false) ∧
    ∃ w, r.writeDocuments (.sorted String) 5000 (readsOf oldAndNew) = .ok w ∧
      w.deletes = [] ∧ w.patches = [] ∧ ¬ r.OnlyListed oldAndNew ["a"] ["b"] w := by
  refine ⟨by rfl, by rfl, _, rfl, by rfl, by rfl, fun h => ?_⟩
  exact absurd (h.deleted "a" mem_cons_self) (by decide +kernel)

end FilterWrite

end OpenPuffer
