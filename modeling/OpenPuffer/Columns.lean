import OpenPuffer.Meta

/-!
# One vector column through the writers of the metadata

An append refreshes the columns that the schema declares, and an index pass those it has
built.  What they do to one column is a single equation (`columnOf_upsert`).  An append never
touches the segment of a column, nor the dimension of one that has a segment
(`indexedColumn_walCommit`).
-/

namespace OpenPuffer

open List Option

def columnOf (fields : List VectorFieldConfig) (name : String) : Option VectorFieldConfig :=
  fields.find? fun f => f.name = name

def indexedColumn (fields : List VectorFieldConfig) (name : String) : Option (Nat × Nat) :=
  (columnOf fields name).bind fun c =>
    if c.segmentId = 0 then none else some (c.segmentId, c.dimensions)

variable {fields : List VectorFieldConfig} {name : String} {c : VectorFieldConfig}
  {f : VectorFieldConfig → VectorFieldConfig} {m m' : NamespaceMeta} {patch : Option Json}
  {metric : Option DistanceMetric}

theorem name_of_columnOf (h : columnOf fields name = some c) : c.name = name := by
  simpa using find?_some h

theorem columnOf_eq_none :
    columnOf fields name = none ↔ name ∉ fields.map VectorFieldConfig.name := by
  simp [columnOf]

theorem columnOf_of_mem (hnodup : (fields.map VectorFieldConfig.name).Nodup) (h : c ∈ fields) :
    columnOf fields c.name = some c := by
  induction fields with
  | nil => cases h
  | cons b fields ih =>
    simp only [map_cons, nodup_cons] at hnodup
    rcases mem_cons.mp h with rfl | hmem
    · simp [columnOf]
    · have hne : b.name ≠ c.name := fun heq => hnodup.1 (heq ▸ mem_map_of_mem hmem)
      rw [columnOf, find?_cons_of_neg (by simpa using hne)]
      exact ih hnodup.2 hmem

theorem mem_of_columnOf (h : columnOf fields name = some c) : c ∈ fields :=
  mem_of_find?_eq_some h

theorem any_name_eq (fields : List VectorFieldConfig) (name : String) :
    (fields.any fun f => f.name = name) = (columnOf fields name).isSome := by
  rw [Bool.eq_iff_iff, columnOf, List.find?_isSome, List.any_eq_true]

/-! ## Refreshing and adding -/

/-- Data of the columns that the change leaves alone. -/
theorem map_updateVectorField {α : Type} {g : VectorFieldConfig → α} (name : String)
    (hf : ∀ c, g (f c) = g c) (fields : List VectorFieldConfig) :
    (updateVectorField name f fields).map g = fields.map g := by
  induction fields with
  | nil => rfl
  | cons c cs ih =>
    simp only [updateVectorField]
    split
    · simp [hf]
    · simp [ih]

theorem columnOf_updateVectorField (hf : ∀ c, (f c).name = c.name)
    (fields : List VectorFieldConfig) (other : String) :
    columnOf (updateVectorField name f fields) other
      = if other = name then (columnOf fields other).map f else columnOf fields other := by
  induction fields with
  | nil => simp [updateVectorField, columnOf]
  | cons c cs ih =>
    simp only [columnOf] at ih
    simp only [updateVectorField, columnOf]
    by_cases hname : c.name = name
    · rw [if_pos hname]
      by_cases hother : c.name = other
      · simp [hf, hname ▸ hother, hname]
      · have hne : other ≠ name := fun h => hother (hname.trans h.symm)
        simp [hf, hother, hne]
    · rw [if_neg hname]
      by_cases hother : c.name = other
      · have hne : other ≠ name := fun h => hname (hother.trans h)
        simp [hother, hne]
      · simp [hother, ih]

/-- Refresh the column of a name, or add it while there is room. -/
theorem columnOf_upsert (hf : ∀ c, (f c).name = c.name) {new : VectorFieldConfig}
    (hnew : new.name = name) (fields : List VectorFieldConfig) (other : String) :
    columnOf (if fields.any (fun c => c.name = name) then updateVectorField name f fields
        else if fields.length < maxVectorFields then fields ++ [new] else fields) other
      = if other = name then
          ((columnOf fields name).map f).or
            (if fields.length < maxVectorFields then some new else none)
        else columnOf fields other := by
  rw [any_name_eq]
  cases hcol : columnOf fields name with
  | some c =>
    rw [if_pos isSome_some, columnOf_updateVectorField hf]
    split
    · rename_i heq
      rw [heq, hcol]
      rfl
    · rfl
  | none =>
    rw [if_neg (by simp)]
    split
    · split
      · rename_i heq
        rw [columnOf, find?_append, ← columnOf, heq, hcol]
        simp [hnew]
      · rename_i hne
        rw [columnOf, find?_append]
        simp [hnew, Ne.symm hne, columnOf]
    · split
      · rename_i heq
        rw [heq, hcol]
        rfl
      · rfl

/-! ## Appends -/

theorem columnOf_hydrateVectorField (schema : Json) (fields : List VectorFieldConfig)
    (name other : String) :
    columnOf (hydrateVectorField schema fields name) other
      = if other = name then
          ((columnOf fields name).map fun slot =>
            { slot with
              dimensions :=
                if slot.segmentId = 0 then (vectorDimensionsForField schema name).getD 0
                else slot.dimensions
              element := vectorElementForField schema name }).or
            (if fields.length < maxVectorFields then
              some
                { name
                  dimensions := (vectorDimensionsForField schema name).getD 0
                  element := vectorElementForField schema name
                  segmentId := 0
                  segmentIds := [] }
            else none)
        else columnOf fields other := by
  refine columnOf_upsert ?_ ?_ fields other
  · exact fun _ => rfl
  · rfl

/-- The schema changes neither a segment nor the dimension that goes with it. -/
theorem indexedColumn_hydrateVectorField (schema : Json) (fields : List VectorFieldConfig)
    (name other : String) :
    indexedColumn (hydrateVectorField schema fields name) other = indexedColumn fields other := by
  rw [indexedColumn, columnOf_hydrateVectorField, indexedColumn]
  split
  · rename_i heq
    rw [heq]
    cases columnOf fields name with
    | none =>
      simp only [map_none, none_or]
      split <;> rfl
    | some c =>
      simp only [map_some, some_or, bind_some]
      split <;> rfl
  · rfl

theorem indexedColumn_hydrate (schema : Json) (names : List String)
    (fields : List VectorFieldConfig) (other : String) :
    indexedColumn (names.foldl (hydrateVectorField schema) fields) other
      = indexedColumn fields other := by
  induction names generalizing fields with
  | nil => rfl
  | cons name names ih => rw [foldl_cons, ih, indexedColumn_hydrateVectorField]

theorem isSome_columnOf_hydrate {other : String} (h : (columnOf fields other).isSome = true)
    (schema : Json) (names : List String) :
    (columnOf (names.foldl (hydrateVectorField schema) fields) other).isSome = true := by
  induction names generalizing fields with
  | nil => exact h
  | cons name names ih =>
    refine ih ?_
    rw [columnOf_hydrateVectorField]
    split
    · rename_i heq
      obtain ⟨c, hc⟩ := isSome_iff_exists.mp h
      rw [← heq, hc]
      rfl
    · exact h

theorem ne_nil_of_columnOf (h : (columnOf fields name).isSome = true) : fields ≠ [] := by
  rintro rfl
  cases h

/-- Only the single-column fields of old metadata change. -/
theorem syncLegacyVectorFields_eq (m : NamespaceMeta) :
    ∃ name dims id ids, syncLegacyVectorFields m =
      { m with vectorField := name, dimensions := dims, vectorSegmentId := id,
               vectorSegmentIds := ids } := by
  unfold syncLegacyVectorFields
  split
  · exact ⟨_, _, _, _, rfl⟩
  · split
    · exact ⟨_, _, _, _, rfl⟩
    · exact ⟨_, _, _, _, rfl⟩

@[simp] theorem vectorFields_syncLegacyVectorFields (m : NamespaceMeta) :
    (syncLegacyVectorFields m).vectorFields = m.vectorFields := by
  obtain ⟨name, dims, id, ids, h⟩ := syncLegacyVectorFields_eq m
  rw [h]

/-- The columns after an append. -/
theorem vectorFields_walCommit {seq : Nat}
    (h : metaAfterWalCommitOptions m seq patch metric = .ok m') :
    ∃ schema, patchedSchema m patch = .ok schema ∧
      m'.vectorFields = ((vectorFieldsFromSchema schema).take maxVectorFields).foldl
        (hydrateVectorField schema) m.vectorFields := by
  obtain ⟨-, schema, resolved, hschema, -, rfl⟩ := metaAfterWalCommitOptions_inv h
  refine ⟨schema, hschema, ?_⟩
  simp [metaAtCommit, hydrateVectorFieldsFromSchema]

theorem indexedColumn_walCommit {seq : Nat}
    (h : metaAfterWalCommitOptions m seq patch metric = .ok m') (field : String) :
    indexedColumn m'.vectorFields field = indexedColumn m.vectorFields field := by
  obtain ⟨schema, -, hfields⟩ := vectorFields_walCommit h
  rw [hfields, indexedColumn_hydrate]

/-! ## Metadata without a list of columns -/

/-- There is no column that only the fields of old metadata name. -/
def NamespaceMeta.NoLegacy (m : NamespaceMeta) : Prop := m.vectorFields = [] → m.vectorField = ""

theorem effectiveVectorFields_eq (h : m.NoLegacy) : effectiveVectorFields m = m.vectorFields := by
  rw [effectiveVectorFields]
  split
  · rfl
  · rename_i hnil
    rw [if_pos (.inl (h (not_not.mp hnil))), not_not.mp hnil]

theorem NamespaceMeta.NoLegacy.sync (h : m.NoLegacy) : (syncLegacyVectorFields m).NoLegacy := by
  intro hnil
  rw [vectorFields_syncLegacyVectorFields] at hnil
  rw [syncLegacyVectorFields, hnil]
  simp [h hnil]

theorem NamespaceMeta.NoLegacy.walCommit {seq : Nat} (hm : m.NoLegacy)
    (h : metaAfterWalCommitOptions m seq patch metric = .ok m') : m'.NoLegacy := by
  obtain ⟨-, schema, resolved, -, -, rfl⟩ := metaAfterWalCommitOptions_inv h
  refine NamespaceMeta.NoLegacy.sync (m := hydrateVectorFieldsFromSchema _) ?_
  intro hnil
  refine hm ?_
  cases hfields : m.vectorFields with
  | nil => rfl
  | cons c cs =>
    have hcol : (columnOf m.vectorFields c.name).isSome = true := by
      rw [hfields]
      simp [columnOf]
    exact absurd hnil (ne_nil_of_columnOf (isSome_columnOf_hydrate hcol schema _))

/-! ## Index commits -/

/-- An index commit stores the columns it is given. -/
theorem metaAfterIndexCommit_vectorFields {cursor fts filter ann : Nat}
    (h : metaAfterIndexCommit m cursor fts filter fields ann = .ok m') :
    m'.vectorFields = fields := by
  obtain ⟨-, -, version, rfl⟩ := metaAfterIndexCommit_inv h
  simp [metaAtCursor]

theorem columnOf_indexVectorField (schema : Json) (toSeq : Nat) (fields : List VectorFieldConfig)
    (built : String × Nat) (other : String) :
    columnOf (indexVectorField schema toSeq fields built) other
      = if other = built.1 then
          ((columnOf fields built.1).map fun f =>
            { f with
              dimensions := built.2
              element := vectorElementForField schema built.1
              segmentId := toSeq
              segmentIds := pushSegmentId f.segmentIds toSeq }).or
            (if fields.length < maxVectorFields then
              some
                { name := built.1
                  dimensions := built.2
                  element := vectorElementForField schema built.1
                  segmentId := toSeq
                  segmentIds := pushSegmentId [] toSeq }
            else none)
        else columnOf fields other := by
  refine columnOf_upsert ?_ ?_ fields other
  · exact fun _ => rfl
  · rfl

/-- A pass that does not build a column leaves it. -/
theorem columnOf_index_of_not_mem {other : String} {built : List (String × Nat)}
    (h : other ∉ built.map Prod.fst) (schema : Json) (toSeq : Nat)
    (fields : List VectorFieldConfig) :
    columnOf (built.foldl (indexVectorField schema toSeq) fields) other
      = columnOf fields other := by
  induction built generalizing fields with
  | nil => rfl
  | cons b built ih =>
    simp only [map_cons, mem_cons, not_or] at h
    rw [foldl_cons, ih h.2, columnOf_indexVectorField, if_neg h.1]

/-- A pass never lowers the segment of a column below its own. -/
theorem columnOf_index_of_le {toSeq : Nat} (hcol : columnOf fields name = some c)
    (hle : c.segmentId ≤ toSeq) (schema : Json) (built : List (String × Nat)) :
    ∃ g, columnOf (built.foldl (indexVectorField schema toSeq) fields) name = some g ∧
      c.segmentId ≤ g.segmentId := by
  induction built generalizing fields c with
  | nil => exact ⟨c, hcol, Nat.le_refl _⟩
  | cons b built ih =>
    rw [foldl_cons]
    by_cases hname : name = b.1
    · have hnext : ∃ c', columnOf (indexVectorField schema toSeq fields b) name = some c' ∧
          c'.segmentId = toSeq := by
        rw [columnOf_indexVectorField, if_pos hname, ← hname, hcol]
        exact ⟨_, rfl, rfl⟩
      obtain ⟨c', hc', hseg⟩ := hnext
      obtain ⟨g, hg, hge⟩ := ih hc' (Nat.le_of_eq hseg)
      exact ⟨g, hg, hle.trans (hseg ▸ hge)⟩
    · exact ih (by rw [columnOf_indexVectorField, if_neg hname]; exact hcol) hle

/-- A pass that builds a column of the list gives it its segment. -/
theorem indexedColumn_index_of_mem {field : String} {dims toSeq : Nat} (hto : toSeq ≠ 0)
    {built : List (String × Nat)} (hmem : (field, dims) ∈ built)
    (huniq : ∀ b ∈ built, b.1 = field → b.2 = dims) (schema : Json)
    (hcol : (columnOf fields field).isSome = true) :
    indexedColumn (built.foldl (indexVectorField schema toSeq) fields) field
      = some (toSeq, dims) := by
  induction built generalizing fields with
  | nil => cases hmem
  | cons b built ih =>
    have hnext : (columnOf (indexVectorField schema toSeq fields b) field).isSome = true := by
      rw [columnOf_indexVectorField]
      split
      · rename_i heq
        rw [← heq]
        obtain ⟨c, hc⟩ := isSome_iff_exists.mp hcol
        rw [hc]
        rfl
      · exact hcol
    rw [foldl_cons]
    by_cases hlater : (field, dims) ∈ built
    · exact ih hlater (fun b' hb' => huniq b' (mem_cons_of_mem b hb')) hnext
    · have hb : b = (field, dims) := ((mem_cons.mp hmem).resolve_right hlater).symm
      have hnot : field ∉ built.map Prod.fst := by
        intro hfield
        obtain ⟨b', hb', hname⟩ := mem_map.mp hfield
        have hdims := huniq b' (mem_cons_of_mem b hb') hname
        exact hlater (hname ▸ hdims ▸ hb')
      obtain ⟨c, hc⟩ := isSome_iff_exists.mp hcol
      rw [indexedColumn, columnOf_index_of_not_mem hnot, columnOf_indexVectorField, hb,
        if_pos rfl, hc]
      simp [hto]

end OpenPuffer
