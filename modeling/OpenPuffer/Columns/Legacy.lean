import OpenPuffer.Columns

/-!
# Appends to namespaces with old metadata

Old metadata has no list of vector columns.  It names a single column, whose index is under
keys without a field name as long as the list is empty (`vectorIndexUsesLegacyPaths`).  An
append fills the list from the schema (`columnSegments_hydrate`).  It does not know the single
column: that one is added as if it had never been indexed, or is gone.  The indexer starts from
it (`indexedVectorFields`).
-/

namespace OpenPuffer

open List

/-! ## What the schema adds to the list -/

def columnSegments (fields : List VectorFieldConfig) : List (String × Nat) :=
  fields.map fun c => (c.name, c.segmentId)

theorem columnSegments_hydrateVectorField (schema : Json) (fields : List VectorFieldConfig)
    (name : String) :
    columnSegments (hydrateVectorField schema fields name) = columnSegments fields ∧
        (name ∈ fields.map VectorFieldConfig.name ∨ maxVectorFields ≤ fields.length) ∨
      columnSegments (hydrateVectorField schema fields name)
        = columnSegments fields ++ [(name, 0)] := by
  simp only [hydrateVectorField, any_name_eq]
  split
  · rename_i hcol
    obtain ⟨c, hc⟩ := Option.isSome_iff_exists.mp hcol
    refine .inl ⟨?_, .inl ?_⟩
    · rw [columnSegments, map_updateVectorField, columnSegments]
      exact fun _ => rfl
    · exact name_of_columnOf hc ▸ mem_map_of_mem (mem_of_columnOf hc)
  · split
    · right
      simp [columnSegments]
    · exact .inl ⟨rfl, .inr (by omega)⟩

theorem mem_columnSegments {fields : List VectorFieldConfig} {name : String} {id : Nat} :
    (name, id) ∈ columnSegments fields ↔ ∃ c ∈ fields, c.name = name ∧ c.segmentId = id := by
  simp [columnSegments]

theorem map_name_eq_columnSegments (fields : List VectorFieldConfig) :
    fields.map VectorFieldConfig.name = (columnSegments fields).map Prod.fst := by
  simp [columnSegments]

/-- The list stays as it is up to the data of its columns, and the names of the
schema that are new to it follow without a segment. -/
theorem columnSegments_hydrate (schema : Json) (names : List String)
    (fields : List VectorFieldConfig) :
    ∃ added : List String,
      columnSegments (names.foldl (hydrateVectorField schema) fields)
        = columnSegments fields ++ added.map (fun name => (name, 0)) ∧
      (∀ name ∈ added, name ∈ names) ∧
      (fields.length + names.length ≤ maxVectorFields →
        ∀ name ∈ names, name ∈ fields.map VectorFieldConfig.name ∨ name ∈ added) := by
  induction names generalizing fields with
  | nil => exact ⟨[], by simp⟩
  | cons name names ih =>
    obtain ⟨added, hadded, hfrom, hall⟩ := ih (hydrateVectorField schema fields name)
    rw [map_name_eq_columnSegments] at hall
    rw [foldl_cons, hadded]
    have hlength (fields : List VectorFieldConfig) :
        fields.length = (columnSegments fields).length := by
      simp [columnSegments]
    rw [hlength] at hall
    rcases columnSegments_hydrateVectorField schema fields name with ⟨hsame, hold⟩ | hnew
    · rw [hsame, ← map_name_eq_columnSegments, ← hlength] at hall
      refine ⟨added, by rw [hsame], fun n hn => mem_cons_of_mem _ (hfrom n hn), ?_⟩
      intro hroom n hn
      rw [length_cons] at hroom
      rcases mem_cons.mp hn with rfl | hn
      · exact .inl (hold.resolve_right (by omega))
      · exact hall (by omega) n hn
    · rw [hnew] at hall
      refine ⟨name :: added, by simp [hnew], ?_, ?_⟩
      · intro n hn
        rcases mem_cons.mp hn with rfl | hn
        · exact mem_cons_self
        · exact mem_cons_of_mem _ (hfrom n hn)
      · intro hroom n hn
        rw [length_cons] at hroom
        rcases mem_cons.mp hn with rfl | hn
        · exact .inr mem_cons_self
        · have := hall (by simp [columnSegments]; omega) n hn
          simpa [columnSegments, or_assoc] using this

/-! ## The columns that count -/

/-- The column of old metadata. -/
theorem effectiveVectorFields_cases (m : NamespaceMeta) :
    effectiveVectorFields m = m.vectorFields ∨
      m.vectorFields = [] ∧ ∃ c, effectiveVectorFields m = [c] ∧ c.name = m.vectorField ∧
        c.segmentId = m.vectorSegmentId := by
  rw [effectiveVectorFields]
  split
  · exact .inl rfl
  · rename_i hnil
    split
    · exact .inl (not_not.mp hnil).symm
    · exact .inr ⟨not_not.mp hnil, _, rfl, rfl, rfl⟩

/-- The columns that counted before a commit still do, none of them with an older
segment, and an index that was found under the old keys is found there or was
copied to the new ones. -/
def VectorIndexKept (copied : String → Prop) (m m' : NamespaceMeta) : Prop :=
  ∀ c ∈ effectiveVectorFields m, ∃ c' ∈ effectiveVectorFields m',
    c'.name = c.name ∧ c.segmentId ≤ c'.segmentId ∧
      (vectorIndexUsesLegacyPaths m c.name →
        vectorIndexUsesLegacyPaths m' c.name ∨ c'.segmentId = c.segmentId ∧ copied c.name)

/-- Either there is no column that only old metadata names, or the schema adds no
column, or it adds that one and there is no index of it yet. -/
def LegacyColumnSafe (m : NamespaceMeta) (schemaPatch : Option Json) : Prop :=
  effectiveVectorFields m = m.vectorFields ∨
    ∀ schema, patchedSchema m schemaPatch = .ok schema →
      vectorFieldsFromSchema schema = [] ∨
        m.vectorField ∈ (vectorFieldsFromSchema schema).take maxVectorFields ∧
          m.vectorSegmentId = 0

variable {m m' : NamespaceMeta} {patch : Option Json} {metric : Option DistanceMetric}

/-- An append that leaves the list empty leaves the column of old metadata. -/
theorem effectiveVectorFields_of_nil {seq : Nat}
    (h : metaAfterWalCommitOptions m seq patch metric = .ok m') (hnil : m'.vectorFields = [])
    {c : VectorFieldConfig} (hc : effectiveVectorFields m = [c]) (hm : m.vectorFields = []) :
    effectiveVectorFields m' = [c] ∧
      ∀ field, vectorIndexUsesLegacyPaths m' field = vectorIndexUsesLegacyPaths m field := by
  obtain ⟨-, schema, resolved, -, -, rfl⟩ := metaAfterWalCommitOptions_inv h
  have hlist : (hydrateVectorFieldsFromSchema
      { m with walCommitSeq := seq, schema }).vectorFields = [] := by
    simpa [metaAtCommit] using hnil
  have hnamed : m.vectorField ≠ "" ∧ m.dimensions > 0 := by
    by_contra hno
    have : m.vectorField = "" ∨ m.dimensions = 0 := by
      by_cases hname : m.vectorField = ""
      · exact .inl hname
      · exact .inr (Nat.eq_zero_of_not_pos fun hdims => hno ⟨hname, hdims⟩)
    simp [effectiveVectorFields, hm, this] at hc
  have hsync : syncLegacyVectorFields (hydrateVectorFieldsFromSchema
        { m with walCommitSeq := seq, schema })
      = hydrateVectorFieldsFromSchema { m with walCommitSeq := seq, schema } := by
    rw [syncLegacyVectorFields, hlist]
    exact if_pos hnamed
  have hsame : metaAtCommit m seq schema resolved =
      { m with walCommitSeq := seq, schema, distanceMetric := resolved } := by
    rw [metaAtCommit, hsync]
    simp only [hydrateVectorFieldsFromSchema] at hlist ⊢
    rw [hlist, ← hm]
  rw [hsame]
  exact ⟨hc, fun _ => rfl⟩

/-- A list with columns in it is kept by every append. -/
theorem vectorIndexKept_of_listed {seq : Nat}
    (h : metaAfterWalCommitOptions m seq patch metric = .ok m')
    (hlisted : effectiveVectorFields m = m.vectorFields) (copied : String → Prop) :
    VectorIndexKept copied m m' := by
  intro c hc
  rw [hlisted] at hc
  obtain ⟨schema, -, hfields⟩ := vectorFields_walCommit h
  obtain ⟨added, hsegments, -, -⟩ := columnSegments_hydrate schema
    ((vectorFieldsFromSchema schema).take maxVectorFields) m.vectorFields
  rw [← hfields] at hsegments
  obtain ⟨c', hc', hname, hid⟩ := mem_columnSegments.mp
    (hsegments ▸ mem_append_left _ (mem_columnSegments.mpr ⟨c, hc, rfl, rfl⟩))
  refine ⟨c', ?_, hname, hid.ge, ?_⟩
  · rwa [effectiveVectorFields, if_pos (ne_nil_of_mem hc')]
  · intro hlegacy
    simp only [vectorIndexUsesLegacyPaths, decide_eq_true_eq] at hlegacy
    exact absurd hlegacy.1 (ne_nil_of_mem hc)

/-- An append to old metadata: the list has the first names of the schema, and
none of them has a segment. -/
theorem columnSegments_walCommit_of_nil {seq : Nat}
    (h : metaAfterWalCommitOptions m seq patch metric = .ok m') (hm : m.vectorFields = [])
    {schema : Json} (hschema : patchedSchema m patch = .ok schema) (name : String) (id : Nat) :
    (name, id) ∈ columnSegments m'.vectorFields ↔
      name ∈ (vectorFieldsFromSchema schema).take maxVectorFields ∧ id = 0 := by
  obtain ⟨schema', hschema', hfields⟩ := vectorFields_walCommit h
  obtain rfl : schema = schema' := Except.ok.inj (hschema.symm.trans hschema')
  obtain ⟨added, hsegments, hfrom, hall⟩ := columnSegments_hydrate schema
    ((vectorFieldsFromSchema schema).take maxVectorFields) m.vectorFields
  have hadded : ∀ name ∈ (vectorFieldsFromSchema schema).take maxVectorFields, name ∈ added := by
    simpa [hm] using hall (by simp [hm])
  rw [hfields, hsegments, hm]
  simp only [columnSegments, map_nil, nil_append, mem_map, Prod.mk.injEq]
  constructor
  · rintro ⟨n, hn, rfl, rfl⟩
    exact ⟨hfrom n hn, rfl⟩
  · rintro ⟨hn, rfl⟩
    exact ⟨name, hadded name hn, rfl, rfl⟩

theorem walCommit_keeps_vectorIndex {m m' : NamespaceMeta} {seq : Nat} {patch : Option Json}
    {metric : Option DistanceMetric} (h : metaAfterWalCommitOptions m seq patch metric = .ok m')
    (copied : String → Prop) :
    VectorIndexKept copied m m' ↔ LegacyColumnSafe m patch := by
  rcases effectiveVectorFields_cases m with hlisted | ⟨hm, old, hold, hname, hid⟩
  · exact iff_of_true (vectorIndexKept_of_listed h hlisted copied) (.inl hlisted)
  · constructor
    · intro hkept
      refine .inr fun schema hschema => ?_
      have hsegments := columnSegments_walCommit_of_nil h hm hschema
      by_cases hnone : vectorFieldsFromSchema schema = []
      · exact .inl hnone
      · obtain ⟨name, hfirst⟩ : ∃ name, name ∈ (vectorFieldsFromSchema schema).take
            maxVectorFields := by
          obtain ⟨name, names, heq⟩ := exists_cons_of_ne_nil hnone
          exact ⟨name, by simp [heq, maxVectorFields]⟩
        obtain ⟨first, hmem, -, -⟩ := mem_columnSegments.mp ((hsegments name 0).mpr ⟨hfirst, rfl⟩)
        obtain ⟨c, hc, hcname, hcid, -⟩ := hkept old (by simp [hold])
        rw [effectiveVectorFields, if_pos (ne_nil_of_mem hmem)] at hc
        obtain ⟨hdeclared, hzero⟩ := (hsegments c.name c.segmentId).mp
          (mem_columnSegments.mpr ⟨c, hc, rfl, rfl⟩)
        exact .inr ⟨hname ▸ hcname ▸ hdeclared, by omega⟩
    · rintro (hlisted | hsafe)
      · rw [hm, hold] at hlisted
        cases hlisted
      · obtain ⟨schema, hschema, hfields⟩ := vectorFields_walCommit h
        intro c hc
        rw [hold, mem_singleton] at hc
        subst hc
        rcases hsafe schema hschema with hnone | ⟨hdeclared, hzero⟩
        · have hnil : m'.vectorFields = [] := by simp [hfields, hnone, hm]
          obtain ⟨heff, hpaths⟩ := effectiveVectorFields_of_nil h hnil hold hm
          exact ⟨c, by simp [heff], rfl, Nat.le_refl _, fun hl => .inl ((hpaths _).trans hl)⟩
        · obtain ⟨c', hc', hname', hid'⟩ := mem_columnSegments.mp
            ((columnSegments_walCommit_of_nil h hm hschema m.vectorField 0).mpr ⟨hdeclared, rfl⟩)
          refine ⟨c', ?_, hname'.trans hname.symm, by omega, ?_⟩
          · rwa [effectiveVectorFields, if_pos (ne_nil_of_mem hc')]
          · intro hlegacy
            simp only [vectorIndexUsesLegacyPaths, decide_eq_true_eq] at hlegacy
            omega

/-- Old metadata of a namespace whose column `vector` was indexed at segment 3. -/
def legacyMeta (schema : List (String × Json)) : NamespaceMeta :=
  { indexCursor := 3, walCommitSeq := 3, vectorField := "vector", dimensions := 2,
    vectorSegmentId := 3, vectorSegmentIds := [3], schema := .obj schema }

/-- Without a schema the index is still found. -/
theorem walCommit_keeps_undeclared_index :
    metaAfterWalCommitOptions (legacyMeta []) 4 none none
        = .ok { legacyMeta [] with walCommitSeq := 4 } ∧
      VectorIndexKept (fun _ => False) (legacyMeta [])
        { legacyMeta [] with walCommitSeq := 4 } := by
  have hok : metaAfterWalCommitOptions (legacyMeta []) 4 none none
      = .ok { legacyMeta [] with walCommitSeq := 4 } := by rfl
  refine ⟨hok, (walCommit_keeps_vectorIndex hok _).mpr (.inr ?_)⟩
  intro schema hschema
  cases hschema
  exact .inl rfl

/-- If the schema declares the column, any write forgets its index. -/
theorem walCommit_forgets_declared_index :
    ∃ m', metaAfterWalCommitOptions (legacyMeta [("vector", .str "[2]f32")]) 4 none none = .ok m' ∧
      (effectiveVectorFields (legacyMeta [("vector", .str "[2]f32")])).map
        VectorFieldConfig.segmentId = [3] ∧
      (effectiveVectorFields m').map VectorFieldConfig.segmentId = [0] ∧
      ∀ copied, ¬ VectorIndexKept copied (legacyMeta [("vector", .str "[2]f32")]) m' := by
  refine ⟨metaAtCommit (legacyMeta [("vector", .str "[2]f32")]) 4
    (.obj [("vector", .str "[2]f32")]) .cosineDistance, rfl, rfl, by decide +kernel, ?_⟩
  intro copied hkept
  obtain ⟨c, hc, -, hid, -⟩ := hkept _ (mem_singleton_self _)
  have hnone : ∀ c ∈ effectiveVectorFields (metaAtCommit (legacyMeta [("vector", .str "[2]f32")]) 4
      (.obj [("vector", .str "[2]f32")]) .cosineDistance), c.segmentId = 0 := by
    decide +kernel
  rw [hnone c hc] at hid
  exact absurd hid (by decide)

end OpenPuffer
