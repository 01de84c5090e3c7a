import OpenPuffer.Index.Filter
import OpenPuffer.Index.FtsHistory

/-!
# A filter segment along a history

Every delta of a history brings the schema of its time, and its upserts are indexed in the
fields that this schema selects.  When a document is written again, all its old postings go.
So a segment holds the last-written version of every id, in the fields of the schema that it
was written under (`keysOfVersion`).
-/

namespace OpenPuffer

open List

/-- The arguments of one `apply_delta`, and the order in which it sees the attributes of a
document. -/
structure SchemaDelta extends DocDelta where
  schema : Json
  order : IterOrder String := .sorted String

abbrev SchemaChange := Json × DocChange

def SchemaDelta.schemaChanges (d : SchemaDelta) : List SchemaChange :=
  d.toDocDelta.changes.map fun c => (d.schema, c)

/-- The last-written version of an id and the schema of the call that wrote it, if the id
was not deleted since. -/
def lastWritten (changes : List SchemaChange) (id : String) : Option (Json × Document) :=
  (changes.reverse.find? fun c => c.2.id = id).bind fun c => c.2.version.map fun doc => (c.1, doc)

def versionKeys (v : Json × Document) : String → Option ValueKey :=
  FilterSegment.docKeys (filterFieldsFromSchema v.1) v.2

def keysOfVersion (changes : List SchemaChange) (id : String) :
    Option (String → Option ValueKey) :=
  (lastWritten changes id).map versionKeys

theorem keysOfVersion_concat (changes : List SchemaChange) (c : SchemaChange) :
    keysOfVersion (changes ++ [c]) = Function.update (keysOfVersion changes) c.2.id
      (c.2.version.map fun doc => versionKeys (c.1, doc)) := by
  funext id
  rw [keysOfVersion, lastWritten, reverse_append, reverse_singleton,
    singleton_append, find?_cons, Function.update_apply]
  by_cases h : c.2.id = id
  · simp [h, Function.comp_def]
  · simp [h, Ne.symm h, keysOfVersion, lastWritten]

namespace FilterSegment

def applyChange (o : IterOrder String) (seg : FilterSegment) (c : SchemaChange) : FilterSegment :=
  match c.2 with
  | .delete id => seg.removeDocument id
  | .upsert doc =>
    addDocument o (filterFieldsFromSchema c.1) (seg.removeDocument doc.id) doc

theorem applyDelta_eq_foldl (seg : FilterSegment) (d : SchemaDelta) :
    applyDelta d.order d.schema seg d.upserts d.deletes
      = d.schemaChanges.foldl (applyChange d.order) seg := by
  simp only [applyDelta, SchemaDelta.schemaChanges, DocDelta.changes, map_append,
    map_map, foldl_append, foldl_map, Function.comp_apply, applyChange]

variable {seg : FilterSegment} {changes : List SchemaChange}

theorem Holds.change (h : seg.Holds (keysOfVersion changes)) (o : IterOrder String)
    (c : SchemaChange) : (seg.applyChange o c).Holds (keysOfVersion (changes ++ [c])) := by
  rw [keysOfVersion_concat]
  obtain ⟨schema, change⟩ := c
  cases change with
  | delete id => exact h.remove id
  | upsert doc =>
    have hadd := (h.remove doc.id).add o (filterFieldsFromSchema schema) doc
      (Function.update_self _ _ _)
    rw [Function.update_idem] at hadd
    exact hadd

theorem Holds.delta (h : seg.Holds (keysOfVersion changes)) (d : SchemaDelta) :
    (applyDelta d.order d.schema seg d.upserts d.deletes).Holds
      (keysOfVersion (changes ++ d.schemaChanges)) := by
  rw [applyDelta_eq_foldl]
  generalize d.schemaChanges = cs
  induction cs generalizing seg changes with
  | nil =>
    rw [append_nil]
    exact h
  | cons c cs ih =>
    rw [append_cons]
    exact ih (h.change d.order c)

/-- The segment after the deltas of a history. -/
def applyDeltas (segmentId : Nat) (deltas : List SchemaDelta) : FilterSegment :=
  deltas.foldl (fun seg d => applyDelta d.order d.schema seg d.upserts d.deletes) { segmentId }

theorem holds_applyDeltas (segmentId : Nat) (deltas : List SchemaDelta) :
    (applyDeltas segmentId deltas).Holds
      (keysOfVersion (deltas.flatMap SchemaDelta.schemaChanges)) := by
  induction deltas using reverseRecOn with
  | nil => exact holds_empty segmentId
  | append_singleton deltas d ih =>
    rw [applyDeltas, foldl_append, flatMap_append, flatMap_singleton]
    exact ih.delta d

/-- After every history, the ids are those whose last change is an upsert.  The ids under a
field and a key are those whose last version has the key in a field that the schema of its
own call selects.  No field is without keys and no key is without ids. -/
theorem applyDeltas_history (segmentId : Nat) (deltas : List SchemaDelta) :
    let changes := deltas.flatMap SchemaDelta.schemaChanges
    let seg := applyDeltas segmentId deltas
    (∀ id, id ∈ seg.allDocIds ↔ (lastWritten changes id).isSome) ∧
      (∀ field key id, id ∈ seg.postings.idsAt field key ↔
        ∃ schema doc, lastWritten changes id = some (schema, doc) ∧
          (filterFieldsFromSchema schema = [] ∨ field ∈ filterFieldsFromSchema schema) ∧
          fieldKey doc field = some key) ∧
      ∀ field m, seg.postings.lookup field = some m →
        m ≠ ∅ ∧ ∀ key ids, m.lookup key = some ids → ids ≠ ∅ := by
  intro changes seg
  have h : seg.Holds (keysOfVersion changes) := holds_applyDeltas segmentId deltas
  refine ⟨fun id => ?_, fun field key id => ?_, fun field m hm => ⟨?_, fun key ids hids => ?_⟩⟩
  · rw [h.allDocIds, keysOfVersion, Option.isSome_map]
  · simp only [h.postings, keysOfVersion, Option.bind_map, Option.bind_eq_some_iff,
      Function.comp_apply, versionKeys, docKeys, Option.ite_none_right_eq_some, Prod.exists]
  · intro hempty
    exact h.tidy.fields field (hempty ▸ hm)
  · intro hempty
    refine h.tidy.values field key ?_
    rw [HashMap.getOr, hm, ← hempty]
    exact hids

end FilterSegment

end OpenPuffer
