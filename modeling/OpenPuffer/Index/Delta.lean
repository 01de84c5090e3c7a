import OpenPuffer.Buffer.GroupCommit
import OpenPuffer.Index.Filter
import OpenPuffer.Index.Fts

/-!
# The delta of an index pass

As long as no entry has patches an index pass applies the entries one by one.  At the first
entry with patches it starts over: it collects one list of deletes and the latest version of
every document that was written, and applies the two as a single delta, deletes first.  The
summary is right as long as no document in it is gone at the end (`WritesSurvive`).
-/

namespace OpenPuffer

open List Option FilterSegment WalEntry DocMap

/-! ## Collecting a delta -/

def WalEntry.writtenIds (e : WalEntry) : List String :=
  e.upserts.map WalUpsert.id ++ e.patches.map WalPatch.id

/-- The state of the collection: the documents so far, the latest versions of
those written, and the deletes. -/
structure DeltaState where
  baseline : DocMap
  upsertMap : DocMap := ∅
  deletes : List String := []

/-- Record the current version of a document. -/
def recordUpsert (baseline upsertMap : DocMap) (id : String) : DocMap :=
  match baseline.lookup id with
  | none => upsertMap
  | some attributes => upsertMap.insert id attributes

def DeltaState.collect (st : DeltaState) (entry : WalEntry) : DeltaState :=
  let baseline := applyEntry st.baseline entry
  { baseline
    upsertMap := entry.writtenIds.foldl (recordUpsert baseline) st.upsertMap
    deletes := st.deletes ++ entry.deletes }

/-- The documents to insert and the ids to delete for some entries. -/
def collectIndexDelta (o : IterOrder String) (baseline : DocMap) (entries : List WalEntry) :
    List Document × List String :=
  let st := entries.foldl DeltaState.collect { baseline }
  ((HashMap.iter o st.upsertMap).map fun p => ⟨p.1, p.2⟩, st.deletes)

def hasPatches (entries : List WalEntry) : Bool := entries.any fun e => !e.patches.isEmpty

/-- The delta of some entries on the documents at the index cursor. -/
def indexDeltaFromWalEntries (o : IterOrder String) (docs : DocMap) (entries : List WalEntry) :
    List Document × List String :=
  if hasPatches entries then collectIndexDelta o docs entries
  else (entries.flatMap WalEntry.intoDocuments, entries.flatMap WalEntry.deletes)

/-! ## Streaming -/

/-- The segments that a pass keeps up to date. -/
structure Segments where
  fts : FtsSegment
  filter : FilterSegment

structure Segments.Represent (env : TextEnv) (schema : Json) (segs : Segments) (docs : DocMap) :
    Prop where
  fts : segs.fts.Represents env docs
  filter : segs.filter.Represents env.order schema docs

section Stream

variable (env : TextEnv) (schema : Json)

def Segments.applyDelta (segs : Segments) (upserts : List Document) (deletes : List String) :
    Segments where
  fts := segs.fts.applyDelta env upserts deletes
  filter := segs.filter.applyDelta env.order schema upserts deletes

/-- What a pass has applied so far. -/
structure StreamState where
  segs : Segments
  upserts : List Document := []
  deletes : List String := []

/-- Apply the remaining entries, or start over with all of them at the first one
that has patches. -/
def streamEntries (docs : DocMap) (initial : Segments) (all : List WalEntry) (st : StreamState) :
    List WalEntry → StreamState
  | [] => st
  | entry :: rest =>
    if entry.patches ≠ [] then
      let (u, d) := indexDeltaFromWalEntries env.order docs all
      { segs := initial.applyDelta env schema u d, upserts := u, deletes := d }
    else
      streamEntries docs initial all
        { segs := st.segs.applyDelta env schema entry.intoDocuments entry.deletes
          upserts := st.upserts ++ entry.intoDocuments
          deletes := st.deletes ++ entry.deletes }
        rest

/-- Replay entries on top of the segments at the index cursor. -/
def streamIndexDeltaFromWal (docs : DocMap) (segs : Segments) (entries : List WalEntry) :
    StreamState :=
  streamEntries env schema docs segs entries { segs } entries

end Stream

/-! ## The summary -/

theorem lookup_recordAll (baseline : DocMap) (ids : List String) (upsertMap : DocMap)
    (id : String) :
    (ids.foldl (recordUpsert baseline) upsertMap).lookup id
      = if id ∈ ids then (baseline.lookup id).or (upsertMap.lookup id)
        else upsertMap.lookup id := by
  induction ids generalizing upsertMap with
  | nil => simp
  | cons i ids ih =>
    rw [foldl_cons, ih, recordUpsert]
    by_cases h : id = i
    · subst h
      cases hb : baseline.lookup id with
      | none => simp
      | some a => simp
    · cases baseline.lookup i with
      | none => simp [h]
      | some a => simp [h]

/-- What the collection has recorded of an id, compared with the documents. -/
structure DeltaState.Tracks (docs : DocMap) (st : DeltaState) (id : String) : Prop where
  present : ∀ a, st.baseline.lookup id = some a → st.upsertMap.lookup id = some a ∨
    (st.upsertMap.lookup id = none ∧ id ∉ st.deletes ∧ docs.lookup id = some a)
  absent : st.baseline.lookup id = none → st.upsertMap.lookup id = none →
    id ∈ st.deletes ∨ docs.lookup id = none

variable {e : WalEntry} {id : String} {docs : DocMap} {st : DeltaState} {entries : List WalEntry}

/-- An entry that does not write an id leaves it or deletes it. -/
theorem lookup_applyEntry_of_not_written (h : id ∉ e.writtenIds) (docs : DocMap) :
    (applyEntry docs e).lookup id = if id ∈ e.deletes then none else docs.lookup id := by
  simp only [writtenIds, mem_append, not_or] at h
  rw [lookup_applyEntry, act, lastUpsert_of_not_mem h.1, patched_of_not_mem h.2]
  simp

theorem DeltaState.Tracks.collect (h : st.Tracks docs id) (entry : WalEntry) :
    (st.collect entry).Tracks docs id := by
  by_cases hw : id ∈ entry.writtenIds
  · constructor
    · intro a ha
      left
      simp only [DeltaState.collect, lookup_recordAll, hw, if_true] at ha ⊢
      rw [ha, some_or]
    · intro hnone hmap
      simp only [DeltaState.collect, lookup_recordAll, hw, mem_append] at hnone hmap ⊢
      rw [hnone] at hmap
      rw [lookup_applyEntry, act, map_eq_none_iff, or_eq_none_iff] at hnone
      by_cases hd : id ∈ entry.deletes
      · exact .inl (.inr hd)
      · rw [if_neg hd] at hnone
        exact (h.absent hnone.2 hmap).imp_left .inl
  · have hbase := lookup_applyEntry_of_not_written hw st.baseline
    by_cases hd : id ∈ entry.deletes
    · rw [if_pos hd] at hbase
      constructor
      · intro a ha
        simp only [DeltaState.collect] at ha
        rw [hbase] at ha
        cases ha
      · intro _ _
        exact .inl (mem_append_right _ hd)
    · rw [if_neg hd] at hbase
      constructor
      · intro a ha
        simp only [DeltaState.collect, lookup_recordAll, hw, mem_append, hd, or_false] at ha ⊢
        rw [hbase] at ha
        exact h.present a ha
      · intro hnone hmap
        simp only [DeltaState.collect, lookup_recordAll, hw, mem_append, hd,
          or_false] at hnone hmap ⊢
        rw [hbase] at hnone
        exact h.absent hnone hmap

theorem DeltaState.Tracks.collectAll (h : st.Tracks docs id) (entries : List WalEntry) :
    (entries.foldl DeltaState.collect st).Tracks docs id := by
  induction entries generalizing st with
  | nil => exact h
  | cons entry entries ih => exact ih (h.collect entry)

theorem tracks_initial (docs : DocMap) (id : String) :
    DeltaState.Tracks docs { baseline := docs } id where
  present := fun _ ha => .inr ⟨rfl, not_mem_nil, ha⟩
  absent := fun hnone _ => .inr hnone

theorem baseline_collectAll (entries : List WalEntry) (st : DeltaState) :
    (entries.foldl DeltaState.collect st).baseline = entries.foldl applyEntry st.baseline := by
  induction entries generalizing st with
  | nil => rfl
  | cons entry entries ih => exact ih (st.collect entry)

/-- The documents of a map, inserted into another one. -/
theorem lookup_mergeDelta_iter (o : IterOrder String) (docs upserts : DocMap)
    (deletes : List String) (id : String) :
    (docs.mergeDelta ((HashMap.iter o upserts).map fun p => ⟨p.1, p.2⟩) deletes).lookup id
      = (upserts.lookup id).or (if id ∈ deletes then none else docs.lookup id) := by
  have hlist := upserts.lists_iter o
  have hself := lookup_insertAll _ ∅ id hlist.nodup
  rw [Finmap.lookup_empty, or_none] at hself
  rw [mergeDelta, lookup_insertAll _ _ id hlist.nodup, ← hself,
    lookup_foldl_erase]
  congr 2
  exact hlist.mergeDelta_empty

/-- Every document that an entry leaves written is there in the end. -/
def WritesSurvive (docs : DocMap) : List WalEntry → Prop
  | [] => True
  | e :: es =>
    (∀ id ∈ e.writtenIds, (applyEntry docs e).lookup id ≠ none →
      (es.foldl applyEntry (applyEntry docs e)).lookup id ≠ none) ∧
    WritesSurvive (applyEntry docs e) es

instance decidableWritesSurvive : ∀ (docs : DocMap) (entries : List WalEntry),
    Decidable (WritesSurvive docs entries)
  | _, [] => isTrue trivial
  | docs, e :: es =>
    have := decidableWritesSurvive (applyEntry docs e) es
    inferInstanceAs (Decidable (_ ∧ _))

/-- What has been recorded survives exactly if all writes do. -/
theorem recorded_survive_iff (entries : List WalEntry) (st : DeltaState) :
    (∀ id, (entries.foldl DeltaState.collect st).upsertMap.lookup id ≠ none →
        (entries.foldl applyEntry st.baseline).lookup id ≠ none) ↔
      (∀ id, st.upsertMap.lookup id ≠ none →
        (entries.foldl applyEntry st.baseline).lookup id ≠ none) ∧
      WritesSurvive st.baseline entries := by
  induction entries generalizing st with
  | nil => simp [WritesSurvive]
  | cons e entries ih =>
    have hrec : ∀ id, (st.collect e).upsertMap.lookup id ≠ none ↔
        st.upsertMap.lookup id ≠ none ∨
          (id ∈ e.writtenIds ∧ (applyEntry st.baseline e).lookup id ≠ none) := by
      intro id
      simp only [DeltaState.collect, lookup_recordAll]
      split
      · rename_i hw
        simp only [ne_eq, or_eq_none_iff, not_and_or, hw, true_and]
        exact or_comm
      · rename_i hw
        simp [hw]
    rw [foldl_cons, foldl_cons]
    rw [show applyEntry st.baseline e = (st.collect e).baseline from rfl, ih (st.collect e)]
    simp only [hrec]
    constructor
    · rintro ⟨hall, hrest⟩
      exact ⟨fun id h => hall id (.inl h), fun id hw h => hall id (.inr ⟨hw, h⟩), hrest⟩
    · rintro ⟨hold, hnew, hrest⟩
      exact ⟨fun id h => h.elim (hold id) fun hw => hnew id hw.1 hw.2, hrest⟩

/-- Where the summary and the replay can differ: at a document that was written
and is gone. -/
theorem lookup_collectIndexDelta (o : IterOrder String) (docs : DocMap) (entries : List WalEntry)
    (id : String) :
    (docs.mergeDelta (collectIndexDelta o docs entries).1
        (collectIndexDelta o docs entries).2).lookup id
      = ((entries.foldl applyEntry docs).lookup id).or
        ((entries.foldl DeltaState.collect { baseline := docs }).upsertMap.lookup id) := by
  have htracks := (tracks_initial docs id).collectAll entries
  have hbase := baseline_collectAll entries { baseline := docs }
  rw [collectIndexDelta, lookup_mergeDelta_iter, ← hbase]
  generalize entries.foldl DeltaState.collect { baseline := docs } = st at htracks ⊢
  cases hb : st.baseline.lookup id with
  | some a =>
    rcases htracks.present a hb with hmap | ⟨hmap, hdel, hdoc⟩
    · rw [hmap, some_or, some_or]
    · rw [hmap, if_neg hdel, hdoc, none_or, some_or]
  | none =>
    cases hmap : st.upsertMap.lookup id with
    | some a => rfl
    | none =>
      rcases htracks.absent hb hmap with hdel | hdoc
      · rw [if_pos hdel]
      · rw [hdoc]
        simp

theorem collectIndexDelta_eq_iff (o : IterOrder String) (docs : DocMap)
    (entries : List WalEntry) :
    (∀ id, (entries.foldl applyEntry docs).lookup id = none →
        (docs.mergeDelta (collectIndexDelta o docs entries).1
          (collectIndexDelta o docs entries).2).lookup id = none) ↔
      WritesSurvive docs entries := by
  have hiff := recorded_survive_iff entries { baseline := docs }
  have hold : ∀ id, ((∅ : DocMap).lookup id ≠ none →
      (entries.foldl applyEntry docs).lookup id ≠ none) := fun _ h => absurd rfl h
  rw [and_iff_right hold] at hiff
  rw [← hiff]
  simp only [lookup_collectIndexDelta, or_eq_none_iff]
  refine forall_congr' fun id => ?_
  constructor
  · exact fun h hmap hnone => hmap (h hnone).2
  · exact fun h hnone => ⟨hnone, by_contra fun hmap => h hmap hnone⟩

theorem mergeDelta_collectIndexDelta (h : WritesSurvive docs entries) (o : IterOrder String) :
    docs.mergeDelta (collectIndexDelta o docs entries).1 (collectIndexDelta o docs entries).2
      = entries.foldl applyEntry docs := by
  apply HashMap.ext_lookup
  intro id
  have hgone := (collectIndexDelta_eq_iff o docs entries).mpr h id
  cases hfinal : (entries.foldl applyEntry docs).lookup id with
  | none => exact hgone hfinal
  | some a => rw [lookup_collectIndexDelta, hfinal, some_or]

/-! ## The summary without patches -/

theorem lookup_mergeDelta (docs : DocMap) (us : List WalUpsert) (deletes : List String)
    (id : String) :
    (docs.mergeDelta (us.map fun u => ⟨u.id, u.attributes⟩) deletes).lookup id
      = (lastUpsert id us).or (if id ∈ deletes then none else docs.lookup id) := by
  rw [mergeDelta, foldl_map, lookup_foldl_insert, lookup_foldl_erase]

theorem flatMap_intoDocuments (entries : List WalEntry) :
    entries.flatMap WalEntry.intoDocuments
      = (entries.flatMap WalEntry.upserts).map fun u => ⟨u.id, u.attributes⟩ := by
  rw [map_flatMap]
  rfl

theorem applyEntry_of_no_patches (h : e.patches = []) (docs : DocMap) :
    applyEntry docs e = docs.mergeDelta e.intoDocuments e.deletes := by
  simp [applyEntry, mergeDelta, patchDocuments, h]

theorem hasPatches_cons (e : WalEntry) (entries : List WalEntry) :
    hasPatches (e :: entries) = true ↔ e.patches ≠ [] ∨ hasPatches entries = true := by
  simp [hasPatches]

theorem hasPatches_eq_false_iff : hasPatches entries = false ↔ ∀ e ∈ entries, e.patches = [] := by
  simp [hasPatches]

theorem hasPatches_cons_eq_false (h : hasPatches (e :: entries) = false) :
    e.patches = [] ∧ hasPatches entries = false := by
  have hnot : ¬(e.patches ≠ [] ∨ hasPatches entries = true) := by
    rw [← hasPatches_cons, h]
    exact Bool.false_ne_true
  rw [not_or, not_not, Bool.not_eq_true] at hnot
  exact hnot

/-- An upsert of the first entry is deleted by a later one only if it does not
survive. -/
theorem mergeDelta_of_no_patches (hp : hasPatches entries = false)
    (h : WritesSurvive docs entries) :
    docs.mergeDelta (entries.flatMap WalEntry.intoDocuments) (entries.flatMap WalEntry.deletes)
      = entries.foldl applyEntry docs := by
  induction entries generalizing docs with
  | nil => rfl
  | cons e entries ih =>
    obtain ⟨hnone, hrest⟩ := hasPatches_cons_eq_false hp
    obtain ⟨hfirst, hlater⟩ := h
    rw [foldl_cons, ← ih hrest hlater]
    rw [← ih hrest hlater] at hfirst
    apply HashMap.ext_lookup
    intro id
    have hwritten := hfirst id
    rw [writtenIds, hnone, map_nil, append_nil] at hwritten
    rw [flatMap_intoDocuments (e :: entries)]
    simp only [applyEntry_of_no_patches hnone, flatMap_intoDocuments, intoDocuments, flatMap_cons,
      lookup_mergeDelta, lastUpsert_append] at hwritten ⊢
    cases hlast : lastUpsert id (entries.flatMap upserts) with
    | some a => rfl
    | none =>
      cases hown : lastUpsert id e.upserts with
      | none => by_cases hd : id ∈ e.deletes <;> simp [hd]
      | some a =>
        have hid : id ∈ e.upserts.map WalUpsert.id := by
          by_contra hnot
          rw [lastUpsert_of_not_mem hnot] at hown
          cases hown
        have hkept := hwritten hid (by simp [hown])
        simp only [hlast, none_or, some_or] at hkept ⊢
        rw [if_neg fun hd => hkept (if_pos hd)]

/-! ## Properties of attributes -/

def DocMap.All (P : Attributes → Prop) (docs : DocMap) : Prop :=
  ∀ id attrs, docs.lookup id = some attrs → P attrs

structure WalEntry.All (P : Attributes → Prop) (e : WalEntry) : Prop where
  upserts : ∀ u ∈ e.upserts, P u.attributes
  patches : ∀ p ∈ e.patches, P p.attributes

instance {P : Attributes → Prop} [DecidablePred P] (e : WalEntry) : Decidable (e.All P) :=
  decidable_of_iff ((∀ u ∈ e.upserts, P u.attributes) ∧ ∀ p ∈ e.patches, P p.attributes)
    ⟨fun h => ⟨h.1, h.2⟩, fun h => ⟨h.upserts, h.patches⟩⟩

structure Mergeable (P : Attributes → Prop) : Prop where
  empty : P ∅
  merge : ∀ {doc patch}, P doc → P patch → P (mergeDocumentAttributes doc patch)

section Properties

variable {P : Attributes → Prop}

theorem of_lastUpsert {id : String} {us : List WalUpsert} {a : Attributes}
    (hall : ∀ u ∈ us, P u.attributes) (h : lastUpsert id us = some a) : P a := by
  induction us with
  | nil => cases h
  | cons u us ih =>
    rw [lastUpsert, or_eq_some_iff] at h
    rcases h with h | ⟨-, h⟩
    · exact ih (fun v hv => hall v (mem_cons_of_mem u hv)) h
    · split at h
      · cases h
        exact hall u mem_cons_self
      · cases h

theorem Mergeable.patched (hP : Mergeable P) {ps : List WalPatch}
    (hall : ∀ p ∈ ps, P p.attributes) (id : String) : P (patched id ps) := by
  induction ps with
  | nil => exact hP.empty
  | cons p ps ih =>
    refine hP.merge ?_ (ih fun r hr => hall r (mem_cons_of_mem p hr))
    split
    · exact hall p mem_cons_self
    · exact hP.empty

theorem DocMap.All.applyEntry (hP : Mergeable P) {docs : DocMap} (hdocs : docs.All P)
    {e : WalEntry} (he : e.All P) : (applyEntry docs e).All P := by
  intro id attrs h
  rw [lookup_applyEntry, act, map_eq_some_iff] at h
  obtain ⟨doc, hdoc, rfl⟩ := h
  refine hP.merge ?_ (hP.patched he.patches id)
  rw [or_eq_some_iff] at hdoc
  rcases hdoc with hdoc | ⟨-, hdoc⟩
  · exact of_lastUpsert he.upserts hdoc
  · split at hdoc
    · cases hdoc
    · exact hdocs id doc hdoc

theorem DocMap.All.applyEntries (hP : Mergeable P) {docs : DocMap} (hdocs : docs.All P)
    {entries : List WalEntry} (hall : ∀ e ∈ entries, e.All P) :
    (entries.foldl OpenPuffer.applyEntry docs).All P := by
  induction entries generalizing docs with
  | nil => exact hdocs
  | cons e entries ih =>
    exact ih (hdocs.applyEntry hP (hall e mem_cons_self))
      fun f hf => hall f (mem_cons_of_mem e hf)

/-- The versions that the collection records are versions of documents. -/
theorem DeltaState.all_collect (hP : Mergeable P) {entries : List WalEntry}
    (hall : ∀ e ∈ entries, e.All P) {st : DeltaState} (hbase : st.baseline.All P)
    (hmap : st.upsertMap.All P) : (entries.foldl DeltaState.collect st).upsertMap.All P := by
  induction entries generalizing st with
  | nil => exact hmap
  | cons e entries ih =>
    have hnext := hbase.applyEntry hP (hall e mem_cons_self)
    refine ih (fun f hf => hall f (mem_cons_of_mem e hf)) hnext ?_
    intro id attrs h
    simp only [DeltaState.collect, lookup_recordAll] at h
    split at h
    · rw [or_eq_some_iff] at h
      rcases h with h | ⟨-, h⟩
      · exact hnext id attrs h
      · exact hmap id attrs h
    · exact hmap id attrs h

end Properties

/-- A summary is right if all writes survive. -/
theorem mergeDelta_indexDelta (h : WritesSurvive docs entries) (o : IterOrder String) :
    docs.mergeDelta (indexDeltaFromWalEntries o docs entries).1
        (indexDeltaFromWalEntries o docs entries).2 = entries.foldl applyEntry docs := by
  rw [indexDeltaFromWalEntries]
  cases hp : hasPatches entries with
  | false => exact mergeDelta_of_no_patches hp h
  | true => exact mergeDelta_collectIndexDelta h o

theorem all_indexDelta {P : Attributes → Prop} (hP : Mergeable P) (hdocs : docs.All P)
    (hall : ∀ e ∈ entries, e.All P) (o : IterOrder String) :
    ∀ doc ∈ (indexDeltaFromWalEntries o docs entries).1, P doc.attributes := by
  intro doc hdoc
  rw [indexDeltaFromWalEntries] at hdoc
  split at hdoc
  · have hempty : All P ∅ := by
      intro id attrs h
      cases h
    exact DeltaState.all_collect hP hall hdocs hempty doc.id doc.attributes
      (((lists_iter _ o).mem doc).mp hdoc)
  · rw [flatMap_intoDocuments, List.mem_map] at hdoc
    obtain ⟨u, hu, rfl⟩ := hdoc
    obtain ⟨e, he, hue⟩ := List.mem_flatMap.mp hu
    exact (hall e he).upserts u hue

/-! ## The summary on other documents -/

theorem lookup_insertDocuments_of_not_mem {us : List Document} (h : id ∉ us.map Document.id)
    (docs : DocMap) :
    (us.foldl (fun ds doc => ds.insert doc.id doc.attributes) docs).lookup id
      = docs.lookup id := by
  induction us generalizing docs with
  | nil => rfl
  | cons u us ih =>
    simp only [map_cons, mem_cons, not_or] at h
    rw [foldl_cons, ih h.2, HashMap.lookup_insert_ite, if_neg h.1]

theorem lookup_insertDocuments_of_mem {us : List Document} (h : id ∈ us.map Document.id)
    (docs docs' : DocMap) :
    (us.foldl (fun ds doc => ds.insert doc.id doc.attributes) docs).lookup id
      = (us.foldl (fun ds doc => ds.insert doc.id doc.attributes) docs').lookup id := by
  induction us generalizing docs docs' with
  | nil => cases h
  | cons u us ih =>
    rw [foldl_cons, foldl_cons]
    by_cases hlater : id ∈ us.map Document.id
    · exact ih hlater _ _
    · have hid : id = u.id := (mem_cons.mp h).resolve_right hlater
      rw [lookup_insertDocuments_of_not_mem hlater, lookup_insertDocuments_of_not_mem hlater,
        HashMap.lookup_insert_ite, HashMap.lookup_insert_ite, if_pos hid, if_pos hid]

/-- A delta changes the documents that it names, all to the same end. -/
theorem lookup_mergeDelta_cases (docs docs' : DocMap) (us : List Document) (ds : List String)
    (id : String) :
    (docs.mergeDelta us ds).lookup id = (docs'.mergeDelta us ds).lookup id ∨
      (id ∉ us.map Document.id ∧ id ∉ ds ∧
        (docs.mergeDelta us ds).lookup id = docs.lookup id) := by
  rw [mergeDelta, mergeDelta]
  by_cases hu : id ∈ us.map Document.id
  · exact .inl (lookup_insertDocuments_of_mem hu _ _)
  · rw [lookup_insertDocuments_of_not_mem hu, lookup_insertDocuments_of_not_mem hu,
      lookup_foldl_erase, lookup_foldl_erase]
    by_cases hd : id ∈ ds
    · exact .inl (by rw [if_pos hd, if_pos hd])
    · exact .inr ⟨hu, hd, if_neg hd⟩

theorem lookup_applyEntries_of_untouched (h : ∀ e ∈ entries, id ∉ e.writtenIds ∧ id ∉ e.deletes)
    (docs : DocMap) : (entries.foldl applyEntry docs).lookup id = docs.lookup id := by
  induction entries generalizing docs with
  | nil => rfl
  | cons e entries ih =>
    obtain ⟨hw, hd⟩ := h e mem_cons_self
    rw [foldl_cons, ih (fun f hf => h f (mem_cons_of_mem e hf)),
      lookup_applyEntry_of_not_written hw, if_neg hd]

/-- The collection never forgets an id. -/
theorem DeltaState.unnamed_of_collectAll
    (hu : (entries.foldl DeltaState.collect st).upsertMap.lookup id = none)
    (hd : id ∉ (entries.foldl DeltaState.collect st).deletes) :
    st.upsertMap.lookup id = none ∧ id ∉ st.deletes := by
  induction entries generalizing st with
  | nil => exact ⟨hu, hd⟩
  | cons e entries ih =>
    obtain ⟨hu', hd'⟩ := ih hu hd
    simp only [DeltaState.collect, lookup_recordAll] at hu' hd'
    refine ⟨?_, fun hmem => hd' (mem_append_left _ hmem)⟩
    split at hu'
    · exact (or_eq_none_iff.mp hu').2
    · exact hu'

/-- A document that a summary does not name is the same after each of the
entries. -/
theorem lookup_of_not_in_indexDelta {done rest : List WalEntry} {o : IterOrder String}
    (hu : id ∉ (indexDeltaFromWalEntries o docs (done ++ rest)).1.map Document.id)
    (hd : id ∉ (indexDeltaFromWalEntries o docs (done ++ rest)).2) :
    (done.foldl applyEntry docs).lookup id = docs.lookup id := by
  rw [indexDeltaFromWalEntries] at hu hd
  cases hp : hasPatches (done ++ rest) with
  | true =>
    rw [if_pos hp] at hu hd
    rw [collectIndexDelta, foldl_append] at hu hd
    have hmap : (rest.foldl DeltaState.collect
        (done.foldl DeltaState.collect { baseline := docs })).upsertMap.lookup id = none := by
      rw [eq_none_iff_forall_ne_some]
      intro attrs hattrs
      exact hu (mem_map_of_mem (((lists_iter _ o).mem ⟨id, attrs⟩).mpr hattrs))
    obtain ⟨hmap', hdel'⟩ := DeltaState.unnamed_of_collectAll hmap hd
    have htracks := (tracks_initial docs id).collectAll done
    rw [← baseline_collectAll done { baseline := docs }]
    cases hb : (done.foldl DeltaState.collect { baseline := docs }).baseline.lookup id with
    | some a =>
      rcases htracks.present a hb with hsome | ⟨-, -, hdoc⟩
      · rw [hmap'] at hsome
        cases hsome
      · exact hdoc.symm
    | none => exact ((htracks.absent hb hmap').resolve_left hdel').symm
  | false =>
    rw [if_neg (by rw [hp]; exact Bool.false_ne_true)] at hu hd
    have hnone := hasPatches_eq_false_iff.mp hp
    refine lookup_applyEntries_of_untouched ?_ docs
    intro e he
    have he' := mem_append_left rest he
    refine ⟨?_, fun hmem => hd (mem_flatMap.mpr ⟨e, he', hmem⟩)⟩
    rw [writtenIds, hnone e he', map_nil, append_nil]
    intro hmem
    obtain ⟨u, hus, rfl⟩ := mem_map.mp hmem
    refine hu (mem_map.mpr ⟨⟨u.id, u.attributes⟩, ?_, rfl⟩)
    exact mem_flatMap.mpr ⟨e, he', mem_map_of_mem hus⟩

/-! ## A pass over the segments -/

section Pass

variable {env : TextEnv} {schema : Json}

variable {segs : Segments} {docs : DocMap}

theorem Segments.Represent.applyDelta (h : segs.Represent env schema docs)
    (upserts : List Document) (deletes : List String) :
    (segs.applyDelta env schema upserts deletes).Represent env schema
      (docs.mergeDelta upserts deletes) where
  fts := h.fts.applyDelta upserts deletes
  filter := h.filter.applyDelta upserts deletes

/-- Filter segments tell which documents exist. -/
theorem Segments.Represent.lookup_eq_none_iff {docs' : DocMap}
    (h : segs.Represent env schema docs) (h' : segs.Represent env schema docs') (id : String) :
    docs.lookup id = none ↔ docs'.lookup id = none := by
  have hids := (FilterSegment.represents_iff.mp h.filter).allDocIds id
  rw [(FilterSegment.represents_iff.mp h'.filter).allDocIds] at hids
  simp only [FilterSegment.keysOf, DocMap.get, isSome_map] at hids
  rw [← not_isSome_iff_eq_none, ← not_isSome_iff_eq_none, hids]

theorem streamEntries_of_patches {initial : Segments} {all rest : List WalEntry}
    (h : hasPatches rest = true) (hall : hasPatches all = true) (st : StreamState) :
    streamEntries env schema docs initial all st rest
      = { segs := initial.applyDelta env schema (collectIndexDelta env.order docs all).1
            (collectIndexDelta env.order docs all).2
          upserts := (collectIndexDelta env.order docs all).1
          deletes := (collectIndexDelta env.order docs all).2 } := by
  induction rest generalizing st with
  | nil => cases h
  | cons e rest ih =>
    rw [streamEntries]
    split
    · rw [indexDeltaFromWalEntries, if_pos hall]
    · rename_i hnone
      exact ih (((hasPatches_cons e rest).mp h).resolve_left hnone) _

theorem streamEntries_of_no_patches {initial : Segments} {all rest : List WalEntry}
    (h : hasPatches rest = false) (st : StreamState) :
    (streamEntries env schema docs initial all st rest).upserts
        = st.upserts ++ rest.flatMap WalEntry.intoDocuments ∧
      (streamEntries env schema docs initial all st rest).deletes
        = st.deletes ++ rest.flatMap WalEntry.deletes ∧
      ∀ docs', st.segs.Represent env schema docs' →
        (streamEntries env schema docs initial all st rest).segs.Represent env schema
          (rest.foldl applyEntry docs') := by
  induction rest generalizing st with
  | nil => simp [streamEntries]
  | cons e rest ih =>
    have hnot := hasPatches_cons_eq_false h
    have hnext := ih hnot.2
      { segs := st.segs.applyDelta env schema e.intoDocuments e.deletes
        upserts := st.upserts ++ e.intoDocuments
        deletes := st.deletes ++ e.deletes }
    rw [streamEntries, if_neg (not_not.mpr hnot.1)]
    refine ⟨by simp [hnext.1], by simp [hnext.2.1], ?_⟩
    intro docs' hrep
    rw [foldl_cons, applyEntry_of_no_patches hnot.1]
    exact hnext.2.2 _ (hrep.applyDelta _ _)

/-- What a pass hands to the vector indexes: its entries as one delta. -/
theorem streamIndexDelta_eq (env : TextEnv) (schema : Json) (docs : DocMap) (segs : Segments)
    (entries : List WalEntry) :
    (streamIndexDeltaFromWal env schema docs segs entries).upserts
        = (indexDeltaFromWalEntries env.order docs entries).1 ∧
      (streamIndexDeltaFromWal env schema docs segs entries).deletes
        = (indexDeltaFromWalEntries env.order docs entries).2 := by
  rw [streamIndexDeltaFromWal, indexDeltaFromWalEntries]
  cases hp : hasPatches entries with
  | false =>
    rw [(streamEntries_of_no_patches hp _).1, (streamEntries_of_no_patches hp _).2.1]
    exact ⟨rfl, rfl⟩
  | true =>
    rw [streamEntries_of_patches hp hp]
    exact ⟨rfl, rfl⟩

/-- A pass without patches applies its entries one by one. -/
theorem represent_of_no_patches (hsegs : segs.Represent env schema docs) {entries : List WalEntry}
    (h : hasPatches entries = false) :
    (streamIndexDeltaFromWal env schema docs segs entries).segs.Represent env schema
      (entries.foldl applyEntry docs) :=
  (streamEntries_of_no_patches h _).2.2 docs hsegs

/-- A pass with patches applies a summary, which is right if all writes survive. -/
theorem represent_iff_of_patches (hsegs : segs.Represent env schema docs)
    {entries : List WalEntry} (h : hasPatches entries = true) :
    (streamIndexDeltaFromWal env schema docs segs entries).segs.Represent env schema
        (entries.foldl applyEntry docs) ↔ WritesSurvive docs entries := by
  rw [streamIndexDeltaFromWal, streamEntries_of_patches h h]
  have hmerged := hsegs.applyDelta (collectIndexDelta env.order docs entries).1
    (collectIndexDelta env.order docs entries).2
  constructor
  · intro hrep
    rw [← collectIndexDelta_eq_iff env.order]
    intro id hgone
    rw [← hmerged.lookup_eq_none_iff hrep] at hgone
    exact hgone
  · intro hsurvive
    rw [mergeDelta_collectIndexDelta hsurvive] at hmerged
    exact hmerged

/-- A pass brings both segments to the documents after its entries exactly if it
applies them one by one or every document that they write is there in the end. -/
theorem streamIndexDelta_represents_iff {docs : DocMap} {segs : Segments}
    (hsegs : segs.Represent env schema docs) (entries : List WalEntry) :
    (streamIndexDeltaFromWal env schema docs segs entries).segs.Represent env schema
        (entries.foldl applyEntry docs) ↔
      (∀ e ∈ entries, e.patches = []) ∨ WritesSurvive docs entries := by
  cases hp : hasPatches entries with
  | false =>
    have hnone := hasPatches_eq_false_iff.mp hp
    exact iff_of_true (represent_of_no_patches hsegs hp) (.inl hnone)
  | true =>
    have hsome : ¬∀ e ∈ entries, e.patches = [] := by
      simpa [hasPatches] using hp
    rw [or_iff_right hsome]
    exact represent_iff_of_patches hsegs hp

end Pass

theorem represent_empty (env : TextEnv) (schema : Json) :
    Segments.Represent env schema { fts := {}, filter := {} } ∅ where
  fts := FtsSegment.represents_iff.mpr (FtsSegment.holds_empty 0 "")
  filter := represents_iff.mpr (holds_empty 0)

/-- Create a document and set an attribute of it in the same entry. -/
def createAndPatch : WalEntry where
  upserts := [⟨"x", ∅⟩]
  patches := [⟨"x", (∅ : Attributes).insert "title" (.str "Rust")⟩]

/-- A patched document that stays is indexed with its patch. -/
theorem streamIndexDelta_createAndPatch :
    (streamIndexDeltaFromWal asciiEnv .null ∅ { fts := {}, filter := {} }
        [createAndPatch]).segs.Represent asciiEnv .null (applyEntry ∅ createAndPatch) :=
  (streamIndexDelta_represents_iff (represent_empty asciiEnv .null) [createAndPatch]).mpr
    (.inr ⟨by decide +kernel, trivial⟩)

/-- A document that is created next to a patch and deleted by a later entry is in
the filter segment after the pass. -/
theorem streamIndexDelta_resurrects :
    ∃ (docs : DocMap) (segs : Segments) (entries : List WalEntry),
      segs.Represent asciiEnv .null docs ∧ (entries.foldl applyEntry docs).lookup "x" = none ∧
        "x" ∈ (streamIndexDeltaFromWal asciiEnv .null docs segs entries).segs.filter.allDocIds ∧
        ¬(streamIndexDeltaFromWal asciiEnv .null docs segs entries).segs.Represent asciiEnv .null
          (entries.foldl applyEntry docs) := by
  refine ⟨∅, { fts := {}, filter := {} }, [createAndPatch, { deletes := ["x"] }],
    represent_empty _ _, by decide +kernel, by decide +kernel, ?_⟩
  intro hrep
  have hids := (represents_iff.mp hrep.filter).allDocIds "x"
  revert hids
  decide +kernel

end OpenPuffer
