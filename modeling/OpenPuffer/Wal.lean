import OpenPuffer.Json
import OpenPuffer.Lib.HashMap
import OpenPuffer.Lib.RegularAction

/-!
# Write-ahead log entries and their replay

One WAL object holds one batch: upserts, attribute patches and deletes.  `applyEntry` replays a
batch into a document map: all deletes, then all upserts, then all patches.  An entry is also a
list of operations on single documents (`WalEntry.ops`).  They form a regular action: a document
does not show an operation it has seen before once it is applied again (`applyOp_regular`).
-/

namespace OpenPuffer

open List HashMap

abbrev Attributes := HashMap String Json

/-- A row of a write request or of a query result. -/
structure Document where
  id : String
  attributes : Attributes
deriving DecidableEq

/-- The document map of the source, `HashMap<String, Document>`.  Every key
there is the id of its document, so only the attributes are stored. -/
abbrev DocMap := HashMap String Attributes

/-- `docs.get(id)`. -/
def DocMap.get (docs : DocMap) (id : String) : Option Document :=
  (docs.lookup id).map fun attributes => { id, attributes }

/-- The list has each document of the map once. -/
structure DocMap.Lists (docs : DocMap) (list : List Document) : Prop where
  nodup : (list.map Document.id).Nodup
  mem : ∀ doc, doc ∈ list ↔ docs.lookup doc.id = some doc.attributes

/-- Delete some documents, then insert others. -/
def DocMap.mergeDelta (docs : DocMap) (upserts : List Document) (deletes : List String) : DocMap :=
  upserts.foldl (fun ds doc => ds.insert doc.id doc.attributes)
    (deletes.foldl (fun ds id => ds.erase id) docs)

theorem DocMap.lists_iter (docs : DocMap) (o : IterOrder String) :
    docs.Lists ((HashMap.iter o docs).map fun p => ⟨p.1, p.2⟩) where
  nodup := by
    rw [map_map]
    exact nodup_iter o docs
  mem := by
    rintro ⟨id, attributes⟩
    rw [← mem_iter (o := o)]
    constructor
    · intro h
      obtain ⟨p, hp, heq⟩ := mem_map.mp h
      cases heq
      exact hp
    · exact fun h => mem_map.mpr ⟨_, h, rfl⟩

theorem DocMap.lookup_insertAll (list : List Document) (docs : DocMap) (id : String)
    (hnodup : (list.map Document.id).Nodup) :
    (list.foldl (fun ds doc => ds.insert doc.id doc.attributes) docs).lookup id
      = ((list.find? fun doc => doc.id = id).map Document.attributes).or (docs.lookup id) := by
  induction list generalizing docs with
  | nil => rfl
  | cons doc list ih =>
    obtain ⟨hnot, hrest⟩ := nodup_cons.mp hnodup
    rw [foldl_cons, ih _ hrest]
    by_cases h : doc.id = id
    · have hnone : list.find? (fun d => d.id = id) = none := by
        rw [find?_eq_none]
        intro d hd heq
        exact hnot (by rw [h, ← of_decide_eq_true heq]; exact mem_map_of_mem hd)
      simp [h, hnone]
    · simp [h, Ne.symm h]

/-- A map is what its documents insert. -/
theorem DocMap.Lists.mergeDelta_empty {docs : DocMap} {list : List Document}
    (h : docs.Lists list) : DocMap.mergeDelta ∅ list [] = docs := by
  apply ext_lookup
  intro id
  rw [DocMap.mergeDelta, foldl_nil, DocMap.lookup_insertAll list ∅ id h.nodup]
  cases hfind : list.find? (fun doc => doc.id = id) with
  | none =>
    cases hl : docs.lookup id with
    | none => rfl
    | some a =>
      have hmem := (h.mem ⟨id, a⟩).mpr hl
      have hne := find?_eq_none.mp hfind _ hmem
      simp at hne
  | some doc =>
    have hid : doc.id = id := by simpa using find?_some hfind
    have hmem := mem_of_find?_eq_some hfind
    rw [← hid, (h.mem doc).mp hmem]
    rfl

/-! ## Indexes over a document map -/

/-- Operations on an index that do to it what erasing and inserting a document
do to the map. -/
structure Mirrors {σ : Type} (R : σ → DocMap → Prop) (remove : σ → String → σ)
    (add : σ → Document → σ) : Prop where
  remove : ∀ {s docs} id, R s docs → R (remove s id) (docs.erase id)
  add : ∀ {s docs} doc, R s docs → docs.lookup doc.id = none →
    R (add s doc) (docs.insert doc.id doc.attributes)

section Mirrors

variable {σ : Type} {R : σ → DocMap → Prop} {remove : σ → String → σ} {add : σ → Document → σ}

variable {s : σ} {docs : DocMap}

section

variable (hm : Mirrors R remove add)

include hm

theorem Mirrors.removeAll (ids : List String) (h : R s docs) :
    R (ids.foldl remove s) (ids.foldl (fun ds id => ds.erase id) docs) := by
  induction ids generalizing s docs with
  | nil => exact h
  | cons id ids ih => exact ih (hm.remove id h)

theorem Mirrors.replace (doc : Document) (h : R s docs) :
    R (add (remove s doc.id) doc) (docs.insert doc.id doc.attributes) := by
  have hadded := hm.add doc (hm.remove doc.id h) (Finmap.lookup_erase doc.id docs)
  rw [insert_erase] at hadded
  exact hadded

/-- A delta does to the index what it does to the documents. -/
theorem Mirrors.mergeDelta (upserts : List Document)
    (deletes : List String) (h : R s docs) :
    R (upserts.foldl (fun s doc => add (remove s doc.id) doc) (deletes.foldl remove s))
      (docs.mergeDelta upserts deletes) := by
  have hdeleted := hm.removeAll deletes h
  rw [DocMap.mergeDelta]
  generalize deletes.foldl remove s = s₁ at hdeleted ⊢
  generalize deletes.foldl (fun ds id => ds.erase id) docs = docs₁ at hdeleted ⊢
  induction upserts generalizing s₁ docs₁ with
  | nil => exact hdeleted
  | cons doc upserts ih => exact ih _ _ (hm.replace doc hdeleted)

theorem Mirrors.addAll {list : List Document} (h : R s docs)
    (hnodup : (list.map Document.id).Nodup) (hnew : ∀ doc ∈ list, docs.lookup doc.id = none) :
    R (list.foldl add s) (docs.mergeDelta list []) := by
  induction list generalizing s docs with
  | nil => exact h
  | cons doc list ih =>
    obtain ⟨hnot, hrest⟩ := nodup_cons.mp hnodup
    have hnew' : ∀ d ∈ list, (docs.insert doc.id doc.attributes).lookup d.id = none := by
      intro d hd
      rw [lookup_insert_ite, if_neg]
      · exact hnew d (mem_cons_of_mem _ hd)
      · intro heq
        exact hnot (heq ▸ mem_map_of_mem hd)
    exact ih (hm.add doc h (hnew doc mem_cons_self)) hrest hnew'

/-- Adding the documents of a map to an empty index. -/
theorem Mirrors.build {list : List Document} (h : R s ∅)
    (hlist : docs.Lists list) : R (list.foldl add s) docs := by
  have hall := hm.addAll h hlist.nodup fun _ _ => rfl
  rw [hlist.mergeDelta_empty] at hall
  exact hall

end

end Mirrors

/-! ## Entries -/

structure WalUpsert where
  id : String
  attributes : Attributes
deriving DecidableEq

/-- Partial attribute merge for an existing document. -/
structure WalPatch where
  id : String
  attributes : Attributes
deriving DecidableEq

/-- One committed WAL batch. -/
structure WalEntry where
  upserts : List WalUpsert := []
  patches : List WalPatch := []
  deletes : List String := []
deriving DecidableEq

/-- An entry with one document that has no attributes. -/
def oneDoc (id : String) : WalEntry := { upserts := [⟨id, ∅⟩] }

/-- A document with a vector of one component. -/
def pointDoc (id : String) (x : Int) : Document :=
  ⟨id, (∅ : Attributes).insert "emb" (.arr [.num (if x < 0 then .negInt x else .posInt x.toNat)])⟩

def documentToUpsert (d : Document) : WalUpsert := ⟨d.id, d.attributes⟩

def documentToPatch (d : Document) : WalPatch := ⟨d.id, d.attributes⟩

def WalEntry.fromWrite (upserts patches : List Document) (deletes : List String) : WalEntry where
  upserts := upserts.map documentToUpsert
  patches := patches.map documentToPatch
  deletes := deletes

def WalEntry.intoDocuments (e : WalEntry) : List Document :=
  e.upserts.map fun u => { id := u.id, attributes := u.attributes }

def WalEntry.patchDocuments (e : WalEntry) : List Document :=
  e.patches.map fun p => { id := p.id, attributes := p.attributes }

/-- Shallow merge: every attribute of the patch is inserted into the document. -/
def mergeDocumentAttributes (doc patch : Attributes) : Attributes := patch ∪ doc

/-- Apply a WAL entry to a document map.  Order: deletes, full upserts,
attribute patches.  A patch of a missing id is ignored. -/
def applyEntry (docs : DocMap) (e : WalEntry) : DocMap :=
  let deleted := e.deletes.foldl (fun ds id => ds.erase id) docs
  let upserted := e.intoDocuments.foldl (fun ds d => ds.insert d.id d.attributes) deleted
  e.patchDocuments.foldl
    (fun ds p => ds.modify p.id fun doc => mergeDocumentAttributes doc p.attributes) upserted

/-- The documents after replaying `log` from an empty namespace. -/
def replay (log : List WalEntry) : DocMap := log.foldl applyEntry ∅

/-- Document map at a WAL commit point, `wal/snapshot.bin`. -/
structure WalSnapshot where
  /-- The index cursor when the snapshot was taken. -/
  seq : Nat
  docs : DocMap
deriving DecidableEq

def WalSnapshot.fromDocs (seq : Nat) (docs : DocMap) : WalSnapshot := ⟨seq, docs⟩

def WalSnapshot.intoDocs (snap : WalSnapshot) : DocMap := snap.docs

/-! ## Operations on one document -/

/-- One row of an entry. -/
inductive DocOp where
  | delete (id : String)
  | upsert (id : String) (attributes : Attributes)
  | patch (id : String) (attributes : Attributes)

def DocOp.id : DocOp → String
  | .delete id => id
  | .upsert id _ => id
  | .patch id _ => id

/-- What an operation does to the document of its id. -/
def DocOp.act (cur : Option Attributes) : DocOp → Option Attributes
  | .delete _ => none
  | .upsert _ a => some a
  | .patch _ a => cur.map fun doc => mergeDocumentAttributes doc a

def applyOp (docs : DocMap) : DocOp → DocMap
  | .delete id => docs.erase id
  | .upsert id a => docs.insert id a
  | .patch id a => docs.modify id fun doc => mergeDocumentAttributes doc a

/-- The operations of an entry, in the order in which replay applies them. -/
def WalEntry.ops (e : WalEntry) : List DocOp :=
  e.deletes.map .delete ++ e.upserts.map (fun u => .upsert u.id u.attributes) ++
    e.patches.map fun p => .patch p.id p.attributes

theorem applyEntry_eq_foldl (docs : DocMap) (e : WalEntry) :
    applyEntry docs e = e.ops.foldl applyOp docs := by
  simp only [applyEntry, WalEntry.ops, WalEntry.intoDocuments, WalEntry.patchDocuments,
    foldl_append, foldl_map, applyOp]

theorem foldl_applyEntry (log : List WalEntry) (docs : DocMap) :
    log.foldl applyEntry docs = (log.flatMap WalEntry.ops).foldl applyOp docs := by
  induction log generalizing docs with
  | nil => rfl
  | cons e log ih =>
    rw [foldl_cons, flatMap_cons, foldl_append, ih, applyEntry_eq_foldl]

theorem lookup_applyOp (docs : DocMap) (op : DocOp) (id : String) :
    (applyOp docs op).lookup id
      = if op.id = id then op.act (docs.lookup id) else docs.lookup id := by
  cases op with
  | delete i =>
    show (docs.erase i).lookup id = _
    rw [lookup_erase_ite]
    exact if_congr eq_comm rfl rfl
  | upsert i a =>
    show (docs.insert i a).lookup id = _
    rw [lookup_insert_ite]
    exact if_congr eq_comm rfl rfl
  | patch i a =>
    show (docs.modify i _).lookup id = _
    rw [lookup_modify]
    exact if_congr eq_comm rfl rfl

/-! ## Repetition is absorbed -/

theorem mergeDocumentAttributes_absorb (doc p q : Attributes) :
    mergeDocumentAttributes (mergeDocumentAttributes (mergeDocumentAttributes doc p) q) p
      = mergeDocumentAttributes (mergeDocumentAttributes doc q) p := by
  apply ext_lookup
  intro k
  simp only [mergeDocumentAttributes, lookup_union_or]
  cases p.lookup k <;> rfl

theorem mergeDocumentAttributes_idem (doc p : Attributes) :
    mergeDocumentAttributes (mergeDocumentAttributes doc p) p
      = mergeDocumentAttributes doc p := by
  apply ext_lookup
  intro k
  simp only [mergeDocumentAttributes, lookup_union_or]
  cases p.lookup k <;> rfl

theorem act_regular : RegularAction DocOp.act where
  idem := by
    intro cur x
    cases x with
    | delete _ => rfl
    | upsert _ _ => rfl
    | patch _ p =>
      cases cur with
      | none => rfl
      | some doc => exact congrArg some (mergeDocumentAttributes_idem doc p)
  absorb := by
    intro cur x y
    cases x with
    | delete _ => rfl
    | upsert _ _ => rfl
    | patch _ p =>
      cases y with
      | delete _ => rfl
      | upsert _ _ => rfl
      | patch _ q =>
        cases cur with
        | none => rfl
        | some doc => exact congrArg some (mergeDocumentAttributes_absorb doc p q)

theorem applyOp_regular : RegularAction applyOp :=
  act_regular.lift DocOp.id (fun _ _ h => ext_lookup h) lookup_applyOp

/-! ## Replay of a log -/

theorem replay_append (log more : List WalEntry) :
    replay (log ++ more) = more.foldl applyEntry (replay log) :=
  foldl_append

theorem replay_concat (log : List WalEntry) (e : WalEntry) :
    replay (log ++ [e]) = applyEntry (replay log) e := by
  rw [replay_append]
  rfl

/-- A document map that the tail `bs` of a log brings up to date is brought up
to date by any longer tail of that log. -/
theorem foldl_applyEntry_catch_up (docs : DocMap) (pre as bs : List WalEntry)
    (h : bs.foldl applyEntry docs = replay (pre ++ as ++ bs)) :
    (as ++ bs).foldl applyEntry docs = replay (pre ++ as ++ bs) := by
  rw [append_assoc, replay_append, foldl_applyEntry, foldl_applyEntry,
    flatMap_append] at h
  rw [append_assoc, replay_append, foldl_applyEntry, foldl_applyEntry,
    flatMap_append]
  exact applyOp_regular.foldl_catch_up _ _ h

end OpenPuffer
