import OpenPuffer.Buffer.State

/-!
# Group commit and the order of writes

A flush concatenates the queued writes kind by kind, and replay applies the deletes of the
result, then its upserts, then its patches.  Committed one by one, the writes would be applied
in the order in which they were queued.  Both are decided id by id, and for an id with upserts
the last write that upserts it decides.  `KeepsOrder` says when the two agree.
-/

namespace OpenPuffer

open List HashMap WalEntry

/-! ## Attributes -/

@[simp] theorem mergeDocumentAttributes_empty (doc : Attributes) :
    mergeDocumentAttributes doc ∅ = doc := Finmap.empty_union

@[simp] theorem empty_mergeDocumentAttributes (p : Attributes) :
    mergeDocumentAttributes ∅ p = p := Finmap.union_empty

theorem mergeDocumentAttributes_assoc (doc p q : Attributes) :
    mergeDocumentAttributes (mergeDocumentAttributes doc p) q
      = mergeDocumentAttributes doc (mergeDocumentAttributes p q) :=
  Finmap.union_assoc.symm

theorem lookup_mergeDocumentAttributes (doc p : Attributes) (k : String) :
    (mergeDocumentAttributes doc p).lookup k = (p.lookup k).or (doc.lookup k) :=
  lookup_union_or p doc k

/-- A merge hides an older one when the older values are overwritten or were
there before. -/
theorem merge_merge_eq_iff (doc p q : Attributes) :
    mergeDocumentAttributes doc (mergeDocumentAttributes p q) = mergeDocumentAttributes doc q ↔
      ∀ k v, p.lookup k = some v → q.lookup k = none → doc.lookup k = some v := by
  constructor
  · intro heq k v hp hq
    have hk := congrArg (fun m => Finmap.lookup k m) heq
    simp only [lookup_mergeDocumentAttributes, hp, hq] at hk
    exact hk.symm
  · intro h
    apply ext_lookup
    intro k
    simp only [lookup_mergeDocumentAttributes]
    cases hq : q.lookup k with
    | some v => rfl
    | none =>
      cases hp : p.lookup k with
      | none => rfl
      | some v => exact (h k v hp hq).symm

/-! ## The rows of one id -/

def lastUpsert (id : String) : List WalUpsert → Option Attributes
  | [] => none
  | u :: us => (lastUpsert id us).or (if u.id = id then some u.attributes else none)

/-- The attributes that the patches of an id set. -/
def patched (id : String) : List WalPatch → Attributes
  | [] => ∅
  | p :: ps => mergeDocumentAttributes (if p.id = id then p.attributes else ∅) (patched id ps)

theorem lastUpsert_of_not_mem {id : String} {us : List WalUpsert}
    (h : id ∉ us.map WalUpsert.id) : lastUpsert id us = none := by
  induction us with
  | nil => rfl
  | cons u us ih =>
    rw [map_cons, mem_cons, not_or] at h
    rw [lastUpsert, ih h.2, if_neg (Ne.symm h.1)]
    rfl

theorem patched_of_not_mem {id : String} {ps : List WalPatch}
    (h : id ∉ ps.map WalPatch.id) : patched id ps = ∅ := by
  induction ps with
  | nil => rfl
  | cons p ps ih =>
    rw [map_cons, mem_cons, not_or] at h
    rw [patched, ih h.2, if_neg (Ne.symm h.1), mergeDocumentAttributes_empty]

theorem lastUpsert_append (id : String) (us vs : List WalUpsert) :
    lastUpsert id (us ++ vs) = (lastUpsert id vs).or (lastUpsert id us) := by
  induction us with
  | nil => simp [lastUpsert]
  | cons u us ih => rw [cons_append, lastUpsert, lastUpsert, ih, Option.or_assoc]

theorem patched_append (id : String) (ps qs : List WalPatch) :
    patched id (ps ++ qs) = mergeDocumentAttributes (patched id ps) (patched id qs) := by
  induction ps with
  | nil => simp [patched]
  | cons p ps ih => rw [cons_append, patched, patched, ih, mergeDocumentAttributes_assoc]

theorem lookup_foldl_erase (id : String) (ids : List String) (docs : DocMap) :
    (ids.foldl (fun ds i => ds.erase i) docs).lookup id
      = if id ∈ ids then none else docs.lookup id := by
  induction ids generalizing docs with
  | nil => simp
  | cons i ids ih =>
    rw [foldl_cons, ih, lookup_erase_ite]
    by_cases h : id = i
    · simp [h]
    · simp [h]

theorem lookup_foldl_insert (id : String) (us : List WalUpsert) (docs : DocMap) :
    (us.foldl (fun ds u => ds.insert u.id u.attributes) docs).lookup id
      = (lastUpsert id us).or (docs.lookup id) := by
  induction us generalizing docs with
  | nil => rfl
  | cons u us ih =>
    rw [foldl_cons, ih, lookup_insert_ite, lastUpsert, Option.or_assoc]
    by_cases h : id = u.id
    · simp [h]
    · simp [h, Ne.symm h]

theorem lookup_foldl_modify (id : String) (ps : List WalPatch) (docs : DocMap) :
    (ps.foldl (fun ds p => ds.modify p.id fun doc => mergeDocumentAttributes doc p.attributes)
        docs).lookup id
      = (docs.lookup id).map fun doc => mergeDocumentAttributes doc (patched id ps) := by
  induction ps generalizing docs with
  | nil => simp [patched]
  | cons p ps ih =>
    rw [foldl_cons, ih, lookup_modify, patched]
    by_cases h : id = p.id
    · simp [h, Function.comp_def, mergeDocumentAttributes_assoc]
    · simp [h, Ne.symm h]

/-! ## Entries on one id -/

namespace WalEntry

/-- What an entry does to the document of an id. -/
def act (id : String) (cur : Option Attributes) (e : WalEntry) : Option Attributes :=
  ((lastUpsert id e.upserts).or (if id ∈ e.deletes then none else cur)).map
    fun doc => mergeDocumentAttributes doc (patched id e.patches)

/-- The entry of several writes in one batch. -/
def concat (es : List WalEntry) : WalEntry where
  upserts := es.flatMap upserts
  patches := es.flatMap patches
  deletes := es.flatMap deletes

end WalEntry

/-- Replay of an entry, read at one id. -/
theorem lookup_applyEntry (docs : DocMap) (e : WalEntry) (id : String) :
    (applyEntry docs e).lookup id = e.act id (docs.lookup id) := by
  simp only [applyEntry, intoDocuments, patchDocuments, foldl_map]
  rw [lookup_foldl_modify, lookup_foldl_insert, lookup_foldl_erase]
  rfl

theorem lookup_foldl_applyEntry (id : String) (es : List WalEntry) (docs : DocMap) :
    (es.foldl applyEntry docs).lookup id = es.foldl (WalEntry.act id) (docs.lookup id) := by
  induction es generalizing docs with
  | nil => rfl
  | cons e es ih => rw [foldl_cons, foldl_cons, ih, lookup_applyEntry]

namespace WalEntry

variable {id : String}

theorem act_of_upsert {e : WalEntry} {a : Attributes} (h : lastUpsert id e.upserts = some a)
    (cur : Option Attributes) :
    e.act id cur = some (mergeDocumentAttributes a (patched id e.patches)) := by
  rw [act, h]
  rfl

theorem act_of_no_upsert {e : WalEntry} (h : lastUpsert id e.upserts = none)
    (cur : Option Attributes) :
    e.act id cur = (if id ∈ e.deletes then none else cur).map
      fun doc => mergeDocumentAttributes doc (patched id e.patches) := by
  rw [act, h]
  rfl

theorem concat_cons (e : WalEntry) (es : List WalEntry) :
    concat (e :: es) = ⟨e.upserts ++ (concat es).upserts, e.patches ++ (concat es).patches,
      e.deletes ++ (concat es).deletes⟩ := rfl

theorem concat_append (es fs : List WalEntry) :
    concat (es ++ fs) = ⟨(concat es).upserts ++ (concat fs).upserts,
      (concat es).patches ++ (concat fs).patches, (concat es).deletes ++ (concat fs).deletes⟩ := by
  simp only [concat, flatMap_append]

theorem lastUpsert_concat_eq_none {es : List WalEntry}
    (h : ∀ e ∈ es, lastUpsert id e.upserts = none) : lastUpsert id (concat es).upserts = none := by
  induction es with
  | nil => rfl
  | cons e es ih =>
    rw [concat_cons, lastUpsert_append, h e mem_cons_self,
      ih fun f hf => h f (mem_cons_of_mem e hf)]
    rfl

/-- Without upserts the order of the kinds does not matter. -/
theorem foldl_act_of_no_upsert {es : List WalEntry} (h : ∀ e ∈ es, lastUpsert id e.upserts = none)
    (cur : Option Attributes) : es.foldl (act id) cur = (concat es).act id cur := by
  induction es generalizing cur with
  | nil =>
    cases cur with
    | none => rfl
    | some doc => simp [act, concat, lastUpsert, patched]
  | cons e es ih =>
    have he := h e mem_cons_self
    have hes : ∀ f ∈ es, lastUpsert id f.upserts = none :=
      fun f hf => h f (mem_cons_of_mem e hf)
    rw [foldl_cons, ih hes, act_of_no_upsert (lastUpsert_concat_eq_none hes),
      act_of_no_upsert (lastUpsert_concat_eq_none h), act_of_no_upsert he, concat_cons]
    simp only [mem_append, patched_append]
    by_cases hd : id ∈ e.deletes
    · simp [hd]
    · by_cases hds : id ∈ (concat es).deletes
      · simp [hds]
      · simp [hd, hds, Function.comp_def, mergeDocumentAttributes_assoc]

end WalEntry

/-! ## When the order survives -/

/-- Take an id and the last write of the batch that upserts it.  No later write
deletes the id, and an attribute that an earlier write patches is patched again
from that write on or upserted with the same value. -/
def KeepsOrder (es : List WalEntry) : Prop :=
  ∀ id pre e post a, es = pre ++ e :: post → lastUpsert id e.upserts = some a →
    (∀ f ∈ post, lastUpsert id f.upserts = none) →
    (∀ f ∈ post, id ∉ f.deletes) ∧
      ∀ k v, (patched id (WalEntry.concat pre).patches).lookup k = some v →
        (patched id (WalEntry.concat (e :: post)).patches).lookup k = none →
        a.lookup k = some v

/-- The last element with a property, if there is one. -/
theorem exists_last_split {α : Type} {p : α → Prop} (xs : List α) :
    (∀ x ∈ xs, ¬ p x) ∨
      ∃ pre x post, xs = pre ++ x :: post ∧ p x ∧ ∀ y ∈ post, ¬ p y := by
  induction xs with
  | nil => exact .inl (by simp)
  | cons x xs ih =>
    rcases ih with hnone | ⟨pre, y, post, rfl, hy, hpost⟩
    · by_cases hx : p x
      · exact .inr ⟨[], x, xs, rfl, hx, hnone⟩
      · refine .inl ?_
        intro y hy
        rcases mem_cons.mp hy with rfl | hy
        · exact hx
        · exact hnone y hy
    · exact .inr ⟨x :: pre, y, post, rfl, hy, hpost⟩

/-- The two orders at an id, split at the last write that upserts it. -/
theorem act_concat_eq_iff {id : String} {pre post : List WalEntry} {e : WalEntry} {a : Attributes}
    (he : lastUpsert id e.upserts = some a) (hpost : ∀ f ∈ post, lastUpsert id f.upserts = none)
    (cur : Option Attributes) :
    (WalEntry.concat (pre ++ e :: post)).act id cur = (pre ++ e :: post).foldl (WalEntry.act id) cur
      ↔ (∀ f ∈ post, id ∉ f.deletes) ∧
        ∀ k v, (patched id (WalEntry.concat pre).patches).lookup k = some v →
          (patched id (WalEntry.concat (e :: post)).patches).lookup k = none →
          a.lookup k = some v := by
  have hups : lastUpsert id (WalEntry.concat (pre ++ e :: post)).upserts = some a := by
    rw [WalEntry.concat_append, lastUpsert_append, WalEntry.concat_cons, lastUpsert_append,
      WalEntry.lastUpsert_concat_eq_none hpost, he]
    rfl
  have hdel : id ∈ (WalEntry.concat post).deletes ↔ ¬ ∀ f ∈ post, id ∉ f.deletes := by
    simp [WalEntry.concat]
  have hrest : patched id (WalEntry.concat (e :: post)).patches
      = mergeDocumentAttributes (patched id e.patches)
          (patched id (WalEntry.concat post).patches) := by
    rw [WalEntry.concat_cons, patched_append]
  rw [WalEntry.act_of_upsert hups, foldl_append, foldl_cons, WalEntry.act_of_upsert he,
    WalEntry.foldl_act_of_no_upsert hpost,
    WalEntry.act_of_no_upsert (WalEntry.lastUpsert_concat_eq_none hpost)]
  by_cases hlost : ∀ f ∈ post, id ∉ f.deletes
  · rw [if_neg (fun hmem => hdel.mp hmem hlost), ← merge_merge_eq_iff, WalEntry.concat_append,
      patched_append, hrest, Option.map_some, mergeDocumentAttributes_assoc, Option.some.injEq]
    exact ⟨fun heq => ⟨hlost, heq⟩, fun h => h.2⟩
  · rw [if_pos (hdel.mpr hlost)]
    simp [hlost]

/-- One batch is as good as its writes one by one, on any documents. -/
theorem applyEntry_concat_eq_iff (docs : DocMap) (es : List WalEntry) :
    applyEntry docs (WalEntry.concat es) = es.foldl applyEntry docs ↔ KeepsOrder es := by
  constructor
  · rintro heq id pre e post a rfl he hpost
    have hid := congrArg (fun ds => Finmap.lookup id ds) heq
    simp only [lookup_applyEntry, lookup_foldl_applyEntry] at hid
    exact (act_concat_eq_iff he hpost _).mp hid
  · intro hkeep
    apply ext_lookup
    intro id
    rw [lookup_applyEntry, lookup_foldl_applyEntry]
    rcases exists_last_split (p := fun e => lastUpsert id e.upserts ≠ none) es with
      hnone | ⟨pre, e, post, rfl, he, hpost⟩
    · exact (foldl_act_of_no_upsert (fun e he => not_not.mp (hnone e he)) _).symm
    · obtain ⟨a, ha⟩ := Option.ne_none_iff_exists'.mp he
      have hpost' : ∀ f ∈ post, lastUpsert id f.upserts = none :=
        fun f hf => not_not.mp (hpost f hf)
      exact (act_concat_eq_iff ha hpost' _).mpr (hkeep id pre e post a rfl ha hpost')

instance (es : List WalEntry) : Decidable (KeepsOrder es) :=
  decidable_of_iff _ (applyEntry_concat_eq_iff ∅ es)

/-! ## The batch of a buffer -/

namespace BufferState

variable {W : Type}

/-- Writes that reach the buffer one after another. -/
def enqueueAll (cfg : WriteBufferConfig) (st : BufferState W) (ws : List (W × WriteRequest)) :
    BufferState W :=
  ws.foldl (fun st w => (st.enqueue cfg w.1 w.2).1) st

/-- The documents after a flush of the buffer. -/
def flushedDocs (st : BufferState W) (docs : DocMap) : DocMap :=
  match st.drain.2 with
  | some (pending, _) => applyEntry docs pending.entry
  | none => docs

/-- The rows of a write are queued behind the others, also if it is rejected. -/
theorem enqueue_entry (cfg : WriteBufferConfig) (st : BufferState W) (tx : W) (w : WriteRequest) :
    (st.enqueue cfg tx w).1.entry = WalEntry.concat [st.entry, w.entry] := by
  have hrows : ∀ p : Pending, (p.add w).1.entry = WalEntry.concat [p.entry, w.entry] := by
    intro p
    simp only [Pending.add]
    split <;> simp [Pending.entry, Pending.extend, WriteRequest.entry, WalEntry.fromWrite,
      WalEntry.concat]
  rw [← hrows, enqueue]
  split <;> simp [*]

theorem enqueueAll_entry (cfg : WriteBufferConfig) (ws : List (W × WriteRequest))
    (st : BufferState W) :
    (st.enqueueAll cfg ws).entry
      = WalEntry.concat (st.entry :: ws.map fun w => w.2.entry) := by
  induction ws generalizing st with
  | nil => simp [enqueueAll, WalEntry.concat]
  | cons w ws ih =>
    have hcons : st.enqueueAll cfg (w :: ws) = (st.enqueue cfg w.1 w.2).1.enqueueAll cfg ws := rfl
    rw [hcons, ih, enqueue_entry]
    simp [WalEntry.concat]

theorem flushedDocs_eq (st : BufferState W) (docs : DocMap) :
    st.flushedDocs docs = applyEntry docs st.entry := by
  unfold flushedDocs drain
  by_cases h : st.isEmpty
  · rw [if_pos h, show st.entry = {} by rw [Pending.isEmpty_iff.mp h]; rfl]
    rfl
  · rw [if_neg h]

/-- A flush of an empty buffer's queue of writes gives the documents of the
writes in their order exactly for the batches that keep their order. -/
theorem flush_preserves_order_iff (cfg : WriteBufferConfig) (ws : List (W × WriteRequest))
    (docs : DocMap) :
    (enqueueAll cfg {} ws).flushedDocs docs
        = ws.foldl (fun ds w => applyEntry ds w.2.entry) docs ↔
      KeepsOrder (ws.map fun w => w.2.entry) := by
  have hbatch : (enqueueAll cfg ({} : BufferState W) ws).entry
      = WalEntry.concat (ws.map fun w => w.2.entry) := by
    rw [enqueueAll_entry]
    simp [WalEntry.concat, Pending.entry, WalEntry.fromWrite]
  rw [flushedDocs_eq, hbatch, ← applyEntry_concat_eq_iff docs, foldl_map]

end BufferState

/-- Writer 0 upserts a document, writer 1 deletes it, and both are in one batch:
the document survives. -/
theorem upsert_then_delete_reordered :
    let ws : List (Fin 2 × WriteRequest) :=
      [(0, { upserts := [⟨"x", ∅⟩] }), (1, { deletes := ["x"] })]
    (BufferState.enqueueAll {} {} ws).flushedDocs ∅
        ≠ ws.foldl (fun ds w => applyEntry ds w.2.entry) ∅ ∧
      ((BufferState.enqueueAll {} {} ws).flushedDocs ∅).lookup "x" = some ∅ ∧
      (ws.foldl (fun ds w => applyEntry ds w.2.entry) ∅).lookup "x" = none := by
  decide +kernel

end OpenPuffer
