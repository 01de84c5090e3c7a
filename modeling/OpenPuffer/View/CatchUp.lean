import OpenPuffer.View

/-!
# A catch-up that is broken off

`catch_up` works on the view in place.  When the read of a segment fails, the view keeps what
the loop did so far, and `lastAppliedWalSeq` stays where it was.  The next `catch_up` applies the
same segments again.  Rows form a regular action on views (`NamespaceView.applyRow`), so the
segments that were applied before leave no trace once the loop gets through.
-/

namespace OpenPuffer

open List

/-! ## Rows with the sequence of their entry -/

/-- What a row of the entry at `seq` does to the sequence of its document. -/
def DocOp.stamp (cur : Option Nat) (seq : Nat) : DocOp → Option Nat
  | .delete _ => none
  | .upsert _ _ => some seq
  | .patch _ _ => cur.map fun _ => seq

/-- What a row does to the sequences of all documents. -/
def stampRow (map : HashMap String Nat) (row : Nat × DocOp) : HashMap String Nat :=
  match row.2 with
  | .delete id => map.erase id
  | .upsert id _ => map.insert id row.1
  | .patch id _ => if id ∈ map then map.insert id row.1 else map

theorem lookup_stampRow (map : HashMap String Nat) (row : Nat × DocOp) (id : String) :
    (stampRow map row).lookup id
      = if row.2.id = id then row.2.stamp (map.lookup id) row.1 else map.lookup id := by
  obtain ⟨seq, op⟩ := row
  cases op with
  | delete i =>
    simp only [stampRow, DocOp.id, DocOp.stamp, HashMap.lookup_erase_ite, @eq_comm _ i id]
  | upsert i a =>
    simp only [stampRow, DocOp.id, DocOp.stamp, HashMap.lookup_insert_ite, @eq_comm _ i id]
  | patch i a =>
    simp only [stampRow, DocOp.id, DocOp.stamp]
    by_cases hi : i = id
    · subst hi
      cases hl : map.lookup i with
      | none => simp [Finmap.lookup_eq_none.mp hl, hl]
      | some n => simp [Finmap.mem_of_lookup_eq_some hl, Finmap.lookup_insert]
    · simp only [hi, if_false]
      split
      · exact Finmap.lookup_insert_of_ne map (Ne.symm hi)
      · rfl

theorem stamp_regular :
    RegularAction fun (cur : Option Nat) (row : Nat × DocOp) => row.2.stamp cur row.1 where
  idem := by
    rintro cur ⟨seq, op⟩
    cases op with
    | delete _ => rfl
    | upsert _ _ => rfl
    | patch _ _ => cases cur <;> rfl
  absorb := by
    rintro cur ⟨seq, op⟩ ⟨seq', op'⟩
    cases op with
    | delete _ => rfl
    | upsert _ _ => rfl
    | patch _ _ =>
      cases op' with
      | delete _ => rfl
      | upsert _ _ => rfl
      | patch _ _ => cases cur <;> rfl

theorem stampRow_regular : RegularAction stampRow :=
  stamp_regular.lift (fun row => row.2.id) (fun _ _ h => HashMap.ext_lookup h) lookup_stampRow

/-- The rows of entries at consecutive sequences. -/
def stampedRows (first : Nat) : List WalEntry → List (Nat × DocOp)
  | [] => []
  | e :: es => e.ops.map (fun op => (first, op)) ++ stampedRows (first + 1) es

theorem stampedRows_append (first : Nat) (es fs : List WalEntry) :
    stampedRows first (es ++ fs) = stampedRows first es ++ stampedRows (first + es.length) fs := by
  induction es generalizing first with
  | nil => rfl
  | cons e es ih =>
    rw [cons_append, stampedRows, stampedRows, ih, append_assoc, length_cons,
      Nat.add_right_comm, Nat.add_assoc]

theorem map_snd_stampedRows (first : Nat) (es : List WalEntry) :
    (stampedRows first es).map Prod.snd = es.flatMap WalEntry.ops := by
  induction es generalizing first with
  | nil => rfl
  | cons e es ih =>
    rw [stampedRows, map_append, ih, map_map, flatMap_cons]
    congr 1
    exact map_id _

theorem updateDocWalSeqMap_eq_foldl (map : HashMap String Nat) (seq : Nat) (e : WalEntry) :
    updateDocWalSeqMap map seq e = (e.ops.map fun op => (seq, op)).foldl stampRow map := by
  simp only [updateDocWalSeqMap, WalEntry.ops, WalEntry.intoDocuments, map_append,
    foldl_append, foldl_map, stampRow]

theorem recordSeqs_eq_foldl (map : HashMap String Nat) (first : Nat) (es : List WalEntry) :
    recordSeqs map first es = (stampedRows first es).foldl stampRow map := by
  induction es generalizing map first with
  | nil => rfl
  | cons e es ih =>
    rw [recordSeqs, ih, updateDocWalSeqMap_eq_foldl, stampedRows, foldl_append]

/-! ## Rows on a view -/

namespace NamespaceView

/-- A row of the entry at a sequence, applied to a view. -/
def applyRow (v : NamespaceView) (row : Nat × DocOp) : NamespaceView :=
  { v with docs := applyOp v.docs row.2, docLastWalSeq := stampRow v.docLastWalSeq row }

theorem applyRow_regular : RegularAction applyRow where
  idem := by
    intro v row
    simp only [applyRow, applyOp_regular.idem, stampRow_regular.idem]
  absorb := by
    intro v row row'
    simp only [applyRow, applyOp_regular.absorb, stampRow_regular.absorb]

section

variable (v : NamespaceView)

theorem record_eq_foldl (seq : Nat) (e : WalEntry) :
    v.record seq e = (e.ops.map fun op => (seq, op)).foldl applyRow v := by
  have hfold : ∀ (rows : List (Nat × DocOp)) (u : NamespaceView), rows.foldl applyRow u =
      { u with
        docs := (rows.map Prod.snd).foldl applyOp u.docs
        docLastWalSeq := rows.foldl stampRow u.docLastWalSeq } := by
    intro rows
    induction rows with
    | nil => exact fun _ => rfl
    | cons row rows ih =>
      intro u
      rw [foldl_cons, ih]
      rfl
  rw [hfold, record, applyEntry_eq_foldl, updateDocWalSeqMap_eq_foldl, map_map]
  congr 2
  exact (map_id _).symm

theorem replayFrom_eq_foldl (first : Nat) (es : List WalEntry) :
    v.replayFrom first es = (stampedRows first es).foldl applyRow v := by
  induction es generalizing v first with
  | nil => rfl
  | cons e es ih => rw [replayFrom, ih, record_eq_foldl, stampedRows, foldl_append]

theorem replayFrom_append (first : Nat) (es fs : List WalEntry) :
    v.replayFrom first (es ++ fs) = (v.replayFrom first es).replayFrom (first + es.length) fs := by
  simp only [replayFrom_eq_foldl, stampedRows_append, foldl_append]

/-- A replay that was broken off may be started over. -/
theorem replayFrom_restart (first : Nat) (es : List WalEntry) (m : Nat) :
    (v.replayFrom first (es.take m)).replayFrom first es = v.replayFrom first es := by
  have hsplit := stampedRows_append first (es.take m) (es.drop m)
  rw [take_append_drop] at hsplit
  rw [replayFrom_eq_foldl, replayFrom_eq_foldl, replayFrom_eq_foldl, hsplit,
    applyRow_regular.foldl_restart]

end

/-! ## Interrupted calls -/

/-- The view shows the log up to its sequence. -/
structure Shows (v : NamespaceView) (log : List WalEntry) : Prop where
  le : v.lastAppliedWalSeq ≤ log.length
  docs : v.docs = (empty.replayFrom 1 (log.take v.lastAppliedWalSeq)).docs
  docLastWalSeq :
    v.docLastWalSeq = (empty.replayFrom 1 (log.take v.lastAppliedWalSeq)).docLastWalSeq

end NamespaceView

/-- Reads of committed segments fail, or return what was committed. -/
def Store.Serves (st : Store) (log : List WalEntry) : Prop :=
  ∀ seq e, seq ≤ log.length → readWalEntry st seq = .ok e → entryAt log seq = some e

namespace NamespaceView

/-- Calls of `catch_up` that fail, one after the other.  Each has its own view of
which segments can be read, and its own metadata. -/
inductive Interrupted (log : List WalEntry) : NamespaceView → NamespaceView → Prop where
  | done (v : NamespaceView) : Interrupted log v v
  | fail {v v' v'' : NamespaceView} {st : Store} {fetched : MetaRead} {msg : String}
      (hst : st.Serves log) (hcommit : fetched.metaOrDefault.walCommitSeq ≤ log.length)
      (hsnap : fetched.metaOrDefault.walSnapshotSeq ≤ v.lastAppliedWalSeq)
      (hfail : catchUp st fetched v = (v', .error msg)) (hrest : Interrupted log v' v'') :
      Interrupted log v v''

variable {log : List WalEntry} {v : NamespaceView}

/-- The loop of `catch_up` gets through some of its segments, and through all of
them if it succeeds. -/
theorem applySegments_spec {st : Store} (hst : st.Serves log) :
    ∀ (n first : Nat) (v : NamespaceView), 1 ≤ first → first + n ≤ log.length + 1 →
      ∃ m ≤ n, (applySegments st v (List.range' first n)).1
          = v.replayFrom first (slice log first m) ∧
        ((applySegments st v (List.range' first n)).2 = .ok () → m = n)
  | 0, first, v, _, _ =>
    ⟨0, Nat.le_refl 0, by simp [applySegments, slice, replayFrom], fun _ => rfl⟩
  | n + 1, first, v, h1, h2 => by
    rw [List.range'_succ, applySegments]
    cases hread : readWalEntry st first with
    | error msg =>
      refine ⟨0, Nat.zero_le _, by simp [slice, replayFrom], ?_⟩
      intro hok
      cases hok
    | ok e =>
      have he := hst first e (by omega) hread
      obtain ⟨m, hm, hview, hall⟩ := applySegments_spec hst n (first + 1) (v.record first e)
        (by omega) (by omega)
      refine ⟨m + 1, by omega, ?_, fun hok => by rw [hall hok]⟩
      rw [slice_succ he, replayFrom]
      exact hview

/-- One call of `catch_up`, with no snapshot ahead of the view: it gets through
the segments after the view's sequence, or through some of them and fails. -/
theorem catchUp_spec {st : Store} (hst : st.Serves log) (hmax : log.length ≤ u64Max)
    {fetched : MetaRead} (hcommit : fetched.metaOrDefault.walCommitSeq ≤ log.length)
    (hsnap : fetched.metaOrDefault.walSnapshotSeq ≤ v.lastAppliedWalSeq) :
    ∃ m, (catchUp st fetched v).1.docs
        = (v.replayFrom (v.lastAppliedWalSeq + 1) ((log.drop v.lastAppliedWalSeq).take m)).docs ∧
      (catchUp st fetched v).1.docLastWalSeq = (v.replayFrom (v.lastAppliedWalSeq + 1)
        ((log.drop v.lastAppliedWalSeq).take m)).docLastWalSeq ∧
      (∀ msg, (catchUp st fetched v).2 = .error msg →
        (catchUp st fetched v).1.lastAppliedWalSeq = v.lastAppliedWalSeq) ∧
      (∀ b, (catchUp st fetched v).2 = .ok b →
        m = fetched.metaOrDefault.walCommitSeq - v.lastAppliedWalSeq) := by
  cases fetched with
  | none =>
    refine ⟨0, rfl, rfl, fun _ _ => rfl, fun _ _ => ?_⟩
    exact (Nat.zero_sub v.lastAppliedWalSeq).symm
  | some found =>
    obtain ⟨m, etag⟩ := found
    change m.walCommitSeq ≤ log.length at hcommit
    change m.walSnapshotSeq ≤ v.lastAppliedWalSeq at hsnap
    simp only [catchUp, MetaRead.metaOrDefault]
    by_cases hle : m.walCommitSeq ≤ v.lastAppliedWalSeq
    · rw [if_pos hle]
      exact ⟨0, rfl, rfl, fun _ _ => rfl, fun _ _ => (Nat.sub_eq_zero_of_le hle).symm⟩
    · rw [if_neg hle, if_neg (Nat.not_lt.mpr hsnap), saturatingAdd_one_of_lt (by omega), seqRange]
      obtain ⟨j, hj, hview, hall⟩ := applySegments_spec hst
        (m.walCommitSeq + 1 - (v.lastAppliedWalSeq + 1)) (v.lastAppliedWalSeq + 1) v
        (by omega) (by omega)
      have hlast := lastAppliedWalSeq_replayFrom v (v.lastAppliedWalSeq + 1)
        (slice log (v.lastAppliedWalSeq + 1) j)
      rw [← hview] at hlast
      rw [slice, Nat.add_sub_cancel] at hview
      refine ⟨j, ?_⟩
      rw [← hview]
      generalize applySegments st v (range' (v.lastAppliedWalSeq + 1)
        (m.walCommitSeq + 1 - (v.lastAppliedWalSeq + 1))) = r at hall hlast
      obtain ⟨u, res⟩ := r
      cases res with
      | error msg => exact ⟨rfl, rfl, fun _ _ => hlast, fun _ h => by cases h⟩
      | ok b =>
        refine ⟨rfl, rfl, fun _ h => (by cases h), fun _ _ => ?_⟩
        rw [hall rfl]
        omega

/-- What is left to apply hides what failed calls did. -/
theorem Interrupted.hidden (hmax : log.length ≤ u64Max) {w : NamespaceView}
    (h : Interrupted log v w) :
    w.lastAppliedWalSeq = v.lastAppliedWalSeq ∧
      (w.replayFrom (v.lastAppliedWalSeq + 1) (log.drop v.lastAppliedWalSeq)).docs
        = (v.replayFrom (v.lastAppliedWalSeq + 1) (log.drop v.lastAppliedWalSeq)).docs ∧
      (w.replayFrom (v.lastAppliedWalSeq + 1) (log.drop v.lastAppliedWalSeq)).docLastWalSeq
        = (v.replayFrom (v.lastAppliedWalSeq + 1)
            (log.drop v.lastAppliedWalSeq)).docLastWalSeq := by
  induction h with
  | done v => exact ⟨rfl, rfl, rfl⟩
  | @fail v v' v'' st fetched msg hst hcommit hsnap hfail hrest ih =>
    obtain ⟨m, hdocs, hseqs, hkept, -⟩ := catchUp_spec hst hmax hcommit hsnap
    rw [hfail] at hdocs hseqs hkept
    have hlast : v'.lastAppliedWalSeq = v.lastAppliedWalSeq := hkept msg rfl
    rw [hlast] at ih
    have hagain := replayFrom_restart v (v.lastAppliedWalSeq + 1)
      (log.drop v.lastAppliedWalSeq) m
    refine ⟨ih.1, ih.2.1.trans ?_, ih.2.2.trans ?_⟩
    · rw [← hagain, docs_replayFrom, hdocs, ← docs_replayFrom]
    · rw [← hagain, docLastWalSeq_replayFrom, hseqs, ← docLastWalSeq_replayFrom]

/-- The rest of the log brings a view that shows its beginning to all of it. -/
theorem Shows.replayFrom_rest (h : v.Shows log) :
    (v.replayFrom (v.lastAppliedWalSeq + 1) (log.drop v.lastAppliedWalSeq)).docs
        = (empty.replayFrom 1 log).docs ∧
      (v.replayFrom (v.lastAppliedWalSeq + 1) (log.drop v.lastAppliedWalSeq)).docLastWalSeq
        = (empty.replayFrom 1 log).docLastWalSeq := by
  have hsplit := replayFrom_append empty 1 (log.take v.lastAppliedWalSeq)
    (log.drop v.lastAppliedWalSeq)
  rw [take_append_drop, length_take, Nat.min_eq_left h.le, Nat.add_comm 1] at hsplit
  rw [hsplit]
  constructor
  · rw [docs_replayFrom, docs_replayFrom, h.docs]
  · rw [docLastWalSeq_replayFrom, docLastWalSeq_replayFrom, h.docLastWalSeq]

end NamespaceView

/-- Calls of `catch_up` that fail at some segment do not show once a call
succeeds: the documents and their last sequences are those of a single replay of
the log.  Behind it, entries applied up to any point may be applied again from
the first one on. -/
theorem interrupted_catchUp_converges {log : List WalEntry} (hmax : log.length ≤ u64Max)
    {v w w' : NamespaceView} (hv : v.Shows log) (hint : NamespaceView.Interrupted log v w)
    {st : Store} {fetched : MetaRead} {b : Bool} (hst : st.Serves log)
    (hcommit : fetched.metaOrDefault.walCommitSeq = log.length)
    (hsnap : fetched.metaOrDefault.walSnapshotSeq ≤ v.lastAppliedWalSeq)
    (hok : NamespaceView.catchUp st fetched w = (w', .ok b)) :
    (w'.docs = (NamespaceView.empty.replayFrom 1 log).docs ∧
      w'.docLastWalSeq = (NamespaceView.empty.replayFrom 1 log).docLastWalSeq) ∧
    ∀ (u : NamespaceView) (k : Nat) (es : List WalEntry) (m : Nat), m ≤ es.length →
      (u.replayFrom (k + 1) (es.take m)).replayFrom (k + 1) es = u.replayFrom (k + 1) es := by
  refine ⟨?_, fun u k es m _ => u.replayFrom_restart (k + 1) es m⟩
  obtain ⟨hlast, hdocs, hseqs⟩ := hint.hidden hmax
  obtain ⟨m, hdocs', hseqs', -, hall⟩ :=
    NamespaceView.catchUp_spec hst hmax hcommit.le (hlast.symm ▸ hsnap)
  rw [hok] at hdocs' hseqs' hall
  have hm : (log.drop w.lastAppliedWalSeq).take m = log.drop w.lastAppliedWalSeq := by
    rw [hall b rfl, hcommit]
    exact take_of_length_le (by rw [length_drop])
  rw [hm, hlast] at hdocs' hseqs'
  obtain ⟨hrest, hrest'⟩ := hv.replayFrom_rest
  exact ⟨(hdocs'.trans hdocs).trans hrest, (hseqs'.trans hseqs).trans hrest'⟩

/-- The segments of a log up to `n` can be read, the others cannot. -/
def Store.upTo (log : List WalEntry) (n : Nat) : Store :=
  ⟨.absent, fun seq => if seq ≤ n then entryAt log seq else none, none⟩

theorem Store.serves_upTo (log : List WalEntry) (n : Nat) : (Store.upTo log n).Serves log := by
  intro seq e _ hread
  have hwal := readWalEntry_eq_ok.mp hread
  simp only [Store.upTo] at hwal
  split at hwal
  · exact hwal
  · cases hwal

/-- A document is patched before it is created. -/
def patchedEarly : List WalEntry :=
  [oneDoc "a", { patches := [⟨"b", ∅⟩] }, oneDoc "b", oneDoc "c"]

def patchedEarlyMeta : MetaRead := some ({ NamespaceMeta.empty with walCommitSeq := 4 }, 0)

/-- A view of the first entry. -/
def beforePatch : NamespaceView :=
  { NamespaceView.empty.replayFrom 1 (patchedEarly.take 1) with lastAppliedWalSeq := 1 }

/-- A call that fails at the last segment, when the document exists already. -/
def brokenOff : NamespaceView × Except String Bool :=
  NamespaceView.catchUp (Store.upTo patchedEarly 3) patchedEarlyMeta beforePatch

theorem patchedEarly_catchUp_converges :
    ∃ msg w b, brokenOff.2 = .error msg ∧
      NamespaceView.catchUp (Store.upTo patchedEarly 4) patchedEarlyMeta brokenOff.1 = (w, .ok b) ∧
      w.docs = (NamespaceView.empty.replayFrom 1 patchedEarly).docs ∧
      w.docLastWalSeq = (NamespaceView.empty.replayFrom 1 patchedEarly).docLastWalSeq := by
  obtain ⟨msg, hmsg⟩ : ∃ msg, brokenOff.2 = .error msg := ⟨_, rfl⟩
  have hfail : NamespaceView.catchUp (Store.upTo patchedEarly 3) patchedEarlyMeta beforePatch
      = (brokenOff.1, .error msg) := Prod.ext rfl hmsg
  have hint : NamespaceView.Interrupted patchedEarly beforePatch brokenOff.1 :=
    .fail (Store.serves_upTo patchedEarly 3) (by decide) (by decide) hfail (.done _)
  obtain ⟨w, hok⟩ : ∃ w, NamespaceView.catchUp (Store.upTo patchedEarly 4) patchedEarlyMeta
      brokenOff.1 = (w, .ok true) := ⟨_, rfl⟩
  refine ⟨msg, w, true, hmsg, hok, ?_⟩
  exact (interrupted_catchUp_converges (by decide) ⟨by decide, rfl, rfl⟩ hint
    (Store.serves_upTo patchedEarly 4) rfl (by decide) hok).1

end OpenPuffer
