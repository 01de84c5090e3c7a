import OpenPuffer.Search.Context
import OpenPuffer.View.CatchUp

/-!
# What the sequence of a document tells

A view keeps, for every document, the sequence of the last entry that touched it
(`recordSeqs_last`), provided the replay upserts it or it had a sequence before.  So the sequence
is at most `i` exactly if no entry after `i` touches the document (`recordSeqs_spec`), and the
map has a sequence for each document and for nothing else (`seqs_track_documents`).
-/

namespace OpenPuffer

open List Finmap WalEntry DocOp

/-! ## Entries that touch a document -/

/-- An entry with a sequence in `(a, n]` names the id. -/
def Touched (log : List WalEntry) (a n : Nat) (id : String) : Prop :=
  id ∈ walTouchedDocIds ((log.take n).drop a)

instance (log : List WalEntry) (a n : Nat) (id : String) : Decidable (Touched log a n id) :=
  inferInstanceAs (Decidable (_ ∈ _))

/-- An entry with a sequence in `(a, n]` upserts the id. -/
def Upserted (log : List WalEntry) (a n : Nat) (id : String) : Prop :=
  ∃ e ∈ (log.take n).drop a, id ∈ e.upserts.map WalUpsert.id

instance (log : List WalEntry) (a n : Nat) (id : String) : Decidable (Upserted log a n id) :=
  inferInstanceAs (Decidable (∃ e ∈ _, _))

variable {log es : List WalEntry} {a n first : Nat} {e : WalEntry} {id : String} {docs : DocMap}
  {map : HashMap String Nat}

theorem getElem?_between {k : Nat} :
    ((log.take n).drop a)[k]? = some e ↔ a + 1 + k ≤ n ∧ entryAt log (a + 1 + k) = some e := by
  rw [getElem?_drop, getElem?_take, Nat.add_right_comm]
  split
  · exact ⟨fun he => ⟨by omega, he⟩, And.right⟩
  · exact ⟨nofun, fun he => by omega⟩

theorem mem_drop_take :
    e ∈ (log.take n).drop a ↔ ∃ seq, a < seq ∧ seq ≤ n ∧ entryAt log seq = some e := by
  rw [mem_iff_getElem?]
  constructor
  · rintro ⟨i, hi⟩
    exact ⟨a + 1 + i, by omega, getElem?_between.mp hi⟩
  · rintro ⟨seq, h1, h2, he⟩
    obtain ⟨i, rfl⟩ : ∃ i, seq = a + 1 + i := ⟨seq - a - 1, by omega⟩
    exact ⟨i, getElem?_between.mpr ⟨h2, he⟩⟩

theorem touched_iff :
    Touched log a n id ↔ ∃ seq e, a < seq ∧ seq ≤ n ∧ entryAt log seq = some e ∧
      (id ∈ e.deletes ∨ id ∈ e.writtenIds) := by
  simp only [Touched, walTouchedDocIds, mem_toFinset, mem_flatMap, mem_append,
    mem_drop_take]
  constructor
  · rintro ⟨e, ⟨seq, h1, h2, he⟩, hid⟩
    exact ⟨seq, e, h1, h2, he, hid⟩
  · rintro ⟨seq, e, h1, h2, he, hid⟩
    exact ⟨e, ⟨seq, h1, h2, he⟩, hid⟩

theorem Touched.mono {a' n' : Nat} (h : Touched log a n id) (ha : a' ≤ a) (hn : n ≤ n') :
    Touched log a' n' id := by
  obtain ⟨seq, e, h1, h2, he⟩ := touched_iff.mp h
  exact touched_iff.mpr ⟨seq, e, by omega, by omega, he⟩

/-- Touched by an early entry, or by a late one. -/
theorem Touched.split (h : Touched log a n id) (b : Nat) :
    Touched log a b id ∨ Touched log b n id := by
  obtain ⟨seq, e, h1, h2, he⟩ := touched_iff.mp h
  rcases Nat.lt_or_ge b seq with hlt | hge
  · exact .inr (touched_iff.mpr ⟨seq, e, hlt, h2, he⟩)
  · exact .inl (touched_iff.mpr ⟨seq, e, h1, hge, he⟩)

theorem Upserted.touched (h : Upserted log a n id) : Touched log a n id := by
  obtain ⟨e, he, hid⟩ := h
  obtain ⟨seq, h1, h2, hentry⟩ := mem_drop_take.mp he
  exact touched_iff.mpr ⟨seq, e, h1, h2, hentry, .inr (mem_append_left _ hid)⟩

theorem Upserted.mono {a' : Nat} (h : Upserted log a n id) (ha : a' ≤ a) :
    Upserted log a' n id := by
  obtain ⟨e, he, hid⟩ := h
  obtain ⟨seq, h1, h2, hentry⟩ := mem_drop_take.mp he
  exact ⟨e, mem_drop_take.mpr ⟨seq, by omega, h2, hentry⟩, hid⟩

/-- A document that nothing touches stays as it is. -/
theorem lookup_replay_of_not_touched (h : a ≤ n) (hid : ¬ Touched log a n id) :
    (replay (log.take n)).lookup id = (replay (log.take a)).lookup id := by
  rw [← replay_take_drop log h]
  exact lookup_applyEntries_of_untouched (notMem_walTouchedDocIds.mp hid) _

/-! ## The last row of a document -/

theorem mem_ops_id : (∃ op ∈ e.ops, op.id = id) ↔ id ∈ e.deletes ∨ id ∈ e.writtenIds := by
  simp only [ops, writtenIds, mem_append, mem_map]
  constructor
  · rintro ⟨op, ((⟨i, hi, rfl⟩ | ⟨u, hu, rfl⟩) | ⟨p, hp, rfl⟩), rfl⟩
    · exact .inl hi
    · exact .inr (.inl ⟨u, hu, rfl⟩)
    · exact .inr (.inr ⟨p, hp, rfl⟩)
  · rintro (hd | ⟨u, hu, rfl⟩ | ⟨p, hp, rfl⟩)
    · exact ⟨.delete id, .inl (.inl ⟨id, hd, rfl⟩), rfl⟩
    · exact ⟨_, .inl (.inr ⟨u, hu, rfl⟩), rfl⟩
    · exact ⟨_, .inr ⟨p, hp, rfl⟩, rfl⟩

theorem mem_ops_upsert : (∃ a, DocOp.upsert id a ∈ e.ops) ↔ id ∈ e.upserts.map WalUpsert.id := by
  simp only [ops, mem_append, mem_map, reduceCtorEq, and_false, exists_false,
    false_or, or_false, upsert.injEq]
  constructor
  · rintro ⟨a, u, hu, hid, -⟩
    exact ⟨u, hu, hid⟩
  · rintro ⟨u, hu, hid⟩
    exact ⟨u.attributes, u, hu, hid, rfl⟩

theorem mem_ops_delete : DocOp.delete id ∈ e.ops ↔ id ∈ e.deletes := by
  simp [ops]

theorem mem_stampedRows {row : Nat × DocOp} :
    row ∈ stampedRows first es ↔ ∃ k e, es[k]? = some e ∧ row.1 = first + k ∧ row.2 ∈ e.ops := by
  induction es generalizing first with
  | nil => simp [stampedRows]
  | cons e es ih =>
    rw [stampedRows, mem_append, ih, mem_map]
    constructor
    · rintro (⟨op, hop, rfl⟩ | ⟨k, f, hf, hseq, hop⟩)
      · exact ⟨0, e, rfl, rfl, hop⟩
      · exact ⟨k + 1, f, hf, by omega, hop⟩
    · rintro ⟨k, f, hf, hseq, hop⟩
      cases k with
      | zero =>
        cases hf
        exact .inl ⟨row.2, hop, Prod.ext hseq.symm rfl⟩
      | succ k => exact .inr ⟨k, f, hf, by omega, hop⟩

theorem sorted_stampedRows (first : Nat) (es : List WalEntry) :
    (stampedRows first es).Pairwise fun r r' => r.1 ≤ r'.1 := by
  induction es generalizing first with
  | nil => exact Pairwise.nil
  | cons e es ih =>
    rw [stampedRows, pairwise_append]
    refine ⟨?_, ih _, ?_⟩
    · exact pairwise_map.mpr (Pairwise.imp (fun _ => Nat.le_refl _)
        (pairwise_of_forall (fun _ _ => trivial)))
    · intro r hr r' hr'
      obtain ⟨op, -, rfl⟩ := mem_map.mp hr
      obtain ⟨k, f, -, hseq, -⟩ := mem_stampedRows.mp hr'
      omega

/-- Rows that do not upsert a document do not create it. -/
theorem lookup_foldl_applyOp_of_no_upsert {ops : List DocOp} (h : ∀ a, DocOp.upsert id a ∉ ops)
    (hdoc : docs.lookup id = none) : (ops.foldl applyOp docs).lookup id = none := by
  induction ops generalizing docs with
  | nil => exact hdoc
  | cons op ops ih =>
    refine ih (fun a ha => h a (mem_cons_of_mem _ ha)) ?_
    rw [lookup_applyOp, hdoc]
    split
    · rename_i hop
      cases op with
      | delete _ => rfl
      | upsert i a => exact absurd (by rw [← hop]; exact mem_cons_self) (h a)
      | patch _ _ => rfl
    · rfl

/-- Rows that delete a document and do not upsert it remove it. -/
theorem lookup_foldl_applyOp_of_delete {ops : List DocOp} (hdel : DocOp.delete id ∈ ops)
    (h : ∀ a, DocOp.upsert id a ∉ ops) : (ops.foldl applyOp docs).lookup id = none := by
  obtain ⟨before, after, rfl⟩ := append_of_mem hdel
  rw [foldl_append, foldl_cons]
  refine lookup_foldl_applyOp_of_no_upsert (fun a ha => h a ?_) ?_
  · exact mem_append_right _ (mem_cons_of_mem _ ha)
  · rw [lookup_applyOp, if_pos (show (delete id).id = id from rfl)]
    rfl

/-- Rows that do not upsert a document do not record it. -/
theorem lookup_foldl_stampRow_of_no_upsert {rows : List (Nat × DocOp)}
    (h : ∀ row ∈ rows, ∀ a, row.2 ≠ .upsert id a) (hmap : map.lookup id = none) :
    (rows.foldl stampRow map).lookup id = none := by
  induction rows generalizing map with
  | nil => exact hmap
  | cons row rows ih =>
    refine ih (fun r hr => h r (mem_cons_of_mem _ hr)) ?_
    rw [lookup_stampRow, hmap]
    split
    · rename_i hop
      obtain ⟨seq, op⟩ := row
      cases op with
      | delete _ => rfl
      | upsert i a => exact absurd (congrArg (upsert · a) hop) (h _ mem_cons_self a)
      | patch _ _ => rfl
    · rfl

/-- A document that exists in the end has the sequence of its last row. -/
theorem lookup_foldl_stampRow (docs : DocMap) (map : HashMap String Nat)
    (rows : List (Nat × DocOp)) (hdoc : ((rows.map Prod.snd).foldl applyOp docs).lookup id ≠ none)
    (hknown : (∀ row ∈ rows, ∀ a, row.2 ≠ .upsert id a) → map.lookup id ≠ none) :
    (rows.foldl stampRow map).lookup id
      = ((rows.filter fun row => row.2.id = id).getLast?.map Prod.fst).or (map.lookup id) := by
  induction rows using reverseRecOn with
  | nil => rfl
  | append_singleton rows row ih =>
    rw [map_append, foldl_append] at hdoc
    change (applyOp ((rows.map Prod.snd).foldl applyOp docs) row.2).lookup id ≠ none at hdoc
    rw [lookup_applyOp] at hdoc
    rw [foldl_append, foldl_cons, foldl_nil, lookup_stampRow, filter_append,
      getLast?_append]
    by_cases hid : row.2.id = id
    · have hlast : [row].filter (fun row => row.2.id = id) = [row] := by simp [hid]
      rw [if_pos hid, hlast]
      rw [if_pos hid] at hdoc
      obtain ⟨seq, op⟩ := row
      cases op with
      | delete _ => exact absurd rfl hdoc
      | upsert _ _ => rfl
      | patch i p =>
        have hbefore : ((rows.map Prod.snd).foldl applyOp docs).lookup id ≠ none := by
          intro hnone
          rw [hnone] at hdoc
          exact hdoc rfl
        have hknown' : (∀ r ∈ rows, ∀ a, r.2 ≠ .upsert id a) → map.lookup id ≠ none := by
          intro hno
          refine hknown fun r hr a => ?_
          rcases mem_append.mp hr with hr | hr
          · exact hno r hr a
          · rw [mem_singleton.mp hr]
            exact DocOp.noConfusion
        have hsome : (rows.foldl stampRow map).lookup id ≠ none := by
          intro hnone
          rw [ih hbefore hknown', Option.or_eq_none_iff, Option.map_eq_none_iff,
            getLast?_eq_none_iff, filter_eq_nil_iff] at hnone
          refine hknown' (fun r hr a heq => ?_) hnone.2
          exact hnone.1 r hr (by simp [heq, DocOp.id])
        obtain ⟨q, hq⟩ := Option.ne_none_iff_exists'.mp hsome
        rw [hq]
        rfl
    · have hlast : [row].filter (fun row => row.2.id = id) = [] := by simp [hid]
      rw [if_neg hid] at hdoc
      rw [if_neg hid, hlast, ih hdoc (fun hno => hknown fun r hr a => ?_)]
      · rfl
      · rcases mem_append.mp hr with hr | hr
        · exact hno r hr a
        · rw [mem_singleton.mp hr]
          intro heq
          exact hid (by rw [heq]; rfl)

/-! ## Sequences of the entries of a log -/

/-- Entries that do not upsert a document do not record it. -/
theorem lookup_recordSeqs_of_no_upsert (h : ∀ e ∈ es, id ∉ e.upserts.map WalUpsert.id)
    (hmap : map.lookup id = none) : (recordSeqs map first es).lookup id = none := by
  rw [recordSeqs_eq_foldl]
  refine lookup_foldl_stampRow_of_no_upsert (fun row hrow a heq => ?_) hmap
  obtain ⟨k, e, he, -, hop⟩ := mem_stampedRows.mp hrow
  exact h e (mem_of_getElem? he) (mem_ops_upsert.mp ⟨a, heq ▸ hop⟩)

/-- A document that exists after some entries has the sequence of the last one
that names it, or its old one if none does. -/
theorem recordSeqs_last (hdoc : (es.foldl applyEntry docs).lookup id ≠ none)
    (hknown : (∀ e ∈ es, id ∉ e.upserts.map WalUpsert.id) → map.lookup id ≠ none) :
    (∃ k e, es[k]? = some e ∧ (id ∈ e.deletes ∨ id ∈ e.writtenIds) ∧
        (∀ k' e', es[k']? = some e' → id ∈ e'.deletes ∨ id ∈ e'.writtenIds → k' ≤ k) ∧
        (recordSeqs map first es).lookup id = some (first + k)) ∨
      ((∀ e ∈ es, ¬ (id ∈ e.deletes ∨ id ∈ e.writtenIds)) ∧
        (recordSeqs map first es).lookup id = map.lookup id) := by
  have hspec := lookup_foldl_stampRow docs map (stampedRows first es)
    (by rw [map_snd_stampedRows, ← foldl_applyEntry]; exact hdoc)
    (fun hno => hknown fun e he hid => by
      obtain ⟨a, hop⟩ := mem_ops_upsert.mpr hid
      obtain ⟨k, hk⟩ := mem_iff_getElem?.mp he
      exact hno (first + k, .upsert id a) (mem_stampedRows.mpr ⟨k, e, hk, rfl, hop⟩) a rfl)
  rw [← recordSeqs_eq_foldl] at hspec
  have hrow : ∀ {k e}, es[k]? = some e → (id ∈ e.deletes ∨ id ∈ e.writtenIds) →
      ∃ op, (first + k, op) ∈ (stampedRows first es).filter fun row => row.2.id = id := by
    intro k e he hid
    obtain ⟨op, hop, hopid⟩ := mem_ops_id.mpr hid
    refine ⟨op, mem_filter.mpr ⟨mem_stampedRows.mpr ⟨k, e, he, rfl, hop⟩, ?_⟩⟩
    exact decide_eq_true hopid
  cases hlast : ((stampedRows first es).filter fun row => row.2.id = id).getLast? with
  | none =>
    rw [hlast] at hspec
    refine .inr ⟨fun e he hid => ?_, hspec⟩
    obtain ⟨k, hk⟩ := mem_iff_getElem?.mp he
    obtain ⟨op, hop⟩ := hrow hk hid
    rw [getLast?_eq_none_iff.mp hlast] at hop
    cases hop
  | some row =>
    rw [hlast] at hspec
    have hmem := mem_filter.mp (mem_of_getLast? hlast)
    obtain ⟨k, e, he, hseq, hop⟩ := mem_stampedRows.mp hmem.1
    refine .inl ⟨k, e, he, mem_ops_id.mp ⟨_, hop, of_decide_eq_true hmem.2⟩, ?_, ?_⟩
    · intro k' e' he' hid
      obtain ⟨op, hop'⟩ := hrow he' hid
      have hsorted := (sorted_stampedRows first es).filter (fun row => decide (row.2.id = id))
      obtain ⟨older, holder⟩ := getLast?_eq_some_iff.mp hlast
      rw [holder] at hop' hsorted
      rcases mem_append.mp hop' with hr | hr
      · have hle := (pairwise_append.mp hsorted).2.2 _ hr row mem_cons_self
        omega
      · have heq := congrArg Prod.fst (mem_singleton.mp hr)
        omega
    · rw [hspec, ← hseq]
      rfl

/-- A document that is left and that no entry upserts was there before, and no
entry deletes it. -/
theorem kept_of_no_upsert {base : DocMap} (hdoc : (es.foldl applyEntry base).lookup id ≠ none)
    (hup : ∀ e ∈ es, id ∉ e.upserts.map WalUpsert.id) : id ∈ base ∧ ∀ e ∈ es, id ∉ e.deletes := by
  rw [foldl_applyEntry] at hdoc
  have hno : ∀ a, upsert id a ∉ es.flatMap ops := by
    intro a ha
    obtain ⟨e, he, hop⟩ := mem_flatMap.mp ha
    exact hup e he (mem_ops_upsert.mp ⟨a, hop⟩)
  refine ⟨?_, fun e he hdel => ?_⟩
  · by_contra hbase
    exact hdoc (lookup_foldl_applyOp_of_no_upsert hno (lookup_eq_none.mpr hbase))
  · have hop := mem_flatMap.mpr ⟨e, he, mem_ops_delete.mpr hdel⟩
    exact hdoc (lookup_foldl_applyOp_of_delete hop hno)

theorem kept_of_not_upserted (h : a ≤ n) (hid : ¬ Upserted log a n id)
    (hdoc : (replay (log.take n)).lookup id ≠ none) :
    id ∈ replay (log.take a) ∧ ∀ e ∈ (log.take n).drop a, id ∉ e.deletes := by
  rw [← replay_take_drop log h] at hdoc
  exact kept_of_no_upsert hdoc fun e he hmem => hid ⟨e, he, hmem⟩

/-- A document that no entry upserts was there before. -/
theorem lookup_replay_of_not_upserted (h : a ≤ n) (hid : ¬ Upserted log a n id)
    (hdoc : (replay (log.take n)).lookup id ≠ none) : (replay (log.take a)).lookup id ≠ none :=
  fun hnone => lookup_eq_none.mp hnone (kept_of_not_upserted h hid hdoc).1

/-- The sequence of a document that exists at `n`, after the entries from `a` on:
it tells which entries touch the document, or it is the old one and none does. -/
theorem recordSeqs_spec (h : a ≤ n) (map : HashMap String Nat)
    (hdoc : (replay (log.take n)).lookup id ≠ none)
    (hknown : ¬ Upserted log a n id → map.lookup id ≠ none) :
    ∃ q, (recordSeqs map (a + 1) ((log.take n).drop a)).lookup id = some q ∧
      ((∀ i, q ≤ i ↔ ¬ Touched log i n id) ∨
        (¬ Touched log a n id ∧ map.lookup id = some q)) := by
  rw [← replay_take_drop log h] at hdoc
  rcases recordSeqs_last hdoc (fun hno => hknown fun ⟨e, he, hid⟩ => hno e he hid) with
    ⟨k, e, he, hid, hmax, hq⟩ | ⟨hno, hq⟩
  · refine ⟨a + 1 + k, hq, .inl fun i => ⟨fun hle ht => ?_, fun hnot => ?_⟩⟩
    · obtain ⟨seq, e', h1, h2, he', hid'⟩ := touched_iff.mp ht
      obtain ⟨k', rfl⟩ : ∃ k', seq = a + 1 + k' := ⟨seq - a - 1, by omega⟩
      have hk := hmax k' e' (getElem?_between.mpr ⟨h2, he'⟩) hid'
      omega
    · obtain ⟨hle, hentry⟩ := getElem?_between.mp he
      refine Nat.le_of_not_lt fun hlt => hnot ?_
      exact touched_iff.mpr ⟨a + 1 + k, e, hlt, hle, hentry, hid⟩
  · have hnot : ¬ Touched log a n id := by
      intro ht
      obtain ⟨seq, e, h1, h2, he, hid⟩ := touched_iff.mp ht
      exact hno e (mem_drop_take.mpr ⟨seq, h1, h2, he⟩) hid
    obtain ⟨q, hold⟩ := Option.ne_none_iff_exists'.mp (hknown fun hup => hnot hup.touched)
    exact ⟨q, hq.trans hold, .inr ⟨hnot, hold⟩⟩

/-! ## Sequences and documents together -/

/-- The map has a sequence for every document and for nothing else. -/
def SameIds (docs : DocMap) (map : HashMap String Nat) : Prop := ∀ id, id ∈ map ↔ id ∈ docs

theorem SameIds.row (h : SameIds docs map) (row : Nat × DocOp) :
    SameIds (applyOp docs row.2) (stampRow map row) := by
  intro id
  have hid := h id
  simp only [← lookup_isSome, lookup_stampRow, lookup_applyOp] at hid ⊢
  split
  · obtain ⟨seq, op⟩ := row
    cases op with
    | delete _ | upsert _ _ => rfl
    | patch _ _ => simpa only [DocOp.stamp, DocOp.act, Option.isSome_map] using hid
  · exact hid

theorem SameIds.entry (h : SameIds docs map) (seq : Nat) (e : WalEntry) :
    SameIds (applyEntry docs e) (updateDocWalSeqMap map seq e) := by
  rw [applyEntry_eq_foldl, updateDocWalSeqMap_eq_foldl]
  generalize e.ops = ops
  induction ops generalizing docs map with
  | nil => exact h
  | cons op ops ih => exact ih (h.row (seq, op))

def WalEntry.Names (e : WalEntry) (id : String) : Prop := id ∈ e.deletes ∨ id ∈ e.writtenIds

theorem lookup_applyEntry_of_not_names (h : ¬ e.Names id) :
    (applyEntry docs e).lookup id = docs.lookup id := by
  obtain ⟨hdel, hwritten⟩ := not_or.mp h
  have hnone : ∀ f ∈ [e], id ∉ f.writtenIds ∧ id ∉ f.deletes := by
    intro f hf
    rw [mem_singleton.mp hf]
    exact ⟨hwritten, hdel⟩
  exact lookup_applyEntries_of_untouched hnone docs

/-- An entry sets the sequence of the documents that it names and that are left, and of no
others. -/
theorem SameIds.lookup_entry (h : SameIds docs map) (seq : Nat) (e : WalEntry) (id : String) :
    (e.Names id → id ∈ applyEntry docs e →
        (updateDocWalSeqMap map seq e).lookup id = some seq) ∧
      (¬ e.Names id → (updateDocWalSeqMap map seq e).lookup id = map.lookup id) := by
  by_cases hdoc : id ∈ applyEntry docs e
  · have hleft : ([e].foldl applyEntry docs).lookup id ≠ none :=
      fun hnone => lookup_eq_none.mp hnone hdoc
    have hknown : (∀ f ∈ [e], id ∉ f.upserts.map WalUpsert.id) → map.lookup id ≠ none :=
      fun hno hnone => lookup_eq_none.mp hnone
        ((h id).mpr (kept_of_no_upsert hleft hno).1)
    rcases recordSeqs_last hleft hknown with ⟨k, f, hf, hnames, -, hseq⟩ | ⟨hno, hseq⟩
    · cases k with
      | zero =>
        cases hf
        exact ⟨fun _ _ => hseq, fun hnot => absurd hnames hnot⟩
      | succ k => cases hf
    · exact ⟨fun hnames => absurd hnames (hno e mem_cons_self), fun _ => hseq⟩
  · refine ⟨fun _ hdoc' => absurd hdoc' hdoc, fun hnot => ?_⟩
    have hnone : id ∉ updateDocWalSeqMap map seq e := fun hid => hdoc ((h.entry seq e id).mp hid)
    have hold : id ∉ map := by
      rw [h id, ← lookup_eq_none, ← lookup_applyEntry_of_not_names hnot]
      exact lookup_eq_none.mpr hdoc
    rw [lookup_eq_none.mpr hnone, lookup_eq_none.mpr hold]

/-- The entry upserts the id, or patches it while it exists. -/
def WalEntry.Writes (e : WalEntry) (docs : DocMap) (id : String) : Prop :=
  id ∈ e.upserts.map WalUpsert.id ∨
    (id ∈ e.patches.map WalPatch.id ∧ id ∈ applyEntry docs { e with patches := [] })

instance (e : WalEntry) (docs : DocMap) (id : String) : Decidable (e.Writes docs id) :=
  inferInstanceAs (Decidable (_ ∨ _))

/-- An entry writes a document that is left exactly if it names it. -/
theorem writes_iff_names (hdoc : id ∈ applyEntry docs e) : e.Writes docs id ↔ e.Names id := by
  simp only [Names, writtenIds, mem_append]
  refine ⟨fun h => .inr (h.imp_right And.left), fun h => ?_⟩
  by_cases hup : id ∈ e.upserts.map WalUpsert.id
  · exact .inl hup
  have hleft : ([e].foldl applyEntry docs).lookup id ≠ none :=
    fun hnone => lookup_eq_none.mp hnone hdoc
  have hdel : id ∉ e.deletes :=
    (kept_of_no_upsert hleft fun f hf => mem_singleton.mp hf ▸ hup).2 e mem_cons_self
  have hbefore : id ∈ applyEntry docs { e with patches := [] } := by
    by_contra hnone
    rw [← lookup_eq_none, applyEntry_eq_foldl] at hnone
    refine lookup_eq_none.mp ?_ hdoc
    have hops : e.ops = ({ e with patches := [] } : WalEntry).ops ++
        e.patches.map fun p => .patch p.id p.attributes := by
      simp [ops]
    rw [applyEntry_eq_foldl, hops, foldl_append]
    exact lookup_foldl_applyOp_of_no_upsert (by simp) hnone
  exact .inr ⟨(h.resolve_left hdel).resolve_left hup, hbefore⟩

/-- The documents after some entries with their sequences, the newest first. -/
def docsAfter : List (Nat × WalEntry) → DocMap
  | [] => ∅
  | (_, e) :: older => applyEntry (docsAfter older) e

def seqsAfter : List (Nat × WalEntry) → HashMap String Nat
  | [] => ∅
  | (seq, e) :: older => updateDocWalSeqMap (seqsAfter older) seq e

def lastWrite (id : String) : List (Nat × WalEntry) → Option Nat
  | [] => none
  | (seq, e) :: older => if e.Writes (docsAfter older) id then some seq else lastWrite id older

theorem sameIds_after (entries : List (Nat × WalEntry)) :
    SameIds (docsAfter entries) (seqsAfter entries) := by
  induction entries with
  | nil => exact fun _ => iff_of_false notMem_empty notMem_empty
  | cons entry older ih => exact ih.entry entry.1 entry.2

theorem lookup_seqsAfter (entries : List (Nat × WalEntry)) (id : String) :
    (seqsAfter entries).lookup id
      = if id ∈ docsAfter entries then lastWrite id entries else none := by
  split
  · rename_i hdoc
    induction entries with
    | nil => exact absurd hdoc notMem_empty
    | cons entry older ih =>
      obtain ⟨hset, hkeep⟩ := (sameIds_after older).lookup_entry entry.1 entry.2 id
      rw [seqsAfter, lastWrite]
      split
      · rename_i hwrites
        exact hset ((writes_iff_names hdoc).mp hwrites) hdoc
      · rename_i hnot
        have hnames : ¬ entry.2.Names id := fun h => hnot ((writes_iff_names hdoc).mpr h)
        rw [docsAfter, ← lookup_isSome, lookup_applyEntry_of_not_names hnames,
          lookup_isSome] at hdoc
        rw [hkeep hnames, ih hdoc]
  · rename_i hdoc
    exact lookup_eq_none.mpr fun hid => hdoc ((sameIds_after entries id).mp hid)

/-- An entry keeps the ids of the documents and of their sequences the same; it sets the
sequence of every document that it names and leaves, and of no other one.  So, after any
entries, the sequence of a document is that of the last entry that upserted it or patched it
while it existed. -/
theorem seqs_track_documents :
    (∀ docs map, SameIds docs map → ∀ seq e,
      SameIds (applyEntry docs e) (updateDocWalSeqMap map seq e) ∧
        ∀ id, (e.Names id → id ∈ applyEntry docs e →
            (updateDocWalSeqMap map seq e).lookup id = some seq) ∧
          (¬ e.Names id → (updateDocWalSeqMap map seq e).lookup id = map.lookup id)) ∧
      ∀ entries id, (seqsAfter entries).lookup id
        = if id ∈ docsAfter entries then lastWrite id entries else none :=
  ⟨fun _ _ h seq e => ⟨h.entry seq e, h.lookup_entry seq e⟩, lookup_seqsAfter⟩

end OpenPuffer
