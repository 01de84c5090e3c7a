import OpenPuffer.Conditional.Machine

/-!
# When conditional writes are linearizable

The serial order is the order in which requests reach the buffer.  A request that was evaluated
on other documents than those of that order may apply a row whose condition no longer holds.
In a run of `Undisturbed` steps the documents a request was evaluated on agree, on the ids it
watches, with those of the order, until the request itself reaches the buffer.
-/

namespace OpenPuffer

open List Function WalEntry BufferState CondState ConditionalWrite

/-! ## Entries that leave an id alone -/

def WalEntry.ids (e : WalEntry) : List String :=
  e.upserts.map WalUpsert.id ++ e.patches.map WalPatch.id ++ e.deletes

variable {id : String} {docs docs' : DocMap} {c : ConditionalWrite} {w : WriteRequest}

theorem WalEntry.act_of_not_mem {e : WalEntry} (h : id ∉ e.ids) (cur : Option Attributes) :
    e.act id cur = cur := by
  simp only [ids, mem_append, not_or] at h
  rw [act_of_no_upsert (lastUpsert_of_not_mem h.1.1), if_neg h.2, patched_of_not_mem h.1.2]
  cases cur with
  | none => rfl
  | some doc => exact congrArg some (mergeDocumentAttributes_empty doc)

theorem WalEntry.mem_ids_concat {es : List WalEntry} :
    id ∈ (concat es).ids ↔ ∃ e ∈ es, id ∈ e.ids := by
  simp only [ids, concat, map_flatMap, mem_append, mem_flatMap]
  constructor
  · rintro ((⟨e, he, h⟩ | ⟨e, he, h⟩) | ⟨e, he, h⟩)
    · exact ⟨e, he, .inl (.inl h)⟩
    · exact ⟨e, he, .inl (.inr h)⟩
    · exact ⟨e, he, .inr h⟩
  · rintro ⟨e, he, (h | h) | h⟩
    · exact .inl (.inl ⟨e, he, h⟩)
    · exact .inl (.inr ⟨e, he, h⟩)
    · exact .inr ⟨e, he, h⟩

def applyWrites (docs : DocMap) (ws : List WriteRequest) : DocMap :=
  (ws.map WriteRequest.entry).foldl applyEntry docs

theorem applyWrites_append (docs : DocMap) (ws vs : List WriteRequest) :
    applyWrites docs (ws ++ vs) = applyWrites (applyWrites docs ws) vs := by
  simp only [applyWrites, map_append, foldl_append]

/-- What writes do to an id depends on the document of that id only. -/
theorem lookup_applyWrites_congr (ws : List WriteRequest) (h : docs.lookup id = docs'.lookup id) :
    (applyWrites docs ws).lookup id = (applyWrites docs' ws).lookup id := by
  simp only [applyWrites, lookup_foldl_applyEntry, h]

theorem lookup_applyWrites_of_not_mem {ws : List WriteRequest}
    (h : id ∉ (WalEntry.concat (ws.map WriteRequest.entry)).ids) (docs : DocMap) :
    (applyWrites docs ws).lookup id = docs.lookup id := by
  rw [applyWrites, lookup_foldl_applyEntry]
  have hall : ∀ e ∈ ws.map WriteRequest.entry, id ∉ e.ids :=
    fun e he hid => h (mem_ids_concat.mpr ⟨e, he, hid⟩)
  revert hall
  generalize docs.lookup id = cur
  induction ws.map WriteRequest.entry with
  | nil => exact fun _ => rfl
  | cons e es ih =>
    intro hall
    rw [foldl_cons, act_of_not_mem (hall e mem_cons_self)]
    exact ih fun f hf => hall f (mem_cons_of_mem e hf)

/-- The overlay of a queue that keeps its order. -/
theorem overlayPendingWrites_eq {W : Type} {st : BufferState W} {ws : List WriteRequest}
    (hst : st.entry = WalEntry.concat (ws.map WriteRequest.entry))
    (hkeep : KeepsOrder (ws.map WriteRequest.entry)) (docs : DocMap) :
    st.overlayPendingWrites docs = applyWrites docs ws := by
  have happly : st.overlayPendingWrites docs = applyEntry docs st.entry := by
    unfold overlayPendingWrites
    split
    · rename_i hempty
      simp only [Bool.and_eq_true, List.isEmpty_iff] at hempty
      simp [Pending.entry, hempty.1.1, hempty.1.2, hempty.2, fromWrite, applyEntry,
        intoDocuments, patchDocuments]
    · rfl
  rw [happly, hst, (applyEntry_concat_eq_iff docs _).mpr hkeep, applyWrites]

/-! ## Evaluation -/

theorem keepRows_congr {α : Type} {cond : Option Json} {f g : FilterExpr → α → Bool}
    {l : List α} (h : (activeCondition cond).isSome → ∀ expr, ∀ row ∈ l, f expr row = g expr row) :
    keepRows cond f l = keepRows cond g l := by
  unfold keepRows
  cases hc : activeCondition cond with
  | none => rfl
  | some v =>
    have htest : ∀ expr, l.filter (f expr) = l.filter (g expr) :=
      fun expr => filter_congr (h (by rw [hc]; rfl) expr)
    simp only [htest]

/-- Conditions only read the documents of the rows they are about. -/
theorem ConditionalWrite.applied_congr (h : ∀ id ∈ c.watched, docs.lookup id = docs'.lookup id) :
    c.applied docs = c.applied docs' := by
  have hget : ∀ id ∈ c.watched, docs.get id = docs'.get id := by
    intro id hid
    rw [DocMap.get, DocMap.get, h id hid]
  rw [applied, applied,
    keepRows_congr (l := c.upserts)
      (g := fun expr d => shouldApplyUpsert expr (docs'.get d.id) d) ?_,
    keepRows_congr (l := c.patches)
      (g := fun expr p => shouldApplyPatch expr (docs'.get p.id) p) ?_,
    keepRows_congr (l := c.deletes) (g := fun expr id => shouldApplyDelete expr (docs'.get id)) ?_]
  all_goals
    intro hc expr row hrow
    rw [hget]
    simp only [watched, if_pos hc, mem_append]
  · exact .inr hrow
  · exact .inl (.inr (mem_map_of_mem hrow))
  · exact .inl (.inl (mem_map_of_mem hrow))

theorem keepRows_subset {α : Type} {cond : Option Json} {test : FilterExpr → α → Bool}
    {rows kept : List α} (h : keepRows cond test rows = .ok kept) : kept ⊆ rows := by
  simp only [keepRows] at h
  split at h
  · cases h
    exact Subset.refl _
  · rename_i v hc
    cases hp : parseFilter v with
    | error err =>
      rw [hp] at h
      cases h
    | ok expr =>
      rw [hp] at h
      cases h
      exact fun row hrow => (mem_filter.mp hrow).1

theorem ConditionalWrite.applied_ids (h : c.applied docs = .ok w) : w.entry.ids ⊆ c.ids := by
  obtain ⟨upserts, hups, h⟩ := bind_eq_ok.mp h
  obtain ⟨patches, hpat, h⟩ := bind_eq_ok.mp h
  obtain ⟨deletes, hdel, h⟩ := bind_eq_ok.mp h
  cases h
  intro id hid
  simp only [WriteRequest.entry, WalEntry.fromWrite, WalEntry.ids, map_map, mem_append]
    at hid
  simp only [ids, mem_append]
  rcases hid with (hid | hid) | hid
  · exact .inl (.inl (map_subset _ (keepRows_subset hups) hid))
  · exact .inl (.inr (map_subset _ (keepRows_subset hpat) hid))
  · exact .inr (keepRows_subset hdel hid)

theorem serialRun_concat (pairs : List (ConditionalWrite × WriteRequest))
    (hrun : serialRun docs pairs = some docs') (happlied : c.applied docs' = .ok w) :
    serialRun docs (pairs ++ [(c, w)]) = some (applyEntry docs' w.entry) := by
  induction pairs generalizing docs with
  | nil =>
    cases hrun
    rw [nil_append, serialRun, if_pos happlied]
    rfl
  | cons p pairs ih =>
    rw [serialRun] at hrun
    split at hrun
    · rename_i happlied'
      rw [cons_append, serialRun, if_pos happlied']
      exact ih hrun
    · cases hrun

/-! ## The pinned view -/

theorem loadViewSnapshot_eq {w : World} {view : Option NamespaceView} (diskCache : Bool)
    (hview : ∀ v, view = some v → v.Tracks w.log) :
    ∃ v, loadViewSnapshot w diskCache view = (some v, .ok v) ∧ v.docs = replay w.log ∧
      v.Tracks w.log := by
  have hcaught : ∀ v : NamespaceView, v.Tracks w.log →
      ∃ v' b, NamespaceView.catchUp w.store w.read v = (v', .ok b) ∧ v'.docs = replay w.log ∧
        v'.Tracks w.log := by
    intro v htrack
    obtain ⟨v', b, hcatch, hdocs, hlast⟩ := w.fetched_read.catchUp_eq htrack
    refine ⟨v', b, hcatch, hdocs, NamespaceView.tracks_of_take (d := w.log.length) ?_
      (Nat.le_of_eq hlast) (Nat.le_refl _)⟩
    rw [hdocs, take_length]
  cases view with
  | some v =>
    obtain ⟨v', b, hcatch, hdocs, htrack⟩ := hcaught v (hview v rfl)
    refine ⟨v', ?_, hdocs, htrack⟩
    simp only [loadViewSnapshot, hcatch]
  | none =>
    obtain ⟨v, hload, hloaded⟩ :=
      w.fetched_read.load_eq (if diskCache then .full else .batched true)
    obtain ⟨v', b, hcatch, hdocs, htrack⟩ := hcaught v hloaded
    refine ⟨v', ?_, hdocs, htrack⟩
    simp only [loadViewSnapshot, hload, hcatch]

theorem publishedView_tracks {w : World} {view : Option NamespaceView} {b : CommittedBatch}
    (refreshed : Bool) (hview : ∀ v, view = some v → v.Tracks w.log)
    (hentry : entryAt w.log b.seq = some b.entry ∨ (b.seq = 0 ∧ b.entry = {}))
    (hgap : ∀ v ∈ view, b.seq ≤ v.lastAppliedWalSeq + 1) :
    ∀ v, publishedView w b refreshed view = some v → v.Tracks w.log := by
  intro v' hv'
  cases view with
  | some v =>
    have htrack := (hview v rfl).applyCommitted hentry (hgap v rfl)
    cases hv'
    cases refreshed with
    | true => exact htrack.refresh _
    | false => exact htrack
  | none =>
    obtain ⟨v, hload, htrack⟩ := w.fetched_read.load_eq .full
    have hload' : NamespaceView.load w.store w.read = .ok v := hload
    rw [publishedView, hload'] at hv'
    cases hv'
    exact htrack

/-! ## Undisturbed steps -/

/-- The ids a request that is looking for the namespace will watch. -/
def CondPhase.wantedIds : CondPhase → List String
  | .started c => c.watched
  | .found c => c.watched
  | _ => []

/-- The ids a request with committed documents has not yet seen in the buffer. -/
def CondPhase.snapshotIds : CondPhase → List String
  | .snapshot c _ => c.watched
  | _ => []

/-- The ids a request relies on when it enters the buffer. -/
def CondPhase.reliedIds : CondPhase → List String
  | .evaluated c _ => c.watched
  | _ => []

/-- The ids of the rows of a request that is about to enter the buffer. -/
def CondPhase.rowIds : CondPhase → List String
  | .evaluated c _ => c.ids
  | _ => []

namespace CondState

variable {R : Type}

def flightWrites (s : CondState R) : List WriteRequest := s.inFlight.elim [] InFlight.writes

def flightIds (s : CondState R) : List String :=
  s.inFlight.elim [] fun batch => batch.pending.entry.ids

/-- The steps that keep a request from acting on documents that have changed. -/
def Undisturbed (s : CondState R) : CondAction R → Prop
  | .existence r false =>
    ∀ id ∈ (s.phase r).wantedIds, id ∉ s.flightIds ∧ id ∉ s.buffer.entry.ids
  | .load r _ => ∀ id ∈ (s.phase r).wantedIds, id ∉ s.flightIds
  | .overlay _ => KeepsOrder (s.queued.map WriteRequest.entry)
  | .enqueue r => ∀ q, q ≠ r → ∀ id ∈ (s.phase q).reliedIds, id ∉ (s.phase r).rowIds
  | .drain =>
    KeepsOrder (s.queued.map WriteRequest.entry) ∧
      ∀ q, ∀ id ∈ (s.phase q).snapshotIds, id ∉ s.buffer.entry.ids
  | .publish r _ =>
    ∀ b ∈ (s.phase r).answer, ∀ v ∈ s.view, b.seq ≤ v.lastAppliedWalSeq + 1
  | .start _ _ | .existence _ true | .release | .commit _ => True

instance [Fintype R] [DecidableEq R] (s : CondState R) (a : CondAction R) :
    Decidable (s.Undisturbed a) :=
  match a with
  | .existence _ false => inferInstanceAs (Decidable (∀ _ ∈ _, _ ∧ _))
  | .load _ _ => inferInstanceAs (Decidable (∀ _ ∈ _, _))
  | .overlay _ => inferInstanceAs (Decidable (KeepsOrder _))
  | .enqueue _ => inferInstanceAs (Decidable (∀ _, _ → ∀ _ ∈ _, _))
  | .drain => inferInstanceAs (Decidable (KeepsOrder _ ∧ ∀ _, ∀ _ ∈ _, _))
  | .publish _ _ => inferInstanceAs (Decidable (∀ _ ∈ _, ∀ _ ∈ _, _))
  | .start _ _ | .existence _ true | .release | .commit _ => isTrue trivial

/-! ## The invariant -/

/-- The documents after every write that reached the buffer, in order. -/
def serialDocs (s : CondState R) : DocMap :=
  applyWrites (replay s.world.log) (s.flightWrites ++ s.queued)

/-- The waiters of the buffer and of the batch in flight. -/
def allWaiters (s : CondState R) : List (WriteWaiter R) :=
  s.buffer.waiters ++ s.inFlight.elim [] InFlight.waiters

end CondState

/-- What the documents of a request are worth: on the ids it watches they agree
with `serial`, after the queued writes if those are still to be read. -/
def CondPhase.Reads (serial : DocMap) (queued : List WriteRequest) : CondPhase → Prop
  | .snapshot c docs =>
    ∀ id ∈ c.watched, (applyWrites docs queued).lookup id = serial.lookup id
  | .evaluated c docs => ∀ id ∈ c.watched, docs.lookup id = serial.lookup id
  | _ => True

/-- A write enters the buffer that has no row about an id the request relies on. -/
theorem CondPhase.Reads.enqueue {p : CondPhase} {serial : DocMap} {queued : List WriteRequest}
    (h : p.Reads serial queued) (hspared : ∀ id ∈ p.reliedIds, id ∉ w.entry.ids) :
    p.Reads (applyEntry serial w.entry) (queued ++ [w]) := by
  cases p with
  | snapshot c docs =>
    intro id hid
    rw [applyWrites_append]
    exact lookup_applyWrites_congr [w] (h id hid)
  | evaluated c docs =>
    intro id hid
    rw [h id hid, lookup_applyEntry, act_of_not_mem (hspared id hid)]
  | idle | started _ | found _ | accepted _ _ _ | published _ _ _ | failed _ => trivial

structure CondInv {R : Type} (docs : DocMap) (s : CondState R) : Prop where
  view : ∀ v, s.view = some v → v.Tracks s.world.log
  buffered : s.buffer.entry = WalEntry.concat (s.queued.map WriteRequest.entry)
  batch : ∀ b, s.inFlight = some b →
    b.pending.entry = WalEntry.concat (b.writes.map WriteRequest.entry) ∧
      KeepsOrder (b.writes.map WriteRequest.entry)
  nodup : s.order.Nodup
  mem_order : ∀ r, r ∈ s.order ↔ (s.phase r).request.isSome
  serial : serialRun docs (s.order.filterMap fun r => (s.phase r).request) = some s.serialDocs
  reads : ∀ r, (s.phase r).Reads s.serialDocs s.queued
  waiters : ∀ wt ∈ s.allWaiters,
    ∃ c w, (s.phase wt.tx).request = some (c, w) ∧ wt.stats = w.stats
  answers : ∀ r b, (s.phase r).answer = some b →
    entryAt s.world.log b.seq = some b.entry ∨ (b.seq = 0 ∧ b.entry = {})
  stats : ∀ r c w b, (s.phase r).request = some (c, w) → (s.phase r).answer = some b →
    b.stats = w.stats

namespace CondInv

variable {R : Type} {docs : DocMap} {s : CondState R}

theorem start {w : World} {view : Option NamespaceView}
    (hview : ∀ v, view = some v → v.Tracks w.log) :
    CondInv (replay w.log) (CondState.start w view : CondState R) := by
  refine ⟨hview, rfl, (fun _ hb => nomatch hb), nodup_nil, fun r => ?_, rfl,
    fun _ => trivial, ?_, ?_, ?_⟩
  · simp [CondState.start, CondPhase.request]
  · exact fun _ hwt => nomatch hwt
  · exact fun _ _ hb => nomatch hb
  · exact fun _ _ _ _ hr => nomatch hr

section

variable (h : CondInv docs s)

include h

/-- With nothing queued or in flight the serial documents are the committed ones. -/
theorem replay_eq (hbuf : s.buffer.isEmpty) (hflight : s.inFlight.isNone) :
    replay s.world.log = s.serialDocs := by
  apply HashMap.ext_lookup
  intro id
  have hempty : s.buffer.entry = {} := by
    rw [Pending.isEmpty_iff.mp hbuf]
    rfl
  have hnone : s.flightWrites = [] := by
    rw [CondState.flightWrites, Option.isNone_iff_eq_none.mp hflight]
    rfl
  rw [CondState.serialDocs, hnone, nil_append, lookup_applyWrites_of_not_mem]
  rw [← h.buffered, hempty]
  simp [WalEntry.ids]

/-- Ids that nothing in flight touches see the queued writes on top of the
committed documents. -/
theorem lookup_serialDocs {id : String} (hid : id ∉ s.flightIds) :
    s.serialDocs.lookup id = (applyWrites (replay s.world.log) s.queued).lookup id := by
  rw [CondState.serialDocs, applyWrites_append]
  apply lookup_applyWrites_congr
  apply lookup_applyWrites_of_not_mem
  cases hflight : s.inFlight with
  | none => simp [CondState.flightWrites, hflight, WalEntry.concat, WalEntry.ids]
  | some b =>
    rw [CondState.flightIds, hflight] at hid
    rw [CondState.flightWrites, hflight]
    have hbatch := (h.batch b hflight).1
    exact hbatch ▸ hid

theorem lookup_queued {id : String} (hid : id ∉ s.buffer.entry.ids)
    (base : DocMap) : (applyWrites base s.queued).lookup id = base.lookup id :=
  lookup_applyWrites_of_not_mem (h.buffered ▸ hid) base

theorem linearizable : s.Linearizable docs :=
  ⟨s.order, h.nodup, h.mem_order, ⟨s.serialDocs, h.serial, h.replay_eq⟩, h.stats⟩

theorem setView {view : Option NamespaceView}
    (hview : ∀ v, view = some v → v.Tracks s.world.log) : CondInv docs { s with view } :=
  ⟨hview, h.buffered, h.batch, h.nodup, h.mem_order, h.serial, h.reads, h.waiters, h.answers,
    h.stats⟩

end

variable {c : ConditionalWrite}

section

variable (h : CondInv docs s)

include h

/-- An absent namespace has no documents, and nothing on its way touches the
watched ids. -/
theorem reads_absent (habsent : s.world.read.isNone)
    (hquiet : ∀ id ∈ c.watched, id ∉ s.flightIds ∧ id ∉ s.buffer.entry.ids) :
    (CondPhase.evaluated c ∅).Reads s.serialDocs s.queued := by
  intro id hid
  have hlog : s.world.log = [] := by
    have hcommit := s.world.commit_eq
    rw [Option.isNone_iff_eq_none.mp habsent] at hcommit
    exact length_eq_zero_iff.mp hcommit.symm
  rw [h.lookup_serialDocs (hquiet id hid).1, h.lookup_queued (hquiet id hid).2, hlog]
  rfl

/-- Requests that reached the buffer keep what they handed over, and their
answers are about their own rows. -/
theorem setPhases {phase : R → CondPhase}
    (hrequest : ∀ q, (phase q).request = (s.phase q).request)
    (hreads : ∀ q, (phase q).Reads s.serialDocs s.queued)
    (hanswer : ∀ q b, (phase q).answer = some b → (s.phase q).answer = some b ∨
      ((entryAt s.world.log b.seq = some b.entry ∨ (b.seq = 0 ∧ b.entry = {})) ∧
        ∀ c w, (s.phase q).request = some (c, w) → b.stats = w.stats)) :
    CondInv docs { s with phase } := by
  refine ⟨h.view, h.buffered, h.batch, h.nodup, ?_, ?_, hreads, ?_, ?_, ?_⟩
  · intro q
    rw [hrequest]
    exact h.mem_order q
  · simp only [hrequest]
    exact h.serial
  · intro wt hwt
    rw [hrequest]
    exact h.waiters wt hwt
  · intro q b hb
    rcases hanswer q b hb with hold | hnew
    · exact h.answers q b hold
    · exact hnew.1
  · intro q c w b hq hb
    rw [hrequest] at hq
    rcases hanswer q b hb with hold | hnew
    · exact h.stats q c w b hq hold
    · exact hnew.2 c w hq

/-- The buffer may lose waiters and its timer. -/
theorem setBuffer {buffer : BufferState R}
    (hentry : buffer.entry = s.buffer.entry) (hwaiters : buffer.waiters ⊆ s.buffer.waiters) :
    CondInv docs { s with buffer } := by
  refine ⟨h.view, hentry.trans h.buffered, h.batch, h.nodup, h.mem_order, h.serial, h.reads, ?_,
    h.answers, h.stats⟩
  intro wt hwt
  refine h.waiters wt ?_
  rcases mem_append.mp hwt with hwt | hwt
  · exact mem_append_left _ (hwaiters hwt)
  · exact mem_append_right _ hwt

theorem drain (hflight : s.inFlight = none)
    (hkeep : KeepsOrder (s.queued.map WriteRequest.entry))
    (hspared : ∀ q, ∀ id ∈ (s.phase q).snapshotIds, id ∉ s.buffer.entry.ids) :
    CondInv docs
      { s with
        buffer := {}
        inFlight := some ⟨s.buffer.toPending, s.buffer.waiters, s.queued⟩
        queued := [] } := by
  have hserial : applyWrites (replay s.world.log) (s.queued ++ []) = s.serialDocs := by
    rw [append_nil, serialDocs, flightWrites, hflight]
    rfl
  refine ⟨h.view, rfl, ?_, h.nodup, h.mem_order, ?_, ?_, ?_, h.answers, h.stats⟩
  · rintro _ ⟨⟩
    exact ⟨h.buffered, hkeep⟩
  · exact h.serial.trans (congrArg some hserial.symm)
  · intro q
    have hq := h.reads q
    have hsp := hspared q
    change (s.phase q).Reads (applyWrites (replay s.world.log) (s.queued ++ [])) []
    rw [hserial]
    cases hp : s.phase q with
    | snapshot c ds =>
      rw [hp] at hq hsp
      intro id hid
      rw [← hq id hid, h.lookup_queued (hsp id hid)]
      rfl
    | evaluated c ds =>
      rw [hp] at hq
      exact hq
    | idle | started _ | found _ | accepted _ _ _ | published _ _ _ | failed _ => trivial
  · intro wt hwt
    refine h.waiters wt ?_
    exact mem_append_left _ hwt

/-- The batch in flight becomes part of the log. -/
theorem commit {b : InFlight R} (hflight : s.inFlight = some b) {w : World}
    (hext : s.world.Extends w) (hlog : w.log = s.world.log ++ [b.pending.entry]) :
    CondInv docs { s with world := w, inFlight := none } := by
  obtain ⟨hentry, hkeep⟩ := h.batch b hflight
  have hserial : applyWrites (replay w.log) ([] ++ s.queued) = s.serialDocs := by
    rw [hlog, replay_concat, hentry, (applyEntry_concat_eq_iff _ _).mpr hkeep, serialDocs,
      flightWrites, hflight]
    exact (applyWrites_append _ _ _).symm
  refine ⟨fun v hv => (h.view v hv).mono hext.1, h.buffered, (fun _ hb => nomatch hb), h.nodup,
    h.mem_order, h.serial.trans (congrArg some hserial.symm), ?_, ?_, ?_, h.stats⟩
  · intro q
    change (s.phase q).Reads (applyWrites (replay w.log) ([] ++ s.queued)) s.queued
    rw [hserial]
    exact h.reads q
  · intro wt hwt
    refine h.waiters wt ?_
    rcases mem_append.mp hwt with hwt | hwt
    · exact mem_append_left _ hwt
    · cases hwt
  · intro q b' hb'
    rcases h.answers q b' hb' with hsome | hzero
    · exact .inl (hlog ▸ entryAt_append_of_some hsome [b.pending.entry])
    · exact .inr hzero

end

variable [DecidableEq R]

/-- A request moves on, with what it handed over and its answer. -/
theorem setPhase (h : CondInv docs s) {r : R} {p : CondPhase}
    (hrequest : p.request = (s.phase r).request)
    (hanswer : ∀ b, p.answer = some b → (s.phase r).answer = some b)
    (hreads : p.Reads s.serialDocs s.queued) : CondInv docs (s.setPhase r p) := by
  refine h.setPhases ?_ ?_ fun q b hb => .inl ?_
  · exact (forall_update_iff s.phase fun q p => p.request = (s.phase q).request).mpr
      ⟨hrequest, fun _ _ => rfl⟩
  · exact (forall_update_iff s.phase fun _ p => p.Reads s.serialDocs s.queued).mpr
      ⟨hreads, fun q _ => h.reads q⟩
  · exact (forall_update_iff s.phase fun q p => ∀ b, p.answer = some b →
      (s.phase q).answer = some b).mpr ⟨hanswer, fun _ _ _ => id⟩ q b hb

theorem deliver (h : CondInv docs s) {ws : List (WriteWaiter R)} {seq : Nat} {e : WalEntry}
    (hws : ∀ wt ∈ ws, ∃ c w, (s.phase wt.tx).request = some (c, w) ∧ wt.stats = w.stats)
    (hentry : entryAt s.world.log seq = some e ∨ (seq = 0 ∧ e = {})) :
    CondInv docs (s.deliver ws seq e) := by
  have hdeliver : ∀ (b : CommittedBatch) (p : CondPhase), (p.deliver b).request = p.request ∧
      (∀ d q, p.Reads d q → (p.deliver b).Reads d q) ∧
      ∀ b', (p.deliver b).answer = some b' → p.answer = some b' ∨ b' = b := by
    intro b p
    cases p with
    | accepted c w answer =>
      cases answer with
      | none => exact ⟨rfl, fun _ _ hp => hp, fun b' hb' => .inr (Option.some.inj hb').symm⟩
      | some old => exact ⟨rfl, fun _ _ hp => hp, fun b' hb' => .inl hb'⟩
    | idle | started _ | found _ | snapshot _ _ | evaluated _ _ | published _ _ _ | failed _ =>
      exact ⟨rfl, fun _ _ hp => hp, fun b' hb' => .inl hb'⟩
  refine h.setPhases ?_ ?_ ?_
  · intro q
    split
    · exact (hdeliver _ _).1
    · rfl
  · intro q
    split
    · exact (hdeliver _ _).2.1 _ _ (h.reads q)
    · exact h.reads q
  · intro q b hb
    split at hb
    · rename_i wt hfind
      rcases (hdeliver _ _).2.2 b hb with hold | rfl
      · exact .inl hold
      · refine .inr ⟨hentry, ?_⟩
        intro c w hq
        obtain ⟨c', w', hreq, hstats⟩ := hws wt (mem_of_find?_eq_some hfind)
        have htx : wt.tx = q := by
          have hfound := find?_some hfind
          exact of_decide_eq_true hfound
        rw [htx, hq] at hreq
        cases hreq
        exact hstats
    · exact .inl hb

section Accept

variable {r : R} {w : WriteRequest}

theorem request_accept (q : R) : (update s.phase r (.accepted c w none) q).request
    = if q = r then some (c, w) else (s.phase q).request := by
  rw [update_apply]
  split <;> rfl

theorem answer_accept {q : R} {b : CommittedBatch}
    (hb : (update s.phase r (.accepted c w none) q).answer = some b) :
    q ≠ r ∧ (s.phase q).answer = some b := by
  rw [update_apply] at hb
  split at hb
  · cases hb
  · rename_i hq
    exact ⟨hq, hb⟩

/-- A request that enters the buffer is the next one in the serial order. -/
theorem serial_accept (h : CondInv docs s) (hnew : r ∉ s.order)
    (happlied : c.applied s.serialDocs = .ok w) :
    serialRun docs ((s.order ++ [r]).filterMap fun q =>
      (update s.phase r (.accepted c w none) q).request)
        = some (applyEntry s.serialDocs w.entry) := by
  have hold : s.order.filterMap (fun q => (update s.phase r (.accepted c w none) q).request)
      = s.order.filterMap fun q => (s.phase q).request := by
    refine filterMap_congr fun q hq => ?_
    rw [request_accept, if_neg (ne_of_mem_of_not_mem hq hnew)]
  have hlast : [r].filterMap (fun q => (update s.phase r (.accepted c w none) q).request)
      = [(c, w)] := by
    simp [request_accept]
  rw [filterMap_append, hold, hlast]
  exact serialRun_concat _ h.serial happlied

theorem waiters_accept (h : CondInv docs s) (hnew : (s.phase r).request = none)
    {wt : WriteWaiter R} (hwt : wt ∈ s.allWaiters ∨ wt = ⟨w.stats, r⟩) :
    ∃ c' w', (update s.phase r (.accepted c w none) wt.tx).request = some (c', w') ∧
      wt.stats = w'.stats := by
  rw [request_accept]
  rcases hwt with hold | rfl
  · obtain ⟨c', w', hreq, hstats⟩ := h.waiters wt hold
    have hne : wt.tx ≠ r := by
      rintro rfl
      rw [hnew] at hreq
      cases hreq
    exact ⟨c', w', by rw [if_neg hne, hreq], hstats⟩
  · exact ⟨c, w, if_pos rfl, rfl⟩

theorem enqueue (h : CondInv docs s) (cfg : WriteBufferConfig) {ds : DocMap}
    (hphase : s.phase r = .evaluated c ds) (happlied : c.applied ds = .ok w)
    (hspared : ∀ q, q ≠ r → ∀ id ∈ (s.phase q).reliedIds, id ∉ c.ids) :
    CondInv docs ({ s with
      buffer := (s.buffer.enqueue cfg r w).1
      queued := s.queued ++ [w]
      order := s.order ++ [r] }.setPhase r (.accepted c w none)) := by
  have hserial : applyWrites (replay s.world.log) (s.flightWrites ++ (s.queued ++ [w]))
      = applyEntry s.serialDocs w.entry := by
    rw [← append_assoc, applyWrites_append]
    rfl
  have hreads := h.reads r
  rw [hphase] at hreads
  have hnone : (s.phase r).request = none := by
    rw [hphase]
    rfl
  have hnew : r ∉ s.order := by
    rw [h.mem_order, hnone]
    exact Bool.false_ne_true
  refine ⟨h.view, ?_, h.batch, ?_, ?_, ?_, ?_, ?_, ?_, ?_⟩
  · change (s.buffer.enqueue cfg r w).1.entry = _
    rw [BufferState.enqueue_entry, h.buffered]
    simp [CondState.setPhase, WalEntry.concat]
  · exact nodup_append.mpr ⟨h.nodup, nodup_singleton r, fun a ha b hb =>
      fun hab => hnew (mem_singleton.mp hb ▸ hab ▸ ha)⟩
  · intro q
    change q ∈ s.order ++ [r] ↔ (update s.phase r _ q).request.isSome
    rw [request_accept, mem_append, mem_singleton, h.mem_order]
    by_cases hq : q = r <;> simp [hq]
  · exact (h.serial_accept hnew ((applied_congr hreads).symm.trans happlied)).trans
      (congrArg some hserial.symm)
  · intro q
    change (update s.phase r (.accepted c w none) q).Reads
      (applyWrites (replay s.world.log) (s.flightWrites ++ (s.queued ++ [w]))) (s.queued ++ [w])
    rw [hserial]
    by_cases hq : q = r
    · rw [hq, update_self]
      trivial
    · rw [update_of_ne hq]
      exact (h.reads q).enqueue fun id hid hmem => hspared q hq id hid (applied_ids happlied hmem)
  · intro wt hwt
    refine h.waiters_accept hnone ?_
    rcases mem_append.mp hwt with hbuf | hfl
    · exact (mem_enqueue_waiters hbuf).imp_left (mem_append_left _)
    · exact .inl (mem_append_right _ hfl)
  · exact fun q b hb => h.answers q b (answer_accept hb).2
  · intro q c' w' b hq hb
    obtain ⟨hne, hb⟩ := answer_accept hb
    change (update s.phase r _ q).request = _ at hq
    rw [request_accept, if_neg hne] at hq
    exact h.stats q c' w' b hq hb

end Accept

/-! ## Runs -/

/-- A request takes the committed documents. -/
theorem load (h : CondInv docs s) {r : R} {v : NamespaceView} (hphase : s.phase r = .found c)
    (hdocs : v.docs = replay s.world.log) (htrack : v.Tracks s.world.log)
    (hquiet : ∀ id ∈ c.watched, id ∉ s.flightIds) :
    CondInv docs ({ s with view := some v }.setPhase r (.snapshot c v.docs)) := by
  have hold : (s.phase r).request = none := by rw [hphase]; rfl
  have hview : CondInv docs { s with view := some v } :=
    h.setView (by rintro _ ⟨⟩; exact htrack)
  refine hview.setPhase hold.symm nofun ?_
  intro id hid
  rw [hdocs]
  exact (h.lookup_serialDocs (hquiet id hid)).symm

/-- A flush that found nothing answers the waiters of an empty buffer. -/
theorem release (h : CondInv docs s) :
    CondInv docs ({ s with buffer := s.buffer.drainWaiters.1 }.deliver
      s.buffer.drainWaiters.2 0 {}) := by
  have hold : ∀ wt ∈ s.buffer.waiters, ∃ c w, (s.phase wt.tx).request = some (c, w) ∧
      wt.stats = w.stats := fun wt hwt => h.waiters wt (mem_append_left _ hwt)
  by_cases hempty : s.buffer.isEmpty
  · simp only [drainWaiters, if_pos hempty]
    have hbuf : CondInv docs
        { s with buffer := { s.buffer with timer := none, waiters := [] } } :=
      h.setBuffer rfl (nil_subset _)
    exact hbuf.deliver hold (.inr ⟨rfl, rfl⟩)
  · simp only [drainWaiters, if_neg hempty]
    have hbuf : CondInv docs { s with buffer := { s.buffer with timer := none } } :=
      h.setBuffer rfl (Subset.refl _)
    exact hbuf.deliver (forall_mem_nil _) (.inr ⟨rfl, rfl⟩)

section Actions

variable {cfg : WriteBufferConfig} {s' : CondState R} {r : R} (h : CondInv docs s)

include h

theorem step_start {c : ConditionalWrite}
    (hstep : s.step cfg (.start r c) = some s') : CondInv docs s' := by
  simp only [CondState.step] at hstep
  split at hstep
  · rename_i hphase
    cases hstep
    have hold : (s.phase r).request = none := by rw [hphase]; rfl
    split
    · rename_i hun
      refine h.setPhase hold.symm (fun _ h => by cases h) ?_
      intro id hid
      simp only [ConditionalWrite.unconditional, Bool.and_eq_true, Option.isNone_iff_eq_none]
        at hun
      simp [ConditionalWrite.watched, hun.1.1, hun.1.2, hun.2] at hid
    · exact h.setPhase hold.symm (fun _ h => by cases h) trivial
  · cases hstep

theorem step_existence {found : Bool} (hquiet : s.Undisturbed (.existence r found))
    (hstep : s.step cfg (.existence r found) = some s') : CondInv docs s' := by
  simp only [CondState.step] at hstep
  split at hstep
  · rename_i c hphase
    have hold : (s.phase r).request = none := by rw [hphase]; rfl
    cases found with
    | true =>
      simp only [if_true] at hstep
      split at hstep
      · cases hstep
        exact h.setPhase hold.symm (fun _ h => by cases h) trivial
      · cases hstep
    | false =>
      simp only [Bool.false_eq_true, if_false] at hstep
      split at hstep
      · rename_i habsent
        cases hstep
        refine h.setPhase hold.symm (fun _ h => by cases h) (h.reads_absent habsent ?_)
        simpa only [CondState.Undisturbed, hphase, CondPhase.wantedIds] using hquiet
      · cases hstep
  · cases hstep

theorem step_load {diskCache : Bool} (hquiet : s.Undisturbed (.load r diskCache))
    (hstep : s.step cfg (.load r diskCache) = some s') : CondInv docs s' := by
  simp only [CondState.step] at hstep
  split at hstep
  · rename_i c hphase
    obtain ⟨v, hload, hdocs, htrack⟩ := loadViewSnapshot_eq diskCache h.view
    rw [hload] at hstep
    cases hstep
    refine h.load hphase hdocs htrack ?_
    simpa only [CondState.Undisturbed, hphase, CondPhase.wantedIds] using hquiet
  · cases hstep

theorem step_overlay (hquiet : s.Undisturbed (.overlay r))
    (hstep : s.step cfg (.overlay r) = some s') : CondInv docs s' := by
  simp only [CondState.step] at hstep
  split at hstep
  · rename_i c ds hphase
    cases hstep
    have hold : (s.phase r).request = none := by rw [hphase]; rfl
    refine h.setPhase hold.symm (fun _ h => by cases h) ?_
    have hreads := h.reads r
    rw [hphase] at hreads
    intro id hid
    rw [overlayPendingWrites_eq h.buffered hquiet]
    exact hreads id hid
  · cases hstep

theorem step_enqueue (hquiet : s.Undisturbed (.enqueue r))
    (hstep : s.step cfg (.enqueue r) = some s') : CondInv docs s' := by
  simp only [CondState.step] at hstep
  split at hstep
  · rename_i c ds hphase
    split at hstep
    · rename_i w happlied
      cases hstep
      refine h.enqueue cfg hphase happlied ?_
      simpa only [CondState.Undisturbed, hphase, CondPhase.rowIds] using hquiet
    · cases hstep
      exact h.setPhase (by rw [hphase]; rfl) (fun _ h => by cases h) trivial
  · cases hstep

theorem step_drain (hquiet : s.Undisturbed .drain)
    (hstep : s.step cfg .drain = some s') : CondInv docs s' := by
  simp only [CondState.step] at hstep
  split at hstep
  · rename_i buffer pending waiters hflight hdrain
    cases hstep
    simp only [BufferState.drain] at hdrain
    split at hdrain
    · cases hdrain
    · cases hdrain
      exact h.drain hflight hquiet.1 hquiet.2
  · cases hstep

theorem step_release (hstep : s.step cfg .release = some s') : CondInv docs s' := by
  simp only [CondState.step] at hstep
  split at hstep
  · rename_i buffer waiters hflight hdrain
    cases hstep
    have hreleased := h.release
    rw [hdrain] at hreleased
    exact hreleased
  · cases hstep

theorem step_commit {w : World} (hstep : s.step cfg (.commit w) = some s') : CondInv docs s' := by
  simp only [CondState.step] at hstep
  split at hstep
  · rename_i b hflight
    split at hstep
    · rename_i hmoved
      cases hstep
      refine (h.commit hflight hmoved.1 hmoved.2).deliver ?_ ?_
      · intro wt hwt
        refine h.waiters wt (mem_append_right _ ?_)
        rw [hflight]
        exact hwt
      · refine .inl ?_
        rw [hmoved.2, length_append]
        exact entryAt_concat _ _
    · cases hstep
  · cases hstep

theorem step_publish {refreshed : Bool} (hquiet : s.Undisturbed (.publish r refreshed))
    (hstep : s.step cfg (.publish r refreshed) = some s') : CondInv docs s' := by
  simp only [CondState.step] at hstep
  split at hstep
  · rename_i c w b hphase
    cases hstep
    have hanswer : (s.phase r).answer = some b := by rw [hphase]; rfl
    have hview := h.setView (publishedView_tracks refreshed h.view (h.answers r b hanswer)
      (hquiet b hanswer))
    refine hview.setPhase ?_ ?_ trivial
    · exact (congrArg CondPhase.request hphase).symm
    · exact fun _ hb => hanswer.trans hb
  · cases hstep

theorem step {a : CondAction R} (hquiet : s.Undisturbed a)
    (hstep : (conditional R cfg).step s a = some s') : CondInv docs s' := by
  change s.step cfg a = some s' at hstep
  cases a with
  | start => exact h.step_start hstep
  | existence => exact h.step_existence hquiet hstep
  | load => exact h.step_load hquiet hstep
  | overlay => exact h.step_overlay hquiet hstep
  | enqueue => exact h.step_enqueue hquiet hstep
  | drain => exact h.step_drain hquiet hstep
  | release => exact h.step_release hstep
  | commit => exact h.step_commit hstep
  | publish => exact h.step_publish hquiet hstep

end Actions

end CondInv

/-- In a run of undisturbed steps the requests can be put in an order that
explains them. -/
theorem conditional_writes_linearizable {R : Type} [DecidableEq R] (cfg : WriteBufferConfig)
    {w : World} {view : Option NamespaceView} (hview : ∀ v, view = some v → v.Tracks w.log)
    {as : List (CondAction R)} {s : CondState R}
    (hquiet : (conditional R cfg).Along CondState.Undisturbed (.start w view) as)
    (hv : (conditional R cfg).Visits (.start w view) as s) :
    s.Linearizable (replay w.log) := by
  have hstep : ∀ (s : CondState R) a s', CondInv (replay w.log) s → s.Undisturbed a →
      (conditional R cfg).step s a = some s' → CondInv (replay w.log) s' :=
    fun _ _ _ hI hG hs => hI.step hG hs
  exact (Machine.visits_invariant hstep (CondInv.start hview) hquiet hv).linearizable

/-! ## Insert if absent -/

/-- An upsert that is to be applied only if the id is new. -/
def insertIfAbsent (id : String) : ConditionalWrite where
  upserts := [⟨id, ∅⟩]
  upsertCondition := some (.arr [.str "id", .str "Eq", .null])

/-- The request is applied. -/
def inserted (id : String) : WriteRequest where
  upserts := [⟨id, ∅⟩]
  stats := { rowsUpserted := 1 }

/-- The second request starts after the first was committed. -/
def insertsApart : List (CondAction (Fin 2)) :=
  [.start 0 (insertIfAbsent "x"), .existence 0 false, .enqueue 0, .drain,
    .commit (.ofLog [oneDoc "x"] (by decide)), .publish 0 true,
    .start 1 (insertIfAbsent "x"), .existence 1 true, .load 1 false, .overlay 1, .enqueue 1,
    .release, .publish 1 true]

theorem insertsApart_linearizable :
    ∃ s, (conditional (Fin 2) {}).run (.start (.ofLog [] (by decide)) none) insertsApart = some s ∧
      (s.phase 0).answer.map (fun b => b.stats.rowsUpserted) = some 1 ∧
      (s.phase 1).answer.map (fun b => b.stats.rowsUpserted) = some 0 ∧
      s.Linearizable (replay []) := by
  obtain ⟨s, hs, h0, h1⟩ : ∃ s,
      (conditional (Fin 2) {}).run (.start (.ofLog [] (by decide)) none) insertsApart = some s ∧
        (s.phase 0).answer.map (fun b => b.stats.rowsUpserted) = some 1 ∧
        (s.phase 1).answer.map (fun b => b.stats.rowsUpserted) = some 0 := by
    decide +kernel
  refine ⟨s, hs, h0, h1, ?_⟩
  refine conditional_writes_linearizable {} (w := .ofLog [] (by decide)) ?_ ?_
    (Machine.visits_end hs)
  · rintro v ⟨⟩
  · decide +kernel

/-- The first request waits in the buffer, and the namespace does not exist yet. -/
def insertsOverlap : List (CondAction (Fin 2)) :=
  [.start 0 (insertIfAbsent "x"), .existence 0 false, .enqueue 0,
    .start 1 (insertIfAbsent "x"), .existence 1 false, .enqueue 1, .drain,
    .commit (.ofLog [{ upserts := [⟨"x", ∅⟩, ⟨"x", ∅⟩] }] (by decide))]

/-- Both requests report that they created the document. -/
theorem insertsOverlap_not_linearizable :
    ∃ s, (conditional (Fin 2) {}).run (.start (.ofLog [] (by decide)) none) insertsOverlap
        = some s ∧
      (∀ r, (s.phase r).answer.map (fun b => b.stats.rowsUpserted) = some 1) ∧
      ¬ s.Linearizable (replay []) := by
  obtain ⟨s, hs, hphase⟩ : ∃ s,
      (conditional (Fin 2) {}).run (.start (.ofLog [] (by decide)) none) insertsOverlap = some s ∧
        ∀ r, (s.phase r).request = some (insertIfAbsent "x", inserted "x") ∧
          (s.phase r).answer.map (fun b => b.stats.rowsUpserted) = some 1 := by
    decide +kernel
  refine ⟨s, hs, fun r => (hphase r).2, ?_⟩
  rintro ⟨order, -, hmem, ⟨final, hrun, -⟩, -⟩
  have hall : ∀ r, r ∈ order := fun r => (hmem r).mpr (by rw [(hphase r).1]; rfl)
  simp only [(hphase _).1] at hrun
  match order with
  | [] => exact absurd (hall 0) not_mem_nil
  | [r] =>
    have h01 : (0 : Fin 2) = 1 :=
      (mem_singleton.mp (hall 0)).trans (mem_singleton.mp (hall 1)).symm
    exact absurd h01 (by decide)
  | r :: q :: rest =>
    cases hrun

end OpenPuffer
