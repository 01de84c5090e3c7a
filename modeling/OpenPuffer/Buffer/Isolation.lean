import OpenPuffer.Buffer.Acknowledge

/-!
# Writes that share a batch

The writes of a batch share one schema patch, one metric and one answer.  A write that would
be committed alone can fail in two ways: it is refused because of a patch queued before it, or
the batch does not fit the stored metadata because of another write.  `Compatible` says on the
requests when neither happens (`failures_isolated_iff`).
-/

namespace OpenPuffer

open List

/-! ## The schema patches of some writes -/

/-- `mergeSchema` without its check. -/
def overlaySchema (existing patch : Json) : Json :=
  match patch.asObject with
  | none => existing
  | some fields => .obj (overlayFields (existing.asObject.getD []) fields)

theorem overlaySchema_of_mergeSchema {existing patch merged : Json}
    (h : mergeSchema existing patch = .ok merged) : merged = overlaySchema existing patch := by
  rw [mergeSchema] at h
  rw [overlaySchema]
  cases hobject : patch.asObject with
  | none =>
    rw [hobject] at h
    exact (Except.ok.inj h).symm
  | some fields =>
    rw [hobject] at h
    dsimp only at h ⊢
    split at h
    · cases h
    · exact (Except.ok.inj h).symm

/-- The schema patches of some writes, laid over one another. -/
def mergedPatch (ws : List WriteRequest) : Option Json :=
  match ws.filterMap WriteRequest.schemaPatch with
  | [] => none
  | patch :: patches => some (patches.foldl overlaySchema patch)

/-- The patch of a write does not fit those of the writes before it. -/
def refused (before : List WriteRequest) (w : WriteRequest) : Bool :=
  match mergedPatch before, w.schemaPatch with
  | some existing, some patch => !(mergeSchema existing patch).isOk
  | _, _ => false

def lastMetric (ws : List WriteRequest) : Option DistanceMetric :=
  ws.foldl (fun metric w => w.distanceMetric.or metric) none

/-- The writes that are not refused, and those of them that come after the last refused
one. -/
def queueNext (q : List WriteRequest × List WriteRequest) (w : WriteRequest) :
    List WriteRequest × List WriteRequest :=
  if refused q.2 w then (q.1, []) else (q.1 ++ [w], q.2 ++ [w])

/-- The writes of a batch that are not refused. -/
def accepted (ws : List WriteRequest) : List WriteRequest := (ws.foldl queueNext ([], [])).1

/-- The writes of a batch whose patches are merged. -/
def merging (ws : List WriteRequest) : List WriteRequest := (ws.foldl queueNext ([], [])).2

theorem mergedPatch_concat (ws : List WriteRequest) (w : WriteRequest) :
    mergedPatch (ws ++ [w]) =
      match w.schemaPatch with
      | none => mergedPatch ws
      | some patch => some ((mergedPatch ws).elim patch (overlaySchema · patch)) := by
  rw [mergedPatch, mergedPatch, filterMap_append]
  cases hpatch : w.schemaPatch with
  | none => simp [hpatch]
  | some patch =>
    cases ws.filterMap WriteRequest.schemaPatch with
    | nil => simp [hpatch]
    | cons first rest => simp [hpatch]

theorem lastMetric_concat (ws : List WriteRequest) (w : WriteRequest) :
    lastMetric (ws ++ [w]) = w.distanceMetric.or (lastMetric ws) := by
  rw [lastMetric, foldl_append]
  rfl

/-! ## The slots of the buffer -/

theorem mergeSlot_mergedPatch (before : List WriteRequest) (w : WriteRequest) :
    (refused before w = true ∧
      ∃ msg, mergeSlot (mergedPatch before) w.schemaPatch = (none, .error msg)) ∨
    (refused before w = false ∧
      mergeSlot (mergedPatch before) w.schemaPatch = (mergedPatch (before ++ [w]), .ok ())) := by
  rw [refused, mergedPatch_concat]
  cases w.schemaPatch with
  | none =>
    refine .inr ⟨?_, rfl⟩
    cases mergedPatch before <;> rfl
  | some patch =>
    cases mergedPatch before with
    | none => exact .inr ⟨rfl, rfl⟩
    | some existing =>
      simp only [mergeSlot]
      cases hmerge : mergeSchema existing patch with
      | error msg => exact .inl ⟨rfl, msg, rfl⟩
      | ok merged =>
        refine .inr ⟨rfl, ?_⟩
        rw [overlaySchema_of_mergeSchema hmerge]
        rfl

/-- The slots of the buffer hold the patches and the metric of some writes. -/
structure Pending.Collects (p : Pending) (q : List WriteRequest × List WriteRequest) : Prop where
  patch : p.schemaPatch = mergedPatch q.2
  metric : p.distanceMetric = lastMetric q.1

/-- A write is refused exactly if its patch does not fit. -/
theorem Pending.Collects.add {p : Pending} {q : List WriteRequest × List WriteRequest}
    (h : p.Collects q) (w : WriteRequest) :
    (p.add w).1.Collects (queueNext q w) ∧ ((p.add w).2.isOk = true ↔ refused q.2 w = false) := by
  rw [Pending.add, queueNext, h.patch]
  rcases mergeSlot_mergedPatch q.2 w with ⟨hrefused, msg, hslot⟩ | ⟨hfits, hslot⟩
  · rw [hslot, hrefused]
    exact ⟨⟨rfl, h.metric⟩, iff_of_false Bool.false_ne_true Bool.false_ne_true.symm⟩
  · rw [hslot, hfits]
    refine ⟨⟨rfl, ?_⟩, iff_of_true rfl rfl⟩
    exact (congrArg w.distanceMetric.or h.metric).trans (lastMetric_concat q.1 w).symm

namespace BufferState

variable {W : Type}

theorem collects_enqueue (cfg : WriteBufferConfig) {st : BufferState W}
    {q : List WriteRequest × List WriteRequest} (h : st.toPending.Collects q) (tx : W)
    (w : WriteRequest) :
    (st.enqueue cfg tx w).1.toPending.Collects (queueNext q w) ∧
      ((st.enqueue cfg tx w).2.isOk = true ↔ refused q.2 w = false) := by
  obtain ⟨hcollects, hok⟩ := h.add w
  rw [enqueue]
  split
  · rename_i pending msg hadd
    rw [hadd] at hcollects hok
    exact ⟨hcollects, hok⟩
  · rename_i pending hadd
    rw [hadd] at hcollects hok
    exact ⟨hcollects, hok⟩

/-- The slots after writes that reach an empty buffer. -/
theorem collects_enqueueAll (cfg : WriteBufferConfig) (ws : List (W × WriteRequest)) :
    (enqueueAll cfg ({} : BufferState W) ws).toPending.Collects
      ((ws.map Prod.snd).foldl queueNext ([], [])) := by
  induction ws using reverseRecOn with
  | nil => exact ⟨rfl, rfl⟩
  | append_singleton ws w ih =>
    rw [enqueueAll, foldl_append, map_append, foldl_append]
    exact (collects_enqueue cfg ih w.1 w.2).1

end BufferState

/-! ## Answers -/

/-- The write fits the stored metadata on its own. -/
def WriteRequest.CommitsAlone (m : NamespaceMeta) (w : WriteRequest) : Prop :=
  (patchedSchema m w.schemaPatch).isOk ∧ (resolveDistanceMetric m w.distanceMetric).isOk

instance (m : NamespaceMeta) (w : WriteRequest) : Decidable (w.CommitsAlone m) :=
  inferInstanceAs (Decidable (_ ∧ _))

namespace BufferState

variable {W : Type}

/-- What a flush sends to the waiters of a buffer, with no faults of the storage. -/
def flushAnswer (m : NamespaceMeta) (st : BufferState W) (stats : WriteStats) :
    Except String CommittedBatch :=
  match st.drain.2 with
  | none => .ok ⟨0, {}, stats⟩
  | some (pending, _) => do
    let _ ← metaAfterWalCommitOptions m (nextWalSeq m) pending.schemaPatch pending.distanceMetric
    .ok ⟨nextWalSeq m, pending.entry, stats⟩

/-- The answer to a write in a batch, between the writes `pre` and `post`. -/
def batchAnswer (cfg : WriteBufferConfig) (m : NamespaceMeta) (pre : List (W × WriteRequest))
    (w : W × WriteRequest) (post : List (W × WriteRequest)) : Except String CommittedBatch :=
  match ((enqueueAll cfg {} pre).enqueue cfg w.1 w.2).2 with
  | .error msg => .error msg
  | .ok _ => (enqueueAll cfg {} (pre ++ w :: post)).flushAnswer m w.2.stats

theorem isOk_commit_iff (m : NamespaceMeta) (patch : Option Json)
    (metric : Option DistanceMetric) :
    (metaAfterWalCommitOptions m (nextWalSeq m) patch metric).isOk = true ↔
      (patchedSchema m patch).isOk = true ∧ (resolveDistanceMetric m metric).isOk = true := by
  rw [metaAfterWalCommitOptions, nextWalSeq, if_neg (not_not.mpr rfl)]
  cases patchedSchema m patch with
  | error msg => exact iff_of_false nofun fun h => nomatch h.1
  | ok schema =>
    cases resolveDistanceMetric m metric with
    | error msg => exact iff_of_false nofun fun h => nomatch h.2
    | ok resolved => exact iff_of_true rfl ⟨rfl, rfl⟩

/-- A flush succeeds exactly if what the buffer holds fits the metadata. -/
theorem isOk_flushAnswer_iff (m : NamespaceMeta) (st : BufferState W) (stats : WriteStats) :
    (st.flushAnswer m stats).isOk = true ↔
      (patchedSchema m st.schemaPatch).isOk = true ∧
        (resolveDistanceMetric m st.distanceMetric).isOk = true := by
  rw [flushAnswer, drain]
  by_cases hempty : st.isEmpty = true
  · rw [if_pos hempty, Pending.isEmpty_iff.mp hempty]
    exact iff_of_true rfl ⟨rfl, rfl⟩
  · rw [if_neg hempty, ← isOk_commit_iff]
    simp only
    cases metaAfterWalCommitOptions m (nextWalSeq m) st.schemaPatch st.distanceMetric <;> rfl

/-- An answer is `Ok` exactly if the write is not refused and the batch fits. -/
theorem isOk_batchAnswer_iff (cfg : WriteBufferConfig) (m : NamespaceMeta)
    (pre : List (W × WriteRequest)) (w : W × WriteRequest) (post : List (W × WriteRequest)) :
    (batchAnswer cfg m pre w post).isOk = true ↔
      refused (merging (pre.map Prod.snd)) w.2 = false ∧
      (patchedSchema m (mergedPatch (merging ((pre ++ w :: post).map Prod.snd)))).isOk = true ∧
      (resolveDistanceMetric m
        (lastMetric (accepted ((pre ++ w :: post).map Prod.snd)))).isOk = true := by
  have hqueued := (collects_enqueue cfg (collects_enqueueAll cfg pre) w.1 w.2).2
  have hall := collects_enqueueAll cfg (pre ++ w :: post)
  rw [merging, ← hqueued, merging, ← hall.patch, accepted, ← hall.metric, batchAnswer,
    ← isOk_flushAnswer_iff m _ w.2.stats]
  cases ((enqueueAll cfg {} pre).enqueue cfg w.1 w.2).2 with
  | error msg => exact iff_of_false nofun fun h => nomatch h.1
  | ok next => exact (and_iff_right rfl).symm

end BufferState

/-! ## Compatible writes -/

/-- The writes of a batch do not disturb one another: no write that would be committed
alone is refused, the patches since the last refused write fit the stored schema, and
the last metric asked for is the stored one. -/
structure Compatible (m : NamespaceMeta) (ws : List WriteRequest) : Prop where
  accepts : ∀ pre w post, ws = pre ++ w :: post → w.CommitsAlone m →
    refused (merging pre) w = false
  schema : (patchedSchema m (mergedPatch (merging ws))).isOk = true
  metric : (resolveDistanceMetric m (lastMetric (accepted ws))).isOk = true

/-- No write of a batch that would be committed alone fails, exactly if the writes are
compatible or none of them would be committed alone. -/
theorem failures_isolated_iff {W : Type} (cfg : WriteBufferConfig) (m : NamespaceMeta)
    (ws : List (W × WriteRequest)) :
    (∀ pre w post, ws = pre ++ w :: post → w.2.CommitsAlone m →
      (BufferState.batchAnswer cfg m pre w post).isOk = true) ↔
    ((∃ w ∈ ws, w.2.CommitsAlone m) → Compatible m (ws.map Prod.snd)) := by
  constructor
  · rintro h ⟨w, hw, halone⟩
    obtain ⟨pre, post, hsplit⟩ := append_of_mem hw
    obtain ⟨-, hschema, hmetric⟩ :=
      (BufferState.isOk_batchAnswer_iff cfg m pre w post).mp (h pre w post hsplit halone)
    rw [← hsplit] at hschema hmetric
    refine ⟨?_, hschema, hmetric⟩
    intro pre' r post' hsplit' halone'
    obtain ⟨pre₁, rest, rfl, rfl, hrest⟩ := map_eq_append_iff.mp hsplit'
    obtain ⟨w₁, post₁, rfl, rfl, rfl⟩ := map_eq_cons_iff.mp hrest
    exact ((BufferState.isOk_batchAnswer_iff cfg m pre₁ w₁ post₁).mp
      (h pre₁ w₁ post₁ rfl halone')).1
  · rintro h pre w post rfl halone
    obtain ⟨haccepts, hschema, hmetric⟩ := h ⟨w, mem_append_cons_self, halone⟩
    refine (BufferState.isOk_batchAnswer_iff cfg m pre w post).mpr ⟨?_, hschema, hmetric⟩
    refine haccepts _ w.2 (post.map Prod.snd) ?_ halone
    rw [map_append, map_cons]

/-- Metadata of a namespace with a commit, which uses the cosine. -/
def committedMeta : NamespaceMeta := { walCommitSeq := 1, distanceMetric := .cosineDistance }

/-- A row fails with the batch because another write asks for the other metric, and a
vector column is refused because another write declares two others. -/
theorem bystander_fails :
    (let row : WriteRequest := { upserts := [⟨"x", ∅⟩] }
      let other : WriteRequest := { distanceMetric := some .euclideanSquared }
      row.CommitsAlone committedMeta ∧
        BufferState.batchAnswer {} committedMeta [] ((0 : Fin 2), row) [(1, other)]
          = .error
            "distance_metric euclidean_squared conflicts with namespace cosine_distance") ∧
    (let first : WriteRequest := { schemaPatch := some (vectorColumns ["u", "v"]) }
      let second : WriteRequest := { schemaPatch := some (vectorColumns ["w"]) }
      first.CommitsAlone {} ∧ second.CommitsAlone {} ∧
        BufferState.batchAnswer {} {} [((0 : Fin 2), first)] (1, second) []
          = .error "namespace schema has 3 vector fields; maximum is 2") := by
  decide +kernel

end OpenPuffer
