import OpenPuffer.Indexer.Refresh

/-!
# Whether a backlog is indexed

After the last write to a namespace only its own passes change its counters.  A pass that is
not cut off moves the cursor, so the backlog is gone after finitely many such passes.  A pass
has a time limit of two seconds if its backlog is below eight segments and another namespace is
in the round.  So the backlog is indexed if and only if it does not come to this for ever: such
rounds, and passes that take longer (`backlog_indexed_iff`).
-/

namespace OpenPuffer

def IndexerState.backlog (s : IndexerState) (ns : String) : Nat :=
  match s.counters ns with
  | none => 0
  | some (c, k) => k - c

namespace TickEnv

open IndexerState (read_eq_some counters_eq_some)

variable (env : TickEnv)

/-! ## One pass -/

/-- The cursor after a pass over a backlog that reaches from `c` to `k`. -/
def cursorAfter (maxSegments : Nat) (stop : PassProgress) (c k : Nat) : Nat :=
  if stop = .beforeCommit ∨ k ≤ c then c else min k (c + 1 + (maxSegments - 1))

variable {env} {ns : String} {c k : Nat}

variable {s : IndexerState} {maxSegments : Nat} {stop : PassProgress}
  {metas : List (String × NamespaceMeta)}

section

variable (hwrites : ¬ env.Writes ns)

include hwrites

theorem counters_pause (h : s.counters ns = some (c, k)) :
    (s.pause env).counters ns = some (c, k) :=
  ((evolves_pause env s).counters ns hwrites).trans h

theorem read_pause (h : s.counters ns = some (c, k)) :
    ∃ m, (s.pause env).read ns = .ok (some m) ∧ m.indexCursor = c ∧ m.walCommitSeq = k := by
  obtain ⟨m, hm, hc, hk⟩ := counters_eq_some.mp (counters_pause hwrites h)
  exact ⟨m, read_eq_some.mpr hm, hc, hk⟩

theorem counters_commitIndex {toSeq : Nat} (stop : PassProgress)
    {m : NamespaceMeta} (hm : s.read ns = .ok (some m)) :
    (env.commitIndex ns toSeq stop m s).counters ns
      = some (if stop = .beforeCommit then m.indexCursor else toSeq, m.walCommitSeq) := by
  have hset : (s.setMeta ns { m with indexCursor := toSeq }).counters ns
      = some (toSeq, m.walCommitSeq) := by
    rw [IndexerState.counters_setMeta, if_pos rfl]
  cases stop with
  | beforeCommit => exact counters_eq_some.mpr ⟨m, read_eq_some.mp hm, rfl, rfl⟩
  | committed => exact hset
  | compacted => exact ((env.evolves_maybeCompactWal ns _).counters ns hwrites).trans hset

/-- A pass commits at its first attempt if nobody else writes. -/
theorem indexWalAttempts_counters (maxSegments : Nat)
    (stop : PassProgress) (attempts : Nat) (h : s.counters ns = some (c, k)) :
    (env.indexWalAttempts ns maxSegments stop (attempts + 1) s).1 = .ok () ∧
      (env.indexWalAttempts ns maxSegments stop (attempts + 1) s).2.counters ns
        = some (cursorAfter maxSegments stop c k, k) := by
  have hfirst := counters_pause hwrites h
  have hsecond := counters_pause hwrites hfirst
  obtain ⟨m₁, hm₁, rfl, rfl⟩ := read_pause hwrites h
  obtain ⟨m₂, hm₂, hc₂, hk₂⟩ := read_pause hwrites hfirst
  obtain ⟨m₃, hm₃, hc₃, hk₃⟩ := read_pause hwrites hsecond
  simp only [indexWalAttempts, hm₁, hm₂, hm₃, hc₂, hk₂, hc₃, hk₃, cursorAfter]
  by_cases hdone : m₁.walCommitSeq ≤ m₁.indexCursor
  · simp only [hdone, if_true, or_true]
    exact ⟨trivial, hfirst⟩
  · have hahead : ¬ min m₁.walCommitSeq (m₁.indexCursor + 1 + (maxSegments - 1))
        ≤ m₁.indexCursor := by omega
    have hcovered : ¬ m₁.walCommitSeq
        < min m₁.walCommitSeq (m₁.indexCursor + 1 + (maxSegments - 1)) := by omega
    simp only [hdone, hahead, hcovered, if_false, or_false]
    refine ⟨trivial, ?_⟩
    rw [counters_commitIndex hwrites stop hm₃, hc₃, hk₃]

theorem indexNamespaceTimeboxed_counters (maxSegments : Nat)
    (limit : Option Nat) (h : s.counters ns = some (c, k)) :
    (env.indexNamespaceTimeboxed ns maxSegments limit s).2.counters ns
      = some (cursorAfter (max maxSegments 1) (env.passStop ns limit) c k, k) := by
  obtain ⟨hok, hcounters⟩ := indexWalAttempts_counters hwrites (max maxSegments 1)
    (env.passStop ns limit) (metaRetries - 1) h
  have hmore : ∀ s, (env.moreWork ns s).2.counters ns = s.counters ns :=
    fun s => (env.evolves_moreWork ns s).counters ns hwrites
  simp only [indexNamespaceTimeboxed, indexWalRange, metaRetries] at hok hcounters ⊢
  rw [hok, hmore]
  exact hcounters

end

/-- A pass that commits makes progress. -/
theorem lt_cursorAfter (hstop : stop ≠ .beforeCommit) (h : c < k) :
    c < cursorAfter maxSegments stop c k ∧ cursorAfter maxSegments stop c k ≤ k := by
  rw [cursorAfter, if_neg (not_or.mpr ⟨hstop, not_le.mpr h⟩)]
  omega

/-! ## One round -/

theorem counters_passOver (hwrites : ¬ env.Writes ns) (roundLen : Nat)
    (lagByNs : HashMap String Nat) (h : s.counters ns = some (c, k)) :
    (env.passOver roundLen lagByNs ns s).counters ns
      = some (cursorAfter (max (segmentsPerBackgroundTick (lagByNs.getOr 0 ns) roundLen) 1)
          (env.passStop ns (backgroundTickTimeLimit (lagByNs.getOr 0 ns) roundLen)) c k, k) := by
  have hrequeue : ∀ result s', Evolves env.Writes s' (requeue ns result s') :=
    fun result s' => evolves_requeue ns result s'
  exact ((hrequeue _ _).counters ns hwrites).trans
    (indexNamespaceTimeboxed_counters hwrites _ _ h)

theorem indexRound_counters_of_notMem (hwrites : ¬ env.Writes ns) (roundLen : Nat)
    (lagByNs : HashMap String Nat) {passes : Nat} (hle : passes ≤ s.queue.length)
    (hmem : ns ∉ s.queue.take passes) :
    (env.indexRound roundLen lagByNs passes s).2.counters ns = s.counters ns := by
  induction passes generalizing s with
  | zero => rfl
  | succ passes ih =>
    cases hqueue : s.queue with
    | nil =>
      rw [hqueue] at hle
      cases hle
    | cons n queue =>
      rw [hqueue] at hle
      rw [hqueue, List.take_succ_cons, List.mem_cons, not_or] at hmem
      obtain ⟨hlen, htake⟩ :=
        env.take_passOver roundLen lagByNs n (Nat.le_of_succ_le_succ hle) s
      rw [env.indexRound_cons hqueue, ih hlen (by rw [htake]; exact hmem.2)]
      exact (env.evolves_passOver roundLen lagByNs n { s with queue }).counters ns
        (not_or.mpr ⟨hwrites, hmem.1⟩)

theorem indexRound_counters (hwrites : ¬ env.Writes ns) (roundLen : Nat)
    (lagByNs : HashMap String Nat) {passes : Nat} (hle : passes ≤ s.queue.length)
    (hnodup : (s.queue.take passes).Nodup) (hmem : ns ∈ s.queue.take passes)
    (h : s.counters ns = some (c, k)) :
    (env.indexRound roundLen lagByNs passes s).2.counters ns
      = some (cursorAfter (max (segmentsPerBackgroundTick (lagByNs.getOr 0 ns) roundLen) 1)
          (env.passStop ns (backgroundTickTimeLimit (lagByNs.getOr 0 ns) roundLen)) c k, k) := by
  induction passes generalizing s with
  | zero => cases hmem
  | succ passes ih =>
    cases hqueue : s.queue with
    | nil =>
      rw [hqueue] at hle
      cases hle
    | cons n queue =>
      rw [hqueue] at hle
      rw [hqueue] at hmem hnodup
      obtain ⟨hnot, hrest⟩ := List.nodup_cons.mp hnodup
      obtain ⟨hlen, htake⟩ :=
        env.take_passOver roundLen lagByNs n (Nat.le_of_succ_le_succ hle) s
      rw [env.indexRound_cons hqueue]
      rcases List.mem_cons.mp hmem with rfl | htail
      · rw [indexRound_counters_of_notMem hwrites _ _ hlen (by rwa [htake])]
        exact counters_passOver hwrites _ _ h
      · refine ih hlen (by rwa [htake]) (by rwa [htake]) ?_
        have hne : ns ≠ n := by
          rintro rfl
          exact hnot htail
        exact ((env.evolves_passOver roundLen lagByNs n { s with queue }).counters ns
          (not_or.mpr ⟨hwrites, hne⟩)).trans h

/-! ## One tick -/

/-- The tick gives the namespace a pass that is cut off before its commit: the backlog
is small, another namespace competes, and the pass takes longer than the limit. -/
structure CutOff (env : TickEnv) (s : IndexerState) (ns : String) : Prop where
  backlog : ∃ c k, s.counters ns = some (c, k) ∧ c < k ∧ k - c < burstIndexLagSegments
  competing : 2 ≤ (env.tick s).roundLen
  slow : maxIndexTimePerNsPerTick < (env.pass ns).duration
  uncommitted : (env.pass ns).progress = .beforeCommit

theorem passStop_eq_beforeCommit {lag roundLen : Nat} :
    env.passStop ns (backgroundTickTimeLimit lag roundLen) = .beforeCommit ↔
      lag < burstIndexLagSegments ∧ 2 ≤ roundLen ∧
        maxIndexTimePerNsPerTick < (env.pass ns).duration ∧
        (env.pass ns).progress = .beforeCommit := by
  rw [passStop, isCutOff, backgroundTickTimeLimit]
  by_cases hfree : roundLen ≤ 1 ∨ burstIndexLagSegments ≤ lag
  · rw [if_pos hfree]
    simp only [Option.any_none, if_false, reduceCtorEq, false_iff]
    rintro ⟨hlag, hlen, -⟩
    omega
  · rw [if_neg hfree]
    have hbounds : lag < burstIndexLagSegments ∧ 2 ≤ roundLen := by omega
    simp only [hbounds]
    by_cases hslow : maxIndexTimePerNsPerTick < (env.pass ns).duration
    · simp [hslow]
    · simp [hslow]

theorem lagMap_getOr {lag : Nat} (hmem : ∃ m, (ns, m) ∈ metas)
    (hall : ∀ m, (ns, m) ∈ metas → indexSchedulingLag m = lag) :
    (lagMap metas).getOr 0 ns = lag := by
  obtain ⟨m, hm⟩ := hmem
  have hkey : ns ∈ lagMap metas := by
    refine HashMap.mem_insertAll.mpr (.inl ?_)
    exact List.mem_map.mpr ⟨_, List.mem_map.mpr ⟨(ns, m), hm, rfl⟩, rfl⟩
  obtain ⟨v, hv⟩ := Finmap.mem_iff.mp hkey
  rw [HashMap.getOr, hv]
  rcases HashMap.mem_of_lookup_insertAll hv with hv | hv
  · obtain ⟨⟨n, m'⟩, hm', heq⟩ := List.mem_map.mp hv
    cases heq
    exact hall m' hm'
  · cases hv

theorem indexSchedulingLag_of_counters {m : NamespaceMeta} (hc : m.indexCursor = c)
    (hk : m.walCommitSeq = k) : indexSchedulingLag m = k - c := by
  rw [indexSchedulingLag, unindexedWalSegments, hc, hk]
  split
  · omega
  · rfl

/-- The lag that the pass over a namespace is scheduled with. -/
theorem Proceeds.lag_eq {lags : List (String × NamespaceMeta)} (hp : env.Proceeds s metas lags)
    (hwrites : ¬ env.Writes ns) (h : s.counters ns = some (c, k))
    (hmem : ns ∈ (env.refreshed s).queue) : (lagMap lags).getOr 0 ns = k - c := by
  have hcounters : (env.refreshed s).counters ns = some (c, k) :=
    ((env.refreshed_evolves hp.refresh ns).2 hwrites).trans h
  have hstart := counters_pause hwrites hcounters
  have hqueue : ns ∈ ((env.refreshed s).pause env).queue :=
    (evolves_pause env _).queue.subset hmem
  have hpause : ∀ s : IndexerState, s.counters ns = some (c, k) →
      (s.pause env).counters ns = some (c, k) :=
    fun s hs => counters_pause hwrites hs
  refine lagMap_getOr ?_ fun m hm => ?_
  · have hfound : ∀ s : IndexerState, s.counters ns = some (c, k) →
        ∃ m, s.read ns = .ok (some m) ∧ True := by
      intro s hs
      obtain ⟨m, hm, -, -⟩ := counters_eq_some.mp hs
      exact ⟨m, read_eq_some.mpr hm, trivial⟩
    obtain ⟨m, hm, -⟩ := fetchAll_mem hpause hfound hqueue hstart hp.scan
    exact ⟨m, hm⟩
  · refine fetchAll_all (Q := fun m => indexSchedulingLag m = k - c) hpause (fun s hs m hm => ?_)
      hstart hp.scan hm
    obtain ⟨m', hm', hc, hk⟩ := counters_eq_some.mp hs
    rw [read_eq_some.mp hm] at hm'
    cases hm'
    exact indexSchedulingLag_of_counters hc hk

/-- The names of a refreshed queue are distinct. -/
theorem Proceeds.nodup_queue {lags : List (String × NamespaceMeta)}
    (hp : env.Proceeds s metas lags) : (env.refreshed s).queue.Nodup := by
  obtain ⟨-, -, -, hperm⟩ := env.refreshWorkQueue_ok hp.refresh
  have hkeys : (metas.map Prod.fst).Nodup :=
    (fetchAll_keys hp.refresh).nodup (env.order.nodup _)
  exact hperm.nodup_iff.mpr ((List.filter_sublist.map Prod.fst).nodup hkeys)

theorem cutOff_iff (h : s.counters ns = some (c, k)) :
    env.CutOff s ns ↔ c < k ∧
      env.passStop ns (backgroundTickTimeLimit (k - c) (env.tick s).roundLen)
        = .beforeCommit := by
  rw [passStop_eq_beforeCommit]
  constructor
  · rintro ⟨⟨c', k', h', hlt, hlag⟩, hlen, hslow, huncommitted⟩
    rw [h] at h'
    cases h'
    exact ⟨hlt, hlag, hlen, hslow, huncommitted⟩
  · rintro ⟨hlt, hlag, hlen, hslow, huncommitted⟩
    exact ⟨⟨c, k, h, hlt, hlag⟩, hlen, hslow, huncommitted⟩

/-- What a tick does to a namespace that nobody writes to. -/
theorem tick_counters (hread : s.Readable) (hwrites : ¬ env.Writes ns)
    (h : s.counters ns = some (c, k)) :
    ∃ c', (env.tick s).state.counters ns = some (c', k) ∧
      (env.CutOff s ns ∨ k ≤ c → c' = c) ∧
      (¬ env.CutOff s ns → c < k → c < c' ∧ c' ≤ k) := by
  obtain ⟨metas, lags, hp⟩ := env.proceeds_of_readable hread
  have hrefreshed := ((env.refreshed_evolves hp.refresh ns).2 hwrites).trans h
  have hscanned := ((env.evolves_scanned s).counters ns hwrites).trans hrefreshed
  obtain ⟨hle, htake⟩ := env.take_scanned s
  rw [hp.state, (env.evolves_compactionPass _).counters ns hwrites]
  by_cases hmem : ns ∈ (env.refreshed s).queue
  · rw [indexRound_counters hwrites _ _ hle (by rw [htake]; exact hp.nodup_queue)
      (by rwa [htake]) hscanned, hp.lag_eq hwrites h hmem, ← hp.roundLen]
    refine ⟨_, rfl, ?_, ?_⟩
    · rintro (hcut | hdone)
      · exact if_pos (.inl ((cutOff_iff h).mp hcut).2)
      · exact if_pos (.inr hdone)
    · intro hcut hlt
      exact lt_cursorAfter (fun hstop => hcut ((cutOff_iff h).mpr ⟨hlt, hstop⟩)) hlt
  · rw [indexRound_counters_of_notMem hwrites _ _ hle (by rwa [htake]), hscanned]
    refine ⟨c, rfl, fun _ => rfl, fun _ hlt => absurd ?_ hmem⟩
    obtain ⟨m, hm, hc, hk⟩ := counters_eq_some.mp h
    have hneeds : IndexerState.NeedsIndexing { s with clock := 0 } ns :=
      ⟨m, hm, decide_eq_true (by omega)⟩
    exact env.mem_refreshed hneeds hp.refresh

theorem backlog_eq (h : s.counters ns = some (c, k)) : s.backlog ns = k - c := by
  rw [IndexerState.backlog, h]

/-- The backlog of a namespace that nobody writes to: it stays if the pass is cut off, and
it shrinks otherwise. -/
theorem tick_backlog (hread : s.Readable) (hwrites : ¬ env.Writes ns)
    (h : s.counters ns = some (c, k)) :
    (env.CutOff s ns → 0 < s.backlog ns ∧ (env.tick s).state.backlog ns = s.backlog ns) ∧
      (¬ env.CutOff s ns → 0 < s.backlog ns →
        (env.tick s).state.backlog ns < s.backlog ns) ∧
      (s.backlog ns = 0 → (env.tick s).state.backlog ns = 0) := by
  obtain ⟨c', hc', hkept, hmoved⟩ := tick_counters hread hwrites h
  rw [backlog_eq h, backlog_eq hc']
  refine ⟨fun hcut => ?_, fun hcut hpos => ?_, fun hzero => ?_⟩
  · have hlt := ((cutOff_iff h).mp hcut).1
    rw [hkept (.inl hcut)]
    exact ⟨Nat.sub_pos_of_lt hlt, rfl⟩
  · have hlt := hmoved hcut (Nat.lt_of_sub_pos hpos)
    omega
  · rw [hkept (.inr (Nat.le_of_sub_eq_zero hzero))]
    exact hzero

/-- Two namespaces with a backlog compete. -/
theorem two_le_roundLen (hread : s.Readable) {n : String} (hne : ns ≠ n) (h : s.NeedsIndexing ns)
    (h' : s.NeedsIndexing n) : 2 ≤ (env.tick s).roundLen := by
  obtain ⟨metas, lags, hp⟩ := env.proceeds_of_readable hread
  have hqueued : ∀ i, s.NeedsIndexing i → i ∈ (env.refreshed s).queue := fun i hi =>
    have hneeds : IndexerState.NeedsIndexing { s with clock := 0 } i := hi
    env.mem_refreshed hneeds hp.refresh
  have hsub : ({ns, n} : Finset String) ⊆ (env.refreshed s).queue.toFinset := by
    intro i hi
    rw [List.mem_toFinset]
    rcases Finset.mem_insert.mp hi with rfl | hi
    · exact hqueued i h
    · rw [Finset.mem_singleton.mp hi]
      exact hqueued n h'
  rw [hp.roundLen]
  calc 2 = ({ns, n} : Finset String).card := (Finset.card_pair hne).symm
    _ ≤ (env.refreshed s).queue.toFinset.card := Finset.card_le_card hsub
    _ ≤ (env.refreshed s).queue.length := List.toFinset_card_le _

theorem tick_readable (h : s.Readable) : (env.tick s).state.Readable := by
  obtain ⟨metas, lags, hp⟩ := env.proceeds_of_readable h
  have hround : (env.indexRound (env.refreshed s).queue.length (lagMap lags)
      (env.refreshed s).queue.length (env.scanned s)).2.Readable :=
    h.of_later fun ns => ((env.refreshed_evolves hp.refresh ns).1.trans
      ((env.evolves_scanned s).store ns)).trans (env.indexRound_store _ _ _ _ ns)
  rw [hp.state]
  exact hround.of_later (env.evolves_compactionPass _).store

end TickEnv

/-! ## Infinitely many ticks -/

/-- A quantity that drops in every step that is not stuck, and stays in the others, gets
to zero if and only if it does not get stuck for ever. -/
theorem exists_zero_iff {f : Nat → Nat} {stuck : Nat → Prop} {t₀ : Nat}
    (hstay : ∀ t, t₀ ≤ t → stuck t → 0 < f t ∧ f (t + 1) = f t)
    (hdrop : ∀ t, t₀ ≤ t → ¬ stuck t → 0 < f t → f (t + 1) < f t)
    (hzero : ∀ t, t₀ ≤ t → f t = 0 → f (t + 1) = 0) :
    (∃ t, t₀ ≤ t ∧ f t = 0) ↔ ¬ ∃ t₁, t₀ ≤ t₁ ∧ ∀ t, t₁ ≤ t → stuck t := by
  have hmono : ∀ t, t₀ ≤ t → f (t + 1) ≤ f t := by
    intro t ht
    by_cases hs : stuck t
    · exact (hstay t ht hs).2.le
    · rcases Nat.eq_zero_or_pos (f t) with h0 | hpos
      · rw [hzero t ht h0]
        exact Nat.zero_le _
      · exact (hdrop t ht hs hpos).le
  have hanti : ∀ {t t'}, t₀ ≤ t → t ≤ t' → f t' ≤ f t := by
    intro t t' ht hle
    induction t', hle using Nat.le_induction with
    | base => exact le_rfl
    | succ n hn ih => exact (hmono n (ht.trans hn)).trans ih
  constructor
  · rintro ⟨t, ht, h0⟩ ⟨t₁, ht₁, hstuck⟩
    have hpos := (hstay (max t t₁) (ht.trans (le_max_left _ _)) (hstuck _ (le_max_right _ _))).1
    have hle := hanti ht (le_max_left t t₁)
    omega
  · intro hfree
    have hreach : ∀ n t, t₀ ≤ t → f t = n → ∃ t', t₀ ≤ t' ∧ f t' = 0 := by
      intro n
      induction n using Nat.strong_induction_on with
      | _ n ih =>
        intro t ht hn
        rcases Nat.eq_zero_or_pos n with h0 | hpos
        · exact ⟨t, ht, hn.trans h0⟩
        · obtain ⟨t', hle, hnot⟩ : ∃ t', t ≤ t' ∧ ¬ stuck t' := by
            by_contra hnone
            refine hfree ⟨t, ht, fun t' hle => ?_⟩
            by_contra hnot
            exact hnone ⟨t', hle, hnot⟩
          have ht' := ht.trans hle
          have hle' := hanti ht hle
          rcases Nat.eq_zero_or_pos (f t') with h0 | hpos'
          · exact ⟨t', ht', h0⟩
          · have hlt := hdrop t' ht' hnot hpos'
            exact ih (f (t' + 1)) (by omega) (t' + 1) (ht'.trans (Nat.le_succ _)) rfl
    exact hreach _ t₀ le_rfl rfl

/-- The states between the ticks. -/
def indexerRun (env : Nat → TickEnv) (s : IndexerState) : Nat → IndexerState
  | 0 => s
  | t + 1 => ((env t).tick (indexerRun env s t)).state

section Runs

variable {env : Nat → TickEnv} {s : IndexerState} {ns : String}

theorem indexerRun_readable (h : s.Readable) (t : Nat) : (indexerRun env s t).Readable := by
  induction t with
  | zero => exact h
  | succ t ih => exact TickEnv.tick_readable ih

/-- After the last write the last commit stays, and the cursor does not pass it. -/
theorem indexerRun_counters (hread : s.Readable) {t₀ c k : Nat} (hle : c ≤ k)
    (h : (indexerRun env s t₀).counters ns = some (c, k))
    (hstop : ∀ t, t₀ ≤ t → ¬ (env t).Writes ns) {t : Nat} (ht : t₀ ≤ t) :
    ∃ c', c' ≤ k ∧ (indexerRun env s t).counters ns = some (c', k) := by
  induction t, ht using Nat.le_induction with
  | base => exact ⟨c, hle, h⟩
  | succ t ht ih =>
    obtain ⟨c', hle', hc'⟩ := ih
    obtain ⟨c'', hc'', hkept, hmoved⟩ :=
      TickEnv.tick_counters (indexerRun_readable hread t) (hstop t ht) hc'
    refine ⟨c'', ?_, hc''⟩
    by_cases hcut : (env t).CutOff (indexerRun env s t) ns
    · rw [hkept (.inl hcut)]
      exact hle'
    · rcases Nat.lt_or_ge c' k with hlt | hge
      · exact (hmoved hcut hlt).2
      · rw [hkept (.inr hge)]
        exact hle'

/-- After the last write to a namespace its cursor gets to its last commit if and only
if it does not come to this for ever: its backlog is below eight, another namespace
competes, and its pass takes longer than two seconds and is cut off before its commit. -/
theorem backlog_indexed_iff (env : Nat → TickEnv) (s : IndexerState) (ns : String)
    (hread : s.Readable) {t₀ c k : Nat} (hle : c ≤ k)
    (h : (indexerRun env s t₀).counters ns = some (c, k))
    (hstop : ∀ t, t₀ ≤ t → ¬ (env t).Writes ns) :
    (∃ t, t₀ ≤ t ∧ (indexerRun env s t).counters ns = some (k, k)) ↔
      ¬ ∃ t₁, t₀ ≤ t₁ ∧ ∀ t, t₁ ≤ t → (env t).CutOff (indexerRun env s t) ns := by
  have hcounters := fun t ht => indexerRun_counters hread hle h hstop (t := t) ht
  have hstep := fun t ht =>
    let ⟨_, _, hc'⟩ := hcounters t ht
    TickEnv.tick_backlog (indexerRun_readable hread t) (hstop t ht) hc'
  rw [← exists_zero_iff (f := fun t => (indexerRun env s t).backlog ns)
    (fun t ht => (hstep t ht).1) (fun t ht => (hstep t ht).2.1) fun t ht => (hstep t ht).2.2]
  refine exists_congr fun t => and_congr_right fun ht => ?_
  obtain ⟨c', hle', hc'⟩ := hcounters t ht
  rw [TickEnv.backlog_eq hc', hc', Option.some.injEq, Prod.mk.injEq]
  omega

end Runs

/-! ## Two namespaces with one segment each -/

def twoBacklogs : IndexerState where
  store := ((∅ : HashMap String MetaObject).insert "app" (.readable { walCommitSeq := 1 })).insert
    "logs" (.readable { walCommitSeq := 1 })

theorem twoBacklogs_readable : twoBacklogs.Readable := by
  intro ns
  simp only [IndexerState.read, twoBacklogs, HashMap.lookup_insert_ite]
  split
  · exact ⟨_, rfl⟩
  · split
    · exact ⟨_, rfl⟩
    · exact ⟨none, rfl⟩

theorem quietEnv_writes (duration : Nat) (ns : String) : ¬ (quietEnv duration).Writes ns := by
  rintro ⟨i, h⟩
  cases h

/-- Passes of ten milliseconds are not cut off. -/
theorem fast_passes_index_backlog :
    ∃ t, 0 ≤ t ∧
      (indexerRun (fun _ => quietEnv 10) twoBacklogs t).counters "app" = some (1, 1) := by
  have hstart : (indexerRun (fun _ => quietEnv 10) twoBacklogs 0).counters "app" = some (0, 1) :=
    rfl
  refine (backlog_indexed_iff (fun _ => quietEnv 10) twoBacklogs "app" twoBacklogs_readable
    (Nat.zero_le 1) hstart fun _ _ => quietEnv_writes 10 "app").mpr ?_
  rintro ⟨t₁, -, hcut⟩
  exact absurd (hcut t₁ le_rfl).slow (by decide)

/-- Two namespaces whose passes take three seconds keep each other from being indexed,
without a single write. -/
theorem slow_passes_starve :
    twoBacklogs.Readable ∧ twoBacklogs.counters "app" = some (0, 1) ∧
      ¬ (quietEnv 3000).Writes "app" ∧
      ¬ ∃ t, (indexerRun (fun _ => quietEnv 3000) twoBacklogs t).counters "app" = some (1, 1) := by
  have hboth : ∀ t ns, ns = "app" ∨ ns = "logs" →
      (indexerRun (fun _ => quietEnv 3000) twoBacklogs t).counters ns = some (0, 1) := by
    intro t
    induction t with
    | zero =>
      rintro ns (rfl | rfl)
      · rfl
      · rfl
    | succ t ih =>
      intro ns hns
      have hread : (indexerRun (fun _ => quietEnv 3000) twoBacklogs t).Readable :=
        indexerRun_readable twoBacklogs_readable t
      have hneeds : ∀ n, n = "app" ∨ n = "logs" →
          (indexerRun (fun _ => quietEnv 3000) twoBacklogs t).NeedsIndexing n := by
        intro n hn
        obtain ⟨m, hm, hc, hk⟩ := IndexerState.counters_eq_some.mp (ih n hn)
        exact ⟨m, hm, decide_eq_true (by omega)⟩
      have hcompete : 2 ≤ ((quietEnv 3000).tick
          (indexerRun (fun _ => quietEnv 3000) twoBacklogs t)).roundLen :=
        TickEnv.two_le_roundLen hread (show "app" ≠ "logs" by decide) (hneeds _ (.inl rfl))
          (hneeds _ (.inr rfl))
      have hslow : maxIndexTimePerNsPerTick < 3000 := by decide
      obtain ⟨c', hc', hkept, -⟩ :=
        TickEnv.tick_counters hread (quietEnv_writes 3000 ns) (ih ns hns)
      have hcut : (quietEnv 3000).CutOff (indexerRun (fun _ => quietEnv 3000) twoBacklogs t) ns :=
        ⟨⟨0, 1, ih ns hns, by decide, by decide⟩, hcompete, hslow, rfl⟩
      rw [hkept (.inl hcut)] at hc'
      exact hc'
  refine ⟨twoBacklogs_readable, rfl, quietEnv_writes 3000 "app", ?_⟩
  rintro ⟨t, ht⟩
  rw [hboth t "app" (.inl rfl)] at ht
  cases ht

end OpenPuffer
