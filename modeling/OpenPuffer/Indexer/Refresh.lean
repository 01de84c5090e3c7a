import OpenPuffer.Indexer.Evolves

/-!
# A namespace that cannot be read

Every namespace with objects is listed, and the refresh reads the metadata of all of
them.  A tick gets to its round if no read fails, and then every namespace that needs
indexing gets a pass.  One read that fails ends the tick before any pass
(`tick_indexes_others_iff`).

A read fails if all its attempts do, and some failures count as an absent object.
-/

namespace OpenPuffer

open List IndexerState

namespace TickEnv

/-! ## Reading many namespaces -/

section Fetch

variable {env : TickEnv}

variable {ns : String} {names : List String} {s : IndexerState}
  {metas : List (String × NamespaceMeta)}

theorem fetchAll_cons_ok (hmetas : (env.fetchAll (ns :: names) s).1 = .ok metas) :
    ∃ found rest, (s.pause env).read ns = .ok found ∧
      (env.fetchAll names (s.pause env)).1 = .ok rest ∧
      metas = (found.map (ns, ·)).toList ++ rest := by
  simp only [fetchAll] at hmetas
  cases hread : (s.pause env).read ns with
  | error e =>
    rw [hread] at hmetas
    cases hmetas
  | ok found =>
    rw [hread] at hmetas
    cases hrest : (env.fetchAll names (s.pause env)).1 with
    | error e =>
      simp only [hrest] at hmetas
      cases hmetas
    | ok rest =>
      simp only [hrest] at hmetas
      cases hmetas
      exact ⟨found, rest, rfl, rfl, rfl⟩

theorem fetchAll_keys (hmetas : (env.fetchAll names s).1 = .ok metas) :
    (metas.map Prod.fst).Sublist names := by
  induction names generalizing s metas with
  | nil =>
    cases hmetas
    exact Sublist.refl _
  | cons n names ih =>
    obtain ⟨found, rest, -, hrest, rfl⟩ := fetchAll_cons_ok hmetas
    cases found with
    | none => exact (ih hrest).cons _
    | some m => exact (ih hrest).cons_cons _

variable {P : IndexerState → Prop} (hpause : ∀ s, P s → P (s.pause env))

include hpause

theorem fetchAll_all {Q : NamespaceMeta → Prop}
    (hread : ∀ s, P s → ∀ m, s.read ns = .ok (some m) → Q m) (h : P s)
    (hmetas : (env.fetchAll names s).1 = .ok metas) {m : NamespaceMeta} (hm : (ns, m) ∈ metas) :
    Q m := by
  induction names generalizing s metas with
  | nil =>
    cases hmetas
    cases hm
  | cons n names ih =>
    obtain ⟨found, rest, hfound, hrest, rfl⟩ := fetchAll_cons_ok hmetas
    rcases mem_append.mp hm with hhead | htail
    · cases found with
      | none => cases hhead
      | some m' =>
        cases mem_singleton.mp hhead
        exact hread _ (hpause s h) m hfound
    · exact ih (hpause s h) hrest htail

theorem fetchAll_ok (hread : ∀ s, P s → ∀ ns, ∃ found, s.read ns = .ok found)
    (names : List String) (h : P s) : ∃ metas, (env.fetchAll names s).1 = .ok metas := by
  induction names generalizing s with
  | nil => exact ⟨[], rfl⟩
  | cons ns names ih =>
    obtain ⟨found, hfound⟩ := hread _ (hpause s h) ns
    obtain ⟨rest, hrest⟩ := ih (hpause s h)
    exact ⟨_, by simp only [fetchAll, hfound, hrest]; rfl⟩

theorem fetchAll_error (hread : ∀ s, P s → ∃ e, s.read ns = .error e) (hmem : ns ∈ names)
    (h : P s) : ∃ e, (env.fetchAll names s).1 = .error e := by
  induction names generalizing s with
  | nil => cases hmem
  | cons n names ih =>
    simp only [fetchAll]
    cases hn : (s.pause env).read n with
    | error e => exact ⟨e, rfl⟩
    | ok found =>
      have hrest : ns ∈ names := by
        rcases mem_cons.mp hmem with rfl | hrest
        · obtain ⟨e, he⟩ := hread _ (hpause s h)
          rw [he] at hn
          cases hn
        · exact hrest
      obtain ⟨e, he⟩ := ih hrest (hpause s h)
      exact ⟨e, by simp only [he]; rfl⟩

theorem fetchAll_mem {Q : NamespaceMeta → Prop}
    (hread : ∀ s, P s → ∃ m, s.read ns = .ok (some m) ∧ Q m) (hmem : ns ∈ names) (h : P s)
    (hmetas : (env.fetchAll names s).1 = .ok metas) : ∃ m, (ns, m) ∈ metas ∧ Q m := by
  induction names generalizing s metas with
  | nil => cases hmem
  | cons n names ih =>
    obtain ⟨found, rest, hfound, hrest, rfl⟩ := fetchAll_cons_ok hmetas
    rcases mem_cons.mp hmem with rfl | htail
    · obtain ⟨m, hm, hQ⟩ := hread _ (hpause s h)
      rw [hm] at hfound
      cases hfound
      exact ⟨m, mem_append_left _ mem_cons_self, hQ⟩
    · obtain ⟨m, hm, hQ⟩ := ih htail (hpause s h) hrest
      exact ⟨m, mem_append_right _ hm, hQ⟩

end Fetch

end TickEnv

/-! ## Names with work -/

namespace IndexerState

def NeedsIndexing (s : IndexerState) (ns : String) : Prop :=
  ∃ m, s.store.lookup ns = some (.readable m) ∧ needsIndexing m = true

def Readable (s : IndexerState) : Prop := ∀ ns, ∃ found, s.read ns = .ok found

theorem NeedsIndexing.commit {s : IndexerState} {ns : String} (h : s.NeedsIndexing ns)
    (n : String) : (s.commit n).NeedsIndexing ns := by
  obtain ⟨m, hm, hneeds⟩ := h
  rw [IndexerState.commit]
  have hset : ∀ m' : NamespaceMeta, (n = ns → needsIndexing m' = true) →
      (s.setMeta n m').NeedsIndexing ns := by
    intro m' hm'
    rw [NeedsIndexing, setMeta, HashMap.lookup_insert_ite]
    by_cases heq : ns = n
    · exact ⟨m', if_pos heq, hm' heq.symm⟩
    · exact ⟨m, (if_neg heq).trans hm, hneeds⟩
  split
  · rename_i m' hn
    refine hset _ ?_
    rintro rfl
    rw [hm] at hn
    cases hn
    exact decide_eq_true ((of_decide_eq_true hneeds).trans (Nat.lt_succ_self _))
  · exact ⟨m, hm, hneeds⟩
  · exact hset _ fun _ => rfl
  · exact hset _ fun _ => rfl

theorem NeedsIndexing.pause {s : IndexerState} {ns : String} (h : s.NeedsIndexing ns)
    (env : TickEnv) : (s.pause env).NeedsIndexing ns := by
  have hmoves : ∀ (moves : List Move) (s : IndexerState), s.NeedsIndexing ns →
      (moves.foldl applyMove s).NeedsIndexing ns := by
    intro moves
    induction moves with
    | nil => exact fun s h => h
    | cons move moves ih =>
      intro s h
      refine ih _ ?_
      cases move with
      | commit n => exact h.commit n
      | wake n =>
        simp only [applyMove, wake]
        split
        · exact h
        · exact h
  exact hmoves _ _ h

end IndexerState

/-- A read that does not fail never will. -/
theorem IndexerState.Readable.of_later {s s' : IndexerState} (hread : s.Readable)
    (h : ∀ ns, MetaObject.Later (s.store.lookup ns) (s'.store.lookup ns)) : s'.Readable := by
  intro ns
  have hns := hread ns
  have hlater := h ns
  rw [read] at hns ⊢
  generalize s.store.lookup ns = o at hns hlater
  generalize s'.store.lookup ns = o' at hlater ⊢
  cases hlater with
  | same => exact hns
  | created _ _ => exact ⟨_, rfl⟩
  | updated _ _ => exact ⟨_, rfl⟩

/-- A read that fails always will. -/
theorem Evolves.unreadable {touched : String → Prop} {s s' : IndexerState}
    (h : Evolves touched s s') {ns : String} {reply : Nat → MetaReply}
    {fails : ∀ i, (reply i).fails = true}
    (hread : s.store.lookup ns = some (.unreadable reply fails)) :
    s'.store.lookup ns = some (.unreadable reply fails) := by
  have hlater := h.store ns
  rw [hread] at hlater
  generalize s'.store.lookup ns = o at hlater
  cases hlater with
  | same => rfl
  | created absent _ => rcases absent with h | h <;> cases h

namespace TickEnv

variable (env : TickEnv)

variable {s : IndexerState} {ns : String} {metas : List (String × NamespaceMeta)}

theorem mem_listNamespaceNames (h : (s.pause env).store.lookup ns ≠ none) :
    ns ∈ (env.listNamespaceNames s).1 := by
  simp only [listNamespaceNames]
  rw [(IterOrder.sorted String).mem_toList, Finmap.mem_keys]
  exact not_not.mp fun hmem => h (Finmap.lookup_eq_none.mpr hmem)

def refreshNames (s : IndexerState) : List String :=
  env.order.toList (s.queued ∪ (env.listNamespaceNames s).1.toFinset)

theorem mem_refreshNames (h : (s.pause env).store.lookup ns ≠ none) : ns ∈ env.refreshNames s := by
  rw [refreshNames, env.order.mem_toList, Finset.mem_union, mem_toFinset]
  exact .inr (env.mem_listNamespaceNames h)

/-- A refresh that does not fail, and the queue that it leaves. -/
theorem refreshWorkQueue_ok
    (hmetas : (env.fetchAll (env.refreshNames s) (s.pause env)).1 = .ok metas) :
    (env.refreshWorkQueue s).1 = .ok () ∧
      (env.refreshWorkQueue s).2.store
        = (env.fetchAll (env.refreshNames s) (s.pause env)).2.store ∧
      (env.refreshWorkQueue s).2.queued = (env.refreshWorkQueue s).2.queue.toFinset ∧
      (env.refreshWorkQueue s).2.queue.Perm
        ((metas.filter fun p => hasIndexerWork p.2).map Prod.fst) := by
  rw [refreshNames, listNamespaceNames] at hmetas
  simp only [refreshWorkQueue, refreshNames, listNamespaceNames, hmetas, true_and]
  exact perm_insertionSort _ _

theorem refreshWorkQueue_error {e : String}
    (hfetch : (env.fetchAll (env.refreshNames s) (s.pause env)).1 = .error e) :
    (env.refreshWorkQueue s).1 = .error e := by
  rw [refreshNames, listNamespaceNames] at hfetch
  simp only [refreshWorkQueue, listNamespaceNames, hfetch]

/-- A namespace that has segments to index is queued. -/
theorem mem_refreshed (h : s.NeedsIndexing ns)
    (hmetas : (env.fetchAll (env.refreshNames s) (s.pause env)).1 = .ok metas) :
    ns ∈ (env.refreshWorkQueue s).2.queue := by
  obtain ⟨-, -, -, hperm⟩ := env.refreshWorkQueue_ok hmetas
  have hlisted : ns ∈ env.refreshNames s := by
    refine env.mem_refreshNames ?_
    obtain ⟨m, hm, -⟩ := h.pause env
    rw [hm]
    exact Option.some_ne_none _
  obtain ⟨m, hm, hneeds⟩ := fetchAll_mem (P := fun s => s.NeedsIndexing ns)
    (Q := fun m => needsIndexing m = true) (fun s h => h.pause env)
    (fun s ⟨m, hm, hneeds⟩ => ⟨m, read_eq_some.mpr hm, hneeds⟩) hlisted
    (h.pause env) hmetas
  rw [hperm.mem_iff]
  refine mem_map.mpr ⟨(ns, m), mem_filter.mpr ⟨hm, ?_⟩, rfl⟩
  have hlt : m.indexCursor < m.walCommitSeq := of_decide_eq_true hneeds
  have hlag : 0 < indexSchedulingLag m := by
    rw [indexSchedulingLag, unindexedWalSegments, if_neg (not_le.mpr hlt)]
    exact Nat.sub_pos_of_lt hlt
  simp [hasIndexerWork, hlag]

/-- The state after the refresh of a tick. -/
def refreshed (s : IndexerState) : IndexerState := (env.refreshWorkQueue { s with clock := 0 }).2

/-- A refresh only reads, while others move. -/
theorem refreshed_evolves (hmetas : (env.fetchAll (env.refreshNames { s with clock := 0 })
      (IndexerState.pause env { s with clock := 0 })).1 = .ok metas) (ns : String) :
    MetaObject.Later (s.store.lookup ns) ((env.refreshed s).store.lookup ns) ∧
      (¬ env.Writes ns → (env.refreshed s).counters ns = s.counters ns) := by
  have hevolves := (evolves_pause env { s with clock := 0 }).trans
    (env.evolves_fetchAll (env.refreshNames { s with clock := 0 }) _)
  obtain ⟨-, hstore, -, -⟩ := env.refreshWorkQueue_ok hmetas
  rw [refreshed, counters, hstore]
  exact ⟨hevolves.store ns, hevolves.counters ns⟩

/-- The state after the lag scan of a tick. -/
def scanned (s : IndexerState) : IndexerState :=
  (env.fetchAll ((env.refreshed s).pause env).queue ((env.refreshed s).pause env)).2

theorem evolves_scanned (s : IndexerState) :
    Evolves env.Writes (env.refreshed s) (env.scanned s) :=
  (evolves_pause env _).trans (env.evolves_fetchAll _ _)

/-- The refreshed queue is at the head of the queue when the round starts. -/
theorem take_scanned (s : IndexerState) :
    (env.refreshed s).queue.length ≤ (env.scanned s).queue.length ∧
      (env.scanned s).queue.take (env.refreshed s).queue.length = (env.refreshed s).queue := by
  obtain ⟨extra, hextra⟩ := (env.evolves_scanned s).queue
  rw [← hextra]
  exact ⟨(prefix_append _ _).length_le, take_left⟩

/-- A tick that gets to its round, with the metadata of the refresh and of the scan. -/
structure Proceeds (s : IndexerState) (metas lags : List (String × NamespaceMeta)) : Prop where
  refresh : (env.fetchAll (env.refreshNames { s with clock := 0 })
    (IndexerState.pause env { s with clock := 0 })).1 = .ok metas
  scan : (env.fetchAll ((env.refreshed s).pause env).queue ((env.refreshed s).pause env)).1
    = .ok lags
  roundLen : (env.tick s).roundLen = (env.refreshed s).queue.length
  ran : (env.tick s).ran = (env.indexRound (env.refreshed s).queue.length (lagMap lags)
    (env.refreshed s).queue.length (env.scanned s)).1
  state : (env.tick s).state = (env.compactionPass (env.indexRound
    (env.refreshed s).queue.length (lagMap lags) (env.refreshed s).queue.length
    (env.scanned s)).2).2

theorem proceeds_of_readable (h : s.Readable) : ∃ metas lags, env.Proceeds s metas lags := by
  have hpause : ∀ s : IndexerState, s.Readable → (s.pause env).Readable :=
    fun s hs => hs.of_later (evolves_pause env s).store
  have hstart : Readable { s with clock := 0 } := h
  obtain ⟨metas, hmetas⟩ := fetchAll_ok hpause (fun s hs => hs)
    (env.refreshNames { s with clock := 0 }) (hpause _ hstart)
  obtain ⟨hok, -, -, -⟩ := env.refreshWorkQueue_ok hmetas
  have hrefreshed : (env.refreshed s).Readable :=
    h.of_later fun ns => (env.refreshed_evolves hmetas ns).1
  obtain ⟨lags, hlags⟩ := fetchAll_ok hpause (fun s hs => hs)
    ((env.refreshed s).pause env).queue (hpause _ hrefreshed)
  have hscan := hlags
  rw [refreshed] at hscan
  refine ⟨metas, lags, hmetas, hlags, ?_, ?_, ?_⟩
  · simp only [tick, hok, hscan]
    rfl
  · simp only [tick, hok, hscan]
    rfl
  · simp only [tick, hok, hscan]
    rfl

/-- The namespaces that are queued when the round starts get a pass. -/
theorem Proceeds.ran_eq {env : TickEnv} {lags : List (String × NamespaceMeta)}
    (h : env.Proceeds s metas lags) : (env.tick s).ran = (env.refreshed s).queue := by
  obtain ⟨hle, htake⟩ := env.take_scanned s
  rw [h.ran, env.indexRound_ran _ _ hle, htake]

/-- A namespace that cannot be read ends the tick before its round. -/
theorem tick_ran_of_unreadable {e : String} (h : s.read ns = .error e) : (env.tick s).ran = [] := by
  obtain ⟨reply, fails, hstore⟩ : ∃ reply fails,
      s.store.lookup ns = some (.unreadable reply fails) := by
    rw [IndexerState.read] at h
    cases ho : s.store.lookup ns with
    | none =>
      rw [ho] at h
      cases h
    | some o =>
      rw [ho] at h
      cases o with
      | readable m => cases h
      | missing => cases h
      | unreadable reply fails => exact ⟨reply, fails, rfl⟩
  have hpause : ∀ s : IndexerState, s.store.lookup ns = some (.unreadable reply fails) →
      (s.pause env).store.lookup ns = some (.unreadable reply fails) :=
    fun s hs => (evolves_pause env s).unreadable hs
  have hfirst := hpause { s with clock := 0 } hstore
  have hlisted : ns ∈ env.refreshNames { s with clock := 0 } := by
    refine env.mem_refreshNames ?_
    rw [hfirst]
    exact Option.some_ne_none _
  have hread : ∀ t : IndexerState, t.store.lookup ns = some (.unreadable reply fails) →
      ∃ e, t.read ns = .error e := by
    intro t ht
    refine ⟨e, ?_⟩
    rw [← h, IndexerState.read, IndexerState.read, ht, hstore]
  obtain ⟨e', he'⟩ := fetchAll_error hpause hread hlisted hfirst
  simp only [tick, env.refreshWorkQueue_error he']

/-- In a tick every namespace that needs indexing gets a pass, whatever others write
and wake meanwhile, if and only if no read of a namespace fails or no namespace needs
indexing. -/
theorem tick_indexes_others_iff (s : IndexerState) :
    (∀ ns, s.NeedsIndexing ns → ns ∈ (env.tick s).ran) ↔
      s.Readable ∨ ∀ ns, ¬ s.NeedsIndexing ns := by
  constructor
  · intro hall
    by_cases hread : s.Readable
    · exact .inl hread
    · refine .inr fun ns hns => ?_
      obtain ⟨bad, hbad⟩ := not_forall.mp hread
      cases hfetch : s.read bad with
      | ok found => exact hbad ⟨found, hfetch⟩
      | error e =>
        have hran := hall ns hns
        rw [env.tick_ran_of_unreadable hfetch] at hran
        cases hran
  · rintro (hread | hnone) ns hns
    · obtain ⟨metas, lags, hproceeds⟩ := env.proceeds_of_readable hread
      rw [hproceeds.ran_eq]
      have hneeds : NeedsIndexing { s with clock := 0 } ns := hns
      exact env.mem_refreshed hneeds hproceeds.refresh
    · exact absurd hns (hnone ns)

end TickEnv

/-! ## A namespace beside one with a broken `meta.json` -/

/-- Nobody else moves, and every pass takes the same time. -/
def quietEnv (duration : Nat) : TickEnv where
  moves := fun _ => []
  pass := fun _ => { duration }
  order := .sorted String

/-- `app` has one segment to index, and no attempt to read `other` succeeds. -/
def besideBroken (reply : MetaReply) (h : reply.fails = true) : IndexerState where
  store := ((∅ : HashMap String MetaObject).insert "app" (.readable { walCommitSeq := 1 })).insert
    "other" (.unreadable (fun _ => reply) fun _ => h)

theorem besideBroken_needsIndexing (reply : MetaReply) (h : reply.fails = true) :
    (besideBroken reply h).NeedsIndexing "app" :=
  ⟨{ walCommitSeq := 1 }, by simp [besideBroken], rfl⟩

def unhandledReply : MetaReply := .answer (.error { message := "unhandled error" })

/-- A store that answers with an unhandled error counts as one without the object. -/
theorem tick_indexes_beside_unhandled :
    (besideBroken unhandledReply rfl).NeedsIndexing "app" ∧
      "app" ∈ ((quietEnv 10).tick (besideBroken unhandledReply rfl)).ran := by
  have hneeds := besideBroken_needsIndexing unhandledReply rfl
  refine ⟨hneeds, ((quietEnv 10).tick_indexes_others_iff _).mpr (.inl ?_) "app" hneeds⟩
  intro ns
  simp only [IndexerState.read, besideBroken, HashMap.lookup_insert_ite]
  by_cases hother : ns = "other"
  · subst hother
    exact ⟨none, by decide +kernel⟩
  · rw [if_neg hother]
    split
    · exact ⟨_, rfl⟩
    · exact ⟨none, rfl⟩

/-- A `meta.json` that does not parse keeps every other namespace from being indexed. -/
theorem broken_meta_stops_indexing :
    MetaReply.garbled.fails = true ∧ (besideBroken .garbled rfl).NeedsIndexing "app" ∧
      ((quietEnv 10).tick (besideBroken .garbled rfl)).outcome = .error "parse json object" ∧
      ((quietEnv 10).tick (besideBroken .garbled rfl)).ran = [] :=
  ⟨rfl, besideBroken_needsIndexing .garbled rfl, by decide +kernel, by decide +kernel⟩

end OpenPuffer
