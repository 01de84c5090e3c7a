import OpenPuffer.Indexer.Tick

/-!
# What the parts of a tick change

Every part of a tick moves the metadata on and adds to the end of the queue, and it
changes the counters of a namespace only if the namespace is written or has its pass
(`Evolves`).  There is one lemma for each part, and the round follows: the namespaces
that are queued when it starts get a pass each, in order (`indexRound_ran`).
-/

namespace OpenPuffer

open List IndexerState

/-! ## What reads return -/

namespace MetaObject

/-- No attempt on an unreadable object finds metadata. -/
theorem attempts_ne_some {reply : Nat → MetaReply} (fails : ∀ i, (reply i).fails = true)
    (key : String) (attempt more : Nat) (found : NamespaceMeta × Nat) :
    getMetaAttempts key reply attempt more ≠ .ok (some found) := by
  have hone : ∀ i, (reply i).result key ≠ .ok (some found) := by
    intro i h
    have hfails := fails i
    cases hreply : reply i with
    | bodyFailed =>
      rw [hreply] at h
      cases h
    | garbled =>
      rw [hreply] at h
      cases h
    | answer r =>
      rw [hreply] at h hfails
      cases r with
      | ok v => cases hfails
      | error e =>
        simp only [MetaReply.result, getMetaJson] at h
        split_ifs at h
        · cases h
        · cases h
  induction more generalizing attempt with
  | zero => exact hone attempt
  | succ more ih =>
    rw [getMetaAttempts]
    cases hresult : (reply attempt).result key with
    | ok v =>
      intro h
      rw [Except.ok.inj h] at hresult
      exact hone attempt hresult
    | error e => exact ih (attempt + 1)

theorem fetch_eq_some {ns : String} {o : MetaObject} {m : NamespaceMeta} :
    o.fetch ns = .ok (some m) ↔ o = .readable m := by
  cases o with
  | readable m' =>
    constructor
    · intro h
      cases h
      rfl
    · intro h
      cases h
      rfl
  | missing =>
    constructor
    · intro h
      cases h
    · intro h
      cases h
  | unreadable reply fails =>
    constructor
    · intro h
      rw [fetch] at h
      cases hget : getMetaWithRetry (metaKey ns) (unreadable reply fails).reply with
      | error e =>
        rw [hget] at h
        cases h
      | ok found =>
        rw [hget] at h
        cases found with
        | none => cases h
        | some found => exact absurd hget (attempts_ne_some fails _ _ _ _)
    · intro h
      cases h

end MetaObject

namespace IndexerState

theorem read_eq_some {s : IndexerState} {ns : String} {m : NamespaceMeta} :
    s.read ns = .ok (some m) ↔ s.store.lookup ns = some (.readable m) := by
  rw [read, MetaObject.fetch_eq_some]
  cases s.store.lookup ns with
  | none =>
    constructor
    · intro h
      cases h
    · intro h
      cases h
  | some o => simp

/-- The cursor and the last commit of a namespace. -/
def counters (s : IndexerState) (ns : String) : Option (Nat × Nat) :=
  match s.store.lookup ns with
  | some (.readable m) => some (m.indexCursor, m.walCommitSeq)
  | some .missing | some (.unreadable _ _) | none => none

theorem counters_setMeta (s : IndexerState) (ns n : String) (m : NamespaceMeta) :
    (s.setMeta ns m).counters n
      = if n = ns then some (m.indexCursor, m.walCommitSeq) else s.counters n := by
  simp only [counters, setMeta, HashMap.lookup_insert_ite]
  by_cases h : n = ns
  · simp [h]
  · simp [h]

theorem counters_eq_some {s : IndexerState} {ns : String} {c k : Nat} :
    s.counters ns = some (c, k) ↔
      ∃ m, s.store.lookup ns = some (.readable m) ∧ m.indexCursor = c ∧ m.walCommitSeq = k := by
  rw [counters]
  constructor
  · intro h
    split at h
    · rename_i m hm
      cases h
      exact ⟨m, hm, rfl, rfl⟩
    · cases h
    · cases h
    · cases h
  · rintro ⟨m, hm, rfl, rfl⟩
    rw [hm]

end IndexerState

/-! ## How the state evolves -/

/-- How the metadata of a namespace changes.  An unreadable object stays as it is. -/
inductive MetaObject.Later : Option MetaObject → Option MetaObject → Prop where
  | same (o : Option MetaObject) : Later o o
  | created {o : Option MetaObject} {m : NamespaceMeta} (absent : o = none ∨ o = some .missing)
      (cursor : m.indexCursor ≤ m.walCommitSeq) : Later o (some (.readable m))
  | updated {m m' : NamespaceMeta} (commit : m.walCommitSeq ≤ m'.walCommitSeq)
      (cursor : m.indexCursor ≤ m.walCommitSeq → m'.indexCursor ≤ m'.walCommitSeq) :
      Later (some (.readable m)) (some (.readable m'))

theorem MetaObject.Later.trans {a b c : Option MetaObject} (h : Later a b) (h' : Later b c) :
    Later a c := by
  cases h' with
  | same => exact h
  | created absent cursor =>
    cases h with
    | same => exact .created absent cursor
    | created _ _ => rcases absent with h | h <;> cases h
    | updated _ _ => rcases absent with h | h <;> cases h
  | updated commit cursor =>
    cases h with
    | same => exact .updated commit cursor
    | created absent hle => exact .created absent (cursor hle)
    | updated commit' cursor' =>
      exact .updated (commit'.trans commit) fun hle => cursor (cursor' hle)

/-- What a part of a tick does: the metadata moves on, the queue only grows at its end,
and the counters of a namespace change only if it is touched. -/
structure Evolves (touched : String → Prop) (s s' : IndexerState) : Prop where
  store : ∀ ns, MetaObject.Later (s.store.lookup ns) (s'.store.lookup ns)
  queue : s.queue <+: s'.queue
  counters : ∀ ns, ¬ touched ns → s'.counters ns = s.counters ns

namespace Evolves

variable {touched : String → Prop} {s s' s'' : IndexerState}

theorem refl (touched : String → Prop) (s : IndexerState) : Evolves touched s s :=
  ⟨fun _ => .same _, prefix_refl _, fun _ _ => rfl⟩

theorem trans (h : Evolves touched s s') (h' : Evolves touched s' s'') :
    Evolves touched s s'' where
  store := fun ns => (h.store ns).trans (h'.store ns)
  queue := h.queue.trans h'.queue
  counters := fun ns hns => (h'.counters ns hns).trans (h.counters ns hns)

theorem mono {touched' : String → Prop} (h : Evolves touched s s')
    (hle : ∀ ns, touched ns → touched' ns) : Evolves touched' s s' where
  store := h.store
  queue := h.queue
  counters := fun ns hns => h.counters ns fun ht => hns (hle ns ht)

/-- Writing new metadata over what is stored. -/
theorem setMeta {ns : String} {m m' : NamespaceMeta}
    (hread : s.store.lookup ns = some (.readable m)) (hcommit : m.walCommitSeq ≤ m'.walCommitSeq)
    (hcursor : m.indexCursor ≤ m.walCommitSeq → m'.indexCursor ≤ m'.walCommitSeq)
    (htouched : ¬ touched ns →
      m'.indexCursor = m.indexCursor ∧ m'.walCommitSeq = m.walCommitSeq) :
    Evolves touched s (s.setMeta ns m') where
  store := by
    intro n
    rw [IndexerState.setMeta, HashMap.lookup_insert_ite]
    split
    · rename_i hn
      rw [hn, hread]
      exact .updated hcommit hcursor
    · exact .same _
  queue := prefix_refl _
  counters := by
    intro n hn
    rw [IndexerState.counters_setMeta]
    split
    · rename_i heq
      subst heq
      obtain ⟨hc, hk⟩ := htouched hn
      rw [hc, hk]
      exact (IndexerState.counters_eq_some.mpr ⟨m, hread, rfl, rfl⟩).symm
    · rfl

end Evolves

namespace TickEnv

variable (env : TickEnv)

/-- Somebody writes to the namespace during the tick. -/
def Writes (ns : String) : Prop := ∃ i, .commit ns ∈ env.moves i

end TickEnv

section Moves

variable {touched : String → Prop}

theorem evolves_commit {ns : String} (h : touched ns) (s : IndexerState) :
    Evolves touched s (s.commit ns) := by
  rw [commit]
  have hcreate : s.store.lookup ns = none ∨ s.store.lookup ns = some .missing →
      Evolves touched s (s.setMeta ns { walCommitSeq := 1 }) := by
    intro habsent
    refine ⟨?_, prefix_refl _, ?_⟩
    · intro n
      rw [setMeta, HashMap.lookup_insert_ite]
      split
      · rename_i hn
        rw [hn]
        exact .created habsent (Nat.zero_le _)
      · exact .same _
    · intro n hn
      rw [counters_setMeta, if_neg]
      rintro rfl
      exact hn h
  cases hread : s.store.lookup ns with
  | none => exact hcreate (.inl hread)
  | some o =>
    cases o with
    | missing => exact hcreate (.inr hread)
    | unreadable reply fails => exact .refl _ s
    | readable m =>
      refine .setMeta hread (Nat.le_succ _) (fun hle => ?_) fun hn => absurd h hn
      exact hle.trans (Nat.le_succ _)

theorem evolves_wake (ns : String) (s : IndexerState) : Evolves touched s (s.wake ns) := by
  rw [wake]
  split
  · exact .refl _ s
  · exact ⟨fun _ => .same _, prefix_append _ _, fun _ _ => rfl⟩

theorem evolves_applyMoves {moves : List Move} (h : ∀ ns, .commit ns ∈ moves → touched ns)
    (s : IndexerState) : Evolves touched s (moves.foldl IndexerState.applyMove s) := by
  induction moves generalizing s with
  | nil => exact .refl _ s
  | cons move moves ih =>
    have hrest := ih (fun ns hns => h ns (mem_cons_of_mem _ hns)) (s.applyMove move)
    refine Evolves.trans ?_ hrest
    cases move with
    | commit ns => exact evolves_commit (h ns mem_cons_self) s
    | wake ns => exact evolves_wake ns s

theorem evolves_pause (env : TickEnv) (s : IndexerState) :
    Evolves env.Writes s (s.pause env) := by
  rw [pause]
  have htouched : ∀ ns, .commit ns ∈ env.moves s.clock → env.Writes ns :=
    fun ns hns => ⟨s.clock, hns⟩
  have hmoves := evolves_applyMoves htouched { s with clock := s.clock + 1 }
  exact ⟨hmoves.store, hmoves.queue, hmoves.counters⟩

end Moves

namespace TickEnv

open IndexerState (read_eq_some)

variable (env : TickEnv)

theorem evolves_maybeCompactWal (ns : String) (s : IndexerState) :
    Evolves env.Writes s (env.maybeCompactWal ns s).2 := by
  have hfirst := evolves_pause env s
  have hsecond := hfirst.trans (evolves_pause env _)
  simp only [maybeCompactWal]
  split
  · exact hfirst
  · exact hfirst
  · split
    · split
      · exact hsecond
      · exact hsecond
      · rename_i m hread
        split
        · exact hsecond.trans (.setMeta (read_eq_some.mp hread) le_rfl id fun _ => ⟨rfl, rfl⟩)
        · exact hsecond
    · exact hfirst

/-- A pass touches its own namespace. -/
def Touches (ns n : String) : Prop := env.Writes n ∨ n = ns

variable {s : IndexerState}

theorem evolves_commitIndex {ns : String} {toSeq : Nat} (stop : PassProgress) {m : NamespaceMeta}
    (hread : s.store.lookup ns = some (.readable m)) (hle : toSeq ≤ m.walCommitSeq) :
    Evolves (env.Touches ns) s (env.commitIndex ns toSeq stop m s) := by
  have hset : Evolves (env.Touches ns) s (s.setMeta ns { m with indexCursor := toSeq }) :=
    .setMeta hread le_rfl (fun _ => hle) fun hn => absurd (.inr rfl) hn
  cases stop with
  | beforeCommit => exact .refl _ s
  | committed => exact hset
  | compacted => exact hset.trans ((env.evolves_maybeCompactWal ns _).mono fun _ => .inl)

theorem evolves_indexWalAttempts (ns : String) (maxSegments : Nat) (stop : PassProgress)
    (attempts : Nat) (s : IndexerState) :
    Evolves (env.Touches ns) s (env.indexWalAttempts ns maxSegments stop attempts s).2 := by
  have hpause : ∀ s, Evolves (env.Touches ns) s (s.pause env) :=
    fun s => (evolves_pause env s).mono fun _ => .inl
  induction attempts generalizing s with
  | zero => exact .refl _ s
  | succ attempts ih =>
    have hfirst := hpause s
    have hsecond := hfirst.trans (hpause _)
    have hthird := hsecond.trans (hpause _)
    simp only [indexWalAttempts]
    split
    · exact hfirst
    · exact hfirst
    · split
      · exact hfirst
      · split
        · exact hsecond
        · exact hsecond
        · split
          · exact hsecond
          · split
            · exact hsecond.trans (ih _)
            · split
              · exact hthird
              · exact hthird
              · rename_i fresh hread
                split
                · exact hthird
                · split
                  · exact hthird.trans (ih _)
                  · rename_i hle
                    exact hthird.trans (env.evolves_commitIndex stop (read_eq_some.mp hread)
                      (not_lt.mp hle))

theorem evolves_moreWork (ns : String) (s : IndexerState) :
    Evolves env.Writes s (env.moreWork ns s).2 := by
  have hfirst := evolves_pause env s
  simp only [moreWork]
  split
  · exact hfirst
  · exact hfirst
  · simp only
    split
    · exact hfirst
    · exact hfirst.trans (env.evolves_maybeCompactWal ns _)

theorem evolves_indexNamespaceTimeboxed (ns : String) (maxSegments : Nat) (limit : Option Nat)
    (s : IndexerState) :
    Evolves (env.Touches ns) s (env.indexNamespaceTimeboxed ns maxSegments limit s).2 := by
  have hpass := env.evolves_indexWalAttempts ns (max maxSegments 1) (env.passStop ns limit)
    metaRetries s
  have hmore : ∀ s, Evolves (env.Touches ns) s (env.moreWork ns s).2 :=
    fun s => (env.evolves_moreWork ns s).mono fun _ => .inl
  simp only [indexNamespaceTimeboxed, indexWalRange]
  split
  · exact hpass
  · exact hpass.trans (hmore _)
  · exact hpass.trans (hmore _)

theorem evolves_compactAll (names : List String) (s : IndexerState) :
    Evolves env.Writes s (env.compactAll names s).2 := by
  induction names generalizing s with
  | nil => exact .refl _ s
  | cons ns names ih =>
    have hfirst := evolves_pause env s
    simp only [compactAll]
    split
    · exact hfirst
    · exact hfirst.trans (ih _)
    · refine hfirst.trans (Evolves.trans ?_ (ih _))
      split
      · exact env.evolves_maybeCompactWal ns _
      · exact .refl _ _

theorem evolves_compactionPass (s : IndexerState) :
    Evolves env.Writes s (env.compactionPass s).2 :=
  (evolves_pause env s).trans (env.evolves_compactAll _ _)

theorem evolves_fetchAll (names : List String) (s : IndexerState) :
    Evolves env.Writes s (env.fetchAll names s).2 := by
  induction names generalizing s with
  | nil => exact .refl _ s
  | cons ns names ih =>
    have hfirst := evolves_pause env s
    simp only [fetchAll]
    split
    · exact hfirst
    · exact hfirst.trans (ih _)

/-! ## The round -/

theorem evolves_requeue {touched : String → Prop} (ns : String) (result : Except String Bool)
    (s : IndexerState) : Evolves touched s (requeue ns result s) := by
  cases result with
  | error e => exact ⟨fun _ => .same _, prefix_append _ _, fun _ _ => rfl⟩
  | ok more =>
    cases more with
    | true => exact ⟨fun _ => .same _, prefix_append _ _, fun _ _ => rfl⟩
    | false => exact ⟨fun _ => .same _, prefix_refl _, fun _ _ => rfl⟩

theorem evolves_passOver (roundLen : Nat) (lagByNs : HashMap String Nat) (ns : String)
    (s : IndexerState) : Evolves (env.Touches ns) s (env.passOver roundLen lagByNs ns s) :=
  (env.evolves_indexNamespaceTimeboxed ns _ _ s).trans (evolves_requeue ns _ _)

theorem indexRound_cons {ns : String} {queue : List String} (hqueue : s.queue = ns :: queue)
    (roundLen : Nat) (lagByNs : HashMap String Nat) (passes : Nat) :
    env.indexRound roundLen lagByNs (passes + 1) s
      = (ns :: (env.indexRound roundLen lagByNs passes
            (env.passOver roundLen lagByNs ns { s with queue })).1,
          (env.indexRound roundLen lagByNs passes
            (env.passOver roundLen lagByNs ns { s with queue })).2) := by
  rw [indexRound, hqueue]

/-- After the turn of one namespace the next ones are still at the head of the queue. -/
theorem take_passOver (roundLen : Nat) (lagByNs : HashMap String Nat) (ns : String)
    {queue : List String} {passes : Nat} (hle : passes ≤ queue.length) (s : IndexerState) :
    passes ≤ (env.passOver roundLen lagByNs ns { s with queue }).queue.length ∧
      (env.passOver roundLen lagByNs ns { s with queue }).queue.take passes
        = queue.take passes := by
  obtain ⟨extra, hextra⟩ := (env.evolves_passOver roundLen lagByNs ns { s with queue }).queue
  rw [← hextra]
  exact ⟨hle.trans (prefix_append queue extra).length_le,
    take_append_of_le_length hle⟩

/-- The namespaces at the head of the queue get a pass, whoever is woken meanwhile. -/
theorem indexRound_ran (roundLen : Nat) (lagByNs : HashMap String Nat) {passes : Nat}
    (hle : passes ≤ s.queue.length) :
    (env.indexRound roundLen lagByNs passes s).1 = s.queue.take passes := by
  induction passes generalizing s with
  | zero => rfl
  | succ passes ih =>
    cases hqueue : s.queue with
    | nil =>
      rw [hqueue] at hle
      cases hle
    | cons ns queue =>
      rw [hqueue] at hle
      obtain ⟨hlen, htake⟩ :=
        env.take_passOver roundLen lagByNs ns (Nat.le_of_succ_le_succ hle) s
      rw [env.indexRound_cons hqueue, ih hlen, htake, take_succ_cons]

theorem indexRound_store (roundLen : Nat) (lagByNs : HashMap String Nat) (passes : Nat)
    (s : IndexerState) (ns : String) :
    MetaObject.Later (s.store.lookup ns)
      ((env.indexRound roundLen lagByNs passes s).2.store.lookup ns) := by
  induction passes generalizing s with
  | zero => exact .same _
  | succ passes ih =>
    cases hqueue : s.queue with
    | nil =>
      rw [indexRound, hqueue]
      exact .same _
    | cons n queue =>
      rw [env.indexRound_cons hqueue]
      exact ((env.evolves_passOver roundLen lagByNs n { s with queue }).store ns).trans (ih _)

end TickEnv

end OpenPuffer
