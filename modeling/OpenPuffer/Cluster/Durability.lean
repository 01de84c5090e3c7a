import OpenPuffer.Cluster.Machine

/-!
# Durability of acknowledged appends

An append stores its segment under the sequence it read, before it knows that the sequence is
its own, and a writer that loses the commit point deletes that key.  An acknowledged entry
survives exactly as long as every request leaves the committed segments alone (`Effect.Keeps`).
The commit lock gives this inside one process, the conditional PUT not between two.
-/

namespace OpenPuffer

open List Store

/-! ## Runs of appends -/

def Action.AppendsOnly {P : Type} : Action P → Prop
  | .start _ (.append _) => True
  | .start _ _ => False
  | _ => True

/-- The reply reports what the store did. -/
def Action.Truthful {P : Type} : Action P → Prop
  | .send _ r _ => r = .ok
  | _ => True

/-- What an append knows.  Other tasks do not occur. -/
def AppendFacts (sh : Shared) : Task → Prop
  | .idle => True
  | .appendGet .. => True
  | .appendPutWal _ _ _ read => sh.store.metaJson.Seen read
  | .appendPutMeta _ _ prep => sh.store.metaJson.Seen prep.read
  | .appendDelete _ _ seq => 1 ≤ seq
  | _ => False

/-- The requests an append can send. -/
def Effect.FromAppend (st : Store) : Effect → Prop
  | .none => True
  | .putWal seq _ => 1 ≤ seq
  | .undoWal seq => 1 ≤ seq
  | .commit m _ => m.walCommitSeq = saturatingAdd st.commitSeq 1
  | _ => False

theorem MetaRead.one_le_nextSeq (read : MetaRead) : 1 ≤ read.nextSeq := by
  simp only [MetaRead.nextSeq, nextWalSeq, saturatingAdd, u64Max]
  omega

variable {st : Store} {ns : String} {sh : Shared} {built : List (String × Nat)} {t : Task}
  {o : Outcome}

/-- A commit that takes effect extends the stored commit point. -/
theorem PreparedCommit.walCommitSeq_eq {c : AppendCall} (prep : PreparedCommit c)
    (hseen : st.metaJson.Seen prep.read) (hhit : st.metaJson.Matches prep.read) :
    prep.newMeta.walCommitSeq = saturatingAdd st.commitSeq 1 := by
  have hread : st.metaJson.current = prep.read := hseen.eq_of_matches hhit
  obtain ⟨hseq, -, -⟩ := metaAfterWalCommitOptions_counters prep.prepared
  rw [hseq, commitSeq, hread]
  rfl

theorem append_effect {r : Reply} (ht : AppendFacts sh t) :
    (taskStep ns sh.store r built t).effect.FromAppend sh.store := by
  refine taskStep_effect_of_writes (Q := Effect.FromAppend sh.store) trivial ?_
  intro eff hw
  cases hw with
  | putWal => exact MetaRead.one_le_nextSeq _
  | commit hhit => exact PreparedCommit.walCommitSeq_eq _ ht hhit
  | undoWal => exact ht
  | index | putSnapshot | compact | deleteWal => cases ht

theorem append_facts_own {r : Reply} (hr : r = .ok) (ht : AppendFacts sh t) :
    AppendFacts (sh.after (taskStep ns sh.store r built t))
      (taskStep ns sh.store r built t).task := by
  subst hr
  cases t with
  | idle => trivial
  | appendGet c attempt tries =>
    simp only [taskStep, fetchMeta_ok]
    exact sh.store.metaJson.seen_current
  | appendPutWal c attempt tries read =>
    simp only [taskStep, Reply.failure, prepareCommit]
    split
    · exact ht
    · trivial
  | appendPutMeta c attempt prep =>
    simp only [taskStep]
    split
    · trivial
    · split
      · exact prep.read.one_le_nextSeq
      · trivial
  | appendDelete c attempt seq => trivial
  | _ => cases ht

theorem Seen_apply {read : MetaRead} {eff : Effect} (h : st.metaJson.Seen read) :
    (st.apply eff).metaJson.Seen read := by
  cases eff with
  | commit m e => exact h.put m
  | putMeta m => exact h.put m
  | _ => exact h

theorem append_facts_other (ht : AppendFacts sh t) : AppendFacts (sh.after o) t := by
  cases t with
  | appendPutWal c attempt tries read => exact Seen_apply ht
  | appendPutMeta c attempt prep => exact Seen_apply ht
  | _ => exact ht

/-! ## The log and the segments -/

/-- Every committed segment holds its entry. -/
structure LogHeld (sh : Shared) : Prop where
  length_eq : sh.log.length = sh.store.commitSeq
  held : ∀ seq, 1 ≤ seq → seq ≤ sh.store.commitSeq → sh.store.wal seq = entryAt sh.log seq

/-- A request that leaves the committed segments alone, or commits an entry that
its segment holds. -/
def Effect.Keeps (st : Store) : Effect → Prop
  | .putWal seq e => st.commitSeq < seq ∨ st.wal seq = some e
  | .undoWal seq => st.commitSeq < seq
  | .commit m e => st.commitSeq < m.walCommitSeq ∧ st.wal m.walCommitSeq = some e
  | _ => True

instance (st : Store) (eff : Effect) : Decidable (eff.Keeps st) :=
  match eff with
  | .putWal _ _ => inferInstanceAs (Decidable (_ ∨ _))
  | .undoWal _ => inferInstanceAs (Decidable (_ < _))
  | .commit _ _ => inferInstanceAs (Decidable (_ ∧ _))
  | .none | .putMeta _ | .putSnapshot _ | .deleteWal _ => isTrue trivial

/-- A commit that keeps the committed segments takes the next sequence. -/
theorem Effect.Keeps.walCommitSeq_eq {m : NamespaceMeta} {e : WalEntry}
    (hk : (Effect.commit m e).Keeps st) (hnext : m.walCommitSeq = saturatingAdd st.commitSeq 1) :
    m.walCommitSeq = st.commitSeq + 1 := by
  have hlt := hk.1
  rw [hnext] at hlt ⊢
  exact saturatingAdd_one_of_lt_self hlt

theorem LogHeld.walCommitSeq_eq (h : LogHeld sh) {m : NamespaceMeta} {e : WalEntry}
    (hk : (Effect.commit m e).Keeps sh.store)
    (hnext : (Effect.commit m e).FromAppend sh.store) : m.walCommitSeq = sh.log.length + 1 := by
  rw [h.length_eq]
  exact hk.walCommitSeq_eq hnext

theorem LogHeld.after (h : LogHeld sh) (happ : o.effect.FromAppend sh.store)
    (hk : o.effect.Keeps sh.store) : LogHeld (sh.after o) := by
  have ⟨hlen, hheld⟩ := h
  cases heff : o.effect with
  | none =>
    simp only [Shared.after, heff, Effect.committed, append_nil]
    exact ⟨hlen, hheld⟩
  | putWal seq e =>
    simp only [heff] at hk
    simp only [Shared.after, heff, apply, Effect.committed, append_nil]
    refine ⟨hlen, ?_⟩
    intro k h1 h2
    rw [commitSeq_setWal] at h2
    rw [wal_setWal]
    split
    · rename_i hks
      subst hks
      rcases hk with hlt | hsame
      · omega
      · rw [← hsame]
        exact hheld k h1 h2
    · exact hheld k h1 h2
  | undoWal seq =>
    simp only [heff, Effect.Keeps] at hk
    simp only [Shared.after, heff, apply, Effect.committed, append_nil]
    refine ⟨hlen, ?_⟩
    intro k h1 h2
    rw [commitSeq_setWal] at h2
    rw [wal_setWal, if_neg (by omega)]
    exact hheld k h1 h2
  | commit m e =>
    rw [heff] at hk happ
    have hnext := h.walCommitSeq_eq hk happ
    simp only [Shared.after, heff, apply, Effect.committed]
    refine ⟨?_, ?_⟩
    · rw [commitSeq_putMeta, hnext, length_append]
      rfl
    · intro k h1 h2
      rw [commitSeq_putMeta] at h2
      rw [wal_putMeta]
      rcases Nat.lt_or_ge sh.log.length k with hlt | hle
      · obtain rfl : k = sh.log.length + 1 := by omega
        rw [entryAt_concat, ← hk.2, hnext]
      · rw [entryAt_append_left hle]
        exact hheld k h1 (by omega)
  | putMeta m => simp only [heff, Effect.FromAppend] at happ
  | putSnapshot snap => simp only [heff, Effect.FromAppend] at happ
  | deleteWal seq => simp only [heff, Effect.FromAppend] at happ

/-- The log is read back from its segments. -/
theorem LogHeld.replayWalEntries_eq (h : LogHeld sh) :
    replayWalEntries sh.store 1 sh.store.commitSeq = .ok sh.log :=
  replayWalEntries_one.mpr ⟨h.length_eq, h.held⟩

/-! ## Acknowledgements -/

/-- The appends acknowledged so far are stored under their sequences, no two
under one, and reading the log back yields each of them once. -/
structure Durable (sh : Shared) : Prop where
  stored : ∀ seq e, (seq, e) ∈ sh.acked → sh.store.wal seq = some e
  distinct : (sh.acked.map Prod.fst).Nodup
  replayed : replayWalEntries sh.store 1 sh.store.commitSeq = .ok (sh.acked.map Prod.snd)

/-- Every committed entry was acknowledged, under its place in the log. -/
structure Numbered (sh : Shared) : Prop where
  entries : sh.acked.map Prod.snd = sh.log
  seqs : sh.acked.map Prod.fst = List.range' 1 sh.log.length

theorem Numbered.entryAt_eq (h : Numbered sh) {seq : Nat} {e : WalEntry}
    (hmem : (seq, e) ∈ sh.acked) : 1 ≤ seq ∧ seq ≤ sh.log.length ∧ entryAt sh.log seq = some e := by
  obtain ⟨i, hi, hget⟩ := List.getElem_of_mem hmem
  have hfst : (sh.acked.map Prod.fst)[i]? = some seq := by
    rw [List.getElem?_map, List.getElem?_eq_getElem hi, hget]
    rfl
  have hsnd : (sh.acked.map Prod.snd)[i]? = some e := by
    rw [List.getElem?_map, List.getElem?_eq_getElem hi, hget]
    rfl
  rw [h.seqs] at hfst
  rw [h.entries] at hsnd
  obtain ⟨hlt, hseq⟩ := List.getElem?_eq_some_iff.mp hfst
  rw [List.getElem_range'] at hseq
  rw [List.length_range'] at hlt
  obtain rfl : seq = i + 1 := by omega
  exact ⟨by omega, by omega, by rw [entryAt_succ, hsnd]⟩

theorem Durable.of_logHeld (h : LogHeld sh) (hn : Numbered sh) : Durable sh where
  stored := by
    intro seq e hmem
    obtain ⟨h1, h2, he⟩ := hn.entryAt_eq hmem
    rw [h.held seq h1 (by rw [← h.length_eq]; exact h2), he]
  distinct := by
    rw [hn.seqs]
    exact nodup_range'
  replayed := by
    rw [hn.entries]
    exact h.replayWalEntries_eq

/-- The acknowledgement a commit is answered with. -/
def Effect.acks : Effect → List (Nat × WalEntry)
  | .commit m e => [(m.walCommitSeq, e)]
  | _ => []

/-- With a truthful reply an append is acknowledged exactly when it commits. -/
theorem acked_of_ok (ht : AppendFacts sh t) :
    (taskStep ns sh.store .ok built t).acked.toList
      = (taskStep ns sh.store .ok built t).effect.acks := by
  cases t with
  | idle => rfl
  | appendGet c attempt tries => simp only [taskStep, fetchMeta_ok, Option.toList, Effect.acks]
  | appendPutWal c attempt tries read => rfl
  | appendPutMeta c attempt prep =>
    have hseq := (metaAfterWalCommitOptions_counters prep.prepared).1
    by_cases hhit : sh.store.metaJson.Matches prep.read
    · simp [taskStep, hhit, Reply.applied, Reply.failureIf, Effect.onlyIf, Effect.acks, hseq]
    · simp [taskStep, hhit, Reply.failureIf, Effect.onlyIf, Effect.acks]
  | appendDelete c attempt seq => rfl
  | _ => cases ht

theorem Numbered.after (hlog : LogHeld sh) (hn : Numbered sh)
    (happ : o.effect.FromAppend sh.store) (hk : o.effect.Keeps sh.store)
    (hack : o.acked.toList = o.effect.acks) : Numbered (sh.after o) := by
  cases heff : o.effect with
  | commit m e =>
    rw [heff] at happ hk
    have hnext := hlog.walCommitSeq_eq hk happ
    simp only [Effect.acks] at hack
    refine ⟨?_, ?_⟩
    · simp [Shared.after, heff, hack, Effect.committed, hn.entries]
    · simp [Shared.after, heff, hack, Effect.committed, hn.seqs, hnext, range'_concat,
        Nat.add_comm]
  | _ =>
    simp only [Effect.acks] at hack
    refine ⟨?_, ?_⟩
    · simp [Shared.after, heff, hack, Effect.committed, hn.entries]
    · simp [Shared.after, heff, hack, Effect.committed, hn.seqs]

/-- A request of an append that breaks the guard shows at once. -/
theorem Durable.keeps (hlog : LogHeld sh) (hn : Numbered sh) (happ : o.effect.FromAppend sh.store)
    (hack : o.acked.toList = o.effect.acks) (hd : Durable (sh.after o)) :
    o.effect.Keeps sh.store := by
  obtain ⟨hlen, hread⟩ := replayWalEntries_one.mp hd.replayed
  cases heff : o.effect with
  | putWal seq e =>
    simp only [heff] at happ
    simp only [Effect.acks] at hack
    rcases Nat.lt_or_ge sh.store.commitSeq seq with hlt | hle
    · exact Or.inl hlt
    · refine Or.inr ?_
      have hnew := hread seq happ (by simpa [Shared.after, heff, apply] using hle)
      simp only [Shared.after, heff, apply, wal_setWal, if_true, hack,
        append_nil, hn.entries] at hnew
      rw [hlog.held seq happ hle, hnew]
  | undoWal seq =>
    simp only [heff] at happ
    simp only [Effect.acks] at hack
    rcases Nat.lt_or_ge sh.store.commitSeq seq with hlt | hle
    · exact hlt
    · have hnew := hread seq happ (by simpa [Shared.after, heff, apply] using hle)
      simp only [Shared.after, heff, apply, wal_setWal, hack, append_nil, hn.entries] at hnew
      obtain ⟨e, he⟩ := entryAt_isSome sh.log happ (by rw [hlog.length_eq]; exact hle)
      rw [he] at hnew
      cases hnew
  | commit m e =>
    simp only [Effect.acks] at hack
    simp only [Shared.after, heff, hack, apply, commitSeq_putMeta, map_append, length_append,
      hn.entries, map_cons, length_cons] at hlen
    have hlast := hread m.walCommitSeq (by omega)
      (by simp [Shared.after, heff, apply])
    simp only [Shared.after, heff, hack, apply, wal_putMeta, map_append, hn.entries] at hlast
    refine ⟨by rw [← hlog.length_eq]; omega, ?_⟩
    rw [hlast, ← hlen]
    exact entryAt_concat sh.log e
  | _ => trivial

/-! ## Runs -/

section Runs

variable {P R : Type} {ns : String} {proc : P → R}

variable {s : Cluster P R} {a : Action P}

theorem Cluster.Moves.appendFacts {t : Task} (h : s.Moves a t) (ha : a.AppendsOnly)
    (hfacts : ∀ p, AppendFacts s.shared (s.task p)) : AppendFacts s.shared t := by
  cases a with
  | start p job =>
    cases h
    cases job with
    | append c => trivial
    | index call => cases ha
    | compact => cases ha
  | acquire p =>
    have hp := hfacts p
    have h' : (s.task p).acquired = some t := h
    revert hp h'
    cases s.task p <;> intro hp h' <;> cases h' <;> cases hp
  | send p r built => cases h
  | stop p =>
    cases h
    trivial

/-- What holds between the steps of a guarded run of appends. -/
structure DurableInv (proc : P → R) (s : Cluster P R) : Prop where
  locked : s.Locked proc
  held : LogHeld s.shared
  numbered : Numbered s.shared
  facts : ∀ p, AppendFacts s.shared (s.task p)

variable [DecidableEq P] [DecidableEq R]

theorem DurableInv.step {s' : Cluster P R} (h : DurableInv proc s)
    (ha : a.AppendsOnly ∧ a.Truthful) (hk : (s.effect ns a).Keeps s.shared.store)
    (hstep : (cluster ns proc).step s a = some s') : DurableInv proc s' := by
  obtain ⟨hl, ⟨hlog, hn⟩, hfacts⟩ := step_invariant hstep h.locked
    (I := fun sh => LogHeld sh ∧ Numbered sh) (T := AppendFacts) ⟨h.held, h.numbered⟩ h.facts
    (fun t ht => ht.appendFacts ha.1 h.facts)
    (by
      rintro p r built rfl -
      obtain rfl : r = .ok := ha.2
      have happ : (taskStep ns s.shared.store .ok built (s.task p)).effect.FromAppend
          s.shared.store := append_effect (h.facts p)
      exact ⟨⟨h.held.after happ hk, h.numbered.after h.held happ hk (acked_of_ok (h.facts p))⟩,
        append_facts_own rfl (h.facts p)⟩)
    (fun p r built q _ _ _ => append_facts_other (h.facts q))
  exact ⟨hl, hlog, hn, hfacts⟩

/-- An unguarded step of a run of appends loses an acknowledged entry. -/
theorem DurableInv.keeps {s' : Cluster P R} (h : DurableInv proc s)
    (ha : a.AppendsOnly ∧ a.Truthful) (hstep : (cluster ns proc).step s a = some s')
    (hd : Durable s'.shared) : (s.effect ns a).Keeps s.shared.store := by
  cases a with
  | send p r built =>
    obtain rfl : r = .ok := ha.2
    obtain ⟨o, ho, -, rfl⟩ := step_eq_some hstep
    rcases outcome_cases ho with ⟨p', r', built', heq, -, rfl⟩ | ⟨t, -, hmove⟩
    · cases heq
      exact Durable.keeps h.held h.numbered (append_effect (h.facts p)) (acked_of_ok (h.facts p))
        hd
    · cases hmove
  | _ => trivial

/-- Appends of any number of processes are durable in every state of a run
exactly if every request of the run leaves the committed segments alone and
every commit finds its own entry under its sequence. -/
theorem durable_iff_keeps {s t : Cluster P R} {as : List (Action P)}
    (hidle : s.Idle) (hlog : LogHeld s.shared) (hn : Numbered s.shared)
    (has : ∀ a ∈ as, a.AppendsOnly ∧ a.Truthful) (hr : (cluster ns proc).run s as = some t) :
    (∀ u, (cluster ns proc).Visits s as u → Durable u.shared) ↔
      (cluster ns proc).Along (fun u a => (u.effect ns a).Keeps u.shared.store) s as := by
  have hfacts : ∀ p, AppendFacts s.shared (s.task p) := by
    intro p
    rw [hidle.1 p]
    trivial
  exact Machine.along_iff (I := DurableInv proc) (D := fun _ a => a.AppendsOnly ∧ a.Truthful)
    (fun u hu => Durable.of_logHeld hu.held hu.numbered)
    (fun u a u' hu ha hk hs => hu.step ha hk hs)
    (fun u a u' hu ha hs hd => hu.keeps ha hs hd)
    ⟨hidle.locked, hlog, hn, hfacts⟩ (Machine.along_of_forall s as has) hr

end Runs

theorem LogHeld.empty : LogHeld .empty := by
  refine ⟨rfl, ?_⟩
  intro seq h1 h2
  change seq ≤ 0 at h2
  omega

theorem Numbered.empty : Numbered .empty := ⟨rfl, rfl⟩

/-- One append from its start to its commit, answered truthfully. -/
def appendRun {P : Type} (p : P) (c : AppendCall) : List (Action P) :=
  [.start p (.append c), .send p .ok [], .send p .ok [], .send p .ok []]

/-- Two processes append in turn, the second one twice. -/
def appendsInTurn : List (Action (Fin 2)) :=
  appendRun 1 { entry := oneDoc "a" } ++ appendRun 0 { entry := oneDoc "b" } ++
    appendRun 1 { entry := oneDoc "c" }

theorem durable_appendsInTurn :
    ∃ t, (cluster "ns" (id : Fin 2 → Fin 2)).run (.init .empty) appendsInTurn = some t ∧
      t.shared.acked = [(1, oneDoc "a"), (2, oneDoc "b"), (3, oneDoc "c")] ∧
      ∀ u, (cluster "ns" (id : Fin 2 → Fin 2)).Visits (.init .empty) appendsInTurn u →
        Durable u.shared := by
  obtain ⟨t, ht, hacked⟩ : ∃ t, (cluster "ns" (id : Fin 2 → Fin 2)).run (.init .empty)
      appendsInTurn = some t ∧
        t.shared.acked = [(1, oneDoc "a"), (2, oneDoc "b"), (3, oneDoc "c")] := by
    decide +kernel
  refine ⟨t, ht, hacked, ?_⟩
  refine (durable_iff_keeps (Cluster.init_idle _) LogHeld.empty Numbered.empty ?_ ht).mpr ?_
  · simp [appendsInTurn, appendRun, Action.AppendsOnly, Action.Truthful]
  · decide +kernel

/-- Two processes read the same `meta.json` and store their segments under the
same key.  The first commits and is acknowledged.  The second fails its
condition and deletes the key. -/
def rivalAppends : List (Action (Fin 2)) :=
  [.start 0 (.append { entry := oneDoc "a" }), .start 1 (.append { entry := oneDoc "b" }),
    .send 0 .ok [], .send 1 .ok [], .send 0 .ok [], .send 1 .ok [], .send 0 .ok [],
    .send 1 .ok [], .send 1 .ok []]

theorem rivalAppends_lose_acked :
    (∀ a ∈ rivalAppends, a.AppendsOnly ∧ a.Truthful) ∧
      ∃ t, (cluster "ns" (id : Fin 2 → Fin 2)).run (.init .empty) rivalAppends = some t ∧
        (1, oneDoc "a") ∈ t.shared.acked ∧ t.shared.store.wal 1 = none ∧ ¬ Durable t.shared := by
  refine ⟨by simp [rivalAppends, Action.AppendsOnly, Action.Truthful], ?_⟩
  obtain ⟨t, ht, hmem, hwal⟩ : ∃ t, (cluster "ns" (id : Fin 2 → Fin 2)).run (.init .empty)
      rivalAppends = some t ∧ (1, oneDoc "a") ∈ t.shared.acked ∧ t.shared.store.wal 1 = none := by
    decide +kernel
  refine ⟨t, ht, hmem, hwal, ?_⟩
  intro hd
  have hstored := hd.stored 1 _ hmem
  rw [hwal] at hstored
  cases hstored

end OpenPuffer
