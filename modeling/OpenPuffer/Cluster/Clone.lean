import OpenPuffer.Cluster.Readers
import OpenPuffer.Wal.Format

/-!
# Copying a namespace

`clone_namespace_s3` lists the keys of the source once and then copies the objects in the order
of the listing: the metadata, the segments, and the snapshot last.  A commit before the copy of
`meta.json` moves the commit point to a segment that is not on the list, and a compaction
before the last copy exchanges the snapshot.  The copy can be loaded exactly if the listing
still covers the source when its metadata is copied, and again when its snapshot is
(`Cloner.OnCourse`).

The index segments play no part in a load of the documents and are left out.
-/

namespace OpenPuffer

open Option List

/-- The objects of a namespace, in the order of their keys. -/
inductive CloneKey where
  | metaJson
  | wal (seq : Nat)
  | snapshot
deriving DecidableEq, Repr

/-- The stored segments.  An append stores its segment before it moves the commit
point, so there may be one after it, and no further ones. -/
def Store.walSeqs (st : Store) : List Nat :=
  (List.range' 1 (st.commitSeq + 1)).filter fun seq => (st.wal seq).isSome

def listAllS3Keys (st : Store) : List CloneKey :=
  (if st.metaJson.current.isSome then [.metaJson] else []) ++ st.walSeqs.map .wal ++
    (if st.snapshot.isSome then [.snapshot] else [])

def walKey (ns : String) (seq : Nat) : String :=
  rootDir ++ ns ++ "/wal/" ++ zeroPadded 8 (Nat.toDigits 10 seq) ++ ".bin"

def CloneKey.key (ns : String) : CloneKey → String
  | .metaJson => metaKey ns
  | .wal seq => walKey ns seq
  | .snapshot => snapshotKey ns

/-- A namespace without objects. -/
def Store.vacant : Store := ⟨.absent, fun _ => none, none⟩

def copyObject (st : Store) (dest : Store) : CloneKey → Option Store
  | .metaJson => st.metaJson.current.map fun found => dest.putMeta found.1
  | .wal seq => (st.wal seq).map fun e => dest.setWal seq (some e)
  | .snapshot => st.snapshot.map fun snap => { dest with snapshot := some snap }

/-- `clone_namespace_s3` before its next request.  The keys that were listed are
kept to the end. -/
inductive Cloner where
  /-- The first request of `namespace_exists`. -/
  | headMeta
  | listOne
  | list
  | copy (listed keys : List CloneKey) (dest : Store)
  | done (listed : List CloneKey) (dest : Store)
  | failed (msg : String)

namespace Cloner

def copying (listed : List CloneKey) (dest : Store) : List CloneKey → Cloner
  | [] => .done listed dest
  | keys => .copy listed keys dest

/-- Send the next request.  The destination is empty, and nobody else writes to
it. -/
def read (source target : String) (st : Store) : Cloner → Option Cloner
  | .headMeta => some (if st.metaJson.current.isSome then .list else .listOne)
  | .listOne =>
    some (if listAllS3Keys st = [] then .failed "source namespace not found" else .list)
  | .list =>
    let keys := listAllS3Keys st
    some (if keys = [] then .failed "source namespace not found" else .copy keys keys .vacant)
  | .copy listed (key :: rest) dest =>
    match copyObject st dest key with
    | some dest => some (copying listed dest rest)
    | none =>
      let sourceKey := key.key source
      let destKey := key.key target
      some (.failed s!"copy {sourceKey} -> {destKey}")
  | .copy _ [] _ | .done .. | .failed _ => none

end Cloner

/-! ## The copy -/

namespace Cloner

/-- The copied metadata is a version of the source since the start, and the other
objects agree with the log. -/
structure Placed (start : Nat) (sh : Shared) (dest : Store) : Prop where
  start_le : start ≤ dest.storedMeta.walCommitSeq
  commit_le : dest.storedMeta.walCommitSeq ≤ sh.log.length
  snapshot_le : dest.storedMeta.walSnapshotSeq ≤ dest.storedMeta.walCommitSeq
  segment : ∀ seq e, 1 ≤ seq → seq ≤ dest.storedMeta.walCommitSeq → dest.wal seq = some e →
    entryAt sh.log seq = some e
  snapshot_docs : ∀ snap ∈ dest.snapshot,
    snap.seq ≤ sh.log.length ∧ snap.docs = replay (sh.log.take snap.seq)

/-- The segments of the copy are those of some keys. -/
def Copied (copied : List CloneKey) (dest : Store) : Prop :=
  ∀ seq, dest.wal seq ≠ none ↔ CloneKey.wal seq ∈ copied

/-- What holds between the requests.  The metadata is copied, or it comes next. -/
def Facts (start : Nat) (sh : Shared) : Cloner → Prop
  | .headMeta | .listOne | .list => start ≤ sh.log.length
  | .copy listed keys dest =>
    ∃ copied, listed = copied ++ keys ∧ keys.Nodup ∧ Copied copied dest ∧
      ((.metaJson ∉ keys ∧ Placed start sh dest) ∨
        ∃ rest, keys = .metaJson :: rest ∧ .metaJson ∉ rest ∧ dest = .vacant ∧
          start ≤ sh.log.length)
  | .done listed dest => Copied listed dest ∧ Placed start sh dest
  | .failed _ => True

theorem facts_copying {start : Nat} {sh : Shared} {listed keys copied : List CloneKey}
    {dest : Store} (hlisted : listed = copied ++ keys) (hnodup : keys.Nodup)
    (hcopied : Copied copied dest) (hkeys : .metaJson ∉ keys) (hplaced : Placed start sh dest) :
    Facts start sh (copying listed dest keys) := by
  cases keys with
  | nil =>
    rw [append_nil] at hlisted
    exact ⟨hlisted ▸ hcopied, hplaced⟩
  | cons key rest => exact ⟨copied, hlisted, hnodup, hcopied, .inl ⟨hkeys, hplaced⟩⟩

theorem Copied.concat {copied : List CloneKey} {dest dest' : Store} {key : CloneKey}
    (h : Copied copied dest)
    (hkey : ∀ seq, dest'.wal seq ≠ none ↔ dest.wal seq ≠ none ∨ .wal seq = key) :
    Copied (copied ++ [key]) dest' := by
  intro seq
  rw [hkey, h seq, mem_append, mem_singleton]

section Facts

variable {start : Nat} {sh : Shared} {dest dest' : Store}

theorem placed_vacant (h : SoloHeld sh) (hcur : sh.store.metaJson.current = none)
    (hstart : start ≤ sh.log.length) : Placed start sh .vacant := by
  have hzero : sh.log.length = 0 := by
    rw [h.length_eq, Store.commitSeq, hcur]
    rfl
  refine ⟨by omega, Nat.zero_le _, Nat.le_refl 0, ?_, ?_⟩
  · rintro seq e - - ⟨⟩
  · rintro _ ⟨⟩

theorem placed_putMeta (h : SoloHeld sh) {found : NamespaceMeta × Nat}
    (hcur : sh.store.metaJson.current = some found) (hstart : start ≤ sh.log.length) :
    Placed start sh (Store.vacant.putMeta found.1) := by
  obtain ⟨hk, hcommit⟩ := Reader.known_of_current h hcur
  refine ⟨?_, hk.commit_le, hk.snapshot_le, ?_, ?_⟩
  · change start ≤ found.1.walCommitSeq
    omega
  · rintro seq e - - ⟨⟩
  · rintro _ ⟨⟩

theorem Placed.setWal (hp : Placed start sh dest) (h : SoloHeld sh) {seq : Nat} {e : WalEntry}
    (hw : sh.store.wal seq = some e) : Placed start sh (dest.setWal seq (some e)) := by
  refine ⟨hp.start_le, hp.commit_le, hp.snapshot_le, ?_, hp.snapshot_docs⟩
  intro k e' h1 h2 hk
  rw [Store.wal_setWal] at hk
  split at hk
  · rename_i hkseq
    obtain rfl := some.inj hk
    subst hkseq
    exact Reader.entryAt_of_stored h h1 (Nat.le_trans h2 hp.commit_le) hw
  · exact hp.segment k e' h1 h2 hk

theorem Placed.setSnapshot (hp : Placed start sh dest) (h : SoloHeld sh) {snap : WalSnapshot}
    (hs : sh.store.snapshot = some snap) :
    Placed start sh { dest with snapshot := some snap } := by
  refine ⟨hp.start_le, hp.commit_le, hp.snapshot_le, hp.segment, ?_⟩
  rintro _ ⟨⟩
  exact ⟨h.length_eq ▸ h.snapshot_le snap hs, h.snapshot_docs snap hs⟩

theorem Placed.advances {sh' : Shared} (hp : Placed start sh dest) (hlog : sh.log <+: sh'.log) :
    Placed start sh' dest := by
  refine ⟨hp.start_le, hp.commit_le.trans hlog.length_le, hp.snapshot_le, ?_, ?_⟩
  · intro seq e h1 h2 hw
    obtain ⟨more, hmore⟩ := hlog
    rw [← hmore]
    exact entryAt_append_of_some (hp.segment seq e h1 h2 hw) more
  · intro snap hmem
    obtain ⟨hle, hdocs⟩ := hp.snapshot_docs snap hmem
    exact ⟨hle.trans hlog.length_le, by rw [take_of_extends hlog hle, hdocs]⟩

theorem Facts.advances {sh' : Shared} {c : Cloner} (hadv : sh.Advances sh')
    (h : Facts start sh c) : Facts start sh' c := by
  have hlen := hadv.log.length_le
  cases c with
  | headMeta | listOne | list => exact Nat.le_trans h hlen
  | copy listed keys dest =>
    obtain ⟨copied, hlisted, hnodup, hcopied,
      ⟨hkeys, hplaced⟩ | ⟨rest, hkeys, hrest, hdest, hstart⟩⟩ := h
    · exact ⟨copied, hlisted, hnodup, hcopied, .inl ⟨hkeys, hplaced.advances hadv.log⟩⟩
    · exact ⟨copied, hlisted, hnodup, hcopied, .inr ⟨rest, hkeys, hrest, hdest, hstart.trans hlen⟩⟩
  | done listed dest => exact ⟨h.1, h.2.advances hadv.log⟩
  | failed msg => trivial

/-- The metadata is the first of the keys. -/
theorem listAllS3Keys_cases (st : Store) :
    (st.metaJson.current = none ∧ .metaJson ∉ listAllS3Keys st) ∨
      ∃ rest, listAllS3Keys st = .metaJson :: rest ∧ .metaJson ∉ rest := by
  have hrest : CloneKey.metaJson ∉
      st.walSeqs.map CloneKey.wal ++ (if st.snapshot.isSome then [CloneKey.snapshot] else []) := by
    split <;> simp
  cases hcur : st.metaJson.current with
  | none =>
    refine .inl ⟨rfl, ?_⟩
    simpa only [listAllS3Keys, hcur, isSome_none, Bool.false_eq_true, if_false,
      nil_append] using hrest
  | some found =>
    refine .inr ⟨_, ?_, hrest⟩
    simp only [listAllS3Keys, hcur, isSome_some, if_true, cons_append,
      nil_append]

theorem nodup_listAllS3Keys (st : Store) : (listAllS3Keys st).Nodup := by
  have hseqs : (st.walSeqs.map CloneKey.wal).Nodup :=
    (Nodup.filter _ nodup_range').map fun _ _ h => CloneKey.wal.inj h
  rw [listAllS3Keys]
  split <;> split <;> simp [nodup_append, hseqs]

theorem copied_vacant : Copied [] .vacant := by
  intro seq
  exact iff_of_false (fun h => h rfl) not_mem_nil

theorem facts_list (h : SoloHeld sh) (hstart : start ≤ sh.log.length) :
    Facts start sh (.copy (listAllS3Keys sh.store) (listAllS3Keys sh.store) .vacant) := by
  refine ⟨[], rfl, nodup_listAllS3Keys _, copied_vacant, ?_⟩
  rcases listAllS3Keys_cases sh.store with ⟨hcur, hkeys⟩ | ⟨rest, hkeys, hrest⟩
  · exact .inl ⟨hkeys, placed_vacant h hcur hstart⟩
  · exact .inr ⟨rest, hkeys, hrest, rfl, hstart⟩

theorem facts_copyObject (h : SoloHeld sh) {listed rest : List CloneKey} {key : CloneKey}
    (hf : Facts start sh (.copy listed (key :: rest) dest))
    (hcopy : copyObject sh.store dest key = some dest') :
    Facts start sh (copying listed dest' rest) := by
  obtain ⟨copied, hlisted, hnodup, hcopied, hcase⟩ := hf
  have hnodup' := hnodup.of_cons
  have hlisted' : listed = (copied ++ [key]) ++ rest := by
    rw [hlisted, append_assoc, singleton_append]
  rcases hcase with ⟨hkeys, hplaced⟩ | ⟨rest', hkeys, hrest, rfl, hstart⟩
  · have hrest : CloneKey.metaJson ∉ rest := fun hmem => hkeys (mem_cons_of_mem key hmem)
    cases key with
    | metaJson => exact absurd mem_cons_self hkeys
    | wal seq =>
      obtain ⟨e, hw, rfl⟩ := map_eq_some_iff.mp hcopy
      refine facts_copying hlisted' hnodup' (hcopied.concat ?_) hrest (hplaced.setWal h hw)
      intro k
      rw [Store.wal_setWal]
      split
      · rename_i hk
        exact iff_of_true (some_ne_none e) (.inr (by rw [hk]))
      · rename_i hk
        rw [CloneKey.wal.injEq, or_iff_left hk]
    | snapshot =>
      obtain ⟨snap, hs, rfl⟩ := map_eq_some_iff.mp hcopy
      refine facts_copying hlisted' hnodup' (hcopied.concat ?_) hrest (hplaced.setSnapshot h hs)
      exact fun k => (or_iff_left nofun).symm
  · obtain ⟨rfl, rfl⟩ := cons.inj hkeys
    obtain ⟨found, hcur, rfl⟩ := map_eq_some_iff.mp hcopy
    refine facts_copying hlisted' hnodup' (hcopied.concat ?_) hrest (placed_putMeta h hcur hstart)
    exact fun k => (or_iff_left nofun).symm

theorem Facts.read (h : SoloHeld sh) {source target : String} {c c' : Cloner}
    (hf : Facts start sh c) (hread : c.read source target sh.store = some c') :
    Facts start sh c' := by
  cases c with
  | headMeta =>
    obtain rfl := some.inj hread
    split
    · exact hf
    · exact hf
  | listOne =>
    obtain rfl := some.inj hread
    split
    · trivial
    · exact hf
  | list =>
    obtain rfl := some.inj hread
    split
    · trivial
    · exact facts_list h hf
  | copy listed keys dest =>
    cases keys with
    | nil => cases hread
    | cons key rest =>
      simp only [Cloner.read] at hread
      cases hcopy : copyObject sh.store dest key with
      | none =>
        rw [hcopy] at hread
        cases hread
        trivial
      | some dest' =>
        rw [hcopy] at hread
        cases hread
        exact facts_copyObject h hf hcopy
  | done | failed => cases hread

/-- A load of the copy succeeds exactly if the segments that its metadata asks for
were copied. -/
theorem Placed.loads_iff (hp : Placed start sh dest) (hmax : sh.log.length < u64Max) :
    (∃ c, start ≤ c ∧ c ≤ sh.log.length ∧ ∃ last,
        loadDocsAtWalCommit dest dest.storedMeta = .ok (replay (sh.log.take c), last)) ↔
      ∀ seq ∈ replaySeqs dest.storedMeta (loadBaseline dest dest.storedMeta).2,
        dest.wal seq ≠ none := by
  have hcommit := hp.commit_le
  have hsnap := hp.snapshot_le
  obtain ⟨w, hbase, hw⟩ : ∃ w, loadBaseline dest dest.storedMeta
      = (replay (sh.log.take w), w) ∧ w ≤ dest.storedMeta.walCommitSeq := by
    rcases loadBaseline_cases (fun snap hmem => (hp.snapshot_docs snap hmem).2)
      dest.storedMeta with ⟨snap, -, hseq, hbase⟩ | hbase
    · exact ⟨_, hbase, hseq ▸ hsnap⟩
    · exact ⟨_, hbase, Nat.zero_le _⟩
  rw [hbase]
  constructor
  · rintro ⟨c, -, -, last, hload⟩ seq hmem hgone
    rcases Nat.eq_or_lt_of_le hw with heq | hlt
    · rw [replaySeqs, walReplayFrom_eq_none (by omega) (by omega)] at hmem
      cases hmem
    · have hfrom := walReplayFrom_eq_some (show w < u64Max by omega) hlt
      rw [replaySeqs, hfrom] at hmem
      obtain ⟨h1, h2⟩ := mem_seqRange.mp hmem
      obtain ⟨msg, hmsg⟩ : ∃ msg, replayWalRange dest (replay (sh.log.take w)) (w + 1)
          dest.storedMeta.walCommitSeq = .error msg :=
        replayWalRange_missing (by omega) h1 h2 hgone
      simp only [loadDocsAtWalCommit, hbase, hfrom, hmsg] at hload
      cases hload
  · intro hall
    refine ⟨dest.storedMeta.walCommitSeq, hp.start_le, hcommit, _,
      loadDocsAtWalCommit_eq hbase (by omega) hw hcommit ?_⟩
    intro seq h1 h2
    have hmem : seq ∈ replaySeqs dest.storedMeta w := by
      rw [replaySeqs, walReplayFrom_eq_some (by omega) (by omega)]
      exact mem_seqRange.mpr ⟨h1, h2⟩
    obtain ⟨e, he⟩ := ne_none_iff_exists'.mp (hall seq hmem)
    rw [he, hp.segment seq e (by omega) h2 he]

end Facts

/-! ## What the copy asks for -/

/-- When the metadata and when the snapshot is copied, the segments that they ask for,
as they are stored then, are those of keys that were listed.  Until the snapshot is
copied, one that is on the list is taken to be the recorded one. -/
def OnCourse (st : Store) : Cloner → Prop
  | .copy listed (.metaJson :: rest) _ =>
    ∀ seq ∈ replaySeqs st.storedMeta
      (if .snapshot ∈ rest then st.storedMeta.walSnapshotSeq else 0), .wal seq ∈ listed
  | .copy listed (.snapshot :: _) dest =>
    ∀ seq ∈ replaySeqs dest.storedMeta (loadBaseline st dest.storedMeta).2, .wal seq ∈ listed
  | _ => True

instance (st : Store) (c : Cloner) : Decidable (c.OnCourse st) :=
  match c with
  | .copy listed (.metaJson :: _) _ =>
    inferInstanceAs (Decidable (∀ seq ∈ replaySeqs _ _, CloneKey.wal seq ∈ listed))
  | .copy listed (.snapshot :: _) _ =>
    inferInstanceAs (Decidable (∀ seq ∈ replaySeqs _ _, CloneKey.wal seq ∈ listed))
  | .copy _ (.wal _ :: _) _ | .copy _ [] _ | .headMeta | .listOne | .list | .done .. | .failed _ =>
    isTrue trivial

/-- What was copied so far asks for listed segments only. -/
def Covers (listed keys : List CloneKey) (dest : Store) : Prop :=
  .metaJson ∉ keys → ∀ seq ∈ replaySeqs dest.storedMeta
    (if .snapshot ∈ keys then dest.storedMeta.walSnapshotSeq
      else (loadBaseline dest dest.storedMeta).2), .wal seq ∈ listed

/-- The copy was on course up to now. -/
def Settled : Cloner → Prop
  | .copy listed keys dest => Covers listed keys dest
  | .done listed dest => Covers listed [] dest
  | .headMeta | .listOne | .list | .failed _ => True

def isFailed : Cloner → Bool
  | .failed _ => true
  | _ => false

theorem settled_copying (listed keys : List CloneKey) (dest : Store) :
    (copying listed dest keys).Settled ↔ Covers listed keys dest := by
  cases keys <;> rfl

/-- The segments after the recorded snapshot are replayed in any case. -/
theorem replaySeqs_recorded_subset (st : Store) (m : NamespaceMeta) :
    replaySeqs m m.walSnapshotSeq ⊆ replaySeqs m (loadBaseline st m).2 := by
  unfold loadBaseline
  split
  · split
    · split
      · rename_i hseq
        rw [hseq]
        exact Subset.refl _
      · exact Reader.replaySeqs_subset m _
    · exact Reader.replaySeqs_subset m _
  · exact Reader.replaySeqs_subset m _

section Settled

variable {start : Nat} {sh : Shared} {listed rest : List CloneKey} {dest dest' : Store}

/-- The copy of one object keeps the copy on course exactly if it was on course. -/
theorem covers_copyObject_iff {key : CloneKey}
    (hf : Facts start sh (.copy listed (key :: rest) dest))
    (hcopy : copyObject sh.store dest key = some dest') :
    Covers listed rest dest' ↔
      Covers listed (key :: rest) dest ∧ OnCourse sh.store (.copy listed (key :: rest) dest) := by
  obtain ⟨-, -, hnodup, -, hcase⟩ := hf
  cases key with
  | metaJson =>
    obtain ⟨found, hcur, rfl⟩ := map_eq_some_iff.mp hcopy
    rcases hcase with ⟨hkeys, -⟩ | ⟨rest', hkeys, hrest, rfl, -⟩
    · exact absurd mem_cons_self hkeys
    obtain ⟨-, rfl⟩ := cons.inj hkeys
    have hmeta : sh.store.storedMeta = found.1 := by
      rw [Store.storedMeta, hcur]
      rfl
    have hbase : (loadBaseline (Store.vacant.putMeta found.1) found.1).2 = 0 := by
      unfold loadBaseline
      split <;> rfl
    have hnew : (Store.vacant.putMeta found.1).storedMeta = found.1 := rfl
    rw [Covers, imp_iff_right hrest, OnCourse, hmeta, hnew, hbase]
    exact (and_iff_right fun hkeys => absurd mem_cons_self hkeys).symm
  | wal seq =>
    obtain ⟨e, -, rfl⟩ := map_eq_some_iff.mp hcopy
    simp only [Covers, OnCourse, mem_cons, reduceCtorEq, false_or, and_true]
    rfl
  | snapshot =>
    obtain ⟨snap, hs, rfl⟩ := map_eq_some_iff.mp hcopy
    rcases hcase with ⟨hkeys, -⟩ | ⟨rest', hkeys, -⟩
    · have hbase : loadBaseline ({ dest with snapshot := some snap } : Store) dest.storedMeta
          = loadBaseline sh.store dest.storedMeta :=
        loadBaseline_congr hs.symm _
      have hrest : CloneKey.metaJson ∉ rest := fun hmem => hkeys (mem_cons_of_mem _ hmem)
      have hnew : ({ dest with snapshot := some snap } : Store).storedMeta = dest.storedMeta := rfl
      rw [Covers, Covers, imp_iff_right hrest, imp_iff_right hkeys, if_pos mem_cons_self,
        if_neg (nodup_cons.mp hnodup).1, OnCourse, hnew, hbase]
      refine (and_iff_right_of_imp fun h seq hmem => h seq ?_).symm
      exact replaySeqs_recorded_subset _ _ hmem
    · cases (cons.inj hkeys).1

/-- A request that does not fail leaves the copy on course exactly if it was, and the
request keeps it there. -/
theorem Facts.settled_read_iff {source target : String} {c c' : Cloner} (hf : Facts start sh c)
    (hread : c.read source target sh.store = some c') (hok : c'.isFailed = false) :
    c'.Settled ↔ c.Settled ∧ c.OnCourse sh.store := by
  cases c with
  | headMeta =>
    obtain rfl := some.inj hread
    split <;> exact (and_iff_left trivial).symm
  | listOne =>
    obtain rfl := some.inj hread
    split <;> exact (and_iff_left trivial).symm
  | list =>
    obtain rfl := some.inj hread
    split
    · exact (and_iff_left trivial).symm
    · refine iff_of_true ?_ ⟨trivial, trivial⟩
      have hnone : replaySeqs Store.vacant.storedMeta 0 = [] := rfl
      intro _ seq hmem
      rw [show (loadBaseline Store.vacant Store.vacant.storedMeta).2 = 0 from rfl,
        show Store.vacant.storedMeta.walSnapshotSeq = 0 from rfl, ite_self, hnone] at hmem
      cases hmem
  | copy listed keys dest =>
    cases keys with
    | nil => cases hread
    | cons key rest =>
      simp only [Cloner.read] at hread
      cases hcopy : copyObject sh.store dest key with
      | none =>
        rw [hcopy] at hread
        cases hread
        cases hok
      | some dest' =>
        rw [hcopy] at hread
        cases hread
        rw [settled_copying]
        exact covers_copyObject_iff hf hcopy
  | done | failed => cases hread

end Settled

end Cloner

/-! ## Runs -/

section Runs

variable {P R : Type} [DecidableEq P] [DecidableEq R] {ns : String} {proc : P → R}

/-- The requests of a copy find it on course. -/
def Observed.CopiesOnCourse (s : Observed P R Cloner) : ObservedAction P → Prop
  | .read => s.observer.OnCourse s.cluster.shared.store
  | .run _ => True

instance (s : Observed P R Cloner) (a : ObservedAction P) : Decidable (s.CopiesOnCourse a) :=
  match a with
  | .read => inferInstanceAs (Decidable (Cloner.OnCourse _ _))
  | .run _ => isTrue trivial

/-- What holds between the steps of a process with a copy. -/
def ClonerInv (proc : P → R) (start : Nat) (s : Observed P R Cloner) : Prop :=
  SoloInv proc s.cluster ∧ s.observer.Facts start s.cluster.shared

variable {start : Nat} {source target : String} {u u' : Observed P R Cloner}
  {a : ObservedAction P}

theorem ClonerInv.step (hone : ∀ p q, proc p = proc q) (h : ClonerInv proc start u)
    (ha : u.AppendsSucceed a)
    (hstep : (observed ns proc (Cloner.read source target)).step u a = some u') :
    ClonerInv proc start u' :=
  observed_step (T := Cloner.Facts start) hone (fun _ _ _ _ _ hadv hf => hf.advances hadv)
    (fun _ _ _ hheld hread hf => hf.read hheld hread) h ha hstep

theorem Cloner.isFailed_of_step
    (hstep : (observed ns proc (Cloner.read source target)).step u a = some u')
    (hok : u'.observer.isFailed = false) : u.observer.isFailed = false := by
  cases a with
  | run a =>
    obtain ⟨c, -, rfl⟩ := map_eq_some_iff.mp hstep
    exact hok
  | read =>
    obtain ⟨c, hread, -⟩ := map_eq_some_iff.mp hstep
    cases hobs : u.observer with
    | failed msg =>
      rw [hobs] at hread
      cases hread
    | _ => rfl

theorem ClonerInv.settled_iff (h : ClonerInv proc start u)
    (hstep : (observed ns proc (Cloner.read source target)).step u a = some u')
    (hok : u'.observer.isFailed = false) :
    u'.observer.Settled ↔ u.observer.Settled ∧ u.CopiesOnCourse a := by
  cases a with
  | run a =>
    obtain ⟨c, -, rfl⟩ := map_eq_some_iff.mp hstep
    exact (and_iff_left trivial).symm
  | read =>
    obtain ⟨c, hread, rfl⟩ := map_eq_some_iff.mp hstep
    exact h.2.settled_read_iff hread hok

/-- A copy next to one process of the source.  Loading it gives the documents of
the source at a commit point between the start and the end of the copy, exactly
if at each of its requests the source asks for listed segments only. -/
theorem clone_consistent_iff (hone : ∀ p q, proc p = proc q) {source target : String}
    {s₀ s : Cluster P R} {before : List (Action P)} (hidle : s₀.Idle)
    (hheld : SoloHeld s₀.shared)
    (happ₀ : (cluster ns proc).Along Cluster.AppendsSucceed s₀ before)
    (hbefore : (cluster ns proc).run s₀ before = some s) {as : List (ObservedAction P)}
    {t : Observed P R Cloner}
    (happ : (observed ns proc (Cloner.read source target)).Along Observed.AppendsSucceed
      ⟨s, .headMeta⟩ as)
    (hrun : (observed ns proc (Cloner.read source target)).run ⟨s, .headMeta⟩ as = some t)
    {listed : List CloneKey} {dest : Store} (hdone : t.observer = .done listed dest) :
    (∃ c, s.shared.store.commitSeq ≤ c ∧ c ≤ t.cluster.shared.store.commitSeq ∧ ∃ last,
        loadDocsAtWalCommit dest dest.storedMeta
          = .ok (replay (t.cluster.shared.log.take c), last)) ↔
      (observed ns proc (Cloner.read source target)).Along Observed.CopiesOnCourse
        ⟨s, .headMeta⟩ as := by
  have hinv₀ : SoloInv proc s := hidle.soloInv_of_run hone hheld happ₀ hbefore
  have hstart : ClonerInv proc s.shared.store.commitSeq ⟨s, .headMeta⟩ :=
    ⟨hinv₀, Nat.le_of_eq hinv₀.held.length_eq.symm⟩
  obtain ⟨ht, hfacts⟩ : ClonerInv proc s.shared.store.commitSeq t :=
    Machine.run_invariant (fun _ _ _ hu ha hs => hu.step hone ha hs) hstart happ hrun
  have hsettled := Machine.along_iff_end
    (P := fun u : Observed P R Cloner => u.observer.Settled) (G := Observed.CopiesOnCourse)
    (B := fun u : Observed P R Cloner => u.observer.isFailed = false)
    (fun _ _ _ hu ha hs => hu.step hone ha hs) (fun _ _ _ hs hok => Cloner.isFailed_of_step hs hok)
    (fun _ _ _ hu _ hs hok => hu.settled_iff hs hok) hstart happ hrun (by rw [hdone]; rfl)
  rw [hdone] at hfacts hsettled
  obtain ⟨hcopied, hplaced⟩ := hfacts
  have hmax := ht.held.lt_max
  rw [← ht.held.length_eq] at hmax ⊢
  rw [hplaced.loads_iff hmax, ← hsettled.trans (and_iff_right trivial)]
  exact (forall₂_congr fun seq _ => hcopied seq).trans (imp_iff_right not_mem_nil).symm

end Runs

/-- A copy of a compacted namespace: four segments and a snapshot.  One more entry is
committed after the copy of the metadata. -/
def copyThenAppend : List (ObservedAction (Fin 1)) :=
  [.read, .read, .read] ++ (appends (0 : Fin 1) 1).map .run ++ List.replicate 5 .read

/-- What a copy has placed, if it is done. -/
def Cloner.placed : Cloner → Option (List CloneKey × Store)
  | .done listed dest => some (listed, dest)
  | _ => none

theorem Cloner.placed_eq_some {c : Cloner} {listed : List CloneKey} {dest : Store}
    (h : c.placed = some (listed, dest)) : c = .done listed dest := by
  cases c <;> cases h
  rfl

theorem clone_consistent_copyThenAppend :
    ∃ s t listed dest,
      (cluster "ns" fun _ : Fin 1 => ()).run (.init .empty) compactedOnce = some s ∧
      (observed "ns" (fun _ : Fin 1 => ()) (Cloner.read "ns" "copy")).run ⟨s, .headMeta⟩
        copyThenAppend = some t ∧ t.observer = .done listed dest ∧
      ∃ c, s.shared.store.commitSeq ≤ c ∧ c ≤ t.cluster.shared.store.commitSeq ∧ ∃ last,
        loadDocsAtWalCommit dest dest.storedMeta
          = .ok (replay (t.cluster.shared.log.take c), last) := by
  have hs := (some_get compactedOnce_isSome).symm
  have hend : (((observed "ns" (fun _ : Fin 1 => ()) (Cloner.read "ns" "copy")).run
      ⟨get _ compactedOnce_isSome, .headMeta⟩ copyThenAppend).map
      (fun t => t.observer.placed.isSome)) = some true := by
    decide +kernel
  obtain ⟨t, ht, hplaced⟩ := map_eq_some_iff.mp hend
  obtain ⟨⟨listed, dest⟩, hplaced⟩ := isSome_iff_exists.mp hplaced
  have hobs := Cloner.placed_eq_some hplaced
  refine ⟨_, t, listed, dest, hs, ht, hobs, (clone_consistent_iff (fun _ _ => rfl)
    (Cluster.init_idle _) SoloHeld.empty ?_ hs ?_ ht hobs).mpr ?_⟩
  · decide +kernel
  · decide +kernel
  · decide +kernel

/-- Two commits, the listing of a copy, a third commit, and the rest of the copy. -/
def appendAfterListing : List (ObservedAction (Fin 1)) :=
  (appends (0 : Fin 1) 2).map .run ++ [.read, .read] ++ (appends (0 : Fin 1) 1).map .run ++
    [.read, .read, .read]

/-- Whether a finished copy can be loaded. -/
def Cloner.loads : Cloner → Option Bool
  | .done _ dest => some (loadDocsAtWalCommit dest dest.storedMeta).isOk
  | _ => none

/-- The copy is reported as done and cannot be loaded. -/
theorem append_after_listing_breaks_copy :
    (observed "ns" (fun _ : Fin 1 => ()) (Cloner.read "ns" "copy")).Along
        Observed.AppendsSucceed ⟨.init .empty, .headMeta⟩ appendAfterListing ∧
      ((observed "ns" (fun _ : Fin 1 => ()) (Cloner.read "ns" "copy")).run
        ⟨.init .empty, .headMeta⟩ appendAfterListing).map (fun t => t.observer.loads)
        = some (some false) := by
  refine ⟨?_, ?_⟩
  · decide +kernel
  · decide +kernel

end OpenPuffer
