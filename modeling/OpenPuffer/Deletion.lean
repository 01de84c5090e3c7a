import OpenPuffer.Pinned
import OpenPuffer.Cluster.Clone

/-!
# Deleting a namespace

`delete_namespace` deletes every object under the namespace and drops the pinned view of its
own process.  The views of other processes stay.  The sequences of a re-created namespace start
at 1 again, so such a view takes new commits for old ones, or replays them over the old
documents.  A deletion erases the namespace for a process exactly if the process holds no view,
or one that has not seen a single entry.
-/

namespace OpenPuffer

open Option

/-! ## The objects -/

def namespaceExists (st : Store) : Bool :=
  st.metaJson.current.isSome || !(listAllS3Keys st).isEmpty

def Store.deleteObject (st : Store) : CloneKey → Store
  | .metaJson => { st with metaJson := ⟨none, st.metaJson.fresh, nofun⟩ }
  | .wal seq => st.setWal seq none
  | .snapshot => { st with snapshot := none }

/-- The objects left by `delete_namespace`.  The keys are sent in requests of a
thousand; nobody writes in between. -/
def deleteNamespace (st : Store) : Except String Store :=
  let hadNamespace := namespaceExists st
  let keys := listAllS3Keys st
  if keys.isEmpty && !hadNamespace then .error "namespace not found"
  else .ok (keys.foldl Store.deleteObject st)

/-- Whether an object is stored. -/
def Store.hasObject (st : Store) : CloneKey → Bool
  | .metaJson => st.metaJson.current.isSome
  | .wal seq => (st.wal seq).isSome
  | .snapshot => st.snapshot.isSome

theorem Store.hasObject_deleteObject (st : Store) (key k : CloneKey) :
    (st.deleteObject key).hasObject k = (decide (k ≠ key) && st.hasObject k) := by
  cases key with
  | metaJson => cases k <;> rfl
  | snapshot => cases k <;> rfl
  | wal seq =>
    cases k with
    | metaJson | snapshot => rfl
    | wal n => by_cases h : n = seq <;> simp [deleteObject, hasObject, h]

theorem Store.hasObject_deleteObjects (keys : List CloneKey) (st : Store) (k : CloneKey) :
    (keys.foldl deleteObject st).hasObject k = (decide (k ∉ keys) && st.hasObject k) := by
  induction keys generalizing st with
  | nil => simp
  | cons key keys ih =>
    rw [List.foldl_cons, ih, hasObject_deleteObject]
    by_cases h : k = key <;> simp [h]

/-- The listing of a namespace has all its objects. -/
theorem World.mem_listAllS3Keys (w : World) {k : CloneKey} (h : w.store.hasObject k = true) :
    k ∈ listAllS3Keys w.store := by
  have hobject := h
  cases k with
  | metaJson => simp [listAllS3Keys, show w.store.metaJson.current.isSome = true from h]
  | snapshot => simp [listAllS3Keys, show w.store.snapshot.isSome = true from h]
  | wal seq =>
    have hseq : 1 ≤ seq ∧ seq ≤ w.log.length := by
      change (entryAt w.log seq).isSome = true at h
      rw [entryAt] at h
      split at h
      · cases h
      · obtain ⟨e, he⟩ := isSome_iff_exists.mp h
        have hlt := (List.getElem?_eq_some_iff.mp he).1
        omega
    have hcommit : w.store.commitSeq = w.log.length := w.commit_eq
    have hmem : seq ∈ w.store.walSeqs := by
      rw [Store.walSeqs, List.mem_filter, List.mem_range'_1, hcommit]
      exact ⟨by omega, hobject⟩
    simp [listAllS3Keys, hmem]

theorem World.deleteNamespace_leaves_nothing {w : World} {st : Store}
    (h : deleteNamespace w.store = .ok st) (k : CloneKey) : st.hasObject k = false := by
  rw [deleteNamespace] at h
  split at h
  · cases h
  · cases h
    rw [Store.hasObject_deleteObjects]
    cases hobject : w.store.hasObject k with
    | false => exact Bool.and_false _
    | true => simp [w.mem_listAllS3Keys hobject]

/-- A namespace with nothing in it. -/
def World.erased : World := .ofLog [] (by decide)

/-! ## The processes -/

instance (t : ViewTask) : Decidable (t = .free) :=
  match t with
  | .free => isTrue rfl
  | .catchUp .. | .cold .. | .loaded _ => isFalse nofun

/-- What one process keeps for the namespace. -/
structure Slot where
  view : Option NamespaceView := none
  task : ViewTask := .free
  served : Option NamespaceMeta := none

/-- Processes that share the objects of a namespace. -/
structure Fleet (P : Type) where
  world : World
  slots : P → Slot

namespace Fleet

variable {P : Type}

/-- The machine of one process. -/
def pinned (s : Fleet P) (p : P) : Pinned :=
  ⟨s.world, (s.slots p).view, (s.slots p).task, (s.slots p).served⟩

/-- No process reads the namespace. -/
def AtRest (s : Fleet P) : Prop := ∀ p, (s.slots p).task = .free

instance [Fintype P] (s : Fleet P) : Decidable s.AtRest := inferInstanceAs (Decidable (∀ _, _))

/-- Nothing is pinned yet. -/
def init (P : Type) (w : World) : Fleet P := ⟨w, fun _ => {}⟩

variable [DecidableEq P]

/-- Process `p` moved. -/
def set (s : Fleet P) (p : P) (t : Pinned) : Fleet P where
  world := t.world
  slots := Function.update s.slots p ⟨t.view, t.task, t.served⟩

def step (s : Fleet P) (a : P × ViewAction) : Option (Fleet P) :=
  ((s.pinned a.1).step a.2).map (s.set a.1)

/-- The objects are gone, and with them the view of process `p`. -/
def erase (s : Fleet P) (p : P) : Fleet P where
  world := .erased
  slots := fun q =>
    { s.slots q with view := if q = p then none else (s.slots q).view, served := none }

/-- `delete_namespace` in process `p`. -/
def deleteNamespace (s : Fleet P) (p : P) : Except String (Fleet P) :=
  (OpenPuffer.deleteNamespace s.world.store).map fun _ => s.erase p

/-- The fleet goes on with the objects that the deletes leave, which are none. -/
theorem deleteNamespace_eq {s s' : Fleet P} {p : P} (h : s.deleteNamespace p = .ok s') :
    s' = s.erase p ∧ ∃ st, OpenPuffer.deleteNamespace s.world.store = .ok st ∧
      ∀ k, st.hasObject k = s'.world.store.hasObject k := by
  unfold deleteNamespace at h
  cases hst : OpenPuffer.deleteNamespace s.world.store with
  | error msg =>
    rw [hst] at h
    cases h
  | ok st =>
    rw [hst] at h
    obtain rfl := Except.ok.inj h
    refine ⟨rfl, st, rfl, fun k => ?_⟩
    rw [World.deleteNamespace_leaves_nothing hst k]
    cases k with
    | metaJson | snapshot => rfl
    | wal seq => cases seq <;> rfl

/-- No process applies a committed batch over a gap. -/
def NoGap (s : Fleet P) (a : P × ViewAction) : Prop := (s.pinned a.1).NoGap a.2

instance (s : Fleet P) (a : P × ViewAction) : Decidable (s.NoGap a) :=
  inferInstanceAs (Decidable ((s.pinned a.1).NoGap a.2))

end Fleet

/-- The machine of the processes. -/
def fleet (P : Type) [DecidableEq P] : Machine (Fleet P) (P × ViewAction) := ⟨Fleet.step⟩

section Runs

variable {P : Type} [DecidableEq P]

theorem World.Extends.refl (w : World) : w.Extends w := ⟨List.prefix_refl _, Nat.le_refl _⟩

/-- Only a commit moves the namespace. -/
theorem Pinned.Steps.extends {s s' : Pinned} {a : ViewAction} (h : s.Steps a s') :
    s.world.Extends s'.world := by
  cases h with
  | commit hext => exact hext
  | startStrong _ _ =>
    unfold Pinned.startStrong
    split <;> exact .refl _
  | startEventual _ =>
    unfold Pinned.startEventual
    split <;> exact .refl _
  | committed _ _ =>
    unfold Pinned.afterCommit
    split <;> exact .refl _
  | _ => exact .refl _

/-- What a process knows survives the commits of the others. -/
theorem PinnedInv.mono {s : Pinned} (h : PinnedInv s) {w : World} (hext : s.world.Extends w) :
    PinnedInv { s with world := w } := by
  refine ⟨fun v hv => (h.view v hv).mono hext.1, h.task.mono hext, ?_⟩
  intro m hm
  obtain ⟨hle, v, hv, hdocs⟩ := h.fresh m hm
  refine ⟨Nat.le_trans hle hext.1.length_le, v, hv, ?_⟩
  obtain ⟨more, hmore⟩ := hext.1
  rw [hdocs, ← hmore, List.take_append_of_le_length hle]

/-- Every process is on the log of the present life. -/
def FleetInv (s : Fleet P) : Prop := ∀ p, PinnedInv (s.pinned p)

variable {s : Fleet P} {v : NamespaceView}

theorem FleetInv.step {s' : Fleet P} {a : P × ViewAction} (h : FleetInv s) (hgap : s.NoGap a)
    (hstep : (fleet P).step s a = some s') : FleetInv s' := by
  obtain ⟨p, a⟩ := a
  obtain ⟨t, ht, rfl⟩ := map_eq_some_iff.mp hstep
  have hext := (Pinned.steps_of_step ht).extends
  intro q
  by_cases hq : q = p
  · subst hq
    have hset : (s.set q t).pinned q = t := by simp [Fleet.pinned, Fleet.set]
    rw [hset]
    exact (h q).step hgap ht
  · have hset : (s.set p t).pinned q = { s.pinned q with world := t.world } := by
      simp [Fleet.pinned, Fleet.set, Function.update_of_ne hq]
    rw [hset]
    exact (h q).mono hext

/-- A view that has not seen a single entry. -/
theorem NamespaceView.tracks_nil : v.Tracks [] ↔ v.lastAppliedWalSeq = 0 ∧ v.docs = ∅ := by
  simp [Tracks, replay]

def strongRead (q : P) : List (P × ViewAction) := [(q, .query .strong false), (q, .reads)]

theorem run_strongRead {q : P} {v' : NamespaceView} {b : Bool} (ht : (s.slots q).task = .free)
    (hv : (s.slots q).view = some v)
    (hcatch : NamespaceView.catchUp s.world.store s.world.read v = (v', .ok b)) :
    (fleet P).run s (strongRead q)
      = some (s.set q ⟨s.world, some v', .free, some s.world.read.metaOrDefault⟩) := by
  have hstart : (fleet P).step s (q, .query .strong false)
      = some (s.set q ⟨s.world, some v, .catchUp v true s.world.read, none⟩) := by
    simp [fleet, Fleet.step, Pinned.step, Fleet.pinned, ht, hv, Pinned.startStrong]
  have hreads : (fleet P).step (s.set q ⟨s.world, some v, .catchUp v true s.world.read, none⟩)
      (q, .reads) = some (s.set q ⟨s.world, some v', .free, some s.world.read.metaOrDefault⟩) := by
    simp [fleet, Fleet.step, Pinned.step, Fleet.pinned, Fleet.set, hcatch]
  rw [strongRead, Machine.run_cons, hstart, bind_some, Machine.run_cons, hreads]
  rfl

/-- What a strong read from a pinned view has to show. -/
theorem docs_of_strongRead_fresh {q : P} {v' : NamespaceView} {b : Bool}
    (ht : (s.slots q).task = .free) (hv : (s.slots q).view = some v)
    (hcatch : NamespaceView.catchUp s.world.store s.world.read v = (v', .ok b))
    (hfresh : ∀ u, (fleet P).run s (strongRead q) = some u → (u.pinned q).Fresh) :
    v'.docs = replay s.world.log := by
  obtain ⟨-, v₁, hv₁, hdocs⟩ := hfresh _ (run_strongRead ht hv hcatch)
    s.world.read.metaOrDefault (by simp [Fleet.pinned, Fleet.set])
  have heq : v' = v₁ := by simpa [Fleet.pinned, Fleet.set] using hv₁
  rw [heq, hdocs, s.world.commit_eq]
  exact congrArg replay List.take_length

/-- Every strong read of every later run sees the writes of the present life, and
nothing else. -/
def Fleet.StaysFresh (s : Fleet P) : Prop :=
  ∀ as u, (fleet P).Along Fleet.NoGap s as → (fleet P).Visits s as u → ∀ q, (u.pinned q).Fresh

/-- After a deletion, a view that has seen an entry serves it. -/
theorem Fleet.StaysFresh.tracks_nil (hfresh : s.StaysFresh) (hworld : s.world = .erased) {q : P}
    (ht : (s.slots q).task = .free) (hv : (s.slots q).view = some v) : v.Tracks [] := by
  have hdocs : v.docs = ∅ := by
    have hcatch : NamespaceView.catchUp s.world.store s.world.read v = (v, .ok false) := by
      rw [hworld]
      rfl
    have hshow : v.docs = replay s.world.log := by
      refine docs_of_strongRead_fresh ht hv hcatch fun u hu => ?_
      exact hfresh (strongRead q) u ⟨trivial, fun _ _ => ⟨trivial, fun _ _ => trivial⟩⟩
        (Machine.visits_end hu) q
    rw [hshow, hworld]
    rfl
  refine NamespaceView.tracks_nil.mpr ⟨?_, hdocs⟩
  by_contra hahead
  let w : World := .ofLog [oneDoc "a"] (by decide)
  let t := s.set q ⟨w, some v, .free, none⟩
  have hslot : t.slots q = ⟨some v, .free, none⟩ := Function.update_self ..
  have hcommit : (fleet P).step s (q, .commit w) = some t := by
    have hext : s.world.Extends w := by
      rw [hworld]
      decide
    simp [fleet, Fleet.step, Pinned.step, Fleet.pinned, hext, ht, hv, t]
  let v' : NamespaceView := { v with metadata := w.read.metaOrDefault, metaEtag := some 0 }
  have hcatch : NamespaceView.catchUp w.store w.read v = (v', .ok false) :=
    if_pos (Nat.pos_of_ne_zero hahead)
  have hshow : v'.docs = replay w.log := by
    refine docs_of_strongRead_fresh (s := t) (by rw [hslot]) (by rw [hslot]) hcatch fun u hu => ?_
    refine hfresh ((q, .commit w) :: strongRead q) u
      ⟨trivial, fun _ _ => ⟨trivial, fun _ _ => ⟨trivial, fun _ _ => trivial⟩⟩⟩
      ⟨_, [], (List.append_nil _).symm, ?_⟩ q
    rw [Machine.run_cons, hcommit]
    exact hu
  have hnew : (replay w.log).lookup "a" = none := by
    rw [← hshow]
    change v.docs.lookup "a" = none
    rw [hdocs]
    rfl
  revert hnew
  decide

/-- A deletion erases the namespace for every process exactly if no other process
holds a view that has seen an entry. -/
theorem delete_erases_iff {s s' : Fleet P} {p : P} (hrest : s.AtRest)
    (hdel : s.deleteNamespace p = .ok s') :
    s'.StaysFresh ↔
      ∀ q, q ≠ p → ∀ v ∈ (s.slots q).view, v.lastAppliedWalSeq = 0 ∧ v.docs = ∅ := by
  obtain ⟨rfl, -⟩ := Fleet.deleteNamespace_eq hdel
  constructor
  · intro hfresh q hq v hv
    have hview : ((s.erase p).slots q).view = some v := (if_neg hq).trans hv
    exact NamespaceView.tracks_nil.mp (hfresh.tracks_nil rfl (hrest q) hview)
  · intro hviews as u hgap hvisits q
    have hinit : FleetInv (s.erase p) := by
      intro q
      refine .of_unserved rfl ?_ ?_
      · intro v hv
        have hne : q ≠ p := by
          rintro rfl
          cases (if_pos rfl).symm.trans hv
        exact NamespaceView.tracks_nil.mpr (hviews q hne v ((if_neg hne).symm.trans hv))
      · change (s.slots q).task.Facts _
        rw [hrest q]
        trivial
    have hstep : ∀ s a s', FleetInv s → s.NoGap a → (fleet P).step s a = some s' → FleetInv s' :=
      fun _ _ _ hI hG hs => FleetInv.step hI hG hs
    exact (Machine.visits_invariant hstep hinit hgap hvisits q).fresh

end Runs

/-- Process `false` reads a namespace of two commits, process `true` does not. -/
def readOnce : Option (Fleet Bool) :=
  (fleet Bool).run (.init Bool (.ofLog [oneDoc "a", oneDoc "b"] two_docs_fit))
    [(false, .query .strong true), (false, .reads), (false, .fetch), (false, .reads)]

theorem Fleet.deleteNamespace_ok {P : Type} [DecidableEq P] {s : Fleet P} (p : P)
    (h : namespaceExists s.world.store = true) : s.deleteNamespace p = .ok (s.erase p) := by
  simp [Fleet.deleteNamespace, OpenPuffer.deleteNamespace, h, Except.map]

/-- The reader itself deletes the namespace. -/
theorem delete_by_reader_erases :
    ∃ s s', readOnce = some s ∧ s.deleteNamespace false = .ok s' ∧ s'.StaysFresh := by
  obtain ⟨s, hs, hrest, hexists, hview⟩ : ∃ s, readOnce = some s ∧ s.AtRest ∧
      namespaceExists s.world.store = true ∧ (s.slots true).view.isNone = true := by
    decide +kernel
  have hdel := Fleet.deleteNamespace_ok false hexists
  refine ⟨s, s.erase false, hs, hdel, (delete_erases_iff hrest hdel).mpr ?_⟩
  intro q hq v hv
  obtain rfl : q = true := by simpa using hq
  rw [isNone_iff_eq_none.mp hview] at hv
  cases hv

/-- The other process deletes the namespace, and it is created again with one
commit.  The reader is at sequence 2 and goes on to serve the old documents. -/
theorem delete_by_other_keeps_documents :
    ∃ s s' t v, readOnce = some s ∧ s.AtRest ∧ s.deleteNamespace true = .ok s' ∧
      (fleet Bool).run s' ((true, .commit (.ofLog [oneDoc "c"] (by decide))) :: strongRead false)
        = some t ∧ t.world.log = [oneDoc "c"] ∧ (t.slots false).view = some v ∧
      (t.slots false).served.map NamespaceMeta.walCommitSeq = some 1 ∧
      v.docs.lookup "a" ≠ none ∧ v.docs.lookup "c" = none ∧ ¬ (t.pinned false).Fresh := by
  have hend : (readOnce.bind fun s =>
      ((fleet Bool).run (s.erase true)
        ((true, .commit (.ofLog [oneDoc "c"] (by decide))) :: strongRead false)).map fun t =>
          (decide (s.AtRest ∧ namespaceExists s.world.store = true ∧ t.world.log = [oneDoc "c"] ∧
            (t.slots false).served.map NamespaceMeta.walCommitSeq = some 1),
          (t.slots false).view.map fun v =>
            ((v.docs.lookup "a").isNone, (v.docs.lookup "c").isNone)))
        = some (true, some (false, true)) := by
    decide +kernel
  obtain ⟨s, hs, hrun⟩ := bind_eq_some_iff.mp hend
  obtain ⟨t, ht, hshared⟩ := map_eq_some_iff.mp hrun
  obtain ⟨hfacts, hview⟩ := Prod.mk.inj hshared
  obtain ⟨hrest, hexists, hlog, hserved⟩ := of_decide_eq_true hfacts
  obtain ⟨v, hv, hdocs⟩ := map_eq_some_iff.mp hview
  obtain ⟨hold, hnew⟩ := Prod.mk.inj hdocs
  rw [isNone_iff_eq_none] at hnew
  have hkept : v.docs.lookup "a" ≠ none := by
    intro h
    simp [h] at hold
  refine ⟨s, s.erase true, t, v, hs, hrest, Fleet.deleteNamespace_ok true hexists, ht, hlog, hv,
    hserved, hkept, hnew, ?_⟩
  intro hfresh
  obtain ⟨m, hm, hseq⟩ := map_eq_some_iff.mp hserved
  obtain ⟨-, v', hv', hdocs⟩ := hfresh m hm
  obtain rfl : v = v' := some.inj (hv.symm.trans hv')
  change v.docs = replay (t.world.log.take m.walCommitSeq) at hdocs
  rw [hdocs, hlog, hseq] at hnew
  revert hnew
  decide +kernel

end OpenPuffer
