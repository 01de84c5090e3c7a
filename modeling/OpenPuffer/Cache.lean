import OpenPuffer.Schema
import OpenPuffer.Lib.Machine

/-!
# The disk cache of index segments

An object is cached in two files, one with its bytes and one with its entity tag.  `get_bytes`
serves the cached bytes if the store still has the tag, and otherwise fetches the object and
writes the two files, as `populate_after_put` does after a PUT.  If the file operations of two
calls overlap, the bytes of one version end up next to the tag of another.  Without such an
overlap every call returns bytes that were current while it ran.

This is the machine of one key.  Every file operation is one step.
-/

namespace OpenPuffer

open Option List Function

/-! ## Entity tags -/

/-- Without the quotes around it. -/
def normalizeEtag (etag : List Char) : List Char :=
  (etag.dropWhile (· = '"')).rdropWhile (· = '"')

theorem normalizeEtag_normalizeEtag (etag : List Char) :
    normalizeEtag (normalizeEtag etag) = normalizeEtag etag := by
  have hleft : ∀ {p : Char → Bool} {l : List Char},
      ((l.dropWhile p).rdropWhile p).dropWhile p = (l.dropWhile p).rdropWhile p := by
    intro p l
    have hpre := rdropWhile_prefix p (l.dropWhile p)
    refine dropWhile_eq_self_iff.mpr fun hpos => ?_
    rw [hpre.getElem hpos]
    exact dropWhile_eq_self_iff.mp (dropWhile_idempotent p l) _
  unfold normalizeEtag
  rw [hleft, rdropWhile_idempotent]

/-- The tag in a sidecar file, as `read_local` reads it. -/
def sidecarEtag (raw : List Char) : Option (List Char) :=
  let etag := normalizeEtag (trim raw)
  if etag = [] then none else some etag

/-- The cached bytes, if they have the tag of the store. -/
def localMatchesEtag {B : Type} (cached : Option (B × List Char))
    (remoteEtag : Option (List Char)) : Option B := do
  let (bytes, localEtag) ← cached
  let remote := normalizeEtag (← remoteEtag)
  if localEtag = remote then some bytes else none

structure ObjectVersion (B : Type) where
  bytes : B
  etag : Option (List Char)
deriving DecidableEq

/-- The sidecar of `v` is taken for the tag of `w` only if the contents are the
same. -/
def ObjectVersion.Tells {B : Type} (v w : ObjectVersion B) : Prop :=
  ∀ e ∈ v.etag, ∀ f ∈ w.etag, sidecarEtag (normalizeEtag e) = some (normalizeEtag f) →
    v.bytes = w.bytes

instance {B : Type} [DecidableEq B] (v w : ObjectVersion B) : Decidable (v.Tells w) :=
  inferInstanceAs (Decidable (∀ e ∈ v.etag, ∀ f ∈ w.etag, _ → _))

/-! ## The machine -/

/-- How far a call is.  Both kinds of calls write the files in the same way, with
the bytes they return. -/
inductive CacheCall (B : Type) where
  | idle
  | readBytes
  | readEtag (bytes : B)
  | head (cached : Option (B × List Char))
  | get
  | writeBytes (bytes : B) (etag : List Char) (result : Option B)
  | writeEtag (etag : List Char) (result : Option B)
  | done (result : Option B)
  | failed
deriving DecidableEq

namespace CacheCall

variable {B : Type}

/-- Between the two writes of `write_local`. -/
def midWrite : CacheCall B → Bool
  | .writeEtag .. => true
  | _ => false

/-- Between two file operations that belong together. -/
def between : CacheCall B → Bool
  | .readEtag _ | .writeEtag .. => true
  | _ => false

def ended : CacheCall B → Bool
  | .done _ | .failed => true
  | _ => false

/-- Write the object to the cache, if it has a tag and there is a cache. -/
def writeLocal (enabled : Bool) (bytes : B) (etag : Option (List Char)) (result : Option B) :
    CacheCall B :=
  match etag with
  | some etag => if enabled then .writeBytes bytes etag result else .done result
  | none => .done result

/-- The reply to HEAD.  An object without a tag counts as missing. -/
def afterHead (cached : Option (B × List Char)) (current : Option (ObjectVersion B)) :
    CacheCall B :=
  match current.bind fun v => v.etag.map normalizeEtag with
  | some remoteEtag =>
    match localMatchesEtag cached (some remoteEtag) with
    | some bytes => .done (some bytes)
    | none => .get
  | none => .done none

def afterGet (enabled : Bool) (current : Option (ObjectVersion B)) : CacheCall B :=
  match current with
  | some v => writeLocal enabled v.bytes (v.etag.map normalizeEtag) (some v.bytes)
  | none => .done none

end CacheCall

/-- The object, the two files and the calls. -/
structure DiskCache (C B : Type) where
  current : Option (ObjectVersion B)
  /-- Every version so far. -/
  history : List (ObjectVersion B)
  bytesFile : Option B
  etagFile : Option (List Char)
  calls : C → CacheCall B
  /-- The versions that were current while a call was under way. -/
  window : C → List (ObjectVersion B)

/-- A file operation may fail, and so may a request. -/
inductive CacheAction (C B : Type) where
  | put (v : ObjectVersion B)
  | delete
  | getBytes (c : C)
  | populateAfterPut (c : C) (v : ObjectVersion B)
  | readBytes (c : C) (ok : Bool)
  | readEtag (c : C) (ok : Bool)
  | head (c : C) (ok : Bool)
  | get (c : C) (ok : Bool)
  | writeBytes (c : C) (ok : Bool)
  | writeEtag (c : C) (ok : Bool)
  | invalidateKey
  | invalidateNamespace

namespace DiskCache

variable {C B : Type}

def init : DiskCache C B := ⟨none, [], none, none, fun _ => .idle, fun _ => []⟩

/-- A PUT or a DELETE of the object. -/
def publish (s : DiskCache C B) (v : Option (ObjectVersion B)) : DiskCache C B :=
  { s with
    current := v
    history := v.toList ++ s.history
    window := fun c => if (s.calls c).ended then s.window c else v.toList ++ s.window c }

variable [DecidableEq C]

def setCall (s : DiskCache C B) (c : C) (p : CacheCall B) : DiskCache C B :=
  { s with calls := Function.update s.calls c p }

def start (s : DiskCache C B) (c : C) (p : CacheCall B) : DiskCache C B :=
  { s with window := Function.update s.window c s.current.toList }.setCall c p

variable [DecidableEq B]

def step (enabled : Bool) (s : DiskCache C B) : CacheAction C B → Option (DiskCache C B)
  | .put v => some (s.publish (some v))
  | .delete => some (s.publish none)
  | .getBytes c =>
    match s.calls c with
    | .idle => some (s.start c (if enabled then .readBytes else .get))
    | _ => none
  | .populateAfterPut c v =>
    match s.calls c with
    | .idle =>
      if v ∈ s.history then some (s.start c (.writeLocal enabled v.bytes v.etag none)) else none
    | _ => none
  | .readBytes c ok =>
    match s.calls c, s.bytesFile with
    | .readBytes, some bytes => some (s.setCall c (if ok then .readEtag bytes else .head none))
    | .readBytes, none => some (s.setCall c (.head none))
    | _, _ => none
  | .readEtag c ok =>
    match s.calls c with
    | .readEtag bytes =>
      let raw := if ok then s.etagFile else none
      some (s.setCall c (.head ((raw.bind sidecarEtag).map (bytes, ·))))
    | _ => none
  | .head c ok =>
    match s.calls c with
    | .head cached =>
      some (s.setCall c (if ok then .afterHead cached s.current else .failed))
    | _ => none
  | .get c ok =>
    match s.calls c with
    | .get => some (s.setCall c (if ok then .afterGet enabled s.current else .failed))
    | _ => none
  | .writeBytes c ok =>
    match s.calls c with
    | .writeBytes bytes etag result =>
      if ok then some ({ s with bytesFile := some bytes }.setCall c (.writeEtag etag result))
      else some (s.setCall c (.done result))
    | _ => none
  | .writeEtag c ok =>
    match s.calls c with
    | .writeEtag etag result =>
      if ok then
        some ({ s with etagFile := some (normalizeEtag etag) }.setCall c (.done result))
      else some (s.setCall c (.done result))
    | _ => none
  | .invalidateKey => some { s with bytesFile := none }
  | .invalidateNamespace => some { s with bytesFile := none, etagFile := none }

end DiskCache

def diskCache (C B : Type) [DecidableEq C] [DecidableEq B] (enabled : Bool) :
    Machine (DiskCache C B) (CacheAction C B) := ⟨DiskCache.step enabled⟩

namespace DiskCache

variable {C B : Type}

/-- Every call that returned bytes returned those of a version that was current
while the call was under way. -/
def ServesCurrent (s : DiskCache C B) : Prop :=
  ∀ c bytes, s.calls c = .done (some bytes) → ∃ v ∈ s.window c, v.bytes = bytes

/-- Distinct contents have distinct tags. -/
def Tagged (s : DiskCache C B) : CacheAction C B → Prop
  | .put v => ∀ w ∈ v :: s.history, v.Tells w ∧ w.Tells v
  | _ => True

/-- The file operations of two calls do not overlap, and a tag is written if its
bytes are. -/
def Undisturbed (s : DiskCache C B) : CacheAction C B → Prop
  | .readBytes c _ => ∀ d, d ≠ c → (s.calls d).midWrite = false
  | .writeBytes c _ => ∀ d, d ≠ c → (s.calls d).between = false
  | .writeEtag _ ok => ok = true
  | _ => True

instance [DecidableEq B] (s : DiskCache C B) (a : CacheAction C B) : Decidable (s.Tagged a) :=
  match a with
  | .put v => inferInstanceAs (Decidable (∀ w ∈ v :: s.history, v.Tells w ∧ w.Tells v))
  | .delete | .getBytes _ | .populateAfterPut _ _ | .readBytes _ _ | .readEtag _ _ | .head _ _
  | .get _ _ | .writeBytes _ _ | .writeEtag _ _ | .invalidateKey | .invalidateNamespace =>
    isTrue trivial

instance [Fintype C] [DecidableEq C] (s : DiskCache C B) (a : CacheAction C B) :
    Decidable (s.Undisturbed a) :=
  match a with
  | .readBytes c _ => inferInstanceAs (Decidable (∀ d, d ≠ c → (s.calls d).midWrite = false))
  | .writeBytes c _ => inferInstanceAs (Decidable (∀ d, d ≠ c → (s.calls d).between = false))
  | .writeEtag _ ok => inferInstanceAs (Decidable (ok = true))
  | .put _ | .delete | .getBytes _ | .populateAfterPut _ _ | .readEtag _ _ | .head _ _
  | .get _ _ | .invalidateKey | .invalidateNamespace => isTrue trivial

/-! ## The invariant -/

/-- The bytes and the sidecar are those of one version. -/
def Paired (s : DiskCache C B) (bytes : B) (raw : List Char) : Prop :=
  ∃ v ∈ s.history, v.bytes = bytes ∧ ∃ etag ∈ v.etag, normalizeEtag etag = raw

/-- The current version is in the window of the call. -/
def Watches (s : DiskCache C B) (c : C) : Prop := ∀ v ∈ s.current, v ∈ s.window c

/-- What the call returns was current while it was under way. -/
def Returns (s : DiskCache C B) (c : C) (result : Option B) : Prop :=
  ∀ bytes ∈ result, ∃ v ∈ s.window c, v.bytes = bytes

/-- What a call knows. -/
def Facts (s : DiskCache C B) (c : C) : CacheCall B → Prop
  | .idle | .failed => True
  | .readBytes | .get => s.Watches c
  | .readEtag bytes => s.Watches c ∧ ∀ raw ∈ s.etagFile, s.Paired bytes raw
  | .head cached =>
    s.Watches c ∧ ∀ bytes etag, cached = some (bytes, etag) →
      ∃ raw, s.Paired bytes raw ∧ sidecarEtag raw = some etag
  | .writeBytes bytes etag result => s.Paired bytes (normalizeEtag etag) ∧ s.Returns c result
  | .writeEtag etag result =>
    (∀ bytes ∈ s.bytesFile, s.Paired bytes (normalizeEtag etag)) ∧ s.Returns c result
  | .done result => s.Returns c result

end DiskCache

structure CacheInv {C B : Type} (s : DiskCache C B) : Prop where
  current : ∀ v ∈ s.current, v ∈ s.history
  tells : ∀ v ∈ s.history, ∀ w ∈ s.history, v.Tells w
  facts : ∀ c, s.Facts c (s.calls c)
  /-- A call between its two writes is alone with the files. -/
  alone : ∀ c d, (s.calls c).midWrite = true → (s.calls d).between = true → c = d
  files : (∀ c, (s.calls c).midWrite = false) →
    ∀ bytes ∈ s.bytesFile, ∀ raw ∈ s.etagFile, s.Paired bytes raw

namespace DiskCache

variable {C B : Type} {s : DiskCache C B}

variable {s' : DiskCache C B}

theorem Paired.mono {bytes : B} {raw : List Char} (h : s.Paired bytes raw)
    (hsub : s.history ⊆ s'.history) : s'.Paired bytes raw := by
  obtain ⟨v, hv, hrest⟩ := h
  exact ⟨v, hsub hv, hrest⟩

theorem Returns.mono {c : C} {result : Option B} (h : s.Returns c result)
    (hsub : s.window c ⊆ s'.window c) : s'.Returns c result := by
  intro bytes hbytes
  obtain ⟨v, hv, heq⟩ := h bytes hbytes
  exact ⟨v, hsub hv, heq⟩

theorem returns_none (s : DiskCache C B) (c : C) : s.Returns c none := by
  intro bytes h
  cases h

theorem watches_publish (s : DiskCache C B) (v : Option (ObjectVersion B)) {c : C}
    (h : (s.calls c).ended = false) : (s.publish v).Watches c := by
  intro w hw
  have hwindow : (s.publish v).window c = v.toList ++ s.window c := if_neg (by simp [h])
  rw [hwindow]
  exact mem_append_left _ (mem_toList.mpr hw)

/-- What a call knows survives a new version of the object. -/
theorem facts_publish {c : C} (v : Option (ObjectVersion B)) (h : s.Facts c (s.calls c)) :
    (s.publish v).Facts c ((s.publish v).calls c) := by
  have hhistory : s.history ⊆ (s.publish v).history := subset_append_right _ _
  have hwindow : s.window c ⊆ (s.publish v).window c := by
    intro w hw
    change w ∈ if (s.calls c).ended then s.window c else v.toList ++ s.window c
    split
    · exact hw
    · exact mem_append_right _ hw
  change (s.publish v).Facts c (s.calls c)
  cases hcall : s.calls c with
  | idle | failed => trivial
  | readBytes | get => exact s.watches_publish v (by rw [hcall]; rfl)
  | readEtag bytes =>
    rw [hcall] at h
    exact ⟨s.watches_publish v (by rw [hcall]; rfl), fun raw hraw => (h.2 raw hraw).mono hhistory⟩
  | head cached =>
    rw [hcall] at h
    refine ⟨s.watches_publish v (by rw [hcall]; rfl), fun bytes etag hcached => ?_⟩
    obtain ⟨raw, hpaired, hetag⟩ := h.2 bytes etag hcached
    exact ⟨raw, hpaired.mono hhistory, hetag⟩
  | writeBytes bytes etag result =>
    rw [hcall] at h
    exact ⟨h.1.mono hhistory, h.2.mono hwindow⟩
  | writeEtag etag result =>
    rw [hcall] at h
    exact ⟨fun bytes hbytes => (h.1 bytes hbytes).mono hhistory, h.2.mono hwindow⟩
  | done result =>
    rw [hcall] at h
    exact Returns.mono h hwindow

/-- What a call knows depends on the files only between two file operations. -/
theorem Facts.congr {c : C} {q : CacheCall B} (h : s.Facts c q)
    (hcurrent : s'.current = s.current) (hhistory : s'.history = s.history)
    (hwindow : s'.window c = s.window c)
    (hbytes : q.midWrite = true → ∀ bytes ∈ s'.bytesFile, bytes ∈ s.bytesFile)
    (hetag : q.between = true → q.midWrite = false → ∀ raw ∈ s'.etagFile, raw ∈ s.etagFile) :
    s'.Facts c q := by
  have hpaired : s'.Paired = s.Paired := by
    funext bytes raw
    rw [Paired, Paired, hhistory]
  have hwatches : s'.Watches c = s.Watches c := by rw [Watches, Watches, hcurrent, hwindow]
  have hreturns : s'.Returns c = s.Returns c := by
    funext result
    rw [Returns, Returns, hwindow]
  cases q with
  | idle | failed => trivial
  | readBytes | get =>
    rw [Facts, hwatches]
    exact h
  | readEtag bytes =>
    rw [Facts, hwatches, hpaired]
    exact ⟨h.1, fun raw hraw => h.2 raw (hetag rfl rfl raw hraw)⟩
  | head cached =>
    rw [Facts, hwatches, hpaired]
    exact h
  | writeBytes bytes etag result =>
    rw [Facts, hpaired, hreturns]
    exact h
  | writeEtag etag result =>
    rw [Facts, hpaired, hreturns]
    exact ⟨fun bytes hmem => h.1 bytes (hbytes rfl bytes hmem), h.2⟩
  | done result =>
    rw [Facts, hreturns]
    exact h

theorem between_of_midWrite {q : CacheCall B} (h : q.midWrite = true) : q.between = true := by
  cases q with
  | writeEtag _ _ => rfl
  | _ => cases h

end DiskCache

namespace CacheInv

variable {C B : Type} {s : DiskCache C B}

theorem init : CacheInv (DiskCache.init : DiskCache C B) := by
  refine ⟨?_, ?_, fun _ => trivial, ?_, ?_⟩
  · intro v hv
    cases hv
  · intro v hv
    cases hv
  · intro c d hc
    cases hc
  · intro _ bytes hbytes
    cases hbytes

theorem publish (h : CacheInv s) (v : Option (ObjectVersion B))
    (htold : ∀ w ∈ v, ∀ w' ∈ w :: s.history, w.Tells w' ∧ w'.Tells w) :
    CacheInv (s.publish v) := by
  have hold : s.history ⊆ (s.publish v).history := subset_append_right _ _
  refine ⟨?_, ?_, fun c => DiskCache.facts_publish v (h.facts c), h.alone, ?_⟩
  · intro w hw
    exact mem_append_left _ (mem_toList.mpr hw)
  · intro w hw w' hw'
    rcases mem_append.mp hw with hnew | hw
    · have hmem : w' ∈ w :: s.history := by
        rcases mem_append.mp hw' with hnew' | hw'
        · rw [mem_unique (mem_toList.mp hnew') (mem_toList.mp hnew)]
          exact mem_cons_self
        · exact mem_cons_of_mem _ hw'
      exact (htold w (mem_toList.mp hnew) w' hmem).1
    · rcases mem_append.mp hw' with hnew' | hw'
      · exact (htold w' (mem_toList.mp hnew') w (mem_cons_of_mem _ hw)).2
      · exact h.tells w hw w' hw'
  · intro hfree bytes hbytes raw hraw
    exact (h.files hfree bytes hbytes raw hraw).mono hold

/-- Files that go away. -/
theorem drop (h : CacheInv s) {bytesFile : Option B} {etagFile : Option (List Char)}
    (hbytes : ∀ bytes ∈ bytesFile, bytes ∈ s.bytesFile)
    (hetag : ∀ raw ∈ etagFile, raw ∈ s.etagFile) :
    CacheInv { s with bytesFile, etagFile } := by
  refine ⟨h.current, h.tells, ?_, h.alone, ?_⟩
  · exact fun c => (h.facts c).congr rfl rfl rfl (fun _ => hbytes) fun _ _ => hetag
  · intro hfree bytes hmem raw hraw
    exact h.files hfree bytes (hbytes bytes hmem) raw (hetag raw hraw)

variable {enabled : Bool} {c : C} {result : Option B} {cached : Option (B × List Char)}
  {p : CacheCall B}

theorem facts_writeLocal {v : ObjectVersion B} {etag : Option (List Char)}
    (hpaired : ∀ e ∈ etag, s.Paired v.bytes (normalizeEtag e)) (hreturns : s.Returns c result) :
    s.Facts c (.writeLocal enabled v.bytes etag result) := by
  cases etag with
  | none => exact hreturns
  | some e =>
    cases enabled with
    | true => exact ⟨hpaired e rfl, hreturns⟩
    | false => exact hreturns

theorem between_writeLocal {bytes : B} {etag : Option (List Char)} :
    (CacheCall.writeLocal enabled bytes etag result).between = false := by
  cases etag with
  | none => rfl
  | some e => cases enabled <;> rfl

/-- A match means that the cached tag is the one of the store. -/
theorem eq_of_localMatchesEtag {remote : List Char} {bytes : B}
    (h : localMatchesEtag cached (some remote) = some bytes) :
    cached = some (bytes, normalizeEtag remote) := by
  cases cached with
  | none => cases h
  | some pair =>
    obtain ⟨bytes', etag⟩ := pair
    simp only [localMatchesEtag, bind_eq_bind, bind_some] at h
    split at h
    · rename_i heq
      cases h
      rw [heq]
    · cases h

/-- The tag of the store vouches for cached bytes that came with their own tag. -/
theorem facts_afterHead (h : CacheInv s) (hfacts : s.Facts c (.head cached)) :
    s.Facts c (.afterHead cached s.current) := by
  obtain ⟨hwatches, hcached⟩ := hfacts
  unfold CacheCall.afterHead
  cases hcurrent : s.current with
  | none => exact s.returns_none c
  | some w =>
    cases hetag : w.etag with
    | none =>
      simp only [bind_some, hetag]
      exact s.returns_none c
    | some f =>
      simp only [bind_some, hetag, map_some]
      cases hmatch : localMatchesEtag cached (some (normalizeEtag f)) with
      | none => exact hwatches
      | some bytes =>
        have hpair := eq_of_localMatchesEtag hmatch
        rw [normalizeEtag_normalizeEtag] at hpair
        obtain ⟨raw, ⟨v, hv, hbytes, e, he, rfl⟩, hside⟩ := hcached bytes _ hpair
        have hsame : v.bytes = w.bytes :=
          h.tells v hv w (h.current w hcurrent) e he f hetag hside
        rintro _ ⟨⟩
        exact ⟨w, hwatches w hcurrent, hsame.symm.trans hbytes⟩

theorem between_afterHead {current : Option (ObjectVersion B)} :
    (CacheCall.afterHead cached current).between = false := by
  unfold CacheCall.afterHead
  split
  · split <;> rfl
  · rfl

theorem facts_afterGet (h : CacheInv s) (hfacts : s.Facts c .get) :
    s.Facts c (.afterGet enabled s.current) := by
  cases hcurrent : s.current with
  | none => exact s.returns_none c
  | some w =>
    refine facts_writeLocal ?_ ?_
    · intro e he
      obtain ⟨f, hf, rfl⟩ := map_eq_some_iff.mp he
      exact ⟨w, h.current w hcurrent, rfl, f, hf, (normalizeEtag_normalizeEtag f).symm⟩
    · rintro _ ⟨⟩
      exact ⟨w, hfacts w hcurrent, rfl⟩

theorem between_afterGet {current : Option (ObjectVersion B)} :
    (CacheCall.afterGet enabled current).between = false := by
  unfold CacheCall.afterGet
  split
  · exact between_writeLocal
  · rfl

variable [DecidableEq C]

section

variable (h : CacheInv s)

include h

/-- A call moves on and is not between its two writes then. -/
theorem setCall (hfacts : s.Facts c p) (hwrite : p.midWrite = false)
    (halone : p.between = true → ∀ d, d ≠ c → (s.calls d).midWrite = false)
    (hfiles : (s.calls c).midWrite = true →
      ∀ bytes ∈ s.bytesFile, ∀ raw ∈ s.etagFile, s.Paired bytes raw) :
    CacheInv (s.setCall c p) := by
  have hself : (s.setCall c p).calls c = p := update_self ..
  have hother : ∀ d, d ≠ c → (s.setCall c p).calls d = s.calls d :=
    fun d hd => update_of_ne hd ..
  have hmid : ∀ d, ((s.setCall c p).calls d).midWrite = true →
      d ≠ c ∧ (s.calls d).midWrite = true := by
    intro d hd
    by_cases hdc : d = c
    · rw [hdc, hself, hwrite] at hd
      cases hd
    · rw [hother d hdc] at hd
      exact ⟨hdc, hd⟩
  refine ⟨h.current, h.tells, ?_, ?_, ?_⟩
  · intro d
    by_cases hd : d = c
    · rw [hd, hself]
      exact hfacts.congr rfl rfl rfl (fun _ _ => id) fun _ _ _ => id
    · rw [hother d hd]
      exact (h.facts d).congr rfl rfl rfl (fun _ _ => id) fun _ _ _ => id
  · intro d e hd he
    obtain ⟨hdc, hd⟩ := hmid d hd
    by_cases hec : e = c
    · rw [hec, hself] at he
      exact absurd hd (by rw [halone he d hdc]; exact Bool.false_ne_true)
    · rw [hother e hec] at he
      exact h.alone d e hd he
  · intro hfree
    by_cases hc : (s.calls c).midWrite = true
    · exact hfiles hc
    · refine h.files fun d => ?_
      by_cases hdc : d = c
      · rw [hdc]
        exact Bool.eq_false_of_not_eq_true hc
      · rw [← hother d hdc]
        exact hfree d

/-- A call that is not between its two writes moves on to where it is not between
two file operations. -/
theorem setCall_plain (hfacts : s.Facts c p) (hp : p.between = false)
    (hc : (s.calls c).midWrite = false) : CacheInv (s.setCall c p) := by
  refine h.setCall hfacts ?_ ?_ ?_
  · refine Bool.eq_false_of_not_eq_true fun hmid => ?_
    rw [DiskCache.between_of_midWrite hmid] at hp
    cases hp
  · intro hbetween
    rw [hp] at hbetween
    cases hbetween
  · intro hmid
    rw [hc] at hmid
    cases hmid

theorem start (hidle : s.calls c = .idle)
    (hfacts : DiskCache.Facts { s with window := Function.update s.window c s.current.toList } c p)
    (hp : p.between = false) : CacheInv (s.start c p) := by
  have hopened : CacheInv { s with window := update s.window c s.current.toList } := by
    refine ⟨h.current, h.tells, ?_, h.alone, h.files⟩
    intro d
    by_cases hd : d = c
    · change DiskCache.Facts _ d (s.calls d)
      rw [hd, hidle]
      trivial
    · exact (h.facts d).congr rfl rfl (update_of_ne hd ..) (fun _ _ => id) fun _ _ _ => id
  refine hopened.setCall_plain hfacts hp ?_
  change (s.calls c).midWrite = false
  rw [hidle]
  rfl

/-- The first write of `write_local`.  Nobody else is between two file operations. -/
theorem writeBytes {bytes : B} {etag : List Char}
    (hcall : s.calls c = .writeBytes bytes etag result)
    (hfree : ∀ d, d ≠ c → (s.calls d).between = false) :
    CacheInv ({ s with bytesFile := some bytes }.setCall c (.writeEtag etag result)) := by
  have hfacts : s.Facts c (.writeBytes bytes etag result) := hcall ▸ h.facts c
  let s' := { s with bytesFile := some bytes }.setCall c (.writeEtag etag result)
  have hself : s'.calls c = .writeEtag etag result := update_self ..
  have hother : ∀ d, d ≠ c → s'.calls d = s.calls d := fun d hd => update_of_ne hd ..
  have honly : ∀ d, (s'.calls d).between = true → d = c := by
    intro d hd
    by_contra hne
    rw [hother d hne, hfree d hne] at hd
    cases hd
  refine ⟨h.current, h.tells, ?_, ?_, ?_⟩
  · intro d
    by_cases hd : d = c
    · rw [hd, hself]
      refine ⟨?_, hfacts.2⟩
      rintro _ ⟨⟩
      exact hfacts.1
    · rw [hother d hd]
      refine (h.facts d).congr rfl rfl rfl ?_ fun _ _ _ => id
      intro hmid
      have hbetween := (DiskCache.between_of_midWrite hmid).symm.trans (hfree d hd)
      cases hbetween
  · intro d e hd he
    rw [honly d (DiskCache.between_of_midWrite hd), honly e he]
  · intro hfree'
    have hmid := hfree' c
    rw [hself] at hmid
    cases hmid

/-- The second write of `write_local` puts the tag next to its bytes. -/
theorem writeEtag {etag : List Char} (hcall : s.calls c = .writeEtag etag result) :
    CacheInv ({ s with etagFile := some (normalizeEtag etag) }.setCall c (.done result)) := by
  have hfacts : s.Facts c (.writeEtag etag result) := hcall ▸ h.facts c
  have hmid : (s.calls c).midWrite = true := by rw [hcall]; rfl
  have hwritten : ∀ bytes ∈ s.bytesFile, ∀ raw ∈ some (normalizeEtag etag), s.Paired bytes raw := by
    rintro bytes hbytes _ ⟨⟩
    exact hfacts.1 bytes hbytes
  have hput : CacheInv { s with etagFile := some (normalizeEtag etag) } := by
    refine ⟨h.current, h.tells, ?_, h.alone, fun _ => hwritten⟩
    intro d
    refine (h.facts d).congr rfl rfl rfl (fun _ _ => id) ?_
    intro hbetween hnot
    rw [← h.alone c d hmid hbetween, hmid] at hnot
    cases hnot
  refine hput.setCall ?_ rfl ?_ fun _ => hwritten
  · exact hfacts.2
  · intro hbetween
    cases hbetween

omit [DecidableEq C] in
theorem facts_of_call {p : CacheCall B} (hcall : s.calls c = p) : s.Facts c p := hcall ▸ h.facts c

section Actions

variable [DecidableEq B] {s' : DiskCache C B} {ok : Bool}

theorem step_getBytes (hstep : s.step enabled (.getBytes c) = some s') : CacheInv s' := by
  simp only [DiskCache.step] at hstep
  split at hstep
  · rename_i hidle
    cases hstep
    have hwatches : DiskCache.Watches
        { s with window := update s.window c s.current.toList } c := by
      intro v hv
      change v ∈ update s.window c s.current.toList c
      rw [update_self]
      exact mem_toList.mpr hv
    cases enabled with
    | true => exact h.start hidle hwatches rfl
    | false => exact h.start hidle hwatches rfl
  · cases hstep

theorem step_populateAfterPut {v : ObjectVersion B}
    (hstep : s.step enabled (.populateAfterPut c v) = some s') : CacheInv s' := by
  simp only [DiskCache.step] at hstep
  split at hstep
  · rename_i hidle
    split at hstep
    · rename_i hmem
      cases hstep
      refine h.start hidle (facts_writeLocal ?_ (DiskCache.returns_none _ c)) between_writeLocal
      intro e he
      exact ⟨v, hmem, rfl, e, he, rfl⟩
    · cases hstep
  · cases hstep

theorem step_readBytes (hfree : s.Undisturbed (.readBytes c ok))
    (hstep : s.step enabled (.readBytes c ok) = some s') : CacheInv s' := by
  simp only [DiskCache.step] at hstep
  have hmiss : s.calls c = .readBytes → CacheInv (s.setCall c (.head none)) := by
    intro hcall
    exact h.setCall_plain ⟨h.facts_of_call hcall, nofun⟩ rfl (by rw [hcall]; rfl)
  split at hstep
  · rename_i bytes hcall hbytes
    cases hstep
    cases ok with
    | false => exact hmiss hcall
    | true =>
      have hnone : ∀ d, (s.calls d).midWrite = false := by
        intro d
        by_cases hd : d = c
        · rw [hd, hcall]
          rfl
        · exact hfree d hd
      refine h.setCall ⟨h.facts_of_call hcall, h.files hnone bytes hbytes⟩ rfl (fun _ => hfree) ?_
      intro hmid
      rw [hcall] at hmid
      cases hmid
  · rename_i hcall _
    cases hstep
    exact hmiss hcall
  · cases hstep

theorem step_readEtag (hstep : s.step enabled (.readEtag c ok) = some s') : CacheInv s' := by
  simp only [DiskCache.step] at hstep
  split at hstep
  · rename_i bytes hcall
    cases hstep
    obtain ⟨hwatches, hpaired⟩ := h.facts_of_call hcall
    refine h.setCall_plain ⟨hwatches, ?_⟩ rfl (by rw [hcall]; rfl)
    intro bytes' etag hcached
    obtain ⟨etag', hetag, hpair⟩ := map_eq_some_iff.mp hcached
    cases hpair
    obtain ⟨raw, hraw, hside⟩ := bind_eq_some_iff.mp hetag
    refine ⟨raw, hpaired raw ?_, hside⟩
    cases ok with
    | true => exact hraw
    | false => cases hraw
  · cases hstep

theorem step_head (hstep : s.step enabled (.head c ok) = some s') : CacheInv s' := by
  simp only [DiskCache.step] at hstep
  split at hstep
  · rename_i cached hcall
    cases hstep
    cases ok with
    | true =>
      exact h.setCall_plain (h.facts_afterHead (h.facts_of_call hcall)) between_afterHead
        (by rw [hcall]; rfl)
    | false => exact h.setCall_plain trivial rfl (by rw [hcall]; rfl)
  · cases hstep

theorem step_get (hstep : s.step enabled (.get c ok) = some s') : CacheInv s' := by
  simp only [DiskCache.step] at hstep
  split at hstep
  · rename_i hcall
    cases hstep
    cases ok with
    | true =>
      exact h.setCall_plain (h.facts_afterGet (h.facts_of_call hcall)) between_afterGet
        (by rw [hcall]; rfl)
    | false => exact h.setCall_plain trivial rfl (by rw [hcall]; rfl)
  · cases hstep

theorem step_writeBytes (hfree : s.Undisturbed (.writeBytes c ok))
    (hstep : s.step enabled (.writeBytes c ok) = some s') : CacheInv s' := by
  simp only [DiskCache.step] at hstep
  split at hstep
  · rename_i bytes etag result hcall
    cases ok with
    | true =>
      cases hstep
      exact h.writeBytes hcall hfree
    | false =>
      cases hstep
      exact h.setCall_plain (h.facts_of_call hcall).2 rfl (by rw [hcall]; rfl)
  · cases hstep

theorem step_writeEtag (hfree : s.Undisturbed (.writeEtag c ok))
    (hstep : s.step enabled (.writeEtag c ok) = some s') : CacheInv s' := by
  simp only [DiskCache.step] at hstep
  split at hstep
  · rename_i etag result hcall
    obtain rfl : ok = true := hfree
    cases hstep
    exact h.writeEtag hcall
  · cases hstep

theorem step {a : CacheAction C B} (htagged : s.Tagged a) (hfree : s.Undisturbed a)
    (hstep : (diskCache C B enabled).step s a = some s') : CacheInv s' := by
  change s.step enabled a = some s' at hstep
  cases a with
  | put v =>
    cases hstep
    refine h.publish (some v) ?_
    rintro w ⟨⟩
    exact htagged
  | delete =>
    cases hstep
    exact h.publish none (fun _ hw => nomatch hw)
  | getBytes => exact h.step_getBytes hstep
  | populateAfterPut => exact h.step_populateAfterPut hstep
  | readBytes => exact h.step_readBytes hfree hstep
  | readEtag => exact h.step_readEtag hstep
  | head => exact h.step_head hstep
  | get => exact h.step_get hstep
  | writeBytes => exact h.step_writeBytes hfree hstep
  | writeEtag => exact h.step_writeEtag hfree hstep
  | invalidateKey =>
    cases hstep
    exact h.drop nofun fun _ => id
  | invalidateNamespace =>
    cases hstep
    exact h.drop nofun nofun

end Actions

end

end CacheInv

/-- If distinct contents have distinct tags and the file operations of two calls do
not overlap, every call returns bytes that were current while it was under way. -/
theorem cache_serves_current {C B : Type} [DecidableEq C] [DecidableEq B] (enabled : Bool)
    {as : List (CacheAction C B)} {s : DiskCache C B}
    (htagged : (diskCache C B enabled).Along DiskCache.Tagged .init as)
    (hfree : (diskCache C B enabled).Along DiskCache.Undisturbed .init as)
    (hv : (diskCache C B enabled).Visits .init as s) : s.ServesCurrent := by
  have hinv : CacheInv s :=
    Machine.visits_invariant (fun _ _ _ hI hG hs => hI.step hG.1 hG.2 hs) .init
      (htagged.and hfree) hv
  intro c bytes hdone
  have hfacts := hinv.facts c
  rw [hdone] at hfacts
  exact hfacts bytes rfl

/-! ## Two writers and a reader -/

def objectOne : ObjectVersion Nat := ⟨1, some ['"', 'e', '1', '"']⟩

def objectTwo : ObjectVersion Nat := ⟨2, some ['"', 'e', '2', '"']⟩

/-- Two versions are put, their writers fill the cache as `writes` says, and a
reader comes after that. -/
def twoWritersOneReader (writes : List (CacheAction (Fin 3) Nat)) :
    List (CacheAction (Fin 3) Nat) :=
  [.put objectOne, .put objectTwo, .populateAfterPut 0 objectOne, .populateAfterPut 1 objectTwo] ++
    writes ++ [.getBytes 2, .readBytes 2 true, .readEtag 2 true, .head 2 true]

def writersInTurn : List (CacheAction (Fin 3) Nat) :=
  [.writeBytes 0 true, .writeEtag 0 true, .writeBytes 1 true, .writeEtag 1 true]

/-- The first writer comes between the two writes of the second one. -/
def writersOverlap : List (CacheAction (Fin 3) Nat) :=
  [.writeBytes 1 true, .writeBytes 0 true, .writeEtag 0 true, .writeEtag 1 true]

theorem writersInTurn_serve_current :
    ∃ s, (diskCache (Fin 3) Nat true).run .init (twoWritersOneReader writersInTurn) = some s ∧
      s.ServesCurrent := by
  have hend : ((diskCache (Fin 3) Nat true).run .init (twoWritersOneReader writersInTurn)).isSome
      = true := by
    decide +kernel
  obtain ⟨s, hs⟩ := isSome_iff_exists.mp hend
  refine ⟨s, hs, cache_serves_current true ?_ ?_ (Machine.visits_end hs)⟩
  · decide +kernel
  · decide +kernel

/-- The reader is served the first version, and only the second one was there
while it ran. -/
theorem writersOverlap_serve_stale :
    ∃ s, (diskCache (Fin 3) Nat true).Along DiskCache.Tagged .init
        (twoWritersOneReader writersOverlap) ∧
      (diskCache (Fin 3) Nat true).run .init (twoWritersOneReader writersOverlap) = some s ∧
      s.calls 2 = .done (some 1) ∧ s.window 2 = [objectTwo] ∧ ¬ s.ServesCurrent := by
  obtain ⟨s, hs, hdone, hwindow⟩ : ∃ s, (diskCache (Fin 3) Nat true).run .init
      (twoWritersOneReader writersOverlap) = some s ∧ s.calls 2 = .done (some 1) ∧
        s.window 2 = [objectTwo] := by
    decide +kernel
  refine ⟨s, by decide +kernel, hs, hdone, hwindow, ?_⟩
  intro hserves
  obtain ⟨v, hv, hbytes⟩ := hserves 2 1 hdone
  rw [hwindow, mem_singleton] at hv
  rw [hv] at hbytes
  cases hbytes

end OpenPuffer
