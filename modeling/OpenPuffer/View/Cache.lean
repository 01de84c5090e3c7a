import OpenPuffer.View
import OpenPuffer.Lib.Lru
import OpenPuffer.Lib.Machine

/-!
# The cache of pinned views

A process keeps the views of the namespaces it used last: the views in a map and their names in
a queue, changed one after the other.  `ViewCache.Agrees` relates them to the entries of one
least recently used list, every operation keeps the relation, and with it no sequence of calls
can tell the cache from that list.
-/

namespace OpenPuffer

open List HashMap

structure ViewCache where
  max : Nat
  views : HashMap String NamespaceView
  /-- Front = least recently used; back = most recently used. -/
  order : List String

namespace ViewCache

def new (max : Nat) : ViewCache where
  max := Nat.max max 1
  views := ∅
  order := []

/-- Make a name the most recent one.  `none` is the panic of a position that is not
valid. -/
def touch (c : ViewCache) (name : String) : Option ViewCache :=
  match c.order.idxOf? name with
  | none => some c
  | some pos => c.order[pos]?.map fun n => { c with order := c.order.eraseIdx pos ++ [n] }

/-- The loop of `evict_if_needed`.  It ends when there is room or the queue is empty. -/
def evictLoop (max : Nat) :
    List String → HashMap String NamespaceView → List String × HashMap String NamespaceView
  | [], views => ([], views)
  | oldest :: order, views =>
    if views.keys.card ≥ max then evictLoop max order (views.erase oldest)
    else (oldest :: order, views)

def evictIfNeeded (c : ViewCache) : ViewCache :=
  let (order, views) := evictLoop c.max c.order c.views
  { c with order, views }

/-- The view of a name.  The caller gets a reference; `f` is what it does to the view
while it holds it. -/
def getMut (c : ViewCache) (name : String) (f : NamespaceView → NamespaceView) :
    Option (Option NamespaceView × ViewCache) :=
  if name ∈ c.views then
    (c.touch name).map fun c => (c.views.lookup name, { c with views := c.views.modify name f })
  else some (none, c)

/-- Insert or replace a view and mark it most recently used. -/
def insert (c : ViewCache) (name : String) (view : NamespaceView) : Option ViewCache :=
  if name ∈ c.views then { c with views := c.views.insert name view }.touch name
  else
    let c := c.evictIfNeeded
    some { c with order := c.order ++ [name], views := c.views.insert name view }

def remove (c : ViewCache) (name : String) : Option NamespaceView × ViewCache :=
  let order := match c.order.idxOf? name with
    | none => c.order
    | some pos => c.order.eraseIdx pos
  (c.views.lookup name, { c with order, views := c.views.erase name })

end ViewCache

/-- A call of the cache. -/
inductive ViewCall where
  | getMut (name : String) (f : NamespaceView → NamespaceView)
  | insert (name : String) (view : NamespaceView)
  | remove (name : String)

/-- The view a call returns, if it returns one, and the cache after it. -/
def ViewCache.call (c : ViewCache) : ViewCall → Option (Option NamespaceView × ViewCache)
  | .getMut name f => c.getMut name f
  | .insert name view => (c.insert name view).map fun c => (none, c)
  | .remove name => some (c.remove name)

/-- The calls of a process, in the order of the lock around the cache. -/
def viewCache : Machine ViewCache ViewCall where
  step c call := (c.call call).map Prod.snd

/-! ## The reference -/

/-- Views in the order of their last use. -/
abbrev LruViews (max : Nat) := Lru String NamespaceView max

namespace LruViews

variable {max : Nat}

def call (l : LruViews max) : ViewCall → Option NamespaceView × LruViews max
  | .getMut name f => (l.find name, l.modify name f)
  | .insert name view => (none, l.insert name view)
  | .remove name => (l.find name, l.remove name)

/-- A list that starts empty, after some calls. -/
def after (max : Nat) (calls : List ViewCall) : LruViews (Nat.max max 1) :=
  calls.foldl (fun l a => (call l a).2) (.empty (Nat.lt_of_lt_of_le Nat.one_pos (le_max_right ..)))

end LruViews

namespace ViewCache

/-! ## The cache and its list -/

/-- The queue has the names of the list, in its order, and the map its entries. -/
structure Agrees (c : ViewCache) {max : Nat} (l : LruViews max) : Prop where
  max : c.max = max
  order : c.order = l.keys
  views : ∀ name view, c.views.lookup name = some view ↔ (name, view) ∈ l.entries

variable {c : ViewCache} {max : Nat} {l : LruViews max} {name : String}

theorem touch_of_mem (h : name ∈ c.order) :
    c.touch name = some { c with order := c.order.erase name ++ [name] } := by
  unfold touch
  cases hpos : c.order.idxOf? name with
  | none => exact absurd h (idxOf?_eq_none_iff.mp hpos)
  | some pos =>
    obtain ⟨hlt, hname, -⟩ := idxOf?_eq_some_iff.mp hpos
    simp [erase_eq_eraseIdx, hpos, getElem?_eq_getElem hlt, hname]

theorem remove_snd (c : ViewCache) (name : String) :
    (c.remove name).2 = { c with order := c.order.erase name, views := c.views.erase name } := by
  rw [erase_eq_eraseIdx]
  rfl

theorem evictLoop_of_lt {views : HashMap String NamespaceView} (h : views.keys.card < max)
    (order : List String) : evictLoop max order views = (order, views) := by
  cases order with
  | nil => rfl
  | cons oldest order => exact if_neg (Nat.not_le.mpr h)

namespace Agrees

theorem lookup (h : c.Agrees l) (name : String) : c.views.lookup name = l.find name := by
  ext view
  rw [h.views, Lru.find_eq_some]

theorem mem_views (h : c.Agrees l) : name ∈ c.views ↔ name ∈ l.keys := by
  simp only [Finmap.mem_iff, h.views, Lru.mem_keys]

theorem card_views (h : c.Agrees l) : c.views.keys.card = l.entries.length := by
  have hkeys : c.views.keys = l.keys.toFinset := by
    ext name
    rw [Finmap.mem_keys, h.mem_views, mem_toFinset]
  rw [hkeys, ← l.length_keys]
  exact toFinset_card_of_nodup l.nodup

theorem remove (h : c.Agrees l) (name : String) : (c.remove name).2.Agrees (l.remove name) := by
  rw [remove_snd]
  refine ⟨h.max, ?_, ?_⟩
  · rw [Lru.keys_remove, h.order]
  · intro j view
    simp only [lookup_erase_ite, Lru.mem_remove, ← h.views]
    by_cases hj : j = name <;> simp [hj]

/-- One name goes if the cache is full, and none otherwise. -/
theorem evictIfNeeded (h : c.Agrees l) (habsent : name ∉ l.keys) :
    c.evictIfNeeded.Agrees (l.makeRoom name) := by
  have hcard := h.card_views
  rw [Lru.makeRoom, if_neg habsent]
  split
  · next hroom =>
    rw [ViewCache.evictIfNeeded, evictLoop_of_lt (by rw [hcard, h.max]; exact hroom) c.order]
    exact h
  · next hfull =>
    have hpos := l.pos
    cases hentries : l.entries with
    | nil =>
      rw [hentries] at hfull
      exact absurd hpos hfull
    | cons e rest =>
      have horder : c.order = e.1 :: rest.map Prod.fst := by
        rw [h.order, Lru.keys, hentries, map_cons]
      have hmem : e.1 ∈ c.views.keys := by
        rw [Finmap.mem_keys, h.mem_views, ← h.order, horder]
        exact mem_cons_self
      have hnext : (c.views.erase e.1).keys.card < c.max := by
        have hle := l.length_le
        rw [Finmap.keys_erase, Finset.card_erase_of_mem hmem, h.max]
        omega
      have hevict : c.evictIfNeeded
          = { c with order := rest.map Prod.fst, views := c.views.erase e.1 } := by
        rw [ViewCache.evictIfNeeded, horder, evictLoop, if_pos (by rw [hcard, h.max]; omega),
          evictLoop_of_lt hnext]
      rw [hevict]
      refine ⟨h.max, ?_, ?_⟩
      · simp [Lru.keys, Lru.dropOldest, hentries]
      · intro j view
        simp only [Lru.mem_dropOldest hentries, lookup_erase_ite, ← h.views]
        by_cases hj : j = e.1 <;> simp [hj]

/-- A name that has room becomes the most recent one. -/
theorem push (h : c.Agrees (l.makeRoom name)) (view : NamespaceView) :
    { c with order := c.order ++ [name], views := c.views.insert name view : ViewCache }.Agrees
      (l.insert name view) where
  max := h.max
  order := by
    rw [h.order]
    simp [Lru.keys, Lru.insert]
  views := by
    intro j w
    have hnot := l.notMem_keys_makeRoom name
    simp only [lookup_insert_ite, Lru.insert, mem_append, mem_singleton, Prod.mk.injEq, ← h.views]
    by_cases hj : j = name
    · subst hj
      have hnone : c.views.lookup j ≠ some w := fun hw =>
        hnot (Lru.mem_keys.mpr ⟨w, (h.views j w).mp hw⟩)
      simp [hnone, eq_comm]
    · simp [hj]

/-- A name that is present moves to the end. -/
theorem moved (h : c.Agrees l) (hmem : name ∈ l.keys) (view : NamespaceView) :
    { c with order := c.order.erase name ++ [name], views := c.views.insert name view
      : ViewCache }.Agrees (l.insert name view) := by
  have hroom : (c.remove name).2.Agrees (l.makeRoom name) := by
    rw [Lru.makeRoom, if_pos hmem]
    exact h.remove name
  have hpush := hroom.push view
  rwa [remove_snd, insert_erase] at hpush

theorem insert (h : c.Agrees l) (name : String) (view : NamespaceView) :
    ∃ c', c.insert name view = some c' ∧ c'.Agrees (l.insert name view) := by
  unfold ViewCache.insert
  split
  · next hmem =>
    rw [h.mem_views] at hmem
    exact ⟨_, touch_of_mem (h.order ▸ hmem), h.moved hmem view⟩
  · next habsent =>
    rw [h.mem_views] at habsent
    exact ⟨_, rfl, (h.evictIfNeeded habsent).push view⟩

theorem getMut (h : c.Agrees l) (name : String) (f : NamespaceView → NamespaceView) :
    ∃ c', c.getMut name f = some (l.find name, c') ∧ c'.Agrees (l.modify name f) := by
  have hlookup := h.lookup name
  unfold ViewCache.getMut Lru.modify
  cases hview : l.find name with
  | none =>
    rw [hview] at hlookup
    rw [if_neg (Finmap.lookup_eq_none.mp hlookup)]
    exact ⟨c, rfl, h⟩
  | some view =>
    rw [hview] at hlookup
    have hmem := Finmap.mem_of_lookup_eq_some hlookup
    have hkey := h.mem_views.mp hmem
    rw [if_pos hmem, touch_of_mem (h.order ▸ hkey)]
    refine ⟨_, by rw [Option.map_some, hlookup], ?_⟩
    have hmodify : c.views.modify name f = c.views.insert name (f view) := by
      rw [HashMap.modify, hlookup]
    rw [hmodify]
    exact h.moved hkey (f view)

theorem call (h : c.Agrees l) (a : ViewCall) :
    ∃ c', c.call a = some ((l.call a).1, c') ∧ c'.Agrees (l.call a).2 := by
  cases a with
  | getMut name f => exact h.getMut name f
  | insert name view =>
    obtain ⟨c', hinsert, h'⟩ := h.insert name view
    exact ⟨c', by rw [ViewCache.call, hinsert]; rfl, h'⟩
  | remove name =>
    refine ⟨_, ?_, h.remove name⟩
    rw [ViewCache.call, LruViews.call, ← h.lookup]
    rfl

theorem run (h : c.Agrees l) (calls : List ViewCall) :
    ∃ c', viewCache.run c calls = some c' ∧
      c'.Agrees (calls.foldl (fun l a => (LruViews.call l a).2) l) := by
  induction calls generalizing c l with
  | nil => exact ⟨c, rfl, h⟩
  | cons a calls ih =>
    obtain ⟨c', hcall, h'⟩ := h.call a
    obtain ⟨c'', hrun, h''⟩ := ih h'
    refine ⟨c'', Machine.run_cons_some.mpr ⟨c', ?_, hrun⟩, h''⟩
    exact congrArg (Option.map Prod.snd) hcall

end Agrees

theorem agrees_new (max : Nat) : (new max).Agrees (LruViews.after max []) where
  max := rfl
  order := rfl
  views := by
    intro name view
    simp [new, LruViews.after, Lru.empty]

end ViewCache

/-- The cache is the list of the views by their last use.  No call panics, the queue
has the names of the map without repetition and at most `max` of them, the map has
the views of the list, and the next call returns the same view. -/
theorem view_cache_is_lru (max : Nat) (calls : List ViewCall) :
    ∃ c, viewCache.run (.new max) calls = some c ∧
      c.order.Nodup ∧ (∀ name, name ∈ c.order ↔ name ∈ c.views) ∧
      c.order.length ≤ Nat.max max 1 ∧
      c.order = (LruViews.after max calls).keys ∧
      (∀ name, c.views.lookup name = (LruViews.after max calls).find name) ∧
      ∀ a, (c.call a).map Prod.fst = some ((LruViews.after max calls).call a).1 := by
  obtain ⟨c, hrun, h⟩ := (ViewCache.agrees_new max).run calls
  refine ⟨c, hrun, ?_, ?_, ?_, h.order, h.lookup, ?_⟩
  · rw [h.order]
    exact (LruViews.after max calls).nodup
  · intro name
    rw [h.order, h.mem_views]
  · rw [h.order, Lru.length_keys]
    exact (LruViews.after max calls).length_le
  · intro a
    obtain ⟨c', hcall, -⟩ := h.call a
    rw [hcall]
    rfl

end OpenPuffer
