import Mathlib

/-!
# Finite maps with one value type

`HashMap κ ν` is `Finmap` at a constant family.  Each operation comes with its lookup, stated as
an `if` on the key, so that proofs about maps are proofs about one key.  Code that iterates over
a map takes the order as an argument (`IterOrder`).  What all entries hold together is the
multiset `flatten`.
-/

universe u v w

/-- A finite map from `κ` to `ν`. -/
abbrev HashMap (κ : Type u) (ν : Type v) : Type (max u v) := Finmap fun _ : κ => ν

namespace HashMap

open Finmap Option List Multiset

variable {κ : Type u} {ν : Type v} [DecidableEq κ]

theorem ext_lookup {s t : HashMap κ ν} (h : ∀ k, s.lookup k = t.lookup k) : s = t :=
  Finmap.ext_lookup h

theorem lookup_insert_ite (s : HashMap κ ν) (k j : κ) (v : ν) :
    (s.insert k v).lookup j = if j = k then some v else s.lookup j := by
  by_cases h : j = k
  · subst h
    rw [if_pos rfl]
    exact lookup_insert s
  · rw [if_neg h]
    exact lookup_insert_of_ne s h

theorem lookup_erase_ite (s : HashMap κ ν) (k j : κ) :
    (s.erase k).lookup j = if j = k then none else s.lookup j := by
  by_cases h : j = k
  · subst h
    rw [if_pos rfl]
    exact lookup_erase j s
  · rw [if_neg h]
    exact lookup_erase_ne h

/-- A union reads its left map first. -/
theorem lookup_union_or (s t : HashMap κ ν) (k : κ) :
    (s ∪ t : HashMap κ ν).lookup k = (s.lookup k).or (t.lookup k) := by
  cases hs : s.lookup k with
  | none =>
    exact lookup_union_right (lookup_eq_none.mp hs)
  | some v =>
    rw [some_or, ← hs]
    exact lookup_union_left (mem_of_lookup_eq_some hs)

/-- Change the value at a key that is present. -/
def modify (s : HashMap κ ν) (k : κ) (f : ν → ν) : HashMap κ ν :=
  match s.lookup k with
  | none => s
  | some v => s.insert k (f v)

theorem lookup_modify (s : HashMap κ ν) (k j : κ) (f : ν → ν) :
    (s.modify k f).lookup j = if j = k then (s.lookup j).map f else s.lookup j := by
  unfold modify
  by_cases h : j = k
  · subst h
    cases hs : s.lookup j with
    | none => simp [hs]
    | some v => simp [lookup_insert]
  · rw [if_neg h]
    cases hs : s.lookup k with
    | none => rfl
    | some v => exact lookup_insert_of_ne s h

/-- The keys of a map, all with the value `v`. -/
def constKeys {ν' : Type v} (s : HashMap κ ν') (v : ν) : HashMap κ ν :=
  s.foldl (fun t k _ => t.insert k v)
    (by
      intro t a _ b _
      apply ext_lookup
      intro k
      simp only [lookup_insert_ite]
      split <;> split <;> rfl)
    ∅

theorem lookup_constKeys {ν' : Type v} (s : HashMap κ ν') (v : ν) (k : κ) :
    (constKeys s v).lookup k = (s.lookup k).map fun _ => v := by
  have hfold : ∀ (l : List (Sigma fun _ : κ => ν')) (t : HashMap κ ν),
      (l.foldl (fun t e => t.insert e.1 v) t).lookup k
        = ((l.dlookup k).map fun _ => v).or (t.lookup k) := by
    intro l
    induction l with
    | nil => exact fun _ => rfl
    | cons e l ih =>
      intro t
      obtain ⟨j, w⟩ := e
      rw [List.foldl_cons, ih, lookup_insert_ite]
      by_cases h : j = k
      · subst h
        rw [if_pos rfl, List.dlookup_cons_eq]
        cases List.dlookup j l <;> rfl
      · rw [if_neg (Ne.symm h), List.dlookup_cons_ne l ⟨j, w⟩ (Ne.symm h)]
  induction s using Finmap.induction_on with
  | H a =>
    have h := hfold a.entries ∅
    rw [Finmap.lookup_empty, Option.or_none] at h
    exact h

end HashMap

/-! ## Iteration -/

/-- The order in which an iterator yields the keys of a map: an enumeration of
every finite set of keys. -/
structure IterOrder (κ : Type u) where
  toList : Finset κ → List κ
  nodup : ∀ s, (toList s).Nodup
  mem_toList : ∀ s k, k ∈ toList s ↔ k ∈ s

theorem insertionSort_eq_of_perm {κ : Type u} [LinearOrder κ] {l l' : List κ} (h : l.Perm l') :
    l.insertionSort (· ≤ ·) = l'.insertionSort (· ≤ ·) := by
  have hperm : (l.insertionSort (· ≤ ·)).Perm (l'.insertionSort (· ≤ ·)) :=
    (List.perm_insertionSort _ l).trans (h.trans (List.perm_insertionSort _ l').symm)
  exact hperm.eq_of_pairwise' (List.pairwise_insertionSort _ l) (List.pairwise_insertionSort _ l')

def IterOrder.sorted (κ : Type u) [LinearOrder κ] : IterOrder κ where
  toList s := Quot.liftOn s.val (List.insertionSort (· ≤ ·)) fun _ _ h => insertionSort_eq_of_perm h
  nodup := by
    rintro ⟨s, hs⟩
    induction s using Quot.inductionOn with
    | h l => exact (List.perm_insertionSort _ l).nodup_iff.mpr hs
  mem_toList := by
    rintro ⟨s, hs⟩ k
    induction s using Quot.inductionOn with
    | h l => exact (List.perm_insertionSort _ l).mem_iff

theorem IterOrder.pairwise_sorted {κ : Type u} [LinearOrder κ] (s : Finset κ) :
    ((IterOrder.sorted κ).toList s).Pairwise (· ≤ ·) := by
  obtain ⟨s, hs⟩ := s
  induction s using Quot.inductionOn with
  | h l => exact List.pairwise_insertionSort _ l

/-- Sorted lists with the same elements, of those that are kept, are the same. -/
theorem IterOrder.filter_sorted_congr {κ : Type u} [LinearOrder κ] {s t : Finset κ}
    {p q : κ → Bool} (h : ∀ k, k ∈ s ∧ p k = true ↔ k ∈ t ∧ q k = true) :
    ((IterOrder.sorted κ).toList s).filter p = ((IterOrder.sorted κ).toList t).filter q := by
  have hperm : (((IterOrder.sorted κ).toList s).filter p).Perm
      (((IterOrder.sorted κ).toList t).filter q) := by
    refine (List.perm_ext_iff_of_nodup (((IterOrder.sorted κ).nodup s).filter p)
      (((IterOrder.sorted κ).nodup t).filter q)).mpr fun k => ?_
    rw [List.mem_filter, List.mem_filter, mem_toList, mem_toList, h]
  exact hperm.eq_of_pairwise' ((pairwise_sorted s).filter p) ((pairwise_sorted t).filter q)

theorem IterOrder.length_toList {κ : Type u} [DecidableEq κ] (o : IterOrder κ) (s : Finset κ) :
    (o.toList s).length = s.card := by
  rw [← List.toFinset_card_of_nodup (o.nodup s)]
  congr 1
  ext k
  rw [List.mem_toFinset, o.mem_toList]

def IterOrder.first {κ : Type u} [DecidableEq κ] (T : Finset κ) (o : IterOrder κ) :
    IterOrder κ where
  toList s := o.toList (s ∩ T) ++ o.toList (s \ T)
  nodup := by
    intro s
    refine List.nodup_append'.mpr ⟨o.nodup _, o.nodup _, ?_⟩
    intro k hk hk'
    rw [o.mem_toList, Finset.mem_inter] at hk
    rw [o.mem_toList, Finset.mem_sdiff] at hk'
    exact hk'.2 hk.2
  mem_toList := by
    intro s k
    rw [List.mem_append, o.mem_toList, o.mem_toList, ← Finset.mem_union, Finset.union_comm,
      Finset.sdiff_union_inter]

namespace HashMap

variable {κ : Type u} {ν : Type v} [DecidableEq κ]

/-- The entries in the order of an iterator. -/
def iter (o : IterOrder κ) (s : HashMap κ ν) : List (κ × ν) :=
  (o.toList s.keys).filterMap fun k => (s.lookup k).map fun v => (k, v)

variable {s : HashMap κ ν} {k : κ} {v d : ν} {es : List (κ × ν)}

theorem mem_iter {o : IterOrder κ} : (k, v) ∈ s.iter o ↔ s.lookup k = some v := by
  simp only [iter, List.mem_filterMap, o.mem_toList, Option.map_eq_some_iff, Prod.mk.injEq]
  constructor
  · rintro ⟨j, -, w, hw, rfl, rfl⟩
    exact hw
  · intro h
    exact ⟨k, Finmap.mem_keys.mpr (Finmap.mem_of_lookup_eq_some h), v, h, rfl, rfl⟩

theorem nodup_iter (o : IterOrder κ) (s : HashMap κ ν) : ((s.iter o).map Prod.fst).Nodup := by
  have hsub : ((s.iter o).map Prod.fst).Sublist (o.toList s.keys) := by
    unfold iter
    generalize o.toList s.keys = ks
    induction ks with
    | nil => exact List.nil_sublist _
    | cons k ks ih =>
      rw [List.filterMap_cons]
      cases s.lookup k with
      | none => exact ih.cons _
      | some v => exact ih.cons_cons _
  exact hsub.nodup (o.nodup _)

/-! ## Changing every entry -/

variable {ν' : Type w}

/-- Change or drop every entry. -/
def filterMap (f : κ → ν → Option ν') (s : HashMap κ ν) : HashMap κ ν' where
  entries := s.entries.filterMap fun e => (f e.1 e.2).map (Sigma.mk e.1)
  nodupKeys := by
    obtain ⟨entries, hnodup⟩ := s
    induction entries using Quot.inductionOn with
    | h l =>
      have hsub : (l.filterMap fun e => (f e.1 e.2).map (Sigma.mk e.1) :
          List (Sigma fun _ : κ => ν')).keys.Sublist l.keys := by
        clear hnodup
        induction l with
        | nil => exact List.nil_sublist _
        | cons e l ih =>
          rw [List.filterMap_cons]
          cases f e.1 e.2 with
          | none => exact ih.cons _
          | some v => exact ih.cons_cons _
      exact hsub.nodup hnodup

theorem lookup_filterMap (f : κ → ν → Option ν') (s : HashMap κ ν) (k : κ) :
    (s.filterMap f).lookup k = (s.lookup k).bind (f k) := by
  apply Option.ext
  intro w
  rw [Finmap.lookup_eq_some_iff, Option.bind_eq_some_iff]
  simp only [filterMap, Multiset.mem_filterMap, Option.map_eq_some_iff]
  constructor
  · rintro ⟨⟨j, v⟩, hv, w', hw, heq⟩
    cases heq
    exact ⟨v, Finmap.lookup_eq_some_iff.mpr hv, hw⟩
  · rintro ⟨v, hv, hw⟩
    exact ⟨⟨k, v⟩, Finmap.lookup_eq_some_iff.mp hv, w, hw, rfl⟩

/-! ## Entries with a default

A map of collections reads an absent key as the empty collection.  It is tidy
when no entry holds the default, and a tidy map is determined by its reads. -/

/-- The value of a key, or the default. -/
def getOr (d : ν) (s : HashMap κ ν) (k : κ) : ν := (s.lookup k).getD d

/-- Change the value of a key, starting from the default. -/
def entry (d : ν) (s : HashMap κ ν) (k : κ) (f : ν → ν) : HashMap κ ν :=
  s.insert k (f (s.getOr d k))

/-- Change every value and drop those that become the default. -/
def prune [DecidableEq ν] (d : ν) (f : ν → ν) (s : HashMap κ ν) : HashMap κ ν :=
  s.filterMap fun _ v => if f v = d then none else some (f v)

/-- No entry holds the default. -/
def Tidy (d : ν) (s : HashMap κ ν) : Prop := ∀ k, s.lookup k ≠ some d

theorem getOr_entry (d : ν) (s : HashMap κ ν) (k j : κ) (f : ν → ν) :
    (s.entry d k f).getOr d j = if j = k then f (s.getOr d j) else s.getOr d j := by
  simp only [entry, getOr, lookup_insert_ite]
  split
  · rename_i h
    rw [h]
    rfl
  · rfl

theorem tidy_empty (d : ν) : Tidy d (∅ : HashMap κ ν) := by
  intro k h
  cases h

theorem Tidy.entry (h : s.Tidy d) {f : ν → ν} (hf : f (s.getOr d k) ≠ d) :
    (s.entry d k f).Tidy d := by
  intro j
  rw [HashMap.entry, lookup_insert_ite]
  split
  · exact fun heq => hf (Option.some.inj heq)
  · exact h j

theorem getOr_prune [DecidableEq ν] {f : ν → ν} (hf : f d = d) (s : HashMap κ ν) (k : κ) :
    (s.prune d f).getOr d k = f (s.getOr d k) := by
  simp only [prune, getOr, lookup_filterMap]
  cases s.lookup k with
  | none => exact hf.symm
  | some v =>
    simp only [Option.bind_some]
    split
    · rename_i hv
      exact hv.symm
    · rfl

theorem tidy_prune [DecidableEq ν] (d : ν) (f : ν → ν) (s : HashMap κ ν) :
    (s.prune d f).Tidy d := by
  intro k
  simp only [prune, lookup_filterMap]
  cases s.lookup k with
  | none => simp
  | some v =>
    simp only [Option.bind_some]
    split
    · simp
    · rename_i hv
      exact fun heq => hv (Option.some.inj heq)

theorem Tidy.lookup_eq_none_iff (h : s.Tidy d) (k : κ) : s.lookup k = none ↔ s.getOr d k = d := by
  have hk := h k
  simp only [getOr]
  cases hl : s.lookup k with
  | none => simp
  | some v =>
    rw [hl] at hk
    simpa using hk

/-- A tidy map is determined by its reads. -/
theorem Tidy.ext {t : HashMap κ ν} (hs : s.Tidy d) (ht : t.Tidy d)
    (h : ∀ k, s.getOr d k = t.getOr d k) : s = t := by
  apply ext_lookup
  intro k
  have hk := h k
  cases hl : s.lookup k with
  | none =>
    rw [hs.lookup_eq_none_iff, hk, ← ht.lookup_eq_none_iff] at hl
    exact hl.symm
  | some v =>
    cases hr : t.lookup k with
    | none =>
      rw [ht.lookup_eq_none_iff, ← hk, ← hs.lookup_eq_none_iff, hl] at hr
      cases hr
    | some w =>
      simp only [getOr, hl, hr, Option.getD_some] at hk
      rw [hk]

/-- Collect the elements of a list under their keys, in order. -/
def groupBy {β : Type w} (g : β → κ) (l : List β) : HashMap κ (List β) :=
  l.foldl (fun m b => m.entry [] (g b) (· ++ [b])) ∅

theorem getOr_groupBy {β : Type w} (g : β → κ) (l : List β) (k : κ) :
    (groupBy g l).getOr [] k = l.filter fun b => g b = k := by
  have hfold : ∀ m : HashMap κ (List β),
      (l.foldl (fun m b => m.entry [] (g b) (· ++ [b])) m).getOr [] k
        = m.getOr [] k ++ l.filter fun b => g b = k := by
    induction l with
    | nil => exact fun m => (List.append_nil _).symm
    | cons b l ih =>
      intro m
      rw [List.foldl_cons, ih, getOr_entry]
      by_cases hb : g b = k
      · simp [hb]
      · simp [hb, Ne.symm hb]
  exact hfold ∅

/-! ## Taking and inserting several entries -/

/-- Remove some keys and return their entries. -/
def takeAll (ks : List κ) (s : HashMap κ ν) : List (κ × ν) × HashMap κ ν :=
  match ks with
  | [] => ([], s)
  | k :: ks =>
    match s.lookup k with
    | none => takeAll ks s
    | some v =>
      let (taken, rest) := takeAll ks (s.erase k)
      ((k, v) :: taken, rest)

def insertAll (es : List (κ × ν)) (s : HashMap κ ν) : HashMap κ ν :=
  es.foldl (fun s e => s.insert e.1 e.2) s

theorem lookup_takeAll (ks : List κ) (s : HashMap κ ν) (j : κ) :
    (s.takeAll ks).2.lookup j = if j ∈ ks then none else s.lookup j := by
  induction ks generalizing s with
  | nil => simp [takeAll]
  | cons k ks ih =>
    rw [takeAll]
    cases hk : s.lookup k with
    | none =>
      by_cases hj : j = k
      · subst hj
        simp [ih, hk]
      · simp [ih, hj]
    | some v =>
      by_cases hj : j = k
      · subst hj
        simp [ih]
      · simp [ih, hj]

theorem keys_takeAll (ks : List κ) (s : HashMap κ ν) :
    ((s.takeAll ks).1.map Prod.fst).Sublist ks := by
  induction ks generalizing s with
  | nil => exact List.nil_sublist _
  | cons k ks ih =>
    rw [takeAll]
    cases s.lookup k with
    | none => exact (ih s).cons _
    | some v => exact (ih _).cons_cons _

theorem mem_takeAll {ks : List κ} : (k, v) ∈ (s.takeAll ks).1 ↔ k ∈ ks ∧ s.lookup k = some v := by
  induction ks generalizing s with
  | nil => simp [takeAll]
  | cons j ks ih =>
    rw [takeAll]
    cases hj : s.lookup j with
    | none =>
      by_cases hk : k = j
      · subst hk
        simp [ih, hj]
      · simp [ih, hk]
    | some w =>
      by_cases hk : k = j
      · subst hk
        simp [ih, hj, eq_comm]
      · simp [ih, hk]

theorem lookup_insertAll_of_notMem {j : κ} (h : j ∉ es.map Prod.fst) (s : HashMap κ ν) :
    (s.insertAll es).lookup j = s.lookup j := by
  induction es generalizing s with
  | nil => rfl
  | cons e es ih =>
    simp only [List.map_cons, List.mem_cons, not_or] at h
    rw [insertAll, List.foldl_cons, ← insertAll, ih h.2, lookup_insert_ite, if_neg h.1]

/-- Entries of another map overwrite those of their keys. -/
theorem lookup_insertAll_of_entries {t : HashMap κ ν} (h : ∀ e ∈ es, t.lookup e.1 = some e.2)
    (s : HashMap κ ν) (j : κ) :
    (s.insertAll es).lookup j = if j ∈ es.map Prod.fst then t.lookup j else s.lookup j := by
  induction es generalizing s with
  | nil => rfl
  | cons e es ih =>
    rw [insertAll, List.foldl_cons, ← insertAll,
      ih fun e' he' => h e' (List.mem_cons_of_mem e he')]
    by_cases hj : j ∈ es.map Prod.fst
    · rw [if_pos hj, List.map_cons, if_pos (List.mem_cons_of_mem _ hj)]
    · rw [if_neg hj, lookup_insert_ite]
      by_cases hje : j = e.1
      · rw [if_pos hje, hje, List.map_cons, if_pos List.mem_cons_self, h e List.mem_cons_self]
      · rw [if_neg hje]
        simp [hje, hj]

/-- An entry whose key is not set again. -/
theorem lookup_insertAll_of_mem (hnodup : (es.map Prod.fst).Nodup) (hmem : (k, v) ∈ es)
    (s : HashMap κ ν) : (s.insertAll es).lookup k = some v := by
  induction es generalizing s with
  | nil => cases hmem
  | cons e es ih =>
    obtain ⟨hhead, htail⟩ := List.nodup_cons.mp hnodup
    rw [insertAll, List.foldl_cons, ← insertAll]
    rcases List.mem_cons.mp hmem with rfl | hmem
    · rw [lookup_insertAll_of_notMem hhead, lookup_insert_ite, if_pos rfl]
    · exact ih htail hmem _

theorem mem_of_lookup_insertAll (h : (s.insertAll es).lookup k = some v) :
    (k, v) ∈ es ∨ s.lookup k = some v := by
  induction es generalizing s with
  | nil => exact .inr h
  | cons e es ih =>
    rcases ih h with hmem | hold
    · exact .inl (List.mem_cons_of_mem e hmem)
    · rw [lookup_insert_ite] at hold
      split at hold
      · rename_i hk
        rw [hk, ← Option.some.inj hold]
        exact .inl List.mem_cons_self
      · exact .inr hold

theorem mem_insertAll : k ∈ s.insertAll es ↔ k ∈ es.map Prod.fst ∨ k ∈ s := by
  induction es generalizing s with
  | nil => simp [insertAll]
  | cons e es ih =>
    rw [insertAll, List.foldl_cons, ← insertAll, ih, Finmap.mem_insert, List.map_cons,
      List.mem_cons]
    tauto

/-- Writing all entries of a map over another one. -/
theorem insertAll_iter (o : IterOrder κ) (t s : HashMap κ ν) : s.insertAll (t.iter o) = t ∪ s := by
  apply ext_lookup
  intro j
  rw [lookup_insertAll_of_entries fun e he => mem_iter.mp he, lookup_union_or]
  cases hj : t.lookup j with
  | some v => rw [if_pos (List.mem_map.mpr ⟨(j, v), mem_iter.mpr hj, rfl⟩), Option.some_or]
  | none =>
    rw [if_neg, Option.none_or]
    intro hmem
    obtain ⟨e, he, rfl⟩ := List.mem_map.mp hmem
    rw [mem_iter.mp he] at hj
    cases hj

/-! ## What all entries hold together -/

variable {β : Type*}

def flatten (f : ν → Multiset β) (s : HashMap κ ν) : Multiset β := s.entries.bind fun e => f e.2

theorem flatten_insert_of_none (f : ν → Multiset β) (v : ν) (h : s.lookup k = none) :
    flatten f (s.insert k v) = f v + flatten f s := by
  rw [flatten, Finmap.entries_insert_of_notMem (Finmap.lookup_eq_none.mp h), Multiset.cons_bind]
  rfl

theorem insert_erase (s : HashMap κ ν) (k : κ) (v : ν) :
    (s.erase k).insert k v = s.insert k v := by
  apply ext_lookup
  intro j
  simp only [lookup_insert_ite, lookup_erase_ite]
  split
  · rfl
  · rfl

theorem insert_of_lookup (h : s.lookup k = some v) : s.insert k v = s := by
  apply ext_lookup
  intro j
  rw [lookup_insert_ite]
  split
  · rename_i hj
    rw [hj, h]
  · rfl

/-- An entry and the rest. -/
theorem flatten_erase (f : ν → Multiset β) (h : s.lookup k = some v) :
    flatten f s = f v + flatten f (s.erase k) := by
  have hsplit : s = (s.erase k).insert k v := by rw [insert_erase, insert_of_lookup h]
  calc flatten f s = flatten f ((s.erase k).insert k v) := by rw [← hsplit]
    _ = f v + flatten f (s.erase k) := flatten_insert_of_none f v (Finmap.lookup_erase k s)

theorem erase_of_lookup_none (h : s.lookup k = none) : s.erase k = s := by
  apply ext_lookup
  intro j
  rw [lookup_erase_ite]
  split
  · rename_i hj
    rw [hj, h]
  · rfl

section

variable (f : ν → Multiset β)

theorem flatten_takeAll (ks : List κ) (s : HashMap κ ν) :
    flatten f s
      = ((s.takeAll ks).1.map fun e => f e.2).sum + flatten f (s.takeAll ks).2 := by
  induction ks generalizing s with
  | nil => simp [takeAll]
  | cons k ks ih =>
    rw [takeAll]
    cases hk : s.lookup k with
    | none => exact ih s
    | some v =>
      rw [flatten_erase f hk, ih (s.erase k)]
      simp [add_assoc]

theorem flatten_insertAll (hnodup : (es.map Prod.fst).Nodup)
    (hnew : ∀ k ∈ es.map Prod.fst, s.lookup k = none) :
    flatten f (s.insertAll es) = (es.map fun e => f e.2).sum + flatten f s := by
  induction es generalizing s with
  | nil => simp [insertAll]
  | cons e es ih =>
    obtain ⟨hnot, hrest⟩ := List.nodup_cons.mp hnodup
    have hnew' : ∀ k ∈ es.map Prod.fst, (s.insert e.1 e.2).lookup k = none := by
      intro k hk
      rw [lookup_insert_ite, if_neg]
      · exact hnew k (List.mem_cons_of_mem _ hk)
      · rintro rfl
        exact hnot hk
    have hhead := flatten_insert_of_none f e.2 (hnew e.1 List.mem_cons_self)
    rw [insertAll, List.foldl_cons, ← insertAll, ih hrest hnew', hhead, List.map_cons,
      List.sum_cons, add_left_comm, add_assoc]

/-- Setting an entry. -/
theorem flatten_insert (s : HashMap κ ν) (k : κ) (v : ν) :
    flatten f (s.insert k v) = f v + flatten f (s.erase k) := by
  rw [← insert_erase, flatten_insert_of_none f v (Finmap.lookup_erase k s)]

/-- Changing an entry by what it gains. -/
theorem flatten_entry (hd : f d = 0) {g : ν → ν} {x : Multiset β}
    (hg : ∀ v, f (g v) = x + f v) (s : HashMap κ ν) (k : κ) :
    flatten f (s.entry d k g) = x + flatten f s := by
  rw [entry, flatten_insert, hg, getOr]
  cases hk : s.lookup k with
  | none => rw [Option.getD_none, hd, add_zero, erase_of_lookup_none hk]
  | some v => rw [Option.getD_some, flatten_erase f hk, add_assoc]

end

/-- An iterator yields every entry once. -/
theorem coe_iter (o : IterOrder κ) (s : HashMap κ ν) :
    (s.iter o : Multiset (κ × ν)) = s.entries.map fun e => (e.1, e.2) := by
  have hinj : Function.Injective fun e : Sigma fun _ : κ => ν => (e.1, e.2) := by
    rintro ⟨k, v⟩ ⟨k', v'⟩ heq
    cases heq
    rfl
  have hnodup : (s.iter o).Nodup := List.Nodup.of_map _ (nodup_iter o s)
  refine (Multiset.Nodup.ext (Multiset.coe_nodup.mpr hnodup)
    (s.nodup_entries.map hinj)).mpr ?_
  rintro ⟨k, v⟩
  rw [Multiset.mem_coe, mem_iter, Finmap.lookup_eq_some_iff, Multiset.mem_map]
  constructor
  · intro h
    exact ⟨⟨k, v⟩, h, rfl⟩
  · rintro ⟨e, he, heq⟩
    cases heq
    exact he

theorem flatten_eq_flatMap (o : IterOrder κ) (f : ν → List β) (s : HashMap κ ν) :
    s.flatten (fun v => (f v : Multiset β)) = ((s.iter o).flatMap fun e => f e.2 : List β) := by
  rw [← Multiset.coe_bind, coe_iter, Multiset.bind_map]
  rfl

omit [DecidableEq κ] in
theorem flatten_filterMap (f : ν' → Multiset β) (g : κ → ν → Option ν') (s : HashMap κ ν) :
    flatten f (s.filterMap g) = s.entries.bind fun e => ((g e.1 e.2).map f).getD 0 := by
  rw [flatten, filterMap, Multiset.bind_filterMap]
  simp only [Option.map_map]
  rfl

end HashMap
