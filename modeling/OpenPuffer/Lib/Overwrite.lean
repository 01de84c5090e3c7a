import Mathlib

/-!
# Overwriting a family in place

A collection is stored as a family of sets, `old i` under key `i`.  An update overwrites some
keys `K` with `new`, in any order, and may stop anywhere, so a reader can find
`mixed old new T` for every `T ⊆ K`.

A reader always finds the old or the new collection if an element of both is kept at some key,
and all elements of only one of them change together: none before the end (`Hidden`), or all
under the same keys (`SwitchAt`).  These conditions are exact (`overwrite_atomic_iff`).
-/

namespace Overwrite

variable {ι α : Type*} (old new : ι → Set α) (K : Set ι) (S' : Set α)

/-- The elements of a family. -/
def all : Set α := {x | ∃ i, x ∈ old i}

/-- What is stored when the keys `T` have been overwritten. -/
def mixed (T : Set ι) : Set α := {x | ∃ i, i ∈ T ∧ x ∈ new i ∨ i ∉ T ∧ x ∈ old i}

/-- Wherever the update stops, the old or the new collection is stored. -/
def Atomic : Prop := ∀ T ⊆ K, mixed old new T = all old ∨ mixed old new T = S'

/-- An element of both collections stays at one of its keys. -/
def Kept : Prop := ∀ x ∈ all old, x ∈ S' → ∃ i, x ∈ old i ∧ (i ∈ K → x ∈ new i)

/-- No overwritten key adds an element or takes the last copy of one. -/
def Hidden : Prop :=
  (∀ i ∈ K, ∀ x ∈ new i, x ∈ all old) ∧ ∀ x ∈ all old, x ∉ S' → ∃ i, i ∉ K ∧ x ∈ old i

/-- All elements that come or go do so at the keys `F`. -/
structure SwitchAt (F : Set ι) : Prop where
  subset : F ⊆ K
  nonempty : F.Nonempty
  added : ∀ x ∈ S', x ∉ all old → ∀ i ∈ K, x ∈ new i ↔ i ∈ F
  removed : ∀ x ∈ all old, x ∉ S' → ∀ i, x ∈ old i ↔ i ∈ F
  single : S' ⊆ all old ∨ all old ⊆ S' ∨ F.Subsingleton

variable {old new K S'}

/-- An element that loses all its keys is missing when exactly these are
overwritten. -/
theorem notMem_mixed {x : α} (h : ∀ i, x ∈ old i → x ∉ new i) :
    x ∉ mixed old new {i | x ∈ old i} := by
  rintro ⟨i, ⟨hold, hnew⟩ | ⟨hnot, hold⟩⟩
  · exact h i hold hnew
  · exact hnot hold

variable {T : Set ι}

theorem mem_mixed_of_kept (hkept : Kept old new K S') (hT : T ⊆ K) {x : α} (hx : x ∈ all old)
    (hx' : x ∈ S') : x ∈ mixed old new T := by
  obtain ⟨i, hold, hnew⟩ := hkept x hx hx'
  by_cases hi : i ∈ T
  · exact ⟨i, .inl ⟨hi, hnew (hT hi)⟩⟩
  · exact ⟨i, .inr ⟨hi, hold⟩⟩

/-! ## The conditions are sufficient -/

section

variable (hkept : Kept old new K S')

include hkept

theorem mixed_of_hidden (hhidden : Hidden old new K S') (hT : T ⊆ K) :
    mixed old new T = all old := by
  apply Set.Subset.antisymm
  · rintro x ⟨i, ⟨hi, hx⟩ | ⟨-, hx⟩⟩
    · exact hhidden.1 i (hT hi) x hx
    · exact ⟨i, hx⟩
  · intro x hx
    by_cases hx' : x ∈ S'
    · exact mem_mixed_of_kept hkept hT hx hx'
    · obtain ⟨i, hi, hold⟩ := hhidden.2 x hx hx'
      exact ⟨i, .inr ⟨fun hiT => hi (hT hiT), hold⟩⟩

/-- Some keys of the switch are still old, and enough of them. -/
theorem mixed_before {F : Set ι} (hF : SwitchAt old new K S' F)
    (hT : T ⊆ K) (hadd : S' ⊆ all old ∨ ∀ i ∈ T, i ∉ F) (hrem : all old ⊆ S' ∨ ∃ i ∈ F, i ∉ T)
    (hnew : ∀ i ∈ K, new i ⊆ S') : mixed old new T = all old := by
  apply Set.Subset.antisymm
  · rintro x ⟨i, ⟨hi, hx⟩ | ⟨-, hx⟩⟩
    · by_contra hnot
      have hx' := hnew i (hT hi) hx
      rcases hadd with hadd | hadd
      · exact hnot (hadd hx')
      · exact hadd i hi ((hF.added x hx' hnot i (hT hi)).mp hx)
    · exact ⟨i, hx⟩
  · intro x hx
    by_cases hx' : x ∈ S'
    · exact mem_mixed_of_kept hkept hT hx hx'
    · obtain ⟨i, hi, hiT⟩ := hrem.resolve_left fun h => hx' (h hx)
      exact ⟨i, .inr ⟨hiT, (hF.removed x hx hx' i).mpr hi⟩⟩

/-- Enough keys of the switch are new. -/
theorem mixed_after {F : Set ι} (hF : SwitchAt old new K S' F)
    (hT : T ⊆ K) (hadd : S' ⊆ all old ∨ ∃ i ∈ F, i ∈ T) (hrem : all old ⊆ S' ∨ F ⊆ T)
    (hnew : ∀ i ∈ K, new i ⊆ S') : mixed old new T = S' := by
  apply Set.Subset.antisymm
  · rintro x ⟨i, ⟨hi, hx⟩ | ⟨hi, hx⟩⟩
    · exact hnew i (hT hi) hx
    · by_contra hnot
      rcases hrem with hrem | hrem
      · exact hnot (hrem ⟨i, hx⟩)
      · exact hi (hrem ((hF.removed x ⟨i, hx⟩ hnot i).mp hx))
  · intro x hx'
    by_cases hx : x ∈ all old
    · exact mem_mixed_of_kept hkept hT hx hx'
    · obtain ⟨i, hi, hiT⟩ := hadd.resolve_left fun h => hx (h hx')
      exact ⟨i, .inl ⟨hiT, (hF.added x hx' hx i (hT hiT)).mpr hi⟩⟩

theorem mixed_of_switch {F : Set ι} (hF : SwitchAt old new K S' F)
    (hT : T ⊆ K) (hnew : ∀ i ∈ K, new i ⊆ S') :
    mixed old new T = all old ∨ mixed old new T = S' := by
  rcases hF.single with hsub | hsup | hone
  · by_cases hFT : F ⊆ T
    · exact .inr (mixed_after hkept hF hT (.inl hsub) (.inr hFT) hnew)
    · exact .inl (mixed_before hkept hF hT (.inl hsub) (.inr (Set.not_subset.mp hFT)) hnew)
  · by_cases hFT : ∃ i ∈ F, i ∈ T
    · exact .inr (mixed_after hkept hF hT (.inr hFT) (.inl hsup) hnew)
    · have hnone : ∀ i ∈ T, i ∉ F := fun i hi hiF => hFT ⟨i, hiF, hi⟩
      exact .inl (mixed_before hkept hF hT (.inr hnone) (.inl hsup) hnew)
  · obtain ⟨f, hf⟩ := hF.nonempty
    have hall : ∀ i ∈ F, i = f := fun i hi => hone hi hf
    by_cases hfT : f ∈ T
    · have hFT : F ⊆ T := fun i hi => hall i hi ▸ hfT
      exact .inr (mixed_after hkept hF hT (.inr ⟨f, hf, hfT⟩) (.inr hFT) hnew)
    · have hnone : ∀ i ∈ T, i ∉ F := fun i hi hiF => hfT (hall i hiF ▸ hi)
      exact .inl (mixed_before hkept hF hT (.inr hnone) (.inr ⟨f, hf, hfT⟩) hnew)

end

/-! ## The conditions are necessary -/

theorem kept_of_atomic (h : Atomic old new K S') : Kept old new K S' := by
  intro x hx hx'
  by_contra hnot
  have hlost : ∀ i, x ∈ old i → i ∈ K ∧ x ∉ new i := by
    intro i hi
    by_contra hc
    exact hnot ⟨i, hi, fun hK => by_contra fun hn => hc ⟨hK, hn⟩⟩
  have hmissing := notMem_mixed fun i hi => (hlost i hi).2
  rcases h {i | x ∈ old i} fun i hi => (hlost i hi).1 with heq | heq
  · exact hmissing (heq ▸ hx)
  · exact hmissing (heq ▸ hx')

theorem hidden_of_all_old (hnew : ∀ i ∈ K, new i ⊆ S')
    (hold : ∀ T ⊆ K, mixed old new T = all old) : Hidden old new K S' := by
  constructor
  · intro i hi x hx
    rw [← hold {i} (Set.singleton_subset_iff.mpr hi)]
    exact ⟨i, .inl ⟨rfl, hx⟩⟩
  · intro x hx hx'
    rw [← hold K (Set.Subset.refl K)] at hx
    obtain ⟨i, ⟨hi, hxi⟩ | hi⟩ := hx
    · exact absurd (hnew i hi hxi) hx'
    · exact ⟨i, hi⟩

/-- An added element decides what one overwritten key shows. -/
theorem mem_new_iff (h : Atomic old new K S') {x : α} (hx' : x ∈ S') (hx : x ∉ all old) {i : ι}
    (hi : i ∈ K) : x ∈ new i ↔ mixed old new {i} = S' := by
  constructor
  · intro hxi
    have hmem : x ∈ mixed old new {i} := ⟨i, .inl ⟨rfl, hxi⟩⟩
    exact (h {i} (Set.singleton_subset_iff.mpr hi)).resolve_left fun heq => hx (heq ▸ hmem)
  · intro heq
    rw [← heq] at hx'
    obtain ⟨j, ⟨rfl, hj⟩ | ⟨-, hj⟩⟩ := hx'
    · exact hj
    · exact absurd ⟨j, hj⟩ hx

section

variable (hnew : ∀ i ∈ K, new i ⊆ S')

include hnew

/-- A removed element is gone once all its keys are overwritten. -/
theorem mixed_eq_iff (h : Atomic old new K S') {x : α}
    (hx : x ∈ all old) (hx' : x ∉ S') (hT : T ⊆ K) :
    mixed old new T = S' ↔ ∀ i, x ∈ old i → i ∈ T := by
  constructor
  · intro heq i hi
    by_contra hiT
    exact hx' (heq ▸ ⟨i, .inr ⟨hiT, hi⟩⟩)
  · intro hall
    refine (h T hT).resolve_left fun heq => ?_
    rw [← heq] at hx
    obtain ⟨i, ⟨hi, hxi⟩ | ⟨hi, hxi⟩⟩ := hx
    · exact hx' (hnew i (hT hi) hxi)
    · exact hi (hall i hxi)

theorem switch_of_atomic (h : Atomic old new K S') (hT : T ⊆ K)
    (hne : mixed old new T ≠ all old) : ∃ F, SwitchAt old new K S' F := by
  have hT' : mixed old new T = S' := (h T hT).resolve_left hne
  by_cases hadd : S' ⊆ all old
  · obtain ⟨x, hx, hx'⟩ := Set.not_subset.mp fun hsup : all old ⊆ S' =>
      hne (hT'.trans (Set.Subset.antisymm hadd hsup))
    have hFT : {i | x ∈ old i} ⊆ K :=
      fun i hi => hT ((mixed_eq_iff hnew h hx hx' hT).mp hT' i hi)
    obtain ⟨j, hj⟩ := hx
    refine ⟨{i | x ∈ old i}, hFT, ⟨j, hj⟩, fun y hy hy' => absurd (hadd hy) hy', ?_, .inl hadd⟩
    intro y hy hy' i
    have hsame : ∀ z w, z ∈ all old → z ∉ S' → w ∈ all old → w ∉ S' →
        {i | w ∈ old i} ⊆ K → z ∈ old i → w ∈ old i := by
      intro z w hz hz' hw hw' hwK hzi
      have hgone := (mixed_eq_iff hnew h hw hw' hwK).mpr fun _ hi => hi
      exact (mixed_eq_iff hnew h hz hz' hwK).mp hgone i hzi
    have hyK : {i | y ∈ old i} ⊆ K := by
      have hgone := (mixed_eq_iff hnew h ⟨j, hj⟩ hx' hFT).mpr fun _ hi => hi
      exact fun k hk => hFT ((mixed_eq_iff hnew h hy hy' hFT).mp hgone k hk)
    exact ⟨hsame y x hy hy' ⟨j, hj⟩ hx' hFT, hsame x y ⟨j, hj⟩ hx' hy hy' hyK⟩
  · obtain ⟨x, hx', hx⟩ := Set.not_subset.mp hadd
    have hmem : x ∈ mixed old new T := hT' ▸ hx'
    obtain ⟨f, ⟨hfT, hf⟩ | ⟨-, hf⟩⟩ := hmem
    swap
    · exact absurd ⟨f, hf⟩ hx
    have hswitch : ∀ i ∈ K, x ∈ new i ↔ mixed old new {i} = S' :=
      fun i hi => mem_new_iff h hx' hx hi
    have hremoved : ∀ y ∈ all old, y ∉ S' → ∀ i ∈ K, x ∈ new i → ∀ k, y ∈ old k ↔ k = i := by
      intro y hy hy' i hi hxi k
      have honly := (mixed_eq_iff hnew h hy hy' (Set.singleton_subset_iff.mpr hi)).mp
        ((hswitch i hi).mp hxi)
      obtain ⟨j, hj⟩ := hy
      have hji : j = i := honly j hj
      exact ⟨honly k, fun hk => hk ▸ hji ▸ hj⟩
    refine ⟨{i | i ∈ K ∧ x ∈ new i}, fun i hi => hi.1, ⟨f, hT hfT, hf⟩, ?_, ?_, ?_⟩
    · intro y hy' hy i hi
      rw [mem_new_iff h hy' hy hi, ← hswitch i hi]
      exact ⟨fun hxi => ⟨hi, hxi⟩, And.right⟩
    · intro y hy hy' i
      rw [hremoved y hy hy' f (hT hfT) hf i]
      constructor
      · rintro rfl
        exact ⟨hT hfT, hf⟩
      · rintro ⟨hi, hxi⟩
        obtain ⟨j, hj⟩ := hy
        have hj₁ := (hremoved y ⟨j, hj⟩ hy' f (hT hfT) hf j).mp hj
        have hj₂ := (hremoved y ⟨j, hj⟩ hy' i hi hxi j).mp hj
        exact hj₂.symm.trans hj₁
    · by_cases hsup : all old ⊆ S'
      · exact .inr (.inl hsup)
      · obtain ⟨y, hy, hy'⟩ := Set.not_subset.mp hsup
        right
        right
        rintro i ⟨hi, hxi⟩ k ⟨hk, hxk⟩
        obtain ⟨j, hj⟩ := hy
        have hj₁ := (hremoved y ⟨j, hj⟩ hy' i hi hxi j).mp hj
        have hj₂ := (hremoved y ⟨j, hj⟩ hy' k hk hxk j).mp hj
        exact hj₁.symm.trans hj₂

/-- Every stop shows the old or the new collection exactly if elements of both
are kept and all others come and go together. -/
theorem overwrite_atomic_iff :
    Atomic old new K S' ↔
      Kept old new K S' ∧ (Hidden old new K S' ∨ ∃ F, SwitchAt old new K S' F) := by
  constructor
  · intro h
    refine ⟨kept_of_atomic h, ?_⟩
    by_cases hold : ∀ T ⊆ K, mixed old new T = all old
    · exact .inl (hidden_of_all_old hnew hold)
    · right
      simp only [not_forall] at hold
      obtain ⟨T, hT, hne⟩ := hold
      exact switch_of_atomic hnew h hT hne
  · rintro ⟨hkept, hhidden | ⟨F, hF⟩⟩ T hT
    · exact .inl (mixed_of_hidden hkept hhidden hT)
    · exact mixed_of_switch hkept hF hT hnew

end

end Overwrite
