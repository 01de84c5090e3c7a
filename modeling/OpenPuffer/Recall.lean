import OpenPuffer.Lib.Congruential

/-!
# Samples of a recall evaluation

A recall evaluation draws distinct indices of a corpus with a congruential generator of 64
bits, and skips an index that it has already.  The loop ends because the generator comes
through all states: whatever is still missing, some later state gives it (`CanPick`).
-/

namespace OpenPuffer

/-- A step of the generator. -/
def nextState : Nat → Nat := Congruential.next 6364136223846793005 1442695040888963407 64

/-- The loop, with the number of steps it may take; `none` if they do not suffice. -/
def sampleLoop (corpusLen want : Nat) : (fuel state : Nat) → (picked : Finset Nat) →
    (out : List Nat) → Option (List Nat)
  | 0, _, _, out => if out.length < want then none else some out
  | fuel + 1, state, picked, out =>
    if out.length < want then
      let state := nextState state
      let idx := state % corpusLen
      if idx ∈ picked then sampleLoop corpusLen want fuel state picked out
      else sampleLoop corpusLen want fuel state (insert idx picked) (out ++ [idx])
    else some out

def sampleCorpusIndices (fuel corpusLen num seed : Nat) : Option (List Nat) :=
  if corpusLen = 0 ∨ num = 0 then some []
  else sampleLoop corpusLen (min num corpusLen) fuel seed ∅ []

/-- Every index has been picked or comes within the next steps. -/
def CanPick (corpusLen fuel state : Nat) (picked : Finset Nat) : Prop :=
  ∀ idx < corpusLen, idx ∈ picked ∨
    ∃ n < fuel, nextState^[n] (nextState state) % corpusLen = idx

variable {corpusLen want : Nat}

/-- One step uses up the index that it gives. -/
theorem CanPick.next {fuel state : Nat} {picked : Finset Nat}
    (h : CanPick corpusLen (fuel + 1) state picked) :
    CanPick corpusLen fuel (nextState state) (insert (nextState state % corpusLen) picked) := by
  intro idx hidx
  rcases h idx hidx with hpicked | ⟨n, hn, hstate⟩
  · exact .inl (Finset.mem_insert_of_mem hpicked)
  · cases n with
    | zero =>
      rw [Function.iterate_zero_apply] at hstate
      exact .inl (hstate ▸ Finset.mem_insert_self _ _)
    | succ n =>
      rw [Function.iterate_succ_apply] at hstate
      exact .inr ⟨n, by omega, hstate⟩

/-- Distinct indices of the corpus, at most as many as wanted. -/
structure Sampled (corpusLen want : Nat) (picked : Finset Nat) (out : List Nat) : Prop where
  picked_eq : picked = out.toFinset
  nodup : out.Nodup
  lt : ∀ idx ∈ out, idx < corpusLen
  length_le : out.length ≤ want

theorem sampleLoop_spec (hwant : want ≤ corpusLen) {fuel state : Nat} {picked : Finset Nat}
    {out : List Nat} (h : Sampled corpusLen want picked out)
    (hcovers : CanPick corpusLen fuel state picked) : ∃ res,
      sampleLoop corpusLen want fuel state picked out = some res ∧ res.length = want ∧
      res.Nodup ∧ ∀ idx ∈ res, idx < corpusLen := by
  induction fuel generalizing state picked out with
  | zero =>
    have hall : Finset.range corpusLen ⊆ picked := by
      intro idx hidx
      exact (hcovers idx (Finset.mem_range.mp hidx)).resolve_right fun ⟨n, hn, _⟩ => by omega
    have hcard := Finset.card_le_card hall
    rw [Finset.card_range, h.picked_eq, List.toFinset_card_of_nodup h.nodup] at hcard
    have hlen := h.length_le
    rw [sampleLoop, if_neg (by omega)]
    exact ⟨out, rfl, by omega, h.nodup, h.lt⟩
  | succ fuel ih =>
    rw [sampleLoop]
    split
    · rename_i hshort
      have hnext := hcovers.next
      simp only
      split
      · rename_i hpicked
        rw [Finset.insert_eq_of_mem hpicked] at hnext
        exact ih h hnext
      · rename_i hnew
        refine ih ⟨?_, ?_, fun idx hidx => ?_, ?_⟩ hnext
        · ext idx
          simp [h.picked_eq, or_comm]
        · rw [h.picked_eq, List.mem_toFinset] at hnew
          rw [← List.concat_eq_append]
          exact h.nodup.concat hnew
        · rcases List.mem_append.mp hidx with hidx | hidx
          · exact h.lt idx hidx
          · rw [List.mem_singleton.mp hidx]
            have := h.length_le
            exact Nat.mod_lt _ (by omega)
        · rw [List.length_append]
          exact hshort
    · rename_i hdone
      exact ⟨out, rfl, le_antisymm h.length_le (not_lt.mp hdone), h.nodup, h.lt⟩

theorem covers_seed (hlen : corpusLen ≤ 2 ^ 64) (seed : Nat) :
    CanPick corpusLen (2 ^ 64) seed ∅ := by
  intro idx hidx
  obtain ⟨n, hn, hmod⟩ := Congruential.reaches (a := 6364136223846793005)
    (c := 1442695040888963407) (by decide) (by decide) 64 (nextState seed) idx
  have hlt : nextState^[n] (nextState seed) < 2 ^ 64 := by
    rw [← Function.iterate_succ_apply, Function.iterate_succ_apply']
    exact Nat.mod_lt _ (Nat.two_pow_pos 64)
  have heq : nextState^[n] (nextState seed) = idx :=
    Nat.ModEq.eq_of_lt_of_lt hmod hlt (hidx.trans_le hlen)
  exact .inr ⟨n, hn, by rw [heq, Nat.mod_eq_of_lt hidx]⟩

/-- For every corpus, number and seed, the loop ends within `2 ^ 64` steps with the wanted
number of distinct indices. -/
theorem sampleCorpusIndices_spec {corpusLen : Nat} (hpos : 1 ≤ corpusLen)
    (hlen : corpusLen < 2 ^ 64) (num seed : Nat) : ∃ out,
      sampleCorpusIndices (2 ^ 64) corpusLen num seed = some out ∧
      out.length = min num corpusLen ∧ out.Nodup ∧ ∀ idx ∈ out, idx < corpusLen := by
  rw [sampleCorpusIndices]
  split
  · rename_i hzero
    exact ⟨[], rfl, by simp only [List.length_nil]; omega, List.nodup_nil, by simp⟩
  · exact sampleLoop_spec (Nat.min_le_right num corpusLen)
      ⟨rfl, List.nodup_nil, by simp, Nat.zero_le _⟩ (covers_seed hlen.le seed)

theorem sampleCorpusIndices_five : ∃ out,
    sampleCorpusIndices (2 ^ 64) 5 3 1 = some out ∧ out.length = 3 ∧ out.Nodup ∧
      ∀ idx ∈ out, idx < 5 :=
  sampleCorpusIndices_spec (by decide) (by decide) 3 1

end OpenPuffer
