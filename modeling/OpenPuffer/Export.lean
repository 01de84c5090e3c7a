import OpenPuffer.Wal

/-!
# Export of a namespace

An export reads the documents in pages, ascending by id.  The last id of a full page is the
cursor of the next one, and a page that is not full ends the export.  What is left after the
cursor of a full page is what is left before it without the rows of the page (`after_cursor`).
-/

namespace OpenPuffer

open List

def maxExportLimit : Nat := 10000

structure ExportRow where
  id : String
  attributes : Attributes
deriving DecidableEq

structure ExportPage where
  walCommitSeq : Nat
  rows : List ExportRow
  /-- The cursor of the next page, for a full page. -/
  nextLastId : Option String

def documentToExportRow (doc : Document) : ExportRow := ⟨doc.id, doc.attributes⟩

section Export

variable (o : IterOrder String) (docs : DocMap) (walCommitSeq : Nat)

def sortedIds : List String := (o.toList docs.keys).insertionSort (· ≤ ·)

def idsAfter (lastId : Option String) : List String :=
  (sortedIds o docs).filter fun id => lastId.all (· < id)

def exportPage (lastId : Option String) (limit : Nat) : ExportPage :=
  let limit := min (max limit 1) maxExportLimit
  let rows := ((idsAfter o docs lastId).take limit).filterMap fun id =>
    (docs.get id).map documentToExportRow
  let nextLastId := if rows.length = limit then rows.getLast?.map ExportRow.id else none
  { walCommitSeq, rows, nextLastId }

/-- The rows that a client collects, from page `n` on, with the given limits.  The fuel is a
number of pages; `none` if more pages are left. -/
def exportFrom (limits : Nat → Nat) : (fuel n : Nat) → (lastId : Option String) →
    Option (List ExportRow)
  | 0, _, _ => none
  | fuel + 1, n, lastId =>
    let page := exportPage o docs walCommitSeq lastId (limits n)
    match page.nextLastId with
    | none => some page.rows
    | some id => (exportFrom limits fuel (n + 1) (some id)).map (page.rows ++ ·)

variable {o docs}

theorem sortedIds_pairwise : (sortedIds o docs).Pairwise (· < ·) := by
  have hnodup : (sortedIds o docs).Nodup :=
    (perm_insertionSort _ _).nodup_iff.mpr (o.nodup docs.keys)
  exact (pairwise_insertionSort _ _).imp₂ (fun _ _ => lt_of_le_of_ne) hnodup

theorem mem_sortedIds {id : String} : id ∈ sortedIds o docs ↔ id ∈ docs := by
  rw [sortedIds, mem_insertionSort, o.mem_toList, Finmap.mem_keys]

def rowOf (docs : DocMap) (id : String) : ExportRow := ⟨id, docs.getOr ∅ id⟩

/-- Every id that is left has a row. -/
theorem rows_eq_map {ids : List String} (h : ∀ id ∈ ids, id ∈ sortedIds o docs) :
    (ids.filterMap fun id => (docs.get id).map documentToExportRow) = ids.map (rowOf docs) := by
  rw [← filterMap_eq_map]
  refine filterMap_congr fun id hid => ?_
  obtain ⟨attributes, hlookup⟩ := Finmap.mem_iff.mp (mem_sortedIds.mp (h id hid))
  simp [DocMap.get, documentToExportRow, rowOf, HashMap.getOr, hlookup]

/-- After a full page, the rows of the page are no longer left. -/
theorem after_cursor {lastId : Option String} {page rest : List String} {id : String}
    (h : idsAfter o docs lastId = page ++ [id] ++ rest) :
    idsAfter o docs (some id) = rest := by
  have hsorted : (page ++ [id] ++ rest).Pairwise (· < ·) := h ▸ sortedIds_pairwise.filter _
  obtain ⟨hfirst, -, hlater⟩ := pairwise_append.mp hsorted
  have hcursor : lastId.all (· < id) = true := by
    have hmem : id ∈ idsAfter o docs lastId := by simp [h]
    exact (mem_filter.mp hmem).2
  have hnested : idsAfter o docs (some id)
      = (idsAfter o docs lastId).filter fun j => decide (id < j) := by
    rw [idsAfter, idsAfter, filter_filter]
    refine filter_congr fun j _ => ?_
    cases lastId with
    | none => simp
    | some last =>
      have hlast : last < id := of_decide_eq_true hcursor
      rw [Option.all_some, Option.all_some, Bool.eq_iff_iff, Bool.and_eq_true]
      simp only [decide_eq_true_iff]
      exact ⟨fun hj => ⟨hj, hlast.trans hj⟩, And.left⟩
  rw [hnested, h, filter_append, filter_eq_nil_iff.mpr, nil_append,
    filter_eq_self.mpr]
  · intro j hj
    exact decide_eq_true (hlater id (by simp) j hj)
  · intro j hj hlt
    rcases mem_append.mp hj with hj | hj
    · have hbefore := (pairwise_append.mp hfirst).2.2 j hj id mem_cons_self
      exact lt_asymm hbefore (of_decide_eq_true hlt)
    · rw [mem_singleton.mp hj] at hlt
      exact lt_irrefl id (of_decide_eq_true hlt)

/-- A page has the first ids that are left.  If it is not full, nothing is left after it, and
otherwise something was left before it. -/
theorem exportPage_cases (o : IterOrder String) (docs : DocMap) (lastId : Option String)
    (limit : Nat) :
    ((exportPage o docs walCommitSeq lastId limit).nextLastId = none ∧
        (exportPage o docs walCommitSeq lastId limit).rows
          = (idsAfter o docs lastId).map (rowOf docs)) ∨
      ∃ page id rest, idsAfter o docs lastId = page ++ [id] ++ rest ∧
        (exportPage o docs walCommitSeq lastId limit).nextLastId = some id ∧
        (exportPage o docs walCommitSeq lastId limit).rows = (page ++ [id]).map (rowOf docs) := by
  have hmem : ∀ id ∈ (idsAfter o docs lastId).take (min (max limit 1) maxExportLimit),
      id ∈ sortedIds o docs := fun id hid => mem_of_mem_filter (mem_of_mem_take hid)
  simp only [exportPage, rows_eq_map hmem, length_map, length_take, getLast?_map,
    Option.map_map]
  have hpos : 0 < min (max limit 1) maxExportLimit := by
    rw [maxExportLimit]
    omega
  generalize min (max limit 1) maxExportLimit = limit at hpos
  split
  · rename_i hfull
    have hne : (idsAfter o docs lastId).take limit ≠ [] := by
      intro hnil
      rw [← length_take, hnil] at hfull
      exact Nat.ne_of_lt hpos hfull
    obtain ⟨page, id, hpage⟩ := (eq_nil_or_concat' _).resolve_left hne
    refine .inr ⟨page, id, (idsAfter o docs lastId).drop limit, ?_, ?_, by rw [hpage]⟩
    · rw [← hpage, take_append_drop]
    · rw [hpage, getLast?_concat]
      rfl
  · rename_i hshort
    exact .inl ⟨rfl, by rw [take_of_length_le (by omega)]⟩

/-- An export from a cursor ends, with everything that is left. -/
theorem exportFrom_eq (limits : Nat → Nat) {fuel : Nat} (n : Nat) (lastId : Option String)
    (hfuel : (idsAfter o docs lastId).length < fuel) :
    exportFrom o docs walCommitSeq limits fuel n lastId
      = some ((idsAfter o docs lastId).map (rowOf docs)) := by
  induction fuel generalizing n lastId with
  | zero => cases hfuel
  | succ fuel ih =>
    rw [exportFrom]
    rcases exportPage_cases walCommitSeq o docs lastId (limits n) with
      ⟨hnext, hrows⟩ | ⟨page, id, rest, hleft, hnext, hrows⟩
    · simp only [hnext, hrows]
    · have hrest := after_cursor hleft
      have hlen : rest.length < fuel := by
        rw [hleft] at hfuel
        simp only [length_append, length_singleton] at hfuel
        omega
      simp only [hnext, hrows, ih (n + 1) (some id) (hrest ▸ hlen), hrest, Option.map_some, hleft,
        map_append]

/-- For every sequence of limits, an export ends after at most one page more than there are
documents.  Its rows are the documents, each once, strictly ascending by id. -/
theorem export_complete (o : IterOrder String) (docs : DocMap) (walCommitSeq : Nat)
    (limits : Nat → Nat) : ∃ rows,
      exportFrom o docs walCommitSeq limits (docs.keys.card + 1) 0 none = some rows ∧
      rows.Pairwise (fun r r' => r.id < r'.id) ∧
      ∀ id attributes, ⟨id, attributes⟩ ∈ rows ↔ docs.lookup id = some attributes := by
  have hall : idsAfter o docs none = sortedIds o docs :=
    filter_eq_self.mpr fun _ _ => rfl
  have hlen : (idsAfter o docs none).length < docs.keys.card + 1 := by
    rw [hall, sortedIds, length_insertionSort, o.length_toList]
    exact Nat.lt_succ_self _
  refine ⟨_, exportFrom_eq walCommitSeq limits 0 none hlen, ?_, fun id attributes => ?_⟩
  · rw [hall]
    exact pairwise_map.mpr sortedIds_pairwise
  · rw [hall, mem_map]
    constructor
    · rintro ⟨j, hj, hrow⟩
      obtain ⟨attrs, hlookup⟩ := Finmap.mem_iff.mp (mem_sortedIds.mp hj)
      simp only [rowOf, ExportRow.mk.injEq, HashMap.getOr] at hrow
      obtain ⟨rfl, rfl⟩ := hrow
      rw [hlookup]
      rfl
    · intro hlookup
      refine ⟨id, mem_sortedIds.mpr (Finmap.mem_of_lookup_eq_some hlookup), ?_⟩
      rw [rowOf, HashMap.getOr, hlookup]
      rfl

end Export

end OpenPuffer
