import Mathlib

/-!
# Lexical paths

A path is a text with its names separated by slashes, resolved without a file system: an empty
name and `.` stay in the directory, `..` leaves it, and any other name enters a directory or
names a file.  A location is the list of the names from the root.  A path that is put together
from pieces is resolved piece by piece (`resolve_intercalate`, `location_join`).
-/

namespace LexicalPath

open List

/-- The names on the way from the root of the file system. -/
abbrev Location := List (List Char)

/-- One name of a path. -/
def follow (dir : Location) (name : List Char) : Location :=
  if name = [] ∨ name = ['.'] then dir
  else if name = ['.', '.'] then dir.dropLast
  else dir ++ [name]

/-- Where a path leads that starts in `dir`. -/
def resolve (dir : Location) (path : List Char) : Location := (path.splitOn '/').foldl follow dir

def isAbsolute (path : List Char) : Bool := path.head? = some '/'

/-- The location of a path, for a process that runs in `cwd`. -/
def location (cwd : Location) (path : List Char) : Location :=
  resolve (if isAbsolute path then [] else cwd) path

/-- A path below another one.  An absolute path replaces it. -/
def join (base path : List Char) : List Char :=
  if isAbsolute path then path
  else if base = [] ∨ base.getLast? = some '/' then base ++ path
  else base ++ '/' :: path

/-- A name that enters a directory or names a file. -/
structure Plain (name : List Char) : Prop where
  ne_nil : name ≠ []
  ne_dot : name ≠ ['.']
  ne_dots : name ≠ ['.', '.']
  no_slash : '/' ∉ name

/-- In a directory or in one below it, and not the directory itself. -/
def StrictlyBelow (dir p : Location) : Prop := dir <+: p ∧ dir ≠ p

/-- No location is in both directories. -/
def Apart (dir dir' : Location) : Prop := ∀ p, ¬(dir <+: p ∧ dir' <+: p)

instance (dir p : Location) : Decidable (StrictlyBelow dir p) := inferInstanceAs (Decidable (_ ∧ _))

/-! ## Names -/

variable {name : List Char} {dir : Location}

theorem Plain.append (h : Plain name) {rest : List Char} (hslash : '/' ∉ rest) :
    Plain (name ++ rest) where
  ne_nil heq := h.ne_nil (append_eq_nil_iff.mp heq).1
  ne_dot heq := by
    rcases append_eq_singleton_iff.mp heq with ⟨hnil, -⟩ | ⟨hdot, -⟩
    · exact h.ne_nil hnil
    · exact h.ne_dot hdot
  ne_dots heq := by
    rcases append_eq_cons_iff.mp heq with ⟨hnil, -⟩ | ⟨tail, rfl, htail⟩
    · exact h.ne_nil hnil
    · rcases append_eq_singleton_iff.mp htail.symm with ⟨rfl, -⟩ | ⟨rfl, -⟩
      · exact h.ne_dot rfl
      · exact h.ne_dots rfl
  no_slash hmem := (mem_append.mp hmem).elim h.no_slash hslash

theorem Plain.of_length (hlen : 2 < name.length) (hslash : '/' ∉ name) :
    Plain name where
  ne_nil := by rintro rfl; simp at hlen
  ne_dot := by rintro rfl; simp at hlen
  ne_dots := by rintro rfl; simp at hlen
  no_slash := hslash

theorem follow_plain (dir : Location) (h : Plain name) : follow dir name = dir ++ [name] := by
  rw [follow, if_neg (not_or.mpr ⟨h.ne_nil, h.ne_dot⟩), if_neg h.ne_dots]

/-! ## Resolving -/

section

variable (dir : Location)

@[simp]
theorem resolve_nil : resolve dir [] = dir := rfl

theorem resolve_of_no_slash (h : '/' ∉ name) :
    resolve dir name = follow dir name := by
  rw [resolve, splitOn_eq_singleton h, foldl_cons, foldl_nil]

theorem resolve_plain (h : Plain name) : resolve dir name = dir ++ [name] := by
  rw [resolve_of_no_slash dir h.no_slash, follow_plain dir h]

theorem resolve_append_slash (p q : List Char) :
    resolve dir (p ++ '/' :: q) = resolve (resolve dir p) q := by
  rw [resolve, splitOn_append_cons_self, foldl_append, resolve, resolve]

theorem resolve_intercalate (pieces : List (List Char)) :
    resolve dir (['/'].intercalate pieces) = pieces.foldl resolve dir := by
  induction pieces generalizing dir with
  | nil => rfl
  | cons p pieces ih =>
    cases pieces with
    | nil => simp
    | cons q pieces =>
      rw [intercalate_cons_cons, append_assoc, singleton_append,
        resolve_append_slash, ih]
      rfl

end

theorem isAbsolute_append {base : List Char} (h : base ≠ []) (path : List Char) :
    isAbsolute (base ++ path) = isAbsolute base := by
  rw [isAbsolute, isAbsolute, head?_append_of_ne_nil _ h]

theorem location_join (cwd : Location) (base : List Char) {path : List Char}
    (h : isAbsolute path = false) :
    location cwd (join base path) = resolve (location cwd base) path := by
  rw [join, if_neg (ne_true_of_eq_false h)]
  by_cases hempty : base = []
  · subst hempty
    rw [if_pos (.inl rfl), nil_append, location, h]
    rfl
  · split
    next hbase =>
      obtain ⟨init, rfl⟩ := getLast?_eq_some_iff.mp (hbase.resolve_left hempty)
      rw [location, isAbsolute_append hempty, location, append_assoc, singleton_append,
        resolve_append_slash, resolve_append_slash, resolve_nil]
    next => rw [location, isAbsolute_append hempty, resolve_append_slash, location]

/-- A longer file name. -/
theorem intercalate_concat_append (pieces : List (List Char)) (file ext : List Char) :
    ['/'].intercalate (pieces ++ [file]) ++ ext = ['/'].intercalate (pieces ++ [file ++ ext]) := by
  induction pieces with
  | nil => simp
  | cons p pieces ih =>
    rw [cons_append, cons_append, intercalate_cons_of_ne_nil (by simp),
      intercalate_cons_of_ne_nil (by simp), ← ih, append_assoc, append_assoc]

theorem join_append (base : List Char) {path : List Char} (h : path ≠ []) (ext : List Char) :
    join base path ++ ext = join base (path ++ ext) := by
  simp only [join, isAbsolute_append h]
  split
  · rfl
  · split <;> simp

/-! ## Directories -/

theorem strictlyBelow_concat {p : Location} : StrictlyBelow dir (p ++ [name]) ↔ dir <+: p := by
  rw [StrictlyBelow, prefix_concat_iff]
  constructor
  · rintro ⟨heq | hp, hne⟩
    · exact absurd heq hne
    · exact hp
  · intro hp
    refine ⟨.inr hp, fun heq => ?_⟩
    have hlen := hp.length_le
    rw [heq, length_append, length_singleton] at hlen
    omega

theorem Apart.symm {dir' : Location} (h : Apart dir dir') : Apart dir' dir :=
  fun p hp => h p hp.symm

theorem not_apart_of_prefix {dir' : Location} (h : dir <+: dir') : ¬Apart dir dir' :=
  fun hapart => hapart dir' ⟨h, prefix_rfl⟩

theorem apart_siblings (dir : Location) {name' : List Char} (h : name ≠ name') :
    Apart (dir ++ [name]) (dir ++ [name']) := by
  rintro p ⟨⟨rest, rfl⟩, hp⟩
  rw [append_assoc, prefix_append_right_inj, singleton_append,
    cons_prefix_cons] at hp
  exact h hp.1.symm

end LexicalPath
