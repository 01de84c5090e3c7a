import Mathlib

/-!
# A binary format with fixed-width lengths

The default format of the `bincode` crate, as far as numbers, strings, sequences, records and
plain enumerations go.  A number has the width of its type, lowest byte first, and a length is a
number of eight bytes.  A reader ignores what is left at the end of the input.

A `Wire` has a writer and a reader with the proofs that make them a format: the reader gives
back what was written, and it never succeeds without taking `minSize` bytes, which bounds the
length of a sequence (`Wire.length_readSeq`).
-/

namespace Bincode

open List

/-- Why an input is refused. -/
inductive Error where
  | unexpectedEof
  | invalidUtf8
  | invalidBool (found : Nat)
  | invalidVariant (found count : Nat)
deriving DecidableEq, Repr

def Error.display : Error → String
  | .unexpectedEof => "io error: "
  | .invalidUtf8 => "string is not valid utf8"
  | .invalidBool found => s!"invalid u8 while decoding bool, expected 0 or 1, found {found}"
  | .invalidVariant found count =>
    s!"invalid value: integer `{found}`, expected variant index 0 <= i < {count}"

/-! ## Little-endian numbers -/

/-- The lowest `width` bytes of a number, lowest first. -/
def leBytes : (width n : Nat) → List UInt8
  | 0, _ => []
  | width + 1, n => UInt8.ofNat n :: leBytes width (n / 256)

/-- The number with the given bytes, lowest first. -/
def leValue : List UInt8 → Nat
  | [] => 0
  | b :: bytes => b.toNat + 256 * leValue bytes

@[simp] theorem length_leBytes (width n : Nat) : (leBytes width n).length = width := by
  induction width generalizing n with
  | zero => rfl
  | succ width ih => simp [leBytes, ih]

theorem leValue_leBytes (width n : Nat) : leValue (leBytes width n) = n % 256 ^ width := by
  induction width generalizing n with
  | zero => simp [leBytes, leValue, Nat.mod_one]
  | succ width ih =>
    rw [leBytes, leValue, ih, Nat.pow_succ', Nat.mod_mul]
    simp

theorem leValue_append (bytes more : List UInt8) :
    leValue (bytes ++ more) = leValue bytes + 256 ^ bytes.length * leValue more := by
  induction bytes with
  | nil => simp [leValue]
  | cons b bytes ih =>
    rw [cons_append, leValue, leValue, ih, length_cons, Nat.pow_succ']
    ring

/-! ## Readers -/

/-- The first `n` bytes and the rest. -/
def take (n : Nat) (bytes : List UInt8) : Except Error (List UInt8 × List UInt8) :=
  if bytes.length < n then .error .unexpectedEof else .ok (bytes.take n, bytes.drop n)

theorem take_append (bytes rest : List UInt8) :
    take bytes.length (bytes ++ rest) = .ok (bytes, rest) := by
  simp [take]

theorem take_ok {n : Nat} {bytes first rest : List UInt8} (h : take n bytes = .ok (first, rest)) :
    n ≤ bytes.length ∧ first = bytes.take n ∧ rest = bytes.drop n := by
  rw [take] at h
  split at h
  · cases h
  · cases h
    exact ⟨by omega, rfl, rfl⟩

def lengthSize : Nat := 8

def readLength (bytes : List UInt8) : Except Error (Nat × List UInt8) :=
  match take lengthSize bytes with
  | .error e => .error e
  | .ok (first, rest) => .ok (leValue first, rest)

theorem readLength_append {n : Nat} (h : n < 2 ^ 64) (rest : List UInt8) :
    readLength (leBytes lengthSize n ++ rest) = .ok (n, rest) := by
  have htake := take_append (leBytes lengthSize n) rest
  rw [length_leBytes] at htake
  rw [readLength, htake]
  simp only [leValue_leBytes]
  rw [Nat.mod_eq_of_lt]
  exact h

theorem readLength_ok {n : Nat} {bytes rest : List UInt8} (h : readLength bytes = .ok (n, rest)) :
    n = leValue (bytes.take lengthSize) ∧ rest.length + lengthSize = bytes.length := by
  rw [readLength] at h
  split at h
  · cases h
  · rename_i first rest' htake
    cases h
    obtain ⟨hle, rfl, rfl⟩ := take_ok htake
    exact ⟨rfl, by rw [length_drop]; omega⟩

/-- A format for the values of a type. -/
structure Wire (α : Type) where
  write : α → List UInt8
  read : List UInt8 → Except Error (α × List UInt8)
  /-- The least number of bytes of a value. -/
  minSize : Nat
  minSize_pos : 0 < minSize
  minSize_le : ∀ a, minSize ≤ (write a).length
  read_write : ∀ a rest, (write a).length < 2 ^ 64 → read (write a ++ rest) = .ok (a, rest)
  length_read : ∀ bytes a rest, read bytes = .ok (a, rest) → rest.length + minSize ≤ bytes.length

namespace Wire

variable {α β : Type}

/-! ## Bytes and strings -/

def byte : Wire UInt8 where
  write b := [b]
  read
    | [] => .error .unexpectedEof
    | b :: rest => .ok (b, rest)
  minSize := 1
  minSize_pos := Nat.one_pos
  minSize_le _ := Nat.le_refl _
  read_write _ _ _ := rfl
  length_read := by
    intro bytes a rest h
    cases bytes with
    | nil => cases h
    | cons b bytes =>
      cases h
      exact Nat.le_refl _

/-- A number of `width` bytes. -/
def uint (width : Nat) (hpos : 0 < width) : Wire (BitVec (8 * width)) where
  write n := leBytes width n.toNat
  read bytes :=
    match take width bytes with
    | .error e => .error e
    | .ok (first, rest) => .ok (BitVec.ofNat _ (leValue first), rest)
  minSize := width
  minSize_pos := hpos
  minSize_le n := (length_leBytes width n.toNat).ge
  read_write := by
    intro n rest _
    have htake := take_append (leBytes width n.toNat) rest
    rw [length_leBytes] at htake
    have hlt : n.toNat < 256 ^ width := by
      have := n.isLt
      rwa [Nat.pow_mul] at this
    simp [htake, leValue_leBytes, Nat.mod_eq_of_lt hlt]
  length_read := by
    intro bytes n rest h
    split at h
    · cases h
    · rename_i first rest' htake
      cases h
      obtain ⟨hle, -, rfl⟩ := take_ok htake
      rw [List.length_drop]
      omega

def u32 : Wire (BitVec 32) := uint 4 (by decide)

def u64 : Wire (BitVec 64) := uint 8 (by decide)

def writeString (s : String) : List UInt8 :=
  leBytes lengthSize s.utf8ByteSize ++ s.toUTF8.data.toList

def readString (bytes : List UInt8) : Except Error (String × List UInt8) :=
  match readLength bytes with
  | .error e => .error e
  | .ok (n, rest) =>
    match take n rest with
    | .error e => .error e
    | .ok (text, rest) =>
      match String.fromUTF8? text.toByteArray with
      | none => .error .invalidUtf8
      | some s => .ok (s, rest)

theorem length_utf8 (s : String) : s.toUTF8.data.toList.length = s.utf8ByteSize := by
  rw [Array.length_toList]
  exact String.size_toByteArray

theorem fromUTF8_utf8 (s : String) :
    String.fromUTF8? s.toUTF8.data.toList.toByteArray = some s := by
  have hbytes : s.toUTF8.data.toList.toByteArray = s.toByteArray := by
    apply ByteArray.ext
    rw [data_toByteArray]
    rfl
  rw [hbytes, String.fromUTF8?, dif_pos s.isValidUTF8]
  rfl

/-- A string, with the length of its UTF-8 form in front. -/
def string : Wire String where
  write := writeString
  read := readString
  minSize := lengthSize
  minSize_pos := by decide
  minSize_le := by
    intro s
    simp [writeString]
  read_write := by
    intro s rest h
    have hlen : s.utf8ByteSize < 2 ^ 64 := by
      rw [writeString, List.length_append, length_utf8] at h
      omega
    have htake := take_append s.toUTF8.data.toList rest
    rw [length_utf8] at htake
    simp only [readString, writeString, List.append_assoc, readLength_append hlen, htake,
      fromUTF8_utf8]
  length_read := by
    intro bytes s rest h
    rw [readString] at h
    split at h
    · cases h
    · rename_i n tail hlength
      obtain ⟨-, hlen⟩ := readLength_ok hlength
      split at h
      · cases h
      · rename_i text rest' htake
        obtain ⟨-, -, rfl⟩ := take_ok htake
        split at h
        · cases h
        · cases h
          rw [List.length_drop]
          omega

/-! ## Sequences -/

section Seq

variable (w : Wire α)

/-- The items of a sequence, without its length. -/
def writeItems (items : List α) : List UInt8 := items.flatMap w.write

def readItems : Nat → List UInt8 → Except Error (List α × List UInt8)
  | 0, bytes => .ok ([], bytes)
  | n + 1, bytes =>
    match w.read bytes with
    | .error e => .error e
    | .ok (item, rest) =>
      match readItems n rest with
      | .error e => .error e
      | .ok (items, rest) => .ok (item :: items, rest)

def writeSeq (items : List α) : List UInt8 := leBytes lengthSize items.length ++ w.writeItems items

def readSeq (bytes : List UInt8) : Except Error (List α × List UInt8) :=
  match readLength bytes with
  | .error e => .error e
  | .ok (n, rest) => w.readItems n rest

end Seq

variable {w : Wire α}

theorem length_writeItems (items : List α) :
    items.length * w.minSize ≤ (w.writeItems items).length := by
  induction items with
  | nil => simp
  | cons item items ih =>
    have hitem := w.minSize_le item
    simp only [writeItems, flatMap_cons, length_append, length_cons] at ih ⊢
    rw [Nat.succ_mul]
    omega

theorem readItems_writeItems (items : List α) (rest : List UInt8)
    (h : (w.writeItems items).length < 2 ^ 64) :
    w.readItems items.length (w.writeItems items ++ rest) = .ok (items, rest) := by
  induction items with
  | nil => rfl
  | cons item items ih =>
    simp only [writeItems, flatMap_cons, length_append] at ih h ⊢
    rw [length_cons, readItems, append_assoc, w.read_write item _ (by omega)]
    simp only
    rw [ih (by omega)]

/-- Every item that was read took its share of the input. -/
theorem length_readItems {n : Nat} {bytes rest : List UInt8} {items : List α}
    (h : w.readItems n bytes = .ok (items, rest)) :
    rest.length + n * w.minSize ≤ bytes.length := by
  induction n generalizing bytes items with
  | zero =>
    cases h
    simp
  | succ n ih =>
    rw [readItems] at h
    split at h
    · cases h
    · rename_i item tail hitem
      have hread := w.length_read bytes item tail hitem
      split at h
      · cases h
      · rename_i more rest' hmore
        cases h
        have := ih hmore
        rw [Nat.succ_mul]
        omega

/-- A sequence that was read has the announced number of items, so the input was
long enough for them. -/
theorem length_readSeq {bytes rest : List UInt8} {items : List α}
    (h : w.readSeq bytes = .ok (items, rest)) :
    rest.length + leValue (bytes.take lengthSize) * w.minSize + lengthSize ≤ bytes.length := by
  rw [readSeq] at h
  split at h
  · cases h
  · rename_i n tail hlength
    obtain ⟨rfl, hlen⟩ := readLength_ok hlength
    have := length_readItems h
    omega

/-- A sequence, with its length in front. -/
def seq (w : Wire α) : Wire (List α) where
  write := w.writeSeq
  read := w.readSeq
  minSize := lengthSize
  minSize_pos := by decide
  minSize_le := by
    intro items
    simp [writeSeq]
  read_write := by
    intro items rest h
    rw [writeSeq, List.length_append] at h
    have hitems : items.length ≤ items.length * w.minSize :=
      Nat.le_mul_of_pos_right _ w.minSize_pos
    have hlen := length_writeItems (w := w) items
    rw [readSeq, writeSeq, List.append_assoc, readLength_append (by omega)]
    exact readItems_writeItems items rest (by omega)
  length_read := by
    intro bytes items rest h
    have := length_readSeq h
    omega

/-! ## Records -/

/-- Two fields, one after the other. -/
def pair (w : Wire α) (v : Wire β) : Wire (α × β) where
  write p := w.write p.1 ++ v.write p.2
  read bytes :=
    match w.read bytes with
    | .error e => .error e
    | .ok (a, rest) =>
      match v.read rest with
      | .error e => .error e
      | .ok (b, rest) => .ok ((a, b), rest)
  minSize := w.minSize + v.minSize
  minSize_pos := Nat.add_pos_left w.minSize_pos _
  minSize_le := by
    intro p
    rw [List.length_append]
    exact Nat.add_le_add (w.minSize_le p.1) (v.minSize_le p.2)
  read_write := by
    intro p rest h
    rw [List.length_append] at h
    simp only [List.append_assoc, w.read_write p.1 _ (by omega), v.read_write p.2 _ (by omega)]
  length_read := by
    intro bytes p rest h
    split at h
    · cases h
    · rename_i a tail ha
      have hfirst := w.length_read bytes a tail ha
      split at h
      · cases h
      · rename_i b rest' hb
        have hsecond := v.length_read tail b rest' hb
        cases h
        omega

/-- The values of another type, written as their image. -/
def map (w : Wire α) (f : α → β) (g : β → α) (hfg : ∀ b, f (g b) = b) : Wire β where
  write b := w.write (g b)
  read bytes :=
    match w.read bytes with
    | .error e => .error e
    | .ok (a, rest) => .ok (f a, rest)
  minSize := w.minSize
  minSize_pos := w.minSize_pos
  minSize_le b := w.minSize_le (g b)
  read_write := by
    intro b rest h
    simp only [w.read_write (g b) rest h, hfg]
  length_read := by
    intro bytes b rest h
    split at h
    · cases h
    · rename_i a _ ha
      cases h
      exact w.length_read bytes a rest ha

/-- The values of another type, written as their image; other images are refused. -/
def checked (w : Wire α) (f : α → Except Error β) (g : β → α) (hfg : ∀ b, f (g b) = .ok b) :
    Wire β where
  write b := w.write (g b)
  read bytes :=
    match w.read bytes with
    | .error e => .error e
    | .ok (a, rest) => (f a).map fun b => (b, rest)
  minSize := w.minSize
  minSize_pos := w.minSize_pos
  minSize_le b := w.minSize_le (g b)
  read_write := by
    intro b rest h
    simp only [w.read_write (g b) rest h, hfg, Except.map]
  length_read := by
    intro bytes b rest h
    split at h
    · cases h
    · rename_i a tail ha
      cases hf : f a with
      | error e =>
        rw [hf] at h
        cases h
      | ok b' =>
        rw [hf] at h
        cases h
        exact w.length_read bytes a _ ha

/-- One byte that is zero or one. -/
def bool : Wire Bool :=
  byte.checked
    (fun b =>
      if b = 0 then .ok false else if b = 1 then .ok true else .error (.invalidBool b.toNat))
    (fun b => if b then 1 else 0) (by decide)

/-- A constructor of an enumeration without fields, as its position among them. -/
def variant [DecidableEq β] (cases : List β) (hlen : cases.length < 2 ^ 32)
    (hall : ∀ b, b ∈ cases) : Wire β :=
  u32.checked
    (fun n =>
      match cases[n.toNat]? with
      | none => .error (.invalidVariant n.toNat cases.length)
      | some b => .ok b)
    (fun b => BitVec.ofNat 32 (cases.idxOf b)) (by
      intro b
      have hlt := (List.idxOf_lt_length_iff.mpr (hall b))
      rw [BitVec.toNat_ofNat, Nat.mod_eq_of_lt (hlt.trans hlen), List.getElem?_eq_getElem hlt,
        List.getElem_idxOf])

end Wire

/-- `bincode::deserialize`: what is left at the end of the input does not matter. -/
def deserialize {α : Type} (w : Wire α) (bytes : List UInt8) : Except Error α :=
  (w.read bytes).map Prod.fst

theorem deserialize_write {α : Type} {w : Wire α} {a : α} (h : (w.write a).length < 2 ^ 64) :
    deserialize w (w.write a) = .ok a := by
  have hread := w.read_write a [] h
  rw [append_nil] at hread
  rw [deserialize, hread]
  rfl

end Bincode
