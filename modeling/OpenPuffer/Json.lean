import Mathlib

/-!
# JSON values

`serde_json::Value` as a tree.  An object is a `BTreeMap`, so its fields are a
list sorted by key, and `insertField` keeps it sorted.  A number keeps the
three shapes of `serde_json::Number`; a float is finite there, so it is the
rational it denotes or the second zero.
-/

namespace OpenPuffer

/-- `serde_json::Number`: a `u64`, a negative `i64`, or a finite `f64`. -/
inductive Number where
  | posInt (n : Nat)
  | negInt (n : Int)
  | float (q : Rat)
  /-- The float `-0.0`. -/
  | negZero
deriving DecidableEq, Repr

/-- `serde_json::Value`. -/
inductive Json where
  | null
  | bool (b : Bool)
  | num (n : Number)
  | str (s : String)
  | arr (items : List Json)
  | obj (fields : List (String × Json))
deriving Repr

/-! ## Equality of trees is decidable -/

mutual

def Json.decEq : (a b : Json) → Decidable (a = b)
  | .null, .null => isTrue rfl
  | .bool a, .bool b => decidable_of_iff (a = b) (by simp)
  | .num a, .num b => decidable_of_iff (a = b) (by simp)
  | .str a, .str b => decidable_of_iff (a = b) (by simp)
  | .arr xs, .arr ys =>
    match Json.decEqItems xs ys with
    | isTrue h => isTrue (by rw [h])
    | isFalse h => isFalse (by simpa using h)
  | .obj xs, .obj ys =>
    match Json.decEqFields xs ys with
    | isTrue h => isTrue (by rw [h])
    | isFalse h => isFalse (by simpa using h)
  | .null, .bool _ | .null, .num _ | .null, .str _ | .null, .arr _ | .null, .obj _
  | .bool _, .null | .bool _, .num _ | .bool _, .str _ | .bool _, .arr _ | .bool _, .obj _
  | .num _, .null | .num _, .bool _ | .num _, .str _ | .num _, .arr _ | .num _, .obj _
  | .str _, .null | .str _, .bool _ | .str _, .num _ | .str _, .arr _ | .str _, .obj _
  | .arr _, .null | .arr _, .bool _ | .arr _, .num _ | .arr _, .str _ | .arr _, .obj _
  | .obj _, .null | .obj _, .bool _ | .obj _, .num _ | .obj _, .str _ | .obj _, .arr _ =>
    isFalse (by simp)

def Json.decEqItems : (xs ys : List Json) → Decidable (xs = ys)
  | [], [] => isTrue rfl
  | [], _ :: _ => isFalse (by simp)
  | _ :: _, [] => isFalse (by simp)
  | x :: xs, y :: ys =>
    match Json.decEq x y, Json.decEqItems xs ys with
    | isTrue h, isTrue h' => isTrue (by rw [h, h'])
    | isFalse h, _ => isFalse fun e => h (List.cons.inj e).1
    | _, isFalse h => isFalse fun e => h (List.cons.inj e).2

def Json.decEqFields : (xs ys : List (String × Json)) → Decidable (xs = ys)
  | [], [] => isTrue rfl
  | [], _ :: _ => isFalse (by simp)
  | _ :: _, [] => isFalse (by simp)
  | (k, x) :: xs, (l, y) :: ys =>
    match (inferInstance : Decidable (k = l)), Json.decEq x y, Json.decEqFields xs ys with
    | isTrue hk, isTrue h, isTrue h' => isTrue (by rw [hk, h, h'])
    | isFalse h, _, _ => isFalse fun e => h (Prod.mk.inj (List.cons.inj e).1).1
    | _, isFalse h, _ => isFalse fun e => h (Prod.mk.inj (List.cons.inj e).1).2
    | _, _, isFalse h => isFalse fun e => h (List.cons.inj e).2

end

instance : DecidableEq Json := Json.decEq

instance : Inhabited Json := ⟨.null⟩

/-! ## Accessors -/

def Json.asObject : Json → Option (List (String × Json))
  | .obj fields => some fields
  | _ => none

def Json.asArray : Json → Option (List Json)
  | .arr items => some items
  | _ => none

def Json.asStr : Json → Option String
  | .str s => some s
  | _ => none

def Json.asBool : Json → Option Bool
  | .bool b => some b
  | _ => none

def Json.isNull : Json → Bool
  | .null => true
  | _ => false

/-- `Map::get`. -/
def getField (k : String) : List (String × Json) → Option Json
  | [] => none
  | (l, v) :: rest => if k = l then some v else getField k rest

/-- `Map::insert` on the sorted fields. -/
def insertField (k : String) (v : Json) : List (String × Json) → List (String × Json)
  | [] => [(k, v)]
  | (l, w) :: rest =>
    if k = l then (k, v) :: rest
    else if k < l then (k, v) :: (l, w) :: rest
    else (l, w) :: insertField k v rest

/-! ## Strings -/

/-- `str::to_ascii_lowercase`. -/
def toAsciiLowercase (s : String) : List Char := s.toList.map Char.toLower

/-- `str::contains` for a string pattern, on characters. -/
def contains (hay : List Char) (needle : String) : Bool :=
  decide (needle.toList <:+: hay)

/-! ## Fallible computations -/

/-- A `?` that was passed: the computation before it succeeded. -/
theorem bind_eq_ok {ε α β : Type} {x : Except ε α} {f : α → Except ε β} {b : β} :
    x >>= f = .ok b ↔ ∃ a, x = .ok a ∧ f a = .ok b := by
  cases x with
  | error e => simp [bind, Except.bind]
  | ok a => simp [bind, Except.bind]

theorem toOption_eq_some {ε α : Type} {x : Except ε α} {a : α} :
    x.toOption = some a ↔ x = .ok a := by
  cases x with
  | error e => simp [Except.toOption]
  | ok b => simp [Except.toOption]

/-! ## Machine integers

Counters of the source are `u64`.  They are `Nat` here, and only their
saturating operations can tell the difference. -/

def u64Max : Nat := 2 ^ 64 - 1

/-- `u64::saturating_add`. -/
def saturatingAdd (a b : Nat) : Nat := min (a + b) u64Max

/-- `usize::saturating_mul`. -/
def saturatingMul (a b : Nat) : Nat := min (a * b) u64Max

theorem saturatingAdd_one_of_lt {a : Nat} (h : a < u64Max) : saturatingAdd a 1 = a + 1 := by
  unfold saturatingAdd
  omega

theorem saturatingAdd_one_of_lt_self {a : Nat} (h : a < saturatingAdd a 1) :
    saturatingAdd a 1 = a + 1 := by
  unfold saturatingAdd at h ⊢
  omega

end OpenPuffer
