import OpenPuffer.Lib.FloatingPoint

/-!
# Rounded and exact arithmetic

Code on floating point values is translated once, over the operations of an
`Arithmetic`.  With `binary64` it computes what the machine computes.  With `exact` it
computes in an ordered field: the infinities and NaN are those of IEEE 754, and a
finite result is not rounded.
-/

/-- The operations of a floating point type. -/
structure Arithmetic (S : Type) where
  /-- The value of a literal. -/
  ofRat : Rat → S
  inf : Bool → S
  isFinite : S → Bool
  partialCmp : S → S → Option Ordering
  add : S → S → S
  sub : S → S → S
  mul : S → S → S
  div : S → S → S
  abs : S → S
  min : S → S → S
  max : S → S → S

namespace Arithmetic

variable {S : Type} (a : Arithmetic S)

def lt (x y : S) : Bool := a.partialCmp x y = some .lt

/-- `clamp`; a NaN stays. -/
def clamp (x low high : S) : S := if a.lt x low then low else if a.lt high x then high else x

def sum (xs : List S) : S := xs.foldl a.add (a.ofRat 0)

def product (xs : List S) : S := xs.foldl a.mul (a.ofRat 1)

end Arithmetic

/-! ## Double precision -/

def Fp.abs (x : Fp) : Fp := if x.isNeg then x.neg else x

def Arithmetic.binary64 : Arithmetic Fp where
  ofRat := Format.binary64.round
  inf := .inf
  isFinite := Fp.isFinite
  partialCmp := Fp.partialCmp
  add := Format.binary64.add
  sub := Format.binary64.sub
  mul := Format.binary64.mul
  div := Format.binary64.div
  abs := Fp.abs
  min := Fp.min
  max := Fp.max

/-! ## Exact operations -/

/-- A number of a field, an infinity or not a number. -/
inductive Extended (R : Type) where
  | num (x : R)
  | inf (neg : Bool)
  | nan
deriving DecidableEq

namespace Extended

variable {R : Type}

def isFinite : Extended R → Bool
  | .num _ => true
  | .inf _ | .nan => false

variable [Field R] [LinearOrder R]

def isNeg : Extended R → Bool
  | .num x => x < 0
  | .inf neg => neg
  | .nan => false

def neg : Extended R → Extended R
  | .num x => .num (-x)
  | .inf neg => .inf !neg
  | .nan => .nan

def partialCmp : Extended R → Extended R → Option Ordering
  | .nan, _ | _, .nan => none
  | .inf a, .inf b => some (compare b a)
  | .inf a, .num _ => some (if a then .lt else .gt)
  | .num _, .inf b => some (if b then .gt else .lt)
  | .num x, .num y => some (compare x y)

def lt (x y : Extended R) : Bool := x.partialCmp y = some .lt

def add : Extended R → Extended R → Extended R
  | .nan, _ | _, .nan => .nan
  | .inf a, .inf b => if a = b then .inf a else .nan
  | .inf a, .num _ | .num _, .inf a => .inf a
  | .num x, .num y => .num (x + y)

def mul (x y : Extended R) : Extended R :=
  let neg := xor x.isNeg y.isNeg
  match x, y with
  | .nan, _ | _, .nan => .nan
  | .inf _, .inf _ => .inf neg
  | .inf _, .num z | .num z, .inf _ => if z = 0 then .nan else .inf neg
  | .num x, .num y => .num (x * y)

def div (x y : Extended R) : Extended R :=
  let neg := xor x.isNeg y.isNeg
  match x, y with
  | .nan, _ | _, .nan => .nan
  | .inf _, .inf _ => .nan
  | .inf _, .num _ => .inf neg
  | .num _, .inf _ => .num 0
  | .num x, .num y => if y = 0 then if x = 0 then .nan else .inf neg else .num (x / y)

def abs (x : Extended R) : Extended R := if x.isNeg then x.neg else x

/-- The smaller value; a NaN gives way. -/
def min (x y : Extended R) : Extended R :=
  match x, y with
  | .nan, y => y
  | x, .nan => x
  | x, y => if y.lt x then y else x

/-- The larger value; a NaN gives way. -/
def max (x y : Extended R) : Extended R :=
  match x, y with
  | .nan, y => y
  | x, .nan => x
  | x, y => if x.lt y then y else x

end Extended

/-- Arithmetic without rounding. -/
def Arithmetic.exact (R : Type) [Field R] [LinearOrder R] : Arithmetic (Extended R) where
  ofRat q := .num q
  inf := .inf
  isFinite := Extended.isFinite
  partialCmp := Extended.partialCmp
  add := Extended.add
  sub x y := x.add y.neg
  mul := Extended.mul
  div := Extended.div
  abs := Extended.abs
  min := Extended.min
  max := Extended.max

/-! ## Exact operations on numbers -/

namespace Extended

variable {R : Type} [Field R] [LinearOrder R]

omit [Field R] [LinearOrder R] in
theorem exists_of_isFinite {x : Extended R} (h : x.isFinite = true) : ∃ r, x = .num r := by
  cases x with
  | num r => exact ⟨r, rfl⟩
  | inf neg => cases h
  | nan => cases h

theorem exact_ofRat_zero : (Arithmetic.exact R).ofRat 0 = .num 0 := by
  show Extended.num ((0 : Rat) : R) = _
  rw [Rat.cast_zero]

@[simp] theorem exact_lt_num (x y : R) :
    (Arithmetic.exact R).lt (.num x) (.num y) = decide (x < y) := by
  show decide (some (compare x y) = some .lt) = _
  simp [compare_lt_iff_lt]

@[simp] theorem exact_sub_num (x y : R) :
    (Arithmetic.exact R).sub (.num x) (.num y) = .num (x - y) := by
  rw [sub_eq_add_neg]
  rfl

@[simp] theorem exact_add_num (x y : R) :
    (Arithmetic.exact R).add (.num x) (.num y) = .num (x + y) := rfl

theorem exact_div_num (x : R) {y : R} (h : y ≠ 0) :
    (Arithmetic.exact R).div (.num x) (.num y) = .num (x / y) := if_neg h

@[simp] theorem exact_max_num (x y : R) :
    (Arithmetic.exact R).max (.num x) (.num y) = .num (Max.max x y) := by
  have hlt : (Arithmetic.exact R).max (.num x) (.num y)
      = if (Arithmetic.exact R).lt (.num x) (.num y) then .num y else .num x := rfl
  rw [hlt, exact_lt_num]
  by_cases h : x < y
  · rw [decide_eq_true h, if_pos rfl, max_eq_right h.le]
  · rw [decide_eq_false h, if_neg Bool.false_ne_true, max_eq_left (not_lt.mp h)]

@[simp] theorem exact_min_num (x y : R) :
    (Arithmetic.exact R).min (.num x) (.num y) = .num (Min.min x y) := by
  have hlt : (Arithmetic.exact R).min (.num x) (.num y)
      = if (Arithmetic.exact R).lt (.num y) (.num x) then .num y else .num x := rfl
  rw [hlt, exact_lt_num]
  by_cases h : y < x
  · rw [decide_eq_true h, if_pos rfl, min_eq_right h.le]
  · rw [decide_eq_false h, if_neg Bool.false_ne_true, min_eq_left (not_lt.mp h)]

theorem exact_abs_num {x : R} (h : 0 ≤ x) : (Arithmetic.exact R).abs (.num x) = .num x := by
  show (if decide (x < 0) then _ else _) = _
  rw [decide_eq_false (not_lt.mpr h), if_neg Bool.false_ne_true]

theorem exact_clamp_num {x low high : R} (hlow : low ≤ x) (hhigh : x ≤ high) :
    (Arithmetic.exact R).clamp (.num x) (.num low) (.num high) = .num x := by
  rw [Arithmetic.clamp, exact_lt_num, exact_lt_num, decide_eq_false (not_lt.mpr hlow),
    decide_eq_false (not_lt.mpr hhigh)]
  rfl

/-! ## Extreme values -/

section Extreme

variable {op : R → R → R} (le : R → R → Prop) [Std.Refl le] [IsTrans R le]

omit [Field R] [LinearOrder R] in
/-- A fold with an operation that selects one of two bounds. -/
theorem foldl_select (hop : ∀ x y, (op x y = x ∨ op x y = y) ∧ le (op x y) x ∧ le (op x y) y)
    (xs : List R) (acc : R) :
    xs.foldl op acc ∈ acc :: xs ∧ ∀ x ∈ acc :: xs, le (xs.foldl op acc) x := by
  induction xs generalizing acc with
  | nil => simp [refl_of le acc]
  | cons y ys ih =>
    obtain ⟨hmem, hle⟩ := ih (op acc y)
    obtain ⟨hchoice, hleft, hright⟩ := hop acc y
    have hacc := hle _ List.mem_cons_self
    rw [List.foldl_cons]
    refine ⟨?_, fun x hx => ?_⟩
    · rcases List.mem_cons.mp hmem with heq | htail
      · rw [heq]
        rcases hchoice with hc | hc
        · simp [hc]
        · simp [hc]
      · exact List.mem_cons_of_mem _ (List.mem_cons_of_mem _ htail)
    · rcases List.mem_cons.mp hx with rfl | hx
      · exact trans_of le hacc hleft
      · rcases List.mem_cons.mp hx with rfl | hx
        · exact trans_of le hacc hright
        · exact hle x (List.mem_cons_of_mem _ hx)

omit [Field R] [LinearOrder R] in
/-- The same fold from an infinity on that gives way to every number. -/
theorem exists_foldl_select {op' : Extended R → Extended R → Extended R} {init : Extended R}
    (hop : ∀ x y, (op x y = x ∨ op x y = y) ∧ le (op x y) x ∧ le (op x y) y)
    (hnum : ∀ x y, op' (.num x) (.num y) = .num (op x y)) (hinit : ∀ x, op' init (.num x) = .num x)
    {xs : List R} (h : xs ≠ []) :
    ∃ b ∈ xs, (xs.map Extended.num).foldl op' init = .num b ∧ ∀ x ∈ xs, le b x := by
  have hfold : ∀ (ys : List R) (acc : R),
      (ys.map Extended.num).foldl op' (.num acc) = .num (ys.foldl op acc) := by
    intro ys
    induction ys with
    | nil => exact fun acc => rfl
    | cons y ys ih =>
      intro acc
      rw [List.map_cons, List.foldl_cons, hnum, ih, List.foldl_cons]
  cases xs with
  | nil => exact absurd rfl h
  | cons x xs =>
    obtain ⟨hmem, hle⟩ := foldl_select le hop xs x
    refine ⟨_, hmem, ?_, hle⟩
    rw [List.map_cons, List.foldl_cons, hinit, hfold]

end Extreme

/-- The least number of a list. -/
theorem exists_foldl_min {xs : List R} (h : xs ≠ []) :
    ∃ low ∈ xs, (xs.map Extended.num).foldl (Arithmetic.exact R).min (.inf false) = .num low ∧
      ∀ x ∈ xs, low ≤ x :=
  exists_foldl_select (· ≤ ·) (fun x y => ⟨min_choice x y, min_le_left x y, min_le_right x y⟩)
    exact_min_num (fun _ => rfl) h

/-- The greatest number of a list. -/
theorem exists_foldl_max {xs : List R} (h : xs ≠ []) :
    ∃ high ∈ xs, (xs.map Extended.num).foldl (Arithmetic.exact R).max (.inf true) = .num high ∧
      ∀ x ∈ xs, x ≤ high :=
  exists_foldl_select (fun a b => b ≤ a)
    (fun x y => ⟨max_choice x y, le_max_left x y, le_max_right x y⟩)
    exact_max_num (fun _ => rfl) h

end Extended
