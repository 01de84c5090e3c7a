import Mathlib

/-!
# Binary floating point

A value of a binary format is a rational, the second zero, an infinity or not a
number.  The payload of a NaN is not kept.  A `Format` has a number of exponent
bits and a number of fraction bits.  Its operations compute the exact result and
round it once, to the nearest value and to the even one of two.

Everything here computes.
-/

/-- A value of a binary format. -/
inductive Fp where
  | num (q : Rat)
  | negZero
  | inf (neg : Bool)
  | nan
deriving DecidableEq, Repr

namespace Fp

instance : Inhabited Fp := ⟨.num 0⟩

/-- The rational of a finite value. -/
def val : Fp → Rat
  | .num q => q
  | .negZero | .inf _ | .nan => 0

def isNeg : Fp → Bool
  | .num q => q < 0
  | .negZero => true
  | .inf neg => neg
  | .nan => false

def isFinite : Fp → Bool
  | .num _ | .negZero => true
  | .inf _ | .nan => false

/-- The comparison of IEEE 754.  The zeros are equal and NaN is unordered. -/
def partialCmp : Fp → Fp → Option Ordering
  | .nan, _ | _, .nan => none
  | .inf a, .inf b => some (compare b a)
  | .inf a, _ => some (if a then .lt else .gt)
  | _, .inf b => some (if b then .gt else .lt)
  | x, y => some (compareOfLessAndEq x.val y.val)

def eq (x y : Fp) : Bool := x.partialCmp y = some .eq

def lt (x y : Fp) : Bool := x.partialCmp y = some .lt

def le (x y : Fp) : Bool := x.lt y || x.eq y

/-- The smaller value; a NaN gives way. -/
def min (x y : Fp) : Fp :=
  if x = .nan then y else if y = .nan then x else if y.lt x then y else x

/-- The larger value; a NaN gives way. -/
def max (x y : Fp) : Fp :=
  if x = .nan then y else if y = .nan then x else if x.lt y then y else x

/-- A zero with a sign. -/
def zero (neg : Bool) : Fp := if neg then .negZero else .num 0

def neg : Fp → Fp
  | .num q => if q = 0 then .negZero else .num (-q)
  | .negZero => .num 0
  | .inf s => .inf (!s)
  | .nan => .nan

end Fp

/-- A binary interchange format. -/
structure Format where
  expBits : Nat
  fracBits : Nat
deriving DecidableEq, Repr

namespace Format

def binary16 : Format := ⟨5, 10⟩

def binary32 : Format := ⟨8, 23⟩

def binary64 : Format := ⟨11, 52⟩

variable (fmt : Format)

/-- The largest exponent. -/
def emax : Int := 2 ^ (fmt.expBits - 1) - 1

/-- The exponent of the smallest normal value. -/
def emin : Int := 1 - fmt.emax

/-! ## Rounding -/

def pow2 (e : Int) : Rat :=
  if 0 ≤ e then ((2 ^ e.toNat : Nat) : Rat) else mkRat 1 (2 ^ (-e).toNat)

/-- The exponent `e` of a positive rational, with `2 ^ e ≤ q < 2 ^ (e + 1)`. -/
def exponent (q : Rat) : Int :=
  let e : Int := (Nat.log2 q.num.natAbs : Int) - (Nat.log2 q.den : Int)
  if pow2 e ≤ q then e else e - 1

/-- The nearest natural number, the even one of two. -/
def roundHalfEven (q : Rat) : Nat :=
  let low := q.floor.toNat
  let rest := q - low
  if mkRat 1 2 < rest ∨ (rest = mkRat 1 2 ∧ low % 2 = 1) then low + 1 else low

/-- The value of the format nearest to a rational.  `neg` is the sign of a
result that is zero. -/
def roundSigned (q : Rat) (neg : Bool) : Fp :=
  if q = 0 then .zero neg
  else
    let size := if q < 0 then -q else q
    let ulp := pow2 (Max.max (exponent size) fmt.emin - fmt.fracBits)
    let rounded := roundHalfEven (size / ulp) * ulp
    if pow2 (fmt.emax + 1) ≤ rounded then .inf (q < 0)
    else if rounded = 0 then .zero neg
    else .num (if q < 0 then -rounded else rounded)

def round (q : Rat) : Fp := fmt.roundSigned q (q < 0)

/-- Convert a value of a wider format. -/
def convert : Fp → Fp
  | .num q => fmt.round q
  | x => x

/-! ## Arithmetic -/

def add : Fp → Fp → Fp
  | .nan, _ | _, .nan => .nan
  | .inf a, .inf b => if a = b then .inf a else .nan
  | .inf a, _ | _, .inf a => .inf a
  | .negZero, .negZero => .negZero
  | x, y => fmt.round (x.val + y.val)

def sub (x y : Fp) : Fp := fmt.add x y.neg

def mul (x y : Fp) : Fp :=
  let neg := xor x.isNeg y.isNeg
  match x, y with
  | .nan, _ | _, .nan => .nan
  | .inf _, y => if y.isFinite ∧ y.val = 0 then .nan else .inf neg
  | x, .inf _ => if x.val = 0 then .nan else .inf neg
  | x, y => fmt.roundSigned (x.val * y.val) neg

def div (x y : Fp) : Fp :=
  let neg := xor x.isNeg y.isNeg
  match x, y with
  | .nan, _ | _, .nan => .nan
  | .inf _, .inf _ => .nan
  | .inf _, _ => .inf neg
  | _, .inf _ => .zero neg
  | x, y =>
    if y.val = 0 then if x.val = 0 then .nan else .inf neg
    else fmt.roundSigned (x.val / y.val) neg

/-- The square root.  It is taken to more bits than the format has; a last bit
says whether something is left. -/
def sqrt : Fp → Fp
  | .nan => .nan
  | .negZero => .negZero
  | .inf neg => if neg then .nan else .inf false
  | .num q =>
    if q < 0 then .nan
    else if q = 0 then .num 0
    else
      let shift := (fmt.fracBits + 2 - exponent q / 2).toNat
      let scaled := q * pow2 (2 * shift)
      let root := Nat.sqrt scaled.floor.toNat
      if (root * root : Nat) = scaled then fmt.round (root * pow2 (-shift))
      else fmt.round ((2 * root + 1 : Nat) * pow2 (-shift - 1))

/-! ## Bit patterns -/

def toBits : Fp → Nat
  | .nan => (2 ^ fmt.expBits - 1) * 2 ^ fmt.fracBits + 2 ^ (fmt.fracBits - 1)
  | .negZero => 2 ^ (fmt.expBits + fmt.fracBits)
  | .inf neg => (neg.toNat * 2 ^ fmt.expBits + (2 ^ fmt.expBits - 1)) * 2 ^ fmt.fracBits
  | .num q =>
    if q = 0 then 0
    else
      let size := if q < 0 then -q else q
      let e := Max.max (exponent size) fmt.emin
      let digits := (size / pow2 (e - fmt.fracBits)).floor.toNat
      let body :=
        if digits < 2 ^ fmt.fracBits then digits
        else ((e + fmt.emax).toNat - 1) * 2 ^ fmt.fracBits + digits
      (decide (q < 0)).toNat * 2 ^ (fmt.expBits + fmt.fracBits) + body

/-- The value of a bit pattern. -/
def ofBits (bits : Nat) : Fp :=
  let frac := bits % 2 ^ fmt.fracBits
  let field := bits / 2 ^ fmt.fracBits % 2 ^ fmt.expBits
  let neg := bits / 2 ^ (fmt.expBits + fmt.fracBits) % 2 = 1
  if field = 2 ^ fmt.expBits - 1 then if frac = 0 then .inf neg else .nan
  else
    let digits := if field = 0 then frac else frac + 2 ^ fmt.fracBits
    let size := digits * pow2 (Max.max (field : Int) 1 - fmt.emax - fmt.fracBits)
    if size = 0 then .zero neg else .num (if neg then -size else size)

end Format

example : Format.binary64.add (.num (mkRat 1 2)) (.num (mkRat 1 4)) = .num (mkRat 3 4) := by
  decide +kernel

example : Format.binary64.toBits (Format.binary64.round (mkRat 1 10)) = 0x3FB999999999999A := by
  decide +kernel

example : Format.binary16.ofBits (Format.binary16.toBits (.num (mkRat (-3) 8))) =
    .num (mkRat (-3) 8) := by
  decide +kernel
