import OpenPuffer.Filter
import OpenPuffer.Schema

/-!
# Vectors on the wire and in clusters

A vector attribute is a JSON array of numbers or a base64 text of little-endian
`f32` values.  Clusters of an `f16` column store two bytes per component.

Every value of `f16` and `f32` is a value of `f64`, so vectors of all three
types are lists of `Fp` and a widening conversion is the identity.
-/

namespace OpenPuffer

abbrev Vec := List Fp

inductive VectorError where
  /-- `missing vector field {field}`. -/
  | missing (field : String)
  /-- `expected vector array or base64 string`. -/
  | shape
  /-- `vector element must be number`. -/
  | element
  /-- `invalid base64 vector: {e}`. -/
  | base64
  /-- `base64 vector byte length must be a multiple of 4`. -/
  | lengthF32
  /-- `base64 f16 vector byte length must be a multiple of 2`. -/
  | lengthF16
deriving DecidableEq, Repr

/-! ## Base64 -/

/-- The value of a character of the standard alphabet. -/
def base64Digit (c : Char) : Option Nat :=
  if c.isUpper then some (c.toNat - 'A'.toNat)
  else if c.isLower then some (c.toNat - 'a'.toNat + 26)
  else if c.isDigit then some (c.toNat - '0'.toNat + 52)
  else if c = '+' then some 62
  else if c = '/' then some 63
  else none

/-- Decode groups of four characters.  Padding is required, and the bits it
leaves over must be zero. -/
def decodeBase64 : List Char → Option (List UInt8)
  | [] => some []
  | [a, b, '=', '='] => do
    let x ← base64Digit a
    let y ← base64Digit b
    if y % 16 = 0 then some [.ofNat (x * 4 + y / 16)] else none
  | [a, b, c, '='] => do
    let x ← base64Digit a
    let y ← base64Digit b
    let z ← base64Digit c
    if z % 4 = 0 then some [.ofNat (x * 4 + y / 16), .ofNat (y % 16 * 16 + z / 4)] else none
  | a :: b :: c :: d :: rest => do
    let x ← base64Digit a
    let y ← base64Digit b
    let z ← base64Digit c
    let w ← base64Digit d
    let bytes ← decodeBase64 rest
    some (.ofNat (x * 4 + y / 16) :: .ofNat (y % 16 * 16 + z / 4) :: .ofNat (z % 4 * 64 + w)
      :: bytes)
  | _ => none

/-! ## Little-endian values -/

/-- `chunks_exact(4)` as `f32` values. -/
def f32LeValues : List UInt8 → Vec
  | a :: b :: c :: d :: rest =>
    Format.binary32.ofBits (a.toNat + b.toNat * 2 ^ 8 + c.toNat * 2 ^ 16 + d.toNat * 2 ^ 24)
      :: f32LeValues rest
  | _ => []

/-- `chunks_exact(2)` as `f16` values. -/
def f16LeValues : List UInt8 → Vec
  | a :: b :: rest => Format.binary16.ofBits (a.toNat + b.toNat * 2 ^ 8) :: f16LeValues rest
  | _ => []

def decodeBase64F32Le (s : String) : Except VectorError Vec :=
  match decodeBase64 (trim s.toList) with
  | none => .error .base64
  | some bytes => if bytes.length % 4 ≠ 0 then .error .lengthF32 else .ok (f32LeValues bytes)

def decodeBase64F16Le (s : String) : Except VectorError Vec :=
  match decodeBase64 (trim s.toList) with
  | none => .error .base64
  | some bytes => if bytes.length % 2 ≠ 0 then .error .lengthF16 else .ok (f16LeValues bytes)

/-! ## Attributes -/

def vectorComponent : Json → Except VectorError Fp
  | .num n => .ok n.asF64
  | _ => .error .element

def decodeVectorValueWithElement (v : Json) (element : Option VectorElement) :
    Except VectorError Vec :=
  match v with
  | .str s => if element = some .f16 then decodeBase64F16Le s else decodeBase64F32Le s
  | .arr items => items.mapM vectorComponent
  | _ => .error .shape

def decodeVectorValue (v : Json) : Except VectorError Vec := decodeVectorValueWithElement v none

def extractVector (attrs : Attributes) (field : String) : Except VectorError Vec :=
  match attrs.lookup field with
  | none => .error (.missing field)
  | some v => decodeVectorValue v

example : decodeVectorValue (.str " AACAPwAAAMA= ") = .ok [.num 1, .num (-2)] := by
  decide +kernel

/-! ## Half precision in clusters -/

/-- The bytes of a component: rounded to `f32`, then to `f16`. -/
def f16LeBytes (x : Fp) : List UInt8 :=
  let bits := Format.binary16.toBits (Format.binary16.convert (Format.binary32.convert x))
  [.ofNat (bits % 2 ^ 8), .ofNat (bits / 2 ^ 8)]

def f64SliceToF16Le (values : Vec) : List UInt8 := values.flatMap f16LeBytes

def f16LeBytesToF32Vec (bytes : List UInt8) (dim : Nat) : Vec := (f16LeValues bytes).take dim

example : f16LeBytesToF32Vec (f64SliceToF16Le [.num 1, .num (mkRat 1 3)]) 2
    = [.num 1, .num (mkRat 1365 4096)] := by
  decide +kernel

end OpenPuffer
