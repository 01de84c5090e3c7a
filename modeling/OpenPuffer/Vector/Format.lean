import OpenPuffer.Lib.Bincode
import OpenPuffer.Vector.Index

/-!
# The stored coarse table

`CentroidIndexL0` as it is written, with the integer types of the source and every `f64`
as its bits.  The fields after the centroids came later, and tables without them are still
read.  Nothing in a table says which version it is.  The reader tries the current one
first, which needs six more bytes than such a table has (`deserialize_legacy`).
-/

namespace OpenPuffer

open Bincode (Wire)

/-- A table of the older version. -/
structure CentroidIndexL0Legacy where
  segmentId : BitVec 64
  vectorField : String
  dimensions : BitVec 32
  numCoarse : BitVec 32
  numFineTotal : BitVec 32
  probeCoarse : BitVec 32
  probeFine : BitVec 32
  distanceMetric : DistanceMetric
  vectorElement : VectorElement
  fineCounts : List (BitVec 32)
  centroids : List (List (BitVec 64))
deriving DecidableEq

/-- A table as it is written. -/
structure L0Record extends CentroidIndexL0Legacy where
  annVersion : UInt8
  hasRouting : Bool
  maintenancePasses : BitVec 32
deriving DecidableEq

/-- `From<CentroidIndexL0Legacy>`. -/
def L0Record.fromLegacy (legacy : CentroidIndexL0Legacy) : L0Record where
  toCentroidIndexL0Legacy := legacy
  annVersion := UInt8.ofNat annVersionV2
  hasRouting := false
  maintenancePasses := 0

def distanceMetricWire : Wire DistanceMetric :=
  Wire.variant [.cosineDistance, .euclideanSquared] (by decide) (by rintro ⟨⟩ <;> decide)

def vectorElementWire : Wire VectorElement :=
  Wire.variant [.f32, .f16] (by decide) (by rintro ⟨⟩ <;> decide)

def legacyWire : Wire CentroidIndexL0Legacy :=
  (Wire.u64.pair <| Wire.string.pair <| Wire.u32.pair <| Wire.u32.pair <| Wire.u32.pair <|
    Wire.u32.pair <| Wire.u32.pair <| distanceMetricWire.pair <| vectorElementWire.pair <|
    Wire.u32.seq.pair Wire.u64.seq.seq).map
    (fun (id, field, dims, coarse, fine, pc, pf, metric, element, counts, centroids) =>
      ⟨id, field, dims, coarse, fine, pc, pf, metric, element, counts, centroids⟩)
    (fun l => (l.segmentId, l.vectorField, l.dimensions, l.numCoarse, l.numFineTotal,
      l.probeCoarse, l.probeFine, l.distanceMetric, l.vectorElement, l.fineCounts, l.centroids))
    fun _ => rfl

def l0Wire : Wire L0Record :=
  (legacyWire.pair (Wire.byte.pair (Wire.bool.pair Wire.u32))).map
    (fun (l, version, routing, passes) => ⟨l, version, routing, passes⟩)
    (fun l => (l.toCentroidIndexL0Legacy, l.annVersion, l.hasRouting, l.maintenancePasses))
    fun _ => rfl

namespace L0Record

def encode (l0 : L0Record) : List UInt8 := l0Wire.write l0

def decode (bytes : List UInt8) : Except String L0Record :=
  match Bincode.deserialize l0Wire bytes with
  | .ok l0 => .ok l0
  | .error _ =>
    match Bincode.deserialize legacyWire bytes with
    | .ok legacy => .ok (fromLegacy legacy)
    | .error _ => .error "decode CentroidIndexL0 legacy v2"

/-- The current version refuses a table of the older one: it ends where the version number
should be. -/
theorem deserialize_legacy {legacy : CentroidIndexL0Legacy}
    (h : (legacyWire.write legacy).length < 2 ^ 64) :
    Bincode.deserialize l0Wire (legacyWire.write legacy) = .error .unexpectedEof := by
  have hread := legacyWire.read_write legacy [] h
  rw [List.append_nil] at hread
  simp only [Bincode.deserialize, l0Wire, Wire.map, Wire.pair, hread, Wire.byte, Except.map]

/-- Tables of the current version are read back, and tables of the older version are read
as what they convert to and never as the current one. -/
theorem decode_compatible :
    (∀ l0 : L0Record, l0.encode.length < 2 ^ 64 → decode l0.encode = .ok l0) ∧
      ∀ legacy : CentroidIndexL0Legacy, (legacyWire.write legacy).length < 2 ^ 64 →
        (∀ l0, Bincode.deserialize l0Wire (legacyWire.write legacy) ≠ .ok l0) ∧
          decode (legacyWire.write legacy) = .ok (fromLegacy legacy) := by
  refine ⟨fun l0 h => ?_, fun legacy h => ⟨fun l0 hok => ?_, ?_⟩⟩
  · simp only [decode, encode, Bincode.deserialize_write h]
  · rw [deserialize_legacy h] at hok
    cases hok
  · simp only [decode, deserialize_legacy h, Bincode.deserialize_write h]

/-- A table of the older version with two centroids. -/
def twoCentroids : CentroidIndexL0Legacy :=
  ⟨9, "emb", 1, 2, 8, 2, 2, .cosineDistance, .f32, [4, 4], [[0x3ff0000000000000], [0]]⟩

theorem twoCentroids_decoded :
    decode (legacyWire.write twoCentroids) = .ok (fromLegacy twoCentroids) ∧
      decode (fromLegacy twoCentroids).encode = .ok (fromLegacy twoCentroids) :=
  ⟨(decode_compatible.2 twoCentroids (by decide +kernel)).2,
    decode_compatible.1 (fromLegacy twoCentroids) (by decide +kernel)⟩

end L0Record

end OpenPuffer
