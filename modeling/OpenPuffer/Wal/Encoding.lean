import OpenPuffer.Wal.Format
import OpenPuffer.Lib.Bincode

/-!
# Writing and reading WAL segments

The payload of a segment is the entry in the binary format of `Bincode`, with the attributes of
a row as bytes.  Segments of the older version are the bare payload, whose first byte may be the
version byte.  A reader then takes the bytes after it for a payload with more upserts than there
is room for (`leValue_shifted`), which is refused whatever the checksum says
(`deserialize_shifted`).
-/

namespace OpenPuffer

open Bincode Wire

open Bincode (Wire leBytes leValue lengthSize)

/-- An upsert or a patch, with its attributes as JSON bytes. -/
structure WalRow where
  id : String
  attributes : List UInt8
deriving DecidableEq, Repr

/-- A `WalEntry` as it is written. -/
structure WalRecord where
  upserts : List WalRow := []
  patches : List WalRow := []
  deletes : List String := []
deriving DecidableEq, Repr

/-- The ids of the documents of an entry. -/
def WalRecord.ids (e : WalRecord) : List String :=
  e.upserts.map WalRow.id ++ e.patches.map WalRow.id ++ e.deletes

def rowWire : Wire WalRow :=
  (Wire.string.pair Wire.byte.seq).map (fun p => ⟨p.1, p.2⟩) (fun r => (r.id, r.attributes))
    fun _ => rfl

def recordWire : Wire WalRecord :=
  (rowWire.seq.pair (rowWire.seq.pair Wire.string.seq)).map (fun p => ⟨p.1, p.2.1, p.2.2⟩)
    (fun e => (e.upserts, e.patches, e.deletes)) fun _ => rfl

/-- `bincode::serialize`. -/
def serialize (e : WalRecord) : List UInt8 := recordWire.write e

/-- The payload format with a checksum. -/
def recordCodec (crc32 : List UInt8 → UInt32) : SegmentCodec WalRecord where
  deserialize bytes :=
    match Bincode.deserialize recordWire bytes with
    | .ok e => .ok e
    | .error err => .error err.display
  crc32

section Encode

variable (crc32 : List UInt8 → UInt32)

/-- `u32::to_le_bytes`. -/
def toLeBytes (crc : UInt32) : List UInt8 := leBytes crc32TrailerLen crc.toNat

def encode (e : WalRecord) : List UInt8 :=
  let payload := serialize e
  walFormatCrc32 :: (payload ++ toLeBytes (crc32 payload))

/-- The encoding of the older version. -/
def encodeLegacy (e : WalRecord) : List UInt8 := serialize e

def decode (bytes : List UInt8) : Except WalCorrupt WalRecord :=
  decodeSegment (recordCodec crc32) bytes none

end Encode

/-! ## The current version -/

theorem fromLeBytes_toLeBytes (crc : UInt32) : fromLeBytes (toLeBytes crc) = crc := by
  have hvalue (bytes : List UInt8) :
      bytes.foldr (fun b n => b.toNat + 256 * n) 0 = leValue bytes := by
    induction bytes with
    | nil => rfl
    | cons b bytes ih => rw [List.foldr_cons, ih, leValue]
  have hlt : crc.toNat < 256 ^ crc32TrailerLen := crc.toNat_lt
  rw [fromLeBytes, hvalue, toLeBytes, leValue_leBytes, Nat.mod_eq_of_lt hlt,
    UInt32.ofNat_toNat]

variable {e : WalRecord}

theorem deserialize_serialize (crc32 : List UInt8 → UInt32) (h : (serialize e).length < 2 ^ 64) :
    (recordCodec crc32).deserialize (serialize e) = .ok e := by
  simp only [recordCodec, serialize, deserialize_write h]

theorem deserialize_ok {crc32 : List UInt8 → UInt32} {bytes : List UInt8}
    (h : (recordCodec crc32).deserialize bytes = .ok e) :
    Bincode.deserialize recordWire bytes = .ok e := by
  simp only [recordCodec] at h
  split at h
  · rename_i hread
    cases h
    exact hread
  · cases h

theorem length_serialize (e : WalRecord) : 24 ≤ (serialize e).length := recordWire.minSize_le e

theorem decode_encode (crc32 : List UInt8 → UInt32) (h : (serialize e).length < 2 ^ 64) :
    decode crc32 (encode crc32 e) = .ok e := by
  have hlen := length_serialize e
  have htrailer : (toLeBytes (crc32 (serialize e))).length = 4 := length_leBytes 4 _
  have hsize : (encode crc32 e).length = (serialize e).length + 5 := by
    simp [encode, htrailer]
  have hpayload : ((encode crc32 e).take ((serialize e).length + 1)).drop 1 = serialize e := by
    simp [encode]
  have hcrc : (encode crc32 e).drop ((serialize e).length + 1)
      = toLeBytes (crc32 (serialize e)) := by
    simp [encode]
  have hformat : decodeCrc32Format (recordCodec crc32) (encode crc32 e) none = .ok e := by
    have hsplit : (serialize e).length + 5 - 4 = (serialize e).length + 1 := by omega
    simp only [decodeCrc32Format, hsize, crc32TrailerLen, hsplit, hpayload, hcrc,
      fromLeBytes_toLeBytes]
    rw [if_neg (by omega), if_neg (by simp [recordCodec]), deserialize_serialize crc32 h]
  rw [decode, encode, decodeSegment, if_pos, ← encode, hformat]
  rw [← encode, hsize]
  exact ⟨rfl, by simp only [crc32TrailerLen]; omega⟩

/-! ## The older version -/

/-- The number of upserts, read one byte late: its own low byte is lost, and the
length of the first id comes in at the top. -/
theorem leValue_shifted (n m : Nat) (rest : List UInt8) :
    leValue (((leBytes lengthSize n ++ (leBytes lengthSize m ++ rest)).drop 1).take lengthSize)
      = n / 256 % 2 ^ 56 + 2 ^ 56 * (m % 256) := by
  have hfirst : ((leBytes lengthSize n ++ (leBytes lengthSize m ++ rest)).drop 1).take lengthSize
      = leBytes 7 (n / 256) ++ [UInt8.ofNat m] := by
    simp [lengthSize, leBytes]
  rw [hfirst, leValue_append, leValue_leBytes, length_leBytes]
  simp [leValue]

/-- A record that starts with a sequence of rows is as long as the announced
number of rows requires. -/
theorem length_of_deserialize {bytes : List UInt8}
    (h : Bincode.deserialize recordWire bytes = .ok e) :
    leValue (bytes.take lengthSize) * 16 ≤ bytes.length := by
  have hread : ∃ rows rest, rowWire.readSeq bytes = .ok (rows, rest) := by
    cases hrows : rowWire.readSeq bytes with
    | ok p => exact ⟨p.1, p.2, rfl⟩
    | error err =>
      have hfail : recordWire.read bytes = .error err := by
        have hseq : rowWire.seq.read bytes = .error err := hrows
        simp only [recordWire, map, pair, hseq]
      rw [deserialize, hfail] at h
      cases h
  obtain ⟨rows, rest, hrows⟩ := hread
  have hlen : rest.length + leValue (bytes.take lengthSize) * 16 + lengthSize ≤ bytes.length :=
    length_readSeq hrows
  omega

/-- The payload starts with the number of upserts and the length of the first id. -/
theorem serialize_cons (u : WalRow) (us patches : List WalRow) (deletes : List String) :
    ∃ rest, serialize ⟨u :: us, patches, deletes⟩
      = leBytes lengthSize (us.length + 1) ++ (leBytes lengthSize u.id.utf8ByteSize ++ rest) := by
  refine ⟨u.id.toUTF8.data.toList ++ byte.writeSeq u.attributes ++ rowWire.writeItems us
    ++ rowWire.writeSeq patches ++ string.writeSeq deletes, ?_⟩
  simp [serialize, recordWire, rowWire, map, pair, seq, writeSeq,
    writeItems, string, writeString]

/-- A segment of the older version that starts with the version byte does not
decode from its second byte on. -/
theorem deserialize_shifted (hsize : (serialize e).length < 2 ^ 60)
    (hids : ∀ id ∈ e.ids, 1 ≤ id.utf8ByteSize ∧ id.utf8ByteSize ≤ 255)
    (hversion : (serialize e).head? = some walFormatCrc32) (e' : WalRecord) :
    Bincode.deserialize recordWire
      (((serialize e).take ((serialize e).length - crc32TrailerLen)).drop 1) ≠ .ok e' := by
  intro hok
  have hlen := length_serialize e
  have hroom := length_of_deserialize hok
  have htake : (((serialize e).take ((serialize e).length - crc32TrailerLen)).drop 1).take
      lengthSize = ((serialize e).drop 1).take lengthSize := by
    rw [List.drop_take, List.take_take, Nat.min_eq_left]
    simp only [lengthSize, crc32TrailerLen]
    omega
  rw [htake, List.length_drop, List.length_take] at hroom
  obtain ⟨upserts, patches, deletes⟩ := e
  cases upserts with
  | nil =>
    cases hversion
  | cons u us =>
    obtain ⟨rest, hrest⟩ := serialize_cons u us patches deletes
    rw [hrest, leValue_shifted] at hroom
    rw [← hrest] at hroom
    have hid := hids u.id (by simp [WalRecord.ids])
    rw [Nat.mod_eq_of_lt (show u.id.utf8ByteSize < 256 by omega)] at hroom
    omega

theorem decode_encodeLegacy (crc32 : List UInt8 → UInt32) (hsize : (serialize e).length < 2 ^ 60)
    (hids : ∀ id ∈ e.ids, 1 ≤ id.utf8ByteSize ∧ id.utf8ByteSize ≤ 255) :
    decode crc32 (encodeLegacy e) = .ok e := by
  have hbare : (recordCodec crc32).deserialize (serialize e) = .ok e :=
    deserialize_serialize crc32 (by omega)
  have hlen := length_serialize e
  rw [decode, encodeLegacy]
  cases hbytes : serialize e with
  | nil =>
    rw [hbytes] at hlen
    cases hlen
  | cons version rest =>
    rw [decodeSegment, ← hbytes, hbare]
    simp only
    split
    · rename_i hversion
      cases hcurrent : decodeCrc32Format (recordCodec crc32) (serialize e) none with
      | error c => rfl
      | ok e' =>
        have hpayload := decodeCrc32Format_ok hcurrent
        have hhead : (serialize e).head? = some walFormatCrc32 := by
          rw [hbytes, hversion.1]
          rfl
        exact absurd (deserialize_ok hpayload) (deserialize_shifted hsize hids hhead e')
    · rfl

/-- Every entry survives its encoding, and the encoding of the older version.  A
buffer in memory has fewer than `2 ^ 63` bytes, and an object of the store no more
than five tebibytes. -/
theorem wal_codec_round_trip (crc32 : List UInt8 → UInt32) (e : WalRecord)
    (hbuffer : (serialize e).length < 2 ^ 64) :
    decode crc32 (encode crc32 e) = .ok e ∧
      ((∀ id ∈ e.ids, 1 ≤ id.utf8ByteSize ∧ id.utf8ByteSize ≤ 255) →
        (serialize e).length < 2 ^ 60 → decode crc32 (encodeLegacy e) = .ok e) :=
  ⟨decode_encode crc32 hbuffer, fun hids hobject => decode_encodeLegacy crc32 hobject hids⟩

/-- One upsert, whose number is the version byte.  With this checksum the shifted
payload passes. -/
theorem oneUpsert_round_trip :
    (encodeLegacy { upserts := [⟨"a", [0x7b, 0x7d]⟩] }).head? = some walFormatCrc32 ∧
      fromLeBytes ((encodeLegacy { upserts := [⟨"a", [0x7b, 0x7d]⟩] }).drop 39) = 0 ∧
      decode (fun _ => 0) (encode (fun _ => 0) { upserts := [⟨"a", [0x7b, 0x7d]⟩] })
        = .ok { upserts := [⟨"a", [0x7b, 0x7d]⟩] } ∧
      decode (fun _ => 0) (encodeLegacy { upserts := [⟨"a", [0x7b, 0x7d]⟩] })
        = .ok { upserts := [⟨"a", [0x7b, 0x7d]⟩] } := by
  have hsize : (serialize { upserts := [⟨"a", [0x7b, 0x7d]⟩] }).length = 43 := by decide +kernel
  obtain ⟨hcurrent, holder⟩ := wal_codec_round_trip (fun _ => 0)
    { upserts := [⟨"a", [0x7b, 0x7d]⟩] } (by rw [hsize]; decide)
  refine ⟨by decide +kernel, by decide +kernel, hcurrent, holder ?_ (by rw [hsize]; decide)⟩
  decide +kernel

end OpenPuffer
