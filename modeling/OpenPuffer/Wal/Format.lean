import OpenPuffer.Wal

/-!
# WAL segments as bytes

A segment is `[0x01][payload][crc32 LE]`, or the bare payload of an older version.  The
deserializer of the payload and the checksum are arguments.  A segment that cannot be decoded is
corrupt; under the policy `skip` a reader that asks for the policy passes over it (`decoded`).
-/

namespace OpenPuffer

/-- The payload format and the checksum of a segment. -/
structure SegmentCodec (E : Type) where
  deserialize : List UInt8 → Except String E
  crc32 : List UInt8 → UInt32

/-- A codec that decodes the attributes of the rows along with the payload. -/
abbrev WalCodec := SegmentCodec WalEntry

/-- How to handle a segment that fails its checksum or does not decode. -/
inductive WalCorruptPolicy where
  /-- Abort the load. -/
  | fail
  /-- Log and skip the segment. -/
  | skip
deriving DecidableEq, Repr

/-- A checksum or payload mismatch, or a truncated segment. -/
structure WalCorrupt where
  seq : Option Nat
  reason : String
deriving DecidableEq, Repr

/-- Digits, filled up with zeros on the left. -/
def zeroPadded (width : Nat) (digits : List Char) : String :=
  String.ofList (List.replicate (width - digits.length) '0' ++ digits)

def WalCorrupt.display (c : WalCorrupt) : String :=
  let reason := c.reason
  match c.seq with
  | some seq =>
    let seq08 := zeroPadded 8 (Nat.toDigits 10 seq)
    s!"wal segment {seq08} corrupt: {reason}"
  | none => s!"wal segment corrupt: {reason}"

def walFormatCrc32 : UInt8 := 0x01

def crc32TrailerLen : Nat := 4

/-- The number with the given bytes, lowest first. -/
def fromLeBytes (bytes : List UInt8) : UInt32 :=
  UInt32.ofNat (bytes.foldr (fun b n => b.toNat + 256 * n) 0)

/-- A checksum as `0x` and eight digits. -/
def hexCrc (crc : UInt32) : String := "0x" ++ zeroPadded 8 (Nat.toDigits 16 crc.toNat)

section Decode

variable {E : Type} (codec : SegmentCodec E)

def decodeCrc32Format (bytes : List UInt8) (seq : Option Nat) : Except WalCorrupt E :=
  let size := bytes.length
  if size < 1 + crc32TrailerLen + 1 then .error ⟨seq, s!"truncated v1 wal ({size} bytes)"⟩
  else
    let payload := (bytes.take (size - crc32TrailerLen)).drop 1
    let storedCrc := fromLeBytes (bytes.drop (size - crc32TrailerLen))
    let computedCrc := codec.crc32 payload
    if storedCrc ≠ computedCrc then
      let stored := hexCrc storedCrc
      let computed := hexCrc computedCrc
      .error ⟨seq, s!"crc32 mismatch (stored={stored}, computed={computed})"⟩
    else
      match codec.deserialize payload with
      | .ok entry => .ok entry
      | .error e => .error ⟨seq, s!"bincode payload after crc ok: {e}"⟩

/-- Decode one WAL object, tagging errors with its sequence. -/
def decodeSegment (bytes : List UInt8) (seq : Option Nat) : Except WalCorrupt E :=
  match bytes with
  | [] => .error ⟨seq, "empty wal segment"⟩
  | version :: _ =>
    if version = walFormatCrc32 ∧ bytes.length > 1 + crc32TrailerLen then
      match decodeCrc32Format codec bytes seq with
      | .ok entry => .ok entry
      | .error e =>
        -- an older segment may start with the same byte
        match codec.deserialize bytes with
        | .ok entry => .ok entry
        | .error _ => .error e
    else
      match codec.deserialize bytes with
      | .ok entry => .ok entry
      | .error e => .error ⟨seq, s!"legacy bincode decode: {e}"⟩

def decodeSegmentWithPolicy (bytes : List UInt8) (seq : Nat) (policy : WalCorruptPolicy) :
    Except String (Option E) :=
  match decodeSegment codec bytes (some seq) with
  | .ok entry => .ok (some entry)
  | .error e =>
    match policy with
    | .fail => .error e.display
    | .skip => .ok none

def SegmentCodec.decoded (bytes : List UInt8) : Option E :=
  (decodeSegment codec bytes none).toOption

end Decode

variable {E : Type} {codec : SegmentCodec E} {bytes : List UInt8}

theorem decodeCrc32Format_seq (seq seq' : Option Nat) :
    (decodeCrc32Format codec bytes seq).toOption
      = (decodeCrc32Format codec bytes seq').toOption := by
  simp only [decodeCrc32Format]
  split
  · rfl
  · split
    · rfl
    · split <;> rfl

/-- A segment that decodes has a payload that decodes. -/
theorem decodeCrc32Format_ok {seq : Option Nat} {entry : E}
    (h : decodeCrc32Format codec bytes seq = .ok entry) :
    codec.deserialize ((bytes.take (bytes.length - crc32TrailerLen)).drop 1) = .ok entry := by
  simp only [decodeCrc32Format] at h
  split at h
  · cases h
  · split at h
    · cases h
    · split at h
      · rename_i hpayload
        cases h
        exact hpayload
      · cases h

/-- The sequence is only there for the error. -/
theorem toOption_decodeSegment (codec : SegmentCodec E) (bytes : List UInt8) (seq : Option Nat) :
    (decodeSegment codec bytes seq).toOption = codec.decoded bytes := by
  unfold SegmentCodec.decoded decodeSegment
  split
  · rfl
  · rename_i version rest
    split
    · have hseq : (decodeCrc32Format codec (version :: rest) seq).toOption
          = (decodeCrc32Format codec (version :: rest) none).toOption :=
        decodeCrc32Format_seq seq none
      cases h : decodeCrc32Format codec (version :: rest) seq with
      | ok entry =>
        cases h' : decodeCrc32Format codec (version :: rest) none with
        | ok entry' => rw [h, h'] at hseq; exact hseq
        | error c' => rw [h, h'] at hseq; cases hseq
      | error c =>
        cases h' : decodeCrc32Format codec (version :: rest) none with
        | ok entry' => rw [h, h'] at hseq; cases hseq
        | error c' => cases codec.deserialize (version :: rest) <;> rfl
    · cases codec.deserialize (version :: rest) <;> rfl

theorem decodeSegment_of_decoded {entry : E} (h : codec.decoded bytes = some entry)
    (seq : Option Nat) : decodeSegment codec bytes seq = .ok entry := by
  rw [← toOption_decodeSegment codec bytes seq] at h
  cases hd : decodeSegment codec bytes seq with
  | ok entry' =>
    rw [hd] at h
    exact congrArg Except.ok (Option.some.inj h)
  | error c =>
    rw [hd] at h
    cases h

theorem decodeSegment_of_not_decoded (h : codec.decoded bytes = none) (seq : Option Nat) :
    ∃ c, decodeSegment codec bytes seq = .error c := by
  rw [← toOption_decodeSegment codec bytes seq] at h
  cases hd : decodeSegment codec bytes seq with
  | ok entry =>
    rw [hd] at h
    cases h
  | error c => exact ⟨c, rfl⟩

theorem decodeSegmentWithPolicy_of_decoded {entry : E}
    (h : codec.decoded bytes = some entry) (seq : Nat) (policy : WalCorruptPolicy) :
    decodeSegmentWithPolicy codec bytes seq policy = .ok (some entry) := by
  rw [decodeSegmentWithPolicy, decodeSegment_of_decoded h]

theorem decodeSegmentWithPolicy_skip (codec : SegmentCodec E) (bytes : List UInt8) (seq : Nat) :
    decodeSegmentWithPolicy codec bytes seq .skip = .ok (codec.decoded bytes) := by
  cases h : codec.decoded bytes with
  | some entry => exact decodeSegmentWithPolicy_of_decoded h seq .skip
  | none =>
    obtain ⟨c, hc⟩ := decodeSegment_of_not_decoded h (some seq)
    rw [decodeSegmentWithPolicy, hc]

end OpenPuffer
