/-
# Segment headers and entry frames

The on-disk byte formats of `commitlog/format.rs`. The checksum and the
record codec are parameters: nothing below depends on what CRC32C or
MessagePack compute, only on decoding undoing encoding.
-/
import Fluxum.CommitLog.Record

namespace Fluxum
namespace CommitLog

open Bytes List

/-- The checksum and the record codec of a log. -/
structure Codec where
  crc32c : Bytes → UInt32
  encode : TxRecord → Option Bytes
  decode : Bytes → Option TxRecord
  decode_encode : ∀ {r body}, encode r = some body → decode body = some r

/-- `b"FLXMLOG\0"`. -/
def segmentMagic : Bytes := [0x46, 0x4C, 0x58, 0x4D, 0x4C, 0x4F, 0x47, 0x00]

def logFormatVersion : Nat := 1

def checksumCrc32c : UInt8 := 0

def segmentHeaderLen : Nat := 24

def entryOverhead : Nat := 16

def maxBodyLen : Nat := 2 ^ 30

section

variable (C : Codec) {epoch : Nat}

/-! ### Segment header -/

/-- The first twenty bytes of a header: magic, version, checksum id, a reserved byte, epoch. -/
def headerBody (epoch : Nat) : Bytes :=
  segmentMagic ++ leBytes 2 logFormatVersion ++ [checksumCrc32c, 0] ++ leBytes 8 epoch

def encodeSegmentHeader (epoch : Nat) : Bytes :=
  headerBody epoch ++ leBytes 4 (C.crc32c (headerBody epoch)).toNat

inductive HeaderFault where
  | short (len : Nat)
  | crcMismatch
  | badMagic
  | unsupportedVersion (version : Nat)
  | unsupportedChecksum (id : UInt8)
deriving DecidableEq, Repr

/-- The epoch of a header, or what is wrong with it. -/
def decodeSegmentHeader (buf : Bytes) : Except HeaderFault Nat :=
  if buf.length < segmentHeaderLen then .error (.short buf.length)
  else if (C.crc32c (buf.take 20)).toNat ≠ ofLE ((buf.drop 20).take 4) then .error .crcMismatch
  else if buf.take 8 ≠ segmentMagic then .error .badMagic
  else if ofLE ((buf.drop 8).take 2) ≠ logFormatVersion then
    .error (.unsupportedVersion (ofLE ((buf.drop 8).take 2)))
  else if buf.getD 10 0 ≠ checksumCrc32c then .error (.unsupportedChecksum (buf.getD 10 0))
  else .ok (ofLE ((buf.drop 12).take 8))

@[simp] theorem length_headerBody (epoch : Nat) : (headerBody epoch).length = 20 := by
  simp [headerBody, segmentMagic]

@[simp] theorem length_encodeSegmentHeader (epoch : Nat) :
    (encodeSegmentHeader C epoch).length = segmentHeaderLen := by
  simp [encodeSegmentHeader, segmentHeaderLen]

/-- A header reads back, whatever follows it. -/
theorem decodeSegmentHeader_append (h : epoch < 2 ^ 64) (rest : Bytes) :
    decodeSegmentHeader C (encodeSegmentHeader C epoch ++ rest) = .ok epoch := by
  have hcrc : (C.crc32c (headerBody epoch)).toNat < 256 ^ 4 := (C.crc32c _).toNat_lt
  have hlen := length_headerBody epoch
  have htake : (encodeSegmentHeader C epoch ++ rest).take 20 = headerBody epoch := by
    rw [encodeSegmentHeader, append_assoc, take_left' hlen]
  have hdrop : ((encodeSegmentHeader C epoch ++ rest).drop 20).take 4 =
      leBytes 4 (C.crc32c (headerBody epoch)).toNat := by
    rw [encodeSegmentHeader, append_assoc, drop_left' hlen, take_left' (length_leBytes ..)]
  have hepoch : ((encodeSegmentHeader C epoch ++ rest).drop 12).take 8 = leBytes 8 epoch := by
    simp [encodeSegmentHeader, headerBody, segmentMagic, logFormatVersion, leBytes]
  unfold decodeSegmentHeader
  rw [if_neg (by simp), htake, hdrop, ofLE_leBytes hcrc, if_neg (by simp), hepoch,
    ofLE_leBytes (by simpa using h)]
  simp [encodeSegmentHeader, headerBody, segmentMagic, logFormatVersion, leBytes, ofLE, checksumCrc32c]

theorem length_of_decodeSegmentHeader {buf : Bytes} (h : decodeSegmentHeader C buf = .ok epoch) :
    segmentHeaderLen ≤ buf.length := by
  by_contra hlen
  rw [decodeSegmentHeader, if_pos (by omega)] at h
  simp at h

/-- The header depends on the first twenty-four bytes only. -/
theorem decodeSegmentHeader_congr {buf buf' : Bytes} (hlen : segmentHeaderLen ≤ buf.length)
    (hlen' : segmentHeaderLen ≤ buf'.length) (h : buf'.take segmentHeaderLen = buf.take segmentHeaderLen) :
    decodeSegmentHeader C buf' = decodeSegmentHeader C buf := by
  have hbyte : buf'.getD 10 0 = buf.getD 10 0 := by
    have hget : ∀ x : Bytes, (x.take segmentHeaderLen).getD 10 0 = x.getD 10 0 := by
      intro x
      simp [getD_eq_getElem?_getD, segmentHeaderLen]
    rw [← hget buf', ← hget buf, h]
  unfold decodeSegmentHeader
  rw [if_neg (show ¬ buf'.length < segmentHeaderLen by omega),
    if_neg (show ¬ buf.length < segmentHeaderLen by omega), take_congr h (n := 20) (by decide), take_congr h (n := 8) (by decide),
    window_congr h (i := 20) (n := 4) (by decide), window_congr h (i := 8) (n := 2) (by decide),
    window_congr h (i := 12) (n := 8) (by decide), hbyte]

/-! ### Entry frame -/

/-- The bytes of a frame that its checksum covers: length prefix, epoch, body. -/
def frameBody (epoch : Nat) (body : Bytes) : Bytes :=
  leBytes 4 body.length ++ leBytes 8 epoch ++ body

def frame (epoch : Nat) (body : Bytes) : Bytes :=
  frameBody epoch body ++ leBytes 4 (C.crc32c (frameBody epoch body)).toNat

/-- `none` is the error for a body over the limit. -/
def encodeEntry (epoch : Nat) (body : Bytes) : Option Bytes :=
  if body.length ≤ maxBodyLen then some (frame C epoch body) else none

inductive TornFrame where
  | envelope (remaining : Nat)
  | truncated (frameLen remaining : Nat)
deriving DecidableEq, Repr

inductive CorruptFrame where
  | lengthPrefix (len : Nat)
  | crcMismatch
deriving DecidableEq, Repr

inductive ScannedEntry where
  | entry (epoch : Nat) (body : Bytes) (endOffset : Nat)
  | cleanEof
  | torn (reason : TornFrame)
  | corrupt (reason : CorruptFrame)
deriving DecidableEq, Repr

def scanEntry (buf : Bytes) (offset : Nat) : ScannedEntry :=
  let remaining := buf.length - offset
  if remaining = 0 then .cleanEof
  else if remaining < entryOverhead then .torn (.envelope remaining)
  else
    let len := ofLE ((buf.drop offset).take 4)
    if maxBodyLen < len then .corrupt (.lengthPrefix len)
    else if remaining < entryOverhead + len then .torn (.truncated (entryOverhead + len) remaining)
    else if (C.crc32c ((buf.drop offset).take (12 + len))).toNat ≠ ofLE ((buf.drop (offset + (12 + len))).take 4) then
      .corrupt .crcMismatch
    else .entry (ofLE ((buf.drop (offset + 4)).take 8)) ((buf.drop (offset + 12)).take len)
      (offset + (entryOverhead + len))

@[simp] theorem length_frameBody (epoch : Nat) (body : Bytes) : (frameBody epoch body).length = 12 + body.length := by
  simp only [frameBody, length_append, length_leBytes]

@[simp] theorem length_frame (epoch : Nat) (body : Bytes) :
    (frame C epoch body).length = entryOverhead + body.length := by
  simp only [frame, length_append, length_frameBody, length_leBytes, entryOverhead]
  omega

/-- A frame reads back, wherever it stands. -/
theorem scanEntry_frame {body : Bytes} (hepoch : epoch < 2 ^ 64) (hbody : body.length ≤ maxBodyLen)
    (pre rest : Bytes) :
    scanEntry C (pre ++ frame C epoch body ++ rest) pre.length =
      .entry epoch body (pre.length + (frame C epoch body).length) := by
  have hcrc : (C.crc32c (frameBody epoch body)).toNat < 256 ^ 4 := (C.crc32c _).toNat_lt
  have hlen4 : body.length < 256 ^ 4 := lt_of_le_of_lt hbody (by decide)
  -- the window of the buffer at `pre.length + i` is the window of the frame at `i`
  have hwin : ∀ i, (pre ++ frame C epoch body ++ rest).drop (pre.length + i) = (frame C epoch body ++ rest).drop i := by
    intro i
    rw [append_assoc, ← drop_drop, drop_left]
  have h0 := hwin 0
  simp only [Nat.add_zero, drop_zero] at h0
  have hlen : ofLE (((pre ++ frame C epoch body ++ rest).drop pre.length).take 4) = body.length := by
    rw [h0, frame, frameBody]
    simp only [append_assoc]
    rw [take_left' (length_leBytes ..), ofLE_leBytes hlen4]
  have hcov : ((pre ++ frame C epoch body ++ rest).drop pre.length).take (12 + body.length) = frameBody epoch body := by
    rw [h0, frame, append_assoc, take_left' (length_frameBody ..)]
  have hstored : ofLE (((pre ++ frame C epoch body ++ rest).drop (pre.length + (12 + body.length))).take 4) =
      (C.crc32c (frameBody epoch body)).toNat := by
    rw [hwin, frame, append_assoc, drop_left' (length_frameBody ..),
      take_left' (length_leBytes ..), ofLE_leBytes hcrc]
  have hep : ofLE (((pre ++ frame C epoch body ++ rest).drop (pre.length + 4)).take 8) = epoch := by
    rw [hwin, frame, frameBody]
    simp only [append_assoc]
    rw [drop_left' (length_leBytes ..), take_left' (length_leBytes ..),
      ofLE_leBytes (by simpa using hepoch)]
  have hbd : ((pre ++ frame C epoch body ++ rest).drop (pre.length + 12)).take body.length = body := by
    rw [hwin, frame, frameBody]
    simp only [append_assoc]
    rw [← append_assoc, drop_left' (by simp), take_left' rfl]
  have hrem : (pre ++ frame C epoch body ++ rest).length - pre.length = entryOverhead + body.length + rest.length := by
    simp only [length_append, length_frame]
    omega
  unfold scanEntry
  simp only [hrem, hlen, hcov, hstored, hep, hbd, length_frame]
  rw [if_neg (by simp [entryOverhead]), if_neg (by omega), if_neg (by omega), if_neg (by omega), if_neg (by simp)]

theorem scanEntry_bounds {buf body : Bytes} {offset epoch e : Nat} (h : scanEntry C buf offset = .entry epoch body e) :
    offset + entryOverhead ≤ e ∧ e ≤ buf.length := by
  unfold scanEntry at h
  dsimp only at h
  split at h
  · simp at h
  split at h
  · simp at h
  split at h
  · simp at h
  split at h
  · simp at h
  split at h
  · simp at h
  obtain ⟨-, -, rfl⟩ := ScannedEntry.entry.inj h
  omega

/-- An entry depends on the bytes up to its end only. -/
theorem scanEntry_congr {buf buf' body : Bytes} {offset epoch e : Nat} (h : scanEntry C buf offset = .entry epoch body e)
    (hlen : e ≤ buf'.length) (htake : buf'.take e = buf.take e) : scanEntry C buf' offset = .entry epoch body e := by
  have hb := scanEntry_bounds C h
  unfold entryOverhead at hb
  have hlen4 := window_congr htake (i := offset) (n := 4) (by omega)
  unfold scanEntry at h ⊢
  dsimp only at h ⊢
  rw [hlen4]
  split at h
  · simp at h
  split at h
  · simp at h
  split at h
  · simp at h
  rename_i hmax
  split at h
  · simp at h
  split at h
  · simp at h
  rename_i hcrc
  obtain ⟨hep, hbody, he⟩ := ScannedEntry.entry.inj h
  have hover : entryOverhead = 16 := rfl
  rw [window_congr htake (i := offset) (by omega), window_congr htake (i := offset + 4) (by omega),
    window_congr htake (i := offset + 12) (by omega), window_congr htake (i := offset + (12 + _)) (by omega),
    if_neg (by omega), if_neg (by omega), if_neg hmax, if_neg (by omega), if_neg hcrc, hep, hbody, he]

end

end CommitLog
end Fluxum
