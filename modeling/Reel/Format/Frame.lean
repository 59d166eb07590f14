import Reel.Format.Record

/-!
A record's bytes on disk: the header and key of a keyed record, the check and shape of a keyless one, and
how many bytes a segment's own header record takes. The checksum and the keyed hash are parameters.
-/

set_option autoImplicit false

namespace Reel
open Bytes List

inductive Codec where
  | none
  | lz4
  deriving DecidableEq, Repr

def Codec.asByte : Codec → Byte
  | .none => 0
  | .lz4 => 1

def checkKeyLen : Nat := 16

/-- A random secret per segment that keys its checks. -/
structure CheckKey where
  bytes : Str
  width : bytes.length = checkKeyLen
  deriving DecidableEq, Repr

/-- How a segment frames its records, a keyless one under the key of its checks. -/
inductive SegmentLayout where
  | keyed
  | keyless (check : CheckKey)
  deriving DecidableEq, Repr

/-- The fixed size header ahead of a keyed record's key and payload. -/
structure RecordHeader where
  length : UInt32
  crc : UInt32
  lsn : UInt64
  flags : Flags
  key : RecordKey
  codec : Byte
  deriving DecidableEq

namespace RecordHeader

def fixedWith (header : RecordHeader) (crc : Nat) : Str :=
  toLe 4 header.length.toNat ++ toLe 4 crc ++ toLe 8 header.lsn.toNat ++ [header.flags.bits] ++
    [header.key.column] ++ toLe 2 header.key.key.bytes.length ++ [header.codec]

def fixed (header : RecordHeader) : Str := header.fixedWith 0

variable (checksum : Str → UInt32)

def computeCrc (header : RecordHeader) (payload : Str) : UInt32 :=
  checksum (header.fixed ++ header.key.key.bytes ++ payload)

def pack (header : RecordHeader) : Str := header.fixedWith header.crc.toNat ++ header.key.key.bytes

def hasPayload (header : RecordHeader) : Bool :=
  header.flags.isData || header.flags.isSegmentHeader || header.flags.isRangeTombstone

def newCoded (length : UInt32) (lsn : UInt64) (flags : Flags) (key : RecordKey)
    (codec : Byte) (payload : Str) : RecordHeader :=
  let header : RecordHeader := ⟨length, 0, lsn, flags, key, codec⟩
  { header with crc := header.computeCrc checksum payload }

def framed (layout : RecordLayout) (length : UInt32) (lsn : UInt64) (flags : Flags)
    (key : RecordKey) (codec : Byte) (payload : Str) : RecordHeader :=
  if !layout.isKeyless length.toNat || flags.isControl then
    newCoded checksum length lsn flags key codec payload
  -- the pack takes the check under the segment's key
  else ⟨length, 0, lsn, flags, key, codec⟩

def prefixLen (header : RecordHeader) : Nat := headerLen + header.key.key.bytes.length

def span (header : RecordHeader) : Nat := header.prefixLen + header.length.toNat

def isKeylessIn (header : RecordHeader) (layout : RecordLayout) : Bool :=
  layout.isKeyless header.length.toNat && !header.flags.isControl

def spanIn (header : RecordHeader) (layout : RecordLayout) : Nat :=
  if header.isKeylessIn layout then keylessPrefix + header.length.toNat else header.span

end RecordHeader

def isIndexable (flags : Flags) : Bool := flags.isData || flags.isTombstone || flags.isRangeTombstone

/-- Bytes a record of this key width and length takes on disk, for the index. -/
def spanOf (keyWidth len : Nat) : Nat := RecordLayout.keyless.prefixLen keyWidth len + len

theorem spanOf_pos (keyWidth len : Nat) : 0 < spanOf keyWidth len := by
  simp only [spanOf, RecordLayout.prefixLen, keylessPrefix, headerLen]
  split <;> omega

def codecBits : Nat := 2

def keylessShape (len : Nat) (codec : Byte) : Nat := (len <<< codecBits ||| codec.val) % 2 ^ 16

variable (checksum : Str → UInt32) (sip : Str → Str → UInt64)

/-- Check a keyless record over its key, kind, length, codec and payload, under its segment's key. The
version stays out. -/
def keylessCheck (check : CheckKey) (key : RecordKey)
    (flags : Flags) (shape : Nat) (payload : Str) : UInt64 :=
  sip check.bytes ([key.column] ++ toLe 2 key.key.bytes.length ++
    [Fin.ofNat 256 (flags.bits.val &&& Flags.kindMask)] ++ toLe 2 shape ++ toLe 4 (checksum payload).toNat ++
    key.key.bytes)

/-- What a record writes ahead of its payload in a segment of this layout. -/
def RecordHeader.packIn (header : RecordHeader)
    (layout : SegmentLayout) (payload : Str) : Str :=
  match layout with
  | .keyless check =>
    if header.isKeylessIn .keyless then
      let shape := keylessShape header.length.toNat header.codec
      let covered := if header.hasPayload then payload else []
      toLe 8 (keylessCheck checksum sip check header.key header.flags shape covered).toNat ++ toLe 2 shape
    else header.pack
  | .keyed => header.pack

def RecordHeader.recordBytes (header : RecordHeader)
    (layout : SegmentLayout) (payload : Str) : Str :=
  header.packIn checksum sip layout payload ++ (if header.hasPayload then payload else [])

def segmentHeaderLen : Nat := 2 + 4
def segmentHeaderSpan : Nat := segmentHeaderLen + 1 + checkKeyLen + 8

namespace RecordHeader

theorem fixedWith_length (header : RecordHeader) (crc : Nat) : (header.fixedWith crc).length = headerLen := by
  simp [fixedWith, headerLen]

theorem pack_length (header : RecordHeader) : header.pack.length = header.prefixLen := by
  simp [pack, fixedWith_length, prefixLen]

end RecordHeader

end Reel
