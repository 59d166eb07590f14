import Reel.Library.Bytes

/-!
Columns, the keys they are addressed by, and the kind and mark bits of a record.
-/

set_option autoImplicit false

namespace Reel
open Bytes

def maxKeyLen : Nat := 1056

inductive ReelError where
  | rejected (message : String)
  | corruption (message : String)
  deriving DecidableEq, Repr

abbrev ColumnId := Byte

structure KeyBytes where
  bytes : Str
  width_le : bytes.length ≤ maxKeyLen
  deriving DecidableEq, Repr

def KeyBytes.new (bytes : Str) : Except ReelError KeyBytes :=
  if h : bytes.length ≤ maxKeyLen then .ok ⟨bytes, h⟩
  else
    let width := bytes.length
    .error (.rejected s!"a key of {width} bytes is wider than the {maxKeyLen} byte maximum")

theorem KeyBytes.new_toOption (key : KeyBytes) : (KeyBytes.new key.bytes).toOption = some key := by
  simp [new, key.width_le, Except.toOption]

theorem KeyBytes.new_toOption_of_wide {bytes : Str} (h : maxKeyLen < bytes.length) :
    (KeyBytes.new bytes).toOption = none := by
  simp [new, Nat.not_le.mpr h, Except.toOption]

theorem KeyBytes.new_toOption_of_le {bytes : Str} (h : bytes.length ≤ maxKeyLen) :
    (KeyBytes.new bytes).toOption = some ⟨bytes, h⟩ := by
  simp [new, h, Except.toOption]

structure RecordKey where
  column : ColumnId
  key : KeyBytes
  deriving DecidableEq, Repr

def RecordKey.fromBytes (column : ColumnId) (bytes : Str) : Except ReelError RecordKey :=
  (KeyBytes.new bytes).map (RecordKey.mk column)

theorem RecordKey.fromBytes_toOption (key : RecordKey) :
    (RecordKey.fromBytes key.column key.key.bytes).toOption = some key := by
  simp [fromBytes, KeyBytes.new, key.key.width_le, Except.map, Except.toOption]

/-- A column's key width, fixed or variable. -/
inductive KeyWidth where
  | fixed (width : Nat)
  | varying
  deriving DecidableEq, Repr

def KeyWidth.admits : KeyWidth → Nat → Prop
  | .fixed width, len => len = width
  | .varying, len => len ≤ maxKeyLen

instance : (width : KeyWidth) → (len : Nat) → Decidable (width.admits len)
  | .fixed width, len => inferInstanceAs (Decidable (len = width))
  | .varying, len => inferInstanceAs (Decidable (len ≤ maxKeyLen))

def KeyWidth.accepts : KeyWidth → Str → Bool
  | .fixed width, bytes => bytes.length == width
  | .varying, _ => true

def KeyWidth.lowBound : KeyWidth → Str → Str
  | .fixed width, bytes => padTo width bytes
  | .varying, bytes => bytes

theorem KeyWidth.lowBound_lowBound (width : KeyWidth) (key : Str) :
    width.lowBound (width.lowBound key) = width.lowBound key := by
  cases width with
  | varying => rfl
  | fixed width =>
    have hlen := padTo_length width key
    simp only [KeyWidth.lowBound]
    generalize padTo width key = padded at hlen
    simp [padTo, ← hlen]

theorem KeyWidth.lowBound_mono (width : KeyWidth) {a b : Str} (h : a ≤ b) :
    width.lowBound a ≤ width.lowBound b := by
  cases width with
  | fixed width => exact padTo_mono h width
  | varying => exact h

structure Flags where
  bits : Byte
  deriving DecidableEq, Repr

namespace Flags

def kindMask : Nat := 0b00011111
def tombstoneBit : Nat := 0b00000001
def rangeTombstoneBit : Nat := 0b00000010
def segmentHeaderBit : Nat := 0b00001000
def relocatedBit : Nat := 0b01000000
def controlMask : Nat := segmentHeaderBit
def markMask : Nat := relocatedBit
def knownMask : Nat := kindMask ||| markMask

def data : Flags := ⟨0⟩
def tombstone : Flags := ⟨Fin.ofNat 256 tombstoneBit⟩
def rangeTombstone : Flags := ⟨Fin.ofNat 256 rangeTombstoneBit⟩
def segmentHeader : Flags := ⟨Fin.ofNat 256 segmentHeaderBit⟩

def relocated (flags : Flags) : Flags := ⟨Fin.ofNat 256 (flags.bits.val ||| relocatedBit)⟩

def isData (flags : Flags) : Bool := flags.bits.val &&& kindMask == 0
def isTombstone (flags : Flags) : Bool := flags.bits.val &&& tombstoneBit != 0
def isRangeTombstone (flags : Flags) : Bool := flags.bits.val &&& rangeTombstoneBit != 0
def isSegmentHeader (flags : Flags) : Bool := flags.bits.val &&& segmentHeaderBit != 0
def isControl (flags : Flags) : Bool := flags.bits.val &&& controlMask != 0

def countOnes (n : Nat) : Nat := ((List.range 8).filter n.testBit).length

def binaryText (byte : Byte) : String :=
  "0b" ++ String.ofList ((List.range 8).reverse.map fun i => if byte.val.testBit i then '1' else '0')

/-- Read flags from a header byte, rejecting shapes no writer produces. -/
def fromBits (byte : Byte) : Except ReelError Flags :=
  if byte.val &&& (255 - knownMask) ≠ 0 then
    .error (.corruption ("record header carries a bit no writer sets: " ++ binaryText byte))
  else if 1 < countOnes (byte.val &&& kindMask) then
    .error (.corruption ("record header carries more than one kind bit: " ++ binaryText byte))
  else if byte.val &&& kindMask &&& controlMask ≠ 0 ∧ byte.val &&& markMask ≠ 0 then
    .error (.corruption ("record header marks a control record: " ++ binaryText byte))
  else .ok ⟨byte⟩

/-- The shapes a writer produces: one kind, and a mark only beside an indexed kind. -/
def Written (flags : Flags) : Prop := fromBits flags.bits = .ok flags

instance (flags : Flags) : Decidable flags.Written :=
  inferInstanceAs (Decidable (fromBits flags.bits = .ok flags))

theorem fromBits_toOption {flags : Flags} (h : flags.Written) :
    (fromBits flags.bits).toOption = some flags := by rw [h]; rfl

theorem written_kinds : data.Written ∧ tombstone.Written ∧ rangeTombstone.Written ∧
    segmentHeader.Written ∧ data.relocated.Written ∧ tombstone.relocated.Written ∧
    rangeTombstone.relocated.Written := by decide

@[simp] theorem data_isRangeTombstone : data.isRangeTombstone = false := by decide
@[simp] theorem tombstone_isRangeTombstone : tombstone.isRangeTombstone = false := by decide
@[simp] theorem rangeTombstone_isRangeTombstone : rangeTombstone.isRangeTombstone = true := by decide

end Flags

end Reel
