import Reel.Append.Journal
import Reel.Format.Frame
import Reel.Library.Runs
import Reel.Recovery.RangeEnds
import Reel.Store.Epochs

/-!
One tail's open segment: writers reserve room by a compare and exchange, read what room the journal leaves, write their
records where there is room for them and push their rows, all under a lock they share. The rows that are pending go to
the file beside them, by a pace or a flush whose turn is left open here.
-/

set_option autoImplicit false

namespace Reel
open Bytes

inductive Intent where
  | data (payload : Str) (codec : Codec)
  | tombstone
  | rangeTombstone (fin : Str)

def Intent.payload : Intent → Str
  | .data payload _ => payload
  | .tombstone => []
  | .rangeTombstone fin => fin

structure BatchRecord where
  key : RecordKey
  intent : Intent

def buildHeader (checksum : Str → UInt32) (key : RecordKey) (lsn : UInt64) : Intent → RecordHeader
  | .data payload codec =>
    RecordHeader.framed checksum .keyless (UInt32.ofNat payload.length) lsn .data key codec.asByte payload
  | .tombstone => RecordHeader.framed checksum .keyless 0 lsn .tombstone key 0 []
  | .rangeTombstone fin =>
    RecordHeader.framed checksum .keyless (UInt32.ofNat fin.length) lsn .rangeTombstone key 0 fin

/-- One record of a run and where it is written. -/
structure FramedRecord where
  header : RecordHeader
  payload : Str
  offset : Nat

namespace FramedRecord

def row (record : FramedRecord) : JournalRow :=
  journalRow { key := record.header.key, flags := record.header.flags, payload := record.payload,
               lsn := record.header.lsn, offset := UInt32.ofNat record.offset }

def bytes (checksum : Str → UInt32) (sip : Str → Str → UInt64) (check : CheckKey) (record : FramedRecord) : Str :=
  record.header.recordBytes checksum sip (.keyless check) record.payload

end FramedRecord

def frameRun (checksum : Str → UInt32) : Nat → Nat → List BatchRecord → List FramedRecord
  | _, _, [] => []
  | first, base, write :: rest =>
    let header := buildHeader checksum write.key (UInt64.ofNat first) write.intent
    ⟨header, write.intent.payload, base⟩ :: frameRun checksum (first + 1) (base + header.spanIn .keyless) rest

def framedLen (run : List FramedRecord) : Nat := (run.map fun record => record.header.spanIn .keyless).sum

/-- A reel's settings, and the check key a fresh segment drew. -/
structure TailConfig where
  segmentBytes : Nat
  wholeBlocks : Bool
  check : CheckKey
  nonzero : 0 < segmentBytes
  fits : segmentBytes < 2 ^ 32

def maxSegmentOffset : Nat := 2 ^ 32 - 1
def writebackChunk : Nat := 1024 * 1024
def fillWindows : Nat := 4

namespace TailConfig

def reservedSpan (cfg : TailConfig) (framed : Nat) : Nat := if cfg.wholeBlocks then nextMultiple framed else framed

def headerSpan (cfg : TailConfig) : Nat := cfg.reservedSpan (headerLen + segmentHeaderSpan)

def fillWindow (cfg : TailConfig) : Nat := min (cfg.segmentBytes / 16) writebackChunk * fillWindows

end TailConfig

/-- Where a call stands with the stretch it reserved. -/
inductive Stage where
  | reserved
  /-- The reservation ran past the segment, so the seal cuts below it. -/
  | turned
  | admitted
  | landed
  /-- The write came back with an error, or with another length than it framed. -/
  | failed
  | pushed
  deriving DecidableEq

def Stage.isAdmitted : Stage → Bool
  | .reserved | .turned => false
  | .admitted | .landed | .failed | .pushed => true

/-- A stretch of the segment a call reserved, and the records it frames there. -/
structure Call where
  base : Nat
  span : Nat
  run : List FramedRecord
  stage : Stage

namespace Call

def rows (call : Call) : List JournalRow :=
  (call.run.filter fun record => isIndexable record.header.flags).map FramedRecord.row

/-- What the call writes: its records, and zeros out to the next block where it writes whole blocks. -/
def bytes (checksum : Str → UInt32) (sip : Str → Str → UInt64) (check : CheckKey) (call : Call) : Str :=
  call.run.flatMap (FramedRecord.bytes checksum sip check) ++ List.replicate (call.span - framedLen call.run) 0

end Call

/-- The segment as its writers share it. The journal is kept by its lengths. -/
structure AppendTail where
  reserved : Nat
  /-- Lowest reservation that ran past the segment. -/
  cutAt : Option Nat
  /-- End of the zeros laid down ahead of the write head, which no claim passes. -/
  allocHigh : Nat
  /-- Bytes of rows pending. -/
  pending : Nat
  /-- Bytes the journal holds once everything pushed is written. -/
  pushed : Nat
  /-- Bytes of rows that a journal write under way took. -/
  writing : Option Nat
  /-- Every reservation made on the segment, in their order. -/
  calls : List Call

inductive TailStep where
  /-- Lay down the window a claim of this span wants over the head it read, or move the edge to the claim's end. -/
  | fill (seen span : Nat) (isLaid : Bool)
  /-- A put, or a batch, under the run of numbers it drew. -/
  | reserve (first : Nat) (writes : List BatchRecord)
  /-- Read the room there is now. -/
  | check (i : Nat)
  | land (i : Nat)
  | fail (i : Nat)
  | push (i : Nat)
  | writeRows
  /-- The journal write landed, or its rows went with it. -/
  | wroteRows
  | putBack

/-- Bytes a call's rows take in the journal. -/
def groupBytes (checksum : Str → UInt32) (rows : List JournalRow) : Nat :=
  if rows = [] then 0 else (pushGroup checksum rows).length

theorem Journal.push_pushed (checksum : Str → UInt32) (j : Journal) (rows : List JournalRow) :
    (j.push checksum rows).pushed = j.pushed + groupBytes checksum rows := by
  unfold Journal.push groupBytes
  split <;> rfl

theorem Journal.writePending_pushed (j : Journal) (file : Str) :
    (j.writePending file).1.pushed = j.pushed + padding j.wholeBlocks j.pending.length := by
  unfold Journal.writePending padding
  split
  · next hnone => simp [hnone, nextMultiple, block]
  · simp only [Journal.outgoing]
    split <;> simp

namespace AppendTail

def start (cfg : TailConfig) : AppendTail where
  reserved := cfg.headerSpan
  cutAt := none
  allocHigh := nextMultiple (min cfg.fillWindow cfg.segmentBytes)
  pending := 0
  pushed := 0
  writing := none
  calls := []

/-- How far records may reach, so that records and journal together fit the segment. -/
def room (cfg : TailConfig) (s : AppendTail) : Nat := cfg.segmentBytes - s.pushed

/-- The offset a seal cuts the segment at. -/
def fin (s : AppendTail) : Nat := s.cutAt.elim s.reserved (min s.reserved)

def step (checksum : Str → UInt32) (sip : Str → Str → UInt64) (cfg : TailConfig) (s : AppendTail) :
    TailStep → Option AppendTail
  | .fill seen span isLaid =>
    if seen ≤ s.reserved ∧ s.allocHigh < seen + span ∧ s.allocHigh < cfg.segmentBytes then
      let next := nextMultiple (min (s.allocHigh + max cfg.fillWindow span) cfg.segmentBytes)
      some { s with allocHigh := max s.allocHigh (if isLaid then next else seen + span) }
    else none
  | .reserve first writes =>
    let run := frameRun checksum first s.reserved writes
    let span := cfg.reservedSpan (framedLen run)
    if writes ≠ [] ∧ writes.length ≤ mostCounted ∧ cfg.headerSpan + span + block ≤ cfg.segmentBytes ∧
        (s.reserved + span ≤ s.allocHigh ∨ cfg.segmentBytes ≤ s.allocHigh) then
      some { s with calls := s.calls ++ [⟨s.reserved, span, run, .reserved⟩], reserved := s.reserved + span }
    else none
  | .check i => do
    let call ← s.calls[i]?
    if call.stage = .reserved then
      if call.base + call.span + block ≤ s.room cfg ∧ call.base + call.span ≤ maxSegmentOffset then
        some { s with calls := s.calls.set i { call with stage := .admitted } }
      else
        some { s with
          calls := s.calls.set i { call with stage := .turned }
          cutAt := some (s.cutAt.elim call.base (min call.base)) }
    else none
  | .land i => do
    let call ← s.calls[i]?
    if call.stage = .admitted then
      let stage := if (call.bytes checksum sip cfg.check).length = call.span then .landed else .failed
      some { s with calls := s.calls.set i { call with stage } }
    else none
  | .fail i => do
    let call ← s.calls[i]?
    if call.stage = .admitted then some { s with calls := s.calls.set i { call with stage := .failed } } else none
  | .push i => do
    let call ← s.calls[i]?
    if call.stage = .landed then
      let group := groupBytes checksum call.rows
      some { s with
        calls := s.calls.set i { call with stage := .pushed }
        pending := s.pending + group
        pushed := s.pushed + group }
    else none
  | .writeRows =>
    if s.writing = none ∧ s.pending ≠ 0 then
      some { s with
        writing := some s.pending
        pending := 0
        pushed := s.pushed + padding cfg.wholeBlocks s.pending }
    else none
  | .wroteRows => if s.writing = none then none else some { s with writing := none }
  | .putBack => do
    let rows ← s.writing
    some { s with
      writing := none
      pending := rows + s.pending
      pushed := s.pushed - padding cfg.wholeBlocks rows }

end AppendTail

end Reel
