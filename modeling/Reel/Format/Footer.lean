import Reel.Library.Bisect
import Reel.Library.StableSort
import Reel.Format.Filter

/-!
A sealed segment's footer: one partition of rows per column, in memory as whole rows one after the other
and on disk as packed rows, a filter region, a directory row per partition and a fixed tail. The standard
library's sort and the checksum are parameters.
-/

set_option autoImplicit false

namespace Reel.Footer
open Bytes

/-- A sort that may reorder equal elements: what it returns is a rearrangement, in order wherever the
comparison is total and transitive. -/
structure UnstableSort (α : Type) where
  run : (α → α → Bool) → List α → List α
  perm : ∀ le l, (run le l).Perm l
  sorted : ∀ le, (∀ a b, le a b = true ∨ le b a = true) →
    (∀ a b c, le a b = true → le b c = true → le a c = true) → ∀ l, (run le l).Pairwise fun a b => le a b = true

def errorText : ReelError → String
  | .rejected message => "reel rejected the operation: " ++ message
  | .corruption message => "reel corruption: " ++ message

def directoryRowLen : Nat := 11

def varyingWidth : Fin (2 ^ 16) := ⟨2 ^ 16 - 1, by decide⟩

def packedWidth : Nat := 0x8000

def fixedTailLen : Nat := 64

def footerMagic : Nat := fromLe [0x52, 0x45, 0x45, 0x4c]

structure FooterTally where
  live : UInt64
  dead : UInt64
  deriving DecidableEq, Repr

/-- One record's index row in a segment footer. -/
structure FooterEntry where
  key : RecordKey
  lsn : UInt64
  offset : UInt32
  len : UInt32
  flags : Flags
  deriving DecidableEq, Repr

inductive FooterFind where
  | ruledOut
  | missing
  | found (row : FooterRow)
  deriving DecidableEq, Repr

def FooterRow.read (row : Str) (width : Nat) : Except Fault FooterRow := do
  let flags ← fromFlags (row.getD (width + flagsAt) 0)
  return ⟨u64At row width, u32At row (width + offsetAt), u32At row (width + lenAt), flags⟩

namespace FooterEntry

def keyBytes (entry : FooterEntry) : Str := entry.key.key.bytes

def tailBytes (entry : FooterEntry) : Str :=
  toLe 8 entry.lsn.toNat ++ toLe 4 entry.offset.toNat ++ toLe 4 entry.len.toNat ++ [entry.flags.bits]

def width (entry : FooterEntry) : Fin (2 ^ 16) := Fin.ofNat _ entry.keyBytes.length

def footerRow (entry : FooterEntry) : FooterRow :=
  ⟨entry.lsn.toNat, entry.offset.toNat, entry.len.toNat, entry.flags⟩

end FooterEntry

def FooterRow.intoEntry (row : FooterRow) (key : RecordKey) : FooterEntry :=
  ⟨key, UInt64.ofNat row.lsn, UInt32.ofNat row.offset, UInt32.ofNat row.len, row.flags⟩

structure FooterPartition where
  column : ColumnId
  keyWidth : Fin (2 ^ 16)
  /-- The rows back to back, each a key and its fixed tail. -/
  packed : Str
  /-- Where each row begins, and a closing sentinel, empty when the rows stride. -/
  starts : List Nat
  filter : Option Filter
  /-- Whether the rows lie prefix packed on disk. -/
  isPacked : Bool
  deriving DecidableEq, Repr

namespace FooterPartition

def new (column : ColumnId) (keyWidth : Fin (2 ^ 16)) : FooterPartition :=
  -- a varying partition's starts open with the first row's
  ⟨column, keyWidth, [], if keyWidth = varyingWidth then [0] else [], none, keyWidth = varyingWidth⟩

variable (p : FooterPartition)

def isVarying : Bool := p.keyWidth = varyingWidth

def stride : Stride := ⟨p.keyWidth.val + entryTailLen, Nat.add_lt_add_right p.keyWidth.isLt _⟩

def len : Nat :=
  if p.isVarying then p.starts.length - 1 else p.packed.length / p.stride.val

def stopStriding : FooterPartition :=
  if p.isVarying then p
  else { p with
    starts := (List.range (p.len + 1)).map fun row => row * p.stride.val % 2 ^ 32
    keyWidth := varyingWidth
    isPacked := true }

def mayHold (p : FooterPartition) (key : Str) : Bool := p.filter.all (·.mayHold key)

/-- Where one row begins and ends within the packed rows. -/
def rowSpan (index : Nat) : Option (Nat × Nat) :=
  if p.isVarying then do
    let start ← p.starts[index]?
    let fin ← p.starts[index + 1]?
    if start ≤ fin ∧ fin ≤ p.packed.length then some (start, fin) else none
  else
    let start := index * p.stride.val
    let fin := start + p.stride.val
    if fin ≤ p.packed.length then some (start, fin) else none

def keyLen (index : Nat) : Option Nat :=
  if p.isVarying then do
    let (start, fin) ← p.rowSpan index
    if entryTailLen ≤ fin - start then some (fin - start - entryTailLen) else none
  else some p.keyWidth.val

def push (entry : FooterEntry) : FooterPartition :=
  let packed := p.packed ++ entry.keyBytes ++ entry.tailBytes
  { p with packed, starts := if p.isVarying then p.starts ++ [packed.length % 2 ^ 32] else p.starts }

def rowBytes (index : Nat) : Except Fault Str := do
  let (start, fin) ← orCorrupt "footer row is out of range" (p.rowSpan index)
  orCorrupt "footer row is out of range" (cut p.packed start fin)

def rowAt (index : Nat) : Except Fault FooterRow := do
  let width ← orCorrupt "footer row is out of range" (p.keyLen index)
  let row ← p.rowBytes index
  FooterRow.read row width

def entryAt (index : Nat) : Except Fault FooterEntry := do
  let width ← orCorrupt "footer row is out of range" (p.keyLen index)
  let row ← p.rowBytes index
  let key ← (RecordKey.fromBytes p.column (row.take width)).mapError fun error => Fault.error (.corruption (errorText error))
  let fields ← FooterRow.read row width
  return fields.intoEntry key

def entries : List (Except Fault FooterEntry) := (List.range p.len).map p.entryAt

/-- One row's sequence number, read straight from the packed row. -/
def lsnAt (index : Nat) : Nat :=
  match p.rowSpan index, p.keyLen index with
  | some (start, _), some width =>
    match cut p.packed (start + width) (start + width + 8) with
    | some bytes => fromLe bytes
    | none => 0
  | _, _ => 0

def keyAt (index : Nat) : Option Str := do
  let (start, _) ← p.rowSpan index
  let width ← p.keyLen index
  cut p.packed start (start + width)

def isBelow (key : Str) (pastEqual : Bool) (_ middle : Nat) : Except Nat Bool :=
  match p.keyAt middle with
  | none => .error p.len
  | some found => .ok (if pastEqual then found ≤ key else found < key)

def boundWithin (key : Str) (low high : Nat) (pastEqual : Bool) : Nat :=
  let high := min high p.len
  match Bisect.walk (p.isBelow key pastEqual) (high - low) low high with
  | .ok bound => bound
  | .error out => out

def bound (key : Str) (pastEqual : Bool) : Nat := p.boundWithin key 0 p.len pastEqual

def upperBound (key : Str) : Nat := p.bound key true

def locate (key : Str) : Option Nat :=
  match p.upperBound key with
  | 0 => none
  | at' + 1 => if p.keyAt at' = some key then some at' else none

def lookup (key : Str) : Except Fault FooterFind :=
  if p.mayHold key then
    match p.locate key with
    | none => .ok .missing
    | some index => (p.rowAt index).map .found
  else .ok .ruledOut

def buildFilter (bitsPerKey : Nat) : FooterPartition :=
  { p with filter := Filter.build ((List.range p.len).filterMap p.keyAt) p.len bitsPerKey }

/-- Whether the rows from one on follow the row before them. -/
def inOrderFrom (p : FooterPartition) : Nat → Nat → Str → Bool
  | 0, _, _ => true
  | n + 1, index, before =>
    match p.keyAt index with
    | none => false
    | some here =>
      -- equal keys are in order when their sequence numbers ascend
      (before < here || before = here && p.lsnAt (index - 1) < p.lsnAt index) && p.inOrderFrom n (index + 1) here

def inKeyOrder : Bool :=
  match p.keyAt 0 with
  | none => true
  | some first => p.inOrderFrom (p.len - 1) 1 first

def shareKey (first : Str) (shared index : Nat) : Nat :=
  if shared = 0 then 0 else min shared (sharedPrefix first ((p.keyAt index).getD []))

def sharedKeyPrefix : Nat :=
  match p.keyAt 0 with
  | none => 0
  | some first => (List.range' 1 (p.len - 1)).foldl (p.shareKey first) first.length

def keyHead (index shared : Nat) : Nat :=
  fromLe (padTo 8 (((p.keyAt index).getD []).drop shared)).reverse

def before (left right : Nat × Nat) : Bool :=
  left.1 < right.1 || left.1 = right.1 &&
    let one := (p.keyAt left.2).getD []
    let two := (p.keyAt right.2).getD []
    (one < two || one = two && p.lsnAt left.2 ≤ p.lsnAt right.2)

def layRow (out : Str × List Nat) (row : Nat × Nat) : Str × List Nat :=
  let span := (p.rowSpan row.2).getD (0, 0)
  let sorted := out.1 ++ (p.packed.take span.2).drop span.1
  (sorted, if p.isVarying then out.2 ++ [sorted.length % 2 ^ 32] else out.2)

def laid (order : List (Nat × Nat)) : Str × List Nat :=
  order.foldl p.layRow ([], if p.isVarying then [0] else [])

/-- Put the rows in key order, ordering a key's versions by sequence number. -/
def sort (sorter : UnstableSort (Nat × Nat)) (p : FooterPartition) : FooterPartition :=
  -- rows that arrived in order skip both the sort and the permute
  if p.inKeyOrder then p
  else
    let shared := p.sharedKeyPrefix
    let order := (List.range p.len).map fun index => (p.keyHead index shared, index)
    let (packed, starts) := p.laid (sorter.run p.before order)
    { p with packed, starts := if p.isVarying then starts else p.starts }

def packRow (rows : PrefixRows) (index : Nat) : Except Fault PrefixRows := do
  let width ← orCorrupt "footer row is shorter than the tail every row carries" (p.keyLen index)
  let row ← p.rowBytes index
  (rows.push (row.take width) (row.drop width)).mapError Fault.error

def encodedRows : Except Fault Str :=
  if p.isPacked then do
    let rows ← (List.range p.len).foldlM p.packRow (PrefixRows.new .entry)
    return rows.encode
  else .ok p.packed

def widthField : Nat :=
  if p.isPacked && !p.isVarying then p.keyWidth.val ||| packedWidth else p.keyWidth.val

def directoryRow (span : Nat) : Str :=
  [p.column] ++ toLe 2 p.widthField ++ toLe 4 p.len ++ toLe 4 span

end FooterPartition

/-- The parsed contents of a sealed segment footer. -/
structure SegmentFooter where
  partitions : List FooterPartition
  minLsn : UInt64
  maxLsn : UInt64
  sealedAt : UInt64
  tally : FooterTally
  deriving DecidableEq, Repr

namespace SegmentFooter

def empty : SegmentFooter := ⟨[], 0, 0, 0, ⟨0, 0⟩⟩

/-- Put a row in its column's partition, which a search of the column order finds or opens. -/
def pushIn (entry : FooterEntry) : List FooterPartition → List FooterPartition
  | [] => [(FooterPartition.new entry.key.column entry.width).push entry]
  | p :: partitions =>
    if p.column = entry.key.column then
      (if p.keyWidth ≠ entry.width then p.stopStriding else p).push entry :: partitions
    else if entry.key.column < p.column then
      (FooterPartition.new entry.key.column entry.width).push entry :: p :: partitions
    else p :: pushIn entry partitions

variable (footer : SegmentFooter) (spans : List Nat)

def push (entry : FooterEntry) : SegmentFooter :=
  { footer with
    partitions := pushIn entry footer.partitions
    minLsn := if footer.minLsn = 0 ∨ entry.lsn < footer.minLsn then entry.lsn else footer.minLsn
    maxLsn := if footer.maxLsn < entry.lsn then entry.lsn else footer.maxLsn }

def build (entries : List FooterEntry) : SegmentFooter := entries.foldl push empty

def entryCount : Nat := (footer.partitions.map (·.len)).sum

def filterRegionLen : Nat :=
  if footer.partitions.any (·.filter.isSome) then
    (footer.partitions.map fun p => p.filter.elim Filter.headerLen (·.encodedLen)).sum
  else 0

def arrange (sorter : UnstableSort (Nat × Nat)) (filterBits : Nat) (footer : SegmentFooter) : SegmentFooter :=
  let held := StableSort.sortByKey (·.column) (footer.partitions.filter fun p => !p.packed.isEmpty)
  { footer with
    partitions := held.map fun p => { ((p.sort sorter).buildFilter filterBits) with isPacked := true } }

def filterRegion : Str :=
  if 0 < footer.filterRegionLen then footer.partitions.flatMap fun p => (p.filter.getD Filter.absent).encode else []

def directory : Str :=
  (footer.partitions.zip spans).flatMap fun row => row.1.directoryRow row.2

def footerLen : Nat :=
  spans.sum + footer.filterRegionLen + footer.partitions.length * directoryRowLen + fixedTailLen

def fixedFields : Str :=
  toLe 8 footer.sealedAt.toNat ++ toLe 4 footer.filterRegionLen ++ toLe 4 footer.partitions.length ++
    toLe 4 footer.entryCount ++ toLe 8 footer.tally.dead.toNat ++ toLe 8 footer.tally.live.toNat ++
    toLe 8 footer.minLsn.toNat ++ toLe 8 footer.maxLsn.toNat

def closing (crc : Nat) : Str :=
  footer.filterRegion ++ footer.directory spans ++ footer.fixedFields ++ toLe 4 crc ++
    toLe 4 (footer.footerLen spans) ++ toLe 4 footerMagic

/-- The arranged footer's bytes: each partition's rows, and what closes them under a checksum taken with
its own field zero. -/
def write (checksum : Str → UInt32) (footer : SegmentFooter) : Except Fault (List Str × Str) := do
  let encoded ← footer.partitions.mapM (·.encodedRows)
  let spans := encoded.map List.length
  let crc := checksum (encoded.flatten ++ footer.closing spans 0)
  return (encoded, footer.closing spans crc.toNat)

def packApart (sorter : UnstableSort (Nat × Nat)) (checksum : Str → UInt32) (filterBits : Nat)
    (footer : SegmentFooter) : Except Fault (List Str × Str × SegmentFooter) := do
  let arranged := footer.arrange sorter filterBits
  let (rows, tail) ← arranged.write checksum
  return (rows, tail, { arranged with
    partitions := arranged.partitions.map fun p => if p.isPacked then p else { p with packed := [] } })

def putRows (rows : List Str) : SegmentFooter :=
  { footer with
    partitions := footer.partitions.zipWith (fun p rows => if p.isPacked then p else { p with packed := rows }) rows }

def pack (sorter : UnstableSort (Nat × Nat)) (checksum : Str → UInt32) (filterBits : Nat)
    (footer : SegmentFooter) : Except Fault (Str × SegmentFooter) := do
  let (rows, tail, lent) ← footer.packApart sorter checksum filterBits
  return (rows.flatten ++ tail, lent.putRows rows)

end SegmentFooter

def readWidth (field : Nat) : Fin (2 ^ 16) × Bool :=
  if field = varyingWidth.val then (varyingWidth, true)
  else if field &&& packedWidth ≠ 0 then (Fin.ofNat _ (field &&& (packedWidth - 1)), true)
  else (Fin.ofNat _ field, false)

structure DirectoryRow where
  column : ColumnId
  width : Nat
  count : Nat
  span : Nat
  deriving DecidableEq, Repr

def readDirectoryRow (bytes : Str) (start : Nat) : Except Fault DirectoryRow := do
  let row ← orCorrupt "footer directory is truncated" (cut bytes start (start + directoryRowLen))
  return ⟨row.getD 0 0, fromLe ((row.drop 1).take 2), wordAt row 3, wordAt row 7⟩

/-- One partition's rows, off its directory row. A strided first partition's are left to the caller, with
their length. -/
def readPartition (footer : Str) (index rowsAt : Nat) (row : DirectoryRow) :
    Except Fault (FooterPartition × Nat × Option Nat) :=
  let (keyWidth, isPacked) := readWidth row.width
  let partition := { FooterPartition.new row.column keyWidth with isPacked }
  if isPacked then do
    let blob ← orCorrupt "footer partition is truncated" (cut footer rowsAt (rowsAt + row.span))
    let rowLen := if partition.isVarying then none else some partition.stride
    let (packed, starts, rows) ← unpack blob .entry rowLen
    if rows ≠ row.count then corrupt "footer partition holds a row count its directory row denies" else
    -- one width strides in memory, however it lay on disk
    return ({ partition with packed, starts := if partition.isVarying then starts else partition.starts },
      row.span, none)
  else do
    let span := row.count * partition.stride.val
    let packed ← orCorrupt "footer partition is truncated" (cut footer rowsAt (rowsAt + span))
    if span ≠ row.span then corrupt "footer partition is not the length its directory row claims" else
    if index = 0 then return (partition, span, some span) else return ({ partition with packed }, span, none)

/-- Decode the directory and each partition's rows, plus the row bytes consumed. -/
def readPartitions (footer : Str) (directoryAt : Nat) : Nat → Nat → List FooterPartition → Nat → Option Nat →
    Except Fault (List FooterPartition × Nat × Option Nat)
  | 0, _, partitions, rowsAt, lead => .ok (partitions, rowsAt, lead)
  | n + 1, index, partitions, rowsAt, lead => do
    let row ← readDirectoryRow footer (directoryAt + index * directoryRowLen)
    -- a lookup by column finds one partition, so a second one is unreachable
    if partitions.any (·.column = row.column) then corrupt "footer directory lists a column twice" else
    let (partition, span, leads) ← readPartition footer index rowsAt row
    readPartitions footer directoryAt n (index + 1) (partitions ++ [partition]) (rowsAt + span) (leads <|> lead)

def fieldAt (footer : Str) (fromEnd : Nat) : Nat := wordAt footer (footer.length - fromEnd)

def longAt (footer : Str) (fromEnd : Nat) : UInt64 := UInt64.ofNat (u64At footer (footer.length - fromEnd))

def unchecked (footer : Str) : Str :=
  footer.take (footer.length - 12) ++ toLe 4 0 ++ footer.drop (footer.length - 8)

def verifyFooterCrc (checksum : Str → UInt32) (footer : Str) : Except Fault Unit :=
  if (checksum (unchecked footer)).toNat ≠ fieldAt footer 12 then corrupt "footer checksum mismatch" else .ok ()

def takeLead (footer : Str) : Option Nat → List FooterPartition → List FooterPartition
  | some span, first :: rest => { first with packed := footer.take span } :: rest
  | _, partitions => partitions

namespace SegmentFooter

def parseFooter (footer : Str) : Except Fault SegmentFooter := do
  let partitionCount := fieldAt footer 52
  let bloomLen := fieldAt footer 56
  let body := footer.length - fixedTailLen
  let directoryLen := partitionCount * directoryRowLen
  if body < bloomLen ∨ body - bloomLen < directoryLen then corrupt "footer directory does not fit its own length" else
  let directoryAt := body - directoryLen
  let (read, consumed, lead) ← readPartitions footer directoryAt partitionCount 0 [] 0 none
  let region := (footer.take directoryAt).drop (directoryAt - bloomLen)
  let filtered := read.zipWith (fun p filter => { p with filter }) (Filter.parseRegion region partitionCount)
  let partitions := takeLead footer lead filtered
  let listed := (partitions.map (·.len)).sum
  if consumed ≠ directoryAt - bloomLen ∨ listed ≠ fieldAt footer 48 then
    corrupt "footer entry count is inconsistent with its length"
  else
  -- lookups by column binary search, so the partitions are held in column order
  return ⟨StableSort.sortByKey (·.column) partitions, longAt footer 28, longAt footer 20, longAt footer 64,
    ⟨longAt footer 36, longAt footer 44⟩⟩

/-- Parse a footer from the trailing bytes of a segment. -/
def parseOwned (checksum : Str → UInt32) (segmentTail : Str) : Except Fault SegmentFooter := do
  let total := segmentTail.length
  if total < fixedTailLen then corrupt "segment is shorter than a footer trailer" else
  if wordAt segmentTail (total - 4) ≠ footerMagic then corrupt "segment has no footer magic" else
  let footerLen := wordAt segmentTail (total - 8)
  if footerLen < fixedTailLen ∨ total < footerLen then corrupt "footer length is out of range" else
  let footer := segmentTail.drop (total - footerLen)
  verifyFooterCrc checksum footer
  parseFooter footer

end SegmentFooter

end Reel.Footer
