import Reel.Format.Frame
import Reel.Index.Agreement
import Reel.Store.DeleteRange

/-!
A cue taken while writers run. Each put or batch draws its numbers, lands its records in one tail
and then moves the index record by record; the cue seals one tail after another, reads the next
number and holds the one below it. No hand-over runs, so the spot index holds no key.
-/

set_option autoImplicit false

namespace Reel
open Bytes

/-- One write of a batch, a put alone being a batch of one. -/
inductive KeyOp where
  | put (key : Str) (len : Nat)
  | delete (key : Str)
  | range (start : Str) (fin : Option Str)
  deriving DecidableEq, Repr

def KeyOp.skips : KeyOp → Bool
  | .range start fin => fin.any (· ≤ start)
  | .put .. | .delete _ => false

def KeyOp.row (op : KeyOp) (lsn offset : Nat) : Row :=
  match op with
  | .put key len => ⟨key, lsn, offset, len, .data⟩
  | .delete key => ⟨key, lsn, offset, 0, .tombstone⟩
  | .range start fin => ⟨start, lsn, offset, (fin.getD []).length, .rangeTombstone⟩

/-- A write between its draw and the last of its index moves. -/
inductive Writer where
  | drawn (tail first : Nat) (ops : List KeyOp)
  | landed (segment : Nat) (owed : List (KeyOp × Row))
  deriving DecidableEq, Repr

/-- How far a cue has come: the tail it is at, with the segment it swapped out of it, then the
number it read, then the number it holds. -/
inductive CueStage where
  | idle
  | sealing (tail : Nat) (swapped : Option Nat)
  | peeked (lsn : Nat)
  | held (lsn : Nat)
  deriving DecidableEq, Repr

/-- `active` has one segment for each tail, `retired` the segments waiting for a footer, `pending`
those that have one and are not noted yet. -/
structure Deck where
  index : ColumnIndex
  next : Nat
  fresh : Nat
  active : List Segment
  retired : List Segment
  pending : List Segment
  noted : List Segment
  writers : List Writer
  cue : CueStage

namespace ColumnIndex

def isCoveredKeyAt (index : ColumnIndex) (key : Str) (lsn snapshot : Nat) : Bool :=
  index.width.accepts key &&
    index.covers.any fun cover => decide (cover.lsn ≤ snapshot) && cover.covers key lsn

def publish (index : ColumnIndex) (segment : Nat) (op : KeyOp) (row : Row) : ColumnIndex :=
  match op with
  | .put key _ => (index.insertUnless key ⟨row.loc segment, row.lsn⟩ false).1
  | .delete key => (index.removeUnless key row.lsn segment false).1
  | .range start fin => index.removeRange start fin row.lsn

end ColumnIndex

namespace Deck

def start (width : KeyWidth) (tails : Nat) : Deck :=
  ⟨⟨width, .empty, [], 0⟩, 1, tails + 1, (List.range tails).map fun i => ⟨i + 1, [], 0⟩, [], [], [], [],
    .idle⟩

def segments (d : Deck) : List Segment := d.active ++ d.retired ++ d.pending ++ d.noted

def settleSealed (d : Deck) : Deck :=
  { d with
    pending := []
    noted := d.noted ++ d.pending.filter fun segment => !segment.rows.isEmpty }

def sealedEntryAt (d : Deck) (key : Str) (snapshot : Nat) : Option Entry :=
  (newestSealed d.noted key (some snapshot)).filter fun entry =>
    !entry.isGrave && !d.index.isCoveredKeyAt key entry.lsn snapshot

/-- Where a key's record was at an older number. -/
def getAt (d : Deck) (key : Str) (snapshot : Nat) : Option Entry :=
  match d.index.entryOrGrave key with
  | some entry =>
    if entry.lsn ≤ snapshot then
      if entry.isGrave || d.index.isCoveredKeyAt key entry.lsn snapshot then none else some entry
    else d.sealedEntryAt key snapshot
  | none => d.sealedEntryAt key snapshot

/-- Read one key as of a number. Where the spot index serves, a key the map has no word on misses
there, and only a cover past the number sends the read on to the footers. -/
def readAsOf (serves : Bool) (d : Deck) (key : Str) (snapshot : Nat) : Option Entry :=
  let d := d.settleSealed
  if serves && (d.index.entryOrGrave key).isNone && !d.index.isCoveredKey key snapshot then none
  else d.getAt key snapshot

inductive Step where
  | draw (tail : Nat) (ops : List KeyOp)
  | fail (writer : Nat)
  | land (writer base : Nat)
  | publish (writer record : Nat)
  | roll (tail : Nat)
  | sealRetired (segment : Nat)
  | settleSealed
  | cueStart
  | cueSwap
  | cueSeal
  | cuePeek
  | cueHold
  | cueDrop
  deriving DecidableEq, Repr

def swapInFresh (d : Deck) (tail : Nat) : Option Deck :=
  d.active[tail]?.map fun retiring =>
    { d with
      active := d.active.set tail ⟨d.fresh, [], 0⟩
      retired := d.retired ++ [retiring]
      fresh := d.fresh + 1 }

def sealSegment (d : Deck) (segment : Nat) : Deck :=
  { d with
    retired := d.retired.filter fun held => held.id ≠ segment
    pending := d.pending ++ d.retired.filter fun held => held.id = segment }

/-- A batch's records back to back from `base`, with their numbers in turn. -/
def rowsOf (first base : Nat) : List KeyOp → List (KeyOp × Row)
  | [] => []
  | op :: ops =>
    let row := op.row first base
    (op, row) :: rowsOf (first + 1) (base + spanOf row.key.length row.len) ops

def pushAll (segment : Segment) (rows : List Row) : Segment :=
  { segment with
    rows := segment.rows ++ rows
    maxLsn := (rows.map Row.lsn).foldl max segment.maxLsn }

def land (d : Deck) (writer base : Nat) : Option Deck :=
  match d.writers[writer]? with
  | some (.drawn tail first ops) =>
    d.active[tail]?.bind fun segment =>
      if segment.rows.all fun row => row.offset < base then
        let rows := rowsOf first base ops
        some { d with
          active := d.active.set tail (pushAll segment (rows.map Prod.snd))
          writers := d.writers.set writer (.landed segment.id rows) }
      else none
  | _ => none

def publish (d : Deck) (writer record : Nat) : Option Deck :=
  match d.writers[writer]? with
  | some (.landed segment owed) =>
    owed[record]?.map fun x =>
      { d with
        index := d.index.publish segment x.1 x.2
        writers := d.writers.set writer (.landed segment (owed.eraseIdx record)) }
  | _ => none

def step (d : Deck) : Step → Option Deck
  | .draw tail ops =>
    let ops := ops.filter fun op => !op.skips
    if tail < d.active.length then
      some { d with
        next := d.next + ops.length
        writers := d.writers ++ [.drawn tail d.next ops] }
    else none
  -- a write that failed lists no row, and its numbers are never used
  | .fail writer =>
    match d.writers[writer]? with
    | some (.drawn ..) => some { d with writers := d.writers.eraseIdx writer }
    | _ => none
  | .land writer base => d.land writer base
  | .publish writer record => d.publish writer record
  | .roll tail => d.swapInFresh tail
  | .sealRetired segment =>
    match d.cue with
    -- the cue seals what it swapped out itself
    | .sealing _ swapped => if swapped = some segment then none else some (d.sealSegment segment)
    | _ => some (d.sealSegment segment)
  | .settleSealed => some d.settleSealed
  | .cueStart =>
    match d.cue with
    | .idle => some { d with cue := .sealing 0 none }
    | _ => none
  | .cueSwap =>
    match d.cue with
    | .sealing tail none =>
      d.active[tail]?.bind fun segment =>
        (d.swapInFresh tail).map fun swapped => { swapped with cue := .sealing tail (some segment.id) }
    | _ => none
  | .cueSeal =>
    match d.cue with
    | .sealing tail (some segment) => some { d.sealSegment segment with cue := .sealing (tail + 1) none }
    | _ => none
  -- the next write's number is read once every tail is sealed, and the cue sits one below it
  | .cuePeek =>
    match d.cue with
    | .sealing tail none =>
      if d.active.length ≤ tail then some { d with cue := .peeked (d.next - 1) } else none
    | _ => none
  | .cueHold =>
    match d.cue with
    | .peeked lsn => some { d with cue := .held lsn }
    | _ => none
  | .cueDrop =>
    match d.cue with
    | .held _ => some { d with cue := .idle }
    | _ => none

end Deck

end Reel
