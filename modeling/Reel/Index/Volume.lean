import Reel.Index.Column
import Reel.Index.Sealed

/-!
One column of a running volume: open tails, segments sealed and not yet told to the
index, noted segments, the map, the covers and the spot index, and every operation that
moves them.
-/

set_option autoImplicit false

namespace Reel
open Bytes StableSort

structure RangeDelete where
  start : Str
  fin : Option Str
  lsn : Nat
  deriving DecidableEq, Repr

/-- The half-open byte range a range delete names. -/
def RangeDelete.takes (range : RangeDelete) (key : Str) : Prop :=
  range.start ≤ key ∧ ∀ fin ∈ range.fin, key < fin

/-- `ranges` keeps every range delete accepted so far, which no operation reads. -/
structure Volume where
  index : ColumnIndex
  spot : SpotColumn
  handed : Nat
  tails : List Segment
  pending : List Segment
  noted : List Segment
  held : List Nat
  next : Nat
  ranges : List RangeDelete

def graveWindow : Nat := 2 ^ 20
def releaseLimit : Nat := 1024
def sampleRows : Nat := 64

def Cache.warm : Cache := ⟨fun _ _ => false, fun _ _ => true, fun _ _ => false, fun _ _ => false⟩

namespace Volume

def start (width : KeyWidth) (next : Nat) : Volume :=
  ⟨⟨width, .empty, [], 0⟩, ⟨[], [], []⟩, 0, [], [], [], [], next, []⟩

variable (v : Volume)

def segments : List Segment := v.tails ++ v.pending ++ v.noted

def maxLsnOf (segment : Nat) : Option Nat :=
  (v.noted.find? (·.id == segment)).map Segment.maxLsn

variable (hash : Str → UInt64) (key : Str) (loc : Loc)

def sources (cache : Cache) : Sources :=
  ⟨hash, recordsOf v.segments cache, v.maxLsnOf⟩

def mapped : Option (Option Entry) :=
  (v.index.entryOrGrave key).map fun entry =>
    if entry.isGrave || v.index.isCoveredKey key entry.lsn then none else some entry

def liveOnly (found : Option Entry) : Option Entry :=
  found.filter fun entry => !entry.isGrave && !v.index.isCoveredKey key entry.lsn

def newestLive : Option Entry :=
  match v.spot.entry (v.sources hash .warm) key with
  | .entry found => found
  | .footers => newestSealed v.noted key none

def get : Option Entry :=
  match v.mapped key with
  | some answer => answer
  | none => v.liveOnly key (v.newestLive hash key)

def surelyAt (lsn : Nat) : Bool :=
  match v.mapped key with
  | some answer => answer.any fun entry => decide (entry.loc = loc)
  | none => onlyAt v.spot.slots (hash key) loc && !v.index.isCoveredKey key lsn

def surelyElsewhere : Bool :=
  match v.mapped key with
  | some answer => answer.all fun entry => decide (entry.loc ≠ loc)
  | none => liveElsewhere v.spot.slots (hash key) loc

def isLiveAt (lsn : Nat) : Bool :=
  if v.surelyAt hash key loc lsn then true
  else if v.surelyElsewhere hash key loc then false
  else (v.get hash key).any fun entry => decide (entry.loc = loc)

def spotFinish (moved : Bool) : SpotColumn.Lookup → SpotColumn.Lookup
  | .found lsn => if v.index.isCoveredKey key lsn then .missing else .found lsn
  | .newest lsn => if v.index.covers.isEmpty then .newest lsn else .unsettled
  | .missing => if moved then .unsettled else .missing
  | .unsettled => .unsettled

/-- A spot lookup for a key, settled by the map where the map has a word. -/
def spotRead (cache : Cache) (key : Str) :
    SpotColumn.Lookup × Volume :=
  match v.mapped key with
  | some none => (.missing, v)
  | some (some _) => (.unsettled, v)
  | none =>
    let (lookup, spot) := v.spot.read (v.sources hash cache) key true
    let moved := spot.slots.length != v.spot.slots.length
    (v.spotFinish key moved lookup, { v with spot })

def isShadowed (src : Sources) (key : Str) (lsn : Nat) : Bool :=
  if v.handed < lsn then false else v.spot.holdsNewer src key lsn

def settleDisplaced (src : Sources) (key : Str) (lsn : Nat) (landed : Landed) :
    Volume :=
  if landed.mayBePaged then { v with spot := v.spot.displace src key lsn } else v

def insert (src : Sources) (key : Str) (loc : Loc) (lsn : Nat) : Volume :=
  let (index, landed) := v.index.insertUnless key ⟨loc, lsn⟩ (v.isShadowed src key lsn)
  { v with index }.settleDisplaced src key lsn landed

def remove (src : Sources) (key : Str) (lsn tombstone : Nat) : Volume :=
  let (index, landed) := v.index.removeUnless key lsn tombstone (v.isShadowed src key lsn)
  { v with index }.settleDisplaced src key lsn landed

def Segment.push (segment : Segment) (row : Row) : Segment :=
  { segment with rows := segment.rows ++ [row], maxLsn := max segment.maxLsn row.lsn }

def land (tail : Nat) (row : Row) : Option Volume :=
  match v.tails.find? (·.id == tail) with
  | none => none
  | some segment =>
    if segment.rows.any (·.offset == row.offset) then none
    else
      some { v with
        tails := v.tails.map fun held => if held.id = tail then Segment.push held row else held }

def append (tail : Nat) (row : Nat → Row) : Option Volume :=
  (v.land tail (row v.next)).map fun landed => { landed with next := v.next + 1 }

def lastRows : List Row → List Row
  | [] => []
  | [row] => [row]
  | row :: later :: rest =>
    if later.key = row.key then lastRows (later :: rest) else row :: lastRows (later :: rest)

def stepBy {α : Type} (step : Nat) (l : List α) : List α :=
  (l.zipIdx.filter fun x => x.2 % step = 0).map Prod.fst

def mostlyOutversioned (index : ColumnIndex) (rows : List (Str × Loc)) : Bool :=
  if rows.isEmpty then false
  else
    let sampled := stepBy ((rows.length + sampleRows - 1) / sampleRows) rows
    let missing := sampled.filter fun row => !index.holds row.1 row.2
    decide (sampled.length ≤ missing.length * 16)

def pageAsked (state : ColumnIndex × List Slot) (row : Str × Loc) :
    ColumnIndex × List Slot :=
  let (index, went) := state.1.pageOut row.1 row.2
  if went then (index, (putIn state.2 (hash row.1) row.2).1) else (index, state.2)

def insertLane (hash : Str → UInt64) : List (Str × Loc) → List Slot → List Slot × List Bool
  | [], slots => (slots, [])
  | row :: rows, slots =>
    let (slots, inserted) := putIn slots (hash row.1) row.2
    let (slots, flags) := insertLane hash rows slots
    (slots, inserted :: flags)

def pageOutLane : List (Str × Loc) → ColumnIndex → ColumnIndex × List Bool
  | [], index => (index, [])
  | row :: rows, index =>
    let (index, went) := index.pageOut row.1 row.2
    let (index, flags) := pageOutLane rows index
    (index, went :: flags)

def backRows (rows : List (Str × Loc)) (inserted handed : List Bool) : List (Str × Loc) :=
  ((rows.zip (inserted.zip handed)).filter fun x => x.2.1 && !x.2.2).map Prod.fst

def handRows (segment : Segment) : List Row :=
  (lastRows segment.footerRows).filter fun row => row.kind = .data

def placed (segment : Segment) (rows : List Row) : List (Str × Loc) :=
  rows.map fun row => (row.key, row.loc segment.id)

/-- Give one sealed partition's keys up to its footer. -/
def pageOutPartition (segment : Segment) : Volume :=
  let rows := handRows segment
  let newest := (rows.map Row.lsn).foldl max 0
  -- a row a pruned guard may hide goes to the spot index only if the map still holds it
  let guarded := placed segment (rows.filter fun row => row.lsn ≤ v.index.lifted)
  let free := placed segment (rows.filter fun row => ¬ row.lsn ≤ v.index.lifted)
  let asksAll := mostlyOutversioned v.index free
  let asked := if asksAll then guarded ++ free else guarded
  let rows := if asksAll then [] else free
  let (index, slots) := asked.foldl (pageAsked hash) (v.index, v.spot.slots)
  let (slots, inserted) := insertLane hash rows slots
  let (index, handed) := pageOutLane rows index
  let slots := (backRows rows inserted handed).foldl
    (fun slots row => removeAt slots (hash row.1) row.2) slots
  { v with index, spot := v.spot.setSlots slots, handed := max v.handed newest }

def holdSealed : Volume :=
  let noted := v.pending.filter fun segment => !segment.rows.isEmpty
  { v with
    pending := []
    noted := v.noted ++ noted
    held := v.held ++ noted.map Segment.id }

/-- Hand the oldest noted segment still owed a hand-over to its footer. -/
def handOver : Volume :=
  match v.held with
  | [] => v
  | id :: held =>
    match v.noted.find? (·.id == id) with
    | none => { v with held }
    | some segment => ({ v with held }).pageOutPartition hash segment

def successor : Option Str :=
  let rec bump : Str → Option Str
    | [] => none
    | b :: rest => if b.val + 1 < 256 then some (Fin.ofNat 256 (b.val + 1) :: rest)
      else (bump rest).map (0 :: ·)
  (bump key.reverse).map List.reverse

def releaseCovered (index : ColumnIndex) (hash : Str → UInt64) (slots : List Slot)
    (row : Str × Loc) : List Slot :=
  if !index.width.accepts row.1 || (index.map.get row.1).isSome then slots
  else (takeLive slots (hash row.1) row.2).1

def notedKeys : List Str :=
  sortByKey id (v.noted.flatMap fun segment => segment.rows.map Row.key).dedup

def coveredRows (below : Nat) : List (Str × Loc) :=
  v.noted.flatMap fun segment =>
    (segment.footerRows.filter fun row =>
      decide (row.key = key) && decide (row.lsn < below) && decide (row.kind = .data)).map
        fun row => (row.key, row.loc segment.id)

/-- Settle one bounded run of a cover's footer-held records, with the keys it examined. -/
def releaseRun (cover : Covered Str) (resume : Str)
    (limit : Nat) : Volume × Nat :=
  if v.noted.isEmpty then ({ v with index := v.index.advanceRelease cover.lsn none }, 0)
  else
    let limit := min limit releaseLimit
    let keys := (v.notedKeys.filter fun key => resume ≤ key).filter
      fun key => cover.high.all fun high => key < high
    let looked := keys.take limit
    let found := looked.flatMap fun key => v.coveredRows key cover.lsn
    let slots := found.foldl (releaseCovered v.index hash) v.spot.slots
    let resume := if looked.length < limit then none else looked.getLast?.bind successor
    ({ v with
        spot := v.spot.setSlots slots
        index := v.index.advanceRelease cover.lsn resume }, looked.length)

/-- One bounded pass of the lazy sweep. -/
def sweepLoop (hash : Str → UInt64) : Nat → Nat → Volume → Volume
  | 0, _, v => v
  | fuel + 1, remaining, v =>
    if remaining = 0 then v
    else
      match v.index.nextPendingCover with
      | none => v
      | some cover =>
        match cover.phase with
        | .release resume =>
          let (v, spent) := v.releaseRun hash cover resume remaining
          sweepLoop hash fuel (remaining - max spent 1) v
        | _ =>
          let (index, examined, done) := v.index.sweepRun cover.lsn remaining
          let v := { v with index }
          if done then sweepLoop hash fuel (remaining - max examined 1) v else v

def sweepCovers (budget : Nat) : Volume :=
  sweepLoop hash budget budget v

def overlaps (low : Str) (high : Option Str) : Bool :=
  v.noted.any (·.overlaps low high)

def pruneFloor (cue : Option Nat) : Nat :=
  min (v.next - graveWindow) (cue.getD v.next)

def pruneTombstones (cue : Option Nat) : Volume :=
  let floor := v.pruneFloor cue
  if floor = 0 then v
  else
    { v with
      index := v.index.pruneTombstones floor v.overlaps (v.noted.map Segment.id) }

inductive Step where
  | openTail (id : Nat)
  | put (tail : Nat) (key : Str) (offset len : Nat) (cache : Cache)
  | delete (tail : Nat) (key : Str) (offset : Nat) (cache : Cache)
  | deleteRange (tail : Nat) (start : Str) (fin : Option Str) (offset : Nat)
  | foreign (tail : Nat)
  | sealTail (tail : Nat)
  | holdSealed
  | handOver
  | sweepCovers (budget : Nat)
  | pruneTombstones (cue : Option Nat)
  | rebookOwed (budget : Nat) (cache : Cache)
  | scrub (budget : Nat)
  | spotRead (key : Str) (cache : Cache)
  | kick (slots : List Slot)

def foreign (tail : Nat) : Volume :=
  { v with
    tails := v.tails.map fun held =>
      if held.id = tail then { held with maxLsn := max held.maxLsn v.next } else held
    next := v.next + 1 }

def sealTail (tail : Nat) : Volume :=
  { v with
    tails := v.tails.filter fun held => held.id ≠ tail
    pending := v.pending ++ v.tails.filter fun held => held.id = tail }

/-- One whole operation, or nothing where the operation cannot be asked for. -/
def step (v : Volume) : Step → Option Volume
  | .openTail id =>
    if id = 0 ∨ v.segments.any (·.id == id) then none
    else some { v with tails := v.tails ++ [⟨id, [], 0⟩] }
  | .put tail key offset len cache =>
    (v.append tail fun lsn => ⟨key, lsn, offset, len, .data⟩).map fun landed =>
      landed.insert (landed.sources hash cache) key ⟨tail, offset, len⟩ v.next
  | .delete tail key offset cache =>
    (v.append tail fun lsn => ⟨key, lsn, offset, 0, .tombstone⟩).map fun landed =>
      landed.remove (landed.sources hash cache) key v.next tail
  | .deleteRange tail start fin offset =>
    -- an empty range is skipped
    if fin.any (· ≤ start) then some v
    else
      (v.append tail fun lsn => ⟨start, lsn, offset, (fin.getD []).length, .rangeTombstone⟩).map
        fun landed =>
          { landed with
            index := landed.index.removeRange start fin v.next
            ranges := landed.ranges ++ [⟨start, fin, v.next⟩] }
  | .foreign tail => some (v.foreign tail)
  | .sealTail tail => some (v.sealTail tail)
  | .holdSealed => some v.holdSealed
  | .handOver => some (v.handOver hash)
  | .sweepCovers budget => some (v.sweepCovers hash budget)
  | .pruneTombstones cue => some (v.pruneTombstones cue)
  | .rebookOwed budget cache =>
    some { v with spot := v.spot.rebookOwed (v.sources hash cache) budget }
  | .scrub budget => some { v with spot := v.spot.scrub (v.sources hash .warm) budget }
  | .spotRead key cache => some (v.spotRead hash cache key).2
  | .kick slots => if slots.isPerm v.spot.slots then some { v with spot := v.spot.setSlots slots } else none

end Volume

end Reel
