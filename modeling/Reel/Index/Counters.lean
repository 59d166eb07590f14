import Reel.Index.Volume

/-!
A column's counters beside its index: per shard the graves in the map, the keys handed over and the
live payload bytes, and the set of shards a total is summed over. Each operation books what it did as
the column does, from what landed, what a displace settled and what a sweep took.
-/

set_option autoImplicit false

namespace Reel
open Bytes

/-- How a column spreads its keys over shards. -/
structure Sharding where
  count : Nat
  shardOf : Str → Nat
  shardOf_lt : ∀ key, shardOf key < count

structure ShardState where
  graves : Nat
  paged : Nat
  bytes : Nat
  deriving DecidableEq, Repr

structure Totals where
  count : Nat
  bytes : Nat
  deriving DecidableEq, Repr

structure Books where
  shards : Nat → ShardState
  occupied : Nat → Bool

def Sharding.vacant (sharding : Sharding) (map : SortedMap Str Entry) (shard : Nat) : Bool :=
  map.entries.all fun e => sharding.shardOf e.1 != shard

def resize (current oldLen newLen : Nat) : Nat :=
  if oldLen ≤ newLen then current + (newLen - oldLen) else current - (oldLen - newLen)

namespace Books

def start : Books := ⟨fun _ => ⟨0, 0, 0⟩, fun _ => false⟩

variable (books : Books) (sharding : Sharding)

def modify (shard : Nat) (f : ShardState → ShardState) : Books :=
  { books with
    shards := fun other => if other = shard then f (books.shards other) else books.shards other }

def noteFilled (shard : Nat) (wasEmpty : Bool) : Books :=
  if wasEmpty then { books with occupied := fun other => other == shard || books.occupied other }
  else books

def noteEmptied (shard : Nat) (vacant : Bool) : Books :=
  if vacant && (books.shards shard).paged == 0 then
    { books with occupied := fun other => other != shard && books.occupied other }
  else books

/-- Book an insert over a map, by what it landed on. -/
def insertHeld (map : SortedMap Str Entry) (key : Str) (len : Nat)
    (landed : Landed) : Books :=
  let shard := sharding.shardOf key
  let old := (map.get key).elim 0 fun existing => existing.loc.len
  let held (f : ShardState → ShardState) := (books.modify shard f).noteFilled shard (sharding.vacant map shard)
  match landed with
  | .newer => books
  | .grave => held fun state => { state with graves := state.graves - 1, bytes := state.bytes + len }
  | .record => held fun state => { state with bytes := resize state.bytes old len }
  | .nothing => held fun state => { state with bytes := state.bytes + len }

/-- Book a tombstone over a map, by what it landed on. -/
def removeHeld (map : SortedMap Str Entry) (key : Str)
    (landed : Landed) : Books :=
  let shard := sharding.shardOf key
  let old := (map.get key).elim 0 fun existing => existing.loc.len
  let held (f : ShardState → ShardState) := (books.modify shard f).noteFilled shard (sharding.vacant map shard)
  match landed with
  | .newer => books
  | .grave => held fun state => { state with graves := state.graves - 1 + 1 }
  | .record => held fun state => { state with graves := state.graves + 1, bytes := state.bytes - old }
  | .nothing => held fun state => { state with graves := state.graves + 1 }

def settlePaged (shard len : Nat) : Books :=
  books.modify shard fun state => { state with paged := state.paged - 1, bytes := state.bytes - len }

def rebookPaged (shard booked actual : Nat) : Books :=
  books.modify shard fun state => { state with bytes := state.bytes + booked - actual }

def bookDisplaced (shard : Nat) (displaced : Displaced) : Books :=
  let books := displaced.booked.foldl (fun books loc => books.settlePaged shard loc.len) books
  let books := displaced.classed.foldl (fun books x => books.settlePaged shard x.2) books
  displaced.rebooked.foldl (fun books x => books.rebookPaged shard x.2 x.1.len) books

variable (v : Volume) (src : Sources) (key : Str)

def settleDisplaced (lsn : Nat) (landed : Landed) : Books :=
  if landed.mayBePaged then
    books.bookDisplaced (sharding.shardOf key)
      (settleVersions src.records src.maxLsnOf v.spot.slots (src.hash key) key lsn false).2
  else books

def insert (loc : Loc)
    (lsn : Nat) : Books :=
  let landed := (v.index.insertUnless key ⟨loc, lsn⟩ (v.isShadowed src key lsn)).2
  (books.insertHeld sharding v.index.map key loc.len landed).settleDisplaced sharding v src key lsn landed

def remove (lsn tombstone : Nat) : Books :=
  let landed := (v.index.removeUnless key lsn tombstone (v.isShadowed src key lsn)).2
  (books.removeHeld sharding v.index.map key landed).settleDisplaced sharding v src key lsn landed

/-- Book the rows of a lane the map gave up. -/
def pageOutLane (books : Books) (sharding : Sharding) (rows : List (Str × Loc)) (index : ColumnIndex) :
    Books :=
  let (paged, handed) := Volume.pageOutLane rows index
  let books := (rows.zip handed).foldl (fun books x =>
    if x.2 then
      books.modify (sharding.shardOf x.1.1) fun state => { state with paged := state.paged + 1 }
    else books) books
  (rows.filter fun row => index.width.accepts row.1).foldl (fun books row =>
    books.noteEmptied (sharding.shardOf row.1) (sharding.vacant paged.map (sharding.shardOf row.1))) books

/-- Book one sealed partition's hand-over: the asked rows, then the rest. -/
def pageOutPartition (segment : Segment) : Books :=
  let rows := Volume.handRows segment
  let guarded := Volume.placed segment (rows.filter fun row => row.lsn ≤ v.index.lifted)
  let free := Volume.placed segment (rows.filter fun row => ¬ row.lsn ≤ v.index.lifted)
  let asksAll := Volume.mostlyOutversioned v.index free
  let asked := if asksAll then guarded ++ free else guarded
  let rows := if asksAll then [] else free
  let books := books.pageOutLane sharding asked v.index
  books.pageOutLane sharding rows (Volume.pageOutLane asked v.index).1

def handOver : Books :=
  match v.held with
  | [] => books
  | id :: held =>
    match v.noted.find? (·.id == id) with
    | none => books
    | some segment => books.pageOutPartition sharding { v with held } segment

/-- Settle a covered footer-held record and book it if its live slot was found. -/
def releaseCovered (index : ColumnIndex) (hash : Str → UInt64)
    (state : List Slot × Books) (row : Str × Loc) : List Slot × Books :=
  if !index.width.accepts row.1 || (index.map.get row.1).isSome then state
  else
    let shard := sharding.shardOf row.1
    let (slots, took) := takeLive state.1 (hash row.1) row.2
    (slots, if took then (state.2.settlePaged shard row.2.len).noteEmptied shard
        (sharding.vacant index.map shard) else state.2)

def releaseFound (cover : Covered Str) (resume : Str) (limit : Nat) : List (Str × Loc) :=
  let keys := (v.notedKeys.filter fun key => resume ≤ key).filter
    fun key => cover.high.all fun high => key < high
  (keys.take (min limit releaseLimit)).flatMap fun key => v.coveredRows key cover.lsn

def releaseRun (hash : Str → UInt64)
    (cover : Covered Str) (resume : Str) (limit : Nat) : Books :=
  if v.noted.isEmpty then books
  else
    ((releaseFound v cover resume limit).foldl (releaseCovered sharding v.index hash)
      (v.spot.slots, books)).2

/-- The map entries one bounded sweep run drops. -/
def sweepDoomed (index : ColumnIndex) (lsn budget : Nat) : List (Str × Entry) :=
  match index.covers.find? (·.lsn == lsn) with
  | some cover =>
    match cover.phase with
    | .sweep resume =>
      ((index.spanFrom resume cover.high).take budget).filter fun e =>
        decide (e.2.lsn < lsn) && !e.2.isGrave
    | _ => []
  | none => []

def sweepRun (books : Books) (sharding : Sharding) (index : ColumnIndex) (lsn budget : Nat) : Books :=
  let doomed := sweepDoomed index lsn budget
  let books := doomed.foldl (fun books e =>
    books.modify (sharding.shardOf e.1) fun state =>
      { state with bytes := state.bytes - e.2.loc.len }) books
  doomed.foldl (fun books e => books.noteEmptied (sharding.shardOf e.1)
    (sharding.vacant (index.sweepRun lsn budget).1.map (sharding.shardOf e.1))) books

/-- The books of one bounded pass of the lazy sweep. -/
def sweepLoop (sharding : Sharding) (hash : Str → UInt64) : Nat → Nat → Volume → Books → Books
  | 0, _, _, books => books
  | fuel + 1, remaining, v, books =>
    if remaining = 0 then books
    else
      match v.index.nextPendingCover with
      | none => books
      | some cover =>
        match cover.phase with
        | .release resume =>
          let (next, spent) := v.releaseRun hash cover resume remaining
          sweepLoop sharding hash fuel (remaining - max spent 1) next
            (books.releaseRun sharding v hash cover resume remaining)
        | _ =>
          let (index, examined, done) := v.index.sweepRun cover.lsn remaining
          let books := books.sweepRun sharding v.index cover.lsn remaining
          if done then sweepLoop sharding hash fuel (remaining - max examined 1) { v with index } books
          else books

def totals (map : SortedMap Str Entry) : Totals :=
  let occupied := (List.range sharding.count).filter books.occupied
  let liveCount (shard : Nat) := (map.entries.countP fun e => sharding.shardOf e.1 == shard) -
    (books.shards shard).graves + (books.shards shard).paged
  ⟨(occupied.map liveCount).sum, (occupied.map fun shard => (books.shards shard).bytes).sum⟩

end Books

/-- The operations whose counters are kept: writes, seals, hand-overs and bounded sweeps. -/
inductive BookStep where
  | openTail (id : Nat)
  | put (tail : Nat) (key : Str) (offset len : Nat) (cache : Cache)
  | delete (tail : Nat) (key : Str) (offset : Nat) (cache : Cache)
  | deleteRange (tail : Nat) (start : Str) (fin : Option Str) (offset : Nat)
  | foreign (tail : Nat)
  | sealTail (tail : Nat)
  | holdSealed
  | handOver
  | sweepCovers (budget : Nat)

def BookStep.action : BookStep → Volume.Step
  | .openTail id => .openTail id
  | .put tail key offset len cache => .put tail key offset len cache
  | .delete tail key offset cache => .delete tail key offset cache
  | .deleteRange tail start fin offset => .deleteRange tail start fin offset
  | .foreign tail => .foreign tail
  | .sealTail tail => .sealTail tail
  | .holdSealed => .holdSealed
  | .handOver => .handOver
  | .sweepCovers budget => .sweepCovers budget

def Books.step (sharding : Sharding) (hash : Str → UInt64) (v : Volume) (books : Books) :
    BookStep → Books
  | .put tail key offset len cache =>
    match v.append tail fun lsn => ⟨key, lsn, offset, len, .data⟩ with
    | some landed =>
      books.insert sharding landed (landed.sources hash cache) key ⟨tail, offset, len⟩ v.next
    | none => books
  | .delete tail key offset cache =>
    match v.append tail fun lsn => ⟨key, lsn, offset, 0, .tombstone⟩ with
    | some landed => books.remove sharding landed (landed.sources hash cache) key v.next tail
    | none => books
  | .handOver => books.handOver sharding v
  | .sweepCovers budget => Books.sweepLoop sharding hash budget budget v books
  -- a range delete stands a cover and books nothing until the sweep
  | .deleteRange .. | .openTail _ | .foreign _ | .sealTail _ | .holdSealed => books

structure Booked where
  volume : Volume
  books : Books

namespace Booked

def start (width : KeyWidth) (next : Nat) : Booked := ⟨.start width next, .start⟩

def step (sharding : Sharding) (hash : Str → UInt64) (b : Booked) (action : BookStep) : Option Booked :=
  (b.volume.step hash action.action).map fun volume =>
    ⟨volume, b.books.step sharding hash b.volume action⟩

def totals (sharding : Sharding) (b : Booked) : Totals := b.books.totals sharding b.volume.index.map

end Booked

def ColumnIndex.hasPendingCovers (index : ColumnIndex) : Bool :=
  index.covers.any fun cover => cover.phase ≠ .done

end Reel
