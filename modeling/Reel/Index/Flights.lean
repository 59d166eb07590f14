import Reel.Index.Volume
import Reel.Library.Runs

/-!
One key under puts, deletes, seals, hand-overs, compaction repoints and evictions at once,
each cut where it takes a lock or reads what it decides from.
-/

set_option autoImplicit false

namespace Reel
open Bytes StableSort

namespace Volume

inductive Sealed where
  | live (entry : Entry)
  | gone
  | absent
  deriving DecidableEq, Repr

/-- What the sealed footers say, with gone told apart from absent. -/
def sealedState (v : Volume) (hash : Str → UInt64) (key : Str) : Sealed :=
  match v.index.entryOrGrave key with
  | some entry => if entry.isGrave then .gone else .live entry
  | none =>
    match v.newestLive hash key with
    | none => .absent
    | some entry =>
      if entry.isGrave || v.index.isCoveredKey key entry.lsn then .gone else .live entry

def resolved (v : Volume) (hash : Str → UInt64) (key : Str) : Option Entry :=
  match v.index.entryOrGrave key with
  | some entry => some entry
  | none => v.newestLive hash key

end Volume

def ColumnIndex.moveFor (index : ColumnIndex) (key : Str) (tail : Nat) (row : Row)
    (isShadowed : Bool) : ColumnIndex × Landed :=
  match row.kind with
  | .data => index.insertUnless key ⟨row.loc tail, row.lsn⟩ isShadowed
  | .tombstone | .rangeTombstone => index.removeUnless key row.lsn tail isShadowed

/-- Where a repoint stands: its looks at the map, the spot index and the footers, and the slot it
has decided to take under the map's lock. -/
inductive RepointStage where
  | look
  | mapped
  | again
  | spot
  | footers
  | paged (take : Loc)

/-- Where an eviction stands, with the version it decided from. -/
inductive EvictStage where
  | look
  | mapped
  | sealed
  | paged (lsn : Nat)

/-- One operation on the key between two of its steps. -/
inductive Flight where
  /-- A record down in its tail, its number drawn and the map not yet moved. -/
  | publish (tail : Nat) (row : Row)
  | displace (newer : Nat)
  | settle (newer : Nat) (verdicts : List (Slot × Verdict))
  /-- A hand-over's row: asked under the map's lock, or put in first and paged out after. -/
  | asked (segment : Nat) (row : Row)
  | lane (segment : Nat) (row : Row)
  | inserted (segment : Nat) (row : Row) (isNew : Bool)
  | back (segment : Nat) (row : Row)
  /-- A record compaction found live and queued. -/
  | copy (segment : Nat) (row : Row)
  | repoint (stage : RepointStage) (source : Option Loc) (copy : Loc) (lsn : Nat)
  | evict (stage : EvictStage) (place : Loc)

/-- `evicted` keeps the versions evictions dropped from the map, oldest first, which no step reads. -/
structure Traffic where
  volume : Volume
  flights : List Flight
  evicted : List Nat

namespace Traffic

def start (width : KeyWidth) : Traffic := ⟨.start width 1, [], []⟩

variable (s : Traffic) (hash : Str → UInt64) (key : Str)

def goOn (volume : Volume) (more : List Flight) : Traffic :=
  { s with volume, flights := s.flights ++ more }

def publish (cache : Cache) (tail : Nat) (row : Row) :
    Traffic :=
  let v := s.volume
  let shadowed := v.isShadowed (v.sources hash cache) key row.lsn
  let (index, landed) := v.index.moveFor key tail row shadowed
  s.goOn { v with index } (if landed.mayBePaged then [.displace row.lsn] else [])

def repoint (s : Traffic) (hash : Str → UInt64) (key : Str) (source : Option Loc) (copy : Loc)
    (lsn : Nat) : RepointStage → Traffic
  | .look =>
    if (s.volume.index.entryOrGrave key).isSome then
      s.goOn s.volume [.repoint .mapped source copy lsn]
    else s.goOn s.volume [.repoint .spot source copy lsn]
  | .mapped =>
    match s.volume.index.repoint key copy lsn with
    | some index => s.goOn { s.volume with index } []
    | none => s.goOn s.volume [.repoint .again source copy lsn]
  | .again =>
    -- the key may page out between looks
    if (s.volume.index.entryOrGrave key).isSome then s
    else s.goOn s.volume [.repoint .spot source copy lsn]
  | .spot =>
    match source.filter fun place => onlyAt s.volume.spot.slots (hash key) place with
    | some place => s.goOn s.volume [.repoint (.paged place) source copy lsn]
    | none => s.goOn s.volume [.repoint .footers source copy lsn]
  | .footers =>
    match s.volume.sealedState hash key with
    | .live entry =>
      if entry.lsn = lsn then s.goOn s.volume [.repoint (.paged entry.loc) source copy lsn] else s
    | .gone | .absent => s
  | .paged take =>
    let v := s.volume
    match v.index.repointPaged key copy lsn with
    | (index, true) =>
      s.goOn { v with index, spot := v.spot.setSlots (takeLive v.spot.slots (hash key) take).1 } []
    | (_, false) => s

def evict (s : Traffic) (hash : Str → UInt64) (key : Str) (place : Loc) : EvictStage → Traffic
  | .look =>
    if (s.volume.index.entryOrGrave key).isSome then
      -- a key repointed into an open tail is answered by the map alone until the tail seals
      if s.volume.noted.any (·.id == place.segment) then s.goOn s.volume [.evict .mapped place] else s
    else s.goOn s.volume [.evict .sealed place]
  | .mapped =>
    let (index, dropped) := s.volume.index.evictAt key place
    let versions := if dropped then (s.volume.index.map.get key).toList.map Entry.lsn else []
    { s with volume := { s.volume with index }, evicted := s.evicted ++ versions }
  | .sealed =>
    match s.volume.liveOnly key (s.volume.newestLive hash key) with
    | some entry => if entry.loc = place then s.goOn s.volume [.evict (.paged entry.lsn) place] else s
    | none => s
  | .paged lsn =>
    let v := s.volume
    match v.index.evictPaged key lsn with
    | (index, true) =>
      s.goOn { v with index, spot := v.spot.setSlots (takeLive v.spot.slots (hash key) place).1 } []
    | (_, false) => s

/-- The next step of one operation, taken out of `s.flights` already. -/
def advance (cache : Cache) : Flight → Traffic
  | .publish tail row => s.publish hash key cache tail row
  | .displace newer =>
    let v := s.volume
    let src := v.sources hash cache
    s.goOn v [.settle newer
      (settleLook src.records src.maxLsnOf v.spot.slots (hash key) key newer false)]
  | .settle newer verdicts =>
    let v := s.volume
    s.goOn { v with
      spot := v.spot.takeSettled key newer (settleApply v.spot.slots (hash key) verdicts) } []
  | .asked segment row =>
    let v := s.volume
    let (index, slots) := Volume.pageAsked hash (v.index, v.spot.slots) (key, row.loc segment)
    s.goOn { v with index, spot := v.spot.setSlots slots } []
  | .lane segment row =>
    let v := s.volume
    let (slots, isNew) := putIn v.spot.slots (hash key) (row.loc segment)
    s.goOn { v with spot := v.spot.setSlots slots } [.inserted segment row isNew]
  | .inserted segment row isNew =>
    let (index, went) := s.volume.index.pageOut key (row.loc segment)
    s.goOn { s.volume with index } (if isNew && !went then [.back segment row] else [])
  | .back segment row =>
    let v := s.volume
    s.goOn { v with spot := v.spot.setSlots (removeAt v.spot.slots (hash key) (row.loc segment)) } []
  -- a queued copy waits for its tail
  | .copy segment row => s.goOn s.volume [.copy segment row]
  | .repoint stage source copy lsn => s.repoint hash key source copy lsn stage
  | .evict stage place => s.evict hash key place stage

inductive Move where
  | openTail (id : Nat)
  | put (tail offset len : Nat)
  | delete (tail offset : Nat)
  | sealTail (tail : Nat)
  | holdSealed
  | handOver (asksAll : Bool)
  | queueCopy (segment offset : Nat)
  | landCopy (flight tail offset : Nat)
  | evict (place : Loc)
  | advance (flight : Nat) (cache : Cache)

/-- Start the hand-over of the oldest noted segment still owed one. Whether its rows are asked for
turns on other keys, so it is free here. -/
def handOver (asksAll : Bool) : Traffic :=
  let v := s.volume
  match v.held with
  | [] => s
  | id :: held =>
    match v.noted.find? (·.id == id) with
    | none => { s with volume := { v with held } }
    | some segment =>
      let rows := Volume.handRows segment
      let newest := (rows.map Row.lsn).foldl max 0
      s.goOn { v with held, handed := max v.handed newest }
        (rows.map fun row =>
          if asksAll || decide (row.lsn ≤ v.index.lifted) then .asked id row else .lane id row)

/-- One step of the key's traffic, or nothing where it cannot be taken. -/
def step (s : Traffic) : Move → Option Traffic
  | .openTail id =>
    if id = 0 ∨ s.volume.segments.any (·.id == id) then none
    else some { s with volume := { s.volume with tails := s.volume.tails ++ [⟨id, [], 0⟩] } }
  | .put tail offset len =>
    let row : Row := ⟨key, s.volume.next, offset, len, .data⟩
    (s.volume.append tail fun _ => row).map fun landed => s.goOn landed [.publish tail row]
  | .delete tail offset =>
    let row : Row := ⟨key, s.volume.next, offset, 0, .tombstone⟩
    (s.volume.append tail fun _ => row).map fun landed => s.goOn landed [.publish tail row]
  | .sealTail tail => some { s with volume := s.volume.sealTail tail }
  | .holdSealed => some { s with volume := s.volume.holdSealed }
  | .handOver asksAll => some (s.handOver asksAll)
  | .queueCopy segment offset =>
    match (s.volume.noted.find? (·.id == segment)).bind fun held =>
        held.rows.find? fun row => row.offset == offset && decide (row.kind = .data) with
    | some row =>
      if s.volume.isLiveAt hash key (row.loc segment) row.lsn then
        some (s.goOn s.volume [.copy segment row])
      else none
    | none => none
  | .landCopy flight tail offset =>
    match s.flights[flight]? with
    | some (.copy segment row) =>
      (s.volume.land tail { row with offset }).map fun landed =>
        { s with flights := s.flights.eraseIdx flight }.goOn landed
          [.repoint .look (some (row.loc segment)) ⟨tail, offset, row.len⟩ row.lsn]
    | _ => none
  | .evict place => some (s.goOn s.volume [.evict .look place])
  | .advance flight cache =>
    s.flights[flight]?.map fun held =>
      { s with flights := s.flights.eraseIdx flight }.advance hash key cache held

end Traffic

end Reel
