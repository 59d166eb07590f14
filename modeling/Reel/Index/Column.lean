import Reel.Index.Entry
import Reel.Index.Cover
import Reel.Library.SortedMap

/-!
One column's map, its range covers, and the mark of the newest guard it let go.
-/

set_option autoImplicit false

namespace Reel
open Bytes

structure ColumnIndex where
  width : KeyWidth
  map : SortedMap Str Entry
  covers : List (Covered Str)
  lifted : Nat

namespace ColumnIndex

variable (index : ColumnIndex)

variable (key : Str) (loc : Loc)

def isCoveredKey (lsn : Nat) : Bool :=
  index.width.accepts key && isCovered index.covers key lsn

def entryOrGrave : Option Entry :=
  if index.width.accepts key then index.map.get key else none

def setMap (map : SortedMap Str Entry) : ColumnIndex := { index with map }

/-- Apply a committed record, refused over an empty place where a newer version is shadowing it. -/
def insertUnless (entry : Entry) (isShadowed : Bool) :
    ColumnIndex × Landed :=
  if !index.width.accepts key then (index, .newer)
  else if isCovered index.covers key entry.lsn then (index, .newer)
  else
    let landed := index.setMap (index.map.put key entry)
    match index.map.get key with
    | some existing =>
      if entry.lsn ≤ existing.lsn then (index, .newer)
      else if existing.isGrave then (landed, .grave)
      else (landed, .record)
    | none => if isShadowed then (index, .newer) else (landed, .nothing)

/-- Drop a key on a tombstone, leaving a grave. -/
def removeUnless (lsn tombstone : Nat) (isShadowed : Bool) :
    ColumnIndex × Landed :=
  if !index.width.accepts key then (index, .newer)
  else
    let buried := index.setMap (index.map.put key (.graveFrom lsn tombstone))
    match index.map.get key with
    | some existing =>
      if lsn ≤ existing.lsn then
        -- a copy of the same tombstone moves its grave to the segment the copy landed in
        if existing.isGrave && existing.lsn == lsn then (buried, .newer) else (index, .newer)
      else if existing.isGrave then (buried, .grave)
      else (buried, .record)
    | none => if isShadowed then (index, .newer) else (buried, .nothing)

def removeRange (start : Str) (fin : Option Str) (lsn : Nat) : ColumnIndex :=
  { index with
    covers := pushCover index.covers (index.width.lowBound start) (fin.map index.width.lowBound) lsn }

def nextPendingCover : Option (Covered Str) :=
  (index.covers.filter (fun cover => cover.phase ≠ .done)).argmin Covered.lsn

def setPhase (lsn : Nat) (phase : Covered Str → SweepPhase Str) :
    ColumnIndex :=
  { index with
    covers := index.covers.map fun cover =>
      if cover.lsn = lsn then { cover with phase := phase cover } else cover }

def advanceRelease (lsn : Nat) (resume : Option Str) : ColumnIndex :=
  index.setPhase lsn fun cover =>
    match resume with
    | some resume => .release (index.width.lowBound resume)
    | none => .sweep cover.low

def spanFrom (resume : Str) (high : Option Str) : List (Str × Entry) :=
  index.map.entries.filter fun e => decide (resume ≤ e.1) && high.all (fun high => e.1 < high)

/-- Drop one bounded run of a cover's map entries, with how many were examined and whether the
sweep finished. -/
def sweepRun (lsn budget : Nat) : ColumnIndex × Nat × Bool :=
  match index.covers.find? (·.lsn == lsn) with
  | some cover =>
    match cover.phase with
    | .sweep resume =>
      let span := index.spanFrom resume cover.high
      let looked := span.take budget
      let doomed := looked.filter fun e => decide (e.2.lsn < lsn) && !e.2.isGrave
      let swept := index.setMap (index.map.keep fun key _ => !doomed.any (·.1 == key))
      match (span.drop budget).head? with
      | some stopped => (swept.setPhase lsn fun _ => .sweep stopped.1, looked.length, false)
      | none => (swept.setPhase lsn fun _ => .done, looked.length, true)
    | _ => (index, 0, true)
  | none => (index, 0, true)

def prunable (cover : Covered Str) (before : Nat) (overlaps : Str → Option Str → Bool) : Bool :=
  decide (cover.phase = .done) && decide (cover.lsn ≤ before) && !overlaps cover.low cover.high

def pruneCovers (before : Nat) (overlaps : Str → Option Str → Bool) :
    ColumnIndex :=
  let dropped := index.covers.filter fun cover => prunable cover before overlaps
  { index with
    covers := index.covers.filter fun cover => !prunable cover before overlaps
    lifted := max index.lifted ((dropped.map Covered.lsn).foldl max 0) }

def buriable (entry : Entry) (before : Nat) (standing : List Nat) : Bool :=
  entry.isGrave && decide (entry.lsn ≤ before) && entry.graveOrigin.any (standing.contains ·)

def pruneGraves (before : Nat) (standing : List Nat) : ColumnIndex :=
  let doomed := index.map.entries.filter fun e => buriable e.2 before standing
  { index with
    map := index.map.keep fun _ entry => !buriable entry before standing
    lifted := max index.lifted ((doomed.map fun e => e.2.lsn).foldl max 0) }

def pruneTombstones (before : Nat) (overlaps : Str → Option Str → Bool)
    (standing : List Nat) : ColumnIndex :=
  (index.pruneCovers before overlaps).pruneGraves before standing

def holds : Bool :=
  index.width.accepts key &&
    (index.map.get key).any fun existing =>
      decide (existing.loc = loc) && !existing.isGrave && !isCovered index.covers key existing.lsn

/-- Point a key at its rewritten copy while it holds the same version. -/
def repoint (copy : Loc) (lsn : Nat) : Option ColumnIndex :=
  if !index.width.accepts key then none
  else
    match index.map.get key with
    | some existing =>
      if existing.lsn = lsn ∧ !existing.isGrave then some (index.setMap (index.map.put key ⟨copy, lsn⟩))
      else none
    | none => none

/-- Drop a key while it still resolves one exact location, writing no tombstone. -/
def evictAt : ColumnIndex × Bool :=
  if !index.width.accepts key then (index, false)
  else
    match index.map.get key with
    | some existing =>
      if existing.loc = loc then (index.setMap (index.map.take key), true) else (index, false)
    | none => (index, false)

def fillEmpty (entry : Entry) : ColumnIndex × Bool :=
  if !index.width.accepts key || (index.map.get key).isSome then (index, false)
  else (index.setMap (index.map.put key entry), true)

def repointPaged (copy : Loc) (lsn : Nat) : ColumnIndex × Bool :=
  index.fillEmpty key ⟨copy, lsn⟩

def evictPaged (lsn : Nat) : ColumnIndex × Bool :=
  index.fillEmpty key (.grave lsn)

def pageOut : ColumnIndex × Bool :=
  if index.holds key loc then (index.setMap (index.map.take key), true) else (index, false)

end ColumnIndex

end Reel
