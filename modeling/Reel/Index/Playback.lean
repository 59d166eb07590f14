import Reel.Index.Volume
import Reel.Library.Merge

/-!
One ordered playback of a column, taken from the map and the noted footers at once and
handed out in pages.
-/

set_option autoImplicit false

namespace Reel
open Bytes StableSort

inductive Bound where
  | unbounded
  | included (key : Str)
  | excluded (key : Str)
  deriving DecidableEq, Repr

def Bound.admits : Bound → Str → Bool
  | .unbounded, _ => true
  | .included low, key => decide (low ≤ key)
  | .excluded low, key => decide (low < key)

def Bound.low (width : KeyWidth) : Bound → Bound
  | .unbounded => .unbounded
  | .included key => .included (width.lowBound key)
  | .excluded key => .excluded (width.lowBound key)

def ColumnIndex.page (index : ColumnIndex) (start : Bound) (limit : Nat) (judged : Bool) :
    List (Str × Entry) :=
  ((index.map.entries.filter fun e => (start.low index.width).admits e.1).filter fun e =>
    judged || (!e.2.isGrave && !isCovered index.covers e.1 e.2.lsn)).take limit

namespace Volume

def rowKey (x : Nat × Row) : Str := x.2.key

def openSealed (noted : List Segment) (start : Bound) : List (List (Nat × Row)) :=
  noted.map fun segment =>
    (segment.footerRows.filter fun row => start.admits row.key).map fun row => (segment.id, row)

/-- The newest of a key's rows. On a tie the row in a standing segment wins. -/
def newestRow (stands : Nat → Bool) (rows : List (Nat × Row)) : Option (Nat × Row) :=
  rows.foldl (fun newest found =>
    match newest with
    | none => some found
    | some held =>
      if held.2.lsn < found.2.lsn ∨
          held.2.lsn = found.2.lsn ∧ !stands held.1 ∧ stands found.1 then some found
      else some held) none

variable (v : Volume) (limit : Nat)

def stands (segment : Nat) : Bool := v.noted.any (·.id == segment)

def sealedAnswer (key : Str) (rows : List (Nat × Row)) : Option Entry :=
  match newestRow v.stands rows with
  | none => none
  | some (segment, row) =>
    if row.kind = .data ∧ !v.index.isCoveredKey key row.lsn then some (row.entry segment) else none

def mappedAnswer (key : Str) (entry : Entry) : Option Entry :=
  if !entry.isGrave && !v.index.isCoveredKey key entry.lsn then some entry else none

structure Merging where
  resident : List (Str × Entry)
  cursors : List (List (Nat × Row))
  out : List (Str × Entry)
  resume : Option Str

def Merging.nextKey (m : Merging) : Option Str :=
  match m.resident.head?, Merge.front rowKey m.cursors with
  | some (resident, _), some sealed => if sealed < resident then some sealed else some resident
  | some (resident, _), none => some resident
  | none, sealed => sealed

def pushFound (key : Str) (out : List (Str × Entry)) : Option Entry → List (Str × Entry)
  | some entry => out ++ [(key, entry)]
  | none => out

/-- Decide one key. The map's entry or grave wins, so its sealed rows are skipped unread. -/
def decideKey (m : Merging) (key : Str) : Merging :=
  let sealed : Merging :=
    { m with
      cursors := Merge.pass rowKey key m.cursors
      out := pushFound key m.out
        (v.sealedAnswer key (m.cursors.flatMap (Merge.onKey rowKey key)))
      resume := some key }
  match m.resident with
  | (resident, entry) :: rest =>
    if resident = key then
      { resident := rest
        cursors := Merge.pass rowKey key m.cursors
        out := pushFound key m.out (v.mappedAnswer key entry)
        resume := some key }
    else sealed
  | [] => sealed

/-- Merge up to the edge of one map page, with whether every source ran out. -/
def mergeLoop (v : Volume) (limit : Nat) (edge : Option Str) : Nat → Merging → Merging × Bool
  | 0, m => (m, false)
  | fuel + 1, m =>
    if limit ≤ m.out.length then (m, false)
    else
      match m.nextKey with
      | none => (m, true)
      | some key =>
        if edge.any (· < key) then (m, false) else mergeLoop v limit edge fuel (v.decideKey m key)

structure Playback where
  reached : Option Bound
  cursors : Option (List (List (Nat × Row)))

def walkFuel : Nat :=
  v.index.map.entries.length + (v.noted.flatMap Segment.rows).length + 1

/-- Merge the map and the footers up to the edge of one map page. -/
def mergeRun (playback : Playback) (reached : Bound)
    (out : List (Str × Entry)) : Playback × List (Str × Entry) :=
  let cursors := playback.cursors.getD (openSealed v.noted reached)
  let resident := v.index.page reached limit true
  -- a full map page says nothing past its last key, so the merge stops at that edge
  let edge := if resident.length = limit then resident.getLast?.map Prod.fst else none
  let (m, spent) := v.mergeLoop limit edge v.walkFuel ⟨resident, cursors, out, none⟩
  let exhausted := spent && decide (resident.length < limit)
  (⟨if exhausted then none else some (.excluded (m.resume.getD [])), some m.cursors⟩, m.out)

/-- Merge run after run until the page fills or the column ends. -/
def fillMergedPage (v : Volume) (limit : Nat) : Nat → Playback → List (Str × Entry) →
    Playback × List (Str × Entry)
  | 0, playback, out => (playback, out)
  | fuel + 1, playback, out =>
    match playback.reached with
    | none => (playback, out)
    | some reached =>
      if limit ≤ out.length then (playback, out)
      else
        let (playback, out) := v.mergeRun limit playback reached out
        fillMergedPage v limit fuel playback out

/-- A page of the map alone, which is the whole column while nothing is sealed. -/
def pageResident (reached : Bound) : Playback × List (Str × Entry) :=
  let page := v.index.page reached limit false
  let resume :=
    match page.getLast? with
    | some (last, _) => if page.length = limit then some (.excluded last) else none
    | none => none
  (⟨resume, none⟩, page)

def pageFrom (playback : Playback) (reached : Bound) :
    Playback × List (Str × Entry) :=
  if v.noted.isEmpty then v.pageResident limit reached
  else v.fillMergedPage limit v.walkFuel playback []

/-- Page after page until the playback has run out, nothing when the fuel goes first. -/
def walkPages (v : Volume) (limit : Nat) : Nat → Playback → List (Str × Entry) →
    Option (List (Str × Entry))
  | fuel, playback, out =>
    match playback.reached with
    | none => some out
    | some reached =>
      match fuel with
      | 0 => none
      | fuel + 1 =>
        let (playback, page) := v.pageFrom limit playback reached
        walkPages v limit fuel playback (out ++ page)

def walk : Option (List (Str × Entry)) :=
  v.walkPages limit v.walkFuel ⟨some .unbounded, none⟩ []

end Volume

end Reel
