import Reel.Index.Entry
import Reel.Library.StableSort

/-!
The spot index: for each sealed key a slot that keeps part of the key's hash and a
record's place. Only the record itself tells whose slot it is.
-/

set_option autoImplicit false

namespace Reel
open Bytes StableSort

def shardOf (hash : UInt64) : Nat := hash.toNat / 2 ^ 56

def midOf (hash : UInt64) : Nat := hash.toNat / 2 ^ 24 % 2 ^ 32

def tagOf (hash : UInt64) : Nat := hash.toNat % 2 ^ 16

def smallStep : Nat := 64
def smallClasses : Nat := 16
def classes : Nat := 192

def eighths : List Nat := [65536, 71468, 77936, 84990, 92682, 101070, 110218, 120194]

/-- The upper payload bound of one length class, small ones even and wide ones geometric. -/
def boundOf (lenClass : Nat) : Nat :=
  let lenClass := min lenClass (classes - 1)
  let bound :=
    if lenClass < smallClasses then (lenClass + 1) * smallStep
    else
      let wide := lenClass - smallClasses + 1
      (smallClasses * smallStep) * 2 ^ (wide / 8) * eighths.getD (wide % 8) 0 / 65536
  min bound (2 ^ 32 - 1)

def classOf (len : Nat) : Nat :=
  ((List.range classes).find? fun lenClass => len ≤ boundOf lenClass).getD classes

structure Slot where
  segment : Nat
  offset : Nat
  shard : Nat
  mid : Nat
  tag : Nat
  lenClass : Nat
  isGrave : Bool
  isDisplaced : Bool
  deriving DecidableEq, Repr

namespace Slot

def new (hash : UInt64) (loc : Loc) : Slot :=
  ⟨loc.segment, loc.offset, shardOf hash, midOf hash, tagOf hash, classOf loc.len, false, false⟩

def bound (slot : Slot) : Nat := boundOf slot.lenClass

def least (slot : Slot) : Nat := if slot.lenClass = 0 then 0 else boundOf (slot.lenClass - 1) + 1

def middle (slot : Slot) : Nat := slot.least + (slot.bound - slot.least) / 2

def holds (slot : Slot) (hash : UInt64) : Bool :=
  slot.shard == shardOf hash && slot.mid == midOf hash && slot.tag == tagOf hash

def samePlace (slot other : Slot) : Bool :=
  slot.segment == other.segment && slot.offset == other.offset && slot.mid == other.mid

def isAt (slot : Slot) (loc : Loc) : Bool := slot.segment == loc.segment && slot.offset == loc.offset

end Slot

structure Head where
  lsn : Nat
  len : Nat
  isTombstone : Bool
  deriving DecidableEq, Repr

inductive HeadRead where
  | same (head : Head)
  | other
  | missing
  | cold
  deriving DecidableEq, Repr

/-- One read of a record's header and payload. A payload is known by the version it belongs to. -/
inductive SpotRead where
  | found (head : Head)
  | newest (lsn : Nat)
  | tombstone (head : Head)
  | other
  | gone
  | unsure
  deriving DecidableEq, Repr

/-- Where the index reads the records it points at. -/
structure Records where
  head : Str → Nat → Nat → HeadRead
  cachedHead : Str → Nat → Nat → HeadRead
  checkedLen : Str → Nat → Nat → Nat → Option Nat
  record : Str → Nat → Nat → Nat → Bool → SpotRead

variable (slots : List Slot) (hash : UInt64)

def slotMatches : List Slot := slots.filter (·.holds hash)

def putIn (loc : Loc) : List Slot × Bool :=
  if (slotMatches slots hash).any (·.samePlace (Slot.new hash loc)) then (slots, false)
  else (slots ++ [Slot.new hash loc], true)

def findSlot (slot : Slot) : Option Slot :=
  (slotMatches slots hash).find? (·.samePlace slot)

def takeSlot (slot : Slot) : List Slot :=
  slots.eraseP fun held => held.holds hash && held.samePlace slot

def markDisplaced (slot : Slot) : List Slot :=
  slots.map fun held =>
    if held.holds hash && held.samePlace slot then { held with isDisplaced := true } else held

def soleLive : Option Slot :=
  match slots.filter (fun slot => !slot.isDisplaced) with
  | [slot] => some slot
  | _ => none

def onlyAt (loc : Loc) : Bool :=
  (soleLive (slotMatches slots hash)).any (·.isAt loc)

def liveElsewhere (loc : Loc) : Bool :=
  (soleLive (slotMatches slots hash)).any fun slot => !slot.isAt loc

def takeLive (loc : Loc) : List Slot × Bool :=
  match (slotMatches slots hash).find? fun slot => slot.isAt loc && !slot.isDisplaced with
  | some slot => (takeSlot slots hash slot, true)
  | none => (slots, false)

def removeAt (loc : Loc) : List Slot :=
  match (slotMatches slots hash).find? (·.isAt loc) with
  | some slot => takeSlot slots hash slot
  | none => slots

def settleAt : Nat := 3

/-- What one slot's look decides. -/
inductive Verdict where
  | skip
  | unread
  | older (len : Nat)
  | gone
  deriving DecidableEq, Repr

def judge (slot : Slot) (newer : Nat) : HeadRead → Verdict
  | .same head => if head.lsn < newer then .older head.len else .skip
  | .other | .cold => .skip
  | .missing => if slot.isDisplaced then .gone else .unread

def isOlder (maxLsnOf : Nat → Option Nat) (newer : Nat) (slot : Slot) : Bool :=
  (maxLsnOf slot.segment).any (· < newer)

variable (records : Records) (maxLsnOf : Nat → Option Nat)

def settleRead (key : Str) (newer : Nat)
    (slot : Slot) : Verdict :=
  match records.cachedHead key slot.segment slot.offset with
  | .cold =>
    let checked :=
      if isOlder maxLsnOf newer slot && !slot.isGrave then
        records.checkedLen key slot.segment slot.offset slot.bound
      else none
    match checked with
    | some len => .older len
    | none => judge slot newer (records.head key slot.segment slot.offset)
  | answer => judge slot newer answer

def settleOne (key : Str) (newer : Nat)
    (owed mustRead : Bool) (slot : Slot) : Verdict :=
  if owed && !slot.isDisplaced then .skip
  else if !mustRead && slot.isDisplaced then .skip
  else if !mustRead && isOlder maxLsnOf newer slot then .unread
  else settleRead records maxLsnOf key newer slot

structure Displaced where
  booked : List Loc
  classed : List (Loc × Nat)
  rebooked : List (Loc × Nat)
  deriving DecidableEq, Repr

/-- Take one older version out, booking it or correcting what its class booked. -/
def takeOlder (state : List Slot × Displaced) (slot : Slot) (len : Nat) :
    List Slot × Displaced :=
  match findSlot state.1 hash slot with
  | some took =>
    let loc := ⟨slot.segment, slot.offset, len⟩
    let settled :=
      if took.isDisplaced then { state.2 with rebooked := state.2.rebooked ++ [(loc, took.least)] }
      else { state.2 with booked := state.2.booked ++ [loc] }
    (takeSlot state.1 hash slot, settled)
  | none => state

def markUnread (state : List Slot × Displaced) (slot : Slot) :
    List Slot × Displaced :=
  match findSlot state.1 hash slot with
  | some held =>
    if held.isDisplaced then state
    else
      (markDisplaced state.1 hash slot,
        { state.2 with
          classed := state.2.classed ++ [(⟨slot.segment, slot.offset, slot.middle⟩, slot.least)] })
  | none => state

/-- The write half of a settle: gone slots, then older ones, then those left unread. -/
def settleApply (verdicts : List (Slot × Verdict)) :
    List Slot × Displaced :=
  let gone := verdicts.filterMap fun (slot, verdict) => if verdict = .gone then some slot else none
  let older := verdicts.filterMap fun (slot, verdict) =>
    match verdict with
    | .older len => some (slot, len)
    | _ => none
  let unread := verdicts.filterMap fun (slot, verdict) =>
    if verdict = .unread then some slot else none
  let slots := gone.foldl (fun slots slot => takeSlot slots hash slot) slots
  let state := older.foldl (fun state x => takeOlder hash state x.1 x.2) (slots, ⟨[], [], []⟩)
  unread.foldl (markUnread hash) state

def settleLook (slots : List Slot)
    (hash : UInt64) (key : Str) (newer : Nat) (owed : Bool) : List (Slot × Verdict) :=
  let seen := slotMatches slots hash
  let mustRead := owed || decide (settleAt ≤ seen.length)
  seen.map fun slot => (slot, settleOne records maxLsnOf key newer owed mustRead slot)

def settleVersions (slots : List Slot)
    (hash : UInt64) (key : Str) (newer : Nat) (owed : Bool) : List Slot × Displaced :=
  settleApply slots hash (settleLook records maxLsnOf slots hash key newer owed)

end Reel
