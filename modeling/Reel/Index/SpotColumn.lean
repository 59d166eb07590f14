import Reel.Index.Spot

/-!
A column's spot index at work: its queues, and the two ways it is read, by a header of
every candidate and by one record read of each candidate a ceiling cannot rule out.
-/

set_option autoImplicit false

namespace Reel
open Bytes StableSort

/-- An older version a lookup passed over, for the cleaner to take out. -/
structure Stale where
  key : Str
  slot : Slot
  len : Nat
  deriving DecidableEq, Repr

structure SpotColumn where
  slots : List Slot
  stale : List Stale
  owed : List (Str × Nat)

def maxStale : Nat := 2 ^ 20
def maxOwed : Nat := 2 ^ 20

def lookupTries : Nat := 9

/-- What the volume tells a lookup: keys' hashes, records, and each segment's highest number. -/
structure Sources where
  hash : Str → UInt64
  records : Records
  maxLsnOf : Nat → Option Nat

namespace SpotColumn

variable (spot : SpotColumn)

variable (src : Sources) (key : Str) (takesNewest : Bool)

def matching : List Slot :=
  slotMatches spot.slots (src.hash key)

def setSlots (slots : List Slot) : SpotColumn := { spot with slots }

/-- Take in what a settle left, owing the key a rebook where a class was booked. -/
def takeSettled (newer : Nat) (settled : List Slot × Displaced) :
    SpotColumn :=
  { spot with
    slots := settled.1
    owed :=
      if !settled.2.classed.isEmpty && decide (spot.owed.length < maxOwed) then
        spot.owed ++ [(key, newer)]
      else spot.owed }

def displace (newer : Nat) : SpotColumn :=
  spot.takeSettled key newer
    (settleVersions src.records src.maxLsnOf spot.slots (src.hash key) key newer false)

/-- Read the true length of up to `budget` keys' class bookings. -/
def rebookOwed (src : Sources) : Nat → SpotColumn → SpotColumn
  | 0, spot => spot
  | budget + 1, spot =>
    match spot.owed with
    | [] => spot
    | (key, newer) :: owed =>
      let settled :=
        settleVersions src.records src.maxLsnOf spot.slots (src.hash key) key newer true
      rebookOwed src budget { spot with slots := settled.1, owed }

def queue (stale : Stale) : SpotColumn :=
  if spot.stale.length < maxStale then { spot with stale := spot.stale ++ [stale] } else spot

def takeUnbooked (slots : List Slot) (hash : UInt64) (slot : Slot) : List Slot :=
  if (slotMatches slots hash).any fun held => held.samePlace slot && held.isDisplaced then slots
  else takeSlot slots hash slot

/-- Take out up to `budget` older versions that lookups passed over. -/
def scrub (src : Sources) : Nat → SpotColumn → SpotColumn
  | 0, spot => spot
  | budget + 1, spot =>
    match spot.stale with
    | [] => spot
    | stale :: rest =>
      scrub src budget
        { spot with slots := takeUnbooked spot.slots (src.hash stale.key) stale.slot, stale := rest }

def ceilingOrder (x : Option Nat × Slot) : (Lex (WithBot Nat × Nat))ᵒᵈ :=
  OrderDual.toDual (toLex (x.1, x.2.segment))

def ordered : List (Option Nat × Slot) :=
  match spot.matching src key with
  | [] => []
  | [slot] => [(none, slot)]
  | seen =>
    sortByKey ceilingOrder (seen.map fun slot => (src.maxLsnOf slot.segment, slot))

def ruledOut (ceiling : Option Nat) (best : Option Nat) : Bool :=
  match ceiling, best with
  | some ceiling, some lsn => decide (ceiling < lsn)
  | _, _ => false

inductive Settled where
  | entry (found : Option Entry)
  | footers
  deriving DecidableEq, Repr

/-- Read each candidate's header, or name the slot whose segment went under the look. -/
def scanHeads (records : Records) (key : Str) :
    List (Option Nat × Slot) → Option (Head × Slot) → Except Slot (Option (Head × Slot))
  | [], best => .ok best
  | (ceiling, slot) :: rest, best =>
    if ruledOut ceiling (best.map fun x => x.1.lsn) then scanHeads records key rest best
    else
      match records.head key slot.segment slot.offset with
      | .same head =>
        if best.all fun x => x.1.lsn < head.lsn then scanHeads records key rest (some (head, slot))
        else scanHeads records key rest best
      | .missing => .error slot
      | .other | .cold => scanHeads records key rest best

def settledOf : Option (Head × Slot) → Settled
  | none => .entry none
  | some (head, slot) =>
    if slot.isDisplaced then .footers
    else if head.isTombstone then .entry (some (.grave head.lsn))
    else .entry (some ⟨⟨slot.segment, slot.offset, head.len⟩, head.lsn⟩)

/-- A key's newest sealed entry from a header read of every candidate. -/
def entryTries (src : Sources) (key : Str) : Nat → SpotColumn → Settled
  | 0, _ => .footers
  | tries + 1, spot =>
    match scanHeads src.records key (spot.ordered src key) none with
    | .ok best => settledOf best
    | .error slot =>
      entryTries src key tries (spot.setSlots (takeSlot spot.slots (src.hash key) slot))

def entry : Settled :=
  entryTries src key lookupTries spot

def holdsNewer (lsn : Nat) : Bool :=
  (spot.matching src key).any fun slot =>
    !(src.maxLsnOf slot.segment).any (· ≤ lsn) &&
      match src.records.head key slot.segment slot.offset with
      | .same head => decide (lsn < head.lsn)
      | _ => false

structure Pick where
  ordered : List (Option Nat × Slot)
  next : Nat
  best : Option Head
  bestDisplaced : Bool
  takesNewest : Bool
  isVersionless : Bool
  stale : List (Slot × Nat)

structure Candidate where
  slot : Slot
  alone : Bool

def pick : Pick :=
  ⟨spot.ordered src key, 0, none, false, takesNewest, false, []⟩

def Pick.nextOrdered (pick : Pick) : List (Option Nat × Slot) → Option Candidate × Pick
  | [] => (none, pick)
  | (ceiling, slot) :: rest =>
    let pick := { pick with next := pick.next + 1 }
    if ruledOut ceiling (pick.best.map Head.lsn) then pick.nextOrdered rest
    else (some ⟨slot, false⟩, pick)

/-- The next candidate to read. A key's only live data slot is taken for its newest version. -/
def Pick.advance (pick : Pick) : Option Candidate × Pick :=
  let sole := (soleLive (pick.ordered.map Prod.snd)).filter fun slot => !slot.isGrave
  match if pick.takesNewest then sole else none with
  | some slot =>
    let first := pick.next == 0
    (if first then some ⟨slot, true⟩ else none, { pick with next := pick.ordered.length })
  | none => pick.nextOrdered (pick.ordered.drop pick.next)

inductive Offered where
  | next (pick : Pick)
  | again (slot : Slot)
  | unsettled

/-- Fold one version a candidate read into a lookup. -/
def Pick.take (pick : Pick) (slot : Slot) (head : Head) : Pick :=
  match pick.best with
  | some current =>
    if head.lsn ≤ current.lsn then
      -- an equal version is a compaction copy beside its source, and both stay
      if head.lsn < current.lsn then { pick with stale := pick.stale ++ [(slot, head.len)] } else pick
    else { pick with best := some head, bestDisplaced := slot.isDisplaced }
  | none => { pick with best := some head, bestDisplaced := slot.isDisplaced }

def Pick.offer (pick : Pick) (candidate : Candidate) : SpotRead → Offered
  | .found head | .tombstone head => .next (pick.take candidate.slot head)
  | .newest lsn =>
    if !candidate.alone || pick.best.isSome then .unsettled
    else
      .next { pick with best := some ⟨lsn, 0, false⟩, bestDisplaced := false, isVersionless := true }
  | .other => .next pick
  | .gone => .again candidate.slot
  | .unsure => .unsettled

/-- What one lookup settled about a key. -/
inductive Lookup where
  | found (lsn : Nat)
  | newest (lsn : Nat)
  | missing
  | unsettled
  deriving DecidableEq, Repr

/-- Close a lookup with its newest version, handing the older ones it read to the cleaner. -/
def settle (pick : Pick) : Lookup × SpotColumn :=
  let spot := (pick.stale.filter fun x => !x.1.isDisplaced).foldl
    (fun spot x => spot.queue ⟨key, x.1, x.2⟩) spot
  let lookup :=
    match pick.best with
    | some head =>
      if pick.bestDisplaced then .unsettled
      else if head.isTombstone then .missing
      else if pick.isVersionless then .newest head.lsn
      else .found head.lsn
    | none => .missing
  (lookup, spot)

/-- Read candidates until the order is spent or a read sends the lookup elsewhere. -/
def readOn (spot : SpotColumn) (src : Sources) (key : Str) : Nat → Pick → Lookup × SpotColumn ⊕ Slot
  | 0, pick => .inl (spot.settle key pick)
  | fuel + 1, pick =>
    match pick.advance with
    | (none, pick) => .inl (spot.settle key pick)
    | (some candidate, pick) =>
      let read := src.records.record key candidate.slot.segment candidate.slot.offset
        candidate.slot.bound candidate.alone
      match pick.offer candidate read with
      | .next pick => readOn spot src key fuel pick
      | .again slot => .inr slot
      | .unsettled => .inl (.unsettled, spot)

/-- A key's newest payload in one read of each candidate a ceiling cannot rule out. -/
def readTries (src : Sources) (key : Str) (takesNewest : Bool) : Nat → SpotColumn → Lookup × SpotColumn
  | 0, spot => (.unsettled, spot)
  | tries + 1, spot =>
    match spot.readOn src key ((spot.matching src key).length + 1) (spot.pick src key takesNewest) with
    | .inl done => done
    | .inr slot =>
      readTries src key takesNewest tries (spot.setSlots (takeSlot spot.slots (src.hash key) slot))

def read : Lookup × SpotColumn :=
  readTries src key takesNewest lookupTries spot

end SpotColumn

end Reel
