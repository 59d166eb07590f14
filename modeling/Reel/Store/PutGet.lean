import Reel.Store.Capacity
import Reel.Index.Drawn

/-!
A put and the get behind it on one volume with no other writer. The put plans, lands one record on a tail and moves
the column's map, then settles what the sealed segments held of the key; the get asks the map first and the sealed
segments where the map has no word. The sealed half is a parameter: all a put and a get share with it are its answers.
-/

set_option autoImplicit false

namespace Reel
open Bytes ColumnIndex

/-- What a volume does with a record that fails its checksum. -/
inductive RepairPath where
  | none
  | peers
  deriving DecidableEq, Repr

/-- A record as it lies in its segment. -/
structure StoredRecord where
  key : RecordKey
  lsn : Nat
  codec : Byte
  bytes : Str

/-- Where reading a segment's offset fails, and how, while one get runs. -/
abbrev ReadFaults := Nat → Nat → Option WriteFault

/-- The sealed half of an index: what it answers for a key the map has no word on, whether its spot table holds a
newer version, and the booking of the versions a move displaced, which reads and can fail. -/
structure SealedSide (σ : Type) where
  find : ReadFaults → σ → RecordKey → Except WriteFault (Option Str)
  holdsNewer : σ → RecordKey → Nat → Except WriteFault Bool
  settle : σ → RecordKey → Nat → Except WriteFault Unit × σ

/-- A store as a put and a get see it. -/
structure PointStore (σ : Type) where
  write : WriteStore
  repair : RepairPath
  indexes : ColumnId → ColumnIndex
  /-- Whether the spot index serves, and the newest number it was given. -/
  serves : Bool
  handed : Nat
  behind : σ
  /-- The record at a segment's offset. -/
  records : Nat → Nat → Option StoredRecord
  next : Nat

def Appender.place (device : BatchDevice) (a : Appender) (record : Planned) : Except WriteFault Unit × List Planned :=
  let span := a.cfg.reservedSpan record.span
  let target := a.cfg.segmentBytes
  if target < a.cfg.headerSpan + span + block then
    (.error (.reel (.rejected s!"a record of {span} bytes does not fit a reel segment of {target}")), [])
  else placeLoop device a.cfg span [record] a.active a.segmentsLeft

namespace PointStore
variable {σ : Type}

/-- What a framed record answers. One that does not decode is corrupt: an error on a sole copy, and a key given up
where another copy exists. -/
def readStored (lz4 : Lz4) (repair : RepairPath) (segment : Nat) (codec : Byte) (stored : Str) :
    Except WriteFault (Option Str) :=
  if codec = 0 then .ok (some stored) else
  match decode lz4 codec stored with
  | some payload => .ok (some payload)
  | none =>
    match repair with
    | .none => .error (.reel (.corruption (s!"the record for a key in segment {segment} fails its checksum, " ++
        "and this volume is its only copy")))
    | .peers => .ok none

/-- Read the record an entry points at, a miss where the place frames another one. -/
def readRecord (lz4 : Lz4) (faults : ReadFaults) (s : PointStore σ) (key : RecordKey) (entry : Entry) :
    Except WriteFault (Option Str) :=
  match faults entry.loc.segment entry.loc.offset, s.records entry.loc.segment entry.loc.offset with
  | some fault, _ => .error fault
  | none, some record =>
    if record.key = key ∧ record.lsn = entry.lsn then
      readStored lz4 s.repair entry.loc.segment record.codec record.bytes
    else .ok none
  | none, none => .ok none

def get (side : SealedSide σ) (lz4 : Lz4) (faults : ReadFaults) (s : PointStore σ) (key : RecordKey) :
    Except WriteFault (Option Str) :=
  let index := s.indexes key.column
  match s.write.specs key.column with
  | none => .ok none
  | some _ =>
    match index.entryOrGrave key.key.bytes with
    | some entry =>
      if entry.isGrave || index.isCoveredKey key.key.bytes entry.lsn then .ok none
      else s.readRecord lz4 faults key entry
    | none => side.find faults s.behind key

/-- Whether the spot index holds a version newer than a number. Nothing it was given is newer than a write above its
mark. -/
def shadowLookup (side : SealedSide σ) (s : PointStore σ) (key : RecordKey) (lsn : Nat) : Except WriteFault Bool :=
  if !s.serves || s.handed < lsn then .ok false else side.holdsNewer s.behind key lsn

def setIndex (s : PointStore σ) (column : ColumnId) (index : ColumnIndex) : PointStore σ :=
  { s with indexes := Function.update s.indexes column index }

def asksShadow (index : ColumnIndex) (key : Str) (lsn : Nat) : Bool :=
  index.width.accepts key && !isCovered index.covers key lsn && (index.map.get key).isNone

/-- Move the map for a committed record. A failed look for a newer version refuses it. -/
def insertMapped (side : SealedSide σ) (s : PointStore σ) (key : RecordKey) (loc : Loc) (lsn : Nat) :
    Except WriteFault Landed × PointStore σ :=
  let index := s.indexes key.column
  match s.shadowLookup side key lsn with
  | .ok isShadowed =>
    let moved := index.insertUnless key.key.bytes ⟨loc, lsn⟩ isShadowed
    (.ok moved.2, s.setIndex key.column moved.1)
  | .error fault =>
    let moved := index.insertUnless key.key.bytes ⟨loc, lsn⟩ true
    (if asksShadow index key.key.bytes lsn then .error fault else .ok moved.2, s.setIndex key.column moved.1)

/-- Apply a committed record, booking the version it displaced. Whether the map took it is not what a put asks. -/
def insert (side : SealedSide σ) (s : PointStore σ) (key : RecordKey) (loc : Loc) (lsn : Nat) :
    Except WriteFault Unit × PointStore σ :=
  match s.insertMapped side key loc lsn with
  | (.error fault, s) => (.error fault, s)
  | (.ok landed, s) =>
    if landed.mayBePaged then
      let settled := side.settle s.behind key lsn
      (settled.1, { s with behind := settled.2 })
    else (.ok (), s)

def hold (s : PointStore σ) (loc : Loc) (record : StoredRecord) : PointStore σ :=
  { s with
    records := fun segment offset =>
      if segment = loc.segment ∧ offset = loc.offset then some record else s.records segment offset }

def put (side : SealedSide σ) (lz4 : Lz4) (device : BatchDevice) (place : Nat × Nat) (s : PointStore σ)
    (key : RecordKey) (payload : Str) : Except WriteFault Unit × PointStore σ :=
  match s.write.planPut lz4 key payload with
  | .error error => (.error (.reel error), s)
  | .ok (stored, codec) =>
    let lsn := s.next
    let drawn := { s with next := s.next + 1 }
    match s.write.appender.place device ⟨key, .data, stored⟩ with
    | (.error fault, _) => (.error fault, drawn)
    | (.ok (), written) =>
      let loc : Loc := ⟨place.1, place.2, stored.length⟩
      let landed := drawn.hold loc ⟨key, lsn, codec, stored⟩
      -- the record is down, and the sync it may owe can still fail
      match device.finish written with
      | .error fault => (.error fault, landed)
      | .ok () => landed.insert side key loc lsn

/-- Every number the index knows was drawn. -/
structure Numbered (s : PointStore σ) : Prop where
  mapped : ∀ column key entry, (s.indexes column).map.get key = some entry → entry.lsn < s.next
  covered : ∀ column, ∀ cover ∈ (s.indexes column).covers, cover.lsn < s.next
  handed : s.handed < s.next

/-- A place no entry points at, in a segment records sit in. -/
structure Free (s : PointStore σ) (place : Nat × Nat) : Prop where
  placed : place.1 ≠ 0
  unheld : ∀ column key entry, (s.indexes column).map.get key = some entry →
    ¬ (entry.loc.segment = place.1 ∧ entry.loc.offset = place.2)

/-- An acknowledged put reads back, and a failed one changes no read of its key. The get in front of the put and the
get behind it each meet the device as it then is. -/
def Acknowledges (side : SealedSide σ) (lz4 : Lz4) (device : BatchDevice) (before after : ReadFaults)
    (place : Nat × Nat) (s : PointStore σ) (key : RecordKey) (payload : Str) : Prop :=
  ((s.put side lz4 device place key payload).1 = .ok () →
    (s.put side lz4 device place key payload).2.get side lz4 after key = .ok (some payload)) ∧
  ∀ fault, (s.put side lz4 device place key payload).1 = .error fault →
    (s.put side lz4 device place key payload).2.get side lz4 after key = s.get side lz4 before key

/-- The put is planned, its record is written, and the sync it owes is done. -/
def Lands (lz4 : Lz4) (device : BatchDevice) (s : PointStore σ) (key : RecordKey) (payload : Str) : Prop :=
  ∃ stored codec written, s.write.planPut lz4 key payload = .ok (stored, codec) ∧
    s.write.appender.place device ⟨key, .data, stored⟩ = (.ok (), written) ∧ device.finish written = .ok ()

/-- The map has no word on the key, and the sealed versions of it cannot be booked. -/
def SettleFails (side : SealedSide σ) (s : PointStore σ) (key : RecordKey) : Prop :=
  (s.indexes key.column).map.get key.key.bytes = none ∧ ∃ fault, (side.settle s.behind key s.next).1 = .error fault

/-- What the column's codec makes of a payload reads back. -/
def Readable (lz4 : Lz4) (s : PointStore σ) (key : RecordKey) (payload : Str) : Prop :=
  s.write.codecOf key.column ≠ .lz4 ∨ payload.length ≤ maxLogical ∨ ¬ lz4.Shrinks payload

def readsBack (lz4 : Lz4) (faults : ReadFaults) (s : PointStore σ) (place : Nat × Nat) (key : RecordKey)
    (payload : Str) : Except WriteFault (Option Str) :=
  let admitted := admitPayload lz4 (s.write.codecOf key.column) payload
  match faults place.1 place.2 with
  | some fault => .error fault
  | none => readStored lz4 s.repair place.1 admitted.2 admitted.1

section
variable {side : SealedSide σ} {lz4 : Lz4} {device : BatchDevice} {faults : ReadFaults} {place : Nat × Nat}
  {s : PointStore σ} {key : RecordKey} {payload : Str}

theorem Numbered.uncovered (h : s.Numbered) (column : ColumnId) (key : Str) :
    isCovered (s.indexes column).covers key s.next = false := by
  rw [Bool.eq_false_iff, Ne, isCovered_iff]
  rintro ⟨cover, hmem, hcovers⟩
  have hbelow := h.covered column cover hmem
  have habove := ((cover.covers_iff key s.next).mp hcovers).1
  omega

theorem insertUnless_newest {index : ColumnIndex} {key : Str} {entry : Entry} (haccepts : index.width.accepts key = true)
    (hcover : isCovered index.covers key entry.lsn = false)
    (hnewest : ∀ existing, index.map.get key = some existing → existing.lsn < entry.lsn) :
    (index.insertUnless key entry false).1 = index.setMap (index.map.put key entry) ∧
      (index.insertUnless key entry false).2.mayBePaged = (index.map.get key).isNone := by
  unfold insertUnless
  rw [haccepts, hcover]
  cases hheld : index.map.get key with
  | none => exact ⟨rfl, rfl⟩
  | some existing =>
    have hlt := hnewest existing hheld
    simp only [Bool.not_true, Bool.false_eq_true, if_false, if_neg (not_le.mpr hlt)]
    split <;> exact ⟨rfl, rfl⟩

theorem get_hold (hfree : s.Free place) {len : Nat} (record : StoredRecord) (key : RecordKey) :
    (s.hold ⟨place.1, place.2, len⟩ record).get side lz4 faults key = s.get side lz4 faults key := by
  unfold get
  dsimp only [hold]
  split
  · rfl
  · cases hheld : (s.indexes key.column).entryOrGrave key.key.bytes with
    | none => rfl
    | some entry =>
      have hget : (s.indexes key.column).map.get key.key.bytes = some entry := by
        unfold entryOrGrave at hheld
        split at hheld
        · exact hheld
        · cases hheld
      have hother := hfree.unheld key.column key.key.bytes entry hget
      simp only [readRecord, if_neg hother]

theorem insert_refused {lsn : Nat} (hhanded : s.handed < lsn)
    (hrefused : (s.indexes key.column).width.accepts key.key.bytes = false) (loc : Loc) :
    s.insert side key loc lsn = (.ok (), s) := by
  have hshadow : s.shadowLookup side key lsn = .ok false := by simp [shadowLookup, hhanded]
  have hmoved : (s.indexes key.column).insertUnless key.key.bytes ⟨loc, lsn⟩ false =
      (s.indexes key.column, .newer) := by
    simp [insertUnless, hrefused]
  have hsame : s.setIndex key.column (s.indexes key.column) = s := by simp [setIndex]
  simp only [insert, insertMapped, hshadow, hmoved, hsame]
  rfl

def moved (s : PointStore σ) (key : RecordKey) (loc : Loc) (lsn : Nat) : PointStore σ :=
  s.setIndex key.column
    ((s.indexes key.column).setMap ((s.indexes key.column).map.put key.key.bytes ⟨loc, lsn⟩))

theorem insert_newest {lsn : Nat} (hhanded : s.handed < lsn)
    (haccepts : (s.indexes key.column).width.accepts key.key.bytes = true)
    (hcover : isCovered (s.indexes key.column).covers key.key.bytes lsn = false)
    (hnewest : ∀ existing, (s.indexes key.column).map.get key.key.bytes = some existing → existing.lsn < lsn)
    (loc : Loc) :
    s.insert side key loc lsn =
      if ((s.indexes key.column).map.get key.key.bytes).isNone then
        ((side.settle s.behind key lsn).1, { s.moved key loc lsn with behind := (side.settle s.behind key lsn).2 })
      else (.ok (), s.moved key loc lsn) := by
  have hshadow : s.shadowLookup side key lsn = .ok false := by simp [shadowLookup, hhanded]
  obtain ⟨hmap, hpaged⟩ :=
    @insertUnless_newest (s.indexes key.column) key.key.bytes ⟨loc, lsn⟩ haccepts hcover hnewest
  simp only [insert, insertMapped, hshadow, hmap, hpaged]
  rfl

theorem get_moved {loc : Loc} {lsn : Nat} (hserved : (s.write.specs key.column).isSome)
    (haccepts : (s.indexes key.column).width.accepts key.key.bytes = true)
    (hcover : isCovered (s.indexes key.column).covers key.key.bytes lsn = false) (hplaced : loc.segment ≠ 0)
    {codec : Byte} {stored : Str} (hrecord : s.records loc.segment loc.offset = some ⟨key, lsn, codec, stored⟩)
    (behind : σ) :
    { s.moved key loc lsn with behind }.get side lz4 faults key =
      match faults loc.segment loc.offset with
      | some fault => .error fault
      | none => readStored lz4 s.repair loc.segment codec stored := by
  obtain ⟨width, hwidth⟩ := Option.isSome_iff_exists.mp hserved
  have hentry : ((s.indexes key.column).setMap
      ((s.indexes key.column).map.put key.key.bytes ⟨loc, lsn⟩)).entryOrGrave key.key.bytes = some ⟨loc, lsn⟩ := by
    simp [entryOrGrave, setMap, haccepts, SortedMap.get_put]
  have hlive : ((⟨loc, lsn⟩ : Entry).isGrave || ((s.indexes key.column).setMap
      ((s.indexes key.column).map.put key.key.bytes ⟨loc, lsn⟩)).isCoveredKey key.key.bytes lsn) = false := by
    simp [Entry.isGrave, hplaced, isCoveredKey, setMap, hcover]
  simp only [get, moved, setIndex, hwidth, Function.update_self, hentry, hlive, Bool.false_eq_true, if_false,
    readRecord, hrecord]
  cases faults loc.segment loc.offset <;> simp

theorem planPut_ok {w : WriteStore} {stored : Str} {codec : Byte} (h : w.planPut lz4 key payload = .ok (stored, codec)) :
    (w.specs key.column).isSome ∧ admitPayload lz4 (w.codecOf key.column) payload = (stored, codec) := by
  unfold WriteStore.planPut at h
  split at h
  · cases h
  · simp only [bind, Except.bind] at h
    split at h
    · cases h
    · next hcolumn =>
      split at h
      · cases h
      · refine ⟨?_, Except.ok.inj h⟩
        unfold checkColumn at hcolumn
        split at hcolumn
        · next hsome => exact Option.isSome_iff_exists.mpr ⟨_, hsome⟩
        · cases hcolumn

theorem readsBack_iff : s.readsBack lz4 faults place key payload = .ok (some payload) ↔
    faults place.1 place.2 = none ∧ s.Readable lz4 key payload := by
  rw [Readable, ← roundTrips_iff lz4, RoundTrips]
  obtain ⟨stored, codec, hkept⟩ : ∃ stored codec, admitPayload lz4 (s.write.codecOf key.column) payload = (stored, codec) :=
    ⟨_, _, rfl⟩
  simp only [readsBack, hkept, readStored]
  cases faults place.1 place.2 with
  | some fault => simp
  | none =>
  rw [and_iff_right rfl]
  dsimp only
  split
  · next hraw =>
    subst hraw
    obtain rfl := admit_raw lz4 hkept
    exact iff_of_true rfl fun stored' codec' hsame hcoded => absurd (Prod.ext_iff.mp hsame).2.symm hcoded
  · next hcoded =>
    have hround : (∀ stored' codec', (stored, codec) = (stored', codec') → codec' ≠ 0 →
        decode lz4 codec' stored' = some payload) ↔ decode lz4 codec stored = some payload := by
      constructor
      · intro hall
        exact hall stored codec rfl hcoded
      · rintro hback _ _ hsame -
        cases hsame
        exact hback
    rw [hround]
    cases decode lz4 codec stored with
    | some back => simp
    | none => cases s.repair <;> simp

theorem put_unlanded (hfree : s.Free place) (h : ¬ s.Lands lz4 device key payload) :
    ∃ fault, (s.put side lz4 device place key payload).1 = .error fault ∧
      (s.put side lz4 device place key payload).2.get side lz4 faults key = s.get side lz4 faults key := by
  unfold put
  cases hplan : s.write.planPut lz4 key payload with
  | error error => exact ⟨_, rfl, rfl⟩
  | ok planned =>
    obtain ⟨stored, codec⟩ := planned
    dsimp only
    cases hwritten : s.write.appender.place device ⟨key, .data, stored⟩ with
    | mk outcome written =>
      cases outcome with
      | error fault => exact ⟨fault, rfl, rfl⟩
      | ok =>
        dsimp only
        cases hfinish : device.finish written with
        | error fault =>
          refine ⟨fault, rfl, ?_⟩
          have hdrawn : { s with next := s.next + 1 }.Free place := ⟨hfree.placed, hfree.unheld⟩
          exact get_hold hdrawn _ key
        | ok => exact absurd ⟨stored, codec, written, hplan, hwritten, hfinish⟩ h

def down (lz4 : Lz4) (place : Nat × Nat) (s : PointStore σ) (key : RecordKey) (payload : Str) : PointStore σ :=
  let admitted := admitPayload lz4 (s.write.codecOf key.column) payload
  { s with next := s.next + 1 }.hold ⟨place.1, place.2, admitted.1.length⟩ ⟨key, s.next, admitted.2, admitted.1⟩

theorem put_landed (h : s.Lands lz4 device key payload) :
    (s.write.specs key.column).isSome ∧
      s.put side lz4 device place key payload = (s.down lz4 place key payload).insert side key
        ⟨place.1, place.2, (admitPayload lz4 (s.write.codecOf key.column) payload).1.length⟩ s.next := by
  obtain ⟨stored, codec, written, hplan, hwritten, hfinish⟩ := h
  obtain ⟨hserved, hkept⟩ := planPut_ok hplan
  refine ⟨hserved, ?_⟩
  simp only [put, hplan, hwritten, hfinish, down, hkept]

section
variable (hnumbered : s.Numbered) (hfree : s.Free place) (hlands : s.Lands lz4 device key payload)
include hnumbered hfree hlands

theorem put_refused
    (hrefused : (s.indexes key.column).width.accepts key.key.bytes = false) :
    (s.put side lz4 device place key payload).1 = .ok () ∧
      (s.put side lz4 device place key payload).2.get side lz4 faults key = s.get side lz4 faults key := by
  have hdrawn : { s with next := s.next + 1 }.Free place := ⟨hfree.placed, hfree.unheld⟩
  have hinsert := fun loc =>
    @insert_refused σ side (s.down lz4 place key payload) key s.next hnumbered.handed hrefused loc
  rw [(put_landed hlands).2, hinsert]
  exact ⟨rfl, get_hold hdrawn _ key⟩

theorem put_moved
    (haccepts : (s.indexes key.column).width.accepts key.key.bytes = true) :
    ((s.put side lz4 device place key payload).1 = .ok () ↔ ¬ s.SettleFails side key) ∧
      (s.put side lz4 device place key payload).2.get side lz4 faults key =
        s.readsBack lz4 faults place key payload := by
  obtain ⟨hserved, hput⟩ : _ ∧ s.put side lz4 device place key payload = _ := put_landed hlands
  have hcover := hnumbered.uncovered key.column key.key.bytes
  have hinsert := fun loc => @insert_newest σ side (s.down lz4 place key payload) key s.next hnumbered.handed haccepts
    hcover (hnumbered.mapped key.column key.key.bytes) loc
  have hget := fun len behind => @get_moved σ side lz4 faults (s.down lz4 place key payload) key ⟨place.1, place.2, len⟩ s.next
    hserved haccepts hcover hfree.placed _ _ (if_pos ⟨rfl, rfl⟩) behind
  rw [hput, hinsert]
  unfold SettleFails
  split
  · next hnone =>
    refine ⟨?_, hget _ _⟩
    have hempty : (s.indexes key.column).map.get key.key.bytes = none := Option.isNone_iff_eq_none.mp hnone
    show (side.settle s.behind key s.next).1 = .ok () ↔ _
    cases (side.settle s.behind key s.next).1 with
    | ok => simp
    | error fault => simp [hempty]
  · next hsome =>
    have hheld : (s.indexes key.column).map.get key.key.bytes ≠ none :=
      fun hnone => hsome (Option.isNone_iff_eq_none.mpr hnone)
    exact ⟨iff_of_true rfl fun hfails => hheld hfails.1, hget _ _⟩

end

end

/-- A put that lands reads back exactly where its column's width takes the key, its payload survives the codec, the
sealed versions can be booked and its place reads. The index refuses a key of another width and the put still answers;
a failed booking answers an error for a key the map already moved. Where either happens the law holds only if the key
read that way before. -/
theorem acknowledged_put_is_readable_iff (side : SealedSide σ) (lz4 : Lz4) (device : BatchDevice)
    (before after : ReadFaults) (place : Nat × Nat) (s : PointStore σ) (key : RecordKey) (payload : Str)
    (hnumbered : s.Numbered) (hfree : s.Free place) :
    s.Acknowledges side lz4 device before after place key payload ↔
      (¬ s.Lands lz4 device key payload → s.get side lz4 after key = s.get side lz4 before key) ∧
      (s.Lands lz4 device key payload →
        if (s.indexes key.column).width.accepts key.key.bytes then
          (s.SettleFails side key → s.get side lz4 before key = s.readsBack lz4 after place key payload) ∧
            (¬ s.SettleFails side key → after place.1 place.2 = none ∧ s.Readable lz4 key payload)
        else s.get side lz4 after key = .ok (some payload)) := by
  unfold Acknowledges
  by_cases hlands : s.Lands lz4 device key payload
  swap
  · obtain ⟨fault, hfault, hsame⟩ : ∃ fault, (s.put side lz4 device place key payload).1 = .error fault ∧ _ :=
      put_unlanded hfree hlands
    rw [hfault, hsame]
    simp [hlands]
  · simp only [hlands, not_true_eq_false, false_imp_iff, true_and, true_imp_iff]
    split
    · next haccepts =>
      obtain ⟨hok, hget⟩ : ((s.put side lz4 device place key payload).1 = .ok () ↔ _) ∧ _ :=
        put_moved hnumbered hfree hlands haccepts
      rw [hok, hget, readsBack_iff, and_comm]
      refine and_congr_left fun _ => ⟨fun h hfails => ?_, fun h fault hfault => ?_⟩
      · obtain ⟨fault, hfault⟩ : ∃ fault, (s.put side lz4 device place key payload).1 = .error fault := by
          cases hout : (s.put side lz4 device place key payload).1 with
          | ok => exact absurd hfails (hok.mp hout)
          | error fault => exact ⟨fault, rfl⟩
        exact (h fault hfault).symm
      · refine (h (by_contra fun hsettles => ?_)).symm
        rw [hok.mpr hsettles] at hfault
        cases hfault
    · next hrefused =>
      obtain ⟨hok, hget⟩ : (s.put side lz4 device place key payload).1 = .ok () ∧ _ :=
        put_refused hnumbered hfree hlands (Bool.eq_false_of_not_eq_true hrefused)
      rw [hok, hget]
      simp

/-- A store of one column of two byte keys, with nothing in it. -/
def twoByteKeys : PointStore Unit where
  write := { WriteStore.nearlyFull with specs := fun column => if column = 0 then some (.fixed 2) else none }
  repair := .none
  indexes := fun _ => ⟨.fixed 2, .empty, [], 0⟩
  serves := true
  handed := 0
  behind := ()
  records := fun _ _ => none
  next := 1

def nothingSealed (booking : Except WriteFault Unit) : SealedSide Unit where
  find := fun _ _ _ => .ok none
  holdsNewer := fun _ _ _ => .ok false
  settle := fun _ _ _ => (booking, ())

def twoByteKey : RecordKey := ⟨0, ⟨[6, 1], by decide⟩⟩

def oneByteKey : RecordKey := ⟨0, ⟨[6], by decide⟩⟩

def quietDevice : BatchDevice := ⟨fun _ => none, fun _ => .ok (), fun _ => .ok ()⟩

def allReads : ReadFaults := fun _ _ => none

theorem twoByteKeys_numbered : twoByteKeys.Numbered where
  mapped := by
    rintro column key entry hget
    cases hget
  covered := by
    rintro column cover hmem
    cases hmem
  handed := Nat.zero_lt_one

theorem twoByteKeys_free : twoByteKeys.Free (1, 53) where
  placed := Nat.one_ne_zero
  unheld := by
    rintro column key entry hget
    cases hget

/-- A put of a two byte key into that store is acknowledged and readable. -/
theorem two_byte_key_reads_back :
    (twoByteKeys.put (nothingSealed (.ok ())) zeroRuns quietDevice (1, 53) twoByteKey [7]).1 = .ok () ∧
      twoByteKeys.Acknowledges (nothingSealed (.ok ())) zeroRuns quietDevice allReads allReads (1, 53)
        twoByteKey [7] := by
  have haccepts : (twoByteKeys.indexes twoByteKey.column).width.accepts twoByteKey.key.bytes = true := rfl
  refine ⟨by rfl, (acknowledged_put_is_readable_iff (nothingSealed (.ok ())) zeroRuns quietDevice allReads allReads (1, 53)
    twoByteKeys twoByteKey [7] twoByteKeys_numbered twoByteKeys_free).mpr ⟨fun _ => rfl, fun _ => ?_⟩⟩
  rw [if_pos haccepts]
  refine ⟨?_, fun _ => ⟨rfl, .inl (by decide)⟩⟩
  rintro ⟨-, fault, hfault⟩
  cases hfault

/-- A one byte key is acknowledged and reads as missing; a two byte key whose booking fails is refused and reads as
written. -/
theorem short_key_is_acknowledged_and_lost :
    ¬ twoByteKeys.Acknowledges (nothingSealed (.ok ())) zeroRuns quietDevice allReads allReads (1, 53)
        oneByteKey [7] ∧
      ¬ twoByteKeys.Acknowledges (nothingSealed (.error (.io "a footer did not read"))) zeroRuns quietDevice
        allReads allReads (1, 53) twoByteKey [7] := by
  refine ⟨fun h => ?_, fun h => ?_⟩
  · have hlost := h.1 (by rfl)
    revert hlost
    decide +kernel
  · have hread := h.2 (.io "a footer did not read") (by rfl)
    revert hread
    decide +kernel

end PointStore

end Reel
