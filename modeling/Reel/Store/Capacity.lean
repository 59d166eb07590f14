import Reel.Append.Codec
import Reel.Append.Tail

/-!
The maintenance reserve and the two ways a payload comes in: a put, which asks the reserve, and a batch, which is
planned, counted and measured against a segment, and lands on a tail that rolls where it has no room.
-/

set_option autoImplicit false

namespace Reel
open Bytes List RecordWrite

/-- Free-space pressure and the maintenance reserve for one volume. -/
structure GcPressure where
  /-- Bytes the volume may hold, or zero when it is unbounded. -/
  capacityBytes : UInt64
  /-- Room above the ceiling that only compaction may write into. -/
  reserveBytes : UInt64

namespace GcPressure

def isBounded (pressure : GcPressure) : Bool := pressure.capacityBytes != 0

def canAdmitForeground (pressure : GcPressure) (used request : UInt64) : Bool :=
  if !pressure.isBounded then true else
  let ceiling := UInt64.ofNat (pressure.capacityBytes.toNat - pressure.reserveBytes.toNat)
  used + request ≤ ceiling

end GcPressure

/-- How a write fails: the reel refuses it, or the device does. -/
inductive WriteFault where
  | reel (error : ReelError)
  | io (message : String)
  deriving DecidableEq, Repr

/-- A tail's active segment: the bytes claimed in it and the bytes its journal holds. -/
structure ActiveSegment where
  reserved : Nat
  journal : Nat
  terminal : Bool

namespace ActiveSegment

def room (active : ActiveSegment) (target : Nat) : Nat := target - active.journal

def takes (cfg : TailConfig) (active : ActiveSegment) (span : Nat) : Bool :=
  !active.terminal && active.reserved + span + block ≤ active.room cfg.segmentBytes &&
    active.reserved + span ≤ maxSegmentOffset

def fresh (cfg : TailConfig) : ActiveSegment := ⟨cfg.headerSpan, 0, false⟩

end ActiveSegment

/-- What the device answers a batch: at the swap that leaves so many segments, at its write, and at the sync and the
index update behind it. -/
structure BatchDevice where
  swap : Nat → Option String
  write : List Planned → Except WriteFault Unit
  finish : List Planned → Except WriteFault Unit

def Planned.span (planned : Planned) : Nat :=
  RecordHeader.spanIn ⟨UInt32.ofNat planned.payload.length, 0, 0, planned.flags, planned.key, 0⟩ .keyless

/-- One append tail without another writer. The segments it can still be given are its spare and one for every
number the reel has not drawn. -/
structure Appender where
  cfg : TailConfig
  active : ActiveSegment
  segmentsLeft : Nat

namespace Appender

/-- Place a run in the active segment, rolling while it takes none. The answer comes with the records that were
written. -/
def placeLoop (device : BatchDevice) (cfg : TailConfig) (span : Nat) (records : List Planned) :
    ActiveSegment → Nat → Except WriteFault Unit × List Planned
  | active, left =>
    if active.takes cfg span then (device.write records, records) else
    match left with
    | 0 => (.error (.reel (.rejected "reel segment numbers exhausted at 4294967295")), [])
    | left + 1 =>
      match device.swap left with
      | some message => (.error (.io message), [])
      | none => placeLoop device cfg span records (.fresh cfg) left

def runSpan (a : Appender) (records : List Planned) : Nat :=
  a.cfg.reservedSpan (records.map Planned.span).sum

def placeRun (device : BatchDevice) (a : Appender) (records : List Planned) : Except WriteFault Unit × List Planned :=
  let span := a.runSpan records
  if a.cfg.segmentBytes < a.cfg.headerSpan + span + block then
    (.error (.reel (.rejected s!"a batch of {span} bytes does not fit a reel segment")), [])
  else placeLoop device a.cfg span records a.active a.segmentsLeft

def placeBatch (device : BatchDevice) (a : Appender) (records : List Planned) :
    Except WriteFault Unit × List Planned :=
  let count := records.length
  if mostCounted < count then
    (.error (.reel (.rejected s!"a batch of {count} records does not fit a reel segment")), [])
  else a.placeRun device records

/-- The tail refuses the records by itself: there are too many, they span more than a segment, or they need another
segment where none is left. -/
def Refuses (a : Appender) (records : List Planned) : Prop :=
  mostCounted < records.length ∨ a.cfg.segmentBytes < a.cfg.headerSpan + a.runSpan records + block ∨
    a.active.takes a.cfg (a.runSpan records) = false ∧ a.segmentsLeft = 0

end Appender

/-- What a write reads of the store. -/
structure WriteStore where
  isReadOnly : Bool
  specs : Specs
  codecOf : ColumnId → Codec
  /-- Bytes the volume holds. -/
  footprint : UInt64
  pressure : GcPressure
  /-- The tail the write is routed to. -/
  appender : Appender

namespace WriteStore

def checkCapacity (s : WriteStore) (requestBytes : UInt64) : Except ReelError Unit :=
  let used := s.footprint
  if s.pressure.canAdmitForeground used requestBytes then .ok () else
  .error (.rejected (s!"the volume holds {used} bytes and {requestBytes} more would pass what " ++
    "is left for compaction to work in"))

def planPut (lz4 : Lz4) (s : WriteStore) (key : RecordKey) (payload : Str) : Except ReelError (Str × Byte) :=
  if s.isReadOnly then .error readOnly else do
  checkColumn s.specs key
  s.checkCapacity (UInt64.ofNat payload.length)
  return admitPayload lz4 (s.codecOf key.column) payload

def stores (lz4 : Lz4) (s : WriteStore) (column : ColumnId) (payload : Str) : Str :=
  (admitPayload lz4 (s.codecOf column) payload).1

/-- Apply a batch as one reservation and one write. The answer comes with the records that were written. -/
def applyBatch (lz4 : Lz4) (device : BatchDevice) (s : WriteStore) (writes : List RecordWrite) :
    Except WriteFault Unit × List Planned :=
  match planBatch s.isReadOnly s.specs (s.stores lz4) writes with
  | .error error => (.error (.reel error), [])
  | .ok none => (.ok (), [])
  | .ok (some planned) =>
    match s.appender.placeBatch device (planned.filterMap id) with
    | (.error fault, written) => (.error fault, written)
    | (.ok (), written) => (device.finish written, written)

end WriteStore

def RecordWrite.key : RecordWrite → RecordKey
  | .put key _ => key
  | .delete key => key
  | .deleteRange start _ => start

def RecordWrite.putBytes : RecordWrite → Nat
  | .put _ payload => payload.length
  | .delete _ => 0
  | .deleteRange _ _ => 0

def RecordWrite.record (codec : ColumnId → Str → Str) : RecordWrite → Option Planned
  | .put key payload => some ⟨key, .data, codec key.column payload⟩
  | .delete key => some ⟨key, .tombstone, []⟩
  | .deleteRange start fin =>
    if fin.any (· ≤ start.key.bytes) then none else some ⟨start, .rangeTombstone, fin.getD []⟩

section plan
variable {specs : Specs} {codec : ColumnId → Str → Str}

theorem planWrite_served {write : RecordWrite} (h : specs write.key.column ≠ none) :
    planWrite specs codec write = .ok (write.record codec) := by
  have hcheck : checkColumn specs write.key = .ok () := by
    unfold checkColumn
    split
    · rfl
    · next hnone => exact absurd hnone h
  cases write with
  | put key payload => simp only [planWrite, RecordWrite.key] at hcheck ⊢; rw [hcheck]; rfl
  | delete key => simp only [planWrite, RecordWrite.key] at hcheck ⊢; rw [hcheck]; rfl
  | deleteRange start fin =>
    simp only [planWrite, RecordWrite.key, record] at hcheck ⊢
    rw [hcheck]
    simp only [bind, Except.bind]
    split <;> rfl

theorem planWrite_unserved {write : RecordWrite} (h : specs write.key.column = none) :
    ∃ text, planWrite specs codec write = .error (.rejected text) := by
  have hcheck : ∃ text, checkColumn specs write.key = .error (.rejected text) := by
    unfold checkColumn
    rw [h]
    exact ⟨_, rfl⟩
  obtain ⟨text, hcheck⟩ := hcheck
  refine ⟨text, ?_⟩
  cases write <;> (simp only [planWrite, RecordWrite.key] at hcheck ⊢; rw [hcheck]; rfl)

theorem mapM_planWrite_served {writes : List RecordWrite} (h : ∀ write ∈ writes, specs write.key.column ≠ none) :
    writes.mapM (planWrite specs codec) = .ok (writes.map (record codec)) := by
  induction writes with
  | nil => rfl
  | cons write rest ih =>
    obtain ⟨hwrite, hrest⟩ := forall_mem_cons.mp h
    rw [mapM_cons, planWrite_served hwrite, ih hrest]
    rfl

theorem mapM_planWrite_unserved {writes : List RecordWrite} (h : ∃ write ∈ writes, specs write.key.column = none) :
    ∃ text, writes.mapM (planWrite specs codec) = .error (.rejected text) := by
  induction writes with
  | nil => simp at h
  | cons write rest ih =>
    rw [mapM_cons]
    by_cases hwrite : specs write.key.column = none
    · obtain ⟨text, htext⟩ : ∃ text, planWrite specs codec write = .error (.rejected text) :=
        planWrite_unserved hwrite
      exact ⟨text, by rw [htext]; rfl⟩
    · obtain ⟨text, htext⟩ := ih (by simpa [hwrite] using h)
      exact ⟨text, by rw [planWrite_served hwrite, htext]; rfl⟩

end plan

/-- Refused by the reel with nothing written. -/
def Refused (outcome : Except WriteFault Unit × List Planned) : Prop :=
  ∃ text, outcome = (.error (.reel (.rejected text)), [])

theorem not_refused_of_written {outcome : Except WriteFault Unit × List Planned} (h : outcome.2 ≠ []) :
    ¬ Refused outcome := by
  rintro ⟨text, rfl⟩
  exact h rfl

theorem ActiveSegment.fresh_takes {cfg : TailConfig} {span : Nat}
    (h : ¬ cfg.segmentBytes < cfg.headerSpan + span + block) : (fresh cfg).takes cfg span = true := by
  have hfits := cfg.fits
  have hoffset : maxSegmentOffset + 1 = 2 ^ 32 := rfl
  have hroom : cfg.headerSpan + span + block ≤ (fresh cfg).room cfg.segmentBytes := by
    simp only [fresh, room]
    omega
  have hend : cfg.headerSpan + span ≤ maxSegmentOffset := by omega
  exact Bool.and_eq_true_iff.mpr ⟨decide_eq_true hroom, decide_eq_true hend⟩

namespace Appender

theorem refused_placeLoop_iff (device : BatchDevice) {cfg : TailConfig} {span : Nat} {records : List Planned}
    (hrecords : records ≠ []) (hspan : ¬ cfg.segmentBytes < cfg.headerSpan + span + block) (active : ActiveSegment)
    (left : Nat) :
    Refused (placeLoop device cfg span records active left) ↔ active.takes cfg span = false ∧ left = 0 := by
  unfold placeLoop
  split
  · next htakes => exact iff_of_false (not_refused_of_written hrecords) (by simp [htakes])
  · next htakes =>
    cases left with
    | zero => exact iff_of_true ⟨_, rfl⟩ ⟨Bool.eq_false_of_not_eq_true htakes, rfl⟩
    | succ left =>
      dsimp only
      split
      · simp [Refused]
      · have hfresh : placeLoop device cfg span records (.fresh cfg) left = (device.write records, records) := by
          unfold placeLoop
          rw [if_pos (ActiveSegment.fresh_takes hspan)]
        rw [hfresh]
        exact iff_of_false (not_refused_of_written hrecords) (by simp)

section
variable {device : BatchDevice} {records written : List Planned}

theorem placeLoop_written {cfg : TailConfig} {span : Nat}
    {active : ActiveSegment} {left : Nat} (h : placeLoop device cfg span records active left = (.ok (), written)) :
    written = records := by
  induction left generalizing active with
  | zero =>
    unfold placeLoop at h
    split at h
    · exact (congrArg Prod.snd h).symm
    · cases h
  | succ left ih =>
    unfold placeLoop at h
    split at h
    · exact (congrArg Prod.snd h).symm
    · dsimp only at h
      split at h
      · cases h
      · exact ih h

theorem placeBatch_written {a : Appender}
    (h : a.placeBatch device records = (.ok (), written)) : written = records := by
  unfold placeBatch placeRun at h
  dsimp only at h
  split at h
  · cases h
  · split at h
    · cases h
    · exact placeLoop_written h

end

theorem refused_placeBatch_iff (device : BatchDevice) (a : Appender) {records : List Planned} (hrecords : records ≠ []) :
    Refused (a.placeBatch device records) ↔ a.Refuses records := by
  unfold placeBatch Refuses
  dsimp only
  split
  · next hcount => exact iff_of_true ⟨_, rfl⟩ (.inl hcount)
  · next hcount =>
    unfold placeRun
    dsimp only
    split
    · next hspan => exact iff_of_true ⟨_, rfl⟩ (.inr (.inl hspan))
    · next hspan =>
      rw [refused_placeLoop_iff device hrecords hspan]
      simp [hcount, hspan]

end Appender

namespace WriteStore
variable (lz4 : Lz4) (device : BatchDevice) (s : WriteStore) (writes : List RecordWrite)

def records : List Planned := writes.filterMap (record (s.stores lz4))

/-- A batch is refused whatever the footprint: the store is read only, a write's column is not served, or the tail
refuses the records. -/
def RefusesOtherwise : Prop :=
  s.isReadOnly = true ∨ (∃ write ∈ writes, s.specs write.key.column = none) ∨
    s.records lz4 writes ≠ [] ∧ s.appender.Refuses (s.records lz4 writes)

/-- A batch whose puts the reserve refuses as one put is refused, and nothing of it is written. -/
def ReserveBinds : Prop :=
  s.checkCapacity (UInt64.ofNat (writes.map putBytes).sum) ≠ .ok () →
    Refused (s.applyBatch lz4 device writes)

variable {lz4 device s writes}

theorem applyBatch_unplanned {error : ReelError}
    (h : planBatch s.isReadOnly s.specs (s.stores lz4) writes = .error error) :
    s.applyBatch lz4 device writes = (.error (.reel error), []) := by
  simp only [applyBatch, h]

theorem applyBatch_nothing (h : planBatch s.isReadOnly s.specs (s.stores lz4) writes = .ok none) :
    s.applyBatch lz4 device writes = (.ok (), []) := by
  simp only [applyBatch, h]

theorem refused_planned_iff {planned : List (Option Planned)}
    (h : planBatch s.isReadOnly s.specs (s.stores lz4) writes = .ok (some planned)) (hsome : planned.filterMap id ≠ []) :
    Refused (s.applyBatch lz4 device writes) ↔ s.appender.Refuses (planned.filterMap id) := by
  rw [← Appender.refused_placeBatch_iff device s.appender hsome]
  simp only [applyBatch, h]
  split
  · next fault written hplaced => rw [hplaced]
  · next written hplaced =>
    have hnone : written ≠ [] := by
      rw [Appender.placeBatch_written hplaced]
      exact hsome
    rw [hplaced]
    exact iff_of_false (not_refused_of_written hnone) (not_refused_of_written hnone)

section
variable {codec : ColumnId → Str → Str} {specs : Specs}

theorem planBatch_served
    (hserved : ∀ write ∈ writes, specs write.key.column ≠ none) :
    planBatch false specs codec writes =
      if writes.filterMap (record codec) = [] then .ok none
      else .ok (some (writes.map (record codec))) := by
  have hnone : (writes.map (record codec)).all Option.isNone = true ↔
      writes.filterMap (record codec) = [] := by
    simp [filterMap_eq_nil_iff]
  cases writes with
  | nil => rfl
  | cons write rest =>
    simp only [planBatch, Bool.false_eq_true, if_false, isEmpty_cons, mapM_planWrite_served hserved, bind, Except.bind]
    by_cases hempty : (write :: rest).filterMap (record codec) = []
    · rw [if_pos hempty, if_pos (hnone.mpr hempty)]
    · rw [if_neg hempty, if_neg fun hall => hempty (hnone.mp hall)]

theorem planBatch_unserved
    (h : ∃ write ∈ writes, specs write.key.column = none) :
    ∃ text, planBatch false specs codec writes = .error (.rejected text) := by
  obtain ⟨text, htext⟩ : ∃ text, writes.mapM (planWrite specs codec) = .error (.rejected text) :=
    mapM_planWrite_unserved h
  have hsome : writes.isEmpty = false := by
    obtain ⟨write, hwrite, -⟩ := h
    cases writes with
    | nil => cases hwrite
    | cons => rfl
  refine ⟨text, ?_⟩
  simp only [planBatch, Bool.false_eq_true, if_false, hsome, htext, bind, Except.bind]

end

theorem refused_applyBatch_iff (lz4 : Lz4) (device : BatchDevice) (s : WriteStore) (writes : List RecordWrite) :
    Refused (s.applyBatch lz4 device writes) ↔ s.RefusesOtherwise lz4 writes := by
  unfold RefusesOtherwise
  cases hro : s.isReadOnly with
  | true =>
    have hplan : planBatch s.isReadOnly s.specs (s.stores lz4) writes = .error readOnly := by
      rw [hro]
      rfl
    exact iff_of_true ⟨_, applyBatch_unplanned hplan⟩ (.inl rfl)
  | false =>
    by_cases hserved : ∃ write ∈ writes, s.specs write.key.column = none
    · obtain ⟨text, hplan⟩ : ∃ text, planBatch s.isReadOnly s.specs (s.stores lz4) writes = .error (.rejected text) := by
        rw [hro]
        exact planBatch_unserved hserved
      exact iff_of_true ⟨text, applyBatch_unplanned hplan⟩ (.inr (.inl hserved))
    · have hall : ∀ write ∈ writes, s.specs write.key.column ≠ none := by
        intro write hwrite hnone
        exact hserved ⟨write, hwrite, hnone⟩
      have hplan : planBatch s.isReadOnly s.specs (s.stores lz4) writes =
          if s.records lz4 writes = [] then .ok none
          else .ok (some (writes.map (record (s.stores lz4)))) := by
        rw [hro]
        exact planBatch_served hall
      by_cases hempty : s.records lz4 writes = []
      · rw [if_pos hempty] at hplan
        rw [applyBatch_nothing hplan]
        simp [Refused, hserved, hempty]
      · rw [if_neg hempty] at hplan
        have hfilter : (writes.map (record (s.stores lz4))).filterMap id = s.records lz4 writes := by
          rw [filterMap_map]
          rfl
        rw [refused_planned_iff hplan (by rw [hfilter]; exact hempty), hfilter]
        simp [hserved, hempty]

/-- The reserve binds a batch as it binds a put exactly where it admits the batch's bytes as one put, or where the
batch is refused for another cause: the planning of a batch never asks the reserve. -/
theorem reserve_binds_batch_iff (lz4 : Lz4) (device : BatchDevice) (s : WriteStore) (writes : List RecordWrite) :
    s.ReserveBinds lz4 device writes ↔
      s.pressure.canAdmitForeground s.footprint (UInt64.ofNat (writes.map putBytes).sum) = true ∨
        s.RefusesOtherwise lz4 writes := by
  rw [ReserveBinds, refused_applyBatch_iff]
  unfold checkCapacity
  by_cases hkept : s.pressure.canAdmitForeground s.footprint (UInt64.ofNat (writes.map putBytes).sum) = true
  · simp [hkept]
  · simp [hkept]

/-- A store of one column with 85 of its 100 bytes used and ten in reserve. -/
def nearlyFull : WriteStore where
  isReadOnly := false
  specs := fun column => if column = 0 then some .varying else none
  codecOf := fun _ => .none
  footprint := 85
  pressure := ⟨100, 10⟩
  appender := ⟨⟨65536, false, ⟨replicate 16 0, rfl⟩, by decide, by decide⟩, ⟨53, 0, false⟩, 1⟩

/-- Ten bytes the reserve refuses as a put are written by a batch of that one put. -/
theorem nearlyFull_takes_batch :
    nearlyFull.checkCapacity 10 ≠ .ok () ∧
      ¬ nearlyFull.ReserveBinds zeroRuns ⟨fun _ => none, fun _ => .ok (), fun _ => .ok ()⟩
        [.put ⟨0, ⟨[1], by decide⟩⟩ (replicate 10 0)] := by
  have hrefused : nearlyFull.checkCapacity 10 ≠ .ok () := by
    intro hok
    cases hok
  refine ⟨hrefused, fun hbinds => ?_⟩
  exact not_refused_of_written (by decide +kernel) (hbinds hrefused)

end WriteStore

end Reel
