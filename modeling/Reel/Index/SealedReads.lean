import Reel.Index.Agreement

/-!
What a spot lookup and a compaction's liveness test make of a key whose newest version
is sealed, under any hash of the keys: right unless the one live slot that holds the
key's bits is another key's, which takes an overwrite of that other key marking a slot
displaced without reading whose it was.
-/

set_option autoImplicit false

namespace Reel
open Bytes StableSort

namespace Volume
variable {hash : Str → UInt64} {strict : Bool} {v v' : Volume}

/-- A put that is its key's newest version, which no cover took and the map does not hold. -/
structure LiveSealed (v : Volume) (id : Nat) (row : Row) : Prop where
  newest : v.Newest id row
  data : row.kind = .data
  absent : v.index.map.get row.key = none
  uncovered : isCovered v.index.covers row.key row.lsn = false

variable {id : Nat} {row : Row}

theorem LiveSealed.mapped (h : v.LiveSealed id row) :
    v.mapped row.key = none := by
  simp [Volume.mapped, ColumnIndex.entryOrGrave, h.absent]

theorem Sound.live_slot (h : v.Sound hash strict) (hl : v.LiveSealed id row) :
    Holds v.noted id row ∧ ∃ slot ∈ v.spot.slots, Points hash slot id row ∧
      (strict = true → slot.isDisplaced = false) := by
  have hway := h.absent hl.newest (h.accepted hl.newest.holds hl.data) hl.absent
  simp only [Found, hl.data, hl.uncovered, Bool.false_eq_true, false_or] at hway
  exact hway

theorem isAt_iff {slot : Slot} :
    slot.isAt (row.loc id) = true ↔ slot.place = (id, row.offset) := by
  simp [Slot.isAt, Slot.place, Row.loc]

theorem Sound.isAt_iff_same (h : v.Sound hash strict)
    (hl : v.LiveSealed id row) {slot : Slot} (hslot : slot ∈ v.spot.slots)
    (hlive : slot.isDisplaced = false) :
    slot.isAt (row.loc id) = true ↔
      ∃ head, headIn v.segments row.key slot.segment slot.offset = .same head := by
  obtain ⟨j, other, hp, hrow, -, hdata, hnewest⟩ := h.slots slot hslot
  have hhead := slot_head h.laid.toSited hp (hrow.mono v.noted_subset) row.key
  rw [isAt_iff, hp.place, hhead]
  constructor
  · intro hplace
    obtain ⟨rfl, hoff⟩ := Prod.mk.inj hplace
    obtain rfl := h.laid.row_eq (hrow.mono v.noted_subset) hl.newest.holds hoff
    exact ⟨_, headFor_of_data hdata⟩
  · rintro ⟨head, hh⟩
    obtain ⟨hk, -, -⟩ := headFor_same hh
    obtain ⟨rfl, rfl⟩ := Newest.unique h.laid (hnewest hlive).1 hl.newest hk
    rfl

variable {cache : Cache} {key : Str}

theorem Sound.spotRead_eq (h : v.Sound hash strict)
    (hm : v.mapped key = none) : (v.spotRead hash cache key).1 =
      v.spotFinish key false (v.spot.read (v.sources hash cache) key true).1 := by
  obtain ⟨hq, -⟩ := h.read_spec cache key
  simp [Volume.spotRead, hm, hq.slots]

variable {lsn : Nat}

theorem Sound.read_newest (h : v.Sound hash strict)
    (hread : (v.spot.read (v.sources hash cache) key true).1 = .found lsn ∨
      (v.spot.read (v.sources hash cache) key true).1 = .newest lsn) :
    ∃ id row, v.Newest id row ∧ row.kind = .data ∧ row.key = key ∧ row.lsn = lsn := by
  obtain ⟨-, hans, -⟩ := h.read_spec cache key
  have hown : ∃ slot ∈ v.spot.matching (v.sources hash cache) key, slot.isDisplaced = false ∧
      ∃ head, headIn v.segments key slot.segment slot.offset = .same head ∧ head.lsn = lsn := by
    rcases hread with hl | hl
    · rw [hl] at hans
      exact hans
    · rw [hl] at hans
      exact hans
  obtain ⟨slot, hslot, hlive, head, hh, rfl⟩ := hown
  obtain ⟨id, row, -, -, hdata, hk, rfl, hnewest⟩ := h.slot_row (mem_slotMatches.mp hslot).1 hh
  exact ⟨id, row, (hnewest hlive).1, hdata, hk, rfl⟩

theorem spotFinish_found {lookup : SpotColumn.Lookup}
    (h : v.spotFinish key false lookup = .found lsn ∨ v.spotFinish key false lookup = .newest lsn) :
    lookup = .found lsn ∨ lookup = .newest lsn := by
  cases lookup with
  | found n =>
    by_cases hc : v.index.isCoveredKey key n = true
    · simp [spotFinish, hc] at h
    · simpa [spotFinish, hc] using h
  | newest n =>
    by_cases hc : v.index.covers.isEmpty = true
    · simpa [spotFinish, hc] using h
    · simp [spotFinish, hc] at h
  | missing | unsettled => simp [spotFinish] at h

theorem Sound.spotRead_newest (h : v.Sound hash strict)
    (hread : (v.spotRead hash cache key).1 = .found lsn ∨
      (v.spotRead hash cache key).1 = .newest lsn) :
    ∃ id row, v.Newest id row ∧ row.kind = .data ∧ row.key = key ∧ row.lsn = lsn := by
  cases hm : v.mapped key with
  | some answer => cases answer <;> simp [Volume.spotRead, hm] at hread
  | none =>
    rw [h.spotRead_eq hm] at hread
    exact h.read_newest (spotFinish_found hread)

theorem liveElsewhere_iff {slots : List Slot} {bits : UInt64} {loc : Loc} :
    liveElsewhere slots bits loc = true ↔
      ∃ slot, soleLive (slotMatches slots bits) = some slot ∧ slot.isAt loc = false := by
  simp [liveElsewhere, Option.any_eq_true]

/-- A lookup misses a live sealed put exactly when the one live slot with its bits points elsewhere. -/
theorem Sound.spotRead_missing_iff (h : v.Sound hash strict)
    (hl : v.LiveSealed id row) (cache : Cache) :
    (v.spotRead hash cache row.key).1 = .missing ↔
      liveElsewhere v.spot.slots (hash row.key) (row.loc id) = true := by
  obtain ⟨hq, hans, hmiss⟩ := h.read_spec cache row.key
  have hfinish : (v.spotRead hash cache row.key).1 = .missing ↔
      (v.spot.read (v.sources hash cache) row.key true).1 = .missing := by
    rw [h.spotRead_eq hl.mapped]
    cases hr : (v.spot.read (v.sources hash cache) row.key true).1 with
    | found lsn =>
      obtain ⟨_, other, hn, -, hk, rfl⟩ := h.read_newest (Or.inl hr)
      obtain ⟨-, rfl⟩ := Newest.unique h.laid hn hl.newest hk
      simp [spotFinish, ColumnIndex.isCoveredKey, hl.uncovered]
    | newest lsn =>
      simp only [spotFinish]
      split <;> simp
    | missing | unsettled => simp [spotFinish]
  rw [hfinish, liveElsewhere_iff]
  have hsole : ∀ slot, soleLive (slotMatches v.spot.slots (hash row.key)) = some slot →
      (slot.isAt (row.loc id) = false ↔
        ∀ head, headIn v.segments row.key slot.segment slot.offset ≠ .same head) := by
    intro slot hs
    obtain ⟨hin, hlive, -⟩ := SpotColumn.soleLive_eq_some hs
    have := h.isAt_iff_same hl (mem_slotMatches.mp hin).1 hlive
    rw [← Bool.not_eq_true, this, not_exists]
  constructor
  · intro hmissing
    rw [hmissing] at hans
    rcases hans with hnone | ⟨slot, hs, hno⟩
    · obtain ⟨hnoted, slot, hslot, hp, -⟩ := h.live_slot hl
      have hhead := slot_head h.laid.toSited hp hl.newest.holds row.key
      rw [headFor_of_data hl.data] at hhead
      exact absurd hhead (hnone slot (mem_slotMatches.mpr ⟨hslot, hp.bits⟩) _)
    · exact ⟨slot, hs, (hsole slot hs).mpr hno⟩
  · rintro ⟨slot, hs, hat⟩
    obtain ⟨hin, -, -⟩ := SpotColumn.soleLive_eq_some hs
    obtain ⟨_, _, hp, -⟩ := h.slots slot (mem_slotMatches.mp hin).1
    exact hmiss slot hs hp.isGrave ((hsole slot hs).mp hat)

section
variable (h : v.Sound hash strict) (hr : v.Ranged) (hl : v.LiveSealed id row)
include h hr hl

theorem Sound.get_live : v.get hash row.key = some ⟨row.loc id, row.lsn⟩ := by
  obtain ⟨hnoted, -⟩ := h.live_slot hl
  have hid : id ≠ 0 := by
    obtain ⟨segment, hs, rfl, -⟩ := hl.newest.holds
    exact h.laid.ids_pos segment hs
  obtain ⟨found, hfound, hwalk, -⟩ := walkAnswer_of_absent h.laid hl.absent
  rw [get_eq_walkAnswer h hr, hwalk, h.standing_live hr hl.newest hnoted hl.data hfound,
    standing_some hid, if_pos]
  · simp [Row.entry, hl.data]
  · simp [hl.data, ColumnIndex.isCoveredKey, hl.uncovered]

theorem Sound.isLiveAt_eq : v.isLiveAt hash row.key (row.loc id) row.lsn =
      !liveElsewhere v.spot.slots (hash row.key) (row.loc id) := by
  have hcovered : v.index.isCoveredKey row.key row.lsn = false := by
    simp [ColumnIndex.isCoveredKey, hl.uncovered]
  unfold isLiveAt surelyAt surelyElsewhere
  simp only [hl.mapped, hcovered, h.get_live hr hl, Bool.not_false, Bool.and_true]
  unfold onlyAt liveElsewhere
  cases soleLive (slotMatches v.spot.slots (hash row.key)) with
  | none => simp
  | some slot => cases hat : slot.isAt (row.loc id) <;> simp [hat]

end

theorem Sound.not_elsewhere (h : v.Sound hash true)
    (hl : v.LiveSealed id row) :
    liveElsewhere v.spot.slots (hash row.key) (row.loc id) = false := by
  rw [← Bool.not_eq_true, liveElsewhere_iff]
  rintro ⟨sole, hs, hat⟩
  obtain ⟨-, slot, hslot, hp, hlive⟩ := h.live_slot hl
  obtain ⟨-, -, honly⟩ := SpotColumn.soleLive_eq_some hs
  obtain rfl := honly slot (mem_slotMatches.mpr ⟨hslot, hp.bits⟩) (hlive rfl)
  rw [isAt_iff.mpr hp.place] at hat
  cases hat

def MarksSafe (hash : Str → UInt64) (v : Volume) : Step → Prop
  | .put _ key _ _ _ | .delete _ key _ _ => v.index.width.accepts key = true →
      v.index.map.get key = none → v.MarksOwn hash key v.next
  | _ => True

instance (read : HeadRead) : Decidable (∃ head, read = .same head) :=
  decidable_of_iff (read ≠ .other ∧ read ≠ .missing ∧ read ≠ .cold) (by cases read <;> simp)

instance (hash : Str → UInt64) (v : Volume) (key : Str) (newer : Nat) : Decidable (v.MarksOwn hash key newer) :=
  inferInstanceAs (Decidable (∀ slot ∈ _, _))

instance (hash : Str → UInt64) (v : Volume) : (action : Step) → Decidable (v.MarksSafe hash action)
  | .put _ key _ _ _ | .delete _ key _ _ => inferInstanceAs (Decidable (v.index.width.accepts key = true →
      v.index.map.get key = none → v.MarksOwn hash key v.next))
  | .openTail _ | .deleteRange .. | .foreign _ | .sealTail _ | .holdSealed | .handOver | .sweepCovers _
  | .pruneTombstones _ | .rebookOwed .. | .scrub _ | .spotRead .. | .kick _ => inferInstanceAs (Decidable True)

theorem StepOk.marksSafe {action : Step} (h : v.StepOk action) (hm : v.MarksSafe hash action) :
    v.StepSafe hash true action := by
  cases action <;> simp_all [StepOk, MarksSafe, StepSafe]

/-- In every run whose puts and range ends fit the column and whose prunes are safe, a lookup
yields only newest versions, and it and the liveness test lose a live sealed put exactly when the
one live slot with its bits points elsewhere, which never happens while marks are safe. -/
theorem sealed_lookups (hash : Str → UInt64) (width : KeyWidth) (next : Nat) (steps : List Step)
    (v : Volume) (hok : Runs.Meets (step hash) StepOk (start width next) steps)
    (hrun : Runs.run (step hash) (start width next) steps = some v) :
    (∀ cache key lsn, (v.spotRead hash cache key).1 = .found lsn ∨
        (v.spotRead hash cache key).1 = .newest lsn →
      ∃ id row, v.Newest id row ∧ row.kind = .data ∧ row.key = key ∧ row.lsn = lsn) ∧
    (∀ id row, v.LiveSealed id row →
      (∀ cache, (v.spotRead hash cache row.key).1 = .missing ↔
        liveElsewhere v.spot.slots (hash row.key) (row.loc id) = true) ∧
      (v.isLiveAt hash row.key (row.loc id) row.lsn = false ↔
        liveElsewhere v.spot.slots (hash row.key) (row.loc id) = true)) ∧
    (Runs.Meets (step hash) (MarksSafe hash) (start width next) steps →
      ∀ id row, v.LiveSealed id row →
        (∀ cache, (v.spotRead hash cache row.key).1 ≠ .missing) ∧
        v.isLiveAt hash row.key (row.loc id) row.lsn = true) := by
  obtain ⟨h, hr⟩ := sound_run hok hrun
  refine ⟨fun cache key lsn => h.spotRead_newest, fun id row hl => ⟨h.spotRead_missing_iff hl, ?_⟩, ?_⟩
  · rw [h.isLiveAt_eq hr hl, Bool.not_eq_false']
  · intro hmarks id row hl
    have hstrict : v.Sound hash true := Runs.invariant_run (fun v => v.Sound hash true)
      (fun _ _ _ h hok hstep => h.step (hok.1.marksSafe hok.2) hstep)
      (sound_start hash true width next) (hok.and hmarks) hrun
    have hown := hstrict.not_elsewhere hl
    exact ⟨fun cache => by simp [h.spotRead_missing_iff hl, hown], by simp [h.isLiveAt_eq hr hl, hown]⟩

def handedOver (id : Nat) (key : Str) : List Step :=
  [.openTail id, .put id key 0 1 .warm, .sealTail id, .holdSealed, .handOver]

/-- A key put again once both it and another key are sealed: the second put of it marks its own slot. -/
def rewritten : List Step := handedOver 1 [1, 1] ++ handedOver 2 [2, 2] ++ handedOver 3 [1, 1]

def bitsApart (key : Str) : UInt64 := if key = [2, 2] then 0xFFFFFFFFFFFFFFFF else 0

theorem newest_of_forall {v : Volume} (hholds : Holds v.segments id row) (hpoint : row.kind ≠ .rangeTombstone)
    (h : ∀ segment ∈ v.segments, ∀ other ∈ segment.rows, other.kind ≠ .rangeTombstone → other.key = row.key →
      other.lsn ≤ row.lsn) : v.Newest id row where
  holds := hholds
  point := hpoint
  newest := by
    rintro j other ⟨segment, hs, -, hrow⟩
    exact h segment hs other hrow

theorem rewritten_live : ∃ v, Runs.run (step bitsApart) (start (.fixed 2) 1) rewritten = some v ∧
    v.LiveSealed 2 ⟨[2, 2], 2, 0, 1, .data⟩ ∧ v.LiveSealed 3 ⟨[1, 1], 3, 0, 1, .data⟩ := by
  refine ⟨_, rfl, ⟨newest_of_forall ⟨⟨2, [⟨[2, 2], 2, 0, 1, .data⟩], 2⟩, ?_⟩ ?_ ?_, rfl, ?_, ?_⟩,
    ⟨newest_of_forall ⟨⟨3, [⟨[1, 1], 3, 0, 1, .data⟩], 3⟩, ?_⟩ ?_ ?_, rfl, ?_, ?_⟩⟩ <;> decide +kernel

theorem sealed_lookups_of_rewritten : ∃ v, Runs.run (step bitsApart) (start (.fixed 2) 1) rewritten = some v ∧
    (∀ cache, (v.spotRead bitsApart cache [2, 2]).1 ≠ .missing ∧ (v.spotRead bitsApart cache [1, 1]).1 ≠ .missing) ∧
      v.isLiveAt bitsApart [2, 2] ⟨2, 0, 1⟩ 2 = true ∧ v.isLiveAt bitsApart [1, 1] ⟨3, 0, 1⟩ 3 = true := by
  obtain ⟨v, hrun, hother, hagain⟩ := rewritten_live
  have hfound := (sealed_lookups bitsApart (.fixed 2) 1 rewritten v (by decide +kernel) hrun).2.2 (by decide +kernel)
  obtain ⟨hread, hlive⟩ := hfound 2 _ hother
  obtain ⟨hread', hlive'⟩ := hfound 3 _ hagain
  exact ⟨v, hrun, fun cache => ⟨hread cache, hread' cache⟩, hlive, hlive'⟩

/-- Shared bits lose a sealed key: the second key's put marks the first's slot unread, and once the second is
handed over its slot is the one live slot of both. So does a put under a key the column cannot hold. -/
theorem shared_bits_lose_a_key :
    (∃ v, Runs.run (step fun _ => 0) (start (.fixed 2) 1) (handedOver 1 [1, 1] ++ handedOver 2 [2, 2]) = some v ∧
      v.get (fun _ => 0) [1, 1] = some ⟨⟨1, 0, 1⟩, 1⟩ ∧ v.index.map.get [1, 1] = none ∧
      (v.spotRead (fun _ => 0) .warm [1, 1]).1 = .missing ∧
      v.isLiveAt (fun _ => 0) [1, 1] ⟨1, 0, 1⟩ 1 = false) ∧
    ∃ v, Runs.run (step fun _ => 0) (start (.fixed 2) 1) (wideKey ++ [.handOver]) = some v ∧
      v.noted = [⟨1, [⟨[2, 2, 2], 1, 0, 1, .data⟩], 1⟩] ∧ v.tails = [] ∧
      (v.spotRead (fun _ => 0) .warm [2, 2, 2]).1 = .missing ∧
      v.isLiveAt (fun _ => 0) [2, 2, 2] ⟨1, 0, 1⟩ 1 = false :=
  ⟨⟨_, rfl, by decide, by decide, by decide, by decide⟩, _, rfl, by decide, by decide, by decide,
    by decide⟩

end Volume

end Reel
