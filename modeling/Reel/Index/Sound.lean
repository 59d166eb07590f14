import Reel.Index.Walk
import Reel.Index.Ledger

/-!
What holds between the map, the covers, the spot index and the records of a column, and
why a point read and a walk then say the same of every key.
-/

set_option autoImplicit false

namespace Reel
open Bytes StableSort List

def Row.resident (row : Row) (id : Nat) : Entry :=
  match row.kind with
  | .data => ⟨row.loc id, row.lsn⟩
  | .tombstone | .rangeTombstone => .graveFrom row.lsn id

@[simp] theorem Row.resident_lsn (row : Row) (id : Nat) : (row.resident id).lsn = row.lsn := by
  unfold Row.resident
  cases row.kind <;> rfl

/-- A slot keeps the place and the hash bits of a row. -/
structure Points (hash : Str → UInt64) (slot : Slot) (id : Nat) (row : Row) : Prop where
  place : slot.place = (id, row.offset)
  bits : slot.holds (hash row.key) = true
  isGrave : slot.isGrave = false

theorem Points.displaced {hash : Str → UInt64} {slot : Slot} {id : Nat} {row : Row}
    (h : Points hash slot id row) : Points hash slot.displaced id row :=
  ⟨h.place, h.bits, h.isGrave⟩

theorem points_new (hash : Str → UInt64) (id : Nat) (row : Row) :
    Points hash (Slot.new (hash row.key) (row.loc id)) id row :=
  ⟨rfl, Slot.holds_new _ _, rfl⟩

theorem Points.row_eq {hash : Str → UInt64} {segments : List Segment} (hsited : Sited segments)
    {slot : Slot} {i j : Nat} {a b : Row} (ha : Points hash slot i a)
    (hb : Points hash slot j b) (hra : Holds segments i a) (hrb : Holds segments j b) :
    i = j ∧ a = b := by
  have hplace : (i, a.offset) = (j, b.offset) := ha.place.symm.trans hb.place
  obtain ⟨rfl, hoff⟩ := Prod.mk.inj hplace
  exact ⟨rfl, hsited.row_eq hra hrb hoff⟩

namespace Volume

/-- The newest put or delete of its key in any segment. -/
structure Newest (v : Volume) (id : Nat) (row : Row) : Prop where
  holds : Holds v.segments id row
  point : row.kind ≠ .rangeTombstone
  newest : ∀ {j : Nat} {other : Row}, Holds v.segments j other → other.kind ≠ .rangeTombstone →
    other.key = row.key → other.lsn ≤ row.lsn

/-- A newest row the map has no word on is found some other way: its footer is noted, and a put is
covered or has a slot, which `strict` asks to be live. -/
def Found (hash : Str → UInt64) (strict : Bool) (v : Volume) (id : Nat) (row : Row) : Prop :=
  match row.kind with
  | .data => isCovered v.index.covers row.key row.lsn = true ∨
      Holds v.noted id row ∧ ∃ slot ∈ v.spot.slots, Points hash slot id row ∧
        (strict = true → slot.isDisplaced = false)
  | .tombstone | .rangeTombstone => Holds v.noted id row

/-- A slot points at a put in a segment handed over, and a live one at its key's newest record,
on which the map has no word. -/
def SlotOk (hash : Str → UInt64) (v : Volume) (slot : Slot) : Prop :=
  ∃ id row, Points hash slot id row ∧ Holds v.noted id row ∧ id ∉ v.held ∧ row.kind = .data ∧
    (slot.isDisplaced = false → v.Newest id row ∧ v.index.map.get row.key = none)

/-- A sweep resumes inside its cover's range. -/
def Resumes (cover : Covered Str) : Prop :=
  match cover.phase with
  | .release resume | .sweep resume => cover.low ≤ resume
  | .done => True

structure CoversOk (index : ColumnIndex) (next : Nat) : Prop where
  lsns : (index.covers.map Covered.lsn).Nodup
  drawn : ∀ cover ∈ index.covers, cover.lsn < next
  low : ∀ cover ∈ index.covers, index.width.lowBound cover.low = cover.low
  resumes : ∀ cover ∈ index.covers, Resumes cover

/-- A put or delete of the key under this number or a later one stands. -/
def Outdone (v : Volume) (key : Str) (lsn : Nat) : Prop :=
  ∃ id row, Holds v.segments id row ∧ row.kind ≠ .rangeTombstone ∧ row.key = key ∧ lsn ≤ row.lsn

/-- Every queued settle names a number that was written, every queued slot an outdated record. -/
structure QueuesOk (hash : Str → UInt64) (v : Volume) : Prop where
  owed : ∀ x ∈ v.spot.owed, v.Outdone x.1 x.2
  stale : ∀ stale ∈ v.spot.stale, ∃ id row, Points hash stale.slot id row ∧
    Holds v.noted id row ∧ row.key = stale.key ∧ v.Outdone row.key (row.lsn + 1)

/-- A segment owed a hand-over is noted, and owed it once. -/
structure HeldOk (held : List Nat) (noted : List Segment) : Prop where
  nodup : held.Nodup
  noted : ∀ id ∈ held, id ∈ noted.map Segment.id

structure Sound (hash : Str → UInt64) (strict : Bool) (v : Volume) : Prop where
  laid : Laid v.segments v.next
  held : HeldOk v.held v.noted
  accepted : ∀ {id : Nat} {row : Row}, Holds v.segments id row → row.kind = .data →
    v.index.width.accepts row.key = true
  mapped : ∀ {key : Str} {entry : Entry}, v.index.map.get key = some entry →
    v.index.width.accepts key = true ∧
      ∃ id row, v.Newest id row ∧ row.key = key ∧ entry = row.resident id
  absent : ∀ {id : Nat} {row : Row}, v.Newest id row → v.index.width.accepts row.key = true →
    v.index.map.get row.key = none → v.Found hash strict id row
  slots : ∀ slot ∈ v.spot.slots, v.SlotOk hash slot
  distinct : Distinct v.spot.slots
  covers : CoversOk v.index v.next
  queues : v.QueuesOk hash

/-- Every version an accepted range delete took is under a standing cover. -/
structure Ranged (v : Volume) : Prop where
  covered : ∀ range ∈ v.ranges, ∀ {id : Nat} {row : Row}, Holds v.segments id row →
    row.kind = .data → range.takes row.key → row.lsn < range.lsn →
      isCovered v.index.covers row.key row.lsn = true
  rows : ∀ {id : Nat} {row : Row}, Holds v.segments id row → row.kind = .rangeTombstone →
    ∃ range ∈ v.ranges, range.takes row.key ∧ range.lsn = row.lsn
  drawn : ∀ range ∈ v.ranges, range.lsn < v.next

theorem noted_subset (v : Volume) : v.noted ⊆ v.segments := subset_append_right _ _

variable {hash : Str → UInt64} {strict : Bool} {v : Volume}

theorem Sound.accepting
    (h : v.Sound hash strict) : v.Accepting where
  mapped := fun _ he => (h.mapped (SortedMap.mem_entries.mp he)).1
  sealed := fun segment hs _ hrow hdata =>
    h.accepted ⟨segment, v.noted_subset hs, rfl, hrow⟩ hdata

variable {key : Str}

theorem isCovered_of_le {covers : List (Covered Str)} {lsn below : Nat}
    (h : isCovered covers key lsn = true) (hle : below ≤ lsn) : isCovered covers key below = true := by
  obtain ⟨cover, hc, hcov⟩ := (isCovered_iff _ _ _).mp h
  obtain ⟨hlt, hlow, hhigh⟩ := (cover.covers_iff key lsn).mp hcov
  exact (isCovered_iff _ _ _).mpr ⟨cover, hc, (cover.covers_iff key below).mpr ⟨by omega, hlow, hhigh⟩⟩

def standing (v : Volume) (key : Str) (found : Option (Row × Nat)) : Option Entry :=
  v.liveOnly key (found.map fun x => x.1.entry x.2)

variable {row : Row} {id : Nat}

theorem standing_some (hid : id ≠ 0) :
    v.standing key (some (row, id)) =
      if row.kind = .data ∧ !v.index.isCoveredKey key row.lsn then some (row.entry id) else none := by
  cases hk : row.kind with
  | data =>
    simp only [standing, liveOnly, Row.entry, hk, Option.map_some, Option.filter,
      Entry.isGrave, Row.loc]
    by_cases hc : v.index.isCoveredKey key row.lsn = true <;> simp [hc, hid]
  | tombstone | rangeTombstone =>
    simp [standing, liveOnly, Row.entry, hk, Option.filter, Entry.grave]

/-- Where the map has no word, a walk and a footer search make the same of a key. -/
theorem walkAnswer_of_absent (hlaid : Laid v.segments v.next)
    (hmap : v.index.map.get key = none) :
    ∃ found, IsNewestIn v.noted key found ∧ v.walkAnswer key = v.standing key found ∧
      v.liveOnly key (newestSealed v.noted key none) = v.standing key found := by
  have hnoted : Laid v.noted v.next := hlaid.sublist (sublist_append_right _ _)
  obtain ⟨found, hfound, hsealed⟩ := newestSealed_eq key hnoted.ceiling
  refine ⟨found, hfound, ?_, by rw [hsealed]; rfl⟩
  have hrow := newestRow_newest v.stands (v.rowsOf key)
  unfold walkAnswer
  simp only [hmap, sealedAnswer]
  cases hn : newestRow v.stands (v.rowsOf key) with
  | none =>
    rw [hn] at hrow
    have hnone : IsNewestIn v.noted key none := by
      intro segment hs row hr hk
      have : (segment.id, row) ∈ v.rowsOf key := mem_rowsOf.mpr ⟨hk, segment, hs, rfl, hr⟩
      simp only at hrow
      rw [hrow] at this
      cases this
    rw [newestIn_unique hnoted hfound hnone]
    rfl
  | some x =>
    rw [hn] at hrow
    obtain ⟨id, row⟩ := x
    obtain ⟨hin, hmax⟩ := hrow
    obtain ⟨hk, segment, hs, hid, hr⟩ := mem_rowsOf.mp hin
    have hsome : IsNewestIn v.noted key (some (row, id)) := by
      refine ⟨⟨segment, hs, hid, hr⟩, hk, ?_⟩
      intro other ho later hlater hk'
      exact hmax (other.id, later) (mem_rowsOf.mpr ⟨hk', other, ho, rfl, hlater⟩)
    rw [newestIn_unique hnoted hfound hsome, standing_some]
    have hpos := hnoted.ids_pos segment hs
    simp only at hid
    rwa [hid] at hpos

theorem slot_head (hsited : Sited v.segments) {slot : Slot}
    (hp : Points hash slot id row) (hrow : Holds v.segments id row)
    (key : Str) : headIn v.segments key slot.segment slot.offset = row.headFor key := by
  obtain ⟨hseg, hoff⟩ := Prod.mk.inj hp.place
  rw [hseg, hoff]
  exact hsited.headIn_eq hrow key

theorem maxLsnOf_le (hsited : Sited v.segments)
    (hrow : Holds v.noted id row) : ∀ ceiling ∈ v.maxLsnOf id, row.lsn ≤ ceiling := by
  intro ceiling hc
  have hnoted : Sited v.noted := hsited.sublist (sublist_append_right _ _)
  obtain ⟨segment, hs, rfl, hr⟩ := hrow
  rw [maxLsnOf, hnoted.find hs] at hc
  cases hc
  exact hnoted.ceiling segment hs row hr

theorem headFor_same {head : Head} (h : row.headFor key = .same head) :
    row.key = key ∧ row.kind ≠ .rangeTombstone ∧
      head = ⟨row.lsn, row.len, decide (row.kind = .tombstone)⟩ := by
  unfold Row.headFor at h
  split at h
  · rename_i hk
    cases h
    exact ⟨hk.1, hk.2, rfl⟩
  · cases h

theorem headFor_of_data (h : row.kind = .data) :
    row.headFor row.key = .same ⟨row.lsn, row.len, false⟩ := by
  simp [Row.headFor, h]

/-- Every slot points at a put that stands in a noted segment. -/
structure Slotted (hash : Str → UInt64) (v : Volume) : Prop where
  sited : Sited v.segments
  slots : ∀ slot ∈ v.spot.slots, ∃ id row, Points hash slot id row ∧ Holds v.noted id row ∧
    row.kind = .data

theorem Slotted.readable (h : v.Slotted hash)
    (key : Str) : ∀ x ∈ v.spot.ordered (v.sources hash .warm) key,
      Readable (v.sources hash .warm).records key x := by
  intro x hx
  obtain ⟨hm, hceil⟩ := mem_ordered hx
  obtain ⟨id, row, hp, hrow, -⟩ := h.slots x.2 (mem_slotMatches.mp hm).1
  have hhead := slot_head h.sited hp (hrow.mono v.noted_subset) key
  constructor
  · change headIn v.segments key x.2.segment x.2.offset ≠ _
    rw [hhead]
    unfold Row.headFor
    split <;> simp
  · intro head hh ceiling hc
    change headIn v.segments key x.2.segment x.2.offset = _ at hh
    rw [hhead] at hh
    obtain ⟨-, -, rfl⟩ := headFor_same hh
    rcases hceil with hnone | hsome
    · rw [hnone] at hc
      cases hc
    · rw [hsome, (Prod.mk.inj hp.place).1] at hc
      exact maxLsnOf_le h.sited hrow ceiling hc

/-- The newest of a key's slots, if it has one, with the put it points at. -/
theorem Slotted.newest_slot (h : v.Slotted hash) (key : Str) :
    (v.spot.entry (v.sources hash .warm) key = .entry none ∧
        ∀ slot ∈ v.spot.slots, ∀ id row, Points hash slot id row → Holds v.noted id row →
          row.kind = .data → row.key ≠ key) ∨
      ∃ slot ∈ v.spot.slots, ∃ id row, Points hash slot id row ∧ Holds v.noted id row ∧
        row.kind = .data ∧ row.key = key ∧
        (∀ other ∈ v.spot.slots, ∀ j r, Points hash other j r → Holds v.noted j r →
          r.kind = .data → r.key = key → r.lsn ≤ row.lsn) ∧
        v.spot.entry (v.sources hash .warm) key =
          if slot.isDisplaced then .footers else .entry (some (row.entry id)) := by
  obtain ⟨best, hbest, hentry⟩ := entry_newest (h.readable key)
  have hown : ∀ slot ∈ v.spot.slots, ∀ id row, Points hash slot id row → Holds v.noted id row →
      row.kind = .data → row.key = key → slot ∈ v.spot.matching (v.sources hash .warm) key ∧
        (v.sources hash .warm).records.head key slot.segment slot.offset =
          .same ⟨row.lsn, row.len, false⟩ := by
    intro slot hslot id row hp hrow hdata hk
    subst hk
    refine ⟨mem_slotMatches.mpr ⟨hslot, hp.bits⟩, ?_⟩
    change headIn v.segments row.key slot.segment slot.offset = _
    rw [slot_head h.sited hp (hrow.mono v.noted_subset), headFor_of_data hdata]
  cases best with
  | none =>
    left
    refine ⟨hentry, ?_⟩
    intro slot hslot id row hp hrow hdata hk
    obtain ⟨hm, hh⟩ := hown slot hslot id row hp hrow hdata hk
    exact hbest slot hm _ hh
  | some found =>
    right
    obtain ⟨head, slot⟩ := found
    obtain ⟨hin, hh, hmax⟩ := hbest
    have hslot := (mem_slotMatches.mp hin).1
    obtain ⟨id, row, hp, hrow, hdata⟩ := h.slots slot hslot
    change headIn v.segments key slot.segment slot.offset = _ at hh
    rw [slot_head h.sited hp (hrow.mono v.noted_subset)] at hh
    obtain ⟨hk, -, rfl⟩ := headFor_same hh
    refine ⟨slot, hslot, id, row, hp, hrow, hdata, hk, ?_, ?_⟩
    · intro other hother j r hp' hr hd hk'
      obtain ⟨hm, hh'⟩ := hown other hother j r hp' hr hd hk'
      exact hmax other hm _ hh'
    · obtain ⟨hseg, hoff⟩ := Prod.mk.inj hp.place
      rw [hentry]
      simp [SpotColumn.settledOf, hdata, Row.entry, Row.loc, hseg, hoff]

theorem Sound.slotted (h : v.Sound hash strict) :
    v.Slotted hash := by
  refine ⟨h.laid.toSited, fun slot hslot => ?_⟩
  obtain ⟨id, row, hp, hrow, -, hdata, -⟩ := h.slots slot hslot
  exact ⟨id, row, hp, hrow, hdata⟩

theorem exists_newest (hrow : Holds v.segments id row)
    (hpoint : row.kind ≠ .rangeTombstone) :
    ∃ id' row', v.Newest id' row' ∧ row'.key = row.key ∧ row.lsn ≤ row'.lsn := by
  -- the rows of all segments are finitely many, so one of the key's has the greatest number
  let rows := (v.segments.flatMap fun segment => segment.rows.map fun row => (segment.id, row)).filter
    fun x => decide (x.2.kind ≠ .rangeTombstone) && decide (x.2.key = row.key)
  have hmem : ∀ x, x ∈ rows ↔
      Holds v.segments x.1 x.2 ∧ x.2.kind ≠ .rangeTombstone ∧ x.2.key = row.key := by
    rintro ⟨j, r⟩
    simp only [rows, mem_filter, mem_flatMap, mem_map, Prod.mk.injEq, Holds,
      Bool.and_eq_true, decide_eq_true_eq]
    constructor
    · rintro ⟨⟨segment, hs, r', hr, hid, rfl⟩, hk⟩
      exact ⟨⟨segment, hs, hid, hr⟩, hk⟩
    · rintro ⟨⟨segment, hs, hid, hr⟩, hk⟩
      exact ⟨⟨segment, hs, r, hr, hid, rfl⟩, hk⟩
  have hin : (id, row) ∈ rows := (hmem _).mpr ⟨hrow, hpoint, rfl⟩
  cases hmax : rows.argmax fun x => x.2.lsn with
  | none =>
    rw [argmax_eq_none] at hmax
    rw [hmax] at hin
    cases hin
  | some best =>
    obtain ⟨hb, hp, hk⟩ := (hmem best).mp (argmax_mem hmax)
    have hle : ∀ x ∈ rows, x.2.lsn ≤ best.2.lsn :=
      fun x hx => not_lt.mp (not_lt_of_mem_argmax (f := fun x : Nat × Row => x.2.lsn) hx hmax)
    refine ⟨best.1, best.2, ⟨hb, hp, ?_⟩, hk, hle _ hin⟩
    intro j other ho hpo hko
    exact hle (j, other) ((hmem _).mpr ⟨ho, hpo, hko.trans hk⟩)

theorem Newest.unique (hlaid : Laid v.segments v.next) {i j : Nat} {a b : Row}
    (ha : v.Newest i a) (hb : v.Newest j b) (hk : a.key = b.key) : i = j ∧ a = b :=
  hlaid.lsns ha.holds hb.holds
    (le_antisymm (hb.newest ha.holds ha.point hk) (ha.newest hb.holds hb.point hk.symm))

theorem isCoveredKey_eq (h : v.index.width.accepts key = true) (lsn : Nat) :
    v.index.isCoveredKey key lsn = isCovered v.index.covers key lsn := by
  simp [ColumnIndex.isCoveredKey, h]

variable {found : Option (Row × Nat)}

section
variable (h : v.Sound hash strict) (hmap : v.index.map.get key = none)
  (hfound : IsNewestIn v.noted key found)
include h hmap hfound

/-- Where the map has no word, the newest noted row leaves nothing, or its key's newest put has a slot
and no cover took it. -/
theorem Sound.standing_cases :
    v.standing key found = none ∨ ∃ id row, v.Newest id row ∧ row.kind = .data ∧ row.key = key ∧
      isCovered v.index.covers row.key row.lsn = false ∧ Holds v.noted id row ∧
      ∃ slot ∈ v.spot.slots, Points hash slot id row := by
  cases found with
  | none => exact Or.inl rfl
  | some found =>
    obtain ⟨row, id⟩ := found
    obtain ⟨hrow, rfl, hmax⟩ := hfound
    have hid : id ≠ 0 := by
      obtain ⟨segment, hs, rfl, -⟩ := hrow
      exact h.laid.ids_pos segment (v.noted_subset hs)
    rw [standing_some hid]
    split
    · rename_i hstands
      obtain ⟨hdata, huncovered⟩ := hstands
      have hin := hrow.mono v.noted_subset
      have hacc := h.accepted hin hdata
      rw [isCoveredKey_eq hacc] at huncovered
      obtain ⟨id', row', hnewest, hk, hle⟩ := exists_newest hin (by simp [hdata])
      have hway := h.absent hnewest (hk ▸ hacc) (hk ▸ hmap)
      cases hkind : row'.kind with
      | rangeTombstone => exact absurd hkind hnewest.point
      | tombstone =>
        simp only [Found, hkind] at hway
        obtain ⟨segment, hs, hid', hr'⟩ := hway
        have hlsn := le_antisymm hle (hmax segment hs row' hr' hk)
        obtain ⟨-, rfl⟩ := h.laid.lsns hin hnewest.holds hlsn
        rw [hdata] at hkind
        cases hkind
      | data =>
        simp only [Found, hkind] at hway
        cases hcov : isCovered v.index.covers row'.key row'.lsn with
        | true =>
          rw [hk] at hcov
          simp [isCovered_of_le hcov hle] at huncovered
        | false =>
          rw [hcov] at hway
          obtain ⟨hnoted, slot, hslot, hp, -⟩ := hway.resolve_left Bool.false_ne_true
          exact Or.inr ⟨id', row', hnewest, hkind, hk, hcov, hnoted, slot, hslot, hp⟩
    · exact Or.inl rfl

theorem Sound.standing_none
    (hslots : ∀ slot ∈ v.spot.slots, ∀ id row, Points hash slot id row → Holds v.noted id row →
      row.kind = .data → row.key ≠ key) : v.standing key found = none := by
  refine (h.standing_cases hmap hfound).resolve_right ?_
  rintro ⟨id, row, -, hdata, hk, -, hnoted, slot, hslot, hp⟩
  exact hslots slot hslot id row hp hnoted hdata hk

end

/-- A live slot's put is what the newest noted row leaves: a later row of the key can only be a
range delete, whose cover took the put. -/
theorem Sound.standing_live
    (h : v.Sound hash strict) (hr : v.Ranged) (hnewest : v.Newest id row)
    (hrow : Holds v.noted id row) (hdata : row.kind = .data)
    (hfound : IsNewestIn v.noted row.key found) :
    v.standing row.key found = v.standing row.key (some (row, id)) := by
  have hids : ∀ {j : Nat} {other : Row}, Holds v.noted j other → j ≠ 0 := by
    rintro j other ⟨segment, hs, rfl, -⟩
    exact h.laid.ids_pos segment (v.noted_subset hs)
  cases found with
  | none =>
    obtain ⟨segment, hs, -, hin⟩ := hrow
    exact absurd rfl (hfound segment hs row hin)
  | some found =>
    obtain ⟨last, j⟩ := found
    obtain ⟨hlast, hk, hmax⟩ := hfound
    have hle : row.lsn ≤ last.lsn := by
      obtain ⟨segment, hs, -, hin⟩ := hrow
      exact hmax segment hs row hin rfl
    have hlast' := hlast.mono v.noted_subset
    by_cases hrange : last.kind = .rangeTombstone
    · have hlt : row.lsn < last.lsn := by
        refine lt_of_le_of_ne hle fun heq => ?_
        obtain ⟨-, rfl⟩ := h.laid.lsns hnewest.holds hlast' heq
        exact hnewest.point hrange
      obtain ⟨range, hin, htakes, hlsn⟩ := hr.rows hlast' hrange
      have hcov := hr.covered range hin hnewest.holds hdata (hk ▸ htakes) (by omega)
      rw [standing_some (hids hlast), standing_some (hids hrow), if_neg (by simp [hrange]), if_neg]
      rw [isCoveredKey_eq (h.accepted hnewest.holds hdata), hcov]
      simp
    · have hlsn := le_antisymm hle (hnewest.newest hlast' hrange hk)
      obtain ⟨rfl, rfl⟩ := h.laid.lsns hnewest.holds hlast' hlsn
      rfl

theorem get_eq_walkAnswer
    (h : v.Sound hash strict) (hr : v.Ranged) (key : Str) : v.get hash key = v.walkAnswer key := by
  cases hmap : v.index.map.get key with
  | some entry =>
    obtain ⟨hacc, -⟩ := h.mapped hmap
    have hword : v.mapped key =
        some (if entry.isGrave || v.index.isCoveredKey key entry.lsn then none else some entry) := by
      simp [Volume.mapped, ColumnIndex.entryOrGrave, hacc, hmap]
    simp only [Volume.get, hword, walkAnswer, hmap, mappedAnswer]
    cases entry.isGrave <;> cases v.index.isCoveredKey key entry.lsn <;> rfl
  | none =>
    have hword : v.mapped key = none := by
      simp [Volume.mapped, ColumnIndex.entryOrGrave, hmap]
    obtain ⟨found, hfound, hwalk, hsealed⟩ := walkAnswer_of_absent h.laid hmap
    rw [hwalk]
    simp only [Volume.get, hword, newestLive]
    rcases h.slotted.newest_slot key with ⟨hentry, hnone⟩ | ⟨slot, hslot, id, row, hp, hrow, hdata, rfl, -, hentry⟩
    · rw [hentry, h.standing_none hmap hfound hnone]
      rfl
    · rw [hentry]
      cases hd : slot.isDisplaced with
      | true => exact hsealed
      | false =>
        obtain ⟨id', row', hp', hrow', -, -, hlive⟩ := h.slots slot hslot
        obtain ⟨rfl, rfl⟩ := hp.row_eq h.laid.toSited hp' (hrow.mono v.noted_subset)
          (hrow'.mono v.noted_subset)
        rw [h.standing_live hr (hlive hd).1 hrow hdata hfound]
        rfl

end Volume

end Reel
