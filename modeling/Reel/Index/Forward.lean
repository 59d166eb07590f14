import Reel.Index.Flights
import Reel.Index.HandOver
import Reel.Index.Writes

/-!
Why a key's resolved version does not go back: the newest published version stands in the
map or under a slot that no operation in flight may still take back.
-/

set_option autoImplicit false

namespace Reel
open Bytes StableSort List Option

namespace Flight

def publishing : Flight → Option Nat
  | .publish tail _ => some tail
  | _ => none

def awaits : Flight → Option Nat
  | .asked segment _ | .lane segment _ => some segment
  | _ => none

def owes (lsn : Nat) : Flight → Bool
  | .inserted _ row _ | .back _ row => row.lsn == lsn
  | _ => false

def version : Flight → Option Nat
  | .publish _ row | .lane _ row | .copy _ row => some row.lsn
  | .repoint _ _ _ lsn | .evict (.paged lsn) _ => some lsn
  | _ => none

end Flight

namespace Volume

def lsnAt (v : Volume) (key : Str) (slot : Slot) : Option Nat :=
  match headIn v.segments key slot.segment slot.offset with
  | .same head => some head.lsn
  | _ => none

def unhanded (v : Volume) : List Segment :=
  v.tails ++ v.pending ++ v.noted.filter fun segment => v.held.contains segment.id

end Volume

/-- A segment's newest record is no put under `t`. -/
def Segment.Recent (t : Nat) (segment : Segment) : Prop :=
  ∀ row ∈ segment.rows, (∀ other ∈ segment.rows, other.lsn ≤ row.lsn) → row.kind = .data → t ≤ row.lsn

/-- Nothing can bring back a version under `t`: no live slot, no operation in flight, and no
hand-over still to begin. -/
structure NoOlder (key : Str) (t : Nat) (v : Volume) (flights : List Flight) : Prop where
  slots : ∀ slot ∈ v.spot.slots, slot.isDisplaced = false → ∀ lsn ∈ v.lsnAt key slot, t ≤ lsn
  flights : ∀ flight ∈ flights, ∀ lsn ∈ flight.version, t ≤ lsn
  unhanded : ∀ segment ∈ v.unhanded, segment.Recent t

instance (t : Nat) (segment : Segment) : Decidable (segment.Recent t) := by
  unfold Segment.Recent
  infer_instance

instance (key : Str) (t : Nat) (v : Volume) (flights : List Flight) :
    Decidable (NoOlder key t v flights) :=
  decidable_of_iff
    ((∀ slot ∈ v.spot.slots, slot.isDisplaced = false → ∀ lsn ∈ v.lsnAt key slot, t ≤ lsn) ∧
      (∀ flight ∈ flights, ∀ lsn ∈ flight.version, t ≤ lsn) ∧
      ∀ segment ∈ v.unhanded, segment.Recent t)
    ⟨fun h => ⟨h.1, h.2.1, h.2.2⟩, fun h => ⟨h.slots, h.flights, h.unhanded⟩⟩

/-- What the last step of an operation asks of the column, the other operations in flight given:
a repoint or an eviction of a paged key finds no slot of a newer version, and an eviction from the
map leaves nothing older to come back. -/
def FlightSafe (hash : Str → UInt64) (key : Str) (v : Volume) (rest : List Flight) : Flight → Prop
  | .repoint (.paged _) _ _ lsn | .evict (.paged lsn) _ =>
    v.index.map.get key = none → v.spot.holdsNewer (v.sources hash .warm) key lsn = false
  | .evict .mapped place =>
    ∀ entry ∈ v.index.map.get key, entry.loc = place → NoOlder key entry.lsn v rest
  | _ => True

def MoveSafe (hash : Str → UInt64) (key : Str) (s : Traffic) : Traffic.Move → Prop
  | .holdSealed =>
    ∀ flight ∈ s.flights, ∀ segment ∈ s.volume.pending, flight.publishing ≠ some segment.id
  | .advance flight _ =>
    ∀ held ∈ s.flights[flight]?, FlightSafe hash key s.volume (s.flights.eraseIdx flight) held
  | _ => True

instance (hash : Str → UInt64) (key : Str) (v : Volume) (rest : List Flight) :
    (flight : Flight) → Decidable (FlightSafe hash key v rest flight)
  | .repoint stage _ _ _ =>
    match stage with
    | .paged _ => inferInstanceAs (Decidable (_ → _ = _))
    | .look | .mapped | .again | .spot | .footers => inferInstanceAs (Decidable True)
  | .evict stage place =>
    match stage with
    | .paged _ => inferInstanceAs (Decidable (_ → _ = _))
    | .mapped => inferInstanceAs (Decidable (∀ entry ∈ v.index.map.get key, entry.loc = place →
        NoOlder key entry.lsn v rest))
    | .look | .sealed => inferInstanceAs (Decidable True)
  | .publish .. | .displace _ | .settle .. | .asked .. | .lane .. | .inserted .. | .back .. | .copy .. =>
    inferInstanceAs (Decidable True)

instance (hash : Str → UInt64) (key : Str) (s : Traffic) :
    (move : Traffic.Move) → Decidable (MoveSafe hash key s move)
  | .holdSealed => inferInstanceAs (Decidable (∀ flight ∈ s.flights, ∀ segment ∈ s.volume.pending,
      flight.publishing ≠ some segment.id))
  | .advance flight _ => inferInstanceAs (Decidable (∀ held ∈ s.flights[flight]?,
      FlightSafe hash key s.volume (s.flights.eraseIdx flight) held))
  | .openTail _ | .put .. | .delete .. | .sealTail _ | .handOver _ | .queueCopy .. | .landCopy ..
  | .evict _ => inferInstanceAs (Decidable True)

namespace Traffic
variable {hash : Str → UInt64} {key : Str} {t : Nat} {v v' : Volume} {flights rest : List Flight}
  {evicted : List Nat}

/-- A put of this number stands at this place. -/
def PutAt (v : Volume) (loc : Loc) (lsn : Nat) : Prop :=
  ∃ row, Holds v.segments loc.segment row ∧ row.loc loc.segment = loc ∧ row.kind = .data ∧
    row.lsn = lsn

/-- What an operation in flight knows, `t` being the newest version published. -/
def Aloft (t : Nat) (v : Volume) : Flight → Prop
  | .publish tail row => Holds v.segments tail row
  | .displace newer => newer ≤ t
  | .settle _ verdicts => ∀ x ∈ verdicts, x.2 ≠ .skip →
      ∃ id row, x.1.place = (id, row.offset) ∧ Holds v.segments id row ∧ row.lsn < t
  | .asked segment row | .lane segment row =>
    Holds v.noted segment row ∧ row.kind = .data ∧ row.lsn ≤ v.handed
  | .inserted segment row _ | .back segment row => Holds v.noted segment row ∧ row.kind = .data
  | .copy segment row => Holds v.noted segment row ∧ row.kind = .data
  | .repoint _ _ copy lsn => lsn ≤ t ∧ PutAt v copy lsn
  | .evict .mapped place => place.segment ∈ v.noted.map Segment.id
  | .evict (.paged lsn) _ => 1 ≤ lsn ∧ lsn ≤ t
  | .evict .look _ | .evict .sealed _ => True

/-- The key's records: those noted are published, the others are or are about to be. -/
structure Rows (key : Str) (t : Nat) (v : Volume) (flights : List Flight) : Prop where
  sited : Sited v.segments
  own : ∀ {id : Nat} {row : Row}, Holds v.segments id row →
    row.key = key ∧ row.kind ≠ .rangeTombstone ∧ 1 ≤ row.lsn ∧ row.lsn < v.next
  top : t < v.next
  noted : ∀ {id : Nat} {row : Row}, Holds v.noted id row → row.lsn ≤ t
  fresh : ∀ {id : Nat} {row : Row}, Holds (v.tails ++ v.pending) id row →
    row.lsn ≤ t ∨ .publish id row ∈ flights

/-- The map's word on the key is its newest published version. -/
def Mapped (key : Str) (t : Nat) (v : Volume) : Prop :=
  ∀ entry ∈ v.index.map.get key, entry.lsn = t ∧ 1 ≤ t ∧
    (entry.isGrave = true ∨ PutAt v entry.loc t)

/-- Every slot points at a put handed over, in no segment whose row is still on the way. -/
structure Slots (hash : Str → UInt64) (v : Volume) (waiting : List Nat) : Prop where
  points : ∀ slot ∈ v.spot.slots, ∃ id row, Points hash slot id row ∧ Holds v.noted id row ∧
    row.kind = .data ∧ row.lsn ≤ v.handed ∧ id ∉ waiting
  distinct : Distinct v.spot.slots

def waiting (v : Volume) (flights : List Flight) : List Nat := v.held ++ flights.filterMap Flight.awaits

structure Base (hash : Str → UInt64) (key : Str) (t : Nat) (v : Volume) (flights : List Flight) :
    Prop where
  accepts : v.index.width.accepts key = true
  uncovered : v.index.covers = []
  rows : Rows key t v flights
  mapped : Mapped key t v
  slots : Slots hash v (waiting v flights)
  held : ∀ id ∈ v.held, id ∈ v.noted.map Segment.id
  waits : (waiting v flights).Nodup
  aloft : ∀ flight ∈ flights, Aloft t v flight

/-- The slots and the map's word under the newest version outnumber the slots that may still be
taken back. -/
def Counted (key : Str) (t : Nat) (v : Volume) (flights : List Flight) : Prop :=
  1 + flights.countP (Flight.owes t) ≤ v.spot.slots.countP (fun slot => v.lsnAt key slot == some t) +
    if (v.index.map.get key).isSome then 1 else 0

/-- Past an eviction the key may resolve to nothing, but to nothing older. -/
structure Dropped (key : Str) (t : Nat) (v : Volume) (flights : List Flight) (evicted : List Nat) :
    Prop where
  noOlder : NoOlder key t v flights
  noted : t = 0 ∨ ∃ id row, Holds v.noted id row ∧ t ≤ row.lsn
  evicted : t ∈ evicted ∨ t = 0

structure Forward (hash : Str → UInt64) (key : Str) (t : Nat) (v : Volume) (flights : List Flight)
    (evicted : List Nat) : Prop where
  base : Base hash key t v flights
  mode : Counted key t v flights ∨ Dropped key t v flights evicted

/-- The same of a whole state of the traffic. -/
def Ahead (hash : Str → UInt64) (key : Str) (t : Nat) (s : Traffic) : Prop :=
  Forward hash key t s.volume s.flights s.evicted

theorem Rows.sited_noted (h : Rows key t v flights) : Sited v.noted :=
  h.sited.sublist (sublist_append_right _ _)

theorem Base.slotted (h : Base hash key t v flights) : v.Slotted hash := by
  refine ⟨h.rows.sited, fun slot hslot => ?_⟩
  obtain ⟨id, row, hp, hrow, hdata, -⟩ := h.slots.points slot hslot
  exact ⟨id, row, hp, hrow, hdata⟩

variable {slot : Slot} {id : Nat} {row : Row}

theorem lsnAt_eq (hsited : Sited v.segments)
    (hp : Points hash slot id row) (hrow : Holds v.segments id row) (hdata : row.kind = .data) :
    v.lsnAt row.key slot = some row.lsn := by
  simp [Volume.lsnAt, Volume.slot_head hsited hp hrow, Volume.headFor_of_data hdata]

section
variable (h : Base hash key t v flights)
include h

theorem Base.lsnAt
    (hp : Points hash slot id row) (hrow : Holds v.noted id row) (hdata : row.kind = .data) :
    v.lsnAt key slot = some row.lsn := by
  have hin := hrow.mono v.noted_subset
  rw [← (h.rows.own hin).1]
  exact lsnAt_eq h.rows.sited hp hin hdata

theorem Base.entryOrGrave :
    v.index.entryOrGrave key = v.index.map.get key := by
  simp [ColumnIndex.entryOrGrave, h.accepts]

theorem Base.counted_slot (hc : Counted key t v flights)
    (hmap : v.index.map.get key = none) :
    ∃ slot ∈ v.spot.slots, ∃ id row, Points hash slot id row ∧ Holds v.noted id row ∧
      row.kind = .data ∧ row.lsn = t ∧ row.lsn ≤ v.handed := by
  have hpos : 0 < v.spot.slots.countP fun slot => v.lsnAt key slot == some t := by
    simp only [Counted, hmap, isSome_none, Bool.false_eq_true, if_false] at hc
    omega
  obtain ⟨slot, hslot, hlsn⟩ := countP_pos_iff.mp hpos
  obtain ⟨id, row, hp, hrow, hdata, hle, -⟩ := h.slots.points slot hslot
  rw [h.lsnAt hp hrow hdata] at hlsn
  exact ⟨slot, hslot, id, row, hp, hrow, hdata, by simpa using hlsn, hle⟩

end

theorem entry_lsn (row : Row) (id : Nat) : (row.entry id).lsn = row.lsn := by
  unfold Row.entry
  cases row.kind <;> rfl

theorem entry_putAt (hrow : Holds v.segments id row) :
    (row.entry id).isGrave = true ∨ PutAt v (row.entry id).loc row.lsn := by
  cases hk : row.kind with
  | data =>
    right
    simp only [Row.entry, hk]
    exact ⟨row, hrow, rfl, hk, rfl⟩
  | tombstone | rangeTombstone => simp [Row.entry, hk, Entry.grave]

section
variable (h : Forward hash key t v flights evicted) {entry : Entry}
include h

/-- What the spot index and the footers answer is a noted record's, and as new as any published
where the map has no word or an eviction dropped it. -/
theorem Forward.newestLive_spec
    (hlive : v.newestLive hash key = some entry) :
    ∃ id row, Holds v.noted id row ∧ entry = row.entry id ∧
      (v.index.map.get key = none ∨ Dropped key t v flights evicted → t ≤ row.lsn) := by
  unfold Volume.newestLive at hlive
  rcases h.base.slotted.newest_slot key with
    ⟨hentry, -⟩ | ⟨slot, hslot, id, row, hp, hrow, hdata, hk, hmax, hentry⟩
  · simp [hentry] at hlive
  · rw [hentry] at hlive
    cases hd : slot.isDisplaced with
    | false =>
      simp only [hd, Bool.false_eq_true, if_false, Option.some.injEq] at hlive
      refine ⟨id, row, hrow, hlive.symm, fun hcase => ?_⟩
      have hdropped : Dropped key t v flights evicted → t ≤ row.lsn := fun hdrop =>
        hdrop.noOlder.slots slot hslot hd _ (h.base.lsnAt hp hrow hdata)
      rcases hcase with hmap | hdrop
      · rcases h.mode with hc | hdrop
        · obtain ⟨other, hother, j, newest, hp', hn, hdata', hlsn, -⟩ := h.base.counted_slot hc hmap
          have := hmax other hother j newest hp' hn hdata'
            (h.base.rows.own (hn.mono v.noted_subset)).1
          omega
        · exact hdropped hdrop
      · exact hdropped hdrop
    | true =>
      simp only [hd, if_true] at hlive
      obtain ⟨found, hfound, hsealed⟩ := newestSealed_eq key h.base.rows.sited_noted.ceiling
      rw [hsealed] at hlive
      obtain ⟨⟨last, j⟩, rfl, rfl⟩ := map_eq_some_iff.mp hlive
      obtain ⟨hlast, -, hnewest⟩ := hfound
      refine ⟨j, last, hlast, rfl, fun hcase => ?_⟩
      have hnoted : t = 0 ∨ ∃ id row, Holds v.noted id row ∧ t ≤ row.lsn := by
        rcases hcase with hmap | hdrop
        · rcases h.mode with hc | hdrop
          · obtain ⟨-, -, j, newest, -, hn, -, hlsn, -⟩ := h.base.counted_slot hc hmap
            exact .inr ⟨j, newest, hn, hlsn.ge⟩
          · exact hdrop.noted
        · exact hdrop.noted
      rcases hnoted with rfl | ⟨i, other, hother, hle⟩
      · exact Nat.zero_le _
      · obtain ⟨segment, hs, -, hr⟩ := hother
        exact hle.trans (hnewest segment hs other hr
          (h.base.rows.own ⟨segment, v.noted_subset hs, rfl, hr⟩).1)

theorem Forward.resolved_spec
    (hres : v.resolved hash key = some entry) : entry.lsn = t ∧ 1 ≤ t := by
  unfold Volume.resolved at hres
  rw [h.base.entryOrGrave] at hres
  cases hmap : v.index.map.get key with
  | some held =>
    simp only [hmap, Option.some.injEq] at hres
    obtain ⟨hlsn, hpos, -⟩ := h.base.mapped held hmap
    exact ⟨hres ▸ hlsn, hpos⟩
  | none =>
    simp only [hmap] at hres
    obtain ⟨id, row, hrow, rfl, hle⟩ := h.newestLive_spec hres
    have heq : row.lsn = t := le_antisymm (h.base.rows.noted hrow) (hle (.inl hmap))
    exact ⟨(entry_lsn row id).trans heq, heq ▸ (h.base.rows.own (hrow.mono v.noted_subset)).2.2.1⟩

end

theorem Base.resolved_some (h : Base hash key t v flights) (hc : Counted key t v flights) :
    ∃ entry, v.resolved hash key = some entry := by
  unfold Volume.resolved
  rw [h.entryOrGrave]
  cases hmap : v.index.map.get key with
  | some held => exact ⟨held, rfl⟩
  | none =>
    obtain ⟨slot, hslot, id, row, hp, hrow, hdata, -, -⟩ := h.counted_slot hc hmap
    have hk := (h.rows.own (hrow.mono v.noted_subset)).1
    simp only [Volume.newestLive]
    rcases h.slotted.newest_slot key with ⟨-, hnone⟩ | ⟨best, -, j, newest, -, -, -, -, -, hentry⟩
    · exact absurd hk (hnone slot hslot id row hp hrow hdata)
    · rw [hentry]
      cases best.isDisplaced with
      | false => exact ⟨_, rfl⟩
      | true =>
        obtain ⟨found, hfound, hsealed⟩ := newestSealed_eq key h.rows.sited_noted.ceiling
        cases found with
        | none =>
          obtain ⟨segment, hs, -, hr⟩ := hrow
          exact absurd hk (hfound segment hs row hr)
        | some found => exact ⟨_, by simpa using hsealed⟩

theorem Rows.reflight (h : Rows key t v flights) {flights' : List Flight}
    (hpub : ∀ {id : Nat} {row : Row}, .publish id row ∈ flights →
      row.lsn ≤ t ∨ .publish id row ∈ flights') : Rows key t v flights' :=
  ⟨h.sited, h.own, h.top, h.noted, fun hr => (h.fresh hr).elim .inl hpub⟩

theorem Slots.mono {w w' : List Nat} (h : Slots hash v w) (hsub : w' ⊆ w) : Slots hash v w' := by
  refine ⟨fun slot hslot => ?_, h.distinct⟩
  obtain ⟨id, row, hp, hrow, hdata, hle, hout⟩ := h.points slot hslot
  exact ⟨id, row, hp, hrow, hdata, hle, fun hin => hout (hsub hin)⟩

theorem Forward.perm (h : Forward hash key t v flights evicted) {flights' : List Flight}
    (hp : flights'.Perm flights) : Forward hash key t v flights' evicted := by
  have hw : (waiting v flights').Perm (waiting v flights) := (hp.filterMap _).append_left _
  have hb := h.base
  refine ⟨⟨hb.accepts, hb.uncovered, hb.rows.reflight fun hin => .inr (hp.symm.subset hin),
    hb.mapped, hb.slots.mono hw.subset, hb.held, hw.nodup_iff.mpr hb.waits,
    fun flight hin => hb.aloft flight (hp.subset hin)⟩, ?_⟩
  refine h.mode.imp (fun hc => ?_) fun hd => ?_
  · rw [Counted, hp.countP_eq]
    exact hc
  · exact ⟨⟨hd.noOlder.slots, fun flight hin => hd.noOlder.flights flight (hp.subset hin),
      hd.noOlder.unhanded⟩, hd.noted, hd.evicted⟩

variable {flight : Flight}

theorem Dropped.tail (h : Dropped key t v (flight :: rest) evicted) :
    Dropped key t v rest evicted :=
  ⟨⟨h.noOlder.slots, fun held hin => h.noOlder.flights held (mem_cons_of_mem _ hin),
    h.noOlder.unhanded⟩, h.noted, h.evicted⟩

theorem Forward.drop (h : Forward hash key t v (flight :: rest) evicted)
    (hpub : ∀ tail row, flight = .publish tail row → row.lsn ≤ t) :
    Forward hash key t v rest evicted := by
  have hw : (waiting v rest).Sublist (waiting v (flight :: rest)) :=
    ((sublist_cons_self flight rest).filterMap _).append_left _
  have hb := h.base
  refine ⟨⟨hb.accepts, hb.uncovered, hb.rows.reflight ?_, hb.mapped, hb.slots.mono hw.subset, hb.held,
    hb.waits.sublist hw, fun held hin => hb.aloft held (mem_cons_of_mem _ hin)⟩, ?_⟩
  · intro id row hin
    rcases mem_cons.mp hin with he | hin
    · exact .inl (hpub id row he.symm)
    · exact .inr hin
  · refine h.mode.imp (fun hc => ?_) Dropped.tail
    rw [Counted, countP_cons] at hc
    rw [Counted]
    omega

/-- A later volume holds every record of an earlier one, no sealed one lost, under an index left
as it is. -/
structure Grows (v v' : Volume) : Prop where
  sited : Sited v'.segments
  rows : ∀ {id : Nat} {row : Row}, Holds v.segments id row → Holds v'.segments id row
  noted : ∀ {id : Nat} {row : Row}, Holds v.noted id row → Holds v'.noted id row
  ids : v.noted.map Segment.id ⊆ v'.noted.map Segment.id
  index : v'.index = v.index
  spot : v'.spot = v.spot
  handed : v.handed ≤ v'.handed

section
variable (hrows : ∀ {id : Nat} {row : Row}, Holds v.segments id row → Holds v'.segments id row)
include hrows

theorem PutAt.mono
    {loc : Loc} {lsn : Nat} (h : PutAt v loc lsn) : PutAt v' loc lsn := by
  obtain ⟨row, hrow, hrest⟩ := h
  exact ⟨row, hrows hrow, hrest⟩

theorem Aloft.mono {t' : Nat}
    (hnoted : ∀ {id : Nat} {row : Row}, Holds v.noted id row → Holds v'.noted id row)
    (hids : v.noted.map Segment.id ⊆ v'.noted.map Segment.id) (hhanded : v.handed ≤ v'.handed)
    (ht : t ≤ t') (h : Aloft t v flight) : Aloft t' v' flight := by
  cases flight with
  | publish tail row => exact hrows h
  | displace newer => exact le_trans h ht
  | settle newer verdicts =>
    intro x hx hskip
    obtain ⟨id, row, hplace, hrow, hlt⟩ := h x hx hskip
    exact ⟨id, row, hplace, hrows hrow, hlt.trans_le ht⟩
  | asked segment row | lane segment row =>
    exact ⟨hnoted h.1, h.2.1, h.2.2.trans hhanded⟩
  | inserted segment row isNew | back segment row | copy segment row => exact ⟨hnoted h.1, h.2⟩
  | repoint stage source copy lsn => exact ⟨h.1.trans ht, h.2.mono hrows⟩
  | evict stage place =>
    cases stage with
    | look | sealed => trivial
    | mapped => exact hids h
    | paged lsn => exact ⟨h.1, h.2.trans ht⟩

end

theorem Base.grows_lsnAt (h : Base hash key t v flights) (g : Grows v v')
    (hslot : slot ∈ v.spot.slots) : v'.lsnAt key slot = v.lsnAt key slot := by
  obtain ⟨id, row, hp, hrow, hdata, -⟩ := h.slots.points slot hslot
  have hin := g.rows (hrow.mono v.noted_subset)
  rw [h.lsnAt hp hrow hdata, ← (h.rows.own (hrow.mono v.noted_subset)).1]
  exact lsnAt_eq g.sited hp hin hdata

section
variable (h : Forward hash key t v flights evicted)
include h

theorem Forward.grow (g : Grows v v')
    {more : List Flight} (hrows : Rows key t v' (flights ++ more))
    (hheld : ∀ id ∈ v'.held, id ∈ v'.noted.map Segment.id)
    (hwaits : (waiting v' (flights ++ more)).Nodup)
    (hout : ∀ {id : Nat} {row : Row}, Holds v.noted id row → id ∈ waiting v' (flights ++ more) →
      id ∈ waiting v flights)
    (haloft : ∀ flight ∈ more, Aloft t v' flight) (howes : ∀ flight ∈ more, flight.owes t = false)
    (hdropped : Dropped key t v flights evicted →
      (∀ flight ∈ more, ∀ lsn ∈ flight.version, t ≤ lsn) ∧ ∀ segment ∈ v'.unhanded, segment.Recent t) :
    Forward hash key t v' (flights ++ more) evicted := by
  have hb := h.base
  have hlsn : ∀ slot ∈ v'.spot.slots, v'.lsnAt key slot = v.lsnAt key slot :=
    fun slot hslot => hb.grows_lsnAt g (g.spot ▸ hslot)
  refine ⟨⟨by rw [g.index]; exact hb.accepts, by rw [g.index]; exact hb.uncovered, hrows, ?_, ?_, hheld,
    hwaits, ?_⟩, ?_⟩
  · intro entry hget
    rw [g.index] at hget
    obtain ⟨hlsn, hpos, hput⟩ := hb.mapped entry hget
    exact ⟨hlsn, hpos, hput.imp_right (PutAt.mono g.rows)⟩
  · refine ⟨fun slot hslot => ?_, by rw [g.spot]; exact hb.slots.distinct⟩
    obtain ⟨id, row, hp, hrow, hdata, hle, hno⟩ := hb.slots.points slot (g.spot ▸ hslot)
    exact ⟨id, row, hp, g.noted hrow, hdata, hle.trans g.handed, fun hin => hno (hout hrow hin)⟩
  · intro flight hin
    rcases mem_append.mp hin with hin | hin
    · exact (hb.aloft flight hin).mono g.rows g.noted g.ids g.handed (le_refl _)
    · exact haloft flight hin
  · refine h.mode.imp (fun hc => ?_) fun hd => ⟨⟨?_, ?_, (hdropped hd).2⟩, ?_, hd.evicted⟩
    · have hcount : v'.spot.slots.countP (fun slot => v'.lsnAt key slot == some t) =
          v.spot.slots.countP fun slot => v.lsnAt key slot == some t := by
        rw [← g.spot]
        exact countP_congr fun slot hslot => by rw [hlsn slot hslot]
      have hmore : more.countP (Flight.owes t) = 0 :=
        countP_eq_zero.mpr fun flight hin => by simp [howes flight hin]
      rw [Counted, hcount, g.index, countP_append, hmore, Nat.add_zero]
      exact hc
    · intro slot hslot hlive lsn hat
      rw [hlsn slot hslot] at hat
      exact hd.noOlder.slots slot (g.spot ▸ hslot) hlive lsn hat
    · intro flight hin
      rcases mem_append.mp hin with hin | hin
      · exact hd.noOlder.flights flight hin
      · exact (hdropped hd).1 flight hin
    · exact hd.noted.imp_right fun ⟨id, row, hrow, hle⟩ => ⟨id, row, g.noted hrow, hle⟩

theorem Forward.moveOn (g : Grows v v')
    (hrows : Rows key t v' flights) (hheld : ∀ id ∈ v'.held, id ∈ v'.noted.map Segment.id)
    (hwaits : (waiting v' flights).Nodup)
    (hout : ∀ {id : Nat} {row : Row}, Holds v.noted id row → id ∈ waiting v' flights →
      id ∈ waiting v flights)
    (hrecent : Dropped key t v flights evicted → ∀ segment ∈ v'.unhanded, segment.Recent t) :
    Forward hash key t v' flights evicted := by
  have hnil : flights ++ [] = flights := append_nil flights
  have hg : Forward hash key t v' (flights ++ []) evicted := by
    refine h.grow g (hnil.symm ▸ hrows) hheld (hnil.symm ▸ hwaits) ?_ (by simp) (by simp)
      fun hd => ⟨by simp, hrecent hd⟩
    intro id row hrow hin
    exact hout hrow (hnil ▸ hin)
  exact hnil ▸ hg

theorem Forward.join
    (haloft : Aloft t v flight) (hawaits : flight.awaits = none) (howes : flight.owes t = false)
    (hversion : Dropped key t v flights evicted → ∀ lsn ∈ flight.version, t ≤ lsn) :
    Forward hash key t v (flights ++ [flight]) evicted := by
  have hw : waiting v (flights ++ [flight]) = waiting v flights := by
    simp [waiting, filterMap_append, hawaits]
  have g : Grows v v := ⟨h.base.rows.sited, fun h => h, fun h => h, fun _ h => h, rfl, rfl, le_refl _⟩
  refine h.grow g (h.base.rows.reflight fun hin => .inr (mem_append_left _ hin)) h.base.held
    (hw ▸ h.base.waits) (fun _ hin => hw ▸ hin) ?_ ?_ fun hd => ⟨?_, hd.noOlder.unhanded⟩
  · rintro flight hin
    exact mem_singleton.mp hin ▸ haloft
  · rintro flight hin
    exact mem_singleton.mp hin ▸ howes
  · rintro flight hin
    exact mem_singleton.mp hin ▸ hversion hd

end

theorem Recent.nil (t id top : Nat) : Segment.Recent t ⟨id, [], top⟩ := by
  intro row hrow
  cases hrow

variable {segment : Segment}

theorem Recent.push (h : segment.Recent t) (hrow : t ≤ row.lsn) :
    (Volume.Segment.push segment row).Recent t := by
  intro newest hin hmax hdata
  rcases mem_append.mp hin with hin | hin
  · exact h newest hin (fun other ho => hmax other (mem_append_left _ ho)) hdata
  · exact mem_singleton.mp hin ▸ hrow

theorem mem_unhanded : segment ∈ v.unhanded ↔
    segment ∈ v.tails ∨ segment ∈ v.pending ∨ segment ∈ v.noted ∧ segment.id ∈ v.held := by
  simp [Volume.unhanded]

theorem Forward.openTail (h : Forward hash key t v flights evicted) (hid : id ≠ 0)
    (hfresh : ∀ segment ∈ v.segments, segment.id ≠ id) :
    Forward hash key t { v with tails := v.tails ++ [⟨id, [], 0⟩] } flights evicted := by
  have hr := h.base.rows
  have hsited := (hr.sited.cons hid hfresh).perm (v.openTail_perm id)
  have hrows : Rows key t { v with tails := v.tails ++ [⟨id, [], 0⟩] } flights := by
    refine ⟨hsited, fun hrow => hr.own (Volume.openTail_rows.mp hrow), hr.top, hr.noted, ?_⟩
    rintro j row ⟨segment, hs, hj, hrow⟩
    simp only [mem_append, mem_singleton] at hs
    rcases hs with (hs | rfl) | hs
    · exact hr.fresh ⟨segment, mem_append_left _ hs, hj, hrow⟩
    · cases hrow
    · exact hr.fresh ⟨segment, mem_append_right _ hs, hj, hrow⟩
  refine h.moveOn
    ⟨hsited, Volume.openTail_rows.mpr, fun h => h, fun _ h => h, rfl, rfl, le_refl _⟩
    hrows h.base.held h.base.waits (fun _ hin => hin) ?_
  intro hd segment hs
  simp only [mem_unhanded, mem_append, mem_singleton] at hs
  rcases hs with (hs | rfl) | hs
  · exact hd.noOlder.unhanded segment (mem_unhanded.mpr (.inl hs))
  · exact Recent.nil t id 0
  · exact hd.noOlder.unhanded segment (mem_unhanded.mpr (.inr hs))

theorem Forward.sealTail (h : Forward hash key t v flights evicted) (tail : Nat) :
    Forward hash key t (v.sealTail tail) flights evicted := by
  have hr := h.base.rows
  have hperm := v.sealTail_perm tail
  have hrows : Rows key t (v.sealTail tail) flights :=
    ⟨hr.sited.perm hperm, fun hrow => hr.own ((Holds.perm hperm).mp hrow), hr.top, hr.noted,
      fun hrow => hr.fresh ((Holds.perm (v.sealTail_open_perm tail)).mp hrow)⟩
  refine h.moveOn
    ⟨hrows.sited, (Holds.perm hperm).mpr, fun h => h, fun _ h => h, rfl, rfl, le_refl _⟩
    hrows h.base.held h.base.waits (fun _ hin => hin) ?_
  intro hd segment hs
  rcases mem_append.mp hs with hs | hs
  · exact hd.noOlder.unhanded segment
      (mem_append_left _ ((v.sealTail_open_perm tail).subset hs))
  · exact hd.noOlder.unhanded segment (mem_append_right _ hs)

theorem Base.waiting_noted (h : Base hash key t v flights) (hid : id ∈ waiting v flights) :
    id ∈ v.noted.map Segment.id := by
  rcases mem_append.mp hid with hid | hid
  · exact h.held id hid
  · obtain ⟨flight, hin, hawaits⟩ := mem_filterMap.mp hid
    have haloft := h.aloft flight hin
    cases flight with
    | asked segment row | lane segment row =>
      obtain ⟨⟨held, hs, hheld, -⟩, -⟩ := haloft
      cases hawaits
      exact hheld ▸ mem_map_of_mem hs
    | _ => cases hawaits

section
variable (h : Forward hash key t v flights evicted)
include h

theorem Forward.holdSealed
    (hsafe : ∀ flight ∈ flights, ∀ segment ∈ v.pending, flight.publishing ≠ some segment.id) :
    Forward hash key t v.holdSealed flights evicted := by
  have hb := h.base
  have hr := hb.rows
  have hsited := (hr.sited.sublist v.holdSealed_sublist).perm v.holdSealed_perm
  have hpending : ∀ {segment : Segment}, segment ∈ v.kept → segment ∈ v.pending :=
    fun hs => (mem_filter.mp hs).1
  have hrows : Rows key t v.holdSealed flights := by
    refine ⟨hsited, fun hrow => hr.own (Volume.holdSealed_rows.mp hrow), hr.top, ?_, ?_⟩
    · rintro id row ⟨segment, hs, rfl, hrow⟩
      rcases mem_append.mp hs with hs | hs
      · exact hr.noted ⟨segment, hs, rfl, hrow⟩
      · -- a segment noted now holds no record still to be published
        rcases hr.fresh ⟨segment, mem_append_right _ (hpending hs), rfl, hrow⟩ with hle | hin
        · exact hle
        · exact absurd rfl (hsafe _ hin segment (hpending hs))
    · rintro id row ⟨segment, hs, hid, hrow⟩
      have hs : segment ∈ v.tails := by simpa [Volume.holdSealed] using hs
      exact hr.fresh ⟨segment, mem_append_left _ hs, hid, hrow⟩
  have hwait : (waiting v.holdSealed flights).Perm (waiting v flights ++ v.kept.map Segment.id) := by
    simp only [waiting, Volume.holdSealed, append_assoc]
    exact perm_append_comm.append_left _
  refine h.moveOn
    ⟨hsited, Volume.holdSealed_rows.mpr, fun h => h.mono (subset_append_left _ _),
      map_subset _ (subset_append_left _ _), rfl, rfl, le_refl _⟩
    hrows ?_ ?_ ?_ ?_
  · intro id hid
    simp only [Volume.holdSealed, map_append, mem_append] at hid ⊢
    exact hid.imp (hb.held id) fun h => h
  · rw [hwait.nodup_iff]
    refine nodup_append.mpr ⟨hb.waits, Volume.kept_nodup hr.sited, ?_⟩
    rintro id hid _ hin rfl
    exact Volume.kept_fresh hr.sited (hb.waiting_noted hid) hin
  · rintro id row ⟨segment, hs, rfl, -⟩ hid
    rcases mem_append.mp (hwait.subset hid) with hid | hid
    · exact hid
    · exact absurd hid (Volume.kept_fresh hr.sited (mem_map_of_mem hs))
  · intro hd segment hs
    refine hd.noOlder.unhanded segment (mem_unhanded.mpr ?_)
    rcases mem_unhanded.mp hs with hs | hs | ⟨hs, hid⟩
    · exact .inl hs
    · cases hs
    · rcases mem_append.mp hs with hs | hs
      · rcases mem_append.mp hid with hid | hid
        · exact .inr (.inr ⟨hs, hid⟩)
        · exact absurd hid (Volume.kept_fresh hr.sited (mem_map_of_mem hs))
      · exact .inr (.inl (hpending hs))

/-- A record of the key lands in a tail, published or with the operation that will publish it. -/
theorem Forward.land (flight : Flight) {landed : Volume}
    {tail next : Nat} (hl : Volume.Lands v tail row landed) (hkey : row.key = key)
    (hkind : row.kind ≠ .rangeTombstone) (hpos : 1 ≤ row.lsn) (hlt : row.lsn < next)
    (hnext : v.next ≤ next) (hfresh : row.lsn ≤ t ∨ flight = .publish tail row)
    (haloft : Holds landed.segments tail row → Aloft t { landed with next } flight)
    (hawaits : flight.awaits = none) (howes : flight.owes t = false)
    (hversion : Dropped key t v flights evicted → (∀ lsn ∈ flight.version, t ≤ lsn) ∧ t ≤ row.lsn) :
    Forward hash key t { landed with next } (flights ++ [flight]) evicted := by
  have hb := h.base
  have hr := hb.rows
  have hnoted : landed.noted = v.noted := by rw [← hl.rest]
  have hpending : landed.pending = v.pending := by rw [← hl.rest]
  have hheld : landed.held = v.held := by rw [← hl.rest]
  have hindex : landed.index = v.index := by rw [← hl.rest]
  have hspot : landed.spot = v.spot := by rw [← hl.rest]
  have hhanded : v.handed = landed.handed := by rw [← hl.rest]
  have hgrow : Grows v { landed with next } :=
    ⟨hl.placed, fun hrow => hl.rows.mpr (.inl hrow), fun hrow => hnoted ▸ hrow,
      fun id hid => hnoted ▸ hid, hindex, hspot, hhanded.le⟩
  have hw : waiting { landed with next } (flights ++ [flight]) = waiting v flights := by
    simp [waiting, filterMap_append, hawaits, hheld]
  refine h.grow hgrow ⟨hl.placed, ?_, hr.top.trans_le hnext, ?_, ?_⟩ ?_ (hw ▸ hb.waits)
    (fun _ hin => hw ▸ hin) ?_ ?_ fun hd => ⟨?_, ?_⟩
  · intro id other hrow
    rcases hl.rows.mp hrow with hrow | ⟨-, rfl⟩
    · obtain ⟨hk, hp, hone, hbelow⟩ := hr.own hrow
      exact ⟨hk, hp, hone, hbelow.trans_le hnext⟩
    · exact ⟨hkey, hkind, hpos, hlt⟩
  · intro id other hrow
    exact hr.noted (hnoted ▸ hrow)
  · rintro id other ⟨segment, hs, rfl, hrow⟩
    have hold : ∀ {held : Segment}, held ∈ v.tails ++ v.pending → other ∈ held.rows →
        other.lsn ≤ t ∨ .publish held.id other ∈ flights ++ [flight] := by
      intro held hin ho
      exact (hr.fresh ⟨held, hin, rfl, ho⟩).imp_right (mem_append_left _)
    rcases mem_append.mp hs with hs | hs
    · rcases hl.tails segment hs with hs | ⟨hid, held, hin, rfl⟩
      · exact hold (mem_append_left _ hs) hrow
      · rcases mem_append.mp hrow with hrow | hrow
        · exact @hold held (mem_append_left _ hin) hrow
        · obtain rfl := mem_singleton.mp hrow
          rcases hfresh with hle | rfl
          · exact .inl hle
          · exact .inr (hid ▸ mem_append_right _ (mem_singleton_self _))
    · exact hold (mem_append_right _ (hpending ▸ hs)) hrow
  · intro id hid
    exact hnoted ▸ hb.held id (hheld ▸ hid)
  · rintro held hin
    exact mem_singleton.mp hin ▸ haloft (hl.rows.mpr (.inr ⟨rfl, rfl⟩))
  · rintro held hin
    exact mem_singleton.mp hin ▸ howes
  · rintro held hin
    exact mem_singleton.mp hin ▸ (hversion hd).1
  · intro segment hs
    have hold : ∀ {held : Segment}, held ∈ v.unhanded → held.Recent t :=
      fun hin => hd.noOlder.unhanded _ hin
    rcases mem_unhanded.mp hs with hs | hs | ⟨hs, hid⟩
    · rcases hl.tails segment hs with hs | ⟨-, held, hin, rfl⟩
      · exact hold (mem_unhanded.mpr (.inl hs))
      · exact Recent.push (hold (mem_unhanded.mpr (.inl hin))) (hversion hd).2
    · exact hold (mem_unhanded.mpr (.inr (.inl (hpending ▸ hs))))
    · exact hold (mem_unhanded.mpr (.inr (.inr ⟨hnoted ▸ hs, hheld ▸ hid⟩)))

theorem Forward.append {landed : Volume} {tail : Nat}
    (hl : v.append tail (fun _ => row) = some landed) (hkey : row.key = key)
    (hkind : row.kind ≠ .rangeTombstone) (hlsn : row.lsn = v.next) :
    Forward hash key t landed (flights ++ [.publish tail row]) evicted := by
  obtain ⟨held, hheld, rfl⟩ := map_eq_some_iff.mp hl
  have hheld : v.land tail row = some held := hheld
  have htop := h.base.rows.top
  refine h.land (.publish tail row) (Volume.land_lands h.base.rows.sited hheld) hkey hkind (by omega) (by omega)
    (Nat.le_succ _) (.inr rfl) (fun hrow => hrow) rfl rfl fun _ => ⟨?_, by omega⟩
  intro lsn hlsn'
  cases hlsn'
  omega

end

theorem lastRows_eq {rows : List Row} (h : ∀ row ∈ rows, row.key = key) :
    Volume.lastRows rows = rows.getLast?.toList := by
  fun_induction Volume.lastRows rows with
  | case1 => rfl
  | case2 row => rfl
  | case3 row later rest _ ih =>
    rw [ih fun r hr => h r (mem_cons_of_mem _ hr), getLast?_cons_cons]
  | case4 row later rest hne _ =>
    exact absurd ((h later (by simp)).trans (h row (by simp)).symm) hne

theorem handRows_eq (h : ∀ row ∈ segment.rows, row.key = key) :
    Volume.handRows segment = (segment.find key).toList.filter fun row => row.kind = .data := by
  have hown : ∀ row ∈ segment.footerRows, row.key = key := fun row hrow => h row ((mem_sortByKey _).mp hrow)
  have hfilter : segment.footerRows.filter (fun row => row.key = key) = segment.footerRows :=
    filter_eq_self.mpr fun row hrow => by simpa using hown row hrow
  rw [Volume.handRows, lastRows_eq hown, Segment.find, hfilter]

/-- The hand-over of a segment begins: its row, if it has one, is on the way. -/
theorem Forward.handOver (h : Forward hash key t v flights evicted) {held : List Nat}
    (hheld : v.held = id :: held) (hs : segment ∈ v.noted) (hid : segment.id = id)
    (asks : Row → Bool) :
    Forward hash key t
      { v with held, handed := max v.handed (((Volume.handRows segment).map Row.lsn).foldl max 0) }
      (flights ++ (Volume.handRows segment).map fun row =>
        if asks row then .asked id row else .lane id row) evicted := by
  have hb := h.base
  have hr := hb.rows
  have hown : ∀ row ∈ segment.rows, row.key = key := fun row hrow =>
    (hr.own ⟨segment, v.noted_subset hs, rfl, hrow⟩).1
  have hrows := handRows_eq hown
  -- the segment's newest row, where it is a put
  have hnewest : ∀ row ∈ Volume.handRows segment, row ∈ segment.rows ∧ row.kind = .data ∧
      ∀ other ∈ segment.rows, other.lsn ≤ row.lsn := by
    intro row hrow
    rw [hrows] at hrow
    obtain ⟨hfound, hdata⟩ := mem_filter.mp hrow
    have hfind := segment.find_newest key
    rw [mem_toList] at hfound
    rw [hfound] at hfind
    obtain ⟨⟨other, hother, -, hin⟩, -, hmax⟩ := hfind
    rw [mem_singleton.mp hother] at hin
    exact ⟨hin, by simpa using hdata, fun later hlater =>
      hmax segment (by simp) later hlater (hown later hlater)⟩
  have hmore : ((Volume.handRows segment).map fun row =>
      if asks row then Flight.asked id row else .lane id row).filterMap Flight.awaits = [] ∨
      ((Volume.handRows segment).map fun row =>
        if asks row then Flight.asked id row else .lane id row).filterMap Flight.awaits = [id] := by
    rw [hrows]
    cases segment.find key with
    | none => exact .inl rfl
    | some row =>
      cases hk : decide (row.kind = .data) with
      | false => exact .inl (by simp [hk])
      | true =>
        right
        simp only [toList_some, filter_cons, hk, if_true, filter_nil, map_cons,
          map_nil]
        cases asks row <;> rfl
  generalize hflights : ((Volume.handRows segment).map fun row =>
      if asks row then Flight.asked id row else .lane id row) = more at hmore ⊢
  have hle : ∀ row ∈ Volume.handRows segment,
      row.lsn ≤ ((Volume.handRows segment).map Row.lsn).foldl max 0 := by
    intro row hrow
    rw [foldl_eq_foldr]
    exact le_max_of_le' 0 (mem_map_of_mem hrow) (le_refl _)
  generalize ((Volume.handRows segment).map Row.lsn).foldl max 0 = newest at hle ⊢
  have hmem : ∀ flight ∈ more, ∃ row ∈ Volume.handRows segment,
      flight = if asks row then Flight.asked id row else .lane id row := by
    intro flight hin
    rw [← hflights] at hin
    obtain ⟨row, hrow, rfl⟩ := mem_map.mp hin
    exact ⟨row, hrow, rfl⟩
  have hwait : (waiting { v with held } (flights ++ more)).Subperm (waiting v flights) := by
    have hperm : (waiting v flights).Perm (held ++ flights.filterMap Flight.awaits ++ [id]) := by
      simp only [waiting, hheld]
      exact (perm_append_singleton _ _).symm
    simp only [waiting, filterMap_append, ← append_assoc]
    refine List.Subperm.trans ?_ hperm.symm.subperm
    rcases hmore with he | he <;> rw [he]
    rw [append_nil]
    exact (sublist_append_left _ _).subperm
  have hnodup : (waiting { v with held } (flights ++ more)).Nodup := by
    obtain ⟨l, hperm, hsub⟩ := hwait
    exact hperm.nodup_iff.mp (hb.waits.sublist hsub)
  have g : Grows v { v with held, handed := max v.handed newest } :=
    ⟨hr.sited, fun h => h, fun h => h, fun _ h => h, rfl, rfl, le_max_left _ _⟩
  refine h.grow g
    ⟨hr.sited, hr.own, hr.top, hr.noted, fun hrow => (hr.fresh hrow).imp_right (mem_append_left _)⟩
    ?_ hnodup (fun _ hin => hwait.subset hin) ?_ ?_ fun hd => ⟨?_, ?_⟩
  · intro j hj
    exact hb.held j (by rw [hheld]; exact mem_cons_of_mem _ hj)
  · intro flight hin
    obtain ⟨row, hrow, rfl⟩ := hmem flight hin
    obtain ⟨hin, hdata, -⟩ := hnewest row hrow
    cases asks row <;>
      exact ⟨⟨segment, hs, hid, hin⟩, hdata, (hle row hrow).trans (le_max_right _ _)⟩
  · intro flight hin
    obtain ⟨row, -, rfl⟩ := hmem flight hin
    cases asks row <;> rfl
  · intro flight hin lsn hlsn
    obtain ⟨row, hrow, rfl⟩ := hmem flight hin
    obtain ⟨hin, hdata, hmax⟩ := hnewest row hrow
    have hrecent := hd.noOlder.unhanded segment (mem_unhanded.mpr (.inr (.inr
      ⟨hs, by rw [hheld, hid]; exact mem_cons_self⟩)))
    cases ha : asks row with
    | true => simp [ha, Flight.version] at hlsn
    | false =>
      simp only [ha, Bool.false_eq_true, if_false, Flight.version, mem_def,
        Option.some.injEq] at hlsn
      exact hlsn ▸ hrecent row hin hmax hdata
  · intro other hother
    refine hd.noOlder.unhanded other (mem_unhanded.mpr ?_)
    refine (mem_unhanded.mp hother).imp_right (Or.imp_right fun ⟨hin, hj⟩ => ⟨hin, ?_⟩)
    rw [hheld]
    exact mem_cons_of_mem _ hj

theorem Ahead.handOver {s : Traffic} (h : Ahead hash key t s) (asksAll : Bool) :
    Ahead hash key t (s.handOver asksAll) := by
  unfold Traffic.handOver
  cases hheld : s.volume.held with
  | nil => simpa only [hheld] using h
  | cons id held =>
    cases hfind : s.volume.noted.find? (·.id == id) with
    | none =>
      obtain ⟨segment, hs, hid⟩ := mem_map.mp (h.base.held id (by simp [hheld]))
      simpa [hid] using find?_eq_none.mp hfind segment hs
    | some segment =>
      have hid : segment.id = id := by simpa using find?_some hfind
      simp only [hheld, hfind]
      exact Forward.handOver h hheld (mem_of_find?_eq_some hfind) hid
        fun row => asksAll || decide (row.lsn ≤ s.volume.index.lifted)

end Traffic

end Reel
