import Reel.Index.Forward

/-!
Each operation's step keeps a key's newest version ahead, so no run that meets the steps'
conditions takes it back. The runs at the end do take it back.
-/

set_option autoImplicit false

namespace Reel
open Bytes StableSort List ColumnIndex Volume

namespace Traffic
variable {hash : Str → UInt64} {key : Str} {t : Nat} {v v' : Volume} {flights rest : List Flight}
  {evicted : List Nat}

variable {flight : Flight}

section
variable (h : Forward hash key t v (flight :: rest) evicted) (hpub : flight.publishing = none)
include h hpub

theorem Forward.goOn {next : Flight} (haloft : Aloft t v next) (hawaits : next.awaits = none)
    (howes : next.owes t = true → flight.owes t = true)
    (hversion : Dropped key t v (flight :: rest) evicted → ∀ lsn ∈ next.version, t ≤ lsn) :
    Forward hash key t v (rest ++ [next]) evicted := by
  have hb := h.base
  have hw : (waiting v (rest ++ [next])).Sublist (waiting v (flight :: rest)) := by
    have hsame : waiting v (rest ++ [next]) = waiting v rest := by
      simp [waiting, filterMap_append, hawaits]
    rw [hsame]
    exact ((sublist_cons_self flight rest).filterMap _).append_left _
  refine ⟨⟨hb.accepts, hb.uncovered, hb.rows.reflight ?_, hb.mapped, hb.slots.mono hw.subset, hb.held,
    hb.waits.sublist hw, ?_⟩, ?_⟩
  · intro id row hin
    rcases mem_cons.mp hin with rfl | hin
    · cases hpub
    · exact .inr (mem_append_left _ hin)
  · intro held hin
    rcases mem_append.mp hin with hin | hin
    · exact hb.aloft held (mem_cons_of_mem _ hin)
    · exact mem_singleton.mp hin ▸ haloft
  · refine h.mode.imp (fun hc => ?_) fun hd => ⟨⟨hd.noOlder.slots, ?_, hd.noOlder.unhanded⟩,
      hd.noted, hd.evicted⟩
    · simp only [Counted, countP_cons, countP_append, countP_nil] at hc ⊢
      cases hn : next.owes t with
      | false => simp only [Bool.false_eq_true, if_false]; omega
      | true => simp only [howes hn, if_true] at hc ⊢; omega
    · intro held hin
      rcases mem_append.mp hin with hin | hin
      · exact hd.noOlder.flights held (mem_cons_of_mem _ hin)
      · exact mem_singleton.mp hin ▸ hversion hd

theorem Forward.finish : Forward hash key t v rest evicted := by
  refine h.drop ?_
  rintro tail row rfl
  cases hpub

end

variable {index : ColumnIndex} {spot : SpotColumn}

theorem counted_iff :
    Counted key t { v with index, spot } flights ↔
      1 + flights.countP (Flight.owes t) ≤
        spot.slots.countP (fun slot => v.lsnAt key slot == some t) +
          if (index.map.get key).isSome then 1 else 0 := Iff.rfl

theorem Rows.turn (h : Rows key t v flights) (index : ColumnIndex) (spot : SpotColumn) :
    Rows key t { v with index, spot } flights := ⟨h.sited, h.own, h.top, h.noted, h.fresh⟩

theorem Dropped.turn (h : Dropped key t v flights evicted) (index : ColumnIndex) :
    Dropped key t { v with index } flights evicted :=
  ⟨⟨h.noOlder.slots, h.noOlder.flights, h.noOlder.unhanded⟩, h.noted, h.evicted⟩

theorem Forward.turn {evicted' : List Nat} (h : Forward hash key t v flights evicted)
    (hwidth : index.width = v.index.width)
    (hcovers : index.covers = v.index.covers) (hmapped : Mapped key t { v with index, spot })
    (hslots : Slots hash { v with index, spot } (waiting v flights))
    (hmode : Counted key t { v with index, spot } flights ∨
      Dropped key t { v with index, spot } flights evicted') :
    Forward hash key t { v with index, spot } flights evicted' :=
  have hb := h.base
  ⟨⟨by rw [hwidth]; exact hb.accepts, by rw [hcovers]; exact hb.uncovered,
    hb.rows.turn index spot, hmapped, hslots, hb.held, hb.waits,
    fun flight hin => (hb.aloft flight hin).mono (fun h => h) (fun h => h) (fun _ h => h) (le_refl _)
      (le_refl _)⟩, hmode⟩

section
variable {mark lose : Slot → Prop}

theorem Slots.fade {w : List Nat} (h : Slots hash v w) (hf : Fades mark lose v.spot.slots spot.slots) :
    Slots hash { v with index, spot } w := by
  refine ⟨fun slot hslot => ?_, hf.distinct⟩
  rcases hf.old slot hslot with hold | ⟨first, hfirst, -, rfl⟩
  · exact h.points slot hold
  · obtain ⟨id, row, hp, hrest⟩ := h.points first hfirst
    exact ⟨id, row, hp.displaced, hrest⟩

theorem NoOlder.fade (h : NoOlder key t v flights) (hf : Fades mark lose v.spot.slots spot.slots) :
    NoOlder key t { v with index, spot } flights := by
  refine ⟨fun slot hslot hlive => ?_, h.flights, h.unhanded⟩
  rcases hf.old slot hslot with hold | ⟨first, -, -, rfl⟩
  · exact h.slots slot hold hlive
  · cases hlive

theorem Dropped.fade (h : Dropped key t v flights evicted) (hf : Fades mark lose v.spot.slots spot.slots) :
    Dropped key t { v with index, spot } flights evicted :=
  ⟨NoOlder.fade h.noOlder hf, h.noted, h.evicted⟩

end

variable {id : Nat} {row : Row}

theorem Base.lsnAt_place (h : Base hash key t v flights) {slot : Slot} (hslot : slot ∈ v.spot.slots)
    (hplace : slot.place = (id, row.offset)) (hrow : Holds v.segments id row) :
    v.lsnAt key slot = some row.lsn := by
  obtain ⟨j, other, hp, hother, hdata, -⟩ := h.slots.points slot hslot
  obtain ⟨rfl, hoff⟩ := Prod.mk.inj (hp.place.symm.trans hplace)
  rw [h.lsnAt hp hother hdata, h.rows.sited.row_eq (hother.mono v.noted_subset) hrow hoff]

theorem Forward.settle {newer : Nat} {verdicts : List (Slot × Verdict)}
    (h : Forward hash key t v (.settle newer verdicts :: rest) evicted) :
    Forward hash key t
      { v with spot := v.spot.takeSettled key newer (settleApply v.spot.slots (hash key) verdicts) }
      rest evicted := by
  have hb := h.base
  have hf := settleApply_fades hb.slots.distinct (hash key) verdicts
  have h' := h.finish rfl
  refine h'.turn rfl rfl hb.mapped (h'.base.slots.fade hf) (h'.mode.imp (fun hc => ?_) fun hd =>
    hd.fade hf)
  have hle : v.spot.slots.countP (fun slot => v.lsnAt key slot == some t) ≤
      (settleApply v.spot.slots (hash key) verdicts).1.countP fun slot => v.lsnAt key slot == some t := by
    refine hf.countP_le hb.slots.distinct (fun _ => rfl) ?_
    rintro slot hslot ⟨x, hx, hskip, hn⟩
    obtain ⟨id, row, hplace, hrow, hlt⟩ := hb.aloft _ mem_cons_self x hx hskip
    simp only [names, Bool.and_eq_true, Slot.samePlace_iff] at hn
    rw [hb.lsnAt_place hslot (hn.2.1.trans hplace) hrow]
    simp only [beq_eq_false_iff_ne, ne_eq, Option.some.injEq]
    omega
  simp only [Counted] at hc ⊢
  exact hc.trans (Nat.add_le_add_right hle _)

variable {segment : Nat}

theorem Forward.back
    (h : Forward hash key t v (.back segment row :: rest) evicted) :
    Forward hash key t
      { v with spot := v.spot.setSlots (removeAt v.spot.slots (hash key) (row.loc segment)) }
      rest evicted := by
  have hb := h.base
  have htakes := removeAt_takesAt v.spot.slots (hash key) (row.loc segment)
  have hf := htakes.fades hb.slots.distinct
  have h' := h.finish rfl
  refine h'.turn rfl rfl hb.mapped (h'.base.slots.fade hf)
    (h.mode.imp (fun hc => ?_) fun hd => hd.tail.fade hf)
  have hle : v.spot.slots.countP (fun slot => v.lsnAt key slot == some t) ≤
      (removeAt v.spot.slots (hash key) (row.loc segment)).countP
        (fun slot => v.lsnAt key slot == some t) + if row.lsn == t then 1 else 0 := by
    by_cases hlsn : row.lsn = t
    · simpa [hlsn] using htakes.countP_le fun slot => v.lsnAt key slot == some t
    · rw [if_neg (by simpa using hlsn)]
      refine hf.countP_le hb.slots.distinct (fun _ => rfl) fun slot hslot hplace => ?_
      obtain ⟨hrow, -⟩ := hb.aloft _ mem_cons_self
      rw [hb.lsnAt_place hslot hplace (hrow.mono v.noted_subset)]
      simpa using hlsn
  simp only [Counted, countP_cons, Flight.owes] at hc
  refine counted_iff.mpr ?_
  cases hlsn : row.lsn == t <;>
    simp only [hlsn, SpotColumn.setSlots, Bool.false_eq_true, if_false, if_true] at hc hle ⊢ <;> omega

theorem PutAt.row_lsn (hsited : Sited v.segments) {lsn : Nat}
    (h : PutAt v (row.loc id) lsn) (hrow : Holds v.segments id row) : row.lsn = lsn := by
  obtain ⟨other, hother, hloc, -, rfl⟩ := h
  simp only [Row.loc, Loc.mk.injEq, true_and] at hother hloc
  rw [hsited.row_eq hrow hother hloc.1.symm]

theorem Base.holds_newest (h : Base hash key t v flights)
    (hrow : Holds v.segments id row) (hh : v.index.holds key (row.loc id) = true) :
    row.lsn = t ∧ (v.index.map.get key).isSome = true := by
  simp only [holds, Bool.and_eq_true, Option.any_eq_true, decide_eq_true_eq,
    Bool.not_eq_true'] at hh
  obtain ⟨-, existing, hget, ⟨hloc, hgrave⟩, -⟩ := hh
  obtain ⟨-, -, hput⟩ := h.mapped existing hget
  rcases hput with hno | hput
  · rw [hgrave] at hno
    cases hno
  · rw [hloc] at hput
    exact ⟨hput.row_lsn h.rows.sited hrow, by rw [hget]; rfl⟩

theorem Mapped.take (v : Volume) (key : Str) (t : Nat) (spot : SpotColumn) :
    Mapped key t { v with index := v.index.setMap (v.index.map.take key), spot } := by
  intro entry hget
  have hnone : (v.index.map.take key).get key = none := by rw [SortedMap.get_take, if_pos rfl]
  have hget : (v.index.map.take key).get key = some entry := hget
  rw [hnone] at hget
  cases hget

theorem isSome_take (v : Volume) (key : Str) : ((v.index.map.take key).get key).isSome = false := by
  rw [SortedMap.get_take, if_pos rfl]
  rfl

theorem Forward.inserted {isNew : Bool}
    (h : Forward hash key t v (.inserted segment row isNew :: rest) evicted) :
    Forward hash key t { v with index := (v.index.pageOut key (row.loc segment)).1 }
      (rest ++ if isNew && !(v.index.pageOut key (row.loc segment)).2 then [.back segment row] else [])
      evicted := by
  have hb := h.base
  obtain ⟨hrow, hdata⟩ := hb.aloft _ mem_cons_self
  unfold pageOut
  by_cases hh : v.index.holds key (row.loc segment) = true
  · obtain ⟨hlsn, hsome⟩ := hb.holds_newest (hrow.mono v.noted_subset) hh
    simp only [hh, if_true, Bool.not_true, Bool.and_false, Bool.false_eq_true, if_false,
      append_nil]
    have h' := h.finish rfl
    refine h'.turn rfl rfl (Mapped.take v key t v.spot) ⟨h'.base.slots.points, h'.base.slots.distinct⟩
      (h.mode.imp (fun hc => ?_) fun hd => hd.tail.turn _)
    simp only [Counted, countP_cons, Flight.owes, hlsn, beq_self_eq_true, hsome, if_true] at hc
    refine counted_iff.mpr ?_
    simp only [setMap, isSome_take v key, Bool.false_eq_true, if_false]
    omega
  · simp only [hh, Bool.false_eq_true, if_false, Bool.not_false, Bool.and_true]
    cases isNew with
    | true => exact h.goOn rfl ⟨hrow, hdata⟩ rfl (fun howes => howes) fun _ lsn hlsn => by cases hlsn
    | false =>
      rw [if_neg (by simp), append_nil]
      exact h.finish rfl

theorem Base.fresh_place (h : Base hash key t v flights) (hid : id ∈ waiting v flights)
    (offset : Nat) : ∀ slot ∈ v.spot.slots, slot.place ≠ (id, offset) := by
  intro slot hslot hplace
  obtain ⟨j, row, hp, -, -, -, hout⟩ := h.slots.points slot hslot
  exact hout ((Prod.mk.inj (hp.place.symm.trans hplace)).1 ▸ hid)

theorem Slots.push {w : List Nat} (h : Slots hash v w)
    (hrow : Holds v.noted id row) (hdata : row.kind = .data) (hle : row.lsn ≤ v.handed) (hid : id ∉ w)
    (hfresh : ∀ slot ∈ v.spot.slots, slot.place ≠ (id, row.offset)) (index : ColumnIndex) :
    Slots hash { v with
      index, spot := v.spot.setSlots (v.spot.slots ++ [Slot.new (hash row.key) (row.loc id)]) } w := by
  refine ⟨?_, ?_⟩
  · intro slot hslot
    rcases mem_append.mp hslot with hslot | hslot
    · exact h.points slot hslot
    · rw [mem_singleton.mp hslot]
      exact ⟨id, row, points_new hash id row, hrow, hdata, hle, hid⟩
  · change (List.map Slot.place (v.spot.slots ++ [Slot.new (hash row.key) (row.loc id)])).Nodup
    rw [map_append]
    refine nodup_append.mpr ⟨h.distinct, by simp, ?_⟩
    rintro a ha b hb rfl
    obtain ⟨slot, hslot, rfl⟩ := mem_map.mp ha
    exact hfresh slot hslot (mem_singleton.mp hb)

theorem Base.awaited (h : Base hash key t v (flight :: rest))
    (hid : flight.awaits = some id) : id ∈ waiting v (flight :: rest) ∧ id ∉ waiting v rest := by
  have hperm : (waiting v (flight :: rest)).Perm (id :: waiting v rest) := by
    simp only [waiting, filterMap_cons, hid]
    exact perm_middle
  exact ⟨hperm.symm.subset mem_cons_self, (nodup_cons.mp (hperm.nodup_iff.mp h.waits)).1⟩

theorem NoOlder.push (hash : Str → UInt64) (h : NoOlder key t v flights) (hsited : Sited v.segments)
    (hrow : Holds v.segments id row) (hkey : row.key = key) (hdata : row.kind = .data)
    (hle : t ≤ row.lsn) (index : ColumnIndex) :
    NoOlder key t { v with
      index, spot := v.spot.setSlots (v.spot.slots ++ [Slot.new (hash row.key) (row.loc id)]) }
      flights := by
  refine ⟨?_, h.flights, h.unhanded⟩
  intro slot hslot hlive lsn hlsn
  rcases mem_append.mp hslot with hslot | hslot
  · exact h.slots slot hslot hlive lsn hlsn
  · subst hkey
    rw [mem_singleton.mp hslot] at hlsn
    have hat := lsnAt_eq hsited (points_new hash id row) hrow hdata
    have hlsn : v.lsnAt row.key (Slot.new (hash row.key) (row.loc id)) = some lsn := hlsn
    rw [hat] at hlsn
    cases hlsn
    exact hle

theorem countP_push (hash : Str → UInt64) (hsited : Sited v.segments) (hrow : Holds v.segments id row)
    (hdata : row.kind = .data) (t : Nat) :
    (v.spot.slots ++ [Slot.new (hash row.key) (row.loc id)]).countP
        (fun slot => v.lsnAt row.key slot == some t) =
      v.spot.slots.countP (fun slot => v.lsnAt row.key slot == some t) +
        if row.lsn == t then 1 else 0 := by
  rw [countP_append, countP_singleton, lsnAt_eq hsited (points_new hash id row) hrow hdata]
  simp

theorem Forward.lane
    (h : Forward hash key t v (.lane segment row :: rest) evicted) :
    Forward hash key t
      { v with spot := v.spot.setSlots (putIn v.spot.slots (hash key) (row.loc segment)).1 }
      (rest ++ [.inserted segment row (putIn v.spot.slots (hash key) (row.loc segment)).2]) evicted := by
  have hb := h.base
  obtain ⟨hrow, hdata, hle⟩ := hb.aloft _ mem_cons_self
  have hin := hrow.mono v.noted_subset
  obtain ⟨hwait, hout⟩ := hb.awaited rfl
  have hfresh := hb.fresh_place hwait row.offset
  obtain rfl := (hb.rows.own hin).1
  rw [putIn_fresh (row.loc segment) hfresh]
  have h' := h.finish rfl
  have hr := hb.rows
  refine Forward.perm ?_ (perm_append_singleton _ _)
  refine ⟨⟨hb.accepts, hb.uncovered,
    (h'.base.rows.reflight fun hin => .inr (mem_cons_of_mem _ hin)).turn _ _, hb.mapped,
    h'.base.slots.push hrow hdata hle hout hfresh v.index, hb.held, h'.base.waits, ?_⟩, ?_⟩
  · intro flight hin
    rcases mem_cons.mp hin with rfl | hin
    · exact ⟨hrow, hdata⟩
    · exact h'.base.aloft flight hin
  · refine h.mode.imp (fun hc => ?_) fun hd => ⟨?_, hd.noted, hd.evicted⟩
    · simp only [Counted, countP_cons, Flight.owes, Bool.false_eq_true, if_false] at hc
      refine counted_iff.mpr ?_
      simp only [countP_cons, Flight.owes, SpotColumn.setSlots, countP_push hash hr.sited hin hdata t]
      by_cases hlsn : row.lsn = t
      · simp only [hlsn, beq_self_eq_true, if_true]
        omega
      · simp only [beq_eq_false_iff_ne.mpr hlsn, Bool.false_eq_true, if_false]
        omega
    · have hversion : t ≤ row.lsn := hd.noOlder.flights _ mem_cons_self row.lsn rfl
      have hpush := NoOlder.push hash hd.tail.noOlder hr.sited hin rfl hdata hversion v.index
      refine ⟨hpush.slots, ?_, hpush.unhanded⟩
      intro flight hflight
      rcases mem_cons.mp hflight with rfl | hflight
      · intro lsn hlsn
        cases hlsn
      · exact hpush.flights flight hflight

theorem Forward.asked
    (h : Forward hash key t v (.asked segment row :: rest) evicted) :
    Forward hash key t (v.paged hash [(key, row.loc segment)]) rest evicted := by
  have hb := h.base
  obtain ⟨hrow, hdata, hle⟩ := hb.aloft _ mem_cons_self
  have hin := hrow.mono v.noted_subset
  obtain ⟨hwait, hout⟩ := hb.awaited rfl
  have hfresh := hb.fresh_place hwait row.offset
  have h' := h.finish rfl
  simp only [Volume.paged, foldl_cons, foldl_nil, pageAsked, pageOut]
  by_cases hh : v.index.holds key (row.loc segment) = true
  · obtain ⟨hlsn, hsome⟩ := hb.holds_newest hin hh
    obtain rfl := (hb.rows.own hin).1
    simp only [hh, if_true, putIn_fresh (row.loc segment) hfresh]
    refine h'.turn rfl rfl (Mapped.take v row.key t _)
      (h'.base.slots.push hrow hdata hle hout hfresh _)
      (h'.mode.imp (fun hc => ?_) fun hd => ⟨?_, hd.noted, hd.evicted⟩)
    · simp only [Counted, hsome, if_true] at hc
      refine counted_iff.mpr ?_
      simp only [SpotColumn.setSlots, setMap, isSome_take v row.key,
        countP_push hash hb.rows.sited hin hdata t, hlsn, beq_self_eq_true, if_true,
        Bool.false_eq_true, if_false]
      omega
    · exact NoOlder.push hash hd.noOlder hb.rows.sited hin rfl hdata hlsn.ge _
  · simp only [hh, Bool.false_eq_true, if_false]
    exact h'

theorem Base.holdsNewer_iff (h : Base hash key t v flights) (cache : Cache) (lsn : Nat) :
    v.spot.holdsNewer (v.sources hash cache) key lsn = true ↔
      ∃ slot ∈ v.spot.slots, ∃ id row, Points hash slot id row ∧ Holds v.noted id row ∧
        row.kind = .data ∧ lsn < row.lsn := by
  have hhead : ∀ {slot : Slot} {id : Nat} {row : Row}, Points hash slot id row → Holds v.noted id row →
      row.kind = .data → row.key = key ∧
        (v.sources hash cache).records.head key slot.segment slot.offset =
          .same ⟨row.lsn, row.len, false⟩ := by
    intro slot id row hp hrow hdata
    have hin := hrow.mono v.noted_subset
    obtain rfl := (h.rows.own hin).1
    exact ⟨rfl, (slot_head h.rows.sited hp hin row.key).trans (headFor_of_data hdata)⟩
  simp only [SpotColumn.holdsNewer, any_eq_true, Bool.and_eq_true]
  constructor
  · rintro ⟨slot, hslot, -, hnewer⟩
    have hin := (mem_slotMatches.mp hslot).1
    obtain ⟨id, row, hp, hrow, hdata, -⟩ := h.slots.points slot hin
    rw [(hhead hp hrow hdata).2] at hnewer
    exact ⟨slot, hin, id, row, hp, hrow, hdata, by simpa using hnewer⟩
  · rintro ⟨slot, hslot, id, row, hp, hrow, hdata, hlt⟩
    obtain ⟨hkey, hsame⟩ := hhead hp hrow hdata
    refine ⟨slot, mem_slotMatches.mpr ⟨hslot, ?_⟩, ?_, by rw [hsame]; simpa using hlt⟩
    · rw [← hkey]
      exact hp.bits
    · -- a ceiling at or under the number would be under the slot's own record
      rw [Bool.not_eq_true', Option.any_eq_false]
      intro ceiling hc
      rw [(Prod.mk.inj hp.place).1] at hc
      have := maxLsnOf_le h.rows.sited hrow ceiling hc
      simpa using hlt.trans_le this

variable {entry : Entry}

theorem fillEmpty_eq {key : Str}
    (hacc : index.width.accepts key = true) :
    index.fillEmpty key entry =
      if (index.map.get key).isSome then (index, false)
      else (index.setMap (index.map.put key entry), true) := by
  simp [fillEmpty, hacc]

theorem Forward.fill (h : Forward hash key t v (flight :: rest) evicted)
    (hpub : flight.publishing = none) (hmap : v.index.map.get key = none)
    (hlsn : entry.lsn = t) (hpos : 1 ≤ t) (hentry : entry.isGrave = true ∨ PutAt v entry.loc t)
    (take : Loc) :
    Forward hash key t
      { v with
        index := v.index.setMap (v.index.map.put key entry)
        spot := v.spot.setSlots (takeLive v.spot.slots (hash key) take).1 } rest evicted := by
  have h' := h.finish hpub
  have htakes := takeLive_takesAt v.spot.slots (hash key) take
  have hf := htakes.fades h.base.slots.distinct
  have hget : (v.index.map.put key entry).get key = some entry := by rw [SortedMap.get_put, if_pos rfl]
  refine h'.turn rfl rfl ?_ (h'.base.slots.fade hf) (h'.mode.imp (fun hc => ?_) fun hd => hd.fade hf)
  · intro held hheld
    have hheld : (v.index.map.put key entry).get key = some held := hheld
    rw [hget] at hheld
    cases hheld
    exact ⟨hlsn, hpos, hentry⟩
  · have hle := htakes.countP_le fun slot => v.lsnAt key slot == some t
    simp only [Counted, hmap, Option.isSome_none, Bool.false_eq_true, if_false] at hc
    refine counted_iff.mpr ?_
    simp only [SpotColumn.setSlots, setMap, hget, Option.isSome_some, if_true]
    omega

theorem Forward.decided (h : Forward hash key t v (flight :: rest) evicted)
    {lsn : Nat} (hmap : v.index.map.get key = none) (hle : lsn ≤ t)
    (hversion : flight.version = some lsn)
    (hnewer : v.spot.holdsNewer (v.sources hash .warm) key lsn = false) : lsn = t := by
  refine le_antisymm hle ?_
  rcases h.mode with hc | hd
  · obtain ⟨slot, hslot, id, row, hp, hrow, hdata, hlsn, -⟩ := h.base.counted_slot hc hmap
    by_contra hlt
    have := (h.base.holdsNewer_iff .warm lsn).mpr ⟨slot, hslot, id, row, hp, hrow, hdata, by omega⟩
    rw [hnewer] at this
    cases this
  · exact hd.noOlder.flights flight mem_cons_self lsn hversion

variable {s : Traffic}

theorem Forward.repoint {stage : RepointStage} {source : Option Loc} {copy : Loc}
    {lsn : Nat} (h : Forward hash key t s.volume (.repoint stage source copy lsn :: s.flights) s.evicted)
    (hsafe : FlightSafe hash key s.volume s.flights (.repoint stage source copy lsn)) :
    Ahead hash key t (s.repoint hash key source copy lsn stage) := by
  have hb := h.base
  have haloft : lsn ≤ t ∧ PutAt s.volume copy lsn := hb.aloft _ mem_cons_self
  have hdone := h.finish rfl
  -- every later stage knows what this one does
  have hnext : ∀ stage', Forward hash key t s.volume (s.flights ++ [.repoint stage' source copy lsn])
      s.evicted := fun stage' => h.goOn rfl haloft rfl (fun howes => by cases howes)
        fun hd => hd.noOlder.flights (.repoint stage source copy lsn) mem_cons_self
  cases stage with
  | look =>
    simp only [Traffic.repoint]
    split
    · exact hnext _
    · exact hnext _
  | again =>
    simp only [Traffic.repoint]
    split
    · exact hdone
    · exact hnext _
  | spot =>
    simp only [Traffic.repoint]
    split
    · exact hnext _
    · exact hnext _
  | footers =>
    simp only [Traffic.repoint]
    split
    · split
      · exact hnext _
      · exact hdone
    · exact hdone
    · exact hdone
  | mapped =>
    simp only [Traffic.repoint, ColumnIndex.repoint, hb.accepts, Bool.not_true, Bool.false_eq_true, if_false]
    cases hget : s.volume.index.map.get key with
    | none => exact hnext _
    | some existing =>
      simp only
      by_cases hsame : existing.lsn = lsn ∧ !existing.isGrave
      · rw [if_pos hsame]
        have hlsn : lsn = t := hsame.1.symm.trans (hb.mapped existing hget).1
        have hput : (s.volume.index.map.put key ⟨copy, lsn⟩).get key = some ⟨copy, lsn⟩ := by
          rw [SortedMap.get_put, if_pos rfl]
        simp only [Traffic.goOn, append_nil]
        refine hdone.turn rfl rfl ?_ ⟨hdone.base.slots.points, hdone.base.slots.distinct⟩
          (hdone.mode.imp (fun hc => ?_) fun hd => hd.turn _)
        · intro entry hentry
          have hentry : (s.volume.index.map.put key ⟨copy, lsn⟩).get key = some entry := hentry
          rw [hput] at hentry
          cases hentry
          exact ⟨hlsn, (hb.mapped existing hget).2.1, .inr (hlsn ▸ haloft.2)⟩
        · simp only [Counted, hget, Option.isSome_some, if_true] at hc
          refine counted_iff.mpr ?_
          simp only [setMap, hput, Option.isSome_some, if_true]
          exact hc
      · rw [if_neg hsame]
        exact hnext _
  | paged take =>
    simp only [Traffic.repoint, repointPaged, fillEmpty_eq hb.accepts]
    cases hget : s.volume.index.map.get key with
    | some existing => exact hdone
    | none =>
      have hlsn := h.decided hget haloft.1 rfl (hsafe hget)
      simp only [Option.isSome_none, Bool.false_eq_true, if_false, Traffic.goOn, append_nil]
      obtain ⟨row, hrow, -, -, heq⟩ := haloft.2
      have hpos : 1 ≤ t := by rw [← hlsn, ← heq]; exact (hb.rows.own hrow).2.2.1
      exact h.fill rfl hget hlsn hpos (.inr (hlsn ▸ haloft.2)) take

theorem Forward.evict {stage : EvictStage} {place : Loc}
    (h : Forward hash key t s.volume (.evict stage place :: s.flights) s.evicted)
    (hsafe : FlightSafe hash key s.volume s.flights (.evict stage place)) :
    Ahead hash key t (s.evict hash key place stage) := by
  have hb := h.base
  have haloft := hb.aloft _ mem_cons_self
  have hdone := h.finish rfl
  cases stage with
  | look =>
    simp only [Traffic.evict]
    split
    · split
      · rename_i hnoted
        obtain ⟨segment, hs, hid⟩ := any_eq_true.mp hnoted
        refine h.goOn rfl ?_ rfl (fun howes => by cases howes) fun _ lsn hlsn => by cases hlsn
        exact mem_map.mpr ⟨segment, hs, by simpa using hid⟩
      · exact hdone
    · exact h.goOn rfl trivial rfl (fun howes => by cases howes) fun _ lsn hlsn => by cases hlsn
  | «sealed» =>
    simp only [Traffic.evict]
    split
    · rename_i entry hlive
      split
      · obtain ⟨hnewest, -⟩ := Option.filter_eq_some_iff.mp hlive
        obtain ⟨id, row, hrow, rfl, hle⟩ := h.newestLive_spec hnewest
        refine h.goOn rfl ?_ rfl (fun howes => by cases howes) fun hd lsn hlsn => ?_
        · change 1 ≤ (row.entry id).lsn ∧ (row.entry id).lsn ≤ t
          rw [entry_lsn]
          exact ⟨(hb.rows.own (hrow.mono s.volume.noted_subset)).2.2.1, hb.rows.noted hrow⟩
        · cases hlsn
          rw [entry_lsn]
          exact hle (.inr hd)
      · exact hdone
    · exact hdone
  | mapped =>
    simp only [Traffic.evict, evictAt, hb.accepts, Bool.not_true, Bool.false_eq_true, if_false]
    cases hget : s.volume.index.map.get key with
    | none =>
      simp only [Bool.false_eq_true, if_false, append_nil]
      exact hdone
    | some existing =>
      simp only
      by_cases hloc : existing.loc = place
      · obtain ⟨hlsn, -, hput⟩ := hb.mapped existing hget
        have hnone := hsafe existing hget hloc
        rw [hlsn] at hnone
        simp only [if_pos hloc, if_true, Option.toList_some, map_cons, map_nil, hlsn]
        -- the record stands in a noted segment, so it is no grave
        obtain ⟨segment, hs, hid⟩ := mem_map.mp haloft
        have hseg : existing.loc.segment = segment.id := by rw [hloc, hid]
        have hnoted : ∃ id row, Holds s.volume.noted id row ∧ t ≤ row.lsn := by
          rcases hput with hgrave | ⟨row, ⟨other, ho, hoid, hrow⟩, -, -, hlsn'⟩
          · have hzero : existing.loc.segment = 0 := by simpa [Entry.isGrave] using hgrave
            exact absurd (hseg.symm.trans hzero)
              (hb.rows.sited.ids_pos segment (s.volume.noted_subset hs))
          · have hsame := hb.rows.sited.segment_eq ho (s.volume.noted_subset hs) (hoid.trans hseg)
            exact ⟨segment.id, row, ⟨segment, hs, rfl, hsame ▸ hrow⟩, hlsn'.ge⟩
        refine hdone.turn rfl rfl (Mapped.take s.volume key t s.volume.spot)
          ⟨hdone.base.slots.points, hdone.base.slots.distinct⟩
          (.inr ⟨⟨hnone.slots, hnone.flights, hnone.unhanded⟩, .inr hnoted, .inl (by simp)⟩)
      · simp only [if_neg hloc, Bool.false_eq_true, if_false, append_nil]
        exact hdone
  | paged lsn =>
    simp only [Traffic.evict, evictPaged, fillEmpty_eq hb.accepts]
    cases hget : s.volume.index.map.get key with
    | some existing => exact hdone
    | none =>
      have hlsn := h.decided hget haloft.2 rfl (hsafe hget)
      simp only [Option.isSome_none, Bool.false_eq_true, if_false, Traffic.goOn, append_nil]
      exact h.fill rfl hget hlsn (hlsn ▸ haloft.1) (.inl rfl) place

/-- A write's move of the map: refused at a version or a slot that is newer, or taken. -/
def MoveOutcome (index : ColumnIndex) (key : Str) (tail : Nat) (row : Row) (shadowed : Bool)
    (next : ColumnIndex) (landed : Landed) : Prop :=
  (next = index ∧ landed = .newer ∧
      ((∃ existing, index.map.get key = some existing ∧ row.lsn ≤ existing.lsn) ∨
        index.map.get key = none ∧ shadowed = true)) ∨
    ∃ entry, next = index.setMap (index.map.put key entry) ∧ entry.lsn = row.lsn ∧
      (entry.isGrave = true ∨ row.kind = .data ∧ entry.loc = row.loc tail) ∧
      ((∃ existing, index.map.get key = some existing ∧ existing.lsn ≤ row.lsn) ∨
        index.map.get key = none ∧ shadowed = false)

theorem moveFor_outcome (hacc : index.width.accepts key = true)
    (hcovers : index.covers = []) (tail : Nat) (row : Row) (shadowed : Bool) {next : ColumnIndex}
    {landed : Landed}
    (h : index.moveFor key tail row shadowed = (next, landed)) :
    MoveOutcome index key tail row shadowed next landed := by
  have hbury : index.removeUnless key row.lsn tail shadowed = (next, landed) →
      MoveOutcome index key tail row shadowed next landed := by
    intro h
    simp only [removeUnless, hacc, Bool.not_true, Bool.false_eq_true, if_false] at h
    cases hget : index.map.get key with
    | none =>
      cases shadowed with
      | true =>
        simp only [hget, if_true, Prod.mk.injEq] at h
        exact .inl ⟨h.1.symm, h.2.symm, .inr ⟨hget, rfl⟩⟩
      | false =>
        simp only [hget, Bool.false_eq_true, if_false, Prod.mk.injEq] at h
        exact .inr ⟨_, h.1.symm, rfl, .inl rfl, .inr ⟨hget, rfl⟩⟩
    | some existing =>
      simp only [hget] at h
      split at h
      · rename_i hle
        split at h
        · rename_i hsame
          simp only [Bool.and_eq_true, beq_iff_eq] at hsame
          cases h
          exact .inr ⟨_, rfl, rfl, .inl rfl, .inl ⟨existing, hget, hsame.2.le⟩⟩
        · cases h
          exact .inl ⟨rfl, rfl, .inl ⟨existing, hget, hle⟩⟩
      · rename_i hlt
        split at h <;> cases h <;>
          exact .inr ⟨_, rfl, rfl, .inl rfl, .inl ⟨existing, hget, by omega⟩⟩
  cases hkind : row.kind with
  | tombstone | rangeTombstone =>
    simp only [moveFor, hkind] at h
    exact hbury h
  | data =>
    simp only [moveFor, hkind, insertUnless, hacc, Bool.not_true, Bool.false_eq_true, if_false, hcovers,
      isCovered, any_nil] at h
    cases hget : index.map.get key with
    | none =>
      cases shadowed with
      | true =>
        simp only [hget, if_true, Prod.mk.injEq] at h
        exact .inl ⟨h.1.symm, h.2.symm, .inr ⟨hget, rfl⟩⟩
      | false =>
        simp only [hget, Bool.false_eq_true, if_false, Prod.mk.injEq] at h
        exact .inr ⟨_, h.1.symm, rfl, .inr ⟨hkind, rfl⟩, .inr ⟨hget, rfl⟩⟩
    | some existing =>
      simp only [hget] at h
      split at h
      · rename_i hle
        cases h
        exact .inl ⟨rfl, rfl, .inl ⟨existing, hget, hle⟩⟩
      · rename_i hlt
        split at h <;> cases h <;>
          exact .inr ⟨_, rfl, rfl, .inr ⟨hkind, rfl⟩, .inl ⟨existing, hget, by omega⟩⟩

/-- A write taken by the map is the newest version from there on. -/
theorem Forward.raise {tail : Nat}
    (h : Forward hash key t v (.publish tail row :: rest) evicted) (hle : t ≤ row.lsn)
    (hlsn : entry.lsn = row.lsn)
    (hentry : entry.isGrave = true ∨ row.kind = .data ∧ entry.loc = row.loc tail) :
    Forward hash key row.lsn { v with index := v.index.setMap (v.index.map.put key entry) } rest
      evicted := by
  have hb := h.base
  have hr := hb.rows
  have hrow : Holds v.segments tail row := hb.aloft _ mem_cons_self
  have hget : (v.index.map.put key entry).get key = some entry := by rw [SortedMap.get_put, if_pos rfl]
  refine ⟨⟨hb.accepts, hb.uncovered, ⟨hr.sited, hr.own, (hr.own hrow).2.2.2,
    fun hnoted => (hr.noted hnoted).trans hle, ?_⟩, ?_, ⟨hb.slots.points, hb.slots.distinct⟩, hb.held,
    hb.waits, ?_⟩, ?_⟩
  · intro id other hother
    rcases hr.fresh hother with hbelow | hin
    · exact .inl (hbelow.trans hle)
    · rcases mem_cons.mp hin with he | hin
      · cases he
        exact .inl (le_refl _)
      · exact .inr hin
  · intro held hheld
    have hheld : (v.index.map.put key entry).get key = some held := hheld
    rw [hget] at hheld
    cases hheld
    refine ⟨hlsn, (hr.own hrow).2.2.1, hentry.imp_right ?_⟩
    rintro ⟨hdata, hloc⟩
    exact ⟨row, by rw [hloc]; exact hrow, by rw [hloc]; rfl, hdata, rfl⟩
  · intro flight hin
    exact (hb.aloft flight (mem_cons_of_mem _ hin)).mono (fun h => h) (fun h => h) (fun _ h => h)
      (le_refl _) hle
  · rcases hle.eq_or_lt with rfl | hlt
    · refine h.mode.imp (fun hc => ?_) fun hd => hd.tail.turn _
      simp only [Counted, countP_cons, Flight.owes, Bool.false_eq_true, if_false] at hc
      refine counted_iff.mpr ?_
      simp only [setMap, hget, Option.isSome_some, if_true]
      split at hc <;> omega
    · left
      -- a slot that may be taken back is of a noted record, none of which is this new
      have hzero : rest.countP (Flight.owes row.lsn) = 0 := by
        refine countP_eq_zero.mpr fun flight hin howes => ?_
        have haloft := hb.aloft flight (mem_cons_of_mem _ hin)
        cases flight with
        | inserted segment other isNew | back segment other =>
          have hbelow := hr.noted haloft.1
          simp only [Flight.owes, beq_iff_eq] at howes
          omega
        | _ => cases howes
      refine counted_iff.mpr ?_
      simp only [setMap, hget, Option.isSome_some, if_true, hzero]
      omega

theorem Forward.publish {tail : Nat}
    (h : Forward hash key t s.volume (.publish tail row :: s.flights) s.evicted) (cache : Cache) :
    ∃ t', t ≤ t' ∧ Ahead hash key t' (s.publish hash key cache tail row) := by
  have hb := h.base
  have hsome : ∀ existing, s.volume.index.map.get key = some existing → existing.lsn = t :=
    fun existing hget => (hb.mapped existing hget).1
  unfold Traffic.publish
  generalize hshadow : s.volume.isShadowed (s.volume.sources hash cache) key row.lsn = shadowed
  cases hout : s.volume.index.moveFor key tail row shadowed with
  | mk index landed =>
  simp only [hshadow, hout]
  rcases moveFor_outcome hb.accepts hb.uncovered tail row shadowed hout with
    ⟨rfl, rfl, hwhy⟩ | ⟨entry, rfl, hlsn, hentry, hwhy⟩
  · have hle : row.lsn ≤ t := by
      rcases hwhy with ⟨existing, hget, hle⟩ | ⟨-, rfl⟩
      · exact hsome existing hget ▸ hle
      · -- a shadowing slot is of a published version
        unfold isShadowed at hshadow
        split at hshadow
        · cases hshadow
        · obtain ⟨slot, -, id, other, -, hrow, -, hlt⟩ := (hb.holdsNewer_iff cache row.lsn).mp hshadow
          exact hlt.le.trans (hb.rows.noted hrow)
    refine ⟨t, le_refl _, ?_⟩
    have hdone : Forward hash key t s.volume s.flights s.evicted := by
      refine h.drop ?_
      rintro _ _ ⟨⟩
      exact hle
    have hnil : s.flights ++ [] = s.flights := append_nil _
    simp only [Landed.mayBePaged, Traffic.goOn]
    exact hnil.symm ▸ hdone
  · have hle : t ≤ row.lsn := by
      rcases hwhy with ⟨existing, hget, hle⟩ | ⟨hget, rfl⟩
      · exact hsome existing hget ▸ hle
      · rcases h.mode with hc | hd
        · obtain ⟨slot, hslot, id, other, hp, hrow, hdata, hlsn', hhanded⟩ := hb.counted_slot hc hget
          by_contra hlt
          unfold isShadowed at hshadow
          rw [if_neg (by omega)] at hshadow
          have := (hb.holdsNewer_iff cache row.lsn).mpr
            ⟨slot, hslot, id, other, hp, hrow, hdata, by omega⟩
          rw [hshadow] at this
          cases this
        · exact hd.noOlder.flights _ mem_cons_self row.lsn rfl
    refine ⟨row.lsn, hle, ?_⟩
    have hraised := h.raise hle hlsn hentry
    unfold Traffic.goOn
    split
    · exact hraised.join (le_refl row.lsn) rfl rfl fun _ lsn hno => by cases hno
    · rw [append_nil]
      exact hraised

/-- A record found live is as new as anything an eviction left. -/
theorem Forward.live_newest (h : Forward hash key t v flights evicted)
    (hd : Dropped key t v flights evicted) (hrow : Holds v.noted id row)
    (hlive : v.isLiveAt hash key (row.loc id) row.lsn = true) : t ≤ row.lsn := by
  have hin := hrow.mono v.noted_subset
  have hsited := h.base.rows.sited
  -- a live entry at the record's place is the newest version there
  have hplace : ∀ entry : Entry, entry.loc = row.loc id →
      (entry.isGrave = true ∨ PutAt v entry.loc t) → t ≤ row.lsn := by
    intro entry hloc hput
    rw [hloc] at hput
    rcases hput with hgrave | hput
    · have hzero : id = 0 := by simpa [Entry.isGrave, hloc, Row.loc] using hgrave
      obtain ⟨segment, hs, hid, -⟩ := hin
      exact absurd (hid.trans hzero) (hsited.ids_pos segment hs)
    · exact (hput.row_lsn hsited hin).ge
  have hmapped : ∀ entry, v.mapped key = some (some entry) → entry.loc = row.loc id → t ≤ row.lsn := by
    intro entry hword hloc
    simp only [Volume.mapped, h.base.entryOrGrave] at hword
    obtain ⟨held, hget, hheld⟩ := Option.map_eq_some_iff.mp hword
    split at hheld
    · cases hheld
    · cases hheld
      exact hplace entry hloc (h.base.mapped entry hget).2.2
  unfold isLiveAt at hlive
  split at hlive
  · rename_i hsure
    unfold surelyAt at hsure
    split at hsure
    · rename_i answer hword
      obtain ⟨entry, rfl, hloc⟩ := (Option.any_eq_true _ _).mp hsure
      exact hmapped entry hword (by simpa using hloc)
    · simp only [Bool.and_eq_true, onlyAt, Option.any_eq_true, soleLive] at hsure
      obtain ⟨⟨slot, hsole, hat⟩, -⟩ := hsure
      split at hsole
      · rename_i one hfilter
        cases hsole
        have hmem : slot ∈ (slotMatches v.spot.slots (hash key)).filter fun slot => !slot.isDisplaced := by
          rw [hfilter]
          exact mem_singleton_self _
        obtain ⟨hm, hdisp⟩ := mem_filter.mp hmem
        have hslot := (mem_slotMatches.mp hm).1
        exact hd.noOlder.slots slot hslot (by simpa using hdisp) _
          (h.base.lsnAt_place hslot (Slot.isAt_iff.mp hat) hin)
      · cases hsole
  · split at hlive
    · cases hlive
    · obtain ⟨entry, hget, hloc⟩ := (Option.any_eq_true _ _).mp hlive
      simp only [decide_eq_true_eq] at hloc
      unfold Volume.get at hget
      split at hget
      · rename_i answer hword
        exact hmapped entry (hget ▸ hword) hloc
      · obtain ⟨hnewest, -⟩ := Option.filter_eq_some_iff.mp hget
        obtain ⟨j, other, hother, rfl, hle⟩ := h.newestLive_spec hnewest
        have hnew := hle (.inr hd)
        have heq : other.lsn = t := le_antisymm (h.base.rows.noted hother) hnew
        exact hplace _ hloc (heq ▸ entry_putAt (hother.mono v.noted_subset))

theorem Forward.queueCopy (h : Forward hash key t v flights evicted)
    (hrow : Holds v.noted id row) (hdata : row.kind = .data)
    (hlive : v.isLiveAt hash key (row.loc id) row.lsn = true) :
    Forward hash key t v (flights ++ [.copy id row]) evicted := by
  refine h.join ⟨hrow, hdata⟩ rfl rfl fun hd lsn hlsn => ?_
  cases hlsn
  exact h.live_newest hd hrow hlive

theorem Forward.landCopy {tail offset : Nat} {landed : Volume}
    (h : Forward hash key t v (.copy segment row :: rest) evicted)
    (hl : v.land tail { row with offset } = some landed) :
    Forward hash key t landed
      (rest ++ [.repoint .look (some (row.loc segment)) ⟨tail, offset, row.len⟩ row.lsn]) evicted := by
  obtain ⟨hrow, hdata⟩ := h.base.aloft _ mem_cons_self
  have hr := h.base.rows
  obtain ⟨hkey, hkind, hpos, hlt⟩ := hr.own (hrow.mono v.noted_subset)
  have hle := hr.noted hrow
  have hlands := land_lands hr.sited hl
  have hnext : { landed with next := v.next } = landed := by rw [← hlands.rest]
  have hversion : Dropped key t v (.copy segment row :: rest) evicted → t ≤ row.lsn :=
    fun hd => hd.noOlder.flights _ mem_cons_self row.lsn rfl
  have hlanded := h.land
    (.repoint .look (some (row.loc segment)) ⟨tail, offset, row.len⟩ row.lsn) hlands hkey hkind
    hpos hlt (le_refl _) (.inl hle) (fun hin => ⟨hle, { row with offset }, hin, rfl, hdata, rfl⟩) rfl rfl
    fun hd => ⟨fun lsn hlsn => by cases hlsn; exact hversion hd, hversion hd⟩
  rw [hnext] at hlanded
  exact hlanded.finish rfl

theorem eraseIdx_perm {i : Nat} (h : flights[i]? = some flight) :
    (flight :: flights.eraseIdx i).Perm flights := by
  obtain ⟨hi, rfl⟩ := List.getElem?_eq_some_iff.mp h
  exact getElem_cons_eraseIdx_perm hi

theorem Ahead.advance
    (h : Forward hash key t s.volume (flight :: s.flights) s.evicted) (cache : Cache)
    (hsafe : FlightSafe hash key s.volume s.flights flight) :
    ∃ t', t ≤ t' ∧ Ahead hash key t' (s.advance hash key cache flight) := by
  cases flight with
  | publish tail row => exact h.publish cache
  | displace newer =>
    refine ⟨t, le_refl _, h.goOn rfl ?_ rfl (fun howes => by cases howes) fun _ lsn hlsn => by cases hlsn⟩
    have hnewer : newer ≤ t := h.base.aloft _ mem_cons_self
    -- what the look decides to take or mark is under the write it is for
    intro x hx hskip
    obtain ⟨slot, hslot, rfl⟩ := mem_map.mp hx
    obtain ⟨id, row, hp, hrow, hdata, -⟩ := h.base.slots.points slot (mem_slotMatches.mp hslot).1
    refine ⟨id, row, hp.place, hrow.mono s.volume.noted_subset, ?_⟩
    have hone := settleOne_eq h.base.rows.sited hp hrow hdata cache key newer false
      (false || decide (settleAt ≤ (slotMatches s.volume.spot.slots (hash key)).length))
    simp only [sources] at hskip
    rw [hone] at hskip
    by_contra hlt
    refine hskip ?_
    simp only [Bool.false_and, Bool.false_eq_true, if_false]
    split
    · rfl
    · split
      · rename_i hold
        simp only [Bool.and_eq_true, isOlder, Option.any_eq_true, decide_eq_true_eq] at hold
        obtain ⟨-, ceiling, hc, hbelow⟩ := hold
        rw [(Prod.mk.inj hp.place).1] at hc
        have := maxLsnOf_le h.base.rows.sited hrow ceiling hc
        omega
      · rw [if_neg (by omega)]
  | settle newer verdicts => exact ⟨t, le_refl _, by simpa [Traffic.advance, goOn, Ahead] using h.settle⟩
  | asked segment row => exact ⟨t, le_refl _, by simpa [Traffic.advance, goOn, Ahead, Volume.paged] using h.asked⟩
  | lane segment row => exact ⟨t, le_refl _, h.lane⟩
  | inserted segment row isNew => exact ⟨t, le_refl _, h.inserted⟩
  | back segment row => exact ⟨t, le_refl _, by simpa [Traffic.advance, goOn, Ahead] using h.back⟩
  | copy segment row =>
    exact ⟨t, le_refl _, h.perm (perm_append_singleton _ _)⟩
  | repoint stage source copy lsn => exact ⟨t, le_refl _, h.repoint hsafe⟩
  | evict stage place => exact ⟨t, le_refl _, h.evict hsafe⟩

theorem Ahead.step {s' : Traffic} {move : Move} (h : Ahead hash key t s)
    (hsafe : MoveSafe hash key s move) (hstep : step hash key s move = some s') :
    ∃ t', t ≤ t' ∧ Ahead hash key t' s' := by
  cases move with
  | openTail id =>
    simp only [Traffic.step] at hstep
    split at hstep
    · cases hstep
    · rename_i hfree
      cases hstep
      simp only [not_or, Bool.not_eq_true, any_eq_false] at hfree
      exact ⟨t, le_refl _, Forward.openTail h hfree.1 fun segment hs => by simpa using hfree.2 segment hs⟩
  | put tail offset len =>
    obtain ⟨landed, hl, rfl⟩ := Option.map_eq_some_iff.mp hstep
    exact ⟨t, le_refl _, Forward.append h hl rfl (by simp) rfl⟩
  | delete tail offset =>
    obtain ⟨landed, hl, rfl⟩ := Option.map_eq_some_iff.mp hstep
    exact ⟨t, le_refl _, Forward.append h hl rfl (by simp) rfl⟩
  | sealTail tail =>
    cases hstep
    exact ⟨t, le_refl _, Forward.sealTail h tail⟩
  | holdSealed =>
    cases hstep
    exact ⟨t, le_refl _, Forward.holdSealed h hsafe⟩
  | handOver asksAll =>
    cases hstep
    exact ⟨t, le_refl _, h.handOver asksAll⟩
  | queueCopy segment offset =>
    simp only [Traffic.step] at hstep
    split at hstep
    · rename_i row hfind
      split at hstep
      · rename_i hlive
        cases hstep
        obtain ⟨held, hheld, hrow⟩ := Option.bind_eq_some_iff.mp hfind
        have hid : held.id = segment := by simpa using find?_some hheld
        have hdata := find?_some hrow
        simp only [Bool.and_eq_true, decide_eq_true_eq] at hdata
        exact ⟨t, le_refl _, Forward.queueCopy h
          ⟨held, mem_of_find?_eq_some hheld, hid, mem_of_find?_eq_some hrow⟩ hdata.2 hlive⟩
      · cases hstep
    · cases hstep
  | landCopy flight tail offset =>
    simp only [Traffic.step] at hstep
    split at hstep
    · rename_i segment row hflight
      obtain ⟨landed, hl, rfl⟩ := Option.map_eq_some_iff.mp hstep
      exact ⟨t, le_refl _, (Forward.perm h (eraseIdx_perm hflight)).landCopy hl⟩
    · cases hstep
  | evict place =>
    cases hstep
    exact ⟨t, le_refl _, Forward.join h trivial rfl rfl fun _ lsn hlsn => by cases hlsn⟩
  | advance flight cache =>
    obtain ⟨held, hheld, rfl⟩ := Option.map_eq_some_iff.mp hstep
    exact Ahead.advance (s := { s with flights := s.flights.eraseIdx flight })
      (Forward.perm h (eraseIdx_perm hheld)) cache (hsafe held hheld)

theorem ahead_start {width : KeyWidth} (hkey : width.accepts key = true) :
    Ahead hash key 0 (start width) := by
  have hnone : ∀ {id : Nat} {row : Row}, ¬ Holds [] id row := by
    rintro id row ⟨segment, hs, -⟩
    cases hs
  refine ⟨⟨hkey, rfl, ⟨⟨nodup_nil, ?_, ?_, ?_⟩, fun hrow => absurd hrow hnone, Nat.one_pos,
    fun hrow => absurd hrow hnone, fun hrow => absurd hrow hnone⟩, ?_, ⟨?_, nodup_nil⟩, ?_,
    nodup_nil, ?_⟩, .inr ⟨⟨?_, ?_, ?_⟩, .inl rfl, .inr rfl⟩⟩
  all_goals
    intro x hx
    cases hx

theorem repoint_evicted (stage : RepointStage) (source : Option Loc) (copy : Loc) (lsn : Nat) :
    (s.repoint hash key source copy lsn stage).evicted = s.evicted := by
  cases stage <;> simp only [Traffic.repoint]
  case look => split <;> rfl
  case mapped => split <;> rfl
  case again => split <;> rfl
  case spot => split <;> rfl
  case footers =>
    split
    · split <;> rfl
    · rfl
    · rfl
  case paged => split <;> rfl

theorem evict_evicted (stage : EvictStage) (place : Loc) :
    (s.evict hash key place stage).evicted = s.evicted ∨ ∃ entry, s.volume.index.map.get key = some entry ∧
      (s.evict hash key place stage).evicted = s.evicted ++ [entry.lsn] := by
  cases stage <;> simp only [Traffic.evict]
  case mapped =>
    cases s.volume.index.map.get key with
    | none => exact .inl (by simp)
    | some entry =>
      cases (s.volume.index.evictAt key place).2
      · exact .inl (by simp)
      · exact .inr ⟨entry, rfl, by simp⟩
  case look =>
    split
    · split <;> exact .inl rfl
    · exact .inl rfl
  case «sealed» =>
    split
    · split <;> exact .inl rfl
    · exact .inl rfl
  case paged => split <;> exact .inl rfl

/-- A move drops no version from the map but the one an eviction finds there. -/
theorem step_evicted {s' : Traffic} {move : Move} (hstep : step hash key s move = some s') :
    s'.evicted = s.evicted ∨ ∃ entry, s.volume.index.map.get key = some entry ∧
      s'.evicted = s.evicted ++ [entry.lsn] := by
  cases move with
  | advance flight cache =>
    obtain ⟨held, -, rfl⟩ := Option.map_eq_some_iff.mp hstep
    cases held with
    | repoint stage source copy lsn => exact .inl (repoint_evicted stage source copy lsn)
    | evict stage place => exact evict_evicted stage place
    | _ => exact .inl rfl
  | openTail id =>
    simp only [step] at hstep
    split at hstep <;> cases hstep
    exact .inl rfl
  | put tail offset len | delete tail offset =>
    obtain ⟨landed, -, rfl⟩ := Option.map_eq_some_iff.mp hstep
    exact .inl rfl
  | sealTail tail | holdSealed | evict place =>
    cases hstep
    exact .inl rfl
  | handOver asksAll =>
    cases hstep
    left
    simp only [Traffic.handOver]
    split
    · rfl
    · split <;> rfl
  | queueCopy segment offset =>
    simp only [step] at hstep
    split at hstep
    · split at hstep <;> cases hstep
      exact .inl rfl
    · cases hstep
  | landCopy flight tail offset =>
    simp only [step] at hstep
    split at hstep
    · obtain ⟨landed, -, rfl⟩ := Option.map_eq_some_iff.mp hstep
      exact .inl rfl
    · cases hstep

/-- The newest version published is no older than a floor and than any version evicted, those evicted up to some
state first. -/
structure Onward (hash : Str → UInt64) (key : Str) (floor : Nat) (front : List Nat) (t : Nat) (s : Traffic) :
    Prop where
  floor_le : floor ≤ t
  ahead : Ahead hash key t s
  evicted : ∀ lsn ∈ s.evicted, lsn ≤ t
  front : front <+: s.evicted

theorem Onward.step {floor : Nat} {front : List Nat} {s' : Traffic} {move : Move}
    (h : Onward hash key floor front t s) (hsafe : MoveSafe hash key s move)
    (hstep : Traffic.step hash key s move = some s') : ∃ t', Onward hash key floor front t' s' := by
  obtain ⟨t', hle, hahead⟩ := h.ahead.step hsafe hstep
  refine ⟨t', h.floor_le.trans hle, hahead, fun lsn hlsn => ?_, ?_⟩
  · rcases step_evicted hstep with heq | ⟨entry, hget, heq⟩ <;> rw [heq] at hlsn
    · exact (h.evicted lsn hlsn).trans hle
    · rcases mem_append.mp hlsn with hlsn | hlsn
      · exact (h.evicted lsn hlsn).trans hle
      · rw [mem_singleton.mp hlsn, (h.ahead.base.mapped entry hget).1]
        exact hle
  · rcases step_evicted hstep with heq | ⟨entry, -, heq⟩ <;> rw [heq]
    · exact h.front
    · exact h.front.trans (prefix_append _ _)

theorem onward_run {floor : Nat} {front : List Nat} {s' : Traffic} {moves : List Move}
    (h : Onward hash key floor front t s) (hsafe : Runs.Meets (step hash key) (MoveSafe hash key) s moves)
    (hrun : Runs.run (step hash key) s moves = some s') : ∃ t', Onward hash key floor front t' s' := by
  refine Runs.invariant_run (fun s => ∃ t, Onward hash key floor front t s) ?_ ⟨t, h⟩ hsafe hrun
  rintro u move u' ⟨t, hu⟩ hok hstep
  exact hu.step hok hstep

/-- In every run whose moves meet `MoveSafe`, a key of the column's width never resolves to an older
version than before: from any state on it resolves to that version or a newer one, or to none where an
eviction between the two states dropped such a version from the map. A version dropped before the first
state may still have been answered there by a slot on its way back out. -/
theorem resolved_never_goes_back (hash : Str → UInt64) (width : KeyWidth) (key : Str)
    (hkey : width.accepts key = true) (front rest : List Move) (s s' : Traffic)
    (hsafe : Runs.Meets (step hash key) (MoveSafe hash key) (start width) (front ++ rest))
    (hfront : Runs.run (step hash key) (start width) front = some s)
    (hrest : Runs.run (step hash key) s rest = some s') (entry : Entry)
    (hres : s.volume.resolved hash key = some entry) :
    (∃ later, s'.volume.resolved hash key = some later ∧ entry.lsn ≤ later.lsn) ∨
      s'.volume.resolved hash key = none ∧
        ((∃ lsn ∈ s'.evicted.drop s.evicted.length, entry.lsn ≤ lsn) ∨ entry.lsn ∈ s.evicted) := by
  have hnone : Onward hash key 0 [] 0 (start width) := ⟨le_rfl, ahead_start hkey, by simp [start], nil_prefix⟩
  obtain ⟨t, hs⟩ := onward_run hnone hsafe.front hfront
  have hfrom : Onward hash key t s.evicted t s := ⟨le_rfl, hs.ahead, hs.evicted, prefix_rfl⟩
  obtain ⟨t', hs'⟩ := onward_run hfrom (hsafe.rest hfront) hrest
  obtain ⟨hlsn, hpos⟩ := Forward.resolved_spec hs.ahead hres
  cases hres' : s'.volume.resolved hash key with
  | some later =>
    refine .inl ⟨later, rfl, ?_⟩
    rw [hlsn, (Forward.resolved_spec hs'.ahead hres').1]
    exact hs'.floor_le
  | none =>
    refine .inr ⟨rfl, ?_⟩
    rcases hs'.ahead.mode with hc | hd
    · obtain ⟨later, hlater⟩ := hs'.ahead.base.resolved_some hc
      rw [hres'] at hlater
      cases hlater
    · have hin : t' ∈ s'.evicted := hd.evicted.resolve_right (by have := hs'.floor_le; omega)
      obtain ⟨more, hmore⟩ := hs'.front
      rw [← hmore, drop_left]
      rcases mem_append.mp (hmore ▸ hin) with hbefore | hbetween
      · -- what was evicted before the first state is no newer than what it resolved
        have heq : t' = t := le_antisymm (hs.evicted t' hbefore) hs'.floor_le
        exact .inr (hlsn ▸ heq ▸ hbefore)
      · exact .inl ⟨t', hbetween, hlsn ▸ hs'.floor_le⟩

def paged (tail flight : Nat) : List Move :=
  [.openTail tail, .put tail 0 1, .advance flight .warm, .advance flight .warm, .advance flight .warm,
    .sealTail tail, .holdSealed, .handOver false, .advance flight .warm, .advance flight .warm]

def copied : List Move :=
  [.queueCopy 1 0, .openTail 2, .landCopy 0 2 0, .advance 0 .warm, .advance 0 .warm, .advance 0 .warm] ++
    [.openTail 3, .put 3 0 1, .advance 0 .warm]

theorem copied_stays_ahead : ∃ s s' entry,
    Runs.run (step (fun _ => 0) [1, 1]) (start (.fixed 2)) (paged 1 0) = some s ∧
      Runs.run (step (fun _ => 0) [1, 1]) s copied = some s' ∧
      s.volume.resolved (fun _ => 0) [1, 1] = some entry ∧
      ((∃ later, s'.volume.resolved (fun _ => 0) [1, 1] = some later ∧ entry.lsn ≤ later.lsn) ∨
        s'.volume.resolved (fun _ => 0) [1, 1] = none ∧
          ((∃ lsn ∈ s'.evicted.drop s.evicted.length, entry.lsn ≤ lsn) ∨ entry.lsn ∈ s.evicted)) := by
  obtain ⟨s, hs⟩ : ∃ s, Runs.run (step (fun _ => 0) [1, 1]) (start (.fixed 2)) (paged 1 0) = some s :=
    Option.isSome_iff_exists.mp (by decide +kernel)
  obtain ⟨s', hs'⟩ : ∃ s', Runs.run (step (fun _ => 0) [1, 1]) (start (.fixed 2)) (paged 1 0 ++ copied) =
      some s' := Option.isSome_iff_exists.mp (by decide +kernel)
  obtain ⟨entry, hentry⟩ : ∃ entry, ((Runs.run (step (fun _ => 0) [1, 1]) (start (.fixed 2))
      (paged 1 0)).bind fun s => s.volume.resolved (fun _ => 0) [1, 1]) = some entry :=
    Option.isSome_iff_exists.mp (by decide +kernel)
  rw [Runs.run_append, hs] at hs'
  rw [hs] at hentry
  exact ⟨s, s', entry, hs, hs', hentry, resolved_never_goes_back _ (.fixed 2) [1, 1] (by decide +kernel) (paged 1 0)
    copied s s' (by decide +kernel) hs hs' entry hentry⟩

def lsnAfter (moves : List Move) : Option Nat :=
  (Runs.run (step (fun _ => 0) [1, 1]) (start (.fixed 2)) moves).bind fun s =>
    (s.volume.resolved (fun _ => 0) [1, 1]).map Entry.lsn

/-- A repoint decided from the paged put's slot, which then waits out an overwrite's whole way to the
spot index. -/
def repointLate : List Move :=
  paged 1 0 ++ [.queueCopy 1 0, .openTail 2, .landCopy 0 2 0, .advance 0 .warm, .advance 0 .warm] ++
    paged 3 1

def evictLate : List Move :=
  paged 1 0 ++ [.evict ⟨1, 0, 1⟩, .advance 0 .warm, .advance 0 .warm] ++ paged 3 1

def evictEarly : List Move :=
  paged 1 0 ++ [.openTail 3, .put 3 0 1, .advance 0 .warm, .sealTail 3, .holdSealed, .evict ⟨3, 0, 1⟩,
    .advance 1 .warm]

def handedEarly : List Move :=
  paged 1 0 ++ [.openTail 3, .put 3 0 1, .sealTail 3, .holdSealed, .handOver false, .advance 1 .warm]

theorem resolved_goes_back :
    (lsnAfter repointLate = some 2 ∧ lsnAfter (repointLate ++ [.advance 0 .warm]) = some 1) ∧
      (lsnAfter evictLate = some 2 ∧ lsnAfter (evictLate ++ [.advance 0 .warm]) = some 1) ∧
      (lsnAfter evictEarly = some 2 ∧ lsnAfter (evictEarly ++ [.advance 1 .warm]) = some 1) ∧
      lsnAfter handedEarly = some 2 ∧
        lsnAfter (handedEarly ++ [.advance 1 .warm, .advance 1 .warm]) = some 1 := by
  decide +kernel

end Traffic

end Reel
