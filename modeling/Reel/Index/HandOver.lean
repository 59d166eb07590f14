import Reel.Index.Keeps

/-!
A hand-over keeps a column sound: a put leaves the map exactly when a live slot takes its
place, whether one by one under the lock or as a whole lane with the refused ones taken
back.
-/

set_option autoImplicit false

namespace Reel
open Bytes StableSort List

namespace Volume
variable {hash : Str → UInt64} {strict : Bool} {v : Volume}

variable {slots : List Slot}

theorem putIn_fresh {bits : UInt64} (loc : Loc)
    (h : ∀ slot ∈ slots, slot.place ≠ (loc.segment, loc.offset)) :
    putIn slots bits loc = (slots ++ [Slot.new bits loc], true) := by
  unfold putIn
  rw [if_neg]
  intro hany
  obtain ⟨slot, hslot, hsame⟩ := any_eq_true.mp hany
  exact h slot (mem_slotMatches.mp hslot).1 (Slot.samePlace_iff.mp hsame).1

theorem Sound.holds_newest (h : v.Sound hash strict) {id : Nat} {row : Row}
    (hrow : Holds v.segments id row) (hh : v.index.holds row.key (row.loc id) = true) :
    v.Newest id row := by
  simp only [ColumnIndex.holds, Bool.and_eq_true, Option.any_eq_true, decide_eq_true_eq,
    Bool.not_eq_true'] at hh
  obtain ⟨-, existing, hg, ⟨hloc, hgrave⟩, -⟩ := hh
  obtain ⟨-, j, other, hn, -, rfl⟩ := h.mapped hg
  have hdata : other.kind = .data := by
    cases hk : other.kind with
    | data => rfl
    | tombstone | rangeTombstone => simp [Row.resident, hk] at hgrave
  simp only [Row.resident, hdata, Row.loc, Loc.mk.injEq] at hloc
  obtain ⟨rfl, hoff, -⟩ := hloc
  rw [← h.laid.row_eq hn.holds hrow hoff]
  exact hn

/-- The volume once the rows have been asked out of the map. -/
def paged (v : Volume) (hash : Str → UInt64) (rows : List (Str × Loc)) : Volume :=
  { v with
    index := (rows.foldl (pageAsked hash) (v.index, v.spot.slots)).1
    spot := v.spot.setSlots (rows.foldl (pageAsked hash) (v.index, v.spot.slots)).2 }

/-- A put leaves the map for a live slot of its own. -/
theorem Sound.page (h : v.Sound hash strict) {id : Nat} {row : Row} (hrow : Holds v.noted id row)
    (hid : id ∉ v.held) (hdata : row.kind = .data)
    (hfresh : ∀ slot ∈ v.spot.slots, slot.place ≠ (id, row.offset)) :
    (v.paged hash [(row.key, row.loc id)]).Sound hash strict := by
  simp only [paged, foldl_cons, foldl_nil, pageAsked, ColumnIndex.pageOut]
  by_cases hh : v.index.holds row.key (row.loc id) = true
  · have hn := h.holds_newest (hrow.mono v.noted_subset) hh
    simp only [hh, if_true, putIn_fresh (row.loc id) hfresh]
    have hget : ∀ key, (v.index.map.take row.key).get key =
        if key = row.key then none else v.index.map.get key := by
      intro key
      rw [SortedMap.get_take]
      by_cases hk : key = row.key <;> simp [hk]
    have hsub : ∀ {key : Str} {entry : Entry}, (v.index.map.take row.key).get key = some entry →
        v.index.map.get key = some entry := by
      intro key entry hg
      rw [hget] at hg
      split at hg
      · cases hg
      · exact hg
    refine ⟨h.laid, h.held, h.accepted, ?_, ?_, ?_, ?_, ?_, ⟨h.queues.owed, h.queues.stale⟩⟩
    · intro key entry hg
      obtain ⟨hacc, j, other, hno, hk, he⟩ := h.mapped (hsub hg)
      exact ⟨hacc, j, other, ⟨hno.holds, hno.point, hno.newest⟩, hk, he⟩
    · intro j other hno hacc hg
      have hno : v.Newest j other := ⟨hno.holds, hno.point, hno.newest⟩
      by_cases hk : other.key = row.key
      · obtain ⟨rfl, rfl⟩ := hno.unique h.laid hn hk
        simp only [Found, hdata]
        exact Or.inr ⟨hrow, _, by simp [SpotColumn.setSlots], points_new hash _ _, fun _ => rfl⟩
      · have hbefore : v.index.map.get other.key = none := by
          have := hg
          simp only [ColumnIndex.setMap, hget, if_neg hk] at this
          exact this
        have hway := h.absent hno hacc hbefore
        unfold Found at hway ⊢
        cases hkind : other.kind with
        | data =>
          simp only [hkind] at hway ⊢
          refine hway.imp_right ?_
          rintro ⟨hin, slot, hslot, hp, hs⟩
          exact ⟨hin, slot, mem_append_left _ hslot, hp, hs⟩
        | tombstone | rangeTombstone => simpa only [hkind] using hway
    · intro slot hslot
      rcases mem_append.mp hslot with hslot | hslot
      · obtain ⟨j, other, hp, ho, hj, hd, hlive⟩ := h.slots slot hslot
        refine ⟨j, other, hp, ho, hj, hd, fun hdisp => ?_⟩
        obtain ⟨hno, hg⟩ := hlive hdisp
        refine ⟨⟨hno.holds, hno.point, hno.newest⟩, ?_⟩
        simp only [ColumnIndex.setMap, hget]
        split
        · rfl
        · exact hg
      · rw [mem_singleton.mp hslot]
        refine ⟨id, row, points_new hash _ _, hrow, hid, hdata, fun _ => ?_⟩
        refine ⟨⟨hn.holds, hn.point, hn.newest⟩, ?_⟩
        simp only [ColumnIndex.setMap, hget, if_true]
    · change Distinct (v.spot.slots ++ [Slot.new (hash row.key) (row.loc id)])
      unfold Distinct
      rw [map_append]
      refine nodup_append.mpr ⟨h.distinct, by simp, ?_⟩
      rintro a ha b hb rfl
      obtain ⟨slot, hslot, rfl⟩ := mem_map.mp ha
      exact hfresh slot hslot (mem_singleton.mp hb)
    · exact ⟨h.covers.lsns, h.covers.drawn, h.covers.low, h.covers.resumes⟩
  · simp only [hh, Bool.false_eq_true, if_false]
    exact h

def placeOf (row : Str × Loc) : Nat × Nat := (row.2.segment, row.2.offset)

def newSlot (hash : Str → UInt64) (row : Str × Loc) : Slot := Slot.new (hash row.1) row.2

/-- Rows whose places are their own and no slot has yet. -/
structure Fresh (slots : List Slot) (rows : List (Str × Loc)) : Prop where
  nodup : (rows.map placeOf).Nodup
  free : ∀ row ∈ rows, ∀ slot ∈ slots, slot.place ≠ placeOf row

variable {row : Str × Loc} {rows : List (Str × Loc)}

section
variable (h : Fresh slots (row :: rows))
include h

theorem Fresh.tail : Fresh slots rows :=
  ⟨(nodup_cons.mp h.nodup).2, fun r hr => h.free r (mem_cons_of_mem _ hr)⟩

theorem Fresh.push (hash : Str → UInt64) :
    Fresh (slots ++ [newSlot hash row]) rows := by
  refine ⟨(nodup_cons.mp h.nodup).2, ?_⟩
  intro r hr slot hslot
  rcases mem_append.mp hslot with hslot | hslot
  · exact h.free r (mem_cons_of_mem _ hr) slot hslot
  · rw [mem_singleton.mp hslot]
    intro he
    exact (nodup_cons.mp h.nodup).1 (mem_map.mpr ⟨r, hr, he.symm⟩)

theorem Fresh.putIn (hash : Str → UInt64) :
    putIn slots (hash row.1) row.2 = (slots ++ [newSlot hash row], true) :=
  putIn_fresh row.2 fun slot hslot => h.free row mem_cons_self slot hslot

theorem Fresh.pageAsked (hash : Str → UInt64) (index : ColumnIndex) :
    Fresh (pageAsked hash (index, slots) row).2 rows := by
  simp only [Volume.pageAsked]
  split
  · rw [h.putIn hash]
    exact h.push hash
  · exact h.tail

end

theorem Fresh.foldl {front : List (Str × Loc)}
    (h : Fresh slots (front ++ rows)) (hash : Str → UInt64) (index : ColumnIndex) :
    Fresh (front.foldl (Volume.pageAsked hash) (index, slots)).2 rows := by
  induction front generalizing slots index with
  | nil => exact h
  | cons row front ih => exact ih (h.pageAsked hash index) _

theorem insertLane_eq (h : Fresh slots rows) :
    insertLane hash rows slots = (slots ++ rows.map (newSlot hash), rows.map fun _ => true) := by
  induction rows generalizing slots with
  | nil => simp [insertLane]
  | cons row rows ih =>
    simp only [insertLane, h.putIn hash, ih (h.push hash)]
    simp

theorem removeAt_middle {before after : List Slot}
    (hb : ∀ slot ∈ before, slot.place ≠ placeOf row) :
    removeAt (before ++ newSlot hash row :: after) (hash row.1) row.2 = before ++ after := by
  have hfind : (slotMatches (before ++ newSlot hash row :: after) (hash row.1)).find?
      (·.isAt row.2) = some (newSlot hash row) := by
    have hbits : (newSlot hash row).holds (hash row.1) = true := Slot.holds_new _ _
    rw [slotMatches, filter_append,
      filter_cons_of_pos (p := fun slot : Slot => slot.holds (hash row.1)) hbits, find?_append]
    have hnone : (before.filter (·.holds (hash row.1))).find? (·.isAt row.2) = none := by
      rw [find?_eq_none]
      intro slot hslot hat
      exact hb slot (mem_filter.mp hslot).1 (Slot.isAt_iff.mp hat)
    rw [hnone, Option.none_or, find?_cons_of_pos]
    simp [newSlot, Slot.new, Slot.isAt]
  unfold removeAt
  rw [hfind]
  simp only [takeSlot]
  rw [eraseP_append_right _ (fun slot hslot => ?_), eraseP_cons_of_pos]
  · simp [newSlot, Slot.samePlace]
  · intro hno
    simp only [Bool.and_eq_true, Slot.samePlace_iff] at hno
    exact hb slot hslot hno.2.1

/-- A lane put in whole, with the refused rows taken back, is the rows handed over one by one. -/
theorem lane_eq (h : Fresh slots rows)
    (hash : Str → UInt64) (index : ColumnIndex) :
    (pageOutLane rows index).1 = (rows.foldl (pageAsked hash) (index, slots)).1 ∧
      (backRows rows (rows.map fun _ => true) (pageOutLane rows index).2).foldl
        (fun slots row => removeAt slots (hash row.1) row.2) (slots ++ rows.map (newSlot hash)) =
      (rows.foldl (pageAsked hash) (index, slots)).2 := by
  induction rows generalizing slots index with
  | nil => simp [pageOutLane, backRows]
  | cons row rows ih =>
    rw [foldl_cons]
    cases hp : index.pageOut row.1 row.2 with
    | mk next went =>
    cases went with
    | true =>
      have hask : pageAsked hash (index, slots) row = (next, slots ++ [newSlot hash row]) := by
        simp [pageAsked, hp, h.putIn hash]
      obtain ⟨hi, hs⟩ := ih (h.push hash) next
      rw [hask]
      refine ⟨by simpa [pageOutLane, hp] using hi, ?_⟩
      rw [← hs]
      simp [pageOutLane, hp, backRows]
    | false =>
      have hask : pageAsked hash (index, slots) row = (next, slots) := by
        simp [pageAsked, hp]
      obtain ⟨hi, hs⟩ := ih h.tail next
      rw [hask]
      refine ⟨by simpa [pageOutLane, hp] using hi, ?_⟩
      rw [← hs]
      have hback : backRows (row :: rows) ((row :: rows).map fun _ => true)
          (pageOutLane (row :: rows) index).2 =
            row :: backRows rows (rows.map fun _ => true) (pageOutLane rows next).2 := by
        simp [pageOutLane, hp, backRows]
      rw [hback, foldl_cons, map_cons,
        removeAt_middle fun slot hslot => h.free row mem_cons_self slot hslot]

theorem lastRows_sublist (rows : List Row) : (lastRows rows).Sublist rows := by
  fun_induction lastRows rows with
  | case1 => exact List.Sublist.refl _
  | case2 row => exact List.Sublist.refl _
  | case3 row later rest _ ih => exact ih.cons _
  | case4 row later rest _ ih => exact ih.cons_cons _

variable {segment : Segment}

theorem handRows_spec (h : (segment.rows.map Row.offset).Nodup) :
    (∀ row ∈ handRows segment, row ∈ segment.rows ∧ row.kind = .data) ∧
      ((handRows segment).map Row.offset).Nodup := by
  constructor
  · intro row hrow
    obtain ⟨hin, hdata⟩ := mem_filter.mp hrow
    exact ⟨(mem_sortByKey _).mp ((lastRows_sublist _).subset hin), by simpa using hdata⟩
  · have hfooter : (segment.footerRows.map Row.offset).Nodup :=
      ((perm_sortByKey _ segment.rows).map _).nodup_iff.mpr h
    exact hfooter.sublist ((filter_sublist.trans (lastRows_sublist _)).map _)

/-- Puts of a noted segment, at places no slot points to. -/
structure Handing (v : Volume) (segment : Segment) (rows : List Row) : Prop where
  noted : segment ∈ v.noted
  unheld : segment.id ∉ v.held
  puts : ∀ row ∈ rows, row ∈ segment.rows ∧ row.kind = .data
  fresh : Fresh v.spot.slots (placed segment rows)

variable {rows : List Row}

theorem Handing.head {row : Row} (h : v.Handing segment (row :: rows)) : Holds v.noted segment.id row ∧
    row.kind = .data ∧ ∀ slot ∈ v.spot.slots, slot.place ≠ (segment.id, row.offset) := by
  obtain ⟨hin, hdata⟩ := h.puts row mem_cons_self
  exact ⟨⟨segment, h.noted, rfl, hin⟩, hdata, fun slot hslot => h.fresh.free _ mem_cons_self slot hslot⟩

theorem Handing.tail {row : Row} (h : v.Handing segment (row :: rows)) :
    (v.paged hash [(row.key, row.loc segment.id)]).Handing segment rows :=
  ⟨h.noted, h.unheld, fun r hr => h.puts r (mem_cons_of_mem _ hr), h.fresh.pageAsked hash v.index⟩

theorem Sound.pageAll (h : v.Sound hash strict) (hrows : v.Handing segment rows) :
    (v.paged hash (placed segment rows)).Sound hash strict := by
  induction rows generalizing v with
  | nil => exact h
  | cons row rows ih =>
    obtain ⟨hin, hdata, hfree⟩ := hrows.head
    exact ih (h.page hin hrows.unheld hdata hfree) hrows.tail

theorem Sound.handed (h : v.Sound hash strict) (handed : Nat) :
    Sound hash strict { v with handed } :=
  h.relay h.laid h.held rfl rfl (le_refl _) Iff.rfl (fun h => h) (fun _ h => h)

/-- The rows a hand-over asks the map about one by one: those a pruned guard may hide, and all of
them where the map lost too many. -/
def askedRows (v : Volume) (segment : Segment) : List Row :=
  let guarded := (handRows segment).filter fun row => row.lsn ≤ v.index.lifted
  let free := (handRows segment).filter fun row => ¬ row.lsn ≤ v.index.lifted
  if mostlyOutversioned v.index (placed segment free) then guarded ++ free else guarded

def laneRows (v : Volume) (segment : Segment) : List Row :=
  let free := (handRows segment).filter fun row => ¬ row.lsn ≤ v.index.lifted
  if mostlyOutversioned v.index (placed segment free) then [] else free

theorem asked_lane_perm (v : Volume) (segment : Segment) :
    (v.askedRows segment ++ v.laneRows segment).Perm (handRows segment) := by
  have hsplit : ((handRows segment).filter (fun row => row.lsn ≤ v.index.lifted) ++
      (handRows segment).filter fun row => ¬ row.lsn ≤ v.index.lifted).Perm (handRows segment) := by
    simp only [decide_not]
    exact filter_append_perm _ _
  simp only [askedRows, laneRows]
  split
  · rwa [append_nil]
  · exact hsplit

theorem pageOutPartition_eq (hash : Str → UInt64)
    (hfresh : Fresh v.spot.slots (placed segment (v.askedRows segment ++ v.laneRows segment))) :
    v.pageOutPartition hash segment =
      { v.paged hash (placed segment (v.askedRows segment ++ v.laneRows segment)) with
        handed := max v.handed (((handRows segment).map Row.lsn).foldl max 0) } := by
  have happend : ∀ a b, placed segment (a ++ b) = placed segment a ++ placed segment b :=
    fun a b => map_append
  unfold Volume.pageOutPartition paged
  simp only [askedRows, laneRows] at hfresh ⊢
  generalize (handRows segment).filter (fun row => decide (row.lsn ≤ v.index.lifted)) = guarded
    at hfresh ⊢
  generalize (handRows segment).filter (fun row => decide (¬ row.lsn ≤ v.index.lifted)) = free
    at hfresh ⊢
  by_cases hask : mostlyOutversioned v.index (placed segment free) = true
  · simp only [hask, if_true, happend, append_nil, insertLane, pageOutLane, backRows,
      zip_nil_left, filter_nil, map_nil, foldl_nil]
  · simp only [hask, Bool.false_eq_true, if_false, happend, foldl_append] at hfresh ⊢
    have hfree := hfresh.foldl hash v.index
    generalize (placed segment guarded).foldl (pageAsked hash) (v.index, v.spot.slots) = state
      at hfree ⊢
    obtain ⟨hi, hslots⟩ := lane_eq hfree hash state.1
    simp only [insertLane_eq hfree, hi, hslots]

section
variable (h : v.Sound hash strict) (hs : segment ∈ v.noted) (hid : segment.id ∉ v.held)
  (hnone : ∀ slot ∈ v.spot.slots, slot.segment ≠ segment.id)
include h hs hid hnone

theorem Sound.handOver_rows :
    v.Handing segment (v.askedRows segment ++ v.laneRows segment) := by
  obtain ⟨hrows, hnodup⟩ := handRows_spec (h.laid.offsets segment (v.noted_subset hs))
  have hperm := v.asked_lane_perm segment
  refine ⟨hs, hid, fun row hrow => hrows row (hperm.subset hrow), ?_, ?_⟩
  · have hoff := ((hperm.map Row.offset).nodup_iff.mpr hnodup)
    simp only [placed, map_map]
    refine List.Nodup.of_map Prod.snd ?_
    rw [map_map]
    exact hoff
  · intro x hx slot hslot he
    obtain ⟨row, -, rfl⟩ := mem_map.mp hx
    exact hnone slot hslot (Prod.mk.inj he).1

theorem Sound.pageOutPartition :
    Sound hash strict (v.pageOutPartition hash segment) := by
  have hrows := h.handOver_rows hs hid hnone
  rw [pageOutPartition_eq hash hrows.fresh]
  exact (h.pageAll hrows).handed _

end

theorem Sound.handOver_next (h : v.Sound hash strict) : v.held = [] ∨
    ∃ held segment, v.held = segment.id :: held ∧ v.noted.find? (·.id == segment.id) = some segment ∧
      Sound hash strict { v with held } ∧ segment.id ∉ held ∧
      ∀ slot ∈ v.spot.slots, slot.segment ≠ segment.id := by
  cases hheld : v.held with
  | nil => exact Or.inl rfl
  | cons id held =>
    have hnodup := h.held.nodup
    rw [hheld] at hnodup
    have hv : Sound hash strict { v with held } := by
      refine h.relay h.laid ⟨(nodup_cons.mp hnodup).2, ?_⟩ rfl rfl (le_refl _) Iff.rfl (fun h => h) ?_
      · intro j hj
        exact h.held.noted j (by rw [hheld]; exact mem_cons_of_mem _ hj)
      · intro j row _ hout hj
        exact hout (by rw [hheld]; exact mem_cons_of_mem _ hj)
    obtain ⟨segment, hs, rfl⟩ := mem_map.mp (h.held.noted id (by rw [hheld]; exact mem_cons_self))
    have hnoted : Sited v.noted := h.laid.toSited.sublist (sublist_append_right _ _)
    refine Or.inr ⟨held, segment, rfl, hnoted.find hs, hv, (nodup_cons.mp hnodup).1, ?_⟩
    -- no slot points into a segment still owed its hand-over
    intro slot hslot he
    obtain ⟨j, row, hp, -, hj, -, -⟩ := h.slots slot hslot
    refine hj ?_
    rw [hheld, ← (Prod.mk.inj hp.place).1, he]
    exact mem_cons_self

theorem Sound.handOver (h : v.Sound hash strict) : Sound hash strict (v.handOver hash) := by
  unfold Volume.handOver
  rcases h.handOver_next with hnone | ⟨held, segment, hheld, hfind, hv, hid, hfree⟩
  · simpa only [hnone] using h
  · simp only [hheld, hfind]
    exact hv.pageOutPartition (mem_of_find?_eq_some hfind) hid hfree

end Volume

end Reel
