import Reel.Index.Booked

/-!
When the sweep has no cover left to settle, the column's totals are the keys a read resolves. The
release pass resumes after the last key it looked at, at that key's own width, so a live slot of a key
in between is never settled.
-/

set_option autoImplicit false

namespace Reel
open Bytes StableSort List ColumnIndex

namespace Volume
variable {hash : Str → UInt64} {strict : Bool} {v : Volume}

/-- What each cover still has to settle lies ahead of where its sweep resumes. -/
structure Ahead (v : Volume) : Prop where
  slots : ∀ cover ∈ v.index.covers, ∀ slot ∈ v.spot.slots, slot.isDisplaced = false →
    ∀ {row : Row}, rowAt v.noted slot = some row → cover.covers row.key row.lsn = true →
      ∃ resume, cover.phase = .release resume ∧ resume ≤ row.key
  map : ∀ cover ∈ v.index.covers, ∀ {key : Str} {entry : Entry}, v.index.map.get key = some entry →
    entry.isGrave = false → cover.covers key entry.lsn = true →
      (∃ resume, cover.phase = .release resume) ∨ ∃ resume, cover.phase = .sweep resume ∧ resume ≤ key

theorem ahead_start (width : KeyWidth) (next : Nat) : (start width next).Ahead :=
  ⟨(fun _ hc => by cases hc), (fun _ hc => by cases hc)⟩

theorem Ahead.keep {v' : Volume} (h : v.Ahead) (hcovers : v'.index.covers = v.index.covers)
    (hslots : ∀ slot ∈ v'.spot.slots, slot.isDisplaced = false → slot ∈ v.spot.slots)
    (hrows : ∀ slot ∈ v.spot.slots, rowAt v'.noted slot = rowAt v.noted slot)
    (hmap : ∀ {key : Str} {entry : Entry}, v'.index.map.get key = some entry → entry.isGrave = false →
      v.index.map.get key = some entry ∨ isCovered v.index.covers key entry.lsn = false) : v'.Ahead := by
  refine ⟨fun cover hc slot hslot hlive row hat hcov => ?_, fun cover hc key entry hg hgrave hcov => ?_⟩
  · rw [hcovers] at hc
    have hold := hslots slot hslot hlive
    rw [hrows slot hold] at hat
    exact h.slots cover hc slot hold hlive hat hcov
  · rw [hcovers] at hc
    rcases hmap hg hgrave with hold | hfree
    · exact h.map cover hc hold hgrave hcov
    · rw [(isCovered_iff _ _ _).mpr ⟨cover, hc, hcov⟩] at hfree
      cases hfree

variable {row : Row} {entry : Entry}

section
variable (h : v.Sound hash strict) (hahead : v.Ahead) {landed : Volume} {tail : Nat}
  (ha : Appends v tail row landed)
include h hahead ha

theorem Sound.ahead_write (cache : Cache) (hlsn : entry.lsn = v.next) :
    Ahead { landed with
      index := v.index.setMap (v.index.map.put row.key entry)
      spot := if v.index.map.get row.key = none then
          landed.spot.displace (landed.sources hash cache) row.key v.next
        else landed.spot } := by
  refine hahead.keep rfl ?_ ?_ ?_
  · intro slot hslot hlive
    dsimp only at hslot
    split at hslot
    · rw [displace_slots h ha cache] at hslot
      obtain ⟨first, hfirst, rfl | rfl⟩ := mem_settled hslot
      · exact hfirst
      · cases hlive
    · rwa [ha.spot] at hslot
  · intro slot _
    rw [ha.noted]
  · intro key held hg _
    simp only [setMap, SortedMap.get_put] at hg
    split at hg
    · cases hg
      rw [hlsn]
      exact .inr (h.not_covered _)
    · exact .inl hg

theorem Sound.ahead_deleteRange (start : Str) (fin : Option Str) (ranges : List RangeDelete) :
    Ahead { landed with index := landed.index.removeRange start fin v.next, ranges } := by
  have hpush := h.pushCover_eq (v.index.width.lowBound start) (fin.map v.index.width.lowBound)
  refine ⟨fun cover hc slot hslot hlive row hat hcov => ?_, fun cover hc key entry hg hgrave hcov => ?_⟩
  · simp only [removeRange, ha.index, hpush, mem_append, mem_singleton] at hc
    rw [ha.noted] at hat
    rw [ha.spot] at hslot
    rcases hc with hc | rfl
    · exact hahead.slots cover hc slot hslot hlive hat hcov
    · exact ⟨_, rfl, ((Covered.covers_iff _ _ _).mp hcov).2.1⟩
  · simp only [removeRange, ha.index, hpush, mem_append, mem_singleton] at hc hg
    rcases hc with hc | rfl
    · exact hahead.map cover hc hg hgrave hcov
    · exact .inl ⟨_, rfl⟩

end

variable {id : Nat}

section
variable (h : v.Sound hash strict) (hahead : v.Ahead)
include h hahead

/-- A put leaves the map only while no cover takes it. -/
theorem Sound.ahead_page
    (hrow : Holds v.noted id row) (hdata : row.kind = .data)
    (hfresh : ∀ slot ∈ v.spot.slots, slot.place ≠ (id, row.offset)) :
    (v.paged hash [(row.key, row.loc id)]).Ahead := by
  simp only [paged, foldl_cons, foldl_nil, pageAsked, pageOut]
  by_cases hh : v.index.holds row.key (row.loc id) = true
  · have hn := h.holds_newest (hrow.mono v.noted_subset) hh
    simp only [hh, if_true, putIn_fresh (row.loc id) hfresh]
    simp only [ColumnIndex.holds, Bool.and_eq_true, Option.any_eq_true, decide_eq_true_eq,
      Bool.not_eq_true'] at hh
    obtain ⟨-, existing, hg, -, hfree⟩ := hh
    have hlsn : existing.lsn = row.lsn := by
      obtain ⟨-, j, other, hno, hk, rfl⟩ := h.mapped hg
      obtain ⟨-, rfl⟩ := hno.unique h.laid hn hk
      exact Row.resident_lsn _ _
    refine ⟨fun cover hc slot hslot hlive other hat hcov => ?_, fun cover hc key entry hget hgrave hcov => ?_⟩
    · rcases mem_append.mp hslot with hslot | hslot
      · exact hahead.slots cover hc slot hslot hlive hat hcov
      · rw [mem_singleton.mp hslot] at hat
        have hown : rowAt v.noted (Slot.new (hash row.key) (row.loc id)) = some row :=
          rowAt_eq h.sited_noted rfl hrow
        rw [show rowAt v.noted _ = some other from hat] at hown
        cases hown
        have hcovered : isCovered v.index.covers row.key row.lsn = true :=
          (isCovered_iff _ _ _).mpr ⟨cover, hc, hcov⟩
        rw [hlsn, hcovered] at hfree
        cases hfree
    · simp only [setMap, SortedMap.get_take] at hget
      split at hget
      · cases hget
      · exact hahead.map cover hc hget hgrave hcov
  · simp only [hh, Bool.false_eq_true, if_false]
    exact hahead

theorem Sound.ahead_pageAll {rows : List Row} {segment : Segment} (hrows : v.Handing segment rows) :
    (v.paged hash (placed segment rows)).Ahead := by
  induction rows generalizing v with
  | nil => exact hahead
  | cons row rows ih =>
    obtain ⟨hin, hdata, hfree⟩ := hrows.head
    exact ih (h.page hin hrows.unheld hdata hfree) (h.ahead_page hahead hin hdata hfree) hrows.tail

theorem Sound.ahead_handOver : (v.handOver hash).Ahead := by
  unfold Volume.handOver
  rcases h.handOver_next with hnone | ⟨held, segment, hheld, hfind, hv, hid, hfree⟩
  · simpa only [hnone] using hahead
  · simp only [hheld, hfind]
    have hs := mem_of_find?_eq_some hfind
    have hrows := hv.handOver_rows hs hid hfree
    rw [pageOutPartition_eq hash hrows.fresh]
    have := hv.ahead_pageAll ⟨hahead.slots, hahead.map⟩ hrows
    exact ⟨this.slots, this.map⟩

end

def releaseKeys (v : Volume) (cover : Covered Str) (resume : Str) (limit : Nat) : List Str :=
  ((v.notedKeys.filter fun key => resume ≤ key).filter fun key => cover.high.all fun high => key < high).take
    (min limit releaseLimit)

def releaseClean (v : Volume) (cover : Covered Str) (resume : Str) (limit : Nat) : Bool :=
  let looked := v.releaseKeys cover resume limit
  decide (looked.length < min limit releaseLimit) || looked.getLast?.all fun last =>
    v.spot.slots.all fun slot => slot.isDisplaced || (rowAt v.noted slot).all fun row =>
      !cover.covers row.key row.lsn || decide (row.key ≤ last) ||
        (successor last).any fun next => v.index.width.lowBound next ≤ row.key

theorem mem_notedKeys (h : Holds v.noted id row) : row.key ∈ v.notedKeys := by
  obtain ⟨segment, hs, -, hrow⟩ := h
  simp only [notedKeys, mem_sortByKey, mem_dedup, mem_flatMap]
  exact ⟨segment, hs, mem_map_of_mem hrow⟩

theorem notedKeys_sorted (v : Volume) : v.notedKeys.Pairwise (· ≤ ·) := sorted_sortByKey id _

variable {key : Str}

theorem releaseKeys_spec (v : Volume) (cover : Covered Str) (resume : Str) (limit : Nat)
    (hkey : key ∈ v.notedKeys) (hresume : resume ≤ key) (hhigh : ∀ high ∈ cover.high, key < high) :
    key ∈ v.releaseKeys cover resume limit ∨
      ¬ (v.releaseKeys cover resume limit).length < min limit releaseLimit ∧
        ∀ last ∈ (v.releaseKeys cover resume limit).getLast?, last ≤ key := by
  have hrange : key ∈ (v.notedKeys.filter fun key => resume ≤ key).filter
      fun key => cover.high.all fun high => key < high := by
    simp only [mem_filter, decide_eq_true_eq, Option.all_eq_true]
    exact ⟨⟨hkey, hresume⟩, hhigh⟩
  have hsorted : ((v.notedKeys.filter fun key => resume ≤ key).filter
      fun key => cover.high.all fun high => key < high).Pairwise (· ≤ ·) :=
    (v.notedKeys_sorted.filter _).filter _
  unfold releaseKeys
  generalize (v.notedKeys.filter fun key => resume ≤ key).filter
    (fun key => cover.high.all fun high => decide (key < high)) = keys at hrange hsorted ⊢
  rw [← take_append_drop (min limit releaseLimit) keys, mem_append] at hrange
  rcases hrange with hin | hlater
  · exact .inl hin
  · refine .inr ⟨?_, fun last hlast => ?_⟩
    · have hlong := length_pos_of_mem hlater
      rw [length_drop] at hlong
      rw [length_take]
      omega
    · rw [← take_append_drop (min limit releaseLimit) keys, pairwise_append] at hsorted
      exact hsorted.2.2 last (mem_of_getLast? hlast) key hlater

theorem releaseCovered_sublist (index : ColumnIndex) (hash : Str → UInt64) (slots : List Slot)
    (row : Str × Loc) : (releaseCovered index hash slots row).Sublist slots := by
  unfold releaseCovered takeLive
  split
  · exact List.Sublist.refl _
  · split
    · exact eraseP_sublist
    · exact List.Sublist.refl _

theorem foldl_releaseCovered_sublist (index : ColumnIndex) (hash : Str → UInt64) (rows : List (Str × Loc))
    (slots : List Slot) : (rows.foldl (releaseCovered index hash) slots).Sublist slots := by
  induction rows generalizing slots with
  | nil => exact List.Sublist.refl _
  | cons row rows ih => exact (ih _).trans (releaseCovered_sublist _ _ _ _)

variable {slot : Slot}

section
variable {index : ColumnIndex} {slots : List Slot} (h : Distinct slots) {loc : Loc}
include h

theorem releaseCovered_takes (hacc : index.width.accepts key = true) (hmap : index.map.get key = none)
    (hbits : slot.holds (hash key) = true) (hat : slot.isAt loc = true) (hlive : slot.isDisplaced = false) :
    slot ∉ releaseCovered index hash slots (key, loc) := by
  intro hin
  have hbefore := (releaseCovered_sublist _ _ _ _).subset hin
  unfold releaseCovered takeLive at hin
  simp only [hacc, hmap, Bool.not_true, Option.isSome_none, Bool.or_false, Bool.false_eq_true, if_false] at hin
  cases hfind : (slotMatches slots (hash key)).find? fun slot => slot.isAt loc && !slot.isDisplaced with
  | none =>
    have := find?_eq_none.mp hfind slot (mem_slotMatches.mpr ⟨hbefore, hbits⟩)
    simp [hat, hlive] at this
  | some found =>
    have hfound := (mem_slotMatches.mp (mem_of_find?_eq_some hfind)).1
    have htest := find?_some hfind
    simp only [Bool.and_eq_true] at htest
    obtain rfl := h.eq hfound hbefore ((Slot.isAt_iff.mp htest.1).trans (Slot.isAt_iff.mp hat).symm)
    simp only [hfind] at hin
    have hnot := ((mem_takeSlot h).mp hin).2
    rw [(names_iff h hfound hfound).mpr ⟨rfl, hbits⟩] at hnot
    cases hnot

theorem foldl_releaseCovered_takes {rows : List (Str × Loc)} (hrow : (key, loc) ∈ rows)
    (hacc : index.width.accepts key = true) (hmap : index.map.get key = none)
    (hbits : slot.holds (hash key) = true) (hat : slot.isAt loc = true) (hlive : slot.isDisplaced = false) :
    slot ∉ rows.foldl (releaseCovered index hash) slots := by
  obtain ⟨front, back, rfl⟩ := append_of_mem hrow
  rw [foldl_append, foldl_cons]
  intro hin
  have hdistinct : Distinct (front.foldl (releaseCovered index hash) slots) :=
    h.sublist ((foldl_releaseCovered_sublist index hash front slots).map _)
  exact releaseCovered_takes hdistinct hacc hmap hbits hat hlive
    ((foldl_releaseCovered_sublist index hash back _).subset hin)

end

theorem coveredRows_mem {below : Nat} (h : Holds v.noted id row)
    (hdata : row.kind = .data) (hlt : row.lsn < below) :
    (row.key, row.loc id) ∈ v.coveredRows row.key below := by
  obtain ⟨segment, hs, rfl, hrow⟩ := h
  simp only [coveredRows, mem_flatMap, mem_map, mem_filter, Bool.and_eq_true,
    decide_eq_true_eq, Segment.footerRows, mem_sortByKey]
  exact ⟨segment, hs, row, ⟨hrow, ⟨rfl, hlt⟩, hdata⟩, rfl⟩

variable {cover : Covered Str} {resume : Str}

/-- A release run leaves no live slot its cover took behind where it resumes, if it stops clean. -/
theorem Sound.released (h : v.Sound hash strict) {limit : Nat}
    (hlimit : 0 < limit) (hclean : v.releaseClean cover resume limit = true)
    (hslot : slot ∈ (Books.releaseFound v cover resume limit).foldl (releaseCovered v.index hash) v.spot.slots)
    (hlive : slot.isDisplaced = false) (hat : rowAt v.noted slot = some row)
    (hcov : cover.covers row.key row.lsn = true) (hresume : resume ≤ row.key) :
    ∃ next, (if (v.releaseKeys cover resume limit).length < min limit releaseLimit then none
        else (v.releaseKeys cover resume limit).getLast?.bind successor) = some next ∧
      v.index.width.lowBound next ≤ row.key := by
  have hin := (foldl_releaseCovered_sublist v.index hash _ v.spot.slots).subset hslot
  obtain ⟨id, other, hp, hrow, hdata, hother, hnewest⟩ := h.rowAt_slot hin
  rw [hat] at hother
  cases hother
  obtain ⟨hlt, -, hhigh⟩ := (Covered.covers_iff _ _ _).mp hcov
  have hspec := releaseKeys_spec v cover resume limit (mem_notedKeys hrow) hresume hhigh
  by_cases hlooked : row.key ∈ v.releaseKeys cover resume limit
  · -- a key looked at has had its live slot taken
    have hfound : (row.key, row.loc id) ∈ Books.releaseFound v cover resume limit :=
      mem_flatMap.mpr ⟨row.key, hlooked, coveredRows_mem hrow hdata hlt⟩
    exact absurd hslot (foldl_releaseCovered_takes h.distinct hfound
      (h.accepted (hrow.mono v.noted_subset) hdata) (hnewest hlive).2 hp.bits (isAt_iff.mpr hp.place) hlive)
  · obtain ⟨hfull, hlast⟩ := hspec.resolve_left hlooked
    rw [if_neg hfull]
    have hne : v.releaseKeys cover resume limit ≠ [] := by
      intro hempty
      rw [hempty] at hfull
      simp only [length_nil, releaseLimit] at hfull
      omega
    have hget := getLast?_eq_some_getLast hne
    generalize (v.releaseKeys cover resume limit).getLast hne = last at hget
    have hpast : ¬ row.key ≤ last := by
      intro hle
      have hsame := le_antisymm hle (hlast last hget)
      exact hlooked (hsame ▸ mem_of_getLast? hget)
    simp only [releaseClean, hfull, decide_false, Bool.false_or, hget, Option.all_some, all_eq_true] at hclean
    have hnext := hclean slot hin
    simp only [hlive, hat, hcov, Option.all_some, Bool.not_true, Bool.false_or, hpast, decide_false,
      Option.any_eq_true, decide_eq_true_eq] at hnext
    rw [hget, Option.bind_some]
    exact hnext

theorem releaseRun_eq (hnoted : ¬ v.noted.isEmpty = true) (cover : Covered Str) (resume : Str) (limit : Nat) :
    (v.releaseRun hash cover resume limit).1 =
      { v with
        spot := v.spot.setSlots
          ((Books.releaseFound v cover resume limit).foldl (releaseCovered v.index hash) v.spot.slots)
        index := v.index.advanceRelease cover.lsn
          (if (v.releaseKeys cover resume limit).length < min limit releaseLimit then none
            else (v.releaseKeys cover resume limit).getLast?.bind successor) } := by
  simp only [Volume.releaseRun, hnoted, Bool.false_eq_true, if_false]
  rfl

section
variable (h : v.Sound hash strict) (hahead : v.Ahead) (hc : cover ∈ v.index.covers)
include h hahead hc

theorem Sound.ahead_releaseRun (hphase : cover.phase = .release resume) {limit : Nat}
    (hlimit : 0 < limit) (hclean : v.releaseClean cover resume limit = true) :
    (v.releaseRun hash cover resume limit).1.Ahead := by
  have hone : ∀ held ∈ v.index.covers, held.lsn = cover.lsn → held = cover :=
    fun held hheld hl => h.covers.eq_of_lsn hheld hc hl
  -- the map's part: a cover that goes from release to sweep sweeps from its low end
  have hmap : ∀ next : Option Str, ∀ held ∈ (v.index.advanceRelease cover.lsn next).covers,
      ∀ {key : Str} {entry : Entry}, v.index.map.get key = some entry → entry.isGrave = false →
        held.covers key entry.lsn = true → (∃ resume, held.phase = .release resume) ∨
          ∃ resume, held.phase = .sweep resume ∧ resume ≤ key := by
    intro next held hheld key entry hg hgrave hcov
    obtain ⟨first, hfirst, rfl⟩ := mem_setPhase hheld
    by_cases hl : first.lsn = cover.lsn
    · rw [if_pos hl] at hcov ⊢
      cases next with
      | none => exact .inr ⟨_, rfl, ((Covered.covers_iff _ _ _).mp hcov).2.1⟩
      | some next => exact .inl ⟨_, rfl⟩
    · rw [if_neg hl] at hcov ⊢
      exact hahead.map first hfirst hg hgrave hcov
  by_cases hempty : v.noted.isEmpty = true
  · simp only [Volume.releaseRun, hempty, if_true]
    refine ⟨fun held hheld slot hslot _ row hat _ => ?_, hmap none⟩
    obtain ⟨_, _, -, ⟨segment, hs, -⟩, -⟩ := h.rowAt_slot hslot
    rw [List.isEmpty_iff.mp hempty] at hs
    cases hs
  · rw [releaseRun_eq hempty]
    refine ⟨fun held hheld slot hslot hlive row hat hcov => ?_, hmap _⟩
    have hin := (foldl_releaseCovered_sublist v.index hash _ v.spot.slots).subset hslot
    obtain ⟨first, hfirst, rfl⟩ := mem_setPhase hheld
    by_cases hl : first.lsn = cover.lsn
    · obtain rfl := hone first hfirst hl
      rw [if_pos rfl] at hcov ⊢
      obtain ⟨_, hphase', hle⟩ := hahead.slots first hfirst slot hin hlive hat hcov
      rw [hphase] at hphase'
      cases hphase'
      obtain ⟨next, hnext, hbound⟩ := h.released hlimit hclean hslot hlive hat hcov hle
      exact ⟨v.index.width.lowBound next, by rw [hnext], hbound⟩
    · rw [if_neg hl] at hcov ⊢
      exact hahead.slots first hfirst slot hin hlive hat hcov

theorem Sound.ahead_sweepRun (hphase : cover.phase = .sweep resume) (budget : Nat) :
    Ahead { v with index := (v.index.sweepRun cover.lsn budget).1 } := by
  have hone : ∀ held ∈ v.index.covers, held.lsn = cover.lsn → held = cover :=
    fun held hheld hl => h.covers.eq_of_lsn hheld hc hl
  have hfind : v.index.covers.find? (·.lsn == cover.lsn) = some cover := by
    cases hf : v.index.covers.find? (·.lsn == cover.lsn) with
    | none => exact absurd (beq_self_eq_true _) (find?_eq_none.mp hf cover hc)
    | some found =>
      rw [hone found (mem_of_find?_eq_some hf) (by simpa using find?_some hf)]
  have hsweep : Books.sweepDoomed v.index cover.lsn budget =
      ((v.index.spanFrom resume cover.high).take budget).filter fun e =>
        decide (e.2.lsn < cover.lsn) && !e.2.isGrave := by
    simp only [Books.sweepDoomed, hfind, hphase]
  -- an entry the cover took is gone or lies past the examined run
  have hpast : ∀ {key : Str} {entry : Entry},
      (v.index.sweepRun cover.lsn budget).1.map.get key = some entry → entry.isGrave = false →
      cover.covers key entry.lsn = true → resume ≤ key →
        (key, entry) ∈ (v.index.spanFrom resume cover.high).drop budget := by
    intro key entry hg hgrave hcov hresume
    obtain ⟨hlt, -, hhigh⟩ := (Covered.covers_iff _ _ _).mp hcov
    have hkept := SortedMap.mem_entries.mpr hg
    rw [sweepRun_map, mem_filter] at hkept
    have hspan : (key, entry) ∈ v.index.spanFrom resume cover.high := by
      simp only [spanFrom, mem_filter, Bool.and_eq_true, decide_eq_true_eq,
        Option.all_eq_true]
      exact ⟨hkept.1, hresume, hhigh⟩
    rw [← take_append_drop budget (v.index.spanFrom resume cover.high), mem_append] at hspan
    refine hspan.resolve_left fun hlooked => ?_
    have hdoomed : (key, entry) ∈ Books.sweepDoomed v.index cover.lsn budget := by
      rw [hsweep, mem_filter]
      exact ⟨hlooked, by simp [hlt, hgrave]⟩
    have hstays := hkept.2
    simp only [Bool.not_eq_true', any_eq_false, beq_iff_eq] at hstays
    exact hstays _ hdoomed rfl
  have hbefore : ∀ {key : Str} {entry : Entry},
      (v.index.sweepRun cover.lsn budget).1.map.get key = some entry → v.index.map.get key = some entry := by
    intro key entry hg
    have hkept := SortedMap.mem_entries.mpr hg
    rw [sweepRun_map, mem_filter] at hkept
    exact SortedMap.mem_entries.mp hkept.1
  have hcovers : (v.index.sweepRun cover.lsn budget).1.covers = v.index.covers.map fun held =>
      if held.lsn = cover.lsn then { held with
        phase := ((v.index.spanFrom resume cover.high).drop budget).head?.elim .done
          fun stopped => .sweep stopped.1 } else held := by
    simp only [ColumnIndex.sweepRun, hfind, hphase]
    cases ((v.index.spanFrom resume cover.high).drop budget).head? <;> rfl
  refine ⟨fun held hheld slot hslot hlive row hat hcov => ?_, fun held hheld key entry hg hgrave hcov => ?_⟩
  · rw [hcovers] at hheld
    obtain ⟨first, hfirst, rfl⟩ := mem_map.mp hheld
    by_cases hl : first.lsn = cover.lsn
    · obtain rfl := hone first hfirst hl
      rw [if_pos rfl] at hcov
      obtain ⟨_, hrelease, -⟩ := hahead.slots first hfirst slot hslot hlive hat hcov
      rw [hphase] at hrelease
      cases hrelease
    · rw [if_neg hl] at hcov ⊢
      exact hahead.slots first hfirst slot hslot hlive hat hcov
  · rw [hcovers] at hheld
    obtain ⟨first, hfirst, rfl⟩ := mem_map.mp hheld
    by_cases hl : first.lsn = cover.lsn
    · obtain rfl := hone first hfirst hl
      rw [if_pos rfl] at hcov ⊢
      have hresume : resume ≤ key := by
        rcases hahead.map first hfirst (hbefore hg) hgrave hcov with ⟨_, hrelease⟩ | ⟨_, hsweep, hle⟩
        · rw [hphase] at hrelease
          cases hrelease
        · rw [hphase] at hsweep
          cases hsweep
          exact hle
      have hin := hpast hg hgrave hcov hresume
      have hsorted : ((v.index.spanFrom resume first.high).drop budget).Pairwise (fun a b => a.1 < b.1) :=
        (v.index.map.sorted.filter _).sublist (drop_sublist _ _)
      cases hdrop : (v.index.spanFrom resume first.high).drop budget with
      | nil =>
        rw [hdrop] at hin
        cases hin
      | cons stopped rest =>
        rw [hdrop] at hin hsorted
        refine .inr ⟨stopped.1, rfl, ?_⟩
        rcases mem_cons.mp hin with rfl | hin
        · exact le_refl _
        · exact ((pairwise_cons.mp hsorted).1 _ hin).le
    · rw [if_neg hl] at hcov ⊢
      exact hahead.map first hfirst (hbefore hg) hgrave hcov

end

/-- Every release run of one bounded pass stops clean. -/
def sweepClean (hash : Str → UInt64) : Nat → Nat → Volume → Bool
  | 0, _, _ => true
  | fuel + 1, remaining, v =>
    if remaining = 0 then true
    else
      match v.index.nextPendingCover with
      | none => true
      | some cover =>
        match cover.phase with
        | .release resume =>
          let (next, spent) := v.releaseRun hash cover resume remaining
          v.releaseClean cover resume remaining && sweepClean hash fuel (remaining - max spent 1) next
        | _ =>
          let (index, examined, done) := v.index.sweepRun cover.lsn remaining
          if done then sweepClean hash fuel (remaining - max examined 1) { v with index } else true

theorem bump_append (l : Str) (x : Byte) :
    successor.bump (l ++ [x]) = match successor.bump l with
      | some r => some (r ++ [x])
      | none => if x.val + 1 < 256 then some (replicate l.length 0 ++ [Fin.ofNat 256 (x.val + 1)]) else none := by
  induction l with
  | nil => simp [successor.bump]
  | cons b l ih =>
    simp only [cons_append, successor.bump]
    split
    · rfl
    · rw [ih]
      cases successor.bump l with
      | some r => rfl
      | none =>
        simp only [Option.map_none]
        split <;> simp [replicate_succ]

theorem successor_cons (x : Byte) (key : Str) :
    successor (x :: key) = match successor key with
      | some next => some (x :: next)
      | none => if x.val + 1 < 256 then some (Fin.ofNat 256 (x.val + 1) :: replicate key.length 0) else none := by
  simp only [successor, reverse_cons, bump_append, length_reverse]
  cases successor.bump key.reverse with
  | some r => simp
  | none =>
    simp only [Option.map_none]
    split <;> simp

/-- Among keys of one width the successor is the next key. -/
theorem successor_le {key other : Str} (hlen : key.length = other.length) (hlt : key < other) :
    ∃ next, successor key = some next ∧ next.length = key.length ∧ next ≤ other := by
  induction key generalizing other with
  | nil =>
    rw [length_nil, eq_comm, length_eq_zero_iff] at hlen
    exact absurd hlt (hlen ▸ lt_irrefl _)
  | cons x key ih =>
    cases other with
    | nil => cases hlen
    | cons y other =>
      have hlen' := Nat.succ.inj hlen
      rw [successor_cons]
      rcases cons_lt_cons_iff.mp hlt with hxy | ⟨rfl, hrest⟩
      · cases hnext : successor key with
        | some next =>
          obtain ⟨r, hr, rfl⟩ := Option.map_eq_some_iff.mp hnext
          refine ⟨_, rfl, ?_, cons_le_cons.mpr (.inl hxy)⟩
          simpa using (bump_lt hr).1.symm
        | none =>
          have hxy' := Fin.lt_def.mp hxy
          have hroom : x.val + 1 < 256 := by have := y.isLt; omega
          have hval : (Fin.ofNat 256 (x.val + 1)).val = x.val + 1 := Nat.mod_eq_of_lt hroom
          refine ⟨_, if_pos hroom, by simp, cons_le_cons.mpr ?_⟩
          rcases Nat.lt_or_eq_of_le (Nat.succ_le_of_lt hxy') with hbelow | hsame
          · exact .inl (Fin.lt_def.mpr (hval.trans_lt hbelow))
          · exact .inr ⟨Fin.ext (hval.trans hsame), hlen' ▸ replicate_zero_le other⟩
      · obtain ⟨next, hnext, hwidth, hle⟩ := ih hlen' hrest
        rw [hnext]
        exact ⟨_, rfl, by simp [hwidth], cons_le_cons.mpr (.inr ⟨rfl, hle⟩)⟩

section
variable {width : Nat} (hwidth : v.index.width = .fixed width) (hkeys : ∀ key ∈ v.notedKeys, key.length = width)
include hwidth hkeys

theorem releaseClean_fixed (cover : Covered Str) (resume : Str) (limit : Nat) :
    v.releaseClean cover resume limit = true := by
  simp only [releaseClean, Bool.or_eq_true, Option.all_eq_true, all_eq_true]
  refine .inr fun last hlast slot _ => .inr fun row hat => ?_
  have hlooked : last ∈ v.notedKeys :=
    (mem_filter.mp (mem_filter.mp (mem_of_mem_take (mem_of_getLast? hlast))).1).1
  obtain ⟨segment, hs, hrow⟩ := Option.bind_eq_some_iff.mp hat
  have hnoted := mem_notedKeys ⟨segment, mem_of_find?_eq_some hs, rfl, mem_of_find?_eq_some hrow⟩
  rcases le_or_gt row.key last with hle | hlt
  · exact .inl (.inr (decide_eq_true hle))
  · obtain ⟨next, hnext, hlen, hbelow⟩ := successor_le ((hkeys _ hlooked).trans (hkeys _ hnoted).symm) hlt
    have hbound : v.index.width.lowBound next = next := by
      rw [hwidth]
      exact lowBound_of_accepts (by simpa [KeyWidth.accepts] using hlen.trans (hkeys _ hlooked))
    rw [hnext, Option.any_some, hbound]
    exact .inr (decide_eq_true hbelow)

theorem sweepClean_fixed (fuel remaining : Nat) : sweepClean hash fuel remaining v = true := by
  induction fuel generalizing v remaining with
  | zero => rfl
  | succ fuel ih =>
    unfold sweepClean
    split
    · rfl
    · split
      · rfl
      · next cover _ =>
        split
        · next resume _ =>
          rw [Bool.and_eq_true]
          refine ⟨releaseClean_fixed hwidth hkeys cover resume remaining, ih ?_ ?_ _⟩
          · unfold Volume.releaseRun
            split <;> exact hwidth
          · unfold Volume.releaseRun
            split <;> exact hkeys
        · have hkept : (v.index.sweepRun cover.lsn remaining).1.width = v.index.width := by
            simp only [ColumnIndex.sweepRun]
            repeat' split
            all_goals rfl
          generalize v.index.sweepRun cover.lsn remaining = run at hkept ⊢
          obtain ⟨index, examined, done⟩ := run
          dsimp only
          split
          · refine ih ?_ ?_ _
            · exact hkept.trans hwidth
            · exact hkeys
          · rfl

end

theorem Sound.ahead_sweepLoop (h : v.Sound hash strict) (hahead : v.Ahead) (fuel remaining : Nat)
    (hclean : sweepClean hash fuel remaining v = true) : (Volume.sweepLoop hash fuel remaining v).Ahead := by
  induction fuel generalizing v remaining with
  | zero => exact hahead
  | succ fuel ih =>
    unfold Volume.sweepLoop
    unfold sweepClean at hclean
    by_cases hrem : remaining = 0
    · simpa only [hrem, if_true] using hahead
    · simp only [hrem, if_false] at hclean ⊢
      cases hnext : v.index.nextPendingCover with
      | none => exact hahead
      | some cover =>
        obtain ⟨hc, hdone⟩ := nextPendingCover_mem hnext
        simp only [hnext] at hclean
        cases hphase : cover.phase with
        | release resume =>
          simp only [hphase, Bool.and_eq_true] at hclean ⊢
          exact ih (h.releaseRun hc hphase remaining)
            (h.ahead_releaseRun hahead hc hphase (Nat.pos_of_ne_zero hrem) hclean.1) _ hclean.2
        | sweep resume =>
          simp only [hphase] at hclean ⊢
          split
          · rename_i hfinished
            simp only [hfinished, if_true] at hclean
            exact ih (h.sweepRun cover.lsn remaining) (h.ahead_sweepRun hahead hc hphase remaining) _ hclean
          · exact h.ahead_sweepRun hahead hc hphase remaining
        | done => exact absurd hphase hdone

/-- While no slot is marked for another key, a read resolves a key exactly where the map holds a put
no cover took, or a live sealed put stands. -/
theorem Sound.get_eq_some_iff (h : v.Sound hash true) :
    v.get hash key = some entry ↔
      (v.index.map.get key = some entry ∧ entry.isGrave = false ∧
        isCovered v.index.covers key entry.lsn = false) ∨
      ∃ id row, v.LiveSealed id row ∧ row.key = key ∧ entry = ⟨row.loc id, row.lsn⟩ := by
  cases hmap : v.index.map.get key with
  | some existing =>
    obtain ⟨hacc, -⟩ := h.mapped hmap
    have hword : v.mapped key = some (if existing.isGrave || v.index.isCoveredKey key existing.lsn then none
        else some existing) := by
      simp [Volume.mapped, entryOrGrave, hacc, hmap]
    have hsealed : ¬ ∃ id row, v.LiveSealed id row ∧ row.key = key ∧ entry = ⟨row.loc id, row.lsn⟩ := by
      rintro ⟨id, row, hl, rfl, -⟩
      rw [hl.absent] at hmap
      cases hmap
    simp only [Volume.get, hword, hsealed, or_false, isCoveredKey_eq hacc, Option.some.injEq]
    constructor
    · intro he
      split at he
      · cases he
      · rename_i hstands
        cases he
        simpa using hstands
    · rintro ⟨rfl, hgrave, hfree⟩
      simp [hgrave, hfree]
  | none =>
    have hword : v.mapped key = none := by
      simp [Volume.mapped, entryOrGrave, hmap]
    have hone : ∀ {i j : Nat} {a b : Row}, v.Newest i a → v.Newest j b → a.key = key → b.key = key →
        i = j ∧ a = b := fun ha hb hka hkb => ha.unique h.laid hb (hka.trans hkb.symm)
    simp only [Volume.get, hword, newestLive, reduceCtorEq, false_and, false_or]
    rcases h.slotted.newest_slot key with ⟨hentry, hnone⟩ |
      ⟨slot, hslot, id, row, hp, hrow, hdata, hk, hmax, hentry⟩
    · -- no slot of the key: nothing sealed is live
      simp only [hentry, liveOnly, Option.filter_none, reduceCtorEq, false_iff]
      rintro ⟨id, row, hl, hk, -⟩
      obtain ⟨hnoted, slot, hslot, hp, -⟩ := h.live_slot hl
      exact hnone slot hslot id row hp hnoted hl.data hk
    · obtain ⟨id', row', hp', hrow', -, -, hlive⟩ := h.slots slot hslot
      obtain ⟨rfl, rfl⟩ := hp.row_eq h.laid.toSited hp' (hrow.mono v.noted_subset)
        (hrow'.mono v.noted_subset)
      have hid : id ≠ 0 := by
        obtain ⟨segment, hs, rfl, -⟩ := hrow
        exact h.laid.ids_pos segment (v.noted_subset hs)
      cases hd : slot.isDisplaced with
      | false =>
        have hacc := h.accepted (hrow.mono v.noted_subset) hdata
        rw [hk] at hacc
        have hstands : v.liveOnly key (some (row.entry id)) = v.standing key (some (row, id)) := rfl
        rw [hentry, hd]
        simp only [Bool.false_eq_true, if_false]
        rw [hstands, standing_some hid, isCoveredKey_eq hacc]
        constructor
        · intro he
          split at he
          · rename_i hfree
            refine ⟨id, row, ⟨(hlive hd).1, hdata, hk ▸ hmap, by simpa [hk] using hfree.2⟩, hk, ?_⟩
            cases he
            simp [Row.entry, hdata]
          · cases he
        · rintro ⟨j, other, hl, hk', rfl⟩
          obtain ⟨rfl, rfl⟩ := hone (hlive hd).1 hl.newest hk hk'
          have hfree := hl.uncovered
          rw [hk] at hfree
          simp [hdata, hfree, Row.entry]
      | true =>
        -- the newest slot is displaced, so no live sealed put stands
        have hsealed : ¬ ∃ id row, v.LiveSealed id row ∧ row.key = key := by
          rintro ⟨j, other, hl, hk'⟩
          obtain ⟨hnoted, own, hown, hpo, hlive'⟩ := h.live_slot hl
          have hle := hmax own hown j other hpo hnoted hl.data hk'
          have hge := hl.newest.newest (hrow.mono v.noted_subset) (by simp [hdata]) (hk.trans hk'.symm)
          obtain ⟨rfl, rfl⟩ := h.laid.lsns (hrow.mono v.noted_subset) hl.newest.holds (le_antisymm hge hle)
          obtain rfl := h.distinct.eq hslot hown (hp.place.trans hpo.place.symm)
          rw [hlive' rfl] at hd
          cases hd
        obtain ⟨found, hfound, -, hstands⟩ := walkAnswer_of_absent h.laid hmap
        have hnone : v.standing key found = none := by
          refine (h.standing_cases hmap hfound).resolve_right ?_
          rintro ⟨j, other, hn, hd', hk', hfree, -⟩
          exact hsealed ⟨j, other, ⟨hn, hd', hk' ▸ hmap, hfree⟩, hk'⟩
        rw [hentry, hd]
        simp only [if_true]
        rw [hstands, hnone]
        constructor
        · intro he
          cases he
        · rintro ⟨j, other, hl, hk', -⟩
          exact absurd ⟨j, other, hl, hk'⟩ hsealed

theorem Sound.resolves_written (h : v.Sound hash true)
    (hget : v.get hash key = some entry) :
    key ∈ v.segments.flatMap fun segment => segment.rows.map Row.key := by
  have hwritten : ∃ id row, Holds v.segments id row ∧ row.key = key := by
    rcases h.get_eq_some_iff.mp hget with ⟨hg, -⟩ | ⟨id, row, hl, hk, -⟩
    · obtain ⟨-, id, row, hn, hk, -⟩ := h.mapped hg
      exact ⟨id, row, hn.holds, hk⟩
    · exact ⟨id, row, hl.newest.holds, hk⟩
  obtain ⟨id, row, ⟨segment, hs, -, hrow⟩, rfl⟩ := hwritten
  exact mem_flatMap.mpr ⟨segment, hs, mem_map_of_mem hrow⟩

theorem Sound.none_resolved (h : v.Sound hash true)
    (hnone : ∀ key ∈ v.segments.flatMap fun segment => segment.rows.map Row.key, v.get hash key = none)
    (key : Str) : v.get hash key = none := by
  cases hget : v.get hash key with
  | none => rfl
  | some entry =>
    rw [hnone key (h.resolves_written hget)] at hget
    cases hget

end Volume

theorem sum_ite_eq {s : Nat} (a : Nat) {l : List Nat} (h : l.Nodup) :
    (l.map fun x => if s = x then a else 0).sum = if s ∈ l then a else 0 := by
  induction l with
  | nil => rfl
  | cons x l ih =>
    obtain ⟨hx, hl⟩ := nodup_cons.mp h
    rw [map_cons, sum_cons, ih hl]
    by_cases hs : s = x
    · subst hs
      simp [hx]
    · simp [hs]

theorem sum_walked (sharding : Sharding) (walked : Nat → Bool) {α : Type} (key : α → Str) (a : α → Nat)
    (l : List α) :
    (((range sharding.count).filter walked).map fun shard =>
        (l.map fun x => if sharding.shardOf (key x) = shard then a x else 0).sum).sum =
      (l.map fun x => if walked (sharding.shardOf (key x)) then a x else 0).sum := by
  induction l with
  | nil => simp
  | cons x l ih =>
    simp only [map_cons, sum_cons, sum_map_add]
    rw [ih, sum_ite_eq _ (nodup_range.filter _)]
    simp [sharding.shardOf_lt]

theorem sum_filter {α : Type} (p : α → Bool) (w : α → Nat) (l : List α) :
    ((l.filter p).map w).sum = (l.map fun x => if p x then w x else 0).sum := by
  induction l with
  | nil => rfl
  | cons x l ih => cases hp : p x <;> simp [hp, ih]

def keyAt (noted : List Segment) (slot : Slot) : Str := (rowAt noted slot).elim [] Row.key

section Weights
variable (sharding : Sharding) (shard : Nat) {noted : List Segment} {slot : Slot} {row : Row}

theorem slotLive_eq (h : rowAt noted slot = some row) : slotLive sharding shard noted slot =
    if sharding.shardOf (keyAt noted slot) = shard then (if slot.isDisplaced then 0 else 1) else 0 := by
  by_cases hs : sharding.shardOf row.key = shard <;>
    simp [slotLive, shardRow, keyAt, h, hs, Option.filter]

theorem slotBytes_eq (h : rowAt noted slot = some row) : slotBytes sharding shard noted slot =
    if sharding.shardOf (keyAt noted slot) = shard then
      (if slot.isDisplaced then row.len - slot.least else row.len) else 0 := by
  by_cases hs : sharding.shardOf row.key = shard <;>
    simp [slotBytes, shardRow, keyAt, h, hs, Option.filter]

end Weights

def Booked.unbooked (sharding : Sharding) (b : Booked) : Nat :=
  (b.volume.spot.slots.map fun slot =>
    if b.books.occupied (sharding.shardOf (keyAt b.volume.noted slot)) && slot.isDisplaced then
      (rowAt b.volume.noted slot).elim 0 fun row => row.len - slot.least
    else 0).sum

def Volume.resolvedKeys (v : Volume) : List Str :=
  (v.index.map.entries.filter fun e => !e.2.isGrave).map Prod.fst ++
    (v.spot.slots.filter fun slot => !slot.isDisplaced).map (keyAt v.noted)

namespace Volume
variable {hash : Str → UInt64} {v : Volume} {sharding : Sharding} {books : Books}

theorem walked_entry (ht : v.Tallies sharding books) {e : Str × Entry}
    (he : e ∈ v.index.map.entries) : books.occupied (sharding.shardOf e.1) = true :=
  ht.walked _ (.inl (vacant_eq_false.mpr ⟨e.1, e.2, SortedMap.mem_entries.mp he, rfl⟩))

variable {slot : Slot}

section
variable (h : v.Sound hash true) (ht : v.Tallies sharding books)
include h ht

theorem Sound.walked_live
    (hslot : slot ∈ v.spot.slots) (hlive : slot.isDisplaced = false) :
    books.occupied (sharding.shardOf (keyAt v.noted slot)) = true := by
  obtain ⟨_, row, -, -, -, hat, -⟩ := h.rowAt_slot hslot
  refine ht.walked _ (.inr ?_)
  have hone : slotLive sharding (sharding.shardOf (keyAt v.noted slot)) v.noted slot = 1 := by
    rw [slotLive_eq _ _ hat, hlive]
    simp
  have hle := single_le_sum (fun _ _ => Nat.zero_le _) _ (mem_map_of_mem hslot
    (f := slotLive sharding (sharding.shardOf (keyAt v.noted slot)) v.noted))
  rw [ht.paged]
  omega

/-- The walked shards' keys are all the map's puts and all the live slots. -/
theorem Sound.totals_count :
    (books.totals sharding v.index.map).count = v.resolvedKeys.length := by
  have hshard : ∀ shard, v.index.map.entries.countP (fun e => sharding.shardOf e.1 == shard) -
        (books.shards shard).graves + (books.shards shard).paged =
      (v.index.map.entries.map fun e =>
        if sharding.shardOf e.1 = shard then (if e.2.isGrave then 0 else 1) else 0).sum +
      (v.spot.slots.map fun slot => if sharding.shardOf (keyAt v.noted slot) = shard then
        (if slot.isDisplaced then 0 else 1) else 0).sum := by
    intro shard
    have hheld : v.index.map.entries.countP (fun e => sharding.shardOf e.1 == shard) =
        (v.index.map.entries.map (graveWeight sharding shard)).sum +
          (v.index.map.entries.map fun e =>
            if sharding.shardOf e.1 = shard then (if e.2.isGrave then 0 else 1) else 0).sum := by
      rw [← sum_map_add]
      induction v.index.map.entries with
      | nil => rfl
      | cons e entries ih =>
        rw [countP_cons, ih, map_cons, sum_cons]
        by_cases hs : sharding.shardOf e.1 = shard <;> cases hg : e.2.isGrave <;>
          simp [graveWeight, hs, hg] <;> omega
    have hslots : v.spot.slots.map (slotLive sharding shard v.noted) = v.spot.slots.map fun slot =>
        if sharding.shardOf (keyAt v.noted slot) = shard then (if slot.isDisplaced then 0 else 1) else 0 :=
      map_congr_left fun slot hslot => by
        obtain ⟨_, row, -, -, -, hat, -⟩ := h.rowAt_slot hslot
        exact slotLive_eq sharding shard hat
    rw [ht.graves, ht.paged, hheld, hslots]
    omega
  have hlength : ∀ {α : Type} (l : List α), l.length = (l.map fun _ => 1).sum := by simp
  simp only [Books.totals, hshard, sum_map_add]
  rw [sum_walked sharding books.occupied Prod.fst, sum_walked sharding books.occupied (keyAt v.noted)]
  simp only [resolvedKeys, length_append, length_map]
  rw [hlength (v.index.map.entries.filter _), hlength (v.spot.slots.filter _), sum_filter, sum_filter]
  congr 2
  · refine map_congr_left fun e he => ?_
    cases hg : e.2.isGrave <;> simp [walked_entry ht he]
  · refine map_congr_left fun slot hslot => ?_
    cases hd : slot.isDisplaced with
    | true => simp
    | false => simp [h.walked_live ht hslot hd]

/-- The walked shards' bytes are those of the map's puts and of the live slots' records, and what
classes left unbooked. -/
theorem Sound.totals_bytes :
    (books.totals sharding v.index.map).bytes =
      ((v.index.map.entries.filter fun e => !e.2.isGrave).map fun e => e.2.loc.len).sum +
      ((v.spot.slots.filter fun slot => !slot.isDisplaced).map fun slot =>
        (rowAt v.noted slot).elim 0 Row.len).sum + Booked.unbooked sharding ⟨v, books⟩ := by
  have hshard : ∀ shard, (books.shards shard).bytes =
      (v.index.map.entries.map fun e =>
        if sharding.shardOf e.1 = shard then (if e.2.isGrave then 0 else e.2.loc.len) else 0).sum +
      (v.spot.slots.map fun slot => if sharding.shardOf (keyAt v.noted slot) = shard then
        (rowAt v.noted slot).elim 0 (fun row => if slot.isDisplaced then row.len - slot.least else row.len)
        else 0).sum := by
    intro shard
    rw [ht.bytes]
    congr 2
    · refine map_congr_left fun e _ => ?_
      by_cases hs : sharding.shardOf e.1 = shard <;> cases hg : e.2.isGrave <;> simp [entryBytes, hs, hg]
    · refine map_congr_left fun slot hslot => ?_
      obtain ⟨_, row, -, -, -, hat, -⟩ := h.rowAt_slot hslot
      rw [slotBytes_eq sharding shard hat, hat]
      rfl
  simp only [Books.totals, hshard, sum_map_add]
  rw [sum_walked sharding books.occupied Prod.fst, sum_walked sharding books.occupied (keyAt v.noted),
    sum_filter, sum_filter, Booked.unbooked, Nat.add_assoc, ← sum_map_add]
  congr 2
  · refine map_congr_left fun e he => ?_
    cases hg : e.2.isGrave <;> simp [walked_entry ht he]
  · refine map_congr_left fun slot hslot => ?_
    obtain ⟨_, row, -, -, -, hat, -⟩ := h.rowAt_slot hslot
    cases hd : slot.isDisplaced with
    | true => simp [hat]
    | false => simp [hat, h.walked_live ht hslot hd]

end

/-- No live slot and no put of the map is one a cover took. -/
structure Settled (v : Volume) : Prop where
  slots : ∀ slot ∈ v.spot.slots, slot.isDisplaced = false → ∀ {row : Row}, rowAt v.noted slot = some row →
    isCovered v.index.covers row.key row.lsn = false
  map : ∀ {key : Str} {entry : Entry}, v.index.map.get key = some entry → entry.isGrave = false →
    isCovered v.index.covers key entry.lsn = false

theorem Ahead.settled (h : v.Ahead) (hdone : v.index.hasPendingCovers = false) : v.Settled := by
  have hphase : ∀ cover ∈ v.index.covers, cover.phase = .done := by
    intro cover hc
    have := any_eq_false.mp hdone cover hc
    simpa using this
  refine ⟨fun slot hslot hlive row hat => ?_, fun {key entry} hg hgrave => ?_⟩
  · by_contra hcov
    obtain ⟨cover, hc, hcov⟩ := (isCovered_iff _ _ _).mp (by simpa using hcov)
    obtain ⟨_, hrelease, -⟩ := h.slots cover hc slot hslot hlive hat hcov
    rw [hphase cover hc] at hrelease
    cases hrelease
  · by_contra hcov
    obtain ⟨cover, hc, hcov⟩ := (isCovered_iff _ _ _).mp (by simpa using hcov)
    have hdone := hphase cover hc
    rcases h.map cover hc hg hgrave hcov with ⟨_, hrelease⟩ | ⟨_, hsweep, -⟩
    · rw [hdone] at hrelease
      cases hrelease
    · rw [hdone] at hsweep
      cases hsweep

section
variable (hs : v.Settled) (h : v.Sound hash true)
include hs h

theorem Settled.live (hslot : slot ∈ v.spot.slots)
    (hlive : slot.isDisplaced = false) :
    ∃ id row, v.LiveSealed id row ∧ rowAt v.noted slot = some row ∧ slot.place = (id, row.offset) := by
  obtain ⟨id, row, hp, -, hdata, hat, hnewest⟩ := h.rowAt_slot hslot
  exact ⟨id, row, ⟨(hnewest hlive).1, hdata, (hnewest hlive).2, hs.slots slot hslot hlive hat⟩, hat, hp.place⟩

theorem Settled.get_entry {e : Str × Entry}
    (he : e ∈ v.index.map.entries) (hgrave : e.2.isGrave = false) : v.get hash e.1 = some e.2 := by
  have hg := SortedMap.mem_entries.mp he
  exact h.get_eq_some_iff.mpr (.inl ⟨hg, hgrave, hs.map hg hgrave⟩)

theorem Settled.get_slot (hslot : slot ∈ v.spot.slots)
    (hlive : slot.isDisplaced = false) :
    ∃ id row, rowAt v.noted slot = some row ∧
      v.get hash (keyAt v.noted slot) = some ⟨row.loc id, row.lsn⟩ := by
  obtain ⟨id, row, hl, hat, -⟩ := hs.live h hslot hlive
  refine ⟨id, row, hat, h.get_eq_some_iff.mpr (.inr ⟨id, row, hl, ?_, rfl⟩)⟩
  simp [keyAt, hat]

/-- The keys of a settled column are those a read resolves, each once. -/
theorem Settled.resolved :
    v.resolvedKeys.Nodup ∧ ∀ key, key ∈ v.resolvedKeys ↔ (v.get hash key).isSome = true := by
  constructor
  · refine nodup_append.mpr ⟨?_, ?_, ?_⟩
    · have hkeys : (v.index.map.entries.map Prod.fst).Nodup :=
        pairwise_map.mpr (v.index.map.sorted.imp fun hlt => hlt.ne)
      exact hkeys.sublist (filter_sublist.map _)
    · refine List.Nodup.map_on ?_ ((List.Nodup.of_map _ h.distinct).filter _)
      intro a ha b hb he
      simp only [mem_filter, Bool.not_eq_true'] at ha hb
      obtain ⟨i, ra, hla, hra, hpa⟩ := hs.live h ha.1 ha.2
      obtain ⟨j, rb, hlb, hrb, hpb⟩ := hs.live h hb.1 hb.2
      simp only [keyAt, hra, hrb, Option.elim_some] at he
      obtain ⟨rfl, rfl⟩ := hla.newest.unique h.laid hlb.newest he
      exact h.distinct.eq ha.1 hb.1 (hpa.trans hpb.symm)
    · rintro key hkey _ hslot rfl
      obtain ⟨⟨k, entry⟩, he, rfl⟩ := mem_map.mp hkey
      obtain ⟨slot, hin, hk⟩ := mem_map.mp hslot
      simp only [mem_filter, Bool.not_eq_true'] at he hin
      obtain ⟨_, row, hl, hat, -⟩ := hs.live h hin.1 hin.2
      simp only [keyAt, hat, Option.elim_some] at hk
      have habsent := hl.absent
      rw [hk, SortedMap.mem_entries.mp he.1] at habsent
      cases habsent
  · intro key
    rw [resolvedKeys, mem_append, mem_map, mem_map]
    constructor
    · rintro (⟨e, he, rfl⟩ | ⟨slot, hslot, rfl⟩)
      · simp only [mem_filter, Bool.not_eq_true'] at he
        rw [hs.get_entry h he.1 he.2]
        rfl
      · simp only [mem_filter, Bool.not_eq_true'] at hslot
        obtain ⟨_, _, -, hget⟩ := hs.get_slot h hslot.1 hslot.2
        rw [hget]
        rfl
    · intro hsome
      obtain ⟨entry, hget⟩ := Option.isSome_iff_exists.mp hsome
      rcases h.get_eq_some_iff.mp hget with ⟨hg, hgrave, -⟩ | ⟨id, row, hl, rfl, -⟩
      · refine .inl ⟨(key, entry), mem_filter.mpr ⟨SortedMap.mem_entries.mpr hg, ?_⟩, rfl⟩
        simp [hgrave]
      · obtain ⟨hnoted, slot, hslot, hp, hlive⟩ := h.live_slot hl
        refine .inr ⟨slot, mem_filter.mpr ⟨hslot, by simp [hlive rfl]⟩, ?_⟩
        rw [keyAt, rowAt_eq h.sited_noted hp.place hnoted]
        rfl

theorem Settled.resolved_bytes :
    (v.resolvedKeys.map fun key => (v.get hash key).elim 0 fun entry => entry.loc.len).sum =
      ((v.index.map.entries.filter fun e => !e.2.isGrave).map fun e => e.2.loc.len).sum +
      ((v.spot.slots.filter fun slot => !slot.isDisplaced).map fun slot =>
        (rowAt v.noted slot).elim 0 Row.len).sum := by
  rw [resolvedKeys, map_append, sum_append, map_map, map_map]
  congr 2
  · refine map_congr_left fun e he => ?_
    simp only [mem_filter, Bool.not_eq_true'] at he
    rw [Function.comp_apply, hs.get_entry h he.1 he.2]
    rfl
  · refine map_congr_left fun slot hslot => ?_
    simp only [mem_filter, Bool.not_eq_true'] at hslot
    obtain ⟨_, row, hat, hget⟩ := hs.get_slot h hslot.1 hslot.2
    rw [Function.comp_apply, hget, hat]
    rfl

end

end Volume

namespace Booked
variable {hash : Str → UInt64} {sharding : Sharding} {b b' : Booked}

/-- A put is of the column's width, a put or delete over an empty place marks only its own key's slots,
and a bounded sweep stops its release runs clean. -/
def CountSafe (hash : Str → UInt64) (b : Booked) : BookStep → Prop
  | .put _ key _ _ _ => b.volume.index.width.accepts key = true ∧
      (b.volume.index.map.get key = none → b.volume.MarksOwn hash key b.volume.next)
  | .delete _ key _ _ => b.volume.index.width.accepts key = true → b.volume.index.map.get key = none →
      b.volume.MarksOwn hash key b.volume.next
  | .sweepCovers budget => Volume.sweepClean hash budget budget b.volume = true
  | _ => True

/-- In a column of fixed width a sweep asks nothing, if no tombstone or range of another width was noted. -/
theorem countSafe_sweepCovers {width : Nat} (hwidth : b.volume.index.width = .fixed width)
    (hkeys : ∀ key ∈ b.volume.notedKeys, key.length = width) (budget : Nat) :
    b.CountSafe hash (.sweepCovers budget) :=
  Volume.sweepClean_fixed hwidth hkeys budget budget

variable {action : BookStep}

theorem CountSafe.stepSafe (h : b.CountSafe hash action) :
    b.volume.StepSafe hash true action.action := by
  cases action <;> simp_all [CountSafe, BookStep.action, Volume.StepSafe]

theorem CountSafe.ahead {v' : Volume} (hsafe : b.CountSafe hash action)
    (h : b.volume.Sound hash true) (hahead : b.volume.Ahead)
    (hstep : b.volume.step hash action.action = some v') : v'.Ahead := by
  cases action with
  | openTail id =>
    simp only [BookStep.action, Volume.step] at hstep
    split at hstep
    · cases hstep
    · cases hstep
      exact ⟨hahead.slots, hahead.map⟩
  | put tail key offset len cache =>
    obtain ⟨landed, happ, rfl⟩ := Option.map_eq_some_iff.mp hstep
    have ha := Volume.append_appends h.laid rfl happ
    rw [h.insert_eq ha hsafe.1]
    exact h.ahead_write hahead ha cache rfl
  | delete tail key offset cache =>
    obtain ⟨landed, happ, rfl⟩ := Option.map_eq_some_iff.mp hstep
    have ha := Volume.append_appends h.laid rfl happ
    by_cases hacc : b.volume.index.width.accepts key = true
    · rw [h.remove_eq ha hacc]
      exact h.ahead_write hahead ha cache rfl
    · rw [Volume.remove_refused ha hacc]
      refine hahead.keep rfl (fun _ hslot _ => hslot) (fun _ _ => by rw [ha.noted]) fun hg _ => .inl hg
  | deleteRange tail start fin offset =>
    simp only [BookStep.action, Volume.step] at hstep
    split at hstep
    · cases hstep
      exact hahead
    · obtain ⟨landed, happ, rfl⟩ := Option.map_eq_some_iff.mp hstep
      exact h.ahead_deleteRange hahead (Volume.append_appends h.laid rfl happ) start fin _
  | foreign tail | sealTail tail =>
    cases hstep
    exact ⟨hahead.slots, hahead.map⟩
  | holdSealed =>
    cases hstep
    exact hahead.keep rfl (fun _ hslot _ => hslot) (fun slot hslot => h.rowAt_append _ hslot)
      fun hg _ => .inl hg
  | handOver =>
    cases hstep
    exact h.ahead_handOver hahead
  | sweepCovers budget =>
    cases hstep
    exact h.ahead_sweepLoop hahead budget budget hsafe

structure Kept (sharding : Sharding) (hash : Str → UInt64) (b : Booked) : Prop where
  sound : b.volume.Sound hash true
  tallied : Tallied sharding b.volume.index.map b.volume.noted b.volume.spot.slots b.books
  ahead : b.volume.Ahead

theorem kept_start (sharding : Sharding) (hash : Str → UInt64) (width : KeyWidth) (next : Nat) :
    (start width next).Kept sharding hash :=
  ⟨Volume.sound_start hash true width next, Volume.tallied_start sharding width next,
    Volume.ahead_start width next⟩

theorem Kept.step (h : b.Kept sharding hash) (hsafe : b.CountSafe hash action)
    (hstep : b.step sharding hash action = some b') : b'.Kept sharding hash := by
  obtain ⟨v', hv, rfl⟩ := Option.map_eq_some_iff.mp hstep
  exact ⟨h.sound.step hsafe.stepSafe hv, h.sound.tallied_step h.tallied hsafe.stepSafe hv,
    hsafe.ahead h.sound h.ahead hv⟩

/-- In every run whose steps are safe, whenever no cover is pending, the totals count the keys a read
resolves and their bytes, but for what the classes of displaced slots left unbooked, and no live slot
belongs to a version a cover took. -/
theorem totals_when_settled (sharding : Sharding) (hash : Str → UInt64) (width : KeyWidth) (next : Nat)
    (steps : List BookStep) (b : Booked)
    (hok : Runs.Meets (step sharding hash) (CountSafe hash) (start width next) steps)
    (hrun : Runs.run (step sharding hash) (start width next) steps = some b)
    (hdone : b.volume.index.hasPendingCovers = false) :
    (∃ keys : List Str, keys.Nodup ∧ (∀ key, key ∈ keys ↔ (b.volume.get hash key).isSome = true) ∧
      (b.totals sharding).count = keys.length ∧
      (b.totals sharding).bytes =
        (keys.map fun key => (b.volume.get hash key).elim 0 fun entry => entry.loc.len).sum +
          b.unbooked sharding) ∧
    ∀ slot ∈ b.volume.spot.slots, slot.isDisplaced = false → ∀ row, rowAt b.volume.noted slot = some row →
      isCovered b.volume.index.covers row.key row.lsn = false := by
  have h : b.Kept sharding hash := Runs.invariant_run (Kept sharding hash)
    (fun _ _ _ hkept hsafe hstep => hkept.step hsafe hstep) (kept_start sharding hash width next) hok hrun
  have hsettled := h.ahead.settled hdone
  obtain ⟨hnodup, hmem⟩ := hsettled.resolved h.sound
  refine ⟨⟨b.volume.resolvedKeys, hnodup, hmem, h.sound.totals_count h.tallied, ?_⟩,
    fun slot hslot hlive row hat => hsettled.slots slot hslot hlive hat⟩
  rw [hsettled.resolved_bytes h.sound]
  exact h.sound.totals_bytes h.tallied

def oneShard : Sharding := ⟨1, fun _ => 0, fun _ => Nat.one_pos⟩

def sweptRange : List BookStep :=
  [.openTail 1, .put 1 [5] 0 1 .warm, .put 1 [7] 1 3 .warm, .sealTail 1, .holdSealed, .handOver,
    .openTail 2, .deleteRange 2 [5] (some [6]) 0, .sweepCovers 4]

theorem totals_of_swept_range :
    ∃ b, Runs.run (step oneShard fun _ => 0) (start .varying 1) sweptRange = some b ∧
      b.volume.index.hasPendingCovers = false ∧ b.unbooked oneShard = 0 ∧ b.totals oneShard = ⟨1, 3⟩ ∧
      (∃ keys : List Str, keys.Nodup ∧
        (∀ key, key ∈ keys ↔ (b.volume.get (fun _ => 0) key).isSome = true) ∧
        (b.totals oneShard).count = keys.length ∧
        (b.totals oneShard).bytes =
          (keys.map fun key => (b.volume.get (fun _ => 0) key).elim 0 fun entry => entry.loc.len).sum +
            b.unbooked oneShard) ∧
      ∀ slot ∈ b.volume.spot.slots, slot.isDisplaced = false → ∀ row, rowAt b.volume.noted slot = some row →
        isCovered b.volume.index.covers row.key row.lsn = false := by
  refine ⟨_, rfl, by decide, by decide, by decide,
    totals_when_settled oneShard (fun _ => 0) .varying 1 sweptRange _ ?_ rfl (by decide)⟩
  refine .cons trivial rfl (.cons ⟨by decide, fun _ slot hs => by cases hs⟩ rfl (.cons ⟨by decide, ?_⟩ rfl
    (.cons trivial rfl (.cons trivial rfl (.cons trivial rfl (.cons trivial rfl (.cons trivial rfl
      (.cons rfl rfl trivial))))))))
  intro _ slot hs
  cases hs

theorem sound_run {width : KeyWidth} {next : Nat} {steps : List BookStep}
    (hok : Runs.Meets (step sharding hash) (fun b action => b.volume.StepSafe hash true action.action)
      (start width next) steps)
    (hrun : Runs.run (step sharding hash) (start width next) steps = some b) : b.volume.Sound hash true := by
  refine Runs.invariant_run (fun b => b.volume.Sound hash true) (fun b action b' h hsafe hstep => ?_)
    (Volume.sound_start hash true width next) hok hrun
  obtain ⟨v', hv, rfl⟩ := Option.map_eq_some_iff.mp hstep
  exact h.step hsafe hv

def lengthHash (key : Str) : UInt64 := UInt64.ofNat key.length

def cutRange : List BookStep :=
  [.openTail 1, .put 1 [5] 0 1 .warm, .put 1 [5, 0] 1 1 .warm, .sealTail 1, .holdSealed, .handOver,
    .openTail 2, .deleteRange 2 [5] (some [6]) 0, .sweepCovers 1, .sweepCovers 1, .sweepCovers 1]

theorem cutRange_meets : Runs.Meets (step oneShard lengthHash)
    (fun b action => b.volume.StepSafe lengthHash true action.action) (start .varying 1) cutRange := by
  refine .cons trivial rfl (.cons ⟨by decide, fun _ _ slot hs => by cases hs⟩ rfl (.cons ⟨by decide, ?_⟩ rfl
    (.cons trivial rfl (.cons trivial rfl (.cons trivial rfl (.cons trivial rfl (.cons trivial rfl
      (.cons trivial rfl (.cons trivial rfl (.cons trivial rfl trivial))))))))))
  intro _ _ slot hs
  cases hs

def overwritten : List BookStep :=
  [.openTail 1, .put 1 [5] 0 1 .warm, .sealTail 1, .holdSealed, .handOver, .openTail 2, .put 2 [5] 0 1 .warm]

theorem overwritten_meets : Runs.Meets (step oneShard fun _ => 0)
    (fun b action => b.volume.StepSafe (fun _ => 0) true action.action) (start .varying 1) overwritten := by
  refine .cons trivial rfl (.cons ⟨by decide, fun _ _ slot hs => by cases hs⟩ rfl (.cons trivial rfl
    (.cons trivial rfl (.cons trivial rfl (.cons trivial rfl (.cons ⟨by decide, ?_⟩ rfl trivial))))))
  intro _ _ slot hs _ _ _
  obtain rfl := mem_singleton.mp hs
  exact ⟨⟨1, 1, false⟩, rfl⟩

def sharedHash : List BookStep :=
  [.openTail 1, .put 1 [5] 0 1 .warm, .sealTail 1, .holdSealed, .handOver, .openTail 2,
    .put 2 [5, 0] 0 1 .warm]

/-- A release run that resumes past a key leaves its live slot and counts it for good; an overwrite
books the least length of a class for the record it displaced; and a key whose slot another key's put
marked is no longer counted. -/
theorem totals_drift :
    (∃ b, Runs.run (step oneShard lengthHash) (start .varying 1) cutRange = some b ∧
      b.volume.index.hasPendingCovers = false ∧ b.totals oneShard = ⟨1, 1⟩ ∧
      (∀ key, b.volume.get lengthHash key = none) ∧
      ∃ slot ∈ b.volume.spot.slots, slot.isDisplaced = false ∧
        ∃ row ∈ rowAt b.volume.noted slot, isCovered b.volume.index.covers row.key row.lsn = true) ∧
    (∃ b, Runs.run (step oneShard fun _ => 0) (start .varying 1) overwritten = some b ∧
      b.volume.index.hasPendingCovers = false ∧ b.totals oneShard = ⟨1, 2⟩ ∧
      b.volume.get (fun _ => 0) [5] = some ⟨⟨2, 0, 1⟩, 2⟩ ∧
      ∀ key entry, b.volume.get (fun _ => 0) key = some entry → key = [5]) ∧
    ∃ b, Runs.run (step oneShard fun _ => 0) (start .varying 1) sharedHash = some b ∧
      b.volume.index.hasPendingCovers = false ∧ (b.totals oneShard).count = 1 ∧
      (b.volume.get (fun _ => 0) [5]).isSome = true ∧ (b.volume.get (fun _ => 0) [5, 0]).isSome = true := by
  refine ⟨⟨_, rfl, by decide, by decide, fun key => ?_, by decide⟩,
    ⟨_, rfl, by decide, by decide, by decide, fun key entry hget => ?_⟩, _, rfl, by decide, by decide,
    by decide, by decide⟩
  · exact (sound_run cutRange_meets rfl).none_resolved (by decide) key
  · have hwritten : key ∈ ([[5], [5]] : List Str) :=
      (sound_run overwritten_meets rfl).resolves_written hget
    simpa using hwritten

end Booked

end Reel
