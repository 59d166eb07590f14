import Reel.Index.Ledger
import Reel.Index.Sound
import Reel.Library.Runs

/-!
Every number a column holds was drawn before the next one, after any run at all. What a read
answers with is therefore older than whatever is written next.
-/

set_option autoImplicit false

namespace Reel
open Bytes StableSort List

namespace Volume
variable {hash : Str → UInt64} {v v' : Volume}

structure Drawn (v : Volume) : Prop where
  rows : ∀ {id : Nat} {row : Row}, Holds v.segments id row → row.lsn < v.next
  mapped : ∀ {key : Str} {entry : Entry}, v.index.map.get key = some entry → entry.lsn < v.next
  covers : ∀ cover ∈ v.index.covers, cover.lsn < v.next

/-- A step that writes no record, no entry and no cover. -/
structure Sheds (v v' : Volume) : Prop where
  rows : ∀ {id : Nat} {row : Row}, Holds v'.segments id row → Holds v.segments id row
  next : v.next ≤ v'.next
  mapped : ∀ {key : Str} {entry : Entry}, v'.index.map.get key = some entry →
    v.index.map.get key = some entry
  covers : ∀ cover ∈ v'.index.covers, ∃ held ∈ v.index.covers, held.lsn = cover.lsn

theorem Sheds.refl (v : Volume) : Sheds v v :=
  ⟨fun h => h, le_refl _, fun h => h, fun cover hc => ⟨cover, hc, rfl⟩⟩

theorem Sheds.trans {w : Volume} (h : Sheds v v') (h' : Sheds v' w) : Sheds v w := by
  refine ⟨fun hr => h.rows (h'.rows hr), h.next.trans h'.next, fun hg => h.mapped (h'.mapped hg), ?_⟩
  intro cover hc
  obtain ⟨mid, hm, hlsn⟩ := h'.covers cover hc
  obtain ⟨held, hheld, hlsn'⟩ := h.covers mid hm
  exact ⟨held, hheld, hlsn'.trans hlsn⟩

theorem Drawn.shed (h : v.Drawn) (hs : Sheds v v') : v'.Drawn where
  rows := fun hr => (h.rows (hs.rows hr)).trans_le hs.next
  mapped := fun hg => (h.mapped (hs.mapped hg)).trans_le hs.next
  covers := by
    intro cover hc
    obtain ⟨held, hheld, hlsn⟩ := hs.covers cover hc
    exact hlsn ▸ (h.covers held hheld).trans_le hs.next

/-- An index left of another by dropping entries and covers, and moving covers' phases. -/
structure Trims (index index' : ColumnIndex) : Prop where
  mapped : ∀ {key : Str} {entry : Entry}, index'.map.get key = some entry →
    index.map.get key = some entry
  covers : ∀ cover ∈ index'.covers, ∃ held ∈ index.covers, held.lsn = cover.lsn

variable (index : ColumnIndex)

theorem Trims.refl : Trims index index :=
  ⟨fun h => h, fun cover hc => ⟨cover, hc, rfl⟩⟩

theorem Trims.trans {a b c : ColumnIndex} (h : Trims a b) (h' : Trims b c) : Trims a c := by
  refine ⟨fun hg => h.mapped (h'.mapped hg), fun cover hc => ?_⟩
  obtain ⟨mid, hm, hlsn⟩ := h'.covers cover hc
  obtain ⟨held, hheld, hlsn'⟩ := h.covers mid hm
  exact ⟨held, hheld, hlsn'.trans hlsn⟩

theorem Trims.sheds {index : ColumnIndex} (h : Trims v.index index) (spot : SpotColumn)
    (handed : Nat) (held : List Nat) : Sheds v { v with index, spot, handed, held } :=
  ⟨fun h => h, le_refl _, h.mapped, h.covers⟩

theorem trims_keep (p : Str → Entry → Bool) :
    Trims index (index.setMap (index.map.keep p)) := by
  refine ⟨fun {key entry} hg => ?_, fun cover hc => ⟨cover, hc, rfl⟩⟩
  have hg : (index.map.keep p).get key = some entry := hg
  rw [SortedMap.get_keep] at hg
  exact (Option.filter_eq_some_iff.mp hg).1

theorem trims_setPhase (lsn : Nat) (phase : Covered Str → SweepPhase Str) :
    Trims index (index.setPhase lsn phase) := by
  refine ⟨fun h => h, fun cover hc => ?_⟩
  obtain ⟨held, hheld, rfl⟩ := mem_map.mp hc
  refine ⟨held, hheld, ?_⟩
  split <;> rfl

theorem trims_pageOut (key : Str) (loc : Loc) :
    Trims index (index.pageOut key loc).1 := by
  unfold ColumnIndex.pageOut
  split
  · exact trims_keep index _
  · exact Trims.refl index

theorem trims_pageAsked (rows : List (Str × Loc)) (state : ColumnIndex × List Slot) :
    Trims state.1 (rows.foldl (pageAsked hash) state).1 := by
  induction rows generalizing state with
  | nil => exact Trims.refl _
  | cons row rows ih =>
    refine Trims.trans ?_ (ih _)
    simp only [pageAsked]
    split <;> exact trims_pageOut state.1 row.1 row.2

theorem trims_pageOutLane (rows : List (Str × Loc)) (index : ColumnIndex) :
    Trims index (pageOutLane rows index).1 := by
  induction rows generalizing index with
  | nil => exact Trims.refl _
  | cons row rows ih => exact (trims_pageOut index row.1 row.2).trans (ih _)

theorem trims_pageOutPartition (hash : Str → UInt64) (v : Volume) (segment : Segment) :
    Trims v.index (v.pageOutPartition hash segment).index := by
  simp only [Volume.pageOutPartition]
  exact (trims_pageAsked _ (v.index, v.spot.slots)).trans (trims_pageOutLane _ _)

theorem handOver_sheds (v : Volume) : Sheds v (v.handOver hash) := by
  unfold Volume.handOver
  split
  · exact Sheds.refl v
  · split
    · exact (Trims.refl v.index).sheds v.spot v.handed _
    · rename_i held _ _ segment _
      have htrims := trims_pageOutPartition hash { v with held } segment
      exact ⟨fun h => h, le_refl _, htrims.mapped, htrims.covers⟩

theorem releaseRun_sheds (v : Volume) (cover : Covered Str) (resume : Str) (limit : Nat) :
    Sheds v (v.releaseRun hash cover resume limit).1 := by
  unfold Volume.releaseRun
  split <;> exact (trims_setPhase v.index _ _).sheds _ _ _

theorem trims_sweepRun (lsn budget : Nat) :
    Trims index (index.sweepRun lsn budget).1 := by
  simp only [ColumnIndex.sweepRun]
  split
  · split
    · split <;> exact (trims_keep index _).trans (trims_setPhase _ _ _)
    · exact Trims.refl _
  · exact Trims.refl _

theorem sweepLoop_sheds (fuel : Nat) {remaining : Nat} :
    Sheds v (Volume.sweepLoop hash fuel remaining v) := by
  induction fuel generalizing v remaining with
  | zero => exact Sheds.refl v
  | succ fuel ih =>
    unfold Volume.sweepLoop
    split
    · exact Sheds.refl v
    · split
      · exact Sheds.refl v
      · rename_i cover _
        split
        · exact (v.releaseRun_sheds cover _ remaining).trans ih
        · have hrun := trims_sweepRun v.index cover.lsn remaining
          generalize v.index.sweepRun cover.lsn remaining = run at hrun
          obtain ⟨index, examined, done⟩ := run
          simp only
          split
          · exact (hrun.sheds v.spot v.handed v.held).trans ih
          · exact hrun.sheds v.spot v.handed v.held

theorem pruneTombstones_sheds (v : Volume) (cue : Option Nat) : Sheds v (v.pruneTombstones cue) := by
  unfold Volume.pruneTombstones
  simp only
  split
  · exact Sheds.refl v
  · refine Trims.sheds ⟨fun {key entry} hg => ?_, fun cover hc => ?_⟩ v.spot v.handed v.held
    · have hg : (v.index.map.keep _).get key = some entry := hg
      rw [SortedMap.get_keep] at hg
      exact (Option.filter_eq_some_iff.mp hg).1
    · exact ⟨cover, (mem_filter.mp hc).1, rfl⟩

theorem land_back {landed : Volume} {tail : Nat} {row : Row} (h : v.land tail row = some landed) :
    { landed with tails := v.tails } = v ∧ ∀ {id : Nat} {other : Row}, Holds landed.segments id other →
      Holds v.segments id other ∨ other = row := by
  unfold land at h
  split at h
  · cases h
  · split at h
    · cases h
    · cases h
      refine ⟨rfl, ?_⟩
      rintro id other ⟨segment, hs, hid, hrow⟩
      simp only [segments, mem_append, mem_map] at hs
      rcases hs with (⟨held, hheld, rfl⟩ | hs) | hs
      · have hin : held ∈ v.segments := mem_append_left _ (mem_append_left _ hheld)
        by_cases htail : held.id = tail
        · rw [if_pos htail] at hid hrow
          rcases mem_append.mp hrow with hrow | hrow
          · exact .inl ⟨held, hin, hid, hrow⟩
          · exact .inr (mem_singleton.mp hrow)
        · rw [if_neg htail] at hid hrow
          exact .inl ⟨held, hin, hid, hrow⟩
      · exact .inl ⟨segment, mem_append_left _ (mem_append_right _ hs), hid, hrow⟩
      · exact .inl ⟨segment, mem_append_right _ hs, hid, hrow⟩

theorem Drawn.append (h : v.Drawn) {landed : Volume} {tail : Nat} {row : Nat → Row}
    (hl : v.append tail row = some landed) (hlsn : (row v.next).lsn = v.next) :
    landed.Drawn ∧ landed.next = v.next + 1 := by
  obtain ⟨held, hheld, rfl⟩ := Option.map_eq_some_iff.mp hl
  obtain ⟨hrest, hback⟩ := land_back hheld
  have hindex : held.index = v.index := by rw [← hrest]
  refine ⟨⟨?_, ?_, ?_⟩, rfl⟩
  · intro id other hrow
    rcases hback hrow with hold | rfl
    · exact (h.rows hold).trans (Nat.lt_succ_self _)
    · exact hlsn.trans_lt (Nat.lt_succ_self _)
  · intro key entry hg
    rw [hindex] at hg
    exact (h.mapped hg).trans (Nat.lt_succ_self _)
  · intro cover hc
    rw [hindex] at hc
    exact (h.covers cover hc).trans (Nat.lt_succ_self _)

variable {entry : Entry} {key : Str}

theorem Drawn.moved (h : v.Drawn) {index : ColumnIndex}
    (hlt : entry.lsn < v.next)
    (hindex : index = v.index ∨ index = v.index.setMap (v.index.map.put key entry))
    (spot : SpotColumn) : Drawn { v with index, spot } := by
  rcases hindex with rfl | rfl
  · exact ⟨h.rows, h.mapped, h.covers⟩
  · refine ⟨h.rows, fun {other held} hg => ?_, h.covers⟩
    have hg : (v.index.map.put key entry).get other = some held := hg
    rw [SortedMap.get_put] at hg
    split at hg
    · cases hg
      exact hlt
    · exact h.mapped hg

theorem insertUnless_eq (key : Str) (entry : Entry) (shadowed : Bool) :
    (index.insertUnless key entry shadowed).1 = index ∨
      (index.insertUnless key entry shadowed).1 = index.setMap (index.map.put key entry) := by
  unfold ColumnIndex.insertUnless
  repeat' split
  all_goals first | exact .inl rfl | exact .inr rfl

theorem removeUnless_eq (key : Str) (lsn tombstone : Nat) (shadowed : Bool) :
    (index.removeUnless key lsn tombstone shadowed).1 = index ∨
      (index.removeUnless key lsn tombstone shadowed).1 =
        index.setMap (index.map.put key (.graveFrom lsn tombstone)) := by
  unfold ColumnIndex.removeUnless
  repeat' split
  all_goals first | exact .inl rfl | exact .inr rfl

theorem Drawn.insert (h : v.Drawn) (src : Sources) (key : Str) (loc : Loc) {lsn : Nat}
    (hlt : lsn < v.next) : (v.insert src key loc lsn).Drawn := by
  unfold Volume.insert settleDisplaced
  simp only
  have hm := insertUnless_eq v.index key ⟨loc, lsn⟩ (v.isShadowed src key lsn)
  split <;> exact h.moved hlt hm _

theorem Drawn.remove (h : v.Drawn) (src : Sources) (key : Str) {lsn : Nat} (tombstone : Nat)
    (hlt : lsn < v.next) : (v.remove src key lsn tombstone).Drawn := by
  unfold Volume.remove settleDisplaced
  simp only
  have hm := removeUnless_eq v.index key lsn tombstone (v.isShadowed src key lsn)
  split <;> exact h.moved (by simpa using hlt) hm _

theorem Drawn.step (h : v.Drawn) {action : Step} (hstep : v.step hash action = some v') : v'.Drawn := by
  cases action with
  | openTail id =>
    simp only [Volume.step] at hstep
    split at hstep
    · cases hstep
    · cases hstep
      refine h.shed ⟨?_, le_refl _, fun h => h, fun cover hc => ⟨cover, hc, rfl⟩⟩
      rintro j row ⟨segment, hs, hj, hrow⟩
      simp only [segments, mem_append, mem_singleton] at hs
      rcases hs with ((hs | rfl) | hs) | hs
      · exact ⟨segment, mem_append_left _ (mem_append_left _ hs), hj, hrow⟩
      · cases hrow
      · exact ⟨segment, mem_append_left _ (mem_append_right _ hs), hj, hrow⟩
      · exact ⟨segment, mem_append_right _ hs, hj, hrow⟩
  | put tail key offset len cache =>
    obtain ⟨landed, hl, rfl⟩ := Option.map_eq_some_iff.mp hstep
    obtain ⟨hdrawn, hnext⟩ := h.append hl rfl
    exact hdrawn.insert _ _ _ (by omega)
  | delete tail key offset cache =>
    obtain ⟨landed, hl, rfl⟩ := Option.map_eq_some_iff.mp hstep
    obtain ⟨hdrawn, hnext⟩ := h.append hl rfl
    exact hdrawn.remove _ _ _ (by omega)
  | deleteRange tail start fin offset =>
    simp only [Volume.step] at hstep
    split at hstep
    · cases hstep
      exact h
    · obtain ⟨landed, hl, rfl⟩ := Option.map_eq_some_iff.mp hstep
      obtain ⟨hdrawn, hnext⟩ := h.append hl rfl
      refine ⟨hdrawn.rows, hdrawn.mapped, fun cover hc => ?_⟩
      rcases mem_pushCover.mp hc with hc | ⟨-, rfl⟩
      · exact hdrawn.covers cover hc
      · exact hnext ▸ Nat.lt_succ_self _
  | foreign tail =>
    cases hstep
    refine h.shed ⟨?_, Nat.le_succ _, fun h => h, fun cover hc => ⟨cover, hc, rfl⟩⟩
    rintro j row ⟨segment, hs, hj, hrow⟩
    simp only [segments, Volume.foreign, mem_append, mem_map] at hs
    rcases hs with (⟨held, hheld, rfl⟩ | hs) | hs
    · have hin : held ∈ v.segments := mem_append_left _ (mem_append_left _ hheld)
      by_cases htail : held.id = tail
      · rw [if_pos htail] at hj hrow
        exact ⟨held, hin, hj, hrow⟩
      · rw [if_neg htail] at hj hrow
        exact ⟨held, hin, hj, hrow⟩
    · exact ⟨segment, mem_append_left _ (mem_append_right _ hs), hj, hrow⟩
    · exact ⟨segment, mem_append_right _ hs, hj, hrow⟩
  | sealTail tail =>
    cases hstep
    refine h.shed ⟨?_, le_refl _, fun h => h, fun cover hc => ⟨cover, hc, rfl⟩⟩
    rintro j row ⟨segment, hs, hj, hrow⟩
    simp only [segments, Volume.sealTail, mem_append, mem_filter] at hs
    rcases hs with (hs | hs | hs) | hs
    · exact ⟨segment, mem_append_left _ (mem_append_left _ hs.1), hj, hrow⟩
    · exact ⟨segment, mem_append_left _ (mem_append_right _ hs), hj, hrow⟩
    · exact ⟨segment, mem_append_left _ (mem_append_left _ hs.1), hj, hrow⟩
    · exact ⟨segment, mem_append_right _ hs, hj, hrow⟩
  | holdSealed =>
    cases hstep
    refine h.shed ⟨?_, le_refl _, fun h => h, fun cover hc => ⟨cover, hc, rfl⟩⟩
    rintro j row ⟨segment, hs, hj, hrow⟩
    simp only [segments, Volume.holdSealed, mem_append, mem_filter, not_mem_nil,
      or_false] at hs
    rcases hs with hs | hs | hs
    · exact ⟨segment, mem_append_left _ (mem_append_left _ hs), hj, hrow⟩
    · exact ⟨segment, mem_append_right _ hs, hj, hrow⟩
    · exact ⟨segment, mem_append_left _ (mem_append_right _ hs.1), hj, hrow⟩
  | handOver =>
    cases hstep
    exact h.shed v.handOver_sheds
  | sweepCovers budget =>
    cases hstep
    exact h.shed (sweepLoop_sheds budget)
  | pruneTombstones cue =>
    rw [← Option.some.inj hstep]
    exact h.shed (v.pruneTombstones_sheds cue)
  | rebookOwed budget cache =>
    cases hstep
    exact ⟨h.rows, h.mapped, h.covers⟩
  | scrub budget =>
    cases hstep
    exact ⟨h.rows, h.mapped, h.covers⟩
  | spotRead key cache =>
    cases hstep
    unfold Volume.spotRead
    split <;> exact ⟨h.rows, h.mapped, h.covers⟩
  | kick slots =>
    simp only [Volume.step] at hstep
    split at hstep
    · cases hstep
      exact ⟨h.rows, h.mapped, h.covers⟩
    · cases hstep

theorem drawn_start (width : KeyWidth) (next : Nat) : (start width next).Drawn := by
  refine ⟨?_, ?_, ?_⟩
  · rintro id row ⟨segment, hs, -⟩
    cases hs
  · intro key entry hg
    cases hg
  · intro cover hc
    cases hc

theorem drawn_run {width : KeyWidth} {next : Nat} {steps : List Step}
    (hrun : Runs.run (step hash) (start width next) steps = some v) : v.Drawn :=
  Runs.holds_run Drawn (fun _ _ _ h hstep => h.step hstep) (drawn_start width next) hrun

theorem headIn_row {segments : List Segment} {id offset : Nat} {head : Head}
    (h : headIn segments key id offset = .same head) :
    ∃ row, Holds segments id row ∧ row.lsn = head.lsn := by
  unfold headIn at h
  split at h
  · cases h
  · rename_i held hheld
    split at h
    · cases h
    · rename_i row hrow
      split at h
      · cases h
        exact ⟨row, ⟨held, mem_of_find?_eq_some hheld, by simpa using find?_some hheld,
          mem_of_find?_eq_some hrow⟩, rfl⟩
      · cases h

theorem scanHeads_head {records : Records} (p : Nat → Prop)
    (hp : ∀ segment offset head, records.head key segment offset = .same head → p head.lsn)
    (rest : List (Option Nat × Slot)) (best : Option (Head × Slot))
    (hbest : ∀ x ∈ best, p x.1.lsn) {found : Head × Slot}
    (h : SpotColumn.scanHeads records key rest best = .ok (some found)) : p found.1.lsn := by
  induction rest generalizing best with
  | nil =>
    cases h
    exact hbest found rfl
  | cons x rest ih =>
    obtain ⟨ceiling, slot⟩ := x
    unfold SpotColumn.scanHeads at h
    split at h
    · exact ih best hbest h
    · split at h
      · rename_i head hhead
        split at h
        · refine ih _ ?_ h
          rintro y ⟨⟩
          exact hp _ _ _ hhead
        · exact ih best hbest h
      · cases h
      · exact ih best hbest h
      · exact ih best hbest h

theorem entryTries_lsn {src : Sources} (p : Nat → Prop)
    (hp : ∀ segment offset head, src.records.head key segment offset = .same head → p head.lsn)
    (tries : Nat) (spot : SpotColumn)
    (h : SpotColumn.entryTries src key tries spot = .entry (some entry)) : p entry.lsn := by
  induction tries generalizing spot with
  | zero => cases h
  | succ tries ih =>
    unfold SpotColumn.entryTries at h
    split at h
    · rename_i best hscan
      cases best with
      | none => cases h
      | some found =>
        have hfound := scanHeads_head p hp _ none (by simp) hscan
        simp only [SpotColumn.settledOf] at h
        split at h
        · cases h
        · split at h <;> cases h <;> exact hfound
    · exact ih _ h

theorem searchFooters_mem (rest : List Segment) (best : Option (Row × Nat))
    {found : Row × Nat} (h : searchFooters key none rest best = some found) :
    best = some found ∨ ∃ segment ∈ rest, found.1 ∈ segment.rows ∧ segment.id = found.2 := by
  induction rest generalizing best with
  | nil => exact .inl h
  | cons segment rest ih =>
    have hlift : (∃ other ∈ rest, found.1 ∈ other.rows ∧ other.id = found.2) →
        ∃ other ∈ segment :: rest, found.1 ∈ other.rows ∧ other.id = found.2 := by
      rintro ⟨other, ho, hrow⟩
      exact ⟨other, mem_cons_of_mem _ ho, hrow⟩
    unfold searchFooters at h
    split at h
    · exact .inl h
    · split at h
      · exact (ih best h).imp_right hlift
      · rename_i row hfind
        simp only [Option.any_none, Bool.false_eq_true, if_false] at h
        split at h
        · exact (ih best h).imp_right hlift
        · rcases ih _ h with he | hin
          · cases he
            right
            have hmem := mem_of_getLast? hfind
            exact ⟨segment, mem_cons_self,
              (mem_sortByKey _).mp (mem_filter.mp hmem).1, rfl⟩
          · exact .inr (hlift hin)

theorem newestLive_row (h : v.newestLive hash key = some entry) :
    ∃ id row, Holds v.segments id row ∧ row.lsn = entry.lsn := by
  unfold Volume.newestLive at h
  split at h
  · rename_i found hentry
    subst h
    refine entryTries_lsn (fun lsn => ∃ id row, Holds v.segments id row ∧ row.lsn = lsn) ?_ _ _ hentry
    intro segment offset head hhead
    exact ⟨segment, headIn_row hhead⟩
  · obtain ⟨⟨row, id⟩, hsearch, rfl⟩ := Option.map_eq_some_iff.mp h
    rcases searchFooters_mem _ none hsearch with hno | ⟨segment, hs, hrow, hid⟩
    · cases hno
    · have hs' := (mem_filter.mp ((mem_sortByKey _).mp hs)).1
      refine ⟨id, row, ⟨segment, v.noted_subset hs', hid, hrow⟩, ?_⟩
      unfold Row.entry
      split <;> rfl

theorem Drawn.get_lt (h : v.Drawn) (hget : v.get hash key = some entry) :
    entry.lsn < v.next := by
  unfold Volume.get at hget
  split at hget
  · rename_i answer hword
    obtain ⟨held, hheld, hanswer⟩ := Option.map_eq_some_iff.mp hword
    split at hanswer
    · rw [← hanswer] at hget
      cases hget
    · rw [← hanswer] at hget
      cases hget
      unfold ColumnIndex.entryOrGrave at hheld
      split at hheld
      · exact h.mapped hheld
      · cases hheld
  · obtain ⟨hnewest, -⟩ := Option.filter_eq_some_iff.mp hget
    obtain ⟨id, row, hrow, hlsn⟩ := newestLive_row hnewest
    exact hlsn ▸ h.rows hrow

end Volume

end Reel
