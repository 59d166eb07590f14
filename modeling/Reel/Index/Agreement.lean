import Reel.Index.Sweeps
import Reel.Index.Writes
import Reel.Index.HandOver
import Reel.Library.Runs

/-!
A walk and a point read agree after every run of a column's operations, and where they
come apart: a prune that lets a cover go while what it covers is still unnoted, a range
end cut to the column's width, a put under a key the column cannot hold.
-/

set_option autoImplicit false

open List

namespace Reel
open ColumnIndex
open Bytes StableSort

namespace Volume
variable {hash : Str → UInt64} {strict : Bool} {v v' : Volume}

/-- What a step has to meet for a column to stay sound. `strict` asks of a displace that it mark
no other key's slot. -/
def StepSafe (hash : Str → UInt64) (strict : Bool) (v : Volume) : Step → Prop
  | .put _ key _ _ _ => v.index.width.accepts key = true ∧
      (strict = true → v.index.map.get key = none → v.MarksOwn hash key v.next)
  | .delete _ key _ _ => strict = true → v.index.width.accepts key = true →
      v.index.map.get key = none → v.MarksOwn hash key v.next
  | .pruneTombstones cue => v.PruneSafe cue
  | _ => True

variable {action : Step}

theorem Sound.step (h : v.Sound hash strict)
    (hsafe : v.StepSafe hash strict action) (hstep : v.step hash action = some v') :
    v'.Sound hash strict := by
  cases action with
  | openTail id =>
    simp only [Volume.step] at hstep
    split at hstep
    · cases hstep
    · rename_i hid
      cases hstep
      rw [not_or] at hid
      refine h.openTail hid.1 fun segment hs he => hid.2 ?_
      exact any_eq_true.mpr ⟨segment, hs, by simpa using he⟩
  | put tail key offset len cache =>
    obtain ⟨landed, happ, rfl⟩ := Option.map_eq_some_iff.mp hstep
    exact h.put hsafe.1 hsafe.2 happ
  | delete tail key offset cache =>
    obtain ⟨landed, happ, rfl⟩ := Option.map_eq_some_iff.mp hstep
    exact h.delete hsafe happ
  | deleteRange tail start fin offset =>
    simp only [Volume.step] at hstep
    split at hstep
    · cases hstep
      exact h
    · obtain ⟨landed, happ, rfl⟩ := Option.map_eq_some_iff.mp hstep
      exact h.deleteRange happ
  | foreign tail =>
    cases hstep
    exact h.foreign tail
  | sealTail tail =>
    cases hstep
    exact h.sealTail tail
  | holdSealed =>
    cases hstep
    exact h.holdSealed
  | handOver =>
    cases hstep
    exact h.handOver
  | sweepCovers budget =>
    cases hstep
    exact h.sweepCovers budget
  | pruneTombstones cue =>
    rw [← Option.some.inj hstep]
    exact h.pruneTombstones hsafe
  | rebookOwed budget cache =>
    cases hstep
    exact h.rebookOwed cache budget
  | scrub budget =>
    cases hstep
    exact h.scrub budget
  | spotRead key cache =>
    cases hstep
    exact h.spotRead cache key
  | kick slots =>
    simp only [Volume.step] at hstep
    split at hstep
    · rename_i hperm
      cases hstep
      exact h.kick (isPerm_iff.mp hperm)
    · cases hstep

theorem sound_start (hash : Str → UInt64) (strict : Bool) (width : KeyWidth) (next : Nat) :
    (start width next).Sound hash strict := by
  have hnone : ∀ {id : Nat} {row : Row}, ¬ Holds (start width next).segments id row := by
    rintro id row ⟨segment, hs, -⟩
    cases hs
  refine ⟨⟨⟨nodup_nil, ?_, ?_, ?_⟩, fun ha => absurd ha hnone, fun ha => absurd ha hnone⟩,
    ⟨nodup_nil, ?_⟩, fun ha => absurd ha hnone, ?_, fun ha => absurd ha.holds hnone, ?_,
    nodup_nil, ⟨nodup_nil, ?_, ?_, ?_⟩, ?_, ?_⟩
  all_goals first
    | exact fun _ hs => by cases hs
    | exact fun hg => by cases hg

/-- A fixed column's range end is no longer than its keys. -/
def EndFits (width : KeyWidth) (fin : Option Str) : Prop :=
  match width, fin with
  | .fixed width, some fin => fin.length ≤ width
  | _, _ => True

instance : (width : KeyWidth) → (fin : Option Str) → Decidable (EndFits width fin)
  | .fixed width, some fin => inferInstanceAs (Decidable (fin.length ≤ width))
  | .fixed _, none | .varying, _ => inferInstanceAs (Decidable True)

/-- The records, the ranges and what is covered stay as they are. -/
structure SameRanges (v v' : Volume) : Prop where
  segments : v'.segments = v.segments
  ranges : v'.ranges = v.ranges
  next : v'.next = v.next
  covered : ∀ key lsn, isCovered v'.index.covers key lsn = isCovered v.index.covers key lsn

theorem Ranged.same (h : v.Ranged) (hs : SameRanges v v') : v'.Ranged where
  covered := by
    intro range hr id row hrow hdata htakes hlt
    rw [hs.covered]
    exact h.covered range (hs.ranges ▸ hr) (hs.segments ▸ hrow) hdata htakes hlt
  rows := by
    intro id row hrow hkind
    rw [hs.ranges]
    exact h.rows (hs.segments ▸ hrow) hkind
  drawn := by
    rw [hs.ranges, hs.next]
    exact h.drawn

theorem Ranged.relay (h : v.Ranged)
    (hrows : ∀ {id : Nat} {row : Row}, Holds v'.segments id row ↔ Holds v.segments id row)
    (hranges : v'.ranges = v.ranges) (hindex : v'.index = v.index) (hnext : v.next ≤ v'.next) :
    v'.Ranged where
  covered := by
    intro range hr id row hrow hdata htakes hlt
    rw [hindex]
    exact h.covered range (hranges ▸ hr) (hrows.mp hrow) hdata htakes hlt
  rows := by
    intro id row hrow hkind
    rw [hranges]
    exact h.rows (hrows.mp hrow) hkind
  drawn := by
    rw [hranges]
    exact fun range hr => (h.drawn range hr).trans_le hnext

theorem SameRanges.refl (v : Volume) : SameRanges v v := ⟨rfl, rfl, rfl, fun _ _ => rfl⟩

theorem SameRanges.trans {w : Volume} (h : SameRanges v v') (h' : SameRanges v' w) :
    SameRanges v w :=
  ⟨h'.segments.trans h.segments, h'.ranges.trans h.ranges, h'.next.trans h.next,
    fun key lsn => (h'.covered key lsn).trans (h.covered key lsn)⟩

theorem pageOut_covers (index : ColumnIndex) (key : Str) (loc : Loc) :
    (index.pageOut key loc).1.covers = index.covers := by
  unfold pageOut
  split <;> rfl

theorem foldl_pageAsked_covers (rows : List (Str × Loc)) (state : ColumnIndex × List Slot) :
    (rows.foldl (pageAsked hash) state).1.covers = state.1.covers := by
  induction rows generalizing state with
  | nil => rfl
  | cons row rows ih =>
    rw [foldl_cons, ih]
    simp only [pageAsked]
    split <;> exact pageOut_covers _ _ _

theorem pageOutLane_covers (rows : List (Str × Loc)) (index : ColumnIndex) :
    (pageOutLane rows index).1.covers = index.covers := by
  induction rows generalizing index with
  | nil => rfl
  | cons row rows ih =>
    simp only [pageOutLane]
    rw [ih, pageOut_covers]

theorem handOver_same (v : Volume) : SameRanges v (v.handOver hash) := by
  unfold Volume.handOver
  split
  · exact SameRanges.refl v
  · split
    · exact ⟨rfl, rfl, rfl, fun _ _ => rfl⟩
    · refine ⟨rfl, rfl, rfl, fun key lsn => ?_⟩
      simp only [Volume.pageOutPartition, pageOutLane_covers, foldl_pageAsked_covers]

theorem releaseRun_same (v : Volume) (cover : Covered Str) (resume : Str) (limit : Nat) :
    SameRanges v (v.releaseRun hash cover resume limit).1 := by
  unfold Volume.releaseRun
  split <;> exact ⟨rfl, rfl, rfl, isCovered_setPhase _ _ _⟩

theorem sweepRun_same (v : Volume) (lsn budget : Nat) :
    SameRanges v { v with index := (v.index.sweepRun lsn budget).1 } := by
  refine ⟨rfl, rfl, rfl, fun key below => ?_⟩
  simp only [sweepRun]
  split
  · split
    · split <;> exact isCovered_setPhase _ _ _ _ _
    · rfl
  · rfl

theorem sweepLoop_same (fuel : Nat) {remaining : Nat} :
    SameRanges v (Volume.sweepLoop hash fuel remaining v) := by
  induction fuel generalizing v remaining with
  | zero => exact SameRanges.refl v
  | succ fuel ih =>
    unfold Volume.sweepLoop
    split
    · exact SameRanges.refl v
    · split
      · exact SameRanges.refl v
      · rename_i cover _
        split
        · exact (v.releaseRun_same cover _ remaining).trans ih
        · have hrun := v.sweepRun_same cover.lsn remaining
          generalize v.index.sweepRun cover.lsn remaining = run at hrun
          obtain ⟨index, examined, done⟩ := run
          simp only
          split
          · exact hrun.trans ih
          · exact hrun

theorem insert_same (v : Volume) (src : Sources) (key : Str) (loc : Loc) (lsn : Nat) :
    SameRanges v (v.insert src key loc lsn) := by
  have hcovers : ∀ shadowed, (v.index.insertUnless key ⟨loc, lsn⟩ shadowed).1.covers =
      v.index.covers := by
    intro shadowed
    unfold insertUnless
    repeat' split
    all_goals rfl
  unfold Volume.insert settleDisplaced
  simp only
  split <;> exact ⟨rfl, rfl, rfl, fun _ _ => by simp only [hcovers]⟩

theorem remove_same (v : Volume) (src : Sources) (key : Str) (lsn tombstone : Nat) :
    SameRanges v (v.remove src key lsn tombstone) := by
  have hcovers : ∀ shadowed, (v.index.removeUnless key lsn tombstone shadowed).1.covers =
      v.index.covers := by
    intro shadowed
    unfold removeUnless
    repeat' split
    all_goals rfl
  unfold Volume.remove settleDisplaced
  simp only
  split <;> exact ⟨rfl, rfl, rfl, fun _ _ => by simp only [hcovers]⟩

theorem spotRead_same (v : Volume) (cache : Cache) (key : Str) :
    SameRanges v (v.spotRead hash cache key).2 := by
  unfold Volume.spotRead
  split <;> exact ⟨rfl, rfl, rfl, fun _ _ => rfl⟩

theorem Ranged.append (h : v.Ranged) {landed : Volume} {tail : Nat} {row : Row}
    (ha : Appends v tail row landed) (hlsn : row.lsn = v.next) (hpoint : row.kind ≠ .rangeTombstone) :
    landed.Ranged where
  covered := by
    intro range hr id other hrow hdata htakes hlt
    rw [ha.ranges] at hr
    rw [ha.index]
    rcases ha.rows.mp hrow with hrow | ⟨-, rfl⟩
    · exact h.covered range hr hrow hdata htakes hlt
    · have := h.drawn range hr
      omega
  rows := by
    intro id other hrow hkind
    rw [ha.ranges]
    rcases ha.rows.mp hrow with hrow | ⟨-, rfl⟩
    · exact h.rows hrow hkind
    · exact absurd hkind hpoint
  drawn := by
    intro range hr
    rw [ha.ranges] at hr
    rw [ha.next]
    exact (h.drawn range hr).trans (Nat.lt_succ_self _)

theorem le_padTo {fin : Str} {width : Nat} (h : fin.length ≤ width) : fin ≤ padTo width fin := by
  rw [padTo, take_of_length_le h]
  clear h
  generalize replicate (width - fin.length) (0 : Byte) = zeros
  induction fin with
  | nil => exact not_lt.mp (not_lt_nil _)
  | cons b fin ih => exact cons_le_cons.mpr (Or.inr ⟨rfl, ih⟩)

variable {width : KeyWidth} {key : Str}

theorem lowBound_of_accepts (h : width.accepts key = true) :
    width.lowBound key = key := by
  cases width with
  | varying => rfl
  | fixed width =>
    have hlen : key.length = width := by simpa [KeyWidth.accepts] using h
    simp [KeyWidth.lowBound, padTo, ← hlen]

theorem covers_of_takes {start : Str} {fin : Option Str} {lsn below : Nat}
    (hfits : EndFits width fin) (hacc : width.accepts key = true)
    (htakes : (RangeDelete.mk start fin lsn).takes key) (hlt : below < lsn) :
    (Covered.mk (width.lowBound start) (fin.map width.lowBound) lsn
      (.release (width.lowBound start))).covers key below = true := by
  refine (Covered.covers_iff _ _ _).mpr ⟨hlt, ?_, ?_⟩
  · have := width.lowBound_mono htakes.1
    rwa [lowBound_of_accepts hacc] at this
  · intro high hh
    obtain ⟨top, ht, rfl⟩ := Option.map_eq_some_iff.mp hh
    subst ht
    have htop := htakes.2 top rfl
    cases width with
    | varying => exact htop
    | fixed width => exact htop.trans_le (le_padTo hfits)

theorem Ranged.deleteRange (h : v.Ranged) (hs : v.Sound hash strict) {landed : Volume}
    {tail offset : Nat} {start : Str} {fin : Option Str} (hfits : EndFits v.index.width fin)
    (hne : ∀ top ∈ fin, start < top)
    (happ : v.append tail
      (fun lsn => ⟨start, lsn, offset, (fin.getD []).length, .rangeTombstone⟩) = some landed) :
    Ranged
      { landed with
        index := landed.index.removeRange start fin v.next
        ranges := landed.ranges ++ [⟨start, fin, v.next⟩] } := by
  have ha := append_appends hs.laid rfl happ
  have hold : ∀ {id : Nat} {row : Row}, Holds landed.segments id row → row.kind = .data →
      Holds v.segments id row := by
    intro id row hrow hdata
    rcases ha.rows.mp hrow with hrow | ⟨-, rfl⟩
    · exact hrow
    · cases hdata
  constructor
  · intro range hr id row hrow hdata htakes hlt
    have hrow := hold hrow hdata
    simp only [removeRange, ha.index]
    simp only [ha.ranges] at hr
    rcases mem_append.mp hr with hr | hr
    · exact isCovered_pushCover (h.covered range hr hrow hdata htakes hlt)
    · obtain rfl := mem_singleton.mp hr
      rw [hs.pushCover_eq]
      refine (isCovered_iff _ _ _).mpr ⟨_, mem_append_right _ (mem_singleton.mpr rfl), ?_⟩
      exact covers_of_takes hfits (hs.accepted hrow hdata) htakes hlt
  · intro id row hrow hkind
    simp only [ha.ranges]
    rcases ha.rows.mp hrow with hrow | ⟨-, rfl⟩
    · obtain ⟨range, hr, rest⟩ := h.rows hrow hkind
      exact ⟨range, mem_append_left _ hr, rest⟩
    · exact ⟨_, mem_append_right _ (mem_singleton.mpr rfl), ⟨le_refl _, hne⟩, rfl⟩
  · intro range hr
    simp only [ha.ranges] at hr
    simp only [ha.next]
    rcases mem_append.mp hr with hr | hr
    · exact (h.drawn range hr).trans (Nat.lt_succ_self _)
    · rw [mem_singleton.mp hr]
      exact Nat.lt_succ_self _

def RangeSafe (v : Volume) : Step → Prop
  | .deleteRange _ _ fin _ => EndFits v.index.width fin
  | .pruneTombstones cue => v.PruneSafe cue
  | _ => True

theorem Ranged.step (h : v.Ranged) (hs : v.Sound hash strict)
    (hsafe : v.RangeSafe action) (hstep : v.step hash action = some v') : v'.Ranged := by
  cases action with
  | openTail id =>
    simp only [Volume.step] at hstep
    split at hstep
    · cases hstep
    · cases hstep
      exact h.relay openTail_rows rfl rfl (le_refl _)
  | put tail key offset len cache =>
    obtain ⟨landed, happ, rfl⟩ := Option.map_eq_some_iff.mp hstep
    exact (h.append (append_appends hs.laid rfl happ) rfl (by simp)).same (insert_same _ _ _ _ _)
  | delete tail key offset cache =>
    obtain ⟨landed, happ, rfl⟩ := Option.map_eq_some_iff.mp hstep
    exact (h.append (append_appends hs.laid rfl happ) rfl (by simp)).same (remove_same _ _ _ _ _)
  | deleteRange tail start fin offset =>
    simp only [Volume.step] at hstep
    split at hstep
    · cases hstep
      exact h
    · rename_i hne
      obtain ⟨landed, happ, rfl⟩ := Option.map_eq_some_iff.mp hstep
      refine h.deleteRange hs hsafe (fun top ht => ?_) happ
      subst ht
      simpa using hne
  | foreign tail =>
    cases hstep
    exact h.relay foreign_rows rfl rfl (Nat.le_succ _)
  | sealTail tail =>
    cases hstep
    exact h.relay (Holds.perm (v.sealTail_perm tail)) rfl rfl (le_refl _)
  | holdSealed =>
    cases hstep
    exact h.relay holdSealed_rows rfl rfl (le_refl _)
  | handOver =>
    cases hstep
    exact h.same (handOver_same v)
  | sweepCovers budget =>
    cases hstep
    exact h.same (sweepLoop_same budget)
  | pruneTombstones cue =>
    rw [← Option.some.inj hstep, pruneTombstones_eq]
    split
    · exact h
    · refine ⟨?_, h.rows, h.drawn⟩
      intro range hr id row hrow hdata htakes hlt
      exact isCovered_prune hsafe hrow hdata (h.covered range hr hrow hdata htakes hlt)
  | rebookOwed budget cache =>
    cases hstep
    exact h.same ⟨rfl, rfl, rfl, fun _ _ => rfl⟩
  | scrub budget =>
    cases hstep
    exact h.same ⟨rfl, rfl, rfl, fun _ _ => rfl⟩
  | spotRead key cache =>
    cases hstep
    exact h.same (v.spotRead_same cache key)
  | kick slots =>
    simp only [Volume.step] at hstep
    split at hstep
    · cases hstep
      exact h.same ⟨rfl, rfl, rfl, fun _ _ => rfl⟩
    · cases hstep

theorem ranged_start (width : KeyWidth) (next : Nat) : (start width next).Ranged := by
  refine ⟨fun _ hr => ?_, ?_, fun _ hr => ?_⟩
  · cases hr
  · rintro id row ⟨_, hs, -⟩
    cases hs
  · cases hr

/-- A put's key is one the column holds, a range's end is no wider than the column's keys, and a
prune lets go of no cover over a put that is not noted yet. -/
def StepOk (v : Volume) : Step → Prop
  | .put _ key _ _ _ => v.index.width.accepts key = true
  | .deleteRange _ _ fin _ => EndFits v.index.width fin
  | .pruneTombstones cue => v.PruneSafe cue
  | _ => True

instance (v : Volume) : (action : Step) → Decidable (v.StepOk action)
  | .put _ key _ _ _ => inferInstanceAs (Decidable (v.index.width.accepts key = true))
  | .deleteRange _ _ fin _ => inferInstanceAs (Decidable (EndFits v.index.width fin))
  | .pruneTombstones cue => inferInstanceAs (Decidable (v.PruneSafe cue))
  | .openTail _ | .delete .. | .foreign _ | .sealTail _ | .holdSealed | .handOver | .sweepCovers _
  | .rebookOwed .. | .scrub _ | .spotRead .. | .kick _ => inferInstanceAs (Decidable True)

theorem StepOk.stepSafe (h : v.StepOk action) : v.StepSafe hash false action := by
  cases action <;> simp_all [StepOk, StepSafe]

theorem StepOk.rangeSafe (h : v.StepOk action) : v.RangeSafe action := by
  cases action <;> simp_all [StepOk, RangeSafe]

theorem sound_run {next : Nat} {steps : List Step}
    (hok : Runs.Meets (step hash) StepOk (start width next) steps)
    (hrun : Runs.run (step hash) (start width next) steps = some v) :
    v.Sound hash false ∧ v.Ranged :=
  Runs.invariant_run (fun v => v.Sound hash false ∧ v.Ranged)
    (fun _ _ _ h hok hstep => ⟨h.1.step hok.stepSafe hstep, h.2.step h.1 hok.rangeSafe hstep⟩)
    ⟨sound_start hash false width next, ranged_start width next⟩ hok hrun

variable {entry : Entry}

section
variable (h : v.Sound hash strict) (hr : v.Ranged) (hget : v.get hash key = some entry)
include h hr hget

theorem get_put :
    ∃ id row, Holds v.segments id row ∧ row.kind = .data ∧ row.key = key ∧ row.lsn = entry.lsn ∧
      isCovered v.index.covers key row.lsn = false := by
  cases hmap : v.index.map.get key with
  | some held =>
    obtain ⟨hacc, id, row, hnewest, hk, rfl⟩ := h.mapped hmap
    have hword : v.mapped key = some (if (row.resident id).isGrave ||
        v.index.isCoveredKey key (row.resident id).lsn then none else some (row.resident id)) := by
      simp [Volume.mapped, entryOrGrave, hacc, hmap]
    simp only [Volume.get, hword, Row.resident_lsn, isCoveredKey_eq hacc] at hget
    split at hget
    · cases hget
    · rename_i hlive
      cases hget
      rw [Bool.or_eq_true, not_or, Bool.not_eq_true, Bool.not_eq_true] at hlive
      refine ⟨id, row, hnewest.holds, ?_, hk, (row.resident_lsn id).symm, hlive.2⟩
      cases hkind : row.kind with
      | data => rfl
      | tombstone | rangeTombstone => simp [Row.resident, hkind] at hlive
  | none =>
    rw [get_eq_walkAnswer h hr] at hget
    obtain ⟨found, hfound, hwalk, -⟩ := walkAnswer_of_absent h.laid hmap
    rw [hwalk] at hget
    cases found with
    | none => cases hget
    | some found =>
      obtain ⟨row, id⟩ := found
      obtain ⟨hrow, hk, -⟩ := hfound
      have hin := hrow.mono v.noted_subset
      have hid : id ≠ 0 := by
        obtain ⟨segment, hs, rfl, -⟩ := hin
        exact h.laid.ids_pos segment hs
      rw [standing_some hid] at hget
      split at hget
      · rename_i hlive
        cases hget
        have hacc := h.accepted hin hlive.1
        rw [hk] at hacc
        refine ⟨id, row, hin, hlive.1, hk, ?_, ?_⟩
        · simp [Row.entry, hlive.1]
        · simpa [isCoveredKey_eq hacc] using hlive.2
      · cases hget

theorem get_untaken {range : RangeDelete} (hrange : range ∈ v.ranges)
    (htakes : range.takes key) : range.lsn ≤ entry.lsn := by
  obtain ⟨id, row, hrow, hdata, rfl, hlsn, huncovered⟩ := get_put h hr hget
  rw [← hlsn]
  by_contra hlt
  rw [hr.covered range hrange hrow hdata htakes (by omega)] at huncovered
  cases huncovered

end

theorem mem_walkKeys_of_walkAnswer
    (h : v.walkAnswer key = some entry) : key ∈ v.walkKeys := by
  rw [mem_walkKeys]
  unfold walkAnswer at h
  split at h
  · rename_i held hmap
    exact Or.inl ⟨held, SortedMap.mem_entries.mpr hmap⟩
  · cases hrows : v.rowsOf key with
    | nil =>
      rw [hrows] at h
      simp [sealedAnswer, newestRow] at h
    | cons x rest =>
      have hx : x ∈ v.rowsOf key := hrows ▸ mem_cons_self
      obtain ⟨hk, segment, hs, -, hrow⟩ := mem_rowsOf.mp hx
      exact Or.inr ⟨segment, hs, x.2, hrow, hk⟩

/-- After every run of a column's steps that meet `StepOk`, a whole walk under any page limit
delivers exactly what point reads return, and nothing an accepted range delete took. -/
theorem walk_agrees_with_get (hash : Str → UInt64) (width : KeyWidth) (next : Nat)
    (steps : List Step) (v : Volume)
    (hok : Runs.Meets (step hash) StepOk (start width next) steps)
    (hrun : Runs.run (step hash) (start width next) steps = some v) (limit : Nat)
    (hlimit : 1 ≤ limit) :
    ∃ out, v.walk limit = some out ∧
      (∀ key entry, (key, entry) ∈ out ↔ v.get hash key = some entry) ∧
      ∀ range ∈ v.ranges, ∀ x ∈ out, range.takes x.1 → range.lsn ≤ x.2.lsn := by
  obtain ⟨h, hr⟩ := sound_run hok hrun
  have hwalk := walk_eq h.accepting hlimit
  have hagree : ∀ key entry, (key, entry) ∈ v.deliver v.walkKeys ↔ v.get hash key = some entry := by
    intro key entry
    rw [mem_deliver, get_eq_walkAnswer h hr]
    exact ⟨fun hin => hin.2, fun ha => ⟨mem_walkKeys_of_walkAnswer ha, ha⟩⟩
  exact ⟨_, hwalk, hagree, fun range hrange x hx htakes =>
    get_untaken h hr ((hagree x.1 x.2).mp hx) hrange htakes⟩

def rangeDeleted : List Step :=
  [.openTail 1, .put 1 [2, 2] 0 1 .warm, .sealTail 1, .holdSealed, .handOver, .openTail 2,
    .put 2 [3, 3] 0 1 .warm, .deleteRange 2 [2, 2] (some [3, 3]) 1, .sweepCovers 4, .pruneTombstones none]

theorem walk_agrees_after_range_delete :
    ∃ v, Runs.run (step fun _ => 0) (start (.fixed 2) 1) rangeDeleted = some v ∧
      ∃ out, v.walk 1 = some out ∧
        (∀ key entry, (key, entry) ∈ out ↔ v.get (fun _ => 0) key = some entry) ∧
        ∀ range ∈ v.ranges, ∀ x ∈ out, range.takes x.1 → range.lsn ≤ x.2.lsn := by
  refine ⟨_, rfl, walk_agrees_with_get (fun _ => 0) (.fixed 2) 1 rangeDeleted _ ?_ rfl 1 (by decide)⟩
  exact .cons trivial rfl (.cons (by decide) rfl (.cons trivial rfl (.cons trivial rfl
    (.cons trivial rfl (.cons trivial rfl (.cons (by decide) rfl (.cons (by decide) rfl
    (.cons trivial rfl (.cons (by decide) rfl trivial)))))))))

def sweptTail : List Step :=
  [.openTail 1, .openTail 2, .put 1 [2] 0 1 .warm, .deleteRange 2 [1] none 0, .sweepCovers 4,
    .put 2 [9] 1 1 .warm]

def rewrites (first count : Nat) : List Step :=
  (range' first count).map fun i => .put 2 [9] (i + 2) 1 .warm

/-- What stands while the covered put waits in its tail. -/
structure Waiting (n : Nat) (v : Volume) : Prop where
  width : v.index.width = .varying
  covers : v.index.covers = [⟨[1], none, 2, .done⟩]
  map : ∃ entry, v.index.map.entries = [([9], entry)] ∧ entry.isGrave = false ∧ entry.lsn < v.next
  slots : v.spot.slots = []
  tails : ∃ rows top, v.tails = [⟨1, [⟨[2], 1, 0, 1, .data⟩], 1⟩, ⟨2, rows, top⟩] ∧
    ∀ row ∈ rows, row.offset < n + 2
  pending : v.pending = []
  noted : v.noted = []
  next : v.next = n + 4
  ranges : v.ranges = [⟨[1], none, 2⟩]

theorem waiting_swept : ∃ v, Runs.run (step fun _ => 0) (start .varying 1) sweptTail = some v ∧
    v.Waiting 0 := by
  refine ⟨_, rfl, rfl, by decide, ⟨⟨⟨2, 1, 1⟩, 3⟩, by decide, by decide, by decide⟩, by decide,
    ⟨_, _, rfl, by decide⟩, rfl, rfl, rfl, rfl⟩

variable {n : Nat}

theorem Waiting.rewrite (h : v.Waiting n) :
    ∃ v', v.step (fun _ => 0) (.put 2 [9] (n + 2) 1 .warm) = some v' ∧ v'.Waiting (n + 1) := by
  obtain ⟨rows, top, htails, hbelow⟩ := h.tails
  obtain ⟨entry, hmap, hlive, hlt⟩ := h.map
  have hfree : (rows.any fun row => row.offset == n + 2) = false := by
    rw [any_eq_false]
    intro row hrow
    have := hbelow row hrow
    simp
    omega
  have hget : v.index.map.get [9] = some entry := SortedMap.mem_entries.mp (by simp [hmap])
  have hopen : isCovered v.index.covers [9] v.next = false := by
    have := h.next
    simp [isCovered, h.covers, Covered.covers]
    omega
  have hputs : (v.index.map.put [9] ⟨⟨2, n + 2, 1⟩, v.next⟩).entries =
      [([9], ⟨⟨2, n + 2, 1⟩, v.next⟩)] := by
    simp [SortedMap.put, hmap]
  have haccepts : v.index.width.accepts [9] = true := by
    rw [h.width]
    decide
  have hstep : v.step (fun _ => 0) (.put 2 [9] (n + 2) 1 .warm) = some { v with
      index := v.index.setMap (v.index.map.put [9] ⟨⟨2, n + 2, 1⟩, v.next⟩)
      tails := [⟨1, [⟨[2], 1, 0, 1, .data⟩], 1⟩,
        ⟨2, rows ++ [⟨[9], v.next, n + 2, 1, .data⟩], max top v.next⟩]
      next := v.next + 1 } := by
    simp [step, append, land, htails, hfree, insert, insertUnless, haccepts, hopen, hget,
      hlive, Nat.not_le.mpr hlt, settleDisplaced, Landed.mayBePaged, Segment.push]
  refine ⟨_, hstep, h.width, h.covers, ⟨_, hputs, rfl, Nat.lt_succ_self _⟩, h.slots,
    ⟨_, _, rfl, ?_⟩, h.pending, h.noted, by rw [h.next], h.ranges⟩
  intro row hrow
  rcases mem_append.mp hrow with hrow | hrow
  · have := hbelow row hrow
    omega
  · rw [mem_singleton.mp hrow]
    exact Nat.lt_succ_self _

theorem Waiting.rewrites (h : v.Waiting n) (count : Nat) :
    ∃ v', Runs.run (step fun _ => 0) v (rewrites n count) = some v' ∧ v'.Waiting (n + count) := by
  induction count generalizing n v with
  | zero => exact ⟨v, rfl, h⟩
  | succ count ih =>
    obtain ⟨v', hstep, h'⟩ := h.rewrite
    obtain ⟨w, hrun, hw⟩ := ih h'
    refine ⟨w, ?_, by rwa [Nat.add_right_comm] at hw⟩
    rw [Volume.rewrites, range'_succ, map_cons]
    exact Runs.run_cons.mpr ⟨v', hstep, hrun⟩

/-- Once the window has passed, a prune lets the cover go, and the seal brings the covered put back
to walks alone. -/
theorem Waiting.uncovered (h : v.Waiting n) (hwindow : graveWindow ≤ n) :
    ∃ w, Runs.run (step fun _ => 0) v [.pruneTombstones none, .sealTail 1, .holdSealed] = some w ∧
      w.ranges = [⟨[1], none, 2⟩] ∧ w.get (fun _ => 0) [2] = none ∧
      ∀ limit, 1 ≤ limit → ∃ out, w.walk limit = some out ∧ ([2], ⟨⟨1, 0, 1⟩, 1⟩) ∈ out := by
  obtain ⟨rows, top, htails, -⟩ := h.tails
  obtain ⟨entry, hmap, hlive, hlt⟩ := h.map
  have hfloor : 2 ≤ v.pruneFloor none := by
    have := h.next
    simp only [pruneFloor, Option.getD_none]
    omega
  let index := v.index.pruneTombstones (v.pruneFloor none) v.overlaps (v.noted.map Segment.id)
  have hprune : v.pruneTombstones none = { v with index } := by
    rw [pruneTombstones_eq, if_neg (by omega)]
  have hcovers : index.covers = [] := by
    simp [index, ColumnIndex.pruneTombstones, pruneGraves, pruneCovers,
      h.covers, prunable, hfloor, overlaps, h.noted]
  have hentries : index.map.entries = [([9], entry)] := by
    simp [index, ColumnIndex.pruneTombstones, pruneGraves, pruneCovers,
      SortedMap.keep, hmap, buriable, hlive]
  have hmissing : index.map.get [2] = none := by
    simp [SortedMap.get, hentries]
  have hwidth : index.width = .varying := h.width
  have hrun : Runs.run (step fun _ => 0) v [.pruneTombstones none, .sealTail 1, .holdSealed] =
      some { v with
        index
        tails := [⟨2, rows, top⟩]
        noted := [⟨1, [⟨[2], 1, 0, 1, .data⟩], 1⟩]
        held := v.held ++ [1] } := by
    simp [Runs.run, step, hprune, sealTail, holdSealed, htails, h.pending, h.noted]
  refine ⟨_, hrun, h.ranges, ?_, ?_⟩
  · simp [get, mapped, entryOrGrave, hmissing, newestLive, SpotColumn.entry,
      SpotColumn.entryTries, lookupTries, SpotColumn.ordered, SpotColumn.matching, slotMatches,
      h.slots, SpotColumn.scanHeads, SpotColumn.settledOf, liveOnly]
  · intro limit hlimit
    refine ⟨_, walk_eq ⟨?_, ?_⟩ hlimit, mem_deliver.mpr ⟨mem_walkKeys.mpr (Or.inr ?_), ?_⟩⟩
    · intro x hx
      rw [show _ = _ from hentries, mem_singleton] at hx
      rw [hx, show _ = _ from hwidth]
      exact (by decide : KeyWidth.varying.accepts [9] = true)
    · intro segment hs row hrow hdata
      rw [mem_singleton.mp hs, mem_singleton] at hrow
      rw [hrow, show _ = _ from hwidth]
      exact (by decide : KeyWidth.varying.accepts [2] = true)
    · exact ⟨_, mem_singleton.mpr rfl, _, mem_singleton.mpr rfl, rfl⟩
    · simp [walkAnswer, hmissing, sealedAnswer, rowsOf, newestRow, Segment.footerRows,
        sortByKey, isCoveredKey, isCovered, hcovers, Row.entry, Row.loc]

/-- A range delete whose end is one byte wider than the column's keys stands as a cover of nothing,
and its row as a tombstone of its start. -/
def wideEnd : List Step :=
  [.openTail 1, .put 1 [2, 2] 0 1 .warm, .sealTail 1, .holdSealed, .handOver, .openTail 2,
    .deleteRange 2 [2, 2] (some [2, 2, 0]) 0, .sealTail 2, .holdSealed]

def wideKey : List Step :=
  [.openTail 1, .put 1 [2, 2, 2] 0 1 .warm, .sealTail 1, .holdSealed]

/-- A walk delivers a put that a pruned cover took and a point read does not, misses a key beside a
range end cut to the width, and delivers a key no column entry can hold. -/
theorem walk_and_get_come_apart :
    (∃ v, Runs.run (step fun _ => 0) (start .varying 1)
        (sweptTail ++ (rewrites 0 graveWindow ++ [.pruneTombstones none, .sealTail 1, .holdSealed])) =
          some v ∧
      (∃ range ∈ v.ranges, range.takes [2] ∧ 1 < range.lsn) ∧ v.get (fun _ => 0) [2] = none ∧
      ∀ limit, 1 ≤ limit → ∃ out, v.walk limit = some out ∧ ([2], ⟨⟨1, 0, 1⟩, 1⟩) ∈ out) ∧
    (∃ v, Runs.run (step fun _ => 0) (start (.fixed 2) 1) wideEnd = some v ∧
      v.walk 1 = some [] ∧ v.get (fun _ => 0) [2, 2] = some ⟨⟨1, 0, 1⟩, 1⟩) ∧
    ∃ v, Runs.run (step fun _ => 0) (start (.fixed 2) 1) wideKey = some v ∧
      v.walk 1 = some [([2, 2, 2], ⟨⟨1, 0, 1⟩, 1⟩)] ∧ v.get (fun _ => 0) [2, 2, 2] = none := by
  refine ⟨?_, ⟨_, rfl, by decide, by decide⟩, ⟨_, rfl, by decide, by decide⟩⟩
  obtain ⟨swept, hswept, h⟩ := waiting_swept
  obtain ⟨late, hlate, hwaiting⟩ := h.rewrites graveWindow
  obtain ⟨w, hrun, hranges, hget, hwalk⟩ := hwaiting.uncovered (Nat.le_add_left _ _)
  refine ⟨w, ?_, ⟨⟨[1], none, 2⟩, by simp [hranges], ⟨by decide, by simp⟩, by decide⟩, hget, hwalk⟩
  rw [Runs.run_append, hswept, Option.bind_some, Runs.run_append, hlate, Option.bind_some, hrun]

end Volume

end Reel
