import Reel.Index.Column
import Reel.Index.Segments
import Reel.Format.Frame

/-!
The moves of one column's index with their bookings, applied in any order. Which version of a key the
map ends up with, and what each segment counts, depends only on the records that were applied.
-/

set_option autoImplicit false

namespace Reel
open Bytes List Counts

def ColumnIndex.get (index : ColumnIndex) (key : Str) : Option Entry :=
  (index.entryOrGrave key).filter fun entry => !entry.isGrave && !isCovered index.covers key entry.lsn

/-- A committed record of one column. -/
inductive ColumnWrite where
  | put (key : Str) (loc : Loc) (lsn : Nat)
  | delete (key : Str) (loc : Loc) (lsn : Nat)
  | deleteRange (start : Str) (fin : Option Str) (lsn : Nat)
  deriving DecidableEq

namespace ColumnWrite

def lsn : ColumnWrite → Nat
  | put _ _ lsn | delete _ _ lsn | deleteRange _ _ lsn => lsn

def keyed : ColumnWrite → Option (Str × Entry)
  | put key loc lsn => some (key, ⟨loc, lsn⟩)
  | delete key loc lsn => some (key, .graveFrom lsn loc.segment)
  | deleteRange _ _ _ => none

def cover (width : KeyWidth) : ColumnWrite → Option (Covered Str)
  | deleteRange start fin lsn =>
    some ⟨width.lowBound start, fin.map width.lowBound, lsn, .release (width.lowBound start)⟩
  | put _ _ _ | delete _ _ _ => none

def spanAt (width : KeyWidth) (id : Nat) : ColumnWrite → Nat
  | put key loc _ | delete key loc _ =>
    if width.accepts key ∧ loc.segment = id then spanOf key.length loc.len else 0
  | deleteRange _ _ _ => 0

def heldAt (width : KeyWidth) (id : Nat) : ColumnWrite → Nat
  | delete key loc lsn => (delete key loc lsn).spanAt width id
  | put _ _ _ | deleteRange _ _ _ => 0

end ColumnWrite

structure WidthIndex where
  column : ColumnIndex
  segments : SegmentTable

/-- One move of a batch. -/
structure KeyMove where
  key : Str
  loc : Loc
  lsn : Nat
  isDelete : Bool

namespace WidthIndex

def fresh (width : KeyWidth) : WidthIndex := ⟨⟨width, .empty, [], 0⟩, .empty⟩

variable (s : WidthIndex) (key : Str)

def shadowHeld : SegmentTable :=
  match s.column.map.get key with
  | some existing =>
    if existing.isGrave then s.segments
    else s.segments.shadow existing.loc.segment (spanOf key.length existing.loc.len)
  | none => s.segments

def insert (loc : Loc) (lsn : Nat) : WidthIndex :=
  if !s.column.width.accepts key then s
  else
    match s.column.insertUnless key ⟨loc, lsn⟩ false with
    | (_, .newer) => { s with segments := s.segments.markDead loc.segment (spanOf key.length loc.len) }
    | (column, _) => ⟨column, (s.shadowHeld key).markLive loc.segment (spanOf key.length loc.len)⟩

/-- Drop a key on a tombstone, which holds space in its segment whatever it does to the key. -/
def remove (loc : Loc) (lsn : Nat) : WidthIndex :=
  if !s.column.width.accepts key then s
  else
    let booked : WidthIndex :=
      { s with segments := s.segments.markHeld loc.segment lsn (spanOf key.length loc.len) }
    match s.column.removeUnless key lsn loc.segment false with
    | (column, .newer) => { booked with column }
    | (column, _) => ⟨column, booked.shadowHeld key⟩

def removeRange (s : WidthIndex) (start : Str) (fin : Option Str) (lsn : Nat) : WidthIndex :=
  { s with column := s.column.removeRange start fin lsn }

def applyMoves (moves : List KeyMove) : WidthIndex :=
  moves.foldl (fun s m => if m.isDelete then s.remove m.key m.loc m.lsn else s.insert m.key m.loc m.lsn) s

inductive Call where
  | insert (key : Str) (loc : Loc) (lsn : Nat)
  | remove (key : Str) (loc : Loc) (lsn : Nat)
  | removeRange (start : Str) (fin : Option Str) (lsn : Nat)
  | applyMoves (moves : List KeyMove)

def call : Call → WidthIndex
  | .insert key loc lsn => s.insert key loc lsn
  | .remove key loc lsn => s.remove key loc lsn
  | .removeRange start fin lsn => s.removeRange start fin lsn
  | .applyMoves moves => s.applyMoves moves

def run (width : KeyWidth) (calls : List Call) : WidthIndex := calls.foldl call (fresh width)

def Call.writes : Call → List ColumnWrite
  | .insert key loc lsn => [.put key loc lsn]
  | .remove key loc lsn => [.delete key loc lsn]
  | .removeRange start fin lsn => [.deleteRange start fin lsn]
  | .applyMoves moves =>
    moves.map fun m => if m.isDelete then .delete m.key m.loc m.lsn else .put m.key m.loc m.lsn

def write : ColumnWrite → WidthIndex
  | .put key loc lsn => s.insert key loc lsn
  | .delete key loc lsn => s.remove key loc lsn
  | .deleteRange start fin lsn => s.removeRange start fin lsn

theorem call_eq (c : Call) : s.call c = c.writes.foldl write s := by
  cases c with
  | applyMoves moves =>
    simp only [call, applyMoves, Call.writes, foldl_map]
    congr 1
    funext s m
    cases m.isDelete <;> rfl
  | _ => rfl

/-- Batch cuts make no difference: a run applies its records one after another. -/
theorem run_eq (width : KeyWidth) (calls : List Call) :
    run width calls = (calls.flatMap Call.writes).foldl write (fresh width) := by
  rw [flatMap, foldl_flatten, foldl_map, run]
  congr 1
  funext s c
  exact call_eq s c

variable {s : WidthIndex} {loc : Loc}

section
variable {key : Str} {lsn : Nat} (h : s.column.width.accepts key = true)
include h

/-- A point write is refused by a cover or an entry at least as new, or replaces an older entry. -/
theorem insert_cases :
    (s.insert key loc lsn = ⟨s.column, s.segments.markDead loc.segment (spanOf key.length loc.len)⟩ ∧
      (isCovered s.column.covers key lsn = true ∨ ∃ held, s.column.map.get key = some held ∧ lsn ≤ held.lsn)) ∨
    (s.insert key loc lsn = ⟨s.column.setMap (s.column.map.put key ⟨loc, lsn⟩),
        (s.shadowHeld key).markLive loc.segment (spanOf key.length loc.len)⟩ ∧
      ∀ held, s.column.map.get key = some held → held.lsn < lsn) := by
  unfold insert ColumnIndex.insertUnless
  simp only [h, Bool.not_true, Bool.false_eq_true, if_false]
  by_cases hcovered : isCovered s.column.covers key lsn = true
  · rw [if_pos hcovered]
    exact .inl ⟨rfl, .inl hcovered⟩
  · rw [if_neg hcovered]
    cases hget : s.column.map.get key with
    | none => exact .inr ⟨rfl, nofun⟩
    | some held =>
      by_cases hle : lsn ≤ held.lsn
      · refine .inl ⟨?_, .inr ⟨held, rfl, hle⟩⟩
        simp [hle]
      · refine .inr ⟨?_, ?_⟩
        · cases hgrave : held.isGrave <;> simp [hle, hgrave]
        · rintro _ ⟨rfl⟩
          omega

theorem remove_cases (hne : ∀ held, s.column.map.get key = some held → held.lsn ≠ lsn) :
    (s.remove key loc lsn = ⟨s.column, s.segments.markHeld loc.segment lsn (spanOf key.length loc.len)⟩ ∧
      ∃ held, s.column.map.get key = some held ∧ lsn ≤ held.lsn) ∨
    (s.remove key loc lsn = ⟨s.column.setMap (s.column.map.put key (.graveFrom lsn loc.segment)),
        WidthIndex.shadowHeld { s with
          segments := s.segments.markHeld loc.segment lsn (spanOf key.length loc.len) } key⟩ ∧
      ∀ held, s.column.map.get key = some held → held.lsn < lsn) := by
  unfold remove ColumnIndex.removeUnless
  simp only [h, Bool.not_true, Bool.false_eq_true, if_false]
  cases hget : s.column.map.get key with
  | none => exact .inr ⟨rfl, nofun⟩
  | some held =>
    have hlsn := hne held hget
    by_cases hle : lsn ≤ held.lsn
    · refine .inl ⟨?_, held, rfl, hle⟩
      simp [hle, hlsn]
    · refine .inr ⟨?_, ?_⟩
      · cases hgrave : held.isGrave <;> simp [hle, hgrave]
      · rintro _ ⟨rfl⟩
        omega

end

/-- The map after some writes: each entry is one of them, and each is covered or no newer than its key's. -/
structure Holds (width : KeyWidth) (ws : List ColumnWrite) (column : ColumnIndex) : Prop where
  width_eq : column.width = width
  covers : ∀ cover, cover ∈ column.covers ↔ ∃ w ∈ ws, w.cover width = some cover
  source : ∀ key held, column.map.get key = some held →
    width.accepts key = true ∧ ∃ w ∈ ws, w.keyed = some (key, held)
  above : ∀ w ∈ ws, ∀ key entry, w.keyed = some (key, entry) → width.accepts key = true →
    isCovered column.covers key entry.lsn = true ∨ ∃ held, column.map.get key = some held ∧ entry.lsn ≤ held.lsn

theorem keyed_lsn {w : ColumnWrite} {key : Str} {entry : Entry} (h : w.keyed = some (key, entry)) :
    entry.lsn = w.lsn := by
  cases w <;> cases h <;> rfl

theorem cover_of_keyed {w : ColumnWrite} {key : Str} {entry : Entry} (width : KeyWidth)
    (h : w.keyed = some (key, entry)) : w.cover width = none := by
  cases w <;> cases h <;> rfl

theorem exists_mem_snoc {p : ColumnWrite → Prop} (ws : List ColumnWrite) (w : ColumnWrite) :
    (∃ w' ∈ ws ++ [w], p w') ↔ (∃ w' ∈ ws, p w') ∨ p w := by
  simp [or_and_right, exists_or]

variable {width : KeyWidth} {ws : List ColumnWrite} {w : ColumnWrite} {key : Str} {entry : Entry}
  {column column' : ColumnIndex}

/-- A point write that is refused, or that replaces what is older. -/
theorem Holds.point (h : Holds width ws column) (hkeyed : w.keyed = some (key, entry))
    (hcase : column' = column ∧ (width.accepts key = true → isCovered column.covers key entry.lsn = true ∨
        ∃ held, column.map.get key = some held ∧ entry.lsn ≤ held.lsn) ∨
      column' = column.setMap (column.map.put key entry) ∧ width.accepts key = true ∧
        ∀ held, column.map.get key = some held → held.lsn < entry.lsn) :
    Holds width (ws ++ [w]) column' := by
  have hcovers : ∀ cover, cover ∈ column.covers ↔ ∃ w' ∈ ws ++ [w], w'.cover width = some cover := by
    intro cover
    rw [h.covers, exists_mem_snoc, cover_of_keyed width hkeyed]
    simp
  rcases hcase with ⟨rfl, hrefused⟩ | ⟨rfl, haccepts, hnew⟩
  · refine ⟨h.width_eq, hcovers, fun k held hk => ?_, fun w' hw' k e hke => ?_⟩
    · obtain ⟨ha, hw⟩ := h.source k held hk
      exact ⟨ha, (exists_mem_snoc ws w).mpr (.inl hw)⟩
    · rcases mem_append.mp hw' with hw' | hw'
      · exact h.above w' hw' k e hke
      · rw [mem_singleton.mp hw', hkeyed] at hke
        cases hke
        exact hrefused
  · have hget := SortedMap.get_put column.map key entry
    refine ⟨h.width_eq, hcovers, fun k held hk => ?_, fun w' hw' k e hke ha => ?_⟩
    · rw [ColumnIndex.setMap, hget] at hk
      split_ifs at hk with hkey
      · cases hk
        exact ⟨hkey ▸ haccepts, (exists_mem_snoc ws w).mpr (.inr (hkey ▸ hkeyed))⟩
      · obtain ⟨ha, hw⟩ := h.source k held hk
        exact ⟨ha, (exists_mem_snoc ws w).mpr (.inl hw)⟩
    · simp only [ColumnIndex.setMap, hget]
      by_cases hkey : k = key
      · subst hkey
        rw [if_pos rfl]
        rcases mem_append.mp hw' with hw' | hw'
        · refine (h.above w' hw' k e hke ha).imp_right fun ⟨held, hheld, hle⟩ => ⟨entry, rfl, ?_⟩
          exact hle.trans (hnew held hheld).le
        · rw [mem_singleton.mp hw', hkeyed] at hke
          cases hke
          exact .inr ⟨entry, rfl, le_rfl⟩
      · rw [if_neg hkey]
        rcases mem_append.mp hw' with hw' | hw'
        · exact h.above w' hw' k e hke ha
        · rw [mem_singleton.mp hw', hkeyed] at hke
          cases hke
          exact absurd rfl hkey

theorem Holds.range (h : Holds width ws column) (hnew : ∀ w' ∈ ws, w'.lsn ≠ w.lsn) {start : Str}
    {fin : Option Str} {lsn : Nat} (hw : w = .deleteRange start fin lsn) :
    Holds width (ws ++ [w]) (column.removeRange start fin lsn) := by
  subst hw
  have hmem : ∀ cover, cover ∈ (column.removeRange start fin lsn).covers ↔
      cover ∈ column.covers ∨ (ColumnWrite.deleteRange start fin lsn).cover width = some cover := by
    intro cover
    rw [ColumnIndex.removeRange, mem_pushCover, h.width_eq]
    refine or_congr_right ?_
    simp only [ColumnWrite.cover, Option.some.injEq, @eq_comm _ cover]
    refine and_iff_right fun held hheld heq => ?_
    obtain ⟨w', hw', hcover⟩ := (h.covers held).mp hheld
    refine hnew w' hw' (Eq.trans ?_ heq)
    cases w' <;> cases hcover
    rfl
  refine ⟨h.width_eq, fun cover => ?_, fun k held hk => ?_, fun w' hw' k e hke ha => ?_⟩
  · rw [hmem, h.covers, exists_mem_snoc]
  · obtain ⟨ha, hw⟩ := h.source k held hk
    exact ⟨ha, (exists_mem_snoc ws _).mpr (.inl hw)⟩
  · rcases mem_append.mp hw' with hw' | hw'
    · refine (h.above w' hw' k e hke ha).imp_left fun hcov => ?_
      obtain ⟨cover, hin, hc⟩ := (isCovered_iff _ _ _).mp hcov
      exact (isCovered_iff _ _ _).mpr ⟨cover, (hmem cover).mpr (.inl hin), hc⟩
    · rw [mem_singleton.mp hw'] at hke
      cases hke

theorem Holds.lsn_ne (h : Holds width ws column) {lsn : Nat} (hnew : ∀ w ∈ ws, w.lsn ≠ lsn) (held : Entry)
    (hget : column.map.get key = some held) : held.lsn ≠ lsn := by
  obtain ⟨-, w, hw, hkeyed⟩ := h.source key held hget
  rw [keyed_lsn hkeyed]
  exact hnew w hw

theorem Holds.write (h : Holds width ws s.column) (hnew : ∀ w' ∈ ws, w'.lsn ≠ w.lsn) :
    Holds width (ws ++ [w]) (s.write w).column := by
  cases w with
  | put k loc lsn =>
    by_cases ha : width.accepts k = true
    · refine h.point rfl ?_
      rcases insert_cases (h.width_eq.symm ▸ ha) with ⟨heq, hrefused⟩ | ⟨heq, hlt⟩
      · exact .inl ⟨by rw [WidthIndex.write, heq], fun _ => hrefused⟩
      · exact .inr ⟨by rw [WidthIndex.write, heq], ha, hlt⟩
    · refine h.point rfl (.inl ⟨?_, fun ha' => absurd ha' ha⟩)
      simp [WidthIndex.write, insert, h.width_eq, ha]
  | delete k loc lsn =>
    by_cases ha : width.accepts k = true
    · refine h.point rfl ?_
      have hne : ∀ held, s.column.map.get k = some held → held.lsn ≠ lsn := h.lsn_ne hnew
      rcases remove_cases (h.width_eq.symm ▸ ha) hne with ⟨heq, hrefused⟩ | ⟨heq, hlt⟩
      · exact .inl ⟨by rw [WidthIndex.write, heq], fun _ => .inr hrefused⟩
      · exact .inr ⟨by rw [WidthIndex.write, heq], ha, hlt⟩
    · refine h.point rfl (.inl ⟨?_, fun ha' => absurd ha' ha⟩)
      simp [WidthIndex.write, remove, h.width_eq, ha]
  | deleteRange start fin lsn => exact h.range hnew rfl

theorem holds_writes (hlsns : (ws.map ColumnWrite.lsn).Nodup) :
    Holds width ws (ws.foldl WidthIndex.write (fresh width)).column := by
  induction ws using reverseRecOn with
  | nil => exact ⟨rfl, by simp [fresh], by simp [fresh], by simp⟩
  | append_singleton ws w ih =>
    rw [map_append, nodup_append] at hlsns
    rw [foldl_append]
    refine (ih hlsns.1).write fun w' hw' heq => ?_
    exact hlsns.2.2 _ (mem_map_of_mem hw') _ (by simp) heq

/-- What `get` answers: the record of the key with the highest number, unless a tombstone of the key or a
range tombstone over it has a higher one. -/
def Newest (width : KeyWidth) (ws : List ColumnWrite) (key : Str) (entry : Entry) : Prop :=
  width.accepts key = true ∧ .put key entry.loc entry.lsn ∈ ws ∧
    (∀ loc lsn, .put key loc lsn ∈ ws → lsn ≤ entry.lsn) ∧ (∀ loc lsn, .delete key loc lsn ∈ ws → lsn ≤ entry.lsn) ∧
    ∀ w ∈ ws, ∀ cover, w.cover width = some cover → cover.covers key entry.lsn = false

theorem Holds.get_iff (h : Holds width ws column) (hlsns : (ws.map ColumnWrite.lsn).Nodup)
    (hstored : ∀ key loc lsn, .put key loc lsn ∈ ws → loc.segment ≠ 0) :
    column.get key = some entry ↔ Newest width ws key entry := by
  have hcovered : isCovered column.covers key entry.lsn = false ↔
      ∀ w ∈ ws, ∀ cover, w.cover width = some cover → cover.covers key entry.lsn = false := by
    rw [Bool.eq_false_iff, Ne, isCovered_iff]
    simp only [h.covers, not_exists, not_and, Bool.not_eq_true]
    exact ⟨fun hall w hw cover hc => hall cover ⟨w, hw, hc⟩, fun hall cover ⟨w, hw, hc⟩ => hall w hw cover hc⟩
  have hget : column.get key = some entry ↔ width.accepts key = true ∧ column.map.get key = some entry ∧
      entry.isGrave = false ∧ isCovered column.covers key entry.lsn = false := by
    rw [ColumnIndex.get, ColumnIndex.entryOrGrave, h.width_eq, Option.filter_eq_some_iff]
    split_ifs with ha <;> simp [ha]
  rw [hget, hcovered, Newest]
  refine and_congr_right fun ha => ⟨?_, ?_⟩
  · rintro ⟨hheld, hgrave, hfree⟩
    obtain ⟨-, w, hw, hkeyed⟩ := h.source key entry hheld
    have hmax : ∀ w' ∈ ws, ∀ e, w'.keyed = some (key, e) → e.lsn ≤ entry.lsn := by
      intro w' hw' e hke
      rcases h.above w' hw' key e hke ha with hcov | ⟨held, hh, hle⟩
      · obtain ⟨cover, hin, hc⟩ := (isCovered_iff _ _ _).mp hcov
        obtain ⟨r, hr, hcover⟩ := (h.covers cover).mp hin
        have hnot := hfree r hr cover hcover
        rw [Covered.covers_iff] at hc
        by_contra hlt
        have hyes := (cover.covers_iff key entry.lsn).mpr ⟨by omega, hc.2⟩
        rw [hnot] at hyes
        cases hyes
      · rw [hheld] at hh
        cases hh
        exact hle
    refine ⟨?_, fun loc lsn hput => hmax _ hput ⟨loc, lsn⟩ rfl,
      fun loc lsn hdel => hmax _ hdel (.graveFrom lsn loc.segment) rfl, hfree⟩
    cases w with
    | put k loc lsn =>
      cases hkeyed
      exact hw
    | delete k loc lsn =>
      cases hkeyed
      cases hgrave
    | deleteRange start fin lsn => cases hkeyed
  · rintro ⟨hput, hputs, hdels, hfree⟩
    have hkeyed : (ColumnWrite.put key entry.loc entry.lsn).keyed = some (key, entry) := rfl
    have hgrave : entry.isGrave = false := by
      simpa [Entry.isGrave] using hstored _ _ _ hput
    refine ⟨?_, hgrave, hfree⟩
    rcases h.above _ hput key entry hkeyed ha with hcov | ⟨held, hheld, hle⟩
    · rw [hcovered.mpr hfree] at hcov
      cases hcov
    · obtain ⟨-, w, hw, hkey⟩ := h.source key held hheld
      have hsame : w.lsn = entry.lsn := by
        refine le_antisymm ?_ ((keyed_lsn hkey) ▸ hle)
        cases w with
        | put k loc lsn =>
          cases hkey
          exact hputs _ _ hw
        | delete k loc lsn =>
          cases hkey
          exact hdels _ _ hw
        | deleteRange start fin lsn => cases hkey
      have heq : w = .put key entry.loc entry.lsn := inj_on_of_nodup_map hlsns hw hput hsame
      rw [heq, hkeyed] at hkey
      rw [hheld]
      cases hkey
      rfl

def weight (id : Nat) (e : Str × Entry) : Nat :=
  if e.2.isGrave = false ∧ e.2.loc.segment = id then spanOf e.1.length e.2.loc.len else 0

def mappedAt (column : ColumnIndex) (id : Nat) : Nat :=
  (column.map.entries.map (weight id)).sum

/-- The counters after some writes: each segment's bytes are those of its writes, and the records the map
holds are among the live ones. -/
structure Balanced (width : KeyWidth) (low : Nat) (ws : List ColumnWrite) (s : WidthIndex) : Prop where
  opens : s.segments.window.Open low
  within : ∀ id, low ≤ id / chunkRows → id / chunkRows < low + maxWindow / chunkRows → s.segments.window.Within low id
  total : ∀ id, (s.segments.bytesOf id).total = (ws.map (ColumnWrite.spanAt width id)).sum
  held : ∀ id, (s.segments.bytesOf id).held = (ws.map (ColumnWrite.heldAt width id)).sum
  mapped : ∀ id, mappedAt s.column id ≤ (s.segments.bytesOf id).live

def Near (low : Nat) : ColumnWrite → Prop
  | .put _ loc _ | .delete _ loc _ =>
    low ≤ loc.segment / chunkRows ∧ loc.segment / chunkRows < low + maxWindow / chunkRows
  | .deleteRange _ _ _ => True

theorem mappedAt_put (column : ColumnIndex) (key : Str) (entry : Entry) (id : Nat) :
    mappedAt (column.setMap (column.map.put key entry)) id =
      weight id (key, entry) + ((column.map.take key).entries.map (weight id)).sum :=
  SortedMap.sum_put column.map key entry (weight id)

variable {low : Nat}

/-- Booking a held record dead moves its bytes, which the live count has. -/
theorem shadowHeld_spec (key : Str) (hopen : s.segments.window.Open low)
    (hmapped : ∀ id, mappedAt s.column id ≤ (s.segments.bytesOf id).live) :
    (s.shadowHeld key).window.Open low ∧
      (∀ id, s.segments.window.Within low id → (s.shadowHeld key).window.Within low id) ∧
      ∀ id, ∃ old, old + ((s.column.map.take key).entries.map (weight id)).sum = mappedAt s.column id ∧
        (s.shadowHeld key).bytesOf id = (s.segments.bytesOf id).shadow old := by
  have hnone : ∀ id, (s.segments.bytesOf id).shadow 0 = s.segments.bytesOf id := fun _ => rfl
  have hsame : (∀ id, mappedAt s.column id = ((s.column.map.take key).entries.map (weight id)).sum) →
      ∀ id, ∃ old, old + ((s.column.map.take key).entries.map (weight id)).sum = mappedAt s.column id ∧
        s.segments.bytesOf id = (s.segments.bytesOf id).shadow old :=
    fun hsum id => ⟨0, by rw [Nat.zero_add, hsum id], (hnone id).symm⟩
  cases hget : s.column.map.get key with
  | none =>
    have heq : s.shadowHeld key = s.segments := by simp [shadowHeld, hget]
    rw [heq]
    exact ⟨hopen, fun _ h => h, hsame fun id => SortedMap.sum_of_none hget (weight id)⟩
  | some existing =>
    have hsum : ∀ id, weight id (key, existing) + ((s.column.map.take key).entries.map (weight id)).sum =
        mappedAt s.column id := fun id => (SortedMap.sum_of_some hget (weight id)).symm
    cases hgrave : existing.isGrave with
    | true =>
      have heq : s.shadowHeld key = s.segments := by simp [shadowHeld, hget, hgrave]
      rw [heq]
      refine ⟨hopen, fun _ h => h, hsame fun id => ?_⟩
      rw [← hsum id]
      simp [weight, hgrave]
    | false =>
      have hweight : weight existing.loc.segment (key, existing) = spanOf key.length existing.loc.len := by
        simp [weight, hgrave]
      have hlive : spanOf key.length existing.loc.len ≤ (s.segments.bytesOf existing.loc.segment).live := by
        have hle := hmapped existing.loc.segment
        rw [← hsum, hweight] at hle
        omega
      have htakes := SegmentTable.takes_shadow existing.loc.segment _ hopen hlive
      have heq : s.shadowHeld key = s.segments.shadow existing.loc.segment (spanOf key.length existing.loc.len) := by
        simp [shadowHeld, hget, hgrave]
      rw [heq]
      refine ⟨htakes.opens, htakes.within, fun id => ⟨weight id (key, existing), hsum id, ?_⟩⟩
      rw [htakes.bytes]
      by_cases hid : id = existing.loc.segment
      · subst hid
        rw [if_pos rfl, hweight]
      · rw [if_neg hid, weight, if_neg fun h => hid h.2.symm, hnone]

theorem Balanced.step {s' : WidthIndex} (h : Balanced width low ws s)
    (hopen : s'.segments.window.Open low)
    (hwithin : ∀ id, s.segments.window.Within low id → s'.segments.window.Within low id)
    (hbytes : ∀ id, (s'.segments.bytesOf id).total = (s.segments.bytesOf id).total + w.spanAt width id ∧
      (s'.segments.bytesOf id).held = (s.segments.bytesOf id).held + w.heldAt width id ∧
      mappedAt s'.column id ≤ (s'.segments.bytesOf id).live) : Balanced width low (ws ++ [w]) s' := by
  refine ⟨hopen, fun id hlow hhigh => hwithin id (h.within id hlow hhigh), fun id => ?_, fun id => ?_,
    fun id => (hbytes id).2.2⟩
  · rw [(hbytes id).1, h.total]
    simp
  · rw [(hbytes id).2.1, h.held]
    simp

theorem Balanced.skip {s' : WidthIndex} (h : Balanced width low ws s)
    (hspan : ∀ id, w.spanAt width id = 0 ∧ w.heldAt width id = 0) (hmap : s'.column.map = s.column.map)
    (heq : s'.segments = s.segments) : Balanced width low (ws ++ [w]) s' := by
  refine h.step (heq.symm ▸ h.opens) (fun id hin => heq.symm ▸ hin) fun id => ?_
  rw [heq, (hspan id).1, (hspan id).2, mappedAt, hmap]
  exact ⟨rfl, rfl, h.mapped id⟩

theorem spanAt_put (ha : width.accepts key = true) (loc : Loc) (lsn id : Nat) :
    (ColumnWrite.put key loc lsn).spanAt width id = if id = loc.segment then spanOf key.length loc.len else 0 := by
  simp [ColumnWrite.spanAt, ha, eq_comm]

section
variable (h : Balanced width low ws s) (hwidth : s.column.width = width)
  (ha : width.accepts key = true)
include h hwidth ha

theorem Balanced.insert (lsn : Nat) (hnear : Near low (.put key loc lsn))
    (hstored : loc.segment ≠ 0) : Balanced width low (ws ++ [.put key loc lsn]) (s.insert key loc lsn) := by
  have hin := h.within loc.segment hnear.1 hnear.2
  have hspan := spanAt_put ha loc lsn
  rcases insert_cases (hwidth.symm ▸ ha) with ⟨heq, -⟩ | ⟨heq, -⟩
  · have htakes := (SegmentTable.opened_within h.opens hin (·.addDead (spanOf key.length loc.len))).1
    rw [heq]
    refine h.step htakes.opens htakes.within fun id => ?_
    have hm := h.mapped id
    rw [SegmentTable.markDead, htakes.bytes, hspan, ColumnWrite.heldAt]
    split_ifs with hid
    · subst hid
      exact ⟨(Nat.add_assoc _ _ _).symm, rfl, hm⟩
    · exact ⟨rfl, rfl, hm⟩
  · obtain ⟨hopen, hwithin, hbytes⟩ := shadowHeld_spec key h.opens h.mapped
    have htakes := (SegmentTable.opened_within hopen (hwithin _ hin) (·.addLive (spanOf key.length loc.len))).1
    rw [heq]
    refine h.step htakes.opens (fun id hid => htakes.within id (hwithin id hid)) fun id => ?_
    obtain ⟨old, hold, hb⟩ := hbytes id
    have hm := h.mapped id
    have hweight : weight id (key, ⟨loc, lsn⟩) = if id = loc.segment then spanOf key.length loc.len else 0 := by
      have hgrave : (⟨loc, lsn⟩ : Entry).isGrave = false := by simpa [Entry.isGrave] using hstored
      simp [weight, hgrave, eq_comm]
    rw [mappedAt_put, SegmentTable.markLive, htakes.bytes, hspan, hweight, ColumnWrite.heldAt]
    split_ifs with hid
    · subst hid
      rw [hb]
      dsimp only [Counts.total, addLive, shadow, dropLive, addDead]
      omega
    · rw [hb]
      dsimp only [Counts.total, shadow, dropLive, addDead]
      omega

theorem Balanced.remove {lsn : Nat} (hnear : Near low (.delete key loc lsn))
    (hne : ∀ held, s.column.map.get key = some held → held.lsn ≠ lsn) :
    Balanced width low (ws ++ [.delete key loc lsn]) (s.remove key loc lsn) := by
  have hspan : ∀ id, (ColumnWrite.delete key loc lsn).spanAt width id = _ := spanAt_put ha loc lsn
  have htakes := (SegmentTable.opened_within h.opens (h.within loc.segment hnear.1 hnear.2)
    (·.addHeld lsn (spanOf key.length loc.len))).1
  have hheld : Balanced width low (ws ++ [.delete key loc lsn])
      { s with segments := s.segments.markHeld loc.segment lsn (spanOf key.length loc.len) } := by
    refine h.step htakes.opens htakes.within fun id => ?_
    have hm := h.mapped id
    rw [SegmentTable.markHeld, htakes.bytes, ColumnWrite.heldAt, hspan]
    split_ifs with hid
    · subst hid
      dsimp only [Counts.total, addHeld, addLive]
      omega
    · exact ⟨rfl, rfl, hm⟩
  rcases remove_cases (hwidth.symm ▸ ha) hne with ⟨heq, -⟩ | ⟨heq, -⟩
  · rw [heq]
    exact hheld
  · obtain ⟨hopen, hwithin, hbytes⟩ := shadowHeld_spec key hheld.opens hheld.mapped
    rw [heq]
    refine ⟨hopen, fun id hl hh => hwithin id (hheld.within id hl hh), fun id => ?_, fun id => ?_, fun id => ?_⟩ <;>
      obtain ⟨old, hold, hb⟩ := hbytes id <;> have hm := hheld.mapped id
    · rw [← hheld.total id, hb]
      dsimp only [Counts.total, shadow, dropLive, addDead] at hold hm ⊢
      omega
    · rw [← hheld.held id, hb]
      rfl
    · rw [mappedAt_put, hb]
      have hweight : weight id (key, .graveFrom lsn loc.segment) = 0 := rfl
      dsimp only [shadow, dropLive, addDead] at hold hm ⊢
      omega

end

theorem Balanced.write (h : Balanced width low ws s) (hholds : Holds width ws s.column)
    (hnew : ∀ w' ∈ ws, w'.lsn ≠ w.lsn) (hnear : Near low w)
    (hstored : ∀ key loc lsn, w = .put key loc lsn → loc.segment ≠ 0) : Balanced width low (ws ++ [w]) (s.write w) := by
  cases w with
  | put k loc lsn =>
    by_cases ha : width.accepts k = true
    · exact h.insert hholds.width_eq ha lsn hnear (hstored k loc lsn rfl)
    · refine h.skip (fun id => ⟨by simp [ColumnWrite.spanAt, ha], rfl⟩) ?_ ?_ <;>
        simp [WidthIndex.write, WidthIndex.insert, hholds.width_eq, ha]
  | delete k loc lsn =>
    by_cases ha : width.accepts k = true
    · exact h.remove hholds.width_eq ha hnear (hholds.lsn_ne hnew)
    · refine h.skip (fun id => ⟨by simp [ColumnWrite.spanAt, ha], by simp [ColumnWrite.heldAt, ColumnWrite.spanAt, ha]⟩)
        ?_ ?_ <;> simp [WidthIndex.write, WidthIndex.remove, hholds.width_eq, ha]
  | deleteRange start fin lsn => exact h.skip (fun _ => ⟨rfl, rfl⟩) rfl rfl

theorem balanced_writes (hlsns : (ws.map ColumnWrite.lsn).Nodup) (hnear : ∀ w ∈ ws, Near low w)
    (hstored : ∀ key loc lsn, .put key loc lsn ∈ ws → loc.segment ≠ 0) :
    Balanced width low ws (ws.foldl WidthIndex.write (fresh width)) := by
  induction ws using reverseRecOn with
  | nil => exact ⟨.inl rfl, fun id hl hh => ⟨hl, hh, rfl⟩, fun _ => rfl, fun _ => rfl, fun _ => le_rfl⟩
  | append_singleton ws w ih =>
    rw [map_append, nodup_append] at hlsns
    rw [foldl_append]
    refine (ih hlsns.1 (fun w' hw' => hnear w' (mem_append_left _ hw'))
      fun key loc lsn hput => hstored key loc lsn (mem_append_left _ hput)).write (holds_writes hlsns.1)
      (fun w' hw' heq => hlsns.2.2 _ (mem_map_of_mem hw') _ (by simp) heq) (hnear w (by simp)) ?_
    rintro key loc lsn rfl
    exact hstored key loc lsn (by simp)

/-- Index moves commute to newest wins: whatever the order and the batch cuts, `get` answers with each key's
newest record unless a newer tombstone stands over it, and each segment counts the same bytes where one window
takes every segment. -/
theorem moves_commute {calls calls' : List Call}
    (hperm : (calls.flatMap Call.writes).Perm (calls'.flatMap Call.writes))
    (hlsns : ((calls.flatMap Call.writes).map ColumnWrite.lsn).Nodup)
    (hstored : ∀ key loc lsn, .put key loc lsn ∈ calls.flatMap Call.writes → loc.segment ≠ 0) :
    (∀ key entry, (run width calls).column.get key = some entry ↔
        Newest width (calls.flatMap Call.writes) key entry) ∧
      (∀ key, (run width calls).column.get key = (run width calls').column.get key) ∧
      ∀ low, (∀ w ∈ calls.flatMap Call.writes, Near low w) → ∀ id,
        ((run width calls).segments.bytesOf id).total + ((run width calls).segments.bytesOf id).held =
          ((run width calls').segments.bytesOf id).total + ((run width calls').segments.bytesOf id).held := by
  rw [run_eq, run_eq]
  have hlsns' := (hperm.map ColumnWrite.lsn).nodup_iff.mp hlsns
  have hstored' := fun key loc lsn hput => hstored key loc lsn (hperm.mem_iff.mpr hput)
  have hholds : Holds width _ _ := holds_writes hlsns
  have hholds' : Holds width _ _ := holds_writes hlsns'
  refine ⟨fun key entry => hholds.get_iff hlsns hstored, fun key => Option.ext fun entry => ?_, fun low hnear id => ?_⟩
  · rw [hholds.get_iff hlsns hstored, hholds'.get_iff hlsns' hstored', Newest, Newest]
    simp only [hperm.mem_iff]
  · have hbooks : Balanced width low _ _ := balanced_writes hlsns hnear hstored
    have hbooks' : Balanced width low _ _ :=
      balanced_writes hlsns' (fun w hw => hnear w (hperm.mem_iff.mpr hw)) hstored'
    rw [hbooks.total, hbooks.held, hbooks'.total, hbooks'.held, (hperm.map _).sum_eq, (hperm.map _).sum_eq]

def recordFirst : List Call := [.insert [4] ⟨1, 0, 5⟩ 1, .remove [4] ⟨2, 0, 0⟩ 2]

def tombstoneFirst : List Call := [.remove [4] ⟨2, 0, 0⟩ 2, .insert [4] ⟨1, 0, 5⟩ 1]

/-- A record and a newer tombstone of its key, either one first. -/
theorem moves_commute_sample : (run .varying recordFirst).column.get [4] = none ∧
    (run .varying recordFirst).column.get [4] = (run .varying tombstoneFirst).column.get [4] ∧
    ((run .varying recordFirst).segments.bytesOf 1).total + ((run .varying recordFirst).segments.bytesOf 1).held =
      ((run .varying tombstoneFirst).segments.bytesOf 1).total +
        ((run .varying tombstoneFirst).segments.bytesOf 1).held := by
  have hperm : (recordFirst.flatMap Call.writes).Perm (tombstoneFirst.flatMap Call.writes) := List.Perm.swap _ _ _
  have hnear : ∀ w ∈ recordFirst.flatMap Call.writes, Near 0 w := by
    simp [recordFirst, Call.writes, Near, chunkRows, maxWindow]
  have hstored : ∀ key loc lsn, .put key loc lsn ∈ recordFirst.flatMap Call.writes → loc.segment ≠ 0 := by
    intro key loc lsn hput
    simp only [recordFirst, Call.writes, flatMap_cons, flatMap_nil, append_nil, cons_append, nil_append,
      mem_cons, ColumnWrite.put.injEq, not_mem_nil, or_false, reduceCtorEq] at hput
    rw [hput.2.1]
    decide
  have h := @moves_commute .varying _ _ hperm (by decide) hstored
  exact ⟨by decide +kernel, h.2.1 [4], h.2.2 0 hnear 1⟩

/-- Segments too far apart for one window: whichever is booked first is the one that is counted. -/
theorem far_segments_order :
    ((run .varying [.insert [4] ⟨1, 0, 5⟩ 1, .insert [5] ⟨2 ^ 21, 0, 5⟩ 2]).segments.bytesOf 1).total = 15 ∧
      ((run .varying [.insert [5] ⟨2 ^ 21, 0, 5⟩ 2, .insert [4] ⟨1, 0, 5⟩ 1]).segments.bytesOf 1).total = 0 := by
  decide +kernel

end WidthIndex

end Reel
