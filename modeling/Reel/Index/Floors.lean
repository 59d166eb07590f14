import Reel.Index.Segments

/-!
The floor a compaction ranks a segment by: the oldest version any other segment can surface. One
pass over the counted rows keeps only the two oldest marks, which answer any one exclusion.
-/

set_option autoImplicit false

open List

namespace Reel

structure Floors where
  oldest : Option (Nat × Nat)
  /-- The oldest mark in any other segment. -/
  runnerUp : Option Nat
  deriving DecidableEq, Repr

namespace Floors

variable (f : Floors) (segment lsn : Nat)

def start : Floors := ⟨none, none⟩

def see : Floors :=
  match f.oldest with
  | some (_, oldest) =>
    if oldest ≤ lsn then
      { f with runnerUp := some (match f.runnerUp with
          | some current => if current ≤ lsn then current else lsn
          | none => lsn) }
    else
      ⟨some (segment, lsn), some (match f.runnerUp with
          | some current => if current ≤ oldest then current else oldest
          | none => oldest)⟩
  | none => { f with oldest := some (segment, lsn) }

def excluding : Option Nat :=
  match f.oldest with
  | some (holder, oldest) => if holder = segment then f.runnerUp else some oldest
  | none => none

/-- The marks stand in order, and the oldest is of a segment seen. -/
structure Over (seen : List Nat) : Prop where
  alone : f.oldest = none → f.runnerUp = none
  ordered : ∀ top ∈ f.oldest, ∀ next ∈ f.runnerUp, top.2 ≤ next
  holder : ∀ top ∈ f.oldest, top.1 ∈ seen

variable {f segment lsn} {seen : List Nat} (h : f.Over seen)

include h

theorem Over.see : (f.see segment lsn).Over (segment :: seen) := by
  obtain ⟨oldest, runnerUp⟩ := f
  obtain ⟨halone, hordered, hholder⟩ := h
  cases oldest with
  | none => exact ⟨by simp [Floors.see], by simp_all [Floors.see], by simp [Floors.see]⟩
  | some top =>
    by_cases hle : top.2 ≤ lsn
    · exact ⟨by simp [Floors.see, hle], by grind [Floors.see], by simp_all [Floors.see]⟩
    · exact ⟨by simp [Floors.see, hle], by grind [Floors.see], by simp [Floors.see, hle]⟩

/-- A mark counts for every segment but its own. -/
theorem Over.excluding_see (hnew : segment ∉ seen) (s : Nat) :
    (f.see segment lsn).excluding s =
      if s = segment then f.excluding s else Option.merge min (f.excluding s) (some lsn) := by
  obtain ⟨oldest, runnerUp⟩ := f
  obtain ⟨halone, hordered, hholder⟩ := h
  cases oldest with
  | none => simp_all [Floors.see, excluding, eq_comm]
  | some top =>
    have hother : top.1 ≠ segment := fun heq => hnew (heq ▸ hholder top rfl)
    cases runnerUp <;> simp only [Floors.see] <;> split <;> simp_all [excluding] <;> grind

end Floors

/-- A window with the mark of each row and the bound of every walk over it. -/
structure MarkedWindow extends Window where
  reach : Nat
  /-- The oldest version as a row stores it. -/
  mark : Nat → Nat
  /-- A segment's number has four bytes. -/
  short : reach ≤ 2 ^ 32
  reaches : ∀ id, (toWindow.counted id).isSome → id < reach

/-- All bits set stand for no version yet. -/
def unmarked : Nat := 2 ^ 64 - 1

def minLsn (stored : Nat) : Option Nat := if stored = unmarked then none else some stored

namespace MarkedWindow

def empty : MarkedWindow where
  toWindow := .empty
  reach := 0
  mark := fun _ => unmarked
  short := Nat.zero_le _
  reaches := fun id h => by simp [Window.counted, Window.row, Window.inside, Window.empty] at h

variable (w : MarkedWindow) (segment : Nat)

/-- Lower a counted row's mark. -/
def lower (id lsn : Nat) : MarkedWindow :=
  { w with mark := Function.update w.mark id (min (w.mark id) lsn) }

/-- Start a row counting, with nothing noted in it. -/
def openCounted (id : Fin (2 ^ 32)) : Option MarkedWindow :=
  match h : w.openRow id with
  | none => none
  | some opened => some
    { toWindow := opened.setCounts id .start
      reach := max w.reach (id + 1)
      mark := Function.update w.mark id unmarked
      short := max_le w.short id.isLt
      reaches := fun other hcounted => by
        have hgrows := Window.openRow_grows h
        rw [Window.counted_setCounts _ hgrows.found, hgrows.counted_eq] at hcounted
        by_cases hid : other = id
        · omega
        · have := w.reaches other (by simpa [hid] using hcounted)
          omega }

/-- Note a version in a segment's row, opening it on first touch, or drop the booking. -/
def noteMin (id : Fin (2 ^ 32)) (lsn : Nat) : Option MarkedWindow :=
  if (w.counted id).isSome then some (w.lower id lsn)
  else if w.isRetired id then none
  else (w.openCounted id).map (·.lower id lsn)

def base : Nat := w.first * chunkRows

def countedRows : List (Nat × Nat) :=
  let first := max w.gone w.base - w.base
  let last := max w.reach w.base - w.base
  (range w.chunks).flatMap fun chunk =>
    let start := chunk * chunkRows
    let low := min (first - start) chunkRows
    let high := min (last - start) chunkRows
    (range' low (high - low)).filterMap fun slot =>
      let id := w.base + (start + slot)
      (w.rows id).counts.map fun _ => (id % 2 ^ 32, w.mark id)

def rank (floors : Floors) (row : Nat × Nat) : Floors :=
  match minLsn row.2 with
  | some lsn => floors.see row.1 lsn
  | none => floors

def floors : Floors := w.countedRows.foldl rank .start

/-- The marks of every counted row but this segment's. -/
def marksBeside (rows : List (Nat × Nat)) : List Nat :=
  (rows.filter (·.1 ≠ segment)).filterMap fun row => minLsn row.2

theorem countedRows_ascending : w.countedRows.Pairwise (·.1 < ·.1) := by
  have hreach := w.short
  simp only [countedRows, pairwise_flatMap, pairwise_filterMap, Option.map_eq_some_iff,
    mem_filterMap, mem_range'_1]
  refine ⟨fun chunk _ => ?_, ?_⟩
  · refine List.Pairwise.imp_of_mem ?_ (pairwise_lt_range' 1)
    rintro a b ha hb hlt _ ⟨_, _, rfl⟩ _ ⟨_, _, rfl⟩
    rw [mem_range'_1] at ha hb
    rw [Nat.mod_eq_of_lt (by omega), Nat.mod_eq_of_lt (by omega)]
    omega
  · refine pairwise_lt_range.imp fun {a b} hlt => ?_
    rintro _ ⟨x, hx, _, _, rfl⟩ _ ⟨y, hy, _, _, rfl⟩
    have hrows : a * chunkRows + chunkRows ≤ b * chunkRows := by
      simpa [Nat.succ_mul] using Nat.mul_le_mul_right chunkRows (Nat.succ_le_of_lt hlt)
    rw [Nat.mod_eq_of_lt (by omega), Nat.mod_eq_of_lt (by omega)]
    omega

theorem counted_eq_some {id : Nat} {counts : Counts} : w.counted id = some counts ↔
    (w.gone ≤ id ∧ w.inside id = true) ∧ (w.rows id).counts = some counts := by
  unfold Window.counted Window.row
  by_cases hgone : id < w.gone
  · simp [hgone, Nat.not_le.2 hgone]
  · cases hin : w.inside id <;> simp [hgone, Nat.not_lt.1 hgone]

/-- The pass meets each counted row once, under its own number. -/
theorem mem_countedRows {row : Nat × Nat} :
    row ∈ w.countedRows ↔ (w.counted row.1).isSome ∧ row.2 = w.mark row.1 := by
  have hshort := w.short
  obtain ⟨id, stored⟩ := row
  simp only [countedRows, mem_flatMap, mem_range, mem_filterMap, mem_range'_1,
    Option.map_eq_some_iff, Prod.mk.injEq, Option.isSome_iff_exists, counted_eq_some,
    Window.inside_iff]
  constructor
  · rintro ⟨chunk, hchunk, slot, hslot, counts, hcounts, rfl, rfl⟩
    have hnum : w.base + (chunk * chunkRows + slot) < 2 ^ 32 := by omega
    rw [Nat.mod_eq_of_lt hnum]
    have hblock : (w.base + (chunk * chunkRows + slot)) / chunkRows = w.first + chunk := by
      simp only [base, chunkRows] at hslot ⊢
      omega
    exact ⟨⟨counts, ⟨by omega, by omega, by omega⟩, hcounts⟩, rfl⟩
  · rintro ⟨⟨counts, ⟨hgone, hfirst, hlast⟩, hcounts⟩, rfl⟩
    have hreach : id < w.reach := w.reaches id
      (Option.isSome_iff_exists.2 ⟨counts, w.counted_eq_some.2
        ⟨⟨hgone, (w.inside_iff id).2 ⟨hfirst, hlast⟩⟩, hcounts⟩⟩)
    have hsplit : w.base + ((id / chunkRows - w.first) * chunkRows + id % chunkRows) = id := by
      simp only [base, chunkRows] at hfirst ⊢
      omega
    refine ⟨id / chunkRows - w.first, by omega, id % chunkRows, ?_, counts, ?_⟩
    · have := Nat.mod_lt id (show 0 < chunkRows by decide)
      omega
    · rw [hsplit, Nat.mod_eq_of_lt (by omega)]
      exact ⟨hcounts, rfl, rfl⟩

theorem min?_concat (marks : List Nat) (lsn : Nat) :
    (marks ++ [lsn]).min? = Option.merge min marks.min? (some lsn) := by
  cases marks <;> simp [min?, Option.merge]

theorem rank_spec (rows : List (Nat × Nat)) (hrows : rows.Pairwise (·.1 < ·.1)) :
    (rows.foldl rank .start).Over (rows.map Prod.fst) ∧
      ∀ s, (rows.foldl rank .start).excluding s = (marksBeside s rows).min? := by
  induction rows using reverseRecOn with
  | nil => exact ⟨⟨by simp [Floors.start], by simp [Floors.start], by simp [Floors.start]⟩,
      fun _ => rfl⟩
  | append_singleton rows row ih =>
    obtain ⟨hfore, -, hlast⟩ := pairwise_append.1 hrows
    obtain ⟨hover, hmin⟩ := ih hfore
    have hnew : row.1 ∉ rows.map Prod.fst := by
      intro hmem
      obtain ⟨earlier, hearlier, heq⟩ := mem_map.1 hmem
      have := hlast earlier hearlier row (by simp)
      omega
    simp only [foldl_append, foldl_cons, foldl_nil, rank]
    cases hlsn : minLsn row.2 with
    | none =>
      refine ⟨⟨hover.alone, hover.ordered, fun top htop => ?_⟩, fun s => ?_⟩
      · simpa using .inl (by simpa using hover.holder top htop)
      · rw [hmin, marksBeside, marksBeside, filter_append, filterMap_append]
        by_cases hs : row.1 = s <;> simp [hs, hlsn]
    | some lsn =>
      refine ⟨?_, fun s => ?_⟩
      · have hsee : (Floors.see _ row.1 lsn).Over _ := hover.see
        exact ⟨hsee.alone, hsee.ordered, fun top htop => by
          simpa [or_comm] using hsee.holder top htop⟩
      · rw [hover.excluding_see hnew, hmin, marksBeside, marksBeside, filter_append,
          filterMap_append]
        by_cases hs : s = row.1
        · simp [hs]
        · simp [Ne.symm hs, hs, hlsn, min?_concat]

theorem mem_marksBeside {lsn : Nat} : lsn ∈ marksBeside segment w.countedRows ↔
    ∃ id, id ≠ segment ∧ (w.counted id).isSome ∧ minLsn (w.mark id) = some lsn := by
  simp only [marksBeside, mem_filterMap, mem_filter, mem_countedRows, decide_eq_true_eq]
  constructor
  · rintro ⟨row, ⟨⟨hcounted, hstored⟩, hother⟩, hlsn⟩
    exact ⟨row.1, hother, hcounted, hstored ▸ hlsn⟩
  · rintro ⟨id, hother, hcounted, hlsn⟩
    exact ⟨(id, w.mark id), ⟨⟨hcounted, rfl⟩, hother⟩, hlsn⟩

/-- The floor a ranking pass gives a segment is the least mark of any other counted segment. -/
theorem excluding_least :
    (∀ lsn, w.floors.excluding segment = some lsn ↔ IsLeast
      {lsn | ∃ id, id ≠ segment ∧ (w.counted id).isSome ∧ minLsn (w.mark id) = some lsn} lsn) ∧
    (w.floors.excluding segment = none ↔
      ∀ id, id ≠ segment → (w.counted id).isSome → minLsn (w.mark id) = none) := by
  have hmin : w.floors.excluding segment = (marksBeside segment w.countedRows).min? :=
    (rank_spec w.countedRows w.countedRows_ascending).2 segment
  rw [hmin]
  refine ⟨fun lsn => ?_, ?_⟩
  · simp only [min?_eq_some_iff, IsLeast, lowerBounds, Set.mem_ofPred_eq, ← mem_marksBeside]
  · rw [min?_eq_none_iff, eq_nil_iff_forall_not_mem]
    simp only [mem_marksBeside, not_exists, not_and, Option.eq_none_iff_forall_ne_some]
    exact ⟨fun h id hother hcounted lsn => h lsn id hother hcounted,
      fun h lsn id hother hcounted => h id hother hcounted lsn⟩

/-- Two blocks; the oldest mark stands twice, and the last row has none. -/
def tied : Option MarkedWindow := do
  let w ← empty.noteMin 300 7
  let w ← w.noteMin 3 7
  let w ← w.noteMin 4 9
  w.openCounted 5

theorem excluding_of_tied : ∃ w, tied = some w ∧ w.chunks = 2 ∧ IsLeast
    {lsn | ∃ id, id ≠ 3 ∧ (w.counted id).isSome ∧ minLsn (w.mark id) = some lsn} 7 := by
  have hrun : tied.map (fun w => (w.chunks, w.floors.excluding 3)) = some (2, some 7) := by
    decide +kernel
  obtain ⟨w, hw, hends⟩ := Option.map_eq_some_iff.1 hrun
  obtain ⟨hchunks, hfloor⟩ := Prod.mk.inj hends
  exact ⟨w, hw, hchunks, ((w.excluding_least 3).1 7).1 hfloor⟩

end MarkedWindow

end Reel
