import Mathlib

/-!
A reel's per-segment byte counters. The rows stand in blocks over a window of segment numbers, which
grows to reach a number on its first booking; a booking on a retired segment is dropped and counted.
-/

set_option autoImplicit false

namespace Reel

def chunkRows : Nat := 256

def maxWindow : Nat := 2 ^ 20

/-- What is counted against one segment. -/
structure Counts where
  live : Nat
  dead : Nat
  /-- Tombstone bytes, counted inside live. -/
  held : Nat
  /-- The newest tombstone version, or zero for none. -/
  heldLsn : Nat
  deriving DecidableEq, Repr

namespace Counts

def start : Counts := ⟨0, 0, 0, 0⟩

variable (counts : Counts) (span : Nat)

def addLive : Counts := { counts with live := counts.live + span }

def dropLive : Counts := { counts with live := counts.live - span }

def addDead : Counts := { counts with dead := counts.dead + span }

def shadow : Counts := (counts.dropLive span).addDead span

def addHeld (lsn span : Nat) : Counts :=
  { counts.addLive span with held := counts.held + span, heldLsn := max counts.heldLsn lsn }

def total : Nat := counts.live + counts.dead

end Counts

/-- One segment's row, present once it counts something. -/
structure SegmentRow where
  counts : Option Counts
  retired : Bool
  deriving DecidableEq, Repr

def SegmentRow.blank : SegmentRow := ⟨none, false⟩

/-- The numbers the table has rows for: whole blocks from block `first` on. -/
structure Window where
  first : Nat
  /-- Numbers below this had their block freed. -/
  gone : Nat
  chunks : Nat
  rows : Nat → SegmentRow

namespace Window

def empty : Window := ⟨0, 0, 0, fun _ => .blank⟩

variable (w : Window) (id : Nat) (counts : Counts)

def inside : Bool :=
  decide (w.first ≤ id / chunkRows) && decide (id / chunkRows < w.first + w.chunks)

def row : Option SegmentRow :=
  if id < w.gone then none else if w.inside id then some (w.rows id) else none

def counted : Option Counts := (w.row id).bind SegmentRow.counts

def isRetired : Bool := decide (id < w.gone) || (w.row id).any (·.retired)

def spread (first chunks : Nat) : Window :=
  { w with first, chunks, rows := fun id => if w.inside id then w.rows id else .blank }

/-- Grow to reach a number, or nothing once it retired or lies too far off. -/
def openRow : Option Window :=
  let block := id / chunkRows
  let first := if w.chunks = 0 then block else w.first
  if id < w.gone then none
  else if block < first then
    -- never retired, so the window grows back to reach it
    if maxWindow < (first - block) * chunkRows then none
    else some (w.spread block (w.chunks + (first - block)))
  else if maxWindow ≤ id - first * chunkRows then none
  else
    let grown := w.spread first (max w.chunks (block - first + 1))
    if (grown.rows id).retired then none else some grown

def setCounts : Window :=
  { w with rows := Function.update w.rows id { w.rows id with counts := some counts } }

end Window

structure SegmentTable where
  window : Window
  dropped : Nat

namespace SegmentTable

def empty : SegmentTable := ⟨.empty, 0⟩

variable (t : SegmentTable) (id : Nat) (act : Counts → Counts)

def drop : SegmentTable := { t with dropped := t.dropped + 1 }

/-- Act on a segment's row, opening it on first touch, or drop the booking. -/
def opened : SegmentTable :=
  match t.window.counted id with
  | some counts => { t with window := t.window.setCounts id (act counts) }
  | none =>
    if t.window.isRetired id then t.drop
    else
      match t.window.openRow id with
      | some window => { t with window := window.setCounts id (act .start) }
      | none => t.drop

def booked : SegmentTable :=
  match t.window.counted id with
  | some counts => { t with window := t.window.setCounts id (act counts) }
  | none => t.drop

def markLive (id span : Nat) : SegmentTable := t.opened id (·.addLive span)

def markDead (id span : Nat) : SegmentTable := t.opened id (·.addDead span)

def markHeld (id lsn span : Nat) : SegmentTable := t.opened id (·.addHeld lsn span)

def shadow (t : SegmentTable) (id span : Nat) : SegmentTable := t.booked id (·.shadow span)

def releaseLive (id span : Nat) : SegmentTable := t.booked id (·.dropLive span)

def bytesOf : Counts := (t.window.counted id).getD .start

end SegmentTable

namespace Window

variable (w : Window) (id : Nat) (counts : Counts)

theorem row_setCounts (other : Nat) :
    (w.setCounts id counts).row other =
      (w.row other).map fun row => if other = id then { row with counts := some counts } else row := by
  have hin : (w.setCounts id counts).inside other = w.inside other := rfl
  have hgone : (w.setCounts id counts).gone = w.gone := rfl
  unfold row
  rw [hin, hgone]
  by_cases h : other = id
  · subst h
    simp only [if_true]
    split_ifs <;> simp [setCounts]
  · split_ifs <;> simp [setCounts, h]

theorem counted_setCounts {w : Window} {id : Nat} (counts : Counts) (h : (w.row id).isSome) (other : Nat) :
    (w.setCounts id counts).counted other = if other = id then some counts else w.counted other := by
  rw [counted, row_setCounts, counted]
  by_cases heq : other = id
  · subst heq
    obtain ⟨row, hrow⟩ := Option.isSome_iff_exists.mp h
    simp [hrow]
  · cases w.row other <;> simp [heq]

theorem isRetired_setCounts (other : Nat) :
    (w.setCounts id counts).isRetired other = w.isRetired other := by
  have hgone : (w.setCounts id counts).gone = w.gone := rfl
  rw [isRetired, row_setCounts, isRetired, hgone]
  by_cases heq : other = id <;> cases w.row other <;> simp [heq]

theorem row_of_counted {w : Window} {id : Nat} {counts : Counts} (h : w.counted id = some counts) :
    (w.row id).isSome := by
  unfold counted at h
  cases hrow : w.row id with
  | none => simp [hrow] at h
  | some row => rfl

/-- Block `low` and the 4096 blocks from it on: the window stands within them, or is empty. -/
def Open (low : Nat) : Prop := w.chunks = 0 ∨ low ≤ w.first ∧ w.first ≤ low + maxWindow / chunkRows

/-- A number within the blocks from `low` on that has not retired. -/
structure Within (w : Window) (low id : Nat) : Prop where
  low_le : low ≤ id / chunkRows
  lt_high : id / chunkRows < low + maxWindow / chunkRows
  standing : w.isRetired id = false

/-- Growing leaves every row as it was, blank where there was none. -/
structure Grows (w w' : Window) (id : Nat) : Prop where
  found : (w'.row id).isSome
  counted_eq : ∀ other, w'.counted other = w.counted other
  retired_eq : ∀ other, w'.isRetired other = w.isRetired other

theorem row_spread {w : Window} {first chunks : Nat}
    (hcovers : ∀ other, w.inside other = true → (w.spread first chunks).inside other = true) (other : Nat) :
    (w.spread first chunks).row other = w.row other ∨
      (w.spread first chunks).row other = some .blank ∧ w.row other = none := by
  have hgone : (w.spread first chunks).gone = w.gone := rfl
  have hrows : (w.spread first chunks).rows other = if w.inside other then w.rows other else .blank := rfl
  unfold row
  rw [hgone, hrows]
  by_cases h : other < w.gone
  · simp [h]
  · by_cases hin : w.inside other = true
    · simp [h, hin, hcovers other hin]
    · cases (w.spread first chunks).inside other <;> simp [h, hin]

theorem inside_iff :
    w.inside id = true ↔ w.first ≤ id / chunkRows ∧ id / chunkRows < w.first + w.chunks := by
  simp [inside]

theorem grows_spread {w : Window} {first chunks id : Nat} (hgone : ¬ id < w.gone)
    (hcovers : w.chunks = 0 ∨ first ≤ w.first ∧ w.first + w.chunks ≤ first + chunks)
    (hid : first ≤ id / chunkRows ∧ id / chunkRows < first + chunks) : w.Grows (w.spread first chunks) id := by
  have hspread : ∀ other, w.inside other = true → (w.spread first chunks).inside other = true := by
    intro other hin
    rw [inside_iff] at hin ⊢
    dsimp only [spread]
    omega
  refine ⟨?_, fun other => ?_, fun other => ?_⟩
  · have h : ¬ id < (w.spread first chunks).gone := hgone
    simp [row, h, (inside_iff (w.spread first chunks) id).mpr hid]
  · rcases row_spread hspread other with h | ⟨h, hnone⟩
    · rw [counted, h, counted]
    · rw [counted, h, counted, hnone]
      rfl
  · have hsame : (w.spread first chunks).gone = w.gone := rfl
    rcases row_spread hspread other with h | ⟨h, hnone⟩
    · rw [isRetired, h, isRetired, hsame]
    · rw [isRetired, h, isRetired, hnone, hsame]
      rfl

theorem Grows.standing {w w' : Window} {id : Nat} (h : w.Grows w' id) (hstands : w.isRetired id = false) :
    (w'.rows id).retired = false := by
  obtain ⟨row, hrow⟩ := Option.isSome_iff_exists.mp h.found
  have hret := h.retired_eq id
  rw [hstands, isRetired, hrow] at hret
  unfold Window.row at hrow
  split_ifs at hrow
  cases hrow
  exact (Bool.or_eq_false_iff.mp hret).2

theorem openRow_grows {w w' : Window} {id : Nat} (h : w.openRow id = some w') : w.Grows w' id := by
  unfold openRow at h
  simp only at h
  split_ifs at h <;> cases h <;> exact grows_spread ‹_› (by omega) (by omega)

theorem openRow_of_within {w : Window} {low id : Nat} (hopen : w.Open low) (h : w.Within low id) :
    ∃ w', w.openRow id = some w' ∧ w.Grows w' id ∧ w'.Open low := by
  have hgone : ¬ id < w.gone := fun hlt => by
    have := h.standing
    simp [isRetired, hlt] at this
  have hlow := h.low_le
  have hhigh := h.lt_high
  unfold openRow
  simp only [hgone, if_false]
  -- an empty window starts at the number's own block
  generalize hfirst : (if w.chunks = 0 then id / chunkRows else w.first) = first
  have hstart : w.chunks = 0 ∧ first = id / chunkRows ∨ w.chunks ≠ 0 ∧ first = w.first := by
    split_ifs at hfirst with hempty
    · exact Or.inl ⟨hempty, hfirst.symm⟩
    · exact Or.inr ⟨hempty, hfirst.symm⟩
  have hnear : low ≤ first ∧ first ≤ low + maxWindow / chunkRows := by
    rcases hstart with ⟨-, rfl⟩ | ⟨hne, rfl⟩
    · exact ⟨hlow, hhigh.le⟩
    · exact hopen.resolve_left hne
  by_cases hback : id / chunkRows < first
  · rw [if_pos hback, if_neg (by simp only [maxWindow, chunkRows] at hnear hlow ⊢; omega)]
    exact ⟨_, rfl, grows_spread hgone (by omega) (by omega), Or.inr ⟨hlow, hhigh.le⟩⟩
  · have hgrow : w.Grows (w.spread first (max w.chunks (id / chunkRows - first + 1))) id :=
      grows_spread hgone (by omega) (by omega)
    rw [if_neg hback, if_neg (by simp only [maxWindow, chunkRows] at hnear hhigh hback ⊢; omega),
      hgrow.standing h.standing]
    exact ⟨_, rfl, hgrow, Or.inr hnear⟩

end Window

namespace SegmentTable

/-- A booking the table takes acts on its own segment's counters and nothing else. -/
structure Takes (t t' : SegmentTable) (low id : Nat) (act : Counts → Counts) : Prop where
  opens : t'.window.Open low
  within : ∀ other, t.window.Within low other → t'.window.Within low other
  bytes : ∀ other, t'.bytesOf other = if other = id then act (t.bytesOf id) else t.bytesOf other

theorem within_of_isRetired {w w' : Window} {low : Nat} (h : ∀ other, w'.isRetired other = w.isRetired other)
    (other : Nat) (hin : w.Within low other) : w'.Within low other :=
  ⟨hin.low_le, hin.lt_high, (h other).trans hin.standing⟩

theorem opened_within {t : SegmentTable} {low id : Nat} (hopen : t.window.Open low) (h : t.window.Within low id)
    (act : Counts → Counts) : t.Takes (t.opened id act) low id act ∧
      ∀ other, (other = id ∨ (t.window.counted other).isSome) → ((t.opened id act).window.counted other).isSome := by
  suffices hwindow : (t.opened id act).window.Open low ∧
      (∀ other, (t.opened id act).window.isRetired other = t.window.isRetired other) ∧
      ∀ other, (t.opened id act).window.counted other =
        if other = id then some (act (t.bytesOf id)) else t.window.counted other by
    obtain ⟨hopen', hretired, hcounted⟩ := hwindow
    refine ⟨⟨hopen', within_of_isRetired hretired, fun other => ?_⟩, fun other hsome => ?_⟩
    · rw [bytesOf, hcounted]
      split_ifs <;> rfl
    · rw [hcounted]
      split_ifs with hid
      · rfl
      · exact hsome.resolve_left hid
  unfold opened bytesOf
  cases hc : t.window.counted id with
  | some counts =>
    exact ⟨hopen, Window.isRetired_setCounts _ _ _, Window.counted_setCounts _ (Window.row_of_counted hc)⟩
  | none =>
    obtain ⟨w, hw, hgrow, hopen'⟩ := Window.openRow_of_within hopen h
    simp only [h.standing, Bool.false_eq_true, if_false, hw]
    refine ⟨hopen', fun other => ?_, fun other => ?_⟩
    · rw [Window.isRetired_setCounts, hgrow.retired_eq]
    · rw [Window.counted_setCounts _ hgrow.found, hgrow.counted_eq]
      rfl

theorem counted_booked (t : SegmentTable) (id : Nat) (act : Counts → Counts) (other : Nat) :
    (t.booked id act).window.counted other =
      if other = id then (t.window.counted id).map act else t.window.counted other := by
  unfold booked
  cases hc : t.window.counted id with
  | some counts => exact Window.counted_setCounts _ (Window.row_of_counted hc) other
  | none =>
    by_cases h : other = id
    · simp [h, hc, drop]
    · simp [h, drop]

theorem takes_shadow {t : SegmentTable} {low : Nat} (id span : Nat) (hopen : t.window.Open low)
    (h : span ≤ (t.bytesOf id).live) : t.Takes (t.shadow id span) low id (·.shadow span) := by
  refine ⟨?_, within_of_isRetired fun other => ?_, fun other => ?_⟩
  · unfold shadow booked
    cases t.window.counted id <;> exact hopen
  · unfold shadow booked
    cases t.window.counted id with
    | some counts => exact Window.isRetired_setCounts _ _ _ other
    | none => rfl
  · unfold bytesOf at h ⊢
    rw [shadow, counted_booked]
    by_cases hid : other = id
    · subst hid
      cases hc : t.window.counted other with
      | some counts => simp
      | none =>
        have hzero : span = 0 := by simpa [hc, Counts.start] using h
        simp [hzero, Counts.shadow, Counts.dropLive, Counts.addDead]
    · simp [hid]

end SegmentTable

end Reel
