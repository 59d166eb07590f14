import Reel.Append.Journal
import Reel.Library.Runs

/-!
A journal reopened over a region an earlier life left: whole groups, a torn one, and whatever older bytes
stand further on. The region is zeroed only as far as a write fills ahead, so an older group is read again
where the new rows, or the zeros laid ahead of them, end right before it.
-/

set_option autoImplicit false

namespace Reel
open Bytes Files List

namespace Journal

def reach (j : Journal) : Nat := max j.written j.filled

end Journal

/-- A resumed tail's journal over its file, the groups it has yet to write and those it wrote. -/
structure JournalFile where
  journal : Journal
  file : Str
  queued : List (List JournalRow)
  placed : List LaidGroup

inductive ResumeStep where
  | push (rows : List JournalRow)
  | write

def ResumeStep.Fits (_ : JournalFile) : ResumeStep → Prop
  | push rows => rows ≠ [] → GroupFits rows
  | write => True

namespace JournalFile

def region (s : JournalFile) : Str := s.file.drop s.journal.rowsAt

def wrote (s : JournalFile) : List (List JournalRow) := s.placed.map LaidGroup.rows

def start (checksum : Str → UInt32) (file : Str) (rowsAt span : Nat) (wholeBlocks isSim : Bool) : JournalFile :=
  let written := (readGroups checksum (file.drop rowsAt)).2
  let resumed := Journal.resume file rowsAt written span wholeBlocks isSim
  ⟨resumed.1, resumed.2, [], []⟩

def step (checksum : Str → UInt32) (s : JournalFile) : ResumeStep → Option JournalFile
  | .push rows => some { s with journal := s.journal.push checksum rows,
                                queued := if rows = [] then s.queued else s.queued ++ [rows] }
  | .write => some { journal := (s.journal.writePending s.file).1, file := (s.journal.writePending s.file).2,
                     queued := [], placed := s.placed ++ placeGroups checksum s.journal.written s.queued }

end JournalFile

variable (checksum : Str → UInt32)

/-- Nothing of the earlier life is read on to from the end of the new rows: past them stand zeros that end
on no older group, or, where none are laid ahead, older bytes that hold none there. -/
def Clear (old : Str) (j : Journal) : Prop :=
  if j.written = j.reach then Stops checksum old j.written
  else nextMultiple j.written = j.reach → readGroup checksum old j.reach = none

/-- The region of a resumed journal: the kept groups and those it wrote, zeros as far as it reaches, and
the earlier life's bytes behind them. -/
structure Region (checksum : Str → UInt32) (old : Str) (groups : List LaidGroup) (j : Journal)
    (region : Str) (fin : Nat) : Prop where
  lays : Lays checksum region 0 groups fin
  fin_eq : fin = j.written ∨ j.wholeBlocks = true ∧ j.written = nextMultiple fin
  rest : region.drop fin = replicate (j.reach - fin) 0 ++ old.drop j.reach

structure JournalFile.Stands (checksum : Str → UInt32) (old : Str) (kept : List LaidGroup) (s : JournalFile) : Prop where
  pending : s.journal.pending = s.queued.flatMap (pushGroup checksum)
  fits : ∀ rows ∈ s.queued, GroupFits rows
  ahead : s.journal.isSim = false → s.journal.written ≤ s.journal.filled
  behind : s.journal.isSim = true → s.journal.filled ≤ s.journal.written
  whole : s.journal.wholeBlocks = true → block ∣ s.journal.written
  edge : s.journal.reach = s.journal.written ∨ block ∣ s.journal.reach
  region : ∃ fin, Region checksum old (kept ++ s.placed) s.journal s.region fin

theorem le_reach (j : Journal) : j.written ≤ j.reach := le_max_left _ _

section Read
variable {checksum : Str → UInt32} {old region : Str} {groups : List LaidGroup} {j : Journal} {fin : Nat}

section
variable (h : Region checksum old groups j region fin)
include h

theorem Region.fin_le : fin ≤ j.written := by
  rcases h.fin_eq with rfl | ⟨_, heq⟩
  · exact le_rfl
  · exact heq ▸ le_nextMultiple fin

/-- Where zeros follow the rows, the read stops unless they end on the block boundary of an older group. -/
theorem Region.stops_in_zeros
    (hpads : PadsDetected checksum region groups) (hedge : block ∣ j.reach) (hlt : fin < j.reach) :
    Stops checksum region fin ↔ (nextMultiple fin = j.reach → readGroup checksum old j.reach = none) := by
  have hup := le_nextMultiple fin
  have hle : nextMultiple fin ≤ j.reach := nextMultiple_le hedge hlt.le
  have hdrop : region.drop j.reach = old.drop j.reach := by
    have := congrArg (drop (j.reach - fin)) h.rest
    rwa [drop_drop, Nat.add_sub_cancel' hlt.le, drop_left' (length_replicate)] at this
  have hpadding : fin < nextMultiple fin → IsPadding region fin :=
    fun hpad => isPadding_of_zeros h.rest hpad (by omega)
  have hnone : readGroup checksum region fin = none := by
    by_cases hfour : 4 ≤ j.reach - fin
    · exact readGroup_in_zeros (i := 0) h.rest (by omega)
    · refine hpads.none (hpadding (hup.lt_of_ne fun heq => ?_)) h.lays.ends fun g hg => ?_
      · have hgap := block_gap (heq ▸ nextMultiple_dvd fin) hedge hlt
        unfold block at hgap
        omega
      · have := h.lays.span hg
        omega
  constructor
  · intro hstops heq
    have := hstops.2 (hpadding (by omega))
    rw [heq] at this
    exact (readGroup_none_congr hdrop le_rfl).mp this
  · intro hold
    refine ⟨hnone, fun hpad => ?_⟩
    rcases hle.eq_or_lt with heq | hlt'
    · rw [heq]
      exact (readGroup_none_congr hdrop le_rfl).mpr (hold heq)
    · have hgap := block_gap (nextMultiple_dvd fin) hedge hlt'
      obtain ⟨i, hi⟩ := Nat.exists_eq_add_of_le hup
      unfold block at hgap
      rw [hi]
      exact readGroup_in_zeros h.rest (by omega)

theorem Region.stops_iff (hpads : PadsDetected checksum region groups)
    (hwhole : j.wholeBlocks = true → block ∣ j.written) (hedge : j.reach = j.written ∨ block ∣ j.reach) :
    Stops checksum region fin ↔ Clear checksum old j := by
  have hfin := h.fin_le
  have hreach := le_reach j
  unfold Clear
  split
  · rename_i hend
    rcases h.fin_eq with rfl | ⟨hblocks, heq⟩
    · refine stops_congr ?_
      have := h.rest
      rw [← hend, Nat.sub_self] at this
      exact this
    · have hdvd := hwhole hblocks
      rw [stops_of_dvd hdvd]
      rcases hfin.eq_or_lt with rfl | hlt
      · rw [stops_of_dvd hdvd]
        refine readGroup_none_congr ?_ le_rfl
        have := h.rest
        rw [← hend, Nat.sub_self] at this
        exact this
      · rw [h.stops_in_zeros hpads (hend ▸ hdvd) (by omega), ← hend]
        exact ⟨fun hs => hs heq.symm, fun hs _ => hs⟩
  · rename_i hend
    have hdvd : block ∣ j.reach := hedge.resolve_left (Ne.symm hend)
    rw [h.stops_in_zeros hpads hdvd (by omega)]
    rcases h.fin_eq with rfl | ⟨hblocks, heq⟩
    · rfl
    · have hsame : nextMultiple j.written = j.written := nextMultiple_of_dvd (hwhole hblocks)
      rw [hsame, ← heq]

end

section Start
variable {checksum : Str → UInt32} {file : Str} {rowsAt span : Nat} {isSim : Bool}

theorem overwrite_padTo {old : Str} {written : Nat} (hlen : written ≤ old.length) (hpart : written % block ≠ 0) :
    overwrite old (written - written % block)
        (padTo block ((old.drop (written - written % block)).take (written - (written - written % block)))) =
      old.take written ++ (replicate (nextMultiple written - written) 0 ++ old.drop (nextMultiple written)) := by
  have hlt := Nat.mod_lt written (show block > 0 by decide)
  have hmod := Nat.mod_le written block
  have hnext : nextMultiple written = written - written % block + block := by
    unfold nextMultiple block at *
    omega
  have hheld : ((old.drop (written - written % block)).take (written - (written - written % block))).length =
      written % block := by
    rw [length_take, length_drop]
    omega
  have htake : old.take (written - written % block) ++
      (old.drop (written - written % block)).take (written - (written - written % block)) = old.take written := by
    rw [← take_add]
    congr 1
    omega
  generalize (old.drop (written - written % block)).take (written - (written - written % block)) = held at *
  have hpad : padTo block held = held ++ replicate (nextMultiple written - written) 0 := by
    rw [padTo, take_of_length_le (by omega), hheld]
    congr 2
    omega
  rw [overwrite_of_le _ (by omega), padTo_length, hpad, ← hnext, ← append_assoc, htake, append_assoc]

theorem resume_padded {written : Nat} (span : Nat) (isSim : Bool) (hlen : written ≤ (file.drop rowsAt).length)
    (hpart : written % block ≠ 0) :
    (Journal.resume file rowsAt written span true isSim).1 =
        Journal.start rowsAt (nextMultiple written) span true isSim ∧
      (Journal.resume file rowsAt written span true isSim).2.drop rowsAt = (file.drop rowsAt).take written ++
        (replicate (nextMultiple written - written) 0 ++ (file.drop rowsAt).drop (nextMultiple written)) := by
  have hnext : written - written % block + block = nextMultiple written := by
    have := Nat.mod_lt written (show block > 0 by decide)
    unfold nextMultiple block at *
    omega
  simp only [Journal.resume, hpart, ne_eq, not_false_eq_true, and_self, if_true, hnext]
  refine ⟨rfl, ?_⟩
  rw [drop_overwrite_add, ← drop_drop, overwrite_padTo hlen hpart]

/-- A resumed journal opens on the kept groups, in the region they stood in or with their block padded. -/
theorem JournalFile.stands_start (wholeBlocks : Bool) :
    (JournalFile.start checksum file rowsAt span wholeBlocks isSim).Stands checksum (file.drop rowsAt)
      (places checksum (file.drop rowsAt)) := by
  obtain ⟨-, hlays⟩ := lays_places checksum (file.drop rowsAt)
  have hlen := hlays.le_length (Nat.zero_le _)
  have hgroups : ∀ groups : List LaidGroup, groups ++ [] = groups := append_nil
  unfold JournalFile.start
  generalize hold : file.drop rowsAt = old at *
  generalize (readGroups checksum old).2 = written at *
  by_cases hpart : wholeBlocks = true ∧ written % block ≠ 0
  · obtain ⟨rfl, hpart⟩ := hpart
    obtain ⟨hjournal, hregion⟩ := resume_padded span isSim (hold ▸ hlen) hpart
    rw [hold] at hregion
    simp only [hjournal]
    have htake : ((old.take written) : Str).length = written := by rw [length_take, Nat.min_eq_left hlen]
    refine ⟨rfl, by simp, fun _ => le_rfl, fun _ => le_rfl, fun _ => nextMultiple_dvd _, .inl (max_self _),
      written, ?_, .inr ⟨rfl, rfl⟩, ?_⟩
    · rw [hgroups, JournalFile.region]
      refine hlays.agree ?_
      simp only [Journal.start, hregion]
      rw [take_left' htake]
    · simp only [Journal.reach, Journal.start, JournalFile.region, hregion, max_self]
      rw [drop_left' htake]
  · have hresume : Journal.resume file rowsAt written span wholeBlocks isSim =
        (Journal.start rowsAt written span wholeBlocks isSim, file) := if_neg hpart
    simp only [hresume]
    refine ⟨rfl, by simp, fun _ => le_rfl, fun _ => le_rfl, ?_, .inl (max_self _), written, ?_, .inl rfl, ?_⟩
    · intro hblocks
      exact Nat.dvd_of_mod_eq_zero (by_contra fun h => hpart ⟨hblocks, h⟩)
    · rw [hgroups, JournalFile.region]
      exact hold ▸ hlays
    · simp [Journal.reach, Journal.start, JournalFile.region, hold]

section Write
variable {checksum : Str → UInt32} {old region : Str} {groups : List LaidGroup} {queued : List (List JournalRow)}
  {j : Journal} {fin : Nat}

theorem drop_fill {head reach edge : Nat} (hhead : head ≤ reach) (hedge : reach ≤ edge)
    (hrest : region.drop head = replicate (reach - head) 0 ++ old.drop reach) :
    (overwrite region reach (replicate (edge - reach) 0)).drop head =
      replicate (edge - head) 0 ++ old.drop edge := by
  have hdrop := drop_overwrite_add region head (reach - head) (replicate (edge - reach) (0 : Byte))
  have hwrite := overwrite_append (replicate (reach - head) 0) (old.drop reach) 0
    (replicate (edge - reach) (0 : Byte))
  rw [length_replicate, Nat.add_zero, overwrite_zero, length_replicate, drop_drop,
    Nat.add_sub_cancel' hedge, ← append_assoc, replicate_append_replicate] at hwrite
  have hsum : reach - head + (edge - reach) = edge - head := by omega
  rw [Nat.add_sub_cancel' hhead] at hdrop
  rw [hdrop, hrest, hwrite, hsum]

theorem drop_write {head reach : Nat} (out : Str) (hhead : head ≤ reach)
    (hrest : region.drop head = replicate (reach - head) 0 ++ old.drop reach) :
    (overwrite region head out).drop head = out ++
      (replicate (reach - (head + out.length)) 0 ++ old.drop (max (head + out.length) reach)) := by
  have hdrop := drop_overwrite_add region head 0 out
  rw [Nat.add_zero, overwrite_zero, hrest, drop_append, drop_replicate, length_replicate,
    drop_drop] at hdrop
  have hleft : reach - head - out.length = reach - (head + out.length) := by omega
  have hpast : reach + (out.length - (reach - head)) = max (head + out.length) reach := by omega
  rw [hdrop, hleft, hpast]

theorem Region.drop_written (h : Region checksum old groups j region fin) :
    region.drop j.written = replicate (j.reach - j.written) 0 ++ old.drop j.reach := by
  have hfin := h.fin_le
  have hreach := le_reach j
  have hdrop := congrArg (drop (j.written - fin)) h.rest
  rw [drop_drop, Nat.add_sub_cancel' hfin,
    drop_append_of_le_length (by rw [length_replicate]; omega), drop_replicate] at hdrop
  rw [hdrop]
  congr 2
  omega

theorem Region.written_le (h : Region checksum old groups j region fin) : j.written ≤ region.length := by
  have hlen := congrArg length h.rest
  have hfin := h.lays.le_length (Nat.zero_le _)
  have hreach := le_reach j
  rw [length_drop, length_append, length_replicate] at hlen
  omega

def laidAhead (j : Journal) (region : Str) : Str :=
  if j.fillsAhead then overwrite region j.filled (replicate (j.fillEdge j.head - j.filled) 0) else region

theorem Region.laidAhead (h : Region checksum old groups j region fin)
    (hahead : j.isSim = false → j.written ≤ j.filled) :
    j.written ≤ (laidAhead j region).length ∧ (laidAhead j region).take j.written = region.take j.written ∧
      (laidAhead j region).drop j.written =
        replicate (max j.written j.filledAfter - j.written) 0 ++ old.drop (max j.written j.filledAfter) := by
  have hlen := h.written_le
  unfold Reel.laidAhead Journal.filledAfter
  by_cases hfill : j.fillsAhead = true
  · have hfills : j.filled < j.head ∧ j.isSim = false := by
      simp only [Journal.fillsAhead, Journal.fills, Bool.and_eq_true, decide_eq_true_eq, Bool.not_eq_true'] at hfill
      exact hfill.2
    have hle := hahead hfills.2
    have hedge := j.le_fillEdge j.head
    have hreach : j.reach = j.filled := max_eq_right hle
    rw [if_pos hfill, if_pos hfill, max_eq_right (by omega)]
    refine ⟨by rw [length_overwrite]; omega, take_overwrite _ hle hlen, ?_⟩
    exact drop_fill hle (by omega) (hreach ▸ h.drop_written)
  · rw [if_neg hfill, if_neg hfill]
    exact ⟨hlen, rfl, h.drop_written⟩

theorem outgoing_eq (j : Journal) : ∃ pad, j.outgoing = j.pending ++ replicate pad 0 ∧
    (pad = 0 ∨ j.wholeBlocks = true ∧ j.pending.length + pad = nextMultiple j.pending.length) := by
  unfold Journal.outgoing
  split
  · rename_i hblocks
    exact ⟨_, rfl, .inr ⟨hblocks, Nat.add_sub_cancel' (le_nextMultiple _)⟩⟩
  · exact ⟨0, by simp, .inl rfl⟩

theorem nextMultiple_add {m : Nat} (hm : block ∣ m) (n : Nat) : nextMultiple (m + n) = m + nextMultiple n := by
  obtain ⟨k, rfl⟩ := hm
  unfold nextMultiple block
  omega

theorem Region.write (h : Region checksum old groups j region fin)
    (hpending : j.pending = queued.flatMap (pushGroup checksum)) (hfits : ∀ rows ∈ queued, GroupFits rows)
    (hqueued : queued ≠ []) (hahead : j.isSim = false → j.written ≤ j.filled)
    (hwhole : j.wholeBlocks = true → block ∣ j.written) (pushed : Nat) :
    Region checksum old (groups ++ placeGroups checksum j.written queued)
      { j with pending := [], written := j.head, filled := j.filledAfter, pushed := pushed }
      (overwrite (Reel.laidAhead j region) j.written j.outgoing) (j.written + j.pending.length) := by
  obtain ⟨hlen, htake, hrest⟩ := h.laidAhead hahead
  obtain ⟨pad, hout, hpad⟩ := outgoing_eq j
  have hhead : j.head = j.written + j.pending.length + pad := by
    rw [Journal.head, hout, length_append, length_replicate, Nat.add_assoc]
  have hdrop := drop_write j.outgoing (le_max_left _ _) hrest
  have hfront : (overwrite (Reel.laidAhead j region) j.written j.outgoing).take j.written = region.take j.written := by
    rw [take_overwrite _ le_rfl hlen, htake]
  have hreach : max (j.written + j.outgoing.length) (max j.written j.filledAfter) = max j.head j.filledAfter := by
    unfold Journal.head
    omega
  have hzeros : pad + (max j.written j.filledAfter - (j.written + j.outgoing.length)) =
      max j.head j.filledAfter - (j.written + j.pending.length) := by
    have : j.head = j.written + j.outgoing.length := rfl
    omega
  generalize overwrite (Reel.laidAhead j region) j.written j.outgoing = after at *
  rw [hreach] at hdrop
  have hbehind : after.drop j.written = j.pending ++
      (replicate (max j.head j.filledAfter - (j.written + j.pending.length)) 0 ++
        old.drop (max j.head j.filledAfter)) := by
    rw [hdrop, ← hzeros, ← replicate_append_replicate]
    nth_rewrite 1 [hout]
    simp only [append_assoc]
  have hlaid : Lays checksum after j.written (placeGroups checksum j.written queued)
      (j.written + j.pending.length) := by
    have htook : (region.take j.written).length = j.written := by rw [length_take, Nat.min_eq_left h.written_le]
    have hsplit : region.take j.written ++ j.pending ++ after.drop (j.written + j.pending.length) = after := by
      rw [← drop_drop, hbehind, drop_left, append_assoc, ← hbehind, ← hfront,
        take_append_drop]
    have hgroups := @lays_pushGroups checksum queued hfits (region.take j.written)
      (after.drop (j.written + j.pending.length))
    rwa [htook, ← hpending, hsplit] at hgroups
  have hstood : Lays checksum after 0 groups fin := by
    refine h.lays.agree ?_
    have := congrArg (take fin) hfront
    rwa [take_take, take_take, Nat.min_eq_left h.fin_le] at this
  refine ⟨?_, ?_, ?_⟩
  · rcases h.fin_eq with rfl | ⟨_, heq⟩
    · exact hstood.append hlaid
    · rcases h.fin_le.eq_or_lt with rfl | hlt
      · exact hstood.append hlaid
      · have hpadding : IsPadding after fin := by
          refine IsPadding.agree (isPadding_of_zeros h.rest (heq ▸ hlt) ?_) heq.ge hfront
          have := le_reach j
          omega
        obtain ⟨rows, rest, rfl⟩ := exists_cons_of_ne_nil hqueued
        exact hstood.append (.padded hpadding (heq ▸ hlaid))
  · rcases hpad with rfl | ⟨hblocks, hpad⟩
    · exact .inl hhead.symm
    · refine .inr ⟨hblocks, ?_⟩
      rw [nextMultiple_add (hwhole hblocks), ← hpad, hhead, Nat.add_assoc]
  · rw [← drop_drop, hbehind, drop_left]
    rfl

section
variable {j : Journal} (hne : j.pending ≠ [])
include hne

theorem head_le_filledAfter (hdisk : j.isSim = false) :
    j.head ≤ j.filledAfter := by
  unfold Journal.filledAfter
  by_cases hfill : j.fillsAhead = true
  · rw [if_pos hfill]
    exact j.le_fillEdge j.head
  · rw [if_neg hfill]
    simp only [Journal.fillsAhead, Journal.fills, hdisk, Bool.and_eq_true, decide_eq_true_eq, ne_eq] at hfill
    by_contra hlt
    exact hfill ⟨hne, by omega, rfl⟩

theorem written_lt_head : j.written < j.head := by
  obtain ⟨pad, hout, _⟩ := outgoing_eq j
  have hpos := length_pos_iff.mpr hne
  rw [Journal.head, hout, length_append]
  omega

theorem filledAfter_le_head (hsim : j.isSim = true)
    (hbehind : j.isSim = true → j.filled ≤ j.written) : j.filledAfter ≤ j.head := by
  have hfilled : j.filledAfter = j.filled := by
    simp [Journal.filledAfter, Journal.fillsAhead, Journal.fills, hsim]
  have := hbehind hsim
  have := written_lt_head hne
  omega

end

theorem block_dvd_head {j : Journal} (hblocks : j.wholeBlocks = true) (hdvd : block ∣ j.written) : block ∣ j.head := by
  have hlen : j.outgoing.length = nextMultiple j.pending.length := by
    simp only [Journal.outgoing, hblocks, if_true, length_append, length_replicate]
    exact Nat.add_sub_cancel' (le_nextMultiple _)
  exact hdvd.add (hlen ▸ nextMultiple_dvd _)

theorem edge_after {j : Journal} (hne : j.pending ≠ []) (hahead : j.isSim = false → j.written ≤ j.filled)
    (hbehind : j.isSim = true → j.filled ≤ j.written) (hedge : j.reach = j.written ∨ block ∣ j.reach) :
    max j.head j.filledAfter = j.head ∨ block ∣ max j.head j.filledAfter := by
  have hlt := written_lt_head hne
  cases hsim : j.isSim with
  | true =>
    exact .inl (max_eq_left (filledAfter_le_head hne hsim hbehind))
  | false =>
    right
    have hle := head_le_filledAfter hne hsim
    have hreach : j.reach = j.filled := max_eq_right (hahead hsim)
    rw [max_eq_right hle]
    by_cases hfill : j.fillsAhead = true
    · rw [Journal.filledAfter, if_pos hfill]
      exact j.block_dvd_fillEdge j.head
    · rw [Journal.filledAfter, if_neg hfill] at hle ⊢
      rw [hreach] at hedge
      exact hedge.resolve_left (by omega)

theorem pushGroup_ne_nil (checksum : Str → UInt32) (rows : List JournalRow) : pushGroup checksum rows ≠ [] := by
  intro h
  simpa [pushGroup] using congrArg length h

theorem JournalFile.Stands.step {checksum : Str → UInt32} {old : Str} {kept : List LaidGroup} {s s' : JournalFile}
    {a : ResumeStep} (h : s.Stands checksum old kept) (hfit : a.Fits s)
    (hs : s.step checksum a = some s') : s'.Stands checksum old kept := by
  cases a with
  | push rows =>
    simp only [JournalFile.step, Option.some.injEq] at hs
    subst hs
    by_cases hrows : rows = []
    · simpa [Journal.push, hrows] using h
    · obtain ⟨fin, hregion⟩ := h.region
      simp only [Journal.push, if_neg hrows]
      refine ⟨?_, ?_, h.ahead, h.behind, h.whole, h.edge, fin, hregion.lays, hregion.fin_eq, hregion.rest⟩
      · simp [h.pending]
      · intro r hr
        rcases mem_append.mp hr with hr | hr
        · exact h.fits r hr
        · obtain rfl := mem_singleton.mp hr
          exact hfit hrows
  | write =>
    simp only [JournalFile.step, Option.some.injEq] at hs
    subst hs
    obtain ⟨fin, hregion⟩ := h.region
    by_cases hqueued : s.queued = []
    · have hnil : s.journal.pending = [] := by simp [h.pending, hqueued]
      have hsame : s.journal.writePending s.file = (s.journal, s.file) := if_pos hnil
      simp only [hsame, hqueued, placeGroups, append_nil]
      exact ⟨by simpa using hnil, by simp, h.ahead, h.behind, h.whole, h.edge, fin, hregion⟩
    · have hne : s.journal.pending ≠ [] := by
        rw [h.pending]
        intro hnil
        obtain ⟨rows, rest, heq⟩ := exists_cons_of_ne_nil hqueued
        rw [heq, flatMap_cons] at hnil
        exact pushGroup_ne_nil checksum rows (append_eq_nil_iff.mp hnil).1
      have hfile := Journal.writePending_region s.file hne
      have hwrote := hregion.write h.pending h.fits hqueued h.ahead h.whole
        (s.journal.pushed + (s.journal.outgoing.length - s.journal.pending.length))
      simp only [Journal.writePending_journal s.file hne]
      refine ⟨rfl, by simp, head_le_filledAfter hne, fun hsim => filledAfter_le_head hne hsim h.behind,
        fun hblocks => block_dvd_head hblocks (h.whole hblocks), edge_after hne h.ahead h.behind h.edge,
        s.journal.written + s.journal.pending.length, ?_⟩
      rw [← append_assoc]
      unfold JournalFile.region
      rw [hfile]
      exact hwrote

end Write

end Start

end Read

def oneGroup (key : Byte) : List JournalRow :=
  [⟨⟨0, ⟨[key, key], Nat.le_of_ble_eq_true rfl⟩⟩, 1, 4096, 300, Flags.data, none⟩]

theorem oneGroup_fits (key : Byte) : GroupFits (oneGroup key) := by
  refine ⟨fun row hrow => ?_, by simp [oneGroup], ?_⟩
  · obtain rfl := mem_singleton.mp hrow
    exact ⟨(by decide : Flags.data.Written), by simp⟩
  · simp [oneGroup, pushRows, pushRow, pushFixed, pushEnd, Flags.data, Flags.isRangeTombstone]

theorem oneGroup_length (key : Byte) : (pushGroup checksum (oneGroup key)).length = 34 := by
  simp [oneGroup, pushGroup, pushRows, pushRow, pushFixed, pushEnd, Flags.data, Flags.isRangeTombstone]

def tornRegion : Str :=
  padTo block (pushGroup crc32c (oneGroup 1)) ++ padTo block ((pushGroup crc32c (oneGroup 2)).take 20) ++
    pushGroup crc32c (oneGroup 3)

theorem padTo_oneGroup (key : Byte) : padTo block (pushGroup checksum (oneGroup key)) =
    pushGroup checksum (oneGroup key) ++ replicate 4062 0 := by
  rw [padTo, oneGroup_length, take_of_length_le (by rw [oneGroup_length]; decide)]
  rfl

theorem readGroups_blocks (a b c : Byte) :
    (readGroups checksum (padTo block (pushGroup checksum (oneGroup a)) ++
      padTo block (pushGroup checksum (oneGroup b)) ++ pushGroup checksum (oneGroup c))).1 =
      [oneGroup a, oneGroup b, oneGroup c] := by
  have hfits : ∀ group ∈ [(oneGroup a, true), (oneGroup b, true), (oneGroup c, false)],
      GroupFits group.1 := by simp [oneGroup_fits]
  obtain ⟨last, n, heq, hlays⟩ := @lays_writeGroups checksum _ hfits [] false
  have hbytes : writeGroups checksum (padOut false []) [(oneGroup a, true), (oneGroup b, true),
      (oneGroup c, false)] = padTo block (pushGroup checksum (oneGroup a)) ++
        padTo block (pushGroup checksum (oneGroup b)) ++ pushGroup checksum (oneGroup c) := by
    rw [padTo_oneGroup, padTo_oneGroup]
    simp [-reduceReplicate, writeGroups, padOut, padding, oneGroup_length, nextMultiple, block]
  rw [← hbytes, heq]
  -- each group ends far from the boundary its zeros run to
  have hskip : ∀ r, (r = 0 ∨ ∃ g ∈ layGroups checksum 0 [(oneGroup a, true), (oneGroup b, true),
      (oneGroup c, false)], g.next = r) → r = 0 ∨ r + 4 ≤ nextMultiple r := by
    simp [layGroups, padding, oneGroup_length, nextMultiple, block]
    omega
  have hread := hlays.readGroups_eq_iff fun r _ hplaced _ hpad => ?_
  · rw [layGroups_rows] at hread
    exact hread.mpr ⟨readGroup_zeros _ _ _ le_rfl, fun _ => readGroup_zeros _ _ _ (le_nextMultiple _)⟩
  · rcases hskip r hplaced with rfl | hfar
    · exact absurd hpad.1 (by decide)
    · exact hpad.none_of_four hfar

def tornFile : Str := replicate 32768 0 ++ tornRegion

theorem tornFile_region : tornFile.drop 32768 = tornRegion := drop_left' length_replicate

set_option maxRecDepth 10000 in
theorem tornFile_groups : readGroups crc32c (tornFile.drop 32768) = ([oneGroup 1], 34) := by
  rw [tornFile_region]
  decide +kernel

theorem tornRegion_length : tornRegion.length = 8226 := by
  rw [tornRegion, length_append, length_append, padTo_length, padTo_length, oneGroup_length]
  rfl

set_option maxRecDepth 10000 in
theorem tornRegion_places : places crc32c tornRegion = [⟨0, oneGroup 1, 34⟩] := by decide +kernel

set_option maxRecDepth 10000 in
theorem tornRegion_torn : readGroup crc32c tornRegion 4096 = none ∧
    readGroup crc32c tornRegion 8192 = some (oneGroup 3, 8226) := by decide +kernel

end Reel
