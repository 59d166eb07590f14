import Reel.Format.Groups

/-!
The journal of one open segment, kept in the segment's file from its rows' offset on. Every write lands
whole here; a failed one keeps its rows for the next.
-/

set_option autoImplicit false

namespace Reel
open Bytes Files List

def crcBit (c : UInt32) : UInt32 := if c &&& 1 = 1 then (c >>> 1) ^^^ 0x82F63B78 else c >>> 1

def crc32c (bytes : Str) : UInt32 :=
  bytes.foldl (fun c b => crcBit^[8] (c ^^^ UInt32.ofNat b.val)) 0xFFFFFFFF ^^^ 0xFFFFFFFF

-- the check value of the algorithm: the sum of the digits one to nine
example : crc32c [49, 50, 51, 52, 53, 54, 55, 56, 57] = 0xE3069283 := by decide +kernel

def fillMost : Nat := 1024 * 1024

structure Journal where
  rowsAt : Nat
  /-- Groups for records that have landed and are not in the file yet. -/
  pending : Str
  /-- Bytes of rows written so far. -/
  written : Nat
  /-- Bytes pushed so far, written or pending. -/
  pushed : Nat
  wholeBlocks : Bool
  /-- Bytes of the rows region already zeroed. -/
  filled : Nat
  span : Nat
  /-- The simulated backend zeroes nothing ahead. -/
  isSim : Bool
  deriving DecidableEq, Repr

namespace Journal

def start (rowsAt written span : Nat) (wholeBlocks isSim : Bool) : Journal :=
  ⟨rowsAt, [], written, written, wholeBlocks, written, span, isSim⟩

def create (rowsAt span : Nat) (wholeBlocks isSim : Bool) : Journal := start rowsAt 0 span wholeBlocks isSim

/-- Continue a reopened segment's journal after its last whole group. -/
def resume (file : Str) (rowsAt written span : Nat) (wholeBlocks isSim : Bool) : Journal × Str :=
  let j := start rowsAt written span wholeBlocks isSim
  -- zero the rest of the last block, so the next group starts on a block boundary
  if wholeBlocks ∧ written % block ≠ 0 then
    let first := written - written % block
    let held := (file.drop (rowsAt + first)).take (written - first)
    let next := first + block
    ({ j with written := next, pushed := next, filled := next },
      overwrite file (rowsAt + first) (padTo block held))
  else (j, file)

def push (checksum : Str → UInt32) (j : Journal) (rows : List JournalRow) : Journal :=
  if rows = [] then j
  else { j with pending := j.pending ++ pushGroup checksum rows,
                pushed := j.pushed + (pushGroup checksum rows).length }

def fillStep (span : Nat) : Nat := nextMultiple (min (max (span / 16) block) fillMost)

variable (j : Journal)

def fillEdge (fin : Nat) : Nat :=
  let step := fillStep j.span
  min ((fin + step - 1) / step * step) (nextMultiple (max j.span fin))

def fills (fin : Nat) : Bool := j.filled < fin && !j.isSim

/-- Zero the rows region up to a position first, so syncing rows needs no block allocation. -/
def fillTo (file : Str) (fin : Nat) : Journal × Str :=
  if j.fills fin then
    let edge := j.fillEdge fin
    let file := overwrite file (j.rowsAt + j.filled) (replicate (edge - j.filled) 0)
    -- some filesystems fill a gap up to the next write, so free the space past the segment size
    let past := nextMultiple j.span
    let file := if j.filled = 0 then punch file past (j.rowsAt - past) else file
    ({ j with filled := edge }, file)
  else (j, file)

def outgoing : Str :=
  if j.wholeBlocks then j.pending ++ replicate (nextMultiple j.pending.length - j.pending.length) 0
  else j.pending

def writePending (file : Str) : Journal × Str :=
  if j.pending = [] then (j, file)
  else
    let bytes := j.outgoing
    let (filled, file) := j.fillTo file (j.written + bytes.length)
    ({ filled with pending := [], written := j.written + bytes.length,
                   pushed := j.pushed + (bytes.length - j.pending.length) },
      overwrite file (j.rowsAt + j.written) bytes)

def markSealed (file mark : Str) : Journal × Str :=
  let (j, file) := j.writePending file
  let start := nextMultiple (j.rowsAt + j.written)
  (j, overwrite file start (replicate (block - mark.length) 0 ++ mark))

def head : Nat := j.written + j.outgoing.length

def fillsAhead : Bool := j.pending ≠ [] && j.fills j.head

def spared (start : Nat) (bytes : Str) : Str :=
  if j.fillsAhead ∧ j.filled = 0 then
    bytes.mapIdx fun i b => if nextMultiple j.span ≤ start + i then 0 else b
  else bytes

end Journal

namespace Journal

variable (j : Journal)

theorem le_fillEdge (fin : Nat) : fin ≤ j.fillEdge fin := by
  have hstep : 0 < fillStep j.span :=
    lt_of_lt_of_le (by simp [block, fillMost]) (le_nextMultiple _)
  have hup : fin ≤ (fin + fillStep j.span - 1) / fillStep j.span * fillStep j.span := by
    have := Nat.lt_div_mul_add (a := fin + fillStep j.span - 1) hstep
    omega
  exact le_min hup ((le_max_right _ _).trans (le_nextMultiple _))

theorem outgoing_of_empty {j : Journal} (h : j.pending = []) : j.outgoing = [] := by
  unfold outgoing
  split
  · rw [h]
    rfl
  · exact h

variable (file : Str) (fin : Nat)

theorem fillTo_rowsAt : (j.fillTo file fin).1.rowsAt = j.rowsAt := by
  unfold fillTo
  split <;> rfl

theorem writePending_rowsAt : (j.writePending file).1.rowsAt = j.rowsAt := by
  unfold writePending
  split
  · rfl
  · exact fillTo_rowsAt ..

theorem writePending_written : (j.writePending file).1.written = j.head := by
  unfold writePending
  split
  · rename_i hnil
    simp [head, outgoing_of_empty hnil]
  · rfl

theorem writePending_file {j : Journal} (file : Str) (h : j.pending ≠ []) :
    (j.writePending file).2 =
      overwrite (j.fillTo file j.head).2 (j.rowsAt + j.written) j.outgoing := by
  simp [writePending, h, head]

theorem block_dvd_fillEdge : block ∣ j.fillEdge fin := by
  have hstep : block ∣ fillStep j.span := nextMultiple_dvd _
  have hup : block ∣ (fin + fillStep j.span - 1) / fillStep j.span * fillStep j.span := hstep.mul_left _
  have hmin : j.fillEdge fin = (fin + fillStep j.span - 1) / fillStep j.span * fillStep j.span ∨
      j.fillEdge fin = nextMultiple (max j.span fin) := min_choice _ _
  rcases hmin with h | h
  · rwa [h]
  · rw [h]
    exact nextMultiple_dvd _

def filledAfter : Nat := if j.fillsAhead then j.fillEdge j.head else j.filled

theorem fillTo_filled :
    (j.fillTo file fin).1 = { j with filled := if j.fills fin then j.fillEdge fin else j.filled } := by
  unfold fillTo
  cases j.fills fin <;> rfl

theorem writePending_journal {j : Journal} (file : Str) (h : j.pending ≠ []) :
    (j.writePending file).1 =
      { j with pending := [], written := j.head, filled := j.filledAfter,
               pushed := j.pushed + (j.outgoing.length - j.pending.length) } := by
  simp [writePending, h, fillTo_filled, head, filledAfter, fillsAhead]

theorem fillTo_region :
    (j.fillTo file fin).2.drop j.rowsAt = if j.fills fin then
        overwrite (file.drop j.rowsAt) j.filled (replicate (j.fillEdge fin - j.filled) 0)
      else file.drop j.rowsAt := by
  unfold fillTo
  cases j.fills fin with
  | false => rfl
  | true =>
    simp only [if_true]
    split
    · rw [drop_punch (by omega), drop_overwrite_add]
    · exact drop_overwrite_add ..

theorem writePending_region {j : Journal} (file : Str) (h : j.pending ≠ []) :
    (j.writePending file).2.drop j.rowsAt = overwrite (if j.fillsAhead then
        overwrite (file.drop j.rowsAt) j.filled (replicate (j.fillEdge j.head - j.filled) 0)
      else file.drop j.rowsAt) j.written j.outgoing := by
  have hahead : j.fillsAhead = j.fills j.head := by simp [fillsAhead, h]
  rw [writePending_file file h, drop_overwrite_add, fillTo_region, hahead]

theorem fillTo_zeroFrom {file : Str} (fin : Nat) {n : Nat} (h : ZeroFrom file n) :
    ZeroFrom (j.fillTo file fin).2 n := by
  unfold fillTo
  split
  · simp only
    split
    · exact (h.write_zeros _ _).punched _ _
    · exact h.write_zeros _ _
  · exact h

theorem writePending_zeroFrom {j : Journal} {file : Str} (h : ZeroFrom file (j.rowsAt + j.written)) :
    ZeroFrom (j.writePending file).2 (j.rowsAt + j.head) := by
  by_cases hnil : j.pending = []
  · simpa [writePending, hnil, head, outgoing_of_empty hnil] using h
  · rw [writePending_file file hnil]
    refine ((j.fillTo_zeroFrom j.head h).mono ?_).write _ ?_ <;> unfold head <;> omega

theorem fillTo_length {j : Journal} (file : Str) {fin : Nat} (h : j.fills fin = true) :
    (j.fillTo file fin).2.length = max file.length (j.rowsAt + j.fillEdge fin) := by
  have hedge := j.le_fillEdge fin
  have hlt : j.filled < fin := by
    simp only [fills, Bool.and_eq_true, decide_eq_true_eq] at h
    exact h.1
  have hcalc : j.rowsAt + j.filled + (j.fillEdge fin - j.filled) = j.rowsAt + j.fillEdge fin := by omega
  simp only [fillTo, h, if_true]
  split <;> simp [length_overwrite, hcalc]

theorem writePending_length :
    max (j.writePending file).2.length (j.rowsAt + j.head) =
      max (max file.length (if j.fillsAhead then j.rowsAt + j.fillEdge j.head else 0)) (j.rowsAt + j.head) := by
  by_cases hnil : j.pending = []
  · simp [writePending, hnil, fillsAhead]
  · have hhead : j.rowsAt + j.written + j.outgoing.length = j.rowsAt + j.head := by unfold head; omega
    rw [writePending_file file hnil, length_overwrite, hhead]
    cases hf : j.fills j.head with
    | true => simp [fillsAhead, hnil, hf, fillTo_length file hf]
    | false => simp [fillsAhead, hnil, hf, fillTo]

section
variable {j : Journal} {file out : Str} {p n : Nat} (hout : slice file p n = some out)
  (hp : p + n ≤ j.rowsAt)
include hout hp

theorem fillTo_slice (fin : Nat) :
    slice (j.fillTo file fin).2 p n = some (if j.fills fin ∧ j.filled = 0 then
      out.mapIdx fun i b => if nextMultiple j.span ≤ p + i then 0 else b else out) := by
  have hlen : p + n ≤ file.length := le_of_slice hout
  unfold fillTo
  cases hf : j.fills fin with
  | false => simpa using hout
  | true =>
    have hzeros : slice (overwrite file (j.rowsAt + j.filled)
        (replicate (j.fillEdge fin - j.filled) 0)) p n = some out := by
      rw [slice_overwrite _ (by omega) hlen, hout]
    by_cases hfirst : j.filled = 0
    · simp only [hfirst, if_true] at hzeros ⊢
      exact slice_punch hzeros (by omega)
    · simpa [hfirst] using hzeros

theorem writePending_slice : slice (j.writePending file).2 p n = some (j.spared p out) := by
  by_cases hnil : j.pending = []
  · simpa [writePending, hnil, spared, fillsAhead] using hout
  · have hfill := fillTo_slice hout hp j.head
    rw [writePending_file file hnil, slice_overwrite _ (by omega) (le_of_slice hfill), hfill]
    simp [spared, fillsAhead, hnil]

end

theorem spared_eq_iff (start : Nat) (bytes : Str) :
    j.spared start bytes = bytes ↔ (j.fillsAhead = true → j.filled = 0 →
      ∀ i b, bytes[i]? = some b → nextMultiple j.span ≤ start + i → b = 0) := by
  unfold spared
  split
  · rename_i hfirst
    constructor
    · intro heq _ _ i b hb hpast
      have hget := congrArg (fun bytes : Str => bytes[i]?) heq
      simp only [getElem?_mapIdx, hb, Option.map_some, if_pos hpast, Option.some.injEq] at hget
      exact hget.symm
    · intro h
      refine ext_getElem? fun i => ?_
      rw [getElem?_mapIdx]
      cases hb : bytes[i]? with
      | none => rfl
      | some b =>
        simp only [Option.map_some, Option.some.injEq]
        split
        · rename_i hpast
          exact (h hfirst.1 hfirst.2 i b hb hpast).symm
        · rfl
  · rename_i hnot
    exact ⟨fun _ h1 h2 => absurd ⟨h1, h2⟩ hnot, fun _ => rfl⟩

end Journal
end Reel
