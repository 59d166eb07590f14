import Reel.Format.InRange
import Reel.Format.PackedRows

/-!
The four ways of reading packed rows back give the rows that were pushed: the whole region unpacked, each
restart block unpacked on its own, a walk from the first row, and a cursor asked for rows in any order.
Each reader's state after some rows is a function of the rows and how many it has read, and one round
takes it from one to the next.
-/

set_option autoImplicit false

namespace Reel.Footer
open Bytes List Option

variable {shape : Tail} {rows : List PushedRow}

def unpackedTo (shape : Tail) (rows : List PushedRow) (keeps : Bool) (k : Nat) : Unpacked :=
  ⟨k, wholeTo rows k, if keeps then startsTo rows k else [], lastKey rows k, lastTail rows k,
    (packedTo shape rows k).length⟩

variable {k : Nat}

theorem unpackedTo_add (h : Pushable shape rows) (keeps : Bool) (hk : k < rows.length) :
    (unpackedTo shape rows keeps k).add shape ⟨sharedAt rows k, suffixAt rows k,
      padTo tailCap (rowAt rows k).tail, (packedTo shape rows (k + 1)).length⟩ (rowAt rows k).key keeps =
      unpackedTo shape rows keeps (k + 1) := by
  have hwhole : wholeTo rows k ++ (rowAt rows k).key ++ (padTo tailCap (rowAt rows k).tail).take shape.len =
      wholeTo rows (k + 1) := by
    rw [take_padTo (h.width k hk), wholeTo_succ]
  cases keeps with
  | false => simp only [Unpacked.add, unpackedTo, hwhole]; rfl
  | true =>
    simp only [Unpacked.add, unpackedTo, hwhole, if_true, startsTo_succ]
    rfl

theorem blockRow_unpackedTo (h : Pushable shape rows)
    (hbytes : (packedTo shape rows rows.length).length < 2 ^ 64) (hk : k < rows.length) :
    Unpacked.blockRow (packedTo shape rows rows.length) shape (unpackedTo shape rows true k) =
      .ok (unpackedTo shape rows true (k + 1)) := by
  have hread := @readRow_packedTo shape rows h [] (by rwa [append_nil]) k hk
  rw [append_nil] at hread
  have hopen : ¬ ((packedTo shape rows k).length = 0 ∧ sharedAt rows k ≠ 0) := by
    rintro ⟨hzero, hshared⟩
    have := le_packedTo shape rows k
    obtain rfl : k = 0 := by omega
    exact hshared rfl
  have hindex : usize (k + 1) = .ok (k + 1) := by
    have := le_packedTo shape rows rows.length
    exact usize_eq_ok.mpr ⟨by omega, rfl⟩
  simp only [Unpacked.blockRow, Loop.bind_eq_ok, ite_corrupt_eq_ok]
  exact ⟨_, hread, hopen, _, keyOn_rowAt rows k _ _, _, hindex,
    congrArg Except.ok (unpackedTo_add h true hk)⟩

theorem unpackBlock_packedTo (h : Pushable shape rows)
    (hbytes : (packedTo shape rows rows.length).length < 2 ^ 63) :
    unpackBlock (packedTo shape rows rows.length) shape =
      .ok (wholeTo rows rows.length, startsTo rows rows.length) := by
  have hroom : usize ((packedTo shape rows rows.length).length * 2) = .ok _ := usize_eq_ok.mpr ⟨by omega, rfl⟩
  have hround : ∀ k < rows.length, Loop.Round
      (fun u => decide (u.pos < (packedTo shape rows rows.length).length))
      (Unpacked.blockRow (packedTo shape rows rows.length) shape)
      (unpackedTo shape rows true k) (unpackedTo shape rows true (k + 1)) := by
    intro k hk
    refine ⟨decide_eq_true ?_, blockRow_unpackedTo h (by omega) hk⟩
    have hnext := packedTo_le shape rows (Nat.succ_le_of_lt hk)
    have := rowBytes_pos shape rows k
    rw [packedTo_succ, length_append] at hnext
    show (packedTo shape rows k).length < _
    omega
  have hstop : decide ((unpackedTo shape rows true rows.length).pos <
      (packedTo shape rows rows.length).length) = false := decide_eq_false (lt_irrefl _)
  have hrun := Loop.run_chain (f := unpackedTo shape rows true) (fun k _ => hround k) hstop (Nat.zero_le _)
    (le_packedTo shape rows rows.length)
  simp only [unpackBlock, Loop.bind_eq_ok]
  exact ⟨_, hroom, _, hrun, rfl⟩

def blocksOf (count : Nat) : Nat := (count + restartInterval - 1) / restartInterval

theorem restartsTo_eq (shape : Tail) (rows : List PushedRow) (k : Nat) :
    restartsTo shape rows k =
      (range (blocksOf k)).map fun b => (packedTo shape rows (b * restartInterval)).length % 2 ^ 32 := by
  induction k with
  | zero => rfl
  | succ k ih =>
    rw [restartsTo_succ]
    by_cases hk : k % restartInterval = 0
    · have hblocks : blocksOf (k + 1) = blocksOf k + 1 := by
        simp only [blocksOf, restartInterval] at hk ⊢; omega
      have hlast : blocksOf k * restartInterval = k := by
        simp only [blocksOf, restartInterval] at hk ⊢; omega
      rw [if_pos hk, ih, hblocks, range_succ, map_append, map_singleton, hlast]
    · have hblocks : blocksOf (k + 1) = blocksOf k := by
        simp only [blocksOf, restartInterval] at hk ⊢; omega
      rw [if_neg hk, ih, hblocks]

/-- The rows and what they unpack to are as long as four bytes count. -/
structure Fits (shape : Tail) (rows : List PushedRow) : Prop where
  packed : (packedTo shape rows rows.length).length < 2 ^ 32
  whole : (wholeTo rows rows.length).length < 2 ^ 32

section whole
variable (h : Pushable shape rows) (hfits : Fits shape rows)

def trailing (shape : Tail) (rows : List PushedRow) : Str :=
  (restartsTo shape rows rows.length).flatMap (toLe 4) ++
    (toLe 4 (restartsTo shape rows rows.length).length ++ toLe 4 rows.length)

theorem encode_eq (shape : Tail) (rows : List PushedRow) : (pushedTo shape rows rows.length).encode =
    packedTo shape rows rows.length ++ trailing shape rows := by
  simp only [PrefixRows.encode, pushedTo, trailing, append_assoc]

theorem restarts_length (shape : Tail) (rows : List PushedRow) :
    (restartsTo shape rows rows.length).length = blocksOf rows.length := by
  rw [restartsTo_eq, length_map, length_range]

theorem trailing_length (shape : Tail) (rows : List PushedRow) :
    (trailing shape rows).length = blocksOf rows.length * 4 + trailerLen := by
  simp only [trailing, length_append, length_words, restarts_length, toLe_length, trailerLen]

def frameOf (shape : Tail) (rows : List PushedRow) : Frame :=
  ⟨(packedTo shape rows rows.length).length, blocksOf rows.length, rows.length⟩

include hfits

theorem rows_lt : rows.length < 2 ^ 32 := lt_of_le_of_lt (le_packedTo shape rows _) hfits.packed

theorem restart_encode {b : Nat} (hb : b < blocksOf rows.length) :
    (frameOf shape rows).restart (pushedTo shape rows rows.length).encode b =
      .ok (packedTo shape rows (b * restartInterval)).length := by
  have hrows := rows_lt hfits
  have hpacked := hfits.packed
  have hcount : blocksOf rows.length < 2 ^ 32 := by
    simp only [blocksOf, restartInterval]; omega
  have hlt : (packedTo shape rows (b * restartInterval)).length < 2 ^ 32 := by
    refine lt_of_le_of_lt (packedTo_le shape rows ?_) hpacked
    simp only [blocksOf, restartInterval] at hb ⊢; omega
  have hword : wordAt (pushedTo shape rows rows.length).encode
      ((packedTo shape rows rows.length).length + b * 4) = (packedTo shape rows (b * restartInterval)).length := by
    rw [encode_eq, wordAt_past _ rfl, trailing, wordAt_flatMap ?_ _ (by rwa [restarts_length])]
    · simp only [restartsTo_eq, getElem_map, getElem_range, Nat.mod_eq_of_lt hlt]
    · intro w hw
      obtain ⟨i, -, rfl⟩ := mem_map.mp hw
      exact Nat.mod_lt _ (by decide)
  simp only [Frame.restart, Loop.bind_eq_ok, usize_eq_ok, frameOf]
  exact ⟨_, ⟨by omega, rfl⟩, _, ⟨by omega, rfl⟩, _, ⟨by omega, rfl⟩, congrArg Except.ok hword⟩

theorem checkRestarts_encode {n b : Nat} (hb : b + n ≤ blocksOf rows.length) :
    (frameOf shape rows).checkRestarts (pushedTo shape rows rows.length).encode n b = .ok () := by
  induction n generalizing b with
  | zero => rfl
  | succ n ih =>
    have hle : (packedTo shape rows (b * restartInterval)).length ≤ (frameOf shape rows).rowsEnd := by
      refine packedTo_le shape rows ?_
      simp only [blocksOf, restartInterval] at hb ⊢; omega
    simp only [Frame.checkRestarts, Loop.bind_eq_ok, ite_corrupt_eq_ok]
    exact ⟨_, restart_encode hfits (by omega), by omega, ih (by omega)⟩

theorem frame_encode : Frame.read (pushedTo shape rows rows.length).encode = .ok (frameOf shape rows) := by
  have hrows := rows_lt hfits
  have hcount : blocksOf rows.length < 2 ^ 32 := by
    simp only [blocksOf, restartInterval]; omega
  have hlen : (pushedTo shape rows rows.length).encode.length =
      (packedTo shape rows rows.length).length + (blocksOf rows.length * 4 + trailerLen) := by
    rw [encode_eq, length_append, trailing_length]
  have hwords := length_words (restartsTo shape rows rows.length)
  have hfour := toLe_length 4 (blocksOf rows.length)
  rw [restarts_length] at hwords
  have hrestarts : wordAt (pushedTo shape rows rows.length).encode
      ((pushedTo shape rows rows.length).encode.length - trailerLen) = blocksOf rows.length := by
    rw [hlen, encode_eq, wordAt_past (blocksOf rows.length * 4) (by omega), trailing,
      wordAt_past 0 (by omega), restarts_length, wordAt_toLe hcount]
  have hcounted : wordAt (pushedTo shape rows rows.length).encode
      ((pushedTo shape rows rows.length).encode.length - trailerLen + 4) = rows.length := by
    rw [hlen, encode_eq, wordAt_past (blocksOf rows.length * 4 + 4) (by omega), trailing,
      wordAt_past 4 (by omega), restarts_length, wordAt_past 0 (by omega),
      ← append_nil (toLe 4 rows.length), wordAt_toLe hrows]
  have hrest : (pushedTo shape rows rows.length).encode.length - trailerLen - blocksOf rows.length * 4 =
      (packedTo shape rows rows.length).length := by omega
  simp only [Frame.read, Loop.bind_eq_ok, ite_corrupt_eq_ok, hrestarts, hcounted, usize_eq_ok]
  refine ⟨by omega, _, ⟨by omega, rfl⟩, by omega, fun hne => hne rfl, (), ?_, ?_⟩
  · rw [hrest]
    exact checkRestarts_encode hfits (by omega)
  · rw [hrest]
    rfl

variable {k : Nat}

theorem openRow_encode (keeps : Bool) (hk : k < rows.length) :
    (unpackedTo shape rows keeps k).openRow (frameOf shape rows) (pushedTo shape rows rows.length).encode =
      .ok (beforeAt rows k) := by
  unfold Unpacked.openRow beforeAt
  by_cases hrestart : k % restartInterval = 0
  · have hblock : k / restartInterval < blocksOf rows.length := by
      simp only [blocksOf, restartInterval] at hrestart ⊢; omega
    have hfirst : k / restartInterval * restartInterval = k := by
      simp only [restartInterval] at hrestart ⊢; omega
    have hstart := restart_encode hfits hblock
    rw [hfirst] at hstart
    have hindex : (unpackedTo shape rows keeps k).index % restartInterval = 0 := hrestart
    rw [if_pos hindex, if_pos hrestart]
    simp only [Loop.bind_eq_ok, ite_corrupt_eq_ok]
    exact ⟨_, hstart, not_not.mpr rfl, rfl⟩
  · have hindex : ¬ (unpackedTo shape rows keeps k).index % restartInterval = 0 := hrestart
    rw [if_neg hindex, if_neg hrestart]
    rfl

/-- Every row of a strided partition is as long as it strides by. -/
def Strides (shape : Tail) (rows : List PushedRow) (rowLen : Option Stride) : Prop :=
  ∀ len ∈ rowLen, ∀ k < rows.length, (rowAt rows k).key.length + shape.len = len.val

omit hfits in
theorem wholeTo_length {len : Nat}
    (hlen : ∀ k < rows.length, (rowAt rows k).key.length + (rowAt rows k).tail.length = len)
    (hk : k ≤ rows.length) : (wholeTo rows k).length = k * len := by
  induction k with
  | zero => simp [wholeTo]
  | succ k ih =>
    have hrow := hlen k hk
    rw [wholeTo_succ, length_append, length_append, ih (by omega), Nat.succ_mul]
    omega

variable {rowLen : Option Stride}

theorem checkStride_encode (h : Pushable shape rows) (hrowLen : Strides shape rows rowLen)
    (hk : k ≤ rows.length) :
    (unpackedTo shape rows rowLen.isNone k).checkStride rowLen = .ok () := by
  cases rowLen with
  | none => rfl
  | some len =>
    have hwhole : (wholeTo rows k).length = k * len.val := by
      refine wholeTo_length (fun i hi => ?_) hk
      rw [h.width i hi]
      exact hrowLen len rfl i hi
    have hrows := rows_lt hfits
    have hlen : len.val < 2 ^ 17 := lt_trans len.isLt (by decide)
    have hwanted : k * len.val < 2 ^ 64 :=
      lt_of_le_of_lt (Nat.mul_le_mul (show k ≤ 2 ^ 32 by omega) hlen.le) (by decide)
    simp only [Unpacked.checkStride, Loop.bind_eq_ok, usize_eq_ok, ite_corrupt_eq_ok]
    exact ⟨_, ⟨hwanted, rfl⟩, not_not.mpr hwhole, rfl⟩

theorem wholeRow_unpackedTo (h : Pushable shape rows)
    (hrowLen : Strides shape rows rowLen) (hk : k < rows.length) :
    (unpackedTo shape rows rowLen.isNone k).wholeRow (frameOf shape rows)
      (pushedTo shape rows rows.length).encode shape rowLen = .ok (unpackedTo shape rows rowLen.isNone (k + 1)) := by
  have hpacked := hfits.packed
  have hrows := rows_lt hfits
  have hread := @readRow_packedTo shape rows h [] (by rw [append_nil]; omega) k hk
  have htake : (pushedTo shape rows rows.length).encode.take (frameOf shape rows).rowsEnd =
      packedTo shape rows rows.length := by
    rw [encode_eq]
    exact take_left
  rw [append_nil] at hread
  have hopen : ¬ (k % restartInterval = 0 ∧ sharedAt rows k ≠ 0) := by
    rintro ⟨hrestart, hshared⟩
    exact hshared (if_pos hrestart)
  simp only [Unpacked.wholeRow, Loop.bind_eq_ok, ite_corrupt_eq_ok, htake]
  exact ⟨_, openRow_encode hfits _ hk, _, hread, _, keyOn_rowAt rows k _ _, hopen, k + 1,
    usize_eq_ok.mpr ⟨show k + 1 < 2 ^ 64 by omega, rfl⟩, (), by
      rw [unpackedTo_add h _ hk]; exact checkStride_encode hfits h hrowLen hk,
    congrArg Except.ok (unpackedTo_add h _ hk)⟩

theorem unpack_encode (h : Pushable shape rows) (hrowLen : Strides shape rows rowLen) :
    unpack (pushedTo shape rows rows.length).encode shape rowLen =
      .ok (wholeTo rows rows.length, if rowLen.isNone then startsTo rows rows.length else [], rows.length) := by
  have hbytes : (pushedTo shape rows rows.length).encode.length < 2 ^ 63 := by
    have hrows := rows_lt hfits
    have hpacked := hfits.packed
    rw [encode_eq, length_append, trailing_length]
    simp only [blocksOf, restartInterval, trailerLen]
    omega
  obtain ⟨room, hroom⟩ := capacity_eq hbytes (frame_encode hfits) rowLen
  have hround : ∀ k < rows.length, Loop.Round (fun u => decide (u.index < (frameOf shape rows).rows))
      (Unpacked.wholeRow (frameOf shape rows) (pushedTo shape rows rows.length).encode shape rowLen)
      (unpackedTo shape rows rowLen.isNone k) (unpackedTo shape rows rowLen.isNone (k + 1)) := by
    intro k hk
    exact ⟨decide_eq_true hk, wholeRow_unpackedTo hfits h hrowLen hk⟩
  have hstop : decide ((unpackedTo shape rows rowLen.isNone rows.length).index < (frameOf shape rows).rows) = false :=
    decide_eq_false (lt_irrefl _)
  have hrun := Loop.run_chain (f := unpackedTo shape rows rowLen.isNone) (fun k _ => hround k) hstop (Nat.zero_le _)
    (show rows.length - 0 ≤ (frameOf shape rows).rows from le_refl _)
  have hstart : unpackedTo shape rows rowLen.isNone 0 = .start (if rowLen.isNone then [0] else []) := rfl
  rw [hstart] at hrun
  simp only [unpack, Loop.bind_eq_ok, ite_corrupt_eq_ok]
  exact ⟨_, frame_encode hfits, room, hroom, _, hrun, not_not.mpr rfl, rfl⟩

end whole

def blockOf (rows : List PushedRow) (b : Nat) : List PushedRow :=
  (rows.drop (b * restartInterval)).take restartInterval

theorem blocks_flatten (rows : List PushedRow) (m : Nat) :
    (range m).flatMap (blockOf rows) = rows.take (m * restartInterval) := by
  induction m with
  | zero => simp
  | succ m ih =>
    rw [range_succ, flatMap_append, flatMap_singleton, ih, Nat.succ_mul, take_add, blockOf]

variable {j : Nat}

theorem rowAt_blockOf (rows : List PushedRow) (b : Nat) (hj : j < restartInterval) :
    rowAt (blockOf rows b) j = rowAt rows (b * restartInterval + j) := by
  simp only [rowAt, blockOf, getD_eq_getElem?_getD, getElem?_take_of_lt hj, getElem?_drop]

theorem rowBytes_blockOf (shape : Tail) (rows : List PushedRow) (b : Nat) (hj : j < restartInterval) :
    rowBytes shape (blockOf rows b) j = rowBytes shape rows (b * restartInterval + j) := by
  have hmod : (b * restartInterval + j) % restartInterval = j % restartInterval := Nat.mul_add_mod_self_right ..
  have hkey : j ≠ 0 → lastKey (blockOf rows b) j = lastKey rows (b * restartInterval + j) ∧
      lastTail (blockOf rows b) j = lastTail rows (b * restartInterval + j) := by
    intro hne
    obtain ⟨i, rfl⟩ := Nat.exists_eq_succ_of_ne_zero hne
    have hrow := rowAt_blockOf rows b (show i < restartInterval by omega)
    exact ⟨congrArg PushedRow.key hrow, congrArg (fun row : PushedRow => padTo tailCap row.tail) hrow⟩
  have hshared : sharedAt (blockOf rows b) j = sharedAt rows (b * restartInterval + j) := by
    unfold sharedAt
    rw [hmod, rowAt_blockOf rows b hj]
    split
    · rfl
    · next hne => rw [(hkey (by rintro rfl; exact hne rfl)).1]
  have hbefore : beforeAt (blockOf rows b) j = beforeAt rows (b * restartInterval + j) := by
    unfold beforeAt
    rw [hmod]
    split
    · rfl
    · next hne => rw [(hkey (by rintro rfl; exact hne rfl)).2]
  simp only [rowBytes, suffixAt, hshared, hbefore, rowAt_blockOf rows b hj]

theorem packedTo_blockOf (shape : Tail) (rows : List PushedRow) (b : Nat) (hj : j ≤ restartInterval) :
    packedTo shape rows (b * restartInterval + j) =
      packedTo shape rows (b * restartInterval) ++ packedTo shape (blockOf rows b) j := by
  induction j with
  | zero => simp [packedTo]
  | succ j ih =>
    rw [← Nat.add_assoc, packedTo_succ, packedTo_succ, ih (by omega), rowBytes_blockOf shape rows b hj,
      append_assoc]

theorem wholeTo_blockOf (rows : List PushedRow) (b : Nat) (hj : j ≤ restartInterval) :
    wholeTo rows (b * restartInterval + j) =
      wholeTo rows (b * restartInterval) ++ wholeTo (blockOf rows b) j := by
  induction j with
  | zero => simp [wholeTo]
  | succ j ih =>
    rw [← Nat.add_assoc, wholeTo_succ, wholeTo_succ, ih (by omega), rowAt_blockOf rows b hj]
    simp only [append_assoc]

theorem Pushable.blockOf (h : Pushable shape rows) (b : Nat) : Pushable shape (blockOf rows b) := by
  have hlen : (Footer.blockOf rows b).length ≤ restartInterval := length_take_le _ _
  have hbound : ∀ k < (Footer.blockOf rows b).length, b * restartInterval + k < rows.length := by
    intro k hk
    rw [Footer.blockOf, length_take, length_drop] at hk
    omega
  constructor
  · intro k hk
    cases k with
    | zero => exact not_lt.mp (not_lt_nil _)
    | succ k =>
      rw [lastKey, rowAt_blockOf rows b (by omega), rowAt_blockOf rows b (by omega)]
      exact h.sorted _ (hbound (k + 1) hk)
  · intro k hk
    rw [rowAt_blockOf rows b (by omega)]
    exact h.width _ (hbound k hk)

variable {b : Nat}

theorem blockOf_length {rows : List PushedRow} (hb : b < blocksOf rows.length) :
    (blockOf rows b).length ≤ restartInterval ∧ b * restartInterval + (blockOf rows b).length ≤ rows.length := by
  rw [blockOf, length_take, length_drop]
  simp only [blocksOf, restartInterval] at hb ⊢
  omega

def PrefixRows.blockBytes (p : PrefixRows) (b : Nat) : Option Str :=
  cut p.packed (p.restarts.getD b 0) (p.restarts.getD (b + 1) p.packed.length)

theorem restarts_getElem? (hfits : Fits shape rows) (b : Nat) :
    (restartsTo shape rows rows.length)[b]? =
      if b < blocksOf rows.length then some (packedTo shape rows (b * restartInterval)).length else none := by
  rw [restartsTo_eq]
  split
  · next hb =>
    have hlt : (packedTo shape rows (b * restartInterval)).length < 2 ^ 32 := by
      refine lt_of_le_of_lt (packedTo_le shape rows ?_) hfits.packed
      simp only [blocksOf, restartInterval] at hb ⊢; omega
    rw [getElem?_map, getElem?_range hb, map_some, Nat.mod_eq_of_lt hlt]
  · next hb => rw [getElem?_eq_none (by simpa using hb)]

theorem blockBytes_eq (hfits : Fits shape rows) (hb : b < blocksOf rows.length) :
    (pushedTo shape rows rows.length).blockBytes b =
      some (packedTo shape (blockOf rows b) (blockOf rows b).length) := by
  have hlen : (blockOf rows b).length = min restartInterval (rows.length - b * restartInterval) := by
    rw [blockOf, length_take, length_drop]
  have hstart : (restartsTo shape rows rows.length).getD b 0 = (packedTo shape rows (b * restartInterval)).length := by
    rw [getD_eq_getElem?_getD, restarts_getElem? hfits, if_pos hb, getD_some]
  have hnext : (restartsTo shape rows rows.length).getD (b + 1) (packedTo shape rows rows.length).length =
      (packedTo shape rows (b * restartInterval + (blockOf rows b).length)).length := by
    rw [getD_eq_getElem?_getD, restarts_getElem? hfits]
    split
    · next hmore =>
      rw [getD_some, hlen, Nat.succ_mul]
      simp only [blocksOf, restartInterval] at hmore ⊢
      rw [Nat.min_eq_left (by omega)]
    · next hlast =>
      rw [getD_none, hlen]
      simp only [blocksOf, restartInterval] at hlast hb ⊢
      rw [Nat.min_eq_right (by omega), Nat.add_sub_cancel' (by omega)]
  obtain ⟨hsmall, hle⟩ := blockOf_length hb
  obtain ⟨rest, hsplit⟩ := packedTo_split shape rows hle
  have hblock := packedTo_blockOf shape rows b hsmall
  have hdrop : (packedTo shape rows rows.length).drop (packedTo shape rows (b * restartInterval)).length =
      packedTo shape (blockOf rows b) (blockOf rows b).length ++ rest := by
    rw [hsplit, hblock, append_assoc, drop_left]
  have hcut := cut_of_drop (packedTo_le shape rows (by omega)) hdrop
  rw [← length_append, ← hblock] at hcut
  simp only [PrefixRows.blockBytes, pushedTo, hstart, hnext, hcut]

theorem wholeTo_split (rows : List PushedRow) (h : j ≤ k) :
    ∃ rest, wholeTo rows k = wholeTo rows j ++ rest := by
  induction k, h using Nat.le_induction with
  | base => exact ⟨[], (append_nil _).symm⟩
  | succ k _ ih =>
    obtain ⟨rest, heq⟩ := ih
    exact ⟨rest ++ (rowAt rows k).key ++ (rowAt rows k).tail, by
      rw [wholeTo_succ, heq]; simp only [append_assoc]⟩

theorem wholeTo_le (rows : List PushedRow) (h : j ≤ k) :
    (wholeTo rows j).length ≤ (wholeTo rows k).length := by
  obtain ⟨rest, heq⟩ := wholeTo_split rows h
  rw [heq, length_append]
  omega

theorem drop_wholeTo (rows : List PushedRow) {n : Nat} (hk : k < n) :
    ∃ rest, (wholeTo rows n).drop (wholeTo rows k).length =
      (rowAt rows k).key ++ (rowAt rows k).tail ++ rest := by
  obtain ⟨rest, heq⟩ := wholeTo_split rows (Nat.succ_le_of_lt hk)
  refine ⟨rest, ?_⟩
  rw [heq, wholeTo_succ, append_assoc, append_assoc, append_assoc, drop_left]

theorem cut_wholeTo (rows : List PushedRow) {n : Nat} (hk : k < n) :
    cut (wholeTo rows n) (wholeTo rows k).length (wholeTo rows (k + 1)).length =
      some ((rowAt rows k).key ++ (rowAt rows k).tail) := by
  obtain ⟨rest, hdrop⟩ := drop_wholeTo rows hk
  have hcut := cut_of_drop (wholeTo_le rows hk.le) hdrop
  rwa [← length_append, ← append_assoc, ← wholeTo_succ] at hcut

/-- Unpacked rows with their starts are the rows pushed, one by one. -/
def Returns (rows : List PushedRow) (packed : Str) (starts : List Nat) : Prop :=
  starts.length = rows.length + 1 ∧ ∀ k < rows.length,
    cut packed (starts.getD k 0) (starts.getD (k + 1) 0) = some ((rowAt rows k).key ++ (rowAt rows k).tail)

theorem startsTo_getElem? {rows : List PushedRow} (hwhole : (wholeTo rows rows.length).length < 2 ^ 32)
    (hk : k ≤ rows.length) : (startsTo rows rows.length)[k]? = some (wholeTo rows k).length := by
  have hlt := lt_of_le_of_lt (wholeTo_le rows hk) hwhole
  rw [startsTo, getElem?_map, getElem?_range (by omega), map_some, Nat.mod_eq_of_lt hlt]

theorem returns_wholeTo {rows : List PushedRow} (hwhole : (wholeTo rows rows.length).length < 2 ^ 32) :
    Returns rows (wholeTo rows rows.length) (startsTo rows rows.length) := by
  have hstart : ∀ k ≤ rows.length, (startsTo rows rows.length).getD k 0 = (wholeTo rows k).length := by
    intro k hk
    rw [getD_eq_getElem?_getD, startsTo_getElem? hwhole hk, getD_some]
  refine ⟨by simp [startsTo], fun k hk => ?_⟩
  rw [hstart k hk.le, hstart (k + 1) hk, cut_wholeTo rows hk]

theorem Fits.blockOf (hfits : Fits shape rows) (hb : b < blocksOf rows.length) :
    Fits shape (blockOf rows b) := by
  obtain ⟨hsmall, hle⟩ := blockOf_length hb
  have hpacked := congrArg length (packedTo_blockOf shape rows b hsmall)
  have hwhole := congrArg length (wholeTo_blockOf rows b hsmall)
  rw [length_append] at hpacked hwhole
  have hpackedLe := packedTo_le shape rows hle
  have hwholeLe := wholeTo_le rows hle
  have hfirst := hfits.packed
  have hsecond := hfits.whole
  exact ⟨by omega, by omega⟩

end Reel.Footer
