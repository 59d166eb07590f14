import Reel.Format.Readers

/-!
The readers that go through packed rows in place. A walk holds the row it sits on; a cursor asked for a
row decodes on from its own row where the row asked for is later in the same block, and from the block's
restart otherwise, so what it answers does not depend on what it was asked before.
-/

set_option autoImplicit false

namespace Reel.Footer
open Bytes List

variable {shape : Tail} {rows : List PushedRow}

/-- The rows a walk yields, each time it moves to one. -/
def PrefixCursor.yields : Nat → PrefixCursor → Except Fault (List PushedRow)
  | 0, _ => .ok []
  | n + 1, c => do
    let (moved, c) ← c.advance
    if moved then
      let later ← yields n c
      return ⟨c.key, c.tailOf⟩ :: later
    else return []

def walkedTo (shape : Tail) (rows : List PushedRow) (k : Nat) : PrefixCursor :=
  ⟨pushedTo shape rows rows.length, (packedTo shape rows k).length, k, lastKey rows k, lastTail rows k⟩

theorem tailOf_walkedTo (h : Pushable shape rows) {k : Nat} (hk : k < rows.length) :
    (walkedTo shape rows (k + 1)).tailOf = (rowAt rows k).tail :=
  take_padTo (h.width k hk)

section
variable (h : Pushable shape rows) (hbytes : (packedTo shape rows rows.length).length < 2 ^ 64)
include h hbytes

theorem advance_walkedTo {k : Nat} (hk : k < rows.length) :
    (walkedTo shape rows k).advance = .ok (true, walkedTo shape rows (k + 1)) := by
  have hread := @readRow_packedTo shape rows h [] (by rwa [append_nil]) k hk
  rw [append_nil] at hread
  have hindex : usize (k + 1) = .ok (k + 1) := by
    have := le_packedTo shape rows rows.length
    exact usize_eq_ok.mpr ⟨by omega, rfl⟩
  have hmore : ¬ (walkedTo shape rows k).rows.rows ≤ (walkedTo shape rows k).index := not_le.mpr hk
  rw [PrefixCursor.advance, if_neg hmore]
  simp only [Loop.bind_eq_ok]
  exact ⟨_, hread, _, keyOn_rowAt rows k _ _, _, hindex, rfl⟩

theorem yields_eq
    {n k : Nat} (hk : k ≤ rows.length) (hn : rows.length < k + n) :
    (walkedTo shape rows k).yields n = .ok (rows.drop k) := by
  induction n generalizing k with
  | zero => omega
  | succ n ih =>
    rw [PrefixCursor.yields]
    rcases hk.lt_or_eq with hlt | rfl
    · simp only [Loop.bind_eq_ok, Prod.exists]
      refine ⟨_, _, advance_walkedTo h hbytes hlt, ?_⟩
      rw [if_pos rfl, ih hlt (by omega), drop_eq_rowAt_cons hlt, tailOf_walkedTo h hlt]
      rfl
    · have hdone : (walkedTo shape rows rows.length).advance = .ok (false, walkedTo shape rows rows.length) := by
        rw [PrefixCursor.advance]
        exact if_pos (le_refl _)
      simp only [Loop.bind_eq_ok, Prod.exists]
      exact ⟨_, _, hdone, by rw [drop_length]; rfl⟩

end

def footerRowOf (tail : Whole) : FooterRow :=
  ⟨u64At tail 0, u32At tail offsetAt, u32At tail lenAt, ⟨tail.getD flagsAt 0⟩⟩

theorem footerRowOf_entryTail {lsn offset len : Nat} (hlsn : lsn < 2 ^ 64) (hoffset : offset < 2 ^ 32)
    (hlen : len < 2 ^ 32) (flags : Byte) :
    footerRowOf (entryTail lsn offset len flags) = ⟨lsn, offset, len, ⟨flags⟩⟩ := by
  have hparts : entryTail lsn offset len flags =
      toLe 8 lsn ++ (toLe 4 offset ++ (toLe 4 len ++ (flags :: replicate 15 0))) := by
    rw [entryTail, padTo, take_of_length_le (by simp [tailCap])]
    simp [tailCap]
  have h8 := toLe_length 8 lsn
  have h4 := toLe_length 4 offset
  have h4' := toLe_length 4 len
  have hfirst : u64At (entryTail lsn offset len flags) 0 = lsn := by
    rw [hparts, u64At, drop_zero, take_left' h8, fromLe_toLe hlsn]
  have hsecond : u32At (entryTail lsn offset len flags) offsetAt = offset := by
    rw [hparts, u32At, offsetAt, drop_left' h8, take_left' h4, fromLe_toLe hoffset]
  have hthird : u32At (entryTail lsn offset len flags) lenAt = len := by
    rw [hparts, ← append_assoc, u32At, lenAt, drop_left' (by rw [length_append]; omega),
      take_left' h4', fromLe_toLe hlen]
  have hlast : (entryTail lsn offset len flags).getD flagsAt 0 = flags := by
    rw [hparts, ← append_assoc, ← append_assoc, getD_eq_getElem?_getD,
      getElem?_append_right (by simp [flagsAt])]
    simp [flagsAt]
  rw [footerRowOf, hfirst, hsecond, hthird, hlast]

theorem footerRowOf_padTo {tail : Str} (h : tail.length = entryTailLen) :
    footerRowOf (padTo tailCap tail) = footerRowOf tail := by
  rw [← entryTail_eq h]
  exact footerRowOf_entryTail (u64At_lt _ _) (u32At_lt _ _) (u32At_lt _ _) _

theorem footerRowOf_noTail : u64At noTail 0 = noRow.lsn ∧ u32At noTail offsetAt = noRow.offset := by decide

namespace PackedCursor

theorem step_of_readRow {bytes : Str} {c : PackedCursor} {before : Whole} {row : Row}
    (hread : readRow bytes c.next .entry before = .ok row) (hlsn : u64At before 0 = c.found.lsn)
    (hoffset : u32At before offsetAt = c.found.offset) (hshared : row.shared ≤ c.key.length)
    (hflags : fromFlags (row.tail.getD flagsAt 0) = .ok ⟨row.tail.getD flagsAt 0⟩) :
    c.step bytes = .ok ⟨c.row, row.next, c.key.take row.shared ++ row.suffix, footerRowOf row.tail⟩ := by
  simp only [readRow, getTail, Loop.bind_eq_ok, ite_corrupt_eq_ok, Prod.exists, orCorrupt_eq_ok] at hread
  obtain ⟨shared, mid, hread₁, len, start, hread₂, fin, hfin, suffix, hsuffix, tail, next,
    ⟨flags, hflag, back, hback, size, third, hsize, hshort, delta, fourth, hdelta, offset, hkept, hrange,
      delta', last, hlast, hout⟩, hrow⟩ := hread
  cases hout
  cases hrow
  have hlsn' : wrappingAdd (u64At before 0) (Varint.unzigzag delta') < 2 ^ 64 := by
    unfold wrappingAdd; omega
  have hfields := footerRowOf_entryTail hlsn' (show offset.toNat < 2 ^ 32 by omega) (show size < 2 ^ 32 by omega) flags
  have hbyte : (entryTail (wrappingAdd (u64At before 0) (Varint.unzigzag delta')) offset.toNat size flags).getD
      flagsAt 0 = flags := by
    have := congrArg (fun found : FooterRow => found.flags.bits) hfields
    simpa [footerRowOf] using this
  simp only [hbyte] at hflags
  rw [hoffset] at hkept
  simp only [step, Loop.bind_eq_ok, ite_corrupt_eq_ok, Prod.exists, orCorrupt_eq_ok]
  refine ⟨_, _, hread₁, _, _, hread₂, _, hfin, _, hsuffix, not_lt.mpr hshared, _, hflag, _, hback, _, _, hsize,
    hshort, _, _, hdelta, _, hkept, hrange, _, _, hlast, _, hflags, ?_⟩
  rw [hfields, hlsn]
  rfl

def on (rows : List PushedRow) (k : Nat) : PackedCursor :=
  ⟨some k, (packedTo .entry rows (k + 1)).length, (rowAt rows k).key, footerRowOf (rowAt rows k).tail⟩

/-- Rows whose tails are footer entries with the flags a writer sets. -/
structure Entries (rows : List PushedRow) : Prop where
  pushable : Pushable .entry rows
  flags : ∀ k < rows.length, Flags.Written ⟨(rowAt rows k).tail.getD flagsAt 0⟩
  fits : (packedTo .entry rows rows.length).length < 2 ^ 32

variable {rows : List PushedRow}

theorem step_to (h : Entries rows) {k : Nat} (hk : k < rows.length) {c : PackedCursor}
    (hnext : c.next = (packedTo .entry rows k).length) (hlsn : u64At (beforeAt rows k) 0 = c.found.lsn)
    (hoffset : u32At (beforeAt rows k) offsetAt = c.found.offset)
    (hkey : sharedAt rows k = 0 ∨ c.key = lastKey rows k) :
    c.step (packedTo .entry rows rows.length) = .ok { on rows k with row := c.row } := by
  have hfits := h.fits
  have hread := @readRow_packedTo .entry rows h.pushable [] (by rw [append_nil]; omega) k hk
  rw [append_nil, ← hnext] at hread
  have hwidth : (rowAt rows k).tail.length = entryTailLen := h.pushable.width k hk
  have hfields := footerRowOf_padTo hwidth
  have hbyte : (padTo tailCap (rowAt rows k).tail).getD flagsAt 0 = (rowAt rows k).tail.getD flagsAt 0 := by
    have := congrArg (fun found : FooterRow => found.flags.bits) hfields
    simpa [footerRowOf] using this
  have hflags : fromFlags ((padTo tailCap (rowAt rows k).tail).getD flagsAt 0) =
      .ok ⟨(padTo tailCap (rowAt rows k).tail).getD flagsAt 0⟩ := by
    have hwritten : Flags.fromBits ((rowAt rows k).tail.getD flagsAt 0) = .ok _ := h.flags k hk
    rw [hbyte, fromFlags, hwritten]
    rfl
  obtain ⟨hle, hrebuilt⟩ := key_rebuilt rows k
  have hshared : sharedAt rows k ≤ c.key.length := by
    rcases hkey with hzero | heq
    · omega
    · rwa [heq]
  have hwhole : c.key.take (sharedAt rows k) ++ suffixAt rows k = (rowAt rows k).key := by
    rcases hkey with hzero | heq
    · rw [hzero, take_zero, ← hrebuilt, hzero, take_zero]
    · rw [heq, hrebuilt]
  rw [step_of_readRow hread hlsn hoffset hshared hflags, hwhole, hfields]
  rfl

theorem stepRow_on (h : Entries rows) {k : Nat} (hk : k + 1 < rows.length)
    (hblock : (k + 1) % restartInterval ≠ 0) :
    stepRow (packedTo .entry rows rows.length) (on rows k) = .ok (on rows (k + 1)) := by
  have hbefore : beforeAt rows (k + 1) = padTo tailCap (rowAt rows k).tail := if_neg hblock
  have hfields := footerRowOf_padTo (h.pushable.width k (by omega))
  have hstep := step_to h hk (c := on rows k) rfl
    (by rw [hbefore]; exact congrArg FooterRow.lsn hfields)
    (by rw [hbefore]; exact congrArg FooterRow.offset hfields) (.inr rfl)
  have hrows := le_packedTo .entry rows rows.length
  have hfits := h.fits
  simp only [stepRow, Loop.bind_eq_ok]
  exact ⟨_, hstep, k + 1, usize_eq_ok.mpr ⟨show k + 1 < 2 ^ 64 by omega, rfl⟩, rfl⟩

def restartOf (p : PrefixRows) (b : Nat) : Option Nat := p.restarts[b]?

theorem restartAt_on (h : Entries rows) {row : Nat} (hrow : row < rows.length) :
    restartAt (packedTo .entry rows rows.length) (restartOf (pushedTo .entry rows rows.length)) row =
      .ok (on rows (row / restartInterval * restartInterval)) := by
  have hfirst : row / restartInterval * restartInterval ≤ row := Nat.div_mul_le_self _ _
  have hmod : row / restartInterval * restartInterval % restartInterval = 0 := Nat.mul_mod_left _ _
  have hblock : row / restartInterval < blocksOf rows.length := by
    simp only [blocksOf, restartInterval]; omega
  have hplace : restartOf (pushedTo .entry rows rows.length) (row / restartInterval) =
      some (packedTo .entry rows (row / restartInterval * restartInterval)).length := by
    have hlt : (packedTo .entry rows (row / restartInterval * restartInterval)).length < 2 ^ 32 :=
      lt_of_le_of_lt (packedTo_le .entry rows (by omega)) h.fits
    rw [restartOf, pushedTo, restartsTo_eq, getElem?_map, getElem?_range hblock, Option.map_some,
      Nat.mod_eq_of_lt hlt]
  have hbefore : beforeAt rows (row / restartInterval * restartInterval) = noTail := if_pos hmod
  have hshared : sharedAt rows (row / restartInterval * restartInterval) = 0 := if_pos hmod
  have hstep := step_to h (show row / restartInterval * restartInterval < rows.length by omega)
    (c := ⟨none, _, [], noRow⟩) rfl (by rw [hbefore]; exact footerRowOf_noTail.1)
    (by rw [hbefore]; exact footerRowOf_noTail.2) (.inl hshared)
  have hrows := le_packedTo .entry rows rows.length
  have hfits := h.fits
  simp only [restartAt, Loop.bind_eq_ok, orCorrupt_eq_ok]
  exact ⟨_, hplace, _, hstep, _, usize_eq_ok.mpr ⟨by omega, rfl⟩, rfl⟩

/-- A cursor that has not read, or sits on one of the rows. -/
def Placed (rows : List PushedRow) (c : PackedCursor) : Prop :=
  c.row = none ∨ ∃ k < rows.length, c = on rows k

theorem read_on (h : Entries rows) {c : PackedCursor} (hc : Placed rows c) {row : Nat} (hrow : row < rows.length) :
    c.read (packedTo .entry rows rows.length) (restartOf (pushedTo .entry rows rows.length)) row =
      .ok (on rows row) := by
  -- the cursor steps on from a row at or before the one asked for, in its block
  have hheld : ∃ k, k ≤ row ∧ k / restartInterval = row / restartInterval ∧
      c.held (packedTo .entry rows rows.length) (restartOf (pushedTo .entry rows rows.length)) row = .ok (on rows k) := by
    unfold held
    by_cases hresumes : c.resumes row = true
    · obtain ⟨k, hk, hon⟩ := (Option.any_eq_true _ _).mp hresumes
      simp only [Bool.and_eq_true, decide_eq_true_eq, beq_iff_eq] at hon
      rcases hc with hnone | ⟨j, -, rfl⟩
      · rw [hnone] at hk; cases hk
      · obtain rfl : j = k := Option.some.inj hk
        exact ⟨j, hon.1, hon.2, if_pos hresumes⟩
    · exact ⟨_, Nat.div_mul_le_self _ _, Nat.mul_div_cancel _ (by decide), by
        rw [if_neg hresumes]; exact restartAt_on h hrow⟩
  obtain ⟨k, hle, hblock, hheld⟩ := hheld
  have hround : ∀ i, k ≤ i → i < row → Loop.Round (isBelow row) (stepRow (packedTo .entry rows rows.length))
      (on rows i) (on rows (i + 1)) := by
    intro i hi hlt
    refine ⟨decide_eq_true hlt, stepRow_on h (by omega) ?_⟩
    simp only [restartInterval] at hblock ⊢
    omega
  have hrun := Loop.run_chain (f := on rows) hround (decide_eq_false (lt_irrefl row)) hle (Nat.sub_le _ _)
  simp only [read, Loop.bind_eq_ok]
  exact ⟨_, hheld, hrun⟩

/-- What a cursor answers when it is asked for rows one after another. -/
def answers (bytes : Str) (restart : Nat → Option Nat) : List Nat → PackedCursor →
    Except Fault (List (Str × FooterRow))
  | [], _ => .ok []
  | row :: asked, c => do
    let c ← c.read bytes restart row
    let later ← answers bytes restart asked c
    return (c.key, c.found) :: later

theorem answers_eq (h : Entries rows) {asked : List Nat} (hasked : ∀ row ∈ asked, row < rows.length)
    {c : PackedCursor} (hc : Placed rows c) :
    answers (packedTo .entry rows rows.length) (restartOf (pushedTo .entry rows rows.length)) asked c =
      .ok (asked.map fun row => ((rowAt rows row).key, footerRowOf (rowAt rows row).tail)) := by
  induction asked generalizing c with
  | nil => rfl
  | cons row asked ih =>
    have hrow := hasked row (by simp)
    have hlater := ih (fun other hother => hasked other (by simp [hother])) (.inr ⟨row, hrow, rfl⟩)
    simp only [answers, Loop.bind_eq_ok]
    exact ⟨_, read_on h hc hrow, _, hlater, rfl⟩

end PackedCursor

/-- Rows in key order are taken by the writer and read back, key and tail, by a walk from the first row. Where
four byte offsets reach their bytes, every other reader returns them too: the whole region unpacked, with
starts or strided, the restart blocks one after another, and, for footer entries, a cursor asked for any rows
in any order. -/
theorem readers_return_pushed_rows {shape : Tail} {rows : List PushedRow} (h : Pushable shape rows)
    (hbytes : (packedTo shape rows rows.length).length < 2 ^ 64) :
    ∃ p, (PrefixRows.new shape).pushAll rows = .ok p ∧
      (PrefixCursor.new p).yields (rows.length + 1) = .ok rows ∧
      (range (blocksOf rows.length)).flatMap (blockOf rows) = rows ∧
      (Fits shape rows →
        (∃ packed starts, unpack p.encode shape none = .ok (packed, starts, rows.length) ∧
          Returns rows packed starts) ∧
        (∀ len : Stride, Strides shape rows (some len) → ∃ packed,
          unpack p.encode shape (some len) = .ok (packed, [], rows.length) ∧ ∀ k < rows.length,
            cut packed (k * len.val) ((k + 1) * len.val) = some ((rowAt rows k).key ++ (rowAt rows k).tail)) ∧
        (∀ b < blocksOf rows.length, ∃ bytes packed starts, p.blockBytes b = some bytes ∧
          unpackBlock bytes shape = .ok (packed, starts) ∧ Returns (blockOf rows b) packed starts) ∧
        (shape = .entry → (∀ k < rows.length, Flags.Written ⟨(rowAt rows k).tail.getD flagsAt 0⟩) →
          ∀ asked : List Nat, (∀ row ∈ asked, row < rows.length) →
            PackedCursor.answers p.packed (PackedCursor.restartOf p) asked .start =
              .ok (asked.map fun row => ((rowAt rows row).key, footerRowOf (rowAt rows row).tail)))) := by
  refine ⟨_, pushAll_eq h, yields_eq h hbytes (Nat.zero_le _) (by omega), ?_, fun hfits => ⟨⟨_, _,
    @unpack_encode shape rows hfits none h ?_, returns_wholeTo hfits.whole⟩, ?_, ?_, ?_⟩⟩
  · rw [blocks_flatten]
    refine take_of_length_le ?_
    simp only [blocksOf, restartInterval]
    omega
  · intro len hlen
    cases hlen
  · intro len hlen
    refine ⟨_, unpack_encode hfits h hlen, fun k hk => ?_⟩
    have hrow : ∀ i < rows.length, (rowAt rows i).key.length + (rowAt rows i).tail.length = len.val := by
      intro i hi
      rw [h.width i hi]
      exact hlen len rfl i hi
    rw [← wholeTo_length hrow hk.le, ← wholeTo_length hrow (Nat.succ_le_of_lt hk)]
    exact cut_wholeTo rows hk
  · intro b hb
    have hblock := (hfits.blockOf hb).packed
    exact ⟨_, _, _, blockBytes_eq hfits hb, unpackBlock_packedTo (h.blockOf b) (by omega),
      returns_wholeTo (hfits.blockOf hb).whole⟩
  · rintro rfl hflags asked hasked
    exact PackedCursor.answers_eq ⟨h, hflags, hfits.packed⟩ hasked (.inl rfl)

def twoEntries : List PushedRow :=
  [⟨[7, 7], toLe 8 3 ++ toLe 4 36 ++ toLe 4 5 ++ [0]⟩, ⟨[7, 7, 9], toLe 8 2 ++ toLe 4 99 ++ toLe 4 0 ++ [1]⟩]

theorem two_entries_read_back :
    ∃ p, (PrefixRows.new .entry).pushAll twoEntries = .ok p ∧
      (PrefixCursor.new p).yields 3 = .ok twoEntries ∧
      PackedCursor.answers p.packed (PackedCursor.restartOf p) [1, 0, 1] .start =
        .ok [([7, 7, 9], ⟨2, 99, 0, .tombstone⟩), ([7, 7], ⟨3, 36, 5, .data⟩),
          ([7, 7, 9], ⟨2, 99, 0, .tombstone⟩)] := by
  have hpush : Pushable .entry twoEntries := ⟨by decide +kernel, by decide +kernel⟩
  have hfits : Fits .entry twoEntries := ⟨by decide +kernel, by decide +kernel⟩
  obtain ⟨p, hp, hwalk, -, hfit⟩ := readers_return_pushed_rows hpush (by decide +kernel)
  obtain ⟨-, -, -, hread⟩ := hfit hfits
  exact ⟨p, hp, hwalk, hread rfl (by decide +kernel) [1, 0, 1] (by decide)⟩

/-- One row of an empty key and a raw tail of no bytes: a cursor takes what stands behind its key for a
footer entry's flags. -/
theorem raw_row_not_read_in_place :
    ∃ p, (PrefixRows.new (.raw 0)).pushAll [⟨[], []⟩] = .ok p ∧
      unpack p.encode (.raw 0) none = .ok ([], [0, 0], 1) ∧
      (PrefixCursor.new p).yields 2 = .ok [⟨[], []⟩] ∧
      PackedCursor.start.read p.packed (PackedCursor.restartOf p) 0 =
        .error (.error (.corruption PackedCursor.badRow)) :=
  ⟨_, rfl, rfl, rfl, rfl⟩

end Reel.Footer
