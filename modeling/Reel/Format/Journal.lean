import Reel.Format.Key

/-!
The journal of an open segment: one checksummed group of rows per write, read
back until the first torn group. The checksum is a parameter.
-/

set_option autoImplicit false

namespace Reel
open Bytes List Option

def groupHead : Nat := 4 + 4
def groupTail : Nat := 4
def rowFixed : Nat := 1 + 2 + 8 + 4 + 4 + 1
def noEnd : Nat := 65535
def block : Nat := 4096

/-- One record as its segment's journal holds it. -/
structure JournalRow where
  key : RecordKey
  lsn : UInt64
  offset : UInt32
  len : UInt32
  flags : Flags
  rangeEnd : Option KeyBytes
  deriving DecidableEq

def pushFixed (row : JournalRow) : Str :=
  toLe 8 row.lsn.toNat ++ toLe 4 row.offset.toNat ++ toLe 4 row.len.toNat ++ [row.flags.bits]

def pushEnd (row : JournalRow) : Str :=
  if row.flags.isRangeTombstone then
    match row.rangeEnd with
    | some fin => toLe 2 fin.bytes.length ++ fin.bytes
    | none => toLe 2 noEnd
  else []

def pushRow (row : JournalRow) : Str :=
  row.key.column :: toLe 2 row.key.key.bytes.length ++ row.key.key.bytes
    ++ pushFixed row ++ pushEnd row

def pushRows (rows : List JournalRow) : Str := rows.flatMap pushRow

variable (checksum : Str → UInt32) (bytes : Str)

def pushGroup (rows : List JournalRow) : Str :=
  let head := toLe 4 rows.length ++ toLe 4 (pushRows rows).length
  head ++ pushRows rows ++ toLe 4 (checksum (head ++ pushRows rows)).toNat

/-- The end stored at a position, and where the row after it starts. -/
def readEnd (flags : Flags) (next : Nat) : Option (Option KeyBytes × Nat) :=
  if flags.isRangeTombstone then do
    let len ← slice bytes next 2
    if fromLe len = noEnd then some (none, next + 2)
    else
      let held ← slice bytes (next + 2) (fromLe len)
      let fin ← (KeyBytes.new held).toOption
      some (some fin, next + 2 + fromLe len)
  else some (none, next)

def readRow (start : Nat) : Option (JournalRow × Nat) := do
  let column ← bytes[start]?
  let width ← slice bytes (start + 1) 2
  let keyAt := start + 3
  let held ← slice bytes keyAt (fromLe width)
  let key ← (RecordKey.fromBytes column held).toOption
  let fixed := keyAt + fromLe width
  let tail ← slice bytes fixed (rowFixed - 3)
  let byte ← tail[16]?
  let flags ← (Flags.fromBits byte).toOption
  let (rangeEnd, next) ← readEnd bytes flags (fixed + (rowFixed - 3))
  some ({ key, flags, rangeEnd
          lsn := UInt64.ofNat (fromLe (tail.take 8))
          offset := UInt32.ofNat (fromLe ((tail.drop 8).take 4))
          len := UInt32.ofNat (fromLe ((tail.drop 12).take 4)) }, next)

def readRows (bytes : Str) : Nat → Nat → Option (List JournalRow × Nat)
  | 0, cursor => some ([], cursor)
  | count + 1, cursor => do
    let (row, next) ← readRow bytes cursor
    let (rows, fin) ← readRows bytes count next
    some (row :: rows, fin)

def readGroup (start : Nat) :
    Option (List JournalRow × Nat) := do
  let head ← slice bytes start groupHead
  let count := fromLe (head.take 4)
  let body := fromLe (head.drop 4)
  let fin := start + groupHead + body
  let stored ← slice bytes fin groupTail
  let covered ← slice bytes start (fin - start)
  if count = 0 ∨ (checksum covered).toNat ≠ fromLe stored then none
  else
    let (rows, cursor) ← readRows (bytes.take fin) count (start + groupHead)
    if cursor = fin then some (rows, fin + groupTail) else none

def nextMultiple (n : Nat) : Nat := (n + block - 1) / block * block

/-- The loop of `read_groups` from a position, which the fuel bounds. -/
def readGroupsFrom (checksum : Str → UInt32) (bytes : Str) :
    Nat → Nat → List (List JournalRow) × Nat
  | 0, start => ([], start)
  | fuel + 1, start =>
    match readGroup checksum bytes start with
    | some (rows, next) =>
      let rest := readGroupsFrom checksum bytes fuel next
      (rows :: rest.1, rest.2)
    | none =>
      -- a whole-block volume pads each write with zeros, so skip to the next block boundary
      let boundary := nextMultiple start
      let isPadding := start < boundary ∧
        (slice bytes start (boundary - start)).any (·.all (· == 0))
      if isPadding ∧ (readGroup checksum bytes boundary).isSome then
        readGroupsFrom checksum bytes fuel boundary
      else ([], start)

def readGroups : List (List JournalRow) × Nat :=
  readGroupsFrom checksum bytes (2 * bytes.length + 1) 0

/-- The rows the append path journals: written flags, and an end only beside a range tombstone. -/
structure JournalRow.Sound (row : JournalRow) : Prop where
  written : row.flags.Written
  end_range : row.rangeEnd.isSome → row.flags.isRangeTombstone

theorem pushRow_length (row : JournalRow) : rowFixed ≤ (pushRow row).length := by
  simp only [pushRow, pushFixed, length_append, length_cons, length_nil, toLe_length,
    rowFixed]
  omega

theorem u64_readBack (x : UInt64) : UInt64.ofNat (fromLe (toLe 8 x.toNat)) = x := by
  rw [fromLe_toLe (by simpa using x.toNat_lt), UInt64.ofNat_toNat]

theorem u32_readBack (x : UInt32) : UInt32.ofNat (fromLe (toLe 4 x.toNat)) = x := by
  rw [fromLe_toLe (by simpa using x.toNat_lt), UInt32.ofNat_toNat]

theorem keyWidth_readBack (key : KeyBytes) : fromLe (toLe 2 key.bytes.length) = key.bytes.length := by
  have h := key.width_le
  exact fromLe_toLe (by simp only [maxKeyLen] at h; omega)

theorem pushFixed_length (row : JournalRow) : (pushFixed row).length = 17 := by simp [pushFixed]

theorem pushFixed_readBack (row : JournalRow) :
    (pushFixed row)[16]? = some row.flags.bits ∧
    UInt64.ofNat (fromLe ((pushFixed row).take 8)) = row.lsn ∧
    UInt32.ofNat (fromLe (((pushFixed row).drop 8).take 4)) = row.offset ∧
    UInt32.ofNat (fromLe (((pushFixed row).drop 12).take 4)) = row.len := by
  have h8 : (toLe 8 row.lsn.toNat).length = 8 := toLe_length _ _
  have h4 : (toLe 4 row.offset.toNat).length = 4 := toLe_length _ _
  refine ⟨by simp [pushFixed], ?_, ?_, ?_⟩
  · rw [show (pushFixed row).take 8 = toLe 8 row.lsn.toNat by
      simp [pushFixed]]
    exact u64_readBack row.lsn
  · rw [show ((pushFixed row).drop 8).take 4 = toLe 4 row.offset.toNat by
      simp [pushFixed, h8]]
    exact u32_readBack row.offset
  · rw [show ((pushFixed row).drop 12).take 4 = toLe 4 row.len.toNat by
      simp [pushFixed, drop_append, take_append, h8, h4]]
    exact u32_readBack row.len

theorem readEnd_pushEnd (front rest : Str) (row : JournalRow) (h : row.Sound) {next : Nat}
    (hn : next = front.length) :
    readEnd (front ++ pushEnd row ++ rest) row.flags next =
      some (row.rangeEnd, next + (pushEnd row).length) := by
  by_cases hr : row.flags.isRangeTombstone
  · cases he : row.rangeEnd with
    | none =>
      have hp : pushEnd row = toLe 2 noEnd := by simp [pushEnd, hr, he]
      have hs := slice_middle front rest rfl hn
        (show 2 = (pushEnd row).length by simp [hp])
      have hv : fromLe (pushEnd row) = noEnd := by rw [hp]; decide
      simp only [readEnd, hr, if_true, hs, bind_eq_bind, bind_some, hv]
      simp [hp]
    | some fin =>
      have hp : pushEnd row = toLe 2 fin.bytes.length ++ fin.bytes := by simp [pushEnd, hr, he]
      have hw := fin.width_le
      have hlen : slice (front ++ pushEnd row ++ rest) next 2 = some (toLe 2 fin.bytes.length) :=
        slice_middle front (fin.bytes ++ rest) (by simp [hp]) hn (by simp)
      have hend : slice (front ++ pushEnd row ++ rest) (next + 2) fin.bytes.length = some fin.bytes :=
        slice_middle (front ++ toLe 2 fin.bytes.length) rest (by simp [hp])
          (by simp [hn]) rfl
      have hne : fin.bytes.length ≠ noEnd := by simp only [maxKeyLen, noEnd] at *; omega
      simp only [readEnd, hr, if_true, hlen, bind_eq_bind, bind_some,
        keyWidth_readBack, if_neg hne, hend, KeyBytes.new_toOption]
      simp [hp, Nat.add_assoc]
  · have he : row.rangeEnd = none := by
      cases hc : row.rangeEnd with
      | none => rfl
      | some fin => exact absurd (h.end_range (by simp [hc])) hr
    simp [readEnd, pushEnd, hr, he]

theorem readRow_pushRow (front rest : Str) (row : JournalRow) (h : row.Sound) :
    readRow (front ++ pushRow row ++ rest) front.length =
      some (row, front.length + (pushRow row).length) := by
  set bytes := front ++ pushRow row ++ rest with hbytes
  have hshape : bytes = front ++ [row.key.column] ++ toLe 2 row.key.key.bytes.length
      ++ row.key.key.bytes ++ pushFixed row ++ pushEnd row ++ rest := by
    simp [hbytes, pushRow]
  have hcolumn : bytes[front.length]? = some row.key.column := by rw [hshape]; simp
  have hwidth : slice bytes (front.length + 1) 2 = some (toLe 2 row.key.key.bytes.length) :=
    slice_middle (front ++ [row.key.column])
      (row.key.key.bytes ++ pushFixed row ++ pushEnd row ++ rest)
      (by rw [hshape]; simp) (by simp) (by simp)
  have hkey : slice bytes (front.length + 3) row.key.key.bytes.length = some row.key.key.bytes :=
    slice_middle (front ++ [row.key.column] ++ toLe 2 row.key.key.bytes.length)
      (pushFixed row ++ pushEnd row ++ rest) (by rw [hshape]; simp) (by simp) rfl
  have hfixed : slice bytes (front.length + 3 + row.key.key.bytes.length) (rowFixed - 3) =
      some (pushFixed row) :=
    slice_middle (front ++ [row.key.column] ++ toLe 2 row.key.key.bytes.length
      ++ row.key.key.bytes) (pushEnd row ++ rest)
      (by rw [hshape]; simp) (by simp; omega) (pushFixed_length row).symm
  have hend := readEnd_pushEnd (front ++ [row.key.column] ++ toLe 2 row.key.key.bytes.length
    ++ row.key.key.bytes ++ pushFixed row) rest row h
    (show front.length + 3 + row.key.key.bytes.length + (rowFixed - 3) = _ by
      simp [pushFixed_length, rowFixed]; omega)
  rw [← hshape] at hend
  obtain ⟨hflag, hlsn, hoffset, hlen⟩ := pushFixed_readBack row
  simp only [readRow, hcolumn, hwidth, keyWidth_readBack, hkey, RecordKey.fromBytes_toOption, hfixed,
    hflag, Flags.fromBits_toOption h.written, hend, hlsn, hoffset, hlen, bind_eq_bind,
    bind_some]
  simp only [Option.some.injEq, Prod.mk.injEq, true_and, pushRow, length_append,
    length_cons, toLe_length, pushFixed_length, rowFixed]
  omega

theorem readRows_pushRows (front rest : Str) (rows : List JournalRow) (h : ∀ row ∈ rows, row.Sound) :
    readRows (front ++ pushRows rows ++ rest) rows.length front.length =
      some (rows, front.length + (pushRows rows).length) := by
  induction rows generalizing front with
  | nil => simp [readRows, pushRows]
  | cons row rows ih =>
    have hrow := readRow_pushRow front (pushRows rows ++ rest) row (h row (by simp))
    have hrest := ih (front ++ pushRow row) (fun r hr => h r (by simp [hr]))
    rw [length_append] at hrest
    have hshape : front ++ pushRows (row :: rows) ++ rest =
        front ++ pushRow row ++ (pushRows rows ++ rest) := by simp [pushRows]
    rw [append_assoc (front ++ pushRow row)] at hrest
    rw [hshape]
    simp only [length_cons, readRows, hrow, bind_eq_bind, bind_some, hrest]
    simp [pushRows, Nat.add_assoc]

/-- A group whose count and body fit the words of its head. -/
structure GroupFits (rows : List JournalRow) : Prop where
  sound : ∀ row ∈ rows, row.Sound
  nonempty : rows ≠ []
  body_lt : (pushRows rows).length < 2 ^ 32

theorem pushRows_length_le (rows : List JournalRow) : rows.length ≤ (pushRows rows).length := by
  induction rows with
  | nil => exact Nat.le_refl _
  | cons row rows ih =>
    have h := pushRow_length row
    simp only [pushRows, flatMap_cons, length_append, length_cons, rowFixed] at *
    omega

theorem readGroup_pushGroup (front rest : Str) {rows : List JournalRow}
    (h : GroupFits rows) :
    readGroup checksum (front ++ pushGroup checksum rows ++ rest) front.length =
      some (rows, front.length + (pushGroup checksum rows).length) := by
  set body := pushRows rows with hbody
  set head := toLe 4 rows.length ++ toLe 4 body.length with hhead
  set sum := toLe 4 (checksum (head ++ body)).toNat with hsum
  have hgroup : pushGroup checksum rows = head ++ body ++ sum := rfl
  have hheadLen : head.length = groupHead := by simp [hhead, groupHead]
  have hcount : fromLe (head.take 4) = rows.length := by
    have hlt : rows.length < 256 ^ 4 := by
      have := pushRows_length_le rows
      have := h.body_lt
      omega
    simp [hhead, fromLe_toLe hlt]
  have hlen : fromLe (head.drop 4) = body.length := by
    have hlt : body.length < 256 ^ 4 := by have := h.body_lt; omega
    simp [hhead, fromLe_toLe hlt]
  have hslice : slice (front ++ pushGroup checksum rows ++ rest) front.length groupHead = some head :=
    slice_middle front (body ++ sum ++ rest) (by simp [hgroup]) rfl hheadLen.symm
  have hstored : slice (front ++ pushGroup checksum rows ++ rest)
      (front.length + groupHead + body.length) groupTail = some sum :=
    slice_middle (front ++ head ++ body) rest (by simp [hgroup])
      (by simp only [length_append, hheadLen]) (by simp [hsum, groupTail])
  have hcovered : slice (front ++ pushGroup checksum rows ++ rest) front.length
      (front.length + groupHead + body.length - front.length) = some (head ++ body) :=
    slice_middle front (sum ++ rest) (by simp [hgroup]) rfl
      (by simp only [length_append, hheadLen]; omega)
  have hsumBack : fromLe sum = (checksum (head ++ body)).toNat :=
    fromLe_toLe (by simpa using (checksum (head ++ body)).toNat_lt)
  have htake : (front ++ pushGroup checksum rows ++ rest).take
      (front.length + groupHead + body.length) = front ++ head ++ body ++ [] := by
    rw [show front ++ pushGroup checksum rows ++ rest = (front ++ head ++ body) ++ (sum ++ rest) by
      simp [hgroup]]
    rw [take_append_of_le_length (by simp only [length_append, hheadLen]; omega),
      take_of_length_le (by simp only [length_append, hheadLen]; omega), append_nil]
  have hrows := readRows_pushRows (front ++ head) [] rows h.sound
  rw [length_append, hheadLen, ← hbody] at hrows
  have hne : rows.length ≠ 0 := by simpa using h.nonempty
  simp only [readGroup, hslice, bind_eq_bind, bind_some, hcount, hlen, hstored,
    hcovered, hsumBack, ne_eq, not_true_eq_false, or_false, if_neg hne, htake, hrows, if_true]
  simp only [hgroup, hsum, length_append, hheadLen, toLe_length, groupTail, Nat.add_assoc]

theorem readGroup_zeros (front : Str) (n : Nat) {start : Nat}
    (hs : front.length ≤ start) :
    readGroup checksum (front ++ replicate n 0) start = none := by
  obtain ⟨i, rfl⟩ := Nat.exists_eq_add_of_le hs
  unfold readGroup
  rw [slice_append_right front _ rfl]
  cases hslice : slice (replicate n (0 : Byte)) i groupHead with
  | none => rfl
  | some head =>
    have hz := slice_zero_of_all_zero (fun b hb => eq_of_mem_replicate hb) hslice
    have hc : fromLe (head.take 4) = 0 :=
      fromLe_all_zero (fun b hb => hz b (mem_of_mem_take hb))
    simp only [bind_eq_bind, bind_some, hc, true_or, if_true]
    cases slice (front ++ replicate n 0) (front.length + i + groupHead + fromLe (head.drop 4))
        groupTail with
    | none => rfl
    | some stored =>
      cases slice (front ++ replicate n 0) (front.length + i)
          (front.length + i + groupHead + fromLe (head.drop 4) - (front.length + i)) <;> rfl

end Reel
