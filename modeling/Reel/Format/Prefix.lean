import Reel.Library.Loop
import Reel.Library.Varint
import Reel.Format.Key

/-!
Footer rows that keep only what a key does not share with the row before it. Rows are pushed in key
order; every sixteenth opens a restart block with its whole key, and a footer entry's sequence and
offset are kept as differences from the row before it in its block. Four readers rebuild the rows:
a whole region, one restart block, a walk from the first row, and a cursor that reads any row in
place.

The readers take bytes off the volume, so every sum they form of a number they read is formed with its
type's range in view: a sum that leaves it is a fault of its own, which is what an overflow check
would stop at.
-/

set_option autoImplicit false

namespace Reel.Footer
open Bytes List Varint

def restartInterval : Nat := 16

def tailCap : Nat := 32

def offsetAt : Nat := 8
def lenAt : Nat := 12
def flagsAt : Nat := 16

def entryTailLen : Nat := 17

/-- How a row's tail lies behind its key. -/
inductive Tail where
  /-- A footer entry's tail, its sequence and offset kept as differences from the row before. -/
  | entry
  /-- This many bytes, as they stand. -/
  | raw (len : Fin (tailCap + 1))
  deriving DecidableEq, Repr

def Tail.len : Tail → Nat
  | .entry => entryTailLen
  | .raw len => len.val

theorem Tail.len_le (shape : Tail) : shape.len ≤ tailCap := by
  cases shape with
  | entry => decide
  | raw len => exact Nat.le_of_lt_succ len.isLt

/-- What ends a reader short: the error it returns, or a sum outside its type's range. -/
inductive Fault where
  | error (error : ReelError)
  | overflow
  deriving DecidableEq, Repr

def corrupt {α : Type} (message : String) : Except Fault α := .error (.error (.corruption message))

theorem ite_corrupt_eq_ok {α : Type} {p : Prop} [Decidable p] {message : String} {r : Except Fault α} {a : α} :
    (if p then corrupt message else r) = .ok a ↔ ¬ p ∧ r = .ok a := by
  by_cases h : p <;> simp [h, corrupt]

def usize (n : Nat) : Except Fault Nat := if n < 2 ^ 64 then .ok n else .error .overflow

def i64 (n : Int) : Except Fault Int := if -2 ^ 63 ≤ n ∧ n < 2 ^ 63 then .ok n else .error .overflow

@[simp] theorem usize_eq_ok {n m : Nat} : usize n = .ok m ↔ n < 2 ^ 64 ∧ n = m := by
  unfold usize
  split_ifs with h
  · rw [Except.ok.injEq, and_iff_right h]
  · exact iff_of_false (by simp) fun hand => h hand.1

@[simp] theorem i64_eq_ok {n m : Int} : i64 n = .ok m ↔ (-2 ^ 63 ≤ n ∧ n < 2 ^ 63) ∧ n = m := by
  unfold i64
  split_ifs with h
  · rw [Except.ok.injEq, and_iff_right h]
  · exact iff_of_false (by simp) fun hand => h hand.1

abbrev Whole := Str

def noTail : Whole := replicate tailCap 0

def u64At (tail : Whole) (start : Nat) : Nat := fromLe ((tail.drop start).take 8)
def u32At (tail : Whole) (start : Nat) : Nat := fromLe ((tail.drop start).take 4)

def asI64 (word : Nat) : Int := if word < 2 ^ 63 then word else word - 2 ^ 64

def wrappingSub (a b : Nat) : Nat := (a + 2 ^ 64 - b) % 2 ^ 64
def wrappingAdd (a : Nat) (b : Int) : Nat := ((a + b) % 2 ^ 64).toNat

structure PushedRow where
  key : Str
  tail : Str
  deriving DecidableEq, Repr

/-- A column's rows, each keeping only the key bytes it does not share with the one before. -/
structure PrefixRows where
  packed : Str
  restarts : List Nat
  rows : Nat
  last : Str
  lastTail : Whole
  tail : Tail
  deriving DecidableEq, Repr

def sharedPrefix : Str → Str → Nat
  | a :: left, b :: right => if a = b then sharedPrefix left right + 1 else 0
  | _, _ => 0

/-- Append a tail, an entry's sequence and offset as differences from the row before. -/
def putTail (shape : Tail) (tail : Str) (before : Whole) : Str :=
  match shape with
  | .raw _ => tail
  | .entry =>
    let offset : Int := u32At tail offsetAt - u32At before offsetAt
    let lsn := asI64 (wrappingSub (u64At tail 0) (u64At before 0))
    tail.getD flagsAt 0 :: (Varint.put (u32At tail lenAt) ++ Varint.put (zigzag offset) ++
      Varint.put (zigzag lsn))

namespace PrefixRows

def new (tail : Tail) : PrefixRows := ⟨[], [], 0, [], noTail, tail⟩

/-- Append one row, which must not sort before the row already at the end. -/
def push (p : PrefixRows) (key tail : Str) : Except ReelError PrefixRows :=
  if 0 < p.rows ∧ key < p.last then .error (.rejected "a prefix-compressed row arrived out of order")
  else if tail.length ≠ p.tail.len then
    .error (.rejected "a packed row's tail is not the width its rows declare")
  else
    let restart := p.rows % restartInterval = 0
    let restarts := if restart then p.restarts ++ [p.packed.length % 2 ^ 32] else p.restarts
    let before := if restart then noTail else p.lastTail
    -- a restart keeps its whole key, so a search can bisect the restarts
    let shared := if restart then 0 else sharedPrefix p.last key
    let suffix := key.drop shared
    .ok {
      packed := p.packed ++ Varint.put shared ++ Varint.put suffix.length ++ suffix ++
        putTail p.tail tail before
      restarts
      rows := p.rows + 1
      last := key
      lastTail := tail ++ before.drop tail.length
      tail := p.tail }

def pushAll (p : PrefixRows) (rows : List PushedRow) : Except ReelError PrefixRows :=
  rows.foldlM (fun p row => p.push row.key row.tail) p

def encode (p : PrefixRows) : Str :=
  p.packed ++ p.restarts.flatMap (toLe 4) ++ toLe 4 p.restarts.length ++ toLe 4 p.rows

end PrefixRows

/-- Read a number `Varint.put` wrote and the position behind it. -/
def getVarintFrom (bytes : Str) : Nat → Nat → Nat → Nat → Except Fault (Nat × Nat)
  | 0, _, _, _ => corrupt "a footer row number runs past ten bytes"
  | n + 1, shift, value, pos =>
    match bytes[pos]? with
    | none => corrupt "a footer row number is truncated"
    | some byte => do
      let pos ← usize (pos + 1)
      let value := value ||| (byte.val % 128) <<< shift % 2 ^ 64
      if byte.val < 128 then return (value, pos) else getVarintFrom bytes n (shift + 7) value pos

variable (bytes : Str) (pos : Nat)

def getVarint : Except Fault (Nat × Nat) :=
  getVarintFrom bytes maxBytes 0 0 pos

def numberError : Varint.Unread → Fault
  | .truncated => .error (.corruption "a footer row number is truncated")
  | .overlong => .error (.corruption "a footer row number runs past ten bytes")

section numbers
variable {bytes : Str} (hbytes : bytes.length < 2 ^ 64)
include hbytes

theorem getVarintFrom_eq (n shift value pos : Nat) : getVarintFrom bytes n shift value pos =
    (getFrom bytes n shift value pos).mapError numberError := by
  induction n generalizing shift value pos with
  | zero => rfl
  | succ n ih =>
    rw [getVarintFrom, getFrom]
    cases hbyte : bytes[pos]? with
    | none => rfl
    | some byte =>
      have hpos : pos < bytes.length := (List.getElem?_eq_some_iff.mp hbyte).1
      have hnext : usize (pos + 1) = .ok (pos + 1) := usize_eq_ok.mpr ⟨by omega, rfl⟩
      simp only [hnext]
      by_cases hlast : byte.val < 128
      · simp only [if_pos hlast]; rfl
      · simp only [if_neg hlast]; exact ih _ _ _

theorem getVarint_eq (pos : Nat) :
    getVarint bytes pos = (Varint.get bytes pos).mapError numberError := getVarintFrom_eq hbytes _ _ _ _

theorem getVarint_eq_ok {pos value next : Nat} :
    getVarint bytes pos = .ok (value, next) ↔ Varint.get bytes pos = .ok (value, next) := by
  rw [getVarint_eq hbytes]
  cases Varint.get bytes pos <;> simp [Except.mapError]

end numbers

def cut (start fin : Nat) : Option Str :=
  if start ≤ fin ∧ fin ≤ bytes.length then some ((bytes.take fin).drop start) else none

theorem cut_eq_some {bytes out : Str} {start fin : Nat} :
    cut bytes start fin = some out ↔ (start ≤ fin ∧ fin ≤ bytes.length) ∧ (bytes.take fin).drop start = out := by
  unfold cut
  split_ifs with h
  · rw [Option.some.injEq, and_iff_right h]
  · exact iff_of_false (by simp) fun hand => h hand.1

def orCorrupt {α : Type} (message : String) : Option α → Except Fault α
  | some found => .ok found
  | none => corrupt message

@[simp] theorem orCorrupt_eq_ok {α : Type} {message : String} {found : Option α} {a : α} :
    orCorrupt message found = .ok a ↔ found = some a := by
  cases found <;> simp [orCorrupt, corrupt]

def entryTail (lsn offset len : Nat) (flags : Byte) : Whole :=
  padTo tailCap (toLe 8 lsn ++ toLe 4 offset ++ toLe 4 len ++ [flags])

/-- Rebuild the whole tail that `putTail` wrote, and the position behind it. -/
def getTail (shape : Tail) (before : Whole) : Except Fault (Whole × Nat) :=
  match shape with
  | .raw len => do
    let fin ← usize (pos + len.val)
    let raw ← orCorrupt "footer row tail is truncated" (cut bytes pos fin)
    return (padTo tailCap raw, fin)
  | .entry => do
    let flags ← orCorrupt "footer row tail is truncated" bytes[pos]?
    let pos ← usize (pos + 1)
    let (len, pos) ← getVarint bytes pos
    if 2 ^ 32 ≤ len then corrupt "a footer row length is past four bytes" else
    let (delta, pos) ← getVarint bytes pos
    let offset ← i64 (u32At before offsetAt + unzigzag delta)
    if offset < 0 ∨ 2 ^ 32 ≤ offset then corrupt "a footer row offset is out of range" else
    let (delta, pos) ← getVarint bytes pos
    let lsn := wrappingAdd (u64At before 0) (unzigzag delta)
    return (entryTail lsn offset.toNat len flags, pos)

structure Row where
  shared : Nat
  suffix : Str
  tail : Whole
  next : Nat
  deriving DecidableEq, Repr

/-- One row off packed bytes, its tail read against the row before it in its block. -/
def readRow (shape : Tail) (before : Whole) : Except Fault Row := do
  let (shared, next) ← getVarint bytes pos
  let (suffixLen, next) ← getVarint bytes next
  let fin ← usize (next + suffixLen)
  let suffix ← orCorrupt "footer row suffix is truncated" (cut bytes next fin)
  let (tail, next) ← getTail bytes fin shape before
  return ⟨shared, suffix, tail, next⟩

def Row.keyOn (row : Row) (key : Str) : Except Fault Str :=
  if key.length < row.shared then corrupt "a footer row shares more than the key before it holds"
  else .ok (key.take row.shared ++ row.suffix)

/-- A walk over the rows, holding the key it sits on. -/
structure PrefixCursor where
  rows : PrefixRows
  pos : Nat
  index : Nat
  key : Str
  tail : Whole
  deriving DecidableEq, Repr

namespace PrefixCursor

def new (rows : PrefixRows) : PrefixCursor := ⟨rows, 0, 0, [], noTail⟩

def tailOf (c : PrefixCursor) : Str := c.tail.take c.rows.tail.len

def advance (c : PrefixCursor) : Except Fault (Bool × PrefixCursor) :=
  if c.rows.rows ≤ c.index then .ok (false, c)
  else do
    -- a restart row holds its numbers whole, so it reads against nothing
    let before := if c.index % restartInterval = 0 then noTail else c.tail
    let row ← readRow c.rows.packed c.pos c.rows.tail before
    let key ← row.keyOn c.key
    let index ← usize (c.index + 1)
    return (true, { c with key, tail := row.tail, pos := row.next, index })

end PrefixCursor

/-- One footer row's record fields, without its key. -/
structure FooterRow where
  lsn : Nat
  offset : Nat
  len : Nat
  flags : Flags
  deriving DecidableEq, Repr

def noRow : FooterRow := ⟨0, 0, 0, .data⟩

def fromFlags (byte : Byte) : Except Fault Flags := (Flags.fromBits byte).mapError .error

/-- Reads a packed partition's rows in place, resuming from its last row or a restart. -/
structure PackedCursor where
  row : Option Nat
  next : Nat
  key : Str
  found : FooterRow
  deriving DecidableEq, Repr

namespace PackedCursor

def start : PackedCursor := ⟨none, 0, [], noRow⟩

def badRow : String := "a packed footer row does not decode"

variable (c : PackedCursor) (bytes : Str)

/-- Decode the row at `next` against the row the cursor holds. -/
def step : Except Fault PackedCursor := do
  let (shared, pos) ← getVarint bytes c.next
  let (suffixLen, pos) ← getVarint bytes pos
  let fin ← usize (pos + suffixLen)
  let suffix ← orCorrupt badRow (cut bytes pos fin)
  if c.key.length < shared then corrupt badRow else
  let flags ← orCorrupt badRow bytes[fin]?
  let pos ← usize (fin + 1)
  let (len, pos) ← getVarint bytes pos
  if 2 ^ 32 ≤ len then corrupt badRow else
  let (delta, pos) ← getVarint bytes pos
  let offset ← i64 (c.found.offset + unzigzag delta)
  if offset < 0 ∨ 2 ^ 32 ≤ offset then corrupt badRow else
  let (delta, pos) ← getVarint bytes pos
  let lsn := wrappingAdd c.found.lsn (unzigzag delta)
  let flags ← fromFlags flags
  return ⟨c.row, pos, c.key.take shared ++ suffix, ⟨lsn, offset.toNat, len, flags⟩⟩

def stepRow (c : PackedCursor) : Except Fault PackedCursor := do
  let stepped ← c.step bytes
  let row ← usize (c.row.getD 0 + 1)
  return { stepped with row := some row }

def resumes (row : Nat) : Bool :=
  c.row.any fun held => held ≤ row && held / restartInterval == row / restartInterval

/-- A cursor put on the first row of a block. -/
def restartAt (restart : Nat → Option Nat) (row : Nat) : Except Fault PackedCursor := do
  let block := row / restartInterval
  let pos ← orCorrupt s!"a packed footer has no restart for row {row}" (restart block)
  -- a restart row holds its whole key and its numbers against nothing
  let stepped ← step ⟨none, pos, [], noRow⟩ bytes
  let first ← usize (block * restartInterval)
  return { stepped with row := some first }

def held (restart : Nat → Option Nat) (row : Nat) :
    Except Fault PackedCursor :=
  if c.resumes row then .ok c else restartAt bytes restart row

def isBelow (row : Nat) (c : PackedCursor) : Bool := c.row.any (· < row)

def read (restart : Nat → Option Nat) (row : Nat) :
    Except Fault PackedCursor := do
  let first ← c.held bytes restart row
  Loop.run (isBelow row) (stepRow bytes) row first

end PackedCursor

def trailerLen : Nat := 8

/-- Rows rebuilt so far: how many, their bytes, where each starts, the last one's key and tail and where
the next one lies. -/
structure Unpacked where
  index : Nat
  packed : Str
  starts : List Nat
  key : Str
  before : Whole
  pos : Nat
  deriving DecidableEq, Repr

namespace Unpacked

def start (starts : List Nat) : Unpacked := ⟨0, [], starts, [], noTail, 0⟩

def add (u : Unpacked) (shape : Tail) (row : Row) (key : Str) (keepsStart : Bool) : Unpacked :=
  let packed := u.packed ++ key ++ row.tail.take shape.len
  { index := u.index + 1
    packed
    starts := if keepsStart then u.starts ++ [packed.length % 2 ^ 32] else u.starts
    key
    before := row.tail
    pos := row.next }

def against (u : Unpacked) : Whole := if u.index % restartInterval = 0 then noTail else u.before

def blockRow (bytes : Str) (shape : Tail) (u : Unpacked) : Except Fault Unpacked := do
  let row ← readRow bytes u.pos shape u.against
  if u.pos = 0 ∧ row.shared ≠ 0 then corrupt "a restart row does not carry its whole key" else
  let key ← row.keyOn u.key
  let _ ← usize (u.index + 1)
  return u.add shape row key true

end Unpacked

def unpackBlock (shape : Tail) : Except Fault (Str × List Nat) := do
  let _ ← usize (bytes.length * 2)
  let u ← Loop.run (fun u => u.pos < bytes.length) (Unpacked.blockRow bytes shape) bytes.length (.start [0])
  return (u.packed, u.starts)

/-- Where an encoded block's rows end and how many it says it holds, checked. -/
structure Frame where
  rowsEnd : Nat
  restarts : Nat
  rows : Nat
  deriving DecidableEq, Repr

def wordAt (start : Nat) : Nat := fromLe ((bytes.drop start).take 4)

theorem fromLe_take_lt (width start : Nat) : fromLe ((bytes.drop start).take width) < 256 ^ width := by
  have hlen : ((bytes.drop start).take width).length ≤ width := length_take_le _ _
  exact (fromLe_lt _).trans_le (Nat.pow_le_pow_right (by decide) hlen)

theorem wordAt_lt (start : Nat) : wordAt bytes start < 2 ^ 32 := fromLe_take_lt bytes 4 start
theorem u32At_lt (tail : Whole) (start : Nat) : u32At tail start < 2 ^ 32 := fromLe_take_lt tail 4 start
theorem u64At_lt (tail : Whole) (start : Nat) : u64At tail start < 2 ^ 64 := fromLe_take_lt tail 8 start

theorem wordAt_past {front rest : Str} {pos : Nat} (start : Nat) (h : pos = front.length + start) :
    wordAt (front ++ rest) pos = wordAt rest start := by
  rw [h, wordAt, wordAt, drop_append, drop_of_length_le (by omega), Nat.add_sub_cancel_left, nil_append]

theorem wordAt_toLe {word : Nat} (h : word < 2 ^ 32) (rest : Str) : wordAt (toLe 4 word ++ rest) 0 = word := by
  have htake : (toLe 4 word ++ rest).take 4 = toLe 4 word := take_left' (toLe_length 4 word)
  rw [wordAt, drop_zero, htake, fromLe_toLe h]

theorem wordAt_flatMap {words : List Nat} (h : ∀ w ∈ words, w < 2 ^ 32) (rest : Str) {k : Nat}
    (hk : k < words.length) : wordAt (words.flatMap (toLe 4) ++ rest) (k * 4) = words[k] := by
  induction words generalizing k with
  | nil => cases hk
  | cons w words ih =>
    rw [flatMap_cons, append_assoc]
    cases k with
    | zero =>
      rw [Nat.zero_mul, wordAt_toLe (h w (by simp))]
      rfl
    | succ k =>
      have hlen := toLe_length 4 w
      rw [wordAt_past (k * 4) (show (k + 1) * 4 = (toLe 4 w).length + k * 4 by omega)]
      exact ih (fun v hv => h v (by simp [hv])) (by simpa using hk)

theorem length_words (words : List Nat) : (words.flatMap (toLe 4)).length = words.length * 4 := by
  induction words with
  | nil => rfl
  | cons w words ih =>
    rw [flatMap_cons, length_append, ih, toLe_length, length_cons]
    omega

namespace Frame

def restart (frame : Frame) (bytes : Str) (index : Nat) : Except Fault Nat := do
  let skipped ← usize (index * 4)
  let start ← usize (frame.rowsEnd + skipped)
  let _ ← usize (start + 4)
  return wordAt bytes start

def checkRestarts (frame : Frame) (bytes : Str) : Nat → Nat → Except Fault Unit
  | 0, _ => .ok ()
  | n + 1, index => do
    let offset ← frame.restart bytes index
    if frame.rowsEnd < offset then corrupt "a packed row restart points past the rows" else
    checkRestarts frame bytes n (index + 1)

/-- Check the trailer and every restart offset against the bytes they sit in. -/
def read (bytes : Str) : Except Fault Frame := do
  if bytes.length < trailerLen then corrupt "a packed row block has no trailer" else
  let trailerAt := bytes.length - trailerLen
  let restarts := wordAt bytes trailerAt
  let rows := wordAt bytes (trailerAt + 4)
  let held ← usize (restarts * 4)
  if trailerAt < held then corrupt "a packed row block claims more restarts than it holds" else
  -- the restarts must match the row count, or a search bisects the wrong array
  if restarts ≠ (rows + restartInterval - 1) / restartInterval then
    corrupt s!"a packed row block holds {rows} rows under {restarts} restarts"
  else
  let frame : Frame := ⟨trailerAt - held, restarts, rows⟩
  frame.checkRestarts bytes restarts 0
  return frame

end Frame

abbrev Stride := Fin (2 ^ 16 + entryTailLen)

namespace Unpacked

def openRow (frame : Frame) (bytes : Str) (u : Unpacked) : Except Fault Whole :=
  if u.index % restartInterval = 0 then do
    let start ← frame.restart bytes (u.index / restartInterval)
    if start ≠ u.pos then corrupt "a packed row restart does not open the row it counts"
    else return noTail
  else .ok u.before

/-- A strided partition's rows are each as long as it strides by. -/
def checkStride (rowLen : Option Stride) (u : Unpacked) : Except Fault Unit :=
  match rowLen with
  | none => .ok ()
  | some len => do
    let wanted ← usize (u.index * len.val)
    if u.packed.length ≠ wanted then corrupt "a packed row is not the width its partition strides by"
    else return ()

/-- Rebuild the row an encoded block holds next. -/
def wholeRow (frame : Frame) (bytes : Str) (shape : Tail) (rowLen : Option Stride) (u : Unpacked) :
    Except Fault Unpacked := do
  let before ← u.openRow frame bytes
  let row ← readRow (bytes.take frame.rowsEnd) u.pos shape before
  let key ← row.keyOn u.key
  if u.index % restartInterval = 0 ∧ row.shared ≠ 0 then
    corrupt "a footer row shares more than the key before it holds"
  else
  let _ ← usize (u.index + 1)
  let u := u.add shape row key rowLen.isNone
  u.checkStride rowLen
  return u

end Unpacked

def capacity (frame : Frame) : Option Stride → Except Fault Nat
  | some len => usize (len.val * frame.rows)
  | none => do
    let _ ← usize (frame.rows + 1)
    usize (frame.rowsEnd * 2)

/-- Rebuild an encoded block's rows whole, strided with no starts when `rowLen` is set. -/
def unpack (shape : Tail) (rowLen : Option Stride) :
    Except Fault (Str × List Nat × Nat) := do
  let frame ← Frame.read bytes
  let _ ← capacity frame rowLen
  let u ← Loop.run (fun u => u.index < frame.rows) (Unpacked.wholeRow frame bytes shape rowLen) frame.rows
    (.start (if rowLen.isNone then [0] else []))
  if u.pos ≠ frame.rowsEnd then corrupt "a packed row block holds bytes past its last row"
  else return (u.packed, u.starts, frame.rows)

end Reel.Footer
