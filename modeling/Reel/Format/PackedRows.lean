import Reel.Format.Prefix

/-!
How a list of rows lies once packed, said row by row: each row's bytes depend only on the row before it,
so a block of sixteen rows lies the same wherever it starts. Pushing the rows lays them so, and a row
read where it lies gives back its key's suffix and its tail.
-/

set_option autoImplicit false

namespace Reel.Footer
open Bytes List Varint

section layout
variable (shape : Tail) (rows : List PushedRow)

def rowAt (k : Nat) : PushedRow := rows.getD k ⟨[], []⟩

def lastKey : Nat → Str
  | 0 => []
  | k + 1 => (rowAt rows k).key

def lastTail : Nat → Whole
  | 0 => noTail
  | k + 1 => padTo tailCap (rowAt rows k).tail

def sharedAt (k : Nat) : Nat :=
  if k % restartInterval = 0 then 0 else sharedPrefix (lastKey rows k) (rowAt rows k).key

def beforeAt (k : Nat) : Whole := if k % restartInterval = 0 then noTail else lastTail rows k

def suffixAt (k : Nat) : Str := (rowAt rows k).key.drop (sharedAt rows k)

def rowBytes (k : Nat) : Str :=
  Varint.put (sharedAt rows k) ++ Varint.put (suffixAt rows k).length ++ suffixAt rows k ++
    putTail shape (rowAt rows k).tail (beforeAt rows k)

def packedTo (k : Nat) : Str := (range k).flatMap (rowBytes shape rows)

def restartsTo (k : Nat) : List Nat :=
  ((range k).filter (· % restartInterval = 0)).map fun i => (packedTo shape rows i).length % 2 ^ 32

def wholeTo (k : Nat) : Str := (range k).flatMap fun i => (rowAt rows i).key ++ (rowAt rows i).tail

def startsTo (k : Nat) : List Nat := (range (k + 1)).map fun i => (wholeTo rows i).length % 2 ^ 32

def pushedTo (k : Nat) : PrefixRows :=
  ⟨packedTo shape rows k, restartsTo shape rows k, k, lastKey rows k, lastTail rows k, shape⟩

/-- Rows a writer may push: in key order, each tail as wide as the rows declare. -/
structure Pushable : Prop where
  sorted : ∀ k < rows.length, lastKey rows k ≤ (rowAt rows k).key
  width : ∀ k < rows.length, (rowAt rows k).tail.length = shape.len

end layout

variable {shape : Tail} {rows : List PushedRow}

theorem wholeTo_succ (rows : List PushedRow) (k : Nat) :
    wholeTo rows (k + 1) = wholeTo rows k ++ (rowAt rows k).key ++ (rowAt rows k).tail := by
  simp [wholeTo, range_succ]

theorem startsTo_succ (rows : List PushedRow) (k : Nat) :
    startsTo rows (k + 1) = startsTo rows k ++ [(wholeTo rows (k + 1)).length % 2 ^ 32] := by
  simp [startsTo, range_succ]

theorem packedTo_succ (shape : Tail) (rows : List PushedRow) (k : Nat) :
    packedTo shape rows (k + 1) = packedTo shape rows k ++ rowBytes shape rows k := by
  simp [packedTo, range_succ]

theorem restartsTo_succ (shape : Tail) (rows : List PushedRow) (k : Nat) :
    restartsTo shape rows (k + 1) = if k % restartInterval = 0
      then restartsTo shape rows k ++ [(packedTo shape rows k).length % 2 ^ 32]
      else restartsTo shape rows k := by
  by_cases h : k % restartInterval = 0 <;> simp [restartsTo, range_succ, h]

theorem packedTo_le (shape : Tail) (rows : List PushedRow) {j k : Nat} (h : j ≤ k) :
    (packedTo shape rows j).length ≤ (packedTo shape rows k).length := by
  induction k, h using Nat.le_induction with
  | base => exact le_refl _
  | succ k _ ih =>
    rw [packedTo_succ, length_append]
    omega

theorem tail_over_zeros {shape : Tail} {tail before : Str} (htail : tail.length = shape.len)
    (hbefore : before.drop shape.len = replicate (tailCap - shape.len) 0) :
    tail ++ before.drop tail.length = padTo tailCap tail := by
  have hle := shape.len_le
  rw [htail, hbefore, padTo, htail, take_of_length_le (by omega)]

theorem drop_lastTail (h : Pushable shape rows) {k : Nat} (hk : k ≤ rows.length) :
    (lastTail rows k).drop shape.len = replicate (tailCap - shape.len) 0 := by
  have hle := shape.len_le
  cases k with
  | zero => simp [lastTail, noTail]
  | succ k =>
    have hwidth := h.width k (by omega)
    rw [lastTail, padTo, take_of_length_le (by omega), hwidth, drop_append, hwidth,
      Nat.sub_self, drop_zero, drop_of_length_le (by omega), nil_append]

theorem push_pushedTo (h : Pushable shape rows) {k : Nat} (hk : k < rows.length) :
    (pushedTo shape rows k).push (rowAt rows k).key (rowAt rows k).tail = .ok (pushedTo shape rows (k + 1)) := by
  have horder : ¬ (0 < (pushedTo shape rows k).rows ∧ (rowAt rows k).key < (pushedTo shape rows k).last) := by
    rintro ⟨-, hlt⟩
    exact absurd hlt (not_lt.mpr (h.sorted k hk))
  have hwidth : ¬ (rowAt rows k).tail.length ≠ (pushedTo shape rows k).tail.len := not_not.mpr (h.width k hk)
  have hbefore : (beforeAt rows k).drop shape.len = replicate (tailCap - shape.len) 0 := by
    unfold beforeAt
    split
    · simp [noTail]
    · exact drop_lastTail h hk.le
  have hpacked : packedTo shape rows (k + 1) = packedTo shape rows k ++ Varint.put (sharedAt rows k) ++
      Varint.put (suffixAt rows k).length ++ suffixAt rows k ++
      putTail shape (rowAt rows k).tail (beforeAt rows k) := by
    rw [packedTo_succ]
    simp only [rowBytes, append_assoc]
  have hlast : lastTail rows (k + 1) = (rowAt rows k).tail ++ (beforeAt rows k).drop (rowAt rows k).tail.length :=
    (tail_over_zeros (h.width k hk) hbefore).symm
  rw [PrefixRows.push, if_neg horder, if_neg hwidth]
  refine congrArg Except.ok ?_
  rw [pushedTo.eq_def shape rows (k + 1), hpacked, hlast, restartsTo_succ]
  rfl

theorem drop_eq_rowAt_cons {k : Nat} (hk : k < rows.length) : rows.drop k = rowAt rows k :: rows.drop (k + 1) := by
  rw [drop_eq_getElem_cons hk, rowAt, getD_eq_getElem _ _ hk]

theorem pushAll_eq (h : Pushable shape rows) :
    (PrefixRows.new shape).pushAll rows = .ok (pushedTo shape rows rows.length) := by
  have hrest : ∀ j k, k + j = rows.length → (pushedTo shape rows k).pushAll (rows.drop k) =
      .ok (pushedTo shape rows rows.length) := by
    intro j
    induction j with
    | zero =>
      intro k hk
      rw [← hk, Nat.add_zero, drop_of_length_le (by omega)]
      rfl
    | succ j ih =>
      intro k hk
      rw [drop_eq_rowAt_cons (by omega), PrefixRows.pushAll, foldlM_cons, push_pushedTo h (by omega)]
      exact ih (k + 1) (by omega)
  exact hrest rows.length 0 (by omega)

theorem take_sharedPrefix (left right : Str) :
    left.take (sharedPrefix left right) = right.take (sharedPrefix left right) := by
  induction left generalizing right with
  | nil => simp [sharedPrefix]
  | cons a left ih =>
    cases right with
    | nil => simp [sharedPrefix]
    | cons b right =>
      rw [sharedPrefix]
      split
      · next heq => rw [take_succ_cons, take_succ_cons, heq, ih]
      · rfl

theorem sharedPrefix_le (left right : Str) :
    sharedPrefix left right ≤ left.length ∧ sharedPrefix left right ≤ right.length := by
  induction left generalizing right with
  | nil => simp [sharedPrefix]
  | cons a left ih =>
    cases right with
    | nil => simp [sharedPrefix]
    | cons b right =>
      have := ih right
      rw [sharedPrefix]
      split
      · simp only [length_cons]; omega
      · simp

theorem key_rebuilt (rows : List PushedRow) (k : Nat) :
    sharedAt rows k ≤ (lastKey rows k).length ∧
      (lastKey rows k).take (sharedAt rows k) ++ suffixAt rows k = (rowAt rows k).key := by
  unfold suffixAt sharedAt
  split
  · simp
  · refine ⟨(sharedPrefix_le _ _).1, ?_⟩
    rw [take_sharedPrefix, take_append_drop]

theorem drop_past {bytes front rest : Str} {pos : Nat} (h : bytes.drop pos = front ++ rest) :
    bytes.drop (pos + front.length) = rest := by
  rw [← drop_drop, h, drop_left]

section
variable {bytes front rest : Str} {pos : Nat} (hpos : pos ≤ bytes.length)
  (h : bytes.drop pos = front ++ rest)
include hpos h

theorem room_of_drop : pos + front.length ≤ bytes.length := by
  have hlen := congrArg length h
  rw [length_drop, length_append] at hlen
  omega

theorem cut_of_drop : cut bytes pos (pos + front.length) = some front := by
  have hroom := room_of_drop hpos h
  refine cut_eq_some.mpr ⟨⟨by omega, hroom⟩, ?_⟩
  rw [drop_take, h, Nat.add_sub_cancel_left, take_left]

end

theorem asI64_bounds {word : Nat} (h : word < 2 ^ 64) : -2 ^ 63 ≤ asI64 word ∧ asI64 word < 2 ^ 63 := by
  unfold asI64
  split <;> omega

theorem wrappingAdd_difference {a b : Nat} (ha : a < 2 ^ 64) (hb : b < 2 ^ 64) :
    wrappingAdd b (asI64 (wrappingSub a b)) = a := by
  unfold wrappingAdd asI64 wrappingSub
  split <;> omega

theorem entryTail_eq {tail : Str} (h : tail.length = entryTailLen) :
    entryTail (u64At tail 0) (u32At tail offsetAt) (u32At tail lenAt) (tail.getD flagsAt 0) =
      padTo tailCap tail := by
  have hlen : tail.length = 17 := h
  have hfield : ∀ start n, start + n ≤ 17 →
      toLe n (fromLe ((tail.drop start).take n)) = (tail.drop start).take n := by
    intro start n hn
    have htaken : ((tail.drop start).take n).length = n := by
      rw [length_take, length_drop]
      omega
    have hback := toLe_fromLe ((tail.drop start).take n)
    rwa [htaken] at hback
  have hflags : [tail.getD flagsAt 0] = tail.drop 16 := by
    rw [drop_eq_getElem_cons (by omega), drop_of_length_le (by omega), flagsAt,
      getD_eq_getElem _ _ (by omega)]
  have hwhole : toLe 8 (u64At tail 0) ++ toLe 4 (u32At tail offsetAt) ++ toLe 4 (u32At tail lenAt) ++
      [tail.getD flagsAt 0] = tail := by
    rw [u64At, u32At, u32At, hfield 0 8 (by omega), hfield offsetAt 4 (by decide), hfield lenAt 4 (by decide),
      hflags]
    calc (tail.drop 0).take 8 ++ (tail.drop 8).take 4 ++ (tail.drop 12).take 4 ++ tail.drop 16
        = tail.take 8 ++ ((tail.drop 8).take 4 ++ ((tail.drop 12).take 4 ++ (tail.drop 12).drop 4)) := by
          rw [drop_drop]; simp only [drop_zero, append_assoc]
      _ = tail.take 8 ++ ((tail.drop 8).take 4 ++ (tail.drop 8).drop 4) := by
          rw [take_append_drop, drop_drop]
      _ = tail := by rw [take_append_drop, take_append_drop]
  rw [entryTail, hwhole]

section reading
variable {bytes rest : Str} {pos : Nat} (hbytes : bytes.length < 2 ^ 64) (hpos : pos ≤ bytes.length)
include hbytes

theorem getVarint_put {value : Nat} (hvalue : value < 2 ^ 64) (h : bytes.drop pos = Varint.put value ++ rest) :
    getVarint bytes pos = .ok (value, pos + (Varint.put value).length) :=
  (getVarint_eq_ok hbytes).mpr (get_put hvalue h)

include hpos

theorem getTail_putTail {tail before : Str} (htail : tail.length = shape.len)
    (h : bytes.drop pos = putTail shape tail before ++ rest) :
    getTail bytes pos shape before = .ok (padTo tailCap tail, pos + (putTail shape tail before).length) := by
  have hroom := room_of_drop hpos h
  cases shape with
  | raw len =>
    have hlen : tail.length = len.val := htail
    have hfin : usize (pos + len.val) = .ok (pos + tail.length) :=
      usize_eq_ok.mpr ⟨by simp only [putTail] at hroom; omega, by rw [hlen]⟩
    have hcut : cut bytes pos (pos + tail.length) = some tail := cut_of_drop hpos h
    rw [getTail, hfin]
    simp only [bind, Except.bind, hcut, orCorrupt]
    rfl
  | entry =>
    have hlen := u32At_lt tail lenAt
    have hoffset := u32At_lt tail offsetAt
    have hbase := u32At_lt before offsetAt
    have hdelta : zigzag (u32At tail offsetAt - u32At before offsetAt : Int) < 2 ^ 64 :=
      zigzag_lt (by omega) (by omega)
    have hword : wrappingSub (u64At tail 0) (u64At before 0) < 2 ^ 64 := Nat.mod_lt _ (by decide)
    have hlsn : zigzag (asI64 (wrappingSub (u64At tail 0) (u64At before 0))) < 2 ^ 64 :=
      zigzag_lt (asI64_bounds hword).1 (asI64_bounds hword).2
    simp only [putTail, cons_append, append_assoc] at h
    obtain ⟨hflags, h₁⟩ := getElem?_of_drop h
    have h₂ := drop_past h₁
    have h₃ := drop_past h₂
    have hnext : usize (pos + 1) = .ok (pos + 1) :=
      usize_eq_ok.mpr ⟨by simp only [putTail, length_cons, length_append] at hroom; omega, rfl⟩
    have hsum : (u32At before offsetAt : Int) + (u32At tail offsetAt - u32At before offsetAt) =
        u32At tail offsetAt := by omega
    have hkept : i64 (u32At tail offsetAt : Int) = .ok (u32At tail offsetAt : Int) :=
      i64_eq_ok.mpr ⟨⟨by omega, by omega⟩, rfl⟩
    have hshort : ¬ 2 ^ 32 ≤ u32At tail lenAt := by omega
    have hrange : ¬ ((u32At tail offsetAt : Int) < 0 ∨ (2 : Int) ^ 32 ≤ u32At tail offsetAt) := by omega
    have hback := wrappingAdd_difference (u64At_lt tail 0) (u64At_lt before 0)
    simp only [getTail, hflags, orCorrupt, bind, Except.bind, hnext, getVarint_put hbytes (by omega) h₁,
      if_neg hshort, getVarint_put hbytes hdelta h₂, unzigzag_zigzag, hsum, hkept, if_neg hrange,
      getVarint_put hbytes hlsn h₃, hback, Int.toNat_natCast, entryTail_eq htail]
    refine congrArg (fun fin => Except.ok (padTo tailCap tail, fin)) ?_
    simp only [putTail, length_cons, length_append]
    omega

theorem readRow_rowBytes {k : Nat} (hwidth : (rowAt rows k).tail.length = shape.len)
    (hshared : sharedAt rows k < 2 ^ 64) (h : bytes.drop pos = rowBytes shape rows k ++ rest) :
    readRow bytes pos shape (beforeAt rows k) =
      .ok ⟨sharedAt rows k, suffixAt rows k, padTo tailCap (rowAt rows k).tail,
        pos + (rowBytes shape rows k).length⟩ := by
  have hroom := room_of_drop hpos h
  simp only [rowBytes, length_append] at hroom
  simp only [rowBytes, append_assoc] at h
  have h₁ := drop_past h
  have h₂ := drop_past h₁
  have h₃ := drop_past h₂
  have hfin : usize (pos + (Varint.put (sharedAt rows k)).length + (Varint.put (suffixAt rows k).length).length +
      (suffixAt rows k).length) = .ok _ := usize_eq_ok.mpr ⟨by omega, rfl⟩
  have hcut := cut_of_drop (by omega) h₂
  have htail := getTail_putTail hbytes (by omega) hwidth h₃
  simp only [readRow, bind, Except.bind, getVarint_put hbytes hshared h, getVarint_put hbytes (by omega) h₁, hfin,
    hcut, orCorrupt, htail]
  refine congrArg (fun fin => Except.ok (Row.mk (sharedAt rows k) (suffixAt rows k)
    (padTo tailCap (rowAt rows k).tail) fin)) ?_
  simp only [rowBytes, length_append]
  omega

end reading

theorem rowBytes_pos (shape : Tail) (rows : List PushedRow) (k : Nat) : 0 < (rowBytes shape rows k).length := by
  have := put_length_pos (sharedAt rows k)
  simp only [rowBytes, length_append]
  omega

theorem packedTo_split (shape : Tail) (rows : List PushedRow) {j k : Nat} (h : j ≤ k) :
    ∃ rest, packedTo shape rows k = packedTo shape rows j ++ rest := by
  induction k, h using Nat.le_induction with
  | base => exact ⟨[], (append_nil _).symm⟩
  | succ k _ ih =>
    obtain ⟨rest, heq⟩ := ih
    exact ⟨rest ++ rowBytes shape rows k, by rw [packedTo_succ, heq, append_assoc]⟩

theorem drop_packedTo (shape : Tail) (rows : List PushedRow) {k n : Nat} (h : k < n) (more : Str) :
    ∃ rest, (packedTo shape rows n ++ more).drop (packedTo shape rows k).length =
      rowBytes shape rows k ++ rest := by
  obtain ⟨rest, heq⟩ := packedTo_split shape rows (Nat.succ_le_of_lt h)
  refine ⟨rest ++ more, ?_⟩
  rw [heq, packedTo_succ, append_assoc, append_assoc, drop_left]

theorem le_packedTo (shape : Tail) (rows : List PushedRow) (k : Nat) : k ≤ (packedTo shape rows k).length := by
  induction k with
  | zero => exact Nat.zero_le _
  | succ k ih =>
    have := rowBytes_pos shape rows k
    rw [packedTo_succ, length_append]
    omega

theorem lastKey_le (shape : Tail) (rows : List PushedRow) (k : Nat) :
    (lastKey rows k).length ≤ (packedTo shape rows k).length := by
  induction k with
  | zero => exact Nat.zero_le _
  | succ k ih =>
    have hkey := congrArg length (key_rebuilt rows k).2
    rw [length_append, length_take] at hkey
    rw [packedTo_succ, lastKey, length_append]
    simp only [rowBytes, length_append]
    omega

theorem readRow_packedTo (h : Pushable shape rows) {more : Str}
    (hbytes : (packedTo shape rows rows.length ++ more).length < 2 ^ 64) {k : Nat} (hk : k < rows.length) :
    readRow (packedTo shape rows rows.length ++ more) (packedTo shape rows k).length shape (beforeAt rows k) =
      .ok ⟨sharedAt rows k, suffixAt rows k, padTo tailCap (rowAt rows k).tail,
        (packedTo shape rows (k + 1)).length⟩ := by
  obtain ⟨rest, hdrop⟩ := drop_packedTo shape rows hk more
  have hle := packedTo_le shape rows hk.le
  rw [length_append] at hbytes
  have hshared : sharedAt rows k < 2 ^ 64 := by
    have := (key_rebuilt rows k).1
    have := lastKey_le shape rows k
    omega
  rw [readRow_rowBytes (by rwa [length_append]) (by rw [length_append]; omega) (h.width k hk) hshared hdrop,
    packedTo_succ, length_append]

theorem keyOn_rowAt (rows : List PushedRow) (k : Nat) (tail : Whole) (next : Nat) :
    (Row.mk (sharedAt rows k) (suffixAt rows k) tail next).keyOn (lastKey rows k) = .ok (rowAt rows k).key := by
  obtain ⟨hle, hkey⟩ := key_rebuilt rows k
  rw [Row.keyOn, if_neg (by simp only; omega), hkey]

theorem take_padTo {shape : Tail} {tail : Str} (h : tail.length = shape.len) :
    (padTo tailCap tail).take shape.len = tail := by
  have hle := shape.len_le
  rw [padTo, take_of_length_le (l := tail) (by omega), ← h, take_left]

end Reel.Footer
