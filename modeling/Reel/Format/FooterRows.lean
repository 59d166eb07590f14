import Reel.Format.Footer
import Reel.Format.Readers

/-!
A partition holds a list of entries: their rows lie one behind the other, with a start per row where their
keys differ in width. Every read of a partition answers from that list, a push adds to it, and a sort
rearranges it into key order with each key's versions by sequence number.
-/

set_option autoImplicit false

namespace Reel.Footer
open Bytes List

namespace FooterEntry

variable (entry : FooterEntry)

def row : PushedRow := ⟨entry.keyBytes, entry.tailBytes⟩

def room : Nat := entry.keyBytes.length + entryTailLen

@[simp] theorem tailBytes_length : entry.tailBytes.length = entryTailLen := by
  simp [tailBytes, toLe_length, entryTailLen]

theorem width_val : entry.width.val = entry.keyBytes.length := by
  have hle : entry.keyBytes.length ≤ 1056 := entry.key.key.width_le
  exact Nat.mod_eq_of_lt (by omega)

theorem width_ne_varying : entry.width ≠ varyingWidth := by
  have hle : entry.keyBytes.length ≤ 1056 := entry.key.key.width_le
  have hval := entry.width_val
  intro heq
  rw [heq] at hval
  simp only [varyingWidth] at hval
  omega

/-- In key order, a key's versions by sequence number. -/
def Before (a b : FooterEntry) : Prop := a.keyBytes < b.keyBytes ∨ a.keyBytes = b.keyBytes ∧ a.lsn ≤ b.lsn

theorem Before.key_le {a b : FooterEntry} (h : a.Before b) : a.keyBytes ≤ b.keyBytes := by
  rcases h with h | ⟨h, -⟩
  · exact h.le
  · exact h.le

theorem u64At_row :
    u64At (entry.keyBytes ++ entry.tailBytes) entry.keyBytes.length = entry.lsn.toNat := by
  have htake : ((entry.keyBytes ++ entry.tailBytes).drop entry.keyBytes.length).take 8 = toLe 8 entry.lsn.toNat := by
    rw [drop_left, tailBytes, append_assoc, append_assoc]
    exact take_left' (toLe_length 8 _)
  rw [u64At, htake, fromLe_toLe entry.lsn.toNat_lt]

theorem u32At_tail (start : Nat) :
    u32At (entry.keyBytes ++ entry.tailBytes) (entry.keyBytes.length + start) = wordAt entry.tailBytes start := by
  rw [u32At, ← drop_drop, drop_left, wordAt]

theorem wordAt_tail :
    wordAt entry.tailBytes offsetAt = entry.offset.toNat ∧ wordAt entry.tailBytes lenAt = entry.len.toNat := by
  have hlsn := toLe_length 8 entry.lsn.toNat
  have hoffset := toLe_length 4 entry.offset.toNat
  have hparts : entry.tailBytes = toLe 8 entry.lsn.toNat ++
      (toLe 4 entry.offset.toNat ++ (toLe 4 entry.len.toNat ++ [entry.flags.bits])) := by
    simp only [tailBytes, append_assoc]
  constructor
  · rw [hparts, wordAt_past 0 (by simp only [offsetAt]; omega), wordAt_toLe entry.offset.toNat_lt]
  · rw [hparts, wordAt_past 4 (by simp only [lenAt]; omega), wordAt_past 0 (by omega), wordAt_toLe entry.len.toNat_lt]

theorem read_row {entry : FooterEntry} (h : entry.flags.Written) :
    FooterRow.read (entry.keyBytes ++ entry.tailBytes) entry.keyBytes.length = .ok entry.footerRow := by
  have hflags : (entry.keyBytes ++ entry.tailBytes).getD (entry.keyBytes.length + flagsAt) 0 = entry.flags.bits := by
    rw [getD_append_right _ _ _ _ (Nat.le_add_right _ _), Nat.add_sub_cancel_left, tailBytes,
      getD_append_right _ _ _ _ (by simp [toLe_length, flagsAt])]
    simp [toLe_length, flagsAt]
  have hbits : fromFlags entry.flags.bits = .ok entry.flags := by
    rw [fromFlags, h]; rfl
  rw [FooterRow.read, hflags, hbits, u64At_row, u32At_tail, u32At_tail, entry.wordAt_tail.1, entry.wordAt_tail.2]
  rfl

theorem intoEntry_footerRow : entry.footerRow.intoEntry entry.key = entry := by
  simp [footerRow, FooterRow.intoEntry]

end FooterEntry

def rowsOf (l : List FooterEntry) : List PushedRow := l.map FooterEntry.row

@[simp] theorem rowsOf_length (l : List FooterEntry) : (rowsOf l).length = l.length := length_map _

variable {l : List FooterEntry} {k : Nat}

theorem rowAt_rowsOf (hk : k < l.length) : rowAt (rowsOf l) k = l[k].row := by
  rw [rowAt, rowsOf, getD_eq_getElem _ _ (by simpa using hk), getElem_map]

def whole (l : List FooterEntry) : Str := wholeTo (rowsOf l) l.length

def startsOf (l : List FooterEntry) : List Nat := startsTo (rowsOf l) l.length

def roomOf (l : List FooterEntry) : Nat := (l.map FooterEntry.room).sum

theorem wholeTo_rowsOf_append (l more : List FooterEntry) (hk : k ≤ l.length) :
    wholeTo (rowsOf (l ++ more)) k = wholeTo (rowsOf l) k := by
  induction k with
  | zero => rfl
  | succ k ih =>
    have hrow : rowAt (rowsOf (l ++ more)) k = rowAt (rowsOf l) k := by
      rw [rowAt_rowsOf (by rw [length_append]; omega), rowAt_rowsOf hk, getElem_append_left]
    rw [wholeTo_succ, wholeTo_succ, ih (by omega), hrow]

theorem whole_snoc (l : List FooterEntry) (entry : FooterEntry) :
    whole (l ++ [entry]) = whole l ++ entry.keyBytes ++ entry.tailBytes := by
  have hrow : rowAt (rowsOf (l ++ [entry])) l.length = entry.row := by
    rw [rowAt_rowsOf (by simp)]
    simp
  rw [whole, length_append, length_singleton, wholeTo_succ, wholeTo_rowsOf_append l [entry] (le_refl _),
    hrow]
  rfl

theorem startsOf_snoc (l : List FooterEntry) (entry : FooterEntry) :
    startsOf (l ++ [entry]) = startsOf l ++ [(whole (l ++ [entry])).length % 2 ^ 32] := by
  rw [startsOf, length_append, length_singleton, startsTo_succ, startsTo, startsOf, startsTo, whole,
    length_append, length_singleton]
  refine congrArg (· ++ _) (map_congr_left fun k hk => ?_)
  rw [wholeTo_rowsOf_append l [entry] (by have := mem_range.mp hk; omega)]

theorem whole_length (l : List FooterEntry) : (whole l).length = roomOf l := by
  induction l using reverseRecOn with
  | nil => rfl
  | append_singleton l entry ih =>
    rw [whole_snoc, length_append, length_append, ih, FooterEntry.tailBytes_length, roomOf, roomOf,
      map_append, sum_append]
    simp only [map_singleton, sum_singleton, FooterEntry.room]
    omega

theorem roomOf_perm {m : List FooterEntry} (h : l.Perm m) : roomOf l = roomOf m := (h.map _).sum_eq

theorem length_le_roomOf (l : List FooterEntry) : l.length * entryTailLen ≤ roomOf l := by
  induction l with
  | nil => simp [roomOf]
  | cons entry l ih =>
    simp only [roomOf, map_cons, sum_cons, length_cons, FooterEntry.room] at ih ⊢
    rw [Nat.succ_mul]
    omega

variable {i : Nat}

theorem drop_whole (hi : i < l.length) :
    ∃ rest, (whole l).drop (wholeTo (rowsOf l) i).length = l[i].keyBytes ++ (l[i].tailBytes ++ rest) := by
  obtain ⟨rest, hdrop⟩ := drop_wholeTo (rowsOf l) hi
  rw [rowAt_rowsOf hi, append_assoc] at hdrop
  exact ⟨rest, hdrop⟩

theorem le_whole (hi : i ≤ l.length) :
    (wholeTo (rowsOf l) i).length ≤ (whole l).length := wholeTo_le (rowsOf l) hi

theorem wholeTo_succ_length (hi : i < l.length) :
    (wholeTo (rowsOf l) (i + 1)).length = (wholeTo (rowsOf l) i).length + l[i].room := by
  have htail := l[i].tailBytes_length
  rw [wholeTo_succ, rowAt_rowsOf hi, length_append, length_append]
  simp only [FooterEntry.row, FooterEntry.room, htail]
  omega

theorem wholeTo_stride {width : Nat} (h : ∀ entry ∈ l, entry.keyBytes.length = width)
    (hk : k ≤ l.length) : (wholeTo (rowsOf l) k).length = k * (width + entryTailLen) := by
  refine wholeTo_length (fun i hi => ?_) (by rwa [rowsOf_length])
  rw [rowsOf_length] at hi
  rw [rowAt_rowsOf hi, FooterEntry.row, FooterEntry.tailBytes_length, h _ (getElem_mem hi)]

theorem filterMap_range {β : Type} {f : Nat → Option β} {out : List β}
    (h : ∀ i (hi : i < out.length), f i = some out[i]) : (range out.length).filterMap f = out := by
  induction out using reverseRecOn with
  | nil => rfl
  | append_singleton out last ih =>
    have hlast : f out.length = some last := by
      rw [h out.length (by simp)]
      simp
    have hfront := ih fun i hi => by
      rw [h i (by rw [length_append]; omega), getElem_append_left hi]
    rw [length_append, length_singleton, range_succ, filterMap_append, hfront]
    simp [hlast]

structure FooterPartition.Holds (p : FooterPartition) (l : List FooterEntry) : Prop where
  packed : p.packed = whole l
  starts : p.starts = if p.isVarying then startsOf l else []
  width : p.isVarying = false → ∀ entry ∈ l, entry.keyBytes.length = p.keyWidth.val
  column : ∀ entry ∈ l, entry.key.column = p.column
  packs : p.isVarying = true → p.isPacked = true

namespace FooterPartition
variable {p : FooterPartition} {l : List FooterEntry}

theorem Holds.len (h : p.Holds l) : p.len = l.length := by
  unfold FooterPartition.len
  cases hvary : p.isVarying with
  | true =>
    rw [if_pos rfl, h.starts, hvary, if_pos rfl]
    simp [startsOf, startsTo]
  | false =>
    have hpos : 0 < p.stride.val := by simp [stride, entryTailLen]
    have hlen := wholeTo_stride (h.width hvary) (le_refl _)
    rw [if_neg (by simp), h.packed, whole, hlen]
    exact Nat.mul_div_cancel _ hpos

variable {i : Nat}

theorem Holds.rowSpan (h : p.Holds l) (hroom : roomOf l < 2 ^ 32) (hi : i < l.length) :
    p.rowSpan i = some ((wholeTo (rowsOf l) i).length, (wholeTo (rowsOf l) (i + 1)).length) := by
  have hwhole : (wholeTo (rowsOf l) (rowsOf l).length).length < 2 ^ 32 := by
    rw [rowsOf_length]; exact (whole_length l).symm ▸ hroom
  have hstep := wholeTo_le (rowsOf l) (Nat.le_succ i)
  have hend : (wholeTo (rowsOf l) (i + 1)).length ≤ p.packed.length := by
    rw [h.packed]; exact wholeTo_le (rowsOf l) hi
  unfold FooterPartition.rowSpan
  cases hvary : p.isVarying with
  | true =>
    have hstarts : p.starts = startsTo (rowsOf l) (rowsOf l).length := by
      rw [h.starts, hvary, if_pos rfl, startsOf, rowsOf_length]
    have hfirst := startsTo_getElem? hwhole (show i ≤ (rowsOf l).length by rw [rowsOf_length]; omega)
    have hnext := startsTo_getElem? hwhole (show i + 1 ≤ (rowsOf l).length by rw [rowsOf_length]; omega)
    simp only [if_true, hstarts, hfirst, hnext, bind, Option.bind]
    rw [if_pos ⟨hstep, hend⟩]
  | false =>
    have hfirst := wholeTo_stride (h.width hvary) hi.le
    have hnext := wholeTo_stride (h.width hvary) (show i + 1 ≤ l.length from hi)
    have hstride : p.stride.val = p.keyWidth.val + entryTailLen := rfl
    have hfin : i * p.stride.val + p.stride.val = (wholeTo (rowsOf l) (i + 1)).length := by
      rw [hnext, hstride, Nat.succ_mul]
    simp only [Bool.false_eq_true, if_false, hfin]
    rw [if_pos hend, hfirst, hstride]

theorem Holds.rowSpan_none (h : p.Holds l) (hi : l.length ≤ i) : p.rowSpan i = none := by
  unfold FooterPartition.rowSpan
  cases hvary : p.isVarying with
  | true =>
    have hnone : p.starts[i + 1]? = none := by
      rw [h.starts, hvary, if_pos rfl, List.getElem?_eq_none_iff]
      simp only [startsOf, startsTo, length_map, length_range]
      omega
    cases p.starts[i]? <;> simp [hnone]
  | false =>
    have hlen := wholeTo_stride (h.width hvary) (le_refl _)
    have hpos : 0 < entryTailLen := by decide
    have hshort : ¬ i * p.stride.val + p.stride.val ≤ p.packed.length := by
      have hmul := Nat.mul_le_mul_right p.stride.val hi
      have hstride : p.stride.val = p.keyWidth.val + entryTailLen := rfl
      rw [h.packed, whole, hlen, ← hstride]
      omega
    simp [hshort]

section
variable (h : p.Holds l) (hroom : roomOf l < 2 ^ 32) (hi : i < l.length)
include h hroom hi

theorem Holds.keyLen :
    p.keyLen i = some l[i].keyBytes.length := by
  unfold FooterPartition.keyLen
  cases hvary : p.isVarying with
  | true =>
    have hsize : (wholeTo (rowsOf l) (i + 1)).length - (wholeTo (rowsOf l) i).length =
        l[i].keyBytes.length + entryTailLen := by
      rw [wholeTo_succ_length hi, FooterEntry.room]
      omega
    simp only [if_true, h.rowSpan hroom hi, bind, Option.bind, hsize]
    rw [if_pos (Nat.le_add_left _ _), Nat.add_sub_cancel]
  | false => rw [if_neg (by simp), h.width hvary _ (getElem_mem hi)]

theorem Holds.rowBytes :
    p.rowBytes i = .ok (l[i].keyBytes ++ l[i].tailBytes) := by
  have hcut := cut_wholeTo (rowsOf l) hi
  rw [rowAt_rowsOf hi] at hcut
  simp only [FooterPartition.rowBytes, h.rowSpan hroom hi, orCorrupt, bind, Except.bind, h.packed, whole, hcut]
  rfl

theorem Holds.keyAt :
    p.keyAt i = some l[i].keyBytes := by
  obtain ⟨rest, hdrop⟩ := drop_whole hi
  have hcut := cut_of_drop (le_whole hi.le) hdrop
  simp only [FooterPartition.keyAt, h.rowSpan hroom hi, h.keyLen hroom hi, bind, Option.bind, h.packed, hcut]

end

theorem Holds.keyAt_none (h : p.Holds l) (hi : l.length ≤ i) : p.keyAt i = none := by
  simp [FooterPartition.keyAt, h.rowSpan_none hi]

section
variable (h : p.Holds l) (hroom : roomOf l < 2 ^ 32)
include h hroom

theorem Holds.lsnAt (hi : i < l.length) :
    p.lsnAt i = l[i].lsn.toNat := by
  obtain ⟨rest, hdrop⟩ := drop_whole hi
  have hpast := drop_past hdrop
  have hfield : (whole l).drop ((wholeTo (rowsOf l) i).length + l[i].keyBytes.length) =
      toLe 8 l[i].lsn.toNat ++ (toLe 4 l[i].offset.toNat ++ toLe 4 l[i].len.toNat ++ [l[i].flags.bits] ++ rest) := by
    rw [hpast, FooterEntry.tailBytes]
    simp only [append_assoc]
  have hin := room_of_drop (le_whole hi.le) hdrop
  have hcut := cut_of_drop hin hfield
  rw [toLe_length] at hcut
  simp only [FooterPartition.lsnAt, h.rowSpan hroom hi, h.keyLen hroom hi, h.packed, hcut]
  exact fromLe_toLe (show l[i].lsn.toNat < 256 ^ 8 from l[i].lsn.toNat_lt)

theorem Holds.rowAt (hi : i < l.length)
    (hflags : l[i].flags.Written) : p.rowAt i = .ok l[i].footerRow := by
  simp only [FooterPartition.rowAt, h.keyLen hroom hi, h.rowBytes hroom hi, orCorrupt, bind, Except.bind]
  exact FooterEntry.read_row hflags

theorem Holds.entryAt (hi : i < l.length)
    (hflags : l[i].flags.Written) : p.entryAt i = .ok l[i] := by
  have hkey : RecordKey.fromBytes p.column l[i].keyBytes = .ok l[i].key := by
    have hwidth : l[i].keyBytes.length ≤ maxKeyLen := l[i].key.key.width_le
    rw [← h.column _ (getElem_mem hi), RecordKey.fromBytes, KeyBytes.new, dif_pos hwidth]
    rfl
  simp only [FooterPartition.entryAt, h.keyLen hroom hi, h.rowBytes hroom hi, orCorrupt, bind, Except.bind,
    take_left, hkey, Except.mapError, FooterEntry.read_row hflags, pure, Except.pure,
    FooterEntry.intoEntry_footerRow]

theorem Holds.entries (hflags : ∀ entry ∈ l, entry.flags.Written) :
    p.entries = l.map .ok := by
  refine ext_getElem (by simp [FooterPartition.entries, h.len]) fun i hi _ => ?_
  have hin : i < l.length := by simpa [FooterPartition.entries, h.len] using hi
  simp only [FooterPartition.entries, getElem_map, getElem_range]
  exact h.entryAt hroom hin (hflags _ (getElem_mem hin))

theorem Holds.keys :
    (range p.len).filterMap p.keyAt = l.map FooterEntry.keyBytes := by
  have hlen : p.len = (l.map FooterEntry.keyBytes).length := by rw [h.len, length_map]
  rw [hlen]
  refine filterMap_range fun i hi => ?_
  rw [length_map] at hi
  rw [h.keyAt hroom hi, getElem_map]

end

theorem new_holds (entry : FooterEntry) : (new entry.key.column entry.width).Holds [] := by
  have hwidth := entry.width_ne_varying
  constructor
  · rfl
  · simp [new, isVarying, hwidth]
  · intro _ other hother
    cases hother
  · intro other hother
    cases hother
  · simp [new, isVarying, hwidth]

theorem Holds.push (h : p.Holds l) {entry : FooterEntry} (hcolumn : entry.key.column = p.column)
    (hwidth : p.isVarying = false → entry.keyBytes.length = p.keyWidth.val) : (p.push entry).Holds (l ++ [entry]) := by
  have hpacked : p.packed ++ entry.keyBytes ++ entry.tailBytes = whole (l ++ [entry]) := by
    rw [h.packed, whole_snoc]
  constructor
  · exact hpacked
  · have hstarts := h.starts
    cases hvary : p.isVarying with
    | true =>
      have hvaries : (p.push entry).isVarying = true := hvary
      rw [hvary, if_pos rfl] at hstarts
      rw [hvaries, if_pos rfl, startsOf_snoc]
      simp only [FooterPartition.push, hpacked, hvary, hstarts, if_true]
    | false =>
      have hstrides : (p.push entry).isVarying = false := hvary
      rw [hvary, if_neg (by simp)] at hstarts
      rw [hstrides, if_neg (by simp)]
      simp only [FooterPartition.push, hvary, hstarts, Bool.false_eq_true, if_false]
  · intro hvary other hother
    rcases mem_append.mp hother with hother | hother
    · exact h.width hvary other hother
    · rw [mem_singleton.mp hother]
      exact hwidth hvary
  · intro other hother
    rcases mem_append.mp hother with hother | hother
    · exact h.column other hother
    · rw [mem_singleton.mp hother]
      exact hcolumn
  · exact h.packs

theorem Holds.stopStriding (h : p.Holds l) : p.stopStriding.Holds l := by
  unfold FooterPartition.stopStriding
  cases hvary : p.isVarying with
  | true => exact h
  | false =>
    rw [if_neg (by simp)]
    constructor
    · exact h.packed
    · simp only [isVarying, decide_true, if_true, startsOf, startsTo, h.len]
      refine map_congr_left fun row hrow => ?_
      have hle : row ≤ l.length := by have := mem_range.mp hrow; omega
      rw [wholeTo_stride (h.width hvary) hle]
      rfl
    · simp [isVarying]
    · exact h.column
    · simp

theorem Holds.take (h : p.Holds l) {entry : FooterEntry} (hcolumn : entry.key.column = p.column) :
    ((if p.keyWidth ≠ entry.width then p.stopStriding else p).push entry).Holds (l ++ [entry]) := by
  by_cases hsame : p.keyWidth = entry.width
  · rw [if_neg (not_not.mpr hsame)]
    refine h.push hcolumn fun _ => ?_
    rw [hsame, entry.width_val]
  · have hstops := h.stopStriding
    have hvaries : p.stopStriding.isVarying = true ∧ p.stopStriding.column = p.column := by
      unfold FooterPartition.stopStriding
      split
      · next hvary => exact ⟨hvary, rfl⟩
      · simp [isVarying]
    rw [if_pos hsame]
    refine hstops.push (by rw [hvaries.2]; exact hcolumn) fun hstrides => ?_
    rw [hvaries.1] at hstrides
    cases hstrides

def below (l : List FooterEntry) (key : Str) (pastEqual : Bool) (i : Nat) : Bool :=
  l[i]?.any fun entry => if pastEqual then entry.keyBytes ≤ key else entry.keyBytes < key

theorem below_of_lt {key : Str} {pastEqual : Bool} (hi : i < l.length) :
    below l key pastEqual i =
      if pastEqual then decide (l[i].keyBytes ≤ key) else decide (l[i].keyBytes < key) := by
  rw [below, getElem?_eq_getElem hi]
  cases pastEqual <;> rfl

theorem exists_splits_below (hsorted : l.Pairwise FooterEntry.Before) (key : Str) (pastEqual : Bool) :
    ∃ cut, Bisect.Splits (below l key pastEqual) l.length cut := by
  refine Bisect.exists_splits fun i j hij hj hbelow => ?_
  rcases Nat.lt_or_eq_of_le hij with hlt | rfl
  · have hle := (pairwise_iff_getElem.mp hsorted i j (by omega) hj hlt).key_le
    rw [below_of_lt hj] at hbelow
    rw [below_of_lt (show i < l.length by omega)]
    cases pastEqual with
    | true => exact decide_eq_true (le_trans hle (of_decide_eq_true hbelow))
    | false => exact decide_eq_true (lt_of_le_of_lt hle (of_decide_eq_true hbelow))
  · exact hbelow

theorem Holds.bound (h : p.Holds l) (hroom : roomOf l < 2 ^ 32) (hsorted : l.Pairwise FooterEntry.Before) (key : Str)
    (pastEqual : Bool) : Bisect.Splits (below l key pastEqual) l.length (p.bound key pastEqual) := by
  obtain ⟨cut, hsplits⟩ := exists_splits_below hsorted key pastEqual
  have hask : ∀ low mid, mid < l.length → p.isBelow key pastEqual low mid = .ok (below l key pastEqual mid) := by
    intro _ mid hmid
    rw [isBelow, h.keyAt hroom hmid, below_of_lt hmid]
  have hwalk := Bisect.walk_eq hsplits hask (Nat.zero_le _) hsplits.le (le_refl _) (Nat.le_refl _)
  have hbound : p.bound key pastEqual = cut := by
    simp only [FooterPartition.bound, boundWithin, h.len, Nat.min_self, hwalk]
  rw [hbound]
  exact hsplits

end FooterPartition

end Reel.Footer
