import Reel.Library.Partition
import Reel.Format.FooterSort

/-!
What a footer writes, and that it parses back. A footer built of entries groups them by column; packing
sorts each group and lays out the rows, the filters, the directory and the fixed fields, all of which the
parse reads back to the same partitions.
-/

set_option autoImplicit false

namespace Reel.Footer
open Bytes List

def Groups (partitions : List FooterPartition) (groups : List (ColumnId × List FooterEntry)) : Prop :=
  List.Forall₂ (fun p group => p.column = group.1 ∧ p.Holds group.2) partitions groups

theorem opened_holds (entry : FooterEntry) :
    ((FooterPartition.new entry.key.column entry.width).push entry).Holds [entry] :=
  (FooterPartition.new_holds entry).push rfl fun _ => entry.width_val.symm

variable {partitions : List FooterPartition} {groups : List (ColumnId × List FooterEntry)}

theorem Groups.pushIn
    (h : Groups partitions groups) (entry : FooterEntry) :
    Groups (SegmentFooter.pushIn entry partitions) (StableSort.pushPart groups entry.key.column entry) := by
  induction h with
  | nil => exact .cons ⟨rfl, opened_holds entry⟩ .nil
  | @cons p group partitions groups hp hrest ih =>
    obtain ⟨column, held⟩ := group
    obtain ⟨rfl, hholds⟩ := hp
    rw [SegmentFooter.pushIn, StableSort.pushPart]
    by_cases hsame : p.column = entry.key.column
    · rw [if_pos hsame, if_pos hsame]
      refine .cons ⟨?_, hholds.take hsame.symm⟩ hrest
      by_cases hwidth : p.keyWidth = entry.width
      · rw [if_neg (not_not.mpr hwidth)]; rfl
      · rw [if_pos hwidth, FooterPartition.stopStriding]
        split <;> rfl
    · rw [if_neg hsame, if_neg hsame]
      split
      · exact .cons ⟨rfl, opened_holds entry⟩ (.cons ⟨rfl, hholds⟩ hrest)
      · exact .cons ⟨rfl, hholds⟩ ih

def groupsOf (entries : List FooterEntry) : List (ColumnId × List FooterEntry) :=
  StableSort.partition (·.key.column) id entries

theorem build_groups (entries : List FooterEntry) : Groups (SegmentFooter.build entries).partitions (groupsOf entries) := by
  have hrest : ∀ (footer : SegmentFooter) (groups : List (ColumnId × List FooterEntry)),
      Groups footer.partitions groups → Groups (entries.foldl SegmentFooter.push footer).partitions
        (entries.foldl (fun parts entry => StableSort.pushPart parts entry.key.column entry) groups) := by
    induction entries with
    | nil => exact fun _ _ h => h
    | cons entry entries ih => exact fun footer groups h => ih _ _ (h.pushIn entry)
  exact hrest .empty [] .nil

/-- A partition ready to be written: its rows in order, its filter built over their keys. -/
structure Tidy (p : FooterPartition) (l : List FooterEntry) : Prop where
  holds : p.Holds l
  room : roomOf l < 2 ^ 32
  sorted : l.Pairwise FooterEntry.Before
  held : l ≠ []
  filter : ∃ bits, p.filter = Filter.build (l.map FooterEntry.keyBytes) l.length bits

abbrev TidyAll (partitions : List FooterPartition) (groups : List (ColumnId × List FooterEntry)) : Prop :=
  List.Forall₂ (fun p group => p.column = group.1 ∧ Tidy p group.2) partitions groups

/-- A footer ready to be written: a tidy partition per column, in column order. -/
structure Arranged (footer : SegmentFooter) (groups : List (ColumnId × List FooterEntry)) : Prop where
  tidy : TidyAll footer.partitions groups
  ordered : StableSort.Ordered groups

variable {p : FooterPartition} {l : List FooterEntry}

theorem tidy_of_holds (h : p.Holds l) (hroom : roomOf l < 2 ^ 32)
    (hheld : l ≠ []) (sorter : UnstableSort (Nat × Nat)) (filterBits : Nat) :
    ∃ out, out.Perm l ∧
      Tidy { ((p.sort sorter).buildFilter filterBits) with isPacked := true } out := by
  obtain ⟨out, hperm, hsorted, hholds⟩ := h.sort hroom sorter
  have hout : roomOf out < 2 ^ 32 := by rwa [roomOf_perm hperm]
  refine ⟨out, hperm, ⟨hholds.packed, hholds.starts, hholds.width, hholds.column, fun _ => rfl⟩, hout, hsorted, ?_,
    filterBits, ?_⟩
  · rintro rfl
    exact hheld hperm.nil_eq.symm
  · rw [← hholds.keys hout, ← hholds.len]
    rfl

section
variable {R : FooterPartition → List FooterEntry → Prop}
  (h : List.Forall₂ (fun p group => p.column = group.1 ∧ R p group.2) partitions groups)
include h

theorem columns_eq :
    partitions.map (·.column) = groups.map Prod.fst := by
  induction h with
  | nil => rfl
  | cons hp _ ih => rw [map_cons, map_cons, hp.1, ih]

theorem pairwise_column
    (hordered : StableSort.Ordered groups) : partitions.Pairwise fun p q => p.column < q.column := by
  have hpairs : (groups.map Prod.fst).Pairwise (· < ·) := pairwise_map.mpr hordered
  rw [← columns_eq h] at hpairs
  exact pairwise_map.mp hpairs

end

theorem sortByKey_of_ordered
    (h : partitions.Pairwise fun p q => p.column < q.column) :
    StableSort.sortByKey (·.column) partitions = partitions :=
  StableSort.sortByKey_eq _ (h.imp fun hlt => hlt.le) fun _ => rfl

def tidied (sorter : UnstableSort (Nat × Nat)) (filterBits : Nat) (p : FooterPartition) : FooterPartition :=
  { ((p.sort sorter).buildFilter filterBits) with isPacked := true }

theorem Tidy.locate (h : Tidy p l) (key : Str) :
    (∃ n, ∃ hn : n < l.length, p.locate key = some n ∧ l[n].keyBytes = key ∧
      ∀ other ∈ l, other.keyBytes = key → other.lsn ≤ l[n].lsn) ∨
      p.locate key = none ∧ ∀ entry ∈ l, entry.keyBytes ≠ key := by
  have hcut := h.holds.bound h.room h.sorted key true
  have hpast : ∀ i (hi : i < l.length), l[i].keyBytes ≤ key ↔ i < p.upperBound key := by
    intro i hi
    have hside := hcut.iff_lt hi
    rw [FooterPartition.below_of_lt hi] at hside
    exact Iff.trans (by simp) hside
  unfold FooterPartition.locate
  split
  · next hnone =>
    refine .inr ⟨rfl, fun entry hentry hkey => ?_⟩
    obtain ⟨i, hi, rfl⟩ := mem_iff_getElem.mp hentry
    have := (hpast i hi).mp hkey.le
    omega
  · next n hbound =>
    have hn : n < l.length := Nat.lt_of_succ_le (hbound ▸ hcut.le)
    -- a row of the key stands at the bound's last row or sorts before it
    have hrow : ∀ entry ∈ l, entry.keyBytes = key → entry = l[n] ∨ entry.Before l[n] := by
      intro entry hentry hkey
      obtain ⟨i, hi, rfl⟩ := mem_iff_getElem.mp hentry
      rcases Nat.lt_or_eq_of_le (Nat.lt_succ_iff.mp (hbound ▸ (hpast i hi).mp hkey.le)) with hlt | rfl
      · exact .inr (pairwise_iff_getElem.mp h.sorted i n hi hn hlt)
      · exact .inl rfl
    have hle : l[n].keyBytes ≤ key := (hpast n hn).mpr (by omega)
    simp only [h.holds.keyAt h.room hn, Option.some.injEq]
    split
    · next hfound =>
      refine .inl ⟨n, hn, rfl, hfound, fun entry hentry hkey => ?_⟩
      rcases hrow entry hentry hkey with rfl | hlt | ⟨-, hlsn⟩
      · exact UInt64.le_refl _
      · exact absurd (hkey.trans hfound.symm) hlt.ne
      · exact hlsn
    · next hother =>
      refine .inr ⟨rfl, fun entry hentry hkey => hother (le_antisymm hle ?_)⟩
      rcases hrow entry hentry hkey with rfl | hbefore
      · exact hkey.ge
      · exact hkey ▸ hbefore.key_le

/-- A partition sorted and filtered for the write finds the newest row of every key it was given, and no
row of any other. -/
theorem tidied_finds_newest (h : p.Holds l) (hroom : roomOf l < 2 ^ 32) (hheld : l ≠ [])
    (hflags : ∀ entry ∈ l, entry.flags.Written) (sorter : UnstableSort (Nat × Nat)) (filterBits : Nat) (key : Str) :
    (∃ entry ∈ l, entry.keyBytes = key ∧ (∀ other ∈ l, other.keyBytes = key → other.lsn ≤ entry.lsn) ∧
        (tidied sorter filterBits p).lookup key = .ok (.found entry.footerRow)) ∨
      (∀ entry ∈ l, entry.keyBytes ≠ key) ∧ ((tidied sorter filterBits p).lookup key = .ok .missing ∨
        (tidied sorter filterBits p).lookup key = .ok .ruledOut) := by
  obtain ⟨out, hperm, htidy⟩ : ∃ out, out.Perm l ∧ Tidy (tidied sorter filterBits p) out :=
    tidy_of_holds h hroom hheld sorter filterBits
  simp only [← hperm.mem_iff] at hflags ⊢
  unfold FooterPartition.lookup
  rcases htidy.locate key with ⟨n, hn, hlocate, hkey, hnewest⟩ | ⟨hlocate, hnone⟩
  · have hmay : (tidied sorter filterBits p).mayHold key = true := by
      obtain ⟨bits, hfilter⟩ := htidy.filter
      rw [FooterPartition.mayHold, hfilter, Option.all_eq_true]
      exact fun filter hbuilt => Filter.mayHold_build hbuilt (hkey ▸ mem_map_of_mem (getElem_mem hn))
    refine .inl ⟨out[n], getElem_mem hn, hkey, hnewest, ?_⟩
    rw [if_pos hmay, hlocate]
    simp only [htidy.holds.rowAt htidy.room hn (hflags _ (getElem_mem hn)), Except.map]
  · refine .inr ⟨hnone, ?_⟩
    rw [hlocate]
    split
    · exact .inl rfl
    · exact .inr rfl

/-- The newer of two versions is found, and a key the partition was not given is not. -/
theorem jumbled_rows_find_newest :
    (tidied insertionSorter 10 jumbledRows).lookup [2, 2] =
      .ok (.found (dataRow 0 ⟨[2, 2], by decide⟩ 7).footerRow) ∧
    ((tidied insertionSorter 10 jumbledRows).lookup [3, 3] = .ok .missing ∨
      (tidied insertionSorter 10 jumbledRows).lookup [3, 3] = .ok .ruledOut) := by
  have hfinds := tidied_finds_newest jumbledRows_holds (by decide) (by decide) (by decide) insertionSorter 10
  constructor
  · rcases hfinds [2, 2] with ⟨entry, hentry, hkey, hnewest, hfound⟩ | ⟨hnone, -⟩
    · have hlsn := hnewest (dataRow 0 ⟨[2, 2], by decide⟩ 7) (by decide) rfl
      have hentry' : entry = dataRow 0 ⟨[2, 2], by decide⟩ 7 := by
        revert hkey hlsn
        revert entry
        decide
      rwa [hentry'] at hfound
    · exact absurd rfl (hnone (dataRow 0 ⟨[2, 2], by decide⟩ 7) (by decide))
  · rcases hfinds [3, 3] with ⟨entry, hentry, hkey, -, -⟩ | ⟨-, hmissing⟩
    · revert entry
      decide
    · exact hmissing

/-- Groups of the same columns with the same entries in another order. -/
def Rearranged (out groups : List (ColumnId × List FooterEntry)) : Prop :=
  List.Forall₂ (fun group' group => group'.1 = group.1 ∧ group'.2.Perm group.2) out groups

section
variable {out : List (ColumnId × List FooterEntry)} (h : Rearranged out groups)
include h

theorem Rearranged.columns :
    out.map Prod.fst = groups.map Prod.fst := by
  induction h with
  | nil => rfl
  | cons hp _ ih => rw [map_cons, map_cons, hp.1, ih]

theorem Rearranged.ordered
    (hordered : StableSort.Ordered groups) : StableSort.Ordered out := by
  have hpairs : (groups.map Prod.fst).Pairwise (· < ·) := pairwise_map.mpr hordered
  rw [← h.columns] at hpairs
  exact pairwise_map.mp hpairs

end

/-- Groups a footer can write: none empty, each within the range of its starts. -/
def Writable (groups : List (ColumnId × List FooterEntry)) : Prop :=
  ∀ group ∈ groups, group.2 ≠ [] ∧ roomOf group.2 < 2 ^ 32

theorem exists_tidied
    (h : Groups partitions groups) (hwritable : Writable groups) (sorter : UnstableSort (Nat × Nat)) (filterBits : Nat) :
    ∃ out, Rearranged out groups ∧ TidyAll (partitions.map (tidied sorter filterBits)) out := by
  induction h with
  | nil => exact ⟨[], .nil, .nil⟩
  | @cons p group partitions groups hp _ ih =>
    obtain ⟨hheld, hroom⟩ := hwritable group (by simp)
    obtain ⟨held, hperm, htidy⟩ := tidy_of_holds hp.2 hroom hheld sorter filterBits
    obtain ⟨out, hout, hall⟩ := ih fun other hother => hwritable other (by simp [hother])
    refine ⟨(group.1, held) :: out, .cons ⟨rfl, hperm⟩ hout, .cons ⟨?_, htidy⟩ hall⟩
    exact (p.sort_column sorter).trans hp.1

theorem filter_filled
    (h : Groups partitions groups) (hwritable : Writable groups) :
    partitions.filter (fun p => !p.packed.isEmpty) = partitions := by
  induction h with
  | nil => rfl
  | @cons p group partitions groups hp _ ih =>
    have hfilled : (!p.packed.isEmpty) = true := by
      have hlen := length_le_roomOf group.2
      have hsome := length_pos_iff.mpr (hwritable group (by simp)).1
      have hpos : 0 < p.packed.length := by
        rw [hp.2.packed, whole_length]
        simp only [entryTailLen] at hlen
        omega
      rw [Bool.not_eq_true', isEmpty_eq_false_iff]
      exact length_pos_iff.mp hpos
    rw [filter_cons, if_pos hfilled, ih fun other hother => hwritable other (by simp [hother])]

section
variable {footer : SegmentFooter} (h : Groups footer.partitions groups)
  (hordered : StableSort.Ordered groups) (hwritable : Writable groups)
  (sorter : UnstableSort (Nat × Nat)) (filterBits : Nat)
include h hordered hwritable sorter filterBits

theorem arrange_eq :
    footer.arrange sorter filterBits =
      { footer with partitions := footer.partitions.map (tidied sorter filterBits) } := by
  rw [SegmentFooter.arrange, filter_filled h hwritable, sortByKey_of_ordered (pairwise_column h hordered)]
  rfl

theorem arrange_arranged :
    ∃ out, Rearranged out groups ∧ Arranged (footer.arrange sorter filterBits) out := by
  obtain ⟨out, hout, hall⟩ := exists_tidied h hwritable sorter filterBits
  refine ⟨out, hout, ?_, hout.ordered hordered⟩
  rw [arrange_eq h hordered hwritable]
  exact hall

end

theorem Tidy.pushable (h : Tidy p l) : Pushable .entry (rowsOf l) := by
  constructor
  · intro k hk
    rw [rowsOf_length] at hk
    rw [rowAt_rowsOf hk]
    cases k with
    | zero => exact not_lt.mp (not_lt_nil _)
    | succ k =>
      rw [lastKey, rowAt_rowsOf (by omega)]
      exact (pairwise_iff_getElem.mp h.sorted k (k + 1) (by omega) hk (by omega)).key_le
  · intro k hk
    rw [rowsOf_length] at hk
    rw [rowAt_rowsOf hk]
    exact l[k].tailBytes_length

def imageOf (p : FooterPartition) (l : List FooterEntry) : Str :=
  if p.isPacked then (pushedTo .entry (rowsOf l) l.length).encode else whole l

theorem Tidy.packRow (h : Tidy p l) {k : Nat} (hk : k < l.length) :
    p.packRow (pushedTo .entry (rowsOf l) k) k = .ok (pushedTo .entry (rowsOf l) (k + 1)) := by
  have hpush := push_pushedTo h.pushable (show k < (rowsOf l).length by rwa [rowsOf_length])
  rw [rowAt_rowsOf hk] at hpush
  simp only [FooterPartition.packRow, h.holds.keyLen h.room hk, h.holds.rowBytes h.room hk, orCorrupt, bind, Except.bind,
    take_left, drop_left]
  rw [show (pushedTo .entry (rowsOf l) k).push l[k].keyBytes l[k].tailBytes = _ from hpush]
  rfl

theorem Tidy.encodedRows (h : Tidy p l) :
    p.encodedRows = .ok (imageOf p l) := by
  unfold FooterPartition.encodedRows imageOf
  split
  · have hrest : ∀ k ≤ l.length, (List.range k).foldlM p.packRow (PrefixRows.new .entry) =
        .ok (pushedTo .entry (rowsOf l) k) := by
      intro k hk
      induction k with
      | zero => rfl
      | succ k ih =>
        rw [range_succ, foldlM_append, ih (by omega)]
        simp only [foldlM_cons, foldlM_nil, bind, Except.bind, h.packRow (show k < l.length from hk)]
        rfl
    rw [h.holds.len, hrest l.length (le_refl _)]
    rfl
  · rw [h.holds.packed]

end Reel.Footer
