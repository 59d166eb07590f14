import Reel.Format.FooterRows

/-!
A partition's sort: rows already in order stay, others are sorted by the eight bytes behind the prefix all
keys share and only then by the whole key. The head sorts as the key does, so the order is by key and
sequence number either way.
-/

set_option autoImplicit false

namespace Reel.Footer
open Bytes List

theorem append_le_append_iff (front a b : Str) : front ++ a ≤ front ++ b ↔ a ≤ b := by
  induction front with
  | nil => rfl
  | cons x front ih =>
    rw [cons_append, cons_append, cons_le_cons, ih]
    simp

theorem drop_le_drop {a b : Str} {n : Nat} (htake : a.take n = b.take n) (h : a ≤ b) : a.drop n ≤ b.drop n := by
  rw [← take_append_drop n a, ← take_append_drop n b, htake] at h
  exact (append_le_append_iff _ _ _).mp h

theorem fromLe_reverse_cons (x : Byte) (bytes : Str) :
    fromLe (x :: bytes).reverse = fromLe bytes.reverse + 256 ^ bytes.length * x.val := by
  rw [fromLe, reverse_cons, map_append, Nat.ofDigits_append, fromLe]
  simp

theorem fromLe_reverse_mono {a b : Str} (hlen : a.length = b.length) (h : a ≤ b) :
    fromLe a.reverse ≤ fromLe b.reverse := by
  induction a generalizing b with
  | nil =>
    rw [length_eq_zero_iff.mp hlen.symm]
  | cons x a ih =>
    cases b with
    | nil => cases hlen
    | cons y b =>
      have hlen' : a.length = b.length := Nat.succ.inj hlen
      rw [fromLe_reverse_cons, fromLe_reverse_cons, ← hlen']
      rcases cons_le_cons.mp h with hlt | ⟨rfl, hle⟩
      · have hsmall := fromLe_lt a.reverse
        rw [length_reverse] at hsmall
        have hstep : 256 ^ a.length * (x.val + 1) ≤ 256 ^ a.length * y.val := Nat.mul_le_mul_left _ hlt
        rw [Nat.mul_succ] at hstep
        omega
      · have := ih hlen' hle
        omega

theorem take_eq_of_le_sharedPrefix {a b : Str} {n : Nat} (h : n ≤ sharedPrefix a b) : a.take n = b.take n := by
  have hshared := congrArg (take n) (take_sharedPrefix a b)
  rwa [take_take, take_take, Nat.min_eq_left h] at hshared

namespace FooterPartition
variable {p : FooterPartition} {l : List FooterEntry}

theorem shareKey_le (p : FooterPartition) (first : Str) (shared i : Nat) :
    p.shareKey first shared i ≤ shared ∧ p.shareKey first shared i ≤ sharedPrefix first ((p.keyAt i).getD []) := by
  unfold shareKey
  split <;> omega

theorem foldl_shareKey_le (p : FooterPartition) (first : Str) (indexes : List Nat) (shared : Nat) :
    indexes.foldl (p.shareKey first) shared ≤ shared ∧
      ∀ i ∈ indexes, indexes.foldl (p.shareKey first) shared ≤ sharedPrefix first ((p.keyAt i).getD []) := by
  induction indexes generalizing shared with
  | nil => simp
  | cons i indexes ih =>
    obtain ⟨hle, hall⟩ := ih (p.shareKey first shared i)
    obtain ⟨hshared, hkey⟩ := p.shareKey_le first shared i
    rw [foldl_cons]
    refine ⟨hle.trans hshared, fun j hj => ?_⟩
    rcases mem_cons.mp hj with rfl | hj
    · exact hle.trans hkey
    · exact hall j hj

section
variable (h : p.Holds l) (hroom : roomOf l < 2 ^ 32)
include h hroom

section
variable {i j : Nat} (hi : i < l.length) (hj : j < l.length)
include hi hj

theorem take_sharedKeyPrefix :
    l[i].keyBytes.take p.sharedKeyPrefix = l[j].keyBytes.take p.sharedKeyPrefix := by
  have hpos : 0 < l.length := by omega
  have hfirst : ∀ k (hk : k < l.length),
      l[0].keyBytes.take p.sharedKeyPrefix = l[k].keyBytes.take p.sharedKeyPrefix := by
    intro k hk
    rw [sharedKeyPrefix, h.keyAt hroom hpos]
    cases k with
    | zero => rfl
    | succ k =>
      have hmem : k + 1 ∈ range' 1 (p.len - 1) := by
        rw [mem_range'_1, h.len]
        omega
      have hle := (p.foldl_shareKey_le l[0].keyBytes (range' 1 (p.len - 1)) l[0].keyBytes.length).2 (k + 1) hmem
      rw [h.keyAt hroom hk, Option.getD_some] at hle
      exact take_eq_of_le_sharedPrefix hle
  rw [← hfirst i hi, hfirst j hj]

theorem keyHead_mono (hle : l[i].keyBytes ≤ l[j].keyBytes) :
    p.keyHead i p.sharedKeyPrefix ≤ p.keyHead j p.sharedKeyPrefix := by
  have hdrop := drop_le_drop (take_sharedKeyPrefix h hroom hi hj) hle
  rw [keyHead, keyHead, h.keyAt hroom hi, h.keyAt hroom hj]
  exact fromLe_reverse_mono (by rw [padTo_length, padTo_length]) (padTo_mono hdrop 8)

theorem before_rows
    (hbefore : p.before (p.keyHead i p.sharedKeyPrefix, i) (p.keyHead j p.sharedKeyPrefix, j) = true) :
    l[i].Before l[j] := by
  simp only [before, h.keyAt hroom hi, h.keyAt hroom hj, h.lsnAt hroom hi, h.lsnAt hroom hj, Option.getD_some,
    Bool.or_eq_true, Bool.and_eq_true, decide_eq_true_eq] at hbefore
  rcases hbefore with hlt | ⟨-, hkey | ⟨hkey, hlsn⟩⟩
  · refine .inl (not_le.mp fun hle => ?_)
    exact absurd (keyHead_mono h hroom hj hi hle) (not_le.mpr hlt)
  · exact .inl hkey
  · exact .inr ⟨hkey, UInt64.le_iff_toNat_le.mpr hlsn⟩

end

end

def rank (p : FooterPartition) (row : Nat × Nat) : Nat ×ₗ Str ×ₗ Nat :=
  toLex (row.1, toLex ((p.keyAt row.2).getD [], p.lsnAt row.2))

theorem before_iff (p : FooterPartition) (left right : Nat × Nat) :
    p.before left right = true ↔ p.rank left ≤ p.rank right := by
  simp only [before, rank, Prod.Lex.toLex_le_toLex, Bool.or_eq_true, Bool.and_eq_true, decide_eq_true_eq]

theorem pairwise_run (sorter : UnstableSort (Nat × Nat)) (p : FooterPartition) (order : List (Nat × Nat)) :
    (sorter.run p.before order).Pairwise fun a b => p.before a b = true := by
  refine sorter.sorted p.before (fun a b => ?_) (fun a b c hab hbc => ?_) order
  · rw [before_iff, before_iff]
    exact le_total _ _
  · rw [before_iff] at hab hbc ⊢
    exact le_trans hab hbc

/-- Past the key that reads before it, or a later version of the same key. -/
def Ahead (a b : FooterEntry) : Prop := a.keyBytes < b.keyBytes ∨ a.keyBytes = b.keyBytes ∧ a.lsn < b.lsn

theorem Ahead.before {a b : FooterEntry} (h : Ahead a b) : a.Before b :=
  h.imp_right fun ⟨hkey, hlsn⟩ => ⟨hkey, UInt64.le_of_lt hlsn⟩

section
variable (h : p.Holds l) (hroom : roomOf l < 2 ^ 32)
include h hroom

theorem Holds.layRow {row : Nat × Nat} (hrow : row.2 < l.length)
    (done : List FooterEntry) :
    p.layRow (whole done, if p.isVarying then startsOf done else []) row =
      (whole (done ++ [l[row.2]]), if p.isVarying then startsOf (done ++ [l[row.2]]) else []) := by
  have hcut := (cut_eq_some.mp (cut_wholeTo (rowsOf l) hrow)).2
  rw [rowAt_rowsOf hrow] at hcut
  have hnext : whole done ++ (p.packed.take ((p.rowSpan row.2).getD (0, 0)).2).drop
      ((p.rowSpan row.2).getD (0, 0)).1 = whole (done ++ [l[row.2]]) := by
    rw [h.rowSpan hroom hrow, Option.getD_some, h.packed, whole_snoc, append_assoc]
    exact congrArg (whole done ++ ·) hcut
  simp only [FooterPartition.layRow, hnext]
  cases p.isVarying with
  | true => simp only [if_true, startsOf_snoc]
  | false => rfl

theorem Holds.laid {order : List (Nat × Nat)}
    (horder : ∀ row ∈ order, row.2 < l.length) :
    p.laid order = (whole (order.filterMap fun row => l[row.2]?),
      if p.isVarying then startsOf (order.filterMap fun row => l[row.2]?) else []) := by
  have hrest : ∀ done : List FooterEntry,
      order.foldl p.layRow (whole done, if p.isVarying then startsOf done else []) =
        (whole (done ++ order.filterMap fun row => l[row.2]?),
          if p.isVarying then startsOf (done ++ order.filterMap fun row => l[row.2]?) else []) := by
    induction order with
    | nil => simp
    | cons row order ih =>
      intro done
      have hrow : row.2 < l.length := horder row (by simp)
      have hkept : (l[row.2]? : Option FooterEntry) = some l[row.2] := getElem?_eq_getElem hrow
      rw [foldl_cons, filterMap_cons, hkept, h.layRow hroom hrow,
        ih (fun other hother => horder other (by simp [hother])), append_assoc, singleton_append]
  exact hrest []

theorem inOrderFrom_iff {n i : Nat} (hi : i < l.length)
    (hn : i + 1 + n = l.length) :
    p.inOrderFrom n (i + 1) l[i].keyBytes = true ↔ (l.drop i).IsChain Ahead := by
  induction n generalizing i with
  | zero =>
    rw [drop_eq_getElem_cons hi, drop_of_length_le (by omega)]
    simp [inOrderFrom]
  | succ n ih =>
    have hnext : i + 1 < l.length := by omega
    have hrest := ih hnext (by omega)
    rw [drop_eq_getElem_cons hnext] at hrest
    rw [drop_eq_getElem_cons hi, drop_eq_getElem_cons hnext, isChain_cons_cons, ← hrest]
    simp [inOrderFrom, h.keyAt hroom hnext, h.lsnAt hroom hi, h.lsnAt hroom hnext, Ahead,
      UInt64.lt_iff_toNat_lt]

theorem Holds.inKeyOrder_iff :
    p.inKeyOrder = true ↔ l.Pairwise Ahead := by
  have : IsTrans FooterEntry Ahead := ⟨fun _ _ _ => by
    rintro (hab | ⟨hab, habl⟩) (hbc | ⟨hbc, hbcl⟩)
    · exact .inl (lt_trans hab hbc)
    · exact .inl (hbc ▸ hab)
    · exact .inl (hab ▸ hbc)
    · exact .inr ⟨hab.trans hbc, UInt64.lt_trans habl hbcl⟩⟩
  rw [← isChain_iff_pairwise, inKeyOrder]
  by_cases hpos : 0 < l.length
  · rw [h.keyAt hroom hpos]
    exact inOrderFrom_iff h hroom hpos (by rw [h.len]; omega)
  · have hnil : l = [] := eq_nil_of_length_eq_zero (by omega)
    rw [h.keyAt_none (by omega), hnil]
    simp

end

theorem Holds.relaid (h : p.Holds l) {out : List FooterEntry} (hperm : out.Perm l) :
    ({ p with packed := whole out, starts := if p.isVarying then startsOf out else [] } :
      FooterPartition).Holds out :=
  ⟨rfl, rfl, fun hvary entry hentry => h.width hvary entry (hperm.mem_iff.mp hentry),
    fun entry hentry => h.column entry (hperm.mem_iff.mp hentry), h.packs⟩

theorem Holds.sort (h : p.Holds l) (hroom : roomOf l < 2 ^ 32) (sorter : UnstableSort (Nat × Nat)) :
    ∃ out, out.Perm l ∧ out.Pairwise FooterEntry.Before ∧ (p.sort sorter).Holds out := by
  by_cases hyes : p.inKeyOrder = true
  · rw [FooterPartition.sort, if_pos hyes]
    exact ⟨l, .refl _, ((h.inKeyOrder_iff hroom).1 hyes).imp Ahead.before, h⟩
  · have hrows : ((range p.len).map fun i => (p.keyHead i p.sharedKeyPrefix, i)).filterMap
        (fun row => l[row.2]?) = l := by
      rw [filterMap_map, h.len]
      exact filterMap_range fun i hi => getElem?_eq_getElem hi
    have hmem : ∀ row ∈ (range p.len).map fun i => (p.keyHead i p.sharedKeyPrefix, i),
        row.2 < l.length ∧ row.1 = p.keyHead row.2 p.sharedKeyPrefix := by
      intro row hrow
      obtain ⟨i, hi, rfl⟩ := mem_map.mp hrow
      exact ⟨by simpa [h.len] using hi, rfl⟩
    rw [FooterPartition.sort, if_neg hyes]
    dsimp only
    generalize (range p.len).map (fun i => (p.keyHead i p.sharedKeyPrefix, i)) = order at hrows hmem ⊢
    have hperm := sorter.perm p.before order
    have hlaid := h.laid hroom fun row hrow => (hmem row (hperm.mem_iff.mp hrow)).1
    have hout : ((sorter.run p.before order).filterMap fun row => l[row.2]?).Perm l := by
      have hmapped := hperm.filterMap fun row => l[row.2]?
      rwa [hrows] at hmapped
    refine ⟨_, hout, ?_, ?_⟩
    · refine pairwise_filterMap.mpr ((p.pairwise_run sorter order).imp_of_mem ?_)
      intro a b ha hb hbefore one hone two htwo
      obtain ⟨hin, hhead⟩ := hmem a (hperm.mem_iff.mp ha)
      obtain ⟨hin', hhead'⟩ := hmem b (hperm.mem_iff.mp hb)
      rw [getElem?_eq_getElem hin, Option.some.injEq] at hone
      rw [getElem?_eq_getElem hin', Option.some.injEq] at htwo
      subst hone htwo
      refine before_rows h hroom hin hin' ?_
      rwa [← hhead, ← hhead']
    · have hrelaid := h.relaid hout
      have hstarts := h.starts
      rw [hlaid]
      cases hvary : p.isVarying with
      | true =>
        rw [hvary] at hrelaid
        exact hrelaid
      | false =>
        rw [hvary] at hrelaid hstarts
        simp only [Bool.false_eq_true, if_false] at hrelaid hstarts ⊢
        rw [hstarts]
        exact hrelaid

@[simp] theorem sort_column (sorter : UnstableSort (Nat × Nat)) (p : FooterPartition) :
    (p.sort sorter).column = p.column := by
  unfold FooterPartition.sort
  split <;> rfl

/-- A partition sorts by key and version, and takes for sorted the rows that ascend strictly. -/
theorem sort_orders_rows (h : p.Holds l) (hroom : roomOf l < 2 ^ 32) (sorter : UnstableSort (Nat × Nat)) :
    (∃ out, out.Perm l ∧ out.Pairwise FooterEntry.Before ∧ (p.sort sorter).Holds out) ∧
      (p.inKeyOrder = true ↔ l.Pairwise Ahead) :=
  ⟨h.sort hroom sorter, h.inKeyOrder_iff hroom⟩

end FooterPartition

def insertionSorter : UnstableSort (Nat × Nat) where
  run le l := l.insertionSort fun a b => le a b = true
  perm _ l := perm_insertionSort _ l
  sorted le total trans l :=
    haveI : Std.Total fun a b => le a b = true := ⟨total⟩
    haveI : IsTrans (Nat × Nat) fun a b => le a b = true := ⟨trans⟩
    pairwise_insertionSort _ l

def dataRow (column : ColumnId) (key : KeyBytes) (lsn : UInt64) : FooterEntry := ⟨⟨column, key⟩, lsn, 0, 0, .data⟩

def pushAll (column : ColumnId) (width : Fin (2 ^ 16)) (entries : List FooterEntry) : FooterPartition :=
  entries.foldl (·.push ·) (.new column width)

theorem pushAll_fields (column : ColumnId) (width : Fin (2 ^ 16)) (entries : List FooterEntry) :
    (pushAll column width entries).column = column ∧ (pushAll column width entries).keyWidth = width := by
  induction entries using List.reverseRecOn with
  | nil => exact ⟨rfl, rfl⟩
  | append_singleton front entry ih =>
    rw [pushAll, foldl_append]
    exact ih

theorem pushAll_holds {first : FooterEntry} {entries : List FooterEntry}
    (h : ∀ entry ∈ entries, entry.key.column = first.key.column ∧ entry.keyBytes.length = first.width.val) :
    (pushAll first.key.column first.width entries).Holds entries := by
  induction entries using List.reverseRecOn with
  | nil => exact FooterPartition.new_holds first
  | append_singleton front entry ih =>
    obtain ⟨hcolumn, hwidth⟩ := h entry (by simp)
    obtain ⟨hkept, hsame⟩ := pushAll_fields first.key.column first.width front
    rw [pushAll, foldl_append]
    refine (ih fun other hother => h other (mem_append_left _ hother)).push ?_ fun _ => ?_
    · rw [hkept, hcolumn]
    · rw [hsame, hwidth]

/-- Two versions of a key behind a higher one. -/
def jumbled : List FooterEntry :=
  [dataRow 0 ⟨[5, 5], by decide⟩ 4, dataRow 0 ⟨[2, 2], by decide⟩ 7, dataRow 0 ⟨[2, 2], by decide⟩ 3]

def jumbledRows : FooterPartition := pushAll 0 ⟨2, by decide⟩ jumbled

theorem jumbledRows_holds : jumbledRows.Holds jumbled :=
  @pushAll_holds (dataRow 0 ⟨[5, 5], by decide⟩ 4) jumbled (by decide)

theorem jumbled_rows_sorted : (∃ out, out.Perm jumbled ∧ out.Pairwise FooterEntry.Before ∧
      (jumbledRows.sort insertionSorter).Holds out) ∧
    (jumbledRows.inKeyOrder = true ↔ jumbled.Pairwise FooterPartition.Ahead) :=
  FooterPartition.sort_orders_rows jumbledRows_holds (by decide) insertionSorter

def emptyKeyEntry : FooterEntry := dataRow 0 ⟨[], Nat.zero_le _⟩ 1

def twinRows : FooterPartition := pushAll 0 emptyKeyEntry.width [emptyKeyEntry, emptyKeyEntry]

/-- Two rows of one key and version are in order, and are sorted again. -/
theorem twin_rows_taken_for_unsorted : twinRows.Holds [emptyKeyEntry, emptyKeyEntry] ∧
    [emptyKeyEntry, emptyKeyEntry].Pairwise FooterEntry.Before ∧ twinRows.inKeyOrder = false :=
  ⟨@pushAll_holds emptyKeyEntry _ (by decide), by simp [FooterEntry.Before], by decide⟩

end Reel.Footer
