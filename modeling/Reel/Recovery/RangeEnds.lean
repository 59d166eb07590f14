import Reel.Format.FooterPack
import Reel.Format.Groups
import Reel.Format.Record
import Reel.Index.Cover
import Reel.Library.Partition

/-!
The end of a range delete on its three ways: the slice the live index takes, the
row an open tail's journal holds, and the payload a sealed footer's reader fetches.
-/

set_option autoImplicit false

namespace Reel
open Bytes StableSort List KeyBytes

inductive RecordWrite where
  | put (key : RecordKey) (payload : Str)
  | delete (key : RecordKey)
  | deleteRange (start : RecordKey) (fin : Option Str)

abbrev Specs := ColumnId → Option KeyWidth

def readOnly : ReelError := .rejected "the reel was opened read only"

variable (specs : Specs) (codec : ColumnId → Str → Str)

def checkColumn (key : RecordKey) : Except ReelError Unit :=
  match specs key.column with
  | some _ => .ok ()
  | none =>
    let column := key.column.val
    .error (.rejected s!"column {column} is not served by this reel")

/-- What a write frames: its key, its flags and the payload it stores. -/
structure Planned where
  key : RecordKey
  flags : Flags
  payload : Str

/-- Plan one write of a batch, where an empty range is skipped. `codec` is the column's codec. -/
def planWrite :
    RecordWrite → Except ReelError (Option Planned)
  | .put key payload => do
    checkColumn specs key
    .ok (some ⟨key, .data, codec key.column payload⟩)
  | .delete key => do
    checkColumn specs key
    .ok (some ⟨key, .tombstone, []⟩)
  | .deleteRange start fin => do
    checkColumn specs start
    -- an empty range's row would read as a grave on its start key
    if fin.any (· ≤ start.key.bytes) then .ok none
    else .ok (some ⟨start, .rangeTombstone, fin.getD []⟩)

/-- Plan a batch, or nothing when every write of it is skipped. -/
def planBatch (isReadOnly : Bool) (specs : Specs) (codec : ColumnId → Str → Str)
    (writes : List RecordWrite) : Except ReelError (Option (List (Option Planned))) := do
  if isReadOnly then .error readOnly
  else if writes.isEmpty then .ok none
  else
    let planned ← writes.mapM (planWrite specs codec)
    if planned.all Option.isNone then .ok none else .ok (some planned)

structure Placed extends Planned where
  lsn : UInt64
  offset : UInt32

/-- The journal row of one record, a range tombstone's end read off its payload. -/
def journalRow (placed : Placed) : JournalRow where
  key := placed.key
  lsn := placed.lsn
  offset := placed.offset
  len := UInt32.ofNat placed.payload.length
  flags := placed.flags
  rangeEnd :=
    if placed.flags.isRangeTombstone && 0 < placed.payload.length then
      (new placed.payload).toOption
    else none

structure FooterRow where
  key : KeyBytes
  lsn : UInt64
  offset : UInt32
  len : UInt32
  flags : Flags
  deriving DecidableEq

abbrev SegmentFooter := List (ColumnId × List FooterRow)

def JournalRow.footerRow (row : JournalRow) : FooterRow :=
  ⟨row.key.key, row.lsn, row.offset, row.len, row.flags⟩

def tailFooter (rows : List JournalRow) : SegmentFooter :=
  partition (fun row => row.key.column) JournalRow.footerRow rows

def sealFooter (footer : SegmentFooter) : SegmentFooter :=
  footer.map fun part => (part.1, sortByKey (fun row => toLex (row.key.bytes, row.lsn.toNat)) part.2)

/-- One range a rebuild stands as a cover. -/
structure Stood where
  start : RecordKey
  fin : Option KeyBytes
  lsn : UInt64
  deriving DecidableEq

def rangeRows (footer : SegmentFooter) : List (ColumnId × FooterRow) :=
  (keyed footer).filter (fun row => row.2.flags.isRangeTombstone)

def takeEnds : List (ColumnId × FooterRow) → List (Option KeyBytes) → List Stood
  | [], _ => []
  | (column, row) :: rows, ends =>
    ⟨⟨column, row.key⟩, ends.head?.join, row.lsn⟩ :: takeEnds rows ends.tail

structure JournaledTail where
  footer : SegmentFooter
  ends : List (Option KeyBytes)

def readJournaled (allLanded : List JournalRow → Bool) (groups : List (List JournalRow)) :
    JournaledTail :=
  let rows := (groups.filter allLanded).flatten
  let ends := (rows.filter (·.flags.isRangeTombstone)).map fun row => (row.key.column, row.rangeEnd)
  { footer := tailFooter rows
    ends := (sortByKey Prod.fst ends).map Prod.snd }

def standRanges (tail : JournaledTail) : List Stood :=
  if tail.ends.isEmpty then [] else takeEnds (rangeRows tail.footer) tail.ends

variable (file : Str) (layout : RecordLayout) (footer : SegmentFooter)

def readRangeEnd (prefixLen offset len : Nat) : Option KeyBytes :=
  if len = 0 then none
  else
    match slice file (offset + prefixLen) len with
    | none => none
    | some bytes => (new bytes).toOption

def readRangeEnds :
    List (Option KeyBytes) :=
  (rangeRows footer).map fun (_, row) =>
    readRangeEnd file (layout.prefixLen row.key.bytes.length row.len.toNat) row.offset.toNat
      row.len.toNat

def sweepRanges : List Stood :=
  takeEnds (rangeRows footer) (readRangeEnds file layout footer)

def rangeOf (width : KeyWidth) (start : Str) (fin : Option Str) (lsn : Nat) :
    Str × Option Str × Nat :=
  (width.lowBound start, fin.map width.lowBound, lsn)

def rebuildCovers (column : ColumnId) (width : KeyWidth) (stood : List Stood) :
    List (Covered Str) :=
  standAll ((stood.filter (fun range => range.start.column = column)).map fun range =>
    rangeOf width range.start.key.bytes (range.fin.map KeyBytes.bytes) range.lsn.toNat)

/-- One write of an accepted call, at the number and offset it was given. -/
structure Issued where
  write : RecordWrite
  lsn : UInt64
  offset : UInt32

def eachWritten {β : Type} (specs : Specs) (codec : ColumnId → Str → Str)
    (act : Planned → Issued → Option β) (call : List Issued) : List β :=
  match planBatch false specs codec (call.map Issued.write) with
  | .ok (some planned) => (planned.zip call).filterMap fun (plan, issued) =>
      plan.bind fun planned => act planned issued
  | _ => []

def placedCall : List Issued → List Placed :=
  eachWritten specs codec fun planned issued =>
    some { planned with lsn := issued.lsn, offset := issued.offset }

def journalGroups (calls : List (List Issued)) :
    List (List JournalRow) :=
  (calls.map fun call => (placedCall specs codec call).map journalRow).filter
    (fun group => !group.isEmpty)

def Issued.range (column : ColumnId) (width : KeyWidth) (issued : Issued) :
    Option (Str × Option Str × Nat) :=
  match issued.write with
  | .deleteRange start fin =>
    if start.column = column then some (rangeOf width start.key.bytes fin issued.lsn.toNat) else none
  | _ => none

def publishedRanges (column : ColumnId)
    (width : KeyWidth) : List Issued → List (Str × Option Str × Nat) :=
  eachWritten specs codec fun _ issued => issued.range column width

def liveCovers (column : ColumnId)
    (width : KeyWidth) (calls : List (List Issued)) : List (Covered Str) :=
  standAll (calls.flatMap (publishedRanges specs codec column width))

/-- What the cover at one number takes of a column's keys is the same in both lists. -/
def SameAt (width : KeyWidth) (lsn : Nat) (live back : List (Covered Str)) : Prop :=
  ∀ (key : Str) (version : Nat), width.admits key.length →
    ((∃ cover ∈ live, cover.lsn = lsn ∧ cover.covers key version = true) ↔
      ∃ cover ∈ back, cover.lsn = lsn ∧ cover.covers key version = true)

def EndKept (width : KeyWidth) (start : RecordKey) : Option Str → Prop
  | none => True
  | some fin => fin ≤ start.key.bytes ∨ fin.length ≤ maxKeyLen ∨
      (width = .varying ∧ fin.take maxKeyLen = replicate maxKeyLen 255)

def Issued.plan (issued : Issued) : Option Planned :=
  (planWrite specs codec issued.write).toOption.join

variable {call : List Issued} {specs : Specs} {codec : ColumnId → Str → Str}

theorem filterMap_zip_plan {β : Type}
    {planned : List (Option Planned)}
    (act : Planned → Issued → Option β)
    (h : (call.map Issued.write).mapM (planWrite specs codec) = .ok planned) :
    (planned.zip call).filterMap (fun x => x.1.bind fun planned => act planned x.2) =
      call.filterMap (fun issued => (issued.plan specs codec).bind fun planned => act planned issued) := by
  induction call generalizing planned with
  | nil => simp
  | cons issued call ih =>
    simp only [map_cons, mapM_cons, bind, Except.bind] at h
    cases hp : planWrite specs codec issued.write with
    | error e => simp [hp] at h
    | ok plan =>
      cases hr : (call.map Issued.write).mapM (planWrite specs codec) with
      | error e => simp [hp, hr] at h
      | ok rest =>
        simp only [hp, hr, pure, Except.pure, Except.ok.injEq] at h
        subst h
        have hplan : issued.plan specs codec = plan := by simp [Issued.plan, hp, Except.toOption]
        simp only [zip_cons_cons, filterMap_cons, hplan, ih hr]

def Accepted (specs : Specs) (codec : ColumnId → Str → Str) (call : List Issued) : Prop :=
  ∃ plan, planBatch false specs codec (call.map Issued.write) = .ok plan

theorem planBatch_eq (specs : Specs) (codec : ColumnId → Str → Str) (writes : List RecordWrite) :
    planBatch false specs codec writes = (writes.mapM (planWrite specs codec)).map fun planned =>
      if planned.all Option.isNone then none else some planned := by
  cases writes with
  | nil => rfl
  | cons write writes =>
    simp only [planBatch, Bool.false_eq_true, if_false, isEmpty_cons, bind, Except.bind]
    cases (write :: writes).mapM (planWrite specs codec) with
    | error e => rfl
    | ok planned => simp only [Except.map]; split <;> rfl

theorem mem_eachWritten {β : Type}
    {act : Planned → Issued → Option β} {out : β} :
    out ∈ eachWritten specs codec act call ↔ Accepted specs codec call ∧
      ∃ issued ∈ call, ∃ planned, issued.plan specs codec = some planned ∧
        act planned issued = some out := by
  unfold eachWritten Accepted
  rw [planBatch_eq]
  cases hm : (call.map Issued.write).mapM (planWrite specs codec) with
  | error e => simp [Except.map]
  | ok planned =>
    have hzip := filterMap_zip_plan act hm
    simp only [Except.map, Except.ok.injEq, exists_eq', true_and, ← Option.bind_eq_some_iff]
    rw [← mem_filterMap, ← hzip]
    by_cases hnone : planned.all Option.isNone
    · rw [if_pos hnone]
      simp only [not_mem_nil, false_iff, mem_filterMap, not_exists, not_and]
      intro x hx
      have := all_eq_true.mp hnone x.1 (of_mem_zip hx).1
      rw [Option.isNone_iff_eq_none] at this
      simp [this]
    · rw [if_neg hnone]

section
variable {β ν : Type} {act : Planned → Issued → Option β} {num : β → ν} {of : Issued → ν}

theorem eachWritten_sublist (call : List Issued)
    (h : ∀ planned issued out, act planned issued = some out → num out = of issued) :
    ((eachWritten specs codec act call).map num).Sublist (call.map of) := by
  unfold eachWritten
  rw [planBatch_eq]
  cases hm : (call.map Issued.write).mapM (planWrite specs codec) with
  | error e => simp [Except.map]
  | ok planned =>
    simp only [Except.map]
    by_cases hnone : planned.all Option.isNone
    · simp [hnone]
    · rw [if_neg hnone]
      simp only [filterMap_zip_plan act hm]
      clear hm hnone
      induction call with
      | nil => simp
      | cons issued call ih =>
        rw [filterMap_cons, map_cons]
        cases hb : (issued.plan specs codec).bind fun planned => act planned issued with
        | none => exact ih.cons _
        | some out =>
          obtain ⟨planned, -, ha⟩ := Option.bind_eq_some_iff.mp hb
          rw [map_cons, h planned issued out ha]
          exact ih.cons_cons _

theorem flatMap_eachWritten_sublist (calls : List (List Issued))
    (h : ∀ planned issued out, act planned issued = some out → num out = of issued) :
    ((calls.flatMap (eachWritten specs codec act)).map num).Sublist (calls.flatten.map of) := by
  induction calls with
  | nil => simp
  | cons call calls ih =>
    rw [flatMap_cons, map_append, flatten_cons, map_append]
    exact (eachWritten_sublist call h).append ih

end

theorem takeEnds_map {α : Type} (l : List α) (row : α → ColumnId × FooterRow)
    (fin : α → Option KeyBytes) :
    takeEnds (l.map row) (l.map fin) =
      l.map fun a => ⟨⟨(row a).1, (row a).2.key⟩, fin a, (row a).2.lsn⟩ := by
  induction l with
  | nil => rfl
  | cons a l ih => simp [takeEnds, ih]

def JournalRow.stood (row : JournalRow) : Stood := ⟨row.key, row.rangeEnd, row.lsn⟩

theorem rangeRows_tailFooter (rows : List JournalRow) :
    rangeRows (tailFooter rows) = (sortByKey (fun row => row.key.column) (rows.filter
      (·.flags.isRangeTombstone))).map fun row => (row.key.column, row.footerRow) := by
  unfold rangeRows tailFooter
  rw [keyed_partition, filter_map, ← filter_sort]
  rfl

theorem standRanges_readJournaled (allLanded : List JournalRow → Bool)
    (groups : List (List JournalRow)) :
    standRanges (readJournaled allLanded groups) =
      (sortByKey (fun row => row.key.column) (((groups.filter allLanded).flatten).filter
        (·.flags.isRangeTombstone))).map JournalRow.stood := by
  set rows := (groups.filter allLanded).flatten with hrows
  set ranges := rows.filter (·.flags.isRangeTombstone) with hranges
  have hends : (readJournaled allLanded groups).ends =
      (sortByKey (fun row => row.key.column) ranges).map JournalRow.rangeEnd := by
    simp only [readJournaled, ← hrows, ← hranges]
    rw [sortByKey_map, map_map]
    rfl
  have hfin : (readJournaled allLanded groups).footer = tailFooter rows := rfl
  unfold standRanges
  rw [hends, hfin, rangeRows_tailFooter, takeEnds_map]
  split
  · rename_i he
    rw [List.isEmpty_iff, map_eq_nil_iff] at he
    rw [he]
    rfl
  · rfl

theorem sweepRanges_eq :
    sweepRanges file layout footer = (rangeRows footer).map fun (column, row) =>
      ⟨⟨column, row.key⟩, readRangeEnd file (layout.prefixLen row.key.bytes.length row.len.toNat)
        row.offset.toNat row.len.toNat, row.lsn⟩ := by
  have h := takeEnds_map (rangeRows footer) id fun (_, row) =>
    readRangeEnd file (layout.prefixLen row.key.bytes.length row.len.toNat) row.offset.toNat
      row.len.toNat
  rw [map_id] at h
  exact h

theorem keyed_sealFooter_perm :
    (keyed (sealFooter footer)).Perm (keyed footer) := by
  induction footer with
  | nil => exact List.Perm.refl _
  | cons part footer ih =>
    obtain ⟨column, rows⟩ := part
    have hs : keyed (sealFooter ((column, rows) :: footer)) =
        (sortByKey (fun row => toLex (row.key.bytes, row.lsn.toNat)) rows).map (Prod.mk column) ++
          keyed (sealFooter footer) := rfl
    have hk : keyed ((column, rows) :: footer) = rows.map (Prod.mk column) ++ keyed footer := rfl
    rw [hs, hk]
    exact ((perm_sortByKey _ rows).map _).append ih

theorem rangeRows_seal_perm (rows : List JournalRow) :
    (rangeRows (sealFooter (tailFooter rows))).Perm
      ((rows.filter (·.flags.isRangeTombstone)).map fun row => (row.key.column, row.footerRow)) := by
  unfold rangeRows
  have h := (keyed_sealFooter_perm (tailFooter rows)).filter (fun row => row.2.flags.isRangeTombstone)
  refine h.trans ?_
  unfold tailFooter
  rw [keyed_partition, filter_map]
  exact ((perm_sortByKey _ rows).filter _).map _

def endBack (payload : Str) : Option Str :=
  if payload.length = 0 ∨ maxKeyLen < payload.length then none else some payload

variable {placed : Placed}

theorem journalRow_rangeEnd (h : placed.flags.isRangeTombstone) :
    (journalRow placed).rangeEnd.map KeyBytes.bytes = endBack placed.payload := by
  unfold journalRow endBack
  simp only [h, Bool.true_and, decide_eq_true_eq]
  by_cases hz : placed.payload.length = 0
  · simp [hz]
  · by_cases hw : maxKeyLen < placed.payload.length
    · simp [hw, new_toOption_of_wide hw]
    · rw [if_pos (by omega), if_neg (by omega), new_toOption_of_le (Nat.not_lt.mp hw)]
      rfl

theorem readRangeEnd_payload {file payload : Str} {prefixLen offset : Nat}
    (h : slice file (offset + prefixLen) payload.length = some payload) :
    (readRangeEnd file prefixLen offset payload.length).map KeyBytes.bytes = endBack payload := by
  unfold readRangeEnd endBack
  by_cases hz : payload.length = 0
  · simp [hz]
  · rw [if_neg hz, h]
    by_cases hw : maxKeyLen < payload.length
    · simp [hw, new_toOption_of_wide hw]
    · simp only [new_toOption_of_le (Nat.not_lt.mp hw)]
      rw [if_neg (by omega)]
      rfl

/-- A cover with its end kept and one with the end that comes back take the same keys exactly when
the end is kept. -/
theorem covers_endBack_iff (width : KeyWidth) (start : RecordKey) (fin : Option Str) {lsn : Nat}
    (hlsn : 0 < lsn) (hlt : ∀ e ∈ fin, start.key.bytes < e) :
    (∀ (key : Str) (version : Nat), width.admits key.length →
      ((Covered.mk (width.lowBound start.key.bytes) (fin.map width.lowBound) lsn
          (.release (width.lowBound start.key.bytes))).covers key version = true ↔
        (Covered.mk (width.lowBound start.key.bytes) ((endBack (fin.getD [])).map width.lowBound) lsn
          (.release (width.lowBound start.key.bytes))).covers key version = true)) ↔
      EndKept width start fin := by
  cases fin with
  | none => simp [EndKept, endBack]
  | some e =>
    have hse : start.key.bytes < e := hlt e rfl
    have hne : e.length ≠ 0 := by
      intro h0
      rw [length_eq_zero_iff] at h0
      subst h0
      exact absurd hse (not_lt_nil _)
    by_cases hw : maxKeyLen < e.length
    · have hback : endBack ((some e).getD []) = none := by simp [endBack, hw]
      rw [hback]
      simp only [Covered.covers_iff, Option.map_some, Option.map_none, Option.mem_def,
        Option.some.injEq, reduceCtorEq, false_implies, implies_true, and_true, forall_eq',
        EndKept, not_le.mpr hse, not_le.mpr hw, false_or]
      cases width with
      | fixed n =>
        -- the cut end is itself a key of the column, which only the lost end takes
        simp only [reduceCtorEq, false_and, iff_false]
        intro hall
        have hkey := hall (padTo n e) 0 (padTo_length n e)
        have hlow : padTo n start.key.bytes ≤ padTo n e := padTo_mono hse.le n
        have := hkey.mpr ⟨hlsn, hlow⟩
        exact lt_irrefl _ this.2.2
      | varying =>
        simp only [true_and, KeyWidth.lowBound, KeyWidth.admits]
        constructor
        · intro hall
          by_contra hne'
          have htop := lt_replicate_top_of_take_ne hw.le hne'
          have hkey := hall (replicate maxKeyLen 255) 0 (by simp)
          have := hkey.mpr ⟨hlsn, (hse.trans htop).le⟩
          exact lt_asymm htop this.2.2
        · intro htop key version hk
          constructor
          · exact fun h => ⟨h.1, h.2.1⟩
          · exact fun h => ⟨h.1, h.2, lt_of_take_eq_replicate_top hk hw htop⟩
    · have hback : endBack ((some e).getD []) = some e := by
        simp [endBack, hw]
        exact fun h => hne (by simp [h])
      rw [hback]
      simp only [implies_true, true_iff, EndKept]
      exact Or.inr (Or.inl (Nat.not_lt.mp hw))

def rangesOf (column : ColumnId) (width : KeyWidth) (fin : Placed → Option Str)
    (records : List Placed) : List (Str × Option Str × Nat) :=
  (records.filter fun placed =>
    placed.flags.isRangeTombstone && decide (placed.key.column = column)).map fun placed =>
      rangeOf width placed.key.key.bytes (fin placed) placed.lsn.toNat

variable {column : ColumnId} {width : KeyWidth} {records : List Placed}

theorem mem_rangesOf {fin : Placed → Option Str}
    {range : Str × Option Str × Nat} :
    range ∈ rangesOf column width fin records ↔ ∃ placed ∈ records,
      placed.flags.isRangeTombstone = true ∧ placed.key.column = column ∧
        range = rangeOf width placed.key.key.bytes (fin placed) placed.lsn.toNat := by
  simp only [rangesOf, mem_map, mem_filter, Bool.and_eq_true, decide_eq_true_eq]
  constructor
  · rintro ⟨placed, ⟨hm, hr, hc⟩, rfl⟩
    exact ⟨placed, hm, hr, hc, rfl⟩
  · rintro ⟨placed, hm, hr, hc, rfl⟩
    exact ⟨placed, ⟨hm, hr, hc⟩, rfl⟩

theorem rangesOf_distinct {fin : Placed → Option Str}
    (h : (records.map Placed.lsn).Nodup) :
    (rangesOf column width fin records).Pairwise fun r s => r.2.2 ≠ s.2.2 := by
  unfold rangesOf
  rw [pairwise_map]
  refine List.Pairwise.filter _ ?_
  rw [List.Nodup, pairwise_map] at h
  exact h.imp fun hne heq => hne (UInt64.toNat_inj.mp heq)

section
variable {fin back : Placed → Option Str} {live rebuilt : List (Str × Option Str × Nat)}
  (hnum : (records.map Placed.lsn).Nodup) (hlive : live.Perm (rangesOf column width fin records))
  (hback : rebuilt.Perm (rangesOf column width back records))
include hnum hlive hback

/-- Over lists of ranges that stand the same records, the covers at one record's number agree when
the record's two ends do. -/
theorem sameAt_standAll (hm : placed ∈ records)
    (hr : placed.flags.isRangeTombstone = true) (hc : placed.key.column = column) :
    SameAt width placed.lsn.toNat (standAll live) (standAll rebuilt) ↔
      ∀ (key : Str) (version : Nat), width.admits key.length →
        ((Covered.mk (width.lowBound placed.key.key.bytes) ((fin placed).map width.lowBound)
            placed.lsn.toNat (.release (width.lowBound placed.key.key.bytes))).covers key version = true ↔
          (Covered.mk (width.lowBound placed.key.key.bytes) ((back placed).map width.lowBound)
            placed.lsn.toNat (.release (width.lowBound placed.key.key.bytes))).covers key version
              = true) := by
  have hone : ∀ (f : Placed → Option Str) (ranges : List (Str × Option Str × Nat)),
      ranges.Perm (rangesOf column width f records) → ∀ (key : Str) (version : Nat),
      ((∃ cover ∈ standAll ranges, cover.lsn = placed.lsn.toNat ∧ cover.covers key version = true) ↔
        (Covered.mk (width.lowBound placed.key.key.bytes) ((f placed).map width.lowBound)
          placed.lsn.toNat (.release (width.lowBound placed.key.key.bytes))).covers key version
            = true) := by
    intro f ranges hperm key version
    have hdis : ranges.Pairwise fun r s => r.2.2 ≠ s.2.2 :=
      (hperm.symm.pairwise_iff fun h => h.symm).mp (rangesOf_distinct hnum)
    simp only [mem_standAll hdis, hperm.mem_iff, mem_rangesOf]
    constructor
    · rintro ⟨_, ⟨_, ⟨other, hother, -, -, rfl⟩, rfl⟩, hlsn, hcov⟩
      have : other = placed :=
        inj_on_of_nodup_map hnum hother hm (UInt64.toNat_inj.mp hlsn)
      subst this
      exact hcov
    · exact fun hcov => ⟨_, ⟨_, ⟨placed, hm, hr, hc, rfl⟩, rfl⟩, rfl, hcov⟩
  unfold SameAt
  simp only [hone fin live hlive, hone back rebuilt hback]

theorem sameAt_of_unplaced {lsn : UInt64}
    (hnone : ∀ placed ∈ records, placed.lsn ≠ lsn) :
    SameAt width lsn.toNat (standAll live) (standAll rebuilt) := by
  have hempty : ∀ (f : Placed → Option Str) (ranges : List (Str × Option Str × Nat)),
      ranges.Perm (rangesOf column width f records) →
      ∀ cover ∈ standAll ranges, cover.lsn ≠ lsn.toNat := by
    intro f ranges hperm cover hcover heq
    have hdis : ranges.Pairwise fun r s => r.2.2 ≠ s.2.2 :=
      (hperm.symm.pairwise_iff fun h => h.symm).mp (rangesOf_distinct hnum)
    obtain ⟨_, hrange, rfl⟩ := (mem_standAll hdis).mp hcover
    obtain ⟨placed, hm, -, -, rfl⟩ := mem_rangesOf.mp (hperm.mem_iff.mp hrange)
    exact hnone placed hm (UInt64.toNat_inj.mp heq)
  intro key version _
  constructor
  · rintro ⟨cover, hm, heq, -⟩
    exact absurd heq (hempty fin live hlive cover hm)
  · rintro ⟨cover, hm, heq, -⟩
    exact absurd heq (hempty back rebuilt hback cover hm)

end

def Planned.fin (planned : Planned) : Option Str :=
  if planned.payload.isEmpty then none else some planned.payload

variable {issued : Issued} {start : RecordKey}

theorem Issued.plan_deleteRange
    {fin : Option Str}
    (hw : issued.write = .deleteRange start fin) (hs : specs start.column = some width) :
    issued.plan specs codec =
      if fin.any (· ≤ start.key.bytes) then none
      else some ⟨start, .rangeTombstone, fin.getD []⟩ := by
  simp only [Issued.plan, hw, planWrite, checkColumn, hs, bind, Except.bind]
  split <;> rfl

theorem Issued.plan_cases {planned : Planned} (h : issued.plan specs codec = some planned) :
    (∃ key payload, issued.write = .put key payload ∧ planned = ⟨key, .data, codec key.column payload⟩) ∨
      (∃ key, issued.write = .delete key ∧ planned = ⟨key, .tombstone, []⟩) ∨
      ∃ start fin, issued.write = .deleteRange start fin ∧ ¬ fin.any (· ≤ start.key.bytes) ∧
        planned = ⟨start, .rangeTombstone, fin.getD []⟩ := by
  cases hw : issued.write with
  | put key payload =>
    cases hs : specs key.column <;>
      simp [Issued.plan, planWrite, checkColumn, hw, hs, bind, Except.bind, Except.toOption] at h
    exact .inl ⟨_, _, rfl, h.symm⟩
  | delete key =>
    cases hs : specs key.column <;>
      simp [Issued.plan, planWrite, checkColumn, hw, hs, bind, Except.bind, Except.toOption] at h
    exact .inr (.inl ⟨_, rfl, h.symm⟩)
  | deleteRange start fin =>
    cases hs : specs start.column with
    | none =>
      simp [Issued.plan, planWrite, checkColumn, hw, hs, bind, Except.bind, Except.toOption] at h
    | some _ =>
      rw [Issued.plan_deleteRange hw hs] at h
      split at h
      · cases h
      · exact .inr (.inr ⟨_, _, rfl, ‹_›, (Option.some.inj h).symm⟩)

theorem Planned.fin_deleteRange {fin : Option Str}
    (h : ¬ fin.any (· ≤ start.key.bytes)) :
    Planned.fin ⟨start, .rangeTombstone, fin.getD []⟩ = fin := by
  cases fin with
  | none => rfl
  | some e =>
    cases e with
    | nil => simp at h
    | cons b e => rfl

theorem Issued.range_eq
    {planned : Planned}
    (h : issued.plan specs codec = some planned) :
    issued.range column width =
      if planned.flags.isRangeTombstone && decide (planned.key.column = column) then
        some (rangeOf width planned.key.key.bytes planned.fin issued.lsn.toNat)
      else none := by
  unfold Issued.range
  obtain ⟨key, payload, hw, rfl⟩ | ⟨key, hw, rfl⟩ | ⟨start, fin, hw, hskip, rfl⟩ := Issued.plan_cases h
  · simp [hw]
  · simp [hw]
  · simp [hw, Planned.fin_deleteRange hskip]

theorem eachWritten_filterMap {β γ : Type}
    {act : Planned → Issued → Option β} {act' : Planned → Issued → Option γ} {g : β → Option γ}
    (call : List Issued)
    (h : ∀ issued planned, issued.plan specs codec = some planned →
      act' planned issued = (act planned issued).bind g) :
    eachWritten specs codec act' call = (eachWritten specs codec act call).filterMap g := by
  unfold eachWritten
  rw [planBatch_eq]
  cases hm : (call.map Issued.write).mapM (planWrite specs codec) with
  | error e => rfl
  | ok planned =>
    simp only [Except.map]
    by_cases hnone : planned.all Option.isNone
    · simp [hnone]
    · rw [if_neg hnone]
      simp only [filterMap_zip_plan _ hm, filterMap_filterMap]
      refine filterMap_congr fun issued _ => ?_
      cases hp : issued.plan specs codec with
      | none => rfl
      | some planned => exact h issued planned hp

def tailRecords (specs : Specs) (codec : ColumnId → Str → Str) (calls : List (List Issued)) :
    List Placed :=
  calls.flatMap (placedCall specs codec)

theorem publishedRanges_eq (specs : Specs) (codec : ColumnId → Str → Str) (column : ColumnId)
    (width : KeyWidth) (calls : List (List Issued)) :
    calls.flatMap (publishedRanges specs codec column width) =
      rangesOf column width (fun placed => placed.fin) (tailRecords specs codec calls) := by
  unfold tailRecords rangesOf
  rw [← filterMap_eq_filter, map_filterMap, filterMap_flatMap]
  refine flatMap_congr fun call _ => ?_
  refine eachWritten_filterMap call fun issued planned hp => ?_
  rw [Issued.range_eq hp, Option.bind_some]
  simp only [Option.guard]
  split <;> rfl

variable {calls : List (List Issued)}

theorem tailRecords_nodup (specs : Specs) (codec : ColumnId → Str → Str)
    (h : (calls.flatten.map Issued.lsn).Nodup) :
    ((tailRecords specs codec calls).map Placed.lsn).Nodup := by
  refine List.Nodup.sublist ?_ h
  refine flatMap_eachWritten_sublist calls ?_
  intro planned issued out ho
  simp only [Option.some.injEq] at ho
  rw [← ho]

theorem journalGroups_flatten (specs : Specs) (codec : ColumnId → Str → Str)
    (calls : List (List Issued)) :
    (journalGroups specs codec calls).flatten =
      (tailRecords specs codec calls).map journalRow := by
  unfold journalGroups tailRecords
  induction calls with
  | nil => rfl
  | cons call calls ih =>
    rw [map_cons, flatMap_cons, map_append, ← ih, filter_cons]
    cases hc : (placedCall specs codec call).map journalRow <;> simp

theorem Issued.plan_written
    {planned : Planned} (h : issued.plan specs codec = some planned) : planned.flags.Written := by
  obtain ⟨hdata, htomb, hrange, -⟩ := Flags.written_kinds
  obtain ⟨key, payload, -, rfl⟩ | ⟨key, -, rfl⟩ | ⟨start, fin, -, -, rfl⟩ := Issued.plan_cases h
  · exact hdata
  · exact htomb
  · exact hrange

theorem journalRow_sound
    (h : placed ∈ placedCall specs codec call) : (journalRow placed).Sound := by
  obtain ⟨-, issued, -, planned, hplan, hplaced⟩ := mem_eachWritten.mp h
  rw [Option.some.injEq] at hplaced
  refine ⟨?_, ?_⟩
  · rw [← hplaced]
    exact Issued.plan_written hplan
  · intro hsome
    by_contra hr
    simp only [journalRow] at hsome hr
    simp [hr] at hsome

theorem readGroups_journal (checksum : Str → UInt32) (specs : Specs)
    (codec : ColumnId → Str → Str) (calls : List (List Issued)) (zeros : Nat)
    (h : ∀ group ∈ journalGroups specs codec calls, (pushRows group).length < 2 ^ 32) :
    (readGroups checksum ((journalGroups specs codec calls).flatMap (pushGroup checksum) ++
      replicate zeros 0)).1 = journalGroups specs codec calls := by
  rw [readGroups_pushGroups]
  intro group hg
  obtain ⟨hmem, hne⟩ := mem_filter.mp hg
  obtain ⟨call, -, rfl⟩ := mem_map.mp hmem
  refine ⟨?_, ?_, h _ hg⟩
  · intro row hrow
    obtain ⟨placed, hplaced, rfl⟩ := mem_map.mp hrow
    exact journalRow_sound hplaced
  · intro hnil
    simp [hnil] at hne

def journaledCovers (column : ColumnId) (width : KeyWidth) (allLanded : List JournalRow → Bool)
    (checksum : Str → UInt32) (journal : Str) : List (Covered Str) :=
  rebuildCovers column width (standRanges (readJournaled allLanded (readGroups checksum journal).1))

def sealedCovers (column : ColumnId) (width : KeyWidth) (file : Str) (layout : RecordLayout)
    (records : List Placed) : List (Covered Str) :=
  rebuildCovers column width
    (sweepRanges file layout (sealFooter (tailFooter (records.map journalRow))))

/-- The segment's file holds every range tombstone's payload where its row says. -/
def EndsHeld (records : List Placed) : Prop :=
  ∀ placed ∈ records, placed.flags.isRangeTombstone = true →
    placed.payload.length < 2 ^ 32 ∧
      slice file (placed.offset.toNat +
        layout.prefixLen placed.key.key.bytes.length placed.payload.length) placed.payload.length =
          some placed.payload

theorem rangesOf_eq_of_stood
    {stoods : List Stood} (fin : Placed → Option Str) (stood : Placed → Stood)
    (hperm : stoods.Perm ((records.filter (·.flags.isRangeTombstone)).map stood))
    (hstood : ∀ placed ∈ records, placed.flags.isRangeTombstone = true →
      (stood placed).start = placed.key ∧ (stood placed).fin.map KeyBytes.bytes = fin placed ∧
        (stood placed).lsn = placed.lsn) :
    ((stoods.filter (fun range => range.start.column = column)).map fun range =>
      rangeOf width range.start.key.bytes (range.fin.map KeyBytes.bytes) range.lsn.toNat).Perm
      (rangesOf column width fin records) := by
  refine ((hperm.filter _).map _).trans (List.Perm.of_eq ?_)
  unfold rangesOf
  rw [filter_map, map_map, filter_filter]
  have hfilter : records.filter (fun placed =>
      ((fun range : Stood => decide (range.start.column = column)) ∘ stood) placed &&
        placed.flags.isRangeTombstone) = records.filter (fun placed =>
      placed.flags.isRangeTombstone && decide (placed.key.column = column)) := by
    refine filter_congr fun placed hm => ?_
    cases hr : placed.flags.isRangeTombstone with
    | false => simp
    | true => simp [(hstood placed hm hr).1]
  rw [hfilter]
  refine map_congr_left fun placed hm => ?_
  obtain ⟨hmem, hflag⟩ := mem_filter.mp hm
  simp only [Bool.and_eq_true] at hflag
  obtain ⟨hstart, hfin, hlsn⟩ := hstood placed hmem hflag.1
  simp only [Function.comp_apply, hstart, hfin, hlsn]

theorem journaled_perm (column : ColumnId)
    (width : KeyWidth) {allLanded : List JournalRow → Bool}
    (hland : ∀ group ∈ journalGroups specs codec calls, allLanded group = true) :
    (((standRanges (readJournaled allLanded (journalGroups specs codec calls))).filter
      (fun range => range.start.column = column)).map fun range =>
        rangeOf width range.start.key.bytes (range.fin.map KeyBytes.bytes) range.lsn.toNat).Perm
      (rangesOf column width (fun placed => endBack placed.payload)
        (tailRecords specs codec calls)) := by
  refine rangesOf_eq_of_stood _ (fun placed => (journalRow placed).stood) ?_ ?_
  · rw [standRanges_readJournaled, filter_eq_self.mpr hland, journalGroups_flatten,
      filter_map]
    refine ((perm_sortByKey _ _).map _).trans (List.Perm.of_eq ?_)
    rw [map_map]
    rfl
  · exact fun placed _ hr => ⟨rfl, journalRow_rangeEnd hr, rfl⟩

theorem sealed_perm (column : ColumnId) (width : KeyWidth) {file : Str} {layout : RecordLayout}
    (hheld : EndsHeld file layout records) :
    (((sweepRanges file layout (sealFooter (tailFooter (records.map journalRow)))).filter
      (fun range => range.start.column = column)).map fun range =>
        rangeOf width range.start.key.bytes (range.fin.map KeyBytes.bytes) range.lsn.toNat).Perm
      (rangesOf column width (fun placed => endBack placed.payload) records) := by
  refine rangesOf_eq_of_stood _ (fun placed => ⟨placed.key, readRangeEnd file
    (layout.prefixLen placed.key.key.bytes.length (UInt32.ofNat placed.payload.length).toNat)
      placed.offset.toNat (UInt32.ofNat placed.payload.length).toNat, placed.lsn⟩) ?_ ?_
  · rw [sweepRanges_eq]
    refine ((rangeRows_seal_perm _).map _).trans (List.Perm.of_eq ?_)
    rw [filter_map, map_map, map_map]
    rfl
  · intro placed hm hr
    obtain ⟨hlen, hslice⟩ := hheld placed hm hr
    have hnat : (UInt32.ofNat placed.payload.length).toNat = placed.payload.length :=
      UInt32.toNat_ofNat_of_lt' hlen
    refine ⟨rfl, ?_, rfl⟩
    simp only [hnat]
    exact readRangeEnd_payload hslice

theorem mem_tailRecords_deleteRange
        {fin : Option Str} (hcall : call ∈ calls) (hok : Accepted specs codec call)
    (hi : issued ∈ call) (hw : issued.write = .deleteRange start fin)
    (hs : specs start.column = some width) (hskip : ¬ fin.any (· ≤ start.key.bytes)) :
    ⟨⟨start, .rangeTombstone, fin.getD []⟩, issued.lsn, issued.offset⟩ ∈
      tailRecords specs codec calls := by
  refine mem_flatMap.mpr ⟨call, hcall, mem_eachWritten.mpr ⟨hok, issued, hi, _, ?_, rfl⟩⟩
  rw [Issued.plan_deleteRange hw hs, if_neg hskip]

theorem unplaced_of_skipped (codec : ColumnId → Str → Str)
        {fin : Option Str} (hnum : (calls.flatten.map Issued.lsn).Nodup)
    (hcall : call ∈ calls) (hi : issued ∈ call) (hw : issued.write = .deleteRange start fin)
    (hs : specs start.column = some width) (hskip : fin.any (· ≤ start.key.bytes)) :
    ∀ placed ∈ tailRecords specs codec calls, placed.lsn ≠ issued.lsn := by
  intro placed hm heq
  obtain ⟨other, hother, hmem⟩ := mem_flatMap.mp hm
  obtain ⟨-, write, hwrite, planned, hplan, hplaced⟩ := mem_eachWritten.mp hmem
  rw [Option.some.injEq] at hplaced
  have hlsn : write.lsn = issued.lsn := by rw [← heq, ← hplaced]
  have hsame : write = issued := inj_on_of_nodup_map hnum
    (mem_flatten.mpr ⟨other, hother, hwrite⟩) (mem_flatten.mpr ⟨call, hcall, hi⟩) hlsn
  rw [hsame, Issued.plan_deleteRange hw hs, if_pos hskip] at hplan
  exact absurd hplan (by simp)

/-- The range a range delete stands live, from the journal and from the sealed segment is one and
the same exactly when its end is kept. -/
theorem rebuilt_range_eq_iff {specs : Specs} {codec : ColumnId → Str → Str}
    {calls : List (List Issued)} {call : List Issued} {issued : Issued} {start : RecordKey}
    {fin : Option Str} {width : KeyWidth} {allLanded : List JournalRow → Bool}
    {checksum : Str → UInt32} {journal file : Str} {layout : RecordLayout}
    (hcall : call ∈ calls) (hok : Accepted specs codec call) (hi : issued ∈ call)
    (hw : issued.write = .deleteRange start fin) (hs : specs start.column = some width)
    (hlsn : 0 < issued.lsn.toNat) (hnum : (calls.flatten.map Issued.lsn).Nodup)
    (hjournal : (readGroups checksum journal).1 = journalGroups specs codec calls)
    (hland : ∀ group ∈ journalGroups specs codec calls, allLanded group = true)
    (hheld : EndsHeld file layout (tailRecords specs codec calls)) :
    (SameAt width issued.lsn.toNat (liveCovers specs codec start.column width calls)
        (journaledCovers start.column width allLanded checksum journal) ∧
      SameAt width issued.lsn.toNat (liveCovers specs codec start.column width calls)
        (sealedCovers start.column width file layout (tailRecords specs codec calls))) ↔
      EndKept width start fin := by
  have hdistinct := tailRecords_nodup specs codec hnum
  have hlive := List.Perm.of_eq (publishedRanges_eq specs codec start.column width calls)
  have hjour := journaled_perm start.column width hland
  have hseal := sealed_perm start.column width hheld
  unfold liveCovers journaledCovers sealedCovers rebuildCovers
  rw [hjournal]
  by_cases hskip : fin.any (· ≤ start.key.bytes)
  · have hnone := unplaced_of_skipped codec hnum hcall hi hw hs hskip
    refine iff_of_true ⟨sameAt_of_unplaced hdistinct hlive hjour hnone,
      sameAt_of_unplaced hdistinct hlive hseal hnone⟩ ?_
    cases fin with
    | none => exact trivial
    | some e => exact Or.inl (by simpa using hskip)
  · have hm := mem_tailRecords_deleteRange hcall hok hi hw hs hskip
    have hback := covers_endBack_iff width start fin hlsn
      (by intro e he; subst he; simpa using hskip)
    have hj := sameAt_standAll hdistinct hlive hjour hm (by simp) rfl
    have hf := sameAt_standAll hdistinct hlive hseal hm (by simp) rfl
    rw [Planned.fin_deleteRange hskip] at hj hf
    rw [hj, hf, and_self]
    exact hback

section Sample

def dropBelow (fin : Str) : Issued := ⟨.deleteRange ⟨0, ⟨[], by decide⟩⟩ (some fin), 1, 52⟩

def sampleSpecs : Specs := fun column => if column = 0 then some .varying else none

def sampleJournal (fin : Str) : Str :=
  (journalGroups sampleSpecs (fun _ => id) [[dropBelow fin]]).flatMap (pushGroup fun _ => 0) ++
    replicate 16 0

def sampleFile (fin : Str) : Str := replicate (52 + keylessPrefix) 0 ++ fin

/-- An end of 1057 bytes comes back as no end, so the key `[2]` is covered after a reopen only. -/
theorem wide_end_reopens_open_ended :
    Accepted sampleSpecs (fun _ => id) [dropBelow (replicate 1057 1)] ∧
      ¬ SameAt .varying 1
        (liveCovers sampleSpecs (fun _ => id) 0 .varying [[dropBelow (replicate 1057 1)]])
        (journaledCovers 0 .varying (fun _ => true) (fun _ => 0)
          (sampleJournal (replicate 1057 1))) ∧
      ¬ SameAt .varying 1
        (liveCovers sampleSpecs (fun _ => id) 0 .varying [[dropBelow (replicate 1057 1)]])
        (sealedCovers 0 .varying (sampleFile (replicate 1057 1)) .keyless
          (tailRecords sampleSpecs (fun _ => id) [[dropBelow (replicate 1057 1)]])) := by
  have hlive : liveCovers sampleSpecs (fun _ => id) 0 .varying
      [[dropBelow (replicate 1057 1)]] =
        [⟨[], some (replicate 1057 1), 1, .release []⟩] := by decide +kernel
  have hjournaled : journaledCovers 0 .varying (fun _ => true) (fun _ => 0)
      (sampleJournal (replicate 1057 1)) = [⟨[], none, 1, .release []⟩] := by decide +kernel
  have hsealed : sealedCovers 0 .varying (sampleFile (replicate 1057 1)) .keyless
      (tailRecords sampleSpecs (fun _ => id) [[dropBelow (replicate 1057 1)]]) =
        [⟨[], none, 1, .release []⟩] := by decide +kernel
  have hdiffer : ¬ SameAt .varying 1 [⟨[], some (replicate 1057 1), 1, .release []⟩]
      [⟨[], none, 1, .release []⟩] := by
    intro hsame
    have hback := (hsame [2] 0 (by decide)).mpr ⟨_, mem_singleton_self _, rfl, by decide⟩
    obtain ⟨cover, hm, -, hcov⟩ := hback
    rw [mem_singleton.mp hm] at hcov
    exact absurd hcov (by decide)
  rw [hlive, hjournaled, hsealed]
  exact ⟨⟨_, rfl⟩, hdiffer, hdiffer⟩

theorem narrow_end_reopens_same : EndKept .varying ⟨0, ⟨[], by decide⟩⟩ (some [5]) ∧
    SameAt .varying 1 (liveCovers sampleSpecs (fun _ => id) 0 .varying [[dropBelow [5]]])
      (journaledCovers 0 .varying (fun _ => true) (fun _ => 0) (sampleJournal [5])) ∧
    SameAt .varying 1 (liveCovers sampleSpecs (fun _ => id) 0 .varying [[dropBelow [5]]])
      (sealedCovers 0 .varying (sampleFile [5]) .keyless
        (tailRecords sampleSpecs (fun _ => id) [[dropBelow [5]]])) := by
  have hkept : EndKept .varying ⟨0, ⟨[], by decide⟩⟩ (some [5]) := Or.inr (Or.inl (by decide))
  have hok : Accepted sampleSpecs (fun _ => id) [dropBelow [5]] := ⟨_, rfl⟩
  have hread : (readGroups (fun _ => 0) (sampleJournal [5])).1 =
      journalGroups sampleSpecs (fun _ => id) [[dropBelow [5]]] :=
    readGroups_journal _ _ _ _ _ (by decide)
  have hheld : EndsHeld (sampleFile [5]) .keyless
      (tailRecords sampleSpecs (fun _ => id) [[dropBelow [5]]]) := by
    intro placed hm _
    have hone : placed = ⟨⟨⟨0, ⟨[], by decide⟩⟩, .rangeTombstone, [5]⟩, 1, 52⟩ :=
      mem_singleton.mp hm
    subst hone
    decide
  exact ⟨hkept, (rebuilt_range_eq_iff (mem_singleton_self _) hok (mem_singleton_self _)
    rfl rfl (by decide) (by decide) hread (fun _ _ => rfl) hheld).mpr hkept⟩

end Sample

/-! A footer is taken here as the rows its partitions list: a tail's footer as built of the journal's rows,
and a sealed one as packed and parsed back. -/

def FooterRow.entry (column : ColumnId) (row : FooterRow) : Footer.FooterEntry :=
  ⟨⟨column, row.key⟩, row.lsn, row.offset, row.len, row.flags⟩

def JournalRow.footerEntry (row : JournalRow) : Footer.FooterEntry :=
  ⟨row.key, row.lsn, row.offset, row.len, row.flags⟩

def entriesOf (footer : SegmentFooter) : List (ColumnId × List Footer.FooterEntry) :=
  footer.map fun part => (part.1, part.2.map (FooterRow.entry part.1))

namespace Footer

/-- The partitions list these entries, column by column and in order. -/
def Listed (partitions : List FooterPartition) (groups : List (ColumnId × List FooterEntry)) : Prop :=
  Forall₂ (fun p group => p.column = group.1 ∧ p.entries = group.2.map .ok) partitions groups

def FooterEntry.place (entry : FooterEntry) : Lex (Str × Nat) := toLex (entry.keyBytes, entry.lsn.toNat)

theorem entriesOf_tailFooter (rows : List JournalRow) :
    entriesOf (tailFooter rows) = groupsOf (rows.map JournalRow.footerEntry) := by
  rw [entriesOf, tailFooter, map_partition, groupsOf, partition_map]
  rfl

theorem entriesOf_sealFooter (footer : Reel.SegmentFooter) :
    entriesOf (sealFooter footer) =
      (entriesOf footer).map fun group => (group.1, sortByKey FooterEntry.place group.2) := by
  unfold entriesOf sealFooter
  rw [map_map, map_map]
  refine map_congr_left fun part _ => ?_
  rw [Function.comp_apply, Function.comp_apply, sortByKey_map]
  rfl

variable {partitions : List FooterPartition} {groups out : List (ColumnId × List FooterEntry)}

theorem listed_of_groups (h : Groups partitions groups)
    (hin : ∀ group ∈ groups, roomOf group.2 < 2 ^ 32 ∧ ∀ entry ∈ group.2, entry.flags.Written) :
    Listed partitions groups := by
  induction h with
  | nil => exact .nil
  | @cons p group partitions groups hp _ ih =>
    obtain ⟨hroom, hflags⟩ := hin group mem_cons_self
    exact .cons ⟨hp.1, hp.2.entries hroom hflags⟩ (ih fun other hother => hin other (mem_cons_of_mem _ hother))

theorem sortByKey_of_before {l l' : List FooterEntry} {column : ColumnId} (hperm : l'.Perm l)
    (hsorted : l'.Pairwise FooterEntry.Before) (hdistinct : Distinct l)
    (hcolumn : ∀ entry ∈ l, entry.key.column = column) : sortByKey FooterEntry.place l = l' := by
  have hback := perm_sortByKey FooterEntry.place l
  refine (hback.trans hperm.symm).eq_of_pairwise (fun a b ha hb hab hba => ?_)
    ((sorted_sortByKey _ l).imp fun hle => ?_) hsorted
  · exact eq_of_before hdistinct hcolumn (hback.mem_iff.mp ha) (hperm.mem_iff.mp hb) hab hba
  · exact Prod.Lex.toLex_le_toLex.mp hle

theorem Rearranged.eq_sorted (h : Rearranged out groups)
    (hsorted : ∀ group ∈ out, group.2.Pairwise FooterEntry.Before)
    (hin : ∀ group ∈ groups, Distinct group.2 ∧ ∀ entry ∈ group.2, entry.key.column = group.1) :
    groups.map (fun group => (group.1, sortByKey FooterEntry.place group.2)) = out := by
  induction h with
  | nil => rfl
  | @cons head group out groups hp _ ih =>
    obtain ⟨hdistinct, hcolumn⟩ := hin group mem_cons_self
    rw [map_cons, sortByKey_of_before hp.2 (hsorted head mem_cons_self) hdistinct hcolumn, ← hp.1,
      ih (fun other hother => hsorted other (mem_cons_of_mem _ hother))
        fun other hother => hin other (mem_cons_of_mem _ hother)]

section
variable {rows : List JournalRow} (hflags : ∀ row ∈ rows, row.flags.Written)
  (hroom : ∀ column, roomOf ((rows.map JournalRow.footerEntry).filter (·.key.column = column)) < 2 ^ 32)
include hflags hroom

theorem groupsOf_readable {group : ColumnId × List FooterEntry}
    (h : group ∈ groupsOf (rows.map JournalRow.footerEntry)) :
    roomOf group.2 < 2 ^ 32 ∧ ∀ entry ∈ group.2, entry.flags.Written := by
  refine ⟨(writable_groupsOf hroom group h).2, fun entry hentry => ?_⟩
  rw [(mem_groupsOf h).1] at hentry
  obtain ⟨row, hrow, rfl⟩ := mem_map.mp (mem_filter.mp hentry).1
  exact hflags row hrow

theorem build_listed :
    Listed (SegmentFooter.build (rows.map JournalRow.footerEntry)).partitions (entriesOf (tailFooter rows)) := by
  rw [entriesOf_tailFooter]
  exact listed_of_groups (build_groups _) fun group hgroup => groupsOf_readable hflags hroom hgroup

/-- A journal's rows packed as a footer parse back to the rows of the sealed footer. -/
theorem parsed_listed (hdistinct : Distinct (rows.map JournalRow.footerEntry))
    (sorter : UnstableSort (Nat × Nat)) (checksum : Str → UInt32) (filterBits : Nat) :
    ∃ bytes packed, (SegmentFooter.build (rows.map JournalRow.footerEntry)).pack sorter checksum filterBits =
        .ok (bytes, packed) ∧
      (bytes.length < 2 ^ 32 → SegmentFooter.parseOwned checksum bytes = .ok packed) ∧
      Listed packed.partitions (entriesOf (sealFooter (tailFooter rows))) := by
  obtain ⟨out, image, tail, hout, harranged, -, -, hpack, -, hparse⟩ := pack_image
    (build_groups (rows.map JournalRow.footerEntry)) (ordered_partition _ _ _) (writable_groupsOf hroom)
    sorter checksum filterBits
  refine ⟨_, _, hpack, hparse, ?_⟩
  have hsorted : ∀ group ∈ out, group.2.Pairwise FooterEntry.Before := fun group hgroup =>
    let ⟨_, htidy⟩ := harranged.tidy.exists_partition hgroup
    htidy.sorted
  have heq := hout.eq_sorted hsorted fun group hgroup => ?_
  · rw [entriesOf_sealFooter, entriesOf_tailFooter, heq]
    refine listed_of_groups (harranged.tidy.imp fun p group hp => ⟨hp.1, hp.2.holds⟩) fun group hgroup => ?_
    obtain ⟨origin, horigin, -, hperm⟩ := hout.exists_group hgroup
    obtain ⟨hsize, hwritten⟩ := groupsOf_readable hflags hroom horigin
    exact ⟨(roomOf_perm hperm).trans_lt hsize, fun entry hentry => hwritten entry (hperm.mem_iff.mp hentry)⟩
  · rw [(mem_groupsOf hgroup).1]
    refine ⟨hdistinct.subset fun entry hentry => (mem_filter.mp hentry).1, fun entry hentry => ?_⟩
    simpa using (mem_filter.mp hentry).2

end

end Footer

def carriedEnd (payload : Str) : Option Str := if payload.length = 0 then none else some payload

theorem endBack_eq_carriedEnd_iff (payload : Str) :
    endBack payload = carriedEnd payload ↔ payload.length ≤ maxKeyLen := by
  unfold endBack carriedEnd
  by_cases hz : payload.length = 0
  · simp [hz]
  · by_cases hw : maxKeyLen < payload.length
    · simp [hz, hw]
    · simp [hz, hw, Nat.not_lt.mp hw]

/-- The record of a range row stands in the file with this payload. -/
def HoldsPayload (row : FooterRow) (payload : Str) : Prop :=
  slice file (row.offset.toNat + layout.prefixLen row.key.bytes.length row.len.toNat) row.len.toNat =
    some payload

instance (file : Str) (layout : RecordLayout) (row : FooterRow) (payload : Str) :
    Decidable (HoldsPayload file layout row payload) := inferInstanceAs (Decidable (_ = _))

/-- Every range tombstone of a journaled tail stands once, in footer order and with its own row's end. One of
a sealed segment stands so too, and with its own record's end exactly where that fits a key. -/
theorem range_ends_paired_iff {file : Str} {layout : RecordLayout} {footer : SegmentFooter}
    {payload : ColumnId × FooterRow → Str}
    (hfile : ∀ x ∈ rangeRows footer, HoldsPayload file layout x.2 (payload x)) :
    (∀ (allLanded : List JournalRow → Bool) (groups : List (List JournalRow)), ∃ order : List JournalRow,
      order.Perm (((groups.filter allLanded).flatten).filter (·.flags.isRangeTombstone)) ∧
      rangeRows (readJournaled allLanded groups).footer =
        order.map (fun row => (row.key.column, row.footerRow)) ∧
      standRanges (readJournaled allLanded groups) = order.map JournalRow.stood) ∧
    ((sweepRanges file layout footer).map (fun range =>
        (range.start, range.fin.map KeyBytes.bytes, range.lsn)) =
        (rangeRows footer).map (fun x => (⟨x.1, x.2.key⟩, carriedEnd (payload x), x.2.lsn)) ↔
      ∀ x ∈ rangeRows footer, x.2.len.toNat ≤ maxKeyLen) := by
  refine ⟨fun allLanded groups => ⟨_, perm_sortByKey _ _, rangeRows_tailFooter _,
    standRanges_readJournaled allLanded groups⟩, ?_⟩
  rw [sweepRanges_eq, map_map, map_inj_left]
  refine forall₂_congr fun x hx => ?_
  have hlen : (payload x).length = x.2.len.toNat := slice_length (hfile x hx)
  have hback : (readRangeEnd file (layout.prefixLen x.2.key.bytes.length x.2.len.toNat) x.2.offset.toNat
      (payload x).length).map KeyBytes.bytes = endBack (payload x) :=
    readRangeEnd_payload (by rw [hlen]; exact hfile x hx)
  rw [hlen] at hback
  simp only [Function.comp_apply, Prod.mk.injEq, true_and, and_true, hback, endBack_eq_carriedEnd_iff, hlen]

/-- Two columns, in each a range between other rows, and an open one last. -/
def mixedFooter : SegmentFooter :=
  [(0, [⟨⟨[1, 3], by decide⟩, 3, 52, 5, .data⟩, ⟨⟨[2, 4], by decide⟩, 4, 67, 2, .rangeTombstone⟩,
      ⟨⟨[7, 8], by decide⟩, 5, 79, 1, .data⟩]),
    (3, [⟨⟨[4], by decide⟩, 6, 90, 0, .tombstone⟩, ⟨⟨[5], by decide⟩, 7, 100, 3, .rangeTombstone⟩,
      ⟨⟨[8], by decide⟩, 9, 113, 4, .data⟩, ⟨⟨[8, 1], by decide⟩, 8, 127, 0, .rangeTombstone⟩])]

def mixedPayload (x : ColumnId × FooterRow) : Str :=
  if x.2.lsn = 4 then [9, 9] else if x.2.lsn = 7 then [8, 8, 8] else replicate x.2.len.toNat 1

/-- The records of `mixedFooter` back to back, behind the segment's header. -/
def mixedFile : Str :=
  replicate 52 0 ++ (keyed mixedFooter).flatMap fun x => replicate keylessPrefix 0 ++ mixedPayload x

theorem range_ends_paired_sample :
    (sweepRanges mixedFile .keyless mixedFooter).map (fun range =>
      (range.start, range.fin.map KeyBytes.bytes, range.lsn)) =
      [(⟨0, ⟨[2, 4], by decide⟩⟩, some [9, 9], 4), (⟨3, ⟨[5], by decide⟩⟩, some [8, 8, 8], 7),
        (⟨3, ⟨[8, 1], by decide⟩⟩, none, 8)] := by
  have hheld : ∀ x ∈ rangeRows mixedFooter, HoldsPayload mixedFile .keyless x.2 (mixedPayload x) := by
    decide +kernel
  exact ((range_ends_paired_iff hheld).2.mpr (by decide +kernel)).trans (by decide +kernel)

def sampleRange (fin : Str) : SegmentFooter :=
  [(0, [⟨⟨[], by decide⟩, 1, 52, UInt32.ofNat fin.length, .rangeTombstone⟩])]

/-- An end of 1057 bytes stands in its record, and the range is given none. -/
theorem wide_end_stands_as_none :
    (∀ x ∈ rangeRows (sampleRange (replicate 1057 1)),
      HoldsPayload (sampleFile (replicate 1057 1)) .keyless x.2 (replicate 1057 1)) ∧
      (sweepRanges (sampleFile (replicate 1057 1)) .keyless
        (sampleRange (replicate 1057 1))).map Stood.fin = [none] ∧
      carriedEnd (replicate 1057 1) = some (replicate 1057 1) := by
  decide +kernel

end Reel
