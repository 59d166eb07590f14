import Reel.Library.SortedMap
import Reel.Library.StableSort
import Reel.Index.Entry

/-!
A reader that does not own the log follows it: a pass lists the segments, reads what each holds past the cursor,
applies what it found in sequence order, and forgets the segments that are gone. The index is a parameter, a record
of the calls a pass makes on it with what each may know of a segment.
-/

set_option autoImplicit false

namespace Reel.Tailer
open Bytes StableSort List SortedMap

/-- One record a pass read off a segment. -/
structure WalkedRecord where
  key : RecordKey
  lsn : Nat
  loc : Loc
  kind : Kind
  isRelocated : Bool
  rangeEnd : Option Str

structure RangeCover where
  start : RecordKey
  fin : Option Str
  lsn : Nat

def RangeCover.covers (cover : RangeCover) (key : RecordKey) (lsn : Nat) : Bool :=
  if key.column ≠ cover.start.column ∨ cover.lsn ≤ lsn then false
  else if key.key.bytes < cover.start.key.bytes then false
  else cover.fin.all (key.key.bytes < ·)

/-- How far the last pass read in a segment: so many journal rows, or the footer. -/
inductive Position where
  | rows (count : Nat)
  | footer
  deriving DecidableEq

/-- A segment as a pass finds it: the rows of its journal, or of its footer once it is sealed. -/
structure LogSegment where
  id : Nat
  isSealed : Bool
  rows : List WalkedRecord
  placed : ∀ row ∈ rows, row.loc.segment = id

structure LogVolume where
  segments : List LogSegment
  ordered : (segments.map LogSegment.id).Pairwise (· < ·)

structure LogCursor where
  positions : SortedMap Nat Position
  ranges : List RangeCover

/-- An index knows no segment it did not know, but one. -/
def Adds {ι : Type} (knows : ι → Nat → Bool) (index index' : ι) (segment : Nat) : Prop :=
  ∀ id, knows index' id = true → knows index id = true ∨ id = segment

/-- What a pass asks of the index. A call that fails leaves what `broken` says. The index knows of a segment by the
records it was given from it, until the segment is forgotten; forgetting one it does not know, and noting the spans of
one that holds nothing, changes nothing. -/
structure FollowedIndex (ι : Type) where
  removeRange : ι → RecordKey → Option Str → Nat → Loc → ι
  remove : ι → RecordKey → Nat → Loc → Bool × ι
  insert : ι → RecordKey → Loc → Nat → Bool × ι
  retiredSource : ι → RecordKey → List Nat → Nat → Option Loc
  repoint : ι → RecordKey → Option Loc → Loc → Nat → Bool × ι
  forgetSegment : ι → Nat → ι
  forgetRetiredSlots : ι → Nat × ι
  noteSpans : ι → LogSegment → ι
  broken : ι → WalkedRecord → ι
  knows : ι → Nat → Bool
  removeRange_adds : ∀ index key fin lsn loc, Adds knows index (removeRange index key fin lsn loc) loc.segment
  remove_adds : ∀ index key lsn loc, Adds knows index (remove index key lsn loc).2 loc.segment
  insert_adds : ∀ index key loc lsn, Adds knows index (insert index key loc lsn).2 loc.segment
  repoint_adds : ∀ index key source loc lsn, Adds knows index (repoint index key source loc lsn).2 loc.segment
  noteSpans_adds : ∀ index segment, Adds knows index (noteSpans index segment) segment.id
  broken_adds : ∀ index record, Adds knows index (broken index record) record.loc.segment
  retiredSource_known : ∀ index key (gone : List Nat) len,
    retiredSource index key (gone.filter (knows index)) len = retiredSource index key gone len
  forget_known : ∀ index (gone : List Nat), (forgetRetiredSlots ((gone.filter (knows index)).foldl forgetSegment index)).2 =
    (forgetRetiredSlots (gone.foldl forgetSegment index)).2
  forgotten : ∀ index (gone : List Nat) id, knows (forgetRetiredSlots (gone.foldl forgetSegment index)).2 id = true →
    knows index id = true ∧ id ∉ gone
  noteSpans_blank : ∀ index segment, segment.rows = [] → noteSpans index segment = index

/-- Where a pass fails: at the listing, at a segment's open or reads, at a record's application. -/
structure Faults where
  listing : Option String
  segment : Nat → Option String
  apply : WalkedRecord → Option String

def Faults.none : Faults := ⟨.none, fun _ => .none, fun _ => .none⟩

structure CaughtUp where
  applied : Nat
  skipped : Nat
  retired : List Nat
  highestLsn : Nat
  isSaturated : Bool
  lost : Nat

def coverWindow : Nat := 2 ^ 20

def maxCovers : Nat := 4096

def start (positions : SortedMap Nat Position) (id : Nat) : Position := (positions.get id).getD (.rows 0)

def followSegment (segment : LogSegment) (count : Nat) : List WalkedRecord × Position :=
  if segment.isSealed then (segment.rows, .footer)
  else (segment.rows.drop count, .rows (count + (segment.rows.drop count).length))

structure Gathered where
  fault : Option String
  found : List WalkedRecord
  sealed' : List LogSegment
  positions : SortedMap Nat Position

/-- Read every segment past the cursor. A position moves as its segment is read, whatever becomes of the pass. -/
def gather (faults : Faults) : List LogSegment → SortedMap Nat Position → Gathered
  | [], positions => ⟨none, [], [], positions⟩
  | segment :: rest, positions =>
    match start positions segment.id with
    | .footer => gather faults rest positions
    | .rows count =>
      match faults.segment segment.id with
      | some message => ⟨some message, [], [], positions⟩
      | none =>
        let followed := followSegment segment count
        let after := gather faults rest (positions.put segment.id followed.2)
        { after with
          found := followed.1 ++ after.found
          sealed' := if segment.isSealed then segment :: after.sealed' else after.sealed' }

section
variable {ι : Type} (x : FollowedIndex ι)

/-- Apply one record, with whether it changed anything. -/
def applyOne (gone : List Nat) (index : ι) (ranges : List RangeCover) (record : WalkedRecord) :
    Bool × ι × List RangeCover :=
  match record.kind with
  | .rangeTombstone =>
    (true, x.removeRange index record.key record.rangeEnd record.lsn record.loc,
      ranges ++ [⟨record.key, record.rangeEnd, record.lsn⟩])
  | .tombstone =>
    let removed := x.remove index record.key record.lsn record.loc
    (removed.1, removed.2, ranges)
  | .data =>
    -- the index would take a record a range delete covered as fresh
    if ranges.any (·.covers record.key record.lsn) then (false, index, ranges) else
    let moved := if record.isRelocated then
        x.repoint index record.key (x.retiredSource index record.key gone record.loc.len) record.loc record.lsn
      else (false, index)
    if moved.1 then (true, moved.2, ranges) else
    let inserted := x.insert moved.2 record.key record.loc record.lsn
    (inserted.1, inserted.2, ranges)

def applyAll (faults : Faults) (gone : List Nat) :
    List WalkedRecord → CaughtUp → ι → List RangeCover → Except String CaughtUp × ι × List RangeCover
  | [], result, index, ranges => (.ok result, index, ranges)
  | record :: rest, result, index, ranges =>
    let result := { result with highestLsn := max result.highestLsn record.lsn }
    match faults.apply record with
    | some message => (.error message, x.broken index record, ranges)
    | none =>
      let applied := applyOne x gone index ranges record
      applyAll faults gone rest
        (if applied.1 then { result with applied := result.applied + 1 } else { result with skipped := result.skipped + 1 })
        applied.2.1 applied.2.2

def goneFrom (positions : SortedMap Nat Position) (volume : LogVolume) : List Nat :=
  (positions.keep fun id _ => !(volume.segments.map LogSegment.id).contains id).entries.map Prod.fst

def pruneCovers (ranges : List RangeCover) (highestLsn : Nat) : List RangeCover :=
  let floor := highestLsn - coverWindow
  if floor = 0 then ranges else ranges.filter (floor < ·.lsn)

/-- Advance a reader's index to what the volume holds now. -/
def catchUp (faults : Faults) (volume : LogVolume) (cursor : LogCursor) (index : ι) :
    Except String CaughtUp × ι × LogCursor :=
  match faults.listing with
  | some message => (.error message, index, cursor)
  | none =>
    let gone := goneFrom cursor.positions volume
    let gathered := gather faults volume.segments cursor.positions
    match gathered.fault with
    | some message => (.error message, index, { cursor with positions := gathered.positions })
    | none =>
      let applied := applyAll x faults gone (sortByKey WalkedRecord.lsn gathered.found) ⟨0, 0, gone, 0, false, 0⟩ index
        cursor.ranges
      let positions := gathered.positions.keep fun id _ => !gone.contains id
      let forgotten := x.forgetRetiredSlots (gone.foldl x.forgetSegment applied.2.1)
      match applied.1 with
      | .error message => (.error message, forgotten.2, ⟨positions, applied.2.2⟩)
      | .ok result =>
        let ranges := pruneCovers applied.2.2 result.highestLsn
        (.ok { result with lost := forgotten.1, isSaturated := maxCovers < ranges.length },
          gathered.sealed'.foldl x.noteSpans forgotten.2, ⟨positions, ranges⟩)

end

/-- The volume as its writer may have carried it on: rows are added, open segments sealed, segments retired and new
ones begun. A sealed segment stays as it is. -/
structure Grown (volume later : LogVolume) : Prop where
  rows : ∀ segment ∈ volume.segments, ∀ next ∈ later.segments, next.id = segment.id → segment.rows ⊆ next.rows
  sealed' : ∀ segment ∈ volume.segments, segment.isSealed = true → ∀ next ∈ later.segments, next.id = segment.id →
    next = segment

/-- The index knows no segment the cursor has no position in. -/
def Follows {ι : Type} (x : FollowedIndex ι) (cursor : LogCursor) (index : ι) : Prop :=
  ∀ id, x.knows index id = true → (cursor.positions.get id).isSome

def reads (faults : Faults) (volume : LogVolume) (cursor : LogCursor) : List WalkedRecord :=
  if faults.listing.isSome then [] else (gather faults volume.segments cursor.positions).found

/-- However the volume is carried on, the next pass that succeeds applies what the failed one had read and the volume
still holds, and leaves the index as if the failed one had not run. -/
def LosesNothing {ι : Type} (x : FollowedIndex ι) (faults : Faults) (volume : LogVolume) (cursor : LogCursor)
    (index : ι) : Prop :=
  let failed := (catchUp x faults volume cursor index).2
  ∀ later, Grown volume later → ∀ result, (catchUp x .none later failed.2 failed.1).1 = .ok result →
    (∀ record ∈ reads faults volume cursor, (∃ segment ∈ later.segments, record ∈ segment.rows) →
      record ∈ reads .none later failed.2) ∧
      (catchUp x .none later failed.2 failed.1).2.1 = (catchUp x .none later cursor index).2.1

/-- A segment of which the cursor has read all there is: by its footer, or as far as its journal goes, or because it
was sealed with nothing in it. -/
def ReadOut (positions : SortedMap Nat Position) (segment : LogSegment) : Prop :=
  match start positions segment.id with
  | .footer => True
  | .rows count => segment.rows = [] ∨ segment.isSealed = false ∧ segment.rows.length ≤ count

def ahead (faults : Faults) (volume : List LogSegment) (positions : SortedMap Nat Position) : List LogSegment :=
  volume.takeWhile fun segment => start positions segment.id = .footer ∨ faults.segment segment.id = none

theorem start_put (positions : SortedMap Nat Position) (id : Nat) (position : Position) (other : Nat) :
    start (positions.put id position) other = if other = id then position else start positions other := by
  unfold start
  rw [get_put]
  split <;> rfl

theorem readOut_congr {p q : SortedMap Nat Position} {segment : LogSegment} (h : start p segment.id = start q segment.id) :
    ReadOut p segment ↔ ReadOut q segment := by
  unfold ReadOut
  rw [h]

theorem followSegment_spec {p : SortedMap Nat Position} {segment : LogSegment} {count : Nat}
    (h : start p segment.id = .rows count) :
    ReadOut (p.put segment.id (followSegment segment count).2) segment ∧
      ((followSegment segment count).1 = [] ↔ ReadOut p segment) ∧
      (ReadOut p segment → (followSegment segment count).2 = .rows count ∨
        (followSegment segment count).2 = .footer ∧ segment.isSealed = true ∧ segment.rows = []) := by
  unfold ReadOut followSegment
  rw [start_put, if_pos rfl, h]
  cases hsealed : segment.isSealed with
  | true => simp
  | false =>
    simp only [Bool.false_eq_true, if_false, true_and, length_drop, drop_eq_nil_iff, Position.rows.injEq]
    refine ⟨.inr (by omega), ⟨fun hle => .inr hle, ?_⟩, ?_⟩
    · rintro (hnil | hle)
      · simp [hnil]
      · exact hle
    · rintro (hnil | hle)
      · simp [hnil]
      · exact .inl (by omega)

theorem followSegment_rows (segment : LogSegment) (count : Nat) :
    ∀ record ∈ (followSegment segment count).1, record ∈ segment.rows := by
  intro record hrecord
  unfold followSegment at hrecord
  split at hrecord
  · exact hrecord
  · exact mem_of_mem_drop hrecord

/-- Two cursors read a segment alike, or the second is past one that holds nothing. -/
def Alike (p q : SortedMap Nat Position) (segment : LogSegment) : Prop :=
  start q segment.id = start p segment.id ∨
    start q segment.id = .footer ∧ segment.isSealed = true ∧ segment.rows = []

theorem Alike.put {p q : SortedMap Nat Position} {segment other : LogSegment} (h : Alike p q other)
    (hne : other.id ≠ segment.id) (a b : Position) :
    Alike (p.put segment.id a) q other ∧ Alike (p.put segment.id a) (q.put segment.id b) other := by
  unfold Alike at h ⊢
  rw [start_put, start_put, if_neg hne, if_neg hne]
  exact ⟨h, h⟩

/-- Passes from cursors that read a volume alike find the same and seal the same, but for what holds nothing. -/
theorem gather_alike {volume : List LogSegment} (hordered : (volume.map LogSegment.id).Pairwise (· < ·))
    {p q : SortedMap Nat Position} (h : ∀ segment ∈ volume, Alike p q segment) :
    (gather .none volume q).found = (gather .none volume p).found ∧
      ∀ (ι : Type) (note : ι → LogSegment → ι) (index : ι),
        (∀ index segment, segment.rows = [] → note index segment = index) →
        (gather .none volume q).sealed'.foldl note index = (gather .none volume p).sealed'.foldl note index := by
  induction volume generalizing p q with
  | nil => exact ⟨rfl, fun _ _ _ _ => rfl⟩
  | cons segment rest ih =>
    obtain ⟨hfirst, hrest⟩ := pairwise_cons.mp hordered
    obtain ⟨hhead, htail⟩ := forall_mem_cons.mp h
    have hne : ∀ other ∈ rest, other.id ≠ segment.id := fun other hother => (hfirst _ (mem_map_of_mem hother)).ne'
    have hnone : Faults.none.segment segment.id = none := rfl
    rcases hhead with hsame | ⟨hpast, hsealed, hblank⟩
    · simp only [gather, hsame]
      cases start p segment.id with
      | footer => exact ih hrest htail
      | rows count =>
        obtain ⟨hfound, hspans⟩ := ih hrest fun other hother => ((htail other hother).put (hne other hother)
          (followSegment segment count).2 (followSegment segment count).2).2
        simp only [hnone, hfound, true_and]
        intro ι note index hnote
        cases segment.isSealed with
        | true => exact hspans ι note _ hnote
        | false => exact hspans ι note index hnote
    · cases hstart : start p segment.id with
      | footer => simp only [gather, hpast, hstart]; exact ih hrest htail
      | rows count =>
        have hnothing : (followSegment segment count).1 = [] := by simp [followSegment, hsealed, hblank]
        obtain ⟨hfound, hspans⟩ := ih hrest fun other hother => ((htail other hother).put (hne other hother)
          (followSegment segment count).2 .footer).1
        simp only [gather, hpast, hstart, hnone, hfound, hnothing, nil_append, hsealed, if_true, true_and, foldl_cons]
        intro ι note index hnote
        rw [hnote index segment hblank]
        exact hspans ι note index hnote

theorem ahead_congr (faults : Faults) {volume : List LogSegment} {p q : SortedMap Nat Position}
    (h : ∀ segment ∈ volume, start p segment.id = start q segment.id) :
    ahead faults volume p = ahead faults volume q := by
  induction volume with
  | nil => rfl
  | cons segment rest ih =>
    obtain ⟨hhead, hrest⟩ := forall_mem_cons.mp h
    have hsame : takeWhile _ rest = takeWhile _ rest := ih hrest
    simp only [ahead, takeWhile_cons, hhead, hsame]

theorem ahead_cons {faults : Faults} {segment : LogSegment} {rest : List LogSegment} {p : SortedMap Nat Position}
    (h : start p segment.id = .footer ∨ faults.segment segment.id = none) :
    ahead faults (segment :: rest) p = segment :: ahead faults rest p := by
  simp [ahead, h]

section
variable {faults : Faults} {volume : List LogSegment}

theorem gather_isSome {p : SortedMap Nat Position} :
    (∀ id, (p.get id).isSome → ((gather faults volume p).positions.get id).isSome) ∧
    (∀ record ∈ (gather faults volume p).found,
      ((gather faults volume p).positions.get record.loc.segment).isSome) ∧
    ∀ segment ∈ (gather faults volume p).sealed', segment.id ∈ volume.map LogSegment.id ∧
      ((gather faults volume p).positions.get segment.id).isSome := by
  induction volume generalizing p with
  | nil => exact ⟨fun _ h => h, by simp [gather], by simp [gather]⟩
  | cons segment rest ih =>
    unfold gather
    cases start p segment.id with
    | footer => exact ⟨ih.1, ih.2.1, fun other hother => ⟨mem_cons_of_mem _ (ih.2.2 other hother).1,
        (ih.2.2 other hother).2⟩⟩
    | rows count =>
      dsimp only
      cases faults.segment segment.id with
      | some message => exact ⟨fun _ h => h, by simp, by simp⟩
      | none =>
        obtain ⟨hkept, hfound, hsealed⟩ := @ih (p.put segment.id (followSegment segment count).2)
        have hput : ∀ id, id = segment.id ∨ (p.get id).isSome → ((gather faults rest
            (p.put segment.id (followSegment segment count).2)).positions.get id).isSome := by
          intro id hid
          refine hkept id ?_
          rw [get_put]
          split
          · rfl
          · next hne => exact hid.resolve_left hne
        refine ⟨fun id hid => hput id (.inr hid), fun record hrecord => ?_, fun other hother => ?_⟩
        · rcases mem_append.mp hrecord with hhere | hlater
          · exact hput _ (.inl (segment.placed record (followSegment_rows segment count record hhere)))
          · exact hfound record hlater
        · have hlater : ∀ other ∈ (gather faults rest (p.put segment.id (followSegment segment count).2)).sealed',
              other.id ∈ (segment :: rest).map LogSegment.id ∧ _ :=
            fun other hother => ⟨mem_cons_of_mem _ (hsealed other hother).1, (hsealed other hother).2⟩
          dsimp only at hother
          split at hother
          · rcases mem_cons.mp hother with rfl | hother
            · exact ⟨mem_cons_self, hput _ (.inl rfl)⟩
            · exact hlater other hother
          · exact hlater other hother

theorem get_gather {p : SortedMap Nat Position} {id : Nat} (hid : id ∉ volume.map LogSegment.id) :
    (gather faults volume p).positions.get id = p.get id := by
  induction volume generalizing p with
  | nil => rfl
  | cons segment rest ih =>
    simp only [map_cons, mem_cons, not_or] at hid
    unfold gather
    cases start p segment.id with
    | footer => exact ih hid.2
    | rows count =>
      dsimp only
      cases faults.segment segment.id with
      | some message => rfl
      | none =>
        refine (ih hid.2).trans ?_
        rw [get_put, if_neg hid.1]

/-- A pass over read out segments finds nothing and moves the cursor only past those that hold nothing. -/
theorem gather_readOut (hordered : (volume.map LogSegment.id).Pairwise (· < ·)) {p : SortedMap Nat Position}
    (hread : ∀ segment ∈ ahead faults volume p, ReadOut p segment) :
    (gather faults volume p).found = [] ∧
      ∀ segment ∈ volume, Alike p (gather faults volume p).positions segment := by
  induction volume generalizing p with
  | nil => exact ⟨rfl, by simp⟩
  | cons segment rest ih =>
    obtain ⟨hfirst, hrest⟩ := pairwise_cons.mp hordered
    have hout : segment.id ∉ rest.map LogSegment.id := fun hmem => lt_irrefl _ (hfirst _ hmem)
    unfold gather
    cases hstart : start p segment.id with
    | footer =>
      rw [ahead_cons (.inl hstart)] at hread
      obtain ⟨hfound, halike⟩ := ih hrest (forall_mem_cons.mp hread).2
      exact ⟨hfound, forall_mem_cons.mpr ⟨.inl (by simp only [start, get_gather hout]), halike⟩⟩
    | rows count =>
      dsimp only
      cases hfault : faults.segment segment.id with
      | some message => exact ⟨rfl, fun _ _ => .inl rfl⟩
      | none =>
        rw [ahead_cons (.inr hfault)] at hread
        obtain ⟨hhead, htail⟩ := forall_mem_cons.mp hread
        obtain ⟨-, hnothing, hnext⟩ := followSegment_spec hstart
        have hput : ∀ other ∈ rest, start (p.put segment.id (followSegment segment count).2) other.id = start p other.id := by
          intro other hother
          rw [start_put, if_neg (hfirst _ (mem_map_of_mem hother)).ne']
        have htail' : ∀ other ∈ ahead faults rest (p.put segment.id (followSegment segment count).2),
            ReadOut (p.put segment.id (followSegment segment count).2) other := by
          rw [ahead_congr faults hput]
          exact fun other hother =>
            (readOut_congr (hput other ((takeWhile_sublist _).subset hother))).mpr (htail other hother)
        obtain ⟨hfound, halike⟩ := ih hrest htail'
        refine ⟨by simp only [hnothing.mpr hhead, hfound, append_nil], forall_mem_cons.mpr ⟨?_, fun other hother => ?_⟩⟩
        · have hhere : start (gather faults rest (p.put segment.id (followSegment segment count).2)).positions segment.id =
              (followSegment segment count).2 := by
            simp only [start, get_gather hout, get_put, if_true, Option.getD_some]
          unfold Alike
          rw [hhere, hstart]
          exact hnext hhead
        · have := halike other hother
          unfold Alike at this ⊢
          rwa [hput other hother] at this

/-- Once a pass is through with a segment its cursor is at the segment's end. What it finds is of segments that were
not read out, and it finds something of each of them. -/
theorem gather_spec (hordered : (volume.map LogSegment.id).Pairwise (· < ·)) (p : SortedMap Nat Position) :
    (∀ segment ∈ ahead faults volume p, ReadOut (gather faults volume p).positions segment) ∧
    (∀ record ∈ (gather faults volume p).found, ∃ segment ∈ volume, record ∈ segment.rows ∧ ¬ ReadOut p segment) ∧
    ∀ segment ∈ ahead faults volume p, ¬ ReadOut p segment →
      ∃ record ∈ segment.rows, record ∈ (gather faults volume p).found := by
  induction volume generalizing p with
  | nil => simp [ahead, gather]
  | cons segment rest ih =>
    obtain ⟨hfirst, hrest⟩ := pairwise_cons.mp hordered
    have hout : segment.id ∉ rest.map LogSegment.id := fun hmem => lt_irrefl _ (hfirst _ hmem)
    unfold gather
    cases hstart : start p segment.id with
    | footer =>
      have hdone : ReadOut p segment := by simp [ReadOut, hstart]
      obtain ⟨hend, hfrom, hfinds⟩ := ih hrest p
      rw [ahead_cons (.inl hstart)]
      refine ⟨forall_mem_cons.mpr ⟨?_, hend⟩, fun record hrecord => ?_, ?_⟩
      · exact (readOut_congr (by simp only [start, get_gather hout])).mpr hdone
      · obtain ⟨other, hother, hfound⟩ := hfrom record hrecord
        exact ⟨other, mem_cons_of_mem _ hother, hfound⟩
      · exact forall_mem_cons.mpr ⟨fun hnot => absurd hdone hnot, hfinds⟩
    | rows count =>
      dsimp only
      cases hfault : faults.segment segment.id with
      | some message => simp [ahead, hstart, hfault]
      | none =>
        have hput : ∀ other ∈ rest, start (p.put segment.id (followSegment segment count).2) other.id = start p other.id := by
          intro other hother
          rw [start_put, if_neg (hfirst _ (mem_map_of_mem hother)).ne']
        obtain ⟨hend, hfrom, hfinds⟩ := ih hrest (p.put segment.id (followSegment segment count).2)
        obtain ⟨hdone, hnothing, -⟩ := followSegment_spec hstart
        have hrows := followSegment_rows segment count
        rw [ahead_congr faults hput] at hend hfinds
        rw [ahead_cons (.inr hfault)]
        refine ⟨forall_mem_cons.mpr ⟨?_, hend⟩, fun record hrecord => ?_, forall_mem_cons.mpr ⟨?_, ?_⟩⟩
        · exact (readOut_congr (by simp only [start, get_gather hout])).mpr hdone
        · rcases mem_append.mp hrecord with hhere | hlater
          · refine ⟨segment, mem_cons_self, hrows record hhere, fun hread => ?_⟩
            rw [hnothing.mpr hread] at hhere
            cases hhere
          · obtain ⟨other, hother, hin, hnot⟩ := hfrom record hlater
            exact ⟨other, mem_cons_of_mem _ hother, hin, fun hread =>
              hnot ((readOut_congr (hput other hother)).mpr hread)⟩
        · intro hnot
          obtain ⟨record, hrecord⟩ := exists_mem_of_ne_nil _ fun hnil => hnot (hnothing.mp hnil)
          exact ⟨record, hrows record hrecord, mem_append_left _ hrecord⟩
        · intro other hother hnot
          have hin : other ∈ rest := (takeWhile_sublist _).subset hother
          obtain ⟨record, hrecord, hfound⟩ :=
            hfinds other hother fun hread => hnot ((readOut_congr (hput other hin)).mp hread)
          exact ⟨record, hrecord, mem_append_right _ hfound⟩

end

theorem gather_none_fault (volume : List LogSegment) (p : SortedMap Nat Position) : (gather .none volume p).fault = none := by
  induction volume generalizing p with
  | nil => rfl
  | cons segment rest ih =>
    unfold gather
    cases start p segment.id with
    | footer => exact ih p
    | rows count => exact ih _

theorem mem_goneFrom {p : SortedMap Nat Position} {volume : LogVolume} {id : Nat} :
    id ∈ goneFrom p volume ↔ (p.get id).isSome ∧ id ∉ volume.segments.map LogSegment.id := by
  simp only [goneFrom, mem_map, Prod.exists, exists_and_right, exists_eq_right, mem_entries, get_keep,
    Option.filter_eq_some_iff, Option.isSome_iff_exists]
  simp

/-- What two cursors let go of is the same to an index that knows nothing of what only one has a position in. -/
theorem goneFrom_known {p q : SortedMap Nat Position} {volume : LogVolume} {known : Nat → Bool}
    (hkept : ∀ id, (p.get id).isSome → (q.get id).isSome)
    (hknown : ∀ id, known id = true → id ∉ volume.segments.map LogSegment.id → (p.get id).isSome) :
    (goneFrom q volume).filter known = (goneFrom p volume).filter known := by
  have hsorted : ∀ r : SortedMap Nat Position, ((goneFrom r volume).filter known).Pairwise (· < ·) := fun r =>
    (pairwise_map.mpr (r.keep _).sorted).filter _
  have hmem : ∀ id, id ∈ (goneFrom q volume).filter known ↔ id ∈ (goneFrom p volume).filter known := by
    intro id
    simp only [mem_filter, mem_goneFrom]
    constructor
    · rintro ⟨⟨-, hout⟩, hid⟩
      exact ⟨⟨hknown id hid hout, hout⟩, hid⟩
    · rintro ⟨⟨hsome, hout⟩, hid⟩
      exact ⟨⟨hkept id hsome, hout⟩, hid⟩
  have hperm := (perm_ext_iff_of_nodup (hsorted q).nodup (hsorted p).nodup).mpr hmem
  exact hperm.eq_of_pairwise (fun a b _ _ hab hba => absurd (hab.trans hba) (lt_irrefl _)) (hsorted q) (hsorted p)

section
variable {ι : Type} (x : FollowedIndex ι)

theorem applyAll_none (gone : List Nat) (found : List WalkedRecord) (result : CaughtUp) (index : ι)
    (ranges : List RangeCover) : ∃ result', (applyAll x .none gone found result index ranges).1 = .ok result' := by
  induction found generalizing result index ranges with
  | nil => exact ⟨result, rfl⟩
  | cons record rest ih => exact ih _ _ _

/-- A pass that meets no fault answers, and leaves the records applied, the segments that are gone forgotten and the
spans of those that sealed noted. -/
theorem catchUp_none (volume : LogVolume) (cursor : LogCursor) (index : ι) :
    (∃ result, (catchUp x .none volume cursor index).1 = .ok result) ∧
      (catchUp x .none volume cursor index).2.1 =
        (gather .none volume.segments cursor.positions).sealed'.foldl x.noteSpans
          (x.forgetRetiredSlots ((goneFrom cursor.positions volume).foldl x.forgetSegment
            (applyAll x .none (goneFrom cursor.positions volume)
              (sortByKey WalkedRecord.lsn (gather .none volume.segments cursor.positions).found)
              ⟨0, 0, goneFrom cursor.positions volume, 0, false, 0⟩ index cursor.ranges).2.1)).2 := by
  obtain ⟨result, hresult⟩ := applyAll_none x (goneFrom cursor.positions volume)
    (sortByKey WalkedRecord.lsn (gather .none volume.segments cursor.positions).found)
    ⟨0, 0, goneFrom cursor.positions volume, 0, false, 0⟩ index cursor.ranges
  have hlisting : Faults.none.listing = none := rfl
  simp only [catchUp, hlisting, gather_none_fault, hresult]
  exact ⟨⟨_, rfl⟩, trivial⟩

theorem applyOne_adds (gone : List Nat) (index : ι) (ranges : List RangeCover) (record : WalkedRecord) :
    Adds x.knows index (applyOne x gone index ranges record).2.1 record.loc.segment := by
  unfold applyOne
  split
  · exact x.removeRange_adds _ _ _ _ _
  · exact x.remove_adds _ _ _ _
  · split
    · exact fun id hid => .inl hid
    · dsimp only
      split
      · have hmoved := x.repoint_adds index record.key (x.retiredSource index record.key gone record.loc.len) record.loc
          record.lsn
        split
        · exact hmoved
        · intro id hid
          rcases x.insert_adds _ _ _ _ id hid with hold | hhere
          · exact hmoved id hold
          · exact .inr hhere
      · exact x.insert_adds _ _ _ _

theorem applyOne_congr {gone gone' : List Nat} {index : ι}
    (h : gone'.filter (x.knows index) = gone.filter (x.knows index)) (ranges : List RangeCover) (record : WalkedRecord) :
    applyOne x gone' index ranges record = applyOne x gone index ranges record := by
  have hsource : x.retiredSource index record.key gone' record.loc.len =
      x.retiredSource index record.key gone record.loc.len := by
    rw [← x.retiredSource_known index record.key gone', h, x.retiredSource_known]
  unfold applyOne
  rw [hsource]

theorem applyAll_adds (faults : Faults) (gone : List Nat) (found : List WalkedRecord) (result : CaughtUp) (index : ι)
    (ranges : List RangeCover) (id : Nat)
    (h : x.knows (applyAll x faults gone found result index ranges).2.1 id = true) :
    x.knows index id = true ∨ ∃ record ∈ found, id = record.loc.segment := by
  induction found generalizing result index ranges with
  | nil => exact .inl h
  | cons record rest ih =>
    unfold applyAll at h
    dsimp only at h
    cases hfault : faults.apply record with
    | some message =>
      rw [hfault] at h
      exact (x.broken_adds index record id h).imp_right fun hid => ⟨record, mem_cons_self, hid⟩
    | none =>
      rw [hfault] at h
      rcases ih _ _ _ h with hknown | ⟨other, hother, hid⟩
      · exact (applyOne_adds x gone index ranges record id hknown).imp_right fun hid => ⟨record, mem_cons_self, hid⟩
      · exact .inr ⟨other, mem_cons_of_mem _ hother, hid⟩

/-- Applying records does not depend on what is let go of that the index knows nothing of. -/
theorem applyAll_congr {gone gone' : List Nat} {known : Nat → Prop} {found : List WalkedRecord} {index : ι}
    (hgone : ∀ index, (∀ id, x.knows index id = true → known id) →
      gone'.filter (x.knows index) = gone.filter (x.knows index))
    (hindex : ∀ id, x.knows index id = true → known id) (hfound : ∀ record ∈ found, known record.loc.segment)
    (result result' : CaughtUp) (ranges : List RangeCover) :
    (applyAll x .none gone' found result' index ranges).2 = (applyAll x .none gone found result index ranges).2 := by
  induction found generalizing result result' index ranges with
  | nil => rfl
  | cons record rest ih =>
    obtain ⟨hrecord, hrest⟩ := forall_mem_cons.mp hfound
    have hsame := applyOne_congr x (hgone index hindex) ranges record
    have hnone : Faults.none.apply record = none := rfl
    simp only [applyAll, hnone, hsame]
    refine ih (fun id hid => ?_) hrest _ _ _
    rcases applyOne_adds x gone index ranges record id hid with hold | rfl
    · exact hindex id hold
    · exact hrecord

/-- A pass leaves the index the same from two cursors that read the volume alike, where the index knows nothing of
what only one of them has a position in. -/
theorem catchUp_alike {volume : LogVolume} {p q : SortedMap Nat Position} {ranges : List RangeCover} {index : ι}
    (hfollows : Follows x ⟨p, ranges⟩ index) (hkept : ∀ id, (p.get id).isSome → (q.get id).isSome)
    (halike : ∀ segment ∈ volume.segments, Alike p q segment) :
    (catchUp x .none volume ⟨q, ranges⟩ index).2.1 = (catchUp x .none volume ⟨p, ranges⟩ index).2.1 := by
  obtain ⟨hfound, hspans⟩ := gather_alike volume.ordered halike
  -- what the index may know all along: segments of the volume and those the first cursor has a position in
  let known : Nat → Prop := fun id => id ∉ volume.segments.map LogSegment.id → (p.get id).isSome = true
  have hgone : ∀ index, (∀ id, x.knows index id = true → known id) →
      (goneFrom q volume).filter (x.knows index) = (goneFrom p volume).filter (x.knows index) :=
    fun index hindex => goneFrom_known hkept hindex
  have hindex : ∀ id, x.knows index id = true → known id := fun id hid _ => hfollows id hid
  have hrecords : ∀ record ∈ sortByKey WalkedRecord.lsn (gather .none volume.segments p).found,
      known record.loc.segment := by
    intro record hrecord hout
    obtain ⟨segment, hsegment, hrow, -⟩ :=
      (gather_spec volume.ordered p).2.1 record ((perm_sortByKey _ _).mem_iff.mp hrecord)
    rw [segment.placed record hrow] at hout
    exact absurd (mem_map_of_mem hsegment) hout
  have happly := congrArg Prod.fst (applyAll_congr x hgone hindex hrecords ⟨0, 0, goneFrom p volume, 0, false, 0⟩
    ⟨0, 0, goneFrom q volume, 0, false, 0⟩ ranges)
  have hafter := applyAll_adds x .none (goneFrom p volume)
    (sortByKey WalkedRecord.lsn (gather .none volume.segments p).found) ⟨0, 0, goneFrom p volume, 0, false, 0⟩ index ranges
  rw [(catchUp_none x volume ⟨q, ranges⟩ index).2, (catchUp_none x volume ⟨p, ranges⟩ index).2,
    hspans ι x.noteSpans _ x.noteSpans_blank, hfound, happly, ← x.forget_known, hgone, x.forget_known]
  intro id hid
  rcases hafter id hid with hold | ⟨record, hrecord, rfl⟩
  · exact hindex id hold
  · exact hrecords record hrecord

theorem isSome_keep {positions : SortedMap Nat Position} {gone : List Nat} {id : Nat}
    (h : (positions.get id).isSome) (hout : id ∉ gone) :
    ((positions.keep fun id _ => !gone.contains id).get id).isSome := by
  obtain ⟨position, hposition⟩ := Option.isSome_iff_exists.mp h
  rw [get_keep, hposition]
  simp [Option.filter, hout]

theorem noted_adds {sealed' : List LogSegment} {index : ι} {id : Nat}
    (h : x.knows (sealed'.foldl x.noteSpans index) id = true) :
    x.knows index id = true ∨ ∃ segment ∈ sealed', id = segment.id := by
  induction sealed' generalizing index with
  | nil => exact .inl h
  | cons segment rest ih =>
    rcases ih h with hnoted | ⟨other, hother, hid⟩
    · exact (x.noteSpans_adds index segment id hnoted).imp_right fun hid => ⟨segment, mem_cons_self, hid⟩
    · exact .inr ⟨other, mem_cons_of_mem _ hother, hid⟩

/-- Whatever a pass meets, the index knows no segment the cursor has no position in. -/
theorem Follows.catchUp {cursor : LogCursor} {index : ι} (h : Follows x cursor index) (faults : Faults)
    (volume : LogVolume) :
    Follows x (catchUp x faults volume cursor index).2.2 (catchUp x faults volume cursor index).2.1 := by
  obtain ⟨hkept, hfound, hsealed⟩ := @gather_isSome faults volume.segments cursor.positions
  unfold Tailer.catchUp
  cases faults.listing with
  | some message => exact h
  | none =>
    dsimp only
    cases (gather faults volume.segments cursor.positions).fault with
    | some message => exact fun id hid => hkept id (h id hid)
    | none =>
      dsimp only
      generalize hgone : goneFrom cursor.positions volume = gone
      generalize happlied : applyAll x faults gone _ _ index cursor.ranges = applied
      have hforgotten : ∀ id, x.knows (x.forgetRetiredSlots (gone.foldl x.forgetSegment applied.2.1)).2 id = true →
          (((gather faults volume.segments cursor.positions).positions.keep fun id _ => !gone.contains id).get id).isSome := by
        intro id hid
        obtain ⟨hknown, hout⟩ := x.forgotten _ _ _ hid
        refine isSome_keep ?_ hout
        rw [← happlied] at hknown
        rcases applyAll_adds x _ _ _ _ _ _ id hknown with hold | ⟨record, hrecord, rfl⟩
        · exact hkept id (h id hold)
        · exact hfound record ((perm_sortByKey _ _).mem_iff.mp hrecord)
      cases applied.1 with
      | error message => exact hforgotten
      | ok result =>
        intro id hid
        rcases noted_adds x hid with hold | ⟨segment, hsegment, rfl⟩
        · exact hforgotten id hold
        · obtain ⟨hin, hsome⟩ := hsealed segment hsegment
          refine isSome_keep hsome ?_
          rw [← hgone, mem_goneFrom]
          exact fun hgone => hgone.2 hin

/-- A follower's passes, each over the volume as it then stands and with what fails in it. -/
def passes (calls : List (Faults × LogVolume)) (cursor : LogCursor) (index : ι) : LogCursor × ι :=
  calls.foldl (fun s call =>
    ((Tailer.catchUp x call.1 call.2 s.1 s.2).2.2, (Tailer.catchUp x call.1 call.2 s.1 s.2).2.1)) (cursor, index)

theorem Follows.passes {cursor : LogCursor} {index : ι} (h : Follows x cursor index) (calls : List (Faults × LogVolume)) :
    Follows x (passes x calls cursor index).1 (passes x calls cursor index).2 := by
  induction calls generalizing cursor index with
  | nil => exact h
  | cons call rest ih => exact ih (h.catchUp x call.1 call.2)

variable {x} {faults : Faults} {volume : LogVolume} {cursor : LogCursor} {index : ι} {message : String}

section
variable (h : (catchUp x faults volume cursor index).1 = .error message)
include h

theorem catchUp_fails :
    (faults.listing ≠ none ∧ (catchUp x faults volume cursor index).2 = (index, cursor)) ∨
    faults.listing = none ∧
      ((catchUp x faults volume cursor index).2 =
          (index, ⟨(gather faults volume.segments cursor.positions).positions, cursor.ranges⟩) ∨
        (gather faults volume.segments cursor.positions).found ≠ [] ∧
          (catchUp x faults volume cursor index).2.2.positions =
            (gather faults volume.segments cursor.positions).positions.keep
              fun id _ => !(goneFrom cursor.positions volume).contains id) := by
  unfold catchUp at h ⊢
  cases hlisting : faults.listing with
  | some text => exact .inl ⟨by simp, rfl⟩
  | none =>
    refine .inr ⟨rfl, ?_⟩
    rw [hlisting] at h
    dsimp only at h ⊢
    cases hfault : (gather faults volume.segments cursor.positions).fault with
    | some text => exact .inl rfl
    | none =>
      rw [hfault] at h
      dsimp only at h ⊢
      refine .inr ⟨fun hnothing => ?_, ?_⟩
      · rw [hnothing] at h
        cases h
      · split <;> rfl

theorem failed_readOut (hlisting : faults.listing = none)
    {segment : LogSegment} (hahead : segment ∈ ahead faults volume.segments cursor.positions) :
    ReadOut (catchUp x faults volume cursor index).2.2.positions segment := by
  have hend := (gather_spec volume.ordered cursor.positions).1 segment hahead
  rcases catchUp_fails h with ⟨hsome, -⟩ | ⟨-, hleft | ⟨-, hleft⟩⟩
  · exact absurd hlisting hsome
  · rw [hleft]
    exact hend
  · rw [hleft]
    refine (readOut_congr ?_).mpr hend
    have hin : segment.id ∈ volume.segments.map LogSegment.id :=
      mem_map_of_mem ((takeWhile_sublist _).subset hahead)
    have hkept : segment.id ∉ goneFrom cursor.positions volume := fun hgone => (mem_goneFrom.mp hgone).2 hin
    simp only [start, get_keep]
    cases (gather faults volume.segments cursor.positions).positions.get segment.id with
    | none => rfl
    | some position => simp [Option.filter, hkept]

end

end

theorem Grown.refl (volume : LogVolume) : Grown volume volume := by
  have hsame : ∀ segment ∈ volume.segments, ∀ next ∈ volume.segments, next.id = segment.id → next = segment :=
    fun segment hsegment next hnext => inj_on_of_nodup_map volume.ordered.nodup hnext hsegment
  exact ⟨fun segment hsegment next hnext hid => by rw [hsame segment hsegment next hnext hid]; exact List.Subset.refl _,
    fun segment hsegment _ next hnext hid => hsame segment hsegment next hnext hid⟩

theorem foldl_forget (index : List (Nat × Nat)) (gone : List Nat) :
    gone.foldl (fun kept id => kept.filter (·.2 ≠ id)) index = index.filter (·.2 ∉ gone) := by
  induction gone generalizing index with
  | nil => simp
  | cons id rest ih =>
    rw [foldl_cons, ih, filter_filter]
    refine filter_congr fun seen _ => ?_
    simp [Bool.and_comm]

/-- An index that keeps the numbers it was given and the segments they lie in. -/
def placesSeen : FollowedIndex (List (Nat × Nat)) where
  removeRange index _ _ lsn loc := (lsn, loc.segment) :: index
  remove index _ lsn loc := (true, (lsn, loc.segment) :: index)
  insert index _ loc lsn := (true, (lsn, loc.segment) :: index)
  retiredSource _ _ _ _ := none
  repoint index _ _ _ _ := (false, index)
  forgetSegment index id := index.filter (·.2 ≠ id)
  forgetRetiredSlots index := (0, index)
  noteSpans index _ := index
  broken index _ := index
  knows index id := index.any (·.2 = id)
  removeRange_adds := by grind [Adds]
  remove_adds := by grind [Adds]
  insert_adds := by grind [Adds]
  repoint_adds _ := by simp_all [Adds]
  noteSpans_adds _ := by simp_all [Adds]
  broken_adds _ := by simp_all [Adds]
  retiredSource_known _ _ _ _ := rfl
  forget_known index gone := by
    simp only [foldl_forget]
    refine filter_congr fun seen hseen => ?_
    have hknown : index.any (·.2 = seen.2) = true := any_eq_true.mpr ⟨seen, hseen, by simp⟩
    simp [hknown]
  forgotten index gone id hid := by
    rw [foldl_forget, any_filter] at hid
    obtain ⟨seen, hseen, hid⟩ := any_eq_true.mp hid
    obtain ⟨hout, rfl⟩ := by simpa using hid
    exact ⟨any_eq_true.mpr ⟨seen, hseen, by simp⟩, hout⟩
  noteSpans_blank _ _ _ := rfl

def firstPut : WalkedRecord := ⟨⟨0, ⟨[7, 7], by decide⟩⟩, 1, ⟨1, 53, 0⟩, .data, false, none⟩

/-- A tail with a record, a segment sealed with nothing in it, and a tail just begun. -/
def threeSegments : LogVolume where
  segments := [⟨1, false, [firstPut], by simp [firstPut]⟩, ⟨2, true, [], by simp⟩, ⟨3, false, [], by simp⟩]
  ordered := by simp

def lastFails : Faults := { Faults.none with segment := fun id => if id = 3 then some "too many open files" else none }

end Reel.Tailer
