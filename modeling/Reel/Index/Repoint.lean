import Reel.Index.Flights
import Reel.Index.Segments
import Reel.Format.Frame

/-!
Repointing a run of rewritten records at their copies. The copies are booked live before any key moves;
afterwards each copy no key took is booked dead, and each record moved off leaves its segment's live count.
-/

set_option autoImplicit false

namespace Reel
open Bytes List Option

/-- One moved record: its key, where the pass read it, where its copy landed and its version. -/
structure KeyRepoint where
  key : RecordKey
  source : Option Loc
  copy : Loc
  lsn : Nat

def KeyRepoint.span (m : KeyRepoint) (loc : Loc) : Nat := spanOf m.key.key.bytes.length loc.len

/-- What one move is answered beside the map: whether the key's one spot slot is at the source, and what
the footers say. -/
structure Look where
  onlyAt : Bool
  footers : Except ReelError Volume.Sealed

abbrev Columns := ColumnId → Option ColumnIndex

namespace Columns

def lookup (columns : Columns) (key : RecordKey) : Option (Option Entry) :=
  (columns key.column).map fun index => index.entryOrGrave key.key.bytes

def pointsAt (columns : Columns) (key : RecordKey) (loc : Loc) : Bool :=
  (columns.lookup key).any fun entry => entry.any (·.loc == loc)

def paged (columns : Columns) (index : ColumnIndex) (m : KeyRepoint) (place : Loc) :
    Columns × Except ReelError (Option Loc) :=
  match index.repointPaged m.key.key.bytes m.copy m.lsn with
  | (index, true) => (Function.update columns m.key.column (some index), .ok (some place))
  | (_, false) => (columns, .ok none)

/-- Move one key's entry to its copy, returning the source and booking nothing. -/
def repointMoved (columns : Columns) (look : Look) (m : KeyRepoint) :
    Columns × Except ReelError (Option Loc) :=
  match columns m.key.column with
  | none => (columns, .ok none)
  | some index =>
    match index.entryOrGrave m.key.key.bytes with
    | some existing =>
      match index.repoint m.key.key.bytes m.copy m.lsn with
      | some index => (Function.update columns m.key.column (some index), .ok (some existing.loc))
      | none => (columns, .ok none)
    | none =>
      match m.source.filter fun _ => look.onlyAt with
      | some place => columns.paged index m place
      | none =>
        match look.footers with
        | .error error => (columns, .error error)
        | .ok (.live entry) =>
          if entry.lsn = m.lsn then columns.paged index m entry.loc else (columns, .ok none)
        | .ok .gone | .ok .absent => (columns, .ok none)

end Columns

def addAt (segment span : Nat) : List (Nat × Nat) → List (Nat × Nat)
  | [] => [(segment, span)]
  | held :: rest =>
    if held.1 = segment then (segment, held.2 + span) :: rest else held :: addAt segment span rest

structure RunState where
  columns : Columns
  released : List (Nat × Nat)
  lost : List (Nat × Nat)
  moved : Nat
  failed : Option ReelError

/-- One move of a run, which looks nothing up once a lookup failed. -/
def RunState.step (s : RunState) (m : KeyRepoint × Look) : RunState :=
  let lost := addAt m.1.copy.segment (m.1.span m.1.copy) s.lost
  match s.failed with
  | some _ => { s with lost }
  | none =>
    match s.columns.repointMoved m.2 m.1 with
    | (columns, .ok (some place)) =>
      { s with columns, moved := s.moved + 1, released := addAt place.segment (m.1.span place) s.released }
    | (columns, .ok none) => { s with columns, lost }
    | (columns, .error error) => { s with columns, lost, failed := some error }

def copiesOf (moves : List (KeyRepoint × Look)) : List (Nat × Nat) :=
  moves.foldl (fun copies m => addAt m.1.copy.segment (m.1.span m.1.copy) copies) []

structure Repointed where
  columns : Columns
  segments : SegmentTable
  result : Except ReelError Nat

/-- Repoint a run of moved records at their copies, booking the run's bytes in bulk. -/
def repointRun (columns : Columns) (segments : SegmentTable) (moves : List (KeyRepoint × Look)) : Repointed :=
  -- copies go live before any repoint, so a write dropping a moved key finds its copy counted
  let segments := (copiesOf moves).foldl (fun t copy => t.markLive copy.1 copy.2) segments
  let s := moves.foldl RunState.step ⟨columns, [], [], 0, none⟩
  let segments := s.lost.foldl (fun t held => t.shadow held.1 held.2) segments
  let segments := s.released.foldl (fun t held => t.releaseLive held.1 held.2) segments
  ⟨s.columns, segments, match s.failed with | some error => .error error | none => .ok s.moved⟩

namespace Columns

/-- Where a key's record stands before its move: in the map, at its one spot slot, or in the footers. -/
def origin (columns : Columns) (m : KeyRepoint × Look) : Option Loc :=
  match columns.lookup m.1.key with
  | none => none
  | some (some entry) => some entry.loc
  | some none =>
    match m.1.source.filter fun _ => m.2.onlyAt with
    | some place => some place
    | none =>
      match m.2.footers with
      | .ok (.live entry) => some entry.loc
      | _ => none

theorem lookup_update {columns : Columns} {key : RecordKey} {index : ColumnIndex} (entry : Entry)
    (hindex : columns key.column = some index) (haccepts : index.width.accepts key.key.bytes = true)
    (other : RecordKey) :
    lookup (Function.update columns key.column (some (index.setMap (index.map.put key.key.bytes entry)))) other =
      if other = key then some (some entry) else columns.lookup other := by
  obtain ⟨column, bytes⟩ := other
  by_cases hcolumn : column = key.column
  · subst hcolumn
    by_cases hbytes : bytes = key.key
    · subst hbytes
      simp [lookup, ColumnIndex.entryOrGrave, ColumnIndex.setMap, haccepts, SortedMap.get_put]
    · have hne : bytes.bytes ≠ key.key.bytes := fun h => hbytes (by cases bytes; cases hk : key.key; simp_all)
      have hkey : ¬ (⟨key.column, bytes⟩ : RecordKey) = key := fun h => hbytes (by rw [← h])
      simp [lookup, ColumnIndex.entryOrGrave, ColumnIndex.setMap, SortedMap.get_put, hne, hkey, hindex]
  · have hkey : ¬ (⟨column, bytes⟩ : RecordKey) = key := fun h => hcolumn (by rw [← h])
    simp [lookup, hcolumn, hkey]

/-- What a move that went does: its key points at the copy, and every other key's word stays. -/
structure Moved (columns after : Columns) (m : KeyRepoint × Look) (place : Loc) : Prop where
  origin_eq : columns.origin m = some place
  points : after.pointsAt m.1.key m.1.copy = true
  keeps : ∀ other, other ≠ m.1.key → after.lookup other = columns.lookup other

section
variable {columns : Columns} {m : KeyRepoint × Look} {place : Loc} {index : ColumnIndex}
  (hindex : columns m.1.key.column = some index)
include hindex

theorem moved_of_put (haccepts : index.width.accepts m.1.key.key.bytes = true)
    (horigin : columns.origin m = some place) :
    columns.Moved (Function.update columns m.1.key.column
      (some (index.setMap (index.map.put m.1.key.key.bytes ⟨m.1.copy, m.1.lsn⟩)))) m place := by
  have hlookup := lookup_update ⟨m.1.copy, m.1.lsn⟩ hindex haccepts
  refine ⟨horigin, ?_, fun other hne => ?_⟩
  · rw [pointsAt, hlookup, if_pos rfl]
    simp
  · rw [hlookup, if_neg hne]

theorem paged_spec (horigin : columns.origin m = some place) :
    (∃ after, columns.paged index m.1 place = (after, .ok (some place)) ∧ columns.Moved after m place) ∨
      columns.paged index m.1 place = (columns, .ok none) := by
  unfold paged ColumnIndex.repointPaged ColumnIndex.fillEmpty
  by_cases h : (!index.width.accepts m.1.key.key.bytes || (index.map.get m.1.key.key.bytes).isSome) = true
  · rw [if_pos h]
    exact .inr rfl
  · rw [if_neg h]
    simp only [Bool.or_eq_true, Bool.not_eq_true', not_or, Bool.not_eq_false] at h
    exact .inl ⟨_, rfl, moved_of_put hindex h.1 horigin⟩

end

theorem repoint_cases (index : ColumnIndex) (key : Str) (copy : Loc) (lsn : Nat) :
    index.repoint key copy lsn = none ∨ index.width.accepts key = true ∧
      index.repoint key copy lsn = some (index.setMap (index.map.put key ⟨copy, lsn⟩)) := by
  unfold ColumnIndex.repoint
  cases index.width.accepts key with
  | false => exact .inl rfl
  | true =>
    cases index.map.get key with
    | none => exact .inl rfl
    | some held =>
      by_cases h : held.lsn = lsn ∧ (!held.isGrave) = true
      · exact .inr ⟨rfl, by simp [h]⟩
      · exact .inl (by simpa using h)

theorem repointMoved_spec (columns : Columns) (m : KeyRepoint × Look) :
    (∃ after place, columns.repointMoved m.2 m.1 = (after, .ok (some place)) ∧ columns.Moved after m place) ∨
      columns.repointMoved m.2 m.1 = (columns, .ok none) ∨
      ∃ error, columns.repointMoved m.2 m.1 = (columns, .error error) := by
  unfold repointMoved
  cases hindex : columns m.1.key.column with
  | none => exact .inr (.inl rfl)
  | some index =>
    have hlookup : columns.lookup m.1.key = some (index.entryOrGrave m.1.key.key.bytes) := by
      rw [lookup, hindex]
      rfl
    have hpaged : ∀ place, columns.origin m = some place → (∃ after found,
        columns.paged index m.1 place = (after, .ok (some found)) ∧ columns.Moved after m found) ∨
        columns.paged index m.1 place = (columns, .ok none) ∨
        ∃ error, columns.paged index m.1 place = (columns, .error error) := by
      intro place horigin
      rcases paged_spec hindex horigin with ⟨after, h⟩ | h
      · exact .inl ⟨after, place, h⟩
      · exact .inr (.inl h)
    dsimp only
    cases hentry : index.entryOrGrave m.1.key.key.bytes with
    | some existing =>
      have horigin : columns.origin m = some existing.loc := by rw [origin, hlookup, hentry]
      dsimp only
      rcases repoint_cases index m.1.key.key.bytes m.1.copy m.1.lsn with h | ⟨haccepts, h⟩
      · rw [h]
        exact .inr (.inl rfl)
      · rw [h]
        exact .inl ⟨_, _, rfl, moved_of_put hindex haccepts horigin⟩
    | none =>
      dsimp only
      cases hsource : m.1.source.filter fun _ => m.2.onlyAt with
      | some place => exact hpaged place (by rw [origin, hlookup, hentry]; simp [hsource])
      | none =>
        dsimp only
        cases hfoot : m.2.footers with
        | error error => exact .inr (.inr ⟨error, rfl⟩)
        | ok found =>
          cases found with
          | live entry =>
            dsimp only
            by_cases hlsn : entry.lsn = m.1.lsn
            · rw [if_pos hlsn]
              exact hpaged entry.loc (by rw [origin, hlookup, hentry]; simp [hsource, hfoot])
            · rw [if_neg hlsn]
              exact .inr (.inl rfl)
          | gone => exact .inr (.inl rfl)
          | absent => exact .inr (.inl rfl)

end Columns

def sumAt (id : Nat) (list : List (Nat × Nat)) : Nat :=
  (list.map fun held => if held.1 = id then held.2 else 0).sum

theorem sumAt_addAt (segment span id : Nat) (list : List (Nat × Nat)) :
    sumAt id (addAt segment span list) = sumAt id list + if segment = id then span else 0 := by
  induction list with
  | nil => simp [addAt, sumAt]
  | cons held rest ih =>
    unfold addAt
    by_cases h : held.1 = segment
    · rw [if_pos h]
      simp only [sumAt, map_cons, sum_cons, h]
      split_ifs <;> omega
    · rw [if_neg h]
      simp only [sumAt, map_cons, sum_cons] at ih ⊢
      rw [ih]
      omega

theorem mem_addAt {segment span : Nat} {list : List (Nat × Nat)} {held : Nat × Nat}
    (h : held ∈ addAt segment span list) : held.1 = segment ∨ ∃ old ∈ list, held.1 = old.1 := by
  induction list with
  | nil => exact .inl (by simp [addAt] at h; rw [h])
  | cons first rest ih =>
    unfold addAt at h
    split_ifs at h with hsame
    · rcases mem_cons.mp h with rfl | h
      · exact .inl rfl
      · exact .inr ⟨held, mem_cons_of_mem _ h, rfl⟩
    · rcases mem_cons.mp h with rfl | h
      · exact .inr ⟨held, mem_cons_self, rfl⟩
      · exact (ih h).imp_right fun ⟨old, hold, heq⟩ => ⟨old, mem_cons_of_mem _ hold, heq⟩

def landedBytes (after : Columns) (moves : List (KeyRepoint × Look)) (id : Nat) : Nat :=
  (moves.map fun m => if m.1.copy.segment = id ∧ after.pointsAt m.1.key m.1.copy then m.1.span m.1.copy else 0).sum

def lostBytes (after : Columns) (moves : List (KeyRepoint × Look)) (id : Nat) : Nat :=
  (moves.map fun m => if m.1.copy.segment = id ∧ ¬ after.pointsAt m.1.key m.1.copy then m.1.span m.1.copy else 0).sum

def movedOffBytes (before after : Columns) (moves : List (KeyRepoint × Look)) (id : Nat) : Nat :=
  (moves.map fun m =>
    match before.origin m with
    | some place => if place.segment = id ∧ after.pointsAt m.1.key m.1.copy then m.1.span place else 0
    | none => 0).sum

namespace RunState

/-- One move either goes, to be released where its record stood, or its copy is lost. -/
theorem step_spec (s : RunState) (m : KeyRepoint × Look) :
    (∃ place, s.columns.Moved (s.step m).columns m place ∧ (s.step m).lost = s.lost ∧
      (s.step m).released = addAt place.segment (m.1.span place) s.released) ∨
    (s.step m).columns = s.columns ∧ (s.step m).released = s.released ∧
      (s.step m).lost = addAt m.1.copy.segment (m.1.span m.1.copy) s.lost := by
  unfold step
  cases hfailed : s.failed with
  | some error => exact .inr ⟨rfl, rfl, rfl⟩
  | none =>
    rcases s.columns.repointMoved_spec m with ⟨after, place, h, hmoved⟩ | h | ⟨error, h⟩
    · rw [h]
      exact .inl ⟨place, hmoved, rfl, rfl⟩
    · rw [h]
      exact .inr ⟨rfl, rfl, rfl⟩
    · rw [h]
      exact .inr ⟨rfl, rfl, rfl⟩

theorem step_keeps (s : RunState) (m : KeyRepoint × Look) {other : RecordKey} (h : other ≠ m.1.key) :
    (s.step m).columns.lookup other = s.columns.lookup other := by
  rcases s.step_spec m with ⟨place, hmoved, -, -⟩ | ⟨hsame, -, -⟩
  · exact hmoved.keeps other h
  · rw [hsame]

theorem run_keeps (moves : List (KeyRepoint × Look)) (s : RunState) {other : RecordKey}
    (h : other ∉ moves.map fun m => m.1.key) :
    (moves.foldl step s).columns.lookup other = s.columns.lookup other := by
  induction moves generalizing s with
  | nil => rfl
  | cons m moves ih =>
    rw [map_cons, mem_cons, not_or] at h
    rw [foldl_cons, ih _ h.2, step_keeps s m h.1]

theorem pointsAt_congr {a b : Columns} {key : RecordKey} (h : a.lookup key = b.lookup key) (loc : Loc) :
    a.pointsAt key loc = b.pointsAt key loc := by
  rw [Columns.pointsAt, h, Columns.pointsAt]

theorem movedOffBytes_congr {a b : Columns} {moves : List (KeyRepoint × Look)} (after : Columns) (id : Nat)
    (h : ∀ m ∈ moves, a.lookup m.1.key = b.lookup m.1.key) :
    movedOffBytes a after moves id = movedOffBytes b after moves id := by
  unfold movedOffBytes
  congr 1
  refine map_congr_left fun m hm => ?_
  have horigin : a.origin m = b.origin m := by rw [Columns.origin, h m hm, Columns.origin]
  rw [horigin]

theorem run_sums (moves : List (KeyRepoint × Look)) (s : RunState) (id : Nat)
    (hkeys : (moves.map fun m => m.1.key).Nodup)
    (hfresh : ∀ m ∈ moves, s.columns.pointsAt m.1.key m.1.copy = false) :
    sumAt id (moves.foldl step s).lost =
        sumAt id s.lost + lostBytes (moves.foldl step s).columns moves id ∧
      sumAt id (moves.foldl step s).released = sumAt id s.released +
        movedOffBytes s.columns (moves.foldl step s).columns moves id := by
  induction moves generalizing s with
  | nil => simp [lostBytes, movedOffBytes]
  | cons m moves ih =>
    rw [map_cons, nodup_cons] at hkeys
    have hother : ∀ m' ∈ moves, m'.1.key ≠ m.1.key := fun m' hm' heq =>
      hkeys.1 (mem_map.mpr ⟨m', hm', heq⟩)
    have hkeeps : ∀ m' ∈ moves, (s.step m).columns.lookup m'.1.key = s.columns.lookup m'.1.key :=
      fun m' hm' => step_keeps s m (hother m' hm')
    obtain ⟨hlost, hreleased⟩ := ih (s.step m) hkeys.2 fun m' hm' => by
      rw [pointsAt_congr (hkeeps m' hm')]
      exact hfresh m' (mem_cons_of_mem _ hm')
    -- the later moves are of other keys, so this key's word at the end is the one its move left
    have hend := pointsAt_congr (run_keeps moves (s.step m) hkeys.1) m.1.copy
    rw [movedOffBytes_congr _ id hkeeps] at hreleased
    rw [foldl_cons]
    simp only [lostBytes, movedOffBytes, map_cons, sum_cons] at hlost hreleased ⊢
    rw [hlost, hreleased, hend]
    rcases s.step_spec m with ⟨place, hmoved, hlost', hreleased'⟩ | ⟨hsame, hreleased', hlost'⟩
    · rw [hlost', hreleased', sumAt_addAt, hmoved.origin_eq, hmoved.points]
      simp [Nat.add_assoc]
    · have hpoints := hfresh m mem_cons_self
      rw [hlost', hreleased', sumAt_addAt, hsame, hpoints]
      cases s.columns.origin m <;> simp [Nat.add_assoc]

end RunState

namespace SegmentTable

/-- Bookings of footprints on counted rows add up by segment, and those on other rows are dropped. -/
theorem counted_foldl_booked (act : Nat → Counts → Counts) (hzero : ∀ counts, act 0 counts = counts)
    (hadd : ∀ a b counts, act b (act a counts) = act (a + b) counts) (list : List (Nat × Nat)) (t : SegmentTable)
    (id : Nat) :
    (list.foldl (fun t held => t.booked held.1 (act held.2)) t).window.counted id =
      (t.window.counted id).map (act (sumAt id list)) := by
  induction list generalizing t with
  | nil => cases h : t.window.counted id <;> simp [sumAt, hzero, h]
  | cons held list ih =>
    rw [foldl_cons, ih, counted_booked]
    by_cases hid : id = held.1
    · subst hid
      cases t.window.counted held.1 <;> simp [sumAt, hadd]
    · simp [sumAt, hid, Ne.symm hid]

theorem counted_foldl_shadow (list : List (Nat × Nat)) (t : SegmentTable) (id : Nat) :
    (list.foldl (fun t held => t.shadow held.1 held.2) t).window.counted id =
      (t.window.counted id).map (·.shadow (sumAt id list)) :=
  counted_foldl_booked (fun n counts => counts.shadow n) (fun _ => rfl)
    (fun a b counts => by simp [Counts.shadow, Counts.dropLive, Counts.addDead, Nat.sub_sub, Nat.add_assoc]) list t id

theorem counted_foldl_releaseLive (list : List (Nat × Nat)) (t : SegmentTable) (id : Nat) :
    (list.foldl (fun t held => t.releaseLive held.1 held.2) t).window.counted id =
      (t.window.counted id).map (·.dropLive (sumAt id list)) :=
  counted_foldl_booked (fun n counts => counts.dropLive n) (fun _ => rfl)
    (fun a b counts => by simp [Counts.dropLive, Nat.sub_sub]) list t id

theorem bytesOf_foldl_markLive (copies : List (Nat × Nat)) (t : SegmentTable) {low : Nat}
    (hopen : t.window.Open low) (hin : ∀ copy ∈ copies, t.window.Within low copy.1) (id : Nat) :
    (copies.foldl (fun t copy => t.markLive copy.1 copy.2) t).bytesOf id =
        (t.bytesOf id).addLive (sumAt id copies) ∧
      ((t.window.counted id).isSome ∨ sumAt id copies ≠ 0 →
        ((copies.foldl (fun t copy => t.markLive copy.1 copy.2) t).window.counted id).isSome) := by
  induction copies generalizing t with
  | nil => exact ⟨rfl, fun h => h.elim (fun h => h) (fun h => absurd rfl h)⟩
  | cons copy copies ih =>
    obtain ⟨htakes, hcounted⟩ := opened_within hopen (hin copy mem_cons_self) (·.addLive copy.2)
    obtain ⟨hbytes, hsome⟩ := ih (t.markLive copy.1 copy.2) htakes.opens fun other hother =>
      htakes.within _ (hin other (mem_cons_of_mem _ hother))
    rw [foldl_cons, hbytes, markLive, htakes.bytes]
    by_cases hid : id = copy.1
    · subst hid
      refine ⟨?_, fun _ => hsome (.inl (hcounted _ (.inl rfl)))⟩
      simp [sumAt, Counts.addLive, Nat.add_assoc]
    · refine ⟨by simp [sumAt, hid, Ne.symm hid], fun h => hsome (h.imp (fun h => hcounted _ (.inr h)) ?_)⟩
      simp [sumAt, Ne.symm hid]

end SegmentTable

theorem sumAt_copiesOf (moves : List (KeyRepoint × Look)) (after : Columns) (id : Nat) :
    sumAt id (copiesOf moves) = landedBytes after moves id + lostBytes after moves id := by
  suffices hgen : ∀ copies, sumAt id (moves.foldl (fun copies m =>
      addAt m.1.copy.segment (m.1.span m.1.copy) copies) copies) =
      sumAt id copies + (landedBytes after moves id + lostBytes after moves id) from
    (hgen []).trans (Nat.zero_add _)
  induction moves with
  | nil => simp [landedBytes, lostBytes]
  | cons m moves ih =>
    intro copies
    rw [foldl_cons, ih, sumAt_addAt]
    simp only [landedBytes, lostBytes, map_cons, sum_cons]
    by_cases hid : m.1.copy.segment = id <;> cases after.pointsAt m.1.key m.1.copy <;> simp [hid] <;> omega

theorem mem_copiesOf {moves : List (KeyRepoint × Look)} {copy : Nat × Nat} (h : copy ∈ copiesOf moves) :
    ∃ m ∈ moves, copy.1 = m.1.copy.segment := by
  suffices hgen : ∀ copies, (∃ held ∈ moves.foldl (fun copies m =>
      addAt m.1.copy.segment (m.1.span m.1.copy) copies) copies, copy.1 = held.1) →
      (∃ held ∈ copies, copy.1 = held.1) ∨ ∃ m ∈ moves, copy.1 = m.1.copy.segment from
    (hgen [] ⟨copy, h, rfl⟩).resolve_left (by simp)
  clear h
  induction moves with
  | nil => exact fun copies h => .inl h
  | cons m moves ih =>
    intro copies h
    rcases ih _ h with ⟨held, hheld, heq⟩ | ⟨m', hm', heq⟩
    · rcases mem_addAt hheld with hseg | ⟨old, hold, hseg⟩
      · exact .inr ⟨m, mem_cons_self, heq.trans hseg⟩
      · exact .inl ⟨old, hold, heq.trans hseg⟩
    · exact .inr ⟨m', mem_cons_of_mem _ hm', heq⟩

def sampleKey (byte : Byte) : RecordKey := ⟨0, ⟨[byte, byte], by simp [maxKeyLen]⟩⟩

/-- Two records of segment 1 and two of segment 2, the second of segment 2 rewritten since at version 9. -/
def sampleColumns : Columns := fun column =>
  if column = 0 then some ⟨.fixed 2, (((SortedMap.empty.put [6, 6] ⟨⟨1, 0, 5⟩, 3⟩).put [7, 7] ⟨⟨1, 15, 4⟩, 4⟩).put
    [8, 8] ⟨⟨2, 0, 6⟩, 5⟩).put [9, 9] ⟨⟨2, 16, 7⟩, 9⟩, [], 0⟩ else none

def sampleMove (byte : Byte) (copy : Loc) (lsn : Nat) : KeyRepoint × Look :=
  (⟨sampleKey byte, none, copy, lsn⟩, ⟨false, .ok .absent⟩)

/-- Copies of both segments' records into segments 3 and 4; the last is of a version since replaced. -/
def sampleMoves : List (KeyRepoint × Look) :=
  [sampleMove 6 ⟨3, 0, 5⟩ 3, sampleMove 8 ⟨3, 15, 6⟩ 5, sampleMove 7 ⟨4, 0, 4⟩ 4, sampleMove 9 ⟨4, 14, 3⟩ 6]

def sampleSegments : SegmentTable := (SegmentTable.empty.markLive 1 29).markLive 2 33

/-- A repoint run books exactly what it moved: live bytes grow by the copies their keys now point at and
shrink by the records moved off, dead bytes grow by the other copies, and nothing else changes. -/
theorem repointRun_books {columns : Columns} {segments : SegmentTable} {moves : List (KeyRepoint × Look)}
    {low : Nat} (hopen : segments.window.Open low)
    (hdest : ∀ m ∈ moves, segments.window.Within low m.1.copy.segment)
    (hkeys : (moves.map fun m => m.1.key).Nodup)
    (hfresh : ∀ m ∈ moves, columns.pointsAt m.1.key m.1.copy = false)
    (hroom : ∀ id, movedOffBytes columns (repointRun columns segments moves).columns moves id ≤
      (segments.bytesOf id).live + landedBytes (repointRun columns segments moves).columns moves id) (id : Nat) :
    let after := repointRun columns segments moves
    (after.segments.bytesOf id).live + movedOffBytes columns after.columns moves id =
        (segments.bytesOf id).live + landedBytes after.columns moves id ∧
      (after.segments.bytesOf id).dead = (segments.bytesOf id).dead + lostBytes after.columns moves id ∧
      (after.segments.bytesOf id).held = (segments.bytesOf id).held ∧
      (after.segments.bytesOf id).heldLsn = (segments.bytesOf id).heldLsn := by
  intro after
  have hsums := RunState.run_sums moves ⟨columns, [], [], 0, none⟩ id hkeys hfresh
  have hlost : sumAt id (moves.foldl RunState.step ⟨columns, [], [], 0, none⟩).lost =
    lostBytes after.columns moves id := hsums.1.trans (Nat.zero_add _)
  have hreleased : sumAt id (moves.foldl RunState.step ⟨columns, [], [], 0, none⟩).released =
    movedOffBytes columns after.columns moves id := hsums.2.trans (Nat.zero_add _)
  have hin : ∀ copy ∈ copiesOf moves, segments.window.Within low copy.1 := fun copy hcopy =>
    let ⟨m, hm, heq⟩ := mem_copiesOf hcopy
    heq ▸ hdest m hm
  obtain ⟨hbytes, hsome⟩ := SegmentTable.bytesOf_foldl_markLive (copiesOf moves) segments hopen hin id
  have hafter : after.segments.window.counted id = _ := SegmentTable.counted_foldl_releaseLive _ _ id
  rw [SegmentTable.counted_foldl_shadow, hlost, hreleased] at hafter
  rw [sumAt_copiesOf moves after.columns] at hbytes hsome
  have hroom' : movedOffBytes columns after.columns moves id ≤
    (segments.bytesOf id).live + landedBytes after.columns moves id := hroom id
  rw [SegmentTable.bytesOf, hafter]
  cases hmarked : ((copiesOf moves).foldl (fun t copy => t.markLive copy.1 copy.2) segments).window.counted id with
  | some counts =>
    rw [SegmentTable.bytesOf, hmarked, getD_some] at hbytes
    subst hbytes
    dsimp only [map_some, getD_some, Counts.dropLive, Counts.shadow, Counts.addDead, Counts.addLive]
    refine ⟨?_, rfl, rfl, rfl⟩
    omega
  | none =>
    -- nothing was counted on this segment before, and no copy of the run lies in it
    rw [hmarked] at hsome
    have hnone := not_or.mp fun h => absurd (hsome h) (by simp)
    have hstart : segments.bytesOf id = .start := by
      rw [SegmentTable.bytesOf, not_isSome_iff_eq_none.mp hnone.1]
      rfl
    rw [hstart] at hroom' ⊢
    dsimp only [map_none, getD_none, Counts.start] at hroom' ⊢
    refine ⟨?_, ?_, rfl, rfl⟩ <;> omega

theorem repointRun_books_sample :
    let after := repointRun sampleColumns sampleSegments sampleMoves
    [1, 2, 3, 4].map (fun id => (after.segments.bytesOf id).live) = [0, 17, 31, 14] ∧
      [1, 2, 3, 4].map (lostBytes after.columns sampleMoves) = [0, 0, 0, 13] ∧
      ∀ id, (after.segments.bytesOf id).live + movedOffBytes sampleColumns after.columns sampleMoves id =
          (sampleSegments.bytesOf id).live + landedBytes after.columns sampleMoves id ∧
        (after.segments.bytesOf id).dead =
          (sampleSegments.bytesOf id).dead + lostBytes after.columns sampleMoves id := by
  intro after
  have horigins : ∀ m ∈ sampleMoves, ∀ place ∈ sampleColumns.origin m, place.segment = 1 ∨ place.segment = 2 := by
    decide +kernel
  have hroom : ∀ id, movedOffBytes sampleColumns after.columns sampleMoves id ≤
      (sampleSegments.bytesOf id).live + landedBytes after.columns sampleMoves id := by
    intro id
    by_cases h : id = 1 ∨ id = 2
    · rcases h with rfl | rfl <;> decide +kernel
    · refine le_of_eq_of_le (sum_eq_zero fun bytes hbytes => ?_) (Nat.zero_le _)
      obtain ⟨m, hm, rfl⟩ := mem_map.mp hbytes
      cases horigin : sampleColumns.origin m with
      | none => rfl
      | some place =>
        refine if_neg fun hid => h ?_
        rw [← hid.1]
        exact horigins m hm place horigin
  have hopen : sampleSegments.window.Open 0 := .inr (by decide +kernel :
    0 ≤ sampleSegments.window.first ∧ sampleSegments.window.first ≤ 0 + maxWindow / chunkRows)
  have hdest : ∀ m ∈ sampleMoves, sampleSegments.window.Within 0 m.1.copy.segment := by
    refine forall_mem_cons.mpr ⟨⟨by decide, by decide, by decide +kernel⟩, forall_mem_cons.mpr
      ⟨⟨by decide, by decide, by decide +kernel⟩, forall_mem_cons.mpr ⟨⟨by decide, by decide, by decide +kernel⟩,
        forall_mem_singleton.mpr ⟨by decide, by decide, by decide +kernel⟩⟩⟩⟩
  refine ⟨by decide +kernel, by decide +kernel, fun id => ?_⟩
  obtain ⟨hlive, hdead, -⟩ := repointRun_books hopen hdest (by decide +kernel) (by decide +kernel) hroom id
  exact ⟨hlive, hdead⟩

/-- A run that moves one key twice leaves its first copy neither live nor dead. -/
theorem twice_moved_copy_unbooked :
    let twice := [sampleMove 6 ⟨3, 0, 5⟩ 3, sampleMove 6 ⟨3, 20, 5⟩ 3]
    let after := repointRun sampleColumns sampleSegments twice
    (sampleSegments.bytesOf 3).dead = 0 ∧ (after.segments.bytesOf 3).dead = 0 ∧
      lostBytes after.columns twice 3 = 15 ∧ (after.segments.bytesOf 3).live = 15 ∧
      (after.segments.bytesOf 1).live = 14 := by
  decide +kernel

end Reel
