import Reel.Index.Counters

/-!
A column's shards, each with a map of its own and what is kept beside it: how many graves it holds and a floor
under their numbers, whether it is filled and on the walk, and a filter in front of its lock. Every call moves
these by hand, shard by shard.
-/

set_option autoImplicit false

namespace Reel
open Bytes List

structure Shard where
  map : SortedMap Str Entry
  graves : Nat
  oldestGrave : Nat
  paged : Nat
  filled : Bool
  occupied : Bool
  /-- The bits of the shard's filter words. -/
  bits : Nat → Bool

def filterWords (shards : Nat) : Nat := 2 ^ Nat.log2 (min (max (2 ^ 17 / max shards 1) 1) 2048)

def probePair (hash : UInt64) (words : Nat) : Nat × Nat :=
  let mask := UInt64.ofNat (words * 64) - 1
  let other := hash * (0xD6E8FEB86659FD93 : UInt64) ^^^ hash >>> 32
  ((hash &&& mask).toNat, (other &&& mask).toNat)

def filterHash (key : Str) : UInt64 :=
  (key.toChunks 8).foldl (fun hash chunk => fold ((hash ^^^ UInt64.ofNat (fromLe chunk)) * 0x9e3779b97f4a7c15))
    0xcbf29ce484222325
where
  fold (hash : UInt64) : UInt64 := hash ^^^ hash >>> 29

def Sharding.probes (sharding : Sharding) (key : Str) : Nat × Nat :=
  probePair (filterHash key) (filterWords sharding.count)

namespace Shard

def empty : Shard := ⟨.empty, 0, 2 ^ 64 - 1, 0, false, false, fun _ => false⟩

variable (s : Shard)

def vacant : Bool := s.map.entries.isEmpty

def noteGrave (lsn : Nat) : Shard :=
  { s with graves := s.graves + 1, oldestGrave := if lsn < s.oldestGrave then lsn else s.oldestGrave }

def noteFilled (wasEmpty : Bool) : Shard := if wasEmpty then { s with occupied := true } else s

def noteHeld (isVacant : Bool) : Shard := { s with filled := !isVacant }

def noteEmptied : Shard :=
  let cleared := if s.vacant then { s with bits := fun _ => false }.noteHeld true else s
  if s.vacant && s.paged == 0 then { cleared with occupied := false } else cleared

def span (resume : Str) (high : Option Str) : List (Str × Entry) :=
  s.map.entries.filter fun e => decide (resume ≤ e.1) && high.all (fun high => e.1 < high)

def sweep (lsn budget : Nat) (resume : Str) (high : Option Str) : Shard × Nat × Option Str :=
  let looked := (s.span resume high).take budget
  let doomed := looked.filter fun e => decide (e.2.lsn < lsn) && !e.2.isGrave
  (if doomed.isEmpty then s
    else { s with map := s.map.keep fun key _ => !doomed.any (·.1 == key) }.noteEmptied,
    looked.length, ((s.span resume high).drop budget).head?.map Prod.fst)

def pruneGraves (before : Nat) (standing : List Nat) : Shard :=
  if s.graves = 0 ∨ before < s.oldestGrave then s
  else
    let doomed := s.map.entries.filter fun e => ColumnIndex.buriable e.2 before standing
    let left := s.map.entries.filter fun e => e.2.isGrave && !ColumnIndex.buriable e.2 before standing
    let floored := { s with oldestGrave := (left.map fun e => e.2.lsn).foldl min (2 ^ 64 - 1) }
    if doomed.isEmpty then floored
    else
      { floored with
        map := s.map.keep fun _ entry => !ColumnIndex.buriable entry before standing
        graves := s.graves - doomed.length }.noteEmptied

def book (keys : Nat) (gone : Bool) : Shard :=
  { s with paged := s.paged + keys - gone.toNat }.noteFilled (s.vacant && s.paged == 0 && decide (0 < keys))

def settle (counted : Bool) : Shard := { s with paged := s.paged - counted.toNat }

variable (key : Str) (loc : Loc)

def unbury : Shard :=
  if (s.map.get key).any Entry.isGrave then { s with graves := s.graves - 1 } else s

def without : Shard := { s with map := s.map.take key }

section Filter
variable (probes : Str → Nat × Nat)

variable (s : Shard)

variable (key : Str) (loc : Loc)

def noteKey : Shard :=
  { s with bits := fun i => s.bits i || i == (probes key).1 || i == (probes key).2 }

def mayHold : Bool := s.bits (probes key).1 && s.bits (probes key).2

def land (entry : Entry) : Shard :=
  let landed := { s.noteKey probes key with map := s.map.put key entry }
  (landed.noteFilled s.vacant).noteHeld landed.vacant

def bury (lsn tombstone : Nat) : Shard :=
  ((s.unbury key).noteGrave lsn).land probes key (.graveFrom lsn tombstone)

def insertHeld (entry : Entry) (isCovered isShadowed : Bool) : Shard :=
  if isCovered then s
  -- the key is noted before the map is asked, and stays noted where the put is refused
  else if (s.map.get key).elim isShadowed (fun existing => decide (entry.lsn ≤ existing.lsn)) then s.noteKey probes key
  else (s.unbury key).land probes key entry

def removeHeld (lsn tombstone : Nat) (isShadowed : Bool) : Shard :=
  match s.map.get key with
  | some existing =>
    if lsn ≤ existing.lsn then
      if existing.isGrave && existing.lsn == lsn then { s with map := s.map.put key (.graveFrom lsn tombstone) } else s
    else s.bury probes key lsn tombstone
  | none => if isShadowed then s else s.bury probes key lsn tombstone

def holdGrave (lsn segment : Nat) (isShadowed : Bool) : Shard :=
  if (s.map.get key).any (fun existing => !existing.isGrave || decide (lsn < existing.lsn)) || isShadowed then s
  else s.bury probes key lsn segment

def repoint (lsn : Nat) : Shard :=
  if (s.map.get key).any (fun existing => existing.lsn == lsn && !existing.isGrave) then
    { s.noteKey probes key with map := s.map.put key ⟨loc, lsn⟩ }
  else s

def evictPaged (lsn : Nat) (took : Bool) : Shard :=
  if (s.map.get key).isSome then s else (s.settle took).bury probes key lsn 0

def repointPaged (lsn : Nat) (took : Bool) : Shard :=
  if (s.map.get key).isSome then s else (s.settle took).land probes key ⟨loc, lsn⟩

end Filter

def dropGrave (lsn : Nat) : Shard :=
  if (s.map.get key).any (fun existing => existing.isGrave && existing.lsn == lsn) then
    ((s.unbury key).without key).noteEmptied
  else s

def dropShadowed : Shard :=
  if (s.map.get key).isNone then s else ((s.unbury key).without key).noteEmptied

def evictAt : Shard :=
  if (s.map.get key).any (fun existing => decide (existing.loc = loc)) then (s.without key).noteEmptied else s

def pageOut (covers : List (Covered Str)) (key : Str) (loc : Loc) : Shard :=
  let holds := (s.map.get key).any fun existing =>
    decide (existing.loc = loc) && !existing.isGrave && !isCovered covers key existing.lsn
  (if holds then { s.without key with paged := s.paged + 1 } else s).noteEmptied

end Shard

structure ShardedIndex where
  width : KeyWidth
  covers : List (Covered Str)
  shards : Nat → Shard

inductive ShardCall where
  | insert (key : Str) (entry : Entry) (isShadowed : Bool)
  | remove (key : Str) (lsn tombstone : Nat) (isShadowed : Bool)
  | holdGrave (key : Str) (lsn segment : Nat) (isShadowed : Bool)
  | dropGrave (key : Str) (lsn : Nat)
  | evictAt (key : Str) (loc : Loc)
  | evictPaged (key : Str) (lsn : Nat) (took : Bool)
  | repoint (key : Str) (loc : Loc) (lsn : Nat)
  | repointPaged (key : Str) (loc : Loc) (lsn : Nat) (took : Bool)
  | pageOut (key : Str) (loc : Loc)
  | sweepRun (lsn budget : Nat)
  | pruneTombstones (before : Nat) (overlaps : Str → Option Str → Bool) (standing : List Nat)
  | dropShadowed (key : Str)
  | book (shard keys : Nat) (gone : Bool)

namespace ShardedIndex

def new (width : KeyWidth) (covers : List (Covered Str)) : ShardedIndex := ⟨width, covers, fun _ => .empty⟩

def modify (index : ShardedIndex) (shard : Nat) (f : Shard → Shard) : ShardedIndex :=
  { index with shards := Function.update index.shards shard (f (index.shards shard)) }

def onKey (index : ShardedIndex) (sharding : Sharding) (key : Str) (f : Shard → Shard) : ShardedIndex :=
  if index.width.accepts key then index.modify (sharding.shardOf key) f else index

/-- Sweep shards in turn until the budget runs out inside one, with where it did. -/
def sweepShards (lsn budget : Nat) (resume : Str) (high : Option Str) :
    List Nat → Nat → (Nat → Shard) → (Nat → Shard) × Option Str
  | [], _, shards => (shards, none)
  | shard :: rest, examined, shards =>
    let (swept, looked, stopped) := (shards shard).sweep lsn (budget - examined) resume high
    match stopped with
    | some key => (Function.update shards shard swept, some key)
    | none => sweepShards lsn budget resume high rest (examined + looked) (Function.update shards shard swept)

def sweepRun (index : ShardedIndex) (sharding : Sharding) (lsn budget : Nat) : ShardedIndex :=
  match index.covers.find? (·.lsn == lsn) with
  | some cover =>
    match cover.phase with
    | .sweep resume =>
      let last := cover.high.elim (sharding.count - 1) sharding.shardOf
      let walk := (range (last + 1)).filter fun shard =>
        decide (sharding.shardOf resume ≤ shard) && (index.shards shard).occupied
      let (shards, stopped) := sweepShards lsn budget resume cover.high walk 0 index.shards
      { index with
        shards
        covers := index.covers.map fun cover =>
          if cover.lsn = lsn then { cover with phase := stopped.elim .done .sweep } else cover }
    | _ => index
  | none => index

def pruneTombstones (index : ShardedIndex) (before : Nat) (overlaps : Str → Option Str → Bool)
    (standing : List Nat) : ShardedIndex :=
  { index with
    covers := index.covers.filter fun cover => !ColumnIndex.prunable cover before overlaps
    shards := fun shard =>
      if (index.shards shard).occupied then (index.shards shard).pruneGraves before standing else index.shards shard }

def call (sharding : Sharding) (index : ShardedIndex) : ShardCall → ShardedIndex
  | .insert key entry isShadowed => index.onKey sharding key
      (·.insertHeld sharding.probes key entry (isCovered index.covers key entry.lsn) isShadowed)
  | .remove key lsn tombstone isShadowed => index.onKey sharding key
      (·.removeHeld sharding.probes key lsn tombstone isShadowed)
  | .holdGrave key lsn segment isShadowed => index.onKey sharding key
      (·.holdGrave sharding.probes key lsn segment isShadowed)
  | .dropGrave key lsn => index.onKey sharding key (·.dropGrave key lsn)
  | .evictAt key loc => index.onKey sharding key (·.evictAt key loc)
  | .evictPaged key lsn took => index.onKey sharding key (·.evictPaged sharding.probes key lsn took)
  | .repoint key loc lsn => index.onKey sharding key (·.repoint sharding.probes key loc lsn)
  | .repointPaged key loc lsn took => index.onKey sharding key (·.repointPaged sharding.probes key loc lsn took)
  | .pageOut key loc => index.onKey sharding key (·.pageOut index.covers key loc)
  | .sweepRun lsn budget => index.sweepRun sharding lsn budget
  | .pruneTombstones before overlaps standing => index.pruneTombstones before overlaps standing
  | .dropShadowed key => index.onKey sharding key (·.dropShadowed key)
  | .book shard keys gone => index.modify shard (·.book keys gone)

def run (sharding : Sharding) (index : ShardedIndex) (calls : List ShardCall) : ShardedIndex :=
  calls.foldl (call sharding) index

end ShardedIndex

def graveCount (map : SortedMap Str Entry) : Nat := map.entries.countP fun e => e.2.isGrave

theorem graveCount_put (map : SortedMap Str Entry) (key : Str) (entry : Entry) :
    graveCount (map.put key entry) = graveCount (map.take key) + entry.isGrave.toNat := by
  rw [graveCount, (map.put_perm key entry).countP_eq, countP_cons, graveCount]
  cases entry.isGrave <;> rfl

theorem graveCount_take (map : SortedMap Str Entry) (key : Str) :
    graveCount map = graveCount (map.take key) + ((map.get key).any Entry.isGrave).toNat := by
  cases h : map.get key with
  | none => rw [graveCount, graveCount, SortedMap.take_entries_of_none h]; rfl
  | some existing =>
    rw [graveCount, (SortedMap.take_perm_of_some h).countP_eq, countP_cons, graveCount, Option.any_some]
    cases existing.isGrave <;> rfl

theorem mem_put {map : SortedMap Str Entry} {key : Str} {entry : Entry} {e : Str × Entry}
    (h : e ∈ (map.put key entry).entries) : e = (key, entry) ∨ e ∈ map.entries := by
  rw [(map.put_perm key entry).mem_iff, mem_cons] at h
  exact h.imp_right fun he => (mem_filter.mp he).1

namespace Shard

structure Counted (s : Shard) : Prop where
  graves : s.graves = graveCount s.map
  floor : ∀ e ∈ s.map.entries, e.2.isGrave = true → s.oldestGrave ≤ e.2.lsn

structure Shown (probes : Str → Nat × Nat) (s : Shard) : Prop where
  filled : s.filled = !s.vacant
  walked : s.vacant = false → s.occupied = true
  passes : ∀ e ∈ s.map.entries, s.mayHold probes e.1 = true

/-- A shard's count of graves, their floor, its bit, its place on the walk and its filter say what its map holds. -/
structure Exact (probes : Str → Nat × Nat) (s : Shard) : Prop extends Counted s, Shown probes s

section Keeps
variable {probes : Str → Nat × Nat} {s t : Shard} {key : Str}

theorem Shown.noteKey (h : Shown probes s) (key : Str) : Shown probes (s.noteKey probes key) := by
  refine ⟨h.filled, h.walked, fun e he => ?_⟩
  have hold := h.passes e he
  simp only [mayHold, Shard.noteKey, Bool.and_eq_true, Bool.or_eq_true] at hold ⊢
  exact ⟨.inl (.inl hold.1), .inl (.inl hold.2)⟩

theorem Shown.land (h : Shown probes s) (key : Str) (entry : Entry) : Shown probes (s.land probes key entry) := by
  have hput : ∀ e ∈ (s.map.put key entry).entries, (s.noteKey probes key).mayHold probes e.1 = true := by
    intro e he
    rcases mem_put he with rfl | he
    · simp [mayHold, Shard.noteKey]
    · exact (h.noteKey key).passes e he
  rw [Shard.land, Shard.noteFilled]
  cases hv : s.vacant with
  | true => exact ⟨rfl, fun _ => rfl, hput⟩
  | false => exact ⟨rfl, fun _ => h.walked hv, hput⟩

theorem Shown.noteEmptied (h : Shown probes s) (hsub : ∀ e ∈ t.map.entries, e ∈ s.map.entries) (hbits : t.bits = s.bits)
    (hfilled : t.filled = s.filled) (hwalked : t.occupied = s.occupied) : Shown probes t.noteEmptied := by
  unfold Shard.noteEmptied
  cases hv : t.vacant with
  | true =>
    have hnil : t.map.entries = [] := List.isEmpty_iff.mp hv
    have hnone : ∀ e, e ∉ t.map.entries := fun e he => by rw [hnil] at he; cases he
    simp only [if_true, Bool.true_and]
    split <;> exact ⟨by rw [vacant]; exact congrArg (!·) hv.symm,
      fun hne => absurd hv (by rw [vacant] at hne ⊢; exact ne_true_of_eq_false hne), fun e he => absurd he (hnone e)⟩
  | false =>
    simp only [Bool.false_eq_true, if_false, Bool.false_and]
    have hs : s.vacant = false := by
      obtain ⟨e, he⟩ := isEmpty_eq_false_iff_exists_mem.mp hv
      exact isEmpty_eq_false_iff_exists_mem.mpr ⟨e, hsub e he⟩
    refine ⟨by rw [hfilled, h.filled, hs, hv], fun _ => hwalked.trans (h.walked hs), fun e he => ?_⟩
    have hold := h.passes e (hsub e he)
    rwa [mayHold, ← hbits] at hold

theorem Counted.noteEmptied (h : Counted s) : Counted s.noteEmptied := by
  unfold Shard.noteEmptied
  split <;> split <;> exact ⟨h.graves, h.floor⟩

theorem Exact.settle (h : Exact probes s) (counted : Bool) : Exact probes (s.settle counted) :=
  ⟨⟨h.graves, h.floor⟩, ⟨h.filled, h.walked, h.passes⟩⟩

theorem Shown.unbury (h : Shown probes s) (key : Str) : Shown probes (s.unbury key) := by
  unfold Shard.unbury
  split
  · exact ⟨h.filled, h.walked, h.passes⟩
  · exact h

theorem Counted.graves_unbury (h : Counted s) (key : Str) : (s.unbury key).graves = graveCount (s.map.take key) := by
  have hcount := graveCount_take s.map key
  rw [← h.graves] at hcount
  unfold Shard.unbury
  cases hgrave : (s.map.get key).any Entry.isGrave with
  | true =>
    rw [hgrave] at hcount
    exact Nat.sub_eq_of_eq_add hcount
  | false => rw [hgrave] at hcount; exact hcount

theorem unbury_same (s : Shard) (key : Str) :
    (s.unbury key).map = s.map ∧ (s.unbury key).oldestGrave = s.oldestGrave := by
  unfold unbury
  split <;> exact ⟨rfl, rfl⟩

theorem land_counts (probes : Str → Nat × Nat) (s : Shard) (key : Str) (entry : Entry) :
    (s.land probes key entry).map = s.map.put key entry ∧ (s.land probes key entry).graves = s.graves ∧
      (s.land probes key entry).oldestGrave = s.oldestGrave := by
  unfold land noteFilled
  split <;> exact ⟨rfl, rfl, rfl⟩

theorem Exact.put (h : Exact probes s) (key : Str) {entry : Entry} (hrecord : entry.isGrave = false) :
    Exact probes ((s.unbury key).land probes key entry) := by
  obtain ⟨hmap, hgraves, hfloor⟩ := land_counts probes (s.unbury key) key entry
  obtain ⟨hsame, holdest⟩ := unbury_same s key
  refine ⟨⟨?_, fun e he hgrave => ?_⟩, (h.toShown.unbury key).land key entry⟩
  · rw [hgraves, h.graves_unbury, hmap, hsame, graveCount_put, hrecord]
    rfl
  · rw [hmap, hsame] at he
    rw [hfloor, holdest]
    rcases mem_put he with rfl | he
    · exact absurd hgrave (ne_true_of_eq_false hrecord)
    · exact h.floor e he hgrave

theorem oldestGrave_noteGrave (s : Shard) (lsn : Nat) :
    (s.noteGrave lsn).oldestGrave ≤ lsn ∧ (s.noteGrave lsn).oldestGrave ≤ s.oldestGrave := by
  unfold noteGrave
  dsimp only
  split <;> omega

theorem Exact.bury (h : Exact probes s) (key : Str) (lsn tombstone : Nat) :
    Exact probes (s.bury probes key lsn tombstone) := by
  obtain ⟨hmap, hgraves, hfloor⟩ := land_counts probes ((s.unbury key).noteGrave lsn) key (.graveFrom lsn tombstone)
  obtain ⟨hsame, holdest⟩ := unbury_same s key
  obtain ⟨hown, hrest⟩ := oldestGrave_noteGrave (s.unbury key) lsn
  have hshown := h.toShown.unbury key
  have hmap' : ((s.unbury key).noteGrave lsn).map = s.map := hsame
  refine ⟨⟨?_, fun e he hgrave => ?_⟩,
    Shown.land (s := (s.unbury key).noteGrave lsn) ⟨hshown.filled, hshown.walked, hshown.passes⟩ _ _⟩
  · have hnoted : ((s.unbury key).noteGrave lsn).graves = (s.unbury key).graves + 1 := rfl
    rw [Shard.bury, hgraves, hmap, hmap', graveCount_put, hnoted, h.graves_unbury]
    rfl
  · rw [Shard.bury, hmap, hmap'] at he
    rw [Shard.bury, hfloor]
    rcases mem_put he with rfl | he
    · exact hown
    · exact (hrest.trans holdest.le).trans (h.floor e he hgrave)

/-- Entries leave the map, and the graves among them the count. -/
theorem Exact.keep (h : Exact probes s) (p : Str → Entry → Bool) (graves oldestGrave paged : Nat)
    (hgraves : graves = graveCount (s.map.keep p))
    (hfloor : ∀ e ∈ (s.map.keep p).entries, e.2.isGrave = true → oldestGrave ≤ e.2.lsn) :
    Exact probes { s with map := s.map.keep p, graves, oldestGrave, paged }.noteEmptied :=
  ⟨Counted.noteEmptied ⟨hgraves, hfloor⟩,
    h.toShown.noteEmptied (fun _ he => (mem_filter.mp he).1) rfl rfl rfl⟩

theorem Counted.floor_keep (h : Counted s) (p : Str → Entry → Bool) :
    ∀ e ∈ (s.map.keep p).entries, e.2.isGrave = true → s.oldestGrave ≤ e.2.lsn :=
  fun e he => h.floor e (mem_filter.mp he).1

section
variable (h : Exact probes s)
include h

theorem Exact.takes (key : Str) : Exact probes ((s.unbury key).without key).noteEmptied := by
  have hgraves := h.graves_unbury key
  unfold unbury without at *
  split
  · rename_i hgrave
    rw [if_pos hgrave] at hgraves
    exact h.keep _ _ _ _ hgraves (h.floor_keep _)
  · rename_i hgrave
    rw [if_neg hgrave] at hgraves
    exact h.keep _ _ _ _ hgraves (h.floor_keep _)

theorem Exact.lets {existing : Entry} (hget : s.map.get key = some existing)
    (hrecord : existing.isGrave = false) (paged : Nat) : Exact probes { s.without key with paged }.noteEmptied := by
  refine h.keep _ _ _ _ ?_ (h.floor_keep _)
  have hcount := graveCount_take s.map key
  rw [hget, Option.any_some, hrecord] at hcount
  exact h.graves.trans hcount

theorem Exact.insertHeld (key : Str) {entry : Entry} (hrecord : entry.isGrave = false)
    (isCovered isShadowed : Bool) : Exact probes (s.insertHeld probes key entry isCovered isShadowed) := by
  unfold Shard.insertHeld
  split
  · exact h
  · split
    · exact ⟨⟨h.graves, h.floor⟩, h.toShown.noteKey key⟩
    · exact h.put key hrecord

/-- An entry is moved inside its place: a record stays one, and a grave keeps its number. -/
theorem Exact.replace {existing entry : Entry} (hget : s.map.get key = some existing)
    (hkind : entry.isGrave = existing.isGrave) (hlsn : entry.lsn = existing.lsn) :
    Exact probes { s with map := s.map.put key entry } := by
  have hin := SortedMap.mem_entries.mpr hget
  have hfull : ∀ map : SortedMap Str Entry, ∀ e ∈ map.entries, ({ s with map } : Shard).vacant = false :=
    fun map e he => isEmpty_eq_false_iff_exists_mem.mpr ⟨e, he⟩
  have hvacant := hfull s.map _ hin
  have hplaced := hfull (s.map.put key entry) (key, entry) ((s.map.put_perm key entry).mem_iff.mpr (by simp))
  refine ⟨⟨?_, fun e he hgrave => ?_⟩, ⟨?_, fun _ => h.walked hvacant, fun e he => ?_⟩⟩
  · have hcount := graveCount_take s.map key
    rw [hget, Option.any_some, ← hkind, ← graveCount_put] at hcount
    exact h.graves.trans hcount
  · rcases mem_put he with rfl | he
    · exact hlsn ▸ h.floor _ hin (hkind ▸ hgrave)
    · exact h.floor e he hgrave
  · rw [hplaced]
    exact h.filled.trans (congrArg (!·) hvacant)
  · rcases mem_put he with rfl | he
    · exact h.passes (key, existing) hin
    · exact h.passes e he

theorem Exact.removeHeld (key : Str) (lsn tombstone : Nat) (isShadowed : Bool) :
    Exact probes (s.removeHeld probes key lsn tombstone isShadowed) := by
  unfold Shard.removeHeld
  split
  · rename_i existing hget
    split
    · split
      · rename_i hcopy
        rw [Bool.and_eq_true, beq_iff_eq] at hcopy
        exact h.replace hget hcopy.1.symm hcopy.2.symm
      · exact h
    · exact h.bury key lsn tombstone
  · split
    · exact h
    · exact h.bury key lsn tombstone

theorem Exact.repoint (key : Str) {loc : Loc} (hrecord : loc.segment ≠ 0) (lsn : Nat) :
    Exact probes (s.repoint probes key loc lsn) := by
  unfold Shard.repoint
  split
  · rename_i hheld
    obtain ⟨existing, hget, hsame⟩ := Option.any_eq_true _ _ |>.mp hheld
    rw [Bool.and_eq_true, beq_iff_eq, Bool.not_eq_true'] at hsame
    have hnoted : Exact probes (s.noteKey probes key) := ⟨⟨h.graves, h.floor⟩, h.toShown.noteKey key⟩
    have hkind : (⟨loc, lsn⟩ : Entry).isGrave = false := by simpa [Entry.isGrave] using hrecord
    exact hnoted.replace hget (hkind.trans hsame.2.symm) hsame.1.symm
  · exact h

theorem Exact.evictAt (key : Str) {loc : Loc} (hrecord : loc.segment ≠ 0) :
    Exact probes (s.evictAt key loc) := by
  unfold Shard.evictAt
  split
  · rename_i hheld
    obtain ⟨existing, hget, hloc⟩ := Option.any_eq_true _ _ |>.mp hheld
    obtain rfl := of_decide_eq_true hloc
    exact h.lets hget (by simpa [Entry.isGrave] using hrecord) s.paged
  · exact h

theorem Exact.pageOut (covers : List (Covered Str)) (key : Str) (loc : Loc) :
    Exact probes (s.pageOut covers key loc) := by
  unfold Shard.pageOut
  dsimp only
  split
  · rename_i hheld
    obtain ⟨existing, hget, hplace⟩ := Option.any_eq_true _ _ |>.mp hheld
    simp only [Bool.and_eq_true, Bool.not_eq_true'] at hplace
    exact h.lets hget hplace.1.2 _
  · exact ⟨h.toCounted.noteEmptied, h.toShown.noteEmptied (fun _ => id) rfl rfl rfl⟩

theorem Exact.book (keys : Nat) (gone : Bool) : Exact probes (s.book keys gone) := by
  unfold Shard.book noteFilled
  split
  · exact ⟨⟨h.graves, h.floor⟩, ⟨h.filled, fun _ => rfl, h.passes⟩⟩
  · exact ⟨⟨h.graves, h.floor⟩, ⟨h.filled, h.walked, h.passes⟩⟩

theorem Exact.sweep (lsn budget : Nat) (resume : Str) (high : Option Str) :
    Exact probes (s.sweep lsn budget resume high).1 := by
  unfold Shard.sweep
  dsimp only
  split
  · exact h
  · refine h.keep _ s.graves s.oldestGrave s.paged ?_ (h.floor_keep _)
    rw [h.graves, graveCount, graveCount, SortedMap.keep, countP_filter]
    refine countP_congr fun e he => ?_
    -- the entry taken under a key is the one the key has, and no sweep takes a grave
    rw [Bool.and_eq_true, Bool.not_eq_true', any_eq_false, iff_self_and]
    intro hgrave taken htaken hkey
    rw [mem_filter, Bool.and_eq_true, Bool.not_eq_true'] at htaken
    have hin := (mem_filter.mp (mem_of_mem_take htaken.1)).1
    have hsame : taken.2 = e.2 := Option.some.inj
      ((SortedMap.mem_entries.mp hin).symm.trans (beq_iff_eq.mp hkey ▸ SortedMap.mem_entries.mp he))
    rw [← hsame, htaken.2.2] at hgrave
    cases hgrave

end

theorem foldl_min_le (l : List Nat) (a : Nat) : l.foldl min a ≤ a ∧ ∀ x ∈ l, l.foldl min a ≤ x := by
  induction l generalizing a with
  | nil => simp
  | cons y l ih =>
    obtain ⟨hle, hall⟩ := ih (min a y)
    exact ⟨hle.trans (min_le_left _ _), forall_mem_cons.mpr ⟨hle.trans (min_le_right _ _), hall⟩⟩

theorem Exact.pruneGraves (h : Exact probes s) (before : Nat) (standing : List Nat) :
    Exact probes (s.pruneGraves before standing) := by
  unfold Shard.pruneGraves
  split
  · exact h
  · dsimp only
    set q : Str × Entry → Bool := fun e => ColumnIndex.buriable e.2 before standing with hq
    have hleft : ∀ e ∈ s.map.entries, e.2.isGrave = true → q e = false →
        ((s.map.entries.filter fun e => e.2.isGrave && !q e).map fun e => e.2.lsn).foldl min (2 ^ 64 - 1) ≤ e.2.lsn :=
      fun e he hgrave hkept => (foldl_min_le _ _).2 _ (mem_map_of_mem (mem_filter.mpr ⟨he, by simp [hgrave, hkept]⟩))
    split
    · rename_i hnone
      have hkept := filter_eq_nil_iff.mp (List.isEmpty_iff.mp hnone)
      exact ⟨⟨h.graves, fun e he hgrave => hleft e he hgrave (by simpa using hkept e he)⟩,
        ⟨h.filled, h.walked, h.passes⟩⟩
    · have hdoomed : (s.map.entries.filter q).countP (fun e => e.2.isGrave) = (s.map.entries.filter q).length := by
        refine countP_eq_length.mpr fun e he => ?_
        have := (mem_filter.mp he).2
        simp only [hq, ColumnIndex.buriable, Bool.and_eq_true] at this
        exact this.1.1
      have hsplit := countP_eq_countP_filter_add s.map.entries (fun e => e.2.isGrave) q
      have hgraves : s.graves - (s.map.entries.filter q).length = graveCount (s.map.keep fun _ entry =>
          !ColumnIndex.buriable entry before standing) := by
        rw [h.graves, graveCount, hsplit, hdoomed, Nat.add_sub_cancel_left]
        rfl
      refine h.keep _ _ _ _ hgraves fun e he hgrave => ?_
      obtain ⟨hin, hkept⟩ := mem_filter.mp he
      exact hleft e hin hgrave (by simpa using hkept)

theorem exact_empty (probes : Str → Nat × Nat) : Exact probes empty :=
  ⟨⟨rfl, nofun⟩, ⟨rfl, nofun, nofun⟩⟩

end Keeps
end Shard

def ShardCall.Recorded : ShardCall → Prop
  | .insert _ entry _ => entry.loc.segment ≠ 0
  | .repoint _ loc _ | .repointPaged _ loc _ _ | .evictAt _ loc => loc.segment ≠ 0
  | _ => True

namespace ShardedIndex

def Exact (sharding : Sharding) (shards : Nat → Shard) : Prop := ∀ shard, (shards shard).Exact sharding.probes

variable {sharding : Sharding} {index : ShardedIndex} {shards : Nat → Shard}

theorem Exact.update (h : Exact sharding shards) (shard : Nat) {s : Shard} (hs : s.Exact sharding.probes) :
    Exact sharding (Function.update shards shard s) := by
  intro other
  rw [Function.update_apply]
  split
  · exact hs
  · exact h other

theorem Exact.onKey (h : Exact sharding index.shards) (key : Str) {f : Shard → Shard}
    (hf : ∀ s, s.Exact sharding.probes → (f s).Exact sharding.probes) :
    Exact sharding (index.onKey sharding key f).shards := by
  unfold ShardedIndex.onKey
  split
  · exact h.update _ (hf _ (h _))
  · exact h

theorem Exact.sweepShards (lsn budget : Nat) (resume : Str) (high : Option Str) (walk : List Nat) (examined : Nat)
    (h : Exact sharding shards) :
    Exact sharding (ShardedIndex.sweepShards lsn budget resume high walk examined shards).1 := by
  induction walk generalizing examined shards with
  | nil => exact h
  | cons shard rest ih =>
    have hswept := h.update shard ((h shard).sweep lsn (budget - examined) resume high)
    rw [ShardedIndex.sweepShards]
    dsimp only
    split
    · exact hswept
    · exact ih _ hswept

theorem Exact.call (h : Exact sharding index.shards) (call : ShardCall) (hrecorded : call.Recorded) :
    Exact sharding (index.call sharding call).shards := by
  have hrecord : ∀ {loc : Loc} (lsn : Nat), loc.segment ≠ 0 → (⟨loc, lsn⟩ : Entry).isGrave = false :=
    fun _ hne => by simpa [Entry.isGrave] using hne
  cases call with
  | insert key entry isShadowed => exact h.onKey key fun s hs => hs.insertHeld key (hrecord entry.lsn hrecorded) _ _
  | remove key lsn tombstone isShadowed => exact h.onKey key fun s hs => hs.removeHeld key lsn tombstone isShadowed
  | holdGrave key lsn segment isShadowed =>
    refine h.onKey key fun s hs => ?_
    unfold Shard.holdGrave
    split
    · exact hs
    · exact hs.bury key lsn segment
  | dropGrave key lsn =>
    refine h.onKey key fun s hs => ?_
    unfold Shard.dropGrave
    split
    · exact hs.takes key
    · exact hs
  | evictAt key loc => exact h.onKey key fun s hs => hs.evictAt key hrecorded
  | evictPaged key lsn took =>
    refine h.onKey key fun s hs => ?_
    unfold Shard.evictPaged
    split
    · exact hs
    · exact (hs.settle took).bury key lsn 0
  | repoint key loc lsn => exact h.onKey key fun s hs => hs.repoint key hrecorded lsn
  | repointPaged key loc lsn took =>
    refine h.onKey key fun s hs => ?_
    unfold Shard.repointPaged
    split
    · exact hs
    · rename_i hnone
      have hput := (hs.settle took).put key (hrecord lsn hrecorded)
      have hplace : (s.settle took).unbury key = s.settle took := if_neg fun hgrave => hnone (by
        obtain ⟨existing, hget, -⟩ := Option.any_eq_true _ _ |>.mp hgrave
        exact Option.isSome_of_eq_some hget)
      rwa [hplace] at hput
  | pageOut key loc => exact h.onKey key fun s hs => hs.pageOut index.covers key loc
  | sweepRun lsn budget =>
    simp only [ShardedIndex.call, ShardedIndex.sweepRun]
    split
    · split
      · exact h.sweepShards lsn budget _ _ _ 0
      · exact h
    · exact h
  | pruneTombstones before overlaps standing =>
    intro shard
    simp only [ShardedIndex.call, ShardedIndex.pruneTombstones]
    split
    · exact (h shard).pruneGraves before standing
    · exact h shard
  | dropShadowed key =>
    refine h.onKey key fun s hs => ?_
    unfold Shard.dropShadowed
    split
    · exact hs
    · exact hs.takes key
  | book shard keys gone => exact h.update shard ((h shard).book keys gone)

/-- A shard's bookkeeping stays exact under every sequence of calls that put and look for records in segments
other than zero. -/
theorem shard_books_exact (sharding : Sharding) (width : KeyWidth) (covers : List (Covered Str))
    {calls : List ShardCall} (hrecorded : ∀ call ∈ calls, call.Recorded) (shard : Nat) :
    ((run sharding (new width covers) calls).shards shard).Exact sharding.probes := by
  have hrun : ∀ index : ShardedIndex, Exact sharding index.shards → Exact sharding (run sharding index calls).shards := by
    induction calls with
    | nil => exact fun _ h => h
    | cons call calls ih =>
      exact fun index h => ih (fun c hc => hrecorded c (by simp [hc])) _ (h.call call (hrecorded call (by simp)))
  exact hrun _ (fun _ => Shard.exact_empty _) shard

def oneShard : Sharding := ⟨1, fun _ => 0, fun _ => Nat.one_pos⟩

theorem shard_books_exact_sample :
    ((run oneShard (new .varying [])
      [.insert [3] ⟨⟨1, 0, 8⟩, 1⟩ false, .remove [3] 2 1 false]).shards 0).Exact oneShard.probes :=
  shard_books_exact oneShard .varying [] (by simp [ShardCall.Recorded]) 0

/-- A grave evicted by its own location leaves the map and stays counted. -/
theorem evicted_grave_stays_counted :
    ((run oneShard (new .varying []) [.remove [3] 2 1 false, .evictAt [3] ⟨0, 1, 0⟩]).shards 0).graves = 1 ∧
      ((run oneShard (new .varying []) [.remove [3] 2 1 false, .evictAt [3] ⟨0, 1, 0⟩]).shards 0).map.entries = [] := by
  decide +kernel

end ShardedIndex

end Reel
