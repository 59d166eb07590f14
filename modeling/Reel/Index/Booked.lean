import Reel.Index.Tally

/-!
The books follow the index through every step: after a write, a hand-over and a sweep each shard's
counters are again what its part of the map and of the spot index hold.
-/

set_option autoImplicit false

namespace Reel
open Bytes StableSort List Books SortedMap

/-- The books' part of the map, with the bytes that are held elsewhere. -/
structure MapTally (sharding : Sharding) (map : SortedMap Str Entry) (rest : Nat → Nat) (books : Books) :
    Prop where
  graves : ∀ shard, (books.shards shard).graves = (map.entries.map (graveWeight sharding shard)).sum
  bytes : ∀ shard, (books.shards shard).bytes =
    (map.entries.map (entryBytes sharding shard)).sum + rest shard
  walked : Walked sharding map books

variable {sharding : Sharding} {map : SortedMap Str Entry} {rest : Nat → Nat} {books : Books}

section
variable (h : MapTally sharding map rest books) (key : Str)
include h key

theorem MapTally.put (entry : Entry) {f : ShardState → ShardState}
    (hpaged : ∀ state, (f state).paged = state.paged)
    (hgraves : ∀ state n, state.graves =
      (map.get key).elim 0 (fun old => graveWeight sharding (sharding.shardOf key) (key, old)) + n →
        (f state).graves = graveWeight sharding (sharding.shardOf key) (key, entry) + n)
    (hbytes : ∀ state n, state.bytes =
      (map.get key).elim 0 (fun old => entryBytes sharding (sharding.shardOf key) (key, old)) + n →
        (f state).bytes = entryBytes sharding (sharding.shardOf key) (key, entry) + n) :
    MapTally sharding (map.put key entry) rest ((books.modify (sharding.shardOf key) f).noteFilled
      (sharding.shardOf key) (sharding.vacant map (sharding.shardOf key))) := by
  -- what the map weighs without the key
  have hwithout : ∀ w : Str × Entry → Nat, (map.entries.map w).sum =
      (map.get key).elim 0 (fun old => w (key, old)) + ((map.take key).entries.map w).sum := by
    intro w
    cases hg : map.get key with
    | none => simp [sum_of_none hg w]
    | some old => simp [sum_of_some hg w]
  have hother : ∀ {shard : Nat}, shard ≠ sharding.shardOf key → ∀ held : Entry,
      graveWeight sharding shard (key, held) = 0 ∧ entryBytes sharding shard (key, held) = 0 := by
    intro shard hne held
    simp [graveWeight, entryBytes, hne.symm]
  refine ⟨fun shard => ?_, fun shard => ?_, h.walked.put key entry hpaged⟩
  · rw [Books.shards_noteFilled, sum_put]
    simp only [Books.modify]
    by_cases hs : shard = sharding.shardOf key
    · subst hs
      rw [if_pos rfl]
      exact hgraves _ _ ((h.graves _).trans (hwithout _))
    · rw [if_neg hs, h.graves, hwithout, (hother hs entry).1]
      cases map.get key <;> simp [(hother hs _).1]
  · rw [Books.shards_noteFilled, sum_put]
    simp only [Books.modify]
    by_cases hs : shard = sharding.shardOf key
    · subst hs
      rw [if_pos rfl, Nat.add_assoc]
      refine hbytes _ _ ((h.bytes _).trans ?_)
      rw [hwithout, Nat.add_assoc]
    · rw [if_neg hs, h.bytes, hwithout, (hother hs entry).2]
      cases map.get key <;> simp [(hother hs _).2]

theorem MapTally.insertHeld {loc : Loc} {lsn : Nat}
    (hloc : loc.segment ≠ 0) {landed : Landed}
    (hlanded : landed = (map.get key).elim .nothing fun old => if old.isGrave then .grave else .record) :
    MapTally sharding (map.put key ⟨loc, lsn⟩) rest
      (books.insertHeld sharding map key loc.len landed) := by
  have hnew : Entry.isGrave ⟨loc, lsn⟩ = false := by simp [Entry.isGrave, hloc]
  cases hg : map.get key with
  | none =>
    rw [hg] at hlanded
    subst hlanded
    refine h.put key _ (fun _ => rfl) ?_ ?_ <;> intro state n hn <;> rw [hg] at hn <;>
      simp only [Option.elim_none] at hn <;> simp [graveWeight, entryBytes, hnew] <;> omega
  | some old =>
    rw [hg] at hlanded
    cases hold : old.isGrave with
    | true =>
      simp only [Option.elim_some, hold, if_true] at hlanded
      subst hlanded
      refine h.put key _ (fun _ => rfl) ?_ ?_ <;> intro state n hn <;> rw [hg] at hn <;>
        simp [graveWeight, entryBytes, hold] at hn <;> simp [graveWeight, entryBytes, hnew] <;> omega
    | false =>
      simp only [Option.elim_some, hold, Bool.false_eq_true, if_false] at hlanded
      subst hlanded
      refine h.put key _ (fun _ => rfl) ?_ ?_ <;> intro state n hn <;> rw [hg] at hn <;>
        simp [graveWeight, entryBytes, hold] at hn
      · simp [graveWeight, hnew, hn]
      · simp only [entryBytes, hnew, and_self, if_true, resize, hg, Option.elim_some]
        split <;> omega

theorem MapTally.removeHeld (lsn tombstone : Nat)
    {landed : Landed}
    (hlanded : landed = (map.get key).elim .nothing fun old => if old.isGrave then .grave else .record) :
    MapTally sharding (map.put key (.graveFrom lsn tombstone)) rest
      (books.removeHeld sharding map key landed) := by
  cases hg : map.get key with
  | none =>
    rw [hg] at hlanded
    subst hlanded
    refine h.put key _ (fun _ => rfl) ?_ ?_ <;> intro state n hn <;> rw [hg] at hn <;>
      simp only [Option.elim_none] at hn <;> simp [graveWeight, entryBytes] <;> omega
  | some old =>
    rw [hg] at hlanded
    cases hold : old.isGrave with
    | true =>
      simp only [Option.elim_some, hold, if_true] at hlanded
      subst hlanded
      refine h.put key _ (fun _ => rfl) ?_ ?_ <;> intro state n hn <;> rw [hg] at hn <;>
        simp [graveWeight, entryBytes, hold] at hn <;> simp [graveWeight, entryBytes] <;> omega
    | false =>
      simp only [Option.elim_some, hold, Bool.false_eq_true, if_false] at hlanded
      subst hlanded
      refine h.put key _ (fun _ => rfl) ?_ ?_ <;> intro state n hn <;> rw [hg] at hn <;>
        simp [graveWeight, entryBytes, hold] at hn <;> simp [graveWeight, entryBytes, hg] <;> omega

end

/-- Every shard's counters are what its part of the map and of the slots weighs. -/
structure Tallied (sharding : Sharding) (map : SortedMap Str Entry) (noted : List Segment)
    (slots : List Slot) (books : Books) : Prop extends
    MapTally sharding map (fun shard => (slots.map (slotBytes sharding shard noted)).sum) books where
  paged : ∀ shard, (books.shards shard).paged = (slots.map (slotLive sharding shard noted)).sum
  least : ∀ slot ∈ slots, ∀ {row : Row}, rowAt noted slot = some row → slot.least ≤ row.len

section Tallied
variable {sharding : Sharding} {map : SortedMap Str Entry} {noted : List Segment} {slots : List Slot}
  {books : Books}

abbrev Volume.Tallies (v : Volume) (sharding : Sharding) (books : Books) : Prop :=
  Tallied sharding v.index.map v.noted v.spot.slots books

theorem Tallied.remap (h : Tallied sharding map noted slots books) {map' : SortedMap Str Entry}
    {books' : Books}
    (hmap : MapTally sharding map' (fun shard => (slots.map (slotBytes sharding shard noted)).sum) books')
    (hpaged : ∀ shard, (books'.shards shard).paged = (books.shards shard).paged) :
    Tallied sharding map' noted slots books' :=
  ⟨hmap, fun shard => (hpaged shard).trans (h.paged shard), h.least⟩

theorem Books.paged_insertHeld (books : Books) (sharding : Sharding) (map : SortedMap Str Entry) (key : Str)
    (len : Nat) (landed : Landed) (shard : Nat) :
    ((books.insertHeld sharding map key len landed).shards shard).paged = (books.shards shard).paged := by
  cases landed <;> simp only [insertHeld, shards_noteFilled, modify] <;> split <;> rfl

theorem Books.paged_removeHeld (books : Books) (sharding : Sharding) (map : SortedMap Str Entry) (key : Str)
    (landed : Landed) (shard : Nat) :
    ((books.removeHeld sharding map key landed).shards shard).paged = (books.shards shard).paged := by
  cases landed <;> simp only [removeHeld, shards_noteFilled, modify] <;> split <;> rfl

variable {slot : Slot}

theorem mem_settled {hash : UInt64} {verdict : Slot → Verdict}
    (h : slot ∈ slots.filterMap (settledSlot hash verdict)) :
    ∃ first ∈ slots, slot = first ∨ slot = first.displaced := by
  obtain ⟨first, hfirst, hs⟩ := mem_filterMap.mp h
  refine ⟨first, hfirst, ?_⟩
  unfold settledSlot at hs
  split at hs
  · split at hs <;> simp_all
  · simp_all

section
variable (h : Tallied sharding map noted slots books)
include h

theorem Tallied.bookDisplaced {key : Str} {hash : UInt64}
    {verdict : Slot → Verdict} (hlooks : ∀ slot ∈ slots, Looks noted key hash verdict slot) :
    Tallied sharding map noted (slots.filterMap (settledSlot hash verdict))
      (books.bookDisplaced (sharding.shardOf key)
        ⟨(slotMatches slots hash).filterMap (bookedOf verdict),
          (slotMatches slots hash).filterMap (classedOf verdict),
          (slotMatches slots hash).filterMap (rebookedOf verdict)⟩) := by
  have hrebooked : ∀ x ∈ (slotMatches slots hash).filterMap (rebookedOf verdict), x.2 ≤ x.1.len := by
    intro x hx
    obtain ⟨slot, hslot, he⟩ := mem_filterMap.mp hx
    obtain ⟨hin, hbits⟩ := mem_slotMatches.mp hslot
    unfold rebookedOf at he
    split at he
    · rename_i len hv
      obtain ⟨row, hrow, -, rfl⟩ := (hlooks slot hin).older hbits hv
      split at he
      · cases he
        exact (hlooks slot hin).least hrow
      · cases he
    · cases he
  obtain ⟨hlive, hbytes⟩ := settle_own hlooks sharding
  have hown := books.bookDisplaced_own (sharding.shardOf key)
    ⟨(slotMatches slots hash).filterMap (bookedOf verdict),
      (slotMatches slots hash).filterMap (classedOf verdict),
      (slotMatches slots hash).filterMap (rebookedOf verdict)⟩
    ((map.entries.map (entryBytes sharding (sharding.shardOf key))).sum +
      ((slots.filterMap (settledSlot hash verdict)).map
        (slotBytes sharding (sharding.shardOf key) noted)).sum)
    ((h.paged _).trans hlive) (by simp only [h.bytes]; omega) hrebooked
  generalize hdisplaced : (⟨(slotMatches slots hash).filterMap (bookedOf verdict),
      (slotMatches slots hash).filterMap (classedOf verdict),
      (slotMatches slots hash).filterMap (rebookedOf verdict)⟩ : Displaced) = displaced at hown
  have hshard : ∀ shard, (books.bookDisplaced (sharding.shardOf key) displaced).shards shard =
      { books.shards shard with
        paged := ((slots.filterMap (settledSlot hash verdict)).map (slotLive sharding shard noted)).sum
        bytes := (map.entries.map (entryBytes sharding shard)).sum +
          ((slots.filterMap (settledSlot hash verdict)).map (slotBytes sharding shard noted)).sum } := by
    intro shard
    by_cases hs : shard = sharding.shardOf key
    · rw [hs]
      exact hown
    · obtain ⟨hlive', hbytes'⟩ := settle_other hlooks fun he => hs he.symm
      rw [bookDisplaced_other books displaced hs, ← hlive', ← hbytes', ← h.paged, ← h.bytes]
  refine ⟨⟨fun shard => ?_, fun shard => by rw [hshard], ?_⟩, fun shard => by rw [hshard], ?_⟩
  · rw [hshard]
    exact h.graves shard
  · intro shard hheld
    rw [bookDisplaced_occupied]
    refine h.walked shard (hheld.imp_right fun hpos => ?_)
    rw [hshard] at hpos
    by_cases hs : shard = sharding.shardOf key
    · subst hs
      rw [h.paged, hlive]
      simp only at hpos
      omega
    · rw [h.paged, (settle_other hlooks fun he => hs he.symm).1]
      exact hpos
  · intro slot hslot row hrow
    obtain ⟨first, hfirst, rfl | rfl⟩ := mem_settled hslot
    · exact h.least slot hfirst hrow
    · exact h.least first hfirst hrow

theorem Tallied.noteEmptied (shard : Nat) :
    Tallied sharding map noted slots (books.noteEmptied shard (sharding.vacant map shard)) := by
  refine ⟨⟨fun other => ?_, fun other => ?_, h.walked.noteEmptied _⟩, fun other => ?_, h.least⟩
  · rw [shards_noteEmptied, h.graves]
  · rw [shards_noteEmptied, h.bytes]
  · rw [shards_noteEmptied, h.paged]

theorem Tallied.noteAll {α : Type} (shardOf : α → Nat)
    (l : List α) : Tallied sharding map noted slots
      (l.foldl (fun books x => books.noteEmptied (shardOf x) (sharding.vacant map (shardOf x))) books) := by
  induction l generalizing books with
  | nil => exact h
  | cons x l ih => exact ih (h.noteEmptied _)

/-- A key given up to its footer moves from the map's part to the slots'. -/
theorem Tallied.hand {entry : Entry} {row : Row}
    (hg : map.get row.key = some entry) (hgrave : entry.isGrave = false) (hlen : entry.loc.len = row.len)
    (hat : rowAt noted slot = some row) (hlive : slot.isDisplaced = false) (hleast : slot.least ≤ row.len) :
    Tallied sharding (map.take row.key) noted (slots ++ [slot])
      (books.modify (sharding.shardOf row.key) fun state => { state with paged := state.paged + 1 }) := by
  have hentry : ∀ shard, graveWeight sharding shard (row.key, entry) = 0 ∧
      entryBytes sharding shard (row.key, entry) = slotBytes sharding shard noted slot := by
    intro shard
    by_cases hs : sharding.shardOf row.key = shard <;>
      simp [graveWeight, entryBytes, slotBytes, shardRow, hat, hlive, hgrave, hlen, hs, Option.filter]
  have hslot : ∀ shard, slotLive sharding shard noted slot =
      if shard = sharding.shardOf row.key then 1 else 0 := by
    intro shard
    by_cases hs : shard = sharding.shardOf row.key
    · simp [slotLive, shardRow, hat, hlive, hs, Option.filter]
    · simp [slotLive, shardRow, hat, hlive, hs, Ne.symm hs, Option.filter]
  refine ⟨⟨fun shard => ?_, fun shard => ?_, ?_⟩, fun shard => ?_, ?_⟩
  · have hsum := sum_of_some hg (graveWeight sharding shard)
    rw [(hentry shard).1, Nat.zero_add, ← h.graves] at hsum
    simp only [Books.modify]
    split <;> exact hsum
  · have hsum := sum_of_some hg (entryBytes sharding shard)
    have hbytes := h.bytes shard
    rw [(hentry shard).2] at hsum
    simp only [Books.modify, map_append, map_cons, map_nil, sum_append,
      sum_cons, sum_nil]
    split
    · dsimp only
      omega
    · omega
  · intro shard hheld
    refine h.walked shard ?_
    by_cases hs : shard = sharding.shardOf row.key
    · exact Or.inl (vacant_eq_false.mpr ⟨row.key, entry, hg, hs.symm⟩)
    · refine hheld.imp (fun hkey => ?_) fun hpos => ?_
      · obtain ⟨key, held, hget, hk⟩ := vacant_eq_false.mp hkey
        rw [get_take] at hget
        split at hget
        · cases hget
        · exact vacant_eq_false.mpr ⟨key, held, hget, hk⟩
      · simpa [Books.modify, hs] using hpos
  · have hpaged := h.paged shard
    simp only [Books.modify, map_append, map_cons, map_nil, sum_append,
      sum_cons, sum_nil, hslot]
    split
    · dsimp only
      omega
    · omega
  · intro held hheld other hother
    rcases mem_append.mp hheld with hheld | hheld
    · exact h.least held hheld hother
    · rw [mem_singleton.mp hheld, hat] at hother
      rw [mem_singleton.mp hheld, ← Option.some.inj hother]
      exact hleast

end

theorem takeSlot_perm {slots : List Slot} (h : Distinct slots) {bits : UInt64}
    (hslot : slot ∈ slotMatches slots bits) : slots.Perm (slot :: takeSlot slots bits slot) := by
  obtain ⟨hin, hbits⟩ := mem_slotMatches.mp hslot
  have hself : names bits slot slot = true := (names_iff h hin hin).mpr ⟨rfl, hbits⟩
  obtain ⟨held, front, back, -, hheld, hsplit, htaken⟩ := exists_of_eraseP hin hself
  have hsame : held = slot :=
    ((names_iff h hin (by rw [hsplit]; simp)).mp hheld).1
  have htake : takeSlot slots bits slot = front ++ back := htaken
  rw [htake]
  rw [hsame] at hsplit
  rw [hsplit]
  exact perm_middle

theorem Tallied.take (h : Tallied sharding map noted slots books) {taken : List Slot} {row : Row}
    (hperm : slots.Perm (slot :: taken)) (hat : rowAt noted slot = some row)
    (hlive : slot.isDisplaced = false) :
    Tallied sharding map noted taken (books.settlePaged (sharding.shardOf row.key) row.len) := by
  have hslot : ∀ shard,
      slotLive sharding shard noted slot = (if shard = sharding.shardOf row.key then 1 else 0) ∧
      slotBytes sharding shard noted slot = if shard = sharding.shardOf row.key then row.len else 0 := by
    intro shard
    by_cases hs : shard = sharding.shardOf row.key
    · simp [slotLive, slotBytes, shardRow, hat, hlive, hs, Option.filter]
    · simp [slotLive, slotBytes, shardRow, hat, hlive, hs, Ne.symm hs, Option.filter]
  have hpaged : ∀ shard, (books.shards shard).paged =
      (if shard = sharding.shardOf row.key then 1 else 0) +
        (taken.map (slotLive sharding shard noted)).sum := by
    intro shard
    rw [h.paged, (hperm.map _).sum_eq, map_cons, sum_cons, (hslot shard).1]
  have hbytes : ∀ shard, (books.shards shard).bytes = (map.entries.map (entryBytes sharding shard)).sum +
      ((if shard = sharding.shardOf row.key then row.len else 0) +
        (taken.map (slotBytes sharding shard noted)).sum) := by
    intro shard
    rw [h.bytes, (hperm.map _).sum_eq, map_cons, sum_cons, (hslot shard).2]
  refine ⟨⟨fun shard => ?_, fun shard => ?_, ?_⟩, fun shard => ?_, ?_⟩
  · simp only [settlePaged, Books.modify]
    split <;> exact h.graves shard
  · have := hbytes shard
    simp only [settlePaged, Books.modify]
    split at this
    · rw [if_pos (by assumption)]
      dsimp only
      omega
    · rw [if_neg (by assumption)]
      omega
  · intro shard hheld
    refine h.walked shard (hheld.imp_right fun hpos => ?_)
    simp only [settlePaged, Books.modify] at hpos
    split at hpos
    · dsimp only at hpos
      omega
    · exact hpos
  · have := hpaged shard
    simp only [settlePaged, Books.modify]
    split at this
    · rw [if_pos (by assumption)]
      dsimp only
      omega
    · rw [if_neg (by assumption)]
      omega
  · intro held hheld
    exact h.least held (hperm.symm.subset (mem_cons_of_mem _ hheld))

theorem Tallied.release {index : ColumnIndex} (hash : Str → UInt64)
    (h : Tallied sharding index.map noted slots books) (hsited : Sited noted) (hdistinct : Distinct slots)
    (rows : List (Str × Loc))
    (hrows : ∀ x ∈ rows, ∃ id row, Holds noted id row ∧ x = (row.key, row.loc id)) :
    Tallied sharding index.map noted (rows.foldl (Volume.releaseCovered index hash) slots)
      (rows.foldl (Books.releaseCovered sharding index hash) (slots, books)).2 := by
  induction rows generalizing slots books with
  | nil => exact h
  | cons x rows ih =>
    obtain ⟨id, row, hrow, rfl⟩ := hrows x mem_cons_self
    have hrest := fun y hy => hrows y (mem_cons_of_mem _ hy)
    rw [foldl_cons, foldl_cons]
    by_cases hskip : (!index.width.accepts row.key || (index.map.get row.key).isSome) = true
    · simp only [Volume.releaseCovered, Books.releaseCovered, hskip, if_true]
      exact ih h hdistinct hrest
    · simp only [Volume.releaseCovered, Books.releaseCovered, hskip, Bool.false_eq_true, if_false]
      unfold takeLive
      cases hfind : (slotMatches slots (hash row.key)).find? fun slot =>
          slot.isAt (row.loc id) && !slot.isDisplaced with
      | none => exact ih h hdistinct hrest
      | some slot =>
        have htest := find?_some hfind
        simp only [Bool.and_eq_true, Bool.not_eq_true'] at htest
        have hat := rowAt_eq hsited (Slot.isAt_iff.mp htest.1) hrow
        have htaken := h.take (takeSlot_perm hdistinct (mem_of_find?_eq_some hfind)) hat htest.2
        exact ih (htaken.noteEmptied _) (hdistinct.takeSlot _ _) hrest

theorem Tallied.drop (h : Tallied sharding map noted slots books) {doomed : List (Str × Entry)}
    {kept : SortedMap Str Entry} (hperm : map.entries.Perm (doomed ++ kept.entries))
    (hdoomed : ∀ e ∈ doomed, e.2.isGrave = false) :
    Tallied sharding kept noted slots (doomed.foldl (fun books e =>
      books.modify (sharding.shardOf e.1) fun state =>
        { state with bytes := state.bytes - e.2.loc.len }) books) := by
  have hfold : ∀ (l : List (Str × Entry)) (state : ShardState),
      l.foldl (fun state e => { state with bytes := state.bytes - e.2.loc.len }) state =
        { state with bytes := state.bytes - (l.map fun e => e.2.loc.len).sum } := by
    intro l
    induction l with
    | nil => simp
    | cons e l ih =>
      intro state
      rw [foldl_cons, ih]
      simp only [ShardState.mk.injEq, map_cons, sum_cons, true_and]
      omega
  have hshard : ∀ shard, (doomed.foldl (fun books e =>
      books.modify (sharding.shardOf e.1) fun state =>
        { state with bytes := state.bytes - e.2.loc.len }) books).shards shard =
      { books.shards shard with
        bytes := (books.shards shard).bytes - (doomed.map (entryBytes sharding shard)).sum } := by
    intro shard
    rw [(foldl_modify (fun e : Str × Entry => sharding.shardOf e.1) _ doomed books shard).1, hfold]
    have hsum : ((doomed.filter fun e => shard = sharding.shardOf e.1).map fun e => e.2.loc.len).sum =
        (doomed.map (entryBytes sharding shard)).sum := by
      clear hperm
      induction doomed with
      | nil => rfl
      | cons e doomed ih =>
        have he := hdoomed e mem_cons_self
        have ih := ih fun x hx => hdoomed x (mem_cons_of_mem _ hx)
        by_cases hs : shard = sharding.shardOf e.1
        · simp [entryBytes, he, hs] at ih ⊢
          exact ih
        · simp [entryBytes, hs, Ne.symm hs, ih]
    rw [hsum]
  have hnograve : ∀ shard, (doomed.map (graveWeight sharding shard)).sum = 0 := by
    intro shard
    refine sum_eq_zero fun w hw => ?_
    obtain ⟨e, he, rfl⟩ := mem_map.mp hw
    simp [graveWeight, hdoomed e he]
  have hsplit : ∀ w : Str × Entry → Nat,
      (map.entries.map w).sum = (doomed.map w).sum + (kept.entries.map w).sum := by
    intro w
    rw [(hperm.map w).sum_eq, map_append, sum_append]
  refine ⟨⟨fun shard => ?_, fun shard => ?_, ?_⟩, fun shard => ?_, h.least⟩
  · rw [hshard, h.graves, hsplit, hnograve, Nat.zero_add]
  · rw [hshard]
    have := h.bytes shard
    rw [hsplit] at this
    dsimp only
    omega
  · intro shard hheld
    rw [(foldl_modify (fun e : Str × Entry => sharding.shardOf e.1) _ doomed books shard).2]
    refine h.walked shard (hheld.imp (fun hkey => ?_) fun hpos => ?_)
    · obtain ⟨key, held, hget, hk⟩ := vacant_eq_false.mp hkey
      refine vacant_eq_false.mpr ⟨key, held, mem_entries.mp (hperm.symm.subset ?_), hk⟩
      exact mem_append_right _ (mem_entries.mpr hget)
    · rwa [hshard] at hpos
  · rw [hshard]
    exact h.paged shard

end Tallied

namespace Volume
variable {hash : Str → UInt64} {strict : Bool} {v : Volume} {sharding : Sharding} {books : Books}

theorem Sound.sited_noted (h : v.Sound hash strict) : Sited v.noted :=
  h.laid.toSited.sublist (sublist_append_right _ _)

theorem Sound.rowAt_slot (h : v.Sound hash strict) {slot : Slot} (hslot : slot ∈ v.spot.slots) :
    ∃ id row, Points hash slot id row ∧ Holds v.noted id row ∧ row.kind = .data ∧
      rowAt v.noted slot = some row ∧
      (slot.isDisplaced = false → v.Newest id row ∧ v.index.map.get row.key = none) := by
  obtain ⟨id, row, hp, hrow, -, hdata, hlive⟩ := h.slots slot hslot
  exact ⟨id, row, hp, hrow, hdata, rowAt_eq h.sited_noted hp.place hrow, hlive⟩

variable {landed : Volume} {tail : Nat} {row : Row}

section
variable (h : v.Sound hash strict) (ha : Appends v tail row landed) (cache : Cache)
include h ha cache

theorem Sound.looks (hmarks : v.MarksOwn hash row.key v.next)
    (hleast : ∀ slot ∈ v.spot.slots, ∀ {other : Row}, rowAt v.noted slot = some other →
      slot.least ≤ other.len) : ∀ slot ∈ v.spot.slots, Looks v.noted row.key (hash row.key)
      (settleVerdict (recordsOf landed.segments cache) landed.maxLsnOf v.spot.slots (hash row.key)
        row.key v.next false) slot := by
  intro slot hslot
  obtain ⟨id, other, hp, hrow, hdata, hat, -⟩ := h.rowAt_slot hslot
  have hverdict := displace_verdict ha cache hp hrow hdata
  refine ⟨fun _ hgone => ?_, fun hbits hv => ?_, fun hbits hv hlive => ?_, hleast slot hslot⟩
  · rw [hverdict] at hgone
    split at hgone
    · cases hgone
    · split at hgone
      · cases hgone
      · split at hgone <;> cases hgone
  · rw [hverdict] at hv
    split at hv
    · cases hv
    · split at hv
      · cases hv
      · split at hv
        · rename_i hown
          cases hv
          exact ⟨other, hat, hown.1, rfl⟩
        · cases hv
  · rw [hverdict] at hv
    split at hv
    · cases hv
    · split at hv
      · rename_i hold
        simp only [Bool.and_eq_true, Bool.not_eq_true', decide_eq_false_iff_not, Nat.not_le] at hold
        obtain ⟨head, hhead⟩ := hmarks slot (mem_slotMatches.mpr ⟨hslot, hbits⟩) hold.1 hlive hold.2
        rw [slot_head h.laid.toSited hp (hrow.mono v.noted_subset)] at hhead
        exact ⟨other, hat, (headFor_same hhead).1⟩
      · split at hv <;> cases hv

theorem Sound.tallied_write {entry : Entry} {held : Books}
    (hmarks : v.index.map.get row.key = none → v.MarksOwn hash row.key v.next)
    (ht : Tallied sharding (v.index.map.put row.key entry) v.noted v.spot.slots held) :
    Tallied sharding (v.index.map.put row.key entry) landed.noted
      (if v.index.map.get row.key = none then
          landed.spot.displace (landed.sources hash cache) row.key v.next
        else landed.spot).slots
      (held.settleDisplaced sharding landed (landed.sources hash cache) row.key v.next
        (foundAt v.index row.key)) := by
  rw [ha.noted]
  simp only [Books.settleDisplaced, mayBePaged_foundAt]
  cases hg : v.index.map.get row.key with
  | some old => simpa [ha.spot] using ht
  | none =>
    simp only [Option.isNone_none, if_true]
    rw [displace_slots h ha cache, ha.spot]
    have hsettled := settleApply_displaced h.distinct (hash row.key)
      (settleVerdict (recordsOf landed.segments cache) landed.maxLsnOf v.spot.slots (hash row.key)
        row.key v.next false)
    have hbooks := ht.bookDisplaced (h.looks ha cache (hmarks hg) ht.least)
    rw [← hsettled] at hbooks
    exact hbooks

end

section
variable (h : v.Sound hash strict) (ht : v.Tallies sharding books)
include h ht

theorem Sound.tallied_put
    {offset len : Nat} {key : Str} {cache : Cache} (hacc : v.index.width.accepts key = true)
    (hmarks : v.index.map.get key = none → v.MarksOwn hash key v.next)
    (happ : v.append tail (fun lsn => ⟨key, lsn, offset, len, .data⟩) = some landed) :
    let v' := landed.insert (landed.sources hash cache) key ⟨tail, offset, len⟩ v.next
    v'.Tallies sharding
      (books.insert sharding landed (landed.sources hash cache) key ⟨tail, offset, len⟩ v.next) := by
  have ha := append_appends h.laid rfl happ
  have htail : tail ≠ 0 := by
    obtain ⟨segment, hs, hid, -⟩ := ha.rows.mpr (Or.inr ⟨rfl, rfl⟩)
    exact hid ▸ ha.laid.ids_pos segment hs
  have hmap : MapTally sharding (v.index.map.put key ⟨⟨tail, offset, len⟩, v.next⟩) _
      (books.insertHeld sharding v.index.map key len (foundAt v.index key)) :=
    ht.toMapTally.insertHeld key htail rfl
  have hheld := ht.remap hmap fun shard => paged_insertHeld _ _ _ _ _ _ shard
  have hwrite := h.tallied_write ha cache hmarks hheld
  simp only [h.insert_eq ha hacc, Books.insert, ha.index, h.not_shadowed ha, h.insertUnless_eq hacc]
  exact hwrite

theorem Sound.tallied_delete
    {offset : Nat} {key : Str} {cache : Cache}
    (hmarks : v.index.width.accepts key = true → v.index.map.get key = none →
      v.MarksOwn hash key v.next)
    (happ : v.append tail (fun lsn => ⟨key, lsn, offset, 0, .tombstone⟩) = some landed) :
    let v' := landed.remove (landed.sources hash cache) key v.next tail
    v'.Tallies sharding
      (books.remove sharding landed (landed.sources hash cache) key v.next tail) := by
  have ha := append_appends h.laid rfl happ
  by_cases hacc : v.index.width.accepts key = true
  · have hmap : MapTally sharding (v.index.map.put key (.graveFrom v.next tail)) _
        (books.removeHeld sharding v.index.map key (foundAt v.index key)) :=
      ht.toMapTally.removeHeld key v.next tail rfl
    have hheld := ht.remap hmap fun shard => paged_removeHeld _ _ _ _ _ shard
    have hwrite := h.tallied_write ha cache (hmarks hacc) hheld
    simp only [h.remove_eq ha hacc, Books.remove, ha.index, h.not_shadowed ha, h.removeUnless_eq hacc]
    exact hwrite
  · have hbooks : books.remove sharding landed (landed.sources hash cache) key v.next tail = books := by
      simp [Books.remove, ColumnIndex.removeUnless, ha.index, hacc, Books.removeHeld,
        Books.settleDisplaced, Landed.mayBePaged]
    simp only [remove_refused ha hacc, hbooks, ha.noted]
    exact ht

theorem Sound.tallied_page {id : Nat}
    (hrow : Holds v.noted id row)
    (hfresh : ∀ slot ∈ v.spot.slots, slot.place ≠ (id, row.offset)) :
    (v.paged hash [(row.key, row.loc id)]).Tallies sharding
      (if (v.index.pageOut row.key (row.loc id)).2 then
        books.modify (sharding.shardOf row.key) fun state => { state with paged := state.paged + 1 }
      else books) := by
  simp only [Tallies, paged, foldl_cons, foldl_nil, pageAsked, ColumnIndex.pageOut]
  by_cases hh : v.index.holds row.key (row.loc id) = true
  · simp only [hh, if_true, putIn_fresh (row.loc id) hfresh]
    simp only [ColumnIndex.holds, Bool.and_eq_true, Option.any_eq_true, decide_eq_true_eq,
      Bool.not_eq_true'] at hh
    obtain ⟨-, existing, hg, ⟨hloc, hgrave⟩, -⟩ := hh
    exact ht.hand hg hgrave (by rw [hloc]; rfl) (rowAt_eq h.sited_noted rfl hrow) rfl (least_new _ _)
  · simp only [hh, Bool.false_eq_true, if_false]
    exact ht

end

variable {segment : Segment}

section
variable (h : v.Sound hash strict) (ht : v.Tallies sharding books)
include h ht

theorem Sound.tallied_pageAll {rows : List Row}
    (hrows : v.Handing segment rows) :
    (v.paged hash (placed segment rows)).Tallies sharding
      (((placed segment rows).zip (pageOutLane (placed segment rows) v.index).2).foldl (fun books x =>
        if x.2 then
          books.modify (sharding.shardOf x.1.1) fun state => { state with paged := state.paged + 1 }
        else books) books) := by
  induction rows generalizing v books with
  | nil => exact ht
  | cons row rows ih =>
    obtain ⟨hin, hdata, hfree⟩ := hrows.head
    have hthen := ih (h.page hin hrows.unheld hdata hfree) (h.tallied_page ht hin hfree) hrows.tail
    have hindex : (pageAsked hash (v.index, v.spot.slots) (row.key, row.loc segment.id)).1 =
        (v.index.pageOut row.key (row.loc segment.id)).1 := by
      unfold pageAsked
      simp only
      split <;> rfl
    simp only [placed, map_cons, pageOutLane, zip_cons_cons, foldl_cons, ← hindex]
    exact hthen

theorem Sound.tallied_lane {rows : List Row}
    (hrows : v.Handing segment rows) :
    (v.paged hash (placed segment rows)).Tallies sharding
      (books.pageOutLane sharding (placed segment rows) v.index) := by
  have hall := h.tallied_pageAll ht hrows
  have hindex := (lane_eq hrows.fresh hash v.index).1
  simp only [Books.pageOutLane, hindex]
  exact hall.noteAll (fun row : Str × Loc => sharding.shardOf row.1) _

theorem Sound.tallied_pageOutPartition
    (hs : segment ∈ v.noted) (hid : segment.id ∉ v.held)
    (hnone : ∀ slot ∈ v.spot.slots, slot.segment ≠ segment.id) :
    (v.pageOutPartition hash segment).Tallies sharding (books.pageOutPartition sharding v segment) := by
  obtain ⟨-, -, hrows, hfresh⟩ := h.handOver_rows hs hid hnone
  have happend : ∀ a b, placed segment (a ++ b) = placed segment a ++ placed segment b :=
    fun a b => map_append
  rw [pageOutPartition_eq hash hfresh]
  have hbooks : books.pageOutPartition sharding v segment =
      (books.pageOutLane sharding (placed segment (v.askedRows segment)) v.index).pageOutLane sharding
        (placed segment (v.laneRows segment))
        (pageOutLane (placed segment (v.askedRows segment)) v.index).1 := by
    simp only [Books.pageOutPartition, askedRows, laneRows]
    split
    · simp only [happend]
      rfl
    · rfl
  rw [happend] at hfresh ⊢
  have hasked : v.Handing segment (v.askedRows segment) :=
    ⟨hs, hid, fun row hrow => hrows row (mem_append_left _ hrow),
      (nodup_append.mp (map_append ▸ hfresh.nodup)).1,
      fun row hrow => hfresh.free row (mem_append_left _ hrow)⟩
  have hthen := (h.pageAll hasked).tallied_lane (h.tallied_lane ht hasked)
    ⟨hs, hid, fun row hrow => hrows row (mem_append_right _ hrow), hfresh.foldl hash v.index⟩
  rw [hbooks, (lane_eq hasked.fresh hash v.index).1]
  simp only [paged, foldl_append]
  exact hthen

theorem Sound.tallied_handOver :
    (v.handOver hash).Tallies sharding (books.handOver sharding v) := by
  unfold Volume.handOver Books.handOver
  rcases h.handOver_next with hnone | ⟨held, segment, hheld, hfind, hv, hid, hfree⟩
  · simpa only [hnone] using ht
  · simp only [hheld, hfind]
    exact hv.tallied_pageOutPartition ht (mem_of_find?_eq_some hfind) hid hfree

theorem Sound.tallied_releaseRun (cover : Covered Str) (resume : Str)
    (limit : Nat) :
    (v.releaseRun hash cover resume limit).1.Tallies sharding
      (books.releaseRun sharding v hash cover resume limit) := by
  unfold Volume.releaseRun Books.releaseRun
  split
  · exact ht
  · refine ht.release hash h.sited_noted h.distinct (releaseFound v cover resume limit) ?_
    intro x hx
    obtain ⟨key, -, hx⟩ := mem_flatMap.mp hx
    obtain ⟨id, row, hrow, -, -, -, rfl⟩ := mem_coveredRows hx
    exact ⟨id, row, hrow, rfl⟩

end

variable (index : ColumnIndex) (lsn budget : Nat)

theorem sweepDoomed_sublist :
    (sweepDoomed index lsn budget).Sublist index.map.entries := by
  unfold sweepDoomed
  split
  · split
    · exact filter_sublist.trans ((take_sublist _ _).trans filter_sublist)
    · exact nil_sublist _
  · exact nil_sublist _

theorem sweepRun_map :
    (index.sweepRun lsn budget).1.map.entries =
      index.map.entries.filter fun e => !(sweepDoomed index lsn budget).any (·.1 == e.1) := by
  unfold sweepDoomed ColumnIndex.sweepRun
  cases index.covers.find? (·.lsn == lsn) with
  | none => simp
  | some cover =>
    cases hphase : cover.phase with
    | release resume | done => simp [hphase]
    | sweep resume =>
      simp only [hphase]
      cases ((index.spanFrom resume cover.high).drop budget).head? <;> rfl

theorem sweepRun_perm :
    index.map.entries.Perm
      (sweepDoomed index lsn budget ++ (index.sweepRun lsn budget).1.map.entries) := by
  have hsub := sweepDoomed_sublist index lsn budget
  rw [sweepRun_map]
  refine (perm_ext_iff_of_nodup index.map.nodup_entries (nodup_append.mpr
    ⟨index.map.nodup_entries.sublist hsub, index.map.nodup_entries.filter _, ?_⟩)).mpr ?_
  · rintro a ha b hb rfl
    have := (mem_filter.mp hb).2
    simp only [Bool.not_eq_true', any_eq_false, beq_iff_eq] at this
    exact this a ha rfl
  · rintro ⟨key, entry⟩
    rw [mem_append, mem_filter]
    constructor
    · intro hin
      by_cases hany : (sweepDoomed index lsn budget).any (·.1 == key) = true
      · obtain ⟨⟨other, held⟩, hd, hk⟩ := any_eq_true.mp hany
        simp only [beq_iff_eq] at hk
        subst hk
        have hheld := mem_entries.mp (hsub.subset hd)
        rw [mem_entries.mp hin] at hheld
        cases hheld
        exact Or.inl hd
      · exact Or.inr ⟨hin, by rw [Bool.eq_false_of_not_eq_true hany]; rfl⟩
    · rintro (hd | hin)
      · exact hsub.subset hd
      · exact hin.1

theorem sweepDoomed_records :
    ∀ e ∈ sweepDoomed index lsn budget, e.2.isGrave = false := by
  intro e he
  unfold sweepDoomed at he
  split at he
  · split at he
    · simp only [mem_filter, Bool.and_eq_true, Bool.not_eq_true'] at he
      exact he.2.2
    · cases he
  · cases he

theorem tallied_sweepRun (ht : v.Tallies sharding books) (lsn budget : Nat) :
    Tallied sharding (v.index.sweepRun lsn budget).1.map v.noted v.spot.slots
      (books.sweepRun sharding v.index lsn budget) :=
  (ht.drop (sweepRun_perm _ _ _) (sweepDoomed_records _ _ _)).noteAll
    (fun e : Str × Entry => sharding.shardOf e.1) _

theorem nextPendingCover_mem {index : ColumnIndex} {cover : Covered Str}
    (h : index.nextPendingCover = some cover) : cover ∈ index.covers ∧ cover.phase ≠ .done := by
  have hin := mem_filter.mp (argmin_mem h)
  exact ⟨hin.1, by simpa using hin.2⟩

theorem Sound.tallied_sweepLoop (h : v.Sound hash strict)
    (ht : v.Tallies sharding books) (fuel remaining : Nat) :
    (Volume.sweepLoop hash fuel remaining v).Tallies sharding
      (Books.sweepLoop sharding hash fuel remaining v books) := by
  induction fuel generalizing v books remaining with
  | zero => exact ht
  | succ fuel ih =>
    unfold Volume.sweepLoop Books.sweepLoop
    by_cases hrem : remaining = 0
    · simpa only [hrem, if_true] using ht
    · simp only [hrem, if_false]
      cases hnext : v.index.nextPendingCover with
      | none => exact ht
      | some cover =>
        obtain ⟨hc, hdone⟩ := nextPendingCover_mem hnext
        cases hphase : cover.phase with
        | release resume =>
          simp only [hphase]
          exact ih (h.releaseRun hc hphase remaining) (h.tallied_releaseRun ht cover resume remaining) _
        | sweep resume =>
          simp only [hphase]
          split
          · exact ih (h.sweepRun cover.lsn remaining) (tallied_sweepRun ht cover.lsn remaining) _
          · exact tallied_sweepRun ht cover.lsn remaining
        | done => exact absurd hphase hdone

theorem Sound.rowAt_append (h : v.Sound hash strict) (later : List Segment) {slot : Slot}
    (hslot : slot ∈ v.spot.slots) : rowAt (v.noted ++ later) slot = rowAt v.noted slot := by
  obtain ⟨id, row, hp, ⟨segment, hs, rfl, -⟩, -⟩ := h.rowAt_slot hslot
  rw [rowAt, rowAt, (Prod.mk.inj hp.place).1, find?_append, h.sited_noted.find hs, Option.some_or]

theorem Sound.tallied_holdSealed (h : v.Sound hash strict)
    (ht : v.Tallies sharding books) :
    v.holdSealed.Tallies sharding books := by
  have hrow : ∀ slot ∈ v.spot.slots, rowAt v.holdSealed.noted slot = rowAt v.noted slot :=
    fun slot hslot => h.rowAt_append _ hslot
  have hbytes : ∀ shard, v.spot.slots.map (slotBytes sharding shard v.noted) =
      v.spot.slots.map (slotBytes sharding shard v.holdSealed.noted) := fun shard =>
    map_congr_left fun slot hslot => by simp only [slotBytes, shardRow, hrow slot hslot]
  have hlive : ∀ shard, v.spot.slots.map (slotLive sharding shard v.noted) =
      v.spot.slots.map (slotLive sharding shard v.holdSealed.noted) := fun shard =>
    map_congr_left fun slot hslot => by simp only [slotLive, shardRow, hrow slot hslot]
  refine ⟨⟨ht.graves, fun shard => ?_, ht.walked⟩, fun shard => ?_, ?_⟩
  · rw [ht.bytes, hbytes]
    rfl
  · rw [ht.paged, hlive]
    rfl
  · intro slot hslot row hat
    rw [hrow slot hslot] at hat
    exact ht.least slot hslot hat

theorem tallied_start (sharding : Sharding) (width : KeyWidth) (next : Nat) :
    (start width next).Tallies sharding Books.start := by
  refine ⟨⟨fun _ => rfl, fun _ => rfl, fun shard hheld => ?_⟩, fun _ => rfl, fun _ hslot => by cases hslot⟩
  rcases hheld with hkey | hpos
  · cases hkey
  · cases hpos

theorem Sound.tallied_step (h : v.Sound hash true)
    (ht : v.Tallies sharding books) {action : BookStep} {v' : Volume}
    (hsafe : v.StepSafe hash true action.action) (hstep : v.step hash action.action = some v') :
    v'.Tallies sharding (books.step sharding hash v action) := by
  cases action with
  | openTail id =>
    simp only [BookStep.action, Volume.step] at hstep
    split at hstep
    · cases hstep
    · cases hstep
      exact ht
  | put tail key offset len cache =>
    obtain ⟨landed, happ, rfl⟩ := Option.map_eq_some_iff.mp hstep
    simp only [Books.step, happ]
    exact h.tallied_put ht hsafe.1 (hsafe.2 rfl) happ
  | delete tail key offset cache =>
    obtain ⟨landed, happ, rfl⟩ := Option.map_eq_some_iff.mp hstep
    simp only [Books.step, happ]
    exact h.tallied_delete ht (hsafe rfl) happ
  | deleteRange tail start fin offset =>
    simp only [BookStep.action, Volume.step] at hstep
    split at hstep
    · cases hstep
      exact ht
    · obtain ⟨landed, happ, rfl⟩ := Option.map_eq_some_iff.mp hstep
      have ha := append_appends h.laid rfl happ
      simp only [ColumnIndex.removeRange, ha.index, ha.noted, ha.spot]
      exact ht
  | foreign tail | sealTail tail =>
    cases hstep
    exact ht
  | holdSealed =>
    cases hstep
    exact h.tallied_holdSealed ht
  | handOver =>
    cases hstep
    exact h.tallied_handOver ht
  | sweepCovers budget =>
    cases hstep
    exact h.tallied_sweepLoop ht budget budget

end Volume

end Reel
