import Reel.Index.Counters
import Reel.Index.SealedReads

/-!
What the books say is what the index holds: the graves of the map, the live slots of the spot index,
and the payload bytes of both. A slot marked displaced leaves the part of its length that its class did
not book.
-/

set_option autoImplicit false

namespace Reel
open Bytes StableSort List

def bookedOf (verdict : Slot → Verdict) (slot : Slot) : Option Loc :=
  match verdict slot with
  | .older len => if slot.isDisplaced then none else some ⟨slot.segment, slot.offset, len⟩
  | _ => none

def rebookedOf (verdict : Slot → Verdict) (slot : Slot) : Option (Loc × Nat) :=
  match verdict slot with
  | .older len => if slot.isDisplaced then some (⟨slot.segment, slot.offset, len⟩, slot.least) else none
  | _ => none

def classedOf (verdict : Slot → Verdict) (slot : Slot) : Option (Loc × Nat) :=
  match verdict slot with
  | .unread =>
    if slot.isDisplaced then none else some (⟨slot.segment, slot.offset, slot.middle⟩, slot.least)
  | _ => none

theorem map_filterMap_sublist {α β γ : Type} {f : α → Option β} {g : β → γ} {k : α → γ}
    (h : ∀ a b, f a = some b → g b = k a) (l : List α) :
    ((l.filterMap f).map g).Sublist (l.map k) := by
  induction l with
  | nil => exact List.Sublist.refl _
  | cons a l ih =>
    cases hf : f a with
    | none => simpa [filterMap_cons, hf] using ih.cons (k a)
    | some b => simpa [filterMap_cons, hf, h a b hf] using ih.cons_cons (k a)

variable {hash : UInt64}

theorem findSlot_self {slots : List Slot} (h : Distinct slots) {slot : Slot}
    (hin : slot ∈ slots) (hbits : slot.holds hash = true) : findSlot slots hash slot = some slot := by
  have hself : slot.samePlace slot = true := Slot.samePlace_iff.mpr ⟨rfl, rfl⟩
  cases hf : findSlot slots hash slot with
  | none =>
    exact absurd hself (find?_eq_none.mp hf slot (mem_slotMatches.mpr ⟨hin, hbits⟩))
  | some held =>
    have hheld := mem_slotMatches.mp (mem_of_find?_eq_some hf)
    have hplace := (Slot.samePlace_iff.mp
      (find?_some (p := fun other : Slot => other.samePlace slot) hf)).1
    rw [h.eq hheld.1 hin hplace]

theorem foldl_takeOlder_snd (older : List (Slot × Nat)) {state : List Slot × Displaced}
    (h : Distinct state.1) (hnodup : (older.map fun x => x.1.place).Nodup)
    (hin : ∀ x ∈ older, x.1 ∈ state.1 ∧ x.1.holds hash = true) :
    (older.foldl (fun state x => takeOlder hash state x.1 x.2) state).2 =
      { state.2 with
        booked := state.2.booked ++ (older.filter fun x => !x.1.isDisplaced).map fun x =>
          ⟨x.1.segment, x.1.offset, x.2⟩
        rebooked := state.2.rebooked ++ (older.filter fun x => x.1.isDisplaced).map fun x =>
          (⟨x.1.segment, x.1.offset, x.2⟩, x.1.least) } := by
  induction older generalizing state with
  | nil => simp
  | cons x older ih =>
    obtain ⟨hx, hbits⟩ := hin x mem_cons_self
    rw [map_cons, nodup_cons] at hnodup
    have hfst : (takeOlder hash state x.1 x.2).1 = takeSlot state.1 hash x.1 := takeOlder_fst _ _ _ _
    have hrest : ∀ y ∈ older, y.1 ∈ (takeOlder hash state x.1 x.2).1 ∧ y.1.holds hash = true := by
      intro y hy
      obtain ⟨hyin, hybits⟩ := hin y (mem_cons_of_mem _ hy)
      refine ⟨?_, hybits⟩
      rw [hfst, mem_takeSlot h]
      refine ⟨hyin, ?_⟩
      rw [← Bool.not_eq_true, names_iff h hx hyin]
      rintro ⟨he, -⟩
      exact hnodup.1 (mem_map.mpr ⟨y, hy, by rw [he]⟩)
    rw [foldl_cons, ih (by rw [hfst]; exact h.takeSlot _ _) hnodup.2 hrest]
    simp only [takeOlder, findSlot_self h hx hbits]
    cases hd : x.1.isDisplaced <;> simp [hd]

theorem foldl_markUnread_snd (unread : List Slot) {state : List Slot × Displaced}
    (h : Distinct state.1) (hnodup : (unread.map Slot.place).Nodup)
    (hin : ∀ slot ∈ unread, slot ∈ state.1 ∧ slot.holds hash = true) :
    (unread.foldl (markUnread hash) state).2 =
      { state.2 with
        classed := state.2.classed ++ (unread.filter fun slot => !slot.isDisplaced).map fun slot =>
          (⟨slot.segment, slot.offset, slot.middle⟩, slot.least) } := by
  induction unread generalizing state with
  | nil => simp
  | cons slot unread ih =>
    obtain ⟨hslot, hbits⟩ := hin slot mem_cons_self
    rw [map_cons, nodup_cons] at hnodup
    have hfst := markUnread_fst h hash slot
    have hrest : ∀ other ∈ unread, other ∈ (markUnread hash state slot).1 ∧ other.holds hash = true := by
      intro other hother
      obtain ⟨hoin, hobits⟩ := hin other (mem_cons_of_mem _ hother)
      refine ⟨?_, hobits⟩
      rw [hfst, markDisplaced_eq]
      refine mem_map.mpr ⟨other, hoin, ?_⟩
      rw [if_neg]
      rw [names_iff h hslot hoin]
      rintro ⟨he, -⟩
      exact hnodup.1 (mem_map.mpr ⟨other, hother, by rw [he]⟩)
    rw [foldl_cons, ih (by rw [hfst]; exact h.markDisplaced hash slot) hnodup.2 hrest]
    simp only [markUnread, findSlot_self h hslot hbits]
    cases hd : slot.isDisplaced <;> simp [hd]

/-- A settle books each slot it looked at by its own verdict. -/
theorem settleApply_displaced {slots : List Slot} (h : Distinct slots) (hash : UInt64)
    (verdict : Slot → Verdict) :
    (settleApply slots hash ((slotMatches slots hash).map fun slot => (slot, verdict slot))).2 =
      ⟨(slotMatches slots hash).filterMap (bookedOf verdict),
        (slotMatches slots hash).filterMap (classedOf verdict),
        (slotMatches slots hash).filterMap (rebookedOf verdict)⟩ := by
  have hplaces : ((slotMatches slots hash).map Slot.place).Nodup := h.filter _
  simp only [settleApply, filterMap_map, Function.comp_def]
  generalize hgone : (slotMatches slots hash).filterMap
    (fun slot => if verdict slot = .gone then some slot else none) = gone
  generalize holder : (slotMatches slots hash).filterMap
    (fun slot => match verdict slot with | .older len => some (slot, len) | _ => none) = older
  generalize hunread : (slotMatches slots hash).filterMap
    (fun slot => if verdict slot = .unread then some slot else none) = unread
  have hgone_mem : ∀ slot ∈ gone, slot ∈ slots ∧ verdict slot = .gone := by
    intro slot hslot
    rw [← hgone, mem_filterMap] at hslot
    obtain ⟨held, hheld, he⟩ := hslot
    split at he
    · cases he
      exact ⟨(mem_slotMatches.mp hheld).1, by assumption⟩
    · cases he
  have holder_mem : ∀ x ∈ older, x.1 ∈ slotMatches slots hash ∧ verdict x.1 = .older x.2 := by
    intro x hx
    rw [← holder, mem_filterMap] at hx
    obtain ⟨held, hheld, he⟩ := hx
    split at he
    · cases he
      exact ⟨hheld, by assumption⟩
    · cases he
  have hunread_mem : ∀ slot ∈ unread, slot ∈ slotMatches slots hash ∧ verdict slot = .unread := by
    intro slot hslot
    rw [← hunread, mem_filterMap] at hslot
    obtain ⟨held, hheld, he⟩ := hslot
    split at he
    · cases he
      exact ⟨hheld, by assumption⟩
    · cases he
  -- a slot under one verdict is not named by another's list
  have hstays : ∀ (lost : List Slot) (slot : Slot), slot ∈ slots → (∀ held ∈ lost, held ∈ slots ∧ held ≠ slot) →
      (!lost.any fun held => names hash held slot) = true := by
    intro lost slot hslot hlost
    rw [Bool.not_eq_true', any_eq_false]
    intro held hheld hn
    obtain ⟨hin, hne⟩ := hlost held hheld
    exact hne ((names_iff h hin hslot).mp hn).1.symm
  have hfirst : gone.foldl (fun slots slot => takeSlot slots hash slot) slots =
      slots.filter fun held => !gone.any fun slot => names hash slot held := foldl_takeSlot h hash gone
  generalize gone.foldl (fun slots slot => takeSlot slots hash slot) slots = taken at hfirst ⊢
  have hdistinct : Distinct taken := by
    rw [hfirst]
    exact h.filter _
  have holder_in : ∀ x ∈ older, x.1 ∈ taken ∧ x.1.holds hash = true := by
    intro x hx
    obtain ⟨hm, hv⟩ := holder_mem x hx
    obtain ⟨hin, hbits⟩ := mem_slotMatches.mp hm
    refine ⟨?_, hbits⟩
    rw [hfirst, mem_filter]
    refine ⟨hin, hstays gone x.1 hin fun held hheld => ?_⟩
    obtain ⟨hheldin, hgone⟩ := hgone_mem held hheld
    exact ⟨hheldin, fun he => by rw [he, hv] at hgone; cases hgone⟩
  have holder_places : (older.map fun x => x.1.place).Nodup := by
    rw [← holder]
    refine hplaces.sublist (map_filterMap_sublist (fun slot x hx => ?_) _)
    split at hx
    · cases hx
      rfl
    · cases hx
  have hunread_places : (unread.map Slot.place).Nodup := by
    rw [← hunread]
    refine hplaces.sublist (map_filterMap_sublist (fun slot x hx => ?_) _)
    split at hx
    · cases hx
      rfl
    · cases hx
  have hsecond := foldl_takeOlder hash older (taken, ⟨[], [], []⟩)
  rw [foldl_takeSlot hdistinct] at hsecond
  have hunread_in : ∀ slot ∈ unread,
      slot ∈ (older.foldl (fun state x => takeOlder hash state x.1 x.2) (taken, ⟨[], [], []⟩)).1 ∧
      slot.holds hash = true := by
    intro slot hslot
    obtain ⟨hm, hv⟩ := hunread_mem slot hslot
    obtain ⟨hin, hbits⟩ := mem_slotMatches.mp hm
    refine ⟨?_, hbits⟩
    rw [hsecond, mem_filter, hfirst, mem_filter]
    refine ⟨⟨hin, hstays gone slot hin fun held hheld => ?_⟩, hstays _ slot hin fun held hheld => ?_⟩
    · obtain ⟨hheldin, hgone⟩ := hgone_mem held hheld
      exact ⟨hheldin, fun he => by rw [he, hv] at hgone; cases hgone⟩
    · obtain ⟨x, hx, rfl⟩ := mem_map.mp hheld
      obtain ⟨hxm, hxv⟩ := holder_mem x hx
      exact ⟨(mem_slotMatches.mp hxm).1, fun he => by rw [he, hv] at hxv; cases hxv⟩
  rw [foldl_markUnread_snd unread (by rw [hsecond]; exact hdistinct.filter _) hunread_places hunread_in,
    foldl_takeOlder_snd older hdistinct holder_places holder_in]
  simp only [nil_append, Displaced.mk.injEq]
  refine ⟨?_, ?_, ?_⟩
  · rw [← holder, filter_filterMap, map_filterMap]
    refine filterMap_congr fun slot _ => ?_
    cases hv : verdict slot <;> cases hd : slot.isDisplaced <;> simp [bookedOf, hv, hd, Option.filter]
  · rw [← hunread, filter_filterMap, map_filterMap]
    refine filterMap_congr fun slot _ => ?_
    cases hv : verdict slot <;> cases hd : slot.isDisplaced <;> simp [classedOf, hv, hd, Option.filter]
  · rw [← holder, filter_filterMap, map_filterMap]
    refine filterMap_congr fun slot _ => ?_
    cases hv : verdict slot <;> cases hd : slot.isDisplaced <;> simp [rebookedOf, hv, hd, Option.filter]

def rowAt (segments : List Segment) (slot : Slot) : Option Row :=
  (segments.find? (·.id == slot.segment)).bind fun segment =>
    segment.rows.find? (·.offset == slot.offset)

theorem rowAt_eq {segments : List Segment} (h : Sited segments) {slot : Slot} {id : Nat} {row : Row}
    (hplace : slot.place = (id, row.offset)) (hrow : Holds segments id row) :
    rowAt segments slot = some row := by
  obtain ⟨hseg, hoff⟩ := Prod.mk.inj hplace
  obtain ⟨segment, hs, rfl, hr⟩ := hrow
  rw [rowAt, hseg, h.find hs, Option.bind_some, hoff]
  cases hf : segment.rows.find? (·.offset == row.offset) with
  | none => exact absurd (beq_self_eq_true _) (find?_eq_none.mp hf row hr)
  | some found =>
    have hsame : found.offset = row.offset := by simpa using find?_some hf
    rw [h.row_eq ⟨segment, hs, rfl, mem_of_find?_eq_some hf⟩ ⟨segment, hs, rfl, hr⟩ hsame]

theorem least_new (bits : UInt64) (loc : Loc) : (Slot.new bits loc).least ≤ loc.len := by
  have hclass : (Slot.new bits loc).lenClass = classOf loc.len := rfl
  rw [Slot.least, hclass]
  by_cases hzero : classOf loc.len = 0
  · rw [if_pos hzero]
    exact Nat.zero_le _
  · have hbelow : ¬ loc.len ≤ boundOf (classOf loc.len - 1) := by
      unfold classOf at hzero ⊢
      cases hf : (range classes).find? fun lenClass => decide (loc.len ≤ boundOf lenClass) with
      | none => simpa using find?_eq_none.mp hf (classes - 1) (by simp [classes])
      | some found =>
        rw [hf, Option.getD_some] at hzero
        obtain ⟨-, -, hfirst⟩ := find?_range_eq_some.mp hf
        simpa using hfirst (found - 1) (by omega)
    rw [if_neg hzero]
    omega

section Weights
variable (sharding : Sharding) (shard : Nat)

def graveWeight (e : Str × Entry) : Nat :=
  if sharding.shardOf e.1 = shard ∧ e.2.isGrave = true then 1 else 0

def entryBytes (e : Str × Entry) : Nat :=
  if sharding.shardOf e.1 = shard ∧ e.2.isGrave = false then e.2.loc.len else 0

def shardRow (segments : List Segment) (slot : Slot) : Option Row :=
  (rowAt segments slot).filter fun row => sharding.shardOf row.key = shard

def slotLive (segments : List Segment) (slot : Slot) : Nat :=
  if slot.isDisplaced then 0 else (shardRow sharding shard segments slot).elim 0 fun _ => 1

def slotBytes (segments : List Segment) (slot : Slot) : Nat :=
  (shardRow sharding shard segments slot).elim 0 fun row =>
    if slot.isDisplaced then row.len - slot.least else row.len

end Weights

theorem sum_filterMap {α β : Type} (f : α → Option β) (w : β → Nat) (l : List α) :
    ((l.filterMap f).map w).sum = (l.map fun a => (f a).elim 0 w).sum := by
  induction l with
  | nil => rfl
  | cons a l ih => cases hf : f a <;> simp [hf, ih]

theorem sum_matching {β : Type} (slots : List Slot) (hash : UInt64) (f : Slot → Option β) (w : β → Nat) :
    (((slotMatches slots hash).filterMap f).map w).sum =
      (slots.map fun slot => if slot.holds hash then (f slot).elim 0 w else 0).sum := by
  induction slots with
  | nil => rfl
  | cons slot slots ih =>
    rw [slotMatches] at ih ⊢
    cases hb : slot.holds hash
    · rw [filter_cons_of_neg (by simp [hb])]
      simp [hb, ih]
    · rw [filter_cons_of_pos (by simpa using hb)]
      cases hf : f slot <;> simp [hf, hb, ih]

/-- What a settle's look knows of the slots it moves: their records are the key's. -/
structure Looks (segments : List Segment) (key : Str) (hash : UInt64) (verdict : Slot → Verdict)
    (slot : Slot) : Prop where
  kept : slot.holds hash = true → verdict slot ≠ .gone
  older : ∀ {len : Nat}, slot.holds hash = true → verdict slot = .older len →
    ∃ row, rowAt segments slot = some row ∧ row.key = key ∧ row.len = len
  unread : slot.holds hash = true → verdict slot = .unread → slot.isDisplaced = false →
    ∃ row, rowAt segments slot = some row ∧ row.key = key
  least : ∀ {row : Row}, rowAt segments slot = some row → slot.least ≤ row.len

section Settles
variable {segments : List Segment} {key : Str} {hash : UInt64} {verdict : Slot → Verdict}

@[simp] theorem rowAt_displaced (segments : List Segment) (slot : Slot) :
    rowAt segments slot.displaced = rowAt segments slot := rfl

@[simp] theorem least_displaced (slot : Slot) : slot.displaced.least = slot.least := rfl

theorem Looks.own {slot : Slot} (h : Looks segments key hash verdict slot) (sharding : Sharding) :
    slotLive sharding (sharding.shardOf key) segments slot =
      ((settledSlot hash verdict slot).elim 0 (slotLive sharding (sharding.shardOf key) segments)) +
        (if slot.holds hash then (bookedOf verdict slot).elim 0 (fun _ => 1) else 0) +
        (if slot.holds hash then (classedOf verdict slot).elim 0 (fun _ => 1) else 0) ∧
    slotBytes sharding (sharding.shardOf key) segments slot +
        (if slot.holds hash then (rebookedOf verdict slot).elim 0 Prod.snd else 0) =
      ((settledSlot hash verdict slot).elim 0 (slotBytes sharding (sharding.shardOf key) segments)) +
        (if slot.holds hash then (bookedOf verdict slot).elim 0 Loc.len else 0) +
        (if slot.holds hash then (classedOf verdict slot).elim 0 Prod.snd else 0) +
        (if slot.holds hash then (rebookedOf verdict slot).elim 0 (fun x => x.1.len) else 0) := by
  cases hbits : slot.holds hash with
  | false => simp [settledSlot, hbits]
  | true =>
    cases hv : verdict slot with
    | gone => exact absurd hv (h.kept hbits)
    | skip => simp [settledSlot, hbits, hv, bookedOf, classedOf, rebookedOf]
    | older len =>
      obtain ⟨row, hrow, rfl, rfl⟩ := h.older hbits hv
      have hleast := h.least hrow
      cases hd : slot.isDisplaced <;>
        simp [settledSlot, hbits, hv, hd, bookedOf, classedOf, rebookedOf, slotLive, slotBytes, shardRow,
          hrow, Option.filter]
      omega
    | unread =>
      cases hd : slot.isDisplaced with
      | true =>
        simp [settledSlot, hbits, hv, hd, bookedOf, classedOf, rebookedOf,
          Slot.displaced_of_isDisplaced hd]
      | false =>
        obtain ⟨row, hrow, rfl⟩ := h.unread hbits hv hd
        have hleast := h.least hrow
        simp [settledSlot, hbits, hv, hd, bookedOf, classedOf, rebookedOf, slotLive, slotBytes, shardRow,
          hrow, Option.filter]
        omega

theorem Looks.other {slot : Slot} (h : Looks segments key hash verdict slot) {sharding : Sharding}
    {shard : Nat} (hne : sharding.shardOf key ≠ shard) :
    slotLive sharding shard segments slot =
      ((settledSlot hash verdict slot).elim 0 (slotLive sharding shard segments)) ∧
    slotBytes sharding shard segments slot =
      ((settledSlot hash verdict slot).elim 0 (slotBytes sharding shard segments)) := by
  cases hbits : slot.holds hash with
  | false => simp [settledSlot, hbits]
  | true =>
    cases hv : verdict slot with
    | gone => exact absurd hv (h.kept hbits)
    | skip => simp [settledSlot, hbits, hv]
    | older len =>
      obtain ⟨row, hrow, rfl, -⟩ := h.older hbits hv
      simp [settledSlot, hbits, hv, slotLive, slotBytes, shardRow, hrow, Option.filter, hne]
    | unread =>
      cases hd : slot.isDisplaced with
      | true => simp [settledSlot, hbits, hv, Slot.displaced_of_isDisplaced hd]
      | false =>
        obtain ⟨row, hrow, rfl⟩ := h.unread hbits hv hd
        simp [settledSlot, hbits, hv, slotLive, slotBytes, shardRow, hrow, Option.filter, hne]

section
variable {slots : List Slot} (hlooks : ∀ slot ∈ slots, Looks segments key hash verdict slot)
include hlooks

theorem settle_own (sharding : Sharding) :
    (slots.map (slotLive sharding (sharding.shardOf key) segments)).sum =
      ((slots.filterMap (settledSlot hash verdict)).map
        (slotLive sharding (sharding.shardOf key) segments)).sum +
        ((slotMatches slots hash).filterMap (bookedOf verdict)).length +
        ((slotMatches slots hash).filterMap (classedOf verdict)).length ∧
    (slots.map (slotBytes sharding (sharding.shardOf key) segments)).sum +
        (((slotMatches slots hash).filterMap (rebookedOf verdict)).map Prod.snd).sum =
      ((slots.filterMap (settledSlot hash verdict)).map
        (slotBytes sharding (sharding.shardOf key) segments)).sum +
        (((slotMatches slots hash).filterMap (bookedOf verdict)).map Loc.len).sum +
        (((slotMatches slots hash).filterMap (classedOf verdict)).map Prod.snd).sum +
        (((slotMatches slots hash).filterMap (rebookedOf verdict)).map fun x => x.1.len).sum := by
  have hlength : ∀ {β : Type} (l : List β), l.length = (l.map fun _ => 1).sum := by simp
  rw [hlength (filterMap (bookedOf verdict) _), hlength (filterMap (classedOf verdict) _)]
  simp only [sum_matching]
  simp only [sum_filterMap, ← sum_map_add]
  constructor
  · exact congrArg sum (map_congr_left fun slot hslot => ((hlooks slot hslot).own sharding).1)
  · exact congrArg sum (map_congr_left fun slot hslot => ((hlooks slot hslot).own sharding).2)

theorem settle_other {sharding : Sharding} {shard : Nat}
    (hne : sharding.shardOf key ≠ shard) :
    (slots.map (slotLive sharding shard segments)).sum =
      ((slots.filterMap (settledSlot hash verdict)).map (slotLive sharding shard segments)).sum ∧
    (slots.map (slotBytes sharding shard segments)).sum =
      ((slots.filterMap (settledSlot hash verdict)).map (slotBytes sharding shard segments)).sum := by
  simp only [sum_filterMap]
  constructor
  · exact congrArg sum (map_congr_left fun slot hslot => ((hlooks slot hslot).other hne).1)
  · exact congrArg sum (map_congr_left fun slot hslot => ((hlooks slot hslot).other hne).2)

end

end Settles

namespace Books

@[simp] theorem shards_noteFilled (books : Books) (shard : Nat) (wasEmpty : Bool) :
    (books.noteFilled shard wasEmpty).shards = books.shards := by
  unfold noteFilled
  split <;> rfl

@[simp] theorem shards_noteEmptied (books : Books) (shard : Nat) (vacant : Bool) :
    (books.noteEmptied shard vacant).shards = books.shards := by
  unfold noteEmptied
  split <;> rfl

theorem foldl_modify {α : Type} (shard : α → Nat) (f : α → ShardState → ShardState) (l : List α)
    (books : Books) (other : Nat) :
    (l.foldl (fun books x => books.modify (shard x) (f x)) books).shards other =
        (l.filter fun x => other = shard x).foldl (fun state x => f x state) (books.shards other) ∧
      (l.foldl (fun books x => books.modify (shard x) (f x)) books).occupied = books.occupied := by
  induction l generalizing books with
  | nil => exact ⟨rfl, rfl⟩
  | cons x l ih =>
    obtain ⟨hshards, hoccupied⟩ := ih (books.modify (shard x) (f x))
    rw [foldl_cons]
    refine ⟨hshards.trans ?_, hoccupied⟩
    by_cases hx : other = shard x <;> simp [modify, hx]

theorem foldl_settle (l : List Nat) (state : ShardState) :
    l.foldl (fun state len => { state with paged := state.paged - 1, bytes := state.bytes - len }) state =
      { state with paged := state.paged - l.length, bytes := state.bytes - l.sum } := by
  induction l generalizing state with
  | nil => simp
  | cons len l ih =>
    rw [foldl_cons, ih]
    simp only [ShardState.mk.injEq, length_cons, sum_cons, true_and]
    omega

theorem foldl_rebook (l : List (Nat × Nat)) (hle : ∀ x ∈ l, x.1 ≤ x.2) (state : ShardState) (bytes : Nat)
    (h : state.bytes + (l.map Prod.fst).sum = bytes + (l.map Prod.snd).sum) :
    l.foldl (fun state x => { state with bytes := state.bytes + x.1 - x.2 }) state = { state with bytes } := by
  induction l generalizing state with
  | nil =>
    simp only [map_nil, sum_nil, Nat.add_zero] at h
    rw [← h]
    rfl
  | cons x l ih =>
    have hrest : (l.map Prod.fst).sum ≤ (l.map Prod.snd).sum :=
      sum_le_sum fun y hy => hle y (mem_cons_of_mem _ hy)
    simp only [map_cons, sum_cons] at h
    rw [foldl_cons]
    refine ih (fun y hy => hle y (mem_cons_of_mem _ hy)) _ ?_
    simp only
    omega

theorem bookDisplaced_occupied (books : Books) (shard : Nat) (displaced : Displaced) :
    (books.bookDisplaced shard displaced).occupied = books.occupied := by
  simp only [bookDisplaced, settlePaged, rebookPaged]
  rw [(foldl_modify (fun _ => shard) _ displaced.rebooked _ 0).2,
    (foldl_modify (fun _ => shard) _ displaced.classed _ 0).2,
    (foldl_modify (fun _ => shard) _ displaced.booked _ 0).2]

theorem bookDisplaced_other (books : Books) {shard other : Nat} (displaced : Displaced) (h : other ≠ shard) :
    (books.bookDisplaced shard displaced).shards other = books.shards other := by
  have hnone : ∀ {α : Type} (l : List α), (l.filter fun _ => decide (other = shard)) = [] := by simp [h]
  simp only [bookDisplaced, settlePaged, rebookPaged]
  rw [(foldl_modify (fun _ => shard) _ displaced.rebooked _ other).1, hnone,
    (foldl_modify (fun _ => shard) _ displaced.classed _ other).1, hnone,
    (foldl_modify (fun _ => shard) _ displaced.booked _ other).1, hnone]
  rfl

/-- A displace books exactly what it took, with no subtraction cut off at zero. -/
theorem bookDisplaced_own (books : Books) (shard : Nat) (displaced : Displaced) {paged : Nat} (bytes : Nat)
    (hpaged : (books.shards shard).paged = paged + displaced.booked.length + displaced.classed.length)
    (hbytes : (books.shards shard).bytes + (displaced.rebooked.map Prod.snd).sum =
      bytes + (displaced.booked.map Loc.len).sum + (displaced.classed.map Prod.snd).sum +
        (displaced.rebooked.map fun x => x.1.len).sum)
    (hle : ∀ x ∈ displaced.rebooked, x.2 ≤ x.1.len) :
    (books.bookDisplaced shard displaced).shards shard =
      { books.shards shard with paged, bytes } := by
  have hall : ∀ {α : Type} (l : List α), (l.filter fun _ => decide (shard = shard)) = l := by simp
  have hrest : (displaced.rebooked.map Prod.snd).sum ≤ (displaced.rebooked.map fun x => x.1.len).sum :=
    sum_le_sum hle
  have hsettle : ∀ {α : Type} (l : List α) (len : α → Nat) (state : ShardState),
      l.foldl (fun state x => { state with paged := state.paged - 1, bytes := state.bytes - len x }) state =
        { state with paged := state.paged - l.length, bytes := state.bytes - (l.map len).sum } := by
    intro α l len state
    have := foldl_settle (l.map len) state
    rwa [foldl_map, length_map] at this
  simp only [bookDisplaced, settlePaged, rebookPaged]
  rw [(foldl_modify (fun _ => shard) _ displaced.rebooked _ shard).1, hall,
    (foldl_modify (fun _ => shard) _ displaced.classed _ shard).1, hall,
    (foldl_modify (fun _ => shard) _ displaced.booked _ shard).1, hall, hsettle displaced.booked Loc.len,
    hsettle displaced.classed Prod.snd]
  have hrebook : ∀ state : ShardState,
      state.bytes + (displaced.rebooked.map Prod.snd).sum =
        bytes + (displaced.rebooked.map fun x => x.1.len).sum →
      displaced.rebooked.foldl (fun state x => { state with bytes := state.bytes + x.2 - x.1.len }) state =
        { state with bytes } := by
    intro state hstate
    have := foldl_rebook (displaced.rebooked.map fun x => (x.2, x.1.len)) ?_ state bytes ?_
    · rwa [foldl_map] at this
    · intro x hx
      obtain ⟨y, hy, rfl⟩ := mem_map.mp hx
      exact hle y hy
    · simpa only [map_map, Function.comp_def] using hstate
  rw [hrebook _ (by simp only []; omega)]
  simp only [ShardState.mk.injEq, true_and, and_true]
  omega

end Books

/-- Every shard with a key in its map or handed over is on the walk. -/
def Walked (sharding : Sharding) (map : SortedMap Str Entry) (books : Books) : Prop :=
  ∀ shard, sharding.vacant map shard = false ∨ 0 < (books.shards shard).paged → books.occupied shard = true

variable {sharding : Sharding} {map : SortedMap Str Entry}

theorem Walked.noteEmptied {books : Books}
    (h : Walked sharding map books) (shard : Nat) :
    Walked sharding map (books.noteEmptied shard (sharding.vacant map shard)) := by
  intro other hother
  rw [Books.shards_noteEmptied] at hother
  have hwalked := h other hother
  unfold Books.noteEmptied
  split
  · rename_i hempty
    simp only [Bool.and_eq_true, beq_iff_eq] at hempty
    have hne : other ≠ shard := by
      rintro rfl
      rcases hother with hheld | hpaged
      · rw [hempty.1] at hheld
        cases hheld
      · omega
    simp [hne, hwalked]
  · exact hwalked

theorem vacant_eq_false {shard : Nat} :
    sharding.vacant map shard = false ↔ ∃ key entry, map.get key = some entry ∧ sharding.shardOf key = shard := by
  simp only [Sharding.vacant, all_eq_false, bne_iff_ne, ne_eq, not_not, Prod.exists,
    SortedMap.mem_entries]

theorem Walked.put {books : Books}
    (h : Walked sharding map books) (key : Str) (entry : Entry) {f : ShardState → ShardState}
    (hf : ∀ state, (f state).paged = state.paged) :
    Walked sharding (map.put key entry) ((books.modify (sharding.shardOf key) f).noteFilled
      (sharding.shardOf key) (sharding.vacant map (sharding.shardOf key))) := by
  intro other hother
  rw [Books.shards_noteFilled] at hother
  have hpaged : ((books.modify (sharding.shardOf key) f).shards other).paged = (books.shards other).paged := by
    simp only [Books.modify]
    split
    · exact hf _
    · rfl
  rw [hpaged, vacant_eq_false] at hother
  by_cases hown : other = sharding.shardOf key
  · subst hown
    unfold Books.noteFilled
    split
    · simp
    · rename_i hheld
      exact h _ (Or.inl (by simpa using hheld))
  · have hbefore : books.occupied other = true := by
      refine h other (hother.imp_left ?_)
      rintro ⟨k, held, hget, hk⟩
      rw [SortedMap.get_put] at hget
      split at hget
      · rename_i hkey
        exact absurd (hk.symm.trans (congrArg _ hkey)) hown
      · exact vacant_eq_false.mpr ⟨k, held, hget, hk⟩
    unfold Books.noteFilled
    split
    · simp [Books.modify, hbefore]
    · exact hbefore

end Reel
