import Reel.Index.SpotColumn

/-!
The spot table as a set of slots under distinct places, and what a settle leaves of it.
-/

set_option autoImplicit false

namespace Reel
open Bytes List

namespace Slot

def place (slot : Slot) : Nat × Nat := (slot.segment, slot.offset)

def displaced (slot : Slot) : Slot := { slot with isDisplaced := true }

@[simp] theorem place_displaced (slot : Slot) : slot.displaced.place = slot.place := rfl

@[simp] theorem holds_displaced (slot : Slot) (hash : UInt64) :
    slot.displaced.holds hash = slot.holds hash := rfl

@[simp] theorem samePlace_displaced (slot other : Slot) :
    slot.displaced.samePlace other = slot.samePlace other := rfl

@[simp] theorem isDisplaced_displaced (slot : Slot) : slot.displaced.isDisplaced = true := rfl

theorem displaced_of_isDisplaced {slot : Slot} (h : slot.isDisplaced = true) :
    slot.displaced = slot := by
  cases slot
  simp_all [displaced]

theorem samePlace_iff {slot other : Slot} :
    slot.samePlace other = true ↔ slot.place = other.place ∧ slot.mid = other.mid := by
  simp [samePlace, place, and_assoc]

theorem isAt_iff {slot : Slot} {loc : Loc} :
    slot.isAt loc = true ↔ slot.place = (loc.segment, loc.offset) := by
  simp [isAt, place]

@[simp] theorem holds_new (hash : UInt64) (loc : Loc) : (new hash loc).holds hash = true := by
  simp [holds, new]

end Slot

/-- No two slots point at one place. -/
def Distinct (slots : List Slot) : Prop := (slots.map Slot.place).Nodup

variable {slots : List Slot}

theorem Distinct.eq (h : Distinct slots) {a b : Slot} (ha : a ∈ slots)
    (hb : b ∈ slots) (hp : a.place = b.place) : a = b := inj_on_of_nodup_map h ha hb hp

theorem Distinct.filter (h : Distinct slots) (p : Slot → Bool) :
    Distinct (slots.filter p) := List.Nodup.sublist (filter_sublist.map _) h

variable {slot : Slot}

theorem distinct_cons :
    Distinct (slot :: slots) ↔ (∀ held ∈ slots, slot.place ≠ held.place) ∧ Distinct slots := by
  simp [Distinct, eq_comm]

variable {hash : UInt64}

theorem mem_slotMatches :
    slot ∈ slotMatches slots hash ↔ slot ∈ slots ∧ slot.holds hash = true := mem_filter

def names (hash : UInt64) (slot held : Slot) : Bool := held.holds hash && held.samePlace slot

section
variable (h : Distinct slots)
include h

theorem names_iff {held : Slot}
    (hslot : slot ∈ slots) (hheld : held ∈ slots) :
    names hash slot held = true ↔ held = slot ∧ slot.holds hash = true := by
  simp only [names, Bool.and_eq_true, Slot.samePlace_iff]
  constructor
  · rintro ⟨hh, hp, -⟩
    have := h.eq hheld hslot hp
    exact ⟨this, this ▸ hh⟩
  · rintro ⟨rfl, hh⟩
    exact ⟨hh, rfl, rfl⟩

theorem takeSlot_eq (hash : UInt64) (slot : Slot) :
    takeSlot slots hash slot = slots.filter fun held => !names hash slot held := by
  unfold takeSlot
  induction slots with
  | nil => rfl
  | cons first rest ih =>
    obtain ⟨hhead, htail⟩ := distinct_cons.mp h
    change eraseP (names hash slot) (first :: rest) = _
    cases hf : names hash slot first with
    | true =>
      rw [eraseP_cons_of_pos hf, filter_cons_of_neg (by simp [hf])]
      refine (filter_eq_self.mpr fun held hheld => ?_).symm
      simp only [names, Bool.and_eq_true, Slot.samePlace_iff] at hf
      by_contra hno
      simp only [names, Bool.not_eq_true', Bool.not_eq_false, Bool.and_eq_true,
        Slot.samePlace_iff] at hno
      exact hhead held hheld (hf.2.1.trans hno.2.1.symm)
    | false =>
      rw [eraseP_cons_of_neg (by simp [hf]), filter_cons_of_pos (by simp [hf])]
      exact congrArg _ (ih htail)

theorem mem_takeSlot {held : Slot} :
    held ∈ takeSlot slots hash slot ↔ held ∈ slots ∧ names hash slot held = false := by
  rw [takeSlot_eq h, mem_filter, Bool.not_eq_true']

theorem Distinct.takeSlot (hash : UInt64) (slot : Slot) :
    Distinct (takeSlot slots hash slot) := by
  rw [takeSlot_eq h]
  exact h.filter _

theorem foldl_takeSlot (hash : UInt64) (gone : List Slot) :
    gone.foldl (fun slots slot => takeSlot slots hash slot) slots =
      slots.filter fun held => !gone.any fun slot => names hash slot held := by
  induction gone generalizing slots with
  | nil => simp
  | cons slot gone ih =>
    rw [foldl_cons, ih (h.takeSlot hash slot), takeSlot_eq h, filter_filter]
    refine filter_congr fun held _ => ?_
    rw [any_cons, Bool.not_or, Bool.and_comm]

end

theorem markDisplaced_eq (slots : List Slot) (hash : UInt64) (slot : Slot) :
    markDisplaced slots hash slot =
      slots.map fun held => if names hash slot held then held.displaced else held := rfl

theorem countP_takeSlot_le (slots : List Slot) (hash : UInt64) (slot : Slot) (p : Slot → Bool) :
    slots.countP p ≤ (takeSlot slots hash slot).countP p + 1 := by
  unfold takeSlot
  rcases exists_or_eq_self_of_eraseP
    (fun held : Slot => held.holds hash && held.samePlace slot) slots with he | ⟨a, l, r, -, -, he, hq⟩
  · rw [he]
    exact Nat.le_succ _
  · rw [hq, he]
    simp only [countP_append, countP_cons]
    split <;> omega

theorem foldl_markDisplaced (slots : List Slot) (hash : UInt64) (unread : List Slot) :
    unread.foldl (fun slots slot => markDisplaced slots hash slot) slots =
      slots.map fun held =>
        if unread.any (fun slot => names hash slot held) then held.displaced else held := by
  induction unread generalizing slots with
  | nil => simp
  | cons slot unread ih =>
    rw [foldl_cons, ih, markDisplaced_eq, map_map]
    refine map_congr_left fun held _ => ?_
    have hsame : (unread.any fun slot => names hash slot held.displaced) =
        unread.any fun slot => names hash slot held := rfl
    simp only [Function.comp_apply, any_cons]
    by_cases hn : names hash slot held = true
    · simp only [hn, if_true, Bool.true_or, hsame]
      split <;> rfl
    · simp only [Bool.not_eq_true _ ▸ hn, Bool.false_eq_true, if_false, Bool.false_or]

/-- A slot's fate under a settle that decided `verdict` of every slot holding the bits. -/
def settledSlot (hash : UInt64) (verdict : Slot → Verdict) (slot : Slot) : Option Slot :=
  if slot.holds hash then
    match verdict slot with
    | .gone | .older _ => none
    | .unread => some slot.displaced
    | .skip => some slot
  else some slot

def Verdict.isOlder : Verdict → Bool
  | .older _ => true
  | _ => false

theorem takeOlder_fst (hash : UInt64) (state : List Slot × Displaced) (slot : Slot) (len : Nat) :
    (takeOlder hash state slot len).1 = takeSlot state.1 hash slot := by
  unfold takeOlder
  cases hf : findSlot state.1 hash slot with
  | some took => rfl
  | none =>
    refine (eraseP_of_forall_not fun held hheld hno => ?_).symm
    simp only [Bool.and_eq_true] at hno
    have := find?_eq_none.mp hf held (mem_slotMatches.mpr ⟨hheld, hno.1⟩)
    exact this hno.2

theorem markUnread_fst {state : List Slot × Displaced} (h : Distinct state.1) (hash : UInt64)
    (slot : Slot) : (markUnread hash state slot).1 = markDisplaced state.1 hash slot := by
  -- marking changes nothing where every slot it means is displaced already
  have hstay : (∀ held ∈ state.1, names hash slot held = true → held.isDisplaced = true) →
      state.1 = markDisplaced state.1 hash slot := by
    intro hall
    rw [markDisplaced_eq]
    refine (map_congr_left (g := id) fun held hheld => ?_).trans (map_id _) |>.symm
    split
    · rename_i hn
      exact Slot.displaced_of_isDisplaced (hall held hheld hn)
    · rfl
  unfold markUnread
  cases hf : findSlot state.1 hash slot with
  | some held =>
    have hmem := mem_slotMatches.mp (mem_of_find?_eq_some hf)
    have hplace : held.place = slot.place :=
      (Slot.samePlace_iff.mp (find?_some (p := fun other : Slot => other.samePlace slot) hf)).1
    by_cases hdisp : held.isDisplaced = true
    · simp only [if_pos hdisp]
      refine hstay fun other hother hn => ?_
      simp only [names, Bool.and_eq_true, Slot.samePlace_iff] at hn
      rw [h.eq hother hmem.1 (hn.2.1.trans hplace.symm)]
      exact hdisp
    · simp only [if_neg hdisp]
  | none =>
    refine hstay fun held hheld hn => ?_
    simp only [names, Bool.and_eq_true] at hn
    exact absurd hn.2 (find?_eq_none.mp hf held (mem_slotMatches.mpr ⟨hheld, hn.1⟩))

theorem Distinct.markDisplaced (h : Distinct slots) (hash : UInt64)
    (slot : Slot) : Distinct (markDisplaced slots hash slot) := by
  have hplace : (Reel.markDisplaced slots hash slot).map Slot.place = slots.map Slot.place := by
    rw [markDisplaced_eq, map_map]
    refine map_congr_left fun held _ => ?_
    simp only [Function.comp_apply]
    split <;> rfl
  rw [Distinct, hplace]
  exact h

theorem foldl_takeOlder (hash : UInt64) (older : List (Slot × Nat)) (state : List Slot × Displaced) :
    (older.foldl (fun state x => takeOlder hash state x.1 x.2) state).1 =
      (older.map Prod.fst).foldl (fun slots slot => takeSlot slots hash slot) state.1 := by
  induction older generalizing state with
  | nil => rfl
  | cons x older ih => rw [foldl_cons, ih, takeOlder_fst, map_cons, foldl_cons]

theorem foldl_markUnread (hash : UInt64) (unread : List Slot) {state : List Slot × Displaced}
    (h : Distinct state.1) : (unread.foldl (markUnread hash) state).1 =
      unread.foldl (fun slots slot => markDisplaced slots hash slot) state.1 := by
  induction unread generalizing state with
  | nil => rfl
  | cons slot unread ih =>
    have hfst := markUnread_fst h hash slot
    rw [foldl_cons, ih (by rw [hfst]; exact h.markDisplaced hash slot), hfst, foldl_cons]

def named (p : Verdict → Bool) (verdicts : List (Slot × Verdict)) : List Slot :=
  verdicts.filterMap fun x => if p x.2 then some x.1 else none

theorem mem_named {p : Verdict → Bool} {verdicts : List (Slot × Verdict)} :
    slot ∈ named p verdicts ↔ ∃ x ∈ verdicts, p x.2 = true ∧ x.1 = slot := by
  simp [named]

theorem settleApply_eq (h : Distinct slots) (hash : UInt64)
    (verdicts : List (Slot × Verdict)) :
    (settleApply slots hash verdicts).1 = slots.filterMap fun held =>
      if (named (· = .gone) verdicts).any (fun slot => names hash slot held) then none
      else if (named Verdict.isOlder verdicts).any (fun slot => names hash slot held) then none
      else if (named (· = .unread) verdicts).any (fun slot => names hash slot held) then
        some held.displaced
      else some held := by
  have hpick : ∀ verdict, verdicts.filterMap (fun x : Slot × Verdict =>
      if x.2 = verdict then some x.1 else none) = named (· = verdict) verdicts := by
    intro verdict
    simp [named]
  unfold settleApply
  simp only [hpick]
  generalize holder : verdicts.filterMap
    (fun x : Slot × Verdict => match x.2 with | .older len => some (x.1, len) | _ => none) = older
  have hfst : older.map Prod.fst = named Verdict.isOlder verdicts := by
    rw [← holder, named, map_filterMap]
    refine filterMap_congr fun x _ => ?_
    cases x.2 <;> simp [Verdict.isOlder]
  rw [foldl_markUnread, foldl_markDisplaced, foldl_takeOlder, hfst]
  · simp only [foldl_takeSlot h, foldl_takeSlot (h.filter _)]
    rw [← filterMap_eq_filter, ← filterMap_eq_filter, ← filterMap_eq_map,
      filterMap_filterMap, filterMap_filterMap]
    refine filterMap_congr fun held _ => ?_
    have hform : ∀ lost took marked : Slot → Bool,
        ((Option.guard (fun held => !lost held) held).bind fun slot =>
          (Option.guard (fun held => !took held) slot).bind
            (some ∘ fun slot => if marked slot then slot.displaced else slot)) =
          if lost held then none else if took held then none
          else if marked held then some held.displaced else some held := by
      intro lost took marked
      cases hl : lost held <;> cases ht : took held <;> cases hm : marked held <;>
        simp [Option.guard, hl, ht, hm]
    exact hform _ _ _
  · rw [foldl_takeOlder]
    simp only [foldl_takeSlot h, foldl_takeSlot (h.filter _)]
    exact (h.filter _).filter _

theorem settleApply_slots (h : Distinct slots) (hash : UInt64)
    (verdict : Slot → Verdict) :
    (settleApply slots hash ((slotMatches slots hash).map fun slot => (slot, verdict slot))).1 =
      slots.filterMap (settledSlot hash verdict) := by
  rw [settleApply_eq h]
  -- over distinct places the named slots are the slots themselves
  have hany : ∀ p : Verdict → Bool, ∀ held ∈ slots,
      ((named p ((slotMatches slots hash).map fun slot => (slot, verdict slot))).any
        fun slot => names hash slot held) = (held.holds hash && p (verdict held)) := by
    intro p held hheld
    rw [Bool.eq_iff_iff, any_eq_true, Bool.and_eq_true]
    constructor
    · rintro ⟨slot, hslot, hn⟩
      obtain ⟨x, hx, hp, rfl⟩ := mem_named.mp hslot
      obtain ⟨slot, hm, rfl⟩ := mem_map.mp hx
      obtain ⟨rfl, hh⟩ := (names_iff h (mem_slotMatches.mp hm).1 hheld).mp hn
      exact ⟨hh, hp⟩
    · rintro ⟨hh, hp⟩
      exact ⟨held, mem_named.mpr ⟨(held, verdict held),
        mem_map_of_mem (mem_slotMatches.mpr ⟨hheld, hh⟩), hp, rfl⟩,
        (names_iff h hheld hheld).mpr ⟨rfl, hh⟩⟩
  refine filterMap_congr fun held hheld => ?_
  simp only [hany _ held hheld]
  unfold settledSlot
  by_cases hh : held.holds hash = true
  · cases hv : verdict held <;> simp [hh, Verdict.isOlder]
  · simp [hh]

/-- A table left of another by marking some of its slots displaced and losing others. -/
structure Fades (mark lose : Slot → Prop) (slots slots' : List Slot) : Prop where
  distinct : Distinct slots'
  old : ∀ slot' ∈ slots', slot' ∈ slots ∨ ∃ slot ∈ slots, mark slot ∧ slot' = slot.displaced
  kept : ∀ slot ∈ slots, slot ∈ slots' ∨ (mark slot ∧ slot.displaced ∈ slots') ∨ lose slot

theorem Fades.refl (mark lose : Slot → Prop) (h : Distinct slots) :
    Fades mark lose slots slots := ⟨h, fun _ h => .inl h, fun _ h => .inl h⟩

theorem Fades.trans {mark lose : Slot → Prop} {a b c : List Slot}
    (hlose : ∀ slot : Slot, lose slot.displaced → lose slot) (hab : Fades mark lose a b)
    (hbc : Fades mark lose b c) : Fades mark lose a c := by
  refine ⟨hbc.distinct, ?_, ?_⟩
  · intro slot hslot
    rcases hbc.old slot hslot with hb | ⟨mid, hmid, hmark, rfl⟩
    · exact hab.old slot hb
    · rcases hab.old mid hmid with ha | ⟨first, ha, hmark', rfl⟩
      · exact .inr ⟨mid, ha, hmark, rfl⟩
      · exact .inr ⟨first, ha, hmark', rfl⟩
  · intro slot hslot
    rcases hab.kept slot hslot with hb | ⟨hmark, hb⟩ | hl
    · exact hbc.kept slot hb
    · rcases hbc.kept _ hb with hc | ⟨-, hc⟩ | hl
      · exact .inr (.inl ⟨hmark, hc⟩)
      · exact .inr (.inl ⟨hmark, hc⟩)
      · exact .inr (.inr (hlose slot hl))
    · exact .inr (.inr hl)

theorem Fades.mono {mark lose mark' lose' : Slot → Prop} {a b : List Slot}
    (h : Fades mark lose a b) (hm : ∀ slot ∈ a, mark slot → mark' slot)
    (hl : ∀ slot ∈ a, lose slot → lose' slot) : Fades mark' lose' a b := by
  refine ⟨h.distinct, ?_, ?_⟩
  · intro slot hslot
    rcases h.old slot hslot with ha | ⟨first, ha, hmark, rfl⟩
    · exact .inl ha
    · exact .inr ⟨first, ha, hm first ha hmark, rfl⟩
  · intro slot hslot
    rcases h.kept slot hslot with hb | ⟨hmark, hb⟩ | hlost
    · exact .inl hb
    · exact .inr (.inl ⟨hm slot hslot hmark, hb⟩)
    · exact .inr (.inr (hl slot hslot hlost))

def settleVerdict (records : Records) (maxLsnOf : Nat → Option Nat) (slots : List Slot)
    (hash : UInt64) (key : Str) (newer : Nat) (owed : Bool) (slot : Slot) : Verdict :=
  settleOne records maxLsnOf key newer owed
    (owed || decide (settleAt ≤ (slotMatches slots hash).length)) slot

section
variable (h : Distinct slots)
include h

theorem settleVersions_slots (records : Records)
    (maxLsnOf : Nat → Option Nat) (hash : UInt64) (key : Str) (newer : Nat) (owed : Bool) :
    (settleVersions records maxLsnOf slots hash key newer owed).1 =
      slots.filterMap
        (settledSlot hash (settleVerdict records maxLsnOf slots hash key newer owed)) :=
  settleApply_slots h hash _

theorem filterMap_fades {f : Slot → Option Slot}
    {mark lose : Slot → Prop} (hf : ∀ slot, f slot = some slot ∨
      (mark slot ∧ f slot = some slot.displaced) ∨ (lose slot ∧ f slot = none)) :
    Fades mark lose slots (slots.filterMap f) := by
  refine ⟨?_, ?_, ?_⟩
  · have hsub : ((slots.filterMap f).map Slot.place).Sublist (slots.map Slot.place) := by
      clear h
      induction slots with
      | nil => exact List.Sublist.refl _
      | cons slot slots ih =>
        rcases hf slot with hs | ⟨-, hs⟩ | ⟨-, hs⟩
        · simpa [filterMap_cons, hs] using ih
        · simpa [filterMap_cons, hs] using ih
        · simpa [filterMap_cons, hs] using ih.cons _
    exact h.sublist hsub
  · intro slot' hslot'
    obtain ⟨slot, hslot, hs⟩ := mem_filterMap.mp hslot'
    rcases hf slot with he | ⟨hm, he⟩ | ⟨-, he⟩
    · exact .inl (Option.some.inj (he.symm.trans hs) ▸ hslot)
    · exact .inr ⟨slot, hslot, hm, Option.some.inj (hs.symm.trans he)⟩
    · cases he.symm.trans hs
  · intro slot hslot
    rcases hf slot with he | ⟨hm, he⟩ | ⟨hl, -⟩
    · exact .inl (mem_filterMap.mpr ⟨slot, hslot, he⟩)
    · exact .inr (.inl ⟨hm, mem_filterMap.mpr ⟨slot, hslot, he⟩⟩)
    · exact .inr (.inr hl)

theorem takeSlot_fades (hash : UInt64) (slot : Slot) :
    Fades (fun _ => False) (fun held => names hash slot held = true) slots
      (takeSlot slots hash slot) := by
  refine ⟨h.takeSlot hash slot, ?_, ?_⟩
  · intro held hheld
    exact .inl ((mem_takeSlot h).mp hheld).1
  · intro held hheld
    cases hn : names hash slot held with
    | true => exact .inr (.inr rfl)
    | false => exact .inl ((mem_takeSlot h).mpr ⟨hheld, hn⟩)

theorem settle_fades (hash : UInt64)
    (verdict : Slot → Verdict) :
    Fades (fun slot => slot.holds hash = true ∧ verdict slot = .unread)
      (fun slot => slot.holds hash = true ∧ (verdict slot = .gone ∨ (verdict slot).isOlder = true))
      slots (slots.filterMap (settledSlot hash verdict)) := by
  refine filterMap_fades h fun slot => ?_
  by_cases hh : slot.holds hash = true
  · cases hv : verdict slot <;> simp [settledSlot, hh, hv, Verdict.isOlder]
  · simp [settledSlot, hh]

end

theorem settledSlot_place {verdict : Slot → Verdict} {slot' : Slot}
    (h : settledSlot hash verdict slot = some slot') : slot'.place = slot.place := by
  unfold settledSlot at h
  split at h
  · split at h <;> cases h <;> rfl
  · cases h
    rfl

theorem settleApply_fades (h : Distinct slots) (hash : UInt64)
    (verdicts : List (Slot × Verdict)) :
    Fades (fun held => ∃ x ∈ verdicts, x.2 ≠ .skip ∧ names hash x.1 held = true)
      (fun held => ∃ x ∈ verdicts, x.2 ≠ .skip ∧ names hash x.1 held = true)
      slots (settleApply slots hash verdicts).1 := by
  rw [settleApply_eq h]
  refine filterMap_fades h fun held => ?_
  have hnamed : ∀ p : Verdict → Bool, p .skip = false →
      ((named p verdicts).any fun slot => names hash slot held) = true →
        ∃ x ∈ verdicts, x.2 ≠ .skip ∧ names hash x.1 held = true := by
    intro p hskip hany
    obtain ⟨slot, hslot, hn⟩ := any_eq_true.mp hany
    obtain ⟨x, hx, hp, rfl⟩ := mem_named.mp hslot
    exact ⟨x, hx, fun hv => by simp [hv, hskip] at hp, hn⟩
  split
  · rename_i hany
    exact .inr (.inr ⟨hnamed _ rfl hany, rfl⟩)
  · split
    · rename_i hany
      exact .inr (.inr ⟨hnamed _ rfl hany, rfl⟩)
    · split
      · rename_i hany
        exact .inr (.inl ⟨hnamed _ rfl hany, rfl⟩)
      · exact .inl rfl

theorem Fades.countP_le {mark lose : Slot → Prop} {slots' : List Slot}
    (h : Fades mark lose slots slots') (hd : Distinct slots) {p : Slot → Bool}
    (hp : ∀ slot, p slot.displaced = p slot) (hlose : ∀ slot ∈ slots, lose slot → p slot = false) :
    slots.countP p ≤ slots'.countP p := by
  have hsub : (slots.filter p).map Slot.place ⊆ (slots'.filter p).map Slot.place := by
    intro place hplace
    obtain ⟨slot, hslot, rfl⟩ := mem_map.mp hplace
    obtain ⟨hin, hkind⟩ := mem_filter.mp hslot
    rcases h.kept slot hin with hkept | ⟨-, hkept⟩ | hl
    · exact mem_map_of_mem (mem_filter.mpr ⟨hkept, hkind⟩)
    · exact mem_map.mpr ⟨_, mem_filter.mpr ⟨hkept, (hp slot).trans hkind⟩, rfl⟩
    · rw [hlose slot hin hl] at hkind
      cases hkind
  have hle := ((hd.filter p).subperm hsub).length_le
  rwa [length_map, length_map, ← countP_eq_length_filter,
    ← countP_eq_length_filter] at hle

/-- At most the slot of one record is taken out. -/
def TakesAt (hash : UInt64) (loc : Loc) (slots slots' : List Slot) : Prop :=
  slots' = slots ∨ ∃ slot ∈ slots, slot.place = (loc.segment, loc.offset) ∧
    slots' = takeSlot slots hash slot

theorem takeLive_takesAt (slots : List Slot) (hash : UInt64) (loc : Loc) :
    TakesAt hash loc slots (takeLive slots hash loc).1 := by
  unfold takeLive
  split
  · rename_i slot hfind
    have hm := find?_some hfind
    simp only [Bool.and_eq_true] at hm
    exact .inr ⟨slot, (mem_slotMatches.mp (mem_of_find?_eq_some hfind)).1,
      Slot.isAt_iff.mp hm.1, rfl⟩
  · exact .inl rfl

theorem removeAt_takesAt (slots : List Slot) (hash : UInt64) (loc : Loc) :
    TakesAt hash loc slots (removeAt slots hash loc) := by
  unfold removeAt
  split
  · rename_i slot hfind
    exact .inr ⟨slot, (mem_slotMatches.mp (mem_of_find?_eq_some hfind)).1,
      Slot.isAt_iff.mp (find?_some (p := fun held : Slot => held.isAt loc) hfind), rfl⟩
  · exact .inl rfl

section
variable {loc : Loc} {slots' : List Slot} (h : TakesAt hash loc slots slots')
include h

theorem TakesAt.fades (hd : Distinct slots) :
    Fades (fun _ => False) (fun held => held.place = (loc.segment, loc.offset)) slots slots' := by
  rcases h with rfl | ⟨slot, -, hplace, rfl⟩
  · exact Fades.refl _ _ hd
  · refine (takeSlot_fades hd hash slot).mono (fun _ _ h => h) ?_
    intro held _ hn
    simp only [names, Bool.and_eq_true, Slot.samePlace_iff] at hn
    exact hn.2.1.trans hplace

theorem TakesAt.countP_le (p : Slot → Bool) :
    slots.countP p ≤ slots'.countP p + 1 := by
  rcases h with rfl | ⟨slot, -, -, rfl⟩
  · exact Nat.le_succ _
  · exact countP_takeSlot_le slots hash slot p

end

end Reel
