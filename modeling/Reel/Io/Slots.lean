import Mathlib

/-!
The completion slots of a driver: a tag's low bits pick its slot, a batch claims all its slots or none, and
tags come from one counter that every caller draws from.
-/

set_option autoImplicit false

open List

namespace Reel.Io

abbrev Tag := UInt64

def slotCount : Nat := 512

def slotMask : UInt64 := UInt64.ofNat (slotCount - 1)

theorem and_slotMask (tag : Tag) : (tag &&& slotMask).toNat = tag.toNat % slotCount := by
  rw [UInt64.toNat_and]
  exact Nat.and_two_pow_sub_one_eq_mod tag.toNat 9

def indexOf (tag : Tag) : Fin slotCount :=
  ⟨(tag &&& slotMask).toNat, by rw [and_slotMask]; exact Nat.mod_lt _ (by decide)⟩

inductive SlotState where
  | free
  | flight
  | landed
  | orphan
  deriving DecidableEq, Repr

abbrev Waker := Nat

structure Completion (Outcome : Type) where
  tag : Tag
  outcome : Outcome

structure Slot (Outcome : Type) where
  tag : Tag
  state : SlotState
  completion : Option (Completion Outcome)
  waker : Option Waker

namespace Slot
variable {Outcome : Type}

def clear (slot : Slot Outcome) : Slot Outcome := { slot with state := .free, completion := none, waker := none }

def seat (slot : Slot Outcome) (waker : Waker) : Slot Outcome := { slot with waker := some waker }

end Slot

abbrev Slots (Outcome : Type) := Fin slotCount → Slot Outcome

namespace Slots
variable {Outcome : Type}

def fresh : Slots Outcome := fun _ => ⟨0, .free, none, none⟩

variable (slots : Slots Outcome)

def set (i : Fin slotCount) (slot : Slot Outcome) : Slots Outcome :=
  fun j => if j = i then slot else slots j

def isFree (tag : Tag) : Bool := (slots (indexOf tag)).state = .free

def hold (tag : Tag) : Slots Outcome :=
  slots.set (indexOf tag) { slots (indexOf tag) with tag, state := .flight }

def clear (slots : Slots Outcome) (tag : Tag) : Slots Outcome :=
  slots.set (indexOf tag) (slots (indexOf tag)).clear

def seat (slots : Slots Outcome) (tag : Tag) (waker : Waker) : Slots Outcome :=
  slots.set (indexOf tag) ((slots (indexOf tag)).seat waker)

def abandon (tag : Tag) : Slots Outcome :=
  slots.set (indexOf tag) { slots (indexOf tag) with state := .orphan, waker := none }

def fill (completion : Completion Outcome) : Slots Outcome :=
  slots.set (indexOf completion.tag)
    { slots (indexOf completion.tag) with completion := some completion, state := .landed, waker := none }

def tryClaim (tag : Tag) : Bool × Slots Outcome :=
  if slots.isFree tag then (true, slots.hold tag) else (false, slots)

def claimWholeFrom (slots : Slots Outcome) (taken : List Tag) : List Tag → Bool × Slots Outcome
  | [] => (true, slots)
  | tag :: rest =>
    match slots.tryClaim tag with
    | (true, slots) => claimWholeFrom slots (taken ++ [tag]) rest
    | (false, slots) => (false, taken.foldl clear slots)

def claimAll (wanted : List Tag) : Bool × Slots Outcome := claimWholeFrom slots [] wanted

/-- The slot a tag addresses is the tag's own, in this state. -/
def isMine (tag : Tag) (state : SlotState) : Bool :=
  (slots (indexOf tag)).tag = tag && (slots (indexOf tag)).state = state

def release (tag : Tag) : Slots Outcome := if slots.isMine tag .flight then slots.clear tag else slots

def take (tag : Tag) : Option (Completion Outcome) × Slots Outcome :=
  if slots.isMine tag .landed then ((slots (indexOf tag)).completion, slots.clear tag) else (none, slots)

/-- Take the completion, or leave a waker for when it lands. -/
def takeOrSeat (tag : Tag) (waker : Waker) : Option (Completion Outcome) × Slots Outcome :=
  if (slots (indexOf tag)).tag ≠ tag then (none, slots) else
  match (slots (indexOf tag)).state with
  | .landed => ((slots (indexOf tag)).completion, slots.clear tag)
  | .flight => (none, slots.seat tag waker)
  | .free | .orphan => (none, slots)

/-- Give up on an op, with the completion there is to discard. -/
def orphan (tag : Tag) : Option (Completion Outcome) × Slots Outcome :=
  if (slots (indexOf tag)).tag ≠ tag then (none, slots) else
  match (slots (indexOf tag)).state with
  | .flight => (none, slots.abandon tag)
  | .landed => ((slots (indexOf tag)).completion, slots.clear tag)
  | .free | .orphan => (none, slots)

theorem set_state (i j : Fin slotCount) (slot : Slot Outcome) :
    (slots.set i slot j).state = if j = i then slot.state else (slots j).state := apply_ite Slot.state ..

@[simp] theorem hold_state (tag : Tag) (i : Fin slotCount) :
    (slots.hold tag i).state = if i = indexOf tag then .flight else (slots i).state := set_state ..

@[simp] theorem clear_state (tag : Tag) (i : Fin slotCount) :
    (slots.clear tag i).state = if i = indexOf tag then .free else (slots i).state := set_state ..

@[simp] theorem seat_state (tag : Tag) (waker : Waker) (i : Fin slotCount) :
    (slots.seat tag waker i).state = (slots i).state := by
  refine (set_state ..).trans ?_
  split
  · rename_i h
    rw [h, Slot.seat]
  · rfl

@[simp] theorem abandon_state (tag : Tag) (i : Fin slotCount) :
    (slots.abandon tag i).state = if i = indexOf tag then .orphan else (slots i).state := set_state ..

@[simp] theorem fill_state (completion : Completion Outcome) (i : Fin slotCount) :
    (slots.fill completion i).state = if i = indexOf completion.tag then .landed else (slots i).state := set_state ..

section
variable {slots : Slots Outcome} (tag : Tag) {j : Fin slotCount}

theorem isMine_iff {state : SlotState} : slots.isMine tag state = true ↔
    (slots (indexOf tag)).tag = tag ∧ (slots (indexOf tag)).state = state := by
  simp [isMine]

variable (h : (slots j).state ≠ .free)
include h

theorem release_taken : (slots.release tag j).state ≠ .free ∨ slots.isMine tag .flight = true := by
  unfold release
  split
  · next hmine => exact .inr hmine
  · exact .inl h

theorem take_taken : ((slots.take tag).2 j).state ≠ .free ∨ slots.isMine tag .landed = true := by
  unfold take
  split
  · next hmine => exact .inr hmine
  · exact .inl h

theorem takeOrSeat_taken (waker : Waker) :
    ((slots.takeOrSeat tag waker).2 j).state ≠ .free ∨ slots.isMine tag .landed = true := by
  unfold takeOrSeat
  split
  · exact .inl h
  · next hmine =>
    split
    · next hstate => exact .inr ((isMine_iff tag).mpr ⟨not_not.mp hmine, hstate⟩)
    · exact .inl (by rwa [seat_state])
    · exact .inl h
    · exact .inl h

theorem orphan_taken : ((slots.orphan tag).2 j).state ≠ .free ∨ slots.isMine tag .landed = true := by
  unfold orphan
  split
  · exact .inl h
  · next hmine =>
    split
    · left
      rw [abandon_state]
      split
      · decide
      · exact h
    · next hstate => exact .inr ((isMine_iff tag).mpr ⟨not_not.mp hmine, hstate⟩)
    · exact .inl h
    · exact .inl h

end

theorem claimWholeFrom_iff (taken wanted : List Tag) :
    (slots.claimWholeFrom taken wanted).1 = true ↔
      (∀ tag ∈ wanted, slots.isFree tag) ∧ wanted.Pairwise fun a b => indexOf a ≠ indexOf b := by
  induction wanted generalizing slots taken with
  | nil => simp [claimWholeFrom]
  | cons tag rest ih =>
    by_cases hfree : slots.isFree tag
    · have hheld : ∀ other, (slots.hold tag).isFree other = true ↔
          indexOf tag ≠ indexOf other ∧ slots.isFree other = true := by
        intro other
        by_cases h : indexOf other = indexOf tag
        · simp [isFree, h]
        · simp [isFree, h, Ne.symm h]
      have hstep : slots.claimWholeFrom taken (tag :: rest) =
          (slots.hold tag).claimWholeFrom (taken ++ [tag]) rest := by
        rw [claimWholeFrom, tryClaim, if_pos hfree]
      rw [hstep, ih, forall_mem_cons, pairwise_cons, and_iff_right hfree]
      simp only [hheld, imp_and, forall_and]
      tauto
    · simp [claimWholeFrom, tryClaim, hfree]

end Slots

def nextTag (counter : UInt64) : Tag × UInt64 := (counter, counter + 1)

def draws (counter : UInt64) : List Nat → List (Nat × Tag)
  | [] => []
  | caller :: rest => (caller, (nextTag counter).1) :: draws (nextTag counter).2 rest

def batchSlots : Nat := slotCount / 4

/-- A batch of ops a caller drew the tags of, at these draws, that `wait_batch` accepts. -/
structure Accepted (schedule : List Nat) (caller : Nat) (places : List Nat) : Prop where
  mine : ∀ p ∈ places, schedule[p]? = some caller
  ordered : places.Pairwise (· < ·)
  fits : places.length ≤ batchSlots

def tagsAt (counter : UInt64) (schedule : List Nat) (places : List Nat) : List Tag :=
  places.filterMap fun p => ((draws counter schedule)[p]?).map Prod.snd

theorem draws_getElem (counter : UInt64) (schedule : List Nat) (p : Nat) :
    (draws counter schedule)[p]? = schedule[p]?.map fun caller => (caller, counter + UInt64.ofNat p) := by
  induction schedule generalizing counter p with
  | nil => simp [draws]
  | cons caller rest ih =>
    cases p with
    | zero => simp [draws, nextTag]
    | succ p =>
      rw [draws, getElem?_cons_succ, getElem?_cons_succ, ih, nextTag]
      congr 1
      funext caller
      rw [show UInt64.ofNat (p + 1) = 1 + UInt64.ofNat p by rw [UInt64.ofNat_add, add_comm]; rfl, add_assoc]

theorem Accepted.tags {schedule places : List Nat} {caller : Nat} (h : Accepted schedule caller places)
    (counter : UInt64) : tagsAt counter schedule places = places.map fun p => counter + UInt64.ofNat p := by
  have hdrawn : ∀ p ∈ places, ((draws counter schedule)[p]?).map Prod.snd = some (counter + UInt64.ofNat p) := by
    intro p hp
    rw [draws_getElem, h.mine p hp]
    rfl
  rw [tagsAt, filterMap_congr hdrawn, filterMap_eq_map']

theorem indexOf_add (counter : UInt64) (p : Nat) :
    (indexOf (counter + UInt64.ofNat p)).val = (counter.toNat + p) % slotCount := by
  refine (and_slotMask _).trans ?_
  rw [UInt64.toNat_add, UInt64.toNat_ofNat']
  unfold slotCount
  omega

theorem indexOf_ne_iff (counter : UInt64) {p q : Nat} (h : p < q) :
    indexOf (counter + UInt64.ofNat p) ≠ indexOf (counter + UInt64.ofNat q) ↔ (q - p) % slotCount ≠ 0 := by
  rw [ne_eq, Fin.ext_iff, indexOf_add, indexOf_add]
  unfold slotCount
  omega

/-- An accepted batch has slots of its own for all its ops, and claims them on a table with nothing in flight,
just when no two of its draws are a multiple of the table's width apart in the order of all draws. -/
theorem accepted_batch_claims_iff {schedule places : List Nat} {caller : Nat} (h : Accepted schedule caller places)
    (counter : UInt64) {Outcome : Type} (slots : Slots Outcome) (hfree : ∀ i, (slots i).state = .free) :
    ((tagsAt counter schedule places).Pairwise (fun a b => indexOf a ≠ indexOf b) ∧
      (slots.claimAll (tagsAt counter schedule places)).1 = true) ↔
      places.Pairwise fun p q => (q - p) % slotCount ≠ 0 := by
  have hall : ∀ tag ∈ tagsAt counter schedule places, slots.isFree tag = true := by
    intro tag _
    simp [Slots.isFree, hfree]
  rw [Slots.claimAll, Slots.claimWholeFrom_iff, and_iff_right hall, and_self, h.tags, pairwise_map]
  exact ⟨fun hp => (hp.and h.ordered).imp fun hpair => (indexOf_ne_iff counter hpair.2).mp hpair.1,
    fun hp => (hp.and h.ordered).imp fun hpair => (indexOf_ne_iff counter hpair.2).mpr hpair.1⟩

/-- Two ops drawn one behind the other are claimed. -/
theorem accepted_pair_claims :
    Accepted [0, 0] 0 [0, 1] ∧ ((Slots.fresh : Slots Unit).claimAll (tagsAt 0 [0, 0] [0, 1])).1 = true := by
  have h : Accepted [0, 0] 0 [0, 1] := ⟨by decide, by decide, by decide⟩
  exact ⟨h, ((accepted_batch_claims_iff h 0 Slots.fresh fun _ => rfl).mpr (by decide)).2⟩

/-- A caller draws one tag, others draw a table less one, and the caller draws its second: its batch of two is
accepted and never claimed. -/
theorem accepted_pair_never_claims :
    Accepted (0 :: replicate 511 1 ++ [0]) 0 [0, 512] ∧
      ¬ (tagsAt 0 (0 :: replicate 511 1 ++ [0]) [0, 512]).Pairwise (fun a b => indexOf a ≠ indexOf b) ∧
      ((Slots.fresh : Slots Unit).claimAll (tagsAt 0 (0 :: replicate 511 1 ++ [0]) [0, 512])).1 = false := by
  have htags : tagsAt 0 (0 :: replicate 511 1 ++ [0]) [0, 512] = [0, 512] := by decide +kernel
  rw [htags]
  exact ⟨⟨by decide +kernel, by decide, by decide⟩, by decide, by decide⟩

end Reel.Io
