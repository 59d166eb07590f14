import Reel.Io.Claims
import Reel.Library.Runs

/-!
The life of one op at the slot table, from its claim to the completion its caller takes or the table discards. A step
is one hold of a slot's lock, by the caller of a tag or by whoever files completions, and the steps of all tags
interleave at will.
-/

set_option autoImplicit false

namespace Reel.Io

namespace Slots
variable {Outcome : Type}

def discards (slots : Slots Outcome) (completion : Completion Outcome) : List (Completion Outcome) :=
  let slot := slots (indexOf completion.tag)
  if slot.tag = completion.tag ∧ slot.state = .flight then [] else [completion]

end Slots

/-- Where the caller of a tag stands. -/
inductive Caller (Outcome : Type) where
  | idle
  | claimed
  | waiting
  | taken (completion : Completion Outcome)
  | left

/-- One tag's op: its caller, whether the backend still has it, what was filed under its tag, and what was discarded. -/
structure Story (Outcome : Type) where
  caller : Caller Outcome
  pending : Bool
  filed : List (Completion Outcome)
  discarded : List (Completion Outcome)

/-- Nothing came of the op yet. -/
def Story.Silent {Outcome : Type} (story : Story Outcome) : Prop := story.filed = [] ∧ story.discarded = []

structure Flights (Outcome : Type) where
  slots : Slots Outcome
  story : Tag → Story Outcome

inductive FlightStep (Outcome : Type) where
  | claim (tag : Tag)
  /-- A batch that found a slot taken gives back one it had claimed. -/
  | rollback (tag : Tag)
  /-- The submission failed, so the claim is given back. -/
  | release (tag : Tag)
  | submit (tag : Tag)
  | file (tag : Tag) (outcome : Outcome)
  | take (tag : Tag)
  | poll (tag : Tag) (waker : Waker)
  | drop (tag : Tag)
  /-- A lone wait that has its completion orphans its tag as it goes. -/
  | orphan (tag : Tag)

namespace Flights
variable {Outcome : Type}

def fresh : Flights Outcome := ⟨Slots.fresh, fun _ => ⟨.idle, false, [], []⟩⟩

def put (s : Flights Outcome) (tag : Tag) (slots : Slots Outcome) (story : Story Outcome) : Flights Outcome :=
  ⟨slots, Function.update s.story tag story⟩

def handed (s : Flights Outcome) (tag : Tag) (taken : Option (Completion Outcome) × Slots Outcome) : Flights Outcome :=
  s.put tag taken.2 { s.story tag with caller := taken.1.elim .waiting .taken }

def step (s : Flights Outcome) : FlightStep Outcome → Option (Flights Outcome)
  | .claim tag =>
    match (s.story tag).caller with
    | .idle =>
      let claimed := s.slots.tryClaim tag
      some (s.put tag claimed.2 { s.story tag with caller := if claimed.1 then .claimed else .idle })
    | _ => none
  | .rollback tag =>
    match (s.story tag).caller with
    | .claimed => some (s.put tag (s.slots.clear tag) { s.story tag with caller := .idle })
    | _ => none
  | .release tag =>
    match (s.story tag).caller with
    | .claimed => some (s.put tag (s.slots.release tag) { s.story tag with caller := .idle })
    | _ => none
  | .submit tag =>
    match (s.story tag).caller with
    | .claimed => some (s.put tag s.slots { s.story tag with caller := .waiting, pending := true })
    | _ => none
  | .file tag outcome =>
    let story := s.story tag
    let completion : Completion Outcome := ⟨tag, outcome⟩
    if story.pending then
      some (s.put tag (SlotTable.land s.slots completion).2.2
        { story with
          pending := false
          filed := story.filed ++ [completion]
          discarded := story.discarded ++ s.slots.discards completion })
    else none
  | .take tag =>
    match (s.story tag).caller with
    | .waiting => some (s.handed tag (s.slots.take tag))
    | _ => none
  | .poll tag waker =>
    match (s.story tag).caller with
    | .waiting => some (s.handed tag (s.slots.takeOrSeat tag waker))
    | _ => none
  | .drop tag =>
    let story := s.story tag
    match story.caller with
    | .waiting =>
      let orphaned := s.slots.orphan tag
      some (s.put tag orphaned.2
        { story with caller := .left, discarded := story.discarded ++ orphaned.1.toList })
    | .taken completion =>
      some (s.put tag s.slots { story with caller := .left, discarded := story.discarded ++ [completion] })
    | _ => none
  | .orphan tag =>
    let story := s.story tag
    match story.caller with
    | .taken _ =>
      let orphaned := s.slots.orphan tag
      some (s.put tag orphaned.2 { story with discarded := story.discarded ++ orphaned.1.toList })
    | _ => none

/-- The slot is the tag's, in this state. -/
def Mine (slot : Slot Outcome) (tag : Tag) (state : SlotState) : Prop := slot.tag = tag ∧ slot.state = state

/-- Whatever the slot holds is not the tag's. -/
def Others (slot : Slot Outcome) (tag : Tag) : Prop := slot.tag = tag → slot.state = .free

/-- A tag's story goes with what its slot shows. -/
def Lived (slot : Slot Outcome) (tag : Tag) (story : Story Outcome) : Prop :=
  match story.caller with
  | .idle => story.pending = false ∧ Others slot tag ∧ story.Silent
  | .claimed => story.pending = false ∧ Mine slot tag .flight ∧ story.Silent
  | .waiting =>
    (story.pending = true ∧ Mine slot tag .flight ∧ story.Silent) ∨
    ∃ completion, story.pending = false ∧ completion.tag = tag ∧ Mine slot tag .landed ∧
      slot.completion = some completion ∧ story.filed = [completion] ∧ story.discarded = []
  | .taken completion => story.pending = false ∧ completion.tag = tag ∧ Others slot tag ∧
      story.filed = [completion] ∧ story.discarded = []
  | .left =>
    (story.pending = true ∧ Mine slot tag .orphan ∧ story.Silent) ∨
    ∃ completion, story.pending = false ∧ completion.tag = tag ∧ Others slot tag ∧
      story.filed = [completion] ∧ story.discarded = [completion]

structure Inv (s : Flights Outcome) : Prop where
  addressed : ∀ i, (s.slots i).state ≠ .free → indexOf (s.slots i).tag = i
  lived : ∀ tag, Lived (s.slots (indexOf tag)) tag (s.story tag)

variable {s s' : Flights Outcome} {tag : Tag} {slot slot' : Slot Outcome} {story : Story Outcome}

theorem Others.of_free (h : slot.state = .free) : Others slot tag := fun _ => h

theorem Others.orphan {slots : Slots Outcome} (h : Others (slots (indexOf tag)) tag) : slots.orphan tag = (none, slots) := by
  unfold Slots.orphan
  split
  · rfl
  · next hmine => rw [h (not_not.mp hmine)]

theorem Lived.beside (h : Lived slot tag story) (hwas : Others slot tag) (hnow : Others slot' tag) :
    Lived slot' tag story := by
  have hnot : ∀ state, state ≠ .free → ¬ Mine slot tag state := fun state hstate hmine =>
    hstate (hmine.2.symm.trans (hwas hmine.1))
  unfold Lived at h ⊢
  split at h
  · exact ⟨h.1, hnow, h.2.2⟩
  · exact absurd h.2.1 (hnot _ (by decide))
  · rcases h with h | ⟨_, _, _, hmine, _⟩
    · exact absurd h.2.1 (hnot _ (by decide))
    · exact absurd hmine (hnot _ (by decide))
  · exact ⟨h.1, h.2.1, hnow, h.2.2.2⟩
  · rcases h with h | ⟨completion, hpending, htag, -, hlog⟩
    · exact absurd h.2.1 (hnot _ (by decide))
    · exact .inr ⟨completion, hpending, htag, hnow, hlog⟩

section
variable (h : Inv s)
include h

theorem Inv.keep (hlived : Lived (s.slots (indexOf tag)) tag story) : Inv (s.put tag s.slots story) := by
  refine ⟨h.addressed, fun other => ?_⟩
  by_cases hother : other = tag
  · subst hother
    simpa [put] using hlived
  · simpa [put, Function.update_of_ne hother] using h.lived other

theorem Inv.set (hwas : (s.slots (indexOf tag)).state = .free ∨ (s.slots (indexOf tag)).tag = tag)
    (htag : slot.tag = tag ∨ slot.state = .free) (hlived : Lived slot tag story) :
    Inv (s.put tag (s.slots.set (indexOf tag) slot) story) := by
  refine ⟨fun i hi => ?_, fun other => ?_⟩
  · simp only [put, Slots.set] at hi ⊢
    split
    · next heq =>
      rw [if_pos heq] at hi
      rw [htag.resolve_right hi, heq]
    · next hne =>
      rw [if_neg hne] at hi
      exact h.addressed i hi
  · by_cases hother : other = tag
    · subst hother
      simpa [put, Slots.set] using hlived
    · simp only [put, Function.update_of_ne hother, Slots.set]
      split
      · next heq =>
        have hprior := h.lived other
        rw [heq] at hprior
        refine hprior.beside (fun hmine => ?_) fun hmine => ?_
        · exact hwas.resolve_right fun htag => hother (hmine.symm.trans htag)
        · exact htag.resolve_left fun htag => hother (hmine.symm.trans htag)
      · exact h.lived other

theorem Inv.claim (hcaller : (s.story tag).caller = .idle) :
    Inv (s.put tag (s.slots.tryClaim tag).2
      { s.story tag with caller := if (s.slots.tryClaim tag).1 then .claimed else .idle }) := by
  have hlived := h.lived tag
  simp only [Lived, hcaller] at hlived
  unfold Slots.tryClaim
  split
  · next hfree =>
    have hstate : (s.slots (indexOf tag)).state = .free := by simpa [Slots.isFree] using hfree
    exact h.set (.inl hstate) (.inl rfl) ⟨hlived.1, ⟨rfl, rfl⟩, hlived.2.2⟩
  · exact h.keep hlived

theorem Inv.giveBack (hcaller : (s.story tag).caller = .claimed) {slots : Slots Outcome}
    (hslots : slots = s.slots.clear tag ∨ slots = s.slots.release tag) :
    Inv (s.put tag slots { s.story tag with caller := .idle }) := by
  have hlived := h.lived tag
  simp only [Lived, hcaller] at hlived
  obtain ⟨hpending, hmine, hsilent⟩ := hlived
  have hclear : slots = s.slots.clear tag := by
    rcases hslots with hclear | hrelease
    · exact hclear
    · simp [hrelease, Slots.release, Slots.isMine, hmine.1, hmine.2]
  rw [hclear]
  exact h.set (.inr hmine.1) (.inr rfl) ⟨hpending, .of_free rfl, hsilent⟩

/-- A completion lands in its flight's slot, or finds its caller gone. -/
theorem Inv.file (hpending : (s.story tag).pending = true) (outcome : Outcome) :
    Inv (s.put tag (SlotTable.land s.slots ⟨tag, outcome⟩).2.2
      { s.story tag with
        pending := false
        filed := (s.story tag).filed ++ [⟨tag, outcome⟩]
        discarded := (s.story tag).discarded ++ s.slots.discards ⟨tag, outcome⟩ }) := by
  have hlived := h.lived tag
  unfold Lived at hlived
  split at hlived
  · rw [hpending] at hlived; cases hlived.1
  · rw [hpending] at hlived; cases hlived.1
  · next hcaller =>
    rcases hlived with ⟨-, hmine, hfiled, hdiscarded⟩ | ⟨_, hnot, -⟩
    · have hland : (SlotTable.land s.slots ⟨tag, outcome⟩).2.2 = s.slots.fill ⟨tag, outcome⟩ := by
        simp [SlotTable.land, hmine.1, hmine.2]
      have hkept : s.slots.discards ⟨tag, outcome⟩ = [] := by simp [Slots.discards, hmine.1, hmine.2]
      rw [hland, hkept, hfiled, hdiscarded]
      refine h.set (.inr hmine.1) (.inl hmine.1) ?_
      simp only [Lived, hcaller]
      exact .inr ⟨_, trivial, rfl, ⟨hmine.1, rfl⟩, rfl, rfl, rfl⟩
    · rw [hpending] at hnot; cases hnot
  · rw [hpending] at hlived; cases hlived.1
  · next hcaller =>
    rcases hlived with ⟨-, hmine, hfiled, hdiscarded⟩ | ⟨_, hnot, -⟩
    · have hland : (SlotTable.land s.slots ⟨tag, outcome⟩).2.2 = s.slots.clear tag := by
        simp [SlotTable.land, hmine.1, hmine.2]
      have hgone : s.slots.discards ⟨tag, outcome⟩ = [⟨tag, outcome⟩] := by simp [Slots.discards, hmine.2]
      rw [hland, hgone, hfiled, hdiscarded]
      refine h.set (.inr hmine.1) (.inr rfl) ?_
      simp only [Lived, hcaller]
      exact .inr ⟨_, trivial, rfl, .of_free rfl, rfl, rfl⟩
    · rw [hpending] at hnot; cases hnot

theorem Inv.handed (hcaller : (s.story tag).caller = .waiting)
    {taken : Option (Completion Outcome) × Slots Outcome}
    (htaken : taken = s.slots.take tag ∨ ∃ waker, taken = s.slots.takeOrSeat tag waker) : Inv (s.handed tag taken) := by
  have hlived := h.lived tag
  simp only [Lived, hcaller] at hlived
  rcases hlived with ⟨hpending, hmine, hsilent⟩ | ⟨completion, hpending, htag, hmine, hheld, hlog⟩
  · have hstays : Lived (s.slots (indexOf tag)) tag { s.story tag with caller := .waiting } :=
      .inl ⟨hpending, hmine, hsilent⟩
    rcases htaken with rfl | ⟨waker, rfl⟩
    · have hnone : s.slots.take tag = (none, s.slots) := by simp [Slots.take, Slots.isMine, hmine.2]
      rw [hnone]
      exact h.keep hstays
    · have hseat : s.slots.takeOrSeat tag waker = (none, s.slots.seat tag waker) := by
        simp [Slots.takeOrSeat, hmine.1, hmine.2]
      rw [hseat]
      exact h.set (.inr hmine.1) (.inl hmine.1) (.inl ⟨hpending, hmine, hsilent⟩)
  · have hsome : taken = (some completion, s.slots.clear tag) := by
      rcases htaken with rfl | ⟨waker, rfl⟩
      · simp [Slots.take, Slots.isMine, hmine.1, hmine.2, hheld]
      · simp [Slots.takeOrSeat, hmine.1, hmine.2, hheld]
    rw [hsome]
    exact h.set (.inr hmine.1) (.inr rfl) ⟨hpending, htag, .of_free rfl, hlog⟩

theorem Inv.drop (hcaller : (s.story tag).caller = .waiting) :
    Inv (s.put tag (s.slots.orphan tag).2
      { s.story tag with
        caller := .left
        discarded := (s.story tag).discarded ++ (s.slots.orphan tag).1.toList }) := by
  have hlived := h.lived tag
  simp only [Lived, hcaller] at hlived
  rcases hlived with ⟨hpending, hmine, hfiled, hdiscarded⟩ | ⟨completion, hpending, htag, hmine, hheld, hfiled, hdiscarded⟩
  · have horphan : s.slots.orphan tag = (none, s.slots.abandon tag) := by
      simp [Slots.orphan, hmine.1, hmine.2]
    rw [horphan]
    refine h.set (.inr hmine.1) (.inl hmine.1) (.inl ⟨hpending, ⟨hmine.1, rfl⟩, hfiled, ?_⟩)
    simp [hdiscarded]
  · have horphan : s.slots.orphan tag = (some completion, s.slots.clear tag) := by
      simp [Slots.orphan, hmine.1, hmine.2, hheld]
    rw [horphan]
    refine h.set (.inr hmine.1) (.inr rfl) (.inr ⟨completion, hpending, htag, .of_free rfl, hfiled, ?_⟩)
    simp [hdiscarded]

theorem Inv.step {a : FlightStep Outcome} (hs : s.step a = some s') : Inv s' := by
  cases a with
  | claim tag =>
    simp only [Flights.step] at hs
    split at hs
    · next hcaller => exact Option.some.inj hs ▸ h.claim hcaller
    · cases hs
  | rollback tag =>
    simp only [Flights.step] at hs
    split at hs
    · next hcaller => exact Option.some.inj hs ▸ h.giveBack hcaller (.inl rfl)
    · cases hs
  | release tag =>
    simp only [Flights.step] at hs
    split at hs
    · next hcaller => exact Option.some.inj hs ▸ h.giveBack hcaller (.inr rfl)
    · cases hs
  | submit tag =>
    simp only [Flights.step] at hs
    split at hs
    · next hcaller =>
      have hlived := h.lived tag
      simp only [Lived, hcaller] at hlived
      exact Option.some.inj hs ▸ h.keep (.inl ⟨rfl, hlived.2⟩)
    · cases hs
  | file tag outcome =>
    simp only [Flights.step] at hs
    split at hs
    · next hpending => exact Option.some.inj hs ▸ h.file hpending outcome
    · cases hs
  | take tag =>
    simp only [Flights.step] at hs
    split at hs
    · next hcaller => exact Option.some.inj hs ▸ h.handed hcaller (.inl rfl)
    · cases hs
  | poll tag waker =>
    simp only [Flights.step] at hs
    split at hs
    · next hcaller => exact Option.some.inj hs ▸ h.handed hcaller (.inr ⟨waker, rfl⟩)
    · cases hs
  | drop tag =>
    simp only [Flights.step] at hs
    split at hs
    · next hcaller => exact Option.some.inj hs ▸ h.drop hcaller
    · next completion hcaller =>
      have hlived := h.lived tag
      simp only [Lived, hcaller] at hlived
      obtain ⟨hpending, htag, hothers, hfiled, hdiscarded⟩ := hlived
      refine Option.some.inj hs ▸ h.keep (.inr ⟨completion, hpending, htag, hothers, hfiled, ?_⟩)
      simp [hdiscarded]
    · cases hs
  | orphan tag =>
    simp only [Flights.step] at hs
    split at hs
    · next completion hcaller =>
      have hlived := h.lived tag
      simp only [Lived, hcaller] at hlived
      rw [hlived.2.2.1.orphan, Option.toList_none, List.append_nil] at hs
      exact Option.some.inj hs ▸ h.keep (h.lived tag)
    · cases hs

end

/-- What became of a completion that was filed. -/
theorem Lived.fate (h : Lived slot tag story) :
    story.Silent ∨ ∃ completion, completion.tag = tag ∧ story.filed = [completion] ∧
      (story.caller = .waiting ∧ Mine slot tag .landed ∧ slot.completion = some completion ∧ story.discarded = [] ∨
        story.caller = .taken completion ∧ story.discarded = [] ∨
        story.caller = .left ∧ story.discarded = [completion]) := by
  unfold Lived at h
  split at h
  · exact .inl h.2.2
  · exact .inl h.2.2
  · next hcaller =>
    rcases h with h | ⟨completion, -, htag, hmine, hheld, hfiled, hdiscarded⟩
    · exact .inl h.2.2
    · exact .inr ⟨completion, htag, hfiled, .inl ⟨hcaller, hmine, hheld, hdiscarded⟩⟩
  · next completion hcaller =>
    obtain ⟨-, htag, -, hfiled, hdiscarded⟩ := h
    exact .inr ⟨completion, htag, hfiled, .inr (.inl ⟨hcaller, hdiscarded⟩)⟩
  · next hcaller =>
    rcases h with h | ⟨completion, -, htag, -, hfiled, hdiscarded⟩
    · exact .inl h.2.2
    · exact .inr ⟨completion, htag, hfiled, .inr (.inr ⟨hcaller, hdiscarded⟩)⟩

theorem Lived.others (h : Lived slot tag story) (hpending : story.pending = false) (hclaimed : story.caller ≠ .claimed)
    (hwaiting : story.caller ≠ .waiting) : Others slot tag := by
  unfold Lived at h
  split at h
  · exact h.2.1
  · next hcaller => exact absurd hcaller hclaimed
  · next hcaller => exact absurd hcaller hwaiting
  · exact h.2.2.1
  · rcases h with ⟨hnot, -⟩ | ⟨_, -, -, hothers, -⟩
    · rw [hpending] at hnot
      cases hnot
    · exact hothers

theorem inv_fresh : Inv (fresh : Flights Outcome) :=
  ⟨fun _ hi => absurd rfl hi, fun _ => ⟨rfl, .of_free rfl, rfl, rfl⟩⟩

end Flights

end Reel.Io
