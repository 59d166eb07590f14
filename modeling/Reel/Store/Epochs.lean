import Reel.Library.Runs
import Reel.Library.Threads

/-!
Writers counted from draw to publish by epoch, and the floor a prune keeps below them. Every load, add
and store of the shared words is a step of its own, so any number of writers and floor readers
interleave between them.
-/

set_option autoImplicit false

open List Option

namespace Reel

def slots : Nat := 3

def mostCounted : Nat := 2 ^ 30 - 1

def slotOf (epoch : Nat) : Nat := epoch % slots

structure DrawTicket where
  word : Nat
  deriving DecidableEq, Repr

namespace DrawTicket

def new (slot count : Nat) : DrawTicket := ⟨(count <<< 2 ||| slot) % 2 ^ 32⟩

def slot (ticket : DrawTicket) : Nat := ticket.word &&& 3

def count (ticket : DrawTicket) : Nat := ticket.word >>> 2

section
variable {slot count : Nat} (hslot : slot < slots) (hcount : count ≤ mostCounted)
include hslot hcount

theorem new_word :
    (new slot count).word = 4 * count + slot := by
  unfold slots at hslot
  unfold mostCounted at hcount
  have hor : count <<< 2 ||| slot = 4 * count + slot := by
    rw [Nat.shiftLeft_eq, Nat.mul_comm, ← Nat.two_pow_add_eq_or_of_lt (by omega)]
  unfold new
  rw [hor]
  exact Nat.mod_eq_of_lt (by omega)

theorem slot_new :
    (new slot count).slot = slot := by
  have hand : ∀ word : Nat, word &&& 3 = word % 4 := fun word => Nat.and_two_pow_sub_one_eq_mod word 2
  unfold DrawTicket.slot
  rw [new_word hslot hcount, hand]
  unfold slots at hslot
  omega

theorem count_new :
    (new slot count).count = count := by
  unfold DrawTicket.count
  rw [new_word hslot hcount, Nat.shiftRight_eq_div_pow]
  unfold slots at hslot
  omega

end

end DrawTicket

/-- Writers out, by the epoch each one drew in. -/
structure Drawn where
  epoch : Nat
  out : Nat → Nat
  starts : Nat → Nat

/-- Where a writer stands: in the loop of `enter`, out with its ticket and the numbers it has drawn,
or gone. -/
inductive WriterStage where
  | enter
  | seen (epoch : Nat)
  | counted (epoch : Nat)
  | stale (epoch : Nat)
  | out (ticket : DrawTicket) (numbers : List Nat)
  | left
  deriving DecidableEq, Repr

structure DrawWriter where
  count : Nat
  stage : WriterStage
  deriving DecidableEq, Repr

/-- Where the holder of the starts' lock stands in `floor`, with the rounds of its loop still to go. -/
inductive FloorStage where
  | unlocked
  | top (rounds : Nat)
  | looked (rounds epoch : Nat)
  | empty (rounds epoch : Nat)
  | read (rounds epoch next : Nat)
  | begun (rounds epoch : Nat)
  | answer (epoch : Nat)
  deriving DecidableEq, Repr

/-- The gauge, the sequence counter, the writers and the floor's holder. `floors` keeps what every
call has returned, newest first, which no step reads. -/
structure Epochs where
  drawn : Drawn
  counter : Nat
  writers : List DrawWriter
  floor : FloorStage
  floors : List Nat

inductive EpochStep where
  | arrive (count : Nat)
  | enter (writer : Nat)
  | draw (writer amount : Nat)
  | publish (writer : Nat)
  | leave (writer : Nat)
  | floor
  deriving DecidableEq, Repr

namespace Epochs

def start (next : Nat) : Epochs := ⟨⟨0, fun _ => 0, fun _ => 0⟩, next, [], .unlocked, []⟩

def setWriter (s : Epochs) (i : Nat) (writer : DrawWriter) : Epochs :=
  { s with writers := s.writers.set i writer }

def enter (s : Epochs) (i : Nat) (writer : DrawWriter) : Option Epochs :=
  match writer.stage with
  | .enter => some (s.setWriter i { writer with stage := .seen s.drawn.epoch })
  | .seen epoch =>
    let slot := slotOf epoch
    let out := Function.update s.drawn.out slot (s.drawn.out slot + writer.count)
    some ({ s with drawn := { s.drawn with out } }.setWriter i { writer with stage := .counted epoch })
  | .counted epoch =>
    -- an advance between the two reads may have found the slot empty
    if s.drawn.epoch = epoch then
      some (s.setWriter i { writer with stage := .out (.new (slotOf epoch) writer.count) [] })
    else some (s.setWriter i { writer with stage := .stale epoch })
  | .stale epoch =>
    let slot := slotOf epoch
    let out := Function.update s.drawn.out slot (s.drawn.out slot - writer.count)
    some ({ s with drawn := { s.drawn with out } }.setWriter i { writer with stage := .enter })
  | .out _ _ | .left => none

def run (s : Epochs) (amount : Nat) : List Nat := (range amount).map (s.counter + ·)

def draw (s : Epochs) (i : Nat) (writer : DrawWriter) (amount : Nat) : Option Epochs :=
  match writer.stage with
  | .out ticket numbers =>
    some ({ s with counter := s.counter + amount }.setWriter i
      { writer with stage := .out ticket (numbers ++ s.run amount) })
  | _ => none

def leave (s : Epochs) (i : Nat) (writer : DrawWriter) : Option Epochs :=
  match writer.stage with
  | .out ticket _ =>
    let out := Function.update s.drawn.out ticket.slot (s.drawn.out ticket.slot - ticket.count)
    some ({ s with drawn := { s.drawn with out } }.setWriter i { writer with stage := .left })
  | _ => none

def floorStep (s : Epochs) : Epochs :=
  match s.floor with
  | .unlocked => { s with floor := .top 2 }
  | .top 0 => { s with floor := .answer s.drawn.epoch }
  | .top (rounds + 1) => { s with floor := .looked rounds s.drawn.epoch }
  | .looked rounds epoch =>
    if s.drawn.out (slotOf (epoch + slots - 1)) ≠ 0 then { s with floor := .top 0 }
    else { s with floor := .empty rounds epoch }
  | .empty rounds epoch => { s with floor := .read rounds epoch s.counter }
  | .read rounds epoch next =>
    let starts := Function.update s.drawn.starts (slotOf (epoch + 1)) next
    { s with drawn := { s.drawn with starts }, floor := .begun rounds epoch }
  | .begun rounds epoch => { s with drawn := { s.drawn with epoch := epoch + 1 }, floor := .top rounds }
  | .answer epoch =>
    { s with floor := .unlocked, floors := s.drawn.starts (slotOf (epoch + slots - 1)) :: s.floors }

/-- A writer's count is from one to the most a ticket holds. -/
def step (s : Epochs) : EpochStep → Option Epochs
  | .arrive count =>
    if 1 ≤ count ∧ count ≤ mostCounted then
      some { s with writers := s.writers ++ [⟨count, .enter⟩] }
    else none
  | .enter i => s.writers[i]?.bind (s.enter i)
  | .draw i amount => s.writers[i]?.bind fun writer => s.draw i writer amount
  | .publish i => s.writers[i]?.bind fun writer =>
    match writer.stage with
    | .out _ _ => some s
    | _ => none
  | .leave i => s.writers[i]?.bind (s.leave i)
  | .floor => some s.floorStep

def issued (s : Epochs) (a : EpochStep) : List Nat :=
  match a with
  | .draw _ amount => if (s.step a).isSome then s.run amount else []
  | _ => []

end Epochs

def DrawWriter.held (writer : DrawWriter) : List Nat :=
  match writer.stage with
  | .out _ numbers => numbers
  | _ => []

theorem slotOf_lt (epoch : Nat) : slotOf epoch < slots := Nat.mod_lt _ (by decide)

def DrawWriter.inSlot (slot : Nat) (writer : DrawWriter) : Nat :=
  match writer.stage with
  | .counted epoch | .stale epoch => if slotOf epoch = slot then writer.count else 0
  | .out ticket _ => if ticket.slot = slot then writer.count else 0
  | .enter | .seen _ | .left => 0

namespace Epochs
open Threads

/-- A writer out was counted in the epoch or the one before it, and its numbers were drawn since that
epoch's start. -/
structure WriterFits (s : Epochs) (writer : DrawWriter) : Prop where
  count : 1 ≤ writer.count ∧ writer.count ≤ mostCounted
  seen : ∀ epoch, writer.stage = .seen epoch ∨ writer.stage = .counted epoch ∨ writer.stage = .stale epoch →
    epoch ≤ s.drawn.epoch
  ticket : ∀ ticket numbers, writer.stage = .out ticket numbers →
    (ticket.slot = slotOf s.drawn.epoch ∨ ticket.slot = slotOf (s.drawn.epoch + 2)) ∧
    ticket.count = writer.count ∧ ∀ n ∈ numbers, s.drawn.starts ticket.slot ≤ n

/-- No writer is out in the epoch before. -/
def BeforeEmpty (s : Epochs) : Prop :=
  ∀ writer ∈ s.writers, ∀ ticket numbers, writer.stage = .out ticket numbers →
    ticket.slot ≠ slotOf (s.drawn.epoch + 2)

/-- What the holder of the lock has found, while nobody else moves the epoch. -/
def FloorFits (s : Epochs) : Prop :=
  match s.floor with
  | .unlocked | .top _ => True
  | .looked _ epoch | .answer epoch => epoch = s.drawn.epoch
  | .empty _ epoch => epoch = s.drawn.epoch ∧ s.BeforeEmpty
  | .read _ epoch next => epoch = s.drawn.epoch ∧ s.BeforeEmpty ∧
      s.drawn.starts (slotOf s.drawn.epoch) ≤ next ∧ next ≤ s.counter
  | .begun _ epoch => epoch = s.drawn.epoch ∧ s.BeforeEmpty ∧
      s.drawn.starts (slotOf s.drawn.epoch) ≤ s.drawn.starts (slotOf (s.drawn.epoch + 1)) ∧
      s.drawn.starts (slotOf (s.drawn.epoch + 1)) ≤ s.counter

structure Fits (s : Epochs) : Prop where
  out : ∀ slot, s.drawn.out slot = total (DrawWriter.inSlot slot) s.writers
  writers : ∀ writer ∈ s.writers, s.WriterFits writer
  floor : s.FloorFits
  before : s.drawn.starts (slotOf (s.drawn.epoch + 2)) ≤ s.drawn.starts (slotOf s.drawn.epoch)
  current : s.drawn.starts (slotOf s.drawn.epoch) ≤ s.counter
  floors : ∀ floor ∈ s.floors, floor ≤ s.drawn.starts (slotOf (s.drawn.epoch + 2))
  sorted : s.floors.Pairwise (· ≥ ·)

variable {s s' : Epochs} {i : Nat} {writer : DrawWriter}

theorem fits_start (next : Nat) : (start next).Fits := by
  refine ⟨fun _ => rfl, by simp [start], trivial, le_refl _, Nat.zero_le _, by simp [start], ?_⟩
  simp [start]

theorem slotOf_apart (epoch : Nat) : slotOf (epoch + 1) ≠ slotOf epoch ∧
    slotOf (epoch + 1) ≠ slotOf (epoch + 2) ∧ slotOf epoch ≠ slotOf (epoch + 2) ∧
    slotOf (epoch + 1 + 2) = slotOf epoch ∧ slotOf (epoch + slots - 1) = slotOf (epoch + 2) := by
  unfold slotOf slots
  omega

def moved (s : Epochs) (i : Nat) (next : DrawWriter) (out : Nat → Nat) (counter : Nat) : Epochs :=
  { s with drawn := { s.drawn with out }, counter, writers := s.writers.set i next }

/-- A writer's own move: the counts follow it, and it is out only where it was or in the epoch's own
slot. -/
theorem Fits.moveWriter (h : s.Fits) (hi : s.writers[i]? = some writer) (next : DrawWriter) {out : Nat → Nat}
    {counter : Nat} (hcounter : s.counter ≤ counter)
    (hout : ∀ slot, out slot + writer.inSlot slot = s.drawn.out slot + next.inSlot slot)
    (hnext : s.WriterFits next)
    (hwas : ∀ ticket numbers, next.stage = .out ticket numbers →
      ticket.slot = slotOf s.drawn.epoch ∨ ∃ numbers', writer.stage = .out ticket numbers') :
    (s.moved i next out counter).Fits := by
  have hempty : s.BeforeEmpty → (s.moved i next out counter).BeforeEmpty := by
    intro hempty w hw ticket numbers hstage
    rcases mem_or_eq_of_mem_set hw with hold | rfl
    · exact hempty w hold ticket numbers hstage
    · rcases hwas ticket numbers hstage with hslot | ⟨numbers', hout'⟩
      · rw [hslot]
        exact (slotOf_apart _).2.2.1
      · exact hempty writer (mem_of_getElem? hi) ticket numbers' hout'
  refine ⟨?_, ?_, ?_, h.before, h.current.trans hcounter, h.floors, h.sorted⟩
  · intro slot
    have htotal := total_set (f := DrawWriter.inSlot slot) hi next
    have := h.out slot
    have := hout slot
    show out slot = total (DrawWriter.inSlot slot) (s.writers.set i next)
    omega
  · exact forall_set h.writers (fun w hw => ⟨hw.count, hw.seen, hw.ticket⟩)
      ⟨hnext.count, hnext.seen, hnext.ticket⟩
  · have hfloor := h.floor
    unfold FloorFits at hfloor
    unfold FloorFits moved
    cases hstage : s.floor with
    | unlocked => simp only
    | top rounds => simp only
    | looked rounds epoch => simpa only [hstage] using hfloor
    | answer epoch => simpa only [hstage] using hfloor
    | empty rounds epoch =>
      simp only [hstage] at hfloor ⊢
      exact ⟨hfloor.1, hempty hfloor.2⟩
    | read rounds epoch next =>
      simp only [hstage] at hfloor ⊢
      exact ⟨hfloor.1, hempty hfloor.2.1, hfloor.2.2.1, hfloor.2.2.2.trans hcounter⟩
    | begun rounds epoch =>
      simp only [hstage] at hfloor ⊢
      exact ⟨hfloor.1, hempty hfloor.2.1, hfloor.2.2.1, hfloor.2.2.2.trans hcounter⟩

theorem update_count (out : Nat → Nat) (at' slot n m : Nat) (h : n ≤ out at' + m) :
    Function.update out at' (out at' + m - n) slot + (if at' = slot then n else 0) =
      out slot + (if at' = slot then m else 0) := by
  by_cases heq : at' = slot
  · subst heq
    simp only [Function.update_self, if_true]
    omega
  · rw [Function.update_of_ne (Ne.symm heq), if_neg heq, if_neg heq]

section
variable (h : s.Fits) (hi : s.writers[i]? = some writer)
include h hi

theorem Fits.inSlot_le (slot : Nat) : writer.inSlot slot ≤ s.drawn.out slot := by
  rw [h.out]
  exact le_total (mem_of_getElem? hi)

theorem Fits.enter (hs : s.enter i writer = some s') : s'.Fits := by
  have hw := h.writers writer (mem_of_getElem? hi)
  have hin := h.inSlot_le hi
  obtain ⟨count, stage⟩ := writer
  cases stage with
  | enter =>
    cases hs
    exact h.moveWriter hi ⟨count, .seen s.drawn.epoch⟩ (le_refl _) (fun _ => rfl)
      ⟨hw.count, by simp, by simp⟩ (by simp)
  | seen epoch =>
    cases hs
    refine h.moveWriter hi ⟨count, .counted epoch⟩ (le_refl _) ?_ ⟨hw.count, ?_, by simp⟩ (by simp)
    · intro slot
      simpa [DrawWriter.inSlot] using update_count s.drawn.out (slotOf epoch) slot 0 count (Nat.zero_le _)
    · intro epoch' hepoch
      have : epoch = epoch' := by simpa using hepoch
      exact this ▸ hw.seen epoch (.inl rfl)
  | counted epoch =>
    simp only [Epochs.enter] at hs
    split at hs
    · rename_i hcurrent
      cases hs
      have hslot := DrawTicket.slot_new (slotOf_lt epoch) hw.count.2
      refine h.moveWriter hi ⟨count, .out (.new (slotOf epoch) count) []⟩ (le_refl _) ?_
        ⟨hw.count, by simp, ?_⟩ ?_
      · intro slot
        simp [DrawWriter.inSlot, hslot]
      · rintro ticket numbers ⟨⟩
        rw [hslot, hcurrent]
        exact ⟨.inl rfl, DrawTicket.count_new (slotOf_lt epoch) hw.count.2, by simp⟩
      · rintro ticket numbers ⟨⟩
        exact .inl (hcurrent ▸ hslot)
    · cases hs
      refine h.moveWriter hi ⟨count, .stale epoch⟩ (le_refl _) (fun _ => rfl) ⟨hw.count, ?_, by simp⟩ (by simp)
      intro epoch' hepoch
      have : epoch = epoch' := by simpa using hepoch
      exact this ▸ hw.seen epoch (.inr (.inl rfl))
  | stale epoch =>
    cases hs
    refine h.moveWriter hi ⟨count, .enter⟩ (le_refl _) ?_ ⟨hw.count, by simp, by simp⟩ (by simp)
    intro slot
    -- what it takes back is part of the slot's total
    have hback := hin (slotOf epoch)
    simp only [DrawWriter.inSlot, if_true] at hback
    simpa [DrawWriter.inSlot] using update_count s.drawn.out (slotOf epoch) slot count 0 hback
  | out ticket numbers => cases hs
  | left => cases hs

theorem Fits.draw {amount : Nat}
    (hs : s.draw i writer amount = some s') : s'.Fits := by
  have hw := h.writers writer (mem_of_getElem? hi)
  unfold Epochs.draw at hs
  split at hs
  · rename_i ticket numbers hstage
    cases hs
    obtain ⟨hslot, hcount, hnumbers⟩ := hw.ticket ticket numbers hstage
    refine h.moveWriter hi ⟨writer.count, .out ticket (numbers ++ s.run amount)⟩
      (Nat.le_add_right _ _) ?_ ⟨hw.count, by simp, ?_⟩ ?_
    · simp [DrawWriter.inSlot, hstage]
    · rintro _ _ ⟨⟩
      refine ⟨hslot, hcount, fun n hn => ?_⟩
      rcases mem_append.mp hn with hn | hn
      · exact hnumbers n hn
      · obtain ⟨k, -, rfl⟩ := mem_map.mp hn
        have := h.before
        have := h.current
        rcases hslot with hslot | hslot <;> rw [hslot] <;> omega
    · rintro _ _ ⟨⟩
      exact .inr ⟨numbers, hstage⟩
  · cases hs

theorem Fits.leave (hs : s.leave i writer = some s') : s'.Fits := by
  have hw := h.writers writer (mem_of_getElem? hi)
  unfold Epochs.leave at hs
  split at hs
  · rename_i ticket numbers hstage
    cases hs
    obtain ⟨-, hcount, -⟩ := hw.ticket ticket numbers hstage
    refine h.moveWriter hi ⟨writer.count, .left⟩ (le_refl _) ?_ ⟨hw.count, by simp, by simp⟩ (by simp)
    intro slot
    have hback := h.inSlot_le hi ticket.slot
    simp only [DrawWriter.inSlot, hstage, if_true] at hback ⊢
    rw [hcount]
    simpa using update_count s.drawn.out ticket.slot slot writer.count 0 hback
  · cases hs

end

theorem Fits.arrive (h : s.Fits) {count : Nat} (hcount : 1 ≤ count ∧ count ≤ mostCounted) :
    ({ s with writers := s.writers ++ [⟨count, .enter⟩] } : Epochs).Fits := by
  have hstage : ∀ w ∈ s.writers ++ [(⟨count, .enter⟩ : DrawWriter)], w ∈ s.writers ∨ w = ⟨count, .enter⟩ := by
    intro w hw
    simpa using hw
  have hempty : s.BeforeEmpty →
      ({ s with writers := s.writers ++ [⟨count, .enter⟩] } : Epochs).BeforeEmpty := by
    intro hempty w hw ticket numbers hout
    rcases hstage w hw with hw | rfl
    · exact hempty w hw ticket numbers hout
    · cases hout
  refine ⟨?_, ?_, ?_, h.before, h.current, h.floors, h.sorted⟩
  · intro slot
    show s.drawn.out slot = total (DrawWriter.inSlot slot) (s.writers ++ [⟨count, .enter⟩])
    rw [total_append, total_singleton, h.out slot]
    rfl
  · intro w hw
    rcases hstage w hw with hw | rfl
    · exact ⟨(h.writers w hw).count, (h.writers w hw).seen, (h.writers w hw).ticket⟩
    · exact ⟨hcount, by simp, by simp⟩
  · have hfloor := h.floor
    unfold FloorFits at hfloor ⊢
    cases hf : s.floor <;> simp only [hf] at hfloor ⊢
    case looked rounds epoch => exact hfloor
    case answer epoch => exact hfloor
    case empty rounds epoch => exact ⟨hfloor.1, hempty hfloor.2⟩
    case read rounds epoch next => exact ⟨hfloor.1, hempty hfloor.2.1, hfloor.2.2⟩
    case begun rounds epoch => exact ⟨hfloor.1, hempty hfloor.2.1, hfloor.2.2⟩

theorem Fits.beforeEmpty (h : s.Fits) (hzero : s.drawn.out (slotOf (s.drawn.epoch + 2)) = 0) :
    s.BeforeEmpty := by
  intro w hw ticket numbers hout heq
  have hin := le_total (f := DrawWriter.inSlot (slotOf (s.drawn.epoch + 2))) hw
  rw [← h.out, hzero] at hin
  have hcount := (h.writers w hw).count.1
  simp only [DrawWriter.inSlot, hout, if_pos heq] at hin
  omega

theorem Fits.begin (h : s.Fits) (hempty : s.BeforeEmpty) {starts : Nat → Nat} {rounds : Nat}
    (hkeep : ∀ slot, slot = slotOf s.drawn.epoch ∨ slot = slotOf (s.drawn.epoch + 2) →
      starts slot = s.drawn.starts slot)
    (hlow : s.drawn.starts (slotOf s.drawn.epoch) ≤ starts (slotOf (s.drawn.epoch + 1)))
    (hhigh : starts (slotOf (s.drawn.epoch + 1)) ≤ s.counter) :
    ({ s with drawn := { s.drawn with starts }, floor := .begun rounds s.drawn.epoch } : Epochs).Fits := by
  have hcurrent := hkeep _ (.inl rfl)
  have hbefore := hkeep _ (.inr rfl)
  refine ⟨h.out, ?_, ⟨rfl, hempty, hcurrent.trans_le hlow, hhigh⟩, ?_, ?_, ?_, h.sorted⟩
  · intro w hw
    refine ⟨(h.writers w hw).count, (h.writers w hw).seen, fun ticket numbers hout => ?_⟩
    obtain ⟨hslot, hcount, hn⟩ := (h.writers w hw).ticket ticket numbers hout
    exact ⟨hslot, hcount, fun n hin => (hkeep _ hslot).trans_le (hn n hin)⟩
  · exact hbefore.trans_le (h.before.trans_eq hcurrent.symm)
  · exact hcurrent.trans_le h.current
  · exact fun floor hfl => (h.floors floor hfl).trans_eq hbefore.symm

/-- The holder of the lock moves the epoch on only past an empty one, so a writer still out keeps its
start in one of the two slots the floor stays below. -/
theorem Fits.floorStep (h : s.Fits) : s.floorStep.Fits := by
  have hfloor := h.floor
  unfold FloorFits at hfloor
  obtain ⟨hnext, hthird, happart, hround, hbefore⟩ := slotOf_apart s.drawn.epoch
  have hstay : ∀ stage : FloorStage, ({ s with floor := stage } : Epochs).FloorFits →
      ({ s with floor := stage } : Epochs).Fits := fun stage hstage =>
    ⟨h.out, fun w hw => ⟨(h.writers w hw).count, (h.writers w hw).seen, (h.writers w hw).ticket⟩,
      hstage, h.before, h.current, h.floors, h.sorted⟩
  unfold Epochs.floorStep
  cases hf : s.floor with
  | unlocked => exact hstay _ trivial
  | top rounds =>
    cases rounds with
    | zero => exact hstay _ rfl
    | succ rounds => exact hstay _ rfl
  | looked rounds epoch =>
    simp only [hf] at hfloor
    subst hfloor
    simp only
    split
    · exact hstay _ trivial
    · rename_i hzero
      rw [hbefore, not_not] at hzero
      exact hstay _ ⟨rfl, h.beforeEmpty hzero⟩
  | empty rounds epoch =>
    simp only [hf] at hfloor
    exact hstay _ ⟨hfloor.1, hfloor.2, h.current, le_refl _⟩
  | read rounds epoch next =>
    simp only [hf] at hfloor
    obtain ⟨rfl, hempty, hlow, hhigh⟩ := hfloor
    refine h.begin hempty ?_ ?_ ?_
    · rintro slot (rfl | rfl)
      · exact Function.update_of_ne hnext.symm _ _
      · exact Function.update_of_ne hthird.symm _ _
    · rw [Function.update_self]
      exact hlow
    · rw [Function.update_self]
      exact hhigh
  | begun rounds epoch =>
    simp only [hf] at hfloor
    obtain ⟨rfl, hempty, hlow, hhigh⟩ := hfloor
    refine ⟨h.out, ?_, trivial, ?_, hhigh, ?_, h.sorted⟩
    · intro w hw
      refine ⟨(h.writers w hw).count, ?_, fun ticket numbers hout => ?_⟩
      · intro epoch hepoch
        exact ((h.writers w hw).seen epoch hepoch).trans (Nat.le_succ _)
      · obtain ⟨hslot, hcount, hn⟩ := (h.writers w hw).ticket ticket numbers hout
        have hcur := hslot.resolve_right (hempty w hw ticket numbers hout)
        exact ⟨.inr (hcur.trans hround.symm), hcount, hn⟩
    · show s.drawn.starts (slotOf (s.drawn.epoch + 1 + 2)) ≤ _
      rw [hround]
      exact hlow
    · intro floor hfl
      show floor ≤ s.drawn.starts (slotOf (s.drawn.epoch + 1 + 2))
      rw [hround]
      exact (h.floors floor hfl).trans h.before
  | answer epoch =>
    simp only [hf] at hfloor
    subst hfloor
    simp only [hbefore]
    refine ⟨h.out, fun w hw => ⟨(h.writers w hw).count, (h.writers w hw).seen, (h.writers w hw).ticket⟩,
      trivial, h.before, h.current, ?_, pairwise_cons.mpr ⟨h.floors, h.sorted⟩⟩
    intro floor hfl
    rcases mem_cons.mp hfl with rfl | hfl
    · exact le_refl _
    · exact h.floors floor hfl

theorem Fits.step (h : s.Fits) {a : EpochStep} (hs : s.step a = some s') : s'.Fits := by
  cases a with
  | arrive count =>
    simp only [Epochs.step] at hs
    split at hs
    · cases hs
      exact h.arrive ‹_›
    · cases hs
  | enter i =>
    obtain ⟨writer, hi, hs⟩ := bind_eq_some_iff.mp hs
    exact h.enter hi hs
  | draw i amount =>
    obtain ⟨writer, hi, hs⟩ := bind_eq_some_iff.mp hs
    exact h.draw hi hs
  | publish i =>
    obtain ⟨writer, -, hs⟩ := bind_eq_some_iff.mp hs
    split at hs
    · cases hs
      exact h
    · cases hs
  | leave i =>
    obtain ⟨writer, hi, hs⟩ := bind_eq_some_iff.mp hs
    exact h.leave hi hs
  | floor =>
    cases hs
    exact h.floorStep

theorem fits_run {next : Nat} {steps : List EpochStep} (hrun : Runs.run step (start next) steps = some s) :
    s.Fits :=
  Runs.holds_run Fits (fun _ _ _ h hs => h.step hs) (fits_start next) hrun

theorem Fits.floor_le (h : s.Fits) {floor : Nat} (hf : floor ∈ s.floors) :
    floor ≤ s.counter ∧ ∀ writer ∈ s.writers, ∀ n ∈ writer.held, floor ≤ n := by
  have hlow := h.floors floor hf
  have hbefore := h.before
  have hcurrent := h.current
  refine ⟨by omega, fun writer hw n hn => ?_⟩
  unfold DrawWriter.held at hn
  split at hn
  · rename_i ticket numbers hstage
    obtain ⟨hslot, -, hnumbers⟩ := (h.writers writer hw).ticket ticket numbers hstage
    have hge := hnumbers n hn
    rcases hslot with hslot | hslot <;> rw [hslot] at hge <;> omega
  · cases hn

theorem issued_ge {a : EpochStep} {n : Nat} (hn : n ∈ s.issued a) : s.counter ≤ n := by
  cases a with
  | draw i amount =>
    simp only [issued] at hn
    split at hn
    · obtain ⟨k, -, rfl⟩ := mem_map.mp hn
      exact Nat.le_add_right _ _
    · cases hn
  | arrive count => cases hn
  | enter i => cases hn
  | publish i => cases hn
  | leave i => cases hn
  | floor => cases hn

theorem floors_step {floor : Nat} {a : EpochStep} (hs : s.step a = some s') (hf : floor ∈ s.floors) :
    floor ∈ s'.floors := by
  cases a with
  | arrive count =>
    simp only [Epochs.step] at hs
    split at hs <;> cases hs
    exact hf
  | enter i =>
    obtain ⟨writer, -, hs⟩ := bind_eq_some_iff.mp hs
    unfold Epochs.enter at hs
    split at hs
    case h_3 => split at hs <;> cases hs <;> exact hf
    all_goals cases hs; try exact hf
  | draw i amount =>
    obtain ⟨writer, -, hs⟩ := bind_eq_some_iff.mp hs
    unfold Epochs.draw at hs
    split at hs <;> cases hs
    exact hf
  | publish i =>
    obtain ⟨writer, -, hs⟩ := bind_eq_some_iff.mp hs
    split at hs <;> cases hs
    exact hf
  | leave i =>
    obtain ⟨writer, -, hs⟩ := bind_eq_some_iff.mp hs
    unfold Epochs.leave at hs
    split at hs <;> cases hs
    exact hf
  | floor =>
    cases hs
    unfold Epochs.floorStep
    split
    case h_4 => split <;> exact hf
    case h_8 => exact mem_cons_of_mem _ hf
    all_goals exact hf

/-- The value a call of `floor` returns is never above a number drawn and not yet left, no number drawn
from then on is below it, and no later call returns a lower one. -/
theorem floor_settled (next : Nat) (steps rest : List EpochStep) (s s' : Epochs)
    (hrun : Runs.run step (start next) steps = some s) (hrest : Runs.run step s rest = some s') :
    (∀ floor ∈ s.floors, ∀ writer ∈ s.writers, ∀ n ∈ writer.held, floor ≤ n) ∧
    (∀ floor ∈ s.floors, ∀ a, ∀ n ∈ s'.issued a, floor ≤ n) ∧ s.floors.Pairwise (· ≥ ·) := by
  have hfits := fits_run hrun
  have hfits' : s'.Fits := Runs.holds_run Fits (fun _ _ _ h hs => h.step hs) hfits hrest
  refine ⟨fun floor hf => (hfits.floor_le hf).2, fun floor hf a n hn => ?_, hfits.sorted⟩
  have hkept : floor ∈ s'.floors :=
    Runs.holds_run (fun s => floor ∈ s.floors) (fun _ _ _ hf hs => floors_step hs hf) hf hrest
  exact (hfits'.floor_le hkept).1.trans (issued_ge hn)

/-- A call of `floor` on a quiet volume, then a writer that draws. -/
theorem floor_settled_quiet : ∃ s s',
    Runs.run step (start 1) (replicate 13 .floor) = some s ∧
    Runs.run step s [.arrive 1, .enter 0, .enter 0, .enter 0, .draw 0 1] = some s' ∧ s.floors = [1] ∧
    (∀ floor ∈ s.floors, ∀ a, ∀ n ∈ s'.issued a, floor ≤ n) :=
  ⟨_, _, rfl, rfl, rfl, (floor_settled 1 (replicate 13 .floor)
    [.arrive 1, .enter 0, .enter 0, .enter 0, .draw 0 1] _ _ rfl rfl).2.1⟩

/-- The floor of a quiet volume is the counter itself, so the next number drawn is not above it. -/
theorem next_draw_at_floor : ∃ s s', Runs.run step (start 1) (replicate 13 .floor) = some s ∧
    Runs.run step s [.arrive 1, .enter 0, .enter 0, .enter 0] = some s' ∧
    ¬ ∀ floor ∈ s.floors, ∀ a, ∀ n ∈ s'.issued a, floor < n :=
  ⟨_, _, rfl, rfl, fun h => absurd (h 1 (by decide) (.draw 0 1) 1 (by decide)) (lt_irrefl 1)⟩

end Epochs

end Reel
