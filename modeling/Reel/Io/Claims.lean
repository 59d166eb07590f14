import Reel.Io.Slots
import Reel.Library.Runs

/-!
Claims on the slot table, cut where each takes a lock: a claim asks for its slots one by one and gives them
back when one is taken, seats its waker between its two asks, and whoever frees a slot rings the seated
wakers.
-/

set_option autoImplicit false

open List

namespace Reel.Io

/-- Where a claim stands. The ask is its second once it has seated its waker. -/
inductive ClaimStage where
  | idle
  | entering (second : Bool)
  | asking (second : Bool) (taken : Nat)
  | undoing (second : Bool) (taken undone : Nat)
  | seating
  | unseating
  | pending
  /-- A bare `claim_all` that answered false. -/
  | refused
  | ready
  | dropped
  deriving DecidableEq, Repr

/-- A claim: a future that is polled, or a bare call of `claim_all`, which seats nobody. -/
structure Claim where
  wanted : List Tag
  bare : Bool
  /-- The waker of its last poll. -/
  waker : Waker
  /-- Whether that waker was rung since the poll began. -/
  rung : Bool
  stage : ClaimStage
  deriving DecidableEq, Repr

namespace Claim

def held (claim : Claim) : List (Fin slotCount) :=
  match claim.stage with
  | .asking _ taken => (claim.wanted.take taken).map indexOf
  | .undoing _ taken undone => ((claim.wanted.take taken).drop undone).map indexOf
  | _ => []

theorem held_of_asking {claim : Claim} {second : Bool} {taken : Nat} (h : claim.stage = .asking second taken) :
    claim.held = (claim.wanted.take taken).map indexOf := by
  rw [held, h]

theorem held_of_undoing {claim : Claim} {second : Bool} {taken undone : Nat}
    (h : claim.stage = .undoing second taken undone) :
    claim.held = ((claim.wanted.take taken).drop undone).map indexOf := by
  rw [held, h]

def isSeated (claim : Claim) : Bool :=
  match claim.stage with
  | .entering second | .asking second _ | .undoing second _ _ => second
  | .pending => true
  | _ => false

def isBlocked (claim : Claim) : Bool :=
  match claim.stage with
  | .undoing second _ _ => second
  | .pending => true
  | _ => false

def isStill (claim : Claim) : Bool :=
  match claim.stage with
  | .idle | .pending | .refused | .ready | .dropped => true
  | _ => false

def ring (waker : Waker) (claim : Claim) : Claim := { claim with rung := claim.rung || claim.waker = waker }

end Claim

/-- What another thread is doing at the table. -/
inductive SlotOp (Outcome : Type) where
  | claimRun (rest : List Tag)
  | releaseRun (rest : List Tag) (isFreed : Bool)
  | take (tag : Tag)
  | takeOrSeat (tag : Tag) (waker : Waker)
  | orphan (tag : Tag)
  | file (drained : List (Completion Outcome)) (isFreed : Bool)
  | waking (waker : Waker) (drained : List (Completion Outcome)) (isFreed : Bool)
  /-- A slot came free, and the count of seated claims is still to be read. -/
  | signal
  | ringClaims
  | ringing (owed : List Waker)
  | done

namespace SlotOp
variable {Outcome : Type}

def owesRing : SlotOp Outcome → Bool
  | .releaseRun _ isFreed | .file _ isFreed | .waking _ _ isFreed => isFreed
  | .signal | .ringClaims => true
  | _ => false

def owed : SlotOp Outcome → List Waker
  | .ringing owed => owed
  | _ => []

def isDone : SlotOp Outcome → Bool
  | .done => true
  | _ => false

def after (isFreed : Bool) : SlotOp Outcome := if isFreed then .signal else .done

end SlotOp

structure SlotTable (Outcome : Type) where
  slots : Slots Outcome
  /-- Wakers left by claims that found no room. -/
  seated : List Waker
  /-- How many there are, read without their lock. -/
  claiming : Nat
  /-- The claim that holds the turn to claim a whole run. -/
  batching : Option Nat
  claims : List Claim
  ops : List (SlotOp Outcome)

inductive SlotStep (Outcome : Type) where
  | make (wanted : List Tag) (bare : Bool)
  /-- Poll a claim, or start a bare call. -/
  | poll (i : Nat) (waker : Waker)
  /-- The next move of a claim. -/
  | move (i : Nat)
  | drop (i : Nat)
  | start (op : SlotOp Outcome)
  /-- The next move of another thread. -/
  | run (k : Nat)

namespace SlotTable
variable {Outcome : Type}

def fresh : SlotTable Outcome := ⟨Slots.fresh, [], 0, none, [], []⟩

def onApproval (s : SlotTable Outcome) (i : Fin slotCount) : Bool := s.claims.any fun claim => i ∈ claim.held

def release (s : SlotTable Outcome) (i : Nat) : Option Nat := if s.batching = some i then none else s.batching

def granted (claim : Claim) (second : Bool) : Claim := { claim with stage := if second then .unseating else .ready }

def moveClaim (s : SlotTable Outcome) (i : Nat) (claim : Claim) : Option (SlotTable Outcome) :=
  let put (s : SlotTable Outcome) (stage : ClaimStage) := { s with claims := s.claims.set i { claim with stage } }
  match claim.stage with
  | .entering second =>
    match claim.wanted with
    | [] => some { s with claims := s.claims.set i (granted claim second) }
    | [_] => some (put s (.asking second 0))
    | _ =>
      -- batches that claim their whole runs take turns
      if s.batching = none then some (put { s with batching := some i } (.asking second 0)) else none
  | .asking second taken => do
    let tag ← claim.wanted[taken]?
    if s.slots.isFree tag then
      let slots := s.slots.hold tag
      if taken + 1 = claim.wanted.length then
        some { s with slots, batching := s.release i, claims := s.claims.set i (granted claim second) }
      else some (put { s with slots } (.asking second (taken + 1)))
    else some (put s (.undoing second taken 0))
  | .undoing second taken undone =>
    if undone < taken then do
      let tag ← claim.wanted[undone]?
      some (put { s with slots := s.slots.clear tag } (.undoing second taken (undone + 1)))
    else
      some (put { s with batching := s.release i }
        (if second then .pending else if claim.bare then .refused else .seating))
  | .seating =>
    let seated := if claim.waker ∈ s.seated then s.seated else s.seated ++ [claim.waker]
    some (put { s with seated, claiming := seated.length } (.entering true))
  | .unseating =>
    let seated := s.seated.erase claim.waker
    some (put { s with seated, claiming := seated.length } .ready)
  | .idle | .pending | .refused | .ready | .dropped => none

/-- File one completion: the waker to wake, whether the slot came free, and the slots. -/
def land (slots : Slots Outcome) (completion : Completion Outcome) : Option Waker × Bool × Slots Outcome :=
  let slot := slots (indexOf completion.tag)
  if slot.tag ≠ completion.tag then (none, false, slots)
  else
    match slot.state with
    | .flight => (slot.waker, false, slots.fill completion)
    | .orphan => (none, true, slots.clear completion.tag)
    | .free | .landed => (none, false, slots)

/-- One move of another thread. The tags it names are of ops that went down, which no ask still holds. -/
def moveOp (s : SlotTable Outcome) (k : Nat) (op : SlotOp Outcome) : Option (SlotTable Outcome) :=
  let put (s : SlotTable Outcome) (op : SlotOp Outcome) := { s with ops := s.ops.set k op }
  let below (tag : Tag) (next : Option (SlotTable Outcome)) := if s.onApproval (indexOf tag) then none else next
  match op with
  | .claimRun [] => some (put s .done)
  | .claimRun (tag :: rest) =>
    if s.slots.isFree tag then some (put { s with slots := s.slots.hold tag } (.claimRun rest))
    else some (put s .done)
  | .releaseRun [] isFreed => some (put s (.after isFreed))
  | .releaseRun (tag :: rest) isFreed =>
    below tag (some (put { s with slots := s.slots.release tag } (.releaseRun rest (isFreed || s.slots.isMine tag .flight))))
  | .take tag =>
    below tag (some (put { s with slots := (s.slots.take tag).2 } (.after (s.slots.isMine tag .landed))))
  | .takeOrSeat tag waker =>
    below tag (some (put { s with slots := (s.slots.takeOrSeat tag waker).2 } (.after (s.slots.isMine tag .landed))))
  | .orphan tag =>
    below tag (some (put { s with slots := (s.slots.orphan tag).2 } (.after (s.slots.isMine tag .landed))))
  | .file [] isFreed => some (put s (.after isFreed))
  | .file (completion :: rest) isFreed =>
    below completion.tag (
      let (woken, freed, slots) := land s.slots completion
      some (put { s with slots } (match woken with
        | some waker => .waking waker rest (isFreed || freed)
        | none => .file rest (isFreed || freed))))
  | .waking waker rest isFreed =>
    some (put { s with claims := s.claims.map (Claim.ring waker) } (.file rest isFreed))
  | .signal => some (put s (if s.claiming = 0 then .done else .ringClaims))
  | .ringClaims => some (put { s with seated := [], claiming := 0 } (.ringing s.seated))
  | .ringing [] => some (put s .done)
  | .ringing (waker :: rest) => some (put { s with claims := s.claims.map (Claim.ring waker) } (.ringing rest))
  | .done => none

def startable : SlotOp Outcome → Bool
  | .claimRun _ | .take _ | .takeOrSeat _ _ | .orphan _ => true
  | .releaseRun _ isFreed | .file _ isFreed => !isFreed
  | _ => false

def step (s : SlotTable Outcome) : SlotStep Outcome → Option (SlotTable Outcome)
  | .make wanted bare => some { s with claims := s.claims ++ [⟨wanted, bare, 0, false, .idle⟩] }
  | .poll i waker => do
    let claim ← s.claims[i]?
    if claim.stage = .idle ∨ claim.stage = .pending then
      some { s with claims := s.claims.set i { claim with waker, rung := false, stage := .entering false } }
    else none
  | .move i => do s.moveClaim i (← s.claims[i]?)
  | .drop i => do
    let claim ← s.claims[i]?
    if claim.stage = .idle ∨ claim.stage = .pending then
      some { s with claims := s.claims.set i { claim with stage := .dropped } }
    else none
  | .start op => if startable op then some { s with ops := s.ops ++ [op] } else none
  | .run k => do s.moveOp k (← s.ops[k]?)

def Quiet (s : SlotTable Outcome) : Prop :=
  (∀ claim ∈ s.claims, claim.isStill = true) ∧ ∀ op ∈ s.ops, op.isDone = true

instance (s : SlotTable Outcome) : Decidable (Quiet s) := inferInstanceAs (Decidable (_ ∧ _))

/-- A second ask is turned away only by slots that no ask under way holds, itself included, and a claim takes
its seat back only where no other claim that waits or asks again sits in it unrung. -/
def Fair (s : SlotTable Outcome) : SlotStep Outcome → Bool
  | .move i =>
    s.claims[i]?.all fun claim =>
      match claim.stage with
      | .asking true taken =>
        claim.wanted[taken]?.all fun tag => s.slots.isFree tag || !s.onApproval (indexOf tag)
      | .unseating =>
        (s.claims.eraseIdx i).all fun other => other.waker ≠ claim.waker || !other.isSeated || other.rung
      | _ => true
  | _ => true

/-- A waker is on some thread's list to ring. -/
def Owed (s : SlotTable Outcome) (waker : Waker) : Prop := ∃ op ∈ s.ops, waker ∈ op.owed

/-- The claim was rung, or will be. -/
def Reached (s : SlotTable Outcome) (claim : Claim) : Prop := claim.rung = true ∨ s.Owed claim.waker

/-- A slot that is taken, and not by an ask that may give it back. -/
def Taken (s : SlotTable Outcome) (i : Fin slotCount) : Prop :=
  (s.slots i).state ≠ .free ∧ s.onApproval i = false

/-- What holds of every claim: in its second ask or behind it, it is seated unless it is reached, and once
turned away it has a slot that is taken, or a thread that freed one is on its way to ring. -/
structure Watched (s : SlotTable Outcome) (claim : Claim) : Prop where
  seated : claim.isSeated = true → s.Reached claim ∨ claim.waker ∈ s.seated
  blocked : claim.isBlocked = true →
    s.Reached claim ∨ (∃ tag ∈ claim.wanted, s.Taken (indexOf tag)) ∨ ∃ op ∈ s.ops, op.owesRing = true

structure Inv (s : SlotTable Outcome) : Prop where
  counted : s.claiming = s.seated.length
  watched : ∀ claim ∈ s.claims, s.Watched claim

theorem onApproval_iff {s : SlotTable Outcome} {i : Fin slotCount} :
    s.onApproval i = true ↔ ∃ claim ∈ s.claims, i ∈ claim.held := by
  simp [onApproval]

theorem isSeated_of_isBlocked {claim : Claim} (h : claim.isBlocked = true) : claim.isSeated = true := by
  obtain ⟨wanted, bare, waker, rung, stage⟩ := claim
  cases stage <;> first | exact h | cases h

theorem mem_set_or {T : Type} {l : List T} {k : Nat} {old x : T} (new : T) (hold : l[k]? = some old) (hx : x ∈ l) :
    x = old ∨ x ∈ l.set k new := by
  obtain ⟨j, hj⟩ := mem_iff_getElem?.mp hx
  by_cases hjk : j = k
  · subst hjk
    exact .inl (Option.some.inj (hj.symm.trans hold))
  · right
    refine mem_of_getElem? (i := j) ?_
    rw [getElem?_set_ne (Ne.symm hjk), hj]

section Frame
variable {s s' : SlotTable Outcome}

theorem Inv.moved (h : Inv s) {i : Nat} {claim' : Claim} (hclaims : s'.claims = s.claims.set i claim')
    (hops : s'.ops = s.ops) (hcount : s'.claiming = s'.seated.length)
    (hseats : ∀ other ∈ s.claims.eraseIdx i, other.isSeated = true → ¬ s.Reached other →
      other.waker ∈ s.seated → other.waker ∈ s'.seated)
    (htaken : ∀ j, s.Taken j → s'.Taken j) (hnew : s'.Watched claim') : Inv s' := by
  have howed : ∀ waker, s.Owed waker → s'.Owed waker := by
    intro waker ⟨op, hop, hw⟩
    exact ⟨op, hops ▸ hop, hw⟩
  refine ⟨hcount, fun claim hclaim => ?_⟩
  rw [hclaims] at hclaim
  obtain ⟨j, hj⟩ := mem_iff_getElem?.mp hclaim
  by_cases hji : j = i
  · subst hji
    rw [getElem?_set_self'] at hj
    obtain ⟨_, _, rfl⟩ := Option.map_eq_some_iff.mp hj
    exact hnew
  · rw [getElem?_set_ne (Ne.symm hji)] at hj
    have hold := h.watched claim (mem_of_getElem? hj)
    have hother : claim ∈ s.claims.eraseIdx i := mem_eraseIdx_iff_getElem?.mpr ⟨j, hji, hj⟩
    have hreach : s.Reached claim → s'.Reached claim := fun hr => hr.imp_right (howed _)
    constructor
    · intro hs
      by_cases hr : s.Reached claim
      · exact .inl (hreach hr)
      · exact .inr (hseats claim hother hs hr ((hold.seated hs).resolve_left hr))
    · intro hb
      rcases hold.blocked hb with hr | ⟨tag, htag, ht⟩ | ⟨op, hop, howes⟩
      · exact .inl (hreach hr)
      · exact .inr (.inl ⟨tag, htag, htaken _ ht⟩)
      · exact .inr (.inr ⟨op, hops ▸ hop, howes⟩)

/-- A move of another thread leaves every claim watched, where a slot it frees leaves it owing a ring, and the
wakers it takes on it rings. -/
theorem Inv.ran (h : Inv s) {k : Nat} {op op' : SlotOp Outcome} (hop : s.ops[k]? = some op)
    (hops : s'.ops = s.ops.set k op') {ring : Claim → Claim} (hclaims : s'.claims = s.claims.map ring)
    (hring : ∀ claim, (ring claim).wanted = claim.wanted ∧ (ring claim).waker = claim.waker ∧
      (ring claim).stage = claim.stage ∧ (claim.rung = true → (ring claim).rung = true))
    (hcount : s'.claiming = s'.seated.length)
    (hseats : ∀ waker ∈ s.seated, waker ∈ s'.seated ∨ waker ∈ op'.owed)
    (howed : ∀ claim, claim.waker ∈ op.owed → claim.waker ∈ op'.owed ∨ (ring claim).rung = true)
    (howes : op.owesRing = true → op'.owesRing = true ∨ ∀ waker ∈ s.seated, waker ∈ op'.owed)
    (htaken : ∀ j, s.Taken j → (s'.slots j).state ≠ .free ∨ op'.owesRing = true) : Inv s' := by
  have hk : k < s.ops.length := (List.getElem?_eq_some_iff.mp hop).1
  have hmem : op' ∈ s'.ops := hops ▸ mem_set hk op'
  have hheld : ∀ claim, (ring claim).held = claim.held := by
    intro claim
    obtain ⟨hwanted, -, hstage, -⟩ := hring claim
    unfold Claim.held
    rw [hwanted, hstage]
  have happroval : ∀ j, s'.onApproval j = s.onApproval j := by
    intro j
    rw [onApproval, hclaims, any_map, onApproval]
    exact congrArg (s.claims.any ·) (funext fun claim => by rw [Function.comp_apply, hheld])
  refine ⟨hcount, fun claim' hclaim' => ?_⟩
  rw [hclaims] at hclaim'
  obtain ⟨claim, hclaim, rfl⟩ := mem_map.mp hclaim'
  obtain ⟨hwanted, hwaker, hstage, hrung⟩ := hring claim
  have hold := h.watched claim hclaim
  have hreach : s.Reached claim → s'.Reached (ring claim) := by
    rintro (hr | ⟨other, hother, hw⟩)
    · exact .inl (hrung hr)
    · rcases mem_set_or op' hop hother with rfl | hin
      · exact (howed claim hw).elim (fun hw => .inr ⟨op', hmem, hwaker ▸ hw⟩) .inl
      · exact .inr ⟨other, hops ▸ hin, hwaker ▸ hw⟩
  have htake : claim.waker ∈ op'.owed → s'.Reached (ring claim) := fun hw => .inr ⟨op', hmem, hwaker ▸ hw⟩
  constructor
  · intro hs
    rw [Claim.isSeated, hstage] at hs
    rcases hold.seated hs with hr | hw
    · exact .inl (hreach hr)
    · exact (hseats _ hw).elim (fun hw => .inr (hwaker ▸ hw)) fun hw => .inl (htake hw)
  · intro hb
    rw [Claim.isBlocked, hstage] at hb
    rw [hwanted]
    rcases hold.blocked hb with hr | ⟨tag, htag, ht⟩ | ⟨other, hother, ho⟩
    · exact .inl (hreach hr)
    · rcases htaken _ ht with hstill | ho
      · exact .inr (.inl ⟨tag, htag, hstill, (happroval _).trans ht.2⟩)
      · exact .inr (.inr ⟨op', hmem, ho⟩)
    · rcases mem_set_or op' hop hother with rfl | hin
      · rcases howes ho with ho | hall
        · exact .inr (.inr ⟨op', hmem, ho⟩)
        · -- the thread took the seats, this claim's among them
          rcases hold.seated (isSeated_of_isBlocked hb) with hr | hw
          · exact .inl (hreach hr)
          · exact .inl (htake (hall _ hw))
      · exact .inr (.inr ⟨other, hops ▸ hin, ho⟩)

theorem Taken.of_set {i : Nat} {claim claim' : Claim} (hclaim : s.claims[i]? = some claim)
    (hclaims : s'.claims = s.claims.set i claim') (hslots : ∀ j, s.Taken j → (s'.slots j).state ≠ .free)
    (hheld : ∀ j ∈ claim'.held, j ∈ claim.held ∨ (s.slots j).state = .free) {j : Fin slotCount} (h : s.Taken j) :
    s'.Taken j := by
  refine ⟨hslots j h, ?_⟩
  rw [Bool.eq_false_iff, ne_eq, onApproval_iff]
  rintro ⟨other, hother, hin⟩
  rw [hclaims] at hother
  have hnot : ∀ claim ∈ s.claims, j ∉ claim.held := by
    intro claim hclaim hin
    have := onApproval_iff.mpr ⟨claim, hclaim, hin⟩
    rw [h.2] at this
    cases this
  rcases mem_or_eq_of_mem_set hother with hold | rfl
  · exact hnot other hold hin
  · exact (hheld j hin).elim (hnot claim (mem_of_getElem? hclaim)) h.1

theorem Watched.carry {claim claim' : Claim} (h : s.Watched claim) (hwanted : claim'.wanted = claim.wanted)
    (hwaker : claim'.waker = claim.waker) (hrung : claim'.rung = claim.rung)
    (hseat : claim'.isSeated = true → claim.isSeated = true)
    (hblock : claim'.isBlocked = true → claim.isBlocked = true) (hops : s'.ops = s.ops)
    (hseated : s'.seated = s.seated) (htaken : ∀ j, s.Taken j → s'.Taken j) : s'.Watched claim' := by
  have hreach : s.Reached claim → s'.Reached claim' := by
    unfold Reached Owed
    rw [hwaker, hrung, hops]
    exact id
  constructor
  · intro hs
    rw [hwaker, hseated]
    exact (h.seated (hseat hs)).imp_left hreach
  · intro hb
    rw [hwanted, hops]
    rcases h.blocked (hblock hb) with hr | ⟨tag, htag, ht⟩ | howes
    · exact .inl (hreach hr)
    · exact .inr (.inl ⟨tag, htag, htaken _ ht⟩)
    · exact .inr (.inr howes)

theorem Watched.of_not_seated {claim : Claim} (h : claim.isSeated = false) : s.Watched claim :=
  ⟨fun hs => absurd (h.symm.trans hs) (by decide),
    fun hb => absurd (h.symm.trans (isSeated_of_isBlocked hb)) (by decide)⟩

end Frame

section Steps
variable {s s' : SlotTable Outcome} {i : Nat} {claim : Claim}

variable {claim' : Claim}

theorem Inv.put (h : Inv s) (hclaim : s.claims[i]? = some claim)
    (hclaims : s'.claims = s.claims.set i claim') (hops : s'.ops = s.ops) (hcount : s'.claiming = s'.seated.length)
    (hseats : ∀ other ∈ s.claims.eraseIdx i, other.isSeated = true → ¬ s.Reached other →
      other.waker ∈ s.seated → other.waker ∈ s'.seated)
    (hslots : ∀ j, s.Taken j → (s'.slots j).state ≠ .free)
    (hheld : ∀ j ∈ claim'.held, j ∈ claim.held ∨ (s.slots j).state = .free)
    (hnew : (∀ j, s.Taken j → s'.Taken j) → s'.Watched claim') : Inv s' := by
  have htaken : ∀ j, s.Taken j → s'.Taken j := fun j hj => hj.of_set hclaim hclaims hslots hheld
  exact h.moved hclaims hops hcount hseats htaken (hnew htaken)

variable {tag : Tag}

section
variable (hfree : s.slots.isFree tag = true) {j : Fin slotCount} (h : s.Taken j)
include hfree h

theorem Taken.ne_of_free :
    j ≠ indexOf tag := by
  rintro rfl
  exact h.1 (by simpa [Slots.isFree] using hfree)

theorem Taken.hold :
    ((s.slots.hold tag) j).state ≠ .free := by
  rw [Slots.hold_state, if_neg (h.ne_of_free hfree)]
  exact h.1

end

variable {second : Bool}

theorem Inv.entering (h : Inv s) (hclaim : s.claims[i]? = some claim)
    (hstage : claim.stage = .entering second) (batching : Option Nat)
    (hclaim' : claim' = granted claim second ∨ claim' = { claim with stage := .asking second 0 }) :
    Inv { s with batching, claims := s.claims.set i claim' } := by
  refine h.put hclaim rfl rfl h.counted (fun _ _ _ _ hw => hw) (fun j hj => hj.1) ?_ fun htaken => ?_
  · rcases hclaim' with rfl | rfl
    · cases second <;> simp [granted, Claim.held]
    · simp [Claim.held]
  · rcases hclaim' with rfl | rfl
    · exact .of_not_seated (by cases second <;> rfl)
    · refine (h.watched claim (mem_of_getElem? hclaim)).carry rfl rfl rfl ?_ (fun hb => by cases hb) rfl rfl htaken
      rw [Claim.isSeated, Claim.isSeated, hstage]
      exact id

variable {taken : Nat}

section
variable (h : Inv s) (hclaim : s.claims[i]? = some claim)
include h hclaim

theorem Inv.asking
    (hstage : claim.stage = .asking second taken) (htag : claim.wanted[taken]? = some tag)
    (hfree : s.slots.isFree tag = true) (batching : Option Nat)
    (hclaim' : claim' = granted claim second ∨ claim' = { claim with stage := .asking second (taken + 1) }) :
    Inv { s with slots := s.slots.hold tag, batching, claims := s.claims.set i claim' } := by
  refine h.put hclaim rfl rfl h.counted (fun _ _ _ _ hw => hw) (fun j hj => hj.hold hfree) ?_ fun htaken => ?_
  · rcases hclaim' with rfl | rfl
    · cases second <;> simp [granted, Claim.held]
    · intro j hj
      have hnext : ({ claim with stage := .asking second (taken + 1) } : Claim).held =
          claim.held ++ [indexOf tag] := by
        rw [Claim.held_of_asking hstage, Claim.held_of_asking rfl, take_add_one, htag, map_append]
        rfl
      rw [hnext] at hj
      rcases mem_append.mp hj with hin | hin
      · exact .inl hin
      · rw [mem_singleton.mp hin]
        exact .inr (by simpa [Slots.isFree] using hfree)
  · rcases hclaim' with rfl | rfl
    · exact .of_not_seated (by cases second <;> rfl)
    · refine (h.watched claim (mem_of_getElem? hclaim)).carry rfl rfl rfl ?_ (fun hb => by cases hb) rfl rfl htaken
      rw [Claim.isSeated, Claim.isSeated, hstage]
      exact id

theorem Inv.turned
    (hstage : claim.stage = .asking second taken) (htag : claim.wanted[taken]? = some tag)
    (hfree : s.slots.isFree tag = false) (hfair : second = true → s.onApproval (indexOf tag) = false) :
    Inv { s with claims := s.claims.set i { claim with stage := .undoing second taken 0 } } := by
  refine h.put hclaim rfl rfl h.counted (fun _ _ _ _ hw => hw) (fun j hj => hj.1) ?_ fun htaken => ⟨?_, ?_⟩
  · intro j hj
    left
    simpa [Claim.held, hstage] using hj
  · intro hs
    have hold := (h.watched claim (mem_of_getElem? hclaim)).seated
    rw [Claim.isSeated, hstage] at hold
    exact hold hs
  · intro hb
    have hsecond : second = true := hb
    refine .inr (.inl ⟨tag, mem_of_getElem? htag, htaken _ ⟨?_, hfair hsecond⟩⟩)
    simpa [Slots.isFree] using hfree

theorem Inv.undoing {undone : Nat}
    (hstage : claim.stage = .undoing second taken undone) (hlt : undone < taken)
    (htag : claim.wanted[undone]? = some tag) :
    Inv { s with slots := s.slots.clear tag
                 claims := s.claims.set i { claim with stage := .undoing second taken (undone + 1) } } := by
  have hheld : claim.held = indexOf tag :: ((claim.wanted.take taken).drop (undone + 1)).map indexOf := by
    have hget : (claim.wanted.take taken)[undone]? = some tag := by
      rw [getElem?_take, if_pos hlt, htag]
    obtain ⟨hlen, heq⟩ := List.getElem?_eq_some_iff.mp hget
    rw [Claim.held_of_undoing hstage, ← getElem_cons_drop hlen, map_cons, heq]
  refine h.put hclaim rfl rfl h.counted (fun _ _ _ _ hw => hw) ?_ ?_ fun htaken => ?_
  · intro j hj
    have hne : j ≠ indexOf tag := by
      rintro rfl
      have := onApproval_iff.mpr ⟨claim, mem_of_getElem? hclaim, hheld ▸ mem_cons_self⟩
      rw [hj.2] at this
      cases this
    rw [Slots.clear_state, if_neg hne]
    exact hj.1
  · intro j hj
    left
    rw [hheld]
    exact mem_cons_of_mem _ hj
  · refine (h.watched claim (mem_of_getElem? hclaim)).carry rfl rfl rfl ?_ ?_ rfl rfl htaken
    · rw [Claim.isSeated, Claim.isSeated, hstage]
      exact id
    · rw [Claim.isBlocked, Claim.isBlocked, hstage]
      exact id

theorem Inv.undone {undone : Nat}
    (hstage : claim.stage = .undoing second taken undone) (batching : Option Nat) :
    Inv { s with batching, claims := s.claims.set i { claim with
      stage := if second then .pending else if claim.bare then .refused else .seating } } := by
  refine h.put hclaim rfl rfl h.counted (fun _ _ _ _ hw => hw) (fun j hj => hj.1) ?_ fun htaken => ?_
  · cases second <;> cases claim.bare <;> simp [Claim.held]
  · cases second with
    | false => exact .of_not_seated (by cases claim.bare <;> rfl)
    | true =>
      refine (h.watched claim (mem_of_getElem? hclaim)).carry rfl rfl rfl ?_ ?_ rfl rfl htaken
      · rw [Claim.isSeated, Claim.isSeated, hstage]
        exact id
      · rw [Claim.isBlocked, Claim.isBlocked, hstage]
        exact id

theorem Inv.seating {seated : List Waker}
    (hold : ∀ waker ∈ s.seated, waker ∈ seated) (hself : claim.waker ∈ seated) :
    Inv { s with seated, claiming := seated.length, claims := s.claims.set i { claim with stage := .entering true } } := by
  refine h.put hclaim rfl rfl rfl (fun _ _ _ _ hw => hold _ hw) (fun j hj => hj.1) ?_ fun _ => ?_
  · simp [Claim.held]
  · exact ⟨fun _ => .inr hself, fun hb => by cases hb⟩

theorem Inv.unseating
    (hfair : ∀ other ∈ s.claims.eraseIdx i, other.waker = claim.waker → other.isSeated = true → other.rung = true) :
    Inv { s with seated := s.seated.erase claim.waker, claiming := (s.seated.erase claim.waker).length
                 claims := s.claims.set i { claim with stage := .ready } } := by
  refine h.put hclaim rfl rfl rfl ?_ (fun j hj => hj.1) ?_ fun _ => .of_not_seated rfl
  · intro other hother hs hr hw
    by_cases heq : other.waker = claim.waker
    · exact absurd (.inl (hfair other hother heq hs)) hr
    · exact (mem_erase_of_ne heq).mpr hw
  · simp [Claim.held]

theorem Inv.moveClaim (hfair : s.Fair (.move i) = true)
    (hstep : s.moveClaim i claim = some s') : Inv s' := by
  rw [Fair, hclaim, Option.all_some] at hfair
  unfold SlotTable.moveClaim at hstep
  split at hstep
  case h_1 second hstage =>
    split at hstep
    · cases hstep
      exact h.entering hclaim hstage _ (.inl rfl)
    · cases hstep
      exact h.entering hclaim hstage _ (.inr rfl)
    · split at hstep
      · cases hstep
        exact h.entering hclaim hstage _ (.inr rfl)
      · cases hstep
  case h_2 second taken hstage =>
    obtain ⟨tag, htag, hstep⟩ := Option.bind_eq_some_iff.mp hstep
    by_cases hfree : s.slots.isFree tag = true
    · rw [if_pos hfree] at hstep
      split at hstep
      · cases hstep
        exact h.asking hclaim hstage htag hfree _ (.inl rfl)
      · cases hstep
        exact h.asking hclaim hstage htag hfree _ (.inr rfl)
    · rw [if_neg hfree] at hstep
      cases hstep
      refine h.turned hclaim hstage htag (Bool.eq_false_iff.mpr hfree) fun hsecond => ?_
      subst hsecond
      rw [hstage] at hfair
      simp only [htag, Option.all_some, hfree, Bool.false_or] at hfair
      simpa using hfair
  case h_3 second taken undone hstage =>
    split at hstep
    · rename_i hlt
      obtain ⟨tag, htag, hstep⟩ := Option.bind_eq_some_iff.mp hstep
      cases hstep
      exact h.undoing hclaim hstage hlt htag
    · cases hstep
      exact h.undone hclaim hstage _
  case h_4 hstage =>
    cases hstep
    refine h.seating hclaim ?_ ?_
    · intro waker hw
      split
      · exact hw
      · exact mem_append_left _ hw
    · split
      · assumption
      · exact mem_append_right _ (mem_singleton.mpr rfl)
  case h_5 hstage =>
    cases hstep
    refine h.unseating hclaim fun other hother hwaker hs => ?_
    rw [hstage] at hfair
    have hone := all_eq_true.mp hfair other hother
    simpa [hwaker, hs] using hone
  all_goals cases hstep

end

variable {k : Nat} {op : SlotOp Outcome}

theorem Inv.handled (h : Inv s) {op' : SlotOp Outcome} (hop : s.ops[k]? = some op) (slots : Slots Outcome)
    (howed : op.owed = []) (howes : op.owesRing = true → op'.owesRing = true)
    (htaken : ∀ j, s.Taken j → (slots j).state ≠ .free ∨ op'.owesRing = true) :
    Inv { s with slots, ops := s.ops.set k op' } := by
  refine h.ran hop rfl (map_id _).symm (fun _ => ⟨rfl, rfl, rfl, id⟩) h.counted
    (fun _ hw => .inl hw) ?_ (fun ho => .inl (howes ho)) htaken
  rw [howed]
  exact fun _ hw => absurd hw not_mem_nil

theorem ring_same (waker : Waker) (claim : Claim) : (claim.ring waker).wanted = claim.wanted ∧
    (claim.ring waker).waker = claim.waker ∧ (claim.ring waker).stage = claim.stage ∧
      (claim.rung = true → (claim.ring waker).rung = true) :=
  ⟨rfl, rfl, rfl, fun h => by simp [Claim.ring, h]⟩

theorem Inv.rings (h : Inv s) {op' : SlotOp Outcome} (hop : s.ops[k]? = some op) (waker : Waker)
    (howed : ∀ w ∈ op.owed, w = waker ∨ w ∈ op'.owed) (howes : op.owesRing = true → op'.owesRing = true) :
    Inv { s with claims := s.claims.map (Claim.ring waker), ops := s.ops.set k op' } := by
  refine h.ran hop rfl rfl (ring_same waker) h.counted (fun _ hw => .inl hw) ?_ (fun ho => .inl (howes ho))
    (fun j hj => .inl hj.1)
  intro claim hw
  rcases howed _ hw with heq | hin
  · exact .inr (by simp [Claim.ring, heq])
  · exact .inl hin

theorem owesRing_after {isFreed : Bool} (h : isFreed = true) : (SlotOp.after isFreed : SlotOp Outcome).owesRing = true := by
  subst h
  rfl

theorem land_taken (slots : Slots Outcome) (completion : Completion Outcome) (j : Fin slotCount)
    (h : (slots j).state ≠ .free) :
    ((land slots completion).2.2 j).state ≠ .free ∨ (land slots completion).2.1 = true := by
  unfold land
  dsimp only
  split
  · exact .inl h
  · split
    · left
      rw [Slots.fill_state]
      split
      · exact fun hfree => by cases hfree
      · exact h
    · exact .inr rfl
    · exact .inl h
    · exact .inl h

section
variable (h : Inv s) (hop : s.ops[k]? = some op)
include h hop

theorem Inv.idles (howed : op.owed = [])
    (howes : op.owesRing = false) (op' : SlotOp Outcome) : Inv { s with ops := s.ops.set k op' } :=
  h.handled hop s.slots howed (fun ho => absurd (howes.symm.trans ho) (by decide)) fun _ hj => .inl hj.1

theorem Inv.leaves (howed : op.owed = []) (howes : op.owesRing = false) {slots : Slots Outcome} {isFreed : Bool}
    (htaken : ∀ j, (s.slots j).state ≠ .free → (slots j).state ≠ .free ∨ isFreed = true) :
    Inv { s with slots, ops := s.ops.set k (.after isFreed) } :=
  h.handled hop slots howed (fun ho => absurd (howes.symm.trans ho) (by decide)) fun j hj =>
    (htaken j hj.1).imp_right owesRing_after

theorem Inv.moveOp
    (hstep : s.moveOp k op = some s') : Inv s' := by
  unfold SlotTable.moveOp at hstep
  dsimp only at hstep
  split at hstep
  case h_1 =>
    cases hstep
    exact h.idles hop rfl rfl _
  case h_2 tag rest =>
    split at hstep
    · rename_i hfree
      cases hstep
      exact h.handled hop _ rfl (fun ho => by cases ho) fun j hj => .inl (hj.hold hfree)
    · cases hstep
      exact h.idles hop rfl rfl _
  case h_3 isFreed =>
    cases hstep
    exact h.handled hop _ rfl owesRing_after fun j hj => .inl hj.1
  case h_4 tag rest isFreed =>
    split at hstep
    · cases hstep
    · cases hstep
      exact h.handled hop _ rfl (fun ho => Bool.or_eq_true_iff.mpr (.inl ho)) fun j hj =>
        (Slots.release_taken tag hj.1).imp_right fun hfreed => Bool.or_eq_true_iff.mpr (.inr hfreed)
  case h_5 tag =>
    split at hstep
    · cases hstep
    · cases hstep
      exact h.leaves hop rfl rfl fun j hj => Slots.take_taken tag hj
  case h_6 tag waker =>
    split at hstep
    · cases hstep
    · cases hstep
      exact h.leaves hop rfl rfl fun j hj => Slots.takeOrSeat_taken tag hj waker
  case h_7 tag =>
    split at hstep
    · cases hstep
    · cases hstep
      exact h.leaves hop rfl rfl fun j hj => Slots.orphan_taken tag hj
  case h_8 isFreed =>
    cases hstep
    exact h.handled hop _ rfl owesRing_after fun j hj => .inl hj.1
  case h_9 completion rest isFreed =>
    split at hstep
    · cases hstep
    · cases hstep
      have hland := land_taken s.slots completion
      generalize land s.slots completion = landed at *
      obtain ⟨woken, freed, slots⟩ := landed
      refine h.handled hop _ rfl ?_ fun j hj => (hland j hj.1).imp_right ?_
      · intro ho
        cases woken <;> exact Bool.or_eq_true_iff.mpr (.inl ho)
      · intro hfreed
        cases woken <;> exact Bool.or_eq_true_iff.mpr (.inr hfreed)
  case h_10 waker rest isFreed =>
    cases hstep
    exact h.rings hop waker (fun _ hw => absurd hw not_mem_nil) id
  case h_11 =>
    cases hstep
    refine h.ran hop rfl (map_id _).symm (fun _ => ⟨rfl, rfl, rfl, id⟩) h.counted
      (fun _ hw => .inl hw) (fun _ hw => absurd hw not_mem_nil) (fun _ => ?_) fun j hj => .inl hj.1
    -- a count of none says that nobody is seated
    by_cases hnone : s.claiming = 0
    · have hempty : s.seated = [] := length_eq_zero_iff.mp (h.counted ▸ hnone)
      exact .inr fun waker hw => absurd (hempty ▸ hw) not_mem_nil
    · rw [if_neg hnone]
      exact .inl rfl
  case h_12 =>
    cases hstep
    exact h.ran hop rfl (map_id _).symm (fun _ => ⟨rfl, rfl, rfl, id⟩) rfl
      (fun _ hw => .inr hw) (fun _ hw => absurd hw not_mem_nil) (fun _ => .inr fun _ hw => hw)
      fun j hj => .inl hj.1
  case h_13 =>
    cases hstep
    exact h.idles hop rfl rfl _
  case h_14 waker rest =>
    cases hstep
    exact h.rings hop waker (fun w hw => mem_cons.mp hw) id
  case h_15 => cases hstep

end

theorem Inv.laidDown (h : Inv s) (hclaim : s.claims[i]? = some claim) (hheld : claim'.held = [])
    (hseated : claim'.isSeated = false) : Inv { s with claims := s.claims.set i claim' } := by
  refine h.put hclaim rfl rfl h.counted (fun _ _ _ _ hw => hw) (fun j hj => hj.1) ?_ fun _ => .of_not_seated hseated
  rw [hheld]
  exact fun j hj => absurd hj not_mem_nil

theorem Inv.step (h : Inv s) {a : SlotStep Outcome} (hfair : s.Fair a = true) (hstep : s.step a = some s') : Inv s' := by
  cases a with
  | make wanted bare =>
    cases hstep
    have happroval : ∀ j, s.Taken j → SlotTable.Taken { s with
        claims := s.claims ++ [⟨wanted, bare, 0, false, .idle⟩] } j := by
      intro j hj
      refine ⟨hj.1, ?_⟩
      have hold := hj.2
      unfold onApproval at hold ⊢
      rw [any_append, hold]
      rfl
    refine ⟨h.counted, fun claim hclaim => ?_⟩
    rcases mem_append.mp hclaim with hin | hin
    · exact (h.watched claim hin).carry rfl rfl rfl id id rfl rfl happroval
    · obtain rfl := mem_singleton.mp hin
      exact .of_not_seated rfl
  | poll i waker =>
    obtain ⟨claim, hclaim, hstep⟩ := Option.bind_eq_some_iff.mp hstep
    split at hstep
    · cases hstep
      exact h.laidDown hclaim rfl rfl
    · cases hstep
  | move i =>
    obtain ⟨claim, hclaim, hstep⟩ := Option.bind_eq_some_iff.mp hstep
    exact h.moveClaim hclaim hfair hstep
  | drop i =>
    obtain ⟨claim, hclaim, hstep⟩ := Option.bind_eq_some_iff.mp hstep
    split at hstep
    · cases hstep
      exact h.laidDown hclaim rfl rfl
    · cases hstep
  | start op =>
    simp only [SlotTable.step] at hstep
    split at hstep
    · cases hstep
      refine ⟨h.counted, fun claim hclaim => ?_⟩
      have hold := h.watched claim hclaim
      have hreach : s.Reached claim → SlotTable.Reached { s with ops := s.ops ++ [op] } claim :=
        fun hr => hr.imp_right fun ⟨other, hother, hw⟩ => ⟨other, mem_append_left _ hother, hw⟩
      refine ⟨fun hs => (hold.seated hs).imp_left hreach, fun hb => ?_⟩
      rcases hold.blocked hb with hr | htaken | ⟨other, hother, ho⟩
      · exact .inl (hreach hr)
      · exact .inr (.inl htaken)
      · exact .inr (.inr ⟨other, mem_append_left _ hother, ho⟩)
    · cases hstep
  | run k =>
    obtain ⟨op, hop, hstep⟩ := Option.bind_eq_some_iff.mp hstep
    exact h.moveOp hop hstep

theorem inv_fresh : Inv (fresh : SlotTable Outcome) := ⟨rfl, fun _ h => absurd h not_mem_nil⟩

theorem inv_run {steps : List (SlotStep Outcome)}
    (hfair : Runs.Meets SlotTable.step (fun s a => s.Fair a = true) fresh steps)
    (hrun : Runs.run SlotTable.step fresh steps = some s) : Inv s :=
  Runs.invariant_run Inv (fun _ _ _ h hfair hstep => h.step hfair hstep) inv_fresh hfair hrun

end Steps

theorem owed_of_isDone {op : SlotOp Outcome} (h : op.isDone = true) : op.owed = [] ∧ op.owesRing = false := by
  cases op <;> first | exact ⟨rfl, rfl⟩ | cases h

/-- In every run whose steps are all fair, in every state where no step is running, a pending claim that was not
rung since its last poll wants a slot that is not free. -/
theorem pending_wants_taken_slot {s : SlotTable Outcome} {steps : List (SlotStep Outcome)}
    (hfair : Runs.Meets SlotTable.step (fun s a => s.Fair a = true) fresh steps)
    (hrun : Runs.run SlotTable.step fresh steps = some s) (hquiet : s.Quiet) {claim : Claim}
    (hclaim : claim ∈ s.claims) (hpending : claim.stage = .pending) (hrung : claim.rung = false) :
    ∃ tag ∈ claim.wanted, (s.slots (indexOf tag)).state ≠ .free := by
  have hblocked : claim.isBlocked = true := by rw [Claim.isBlocked, hpending]
  rcases ((inv_run hfair hrun).watched claim hclaim).blocked hblocked with hr | ⟨tag, htag, htaken⟩ | ⟨op, hop, howes⟩
  · rcases hr with hr | ⟨op, hop, hw⟩
    · rw [hrung] at hr
      cases hr
    · rw [(owed_of_isDone (hquiet.2 op hop)).1] at hw
      cases hw
  · exact ⟨tag, htag, htaken.1⟩
  · rw [(owed_of_isDone (hquiet.2 op hop)).2] at howes
    cases howes

def waitingRun : List (SlotStep Unit) :=
  [.start (.claimRun [1]), .run 0, .run 0, .make [513] false, .poll 0 7] ++ replicate 7 (.move 0)

theorem waitingRun_pends : ∃ s, Runs.run SlotTable.step (fresh : SlotTable Unit) waitingRun = some s ∧ s.Quiet ∧
    ∃ claim ∈ s.claims, claim.stage = .pending ∧ claim.rung = false ∧
      ∃ tag ∈ claim.wanted, (s.slots (indexOf tag)).state ≠ .free := by
  have h : (Runs.run SlotTable.step (fresh : SlotTable Unit) waitingRun).any (fun s =>
      s.Quiet ∧ ∃ claim ∈ s.claims, claim.stage = .pending ∧ claim.rung = false) = true := by decide +kernel
  obtain ⟨s, hrun, hfacts⟩ := (Option.any_eq_true _ _).mp h
  obtain ⟨hquiet, claim, hclaim, hpending, hrung⟩ := of_decide_eq_true hfacts
  exact ⟨s, hrun, hquiet, claim, hclaim, hpending, hrung,
    pending_wants_taken_slot (by decide +kernel) hrun hquiet hclaim hpending hrung⟩

/-- An op holds slot 1. A batch for slots 2 and 1 takes slot 2, a claim on slot 2 is polled meanwhile and pends,
and the batch gives slot 2 back and pends on slot 1. -/
def rolledBackRun : List (SlotStep Unit) :=
  [.start (.claimRun [1]), .run 0, .run 0, .make [2, 513] false, .make [514] false, .poll 0 7, .move 0, .move 0,
    .poll 1 8] ++ replicate 7 (.move 1) ++ replicate 9 (.move 0)

theorem claim_sleeps_on_free_slot : ∃ s, Runs.run SlotTable.step (fresh : SlotTable Unit) rolledBackRun = some s ∧
    s.Quiet ∧ ∃ claim ∈ s.claims, claim.stage = .pending ∧ claim.rung = false ∧
      ∀ tag ∈ claim.wanted, (s.slots (indexOf tag)).state = .free := by
  have h : (Runs.run SlotTable.step (fresh : SlotTable Unit) rolledBackRun).any (fun s =>
      s.Quiet ∧ ∃ claim ∈ s.claims, claim.stage = .pending ∧ claim.rung = false ∧
        claim.wanted.all s.slots.isFree = true) = true := by decide +kernel
  obtain ⟨s, hrun, hfacts⟩ := (Option.any_eq_true _ _).mp h
  obtain ⟨hquiet, claim, hclaim, hpending, hrung, hfree⟩ := of_decide_eq_true hfacts
  exact ⟨s, hrun, hquiet, claim, hclaim, hpending, hrung,
    fun tag htag => of_decide_eq_true (all_eq_true.mp hfree tag htag)⟩

end SlotTable

end Reel.Io
