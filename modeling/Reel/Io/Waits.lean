import Reel.Io.Deliveries

/-!
The waits of a driver over the slot table: the future of one op, the future of a batch, and the blocking call that
takes a batch down in runs. A step is one hold of a slot's lock, or a move of a caller that takes no lock, and the steps
of all callers and of whoever files completions interleave at will. Every step is one of the tag's op in
`Reel.Io.Flights`, or none.
-/

set_option autoImplicit false

open List

namespace Reel.Io

/-- A run of tags from one submission, each one past the last. -/
structure TagRun where
  first : Tag
  count : Nat
  deriving DecidableEq, Repr

def TagRun.tags (run : TagRun) : List Tag := (range run.count).map fun step => run.first + UInt64.ofNat step

def lengthen (runs : List TagRun) (tag : Tag) : List TagRun :=
  match runs.getLast? with
  | some run =>
    if run.first + UInt64.ofNat run.count = tag then runs.dropLast ++ [{ run with count := run.count + 1 }]
    else runs ++ [⟨tag, 1⟩]
  | none => runs ++ [⟨tag, 1⟩]

def runsOf (wanted : List Tag) : List TagRun := wanted.foldl lengthen []

theorem lengthen_tags (runs : List TagRun) (tag : Tag) :
    (lengthen runs tag).flatMap TagRun.tags = runs.flatMap TagRun.tags ++ [tag] := by
  unfold lengthen
  split
  · next run hlast =>
    obtain ⟨front, rfl⟩ := getLast?_eq_some_iff.mp hlast
    split
    · next hnext => simp [TagRun.tags, range_succ, ← hnext]
    · simp [TagRun.tags]
  · simp [TagRun.tags]

/-- The runs of a batch hold its tags in submit order. -/
theorem runsOf_tags (wanted : List Tag) : (runsOf wanted).flatMap TagRun.tags = wanted := by
  have hfold : ∀ runs, (wanted.foldl lengthen runs).flatMap TagRun.tags = runs.flatMap TagRun.tags ++ wanted := by
    induction wanted with
    | nil => simp
    | cons tag rest ih =>
      intro runs
      rw [foldl_cons, ih, lengthen_tags, append_assoc, singleton_append]
  simpa [runsOf] using hfold []

/-- A batch in flight. -/
structure BatchWait (Outcome : Type) where
  runs : List TagRun
  /-- What each tag came back with, in submit order. -/
  filled : List (Option (Completion Outcome))
  outstanding : Nat

namespace BatchWait
variable {Outcome : Type}

def tags (wait : BatchWait Outcome) : List Tag := wait.runs.flatMap TagRun.tags

def fill (wait : BatchWait Outcome) (k : Nat) (completion : Completion Outcome) : BatchWait Outcome :=
  { wait with filled := wait.filled.set k (some completion), outstanding := wait.outstanding - 1 }

end BatchWait

def waitBatch {Outcome : Type} (runs : List TagRun) (count : Nat) : BatchWait Outcome :=
  ⟨runs, replicate count none, count⟩

/-- How a caller submits: `wait_op`, `wait_batch`, or `run_into`. -/
inductive CallKind where
  | op
  | batch
  | blocking
  deriving DecidableEq

/-- Where a caller stands. A future is for the whole of its batch, and a blocking call for the `run` tags from `base` on
that found their slots free. -/
inductive CallStage (Outcome : Type) where
  | claiming (base taken : Nat)
  /-- A future's claim gives back what it took. -/
  | undoing (taken undone : Nat)
  | submitting (base run down : Nat)
  /-- The submission failed. -/
  | releasing (base run freed : Nat)
  /-- A future over one op. -/
  | lone
  | pending (wait : BatchWait Outcome)
  | gathering (wait : BatchWait Outcome) (k : Nat) (waker : Waker)
  | dropping (wait : BatchWait Outcome) (k : Nat)
  /-- A blocking call takes what has landed, over and over until nothing is missing. -/
  | collecting (base run k missing : Nat)
  /-- The wait gave up on what is missing. -/
  | orphaning (base run k : Nat)
  | answered (out : List (Completion Outcome))
  /-- It has no answer, and this many of its ops had gone down. -/
  | ended (down : Nat)

structure Call (Outcome : Type) where
  kind : CallKind
  wanted : List Tag
  /-- What a blocking call has taken. -/
  filled : List (Option (Completion Outcome))
  stage : CallStage Outcome

/-- What a move of a caller does: at the slots, to the backend, and with completions nobody waits for. -/
structure Moved (Outcome : Type) where
  stage : CallStage Outcome
  filled : List (Option (Completion Outcome))
  slots : Slots Outcome
  sent : Option Tag
  discarded : List (Completion Outcome)

namespace Call
variable {Outcome : Type}

def turn (call : Call Outcome) (slots : Slots Outcome) (stage : CallStage Outcome) : Moved Outcome :=
  ⟨stage, call.filled, slots, none, []⟩

/-- The submission is through: the caller waits on what it is to wait on. -/
def begins (call : Call Outcome) (base run : Nat) : CallStage Outcome :=
  match call.kind with
  | .op => .lone
  | .batch => .pending (waitBatch (runsOf call.wanted) call.wanted.length)
  | .blocking => .collecting base run 0 run

/-- The batch went down in full: it answers, unless a completion is not there. -/
def collected (call : Call Outcome) : CallStage Outcome :=
  if call.filled.all Option.isSome then .answered (call.filled.filterMap id) else .ended call.wanted.length

/-- The next move of a caller that is at work. -/
def move (call : Call Outcome) (slots : Slots Outcome) : Option (Moved Outcome) :=
  match call.stage with
  | .claiming base taken =>
    match call.wanted[base + taken]? with
    | none =>
      some (call.turn slots (if taken = 0 ∧ call.kind = .blocking then call.collected else .submitting base taken 0))
    | some tag =>
      let (isClaimed, slots) := slots.tryClaim tag
      some (call.turn slots (
        if isClaimed then .claiming base (taken + 1)
        else match call.kind with
        | .op | .batch => .undoing taken 0
        | .blocking => if taken = 0 then .claiming base 0 else .submitting base taken 0))
  | .undoing taken undone =>
    if undone < taken then do
      some (call.turn (slots.clear (← call.wanted[undone]?)) (.undoing taken (undone + 1)))
    else some (call.turn slots (.claiming 0 0))
  | .submitting base run down =>
    if down < run then do
      some { call.turn slots (.submitting base run (down + 1)) with sent := some (← call.wanted[base + down]?) }
    else some (call.turn slots (call.begins base run))
  | .releasing base run freed =>
    if freed < run then do
      some (call.turn (slots.release (← call.wanted[base + freed]?)) (.releasing base run (freed + 1)))
    else some (call.turn slots (.ended base))
  | .gathering wait k waker =>
    match wait.tags[k]? with
    | some tag =>
      match wait.filled[k]?.join with
      | some _ => some (call.turn slots (.gathering wait (k + 1) waker))
      | none =>
        let (taken, slots) := slots.takeOrSeat tag waker
        some (call.turn slots (.gathering (taken.elim wait (wait.fill k)) (k + 1) waker))
    | none =>
      some (call.turn slots (if wait.outstanding > 0 then .pending wait else .answered (wait.filled.filterMap id)))
  | .dropping wait k =>
    match wait.tags[k]? with
    | some tag =>
      match wait.filled[k]?.join with
      | some completion =>
        some { call.turn slots (.dropping { wait with filled := wait.filled.set k none } (k + 1)) with
          discarded := [completion] }
      | none =>
        let (abandoned, slots) := slots.orphan tag
        some { call.turn slots (.dropping wait (k + 1)) with discarded := abandoned.toList }
    | none => some (call.turn slots (.ended call.wanted.length))
  | .collecting base run k missing =>
    if k < run then
      match call.filled[base + k]?.join with
      | some _ => some (call.turn slots (.collecting base run (k + 1) missing))
      | none => do
        let (taken, slots) := slots.take (← call.wanted[base + k]?)
        match taken with
        | some completion =>
          some { call.turn slots (.collecting base run (k + 1) (missing - 1)) with
            filled := call.filled.set (base + k) (some completion) }
        | none => some (call.turn slots (.collecting base run (k + 1) missing))
    else some (call.turn slots (if missing = 0 then .claiming (base + run) 0 else .collecting base run 0 missing))
  | .orphaning base run k =>
    if k < run then
      match call.filled[base + k]?.join with
      | some _ => some (call.turn slots (.orphaning base run (k + 1)))
      | none => do
        let (abandoned, slots) := slots.orphan (← call.wanted[base + k]?)
        some { call.turn slots (.orphaning base run (k + 1)) with discarded := abandoned.toList }
    else some (call.turn slots (.ended (base + run)))
  | .lone | .pending _ | .answered _ | .ended _ => none

/-- Poll a future that is pending. -/
def poll (call : Call Outcome) (slots : Slots Outcome) (waker : Waker) : Option (Moved Outcome) :=
  match call.stage with
  | .lone => do
    let (taken, slots) := slots.takeOrSeat (← call.wanted.head?) waker
    some (call.turn slots (taken.elim .lone fun completion => .answered [completion]))
  | .pending wait =>
    some (call.turn slots (
      if wait.outstanding > 0 then .gathering wait 0 waker else .answered (wait.filled.filterMap id)))
  | _ => none

/-- The submission fails with nothing gone down, a claim is dropped or times out, or a blocking wait gives up at the end
of a round. -/
def giveUp (call : Call Outcome) (slots : Slots Outcome) : Option (Moved Outcome) :=
  match call.stage with
  | .claiming base 0 => some (call.turn slots (.ended base))
  | .submitting base run 0 => some (call.turn slots (.releasing base run 0))
  | .collecting base run k _ => if k = run then some (call.turn slots (.orphaning base run 0)) else none
  | _ => none

def drop (call : Call Outcome) (slots : Slots Outcome) : Option (Moved Outcome) :=
  match call.stage with
  | .lone => do
    let (abandoned, slots) := slots.orphan (← call.wanted.head?)
    some { call.turn slots (.ended 1) with discarded := abandoned.toList }
  | .pending wait => some (call.turn slots (.dropping wait 0))
  | .answered out =>
    match call.kind with
    | .op => do
      let (abandoned, slots) := slots.orphan (← call.wanted.head?)
      some { call.turn slots (.answered out) with discarded := abandoned.toList }
    -- the runs of an answered batch are cleared
    | .batch | .blocking => some (call.turn slots (.answered out))
  | _ => none

end Call

/-- The table, what is with the backend, all that was filed and all that was discarded, and the callers. -/
structure Waits (Outcome : Type) where
  slots : Slots Outcome
  pending : Tag → Bool
  filed : List (Completion Outcome)
  discarded : List (Completion Outcome)
  calls : List (Call Outcome)

inductive WaitStep (Outcome : Type) where
  | call (kind : CallKind) (wanted : List Tag)
  | move (i : Nat)
  | poll (i : Nat) (waker : Waker)
  | giveUp (i : Nat)
  | drop (i : Nat)
  | file (tag : Tag) (outcome : Outcome)

namespace Waits
variable {Outcome : Type}

def fresh : Waits Outcome := ⟨Slots.fresh, fun _ => false, [], [], []⟩

/-- Whether a caller may come with these tags: no tag was drawn before. -/
def accepts (s : Waits Outcome) (kind : CallKind) (wanted : List Tag) : Bool :=
  wanted.Nodup && s.calls.all (fun call => wanted.all (· ∉ call.wanted)) &&
    match kind with
    | .op => wanted.length = 1
    | .batch => wanted.length ≤ batchSlots
    | .blocking => true

def moved (s : Waits Outcome) (i : Nat) (call : Call Outcome) (moved : Moved Outcome) : Waits Outcome :=
  { s with
    slots := moved.slots
    pending := fun tag => s.pending tag || moved.sent = some tag
    discarded := s.discarded ++ moved.discarded
    calls := s.calls.set i { call with stage := moved.stage, filled := moved.filled } }

def step (s : Waits Outcome) : WaitStep Outcome → Option (Waits Outcome)
  | .call kind wanted =>
    if s.accepts kind wanted then
      some { s with calls := s.calls ++ [⟨kind, wanted, replicate wanted.length none, .claiming 0 0⟩] }
    else none
  | .move i => do
    let call ← s.calls[i]?
    some (s.moved i call (← call.move s.slots))
  | .poll i waker => do
    let call ← s.calls[i]?
    some (s.moved i call (← call.poll s.slots waker))
  | .giveUp i => do
    let call ← s.calls[i]?
    some (s.moved i call (← call.giveUp s.slots))
  | .drop i => do
    let call ← s.calls[i]?
    some (s.moved i call (← call.drop s.slots))
  | .file tag outcome =>
    let completion : Completion Outcome := ⟨tag, outcome⟩
    if s.pending tag then
      some { s with
        slots := (SlotTable.land s.slots completion).2.2
        pending := Function.update s.pending tag false
        filed := s.filed ++ [completion]
        discarded := s.discarded ++ s.slots.discards completion }
    else none

end Waits

namespace Call
variable {Outcome : Type}

def after (call : Call Outcome) (moved : Moved Outcome) : Call Outcome :=
  { call with stage := moved.stage, filled := moved.filled }

def given (filled : List (Option (Completion Outcome))) (k : Nat) (absent : Caller Outcome) : Caller Outcome :=
  filled[k]?.join.elim absent .taken

/-- Where the caller stands with its `k`-th tag. -/
def callerAt (call : Call Outcome) (k : Nat) : Caller Outcome :=
  match call.stage with
  | .claiming base taken =>
    if k < base then given call.filled k .left else if k < base + taken then .claimed else .idle
  | .undoing taken undone => if undone ≤ k ∧ k < taken then .claimed else .idle
  | .submitting base run down =>
    if k < base + down then given call.filled k .waiting else if k < base + run then .claimed else .idle
  | .releasing base run freed =>
    if k < base then given call.filled k .left
    else if base + freed ≤ k ∧ k < base + run then .claimed else .idle
  | .lone => .waiting
  | .pending wait | .gathering wait _ _ => given wait.filled k .waiting
  | .dropping wait j => if k < j then .left else given wait.filled k .waiting
  | .collecting base run _ _ => if k < base + run then given call.filled k .waiting else .idle
  | .orphaning base run j =>
    if k < base + j then given call.filled k .left else if k < base + run then given call.filled k .waiting else .idle
  | .answered out => given (out.map some) k .left
  | .ended down => if k < down then given call.filled k .left else .idle

/-- The caller has no slot and waits for none: it is answered or gone, or has only asked. -/
def Settled (call : Call Outcome) : Prop :=
  match call.stage with
  | .claiming _ taken => taken = 0
  | .answered _ | .ended _ => True
  | _ => False

theorem Settled.callerAt {call : Call Outcome} (h : call.Settled) (k : Nat) :
    call.callerAt k ≠ .claimed ∧ call.callerAt k ≠ .waiting := by
  have hgiven : ∀ filled : List (Option (Completion Outcome)), given filled k .left ≠ .claimed ∧
      given filled k .left ≠ .waiting := by
    intro filled
    unfold given
    cases filled[k]?.join <;> simp
  unfold Settled at h
  split at h
  · next base taken hstage =>
    subst h
    simp only [Call.callerAt, hstage, add_zero]
    split_ifs
    · exact hgiven _
    · simp
  · next out hstage =>
    simp only [Call.callerAt, hstage]
    exact hgiven _
  · next down hstage =>
    simp only [Call.callerAt, hstage]
    split
    · exact hgiven _
    · simp
  · cases h

def Blank (filled : List (Option (Completion Outcome))) (base : Nat) : Prop := ∀ k, base ≤ k → filled[k]?.join = none

def missingOf (filled : List (Option (Completion Outcome))) (base : Nat) : Nat :=
  (filled.take base).countP Option.isNone

/-- What holds of a caller between its moves. -/
def Staged (call : Call Outcome) : Prop :=
  match call.stage with
  | .claiming base taken => base + taken ≤ call.wanted.length ∧ Blank call.filled base ∧
      missingOf call.filled base = 0 ∧ (call.kind ≠ .blocking → base = 0)
  | .undoing taken undone => taken ≤ call.wanted.length ∧ undone ≤ taken ∧ Blank call.filled 0
  | .submitting base run down => base + run ≤ call.wanted.length ∧ down ≤ run ∧ Blank call.filled base ∧
      missingOf call.filled base = 0 ∧ (call.kind ≠ .blocking → base = 0 ∧ run = call.wanted.length)
  | .releasing base run freed => base + run ≤ call.wanted.length ∧ freed ≤ run
  | .lone => call.wanted.length = 1 ∧ Blank call.filled 0
  | .pending wait | .gathering wait _ _ => wait.tags = call.wanted ∧ wait.filled.length = call.wanted.length ∧
      wait.outstanding = wait.filled.countP Option.isNone ∧ Blank call.filled 0
  | .dropping wait k => wait.tags = call.wanted ∧ k ≤ call.wanted.length ∧ Blank call.filled 0
  | .collecting base run _ missing => call.kind = .blocking ∧ base + run ≤ call.wanted.length ∧
      Blank call.filled (base + run) ∧ missingOf call.filled base = 0 ∧ missing = missingOf call.filled (base + run)
  | .orphaning base run k => base + run ≤ call.wanted.length ∧ k ≤ run
  | .answered out => out.length = call.wanted.length
  | .ended _ => True

structure Fine (call : Call Outcome) : Prop where
  lone : call.kind = .op → call.wanted.length = 1
  sized : call.filled.length = call.wanted.length
  staged : call.Staged

/-- A move that changes nothing but where in its work the caller is. -/
def Still (f : Flights Outcome) (call : Call Outcome) (moved : Moved Outcome) : Prop :=
  moved.slots = f.slots ∧ moved.sent = none ∧ moved.discarded = [] ∧
    ∀ k < call.wanted.length, (call.after moved).callerAt k = call.callerAt k

/-- A move that is a step of the op of its `k`-th tag, and leaves the others as they are. -/
structure Acts (f : Flights Outcome) (call : Call Outcome) (moved : Moved Outcome) (k : Nat) (tag : Tag)
    (story : Story Outcome) : Prop where
  tagged : call.wanted[k]? = some tag
  step : ∃ a, f.step a = some (f.put tag moved.slots story)
  caller : story.caller = (call.after moved).callerAt k
  pending : story.pending = ((f.story tag).pending || moved.sent = some tag)
  sent : moved.sent = none ∨ moved.sent = some tag
  filed : story.filed = (f.story tag).filed
  discarded : story.discarded = (f.story tag).discarded ++ moved.discarded
  others : ∀ j < call.wanted.length, j ≠ k → (call.after moved).callerAt j = call.callerAt j

def Matched (f : Flights Outcome) (call : Call Outcome) (moved : Moved Outcome) : Prop :=
  (call.after moved).Fine ∧ (Still f call moved ∨ ∃ k tag story, Acts f call moved k tag story)

variable {filled : List (Option (Completion Outcome))} {base k : Nat}

theorem given_set {j : Nat} (h : j ≠ k) (cell : Option (Completion Outcome)) (absent : Caller Outcome) :
    given (filled.set k cell) j absent = given filled j absent := by
  rw [given, getElem?_set_ne h.symm, given]

theorem given_blank (h : filled[k]?.join = none) (absent : Caller Outcome) :
    given filled k absent = absent := by
  rw [given, h, Option.elim_none]

/-- Among what is not missing, it makes no difference what stands for the missing. -/
theorem given_full (h : missingOf filled base = 0)
    (hk : k < base) (hlen : k < filled.length) (absent absent' : Caller Outcome) :
    given filled k absent = given filled k absent' := by
  have hmem : filled[k] ∈ filled.take base := mem_take_iff_getElem.mpr ⟨k, by omega, rfl⟩
  have hsome := countP_eq_zero.mp h _ hmem
  obtain ⟨completion, hcell⟩ : ∃ completion, filled[k] = some completion := by
    cases hcell : filled[k] with
    | none => simp [hcell] at hsome
    | some completion => exact ⟨completion, rfl⟩
  simp [given, getElem?_eq_getElem hlen, hcell]

theorem missingOf_blank {run : Nat} (h : Blank filled base)
    (hlen : base + run ≤ filled.length) : missingOf filled (base + run) = missingOf filled base + run := by
  have hall : ((filled.drop base).take run).countP Option.isNone = run := by
    refine (countP_eq_length.mpr fun cell hcell => ?_).trans (by simp; omega)
    obtain ⟨k, hk, rfl⟩ := mem_iff_getElem.mp hcell
    simp only [length_take, length_drop, lt_inf_iff] at hk
    have hnone := h (base + k) (Nat.le_add_right ..)
    rw [getElem?_eq_getElem (by omega)] at hnone
    simpa using hnone
  rw [missingOf, take_add, countP_append, hall, missingOf]

theorem countP_fill (hk : k < filled.length)
    (h : filled[k]?.join = none) (completion : Completion Outcome) :
    (filled.set k (some completion)).countP Option.isNone = filled.countP Option.isNone - 1 := by
  rw [getElem?_eq_getElem hk] at h
  have hnone : filled[k] = none := by simpa using h
  simp [countP_set hk, hnone]

theorem missingOf_fill (hk : k < filled.length)
    (h : filled[k]?.join = none) (completion : Completion Outcome) : missingOf (filled.set k (some completion)) base =
      if k < base then missingOf filled base - 1 else missingOf filled base := by
  unfold missingOf
  rw [take_set]
  split
  · next hlt =>
    refine countP_fill (by simp; omega) ?_ completion
    rw [getElem?_take_of_lt hlt]
    exact h
  · rw [set_eq_of_length_le (by simp; omega)]

theorem map_some_filterMap (h : ∀ cell ∈ filled, cell.isSome = true) :
    (filled.filterMap id).map some = filled := by
  induction filled with
  | nil => rfl
  | cons cell rest ih =>
    obtain ⟨completion, rfl⟩ := Option.isSome_iff_exists.mp (h cell mem_cons_self)
    simpa using ih fun cell hcell => h cell (mem_cons_of_mem _ hcell)

section
variable {f : Flights Outcome} {call : Call Outcome} {moved : Moved Outcome}

theorem Fine.turn (hfine : call.Fine) {slots : Slots Outcome} {stage : CallStage Outcome}
    (hstaged : (call.after (call.turn slots stage)).Staged) : (call.after (call.turn slots stage)).Fine :=
  ⟨hfine.lone, hfine.sized, hstaged⟩

theorem Fine.still (hfine : call.Fine) {stage : CallStage Outcome}
    (hstaged : (call.after (call.turn f.slots stage)).Staged)
    (h : ∀ k < call.wanted.length, (call.after (call.turn f.slots stage)).callerAt k = call.callerAt k) :
    Matched f call (call.turn f.slots stage) := ⟨hfine.turn hstaged, .inl ⟨rfl, rfl, rfl, h⟩⟩

/-- The caller's `k`-th op takes a step, and nothing else of it changes. -/
theorem Fine.acts (hfine : call.Fine) {slots : Slots Outcome} {stage : CallStage Outcome} {k : Nat} {tag : Tag}
    {c : Caller Outcome} {a : FlightStep Outcome} (hstaged : (call.after (call.turn slots stage)).Staged)
    (htag : call.wanted[k]? = some tag)
    (hstep : f.step a = some (f.put tag slots { f.story tag with caller := c }))
    (hcaller : c = (call.after (call.turn slots stage)).callerAt k)
    (hothers : ∀ j < call.wanted.length, j ≠ k →
      (call.after (call.turn slots stage)).callerAt j = call.callerAt j) :
    Matched f call (call.turn slots stage) :=
  ⟨hfine.turn hstaged, .inr ⟨k, tag, _, htag, ⟨a, hstep⟩, hcaller, by simp [Call.turn], .inl rfl, rfl,
    by simp [Call.turn], hothers⟩⟩

/-- The caller leaves its `k`-th op, and what that discards is the tag's. -/
theorem Fine.leaves (hfine : call.Fine) (stage : CallStage Outcome) {slots : Slots Outcome} {k : Nat} {tag : Tag}
    {discarded : List (Completion Outcome)} (hstaged : (call.after (call.turn slots stage)).Staged)
    (htag : call.wanted[k]? = some tag)
    (hstep : f.step (.drop tag) = some (f.put tag slots
      { f.story tag with caller := .left, discarded := (f.story tag).discarded ++ discarded }))
    (hcaller : (call.after (call.turn slots stage)).callerAt k = .left)
    (hothers : ∀ j < call.wanted.length, j ≠ k →
      (call.after (call.turn slots stage)).callerAt j = call.callerAt j) :
    Matched f call { call.turn slots stage with discarded } :=
  ⟨⟨hfine.lone, hfine.sized, hstaged⟩, .inr ⟨k, tag, _, htag, ⟨_, hstep⟩, hcaller.symm, by simp [Call.turn],
    .inl rfl, rfl, rfl, hothers⟩⟩

/-- Every op's completion is there to be handed back. -/
theorem answers (hfine : call.Fine) {absent : Caller Outcome}
    (hcaller : ∀ k < call.wanted.length, call.callerAt k = given filled k absent)
    (hlen : filled.length = call.wanted.length) (hnone : filled.countP Option.isNone = 0) :
    Matched f call (call.turn f.slots (.answered (filled.filterMap id))) := by
  have hmap : (filled.filterMap id).map some = filled := map_some_filterMap fun cell hcell =>
    Option.isSome_iff_ne_none.mpr (by simpa using countP_eq_zero.mp hnone cell hcell)
  refine hfine.still ?_ fun k hk => ?_
  · have hsame := congrArg length hmap
    rw [length_map] at hsame
    exact hsame.trans hlen
  · rw [hcaller k hk]
    simp only [callerAt, after, turn, hmap]
    exact given_full (by rwa [missingOf, take_length]) (hlen ▸ hk) (hlen ▸ hk) _ _

theorem collected_matched (hfine : call.Fine) (hstage : call.stage = .claiming base 0)
    (hend : base = call.wanted.length) : Matched f call (call.turn f.slots call.collected) := by
  have hstaged := hfine.staged
  simp only [Staged, hstage] at hstaged
  obtain ⟨-, -, hfull, -⟩ := hstaged
  have hnone : call.filled.countP Option.isNone = 0 := by
    rwa [missingOf, take_of_length_le (by rw [hfine.sized, hend])] at hfull
  have hall : call.filled.all Option.isSome = true := by
    rw [all_eq_true]
    intro cell hcell
    exact Option.isSome_iff_ne_none.mpr (by simpa using countP_eq_zero.mp hnone cell hcell)
  rw [show call.collected = .answered (call.filled.filterMap id) from if_pos hall]
  have hcaller : ∀ k < call.wanted.length, call.callerAt k = given call.filled k .left := fun k hk => by
    simp only [callerAt, hstage, hend, if_pos hk]
  exact answers hfine hcaller hfine.sized hnone

variable (hfine : call.Fine)
  (hcallers : ∀ k tag, call.wanted[k]? = some tag → (f.story tag).caller = call.callerAt k)
include hfine hcallers

section
variable (hmove : call.move f.slots = some moved)
include hmove

theorem claiming_matched {base taken : Nat} (hstage : call.stage = .claiming base taken) :
    Matched f call moved := by
  have hstaged := hfine.staged
  simp only [Staged, hstage] at hstaged
  obtain ⟨hbound, hblank, hfull, hkind⟩ := hstaged
  have hgiven : ∀ k < base, given call.filled k .waiting = given call.filled k .left :=
    fun k hk => given_full hfull hk (by have := hfine.sized; omega) _ _
  simp only [move, hstage] at hmove
  cases htag : call.wanted[base + taken]? with
  | none =>
    have hend : base + taken = call.wanted.length := by
      have := getElem?_eq_none_iff.mp htag
      omega
    rw [htag] at hmove
    obtain rfl := Option.some.inj hmove
    split
    · next hdone =>
      obtain ⟨rfl, -⟩ := hdone
      exact collected_matched hfine hstage hend
    · refine hfine.still ⟨hbound, Nat.zero_le _, hblank, hfull, fun hd => ?_⟩ fun k hk => ?_
      · have := hkind hd
        exact ⟨this, by change taken = call.wanted.length; omega⟩
      · simp only [callerAt, after, turn, hstage, add_zero]
        split_ifs with hlt
        · exact hgiven k hlt
        all_goals rfl
  | some tag =>
    have hlt : base + taken < call.wanted.length := (List.getElem?_eq_some_iff.mp htag).1
    have hidle : (f.story tag).caller = .idle := by
      rw [hcallers _ _ htag]
      simp [callerAt, hstage]
    have hstep : f.step (.claim tag) = some (f.put tag (f.slots.tryClaim tag).2
        { f.story tag with caller := if (f.slots.tryClaim tag).1 then .claimed else .idle }) := by
      simp only [Flights.step, hidle]
    rw [htag] at hmove
    obtain ⟨isClaimed, slots⟩ : ∃ isClaimed slots, f.slots.tryClaim tag = (isClaimed, slots) := ⟨_, _, rfl⟩
    obtain ⟨slots, hclaimed⟩ := slots
    simp only [hclaimed, Option.some.injEq] at hmove hstep
    subst hmove
    cases isClaimed with
    | true =>
      refine hfine.acts ⟨by change base + (taken + 1) ≤ call.wanted.length; omega, hblank, hfull, hkind⟩ htag hstep
        ?_ fun k hk hne => ?_
      · simp [callerAt, after, turn]
      · simp only [callerAt, after, turn, hstage, if_true]
        split_ifs <;> first | rfl | omega
    | false =>
      have hrefused : ∀ stage : CallStage Outcome, (call.after (call.turn slots stage)).Staged →
          (∀ k, (call.after (call.turn slots stage)).callerAt k = call.callerAt k) →
          Matched f call (call.turn slots stage) := by
        intro stage hstaged hsame
        refine hfine.acts hstaged htag hstep ?_ fun k _ _ => hsame k
        rw [hsame, ← hcallers _ _ htag, hidle]
        rfl
      have hfuture : call.kind ≠ .blocking → Matched f call (call.turn slots (.undoing taken 0)) := by
        intro hd
        obtain rfl := hkind hd
        refine hrefused _ ⟨by change taken ≤ call.wanted.length; omega, Nat.zero_le _, hblank⟩ fun k => ?_
        simp [callerAt, after, turn, hstage]
      simp only [Bool.false_eq_true, if_false]
      cases hd : call.kind with
      | op => exact hfuture (by rw [hd]; decide)
      | batch => exact hfuture (by rw [hd]; decide)
      | blocking =>
        dsimp only
        split
        · next hnone =>
          subst hnone
          exact hrefused _ ⟨hbound, hblank, hfull, hkind⟩ fun k => by simp only [callerAt, after, turn, hstage]
        · refine hrefused _ ⟨hbound, Nat.zero_le _, hblank, hfull, fun hnot => absurd hd hnot⟩ fun k => ?_
          simp only [callerAt, after, turn, hstage, add_zero]
          split_ifs with hlt
          · exact hgiven k hlt
          all_goals rfl

theorem undoing_matched {taken undone : Nat} (hstage : call.stage = .undoing taken undone) :
    Matched f call moved := by
  have hstaged := hfine.staged
  simp only [Staged, hstage] at hstaged
  obtain ⟨hbound, hundone, hblank⟩ := hstaged
  simp only [move, hstage] at hmove
  split at hmove
  · next hlt =>
    obtain ⟨tag, htag, hmove⟩ := Option.bind_eq_some_iff.mp hmove
    obtain rfl := Option.some.inj hmove
    have hcaller : (f.story tag).caller = .claimed := by
      rw [hcallers _ _ htag]
      simp [callerAt, hstage, hlt]
    refine hfine.acts ⟨hbound, hlt, hblank⟩ (a := .rollback tag) (c := .idle) htag
      (by simp only [Flights.step, hcaller]) ?_ fun k hk hne => ?_
    · simp [callerAt, after, turn]
    · simp only [callerAt, after, turn, hstage]
      split_ifs <;> first | rfl | omega
  · next hdone =>
    obtain rfl := Option.some.inj hmove
    refine hfine.still ⟨Nat.zero_le _, hblank, by simp [missingOf], fun _ => rfl⟩ fun k hk => ?_
    simp only [callerAt, after, turn, hstage]
    split_ifs <;> first | rfl | omega

theorem releasing_matched {base run freed : Nat} (hstage : call.stage = .releasing base run freed) :
    Matched f call moved := by
  have hstaged := hfine.staged
  simp only [Staged, hstage] at hstaged
  obtain ⟨hbound, hfreed⟩ := hstaged
  simp only [move, hstage] at hmove
  split at hmove
  · next hlt =>
    obtain ⟨tag, htag, hmove⟩ := Option.bind_eq_some_iff.mp hmove
    obtain rfl := Option.some.inj hmove
    have hcaller : (f.story tag).caller = .claimed := by
      rw [hcallers _ _ htag]
      simp [callerAt, hstage, hlt]
    refine hfine.acts ⟨hbound, hlt⟩ (a := .release tag) (c := .idle) htag
      (by simp only [Flights.step, hcaller]) ?_ fun k hk hne => ?_
    · simp [callerAt, after, turn]
    · simp only [callerAt, after, turn, hstage]
      split_ifs <;> first | rfl | omega
  · next hdone =>
    obtain rfl := Option.some.inj hmove
    refine hfine.still trivial fun k hk => ?_
    simp only [callerAt, after, turn, hstage]
    split_ifs <;> first | rfl | omega

theorem submitting_matched {base run down : Nat} (hstage : call.stage = .submitting base run down) :
    Matched f call moved := by
  have hstaged := hfine.staged
  simp only [Staged, hstage] at hstaged
  obtain ⟨hbound, hdown, hblank, hfull, hkind⟩ := hstaged
  simp only [move, hstage] at hmove
  split at hmove
  · next hlt =>
    obtain ⟨tag, htag, hmove⟩ := Option.bind_eq_some_iff.mp hmove
    obtain rfl := Option.some.inj hmove
    have hcaller : (f.story tag).caller = .claimed := by
      rw [hcallers _ _ htag]
      simp [callerAt, hstage, hlt]
    refine ⟨⟨hfine.lone, hfine.sized, hbound, hlt, hblank, hfull, hkind⟩, .inr ⟨_, tag,
      { f.story tag with caller := .waiting, pending := true }, htag,
      ⟨.submit tag, by simp only [Flights.step, hcaller]; rfl⟩, ?_, by simp, .inr rfl, rfl, by simp [turn],
      fun k hk hne => ?_⟩⟩
    · simp [callerAt, after, turn, given_blank (hblank _ (Nat.le_add_right ..))]
    · simp only [callerAt, after, turn, hstage]
      split_ifs <;> first | rfl | omega
  · next hdone =>
    obtain rfl := Option.some.inj hmove
    obtain rfl : down = run := by omega
    have hwaiting : ∀ k < base + down, base ≤ k → call.callerAt k = .waiting := by
      intro k hlt hle
      simp only [callerAt, hstage, if_pos hlt]
      exact given_blank (hblank k hle) _
    unfold begins
    split
    · next hop =>
      obtain ⟨rfl, hall⟩ := hkind (by rw [hop]; decide)
      exact hfine.still ⟨hfine.lone hop, hblank⟩ fun k hk => (hwaiting k (by omega) (Nat.zero_le _)).symm
    · next hbatch =>
      obtain ⟨rfl, hall⟩ := hkind (by rw [hbatch]; decide)
      refine hfine.still ⟨runsOf_tags _, length_replicate, by simp [waitBatch, countP_replicate], hblank⟩ fun k hk => ?_
      rw [hwaiting k (by omega) (Nat.zero_le _)]
      exact given_blank (by simp [waitBatch, hk]) _
    · next hblocking =>
      refine hfine.still ⟨hblocking, hbound, fun k hk => hblank k (by omega), hfull, ?_⟩ fun k hk => ?_
      · change down = missingOf call.filled (base + down)
        rw [missingOf_blank hblank (by rw [hfine.sized]; exact hbound), hfull, zero_add]
      · simp only [callerAt, after, turn, hstage]
        split_ifs <;> rfl

theorem gathering_matched {wait : BatchWait Outcome} {k : Nat} {waker : Waker}
    (hstage : call.stage = .gathering wait k waker) :
    Matched f call moved := by
  have hstaged := hfine.staged
  simp only [Staged, hstage] at hstaged
  obtain ⟨htags, hlen, hout, hblank⟩ := hstaged
  have hcaller : ∀ j, call.callerAt j = given wait.filled j .waiting := fun j => by simp only [callerAt, hstage]
  simp only [move, hstage] at hmove
  split at hmove
  · next tag htag =>
    rw [htags] at htag
    have hk : k < wait.filled.length := hlen ▸ (List.getElem?_eq_some_iff.mp htag).1
    split at hmove
    · obtain rfl := Option.some.inj hmove
      exact hfine.still ⟨htags, hlen, hout, hblank⟩ fun j _ => (hcaller j).symm
    · next hnone =>
      have hwaiting : (f.story tag).caller = .waiting := by
        rw [hcallers _ _ htag, hcaller, given_blank hnone]
      have hstep : f.step (.poll tag waker) = some (f.handed tag (f.slots.takeOrSeat tag waker)) := by
        simp only [Flights.step, hwaiting]
      obtain ⟨taken, slots, htaken⟩ : ∃ taken slots, f.slots.takeOrSeat tag waker = (taken, slots) := ⟨_, _, rfl⟩
      simp only [htaken, Option.some.injEq] at hmove hstep
      subst hmove
      cases taken with
      | none =>
        refine hfine.acts ⟨htags, hlen, hout, hblank⟩ htag hstep ?_ fun j _ _ =>
          (hcaller j).symm
        exact (given_blank hnone _).symm
      | some completion =>
        refine hfine.acts ⟨htags, length_set.trans hlen, ?_, hblank⟩ htag hstep ?_ fun j _ hne => ?_
        · exact (congrArg (· - 1) hout).trans (countP_fill hk hnone completion).symm
        · simp [callerAt, after, turn, BatchWait.fill, given, hk]
        · exact (given_set hne _ _).trans (hcaller j).symm
  · next hend =>
    obtain rfl := Option.some.inj hmove
    split
    · exact hfine.still ⟨htags, hlen, hout, hblank⟩ fun j _ => (hcaller j).symm
    · next hnone => exact answers hfine (fun j _ => hcaller j) hlen (by omega)

theorem dropping_matched {wait : BatchWait Outcome} {k : Nat} (hstage : call.stage = .dropping wait k) :
    Matched f call moved := by
  have hstaged := hfine.staged
  simp only [Staged, hstage] at hstaged
  obtain ⟨htags, hk, hblank⟩ := hstaged
  have hcaller : ∀ j, call.callerAt j = if j < k then .left else given wait.filled j .waiting :=
    fun j => by simp only [callerAt, hstage]
  simp only [move, hstage] at hmove
  split at hmove
  · next tag htag =>
    rw [htags] at htag
    have hlt := (List.getElem?_eq_some_iff.mp htag).1
    have hhere := (hcallers _ _ htag).trans ((hcaller k).trans (if_neg (lt_irrefl k)))
    split at hmove
    · next completion hsome =>
      obtain rfl := Option.some.inj hmove
      have htaken : (f.story tag).caller = .taken completion := by rw [hhere, given, hsome, Option.elim_some]
      refine hfine.leaves (.dropping { wait with filled := wait.filled.set k none } (k + 1)) ⟨htags, hlt, hblank⟩ htag
        (by simp only [Flights.step, htaken]) ?_ fun j _ hne => ?_
      · simp [callerAt, after, turn]
      · rw [hcaller]
        simp only [callerAt, after, turn, given_set hne]
        split_ifs <;> first | rfl | omega
    · next hnone =>
      obtain rfl := Option.some.inj hmove
      have hwaiting : (f.story tag).caller = .waiting := hhere.trans (given_blank hnone _)
      refine hfine.leaves (.dropping wait (k + 1)) ⟨htags, hlt, hblank⟩ htag
        (by simp only [Flights.step, hwaiting]) ?_ fun j _ hne => ?_
      · simp [callerAt, after, turn]
      · rw [hcaller]
        simp only [callerAt, after, turn]
        split_ifs <;> first | rfl | omega
  · next hend =>
    obtain rfl := Option.some.inj hmove
    have hover := getElem?_eq_none_iff.mp (htags ▸ hend)
    refine hfine.still trivial fun j hj => ?_
    rw [hcaller, if_pos (by omega)]
    simp only [callerAt, after, turn, if_pos hj]
    exact given_blank (hblank j (Nat.zero_le _)) _

theorem collecting_matched {base run k missing : Nat} (hstage : call.stage = .collecting base run k missing) :
    Matched f call moved := by
  have hstaged := hfine.staged
  simp only [Staged, hstage] at hstaged
  obtain ⟨hkind, hbound, hblank, hfull, hmissing⟩ := hstaged
  have hcaller : ∀ j, call.callerAt j = if j < base + run then given call.filled j .waiting else .idle :=
    fun j => by simp only [callerAt, hstage]
  simp only [move, hstage] at hmove
  split at hmove
  · next hk =>
    split at hmove
    · obtain rfl := Option.some.inj hmove
      exact hfine.still ⟨hkind, hbound, hblank, hfull, hmissing⟩ fun j _ => (hcaller j).symm
    · next hnone =>
      obtain ⟨tag, htag, hmove⟩ := Option.bind_eq_some_iff.mp hmove
      have hwaiting : (f.story tag).caller = .waiting := by
        rw [hcallers _ _ htag, hcaller, if_pos (by omega), given_blank hnone]
      have hstep : f.step (.take tag) = some (f.handed tag (f.slots.take tag)) := by
        simp only [Flights.step, hwaiting]
      obtain ⟨taken, slots, htaken⟩ : ∃ taken slots, f.slots.take tag = (taken, slots) := ⟨_, _, rfl⟩
      simp only [htaken] at hmove hstep
      cases taken with
      | none =>
        obtain rfl := Option.some.inj hmove
        refine hfine.acts ⟨hkind, hbound, hblank, hfull, hmissing⟩ htag hstep ?_ fun j _ _ =>
          (hcaller j).symm
        simp [callerAt, after, turn, hk, given_blank hnone]
      | some completion =>
        obtain rfl := Option.some.inj hmove
        have hlt : base + k < call.filled.length := by
          have := hfine.sized
          omega
        refine ⟨⟨hfine.lone, length_set.trans hfine.sized, hkind, hbound, fun j hj => ?_, ?_, ?_⟩, .inr ⟨base + k, tag,
          { f.story tag with caller := .taken completion }, htag, ⟨.take tag, hstep⟩, ?_, by simp [turn], .inl rfl, rfl,
          by simp [turn], fun j _ hne => ?_⟩⟩
        · change (call.filled.set (base + k) (some completion))[j]?.join = none
          rw [getElem?_set_ne (by omega)]
          exact hblank j hj
        · exact (missingOf_fill hlt hnone completion).trans ((if_neg (by omega)).trans hfull)
        · exact (congrArg (· - 1) hmissing).trans ((missingOf_fill hlt hnone completion).trans (if_pos (by omega))).symm
        · simp [callerAt, after, turn, given, hlt, hk]
        · rw [hcaller]
          simp only [callerAt, after, turn, given_set hne]
  · obtain rfl := Option.some.inj hmove
    split
    · next hzero =>
      refine hfine.still ⟨hbound, hblank, hmissing.symm.trans hzero, fun hnot => absurd hkind hnot⟩ fun j hj => ?_
      rw [hcaller]
      simp only [callerAt, after, turn, add_zero]
      split_ifs with hlt
      · exact given_full (hmissing.symm.trans hzero) hlt (by have := hfine.sized; omega) _ _
      · rfl
    · exact hfine.still ⟨hkind, hbound, hblank, hfull, hmissing⟩ fun j _ => (hcaller j).symm

theorem orphaning_matched {base run k : Nat} (hstage : call.stage = .orphaning base run k) :
    Matched f call moved := by
  have hstaged := hfine.staged
  simp only [Staged, hstage] at hstaged
  obtain ⟨hbound, hle⟩ := hstaged
  have hcaller : ∀ j, call.callerAt j = if j < base + k then given call.filled j .left
      else if j < base + run then given call.filled j .waiting else .idle := fun j => by simp only [callerAt, hstage]
  simp only [move, hstage] at hmove
  split at hmove
  · next hk =>
    split at hmove
    · next completion hsome =>
      obtain rfl := Option.some.inj hmove
      refine hfine.still ⟨hbound, hk⟩ fun j _ => ?_
      rw [hcaller]
      simp only [callerAt, after, turn]
      by_cases hj : j = base + k
      · subst hj
        simp [given, hsome, hk]
      · split_ifs <;> first | rfl | omega
    · next hnone =>
      obtain ⟨tag, htag, hmove⟩ := Option.bind_eq_some_iff.mp hmove
      obtain rfl := Option.some.inj hmove
      have hwaiting : (f.story tag).caller = .waiting := by
        rw [hcallers _ _ htag, hcaller, if_neg (by omega), if_pos (by omega), given_blank hnone]
      refine hfine.leaves (.orphaning base run (k + 1)) ⟨hbound, hk⟩ htag
        (by simp only [Flights.step, hwaiting]) ?_ fun j _ hne => ?_
      · simp [callerAt, after, turn, given_blank hnone]
      · rw [hcaller]
        simp only [callerAt, after, turn]
        split_ifs <;> first | rfl | omega
  · obtain rfl := Option.some.inj hmove
    refine hfine.still trivial fun j _ => ?_
    rw [hcaller]
    simp only [callerAt, after, turn]
    split_ifs <;> first | rfl | omega

theorem move_matched : Matched f call moved := by
  cases hstage : call.stage with
  | claiming => exact claiming_matched hfine hcallers hmove hstage
  | undoing => exact undoing_matched hfine hcallers hmove hstage
  | submitting => exact submitting_matched hfine hcallers hmove hstage
  | releasing => exact releasing_matched hfine hcallers hmove hstage
  | gathering => exact gathering_matched hfine hcallers hmove hstage
  | dropping => exact dropping_matched hfine hcallers hmove hstage
  | collecting => exact collecting_matched hfine hcallers hmove hstage
  | orphaning => exact orphaning_matched hfine hcallers hmove hstage
  | lone | pending | answered | ended =>
    simp only [move, hstage] at hmove
    cases hmove

end

theorem poll_matched {waker : Waker} (hpoll : call.poll f.slots waker = some moved) : Matched f call moved := by
  have hstaged := hfine.staged
  unfold poll at hpoll
  split at hpoll
  · next hstage =>
    simp only [Staged, hstage] at hstaged
    obtain ⟨hone, hblank⟩ := hstaged
    obtain ⟨tag, htag, hpoll⟩ := Option.bind_eq_some_iff.mp hpoll
    rw [head?_eq_getElem?] at htag
    have hwaiting : (f.story tag).caller = .waiting := by
      rw [hcallers _ _ htag]
      simp only [callerAt, hstage]
    have hstep : f.step (.poll tag waker) = some (f.handed tag (f.slots.takeOrSeat tag waker)) := by
      simp only [Flights.step, hwaiting]
    obtain ⟨taken, slots, htaken⟩ : ∃ taken slots, f.slots.takeOrSeat tag waker = (taken, slots) := ⟨_, _, rfl⟩
    simp only [htaken, Option.some.injEq] at hpoll hstep
    subst hpoll
    cases taken with
    | none => exact hfine.acts ⟨hone, hblank⟩ htag hstep rfl fun j hj hne => by omega
    | some completion =>
      exact hfine.acts hone.symm htag hstep rfl fun j hj hne => by omega
  · next wait hstage =>
    simp only [Staged, hstage] at hstaged
    obtain ⟨htags, hlen, hout, hblank⟩ := hstaged
    have hcaller : ∀ j, call.callerAt j = given wait.filled j .waiting := fun j => by simp only [callerAt, hstage]
    obtain rfl := Option.some.inj hpoll
    split
    · exact hfine.still ⟨htags, hlen, hout, hblank⟩ fun j _ => (hcaller j).symm
    · exact answers hfine (fun j _ => hcaller j) hlen (by omega)
  · cases hpoll

omit hcallers in
theorem giveUp_matched (hgive : call.giveUp f.slots = some moved) : Matched f call moved := by
  have hstaged := hfine.staged
  unfold giveUp at hgive
  split at hgive
  · next base hstage =>
    obtain rfl := Option.some.inj hgive
    refine hfine.still trivial fun j _ => ?_
    simp only [callerAt, after, turn, hstage, add_zero]
    split_ifs <;> rfl
  · next base run hstage =>
    simp only [Staged, hstage] at hstaged
    obtain ⟨hbound, -, -, hfull, -⟩ := hstaged
    obtain rfl := Option.some.inj hgive
    refine hfine.still ⟨hbound, Nat.zero_le _⟩ fun j hj => ?_
    simp only [callerAt, after, turn, hstage, add_zero]
    split_ifs with hlt <;> first | rfl | omega | skip
    exact given_full hfull hlt (by have := hfine.sized; omega) _ _
  · next base run k missing hstage =>
    simp only [Staged, hstage] at hstaged
    obtain ⟨-, hbound, -, hfull, -⟩ := hstaged
    split at hgive
    · obtain rfl := Option.some.inj hgive
      refine hfine.still ⟨hbound, Nat.zero_le _⟩ fun j hj => ?_
      simp only [callerAt, after, turn, hstage, add_zero]
      split_ifs with hlt <;> first | rfl | omega | skip
      exact given_full hfull hlt (by have := hfine.sized; omega) _ _
    · cases hgive
  · cases hgive

theorem drop_matched (hdrop : call.drop f.slots = some moved) : Matched f call moved := by
  have hstaged := hfine.staged
  unfold Call.drop at hdrop
  split at hdrop
  · next hstage =>
    simp only [Staged, hstage] at hstaged
    obtain ⟨hone, hblank⟩ := hstaged
    obtain ⟨tag, htag, hdrop⟩ := Option.bind_eq_some_iff.mp hdrop
    rw [head?_eq_getElem?] at htag
    obtain rfl := Option.some.inj hdrop
    have hwaiting : (f.story tag).caller = .waiting := by
      rw [hcallers _ _ htag]
      simp only [callerAt, hstage]
    have hstep : f.step (.drop tag) = some (f.put tag (f.slots.orphan tag).2 { f.story tag with
        caller := .left, discarded := (f.story tag).discarded ++ (f.slots.orphan tag).1.toList }) := by
      simp only [Flights.step, hwaiting]
    exact hfine.leaves (.ended 1) trivial htag hstep (given_blank (hblank 0 le_rfl) _) fun j _ hne => by omega
  · next wait hstage =>
    simp only [Staged, hstage] at hstaged
    obtain ⟨htags, -, -, hblank⟩ := hstaged
    obtain rfl := Option.some.inj hdrop
    refine hfine.still ⟨htags, Nat.zero_le _, hblank⟩ fun j _ => ?_
    simp only [callerAt, after, turn, hstage]
    rfl
  · next out hstage =>
    simp only [Staged, hstage] at hstaged
    have hcaller : ∀ j, call.callerAt j = given (out.map some) j .left := fun j => by simp only [callerAt, hstage]
    split at hdrop
    · obtain ⟨tag, htag, hdrop⟩ := Option.bind_eq_some_iff.mp hdrop
      rw [head?_eq_getElem?] at htag
      obtain rfl := Option.some.inj hdrop
      have hlt : 0 < out.length := hstaged ▸ (List.getElem?_eq_some_iff.mp htag).1
      have htaken : (f.story tag).caller = .taken out[0] := by
        rw [hcallers _ _ htag, hcaller]
        simp [given, getElem?_eq_getElem hlt]
      refine ⟨⟨hfine.lone, hfine.sized, hstaged⟩, .inr ⟨0, tag, { f.story tag with
          discarded := (f.story tag).discarded ++ (f.slots.orphan tag).1.toList }, htag,
        ⟨.orphan tag, by simp only [Flights.step, htaken]; rfl⟩, ?_, by simp [turn], .inl rfl, rfl, rfl, fun j _ _ =>
          (hcaller j).symm⟩⟩
      exact (hcallers _ _ htag).trans (hcaller 0)
    all_goals
      obtain rfl := Option.some.inj hdrop
      exact hfine.still hstaged fun j _ => (hcaller j).symm
  · cases hdrop

end

end Call

namespace Waits
variable {Outcome : Type} {s s' : Waits Outcome} {f : Flights Outcome}

/-- The ops of all tags, as the callers and the table show them. -/
structure Shows (s : Waits Outcome) (f : Flights Outcome) : Prop where
  slots : f.slots = s.slots
  pending : ∀ tag, (f.story tag).pending = s.pending tag
  filed : ∀ tag, (f.story tag).filed = s.filed.filter (·.tag = tag)
  discarded : ∀ tag, (f.story tag).discarded = s.discarded.filter (·.tag = tag)
  callers : ∀ (i : Nat) (call : Call Outcome), s.calls[i]? = some call → ∀ k tag, call.wanted[k]? = some tag →
    (f.story tag).caller = call.callerAt k
  spare : ∀ tag, (∀ call ∈ s.calls, tag ∉ call.wanted) → (f.story tag).caller = .idle
  distinct : (s.calls.flatMap Call.wanted).Nodup
  fine : ∀ call ∈ s.calls, call.Fine

theorem shows_fresh : Shows (fresh : Waits Outcome) Flights.fresh :=
  ⟨rfl, fun _ => rfl, fun _ => rfl, fun _ => rfl, by simp [fresh], fun _ _ => rfl, by simp [fresh], by simp [fresh]⟩

/-- A tag has one caller, which has it in one place. -/
theorem Shows.only (h : Shows s f) {i j k l : Nat} {call other : Call Outcome} {tag : Tag}
    (hcall : s.calls[i]? = some call) (hother : s.calls[j]? = some other) (hk : call.wanted[k]? = some tag)
    (hl : other.wanted[l]? = some tag) : i = j ∧ k = l := by
  obtain ⟨hnodup, hpair⟩ := nodup_flatMap.mp h.distinct
  obtain ⟨hi, rfl⟩ := List.getElem?_eq_some_iff.mp hcall
  obtain ⟨hj, rfl⟩ := List.getElem?_eq_some_iff.mp hother
  have hsame : i = j := by
    rcases lt_trichotomy i j with hlt | heq | hlt
    · exact absurd (mem_of_getElem? hl) (pairwise_iff_getElem.mp hpair i j hi hj hlt (mem_of_getElem? hk))
    · exact heq
    · exact absurd (mem_of_getElem? hk) (pairwise_iff_getElem.mp hpair j i hj hi hlt (mem_of_getElem? hl))
  subst hsame
  obtain ⟨hk, htag⟩ := List.getElem?_eq_some_iff.mp hk
  obtain ⟨hl, htag'⟩ := List.getElem?_eq_some_iff.mp hl
  exact ⟨rfl, (hnodup _ (getElem_mem hi)).getElem_inj_iff.mp (htag.trans htag'.symm)⟩

theorem filter_log {log extra : List (Completion Outcome)} {tag : Tag} (h : ∀ completion ∈ extra, completion.tag = tag)
    (other : Tag) : (log ++ extra).filter (·.tag = other) =
      log.filter (·.tag = other) ++ if other = tag then extra else [] := by
  rw [filter_append]
  congr 1
  split
  · next heq => exact filter_eq_self.mpr fun completion hin => by simp [h completion hin, heq]
  · next hne => exact filter_eq_nil_iff.mpr fun completion hin => by simp [h completion hin, Ne.symm hne]

/-- What a step of one tag's op must leave for the callers to show it still. -/
theorem Shows.put (h : Shows s f) {tag : Tag} {story : Story Outcome} {filed discarded : List (Completion Outcome)}
    (hpending : ∀ other, s'.pending other = if other = tag then story.pending else s.pending other)
    (hfiled : s'.filed = s.filed ++ filed ∧ story.filed = (f.story tag).filed ++ filed)
    (hfiledTag : ∀ completion ∈ filed, completion.tag = tag)
    (hdiscarded : s'.discarded = s.discarded ++ discarded ∧ story.discarded = (f.story tag).discarded ++ discarded)
    (hdiscardedTag : ∀ completion ∈ discarded, completion.tag = tag)
    (hwanted : s'.calls.map Call.wanted = s.calls.map Call.wanted) (hfine : ∀ call ∈ s'.calls, call.Fine)
    (hcallers : ∀ (i : Nat) (call : Call Outcome), s'.calls[i]? = some call → ∀ k other, call.wanted[k]? = some other →
      (if other = tag then story.caller else (f.story other).caller) = call.callerAt k)
    (hspare : (∀ call ∈ s'.calls, tag ∉ call.wanted) → story.caller = .idle) :
    Shows s' (f.put tag s'.slots story) := by
  have hstory : ∀ other, (f.put tag s'.slots story).story other = if other = tag then story else f.story other :=
    fun other => Function.update_apply ..
  have hsame : ∀ other, (∀ call ∈ s'.calls, other ∉ call.wanted) ↔ ∀ call ∈ s.calls, other ∉ call.wanted := by
    intro other
    rw [← forall_mem_map (P := fun wanted => other ∉ wanted), hwanted, forall_mem_map]
  refine ⟨rfl, fun other => ?_, fun other => ?_, fun other => ?_, fun i call hcall k other hk => ?_,
    fun other hother => ?_, ?_, hfine⟩
  · rw [hstory, hpending, apply_ite Story.pending, h.pending]
  · rw [hstory, hfiled.1, filter_log hfiledTag, apply_ite Story.filed, ← h.filed]
    split
    · next heq => rw [heq, hfiled.2]
    · rw [append_nil]
  · rw [hstory, hdiscarded.1, filter_log hdiscardedTag, apply_ite Story.discarded, ← h.discarded]
    split
    · next heq => rw [heq, hdiscarded.2]
    · rw [append_nil]
  · rw [hstory, apply_ite Story.caller]
    exact hcallers i call hcall k other hk
  · rw [hstory]
    split
    · next heq => exact hspare (heq ▸ hother)
    · exact h.spare other ((hsame other).mp hother)
  · have hdistinct := h.distinct
    rwa [flatMap_def, ← hwanted, ← flatMap_def] at hdistinct

/-- What is discarded of a tag's op is a completion of the tag. -/
theorem discarded_tag (h : Flights.Inv f) (tag : Tag) {completion : Completion Outcome}
    (hin : completion ∈ (f.story tag).discarded) : completion.tag = tag := by
  rcases (h.lived tag).fate with ⟨-, hnone⟩ | ⟨only, htag, -, ⟨-, -, -, hnone⟩ | ⟨-, hnone⟩ | ⟨-, hone⟩⟩
  · simp [hnone] at hin
  · simp [hnone] at hin
  · simp [hnone] at hin
  · rw [hone, mem_singleton] at hin
    exact hin ▸ htag

theorem Shows.file (h : Shows s f) (hinv : Flights.Inv f) {tag : Tag} {outcome : Outcome}
    (hs : s.step (.file tag outcome) = some s') : ∃ f', Flights.Inv f' ∧ Shows s' f' := by
  simp only [step] at hs
  split at hs
  · next hpending =>
    obtain rfl := Option.some.inj hs
    have hstep : f.step (.file tag outcome) = some _ := if_pos ((h.pending tag).trans hpending)
    refine ⟨_, hinv.step hstep, ?_⟩
    rw [h.slots]
    refine h.put (fun other => Function.update_apply ..) ⟨rfl, rfl⟩ (by simp) ⟨rfl, rfl⟩
      (fun completion hin => ?_) rfl h.fine (fun i call hcall k other hk => ?_) (h.spare tag)
    · unfold Slots.discards at hin
      dsimp only at hin
      split at hin
      · cases hin
      · rw [mem_singleton.mp hin]
    · rw [← h.callers i call hcall k other hk]
      split
      · next heq => rw [heq]
      · rfl
  · cases hs

theorem Shows.moved (h : Shows s f) (hinv : Flights.Inv f) {i : Nat} {call : Call Outcome}
    (hcall : s.calls[i]? = some call) {m : Moved Outcome} (hm : call.Matched f m) :
    ∃ f', Flights.Inv f' ∧ Shows (s.moved i call m) f' := by
  have hi := (List.getElem?_eq_some_iff.mp hcall).1
  have hset : ∀ (j : Nat) (other : Call Outcome), (s.calls.set i (call.after m))[j]? = some other →
      j = i ∧ other = call.after m ∨ j ≠ i ∧ s.calls[j]? = some other := by
    intro j other hother
    by_cases hj : j = i
    · subst hj
      rw [getElem?_set_self hi] at hother
      exact .inl ⟨rfl, (Option.some.inj hother).symm⟩
    · rw [getElem?_set_ne (Ne.symm hj)] at hother
      exact .inr ⟨hj, hother⟩
  have hwanted : (s.calls.set i (call.after m)).map Call.wanted = s.calls.map Call.wanted := by
    have hsame : (call.after m).wanted = (s.calls.get ⟨i, hi⟩).wanted := by
      rw [get_eq_getElem, (List.getElem?_eq_some_iff.mp hcall).2]
      rfl
    rw [map_set, hsame, ← map_set, get_eq_getElem, set_getElem_self]
  have hfine' : ∀ other ∈ s.calls.set i (call.after m), other.Fine := by
    intro other hother
    rcases mem_or_eq_of_mem_set hother with hin | rfl
    · exact h.fine other hin
    · exact hm.1
  obtain ⟨-, hstill | ⟨k, tag, story, hacts⟩⟩ := hm
  · obtain ⟨hslots, hsent, hdiscarded, hcallers⟩ := hstill
    refine ⟨f, hinv, hslots.symm, fun tag => ?_, h.filed, fun tag => ?_, fun j other hother l tag hl => ?_,
      fun tag htag => h.spare tag ?_, ?_, hfine'⟩
    · simp [Waits.moved, hsent, h.pending]
    · simp [Waits.moved, hdiscarded, h.discarded]
    · rcases hset j other hother with ⟨-, rfl⟩ | ⟨-, hother⟩
      · exact (h.callers i call hcall l tag hl).trans (hcallers l (List.getElem?_eq_some_iff.mp hl).1).symm
      · exact h.callers j other hother l tag hl
    · rwa [← forall_mem_map (P := fun wanted => tag ∉ wanted), ← hwanted, forall_mem_map]
    · have hdistinct := h.distinct
      rwa [flatMap_def, ← hwanted, ← flatMap_def] at hdistinct
  · obtain ⟨a, hstep⟩ := hacts.step
    have hinv' := hinv.step hstep
    refine ⟨_, hinv', ?_⟩
    refine h.put (fun other => ?_) ⟨(append_nil _).symm, by rw [hacts.filed, append_nil]⟩ (by simp)
      ⟨rfl, hacts.discarded⟩ (fun completion hin => ?_) hwanted hfine' (fun j other hother l t hl => ?_) fun hnone => ?_
    · have hsent := hacts.sent
      simp only [Waits.moved]
      split
      · next heq => rw [heq, hacts.pending, h.pending]
      · next hne =>
        have hnot : m.sent ≠ some other := by
          rcases hsent with hnone | hsome
          · simp [hnone]
          · rw [hsome]
            exact fun heq => hne (Option.some.inj heq).symm
        simp [hnot]
    · refine discarded_tag hinv' tag ?_
      simp [Flights.put, hacts.discarded, hin]
    · rcases hset j other hother with ⟨rfl, rfl⟩ | ⟨hne, hother⟩
      · split
        · next heq =>
          subst heq
          rw [(h.only hcall hcall hl hacts.tagged).2]
          exact hacts.caller
        · next hne =>
          rw [h.callers j call hcall l t hl]
          refine (hacts.others l (List.getElem?_eq_some_iff.mp hl).1 fun heq => hne ?_).symm
          exact Option.some.inj (hl.symm.trans (heq ▸ hacts.tagged))
      · rw [if_neg fun heq => hne (h.only hother hcall hl (heq ▸ hacts.tagged)).1]
        exact h.callers j other hother l t hl
    · exact absurd (mem_of_getElem? hacts.tagged) (hnone (call.after m) (mem_set hi _))

theorem Shows.call (h : Shows s f) {kind : CallKind} {wanted : List Tag} (haccepts : s.accepts kind wanted = true) :
    Shows { s with calls := s.calls ++ [⟨kind, wanted, replicate wanted.length none, .claiming 0 0⟩] } f := by
  simp only [accepts, Bool.and_eq_true, decide_eq_true_eq, all_eq_true] at haccepts
  obtain ⟨⟨hnodup, hnew⟩, hkind⟩ := haccepts
  have hfresh : ∀ tag ∈ wanted, ∀ call ∈ s.calls, tag ∉ call.wanted := fun tag htag call hcall =>
    hnew call hcall tag htag
  refine ⟨h.slots, h.pending, h.filed, h.discarded, fun i call hcall k tag hk => ?_, fun tag htag => ?_, ?_,
    fun call hcall => ?_⟩
  · rw [getElem?_append] at hcall
    split at hcall
    · exact h.callers i call hcall k tag hk
    · obtain rfl := mem_singleton.mp (mem_of_getElem? hcall)
      rw [h.spare tag (hfresh tag (mem_of_getElem? hk))]
      simp [Call.callerAt]
  · exact h.spare tag fun call hcall => htag call (mem_append_left _ hcall)
  · rw [flatMap_append, flatMap_singleton]
    refine h.distinct.append hnodup fun tag hold hin => ?_
    obtain ⟨call, hcall, htag⟩ := mem_flatMap.mp hold
    exact hfresh tag hin call hcall htag
  · rcases mem_append.mp hcall with hold | hlast
    · exact h.fine call hold
    · obtain rfl := mem_singleton.mp hlast
      refine ⟨fun hop => ?_, length_replicate, Nat.zero_le _, fun k _ => ?_, by simp [Call.missingOf], fun _ => rfl⟩
      · subst hop
        simpa using hkind
      · cases hcell : (replicate wanted.length (none : Option (Completion Outcome)))[k]? with
        | none => rfl
        | some cell => rw [(mem_replicate.mp (mem_of_getElem? hcell)).2]; rfl

theorem Shows.step (h : Shows s f) (hinv : Flights.Inv f) {a : WaitStep Outcome} (hs : s.step a = some s') :
    ∃ f', Flights.Inv f' ∧ Shows s' f' := by
  cases a with
  | call kind wanted =>
    simp only [Waits.step] at hs
    split at hs
    · next haccepts => exact Option.some.inj hs ▸ ⟨f, hinv, h.call haccepts⟩
    · cases hs
  | move i =>
    obtain ⟨call, hcall, hs⟩ := Option.bind_eq_some_iff.mp hs
    obtain ⟨m, hmove, hs⟩ := Option.bind_eq_some_iff.mp hs
    have hfine := h.fine call (mem_of_getElem? hcall)
    exact Option.some.inj hs ▸ h.moved hinv hcall (Call.move_matched hfine (h.callers i call hcall) (h.slots ▸ hmove))
  | poll i waker =>
    obtain ⟨call, hcall, hs⟩ := Option.bind_eq_some_iff.mp hs
    obtain ⟨m, hpoll, hs⟩ := Option.bind_eq_some_iff.mp hs
    have hfine := h.fine call (mem_of_getElem? hcall)
    exact Option.some.inj hs ▸ h.moved hinv hcall (Call.poll_matched hfine (h.callers i call hcall) (h.slots ▸ hpoll))
  | giveUp i =>
    obtain ⟨call, hcall, hs⟩ := Option.bind_eq_some_iff.mp hs
    obtain ⟨m, hgive, hs⟩ := Option.bind_eq_some_iff.mp hs
    have hfine := h.fine call (mem_of_getElem? hcall)
    exact Option.some.inj hs ▸ h.moved hinv hcall (Call.giveUp_matched hfine (h.slots ▸ hgive))
  | drop i =>
    obtain ⟨call, hcall, hs⟩ := Option.bind_eq_some_iff.mp hs
    obtain ⟨m, hdrop, hs⟩ := Option.bind_eq_some_iff.mp hs
    have hfine := h.fine call (mem_of_getElem? hcall)
    exact Option.some.inj hs ▸ h.moved hinv hcall (Call.drop_matched hfine (h.callers i call hcall) (h.slots ▸ hdrop))
  | file tag outcome => exact h.file hinv hs

/-- Every run of the waits is one of the ops of all tags, each on its own. -/
theorem shown_run {steps : List (WaitStep Outcome)} (hrun : Runs.run Waits.step fresh steps = some s) :
    ∃ f, Flights.Inv f ∧ Shows s f :=
  Runs.holds_run (fun s => ∃ f, Flights.Inv f ∧ Shows s f) (fun _ _ _ ⟨_, hinv, h⟩ hs => h.step hinv hs)
    ⟨_, Flights.inv_fresh, shows_fresh⟩ hrun

section
variable (h : Shows s f) {call : Call Outcome} (hcall : call ∈ s.calls) {k : Nat} {tag : Tag}
  (hk : call.wanted[k]? = some tag)

include h hcall hk in
theorem Shows.caller : (f.story tag).caller = call.callerAt k := by
  obtain ⟨i, hi⟩ := mem_iff_getElem?.mp hcall
  exact h.callers i call hi k tag hk

include h in
theorem Shows.owned (hbusy : (f.story tag).caller ≠ .idle) :
    ∃ call ∈ s.calls, ∃ k : Nat, call.wanted[k]? = some tag := by
  by_contra hnone
  push Not at hnone
  refine hbusy (h.spare tag fun call hcall hwanted => ?_)
  obtain ⟨k, hk⟩ := mem_iff_getElem?.mp hwanted
  exact hnone call hcall k hk

variable (hinv : Flights.Inv f)

include h hcall hk hinv in
theorem Shows.taken {completion : Completion Outcome} (htaken : call.callerAt k = .taken completion) :
    completion.tag = tag ∧ completion ∈ s.filed := by
  have hlived := hinv.lived tag
  rw [Flights.Lived, h.caller hcall hk, htaken] at hlived
  obtain ⟨-, htag, -, hfiled, -⟩ := hlived
  rw [h.filed] at hfiled
  exact ⟨htag, (mem_filter.mp (hfiled ▸ mem_singleton.mpr rfl)).1⟩

include h hinv in
theorem Shows.free (hpending : ∀ tag, s.pending tag = false) (hsettled : ∀ call ∈ s.calls, call.Settled) i :
    (s.slots i).state = .free := by
  by_contra hheld
  rw [← h.slots] at hheld
  have hgone : (f.story (f.slots i).tag).caller ≠ .claimed ∧ (f.story (f.slots i).tag).caller ≠ .waiting := by
    by_cases hidle : (f.story (f.slots i).tag).caller = .idle
    · simp [hidle]
    · obtain ⟨call, hcall, k, hk⟩ := h.owned hidle
      rw [h.caller hcall hk]
      exact (hsettled call hcall).callerAt k
  have hothers := (hinv.lived (f.slots i).tag).others ((h.pending _).trans (hpending _)) hgone.1 hgone.2
  rw [hinv.addressed i hheld] at hothers
  exact hheld (hothers rfl)

end

end Waits

open Waits in
/-- In every run, a caller takes completions of its own tags only and is answered with them in submit order; a
completion that was filed awaits its caller, or was taken by it and not discarded, or was discarded once after its
caller had left; and once the backend has no op and every caller is settled, every slot is free. -/
theorem every_op_gets_its_completion_once {Outcome : Type} (steps : List (WaitStep Outcome)) (s : Waits Outcome)
    (hrun : Runs.run Waits.step fresh steps = some s) :
    (∀ call ∈ s.calls, (∀ out, call.stage = .answered out → out.map Completion.tag = call.wanted) ∧
      ∀ (k : Nat) (tag : Tag), call.wanted[k]? = some tag → ∀ completion, call.callerAt k = .taken completion →
        completion.tag = tag ∧ completion ∈ s.filed) ∧
    (∀ completion ∈ s.filed, s.filed.filter (·.tag = completion.tag) = [completion] ∧
      ∃ call ∈ s.calls, ∃ k : Nat, call.wanted[k]? = some completion.tag ∧
        (call.callerAt k = .waiting ∧ s.slots.take completion.tag = (some completion, s.slots.clear completion.tag) ∧
            s.discarded.filter (·.tag = completion.tag) = [] ∨
          call.callerAt k = .taken completion ∧ s.discarded.filter (·.tag = completion.tag) = [] ∨
          call.callerAt k = .left ∧ s.discarded.filter (·.tag = completion.tag) = [completion])) ∧
    ((∀ tag, s.pending tag = false) → (∀ call ∈ s.calls, call.Settled) → ∀ i, (s.slots i).state = .free) := by
  obtain ⟨f, hinv, h⟩ := shown_run hrun
  refine ⟨fun call hcall => ⟨fun out hstage => ?_, fun k tag hk completion => h.taken hcall hk hinv⟩,
    fun completion hin => ?_, fun hpending hsettled => h.free hinv hpending hsettled⟩
  · have hlen := (h.fine call hcall).staged
    simp only [Call.Staged, hstage] at hlen
    refine ext_getElem (by rw [length_map, hlen]) fun k hk hk' => ?_
    rw [getElem_map]
    refine (h.taken hcall (getElem?_eq_getElem hk') hinv ?_).1
    simp [Call.callerAt, hstage, Call.given, getElem?_eq_getElem (hlen ▸ hk')]
  · have hone : completion ∈ (f.story completion.tag).filed := by
      rw [h.filed]
      exact mem_filter.mpr ⟨hin, by simp⟩
    rcases (hinv.lived completion.tag).fate with ⟨hnone, -⟩ | ⟨only, -, hfiled, hfate⟩
    · rw [hnone] at hone
      cases hone
    rw [hfiled] at hone
    obtain rfl := mem_singleton.mp hone
    refine ⟨(h.filed _).symm.trans hfiled, ?_⟩
    have hbusy : (f.story completion.tag).caller ≠ .idle := by
      rcases hfate with ⟨hcaller, -⟩ | ⟨hcaller, -⟩ | ⟨hcaller, -⟩ <;> simp [hcaller]
    obtain ⟨call, hcall, k, hk⟩ := h.owned hbusy
    refine ⟨call, hcall, k, hk, ?_⟩
    rw [← h.caller hcall hk, ← h.discarded, ← h.slots]
    refine hfate.imp_left ?_
    rintro ⟨hcaller, hmine, hheld, hdiscarded⟩
    refine ⟨hcaller, ?_, hdiscarded⟩
    simp [Slots.take, Slots.isMine, hmine.1, hmine.2, hheld]

/-- Two batches over one table. The second finds a slot that the first has taken, gives back what it had and asks again
later. The first is answered with completions that land around its first poll. The second is dropped with one completion
taken and one op still with the backend. -/
def twoBatches : List (WaitStep Unit) :=
  let moves (i n : Nat) : List (WaitStep Unit) := replicate n (.move i)
  flatten [[.call .batch [7, 8, 20], .call .batch [30, 519]], moves 0 1, moves 1 4, moves 0 7, [.file 8 (), .poll 0 1],
    moves 0 4, [.file 20 (), .file 7 (), .poll 0 1], moves 0 4, moves 1 6, [.file 519 (), .poll 1 2], moves 1 3,
    [.drop 1], moves 1 3, [.file 30 ()]]

/-- The tags the callers were answered with, and the tags discarded. -/
def Waits.outcome (s : Waits Unit) : List (List Tag) × List Tag :=
  (s.calls.map fun call => match call.stage with
    | .answered out => out.map Completion.tag
    | _ => [], s.discarded.map Completion.tag)

theorem two_batches_share_a_table : ∃ s, Runs.run Waits.step Waits.fresh twoBatches = some s ∧
    s.outcome = ([[7, 8, 20], []], [519, 30]) ∧
    ∀ completion ∈ s.filed, s.filed.filter (·.tag = completion.tag) = [completion] := by
  have hrun : (Runs.run Waits.step Waits.fresh twoBatches).map Waits.outcome = some ([[7, 8, 20], []], [519, 30]) := by
    decide +kernel
  obtain ⟨s, hs, houtcome⟩ := Option.map_eq_some_iff.mp hrun
  exact ⟨s, hs, houtcome, fun completion hin =>
    ((every_op_gets_its_completion_once twoBatches s hs).2.1 completion hin).1⟩

end Reel.Io
