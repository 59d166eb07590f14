import Reel.Library.Runs
import Reel.Library.Threads

/-!
A volume's byte budget. A writer reads the bytes in flight, tests them against the ceiling in force and
swaps its own in, and a throttle moves the ceiling at any time, also between the test and the swap.
-/

set_option autoImplicit false

namespace Reel
open Threads

/-- Where a writer's request stands. -/
inductive Request where
  | idle
  | loaded (bytes held : Nat)
  /-- Admitted over what it had read, under this ceiling. -/
  | admitted (bytes held ceiling : Nat)
  | granted (bytes : Nat)
  deriving DecidableEq, Repr

def Request.asked : Request → Nat
  | .idle => 0
  | .loaded bytes _ | .admitted bytes _ _ | .granted bytes => bytes

def Request.outstanding : Request → Nat
  | .granted bytes => bytes
  | _ => 0

structure Grant where
  bytes : Nat
  /-- The bytes in flight it was let in over. -/
  held : Nat
  /-- The ceiling its admission read. -/
  ceiling : Nat
  deriving DecidableEq, Repr

structure InflightBudget where
  ceiling : Nat
  throttled : Nat
  inFlight : Nat
  writers : List Request
  last : Option Grant
  deriving DecidableEq, Repr

inductive BudgetStep where
  | throttle (ceiling : Nat)
  | load (i bytes : Nat)
  | canAdmit (i : Nat)
  /-- The exchange, which may fail for no reason. -/
  | exchange (i : Nat) (spurious : Bool)
  | release (i : Nat)

def BudgetStep.asks : BudgetStep → Nat
  | .load _ bytes => bytes
  | _ => 0

def canAdmit (throttled inFlight bytes : Nat) : Bool :=
  inFlight = 0 || (inFlight + bytes) % 2 ^ 64 ≤ throttled

namespace InflightBudget

def new (ceiling writers : Nat) : InflightBudget := ⟨ceiling, ceiling, 0, .replicate writers .idle, none⟩

variable (s : InflightBudget)

def set (i : Nat) (request : Request) : InflightBudget := { s with writers := s.writers.set i request }

def grant (i : Nat) (grant : Grant) : InflightBudget :=
  { s.set i (.granted grant.bytes) with
    inFlight := (grant.held + grant.bytes) % 2 ^ 64, last := some grant }

def step : BudgetStep → Option InflightBudget
  | .throttle ceiling => some (if s.ceiling = 0 then s else { s with throttled := ceiling })
  | .load i bytes =>
    match s.writers[i]? with
    | some .idle =>
      -- a ceiling of zero lets everything in at once
      some (if s.ceiling = 0 then s.grant i ⟨bytes, s.inFlight, 0⟩ else s.set i (.loaded bytes s.inFlight))
    | _ => none
  | .canAdmit i =>
    match s.writers[i]? with
    | some (.loaded bytes held) =>
      some (s.set i (if Reel.canAdmit s.throttled held bytes then .admitted bytes held s.throttled else .idle))
    | _ => none
  | .exchange i spurious =>
    match s.writers[i]? with
    | some (.admitted bytes held ceiling) =>
      some (if s.inFlight = held ∧ spurious = false then s.grant i ⟨bytes, held, ceiling⟩
        else s.set i (.loaded bytes s.inFlight))
    | _ => none
  | .release i =>
    match s.writers[i]? with
    | some (.granted bytes) =>
      some { s.set i .idle with inFlight := (s.inFlight + (2 ^ 64 - bytes)) % 2 ^ 64 }
    | _ => none

/-- All the writers ask for fits a counter. -/
def Fits (a : BudgetStep) : Prop := total Request.asked s.writers + a.asks < 2 ^ 64

instance (a : BudgetStep) : Decidable (s.Fits a) := inferInstanceAs (Decidable (_ < _))

/-- What a writer still at its request read. -/
def Request.Sound : Request → Prop
  | .admitted bytes held ceiling => held = 0 ∨ (held + bytes) % 2 ^ 64 ≤ ceiling
  | _ => True

structure Inv : Prop where
  sum : s.inFlight = total Request.outstanding s.writers
  requests : ∀ request ∈ s.writers, Request.Sound request
  idle : s.last = none → s.inFlight = 0
  last : ∀ grant ∈ s.last, s.inFlight ≤ grant.held + grant.bytes ∧
    (s.ceiling ≠ 0 → grant.held = 0 ∨ grant.held + grant.bytes ≤ grant.ceiling)

variable {s} {i : Nat} {old : Request}

theorem outstanding_le_asked (request : Request) : request.outstanding ≤ request.asked := by
  cases request <;> simp [Request.outstanding, Request.asked]

theorem inv_new (ceiling writers : Nat) : (new ceiling writers).Inv := by
  constructor <;> simp [new, total, Request.outstanding, Request.Sound]

theorem Inv.set (h : s.Inv) (hi : s.writers[i]? = some old) (hold : old.outstanding = 0) {request : Request}
    (hnew : request.outstanding = 0) (hsound : Request.Sound request) : (s.set i request).Inv := by
  have hsum := total_set (f := Request.outstanding) hi request
  have := h.sum
  refine ⟨?_, forall_set h.requests (fun _ => id) hsound, h.idle, h.last⟩
  simp only [InflightBudget.set]
  omega

theorem Inv.grant (h : s.Inv) (hi : s.writers[i]? = some old) (hold : old.outstanding = 0) {grant : Grant}
    (hroom : total Request.asked s.writers + grant.bytes < 2 ^ 64 + old.asked)
    (hheld : grant.held = s.inFlight)
    (hunder : s.ceiling ≠ 0 → grant.held = 0 ∨ (grant.held + grant.bytes) % 2 ^ 64 ≤ grant.ceiling) :
    (s.grant i grant).Inv := by
  have hsum := total_set (f := Request.outstanding) hi (.granted grant.bytes)
  have hasked := total_set (f := Request.asked) hi (.granted grant.bytes)
  have hle := total_mono outstanding_le_asked (s.writers.set i (.granted grant.bytes))
  have hbefore := h.sum
  change _ = _ + grant.bytes at hsum hasked
  have hwhole : (grant.held + grant.bytes) % 2 ^ 64 = grant.held + grant.bytes := Nat.mod_eq_of_lt (by omega)
  rw [hwhole] at hunder
  refine ⟨?_, forall_set h.requests (fun _ => id) trivial, nofun, ?_⟩ <;>
    simp only [InflightBudget.grant, InflightBudget.set, hwhole]
  · omega
  · rintro _ ⟨⟩
    exact ⟨le_rfl, hunder⟩

theorem Inv.step (h : s.Inv) {a : BudgetStep} (hfit : s.Fits a) {s' : InflightBudget} (hs : s.step a = some s') :
    s'.Inv := by
  unfold Fits at hfit
  cases a with
  | throttle ceiling =>
    cases hs
    split
    · exact h
    · exact ⟨h.sum, h.requests, h.idle, h.last⟩
  | load i bytes =>
    simp only [InflightBudget.step] at hs
    split at hs <;> cases hs
    rename_i hi
    split
    · rename_i hzero
      exact h.grant hi rfl hfit rfl fun hne => absurd hzero hne
    · exact h.set hi rfl rfl trivial
  | canAdmit i =>
    simp only [InflightBudget.step] at hs
    split at hs <;> cases hs
    rename_i bytes held hi
    split
    · rename_i hadmit
      exact h.set hi rfl rfl (by simpa [Reel.canAdmit, Request.Sound] using hadmit)
    · exact h.set hi rfl rfl trivial
  | exchange i spurious =>
    simp only [InflightBudget.step] at hs
    split at hs <;> cases hs
    rename_i bytes held ceiling hi
    split
    · rename_i heq
      exact h.grant hi rfl (Nat.add_lt_add_right hfit bytes) heq.1.symm
        fun _ => h.requests _ (List.mem_of_getElem? hi)
    · exact h.set hi rfl rfl trivial
  | release i =>
    simp only [InflightBudget.step] at hs
    split at hs <;> cases hs
    rename_i bytes hi
    have hsum := total_set (f := Request.outstanding) hi .idle
    have hle := total_mono outstanding_le_asked s.writers
    have hbefore := h.sum
    change _ + bytes = _ + 0 at hsum
    have hless : (s.inFlight + (2 ^ 64 - bytes)) % 2 ^ 64 = s.inFlight - bytes := by omega
    refine ⟨?_, forall_set h.requests (fun _ => id) trivial, fun hnone => ?_, fun grant hgrant => ?_⟩ <;>
      simp only [InflightBudget.set, hless]
    · omega
    · have := h.idle hnone
      omega
    · have := h.last grant hgrant
      exact ⟨by omega, this.2⟩

/-- The gauge is the sum of the grants, and passes the ceiling only under a grant let in alone or
tested against a higher one. -/
theorem budget_never_leaks (ceiling writers : Nat) (steps : List BudgetStep)
    (hfits : Runs.Meets step Fits (new ceiling writers) steps)
    (hrun : Runs.run step (new ceiling writers) steps = some s) :
    s.inFlight = total Request.outstanding s.writers ∧
      (s.ceiling ≠ 0 → s.throttled < s.inFlight → ∃ grant ∈ s.last, grant.held = 0 ∨ s.throttled < grant.ceiling) := by
  have h := Runs.invariant_run Inv (fun _ _ _ h hfit hs => h.step hfit hs) (inv_new ceiling writers) hfits hrun
  refine ⟨h.sum, fun hbound hpast => ?_⟩
  cases hlast : s.last with
  | none =>
    have := h.idle hlast
    omega
  | some grant =>
    obtain ⟨hle, htest⟩ := h.last grant hlast
    refine ⟨grant, rfl, (htest hbound).imp_right fun _ => by omega⟩

/-- A grant, with another one out and the ceiling lowered since it was tested. -/
def loweredBetween : List BudgetStep :=
  [.load 0 50, .canAdmit 0, .exchange 0 false, .load 1 40, .canAdmit 1, .throttle 60]

theorem lowered_between_accounted : ∃ s, Runs.run step (new 100 2) (loweredBetween ++ [.exchange 1 false]) = some s ∧
    s.inFlight = 90 ∧ ∃ grant ∈ s.last, grant.held = 0 ∨ s.throttled < grant.ceiling := by
  obtain ⟨s, hrun, hfacts⟩ : ∃ s, Runs.run step (new 100 2) (loweredBetween ++ [.exchange 1 false]) = some s ∧
      s.inFlight = 90 ∧ s.ceiling ≠ 0 ∧ s.throttled < s.inFlight := by decide
  have hfits : Runs.Meets step Fits (new 100 2) (loweredBetween ++ [.exchange 1 false]) := by decide
  exact ⟨s, hrun, hfacts.1, (budget_never_leaks 100 2 _ hfits hrun).2 hfacts.2.1 hfacts.2.2⟩

/-- It passes the ceiling in force as it is granted. -/
theorem granted_past_the_ceiling : ∃ s s', Runs.run step (new 100 2) loweredBetween = some s ∧
    s.step (.exchange 1 false) = some s' ∧ s'.throttled = s.throttled ∧ s'.throttled < s'.inFlight ∧
    0 < s.inFlight := by
  refine ⟨_, _, rfl, rfl, ?_⟩
  decide

end InflightBudget

end Reel
