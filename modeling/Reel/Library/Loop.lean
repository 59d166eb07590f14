import Mathlib

/-!
A loop whose body may fail: it runs while its guard holds of the state, for at most a given number of
rounds. A measure that every round lowers gives a number of rounds that is enough.
-/

set_option autoImplicit false

namespace Loop

variable {σ ε : Type} (guard : σ → Bool) (body : σ → Except ε σ)

def run : Nat → σ → Except ε σ
  | 0, s => .ok s
  | n + 1, s => if guard s then (body s).bind (run n) else .ok s

theorem bind_eq_ok {α β ε : Type} {r : Except ε α} {f : α → Except ε β} {b : β} :
    (r >>= f) = .ok b ↔ ∃ a, r = .ok a ∧ f a = .ok b := by
  cases r with
  | error e =>
    constructor
    · intro h
      cases h
    · rintro ⟨a, h, -⟩
      cases h
  | ok a =>
    constructor
    · intro h
      exact ⟨a, rfl, h⟩
    · rintro ⟨c, hc, h⟩
      exact Except.ok.inj hc ▸ h

/-- The loop takes a round from one state to another. -/
def Round (s t : σ) : Prop := guard s = true ∧ body s = .ok t

def Reached : σ → σ → Prop := Relation.ReflTransGen (Round guard body)

variable {guard body}

@[simp] theorem run_of_not_guard {s : σ} (h : guard s = false) (n : Nat) : run guard body n s = .ok s := by
  cases n with
  | zero => rfl
  | succ n => simp [run, h]

theorem run_round {s t : σ} (h : Round guard body s t) (n : Nat) :
    run guard body (n + 1) s = run guard body n t := by
  rw [run, if_pos h.1, h.2]
  rfl

theorem run_chain {f : Nat → σ} {j n fuel : Nat}
    (hround : ∀ k, j ≤ k → k < n → Round guard body (f k) (f (k + 1))) (hstop : guard (f n) = false)
    (hj : j ≤ n) (hfuel : n - j ≤ fuel) : run guard body fuel (f j) = .ok (f n) := by
  induction fuel generalizing j with
  | zero =>
    obtain rfl : j = n := by omega
    rfl
  | succ fuel ih =>
    rcases hj.lt_or_eq with hlt | rfl
    · rw [run_round (hround j (le_refl j) hlt)]
      exact ih (fun k hk => hround k (by omega)) hlt (by omega)
    · exact run_of_not_guard hstop _

theorem Reached.eq_of_not_guard {s t : σ} (h : Reached guard body s t) (hstop : guard s = false) : s = t := by
  rcases h.cases_head with heq | ⟨u, hround, -⟩
  · exact heq
  · rw [hround.1] at hstop
    cases hstop

theorem Reached.keeps {P : σ → Prop} (hround : ∀ s t, Round guard body s t → P s → P t) {s t : σ}
    (h : Reached guard body s t) (hs : P s) : P t := by
  induction h with
  | refl => exact hs
  | tail _ hlast ih => exact hround _ _ hlast ih

/-- A measure of a loop's states: positive while the loop goes on, and lowered by every round. -/
structure Measures (guard : σ → Bool) (body : σ → Except ε σ) (left : σ → Nat) : Prop where
  pos : ∀ s, guard s = true → 0 < left s
  lowers : ∀ s t, Round guard body s t → left t < left s

variable {left : σ → Nat}

theorem run_stops (h : Measures guard body left) {n : Nat} {s t : σ} (hn : left s ≤ n)
    (hrun : run guard body n s = .ok t) : guard t = false := by
  induction n generalizing s with
  | zero =>
    cases hgo : guard s with
    | false => rwa [← Except.ok.inj hrun]
    | true =>
      have := h.pos s hgo
      omega
  | succ n ih =>
    cases hgo : guard s with
    | false =>
      rw [run_of_not_guard hgo] at hrun
      cases hrun
      exact hgo
    | true =>
      cases hbody : body s with
      | error e => simp [run, hgo, hbody, Except.bind] at hrun
      | ok u =>
        have hround : Round guard body s u := ⟨hgo, hbody⟩
        rw [run_round hround] at hrun
        have := h.lowers s u hround
        exact ih (by omega) hrun

theorem run_error_iff (h : Measures guard body left) {n : Nat} {s : σ} (hn : left s ≤ n) (e : ε) :
    run guard body n s = .error e ↔
      ∃ t, Reached guard body s t ∧ guard t = true ∧ body t = .error e := by
  induction n generalizing s with
  | zero =>
    have hstop : guard s = false := run_stops h hn rfl
    refine ⟨fun hrun => (by cases hrun), ?_⟩
    rintro ⟨t, hreach, hgo, -⟩
    rw [← hreach.eq_of_not_guard hstop, hstop] at hgo
    cases hgo
  | succ n ih =>
    cases hgo : guard s with
    | false =>
      rw [run_of_not_guard hgo]
      refine ⟨fun hrun => (by cases hrun), ?_⟩
      rintro ⟨t, hreach, hgot, -⟩
      rw [← hreach.eq_of_not_guard hgo, hgo] at hgot
      cases hgot
    | true =>
      cases hbody : body s with
      | error f =>
        have hrun : run guard body (n + 1) s = .error f := by simp [run, hgo, hbody, Except.bind]
        rw [hrun]
        constructor
        · intro heq
          exact ⟨s, .refl, hgo, by rw [hbody, heq]⟩
        · rintro ⟨t, hreach, -, hfail⟩
          rcases hreach.cases_head with rfl | ⟨u, hround, -⟩
          · rw [← hbody, hfail]
          · rw [hround.2] at hbody; cases hbody
      | ok u =>
        have hround : Round guard body s u := ⟨hgo, hbody⟩
        have hless := h.lowers s u hround
        rw [run_round hround, ih (by omega)]
        constructor
        · rintro ⟨t, hreach, hrest⟩
          exact ⟨t, .head hround hreach, hrest⟩
        · rintro ⟨t, hreach, hgot, hfail⟩
          rcases hreach.cases_head with rfl | ⟨v, hfirst, hrest⟩
          · rw [hbody] at hfail; cases hfail
          · have huv : u = v := Except.ok.inj (hbody.symm.trans hfirst.2)
            exact ⟨t, huv ▸ hrest, hgot, hfail⟩

end Loop
