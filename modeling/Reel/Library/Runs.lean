import Mathlib

/-!
Runs of a step function that may refuse a step, and invariants over every run whose
steps meet a condition on the state they are taken from.
-/

set_option autoImplicit false

namespace Runs
variable {S A : Type}

def run (step : S → A → Option S) : S → List A → Option S
  | s, [] => some s
  | s, a :: rest => (step s a).bind fun s' => run step s' rest

def Meets (step : S → A → Option S) (ok : S → A → Prop) : S → List A → Prop
  | _, [] => True
  | s, a :: rest => ok s a ∧ ∀ s', step s a = some s' → Meets step ok s' rest

variable {step : S → A → Option S} {ok : S → A → Prop}

theorem Meets.cons {s s' : S} {a : A} {rest : List A}
    (hok : ok s a) (hstep : step s a = some s') (hrest : Meets step ok s' rest) :
    Meets step ok s (a :: rest) :=
  ⟨hok, fun _ ht => Option.some.inj (hstep.symm.trans ht) ▸ hrest⟩

instance decidableMeets {step : S → A → Option S} {ok : S → A → Prop} [∀ s a, Decidable (ok s a)] :
    ∀ (s : S) (steps : List A), Decidable (Meets step ok s steps)
  | _, [] => isTrue trivial
  | s, a :: rest =>
    match h : step s a with
    | none => decidable_of_iff (ok s a) ⟨fun hok => ⟨hok, fun _ ht => by rw [h] at ht; cases ht⟩,
        fun hm => hm.1⟩
    | some s' =>
      haveI : Decidable (Meets step ok s' rest) := decidableMeets s' rest
      decidable_of_iff (ok s a ∧ Meets step ok s' rest)
        ⟨fun hm => Meets.cons hm.1 h hm.2, fun hm => ⟨hm.1, hm.2 s' h⟩⟩

variable {steps : List A}

theorem Meets.and {ok' : S → A → Prop} {s : S}
    (h : Meets step ok s steps) (h' : Meets step ok' s steps) :
    Meets step (fun s a => ok s a ∧ ok' s a) s steps := by
  induction steps generalizing s with
  | nil => trivial
  | cons a rest ih => exact ⟨⟨h.1, h'.1⟩, fun t ht => ih (h.2 t ht) (h'.2 t ht)⟩

theorem Meets.front {s : S} {front rest : List A}
    (h : Meets step ok s (front ++ rest)) : Meets step ok s front := by
  induction front generalizing s with
  | nil => trivial
  | cons a front ih => exact ⟨h.1, fun t ht => ih (h.2 t ht)⟩

theorem run_cons {s t : S} {a : A} {rest : List A} :
    run step s (a :: rest) = some t ↔ ∃ s', step s a = some s' ∧ run step s' rest = some t := by
  simp [run, Option.bind_eq_some_iff]

theorem run_append (step : S → A → Option S) (s : S) (front rest : List A) :
    run step s (front ++ rest) = (run step s front).bind fun s' => run step s' rest := by
  induction front generalizing s with
  | nil => rfl
  | cons a front ih =>
    simp only [List.cons_append, run, ih, Option.bind_assoc]

theorem Meets.rest {s t : S} {front rest : List A}
    (h : Meets step ok s (front ++ rest)) (hrun : run step s front = some t) :
    Meets step ok t rest := by
  induction front generalizing s with
  | nil =>
    cases hrun
    exact h
  | cons a front ih =>
    obtain ⟨s', hs', hrest⟩ := run_cons.mp hrun
    exact ih (h.2 s' hs') hrest

theorem invariant_run (inv : S → Prop)
    (hstep : ∀ s a s', inv s → ok s a → step s a = some s' → inv s') {s t : S}
    (hs : inv s) (hok : Meets step ok s steps) (hrun : run step s steps = some t) : inv t := by
  induction steps generalizing s with
  | nil =>
    cases hrun
    exact hs
  | cons a rest ih =>
    obtain ⟨s', hs', hrest⟩ := run_cons.mp hrun
    exact ih (hstep s a s' hs hok.1 hs') (hok.2 s' hs') hrest

theorem holds_run (inv : S → Prop)
    (hstep : ∀ s a s', inv s → step s a = some s' → inv s') {s t : S}
    (hs : inv s) (hrun : run step s steps = some t) : inv t := by
  induction steps generalizing s with
  | nil =>
    cases hrun
    exact hs
  | cons a rest ih =>
    obtain ⟨s', hs', hrest⟩ := run_cons.mp hrun
    exact ih (hstep s a s' hs hs') hrest

end Runs
