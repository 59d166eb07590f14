import Mathlib

/-!
Half-open stretches that lie one behind another, and the cuts a loop makes of a list from its front.
-/

set_option autoImplicit false

namespace Stretches

/-- Stretches one behind another, from one offset to another. -/
def Adjoin : Nat → List (Nat × Nat) → Nat → Prop
  | start, [], stop => start = stop
  | start, stretch :: rest, stop => stretch.1 = start ∧ start ≤ stretch.2 ∧ Adjoin stretch.2 rest stop

variable {start stop : Nat} {stretches : List (Nat × Nat)}

theorem Adjoin.snoc (h : Adjoin start stretches stop) {fin : Nat} (hfin : stop ≤ fin) :
    Adjoin start (stretches ++ [(stop, fin)]) fin := by
  induction stretches generalizing start with
  | nil => exact ⟨h.symm, h.trans_le hfin, rfl⟩
  | cons first rest ih => exact ⟨h.1, h.2.1, ih h.2.2⟩

theorem Adjoin.spaced (h : Adjoin start stretches stop) :
    (∀ stretch ∈ stretches, start ≤ stretch.1 ∧ stretch.2 ≤ stop) ∧ start ≤ stop ∧
      stretches.Pairwise fun a b => a.2 ≤ b.1 := by
  induction stretches generalizing start with
  | nil => exact ⟨by simp, h.le, .nil⟩
  | cons first rest ih =>
    obtain ⟨rfl, hle, hrest⟩ := h
    obtain ⟨hin, hstop, hspaced⟩ := ih hrest
    refine ⟨List.forall_mem_cons.2 ⟨⟨le_rfl, hstop⟩, fun stretch hmem => ?_⟩, hle.trans hstop,
      List.pairwise_cons.2 ⟨fun stretch hmem => (hin stretch hmem).1, hspaced⟩⟩
    exact ⟨hle.trans (hin stretch hmem).1, (hin stretch hmem).2⟩

/-- Of stretches one behind another, those chosen lie so exactly when none is passed over in front of one chosen. -/
theorem adjoin_filter_iff {α : Type} {stretch : α → Nat × Nat} {chosen : α → Bool} {items : List α}
    (h : Adjoin start (items.map stretch) stop) (hpos : ∀ item ∈ items, (stretch item).1 < (stretch item).2) :
    (∃ fin, Adjoin start ((items.filter chosen).map stretch) fin) ↔
      items.Pairwise fun front behind => chosen behind = true → chosen front = true := by
  induction items generalizing start with
  | nil => simp [Adjoin]
  | cons item rest ih =>
    obtain ⟨hstart, -, hrest⟩ := h
    have hrest' := ih hrest fun other hother => hpos other (List.mem_cons_of_mem _ hother)
    rw [List.pairwise_cons]
    by_cases hchosen : chosen item = true
    · rw [List.filter_cons_of_pos hchosen, ← hrest', List.map_cons]
      have hlt := hpos item List.mem_cons_self
      simp only [Adjoin, hstart, hchosen, implies_true, true_and]
      exact ⟨fun ⟨fin, _, hfin⟩ => ⟨fin, hfin⟩, fun ⟨fin, hfin⟩ => ⟨fin, by omega, hfin⟩⟩
    · rw [List.filter_cons_of_neg hchosen]
      have hnone : (∃ fin, Adjoin start ((rest.filter chosen).map stretch) fin) ↔
          ∀ other ∈ rest, chosen other = false := by
        cases hfilter : rest.filter chosen with
        | nil =>
          refine ⟨fun _ other hother => ?_, fun _ => ⟨start, rfl⟩⟩
          simpa using List.filter_eq_nil_iff.mp hfilter other hother
        | cons first others =>
          obtain ⟨hin, hfirst⟩ := List.mem_filter.mp (hfilter ▸ List.mem_cons_self : first ∈ rest.filter chosen)
          refine ⟨fun ⟨fin, hfin⟩ => ?_, fun hall => absurd hfirst (by simp [hall first hin])⟩
          have hpast := (hrest.spaced.1 (stretch first) (List.mem_map_of_mem hin)).1
          have hlt := hpos item List.mem_cons_self
          have := hfin.1
          omega
      rw [hnone]
      constructor
      · intro hall
        refine ⟨fun other hother hmust => absurd hmust (by simp [hall other hother]), ?_⟩
        exact List.pairwise_of_forall_mem_list fun front _ behind hbehind hmust =>
          absurd hmust (by simp [hall behind hbehind])
      · intro hpair other hother
        by_contra hnot
        exact hchosen (hpair.1 other hother (by simpa using hnot))

/-- Cut from the front as far as each cut says, for at most a number of rounds. -/
def cuts (next : Nat → Nat) (n : Nat) : Nat → Nat → List (Nat × Nat)
  | 0, _ => []
  | fuel + 1, start => if start < n then (start, next start) :: cuts next n fuel (next start) else []

theorem adjoin_cuts {next : Nat → Nat} {n : Nat} (hnext : ∀ k < n, k < next k ∧ next k ≤ n) {fuel : Nat}
    (hstart : start ≤ n) (hfuel : n ≤ start + fuel) :
    Adjoin start (cuts next n fuel start) n ∧ ∀ cut ∈ cuts next n fuel start, cut.1 < n ∧ cut.2 = next cut.1 := by
  induction fuel generalizing start with
  | zero => exact ⟨by simp only [cuts, Adjoin]; omega, nofun⟩
  | succ fuel ih =>
    rw [cuts]
    split_ifs with hlt
    · obtain ⟨hpast, hin⟩ := hnext start hlt
      obtain ⟨hrest, hcuts⟩ := ih hin (by omega)
      exact ⟨⟨rfl, hpast.le, hrest⟩, List.forall_mem_cons.2 ⟨⟨hlt, rfl⟩, hcuts⟩⟩
    · exact ⟨by simp only [Adjoin]; omega, nofun⟩

end Stretches
