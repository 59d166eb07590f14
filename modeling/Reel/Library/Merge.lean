import Mathlib

/-!
Several runs sorted by a key, read from their fronts: the least key any of them stands
on, the elements on that key, and the runs once they are past it.
-/

set_option autoImplicit false

open List

namespace Merge
variable {α κ : Type} [LinearOrder κ] (f : α → κ)

def heads (runs : List (List α)) : List κ := runs.filterMap fun run => run.head?.map f

def front (runs : List (List α)) : Option κ := (heads f runs).argmin id

def pass (k : κ) (runs : List (List α)) : List (List α) :=
  runs.map fun run => run.dropWhile fun a => decide (f a = k)

def onKey (k : κ) (run : List α) : List α := run.takeWhile fun a => decide (f a = k)

/-- Every run holds its keys in order. -/
def Sorted (runs : List (List α)) : Prop := ∀ run ∈ runs, run.Pairwise fun a b => f a ≤ f b

variable {f}

variable {runs : List (List α)} {k : κ}

omit [LinearOrder κ] in
theorem mem_heads :
    k ∈ heads f runs ↔ ∃ a rest, a :: rest ∈ runs ∧ f a = k := by
  simp only [heads, mem_filterMap, Option.map_eq_some_iff, head?_eq_some_iff]
  constructor
  · rintro ⟨run, hrun, a, ⟨rest, rfl⟩, rfl⟩
    exact ⟨a, rest, hrun, rfl⟩
  · rintro ⟨a, rest, hrun, rfl⟩
    exact ⟨_, hrun, a, ⟨rest, rfl⟩, rfl⟩

theorem front_eq_none :
    front f runs = none ↔ ∀ run ∈ runs, run = [] := by
  rw [front, argmin_eq_none, eq_nil_iff_forall_not_mem]
  simp only [mem_heads, not_exists, not_and]
  constructor
  · intro h run hrun
    cases run with
    | nil => rfl
    | cons a rest => exact absurd rfl (h (f a) a rest hrun)
  · intro h k a rest hrun
    exact absurd (h _ hrun) (by simp)

theorem front_mem (h : front f runs = some k) :
    ∃ run ∈ runs, ∃ a ∈ run, f a = k := by
  obtain ⟨a, rest, hrun, ha⟩ := mem_heads.mp (argmin_mem h)
  exact ⟨_, hrun, a, mem_cons_self, ha⟩

theorem front_le (hs : Sorted f runs) (h : front f runs = some k) :
    ∀ run ∈ runs, ∀ a ∈ run, k ≤ f a := by
  intro run hrun a ha
  cases run with
  | nil => cases ha
  | cons b rest =>
    have hb : k ≤ f b := not_lt.mp (not_lt_of_mem_argmin (mem_heads.mpr ⟨b, rest, hrun, rfl⟩) h)
    rcases mem_cons.mp ha with rfl | ha
    · exact hb
    · exact hb.trans ((pairwise_cons.mp (hs _ hrun)).1 a ha)

section
variable {run : List α} (hs : run.Pairwise fun a b => f a ≤ f b) (hk : ∀ a ∈ run, k ≤ f a)
include hs hk

theorem dropWhile_eq :
    (run.dropWhile fun a => decide (f a = k)) = run.filter fun a => decide (k < f a) := by
  induction run with
  | nil => rfl
  | cons a rest ih =>
    obtain ⟨hhead, htail⟩ := pairwise_cons.mp hs
    have hrest := ih htail fun b hb => hk b (mem_cons_of_mem _ hb)
    by_cases ha : f a = k
    · rw [dropWhile_cons_of_pos (by simp [ha]), filter_cons_of_neg (by simp [ha])]
      exact hrest
    · have hlt : k < f a := lt_of_le_of_ne (hk a mem_cons_self) (Ne.symm ha)
      rw [dropWhile_cons_of_neg (by simp [ha]), filter_cons_of_pos (by simp [hlt])]
      congr 1
      refine (filter_eq_self.mpr fun b hb => ?_).symm
      simpa using hlt.trans_le (hhead b hb)

theorem onKey_eq : onKey f k run = run.filter fun a => decide (f a = k) := by
  unfold onKey
  induction run with
  | nil => rfl
  | cons a rest ih =>
    obtain ⟨hhead, htail⟩ := pairwise_cons.mp hs
    have hrest := ih htail fun b hb => hk b (mem_cons_of_mem _ hb)
    by_cases ha : f a = k
    · rw [takeWhile_cons_of_pos (by simp [ha]), filter_cons_of_pos (by simp [ha]), hrest]
    · have hlt : k < f a := lt_of_le_of_ne (hk a mem_cons_self) (Ne.symm ha)
      rw [takeWhile_cons_of_neg (by simp [ha])]
      refine (filter_eq_nil_iff.mpr fun b hb => ?_).symm
      have hle : f a ≤ f b := by
        rcases mem_cons.mp hb with rfl | hb
        · exact le_refl _
        · exact hhead b hb
      simpa using (hlt.trans_le hle).ne'

end

theorem pass_eq (hs : Sorted f runs)
    (hk : ∀ run ∈ runs, ∀ a ∈ run, k ≤ f a) :
    pass f k runs = runs.map fun run => run.filter fun a => decide (k < f a) :=
  map_congr_left fun run hrun => dropWhile_eq (hs run hrun) (hk run hrun)

end Merge
