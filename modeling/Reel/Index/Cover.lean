import Mathlib

/-!
Range covers: what one range delete leaves standing over a column, which every
read, walk and insert tests until the sweep has settled what it covered.
-/

set_option autoImplicit false

open List

namespace Reel

/-- Where the lazy sweep stands on one cover. Release runs before the map sweep. -/
inductive SweepPhase (K : Type) where
  | release (resume : K)
  | sweep (resume : K)
  | done
  deriving DecidableEq, Repr

structure Covered (K : Type) where
  low : K
  high : Option K
  lsn : Nat
  phase : SweepPhase K
  deriving DecidableEq, Repr

variable {K : Type} [LinearOrder K]

def Covered.covers (cover : Covered K) (key : K) (lsn : Nat) : Bool :=
  if cover.lsn ≤ lsn ∨ key < cover.low then false
  else
    match cover.high with
    | some high => key < high
    | none => true

theorem Covered.covers_iff (cover : Covered K) (key : K) (lsn : Nat) :
    cover.covers key lsn = true ↔
      lsn < cover.lsn ∧ cover.low ≤ key ∧ ∀ high ∈ cover.high, key < high := by
  unfold Covered.covers
  by_cases h : cover.lsn ≤ lsn ∨ key < cover.low
  · rw [if_pos h]
    simp only [Bool.false_eq_true, false_iff, not_and]
    intro hl hk
    rcases h with h | h
    · omega
    · exact absurd h (not_lt.mpr hk)
  · rw [if_neg h]
    rw [not_or, Nat.not_le, not_lt] at h
    cases hc : cover.high <;> simp [h]

def pushCover (covers : List (Covered K)) (low : K) (high : Option K) (lsn : Nat) :
    List (Covered K) :=
  if covers.any (·.lsn == lsn) then covers
  else covers ++ [⟨low, high, lsn, .release low⟩]

omit [LinearOrder K] in
theorem mem_pushCover {covers : List (Covered K)} {low : K} {high : Option K} {lsn : Nat}
    {cover : Covered K} :
    cover ∈ pushCover covers low high lsn ↔
      cover ∈ covers ∨ (∀ held ∈ covers, held.lsn ≠ lsn) ∧ cover = ⟨low, high, lsn, .release low⟩ := by
  unfold pushCover
  by_cases h : covers.any (·.lsn == lsn)
  · rw [if_pos h]
    obtain ⟨held, hm, he⟩ := any_eq_true.mp h
    constructor
    · exact Or.inl
    · rintro (hc | ⟨hall, -⟩)
      · exact hc
      · exact absurd (by simpa using he) (hall held hm)
  · rw [if_neg h]
    have hall : ∀ held ∈ covers, held.lsn ≠ lsn := by
      intro held hm he
      exact h (any_eq_true.mpr ⟨held, hm, by simpa using he⟩)
    simp only [mem_append, mem_singleton]
    exact or_congr_right ⟨fun hc => ⟨hall, hc⟩, fun hc => hc.2⟩

def standAll (ranges : List (K × Option K × Nat)) : List (Covered K) :=
  ranges.foldl (fun covers range => pushCover covers range.1 range.2.1 range.2.2) []

omit [LinearOrder K] in
theorem mem_standAll {ranges : List (K × Option K × Nat)}
    (h : ranges.Pairwise (fun r s => r.2.2 ≠ s.2.2)) {cover : Covered K} :
    cover ∈ standAll ranges ↔
      ∃ range ∈ ranges, cover = ⟨range.1, range.2.1, range.2.2, .release range.1⟩ := by
  unfold standAll
  suffices hgen : ∀ held : List (Covered K),
      (∀ c ∈ held, ∀ range ∈ ranges, c.lsn ≠ range.2.2) →
      (cover ∈ ranges.foldl (fun covers range => pushCover covers range.1 range.2.1 range.2.2) held ↔
        cover ∈ held ∨
          ∃ range ∈ ranges, cover = ⟨range.1, range.2.1, range.2.2, .release range.1⟩) by
    simpa using hgen [] (by simp)
  induction ranges with
  | nil => simp
  | cons range ranges ih =>
    intro held hfresh
    obtain ⟨hhead, htail⟩ := pairwise_cons.mp h
    have hnew : ∀ c ∈ held, c.lsn ≠ range.2.2 := fun c hc => hfresh c hc range (by simp)
    rw [foldl_cons, ih htail]
    · rw [mem_pushCover]
      simp only [mem_cons, exists_eq_or_imp, or_assoc]
      exact or_congr_right (or_congr_left ⟨fun hc => hc.2, fun hc => ⟨hnew, hc⟩⟩)
    · intro c hc later hl
      rcases mem_pushCover.mp hc with hc | ⟨-, rfl⟩
      · exact hfresh c hc later (by simp [hl])
      · exact hhead later hl

def isCovered (covers : List (Covered K)) (key : K) (lsn : Nat) : Bool :=
  covers.any (·.covers key lsn)

theorem isCovered_iff (covers : List (Covered K)) (key : K) (lsn : Nat) :
    isCovered covers key lsn = true ↔ ∃ cover ∈ covers, cover.covers key lsn = true := by
  simp [isCovered]

end Reel
