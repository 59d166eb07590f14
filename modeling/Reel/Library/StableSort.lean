import Mathlib

/-!
Sorting a list by a key so that equal keys keep their order. Two lists sorted by
one key that agree on every key's own elements are the same list, so a stable
sort is any arrangement that walks the keys in order and each key's elements in
arrival order.
-/

set_option autoImplicit false

open List

namespace StableSort

variable {α κ : Type} [LinearOrder κ]

variable (f : α → κ) (l : List α)

def sortByKey : List α := l.insertionSort (fun a b => f a ≤ f b)

theorem perm_sortByKey : (sortByKey f l).Perm l :=
  perm_insertionSort _ l

theorem mem_sortByKey {l : List α} {a : α} : a ∈ sortByKey f l ↔ a ∈ l :=
  (perm_sortByKey f l).mem_iff

theorem length_sortByKey : (sortByKey f l).length = l.length :=
  (perm_sortByKey f l).length_eq

theorem sorted_sortByKey :
    (sortByKey f l).Pairwise (fun a b => f a ≤ f b) := by
  have : Std.Total (fun a b : α => f a ≤ f b) := ⟨fun a b => le_total (f a) (f b)⟩
  have : IsTrans α (fun a b => f a ≤ f b) := ⟨fun _ _ _ => le_trans⟩
  exact pairwise_insertionSort _ l

theorem filter_sortByKey (c : κ) :
    (sortByKey f l).filter (fun a => f a = c) = l.filter (fun a => f a = c) := by
  have : Std.Total (fun a b : α => f a ≤ f b) := ⟨fun a b => le_total (f a) (f b)⟩
  have : IsTrans α (fun a b => f a ≤ f b) := ⟨fun _ _ _ => le_trans⟩
  have hpair : (l.filter (fun a => f a = c)).Pairwise (fun a b => f a ≤ f b) := by
    rw [pairwise_filter]
    refine List.Pairwise.imp (R := fun _ _ => True) ?_ (pairwise_of_forall (by simp))
    intro a b _ ha hb
    simp only [decide_eq_true_eq] at ha hb
    exact (ha.trans hb.symm).le
  have hsub : (l.filter (fun a => f a = c)).Sublist (sortByKey f l) :=
    sublist_insertionSort hpair filter_sublist
  have hfil := hsub.filter (fun a => decide (f a = c))
  rw [filter_filter] at hfil
  simp only [Bool.and_self] at hfil
  exact (hfil.eq_of_length ((perm_sortByKey f l).filter _).length_eq.symm).symm

/-- Lists sorted by a key are told apart by the elements some key has. -/
theorem eq_of_filter_eq {l₁ l₂ : List α}
    (h₁ : l₁.Pairwise (fun a b => f a ≤ f b)) (h₂ : l₂.Pairwise (fun a b => f a ≤ f b))
    (h : ∀ c, l₁.filter (fun a => f a = c) = l₂.filter (fun a => f a = c)) : l₁ = l₂ := by
  induction l₁ generalizing l₂ with
  | nil =>
    cases l₂ with
    | nil => rfl
    | cons b l₂ => simpa using h (f b)
  | cons a l₁ ih =>
    cases l₂ with
    | nil => simpa using h (f a)
    | cons b l₂ =>
      have hmem {x : α} {l l' : List α} (hf : ∀ c, l.filter (fun a => f a = c) =
          l'.filter (fun a => f a = c)) (hx : x ∈ l) : x ∈ l' := by
        have : x ∈ l.filter (fun a => f a = f x) := by simp [hx]
        rw [hf] at this
        exact (mem_filter.mp this).1
      have hle {x y : α} {l : List α} (hp : (y :: l).Pairwise (fun a b => f a ≤ f b))
          (hx : x ∈ y :: l) : f y ≤ f x := by
        rcases mem_cons.mp hx with rfl | hx
        · exact le_refl _
        · exact (pairwise_cons.mp hp).1 x hx
      have hba : f b ≤ f a := hle h₂ (hmem h (by simp))
      have hab : f a ≤ f b := hle h₁ (hmem (fun c => (h c).symm) (by simp))
      have hf : f a = f b := le_antisymm hab hba
      have hhead := h (f a)
      simp only [filter_cons, hf, decide_true, if_true, List.cons.injEq] at hhead
      obtain ⟨rfl, -⟩ := hhead
      congr 1
      refine ih h₁.of_cons h₂.of_cons (fun c => ?_)
      have hc := h c
      by_cases hac : f a = c
      · simpa [filter_cons, hac] using hc
      · simpa [filter_cons, hac] using hc

theorem sortByKey_eq {l out : List α} (hs : out.Pairwise (fun a b => f a ≤ f b))
    (hf : ∀ c, out.filter (fun a => f a = c) = l.filter (fun a => f a = c)) :
    sortByKey f l = out :=
  eq_of_filter_eq f (sorted_sortByKey f l) hs (fun c => by rw [filter_sortByKey, hf])

end StableSort
