import Mathlib

/-!
A list of thread states of which one moves at a time: what is totalled over the threads, and what is
true of each.
-/

set_option autoImplicit false

open List

namespace Threads
variable {T : Type}

def total (f : T → Nat) (threads : List T) : Nat := (threads.map f).sum

@[simp] theorem total_nil (f : T → Nat) : total f [] = 0 := rfl

@[simp] theorem total_append (f : T → Nat) (a b : List T) : total f (a ++ b) = total f a + total f b := by
  simp [total]

theorem total_singleton (f : T → Nat) (t : T) : total f [t] = f t := by
  simp [total]

variable {f : T → Nat}

theorem total_perm {a b : List T} (h : a.Perm b) : total f a = total f b :=
  (h.map f).sum_eq

variable {threads : List T}

theorem total_set {i : Nat} {t : T} (h : threads[i]? = some t) (t' : T) :
    total f (threads.set i t') + f t = total f threads + f t' := by
  obtain ⟨hi, rfl⟩ := List.getElem?_eq_some_iff.mp h
  have hset := total_perm (f := f) (set_perm_cons_eraseIdx hi t')
  have hold := total_perm (f := f) (getElem_cons_eraseIdx_perm hi)
  simp only [total, map_cons, sum_cons] at hset hold ⊢
  omega

theorem le_total {t : T} (h : t ∈ threads) : f t ≤ total f threads :=
  single_le_sum (by simp) _ (mem_map_of_mem h)

theorem total_map {U : Type} (f : U → Nat) (h : T → U) (threads : List T) :
    total f (threads.map h) = total (fun t => f (h t)) threads := by
  simp [total, Function.comp_def]

theorem total_mono {g : T → Nat} (h : ∀ t, f t ≤ g t) (threads : List T) :
    total f threads ≤ total g threads :=
  sum_le_sum fun t _ => h t

theorem total_add (f g : T → Nat) (threads : List T) :
    total (fun t => f t + g t) threads = total f threads + total g threads :=
  sum_map_add

theorem add_le_total {i j : Nat} {a b : T} (hi : threads[i]? = some a)
    (hj : threads[j]? = some b) (hne : i ≠ j) : f a + f b ≤ total f threads := by
  obtain ⟨hlt, rfl⟩ := List.getElem?_eq_some_iff.mp hi
  have hold := total_perm (f := f) (getElem_cons_eraseIdx_perm hlt)
  have hmem : b ∈ threads.eraseIdx i := mem_eraseIdx_iff_getElem?.mpr ⟨j, hne.symm, hj⟩
  have hle := le_total (f := f) hmem
  simp only [total, map_cons, sum_cons] at hold hle ⊢
  omega

theorem exists_of_total_pos (h : 0 < total f threads) :
    ∃ (i : Nat) (t : T), threads[i]? = some t ∧ 0 < f t := by
  by_contra hnone
  have hzero : total f threads = 0 := by
    refine sum_eq_zero fun n hn => ?_
    obtain ⟨t, ht, rfl⟩ := mem_map.mp hn
    obtain ⟨i, hi⟩ := mem_iff_getElem?.mp ht
    by_contra hpos
    exact hnone ⟨i, t, hi, Nat.pos_of_ne_zero hpos⟩
  omega

theorem forall_set {p q : T → Prop} (hall : ∀ t ∈ threads, p t)
    (hkeep : ∀ t, p t → q t) {i : Nat} {t' : T} (hnew : q t') : ∀ t ∈ threads.set i t', q t := by
  intro t ht
  rcases mem_or_eq_of_mem_set ht with hold | rfl
  · exact hkeep t (hall t hold)
  · exact hnew

end Threads
