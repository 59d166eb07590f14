import Mathlib

/-!
Finite maps held as their entries in ascending key order.
-/

set_option autoImplicit false

structure SortedMap (K V : Type) [LinearOrder K] where
  entries : List (K × V)
  sorted : entries.Pairwise (fun a b => a.1 < b.1)

open List

namespace SortedMap
variable {K V : Type} [LinearOrder K]

def empty : SortedMap K V := ⟨[], List.Pairwise.nil⟩

def get (m : SortedMap K V) (k : K) : Option V :=
  (m.entries.find? (fun e => decide (e.1 = k))).map Prod.snd

def put (m : SortedMap K V) (k : K) (v : V) : SortedMap K V where
  entries := m.entries.filter (fun e => e.1 < k) ++ (k, v) :: m.entries.filter (fun e => k < e.1)
  sorted := by
    refine pairwise_append.mpr ⟨m.sorted.filter _, ?_, ?_⟩
    · refine pairwise_cons.mpr ⟨?_, m.sorted.filter _⟩
      intro e he
      simpa using (mem_filter.mp he).2
    · intro a ha b hb
      have hak : a.1 < k := by simpa using (mem_filter.mp ha).2
      rcases mem_cons.mp hb with rfl | hb
      · exact hak
      · exact hak.trans (by simpa using (mem_filter.mp hb).2)

def keep (m : SortedMap K V) (p : K → V → Bool) : SortedMap K V :=
  ⟨m.entries.filter (fun e => p e.1 e.2), m.sorted.filter _⟩

def take (m : SortedMap K V) (k : K) : SortedMap K V := m.keep (fun j _ => decide (j ≠ k))

@[simp] theorem get_empty (k : K) : (empty : SortedMap K V).get k = none := rfl

variable {m : SortedMap K V} {k : K}

theorem mem_entries {v : V} :
    (k, v) ∈ m.entries ↔ m.get k = some v := by
  obtain ⟨entries, sorted⟩ := m
  unfold get
  induction entries with
  | nil => simp
  | cons e entries ih =>
    obtain ⟨hhead, htail⟩ := pairwise_cons.mp sorted
    rw [find?_cons, mem_cons]
    by_cases he : e.1 = k
    · have hnot : (k, v) ∉ entries := fun hm => absurd (hhead _ hm) (by simp [he])
      simp only [he, decide_true, Option.map_some, Option.some.injEq, hnot, or_false]
      constructor
      · rintro rfl
        rfl
      · rintro rfl
        rw [← he]
    · have hne : (k, v) ≠ e := fun h => he (by rw [← h])
      simp only [he, decide_false, hne, false_or]
      exact ih htail

theorem get_eq_none :
    m.get k = none ↔ ∀ v, (k, v) ∉ m.entries := by
  simp only [mem_entries]
  cases m.get k <;> simp

theorem get_put (m : SortedMap K V) (k : K) (v : V) (j : K) :
    (m.put k v).get j = if j = k then some v else m.get j := by
  have hmem : ∀ w, (j, w) ∈ (m.put k v).entries ↔
      (j = k ∧ w = v) ∨ (j ≠ k ∧ (j, w) ∈ m.entries) := by
    intro w
    simp only [put, mem_append, mem_cons, mem_filter, decide_eq_true_eq,
      Prod.mk.injEq]
    constructor
    · rintro (⟨hm, hlt⟩ | ⟨hj, hw⟩ | ⟨hm, hlt⟩)
      · exact .inr ⟨hlt.ne, hm⟩
      · exact .inl ⟨hj, hw⟩
      · exact .inr ⟨hlt.ne', hm⟩
    · rintro (⟨hj, hw⟩ | ⟨hj, hm⟩)
      · exact .inr (.inl ⟨hj, hw⟩)
      · rcases lt_or_gt_of_ne hj with hlt | hlt
        · exact .inl ⟨hm, hlt⟩
        · exact .inr (.inr ⟨hm, hlt⟩)
  by_cases hj : j = k
  · rw [if_pos hj]
    exact mem_entries.mp ((hmem v).mpr (.inl ⟨hj, rfl⟩))
  · rw [if_neg hj]
    refine Option.ext fun w => ?_
    rw [← mem_entries, ← mem_entries, hmem]
    simp [hj]

theorem get_keep (m : SortedMap K V) (p : K → V → Bool) (k : K) :
    (m.keep p).get k = (m.get k).filter (p k) := by
  refine Option.ext fun v => ?_
  rw [← mem_entries, Option.filter_eq_some_iff, ← mem_entries]
  exact mem_filter

theorem get_take (m : SortedMap K V) (k j : K) :
    (m.take k).get j = if j = k then none else m.get j := by
  rw [take, get_keep]
  by_cases hj : j = k
  · cases m.get j <;> simp [Option.filter, hj]
  · cases m.get j <;> simp [Option.filter, hj]

theorem nodup_entries (m : SortedMap K V) : m.entries.Nodup :=
  m.sorted.imp fun {a b} h => by rintro rfl; exact lt_irrefl _ h

theorem not_mem_take (m : SortedMap K V) (k : K) (v : V) : (k, v) ∉ (m.take k).entries := by
  rw [mem_entries, get_take, if_pos rfl]
  exact nofun

theorem put_perm (m : SortedMap K V) (k : K) (v : V) :
    (m.put k v).entries.Perm ((k, v) :: (m.take k).entries) := by
  refine (perm_ext_iff_of_nodup (nodup_entries _)
    (nodup_cons.mpr ⟨not_mem_take m k v, nodup_entries _⟩)).mpr ?_
  rintro ⟨j, x⟩
  rw [mem_cons, mem_entries, mem_entries, get_put, get_take, Prod.mk.injEq]
  by_cases hj : j = k
  · simp [hj, eq_comm]
  · simp [hj]

theorem take_perm_of_some {w : V} (h : m.get k = some w) :
    m.entries.Perm ((k, w) :: (m.take k).entries) := by
  refine (perm_ext_iff_of_nodup m.nodup_entries
    (nodup_cons.mpr ⟨not_mem_take m k w, nodup_entries _⟩)).mpr ?_
  rintro ⟨j, x⟩
  rw [mem_cons, mem_entries, mem_entries, get_take, Prod.mk.injEq]
  by_cases hj : j = k
  · simp [hj, h, eq_comm]
  · simp [hj]

theorem take_entries_of_none (h : m.get k = none) :
    (m.take k).entries = m.entries := by
  refine filter_eq_self.mpr fun e he => ?_
  have hne : e.1 ≠ k := by
    rintro rfl
    exact get_eq_none.mp h e.2 he
  simp [hne]

theorem sum_put (m : SortedMap K V) (k : K) (v : V) (w : K × V → Nat) :
    ((m.put k v).entries.map w).sum = w (k, v) + ((m.take k).entries.map w).sum := by
  rw [((put_perm m k v).map w).sum_eq, map_cons, sum_cons]

theorem sum_of_some {v : V} (h : m.get k = some v) (w : K × V → Nat) :
    (m.entries.map w).sum = w (k, v) + ((m.take k).entries.map w).sum := by
  rw [((take_perm_of_some h).map w).sum_eq, map_cons, sum_cons]

theorem sum_of_none (h : m.get k = none) (w : K × V → Nat) :
    (m.entries.map w).sum = ((m.take k).entries.map w).sum := by
  rw [take_entries_of_none h]

end SortedMap
