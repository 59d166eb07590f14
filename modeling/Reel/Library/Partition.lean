import Reel.Library.StableSort

/-!
Elements grouped by a key, the groups held in key order and each group in arrival
order. Laying the groups end to end is a stable sort by the key.
-/

set_option autoImplicit false

open List

namespace StableSort

variable {α β κ : Type} [LinearOrder κ]

def pushPart : List (κ × List α) → κ → α → List (κ × List α)
  | [], c, a => [(c, [a])]
  | (k, held) :: parts, c, a =>
    if k = c then (k, held ++ [a]) :: parts
    else if c < k then (c, [a]) :: (k, held) :: parts
    else (k, held) :: pushPart parts c a

variable (f : α → κ) (g : α → β) (l : List α)

def partition : List (κ × List β) :=
  l.foldl (fun parts a => pushPart parts (f a) (g a)) []

theorem partition_map {γ : Type} (e : γ → α) (l : List γ) :
    partition f g (l.map e) = partition (f ∘ e) (g ∘ e) l := foldl_map

theorem map_pushPart (h : κ → α → β) (parts : List (κ × List α)) (c : κ) (a : α) :
    (pushPart parts c a).map (fun part => (part.1, part.2.map (h part.1))) =
      pushPart (parts.map fun part => (part.1, part.2.map (h part.1))) c (h c a) := by
  induction parts with
  | nil => rfl
  | cons head parts ih =>
    obtain ⟨k, held⟩ := head
    simp only [pushPart, map_cons]
    by_cases hk : k = c
    · subst hk
      simp
    · by_cases hc : c < k
      · simp [hk, hc]
      · simp only [if_neg hk, if_neg hc, map_cons, ih]

theorem map_partition {γ : Type} (h : κ → β → γ) :
    (partition f g l).map (fun part => (part.1, part.2.map (h part.1))) =
      partition f (fun a => h (f a) (g a)) l :=
  (foldl_hom (fun parts : List (κ × List β) => parts.map fun part => (part.1, part.2.map (h part.1)))
    fun parts a => (map_pushPart h parts (f a) (g a)).symm).symm

/-- Groups in strictly rising key order. -/
def Ordered (parts : List (κ × List α)) : Prop := parts.Pairwise (fun p q => p.1 < q.1)

variable {parts : List (κ × List α)}

theorem mem_pushPart_key {c : κ} {a : α} {p : κ × List α}
    (h : p ∈ pushPart parts c a) : p.1 = c ∨ ∃ q ∈ parts, q.1 = p.1 := by
  induction parts with
  | nil =>
    simp only [pushPart, mem_singleton] at h
    exact .inl (by rw [h])
  | cons head parts ih =>
    obtain ⟨k, held⟩ := head
    unfold pushPart at h
    split at h
    · rename_i hk
      rcases mem_cons.mp h with rfl | h
      · exact .inl hk
      · exact .inr ⟨p, by simp [h], rfl⟩
    · split at h
      · rcases mem_cons.mp h with rfl | h
        · exact .inl rfl
        · exact .inr ⟨p, h, rfl⟩
      · rcases mem_cons.mp h with rfl | h
        · exact .inr ⟨(k, held), by simp, rfl⟩
        · rcases ih h with hc | ⟨q, hq, he⟩
          · exact .inl hc
          · exact .inr ⟨q, by simp [hq], he⟩

theorem ordered_pushPart (h : Ordered parts) (c : κ) (a : α) :
    Ordered (pushPart parts c a) := by
  induction parts with
  | nil => simp [pushPart, Ordered]
  | cons head parts ih =>
    obtain ⟨k, held⟩ := head
    obtain ⟨hk, hrest⟩ := pairwise_cons.mp h
    unfold pushPart
    split
    · exact pairwise_cons.mpr ⟨hk, hrest⟩
    · split
      · rename_i hne hlt
        refine pairwise_cons.mpr ⟨?_, h⟩
        intro q hq
        rcases mem_cons.mp hq with rfl | hq
        · exact hlt
        · exact lt_trans hlt (hk q hq)
      · rename_i hne hlt
        refine pairwise_cons.mpr ⟨?_, ih hrest⟩
        intro q hq
        rcases mem_pushPart_key hq with hc | ⟨p, hp, he⟩
        · rw [hc]; exact lt_of_le_of_ne (not_lt.mp hlt) hne
        · rw [← he]; exact hk p hp

def under (parts : List (κ × List α)) (c : κ) : List α :=
  (parts.filter (fun p => p.1 = c)).flatMap (·.2)

theorem under_cons (k : κ) (held : List α) (parts : List (κ × List α)) (c : κ) :
    under ((k, held) :: parts) c = (if k = c then held else []) ++ under parts c := by
  by_cases hc : k = c <;> simp [under, hc]

theorem under_eq_nil {k : κ} (h : ∀ q ∈ parts, k < q.1) {c : κ}
    (hc : c ≤ k) : under parts c = [] := by
  unfold under
  rw [filter_eq_nil_iff.mpr, flatMap_nil]
  intro q hq
  simpa using (lt_of_le_of_lt hc (h q hq)).ne'

theorem under_pushPart (h : Ordered parts) (c d : κ) (a : α) :
    under (pushPart parts c a) d = under parts d ++ if c = d then [a] else [] := by
  induction parts with
  | nil => by_cases hd : c = d <;> simp [pushPart, under, hd]
  | cons head parts ih =>
    obtain ⟨k, held⟩ := head
    obtain ⟨hk, hrest⟩ := pairwise_cons.mp h
    unfold pushPart
    split
    · rename_i hkc
      subst hkc
      rw [under_cons, under_cons]
      by_cases hd : k = d
      · subst hd
        simp [under_eq_nil hk (le_refl k)]
      · simp [hd]
    · rename_i hkc
      split
      · rename_i hlt
        rw [under_cons]
        by_cases hd : c = d
        · subst hd
          simp [under_cons, hkc, under_eq_nil hk hlt.le]
        · simp [hd]
      · rw [under_cons, under_cons, ih hrest, append_assoc]

theorem ordered_partition : Ordered (partition f g l) := by
  unfold partition
  suffices h : ∀ parts : List (κ × List β), Ordered parts →
      Ordered (l.foldl (fun parts a => pushPart parts (f a) (g a)) parts) from h [] List.Pairwise.nil
  induction l with
  | nil => exact fun _ h => h
  | cons a l ih => exact fun parts h => ih _ (ordered_pushPart h _ _)

theorem under_partition (c : κ) :
    under (partition f g l) c = (l.filter (fun a => f a = c)).map g := by
  unfold partition
  suffices h : ∀ parts : List (κ × List β), Ordered parts →
      under (l.foldl (fun parts a => pushPart parts (f a) (g a)) parts) c =
        under parts c ++ (l.filter (fun a => f a = c)).map g by
    simpa [under] using h [] List.Pairwise.nil
  induction l with
  | nil => simp
  | cons a l ih =>
    intro parts hp
    rw [foldl_cons, ih _ (ordered_pushPart hp _ _), under_pushPart hp]
    by_cases hc : f a = c <;> simp [hc]

theorem under_of_mem (h : Ordered parts) {p : κ × List α} (hp : p ∈ parts) :
    under parts p.1 = p.2 := by
  induction parts with
  | nil => cases hp
  | cons head parts ih =>
    obtain ⟨k, held⟩ := head
    obtain ⟨hk, hrest⟩ := pairwise_cons.mp h
    rw [under_cons]
    rcases mem_cons.mp hp with rfl | hp
    · rw [if_pos rfl, under_eq_nil hk (le_refl k), append_nil]
    · rw [if_neg (hk p hp).ne, ih hrest hp, nil_append]

theorem pushPart_ne_nil (h : ∀ p ∈ parts, p.2 ≠ []) (c : κ) (a : α) :
    ∀ p ∈ pushPart parts c a, p.2 ≠ [] := by
  induction parts with
  | nil => simp [pushPart]
  | cons head parts ih =>
    obtain ⟨k, held⟩ := head
    have hrest : ∀ p ∈ parts, p.2 ≠ [] := fun p hp => h p (by simp [hp])
    intro p hp
    unfold pushPart at hp
    split at hp
    · rcases mem_cons.mp hp with rfl | hp
      · simp
      · exact hrest p hp
    · split at hp
      · rcases mem_cons.mp hp with rfl | hp
        · simp
        · exact h p hp
      · rcases mem_cons.mp hp with rfl | hp
        · exact h _ (by simp)
        · exact ih hrest p hp

theorem partition_ne_nil : ∀ p ∈ partition f g l, p.2 ≠ [] := by
  unfold partition
  suffices h : ∀ parts : List (κ × List β), (∀ p ∈ parts, p.2 ≠ []) →
      ∀ p ∈ l.foldl (fun parts a => pushPart parts (f a) (g a)) parts, p.2 ≠ [] from h [] (by simp)
  induction l with
  | nil => exact fun _ h => h
  | cons a l ih => exact fun parts h => ih _ (pushPart_ne_nil h _ _)

theorem exists_mem_partition (c : κ) :
    (∃ p ∈ partition f g l, p.1 = c) ↔ ∃ a ∈ l, f a = c := by
  have hunder := under_partition f g l c
  constructor
  · rintro ⟨p, hp, rfl⟩
    rw [under_of_mem (ordered_partition f g l) hp] at hunder
    have hne := partition_ne_nil f g l p hp
    rw [hunder] at hne
    obtain ⟨b, hb⟩ := exists_mem_of_ne_nil _ hne
    obtain ⟨a, ha, -⟩ := mem_map.mp hb
    exact ⟨a, (mem_filter.mp ha).1, of_decide_eq_true (mem_filter.mp ha).2⟩
  · rintro ⟨a, ha, hc⟩
    have hmem : g a ∈ under (partition f g l) c := by
      rw [hunder]
      exact mem_map_of_mem (mem_filter.mpr ⟨ha, decide_eq_true hc⟩)
    obtain ⟨p, hp, -⟩ := mem_flatMap.mp hmem
    exact ⟨p, (mem_filter.mp hp).1, of_decide_eq_true (mem_filter.mp hp).2⟩

def keyed (parts : List (κ × List α)) : List (κ × α) := parts.flatMap (fun p => p.2.map (Prod.mk p.1))

theorem filter_keyed (parts : List (κ × List α)) (c : κ) :
    (keyed parts).filter (fun x => x.1 = c) = (under parts c).map (Prod.mk c) := by
  induction parts with
  | nil => rfl
  | cons head parts ih =>
    obtain ⟨k, held⟩ := head
    have hk : keyed ((k, held) :: parts) = held.map (Prod.mk k) ++ keyed parts := rfl
    rw [hk, filter_append, ih, filter_map]
    by_cases hc : k = c
    · subst hc
      simp [under, Function.comp_def]
    · simp [under, hc, Function.comp_def]

theorem sorted_keyed (h : Ordered parts) :
    (keyed parts).Pairwise (fun x y => x.1 ≤ y.1) := by
  induction parts with
  | nil => exact List.Pairwise.nil
  | cons head parts ih =>
    obtain ⟨k, held⟩ := head
    obtain ⟨hk, hrest⟩ := pairwise_cons.mp h
    have hcons : keyed ((k, held) :: parts) = held.map (Prod.mk k) ++ keyed parts := rfl
    rw [hcons, pairwise_append]
    refine ⟨?_, ih hrest, ?_⟩
    · rw [pairwise_map]
      exact pairwise_of_forall (fun _ _ => le_refl _)
    · intro x hx y hy
      obtain ⟨a, _, rfl⟩ := mem_map.mp hx
      obtain ⟨p, hp, hy⟩ := mem_flatMap.mp hy
      obtain ⟨b, _, rfl⟩ := mem_map.mp hy
      exact (hk p hp).le

theorem keyed_partition :
    keyed (partition f g l) = (sortByKey f l).map (fun a => (f a, g a)) := by
  refine eq_of_filter_eq Prod.fst (sorted_keyed (ordered_partition f g l)) ?_ (fun c => ?_)
  · rw [pairwise_map]
    exact sorted_sortByKey f l
  · rw [filter_keyed, under_partition, filter_map, map_map]
    have : ((fun x : κ × β => decide (x.1 = c)) ∘ fun a => (f a, g a)) = fun a => decide (f a = c) := rfl
    rw [this, filter_sortByKey]
    apply map_congr_left
    intro a ha
    simp only [mem_filter, decide_eq_true_eq] at ha
    simp [ha.2]

theorem filter_sort (p : α → Bool) (l : List α) :
    (sortByKey f l).filter p = sortByKey f (l.filter p) := by
  symm
  apply sortByKey_eq f ((sorted_sortByKey f l).sublist filter_sublist)
  intro c
  rw [filter_comm, filter_sortByKey, filter_comm]

theorem sortByKey_map (f : β → κ) (g : α → β) (l : List α) :
    sortByKey f (l.map g) = (sortByKey (f ∘ g) l).map g := by
  apply sortByKey_eq f
  · rw [pairwise_map]
    exact sorted_sortByKey (f ∘ g) l
  · intro c
    rw [filter_map, filter_map]
    have := filter_sortByKey (f ∘ g) l c
    simp only [Function.comp_def] at this ⊢
    rw [this]

end StableSort
