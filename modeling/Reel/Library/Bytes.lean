import Mathlib

/-!
Byte strings: little endian words of a fixed width, and bounds-checked slices of
a buffer read at absolute positions. Byte strings compare lexicographically.
-/

set_option autoImplicit false

open List

namespace Bytes

abbrev Byte := Fin 256
abbrev Str := List Byte

instance instNeZeroByte : NeZero 256 := ⟨by decide⟩

def toLe : Nat → Nat → Str
  | 0, _ => []
  | n + 1, x => Fin.ofNat 256 x :: toLe n (x / 256)

def fromLe (bytes : Str) : Nat := Nat.ofDigits 256 (bytes.map Fin.val)

@[simp] theorem toLe_length (n x : Nat) : (toLe n x).length = n := by
  induction n generalizing x with
  | zero => rfl
  | succ n ih => simp [toLe, ih]

theorem fromLe_cons (b : Byte) (bytes : Str) : fromLe (b :: bytes) = b.val + 256 * fromLe bytes := by
  simp [fromLe, Nat.ofDigits_cons]

theorem fromLe_toLe {n x : Nat} (h : x < 256 ^ n) : fromLe (toLe n x) = x := by
  induction n generalizing x with
  | zero => simp only [Nat.pow_zero, Nat.lt_one_iff] at h; simp [h, toLe, fromLe]
  | succ n ih =>
    have hq : x / 256 < 256 ^ n := by
      rw [Nat.pow_succ] at h
      exact Nat.div_lt_of_lt_mul (by rwa [Nat.mul_comm])
    have hb : (Fin.ofNat 256 x).val = x % 256 := rfl
    rw [toLe, fromLe_cons, ih hq, hb]
    omega

theorem toLe_fromLe (bytes : Str) : toLe bytes.length (fromLe bytes) = bytes := by
  induction bytes with
  | nil => rfl
  | cons b bytes ih =>
    have hlow : Fin.ofNat 256 (b.val + 256 * fromLe bytes) = b := by
      apply Fin.ext
      rw [Fin.val_ofNat, Nat.add_mul_mod_self_left, Nat.mod_eq_of_lt b.isLt]
    have hhigh : (b.val + 256 * fromLe bytes) / 256 = fromLe bytes := by
      have := b.isLt
      omega
    rw [length_cons, toLe, fromLe_cons, hlow, hhigh, ih]

theorem toLe_mod (n x : Nat) : toLe n (x % 256 ^ n) = toLe n x := by
  induction n generalizing x with
  | zero => rfl
  | succ n ih =>
    have hlow : Fin.ofNat 256 (x % 256 ^ (n + 1)) = Fin.ofNat 256 x := by
      apply Fin.ext
      exact Nat.mod_mod_of_dvd x (Dvd.intro_left _ (Nat.pow_succ ..).symm)
    have hhigh : x % 256 ^ (n + 1) / 256 = x / 256 % 256 ^ n := by
      rw [Nat.pow_succ, Nat.mul_comm, Nat.mod_mul_right_div_self]
    rw [toLe, toLe, hlow, hhigh, ih]

theorem fromLe_toLe_mod (n x : Nat) : fromLe (toLe n x) = x % 256 ^ n := by
  rw [← toLe_mod, fromLe_toLe (Nat.mod_lt x (by positivity))]

theorem fromLe_lt (bytes : Str) : fromLe bytes < 256 ^ bytes.length := by
  have h : ∀ d ∈ bytes.map Fin.val, d < 256 := by
    intro d hd
    obtain ⟨b, _, rfl⟩ := mem_map.mp hd
    exact b.isLt
  simpa [fromLe] using Nat.ofDigits_lt_base_pow_length (by decide) h

def slice (bytes : Str) (start n : Nat) : Option Str :=
  if start + n ≤ bytes.length then some ((bytes.drop start).take n) else none

theorem slice_length {bytes out : Str} {start n : Nat} (h : slice bytes start n = some out) :
    out.length = n := by
  unfold slice at h
  split at h
  · cases h
    simp only [length_take, length_drop]
    omega
  · cases h

theorem slice_append_right (front rest : Str) {start i n : Nat} (h : start = front.length + i) :
    slice (front ++ rest) start n = slice rest i n := by
  subst h
  unfold slice
  simp only [length_append, drop_append, Nat.add_sub_cancel_left]
  have hd : drop (front.length + i) front = [] := drop_eq_nil_of_le (by omega)
  simp only [hd, nil_append]
  by_cases hn : i + n ≤ rest.length
  · rw [if_pos hn, if_pos (by omega)]
  · rw [if_neg hn, if_neg (by omega)]

theorem slice_append_left (front rest : Str) {n : Nat} (h : n = front.length) :
    slice (front ++ rest) 0 n = some front := by
  subst h
  simp [slice]

theorem slice_middle {bytes mid : Str} (front rest : Str) {start n : Nat} (h : bytes = front ++ mid ++ rest)
    (hs : start = front.length) (hn : n = mid.length) : slice bytes start n = some mid := by
  rw [h, append_assoc, slice_append_right front (mid ++ rest) (i := 0) (by omega)]
  exact slice_append_left mid rest hn

theorem slice_zero_of_all_zero {bytes out : Str} {start n : Nat} (hz : ∀ b ∈ bytes, b = 0)
    (h : slice bytes start n = some out) : ∀ b ∈ out, b = 0 := by
  unfold slice at h
  split at h
  · cases h
    exact fun b hb => hz b (mem_of_mem_drop (mem_of_mem_take hb))
  · cases h

theorem fromLe_all_zero {bytes : Str} (h : ∀ b ∈ bytes, b = 0) : fromLe bytes = 0 := by
  induction bytes with
  | nil => rfl
  | cons b bytes ih =>
    rw [fromLe_cons, ih (fun c hc => h c (by simp [hc])), h b (by simp)]
    rfl

def padTo (n : Nat) (bytes : Str) : Str := bytes.take n ++ replicate (n - bytes.length) 0

@[simp] theorem padTo_length (n : Nat) (bytes : Str) : (padTo n bytes).length = n := by
  simp only [padTo, length_append, length_take, length_replicate]; omega

theorem padTo_cons (n : Nat) (b : Byte) (bytes : Str) :
    padTo (n + 1) (b :: bytes) = b :: padTo n bytes := by
  simp [padTo]

theorem padTo_nil (n : Nat) : padTo n [] = replicate n 0 := by simp [padTo]

theorem cons_le_cons {x y : Byte} {a b : Str} : x :: a ≤ y :: b ↔ x < y ∨ x = y ∧ a ≤ b := by
  rw [le_iff_lt_or_eq, cons_lt_cons_iff, List.cons.injEq, le_iff_lt_or_eq]
  tauto

theorem replicate_zero_le (bytes : Str) : replicate bytes.length (0 : Byte) ≤ bytes := by
  induction bytes with
  | nil => exact le_refl _
  | cons b bytes ih =>
    rw [length_cons, replicate_succ, cons_le_cons]
    rcases (Fin.zero_le b).lt_or_eq with h | h
    · exact .inl h
    · exact .inr ⟨h, ih⟩

theorem padTo_mono {a b : Str} (h : a ≤ b) (n : Nat) : padTo n a ≤ padTo n b := by
  induction n generalizing a b with
  | zero => simp [padTo]
  | succ n ih =>
    cases a with
    | nil =>
      rw [padTo_nil]
      have := replicate_zero_le (padTo (n + 1) b)
      rwa [padTo_length] at this
    | cons x a =>
      cases b with
      | nil => exact absurd h (by simp)
      | cons y b =>
        rw [padTo_cons, padTo_cons, cons_le_cons]
        rcases cons_le_cons.mp h with hlt | ⟨heq, hle⟩
        · exact .inl hlt
        · exact .inr ⟨heq, ih hle⟩

theorem padTo_le_iff {n : Nat} {bound key : Str} (hkey : key.length = n) :
    padTo n bound ≤ key ↔ bound ≤ key ∨ n < bound.length ∧ key = bound.take n := by
  induction n generalizing bound key with
  | zero =>
    obtain rfl := length_eq_zero_iff.mp hkey
    cases bound <;> simp [padTo]
  | succ n ih =>
    obtain ⟨k, key, rfl⟩ := exists_cons_of_length_eq_add_one hkey
    have hkey : key.length = n := by simpa using hkey
    cases bound with
    | nil =>
      have hlow := replicate_zero_le (k :: key)
      rw [length_cons, hkey] at hlow
      have hnil : ([] : Str) ≤ k :: key := (nil_lt_cons k key).le
      simp [padTo_nil, hlow, hnil]
    | cons b bound =>
      rw [padTo_cons, cons_le_cons, cons_le_cons, ih hkey]
      simp only [length_cons, Nat.add_lt_add_iff_right, take_succ_cons, List.cons.injEq]
      tauto

theorem take_lt {n : Nat} {bytes : Str} (h : n < bytes.length) : bytes.take n < bytes := by
  induction n generalizing bytes with
  | zero =>
    obtain ⟨b, bytes, rfl⟩ := exists_cons_of_length_pos h
    exact nil_lt_cons b bytes
  | succ n ih =>
    obtain ⟨b, bytes, rfl⟩ := exists_cons_of_length_pos (Nat.zero_lt_of_lt h)
    rw [take_succ_cons, cons_lt_cons_iff]
    exact .inr ⟨rfl, ih (by simpa using h)⟩

theorem lt_replicate_top_of_take_ne {n : Nat} {bytes : Str} (hlen : n ≤ bytes.length)
    (h : bytes.take n ≠ replicate n 255) : bytes < replicate n 255 := by
  induction n generalizing bytes with
  | zero => simp at h
  | succ n ih =>
    cases bytes with
    | nil => simp at hlen
    | cons b bytes =>
      rw [replicate_succ, cons_lt_cons_iff]
      by_cases hb : b = 255
      · refine .inr ⟨hb, ih (by simpa using hlen) ?_⟩
        intro ht
        exact h (by simp [replicate_succ, hb, ht])
      · exact .inl (lt_of_le_of_ne (Fin.le_last b) hb)

theorem lt_of_take_eq_replicate_top {n : Nat} {key bytes : Str} (hkey : key.length ≤ n)
    (hlen : n < bytes.length) (h : bytes.take n = replicate n 255) : key < bytes := by
  induction n generalizing key bytes with
  | zero =>
    cases key with
    | nil =>
      cases bytes with
      | nil => simp at hlen
      | cons b bytes => exact nil_lt_cons b bytes
    | cons k key => simp at hkey
  | succ n ih =>
    cases bytes with
    | nil => simp at hlen
    | cons b bytes =>
      simp only [take_succ_cons, replicate_succ, List.cons.injEq] at h
      cases key with
      | nil => exact nil_lt_cons b bytes
      | cons k key =>
        rw [cons_lt_cons_iff, h.1]
        rcases (Fin.le_last k).lt_or_eq with hlt | heq
        · exact .inl hlt
        · exact .inr ⟨heq, ih (by simpa using hkey) (by simpa using hlen) h.2⟩

end Bytes
