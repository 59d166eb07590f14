import Mathlib

/-!
Binary search for where a test stops holding. The test may be asked of something that fails, which ends
the search early; where it does not, and it holds up to some index of the range and never again, the
search ends at that index.
-/

set_option autoImplicit false

namespace Bisect

variable {ε : Type}

/-- Halve `[low, high)` until it is empty, keeping above every index the test holds at. The test is asked
with the window's low end beside the index. -/
def walk (ask : Nat → Nat → Except ε Bool) : Nat → Nat → Nat → Except ε Nat
  | 0, low, _ => .ok low
  | fuel + 1, low, high =>
    if low < high then
      let mid := low + (high - low) / 2
      match ask low mid with
      | .error out => .error out
      | .ok true => walk ask fuel (mid + 1) high
      | .ok false => walk ask fuel low mid
    else .ok low

/-- The test holds up to an index and not from it on. -/
structure Splits (below : Nat → Bool) (n cut : Nat) : Prop where
  le : cut ≤ n
  holds : ∀ i < cut, below i = true
  fails : ∀ i, cut ≤ i → i < n → below i = false

variable {below : Nat → Bool} {n cut : Nat}

theorem Splits.iff_lt (h : Splits below n cut) {i : Nat} (hi : i < n) : below i = true ↔ i < cut := by
  refine ⟨fun hyes => ?_, h.holds i⟩
  by_contra hge
  rw [h.fails i (by omega) hi] at hyes
  cases hyes

theorem walk_eq (h : Splits below n cut) {ask : Nat → Nat → Except ε Bool}
    (hask : ∀ low mid, mid < n → ask low mid = .ok (below mid)) {fuel low high : Nat} (hlow : low ≤ cut)
    (hcut : cut ≤ high) (hhigh : high ≤ n) (hfuel : high - low ≤ fuel) :
    walk ask fuel low high = .ok cut := by
  induction fuel generalizing low high with
  | zero => exact congrArg Except.ok (by omega)
  | succ fuel ih =>
    rw [walk]
    split
    · next hlt =>
      have hmid : low + (high - low) / 2 < n := by omega
      have hside := h.iff_lt hmid
      simp only [hask _ _ hmid]
      cases hbelow : below (low + (high - low) / 2) with
      | true =>
        have hless := hside.mp hbelow
        exact ih (by omega) hcut hhigh (by omega)
      | false =>
        have hmore : ¬ low + (high - low) / 2 < cut := fun hless => by
          rw [hside.mpr hless] at hbelow
          cases hbelow
        exact ih hlow (by omega) (by omega) (by omega)
    · exact congrArg Except.ok (by omega)

theorem exists_splits (hanti : ∀ i j, i ≤ j → j < n → below j = true → below i = true) :
    ∃ cut, Splits below n cut := by
  induction n with
  | zero =>
    refine ⟨0, le_refl _, fun i hi => ?_, fun i _ hi => ?_⟩
    · omega
    · omega
  | succ n ih =>
    cases hlast : below n with
    | true => exact ⟨n + 1, le_refl _, fun i hi => hanti i n (by omega) (by omega) hlast, fun i hle hi => by omega⟩
    | false =>
      obtain ⟨cut, hcut⟩ := ih fun i j hij hj => hanti i j hij (by omega)
      refine ⟨cut, by have := hcut.le; omega, hcut.holds, fun i hle hi => ?_⟩
      rcases Nat.lt_succ_iff_lt_or_eq.mp hi with hi | rfl
      · exact hcut.fails i hle hi
      · exact hlast

end Bisect
