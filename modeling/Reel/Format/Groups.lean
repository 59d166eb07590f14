import Reel.Format.Journal
import Reel.Library.Files

/-!
What a read of the groups depends on: a group on its own bytes, the loop on the bytes up to where it
stands. The groups of a region are laid out from a position on, each behind the one before it or at the
block boundary its padding runs to.
-/

set_option autoImplicit false

namespace Reel
open Bytes Files List Option

theorem slice_shift (front rest : Str) (i n : Nat) :
    slice (front ++ rest) (front.length + i) n = slice rest i n := slice_append_right front rest rfl

theorem readEnd_shift (front rest : Str) (flags : Flags) (i : Nat) :
    readEnd (front ++ rest) flags (front.length + i) =
      (readEnd rest flags i).map fun x => (x.1, front.length + x.2) := by
  unfold readEnd
  split
  · simp only [Nat.add_assoc, slice_shift, bind_eq_bind]
    cases slice rest i 2 with
    | none => rfl
    | some len =>
      simp only [bind_some]
      split
      · rfl
      · cases slice rest (i + 2) (fromLe len) with
        | none => rfl
        | some held =>
          simp only [bind_some]
          cases (KeyBytes.new held).toOption <;> rfl
  · rfl

theorem readRow_shift (front rest : Str) (i : Nat) :
    readRow (front ++ rest) (front.length + i) =
      (readRow rest i).map fun x => (x.1, front.length + x.2) := by
  have hget : (front ++ rest)[front.length + i]? = rest[i]? := by
    rw [getElem?_append_right (by omega), Nat.add_sub_cancel_left]
  simp only [readRow, hget, Nat.add_assoc, slice_shift, readEnd_shift, bind_eq_bind, Option.map_bind,
    bind_map, Function.comp_def, map_some]

theorem readRows_shift (front rest : Str) (count i : Nat) :
    readRows (front ++ rest) count (front.length + i) =
      (readRows rest count i).map fun x => (x.1, front.length + x.2) := by
  induction count generalizing i with
  | zero => rfl
  | succ count ih =>
    simp only [readRows, readRow_shift, ih, bind_eq_bind, Option.map_bind, bind_map,
      Function.comp_def, map_some]

theorem readGroup_shift (checksum : Str → UInt32) (front rest : Str) (i : Nat) :
    readGroup checksum (front ++ rest) (front.length + i) =
      (readGroup checksum rest i).map fun x => (x.1, front.length + x.2) := by
  have htake : ∀ n, (front ++ rest).take (front.length + n) = front ++ rest.take n := by
    intro n
    rw [take_append, take_of_length_le (by omega), Nat.add_sub_cancel_left]
  have hsub : ∀ n, front.length + n - (front.length + i) = n - i := fun n => by omega
  simp only [readGroup, Nat.add_assoc, slice_shift, bind_eq_bind, hsub, htake, Option.map_bind,
    Function.comp_def]
  refine Option.bind_congr fun head _ => Option.bind_congr fun stored _ => Option.bind_congr fun covered _ => ?_
  split
  · rfl
  · simp only [readRows_shift, bind_map, Function.comp_def, Option.map_bind, Nat.add_right_inj]
    refine Option.bind_congr fun x _ => ?_
    split <;> rfl

variable {bytes : Str} {p : Nat}

theorem readGroup_drop (checksum : Str → UInt32) (hp : p ≤ bytes.length) :
    readGroup checksum bytes p = (readGroup checksum (bytes.drop p) 0).map fun x => (x.1, p + x.2) := by
  have h := readGroup_shift checksum (bytes.take p) (bytes.drop p) 0
  rw [take_append_drop, length_take, Nat.min_eq_left hp] at h
  exact h

variable {checksum : Str → UInt32}

theorem slice_agree {other out : Str} {m n : Nat} (h : slice bytes p n = some out)
    (hm : p + n ≤ m) (htake : other.take m = bytes.take m) : slice other p n = some out := by
  have hlen := le_of_slice h
  have hother : p + n ≤ other.length := by
    have := congrArg List.length htake
    simp only [length_take] at this
    omega
  have hcut : ∀ file : Str, (file.drop p).take n = ((file.take m).drop p).take n := by
    intro file
    rw [drop_take, take_take, Nat.min_eq_left (by omega)]
  unfold slice at h ⊢
  rw [if_pos hlen] at h
  rw [if_pos hother, hcut, htake, ← hcut, h]

section
variable {next : Nat} {rows : List JournalRow} (h : readGroup checksum bytes p = some (rows, next))
include h

theorem readGroup_bounds :
    p + groupHead + groupTail ≤ next ∧ next ≤ bytes.length := by
  simp only [readGroup, bind_eq_bind, bind_eq_some_iff] at h
  obtain ⟨head, _, stored, hstored, covered, _, hrest⟩ := h
  have hlen := le_of_slice hstored
  split at hrest
  · cases hrest
  · obtain ⟨x, _, hx⟩ := bind_eq_some_iff.mp hrest
    split at hx
    · cases hx
      omega
    · cases hx

theorem readGroup_agree {other : Str} (htake : other.take next = bytes.take next) :
    readGroup checksum other p = some (rows, next) := by
  simp only [readGroup, bind_eq_bind, bind_eq_some_iff] at h ⊢
  obtain ⟨head, hhead, stored, hstored, covered, hcovered, hrest⟩ := h
  split at hrest
  · cases hrest
  · rename_i hsum
    obtain ⟨x, hx, hend⟩ := bind_eq_some_iff.mp hrest
    split at hend
    · rename_i hcursor
      cases hend
      have hfin : other.take (p + groupHead + fromLe (head.drop 4)) =
          bytes.take (p + groupHead + fromLe (head.drop 4)) := by
        have := congrArg (take (p + groupHead + fromLe (head.drop 4))) htake
        simpa only [take_take, Nat.min_eq_left (Nat.le_add_right _ groupTail)] using this
      refine ⟨head, slice_agree hhead (by omega) htake, stored, slice_agree hstored le_rfl htake, covered,
        slice_agree hcovered (by omega) htake, ?_⟩
      rw [if_neg hsum, hfin, hx, bind_some, if_pos hcursor]
    · cases hend

end

theorem readGroup_of_zeros {zeros : Str}
    (h : slice bytes p 4 = some zeros) (hz : ∀ b ∈ zeros, b = 0) : readGroup checksum bytes p = none := by
  have hcount : ∀ head, slice bytes p groupHead = some head → fromLe (head.take 4) = 0 := by
    intro head hhead
    have hfront : head.take 4 = zeros := by
      unfold slice at h hhead
      split at h
      · split at hhead
        · cases h
          cases hhead
          rw [take_take]
          rfl
        · cases hhead
      · cases h
    rw [hfront]
    exact fromLe_all_zero hz
  rw [eq_none_iff_forall_not_mem]
  intro x hx
  simp only [readGroup, mem_def, bind_eq_bind, bind_eq_some_iff] at hx
  obtain ⟨head, hhead, stored, _, covered, _, hrest⟩ := hx
  rw [if_pos (Or.inl (hcount head hhead))] at hrest
  cases hrest

theorem le_nextMultiple (n : Nat) : n ≤ nextMultiple n := by
  unfold nextMultiple block
  omega

theorem nextMultiple_dvd (n : Nat) : block ∣ nextMultiple n := Dvd.intro_left _ rfl

theorem nextMultiple_of_dvd {n : Nat} (h : block ∣ n) : nextMultiple n = n := by
  obtain ⟨k, rfl⟩ := h
  unfold nextMultiple block
  omega

theorem block_gap {m n : Nat} (hm : block ∣ m) (hn : block ∣ n) (h : m < n) : m + block ≤ n := by
  obtain ⟨i, rfl⟩ := hm
  obtain ⟨k, rfl⟩ := hn
  unfold block at *
  omega

theorem nextMultiple_le {m n : Nat} (hn : block ∣ n) (h : m ≤ n) : nextMultiple m ≤ n := by
  obtain ⟨k, rfl⟩ := hn
  unfold nextMultiple block at *
  omega

/-- Zeros from a position up to the next block boundary. -/
def IsPadding (bytes : Str) (p : Nat) : Prop :=
  p < nextMultiple p ∧ (slice bytes p (nextMultiple p - p)).any (·.all (· == 0)) = true

structure LaidGroup where
  start : Nat
  rows : List JournalRow
  next : Nat
  deriving DecidableEq

def placeGroups (checksum : Str → UInt32) : Nat → List (List JournalRow) → List LaidGroup
  | _, [] => []
  | p, rows :: rest =>
    let next := p + (pushGroup checksum rows).length
    ⟨p, rows, next⟩ :: placeGroups checksum next rest

/-- The groups the loop of a read takes, with where it finds each. -/
def placesFrom (checksum : Str → UInt32) (bytes : Str) : Nat → Nat → List LaidGroup
  | 0, _ => []
  | fuel + 1, start =>
    match readGroup checksum bytes start with
    | some (rows, next) => ⟨start, rows, next⟩ :: placesFrom checksum bytes fuel next
    | none =>
      if (start < nextMultiple start ∧
            (slice bytes start (nextMultiple start - start)).any (·.all (· == 0)) = true) ∧
          (readGroup checksum bytes (nextMultiple start)).isSome = true then
        placesFrom checksum bytes fuel (nextMultiple start)
      else []

def places (checksum : Str → UInt32) (bytes : Str) : List LaidGroup :=
  placesFrom checksum bytes (2 * bytes.length + 1) 0

/-- Groups laid out from one position to another, each where the one before it ends or at the block
boundary after it. -/
inductive Lays (checksum : Str → UInt32) (bytes : Str) : Nat → List LaidGroup → Nat → Prop
  | done (p : Nat) : Lays checksum bytes p [] p
  | group {p q : Nat} {g : LaidGroup} {groups : List LaidGroup}
      (hstart : g.start = p ∨ IsPadding bytes p ∧ g.start = nextMultiple p)
      (hread : readGroup checksum bytes g.start = some (g.rows, g.next))
      (hrest : Lays checksum bytes g.next groups q) : Lays checksum bytes p (g :: groups) q

/-- Nothing that a read takes for a group stands at a position or behind the padding from it. -/
def Stops (checksum : Str → UInt32) (bytes : Str) (p : Nat) : Prop :=
  readGroup checksum bytes p = none ∧
    (IsPadding bytes p → readGroup checksum bytes (nextMultiple p) = none)

/-- The sums tell the padding behind a laid group from a group: none checks that starts where one ended, in
the last bytes before a boundary, and no group was placed. -/
def PadsDetected (checksum : Str → UInt32) (bytes : Str) (groups : List LaidGroup) : Prop :=
  ∀ g ∈ groups, IsPadding bytes g.next → nextMultiple g.next < g.next + 4 → (∀ other ∈ groups, other.start ≠ g.next) →
    readGroup checksum bytes g.next = none

theorem IsPadding.none_of_four (hp : IsPadding bytes p) (hfar : p + 4 ≤ nextMultiple p) :
    readGroup checksum bytes p = none := by
  obtain ⟨_, hzeros⟩ := hp
  obtain ⟨zeros, hslice, hall⟩ := (any_eq_true _ _).mp hzeros
  have hlen := le_of_slice hslice
  have hfour : slice bytes p 4 = some (zeros.take 4) := by
    unfold slice at hslice ⊢
    rw [if_pos hlen] at hslice
    cases hslice
    rw [if_pos (by omega), take_take, Nat.min_eq_left (by omega)]
  refine readGroup_of_zeros hfour fun b hb => ?_
  have := all_eq_true.mp hall b (mem_of_mem_take hb)
  simpa using this

theorem PadsDetected.none {groups : List LaidGroup}
    (h : PadsDetected checksum bytes groups) (hp : IsPadding bytes p) (hends : p = 0 ∨ ∃ g ∈ groups, g.next = p)
    (hfree : ∀ g ∈ groups, g.start ≠ p) : readGroup checksum bytes p = none := by
  rcases hends with rfl | ⟨g, hg, rfl⟩
  · exact absurd hp.1 (by decide)
  · by_cases hshort : nextMultiple g.next < g.next + 4
    · exact h g hg hp hshort hfree
    · exact hp.none_of_four (by omega)

section Lays
variable {checksum : Str → UInt32} {bytes : Str}

variable {p : Nat}

theorem Lays.start_le {start : Nat} (h : start = p ∨ IsPadding bytes p ∧ start = nextMultiple p) :
    p ≤ start := by
  rcases h with rfl | ⟨_, rfl⟩
  · exact le_rfl
  · exact le_nextMultiple p

variable {groups : List LaidGroup}

variable {q : Nat}

theorem Lays.le (h : Lays checksum bytes p groups q) : p ≤ q := by
  induction h with
  | done => exact le_rfl
  | group hstart hread _ ih =>
    have := Lays.start_le hstart
    have := (readGroup_bounds hread).1
    omega

theorem Lays.ends (h : Lays checksum bytes p groups q) : q = p ∨ ∃ g ∈ groups, g.next = q := by
  induction h with
  | done => exact .inl rfl
  | @group p q g groups _ _ _ ih =>
    rcases ih with hlast | ⟨other, hother, hlast⟩
    · exact .inr ⟨g, by simp, hlast.symm⟩
    · exact .inr ⟨other, by simp [hother], hlast⟩

theorem Lays.le_length (h : Lays checksum bytes p groups q)
    (hp : p ≤ bytes.length) : q ≤ bytes.length := by
  induction h with
  | done => exact hp
  | group _ hread _ ih => exact ih (readGroup_bounds hread).2

variable {g : LaidGroup}

section
variable (h : Lays checksum bytes p groups q) (hg : g ∈ groups)
include h hg

theorem Lays.span : p ≤ g.start ∧ g.start < g.next ∧ g.next ≤ q := by
  induction h with
  | done => cases hg
  | group hstart hread hrest ih =>
    have hle := Lays.start_le hstart
    have hbounds := (readGroup_bounds hread).1
    have hq := hrest.le
    simp only [groupHead, groupTail] at hbounds
    rcases mem_cons.mp hg with rfl | hg
    · omega
    · have := ih hg
      omega

theorem Lays.read :
    readGroup checksum bytes g.start = some (g.rows, g.next) := by
  induction h with
  | done => cases hg
  | group _ hread _ ih =>
    rcases mem_cons.mp hg with rfl | hg
    · exact hread
    · exact ih hg

end

theorem Lays.append {r : Nat} {front rest : List LaidGroup} (h : Lays checksum bytes p front q)
    (hrest : Lays checksum bytes q rest r) : Lays checksum bytes p (front ++ rest) r := by
  induction h with
  | done => exact hrest
  | group hstart hread _ ih => exact .group hstart hread (ih hrest)

theorem Lays.last (h : Lays checksum bytes p groups q) :
    p = q ∨ ∃ g ∈ groups, g.next = q := by
  induction h with
  | done => exact .inl rfl
  | group _ _ _ ih =>
    rcases ih with heq | ⟨g, hg, heq⟩
    · exact .inr ⟨_, mem_cons_self, heq⟩
    · exact .inr ⟨g, mem_cons_of_mem _ hg, heq⟩

theorem Lays.padded (hp : IsPadding bytes p)
    (h : Lays checksum bytes (nextMultiple p) (g :: groups) q) : Lays checksum bytes p (g :: groups) q := by
  cases h with
  | group hstart hread hrest =>
    rcases hstart with hstart | ⟨hagain, _⟩
    · exact .group (.inr ⟨hp, hstart⟩) hread hrest
    · have := hagain.1
      rw [nextMultiple_of_dvd (nextMultiple_dvd p)] at this
      exact absurd this (Nat.lt_irrefl _)

variable {other : Str}

theorem IsPadding.agree {m : Nat} (h : IsPadding bytes p) (hm : nextMultiple p ≤ m)
    (htake : other.take m = bytes.take m) : IsPadding other p := by
  obtain ⟨hlt, hzeros⟩ := h
  obtain ⟨zeros, hslice, hall⟩ := (any_eq_true _ _).mp hzeros
  refine ⟨hlt, (any_eq_true _ _).mpr ⟨zeros, slice_agree hslice (by omega) htake, hall⟩⟩

theorem Lays.agree
    (h : Lays checksum bytes p groups q) (htake : other.take q = bytes.take q) :
    Lays checksum other p groups q := by
  induction h with
  | done => exact .done _
  | @group p q g groups hstart hread hrest ih =>
    have hnext := hrest.le
    have hbounds := readGroup_bounds hread
    have hup : other.take g.next = bytes.take g.next := by
      have := congrArg (take g.next) htake
      simpa only [take_take, Nat.min_eq_left hnext] using this
    refine .group ?_ (readGroup_agree hread hup) (ih htake)
    exact hstart.imp_right fun hpad => ⟨hpad.1.agree (by omega) hup, hpad.2⟩

variable {rows : List JournalRow}

variable {next : Nat}

section
variable (h : readGroup checksum bytes p = some (rows, next)) (fuel : Nat)
include h fuel

theorem readGroupsFrom_group :
    readGroupsFrom checksum bytes (fuel + 1) p =
      (rows :: (readGroupsFrom checksum bytes fuel next).1, (readGroupsFrom checksum bytes fuel next).2) := by
  rw [readGroupsFrom, h]

theorem placesFrom_group :
    placesFrom checksum bytes (fuel + 1) p = ⟨p, rows, next⟩ :: placesFrom checksum bytes fuel next := by
  rw [placesFrom, h]

end

theorem readGroupsFrom_none (h : readGroup checksum bytes p = none) (fuel : Nat) :
    readGroupsFrom checksum bytes (fuel + 1) p =
      if (p < nextMultiple p ∧ (slice bytes p (nextMultiple p - p)).any (·.all (· == 0)) = true) ∧
          (readGroup checksum bytes (nextMultiple p)).isSome = true then
        readGroupsFrom checksum bytes fuel (nextMultiple p)
      else ([], p) := by
  rw [readGroupsFrom, h]

section
variable (h : readGroup checksum bytes p = none) (hp : IsPadding bytes p)
  (hnext : (readGroup checksum bytes (nextMultiple p)).isSome = true) (fuel : Nat)
include h hp hnext fuel

theorem placesFrom_padded :
    placesFrom checksum bytes (fuel + 1) p = placesFrom checksum bytes fuel (nextMultiple p) := by
  rw [placesFrom, h]
  exact if_pos ⟨hp, hnext⟩

theorem readGroupsFrom_padded :
    readGroupsFrom checksum bytes (fuel + 1) p = readGroupsFrom checksum bytes fuel (nextMultiple p) := by
  rw [readGroupsFrom_none h, if_pos ⟨hp, hnext⟩]

end

theorem readGroupsFrom_stops (h : Stops checksum bytes p) (fuel : Nat) :
    readGroupsFrom checksum bytes (fuel + 1) p = ([], p) := by
  rw [readGroupsFrom_none h.1, if_neg]
  rintro ⟨hp, hnext⟩
  rw [h.2 hp] at hnext
  cases hnext

theorem exists_group_of_not_stops (h : ¬ Stops checksum bytes p) :
    ∃ start rows next, (start = p ∨ readGroup checksum bytes p = none ∧ IsPadding bytes p ∧
      start = nextMultiple p) ∧ readGroup checksum bytes start = some (rows, next) := by
  cases hread : readGroup checksum bytes p with
  | some x => exact ⟨p, x.1, x.2, .inl rfl, hread⟩
  | none =>
    obtain ⟨hp, hnext⟩ := Classical.not_imp.mp fun hpad => h ⟨hread, hpad⟩
    obtain ⟨x, hx⟩ := ne_none_iff_exists'.mp hnext
    exact ⟨nextMultiple p, x.1, x.2, .inr ⟨rfl, hp, rfl⟩, hx⟩

theorem readGroupsFrom_round {start : Nat}
    (hstart : start = p ∨ readGroup checksum bytes p = none ∧ IsPadding bytes p ∧ start = nextMultiple p)
    (hread : readGroup checksum bytes start = some (rows, next)) (fuel : Nat) :
    ∃ left, fuel ≤ left ∧ readGroupsFrom checksum bytes (fuel + 2) p =
      (rows :: (readGroupsFrom checksum bytes left next).1, (readGroupsFrom checksum bytes left next).2) := by
  rcases hstart with rfl | ⟨hnone, hp, rfl⟩
  · exact ⟨fuel + 1, Nat.le_succ _, readGroupsFrom_group hread _⟩
  · refine ⟨fuel, le_rfl, ?_⟩
    rw [readGroupsFrom_padded hnone hp (by rw [hread]; rfl), readGroupsFrom_group hread]

theorem placesFrom_stops (h : Stops checksum bytes p) (fuel : Nat) :
    placesFrom checksum bytes (fuel + 1) p = [] := by
  rw [placesFrom, h.1]
  refine if_neg ?_
  rintro ⟨hp, hnext⟩
  rw [h.2 hp] at hnext
  cases hnext

theorem lays_placesFrom (fuel p : Nat) (hfuel : 2 * (bytes.length - p) < fuel) :
    (placesFrom checksum bytes fuel p).map LaidGroup.rows = (readGroupsFrom checksum bytes fuel p).1 ∧
      Lays checksum bytes p (placesFrom checksum bytes fuel p) (readGroupsFrom checksum bytes fuel p).2 := by
  induction fuel using Nat.strong_induction_on generalizing p with
  | _ fuel ih =>
    by_cases hstop : Stops checksum bytes p
    · obtain ⟨fuel, rfl⟩ : ∃ n, fuel = n + 1 := ⟨fuel - 1, by omega⟩
      rw [readGroupsFrom_stops hstop, placesFrom_stops hstop]
      exact ⟨rfl, .done p⟩
    · obtain ⟨start, rows, next, hstart, hread⟩ := exists_group_of_not_stops hstop
      have hpads : start = p ∨ IsPadding bytes p ∧ start = nextMultiple p := hstart.imp_right (·.2)
      have hle := Lays.start_le hpads
      have hbounds := readGroup_bounds hread
      simp only [groupHead, groupTail] at hbounds
      rcases hstart with rfl | ⟨hnone, hp, rfl⟩
      · obtain ⟨fuel, rfl⟩ : ∃ n, fuel = n + 1 := ⟨fuel - 1, by omega⟩
        obtain ⟨hrows, hrest⟩ := ih fuel (by omega) next (by omega)
        rw [readGroupsFrom_group hread, placesFrom_group hread, map_cons, hrows]
        exact ⟨rfl, .group (.inl rfl) hread hrest⟩
      · obtain ⟨fuel, rfl⟩ : ∃ n, fuel = n + 2 := ⟨fuel - 2, by omega⟩
        obtain ⟨hrows, hrest⟩ := ih fuel (by omega) next (by omega)
        have hnext : (readGroup checksum bytes (nextMultiple p)).isSome = true := by rw [hread]; rfl
        rw [readGroupsFrom_padded hnone hp hnext, readGroupsFrom_group hread, placesFrom_padded hnone hp hnext,
          placesFrom_group hread, map_cons, hrows]
        exact ⟨rfl, .group (.inr ⟨hp, rfl⟩) hread hrest⟩

theorem lays_places (checksum : Str → UInt32) (bytes : Str) :
    (places checksum bytes).map LaidGroup.rows = (readGroups checksum bytes).1 ∧
      Lays checksum bytes 0 (places checksum bytes) (readGroups checksum bytes).2 := lays_placesFrom _ 0 (by omega)

/-- A layout is read whole, and the read goes on from its end, where no group checks that starts in padding
the layout skips. -/
theorem Lays.readGroupsFrom_eq {front : List LaidGroup} (h : Lays checksum bytes p groups q)
    (hfront : ∀ g ∈ front, g.start < p) (hp : p = 0 ∨ ∃ g ∈ front, g.next = p)
    (hskip : ∀ r < q, (r = 0 ∨ ∃ g ∈ front ++ groups, g.next = r) → (∀ g ∈ front ++ groups, g.start ≠ r) →
      IsPadding bytes r → readGroup checksum bytes r = none) {fuel : Nat} (hfuel : 2 * (q - p) ≤ fuel) :
    ∃ left, fuel ≤ left + 2 * (q - p) ∧ readGroupsFrom checksum bytes fuel p =
      (groups.map LaidGroup.rows ++ (readGroupsFrom checksum bytes left q).1,
        (readGroupsFrom checksum bytes left q).2) := by
  induction h generalizing fuel front with
  | done p => exact ⟨fuel, by omega, rfl⟩
  | @group p q g groups hstart hread hrest ih =>
    have hle := Lays.start_le hstart
    have hnext := hrest.le
    have hbounds := readGroup_bounds hread
    simp only [groupHead, groupTail] at hbounds
    obtain ⟨fuel, rfl⟩ : ∃ n, fuel = n + 2 := ⟨fuel - 2, by omega⟩
    -- no group is placed where the layout skips padding
    have hround : g.start = p ∨
        readGroup checksum bytes p = none ∧ IsPadding bytes p ∧ g.start = nextMultiple p := by
      refine hstart.imp_right fun hpad => ⟨hskip p (by omega) ?_ (fun g' hg' => ?_) hpad.1, hpad⟩
      · rcases hp with rfl | ⟨g', hg', heq⟩
        · exact .inl rfl
        · exact .inr ⟨g', mem_append_left _ hg', heq⟩
      · have hlt := hpad.1.1
        rcases mem_append.mp hg' with hg' | hg'
        · exact (hfront g' hg').ne
        · rcases mem_cons.mp hg' with rfl | hg'
          · omega
          · have := (hrest.span hg').1
            omega
    obtain ⟨left, hleft, heq⟩ := readGroupsFrom_round hround hread fuel
    have hagain : 2 * (q - g.next) ≤ left := by omega
    have hbefore : ∀ g' ∈ front ++ [g], g'.start < g.next := by
      intro g' hg'
      rcases mem_append.mp hg' with hg' | hg'
      · have := hfront g' hg'
        omega
      · obtain rfl := mem_singleton.mp hg'
        omega
    obtain ⟨last, hlast, hend⟩ := ih hbefore (.inr ⟨g, by simp, rfl⟩) (by simpa using hskip) hagain
    refine ⟨last, by omega, ?_⟩
    rw [heq, hend]
    rfl

theorem Lays.readGroups_eq_iff (h : Lays checksum bytes 0 groups q)
    (hskip : ∀ r < q, (r = 0 ∨ ∃ g ∈ groups, g.next = r) → (∀ g ∈ groups, g.start ≠ r) →
      IsPadding bytes r → readGroup checksum bytes r = none) :
    (readGroups checksum bytes).1 = groups.map LaidGroup.rows ↔ Stops checksum bytes q := by
  have hq := h.le_length (Nat.zero_le _)
  have hfuel : 2 * (q - 0) ≤ 2 * bytes.length + 1 := by omega
  have hnone : ∀ g ∈ ([] : List LaidGroup), g.start < 0 := by simp
  obtain ⟨left, hleft, heq⟩ := h.readGroupsFrom_eq hnone (.inl rfl) hskip hfuel
  rw [readGroups, heq]
  constructor
  · intro hnil
    by_contra hstop
    obtain ⟨start, rows, next, hstart, hread⟩ := exists_group_of_not_stops hstop
    have hle := Lays.start_le (hstart.imp_right (·.2))
    have hbounds := readGroup_bounds hread
    simp only [groupHead, groupTail] at hbounds
    obtain ⟨fuel, rfl⟩ : ∃ n, left = n + 2 := ⟨left - 2, by omega⟩
    obtain ⟨_, _, hround⟩ := readGroupsFrom_round hstart hread fuel
    rw [hround] at hnil
    simp at hnil
  · intro hstop
    obtain ⟨fuel, rfl⟩ : ∃ n, left = n + 1 := ⟨left - 1, by omega⟩
    rw [readGroupsFrom_stops hstop, append_nil]

theorem placeGroups_rows (checksum : Str → UInt32) (p : Nat) (groups : List (List JournalRow)) :
    (placeGroups checksum p groups).map LaidGroup.rows = groups := by
  induction groups generalizing p with
  | nil => rfl
  | cons rows groups ih => rw [placeGroups, map_cons, ih]

theorem lays_pushGroups (groups : List (List JournalRow)) (h : ∀ rows ∈ groups, GroupFits rows)
    (front rest : Str) :
    Lays checksum (front ++ groups.flatMap (pushGroup checksum) ++ rest) front.length
      (placeGroups checksum front.length groups) (front.length + (groups.flatMap (pushGroup checksum)).length) := by
  induction groups generalizing front with
  | nil => exact .done _
  | cons rows groups ih =>
    have hgroup := readGroup_pushGroup checksum front (groups.flatMap (pushGroup checksum) ++ rest) (h rows (by simp))
    have hrest := ih (fun r hr => h r (by simp [hr])) (front ++ pushGroup checksum rows)
    have hshape : front ++ (rows :: groups).flatMap (pushGroup checksum) ++ rest =
        front ++ pushGroup checksum rows ++ (groups.flatMap (pushGroup checksum) ++ rest) := by simp
    rw [length_append, append_assoc (front ++ pushGroup checksum rows), Nat.add_assoc] at hrest
    rw [hshape, flatMap_cons, length_append]
    exact .group (.inl rfl) hgroup hrest

theorem start_mem_placeGroups {r : Nat} (groups : List (List JournalRow))
    (hr : r = p ∨ ∃ g ∈ placeGroups checksum p groups, g.next = r)
    (hlt : r < p + (groups.flatMap (pushGroup checksum)).length) :
    ∃ g ∈ placeGroups checksum p groups, g.start = r := by
  induction groups generalizing p with
  | nil => simp [placeGroups] at hr hlt; omega
  | cons rows groups ih =>
    rw [flatMap_cons, length_append, ← Nat.add_assoc] at hlt
    rcases hr with rfl | ⟨g, hg, hnext⟩
    · exact ⟨_, mem_cons_self, rfl⟩
    · rcases mem_cons.mp hg with rfl | hg
      · obtain ⟨g, hg, hstart⟩ := ih (.inl hnext.symm) hlt
        exact ⟨g, mem_cons_of_mem _ hg, hstart⟩
      · obtain ⟨g, hg, hstart⟩ := ih (.inr ⟨g, hg, hnext⟩) hlt
        exact ⟨g, mem_cons_of_mem _ hg, hstart⟩

theorem readGroups_pushGroups (checksum : Str → UInt32) (groups : List (List JournalRow))
    (h : ∀ rows ∈ groups, GroupFits rows) (zeros : Nat) :
    (readGroups checksum (groups.flatMap (pushGroup checksum) ++ replicate zeros 0)).1 = groups := by
  have hlays := @lays_pushGroups checksum groups h [] (replicate zeros 0)
  rw [nil_append, length_nil, Nat.zero_add] at hlays
  refine ((hlays.readGroups_eq_iff fun r hlt hr hfree _ => ?_).mpr
    ⟨readGroup_zeros _ _ _ le_rfl, fun _ => readGroup_zeros _ _ _ (le_nextMultiple _)⟩).trans
      (placeGroups_rows checksum 0 groups)
  obtain ⟨g, hg, hstart⟩ := start_mem_placeGroups groups hr (by omega)
  exact absurd hstart (hfree g hg)

theorem slice_drop (bytes : Str) (p : Nat) {n : Nat} (hn : 0 < n) :
    slice bytes p n = slice (bytes.drop p) 0 n := by
  unfold slice
  simp only [length_drop, Nat.zero_add, drop_zero]
  by_cases h : p + n ≤ bytes.length
  · rw [if_pos h, if_pos (by omega)]
  · rw [if_neg h, if_neg (by omega)]

theorem readGroup_none_iff (bytes : Str) (p : Nat) :
    readGroup checksum bytes p = none ↔ readGroup checksum (bytes.drop p) 0 = none := by
  by_cases hp : p ≤ bytes.length
  · rw [readGroup_drop checksum hp, map_eq_none_iff]
  · have hhead : slice bytes p groupHead = none := if_neg (by omega)
    have hdrop : slice (bytes.drop p) 0 groupHead = none := by rw [← slice_drop bytes p (by decide), hhead]
    simp only [readGroup, hhead, hdrop, bind_eq_bind, bind_none]

section
variable (h : bytes.drop p = other.drop p)
include h

theorem readGroup_none_congr {m : Nat} (hm : p ≤ m) :
    readGroup checksum bytes m = none ↔ readGroup checksum other m = none := by
  obtain ⟨i, rfl⟩ := Nat.exists_eq_add_of_le hm
  rw [readGroup_none_iff, readGroup_none_iff other, ← drop_drop, ← drop_drop, h]

theorem IsPadding.congr (hp : IsPadding bytes p) :
    IsPadding other p := by
  obtain ⟨hlt, hzeros⟩ := hp
  refine ⟨hlt, ?_⟩
  rwa [slice_drop _ _ (by omega), ← h, ← slice_drop _ _ (by omega)]

theorem stops_congr :
    Stops checksum bytes p ↔ Stops checksum other p := by
  unfold Stops
  rw [readGroup_none_congr h le_rfl, readGroup_none_congr h (le_nextMultiple p)]
  exact and_congr_right fun _ => ⟨fun hs hp => hs (hp.congr h.symm), fun hs hp => hs (hp.congr h)⟩

end

theorem stops_of_dvd (hp : block ∣ p) :
    Stops checksum bytes p ↔ readGroup checksum bytes p = none := by
  refine ⟨fun h => h.1, fun h => ⟨h, fun hpad => ?_⟩⟩
  have := hpad.1
  rw [nextMultiple_of_dvd hp] at this
  exact absurd this (Nat.lt_irrefl _)

variable {rest : Str}

theorem slice_of_zeros {n k : Nat} (h : bytes.drop p = replicate n 0 ++ rest) (hk : 0 < k)
    (hn : k ≤ n) : slice bytes p k = some (replicate k 0) := by
  rw [slice_drop _ _ hk, h]
  unfold slice
  rw [if_pos (by rw [length_append, length_replicate]; omega), drop_zero,
    take_append_of_le_length (by simpa using hn), take_replicate, Nat.min_eq_left hn]

theorem readGroup_in_zeros {n i : Nat} (h : bytes.drop p = replicate n 0 ++ rest)
    (hi : i + 4 ≤ n) : readGroup checksum bytes (p + i) = none := by
  have hdrop : bytes.drop (p + i) = replicate (n - i) 0 ++ rest := by
    rw [← drop_drop, h, drop_append_of_le_length (by rw [length_replicate]; omega),
      drop_replicate]
  exact readGroup_of_zeros (slice_of_zeros hdrop (by decide) (by omega))
    fun b hb => eq_of_mem_replicate hb

theorem isPadding_of_zeros {n : Nat} (h : bytes.drop p = replicate n 0 ++ rest)
    (hlt : p < nextMultiple p) (hn : nextMultiple p ≤ p + n) : IsPadding bytes p := by
  refine ⟨hlt, ?_⟩
  rw [slice_of_zeros h (by omega) (by omega)]
  simp

/-- A layout is cut in two by a length: the groups that end within it, and those that end past it. -/
theorem Lays.cut (h : Lays checksum bytes p groups q) {k : Nat} (hp : p ≤ k) :
    ∃ front back m, groups = front ++ back ∧ Lays checksum bytes p front m ∧
      Lays checksum bytes m back q ∧ m ≤ k ∧ (∀ g ∈ front, g.next ≤ k) ∧ ∀ g ∈ back, k < g.next := by
  induction h with
  | done p => exact ⟨[], [], p, rfl, .done p, .done p, hp, by simp, by simp⟩
  | @group p q g groups hstart hread hrest ih =>
    by_cases hin : g.next ≤ k
    · obtain ⟨front, back, m, rfl, hfront, hback, hm, hkept, hlost⟩ := ih hin
      refine ⟨g :: front, back, m, rfl, .group hstart hread hfront, hback, hm, ?_, hlost⟩
      exact forall_mem_cons.mpr ⟨hin, hkept⟩
    · refine ⟨[], g :: groups, p, rfl, .done p, .group hstart hread hrest, hp, by simp, ?_⟩
      refine forall_mem_cons.mpr ⟨by omega, fun other hother => ?_⟩
      have := hrest.span hother
      omega

theorem readGroup_of_take {k : Nat} (h : readGroup checksum (bytes.take k) p = some (rows, next)) :
    readGroup checksum bytes p = some (rows, next) ∧ next ≤ k := by
  have hle := (readGroup_bounds h).2
  rw [length_take] at hle
  exact ⟨readGroup_agree h (by rw [take_take, Nat.min_eq_left (by omega)]), by omega⟩

theorem IsPadding.of_take {k : Nat} (h : IsPadding (bytes.take k) p) : IsPadding bytes p := by
  obtain ⟨zeros, hslice, -⟩ := (any_eq_true _ _).mp h.2
  have hle := le_of_slice hslice
  have hlt := h.1
  rw [length_take] at hle
  exact h.agree le_rfl (by rw [take_take, Nat.min_eq_left (by omega)])

/-- The sums tell a stray read: where a group ends less than four bytes before a block boundary, none
checks that starts at its end or at the boundary unless one was placed there. -/
def StraysDetected (checksum : Str → UInt32) (bytes : Str) (groups : List LaidGroup) : Prop :=
  ∀ g ∈ groups, nextMultiple g.next < g.next + 4 → ∀ r, r = g.next ∨ r = nextMultiple g.next →
    (∀ other ∈ groups, other.start ≠ r) → readGroup checksum bytes r = none

section
variable (h : StraysDetected checksum bytes groups) (hp : p = 0 ∨ ∃ g ∈ groups, g.next = p)
  (hpad : IsPadding bytes p)
include h hp hpad

theorem StraysDetected.none_near (hshort : nextMultiple p < p + 4)
    {r : Nat} (hr : r = p ∨ r = nextMultiple p) (hfree : ∀ g ∈ groups, g.start ≠ r) :
    readGroup checksum bytes r = none := by
  rcases hp with rfl | ⟨g, hg, rfl⟩
  · exact absurd hpad.1 (by decide)
  · exact h g hg hshort r hr hfree

theorem StraysDetected.none_at
    (hfree : ∀ g ∈ groups, g.start ≠ p) : readGroup checksum bytes p = none := by
  by_cases hshort : nextMultiple p < p + 4
  · exact h.none_near hp hpad hshort (.inl rfl) hfree
  · exact hpad.none_of_four (by omega)

end

/-- A cut ends the read where the last group wholly inside it ends. -/
theorem stops_take {m k : Nat} {front back : List LaidGroup} (hfront : Lays checksum bytes 0 front m)
    (hback : Lays checksum bytes m back q) (hlost : ∀ g ∈ back, k < g.next)
    (hend : ∀ r, q ≤ r → readGroup checksum bytes r = none)
    (hstray : StraysDetected checksum bytes (front ++ back)) : Stops checksum (bytes.take k) m := by
  have hlast : m = 0 ∨ ∃ g ∈ front ++ back, g.next = m := by
    rcases hfront.last with heq | ⟨g, hg, heq⟩
    · exact .inl heq.symm
    · exact .inr ⟨g, mem_append_left _ hg, heq⟩
  -- a read of the cut bytes is one of the whole bytes that ends inside the cut
  have hnone : ∀ r, (∀ g ∈ back, g.start = r → readGroup checksum bytes r = some (g.rows, g.next)) →
      ((∀ g ∈ back, g.start ≠ r) → readGroup checksum bytes r = none) →
      readGroup checksum (bytes.take k) r = none := by
    intro r hplaced hfree
    cases hfound : readGroup checksum (bytes.take k) r with
    | none => rfl
    | some x =>
      obtain ⟨hsome, hle⟩ := readGroup_of_take hfound
      by_cases hat : ∃ g ∈ back, g.start = r
      · obtain ⟨g, hg, heq⟩ := hat
        have hlt := hlost g hg
        rw [hplaced g hg heq, Option.some.injEq, Prod.mk.injEq] at hsome
        omega
      · rw [hfree fun g hg heq => hat ⟨g, hg, heq⟩] at hsome
        cases hsome
  have hread : ∀ r, ∀ g ∈ back, g.start = r → readGroup checksum bytes r = some (g.rows, g.next) := by
    rintro r g hg rfl
    exact hback.read hg
  have hbefore : ∀ g ∈ front, g.start < m := fun g hg => by
    have := hfront.span hg
    omega
  refine ⟨hnone m (hread m) fun hfree => ?_, fun hpad => hnone _ (hread _) fun hfree => ?_⟩
  · cases hback with
    | done => exact hend _ le_rfl
    | @group _ _ g groups hstart _ _ =>
      rcases hstart with hs | ⟨hpad, -⟩
      · exact absurd hs (hfree g (by simp))
      · refine hstray.none_at hlast hpad fun other ho => ?_
        rcases mem_append.mp ho with ho | ho
        · exact (hbefore other ho).ne
        · exact hfree other ho
  · have hpad := hpad.of_take
    have hlt := hpad.1
    cases hback with
    | done => exact hend _ hlt.le
    | @group _ _ g groups hstart hsome _ =>
      rcases hstart with rfl | ⟨-, hs⟩
      · -- the count a group opens with is not four zeros
        have hshort : nextMultiple g.start < g.start + 4 := by
          by_contra hfar
          rw [hpad.none_of_four (by omega)] at hsome
          cases hsome
        refine hstray.none_near hlast hpad hshort (.inr rfl) fun other ho => ?_
        rcases mem_append.mp ho with ho | ho
        · have := hbefore other ho
          omega
        · exact hfree other ho
      · exact absurd hs (hfree g (by simp))

theorem Lays.readGroups_take (h : Lays checksum bytes 0 groups q)
    (hend : ∀ r, q ≤ r → readGroup checksum bytes r = none)
    (hstray : StraysDetected checksum bytes groups) (k : Nat) :
    (readGroups checksum (bytes.take k)).1 = (groups.filter (·.next ≤ k)).map LaidGroup.rows := by
  obtain ⟨front, back, m, rfl, hfront, hback, hm, hkept, hlost⟩ := h.cut (Nat.zero_le k)
  have hfilter : (front ++ back).filter (·.next ≤ k) = front := by
    rw [filter_append, filter_eq_self.mpr (by simpa using hkept),
      filter_eq_nil_iff.mpr (by simpa using hlost), append_nil]
  have hcut : Lays checksum (bytes.take k) 0 front m :=
    hfront.agree (by rw [take_take, Nat.min_eq_left hm])
  rw [hfilter]
  refine (hcut.readGroups_eq_iff fun r hr hplaced hfree hpad => ?_).mpr
    (stops_take hfront hback hlost hend hstray)
  have hnone : readGroup checksum bytes r = none := by
    refine hstray.none_at ?_ hpad.of_take fun g hg => ?_
    · rcases hplaced with rfl | ⟨g, hg, heq⟩
      · exact .inl rfl
      · exact .inr ⟨g, mem_append_left _ hg, heq⟩
    · rcases mem_append.mp hg with hg | hg
      · exact hfree g hg
      · have := hback.span hg
        omega
  cases hfound : readGroup checksum (bytes.take k) r with
  | none => rfl
  | some x =>
    rw [(readGroup_of_take hfound).1] at hnone
    cases hnone

/-- The zeros behind bytes of a length, up to the next block boundary where a write pads. -/
def padding (padded : Bool) (len : Nat) : Nat := if padded then nextMultiple len - len else 0

def padOut (padded : Bool) (out : Str) : Str := out ++ replicate (padding padded out.length) 0

/-- Groups written behind bytes, each with whether it is padded. -/
def writeGroups (checksum : Str → UInt32) : Str → List (List JournalRow × Bool) → Str
  | out, [] => out
  | out, (rows, padded) :: rest =>
    writeGroups checksum (padOut padded (out ++ pushGroup checksum rows)) rest

def layGroups (checksum : Str → UInt32) : Nat → List (List JournalRow × Bool) → List LaidGroup
  | _, [] => []
  | p, (rows, padded) :: rest =>
    let next := p + (pushGroup checksum rows).length
    ⟨p, rows, next⟩ :: layGroups checksum (next + padding padded next) rest

theorem layGroups_rows (checksum : Str → UInt32) (p : Nat) (groups : List (List JournalRow × Bool)) :
    (layGroups checksum p groups).map LaidGroup.rows = groups.map Prod.fst := by
  induction groups generalizing p with
  | nil => rfl
  | cons group groups ih => rw [layGroups, map_cons, map_cons, ih]

theorem prefix_writeGroups (checksum : Str → UInt32) (out : Str) (groups : List (List JournalRow × Bool)) :
    out <+: writeGroups checksum out groups := by
  induction groups generalizing out with
  | nil => exact prefix_rfl
  | cons group groups ih =>
    have hgroup : out <+: padOut group.2 (out ++ pushGroup checksum group.1) :=
      (prefix_append _ _).trans (prefix_append _ _)
    exact hgroup.trans (ih _)

theorem padOut_start {bytes : Str} (padded : Bool) (front : Str) (h : padOut padded front <+: bytes) :
    (padOut padded front).length = front.length ∨
      IsPadding bytes front.length ∧ (padOut padded front).length = nextMultiple front.length := by
  obtain ⟨rest, rfl⟩ := h
  have hlen : (padOut padded front).length = front.length + padding padded front.length := by
    rw [padOut, length_append, length_replicate]
  have hle := le_nextMultiple front.length
  rcases Nat.eq_zero_or_pos (padding padded front.length) with hzero | hpos
  · exact .inl (by omega)
  · have hnext : front.length + padding padded front.length = nextMultiple front.length := by
      cases padded with
      | false => simp [padding] at hpos
      | true => exact Nat.add_sub_cancel' hle
    refine .inr ⟨?_, by omega⟩
    have hdrop : (padOut padded front ++ rest).drop front.length =
        replicate (padding padded front.length) 0 ++ rest := by
      rw [padOut, append_assoc, drop_left]
    exact isPadding_of_zeros hdrop (by omega) hnext.ge

theorem lays_writeGroups {groups : List (List JournalRow × Bool)} (h : ∀ group ∈ groups, GroupFits group.1)
    (front : Str) (padded : Bool) :
    ∃ last n, writeGroups checksum (padOut padded front) groups = last ++ replicate n 0 ∧
      Lays checksum (last ++ replicate n 0) front.length
        (layGroups checksum (padOut padded front).length groups) last.length := by
  induction groups generalizing front padded with
  | nil => exact ⟨front, _, rfl, .done _⟩
  | cons group groups ih =>
    obtain ⟨rows, again⟩ := group
    obtain ⟨last, n, heq, hrest⟩ := ih (fun group hg => h group (by simp [hg]))
      (padOut padded front ++ pushGroup checksum rows) again
    have hwhole : padOut padded front ++ pushGroup checksum rows <+: last ++ replicate n 0 :=
      heq ▸ (prefix_append _ _).trans (prefix_writeGroups checksum _ groups)
    have hstart := padOut_start padded front ((prefix_append _ _).trans hwhole)
    obtain ⟨rest, hbytes⟩ := hwhole
    have hread := readGroup_pushGroup checksum (padOut padded front) rest (h (rows, again) (by simp))
    rw [hbytes] at hread
    refine ⟨last, n, heq, .group hstart hread ?_⟩
    simpa only [padOut, length_append, length_replicate] using hrest

/-- The groups written read back whole, and from every cut exactly those that lie wholly inside it. The
sums are taken to tell a stray read. -/
theorem groups_read_back_from_cuts (checksum : Str → UInt32) (groups : List (List JournalRow × Bool))
    (hfits : ∀ group ∈ groups, GroupFits group.1)
    (hstray : StraysDetected checksum (writeGroups checksum [] groups) (layGroups checksum 0 groups)) :
    (readGroups checksum (writeGroups checksum [] groups)).1 = groups.map Prod.fst ∧
    ∀ k, (readGroups checksum ((writeGroups checksum [] groups).take k)).1 =
      ((layGroups checksum 0 groups).filter (·.next ≤ k)).map LaidGroup.rows := by
  obtain ⟨last, n, heq, hlays⟩ := lays_writeGroups hfits [] false
  have hcuts : ∀ k, (readGroups checksum ((writeGroups checksum [] groups).take k)).1 =
      ((layGroups checksum 0 groups).filter (·.next ≤ k)).map LaidGroup.rows := by
    change writeGroups checksum [] groups = _ at heq
    rw [heq] at hstray ⊢
    exact hlays.readGroups_take (fun r hr => readGroup_zeros checksum last n hr) hstray
  refine ⟨?_, hcuts⟩
  have hall := hcuts (writeGroups checksum [] groups).length
  rw [take_length, filter_eq_self.mpr, layGroups_rows] at hall
  · exact hall
  · intro g hg
    have hle := (hlays.span hg).2.2
    have hlen := congrArg List.length heq
    change (writeGroups checksum [] groups).length = _ at hlen
    rw [length_append] at hlen
    exact decide_eq_true (by omega)

end Lays

def samplePut (fin : Option KeyBytes) : JournalRow :=
  ⟨⟨0, ⟨[7], Nat.le_of_ble_eq_true rfl⟩⟩, 1, 4096, 300, Flags.data, fin⟩

theorem samplePut_fits : GroupFits [samplePut none] := by
  refine ⟨fun row hrow => ?_, by simp, by decide⟩
  obtain rfl := mem_singleton.mp hrow
  exact ⟨(by decide : Flags.data.Written), by simp [samplePut]⟩

/-- A padded group and one behind it, cut inside the second. -/
theorem groups_read_back_from_cuts_sample : (readGroups (fun _ => 0) ((writeGroups (fun _ => 0) []
    [([samplePut none], true), ([samplePut none], false)]).take 4100)).1 = [[samplePut none]] := by
  refine ((groups_read_back_from_cuts (fun _ => 0) [([samplePut none], true), ([samplePut none], false)]
    (by simpa using samplePut_fits) ?_).2 4100).trans (by decide +kernel)
  intro g hg hnear
  have hfar : ∀ g ∈ layGroups (fun _ => 0) 0 [([samplePut none], true), ([samplePut none], false)],
      ¬ nextMultiple g.next < g.next + 4 := by decide +kernel
  exact absurd hnear (hfar g hg)

/-- The end a data row carries is not written, so the row reads back without it. -/
theorem data_end_not_read_back : ∃ row : JournalRow, row.flags = Flags.data ∧ row.rangeEnd.isSome ∧
    ∀ checksum : Str → UInt32, (readGroups checksum (writeGroups checksum [] [([row], false)])).1 ≠ [[row]] := by
  refine ⟨samplePut (some ⟨[8], Nat.le_of_ble_eq_true rfl⟩), rfl, rfl, fun checksum => ?_⟩
  have hread := readGroups_pushGroups checksum [[samplePut none]] (by simpa using samplePut_fits) 0
  have hbytes : writeGroups checksum [] [([samplePut (some ⟨[8], Nat.le_of_ble_eq_true rfl⟩)], false)] =
      [[samplePut none]].flatMap (pushGroup checksum) ++ replicate 0 0 := rfl
  rw [hbytes, hread]
  exact (by decide : [[samplePut none]] ≠ [[samplePut (some ⟨[8], Nat.le_of_ble_eq_true rfl⟩)]])

end Reel
