import Reel.Library.SortedMap
import Reel.Library.StableSort

/-!
The key ranges of a column's sealed segments, held by segment and by key. A search by key walks the runs
back from the key and stops once no run before reaches it.
-/

set_option autoImplicit false

namespace Reel
open StableSort List

variable {K : Type} [LinearOrder K]

/-- One sealed segment's low and high key. -/
structure Span (K : Type) [LinearOrder K] where
  lowest : K
  highest : K
  ordered : lowest ≤ highest

structure Run (K : Type) [LinearOrder K] where
  segment : Nat
  span : Span K
  /-- Which run at or before this one reaches furthest. -/
  reach : Nat

def Run.pair (run : Run K) : Nat × Span K := (run.segment, run.span)

def fillReach (all : List (Nat × Span K)) : Nat → Nat → List (Nat × Span K) → List (Run K)
  | _, _, [] => []
  | index, furthest, e :: rest =>
    let mine := if index = 0 ∨ (all[furthest]?).any (fun held => held.2.highest < e.2.highest) then index else furthest
    ⟨e.1, e.2, mine⟩ :: fillReach all (index + 1) mine rest

def byLowest (bySegment : SortedMap Nat (Span K)) : List (Nat × Span K) :=
  sortByKey (fun e => e.2.lowest) bySegment.entries

def reindex (bySegment : SortedMap Nat (Span K)) : List (Run K) :=
  fillReach (byLowest bySegment) 0 0 (byLowest bySegment)

structure SealedRanges (K : Type) [LinearOrder K] where
  bySegment : SortedMap Nat (Span K)
  byKey : List (Run K)
  generation : Nat
  indexed : byKey = reindex bySegment

structure Candidates where
  inline : List Nat
  spilled : List Nat

def candidatesInline : Nat := 4

def newestFirst (segments : List Nat) : List Nat := sortByKey OrderDual.toDual segments

namespace Candidates

def push (c : Candidates) (segment : Nat) : Candidates :=
  if c.inline.length < candidatesInline then { c with inline := c.inline ++ [segment] }
  else { c with spilled := c.spilled ++ [segment] }

def iter (c : Candidates) : List Nat := c.inline ++ c.spilled

def newestFirst (c : Candidates) : Candidates :=
  let inline := Reel.newestFirst c.inline
  let spilled := Reel.newestFirst c.spilled
  if spilled.isEmpty then ⟨inline, spilled⟩
  else (Reel.newestFirst (inline ++ spilled)).foldl push ⟨[], []⟩

end Candidates

namespace SealedRanges

def new : SealedRanges K := ⟨.empty, reindex .empty, 0, rfl⟩

variable (s : SealedRanges K) (key : K)

def note (segment : Nat) (span : Span K) : SealedRanges K :=
  ⟨s.bySegment.put segment span, _, s.generation + 1, rfl⟩

def replace (spans : List (Nat × Span K)) : SealedRanges K :=
  ⟨spans.foldl (fun m e => m.put e.1 e.2) .empty, _, s.generation + 1, rfl⟩

def forget (segment : Nat) : SealedRanges K :=
  if (s.bySegment.get segment).isNone then s else ⟨s.bySegment.take segment, _, s.generation + 1, rfl⟩

def walkBack (byKey : List (Run K)) (key : K) : List (Run K) → List Nat
  | [] => []
  | run :: rest =>
    if (byKey[run.reach]?).any (fun far => far.span.highest < key) then []
    else if key ≤ run.span.highest then run.segment :: walkBack byKey key rest
    else walkBack byKey key rest

def covering : List Nat :=
  walkBack s.byKey key (s.byKey.takeWhile fun run => run.span.lowest ≤ key).reverse

def candidates : Candidates :=
  ((s.covering key).foldl Candidates.push ⟨[], []⟩).newestFirst

def overlaps (low : K) (high : Option K) : Bool :=
  s.bySegment.entries.any fun e => decide (low ≤ e.2.highest) && high.all fun high => e.2.lowest < high

inductive Change (K : Type) [LinearOrder K] where
  | note (segment : Nat) (span : Span K)
  | replace (spans : List (Nat × Span K))
  | forget (segment : Nat)

def change : Change K → SealedRanges K
  | .note segment span => s.note segment span
  | .replace spans => s.replace spans
  | .forget segment => s.forget segment

def run (changes : List (Change K)) : SealedRanges K := changes.foldl change new

def setHeld (held : Nat → Option (Span K)) (e : Nat × Span K) : Nat → Option (Span K) :=
  Function.update held e.1 (some e.2)

/-- The range each segment has after some changes: the last one noted and not forgotten. -/
def heldAfter (changes : List (Change K)) : Nat → Option (Span K) :=
  changes.foldl change' fun _ => none
where
  change' (held : Nat → Option (Span K)) : Change K → Nat → Option (Span K)
    | .note segment span => setHeld held (segment, span)
    | .replace spans => spans.foldl setHeld fun _ => none
    | .forget segment => Function.update held segment none

theorem get_put_eq (m : SortedMap Nat (Span K)) (segment : Nat) (span : Span K) :
    (m.put segment span).get = setHeld m.get (segment, span) := by
  funext other
  rw [SortedMap.get_put, setHeld, Function.update_apply]

theorem get_run (changes : List (Change K)) : (run changes).bySegment.get = heldAfter changes := by
  induction changes using reverseRecOn with
  | nil => rfl
  | append_singleton changes c ih =>
    simp only [run, heldAfter, foldl_append, foldl_cons, foldl_nil] at ih ⊢
    rw [← ih]
    cases c with
    | note segment span => exact get_put_eq _ _ _
    | replace spans =>
      have hgen : ∀ m : SortedMap Nat (Span K), (spans.foldl (fun m e => m.put e.1 e.2) m).get =
          spans.foldl setHeld m.get := by
        induction spans with
        | nil => exact fun _ => rfl
        | cons e spans ihs => exact fun m => by rw [foldl_cons, ihs, get_put_eq, foldl_cons]
      exact hgen .empty
    | forget segment =>
      funext other
      rw [change, forget, heldAfter.change', Function.update_apply]
      split_ifs with hnone hother hother
      · rw [hother, Option.isNone_iff_eq_none.mp hnone]
      · rfl
      · rw [SortedMap.get_take, if_pos hother]
      · rw [SortedMap.get_take, if_neg hother]

theorem fillReach_pairs (all rest : List (Nat × Span K)) (index furthest : Nat) :
    (fillReach all index furthest rest).map Run.pair = rest := by
  induction rest generalizing index furthest with
  | nil => rfl
  | cons e rest ih => simp [fillReach, ih, Run.pair]

/-- The run a reach names reaches at least as far as every run up to here. -/
def Furthest (all : List (Nat × Span K)) (reach index : Nat) : Prop :=
  ∃ far, all[reach]? = some far ∧ ∀ i ≤ index, ∀ e, all[i]? = some e → e.2.highest ≤ far.2.highest

theorem fillReach_furthest (all : List (Nat × Span K)) (rest : List (Nat × Span K)) (index furthest : Nat)
    (hrest : all.drop index = rest) (hbefore : index = 0 ∨ Furthest all furthest (index - 1)) {i : Nat}
    {found : Run K} (h : (fillReach all index furthest rest)[i]? = some found) :
    Furthest all found.reach (index + i) := by
  induction rest generalizing index furthest i with
  | nil => simp [fillReach] at h
  | cons e rest ih =>
    have hat : all[index]? = some e := by
      rw [← Nat.add_zero index, ← getElem?_drop, hrest]
      rfl
    have hdrop : all.drop (index + 1) = rest := by
      rw [← drop_drop, hrest]
      rfl
    set mine := if index = 0 ∨ (all[furthest]?).any (fun held => held.2.highest < e.2.highest) then index
      else furthest with hmine
    -- the longer of the furthest before and this run
    have hfar : Furthest all mine index := by
      by_cases hnew : index = 0 ∨ (all[furthest]?).any (fun held => held.2.highest < e.2.highest) = true
      · rw [hmine, if_pos hnew]
        refine ⟨e, hat, fun j hj e' he' => ?_⟩
        rcases Nat.lt_or_eq_of_le hj with hlt | rfl
        · rcases hnew with hzero | hnew
          · omega
          · obtain ⟨far, hfar, hall⟩ := hbefore.resolve_left (by omega)
            rw [hfar] at hnew
            have hlt' : far.2.highest < e.2.highest := by simpa using hnew
            exact (hall j (by omega) e' he').trans hlt'.le
        · rw [hat] at he'
          exact (Option.some.inj he') ▸ le_rfl
      · rw [hmine, if_neg hnew]
        rw [not_or] at hnew
        obtain ⟨far, hfar, hall⟩ := hbefore.resolve_left hnew.1
        have hle : e.2.highest ≤ far.2.highest := by simpa [hfar] using hnew.2
        refine ⟨far, hfar, fun j hj e' he' => ?_⟩
        rcases Nat.lt_or_eq_of_le hj with hlt | rfl
        · exact hall j (by omega) e' he'
        · rw [hat] at he'
          exact (Option.some.inj he') ▸ hle
    cases i with
    | zero =>
      simp only [fillReach, getElem?_cons_zero, Option.some.injEq] at h
      exact h ▸ hfar
    | succ i =>
      have hnext := ih (index + 1) mine hdrop (.inr hfar) (by simpa [fillReach] using h)
      rwa [Nat.add_right_comm] at hnext

theorem walkBack_eq {byKey : List (Run K)} {all : List (Nat × Span K)}
    (hpairs : byKey.map Run.pair = all)
    (hreach : ∀ i found, byKey[i]? = some found → Furthest all found.reach i) (key : K) (n : Nat) :
    walkBack byKey key (byKey.take n).reverse =
      ((byKey.take n).reverse.filter fun run => key ≤ run.span.highest).map Run.segment := by
  have hat : ∀ i, all[i]? = (byKey[i]?).map Run.pair := fun i => by
    rw [← hpairs, getElem?_map]
  induction n with
  | zero => rfl
  | succ n ih =>
    rw [take_add_one]
    cases hn : byKey[n]? with
    | none => simpa using ih
    | some found =>
      obtain ⟨far, hfar, hall⟩ := hreach n found hn
      obtain ⟨farRun, hfarRun, rfl⟩ := Option.map_eq_some_iff.mp ((hat _).symm.trans hfar)
      rw [Option.toList_some, reverse_append, reverse_singleton, singleton_append, walkBack, hfarRun]
      by_cases hpast : farRun.span.highest < key
      · -- nothing from here on down reaches the key
        have hnone : ∀ run ∈ found :: (byKey.take n).reverse, ¬ key ≤ run.span.highest := by
          intro run hrun
          have hle : run.span.highest ≤ farRun.span.highest := by
            rcases mem_cons.mp hrun with rfl | hrun
            · exact hall n le_rfl _ (by rw [hat, hn]; rfl)
            · obtain ⟨i, hi⟩ := mem_iff_getElem?.mp (mem_reverse.mp hrun)
              rw [getElem?_take] at hi
              split_ifs at hi with hlt
              exact hall i hlt.le _ (by rw [hat, hi]; rfl)
          exact not_le.mpr (hle.trans_lt hpast)
        rw [if_pos (by simpa using hpast), filter_eq_nil_iff.mpr (by simpa using hnone)]
        rfl
      · rw [if_neg (by simpa using hpast), ih, filter_cons]
        by_cases hin : key ≤ found.span.highest <;> simp [hin]

theorem byKey_pairs : s.byKey.map Run.pair = byLowest s.bySegment := by
  rw [s.indexed]
  exact fillReach_pairs _ _ _ _

/-- The walk stops early but leaves out no run that reaches the key. -/
theorem covering_eq :
    s.covering key = ((s.byKey.takeWhile fun run => run.span.lowest ≤ key).reverse.filter
      fun run => key ≤ run.span.highest).map Run.segment := by
  have htake : s.byKey.takeWhile (fun run => run.span.lowest ≤ key) =
      s.byKey.take (s.byKey.takeWhile fun run => run.span.lowest ≤ key).length :=
    prefix_iff_eq_take.mp ( takeWhile_prefix _)
  have hreach : ∀ i found, s.byKey[i]? = some found → Furthest (byLowest s.bySegment) found.reach i := by
    intro i found h
    rw [s.indexed] at h
    simpa using fillReach_furthest _ _ 0 0 rfl (.inl rfl) h
  rw [covering, htake, walkBack_eq s.byKey_pairs hreach, ← htake]

theorem nodup_covering : (s.covering key).Nodup := by
  have hall : (s.byKey.reverse.map Run.segment).Nodup := by
    have hfst : s.byKey.map Run.segment = (byLowest s.bySegment).map Prod.fst := by
      rw [← s.byKey_pairs, map_map]
      rfl
    rw [map_reverse, nodup_reverse, hfst, byLowest,
      ((perm_sortByKey _ _).map _).nodup_iff]
    exact pairwise_map.mpr (s.bySegment.sorted.imp ne_of_lt)
  rw [covering_eq]
  exact hall.sublist ((filter_sublist.trans (takeWhile_sublist _).reverse).map _)

theorem mem_covering (segment : Nat) :
    segment ∈ s.covering key ↔
      ∃ span, s.bySegment.get segment = some span ∧ span.lowest ≤ key ∧ key ≤ span.highest := by
  have hsorted : s.byKey.Pairwise fun a b => a.span.lowest ≤ b.span.lowest := by
    have h := sorted_sortByKey (fun e : Nat × Span K => e.2.lowest) s.bySegment.entries
    rw [← byLowest, ← s.byKey_pairs, pairwise_map] at h
    exact h
  -- the runs are sorted, so those up to the key are the ones that start at or below it
  have hmem : ∀ run, run ∈ s.byKey.takeWhile (fun run => run.span.lowest ≤ key) ↔
      run ∈ s.byKey ∧ run.span.lowest ≤ key := by
    intro run
    generalize s.byKey = runs at hsorted
    induction runs with
    | nil => simp
    | cons first rest ih =>
      obtain ⟨hfirst, hrest⟩ := pairwise_cons.mp hsorted
      rw [takeWhile_cons]
      by_cases hle : first.span.lowest ≤ key
      · rw [if_pos (by simpa using hle), mem_cons, mem_cons, ih hrest]
        constructor
        · rintro (rfl | ⟨hin, hk⟩)
          · exact ⟨.inl rfl, hle⟩
          · exact ⟨.inr hin, hk⟩
        · rintro ⟨rfl | hin, hk⟩
          · exact .inl rfl
          · exact .inr ⟨hin, hk⟩
      · rw [if_neg (by simpa using hle)]
        refine iff_of_false not_mem_nil ?_
        rintro ⟨hin, hk⟩
        rcases mem_cons.mp hin with rfl | hin
        · exact hle hk
        · exact hle ((hfirst run hin).trans hk)
  have hentry : ∀ span, (∃ run ∈ s.byKey, run.segment = segment ∧ run.span = span) ↔
      s.bySegment.get segment = some span := by
    intro span
    rw [← SortedMap.mem_entries, ← mem_sortByKey (fun e : Nat × Span K => e.2.lowest), ← byLowest, ← s.byKey_pairs,
      mem_map]
    simp only [Run.pair, Prod.mk.injEq]
  rw [covering_eq]
  simp only [mem_map, mem_filter, mem_reverse, hmem, decide_eq_true_eq, ← hentry]
  constructor
  · rintro ⟨run, ⟨⟨hin, hlow⟩, hhigh⟩, rfl⟩
    exact ⟨run.span, ⟨run, hin, rfl, rfl⟩, hlow, hhigh⟩
  · rintro ⟨_, ⟨run, hin, hsegment, rfl⟩, hlow, hhigh⟩
    exact ⟨run, ⟨⟨hin, hlow⟩, hhigh⟩, hsegment⟩

end SealedRanges

namespace Candidates

theorem iter_foldl_push (segments : List Nat) (c : Candidates)
    (h : c.inline.length < candidatesInline → c.spilled = []) : (segments.foldl push c).iter = c.iter ++ segments := by
  induction segments generalizing c with
  | nil => simp
  | cons segment segments ih =>
    rw [foldl_cons]
    by_cases hroom : c.inline.length < candidatesInline
    · rw [push, if_pos hroom, ih ⟨c.inline ++ [segment], c.spilled⟩ fun _ => h hroom]
      simp [iter, h hroom]
    · rw [push, if_neg hroom, ih ⟨c.inline, c.spilled ++ [segment]⟩ fun hr => absurd hr hroom]
      simp [iter]

theorem iter_newestFirst (c : Candidates) :
    c.newestFirst.iter.Perm c.iter ∧ c.newestFirst.iter.Pairwise (fun a b => b ≤ a) := by
  have hperm : ∀ l, (Reel.newestFirst l).Perm l := perm_sortByKey _
  have hsorted : ∀ l, (Reel.newestFirst l).Pairwise (fun a b => b ≤ a) :=
    sorted_sortByKey OrderDual.toDual
  rw [newestFirst]
  by_cases hempty : (Reel.newestFirst c.spilled).isEmpty = true
  · have hnil := List.isEmpty_iff.mp hempty
    have hspilled : c.spilled = [] := (hnil ▸ hperm c.spilled).symm.eq_nil
    rw [if_pos hempty, iter, iter, hnil, hspilled, append_nil, append_nil]
    exact ⟨hperm _, hsorted _⟩
  · rw [if_neg hempty, iter_foldl_push _ _ fun _ => rfl]
    exact ⟨(hperm _).trans ((hperm _).append (hperm _)), hsorted _⟩

end Candidates

namespace SealedRanges

/-- Sealed range search is exact, whatever was noted, replaced and forgotten. -/
theorem sealed_search_exact (changes : List (Change K)) :
    (∀ key, (∀ segment, segment ∈ ((run changes).candidates key).iter ↔
        ∃ span, heldAfter changes segment = some span ∧ span.lowest ≤ key ∧ key ≤ span.highest) ∧
      ((run changes).candidates key).iter.Pairwise (fun a b => b < a)) ∧
    ∀ low high, (∀ end_ ∈ high, low < end_) → ((run changes).overlaps low high = true ↔
      ∃ segment span key, heldAfter changes segment = some span ∧ span.lowest ≤ key ∧ key ≤ span.highest ∧
        low ≤ key ∧ ∀ end_ ∈ high, key < end_) := by
  have hget := get_run changes
  refine ⟨fun key => ?_, fun low high hrange => ?_⟩
  · obtain ⟨hperm, hsorted⟩ := Candidates.iter_newestFirst
      (((run changes).covering key).foldl Candidates.push ⟨[], []⟩)
    rw [Candidates.iter_foldl_push _ _ fun _ => rfl] at hperm
    refine ⟨fun segment => ?_, ?_⟩
    · rw [candidates, hperm.mem_iff, Candidates.iter, nil_append, nil_append, mem_covering, hget]
    · have hnodup := hperm.nodup_iff.mpr ((run changes).nodup_covering key)
      exact (hsorted.and hnodup).imp fun h => lt_of_le_of_ne h.1 h.2.symm
  · rw [overlaps, any_eq_true]
    constructor
    · rintro ⟨⟨segment, span⟩, hin, hmeets⟩
      rw [SortedMap.mem_entries, hget] at hin
      simp only [Bool.and_eq_true, decide_eq_true_eq, Option.all_eq_true] at hmeets
      refine ⟨segment, span, max low span.lowest, hin, le_max_right _ _, max_le hmeets.1 span.ordered,
        le_max_left _ _, fun end_ hend => max_lt (hrange end_ hend) (hmeets.2 end_ hend)⟩
    · rintro ⟨segment, span, key, hin, hlow, hhigh, hfrom, hto⟩
      refine ⟨(segment, span), SortedMap.mem_entries.mpr (by rw [hget, hin]), ?_⟩
      simp only [Bool.and_eq_true, decide_eq_true_eq, Option.all_eq_true]
      exact ⟨hfrom.trans hhigh, fun end_ hend => hlow.trans_lt (hto end_ hend)⟩

/-- An empty range inside a held one overlaps it, though no key lies in both. -/
theorem empty_range_overlaps :
    (run [.note 1 ⟨1, 9, by decide⟩] : SealedRanges Nat).overlaps 5 (some 5) = true ∧
      ¬ ∃ key : Nat, 1 ≤ key ∧ key ≤ 9 ∧ 5 ≤ key ∧ key < 5 := by
  refine ⟨by decide +kernel, ?_⟩
  rintro ⟨key, -, -, h5, hlt⟩
  omega

theorem sealed_search_exact_sample :
    ((run [.note 1 ⟨2, 9, by decide⟩, .note 2 ⟨4, 6, by decide⟩] : SealedRanges Nat).candidates 5).iter = [2, 1] ∧
      ((run [.note 1 ⟨2, 9, by decide⟩, .note 2 ⟨4, 6, by decide⟩] : SealedRanges Nat).overlaps 0 (some 2) = true ↔
        ∃ segment span key, heldAfter [.note 1 ⟨2, 9, by decide⟩, .note 2 ⟨4, 6, by decide⟩] segment = some span ∧
          span.lowest ≤ key ∧ key ≤ span.highest ∧ 0 ≤ key ∧ ∀ end_ ∈ some 2, key < end_) := by
  refine ⟨by decide +kernel, (sealed_search_exact _).2 0 (some 2) ?_⟩
  rintro _ ⟨⟩
  decide

end SealedRanges

end Reel
