import Reel.Format.FooterSort
import Reel.Library.Stretches

/-!
How a compaction reads the live records of a segment: rows in key order are cut into stripes by the bytes
they stage, and a stripe's rows, sorted by offset, are read in ranges that skip wide dead gaps.
-/

set_option autoImplicit false

namespace Reel.Stripes
open Stretches Footer List

def stripeStageBytes : Nat := 256 * 1024 * 1024
def readChunk : Nat := 2 ^ 20
def skipGap : Nat := 64 * 1024

/-- How many more rows a stripe takes. -/
def stageMore : Nat → List (Nat × Nat) → Nat
  | _, [] => 0
  | staged, row :: rest => if stripeStageBytes < staged + row.2 then 0 else stageMore (staged + row.2) rest + 1

structure ChunkRange where
  start : Nat
  len : Nat
  members : Nat × Nat
  deriving DecidableEq, Repr

def row (rows : List (Nat × Nat)) (position : Nat) : Nat × Nat := rows.getD position (0, 0)

section
variable (ends : Nat × Nat → Nat)

/-- How far a range reaches and how many more members it takes, by where each record ends. -/
def chunkMore (start : Nat) : Nat → List (Nat × Nat) → Nat × Nat
  | reach, [] => (reach, 0)
  | reach, member :: rest =>
    if readChunk < ends member - start ∨ min (reach + skipGap) (2 ^ 64 - 1) ≤ member.2 then (reach, 0)
    else
      let more := chunkMore start (max reach (ends member)) rest
      (more.1, more.2 + 1)

/-- The range that begins with a member. -/
def chunkAt (plan : List (Nat × Nat)) (begin : Nat) : ChunkRange :=
  let first := row plan begin
  let more := chunkMore ends first.2 (max first.2 (ends first)) (plan.drop (begin + 1))
  ⟨first.2, more.1 - first.2, begin, begin + 1 + more.2⟩

end

section
variable (order : List (Nat × Nat))

def stripeEnd (start : Nat) : Nat := start + 1 + stageMore (row order start).2 (order.drop (start + 1))

def stripes : List (Nat × Nat) := cuts (stripeEnd order) order.length order.length 0

/-- A stripe's rows with their offsets, sorted by offset. -/
def planOf (sorter : UnstableSort (Nat × Nat)) (stripe : Nat × Nat) : List (Nat × Nat) :=
  sorter.run (fun a b => a.2 ≤ b.2)
    ((range' stripe.1 (stripe.2 - stripe.1)).map fun position => (position, (row order position).1))

variable (prefixHint regionEnd : Nat)

def recordEnd (member : Nat × Nat) : Nat :=
  min ((member.2 + prefixHint + (row order member.1).2) % 2 ^ 64) regionEnd

def chunkRanges (plan : List (Nat × Nat)) : List ChunkRange :=
  let ends := recordEnd order prefixHint regionEnd
  (cuts (fun begin => (chunkAt ends plan begin).members.2) plan.length plan.length 0).map
    fun cut => chunkAt ends plan cut.1

end

variable {plan : List (Nat × Nat)}

theorem stageMore_le (staged : Nat) (rows : List (Nat × Nat)) : stageMore staged rows ≤ rows.length := by
  induction rows generalizing staged with
  | nil => rfl
  | cons row rest ih =>
    have := ih (staged + row.2)
    rw [stageMore]
    split <;> simp only [length_cons] <;> omega

theorem stripes_adjoin (order : List (Nat × Nat)) : Adjoin 0 (stripes order) order.length ∧
    ∀ stripe ∈ stripes order, stripe.1 < stripe.2 := by
  have hnext : ∀ start < order.length, start < stripeEnd order start ∧ stripeEnd order start ≤ order.length := by
    intro start hlt
    have := stageMore_le (row order start).2 (order.drop (start + 1))
    rw [length_drop] at this
    unfold stripeEnd
    omega
  obtain ⟨hadjoin, hcuts⟩ := adjoin_cuts hnext (Nat.zero_le _) (Nat.zero_add _).ge
  refine ⟨hadjoin, fun stripe hstripe => ?_⟩
  obtain ⟨hlt, hend⟩ := hcuts stripe hstripe
  exact hend ▸ (hnext stripe.1 hlt).1

theorem chunkMore_spec (ends : Nat × Nat → Nat) (start reach : Nat) (rest : List (Nat × Nat)) :
    (chunkMore ends start reach rest).2 ≤ rest.length ∧ reach ≤ (chunkMore ends start reach rest).1 ∧
      ∀ member ∈ rest.take (chunkMore ends start reach rest).2, ends member ≤ (chunkMore ends start reach rest).1 := by
  induction rest generalizing reach with
  | nil => simp [chunkMore]
  | cons member rest ih =>
    rw [chunkMore]
    split_ifs
    · simp
    · obtain ⟨hlen, hreach, hends⟩ := ih (max reach (ends member))
      exact ⟨by simpa using hlen, le_of_max_le_left hreach,
        forall_mem_cons.2 ⟨le_of_max_le_right hreach, hends⟩⟩

theorem chunkAt_spec (ends : Nat × Nat → Nat) (hsorted : plan.Pairwise (·.2 ≤ ·.2)) {begin : Nat}
    (hlt : begin < plan.length) {range : ChunkRange} (hrange : range = chunkAt ends plan begin) :
    range.members.1 < range.members.2 ∧ range.members.2 ≤ plan.length ∧
      ∀ member ∈ (plan.take range.members.2).drop range.members.1,
        range.start ≤ member.2 ∧ ends member ≤ range.start + range.len := by
  subst hrange
  have hrow : row plan begin = plan[begin] := by simp [row, hlt]
  obtain ⟨hlen, hreach, hends⟩ := chunkMore_spec ends (row plan begin).2
    (max (row plan begin).2 (ends (row plan begin))) (plan.drop (begin + 1))
  have hpast : (plan.drop begin).Pairwise (·.2 ≤ ·.2) := hsorted.drop
  rw [drop_eq_getElem_cons hlt, pairwise_cons] at hpast
  rw [length_drop] at hlen
  rw [max_le_iff] at hreach
  refine ⟨by simp only [chunkAt]; omega, by simp only [chunkAt]; omega, ?_⟩
  simp only [chunkAt, drop_take, Nat.add_assoc, Nat.add_sub_cancel_left, Nat.add_comm 1,
    drop_eq_getElem_cons hlt, take_succ_cons]
  refine forall_mem_cons.2 ⟨⟨hrow.symm ▸ le_rfl, ?_⟩, fun member hmember => ⟨?_, ?_⟩⟩
  · rw [← hrow]
    omega
  · rw [hrow]
    exact hpast.1 member (mem_of_mem_take hmember)
  · have := hends member hmember
    omega

theorem chunkRanges_adjoin (order : List (Nat × Nat)) (prefixHint regionEnd : Nat)
    (hsorted : plan.Pairwise (·.2 ≤ ·.2)) :
    Adjoin 0 ((chunkRanges order prefixHint regionEnd plan).map (·.members)) plan.length ∧
      ∀ range ∈ chunkRanges order prefixHint regionEnd plan, ∃ begin < plan.length,
        range = chunkAt (recordEnd order prefixHint regionEnd) plan begin := by
  obtain ⟨hadjoin, hcuts⟩ := adjoin_cuts (fun begin hlt => (chunkAt_spec (recordEnd order prefixHint regionEnd)
    hsorted hlt rfl).imp_right And.left) (Nat.zero_le _) (Nat.zero_add _).ge
  refine ⟨?_, fun range hrange => ?_⟩
  · rw [chunkRanges, map_map, map_congr_left (g := id), map_id]
    · exact hadjoin
    · exact fun cut hcut => Prod.ext rfl (hcuts cut hcut).2.symm
  · obtain ⟨cut, hcut, rfl⟩ := mem_map.1 hrange
    exact ⟨cut.1, (hcuts cut hcut).1, rfl⟩

theorem planOf_spec (order : List (Nat × Nat)) (sorter : UnstableSort (Nat × Nat)) {stripe : Nat × Nat}
    (hin : stripe.2 ≤ order.length) : (planOf order sorter stripe).Pairwise (·.2 ≤ ·.2) ∧
      ∀ member ∈ planOf order sorter stripe, (member.2, (row order member.1).2) ∈ order := by
  constructor
  · refine (sorter.sorted _ ?_ ?_ _).imp of_decide_eq_true
    · simpa using Nat.le_total
    · simpa using fun _ _ _ => Nat.le_trans
  · intro member hmember
    obtain ⟨position, hposition, rfl⟩ := mem_map.1 ((sorter.perm _ _).mem_iff.1 hmember)
    rw [mem_range'_1] at hposition
    have hlt : position < order.length := by omega
    simp [row, hlt]

/-- Stripes and their ranges leave out no row and take none twice, and a range holds its members' bytes. -/
theorem ranges_hold_rows (order : List (Nat × Nat)) (prefixHint regionEnd : Nat) (sorter : UnstableSort (Nat × Nat))
    (hfits : ∀ row ∈ order, row.1 + prefixHint + row.2 < 2 ^ 64) :
    Adjoin 0 (stripes order) order.length ∧ ∀ stripe ∈ stripes order, stripe.1 < stripe.2 ∧
      let plan := planOf order sorter stripe
      let ranges := chunkRanges order prefixHint regionEnd plan
      Adjoin 0 (ranges.map (·.members)) plan.length ∧ (ranges.map (·.start)).Pairwise (· ≤ ·) ∧
        ∀ range ∈ ranges, range.members.1 < range.members.2 ∧
          ∀ member ∈ (plan.take range.members.2).drop range.members.1, range.start ≤ member.2 ∧
            min (member.2 + prefixHint + (row order member.1).2) regionEnd ≤ range.start + range.len := by
  obtain ⟨hadjoin, hstripes⟩ := stripes_adjoin order
  refine ⟨hadjoin, fun stripe hstripe => ⟨hstripes stripe hstripe, ?_⟩⟩
  obtain ⟨hsorted, hplan⟩ := planOf_spec order sorter (hadjoin.spaced.1 stripe hstripe).2
  obtain ⟨hranges, hbegins⟩ := chunkRanges_adjoin order prefixHint regionEnd hsorted
  refine ⟨hranges, ?_, fun range hrange => ?_⟩
  · refine pairwise_map.2 ((pairwise_map.1 hranges.spaced.2.2).imp_of_mem fun {a b} ha hb hle => ?_)
    obtain ⟨i, hi, rfl⟩ := hbegins a ha
    obtain ⟨j, hj, rfl⟩ := hbegins b hb
    have hlt := (chunkAt_spec _ hsorted hi rfl).1.trans_le hle
    simpa [chunkAt, row, hi, hj] using pairwise_iff_getElem.1 hsorted i j hi hj hlt
  · obtain ⟨begin, hlt, heq⟩ := hbegins range hrange
    obtain ⟨hsome, -, hholds⟩ := chunkAt_spec _ hsorted hlt heq
    refine ⟨hsome, fun member hmember => ?_⟩
    have hfit := hfits _ (hplan member (mem_of_mem_take (mem_of_mem_drop hmember)))
    have := hholds member hmember
    rwa [recordEnd, Nat.mod_eq_of_lt hfit] at this

theorem ranges_hold_two_rows : Adjoin 0 (stripes [(70, 5), (0, 5)]) 2 ∧
    ∀ stripe ∈ stripes [(70, 5), (0, 5)], stripe.1 < stripe.2 :=
  have h := ranges_hold_rows [(70, 5), (0, 5)] 21 100 insertionSorter (by decide)
  ⟨h.1, fun stripe hstripe => (h.2 stripe hstripe).1⟩

/-- An end past the largest offset wraps, and its range is cut short. -/
theorem wrapped_end_cuts_range : ∃ range ∈ chunkRanges [(0, 5)] (2 ^ 64 - 1) 100 [(0, 0)],
    range.members = (0, 1) ∧ range.start + range.len < min (0 + (2 ^ 64 - 1) + 5) 100 := by
  decide

end Reel.Stripes
