import Reel.Index.Drawn

/-!
The store's range delete over a column: both bounds are brought to the column's key width before
the tombstone is written, and what that takes of the half-open byte range the caller named.
-/

set_option autoImplicit false

namespace Reel
open Bytes List

inductive StoreError where
  | database (message : String)
  deriving DecidableEq, Repr

def ReelError.text : ReelError → String
  | .rejected message => "reel rejected the operation: " ++ message
  | .corruption message => "reel corruption: " ++ message

def boundBytes : KeyWidth → Str → Str
  | .fixed width, bound =>
    let take := min bound.length width
    bound.take take ++ (replicate width 0).drop take
  | .varying, bound => bound

def boundKey (width : KeyWidth) (bound : Str) : Except StoreError KeyBytes :=
  (KeyBytes.new (boundBytes width bound)).mapError fun error => .database error.text

theorem boundBytes_eq (width : KeyWidth) (bound : Str) : boundBytes width bound = width.lowBound bound := by
  cases width with
  | varying => rfl
  | fixed width =>
    have hrest : width - min bound.length width = width - bound.length := by omega
    simp only [boundBytes, KeyWidth.lowBound, padTo, drop_replicate, hrest]
    rw [take_eq_take_min (i := width), Nat.min_comm]

theorem boundKey_bytes {width : KeyWidth} {bound : Str} {key : KeyBytes}
    (h : boundKey width bound = .ok key) : key.bytes = width.lowBound bound := by
  unfold boundKey KeyBytes.new at h
  split at h
  · cases h
    exact boundBytes_eq width bound
  · cases h

def CutTo : KeyWidth → Str → Str → Prop
  | .fixed width, bound, key => width < bound.length ∧ key = bound.take width
  | .varying, _, _ => False

instance : (width : KeyWidth) → (bound key : Str) → Decidable (CutTo width bound key)
  | .fixed width, bound, key => inferInstanceAs (Decidable (width < bound.length ∧ key = bound.take width))
  | .varying, _, _ => inferInstanceAs (Decidable False)

theorem lowBound_le_iff {width : KeyWidth} {key : Str} (hkey : width.accepts key = true) (bound : Str) :
    width.lowBound bound ≤ key ↔ bound ≤ key ∨ CutTo width bound key := by
  cases width with
  | varying => simp [KeyWidth.lowBound, CutTo]
  | fixed width => exact padTo_le_iff (by simpa [KeyWidth.accepts] using hkey)

theorem CutTo.lt {width : KeyWidth} {bound key : Str} (h : CutTo width bound key) : key < bound := by
  cases width with
  | varying => exact h.elim
  | fixed width =>
    obtain ⟨hlen, rfl⟩ := h
    exact take_lt hlen

namespace Volume
variable {hash : Str → UInt64} {v v' : Volume}

/-- Drop a half-open key range with one tombstone covering the whole of it. The write lands in
`tail` at `offset`, or nothing where those cannot take it. -/
def storeDeleteRange (v : Volume) (hash : Str → UInt64) (tail : Nat) (start fin : Str) (offset : Nat) :
    Except StoreError (Option Volume) := do
  let start ← boundKey v.index.width start
  let fin := boundBytes v.index.width fin
  return v.step hash (.deleteRange tail start.bytes (some fin) offset)

/-- A range tombstone answers for no single key, so no record read changes. -/
theorem headIn_land {landed : Volume} {tail : Nat} {row : Row} (h : v.land tail row = some landed)
    (hkind : row.kind = .rangeTombstone) : headIn landed.segments = headIn v.segments := by
  unfold land at h
  split at h
  · cases h
  · rename_i open_ hopen
    split at h
    · cases h
    · rename_i hfree
      cases h
      funext key segment offset
      have hid : ∀ held : Segment,
          (if held.id = tail then Segment.push held row else held).id = held.id := by
        intro held
        split <;> rfl
      simp only [headIn, segments, find?_append, find?_map, Function.comp_def, hid]
      cases hfind : v.tails.find? (·.id == segment) with
      | none => rfl
      | some held =>
        simp only [Option.map_some, Option.some_or]
        by_cases htail : held.id = tail
        · have hseg : held.id = segment := by simpa using find?_some hfind
          obtain rfl : held = open_ := by
            rw [← hseg, htail, hopen] at hfind
            exact (Option.some.inj hfind).symm
          simp only [if_pos htail, Segment.push, find?_append]
          cases hrow : held.rows.find? (·.offset == offset) with
          | some other => rfl
          | none =>
            cases hoff : row.offset == offset <;> simp [hoff, hkind]
        · rw [if_neg htail]

theorem recordsOf_congr {segments segments' : List Segment} (h : headIn segments' = headIn segments)
    (cache : Cache) : recordsOf segments' cache = recordsOf segments cache := by
  simp only [recordsOf, h]

def rangeCover (width : KeyWidth) (start : Str) (fin : Option Str) (lsn : Nat) : Covered Str :=
  ⟨width.lowBound start, fin.map width.lowBound, lsn, .release (width.lowBound start)⟩

theorem Drawn.isCoveredKey_removeRange (h : v.Drawn) (start : Str) (fin : Option Str) (key : Str)
    (lsn : Nat) :
    (v.index.removeRange start fin v.next).isCoveredKey key lsn =
      (v.index.isCoveredKey key lsn ||
        v.index.width.accepts key && (rangeCover v.index.width start fin v.next).covers key lsn) := by
  have hfresh : (v.index.covers.any (·.lsn == v.next)) = false := by
    rw [any_eq_false]
    intro cover hc he
    have := h.covers cover hc
    have : cover.lsn = v.next := by simpa using he
    omega
  simp only [ColumnIndex.isCoveredKey, ColumnIndex.removeRange, pushCover, hfresh, isCovered,
    Bool.false_eq_true, if_false, any_append, any_cons, any_nil, Bool.or_false,
    Bool.and_or_distrib_left, rangeCover]

theorem get_filter {key : Str} {covered : Nat → Bool}
    (hword : v'.index.entryOrGrave key = v.index.entryOrGrave key)
    (hnewest : v'.newestLive hash key = v.newestLive hash key)
    (hcovered : ∀ lsn, v'.index.isCoveredKey key lsn = (v.index.isCoveredKey key lsn || covered lsn)) :
    v'.get hash key = (v.get hash key).filter fun entry => !covered entry.lsn := by
  simp only [Volume.get, mapped, hword, hcovered, hnewest, liveOnly]
  cases v.index.entryOrGrave key with
  | some entry =>
    simp only [Option.map_some]
    cases entry.isGrave <;> cases v.index.isCoveredKey key entry.lsn <;>
      simp [Option.filter_some, ← Bool.not_eq_true]
  | none =>
    simp only [Option.map_none, Option.filter_filter]
    congr 1
    funext entry
    cases entry.isGrave <;> simp [Bool.and_comm]

theorem Drawn.get_deleteRange (h : v.Drawn) {tail offset : Nat} {start : Str} {fin : Option Str}
    (hne : ¬ fin.any (· ≤ start))
    (hstep : v.step hash (.deleteRange tail start fin offset) = some v') {key : Str}
    (hkey : v.index.width.accepts key = true) :
    v'.get hash key = (v.get hash key).filter fun entry =>
      !(rangeCover v.index.width start fin v.next).covers key entry.lsn := by
  simp only [Volume.step, if_neg hne] at hstep
  obtain ⟨landed, hl, rfl⟩ := Option.map_eq_some_iff.mp hstep
  obtain ⟨held, hheld, rfl⟩ := Option.map_eq_some_iff.mp hl
  have hrest := (land_back hheld).1
  have hindex : held.index = v.index := by rw [← hrest]
  have hspot : held.spot = v.spot := by rw [← hrest]
  have hnoted : held.noted = v.noted := by rw [← hrest]
  have hrecords := recordsOf_congr (headIn_land hheld rfl) .warm
  have hmax : held.maxLsnOf = v.maxLsnOf := by
    funext id
    simp only [maxLsnOf, hnoted]
  refine get_filter ?_ ?_ fun lsn => ?_
  · simp only [hindex]
    rfl
  · have hsame : held.newestLive hash key = v.newestLive hash key := by
      simp only [newestLive, sources, hrecords, hmax, hspot, hnoted]
    exact hsame
  · have hmore := h.isCoveredKey_removeRange start fin key lsn
    rw [hkey, Bool.true_and] at hmore
    simpa only [hindex] using hmore

/-- A live key is gone after a range delete where it lies between the bounds brought to the
column's width. -/
theorem Drawn.gone_iff (h : v.Drawn) {tail offset : Nat} {start fin key : Str}
    (hok : v.storeDeleteRange hash tail start fin offset = .ok (some v'))
    (hkey : v.index.width.accepts key = true) (hlive : v.get hash key ≠ none) :
    v'.get hash key = none ↔ v.index.width.lowBound start ≤ key ∧ key < v.index.width.lowBound fin := by
  unfold storeDeleteRange at hok
  cases hstart : boundKey v.index.width start with
  | error error =>
    rw [hstart] at hok
    cases hok
  | ok low =>
    rw [hstart] at hok
    have hstep : v.step hash (.deleteRange tail low.bytes (some (boundBytes v.index.width fin)) offset) =
        some v' := Except.ok.inj hok
    rw [boundKey_bytes hstart, boundBytes_eq] at hstep
    have hlow : ∀ bound, v.index.width.lowBound (v.index.width.lowBound bound) =
        v.index.width.lowBound bound := fun bound => v.index.width.lowBound_lowBound bound
    by_cases hne : (some (v.index.width.lowBound fin)).any (· ≤ v.index.width.lowBound start)
    · -- an empty range is skipped, and no key lies in it
      simp only [Volume.step, if_pos hne] at hstep
      cases hstep
      have hempty : v.index.width.lowBound fin ≤ v.index.width.lowBound start := by simpa using hne
      refine iff_of_false hlive fun hin => ?_
      exact absurd (hin.1.trans_lt hin.2) (not_lt.mpr hempty)
    · rw [h.get_deleteRange hne hstep hkey]
      obtain ⟨entry, hentry⟩ := Option.ne_none_iff_exists'.mp hlive
      have hlt := h.get_lt hentry
      have hcovers := Covered.covers_iff (rangeCover v.index.width (v.index.width.lowBound start)
        (some (v.index.width.lowBound fin)) v.next) key entry.lsn
      simp only [rangeCover, hlow, Option.map_some, Option.mem_some_iff, forall_eq', hlt, true_and]
        at hcovers
      rw [hentry, ← hcovers]
      simp [rangeCover, hlow]

/-- After every run, the store's range delete takes a live key of the column exactly where it lies in
the half-open range, unless the key is what a bound wider than the column's keys was cut to: the cut
start takes it although it lies below, and the cut end leaves it although it lies inside. -/
theorem storeDeleteRange_takes_iff (hash : Str → UInt64) (width : KeyWidth) (next : Nat)
    (steps : List Step) (v v' : Volume)
    (hrun : Runs.run (step hash) (Volume.start width next) steps = some v) (tail offset : Nat)
    (start fin : Str) (hok : v.storeDeleteRange hash tail start fin offset = .ok (some v')) (key : Str)
    (hkey : v.index.width.accepts key = true) (hlive : v.get hash key ≠ none) :
    (v'.get hash key = none ↔ start ≤ key ∧ key < fin) ↔
      ¬ (CutTo v.index.width start key ∧ key < boundBytes v.index.width fin ∨
        CutTo v.index.width fin key ∧ start ≤ key) := by
  have hstart := lowBound_le_iff hkey start
  have hfin := (lowBound_le_iff hkey fin).not
  rw [not_le, not_or, not_le] at hfin
  have hbelow : CutTo v.index.width start key → ¬ start ≤ key := fun hc => not_le.mpr hc.lt
  have hinside : CutTo v.index.width fin key → key < fin := CutTo.lt
  rw [(drawn_run hrun).gone_iff hok hkey hlive, boundBytes_eq, hstart, hfin]
  by_cases hs : CutTo v.index.width start key
  · simp [hs, hbelow hs]
  · by_cases hf : CutTo v.index.width fin key
    · simp [hs, hf, hinside hf]
    · simp [hs, hf]

def oneKey : List Step := [.openTail 1, .put 1 [2, 2] 0 1 .warm]

theorem storeDeleteRange_takes_one_key :
    ∃ v v', Runs.run (step fun _ => 0) (start (.fixed 2) 1) oneKey = some v ∧
      v.storeDeleteRange (fun _ => 0) 1 [1, 7, 7] [3] 1 = .ok (some v') ∧
      ((v'.get (fun _ => 0) [2, 2] = none ↔ ([1, 7, 7] : Str) ≤ [2, 2] ∧ ([2, 2] : Str) < [3]) ↔
        ¬ (CutTo (.fixed 2) [1, 7, 7] [2, 2] ∧ ([2, 2] : Str) < boundBytes (.fixed 2) [3] ∨
          CutTo (.fixed 2) [3] [2, 2] ∧ ([1, 7, 7] : Str) ≤ [2, 2])) :=
  ⟨_, _, rfl, rfl, storeDeleteRange_takes_iff (fun _ => 0) (.fixed 2) 1 oneKey _ _ rfl 1 1 [1, 7, 7] [3] rfl
    [2, 2] (by decide) (by decide)⟩

/-- A range from past the live key takes it once its start is cut to the width, and a range that ends
past the live key leaves it once its end is. -/
theorem cut_bounds_move_the_range :
    ∃ v below inside, Runs.run (step fun _ => 0) (start (.fixed 2) 1) oneKey = some v ∧
      v.get (fun _ => 0) [2, 2] = some ⟨⟨1, 0, 1⟩, 1⟩ ∧
      v.storeDeleteRange (fun _ => 0) 1 [2, 2, 0] [3] 1 = .ok (some below) ∧
      below.get (fun _ => 0) [2, 2] = none ∧ ¬ ([2, 2, 0] : Str) ≤ [2, 2] ∧
      v.storeDeleteRange (fun _ => 0) 1 [1] [2, 2, 0] 1 = .ok (some inside) ∧
      inside.get (fun _ => 0) [2, 2] = some ⟨⟨1, 0, 1⟩, 1⟩ ∧ ([1] : Str) ≤ [2, 2] ∧ ([2, 2] : Str) < [2, 2, 0] :=
  ⟨_, _, _, rfl, by decide, rfl, by decide, by decide, rfl, by decide, by decide, by decide⟩

end Volume

end Reel
