import Reel.Format.Key
import Reel.Library.StableSort

/-!
Segment numbers over an open. The next number follows the highest segment file a living root holds,
while the key runs read back beside them list the segments they cover by number, standing or not.
-/

set_option autoImplicit false

namespace Reel
open StableSort

def firstSegment : Nat := 1

def lastSegment : Nat := 2 ^ 32 - 1

/-- One volume root: its path, whether its drive was declared dead, and the segment files under it. -/
structure Root where
  path : String
  dead : Bool
  segments : List Nat
  deriving DecidableEq, Repr

/-- One key run read back whole: its id and the segments whose footers it stands in for. -/
structure KeyRun where
  id : Nat
  covered : List Nat
  deriving DecidableEq, Repr

/-- One segment file the rebuild found, and the root it lies on. -/
structure SegmentFile where
  number : Nat
  root : Nat
  path : String
  deriving DecidableEq, Repr

def segmentFileName (number : Nat) : String :=
  let digits := toString number
  "".pushn '0' (6 - digits.length) ++ digits ++ ".reel"

def livingFiles (roots : List Root) : List SegmentFile :=
  (roots.zipIdx).flatMap fun (root, i) =>
    if root.dead then []
    else root.segments.map fun number => ⟨number, i, root.path ++ "/" ++ segmentFileName number⟩

def stoodTwice : List SegmentFile → Option (SegmentFile × SegmentFile)
  | a :: b :: rest => if a.number = b.number then some (a, b) else stoodTwice (b :: rest)
  | _ => none

def highestNumber (files : List SegmentFile) : Nat :=
  files.foldl (fun highest file => max highest file.number) 0

/-- The highest segment number a rebuild meets, one number on two volumes refused. -/
def rebuildNumbers (roots : List Root) : Except ReelError Nat :=
  let files := sortByKey (fun file : SegmentFile => toLex (file.number, file.root)) (livingFiles roots)
  match stoodTwice files with
  | some (a, b) =>
    let number := a.number
    let one := a.path
    let two := b.path
    .error (.corruption s!"segment {number} stands on two volumes, {one} and {two}")
  | none => .ok (highestNumber files)

def keepRuns : List KeyRun → List KeyRun → List KeyRun
  | kept, [] => kept
  | kept, run :: older =>
    if kept.any fun newer => run.covered.all newer.covered.contains then keepRuns kept older
    else keepRuns (kept ++ [run]) older

def loadRuns (found : List KeyRun) : List KeyRun :=
  sortByKey KeyRun.id (keepRuns [] (sortByKey KeyRun.id found).reverse)

def recoverNextSegment (next highest : Nat) : Nat :=
  max next (max (min (highest + 1) lastSegment) firstSegment)

def nextSegment (next : Nat) : Except ReelError (Nat × Nat) :=
  if next + 1 ≤ lastSegment then .ok (next, next + 1)
  else .error (.rejected s!"reel segment numbers exhausted at {next}")

structure Opened where
  next : Nat
  runs : List KeyRun

def openStore (roots : List Root) (found : List KeyRun) : Except ReelError Opened := do
  let runs := loadRuns found
  let highest ← rebuildNumbers roots
  return ⟨recoverNextSegment firstSegment highest, runs⟩

namespace Opened

def covers (o : Opened) (segment : Nat) : Bool := o.runs.any (·.covered.contains segment)

def drawAfter (o : Opened) : Nat → Except ReelError Nat
  | 0 => (nextSegment o.next).map Prod.fst
  | count + 1 => do
    let (_, next) ← nextSegment o.next
    drawAfter { o with next } count

/-- No number drawn after the open is listed by a run the open holds. -/
def FreshNumbers (o : Opened) : Prop :=
  ∀ count number, o.drawAfter count = .ok number → ∀ run ∈ o.runs, number ∉ run.covered

theorem drawAfter_iff (o : Opened) (count number : Nat) :
    o.drawAfter count = .ok number ↔ number = o.next + count ∧ number < lastSegment := by
  induction count generalizing o with
  | zero =>
    simp only [drawAfter, nextSegment]
    split
    · simp only [Except.map, Except.ok.injEq]
      omega
    · simp only [Except.map, reduceCtorEq, false_iff]
      omega
  | succ count ih =>
    simp only [drawAfter, nextSegment]
    split
    · simp only [bind, Except.bind, ih]
      omega
    · simp only [bind, Except.bind, reduceCtorEq, false_iff]
      omega

end Opened

def highestLiving (roots : List Root) : Nat := highestNumber (livingFiles roots)

theorem highestNumber_perm {a b : List SegmentFile} (h : a.Perm b) : highestNumber a = highestNumber b :=
  h.foldl_eq' (fun x _ y _ z => by omega) 0

theorem openStore_next {roots : List Root} {found : List KeyRun} {o : Opened}
    (h : openStore roots found = .ok o) : o.runs = loadRuns found ∧
      o.next = max 1 (min (highestLiving roots + 1) lastSegment) := by
  unfold openStore rebuildNumbers at h
  simp only [bind, Except.bind] at h
  split at h
  · cases h
  · rename_i highest hok
    split at hok
    · cases hok
    · cases hok
      cases h
      refine ⟨rfl, ?_⟩
      rw [highestNumber_perm (perm_sortByKey _ _)]
      simp only [recoverNextSegment, firstSegment, highestLiving]
      omega

/-- Numbers drawn after an open are new to every run it holds exactly where no run lists a segment above
the highest file of a living root, the number never drawn apart. -/
theorem fresh_numbers_iff (roots : List Root) (found : List KeyRun) (o : Opened)
    (h : openStore roots found = .ok o) :
    o.FreshNumbers ↔ ∀ run ∈ loadRuns found, ∀ segment ∈ run.covered,
      segment ≤ highestLiving roots ∨ lastSegment ≤ segment := by
  obtain ⟨hruns, hnext⟩ := openStore_next h
  unfold Opened.FreshNumbers
  rw [hruns]
  constructor
  · intro hfresh run hrun segment hseg
    by_contra hgap
    obtain ⟨hhigh, hlast⟩ := not_or.mp hgap
    have hdraw : o.drawAfter (segment - o.next) = .ok segment := by
      rw [Opened.drawAfter_iff]
      omega
    exact hfresh (segment - o.next) segment hdraw run hrun hseg
  · intro hlow count number hdraw run hrun hin
    obtain ⟨hnumber, hlt⟩ := (o.drawAfter_iff count number).mp hdraw
    have := hlow run hrun number hin
    omega

/-- Two segments on the first root and a run that covers both. -/
theorem fresh_numbers_whole :
    ∃ o, openStore [⟨"/a", false, [1, 2]⟩] [⟨1, [1, 2]⟩] = .ok o ∧
      (o.FreshNumbers ↔ ∀ run ∈ loadRuns [⟨1, [1, 2]⟩], ∀ segment ∈ run.covered,
        segment ≤ highestLiving [⟨"/a", false, [1, 2]⟩] ∨ lastSegment ≤ segment) :=
  ⟨_, rfl, fresh_numbers_iff [⟨"/a", false, [1, 2]⟩] [⟨1, [1, 2]⟩] _ rfl⟩

/-- With the drive of segment 2 dead the next number drawn is 2, which the run still covers. -/
theorem covered_number_drawn : ∃ o,
    openStore [⟨"/a", false, [1]⟩, ⟨"/b", true, [2]⟩] [⟨1, [1, 2]⟩] = .ok o ∧
      o.drawAfter 0 = .ok 2 ∧ o.covers 2 = true ∧ ¬ o.FreshNumbers := by
  refine ⟨_, rfl, rfl, by decide, ?_⟩
  intro hfresh
  exact hfresh 0 2 rfl ⟨1, [1, 2]⟩ (by decide) (by decide)

end Reel
