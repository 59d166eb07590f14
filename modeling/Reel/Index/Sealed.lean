import Reel.Index.SpotColumn

/-!
Segments as the index reads them: a sealed segment's footer in key order, the newest
footer row of a key over several of them, and what a record's header says.
-/

set_option autoImplicit false

namespace Reel
open Bytes StableSort

/-- One segment's records of a column in write order, and the highest number it holds of any
column. -/
structure Segment where
  id : Nat
  rows : List Row
  maxLsn : Nat
  deriving DecidableEq, Repr

namespace Segment

def footerRows (segment : Segment) : List Row :=
  sortByKey (fun row => toLex (row.key, row.lsn)) segment.rows

def find (segment : Segment) (key : Str) : Option Row :=
  (segment.footerRows.filter (fun row => row.key = key)).getLast?

def lowest (segment : Segment) : Option Str := segment.footerRows.head?.map Row.key

def highest (segment : Segment) : Option Str := segment.footerRows.getLast?.map Row.key

def spans (segment : Segment) (key : Str) : Bool :=
  segment.lowest.any (· ≤ key) && segment.highest.any (key ≤ ·)

def overlaps (segment : Segment) (low : Str) (high : Option Str) : Bool :=
  segment.highest.any (low ≤ ·) && high.all fun high => segment.lowest.any (· < high)

end Segment

def footerOrder (segment : Segment) : (Lex (Nat × Nat))ᵒᵈ :=
  OrderDual.toDual (toLex (segment.maxLsn, segment.id))

/-- Search footers from the highest ceiling down, stopping once no later one can win. -/
def searchFooters (key : Str) (snapshot : Option Nat) :
    List Segment → Option (Row × Nat) → Option (Row × Nat)
  | [], best => best
  | segment :: rest, best =>
    if best.any fun best => segment.maxLsn < best.1.lsn then best
    else
      match segment.find key with
      | none => searchFooters key snapshot rest best
      | some row =>
        if snapshot.any (· < row.lsn) then searchFooters key snapshot rest best
        -- a copy's tie with its source goes to the newer segment
        else if best.any fun best => toLex (row.lsn, segment.id) ≤ toLex (best.1.lsn, best.2) then
          searchFooters key snapshot rest best
        else searchFooters key snapshot rest (some (row, segment.id))

def newestSealed (sealed : List Segment) (key : Str) (snapshot : Option Nat) : Option Entry :=
  (searchFooters key snapshot (sortByKey footerOrder (sealed.filter (·.spans key))) none).map
    fun found => found.1.entry found.2

theorem mem_spanning {noted : List Segment} {key : Str} {segment : Segment} :
    segment ∈ sortByKey footerOrder (noted.filter (·.spans key)) ↔ segment ∈ noted ∧ segment.spans key = true := by
  rw [mem_sortByKey, List.mem_filter]

theorem maxLsn_le_of_footerOrder {a b : Segment} (h : footerOrder a ≤ footerOrder b) : b.maxLsn ≤ a.maxLsn := by
  have hlex : toLex (b.maxLsn, b.id) ≤ toLex (a.maxLsn, a.id) := OrderDual.toDual_le_toDual.mp h
  rcases Prod.Lex.le_iff.mp hlex with h | h
  · exact h.le
  · exact h.1.le

/-- What the record at a place says about a key. A range delete answers for no single key. -/
def headIn (segments : List Segment) (key : Str) (segment offset : Nat) : HeadRead :=
  match segments.find? (·.id == segment) with
  | none => .missing
  | some held =>
    match held.rows.find? (·.offset == offset) with
    | none => .other
    | some row =>
      if row.key = key ∧ row.kind ≠ .rangeTombstone then
        .same ⟨row.lsn, row.len, decide (row.kind = .tombstone)⟩
      else .other

/-- What a truthful source may do at each place: answer from memory or not, prove a record by its
own check or not, read a lone one without its version, or leave it to the checked read. -/
structure Cache where
  cold : Nat → Nat → Bool
  checks : Nat → Nat → Bool
  versionless : Nat → Nat → Bool
  unsure : Nat → Nat → Bool

/-- Every answer is the record's own, whatever the cache allows. -/
def recordsOf (segments : List Segment) (cache : Cache) : Records where
  head := headIn segments
  cachedHead key segment offset :=
    if cache.cold segment offset then .cold else headIn segments key segment offset
  checkedLen key segment offset _ :=
    match headIn segments key segment offset with
    | .same head => if cache.checks segment offset && !head.isTombstone then some head.len else none
    | _ => none
  record key segment offset _ alone :=
    match headIn segments key segment offset with
    | .same head =>
      if cache.unsure segment offset then .unsure
      else if head.isTombstone then .tombstone head
      else if alone && cache.versionless segment offset then .newest head.lsn
      else .found head
    | .other => .other
    | .missing => .gone
    | .cold => .unsure

end Reel
