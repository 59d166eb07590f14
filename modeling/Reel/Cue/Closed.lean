import Reel.Cue.Filed

/-!
Over every run whose writers keep clear of the cue, a held cue sees a closed history: nothing at or
below its number is written any more, all of it stands under footers, and a read at the number
answers the same for as long as the cue is held.
-/

set_option autoImplicit false

namespace Reel
open Bytes StableSort List

def Segment.isUpTo (segment : Segment) (lsn : Nat) : Bool := segment.rows.all fun row => row.lsn ≤ lsn

theorem Segment.isUpTo_iff {segment : Segment} {lsn : Nat} :
    segment.isUpTo lsn = true ↔ ∀ row ∈ segment.rows, row.lsn ≤ lsn := by
  simp [Segment.isUpTo]

def IsNewestUpTo (segments : List Segment) (lsn : Nat) (key : Str) : Option (Row × Nat) → Prop
  | none => ∀ {id : Nat} {row : Row}, Holds segments id row → row.lsn ≤ lsn → row.key ≠ key
  | some (row, id) => Holds segments id row ∧ row.lsn ≤ lsn ∧ row.key = key ∧
      ∀ {i : Nat} {other : Row}, Holds segments i other → other.lsn ≤ lsn → other.key = key →
        other.lsn ≤ row.lsn

theorem newestSealed_upTo {noted : List Segment} (key : Str) (snapshot : Nat)
    (hparted : ∀ segment ∈ noted,
      segment.isUpTo snapshot = true ∨ ∀ row ∈ segment.rows, snapshot < row.lsn)
    (hceiling : ∀ segment ∈ noted, ∀ row ∈ segment.rows, row.lsn ≤ segment.maxLsn) :
    ∃ found, IsNewestUpTo noted snapshot key found ∧
      newestSealed noted key (some snapshot) = found.map fun x => x.1.entry x.2 := by
  -- a segment with a record up to the number lies on that side whole, its newest row with it
  have hside : ∀ {segment : Segment} {row lead : Row}, segment ∈ noted → row ∈ segment.rows →
      row.lsn ≤ snapshot → segment.Leads key lead → UpTo (some snapshot) lead.lsn := by
    intro segment row lead hs hrow hle hlead
    have hup := (hparted segment hs).resolve_right fun hpast => absurd (hpast row hrow) (by omega)
    exact upTo_some.mpr (Segment.isUpTo_iff.mp hup lead hlead.1)
  rcases newestSealed_spec key (some snapshot) hceiling with
    ⟨hnone, hpast⟩ | ⟨segment, hs, row, hleads, hle, hfound, hmax⟩
  · refine ⟨none, ?_, hnone⟩
    rintro id row ⟨segment, hs, -, hrow⟩ hle hk
    obtain ⟨lead, hlead, -⟩ := Segment.exists_leads hrow hk
    exact hpast segment hs lead hlead (hside hs hrow hle hlead)
  · refine ⟨some (row, segment.id),
      ⟨⟨segment, hs, rfl, hleads.1⟩, upTo_some.mp hle, hleads.2.1, ?_⟩, hfound⟩
    rintro i other ⟨held, hheld, -, hother⟩ hle hk
    obtain ⟨lead, hlead, hnewer⟩ := Segment.exists_leads hother hk
    exact hnewer.trans (hmax held hheld lead hlead (hside hheld hother hle hlead))

def CueStage.passed : CueStage → Nat → Prop
  | .sealing tail swapped, i => i < tail ∨ i = tail ∧ swapped.isSome
  | .idle, _ | .peeked _, _ | .held _, _ => False

instance : (stage : CueStage) → (i : Nat) → Decidable (stage.passed i)
  | .sealing tail swapped, i => inferInstanceAs (Decidable (i < tail ∨ i = tail ∧ swapped.isSome))
  | .idle, _ | .peeked _, _ | .held _, _ => inferInstanceAs (Decidable False)

def KeyOp.EndFits (width : KeyWidth) : KeyOp → Prop
  | .range _ fin => Volume.EndFits width fin
  | .put .. | .delete _ => True

instance (width : KeyWidth) : (op : KeyOp) → Decidable (op.EndFits width)
  | .range _ fin => inferInstanceAs (Decidable (Volume.EndFits width fin))
  | .put .. | .delete _ => inferInstanceAs (Decidable True)

theorem KeyOp.EndFits.fits {width : KeyWidth} {op : KeyOp} (h : op.EndFits width)
    (hskip : op.skips = false) : op.Fits width := by
  cases op with
  | put key len => trivial
  | delete key => trivial
  | range start fin =>
    refine ⟨h, fun top ht => ?_⟩
    subst ht
    simpa [KeyOp.skips] using hskip

def Writer.isDrawnOn (tail : Nat) : Writer → Bool
  | .drawn on _ _ => on == tail
  | .landed .. => false

namespace Deck
variable {d d' : Deck}

/-- Nothing up to the number is in flight or stands in a segment without a footer, and the index has
its word on all of it. -/
structure ClosedAt (d : Deck) (lsn : Nat) : Prop where
  next : lsn < d.next
  flight : ∀ number ∈ d.inFlight, lsn < number
  unsealed : ∀ segment ∈ d.active ++ d.retired, ∀ row ∈ segment.rows, lsn < row.lsn
  parted : ∀ segment ∈ d.pending ++ d.noted,
    segment.isUpTo lsn = true ∨ ∀ row ∈ segment.rows, lsn < row.lsn
  answered : ∀ {id : Nat} {row : Row}, Holds d.segments id row → row.lsn ≤ lsn →
    row.kind ≠ .rangeTombstone → d.index.width.accepts row.key = true →
    (∃ entry, d.index.map.get row.key = some entry ∧ row.lsn ≤ entry.lsn) ∨
      d.index.isCoveredKeyAt row.key row.lsn lsn = true

variable {key : Str} {lsn : Nat}

theorem isCoveredKeyAt_iff {index : ColumnIndex} {snapshot : Nat} :
    index.isCoveredKeyAt key lsn snapshot = true ↔ index.width.accepts key = true ∧
      ∃ cover ∈ index.covers, cover.lsn ≤ snapshot ∧ cover.covers key lsn = true := by
  simp [ColumnIndex.isCoveredKeyAt]

theorem isCoveredKeyAt_mono {index : ColumnIndex} {older newer snapshot : Nat}
    (hle : older ≤ newer) (h : index.isCoveredKeyAt key newer snapshot = true) :
    index.isCoveredKeyAt key older snapshot = true := by
  obtain ⟨hacc, cover, hc, hsnap, hcov⟩ := isCoveredKeyAt_iff.mp h
  obtain ⟨hlt, hrange⟩ := (Covered.covers_iff _ _ _).mp hcov
  exact isCoveredKeyAt_iff.mpr ⟨hacc, cover, hc, hsnap,
    (Covered.covers_iff _ _ _).mpr ⟨hle.trans_lt hlt, hrange⟩⟩

def standingAt (d : Deck) (key : Str) (snapshot : Nat) (found : Option (Row × Nat)) : Option Entry :=
  (found.map fun x => x.1.entry x.2).filter fun entry =>
    !entry.isGrave && !d.index.isCoveredKeyAt key entry.lsn snapshot

theorem newestUpTo_unique {segments segments' : List Segment} {next : Nat}
    (hlaid : Laid segments next)
    (hrows : ∀ {id : Nat} {row : Row}, row.lsn ≤ lsn →
      (Holds segments' id row ↔ Holds segments id row))
    {a b : Option (Row × Nat)} (ha : IsNewestUpTo segments lsn key a)
    (hb : IsNewestUpTo segments' lsn key b) : a = b := by
  cases a with
  | none =>
    cases b with
    | none => rfl
    | some b => exact absurd hb.2.2.1 (ha ((hrows hb.2.1).mp hb.1) hb.2.1)
  | some a =>
    obtain ⟨ha, hale, hak, hamax⟩ := ha
    cases b with
    | none => exact absurd hak (hb ((hrows hale).mpr ha) hale)
    | some b =>
      obtain ⟨hb, hble, hbk, hbmax⟩ := hb
      have hlsn : a.1.lsn = b.1.lsn :=
        le_antisymm (hbmax ((hrows hale).mpr ha) hale hak) (hamax ((hrows hble).mp hb) hble hbk)
      obtain ⟨hi, hr⟩ := hlaid.lsns ha ((hrows hble).mp hb) hlsn
      exact congrArg some (Prod.ext hr hi)

section
variable (hc : d.ClosedAt lsn)
include hc

/-- A word up to the number is the newest record's there, or both are covered there. -/
theorem ClosedAt.word_eq (hf : d.Filed) (hi : d.Indexed)
    {entry : Entry} (hg : d.index.map.get key = some entry) (hle : entry.lsn ≤ lsn)
    {found : Option (Row × Nat)} (hfound : IsNewestUpTo d.segments lsn key found) :
    (if entry.isGrave || d.index.isCoveredKeyAt key entry.lsn lsn then none else some entry) =
      d.standingAt key lsn found := by
  obtain ⟨hacc, id, row, hrow, rfl, hpoint, rfl⟩ := hi.mapped hg
  rw [Row.resident_lsn] at hle ⊢
  cases found with
  | none => exact absurd rfl (hfound hrow hle)
  | some found =>
    obtain ⟨best, bid⟩ := found
    obtain ⟨hbest, hble, hbk, hmax⟩ := hfound
    have hlsn := hmax hrow hle rfl
    have hout : best.lsn ∉ d.inFlight := fun hin => absurd (hc.flight _ hin) (by omega)
    have hentry : (best.entry bid).lsn = best.lsn := by
      unfold Row.entry
      cases best.kind <;> rfl
    by_cases hkind : best.kind = .rangeTombstone
    · -- the range delete over its own start covers the older word
      obtain ⟨cover, hcover, hclsn, hlow, hhigh⟩ := hi.ranged hbest hkind (hbk ▸ hacc) hout
      have hne : row.lsn ≠ best.lsn := fun heq => hpoint ((hf.laid.lsns hrow hbest heq).2 ▸ hkind)
      have hcovered : d.index.isCoveredKeyAt row.key row.lsn lsn = true := by
        refine isCoveredKeyAt_iff.mpr ⟨hacc, cover, hcover, by omega, ?_⟩
        exact (Covered.covers_iff _ _ _).mpr ⟨by omega, hbk ▸ hlow, fun high hh => hbk ▸ hhigh high hh⟩
      simp [hcovered, standingAt, Row.entry, hkind, Entry.grave, Option.filter_some]
    · rcases hc.answered hbest hble hkind (hbk ▸ hacc) with ⟨held, hheld, hle'⟩ | hcovered
      · rw [hbk, hg] at hheld
        cases hheld
        rw [Row.resident_lsn] at hle'
        obtain ⟨rfl, rfl⟩ := hf.laid.lsns hrow hbest (le_antisymm hlsn hle')
        cases hrk : row.kind with
        | data => simp [standingAt, Row.resident, Row.entry, hrk, Option.filter_some, ← Bool.not_eq_true,
            ← not_or]
        | tombstone => simp [standingAt, Row.resident, Row.entry, hrk, Entry.grave, Option.filter_some]
        | rangeTombstone => exact absurd hrk hkind
      · rw [hbk] at hcovered
        have hold := isCoveredKeyAt_mono hlsn hcovered
        simp [hold, standingAt, hentry, hcovered, Option.filter_some]

theorem ClosedAt.wordless_eq
    (hacc : d.index.width.accepts key = true) (hg : d.index.map.get key = none)
    {found : Option (Row × Nat)} (hfound : IsNewestUpTo d.segments lsn key found) :
    d.standingAt key lsn found = none := by
  cases found with
  | none => rfl
  | some found =>
    obtain ⟨best, bid⟩ := found
    obtain ⟨hbest, hble, rfl, -⟩ := hfound
    by_cases hkind : best.kind = .rangeTombstone
    · simp [standingAt, Row.entry, hkind, Entry.grave, Option.filter_some]
    · rcases hc.answered hbest hble hkind hacc with ⟨held, hheld, -⟩ | hcovered
      · rw [hg] at hheld
        cases hheld
      · have hentry : (best.entry bid).lsn = best.lsn := by
          unfold Row.entry
          cases best.kind <;> rfl
        simp [standingAt, hentry, hcovered, Option.filter_some]

theorem ClosedAt.settle (hf : d.Filed) :
    d.settleSealed.ClosedAt lsn := by
  refine ⟨hc.next, hc.flight, hc.unsealed, ?_, fun hrow => hc.answered (hf.settleSealed.rows.mp hrow)⟩
  intro segment hin
  refine hc.parted segment ?_
  simp only [Deck.settleSealed, nil_append, mem_append, mem_filter] at hin ⊢
  tauto

/-- A read at a closed number answers with the newest record there. Only a key the column cannot hold
misses where the spot index serves. -/
theorem ClosedAt.readAsOf_eq (hf : d.Filed) (hi : d.Indexed)
    (serves : Bool) (key : Str) :
    ∃ found, IsNewestUpTo d.segments lsn key found ∧ d.readAsOf serves key lsn =
      if serves && !d.index.width.accepts key then none else d.standingAt key lsn found := by
  have hrelays := hf.settleSealed
  have hc' := hc.settle hf
  have hf' := hf.relay hrelays
  have hi' := hi.relay hrelays
  have hindex : d.settleSealed.index = d.index := rfl
  obtain ⟨found, hnoted, hsealed⟩ := newestSealed_upTo key lsn
    (fun s hs => hc'.parted s (mem_append_right _ hs))
    (fun s (hs : s ∈ d.settleSealed.noted) => hf'.laid.ceiling s (mem_append_right _ hs))
  -- what stands up to the number stands noted
  have hrows : ∀ {id : Nat} {row : Row}, row.lsn ≤ lsn →
      (Holds d.settleSealed.noted id row ↔ Holds d.settleSealed.segments id row) := by
    intro id row hle
    refine ⟨Holds.mono (subset_append_right _ _), ?_⟩
    rintro ⟨segment, hin, hid, hrow⟩
    simp only [segments, mem_append] at hin
    rcases hin with ((hin | hin) | hin) | hin
    · exact absurd (hc'.unsealed segment (mem_append_left _ hin) row hrow) (by omega)
    · exact absurd (hc'.unsealed segment (mem_append_right _ hin) row hrow) (by omega)
    · cases hin
    · exact ⟨segment, hin, hid, hrow⟩
  have hfound : IsNewestUpTo d.settleSealed.segments lsn key found := by
    cases found with
    | none => exact fun hrow hle => hnoted ((hrows hle).mpr hrow) hle
    | some found =>
      obtain ⟨hrow, hle, hk, hmax⟩ := hnoted
      exact ⟨(hrows hle).mp hrow, hle, hk, fun ho hle' => hmax ((hrows hle').mpr ho) hle'⟩
  have hstanding : d.settleSealed.sealedEntryAt key lsn = d.standingAt key lsn found := by
    rw [sealedEntryAt, hsealed]
    rfl
  refine ⟨found, ?_, ?_⟩
  · cases found with
    | none => exact fun hrow => hfound (hrelays.rows.mpr hrow)
    | some found =>
      obtain ⟨hrow, hle, hk, hmax⟩ := hfound
      exact ⟨hrelays.rows.mp hrow, hle, hk, fun ho => hmax (hrelays.rows.mpr ho)⟩
  · by_cases hacc : d.index.width.accepts key = true
    · simp only [hacc, Bool.not_true, Bool.and_false, Bool.false_eq_true, if_false]
      simp only [readAsOf, hindex, getAt, ColumnIndex.entryOrGrave, if_pos hacc, hstanding]
      cases hg : d.index.map.get key with
      | none =>
        have hnone : d.standingAt key lsn found = none := hc'.wordless_eq hacc hg hfound
        simp [hnone]
      | some entry =>
        by_cases hle : entry.lsn ≤ lsn
        · have hword : _ = d.standingAt key lsn found := hc'.word_eq hf' hi' hg hle hfound
          rw [← hword]
          simp [hle, hindex]
        · simp [hle]
    · have hnot : d.index.width.accepts key = false := by simpa using hacc
      simp only [readAsOf, hindex, getAt, ColumnIndex.entryOrGrave, ColumnIndex.isCoveredKey, hnot,
        hstanding]
      cases serves <;> simp

end

/-- From its swap of a tail to its read of the next number, a cue has to find nothing drawn for the
tail and not landed, and every write published and every segment sealed at the read. -/
def CueSafe (d : Deck) : Step → Prop
  | .draw tail ops => (∀ op ∈ ops, op.EndFits d.index.width) ∧ ¬ d.cue.passed tail
  | .cueSwap =>
    match d.cue with
    | .sealing tail _ => ∀ w ∈ d.writers, w.isDrawnOn tail = false
    | _ => True
  | .cuePeek => d.inFlight = [] ∧ ∀ segment ∈ d.retired, segment.rows = []
  | _ => True

instance (d : Deck) : (action : Step) → Decidable (d.CueSafe action)
  | .draw tail ops =>
    inferInstanceAs (Decidable ((∀ op ∈ ops, op.EndFits d.index.width) ∧ ¬ d.cue.passed tail))
  | .cueSwap =>
    match h : d.cue with
    | .sealing tail _ => decidable_of_iff (∀ w ∈ d.writers, w.isDrawnOn tail = false) (by simp [CueSafe, h])
    | .idle | .peeked _ | .held _ => isTrue (by simp [CueSafe, h])
  | .cuePeek =>
    inferInstanceAs (Decidable (d.inFlight = [] ∧ ∀ segment ∈ d.retired, segment.rows = []))
  | .fail _ | .land .. | .publish .. | .roll _ | .sealRetired _ | .settleSealed | .cueStart | .cueSeal
  | .cueHold | .cueDrop => inferInstanceAs (Decidable True)

/-- The tails a cue has passed are empty and stay so until it has its number, and what it read is
closed. -/
structure Phased (d : Deck) : Prop where
  swept : ∀ {i : Nat} {segment : Segment}, d.cue.passed i → d.active[i]? = some segment →
    segment.rows = []
  clear : ∀ {i : Nat}, d.cue.passed i → ∀ w ∈ d.writers, w.isDrawnOn i = false
  closed : ∀ {lsn : Nat}, d.cue = .peeked lsn ∨ d.cue = .held lsn → d.ClosedAt lsn

theorem ClosedAt.draw (hc : d.ClosedAt lsn) (tail : Nat) (ops : List KeyOp) :
    ClosedAt { d with
      next := d.next + ops.length
      writers := d.writers ++ [.drawn tail d.next ops] } lsn := by
  refine ⟨hc.next.trans_le (Nat.le_add_right _ _), ?_, hc.unsealed, hc.parted, hc.answered⟩
  intro number hin
  simp only [inFlight, flatMap_append, flatMap_cons, flatMap_nil, append_nil,
    mem_append, Writer.lsns, mem_range'_1] at hin
  rcases hin with hin | hin
  · exact hc.flight number hin
  · exact hc.next.trans_le hin.1

variable {writer : Nat}

theorem ClosedAt.land (hc : d.ClosedAt lsn) (hf : d.Filed) {base : Nat}
    (hl : d.land writer base = some d') : d'.ClosedAt lsn := by
  obtain ⟨-, held, batch, hlands⟩ := hf.land hl
  obtain ⟨tail, first, ops, segment, hw, hactive, -, rfl⟩ := land_spec hl
  refine ⟨hc.next, fun number hin => hc.flight number (hlands.inFlight ▸ hin), ?_, hc.parted, ?_⟩
  · intro other hin row hrow
    rcases mem_append.mp hin with hin | hin
    · rcases mem_or_eq_of_mem_set hin with hin | rfl
      · exact hc.unsealed other (mem_append_left _ hin) row hrow
      · rcases mem_append.mp hrow with hrow | hrow
        · exact hc.unsealed segment (mem_append_left _ (mem_of_getElem? hactive)) row hrow
        · refine hc.flight _ (mem_inFlight.mpr ⟨_, mem_of_getElem? hw, ?_⟩)
          rw [Writer.lsns, ← rowsOf_lsns first base ops]
          obtain ⟨x, hx, rfl⟩ := mem_map.mp hrow
          exact mem_map_of_mem hx
    · exact hc.unsealed other (mem_append_right _ hin) row hrow
  · intro id row hrow hle
    rcases hlands.rows.mp hrow with hrow | ⟨-, hrow⟩
    · exact hc.answered hrow hle
    · exact absurd (hc.flight _ (hlands.flying row hrow)) (by omega)

theorem ClosedAt.publish (hc : d.ClosedAt lsn) (hf : d.Filed) {record : Nat}
    (hp : d.publish writer record = some d') : d'.ClosedAt lsn := by
  obtain ⟨segment, owed, op, row, hw, hx, rfl⟩ := publish_spec hp
  obtain ⟨hrow, hop⟩ : Holds d.segments segment row ∧ row = op.row row.lsn row.offset :=
    hf.owed (mem_of_getElem? hw) _ (mem_of_getElem? hx)
  refine ⟨hc.next, fun number hin => hc.flight number ((hf.mem_inFlight_publish hw hx).mp hin).1,
    hc.unsealed, hc.parted, ?_⟩
  intro id held hheld hle hkind hacc
  have hwidth := publish_width d.index segment op row
  simp only [hwidth] at hacc
  have hanswered := hc.answered hheld hle hkind hacc
  by_cases hpoint : row.kind = .rangeTombstone
  · obtain ⟨start, fin, rfl⟩ := KeyOp.range_of_kind hop hpoint
    refine hanswered.imp_right fun hcovered => ?_
    obtain ⟨-, cover, hcover, rest⟩ := isCoveredKeyAt_iff.mp hcovered
    exact isCoveredKeyAt_iff.mpr ⟨hacc, cover, mem_pushCover.mpr (.inl hcover), rest⟩
  · have hmove := publish_pointMove d.index segment hop hpoint
    rcases hanswered with ⟨entry, hg, hle'⟩ | hcovered
    · obtain ⟨entry', hg', hraised⟩ := hmove.raised hg
      exact .inl ⟨entry', hg', hle'.trans hraised⟩
    · obtain ⟨-, cover, hcover, rest⟩ := isCoveredKeyAt_iff.mp hcovered
      exact .inr (isCoveredKeyAt_iff.mpr ⟨hwidth ▸ hacc, cover, hmove.covers ▸ hcover, rest⟩)

variable {tail : Nat}

theorem ClosedAt.swapInFresh (hc : d.ClosedAt lsn) (hf : d.Filed)
    (hs : d.swapInFresh tail = some d') : d'.ClosedAt lsn := by
  have hrelays := hf.swapInFresh hs
  obtain ⟨retiring, hactive, rfl⟩ := Option.map_eq_some_iff.mp hs
  refine ⟨hc.next, hc.flight, ?_, hc.parted, fun hrow => hc.answered (hrelays.rows.mp hrow)⟩
  intro segment hin row hrow
  rcases mem_append.mp hin with hin | hin
  · rcases mem_or_eq_of_mem_set hin with hin | rfl
    · exact hc.unsealed segment (mem_append_left _ hin) row hrow
    · cases hrow
  · rcases mem_append.mp hin with hin | hin
    · exact hc.unsealed segment (mem_append_right _ hin) row hrow
    · rw [mem_singleton.mp hin] at hrow
      exact hc.unsealed retiring (mem_append_left _ (mem_of_getElem? hactive)) row hrow

theorem ClosedAt.sealSegment (hc : d.ClosedAt lsn) (hf : d.Filed) (segment : Nat) :
    (d.sealSegment segment).ClosedAt lsn := by
  refine ⟨hc.next, hc.flight, ?_, ?_, fun hrow => hc.answered ((hf.sealSegment segment).rows.mp hrow)⟩
  · intro held hin
    rcases mem_append.mp hin with hin | hin
    · exact hc.unsealed held (mem_append_left _ hin)
    · exact hc.unsealed held (mem_append_right _ (mem_filter.mp hin).1)
  · intro held hin
    rcases mem_append.mp hin with hin | hin
    · rcases mem_append.mp hin with hin | hin
      · exact hc.parted held (mem_append_left _ hin)
      · exact .inr (hc.unsealed held (mem_append_right _ (mem_filter.mp hin).1))
    · exact hc.parted held (mem_append_right _ hin)

theorem closedAt_peek (hf : d.Filed) (hi : d.Indexed) (hflight : d.inFlight = [])
    (hretired : ∀ segment ∈ d.retired, segment.rows = [])
    (hactive : ∀ segment ∈ d.active, segment.rows = []) : d.ClosedAt (d.next - 1) := by
  have hbelow : ∀ {id : Nat} {row : Row}, Holds d.segments id row → row.lsn ≤ d.next - 1 := by
    intro id row hrow
    have := hf.laid.drawn hrow
    omega
  have hbegun := hf.begun
  refine ⟨by omega, by simp [hflight], ?_, ?_, ?_⟩
  · intro segment hin row hrow
    rcases mem_append.mp hin with hin | hin
    · rw [hactive segment hin] at hrow
      cases hrow
    · rw [hretired segment hin] at hrow
      cases hrow
  · intro segment hin
    refine .inl (Segment.isUpTo_iff.mpr fun row hrow => ?_)
    have hheld : Holds d.segments segment.id row := ⟨segment, ?_, rfl, hrow⟩
    · exact hbelow hheld
    simp only [segments, mem_append] at hin ⊢
    tauto
  · intro id row hrow hle hkind hacc
    refine (hi.published hrow hkind hacc (by simp [hflight])).imp_right fun hcovered => ?_
    obtain ⟨cover, hcover, hcov⟩ := (isCovered_iff _ _ _).mp hcovered
    obtain ⟨i, held, hheld, hlsn, -⟩ := hi.covers cover hcover
    exact isCoveredKeyAt_iff.mpr ⟨hacc, cover, hcover, hlsn ▸ hbelow hheld, hcov⟩

structure Kept (d : Deck) : Prop where
  filed : d.Filed
  indexed : d.Indexed
  phased : d.Phased

theorem swapInFresh_get {i : Nat} {segment : Segment} (hs : d.swapInFresh tail = some d')
    (hi : d'.active[i]? = some segment) : i = tail ∧ segment.rows = [] ∨ d.active[i]? = some segment := by
  obtain ⟨retiring, hactive, rfl⟩ := Option.map_eq_some_iff.mp hs
  rw [getElem?_set] at hi
  split at hi
  · rename_i heq
    split at hi
    · cases hi
      exact .inl ⟨heq.symm, rfl⟩
    · cases hi
  · exact .inr hi

theorem Phased.steady (h : d.Phased) (hcue : d'.cue = d.cue)
    (hactive : ∀ {i : Nat} {segment : Segment}, d.cue.passed i → d'.active[i]? = some segment →
      segment.rows = [] ∨ d.active[i]? = some segment)
    (hwriters : ∀ {i : Nat}, d.cue.passed i → ∀ w ∈ d'.writers, w.isDrawnOn i = true → w ∈ d.writers)
    (hclosed : ∀ {lsn : Nat}, d.ClosedAt lsn → d'.ClosedAt lsn) : d'.Phased where
  swept := by
    intro i segment hp hget
    rw [hcue] at hp
    exact (hactive hp hget).elim id (h.swept hp)
  clear := by
    intro i hp w hw
    rw [hcue] at hp
    rw [Bool.eq_false_iff]
    intro hon
    exact absurd hon (by simp [h.clear hp w (hwriters hp w hw hon)])
  closed := by
    intro lsn hstage
    rw [hcue] at hstage
    exact hclosed (h.closed hstage)

section
variable (h : d.Kept)
include h

theorem Kept.draw {ops : List KeyOp}
    (hsafe : d.CueSafe (.draw tail ops)) (hstep : d.step (.draw tail ops) = some d') : d'.Kept := by
  simp only [Deck.step] at hstep
  split at hstep
  · cases hstep
    have hfits : ∀ op ∈ ops.filter fun op => !op.skips, op.Fits d.index.width := by
      intro op hop
      obtain ⟨hin, hskip⟩ := mem_filter.mp hop
      exact (hsafe.1 op hin).fits (by simpa using hskip)
    refine ⟨h.filed.draw tail hfits, h.indexed.draw h.filed tail _, ?_⟩
    refine h.phased.steady rfl (fun _ hget => .inr hget) ?_ fun hc => hc.draw tail _
    intro i hp w hw hon
    rcases mem_append.mp hw with hw | hw
    · exact hw
    · rw [mem_singleton.mp hw] at hon
      have htail : tail = i := by simpa [Writer.isDrawnOn] using hon
      exact absurd (htail ▸ hp) hsafe.2
  · cases hstep

theorem Kept.fail (hstep : d.step (.fail writer) = some d') : d'.Kept := by
  simp only [Deck.step] at hstep
  split at hstep
  · rename_i tail first ops hw
    cases hstep
    have hsub := eraseIdx_sublist d.writers writer
    refine ⟨h.filed.fail writer, h.indexed.fail h.filed hw, ?_⟩
    refine h.phased.steady rfl (fun _ hget => .inr hget) (fun _ w hw' _ => hsub.subset hw') ?_
    intro lsn hc
    exact ⟨hc.next, fun number hin => hc.flight number ((inFlight_eraseIdx _ _).subset hin), hc.unsealed,
      hc.parted, hc.answered⟩
  · cases hstep

theorem Kept.land {base : Nat} (hl : d.land writer base = some d') : d'.Kept := by
  obtain ⟨hfiled, segment, batch, hlands⟩ := h.filed.land hl
  refine ⟨hfiled, h.indexed.land hlands, ?_⟩
  obtain ⟨tail, first, ops, active, hw, hactive, -, rfl⟩ := land_spec hl
  refine h.phased.steady rfl ?_ ?_ fun hc => hc.land h.filed hl
  · intro i held hp hget
    have hne : tail ≠ i := by
      rintro rfl
      have := h.phased.clear hp _ (mem_of_getElem? hw)
      simp [Writer.isDrawnOn] at this
    rw [getElem?_set_ne hne] at hget
    exact .inr hget
  · intro i hp w hw' hon
    rcases mem_or_eq_of_mem_set hw' with hw' | rfl
    · exact hw'
    · cases hon

theorem Kept.publish {record : Nat} (hp : d.publish writer record = some d') :
    d'.Kept := by
  refine ⟨h.filed.publish hp, h.indexed.publish h.filed hp, ?_⟩
  have hclosed : ∀ {lsn : Nat}, d.ClosedAt lsn → d'.ClosedAt lsn := fun hc => hc.publish h.filed hp
  obtain ⟨segment, owed, op, row, hw, hx, rfl⟩ := publish_spec hp
  refine h.phased.steady rfl (fun _ hget => .inr hget) ?_ hclosed
  intro i _ w hw' hon
  rcases mem_or_eq_of_mem_set hw' with hw' | rfl
  · exact hw'
  · cases hon

theorem Kept.relay (hr : Relays d d') (hphased : d'.Phased) : d'.Kept :=
  ⟨h.filed.relay hr, h.indexed.relay hr, hphased⟩

theorem Kept.roll (hs : d.swapInFresh tail = some d') : d'.Kept := by
  refine h.relay (h.filed.swapInFresh hs) ?_
  refine h.phased.steady ?_ (fun _ hget => (swapInFresh_get hs hget).imp_left And.right) ?_
    fun hc => hc.swapInFresh h.filed hs
  · obtain ⟨retiring, -, rfl⟩ := Option.map_eq_some_iff.mp hs
    rfl
  · obtain ⟨retiring, -, rfl⟩ := Option.map_eq_some_iff.mp hs
    exact fun _ w hw _ => hw

theorem Kept.sealSegment (segment : Nat) : (d.sealSegment segment).Kept :=
  h.relay (h.filed.sealSegment segment)
    (h.phased.steady rfl (fun _ hget => .inr hget) (fun _ _ hw _ => hw)
      fun hc => hc.sealSegment h.filed segment)

theorem Kept.recue {cue : CueStage} (hphased : Phased { d with cue }) :
    Kept { d with cue } :=
  ⟨h.filed.relay ⟨h.filed.laid, h.filed.unused, h.filed.fresh, Iff.rfl, rfl, rfl, rfl⟩,
    h.indexed.relay ⟨h.filed.laid, h.filed.unused, h.filed.fresh, Iff.rfl, rfl, rfl, rfl⟩, hphased⟩

theorem Kept.cueSwap (hsafe : d.CueSafe .cueSwap) (hstep : d.step .cueSwap = some d') :
    d'.Kept := by
  simp only [Deck.step] at hstep
  split at hstep
  · rename_i tail hcue
    obtain ⟨segment, hactive, hmap⟩ := Option.bind_eq_some_iff.mp hstep
    obtain ⟨swapped, hs, rfl⟩ := Option.map_eq_some_iff.mp hmap
    have hclear : ∀ w ∈ d.writers, w.isDrawnOn tail = false := by
      simpa [CueSafe, hcue] using hsafe
    have hwriters := (h.filed.swapInFresh hs).writers
    have hpassed : ∀ {i : Nat}, (CueStage.sealing tail (some segment.id)).passed i →
        d.cue.passed i ∨ i = tail := by
      intro i hp
      rw [hcue]
      exact hp.imp .inl And.left
    refine (h.roll hs).recue ⟨?_, ?_, fun hstage => by simp at hstage⟩
    · intro i held hp hget
      rcases swapInFresh_get hs hget with ⟨-, hrows⟩ | hget'
      · exact hrows
      · rcases hpassed hp with hp | rfl
        · exact h.phased.swept hp hget'
        · obtain ⟨retiring, hret, rfl⟩ := Option.map_eq_some_iff.mp hs
          have hlt := (List.getElem?_eq_some_iff.mp hret).1
          rw [getElem?_set_self hlt] at hget
          cases hget
          rfl
    · intro i hp w hw
      rw [show w ∈ _ ↔ w ∈ d.writers by rw [← hwriters]] at hw
      rcases hpassed hp with hp | rfl
      · exact h.phased.clear hp w hw
      · exact hclear w hw
  · cases hstep

theorem Kept.step {action : Step} (hsafe : d.CueSafe action)
    (hstep : d.step action = some d') : d'.Kept := by
  cases action with
  | draw tail ops => exact h.draw hsafe hstep
  | fail writer => exact h.fail hstep
  | land writer base => exact h.land hstep
  | publish writer record => exact h.publish hstep
  | roll tail => exact h.roll hstep
  | sealRetired segment =>
    simp only [Deck.step] at hstep
    split at hstep
    · split at hstep
      · cases hstep
      · cases hstep
        exact h.sealSegment segment
    · cases hstep
      exact h.sealSegment segment
  | settleSealed =>
    cases hstep
    exact h.relay h.filed.settleSealed
      (h.phased.steady rfl (fun _ hget => .inr hget) (fun _ _ hw _ => hw) fun hc => hc.settle h.filed)
  | cueStart =>
    simp only [Deck.step] at hstep
    split at hstep
    · cases hstep
      refine h.recue ⟨fun hp => ?_, fun hp => ?_, fun hstage => by simp at hstage⟩ <;>
        simp [CueStage.passed] at hp
    · cases hstep
  | cueSwap => exact h.cueSwap hsafe hstep
  | cueSeal =>
    simp only [Deck.step] at hstep
    split at hstep
    · rename_i tail segment hcue
      cases hstep
      have hpassed : ∀ {i : Nat}, (CueStage.sealing (tail + 1) none).passed i → d.cue.passed i := by
        intro i hp
        rw [hcue]
        simp only [CueStage.passed, Option.isSome_none, Bool.false_eq_true, and_false, or_false,
          Option.isSome_some, and_true] at hp ⊢
        omega
      refine (h.sealSegment segment).recue ⟨fun hp => ?_, fun hp => ?_, fun hstage => by simp at hstage⟩
      · exact h.phased.swept (hpassed hp)
      · exact h.phased.clear (hpassed hp)
    · cases hstep
  | cuePeek =>
    simp only [Deck.step] at hstep
    split at hstep
    · rename_i tail hcue
      split at hstep
      · rename_i hall
        cases hstep
        obtain ⟨hflight, hretired⟩ : d.inFlight = [] ∧ ∀ segment ∈ d.retired, segment.rows = [] := hsafe
        have hactive : ∀ segment ∈ d.active, segment.rows = [] := by
          intro segment hin
          obtain ⟨i, hlt, hget⟩ := getElem_of_mem hin
          have hpassed : d.cue.passed i := by
            rw [hcue]
            exact .inl (by omega)
          exact h.phased.swept hpassed (List.getElem?_eq_some_iff.mpr ⟨hlt, hget⟩)
        have hclosed := closedAt_peek h.filed h.indexed hflight hretired hactive
        refine h.recue ⟨fun hp => hp.elim, fun hp => hp.elim, fun hstage => ?_⟩
        rcases hstage with hstage | hstage
        · cases hstage
          exact ⟨hclosed.next, hclosed.flight, hclosed.unsealed, hclosed.parted, hclosed.answered⟩
        · cases hstage
      · cases hstep
    · cases hstep
  | cueHold =>
    simp only [Deck.step] at hstep
    split at hstep
    · rename_i lsn hcue
      cases hstep
      have hclosed := h.phased.closed (.inl hcue)
      refine h.recue ⟨fun hp => hp.elim, fun hp => hp.elim, fun hstage => ?_⟩
      rcases hstage with hstage | hstage
      · cases hstage
      · cases hstage
        exact ⟨hclosed.next, hclosed.flight, hclosed.unsealed, hclosed.parted, hclosed.answered⟩
    · cases hstep
  | cueDrop =>
    simp only [Deck.step] at hstep
    split at hstep
    · cases hstep
      exact h.recue ⟨fun hp => hp.elim, fun hp => hp.elim, fun hstage => by simp at hstage⟩
    · cases hstep

end

theorem kept_start (width : KeyWidth) (tails : Nat) : (start width tails).Kept := by
  have hsegments : (start width tails).segments = (List.range tails).map fun i => ⟨i + 1, [], 0⟩ := by
    simp [segments, start]
  have hempty : ∀ segment ∈ (start width tails).segments, ∃ i < tails, segment = ⟨i + 1, [], 0⟩ := by
    rw [hsegments]
    intro segment hin
    obtain ⟨i, hi, rfl⟩ := mem_map.mp hin
    exact ⟨i, mem_range.mp hi, rfl⟩
  have hnone : ∀ {id : Nat} {row : Row}, ¬ Holds (start width tails).segments id row := by
    rintro id row ⟨segment, hin, -, hrow⟩
    obtain ⟨i, -, rfl⟩ := hempty segment hin
    cases hrow
  have hids : ((start width tails).segments.map Segment.id).Nodup := by
    rw [hsegments, map_map]
    exact List.Nodup.map (fun a b hab => by simpa using hab) nodup_range
  refine ⟨⟨⟨⟨hids, ?_, ?_, ?_⟩, fun ha => absurd ha hnone, fun ha => absurd ha hnone⟩, Nat.one_pos,
    Nat.succ_pos _, ?_, nodup_nil, ?_, ?_, ?_, ?_⟩, ⟨?_, ?_, ?_, ?_⟩, ⟨?_, ?_, ?_⟩⟩
  · intro segment hin
    obtain ⟨i, -, rfl⟩ := hempty segment hin
    exact Nat.succ_ne_zero i
  · intro segment hin
    obtain ⟨i, -, rfl⟩ := hempty segment hin
    exact nodup_nil
  · intro segment hin row hrow
    obtain ⟨i, -, rfl⟩ := hempty segment hin
    cases hrow
  · intro segment hin
    obtain ⟨i, hi, rfl⟩ := hempty segment hin
    exact Nat.succ_lt_succ hi
  · exact fun lsn hin => by cases hin
  · exact fun hw => by cases hw
  · exact fun hw => by cases hw
  · exact fun w hw => by cases hw
  · exact fun hg => by cases hg
  · exact fun hrow => absurd hrow hnone
  · exact fun hrow => absurd hrow hnone
  · exact fun cover hc => by cases hc
  · exact fun hp => hp.elim
  · exact fun hp => hp.elim
  · exact fun hstage => by simp [start] at hstage

/-- Two decks that a read at the number cannot tell apart. -/
structure AgreeUpTo (lsn : Nat) (d d' : Deck) : Prop where
  rows : ∀ {id : Nat} {row : Row}, row.lsn ≤ lsn →
    (Holds d'.segments id row ↔ Holds d.segments id row)
  covers : ∀ {cover : Covered Str}, cover.lsn ≤ lsn →
    (cover ∈ d'.index.covers ↔ cover ∈ d.index.covers)
  width : d'.index.width = d.index.width

theorem AgreeUpTo.refl (lsn : Nat) (d : Deck) : AgreeUpTo lsn d d :=
  ⟨fun _ => Iff.rfl, fun _ => Iff.rfl, rfl⟩

theorem AgreeUpTo.trans {d'' : Deck} (h : AgreeUpTo lsn d d')
    (h' : AgreeUpTo lsn d' d'') : AgreeUpTo lsn d d'' :=
  ⟨fun hle => (h'.rows hle).trans (h.rows hle), fun hle => (h'.covers hle).trans (h.covers hle),
    h'.width.trans h.width⟩

theorem Relays.agree (h : Relays d d') : AgreeUpTo lsn d d' :=
  ⟨fun _ => h.rows, fun _ => by rw [h.index], by rw [h.index]⟩

theorem AgreeUpTo.standingAt (h : AgreeUpTo lsn d d') (key : Str)
    (found : Option (Row × Nat)) : d'.standingAt key lsn found = d.standingAt key lsn found := by
  have hcovered : ∀ below, d'.index.isCoveredKeyAt key below lsn =
      d.index.isCoveredKeyAt key below lsn := by
    intro below
    rw [Bool.eq_iff_iff, isCoveredKeyAt_iff, isCoveredKeyAt_iff, h.width]
    refine and_congr_right fun _ => exists_congr fun cover => ?_
    constructor
    · rintro ⟨hc, hle, hcov⟩
      exact ⟨(h.covers hle).mp hc, hle, hcov⟩
    · rintro ⟨hc, hle, hcov⟩
      exact ⟨(h.covers hle).mpr hc, hle, hcov⟩
  simp only [Deck.standingAt, hcovered]

theorem ClosedAt.agree_publish (hc : d.ClosedAt lsn) (hf : d.Filed) {record : Nat}
    (hp : d.publish writer record = some d') : AgreeUpTo lsn d d' := by
  obtain ⟨segment, owed, op, row, hw, hx, rfl⟩ := publish_spec hp
  have hin : Writer.landed segment owed ∈ d.writers := mem_of_getElem? hw
  have hrow : row = op.row row.lsn row.offset := (hf.owed hin _ (mem_of_getElem? hx)).2
  have hpast : lsn < row.lsn := hc.flight _
    (mem_inFlight.mpr ⟨_, hin, mem_map_of_mem (mem_of_getElem? hx)⟩)
  refine ⟨fun _ => Iff.rfl, fun {cover} hle => ?_, publish_width d.index segment op row⟩
  by_cases hpoint : row.kind = .rangeTombstone
  · obtain ⟨start, fin, rfl⟩ := KeyOp.range_of_kind hrow hpoint
    refine mem_pushCover.trans ⟨fun hin' => hin'.resolve_right ?_, .inl⟩
    rintro ⟨-, rfl⟩
    exact absurd hpast (by simpa using hle)
  · rw [show cover ∈ _ ↔ cover ∈ d.index.covers by
      rw [← (publish_pointMove d.index segment hrow hpoint).covers]]

/-- No step but its own drop takes a held cue away or shows at its number. -/
theorem Kept.agree_step (h : d.Kept) (hcue : d.cue = .held lsn) {action : Step}
    (hstep : d.step action = some d') (hheld : action ≠ .cueDrop) :
    d'.cue = .held lsn ∧ AgreeUpTo lsn d d' := by
  have hc := h.phased.closed (.inr hcue)
  cases action with
  | draw tail ops =>
    simp only [Deck.step] at hstep
    split at hstep
    · cases hstep
      exact ⟨hcue, fun _ => Iff.rfl, fun _ => Iff.rfl, rfl⟩
    · cases hstep
  | fail writer =>
    simp only [Deck.step] at hstep
    split at hstep
    · cases hstep
      exact ⟨hcue, fun _ => Iff.rfl, fun _ => Iff.rfl, rfl⟩
    · cases hstep
  | land writer base =>
    obtain ⟨-, segment, batch, hlands⟩ := h.filed.land hstep
    refine ⟨?_, fun {id row} hle => ?_, fun _ => by rw [hlands.index], by rw [hlands.index]⟩
    · obtain ⟨tail, first, ops, active, -, -, -, rfl⟩ := land_spec hstep
      exact hcue
    · refine hlands.rows.trans ⟨fun hin => hin.resolve_right ?_, .inl⟩
      rintro ⟨-, hrow⟩
      exact absurd (hc.flight _ (hlands.flying row hrow)) (by omega)
  | publish writer record =>
    refine ⟨?_, hc.agree_publish h.filed hstep⟩
    obtain ⟨segment, owed, op, row, -, -, rfl⟩ := publish_spec hstep
    exact hcue
  | roll tail =>
    refine ⟨?_, (h.filed.swapInFresh hstep).agree⟩
    obtain ⟨retiring, -, rfl⟩ := Option.map_eq_some_iff.mp hstep
    exact hcue
  | sealRetired segment =>
    simp only [Deck.step, hcue] at hstep
    cases hstep
    exact ⟨hcue, (h.filed.sealSegment segment).agree⟩
  | settleSealed =>
    cases hstep
    exact ⟨hcue, h.filed.settleSealed.agree⟩
  | cueStart | cueSwap | cueSeal | cuePeek | cueHold =>
    simp only [Deck.step, hcue] at hstep
    cases hstep
  | cueDrop => exact absurd rfl hheld

theorem Kept.agree_run (h : d.Kept) (hcue : d.cue = .held lsn) {steps : List Step}
    (hok : Runs.Meets Deck.step CueSafe d steps) (hheld : .cueDrop ∉ steps)
    (hrun : Runs.run Deck.step d steps = some d') : d'.Kept ∧ d'.cue = .held lsn ∧ AgreeUpTo lsn d d' := by
  induction steps generalizing d with
  | nil =>
    cases hrun
    exact ⟨h, hcue, AgreeUpTo.refl lsn _⟩
  | cons action rest ih =>
    obtain ⟨mid, hmid, hrest⟩ := Runs.run_cons.mp hrun
    rw [mem_cons, not_or] at hheld
    obtain ⟨hcue', hagree⟩ := h.agree_step hcue hmid (Ne.symm hheld.1)
    obtain ⟨hkept, hend, hagree'⟩ := ih (h.step hok.1 hmid) hcue' (hok.2 mid hmid) hheld.2 hrest
    exact ⟨hkept, hend, hagree.trans hagree'⟩

/-- In every run whose steps are safe for the cue, from any state in which a cue is held and for as
long as it is, every record up to its number stands in a segment that was sealed by then, and every
read at the number answers as it did. -/
theorem held_cue_sees_closed_history (serves : Bool) (width : KeyWidth) (tails lsn : Nat)
    (front rest : List Step) (d d' : Deck)
    (hok : Runs.Meets step CueSafe (start width tails) (front ++ rest))
    (hfront : Runs.run step (start width tails) front = some d) (hcue : d.cue = .held lsn)
    (hheld : .cueDrop ∉ rest) (hrest : Runs.run step d rest = some d') :
    (∀ id row, Holds d'.segments id row → row.lsn ≤ lsn → Holds (d.pending ++ d.noted) id row) ∧
      ∀ key, d'.readAsOf serves key lsn = d.readAsOf serves key lsn := by
  have h : d.Kept := Runs.invariant_run Kept (fun _ _ _ hk hsafe hstep => hk.step hsafe hstep)
    (kept_start width tails) hok.front hfront
  obtain ⟨h', hcue', hagree⟩ := h.agree_run hcue (hok.rest hfront) hheld hrest
  have hc := h.phased.closed (.inr hcue)
  have hc' := h'.phased.closed (.inr hcue')
  constructor
  · intro id row hrow hle
    obtain ⟨segment, hin, hid, hrow⟩ := (hagree.rows hle).mp hrow
    simp only [segments, mem_append] at hin
    have hopen : segment ∉ d.active ++ d.retired := fun hin =>
      absurd (hc.unsealed segment hin row hrow) (by omega)
    rw [mem_append] at hopen
    exact ⟨segment, mem_append.mpr (by tauto), hid, hrow⟩
  · intro key
    obtain ⟨found, hfound, hread⟩ := hc.readAsOf_eq h.filed h.indexed serves key
    obtain ⟨found', hfound', hread'⟩ := hc'.readAsOf_eq h'.filed h'.indexed serves key
    obtain rfl := newestUpTo_unique h.filed.laid hagree.rows hfound hfound'
    rw [hread, hread', hagree.width, hagree.standingAt]

def cuedPut : List Step :=
  [.draw 0 [.put [1] 4], .land 0 52, .publish 0 0, .cueStart, .cueSwap, .cueSeal, .cuePeek, .cueHold]

def overwrite : List Step := [.draw 0 [.put [1] 4], .land 1 52, .publish 1 0]

theorem overwritten_cue_reads_on :
    ∃ d d', Runs.run step (start .varying 1) cuedPut = some d ∧ d.cue = .held 1 ∧
      Runs.run step d overwrite = some d' ∧
      (∀ id row, Holds d'.segments id row → row.lsn ≤ 1 → Holds (d.pending ++ d.noted) id row) ∧
      ∀ key, d'.readAsOf true key 1 = d.readAsOf true key 1 :=
  ⟨_, _, rfl, rfl, rfl, held_cue_sees_closed_history true .varying 1 1 cuedPut overwrite _ _
    (by decide) rfl rfl (by decide) rfl⟩

def cueAround (between : List Step) : List Step :=
  [.cueStart, .cueSwap, .cueSeal] ++ between ++ [.cuePeek, .cueHold]

/-- A number drawn behind the seal, a record still to be published, and a segment still at the sealer:
in each run a read at the held cue answers one way, and another way some steps of the writer or the
sealer later. -/
theorem held_cue_sees_its_history_move :
    (∃ d d', Runs.run step (start .varying 1) (cueAround [.draw 0 [.put [1] 4]]) = some d ∧
      d.cue = .held 1 ∧ d.readAsOf true [1] 1 = none ∧
      Runs.run step d [.land 0 52, .publish 0 0] = some d' ∧
      d'.readAsOf true [1] 1 = some ⟨⟨2, 52, 4⟩, 1⟩ ∧
      d'.active = [⟨2, [⟨[1], 1, 52, 4, .data⟩], 1⟩]) ∧
    (∃ d d', Runs.run step (start .varying 1)
        ([.draw 0 [.put [1] 4], .land 0 52, .publish 0 0, .draw 0 [.put [1] 4], .land 1 66] ++
          cueAround []) = some d ∧
      d.cue = .held 2 ∧ d.readAsOf true [1] 2 = some ⟨⟨1, 52, 4⟩, 1⟩ ∧
      Runs.run step d [.publish 1 0] = some d' ∧ d'.readAsOf true [1] 2 = some ⟨⟨1, 66, 4⟩, 2⟩) ∧
    ∃ d d' d'', Runs.run step (start .varying 1)
        ([.draw 0 [.put [1] 4], .land 0 52, .publish 0 0, .roll 0] ++ cueAround []) = some d ∧
      d.cue = .held 1 ∧ d.readAsOf true [1] 1 = some ⟨⟨1, 52, 4⟩, 1⟩ ∧
      Runs.run step d overwrite = some d' ∧ d'.readAsOf true [1] 1 = none ∧
      Runs.run step d' [.sealRetired 1] = some d'' ∧ d''.readAsOf true [1] 1 = some ⟨⟨1, 52, 4⟩, 1⟩ :=
  ⟨⟨_, _, rfl, rfl, by decide, rfl, by decide, by decide⟩,
    ⟨_, _, rfl, rfl, by decide, rfl, by decide⟩,
    ⟨_, _, _, rfl, rfl, by decide, rfl, by decide, rfl, by decide⟩⟩

end Deck

end Reel
