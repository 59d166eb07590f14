import Reel.Index.Keeps

/-!
Puts, deletes and range deletes keep a column sound.
-/

set_option autoImplicit false

namespace Reel
open Bytes StableSort List ColumnIndex

namespace Volume
variable {hash : Str → UInt64} {strict : Bool} {v : Volume}

/-- One record landed in a tail, and nothing else moved. -/
structure Lands (v : Volume) (tail : Nat) (row : Row) (landed : Volume) : Prop where
  placed : Sited landed.segments
  rows : ∀ {id : Nat} {other : Row}, Holds landed.segments id other ↔
    Holds v.segments id other ∨ id = tail ∧ other = row
  tails : ∀ segment ∈ landed.tails, segment ∈ v.tails ∨
    segment.id = tail ∧ ∃ held ∈ v.tails, segment = Segment.push held row
  rest : { landed with tails := v.tails } = v

variable {tail : Nat} {row : Row}

theorem land_lands {landed : Volume} (hplaced : Sited v.segments)
    (h : v.land tail row = some landed) : Lands v tail row landed := by
  unfold land at h
  cases hfind : v.tails.find? (·.id == tail) with
  | none => simp [hfind] at h
  | some segment =>
  simp only [hfind] at h
  split at h
  · cases h
  · rename_i hclash
    have hs : segment ∈ v.tails := mem_of_find?_eq_some hfind
    have hid : segment.id = tail := by simpa using find?_some hfind
    have hin : segment ∈ v.segments := mem_append_left _ (mem_append_left _ hs)
    cases h
    -- every segment after the write is one from before, the tail with one row more
    have htails : ∀ s' ∈ v.tails.map fun held => if held.id = tail then Segment.push held row else held,
        (s' ∈ v.tails ∧ s'.id ≠ tail) ∨ s' = Segment.push segment row := by
      intro s' hs'
      obtain ⟨s, hold, rfl⟩ := mem_map.mp hs'
      have hs'' : s ∈ v.segments := mem_append_left _ (mem_append_left _ hold)
      split
      · rename_i he
        exact .inr (by rw [hplaced.segment_eq hs'' hin (he.trans hid.symm)])
      · rename_i he
        exact .inl ⟨hold, he⟩
    have hback : ∀ s' ∈ (v.tails.map fun held => if held.id = tail then Segment.push held row else held)
        ++ v.pending ++ v.noted, (s' ∈ v.segments ∧ s'.id ≠ tail) ∨ s' = Segment.push segment row := by
      intro s' hs'
      have hnot : ∀ s, s ∈ v.pending ∨ s ∈ v.noted → s.id ≠ tail := by
        intro s hs' he
        have hids := hplaced.ids
        simp only [segments, append_assoc, map_append] at hids
        refine (nodup_append.mp hids).2.2 segment.id (mem_map_of_mem hs) s.id ?_
          (hid.trans he.symm)
        rcases hs' with hs' | hs'
        · exact mem_append_left _ (mem_map_of_mem hs')
        · exact mem_append_right _ (mem_map_of_mem hs')
      rcases mem_append.mp hs' with hs' | hs'
      · rcases mem_append.mp hs' with hs' | hs'
        · exact (htails s' hs').imp_left fun h =>
            ⟨mem_append_left _ (mem_append_left _ h.1), h.2⟩
        · exact .inl ⟨mem_append_left _ (mem_append_right _ hs'), hnot s' (.inl hs')⟩
      · exact .inl ⟨mem_append_right _ hs', hnot s' (.inr hs')⟩
    have hpushed : Segment.push segment row ∈
        (v.tails.map fun held => if held.id = tail then Segment.push held row else held)
          ++ v.pending ++ v.noted :=
      mem_append_left _ (mem_append_left _
        (mem_map.mpr ⟨segment, hs, by simp [hid]⟩))
    have hstay : ∀ s ∈ v.segments, s.id ≠ tail → s ∈
        (v.tails.map fun held => if held.id = tail then Segment.push held row else held)
          ++ v.pending ++ v.noted := by
      intro s hs' he
      simp only [segments, mem_append] at hs'
      rcases hs' with (hs' | hs') | hs'
      · exact mem_append_left _ (mem_append_left _
          (mem_map.mpr ⟨s, hs', by simp [he]⟩))
      · exact mem_append_left _ (mem_append_right _ hs')
      · exact mem_append_right _ hs'
    refine ⟨⟨?_, ?_, ?_, ?_⟩, ?_, ?_, rfl⟩
    · have hsame : ((v.tails.map fun held => if held.id = tail then Segment.push held row else held)
          ++ v.pending ++ v.noted).map Segment.id = v.segments.map Segment.id := by
        simp only [segments, map_append, map_map]
        congr 2
        refine map_congr_left fun s _ => ?_
        simp only [Function.comp_apply]
        split <;> rfl
      simp only [segments] at hsame ⊢
      rw [hsame]
      exact hplaced.ids
    · intro s' hs'
      rcases hback s' hs' with ⟨hold, -⟩ | rfl
      · exact hplaced.ids_pos s' hold
      · exact hplaced.ids_pos segment hin
    · intro s' hs'
      rcases hback s' hs' with ⟨hold, -⟩ | rfl
      · exact hplaced.offsets s' hold
      · simp only [Segment.push, map_append, map_cons, map_nil]
        refine nodup_append.mpr ⟨hplaced.offsets segment hin, by simp, ?_⟩
        rintro a ha b hb rfl
        obtain ⟨r, hr, rfl⟩ := mem_map.mp ha
        refine hclash (any_eq_true.mpr ⟨r, hr, ?_⟩)
        simpa using mem_singleton.mp hb
    · intro s' hs' r hr
      rcases hback s' hs' with ⟨hold, -⟩ | rfl
      · exact hplaced.ceiling s' hold r hr
      · rcases mem_append.mp hr with hr | hr
        · exact (hplaced.ceiling segment hin r hr).trans (le_max_left _ _)
        · rw [mem_singleton.mp hr]
          exact le_max_right _ _
    · intro id other
      constructor
      · rintro ⟨s', hs', rfl, hr⟩
        rcases hback s' hs' with ⟨hold, -⟩ | rfl
        · exact .inl ⟨s', hold, rfl, hr⟩
        · rcases mem_append.mp hr with hr | hr
          · exact .inl ⟨segment, hin, rfl, hr⟩
          · exact .inr ⟨hid, mem_singleton.mp hr⟩
      · rintro (⟨s, hs', rfl, hr⟩ | ⟨rfl, rfl⟩)
        · by_cases he : s.id = tail
          · obtain rfl := hplaced.segment_eq hs' hin (he.trans hid.symm)
            exact ⟨_, hpushed, rfl, mem_append_left _ hr⟩
          · exact ⟨s, hstay s hs' he, rfl, hr⟩
        · exact ⟨_, hpushed, hid, by simp [Segment.push]⟩
    · intro s' hs'
      rcases htails s' hs' with ⟨hold, -⟩ | rfl
      · exact .inl hold
      · exact .inr ⟨hid, segment, hs, rfl⟩

/-- One record landed in a tail under the next number, and nothing else moved. -/
structure Appends (v : Volume) (tail : Nat) (row : Row) (landed : Volume) : Prop where
  laid : Laid landed.segments landed.next
  rows : ∀ {id : Nat} {other : Row}, Holds landed.segments id other ↔
    Holds v.segments id other ∨ id = tail ∧ other = row
  index : landed.index = v.index
  spot : landed.spot = v.spot
  noted : landed.noted = v.noted
  held : landed.held = v.held
  handed : landed.handed = v.handed
  ranges : landed.ranges = v.ranges
  next : landed.next = v.next + 1

section
variable {landed : Volume}

theorem append_appends {row : Nat → Row} (hlaid : Laid v.segments v.next)
    (hlsn : (row v.next).lsn = v.next) (h : v.append tail row = some landed) :
    Appends v tail (row v.next) landed := by
  obtain ⟨down, hland, rfl⟩ := Option.map_eq_some_iff.mp h
  obtain ⟨hplaced, hrows, -, hrest⟩ := land_lands hlaid.toSited hland
  refine ⟨⟨hplaced, ?_, ?_⟩, hrows, ?_, ?_, ?_, ?_, ?_, ?_, rfl⟩
  · intro i j a b ha hb he
    rcases hrows.mp ha with ha' | ⟨hi, hra⟩
    · rcases hrows.mp hb with hb' | ⟨-, hrb⟩
      · exact hlaid.lsns ha' hb' he
      · have := hlaid.drawn ha'
        rw [he, hrb] at this
        omega
    · rcases hrows.mp hb with hb' | ⟨hj, hrb⟩
      · have := hlaid.drawn hb'
        rw [← he, hra] at this
        omega
      · exact ⟨hi.trans hj.symm, hra.trans hrb.symm⟩
  · intro id r hr
    rcases hrows.mp hr with hr | ⟨-, rfl⟩
    · exact (hlaid.drawn hr).trans (Nat.lt_succ_self _)
    · rw [hlsn]
      exact Nat.lt_succ_self _
  all_goals
    conv_rhs => rw [← hrest]

theorem Appends.newest (h : v.Sound hash strict)
    (ha : Appends v tail row landed) (hlsn : row.lsn = v.next) (hpoint : row.kind ≠ .rangeTombstone) :
    landed.Newest tail row := by
  refine ⟨ha.rows.mpr (.inr ⟨rfl, rfl⟩), hpoint, ?_⟩
  intro j other ho _ _
  rcases ha.rows.mp ho with ho | ⟨-, rfl⟩
  · exact hlsn ▸ (h.laid.drawn ho).le
  · exact le_refl _

theorem Appends.newest_other
    (ha : Appends v tail row landed) {id : Nat} {other : Row} (hk : other.key ≠ row.key) :
    landed.Newest id other ↔ v.Newest id other := by
  constructor
  · intro hn
    refine ⟨?_, hn.point, fun ho hp hk' => hn.newest (ha.rows.mpr (.inl ho)) hp hk'⟩
    rcases ha.rows.mp hn.holds with ho | ⟨-, rfl⟩
    · exact ho
    · exact absurd rfl hk
  · intro hn
    refine ⟨ha.rows.mpr (.inl hn.holds), hn.point, ?_⟩
    intro j late ho hp hk'
    rcases ha.rows.mp ho with ho | ⟨-, rfl⟩
    · exact hn.newest ho hp hk'
    · exact absurd hk'.symm hk

theorem Sound.write (h : v.Sound hash strict)
    (ha : Appends v tail row landed) (hlsn : row.lsn = v.next) (hpoint : row.kind ≠ .rangeTombstone)
    (hdata : row.kind = .data → v.index.width.accepts row.key = true) {index : ColumnIndex}
    {spot : SpotColumn} (hwidth : index.width = v.index.width)
    (hcovers : index.covers = v.index.covers)
    (hget : ∀ key, index.map.get key =
      if key = row.key ∧ v.index.width.accepts row.key = true then some (row.resident tail)
      else v.index.map.get key)
    (hf : Fades
      (fun slot => strict = true → ∀ {id : Nat} {other : Row}, Points hash slot id other →
        Holds v.noted id other → other.key = row.key)
      (fun slot => ∀ {id : Nat} {other : Row}, Points hash slot id other →
        Holds v.noted id other → other.key = row.key) v.spot.slots spot.slots)
    (hlive : ∀ slot ∈ spot.slots, slot.isDisplaced = false → ∀ {id : Nat} {other : Row},
      Points hash slot id other → Holds v.noted id other → other.kind = .data →
        other.key ≠ row.key)
    (howed : ∀ x ∈ spot.owed, x ∈ v.spot.owed ∨ x = (row.key, row.lsn))
    (hstale : spot.stale = v.spot.stale) :
    Sound hash strict { landed with index, spot } := by
  have hgrow : ∀ {id : Nat} {other : Row}, Holds v.segments id other →
      Holds landed.segments id other := fun ho => ha.rows.mpr (.inl ho)
  have hsegments : ∀ {id : Nat} {other : Row},
      Newest { landed with index, spot } id other ↔ landed.Newest id other := by
    refine Newest.of_points ?_
    intro _ _ _
    exact Iff.rfl
  have hnewest : ∀ {id : Nat} {other : Row}, other.key ≠ row.key →
      (Newest { landed with index, spot } id other ↔ v.Newest id other) :=
    fun hk => hsegments.trans (ha.newest_other hk)
  have hnoted : ∀ {id : Nat} {other : Row}, Holds landed.noted id other ↔ Holds v.noted id other := by
    intro id other
    rw [ha.noted]
  refine ⟨ha.laid, by simpa only [ha.held, ha.noted] using h.held, ?_, ?_, ?_, ?_, hf.distinct, ?_, ?_⟩
  · intro id other ho hd
    simp only [hwidth]
    rcases ha.rows.mp ho with ho | ⟨-, rfl⟩
    · exact h.accepted ho hd
    · exact hdata hd
  · intro key entry hg
    simp only [hget] at hg
    simp only [hwidth]
    split at hg
    · rename_i hk
      cases hg
      exact ⟨hk.1 ▸ hk.2, tail, row, hsegments.mpr (ha.newest h hlsn hpoint), hk.1.symm, rfl⟩
    · rename_i hk
      obtain ⟨hacc, id, other, hn, hko, he⟩ := h.mapped hg
      have hne : other.key ≠ row.key := fun he' => hk ⟨hko.symm.trans he', (hko.symm.trans he') ▸ hacc⟩
      exact ⟨hacc, id, other, (hnewest hne).mpr hn, hko, he⟩
  · intro id other hn hacc hg
    simp only [hwidth] at hacc
    simp only [hget] at hg
    have hne : other.key ≠ row.key := by
      intro he
      rw [if_pos ⟨he, he ▸ hacc⟩] at hg
      cases hg
    rw [if_neg fun hk => hne hk.1] at hg
    have hway := h.absent ((hnewest hne).mp hn) hacc hg
    cases hkind : other.kind with
    | rangeTombstone => exact absurd hkind hn.point
    | tombstone =>
      simp only [Found, hkind] at hway ⊢
      exact hnoted.mpr hway
    | data =>
      simp only [Found, hkind, hcovers] at hway ⊢
      refine hway.imp_right ?_
      rintro ⟨hin, slot, hslot, hp, hstrict⟩
      refine ⟨hnoted.mpr hin, ?_⟩
      rcases hf.kept slot hslot with hstay | ⟨hmark, hstay⟩ | hlose
      · exact ⟨slot, hstay, hp, hstrict⟩
      · exact ⟨slot.displaced, hstay, hp.displaced, fun hs => absurd (hmark hs hp hin) hne⟩
      · exact absurd (hlose hp hin) hne
  · intro slot hslot
    have hold : ∃ first ∈ v.spot.slots, slot = first ∨ slot = first.displaced := by
      rcases hf.old slot hslot with hin | ⟨first, hin, -, rfl⟩
      · exact ⟨slot, hin, .inl rfl⟩
      · exact ⟨first, hin, .inr rfl⟩
    obtain ⟨first, hin, hsame⟩ := hold
    obtain ⟨id, other, hp, hrow, hheld, hd, hnew⟩ := h.slots first hin
    have hp' : Points hash slot id other := by
      rcases hsame with rfl | rfl
      · exact hp
      · exact hp.displaced
    refine ⟨id, other, hp', hnoted.mpr hrow, by simpa only [ha.held] using hheld, hd, ?_⟩
    intro hdisp
    have hne := hlive slot hslot hdisp hp' hrow hd
    have hfirst : slot = first := by
      rcases hsame with rfl | rfl
      · rfl
      · cases hdisp
    obtain ⟨hn, hg⟩ := hnew (hfirst ▸ hdisp)
    refine ⟨(hnewest hne).mpr hn, ?_⟩
    simp only [hget, if_neg fun hk : other.key = row.key ∧ _ => hne hk.1]
    exact hg
  · refine ⟨by simpa only [hcovers] using h.covers.lsns, ?_, ?_, ?_⟩
    · intro cover hc
      simp only [hcovers] at hc
      have := h.covers.drawn cover hc
      simp only [ha.next]
      omega
    · intro cover hc
      simp only [hcovers] at hc
      simp only [hwidth]
      exact h.covers.low cover hc
    · intro cover hc
      simp only [hcovers] at hc
      exact h.covers.resumes cover hc
  · refine ⟨?_, ?_⟩
    · intro x hx
      rcases howed x hx with hx | rfl
      · exact Outdone.mono (fun _ ho => hgrow ho) (h.queues.owed x hx)
      · exact ⟨tail, row, ha.rows.mpr (.inr ⟨rfl, rfl⟩), hpoint, rfl, le_refl _⟩
    · intro stale hs
      simp only [hstale] at hs
      obtain ⟨id, other, hp, hrow, hk, hout⟩ := h.queues.stale stale hs
      exact ⟨id, other, hp, hnoted.mpr hrow, hk, Outdone.mono (fun _ ho => hgrow ho) hout⟩

end

/-- A displace marks unread only slots of the written key's own records. -/
def MarksOwn (hash : Str → UInt64) (v : Volume) (key : Str) (newer : Nat) : Prop :=
  ∀ slot ∈ slotMatches v.spot.slots (hash key),
    (slotMatches v.spot.slots (hash key)).length < settleAt → slot.isDisplaced = false →
      isOlder v.maxLsnOf newer slot = true →
        ∃ head, headIn v.segments key slot.segment slot.offset = .same head

theorem displace_verdict {landed : Volume} (ha : Appends v tail row landed)
    (cache : Cache) {slot : Slot} {id : Nat} {other : Row} (hp : Points hash slot id other)
    (hrow : Holds v.noted id other) (hd : other.kind = .data) :
    settleVerdict (recordsOf landed.segments cache) landed.maxLsnOf v.spot.slots (hash row.key)
        row.key v.next false slot =
      if !decide (settleAt ≤ (slotMatches v.spot.slots (hash row.key)).length) && slot.isDisplaced then
        .skip
      else if !decide (settleAt ≤ (slotMatches v.spot.slots (hash row.key)).length) &&
        isOlder v.maxLsnOf v.next slot then .unread
      else if other.key = row.key ∧ other.lsn < v.next then .older other.len else .skip := by
  have hmax : landed.maxLsnOf = v.maxLsnOf := by
    funext segment
    simp only [maxLsnOf, ha.noted]
  have hnoted : Holds landed.noted id other := by rwa [ha.noted]
  rw [settleVerdict, settleOne_eq ha.laid.toSited hp hnoted hd, hmax]
  simp only [Bool.false_and, Bool.false_eq_true, if_false, Bool.false_or]

section
variable (h : v.Sound hash strict) {landed : Volume} (ha : Appends v tail row landed)
  (cache : Cache)
include h ha cache

theorem displace_slots :
    (landed.spot.displace (landed.sources hash cache) row.key v.next).slots =
      v.spot.slots.filterMap (settledSlot (hash row.key)
        (settleVerdict (recordsOf landed.segments cache) landed.maxLsnOf v.spot.slots (hash row.key)
          row.key v.next false)) := by
  simp only [SpotColumn.displace, SpotColumn.takeSettled, ha.spot]
  exact settleVersions_slots h.distinct _ _ _ _ _ _

/-- A displace behind a write over an empty place: own slots are marked or taken, and `strict` asks
that no other be marked. -/
theorem displace_spec
    (hmarks : strict = true → v.MarksOwn hash row.key v.next) :
    Fades
      (fun slot => strict = true → ∀ {id : Nat} {other : Row}, Points hash slot id other →
        Holds v.noted id other → other.key = row.key)
      (fun slot => ∀ {id : Nat} {other : Row}, Points hash slot id other →
        Holds v.noted id other → other.key = row.key) v.spot.slots
      (landed.spot.displace (landed.sources hash cache) row.key v.next).slots ∧
    (∀ slot ∈ (landed.spot.displace (landed.sources hash cache) row.key v.next).slots,
      slot.isDisplaced = false → ∀ {id : Nat} {other : Row}, Points hash slot id other →
        Holds v.noted id other → other.kind = .data → other.key ≠ row.key) := by
  rw [displace_slots h ha cache]
  constructor
  · refine (settle_fades h.distinct (hash row.key) _).mono ?_ ?_
    · rintro slot hslot ⟨hh, hv⟩ hs id other hp hrow
      obtain ⟨id', other', hp', hrow', -, hd, -⟩ := h.slots slot hslot
      obtain ⟨rfl, rfl⟩ := hp.row_eq h.laid.toSited hp' (hrow.mono v.noted_subset)
        (hrow'.mono v.noted_subset)
      rw [displace_verdict ha cache hp hrow hd] at hv
      split at hv
      · cases hv
      · rename_i hfew
        split at hv
        · rename_i hold
          simp only [Bool.and_eq_true, Bool.not_eq_true', decide_eq_false_iff_not, Nat.not_le] at hold
          have hlive : slot.isDisplaced = false := by
            by_contra hno
            refine hfew ?_
            simp only [Bool.and_eq_true, Bool.not_eq_true', decide_eq_false_iff_not, Nat.not_le]
            exact ⟨hold.1, by simpa using hno⟩
          obtain ⟨head, hhead⟩ :=
            hmarks hs slot (mem_slotMatches.mpr ⟨hslot, hh⟩) hold.1 hlive hold.2
          rw [slot_head h.laid.toSited hp (hrow.mono v.noted_subset)] at hhead
          exact (headFor_same hhead).1
        · split at hv <;> cases hv
    · rintro slot hslot ⟨hh, hv⟩ id other hp hrow
      obtain ⟨id', other', hp', hrow', -, hd, -⟩ := h.slots slot hslot
      obtain ⟨rfl, rfl⟩ := hp.row_eq h.laid.toSited hp' (hrow.mono v.noted_subset)
        (hrow'.mono v.noted_subset)
      rw [displace_verdict ha cache hp hrow hd] at hv
      by_contra hno
      revert hv
      simp only [hno, false_and, if_false]
      split
      · simp [Verdict.isOlder]
      · split <;> simp [Verdict.isOlder]
  · intro slot hslot hlive id other hp hrow hd hk
    obtain ⟨first, hfirst, hs⟩ := mem_filterMap.mp hslot
    have hplace := settledSlot_place hs
    have hbits : first.holds (hash row.key) = true := by
      obtain ⟨id', other', hp', hrow', -, hd', -⟩ := h.slots first hfirst
      have : (id', other'.offset) = (id, other.offset) :=
        hp'.place.symm.trans (hplace.symm.trans hp.place)
      obtain ⟨rfl, hoff⟩ := Prod.mk.inj this
      have hsame := h.laid.row_eq (hrow'.mono v.noted_subset) (hrow.mono v.noted_subset) hoff
      rw [← hk, ← hsame]
      exact hp'.bits
    have hlt : other.lsn < v.next := h.laid.drawn (hrow.mono v.noted_subset)
    obtain ⟨id', other', hp', hrow', -, hd', -⟩ := h.slots first hfirst
    have hpl : (id', other'.offset) = (id, other.offset) :=
      hp'.place.symm.trans (hplace.symm.trans hp.place)
    obtain ⟨rfl, hoff⟩ := Prod.mk.inj hpl
    obtain rfl := h.laid.row_eq (hrow'.mono v.noted_subset) (hrow.mono v.noted_subset) hoff
    simp only [settledSlot, hbits, if_true, displace_verdict ha cache hp' hrow hd] at hs
    simp only [hk, hlt, and_self, if_true] at hs
    split at hs
    · cases hs
    · cases hs
    · cases hs
      cases hlive
    · rename_i hv
      split at hv
      · rename_i hdisp
        cases hs
        simp [hlive] at hdisp
      · split at hv <;> cases hv

end

theorem Sound.not_covered (h : v.Sound hash strict) (key : Str) :
    isCovered v.index.covers key v.next = false := by
  by_contra hno
  obtain ⟨cover, hc, hcov⟩ := (isCovered_iff _ _ _).mp (by simpa using hno)
  have hlt := ((cover.covers_iff _ _).mp hcov).1
  have := h.covers.drawn cover hc
  omega

variable {key : Str}

theorem Sound.mapped_lt (h : v.Sound hash strict) {entry : Entry}
    (hg : v.index.map.get key = some entry) : entry.lsn < v.next := by
  obtain ⟨-, id, row, hn, -, rfl⟩ := h.mapped hg
  rw [Row.resident_lsn]
  exact h.laid.drawn hn.holds

theorem Sound.not_shadowed (h : v.Sound hash strict) {landed : Volume}
    (ha : Appends v tail row landed) (cache : Cache) (key : Str) :
    landed.isShadowed (landed.sources hash cache) key v.next = false := by
  unfold isShadowed
  split
  · rfl
  · by_contra hno
    have hany : landed.spot.holdsNewer (landed.sources hash cache) key v.next = true := by
      simpa using hno
    obtain ⟨slot, hslot, htest⟩ := any_eq_true.mp hany
    have hin : slot ∈ v.spot.slots := ha.spot ▸ (mem_slotMatches.mp hslot).1
    obtain ⟨id, other, hp, hrow, -, -, -⟩ := h.slots slot hin
    obtain ⟨hseg, hoff⟩ := Prod.mk.inj hp.place
    have hold := hrow.mono v.noted_subset
    have hhead : headIn landed.segments key slot.segment slot.offset = other.headFor key := by
      rw [hseg, hoff]
      exact ha.laid.headIn_eq (ha.rows.mpr (.inl hold)) key
    rw [Bool.and_eq_true] at htest
    have htest := htest.2
    simp only [sources, recordsOf, hhead] at htest
    split at htest
    · rename_i head hh
      obtain ⟨-, -, rfl⟩ := headFor_same hh
      have := h.laid.drawn hold
      simp only [decide_eq_true_eq] at htest
      omega
    · cases htest

/-- What a landed put or delete of an accepted key makes of the index and the spot index. -/
theorem Sound.landed (h : v.Sound hash strict) {landed : Volume}
    (ha : Appends v tail row landed) (hlsn : row.lsn = v.next) (hpoint : row.kind ≠ .rangeTombstone)
    (hacc : v.index.width.accepts row.key = true) (cache : Cache)
    (hmarks : strict = true → v.index.map.get row.key = none → v.MarksOwn hash row.key v.next) :
    Sound hash strict
      { landed with
        index := v.index.setMap (v.index.map.put row.key (row.resident tail))
        spot := if v.index.map.get row.key = none then
            landed.spot.displace (landed.sources hash cache) row.key v.next
          else landed.spot } := by
  have hget : ∀ key, (v.index.map.put row.key (row.resident tail)).get key =
      if key = row.key ∧ v.index.width.accepts row.key = true then some (row.resident tail)
      else v.index.map.get key := by
    intro key
    rw [SortedMap.get_put]
    by_cases hk : key = row.key <;> simp [hk, hacc]
  by_cases hmap : v.index.map.get row.key = none
  · simp only [hmap, if_true]
    obtain ⟨hf, hlive⟩ := displace_spec h ha cache fun hs => hmarks hs hmap
    refine h.write ha hlsn hpoint (fun _ => hacc) rfl rfl hget hf (fun slot hs hd => hlive slot hs hd)
      ?_ ?_
    · intro x hx
      simp only [SpotColumn.displace, SpotColumn.takeSettled, ha.spot] at hx
      split at hx
      · rcases mem_append.mp hx with hx | hx
        · exact .inl hx
        · exact .inr (by rw [hlsn]; exact mem_singleton.mp hx)
      · exact .inl hx
    · simp only [SpotColumn.displace, SpotColumn.takeSettled, ha.spot]
  · simp only [hmap, if_false, ha.spot]
    refine h.write ha hlsn hpoint (fun _ => hacc) rfl rfl hget (Fades.refl _ _ h.distinct) ?_
      (fun _ h => .inl h) rfl
    intro slot hslot hd id other hp hrow _ hk
    obtain ⟨id', other', hp', hrow', -, -, hnew⟩ := h.slots slot hslot
    obtain ⟨rfl, rfl⟩ := hp.row_eq h.laid.toSited hp' (hrow.mono v.noted_subset) (hrow'.mono v.noted_subset)
    exact hmap (hk ▸ (hnew hd).2)

def foundAt (index : ColumnIndex) (key : Str) : Landed :=
  (index.map.get key).elim .nothing fun old => if old.isGrave then .grave else .record

section
variable (h : v.Sound hash strict) (hacc : v.index.width.accepts key = true)
include h hacc

theorem Sound.insertUnless_eq (loc : Loc) :
    v.index.insertUnless key ⟨loc, v.next⟩ false =
      (v.index.setMap (v.index.map.put key ⟨loc, v.next⟩), foundAt v.index key) := by
  simp only [insertUnless, foundAt, hacc, Bool.not_true, Bool.false_eq_true, if_false,
    h.not_covered]
  cases hg : v.index.map.get key with
  | none => rfl
  | some existing =>
    simp only [Nat.not_le.mpr (h.mapped_lt hg), if_false, Option.elim_some]
    split <;> rfl

theorem Sound.removeUnless_eq (tombstone : Nat) :
    v.index.removeUnless key v.next tombstone false =
      (v.index.setMap (v.index.map.put key (.graveFrom v.next tombstone)), foundAt v.index key) := by
  simp only [removeUnless, foundAt, hacc, Bool.not_true, Bool.false_eq_true, if_false]
  cases hg : v.index.map.get key with
  | none => rfl
  | some existing =>
    simp only [Nat.not_le.mpr (h.mapped_lt hg), if_false, Option.elim_some]
    split <;> rfl

end

theorem mayBePaged_foundAt (index : ColumnIndex) (key : Str) :
    (foundAt index key).mayBePaged = (index.map.get key).isNone := by
  cases hg : index.map.get key with
  | none => simp [foundAt, hg, Landed.mayBePaged]
  | some old => cases hold : old.isGrave <;> simp [foundAt, hg, hold, Landed.mayBePaged]

section
variable (h : v.Sound hash strict) {landed : Volume} (ha : Appends v tail row landed)
  (hacc : v.index.width.accepts key = true)
include h ha hacc

theorem Sound.insert_eq (loc : Loc)
    (cache : Cache) :
    landed.insert (landed.sources hash cache) key loc v.next =
      { landed with
        index := v.index.setMap (v.index.map.put key ⟨loc, v.next⟩)
        spot := if v.index.map.get key = none then
            landed.spot.displace (landed.sources hash cache) key v.next
          else landed.spot } := by
  simp only [Volume.insert, ha.index, h.not_shadowed ha, h.insertUnless_eq hacc, settleDisplaced,
    mayBePaged_foundAt]
  cases hg : v.index.map.get key <;> rfl

theorem Sound.remove_eq (tombstone : Nat)
    (cache : Cache) :
    landed.remove (landed.sources hash cache) key v.next tombstone =
      { landed with
        index := v.index.setMap (v.index.map.put key (.graveFrom v.next tombstone))
        spot := if v.index.map.get key = none then
            landed.spot.displace (landed.sources hash cache) key v.next
          else landed.spot } := by
  simp only [Volume.remove, ha.index, h.not_shadowed ha, h.removeUnless_eq hacc, settleDisplaced,
    mayBePaged_foundAt]
  cases hg : v.index.map.get key <;> rfl

end

theorem remove_refused {landed : Volume} (ha : Appends v tail row landed)
    (hacc : ¬ v.index.width.accepts key = true) (src : Sources) (lsn tombstone : Nat) :
    landed.remove src key lsn tombstone = { landed with index := v.index, spot := v.spot } := by
  simp only [Volume.remove, removeUnless, ha.index, hacc, Bool.not_false, if_true,
    settleDisplaced, Landed.mayBePaged, ← ha.spot]
  rfl

theorem Sound.put (h : v.Sound hash strict) {landed : Volume} {offset len : Nat}
    {cache : Cache} (hacc : v.index.width.accepts key = true)
    (hmarks : strict = true → v.index.map.get key = none → v.MarksOwn hash key v.next)
    (happ : v.append tail (fun lsn => ⟨key, lsn, offset, len, .data⟩) = some landed) :
    Sound hash strict
      (landed.insert (landed.sources hash cache) key ⟨tail, offset, len⟩ v.next) := by
  have ha := append_appends h.laid rfl happ
  rw [h.insert_eq ha hacc]
  exact h.landed ha rfl (by simp) hacc cache hmarks

theorem Sound.delete (h : v.Sound hash strict) {landed : Volume} {offset : Nat}
    {cache : Cache}
    (hmarks : strict = true → v.index.width.accepts key = true → v.index.map.get key = none →
      v.MarksOwn hash key v.next)
    (happ : v.append tail (fun lsn => ⟨key, lsn, offset, 0, .tombstone⟩) = some landed) :
    Sound hash strict (landed.remove (landed.sources hash cache) key v.next tail) := by
  have ha := append_appends h.laid rfl happ
  by_cases hacc : v.index.width.accepts key = true
  · rw [h.remove_eq ha hacc]
    exact h.landed ha rfl (by simp) hacc cache fun hs => hmarks hs hacc
  · rw [remove_refused ha hacc]
    refine h.write ha rfl (by simp) (by simp) rfl rfl ?_ (Fades.refl _ _ h.distinct) ?_
      (fun _ h => .inl h) rfl
    · intro k
      rw [if_neg fun hk => hacc hk.2]
    · intro slot _ _ id other _ hrow hd hk
      have hother := h.accepted (hrow.mono v.noted_subset) hd
      rw [hk] at hother
      exact hacc hother

theorem isCovered_pushCover {covers : List (Covered Str)} {low : Str} {high : Option Str} {lsn : Nat}
    {below : Nat} (h : isCovered covers key below = true) :
    isCovered (pushCover covers low high lsn) key below = true := by
  obtain ⟨cover, hc, hcov⟩ := (isCovered_iff _ _ _).mp h
  exact (isCovered_iff _ _ _).mpr ⟨cover, mem_pushCover.mpr (.inl hc), hcov⟩

theorem Sound.pushCover_eq (h : v.Sound hash strict) (low : Str) (high : Option Str) :
    pushCover v.index.covers low high v.next =
      v.index.covers ++ [⟨low, high, v.next, .release low⟩] := by
  unfold pushCover
  rw [if_neg]
  intro hany
  obtain ⟨cover, hc, hl⟩ := any_eq_true.mp hany
  have := h.covers.drawn cover hc
  simp only [beq_iff_eq] at hl
  omega

theorem Sound.deleteRange (h : v.Sound hash strict) {landed : Volume} {offset : Nat}
    {start : Str} {fin : Option Str}
    (happ : v.append tail
      (fun lsn => ⟨start, lsn, offset, (fin.getD []).length, .rangeTombstone⟩) = some landed) :
    Sound hash strict
      { landed with
        index := landed.index.removeRange start fin v.next
        ranges := landed.ranges ++ [⟨start, fin, v.next⟩] } := by
  have ha := append_appends h.laid rfl happ
  have hpoint : ∀ {id : Nat} {row : Row}, row.kind ≠ .rangeTombstone →
      (Holds landed.segments id row ↔ Holds v.segments id row) := by
    intro id row hp
    rw [ha.rows]
    constructor
    · rintro (ho | ⟨-, rfl⟩)
      · exact ho
      · exact absurd rfl hp
    · exact .inl
  have hpush := h.pushCover_eq (v.index.width.lowBound start) (fin.map v.index.width.lowBound)
  refine h.quiet ⟨ha.laid, by simpa only [ha.held, ha.noted] using h.held, ?_, hpoint, ?_, ?_, ?_, ?_,
    ?_, ?_, ?_, ?_⟩
  · simp only [removeRange, ha.index]
  · intro id row hrow
    simpa only [ha.noted] using hrow
  · intro id row _ hout
    simpa only [ha.held] using hout
  · intro id row _ _ hcov
    simp only [removeRange, ha.index]
    exact isCovered_pushCover hcov
  · intro key entry hg
    simpa only [removeRange, ha.index] using hg
  · intro id row _ hbefore hafter
    simp only [removeRange, ha.index, hbefore] at hafter
    cases hafter
  · simp only [ha.spot]
    exact Fades.refl _ _ h.distinct
  · simp only [removeRange, ha.index, hpush, ha.next]
    refine ⟨?_, ?_, ?_, ?_⟩
    · simp only [map_append, map_cons, map_nil]
      refine nodup_append.mpr ⟨h.covers.lsns, by simp, ?_⟩
      rintro a ha' b hb rfl
      obtain ⟨cover, hc, rfl⟩ := mem_map.mp ha'
      have := h.covers.drawn cover hc
      have := mem_singleton.mp hb
      omega
    · intro cover hc
      rcases mem_append.mp hc with hc | hc
      · exact (h.covers.drawn cover hc).trans (Nat.lt_succ_self _)
      · rw [mem_singleton.mp hc]
        exact Nat.lt_succ_self _
    · intro cover hc
      rcases mem_append.mp hc with hc | hc
      · exact h.covers.low cover hc
      · rw [mem_singleton.mp hc]
        exact KeyWidth.lowBound_lowBound _ _
    · intro cover hc
      rcases mem_append.mp hc with hc | hc
      · exact h.covers.resumes cover hc
      · rw [mem_singleton.mp hc]
        exact le_refl _
  · refine h.queues.mono (fun hp => (hpoint hp).mpr) ?_ ?_ ?_
    · intro id row hrow
      simpa only [ha.noted] using hrow
    · simp only [ha.spot]
      exact fun _ h => h
    · simp only [ha.spot]
      exact fun _ h => h

end Volume

end Reel
