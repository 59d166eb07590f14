import Reel.Cue.Deck

/-!
What every step of a deck keeps: one place and one number for each record, numbers in flight that no
other writer holds, and an index that has a word, or a cover, for every record whose writer is done.
-/

set_option autoImplicit false

namespace Reel
open Bytes StableSort List

def Writer.lsns : Writer → List Nat
  | .drawn _ first ops => range' first ops.length
  | .landed _ owed => owed.map fun x => x.2.lsn

def Writer.ops : Writer → List KeyOp
  | .drawn _ _ ops => ops
  | .landed _ owed => owed.map Prod.fst

@[simp] theorem KeyOp.row_lsn (op : KeyOp) (lsn offset : Nat) : (op.row lsn offset).lsn = lsn := by
  cases op <;> rfl

@[simp] theorem KeyOp.row_offset (op : KeyOp) (lsn offset : Nat) :
    (op.row lsn offset).offset = offset := by
  cases op <;> rfl

theorem KeyOp.range_of_kind {op : KeyOp} {row : Row} {lsn offset : Nat} (h : row = op.row lsn offset)
    (hkind : row.kind = .rangeTombstone) : ∃ start fin, op = .range start fin := by
  cases op with
  | put key len => rw [h] at hkind; cases hkind
  | delete key => rw [h] at hkind; cases hkind
  | range start fin => exact ⟨start, fin, rfl⟩

theorem mem_rowsOf {first base : Nat} {ops : List KeyOp} {x : KeyOp × Row} (h : x ∈ Deck.rowsOf first base ops) :
    x.1 ∈ ops ∧ x.2 = x.1.row x.2.lsn x.2.offset ∧ base ≤ x.2.offset := by
  induction ops generalizing first base with
  | nil => cases h
  | cons op ops ih =>
    rcases mem_cons.mp h with rfl | h
    · simp
    · obtain ⟨hin, hrow, hbase⟩ := ih h
      exact ⟨mem_cons_of_mem _ hin, hrow, by omega⟩

theorem rowsOf_lsns (first base : Nat) (ops : List KeyOp) :
    (Deck.rowsOf first base ops).map (fun x => x.2.lsn) = range' first ops.length := by
  induction ops generalizing first base with
  | nil => rfl
  | cons op ops ih => simp [Deck.rowsOf, ih, range'_succ]

theorem rowsOf_offsets (first base : Nat) (ops : List KeyOp) :
    ((Deck.rowsOf first base ops).map fun x => x.2.offset).Nodup := by
  induction ops generalizing first base with
  | nil => exact nodup_nil
  | cons op ops ih =>
    refine nodup_cons.mpr ⟨fun hin => ?_, ih _ _⟩
    obtain ⟨x, hx, heq⟩ := mem_map.mp hin
    have hlater := (mem_rowsOf hx).2.2
    have hspan := spanOf_pos (op.row first base).key.length (op.row first base).len
    have hoffset : x.2.offset = base := heq.trans (op.row_offset first base)
    omega

theorem le_foldl_max (lsns : List Nat) (top : Nat) :
    top ≤ lsns.foldl max top ∧ ∀ lsn ∈ lsns, lsn ≤ lsns.foldl max top := by
  induction lsns generalizing top with
  | nil => simp
  | cons lsn lsns ih =>
    obtain ⟨htop, hall⟩ := ih (max top lsn)
    refine ⟨(le_max_left _ _).trans htop, ?_⟩
    intro other ho
    rcases mem_cons.mp ho with rfl | ho
    · exact (le_max_right _ _).trans htop
    · exact hall other ho

section
variable {segment : Segment} {rest : List Segment} {rows : List Row}

theorem holds_pushAll {id : Nat} {row : Row} :
    Holds (Deck.pushAll segment rows :: rest) id row ↔
      Holds (segment :: rest) id row ∨ id = segment.id ∧ row ∈ rows := by
  constructor
  · rintro ⟨held, hheld, rfl, hrow⟩
    rcases mem_cons.mp hheld with rfl | hheld
    · rcases mem_append.mp hrow with hrow | hrow
      · exact .inl ⟨segment, mem_cons_self, rfl, hrow⟩
      · exact .inr ⟨rfl, hrow⟩
    · exact .inl ⟨held, mem_cons_of_mem _ hheld, rfl, hrow⟩
  · rintro (⟨held, hheld, rfl, hrow⟩ | ⟨rfl, hrow⟩)
    · rcases mem_cons.mp hheld with rfl | hheld
      · exact ⟨_, mem_cons_self, rfl, mem_append_left _ hrow⟩
      · exact ⟨held, mem_cons_of_mem _ hheld, rfl, hrow⟩
    · exact ⟨_, mem_cons_self, rfl, mem_append_right _ hrow⟩

theorem Laid.pushAll {next : Nat}
    (h : Laid (segment :: rest) next) (hoffsets : ((segment.rows ++ rows).map Row.offset).Nodup)
    (hlsns : (rows.map Row.lsn).Nodup)
    (hnew : ∀ row ∈ rows, row.lsn < next ∧ ∀ id held, Holds (segment :: rest) id held → held.lsn ≠ row.lsn) :
    Laid (Deck.pushAll segment rows :: rest) next where
  ids := h.ids
  ids_pos := by
    intro held hheld
    rcases mem_cons.mp hheld with rfl | hheld
    · exact h.ids_pos segment mem_cons_self
    · exact h.ids_pos held (mem_cons_of_mem _ hheld)
  offsets := by
    intro held hheld
    rcases mem_cons.mp hheld with rfl | hheld
    · exact hoffsets
    · exact h.offsets held (mem_cons_of_mem _ hheld)
  ceiling := by
    intro held hheld row hrow
    rcases mem_cons.mp hheld with rfl | hheld
    · obtain ⟨htop, hall⟩ := le_foldl_max (rows.map Row.lsn) segment.maxLsn
      rcases mem_append.mp hrow with hrow | hrow
      · exact (h.ceiling segment mem_cons_self row hrow).trans htop
      · exact hall row.lsn (mem_map_of_mem hrow)
    · exact h.ceiling held (mem_cons_of_mem _ hheld) row hrow
  lsns := by
    intro i j a b ha hb hlsn
    rcases holds_pushAll.mp ha with hold | ⟨rfl, hrow⟩ <;>
      rcases holds_pushAll.mp hb with hold' | ⟨rfl, hrow'⟩
    · exact h.lsns hold hold' hlsn
    · exact absurd hlsn ((hnew b hrow').2 i a hold)
    · exact absurd hlsn.symm ((hnew a hrow).2 j b hold')
    · exact ⟨rfl, inj_on_of_nodup_map hlsns hrow hrow' hlsn⟩
  drawn := by
    intro id row hrow
    rcases holds_pushAll.mp hrow with hrow | ⟨-, hrow⟩
    · exact h.drawn hrow
    · exact (hnew row hrow).1

end

def KeyOp.Fits (width : KeyWidth) : KeyOp → Prop
  | .range start fin => Volume.EndFits width fin ∧ ∀ top ∈ fin, start < top
  | .put .. | .delete _ => True

namespace Deck
variable {d d' : Deck}

def inFlight (d : Deck) : List Nat := d.writers.flatMap Writer.lsns

structure Filed (d : Deck) : Prop where
  laid : Laid d.segments d.next
  begun : 0 < d.next
  unused : 0 < d.fresh
  fresh : ∀ segment ∈ d.segments, segment.id < d.fresh
  nodup : d.inFlight.Nodup
  drawn : ∀ lsn ∈ d.inFlight, lsn < d.next
  unwritten : ∀ {tail first : Nat} {ops : List KeyOp}, .drawn tail first ops ∈ d.writers →
    ∀ {id : Nat} {row : Row}, Holds d.segments id row → row.lsn ∉ range' first ops.length
  owed : ∀ {segment : Nat} {owed : List (KeyOp × Row)}, .landed segment owed ∈ d.writers →
    ∀ x ∈ owed, Holds d.segments segment x.2 ∧ x.2 = x.1.row x.2.lsn x.2.offset
  fits : ∀ w ∈ d.writers, ∀ op ∈ w.ops, op.Fits d.index.width

/-- What the index says of the records whose writers are done. -/
structure Indexed (d : Deck) : Prop where
  mapped : ∀ {key : Str} {entry : Entry}, d.index.map.get key = some entry →
    d.index.width.accepts key = true ∧ ∃ id row, Holds d.segments id row ∧ row.key = key ∧
      row.kind ≠ .rangeTombstone ∧ entry = row.resident id
  published : ∀ {id : Nat} {row : Row}, Holds d.segments id row → row.kind ≠ .rangeTombstone →
    d.index.width.accepts row.key = true → row.lsn ∉ d.inFlight →
    (∃ entry, d.index.map.get row.key = some entry ∧ row.lsn ≤ entry.lsn) ∨
      isCovered d.index.covers row.key row.lsn = true
  ranged : ∀ {id : Nat} {row : Row}, Holds d.segments id row → row.kind = .rangeTombstone →
    d.index.width.accepts row.key = true → row.lsn ∉ d.inFlight →
    ∃ cover ∈ d.index.covers, cover.lsn = row.lsn ∧ cover.low ≤ row.key ∧
      ∀ high ∈ cover.high, row.key < high
  covers : ∀ cover ∈ d.index.covers, ∃ id row, Holds d.segments id row ∧ row.lsn = cover.lsn ∧
    row.lsn ∉ d.inFlight

/-- The segments are laid out anew over the same records, and the index and the writers stay. -/
structure Relays (d d' : Deck) : Prop where
  laid : Laid d'.segments d'.next
  unused : 0 < d'.fresh
  fresh : ∀ segment ∈ d'.segments, segment.id < d'.fresh
  rows : ∀ {id : Nat} {row : Row}, Holds d'.segments id row ↔ Holds d.segments id row
  index : d'.index = d.index
  next : d'.next = d.next
  writers : d'.writers = d.writers

theorem Relays.inFlight (hr : Relays d d') : d'.inFlight = d.inFlight := by
  unfold Deck.inFlight
  rw [hr.writers]

theorem Filed.relay (h : d.Filed) (hr : Relays d d') : d'.Filed where
  laid := hr.laid
  begun := hr.next ▸ h.begun
  unused := hr.unused
  fresh := hr.fresh
  nodup := hr.inFlight ▸ h.nodup
  drawn := by
    rw [hr.inFlight, hr.next]
    exact h.drawn
  unwritten := by
    intro tail first ops hw id row hrow
    rw [hr.writers] at hw
    exact h.unwritten hw (hr.rows.mp hrow)
  owed := by
    intro segment owed hw x hx
    rw [hr.writers] at hw
    exact (h.owed hw x hx).imp_left hr.rows.mpr
  fits := by
    rw [hr.writers, hr.index]
    exact h.fits

theorem Indexed.relay (h : d.Indexed) (hr : Relays d d') : d'.Indexed where
  mapped := by
    intro key entry hg
    rw [hr.index] at hg ⊢
    obtain ⟨hacc, id, row, hrow, rest⟩ := h.mapped hg
    exact ⟨hacc, id, row, hr.rows.mpr hrow, rest⟩
  published := by
    intro id row hrow hpoint hacc hout
    rw [hr.index] at hacc ⊢
    exact h.published (hr.rows.mp hrow) hpoint hacc (hr.inFlight ▸ hout)
  ranged := by
    intro id row hrow hrange hacc hout
    rw [hr.index] at hacc ⊢
    exact h.ranged (hr.rows.mp hrow) hrange hacc (hr.inFlight ▸ hout)
  covers := by
    intro cover hc
    rw [hr.index] at hc
    obtain ⟨id, row, hrow, hlsn, hout⟩ := h.covers cover hc
    exact ⟨id, row, hr.rows.mpr hrow, hlsn, hr.inFlight ▸ hout⟩

def others (d : Deck) (tail : Nat) : List Segment :=
  d.active.eraseIdx tail ++ d.retired ++ d.pending ++ d.noted

variable {tail : Nat}

theorem segments_perm_of_active {segment : Segment} (h : d.active[tail]? = some segment) :
    d.segments.Perm (segment :: d.others tail) := by
  obtain ⟨hlt, rfl⟩ := List.getElem?_eq_some_iff.mp h
  have hperm := (getElem_cons_eraseIdx_perm hlt).symm
  unfold segments others
  simp only [← cons_append]
  exact ((hperm.append_right _).append_right _).append_right _

theorem set_active_perm (hlt : tail < d.active.length) (segment : Segment) :
    (d.active.set tail segment ++ d.retired ++ d.pending ++ d.noted).Perm
      (segment :: d.others tail) := by
  have hperm := set_perm_cons_eraseIdx hlt segment
  unfold others
  simp only [← cons_append]
  exact ((hperm.append_right _).append_right _).append_right _

theorem Filed.swapInFresh (h : d.Filed) (hs : d.swapInFresh tail = some d') :
    Relays d d' := by
  obtain ⟨retiring, hactive, rfl⟩ := Option.map_eq_some_iff.mp hs
  obtain ⟨hlt, -⟩ := List.getElem?_eq_some_iff.mp hactive
  have hperm : Deck.segments { d with
      active := d.active.set tail ⟨d.fresh, [], 0⟩
      retired := d.retired ++ [retiring]
      fresh := d.fresh + 1 } |>.Perm (⟨d.fresh, [], 0⟩ :: d.segments) := by
    have hset := set_perm_cons_eraseIdx hlt (⟨d.fresh, [], 0⟩ : Segment)
    have hback : (d.active.eraseIdx tail ++ (d.retired ++ [retiring]) ++ d.pending ++ d.noted).Perm
        (retiring :: d.others tail) := by
      simp only [others, append_assoc, singleton_append]
      exact (List.Perm.append_left _ perm_middle).trans perm_middle
    refine (((hset.append_right _).append_right _).append_right _).trans ?_
    exact List.Perm.cons _ (hback.trans (segments_perm_of_active hactive).symm)
  have hfresh : ∀ segment ∈ d.segments, segment.id ≠ d.fresh := fun segment hin =>
    (h.fresh segment hin).ne
  have hrows : ∀ {id : Nat} {row : Row}, Holds (⟨d.fresh, [], 0⟩ :: d.segments) id row ↔
      Holds d.segments id row := by
    intro id row
    refine ⟨?_, fun hrow => hrow.mono (subset_cons_self _ _)⟩
    rintro ⟨segment, hin, hid, hrow⟩
    rcases mem_cons.mp hin with rfl | hin
    · cases hrow
    · exact ⟨segment, hin, hid, hrow⟩
  refine ⟨Laid.perm ⟨h.laid.toSited.cons h.unused.ne' hfresh, ?_, ?_⟩ hperm, Nat.succ_pos _, ?_, ?_,
    rfl, rfl, rfl⟩
  · intro i j a b ha hb
    exact h.laid.lsns (hrows.mp ha) (hrows.mp hb)
  · intro id row hrow
    exact h.laid.drawn (hrows.mp hrow)
  · intro segment hin
    rcases mem_cons.mp (hperm.subset hin) with rfl | hin
    · exact Nat.lt_succ_self _
    · exact (h.fresh segment hin).trans (Nat.lt_succ_self _)
  · exact (Holds.perm hperm).trans hrows

theorem filter_append_perm (retired pending : List Segment) (segment : Nat) :
    (retired.filter (fun held => held.id ≠ segment) ++ (pending ++ retired.filter fun held =>
      held.id = segment)).Perm (retired ++ pending) := by
  have hsplit := List.filter_append_perm (fun held : Segment => decide (held.id = segment)) retired
  simp only [← append_assoc]
  refine perm_append_comm.trans ?_
  rw [← append_assoc]
  refine List.Perm.append_right _ ?_
  simpa [decide_not] using hsplit

theorem Filed.sealSegment (h : d.Filed) (segment : Nat) : Relays d (d.sealSegment segment) := by
  have hperm : (d.sealSegment segment).segments.Perm d.segments := by
    have hmove := filter_append_perm d.retired d.pending segment
    simp only [segments, Deck.sealSegment, append_assoc]
    refine List.Perm.append_left _ ?_
    simp only [← append_assoc]
    refine List.Perm.append_right _ ?_
    simpa only [append_assoc] using hmove
  exact ⟨h.laid.perm hperm, h.unused, fun held hin => h.fresh held (hperm.subset hin),
    Holds.perm hperm, rfl, rfl, rfl⟩

theorem Filed.settleSealed (h : d.Filed) : Relays d d.settleSealed := by
  have hrows : ∀ {id : Nat} {row : Row}, Holds d.settleSealed.segments id row ↔
      Holds d.segments id row := by
    intro id row
    constructor
    · refine Holds.mono fun segment hin => ?_
      simp only [segments, Deck.settleSealed, mem_append, mem_filter, not_mem_nil,
        or_false] at hin ⊢
      tauto
    · rintro ⟨segment, hin, hid, hrow⟩
      refine ⟨segment, ?_, hid, hrow⟩
      have hne : (!segment.rows.isEmpty) = true := by
        cases hrows : segment.rows with
        | nil => simp [hrows] at hrow
        | cons first rest => rfl
      simp only [segments, Deck.settleSealed, mem_append, mem_filter, not_mem_nil,
        or_false] at hin ⊢
      tauto
  have hsub : (d.active ++ d.retired ++ (d.pending.filter fun segment => !segment.rows.isEmpty) ++
      d.noted).Sublist d.segments :=
    (List.Sublist.append (List.Sublist.refl _) filter_sublist).append (List.Sublist.refl _)
  have hperm : d.settleSealed.segments.Perm (d.active ++ d.retired ++
      (d.pending.filter fun segment => !segment.rows.isEmpty) ++ d.noted) := by
    simp only [segments, Deck.settleSealed, append_nil, append_assoc]
    exact List.Perm.append_left _ (List.Perm.append_left _ perm_append_comm)
  exact ⟨(h.laid.sublist hsub).perm hperm, h.unused,
    fun held hin => h.fresh held (hsub.subset (hperm.subset hin)), hrows, rfl, rfl, rfl⟩

variable {writer : Nat}

theorem flatMap_set {writers : List Writer} {w : Writer} (h : writers[writer]? = some w)
    (w' : Writer) :
    writers.flatMap Writer.lsns =
        (writers.take writer).flatMap Writer.lsns ++ (w.lsns ++ (writers.drop (writer + 1)).flatMap Writer.lsns) ∧
      (writers.set writer w').flatMap Writer.lsns =
        (writers.take writer).flatMap Writer.lsns ++ (w'.lsns ++ (writers.drop (writer + 1)).flatMap Writer.lsns) := by
  obtain ⟨hlt, hw⟩ := List.getElem?_eq_some_iff.mp h
  constructor
  · conv_lhs => rw [← take_append_drop writer writers, ← cons_getElem_drop_succ (h := hlt), hw]
    simp
  · rw [set_eq_take_append_cons_drop, if_pos hlt]
    simp

theorem Filed.draw (h : d.Filed) (tail : Nat) {ops : List KeyOp}
    (hfits : ∀ op ∈ ops, op.Fits d.index.width) :
    Filed { d with
      next := d.next + ops.length
      writers := d.writers ++ [.drawn tail d.next ops] } := by
  have hflight : Deck.inFlight { d with
      next := d.next + ops.length
      writers := d.writers ++ [.drawn tail d.next ops] } = d.inFlight ++ range' d.next ops.length := by
    simp [inFlight, Writer.lsns]
  refine ⟨⟨h.laid.toSited, h.laid.lsns, fun hrow => (h.laid.drawn hrow).trans_le (Nat.le_add_right _ _)⟩,
    h.begun.trans_le (Nat.le_add_right _ _), h.unused, h.fresh, ?_, ?_, ?_, ?_, ?_⟩
  · rw [hflight, nodup_append]
    refine ⟨h.nodup, nodup_range', fun a ha b hb => ?_⟩
    have hlt := h.drawn a ha
    have hle := (mem_range'_1.mp hb).1
    omega
  · intro lsn hin
    rw [hflight, mem_append] at hin
    rcases hin with hin | hin
    · exact (h.drawn lsn hin).trans_le (Nat.le_add_right _ _)
    · exact (mem_range'_1.mp hin).2
  · intro tail' first ops' hw id row hrow
    rcases mem_append.mp hw with hw | hw
    · exact h.unwritten hw hrow
    · cases mem_singleton.mp hw
      intro hin
      have hlt := h.laid.drawn hrow
      have hle := (mem_range'_1.mp hin).1
      omega
  · intro segment owed hw
    rcases mem_append.mp hw with hw | hw
    · exact h.owed hw
    · cases mem_singleton.mp hw
  · intro w hw
    rcases mem_append.mp hw with hw | hw
    · exact h.fits w hw
    · rw [mem_singleton.mp hw]
      exact hfits

theorem inFlight_eraseIdx (writers : List Writer) (writer : Nat) :
    ((writers.eraseIdx writer).flatMap Writer.lsns).Sublist (writers.flatMap Writer.lsns) :=
  (eraseIdx_sublist writers writer).flatMap _

theorem Filed.fail (h : d.Filed) (writer : Nat) :
    Filed { d with writers := d.writers.eraseIdx writer } := by
  have hsub := inFlight_eraseIdx d.writers writer
  have hw : ∀ w ∈ d.writers.eraseIdx writer, w ∈ d.writers := fun w hw =>
    (eraseIdx_sublist d.writers writer).subset hw
  exact ⟨h.laid, h.begun, h.unused, h.fresh, h.nodup.sublist hsub,
    fun lsn hin => h.drawn lsn (hsub.subset hin), fun hin => h.unwritten (hw _ hin),
    fun hin => h.owed (hw _ hin), fun w hin => h.fits w (hw w hin)⟩

theorem land_spec {base : Nat} (h : d.land writer base = some d') :
    ∃ tail first ops segment, d.writers[writer]? = some (.drawn tail first ops) ∧
      d.active[tail]? = some segment ∧ (∀ row ∈ segment.rows, row.offset < base) ∧
      d' = { d with
        active := d.active.set tail (pushAll segment ((rowsOf first base ops).map Prod.snd))
        writers := d.writers.set writer (.landed segment.id (rowsOf first base ops)) } := by
  unfold Deck.land at h
  split at h
  · rename_i tail first ops hw
    obtain ⟨segment, hactive, hif⟩ := Option.bind_eq_some_iff.mp h
    split at hif
    · rename_i hbelow
      refine ⟨tail, first, ops, segment, hw, hactive, ?_, (Option.some.inj hif).symm⟩
      simpa using hbelow
    · cases hif
  · cases h

theorem publish_spec {record : Nat} (h : d.publish writer record = some d') :
    ∃ segment owed op row, d.writers[writer]? = some (.landed segment owed) ∧
      owed[record]? = some (op, row) ∧
      d' = { d with
        index := d.index.publish segment op row
        writers := d.writers.set writer (.landed segment (owed.eraseIdx record)) } := by
  unfold Deck.publish at h
  split at h
  · rename_i segment owed hw
    obtain ⟨⟨op, row⟩, hx, rfl⟩ := Option.map_eq_some_iff.mp h
    exact ⟨segment, owed, op, row, hw, hx, rfl⟩
  · cases h

/-- What a landing adds to the records, all under numbers still in flight. -/
structure Lands (d d' : Deck) (segment : Nat) (batch : List Row) : Prop where
  rows : ∀ {id : Nat} {row : Row}, Holds d'.segments id row ↔
    Holds d.segments id row ∨ id = segment ∧ row ∈ batch
  flying : ∀ row ∈ batch, row.lsn ∈ d.inFlight
  inFlight : d'.inFlight = d.inFlight
  index : d'.index = d.index
  next : d'.next = d.next

variable {lsn : Nat}

theorem mem_inFlight : lsn ∈ d.inFlight ↔ ∃ w ∈ d.writers, lsn ∈ w.lsns :=
  mem_flatMap

theorem lsns_disjoint (h : d.inFlight.Nodup) {a b : Writer} (ha : a ∈ d.writers)
    (hb : b ∈ d.writers) (hne : a ≠ b) (hlsn : lsn ∈ a.lsns) : lsn ∉ b.lsns := by
  have hpair := (nodup_flatMap.mp h).2
  have : Std.Symm (Function.onFun List.Disjoint Writer.lsns) := ⟨fun _ _ hd => List.Disjoint.symm hd⟩
  have hdisjoint : List.Disjoint a.lsns b.lsns := hpair.forall ha hb hne
  exact fun hlsn' => hdisjoint hlsn hlsn'

theorem Filed.land (h : d.Filed) {base : Nat} (hl : d.land writer base = some d') :
    d'.Filed ∧ ∃ segment batch, Lands d d' segment batch := by
  obtain ⟨tail, first, ops, segment, hw, hactive, hbelow, rfl⟩ := land_spec hl
  obtain ⟨hlt, -⟩ := List.getElem?_eq_some_iff.mp hactive
  have hin : Writer.drawn tail first ops ∈ d.writers := mem_of_getElem? hw
  have hold := segments_perm_of_active hactive
  have hnew := set_active_perm hlt (pushAll segment ((rowsOf first base ops).map Prod.snd))
  have hlsns : ((rowsOf first base ops).map Prod.snd).map Row.lsn = range' first ops.length := by
    rw [map_map]
    exact rowsOf_lsns first base ops
  have hoffsets : (((rowsOf first base ops).map Prod.snd).map Row.offset).Nodup := by
    rw [map_map]
    exact rowsOf_offsets first base ops
  have hflying : ∀ lsn ∈ range' first ops.length, lsn ∈ d.inFlight := fun lsn hlsn =>
    mem_inFlight.mpr ⟨_, hin, hlsn⟩
  have hrange : ∀ row ∈ (rowsOf first base ops).map Prod.snd, row.lsn ∈ range' first ops.length :=
    fun row hrow => hlsns ▸ mem_map_of_mem hrow
  have hrows : ∀ {id : Nat} {row : Row},
      Holds (Deck.segments { d with
        active := d.active.set tail (pushAll segment ((rowsOf first base ops).map Prod.snd))
        writers := d.writers.set writer (.landed segment.id (rowsOf first base ops)) }) id row ↔
      Holds d.segments id row ∨ id = segment.id ∧ row ∈ (rowsOf first base ops).map Prod.snd := by
    intro id row
    exact (Holds.perm hnew).trans (holds_pushAll.trans (or_congr_left (Holds.perm hold).symm))
  have hflight : Deck.inFlight { d with
      active := d.active.set tail (pushAll segment ((rowsOf first base ops).map Prod.snd))
      writers := d.writers.set writer (.landed segment.id (rowsOf first base ops)) } = d.inFlight := by
    obtain ⟨hbefore, hafter⟩ := flatMap_set hw (.landed segment.id (rowsOf first base ops))
    refine hafter.trans (Eq.trans ?_ hbefore.symm)
    simp only [Writer.lsns, rowsOf_lsns]
  have hwriters : ∀ w ∈ d.writers.set writer (.landed segment.id (rowsOf first base ops)),
      w ∈ d.writers ∨ w = .landed segment.id (rowsOf first base ops) := fun w hw' =>
    mem_or_eq_of_mem_set hw'
  refine ⟨⟨Laid.perm ?_ hnew, h.begun, h.unused, ?_, hflight ▸ h.nodup, hflight ▸ h.drawn, ?_, ?_, ?_⟩,
    segment.id, _, hrows, fun row hrow => hflying _ (hrange row hrow), hflight, rfl, rfl⟩
  · refine (h.laid.perm hold.symm).pushAll ?_ ?_ ?_
    · rw [map_append, nodup_append]
      refine ⟨h.laid.offsets segment (hold.symm.subset mem_cons_self), hoffsets, ?_⟩
      intro a ha b hb
      obtain ⟨row, hrow, rfl⟩ := mem_map.mp ha
      rw [map_map] at hb
      obtain ⟨x, hx, rfl⟩ := mem_map.mp hb
      exact ((hbelow row hrow).trans_le (mem_rowsOf hx).2.2).ne
    · rw [hlsns]
      exact nodup_range'
    · intro row hrow
      refine ⟨h.drawn _ (hflying _ (hrange row hrow)), fun id held hheld heq => ?_⟩
      exact h.unwritten hin ((Holds.perm hold).mpr hheld) (heq ▸ hrange row hrow)
  · intro held hheld
    rcases mem_cons.mp (hnew.subset hheld) with rfl | hheld
    · exact h.fresh segment (hold.symm.subset mem_cons_self)
    · exact h.fresh held (hold.symm.subset (mem_cons_of_mem _ hheld))
  · intro tail' first' ops' hw' id row hrow hmem
    have hmem' : Writer.drawn tail' first' ops' ∈ d.writers := by
      rcases hwriters _ hw' with hw' | hw'
      · exact hw'
      · cases hw'
    rcases hrows.mp hrow with hrow | ⟨-, hrow⟩
    · exact h.unwritten hmem' hrow hmem
    · have hlanded : Writer.landed segment.id (rowsOf first base ops) ∈
          d.writers.set writer (.landed segment.id (rowsOf first base ops)) :=
        mem_set (List.getElem?_eq_some_iff.mp hw).1 _
      refine lsns_disjoint (hflight ▸ h.nodup) hw' hlanded (by simp) hmem ?_
      rw [Writer.lsns, rowsOf_lsns]
      exact hrange row hrow
  · intro held owed hw' x hx
    rcases hwriters _ hw' with hw' | hw'
    · exact (h.owed hw' x hx).imp_left fun hrow => hrows.mpr (.inl hrow)
    · cases hw'
      exact ⟨hrows.mpr (.inr ⟨rfl, mem_map_of_mem hx⟩), (mem_rowsOf hx).2.1⟩
  · intro w hw' op hop
    rcases hwriters _ hw' with hw' | rfl
    · exact h.fits w hw' op hop
    · obtain ⟨x, hx, rfl⟩ := mem_map.mp hop
      exact h.fits _ hin x.1 (mem_rowsOf hx).1

theorem publish_width (index : ColumnIndex) (segment : Nat) (op : KeyOp) (row : Row) :
    (index.publish segment op row).width = index.width := by
  cases op with
  | put key len =>
    simp only [ColumnIndex.publish]
    rcases Volume.insertUnless_eq index key ⟨row.loc segment, row.lsn⟩ false with h | h <;> simp [h, ColumnIndex.setMap]
  | delete key =>
    simp only [ColumnIndex.publish]
    rcases Volume.removeUnless_eq index key row.lsn segment false with h | h <;> simp [h, ColumnIndex.setMap]
  | range start fin => rfl

variable {segment : Nat} {row : Row}

theorem Filed.mem_inFlight_publish (h : d.Filed) {record : Nat}
    {owed : List (KeyOp × Row)} {op : KeyOp}
    (hw : d.writers[writer]? = some (.landed segment owed)) (hx : owed[record]? = some (op, row))
    :
    lsn ∈ (d.writers.set writer (.landed segment (owed.eraseIdx record))).flatMap Writer.lsns ↔
      lsn ∈ d.inFlight ∧ lsn ≠ row.lsn := by
  obtain ⟨hbefore, hafter⟩ := flatMap_set hw (.landed segment (owed.eraseIdx record))
  have hnodup := h.nodup
  unfold inFlight at hnodup ⊢
  rw [hbefore] at hnodup ⊢
  rw [hafter]
  obtain ⟨hlt, hget⟩ := List.getElem?_eq_some_iff.mp hx
  have hperm := (getElem_cons_eraseIdx_perm hlt).map fun x : KeyOp × Row => x.2.lsn
  rw [hget, map_cons] at hperm
  generalize (d.writers.take writer).flatMap Writer.lsns = front at hnodup ⊢
  generalize (d.writers.drop (writer + 1)).flatMap Writer.lsns = back at hnodup ⊢
  simp only [Writer.lsns] at hnodup ⊢
  generalize owed.map (fun x => x.2.lsn) = all at hnodup hperm ⊢
  generalize (owed.eraseIdx record).map (fun x => x.2.lsn) = rest at hperm ⊢
  have hmid : (row.lsn :: (front ++ (rest ++ back))).Nodup := by
    refine (List.Perm.nodup_iff ?_).mp hnodup
    refine ((hperm.symm.append_right back).append_left front).trans ?_
    exact perm_middle
  have hout := (nodup_cons.mp hmid).1
  have hall : lsn ∈ all ↔ lsn = row.lsn ∨ lsn ∈ rest := by
    rw [← hperm.mem_iff, mem_cons]
  simp only [mem_append, hall] at hout ⊢
  constructor
  · intro hin
    refine ⟨by tauto, ?_⟩
    rintro rfl
    tauto
  · tauto

theorem Filed.publish (h : d.Filed) {record : Nat} (hp : d.publish writer record = some d') :
    d'.Filed := by
  obtain ⟨segment, owed, op, row, hw, hx, rfl⟩ := publish_spec hp
  have hin : Writer.landed segment owed ∈ d.writers := mem_of_getElem? hw
  have hflight : ∀ lsn ∈ (d.writers.set writer (.landed segment (owed.eraseIdx record))).flatMap
      Writer.lsns, lsn ∈ d.inFlight := fun lsn hl => ((h.mem_inFlight_publish hw hx).mp hl).1
  have hsub : ((d.writers.set writer (.landed segment (owed.eraseIdx record))).flatMap
      Writer.lsns).Sublist d.inFlight := by
    obtain ⟨hbefore, hafter⟩ := flatMap_set hw (.landed segment (owed.eraseIdx record))
    unfold inFlight
    rw [hbefore, hafter]
    exact (List.Sublist.refl _).append
      (((eraseIdx_sublist owed record).map _).append (List.Sublist.refl _))
  have hwriters : ∀ w ∈ d.writers.set writer (.landed segment (owed.eraseIdx record)),
      w ∈ d.writers ∨ w = .landed segment (owed.eraseIdx record) := fun w hw' =>
    mem_or_eq_of_mem_set hw'
  refine ⟨h.laid, h.begun, h.unused, h.fresh, h.nodup.sublist hsub,
    fun lsn hl => h.drawn lsn (hflight lsn hl), ?_, ?_, ?_⟩
  · intro tail first ops hw' id held
    rcases hwriters _ hw' with hw' | hw'
    · exact h.unwritten hw'
    · cases hw'
  · intro held owed' hw' x hx'
    rcases hwriters _ hw' with hw' | hw'
    · exact h.owed hw' x hx'
    · cases hw'
      exact h.owed hin x ((eraseIdx_sublist owed record).subset hx')
  · intro w hw' op' hop
    simp only [publish_width]
    rcases hwriters _ hw' with hw' | rfl
    · exact h.fits w hw' op' hop
    · obtain ⟨x, hx', rfl⟩ := mem_map.mp hop
      exact h.fits _ hin x.1
        (mem_map_of_mem ((eraseIdx_sublist owed record).subset hx'))

/-- What one point record's move makes of the index. -/
structure PointMove (index index' : ColumnIndex) (segment : Nat) (row : Row) : Prop where
  covers : index'.covers = index.covers
  mapped : ∀ {key : Str} {entry : Entry}, index'.map.get key = some entry →
    index.map.get key = some entry ∨
      key = row.key ∧ index.width.accepts key = true ∧ entry = row.resident segment
  raised : ∀ {key : Str} {entry : Entry}, index.map.get key = some entry →
    ∃ entry', index'.map.get key = some entry' ∧ entry.lsn ≤ entry'.lsn
  published : index.width.accepts row.key = true →
    (∃ entry, index'.map.get row.key = some entry ∧ row.lsn ≤ entry.lsn) ∨
      isCovered index.covers row.key row.lsn = true

variable {index : ColumnIndex}

theorem PointMove.refused
    (h : index.width.accepts row.key = true →
      (∃ entry, index.map.get row.key = some entry ∧ row.lsn ≤ entry.lsn) ∨
        isCovered index.covers row.key row.lsn = true) : PointMove index index segment row :=
  ⟨rfl, .inl, fun {_ entry} hg => ⟨entry, hg, le_refl _⟩, h⟩

theorem PointMove.taken (segment : Nat)
    (hacc : index.width.accepts row.key = true)
    (hold : ∀ entry, index.map.get row.key = some entry → entry.lsn ≤ row.lsn) :
    PointMove index (index.setMap (index.map.put row.key (row.resident segment))) segment row := by
  have hget : ∀ key, (index.setMap (index.map.put row.key (row.resident segment))).map.get key =
      if key = row.key then some (row.resident segment) else index.map.get key := by
    intro key
    refine (SortedMap.get_put index.map row.key (row.resident segment) key).trans ?_
    congr
  refine ⟨rfl, ?_, ?_, fun _ => .inl ⟨row.resident segment, ?_, ?_⟩⟩
  · intro key entry hg
    rw [hget] at hg
    split at hg
    · rename_i hkey
      subst hkey
      exact .inr ⟨rfl, hacc, (Option.some.inj hg).symm⟩
    · exact .inl hg
  · intro key entry hg
    rw [hget]
    split
    · rename_i hkey
      subst hkey
      exact ⟨_, rfl, by rw [Row.resident_lsn]; exact hold entry hg⟩
    · exact ⟨entry, hg, le_refl _⟩
  · rw [hget, if_pos rfl]
  · rw [Row.resident_lsn]

theorem insertUnless_pointMove (index : ColumnIndex) (segment : Nat) (hdata : row.kind = .data) :
    PointMove index (index.insertUnless row.key ⟨row.loc segment, row.lsn⟩ false).1 segment row := by
  have hentry : row.resident segment = ⟨row.loc segment, row.lsn⟩ := by simp [Row.resident, hdata]
  unfold ColumnIndex.insertUnless
  by_cases hacc : index.width.accepts row.key = true
  · have htaken := PointMove.taken segment hacc
    rw [hentry] at htaken
    rw [if_neg (by simp [hacc])]
    by_cases hcovered : isCovered index.covers row.key row.lsn = true
    · rw [if_pos hcovered]
      exact PointMove.refused fun _ => .inr hcovered
    · rw [if_neg hcovered]
      cases hexisting : index.map.get row.key with
      | none => exact htaken (by simp [hexisting])
      | some existing =>
        by_cases hle : row.lsn ≤ existing.lsn
        · simp only [if_pos hle]
          exact PointMove.refused fun _ => .inl ⟨existing, hexisting, hle⟩
        · simp only [if_neg hle]
          have hmove := htaken (by rw [hexisting]; rintro _ ⟨⟩; omega)
          cases existing.isGrave <;> exact hmove
  · rw [if_pos (by simpa using hacc)]
    exact PointMove.refused fun h => absurd h hacc

theorem removeUnless_pointMove (index : ColumnIndex) (segment : Nat)
    (htombstone : row.kind = .tombstone) :
    PointMove index (index.removeUnless row.key row.lsn segment false).1 segment row := by
  have hentry : row.resident segment = .graveFrom row.lsn segment := by simp [Row.resident, htombstone]
  unfold ColumnIndex.removeUnless
  by_cases hacc : index.width.accepts row.key = true
  · have htaken := PointMove.taken segment hacc
    rw [hentry] at htaken
    rw [if_neg (by simp [hacc])]
    cases hexisting : index.map.get row.key with
    | none => exact htaken (by simp [hexisting])
    | some existing =>
      by_cases hle : row.lsn ≤ existing.lsn
      · simp only [if_pos hle]
        -- a copy of the same tombstone moves its grave
        by_cases hsame : (existing.isGrave && existing.lsn == row.lsn) = true
        · simp only [if_pos hsame]
          rw [Bool.and_eq_true, beq_iff_eq] at hsame
          exact htaken (by rw [hexisting]; rintro _ ⟨⟩; exact hsame.2.le)
        · simp only [if_neg hsame]
          exact PointMove.refused fun _ => .inl ⟨existing, hexisting, hle⟩
      · simp only [if_neg hle]
        have hmove := htaken (by rw [hexisting]; rintro _ ⟨⟩; omega)
        cases existing.isGrave <;> exact hmove
  · rw [if_pos (by simpa using hacc)]
    exact PointMove.refused fun h => absurd h hacc

theorem publish_pointMove (index : ColumnIndex) (segment : Nat) {op : KeyOp}
    (hrow : row = op.row row.lsn row.offset) (hpoint : row.kind ≠ .rangeTombstone) :
    PointMove index (index.publish segment op row) segment row := by
  cases op with
  | put key len =>
    obtain rfl : key = row.key := by rw [hrow]; rfl
    exact insertUnless_pointMove index segment (by rw [hrow]; rfl)
  | delete key =>
    obtain rfl : key = row.key := by rw [hrow]; rfl
    exact removeUnless_pointMove index segment (by rw [hrow]; rfl)
  | range start fin => exact absurd (by rw [hrow]; rfl) hpoint

theorem Indexed.reflight (h : d.Indexed) (hindex : d'.index = d.index)
    (hrows : ∀ {id : Nat} {row : Row}, Holds d'.segments id row ↔ Holds d.segments id row)
    (hflight : ∀ {id : Nat} {row : Row}, Holds d.segments id row →
      (row.lsn ∈ d'.inFlight ↔ row.lsn ∈ d.inFlight)) : d'.Indexed where
  mapped := by
    intro key entry hg
    rw [hindex] at hg ⊢
    obtain ⟨hacc, id, row, hrow, rest⟩ := h.mapped hg
    exact ⟨hacc, id, row, hrows.mpr hrow, rest⟩
  published := by
    intro id row hrow hpoint hacc hout
    rw [hindex] at hacc ⊢
    have hrow := hrows.mp hrow
    exact h.published hrow hpoint hacc (mt (hflight hrow).mpr hout)
  ranged := by
    intro id row hrow hrange hacc hout
    rw [hindex] at hacc ⊢
    have hrow := hrows.mp hrow
    exact h.ranged hrow hrange hacc (mt (hflight hrow).mpr hout)
  covers := by
    intro cover hc
    rw [hindex] at hc
    obtain ⟨id, row, hrow, hlsn, hout⟩ := h.covers cover hc
    exact ⟨id, row, hrows.mpr hrow, hlsn, mt (hflight hrow).mp hout⟩

theorem Indexed.draw (h : d.Indexed) (hf : d.Filed) (tail : Nat) (ops : List KeyOp) :
    Indexed { d with
      next := d.next + ops.length
      writers := d.writers ++ [.drawn tail d.next ops] } := by
  refine h.reflight rfl Iff.rfl fun {id row} hrow => ?_
  have hlt := hf.laid.drawn hrow
  simp only [inFlight, flatMap_append, flatMap_cons, flatMap_nil, append_nil,
    mem_append, Writer.lsns, mem_range'_1]
  constructor
  · rintro (hin | hin)
    · exact hin
    · omega
  · exact .inl

theorem Indexed.fail (h : d.Indexed) (hf : d.Filed) {first : Nat} {ops : List KeyOp}
    (hw : d.writers[writer]? = some (.drawn tail first ops)) :
    Indexed { d with writers := d.writers.eraseIdx writer } := by
  refine h.reflight rfl Iff.rfl fun {id row} hrow => ?_
  refine ⟨fun hin => (inFlight_eraseIdx d.writers writer).subset hin, fun hin => ?_⟩
  obtain ⟨w, hw', hlsn⟩ := mem_inFlight.mp hin
  obtain ⟨hlt, hget⟩ := List.getElem?_eq_some_iff.mp hw
  have hperm := getElem_cons_eraseIdx_perm hlt
  rcases mem_cons.mp (hperm.symm.subset hw') with rfl | hw'
  · rw [hget] at hlsn
    exact absurd hlsn (hf.unwritten (mem_of_getElem? hw) hrow)
  · exact mem_inFlight.mpr ⟨w, hw', hlsn⟩

theorem Indexed.land (h : d.Indexed) {batch : List Row}
    (hl : Lands d d' segment batch) : d'.Indexed where
  mapped := by
    intro key entry hg
    rw [hl.index] at hg ⊢
    obtain ⟨hacc, id, row, hrow, rest⟩ := h.mapped hg
    exact ⟨hacc, id, row, hl.rows.mpr (.inl hrow), rest⟩
  published := by
    intro id row hrow hpoint hacc hout
    rw [hl.index] at hacc ⊢
    rw [hl.inFlight] at hout
    rcases hl.rows.mp hrow with hrow | ⟨-, hrow⟩
    · exact h.published hrow hpoint hacc hout
    · exact absurd (hl.flying row hrow) hout
  ranged := by
    intro id row hrow hrange hacc hout
    rw [hl.index] at hacc ⊢
    rw [hl.inFlight] at hout
    rcases hl.rows.mp hrow with hrow | ⟨-, hrow⟩
    · exact h.ranged hrow hrange hacc hout
    · exact absurd (hl.flying row hrow) hout
  covers := by
    intro cover hc
    rw [hl.index] at hc
    obtain ⟨id, row, hrow, hlsn, hout⟩ := h.covers cover hc
    exact ⟨id, row, hl.rows.mpr (.inl hrow), hlsn, hl.inFlight ▸ hout⟩

theorem removeRange_covers {start : Str} {fin : Option Str}
    (hfresh : ∀ cover ∈ index.covers, cover.lsn ≠ lsn) {cover : Covered Str} :
    cover ∈ (index.removeRange start fin lsn).covers ↔
      cover ∈ index.covers ∨ cover = Volume.rangeCover index.width start fin lsn := by
  refine mem_pushCover.trans (or_congr_right ?_)
  exact ⟨fun hc => hc.2, fun hc => ⟨hfresh, hc⟩⟩

theorem Indexed.publish (h : d.Indexed) (hf : d.Filed) {record : Nat}
    (hp : d.publish writer record = some d') : d'.Indexed := by
  obtain ⟨segment, owed, op, row, hw, hx, rfl⟩ := publish_spec hp
  have hin : Writer.landed segment owed ∈ d.writers := mem_of_getElem? hw
  obtain ⟨hrow, hop⟩ : Holds d.segments segment row ∧ row = op.row row.lsn row.offset :=
    hf.owed hin _ (mem_of_getElem? hx)
  have hflying : row.lsn ∈ d.inFlight :=
    mem_inFlight.mpr ⟨_, hin, mem_map_of_mem (mem_of_getElem? hx)⟩
  have hflight : ∀ {lsn : Nat}, lsn ∈ Deck.inFlight { d with
      index := d.index.publish segment op row
      writers := d.writers.set writer (.landed segment (owed.eraseIdx record)) } ↔
      lsn ∈ d.inFlight ∧ lsn ≠ row.lsn := hf.mem_inFlight_publish hw hx
  -- a record out of flight was out of flight before, or is the one published
  have hout : ∀ {id : Nat} {held : Row}, Holds d.segments id held →
      ¬ (held.lsn ∈ d.inFlight ∧ held.lsn ≠ row.lsn) → held.lsn ∉ d.inFlight ∨ held = row := by
    intro id held hheld hno
    by_cases hlsn : held.lsn = row.lsn
    · exact .inr (hf.laid.lsns hheld hrow hlsn).2
    · exact .inl fun hin => hno ⟨hin, hlsn⟩
  by_cases hpoint : row.kind = .rangeTombstone
  · obtain ⟨start, fin, rfl⟩ := KeyOp.range_of_kind hop hpoint
    obtain rfl : start = row.key := by rw [hop]; rfl
    obtain ⟨hfits, hne⟩ := hf.fits _ hin (.range row.key fin)
      (mem_map_of_mem (mem_of_getElem? hx))
    have hfresh : ∀ cover ∈ d.index.covers, cover.lsn ≠ row.lsn := by
      intro cover hc heq
      obtain ⟨id, held, hheld, hlsn, hnot⟩ := h.covers cover hc
      exact hnot (hlsn ▸ heq ▸ hflying)
    have hcovers : ∀ {cover}, cover ∈ (d.index.removeRange row.key fin row.lsn).covers ↔ _ :=
      removeRange_covers hfresh
    refine ⟨h.mapped, ?_, ?_, ?_⟩
    · intro id held hheld hkind hacc hno
      rcases hout hheld (mt hflight.mpr hno) with hno | rfl
      · refine (h.published hheld hkind hacc hno).imp_right fun hcovered => ?_
        obtain ⟨cover, hc, hcov⟩ := (isCovered_iff _ _ _).mp hcovered
        exact (isCovered_iff _ _ _).mpr ⟨cover, hcovers.mpr (.inl hc), hcov⟩
      · exact absurd hpoint hkind
    · intro id held hheld hkind hacc hno
      rcases hout hheld (mt hflight.mpr hno) with hno | rfl
      · obtain ⟨cover, hc, rest⟩ := h.ranged hheld hkind hacc hno
        exact ⟨cover, hcovers.mpr (.inl hc), rest⟩
      · have htakes : (RangeDelete.mk held.key fin 1).takes held.key := ⟨le_refl _, hne⟩
        have hcov := Volume.covers_of_takes hfits hacc htakes Nat.zero_lt_one
        obtain ⟨-, hlow, hhigh⟩ := (Covered.covers_iff _ _ _).mp hcov
        exact ⟨_, hcovers.mpr (.inr rfl), rfl, hlow, hhigh⟩
    · intro cover hc
      rcases hcovers.mp hc with hc | rfl
      · obtain ⟨id, held, hheld, hlsn, hno⟩ := h.covers cover hc
        exact ⟨id, held, hheld, hlsn, fun hin => hno (hflight.mp hin).1⟩
      · exact ⟨segment, row, hrow, rfl, fun hin => (hflight.mp hin).2 rfl⟩
  · have hmove := publish_pointMove d.index segment hop hpoint
    have hwidth := publish_width d.index segment op row
    refine ⟨?_, ?_, ?_, ?_⟩
    · intro key entry hg
      simp only [hwidth]
      rcases hmove.mapped hg with hg | ⟨rfl, hacc, rfl⟩
      · exact h.mapped hg
      · exact ⟨hacc, segment, row, hrow, rfl, hpoint, rfl⟩
    · intro id held hheld hkind hacc hno
      simp only [hwidth] at hacc
      simp only [hmove.covers]
      rcases hout hheld (mt hflight.mpr hno) with hno | rfl
      · refine (h.published hheld hkind hacc hno).imp_left ?_
        rintro ⟨entry, hg, hle⟩
        obtain ⟨entry', hg', hle'⟩ := hmove.raised hg
        exact ⟨entry', hg', hle.trans hle'⟩
      · exact hmove.published hacc
    · intro id held hheld hkind hacc hno
      simp only [hwidth] at hacc
      simp only [hmove.covers]
      rcases hout hheld (mt hflight.mpr hno) with hno | rfl
      · exact h.ranged hheld hkind hacc hno
      · exact absurd hkind hpoint
    · intro cover hc
      simp only [hmove.covers] at hc
      obtain ⟨id, held, hheld, hlsn, hno⟩ := h.covers cover hc
      exact ⟨id, held, hheld, hlsn, fun hin => hno (hflight.mp hin).1⟩

end Deck

end Reel
