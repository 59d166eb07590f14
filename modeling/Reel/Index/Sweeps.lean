import Reel.Index.Keeps

/-!
Settling what a range delete took keeps a column sound: the release of footer-held records,
the sweep of the map, and the prune of covers and graves nothing needs.
-/

set_option autoImplicit false

namespace Reel
open Bytes StableSort List ColumnIndex

namespace Volume
variable {hash : Str → UInt64} {strict : Bool} {v : Volume}

variable {index : ColumnIndex} {phase : Covered Str → SweepPhase Str} {cover : Covered Str}

theorem mem_setPhase {lsn : Nat}
    (h : cover ∈ (index.setPhase lsn phase).covers) :
    ∃ held ∈ index.covers,
      cover = if held.lsn = lsn then { held with phase := phase held } else held := by
  obtain ⟨held, hheld, rfl⟩ := mem_map.mp h
  exact ⟨held, hheld, rfl⟩

theorem isCovered_setPhase (index : ColumnIndex) (lsn : Nat) (phase : Covered Str → SweepPhase Str)
    (key : Str) (below : Nat) :
    isCovered (index.setPhase lsn phase).covers key below = isCovered index.covers key below := by
  simp only [isCovered, setPhase, any_map]
  refine congrArg (any index.covers) (funext fun cover => ?_)
  simp only [Function.comp_apply]
  split <;> rfl

theorem CoversOk.setPhase {next lsn : Nat}
    (h : CoversOk index next)
    (hok : ∀ cover ∈ index.covers, cover.lsn = lsn → Resumes { cover with phase := phase cover }) :
    CoversOk (index.setPhase lsn phase) next := by
  refine ⟨?_, ?_, ?_, ?_⟩
  · have hsame : (index.setPhase lsn phase).covers.map Covered.lsn = index.covers.map Covered.lsn := by
      simp only [ColumnIndex.setPhase, map_map]
      refine map_congr_left fun cover _ => ?_
      simp only [Function.comp_apply]
      split <;> rfl
    rw [hsame]
    exact h.lsns
  · intro cover hc
    obtain ⟨held, hheld, rfl⟩ := mem_setPhase hc
    split <;> exact h.drawn held hheld
  · intro cover hc
    obtain ⟨held, hheld, rfl⟩ := mem_setPhase hc
    split <;> exact h.low held hheld
  · intro cover hc
    obtain ⟨held, hheld, rfl⟩ := mem_setPhase hc
    split
    · rename_i hl
      exact hok held hheld hl
    · exact h.resumes held hheld

theorem CoversOk.eq_of_lsn {next : Nat} (h : CoversOk index next)
    {a b : Covered Str} (ha : a ∈ index.covers) (hb : b ∈ index.covers) (hl : a.lsn = b.lsn) : a = b :=
  inj_on_of_nodup_map h.lsns ha hb hl

/-- A volume whose map dropped covered puts, whose slots dropped spent ones, and whose covers moved
one phase. -/
theorem Sound.sweep (h : v.Sound hash strict) {lsn : Nat}
    (spot : SpotColumn) (map : SortedMap Str Entry)
    (hphase : ∀ cover ∈ v.index.covers, cover.lsn = lsn → Resumes { cover with phase := phase cover })
    (hget : ∀ {key : Str} {entry : Entry}, map.get key = some entry →
      v.index.map.get key = some entry)
    (hdrop : ∀ {id : Nat} {row : Row}, v.Newest id row →
      v.index.map.get row.key = some (row.resident id) → map.get row.key = none →
        row.kind = .data ∧ isCovered v.index.covers row.key row.lsn = true)
    (hf : Fades (fun _ => False) (v.Spent hash) v.spot.slots spot.slots)
    (howed : spot.owed = v.spot.owed) (hstale : spot.stale = v.spot.stale) :
    Sound hash strict { v with spot, index := (v.index.setMap map).setPhase lsn phase } := by
  have hcov : ∀ key below,
      isCovered ((v.index.setMap map).setPhase lsn phase).covers key below =
        isCovered v.index.covers key below := isCovered_setPhase (v.index.setMap map) lsn phase
  have hcovers : CoversOk ((v.index.setMap map).setPhase lsn phase) v.next :=
    CoversOk.setPhase (show CoversOk (v.index.setMap map) v.next from
      ⟨h.covers.lsns, h.covers.drawn, h.covers.low, h.covers.resumes⟩) hphase
  refine h.quiet ⟨h.laid, h.held, rfl, fun _ => Iff.rfl, fun h => h, fun _ h => h, ?_, hget, ?_, ?_,
    hcovers, h.queues.mono (fun _ h => h) (fun h => h) ?_ ?_⟩
  · intro id row _ _ hc
    simpa only [hcov] using hc
  · intro id row hn hbefore hafter
    obtain ⟨hdata, hc⟩ := hdrop hn hbefore hafter
    simp only [Found, hdata, hcov]
    exact Or.inl hc
  · refine hf.mono (fun _ _ h => h) fun slot _ hspent id row hp hrow => ?_
    simpa only [hcov] using hspent hp hrow
  · simp only [howed]
    exact fun _ h => h
  · simp only [hstale]
    exact fun _ h => h

theorem append_lt_append {a b : Str} (hlen : a.length = b.length) (h : a < b) (x y : Str) :
    a ++ x < b ++ y := by
  induction a generalizing b with
  | nil =>
    rw [eq_nil_of_length_eq_zero hlen.symm] at h
    exact absurd h (lt_irrefl _)
  | cons c a ih =>
    cases b with
    | nil => cases hlen
    | cons d b =>
      simp only [cons_append, cons_lt_cons_iff] at h ⊢
      rcases h with h | ⟨rfl, h⟩
      · exact Or.inl h
      · exact Or.inr ⟨rfl, ih (Nat.succ.inj hlen) h⟩

theorem bump_lt {l l' : Str} (h : successor.bump l = some l') :
    l.length = l'.length ∧ l.reverse < l'.reverse := by
  induction l generalizing l' with
  | nil => cases h
  | cons b rest ih =>
    unfold successor.bump at h
    split at h
    · rename_i hb
      cases h
      refine ⟨rfl, ?_⟩
      simp only [reverse_cons]
      refine append_left_lt (cons_lt_cons_iff.mpr (Or.inl ?_))
      rw [Fin.lt_def]
      simp [Fin.ofNat, Nat.mod_eq_of_lt hb]
    · obtain ⟨r, hr, rfl⟩ := Option.map_eq_some_iff.mp h
      obtain ⟨hlen, hlt⟩ := ih hr
      refine ⟨by simp [hlen], ?_⟩
      simp only [reverse_cons]
      exact append_lt_append (by simpa using hlen) hlt _ _

theorem lt_successor {key next : Str} (h : successor key = some next) : key < next := by
  obtain ⟨r, hr, rfl⟩ := Option.map_eq_some_iff.mp h
  simpa using (bump_lt hr).2

theorem mem_coveredRows {v : Volume} {key : Str} {below : Nat} {x : Str × Loc}
    (h : x ∈ v.coveredRows key below) :
    ∃ id row, Holds v.noted id row ∧ row.kind = .data ∧ row.key = key ∧ row.lsn < below ∧
      x = (row.key, row.loc id) := by
  simp only [coveredRows, mem_flatMap, mem_map, mem_filter, Bool.and_eq_true,
    decide_eq_true_eq, Segment.footerRows, mem_sortByKey] at h
  obtain ⟨segment, hs, row, ⟨hrow, ⟨hk, hl⟩, hd⟩, rfl⟩ := h
  exact ⟨segment.id, row, ⟨segment, hs, rfl, hrow⟩, hd, hk, hl, rfl⟩

theorem release_fades (h : v.Sound hash strict) (rows : List (Str × Loc))
    (hrows : ∀ x ∈ rows, ∃ id row, Holds v.noted id row ∧ x = (row.key, row.loc id) ∧
      isCovered v.index.covers row.key row.lsn = true) :
    Fades (fun _ => False) (v.Spent hash) v.spot.slots
      (rows.foldl (releaseCovered v.index hash) v.spot.slots) := by
  suffices hgen : ∀ slots, Fades (fun _ => False) (v.Spent hash) v.spot.slots slots →
      Fades (fun _ => False) (v.Spent hash) v.spot.slots
        (rows.foldl (releaseCovered v.index hash) slots) from
    hgen _ (Fades.refl _ _ h.distinct)
  induction rows with
  | nil => exact fun _ hf => hf
  | cons x rows ih =>
    intro slots hf
    refine ih (fun y hy => hrows y (mem_cons_of_mem _ hy)) _ ?_
    unfold releaseCovered
    split
    · exact hf
    · obtain ⟨id, row, hrow, rfl, hcov⟩ := hrows x mem_cons_self
      refine hf.trans (fun _ => Spent.of_displaced)
        (((takeLive_takesAt _ _ _).fades hf.distinct).mono (fun _ _ h => h) ?_)
      intro held _ hplace id' row' hp hrow'
      obtain ⟨rfl, hoff⟩ := Prod.mk.inj (hp.place.symm.trans hplace)
      rw [h.laid.row_eq (hrow'.mono v.noted_subset) (hrow.mono v.noted_subset) hoff]
      exact Or.inr hcov

theorem Sound.releaseRun (h : v.Sound hash strict) {resume : Str}
    (hc : cover ∈ v.index.covers) (hphase : cover.phase = .release resume) (limit : Nat) :
    Sound hash strict (v.releaseRun hash cover resume limit).1 := by
  have hlow : cover.low ≤ resume := by
    have := h.covers.resumes cover hc
    simpa only [Resumes, hphase] using this
  have hone : ∀ held ∈ v.index.covers, held.lsn = cover.lsn → held = cover :=
    fun held hheld hl => h.covers.eq_of_lsn hheld hc hl
  unfold Volume.releaseRun
  split
  · refine h.sweep v.spot v.index.map ?_ (fun h => h) ?_
      (Fades.refl _ _ h.distinct) rfl rfl
    · intro held hheld hl
      exact le_refl _
    · intro id row _ hbefore hafter
      rw [hafter] at hbefore
      cases hbefore
  · simp only
    generalize hkeys : (((v.notedKeys.filter fun key => resume ≤ key).filter
      fun key => cover.high.all fun high => key < high).take (min limit releaseLimit)) = looked
    have hlooked : ∀ key ∈ looked, resume ≤ key ∧ ∀ high ∈ cover.high, key < high := by
      intro key hk
      rw [← hkeys] at hk
      have hk := mem_filter.mp (mem_of_mem_take hk)
      refine ⟨by simpa using (mem_filter.mp hk.1).2, ?_⟩
      intro high hh
      have hall := hk.2
      rw [Option.all_eq_true] at hall
      simpa using hall high hh
    refine h.sweep
      (v.spot.setSlots ((looked.flatMap fun key => v.coveredRows key cover.lsn).foldl
        (releaseCovered v.index hash) v.spot.slots)) v.index.map ?_ (fun h => h) ?_ (release_fades h _ ?_) rfl rfl
    · -- the next key resumes no lower than the cover begins
      intro held hheld hl
      obtain rfl := hone held hheld hl
      generalize hresume : (if looked.length < min limit releaseLimit then none
        else looked.getLast?.bind successor) = next
      cases next with
      | none => exact le_refl _
      | some next =>
        have hnext : looked.getLast?.bind successor = some next := by
          split at hresume
          · cases hresume
          · exact hresume
        obtain ⟨last, hlast, hsucc⟩ := Option.bind_eq_some_iff.mp hnext
        have hle : held.low ≤ next :=
          hlow.trans ((hlooked last (mem_of_getLast? hlast)).1.trans (lt_successor hsucc).le)
        have hbound := v.index.width.lowBound_mono hle
        rw [h.covers.low held hc] at hbound
        exact hbound
    · intro id row _ hbefore hafter
      rw [hafter] at hbefore
      cases hbefore
    · intro x hx
      obtain ⟨key, hk, hx⟩ := mem_flatMap.mp hx
      obtain ⟨id, row, hrow, hdata, rfl, hl, rfl⟩ := mem_coveredRows hx
      obtain ⟨hge, hhigh⟩ := hlooked row.key hk
      exact ⟨id, row, hrow, rfl, (isCovered_iff _ _ _).mpr
        ⟨cover, hc, (cover.covers_iff _ _).mpr ⟨hl, hlow.trans hge, hhigh⟩⟩⟩

theorem Sound.sweepRun (h : v.Sound hash strict) (lsn budget : Nat) :
    Sound hash strict { v with index := (v.index.sweepRun lsn budget).1 } := by
  unfold ColumnIndex.sweepRun
  cases hfind : v.index.covers.find? (·.lsn == lsn) with
  | none => exact h
  | some cover =>
    have hc := mem_of_find?_eq_some hfind
    have hl : cover.lsn = lsn := by simpa using find?_some hfind
    cases hphase : cover.phase with
    | release resume => simpa only [hphase] using h
    | done => simpa only [hphase] using h
    | sweep resume =>
      simp only [hphase]
      have hlow : cover.low ≤ resume := by
        have := h.covers.resumes cover hc
        simpa only [Resumes, hphase] using this
      have hspan : ∀ e ∈ v.index.spanFrom resume cover.high, e ∈ v.index.map.entries ∧
          cover.low ≤ e.1 ∧ ∀ high ∈ cover.high, e.1 < high := by
        intro e he
        obtain ⟨hin, hbounds⟩ := mem_filter.mp he
        simp only [Bool.and_eq_true, decide_eq_true_eq, Option.all_eq_true] at hbounds
        exact ⟨hin, hlow.trans hbounds.1, fun high hh => by simpa using hbounds.2 high hh⟩
      generalize hdoomed : ((v.index.spanFrom resume cover.high).take budget).filter
        (fun e => decide (e.2.lsn < lsn) && !e.2.isGrave) = doomed
      have hget : ∀ {key : Str} {entry : Entry},
          (v.index.map.keep fun key _ => !doomed.any (·.1 == key)).get key = some entry →
            v.index.map.get key = some entry := by
        intro key entry hg
        rw [SortedMap.get_keep] at hg
        exact (Option.filter_eq_some_iff.mp hg).1
      have hdrop : ∀ {id : Nat} {row : Row}, v.Newest id row →
          v.index.map.get row.key = some (row.resident id) →
          (v.index.map.keep fun key _ => !doomed.any (·.1 == key)).get row.key = none →
            row.kind = .data ∧ isCovered v.index.covers row.key row.lsn = true := by
        intro id row hn hbefore hafter
        rw [SortedMap.get_keep, hbefore] at hafter
        have hany : doomed.any (·.1 == row.key) = true := by
          cases hb : doomed.any (·.1 == row.key) with
          | true => rfl
          | false =>
            simp only [Option.filter, hb, Bool.not_false, if_true] at hafter
            cases hafter
        obtain ⟨e, he, hk⟩ := any_eq_true.mp hany
        have hk : e.1 = row.key := by simpa using hk
        rw [← hdoomed] at he
        obtain ⟨hin, htest⟩ := mem_filter.mp he
        obtain ⟨hent, hge, hhigh⟩ := hspan e (mem_of_mem_take hin)
        have hentry : e.2 = row.resident id := by
          have := SortedMap.mem_entries.mp hent
          rw [hk, hbefore] at this
          exact (Option.some.inj this).symm
        simp only [hentry, Bool.and_eq_true, decide_eq_true_eq, Bool.not_eq_true',
          Row.resident_lsn] at htest
        refine ⟨?_, ?_⟩
        · cases hkind : row.kind with
          | data => rfl
          | tombstone | rangeTombstone => simp [Row.resident, hkind] at htest
        · rw [← hk]
          exact (isCovered_iff _ _ _).mpr
            ⟨cover, hc, (cover.covers_iff _ _).mpr ⟨by rw [hl]; exact htest.1, hge, hhigh⟩⟩
      have hone : ∀ held ∈ v.index.covers, held.lsn = lsn → held = cover :=
        fun held hheld hl' => h.covers.eq_of_lsn hheld hc (hl'.trans hl.symm)
      cases hnext : ((v.index.spanFrom resume cover.high).drop budget).head? with
      | none =>
        exact h.sweep v.spot _ (fun _ _ _ => trivial) hget hdrop
          (Fades.refl _ _ h.distinct) rfl rfl
      | some stopped =>
        refine h.sweep v.spot _ ?_ hget hdrop (Fades.refl _ _ h.distinct) rfl rfl
        intro held hheld hl'
        obtain rfl := hone held hheld hl'
        exact (hspan stopped (mem_of_mem_drop (mem_of_head? hnext))).2.1

theorem Sound.sweepLoop (fuel : Nat) {remaining : Nat} (h : v.Sound hash strict) :
    Sound hash strict (Volume.sweepLoop hash fuel remaining v) := by
  induction fuel generalizing v remaining with
  | zero => exact h
  | succ fuel ih =>
    unfold Volume.sweepLoop
    split
    · exact h
    · cases hnext : v.index.nextPendingCover with
      | none => exact h
      | some cover =>
        have hc : cover ∈ v.index.covers := (mem_filter.mp (argmin_mem hnext)).1
        have hswept := h.sweepRun cover.lsn remaining
        cases hphase : cover.phase with
        | release resume =>
          simp only [hphase]
          exact ih (h.releaseRun hc hphase remaining)
        | sweep resume | done =>
          simp only [hphase]
          generalize v.index.sweepRun cover.lsn remaining = run at hswept
          obtain ⟨index, examined, done⟩ := run
          simp only
          split
          · exact ih hswept
          · exact hswept

theorem Sound.sweepCovers (h : v.Sound hash strict) (budget : Nat) :
    Sound hash strict (v.sweepCovers hash budget) := h.sweepLoop budget

variable {row : Row}

theorem Segment.overlaps_of_mem {segment : Segment} {low : Str} {high : Option Str}
    (hrow : row ∈ segment.rows) (hlow : low ≤ row.key) (hhigh : ∀ top ∈ high, row.key < top) :
    segment.overlaps low high = true := by
  have hspans := Segment.spans_of_mem hrow
  simp only [Segment.spans, Bool.and_eq_true, Option.any_eq_true, decide_eq_true_eq] at hspans
  obtain ⟨⟨first, hfirst, hge⟩, last, hlast, hle⟩ := hspans
  simp only [Segment.overlaps, Bool.and_eq_true, Option.any_eq_true, Option.all_eq_true,
    decide_eq_true_eq]
  exact ⟨⟨last, hlast, hlow.trans hle⟩, fun top ht => ⟨first, hfirst, hge.trans_lt (hhigh top ht)⟩⟩

/-- A prune lets go of no cover that covers a put in a tail still open or sealed and not noted. -/
def PruneSafe (v : Volume) (cue : Option Nat) : Prop :=
  ∀ cover ∈ v.index.covers, prunable cover (v.pruneFloor cue) v.overlaps = true →
    ∀ segment ∈ v.tails ++ v.pending, ∀ row ∈ segment.rows, row.kind = .data →
      cover.covers row.key row.lsn = false

instance (v : Volume) (cue : Option Nat) : Decidable (v.PruneSafe cue) :=
  inferInstanceAs (Decidable (∀ cover ∈ v.index.covers,
    prunable cover (v.pruneFloor cue) v.overlaps = true →
      ∀ segment ∈ v.tails ++ v.pending, ∀ row ∈ segment.rows, row.kind = .data →
        cover.covers row.key row.lsn = false))

variable {cue : Option Nat}

theorem pruneSafe_covers (hsafe : v.PruneSafe cue)
    (hc : cover ∈ v.index.covers) {id : Nat} (hrow : Holds v.segments id row)
    (hdata : row.kind = .data) (hcov : cover.covers row.key row.lsn = true) :
    prunable cover (v.pruneFloor cue) v.overlaps = false := by
  by_contra hno
  have hprune : prunable cover (v.pruneFloor cue) v.overlaps = true := by simpa using hno
  obtain ⟨segment, hs, -, hr⟩ := hrow
  rcases mem_append.mp hs with hs | hs
  · rw [hsafe cover hc hprune segment hs row hr hdata] at hcov
    cases hcov
  · obtain ⟨-, hlow, hhigh⟩ := (cover.covers_iff _ _).mp hcov
    have hover : v.overlaps cover.low cover.high = true :=
      any_eq_true.mpr ⟨segment, hs, Segment.overlaps_of_mem hr hlow hhigh⟩
    simp [prunable, hover] at hprune

theorem pruneTombstones_eq (v : Volume) (cue : Option Nat) :
    v.pruneTombstones cue = if v.pruneFloor cue = 0 then v else
      { v with
        index := v.index.pruneTombstones (v.pruneFloor cue) v.overlaps (v.noted.map Segment.id) } :=
  rfl

theorem mem_pruneTombstones {before : Nat} {overlaps : Str → Option Str → Bool}
    {standing : List Nat} :
    cover ∈ (index.pruneTombstones before overlaps standing).covers ↔
      cover ∈ index.covers ∧ prunable cover before overlaps = false := by
  simp [ColumnIndex.pruneTombstones, pruneGraves, pruneCovers]

theorem isCovered_prune (hsafe : v.PruneSafe cue) {id : Nat}
    (hrow : Holds v.segments id row) (hdata : row.kind = .data)
    (hcov : isCovered v.index.covers row.key row.lsn = true) :
    isCovered (v.index.pruneTombstones (v.pruneFloor cue) v.overlaps
      (v.noted.map Segment.id)).covers row.key row.lsn = true := by
  obtain ⟨cover, hc, hcov⟩ := (isCovered_iff _ _ _).mp hcov
  exact (isCovered_iff _ _ _).mpr
    ⟨cover, mem_pruneTombstones.mpr ⟨hc, pruneSafe_covers hsafe hc hrow hdata hcov⟩, hcov⟩

theorem Sound.pruneTombstones (h : v.Sound hash strict)
    (hsafe : v.PruneSafe cue) : Sound hash strict (v.pruneTombstones cue) := by
  rw [pruneTombstones_eq]
  split
  · exact h
  · refine h.quiet ⟨h.laid, h.held, rfl, fun _ => Iff.rfl, fun h => h, fun _ h => h,
      isCovered_prune hsafe, ?_, ?_, Fades.refl _ _ h.distinct, ?_,
      ⟨h.queues.owed, h.queues.stale⟩⟩
    · intro key entry hg
      simp only [ColumnIndex.pruneTombstones, pruneGraves, pruneCovers,
        SortedMap.get_keep] at hg
      exact (Option.filter_eq_some_iff.mp hg).1
    · -- a grave let go stands as a tombstone in a noted footer
      intro id row hn hbefore hafter
      simp only [ColumnIndex.pruneTombstones, pruneGraves, pruneCovers,
        SortedMap.get_keep, hbefore] at hafter
      have hbury : buriable (row.resident id) (v.pruneFloor cue)
          (v.noted.map Segment.id) = true := by
        by_contra hno
        simp [Option.filter, hno] at hafter
      obtain ⟨segment, hs, hid, hrow⟩ := hn.holds
      have hpos := h.laid.ids_pos segment hs
      simp only [buriable, Bool.and_eq_true, Option.any_eq_true] at hbury
      obtain ⟨⟨hgrave, -⟩, origin, horigin, hin⟩ := hbury
      cases hkind : row.kind with
      | rangeTombstone => exact absurd hkind hn.point
      | data =>
        simp only [Row.resident, hkind, Entry.isGrave, Row.loc, beq_iff_eq] at hgrave
        omega
      | tombstone =>
        simp only [Found, hkind]
        have : origin = id := by
          simp only [Row.resident, hkind, Entry.graveOrigin, Entry.graveFrom] at horigin
          split at horigin
          · exact (Option.some.inj horigin).symm
          · cases horigin
        subst this
        obtain ⟨other, ho, hoid⟩ := mem_map.mp (contains_iff_mem.mp hin)
        have hsame := h.laid.segment_eq hs (v.noted_subset ho) (hid.trans hoid.symm)
        exact ⟨other, ho, hoid, hsame ▸ hrow⟩
    · exact ⟨h.covers.lsns.sublist (filter_sublist.map _),
        fun c hc => h.covers.drawn c (mem_pruneTombstones.mp hc).1,
        fun c hc => h.covers.low c (mem_pruneTombstones.mp hc).1,
        fun c hc => h.covers.resumes c (mem_pruneTombstones.mp hc).1⟩

end Volume

end Reel
