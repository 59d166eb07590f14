import Reel.Index.Sound
import Reel.Index.Lookup

/-!
Every operation keeps a column sound. Writes bring a new newest record; everything else
only moves what is known of the records already standing.
-/

set_option autoImplicit false

namespace Reel
open Bytes StableSort List

namespace Volume
variable {hash : Str → UInt64} {strict : Bool} {v v' : Volume}

variable {id : Nat} {row : Row}

theorem Newest.of_points (hpoint : ∀ {id : Nat} {row : Row}, row.kind ≠ .rangeTombstone →
      (Holds v'.segments id row ↔ Holds v.segments id row)) :
    v'.Newest id row ↔ v.Newest id row := by
  constructor
  · intro h
    exact ⟨(hpoint h.point).mp h.holds, h.point,
      fun ho hp hk => h.newest ((hpoint hp).mpr ho) hp hk⟩
  · intro h
    exact ⟨(hpoint h.point).mpr h.holds, h.point,
      fun ho hp hk => h.newest ((hpoint hp).mp ho) hp hk⟩

variable {key : Str}

theorem Outdone.mono (hgrow : ∀ {id : Nat} {row : Row}, row.kind ≠ .rangeTombstone →
      Holds v.segments id row → Holds v'.segments id row) {lsn : Nat}
    (h : v.Outdone key lsn) : v'.Outdone key lsn := by
  obtain ⟨id, row, hrow, hp, hk, hl⟩ := h
  exact ⟨id, row, hgrow hp hrow, hp, hk, hl⟩

theorem QueuesOk.mono (h : v.QueuesOk hash)
    (hgrow : ∀ {id : Nat} {row : Row}, row.kind ≠ .rangeTombstone →
      Holds v.segments id row → Holds v'.segments id row)
    (hnoted : ∀ {id : Nat} {row : Row}, Holds v.noted id row → Holds v'.noted id row)
    (howed : ∀ x ∈ v'.spot.owed, x ∈ v.spot.owed) (hstale : ∀ s ∈ v'.spot.stale, s ∈ v.spot.stale) :
    v'.QueuesOk hash where
  owed := fun x hx => (h.owed x (howed x hx)).mono hgrow
  stale := by
    intro stale hs
    obtain ⟨id, row, hp, hrow, hk, hout⟩ := h.stale stale (hstale stale hs)
    exact ⟨id, row, hp, hnoted hrow, hk, hout.mono hgrow⟩

/-- A step that writes no put and no delete: what it drops from the map is still found, what it
drops from the spot index was outdated or is covered. -/
structure Quiet (hash : Str → UInt64) (strict : Bool) (v v' : Volume) : Prop where
  laid : Laid v'.segments v'.next
  held : HeldOk v'.held v'.noted
  width : v'.index.width = v.index.width
  point : ∀ {id : Nat} {row : Row}, row.kind ≠ .rangeTombstone →
    (Holds v'.segments id row ↔ Holds v.segments id row)
  noted : ∀ {id : Nat} {row : Row}, Holds v.noted id row → Holds v'.noted id row
  released : ∀ {id : Nat} {row : Row}, Holds v.noted id row → id ∉ v.held → id ∉ v'.held
  covered : ∀ {id : Nat} {row : Row}, Holds v.segments id row → row.kind = .data →
    isCovered v.index.covers row.key row.lsn = true →
      isCovered v'.index.covers row.key row.lsn = true
  get : ∀ {key : Str} {entry : Entry}, v'.index.map.get key = some entry →
    v.index.map.get key = some entry
  dropped : ∀ {id : Nat} {row : Row}, v.Newest id row →
    v.index.map.get row.key = some (row.resident id) → v'.index.map.get row.key = none →
      v'.Found hash strict id row
  fades : Fades (fun _ => False) (fun slot => ∀ {id : Nat} {row : Row}, Points hash slot id row →
      Holds v.noted id row → v.Outdone row.key (row.lsn + 1) ∨
        isCovered v'.index.covers row.key row.lsn = true) v.spot.slots v'.spot.slots
  covers : CoversOk v'.index v'.next
  queues : v'.QueuesOk hash

theorem Newest.not_outdone (h : v.Newest id row) :
    ¬ v.Outdone row.key (row.lsn + 1) := by
  rintro ⟨j, other, ho, hp, hk, hl⟩
  have := h.newest ho hp hk
  omega

theorem Sound.quiet (h : v.Sound hash strict) (q : Quiet hash strict v v') :
    v'.Sound hash strict := by
  have hnewest : ∀ {id : Nat} {row : Row}, v'.Newest id row ↔ v.Newest id row :=
    Newest.of_points q.point
  have hsub : ∀ slot ∈ v'.spot.slots, slot ∈ v.spot.slots := by
    intro slot hslot
    rcases q.fades.old slot hslot with hold | ⟨_, _, hno, _⟩
    · exact hold
    · exact hno.elim
  refine ⟨q.laid, q.held, ?_, ?_, ?_, ?_, q.fades.distinct, q.covers, q.queues⟩
  · intro id row hrow hdata
    rw [q.width]
    exact h.accepted ((q.point (by simp [hdata])).mp hrow) hdata
  · intro key entry hget
    obtain ⟨hacc, id, row, hn, hk, he⟩ := h.mapped (q.get hget)
    exact ⟨q.width ▸ hacc, id, row, hnewest.mpr hn, hk, he⟩
  · intro id row hn hacc hget
    rw [hnewest] at hn
    rw [q.width] at hacc
    cases hbefore : v.index.map.get row.key with
    | some entry =>
      obtain ⟨-, id', row', hn', hk', rfl⟩ := h.mapped hbefore
      obtain ⟨rfl, rfl⟩ := hn.unique h.laid hn' hk'.symm
      exact q.dropped hn hbefore hget
    | none =>
      have hway := h.absent hn hacc hbefore
      cases hkind : row.kind with
      | rangeTombstone => exact absurd hkind hn.point
      | tombstone =>
        simp only [Found, hkind] at hway ⊢
        exact q.noted hway
      | data =>
        simp only [Found, hkind] at hway ⊢
        rcases hway with hcov | ⟨hnoted, slot, hslot, hp, hlive⟩
        · exact .inl (q.covered hn.holds hkind hcov)
        · rcases q.fades.kept slot hslot with hstay | ⟨hno, -⟩ | hlose
          · exact .inr ⟨q.noted hnoted, slot, hstay, hp, hlive⟩
          · exact hno.elim
          · rcases hlose hp hnoted with hout | hcov
            · exact absurd hout hn.not_outdone
            · exact .inl hcov
  · intro slot hslot
    obtain ⟨id, row, hp, hrow, hheld, hdata, hlive⟩ := h.slots slot (hsub slot hslot)
    refine ⟨id, row, hp, q.noted hrow, q.released hrow hheld, hdata, ?_⟩
    intro hd
    obtain ⟨hn, hget⟩ := hlive hd
    refine ⟨hnewest.mpr hn, ?_⟩
    cases hafter : v'.index.map.get row.key with
    | none => rfl
    | some entry =>
      rw [q.get hafter] at hget
      cases hget

theorem Sound.relay (h : v.Sound hash strict) (hlaid : Laid v'.segments v'.next)
    (hheld : HeldOk v'.held v'.noted) (hindex : v'.index = v.index) (hspot : v'.spot = v.spot)
    (hnext : v.next ≤ v'.next)
    (hrows : ∀ {id : Nat} {row : Row}, Holds v'.segments id row ↔ Holds v.segments id row)
    (hnoted : ∀ {id : Nat} {row : Row}, Holds v.noted id row → Holds v'.noted id row)
    (hreleased : ∀ {id : Nat} {row : Row}, Holds v.noted id row → id ∉ v.held → id ∉ v'.held) :
    v'.Sound hash strict := by
  refine h.quiet ⟨hlaid, hheld, by rw [hindex], fun _ => hrows, hnoted, hreleased, ?_, ?_, ?_, ?_, ?_, ?_⟩
  · intro id row _ _ hcov
    rwa [hindex]
  · intro key entry hget
    rwa [hindex] at hget
  · intro id row _ hget hnone
    rw [hindex, hget] at hnone
    cases hnone
  · rw [hspot]
    exact Fades.refl _ _ h.distinct
  · rw [hindex]
    exact ⟨h.covers.lsns, fun c hc => (h.covers.drawn c hc).trans_le hnext, h.covers.low,
      h.covers.resumes⟩
  · exact h.queues.mono (fun _ => hrows.mpr) hnoted (by rw [hspot]; exact fun _ h => h)
      (by rw [hspot]; exact fun _ h => h)

theorem openTail_perm (v : Volume) (id : Nat) :
    (segments { v with tails := v.tails ++ [⟨id, [], 0⟩] }).Perm (⟨id, [], 0⟩ :: v.segments) := by
  simp only [segments, append_assoc, singleton_append]
  exact perm_middle

theorem openTail_rows {j : Nat} :
    Holds (segments { v with tails := v.tails ++ [⟨id, [], 0⟩] }) j row ↔ Holds v.segments j row := by
  constructor
  · rintro ⟨s, hs, hj, hrow⟩
    rcases mem_cons.mp ((v.openTail_perm id).subset hs) with rfl | hs
    · cases hrow
    · exact ⟨s, hs, hj, hrow⟩
  · rintro ⟨s, hs, hj, hrow⟩
    exact ⟨s, (v.openTail_perm id).symm.subset (mem_cons_of_mem _ hs), hj, hrow⟩

theorem Sound.openTail (h : v.Sound hash strict) (hid : id ≠ 0)
    (hfresh : ∀ segment ∈ v.segments, segment.id ≠ id) :
    Sound hash strict { v with tails := v.tails ++ [⟨id, [], 0⟩] } := by
  have hcons : Laid (⟨id, [], 0⟩ :: v.segments) v.next := by
    have hold : ∀ {j : Nat} {row : Row}, Holds (⟨id, [], 0⟩ :: v.segments) j row →
        Holds v.segments j row := fun hr => openTail_rows.mp (hr.mono (v.openTail_perm id).symm.subset)
    exact ⟨h.laid.toSited.cons hid hfresh, fun ha hb => h.laid.lsns (hold ha) (hold hb),
      fun hr => h.laid.drawn (hold hr)⟩
  exact h.relay (hcons.perm (v.openTail_perm id)) h.held rfl rfl (le_refl _) openTail_rows
    (fun h => h) (fun _ h => h)

theorem foreign_back {tail : Nat} : ∀ s' ∈ (v.foreign tail).segments,
    ∃ s ∈ v.segments, s'.id = s.id ∧ s'.rows = s.rows ∧ s.maxLsn ≤ s'.maxLsn := by
  intro s' hs'
  simp only [segments, Volume.foreign, mem_append, mem_map] at hs' ⊢
  rcases hs' with (⟨s, hs, rfl⟩ | hs) | hs
  · refine ⟨s, .inl (.inl hs), ?_⟩
    split <;> simp
  · exact ⟨s', .inl (.inr hs), rfl, rfl, le_refl _⟩
  · exact ⟨s', .inr hs, rfl, rfl, le_refl _⟩

theorem foreign_rows {tail : Nat} :
    Holds (v.foreign tail).segments id row ↔ Holds v.segments id row := by
  constructor
  · rintro ⟨s', hs', hid, hrow⟩
    obtain ⟨s, hs, hid', hr, -⟩ := foreign_back s' hs'
    exact ⟨s, hs, hid' ▸ hid, hr ▸ hrow⟩
  · rintro ⟨s, hs, hid, hrow⟩
    simp only [segments, mem_append] at hs
    rcases hs with (hs | hs) | hs
    · refine ⟨_, mem_append_left _ (mem_append_left _ (mem_map_of_mem hs)), ?_⟩
      split <;> exact ⟨hid, hrow⟩
    · exact ⟨s, mem_append_left _ (mem_append_right _ hs), hid, hrow⟩
    · exact ⟨s, mem_append_right _ hs, hid, hrow⟩

theorem Sound.foreign (h : v.Sound hash strict) (tail : Nat) : (v.foreign tail).Sound hash strict := by
  have hids : (v.foreign tail).segments.map Segment.id = v.segments.map Segment.id := by
    simp only [segments, Volume.foreign, map_append, map_map]
    congr 2
    refine map_congr_left fun s _ => ?_
    simp only [Function.comp_apply]
    split <;> rfl
  exact h.relay (h.laid.raise hids foreign_back (Nat.le_succ _)) h.held rfl rfl (Nat.le_succ _)
    foreign_rows (fun h => h) (fun _ h => h)

theorem sealTail_open_perm (v : Volume) (tail : Nat) :
    ((v.sealTail tail).tails ++ (v.sealTail tail).pending).Perm (v.tails ++ v.pending) := by
  have hsplit : (v.tails.filter (fun held => held.id = tail) ++
      v.tails.filter fun held => held.id ≠ tail).Perm v.tails := by
    simpa using filter_append_perm (fun held : Segment => decide (held.id = tail)) v.tails
  simp only [Volume.sealTail]
  calc v.tails.filter (fun held => held.id ≠ tail) ++
        (v.pending ++ v.tails.filter fun held => held.id = tail)
      _ |>.Perm ((v.tails.filter (fun held => held.id ≠ tail) ++
          v.tails.filter fun held => held.id = tail) ++ v.pending) := by
        rw [append_assoc]
        exact perm_append_comm.append_left _
      _ |>.Perm (v.tails ++ v.pending) := (perm_append_comm.trans hsplit).append_right _

theorem sealTail_perm (v : Volume) (tail : Nat) : (v.sealTail tail).segments.Perm v.segments :=
  (v.sealTail_open_perm tail).append_right _

theorem Sound.sealTail (h : v.Sound hash strict) (tail : Nat) :
    (v.sealTail tail).Sound hash strict :=
  h.relay (h.laid.perm (v.sealTail_perm tail)) h.held rfl rfl (le_refl _)
    (Holds.perm (v.sealTail_perm tail)) (fun h => h) (fun _ h => h)

theorem holdSealed_perm (v : Volume) : v.holdSealed.segments.Perm
    (v.tails ++ (v.pending.filter fun segment => !segment.rows.isEmpty) ++ v.noted) := by
  simp only [segments, Volume.holdSealed, append_nil, append_assoc]
  exact perm_append_comm.append_left _

theorem holdSealed_sublist (v : Volume) :
    (v.tails ++ (v.pending.filter fun segment => !segment.rows.isEmpty) ++ v.noted).Sublist
      v.segments :=
  ((List.Sublist.refl _).append filter_sublist).append (List.Sublist.refl _)

theorem holdSealed_rows :
    Holds v.holdSealed.segments id row ↔ Holds v.segments id row := by
  constructor
  · intro hr
    exact (hr.mono v.holdSealed_perm.subset).mono v.holdSealed_sublist.subset
  · rintro ⟨s, hs, hid, hrow⟩
    refine Holds.mono v.holdSealed_perm.symm.subset ⟨s, ?_, hid, hrow⟩
    simp only [segments, mem_append] at hs ⊢
    rcases hs with (hs | hs) | hs
    · exact .inl (.inl hs)
    · refine .inl (.inr (mem_filter.mpr ⟨hs, ?_⟩))
      cases hr : s.rows with
      | nil => simp [hr] at hrow
      | cons => rfl
    · exact .inr hs

def kept (v : Volume) : List Segment := v.pending.filter fun segment => !segment.rows.isEmpty

theorem kept_fresh (hsited : Sited v.segments) (hid : id ∈ v.noted.map Segment.id) :
    id ∉ v.kept.map Segment.id := by
  intro hin
  have hids := hsited.ids
  simp only [segments, map_append] at hids
  refine (nodup_append.mp hids).2.2 id (mem_append_right _ ?_) id hid rfl
  exact (filter_sublist.map _).subset hin

theorem kept_nodup (hsited : Sited v.segments) : (v.kept.map Segment.id).Nodup := by
  refine hsited.ids.sublist (List.Sublist.map _ ?_)
  exact filter_sublist.trans
    ((sublist_append_right _ _).trans (sublist_append_left _ _))

theorem Sound.holdSealed (h : v.Sound hash strict) : v.holdSealed.Sound hash strict := by
  have hsited := h.laid.toSited
  have hheld : HeldOk v.holdSealed.held v.holdSealed.noted := by
    refine ⟨nodup_append.mpr ⟨h.held.nodup, kept_nodup hsited, ?_⟩, ?_⟩
    · rintro id hid _ hin rfl
      exact kept_fresh hsited (h.held.noted id hid) hin
    · intro id hid
      simp only [Volume.holdSealed, map_append, mem_append] at hid ⊢
      exact hid.imp (h.held.noted id) fun h => h
  refine h.relay ((h.laid.sublist v.holdSealed_sublist).perm v.holdSealed_perm) hheld rfl rfl
    (le_refl _) holdSealed_rows ?_ ?_
  · intro id row hr
    exact hr.mono (subset_append_left _ _)
  · rintro id row ⟨s, hs, rfl, -⟩ hout hin
    rcases mem_append.mp hin with hin | hin
    · exact hout hin
    · exact kept_fresh hsited (mem_map_of_mem hs) hin

variable {slot : Slot}

theorem settleRead_eq (hsited : Sited v.segments)
    (hp : Points hash slot id row) (hrow : Holds v.noted id row) (hdata : row.kind = .data)
    (cache : Cache) (key : Str) (newer : Nat) :
    settleRead (recordsOf v.segments cache) v.maxLsnOf key newer slot =
      if row.key = key ∧ row.lsn < newer then .older row.len else .skip := by
  obtain ⟨hseg, hoff⟩ := Prod.mk.inj hp.place
  have hhead : headIn v.segments key slot.segment slot.offset = row.headFor key := by
    rw [hseg, hoff]
    exact hsited.headIn_eq (hrow.mono v.noted_subset) key
  have hjudge : judge slot newer (row.headFor key) =
      if row.key = key ∧ row.lsn < newer then .older row.len else .skip := by
    by_cases hk : row.key = key
    · simp [Row.headFor, hk, hdata, judge]
    · simp [Row.headFor, hk, judge]
  unfold settleRead
  simp only [recordsOf, hhead]
  by_cases hcold : cache.cold slot.segment slot.offset = true
  · simp only [hcold, if_true, hp.isGrave, Bool.not_false, Bool.and_true]
    by_cases hold : isOlder v.maxLsnOf newer slot = true
    · simp only [hold, if_true]
      by_cases hk : row.key = key
      · have hlt : row.lsn < newer := by
          obtain ⟨ceiling, hc, hlt⟩ := (Option.any_eq_true _ _).mp hold
          rw [hseg] at hc
          have := maxLsnOf_le hsited hrow ceiling hc
          simp only [decide_eq_true_eq] at hlt
          omega
        simp only [Row.headFor, hk, hdata, true_and, ne_eq, reduceCtorEq, not_false_eq_true, if_true,
          decide_false, Bool.not_false, Bool.and_true, hlt]
        split <;> simp_all [judge]
      · simp [Row.headFor, hk, judge]
    · simp only [hold]
      exact hjudge
  · simp only [hcold]
    unfold Row.headFor at hjudge ⊢
    split <;> simp_all

theorem settleOne_eq (hsited : Sited v.segments)
    (hp : Points hash slot id row) (hrow : Holds v.noted id row) (hdata : row.kind = .data)
    (cache : Cache) (key : Str) (newer : Nat) (owed mustRead : Bool) :
    settleOne (recordsOf v.segments cache) v.maxLsnOf key newer owed mustRead slot =
      if owed && !slot.isDisplaced then .skip
      else if !mustRead && slot.isDisplaced then .skip
      else if !mustRead && isOlder v.maxLsnOf newer slot then .unread
      else if row.key = key ∧ row.lsn < newer then .older row.len else .skip := by
  unfold settleOne
  rw [settleRead_eq hsited hp hrow hdata]

/-- A slot no lookup needs: a later record of its key stands, or a cover took its own. -/
def Spent (hash : Str → UInt64) (v : Volume) (slot : Slot) : Prop :=
  ∀ {id : Nat} {row : Row}, Points hash slot id row → Holds v.noted id row →
    v.Outdone row.key (row.lsn + 1) ∨ isCovered v.index.covers row.key row.lsn = true

theorem Spent.of_displaced (h : v.Spent hash slot.displaced) : v.Spent hash slot :=
  fun hp hrow => h hp.displaced hrow

theorem Sound.fade (h : v.Sound hash strict) (spot : SpotColumn)
    (hf : Fades (fun _ => False) (v.Spent hash) v.spot.slots spot.slots)
    (hq : QueuesOk hash { v with spot }) : Sound hash strict { v with spot } := by
  refine h.quiet ⟨h.laid, h.held, rfl, fun _ => Iff.rfl, fun h => h, fun _ h => h, fun _ _ h => h,
    fun h => h, ?_, hf, h.covers, hq⟩
  intro id row _ hget hnone
  rw [show v.index.map.get row.key = none from hnone] at hget
  cases hget

section
variable (h : v.Sound hash strict)
include h

theorem owed_settle_fades (cache : Cache) {newer : Nat}
    (hout : v.Outdone key newer) :
    Fades (fun _ => False) (v.Spent hash) v.spot.slots
      (settleVersions (recordsOf v.segments cache) v.maxLsnOf v.spot.slots (hash key) key newer
        true).1 := by
  rw [settleVersions_slots h.distinct]
  refine (settle_fades h.distinct (hash key) _).mono ?_ ?_
  · rintro slot hslot ⟨-, hv⟩
    obtain ⟨id, row, hp, hrow, -, hdata, -⟩ := h.slots slot hslot
    simp only [settleVerdict, settleOne_eq h.laid.toSited hp hrow hdata, Bool.true_or] at hv
    revert hv
    split <;> simp
    split <;> simp
  · rintro slot hslot ⟨-, hv⟩
    obtain ⟨id, row, hp, hrow, -, hdata, -⟩ := h.slots slot hslot
    intro id' row' hp' hrow'
    obtain ⟨rfl, rfl⟩ := hp.row_eq h.laid.toSited hp' (hrow.mono v.noted_subset) (hrow'.mono v.noted_subset)
    left
    simp only [settleVerdict, settleOne_eq h.laid.toSited hp hrow hdata, Bool.true_or] at hv
    obtain ⟨hk, hlt⟩ : row.key = key ∧ row.lsn < newer := by
      by_contra hno
      revert hv
      simp only [hno, if_false]
      split <;> simp [Verdict.isOlder]
    obtain ⟨j, other, ho, hpo, hko, hle⟩ := hout
    exact ⟨j, other, ho, hpo, hko.trans hk.symm, by omega⟩

theorem Sound.rebookOwed (cache : Cache) (budget : Nat) :
    Sound hash strict { v with spot := v.spot.rebookOwed (v.sources hash cache) budget } := by
  induction budget generalizing v with
  | zero => exact h
  | succ budget ih =>
    unfold SpotColumn.rebookOwed
    cases ho : v.spot.owed with
    | nil => exact h
    | cons x owed =>
      obtain ⟨key, newer⟩ := x
      have hout := h.queues.owed (key, newer) (by rw [ho]; exact mem_cons_self)
      have hstep := h.fade ({ v.spot with
          slots := (settleVersions (recordsOf v.segments cache) v.maxLsnOf v.spot.slots (hash key) key
            newer true).1
          owed }) (owed_settle_fades h cache hout)
        (h.queues.mono (fun _ h => h) (fun h => h)
          (fun x hx => by rw [ho]; exact mem_cons_of_mem _ hx) fun _ hs => hs)
      exact ih hstep

theorem Sound.takeUnbooked {stale : Stale}
    (hp : Points hash stale.slot id row) (hrow : Holds v.noted id row)
    (hout : v.Outdone row.key (row.lsn + 1)) :
    Fades (fun _ => False) (v.Spent hash) v.spot.slots
      (SpotColumn.takeUnbooked v.spot.slots (hash stale.key) stale.slot) := by
  unfold SpotColumn.takeUnbooked
  split
  · exact Fades.refl _ _ h.distinct
  · refine (takeSlot_fades h.distinct _ _).mono (fun _ _ h => h) ?_
    intro held hheld hn id' row' hp' hrow'
    simp only [names, Bool.and_eq_true, Slot.samePlace_iff] at hn
    have hplace : (id', row'.offset) = (id, row.offset) :=
      hp'.place.symm.trans (hn.2.1.trans hp.place)
    obtain ⟨rfl, hoff⟩ := Prod.mk.inj hplace
    rw [h.laid.row_eq (hrow'.mono v.noted_subset) (hrow.mono v.noted_subset) hoff]
    exact .inl hout

theorem Sound.scrub (budget : Nat) :
    Sound hash strict { v with spot := v.spot.scrub (v.sources hash .warm) budget } := by
  induction budget generalizing v with
  | zero => exact h
  | succ budget ih =>
    unfold SpotColumn.scrub
    cases hs : v.spot.stale with
    | nil => exact h
    | cons stale rest =>
      obtain ⟨id, row, hp, hrow, -, hout⟩ :=
        h.queues.stale stale (by rw [hs]; exact mem_cons_self)
      have hstep := h.fade ({ v.spot with
          slots := SpotColumn.takeUnbooked v.spot.slots (hash stale.key) stale.slot
          stale := rest }) (h.takeUnbooked hp hrow hout)
        (h.queues.mono (fun _ h => h) (fun h => h) (fun _ h => h)
          fun x hx => by rw [hs]; exact mem_cons_of_mem _ hx)
      exact ih hstep

theorem Sound.candid (cache : Cache) (key : Str) :
    ∀ x ∈ v.spot.ordered (v.sources hash cache) key, SpotColumn.Candid v.segments key x := by
  intro x hx
  obtain ⟨hm, hceil⟩ := mem_ordered hx
  obtain ⟨id, row, hp, hrow, -, -, -⟩ := h.slots x.2 (mem_slotMatches.mp hm).1
  have hhead := slot_head h.laid.toSited hp (hrow.mono v.noted_subset) key
  constructor
  · rw [hhead]
    unfold Row.headFor
    split <;> simp
  · intro head hh ceiling hc
    rw [hhead] at hh
    obtain ⟨-, -, rfl⟩ := headFor_same hh
    rcases hceil with hnone | hsome
    · rw [hnone] at hc
      cases hc
    · rw [hsome, (Prod.mk.inj hp.place).1] at hc
      exact maxLsnOf_le h.laid.toSited hrow ceiling hc

theorem Sound.slot_row (hslot : slot ∈ v.spot.slots)
    {head : Head} (hh : headIn v.segments key slot.segment slot.offset = .same head) :
    ∃ id row, Points hash slot id row ∧ Holds v.noted id row ∧ row.kind = .data ∧ row.key = key ∧
      head = ⟨row.lsn, row.len, false⟩ ∧
      (slot.isDisplaced = false → v.Newest id row ∧ v.index.map.get row.key = none) := by
  obtain ⟨id, row, hp, hrow, -, hdata, hlive⟩ := h.slots slot hslot
  rw [slot_head h.laid.toSited hp (hrow.mono v.noted_subset)] at hh
  obtain ⟨hk, -, rfl⟩ := headFor_same hh
  exact ⟨id, row, hp, hrow, hdata, hk, by simp [hdata], hlive⟩

theorem Sound.read_spec (cache : Cache) (key : Str) :
    SpotColumn.Queued (SpotColumn.Passed v.segments key (v.spot.matching (v.sources hash cache) key))
        v.spot (v.spot.read (v.sources hash cache) key true).2 ∧
      SpotColumn.Answers v.segments key (v.spot.matching (v.sources hash cache) key)
        (v.spot.read (v.sources hash cache) key true).1 ∧
      ∀ slot, soleLive (v.spot.matching (v.sources hash cache) key) = some slot →
        slot.isGrave = false →
          (∀ head, headIn v.segments key slot.segment slot.offset ≠ .same head) →
            (v.spot.read (v.sources hash cache) key true).1 = .missing := by
  refine SpotColumn.read_spec cache rfl (h.candid cache key) ?_
  intro slot hslot head hh
  obtain ⟨_, _, -, -, -, -, rfl, -⟩ := h.slot_row (mem_slotMatches.mp hslot).1 hh
  rfl

theorem Sound.spotRead (cache : Cache) (key : Str) :
    Sound hash strict (v.spotRead hash cache key).2 := by
  unfold Volume.spotRead
  cases v.mapped key with
  | some answer => cases answer <;> exact h
  | none =>
    obtain ⟨hq, -⟩ := h.read_spec cache key
    refine h.fade (v.spot.read (v.sources hash cache) key true).2 ?_ ⟨?_, ?_⟩
    · rw [hq.slots]
      exact Fades.refl _ _ h.distinct
    · intro x hx
      simp only [hq.owed] at hx
      exact h.queues.owed x hx
    · intro stale hs
      rcases hq.stale stale hs with hs | ⟨rfl, hin, head, hh, newer, hn, head', hh', hlt⟩
      · exact h.queues.stale stale hs
      · obtain ⟨id, row, hp, hrow, hdata, hk, rfl, -⟩ := h.slot_row (mem_slotMatches.mp hin).1 hh
        obtain ⟨j, other, -, hother, hdata', hk', rfl, -⟩ := h.slot_row (mem_slotMatches.mp hn).1 hh'
        exact ⟨id, row, hp, hrow, hk, j, other, hother.mono v.noted_subset, by simp [hdata'],
          hk'.trans hk.symm, hlt⟩

theorem Sound.kick {slots : List Slot} (hperm : slots.Perm v.spot.slots) :
    Sound hash strict { v with spot := v.spot.setSlots slots } := by
  refine h.fade (v.spot.setSlots slots) ⟨?_, ?_, ?_⟩ ⟨h.queues.owed, h.queues.stale⟩
  · exact (hperm.map _).nodup_iff.mpr h.distinct
  · exact fun slot hslot => .inl (hperm.subset hslot)
  · exact fun slot hslot => .inl (hperm.symm.subset hslot)

end

end Volume

end Reel
