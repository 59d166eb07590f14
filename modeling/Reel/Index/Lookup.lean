import Reel.Index.Ledger

/-!
What one spot lookup answers when every record read is the record's own: the newest of the
key's slots, or the one live slot among all that hold the key's bits.
-/

set_option autoImplicit false

namespace Reel
open Bytes StableSort List

namespace SpotColumn

theorem queue_slots (spot : SpotColumn) (stale : Stale) : (spot.queue stale).slots = spot.slots := by
  unfold queue
  split <;> rfl

theorem queue_owed (spot : SpotColumn) (stale : Stale) : (spot.queue stale).owed = spot.owed := by
  unfold queue
  split <;> rfl

theorem mem_queue {spot : SpotColumn} {stale x : Stale} (h : x ∈ (spot.queue stale).stale) :
    x ∈ spot.stale ∨ x = stale := by
  unfold queue at h
  split at h
  · simpa using h
  · exact .inl h

/-- A table some lookup left: the same slots, and queued slots `ok` speaks for. -/
structure Queued (ok : Stale → Prop) (spot spot' : SpotColumn) : Prop where
  slots : spot'.slots = spot.slots
  owed : spot'.owed = spot.owed
  stale : ∀ x ∈ spot'.stale, x ∈ spot.stale ∨ ok x

theorem Queued.refl (ok : Stale → Prop) (spot : SpotColumn) : Queued ok spot spot :=
  ⟨rfl, rfl, fun _ h => .inl h⟩

theorem foldl_queue {ok : Stale → Prop} (key : Str) (read : List (Slot × Nat)) (spot : SpotColumn)
    (hok : ∀ x ∈ read, ok ⟨key, x.1, x.2⟩) :
    Queued ok spot (read.foldl (fun spot x => spot.queue ⟨key, x.1, x.2⟩) spot) := by
  induction read generalizing spot with
  | nil => exact Queued.refl ok spot
  | cons x read ih =>
    have hrest := ih (spot.queue ⟨key, x.1, x.2⟩) fun y hy => hok y (mem_cons_of_mem _ hy)
    refine ⟨hrest.slots.trans (queue_slots _ _), hrest.owed.trans (queue_owed _ _), ?_⟩
    intro y hy
    rcases hrest.stale y hy with hy | hy
    · rcases mem_queue hy with hy | rfl
      · exact .inl hy
      · exact .inr (hok x mem_cons_self)
    · exact .inr hy

section
variable {segments : List Segment} {key : Str}

/-- The newest of the key's records among the slots a lookup has read, as the lookup keeps it. -/
structure PickOk (segments : List Segment) (key : Str) (seen : List Slot) (pick : Pick) : Prop where
  newest : match pick.best with
    | none => ∀ slot ∈ seen, ∀ head, headIn segments key slot.segment slot.offset ≠ .same head
    | some head => ∃ slot ∈ seen, headIn segments key slot.segment slot.offset = .same head ∧
        pick.bestDisplaced = slot.isDisplaced ∧ ∀ other ∈ seen, ∀ head',
          headIn segments key other.segment other.offset = .same head' → head'.lsn ≤ head.lsn
  stale : ∀ x ∈ pick.stale, x.1 ∈ seen ∧ ∃ head,
    headIn segments key x.1.segment x.1.offset = .same head ∧ ∃ newer ∈ seen, ∃ head',
      headIn segments key newer.segment newer.offset = .same head' ∧ head.lsn < head'.lsn
  versioned : pick.isVersionless = false

variable {seen : List Slot} {pick : Pick} {slot : Slot}

section
variable (h : PickOk segments key seen pick)
include h

theorem PickOk.grow
    (hpass : ∀ head, headIn segments key slot.segment slot.offset = .same head →
      ∃ held, pick.best = some held ∧ head.lsn ≤ held.lsn) :
    PickOk segments key (seen ++ [slot]) pick := by
  refine ⟨?_, ?_, h.versioned⟩
  · have hnewest := h.newest
    cases hb : pick.best with
    | none =>
      rw [hb] at hnewest
      intro other hother head hh
      rcases mem_append.mp hother with ho | ho
      · exact hnewest other ho head hh
      · rw [mem_singleton.mp ho] at hh
        obtain ⟨_, hno, -⟩ := hpass head hh
        rw [hb] at hno
        cases hno
    | some head =>
      rw [hb] at hnewest
      obtain ⟨best, hin, hh, hd, hmax⟩ := hnewest
      refine ⟨best, mem_append_left _ hin, hh, hd, ?_⟩
      intro other hother head' hh'
      rcases mem_append.mp hother with ho | ho
      · exact hmax other ho head' hh'
      · rw [mem_singleton.mp ho] at hh'
        obtain ⟨_, hsome, hle⟩ := hpass head' hh'
        rw [hb] at hsome
        cases hsome
        exact hle
  · intro x hx
    obtain ⟨hin, head, hh, newer, hn, rest⟩ := h.stale x hx
    exact ⟨mem_append_left _ hin, head, hh, newer, mem_append_left _ hn, rest⟩

theorem PickOk.next (n : Nat) :
    PickOk segments key seen { pick with next := n } := ⟨h.newest, h.stale, h.versioned⟩

theorem PickOk.take
    {head : Head} (hh : headIn segments key slot.segment slot.offset = .same head) :
    PickOk segments key (seen ++ [slot]) (pick.take slot head) := by
  have hfresh : (∀ held, pick.best = some held → held.lsn ≤ head.lsn) →
      PickOk segments key (seen ++ [slot])
        { pick with best := some head, bestDisplaced := slot.isDisplaced } := by
    intro hnewer
    refine ⟨⟨slot, by simp, hh, rfl, ?_⟩, ?_, h.versioned⟩
    · intro other hother head' hh'
      rcases mem_append.mp hother with ho | ho
      · have hnewest := h.newest
        cases hb : pick.best with
        | none =>
          rw [hb] at hnewest
          exact absurd hh' (hnewest other ho head')
        | some held =>
          rw [hb] at hnewest
          obtain ⟨_, -, -, -, hmax⟩ := hnewest
          exact (hmax other ho head' hh').trans (hnewer held hb)
      · rw [mem_singleton.mp ho, hh] at hh'
        cases hh'
        exact le_refl _
    · intro x hx
      obtain ⟨hin, head, hh, newer, hn, rest⟩ := h.stale x hx
      exact ⟨mem_append_left _ hin, head, hh, newer, mem_append_left _ hn, rest⟩
  unfold Pick.take
  cases hb : pick.best with
  | none => exact hfresh (by simp [hb])
  | some current =>
    simp only
    split
    · rename_i hle
      have hgrown : PickOk segments key (seen ++ [slot]) pick := by
        refine h.grow fun head' hh' => ⟨current, hb, ?_⟩
        rw [hh] at hh'
        cases hh'
        exact hle
      split
      · rename_i hlt
        refine ⟨by simpa only [hb] using hgrown.newest, ?_, h.versioned⟩
        intro x hx
        rcases mem_append.mp hx with hx | hx
        · exact hgrown.stale x hx
        · obtain rfl := mem_singleton.mp hx
          have hnewest := h.newest
          rw [hb] at hnewest
          obtain ⟨best, hin, hbest, -⟩ := hnewest
          exact ⟨by simp, head, hh, best, mem_append_left _ hin, current, hbest, hlt⟩
      · exact hgrown
    · rename_i hle
      refine hfresh fun held hheld => ?_
      rw [hb] at hheld
      cases hheld
      omega

end

/-- A candidate a lookup can read: its record stands, and no ceiling is below its number. -/
def Candid (segments : List Segment) (key : Str) (x : Option Nat × Slot) : Prop :=
  headIn segments key x.2.segment x.2.offset ≠ .missing ∧
    ∀ head, headIn segments key x.2.segment x.2.offset = .same head →
      ∀ ceiling ∈ x.1, head.lsn ≤ ceiling

theorem nextOrdered_spec (rest : List (Option Nat × Slot))
    (h : PickOk segments key seen pick) (hc : ∀ x ∈ rest, Candid segments key x) :
    (∃ n, pick.nextOrdered rest = (none, { pick with next := n }) ∧
        PickOk segments key (seen ++ rest.map Prod.snd) { pick with next := n }) ∨
      ∃ skipped slot ceiling later, rest = skipped ++ (ceiling, slot) :: later ∧
        pick.nextOrdered rest =
          (some ⟨slot, false⟩, { pick with next := pick.next + skipped.length + 1 }) ∧
        PickOk segments key (seen ++ skipped.map Prod.snd)
          { pick with next := pick.next + skipped.length + 1 } := by
  induction rest generalizing seen pick with
  | nil => exact .inl ⟨pick.next, rfl, by simpa using h⟩
  | cons x rest ih =>
    obtain ⟨ceiling, slot⟩ := x
    unfold Pick.nextOrdered
    simp only
    split
    · rename_i hout
      -- a ceiling below the best read so far leaves the best standing
      have hgrown : PickOk segments key (seen ++ [slot]) { pick with next := pick.next + 1 } := by
        refine (h.next _).grow fun head hh => ?_
        cases hb : pick.best with
        | none => cases ceiling <;> simp [ruledOut, hb] at hout
        | some held =>
          refine ⟨held, rfl, ?_⟩
          cases ceiling with
          | none => simp [ruledOut] at hout
          | some ceiling =>
            have hlow : ceiling < held.lsn := by simpa [ruledOut, hb] using hout
            have := (hc _ mem_cons_self).2 head hh ceiling rfl
            omega
      rcases ih hgrown fun y hy => hc y (mem_cons_of_mem _ hy) with
        ⟨n, heq, hok⟩ | ⟨skipped, next, top, later, hrest, heq, hok⟩
      · exact .inl ⟨n, heq, by simpa using hok⟩
      · refine .inr ⟨(ceiling, slot) :: skipped, next, top, later, by simp [hrest], ?_, ?_⟩
        · rw [heq]
          simp only [length_cons]
          congr 3
          omega
        · have hn : pick.next + ((ceiling, slot) :: skipped).length + 1 =
              pick.next + 1 + skipped.length + 1 := by
            simp only [length_cons]
            omega
          rw [hn]
          simpa using hok
    · exact .inr ⟨[], slot, ceiling, rest, rfl, rfl, by simpa using h.next _⟩

@[simp] theorem take_ordered (pick : Pick) (slot : Slot) (head : Head) :
    (pick.take slot head).ordered = pick.ordered := by
  unfold Pick.take
  split
  · split
    · split <;> rfl
    · rfl
  · rfl

@[simp] theorem take_next (pick : Pick) (slot : Slot) (head : Head) :
    (pick.take slot head).next = pick.next := by
  unfold Pick.take
  split
  · split
    · split <;> rfl
    · rfl
  · rfl

@[simp] theorem take_takesNewest (pick : Pick) (slot : Slot) (head : Head) :
    (pick.take slot head).takesNewest = pick.takesNewest := by
  unfold Pick.take
  split
  · split
    · split <;> rfl
    · rfl
  · rfl

def soleOf (takesNewest : Bool) (slots : List Slot) : Option Slot :=
  if takesNewest then (soleLive slots).filter fun slot => !slot.isGrave else none

variable {src : Sources}

/-- What a lookup's answer says of the slots that hold the key's bits. -/
def Answers (segments : List Segment) (key : Str) (seen : List Slot) : Lookup → Prop
  | .found lsn | .newest lsn => ∃ slot ∈ seen, slot.isDisplaced = false ∧ ∃ head,
      headIn segments key slot.segment slot.offset = .same head ∧ head.lsn = lsn
  | .missing => (∀ slot ∈ seen, ∀ head, headIn segments key slot.segment slot.offset ≠ .same head) ∨
      ∃ slot, soleLive seen = some slot ∧ ∀ head,
        headIn segments key slot.segment slot.offset ≠ .same head
  | .unsettled => True

/-- A queued slot is an own record older than another of the key's. -/
def Passed (segments : List Segment) (key : Str) (seen : List Slot) (stale : Stale) : Prop :=
  stale.key = key ∧ stale.slot ∈ seen ∧ ∃ head,
    headIn segments key stale.slot.segment stale.slot.offset = .same head ∧ ∃ newer ∈ seen, ∃ head',
      headIn segments key newer.segment newer.offset = .same head' ∧ head.lsn < head'.lsn

theorem settle_spec (spot : SpotColumn)
    (h : PickOk segments key seen pick)
    (hdata : ∀ slot ∈ seen, ∀ head, headIn segments key slot.segment slot.offset = .same head →
      head.isTombstone = false) :
    Queued (Passed segments key seen) spot (spot.settle key pick).2 ∧
      Answers segments key seen (spot.settle key pick).1 := by
  constructor
  · refine foldl_queue key _ spot fun x hx => ?_
    obtain ⟨hin, rest⟩ := h.stale x (mem_filter.mp hx).1
    exact ⟨rfl, hin, rest⟩
  · have hnewest := h.newest
    unfold settle
    cases hb : pick.best with
    | none =>
      rw [hb] at hnewest
      exact .inl hnewest
    | some head =>
      rw [hb] at hnewest
      obtain ⟨slot, hslot, hh, hd, -⟩ := hnewest
      simp only [h.versioned, hdata slot hslot head hh, Bool.false_eq_true, if_false]
      split
      · trivial
      · rename_i hlive
        rw [hd] at hlive
        exact ⟨slot, hslot, by simpa using hlive, head, hh, rfl⟩

theorem headIn_ne_cold (segments : List Segment) (key : Str) (segment offset : Nat) :
    headIn segments key segment offset ≠ .cold := by
  unfold headIn
  split
  · simp
  · split
    · simp
    · split <;> simp

theorem soleLive_eq_some {slots : List Slot} (h : soleLive slots = some slot) :
    slot ∈ slots ∧ slot.isDisplaced = false ∧
      ∀ other ∈ slots, other.isDisplaced = false → other = slot := by
  unfold soleLive at h
  split at h
  · rename_i one hone
    cases h
    have hmem : ∀ other, other ∈ slots.filter (fun slot => !slot.isDisplaced) ↔ other = slot := by
      simp [hone]
    simp only [mem_filter, Bool.not_eq_true'] at hmem
    obtain ⟨hin, hd⟩ := (hmem slot).mpr rfl
    exact ⟨hin, hd, fun other ho hod => (hmem other).mp ⟨ho, hod⟩⟩
  · cases h

/-- Without a lone live slot a lookup reads every candidate, and closes on the newest own record
unless a read sends it to the checked path. -/
theorem readOn_ordered (spot : SpotColumn) {cache : Cache}
    (hsrc : src.records = recordsOf segments cache) (fuel : Nat) (pick : Pick)
    (hpath : soleOf pick.takesNewest (pick.ordered.map Prod.snd) = none)
    (h : PickOk segments key seen pick)
    (hc : ∀ x ∈ pick.ordered.drop pick.next, Candid segments key x)
    (hfuel : (pick.ordered.drop pick.next).length < fuel) :
    ∃ done, spot.readOn src key fuel pick = .inl done ∧ (done = (.unsettled, spot) ∨
      ∃ pick', PickOk segments key (seen ++ (pick.ordered.drop pick.next).map Prod.snd) pick' ∧
        done = spot.settle key pick') := by
  induction fuel generalizing pick seen with
  | zero => omega
  | succ fuel ih =>
    have hadvance : pick.advance = pick.nextOrdered (pick.ordered.drop pick.next) := by
      unfold soleOf at hpath
      simp only [Pick.advance, hpath]
    unfold readOn
    rw [hadvance]
    rcases nextOrdered_spec _ h hc with
      ⟨n, heq, hok⟩ | ⟨skipped, slot, ceiling, later, hrest, heq, hok⟩
    · rw [heq]
      exact ⟨_, rfl, .inr ⟨_, hok, rfl⟩⟩
    · rw [heq, hrest]
      have hslot : Candid segments key (ceiling, slot) := hc _ (by rw [hrest]; simp)
      have hdrop : pick.ordered.drop (pick.next + skipped.length + 1) = later := by
        rw [Nat.add_assoc, ← drop_drop, hrest, drop_append]
        simp
      have hlen : later.length < fuel := by
        rw [hrest] at hfuel
        simp only [length_append, length_cons] at hfuel
        omega
      have hlater : ∀ x ∈ later, Candid segments key x := fun x hx => hc x (by rw [hrest]; simp [hx])
      -- whatever the read folded in, the candidates left are those behind this one
      have hnext : ∀ next : Pick, next.ordered = pick.ordered →
          next.next = pick.next + skipped.length + 1 → next.takesNewest = pick.takesNewest →
          PickOk segments key (seen ++ skipped.map Prod.snd ++ [slot]) next →
          ∃ done, spot.readOn src key fuel next = .inl done ∧ (done = (.unsettled, spot) ∨
            ∃ pick', PickOk segments key
              (seen ++ (skipped ++ (ceiling, slot) :: later).map Prod.snd) pick' ∧
                done = spot.settle key pick') := by
        intro next hord hn htake hok'
        have hd : next.ordered.drop next.next = later := by rw [hord, hn, hdrop]
        have hgo := ih next (by rw [hord, htake]; exact hpath) hok' (by rw [hd]; exact hlater)
          (by rw [hd]; exact hlen)
        rw [hd] at hgo
        simpa using hgo
      simp only [hsrc, recordsOf]
      cases hh : headIn segments key slot.segment slot.offset with
      | missing => exact absurd hh hslot.1
      | cold =>
        simp only [Pick.offer]
        exact ⟨_, rfl, .inl rfl⟩
      | other =>
        simp only [Pick.offer]
        exact hnext _ rfl rfl rfl (hok.grow (by simp [hh]))
      | same head =>
        simp only [Bool.false_and, Bool.false_eq_true, if_false]
        by_cases hu : cache.unsure slot.segment slot.offset = true
        · simp only [hu, if_true, Pick.offer]
          exact ⟨_, rfl, .inl rfl⟩
        · simp only [hu]
          by_cases ht : head.isTombstone = true
          · simp only [ht, if_true, Pick.offer]
            exact hnext _ (by simp) (by simp) (by simp) (hok.take hh)
          · simp only [ht, Pick.offer]
            exact hnext _ (by simp) (by simp) (by simp) (hok.take hh)

/-- A lone live slot is read alone, and the lookup closes on what it holds. -/
theorem readOn_sole (spot : SpotColumn) {cache : Cache}
    (hsrc : src.records = recordsOf segments cache) (fuel : Nat)
    {ordered : List (Option Nat × Slot)}
    (hpath : soleOf true (ordered.map Prod.snd) = some slot)
    (hstands : headIn segments key slot.segment slot.offset ≠ .missing)
    (hdata : ∀ head, headIn segments key slot.segment slot.offset = .same head →
      head.isTombstone = false) :
    ∃ done, spot.readOn src key (fuel + 1) ⟨ordered, 0, none, false, true, false, []⟩ = .inl done ∧
      done.2 = spot ∧ Answers segments key (ordered.map Prod.snd) done.1 ∧
      ((∀ head, headIn segments key slot.segment slot.offset ≠ .same head) → done.1 = .missing) := by
  have hsole : soleLive (ordered.map Prod.snd) = some slot ∧ slot.isGrave = false := by
    simpa [soleOf, Option.filter_eq_some_iff] using hpath
  obtain ⟨hin, hlive, honly⟩ := soleLive_eq_some hsole.1
  have hfilter : ((soleLive (ordered.map Prod.snd)).filter fun slot => !slot.isGrave) = some slot := by
    simpa [soleOf] using hpath
  -- once the lone slot is read no candidate is left
  have hclose : ∀ pick : Pick, pick.ordered = ordered → pick.next = ordered.length →
      pick.takesNewest = true → pick.stale = [] → ∀ fuel, ∃ n,
        spot.readOn src key fuel pick = .inl (spot.settle key { pick with next := n }) := by
    intro pick hord hn htake hstale fuel
    cases fuel with
    | zero => exact ⟨pick.next, rfl⟩
    | succ fuel =>
      refine ⟨ordered.length, ?_⟩
      have hne : ordered ≠ [] := by
        rintro rfl
        cases hin
      have hadvance : pick.advance = (none, { pick with next := ordered.length }) := by
        simp [Pick.advance, htake, hord, hfilter, hn, hne]
      unfold readOn
      rw [hadvance]
  have hsettle : ∀ pick : Pick, pick.stale = [] → (spot.settle key pick).2 = spot := by
    intro pick hstale
    simp [settle, hstale]
  have hadvance : Pick.advance ⟨ordered, 0, none, false, true, false, []⟩ =
      (some ⟨slot, true⟩, ⟨ordered, ordered.length, none, false, true, false, []⟩) := by
    simp [Pick.advance, hfilter]
  unfold readOn
  rw [hadvance]
  simp only [hsrc, recordsOf]
  cases hh : headIn segments key slot.segment slot.offset with
  | missing => exact absurd hh hstands
  | cold => exact absurd hh (headIn_ne_cold _ _ _ _)
  | other =>
    simp only [Pick.offer]
    obtain ⟨n, hread⟩ := hclose ⟨ordered, ordered.length, none, false, true, false, []⟩ rfl rfl rfl rfl fuel
    exact ⟨_, hread, hsettle _ rfl, .inr ⟨slot, hsole.1, by simp [hh]⟩, fun _ => rfl⟩
  | same head =>
    have ht := hdata head hh
    simp only [ht, Bool.true_and, Bool.false_eq_true, if_false]
    by_cases hu : cache.unsure slot.segment slot.offset = true
    · simp only [hu, if_true]
      exact ⟨_, rfl, rfl, trivial, fun hno => absurd rfl (hno head)⟩
    · simp only [hu]
      by_cases hv : cache.versionless slot.segment slot.offset = true
      · simp only [hv, if_true, Pick.offer]
        obtain ⟨n, hread⟩ := hclose ⟨ordered, ordered.length, some ⟨head.lsn, 0, false⟩, false, true,
          true, []⟩ rfl rfl rfl rfl fuel
        exact ⟨_, hread, hsettle _ rfl, ⟨slot, hin, hlive, head, hh, rfl⟩,
          fun hno => absurd rfl (hno head)⟩
      · simp only [hv, Pick.offer]
        obtain ⟨n, hread⟩ := hclose ⟨ordered, ordered.length, some head, slot.isDisplaced, true, false,
          []⟩ rfl rfl rfl rfl fuel
        refine ⟨_, hread, hsettle _ rfl, ?_, fun hno => absurd rfl (hno head)⟩
        simp only [settle, hlive, ht, Bool.false_eq_true, if_false]
        exact ⟨slot, hin, hlive, head, hh, rfl⟩

theorem soleLive_perm {slots slots' : List Slot} (h : slots.Perm slots') :
    soleLive slots = soleLive slots' := by
  have hone : ∀ {l l' : List Slot} {slot : Slot}, l.Perm l' → soleLive l = some slot →
      soleLive l' = some slot := by
    intro l l' slot hperm hsole
    have hlive := hperm.filter fun slot => !slot.isDisplaced
    unfold soleLive at hsole ⊢
    split at hsole
    · rename_i found hfound
      rw [hfound] at hlive
      rw [← singleton_perm.mp hlive]
      exact hsole
    · cases hsole
  exact Option.ext fun slot => ⟨hone h, hone h.symm⟩

theorem Answers.perm {seen' : List Slot} (hperm : seen.Perm seen') {lookup : Lookup}
    (h : Answers segments key seen lookup) : Answers segments key seen' lookup := by
  cases lookup with
  | found lsn | newest lsn =>
    obtain ⟨slot, hslot, rest⟩ := h
    exact ⟨slot, hperm.mem_iff.mp hslot, rest⟩
  | missing =>
    rw [Answers, ← soleLive_perm hperm]
    exact h.imp_left fun hnone slot hslot => hnone slot (hperm.mem_iff.mpr hslot)
  | unsettled => trivial

/-- A lookup over standing records changes no slot, and its answer speaks for all that hold the
key's bits, except that a lone live slot of another key is taken for all of them. -/
theorem read_spec {spot : SpotColumn} (cache : Cache)
    (hsrc : src.records = recordsOf segments cache)
    (hc : ∀ x ∈ spot.ordered src key, Candid segments key x)
    (hdata : ∀ slot ∈ spot.matching src key, ∀ head,
      headIn segments key slot.segment slot.offset = .same head → head.isTombstone = false) :
    Queued (Passed segments key (spot.matching src key)) spot (spot.read src key true).2 ∧
      Answers segments key (spot.matching src key) (spot.read src key true).1 ∧
      ∀ slot, soleLive (spot.matching src key) = some slot → slot.isGrave = false →
        (∀ head, headIn segments key slot.segment slot.offset ≠ .same head) →
          (spot.read src key true).1 = .missing := by
  have hperm := ordered_perm spot src key
  have hmem := fun slot => hperm.mem_iff (a := slot)
  have hdata' : ∀ slot ∈ (spot.ordered src key).map Prod.snd, ∀ head,
      headIn segments key slot.segment slot.offset = .same head → head.isTombstone = false :=
    fun slot hslot => hdata slot ((hmem slot).mp hslot)
  have hread : ∃ done, spot.readOn src key ((spot.matching src key).length + 1)
      (spot.pick src key true) = .inl done ∧
        Queued (Passed segments key (spot.matching src key)) spot done.2 ∧
          Answers segments key (spot.matching src key) done.1 ∧
          ∀ slot, soleLive (spot.matching src key) = some slot → slot.isGrave = false →
            (∀ head, headIn segments key slot.segment slot.offset ≠ .same head) →
              done.1 = .missing := by
    cases hpath : soleOf true ((spot.ordered src key).map Prod.snd) with
    | some slot =>
      have hs : soleLive ((spot.ordered src key).map Prod.snd) = some slot :=
        (Option.filter_eq_some_iff.mp (by simpa only [soleOf, if_true] using hpath)).1
      have hin := (soleLive_eq_some hs).1
      obtain ⟨x, hx, rfl⟩ := mem_map.mp hin
      obtain ⟨done, hdone, hspot, hans, hmiss⟩ := readOn_sole spot hsrc
        (spot.matching src key).length hpath (hc x hx).1 (hdata' x.2 hin)
      refine ⟨done, hdone, hspot ▸ Queued.refl _ _, hans.perm hperm, ?_⟩
      intro slot hsole _ hno
      rw [← soleLive_perm hperm, hs] at hsole
      cases hsole
      exact hmiss hno
    | none =>
      have hpick : PickOk segments key [] (spot.pick src key true) :=
        ⟨by simp [pick], by simp [pick], rfl⟩
      have hlen : (spot.ordered src key).length = (spot.matching src key).length := by
        simpa using hperm.length_eq
      obtain ⟨done, hdone, hcase⟩ := readOn_ordered spot hsrc
        ((spot.matching src key).length + 1) (spot.pick src key true) hpath hpick
        (by simpa [pick] using hc) (by simp [pick, hlen])
      have hnone : ∀ slot, soleLive (spot.matching src key) = some slot → slot.isGrave = true := by
        intro slot hsole
        rw [← soleLive_perm hperm] at hsole
        simpa [soleOf, hsole] using hpath
      refine ⟨done, hdone, ?_⟩
      rw [← and_assoc]
      refine ⟨?_, fun slot hsole hgrave => by rw [hnone slot hsole] at hgrave; cases hgrave⟩
      rcases hcase with rfl | ⟨pick', hok, rfl⟩
      · exact ⟨Queued.refl _ _, trivial⟩
      · have hall : [] ++ ((spot.pick src key true).ordered.drop (spot.pick src key true).next).map
            Prod.snd = (spot.ordered src key).map Prod.snd := rfl
        rw [hall] at hok
        obtain ⟨hq, hans⟩ := settle_spec spot hok hdata'
        refine ⟨⟨hq.slots, hq.owed, ?_⟩, hans.perm hperm⟩
        intro x hx
        refine (hq.stale x hx).imp_right ?_
        rintro ⟨hk, hin, head, hh, newer, hn, rest⟩
        exact ⟨hk, (hmem _).mp hin, head, hh, newer, (hmem _).mp hn, rest⟩
  obtain ⟨done, hdone, hall⟩ := hread
  have heq : spot.read src key true = done := by
    change readTries src key true (8 + 1) spot = done
    rw [readTries, hdone]
  rw [heq]
  exact hall

end

end SpotColumn

end Reel
