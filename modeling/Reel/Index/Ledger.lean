import Reel.Index.Playback
import Reel.Index.Table

/-!
The records standing in a list of segments, and what the three searches over them find: a
record's header at a place, the newest footer row of a key, the newest slot of a key.
-/

set_option autoImplicit false

namespace Reel
open Bytes StableSort List SpotColumn Segment

def Holds (segments : List Segment) (id : Nat) (row : Row) : Prop :=
  ∃ segment ∈ segments, segment.id = id ∧ row ∈ segment.rows

variable {segments segments' : List Segment} {id : Nat} {row : Row}

theorem Holds.mono (h : segments ⊆ segments')
    (hrow : Holds segments id row) : Holds segments' id row := by
  obtain ⟨segment, hs, hid, hr⟩ := hrow
  exact ⟨segment, h hs, hid, hr⟩

/-- Segments with one id each, one place for each record, and no number above a segment's
ceiling. -/
structure Sited (segments : List Segment) : Prop where
  ids : (segments.map Segment.id).Nodup
  ids_pos : ∀ segment ∈ segments, segment.id ≠ 0
  offsets : ∀ segment ∈ segments, (segment.rows.map Row.offset).Nodup
  ceiling : ∀ segment ∈ segments, ∀ row ∈ segment.rows, row.lsn ≤ segment.maxLsn

section
variable (h : Sited segments)
include h

theorem Sited.segment_eq {a b : Segment}
    (ha : a ∈ segments) (hb : b ∈ segments) (hid : a.id = b.id) : a = b :=
  inj_on_of_nodup_map h.ids ha hb hid

theorem Sited.row_eq {a b : Row}
    (ha : Holds segments id a) (hb : Holds segments id b) (ho : a.offset = b.offset) : a = b := by
  obtain ⟨segment, hs, rfl, ha⟩ := ha
  obtain ⟨other, ho', hid, hb⟩ := hb
  rw [h.segment_eq ho' hs hid] at hb
  exact inj_on_of_nodup_map (h.offsets segment hs) ha hb ho

theorem Sited.find {segment : Segment}
    (hs : segment ∈ segments) : segments.find? (·.id == segment.id) = some segment := by
  cases hf : segments.find? (·.id == segment.id) with
  | none => simpa using find?_eq_none.mp hf segment hs
  | some other =>
    have hid : other.id = segment.id := by simpa using find?_some hf
    rw [h.segment_eq (mem_of_find?_eq_some hf) hs hid]

theorem Sited.sublist
    (hsub : segments'.Sublist segments) : Sited segments' where
  ids := h.ids.sublist (hsub.map _)
  ids_pos := fun segment hs => h.ids_pos segment (hsub.subset hs)
  offsets := fun segment hs => h.offsets segment (hsub.subset hs)
  ceiling := fun segment hs => h.ceiling segment (hsub.subset hs)

theorem Sited.perm
    (hperm : segments'.Perm segments) : Sited segments' where
  ids := (hperm.map _).nodup_iff.mpr h.ids
  ids_pos := fun segment hs => h.ids_pos segment (hperm.subset hs)
  offsets := fun segment hs => h.offsets segment (hperm.subset hs)
  ceiling := fun segment hs => h.ceiling segment (hperm.subset hs)

theorem Sited.cons (hid : id ≠ 0)
    (hfresh : ∀ segment ∈ segments, segment.id ≠ id) : Sited (⟨id, [], 0⟩ :: segments) := by
  refine ⟨?_, ?_, ?_, ?_⟩
  · refine nodup_cons.mpr ⟨?_, h.ids⟩
    intro hin
    obtain ⟨s, hs, hs'⟩ := mem_map.mp hin
    exact hfresh s hs hs'
  · intro s hs
    rcases mem_cons.mp hs with rfl | hs
    · exact hid
    · exact h.ids_pos s hs
  · intro s hs
    rcases mem_cons.mp hs with rfl | hs
    · exact nodup_nil
    · exact h.offsets s hs
  · intro s hs row hrow
    rcases mem_cons.mp hs with rfl | hs
    · cases hrow
    · exact h.ceiling s hs row hrow

end

/-- Segments as writing lays them down: one number for each record, none drawn later than
`next`. -/
structure Laid (segments : List Segment) (next : Nat) : Prop extends Sited segments where
  lsns : ∀ {i j : Nat} {a b : Row}, Holds segments i a → Holds segments j b →
    a.lsn = b.lsn → i = j ∧ a = b
  drawn : ∀ {id : Nat} {row : Row}, Holds segments id row → row.lsn < next

variable {next : Nat}

theorem Laid.sublist (h : Laid segments next)
    (hsub : segments'.Sublist segments) : Laid segments' next where
  toSited := h.toSited.sublist hsub
  lsns := fun ha hb => h.lsns (ha.mono hsub.subset) (hb.mono hsub.subset)
  drawn := fun hr => h.drawn (hr.mono hsub.subset)

theorem Laid.perm (h : Laid segments next)
    (hperm : segments'.Perm segments) : Laid segments' next where
  toSited := h.toSited.perm hperm
  lsns := fun ha hb => h.lsns (ha.mono hperm.subset) (hb.mono hperm.subset)
  drawn := fun hr => h.drawn (hr.mono hperm.subset)

theorem Holds.perm (h : segments'.Perm segments)
    : Holds segments' id row ↔ Holds segments id row :=
  ⟨fun hr => hr.mono h.subset, fun hr => hr.mono h.symm.subset⟩

theorem Laid.raise {next' : Nat} (h : Laid segments next)
    (hids : segments'.map Segment.id = segments.map Segment.id)
    (hraise : ∀ s' ∈ segments', ∃ s ∈ segments, s'.id = s.id ∧ s'.rows = s.rows ∧ s.maxLsn ≤ s'.maxLsn)
    (hnext : next ≤ next') : Laid segments' next' := by
  have hold : ∀ {id : Nat} {row : Row}, Holds segments' id row → Holds segments id row := by
    rintro id row ⟨s', hs', hid, hrow⟩
    obtain ⟨s, hs, hid', hrows, -⟩ := hraise s' hs'
    exact ⟨s, hs, hid' ▸ hid, hrows ▸ hrow⟩
  refine ⟨⟨hids ▸ h.ids, ?_, ?_, ?_⟩, fun ha hb => h.lsns (hold ha) (hold hb), ?_⟩
  · intro s' hs'
    obtain ⟨s, hs, hid, -⟩ := hraise s' hs'
    exact hid ▸ h.ids_pos s hs
  · intro s' hs'
    obtain ⟨s, hs, -, hrows, -⟩ := hraise s' hs'
    exact hrows ▸ h.offsets s hs
  · intro s' hs' row hrow
    obtain ⟨s, hs, -, hrows, hle⟩ := hraise s' hs'
    exact (h.ceiling s hs row (hrows ▸ hrow)).trans hle
  · intro id row hrow
    exact (h.drawn (hold hrow)).trans_le hnext

def Row.headFor (row : Row) (key : Str) : HeadRead :=
  if row.key = key ∧ row.kind ≠ .rangeTombstone then
    .same ⟨row.lsn, row.len, decide (row.kind = .tombstone)⟩
  else .other

theorem Sited.headIn_eq (h : Sited segments)
    (hrow : Holds segments id row) (key : Str) :
    headIn segments key id row.offset = row.headFor key := by
  obtain ⟨segment, hs, rfl, hr⟩ := hrow
  have hfind : segment.rows.find? (·.offset == row.offset) = some row := by
    cases hf : segment.rows.find? (·.offset == row.offset) with
    | none => simpa using find?_eq_none.mp hf row hr
    | some other =>
      have hoff : other.offset = row.offset := by simpa using find?_some hf
      exact congrArg some
        (h.row_eq ⟨segment, hs, rfl, mem_of_find?_eq_some hf⟩ ⟨segment, hs, rfl, hr⟩ hoff)
  simp only [headIn, h.find hs, hfind]
  rfl

def IsNewestIn (segments : List Segment) (key : Str) : Option (Row × Nat) → Prop
  | none => ∀ segment ∈ segments, ∀ row ∈ segment.rows, row.key ≠ key
  | some (row, id) => Holds segments id row ∧ row.key = key ∧
      ∀ segment ∈ segments, ∀ other ∈ segment.rows, other.key = key → other.lsn ≤ row.lsn

variable {key : Str}

theorem newestIn_unique (hlaid : Laid segments next)
    {a b : Option (Row × Nat)} (ha : IsNewestIn segments key a)
    (hb : IsNewestIn segments key b) : a = b := by
  cases a with
  | none =>
    cases b with
    | none => rfl
    | some b =>
      obtain ⟨⟨segment, hs, -, hrow⟩, hk, -⟩ := hb
      exact absurd hk (ha segment hs _ hrow)
  | some a =>
    obtain ⟨⟨segment, hs, hid, hrow⟩, hk, hmax⟩ := ha
    cases b with
    | none => exact absurd hk (hb segment hs _ hrow)
    | some b =>
      obtain ⟨⟨other, ho, hid', hrow'⟩, hk', hmax'⟩ := hb
      have hlsn : a.1.lsn = b.1.lsn :=
        le_antisymm (hmax' segment hs _ hrow hk) (hmax other ho _ hrow' hk')
      obtain ⟨hi, hr⟩ := hlaid.lsns ⟨segment, hs, hid, hrow⟩ ⟨other, ho, hid', hrow'⟩ hlsn
      exact congrArg some (Prod.ext hr hi)

theorem Segment.find_newest (segment : Segment) (key : Str) :
    IsNewestIn [segment] key ((segment.find key).map fun row => (row, segment.id)) := by
  unfold Segment.find
  have hmem : ∀ row, row ∈ segment.footerRows.filter (fun row => row.key = key) ↔
      row ∈ segment.rows ∧ row.key = key := by
    simp [footerRows, mem_sortByKey]
  have hsorted : (segment.footerRows.filter fun row => row.key = key).Pairwise
      fun a b => a.lsn ≤ b.lsn := by
    have hfooter := sorted_sortByKey (fun row : Row => toLex (row.key, row.lsn)) segment.rows
    refine (hfooter.filter fun row => decide (row.key = key)).imp_of_mem ?_
    intro a b ha hb hle
    have hka := (hmem a).mp ha
    have hkb := (hmem b).mp hb
    rcases Prod.Lex.le_iff.mp hle with hlt | heq
    · exact absurd hlt (by simp [hka.2, hkb.2])
    · exact heq.2
  generalize segment.footerRows.filter (fun row => row.key = key) = rows at hmem hsorted
  cases hlast : rows.getLast? with
  | none =>
    have hnil : rows = [] := getLast?_eq_none_iff.mp hlast
    intro other hother row hrow hk
    obtain rfl := mem_singleton.mp hother
    simpa [hnil] using (hmem row).mpr ⟨hrow, hk⟩
  | some row =>
    obtain ⟨front, hfront⟩ := getLast?_eq_some_iff.mp hlast
    obtain ⟨hrow, hk⟩ := (hmem row).mp (mem_of_getLast? hlast)
    refine ⟨⟨segment, by simp, rfl, hrow⟩, hk, ?_⟩
    intro other hother later hlater hk'
    obtain rfl := mem_singleton.mp hother
    have hin := (hmem later).mpr ⟨hlater, hk'⟩
    rw [hfront] at hin hsorted
    rcases mem_append.mp hin with hin | hin
    · exact (pairwise_append.mp hsorted).2.2 later hin row (by simp)
    · simp [mem_singleton.mp hin]

/-- A row that is its segment's newest of the key. -/
def Segment.Leads (segment : Segment) (key : Str) (row : Row) : Prop :=
  row ∈ segment.rows ∧ row.key = key ∧ ∀ other ∈ segment.rows, other.key = key → other.lsn ≤ row.lsn

section
variable {segment : Segment} {key : Str}

theorem Segment.leads_of_find {row : Row}
    (h : segment.find key = some row) : segment.Leads key row := by
  have hnewest := segment.find_newest key
  rw [h] at hnewest
  obtain ⟨⟨held, hheld, -, hrow⟩, hkey, hmax⟩ := hnewest
  rw [mem_singleton.mp hheld] at hrow
  exact ⟨hrow, hkey, fun other hother hk => hmax segment (by simp) other hother hk⟩

theorem Segment.find_of_leads {row : Row} (h : segment.Leads key row) :
    ∃ found, segment.find key = some found ∧ found.lsn = row.lsn := by
  have hnewest := segment.find_newest key
  cases hfind : segment.find key with
  | none =>
    rw [hfind] at hnewest
    exact absurd h.2.1 (hnewest segment (by simp) row h.1)
  | some found =>
    have hleads := leads_of_find hfind
    exact ⟨found, rfl, le_antisymm (h.2.2 found hleads.1 hleads.2.1) (hleads.2.2 row h.1 h.2.1)⟩

theorem Segment.exists_leads (hrow : row ∈ segment.rows)
    (hk : row.key = key) : ∃ lead, segment.Leads key lead ∧ row.lsn ≤ lead.lsn := by
  have hnewest := segment.find_newest key
  cases hfind : segment.find key with
  | none =>
    rw [hfind] at hnewest
    exact absurd hk (hnewest segment (by simp) row hrow)
  | some found =>
    have hleads := leads_of_find hfind
    exact ⟨found, hleads, hleads.2.2 row hrow hk⟩

end

/-- A record a read at the number may answer with; a read at none may answer with any. -/
def UpTo (snapshot : Option Nat) (lsn : Nat) : Prop := ∀ s ∈ snapshot, lsn ≤ s

theorem upTo_none (lsn : Nat) : UpTo none lsn := by simp [UpTo]

theorem upTo_some {snapshot lsn : Nat} : UpTo (some snapshot) lsn ↔ lsn ≤ snapshot := by simp [UpTo]

theorem any_lt_iff {snapshot : Option Nat} {lsn : Nat} :
    (snapshot.any fun s => decide (s < lsn)) = true ↔ ¬ UpTo snapshot lsn := by
  cases snapshot <;> simp [UpTo]

/-- The search ends with the newest of the rows it meets: each segment's newest row of the
key, where that is no newer than the number asked at. -/
theorem searchFooters_spec (key : Str) (snapshot : Option Nat) (rest : List Segment)
    (best : Option (Row × Nat))
    (hsorted : rest.Pairwise fun a b => footerOrder a ≤ footerOrder b)
    (hceiling : ∀ segment ∈ rest, ∀ row ∈ segment.rows, row.lsn ≤ segment.maxLsn) :
    (∀ x ∈ searchFooters key snapshot rest best, x ∈ best ∨
      ∃ segment ∈ rest, segment.find key = some x.1 ∧ segment.id = x.2 ∧ UpTo snapshot x.1.lsn) ∧
    (∀ x ∈ best, ∃ y ∈ searchFooters key snapshot rest best, x.1.lsn ≤ y.1.lsn) ∧
    ∀ segment ∈ rest, ∀ row, segment.find key = some row → UpTo snapshot row.lsn →
      ∃ y ∈ searchFooters key snapshot rest best, row.lsn ≤ y.1.lsn := by
  induction rest generalizing best with
  | nil => exact ⟨fun x hx => .inl hx, fun x hx => ⟨x, hx, le_refl _⟩, by simp⟩
  | cons segment rest ih =>
    obtain ⟨hhead, htail⟩ := pairwise_cons.mp hsorted
    have ih := fun best => ih best htail fun s hs => hceiling s (mem_cons_of_mem _ hs)
    -- one more footer is passed with a row at least as new as the best one and as its own
    have hnext : ∀ best', (∀ x ∈ best', x ∈ best ∨ segment.find key = some x.1 ∧ segment.id = x.2 ∧
          UpTo snapshot x.1.lsn) →
        (∀ x ∈ best, ∃ y ∈ best', x.1.lsn ≤ y.1.lsn) →
        (∀ row, segment.find key = some row → UpTo snapshot row.lsn → ∃ y ∈ best', row.lsn ≤ y.1.lsn) →
        searchFooters key snapshot (segment :: rest) best = searchFooters key snapshot rest best' →
        (∀ x ∈ searchFooters key snapshot (segment :: rest) best, x ∈ best ∨
          ∃ s ∈ segment :: rest, s.find key = some x.1 ∧ s.id = x.2 ∧ UpTo snapshot x.1.lsn) ∧
        (∀ x ∈ best, ∃ y ∈ searchFooters key snapshot (segment :: rest) best, x.1.lsn ≤ y.1.lsn) ∧
        ∀ s ∈ segment :: rest, ∀ row, s.find key = some row → UpTo snapshot row.lsn →
          ∃ y ∈ searchFooters key snapshot (segment :: rest) best, row.lsn ≤ y.1.lsn := by
      intro best' hfrom hkeeps hown heq
      rw [heq]
      obtain ⟨hin, hbest, hrest⟩ := ih best'
      have hraise : ∀ {lsn : Nat}, (∃ y ∈ best', lsn ≤ y.1.lsn) →
          ∃ y ∈ searchFooters key snapshot rest best', lsn ≤ y.1.lsn := by
        rintro lsn ⟨y, hy, hle⟩
        obtain ⟨z, hz, hle'⟩ := hbest y hy
        exact ⟨z, hz, hle.trans hle'⟩
      refine ⟨?_, fun x hx => hraise (hkeeps x hx), ?_⟩
      · intro x hx
        rcases hin x hx with hx | ⟨s, hs, hrow⟩
        · rcases hfrom x hx with hx | hrow
          · exact .inl hx
          · exact .inr ⟨segment, mem_cons_self, hrow⟩
        · exact .inr ⟨s, mem_cons_of_mem _ hs, hrow⟩
      · intro s hs row hfind hle
        rcases mem_cons.mp hs with rfl | hs
        · exact hraise (hown row hfind hle)
        · exact hrest s hs row hfind hle
    by_cases hstop : (best.any fun best => decide (segment.maxLsn < best.1.lsn)) = true
    · have heq : searchFooters key snapshot (segment :: rest) best = best := by
        rw [searchFooters, if_pos hstop]
      rw [heq]
      refine ⟨fun x hx => .inl hx, fun x hx => ⟨x, hx, le_refl _⟩, ?_⟩
      intro s hs row hfind hle
      cases best with
      | none => simp at hstop
      | some found =>
        have hlow : segment.maxLsn < found.1.lsn := by simpa using hstop
        have hord : s.maxLsn ≤ segment.maxLsn := by
          rcases mem_cons.mp hs with rfl | hs
          · exact le_refl _
          · exact maxLsn_le_of_footerOrder (hhead s hs)
        have := hceiling s hs row (leads_of_find hfind).1
        exact ⟨found, rfl, by omega⟩
    · cases hfind : segment.find key with
      | none =>
        refine hnext best (fun x hx => .inl hx) (fun x hx => ⟨x, hx, le_refl _⟩) (by simp [hfind]) ?_
        rw [searchFooters, if_neg hstop, hfind]
      | some row =>
        by_cases hpast : (snapshot.any fun s => decide (s < row.lsn)) = true
        · refine hnext best (fun x hx => .inl hx) (fun x hx => ⟨x, hx, le_refl _⟩) ?_ ?_
          · intro other hother hle
            obtain rfl := Option.some.inj (hfind.symm.trans hother)
            exact absurd hle (any_lt_iff.mp hpast)
          · rw [searchFooters, if_neg hstop, hfind]
            simp only [if_pos hpast]
        · by_cases hkeep : (best.any fun best => decide (toLex (row.lsn, segment.id) ≤
              toLex (best.1.lsn, best.2))) = true
          · refine hnext best (fun x hx => .inl hx) (fun x hx => ⟨x, hx, le_refl _⟩) ?_ ?_
            · intro other hother hle
              obtain rfl := Option.some.inj (hfind.symm.trans hother)
              cases best with
              | none => simp at hkeep
              | some found =>
                have hlex : toLex (row.lsn, segment.id) ≤ toLex (found.1.lsn, found.2) := by simpa using hkeep
                rcases Prod.Lex.le_iff.mp hlex with h | h
                · exact ⟨found, rfl, h.le⟩
                · exact ⟨found, rfl, h.1.le⟩
            · rw [searchFooters, if_neg hstop, hfind]
              simp only [if_neg hpast, if_pos hkeep]
          · refine hnext (some (row, segment.id)) ?_ ?_ ?_ ?_
            · intro x hx
              cases hx
              exact .inr ⟨hfind, rfl, not_not.mp (mt any_lt_iff.mpr hpast)⟩
            · intro x hx
              cases hx
              refine ⟨_, rfl, ?_⟩
              have hlex : toLex (x.1.lsn, x.2) < toLex (row.lsn, segment.id) := by simpa using hkeep
              rcases Prod.Lex.lt_iff.mp hlex with h | h
              · exact h.le
              · exact h.1.le
            · intro other hother hle
              obtain rfl := Option.some.inj (hfind.symm.trans hother)
              exact ⟨_, rfl, le_refl _⟩
            · rw [searchFooters, if_neg hstop, hfind]
              simp only [if_neg hpast, if_neg hkeep]

theorem Segment.spans_of_mem {segment : Segment} (h : row ∈ segment.rows) :
    segment.spans row.key = true := by
  have hsorted : segment.footerRows.Pairwise fun a b => a.key ≤ b.key := by
    refine (sorted_sortByKey (fun row : Row => toLex (row.key, row.lsn)) segment.rows).imp ?_
    intro a b hle
    rcases Prod.Lex.le_iff.mp hle with h | h
    · exact h.le
    · exact h.1.le
  have hin : row ∈ segment.footerRows := (mem_sortByKey _).mpr h
  unfold spans lowest highest
  generalize segment.footerRows = rows at hsorted hin
  rw [Bool.and_eq_true]
  constructor
  · cases rows with
    | nil => cases hin
    | cons first rest =>
      rcases mem_cons.mp hin with rfl | hin
      · simp
      · simpa using (pairwise_cons.mp hsorted).1 row hin
  · obtain ⟨last, hlast⟩ : ∃ last, rows.getLast? = some last := by
      cases hl : rows.getLast? with
      | none => simp [getLast?_eq_none_iff.mp hl] at hin
      | some last => exact ⟨last, rfl⟩
    obtain ⟨front, rfl⟩ := getLast?_eq_some_iff.mp hlast
    rcases mem_append.mp hin with hin | hin
    · simpa using (pairwise_append.mp hsorted).2.2 row hin last (by simp)
    · simp [mem_singleton.mp hin]

/-- The footer search finds the newest leading row up to the number. -/
theorem newestSealed_spec {noted : List Segment} (key : Str) (snapshot : Option Nat)
    (hceiling : ∀ segment ∈ noted, ∀ row ∈ segment.rows, row.lsn ≤ segment.maxLsn) :
    (newestSealed noted key snapshot = none ∧
      ∀ segment ∈ noted, ∀ row, segment.Leads key row → ¬ UpTo snapshot row.lsn) ∨
    ∃ segment ∈ noted, ∃ row, segment.Leads key row ∧ UpTo snapshot row.lsn ∧
      newestSealed noted key snapshot = some (row.entry segment.id) ∧
      ∀ other ∈ noted, ∀ x, other.Leads key x → UpTo snapshot x.lsn → x.lsn ≤ row.lsn := by
  obtain ⟨hin, -, hrest⟩ := searchFooters_spec key snapshot
    (sortByKey footerOrder (noted.filter (·.spans key))) none (sorted_sortByKey footerOrder _)
    fun segment hs => hceiling segment (mem_spanning.mp hs).1
  have hmeets : ∀ segment ∈ noted, ∀ row, segment.Leads key row → UpTo snapshot row.lsn →
      ∃ y ∈ searchFooters key snapshot (sortByKey footerOrder (noted.filter (·.spans key))) none,
        row.lsn ≤ y.1.lsn := by
    intro segment hs row hleads hle
    obtain ⟨found, hfind, hlsn⟩ := find_of_leads hleads
    have hspans : segment.spans key = true := hleads.2.1 ▸ spans_of_mem hleads.1
    exact hlsn ▸ hrest segment (mem_spanning.mpr ⟨hs, hspans⟩) found hfind (hlsn ▸ hle)
  unfold newestSealed
  cases hfound : searchFooters key snapshot (sortByKey footerOrder (noted.filter (·.spans key))) none with
  | none =>
    refine .inl ⟨rfl, fun segment hs row hleads hle => ?_⟩
    obtain ⟨y, hy, -⟩ := hmeets segment hs row hleads hle
    rw [hfound] at hy
    cases hy
  | some found =>
    rcases hin found hfound with hnone | ⟨segment, hs, hfind, hid, hle⟩
    · cases hnone
    · refine .inr ⟨segment, (mem_spanning.mp hs).1, found.1, leads_of_find hfind, hle, ?_, ?_⟩
      · rw [hid]
        rfl
      · intro other ho x hleads hx
        obtain ⟨y, hy, hle'⟩ := hmeets other ho x hleads hx
        obtain rfl := Option.some.inj (hfound.symm.trans hy)
        exact hle'

theorem newestSealed_eq {noted : List Segment} (key : Str)
    (hceiling : ∀ segment ∈ noted, ∀ row ∈ segment.rows, row.lsn ≤ segment.maxLsn) :
    ∃ found, IsNewestIn noted key found ∧
      newestSealed noted key none = found.map fun x => x.1.entry x.2 := by
  rcases newestSealed_spec key none hceiling with
    ⟨hnone, hpast⟩ | ⟨segment, hs, row, hleads, -, hfound, hmax⟩
  · refine ⟨none, ?_, hnone⟩
    intro segment hs row hrow hk
    obtain ⟨lead, hlead, -⟩ := exists_leads hrow hk
    exact hpast segment hs lead hlead (upTo_none _)
  · refine ⟨some (row, segment.id), ⟨⟨segment, hs, rfl, hleads.1⟩, hleads.2.1, ?_⟩, hfound⟩
    intro other hother later hlater hk
    obtain ⟨lead, hlead, hle⟩ := exists_leads hlater hk
    exact hle.trans (hmax other hother lead hlead (upTo_none _))

theorem newestRow_newest (stands : Nat → Bool) (rows : List (Nat × Row)) :
    match Volume.newestRow stands rows with
    | none => rows = []
    | some x => x ∈ rows ∧ ∀ y ∈ rows, y.2.lsn ≤ x.2.lsn := by
  unfold Volume.newestRow
  induction rows using reverseRecOn with
  | nil => rfl
  | append_singleton rows found ih =>
    rw [foldl_append]
    simp only [foldl_cons, foldl_nil]
    generalize rows.foldl _ none = best at ih
    cases best with
    | none =>
      simp only at ih
      simp [ih]
    | some held =>
      simp only at ih
      obtain ⟨hheld, hmax⟩ := ih
      by_cases hlt : held.2.lsn < found.2.lsn ∨
          held.2.lsn = found.2.lsn ∧ !stands held.1 ∧ stands found.1
      · simp only [if_pos hlt]
        refine ⟨by simp, ?_⟩
        intro y hy
        rcases mem_append.mp hy with hy | hy
        · have := hmax y hy
          omega
        · simp [mem_singleton.mp hy]
      · simp only [if_neg hlt]
        refine ⟨by simp [hheld], ?_⟩
        intro y hy
        rcases mem_append.mp hy with hy | hy
        · exact hmax y hy
        · rw [mem_singleton.mp hy]
          omega

def IsNewestSlot (records : Records) (key : Str) (seen : List Slot) :
    Option (Head × Slot) → Prop
  | none => ∀ slot ∈ seen, ∀ head, records.head key slot.segment slot.offset ≠ .same head
  | some (head, slot) => slot ∈ seen ∧ records.head key slot.segment slot.offset = .same head ∧
      ∀ other ∈ seen, ∀ head', records.head key other.segment other.offset = .same head' →
        head'.lsn ≤ head.lsn

/-- A candidate reads to a record, and its ceiling is not below the record's number. -/
structure Readable (records : Records) (key : Str) (x : Option Nat × Slot) : Prop where
  stands : records.head key x.2.segment x.2.offset ≠ .missing
  below : ∀ head, records.head key x.2.segment x.2.offset = .same head →
    ∀ ceiling ∈ x.1, head.lsn ≤ ceiling

theorem scanHeads_newest {records : Records} (key : Str) (rest : List (Option Nat × Slot))
    (seen : List Slot) (best : Option (Head × Slot)) (hbest : IsNewestSlot records key seen best)
    (hread : ∀ x ∈ rest, Readable records key x) :
    ∃ best', scanHeads records key rest best = .ok best' ∧
      IsNewestSlot records key (seen ++ rest.map Prod.snd) best' := by
  induction rest generalizing seen best with
  | nil => exact ⟨best, rfl, by simpa using hbest⟩
  | cons x rest ih =>
    obtain ⟨ceiling, slot⟩ := x
    have hx := hread _ mem_cons_self
    have hnext : ∀ best', IsNewestSlot records key (seen ++ [slot]) best' →
        ∃ best'', scanHeads records key rest best' = .ok best'' ∧
          IsNewestSlot records key (seen ++ slot :: rest.map Prod.snd) best'' := by
      intro best' hb
      simpa using ih _ _ hb fun y hy => hread y (mem_cons_of_mem _ hy)
    -- a candidate no newer than the best leaves the best standing
    have hpass : (∀ head, records.head key slot.segment slot.offset = .same head →
        ∃ held, best = some held ∧ head.lsn ≤ held.1.lsn) →
        IsNewestSlot records key (seen ++ [slot]) best := by
      intro hold
      cases best with
      | none =>
        intro other hother head hh
        rcases mem_append.mp hother with ho | ho
        · exact hbest other ho head hh
        · rw [mem_singleton.mp ho] at hh
          obtain ⟨_, hno, -⟩ := hold head hh
          cases hno
      | some held =>
        obtain ⟨head, held⟩ := held
        obtain ⟨hin, hh, hmax⟩ := hbest
        refine ⟨mem_append_left _ hin, hh, ?_⟩
        intro other hother head' hh'
        rcases mem_append.mp hother with ho | ho
        · exact hmax other ho head' hh'
        · rw [mem_singleton.mp ho] at hh'
          obtain ⟨_, hsome, hle⟩ := hold head' hh'
          cases hsome
          exact hle
    unfold scanHeads
    split
    · rename_i hout
      refine hnext best (hpass ?_)
      intro head hh
      cases best with
      | none => cases ceiling <;> simp [ruledOut] at hout
      | some held =>
        refine ⟨held, rfl, ?_⟩
        cases ceiling with
        | none => simp [ruledOut] at hout
        | some ceiling =>
          have hlow : ceiling < held.1.lsn := by simpa [ruledOut] using hout
          have := hx.below head hh ceiling rfl
          omega
    · cases hh : records.head key slot.segment slot.offset with
      | missing => exact absurd hh hx.stands
      | other => exact hnext best (hpass (by simp [hh]))
      | cold => exact hnext best (hpass (by simp [hh]))
      | same head =>
        simp only
        split
        · rename_i hnewer
          refine hnext _ ⟨by simp, hh, ?_⟩
          intro other hother head' hh'
          rcases mem_append.mp hother with ho | ho
          · cases best with
            | none => exact absurd hh' (hbest other ho head')
            | some held =>
              have hlt : held.1.lsn < head.lsn := by simpa using hnewer
              exact (hbest.2.2 other ho head' hh').trans hlt.le
          · rw [mem_singleton.mp ho, hh] at hh'
            cases hh'
            exact le_refl _
        · rename_i hnewer
          refine hnext best (hpass ?_)
          intro head' hh'
          rw [hh] at hh'
          cases hh'
          cases best with
          | none => simp at hnewer
          | some held => exact ⟨held, rfl, by simpa using hnewer⟩

theorem mem_ordered {spot : SpotColumn} {src : Sources} {x : Option Nat × Slot}
    (h : x ∈ spot.ordered src key) :
    x.2 ∈ spot.matching src key ∧ (x.1 = none ∨ x.1 = src.maxLsnOf x.2.segment) := by
  unfold ordered at h
  split at h
  · cases h
  · rename_i slot hm
    obtain rfl := mem_singleton.mp h
    exact ⟨by rw [hm]; simp, .inl rfl⟩
  · obtain ⟨slot, hslot, rfl⟩ := mem_map.mp ((mem_sortByKey _).mp h)
    exact ⟨hslot, .inr rfl⟩

theorem ordered_perm (spot : SpotColumn) (src : Sources) (key : Str) :
    ((spot.ordered src key).map Prod.snd).Perm (spot.matching src key) := by
  unfold ordered
  split
  · rename_i hm
    simp [hm]
  · rename_i one hm
    simp [hm]
  · refine ((perm_sortByKey _ _).map Prod.snd).trans ?_
    simp [Function.comp_def]

theorem entry_newest {spot : SpotColumn} {src : Sources}
    (hread : ∀ x ∈ spot.ordered src key, Readable src.records key x) :
    ∃ best, IsNewestSlot src.records key (spot.matching src key) best ∧
      spot.entry src key = settledOf best := by
  obtain ⟨best, hscan, hbest⟩ :=
    scanHeads_newest key (spot.ordered src key) [] none (by simp [IsNewestSlot]) hread
  refine ⟨best, ?_, ?_⟩
  · rw [nil_append] at hbest
    cases best with
    | none =>
      intro slot hslot
      exact hbest slot ((ordered_perm spot src key).mem_iff.mpr hslot)
    | some found =>
      obtain ⟨head, slot⟩ := found
      obtain ⟨hin, hh, hmax⟩ := hbest
      refine ⟨(ordered_perm spot src key).mem_iff.mp hin, hh, ?_⟩
      intro other hother
      exact hmax other ((ordered_perm spot src key).mem_iff.mpr hother)
  · change entryTries src key (8 + 1) spot = _
    rw [entryTries, hscan]

end Reel
