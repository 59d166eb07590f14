import Reel.Cue.Deck

/-!
Reads at a number over any footers. The search asks each segment for its newest row of the key alone,
so a row that stands below the number under a newer one of its own segment is never met.
-/

set_option autoImplicit false

namespace Reel
open Bytes StableSort

namespace Deck

variable (d : Deck) (key : Str) (snapshot : Nat) (entry : Entry)

/-- A version of the key up to the number: the map's word, or a sealed row. -/
def Version : Prop :=
  entry.lsn ≤ snapshot ∧ (d.index.entryOrGrave key = some entry ∨
    ∃ segment ∈ d.noted, ∃ row ∈ segment.rows, row.key = key ∧ row.entry segment.id = entry)

/-- What a version answers with at the number: nothing for a delete, or where a cover up to the number
took it. -/
def answerAt : Option Entry :=
  if entry.isGrave || d.index.isCoveredKeyAt key entry.lsn snapshot then none else some entry

/-- A read at the number answers with the newest of the versions up to it. -/
def ReadsNewest : Prop :=
  (∃ entry, d.Version key snapshot entry ∧ (∀ other, d.Version key snapshot other → other.lsn ≤ entry.lsn) ∧
    d.getAt key snapshot = d.answerAt key snapshot entry) ∨
  (∀ entry, ¬ d.Version key snapshot entry) ∧ d.getAt key snapshot = none

/-- A version that nothing hides from a read at the number: the map's word, or without one up to the
number a sealed row with none newer of its key in its segment. -/
def Open : Prop :=
  entry.lsn ≤ snapshot ∧ (d.index.entryOrGrave key = some entry ∨
    (∀ word, d.index.entryOrGrave key = some word → snapshot < word.lsn) ∧
      ∃ segment ∈ d.noted, ∃ row, segment.Leads key row ∧ row.entry segment.id = entry)

/-- The newest version up to the number is open, or it answers with nothing and so does the newest open
one. -/
def Unmasked : Prop :=
  (∀ entry, ¬ d.Version key snapshot entry) ∨
  ∃ entry, d.Version key snapshot entry ∧ (∀ other, d.Version key snapshot other → other.lsn ≤ entry.lsn) ∧
    ((∃ seen, d.Open key snapshot seen ∧ seen.lsn = entry.lsn) ∨
      d.answerAt key snapshot entry = none ∧ ∀ seen, d.Open key snapshot seen →
        (∀ other, d.Open key snapshot other → other.lsn ≤ seen.lsn) → d.answerAt key snapshot seen = none)

variable {d : Deck} {key : Str} {snapshot : Nat}

theorem Open.version {entry : Entry} (h : d.Open key snapshot entry) : d.Version key snapshot entry := by
  obtain ⟨hle, hword | ⟨-, segment, hs, row, hleads, hentry⟩⟩ := h
  · exact ⟨hle, .inl hword⟩
  · exact ⟨hle, .inr ⟨segment, hs, row, hleads.1, hleads.2.1, hentry⟩⟩

theorem entry_lsn (row : Row) (id : Nat) : (row.entry id).lsn = row.lsn := by
  unfold Row.entry
  cases row.kind <;> rfl

/-- A read at a number answers with the newest open version. -/
theorem getAt_open (hceiling : ∀ segment ∈ d.noted, ∀ row ∈ segment.rows, row.lsn ≤ segment.maxLsn)
    (key : Str) (snapshot : Nat) :
    (∃ seen, d.Open key snapshot seen ∧ (∀ other, d.Open key snapshot other → other.lsn ≤ seen.lsn) ∧
      d.getAt key snapshot = d.answerAt key snapshot seen) ∨
    (∀ seen, ¬ d.Open key snapshot seen) ∧ d.getAt key snapshot = none := by
  by_cases hword : ∃ word, d.index.entryOrGrave key = some word ∧ word.lsn ≤ snapshot
  · obtain ⟨word, hg, hle⟩ := hword
    refine .inl ⟨word, ⟨hle, .inl hg⟩, ?_, ?_⟩
    · rintro other ⟨-, ho | ⟨hno, -⟩⟩
      · rw [Option.some.inj (hg.symm.trans ho)]
      · exact absurd (hno word hg) (by omega)
    · simp [getAt, hg, hle, answerAt]
  · have hno : ∀ word, d.index.entryOrGrave key = some word → snapshot < word.lsn := by
      intro word hg
      by_contra hle
      exact hword ⟨word, hg, by omega⟩
    have hsealed : d.getAt key snapshot = d.sealedEntryAt key snapshot := by
      unfold getAt
      cases hg : d.index.entryOrGrave key with
      | none => rfl
      | some word =>
        have := hno word hg
        simp only [if_neg (show ¬ word.lsn ≤ snapshot by omega)]
    have hopen : ∀ {entry : Entry}, d.Open key snapshot entry →
        ∃ segment ∈ d.noted, ∃ row, segment.Leads key row ∧ row.entry segment.id = entry ∧
          row.lsn ≤ snapshot := by
      rintro entry ⟨hle, hg | ⟨-, segment, hs, row, hleads, hentry⟩⟩
      · exact absurd (hno entry hg) (by omega)
      · exact ⟨segment, hs, row, hleads, hentry, by rw [← hentry, entry_lsn] at hle; exact hle⟩
    rw [hsealed, sealedEntryAt]
    rcases newestSealed_spec key (some snapshot) hceiling with
      ⟨hnone, hpast⟩ | ⟨segment, hs, row, hleads, hle, hfound, hmax⟩
    · rw [hnone]
      refine .inr ⟨fun seen hseen => ?_, rfl⟩
      obtain ⟨segment, hs, row, hleads, -, hle⟩ := hopen hseen
      exact hpast segment hs row hleads (upTo_some.mpr hle)
    · rw [hfound]
      refine .inl ⟨row.entry segment.id, ⟨by rw [entry_lsn]; exact upTo_some.mp hle,
        .inr ⟨hno, segment, hs, row, hleads, rfl⟩⟩, ?_, ?_⟩
      · intro other ho
        obtain ⟨held, hheld, x, hx, rfl, hxle⟩ := hopen ho
        rw [entry_lsn, entry_lsn]
        exact hmax held hheld x hx (upTo_some.mpr hxle)
      · unfold answerAt
        rw [Option.filter_some]
        cases (row.entry segment.id).isGrave <;>
          cases d.index.isCoveredKeyAt key (row.entry segment.id).lsn snapshot <;> rfl

theorem Open.answerAt_eq (hsited : Sited d.noted)
    (hone : ∀ {i j : Nat} {a b : Row}, Holds d.noted i a → Holds d.noted j b → a.lsn = b.lsn → a.kind = b.kind)
    {a b : Entry} (ha : d.Open key snapshot a) (hb : d.Open key snapshot b) (hlsn : a.lsn = b.lsn)
    (hnone : d.answerAt key snapshot a = none) : d.answerAt key snapshot b = none := by
  obtain ⟨hale, ha | ⟨hano, s, hs, x, hx, rfl⟩⟩ := ha
  · obtain ⟨-, hb | ⟨hbno, -⟩⟩ := hb
    · rw [← Option.some.inj (ha.symm.trans hb)]
      exact hnone
    · exact absurd (hbno a ha) (by omega)
  · obtain ⟨hble, hb | ⟨-, t, ht, y, hy, rfl⟩⟩ := hb
    · exact absurd (hano b hb) (by omega)
    · rw [entry_lsn, entry_lsn] at hlsn
      have hkind := hone ⟨s, hs, rfl, hx.1⟩ ⟨t, ht, rfl, hy.1⟩ hlsn
      have hgrave : ∀ {segment : Segment}, segment ∈ d.noted → ∀ row : Row,
          (row.entry segment.id).isGrave = decide (row.kind ≠ .data) := by
        intro segment hin row
        have := hsited.ids_pos segment hin
        cases hk : row.kind <;> simp [Row.entry, hk, Entry.isGrave, Row.loc, Entry.grave, Entry.graveFrom, this]
      unfold answerAt at hnone ⊢
      rw [hgrave hs, entry_lsn] at hnone
      rw [hgrave ht, entry_lsn, ← hkind, ← hlsn]
      split at hnone
      · rename_i htaken
        rw [if_pos htaken]
      · cases hnone

/-- A read at a number answers with the newest version up to it exactly where that version is not
masked, by an older word in the map or by a newer row of its own segment. -/
theorem reads_newest_iff_unmasked (d : Deck) (hsited : Sited d.noted)
    (hone : ∀ {i j : Nat} {a b : Row}, Holds d.noted i a → Holds d.noted j b → a.lsn = b.lsn → a.kind = b.kind)
    (key : Str) (snapshot : Nat) : d.ReadsNewest key snapshot ↔ d.Unmasked key snapshot := by
  have hread := getAt_open hsited.ceiling key snapshot
  constructor
  · rintro (⟨entry, hv, htop, hans⟩ | ⟨hno, -⟩)
    · refine .inr ⟨entry, hv, htop, ?_⟩
      by_cases hseen : ∃ seen, d.Open key snapshot seen ∧ seen.lsn = entry.lsn
      · exact .inl hseen
      · rcases hread with ⟨seen, hopen, hmax, hget⟩ | ⟨hnone, hget⟩
        · -- the read met an older version, so both answers are nothing
          have hne : seen ≠ entry := fun heq => hseen ⟨seen, hopen, heq ▸ rfl⟩
          have heq : d.answerAt key snapshot seen = d.answerAt key snapshot entry := hget.symm.trans hans
          have hnothing : d.answerAt key snapshot entry = none := by
            unfold answerAt at heq ⊢
            split at heq
            · exact heq.symm
            · split at heq
              · cases heq
              · exact absurd (Option.some.inj heq) hne
          refine .inr ⟨hnothing, fun other ho hother => ?_⟩
          have hsame : seen.lsn = other.lsn := le_antisymm (hother seen hopen) (hmax other ho)
          exact hopen.answerAt_eq hsited hone ho hsame (heq.trans hnothing)
        · refine .inr ⟨hans.symm.trans hget, fun other ho => absurd ho (hnone other)⟩
    · exact .inl hno
  · rintro (hno | ⟨entry, hv, htop, hcase⟩)
    · rcases hread with ⟨seen, hopen, -⟩ | ⟨-, hget⟩
      · exact absurd hopen.version (hno seen)
      · exact .inr ⟨hno, hget⟩
    · rcases hread with ⟨seen, hopen, hmax, hget⟩ | ⟨hnone, hget⟩
      · rcases hcase with ⟨met, hmet, hlsn⟩ | ⟨hnothing, hall⟩
        · refine .inl ⟨seen, hopen.version, fun other ho => ?_, hget⟩
          have := htop other ho
          have := hmax met hmet
          omega
        · exact .inl ⟨entry, hv, htop, by rw [hget, hall seen hopen hmax, hnothing]⟩
      · rcases hcase with ⟨met, hmet, -⟩ | ⟨hnothing, -⟩
        · exact absurd hmet (hnone met)
        · exact .inl ⟨entry, hv, htop, by rw [hget, hnothing]⟩

def twoVersions : Deck :=
  ⟨⟨.varying, .empty, [], 0⟩, 4, 3, [],  [], [],
    [⟨1, [⟨[1], 1, 52, 4, .data⟩, ⟨[1], 2, 78, 4, .data⟩], 2⟩, ⟨2, [⟨[1], 3, 52, 4, .data⟩], 3⟩], [], .idle⟩

theorem reads_two_versions :
    twoVersions.ReadsNewest [1] 2 ↔ twoVersions.Unmasked [1] 2 := by
  refine reads_newest_iff_unmasked twoVersions ⟨by decide, by decide, by decide, by decide⟩ ?_ [1] 2
  rintro i j a b ⟨s, hs, -, ha⟩ ⟨t, ht, -, hb⟩ -
  have hdata : ∀ segment ∈ twoVersions.noted, ∀ row ∈ segment.rows, row.kind = .data := by decide
  rw [hdata s hs a ha, hdata t ht b hb]

/-- At the older of the two numbers the newer row of the segment hides the version that stands. -/
theorem older_version_masked : twoVersions.getAt [1] 1 = none ∧
    ¬ twoVersions.ReadsNewest [1] 1 := by
  have hget : twoVersions.getAt [1] 1 = none := by decide +kernel
  refine ⟨hget, ?_⟩
  have hversion : twoVersions.Version [1] 1 ⟨⟨1, 52, 4⟩, 1⟩ :=
    ⟨le_refl _, .inr ⟨_, List.mem_cons_self, _, List.mem_cons_self, rfl, rfl⟩⟩
  rintro (⟨entry, ⟨hle, hv⟩, htop, hans⟩ | ⟨hno, -⟩)
  · have hone : 1 ≤ entry.lsn := htop _ hversion
    have hlive : entry.isGrave = false := by
      rcases hv with hword | ⟨segment, hs, row, hrow, -, rfl⟩
      · cases hword
      · have hall : ∀ segment ∈ twoVersions.noted, ∀ row ∈ segment.rows,
            (row.entry segment.id).isGrave = false := by decide
        exact hall segment hs row hrow
    rw [hget, answerAt, hlive] at hans
    simp [twoVersions, ColumnIndex.isCoveredKeyAt] at hans
  · exact hno _ hversion

end Deck

end Reel
