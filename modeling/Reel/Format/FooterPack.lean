import Reel.Format.FooterParse

/-!
A footer survives its encoding. Packing a footer of any entries writes bytes that parse to the packed
footer: its header fields as they were and, for each column in order, the column's entries sorted by key
and sequence number. A packed footer whose entries are told apart by key and sequence number packs to the
same bytes again.
-/

set_option autoImplicit false

namespace Reel.Footer
open Bytes List SegmentFooter

section
variable {footer : SegmentFooter} {groups : List (ColumnId × List FooterEntry)}

theorem mapM_encodedRows {partitions : List FooterPartition} (h : TidyAll partitions groups) :
    partitions.mapM (·.encodedRows) = .ok (imagesOf partitions groups) := by
  induction h with
  | nil => rfl
  | cons hp _ ih =>
    rw [mapM_cons, hp.2.encodedRows, ih]
    rfl

theorem write_eq (h : Arranged footer groups) (checksum : Str → UInt32) :
    footer.write checksum = .ok (imagesOf footer.partitions groups, footer.closing
      ((imagesOf footer.partitions groups).map length) (crcOf checksum footer (imagesOf footer.partitions groups))) := by
  rw [write, mapM_encodedRows h.tidy]
  rfl

theorem putRows_packed {partitions : List FooterPartition} {rows : List Str}
    (hpacked : ∀ p ∈ partitions, p.isPacked = true) (hlen : rows.length = partitions.length) :
    partitions.zipWith (fun p rows => if p.isPacked then p else { p with packed := rows }) rows = partitions := by
  induction partitions generalizing rows with
  | nil => rfl
  | cons p partitions ih =>
    cases rows with
    | nil => cases hlen
    | cons row rows =>
      rw [zipWith_cons_cons, if_pos (hpacked p (by simp)),
        ih (fun q hq => hpacked q (by simp [hq])) (Nat.succ.inj hlen)]

theorem pack_eq {sorter : UnstableSort (Nat × Nat)} {filterBits : Nat}
    (h : Arranged (footer.arrange sorter filterBits) groups)
    (hpacked : ∀ p ∈ (footer.arrange sorter filterBits).partitions, p.isPacked = true) (checksum : Str → UInt32) :
    ∃ rows tail, footer.packApart sorter checksum filterBits = .ok (rows, tail, footer.arrange sorter filterBits) ∧
      footer.pack sorter checksum filterBits = .ok (rows.flatten ++ tail, footer.arrange sorter filterBits) ∧
      rows.flatten ++ tail = imageBytes checksum (footer.arrange sorter filterBits)
        (imagesOf (footer.arrange sorter filterBits).partitions groups) := by
  generalize hout : footer.arrange sorter filterBits = arranged at h hpacked
  have hlent : (arranged.partitions.map fun p => if p.isPacked then p else { p with packed := [] }) =
      arranged.partitions := by
    refine (map_congr_left fun p hp => ?_).trans (map_id _)
    rw [if_pos (hpacked p hp)]
    rfl
  have hapart : footer.packApart sorter checksum filterBits = .ok (imagesOf arranged.partitions groups,
      arranged.closing ((imagesOf arranged.partitions groups).map length)
        (crcOf checksum arranged (imagesOf arranged.partitions groups)), arranged) := by
    simp only [packApart, hout, write_eq h checksum, bind, Except.bind, hlent]
    rfl
  have hput : arranged.putRows (imagesOf arranged.partitions groups) = arranged := by
    rw [putRows, putRows_packed hpacked h.tidy.images_length]
  refine ⟨_, _, hapart, ?_, rfl⟩
  rw [pack, hapart]
  simp only [bind, Except.bind, hput]
  rfl

end

theorem KeyBytes.ext {a b : KeyBytes} (h : a.bytes = b.bytes) : a = b := by
  cases a
  cases b
  cases h
  rfl

theorem RecordKey.ext {a b : RecordKey} (hcolumn : a.column = b.column) (hkey : a.key = b.key) : a = b := by
  cases a
  cases b
  cases hcolumn
  cases hkey
  rfl

/-- No two different entries of one key share a sequence number. -/
def Distinct (l : List FooterEntry) : Prop := ∀ a ∈ l, ∀ b ∈ l, a.key = b.key → a.lsn = b.lsn → a = b

theorem eq_of_before {l : List FooterEntry} {column : ColumnId} (hdistinct : Distinct l)
    (hcolumn : ∀ entry ∈ l, entry.key.column = column) {a b : FooterEntry} (ha : a ∈ l) (hb : b ∈ l)
    (hab : a.Before b) (hba : b.Before a) : a = b := by
  have hkey : a.keyBytes = b.keyBytes := le_antisymm hab.key_le hba.key_le
  have hlsn : a.lsn = b.lsn := by
    rcases hab with hlt | ⟨-, hab⟩
    · exact absurd hkey hlt.ne
    · rcases hba with hlt | ⟨-, hba⟩
      · exact absurd hkey.symm hlt.ne
      · exact UInt64.le_antisymm hab hba
  refine hdistinct a ha b hb ?_ hlsn
  have hcolumns : a.key.column = b.key.column := (hcolumn a ha).trans (hcolumn b hb).symm
  exact RecordKey.ext hcolumns (KeyBytes.ext hkey)

theorem Distinct.subset {l m : List FooterEntry} (h : Distinct l) (hsub : ∀ entry ∈ m, entry ∈ l) : Distinct m :=
  fun a ha b hb => h a (hsub a ha) b (hsub b hb)

theorem sort_fields (sorter : UnstableSort (Nat × Nat)) (p : FooterPartition) :
    (p.sort sorter).keyWidth = p.keyWidth ∧ (p.sort sorter).filter = p.filter ∧
      (p.sort sorter).isPacked = p.isPacked := by
  unfold FooterPartition.sort
  split
  · exact ⟨rfl, rfl, rfl⟩
  · exact ⟨rfl, rfl, rfl⟩

theorem sort_tidy {p : FooterPartition} {l : List FooterEntry} (h : Tidy p l) (hdistinct : Distinct l)
    (sorter : UnstableSort (Nat × Nat)) : p.sort sorter = p := by
  obtain ⟨out, hperm, hsorted, hholds⟩ := h.holds.sort h.room sorter
  have hout : out = l := by
    refine hperm.eq_of_pairwise (fun a b ha hb hab hba => ?_) hsorted h.sorted
    exact eq_of_before hdistinct h.holds.column (hperm.mem_iff.mp ha) hb hab hba
  rw [hout] at hholds
  obtain ⟨hwidth, hfilter, hpacked⟩ := sort_fields sorter p
  have hvary : (p.sort sorter).isVarying = p.isVarying := by
    rw [FooterPartition.isVarying, FooterPartition.isVarying, hwidth]
  have hrows : (p.sort sorter).packed = p.packed := hholds.packed.trans h.holds.packed.symm
  have hstarts : (p.sort sorter).starts = p.starts := by
    rw [hholds.starts, h.holds.starts, hvary]
  have hcolumn := p.sort_column sorter
  cases hp : p.sort sorter with
  | mk column keyWidth packed starts filter isPacked =>
    rw [hp] at hcolumn hwidth hrows hstarts hfilter hpacked
    cases p
    simp_all

theorem tidied_tidied {p : FooterPartition} {l : List FooterEntry} {filterBits : Nat} {sorter : UnstableSort (Nat × Nat)}
    (h : Tidy (tidied sorter filterBits p) l) (hdistinct : Distinct l) :
    tidied sorter filterBits (tidied sorter filterBits p) = tidied sorter filterBits p := by
  have hsort := sort_tidy h hdistinct sorter
  -- the filter depends on the rows alone, which marking them packed leaves as they are
  rw [tidied, hsort, FooterPartition.buildFilter]
  rfl

theorem TidyAll.exists_partition {partitions : List FooterPartition} {groups : List (ColumnId × List FooterEntry)}
    (h : TidyAll partitions groups) {group : ColumnId × List FooterEntry} (hgroup : group ∈ groups) :
    ∃ p, Tidy p group.2 := by
  induction h with
  | nil => cases hgroup
  | cons hp _ ih =>
    rcases mem_cons.mp hgroup with rfl | hgroup
    · exact ⟨_, hp.2⟩
    · exact ih hgroup

theorem TidyAll.writable {partitions : List FooterPartition} {groups : List (ColumnId × List FooterEntry)}
    (h : TidyAll partitions groups) : Writable groups := fun _ hgroup =>
  let ⟨_, htidy⟩ := h.exists_partition hgroup
  ⟨htidy.held, htidy.room⟩

theorem arrange_again {footer : SegmentFooter} {groups out : List (ColumnId × List FooterEntry)}
    {sorter : UnstableSort (Nat × Nat)} {filterBits : Nat} (h : Groups footer.partitions groups)
    (hordered : StableSort.Ordered groups) (hwritable : Writable groups)
    (harranged : Arranged (footer.arrange sorter filterBits) out) (hdistinct : ∀ group ∈ out, Distinct group.2) :
    (footer.arrange sorter filterBits).arrange sorter filterBits = footer.arrange sorter filterBits := by
  have hgroups : Groups (footer.arrange sorter filterBits).partitions out :=
    harranged.tidy.imp fun p group hp => ⟨hp.1, hp.2.holds⟩
  have hparts : (footer.arrange sorter filterBits).partitions = footer.partitions.map (tidied sorter filterBits) := by
    rw [arrange_eq h hordered hwritable]
  have hsame : (footer.arrange sorter filterBits).partitions.map (tidied sorter filterBits) =
      (footer.arrange sorter filterBits).partitions := by
    refine (map_congr_left fun p hp => ?_).trans (map_id _)
    obtain ⟨group, hgroup, -, htidy⟩ := harranged.tidy.exists_group hp
    rw [hparts] at hp
    obtain ⟨q, -, rfl⟩ := mem_map.mp hp
    exact tidied_tidied htidy (hdistinct group hgroup)
  rw [arrange_eq hgroups harranged.ordered harranged.tidy.writable, hsame]

/-- A footer's rows are the entries: a partition per column that has any, in column order, listing the column's
entries by key and sequence number. -/
structure Lists (footer : SegmentFooter) (entries : List FooterEntry) : Prop where
  ordered : (footer.partitions.map (·.column)).Pairwise (· < ·)
  columns : ∀ column, column ∈ footer.partitions.map (·.column) ↔ ∃ entry ∈ entries, entry.key.column = column
  rows : ∀ p ∈ footer.partitions, ∃ l : List FooterEntry, p.entries = l.map .ok ∧
    l.Perm (entries.filter fun entry => entry.key.column = p.column) ∧ l.Pairwise FooterEntry.Before

theorem mem_groupsOf {entries : List FooterEntry} {group : ColumnId × List FooterEntry} (h : group ∈ groupsOf entries) :
    group.2 = entries.filter (fun entry => entry.key.column = group.1) ∧ group.2 ≠ [] := by
  have hunder := StableSort.under_partition (·.key.column) id entries group.1
  rw [StableSort.under_of_mem (StableSort.ordered_partition _ _ _) h, map_id] at hunder
  exact ⟨hunder, StableSort.partition_ne_nil _ _ _ group h⟩

theorem Rearranged.exists_group {out groups : List (ColumnId × List FooterEntry)} (h : Rearranged out groups)
    {group : ColumnId × List FooterEntry} (hgroup : group ∈ out) :
    ∃ origin ∈ groups, group.1 = origin.1 ∧ group.2.Perm origin.2 := by
  induction h with
  | nil => cases hgroup
  | @cons head origin out groups hp _ ih =>
    rcases mem_cons.mp hgroup with rfl | hgroup
    · exact ⟨origin, by simp, hp⟩
    · obtain ⟨other, hother, hsame⟩ := ih hgroup
      exact ⟨other, by simp [hother], hsame⟩

theorem lists_of_arranged {footer : SegmentFooter} {entries : List FooterEntry}
    {out : List (ColumnId × List FooterEntry)} (h : Arranged footer out) (hout : Rearranged out (groupsOf entries))
    (hflags : ∀ entry ∈ entries, entry.flags.Written) : Lists footer entries := by
  have hcolumns : footer.partitions.map (·.column) = (groupsOf entries).map Prod.fst :=
    (columns_eq h.tidy).trans hout.columns
  constructor
  · exact pairwise_map.mpr (pairwise_column h.tidy h.ordered)
  · intro column
    rw [hcolumns, mem_map]
    exact StableSort.exists_mem_partition (·.key.column) id entries column
  · intro p hp
    obtain ⟨group, hgroup, hcolumn, htidy⟩ := h.tidy.exists_group hp
    obtain ⟨origin, horigin, hsame, hperm⟩ := hout.exists_group hgroup
    have hrows := (mem_groupsOf horigin).1
    rw [← hsame, ← hcolumn] at hrows
    refine ⟨group.2, htidy.holds.entries htidy.room fun entry hentry => ?_, hrows ▸ hperm, htidy.sorted⟩
    have hmem := hperm.mem_iff.mp hentry
    rw [hrows] at hmem
    exact hflags entry (mem_filter.mp hmem).1

theorem writable_groupsOf {entries : List FooterEntry}
    (hroom : ∀ column, roomOf (entries.filter fun entry => entry.key.column = column) < 2 ^ 32) :
    Writable (groupsOf entries) := by
  intro group hgroup
  obtain ⟨hrows, hheld⟩ := mem_groupsOf hgroup
  exact ⟨hheld, by rw [hrows]; exact hroom group.1⟩

/-- Packing arranges a footer and writes the arranged footer's image, which parses where it fits. -/
theorem pack_image {footer : SegmentFooter} {groups : List (ColumnId × List FooterEntry)}
    (hgroups : Groups footer.partitions groups) (hordered : StableSort.Ordered groups) (hwritable : Writable groups)
    (sorter : UnstableSort (Nat × Nat)) (checksum : Str → UInt32) (filterBits : Nat) :
    ∃ out rows tail, Rearranged out groups ∧ Arranged (footer.arrange sorter filterBits) out ∧
      (∀ p ∈ (footer.arrange sorter filterBits).partitions, p.isPacked = true) ∧
      footer.packApart sorter checksum filterBits = .ok (rows, tail, footer.arrange sorter filterBits) ∧
      footer.pack sorter checksum filterBits = .ok (rows.flatten ++ tail, footer.arrange sorter filterBits) ∧
      rows.flatten ++ tail = imageBytes checksum (footer.arrange sorter filterBits)
        (imagesOf (footer.arrange sorter filterBits).partitions out) ∧
      ((rows.flatten ++ tail).length < 2 ^ 32 →
        parseOwned checksum (rows.flatten ++ tail) = .ok (footer.arrange sorter filterBits)) := by
  obtain ⟨out, hout, harranged⟩ := arrange_arranged hgroups hordered hwritable sorter filterBits
  have hpacked : ∀ p ∈ (footer.arrange sorter filterBits).partitions, p.isPacked = true := by
    intro p hp
    rw [arrange_eq hgroups hordered hwritable sorter filterBits] at hp
    obtain ⟨q, -, rfl⟩ := mem_map.mp hp
    rfl
  obtain ⟨rows, tail, hapart, hpack, hbytes⟩ := pack_eq harranged hpacked checksum
  refine ⟨out, rows, tail, hout, harranged, hpacked, hapart, hpack, hbytes, fun hlen => ?_⟩
  have hparse := parseOwned_eq harranged checksum [] (by rwa [← hbytes])
  rwa [nil_append, ← hbytes] at hparse

/-- A footer of any entries packs, and where its bytes fit the sizes it writes, they parse to the packed footer:
the header fields it was packed with and the entries by column, key and sequence number. Packing the packed footer
again writes the same bytes where no two of its entries share a key and a sequence number. -/
theorem footer_survives_encoding (sorter : UnstableSort (Nat × Nat)) (checksum : Str → UInt32)
    (entries : List FooterEntry) (sealedAt : UInt64) (tally : FooterTally) (filterBits : Nat)
    (hflags : ∀ entry ∈ entries, entry.flags.Written)
    (hroom : ∀ column, roomOf (entries.filter fun entry => entry.key.column = column) < 2 ^ 32) :
    ∃ rows tail packed,
      { build entries with sealedAt, tally }.packApart sorter checksum filterBits =
        .ok (rows, tail, packed) ∧
      { build entries with sealedAt, tally }.pack sorter checksum filterBits =
        .ok (rows.flatten ++ tail, packed) ∧
      ((rows.flatten ++ tail).length < 2 ^ 32 →
        parseOwned checksum (rows.flatten ++ tail) = .ok packed ∧
        packed.minLsn = (build entries).minLsn ∧ packed.maxLsn = (build entries).maxLsn ∧
        packed.sealedAt = sealedAt ∧ packed.tally = tally ∧
        packed.partitions.map (·.column) = (build entries).partitions.map (·.column) ∧
        Lists packed entries) ∧
      (Distinct entries → packed.pack sorter checksum filterBits = .ok (rows.flatten ++ tail, packed)) := by
  have hgroups : Groups ({ build entries with sealedAt, tally } : SegmentFooter).partitions
      (groupsOf entries) := build_groups entries
  have hordered : StableSort.Ordered (groupsOf entries) := StableSort.ordered_partition _ _ _
  have hwritable := writable_groupsOf hroom
  generalize hfooter : ({ build entries with sealedAt, tally } : SegmentFooter) = footer at hgroups
  have hfields : footer.minLsn = (build entries).minLsn ∧
      footer.maxLsn = (build entries).maxLsn ∧ footer.sealedAt = sealedAt ∧ footer.tally = tally ∧
      footer.partitions = (build entries).partitions := by
    rw [← hfooter]
    exact ⟨rfl, rfl, rfl, rfl, rfl⟩
  obtain ⟨out, rows, tail, hout, harranged, hpacked, hapart, hpack, hbytes, hparse⟩ :=
    pack_image hgroups hordered hwritable sorter checksum filterBits
  refine ⟨rows, tail, footer.arrange sorter filterBits, hapart, hpack, fun hlen => ⟨hparse hlen, ?_⟩, fun hdistinct => ?_⟩
  · have hcolumns : (footer.arrange sorter filterBits).partitions.map (·.column) = footer.partitions.map (·.column) := by
      rw [columns_eq harranged.tidy, hout.columns, columns_eq hgroups]
    obtain ⟨hmin, hmax, hsealed, htally, hparts⟩ := hfields
    rw [hparts] at hcolumns
    refine ⟨?_, ?_, ?_, ?_, hcolumns, lists_of_arranged harranged hout hflags⟩
    · exact hmin
    · exact hmax
    · exact hsealed
    · exact htally
  · have hapart' : ∀ group ∈ out, Distinct group.2 := by
      intro group hgroup
      obtain ⟨origin, horigin, -, hperm⟩ := hout.exists_group hgroup
      refine hdistinct.subset fun entry hentry => ?_
      have hmem := hperm.mem_iff.mp hentry
      rw [(mem_groupsOf horigin).1] at hmem
      exact (mem_filter.mp hmem).1
    have hagain := arrange_again hgroups hordered hwritable harranged hapart'
    rw [← hagain] at harranged hpacked
    obtain ⟨rows', tail', -, hpack', hbytes'⟩ := pack_eq harranged hpacked checksum
    rw [hagain] at hpack' hbytes'
    rw [hpack', hbytes', hbytes]

/-- Rows of two columns out of order: versions of one key, and keys of two widths. -/
def mixedEntries : List FooterEntry :=
  jumbled ++ [dataRow 3 ⟨[1, 2, 3], by decide⟩ 9, dataRow 3 ⟨[1], by decide⟩ 8]

theorem mixedEntries_room (column : ColumnId) :
    roomOf (mixedEntries.filter fun entry => entry.key.column = column) < 2 ^ 32 := by
  have hall : roomOf mixedEntries < 2 ^ 32 := by decide
  exact ((filter_sublist.map FooterEntry.room).sum_le_sum fun _ _ => Nat.zero_le _).trans_lt hall

def byteCount (bytes : Str) : UInt32 := UInt32.ofNat bytes.length

theorem mixed_entries_survive : ∃ rows tail packed,
    { build mixedEntries with sealedAt := 7, tally := ⟨21, 0⟩ }.packApart insertionSorter byteCount 10 =
      .ok (rows, tail, packed) ∧
    parseOwned byteCount (rows.flatten ++ tail) = .ok packed ∧ Lists packed mixedEntries ∧
    packed.pack insertionSorter byteCount 10 = .ok (rows.flatten ++ tail, packed) := by
  obtain ⟨rows, tail, packed, hapart, -, hparse, hagain⟩ := footer_survives_encoding insertionSorter byteCount mixedEntries
    7 ⟨21, 0⟩ 10 (by decide) mixedEntries_room
  have hlen : (rows.flatten ++ tail).length < 2 ^ 32 := by
    have hrun : (match { build mixedEntries with sealedAt := 7, tally := ⟨21, 0⟩ }.packApart insertionSorter byteCount 10 with
      | .ok (rows, tail, _) => (rows.flatten ++ tail).length
      | .error _ => 0) < 2 ^ 32 := by decide +kernel
    rwa [hapart] at hrun
  exact ⟨rows, tail, packed, hapart, (hparse hlen).1, (hparse hlen).2.2.2.2.2.2, hagain (by unfold Distinct; decide)⟩

theorem parseOwned_entryCount_lt {checksum : Str → UInt32} {bytes : Str} {footer : SegmentFooter}
    (h : parseOwned checksum bytes = .ok footer) : footer.entryCount < 2 ^ 32 := by
  simp only [parseOwned, ite_corrupt_eq_ok, Loop.bind_eq_ok] at h
  obtain ⟨-, -, -, _, -, h⟩ := h
  simp only [parseFooter, ite_corrupt_eq_ok, Loop.bind_eq_ok, Prod.exists] at h
  obtain ⟨-, read, consumed, lead, -, hagrees, h⟩ := h
  cases h
  have hsum : ∀ l : List FooterPartition, ((StableSort.sortByKey (·.column) l).map (·.len)).sum = (l.map (·.len)).sum :=
    fun l => ((StableSort.perm_sortByKey (·.column) l).map _).sum_eq
  rw [not_or, not_not, not_not] at hagrees
  rw [entryCount, hsum, hagrees.2]
  exact wordAt_lt _ _

/-- More rows than four bytes count are not read back. -/
theorem rows_past_the_count_are_lost : ∃ entries : List FooterEntry, (∀ entry ∈ entries, entry.flags.Written) ∧
    ∀ (sorter : UnstableSort (Nat × Nat)) (checksum : Str → UInt32) (filterBits : Nat),
      ¬ ∃ bytes packed parsed, (build entries).pack sorter checksum filterBits = .ok (bytes, packed) ∧
        parseOwned checksum bytes = .ok parsed ∧ Lists parsed entries := by
  refine ⟨replicate (2 ^ 32) emptyKeyEntry, ?_, ?_⟩
  · intro entry hentry
    rw [eq_of_mem_replicate hentry]
    decide
  · rintro sorter checksum filterBits ⟨bytes, packed, parsed, -, hparse, hlists⟩
    have hcount := parseOwned_entryCount_lt hparse
    have hcolumn : (0 : ColumnId) ∈ parsed.partitions.map (·.column) :=
      (hlists.columns 0).mpr ⟨emptyKeyEntry, mem_replicate.mpr ⟨by decide, rfl⟩, rfl⟩
    obtain ⟨p, hp, hzero⟩ := mem_map.mp hcolumn
    obtain ⟨l, hrows, hperm, -⟩ := hlists.rows p hp
    have hall : (replicate (2 ^ 32) emptyKeyEntry).filter (fun entry => entry.key.column = p.column) =
        replicate (2 ^ 32) emptyKeyEntry := by
      refine filter_eq_self.mpr fun entry hentry => ?_
      rw [eq_of_mem_replicate hentry, hzero]
      rfl
    have hlen : p.len = 2 ^ 32 := by
      have hlength := congrArg length hrows
      rw [FooterPartition.entries, length_map, length_range, length_map, hperm.length_eq, hall,
        length_replicate] at hlength
      exact hlength
    have hle := single_le_sum (fun _ _ => Nat.zero_le _) _ (mem_map_of_mem (f := (·.len)) hp)
    rw [entryCount] at hcount
    omega

end Reel.Footer
