import Reel.Append.Journal
import Reel.Format.FooterPack

/-!
The mark a seal leaves behind the rows, by which an open finds the footer when the cut after it never
landed. The reader looks for it in the last block of the file, while the rows region may have been zeroed
far past it.
-/

set_option autoImplicit false

namespace Reel
open Bytes Files List Option Journal Footer

def sealMarkLen : Nat := 8 + 4 + 4 + 4

def sealMagic : Str := [83, 69, 65, 76]

def trailerProbeLen : Nat := 4096

variable (checksum : Str → UInt32)

variable (footerEnd footerLen : Nat)

def sealMark : Str :=
  let front := toLe 8 footerEnd ++ toLe 4 footerLen
  front ++ toLe 4 (checksum (front ++ toLe 4 0 ++ sealMagic)).toNat ++ sealMagic

def readSealMark (bytes : Str) : Option (Nat × Nat) :=
  if bytes.length ≠ sealMarkLen then none
  else if bytes.drop 16 ≠ sealMagic then none
  else if (checksum (bytes.take 12 ++ toLe 4 0 ++ bytes.drop 16)).toNat ≠ fromLe ((bytes.drop 12).take 4) then none
  else some (fromLe (bytes.take 8), fromLe ((bytes.drop 8).take 4))

def trimZeros (bytes : Str) : Str := bytes.rdropWhile (· == 0)

/-- The footer a seal's mark points at, for a segment whose cut after the footer never landed. -/
def readMarkedFooter (checksum : Str → UInt32) (file : Str) : Option (SegmentFooter × Nat) := do
  let probe := min file.length trailerProbeLen
  let held := trimZeros (file.drop (file.length - probe))
  if held.length < sealMarkLen then none
  else
    let (footerEnd, len) ← readSealMark checksum (held.drop (held.length - sealMarkLen))
    if footerEnd < len ∨ file.length < footerEnd then none
    else
      let bytes ← slice file (footerEnd - len) len
      let footer ← (SegmentFooter.parseOwned checksum bytes).toOption
      some (footer, footerEnd)

def sealMarked (j : Journal) (file packed : Str) (fin : Nat) : Option Str :=
  let sealedEnd := fin + packed.length
  if sealedEnd < j.rowsAt then
    some (j.markSealed (overwrite file fin packed) (sealMark checksum sealedEnd packed.length)).2
  else none

theorem sealMark_length :
    (sealMark checksum footerEnd footerLen).length = sealMarkLen := by
  simp [sealMark, sealMarkLen, sealMagic]

theorem readSealMark_sealMark {footerEnd : Nat} (footerLen : Nat)
    (hend : footerEnd < 2 ^ 64) :
    readSealMark checksum (sealMark checksum footerEnd footerLen) = some (footerEnd, footerLen % 2 ^ 32) := by
  have hlen := sealMark_length checksum footerEnd footerLen
  have hend' : fromLe (toLe 8 footerEnd) = footerEnd := fromLe_toLe (by omega)
  have hlow : fromLe (toLe 4 footerLen) = footerLen % 2 ^ 32 := fromLe_toLe_mod 4 footerLen
  generalize hfront : toLe 8 footerEnd ++ toLe 4 footerLen = front
  have hfl : front.length = 12 := by simp [← hfront]
  generalize hcheck : checksum (front ++ toLe 4 0 ++ sealMagic) = check
  have hmark : sealMark checksum footerEnd footerLen = front ++ (toLe 4 check.toNat ++ sealMagic) := by
    rw [sealMark, hfront, hcheck, append_assoc]
  have htake : (sealMark checksum footerEnd footerLen).take 12 = front := by
    rw [hmark, take_left' hfl]
  have hdrop : (sealMark checksum footerEnd footerLen).drop 12 = toLe 4 check.toNat ++ sealMagic := by
    rw [hmark, drop_left' hfl]
  have hmagic : (sealMark checksum footerEnd footerLen).drop 16 = sealMagic := by
    rw [show 16 = 12 + 4 from rfl, ← drop_drop, hdrop, drop_left' (toLe_length 4 _)]
  have hword : fromLe (((sealMark checksum footerEnd footerLen).drop 12).take 4) = check.toNat := by
    rw [hdrop, take_left' (toLe_length 4 _)]
    exact fromLe_toLe check.toNat_lt
  have hfirst : (sealMark checksum footerEnd footerLen).take 8 = toLe 8 footerEnd := by
    calc (sealMark checksum footerEnd footerLen).take 8
      _ = ((sealMark checksum footerEnd footerLen).take 12).take 8 := by rw [take_take]; rfl
      _ = toLe 8 footerEnd := by rw [htake, ← hfront, take_left' (toLe_length 8 _)]
  have hsecond : ((sealMark checksum footerEnd footerLen).drop 8).take 4 = toLe 4 footerLen := by
    rw [take_drop, htake, ← hfront, drop_left' (toLe_length 8 _)]
  unfold readSealMark
  rw [if_neg (by simp [hlen]), if_neg (by simp [hmagic]), if_neg (by rw [hmagic, htake, hword, hcheck]; simp),
    hfirst, hsecond, hend', hlow]

theorem sealMark_last :
    ∃ front, sealMark checksum footerEnd footerLen = front ++ [76] :=
  ⟨_, (append_assoc _ [83, 69, 65] [76]).symm⟩

theorem trimZeros_append_zeros (bytes : Str) (n : Nat) :
    trimZeros (bytes ++ replicate n 0) = trimZeros bytes := by
  induction n with
  | zero => simp
  | succ n ih =>
    rw [replicate_succ', ← append_assoc, trimZeros, rdropWhile_concat_pos _ _ _ (by simp)]
    exact ih

theorem trimZeros_length_le (bytes : Str) : (trimZeros bytes).length ≤ bytes.length :=
  ( rdropWhile_prefix (· == 0) bytes).length_le

theorem trimZeros_mark (front : Str) :
    trimZeros (front ++ sealMark checksum footerEnd footerLen) =
      front ++ sealMark checksum footerEnd footerLen := by
  obtain ⟨init, hinit⟩ := sealMark_last checksum footerEnd footerLen
  rw [hinit, ← append_assoc, trimZeros, rdropWhile_concat_neg _ _ _ (by decide)]

def markEnd (j : Journal) : Nat := nextMultiple (j.rowsAt + j.head) + block

/-- When a probe of the last block meets the whole mark and the footer behind it stands whole: the file
ends less than a block past the mark's, and none of the footer is freed by a first fill. -/
structure MarkInReach (j : Journal) (file packed : Str) (fin : Nat) : Prop where
  space : file.length + sealMarkLen ≤ markEnd j + block
  fill : j.fillsAhead = true → j.rowsAt + j.fillEdge j.head + sealMarkLen ≤ markEnd j + block
  freed : j.fillsAhead = true → j.filled = 0 → fin + packed.length ≤ nextMultiple j.span

theorem markBlock_length :
    (replicate (block - sealMarkLen) (0 : Byte) ++ sealMark checksum footerEnd footerLen).length = block := by
  rw [length_append, length_replicate, sealMark_length]
  rfl

section Marked
variable {checksum : Str → UInt32} {j : Journal} {file packed marked : Str} {fin : Nat}

section
variable (hs : sealMarked checksum j file packed fin = some marked)
include hs

theorem sealMarked_eq :
    fin + packed.length < j.rowsAt ∧
      marked = overwrite (j.writePending (overwrite file fin packed)).2 (nextMultiple (j.rowsAt + j.head))
        (replicate (block - sealMarkLen) 0 ++ sealMark checksum (fin + packed.length) packed.length) := by
  unfold sealMarked at hs
  simp only at hs
  split at hs
  · rename_i hroom
    refine ⟨hroom, ?_⟩
    cases hs
    simp only [markSealed, sealMark_length, writePending_rowsAt, writePending_written]
  · cases hs

theorem marked_slice :
    slice marked fin packed.length = some (j.spared fin packed) := by
  obtain ⟨hroom, rfl⟩ := sealMarked_eq hs
  have hup := le_nextMultiple (j.rowsAt + j.head)
  have hfooter := writePending_slice (slice_overwrite_self file fin packed) hroom.le
  rw [slice_overwrite _ (by omega) (le_of_slice hfooter), hfooter]

theorem marked_length :
    marked.length = max (max file.length (if j.fillsAhead then j.rowsAt + j.fillEdge j.head else 0)) (markEnd j) := by
  obtain ⟨hroom, rfl⟩ := sealMarked_eq hs
  have hlen := j.writePending_length (overwrite file fin packed)
  have hup := le_nextMultiple (j.rowsAt + j.head)
  rw [length_overwrite] at hlen ⊢
  rw [markBlock_length]
  unfold markEnd
  generalize (if j.fillsAhead = true then j.rowsAt + j.fillEdge j.head else 0) = ahead at *
  omega

end

theorem marked_drop (hzero : ZeroFrom file (j.rowsAt + j.written))
    (hs : sealMarked checksum j file packed fin = some marked) :
    marked.drop (nextMultiple (j.rowsAt + j.head)) =
      replicate (block - sealMarkLen) 0 ++ sealMark checksum (fin + packed.length) packed.length ++
        replicate (marked.length - markEnd j) 0 := by
  obtain ⟨hroom, hmarked⟩ := sealMarked_eq hs
  have hpast : ZeroFrom (j.writePending (overwrite file fin packed)).2 (markEnd j) :=
    (writePending_zeroFrom (hzero.write packed (by omega))).mono
      ((le_nextMultiple _).trans (Nat.le_add_right _ _))
  have hlen : (j.writePending (overwrite file fin packed)).2.length - markEnd j = marked.length - markEnd j := by
    rw [hmarked, length_overwrite, markBlock_length]
    unfold markEnd
    omega
  rw [zeroFrom_iff, hlen] at hpast
  rw [← hpast, hmarked, drop_overwrite_self, markBlock_length]
  rfl

end Marked

theorem probe_drop {marked mark : Str} {start past : Nat}
    (hdrop : marked.drop start = replicate (block - sealMarkLen) 0 ++ mark ++ replicate past 0)
    (hmark : mark.length = sealMarkLen) :
    marked.drop (marked.length - min marked.length trailerProbeLen) =
      (replicate (block - sealMarkLen) 0 ++ mark).drop past ++ replicate (min past block) 0 := by
  have hlen := congrArg List.length hdrop
  simp only [length_drop, length_append, length_replicate, hmark] at hlen
  have hprobe : marked.length - min marked.length trailerProbeLen = start + past := by
    unfold trailerProbeLen
    simp only [block, sealMarkLen] at hlen
    omega
  have hblock : (replicate (block - sealMarkLen) (0 : Byte) ++ mark).length = block := by
    rw [length_append, length_replicate, hmark]
    rfl
  have hleft : past - (past - block) = min past block := by omega
  rw [hprobe, ← drop_drop, hdrop, drop_append, drop_replicate, hblock, hleft]

section Read
variable {checksum : Str → UInt32} {marked : Str} {start past : Nat}
  {footerEnd footerLen : Nat}

theorem readMarkedFooter_of_far (hfar : block < past + sealMarkLen)
    (hdrop : marked.drop start = replicate (block - sealMarkLen) 0 ++
      sealMark checksum footerEnd footerLen ++ replicate past 0) :
    readMarkedFooter checksum marked = none := by
  have hlen := sealMark_length checksum footerEnd footerLen
  have hshort : (trimZeros ((replicate (block - sealMarkLen) 0 ++
      sealMark checksum footerEnd footerLen).drop past)).length < sealMarkLen := by
    refine (trimZeros_length_le _).trans_lt ?_
    rw [length_drop, markBlock_length]
    simp only [block, sealMarkLen] at hfar ⊢
    omega
  unfold readMarkedFooter
  simp only [probe_drop hdrop hlen, trimZeros_append_zeros]
  exact if_pos hshort

theorem readMarkedFooter_of_near (hnear : past + sealMarkLen ≤ block) (hend : footerEnd < 2 ^ 64)
    (hle : footerLen % 2 ^ 32 ≤ footerEnd) (hin : footerEnd ≤ marked.length)
    (hdrop : marked.drop start = replicate (block - sealMarkLen) 0 ++
      sealMark checksum footerEnd footerLen ++ replicate past 0) :
    readMarkedFooter checksum marked =
      (slice marked (footerEnd - footerLen % 2 ^ 32) (footerLen % 2 ^ 32)).bind fun bytes =>
        (SegmentFooter.parseOwned checksum bytes).toOption.map fun footer => (footer, footerEnd) := by
  have hlen := sealMark_length checksum footerEnd footerLen
  have hheld : (replicate (block - sealMarkLen) 0 ++ sealMark checksum footerEnd footerLen).drop past =
      replicate (block - sealMarkLen - past) 0 ++ sealMark checksum footerEnd footerLen := by
    rw [drop_append_of_le_length (by rw [length_replicate]; omega), drop_replicate]
  have hread : readSealMark checksum ((replicate (block - sealMarkLen - past) 0 ++
      sealMark checksum footerEnd footerLen).drop ((replicate (block - sealMarkLen - past) 0 ++
        sealMark checksum footerEnd footerLen).length - sealMarkLen)) =
      some (footerEnd, footerLen % 2 ^ 32) := by
    rw [length_append, hlen, Nat.add_sub_cancel, drop_left, readSealMark_sealMark checksum _ hend]
  unfold readMarkedFooter
  simp only [probe_drop hdrop hlen, trimZeros_append_zeros, hheld, trimZeros_mark]
  rw [if_neg (by rw [length_append, hlen]; omega), hread]
  simp only [bind_eq_bind, bind_some]
  rw [if_neg (by omega)]
  simp only [map_eq_bind]
  rfl

end Read

/-- A footer's last byte closes its magic. -/
theorem parseOwned_last {bytes : Str} {footer : SegmentFooter} (h : SegmentFooter.parseOwned checksum bytes = .ok footer) :
    bytes[bytes.length - 1]? = some 0x4c := by
  simp only [SegmentFooter.parseOwned, ite_corrupt_eq_ok, Loop.bind_eq_ok] at h
  obtain ⟨hlong, hmagic, -⟩ := h
  simp only [fixedTailLen] at hlong
  have hlen : ((bytes.drop (bytes.length - 4)).take 4).length = 4 := by
    rw [length_take, length_drop]
    omega
  have hword := toLe_fromLe ((bytes.drop (bytes.length - 4)).take 4)
  rw [hlen] at hword
  have hlast := congrArg (fun word : Str => word[3]?) (hword.symm.trans (congrArg (toLe 4) (not_not.mp hmagic)))
  rw [getElem?_take_of_lt (by omega), getElem?_drop] at hlast
  rwa [show bytes.length - 1 = bytes.length - 4 + 3 by omega]

section Found
variable {checksum : Str → UInt32} {j : Journal} {file packed marked : Str} {fin : Nat} {footer : SegmentFooter}

/-- What a first fill leaves of a footer parses exactly where it leaves the footer whole. -/
theorem parseOwned_spared (hparse : SegmentFooter.parseOwned checksum packed = .ok footer) :
    SegmentFooter.parseOwned checksum (j.spared fin packed) = .ok footer ↔
      (j.fillsAhead = true → j.filled = 0 → fin + packed.length ≤ nextMultiple j.span) := by
  constructor
  · intro hspared hfills hfirst
    by_contra hpast
    have hlast := parseOwned_last checksum hparse
    have hgone := parseOwned_last checksum hspared
    rw [spared, if_pos ⟨hfills, hfirst⟩, length_mapIdx, getElem?_mapIdx, hlast, Option.map_some, if_pos] at hgone
    · cases hgone
    · have := (List.getElem?_eq_some_iff.mp hlast).1
      omega
  · intro hwhole
    rw [(spared_eq_iff j fin packed).mpr, hparse]
    intro hfills hfirst i b hb hpast
    have := (List.getElem?_eq_some_iff.mp hb).1
    have := hwhole hfills hfirst
    omega

theorem markInReach_iff (hs : sealMarked checksum j file packed fin = some marked) :
    MarkInReach j file packed fin ↔ marked.length - markEnd j + sealMarkLen ≤ block ∧
      (j.fillsAhead = true → j.filled = 0 → fin + packed.length ≤ nextMultiple j.span) := by
  have hlen := marked_length hs
  have hspace : marked.length - markEnd j + sealMarkLen ≤ block ↔
      file.length + sealMarkLen ≤ markEnd j + block ∧
        (j.fillsAhead = true → j.rowsAt + j.fillEdge j.head + sealMarkLen ≤ markEnd j + block) := by
    rw [hlen]
    have hmark : sealMarkLen ≤ block := by decide
    by_cases hahead : j.fillsAhead = true
    · simp only [hahead, if_true, true_imp_iff]
      omega
    · simp only [hahead, Bool.false_eq_true, if_false, false_imp_iff, and_true]
      omega
  rw [hspace]
  exact ⟨fun h => ⟨⟨h.space, h.fill⟩, h.freed⟩, fun h => ⟨h.1.1, h.1.2, h.2⟩⟩

/-- A crash between a seal's mark and its cut leaves a footer the open finds exactly where the mark is in
reach of its probe and the footer was not freed in part. The footer parses, its length fits the mark's word,
and the space past the rows is zero. -/
theorem marked_footer_found_iff (hparse : SegmentFooter.parseOwned checksum packed = .ok footer)
    (hfits : packed.length < 2 ^ 32) (hzero : ZeroFrom file (j.rowsAt + j.written)) (hrows : j.rowsAt < 2 ^ 64)
    (hs : sealMarked checksum j file packed fin = some marked) :
    readMarkedFooter checksum marked = some (footer, fin + packed.length) ↔
      MarkInReach j file packed fin := by
  have hroom := (sealMarked_eq hs).1
  have hdrop := marked_drop hzero hs
  have hslice := marked_slice hs
  rw [markInReach_iff hs]
  by_cases hnear : marked.length - markEnd j + sealMarkLen ≤ block
  · have hmod := Nat.mod_eq_of_lt hfits
    rw [readMarkedFooter_of_near hnear (by omega) (by omega) (le_of_slice hslice) hdrop, hmod,
      Nat.add_sub_cancel, hslice, bind_some, ← parseOwned_spared hparse]
    cases SegmentFooter.parseOwned checksum (j.spared fin packed) with
    | error fault => simp [Except.toOption]
    | ok read => simp [Except.toOption, hnear]
  · rw [readMarkedFooter_of_far (by omega) hdrop]
    exact iff_of_false (by simp) (fun h => hnear h.1)

end Found

def onePutKey : RecordKey := ⟨0, ⟨[1, 1], by decide⟩⟩

def onePut (span : Nat) : Journal :=
  (create (2 * span) span false false).push checksum
    [⟨onePutKey, 1, 4096, 300, Flags.data, none⟩]

theorem onePut_pending (span : Nat) : (onePut checksum span).pending.length = 34 := by
  simp [onePut, onePutKey, push, create, Journal.start, pushGroup, pushRows, pushRow, pushFixed, pushEnd,
    Flags.data, Flags.isRangeTombstone]

theorem onePut_head (span : Nat) : (onePut checksum span).head = 34 := by
  have hblocks : (onePut checksum span).wholeBlocks = false := rfl
  have hwritten : (onePut checksum span).written = 0 := rfl
  simp [Journal.head, outgoing, hblocks, hwritten, onePut_pending]

theorem onePut_fillsAhead (span : Nat) : (onePut checksum span).fillsAhead = true := by
  have hpending : (onePut checksum span).pending ≠ [] := by
    intro hnil
    simpa [hnil] using onePut_pending checksum span
  have hfills : (onePut checksum span).fills 34 = true := rfl
  simp [fillsAhead, hpending, onePut_head, hfills]

/-- The footer of that put's segment. -/
def onePutFooter : SegmentFooter :=
  { SegmentFooter.build [⟨onePutKey, 1, 4096, 300, .data⟩] with sealedAt := 1, tally := ⟨300, 0⟩ }

theorem onePutFooter_packs : ∃ packed footer, onePutFooter.pack insertionSorter crc32c 10 = .ok (packed, footer) ∧
    packed.length < 4096 ∧ SegmentFooter.parseOwned crc32c packed = .ok footer := by
  have hroom : ∀ column, roomOf ([⟨onePutKey, 1, 4096, 300, .data⟩].filter fun entry : FooterEntry =>
      entry.key.column = column) < 2 ^ 32 := by
    intro column
    rw [filter_cons, filter_nil]
    split <;> decide
  obtain ⟨out, rows, tail, -, -, -, -, hpack, -, hparse⟩ := @pack_image onePutFooter _ (build_groups _)
    (StableSort.ordered_partition _ _ _) (writable_groupsOf hroom) insertionSorter crc32c 10
  have hlen : (rows.flatten ++ tail).length < 4096 := by
    have hrun : (match onePutFooter.pack insertionSorter crc32c 10 with
      | .ok (bytes, _) => bytes.length
      | .error _ => 0) < 4096 := by decide +kernel
    rwa [hpack] at hrun
  exact ⟨_, _, hpack, hlen, hparse (by omega)⟩

/-- A segment of 64 KiB fills a block at a time, so the mark stays in reach. -/
theorem marked_footer_found_small : ∃ packed footer marked,
    onePutFooter.pack insertionSorter crc32c 10 = .ok (packed, footer) ∧
      sealMarked crc32c (onePut crc32c 65536) (replicate 131072 0) packed 8192 = some marked ∧
      readMarkedFooter crc32c marked = some (footer, 8192 + packed.length) := by
  obtain ⟨packed, footer, hpack, hlen, hparse⟩ := onePutFooter_packs
  have hrows : (onePut crc32c 65536).rowsAt = 131072 := rfl
  have hspan : (onePut crc32c 65536).span = 65536 := rfl
  have hend : markEnd (onePut crc32c 65536) = 139264 := by rw [markEnd, onePut_head, hrows]; rfl
  have hreach : MarkInReach (onePut crc32c 65536) (replicate 131072 0) packed 8192 := by
    refine ⟨?_, fun _ => ?_, fun _ _ => ?_⟩
    · rw [hend, length_replicate]
      decide
    · have hedge : (onePut crc32c 65536).fillEdge 34 = 4096 := by rw [fillEdge, hspan]; decide
      rw [hend, onePut_head, hrows, hedge]
      decide
    · have hwhole : nextMultiple 65536 = 65536 := by decide
      rw [hspan, hwhole]
      omega
  obtain ⟨marked, hs⟩ : ∃ marked, sealMarked crc32c (onePut crc32c 65536) (replicate 131072 0) packed 8192 =
      some marked := ⟨_, if_pos (by rw [hrows]; omega)⟩
  refine ⟨packed, footer, marked, hpack, hs, (marked_footer_found_iff hparse (by omega) ?_ (hrows ▸ by decide) hs).mpr
    hreach⟩
  exact fun i b _ hb => eq_of_mem_replicate (mem_of_getElem? hb)

/-- A segment of 1 MiB zeroes 64 KiB ahead of its first row, and the mark of its seal is not found. -/
theorem marked_footer_missed : ∃ packed footer marked,
    onePutFooter.pack insertionSorter crc32c 10 = .ok (packed, footer) ∧
      sealMarked crc32c (onePut crc32c 1048576) (replicate 2097152 0) packed 8192 = some marked ∧
      readMarkedFooter crc32c marked = none := by
  obtain ⟨packed, footer, hpack, hsmall, -⟩ := onePutFooter_packs
  have hrows : (onePut crc32c 1048576).rowsAt = 2097152 := rfl
  have hspan : (onePut crc32c 1048576).span = 1048576 := rfl
  have hedge : (onePut crc32c 1048576).fillEdge 34 = 65536 := by rw [fillEdge, hspan]; decide
  have hend : markEnd (onePut crc32c 1048576) = 2105344 := by rw [markEnd, onePut_head, hrows]; rfl
  obtain ⟨marked, hs⟩ : ∃ marked, sealMarked crc32c (onePut crc32c 1048576) (replicate 2097152 0) packed 8192 =
      some marked := ⟨_, if_pos (by rw [hrows]; omega)⟩
  have hlen : marked.length = 2162688 := by
    rw [marked_length hs, onePut_fillsAhead, onePut_head, hrows, hedge, hend, length_replicate]
    rfl
  refine ⟨packed, footer, marked, hpack, hs, readMarkedFooter_of_far ?_ (marked_drop ?_ hs)⟩
  · rw [hlen, hend]
    decide
  · exact fun i b _ hb => eq_of_mem_replicate (mem_of_getElem? hb)

end Reel
