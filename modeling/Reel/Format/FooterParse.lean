import Reel.Format.FooterBytes

/-!
A written footer parses back to the footer it was written from: the fixed fields by their places from the
end, the filters and the directory by the lengths among those fields, and each partition's rows by the
spans in the directory.
-/

set_option autoImplicit false

open List

namespace Reel.Footer
open Reel.Footer.Filter
open FooterPartition
open SegmentFooter
open Bytes

def numberAt (n : Nat) (bytes : Str) (start : Nat) : Nat := fromLe ((bytes.drop start).take n)

variable {rest : Str}

theorem numberAt_past (n : Nat) {front : Str} {start : Nat} (h : front.length ≤ start) :
    numberAt n (front ++ rest) start = numberAt n rest (start - front.length) := by
  rw [numberAt, numberAt, drop_append, drop_of_length_le h, nil_append]

theorem numberAt_skip (n : Nat) {m value start : Nat} (h : m ≤ start) :
    numberAt n (toLe m value ++ rest) start = numberAt n rest (start - m) := by
  rw [numberAt_past n (by rwa [toLe_length]), toLe_length]

theorem numberAt_toLe {n value : Nat} (h : value < 256 ^ n) (rest : Str) : numberAt n (toLe n value ++ rest) 0 = value := by
  rw [numberAt, drop_zero, take_left' (toLe_length n value), fromLe_toLe h]

def fixedTail (footer : SegmentFooter) (crc footerLen : Nat) : Str :=
  footer.fixedFields ++ (toLe 4 crc ++ (toLe 4 footerLen ++ toLe 4 footerMagic))

@[simp] theorem fixedFields_length (footer : SegmentFooter) : footer.fixedFields.length = 52 := by
  simp [fixedFields, toLe_length]

@[simp] theorem fixedTail_length (footer : SegmentFooter) (crc footerLen : Nat) :
    (fixedTail footer crc footerLen).length = fixedTailLen := by
  simp [fixedTail, toLe_length, fixedTailLen]

/-- Every field of the fixed tail stands at its place. -/
structure TailFields (footer : SegmentFooter) (crc footerLen : Nat) (tail : Str) : Prop where
  sealedAt : numberAt 8 tail 0 = footer.sealedAt.toNat
  bloomLen : numberAt 4 tail 8 = footer.filterRegionLen
  partitions : numberAt 4 tail 12 = footer.partitions.length
  entryCount : numberAt 4 tail 16 = footer.entryCount
  dead : numberAt 8 tail 20 = footer.tally.dead.toNat
  live : numberAt 8 tail 28 = footer.tally.live.toNat
  minLsn : numberAt 8 tail 36 = footer.minLsn.toNat
  maxLsn : numberAt 8 tail 44 = footer.maxLsn.toNat
  crc : numberAt 4 tail 52 = crc
  footerLen : numberAt 4 tail 56 = footerLen
  magic : numberAt 4 tail 60 = footerMagic

variable {footer : SegmentFooter}

theorem tailFields {crc footerLen : Nat} (hregion : footer.filterRegionLen < 2 ^ 32)
    (hpartitions : footer.partitions.length < 2 ^ 32) (hcount : footer.entryCount < 2 ^ 32) (hcrc : crc < 2 ^ 32)
    (hlen : footerLen < 2 ^ 32) : TailFields footer crc footerLen (fixedTail footer crc footerLen) := by
  have hword : ∀ {value : Nat}, value < 2 ^ 32 → ∀ rest, numberAt 4 (toLe 4 value ++ rest) 0 = value :=
    fun h rest => numberAt_toLe (show _ < 256 ^ 4 from h) rest
  have hlong : ∀ (value : UInt64) rest, numberAt 8 (toLe 8 value.toNat ++ rest) 0 = value.toNat :=
    fun value rest => numberAt_toLe (show _ < 256 ^ 8 from value.toNat_lt) rest
  have hmagic : numberAt 4 (toLe 4 footerMagic) 0 = footerMagic := by
    have := hword (show footerMagic < 2 ^ 32 by decide) []
    rwa [append_nil] at this
  constructor <;>
    simp [fixedTail, fixedFields, numberAt_skip, hword hregion, hword hpartitions, hword hcount, hword hcrc,
      hword hlen, hlong, hmagic]

section
variable (body : Str) {tail : Str} (htail : tail.length = fixedTailLen) {fromEnd : Nat}
  (h : fromEnd ≤ fixedTailLen)
include body htail h

theorem fieldAt_tail : fieldAt (body ++ tail) fromEnd = numberAt 4 tail (fixedTailLen - fromEnd) := by
  have hlen : (body ++ tail).length = body.length + fixedTailLen := by rw [length_append, htail]
  rw [fieldAt, hlen]
  refine (numberAt_past 4 (by omega)).trans ?_
  rw [show body.length + fixedTailLen - fromEnd - body.length = fixedTailLen - fromEnd by omega]

theorem longAt_tail :
    longAt (body ++ tail) fromEnd = UInt64.ofNat (numberAt 8 tail (fixedTailLen - fromEnd)) := by
  have hlen : (body ++ tail).length = body.length + fixedTailLen := by rw [length_append, htail]
  rw [longAt, hlen]
  refine congrArg UInt64.ofNat ((numberAt_past 8 (by omega)).trans ?_)
  rw [show body.length + fixedTailLen - fromEnd - body.length = fixedTailLen - fromEnd by omega]

end

theorem encode_absent_or (filter : Option Filter) :
    (filter.getD absent).encode.length = filter.elim Filter.headerLen (·.encodedLen) := by
  cases filter with
  | none => rfl
  | some filter => exact filter.length_encode

theorem region_length (filters : List (Option Filter)) :
    (region filters).length = (filters.map fun filter => filter.elim Filter.headerLen (·.encodedLen)).sum := by
  induction filters with
  | nil => rfl
  | cons filter filters ih =>
    have hregion : region (filter :: filters) = (filter.getD absent).encode ++ region filters := rfl
    rw [hregion, length_append, encode_absent_or, ih, map_cons, sum_cons]

theorem filterRegion_eq (footer : SegmentFooter) : footer.filterRegion =
    if footer.partitions.any (·.filter.isSome) then region (footer.partitions.map (·.filter)) else [] := by
  have hregion : footer.partitions.flatMap (fun p => (p.filter.getD absent).encode) =
      region (footer.partitions.map (·.filter)) := by
    rw [region, flatMap_map]
  unfold filterRegion filterRegionLen
  split
  · next hany =>
    obtain ⟨p, hp, -⟩ := any_eq_true.mp hany
    have hpos : 0 < (footer.partitions.map fun p => p.filter.elim Filter.headerLen (·.encodedLen)).sum := by
      refine lt_of_lt_of_le ?_ (single_le_sum (fun _ _ => Nat.zero_le _) _ (mem_map_of_mem hp))
      cases p.filter with
      | none => decide
      | some filter => simp only [Option.elim, encodedLen, Filter.headerLen]; omega
    rw [if_pos hpos, hregion]
  · rw [if_neg (by omega)]

theorem filterRegion_length (footer : SegmentFooter) : footer.filterRegion.length = footer.filterRegionLen := by
  rw [filterRegion_eq, filterRegionLen]
  split
  · rw [region_length, map_map]
    rfl
  · rfl

@[simp] theorem directoryRow_length (p : FooterPartition) (span : Nat) :
    (p.directoryRow span).length = directoryRowLen := by
  simp [directoryRow, toLe_length, directoryRowLen]

theorem directory_length (rows : List (FooterPartition × Nat)) :
    (rows.flatMap fun row => row.1.directoryRow row.2).length = rows.length * directoryRowLen := by
  induction rows with
  | nil => simp
  | cons row rows ih =>
    rw [flatMap_cons, length_append, directoryRow_length, ih, length_cons, Nat.succ_mul]
    omega

theorem and_packedWidth (width : Nat) : width &&& packedWidth = (width.testBit 15).toNat * 2 ^ 15 := by
  rw [show packedWidth = 2 ^ 15 from rfl, Nat.and_two_pow]

variable {p : FooterPartition}

theorem readWidth_widthField (hpacks : p.isVarying = true → p.isPacked = true)
    (hwidth : p.isVarying = false → p.keyWidth.val ≤ maxKeyLen) : readWidth p.widthField = (p.keyWidth, p.isPacked) := by
  cases hvary : p.isVarying with
  | true =>
    have hkey : p.keyWidth = varyingWidth := of_decide_eq_true hvary
    have hfield : p.widthField = varyingWidth.val := by
      rw [widthField, hvary, Bool.not_true, Bool.and_false, hkey]
      rfl
    rw [hfield, readWidth, if_pos rfl, hpacks hvary, hkey]
  | false =>
    have hle : p.keyWidth.val ≤ 1056 := hwidth hvary
    have hbit : p.keyWidth.val.testBit 15 = false := Nat.testBit_lt_two_pow (by omega)
    have hback : Fin.ofNat (2 ^ 16) p.keyWidth.val = p.keyWidth := Fin.ofNat_val_eq_self _
    cases hpacked : p.isPacked with
    | true =>
      have hfield : p.widthField = 2 ^ 15 + p.keyWidth.val := by
        have hor := Nat.two_pow_add_eq_or_of_lt (i := 15) (b := p.keyWidth.val) (by omega) 1
        rw [widthField, hvary, hpacked, Nat.or_comm]
        simpa [packedWidth] using hor.symm
      have hne : p.widthField ≠ varyingWidth.val := by
        rw [hfield]; simp only [varyingWidth]; omega
      have hmark : p.widthField &&& packedWidth ≠ 0 := by
        rw [hfield, and_packedWidth, Nat.testBit_two_pow_add_eq, hbit]
        decide
      have hrest : p.widthField &&& (packedWidth - 1) = p.keyWidth.val := by
        have hmod := Nat.and_two_pow_sub_one_eq_mod p.widthField 15
        rw [show packedWidth - 1 = 2 ^ 15 - 1 from rfl, hmod, hfield]
        omega
      rw [readWidth, if_neg hne, if_pos hmark, hrest, hback]
    | false =>
      have hfield : p.widthField = p.keyWidth.val := by
        rw [widthField, hpacked]; rfl
      have hne : p.widthField ≠ varyingWidth.val := by
        rw [hfield]; simp only [varyingWidth]; omega
      have hmark : ¬ p.widthField &&& packedWidth ≠ 0 := by
        rw [hfield, and_packedWidth, hbit]
        decide
      rw [readWidth, if_neg hne, if_neg hmark, hfield, hback]

theorem readDirectoryRow_eq {bytes : Str} {span start : Nat} (hstart : start ≤ bytes.length)
    (h : bytes.drop start = p.directoryRow span ++ rest) (hlen : p.len < 2 ^ 32) (hspan : span < 2 ^ 32)
    (hwidth : p.widthField < 2 ^ 16) :
    readDirectoryRow bytes start = .ok ⟨p.column, p.widthField, p.len, span⟩ := by
  have hcut := cut_of_drop hstart h
  rw [directoryRow_length] at hcut
  have hcolumn : toLe 1 p.column.val = [p.column] := by
    simp only [toLe, List.cons.injEq, and_true]
    exact Fin.ofNat_val_eq_self _
  have hparts : p.directoryRow span = toLe 1 p.column.val ++ (toLe 2 p.widthField ++ (toLe 4 p.len ++ (toLe 4 span ++ []))) := by
    rw [hcolumn]
    simp only [directoryRow, append_assoc, append_nil]
  have hfirst : (p.directoryRow span).getD 0 0 = p.column := by rw [hparts, hcolumn]; rfl
  have hfield : numberAt 2 (p.directoryRow span) 1 = p.widthField := by
    rw [hparts, numberAt_skip 2 (le_refl _), Nat.sub_self, numberAt_toLe hwidth]
  have hcount : numberAt 4 (p.directoryRow span) 3 = p.len := by
    rw [hparts, numberAt_skip 4 (by decide), numberAt_skip 4 (by decide)]
    exact numberAt_toLe hlen _
  have hspans : numberAt 4 (p.directoryRow span) 7 = span := by
    rw [hparts, numberAt_skip 4 (by decide), numberAt_skip 4 (by decide), numberAt_skip 4 (by decide)]
    exact numberAt_toLe hspan _
  simp only [readDirectoryRow, hcut, orCorrupt, bind, Except.bind, pure, Except.pure, hfirst]
  exact congrArg Except.ok (DirectoryRow.mk.injEq .. |>.mpr ⟨rfl, hfield, hcount, hspans⟩)

def bareAt (index : Nat) (p : FooterPartition) : FooterPartition :=
  { p with filter := none, packed := if index = 0 ∧ p.isPacked = false then [] else p.packed }

def leadAt (index : Nat) (p : FooterPartition) (span : Nat) : Option Nat :=
  if index = 0 ∧ p.isPacked = false then some span else none

variable {l : List FooterEntry}

theorem Tidy.width_le (h : Tidy p l) (hstrides : p.isVarying = false) :
    p.keyWidth.val ≤ maxKeyLen := by
  obtain ⟨entry, hentry⟩ := exists_mem_of_ne_nil l h.held
  rw [← h.holds.width hstrides entry hentry]
  exact entry.key.key.width_le

theorem widthField_lt (p : FooterPartition) : p.widthField < 2 ^ 16 := by
  unfold widthField
  split
  · exact Nat.or_lt_two_pow p.keyWidth.isLt (by decide)
  · exact p.keyWidth.isLt

section
variable (h : Tidy p l) (himage : (pushedTo .entry (rowsOf l) l.length).encode.length < 2 ^ 32)
include h himage

theorem Tidy.fits : Fits .entry (rowsOf l) := by
  have hencode := congrArg length (encode_eq .entry (rowsOf l))
  rw [length_append, rowsOf_length] at hencode
  have hroom := h.room
  constructor
  · rw [rowsOf_length]; omega
  · rw [rowsOf_length, ← whole_length] at *; exact hroom

theorem Tidy.unpack :
    unpack (pushedTo .entry (rowsOf l) l.length).encode .entry (if p.isVarying then none else some p.stride) =
      .ok (whole l, if p.isVarying then startsOf l else [], l.length) := by
  have hstrides : Strides .entry (rowsOf l) (if p.isVarying then none else some p.stride) := by
    cases hvary : p.isVarying with
    | true => intro len hlen; cases hlen
    | false =>
      intro len hlen k hk
      rw [rowsOf_length] at hk
      cases hlen
      rw [rowAt_rowsOf hk]
      exact congrArg (· + entryTailLen) (h.holds.width hvary _ (getElem_mem hk))
  have hunpack := unpack_encode (h.fits himage) h.pushable hstrides
  rw [rowsOf_length] at hunpack
  rw [hunpack]
  cases p.isVarying <;> rfl

end

theorem readPartition_eq (h : Tidy p l) {footer : Str} {rowsAt : Nat}
    (hrows : rowsAt ≤ footer.length) (hdrop : footer.drop rowsAt = imageOf p l ++ rest)
    (himage : (imageOf p l).length < 2 ^ 32) (index : Nat) :
    readPartition footer index rowsAt ⟨p.column, p.widthField, p.len, (imageOf p l).length⟩ =
      .ok (bareAt index p, (imageOf p l).length, leadAt index p (imageOf p l).length) := by
  have hwidth := readWidth_widthField h.holds.packs h.width_le
  have hcut := cut_of_drop hrows hdrop
  have hlen := h.holds.len
  have hpacked := h.holds.packed
  have hstarts := h.holds.starts
  unfold readPartition
  simp only [hwidth]
  cases hpacks : p.isPacked with
  | true =>
    have himg : imageOf p l = (pushedTo .entry (rowsOf l) l.length).encode := by rw [imageOf, hpacks, if_pos rfl]
    rw [himg] at hcut himage
    have hunpack := h.unpack himage
    simp only [if_true, himg, hcut, orCorrupt, Loop.bind_eq_ok, ite_corrupt_eq_ok]
    refine ⟨_, rfl, _, hunpack, ?_, ?_⟩
    · exact not_not.mpr hlen.symm
    · have hread : bareAt index p = ⟨p.column, p.keyWidth, whole l, if p.isVarying then startsOf l else [], none, true⟩ := by
        simp [bareAt, hpacks, hpacked, hstarts]
      have hlead : leadAt index p (pushedTo .entry (rowsOf l) l.length).encode.length = none := by simp [leadAt, hpacks]
      rw [hread, hlead]
      cases hvary : p.isVarying with
      | true => simp [new, isVarying, of_decide_eq_true hvary]; rfl
      | false =>
        have hne : ¬ p.keyWidth = varyingWidth := of_decide_eq_false hvary
        simp [new, isVarying, hne]; rfl
  | false =>
    have hstrides : p.isVarying = false := by
      cases hvary : p.isVarying with
      | true => rw [h.holds.packs hvary] at hpacks; cases hpacks
      | false => rfl
    have hne : ¬ p.keyWidth = varyingWidth := of_decide_eq_false hstrides
    have himg : imageOf p l = whole l := by rw [imageOf, hpacks]; rfl
    have hspan : p.len * p.stride.val = (whole l).length := by
      rw [hlen, whole, wholeTo_stride (h.holds.width hstrides) (le_refl _)]
      rfl
    rw [hstrides] at hstarts
    rw [himg] at hcut ⊢
    have hnew : (new p.column p.keyWidth).starts = p.starts := by
      simp [new, hne, hstarts]
    change (do
      let packed ← orCorrupt "footer partition is truncated" (cut footer rowsAt (rowsAt + p.len * p.stride.val))
      if p.len * p.stride.val ≠ (whole l).length then _ else
      if index = 0 then _ else _) = _
    rw [hspan, hcut]
    simp only [orCorrupt, Loop.bind_eq_ok, ite_corrupt_eq_ok]
    refine ⟨_, rfl, not_not.mpr rfl, ?_⟩
    by_cases hfirst : index = 0
    · rw [if_pos hfirst]
      simp only [bareAt, leadAt, hfirst, hpacks, and_self, if_true, ← hnew, ← hspan]
      rfl
    · rw [if_neg hfirst]
      simp only [bareAt, leadAt, hfirst, hpacks, false_and, if_false, hpacked, ← hnew]
      exact congrArg (fun span => Except.ok ((_ : FooterPartition), span, none)) hspan

def imagesOf (partitions : List FooterPartition) (groups : List (ColumnId × List FooterEntry)) : List Str :=
  partitions.zipWith (fun p group => imageOf p group.2) groups

def directoryOf (partitions : List FooterPartition) (images : List Str) : Str :=
  (partitions.zip (images.map length)).flatMap fun row => row.1.directoryRow row.2

def Small (partitions : List FooterPartition) (groups : List (ColumnId × List FooterEntry)) : Prop :=
  List.Forall₂ (fun p group => p.len < 2 ^ 32 ∧ (imageOf p group.2).length < 2 ^ 32) partitions groups

section reading
variable {footer : Str} {directoryAt : Nat}

theorem readPartitions_succ {p : FooterPartition} {l : List FooterEntry} (h : Tidy p l) (hlen : p.len < 2 ^ 32)
    (himage : (imageOf p l).length < 2 ^ 32) {n index rowsAt : Nat} {done : List FooterPartition} {lead : Option Nat}
    {rest rest' : Str} (hat : directoryAt + index * directoryRowLen ≤ footer.length) (hrowsAt : rowsAt ≤ footer.length)
    (hdir : footer.drop (directoryAt + index * directoryRowLen) = p.directoryRow (imageOf p l).length ++ rest)
    (hrows : footer.drop rowsAt = imageOf p l ++ rest') (hfresh : ∀ q ∈ done, q.column ≠ p.column) :
    readPartitions footer directoryAt (n + 1) index done rowsAt lead =
      readPartitions footer directoryAt n (index + 1) (done ++ [bareAt index p]) (rowsAt + (imageOf p l).length)
        (leadAt index p (imageOf p l).length <|> lead) := by
  have hrow := readDirectoryRow_eq hat hdir hlen himage (widthField_lt p)
  have hany : done.any (·.column = p.column) = false := by
    rw [any_eq_false]
    exact fun q hq => by simpa using hfresh q hq
  rw [readPartitions, hrow]
  simp only [bind, Except.bind, hany, Bool.false_eq_true, if_false, readPartition_eq h hrowsAt hrows himage index]

def bareAll : List FooterPartition → List FooterPartition
  | [] => []
  | p :: partitions => bareAt 0 p :: partitions.map (bareAt 1)

def leadOf : List FooterPartition → List Str → Option Nat
  | p :: _, image :: _ => leadAt 0 p image.length
  | _, _ => none

theorem readPartitions_from {partitions : List FooterPartition} {groups : List (ColumnId × List FooterEntry)}
    (h : TidyAll partitions groups) (hsmall : Small partitions groups) {index rowsAt : Nat}
    {done : List FooterPartition} {lead : Option Nat} {rest rest' : Str}
    (hat : directoryAt + index * directoryRowLen ≤ footer.length) (hrowsAt : rowsAt ≤ footer.length)
    (hdir : footer.drop (directoryAt + index * directoryRowLen) =
      directoryOf partitions (imagesOf partitions groups) ++ rest)
    (hrows : footer.drop rowsAt = (imagesOf partitions groups).flatten ++ rest')
    (hfresh : ((done ++ partitions).map (·.column)).Pairwise (· < ·)) :
    readPartitions footer directoryAt partitions.length index done rowsAt lead =
      .ok (done ++ (if index = 0 then bareAll partitions else partitions.map (bareAt 1)),
        rowsAt + (imagesOf partitions groups).flatten.length,
        if index = 0 then leadOf partitions (imagesOf partitions groups) <|> lead else lead) := by
  induction h generalizing index rowsAt done lead with
  | nil => simp [readPartitions, imagesOf, bareAll, leadOf]
  | @cons p group partitions groups hp hrest ih =>
    obtain ⟨⟨hlen, himage⟩, hsmall'⟩ := forall₂_cons.mp hsmall
    have hdir' : footer.drop (directoryAt + index * directoryRowLen) = p.directoryRow (imageOf p group.2).length ++
        (directoryOf partitions (imagesOf partitions groups) ++ rest) := by
      rw [hdir]
      simp [directoryOf, imagesOf]
    have hrows' : footer.drop rowsAt = imageOf p group.2 ++ ((imagesOf partitions groups).flatten ++ rest') := by
      rw [hrows]
      simp [imagesOf]
    have hnew : ∀ q ∈ done, q.column ≠ p.column := by
      intro q hq
      rw [map_append, pairwise_append] at hfresh
      exact (hfresh.2.2 q.column (mem_map_of_mem hq) p.column (by simp)).ne
    have hstep : directoryAt + (index + 1) * directoryRowLen =
        directoryAt + index * directoryRowLen + (p.directoryRow (imageOf p group.2).length).length := by
      rw [directoryRow_length, Nat.succ_mul]
      omega
    have hnext : ((done ++ [bareAt index p] ++ partitions).map (·.column)).Pairwise (· < ·) := by
      simpa [bareAt] using hfresh
    have hmore := @ih hsmall' (index + 1) (rowsAt + (imageOf p group.2).length) (done ++ [bareAt index p])
      (leadAt index p (imageOf p group.2).length <|> lead)
      (by rw [hstep]; exact room_of_drop hat hdir') (room_of_drop hrowsAt hrows')
      (by rw [hstep]; exact drop_past hdir') (drop_past hrows') hnext
    rw [length_cons, readPartitions_succ hp.2 hlen himage hat hrowsAt hdir' hrows' hnew, hmore]
    simp only [append_assoc, singleton_append, imagesOf, zipWith_cons_cons, flatten_cons,
      length_append, Nat.add_assoc, Nat.succ_ne_zero, if_false]
    -- only the first partition leads
    by_cases hindex : index = 0
    · simp only [hindex, if_true, bareAll, leadOf]
    · have hbare : bareAt index p = bareAt 1 p := by simp [bareAt, hindex]
      have hlead : (leadAt index p (imageOf p group.2).length <|> lead) = lead := by simp [leadAt, hindex]
      rw [if_neg hindex, if_neg hindex, hbare, hlead, map_cons]

theorem readPartitions_eq {partitions : List FooterPartition} {groups : List (ColumnId × List FooterEntry)}
    (h : TidyAll partitions groups) (hsmall : Small partitions groups) {rest rest' : Str}
    (hat : directoryAt ≤ footer.length)
    (hdir : footer.drop directoryAt = directoryOf partitions (imagesOf partitions groups) ++ rest)
    (hrows : footer = (imagesOf partitions groups).flatten ++ rest')
    (hordered : (partitions.map (·.column)).Pairwise (· < ·)) :
    readPartitions footer directoryAt partitions.length 0 [] 0 none =
      .ok (bareAll partitions, (imagesOf partitions groups).flatten.length,
        leadOf partitions (imagesOf partitions groups)) := by
  have hread := @readPartitions_from footer directoryAt partitions groups h hsmall 0 0 [] none rest rest'
    (by rwa [Nat.zero_mul]) (Nat.zero_le _) (by rwa [Nat.zero_mul]) hrows hordered
  simpa using hread

end reading

variable {groups : List (ColumnId × List FooterEntry)}

section
variable {partitions : List FooterPartition} (h : TidyAll partitions groups)
include h

theorem takeLead_bareAll {footer : Str} (hrows : footer = (imagesOf partitions groups).flatten ++ rest) :
    takeLead footer (leadOf partitions (imagesOf partitions groups))
      ((bareAll partitions).zipWith (fun p filter => { p with filter }) (partitions.map (·.filter))) = partitions := by
  have hback : ∀ ps : List FooterPartition, (ps.map (bareAt 1)).zipWith (fun p filter => { p with filter })
      (ps.map (·.filter)) = ps := by
    intro ps
    induction ps with
    | nil => rfl
    | cons p ps ih =>
      rw [map_cons, map_cons, zipWith_cons_cons, ih]
      rfl
  cases h with
  | nil => rfl
  | @cons p group partitions groups hp hrest =>
    simp only [bareAll, leadOf, imagesOf, zipWith_cons_cons, map_cons, hback, leadAt, bareAt]
    by_cases hstrided : p.isPacked = false
    · have himage : imageOf p group.2 = p.packed := by rw [imageOf, hstrided, hp.2.holds.packed]; rfl
      have htake : footer.take (imageOf p group.2).length = p.packed := by
        rw [hrows, imagesOf, zipWith_cons_cons, flatten_cons, append_assoc, take_left, himage]
      rw [if_pos ⟨trivial, hstrided⟩, takeLead, htake]
    · rw [if_neg fun hand => hstrided hand.2, if_neg fun hand => hstrided hand.2]
      rfl

theorem TidyAll.exists_group (hp : p ∈ partitions) :
    ∃ group ∈ groups, p.column = group.1 ∧ Tidy p group.2 := by
  induction h with
  | nil => cases hp
  | @cons q group partitions groups hq _ ih =>
    rcases mem_cons.mp hp with rfl | hp
    · exact ⟨group, by simp, hq⟩
    · obtain ⟨other, hother, hgroup⟩ := ih hp
      exact ⟨other, by simp [hother], hgroup⟩

end

theorem parseRegion_filterRegion
    (h : TidyAll footer.partitions groups) (hregion : footer.filterRegionLen < 2 ^ 32) :
    parseRegion footer.filterRegion footer.partitions.length = footer.partitions.map (·.filter) := by
  rw [filterRegion_eq]
  split
  · next hany =>
    have hlen : footer.partitions.length = (footer.partitions.map (·.filter)).length := by rw [length_map]
    rw [hlen]
    refine parseRegion_region fun filter hfilter built hbuilt => ?_
    obtain ⟨p, hp, rfl⟩ := mem_map.mp hfilter
    obtain ⟨group, -, -, htidy⟩ := h.exists_group hp
    obtain ⟨bits, hbits⟩ := htidy.filter
    have hheld : p.filter = some built := hbuilt
    have hsize : built.encodedLen ≤ footer.filterRegionLen := by
      have hsum := single_le_sum (fun _ _ => Nat.zero_le _) _
        (mem_map_of_mem (f := fun p : FooterPartition => p.filter.elim Filter.headerLen (·.encodedLen)) hp)
      rw [hheld] at hsum
      rw [filterRegionLen, if_pos hany]
      exact hsum
    exact build_fits (hbits ▸ hheld) (by omega)
  · next hnone =>
    rw [parseRegion_nil]
    refine (eq_replicate_iff.mpr ⟨length_map _, fun filter hfilter => ?_⟩).symm
    obtain ⟨p, hp, rfl⟩ := mem_map.mp hfilter
    by_contra hsome
    exact hnone (any_eq_true.mpr ⟨p, hp, Option.isSome_iff_ne_none.mpr hsome⟩)

def bodyOf (footer : SegmentFooter) (images : List Str) : Str :=
  images.flatten ++ (footer.filterRegion ++ directoryOf footer.partitions images)

theorem closing_eq (footer : SegmentFooter) (images : List Str) (crc : Nat) :
    images.flatten ++ footer.closing (images.map length) crc =
      bodyOf footer images ++ fixedTail footer crc (footer.footerLen (images.map length)) := by
  simp only [closing, bodyOf, fixedTail, directoryOf, SegmentFooter.directory, append_assoc]

theorem bodyOf_length {images : List Str} (h : images.length = footer.partitions.length) :
    (bodyOf footer images).length + fixedTailLen = footer.footerLen (images.map length) := by
  rw [bodyOf, length_append, length_append, filterRegion_length, directoryOf, directory_length,
    length_zip, length_map, h, Nat.min_self, SegmentFooter.footerLen, length_flatten]
  omega

theorem length_le_image : l.length ≤ (imageOf p l).length := by
  unfold imageOf
  split
  · have hpacked := le_packedTo .entry (rowsOf l) l.length
    have hencode := congrArg length (encode_eq .entry (rowsOf l))
    rw [length_append, rowsOf_length] at hencode
    omega
  · have hroom := length_le_roomOf l
    rw [whole_length]
    simp only [entryTailLen] at hroom
    omega

section parse
variable {footer : SegmentFooter} {groups : List (ColumnId × List FooterEntry)}

variable {partitions : List FooterPartition}

section
variable (h : TidyAll partitions groups)
include h

theorem TidyAll.images_length :
    (imagesOf partitions groups).length = partitions.length := by
  rw [imagesOf, length_zipWith, ← h.length_eq, Nat.min_self]

theorem TidyAll.len_sum_le :
    (partitions.map (·.len)).sum ≤ (imagesOf partitions groups).flatten.length := by
  induction h with
  | nil => exact le_refl _
  | @cons p group partitions groups hp _ ih =>
    have hlen := hp.2.holds.len
    have hle := @length_le_image p group.2
    simp only [imagesOf, map_cons, sum_cons, zipWith_cons_cons, flatten_cons,
      length_append] at ih ⊢
    omega

theorem TidyAll.small
    (hsmall : (imagesOf partitions groups).flatten.length < 2 ^ 32) : Small partitions groups := by
  induction h with
  | nil => exact .nil
  | @cons p group partitions groups hp _ ih =>
    have hlen := hp.2.holds.len
    have hle := @length_le_image p group.2
    simp only [imagesOf, zipWith_cons_cons, flatten_cons, length_append] at ih hsmall
    exact .cons ⟨by omega, by omega⟩ (ih (by omega))

end

theorem Arranged.body_length (h : Arranged footer groups) :
    (bodyOf footer (imagesOf footer.partitions groups)).length =
      (imagesOf footer.partitions groups).flatten.length +
        (footer.filterRegionLen + footer.partitions.length * directoryRowLen) := by
  have hbody := bodyOf_length h.tidy.images_length
  rw [SegmentFooter.footerLen, ← length_flatten] at hbody
  omega

section
variable (h : Arranged footer groups) {crc : Nat} (hcrc : crc < 2 ^ 32)
  (hlen : footer.footerLen ((imagesOf footer.partitions groups).map length) < 2 ^ 32)
include h hcrc hlen

theorem Arranged.tailFields :
    TailFields footer crc (footer.footerLen ((imagesOf footer.partitions groups).map length))
      (fixedTail footer crc (footer.footerLen ((imagesOf footer.partitions groups).map length))) := by
  have hbody := bodyOf_length h.tidy.images_length
  have hparts := h.body_length
  have hcount : footer.entryCount ≤ (imagesOf footer.partitions groups).flatten.length := h.tidy.len_sum_le
  have hpartitions : footer.partitions.length ≤ footer.partitions.length * directoryRowLen :=
    Nat.le_mul_of_pos_right _ (by decide)
  exact Footer.tailFields (by omega) (by omega) (by omega) hcrc hlen

/-- A footer's bytes under their checksum's field, once cut out of the segment, parse to the footer. -/
theorem parseFooter_eq :
    parseFooter (bodyOf footer (imagesOf footer.partitions groups) ++ fixedTail footer crc
      (footer.footerLen ((imagesOf footer.partitions groups).map length))) = .ok footer := by
  have hbody := bodyOf_length h.tidy.images_length
  have hparts := h.body_length
  have hfields := h.tailFields hcrc hlen
  have hsmall := h.tidy.small (by omega)
  have hordered : (footer.partitions.map (·.column)).Pairwise (· < ·) :=
    pairwise_map.mpr (pairwise_column h.tidy h.ordered)
  generalize htail : fixedTail footer crc (footer.footerLen ((imagesOf footer.partitions groups).map length)) = tail
  have htailLen : tail.length = fixedTailLen := by rw [← htail, fixedTail_length]
  rw [htail] at hfields
  have hfooter : (bodyOf footer (imagesOf footer.partitions groups) ++ tail).length - fixedTailLen =
      (bodyOf footer (imagesOf footer.partitions groups)).length := by
    rw [length_append, htailLen, Nat.add_sub_cancel]
  have hwhole : bodyOf footer (imagesOf footer.partitions groups) ++ tail = (imagesOf footer.partitions groups).flatten ++
      (footer.filterRegion ++ (directoryOf footer.partitions (imagesOf footer.partitions groups) ++ tail)) := by
    simp only [bodyOf, append_assoc]
  have hregionLen := filterRegion_length footer
  generalize hdirectory : (bodyOf footer (imagesOf footer.partitions groups)).length -
    footer.partitions.length * directoryRowLen = directoryAt
  have hat : directoryAt = (imagesOf footer.partitions groups).flatten.length + footer.filterRegion.length := by omega
  have hdir : (bodyOf footer (imagesOf footer.partitions groups) ++ tail).drop directoryAt =
      directoryOf footer.partitions (imagesOf footer.partitions groups) ++ tail := by
    rw [hwhole, hat, ← drop_drop, drop_left, drop_left]
  have hregion : ((bodyOf footer (imagesOf footer.partitions groups) ++ tail).take directoryAt).drop
      (directoryAt - footer.filterRegionLen) = footer.filterRegion := by
    rw [hwhole, ← append_assoc, take_left' (by rw [length_append, hat]), hat, hregionLen,
      Nat.add_sub_cancel, drop_left]
  have hread := readPartitions_eq h.tidy hsmall (by rw [length_append]; omega) hdir hwhole hordered
  have htaken := takeLead_bareAll h.tidy hwhole
  have hfilters := parseRegion_filterRegion h.tidy (by omega)
  have hsorted := sortByKey_of_ordered (pairwise_column h.tidy h.ordered)
  have hfield : ∀ {fromEnd : Nat}, fromEnd ≤ fixedTailLen →
      fieldAt (bodyOf footer (imagesOf footer.partitions groups) ++ tail) fromEnd =
        numberAt 4 tail (fixedTailLen - fromEnd) := fun hle => fieldAt_tail _ htailLen hle
  have hlong : ∀ {fromEnd : Nat}, fromEnd ≤ fixedTailLen →
      longAt (bodyOf footer (imagesOf footer.partitions groups) ++ tail) fromEnd =
        UInt64.ofNat (numberAt 8 tail (fixedTailLen - fromEnd)) := fun hle => longAt_tail _ htailLen hle
  have hpartitionCount := (hfield (show 52 ≤ fixedTailLen by decide)).trans hfields.partitions
  have hbloomLen := (hfield (show 56 ≤ fixedTailLen by decide)).trans hfields.bloomLen
  have hentryCount := (hfield (show 48 ≤ fixedTailLen by decide)).trans hfields.entryCount
  have hroom : ¬ ((bodyOf footer (imagesOf footer.partitions groups)).length < footer.filterRegionLen ∨
      (bodyOf footer (imagesOf footer.partitions groups)).length - footer.filterRegionLen <
        footer.partitions.length * directoryRowLen) := by omega
  have hagrees : ¬ ((imagesOf footer.partitions groups).flatten.length ≠ directoryAt - footer.filterRegionLen ∨
      (footer.partitions.map (·.len)).sum ≠ footer.entryCount) := by
    rw [not_or, not_not, not_not]
    exact ⟨by omega, rfl⟩
  unfold parseFooter
  simp only [hpartitionCount, hbloomLen, hentryCount, hfooter, hdirectory, if_neg hroom, hread, bind, Except.bind, hregion,
    hfilters, htaken, if_neg hagrees, hsorted]
  rw [hlong (show 28 ≤ fixedTailLen by decide), hlong (show 20 ≤ fixedTailLen by decide),
    hlong (show 64 ≤ fixedTailLen by decide), hlong (show 36 ≤ fixedTailLen by decide),
    hlong (show 44 ≤ fixedTailLen by decide)]
  rw [show numberAt 8 tail (fixedTailLen - 28) = _ from hfields.minLsn,
    show numberAt 8 tail (fixedTailLen - 20) = _ from hfields.maxLsn,
    show numberAt 8 tail (fixedTailLen - 64) = _ from hfields.sealedAt,
    show numberAt 8 tail (fixedTailLen - 36) = _ from hfields.live,
    show numberAt 8 tail (fixedTailLen - 44) = _ from hfields.dead]
  simp only [UInt64.ofNat_toNat]
  rfl

end

theorem unchecked_eq (body : Str) (footer : SegmentFooter) (crc footerLen : Nat) :
    unchecked (body ++ fixedTail footer crc footerLen) = body ++ fixedTail footer 0 footerLen := by
  have hparts : body ++ fixedTail footer crc footerLen = (body ++ footer.fixedFields) ++
      (toLe 4 crc ++ (toLe 4 footerLen ++ toLe 4 footerMagic)) := by
    simp only [fixedTail, append_assoc]
  have hfront : ((body ++ footer.fixedFields) ++ (toLe 4 crc ++ (toLe 4 footerLen ++ toLe 4 footerMagic))).length - 12 =
      (body ++ footer.fixedFields).length := by
    simp [toLe_length]
  have hback : ((body ++ footer.fixedFields) ++ (toLe 4 crc ++ (toLe 4 footerLen ++ toLe 4 footerMagic))).length - 8 =
      (body ++ footer.fixedFields).length + (toLe 4 crc).length := by
    simp [toLe_length]
  rw [unchecked, hparts, hfront, hback, take_left, ← drop_drop, drop_left, drop_left]
  simp only [fixedTail, append_assoc]

def crcOf (checksum : Str → UInt32) (footer : SegmentFooter) (images : List Str) : Nat :=
  (checksum (images.flatten ++ footer.closing (images.map length) 0)).toNat

def imageBytes (checksum : Str → UInt32) (footer : SegmentFooter) (images : List Str) : Str :=
  images.flatten ++ footer.closing (images.map length) (crcOf checksum footer images)

theorem imageBytes_length (checksum : Str → UInt32) {images : List Str} (h : images.length = footer.partitions.length) :
    (imageBytes checksum footer images).length = footer.footerLen (images.map length) := by
  rw [imageBytes, closing_eq, length_append, fixedTail_length, bodyOf_length h]

theorem parseOwned_of_tail {checksum : Str → UInt32} {front body tail : Str} {footerLen : Nat}
    (htail : tail.length = fixedTailLen) (hbody : body.length + fixedTailLen = footerLen)
    (hlen : numberAt 4 tail 56 = footerLen) (hmagic : numberAt 4 tail 60 = footerMagic)
    (hcrc : (checksum (unchecked (body ++ tail))).toNat = numberAt 4 tail 52) :
    parseOwned checksum (front ++ (body ++ tail)) = parseFooter (body ++ tail) := by
  have hfixed : fixedTailLen = 64 := rfl
  have htotal : (front ++ (body ++ tail)).length = (front ++ body).length + fixedTailLen := by
    simp only [length_append, htail]
    omega
  have hword : ∀ {fromEnd : Nat}, fromEnd ≤ fixedTailLen →
      wordAt (front ++ (body ++ tail)) ((front ++ (body ++ tail)).length - fromEnd) =
        numberAt 4 tail (fixedTailLen - fromEnd) := by
    intro fromEnd hle
    rw [htotal, ← append_assoc]
    refine (numberAt_past 4 (by omega)).trans ?_
    rw [show (front ++ body).length + fixedTailLen - fromEnd - (front ++ body).length = fixedTailLen - fromEnd by omega]
  have hmagic' := (hword (show 4 ≤ fixedTailLen by decide)).trans hmagic
  have hlen' := (hword (show 8 ≤ fixedTailLen by decide)).trans hlen
  have hopens : (front ++ (body ++ tail)).length - footerLen = front.length := by
    rw [htotal, length_append]
    omega
  have hcheck : verifyFooterCrc checksum (body ++ tail) = .ok () := by
    have hfield := fieldAt_tail body htail (show 12 ≤ fixedTailLen by decide)
    rw [verifyFooterCrc, if_neg]
    rw [not_not, hcrc]
    exact hfield.symm
  unfold parseOwned
  simp only [hmagic', hlen', hopens, drop_left, hcheck, bind, Except.bind]
  rw [if_neg (by omega), if_neg (by simp), if_neg (by rw [htotal, length_append]; omega)]

theorem parseOwned_eq (h : Arranged footer groups) (checksum : Str → UInt32) (front : Str)
    (hlen : (imageBytes checksum footer (imagesOf footer.partitions groups)).length < 2 ^ 32) :
    parseOwned checksum (front ++ imageBytes checksum footer (imagesOf footer.partitions groups)) =
      .ok footer := by
  have hbytes := imageBytes_length checksum h.tidy.images_length
  have hbody := bodyOf_length h.tidy.images_length
  have hcrc : crcOf checksum footer (imagesOf footer.partitions groups) < 2 ^ 32 := UInt32.toNat_lt _
  rw [hbytes] at hlen
  have hparse := parseFooter_eq h hcrc hlen
  have hfields := h.tailFields hcrc hlen
  rw [imageBytes, closing_eq, parseOwned_of_tail (fixedTail_length ..) hbody hfields.footerLen hfields.magic, hparse]
  rw [unchecked_eq, ← closing_eq, hfields.crc]
  rfl

end parse

end Reel.Footer
