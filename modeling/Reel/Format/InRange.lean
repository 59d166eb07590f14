import Reel.Format.Prefix

/-!
What a row reader's sums come to on arbitrary bytes. Two of them are of numbers the bytes give as they
please: the position behind a suffix, and a row's offset. Every other sum stays in its type's range
whatever the bytes say.
-/

set_option autoImplicit false

namespace Reel.Footer
open Bytes List Option Unpacked

/-- A reader returns what it read, or a corruption error. -/
def Decodes {α : Type} (r : Except Fault α) : Prop :=
  ∀ fault, r = .error fault → ∃ message, fault = .error (.corruption message)

variable {α β : Type}

@[simp] theorem decodes_ok (a : α) : Decodes (.ok a : Except Fault α) := by
  intro fault h
  cases h

@[simp] theorem decodes_pure (a : α) : Decodes (pure a : Except Fault α) := decodes_ok a

@[simp] theorem decodes_corrupt (message : String) : Decodes (corrupt message : Except Fault α) := by
  intro fault h
  exact ⟨message, (Except.error.inj h).symm⟩

@[simp] theorem not_decodes_overflow : ¬ Decodes (.error .overflow : Except Fault α) := by
  intro h
  obtain ⟨message, heq⟩ := h .overflow rfl
  cases heq

@[simp] theorem decodes_bind (r : Except Fault α) (f : α → Except Fault β) :
    Decodes (r >>= f) ↔ Decodes r ∧ ∀ a, r = .ok a → Decodes (f a) := by
  cases r with
  | error fault =>
    constructor
    · intro h
      exact ⟨fun other heq => h other (by rw [← Except.error.inj heq]; rfl), fun a heq => (by cases heq)⟩
    · intro h other heq
      exact h.1 other (by rw [← Except.error.inj heq])
  | ok a =>
    constructor
    · intro h
      exact ⟨decodes_ok a, fun b heq => Except.ok.inj heq ▸ h⟩
    · intro h
      exact h.2 a rfl

@[simp] theorem decodes_ite (p : Prop) [Decidable p] (r s : Except Fault α) :
    Decodes (if p then r else s) ↔ (p → Decodes r) ∧ (¬ p → Decodes s) := by
  by_cases h : p <;> simp [h]

@[simp] theorem decodes_orCorrupt (message : String) (found : Option α) :
    Decodes (orCorrupt message found) := by
  cases found with
  | none => exact decodes_corrupt message
  | some a => exact decodes_ok a

@[simp] theorem decodes_usize (n : Nat) : Decodes (usize n) ↔ n < 2 ^ 64 := by
  unfold usize
  split_ifs with h
  · exact iff_of_true (decodes_ok n) h
  · exact iff_of_false not_decodes_overflow h

@[simp] theorem decodes_i64 (n : Int) : Decodes (i64 n) ↔ -2 ^ 63 ≤ n ∧ n < 2 ^ 63 := by
  unfold i64
  split_ifs with h
  · exact iff_of_true (decodes_ok n) h
  · exact iff_of_false not_decodes_overflow h

@[simp] theorem decodes_fromFlags (byte : Byte) : Decodes (fromFlags byte) := by
  unfold fromFlags Flags.fromBits
  split_ifs
  · exact decodes_corrupt _
  · exact decodes_corrupt _
  · exact decodes_corrupt _
  · exact decodes_ok _

variable (bytes : Str) (shape : Tail)

/-- The numbers a row opens with: what it shares, its suffix's length and where the suffix starts. -/
def OpensWith (pos shared len start : Nat) : Prop :=
  ∃ next, getVarint bytes pos = .ok (shared, next) ∧ getVarint bytes next = .ok (len, start)

/-- The number an entry tail keeps its offset in, behind its flags and a length of four bytes. -/
def KeepsOffset (pos delta : Nat) : Prop :=
  ∃ len next fin, getVarint bytes (pos + 1) = .ok (len, next) ∧ len < 2 ^ 32 ∧
    getVarint bytes next = .ok (delta, fin)

/-- The suffix of the row at a position ends at a position of 64 bits. -/
def SuffixFits (pos : Nat) : Prop :=
  ∀ shared len start, OpensWith bytes pos shared len start → start + len < 2 ^ 64

/-- The offset of the row at a position, against the one before it, is a signed number of 64 bits, where
the reader takes what the row shares. -/
def OffsetFits (pos offset : Nat) (takes : Nat → Prop) : Prop :=
  ∀ shared len start delta, OpensWith bytes pos shared len start → takes shared →
    KeepsOffset bytes (start + len) delta →
    -2 ^ 63 ≤ offset + Varint.unzigzag delta ∧ offset + Varint.unzigzag delta < 2 ^ 63

/-- Both sums a row's own numbers go into stay in range. -/
def RowFits (pos : Nat) (shape : Tail) (before : Whole) : Prop :=
  SuffixFits bytes pos ∧
    (shape = .entry → OffsetFits bytes pos (u32At before offsetAt) fun _ => True)

section rows
variable {bytes : Str} (hbytes : bytes.length < 2 ^ 63)
include hbytes

theorem decodes_getVarint (pos : Nat) : Decodes (getVarint bytes pos) := by
  rw [getVarint_eq (by omega)]
  cases hread : Varint.get bytes pos with
  | ok found => exact decodes_ok found
  | error unread => cases unread <;> exact decodes_corrupt _

variable {pos : Nat}

theorem getVarint_bounds {value next : Nat} (h : getVarint bytes pos = .ok (value, next)) :
    value < 2 ^ 64 ∧ pos < next ∧ next ≤ bytes.length :=
  Varint.get_bounds ((getVarint_eq_ok (by omega)).mp h)

theorem getTail_decodes_iff (hpos : pos ≤ bytes.length) (shape : Tail) (before : Whole) :
    Decodes (getTail bytes pos shape before) ↔ (shape = .entry → ∀ delta, KeepsOffset bytes pos delta →
      -2 ^ 63 ≤ u32At before offsetAt + Varint.unzigzag delta ∧
        u32At before offsetAt + Varint.unzigzag delta < 2 ^ 63) := by
  cases shape with
  | raw len =>
    have hlen := len.isLt
    simp only [tailCap] at hlen
    have hfin : pos + len.val < 2 ^ 64 := by omega
    simp only [getTail, decodes_bind, decodes_usize, hfin, decodes_orCorrupt, decodes_pure, implies_true,
      and_self, reduceCtorEq, false_implies]
  | entry =>
    have hnext : pos + 1 < 2 ^ 64 := by omega
    simp only [getTail, decodes_bind, decodes_orCorrupt, orCorrupt_eq_ok, true_and, decodes_usize, usize_eq_ok,
      decodes_ite, decodes_i64, i64_eq_ok, decodes_pure, decodes_corrupt, decodes_getVarint hbytes, Prod.forall,
      forall_true_left, implies_true, and_true, hnext, KeepsOffset]
    constructor
    · rintro h delta ⟨len, next, fin, hlen, hshort, hdelta⟩
      have hflags := (getVarint_bounds hbytes hlen).2
      exact h _ (getElem?_eq_getElem (by omega)) _ rfl _ _ hlen (by omega) _ _ hdelta
    · rintro h flags - next rfl len next hlen hshort delta fin hdelta
      exact h delta ⟨len, next, fin, hlen, by omega, hdelta⟩

theorem readRow_decodes_iff (pos : Nat) (shape : Tail) (before : Whole) :
    Decodes (readRow bytes pos shape before) ↔ RowFits bytes pos shape before := by
  simp only [readRow, decodes_bind, decodes_orCorrupt, orCorrupt_eq_ok, true_and, decodes_usize, usize_eq_ok,
    decodes_pure, decodes_getVarint hbytes, Prod.forall, implies_true, and_true, cut_eq_some]
  constructor
  · intro h
    constructor
    · rintro shared len start ⟨next, hshared, hlen⟩
      exact (h _ _ hshared _ _ hlen).1
    · rintro rfl shared len start delta ⟨next, hshared, hlen⟩ - hkeeps
      obtain ⟨hfits, hrest⟩ := h _ _ hshared _ _ hlen
      have hkept := hkeeps
      obtain ⟨size, mid, fin, hsize, -⟩ := hkept
      have hend := (getVarint_bounds hbytes hsize).2
      have htail := hrest _ ⟨hfits, rfl⟩ _ ⟨⟨by omega, by omega⟩, rfl⟩
      exact (getTail_decodes_iff hbytes (by omega) _ _).mp htail rfl delta hkeeps
  · rintro ⟨hsuffix, hoffset⟩ shared next hshared len start hlen
    have hopens : OpensWith bytes pos shared len start := ⟨next, hshared, hlen⟩
    refine ⟨hsuffix _ _ _ hopens, ?_⟩
    rintro fin ⟨-, rfl⟩ suffix ⟨⟨-, hend⟩, -⟩
    rw [getTail_decodes_iff hbytes hend]
    intro hentry delta hkeeps
    exact hoffset hentry _ _ _ _ hopens trivial hkeeps

theorem getTail_bounds {next : Nat} {shape : Tail} {before tail : Whole}
    (h : getTail bytes pos shape before = .ok (tail, next)) : pos ≤ next ∧ next ≤ bytes.length := by
  cases shape with
  | raw len =>
    simp only [getTail, Loop.bind_eq_ok, usize_eq_ok, orCorrupt_eq_ok, cut_eq_some] at h
    obtain ⟨fin, -, raw, ⟨hfin, -⟩, hout⟩ := h
    cases hout
    exact hfin
  | entry =>
    simp only [getTail, Loop.bind_eq_ok, usize_eq_ok, Prod.exists, ite_corrupt_eq_ok] at h
    obtain ⟨flags, -, start, ⟨-, rfl⟩, len, mid, hlen, -, delta, back, hdelta, offset, -, -, lsn, fin, hlsn,
      hout⟩ := h
    cases hout
    have hfirst := getVarint_bounds hbytes hlen
    have hsecond := getVarint_bounds hbytes hdelta
    have hthird := getVarint_bounds hbytes hlsn
    exact ⟨by omega, hthird.2.2⟩

theorem readRow_bounds {shape : Tail} {before : Whole} {row : Row}
    (h : readRow bytes pos shape before = .ok row) : pos < row.next ∧ row.next ≤ bytes.length := by
  simp only [readRow, Loop.bind_eq_ok, Prod.exists] at h
  obtain ⟨shared, mid, hshared, len, start, hlen, fin, hfin, suffix, hsuffix, tail, next, htail, hrow⟩ := h
  cases hrow
  have hfirst := getVarint_bounds hbytes hshared
  have hsecond := getVarint_bounds hbytes hlen
  have hcut := (cut_eq_some.mp (orCorrupt_eq_ok.mp hsuffix)).1
  have hlast := getTail_bounds hbytes htail
  exact ⟨show pos < next by omega, hlast.2⟩

end rows

theorem decodes_run_iff {σ : Type} {guard : σ → Bool} {body : σ → Except Fault σ} {left : σ → Nat}
    (h : Loop.Measures guard body left) {n : Nat} {s : σ} (hn : left s ≤ n) :
    Decodes (Loop.run guard body n s) ↔
      ∀ t, Loop.Reached guard body s t → guard t = true → Decodes (body t) := by
  constructor
  · intro hrun t hreach hgo fault hfail
    exact hrun fault ((Loop.run_error_iff h hn fault).mpr ⟨t, hreach, hgo, hfail⟩)
  · intro hrounds fault hfail
    obtain ⟨t, hreach, hgo, hbody⟩ := (Loop.run_error_iff h hn fault).mp hfail
    exact hrounds t hreach hgo fault hbody

theorem decodes_keyOn (row : Row) (key : Str) : Decodes (row.keyOn key) := by
  unfold Row.keyOn
  split_ifs
  · exact decodes_corrupt _
  · exact decodes_ok _

/-- The rows of a restart block that its reader comes to. -/
def BlockReaches (u : Unpacked) : Prop :=
  Loop.Reached (fun u => decide (u.pos < bytes.length)) (blockRow bytes shape) (.start [0]) u

def BlockFits : Prop :=
  ∀ u, BlockReaches bytes shape u → u.pos < bytes.length → RowFits bytes u.pos shape u.against

section blocks
variable {bytes : Str} (hbytes : bytes.length < 2 ^ 63) (shape : Tail)
include hbytes

theorem blockRow_bounds {u v : Unpacked} (h : blockRow bytes shape u = .ok v) :
    v.index = u.index + 1 ∧ u.pos < v.pos ∧ v.pos ≤ bytes.length := by
  simp only [blockRow, Loop.bind_eq_ok, ite_corrupt_eq_ok] at h
  obtain ⟨row, hrow, -, key, -, index, -, hout⟩ := h
  cases hout
  exact ⟨rfl, readRow_bounds hbytes hrow⟩

theorem block_measures : Loop.Measures (fun u => decide (u.pos < bytes.length)) (blockRow bytes shape)
    fun u => bytes.length - u.pos where
  pos u hgo := by
    have := of_decide_eq_true hgo
    omega
  lowers u v hround := by
    have hgo := of_decide_eq_true hround.1
    have := blockRow_bounds hbytes shape hround.2
    omega

theorem BlockReaches.index_le {u : Unpacked} (h : BlockReaches bytes shape u) :
    u.index ≤ u.pos ∧ u.pos ≤ bytes.length := by
  refine Loop.Reached.keeps (P := fun u => u.index ≤ u.pos ∧ u.pos ≤ bytes.length) ?_ h
    ⟨le_refl _, Nat.zero_le _⟩
  intro s t hround hs
  have := blockRow_bounds hbytes shape hround.2
  omega

theorem blockRow_decodes_iff {u : Unpacked} (hindex : u.index ≤ bytes.length) :
    Decodes (blockRow bytes shape u) ↔ RowFits bytes u.pos shape u.against := by
  have hnext : u.index + 1 < 2 ^ 64 := by omega
  simp only [blockRow, decodes_bind, readRow_decodes_iff hbytes, decodes_ite, decodes_corrupt,
    decodes_keyOn, decodes_usize, hnext, decodes_pure, implies_true, and_self, and_true]

theorem unpackBlock_decodes_iff : Decodes (unpackBlock bytes shape) ↔ BlockFits bytes shape := by
  have hroom : bytes.length * 2 < 2 ^ 64 := by omega
  simp only [unpackBlock, decodes_bind, decodes_usize, hroom, decodes_pure, implies_true, and_true, true_and,
    usize_eq_ok, decodes_run_iff (block_measures hbytes shape) (Nat.sub_le _ _), decide_eq_true_eq,
    forall_eq']
  constructor
  · intro h u hreach hgo
    have hindex := BlockReaches.index_le hbytes shape hreach
    exact (blockRow_decodes_iff hbytes shape (by omega)).mp (h u hreach hgo)
  · intro h u hreach hgo
    have hindex := BlockReaches.index_le hbytes shape hreach
    exact (blockRow_decodes_iff hbytes shape (by omega)).mpr (h u hreach hgo)

end blocks

/-- The rows of an encoded block that its reader comes to. -/
def WholeReaches (rowLen : Option Stride) (frame : Frame) (u : Unpacked) : Prop :=
  Loop.Reached (fun u => decide (u.index < frame.rows)) (wholeRow frame bytes shape rowLen)
    (.start (if rowLen.isNone then [0] else [])) u

def WholeFits (rowLen : Option Stride) : Prop :=
  ∀ frame u before, Frame.read bytes = .ok frame → WholeReaches bytes shape rowLen frame u →
    u.index < frame.rows → u.openRow frame bytes = .ok before →
    RowFits (bytes.take frame.rowsEnd) u.pos shape before

section whole
variable {bytes : Str} (hbytes : bytes.length < 2 ^ 63)
include hbytes

variable {frame : Frame}

theorem decodes_restart (hend : frame.rowsEnd ≤ bytes.length) {index : Nat}
    (hindex : index < 2 ^ 32) : Decodes (frame.restart bytes index) := by
  have hskip : index * 4 < 2 ^ 64 := by omega
  have hstart : frame.rowsEnd + index * 4 < 2 ^ 64 := by omega
  have hfin : frame.rowsEnd + index * 4 + 4 < 2 ^ 64 := by omega
  simp only [Frame.restart, decodes_bind, decodes_usize, usize_eq_ok, decodes_pure, hskip, hstart, hfin,
    true_and, implies_true, and_true, forall_eq']

theorem decodes_checkRestarts (frame : Frame) (hend : frame.rowsEnd ≤ bytes.length) (n index : Nat)
    (hn : index + n < 2 ^ 32) : Decodes (frame.checkRestarts bytes n index) := by
  induction n generalizing index with
  | zero => exact decodes_ok _
  | succ n ih =>
    have hrest := ih (index + 1) (by omega)
    simp only [Frame.checkRestarts, decodes_bind, decodes_restart hbytes hend (show index < 2 ^ 32 by omega),
      decodes_ite, decodes_corrupt, hrest, implies_true, and_self]

theorem decodes_frame : Decodes (Frame.read bytes) := by
  have hcount := wordAt_lt bytes (bytes.length - trailerLen)
  have hheld : wordAt bytes (bytes.length - trailerLen) * 4 < 2 ^ 64 := by omega
  have hcheck := decodes_checkRestarts hbytes
    ⟨bytes.length - trailerLen - wordAt bytes (bytes.length - trailerLen) * 4,
      wordAt bytes (bytes.length - trailerLen), wordAt bytes (bytes.length - trailerLen + 4)⟩
    (show bytes.length - trailerLen - wordAt bytes (bytes.length - trailerLen) * 4 ≤ bytes.length by omega)
    (wordAt bytes (bytes.length - trailerLen)) 0 (by omega)
  simp only [Frame.read, decodes_bind, decodes_ite, decodes_corrupt, decodes_usize, hheld, usize_eq_ok, true_and,
    decodes_pure, implies_true, and_true, forall_eq', hcheck]

theorem frame_bounds (h : Frame.read bytes = .ok frame) :
    frame.rowsEnd ≤ bytes.length ∧ frame.rows < 2 ^ 32 := by
  simp only [Frame.read, Loop.bind_eq_ok, ite_corrupt_eq_ok, usize_eq_ok] at h
  obtain ⟨-, held, -, -, -, u, -, hout⟩ := h
  cases hout
  exact ⟨show bytes.length - trailerLen - held ≤ bytes.length by omega, wordAt_lt _ _⟩

variable {u : Unpacked}

theorem decodes_openRow (hend : frame.rowsEnd ≤ bytes.length)
    (hindex : u.index < 2 ^ 32) : Decodes (u.openRow frame bytes) := by
  have hblock : u.index / restartInterval < 2 ^ 32 := lt_of_le_of_lt (Nat.div_le_self _ _) hindex
  simp only [openRow, decodes_ite, decodes_bind, decodes_restart hbytes hend hblock, decodes_corrupt,
    decodes_pure, decodes_ok, implies_true, and_self]

omit hbytes in
theorem decodes_checkStride (rowLen : Option Stride) (hindex : u.index ≤ 2 ^ 32) :
    Decodes (u.checkStride rowLen) := by
  cases rowLen with
  | none => exact decodes_ok _
  | some len =>
    have hlen : len.val < 2 ^ 17 := lt_trans len.isLt (by decide)
    have hwanted : u.index * len.val < 2 ^ 64 :=
      lt_of_le_of_lt (Nat.mul_le_mul hindex hlen.le) (by decide)
    simp only [checkStride, decodes_bind, decodes_usize, hwanted, decodes_ite, decodes_corrupt,
      decodes_pure, implies_true, and_self]

theorem wholeRow_decodes_iff (hframe : Frame.read bytes = .ok frame) (shape : Tail)
    (rowLen : Option Stride) (hindex : u.index < frame.rows) :
    Decodes (u.wholeRow frame bytes shape rowLen) ↔ ∀ before, u.openRow frame bytes = .ok before →
      RowFits (bytes.take frame.rowsEnd) u.pos shape before := by
  obtain ⟨hend, hrows⟩ := frame_bounds hbytes hframe
  have htake : (bytes.take frame.rowsEnd).length < 2 ^ 63 := by
    rw [length_take]; omega
  have hnext : u.index + 1 < 2 ^ 64 := by omega
  have hstride : ∀ row key, Decodes ((u.add shape row key rowLen.isNone).checkStride rowLen) := by
    intro row key
    exact decodes_checkStride rowLen (show u.index + 1 ≤ 2 ^ 32 by omega)
  simp only [wholeRow, decodes_bind, decodes_openRow hbytes hend (show u.index < 2 ^ 32 by omega),
    readRow_decodes_iff htake, decodes_keyOn, decodes_ite, decodes_corrupt, decodes_usize, hnext, hstride,
    decodes_pure, implies_true, and_self, and_true, true_and]

omit hbytes in
theorem wholeRow_index {shape : Tail} {rowLen : Option Stride} {v : Unpacked}
    (h : u.wholeRow frame bytes shape rowLen = .ok v) : v.index = u.index + 1 := by
  simp only [wholeRow, Loop.bind_eq_ok, ite_corrupt_eq_ok] at h
  obtain ⟨before, -, row, -, key, -, -, index, -, u', -, hout⟩ := h
  cases hout
  rfl

omit hbytes in
theorem whole_measures (frame : Frame) (shape : Tail) (rowLen : Option Stride) :
    Loop.Measures (fun u => decide (u.index < frame.rows)) (wholeRow frame bytes shape rowLen)
      fun u => frame.rows - u.index where
  pos u hgo := by
    have := of_decide_eq_true hgo
    omega
  lowers u v hround := by
    have hgo := of_decide_eq_true hround.1
    have := wholeRow_index hround.2
    omega

theorem capacity_eq (hframe : Frame.read bytes = .ok frame) (rowLen : Option Stride) :
    ∃ room, capacity frame rowLen = .ok room := by
  obtain ⟨hend, hrows⟩ := frame_bounds hbytes hframe
  cases rowLen with
  | none =>
    have hcount : usize (frame.rows + 1) = .ok (frame.rows + 1) := usize_eq_ok.mpr ⟨by omega, rfl⟩
    have hroom : usize (frame.rowsEnd * 2) = .ok (frame.rowsEnd * 2) := usize_eq_ok.mpr ⟨by omega, rfl⟩
    exact ⟨_, by rw [capacity, hcount]; exact hroom⟩
  | some len =>
    have hlen : len.val < 2 ^ 17 := lt_trans len.isLt (by decide)
    exact ⟨_, usize_eq_ok.mpr ⟨lt_of_le_of_lt (Nat.mul_le_mul hlen.le hrows.le) (by decide), rfl⟩⟩

theorem unpack_decodes_iff (shape : Tail) (rowLen : Option Stride) :
    Decodes (unpack bytes shape rowLen) ↔ WholeFits bytes shape rowLen := by
  simp only [unpack, decodes_bind, decodes_frame hbytes, decodes_ite, decodes_corrupt, decodes_pure,
    implies_true, and_true, true_and, decodes_run_iff (whole_measures _ shape rowLen) (Nat.sub_le _ _),
    decide_eq_true_eq]
  constructor
  · intro h frame u before hframe hreach hgo hopen
    obtain ⟨room, hroom⟩ := capacity_eq hbytes hframe rowLen
    have hrow := (h frame hframe).2 room hroom u hreach hgo
    exact (wholeRow_decodes_iff hbytes hframe shape rowLen hgo).mp hrow before hopen
  · intro h frame hframe
    obtain ⟨room, hroom⟩ := capacity_eq hbytes hframe rowLen
    refine ⟨hroom ▸ decodes_ok room, fun _ _ u hreach hgo => ?_⟩
    exact (wholeRow_decodes_iff hbytes hframe shape rowLen hgo).mpr fun before hopen =>
      h frame u before hframe hreach hgo hopen

end whole

namespace PackedCursor

/-- Both sums the next row's own numbers go into stay in range. -/
def StepFits (c : PackedCursor) (bytes : Str) : Prop :=
  SuffixFits bytes c.next ∧ OffsetFits bytes c.next c.found.offset (· ≤ c.key.length)

/-- Every row the cursor decodes on its way to the row asked for fits, the restart row included. -/
def ReadFits (c : PackedCursor) (bytes : Str) (restart : Nat → Option Nat) (row : Nat) : Prop :=
  (c.resumes row = false → ∀ pos, restart (row / restartInterval) = some pos →
    StepFits ⟨none, pos, [], noRow⟩ bytes) ∧
  ∀ first on, c.held bytes restart row = .ok first →
    Loop.Reached (isBelow row) (stepRow bytes) first on → on.isBelow row = true → on.StepFits bytes

section cursor
variable {bytes : Str} (hbytes : bytes.length < 2 ^ 63)
include hbytes

theorem step_decodes_iff (c : PackedCursor) : Decodes (c.step bytes) ↔ c.StepFits bytes := by
  simp only [step, decodes_bind, decodes_orCorrupt, orCorrupt_eq_ok, true_and, decodes_usize, usize_eq_ok,
    decodes_ite, decodes_i64, i64_eq_ok, decodes_pure, decodes_corrupt, decodes_getVarint hbytes,
    decodes_fromFlags, Prod.forall, implies_true, and_true, cut_eq_some]
  constructor
  · intro h
    constructor
    · rintro shared len start ⟨next, hshared, hlen⟩
      exact (h _ _ hshared _ _ hlen).1
    · rintro shared len start delta ⟨next, hshared, hlen⟩ htakes ⟨size, mid, fin, hsize, hshort, hdelta⟩
      obtain ⟨hfits, hrest⟩ := h _ _ hshared _ _ hlen
      have hend := (getVarint_bounds hbytes hsize).2
      have hflags := hrest _ ⟨hfits, rfl⟩ _ ⟨⟨by omega, by omega⟩, rfl⟩ (by omega) _
        (getElem?_eq_getElem (by omega))
      exact hflags.2 _ ⟨hflags.1, rfl⟩ _ _ hsize (by omega) _ _ hdelta
  · rintro ⟨hsuffix, hoffset⟩ shared next hshared len start hlen
    have hopens : OpensWith bytes c.next shared len start := ⟨next, hshared, hlen⟩
    refine ⟨hsuffix _ _ _ hopens, ?_⟩
    rintro fin ⟨-, rfl⟩ suffix ⟨⟨-, hend⟩, -⟩ htakes flags -
    refine ⟨by omega, ?_⟩
    rintro after ⟨-, rfl⟩ size mid hsize hshort delta back hdelta
    exact hoffset _ _ _ _ hopens (by omega) ⟨size, mid, back, hsize, by omega, hdelta⟩

variable {row : Nat}

theorem stepRow_decodes_iff {c : PackedCursor} (hrow : row < 2 ^ 64)
    (hbelow : c.isBelow row = true) : Decodes (stepRow bytes c) ↔ c.StepFits bytes := by
  have hnext : c.row.getD 0 + 1 < 2 ^ 64 := by
    obtain ⟨place, hplace, hlt⟩ := (any_eq_true _ _).mp hbelow
    have := of_decide_eq_true hlt
    rw [hplace, getD_some]
    omega
  simp only [stepRow, decodes_bind, step_decodes_iff hbytes, decodes_usize, hnext, decodes_pure, implies_true,
    and_self, and_true]

omit hbytes in
theorem stepRow_row {c d : PackedCursor} (h : stepRow bytes c = .ok d) :
    d.row = some (c.row.getD 0 + 1) := by
  simp only [stepRow, Loop.bind_eq_ok, usize_eq_ok] at h
  obtain ⟨stepped, -, row, ⟨-, rfl⟩, hout⟩ := h
  cases hout
  rfl

omit hbytes in
theorem read_measures (row : Nat) :
    Loop.Measures (isBelow row) (stepRow bytes) fun c => row - c.row.getD 0 where
  pos c hgo := by
    obtain ⟨place, hplace, hlt⟩ := (any_eq_true _ _).mp hgo
    have := of_decide_eq_true hlt
    rw [hplace, getD_some]
    omega
  lowers c d hround := by
    obtain ⟨place, hplace, hlt⟩ := (any_eq_true _ _).mp hround.1
    have := of_decide_eq_true hlt
    rw [stepRow_row hround.2, hplace, getD_some, getD_some]
    omega

section
variable (c : PackedCursor) (restart : Nat → Option Nat) (hrow : row < 2 ^ 64)
include c restart hrow

theorem held_decodes_iff :
    Decodes (c.held bytes restart row) ↔ (c.resumes row = false →
      ∀ pos, restart (row / restartInterval) = some pos → StepFits ⟨none, pos, [], noRow⟩ bytes) := by
  have hfirst : row / restartInterval * restartInterval < 2 ^ 64 :=
    lt_of_le_of_lt (Nat.div_mul_le_self _ _) hrow
  simp only [held, restartAt, decodes_ite, decodes_ok, decodes_bind, decodes_orCorrupt, orCorrupt_eq_ok,
    step_decodes_iff hbytes, decodes_usize, hfirst, decodes_pure, implies_true, and_true, true_and,
    Bool.not_eq_true]

theorem read_decodes_iff :
    Decodes (c.read bytes restart row) ↔ c.ReadFits bytes restart row := by
  simp only [read, decodes_bind, held_decodes_iff hbytes c restart hrow, ReadFits,
    decodes_run_iff (read_measures row) (Nat.sub_le _ _)]
  refine and_congr_right fun _ => ?_
  constructor
  · intro h first on hheld hreach hbelow
    exact (stepRow_decodes_iff hbytes hrow hbelow).mp (h first hheld on hreach hbelow)
  · intro h first hheld on hreach hbelow
    exact (stepRow_decodes_iff hbytes hrow hbelow).mpr (h first on hheld hreach hbelow)

end

end cursor

end PackedCursor

/-- Where the row at a position ends: behind its suffix stand the bytes of its tail, or a byte of flags and three
numbers. -/
inductive RowEnds : Tail → Nat → Nat → Prop
  | raw {pos shared len start : Nat} (tail : Fin (tailCap + 1)) (hopens : OpensWith bytes pos shared len start) :
      RowEnds (.raw tail) pos (start + len + tail.val)
  | entry {pos shared len start size delta lsn mid back fin : Nat} (hopens : OpensWith bytes pos shared len start)
      (hsize : getVarint bytes (start + len + 1) = .ok (size, mid)) (hdelta : getVarint bytes mid = .ok (delta, back))
      (hlsn : getVarint bytes back = .ok (lsn, fin)) : RowEnds .entry pos fin

/-- Where rows stand: at the positions they open at, and where another one ends. -/
inductive RowAt (opens : Nat → Prop) : Nat → Prop
  | opens {pos : Nat} (h : opens pos) : RowAt opens pos
  | next {pos fin : Nat} (h : RowAt opens pos) (hends : RowEnds bytes shape pos fin) : RowAt opens fin

/-- A row's suffix ends at a position of 64 bits, and its offset's difference leaves room for any offset of 32. -/
def NarrowRow (pos : Nat) : Prop :=
  ∀ shared len start, OpensWith bytes pos shared len start → start + len < 2 ^ 64 ∧
    (shape = .entry → ∀ delta, KeepsOffset bytes (start + len) delta → Varint.unzigzag delta ≤ 2 ^ 63 - 2 ^ 32)

def Narrow (opens : Nat → Prop) : Prop := ∀ pos, RowAt bytes shape opens pos → NarrowRow bytes shape pos

section narrow
variable {bytes : Str} (hbytes : bytes.length < 2 ^ 63) {shape : Tail}

include hbytes

theorem NarrowRow.fits {pos offset : Nat} (h : NarrowRow bytes shape pos) (hoffset : offset < 2 ^ 32)
    (takes : Nat → Prop) : SuffixFits bytes pos ∧ (shape = .entry → OffsetFits bytes pos offset takes) := by
  refine ⟨fun shared len start hopens => (h _ _ _ hopens).1, ?_⟩
  intro hentry shared len start delta hopens _ hkeeps
  have hhigh := (h _ _ _ hopens).2 hentry delta hkeeps
  obtain ⟨size, mid, fin, -, -, hdelta⟩ := hkeeps
  have hword := (getVarint_bounds hbytes hdelta).1
  unfold Varint.unzigzag at hhigh ⊢
  split at hhigh <;> split <;> omega

theorem NarrowRow.rowFits {pos : Nat} (h : NarrowRow bytes shape pos) (before : Whole) :
    RowFits bytes pos shape before :=
  h.fits hbytes (u32At_lt before offsetAt) _

omit hbytes in
theorem readRow_ends {pos : Nat} {before : Whole} {row : Row} (h : readRow bytes pos shape before = .ok row) :
    RowEnds bytes shape pos row.next := by
  simp only [readRow, Loop.bind_eq_ok, Prod.exists, usize_eq_ok] at h
  obtain ⟨shared, mid, hshared, len, start, hlen, fin, ⟨-, rfl⟩, suffix, -, tail, next, htail, hrow⟩ := h
  cases hrow
  have hopens : OpensWith bytes pos shared len start := ⟨mid, hshared, hlen⟩
  cases shape with
  | raw width =>
    simp only [getTail, Loop.bind_eq_ok, usize_eq_ok] at htail
    obtain ⟨fin, ⟨-, rfl⟩, raw, -, hout⟩ := htail
    cases hout
    exact .raw width hopens
  | entry =>
    simp only [getTail, Loop.bind_eq_ok, usize_eq_ok, Prod.exists, ite_corrupt_eq_ok] at htail
    obtain ⟨flags, -, at', ⟨-, rfl⟩, size, after, hsize, -, delta, back, hdelta, offset, -, -, lsn, fin, hlsn, hout⟩ := htail
    cases hout
    exact .entry hopens hsize hdelta hlsn

theorem Narrow.blockFits (h : Narrow bytes shape (· = 0)) : BlockFits bytes shape := by
  intro u hreach _
  refine (h u.pos ?_).rowFits hbytes _
  refine Loop.Reached.keeps (P := fun u => RowAt bytes shape (· = 0) u.pos) ?_ hreach (.opens rfl)
  intro s t hround hs
  have hrow := hround.2
  simp only [blockRow, Loop.bind_eq_ok, ite_corrupt_eq_ok] at hrow
  obtain ⟨row, hread, -, key, -, index, -, hout⟩ := hrow
  cases hout
  exact .next hs (readRow_ends hread)

theorem Narrow.wholeFits (rowLen : Option Stride)
    (h : ∀ frame, Frame.read bytes = .ok frame → Narrow (bytes.take frame.rowsEnd) shape (· = 0)) :
    WholeFits bytes shape rowLen := by
  intro frame u before hframe hreach _ _
  have htake : (bytes.take frame.rowsEnd).length < 2 ^ 63 := by
    rw [length_take]
    omega
  refine (h frame hframe u.pos ?_).rowFits htake _
  refine Loop.Reached.keeps (P := fun u => RowAt (bytes.take frame.rowsEnd) shape (· = 0) u.pos) ?_ hreach (.opens rfl)
  intro s t hround hs
  have hrow := hround.2
  simp only [wholeRow, Loop.bind_eq_ok, ite_corrupt_eq_ok] at hrow
  obtain ⟨before, -, row, hread, key, -, -, index, -, u', -, hout⟩ := hrow
  cases hout
  exact .next hs (readRow_ends hread)

end narrow

namespace PackedCursor

/-- Where the first row lies that a read of a row decodes. -/
def opensAt (c : PackedCursor) (restart : Nat → Option Nat) (row pos : Nat) : Prop :=
  if c.resumes row then pos = c.next else restart (row / restartInterval) = some pos

variable {bytes : Str}

theorem step_ends {c d : PackedCursor} (h : c.step bytes = .ok d) :
    RowEnds bytes .entry c.next d.next ∧ d.found.offset < 2 ^ 32 := by
  simp only [step, Loop.bind_eq_ok, Prod.exists, usize_eq_ok, ite_corrupt_eq_ok, i64_eq_ok] at h
  obtain ⟨shared, mid, hshared, len, start, hlen, fin, ⟨-, rfl⟩, suffix, -, -, flags, -, at', ⟨-, rfl⟩, size, after,
    hsize, -, delta, back, hdelta, offset, -, hrange, lsn, fin, hlsn, read, -, hout⟩ := h
  cases hout
  refine ⟨.entry ⟨mid, hshared, hlen⟩ hsize hdelta hlsn, ?_⟩
  show offset.toNat < 2 ^ 32
  omega

theorem readFits_of_narrow (hbytes : bytes.length < 2 ^ 63) {c : PackedCursor} {restart : Nat → Option Nat} {row : Nat}
    (hoffset : c.found.offset < 2 ^ 32) (h : Narrow bytes .entry (c.opensAt restart row)) :
    c.ReadFits bytes restart row := by
  have hfits : ∀ on : PackedCursor, RowAt bytes .entry (c.opensAt restart row) on.next → on.found.offset < 2 ^ 32 →
      on.StepFits bytes := by
    intro on hrow hsmall
    have hrowFits := (h _ hrow).fits hbytes hsmall (· ≤ on.key.length)
    exact ⟨hrowFits.1, hrowFits.2 rfl⟩
  refine ⟨fun hfresh pos hpos => hfits ⟨none, pos, [], noRow⟩ (.opens ?_)
    (show noRow.offset < 2 ^ 32 by decide), fun first on hheld hreach _ => ?_⟩
  · simpa [opensAt, hfresh] using hpos
  · have hfirst : RowAt bytes .entry (c.opensAt restart row) first.next ∧ first.found.offset < 2 ^ 32 := by
      unfold held at hheld
      split at hheld
      · next hresumes =>
        cases hheld
        exact ⟨.opens (by simp [opensAt, hresumes]), hoffset⟩
      · next hfresh =>
        simp only [restartAt, Loop.bind_eq_ok, orCorrupt_eq_ok] at hheld
        obtain ⟨pos, hpos, stepped, hstep, place, -, hout⟩ := hheld
        cases hout
        obtain ⟨hends, hsmall⟩ := step_ends hstep
        exact ⟨.next (.opens (by simpa [opensAt, hfresh] using hpos)) hends, hsmall⟩
    obtain ⟨hat, hsmall⟩ : RowAt bytes .entry (c.opensAt restart row) on.next ∧ on.found.offset < 2 ^ 32 := by
      refine Loop.Reached.keeps (P := fun on => RowAt bytes .entry (c.opensAt restart row) on.next ∧
        on.found.offset < 2 ^ 32) ?_ hreach hfirst
      intro s t hround hs
      have hrow := hround.2
      simp only [stepRow, Loop.bind_eq_ok] at hrow
      obtain ⟨stepped, hstep, place, -, hout⟩ := hrow
      cases hout
      obtain ⟨hends, hsmall⟩ := step_ends hstep
      exact ⟨.next hs.1 hends, hsmall⟩
    exact hfits on hat hsmall

end PackedCursor

/-- Each reader returns rows or a corruption error, on any bytes, exactly where both sums of every row it comes to
stay in range. They do where no row that the bytes lay out ends its suffix past 64 bits or gives a difference
that some offset takes out of range. -/
theorem readers_decode_narrow_rows (bytes : Str) (shape : Tail) (hbytes : bytes.length < 2 ^ 63) :
    (∀ pos before, (Decodes (readRow bytes pos shape before) ↔ RowFits bytes pos shape before) ∧
      (NarrowRow bytes shape pos → Decodes (readRow bytes pos shape before))) ∧
    ((Decodes (unpackBlock bytes shape) ↔ BlockFits bytes shape) ∧
      (Narrow bytes shape (· = 0) → Decodes (unpackBlock bytes shape))) ∧
    (∀ rowLen, (Decodes (unpack bytes shape rowLen) ↔ WholeFits bytes shape rowLen) ∧
      ((∀ frame, Frame.read bytes = .ok frame → Narrow (bytes.take frame.rowsEnd) shape (· = 0)) →
        Decodes (unpack bytes shape rowLen))) ∧
    ∀ (c : PackedCursor) (restart : Nat → Option Nat) (row : Nat), row < 2 ^ 64 →
      (Decodes (c.read bytes restart row) ↔ c.ReadFits bytes restart row) ∧
      (c.found.offset < 2 ^ 32 → Narrow bytes .entry (c.opensAt restart row) → Decodes (c.read bytes restart row)) := by
  refine ⟨fun pos before => ?_, ?_, fun rowLen => ?_, fun c restart row hrow => ?_⟩
  · have hiff := readRow_decodes_iff hbytes pos shape before
    exact ⟨hiff, fun h => hiff.mpr (h.rowFits hbytes before)⟩
  · have hiff := unpackBlock_decodes_iff hbytes shape
    exact ⟨hiff, fun h => hiff.mpr (h.blockFits hbytes)⟩
  · have hiff := unpack_decodes_iff hbytes shape rowLen
    exact ⟨hiff, fun h => hiff.mpr (Narrow.wholeFits hbytes rowLen h)⟩
  · have hiff := c.read_decodes_iff hbytes restart hrow
    exact ⟨hiff, fun hoffset h => hiff.mpr (PackedCursor.readFits_of_narrow hbytes hoffset h)⟩

theorem getVarint_of_small {bytes : Str} (hsmall : ∀ b ∈ bytes, b.val < 128) {pos value next : Nat}
    (h : getVarint bytes pos = .ok (value, next)) : value < 128 := by
  simp only [getVarint, Varint.maxBytes, getVarintFrom] at h
  cases hbyte : bytes[pos]? with
  | none => simp [hbyte, corrupt] at h
  | some byte =>
    have hlt := hsmall byte (mem_of_getElem? hbyte)
    simp only [hbyte, if_pos hlt, Loop.bind_eq_ok] at h
    obtain ⟨_, -, hout⟩ := h
    cases hout
    simp
    omega

theorem narrow_of_small {bytes : Str} (hbytes : bytes.length < 2 ^ 63) (hsmall : ∀ b ∈ bytes, b.val < 128)
    (shape : Tail) (opens : Nat → Prop) : Narrow bytes shape opens := by
  rintro pos - shared len start ⟨next, -, hlen⟩
  have hstart := (getVarint_bounds hbytes hlen).2.2
  have hshort := getVarint_of_small hsmall hlen
  refine ⟨by omega, ?_⟩
  rintro - delta ⟨size, mid, fin, -, -, hdelta⟩
  have hnear := getVarint_of_small hsmall hdelta
  unfold Varint.unzigzag
  split <;> omega

def wideSuffix : Str := [0] ++ replicate 9 255 ++ [1]

def wideOffset : Str :=
  [0, 0, 0, 0, 2, 2] ++ [0, 0, 0, 0, 254] ++ replicate 8 255 ++ [1, 2]

def framedRows (rows : Str) (count : Nat) : Str := rows ++ toLe 4 0 ++ toLe 4 1 ++ toLe 4 count

/-- Two rows of two byte keys, the second sharing its first byte. -/
def twoRows : Str := [0, 2, 5, 5, 0, 9, 2, 2] ++ [1, 1, 6, 0, 9, 4, 2]

/-- All four readers decode them. -/
theorem readers_decode_two_rows :
    Decodes (readRow twoRows 0 .entry noTail) ∧ Decodes (unpackBlock twoRows .entry) ∧
    Decodes (unpack (framedRows twoRows 2) .entry none) ∧
    Decodes (PackedCursor.start.read twoRows (fun _ => some 0) 1) ∧
    (unpack (framedRows twoRows 2) .entry none).toOption.isSome = true := by
  have hlen : twoRows.length < 2 ^ 63 ∧ (framedRows twoRows 2).length < 2 ^ 63 := by decide +kernel
  have hsmall : (∀ b ∈ twoRows, b.val < 128) ∧ ∀ b ∈ framedRows twoRows 2, b.val < 128 := by decide +kernel
  obtain ⟨hrow, hblock, -, hread⟩ := readers_decode_narrow_rows twoRows .entry hlen.1
  obtain ⟨-, -, hwhole, -⟩ := readers_decode_narrow_rows (framedRows twoRows 2) .entry hlen.2
  have hnarrow := narrow_of_small hlen.1 hsmall.1 .entry
  refine ⟨(hrow 0 noTail).2 (hnarrow (· = 0) 0 (.opens rfl)), hblock.2 (hnarrow _), (hwhole none).2 fun frame _ => ?_,
    (hread .start _ 1 (by decide)).2 (by decide) (hnarrow _), rfl⟩
  exact narrow_of_small ((length_take_le' _ _).trans_lt hlen.2) (fun b hb => hsmall.2 b (mem_of_mem_take hb)) _ _

theorem row_numbers_leave_their_range :
    readRow wideSuffix 0 .entry noTail = .error .overflow ∧
    unpackBlock wideSuffix .entry = .error .overflow ∧
    unpack (framedRows wideSuffix 1) .entry none = .error .overflow ∧
    PackedCursor.start.read wideSuffix (fun _ => some 0) 0 = .error .overflow ∧
    unpackBlock wideOffset .entry = .error .overflow ∧
    unpack (framedRows wideOffset 2) .entry none = .error .overflow ∧
    PackedCursor.start.read wideOffset (fun _ => some 0) 1 = .error .overflow := by
  refine ⟨?_, ?_, ?_, ?_, ?_, ?_, ?_⟩ <;> rfl

end Reel.Footer
