import Reel.Library.Files
import Reel.Format.Journal

/-!
The POSIX backend's reads and writes. The kernel may move fewer bytes than a call asks for, be interrupted or fail;
each loop resumes with its own cursor. A run is told over the answers the kernel has given so far, and stands at
nothing while its next call is still out.
-/

set_option autoImplicit false

namespace Reel.Transfers
open Bytes Files List Option

/-- What one call answers: the bytes it would move, or why it moved none. -/
inductive Answer where
  | count (n : Nat)
  | interrupted
  | failed (message : String)
  deriving DecidableEq, Repr

def Answer.isInterrupted : Answer → Bool
  | .interrupted => true
  | _ => false

def settled (answers : List Answer) : Nat := (answers.filter fun answer => !answer.isInterrupted).length

def available (file : Str) (offset len : Nat) : Nat := min len (file.length - offset)

def range (file : Str) (offset len : Nat) : Str := (file.drop offset).take len

def readCount (available n : Nat) : Nat := min available (max 1 n)

def directCount (available n : Nat) : Nat := min available (max block (n / block * block))

def maxIovecs : Nat := 1024

/-- Step past buffers with nothing left to write. The buffers from the cursor on, the first of them with this many
bytes consumed. -/
def skipSpent : List Str → Nat → List Str × Nat
  | [], consumed => ([], consumed)
  | buf :: rest, consumed => if buf.length = consumed then skipSpent rest 0 else (buf :: rest, consumed)

def gather : Nat → List Str → List Str
  | _, [] => []
  | room, bytes :: rest =>
    if room = 0 then [] else if bytes = [] then gather room rest else bytes :: gather (room - 1) rest

def iovecs : List Str → Nat → List Str
  | [], _ => []
  | buf :: rest, consumed => gather maxIovecs (buf.drop consumed :: rest)

def advanceBy : List Str → Nat → Nat → List Str × Nat
  | [], consumed, _ => ([], consumed)
  | buf :: rest, consumed, advance =>
    if advance = 0 then (buf :: rest, consumed) else
    let remaining := buf.length - consumed
    if remaining ≤ advance then advanceBy rest 0 (advance - remaining) else (buf :: rest, consumed + advance)

/-- How a write stands: the file, the cursor and the bytes written. -/
structure Writing where
  file : Str
  left : List Str
  consumed : Nat
  written : Nat

def Writing.wrote (offset : Nat) (w : Writing) (bytes : Str) : Writing :=
  let moved := advanceBy w.left w.consumed bytes.length
  let (left, consumed) := skipSpent moved.1 moved.2
  ⟨overwrite w.file (offset + w.written) bytes, left, consumed, w.written + bytes.length⟩

def pwritevLoop (offset : Nat) : List Answer → Writing → Option (Except String Nat × Str)
  | answers, w =>
    if w.left = [] then some (.ok w.written, w.file) else
    let iovecs := iovecs w.left w.consumed
    if iovecs = [] then some (.ok w.written, w.file) else
    match answers with
    | [] => none
    | .interrupted :: more => pwritevLoop offset more w
    | .failed message :: _ => some (.error message, w.file)
    | .count n :: more =>
      let bytes := iovecs.flatten.take n
      if bytes = [] then some (.error "vectored write made no progress", w.file) else
      pwritevLoop offset more (w.wrote offset bytes)

def pwritevAll (answers : List Answer) (file : Str) (bufs : List Str) (offset : Nat) :
    Option (Except String Nat × Str) :=
  let (left, consumed) := skipSpent bufs 0
  pwritevLoop offset answers ⟨file, left, consumed, 0⟩

def onePread (file : Str) (offset len : Nat) : Answer → Except String Str
  | .count n => .ok (range file offset (readCount (available file offset len) n))
  | .interrupted => .error "interrupted"
  | .failed message => .error message

def preadLoop (file : Str) (offset wanted : Nat) : List Answer → Str → Option (Except String Str)
  | answers, filled =>
    if wanted ≤ filled.length then some (.ok filled) else
    match answers with
    | [] => none
    | answer :: more =>
      match onePread file (offset + filled.length) (wanted - filled.length) answer with
      | .error message => some (.error message)
      | .ok read => if read = [] then some (.ok filled) else preadLoop file offset wanted more (filled ++ read)

def preadInto (answers : List Answer) (file : Str) (wanted offset : Nat) : Option (Except String Str) :=
  preadLoop file offset wanted answers []

def preadvInto (answers : List Answer) (file : Str) (headLen bodyLen offset : Nat) : Option (Except String (Str × Str)) :=
  match answers with
  | [] => none
  | answer :: _ =>
    -- the kernel fills the head first, so a short read cuts the body first
    some ((onePread file offset (headLen + bodyLen) answer).map fun read => (read.take headLen, read.drop headLen))

def alignDown (offset : Nat) : Nat := offset / block * block

def coveringSpan (offset len : Nat) : Nat × Nat :=
  let start := alignDown offset
  (start, nextMultiple (offset + len) - start)

def wantedWindow (filled skip wanted : Nat) : Nat × Nat := (min filled skip, min filled (skip + wanted))

/-- Issue one direct read, treating a stop inside a block as the end of the file. -/
def readAt (file : Str) (offset len : Nat) : List Answer → Str → Option (Except String Str)
  | answers, filled =>
    if len ≤ filled.length then some (.ok filled) else
    match answers with
    | [] => none
    | .interrupted :: more => readAt file offset len more filled
    | .failed message :: _ => some (.error message)
    | .count n :: more =>
      let at' := offset + filled.length
      let read := range file at' (directCount (available file at' (len - filled.length)) n)
      if read = [] then some (.ok filled)
      else if (filled ++ read).length % block ≠ 0 then some (.ok (filled ++ read))
      else readAt file offset len more (filled ++ read)

def readCovering (answers : List Answer) (file : Str) (offset len : Nat) : Option (Except String Str) :=
  let (start, span) := coveringSpan offset len
  let skip := offset - start
  (readAt file start span answers []).map fun outcome => outcome.map fun staged =>
    let (low, high) := wantedWindow staged.length skip len
    (staged.take high).drop low

def cutInto (bytes : Str) (room : Nat) : Str := bytes.take (min bytes.length room)

def cutSplitInto (bytes : Str) (headLen bodyLen : Nat) : Str × Str :=
  let split := min bytes.length headLen
  (cutInto (bytes.take split) headLen, cutInto (bytes.drop split) bodyLen)

def directPread (answers : List Answer) (file : Str) (wanted offset : Nat) : Option (Except String Str) :=
  if wanted = 0 then some (.ok []) else
  (readCovering answers file offset wanted).map fun outcome => outcome.map (cutInto · wanted)

def directPreadSplit (answers : List Answer) (file : Str) (headLen bodyLen offset : Nat) :
    Option (Except String (Str × Str)) :=
  let wanted := headLen + bodyLen
  if wanted = 0 then some (.ok ([], [])) else
  (readCovering answers file offset wanted).map fun outcome => outcome.map (cutSplitInto · headLen bodyLen)

def pending (left : List Str) (consumed : Nat) : Str := left.flatten.drop consumed

/-- The cursor stands in the buffer it names. -/
def Placed (left : List Str) (consumed : Nat) : Prop := ∀ buf ∈ left.head?, consumed ≤ buf.length

theorem placed_zero (left : List Str) : Placed left 0 := fun _ _ => Nat.zero_le _

variable {consumed : Nat}

theorem pending_cons {buf : Str} {rest : List Str} (h : Placed (buf :: rest) consumed) :
    pending (buf :: rest) consumed = buf.drop consumed ++ rest.flatten := by
  rw [pending, flatten_cons, drop_append_of_le_length (h buf rfl)]

variable {left : List Str}

theorem skipSpent_spec (h : Placed left consumed) :
    pending (skipSpent left consumed).1 (skipSpent left consumed).2 = pending left consumed ∧
      Placed (skipSpent left consumed).1 (skipSpent left consumed).2 := by
  induction left generalizing consumed with
  | nil => exact ⟨rfl, h⟩
  | cons buf rest ih =>
    rw [skipSpent]
    split
    · next hspent =>
      obtain ⟨hpending, hplaced⟩ := ih (placed_zero rest)
      refine ⟨?_, hplaced⟩
      rw [hpending, pending_cons h, drop_eq_nil_of_le hspent.le, nil_append]
      rfl
    · exact ⟨rfl, h⟩

theorem gather_flatten (room : Nat) (bufs : List Str) : (gather room bufs).flatten <+: bufs.flatten := by
  induction bufs generalizing room with
  | nil => exact prefix_refl _
  | cons bytes rest ih =>
    rw [gather]
    split
    · exact nil_prefix
    · split
      · next hempty =>
        rw [hempty, flatten_cons, nil_append]
        exact ih room
      · rw [flatten_cons, flatten_cons]
        exact (prefix_append_right_inj bytes).mpr (ih (room - 1))

theorem gather_eq_nil_iff {room : Nat} (hroom : room ≠ 0) (bufs : List Str) : gather room bufs = [] ↔ bufs.flatten = [] := by
  induction bufs with
  | nil => simp [gather]
  | cons bytes rest ih =>
    rw [gather, if_neg hroom]
    split
    · next hempty => rw [ih, hempty, flatten_cons, nil_append]
    · next hsome => simp [hsome]

theorem gather_nonempty (room : Nat) (bufs : List Str) : (gather room bufs).flatten = [] → gather room bufs = [] := by
  induction bufs generalizing room with
  | nil => simp [gather]
  | cons bytes rest ih =>
    rw [gather]
    split
    · simp
    · split
      · exact ih room
      · next hsome => simp [hsome]

theorem iovecs_spec (h : Placed left consumed) :
    (iovecs left consumed).flatten <+: pending left consumed ∧
      ((iovecs left consumed).flatten = [] ↔ pending left consumed = []) ∧
      ((iovecs left consumed).flatten = [] → iovecs left consumed = []) := by
  cases left with
  | nil => simp [iovecs, pending]
  | cons buf rest =>
    have hbytes : pending (buf :: rest) consumed = (buf.drop consumed :: rest).flatten := by
      rw [pending_cons h, flatten_cons]
    have hnil : gather maxIovecs (buf.drop consumed :: rest) = [] ↔ (buf.drop consumed :: rest).flatten = [] :=
      gather_eq_nil_iff (by decide) _
    rw [hbytes, iovecs]
    refine ⟨gather_flatten _ _, ?_, gather_nonempty _ _⟩
    constructor
    · intro hflat
      exact hnil.mp (gather_nonempty _ _ hflat)
    · intro hflat
      rw [hnil.mpr hflat]
      rfl

variable {n : Nat}

theorem advanceBy_spec (h : Placed left consumed)
    (hn : n ≤ (pending left consumed).length) :
    pending (advanceBy left consumed n).1 (advanceBy left consumed n).2 = (pending left consumed).drop n ∧
      Placed (advanceBy left consumed n).1 (advanceBy left consumed n).2 := by
  induction left generalizing consumed n with
  | nil =>
    rw [advanceBy]
    exact ⟨by simp [pending], h⟩
  | cons buf rest ih =>
    have hfirst : consumed ≤ buf.length := h buf rfl
    rw [pending_cons h, length_append, length_drop] at hn
    rw [advanceBy]
    split
    · next hzero =>
      rw [hzero, drop_zero]
      exact ⟨rfl, h⟩
    · dsimp only
      split
      · next hspent =>
        have hrest : n - (buf.length - consumed) ≤ (pending rest 0).length := by
          rw [pending, drop_zero]
          omega
        obtain ⟨hpending, hplaced⟩ := ih (placed_zero rest) hrest
        refine ⟨?_, hplaced⟩
        have hgone : (buf.drop consumed).drop n = [] := drop_eq_nil_of_le (by rw [length_drop]; omega)
        rw [hpending, pending_cons h, drop_append, hgone, nil_append, length_drop]
        rfl
      · next hinside =>
        have hplaced : Placed (buf :: rest) (consumed + n) := by
          rintro _ ⟨⟩
          omega
        refine ⟨?_, hplaced⟩
        rw [pending_cons hplaced, pending_cons h, drop_append_of_le_length (by rw [length_drop]; omega),
          drop_drop]

def land (file : Str) (offset : Nat) (new : Str) : Str := if new = [] then file else overwrite file offset new

variable {file : Str} {offset : Nat}

theorem overwrite_land {done new : Str} (hnew : new ≠ []) :
    overwrite (land file offset done) (offset + done.length) new = land file offset (done ++ new) := by
  have hboth : done ++ new ≠ [] := by simp [hnew]
  simp only [land, if_neg hboth]
  split
  · next hnone => rw [hnone, nil_append, length_nil, Nat.add_zero]
  · exact overwrite_resumed file offset done new

/-- Where a write stands: some bytes of the whole are down and the cursor is behind them. -/
structure Writing.Stands (w : Writing) (file : Str) (offset : Nat) (whole : Str) : Prop where
  placed : Placed w.left w.consumed
  split : ∃ done, whole = done ++ pending w.left w.consumed ∧ w.written = done.length ∧ w.file = land file offset done

section writing
variable {w : Writing} {file whole : Str} {offset : Nat} (h : w.Stands file offset whole)
include h

theorem Writing.Stands.wrote {bytes : Str} (hsome : bytes ≠ []) (hstart : bytes <+: pending w.left w.consumed) :
    (w.wrote offset bytes).Stands file offset whole ∧
      pending (w.wrote offset bytes).left (w.wrote offset bytes).consumed =
        (pending w.left w.consumed).drop bytes.length := by
  obtain ⟨done, hwhole, hwritten, hfile⟩ := h.split
  obtain ⟨hmoved, hplaced⟩ := advanceBy_spec h.placed hstart.length_le
  obtain ⟨hskipped, hstands⟩ := skipSpent_spec hplaced
  have hpending := hskipped.trans hmoved
  refine ⟨⟨hstands, done ++ bytes, ?_, ?_, ?_⟩, hpending⟩
  · refine (hwhole.trans ?_).trans (congrArg (done ++ bytes ++ ·) hpending.symm)
    obtain ⟨rest, hrest⟩ := hstart
    rw [← hrest, drop_left, append_assoc]
  · rw [length_append, ← hwritten]
    rfl
  · rw [← overwrite_land hsome, ← hfile, ← hwritten]
    rfl

theorem Writing.Stands.stopped (hnone : pending w.left w.consumed = []) (answers : List Answer) :
    pwritevLoop offset answers w = some (.ok whole.length, land file offset whole) := by
  obtain ⟨done, hwhole, hwritten, hfile⟩ := h.split
  obtain ⟨-, hnil, hempty⟩ := iovecs_spec h.placed
  rw [hnone, append_nil] at hwhole
  have hstop : some (Except.ok w.written, w.file) =
      (some (.ok whole.length, land file offset whole) : Option (Except String Nat × Str)) := by
    rw [hwritten, hfile, hwhole]
  unfold pwritevLoop
  rw [hempty (hnil.mpr hnone), if_pos rfl, hstop, ite_self]

theorem Writing.Stands.hands_over (hsome : pending w.left w.consumed ≠ []) :
    w.left ≠ [] ∧ iovecs w.left w.consumed ≠ [] := by
  obtain ⟨-, hnil, -⟩ := iovecs_spec h.placed
  constructor
  · intro hleft
    exact hsome (by simp [pending, hleft])
  · intro hio
    exact hsome (hnil.mp (by rw [hio]; rfl))

end writing

/-- A write returns an error, or every byte of the whole is down where it belongs. -/
def Wrote (outcome : Option (Except String Nat × Str)) (file : Str) (offset : Nat) (whole : Str) : Prop :=
  ∀ n after, outcome = some (.ok n, after) → n = whole.length ∧ after = land file offset whole

variable {answers : List Answer}

section
variable {w : Writing} {whole : Str} (h : w.Stands file offset whole)
include h

theorem pwritevLoop_wrote : Wrote (pwritevLoop offset answers w) file offset whole := by
  intro written after heq
  induction answers generalizing w with
  | nil =>
    by_cases hnone : pending w.left w.consumed = []
    · rw [h.stopped hnone] at heq
      cases heq
      exact ⟨rfl, rfl⟩
    · obtain ⟨hleft, hio⟩ := h.hands_over hnone
      rw [pwritevLoop] at heq
      simp only [if_neg hleft, if_neg hio] at heq
      cases heq
  | cons answer more ih =>
    by_cases hnone : pending w.left w.consumed = []
    · rw [h.stopped hnone] at heq
      cases heq
      exact ⟨rfl, rfl⟩
    · obtain ⟨hleft, hio⟩ := h.hands_over hnone
      cases answer with
      | interrupted =>
        rw [pwritevLoop] at heq
        simp only [if_neg hleft, if_neg hio] at heq
        exact ih h heq
      | failed message =>
        rw [pwritevLoop] at heq
        simp only [if_neg hleft, if_neg hio] at heq
        cases heq
      | count n =>
        rw [pwritevLoop] at heq
        simp only [if_neg hleft, if_neg hio] at heq
        split at heq
        · cases heq
        · next hsome =>
          have hstart := ( take_prefix n _).trans (iovecs_spec h.placed).1
          exact ih (h.wrote hsome hstart).1 heq

theorem pwritevLoop_returns (hlen : (pending w.left w.consumed).length ≤ settled answers) :
    (pwritevLoop offset answers w).isSome := by
  induction answers generalizing w with
  | nil =>
    rw [h.stopped (length_eq_zero_iff.mp (Nat.le_zero.mp hlen))]
    rfl
  | cons answer more ih =>
    by_cases hnone : pending w.left w.consumed = []
    · rw [h.stopped hnone]
      rfl
    · obtain ⟨hleft, hio⟩ := h.hands_over hnone
      cases answer with
      | interrupted =>
        rw [pwritevLoop]
        simp only [if_neg hleft, if_neg hio]
        exact ih h hlen
      | failed message =>
        rw [pwritevLoop]
        simp only [if_neg hleft, if_neg hio]
        rfl
      | count n =>
        rw [pwritevLoop]
        simp only [if_neg hleft, if_neg hio]
        split
        · rfl
        · next hsome =>
          have hstart := ( take_prefix n _).trans (iovecs_spec h.placed).1
          obtain ⟨hstands, hpending⟩ := h.wrote hsome hstart
          have hmoved := length_pos_iff.mpr hsome
          have hsettled : settled (.count n :: more) = settled more + 1 := rfl
          refine ih hstands ?_
          rw [hpending, length_drop]
          omega

end

theorem stands_at_start (file : Str) (bufs : List Str) (offset : Nat) :
    Writing.Stands ⟨file, (skipSpent bufs 0).1, (skipSpent bufs 0).2, 0⟩ file offset bufs.flatten ∧
      pending (skipSpent bufs 0).1 (skipSpent bufs 0).2 = bufs.flatten := by
  obtain ⟨hpending, hplaced⟩ := skipSpent_spec (placed_zero bufs)
  exact ⟨⟨hplaced, [], hpending.symm, rfl, rfl⟩, hpending⟩

theorem pwritevAll_wrote (answers : List Answer) (file : Str) (bufs : List Str) (offset : Nat) :
    Wrote (pwritevAll answers file bufs offset) file offset bufs.flatten :=
  pwritevLoop_wrote (stands_at_start file bufs offset).1

theorem pwritevAll_returns (file : Str) {bufs : List Str} (offset : Nat)
    (h : bufs.flatten.length ≤ settled answers) : (pwritevAll answers file bufs offset).isSome := by
  obtain ⟨hstands, hpending⟩ := stands_at_start file bufs offset
  exact pwritevLoop_returns hstands (by rw [← hpending] at h; exact h)

theorem range_length (file : Str) (offset len : Nat) : (range file offset len).length = available file offset len := by
  rw [range, length_take, length_drop, available]

theorem available_eq_length (file : Str) (offset len : Nat) :
    range file offset (available file offset len) = range file offset len := by
  rw [range, range, available, ← length_drop, ← take_eq_take_min]

theorem range_append (file : Str) (offset a b : Nat) :
    range file offset a ++ range file (offset + a) b = range file offset (a + b) := by
  rw [range, range, range, ← drop_drop, take_add]

/-- A read returns an error, or the file's bytes of the asked range, cut only at the end of the file. -/
def Reads (outcome : Option (Except String Str)) (file : Str) (offset wanted : Nat) : Prop :=
  ∀ read, outcome = some (.ok read) → read = range file offset wanted

theorem reads_error (message : String) (file : Str) (offset wanted : Nat) :
    Reads (some (.error message)) file offset wanted := by
  intro read heq
  cases heq

theorem Reads.map {α : Type} {outcome : Option (Except String Str)} {wanted : Nat}
    (h : Reads outcome file offset wanted) {cut : Str → α} {read : α}
    (heq : (outcome.map fun outcome => outcome.map cut) = some (.ok read)) : read = cut (range file offset wanted) := by
  obtain ⟨outcome, houtcome, hmap⟩ := map_eq_some_iff.mp heq
  cases outcome with
  | error message => cases hmap
  | ok bytes => rw [← Except.ok.inj hmap, h bytes houtcome]

section reading
variable {file : Str} {offset wanted n : Nat} (hn : n ≤ available file offset wanted)
include hn

theorem filled_length : (range file offset n).length = n := by
  rw [range_length]
  unfold available at hn ⊢
  omega

theorem available_rest : available file (offset + n) (wanted - n) = available file offset wanted - n := by
  unfold available at hn ⊢
  omega

theorem range_read {count : Nat} (hcount : count ≤ available file offset wanted - n) :
    range file offset n ++ range file (offset + n) count = range file offset (n + count) ∧
      n + count ≤ available file offset wanted ∧ (range file (offset + n) count = [] ↔ count = 0) := by
  refine ⟨range_append file offset n count, by omega, ?_⟩
  rw [← length_eq_zero_iff, range_length]
  unfold available at hn hcount ⊢
  omega

end reading

theorem reads_available {wanted : Nat} (hend : n = available file offset wanted) :
    Reads (some (.ok (range file offset n))) file offset wanted := by
  intro read heq
  rw [← Except.ok.inj (some_inj.mp heq), hend, available_eq_length]

theorem preadLoop_spec {wanted : Nat}
    (hn : n ≤ available file offset wanted) :
    Reads (preadLoop file offset wanted answers (range file offset n)) file offset wanted ∧
      (wanted - n ≤ answers.length → (preadLoop file offset wanted answers (range file offset n)).isSome) := by
  have hle : available file offset wanted ≤ wanted := Nat.min_le_left _ _
  have hlen := filled_length hn
  induction answers generalizing n with
  | nil =>
    rw [preadLoop, hlen]
    split
    · next hall =>
      exact ⟨reads_available (by omega), fun _ => rfl⟩
    · refine ⟨fun read heq => ?_, fun hless => ?_⟩
      · cases heq
      · rw [length_nil] at hless
        omega
  | cons answer more ih =>
    rw [preadLoop, hlen]
    split
    · next hall =>
      exact ⟨reads_available (by omega), fun _ => rfl⟩
    · next hpart =>
      cases answer with
      | interrupted => exact ⟨reads_error _ file offset wanted, fun _ => rfl⟩
      | failed message => exact ⟨reads_error _ file offset wanted, fun _ => rfl⟩
      | count k =>
        simp only [onePread, available_rest hn]
        obtain ⟨hmore, hnext, hnil⟩ := range_read hn (Nat.min_le_left _ (max 1 k))
        rw [readCount, hmore]
        split
        · next hnone =>
          have hzero := hnil.mp hnone
          exact ⟨reads_available (by omega), fun _ => rfl⟩
        · next hsome =>
          have hmoved : min (available file offset wanted - n) (max 1 k) ≠ 0 := fun hzero => hsome (hnil.mpr hzero)
          obtain ⟨hreads, hreturns⟩ := ih hnext (filled_length hnext)
          refine ⟨hreads, fun hless => hreturns ?_⟩
          rw [length_cons] at hless
          omega

theorem directCount_le (avail n : Nat) : directCount avail n ≤ avail := Nat.min_le_left _ _

theorem directCount_eq_zero_iff {avail : Nat} : directCount avail n = 0 ↔ avail = 0 := by
  have hblock : 0 < block := by decide
  rw [directCount]
  omega

theorem directCount_mod {avail : Nat} (h : directCount avail n ≠ avail) : directCount avail n % block = 0 := by
  have hwhole : directCount avail n = max block (n / block * block) := by
    rw [directCount] at h ⊢
    omega
  rw [hwhole]
  rcases max_choice block (n / block * block) with hmax | hmax
  · rw [hmax, Nat.mod_self]
  · rw [hmax, Nat.mul_mod_left]

theorem readAt_spec {len : Nat}
    (hn : n ≤ available file offset len) (haligned : n % block = 0) :
    Reads (readAt file offset len answers (range file offset n)) file offset len ∧
      (len - n ≤ settled answers → (readAt file offset len answers (range file offset n)).isSome) := by
  have hle : available file offset len ≤ len := Nat.min_le_left _ _
  have hlen := filled_length hn
  induction answers generalizing n with
  | nil =>
    rw [readAt, hlen]
    split
    · next hall =>
      exact ⟨reads_available (by omega), fun _ => rfl⟩
    · refine ⟨fun read heq => ?_, fun hless => ?_⟩
      · cases heq
      · change len - n ≤ 0 at hless
        omega
  | cons answer more ih =>
    rw [readAt.eq_def]
    dsimp only
    rw [hlen]
    split
    · next hall =>
      exact ⟨reads_available (by omega), fun _ => rfl⟩
    · next hpart =>
      cases answer with
      | interrupted => exact ih hn haligned hlen
      | failed message => exact ⟨reads_error _ file offset len, fun _ => rfl⟩
      | count k =>
        dsimp only
        rw [available_rest hn]
        obtain ⟨hmore, hnext, hnil⟩ := range_read hn (directCount_le _ k)
        rw [hmore, filled_length hnext]
        split
        · next hnone =>
          have hzero := hnil.mp hnone
          have hend := directCount_eq_zero_iff.mp hzero
          exact ⟨reads_available (by omega), fun _ => rfl⟩
        · next hsome =>
          split
          · next hinside =>
            -- inside a block, so at the end of the file
            refine ⟨reads_available ?_, fun _ => rfl⟩
            by_contra hshort
            have hmod : directCount (available file offset len - n) k % block = 0 := directCount_mod (by omega)
            exact hinside (by rw [Nat.add_mod, haligned, hmod]; rfl)
          · next hblock =>
            have hmoved : directCount (available file offset len - n) k ≠ 0 := fun hzero => hsome (hnil.mpr hzero)
            obtain ⟨hreads, hreturns⟩ := ih hnext (not_not.mp hblock) (filled_length hnext)
            have hsettled : settled (.count k :: more) = settled more + 1 := rfl
            refine ⟨hreads, fun hless => hreturns ?_⟩
            omega

theorem coveringSpan_spec (offset len : Nat) :
    (coveringSpan offset len).1 ≤ offset ∧
      offset + len ≤ (coveringSpan offset len).1 + (coveringSpan offset len).2 := by
  have hblock : block = 4096 := rfl
  simp only [coveringSpan, alignDown, nextMultiple, hblock]
  omega

theorem window_eq {staged : Str} {start span len : Nat} (hstart : start ≤ offset)
    (hspan : offset + len ≤ start + span) (hstaged : staged = range file start span) :
    (staged.take (wantedWindow staged.length (offset - start) len).2).drop
      (wantedWindow staged.length (offset - start) len).1 = range file offset len := by
  have hlen : staged.length = min span (file.length - start) := by
    rw [hstaged, range_length, available]
  have htake : staged.take (wantedWindow staged.length (offset - start) len).2 =
      range file start (offset - start + len) := by
    rw [wantedWindow]
    dsimp only
    rw [Nat.min_comm, ← take_eq_take_min, hstaged, range, take_take, Nat.min_eq_left (by omega)]
    rfl
  rw [htake, range, range, wantedWindow, drop_take, drop_drop]
  dsimp only
  rcases Nat.lt_or_ge staged.length (offset - start) with hlt | hle
  · -- the file ends before the range begins
    rw [Nat.min_eq_left hlt.le, drop_eq_nil_of_le (by omega), drop_eq_nil_of_le (by omega), take_nil,
      take_nil]
  · rw [Nat.min_eq_right hle, Nat.add_sub_cancel_left, Nat.add_sub_cancel' hstart]

theorem readCovering_spec (answers : List Answer) (file : Str) (offset len : Nat) :
    Reads (readCovering answers file offset len) file offset len ∧
      ((coveringSpan offset len).2 ≤ settled answers → (readCovering answers file offset len).isSome) := by
  obtain ⟨hstart, hspan⟩ := coveringSpan_spec offset len
  generalize hcover : coveringSpan offset len = cover at hstart hspan ⊢
  have hread : Reads (readAt file cover.1 cover.2 answers []) file cover.1 cover.2 ∧
      (cover.2 - 0 ≤ settled answers → (readAt file cover.1 cover.2 answers []).isSome) :=
    readAt_spec (Nat.zero_le _) (Nat.zero_mod _)
  rw [readCovering, hcover]
  refine ⟨fun read heq => ?_, fun henough => ?_⟩
  · exact (hread.1.map heq).trans (window_eq hstart hspan rfl)
  · rw [isSome_map]
    exact hread.2 henough

theorem cutInto_eq {bytes : Str} {room : Nat} (h : bytes.length ≤ room) : cutInto bytes room = bytes := by
  rw [cutInto, Nat.min_eq_left h, take_length]

theorem cutSplitInto_eq {bytes : Str} {headLen bodyLen : Nat} (h : bytes.length ≤ headLen + bodyLen) :
    cutSplitInto bytes headLen bodyLen = (bytes.take headLen, bytes.drop headLen) := by
  have hsplit : bytes.take (min bytes.length headLen) = bytes.take headLen := by
    rw [Nat.min_comm, ← take_eq_take_min]
  have hrest : bytes.drop (min bytes.length headLen) = bytes.drop headLen := by
    rcases le_total bytes.length headLen with hle | hle
    · rw [Nat.min_eq_left hle, drop_length, drop_eq_nil_of_le hle]
    · rw [Nat.min_eq_right hle]
  unfold cutSplitInto
  dsimp only
  rw [hsplit, hrest, cutInto_eq (by rw [length_take]; omega), cutInto_eq (by rw [length_drop]; omega)]

/-- A read into two buffers returns an error, or the file's bytes of the asked range, head buffer first. -/
def ReadsSplit (outcome : Option (Except String (Str × Str))) (file : Str) (offset headLen bodyLen : Nat) : Prop :=
  ∀ head body, outcome = some (.ok (head, body)) →
    (head, body) = ((range file offset (headLen + bodyLen)).take headLen, (range file offset (headLen + bodyLen)).drop headLen)

section buffers
variable (answers : List Answer) (file : Str) (offset : Nat)

theorem directPread_spec (wanted : Nat) :
    Reads (directPread answers file wanted offset) file offset wanted ∧
      ((coveringSpan offset wanted).2 ≤ settled answers → (directPread answers file wanted offset).isSome) := by
  obtain ⟨hreads, hreturns⟩ := readCovering_spec answers file offset wanted
  rw [directPread]
  split
  · next hzero =>
    refine ⟨fun read heq => ?_, fun _ => rfl⟩
    rw [← Except.ok.inj (some_inj.mp heq), hzero]
    rfl
  · refine ⟨fun read heq => ?_, fun henough => ?_⟩
    · refine (hreads.map heq).trans (cutInto_eq ?_)
      rw [range_length]
      exact Nat.min_le_left _ _
    · rw [isSome_map]
      exact hreturns henough

theorem directPreadSplit_spec (headLen bodyLen : Nat) :
    ReadsSplit (directPreadSplit answers file headLen bodyLen offset) file offset headLen bodyLen ∧
      ((coveringSpan offset (headLen + bodyLen)).2 ≤ settled answers →
        (directPreadSplit answers file headLen bodyLen offset).isSome) := by
  obtain ⟨hreads, hreturns⟩ := readCovering_spec answers file offset (headLen + bodyLen)
  unfold directPreadSplit
  dsimp only
  split
  · next hzero =>
    refine ⟨fun head body heq => ?_, fun _ => rfl⟩
    rw [← Except.ok.inj (some_inj.mp heq), hzero]
    simp [range]
  · refine ⟨fun head body heq => ?_, fun henough => ?_⟩
    · refine (hreads.map heq).trans (cutSplitInto_eq ?_)
      rw [range_length]
      exact Nat.min_le_left _ _
    · rw [isSome_map]
      exact hreturns henough

end buffers

theorem take_drop_inj {a b : Str} : (a.take n, a.drop n) = (b.take n, b.drop n) ↔ a = b := by
  constructor
  · intro heq
    obtain ⟨htake, hdrop⟩ := Prod.ext_iff.mp heq
    rw [← take_append_drop n a, ← take_append_drop n b]
    exact congrArg₂ (· ++ ·) htake hdrop
  · rintro rfl
    rfl

/-- The vectored read makes one call and takes its count for the end of the file. -/
theorem preadvInto_iff (answers : List Answer) (file : Str) (offset headLen bodyLen : Nat) :
    ReadsSplit (preadvInto answers file headLen bodyLen offset) file offset headLen bodyLen ↔
      ∀ n more, answers = .count n :: more → available file offset (headLen + bodyLen) ≤ max 1 n := by
  cases answers with
  | nil => exact iff_of_true (fun head body heq => by cases heq) (fun n more heq => by cases heq)
  | cons answer more =>
    cases answer with
    | interrupted => exact iff_of_true (fun head body heq => by cases heq) (fun n more heq => by cases heq)
    | failed message => exact iff_of_true (fun head body heq => by cases heq) (fun n more heq => by cases heq)
    | count n =>
      generalize hlen : headLen + bodyLen = len
      have hsame : range file offset (readCount (available file offset len) n) = range file offset len ↔
          available file offset len ≤ max 1 n := by
        constructor
        · intro heq
          have hcount := congrArg length heq
          rw [range_length, range_length] at hcount
          unfold readCount available at hcount
          unfold available
          omega
        · intro hall
          rw [readCount, Nat.min_eq_left hall, available_eq_length]
      have hcount : (∀ m rest, Answer.count n :: more = .count m :: rest → available file offset len ≤ max 1 m) ↔
          available file offset len ≤ max 1 n := by
        constructor
        · intro hall
          exact hall n more rfl
        · rintro hall m rest heq
          cases heq
          exact hall
      rw [hcount, ← hsame, ← take_drop_inj (n := headLen), ReadsSplit, hlen]
      constructor
      · intro hreads
        refine hreads _ _ ?_
        rw [preadvInto, hlen]
        rfl
      · intro heq head body hread
        rw [preadvInto, hlen] at hread
        rw [← heq]
        exact (Except.ok.inj (some_inj.mp hread)).symm

/-- Short counts and interruptions never change what is written or read, but for the vectored read: its one call has
to reach the end of the asked range or of the file. Each run returns once the kernel gave a count for every byte. -/
theorem transfers_exact_iff (answers : List Answer) (file : Str) (offset : Nat) :
    (∀ bufs, Wrote (pwritevAll answers file bufs offset) file offset bufs.flatten ∧
      (bufs.flatten.length ≤ settled answers → (pwritevAll answers file bufs offset).isSome)) ∧
    (∀ wanted, Reads (preadInto answers file wanted offset) file offset wanted ∧
      (wanted ≤ answers.length → (preadInto answers file wanted offset).isSome)) ∧
    (∀ wanted, Reads (directPread answers file wanted offset) file offset wanted ∧
      ((coveringSpan offset wanted).2 ≤ settled answers → (directPread answers file wanted offset).isSome)) ∧
    (∀ headLen bodyLen, ReadsSplit (directPreadSplit answers file headLen bodyLen offset) file offset headLen bodyLen ∧
      ((coveringSpan offset (headLen + bodyLen)).2 ≤ settled answers →
        (directPreadSplit answers file headLen bodyLen offset).isSome)) ∧
    ∀ headLen bodyLen, (ReadsSplit (preadvInto answers file headLen bodyLen offset) file offset headLen bodyLen ↔
        ∀ n more, answers = .count n :: more → available file offset (headLen + bodyLen) ≤ max 1 n) ∧
      (answers ≠ [] → (preadvInto answers file headLen bodyLen offset).isSome) := by
  refine ⟨fun bufs => ⟨pwritevAll_wrote answers file bufs offset, pwritevAll_returns file offset⟩, fun wanted => ?_,
    directPread_spec answers file offset, directPreadSplit_spec answers file offset, fun headLen bodyLen => ?_⟩
  · exact preadLoop_spec (Nat.zero_le _)
  · refine ⟨preadvInto_iff answers file offset headLen bodyLen, fun hsome => ?_⟩
    cases answers with
    | nil => exact absurd rfl hsome
    | cons answer more => rfl

/-- Four of eight bytes in one call: the payload is cut though the file has it all. -/
theorem short_vectored_read_cuts_payload :
    ¬ ReadsSplit (preadvInto [.count 4] [0, 1, 2, 3, 4, 5, 6, 7] 2 6 0) [0, 1, 2, 3, 4, 5, 6, 7] 0 2 6 := by
  intro hreads
  have hcut := hreads [0, 1] [2, 3] (by decide)
  revert hcut
  decide

end Reel.Transfers
