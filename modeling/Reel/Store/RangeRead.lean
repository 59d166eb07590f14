import Mathlib
import Reel.Format.Record

/-!
Ranged reads of one stored record: `get_range` against the cut of a whole read. The record lies
at its place, raw or coded, keyed or keyless, with other bytes of its file after it. The reader finds
it by a map entry or by the spot index's sole candidate, and the column declares a codec or none at
this open. The caller's offset and length are 64 bit words, and an addition on them that leaves the
word is an error of its own, as is a buffer past what an allocation may ask for. The host's disk serves a
read or refuses it, its allocator grants a buffer or does not, and `decompress` is the codec's library.
-/

set_option autoImplicit false

namespace Reel.RangeRead

open Bytes List

inductive ReadError where
  | overflow
  | capacity
  | memory
  | io
  | corrupt
  | unresolved
  deriving DecidableEq, Repr

def wordMax : Nat := 2 ^ 64 - 1
def isizeMax : Nat := 2 ^ 63 - 1
def mergeGap : Nat := 4096
def logicalPrefix : Nat := 4
def maxLogical : Nat := 2 ^ 30
def lz4Byte : Nat := 1

def addWord (a b : Nat) : Except ReadError Nat :=
  if a + b ≤ wordMax then .ok (a + b) else .error .overflow

def fitsKeyless (len : Nat) : Bool := len ≤ keylessMax

def rangeOf (value : Str) (offset len : Nat) : Str :=
  let start := min offset value.length
  let fin := min (min (start + len) wordMax) value.length
  (value.take fin).drop start

def clamped (payloadLen offset len : Nat) : Nat := min (payloadLen - offset) len

def cutRange (block : Str) (start len : Nat) : Option Str :=
  if start + len ≤ wordMax then slice block start len else none

/-- Which reads the disk serves, and which buffers the allocator grants. -/
structure Host where
  serves : Nat → Nat → Bool
  grants : Nat → Bool

/-- Room for a read's bytes, made before the read. -/
def Host.buffer (host : Host) (len : Nat) : Except ReadError Unit :=
  if isizeMax < len then .error .capacity
  else if host.grants len then .ok ()
  else .error .memory

variable (decompress : Str → Nat → Option Str)

def decode (codec : Nat) (stored : Str) : Option Str :=
  if codec ≠ lz4Byte ∨ stored.length < logicalPrefix then none
  else
    let logical := fromLe (stored.take logicalPrefix)
    if maxLogical < logical then none
    else
      match decompress (stored.drop logicalPrefix) logical with
      | some out => if out.length = logical then some out else none
      | none => none

def decoded (codec : Nat) (body : Str) : Except ReadError Str :=
  if codec ≠ 0 then
    match decode decompress codec body with
    | some value => .ok value
    | none => .error .corrupt
  else .ok body

/-- A record in its file: its segment's layout, its place, its stored bytes and what follows them. -/
structure StoredRecord where
  layout : RecordLayout
  offset : Nat
  keyLen : Nat
  codec : Nat
  body : Str
  rest : Str
  offset_lt : offset < 2 ^ 32
  keyLen_le : keyLen ≤ maxKeyLen
  body_lt : body.length < 2 ^ 32

namespace StoredRecord

variable (r : StoredRecord) (host : Host) (decompress : Str → Nat → Option Str)

def isKeyless : Bool := r.layout.isKeyless r.body.length

def prefixLen : Nat := r.layout.prefixLen r.keyLen r.body.length

def pread (pos len : Nat) : Except ReadError Str := do
  host.buffer len
  if host.serves pos len then return ((r.body ++ r.rest).drop (pos - (r.offset + r.prefixLen))).take len
  else throw .io

def splitRead (len : Nat) : Except ReadError Str := do
  host.buffer len
  if host.serves r.offset (r.prefixLen + len) then return (r.body ++ r.rest).take len else throw .io

def get :
    Except ReadError Str := do
  let body ← r.splitRead host r.body.length
  decoded decompress r.codec body

def wholeRange (offset len : Nat) : Except ReadError Str := do
  let payload ← r.get host decompress
  return rangeOf payload offset len

end StoredRecord

/-- The spot index's sole candidate: a length class's bound over the record, and whether the slot is
no grave. -/
structure Candidate (r : StoredRecord) where
  bound : Nat
  alone : Bool
  len_le : r.body.length ≤ bound

inductive SpotRead where
  | found (value : Str)
  | newest (value : Str)
  | unsure

inductive SpotRange where
  | found (window : Str)
  | newest (window : Str)
  | unsure

inductive RecordRead where
  | found (window : Str)
  | coded
  | stale

def windowOfValue (value : Str) (offset len : Nat) : Option Str :=
  slice value offset (min (value.length - offset) len)

def spotRangeOf (read : SpotRead) (offset len : Nat) : SpotRange :=
  match read with
  | .found value =>
    match windowOfValue value offset len with
    | some window => .found window
    | none => .unsure
  | .newest value =>
    match windowOfValue value offset len with
    | some window => .newest window
    | none => .unsure
  | .unsure => .unsure

namespace StoredRecord

variable (r : StoredRecord) (host : Host) (decompress : Str → Nat → Option Str)

/-- Settle a lone candidate's keyless record off its own check, or leave it to the footer row. -/
def loneKeyless (body : Str) :
    Option SpotRead :=
  if r.body.length ≤ body.length then
    match decoded decompress r.codec (body.take r.body.length) with
    | .ok value => some (.newest value)
    | .error _ => some .unsure
  else none

def wholeRecord :
    Except ReadError SpotRead := do
  let body ← r.splitRead host r.body.length
  match decoded decompress r.codec body with
  | .ok value => return .found value
  | .error _ => return .unsure

def keylessRange (offset len : Nat) : Except ReadError (Option SpotRange) := do
  if fitsKeyless r.body.length then
    let read ← r.wholeRecord host decompress
    return some (spotRangeOf read offset len)
  else return none

def windowOf (offset len : Nat) : Nat := min (r.body.length - offset) len

/-- A window that came in one span with its record's header. -/
def nearSpotRange (body : Str) (offset len : Nat) : SpotRange :=
  if r.codec ≠ 0 then .unsure
  else if offset + r.windowOf offset len ≤ body.length then
    match cutRange body offset (r.windowOf offset len) with
    | some window => .found window
    | none => .unsure
  else .unsure

/-- A window that came as its own read beside its record's header. -/
def deepSpotRange (window : Str) (offset len : Nat) : SpotRange :=
  if r.codec ≠ 0 then .unsure
  else if r.windowOf offset len ≤ window.length then
    match cutRange window 0 (r.windowOf offset len) with
    | some window => .found window
    | none => .unsure
  else .unsure

/-- The keyed side of a spot read: the caller's own length, before the record's is known. -/
def keyedSpotRange (offset len : Nat) :
    Except ReadError SpotRange := do
  if offset ≤ mergeGap then
    let span ← addWord offset len
    let body ← r.splitRead host span
    return r.nearSpotRange body offset len
  else
    let base ← addWord r.offset r.prefixLen
    let pos ← addWord base offset
    let window ← r.pread host pos len
    return r.deepSpotRange window offset len

def spotRange (candidate : Candidate r) (offset len : Nat) : Except ReadError SpotRange := do
  if r.layout = .keyless then
    if candidate.alone && fitsKeyless candidate.bound then
      let body ← r.splitRead host candidate.bound
      if let some read := r.loneKeyless decompress body then
        return spotRangeOf read offset len
    if let some settled ← r.keylessRange host decompress offset len then
      return settled
  r.keyedSpotRange host offset len

def readWindow (offset len : Nat) :
    Except ReadError (Option Str) := do
  let base ← addWord r.offset r.prefixLen
  let start ← addWord base offset
  let bytes ← r.pread host start len
  return if bytes.length = len then some bytes else none

def frameToRange (window : Str) : RecordRead :=
  if r.codec ≠ 0 then .coded else .found window

def readRange (offset len : Nat) :
    Except ReadError RecordRead := do
  if r.isKeyless then
    let body ← r.splitRead host r.body.length
    if r.codec ≠ 0 then return .coded
    match cutRange body offset len with
    | some window => return .found window
    | none => return .stale
  else if offset ≤ mergeGap then
    let span ← addWord offset len
    let block ← r.splitRead host span
    if block.length = span then
      match cutRange block offset len with
      | some window => return r.frameToRange window
      | none => return .stale
    else return .stale
  else
    let base ← addWord r.offset r.prefixLen
    let pos ← addWord base offset
    let window ← r.pread host pos len
    return if window.length = len then r.frameToRange window else .stale

/-- The checked path of a ranged read: the index's entry gives the stored length, and a column that
declares no codec takes it for the payload's. -/
def mapRange (coded certain : Bool) (offset len : Nat) : Except ReadError Str := do
  let wanted := clamped r.body.length offset len
  if wanted = 0 then
    if coded then r.wholeRange host decompress offset len else return []
  else
    if !coded && certain then
      if let some found ← r.readWindow host offset wanted then
        return found
    match ← r.readRange host offset wanted with
    | .coded => r.wholeRange host decompress offset len
    | .found window => return window
    | .stale => throw .unresolved

def getRange (coded certain : Bool) (candidate : Option (Candidate r)) (offset len : Nat) :
    Except ReadError Str := do
  if let some candidate := candidate then
    match ← r.spotRange host decompress candidate offset len with
    | .found window => return window
    | .newest window => return window
    | .unsure => r.mapRange host decompress coded certain offset len
  else r.mapRange host decompress coded certain offset len

end StoredRecord

theorem rangeOf_eq {value : Str} (h : value.length ≤ wordMax) (offset len : Nat) :
    rangeOf value offset len = (value.drop offset).take len := by
  simp only [rangeOf, drop_take]
  by_cases hin : offset ≤ value.length
  · rw [Nat.min_eq_left hin]
    by_cases hend : offset + len ≤ value.length
    · congr 1
      omega
    · rw [take_of_length_le (by simp; omega), take_of_length_le (by simp; omega)]
  · rw [drop_eq_nil_of_le (by omega), drop_eq_nil_of_le (by omega)]
    simp

theorem windowOfValue_eq {value : Str} (h : value.length ≤ wordMax) (offset len : Nat) :
    windowOfValue value offset len =
      if offset ≤ value.length then some (rangeOf value offset len) else none := by
  simp only [windowOfValue, slice]
  by_cases hin : offset ≤ value.length
  · rw [if_pos (by omega), if_pos hin, rangeOf_eq h, ← take_take, take_of_length_le]
    simp only [length_take, length_drop]
    omega
  · rw [if_neg (by omega), if_neg hin]

theorem take_clamped {body : Str} (h : body.length ≤ wordMax) (rest : Str) (offset len : Nat) :
    ((body ++ rest).drop offset).take (clamped body.length offset len) = rangeOf body offset len := by
  rw [rangeOf_eq h, clamped]
  by_cases hin : offset ≤ body.length
  · rw [drop_append_of_le_length hin, take_append_of_le_length (by simp),
      Nat.min_comm, ← take_take, ← length_drop, take_length]
  · rw [drop_eq_nil_of_le (by omega : body.length ≤ offset)]
    simp [show body.length - offset = 0 by omega]

/-- The disk serves every read that stays inside the record, or inside the keyless ceiling from its
front, and there is room for it. -/
structure ServesRecord (host : Host) (r : StoredRecord) : Prop where
  reads : ∀ pos len, pos + len ≤ r.offset + r.prefixLen + max r.body.length keylessMax → host.serves pos len = true
  room : ∀ len ≤ max r.body.length keylessMax, host.grants len = true

theorem buffer_ok {host : Host} {len : Nat} (hlen : len ≤ isizeMax) (hgrants : host.grants len = true) :
    host.buffer len = .ok () := by
  rw [Host.buffer, if_neg (by omega), if_pos hgrants]

namespace StoredRecord

variable {host : Host} {decompress : Str → Nat → Option Str} {r : StoredRecord}

theorem body_le (r : StoredRecord) : r.body.length ≤ wordMax := by
  have := r.body_lt
  simp only [wordMax]
  omega

theorem reach_le (r : StoredRecord) : r.offset + r.prefixLen + r.body.length ≤ wordMax := by
  have hoffset := r.offset_lt
  have hkey := r.keyLen_le
  have hbody := r.body_lt
  have hfront := r.layout.prefixLen_le r.keyLen r.body.length
  simp only [prefixLen, headerLen, maxKeyLen, wordMax] at *
  omega

theorem decoded_le {payload : Str} (h : decoded decompress r.codec r.body = .ok payload) :
    payload.length ≤ wordMax := by
  simp only [decoded] at h
  split at h
  · split at h
    · rename_i value hvalue
      cases h
      simp only [decode] at hvalue
      split at hvalue
      · cases hvalue
      · split at hvalue
        · cases hvalue
        · rename_i hsmall
          split at hvalue
          · split at hvalue
            · rename_i hlen
              cases hvalue
              simp only [maxLogical, wordMax] at *
              omega
            · cases hvalue
          · cases hvalue
    · cases h
  · cases h
    exact r.body_le

section
variable (hs : ServesRecord host r)
include hs

theorem splitRead_body {len : Nat} (h : len ≤ max r.body.length keylessMax) :
    r.splitRead host len = .ok ((r.body ++ r.rest).take len) := by
  have hbody := r.body_lt
  have hbuffer := buffer_ok (show len ≤ isizeMax by simp only [isizeMax, keylessMax] at *; omega) (hs.room len h)
  simp only [splitRead, hbuffer, hs.reads r.offset (r.prefixLen + len) (by omega), if_true, bind, Except.bind]
  rfl

theorem get_eq :
    r.get host decompress = decoded decompress r.codec r.body := by
  rw [get, splitRead_body hs (Nat.le_max_left _ _), take_left]
  rfl

theorem wholeRange_eq (offset len : Nat) :
    r.wholeRange host decompress offset len =
      (decoded decompress r.codec r.body).map (rangeOf · offset len) := by
  rw [wholeRange, get_eq hs]
  rfl

end

theorem decoded_raw (h : r.codec = 0) : decoded decompress r.codec r.body = .ok r.body := by
  simp [decoded, h]

theorem addWord_ok {a b : Nat} (h : a + b ≤ wordMax) : addWord a b = .ok (a + b) := if_pos h

theorem length_window {offset len : Nat} (h : offset + len ≤ r.body.length) :
    (((r.body ++ r.rest).drop offset).take len).length = len := by
  simp only [length_take, length_drop, length_append]
  omega

section
variable (hs : ServesRecord host r) {offset len : Nat} (h : offset + len ≤ r.body.length)
include hs h

theorem pread_window :
    r.pread host (r.offset + r.prefixLen + offset) len =
      .ok (((r.body ++ r.rest).drop offset).take len) := by
  have hbody := r.body_lt
  have hbuffer := buffer_ok (show len ≤ isizeMax by simp only [isizeMax]; omega) (hs.room len (by omega))
  simp only [pread, hbuffer, hs.reads (r.offset + r.prefixLen + offset) len (by omega), if_true, bind, Except.bind,
    Nat.add_sub_cancel_left]
  rfl

theorem readWindow_eq :
    r.readWindow host offset len = .ok (some (((r.body ++ r.rest).drop offset).take len)) := by
  have hreach := r.reach_le
  rw [readWindow, addWord_ok (by omega)]
  show (addWord (r.offset + r.prefixLen) offset >>= _) = _
  rw [addWord_ok (by omega)]
  show (r.pread host (r.offset + r.prefixLen + offset) len >>= _) = _
  rw [pread_window hs h]
  show Except.ok _ = _
  rw [if_pos (length_window h)]

end

theorem cutRange_front {offset len fin : Nat} (h : offset + len ≤ r.body.length)
    (hfin : offset + len ≤ fin) :
    cutRange ((r.body ++ r.rest).take fin) offset len =
      some (((r.body ++ r.rest).drop offset).take len) := by
  have hbody := r.body_le
  rw [cutRange, if_pos (by omega), slice, if_pos (by simp; omega), drop_take, take_take,
    Nat.min_eq_left (by omega)]

theorem readRange_eq (hs : ServesRecord host r) {offset len : Nat} (h : offset + len ≤ r.body.length) :
    r.readRange host offset len =
      .ok (r.frameToRange (((r.body ++ r.rest).drop offset).take len)) := by
  have hreach := r.reach_le
  have hbody := r.body_le
  by_cases hkeyless : r.isKeyless = true
  · rw [readRange, if_pos hkeyless, splitRead_body hs (Nat.le_max_left _ _)]
    show (if r.codec ≠ 0 then _ else _) = _
    rw [cutRange_front h h, frameToRange]
    split <;> rfl
  · rw [readRange, if_neg hkeyless]
    by_cases hnear : offset ≤ mergeGap
    · rw [if_pos hnear, addWord_ok (by omega)]
      show (r.splitRead host (offset + len) >>= _) = _
      rw [splitRead_body hs (by omega)]
      show (if _ then _ else _) = _
      rw [if_pos (by simp; omega), cutRange_front h (le_refl _)]
      rfl
    · rw [if_neg hnear, addWord_ok (by omega)]
      show (addWord (r.offset + r.prefixLen) offset >>= _) = _
      rw [addWord_ok (by omega)]
      show (r.pread host (r.offset + r.prefixLen + offset) len >>= _) = _
      rw [pread_window hs h]
      show Except.ok _ = _
      rw [if_pos (length_window h)]

/-- Where the checked path answers from a whole read. Elsewhere it takes the stored bytes for the
payload. -/
def ReadsWhole (r : StoredRecord) (coded certain : Bool) (offset len : Nat) : Prop :=
  coded = true ∨ r.codec = 0 ∨ certain = false ∧ clamped r.body.length offset len ≠ 0

instance (r : StoredRecord) (coded certain : Bool) (offset len : Nat) :
    Decidable (r.ReadsWhole coded certain offset len) :=
  inferInstanceAs (Decidable (_ ∨ _ ∨ _ ∧ _))

theorem mapRange_eq (hs : ServesRecord host r) (coded certain : Bool) (offset len : Nat) :
    r.mapRange host decompress coded certain offset len =
      if r.ReadsWhole coded certain offset len then r.wholeRange host decompress offset len
      else .ok (rangeOf r.body offset len) := by
  have hwindow := take_clamped r.body_le r.rest offset len
  have hraw : r.codec = 0 → r.wholeRange host decompress offset len = .ok (rangeOf r.body offset len) := by
    intro h
    rw [wholeRange_eq hs, decoded_raw h]
    rfl
  by_cases hwanted : clamped r.body.length offset len = 0
  · rw [hwanted, take_zero] at hwindow
    simp only [mapRange, ReadsWhole, hwanted, ne_eq, not_true_eq_false, and_false, or_false]
    cases coded with
    | true => simp
    | false =>
      by_cases hcodec : r.codec = 0
      · simp [hcodec, hraw hcodec, hwindow, pure, Except.pure]
      · simp [hcodec, hwindow, pure, Except.pure]
  · have hin : offset + clamped r.body.length offset len ≤ r.body.length := by
      simp only [clamped] at *
      omega
    simp only [mapRange, if_neg hwanted, readWindow_eq hs hin, readRange_eq hs hin, hwindow, ReadsWhole,
      frameToRange]
    by_cases hcodec : r.codec = 0
    · cases coded <;> cases certain <;> simp [hcodec, hraw hcodec, bind, Except.bind, pure, Except.pure]
    · cases coded <;> cases certain <;> simp [hcodec, hwanted, bind, Except.bind, pure, Except.pure]

/-- What a spot candidate's whole keyless record settles: the cut of its payload, or nothing where
the window starts past it. -/
theorem spotRange_keyless (hs : ServesRecord host r) (hkeyless : r.isKeyless = true)
    (decompress : Str → Nat → Option Str) (candidate : Candidate r) (offset len : Nat) :
    (∃ payload, decoded decompress r.codec r.body = .ok payload ∧ offset ≤ payload.length ∧
      (r.spotRange host decompress candidate offset len = .ok (.found (rangeOf payload offset len)) ∨
        r.spotRange host decompress candidate offset len = .ok (.newest (rangeOf payload offset len)))) ∨
    (∀ payload, decoded decompress r.codec r.body = .ok payload → payload.length < offset) ∧
      r.spotRange host decompress candidate offset len = .ok .unsure := by
  obtain ⟨hlayout, hfits⟩ : r.layout = .keyless ∧ r.body.length ≤ keylessMax := by
    simpa [isKeyless, RecordLayout.isKeyless] using hkeyless
  have hlen := candidate.len_le
  -- one read settles a lone candidate, and a footer row's length another
  have hread : r.spotRange host decompress candidate offset len =
      .ok ((decoded decompress r.codec r.body).toOption.elim .unsure fun value => spotRangeOf
        (if candidate.alone && fitsKeyless candidate.bound then .newest value else .found value) offset len) := by
    rw [spotRange, if_pos hlayout]
    by_cases hlone : (candidate.alone && fitsKeyless candidate.bound) = true
    · have hbound : candidate.bound ≤ keylessMax := by
        simp only [Bool.and_eq_true, fitsKeyless, decide_eq_true_eq] at hlone
        exact hlone.2
      rw [if_pos hlone, splitRead_body hs (by omega)]
      have htake : ((r.body ++ r.rest).take candidate.bound).take r.body.length = r.body := by
        rw [take_take, Nat.min_eq_left hlen, take_left]
      simp only [bind, Except.bind, loneKeyless, htake]
      rw [if_pos (by simp; omega)]
      cases decoded decompress r.codec r.body <;> simp [hlone, spotRangeOf, pure, Except.pure, Except.toOption]
    · rw [if_neg hlone]
      have hrow : fitsKeyless r.body.length = true := decide_eq_true hfits
      simp only [keylessRange, hrow, if_true, wholeRecord, splitRead_body hs (Nat.le_max_left _ _),
        take_left, bind, Except.bind, pure, Except.pure]
      cases decoded decompress r.codec r.body <;> simp [hlone, spotRangeOf, Except.toOption]
  cases hdecoded : decoded decompress r.codec r.body with
  | error e =>
    refine .inr ⟨?_, by rw [hread, hdecoded]; rfl⟩
    intro payload hpayload
    cases hpayload
  | ok payload =>
    have hcut := windowOfValue_eq (decoded_le hdecoded) offset len
    rw [hread, hdecoded]
    by_cases hin : offset ≤ payload.length
    · rw [if_pos hin] at hcut
      refine .inl ⟨payload, rfl, hin, ?_⟩
      cases candidate.alone && fitsKeyless candidate.bound <;> simp [spotRangeOf, hcut, Except.toOption]
    · rw [if_neg hin] at hcut
      refine .inr ⟨?_, ?_⟩
      · rintro _ ⟨⟩
        omega
      · cases candidate.alone && fitsKeyless candidate.bound <;> simp [spotRangeOf, hcut, Except.toOption]

theorem spotRange_keyed (hkeyed : r.isKeyless = false) (candidate : Candidate r) (offset len : Nat) :
    r.spotRange host decompress candidate offset len = r.keyedSpotRange host offset len := by
  have hlen := candidate.len_le
  rw [spotRange]
  split
  · rename_i hlayout
    have hwide : fitsKeyless r.body.length = false := by
      simpa [isKeyless, RecordLayout.isKeyless, hlayout, fitsKeyless] using hkeyed
    have hbound : fitsKeyless candidate.bound = false := by
      simp only [fitsKeyless, decide_eq_false_iff_not, not_le] at *
      omega
    simp only [hbound, Bool.and_false, Bool.false_eq_true, if_false, keylessRange, hwide]
    rfl
  · rfl

/-- The caller's own window, asked for before the record's length is known: it stays inside a 64 bit
position, there is a buffer for it, and the disk serves it. -/
def AskedWindow (r : StoredRecord) (host : Host) (offset len : Nat) : Prop :=
  if offset ≤ mergeGap then
    offset + len ≤ isizeMax ∧ host.grants (offset + len) = true ∧
      host.serves r.offset (r.prefixLen + (offset + len)) = true
  else
    r.offset + r.prefixLen + offset ≤ wordMax ∧ len ≤ isizeMax ∧ host.grants len = true ∧
      host.serves (r.offset + r.prefixLen + offset) len = true

theorem windowOf_eq (offset len : Nat) : r.windowOf offset len = clamped r.body.length offset len := rfl

theorem nearSpotRange_eq {fin offset len : Nat} (hfin : offset + len ≤ fin) (hword : offset + len ≤ wordMax) :
    r.nearSpotRange ((r.body ++ r.rest).take fin) offset len = .unsure ∨
      r.codec = 0 ∧ r.nearSpotRange ((r.body ++ r.rest).take fin) offset len =
        .found (rangeOf r.body offset len) := by
  have hwindow := take_clamped r.body_le r.rest offset len
  have hle : clamped r.body.length offset len ≤ len := Nat.min_le_right _ _
  by_cases hcodec : r.codec = 0
  · rw [nearSpotRange, if_neg (by simp [hcodec]), windowOf_eq]
    by_cases hread : offset + clamped r.body.length offset len ≤ ((r.body ++ r.rest).take fin).length
    · rw [if_pos hread, cutRange, if_pos (by omega), slice, if_pos hread, drop_take, take_take,
        Nat.min_eq_left (by omega), hwindow]
      exact .inr ⟨hcodec, rfl⟩
    · exact .inl (if_neg hread)
  · exact .inl (if_pos hcodec)

theorem deepSpotRange_eq (offset len : Nat) :
    r.deepSpotRange (((r.body ++ r.rest).drop offset).take len) offset len = .unsure ∨
      r.codec = 0 ∧ r.deepSpotRange (((r.body ++ r.rest).drop offset).take len) offset len =
        .found (rangeOf r.body offset len) := by
  have hwindow := take_clamped r.body_le r.rest offset len
  have hbody := r.body_le
  have hle : clamped r.body.length offset len ≤ len := Nat.min_le_right _ _
  have hshort : clamped r.body.length offset len ≤ r.body.length := by
    simp only [clamped]
    omega
  by_cases hcodec : r.codec = 0
  · rw [deepSpotRange, if_neg (by simp [hcodec]), windowOf_eq]
    by_cases hread : clamped r.body.length offset len ≤ (((r.body ++ r.rest).drop offset).take len).length
    · rw [if_pos hread, cutRange, if_pos (by omega), slice, if_pos (by omega), drop_zero,
        take_take, Nat.min_eq_left hle, hwindow]
      exact .inr ⟨hcodec, rfl⟩
    · exact .inl (if_neg hread)
  · exact .inl (if_pos hcodec)

theorem addWord_overflow {a b : Nat} (h : ¬ a + b ≤ wordMax) : addWord a b = .error .overflow := if_neg h

theorem keyedSpotRange_asked {offset len : Nat} (h : r.AskedWindow host offset len) :
    r.keyedSpotRange host offset len = .ok .unsure ∨
      r.codec = 0 ∧ r.keyedSpotRange host offset len = .ok (.found (rangeOf r.body offset len)) := by
  simp only [AskedWindow] at h
  by_cases hnear : offset ≤ mergeGap
  · rw [if_pos hnear] at h
    obtain ⟨hlen, hgrants, hserves⟩ := h
    have hword : offset + len ≤ wordMax := by
      simp only [isizeMax, wordMax] at *
      omega
    have hread : r.keyedSpotRange host offset len =
        .ok (r.nearSpotRange ((r.body ++ r.rest).take (offset + len)) offset len) := by
      simp only [keyedSpotRange, if_pos hnear, addWord_ok hword, splitRead, buffer_ok hlen hgrants, hserves, if_true,
        bind, Except.bind, pure, Except.pure]
    rw [hread]
    refine (nearSpotRange_eq (le_refl _) hword).imp (congrArg _) fun hraw => ⟨hraw.1, congrArg _ hraw.2⟩
  · rw [if_neg hnear] at h
    obtain ⟨hpos, hlen, hgrants, hserves⟩ := h
    have hread : r.keyedSpotRange host offset len =
        .ok (r.deepSpotRange (((r.body ++ r.rest).drop offset).take len) offset len) := by
      simp only [keyedSpotRange, if_neg hnear, addWord_ok (show r.offset + r.prefixLen ≤ wordMax by omega),
        addWord_ok hpos, pread, buffer_ok hlen hgrants, hserves, if_true, Nat.add_sub_cancel_left, bind, Except.bind,
        pure, Except.pure]
    rw [hread]
    refine (deepSpotRange_eq offset len).imp (congrArg _) fun hraw => ⟨hraw.1, congrArg _ hraw.2⟩

/-- A window that cannot be asked for fails as no whole read does. -/
theorem keyedSpotRange_unasked {offset len : Nat} (h : ¬ r.AskedWindow host offset len) :
    ∃ e, e ≠ .corrupt ∧ r.keyedSpotRange host offset len = .error e := by
  have hreach := r.reach_le
  have hbuffer : ∀ n, (∃ e, e ≠ .corrupt ∧ host.buffer n = .error e) ∨
      host.buffer n = .ok () ∧ n ≤ isizeMax ∧ host.grants n = true := by
    intro n
    unfold Host.buffer
    split
    · exact .inl ⟨_, by decide, rfl⟩
    · split
      · exact .inr ⟨rfl, by omega, by assumption⟩
      · exact .inl ⟨_, by decide, rfl⟩
  simp only [AskedWindow] at h
  by_cases hnear : offset ≤ mergeGap
  · rw [if_pos hnear] at h
    by_cases hword : offset + len ≤ wordMax
    · rcases hbuffer (offset + len) with ⟨e, hne, he⟩ | ⟨hok, hlen, hgrants⟩
      · refine ⟨e, hne, ?_⟩
        simp only [keyedSpotRange, if_pos hnear, addWord_ok hword, splitRead, he, bind, Except.bind]
      · refine ⟨.io, by decide, ?_⟩
        have hrefused : ¬ host.serves r.offset (r.prefixLen + (offset + len)) = true :=
          fun hserves => h ⟨hlen, hgrants, hserves⟩
        simp only [keyedSpotRange, if_pos hnear, addWord_ok hword, splitRead, hok, if_neg hrefused, bind, Except.bind]
        rfl
    · refine ⟨.overflow, by decide, ?_⟩
      simp only [keyedSpotRange, if_pos hnear, addWord_overflow hword, bind, Except.bind]
  · rw [if_neg hnear] at h
    have hbase := addWord_ok (show r.offset + r.prefixLen ≤ wordMax by omega)
    by_cases hword : r.offset + r.prefixLen + offset ≤ wordMax
    · rcases hbuffer len with ⟨e, hne, he⟩ | ⟨hok, hlen, hgrants⟩
      · refine ⟨e, hne, ?_⟩
        simp only [keyedSpotRange, if_neg hnear, hbase, addWord_ok hword, pread, he, bind, Except.bind]
      · refine ⟨.io, by decide, ?_⟩
        have hrefused : ¬ host.serves (r.offset + r.prefixLen + offset) len = true :=
          fun hserves => h ⟨hword, hlen, hgrants, hserves⟩
        simp only [keyedSpotRange, if_neg hnear, hbase, addWord_ok hword, pread, hok, if_neg hrefused, bind,
          Except.bind]
        rfl
    · refine ⟨.overflow, by decide, ?_⟩
      simp only [keyedSpotRange, if_neg hnear, hbase, addWord_overflow hword, bind, Except.bind]

/-- Where a ranged read is the cut of a whole one. Off the spot index the checked path has to read the
record whole, and a keyed record's window there has to be one the host can be asked for. -/
def CutExact (r : StoredRecord) (host : Host) (decompress : Str → Nat → Option Str)
    (coded certain : Bool) (candidate : Option (Candidate r)) (offset len : Nat) : Prop :=
  match candidate with
  | none => r.ReadsWhole coded certain offset len
  | some _ =>
    if r.isKeyless then
      (∃ payload, decoded decompress r.codec r.body = .ok payload ∧ offset ≤ payload.length) ∨
        r.ReadsWhole coded certain offset len
    else r.AskedWindow host offset len ∧ r.ReadsWhole coded certain offset len

/-- What is answered otherwise: a fault of the window asked for, or a coded record's stored bytes. -/
def CutOfStored (r : StoredRecord) (answer : Except ReadError Str) (coded : Bool) (offset len : Nat) : Prop :=
  (∃ e, e ≠ .corrupt ∧ answer = .error e) ∨
    r.codec ≠ 0 ∧ coded = false ∧ answer = .ok (rangeOf r.body offset len)

theorem mapRange_cut (hs : ServesRecord host r) (decompress : Str → Nat → Option Str) (coded certain : Bool)
    (offset len : Nat) :
    (r.ReadsWhole coded certain offset len → r.mapRange host decompress coded certain offset len =
      (decoded decompress r.codec r.body).map (rangeOf · offset len)) ∧
    (¬ r.ReadsWhole coded certain offset len →
      r.CutOfStored (r.mapRange host decompress coded certain offset len) coded offset len) := by
  rw [mapRange_eq hs]
  refine ⟨fun hwhole => by rw [if_pos hwhole, wholeRange_eq hs], fun hwhole => ?_⟩
  rw [if_neg hwhole]
  simp only [ReadsWhole, not_or] at hwhole
  exact .inr ⟨hwhole.2.1, by simpa using hwhole.1, rfl⟩

theorem getRange_spot {candidate : Candidate r} {coded certain : Bool} {offset len : Nat} :
    r.getRange host decompress coded certain (some candidate) offset len =
      match r.spotRange host decompress candidate offset len with
      | .ok (.found window) => .ok window
      | .ok (.newest window) => .ok window
      | .ok .unsure => r.mapRange host decompress coded certain offset len
      | .error e => .error e := by
  simp only [getRange, bind, Except.bind]
  cases r.spotRange host decompress candidate offset len with
  | error e => rfl
  | ok answer => cases answer <;> rfl

/-- A ranged read of a stored record is the cut of a whole read, with every addition inside its word,
where the window asked for by the spot index can be asked for and the column still declares a codec for a
coded record. Elsewhere it fails as no whole read does, or it cuts the stored bytes. -/
theorem getRange_cut (host : Host) (decompress : Str → Nat → Option Str)
    (r : StoredRecord) (hs : ServesRecord host r) (coded certain : Bool)
    (candidate : Option (Candidate r)) (offset len : UInt64) :
    (r.CutExact host decompress coded certain candidate offset.toNat len.toNat →
      r.getRange host decompress coded certain candidate offset.toNat len.toNat =
        (r.get host decompress).map (rangeOf · offset.toNat len.toNat)) ∧
    (¬ r.CutExact host decompress coded certain candidate offset.toNat len.toNat →
      r.CutOfStored (r.getRange host decompress coded certain candidate offset.toNat len.toNat) coded
        offset.toNat len.toNat) := by
  generalize offset.toNat = offset
  generalize len.toNat = len
  rw [get_eq hs]
  have hmap := mapRange_cut hs decompress coded certain offset len
  cases candidate with
  | none => exact hmap
  | some candidate =>
    rw [getRange_spot]
    simp only [CutExact]
    by_cases hkeyless : r.isKeyless = true
    · rw [if_pos hkeyless]
      rcases spotRange_keyless hs hkeyless decompress candidate offset len with
        ⟨payload, hdecoded, hin, hfound | hfound⟩ | ⟨hpast, hunsure⟩
      · rw [hfound, hdecoded]
        exact ⟨fun _ => rfl, fun hout => absurd (.inl ⟨payload, rfl, hin⟩) hout⟩
      · rw [hfound, hdecoded]
        exact ⟨fun _ => rfl, fun hout => absurd (.inl ⟨payload, rfl, hin⟩) hout⟩
      · rw [hunsure]
        refine ⟨fun hout => hmap.1 (hout.resolve_left ?_), fun hout => hmap.2 fun hwhole => hout (.inr hwhole)⟩
        rintro ⟨payload, hdecoded, hin⟩
        have := hpast payload hdecoded
        omega
    · rw [if_neg hkeyless, spotRange_keyed (by simpa using hkeyless)]
      by_cases hasked : r.AskedWindow host offset len
      · rcases keyedSpotRange_asked hasked with hunsure | ⟨hcodec, hfound⟩
        · rw [hunsure]
          exact ⟨fun hout => hmap.1 hout.2, fun hout => hmap.2 fun hwhole => hout ⟨hasked, hwhole⟩⟩
        · rw [hfound, decoded_raw hcodec]
          exact ⟨fun _ => rfl, fun hout => absurd ⟨hasked, .inr (.inl hcodec)⟩ hout⟩
      · obtain ⟨e, hne, he⟩ := keyedSpotRange_unasked hasked
        rw [he]
        exact ⟨fun hout => absurd hout.1 hasked, fun _ => .inl ⟨e, hne, rfl⟩⟩

/-- A raw record of three bytes behind a two byte key, with another record's bytes after it. -/
def rawRecord : StoredRecord where
  layout := .keyed
  offset := 0
  keyLen := 2
  codec := 0
  body := [7, 8, 9]
  rest := [1, 1]
  offset_lt := by decide
  keyLen_le := by decide
  body_lt := by decide

/-- A record whose 256 equal bytes were coded down to seven. -/
def codedRecord : StoredRecord where
  layout := .keyed
  offset := 0
  keyLen := 2
  codec := lz4Byte
  body := toLe 4 256 ++ [31, 7, 0]
  rest := [1, 1]
  offset_lt := by decide
  keyLen_le := by decide
  body_lt := by decide

def sevens : Str → Nat → Option Str := fun _ logical => some (replicate logical 7)

def wholeHost : Host := ⟨fun _ _ => true, fun _ => true⟩

theorem wholeHost_serves (r : StoredRecord) : ServesRecord wholeHost r := ⟨fun _ _ _ => rfl, fun _ _ => rfl⟩

theorem getRange_cuts_raw_record :
    rawRecord.getRange wholeHost sevens false true (some ⟨3, true, le_refl _⟩) 1 1 =
        (rawRecord.get wholeHost sevens).map (rangeOf · 1 1) ∧
      rawRecord.get wholeHost sevens = .ok [7, 8, 9] :=
  ⟨(getRange_cut wholeHost sevens rawRecord (wholeHost_serves _) false true
    (some ⟨3, true, le_refl _⟩) 1 1).1 ⟨⟨by decide, rfl, rfl⟩, .inr (.inl rfl)⟩, rfl⟩

/-- A length up to the word's end leaves the word in the near read of a spot candidate, an offset up to
it in the deep one, a length of half the word asks for no buffer there is, and a coded record answers with
its stored bytes, or with none, once its column declares no codec. -/
theorem getRange_leaves_the_cut :
    rawRecord.getRange wholeHost sevens false true (some ⟨3, true, le_refl _⟩) 1 wordMax = .error .overflow ∧
      rawRecord.getRange wholeHost sevens false true (some ⟨3, true, le_refl _⟩) wordMax 1 = .error .overflow ∧
      rawRecord.getRange wholeHost sevens false true (some ⟨3, true, le_refl _⟩) 0 (2 ^ 63) = .error .capacity ∧
      (codedRecord.get wholeHost sevens).map (rangeOf · 0 2) = .ok [7, 7] ∧
      codedRecord.getRange wholeHost sevens false true none 0 2 = .ok [0, 1] ∧
      (codedRecord.get wholeHost sevens).map (rangeOf · 7 1) = .ok [7] ∧
      codedRecord.getRange wholeHost sevens false true none 7 1 = .ok [] := by
  refine ⟨rfl, rfl, rfl, ?_, rfl, ?_, rfl⟩ <;> decide +kernel

end StoredRecord

end Reel.RangeRead
