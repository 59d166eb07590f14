import Reel.Format.Frame

/-!
Payload compression, applied when a put is admitted and undone when it is read. The block coder is a parameter:
what it is relied on for is that it inverts its own compression.
-/

set_option autoImplicit false

namespace Reel
open Bytes List

def logicalPrefix : Nat := 4

def minAttempt : Nat := 256

def maxLogical : Nat := 2 ^ 30

/-- A block coder writing into buffers of a given room, each answer the bytes it wrote. -/
structure Lz4 where
  maximumOutputSize : Nat → Nat
  compressInto : Str → Nat → Option Str
  decompressInto : Str → Nat → Option Str
  inverts : ∀ {payload block : Str} {room : Nat}, compressInto payload room = some block →
    ∀ wide, payload.length ≤ wide → decompressInto block wide = some payload

def worthKeeping (logical stored : Nat) : Bool := stored ≤ logical - logical / 8

/-- Compress a payload when the column asks: the bytes to store and the codec byte. -/
def admitPayload (lz4 : Lz4) (codec : Codec) (payload : Str) : Str × Byte :=
  if codec ≠ .lz4 ∨ payload.length < minAttempt then (payload, 0) else
  let logical := payload.length
  match lz4.compressInto payload (lz4.maximumOutputSize logical) with
  | none => (payload, 0)
  | some block =>
    if worthKeeping logical (logicalPrefix + block.length) then
      -- the length goes down as 32 bits, whatever it is
      (toLe logicalPrefix logical ++ block, Codec.lz4.asByte)
    else (payload, 0)

def decode (lz4 : Lz4) (codecByte : Byte) (stored : Str) : Option Str :=
  if codecByte ≠ Codec.lz4.asByte ∨ stored.length < logicalPrefix then none else
  let logical := fromLe (stored.take logicalPrefix)
  if maxLogical < logical then none else
  match lz4.decompressInto (stored.drop logicalPrefix) logical with
  | some out => if out.length = logical then some out else none
  | none => none

variable (lz4 : Lz4)

/-- The coder takes an eighth or more off the payload. -/
def Lz4.Shrinks (payload : Str) : Prop :=
  ∃ block, lz4.compressInto payload (lz4.maximumOutputSize payload.length) = some block ∧
    worthKeeping payload.length (logicalPrefix + block.length)

/-- What is stored compressed reads back as the payload. -/
def RoundTrips (codec : Codec) (payload : Str) : Prop :=
  ∀ stored codecByte, admitPayload lz4 codec payload = (stored, codecByte) → codecByte ≠ 0 →
    decode lz4 codecByte stored = some payload

/-- The three tests a payload passes to be stored compressed, and what is stored of it then. -/
theorem admit_compressed_iff {codec : Codec} {payload stored : Str} {codecByte : Byte} (hbyte : codecByte ≠ 0) :
    admitPayload lz4 codec payload = (stored, codecByte) ↔ codec = .lz4 ∧ minAttempt ≤ payload.length ∧
      ∃ block, lz4.compressInto payload (lz4.maximumOutputSize payload.length) = some block ∧
        worthKeeping payload.length (logicalPrefix + block.length) ∧
        stored = toLe logicalPrefix payload.length ++ block ∧ codecByte = Codec.lz4.asByte := by
  have hraw : ∀ raw : Str, (raw, (0 : Byte)) ≠ (stored, codecByte) := by
    intro raw heq
    exact hbyte (Prod.ext_iff.mp heq).2.symm
  unfold admitPayload
  split
  · next hskip =>
    refine iff_of_false (hraw payload) ?_
    rintro ⟨hcodec, hlen, -⟩
    rcases hskip with hskip | hskip
    · exact hskip hcodec
    · omega
  · next htry =>
    obtain ⟨hcodec, hlen⟩ := not_or.mp htry
    have hcodec := not_not.mp hcodec
    cases hblock : lz4.compressInto payload (lz4.maximumOutputSize payload.length) with
    | none =>
      simp only [hblock]
      refine iff_of_false (hraw payload) ?_
      rintro ⟨-, -, block, hnone, -⟩
      cases hnone
    | some block =>
      simp only [hblock]
      split
      · next hworth =>
        constructor
        · intro heq
          obtain ⟨hstored, hbyte⟩ := Prod.ext_iff.mp heq
          exact ⟨hcodec, not_lt.mp hlen, block, rfl, hworth, hstored.symm, hbyte.symm⟩
        · rintro ⟨-, -, _, hsame, -, rfl, rfl⟩
          cases hsame
          rfl
      · next hworth =>
        refine iff_of_false (hraw payload) ?_
        rintro ⟨-, -, _, hsame, hkept, -⟩
        cases hsame
        exact hworth hkept

theorem admit_raw {codec : Codec} {payload stored : Str} (h : admitPayload lz4 codec payload = (stored, 0)) :
    stored = payload := by
  unfold admitPayload at h
  split at h
  · exact (Prod.ext_iff.mp h).1.symm
  · dsimp only at h
    split at h
    · exact (Prod.ext_iff.mp h).1.symm
    · split at h
      · have hcoded : Codec.lz4.asByte = 0 := (Prod.ext_iff.mp h).2
        exact absurd hcoded (by decide)
      · exact (Prod.ext_iff.mp h).1.symm

theorem decode_length {codecByte : Byte} {stored out : Str} (h : decode lz4 codecByte stored = some out) :
    out.length = fromLe (stored.take logicalPrefix) ∧ out.length ≤ maxLogical := by
  unfold decode at h
  split at h
  · cases h
  · dsimp only at h
    split at h
    · cases h
    · next hlogical =>
      split at h
      · split at h
        · next hlen =>
          cases h
          exact ⟨hlen, by omega⟩
        · cases h
      · cases h

theorem decode_admitted {payload block : Str} {room : Nat} (hblock : lz4.compressInto payload room = some block)
    (hlen : payload.length ≤ maxLogical) :
    decode lz4 Codec.lz4.asByte (toLe logicalPrefix payload.length ++ block) = some payload := by
  have hfits : payload.length < 256 ^ logicalPrefix := lt_of_le_of_lt hlen (by decide)
  have hread : fromLe ((toLe logicalPrefix payload.length ++ block).take logicalPrefix) = payload.length := by
    rw [take_left' (toLe_length _ _), fromLe_toLe hfits]
  have hdrop : (toLe logicalPrefix payload.length ++ block).drop logicalPrefix = block :=
    drop_left' (toLe_length _ _)
  have hback := lz4.inverts hblock payload.length le_rfl
  have hwide : ¬ (Codec.lz4.asByte ≠ Codec.lz4.asByte ∨
      (toLe logicalPrefix payload.length ++ block).length < logicalPrefix) := by
    simp
  simp only [decode, if_neg hwide, hread, hdrop, if_neg (not_lt.mpr hlen), hback, if_true]

theorem not_roundTrips {payload : Str} (hlen : maxLogical < payload.length) (hshrinks : lz4.Shrinks payload) :
    ¬ RoundTrips lz4 .lz4 payload := by
  obtain ⟨block, hblock, hworth⟩ := hshrinks
  have hattempt : minAttempt ≤ payload.length := le_trans (by decide) hlen.le
  have hkept := (admit_compressed_iff lz4 (by decide)).mpr ⟨rfl, hattempt, block, hblock, hworth, rfl, rfl⟩
  intro hround
  have := (decode_length lz4 (hround _ _ hkept (by decide))).2
  omega

theorem roundTrips_iff (codec : Codec) (payload : Str) :
    RoundTrips lz4 codec payload ↔ codec ≠ .lz4 ∨ payload.length ≤ maxLogical ∨ ¬ lz4.Shrinks payload := by
  refine ⟨fun hround => ?_, fun hcond => ?_⟩
  · by_contra hnot
    push Not at hnot
    obtain ⟨rfl, hlen, hshrinks⟩ := hnot
    exact not_roundTrips lz4 hlen hshrinks hround
  · intro stored codecByte hkept hbyte
    obtain ⟨rfl, -, block, hblock, hworth, rfl, rfl⟩ := (admit_compressed_iff lz4 hbyte).mp hkept
    rcases hcond with hcodec | hlen | hshrinks
    · exact absurd rfl hcodec
    · exact decode_admitted lz4 hblock hlen
    · exact absurd ⟨block, hblock, hworth⟩ hshrinks

/-- A payload stored compressed reads back exactly when it is no longer than the decoder's limit; whatever decodes
has the length its prefix declares. -/
theorem admitted_payload_reads_back_iff :
    (∀ codec payload, RoundTrips lz4 codec payload ↔
      codec ≠ .lz4 ∨ payload.length ≤ maxLogical ∨ ¬ lz4.Shrinks payload) ∧
    ∀ codecByte stored out, decode lz4 codecByte stored = some out →
      out.length = fromLe (stored.take logicalPrefix) :=
  ⟨roundTrips_iff lz4, fun _ _ _ h => (decode_length lz4 h).1⟩

/-- A coder of runs of zeros, each written as its length in eight bytes. -/
def zeroRuns : Lz4 where
  maximumOutputSize := id
  compressInto payload room :=
    if payload = replicate payload.length 0 ∧ payload.length < 256 ^ 8 ∧ 8 ≤ room then
      some (toLe 8 payload.length)
    else none
  decompressInto block room := if fromLe block ≤ room then some (replicate (fromLe block) 0) else none
  inverts := by
    intro payload block room hblock wide hwide
    split at hblock
    · next hrun =>
      cases hblock
      rw [fromLe_toLe hrun.2.1, if_pos hwide, ← hrun.1]
    · cases hblock

/-- A run of zeros one byte past the limit is stored in twelve bytes and does not decode. -/
theorem long_run_of_zeros_is_lost : ¬ RoundTrips zeroRuns .lz4 (replicate (maxLogical + 1) 0) := by
  have hlen : (replicate (maxLogical + 1) (0 : Byte)).length = maxLogical + 1 := length_replicate
  refine not_roundTrips zeroRuns (by rw [hlen]; exact Nat.lt_succ_self _) ⟨toLe 8 (maxLogical + 1), ?_, ?_⟩
  · simp only [zeroRuns, hlen, id]
    rw [if_pos ⟨trivial, by decide, by decide⟩]
  · rw [hlen, toLe_length]
    decide

end Reel
