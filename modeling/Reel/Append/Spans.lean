import Reel.Append.Tail
import Reel.Library.Stretches

/-!
The room a tail's records take: reservations lie one behind another from the segment's header on, what is written lies
in them exactly where no length wraps, and the encoder, the claim, the index and the admission give a record one length.
-/

set_option autoImplicit false

namespace Reel
open Bytes Stretches List Option RecordHeader

/-- What the admission counts for a record. -/
def framedBytes (key : RecordKey) (payloadLen : Nat) : Nat :=
  RecordLayout.keyless.prefixLen key.key.bytes.length (payloadLen % 2 ^ 32) + payloadLen

section Measure
variable (checksum : Str → UInt32) (sip : Str → Str → UInt64) (check : CheckKey) (key : RecordKey)
  (lsn : UInt64) (flags : Flags) (codec : Byte) (payload : Str)

/-- A record is written, claimed, indexed and admitted at one length. -/
def Measured : Prop :=
  let header := RecordHeader.framed checksum .keyless (UInt32.ofNat payload.length) lsn flags key codec payload
  let written := (header.recordBytes checksum sip (.keyless check) payload).length
  written = header.spanIn .keyless ∧ written = spanOf key.key.bytes.length header.length.toNat ∧
    written = framedBytes key payload.length

/-- A record's header carries its kind, its key and its length as far as a word goes. -/
structure Carries (header : RecordHeader) : Prop where
  length : header.length.toNat = payload.length % 2 ^ 32
  flags : header.flags = flags
  key : header.key = key

theorem carries_framed : Carries key flags payload
    (RecordHeader.framed checksum .keyless (UInt32.ofNat payload.length) lsn flags key codec payload) := by
  rw [RecordHeader.framed]
  split <;> exact ⟨by simp [newCoded], rfl, rfl⟩

variable {key flags payload} {header : RecordHeader} (h : Carries key flags payload header)
  (hkind : flags.isControl = false)
  (hcarried : (flags.isData || flags.isSegmentHeader || flags.isRangeTombstone) = true ∨ payload = [])

include h hkind in
theorem Carries.spanIn : header.spanIn .keyless = spanOf key.key.bytes.length (payload.length % 2 ^ 32) := by
  rw [← h.length]
  simp only [RecordHeader.spanIn, isKeylessIn, RecordLayout.isKeyless, h.flags, hkind, spanOf,
    RecordLayout.prefixLen, RecordHeader.span, prefixLen, h.key]
  by_cases hsmall : header.length.toNat ≤ keylessMax <;> simp [hsmall]

include h hkind hcarried in
theorem Carries.written :
    (header.recordBytes checksum sip (.keyless check) payload).length = framedBytes key payload.length := by
  have hcovered : (if header.hasPayload then payload else []) = payload := by
    rcases hcarried with hp | hp
    · rw [hasPayload, h.flags, hp, if_pos rfl]
    · rw [hp, ite_self]
  rw [recordBytes, hcovered, length_append, framedBytes, ← h.length, packIn, RecordLayout.prefixLen]
  by_cases hsmall : header.length.toNat ≤ keylessMax
  · simp [isKeylessIn, RecordLayout.isKeyless, h.flags, hkind, hsmall, keylessPrefix]
  · simp [isKeylessIn, RecordLayout.isKeyless, hsmall, pack_length, prefixLen, h.key]

/-- The length claimed is the one written, less what a word does not hold of it. -/
theorem framedBytes_eq (key : RecordKey) (n : Nat) :
    framedBytes key n = spanOf key.key.bytes.length (n % 2 ^ 32) + 2 ^ 32 * (n / 2 ^ 32) := by
  have := Nat.mod_add_div n (2 ^ 32)
  simp only [framedBytes, spanOf]
  omega

include hkind hcarried in
theorem measured_iff :
    Measured checksum sip check key lsn flags codec payload ↔ payload.length < 2 ^ 32 := by
  have h := carries_framed checksum key lsn flags codec payload
  simp only [Measured, h.length, h.spanIn hkind, h.written checksum sip check hkind hcarried, framedBytes_eq, and_true,
    and_self]
  omega

end Measure

/-- Whole words of payload that the lengths of a run leave out. -/
def wraps (run : List FramedRecord) : Nat := (run.map fun record => record.payload.length / 2 ^ 32).sum

theorem wraps_eq_zero_iff {run : List FramedRecord} :
    wraps run = 0 ↔ ∀ record ∈ run, record.payload.length < 2 ^ 32 := by
  simp only [wraps, sum_eq_zero_iff, List.forall_mem_map]
  refine forall₂_congr fun record _ => ?_
  omega

theorem le_reservedSpan (cfg : TailConfig) (framed : Nat) : framed ≤ cfg.reservedSpan framed := by
  unfold TailConfig.reservedSpan
  split
  · exact le_nextMultiple framed
  · exact le_rfl

section Run
variable (checksum : Str → UInt32) (sip : Str → Str → UInt64) (check : CheckKey)

theorem buildHeader_written (key : RecordKey) (lsn : UInt64) (intent : Intent) :
    ((buildHeader checksum key lsn intent).recordBytes checksum sip (.keyless check) intent.payload).length =
      (buildHeader checksum key lsn intent).spanIn .keyless + 2 ^ 32 * (intent.payload.length / 2 ^ 32) := by
  cases intent with
  | data payload codec =>
    have h := carries_framed checksum key lsn .data codec.asByte payload
    exact (h.written checksum sip check (by decide) (.inl (by decide))).trans
      ((framedBytes_eq _ _).trans (by rw [← h.spanIn (by decide)]; rfl))
  | tombstone =>
    have h := carries_framed checksum key lsn .tombstone 0 []
    exact (h.written checksum sip check (by decide) (.inr rfl)).trans
      ((framedBytes_eq _ _).trans (by rw [← h.spanIn (by decide)]; rfl))
  | rangeTombstone fin =>
    have h := carries_framed checksum key lsn .rangeTombstone 0 fin
    exact (h.written checksum sip check (by decide) (.inl (by decide))).trans
      ((framedBytes_eq _ _).trans (by rw [← h.spanIn (by decide)]; rfl))

theorem frameRun_written (first base : Nat) (writes : List BatchRecord) :
    ((frameRun checksum first base writes).flatMap (FramedRecord.bytes checksum sip check)).length =
      framedLen (frameRun checksum first base writes) + 2 ^ 32 * wraps (frameRun checksum first base writes) := by
  induction writes generalizing first base with
  | nil => rfl
  | cons write rest ih =>
    simp only [frameRun, flatMap_cons, length_append, ih, framedLen, wraps, map_cons, sum_cons, FramedRecord.bytes,
      buildHeader_written]
    ring

theorem framedLen_pos {first base : Nat} {writes : List BatchRecord} (h : writes ≠ []) :
    0 < framedLen (frameRun checksum first base writes) := by
  cases writes with
  | nil => exact absurd rfl h
  | cons write rest =>
    have hpos : ∀ header : RecordHeader, 0 < header.spanIn .keyless := by
      intro header
      unfold RecordHeader.spanIn RecordHeader.span RecordHeader.prefixLen keylessPrefix headerLen
      split <;> omega
    have := hpos (buildHeader checksum write.key (UInt64.ofNat first) write.intent)
    simp only [frameRun, framedLen, map_cons, sum_cons]
    omega

end Run

namespace Call

def stretch (call : Call) : Nat × Nat := (call.base, call.base + call.span)

/-- The bytes of the segment a call writes. -/
def range (checksum : Str → UInt32) (sip : Str → Str → UInt64) (check : CheckKey) (call : Call) : Nat × Nat :=
  (call.base, call.base + (call.bytes checksum sip check).length)

/-- Every length in the call fits a word. -/
def Short (call : Call) : Prop := ∀ record ∈ call.run, record.payload.length < 2 ^ 32

/-- The call's records are framed in what it reserved. -/
structure Framed (checksum : Str → UInt32) (cfg : TailConfig) (call : Call) : Prop where
  run : ∃ first writes, writes ≠ [] ∧ call.run = frameRun checksum first call.base writes
  span : call.span = cfg.reservedSpan (framedLen call.run)

variable {checksum : Str → UInt32} {cfg : TailConfig} {call : Call} (h : call.Framed checksum cfg)
include h

theorem Framed.pos : 0 < call.span := by
  obtain ⟨first, writes, hsome, hrun⟩ := h.run
  have hpos : 0 < framedLen call.run := hrun ▸ framedLen_pos checksum hsome
  exact hpos.trans_le (h.span ▸ le_reservedSpan cfg _)

theorem Framed.written (sip : Str → Str → UInt64) (check : CheckKey) :
    (call.bytes checksum sip check).length = call.span + 2 ^ 32 * wraps call.run := by
  obtain ⟨first, writes, -, hrun⟩ := h.run
  have hle : framedLen call.run ≤ call.span := h.span ▸ le_reservedSpan cfg _
  have hwritten := frameRun_written checksum sip check first call.base writes
  rw [← hrun] at hwritten
  rw [Call.bytes, length_append, hwritten, length_replicate]
  omega

theorem Framed.range_eq (sip : Str → Str → UInt64) (check : CheckKey) (hshort : call.Short) :
    call.range checksum sip check = call.stretch := by
  rw [range, h.written, wraps_eq_zero_iff.mpr hshort, mul_zero, add_zero, stretch]

theorem Framed.short (sip : Str → Str → UInt64) (check : CheckKey)
    (hin : (call.range checksum sip check).2 ≤ cfg.segmentBytes) : call.Short := by
  have hfits := cfg.fits
  have hlen := h.written sip check
  refine wraps_eq_zero_iff.mp ?_
  simp only [range] at hin
  omega

end Call

namespace AppendTail
variable {checksum : Str → UInt32} {sip : Str → Str → UInt64} {cfg : TailConfig} {s s' : AppendTail}

def admitted (call : Call) : Bool := call.stage.isAdmitted

/-- The calls that write, once they were let in. -/
def written (s : AppendTail) : List Call := s.calls.filter admitted

structure Laid (checksum : Str → UInt32) (cfg : TailConfig) (s : AppendTail) : Prop where
  adjoin : Adjoin cfg.headerSpan (s.calls.map Call.stretch) s.reserved
  framed : ∀ call ∈ s.calls, call.Framed checksum cfg
  within : ∀ call ∈ s.written, call.base + call.span ≤ cfg.segmentBytes

/-- A call changes its stage, and is among those let in only if it was or has room. -/
theorem Laid.put (h : Laid checksum cfg s) {i : Nat} {call : Call} (hcall : s.calls[i]? = some call) (stage : Stage)
    (hin : stage.isAdmitted = true → call.stage.isAdmitted = true ∨ call.base + call.span ≤ cfg.segmentBytes)
    (hcalls : s'.calls = s.calls.set i { call with stage }) (hreserved : s'.reserved = s.reserved) :
    Laid checksum cfg s' := by
  have hmem := mem_of_getElem? hcall
  have hstretch : (s.calls.set i { call with stage }).map Call.stretch = s.calls.map Call.stretch := by
    refine ext_getElem? fun k => ?_
    rw [getElem?_map, getElem?_map, getElem?_set]
    split
    · next heq =>
      subst heq
      rw [if_pos (List.getElem?_eq_some_iff.mp hcall).1, hcall]
      rfl
    · rfl
  refine ⟨?_, fun other hother => ?_, fun other hother => ?_⟩
  · rw [hcalls, hstretch, hreserved]
    exact h.adjoin
  · rcases mem_or_eq_of_mem_set (hcalls ▸ hother) with hold | rfl
    · exact h.framed other hold
    · exact ⟨(h.framed call hmem).run, (h.framed call hmem).span⟩
  · obtain ⟨hother, hadmitted⟩ := mem_filter.mp hother
    rcases mem_or_eq_of_mem_set (hcalls ▸ hother) with hold | rfl
    · exact h.within other (mem_filter.mpr ⟨hold, hadmitted⟩)
    · exact (hin hadmitted).elim (fun hwas => h.within call (mem_filter.mpr ⟨hmem, hwas⟩)) id

theorem Laid.step (h : Laid checksum cfg s) {a : TailStep} (hs : s.step checksum sip cfg a = some s') :
    Laid checksum cfg s' := by
  cases a with
  | fill seen span isLaid =>
    simp only [AppendTail.step] at hs
    split at hs <;> cases hs
    exact ⟨h.adjoin, h.framed, h.within⟩
  | reserve first writes =>
    simp only [AppendTail.step] at hs
    split at hs
    · next hguard =>
      cases hs
      refine ⟨?_, ?_, ?_⟩
      · rw [map_append]
        exact h.adjoin.snoc (Nat.le_add_right _ _)
      · exact forall_mem_append.2 ⟨h.framed, forall_mem_singleton.2 ⟨⟨first, writes, hguard.1, rfl⟩, rfl⟩⟩
      · simpa [written, admitted, Stage.isAdmitted, filter_append] using h.within
    · cases hs
  | check i =>
    obtain ⟨call, hcall, hs⟩ := bind_eq_some_iff.mp hs
    split at hs
    · split at hs
      · next hroom =>
        cases hs
        refine h.put hcall .admitted (fun _ => .inr ?_) rfl rfl
        have := hroom.1
        simp only [room] at this
        omega
      · cases hs
        exact h.put hcall .turned (fun hnot => by cases hnot) rfl rfl
    · cases hs
  | land i | fail i | push i =>
    obtain ⟨call, hcall, hs⟩ := bind_eq_some_iff.mp hs
    split at hs
    · next hstage =>
      cases hs
      exact h.put hcall _ (fun _ => .inl (by rw [hstage]; rfl)) rfl rfl
    · cases hs
  | writeRows | wroteRows =>
    simp only [AppendTail.step] at hs
    split at hs <;> cases hs
    exact ⟨h.adjoin, h.framed, h.within⟩
  | putBack =>
    obtain ⟨rows, -, hs⟩ := bind_eq_some_iff.mp hs
    cases hs
    exact ⟨h.adjoin, h.framed, h.within⟩

theorem laid_run {steps : List TailStep}
    (hrun : Runs.run (AppendTail.step checksum sip cfg) (start cfg) steps = some s) : Laid checksum cfg s :=
  Runs.holds_run (Laid checksum cfg) (fun _ _ _ h hs => h.step hs)
    ⟨by simp [start, Adjoin], by simp [start], by simp [written, start]⟩ hrun

/-- No reservation stands back, turned away or still to read its room, in front of one that was let in. -/
def Unbroken (s : AppendTail) : Prop :=
  s.calls.Pairwise fun front behind => admitted behind = true → admitted front = true

instance (s : AppendTail) : Decidable s.Unbroken := inferInstanceAs (Decidable (s.calls.Pairwise _))

section
variable (h : Laid checksum cfg s) (sip)
include h

theorem Laid.mem_framed {call : Call} (hcall : call ∈ s.written) : call.Framed checksum cfg :=
  h.framed call (mem_filter.mp hcall).1

theorem Laid.ranges (hshort : ∀ call ∈ s.written, call.Short) :
    s.written.map (Call.range checksum sip cfg.check) = s.written.map Call.stretch :=
  map_congr_left fun call hcall => (h.mem_framed hcall).range_eq sip cfg.check (hshort call hcall)

theorem Laid.inside_iff : (∀ call ∈ s.written, (call.range checksum sip cfg.check).2 ≤ cfg.segmentBytes) ↔
    ∀ call ∈ s.written, call.Short := by
  constructor
  · exact fun hin call hcall => (h.mem_framed hcall).short sip cfg.check (hin call hcall)
  · intro hshort call hcall
    rw [(h.mem_framed hcall).range_eq sip cfg.check (hshort call hcall)]
    exact h.within call hcall

theorem Laid.contiguous_iff (hshort : ∀ call ∈ s.written, call.Short) :
    (∃ stop, Adjoin cfg.headerSpan (s.written.map (Call.range checksum sip cfg.check)) stop) ↔ s.Unbroken := by
  rw [h.ranges sip hshort]
  refine adjoin_filter_iff h.adjoin fun call hcall => ?_
  exact Nat.lt_add_of_pos_right (h.framed call hcall).pos

theorem Laid.spaced (hshort : ∀ call ∈ s.written, call.Short) :
    (s.written.map (Call.range checksum sip cfg.check)).Pairwise fun a b => a.2 ≤ b.1 := by
  rw [h.ranges sip hshort]
  exact h.adjoin.spaced.2.2.sublist (filter_sublist.map _)

end

def shortKey : RecordKey := ⟨0, ⟨[9, 4], by decide⟩⟩

/-- A keyed hash of eight bytes, of which only the width matters here. -/
def keyedCrc (key message : Str) : UInt64 := (crc32c (key ++ message)).toUInt64

/-- A segment with room for two small records and no more. -/
def tightTail : TailConfig where
  segmentBytes := 4170
  wholeBlocks := false
  check := ⟨replicate 16 7, rfl⟩
  nonzero := by decide
  fits := by decide

/-- A put reserves its stretch, and before it reads its room a second one reserves behind it. -/
def twoReserve : List TailStep :=
  [.reserve 1 [⟨shortKey, .data [2, 3] .none⟩], .reserve 2 [⟨shortKey, .data [] .none⟩]]

/-- The second is let in, writes and pushes its row, and the first finds the room gone. -/
def overtaken : List TailStep := twoReserve ++ [.check 1, .land 1, .push 1, .check 0]

/-- Each reads its room in turn, and the rows are written. -/
def inTurn : List TailStep :=
  twoReserve ++ [.check 0, .check 1, .land 0, .land 1, .push 1, .push 0, .writeRows, .wroteRows]

def outline (s : AppendTail) : Bool × Bool × List Nat × Nat :=
  (decide s.Unbroken, s.calls.all fun call => call.run.all (·.payload.length < 2 ^ 32), s.written.map Call.base, s.fin)

theorem short_of_outline {unbroken : Bool} {bases : List Nat} {fin : Nat}
    (h : s.outline = (unbroken, true, bases, fin)) : ∀ call ∈ s.written, call.Short := by
  simp only [outline, Prod.mk.injEq, List.all_eq_true, decide_eq_true_eq] at h
  exact fun call hcall => h.2.1 call (mem_filter.mp hcall).1

end AppendTail

end Reel
