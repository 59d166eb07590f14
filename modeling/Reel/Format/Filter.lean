import Reel.Format.Prefix

/-!
A sealed segment's per-column filters: blocked bloom filters, one block of 64 bytes per key and several
bits inside it. A filter holds every key it was built over, and reads back from what it is encoded as.
-/

set_option autoImplicit false

namespace Reel.Footer
open Bytes List

structure Filter where
  kind : Byte
  seed : Byte
  probes : Byte
  keys : Nat
  body : Str
  deriving DecidableEq, Repr

namespace Filter

def kindAbsent : Byte := 0
def kindBloom : Byte := 1

def headerLen : Nat := 12

def blockBytes : Nat := 64
def blockBits : Nat := blockBytes * 8
def maxProbes : Nat := 8
def buildSeed : Byte := 0
def maxBitsPerKey : Nat := 32

def blocksFor (count bitsPerKey : Nat) : Nat :=
  (min (count * bitsPerKey) (2 ^ 64 - 1) + blockBits - 1) / blockBits

def probesFor (bitsPerKey : Nat) : Nat := min ((bitsPerKey * 693147 + 500000) / 1000000) maxProbes

def odd : UInt64 := 0x9E3779B97F4A7C15

def rotateLeft (x : UInt64) (n : UInt64) : UInt64 := (x <<< n) ||| (x >>> (64 - n))

def absorb (state : UInt64) : Str → UInt64 × Str
  | a :: b :: c :: d :: e :: f :: g :: h :: rest =>
    let word := UInt64.ofNat (fromLe [a, b, c, d, e, f, g, h])
    absorb (rotateLeft ((state ^^^ word) * odd) 31) rest
  | rest => (state, rest)

def hashKey (key : Str) (seed : Byte) : UInt64 :=
  let (state, rest) := absorb (0xcbf29ce484222325 ^^^ UInt64.ofNat seed.val * odd) key
  let state := state ^^^ (UInt64.ofNat (fromLe rest) ^^^ UInt64.ofNat key.length)
  let state := (state ^^^ (state >>> 30)) * 0xBF58476D1CE4E5B9
  let state := (state ^^^ (state >>> 27)) * 0x94D049BB133111EB
  state ^^^ (state >>> 31)

def blockOf (hash : UInt64) (blocks : Nat) : Nat := (hash.toNat / 2 ^ 32) * blocks / 2 ^ 32

def bitsOf (hash : UInt64) (probes : Nat) : List Nat :=
  let first := hash.toNat % 2 ^ 32
  let step := (hash * odd).toNat / 2 ^ 32 ||| 1
  (range probes).map fun probe => (first + probe * step) % 2 ^ 32 % blockBits

def bitsIn (key : Str) (seed : Byte) (blocks probes : Nat) : List Nat :=
  let hash := hashKey key seed
  (bitsOf hash probes).map fun bit => blockOf hash blocks * blockBits + bit

def bitAt (body : Str) (bit : Nat) : Bool := (body.getD (bit / 8) 0).val.testBit (bit % 8)

def setBit (body : Str) (bit : Nat) : Str :=
  body.set (bit / 8) (Fin.ofNat 256 ((body.getD (bit / 8) 0).val ||| 2 ^ (bit % 8)))

/-- Build a filter over every key a partition holds, or nothing for no keys or no bits. -/
def build (keys : List Str) (count bitsPerKey : Nat) : Option Filter :=
  if count = 0 ∨ bitsPerKey = 0 then none
  else
    let bitsPerKey := min bitsPerKey maxBitsPerKey
    let blocks := blocksFor count bitsPerKey
    let probes := probesFor bitsPerKey
    let bits := keys.flatMap fun key => bitsIn key buildSeed blocks probes
    some ⟨kindBloom, buildSeed, Fin.ofNat 256 probes, count % 2 ^ 32,
      bits.foldl setBit (replicate (blocks * blockBytes) 0)⟩

def bloomHolds (filter : Filter) (key : Str) : Bool :=
  let blocks := filter.body.length / blockBytes
  if blocks = 0 ∨ filter.probes = 0 then true
  else (bitsIn key filter.seed blocks filter.probes.val).all (bitAt filter.body)

def mayHold (filter : Filter) (key : Str) : Bool :=
  if filter.kind = kindBloom then filter.bloomHolds key else true

def encodedLen (filter : Filter) : Nat := headerLen + filter.body.length

def encode (filter : Filter) : Str :=
  [filter.kind, filter.seed, filter.probes, 0] ++ toLe 4 filter.keys ++ toLe 4 filter.encodedLen ++ filter.body

def absent : Filter := ⟨kindAbsent, buildSeed, 0, 0, []⟩

/-- Take one filter off the front of a region, and say how far it reached. -/
def parse (region : Str) : Option Filter × Nat :=
  if region.length < headerLen then (none, region.length)
  else
    let len := wordAt region 8
    if len < headerLen ∨ region.length < len then (none, region.length)
    else if region.getD 0 0 = kindAbsent then (none, len)
    else (some ⟨region.getD 0 0, region.getD 1 0, region.getD 2 0, wordAt region 4, (region.take len).drop headerLen⟩,
      len)

/-- Take one filter per partition off a footer's filter region. -/
def parseRegion (region : Str) : Nat → List (Option Filter)
  | 0 => []
  | n + 1 =>
    if region = [] then none :: parseRegion region n
    else
      let (filter, took) := parse region
      filter :: parseRegion (region.drop took) n

@[simp] theorem length_setBit (body : Str) (bit : Nat) : (setBit body bit).length = body.length :=
  length_set

@[simp] theorem length_setBits (bits : List Nat) (body : Str) : (bits.foldl setBit body).length = body.length := by
  induction bits generalizing body with
  | nil => rfl
  | cons bit bits ih => rw [foldl_cons, ih, length_setBit]

theorem bitAt_setBit {body : Str} {bit other : Nat} (hbit : bit / 8 < body.length) :
    bitAt (setBit body bit) other = (bitAt body other || decide (bit = other)) := by
  unfold bitAt setBit
  by_cases hbyte : bit / 8 = other / 8
  · have hval : (Fin.ofNat 256 ((body.getD (bit / 8) 0).val ||| 2 ^ (bit % 8))).val =
        (body.getD (bit / 8) 0).val ||| 2 ^ (bit % 8) := by
      refine Nat.mod_eq_of_lt (Nat.or_lt_two_pow (n := 8) (body.getD (bit / 8) 0).isLt ?_)
      exact Nat.pow_lt_pow_right (by decide) (by omega)
    have hsame : bit % 8 = other % 8 ↔ bit = other := by omega
    rw [← hbyte, getD_eq_getElem?_getD, getElem?_set_self hbit, Option.getD_some, hval, Nat.testBit_or,
      Nat.testBit_two_pow]
    simp only [hsame]
  · have hne : bit ≠ other := by rintro rfl; exact hbyte rfl
    rw [getD_eq_getElem?_getD, getElem?_set_ne hbyte, ← getD_eq_getElem?_getD, decide_eq_false hne,
      Bool.or_false]

theorem bitAt_setBits {bits : List Nat} {body : Str} (hbits : ∀ bit ∈ bits, bit / 8 < body.length) {bit : Nat}
    (h : bitAt body bit = true ∨ bit ∈ bits) : bitAt (bits.foldl setBit body) bit = true := by
  induction bits generalizing body with
  | nil => simpa using h
  | cons first bits ih =>
    have hfirst := hbits first (by simp)
    refine ih (fun other hother => by rw [length_setBit]; exact hbits other (by simp [hother])) ?_
    rw [bitAt_setBit hfirst]
    rcases h with h | h
    · exact .inl (by rw [h, Bool.true_or])
    · rcases mem_cons.mp h with rfl | h
      · exact .inl (by simp)
      · exact .inr h

theorem blockOf_lt (hash : UInt64) {blocks : Nat} (h : 0 < blocks) : blockOf hash blocks < blocks := by
  have hhigh : hash.toNat / 2 ^ 32 < 2 ^ 32 := Nat.div_lt_of_lt_mul hash.toNat_lt
  refine Nat.div_lt_of_lt_mul ?_
  exact Nat.mul_lt_mul_of_pos_right hhigh h

theorem bitsIn_lt (key : Str) (seed : Byte) {blocks : Nat} (h : 0 < blocks) (probes : Nat) :
    ∀ bit ∈ bitsIn key seed blocks probes, bit / 8 < blocks * blockBytes := by
  intro bit hbit
  obtain ⟨inner, hinner, rfl⟩ := mem_map.mp hbit
  obtain ⟨probe, -, rfl⟩ := mem_map.mp hinner
  have hblock := blockOf_lt (hashKey key seed) h
  have hmod : ∀ n : Nat, n % blockBits < blockBits := fun n => Nat.mod_lt n (by decide)
  have hbit := hmod ((((hashKey key seed).toNat % 2 ^ 32) +
    probe * ((hashKey key seed * odd).toNat / 2 ^ 32 ||| 1)) % 2 ^ 32)
  simp only [blockBits, blockBytes] at hbit ⊢
  omega

theorem blocksFor_pos {count bitsPerKey : Nat} (hcount : count ≠ 0) (hbits : bitsPerKey ≠ 0) :
    0 < blocksFor count bitsPerKey := by
  have hprod : 0 < count * bitsPerKey := Nat.mul_pos (by omega) (by omega)
  unfold blocksFor blockBits blockBytes
  omega

theorem probesFor_le (bitsPerKey : Nat) : probesFor bitsPerKey ≤ 8 := Nat.min_le_right _ _

theorem mayHold_build {keys : List Str} {count bitsPerKey : Nat} {filter : Filter}
    (h : build keys count bitsPerKey = some filter) {key : Str} (hkey : key ∈ keys) :
    filter.mayHold key = true := by
  unfold build at h
  split at h
  · cases h
  · next hsome =>
    obtain ⟨hcount, hbits⟩ := not_or.mp hsome
    cases h
    have hcap : min bitsPerKey maxBitsPerKey ≠ 0 := by
      unfold maxBitsPerKey; omega
    have hblocks := blocksFor_pos hcount hcap
    have hprobes := probesFor_le (min bitsPerKey maxBitsPerKey)
    have hcounted : (Fin.ofNat 256 (probesFor (min bitsPerKey maxBitsPerKey))).val =
        probesFor (min bitsPerKey maxBitsPerKey) := Nat.mod_eq_of_lt (by omega)
    have hbody : ∀ bits : List Nat, (bits.foldl setBit
        (replicate (blocksFor count (min bitsPerKey maxBitsPerKey) * blockBytes) 0)).length / blockBytes =
        blocksFor count (min bitsPerKey maxBitsPerKey) := by
      intro bits
      rw [length_setBits, length_replicate, Nat.mul_div_cancel _ (by decide)]
    simp only [mayHold, if_true, bloomHolds, hbody, hcounted]
    split
    · rfl
    · refine all_eq_true.mpr fun bit hbit => bitAt_setBits ?_ (.inr ?_)
      · intro other hother
        obtain ⟨origin, -, hother⟩ := mem_flatMap.mp hother
        rw [length_replicate]
        exact bitsIn_lt origin buildSeed hblocks _ other hother
      · exact mem_flatMap.mpr ⟨key, hkey, hbit⟩

theorem length_encode (filter : Filter) : filter.encode.length = filter.encodedLen := by
  simp only [encode, encodedLen, headerLen, length_append, length_cons, length_nil, toLe_length]

/-- A filter whose sizes four bytes hold. -/
structure Fits (filter : Filter) : Prop where
  keys : filter.keys < 2 ^ 32
  len : filter.encodedLen < 2 ^ 32

theorem parse_encode {filter : Filter} (h : filter.Fits) (rest : Str) :
    parse (filter.encode ++ rest) =
      (if filter.kind = kindAbsent then none else some filter, filter.encodedLen) := by
  have hlen : (filter.encode ++ rest).length = filter.encodedLen + rest.length := by
    rw [length_append, length_encode]
  have hparts : filter.encode ++ rest = [filter.kind, filter.seed, filter.probes, 0] ++
      (toLe 4 filter.keys ++ (toLe 4 filter.encodedLen ++ (filter.body ++ rest))) := by
    simp only [encode, append_assoc]
  have hfour := toLe_length 4 filter.keys
  have hwhole : filter.encodedLen = headerLen + filter.body.length := rfl
  have hword : wordAt (filter.encode ++ rest) 8 = filter.encodedLen := by
    rw [hparts, wordAt_past 4 (by simp), wordAt_past 0 (by omega), wordAt_toLe h.len]
  have hkeys : wordAt (filter.encode ++ rest) 4 = filter.keys := by
    rw [hparts, wordAt_past 0 (by simp), wordAt_toLe h.keys]
  have hbody : ((filter.encode ++ rest).take filter.encodedLen).drop headerLen = filter.body := by
    rw [take_left' (length_encode filter), encode]
    exact drop_left' (by simp [headerLen])
  have hshort : ¬ (filter.encode ++ rest).length < headerLen := by rw [hlen]; omega
  have hrange : ¬ (filter.encodedLen < headerLen ∨ (filter.encode ++ rest).length < filter.encodedLen) := by
    rw [hlen]; omega
  have hfront : (filter.encode ++ rest).getD 0 0 = filter.kind ∧ (filter.encode ++ rest).getD 1 0 = filter.seed ∧
      (filter.encode ++ rest).getD 2 0 = filter.probes := by
    rw [hparts]
    exact ⟨rfl, rfl, rfl⟩
  rw [parse, if_neg hshort, hword, if_neg hrange, hfront.1, hfront.2.1, hfront.2.2, hkeys, hbody]
  split <;> rfl

theorem absent_fits : absent.Fits := ⟨by decide, by decide⟩

theorem build_fits {keys : List Str} {count bitsPerKey : Nat} {filter : Filter}
    (h : build keys count bitsPerKey = some filter) (hlen : filter.encodedLen < 2 ^ 32) :
    filter.Fits ∧ filter.kind = kindBloom := by
  unfold build at h
  split at h
  · cases h
  · cases h
    exact ⟨⟨Nat.mod_lt _ (by decide), hlen⟩, rfl⟩

def region (filters : List (Option Filter)) : Str := filters.flatMap fun filter => (filter.getD absent).encode

theorem parseRegion_nil (n : Nat) : parseRegion [] n = replicate n none := by
  induction n with
  | zero => rfl
  | succ n ih => rw [parseRegion, if_pos rfl, ih, replicate_succ]

/-- What a footer may write for a partition: no filter, or one it built whose sizes four bytes hold. -/
def Intact (filter : Option Filter) : Prop := ∀ built ∈ filter, built.Fits ∧ built.kind = kindBloom

variable {filters : List (Option Filter)} {rest : Str}

theorem Intact.fits {filter : Option Filter} (h : Intact filter) : (filter.getD absent).Fits := by
  cases filter with
  | none => exact absent_fits
  | some built => exact (h built rfl).1

theorem region_cons (filter : Option Filter) (filters : List (Option Filter)) :
    region (filter :: filters) = (filter.getD absent).encode ++ region filters := rfl

theorem parseRegion_encode {filter : Filter} (h : filter.Fits) (rest : Str) (n : Nat) :
    parseRegion (filter.encode ++ rest) (n + 1) =
      (if filter.kind = kindAbsent then none else some filter) :: parseRegion rest n := by
  have hsome : filter.encode ++ rest ≠ [] := by simp [encode]
  rw [parseRegion, if_neg hsome, parse_encode h]
  simp only [drop_left' (length_encode filter)]

theorem parseRegion_append (h : ∀ filter ∈ filters, Intact filter) (rest : Str) (n : Nat) :
    parseRegion (region filters ++ rest) (filters.length + n) = filters ++ parseRegion rest n := by
  induction filters with
  | nil => rw [length_nil, Nat.zero_add]; rfl
  | cons filter filters ih =>
    have hfilter := h filter (by simp)
    have hback : (if (filter.getD absent).kind = kindAbsent then none else some (filter.getD absent)) = filter := by
      cases filter with
      | none => rfl
      | some built => exact if_neg (by rw [Option.getD_some, (hfilter built rfl).2]; decide)
    rw [region_cons, append_assoc, length_cons, Nat.add_right_comm, parseRegion_encode hfilter.fits, hback,
      ih fun other hother => h other (by simp [hother]), cons_append]

theorem parseRegion_region (h : ∀ filter ∈ filters, Intact filter) :
    parseRegion (region filters) filters.length = filters := by
  have hwhole := parseRegion_append h [] 0
  rwa [append_nil, Nat.add_zero, parseRegion, append_nil] at hwhole

/-- Bytes no filter can be taken off: short of a header, or with a length below a header's or past their end. -/
def Broken (rest : Str) : Prop := rest.length < headerLen ∨ wordAt rest 8 < headerLen ∨ rest.length < wordAt rest 8

theorem parseRegion_broken (h : Broken rest) (n : Nat) : parseRegion rest n = replicate n none := by
  cases n with
  | zero => rfl
  | succ n =>
    have hparse : parse rest = (none, rest.length) := by
      unfold parse
      by_cases hshort : rest.length < headerLen
      · rw [if_pos hshort]
      · rw [if_neg hshort, if_pos (h.resolve_left hshort)]
    rw [parseRegion, replicate_succ, hparse]
    split
    · next hnil => rw [hnil, parseRegion_nil]
    · dsimp only
      rw [drop_length, parseRegion_nil]

theorem broken_take {filter : Filter} (h : filter.Fits) {k : Nat} (hk : k < filter.encodedLen) :
    Broken (filter.encode.take k) := by
  have hlen : (filter.encode.take k).length = k := by
    rw [length_take, length_encode, Nat.min_eq_left hk.le]
  by_cases hshort : k < headerLen
  · exact .inl (by rw [hlen]; exact hshort)
  · refine .inr (.inr ?_)
    have hword : wordAt (filter.encode.take k) 8 = wordAt filter.encode 8 := by
      unfold headerLen at hshort
      rw [wordAt, wordAt, drop_take, take_take, Nat.min_eq_left (by omega)]
    have hfour := toLe_length 4 filter.keys
    have hstored : wordAt filter.encode 8 = filter.encodedLen := by
      rw [encode, append_assoc, append_assoc, wordAt_past 4 (by simp), wordAt_past 0 (by omega),
        wordAt_toLe h.len]
    rw [hlen, hword, hstored]
    exact hk

/-- A region cut short keeps its first filters whole and breaks the next one. -/
theorem take_region (h : ∀ filter ∈ filters, Intact filter) {k : Nat} (hk : k < (region filters).length) :
    ∃ n < filters.length, (region (filters.take n)).length ≤ k ∧ k < (region (filters.take (n + 1))).length ∧
      ∃ rest, (region filters).take k = region (filters.take n) ++ rest ∧ Broken rest := by
  induction filters generalizing k with
  | nil => exact absurd hk (Nat.not_lt_zero k)
  | cons filter filters ih =>
    have hlen := length_encode (filter.getD absent)
    simp only [region_cons, length_append, hlen] at hk
    by_cases hfirst : k < (filter.getD absent).encodedLen
    · refine ⟨0, by simp, Nat.zero_le _, ?_, (filter.getD absent).encode.take k, ?_,
        broken_take (h filter (by simp)).fits hfirst⟩
      · rw [take_succ_cons, region_cons, length_append, hlen]
        omega
      · rw [region_cons, take_append_of_le_length (by omega)]
        rfl
    · obtain ⟨n, hn, hle, hlt, rest, htake, hbroken⟩ :=
        ih (fun other hother => h other (by simp [hother])) (k := k - (filter.getD absent).encodedLen) (by omega)
      refine ⟨n + 1, by simpa using hn, ?_, ?_, rest, ?_, hbroken⟩
      · rw [take_succ_cons, region_cons, length_append, hlen]
        omega
      · rw [take_succ_cons, region_cons, length_append, hlen]
        omega
      · rw [take_succ_cons, region_cons, region_cons, append_assoc, ← htake, take_append, hlen,
          take_of_length_le (by omega)]

def ofKind (filter : Filter) (kind : Byte) : Filter := { filter with kind }

theorem mayHold_ofKind {filter : Option Filter} (h : Intact filter) {kind : Byte}
    (hkind : kind ≠ (filter.getD absent).kind) (key : Str) : ((filter.getD absent).ofKind kind).mayHold key = true := by
  cases filter with
  | none => simp [mayHold, bloomHolds, absent, ofKind]
  | some built =>
    rw [Option.getD_some, (h built rfl).2] at hkind
    simp [mayHold, hkind, ofKind]

/-- A partition's keys and the bits its filter gives each. -/
structure Part where
  keys : List Str
  bits : Nat

def Part.filter (part : Part) : Option Filter := build part.keys part.keys.length part.bits

/-- Filters whose lengths four bytes hold read back from their region, whatever stands behind it, and admit every
key of their partitions. Where the region is cut, names a length no filter can have, or has a kind damaged, the
filters in front read as they were written and those that do not rule nothing out. -/
theorem filters_admit_held_keys {parts : List Part}
    (hlen : ∀ part ∈ parts, ∀ filter ∈ part.filter, filter.encodedLen < 2 ^ 32) :
    let filters := parts.map Part.filter
    (∀ extra, parseRegion (region filters ++ extra) parts.length = filters) ∧
    (∀ part ∈ parts, ∀ key ∈ part.keys, part.filter.all (·.mayHold key) = true) ∧
    (∀ k < (region filters).length, ∃ n < parts.length,
      (region (filters.take n)).length ≤ k ∧ k < (region (filters.take (n + 1))).length ∧
      parseRegion ((region filters).take k) parts.length =
        filters.take n ++ replicate (parts.length - n) none) ∧
    (∀ n ≤ parts.length, ∀ rest, Broken rest → parseRegion (region (filters.take n) ++ rest) parts.length =
      filters.take n ++ replicate (parts.length - n) none) ∧
    ∀ front filter back, filters = front ++ filter :: back → ∀ kind ≠ (filter.getD absent).kind, ∃ damaged,
      parseRegion (region front ++ (((filter.getD absent).ofKind kind).encode ++ region back)) parts.length =
        front ++ damaged :: back ∧ ∀ key, damaged.all (·.mayHold key) = true := by
  intro filters
  have hcount : filters.length = parts.length := length_map _
  have hintact : ∀ filter ∈ filters, Intact filter := by
    intro filter hfilter built hbuilt
    obtain ⟨part, hpart, rfl⟩ := mem_map.mp hfilter
    exact build_fits hbuilt (hlen part hpart built hbuilt)
  have hbroken : ∀ n ≤ parts.length, ∀ rest, Broken rest → parseRegion (region (filters.take n) ++ rest) parts.length =
      filters.take n ++ replicate (parts.length - n) none := by
    intro n hn rest hrest
    have htake : ∀ filter ∈ filters.take n, Intact filter := fun filter hfilter =>
      hintact filter (mem_of_mem_take hfilter)
    have hfront := parseRegion_append htake rest (parts.length - n)
    rwa [length_take, Nat.min_eq_left (by omega), Nat.add_sub_cancel' hn, parseRegion_broken hrest] at hfront
  refine ⟨fun extra => ?_, fun part _ key hkey => ?_, fun k hk => ?_, hbroken, fun front filter back heq kind hkind => ?_⟩
  · have hwhole := parseRegion_append hintact extra 0
    rwa [Nat.add_zero, hcount, parseRegion, append_nil] at hwhole
  · cases hbuilt : part.filter with
    | none => rfl
    | some built => exact mayHold_build hbuilt hkey
  · obtain ⟨n, hn, hle, hlt, rest, htake, hrest⟩ := take_region hintact hk
    rw [hcount] at hn
    exact ⟨n, hn, hle, hlt, by rw [htake]; exact hbroken n hn.le rest hrest⟩
  · rw [heq] at hintact
    have hfilter := hintact filter (by simp)
    have hfits : ((filter.getD absent).ofKind kind).Fits := ⟨hfilter.fits.keys, hfilter.fits.len⟩
    have hfront := parseRegion_append (fun other hother => hintact other (mem_append_left _ hother))
      (((filter.getD absent).ofKind kind).encode ++ region back) (back.length + 1)
    have hback : parseRegion (region back) back.length = back :=
      parseRegion_region fun other hother => hintact other (by simp [hother])
    have hall : front.length + (back.length + 1) = parts.length := by
      rw [← hcount, heq, length_append, length_cons]
    rw [parseRegion_encode hfits, hback, hall] at hfront
    refine ⟨_, hfront, fun key => ?_⟩
    split
    · rfl
    · exact mayHold_ofKind hfilter hkind key

theorem filters_admit_held_keys_sample :
    parseRegion (region [Part.filter ⟨[[1]], 10⟩, none] ++ [7]) 2 = [Part.filter ⟨[[1]], 10⟩, none] ∧
      (Part.filter ⟨[[1]], 10⟩).all (·.mayHold [1]) = true := by
  have hlen : ∀ part ∈ [(⟨[[1]], 10⟩ : Part), ⟨[], 10⟩], ∀ filter ∈ part.filter, filter.encodedLen < 2 ^ 32 := by
    decide +kernel
  obtain ⟨hback, hheld, -⟩ := filters_admit_held_keys hlen
  exact ⟨hback [7], hheld ⟨[[1]], 10⟩ (by simp) [1] (by simp)⟩

theorem bitAt_unset {bits : List Nat} {body : Str} (hbits : ∀ bit ∈ bits, bit / 8 < body.length) {bit : Nat}
    (h : bit ∉ bits) : bitAt (bits.foldl setBit body) bit = bitAt body bit := by
  induction bits generalizing body with
  | nil => rfl
  | cons first bits ih =>
    rw [mem_cons, not_or] at h
    rw [foldl_cons, ih (fun other hother => by rw [length_setBit]; exact hbits other (by simp [hother])) h.2,
      bitAt_setBit (hbits first (by simp)), decide_eq_false (Ne.symm h.1), Bool.or_false]

/-- A filter whose length in four bytes is that of one block reads back as its first block, which denies a key of
any other. -/
theorem denies_of_one_block {count : Nat} (key : Str) (hcount : count ≠ 0)
    (hblocks : blocksFor count 32 * blockBytes % 2 ^ 32 = blockBytes)
    (hblock : 0 < blockOf (hashKey key buildSeed) (blocksFor count 32)) :
    (parseRegion (region [build (replicate count key) count 32]) 1).map
      (fun filter => filter.all (·.mayHold key)) = [false] := by
  set blocks := blocksFor count 32
  set bits := (replicate count key).flatMap fun key => bitsIn key buildSeed blocks 8
  set body := bits.foldl setBit (replicate (blocks * blockBytes) 0) with hbody
  set short : Filter := ⟨kindBloom, buildSeed, 8, count % 2 ^ 32, body.take blockBytes⟩ with hshort
  have hbuilt : build (replicate count key) count 32 = some ⟨kindBloom, buildSeed, 8, count % 2 ^ 32, body⟩ := by
    rw [build, if_neg (by omega)]
    rfl
  have hlength : body.length = blocks * blockBytes := by
    rw [hbody, length_setBits, length_replicate]
  have hone : (body.take blockBytes).length = blockBytes := by
    rw [length_take, hlength, Nat.min_eq_left (by have := Nat.mod_le (blocks * blockBytes) (2 ^ 32); omega)]
  have hencode : Filter.encode ⟨kindBloom, buildSeed, 8, count % 2 ^ 32, body⟩ =
      short.encode ++ body.drop blockBytes := by
    have hword : toLe 4 (headerLen + body.length) = toLe 4 (headerLen + (body.take blockBytes).length) := by
      have hsame : (headerLen + body.length) % 256 ^ 4 = headerLen + blockBytes := by
        rw [hlength]
        unfold headerLen
        simp only [blockBytes] at hblocks ⊢
        omega
      rw [hone, ← toLe_mod, hsame]
    simp only [hshort, encode, encodedLen, hword, append_assoc, take_append_drop]
  have hfits : short.Fits := by
    refine ⟨Nat.mod_lt _ (by decide), ?_⟩
    rw [encodedLen, hone]
    decide
  -- every bit set lies in the key's own block, which is not the first
  have hin : ∀ bit ∈ bits, blockBits ≤ bit ∧ bit / 8 < blocks * blockBytes := by
    intro bit hbit
    obtain ⟨held, hheld, hbit⟩ := mem_flatMap.mp hbit
    rw [eq_of_mem_replicate hheld] at hbit
    have hlow : blockBits ≤ bit := by
      obtain ⟨inner, -, rfl⟩ := mem_map.mp hbit
      exact (Nat.le_mul_of_pos_left blockBits hblock).trans (Nat.le_add_right _ _)
    exact ⟨hlow, bitsIn_lt key buildSeed (Nat.pos_of_ne_zero fun h => by rw [h] at hblock; simp [blockOf] at hblock) 8 bit hbit⟩
  have hclear : ∀ bit < blockBits, bitAt (body.take blockBytes) bit = false := by
    intro bit hbit
    have hsame : bitAt (body.take blockBytes) bit = bitAt body bit := by
      rw [bitAt, bitAt, getD_eq_getElem?_getD, getElem?_take_of_lt (by unfold blockBits at hbit; omega),
        ← getD_eq_getElem?_getD]
    have hzero : bitAt (replicate (blocks * blockBytes) 0) bit = false := by
      rw [bitAt, getD_eq_getElem?_getD, getElem?_replicate]
      split <;> exact Nat.zero_testBit _
    rw [hsame, hbody, bitAt_unset (fun other hother => by rw [length_replicate]; exact (hin other hother).2)
      fun hset => absurd (hin bit hset).1 (Nat.not_le.mpr hbit), hzero]
  have hdenies : short.mayHold key = false := by
    obtain ⟨bit, hbit⟩ := exists_mem_of_ne_nil (bitsIn key buildSeed 1 8) (by simp [bitsIn, bitsOf])
    have hlt := bitsIn_lt key buildSeed Nat.one_pos 8 bit hbit
    have hbody : short.body.length / blockBytes = 1 := by
      rw [show short.body.length = blockBytes from hone]
      decide
    rw [mayHold, if_pos rfl, bloomHolds]
    rw [hbody, if_neg (by change ¬ (1 = 0 ∨ (8 : Byte) = 0); decide)]
    refine all_eq_false.mpr ⟨bit, hbit, ?_⟩
    rw [show bitAt short.body bit = false from hclear bit (by unfold blockBits; omega)]
    decide
  rw [hbuilt, region_cons, Option.getD_some, hencode, append_assoc, parseRegion_encode hfits,
    if_neg (by change ¬ kindBloom = kindAbsent; decide)]
  simp [parseRegion, hdenies]

/-- A filter over 2 ^ 30 + 1 keys of 32 bits keeps the length of one block, and reads back denying every one. -/
theorem long_filter_denies_its_key :
    (parseRegion (region [build (replicate (2 ^ 30 + 1) [1]) (2 ^ 30 + 1) 32]) 1).map
      (fun filter => filter.all (·.mayHold [1])) = [false] :=
  denies_of_one_block [1] (by decide) (by decide) (by decide +kernel)

end Filter

end Reel.Footer
