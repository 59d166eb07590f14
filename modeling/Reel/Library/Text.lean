import Reel.Library.Bytes

/-!
Text kept as bytes: characters encoded one by one, a decoding that never fails, lines, and what is left of a text
whose bytes were cut short.
-/

set_option autoImplicit false

namespace Text
open Bytes List

variable {n : Nat}

theorem exists_take_flatMap {α β : Type} (f : α → List β) {l : List α} (h : n < (l.flatMap f).length) :
    ∃ front piece back, l = front ++ piece :: back ∧ (front.flatMap f).length ≤ n ∧
      n < (front.flatMap f).length + (f piece).length ∧
      (l.flatMap f).take n = front.flatMap f ++ (f piece).take (n - (front.flatMap f).length) := by
  induction l generalizing n with
  | nil => simp at h
  | cons first rest ih =>
    rw [flatMap_cons] at h ⊢
    by_cases hin : n < (f first).length
    · refine ⟨[], first, rest, rfl, Nat.zero_le _, by simpa using hin, ?_⟩
      simp [take_append_of_le_length hin.le]
    · rw [length_append] at h
      obtain ⟨front, piece, back, rfl, hle, hlt, htake⟩ := ih (n := n - (f first).length) (by omega)
      refine ⟨first :: front, piece, back, rfl, ?_, ?_, ?_⟩
      · rw [flatMap_cons, length_append]
        omega
      · rw [flatMap_cons, length_append]
        omega
      · rw [take_append, take_of_length_le (by omega), htake, flatMap_cons, length_append,
          append_assoc, Nat.sub_sub]

theorem flatMap_place_unique {α β : Type} (f : α → List β) {front front' back back' : List α} {piece piece' : α}
    (h : front ++ piece :: back = front' ++ piece' :: back') (hlow : (front.flatMap f).length ≤ n)
    (hhigh : n < (front.flatMap f).length + (f piece).length) (hlow' : (front'.flatMap f).length ≤ n)
    (hhigh' : n < (front'.flatMap f).length + (f piece').length) : front = front' ∧ piece = piece' := by
  rcases append_eq_append_iff.mp h with ⟨extra, rfl, hback⟩ | ⟨extra, rfl, hback⟩
  · cases extra with
    | nil =>
      cases hback
      exact ⟨(append_nil _).symm, rfl⟩
    | cons first extra =>
      cases hback
      simp only [flatMap_append, flatMap_cons, length_append] at hlow'
      omega
  · cases extra with
    | nil =>
      cases hback
      exact ⟨append_nil _, rfl⟩
    | cons first extra =>
      cases hback
      simp only [flatMap_append, flatMap_cons, length_append] at hlow
      omega

def encodeChar (c : Char) : Str := (String.utf8EncodeChar c).map UInt8.toFin

def encode (text : List Char) : Str := text.flatMap encodeChar

def replacement : Char := Char.ofNat 0xFFFD

theorem encode_append (a b : List Char) : encode (a ++ b) = encode a ++ encode b := flatMap_append

theorem encodeChar_ne_nil (c : Char) : encodeChar c ≠ [] := by
  simp [encodeChar, String.utf8EncodeChar_ne_nil]

def charAt (bytes : Str) : Option Char := (bytes.map UInt8.ofFin).toByteArray.utf8DecodeChar? 0

theorem map_encodeChar (c : Char) : (encodeChar c).map UInt8.ofFin = String.utf8EncodeChar c := by
  rw [encodeChar, map_map]
  exact map_id _

theorem charAt_encodeChar_append (c : Char) (rest : Str) : charAt (encodeChar c ++ rest) = some c := by
  rw [charAt, map_append, map_encodeChar, toByteArray_append]
  exact ByteArray.utf8DecodeChar?_utf8EncodeChar_append

variable {c : Char}

theorem charAt_cut (h : n < (encodeChar c).length) : charAt ((encodeChar c).take n) = none := by
  cases hread : charAt ((encodeChar c).take n) with
  | none => rfl
  | some d =>
    have hwhole : charAt (encodeChar c) = some d := by
      rw [← take_append_drop n (encodeChar c), charAt, map_append, toByteArray_append]
      exact ByteArray.utf8DecodeChar?_append_eq_some hread _
    have hsame : d = c := by
      have hc := charAt_encodeChar_append c []
      rw [append_nil, hwhole] at hc
      exact Option.some_inj.mp hc
    have hsize := ByteArray.le_size_of_utf8DecodeChar?_eq_some hread
    have hlen : (encodeChar c).length = c.utf8Size := by
      rw [encodeChar, length_map, String.length_utf8EncodeChar]
    rw [hsame, size_toByteArray, length_map, length_take] at hsize
    omega

/-- How bytes are read as text: `lossy` puts the replacement character for what is no character, here told for
whole characters and for a last one that was cut. -/
structure Rules where
  lossy : Str → List Char
  isBlank : Char → Bool
  lossy_encode : ∀ text, lossy (encode text) = text
  lossy_cut : ∀ text c n, 0 < n → n < (encodeChar c).length →
    lossy (encode text ++ (encodeChar c).take n) = text ++ [replacement]
  newline_blank : isBlank '\n' = true
  return_blank : isBlank '\r' = true
  replacement_not_blank : isBlank replacement = false

variable (rules : Rules)

def trim (text : List Char) : List Char := (text.dropWhile rules.isBlank).rdropWhile rules.isBlank

def chomp (line : List Char) : List Char := if line.getLast? = some '\r' then line.dropLast else line

def linesFrom (line : List Char) : List Char → List (List Char)
  | [] => if line = [] then [] else [line]
  | c :: rest => if c = '\n' then chomp line :: linesFrom [] rest else linesFrom (line ++ [c]) rest

def lines (text : List Char) : List (List Char) := linesFrom [] text

theorem linesFrom_line {before line : List Char} (h : '\n' ∉ line) (rest : List Char) :
    linesFrom before (line ++ '\n' :: rest) = chomp (before ++ line) :: lines rest := by
  induction line generalizing before with
  | nil => simp [linesFrom, lines]
  | cons c line ih =>
    obtain ⟨hc, hline⟩ := not_or.mp (mt mem_cons.mpr h)
    rw [cons_append, linesFrom, if_neg (Ne.symm hc), ih hline, append_assoc, singleton_append]

theorem linesFrom_last {before line : List Char} (h : '\n' ∉ line) :
    linesFrom before line = if before ++ line = [] then [] else [before ++ line] := by
  induction line generalizing before with
  | nil => simp [linesFrom]
  | cons c line ih =>
    obtain ⟨hc, hline⟩ := not_or.mp (mt mem_cons.mpr h)
    rw [linesFrom, if_neg (Ne.symm hc), ih hline, append_assoc, singleton_append]

variable {rules}

theorem trim_length_le (text : List Char) : (trim rules text).length ≤ text.length :=
  ( rdropWhile_prefix _ _).length_le.trans (dropWhile_suffix _).length_le

variable {first : Char} {text : List Char}

theorem trim_cons_concat {last : Char} (hfirst : (first :: text).getLast? = some last)
    (hstart : rules.isBlank first = false) (hlast : rules.isBlank last = false) :
    trim rules (first :: text) = first :: text := by
  have hdrop : (first :: text).dropWhile rules.isBlank = first :: text := by
    rw [dropWhile_cons, hstart]
    rfl
  rw [trim, hdrop]
  refine rdropWhile_eq_self_iff.mpr fun hne hblank => ?_
  rw [getLast?_eq_getLast_of_ne_nil hne, Option.some_inj] at hfirst
  rw [hfirst, hlast] at hblank
  cases hblank

theorem head_not_blank (h : trim rules (first :: text) = first :: text) :
    rules.isBlank first = false := by
  by_contra hblank
  have hlen : (trim rules (first :: text)).length ≤ text.length := by
    rw [trim, dropWhile_cons, if_pos (Bool.not_eq_false _ ▸ hblank)]
    exact trim_length_le text
  rw [h, length_cons] at hlen
  omega

theorem last_not_blank {last : Char} (h : trim rules text = text)
    (hlast : text.getLast? = some last) : rules.isBlank last = false := by
  have hne : trim rules text ≠ [] := by
    rw [h]
    rintro rfl
    cases hlast
  have hend : (trim rules text).getLast? = some last := by
    rw [h]
    exact hlast
  rw [getLast?_eq_some_getLast hne, Option.some_inj] at hend
  have hkept := rdropWhile_last_not rules.isBlank (text.dropWhile rules.isBlank) hne
  rw [← hend]
  exact Bool.eq_false_of_not_eq_true hkept

theorem trim_ne_nil (h : rules.isBlank first = false) :
    trim rules (first :: text) ≠ [] := by
  rw [trim, dropWhile_cons, h]
  intro hnil
  have hblank := rdropWhile_eq_nil_iff.mp hnil first mem_cons_self
  rw [h] at hblank
  cases hblank

variable (rules) in
def nameLines (text : List Char) : List (List Char) := ((lines text).map (trim rules)).filter (· ≠ [])

variable (rules) in
/-- A name that reads back from a line of its own. -/
structure Plain (name : List Char) : Prop where
  some : name ≠ []
  line : '\n' ∉ name
  trimmed : trim rules name = name

variable {name : List Char}

theorem Plain.chomp (h : Plain rules name) : chomp name = name := by
  unfold Text.chomp
  split
  · next hreturn =>
    have hkept := last_not_blank h.trimmed hreturn
    rw [rules.return_blank] at hkept
    cases hkept
  · rfl

def listing (listed : List (List Char)) : List Char := listed.flatMap (· ++ ['\n'])

theorem names_listing {listed : List (List Char)} (h : ∀ name ∈ listed, Plain rules name) {last : List Char}
    (hlast : '\n' ∉ last) :
    nameLines rules (listing listed ++ last) = listed ++ if trim rules last = [] then [] else [trim rules last] := by
  induction listed with
  | nil =>
    have hnil : trim rules [] = [] := rfl
    rw [listing, flatMap_nil, nil_append, nil_append, nameLines, lines, linesFrom_last hlast, nil_append]
    by_cases hempty : last = []
    · simp [hempty, hnil]
    · simp only [if_neg hempty, map_cons, map_nil, filter_cons, filter_nil, decide_eq_true_eq]
      split <;> simp_all
  | cons name rest ih =>
    obtain ⟨hname, hrest⟩ := forall_mem_cons.mp h
    have hline : listing (name :: rest) ++ last = name ++ '\n' :: (listing rest ++ last) := by
      simp [listing]
    have hread : nameLines rules (name ++ '\n' :: (listing rest ++ last)) = name :: nameLines rules (listing rest ++ last) := by
      rw [nameLines, lines, linesFrom_line hname.line, nil_append, hname.chomp, map_cons, hname.trimmed,
        filter_cons_of_pos (by simpa using hname.some)]
      rfl
    rw [hline, hread, ih hrest, cons_append]

theorem encode_cons (c : Char) (text : List Char) : encode (c :: text) = encodeChar c ++ encode text :=
  flatMap_cons

section
variable {stem back : List Char} (h : Plain rules name) (hname : name = stem ++ c :: back)
include h hname

theorem Plain.take_blank
    (hstem : stem ≠ []) : ∃ first text, stem = first :: text ∧ rules.isBlank first = false := by
  cases stem with
  | nil => exact absurd rfl hstem
  | cons first text =>
    have hwhole : trim rules (first :: (text ++ c :: back)) = first :: (text ++ c :: back) := by
      rw [← cons_append, ← hname]
      exact h.trimmed
    exact ⟨first, text, rfl, head_not_blank hwhole⟩

theorem Plain.trim_marked : trim rules (stem ++ [replacement]) = stem ++ [replacement] := by
  by_cases hstem : stem = []
  · rw [hstem]
    exact trim_cons_concat rfl rules.replacement_not_blank rules.replacement_not_blank
  · obtain ⟨first, text, rfl, hfirst⟩ := h.take_blank hname hstem
    have hlast : (first :: (text ++ [replacement])).getLast? = Option.some replacement := by
      rw [← cons_append]
      exact getLast?_concat
    exact trim_cons_concat hlast hfirst rules.replacement_not_blank

end

/-- A plain name cut inside reads as a line that is another name, but for a cut inside the replacement character it
ends in. -/
theorem Plain.cut (h : Plain rules name) (hpos : 0 < n) (hn : n < (encode name).length) :
    ∃ last, '\n' ∉ last ∧ trim rules last ≠ [] ∧
      (∀ before, rules.lossy (encode before ++ (encode name).take n) = before ++ last) ∧
      (trim rules last = name ↔ ∃ stem, name = stem ++ [replacement] ∧ (encode stem).length < n) := by
  obtain ⟨stem, c, back, hname, hle, hlt, htake⟩ := exists_take_flatMap encodeChar hn
  have hline : '\n' ∉ stem := by
    intro hmem
    exact h.line (hname ▸ mem_append_left _ hmem)
  have hsize : (encode name).length = (encode stem).length + (encodeChar c).length + (encode back).length := by
    rw [hname, encode_append, encode_cons, length_append, length_append, Nat.add_assoc]
  change (encode stem).length ≤ n at hle
  change n < (encode stem).length + (encodeChar c).length at hlt
  change (encode name).take n = encode stem ++ (encodeChar c).take (n - (encode stem).length) at htake
  rcases hle.eq_or_lt with hwhole | hinside
  · -- the cut falls between two characters
    have hstem : stem ≠ [] := by
      rintro rfl
      change 0 = n at hwhole
      omega
    obtain ⟨first, text, hstems, hfirst⟩ := h.take_blank hname hstem
    refine ⟨stem, hline, ?_, ?_, iff_of_false ?_ ?_⟩
    · rw [hstems]
      exact trim_ne_nil hfirst
    · intro before
      rw [htake, hwhole, Nat.sub_self, take_zero, append_nil, ← encode_append, rules.lossy_encode]
    · intro hsame
      have hshort : (trim rules stem).length ≤ stem.length := trim_length_le stem
      rw [hsame, hname, length_append, length_cons] at hshort
      omega
    · rintro ⟨other, hother, hless⟩
      have hfront : other = stem ++ (c :: back).dropLast := by
        have := congrArg dropLast (hother.symm.trans hname)
        rwa [dropLast_concat, dropLast_append_of_ne_nil (by simp)] at this
      rw [hfront, encode_append, length_append] at hless
      omega
  · -- the cut falls inside a character
    refine ⟨stem ++ [replacement], ?_, ?_, ?_, ?_⟩
    · rw [mem_append, mem_singleton]
      rintro (hmem | hmem)
      · exact hline hmem
      · exact absurd hmem (by decide)
    · rw [h.trim_marked hname]
      simp
    · intro before
      rw [htake, ← append_assoc, ← encode_append, rules.lossy_cut _ _ _ (by omega) (by omega), append_assoc]
    · rw [h.trim_marked hname]
      constructor
      · intro hsame
        exact ⟨stem, hsame.symm, hinside⟩
      · rintro ⟨other, hother, hless⟩
        have hfront : other = stem ++ (c :: back).dropLast := by
          have := congrArg dropLast (hother.symm.trans hname)
          rwa [dropLast_concat, dropLast_append_of_ne_nil (by simp)] at this
        cases back with
        | nil =>
          rw [dropLast_singleton, append_nil] at hfront
          rw [hother, hfront]
        | cons next back =>
          rw [hfront, dropLast_cons_cons, encode_append, encode_cons, length_append, length_append] at hless
          omega

/-- Read character by character, up to the first bytes that are none. -/
def readChars : Nat → Str → List Char
  | 0, _ => []
  | fuel + 1, bytes =>
    if bytes = [] then [] else
    match charAt bytes with
    | some c => c :: readChars fuel (bytes.drop (encodeChar c).length)
    | none => [replacement]

theorem readChars_append {rest : Str} {tail : List Char} {fuel : Nat}
    (hrest : ∀ fuel, rest.length ≤ fuel → readChars fuel rest = tail) (hfuel : (encode text ++ rest).length ≤ fuel) :
    readChars fuel (encode text ++ rest) = text ++ tail := by
  induction text generalizing fuel with
  | nil => exact hrest fuel hfuel
  | cons c text ih =>
    have hsplit : encode (c :: text) ++ rest = encodeChar c ++ (encode text ++ rest) := by
      simp [encode]
    have hsize := length_pos_iff.mpr (encodeChar_ne_nil c)
    rw [hsplit] at hfuel ⊢
    rw [length_append] at hfuel
    obtain ⟨fuel, rfl⟩ : ∃ left, fuel = left + 1 := ⟨fuel - 1, by omega⟩
    rw [readChars, if_neg (by simp [encodeChar_ne_nil]), charAt_encodeChar_append]
    simp only [drop_left, ih (by omega : (encode text ++ rest).length ≤ fuel), cons_append]

theorem readChars_cut {fuel : Nat} (hpos : 0 < n) (h : n < (encodeChar c).length)
    (hfuel : ((encodeChar c).take n).length ≤ fuel) : readChars fuel ((encodeChar c).take n) = [replacement] := by
  rw [length_take] at hfuel
  obtain ⟨fuel, rfl⟩ : ∃ left, fuel = left + 1 := ⟨fuel - 1, by omega⟩
  have hsome : (encodeChar c).take n ≠ [] := by
    rw [← length_pos_iff, length_take]
    omega
  rw [readChars, if_neg hsome, charAt_cut h]

/-- Text read up to the first bytes that are no character, with the blanks of ASCII. -/
def asciiRules : Rules where
  lossy bytes := readChars bytes.length bytes
  isBlank := Char.isWhitespace
  lossy_encode text := by
    have hread : readChars (encode text ++ []).length (encode text ++ []) = text ++ [] :=
      readChars_append (fun fuel _ => by cases fuel <;> rfl) le_rfl
    simpa using hread
  lossy_cut _ _ _ hpos h := readChars_append (fun _ hfuel => readChars_cut hpos h hfuel) le_rfl
  newline_blank := by decide
  return_blank := by decide
  replacement_not_blank := by decide

end Text
