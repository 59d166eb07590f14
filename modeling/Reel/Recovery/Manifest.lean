import Reel.Library.Text

/-!
The manifest of a store's volumes: one root path a line, rewritten in place when roots join, and checked line by
line against the configured roots when the store opens.
-/

set_option autoImplicit false

namespace Reel.Manifest
open Bytes Text List

structure ConfigError where
  message : String
  deriving DecidableEq, Repr

structure Roots where
  manifest : Option Str
  marker : Nat → Option Str

def overwrite (bytes : Str) (held : Option Str) : Str := bytes ++ (held.getD []).drop bytes.length

variable (rules : Rules)

def manifestBytes (roots : List Str) : Str := roots.flatMap fun root => encode (rules.lossy root ++ ['\n'])

def markerBytes (root : Str) : Str := encode (rules.lossy root ++ ['\n'])

def display (text : List Char) : String := String.ofList text

/-- Check the names a manifest lists against the configured roots, in order. -/
def reconcileFrom (roots : List Str) : Nat → List (List Char) → Except ConfigError Unit
  | _, [] => .ok ()
  | place, name :: rest =>
    let root := roots.getD place []
    if root ≠ encode name then
      let held := display name
      let configured := display (rules.lossy root)
      .error ⟨s!"volume {place} is {held} in the manifest and {configured} in the configuration; " ++
        "the placement table is indexed by that order and will not guess"⟩
    else reconcileFrom roots (place + 1) rest

/-- Check the manifest against the configured roots, which may only append new ones. -/
def reconcileManifest (stored : List Char) (roots : List Str) : Except ConfigError Unit :=
  let named := nameLines rules stored
  let count := named.length
  let configured := roots.length
  if configured < count then
    .error ⟨s!"the volume manifest names {count} roots and the configuration {configured}; " ++
      "a missing mount refuses rather than reading as loss"⟩
  else reconcileFrom rules roots 0 named

variable (v : Roots) (roots : List Str)

/-- Prove a root in the manifest is the volume it claims to be. -/
def verifyMarker (at' : Nat) : Except ConfigError Unit :=
  let root := roots.getD at' []
  let volume := display (rules.lossy root)
  match v.marker at' with
  | none =>
    .error ⟨s!"volume {volume} carries no marker, so it is unmounted or was never " ++
      "initialized; only a volume declared dead opens without one"⟩
  | some bytes =>
    let held := trim rules (rules.lossy bytes)
    if held ≠ rules.lossy root then
      let other := display held
      .error ⟨s!"volume {volume} carries a marker naming {other}, which is another store's " ++
        "volume standing where this one should be"⟩
    else .ok ()

def verifyMarkers (v : Roots) (roots : List Str) (dead : Nat → Bool) : List Nat → Except ConfigError Unit
  | [] => .ok ()
  | at' :: rest => do
    if !dead at' then verifyMarker rules v roots at'
    verifyMarkers v roots dead rest

def writeMarker (at' : Nat) : Roots :=
  { v with marker := Function.update v.marker at' (some (overwrite (markerBytes rules (roots.getD at' [])) (v.marker at'))) }

def stampAll (dead : Nat → Bool) (joining : List Nat) : Roots :=
  joining.foldl (fun v at' => if dead at' then v else writeMarker rules v roots at') v

def joiningFrom (named : Nat) (roots : List Str) : List Nat := range' (max named 1) (roots.length - max named 1)

def growManifest (dead : Nat → Bool) (named : Nat) : Roots :=
  let stamped := stampAll rules v roots dead (joiningFrom named roots)
  { stamped with manifest := some (overwrite (manifestBytes rules roots) stamped.manifest) }

/-- Read the manifest, verify it against the roots, and keep it current, on devices that do not fail. -/
def ensureManifest (dead : Nat → Bool) (readOnly : Bool) : Except ConfigError Roots :=
  match v.manifest with
  | none =>
    -- a single-volume store writes no manifest until a second root joins
    if readOnly || roots.length == 1 then .ok v else .ok (growManifest rules v roots dead 0)
  | some bytes => do
    let stored := rules.lossy bytes
    reconcileManifest rules stored roots
    let named := ((lines stored).filter fun line => trim rules line ≠ []).length
    verifyMarkers rules v roots dead (range' 1 (min named roots.length - 1))
    if readOnly || bytes == manifestBytes rules roots then return v
    return growManifest rules v roots dead named

/-- The manifest lists every root. A store of one root that never had another keeps none. -/
def Current : Prop :=
  v.manifest = some (manifestBytes rules roots) ∨ v.manifest = none ∧ roots.length = 1

/-- The next open passes and leaves the full list. -/
def Reopens (dead : Nat → Bool) : Prop :=
  ∃ after, ensureManifest rules v roots dead false = .ok after ∧ Current rules after roots

/-- A root whose path reads back from a line of its own. -/
structure PlainRoot (root : Str) : Prop where
  plain : Plain rules (rules.lossy root)
  utf8 : encode (rules.lossy root) = root

/-- Every root with a byte of its line below the cut reads back from that line. -/
def PlainBelow (roots : List Str) (cut : Nat) : Prop :=
  ∀ front root back, roots = front ++ root :: back → (manifestBytes rules front).length < cut → PlainRoot rules root

/-- What an open that adds roots found: the manifest of a proper part of the roots, none while there was one root at
most, and the marker of every living root it lists. -/
structure Grows (v : Roots) (roots : List Str) (dead : Nat → Bool) (old : List Str) : Prop where
  part : ∃ joining, joining ≠ [] ∧ roots = old ++ joining
  manifest : v.manifest = some (manifestBytes rules old) ∨ v.manifest = none ∧ old.length ≤ 1
  markers : ∀ at', 0 < at' → at' < old.length → dead at' = false → verifyMarker rules v roots at' = .ok ()

def torn (held : Option Str) (n : Nat) : Str :=
  (manifestBytes rules roots).take n ++ (held.getD []).drop n

def crashed (dead : Nat → Bool) (named n : Nat) : Roots :=
  { growManifest rules v roots dead named with manifest := some (torn rules roots v.manifest n) }

/-- The manifest's bytes end behind a line, or behind a path, or inside a replacement character that ends a path. -/
def CleanCut (n : Nat) : Prop :=
  (∃ front back, roots = front ++ back ∧ n = (manifestBytes rules front).length) ∨
  (∃ front root back, roots = front ++ root :: back ∧ n = (manifestBytes rules front).length + root.length) ∨
  ∃ front stem back, roots = front ++ encode (stem ++ [replacement]) :: back ∧
    (manifestBytes rules front ++ encode stem).length < n ∧
    n < (manifestBytes rules front ++ encode (stem ++ [replacement])).length

/-- A root's marker reads as the root once it is written over what the root's directory held. -/
def Stamps (at' : Nat) : Prop :=
  verifyMarker rules (writeMarker rules v roots at') roots at' = .ok ()

variable {rules}

theorem manifestBytes_append (a b : List Str) :
    manifestBytes rules (a ++ b) = manifestBytes rules a ++ manifestBytes rules b := flatMap_append

theorem manifestBytes_cons (root : Str) (rest : List Str) :
    manifestBytes rules (root :: rest) = encode (rules.lossy root ++ ['\n']) ++ manifestBytes rules rest :=
  flatMap_cons

theorem manifestBytes_eq :
    manifestBytes rules roots = encode (listing (roots.map rules.lossy)) := by
  induction roots with
  | nil => rfl
  | cons root rest ih =>
    rw [map_cons, listing, flatMap_cons, encode_append, manifestBytes_cons]
    exact congrArg _ ih

theorem reconcileFrom_ok_iff {roots : List Str} {at' : Nat} {named : List (List Char)} :
    reconcileFrom rules roots at' named = .ok () ↔
      ∀ i name, named[i]? = some name → roots.getD (at' + i) [] = encode name := by
  induction named generalizing at' with
  | nil => simp [reconcileFrom]
  | cons name rest ih =>
    rw [reconcileFrom]
    dsimp only
    split
    · next hne =>
      refine iff_of_false (by simp) fun hall => hne ?_
      exact hall 0 name rfl
    · next heq =>
      rw [ih]
      constructor
      · intro hrest i other hi
        cases i with
        | zero =>
          cases hi
          exact not_not.mp heq
        | succ i =>
          rw [← hrest i other hi]
          congr 1
          omega
      · intro hall i other hi
        rw [← hall (i + 1) other hi]
        congr 1
        omega

theorem reconcileManifest_ok_iff {stored : List Char} {roots : List Str} :
    reconcileManifest rules stored roots = .ok () ↔ (nameLines rules stored).map encode <+: roots := by
  unfold reconcileManifest
  dsimp only
  split
  · next hlong =>
    refine iff_of_false (by simp) fun hprefix => ?_
    have hle := hprefix.length_le
    rw [length_map] at hle
    omega
  · next hlong =>
    rw [reconcileFrom_ok_iff, prefix_iff_getElem?]
    simp only [length_map, getElem_map, Nat.zero_add]
    constructor
    · intro hall i hi
      have hroot := hall i _ (getElem?_eq_getElem hi)
      rw [getD_eq_getElem _ _ (by omega)] at hroot
      rw [getElem?_eq_getElem (by omega), hroot]
    · intro hall i name hname
      obtain ⟨hi, rfl⟩ := List.getElem?_eq_some_iff.mp hname
      rw [getD_eq_getElem?_getD, hall i hi, Option.getD_some]

theorem verifyMarkers_ok_iff {v : Roots} {roots : List Str} {dead : Nat → Bool} {l : List Nat} :
    verifyMarkers rules v roots dead l = .ok () ↔
      ∀ at' ∈ l, dead at' = false → verifyMarker rules v roots at' = .ok () := by
  induction l with
  | nil => simp [verifyMarkers]
  | cons at' rest ih =>
    rw [verifyMarkers, forall_mem_cons, ← ih]
    cases hdead : dead at' with
    | true => simp
    | false =>
      cases hmarker : verifyMarker rules v roots at' with
      | error error => simp [bind, Except.bind]
      | ok => simp [bind, Except.bind]

theorem named_length (stored : List Char) :
    ((lines stored).filter fun line => trim rules line ≠ []).length = (nameLines rules stored).length := by
  rw [nameLines, filter_map, length_map]
  rfl

theorem PlainRoot.line {root : Str} (h : PlainRoot rules root) :
    encode (rules.lossy root ++ ['\n']) = root ++ encode ['\n'] := by
  rw [encode_append, h.utf8]

theorem newline_length : (encode ['\n']).length = 1 := by decide

theorem names_of_roots {front : List Str} (hplain : ∀ root ∈ front, PlainRoot rules root) {last : List Char}
    (hlast : '\n' ∉ last) :
    (nameLines rules (listing (front.map rules.lossy) ++ last)).map encode =
      front ++ if trim rules last = [] then [] else [encode (trim rules last)] := by
  have hnames : ∀ name ∈ front.map rules.lossy, Plain rules name := by
    intro name hname
    obtain ⟨root, hroot, rfl⟩ := mem_map.mp hname
    exact (hplain root hroot).plain
  have hback : (front.map rules.lossy).map encode = front := by
    rw [map_map]
    refine (map_congr_left fun root hroot => ?_).trans (map_id front)
    exact (hplain root hroot).utf8
  rw [names_listing hnames hlast, map_append, hback]
  split <;> rfl

/-- What a manifest cut inside a line names, and when that is the line's root. -/
theorem names_inside {front back : List Str} {root : Str} {n : Nat}
    (hplain : ∀ other ∈ front ++ [root], PlainRoot rules other) (hlow : (manifestBytes rules front).length < n)
    (hhigh : n ≤ (manifestBytes rules front).length + root.length) :
    ∃ name, (nameLines rules (rules.lossy ((manifestBytes rules (front ++ root :: back)).take n))).map encode = front ++ [name] ∧
      (name = root ↔ n = (manifestBytes rules front).length + root.length ∨
        ∃ stem, root = encode (stem ++ [replacement]) ∧ (manifestBytes rules front ++ encode stem).length < n) := by
  have hroot : PlainRoot rules root := hplain root (by simp)
  have hfront : ∀ other ∈ front, PlainRoot rules other := fun other hother => hplain other (mem_append_left _ hother)
  have htake : (manifestBytes rules (front ++ root :: back)).take n =
      encode (listing (front.map rules.lossy)) ++ root.take (n - (manifestBytes rules front).length) := by
    have hline : manifestBytes rules (root :: back) = root ++ (encode ['\n'] ++ manifestBytes rules back) := by
      rw [manifestBytes_cons, hroot.line, append_assoc]
    rw [manifestBytes_append, hline, take_append, take_of_length_le hlow.le,
      take_append_of_le_length (by omega), manifestBytes_eq front]
  rw [htake]
  by_cases hwhole : n = (manifestBytes rules front).length + root.length
  · -- the path is whole and lacks its line feed
    refine ⟨root, ?_, iff_of_true rfl (.inl hwhole)⟩
    rw [hwhole, Nat.add_sub_cancel_left, take_length]
    nth_rewrite 1 [← hroot.utf8]
    rw [← encode_append, rules.lossy_encode, names_of_roots hfront hroot.plain.line, hroot.plain.trimmed,
      if_neg hroot.plain.some, hroot.utf8]
  · have hsize : n - (manifestBytes rules front).length < (encode (rules.lossy root)).length := by
      rw [hroot.utf8]
      omega
    obtain ⟨last, hline, hsome, hread, hiff⟩ := hroot.plain.cut (Nat.sub_pos_of_lt hlow) hsize
    rw [hroot.utf8] at hread
    refine ⟨encode (trim rules last), ?_, ?_⟩
    · rw [hread, names_of_roots hfront hline, if_neg hsome]
    · have hsame : encode (trim rules last) = root ↔ trim rules last = rules.lossy root := by
        constructor
        · intro heq
          rw [← heq, rules.lossy_encode]
        · intro heq
          rw [heq, hroot.utf8]
      rw [hsame, hiff, or_iff_right hwhole]
      refine exists_congr fun stem => and_congr ?_ ?_
      · constructor
        · intro heq
          rw [← heq, hroot.utf8]
        · intro heq
          rw [heq, rules.lossy_encode]
      · rw [length_append, Nat.lt_sub_iff_add_lt']

section cuts
variable {front back : List Str} {root : Str} {n : Nat}
  (hplain : ∀ other ∈ front ++ [root], PlainRoot rules other) (hlow : (manifestBytes rules front).length < n)
  (hhigh : n ≤ (manifestBytes rules front).length + root.length)
include hplain hlow hhigh

theorem inside_unique {front' back' : List Str} {root' : Str} (h : front ++ root :: back = front' ++ root' :: back')
    (hlow' : (manifestBytes rules front').length ≤ n) (hhigh' : n ≤ (manifestBytes rules front').length + root'.length) :
    front = front' ∧ root = root' := by
  have hline := congrArg length (hplain root (by simp)).line
  -- a line further on begins behind the cut
  have hseen : root' ∈ front ++ [root] := by
    rcases append_eq_append_iff.mp h with ⟨between, rfl, hrest⟩ | ⟨between, rfl, hrest⟩
    · cases between with
      | nil => simp_all
      | cons first between =>
        obtain ⟨rfl, -⟩ := cons.inj hrest
        rw [manifestBytes_append, manifestBytes_cons, length_append, length_append, hline, length_append,
          newline_length] at hlow'
        omega
    · cases between with
      | nil => simp_all
      | cons first between =>
        obtain ⟨rfl, -⟩ := cons.inj hrest
        simp
  have hline' := congrArg length (hplain root' hseen).line
  rw [length_append, newline_length] at hline hline'
  refine flatMap_place_unique (fun root => encode (rules.lossy root ++ ['\n'])) h hlow.le ?_ hlow' ?_
  · change n < (manifestBytes rules front).length + _
    omega
  · change n < (manifestBytes rules front').length + _
    omega

theorem cleanCut_inside_iff :
    CleanCut rules (front ++ root :: back) n ↔ n = (manifestBytes rules front).length + root.length ∨
        ∃ stem, root = encode (stem ++ [replacement]) ∧ (manifestBytes rules front ++ encode stem).length < n := by
  constructor
  · rintro (⟨front', back', hroots, hn⟩ | ⟨front', root', back', hroots, hn⟩ | ⟨front', stem, back', hroots, hlow', hhigh'⟩)
    · exfalso
      cases back' with
      | nil =>
        -- the whole manifest ends behind this line
        have hline := congrArg length (hplain root (by simp)).line
        rw [append_nil] at hroots
        rw [← hroots, manifestBytes_append, manifestBytes_cons, length_append, length_append, hline,
          length_append, newline_length] at hn
        omega
      | cons root' back' =>
        obtain ⟨rfl, rfl⟩ := inside_unique hplain hlow hhigh hroots hn.ge (by omega)
        omega
    · obtain ⟨rfl, rfl⟩ := inside_unique hplain hlow hhigh hroots (by omega) hn.le
      exact .inl hn
    · rw [length_append] at hlow' hhigh'
      obtain ⟨rfl, rfl⟩ := inside_unique hplain hlow hhigh hroots (by omega) hhigh'.le
      exact .inr ⟨stem, rfl, by rw [length_append]; exact hlow'⟩
  · rintro (hn | ⟨stem, rfl, hstem⟩)
    · exact .inr (.inl ⟨front, root, back, rfl, hn⟩)
    · rcases hhigh.eq_or_lt with heq | hlt
      · exact .inr (.inl ⟨front, _, back, rfl, heq⟩)
      · exact .inr (.inr ⟨front, stem, back, rfl, hstem, by rw [length_append]; exact hlt⟩)

end cuts

theorem PlainBelow.front {cut : Nat} {roots front back : List Str} (hplain : PlainBelow rules roots cut)
    (hroots : roots = front ++ back) (hcut : (manifestBytes rules front).length ≤ cut) :
    ∀ root ∈ front, PlainRoot rules root := by
  intro root hroot
  obtain ⟨before, after, rfl⟩ := append_of_mem hroot
  refine hplain before root (after ++ back) (by simp [hroots]) (lt_of_lt_of_le ?_ hcut)
  rw [manifestBytes_append, manifestBytes_cons, encode_append]
  simp only [length_append, newline_length]
  omega

/-- A cut lies behind a line or inside one, and what is in front of it is plain. -/
theorem exists_cut {n : Nat} (hplain : PlainBelow rules roots n) (hn : n ≤ (manifestBytes rules roots).length) :
    (∃ front back, roots = front ++ back ∧ n = (manifestBytes rules front).length ∧
      ∀ other ∈ front, PlainRoot rules other) ∨
    ∃ front root back, roots = front ++ root :: back ∧ (manifestBytes rules front).length < n ∧
      n ≤ (manifestBytes rules front).length + root.length ∧ ∀ other ∈ front ++ [root], PlainRoot rules other := by
  rcases hn.eq_or_lt with hall | hpart
  · exact .inl ⟨roots, [], (append_nil roots).symm, hall, hplain.front (append_nil roots).symm hall.ge⟩
  · obtain ⟨front, root, back, rfl, hle, hlt, -⟩ := exists_take_flatMap (fun root => encode (rules.lossy root ++ ['\n'])) hpart
    change (manifestBytes rules front).length ≤ n at hle
    change n < (manifestBytes rules front).length + _ at hlt
    have hfront := hplain.front rfl hle
    rcases hle.eq_or_lt with heq | hlow
    · exact .inl ⟨front, root :: back, rfl, heq.symm, hfront⟩
    · have hroot : PlainRoot rules root := hplain front root back rfl hlow
      have hline := congrArg length hroot.line
      rw [length_append, newline_length] at hline
      refine .inr ⟨front, root, back, rfl, hlow, by omega, fun other hother => ?_⟩
      rcases mem_append.mp hother with hmem | hmem
      · exact hfront other hmem
      · exact mem_singleton.mp hmem ▸ hroot

theorem names_whole {front back : List Str} (hplain : ∀ root ∈ front, PlainRoot rules root) :
    (nameLines rules (rules.lossy ((manifestBytes rules (front ++ back)).take (manifestBytes rules front).length))).map encode =
      front := by
  have hread : (nameLines rules (listing (front.map rules.lossy) ++ [])).map encode = front ++ [] :=
    names_of_roots hplain (by simp)
  rw [append_nil, append_nil] at hread
  rw [manifestBytes_append, take_left, manifestBytes_eq, rules.lossy_encode, hread]

theorem names_prefix_iff {roots : List Str} {n : Nat} (hplain : PlainBelow rules roots n)
    (hn : n ≤ (manifestBytes rules roots).length) :
    (nameLines rules (rules.lossy ((manifestBytes rules roots).take n))).map encode <+: roots ↔ CleanCut rules roots n := by
  rcases exists_cut roots hplain hn with ⟨front, back, rfl, rfl, hfront⟩ | ⟨front, root, back, rfl, hlow, hhigh, hfront⟩
  · rw [names_whole hfront]
    exact iff_of_true (prefix_append _ _) (.inl ⟨front, back, rfl, rfl⟩)
  · obtain ⟨name, hnames, hiff⟩ := names_inside hfront hlow hhigh
    rw [hnames, cleanCut_inside_iff hfront hlow hhigh, ← hiff, prefix_append_right_inj, singleton_prefix_cons_iff]

theorem manifestBytes_length_le (rules : Rules) (roots : List Str) {i j : Nat} (h : i ≤ j) :
    (manifestBytes rules (roots.take i)).length ≤ (manifestBytes rules (roots.take j)).length := by
  have hsplit : roots.take j = roots.take i ++ (roots.take j).drop i := by
    conv_lhs => rw [← take_append_drop i (roots.take j), take_take, Nat.min_eq_left h]
  rw [hsplit, manifestBytes_append, length_append]
  omega

theorem manifestBytes_length_succ (rules : Rules) (roots : List Str) {i : Nat} (h : i < roots.length) :
    (manifestBytes rules (roots.take i)).length < (manifestBytes rules (roots.take (i + 1))).length := by
  have hline : 0 < (encode (rules.lossy roots[i] ++ ['\n'])).length := by
    rw [encode_append, length_append, newline_length]
    omega
  rw [take_succ_eq_append_getElem h, manifestBytes_append, manifestBytes_cons, length_append, length_append]
  omega

theorem lt_names_iff {roots : List Str} {n i : Nat} (hplain : PlainBelow rules roots n)
    (hn : n ≤ (manifestBytes rules roots).length) :
    i < (nameLines rules (rules.lossy ((manifestBytes rules roots).take n))).length ↔
      (manifestBytes rules (roots.take i)).length < n := by
  -- the last root named begins below the cut and the next one does not
  have hcount : ∃ count, (nameLines rules (rules.lossy ((manifestBytes rules roots).take n))).length = count ∧
      (∀ i < count, (manifestBytes rules (roots.take i)).length < n) ∧
      n ≤ (manifestBytes rules (roots.take count)).length := by
    rcases exists_cut roots hplain hn with
      ⟨front, back, rfl, rfl, hplainFront⟩ | ⟨front, root, back, rfl, hlow, hhigh, hplainFront⟩
    · have hnames : (nameLines rules (rules.lossy ((manifestBytes rules (front ++ back)).take
          (manifestBytes rules front).length))).map encode = front :=
        names_whole hplainFront
      have hfront : (front ++ back).take front.length = front := take_left
      refine ⟨front.length, by rw [← length_map encode, hnames], fun i hi => ?_, by rw [hfront]⟩
      have hstep := manifestBytes_length_succ rules (front ++ back) (show i < (front ++ back).length by simp; omega)
      have hle := manifestBytes_length_le rules (front ++ back) (show i + 1 ≤ front.length from hi)
      rw [hfront] at hle
      omega
    · obtain ⟨name, hnames, -⟩ := names_inside hplainFront hlow hhigh
      have hfront : (front ++ root :: back).take front.length = front := take_left
      have hnext : (front ++ root :: back).take (front.length + 1) = front ++ [root] := by
        rw [take_append, take_of_length_le (by omega), Nat.add_sub_cancel_left]
        rfl
      refine ⟨front.length + 1, ?_, fun i hi => ?_, ?_⟩
      · rw [← length_map encode, hnames, length_append, length_singleton]
      · have hle := manifestBytes_length_le rules (front ++ root :: back) (Nat.lt_succ_iff.mp hi)
        rw [hfront] at hle
        omega
      · rw [hnext, manifestBytes_append, manifestBytes_cons, (hplainFront root (by simp)).line,
          length_append, length_append, length_append]
        omega
  obtain ⟨count, hlen, hbelow, habove⟩ := hcount
  rw [hlen]
  refine ⟨hbelow i, fun hlt => ?_⟩
  by_contra hge
  have hle := manifestBytes_length_le rules roots (not_lt.mp hge)
  omega

theorem verifyMarker_congr {v w : Roots} {roots : List Str} {at' : Nat} (h : v.marker at' = w.marker at') :
    verifyMarker rules v roots at' = verifyMarker rules w roots at' := by
  unfold verifyMarker
  rw [h]

section next
variable {v : Roots} {roots : List Str} {dead : Nat → Bool}

theorem stampAll_eq {l : List Nat} (hl : l.Nodup) (v : Roots) :
    (stampAll rules v roots dead l).manifest = v.manifest ∧
      ∀ i, (stampAll rules v roots dead l).marker i =
        if i ∈ l ∧ dead i = false then (writeMarker rules v roots i).marker i else v.marker i := by
  induction l generalizing v with
  | nil => simp [stampAll]
  | cons first rest ih =>
    obtain ⟨hfirst, hrest⟩ := nodup_cons.mp hl
    rw [stampAll, foldl_cons, ← stampAll]
    cases hdead : dead first with
    | true =>
      obtain ⟨hmanifest, hmarker⟩ := ih hrest v
      refine ⟨hmanifest, fun i => ?_⟩
      rw [if_pos rfl, hmarker i]
      by_cases hi : i = first
      · simp [hi, hdead]
      · simp [hi]
    | false =>
      obtain ⟨hmanifest, hmarker⟩ := ih hrest (writeMarker rules v roots first)
      refine ⟨hmanifest, fun i => ?_⟩
      rw [if_neg (by simp), hmarker i]
      by_cases hi : i = first
      · simp [hi, hdead, hfirst]
      · simp [hi, writeMarker]

theorem joiningFrom_nodup (named : Nat) (roots : List Str) : (joiningFrom named roots).Nodup := nodup_range'

theorem mem_joiningFrom {named i : Nat} : i ∈ joiningFrom named roots ↔ named ≤ i ∧ 0 < i ∧ i < roots.length := by
  rw [joiningFrom, mem_range'_1]
  omega

theorem growManifest_manifest {named : Nat} (h : (v.manifest.getD []).length ≤ (manifestBytes rules roots).length) :
    (growManifest rules v roots dead named).manifest = some (manifestBytes rules roots) := by
  rw [growManifest]
  dsimp only
  rw [(stampAll_eq (joiningFrom_nodup named roots) v).1, overwrite, drop_eq_nil_of_le h, append_nil]

theorem growManifest_marker (named i : Nat) :
    (growManifest rules v roots dead named).marker i =
      if (named ≤ i ∧ 0 < i ∧ i < roots.length) ∧ dead i = false then (writeMarker rules v roots i).marker i
      else v.marker i := by
  have hmarker : (stampAll rules v roots dead (joiningFrom named roots)).marker i = _ :=
    (stampAll_eq (joiningFrom_nodup named roots) v).2 i
  simp only [mem_joiningFrom] at hmarker
  exact hmarker

/-- An open that finds a manifest passes when the names it lists are the first roots and each shows its marker. -/
theorem ensureManifest_some {file : Str} (hmanifest : v.manifest = some file) {after : Roots} :
    ensureManifest rules v roots dead false = .ok after ↔
      (nameLines rules (rules.lossy file)).map encode <+: roots ∧
      (∀ at', 0 < at' → at' < (nameLines rules (rules.lossy file)).length → dead at' = false →
        verifyMarker rules v roots at' = .ok ()) ∧
      after = if file = manifestBytes rules roots then v
        else growManifest rules v roots dead (nameLines rules (rules.lossy file)).length := by
  rw [← reconcileManifest_ok_iff]
  simp only [ensureManifest, hmanifest, named_length]
  cases hreconcile : reconcileManifest rules (rules.lossy file) roots with
  | error error => simp [bind, Except.bind]
  | ok =>
    have hle := (reconcileManifest_ok_iff.mp hreconcile).length_le
    rw [length_map] at hle
    have hmarkers : verifyMarkers rules v roots dead
        (range' 1 (min (nameLines rules (rules.lossy file)).length roots.length - 1)) = .ok () ↔
        ∀ at', 0 < at' → at' < (nameLines rules (rules.lossy file)).length → dead at' = false →
          verifyMarker rules v roots at' = .ok () := by
      rw [verifyMarkers_ok_iff]
      simp only [mem_range'_1]
      constructor
      · intro hall at' hpos hlt
        exact hall at' ⟨hpos, by omega⟩
      · rintro hall at' ⟨hpos, hlt⟩
        exact hall at' hpos (by omega)
    rw [← hmarkers]
    cases verifyMarkers rules v roots dead
        (range' 1 (min (nameLines rules (rules.lossy file)).length roots.length - 1)) with
    | error error => simp [bind, Except.bind]
    | ok =>
      simp only [bind, Except.bind, pure, Except.pure, Bool.false_or, beq_iff_eq, true_and]
      split
      · exact ⟨fun heq => (Except.ok.inj heq).symm, fun heq => congrArg _ heq.symm⟩
      · exact ⟨fun heq => (Except.ok.inj heq).symm, fun heq => congrArg _ heq.symm⟩

theorem reopens_iff {file : Str} (hmanifest : v.manifest = some file)
    (hlen : file.length ≤ (manifestBytes rules roots).length) :
    Reopens rules v roots dead ↔
      (nameLines rules (rules.lossy file)).map encode <+: roots ∧
      ∀ at', 0 < at' → at' < (nameLines rules (rules.lossy file)).length → dead at' = false →
        verifyMarker rules v roots at' = .ok () := by
  constructor
  · rintro ⟨after, hopen, -⟩
    obtain ⟨hnames, hmarkers, -⟩ := (ensureManifest_some hmanifest).mp hopen
    exact ⟨hnames, hmarkers⟩
  · rintro ⟨hnames, hmarkers⟩
    refine ⟨_, (ensureManifest_some hmanifest).mpr ⟨hnames, hmarkers, rfl⟩, .inl ?_⟩
    split
    · next hcurrent => rw [hmanifest, hcurrent]
    · exact growManifest_manifest (by rw [hmanifest]; exact hlen)

end next

section crash
variable {v : Roots} {roots old : List Str} {dead : Nat → Bool} (h : Grows rules v roots dead old)
include h

theorem Grows.torn_eq (n : Nat) :
    torn rules roots v.manifest n = (manifestBytes rules roots).take (max n (v.manifest.getD []).length) := by
  obtain ⟨joining, -, rfl⟩ := h.part
  rcases h.manifest with hold | ⟨hnone, -⟩
  · rw [torn, hold, Option.getD_some, manifestBytes_append]
    rcases le_total n (manifestBytes rules old).length with hle | hle
    · rw [max_eq_right hle, take_left, take_append_of_le_length hle, take_append_drop]
    · rw [max_eq_left hle, drop_eq_nil_of_le hle, append_nil]
  · rw [torn, hnone]
    simp

theorem Grows.held_le : (v.manifest.getD []).length ≤ (manifestBytes rules roots).length := by
  obtain ⟨joining, -, rfl⟩ := h.part
  rcases h.manifest with hold | ⟨hnone, -⟩
  · rw [hold, Option.getD_some, manifestBytes_append, length_append]
    omega
  · rw [hnone]
    exact Nat.zero_le _

theorem Grows.reopens_untouched (hplain : PlainBelow rules roots (v.manifest.getD []).length) {marker : Nat → Option Str}
    (hmarker : ∀ i < old.length, marker i = v.marker i) : Reopens rules ⟨v.manifest, marker⟩ roots dead := by
  obtain ⟨joining, hjoining, rfl⟩ := h.part
  rcases h.manifest with hold | ⟨hnone, hone⟩
  · have hnames : (nameLines rules (rules.lossy (manifestBytes rules old))).map encode = old := by
      have hwhole : (nameLines rules (rules.lossy ((manifestBytes rules (old ++ [])).take
          (manifestBytes rules old).length))).map encode = old :=
        names_whole (hplain.front rfl (by rw [hold, Option.getD_some]))
      rwa [append_nil, take_length] at hwhole
    have hcount := congrArg length hnames
    rw [length_map] at hcount
    have hlen := h.held_le
    rw [hold, Option.getD_some] at hlen
    have hstands : (⟨v.manifest, marker⟩ : Roots).manifest = some (manifestBytes rules old) := hold
    refine (reopens_iff hstands hlen).mpr ⟨?_, fun at' hpos hlt hdead => ?_⟩
    · rw [hnames]
      exact prefix_append _ _
    · rw [hcount] at hlt
      rw [← h.markers at' hpos hlt hdead]
      exact verifyMarker_congr (hmarker at' hlt)
  · by_cases hsingle : (old ++ joining).length = 1
    · refine ⟨⟨v.manifest, marker⟩, ?_, .inr ⟨hnone, hsingle⟩⟩
      simp only [ensureManifest, hnone, hsingle, beq_self_eq_true, Bool.or_true, if_true]
    · refine ⟨growManifest rules ⟨v.manifest, marker⟩ (old ++ joining) dead 0, ?_, .inl (growManifest_manifest ?_)⟩
      · simp only [ensureManifest, hnone, beq_eq_false_iff_ne.mpr hsingle, Bool.or_self, Bool.false_eq_true, if_false]
      · rw [hnone]
        exact Nat.zero_le _

theorem Grows.markers_iff (n : Nat) {count : Nat} (hcount : count ≤ roots.length) :
    (∀ at', 0 < at' → at' < count → dead at' = false →
      verifyMarker rules (crashed rules v roots dead old.length n) roots at' = .ok ()) ↔
    ∀ at', 0 < at' → old.length ≤ at' → at' < count → dead at' = false → Stamps rules v roots at' := by
  have hsame : ∀ at', 0 < at' → at' < roots.length → dead at' = false →
      verifyMarker rules (crashed rules v roots dead old.length n) roots at' =
        verifyMarker rules (if old.length ≤ at' then writeMarker rules v roots at' else v) roots at' := by
    intro at' hpos hlt hdead
    refine verifyMarker_congr ((growManifest_marker old.length at').trans ?_)
    by_cases hjoins : old.length ≤ at'
    · rw [if_pos ⟨⟨hjoins, hpos, hlt⟩, hdead⟩, if_pos hjoins]
    · rw [if_neg fun hall => hjoins hall.1.1, if_neg hjoins]
  constructor
  · intro hall at' hpos hjoins hlt hdead
    have hmarker := hall at' hpos hlt hdead
    rwa [hsame at' hpos (by omega) hdead, if_pos hjoins] at hmarker
  · intro hall at' hpos hlt hdead
    rw [hsame at' hpos (by omega) hdead]
    split
    · next hjoins => exact hall at' hpos hjoins hlt hdead
    · next hold => exact h.markers at' hpos (not_le.mp hold) hdead

end crash

/-- Where every root listed in the file reads back from its line: a crash before the manifest is touched never locks
the store out, and a crash inside its write does not exactly where the bytes in the file end behind a line or a path
(or inside the replacement character a path ends in), and every living root that joined and has a byte of its line
there carries a marker that reads as the root. -/
theorem reopens_after_crash_iff (rules : Rules) (v : Roots) (roots old : List Str) (dead : Nat → Bool)
    (h : Grows rules v roots dead old) :
    (PlainBelow rules roots (v.manifest.getD []).length →
      ∀ marker : Nat → Option Str, (∀ i < old.length, marker i = v.marker i) →
        Reopens rules ⟨v.manifest, marker⟩ roots dead) ∧
    ∀ n ≤ (manifestBytes rules roots).length, PlainBelow rules roots (max n (v.manifest.getD []).length) →
      (Reopens rules (crashed rules v roots dead old.length n) roots dead ↔
        CleanCut rules roots (max n (v.manifest.getD []).length) ∧
        ∀ at', 0 < at' → old.length ≤ at' → at' < roots.length → dead at' = false →
          (manifestBytes rules (roots.take at')).length < max n (v.manifest.getD []).length →
          Stamps rules v roots at') := by
  refine ⟨fun hplain marker hmarker => h.reopens_untouched hplain hmarker, fun n hn hplain => ?_⟩
  have hmax : max n (v.manifest.getD []).length ≤ (manifestBytes rules roots).length := max_le hn h.held_le
  have hfile : (crashed rules v roots dead old.length n).manifest =
      some ((manifestBytes rules roots).take (max n (v.manifest.getD []).length)) := by
    rw [← h.torn_eq]
    rfl
  rw [reopens_iff hfile (by rw [length_take]; omega), names_prefix_iff hplain hmax]
  refine and_congr_right fun hclean => ?_
  have hcount := ((names_prefix_iff hplain hmax).mpr hclean).length_le
  rw [length_map] at hcount
  rw [h.markers_iff n hcount]
  constructor
  · intro hall at' hpos hjoins _ hdead hlt
    exact hall at' hpos hjoins ((lt_names_iff hplain hmax).mpr hlt) hdead
  · intro hall at' hpos hjoins hlt hdead
    exact hall at' hpos hjoins (by omega) hdead ((lt_names_iff hplain hmax).mp hlt)

def firstRoot : Str := encode ['/', 'a']

def pairRoots : List Str := [firstRoot, encode ['/', 'b', 'c']]

/-- The path of the second root ends in a blank. -/
def blankRoots : List Str := [firstRoot, encode ['/', 'b', ' ']]

def bareRoots : Roots := ⟨none, fun _ => none⟩

theorem firstRoot_plain : PlainRoot asciiRules firstRoot :=
  ⟨⟨by decide +kernel, by decide +kernel, by decide +kernel⟩, by decide +kernel⟩

theorem blankRoots_plainBelow : PlainBelow asciiRules blankRoots 3 := by
  intro front root back hroots hbytes
  cases front with
  | nil =>
    obtain ⟨rfl, -⟩ := cons.inj hroots
    exact firstRoot_plain
  | cons first front =>
    obtain ⟨rfl, -⟩ := cons.inj hroots
    have hline : (encode (asciiRules.lossy firstRoot ++ ['\n'])).length = 3 := by decide +kernel
    rw [manifestBytes_cons, length_append, hline] at hbytes
    omega

theorem bareRoots_grows (joining : Str) :
    Grows asciiRules bareRoots [firstRoot, joining] (fun _ => false) [firstRoot] where
  part := ⟨[joining], by simp, rfl⟩
  manifest := .inr ⟨rfl, le_rfl⟩
  markers := by
    intro at' hpos hlt
    simp only [length_singleton] at hlt
    omega

/-- With `/a`, a line feed and `/b` in the file the store does not open again. -/
theorem cut_path_locks_out :
    Grows asciiRules bareRoots pairRoots (fun _ => false) [firstRoot] ∧
      ¬ Reopens asciiRules (crashed asciiRules bareRoots pairRoots (fun _ => false) 1 5) pairRoots fun _ => false := by
  refine ⟨bareRoots_grows _, fun hopens => ?_⟩
  have hfile : (crashed asciiRules bareRoots pairRoots (fun _ => false) 1 5).manifest =
      some (encode ['/', 'a', '\n', '/', 'b']) := by decide +kernel
  have hnames := ((reopens_iff hfile (by decide +kernel)).mp hopens).1
  revert hnames
  decide +kernel

/-- With the first line alone in the file it does, whatever path the other root has. -/
theorem whole_line_reopens :
    Reopens asciiRules (crashed asciiRules bareRoots blankRoots (fun _ => false) 1 3) blankRoots fun _ => false := by
  have hiff := (reopens_after_crash_iff asciiRules bareRoots blankRoots [firstRoot] (fun _ => false)
    (bareRoots_grows _)).2 3 (by decide +kernel) blankRoots_plainBelow
  refine hiff.mpr ⟨.inl ⟨[firstRoot], [encode ['/', 'b', ' ']], rfl, by decide +kernel⟩, ?_⟩
  intro at' hpos _ hlt _ hbytes
  obtain rfl : at' = 1 := by
    change at' < 2 at hlt
    omega
  exact absurd hbytes (by decide +kernel)

end Reel.Manifest
